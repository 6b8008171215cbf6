import CloudBackup.FilePath

/-!
# The backup directory and its children

Normalising leaves no two adjacent slashes behind, so the path of an accepted
name is the normalised directory, one slash and the name. The prefix that all
these paths share is therefore the directory as it is scanned.
-/

set_option autoImplicit false

namespace CloudBackup.BackupDirectory
open CloudBackup.ByteStrings CloudBackup.FilePath

def Single (s : Bytes) : Prop := emptyComponent false s = false

/-- The current directory has no empty component, and the home directory no
trailing slash. -/
structure Canonical (env : Env) : Prop where
  cwd : Single env.cwd
  home : ∀ p, env.home = some p → endsWithSlash p = false

theorem emptyComponent_append (b : Bool) (s t : Bytes) : emptyComponent b (s ++ t) =
    (emptyComponent b s || emptyComponent (if s = [] then b else endsWithSlash s) t) := by
  induction s generalizing b with
  | nil => simp [emptyComponent]
  | cons c cs ih =>
    have hlast : (if cs = [] then decide (c = slash) else endsWithSlash cs) = endsWithSlash
      (c::cs) := by
      cases cs with
      | nil => simp [endsWithSlash]
      | cons d ds => simp [endsWithSlash, List.getLast?_cons_cons]
    rw [List.cons_append, emptyComponent, emptyComponent, ih, ih,
      if_neg (List.cons_ne_nil c cs), ← hlast]
    by_cases hc : c = slash <;> simp [hc, Bool.or_assoc]

theorem single_front {s t : Bytes} (hst : s <+: t) (h : Single t) : Single s := by
  obtain ⟨u, rfl⟩ := hst
  rw [Single, emptyComponent_append, Bool.or_eq_false_iff] at h
  exact h.1

theorem single_withSlash {s : Bytes} (h : Single s) : Single (withSlash s) := by
  unfold withSlash
  split_ifs with hs
  · exact h
  · have hend : (if s = [] then false else endsWithSlash s) = false := by
      split_ifs
      · rfl
      · simpa using hs
    rw [Single, emptyComponent_append, h, hend]
    rfl

theorem single_name {s name : Bytes} (h : Single s) (hname : slash ∉ name) :
    Single (s ++ name) := by
  rwa [Single, emptyComponent_append_name hname]

theorem single_dropLast {s : Bytes} (h : Single s) (hs : endsWithSlash s = true) :
    endsWithSlash s.dropLast = false := by
  obtain ⟨t, rfl⟩ := List.getLast?_eq_some_iff.mp (of_decide_eq_true hs)
  rw [List.dropLast_concat]
  rw [Single, emptyComponent_append, Bool.or_eq_false_iff] at h
  by_cases ht : t = []
  · subst ht
    rfl
  · rw [if_neg ht] at h
    have hlast := h.2
    simp only [emptyComponent, if_true, Bool.or_false] at hlast
    exact hlast

theorem dirPart_front (s : Bytes) : dirPart s <+: s := by
  rw [← List.reverse_suffix, dirPart, List.reverse_reverse]
  exact List.dropWhile_suffix _

theorem segmentsFrom_names (cur s : Bytes) (hcur : slash ∉ cur) :
    ∀ seg ∈ segmentsFrom cur s, slash ∉ seg := by
  induction s generalizing cur with
  | nil =>
    intro seg hseg
    rw [segmentsFrom, List.mem_singleton] at hseg
    rwa [hseg]
  | cons c cs ih =>
    intro seg hseg
    unfold segmentsFrom at hseg
    split_ifs at hseg with hc hcs
    · rw [List.mem_singleton] at hseg
      rwa [hseg]
    · rcases List.mem_cons.mp hseg with rfl | hseg
      · exact hcur
      · exact ih [] List.not_mem_nil seg hseg
    · apply ih (cur ++ [c]) _ seg hseg
      rw [List.mem_append, List.mem_singleton, not_or]
      exact ⟨hcur, fun h => hc h.symm⟩

theorem segments_names (s : Bytes) : ∀ seg ∈ segments s, slash ∉ seg := by
  unfold segments
  split_ifs
  · intro seg hseg
    exact absurd hseg List.not_mem_nil
  · exact segmentsFrom_names [] s List.not_mem_nil

theorem single_walk (f : Bytes → Bytes) (hf : ∀ p, Single (f p)) (a : Bytes) (ha : Single a)
    (segs : List Bytes) (hsegs : ∀ seg ∈ segs, slash ∉ seg) : Single (walk f a segs) := by
  induction segs generalizing a with
  | nil => exact ha
  | cons seg segs ih =>
    have hrest := fun s hs => hsegs s (List.mem_cons_of_mem seg hs)
    unfold walk
    split_ifs
    · exact ih a ha hrest
    · exact ih _ (hf a) hrest
    · exact ih _ (single_name (single_withSlash ha) (hsegs seg List.mem_cons_self)) hrest

theorem single_startOf {env : Env} (hcwd : Single env.cwd) (ret : Bytes) :
    Single (startOf env ret).1 := by
  unfold startOf
  split_ifs
  · rfl
  · exact hcwd

theorem single_pathTransformAt {env : Env} (hcwd : Single env.cwd) (n : ℕ) (path : Bytes) :
    Single (pathTransformAt env n path) := by
  induction n generalizing path with
  | zero => rfl
  | succ n ih =>
    have hwalk := single_walk (fun p => dirPart (pathTransformAt env n p))
      (fun p => single_front (dirPart_front _) (ih p))
      _ (single_startOf hcwd (isPath env path)) _ (segments_names (startOf env (isPath env path)).2)
    simp only [pathTransformAt]
    split_ifs
    · rfl
    · exact single_front (List.dropLast_prefix _) hwalk
    · exact hwalk

theorem withSlash_dropTrailingSlash (s : Bytes)
    (h : endsWithSlash s = true → endsWithSlash s.dropLast = false) :
    withSlash (dropTrailingSlash s) = withSlash s := by
  unfold dropTrailingSlash
  split_ifs with hs
  · obtain ⟨t, rfl⟩ := List.getLast?_eq_some_iff.mp (of_decide_eq_true hs)
    have ht := h hs
    rw [List.dropLast_concat] at ht ⊢
    rw [withSlash, if_neg (by rw [ht]; exact Bool.false_ne_true), withSlash, if_pos hs]
  · rfl

theorem dropTrailingSlash_end (s : Bytes)
    (h : endsWithSlash s = true → endsWithSlash s.dropLast = false) :
    endsWithSlash (dropTrailingSlash s) = false := by
  unfold dropTrailingSlash
  split_ifs with hs
  · exact h hs
  · simpa using hs

theorem segmentsFrom_withSlash (cur s : Bytes) (hs : s ≠ []) (hend : endsWithSlash s = false) :
    segmentsFrom cur (s ++ [slash]) = segmentsFrom cur s := by
  induction s generalizing cur with
  | nil => exact absurd rfl hs
  | cons c cs ih =>
    by_cases hcs : cs = []
    · subst hcs
      have hc : c ≠ slash := by
        rintro rfl
        exact absurd hend (by decide)
      simp [segmentsFrom, hc]
    · have hrest : endsWithSlash cs = false := by
        cases cs with
        | nil => exact absurd rfl hcs
        | cons d ds => simpa [endsWithSlash, List.getLast?_cons_cons] using hend
      simp [segmentsFrom, hcs, ih _ hcs hrest]

theorem segments_withSlash (s : Bytes) (hs : s ≠ []) (hend : endsWithSlash s = false) :
    segments (withSlash s) = segments s := by
  rw [withSlash, if_neg (by rw [hend]; exact Bool.false_ne_true), segments, segments,
    if_neg (by simp), if_neg hs]
  exact segmentsFrom_withSlash [] s hs hend

theorem startOf_withSlash (env : Env) (q : Bytes) (hq : q ≠ [])
    (hend : endsWithSlash q = true → q = [slash]) :
    (startOf env (withSlash q)).1 = (startOf env q).1 ∧
      segments (startOf env (withSlash q)).2 = segments (startOf env q).2 := by
  have hhead : (withSlash q).head? = q.head? := by
    unfold withSlash
    split_ifs
    · rfl
    · exact head_append hq
  by_cases hroot : q = [slash]
  · subst hroot
    exact ⟨rfl, rfl⟩
  have hno : endsWithSlash q = false := by
    by_contra h
    exact hroot (hend (by simpa using h))
  unfold startOf
  rw [hhead]
  split_ifs with hh
  · refine ⟨rfl, ?_⟩
    match q, hq with
    | [c], _ => exact absurd (by simpa using hh) (fun h : c = slash => hroot (by rw [h]))
    | c::d::ds, _ =>
      rw [withSlash_cons c (d::ds) (by simp), List.drop_one, List.tail_cons, List.drop_one,
        List.tail_cons]
      apply segments_withSlash _ (List.cons_ne_nil d ds)
      simpa [endsWithSlash, List.getLast?_cons_cons] using hno
  · exact ⟨rfl, segments_withSlash q hq hno⟩

theorem withSlash_append (s t : Bytes) (ht : t ≠ []) : withSlash (s ++ t) = s ++ withSlash t := by
  have hend : endsWithSlash (s ++ t) = endsWithSlash t := by
    rw [endsWithSlash, List.getLast?_append_of_ne_nil _ ht, endsWithSlash]
  unfold withSlash
  rw [hend]
  split_ifs
  · rfl
  · rw [List.append_assoc]

/-- The text that `is_path` completes a path to, before a trailing slash goes. -/
def expand (env : Env) (path : Bytes) : Option Bytes :=
  if underHome path then env.home.map fun p => p ++ path.drop 1
  else if path.head? = some slash then some path else some (bytes "./" ++ path)

theorem emptyComponent_start (b : Bool) (path : Bytes) (h : path.head? ≠ some slash) :
    emptyComponent b path = emptyComponent false path := by
  cases path with
  | nil => rfl
  | cons c cs =>
    have hc : c ≠ slash := fun e => h (by rw [e]; rfl)
    simp [emptyComponent, hc]

theorem emptyComponent_root (path : Bytes) (h : path.head? = some slash) :
    emptyComponent true (path.drop 1) = emptyComponent false path := by
  cases path with
  | nil => cases h
  | cons c cs =>
    obtain rfl := Option.some.inj h
    rfl

theorem underHome_head (path : Bytes) (h : underHome path = true) : path.head? ≠ some slash := by
  simp only [underHome, Bool.and_eq_true, decide_eq_true_eq] at h
  rw [h.1]
  decide

theorem isPath_expand (env : Env) (path : Bytes) (h : ¬ (path = [] ∨ path = [slash])) :
    isPath env path = if emptyComponent false path then
      [] else (expand env path).elim [] dropTrailingSlash := by
  rw [isPath, if_neg h, expand]
  by_cases hu : underHome path = true
  · rw [if_pos hu, if_pos hu, emptyComponent_start true path (underHome_head path hu)]
    cases env.home with
    | none => simp
    | some p => rfl
  · rw [if_neg hu, if_neg hu]
    by_cases hr : path.head? = some slash
    · rw [if_pos hr, if_pos hr, emptyComponent_root path hr]
      rfl
    · rw [if_neg hr, if_neg hr, emptyComponent_start true path hr]
      rfl

theorem single_tail {c : UInt8} {cs : Bytes} (hc : c ≠ slash) (h : Single (c::cs)) : Single cs := by
  rw [Single, emptyComponent, if_neg hc] at h
  exact h

section Directory
variable {env : Env} (hcan : Canonical env) {dir : Bytes}

theorem expand_end (hcan : Canonical env) (hdir : Single dir) (raw : Bytes)
    (hraw : expand env dir = some raw)
    (hend : endsWithSlash raw = true) : endsWithSlash raw.dropLast = false := by
  unfold expand at hraw
  split_ifs at hraw with hu hr
  · obtain ⟨p, hp, rfl⟩ := Option.map_eq_some_iff.mp hraw
    have hhome := hcan.home p hp
    match dir, hu with
    | c::cs, hu =>
      have hc : c ≠ slash := fun e => underHome_head (c::cs) hu (by rw [e]; rfl)
      have hcs := single_tail hc hdir
      rw [List.drop_one, List.tail_cons] at hend ⊢
      by_cases hnil : cs = []
      · rw [hnil, List.append_nil, hhome] at hend
        cases hend
      · rw [endsWithSlash, List.getLast?_append_of_ne_nil _ hnil] at hend
        have hlast := single_dropLast hcs hend
        rw [List.dropLast_append_of_ne_nil hnil]
        by_cases hone : cs.dropLast = []
        · rwa [hone, List.append_nil]
        · rw [endsWithSlash, List.getLast?_append_of_ne_nil _ hone]
          exact hlast
  · obtain rfl := Option.some.inj hraw
    exact single_dropLast hdir hend
  · obtain rfl := Option.some.inj hraw
    apply single_dropLast _ hend
    have hstart := emptyComponent_start true dir hr
    rw [hdir] at hstart
    exact hstart

theorem expand_child (hcan : Canonical env) (hne : dir ≠ []) (name : Bytes) (hname : name ≠ []) :
    expand env (withSlash dir ++ name) = (expand env dir).map fun raw => withSlash raw ++ name := by
  unfold expand
  rw [underHome_child hne name hname, head_child hne name]
  split_ifs with hu hr
  · rw [List.drop_append_of_le_length (List.length_pos_iff.mpr (withSlash_ne_nil dir)),
      Option.map_map]
    apply Option.map_congr
    intro p hp
    rw [Function.comp_apply, ← List.append_assoc]
    congr 1
    match dir, hne with
    | [c], _ =>
      have hc : c ≠ slash := fun e => underHome_head [c] hu (by rw [e]; rfl)
      have hhome := hcan.home p hp
      simp [withSlash, endsWithSlash, hc]
      simpa [endsWithSlash] using hhome
    | c::d::ds, _ =>
      rw [withSlash_cons c (d::ds) (by simp), List.drop_one, List.tail_cons, List.drop_one,
        List.tail_cons, withSlash_append p _ (List.cons_ne_nil d ds)]
  · rfl
  · rw [Option.map_some, withSlash_append _ _ hne, List.append_assoc]

theorem isPath_end (hcan : Canonical env) (hdir : isPath env dir ≠ [])
    (hend : endsWithSlash (isPath env dir) = true) : isPath env dir = [slash] := by
  by_cases h : dir = [] ∨ dir = [slash]
  · rcases h with rfl | rfl
    · exact absurd rfl hdir
    · rfl
  · rw [isPath_expand env dir h] at hdir hend
    split_ifs at hdir hend with he
    · exact absurd rfl hdir
    · cases hraw : expand env dir with
      | none =>
        rw [hraw] at hdir
        exact absurd rfl hdir
      | some raw =>
        rw [hraw, Option.elim_some] at hend
        have hstop := dropTrailingSlash_end raw
          (expand_end hcan (Bool.eq_false_iff.mpr he) raw hraw)
        rw [hstop] at hend
        cases hend

theorem isPath_name (hcan : Canonical env) (hdir : isPath env dir ≠ []) (name : Bytes)
    (hname : name ≠ [])
    (hslash : slash ∉ name) :
    isPath env (withSlash dir ++ name) = withSlash (isPath env dir) ++ name := by
  have hne : dir ≠ [] := accepted_ne_nil hdir
  rw [isPath_expand env _ (child_long hname), emptyComponent_append_name hslash,
    emptyComponent_withSlash false dir hne, expand_child hcan hne name hname]
  by_cases h : dir = [slash]
  · subst h
    simp only [expand, underHome, emptyComponent]
    simp [dropTrailingSlash_append_name hname hslash, isPath, slash, tilde]
  · have hshort : ¬ (dir = [] ∨ dir = [slash]) := by
      rintro (h' | h')
      · exact hne h'
      · exact h h'
    rw [isPath_expand env dir hshort] at hdir ⊢
    split_ifs at hdir ⊢ with he
    · exact absurd rfl hdir
    · cases hraw : expand env dir with
      | none =>
        rw [hraw] at hdir
        exact absurd rfl hdir
      | some raw =>
        rw [Option.map_some, Option.elim_some, Option.elim_some,
          dropTrailingSlash_append_name hname hslash,
          withSlash_dropTrailingSlash raw (expand_end hcan (Bool.eq_false_iff.mpr he) raw hraw)]

theorem pathTransform_name (hcan : Canonical env) (hdir : isPath env dir ≠ []) (name : Bytes)
    (hname : name ≠ [])
    (hslash : slash ∉ name) (hdot : name ≠ bytes ".") (hdots : name ≠ bytes "..") :
    pathTransform env (withSlash dir ++ name) = withSlash (pathTransform env dir) ++ name := by
  let q := isPath env dir
  let f := fun p => dirPart (pathTransformAt env 1 p)
  let a := walk f (startOf env q).1 (segments (startOf env q).2)
  obtain ⟨hstart, hsegs⟩ := startOf_withSlash env q hdir (isPath_end hcan hdir)
  have hsingle : Single a :=
    single_walk f (fun p => single_front (dirPart_front _) (single_pathTransformAt hcan.cwd 1 p))
    _ (single_startOf hcan.cwd q) _ (segments_names _)
  have hself : pathTransform env dir =
      if endsWithSlash a && a != [slash] then a.dropLast else a := by
    rw [pathTransform, pathTransformAt]
    dsimp only
    rw [if_neg hdir]
  have hsame : withSlash (pathTransform env dir) = withSlash a := by
    rw [hself]
    split_ifs with h
    · have hdrop := withSlash_dropTrailingSlash a (single_dropLast hsingle)
      rwa [dropTrailingSlash, if_pos (Bool.and_eq_true_iff.mp h).1] at hdrop
    · rfl
  have hr := withSlash_ne_nil q
  have htail := startOf_end env hr (endsWithSlash_withSlash q)
  have hchild : pathTransform env (withSlash dir ++ name) = withSlash a ++ name := by
    rw [pathTransform, pathTransformAt]
    dsimp only
    rw [isPath_name hcan hdir name hname hslash, if_neg (by simp [hname]),
      startOf_append env hr name]
    simp only [segments_append_name hname hslash _ htail]
    rw [walk_append_name _ _ _ name hdot hdots, endsWithSlash_append_name hname hslash,
      hstart, hsegs]
    rfl
  rw [hchild, hsame]

end Directory

end CloudBackup.BackupDirectory
