import CloudBackup.CanonicalPaths
import CloudBackup.BackupDirectory

/-!
# Normalising a path

`is_path` and `path_transform` walk over positions, and `path_transform` calls
itself through `file_dir` on the path built so far. The number of nested calls
is bounded explicitly here and shown not to matter. At every point the path
built so far stands at a place, with or without a slash at its end.
-/

set_option autoImplicit false

namespace CloudBackup.PathNormalisation
open CloudBackup.PatternSearch CloudBackup.ByteStrings CloudBackup.FilePath
  CloudBackup.CanonicalPaths
open CloudBackup.BackupDirectory (emptyComponent_append emptyComponent_root isPath_expand)

/-- The loop of `is_path`; `false` where it returns the empty string. -/
def componentsFrom (path : Bytes) (lpos : ℕ) : Bool :=
  if lpos < path.length then
    match h : findFrom [slash] lpos path with
    | none => true
    | some rpos => if rpos = lpos then false else componentsFrom path (rpos+1)
  else true
termination_by path.length-lpos
decreasing_by
  have := findFrom_ge h
  omega

def isPathString (env : Env) (path : Bytes) : Bytes :=
  if path = [] ∨ path = [slash] then path
  else if underHome path then
    match env.home with
    | none => []
    | some p => if componentsFrom path 0 then dropTrailingSlash (p ++ path.drop 1) else []
  else if path.head? = some slash then
    if componentsFrom path 1 then dropTrailingSlash path else []
  else if componentsFrom path 0 then dropTrailingSlash (bytes "./" ++ path) else []

/-- What the loop of `path_transform` does with one segment; `none` where `file_dir`
does not return. -/
def applySegment (fileDir : Bytes → Option Bytes) (absolutePath sstr : Bytes) : Option Bytes :=
  if sstr = bytes "." then some absolutePath
  else if sstr = bytes ".." then fileDir absolutePath
  else some (withSlash absolutePath ++ sstr)

def transformFrom (fileDir : Bytes → Option Bytes) (ret : Bytes) (lpos : ℕ) (absolutePath : Bytes) :
    Option Bytes :=
  if lpos < ret.length then
    match h : findFrom [slash] lpos ret with
    | none => applySegment fileDir absolutePath (ret.drop lpos)
    | some rpos => (applySegment fileDir absolutePath ((ret.drop lpos).take (rpos-lpos))).bind
        (transformFrom fileDir ret (rpos+1))
  else some absolutePath
termination_by ret.length-lpos
decreasing_by
  have := findFrom_ge h
  omega

def trimmed (absolutePath : Bytes) : Bytes :=
  if endsWithSlash absolutePath && absolutePath != [slash] then
    absolutePath.dropLast else absolutePath

/-- `none` when the calls nest deeper than the first argument allows. -/
def pathTransformIn (env : Env) : ℕ → Bytes → Option Bytes
  | 0, _ => none
  | n+1, path =>
    let ret := isPathString env path
    if ret = [] then some []
    else
      let start := if ret.head? = some slash then ([slash], 1) else (env.cwd, 0)
      (transformFrom (fun p => (pathTransformIn env n p).map dirPart) ret start.2
        start.1).map trimmed

def fileDirIn (env : Env) (n : ℕ) (path : Bytes) : Option Bytes :=
  (pathTransformIn env n path).map dirPart

/-- A leading component `~` is replaced by the home directory. -/
def untilded (env : Env) (path : Bytes) : Bytes :=
  if (path.splitOn slash).head? = some [tilde] then env.home.getD [] ++ path.drop 1 else path

def locate (cwd s : Bytes) : Place :=
  resolve (if s.head? = some slash then [] else resolve [] cwd) s

def destination (env : Env) (path : Bytes) : Place := locate env.cwd (untilded env path)

theorem findFrom_none {s : Bytes} {pos : ℕ} (hpos : pos ≤ s.length)
    (h : findFrom [slash] pos s = none) :
    slash ∉ s.drop pos := by
  rw [findFrom, if_neg (by omega), Option.map_eq_none_iff] at h
  intro hmem
  obtain ⟨front, rest, heq, hfront⟩ := List.eq_append_cons_of_mem hmem
  rw [heq, show front ++ slash::rest = front ++ ([slash] ++ rest) from rfl,
    find_after_clean slash [] front rest hfront] at h
  cases h

theorem findFrom_some {s : Bytes} {pos n : ℕ} (h : findFrom [slash] pos s = some n) :
    ∃ front rest, s.drop pos = front ++ slash::rest ∧ slash ∉ front ∧ n = pos+front.length := by
  obtain ⟨front, rest, heq, hfront⟩ := List.eq_append_cons_of_mem (findFrom_symbol h)
  obtain ⟨-, m, hm, rfl⟩ := findFrom_eq_some.mp h
  rw [heq, show front ++ slash::rest = front ++ ([slash] ++ rest) from rfl,
    find_after_clean slash [] front rest hfront] at hm
  obtain rfl := Option.some.inj hm
  exact ⟨front, rest, heq, hfront, rfl⟩

theorem drop_found {s front rest : Bytes} {pos : ℕ} (h : s.drop pos = front ++ slash::rest) :
    s.drop (pos+front.length+1) = rest ∧ pos+front.length < s.length := by
  constructor
  · rw [Nat.add_assoc, ← List.drop_drop, h, ← List.drop_drop, List.drop_left]
    rfl
  · have hlen := congrArg List.length h
    rw [List.length_drop, List.length_append, List.length_cons] at hlen
    omega

theorem emptyComponent_free (b : Bool) {s : Bytes} (h : slash ∉ s) :
    emptyComponent b s = false := by
  have := emptyComponent_append_name h b []
  simpa [emptyComponent] using this

theorem emptyComponent_slash (b : Bool) {front : Bytes} (rest : Bytes) (h : slash ∉ front) :
    emptyComponent b (front ++ slash::rest) = (b && front = [] || emptyComponent true rest) := by
  induction front generalizing b with
  | nil => simp [emptyComponent]
  | cons c front ih =>
    have hc : c ≠ slash := fun e => h (by simp [e])
    have hfront : slash ∉ front := fun e => h (by simp [e])
    rw [List.cons_append, emptyComponent, if_neg hc, ih false hfront]
    simp

theorem componentsFrom_drop (path : Bytes) (lpos : ℕ) :
    componentsFrom path lpos = !emptyComponent true (path.drop lpos) := by
  induction hlen : path.length-lpos using Nat.strong_induction_on generalizing lpos with
  | _ n ih =>
    rw [componentsFrom]
    split_ifs with hlt
    · split
      · rename_i hnone
        rw [emptyComponent_free true (findFrom_none hlt.le hnone)]
        rfl
      · rename_i rpos hsome
        obtain ⟨front, rest, heq, hfront, rfl⟩ := findFrom_some hsome
        obtain ⟨hdrop, hshort⟩ := drop_found heq
        rw [heq, emptyComponent_slash true rest hfront, ih _ (by omega) _ rfl, hdrop]
        by_cases hempty : front = []
        · simp [hempty]
        · simp [hempty]
    · rw [List.drop_of_length_le (by omega)]
      rfl

theorem isPathString_eq (env : Env) (path : Bytes) : isPathString env path = isPath env path := by
  unfold isPathString isPath
  cases env.home <;>
    simp only [componentsFrom_drop, List.drop_zero, Bool.not_eq_true', ← Bool.not_eq_true, ite_not]

theorem segmentsFrom_slash (cur rest : Bytes) {front : Bytes} (h : slash ∉ front) :
    segmentsFrom cur (front ++ slash::rest) = (cur ++ front) :: segments rest := by
  induction front generalizing cur with
  | nil =>
    rw [List.nil_append, segmentsFrom, if_pos rfl, List.append_nil]
    unfold segments
    split_ifs <;> rfl
  | cons c front ih =>
    have hc : c ≠ slash := fun e => h (by simp [e])
    have hfront : slash ∉ front := fun e => h (by simp [e])
    rw [List.cons_append, segmentsFrom, if_neg hc, ih _ hfront, List.append_assoc,
      List.singleton_append]

theorem segments_slash (rest : Bytes) {front : Bytes} (h : slash ∉ front) :
    segments (front ++ slash::rest) = front :: segments rest := by
  rw [segments, if_neg (by simp), segmentsFrom_slash [] rest h, List.nil_append]

/-- The loop of `path_transform` over the segments it reads. -/
def walkSegments (fileDir : Bytes → Option Bytes) : Bytes → List Bytes → Option Bytes
  | absolutePath, [] => some absolutePath
  | absolutePath, sstr::rest =>
    (applySegment fileDir absolutePath sstr).bind fun a => walkSegments fileDir a rest

theorem transformFrom_drop (fileDir : Bytes → Option Bytes) (ret : Bytes) (lpos : ℕ)
    (absolutePath : Bytes) :
    transformFrom fileDir ret lpos absolutePath = walkSegments fileDir absolutePath
      (segments (ret.drop lpos)) := by
  induction hlen : ret.length-lpos using Nat.strong_induction_on generalizing lpos absolutePath with
  | _ n ih =>
    rw [transformFrom]
    split_ifs with hlt
    · split
      · rename_i hnone
        have hfree := findFrom_none hlt.le hnone
        have hne : ret.drop lpos ≠ [] := by
          rw [ne_eq, List.drop_eq_nil_iff]
          omega
        rw [segments, if_neg hne, segmentsFrom_name hfree, List.nil_append, walkSegments]
        exact (Option.bind_fun_some _).symm
      · rename_i rpos hsome
        obtain ⟨front, rest, heq, hfront, rfl⟩ := findFrom_some hsome
        obtain ⟨hdrop, hshort⟩ := drop_found heq
        rw [heq, segments_slash rest hfront, walkSegments, Nat.add_sub_cancel_left, List.take_left]
        congr 1
        funext a
        rw [ih _ (by omega) _ _ rfl, hdrop]
    · rw [List.drop_of_length_le (by omega)]
      rfl

def Stands (absolutePath : Bytes) (P : Place) : Prop :=
  absolutePath = pathOf P ∨ absolutePath = dirOf P

theorem endsWithSlash_pathOf {P : Place} (h : P ≠ []) : endsWithSlash (pathOf P) = false :=
  decide_eq_false (pathOf_last h)

theorem endsWithSlash_dirOf (P : Place) : endsWithSlash (dirOf P) = true := by
  rw [dirOf]
  exact decide_eq_true List.getLast?_concat

theorem withSlash_pathOf (P : Place) : withSlash (pathOf P) = dirOf P := by
  by_cases h : P = []
  · rw [h]
    rfl
  · rw [withSlash, endsWithSlash_pathOf h, dirOf_pathOf h]
    rfl

theorem withSlash_dirOf (P : Place) : withSlash (dirOf P) = dirOf P := by
  rw [withSlash, endsWithSlash_dirOf, if_pos rfl]

theorem stands_withSlash {a : Bytes} {P : Place} (h : Stands a P) : withSlash a = dirOf P := by
  cases h with
  | inl h => rw [h, withSlash_pathOf]
  | inr h => rw [h, withSlash_dirOf]

theorem stands_ne_nil {a : Bytes} {P : Place} (h : Stands a P) : a ≠ [] := by
  cases h with
  | inl h =>
    rw [h]
    exact pathOf_ne_nil P
  | inr h => simp [h, dirOf]

theorem stands_trimmed {a : Bytes} {P : Place} (h : Stands a P) : trimmed a = pathOf P := by
  by_cases hroot : P = []
  · have hslash : a = [slash] := by
      cases h with
      | inl h => rw [h, hroot, pathOf_root]
      | inr h => rw [h, hroot, dirOf_root]
    rw [hslash, hroot]
    rfl
  · cases h with
    | inl h =>
      rw [h, trimmed, endsWithSlash_pathOf hroot]
      rfl
    | inr h =>
      have hlong : dirOf P ≠ [slash] := by
        rw [dirOf_pathOf hroot]
        intro heq
        exact pathOf_ne_nil P (List.append_cancel_right (heq.trans (List.nil_append [slash]).symm))
      rw [h, trimmed, endsWithSlash_dirOf, Bool.true_and, if_pos (bne_iff_ne.mpr hlong),
        dirOf_pathOf hroot, List.dropLast_concat]

theorem applySegment_stands {f : Bytes → Option Bytes} {a sstr : Bytes} {P : Place} (h : Stands a P)
    (hfree : slash ∉ sstr) (hdir : sstr = bytes ".." → f a = some (dirOf P.dropLast)) :
    ∃ a', applySegment f a sstr = some a' ∧ Stands a' (enter P sstr) := by
  unfold applySegment
  split_ifs with hdot hdots
  · rw [hdot, enter_dot]
    exact ⟨a, rfl, h⟩
  · rw [hdots, enter_dots]
    exact ⟨dirOf P.dropLast, hdir hdots, Or.inr rfl⟩
  · rw [stands_withSlash h]
    refine ⟨dirOf P ++ sstr, rfl, ?_⟩
    by_cases hempty : sstr = []
    · rw [hempty, enter_empty, List.append_nil]
      exact Or.inr rfl
    · obtain ⟨c, rfl⟩ := exists_component hempty hfree hdot hdots
      rw [enter_component]
      exact Or.inl (pathOf_snoc P c).symm

theorem walkSegments_stands {f : Bytes → Option Bytes} {a : Bytes} {P : Place} {segs : List Bytes}
    (h : Stands a P)
    (hfree : ∀ sstr ∈ segs, slash ∉ sstr)
    (hdir : bytes ".." ∈ segs → ∀ a P, Stands a P → f a = some (dirOf P.dropLast)) :
    ∃ a', walkSegments f a segs = some a' ∧ Stands a' (segs.foldl enter P) := by
  induction segs generalizing a P with
  | nil => exact ⟨a, rfl, h⟩
  | cons sstr segs ih =>
    obtain ⟨a', happly, hstands⟩ := applySegment_stands h (hfree sstr List.mem_cons_self)
      (fun heq => hdir (heq ▸ List.mem_cons_self) a P h)
    rw [walkSegments, happly, Option.bind_some]
    exact ih hstands (fun s hs => hfree s (List.mem_cons_of_mem _ hs))
      (fun hmem => hdir (List.mem_cons_of_mem _ hmem))

theorem segments_free {s : Bytes} (h : slash ∉ s) : segments s = if s = [] then [] else [s] := by
  rw [segments, segmentsFrom_name h, List.nil_append]

theorem segments_mem (s : Bytes) : ∀ sstr ∈ segments s, sstr ∈ s.splitOn slash := by
  induction s using text_induction with
  | free s h =>
    rw [segments_free h, List.splitOn_eq_singleton h]
    intro sstr hmem
    split_ifs at hmem
    · cases hmem
    · exact hmem
  | behind front rest hfront ih =>
    rw [segments_slash rest hfront, List.splitOn_append_cons_self_of_not_mem hfront]
    intro sstr hmem
    cases List.mem_cons.mp hmem with
    | inl heq => exact List.mem_cons.mpr (Or.inl heq)
    | inr hrest => exact List.mem_cons.mpr (Or.inr (ih sstr hrest))

theorem segments_resolve (P : Place) (s : Bytes) : (segments s).foldl enter P = resolve P s := by
  induction s using text_induction generalizing P with
  | free s h =>
    rw [segments_free h, resolve_free P h]
    split_ifs with hempty
    · rw [hempty, enter_empty, List.foldl_nil]
    · rfl
  | behind front rest hfront ih =>
    rw [segments_slash rest hfront, List.foldl_cons, ih, resolve_slash, resolve_free P hfront]

theorem emptyComponent_segments (s : Bytes) : emptyComponent true s = true ↔ [] ∈ segments s := by
  induction s using text_induction with
  | free s h =>
    rw [emptyComponent_free true h, segments_free h]
    split_ifs with hempty
    · simp
    · simpa using Ne.symm hempty
  | behind front rest hfront ih =>
    rw [emptyComponent_slash true rest hfront, segments_slash rest hfront, List.mem_cons, ← ih]
    cases front with
    | nil => simp
    | cons c front => simp

theorem emptyComponent_adjacent (b : Bool) (s : Bytes) :
    emptyComponent b s = true ↔ [slash, slash] <:+: (if b then slash::s else s) := by
  induction s generalizing b with
  | nil => cases b <;> decide
  | cons c cs ih =>
    have hfree := ih false
    have hstart := ih true
    rw [if_neg Bool.false_ne_true] at hfree
    rw [if_pos rfl] at hstart
    by_cases hc : c = slash
    · subst hc
      cases b with
      | false => simpa [emptyComponent] using hstart
      | true =>
        have hpre : [slash, slash] <:+: slash::slash::cs :=
          (List.prefix_append [slash, slash] cs).isInfix
        simp [emptyComponent, hpre]
    · have hno : ¬ [slash, slash] <+: c::cs := fun h => hc (List.cons_prefix_cons.mp h).1.symm
      have hno' : ¬ [slash, slash] <+: slash::c::cs := by
        intro h
        have hsecond := (List.cons_prefix_cons.mp h).2
        exact hc (List.cons_prefix_cons.mp hsecond).1.symm
      cases b with
      | false => simpa [emptyComponent, hc, List.infix_cons_iff, hno] using hfree
      | true => simpa [emptyComponent, hc, List.infix_cons_iff, hno, hno'] using hfree

theorem segments_pathOf (P : Place) (sstr : Bytes) (h : sstr ∈ segments ((pathOf P).drop 1)) :
    sstr ≠ [] ∧ sstr ≠ bytes "." ∧ sstr ≠ bytes ".." := by
  by_cases hroot : P = []
  · rw [hroot] at h
    cases h
  · exact (canonical_pathOf P).components (fun heq => pathOf_last hroot (by rw [heq]; rfl)) sstr
      (segments_mem _ sstr h)

theorem emptyComponent_pathOf (P : Place) : emptyComponent false (pathOf P) = false := by
  rw [← emptyComponent_root _ (pathOf_head P), ← Bool.not_eq_true, emptyComponent_segments]
  exact fun hmem => (segments_pathOf P [] hmem).1 rfl

theorem emptyComponent_dirOf {P : Place} (hroot : P ≠ []) :
    emptyComponent false (dirOf P) = false := by
  rw [dirOf_pathOf hroot, emptyComponent_append, emptyComponent_pathOf P, if_neg (pathOf_ne_nil P),
    endsWithSlash_pathOf hroot]
  rfl

theorem underHome_absolute {s : Bytes} (h : s.head? = some slash) : underHome s = false := by
  rw [underHome, h]
  rfl

theorem dropTrailingSlash_trimmed {a : Bytes} (h : a ≠ [slash]) :
    dropTrailingSlash a = trimmed a := by
  rw [dropTrailingSlash, trimmed, bne_iff_ne.mpr h, Bool.and_true]

theorem isPath_stands (env : Env) {a : Bytes} {P : Place} (h : Stands a P) :
    isPath env a = pathOf P := by
  by_cases hslash : a = [slash]
  · have htrim := stands_trimmed h
    rw [hslash] at htrim ⊢
    exact htrim
  · have hroot : P ≠ [] := by
      rintro rfl
      cases h with
      | inl h => exact hslash h
      | inr h => exact hslash h
    have hsingle : emptyComponent false a = false := by
      cases h with
      | inl h => rw [h, emptyComponent_pathOf P]
      | inr h => rw [h, emptyComponent_dirOf hroot]
    have hhead : a.head? = some slash := by
      cases h with
      | inl h => rw [h, pathOf_head]
      | inr h => rw [h, dirOf_pathOf hroot, head_append (pathOf_ne_nil P), pathOf_head]
    rw [isPath_expand env a (by simp [stands_ne_nil h, hslash]), hsingle, BackupDirectory.expand,
      underHome_absolute hhead, if_neg Bool.false_ne_true, if_neg Bool.false_ne_true, if_pos hhead]
    exact (dropTrailingSlash_trimmed hslash).trans (stands_trimmed h)

def startFrom (env : Env) (ret : Bytes) : Bytes × ℕ :=
  if ret.head? = some slash then ([slash], 1) else (env.cwd, 0)

theorem pathTransformIn_succ (env : Env) (n : ℕ) (path : Bytes) : pathTransformIn env (n+1) path =
    if isPath env path = [] then some []
    else (walkSegments (fileDirIn env n) (startFrom env (isPath env path)).1
      (segments ((isPath env path).drop (startFrom env (isPath env path)).2))).map trimmed := by
  rw [pathTransformIn]
  simp only [isPathString_eq, transformFrom_drop]
  rfl

theorem startFrom_stands (env : Env) (hcwd : Canonical env.cwd) (ret : Bytes) :
    ∃ P, Stands (startFrom env ret).1 P ∧
      (segments (ret.drop (startFrom env ret).2)).foldl enter P = locate env.cwd ret := by
  unfold startFrom locate
  split_ifs with h
  · obtain ⟨t, rfl⟩ := List.head?_eq_some_iff.mp h
    refine ⟨[], Or.inl rfl, ?_⟩
    rw [segments_resolve, resolve_lead]
    rfl
  · obtain ⟨P, hP⟩ := (canonical_iff _).mp hcwd
    refine ⟨P, Or.inl hP, ?_⟩
    rw [segments_resolve, hP, resolve_pathOf]
    rfl

theorem pathTransformIn_stands (env : Env) (n : ℕ) {a : Bytes} {P : Place} (h : Stands a P) :
    pathTransformIn env (n+1) a = some (pathOf P) := by
  rw [pathTransformIn_succ, isPath_stands env h, if_neg (pathOf_ne_nil P), startFrom,
    if_pos (pathOf_head P)]
  dsimp only
  obtain ⟨a', hwalk, hstands⟩ :=
    walkSegments_stands (f := fileDirIn env n) (a := [slash]) (P := []) (Or.inl rfl)
    (fun sstr hmem => splitOn_free _ sstr (segments_mem _ sstr hmem))
    (fun hmem => absurd rfl (segments_pathOf P _ hmem).2.2)
  rw [segments_resolve] at hstands
  have hplace : resolve [] ((pathOf P).drop 1) = P := by
    obtain ⟨t, ht⟩ := List.head?_eq_some_iff.mp (pathOf_head P)
    have hlead : resolve [] (slash::t) = P := by rw [← ht, resolve_pathOf]
    rw [ht, List.drop_one, List.tail_cons, ← resolve_lead, hlead]
  rw [hplace] at hstands
  rw [hwalk, Option.map_some, stands_trimmed hstands]

theorem dirPart_name (s : Bytes) {name : Bytes} (h : slash ∉ name) :
    dirPart (s ++ slash::name) = s ++ [slash] := by
  have hall : ∀ c ∈ name.reverse, (decide (c ≠ slash)) = true := by
    intro c hc
    have hne : c ≠ slash := fun e => h (e ▸ List.mem_reverse.mp hc)
    simpa using hne
  rw [dirPart, List.reverse_append, List.reverse_cons, List.append_assoc,
    List.dropWhile_append_of_pos hall]
  simp

theorem dirPart_pathOf (P : Place) : dirPart (pathOf P) = dirOf P.dropLast := by
  induction P using List.reverseRecOn with
  | nil => rfl
  | append_singleton P c _ =>
    rw [pathOf_snoc, dirOf, List.append_assoc, List.singleton_append, dirPart_name _ c.unbroken,
      List.dropLast_concat, dirOf]

theorem fileDirIn_stands (env : Env) (n : ℕ) {a : Bytes} {P : Place} (h : Stands a P) :
    fileDirIn env (n+1) a = some (dirOf P.dropLast) := by
  rw [fileDirIn, pathTransformIn_stands env n h, Option.map_some, dirPart_pathOf]

theorem pathTransformIn_located (env : Env) (hcwd : Canonical env.cwd) (n : ℕ) {path : Bytes}
    (hpath : isPath env path ≠ []) :
    pathTransformIn env (n+2) path = some (pathOf (locate env.cwd (isPath env path))) := by
  obtain ⟨P, hstart, hplace⟩ := startFrom_stands env hcwd (isPath env path)
  obtain ⟨a, hwalk, hstands⟩ := walkSegments_stands hstart
    (fun sstr hmem => splitOn_free _ sstr (segments_mem _ sstr hmem))
    (fun _ a Q h => fileDirIn_stands env n h)
  rw [pathTransformIn_succ, if_neg hpath, hwalk, Option.map_some, stands_trimmed hstands, hplace]

theorem pathTransformIn_refused (env : Env) (n : ℕ) {path : Bytes} (hpath : isPath env path = []) :
    pathTransformIn env (n+1) path = some [] := by
  rw [pathTransformIn_succ, if_pos hpath]

theorem walkSegments_some {f : Bytes → Option Bytes} {g : Bytes → Bytes}
    (hfg : ∀ p q, f p = some q → g p = q)
    {a r : Bytes} {segs : List Bytes} (h : walkSegments f a segs = some r) : walk g a segs = r := by
  induction segs generalizing a with
  | nil => exact Option.some.inj h
  | cons sstr segs ih =>
    rw [walkSegments] at h
    obtain ⟨a', happly, hrest⟩ := Option.bind_eq_some_iff.mp h
    rw [walk]
    unfold applySegment at happly
    split_ifs at happly ⊢
    · obtain rfl := Option.some.inj happly
      exact ih hrest
    · rw [hfg a a' happly]
      exact ih hrest
    · obtain rfl := Option.some.inj happly
      exact ih hrest

theorem startOf_startFrom (env : Env) (ret : Bytes) :
    startOf env ret = ((startFrom env ret).1, ret.drop (startFrom env ret).2) := by
  unfold startOf startFrom
  split_ifs <;> rfl

theorem pathTransformIn_some (env : Env) (n : ℕ) {path r : Bytes}
    (h : pathTransformIn env n path = some r) :
    pathTransformAt env n path = r := by
  induction n generalizing path r with
  | zero => cases h
  | succ n ih =>
    have hdir : ∀ p q, fileDirIn env n p = some q → dirPart (pathTransformAt env n p) = q := by
      intro p q hq
      obtain ⟨r', hr', rfl⟩ := Option.map_eq_some_iff.mp hq
      rw [ih hr']
    rw [pathTransformIn_succ] at h
    rw [pathTransformAt]
    dsimp only
    by_cases hempty : isPath env path = []
    · rw [if_pos hempty] at h ⊢
      exact Option.some.inj h
    · rw [if_neg hempty] at h ⊢
      obtain ⟨a, hwalk, rfl⟩ := Option.map_eq_some_iff.mp h
      rw [startOf_startFrom, walkSegments_some hdir hwalk]
      rfl

theorem underHome_iff (path : Bytes) :
    underHome path = true ↔ (path.splitOn slash).head? = some [tilde] := by
  by_cases h : slash ∈ path
  · obtain ⟨front, rest, rfl, hfront⟩ := List.eq_append_cons_of_mem h
    rw [List.splitOn_append_cons_self_of_not_mem hfront]
    rcases front with _ | ⟨c, _ | ⟨d, front⟩⟩
    · simp [underHome, slash, tilde]
    · simp [underHome]
    · have hd : d ≠ slash := fun e => hfront (by simp [e])
      simp [underHome, hd]
  · rw [List.splitOn_eq_singleton h]
    rcases path with _ | ⟨c, _ | ⟨d, path⟩⟩
    · simp [underHome]
    · simp [underHome]
    · have hd : d ≠ slash := fun e => h (by simp [e])
      simp [underHome, hd]

theorem untilded_eq (env : Env) (path : Bytes) :
    untilded env path = if underHome path then env.home.getD [] ++ path.drop 1 else path := by
  unfold untilded
  simp only [underHome_iff]

theorem locate_dropTrailingSlash (cwd : Bytes) {s : Bytes} (h : dropTrailingSlash s ≠ []) :
    locate cwd (dropTrailingSlash s) = locate cwd s := by
  unfold dropTrailingSlash at h ⊢
  split_ifs at h ⊢ with hend
  · obtain ⟨t, rfl⟩ := List.getLast?_eq_some_iff.mp (of_decide_eq_true hend)
    rw [List.dropLast_concat] at h ⊢
    rw [locate, locate, head_append h, resolve_trail]
  · rfl

theorem locate_relative (cwd : Bytes) {path : Bytes} (h : path.head? ≠ some slash) :
    locate cwd (bytes "./" ++ path) = locate cwd path := by
  have hdot : (bytes "./" ++ path).head? ≠ some slash := by simp [bytes, slash]
  rw [locate, locate, if_neg h, if_neg hdot]
  rw [show bytes "./" ++ path = bytes "." ++ slash::path from rfl, resolve_slash,
    resolve_free (s := bytes ".") _ (by decide), enter_dot]

theorem locate_isPath (env : Env) {path : Bytes} (h : isPath env path ≠ []) :
    locate env.cwd (isPath env path) = destination env path := by
  by_cases hshort : path = [] ∨ path = [slash]
  · cases hshort with
    | inl hnil =>
      rw [hnil] at h
      exact absurd rfl h
    | inr hroot =>
      rw [hroot]
      rfl
  · rw [isPath_expand env path hshort, BackupDirectory.expand] at h ⊢
    rw [destination, untilded_eq]
    by_cases hempty : emptyComponent false path = true
    · rw [if_pos hempty] at h
      exact absurd rfl h
    · rw [if_neg hempty] at h ⊢
      by_cases hhome : underHome path = true
      · rw [if_pos hhome] at h ⊢
        rw [if_pos hhome]
        cases hp : env.home with
        | none =>
          rw [hp] at h
          exact absurd rfl h
        | some p =>
          rw [hp] at h
          exact locate_dropTrailingSlash env.cwd h
      · rw [if_neg hhome] at h ⊢
        rw [if_neg hhome]
        split_ifs at h ⊢ with habs
        · exact locate_dropTrailingSlash env.cwd h
        · exact (locate_dropTrailingSlash env.cwd h).trans (locate_relative env.cwd habs)

theorem pathTransformIn_destination (env : Env) (hcwd : Canonical env.cwd) (n : ℕ) {path : Bytes}
    (hpath : isPath env path ≠ []) :
    pathTransformIn env (n+2) path = some (pathOf (destination env path)) := by
  rw [pathTransformIn_located env hcwd n hpath, locate_isPath env hpath]

theorem pathTransform_destination (env : Env) (hcwd : Canonical env.cwd) {path : Bytes}
    (hpath : isPath env path ≠ []) : pathTransform env path = pathOf (destination env path) :=
  pathTransformIn_some env 2 (pathTransformIn_destination env hcwd 0 hpath)

theorem pathTransform_refused (env : Env) {path : Bytes} (hpath : isPath env path = []) :
    pathTransform env path = [] :=
  pathTransformIn_some env 2 (pathTransformIn_refused env 1 hpath)

def Refused (path : Bytes) : Prop := path = [] ∨ [slash, slash] <:+: path

theorem refused_iff (path : Bytes) :
    Refused path ↔ path = [] ∨ emptyComponent false path = true := by
  rw [emptyComponent_adjacent]
  rfl

theorem dropTrailingSlash_nil (s : Bytes) : dropTrailingSlash s = [] ↔ s = [] ∨ s = [slash] := by
  unfold dropTrailingSlash
  split_ifs with hend
  · obtain ⟨t, rfl⟩ := List.getLast?_eq_some_iff.mp (of_decide_eq_true hend)
    simp
  · constructor
    · exact Or.inl
    · intro h
      cases h with
      | inl h => exact h
      | inr h =>
        rw [h] at hend
        exact absurd rfl hend

/-- The text that is completed is never empty, and it is a single slash only for `~` alone. -/
theorem expand_short (env : Env) (p : Bytes) (hhome : env.home = some p)
    (habs : p.head? = some slash) {path : Bytes}
    (hshort : ¬ (path = [] ∨ path = [slash])) :
    ∃ raw, BackupDirectory.expand env path = some raw ∧ raw ≠ [] ∧
      (raw = [slash] ↔ path = [tilde] ∧ p = [slash]) := by
  obtain ⟨hnil, hroot⟩ := not_or.mp hshort
  obtain ⟨t, rfl⟩ := List.head?_eq_some_iff.mp habs
  rw [BackupDirectory.expand]
  by_cases htilde : underHome path = true
  · rw [if_pos htilde, hhome]
    simp only [underHome, Bool.and_eq_true, decide_eq_true_eq] at htilde
    obtain ⟨u, rfl⟩ := List.head?_eq_some_iff.mp htilde.1
    refine ⟨_, rfl, List.cons_ne_nil _ _, ?_⟩
    simp [and_comm]
  · have hno : path ≠ [tilde] := by
      rintro rfl
      exact htilde rfl
    rw [if_neg htilde]
    split_ifs
    · exact ⟨path, rfl, hnil, by simp [hroot, hno]⟩
    · exact ⟨_, rfl, List.cons_ne_nil _ _, by simp [bytes, hno]⟩

/-- Besides the refused paths, one becomes empty: the slash of a home directory `/`
is dropped like any other. -/
theorem isPath_empty (env : Env) (p : Bytes) (hhome : env.home = some p)
    (habs : p.head? = some slash) (path : Bytes) :
    isPath env path = [] ↔ Refused path ∨ (path = [tilde] ∧ p = [slash]) := by
  rw [refused_iff]
  by_cases hshort : path = [] ∨ path = [slash]
  · cases hshort with
    | inl hnil => simp [hnil, isPath]
    | inr hroot =>
      rw [hroot]
      simp [isPath, emptyComponent, slash, tilde]
  · obtain ⟨raw, hraw, hne, hslash⟩ := expand_short env p hhome habs hshort
    rw [isPath_expand env path hshort, hraw, Option.elim_some, ← hslash]
    by_cases hempty : emptyComponent false path = true
    · simp [hempty]
    · rw [if_neg hempty, dropTrailingSlash_nil]
      simp [hempty, hne, (not_or.mp hshort).1]

theorem destination_home (env : Env) (p : Bytes) (hhome : env.home = some p)
    (habs : p.head? = some slash) {path : Bytes}
    {rest : List Bytes} (hsplit : path.splitOn slash = [tilde]::rest) :
    destination env path = rest.foldl enter (resolve [] p) := by
  obtain ⟨t, rfl⟩ := List.head?_eq_some_iff.mp habs
  have hhead : (slash::t ++ path.drop 1).head? = some slash := rfl
  rw [destination, untilded, if_pos (by rw [hsplit]; rfl), hhome, Option.getD_some, locate,
    if_pos hhead]
  by_cases h : slash ∈ path
  · obtain ⟨front, u, rfl, hfront⟩ := List.eq_append_cons_of_mem h
    rw [List.splitOn_append_cons_self_of_not_mem hfront] at hsplit
    obtain ⟨rfl, rfl⟩ := List.cons.inj hsplit
    exact resolve_slash [] (slash::t) u
  · rw [List.splitOn_eq_singleton h] at hsplit
    obtain ⟨rfl, rfl⟩ := List.cons.inj hsplit
    rw [List.drop_one, List.tail_cons, List.append_nil]
    rfl

/-- Both functions return, however deep the calls may nest, with these values. -/
def Returns (env : Env) (path r d : Bytes) : Prop :=
  ∃ n, ∀ m, n ≤ m → pathTransformIn env m path = some r ∧ fileDirIn env m path = some d

/-- Both functions return what a path stands for, and the empty string only for a refused one. -/
structure Normalised (env : Env) (path r d : Bytes) : Prop where
  returns : Returns env path r d
  empty : r = [] ↔ Refused path
  place : ¬ Refused path → r = pathOf (destination env path)
  canonical : ¬ Refused path → Canonical r
  parent : ¬ Refused path → d = dirOf (destination env path).dropLast
  idempotent : ∃ d', Returns env r r d'

theorem pathTransformIn_pathOf (env : Env) (P : Place) :
    ∃ d, Returns env (pathOf P) (pathOf P) d := by
  refine ⟨dirOf P.dropLast, 1, fun m hm => ?_⟩
  obtain ⟨k, rfl⟩ := Nat.exists_eq_add_of_le' hm
  exact ⟨pathTransformIn_stands env k (Or.inl rfl), fileDirIn_stands env k (Or.inl rfl)⟩

theorem returns_refused (env : Env) {path : Bytes} (hpath : isPath env path = []) :
    Returns env path [] [] := by
  refine ⟨1, fun m hm => ?_⟩
  obtain ⟨k, rfl⟩ := Nat.exists_eq_add_of_le' hm
  have h := pathTransformIn_refused env k hpath
  exact ⟨h, by rw [fileDirIn, h]; rfl⟩

theorem returns_destination (env : Env) (hcwd : Canonical env.cwd) {path : Bytes}
    (hpath : isPath env path ≠ []) :
    Returns env path (pathOf (destination env path)) (dirOf (destination env path).dropLast) := by
  refine ⟨2, fun m hm => ?_⟩
  obtain ⟨k, rfl⟩ := Nat.exists_eq_add_of_le' hm
  have h := pathTransformIn_destination env hcwd k hpath
  exact ⟨h, by rw [fileDirIn, h, Option.map_some, dirPart_pathOf]⟩

theorem returns_unique {env : Env} {path r d r' d' : Bytes} (h : Returns env path r d)
    (h' : Returns env path r' d') :
    r = r' ∧ d = d' := by
  obtain ⟨n, hn⟩ := h
  obtain ⟨n', hn'⟩ := h'
  obtain ⟨h1, h2⟩ := hn (max n n') (le_max_left n n')
  obtain ⟨h1', h2'⟩ := hn' (max n n') (le_max_right n n')
  exact ⟨Option.some.inj (h1.symm.trans h1'), Option.some.inj (h2.symm.trans h2')⟩

theorem normalised_refused (env : Env) {path : Bytes} (hpath : isPath env path = [])
    (hrefused : Refused path) :
    Normalised env path [] [] where
  returns := returns_refused env hpath
  empty := iff_of_true rfl hrefused
  place := fun h => absurd hrefused h
  canonical := fun h => absurd hrefused h
  parent := fun h => absurd hrefused h
  idempotent := ⟨[], returns_refused env rfl⟩

theorem normalised_destination (env : Env) (hcwd : Canonical env.cwd) {path : Bytes}
    (hpath : isPath env path ≠ [])
    (hrefused : ¬ Refused path) :
    Normalised env path (pathOf (destination env path))
      (dirOf (destination env path).dropLast) where
  returns := returns_destination env hcwd hpath
  empty := iff_of_false (pathOf_ne_nil _) hrefused
  place := fun _ => rfl
  canonical := fun _ => canonical_pathOf _
  parent := fun _ => rfl
  idempotent := pathTransformIn_pathOf env _

theorem not_normalised (env : Env) {path : Bytes} (hpath : isPath env path = [])
    (hrefused : ¬ Refused path) (r d : Bytes) :
    ¬ Normalised env path r d := by
  intro hnorm
  have hnil := (returns_unique hnorm.returns (returns_refused env hpath)).1
  exact hrefused (hnorm.empty.mp hnil)

theorem not_refused_tilde : ¬ Refused [tilde] := by
  rw [refused_iff]
  decide

/-- Normalisation is right for every path except `~` where the home directory is the root. -/
theorem pathTransform_normalised (env : Env) (hcwd : Canonical env.cwd) (p : Bytes)
    (hhome : env.home = some p)
    (habs : p.head? = some slash) (path : Bytes) :
    (∃ r d, Normalised env path r d) ↔ ¬ (path = [tilde] ∧ p = [slash]) := by
  have hempty := isPath_empty env p hhome habs path
  constructor
  · rintro ⟨r, d, hnorm⟩ hroot
    have hrefused : ¬ Refused path := by
      rw [hroot.1]
      exact not_refused_tilde
    exact not_normalised env (hempty.mpr (Or.inr hroot)) hrefused r d hnorm
  · intro hroot
    by_cases hpath : isPath env path = []
    · exact ⟨[], [], normalised_refused env hpath ((hempty.mp hpath).resolve_right hroot)⟩
    · have hrefused : ¬ Refused path := fun h => hpath (hempty.mpr (Or.inl h))
      exact ⟨_, _, normalised_destination env hcwd hpath hrefused⟩

def rootHome : Env := { plainEnv with home := some [slash] }

theorem canonical_root : Canonical [slash] := canonical_pathOf []

theorem pathTransform_normalised_home :
    (∃ r d, Normalised rootHome (bytes "~/a/../.") r d) ↔
      ¬ (bytes "~/a/../." = [tilde] ∧ [slash] = [slash]) :=
  pathTransform_normalised rootHome canonical_root [slash] rfl rfl (bytes "~/a/../.")

/-- The home directory itself is lost. -/
theorem rootHome_lost :
    pathTransform rootHome (bytes "~") = [] ∧ (∀ r d, ¬ Normalised rootHome (bytes "~") r d) := by
  constructor
  · exact pathTransform_refused rootHome (by decide)
  · exact not_normalised rootHome (by decide) not_refused_tilde

end CloudBackup.PathNormalisation
