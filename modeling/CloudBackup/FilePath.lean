import CloudBackup.ByteStrings

/-!
# Paths of the files the program touches

Every `FileUtil` normalises its path against the home directory, the root
or the current directory. The loops over positions are written as
recursions over the part of the path not yet read. The backup directory of
a deployment turns an accepted file name into a path by one fixed prefix.
-/

set_option autoImplicit false

namespace CloudBackup.FilePath
open CloudBackup.ByteStrings

/-- The configuration and the operating system as the program sees them.
`isDirectory` answers for paths as `c_str()` hands them over; `streamBuffer` is the length from
which an output stream hands a write on at once. -/
structure Env where
  backupFileDir : Bytes
  dataManagerFilepath : Bytes
  cwd : Bytes
  home : Option Bytes
  isDirectory : Bytes → Bool
  maxFileReadSize : ℕ
  lruFileContentSize : ℕ
  lruFileCapacity : ℕ
  streamBuffer : ℕ

def plainEnv : Env where
  backupFileDir := bytes "/backup/"
  dataManagerFilepath := bytes "/meta"
  cwd := bytes "/"
  home := none
  isDirectory := fun path => path = bytes "/backup" || path = bytes "/"
  maxFileReadSize := 1024
  lruFileContentSize := 1024
  lruFileCapacity := 10
  streamBuffer := 1024

def checkFilename (filename : Bytes) : Bool :=
  !filename.isEmpty && filename.all fun ch => ch != slash && ch != quote

/-- Two adjacent slashes, or a slash where a component should start. -/
def emptyComponent : Bool → Bytes → Bool
  | _, [] => false
  | atStart, c::cs => if c = slash then
      atStart || emptyComponent true cs else emptyComponent false cs

def endsWithSlash (s : Bytes) : Bool := s.getLast? = some slash

def dropTrailingSlash (s : Bytes) : Bytes := if endsWithSlash s then s.dropLast else s

def underHome (path : Bytes) : Bool :=
  path.head? = some tilde && (path.length = 1 || path[1]? = some slash)

def isPath (env : Env) (path : Bytes) : Bytes :=
  if path = [] ∨ path = [slash] then path
  else if underHome path then
    match env.home with
    | none => []
    | some p => if emptyComponent true path then [] else dropTrailingSlash (p ++ path.drop 1)
  else if path.head? = some slash then
    if emptyComponent true (path.drop 1) then [] else dropTrailingSlash path
  else if emptyComponent true path then [] else dropTrailingSlash (bytes "./" ++ path)

/-- The segments the loop of `path_transform` reads; a trailing slash starts
no further segment. -/
def segmentsFrom : Bytes → Bytes → List Bytes
  | cur, [] => [cur]
  | cur, c::cs =>
    if c = slash then if cs = [] then [cur] else cur :: segmentsFrom [] cs
    else segmentsFrom (cur ++ [c]) cs

def segments (s : Bytes) : List Bytes := if s = [] then [] else segmentsFrom [] s

def withSlash (s : Bytes) : Bytes := if endsWithSlash s then s else s ++ [slash]

/-- `ret.substr(0, ret.find_last_of('/') + 1)`. -/
def dirPart (ret : Bytes) : Bytes := (ret.reverse.dropWhile (· ≠ slash)).reverse

def walk (fileDir : Bytes → Bytes) : Bytes → List Bytes → Bytes
  | absolutePath, [] => absolutePath
  | absolutePath, sstr::rest =>
    if sstr = bytes "." then walk fileDir absolutePath rest
    else if sstr = bytes ".." then walk fileDir (fileDir absolutePath) rest
    else walk fileDir (withSlash absolutePath ++ sstr) rest

def startOf (env : Env) (ret : Bytes) : Bytes × Bytes :=
  if ret.head? = some slash then ([slash], ret.drop 1) else (env.cwd, ret)

/-- `path_transform` calls itself through `file_dir`, but only on the
absolute path built so far; the first argument bounds that nesting. -/
def pathTransformAt (env : Env) : ℕ → Bytes → Bytes
  | 0, _ => []
  | n+1, path =>
    let ret := isPath env path
    if ret = [] then []
    else
      let start := startOf env ret
      let absolutePath :=
        walk (fun p => dirPart (pathTransformAt env n p)) start.1 (segments start.2)
      if endsWithSlash absolutePath && absolutePath != [slash] then absolutePath.dropLast
      else absolutePath

def pathTransform (env : Env) (path : Bytes) : Bytes := pathTransformAt env 2 path

def fileDir (env : Env) (path : Bytes) : Bytes := dirPart (pathTransform env path)

/-- `FileUtil target_file(target_file_dir + filename)`. -/
def targetFile (env : Env) (filename : Bytes) : Bytes :=
  pathTransform env (withSlash env.backupFileDir ++ filename)

/-- The name the operating system acts on. -/
def targetPath (env : Env) (filename : Bytes) : Bytes := cstr (targetFile env filename)

theorem checkFilename_iff (filename : Bytes) :
    checkFilename filename = true ↔
      filename ≠ [] ∧ slash ∉ filename ∧ quote ∉ filename := by
  simp only [checkFilename, Bool.and_eq_true, Bool.not_eq_true', List.isEmpty_eq_false_iff,
    List.all_eq_true, bne_iff_ne, ne_eq]
  constructor
  · rintro ⟨hne, hall⟩
    exact ⟨hne, fun h => (hall _ h).1 rfl, fun h => (hall _ h).2 rfl⟩
  · rintro ⟨hne, hs, hq⟩
    exact ⟨hne, fun c hc => ⟨fun h => hs (h ▸ hc), fun h => hq (h ▸ hc)⟩⟩

section Child
variable {name : Bytes} (hne : name ≠ []) (hslash : slash ∉ name)
include hne hslash

omit hne in
theorem endsWithSlash_name : endsWithSlash name = false := by
  simp only [endsWithSlash, decide_eq_false_iff_not]
  exact fun h => hslash (List.mem_of_getLast? h)

theorem endsWithSlash_append_name (s : Bytes) : endsWithSlash (s ++ name) = false := by
  rw [endsWithSlash, List.getLast?_append_of_ne_nil _ hne]
  exact endsWithSlash_name hslash

theorem dropTrailingSlash_append_name (s : Bytes) :
    dropTrailingSlash (s ++ name) = s ++ name := by
  simp [dropTrailingSlash, endsWithSlash_append_name hne hslash]

omit hne in
theorem emptyComponent_append_name (b : Bool) (s : Bytes) :
    emptyComponent b (s ++ name) = emptyComponent b s := by
  induction s generalizing b with
  | nil =>
    induction name generalizing b with
    | nil => rfl
    | cons c cs ih =>
      have hc : c ≠ slash := fun h => hslash (by simp [h])
      have hcs : slash ∉ cs := fun h => hslash (by simp [h])
      simpa [emptyComponent, hc] using ih hcs false
  | cons c cs ih => simp [emptyComponent, ih]

omit hne in
theorem segmentsFrom_name (cur : Bytes) : segmentsFrom cur name = [cur ++ name] := by
  induction name generalizing cur with
  | nil => simp [segmentsFrom]
  | cons c cs ih =>
    have hc : c ≠ slash := fun h => hslash (by simp [h])
    have hcs : slash ∉ cs := fun h => hslash (by simp [h])
    simp [segmentsFrom, hc, ih hcs]

theorem segmentsFrom_append_name (cur s : Bytes) :
    segmentsFrom cur (s ++ slash :: name) = segmentsFrom cur (s ++ [slash]) ++ [name] := by
  induction s generalizing cur with
  | nil => simp [segmentsFrom, hne, segmentsFrom_name hslash]
  | cons c cs ih =>
    by_cases hc : c = slash
    · simp [segmentsFrom, hc, ih]
    · simp [segmentsFrom, hc, ih]

theorem segments_append_name (s : Bytes) (hs : s = [] ∨ endsWithSlash s = true) :
    segments (s ++ name) = segments s ++ [name] := by
  rcases hs with rfl | hs
  · simp [segments, hne, segmentsFrom_name hslash]
  · obtain ⟨t, rfl⟩ := List.getLast?_eq_some_iff.mp (of_decide_eq_true hs)
    simpa [segments] using segmentsFrom_append_name hne hslash [] t

end Child

theorem emptyComponent_withSlash (b : Bool) (s : Bytes) (hs : s ≠ []) :
    emptyComponent b (withSlash s) = emptyComponent b s := by
  unfold withSlash
  split_ifs with h
  · rfl
  · induction s generalizing b with
    | nil => exact absurd rfl hs
    | cons c cs ih =>
      cases cs with
      | nil =>
        have hc : c ≠ slash := fun e => h (by simp [endsWithSlash, e])
        simp [emptyComponent, hc]
      | cons d ds =>
        have hl : endsWithSlash (d::ds) ≠ true := by
          simpa [endsWithSlash, List.getLast?_cons_cons] using h
        have hd := fun b => ih b (by simp) hl
        rw [List.cons_append, emptyComponent, hd, hd]
        rfl

theorem endsWithSlash_withSlash (s : Bytes) : endsWithSlash (withSlash s) = true := by
  unfold withSlash
  split_ifs with h
  · exact h
  · simp [endsWithSlash]

theorem withSlash_ne_nil (s : Bytes) : withSlash s ≠ [] := by
  intro h
  have := endsWithSlash_withSlash s
  simp [h, endsWithSlash] at this

theorem walk_append_name (f : Bytes → Bytes) (a : Bytes) (segs : List Bytes) (name : Bytes)
    (h1 : name ≠ bytes ".") (h2 : name ≠ bytes "..") :
    walk f a (segs ++ [name]) = withSlash (walk f a segs) ++ name := by
  induction segs generalizing a with
  | nil => simp [walk, h1, h2]
  | cons s ss ih =>
    simp only [List.cons_append, walk]
    split_ifs <;> exact ih _

theorem head_append {s t : Bytes} (hs : s ≠ []) : (s ++ t).head? = s.head? := by
  cases s with
  | nil => exact absurd rfl hs
  | cons c cs => rfl

theorem withSlash_cons (c : UInt8) (cs : Bytes) (hcs : cs ≠ []) :
    withSlash (c::cs) = c :: withSlash cs := by
  cases cs with
  | nil => exact absurd rfl hcs
  | cons d ds =>
    simp only [withSlash, endsWithSlash, List.getLast?_cons_cons]
    by_cases h : (d::ds).getLast? = some slash <;> simp [h]

theorem underHome_child {dir : Bytes} (hdir : dir ≠ []) (name : Bytes) (hn : name ≠ []) :
    underHome (withSlash dir ++ name) = underHome dir := by
  match dir, hdir with
  | [c], _ =>
    by_cases hc : c = slash
    · subst hc
      cases name with
      | nil => exact absurd rfl hn
      | cons d ds => simp [underHome, withSlash, endsWithSlash, slash, tilde]
    · simp [underHome, withSlash, endsWithSlash, hc]
  | c::d::ds, _ =>
    rw [withSlash_cons c (d::ds) (by simp)]
    unfold withSlash
    split_ifs <;> simp [underHome]

theorem head_child {dir : Bytes} (hdir : dir ≠ []) (name : Bytes) :
    (withSlash dir ++ name).head? = dir.head? := by
  rw [head_append (withSlash_ne_nil dir)]
  unfold withSlash
  split_ifs
  · rfl
  · exact head_append hdir

theorem drop_withSlash {dir : Bytes} (hdir : dir ≠ []) (hroot : dir ≠ [slash]) :
    (withSlash dir).drop 1 ≠ [] ∧ endsWithSlash ((withSlash dir).drop 1) = true := by
  match dir, hdir with
  | [c], _ =>
    have hc : c ≠ slash := fun h => hroot (by rw [h])
    simp [withSlash, endsWithSlash, hc]
  | c::d::ds, _ =>
    rw [withSlash_cons c (d::ds) (by simp)]
    exact ⟨withSlash_ne_nil _, endsWithSlash_withSlash _⟩

section Below
variable {env : Env} {dir : Bytes} (hdir : isPath env dir ≠ [])
include hdir

theorem accepted_ne_nil : dir ≠ [] := by
  rintro rfl
  exact hdir (by simp [isPath])

theorem accepted_home (hu : underHome dir = true) :
    dir ≠ [slash] ∧ ∃ p, env.home = some p ∧ emptyComponent true dir = false := by
  have hnil := accepted_ne_nil hdir
  have hroot : dir ≠ [slash] := by
    rintro rfl
    simp [underHome, slash, tilde] at hu
  refine ⟨hroot, ?_⟩
  cases hp : env.home with
  | none => simp [isPath, hnil, hroot, hu, hp] at hdir
  | some p =>
    refine ⟨p, rfl, ?_⟩
    by_contra h
    simp [isPath, hnil, hroot, hu, hp, h] at hdir

theorem accepted_relative (hu : ¬ underHome dir = true) (ha : dir.head? ≠ some slash) :
    emptyComponent true dir = false := by
  have hnil := accepted_ne_nil hdir
  have hroot : dir ≠ [slash] := by
    rintro rfl
    simp at ha
  by_contra h
  simp [isPath, hnil, hroot, hu, ha, h] at hdir

theorem accepted_absolute (hu : ¬ underHome dir = true) (ha : dir.head? = some slash) :
    emptyComponent true ((withSlash dir).drop 1) = false := by
  match dir, accepted_ne_nil hdir with
  | [c], _ =>
    simp only [List.head?_cons, Option.some.injEq] at ha
    simp [withSlash, endsWithSlash, ha, emptyComponent]
  | c::d::ds, _ =>
    rw [withSlash_cons c (d::ds) (by simp), List.drop_one, List.tail_cons,
      emptyComponent_withSlash true _ (by simp)]
    by_contra h
    simp only [isPath, hu, ha] at hdir
    simp [h] at hdir

variable {name : Bytes} (hname : name ≠ []) (hslash : slash ∉ name)
include hname

omit hdir in
theorem child_long : ¬ (withSlash dir ++ name = [] ∨ withSlash dir ++ name = [slash]) := by
  rintro (h | h)
  · exact hname (List.append_eq_nil_iff.mp h).2
  · have h1 := List.length_pos_iff.mpr hname
    have h2 := List.length_pos_iff.mpr (withSlash_ne_nil dir)
    have h3 := congrArg List.length h
    simp only [List.length_append, List.length_singleton] at h3
    omega

include hslash

theorem isPath_home (hu : underHome dir = true) (p : Bytes) (hp : env.home = some p) :
    isPath env (withSlash dir ++ name) = p ++ (withSlash dir).drop 1 ++ name := by
  have hnil := accepted_ne_nil hdir
  obtain ⟨-, -, -, hok⟩ := accepted_home hdir hu
  have hempty : emptyComponent true (withSlash dir ++ name) = false := by
    rw [emptyComponent_append_name hslash, emptyComponent_withSlash true dir hnil, hok]
  rw [isPath, if_neg (child_long hname), if_pos (by rw [underHome_child hnil name hname, hu]), hp]
  simp only [hempty, Bool.false_eq_true, if_false]
  rw [List.drop_append_of_le_length (List.length_pos_iff.mpr (withSlash_ne_nil dir)),
    ← List.append_assoc, dropTrailingSlash_append_name hname hslash]

theorem isPath_absolute (hu : ¬ underHome dir = true) (ha : dir.head? = some slash) :
    isPath env (withSlash dir ++ name) = withSlash dir ++ name := by
  have hnil := accepted_ne_nil hdir
  have hempty : emptyComponent true ((withSlash dir ++ name).drop 1) = false := by
    rw [List.drop_append_of_le_length (List.length_pos_iff.mpr (withSlash_ne_nil dir)),
      emptyComponent_append_name hslash]
    exact accepted_absolute hdir hu ha
  rw [isPath, if_neg (child_long hname), if_neg (by rw [underHome_child hnil name hname]; exact hu),
    if_pos (by rw [head_child hnil name, ha]), dropTrailingSlash_append_name hname hslash, hempty]
  rfl

theorem isPath_relative (hu : ¬ underHome dir = true) (ha : dir.head? ≠ some slash) :
    isPath env (withSlash dir ++ name) = bytes "./" ++ withSlash dir ++ name := by
  have hnil := accepted_ne_nil hdir
  have hempty : emptyComponent true (withSlash dir ++ name) = false := by
    rw [emptyComponent_append_name hslash, emptyComponent_withSlash true dir hnil,
      accepted_relative hdir hu ha]
  rw [isPath, if_neg (child_long hname), if_neg (by rw [underHome_child hnil name hname]; exact hu),
    if_neg (by rw [head_child hnil name]; exact ha), hempty, if_neg (by simp), ← List.append_assoc,
    dropTrailingSlash_append_name hname hslash]

end Below

/-- Below a directory spelling that `is_path` accepts, it turns every accepted
name into one text followed by that name. -/
theorem isPath_child (env : Env) (dir : Bytes) (hdir : isPath env dir ≠ []) :
    ∃ r, r ≠ [] ∧ endsWithSlash r = true ∧ ∀ name, name ≠ [] → slash ∉ name →
      isPath env (withSlash dir ++ name) = r ++ name := by
  by_cases hu : underHome dir = true
  · obtain ⟨hroot, p, hp, -⟩ := accepted_home hdir hu
    have hdrop := drop_withSlash (accepted_ne_nil hdir) hroot
    refine ⟨p ++ (withSlash dir).drop 1, List.append_ne_nil_of_right_ne_nil _ hdrop.1, ?_,
      fun name hn hs => isPath_home hdir hn hs hu p hp⟩
    rw [endsWithSlash, List.getLast?_append_of_ne_nil _ hdrop.1]
    exact hdrop.2
  · by_cases ha : dir.head? = some slash
    · exact ⟨withSlash dir, withSlash_ne_nil dir, endsWithSlash_withSlash dir,
        fun name hn hs => isPath_absolute hdir hn hs hu ha⟩
    · refine ⟨bytes "./" ++ withSlash dir, by simp [withSlash_ne_nil dir], ?_,
        fun name hn hs => isPath_relative hdir hn hs hu ha⟩
      rw [endsWithSlash, List.getLast?_append_of_ne_nil _ (withSlash_ne_nil dir)]
      exact endsWithSlash_withSlash dir

theorem startOf_append (env : Env) {r : Bytes} (hr : r ≠ []) (name : Bytes) :
    startOf env (r ++ name) = ((startOf env r).1, (startOf env r).2 ++ name) := by
  simp only [startOf, head_append hr]
  split_ifs
  · rw [List.drop_append_of_le_length (List.length_pos_iff.mpr hr)]
  · rfl

theorem startOf_end (env : Env) {r : Bytes} (hr : r ≠ []) (hslash : endsWithSlash r = true) :
    (startOf env r).2 = [] ∨ endsWithSlash (startOf env r).2 = true := by
  simp only [startOf]
  split_ifs
  · match r, hr with
    | [c], _ => exact Or.inl rfl
    | c::d::ds, _ => exact Or.inr (by simpa [endsWithSlash, List.getLast?_cons_cons] using hslash)
  · exact Or.inr hslash

/-- Every accepted name except `.` and `..` is appended to one prefix, which
depends on the deployment only. -/
theorem pathTransform_child (env : Env) (dir : Bytes) (hdir : isPath env dir ≠ []) :
    ∃ p, p ≠ [] ∧ ∀ name, name ≠ [] → slash ∉ name → name ≠ bytes "." → name ≠ bytes ".." →
      pathTransform env (withSlash dir ++ name) = p ++ name := by
  obtain ⟨r, hr, hslash, hchild⟩ := isPath_child env dir hdir
  let f := fun q => dirPart (pathTransformAt env 1 q)
  refine ⟨withSlash (walk f (startOf env r).1 (segments (startOf env r).2)), withSlash_ne_nil _,
    fun name hn hs h1 h2 => ?_⟩
  have htail := startOf_end env hr hslash
  simp only [pathTransform, pathTransformAt]
  rw [hchild name hn hs, if_neg (by simp [hr]), startOf_append env hr name]
  simp only [segments_append_name hn hs _ htail]
  rw [walk_append_name _ _ _ name h1 h2, endsWithSlash_append_name hn hs]
  rfl

def targetPrefix (env : Env) : Bytes := (targetFile env (bytes "x")).dropLast

/-- The backup directory is one that `is_path` accepts, and no NUL cuts the
paths below it short. -/
structure Deployed (env : Env) : Prop where
  accepted : isPath env env.backupFileDir ≠ []
  clean : 0 ∉ targetPrefix env

section Deployed
variable {env : Env} (hdep : Deployed env)
include hdep

theorem targetPrefix_spec : targetPrefix env ≠ [] ∧ ∀ name, name ≠ [] → slash ∉ name →
    name ≠ bytes "." → name ≠ bytes ".." → targetFile env name = targetPrefix env ++ name := by
  obtain ⟨p, hne, hp⟩ := pathTransform_child env env.backupFileDir hdep.accepted
  have hx : targetFile env (bytes "x") = p ++ bytes "x" :=
    hp (bytes "x") (by decide) (by decide) (by decide) (by decide)
  have hpre : targetPrefix env = p := by
    rw [targetPrefix, hx]
    exact List.dropLast_concat
  rw [hpre]
  exact ⟨hne, hp⟩

variable {name : Bytes} (hcheck : checkFilename name = true)
  (hdot : name ≠ bytes ".") (hdots : name ≠ bytes "..")
include hcheck hdot hdots

theorem targetFile_child : targetFile env name = targetPrefix env ++ name := by
  obtain ⟨hne, hslash, -⟩ := (checkFilename_iff name).mp hcheck
  exact (targetPrefix_spec hdep).2 name hne hslash hdot hdots

theorem targetPath_cstr : targetPath env name = targetPrefix env ++ cstr name := by
  rw [targetPath, targetFile_child hdep hcheck hdot hdots]
  exact cstr_append_of_clean _ name hdep.clean

theorem targetPath_child (hnul : 0 ∉ name) : targetPath env name = targetPrefix env ++ name := by
  rw [targetPath_cstr hdep hcheck hdot hdots, cstr_clean name hnul]

end Deployed

end CloudBackup.FilePath
