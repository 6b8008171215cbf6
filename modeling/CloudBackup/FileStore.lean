import CloudBackup.FilePath

/-!
# The disk behind `FileUtil`

The disk maps the paths the operating system receives to the contents of
regular files. Directories are given by the environment and never change.
Opening, truncating, appending and `stat` each consume one entry of a fault
plan: `none` lets the call succeed. An empty plan is a disk on which every
possible operation succeeds. A failing `fs::remove` throws where nobody
catches, so it ends the process and the run, and has no entry. The path
arguments are the `_filepath` of the `FileUtil`, already normalised.
-/

set_option autoImplicit false

namespace CloudBackup.FileStore
open CloudBackup.ByteStrings CloudBackup.FilePath

abbrev Table (β : Type) := AList fun _ : Bytes => β

/-- A call fails, or the disk takes only some bytes of what is written. -/
inductive Fault where
  | fails
  | cut (written : ℕ)
  deriving DecidableEq

structure Disk where
  files : Table Bytes
  faults : List (Option Fault)

def Disk.next (d : Disk) : Option Fault × Disk :=
  (d.faults.headD none, { d with faults := d.faults.tail })

def Disk.write (d : Disk) (path content : Bytes) : Disk :=
  { d with files := d.files.insert (cstr path) content }

/-- `open` for writing is refused for directories and for the empty path. -/
def writable (env : Env) (path : Bytes) : Bool := cstr path != [] && !env.isDirectory (cstr path)

def fileExists (env : Env) (path : Bytes) (d : Disk) : Bool :=
  path != [] && (env.isDirectory (cstr path) || (d.files.lookup (cstr path)).isSome)

/-- What gets to the disk of the bytes written behind an `open`. -/
def Disk.takes (d : Disk) (buffer : Bytes) : Bytes :=
  match d.next.1 with
  | some (.cut n) => buffer.take n
  | _ => buffer

/-- `write` fails at once for a buffer that the stream hands on; a shorter one is written by
`close`, whose failure nobody looks at. -/
def appendContent (env : Env) (path buffer : Bytes) (d : Disk) : Bool × Disk :=
  if d.next.1 ≠ some .fails ∧ writable env path = true then
    let old := (d.files.lookup (cstr path)).getD []
    (d.takes buffer = buffer || buffer.length < env.streamBuffer,
      d.next.2.write path (old ++ d.takes buffer))
  else (false, d.next.2)

/-- All of the buffer gets to the file, and the call says so. -/
def Lands (env : Env) (path buffer : Bytes) (d : Disk) : Prop :=
  (appendContent env path buffer d).1 = true ∧ d.takes buffer = buffer

instance (env : Env) (path buffer : Bytes) (d : Disk) : Decidable (Lands env path buffer d) :=
  inferInstanceAs (Decidable (_ ∧ _))

def clear (env : Env) (path : Bytes) (d : Disk) : Bool × Disk :=
  if !fileExists env path d then (false, d)
  else if d.next.1.isNone && writable env path then (true, d.next.2.write path [])
  else (false, d.next.2)

/-- `is_regular_file` is false for directories. -/
def removeRegularFile (env : Env) (path : Bytes) (d : Disk) : Bool × Disk :=
  if !fileExists env path d then (false, d)
  else if env.isDirectory (cstr path) then (false, d)
  else (true, { d with files := d.files.erase (cstr path) })

def getFileSize (path : Bytes) (d : Disk) : ℤ × Disk :=
  match d.next.1, d.files.lookup (cstr path) with
  | none, some content => (content.length, d.next.2)
  | _, _ => (-1, d.next.2)

/-- `none` stands for the false return; the size of the file is that of the
content being read. -/
def getContent (path : Bytes) (pos len : ℕ) (d : Disk) : Option Bytes × Disk :=
  match d.next.1, d.files.lookup (cstr path) with
  | none, some content =>
    (some (if content.length ≤ pos then [] else (content.drop pos).take len), d.next.2)
  | _, _ => (none, d.next.2)

theorem next_of_clean (d : Disk) (h : d.faults = []) : d.next = (none, d) := by
  cases d
  simp_all [Disk.next]

theorem next_files (d : Disk) : d.next.2.files = d.files := rfl

theorem next_clean (d : Disk) (h : d.faults = []) : d.next.2.faults = [] := by
  simp [Disk.next, h]

def OnlyAt (path : Bytes) (d d' : Disk) : Prop :=
  ∀ q, q ≠ path → d'.files.lookup q = d.files.lookup q

theorem OnlyAt.refl (path : Bytes) (d : Disk) : OnlyAt path d d := fun _ _ => rfl

theorem OnlyAt.trans {path : Bytes} {d e f : Disk} (h : OnlyAt path d e) (k : OnlyAt path e f) :
    OnlyAt path d f := fun q hq => (k q hq).trans (h q hq)

theorem write_onlyAt (d : Disk) (path content : Bytes) :
    OnlyAt (cstr path) d (d.write path content) :=
  fun _ hq => AList.lookup_insert_ne hq

theorem appendContent_onlyAt (env : Env) (path buffer : Bytes) (d : Disk) :
    OnlyAt (cstr path) d (appendContent env path buffer d).2 := by
  unfold appendContent
  split_ifs
  · exact write_onlyAt d.next.2 _ _
  · exact OnlyAt.refl _ _

theorem clear_onlyAt (env : Env) (path : Bytes) (d : Disk) :
    OnlyAt (cstr path) d (clear env path d).2 := by
  unfold clear
  split_ifs
  · exact OnlyAt.refl _ _
  · exact write_onlyAt d.next.2 _ _
  · exact OnlyAt.refl _ _

theorem removeRegularFile_onlyAt (env : Env) (path : Bytes) (d : Disk) :
    OnlyAt (cstr path) d (removeRegularFile env path d).2 := by
  unfold removeRegularFile
  split_ifs
  · exact OnlyAt.refl _ _
  · exact OnlyAt.refl _ _
  · exact fun _ hq => AList.lookup_erase_ne hq

theorem write_lookup (d : Disk) (path content : Bytes) :
    (d.write path content).files.lookup (cstr path) = some content :=
  AList.lookup_insert _

theorem removeRegularFile_lookup (env : Env) (path q F : Bytes) (d : Disk)
    (h : (removeRegularFile env path d).2.files.lookup q = some F) : d.files.lookup q = some F := by
  unfold removeRegularFile at h
  split_ifs at h
  · exact h
  · exact h
  · by_cases hq : q = cstr path
    · rw [hq, AList.lookup_erase] at h
      cases h
    · rwa [AList.lookup_erase_ne hq] at h

theorem getContent_files (path : Bytes) (pos len : ℕ) (d : Disk) :
    (getContent path pos len d).2.files = d.files := by
  unfold getContent
  split <;> exact next_files d

theorem getContent_some (path content : Bytes) (pos len : ℕ) (d : Disk)
    (h : (getContent path pos len d).1 = some content) :
    ∃ F, d.files.lookup (cstr path) = some F ∧ content <+: F.drop pos := by
  unfold getContent at h
  split at h
  · rename_i F _ hF
    refine ⟨F, hF, ?_⟩
    obtain rfl := Option.some.inj h
    split_ifs
    · exact List.nil_prefix
    · exact List.take_prefix _ _
  · cases h

theorem getFileSize_files (path : Bytes) (d : Disk) : (getFileSize path d).2.files = d.files := by
  unfold getFileSize
  split <;> exact next_files d

theorem appendContent_true (env : Env) (path buffer : Bytes) (d : Disk)
    (h : (appendContent env path buffer d).1 = true) :
    (appendContent env path buffer d).2.files.lookup (cstr path) =
      some ((d.files.lookup (cstr path)).getD [] ++ d.takes buffer) := by
  unfold appendContent at h ⊢
  split_ifs at h ⊢
  exact write_lookup d.next.2 path _

theorem lands_lookup {env : Env} {path buffer : Bytes} {d : Disk} (h : Lands env path buffer d) :
    (appendContent env path buffer d).2.files.lookup (cstr path) =
      some ((d.files.lookup (cstr path)).getD [] ++ buffer) := by
  rw [appendContent_true env path buffer d h.1, h.2]

theorem takes_front (d : Disk) (buffer : Bytes) : d.takes buffer <+: buffer := by
  unfold Disk.takes
  split
  · exact List.take_prefix _ _
  · exact List.prefix_rfl

theorem takes_nil (d : Disk) : d.takes [] = [] := List.prefix_nil.mp (takes_front d [])

/-- Where a call that fails says so, it succeeds only if all has got to the disk. -/
theorem appendContent_honest (env : Env) (path buffer : Bytes) (d : Disk)
    (hlong : env.streamBuffer ≤ buffer.length) (h : (appendContent env path buffer d).1 = true) :
    d.takes buffer = buffer := by
  unfold appendContent at h
  split_ifs at h
  simpa [not_lt.mpr hlong] using h

/-- An empty append fails only in its `open`. -/
theorem appendContent_nil (env : Env) (path : Bytes) (d : Disk) :
    appendContent env path [] d = if d.next.1 ≠ some .fails ∧ writable env path = true
      then (true, d.next.2.write path ((d.files.lookup (cstr path)).getD []))
        else (false, d.next.2) := by
  simp [appendContent, takes_nil]

theorem appendContent_false_nil (env : Env) (path : Bytes) (d : Disk)
    (h : (appendContent env path [] d).1 = false) :
    (appendContent env path [] d).2.files = d.files := by
  rw [appendContent_nil] at h ⊢
  split_ifs at h ⊢
  exact next_files d

theorem write_write (d : Disk) (path a b : Bytes) :
    (d.write path a).write path b = d.write path b := by
  simp [Disk.write]

section Clean
variable {d : Disk} (hd : d.faults = []) (env : Env) (path : Bytes)
include hd

theorem write_clean (content : Bytes) : (d.write path content).faults = [] := hd

omit env path in
theorem takes_clean (buffer : Bytes) : d.takes buffer = buffer := by
  simp [Disk.takes, next_of_clean d hd]

theorem appendContent_clean (buffer : Bytes) (hw : writable env path = true) :
    appendContent env path buffer d =
      (true, d.write path ((d.files.lookup (cstr path)).getD [] ++ buffer)) := by
  simp [appendContent, takes_clean hd, next_of_clean d hd, hw]

theorem appendContent_refused (buffer : Bytes) (hw : writable env path = false) :
    appendContent env path buffer d = (false, d) := by
  simp [appendContent, next_of_clean d hd, hw]

theorem appendContent_faults (buffer : Bytes) :
    (appendContent env path buffer d).2.faults = [] := by
  by_cases hw : writable env path = true
  · rw [appendContent_clean hd env path buffer hw]
    exact hd
  · rw [appendContent_refused hd env path buffer (by simpa using hw)]
    exact hd

theorem clear_clean (he : fileExists env path d = true) (hw : writable env path = true) :
    clear env path d = (true, d.write path []) := by
  simp [clear, next_of_clean d hd, he, hw]

theorem clear_refused (hw : writable env path = false) : clear env path d = (false, d) := by
  simp [clear, next_of_clean d hd, hw]

theorem clear_faults : (clear env path d).2.faults = [] := by
  unfold clear
  split_ifs
  · exact hd
  · exact next_clean d hd
  · exact next_clean d hd

omit hd in
theorem removeRegularFile_done (he : fileExists env path d = true)
    (hdir : env.isDirectory (cstr path) = false) :
    removeRegularFile env path d = (true, { d with files := d.files.erase (cstr path) }) := by
  simp [removeRegularFile, he, hdir]

theorem removeRegularFile_faults : (removeRegularFile env path d).2.faults = [] := by
  unfold removeRegularFile
  split_ifs
  · exact hd
  · exact hd
  · exact hd

omit env in
theorem getFileSize_disk : (getFileSize path d).2 = d := by
  unfold getFileSize
  rw [next_of_clean d hd]
  split <;> rfl

theorem getFileSize_clean (content : Bytes) (h : d.files.lookup (cstr path) = some content) :
    getFileSize path d = ((content.length : ℤ), d) := by
  simp [getFileSize, next_of_clean d hd, h]

end Clean

theorem appendContent_writable (env : Env) (path buffer : Bytes) (d : Disk)
    (h : (appendContent env path buffer d).1 = true) : writable env path = true := by
  unfold appendContent at h
  split_ifs at h with hopen
  exact hopen.2

theorem clear_writable (env : Env) (path : Bytes) (d : Disk) (h : (clear env path d).1 = true) :
    writable env path = true := by
  unfold clear at h
  split_ifs at h with _ hw
  exact (Bool.and_eq_true_iff.mp hw).2

end CloudBackup.FileStore
