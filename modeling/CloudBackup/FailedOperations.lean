import CloudBackup.Download
import CloudBackup.PartFates

/-!
# Calls that fail

A call that returns false has changed nothing, but for `Delete`. It gives up
the record of what it cannot remove, which is a directory at the path.
-/

set_option autoImplicit false

namespace CloudBackup.FailedOperations
open CloudBackup.ByteStrings CloudBackup.FilePath CloudBackup.FileStore CloudBackup.DataManager
open CloudBackup.Download CloudBackup.PartFates

inductive Op where
  | register (filename : Bytes)
  | insert (filename : Bytes) (filesize : ℤ)
  | delete (filename : Bytes)

def perform (env : Env) (s : Store) : Op → Bool × Store
  | .register filename => DataManager.register env filename s
  | .insert filename filesize => DataManager.insert filename filesize s
  | .delete filename => DataManager.delete env filename s

structure Unchanged (s t : Store) : Prop where
  hash : t.hash = s.hash
  nodes : t.nodes = s.nodes
  list : t.list = s.list
  isDirty : t.isDirty = s.isDirty
  files : t.disk.files = s.disk.files

structure Dropped (filename : Bytes) (id : NodeId) (s t : Store) : Prop where
  hash : t.hash = s.hash.erase filename
  info : ∀ i, (t.nodes i).info = (s.nodes i).info
  others : ∀ i, i ≠ id → t.nodes i = s.nodes i
  list : t.list = s.list.erase id
  isDirty : t.isDirty = true

def Failed (env : Env) (s t : Store) : Op → Prop
  | .register _ => Unchanged s t
  | .insert _ _ => t = s
  | .delete filename => t.disk.files = s.disk.files ∧
      ((validNode filename s = none ∧ t = s) ∨
        (env.isDirectory (targetPath env filename) = true ∧
          ∃ id, validNode filename s = some id ∧ Dropped filename id s t))

theorem clear_failed {env : Env} {path : Bytes} {d : Disk} (h : (clear env path d).1 = false) :
    (clear env path d).2.files = d.files := by
  unfold clear at h ⊢
  split_ifs at h ⊢
  · rfl
  · rfl

theorem prepare_failed {env : Env} {path : Bytes} {d : Disk}
    (h : (prepareFile env path d).1 = false) :
    (prepareFile env path d).2.files = d.files := by
  rw [prepareFile_eq] at h ⊢
  split_ifs at h ⊢ with he
  · exact clear_failed h
  · exact appendContent_false_nil env path d h

theorem register_failed {env : Env} {filename : Bytes} {s : Store}
    (h : (register env filename s).1 = false) :
    Failed env s (register env filename s).2 (.register filename) := by
  unfold register at h ⊢
  dsimp only at h ⊢
  split_ifs at h ⊢ with hin hcheck hprep
  · exact ⟨rfl, rfl, rfl, rfl, rfl⟩
  · exact ⟨rfl, rfl, rfl, rfl, rfl⟩
  · exact ⟨rfl, rfl, rfl, rfl, prepare_failed (by simpa using hprep)⟩

theorem insert_failed {env : Env} {filename : Bytes} {filesize : ℤ} {s : Store}
    (h : (DataManager.insert filename filesize s).1 = false) :
    Failed env s (DataManager.insert filename filesize s).2 (.insert filename filesize) := by
  by_cases hres : s.hash.lookup filename = some none
  · rw [insert_reserved _ _ _ hres] at h
    cases h
  · rw [insert_refused _ _ _ hres]
    rfl

theorem listRemove_dropped (filename : Bytes) (id : NodeId) (s : Store) (d : Disk) :
    Dropped filename id s { listRemove id s with hash := (listRemove id s).hash.erase filename,
                                                 isDirty := true, disk := d } := by
  unfold listRemove
  split_ifs with hmem
  · constructor
    · rfl
    · intro i
      by_cases hi : i = id
      · subst hi
        simp [setPreContent]
      · simp [setPreContent, hi]
    · intro i hi
      simp [setPreContent, hi]
    · rfl
    · rfl
  · constructor
    · rfl
    · exact fun _ => rfl
    · exact fun _ _ => rfl
    · exact (List.erase_of_not_mem hmem).symm
    · rfl

theorem remove_failed {env : Env} {path : Bytes} {d : Disk}
    (h : (removeIfExists env path d).1 = false) :
    (removeIfExists env path d).2.files = d.files := by
  unfold removeIfExists removeRegularFile at h ⊢
  split_ifs at h ⊢ <;> rfl

theorem delete_failed {env : Env} {filename : Bytes} {s : Store}
    (h : (delete env filename s).1 = false) :
    Failed env s (delete env filename s).2 (.delete filename) := by
  unfold delete at h ⊢
  cases hid : validNode filename s with
  | none => exact ⟨rfl, Or.inl ⟨hid, rfl⟩⟩
  | some id =>
    rw [hid] at h
    have hdisk := (listRemove_same id s).disk
    dsimp only at h
    rw [hdisk] at h
    have hdir := ((removeIfExists_false env _ _).mp h).2
    refine ⟨?_, Or.inr ⟨hdir, id, hid, listRemove_dropped filename id s _⟩⟩
    dsimp only
    rw [hdisk]
    exact remove_failed h

/-- What is left behind by a call that returns false. -/
theorem failed_operation (env : Env) (s : Store) (op : Op) (h : (perform env s op).1 = false) :
    Failed env s (perform env s op).2 op := by
  cases op with
  | register filename => exact register_failed h
  | insert filename filesize => exact insert_failed h
  | delete filename => exact delete_failed h

/-- The file of the backup has been replaced by a directory. -/
def blockedEnv : Env := { plainEnv with
    isDirectory := fun path => path == targetPath plainEnv (bytes "f") }

theorem failed_operation_hello :
    Failed blockedEnv helloStore (perform blockedEnv helloStore (.delete (bytes "f"))).2
      (.delete (bytes "f")) :=
  failed_operation blockedEnv helloStore (.delete (bytes "f")) (by decide +kernel)

/-- The record of what cannot be removed is dropped. -/
theorem failure_changes :
    (perform blockedEnv helloStore (.delete (bytes "f"))).1 = false ∧
      helloStore.hash.lookup (bytes "f") = some (some 0) ∧
      (perform blockedEnv helloStore (.delete (bytes "f"))).2.hash.lookup (bytes "f") = none := by
  decide +kernel

end CloudBackup.FailedOperations
