import CloudBackup.NameIsolation

/-!
# The life cycle of a name

A name is absent, registered or valid. Each public call is meant for one of
these states, and every call except `Deregister` tests it before it touches
anything. `Deregister` releases the name and removes the file of whatever name
it is given, so the cycle is kept exactly by the runs that deregister
registered names only.
-/

set_option autoImplicit false

namespace CloudBackup.NameLifecycle
open CloudBackup.ByteStrings CloudBackup.FilePath CloudBackup.FileStore CloudBackup.DataManager
open CloudBackup.Download CloudBackup.RunInvariants CloudBackup.NameIsolation

inductive Call where
  | register (filename : Bytes)
  | deregister (filename : Bytes)
  | insert (filename : Bytes) (filesize : ℤ)
  | delete (filename : Bytes)
  | putFilePreContent (filename content : Bytes)

def perform (env : Env) (s : Store) : Call → Bool × Store
  | .register filename => register env filename s
  | .deregister filename => deregister env filename s
  | .insert filename filesize => DataManager.insert filename filesize s
  | .delete filename => delete env filename s
  | .putFilePreContent filename content => putFilePreContent env filename content s

def step (env : Env) (s : Store) (call : Call) : Option Store := some (perform env s call).2

def Expected (s : Store) : Call → Prop
  | .register filename => s.hash.lookup filename = none
  | .deregister filename => s.hash.lookup filename = some none
  | .insert filename _ => s.hash.lookup filename = some none
  | .delete filename => (validNode filename s).isSome = true
  | .putFilePreContent filename _ => (validNode filename s).isSome = true

inductive Moves : Option (Option NodeId) → Option (Option NodeId) → Prop where
  | stays (entry : Option (Option NodeId)) : Moves entry entry
  | registered : Moves none (some none)
  | inserted (id : NodeId) : Moves (some none) (some (some id))
  | released : Moves (some none) none
  | deleted (id : NodeId) : Moves (some (some id)) none

structure Untouched (s t : Store) : Prop where
  hash : t.hash = s.hash
  list : t.list = s.list
  disk : t.disk = s.disk
  isDirty : t.isDirty = s.isDirty

structure Conforms (env : Env) (s : Store) (call : Call) : Prop where
  moves : ∀ name, Moves (s.hash.lookup name) ((perform env s call).2.hash.lookup name)
  refused : ¬ Expected s call → (perform env s call).1 = false ∧ Untouched s (perform env s call).2

/-- A deregistration is for a registered name, or finds a directory that it
cannot remove where no name is known. -/
def RightDeregister (env : Env) (s : Store) : Call → Prop
  | .deregister filename => s.hash.lookup filename = some none ∨
      (s.hash.lookup filename = none ∧ targetFile env filename ≠ [] ∧
        env.isDirectory (targetPath env filename) = true)
  | _ => True

theorem Untouched.refl (s : Store) : Untouched s s := ⟨rfl, rfl, rfl, rfl⟩

theorem moves_only (s t : Store) (filename : Bytes)
    (hother : ∀ name, name ≠ filename → t.hash.lookup name = s.hash.lookup name)
    (h : Moves (s.hash.lookup filename) (t.hash.lookup filename)) (name : Bytes) :
    Moves (s.hash.lookup name) (t.hash.lookup name) := by
  by_cases hn : name = filename
  · rwa [hn]
  · rw [hother name hn]
    exact Moves.stays _

theorem conforms_same (env : Env) (s : Store) (call : Call) (h : perform env s call = (false, s)) :
    Conforms env s call := by
  constructor <;> rw [h]
  · exact fun _ => Moves.stays _
  · exact fun _ => ⟨rfl, Untouched.refl s⟩

theorem conforms_register (env : Env) (s : Store) (filename : Bytes) :
    Conforms env s (.register filename) := by
  by_cases hreg : registrable filename s = true
  · obtain ⟨hnone, hr⟩ := register_free env filename s hreg
    constructor
    · show ∀ name, Moves _ ((register env filename s).2.hash.lookup name)
      rw [hr]
      split_ifs
      · apply moves_only s _ filename
        · exact fun name hn => AList.lookup_insert_ne hn
        · rw [hnone, AList.lookup_insert]
          exact Moves.registered
      · exact fun _ => Moves.stays _
    · exact fun h => absurd hnone h
  · exact conforms_same env s _ (register_refused env filename s (by simpa using hreg))

theorem conforms_insert (env : Env) (s : Store) (filename : Bytes) (filesize : ℤ) :
    Conforms env s (.insert filename filesize) := by
  by_cases hres : s.hash.lookup filename = some none
  · constructor
    · show ∀ name, Moves _ ((DataManager.insert filename filesize s).2.hash.lookup name)
      rw [insert_reserved filename filesize s hres]
      apply moves_only s _ filename
      · exact fun name hn => AList.lookup_insert_ne hn
      · rw [hres, AList.lookup_insert]
        exact Moves.inserted s.nextNode
    · exact fun h => absurd hres h
  · exact conforms_same env s _ (insert_refused filename filesize s hres)

theorem conforms_delete (env : Env) (s : Store) (filename : Bytes) :
    Conforms env s (.delete filename) := by
  cases hv : validNode filename s with
  | none => exact conforms_same env s _ (delete_refused env filename s hv)
  | some id =>
    constructor
    · show ∀ name, Moves _ ((delete env filename s).2.hash.lookup name)
      rw [delete_hash env filename s id hv]
      apply moves_only s { s with hash := s.hash.erase filename } filename
      · exact fun name hn => AList.lookup_erase_ne hn
      · show Moves _ ((s.hash.erase filename).lookup filename)
        rw [(validNode_iff filename s id).mp hv, AList.lookup_erase]
        exact Moves.deleted id
    · exact fun h => absurd (Option.isSome_iff_exists.mpr ⟨id, hv⟩) h

theorem conforms_putFilePreContent (env : Env) (s : Store) (filename content : Bytes) :
    Conforms env s (.putFilePreContent filename content) := by
  cases hv : validNode filename s with
  | none =>
    apply conforms_same
    show putFilePreContent env filename content s = _
    rw [putFilePreContent, hv]
  | some id =>
    constructor
    · intro name
      show Moves _ ((putFilePreContent env filename content s).2.hash.lookup name)
      rw [(putFilePreContent_same env filename content s).hash]
      exact Moves.stays _
    · exact fun h => absurd (Option.isSome_iff_exists.mpr ⟨id, hv⟩) h

theorem deregister_absent (env : Env) (filename : Bytes) (s : Store) :
    (deregister env filename s).2.hash.lookup filename = none := AList.lookup_erase _ _

theorem deregister_stopped (env : Env) (filename : Bytes) (s : Store)
    (h : targetFile env filename ≠ [])
    (hdir : env.isDirectory (targetPath env filename) = true) :
    deregister env filename s = (false, { s with hash := s.hash.erase filename }) := by
  have hremove : removeIfExists env (targetFile env filename) s.disk = (false, s.disk) := by
    have hdir : env.isDirectory (cstr (targetFile env filename)) = true := hdir
    simp [removeIfExists, removeRegularFile, fileExists, h, hdir]
  rw [deregister, hremove]

theorem erase_absent (filename : Bytes) (s : Store) (h : s.hash.lookup filename = none) :
    s.hash.erase filename = s.hash := by
  apply AList.ext
  rw [AList.lookup_eq_none] at h
  exact List.kerase_of_notMem_keys h

section Calls
variable (env : Env) (s : Store)

theorem conforms_deregister (filename : Bytes) :
    Conforms env s (.deregister filename) ↔ RightDeregister env s (.deregister filename) := by
  constructor
  · intro h
    by_contra hcon
    obtain ⟨hstate, hdirectory⟩ := not_or.mp hcon
    obtain ⟨hfalse, huntouched⟩ := h.refused hstate
    have hgone : s.hash.lookup filename = none := by
      rw [← huntouched.hash]
      exact deregister_absent env filename s
    have hstopped : (removeIfExists env (targetFile env filename) s.disk).1 = false := hfalse
    exact hdirectory ⟨hgone, (removeIfExists_false env _ _).mp hstopped⟩
  · rintro (hres | ⟨hnone, hpath, hdir⟩)
    · constructor
      · apply moves_only s _ filename
        · exact fun name hn => AList.lookup_erase_ne hn
        · rw [hres, show (perform env s (.deregister filename)).2.hash.lookup filename = none from
            deregister_absent env filename s]
          exact Moves.released
      · exact fun h => absurd hres h
    · apply conforms_same
      show deregister env filename s = _
      rw [deregister_stopped env filename s hpath hdir, erase_absent filename s hnone]

theorem conforms_iff (call : Call) : Conforms env s call ↔ RightDeregister env s call := by
  cases call with
  | register filename => exact iff_of_true (conforms_register env s filename) trivial
  | deregister filename => exact conforms_deregister env s filename
  | insert filename filesize => exact iff_of_true (conforms_insert env s filename filesize) trivial
  | delete filename => exact iff_of_true (conforms_delete env s filename) trivial
  | putFilePreContent filename content =>
    exact iff_of_true (conforms_putFilePreContent env s filename content) trivial

end Calls

/-- Every call of a run keeps the cycle exactly when every deregistration in it is a right one. -/
theorem lifecycle_kept (env : Env) (s : Store) (calls : List Call) :
    Meets (step env) (Conforms env) s calls ↔ Meets (step env) (RightDeregister env) s calls := by
  induction calls generalizing s with
  | nil => exact Iff.rfl
  | cons call calls ih =>
    have hnext := ih (perform env s call).2
    have hcall := conforms_iff env s call
    constructor
    · rintro h t ⟨⟩
      obtain ⟨hc, hrest⟩ := h _ rfl
      exact ⟨hcall.mp hc, hnext.mp hrest⟩
    · rintro h t ⟨⟩
      obtain ⟨hc, hrest⟩ := h _ rfl
      exact ⟨hcall.mpr hc, hnext.mpr hrest⟩

theorem lifecycle_kept_upload :
    Meets (step plainEnv) (Conforms plainEnv) freshStore
        [.register (bytes "f"), .insert (bytes "f") 0, .delete (bytes "f")] ↔
      Meets (step plainEnv) (RightDeregister plainEnv) freshStore
        [.register (bytes "f"), .insert (bytes "f") 0, .delete (bytes "f")] :=
  lifecycle_kept plainEnv freshStore _

/-- Deregistering a finished upload reports success, removes its record and its
file, and leaves the metadata marked as saved. -/
theorem deregister_removes_backup :
    ¬ Meets (step plainEnv) (Conforms plainEnv) { helloStore with isDirty := false }
        [.deregister (bytes "f")] ∧
      validNode (bytes "f") helloStore = some 0 ∧
      (deregister plainEnv (bytes "f") { helloStore with isDirty := false }).1 = true ∧
      validNode (bytes "f") (deregister plainEnv (bytes "f")
        { helloStore with isDirty := false }).2 = none ∧
      (deregister plainEnv (bytes "f") { helloStore with isDirty := false }).2.isDirty = false := by
  constructor
  · intro h
    have hstate : ¬ Expected { helloStore with isDirty := false } (.deregister (bytes "f")) := by
      show ¬ helloStore.hash.lookup (bytes "f") = some none
      decide
    have hfalse := ((h _ rfl).1.refused hstate).1
    revert hfalse
    show ¬ (deregister plainEnv (bytes "f") { helloStore with isDirty := false }).1 = false
    decide
  · decide

end CloudBackup.NameLifecycle
