import CloudBackup.Download

/-!
# What a call on one name does to another name

The hash map compares names as strings, the operating system reads them up to
the first NUL. A call on a name changes the entry and the record of that name
and the file the operating system finds under it, so another accepted name is
disturbed exactly when both are cut to the same text and its file can be written.
-/

set_option autoImplicit false

namespace CloudBackup.NameIsolation
open CloudBackup.ByteStrings CloudBackup.FilePath CloudBackup.FileStore CloudBackup.DataManager
open CloudBackup.Download

inductive Op where
  | register
  | append (buffer : Bytes)
  | deregister
  | insert (filesize : ℤ)
  | delete

def apply (env : Env) (filename : Bytes) (s : Store) : Op → Store
  | .register => (register env filename s).2
  | .append buffer => { s with
      disk := (appendContent env (targetFile env filename) buffer s.disk).2 }
  | .deregister => (deregister env filename s).2
  | .insert filesize => (DataManager.insert filename filesize s).2
  | .delete => (delete env filename s).2

structure Undisturbed (env : Env) (other : Bytes) (s t : Store) : Prop where
  entry : t.hash.lookup other = s.hash.lookup other
  record : ∀ id, validNode other s = some id → t.nodes id = s.nodes id
  file : t.disk.files.lookup (targetPath env other) = s.disk.files.lookup (targetPath env other)

/-- Every record was made for one name. -/
structure Separate (s : Store) : Prop where
  bounded : ∀ name id, validNode name s = some id → id < s.nextNode
  unshared : ∀ name other id, validNode name s = some id →
    validNode other s = some id → name = other

theorem separate_fresh (clock : ℕ → ℤ) (disk : Disk) : Separate (Store.fresh clock disk) := by
  constructor
  · intro name id h
    cases h
  · intro name other id h
    cases h

theorem separate_of_fewer {s t : Store} (hs : Separate s) (hnext : t.nextNode = s.nextNode)
    (hfewer : ∀ name id, validNode name t = some id → validNode name s = some id) : Separate t := by
  constructor
  · intro name id h
    rw [hnext]
    exact hs.bounded name id (hfewer name id h)
  · intro name other id h k
    exact hs.unshared name other id (hfewer name id h) (hfewer other id k)

theorem separate_register (env : Env) (filename : Bytes) (s : Store) (hs : Separate s) :
    Separate (register env filename s).2 := by
  by_cases hreg : registrable filename s = true
  · rw [(register_free env filename s hreg).2]
    split_ifs
    · exact separate_of_fewer hs rfl fun name id => validNode_reserve s _ filename name id rfl
    · exact separate_of_fewer hs rfl fun _ _ h => h
  · rwa [register_refused env filename s (by simpa using hreg)]

theorem separate_insert (filename : Bytes) (filesize : ℤ) (s : Store) (hs : Separate s) :
    Separate (DataManager.insert filename filesize s).2 := by
  by_cases hres : s.hash.lookup filename = some none
  · rw [insert_reserved filename filesize s hres]
    let t := s.hash.insert filename (some s.nextNode)
    have hnew : (t.lookup filename).join = some s.nextNode := by
      rw [AList.lookup_insert]
      rfl
    have hold : ∀ name, name ≠ filename → (t.lookup name).join = validNode name s :=
      fun name hn => by
      rw [AList.lookup_insert_ne hn]
      rfl
    constructor
    · intro name id (h : (t.lookup name).join = some id)
      show id < s.nextNode+1
      by_cases hn : name = filename
      · rw [hn, hnew] at h
        obtain rfl := Option.some.inj h
        exact Nat.lt_succ_self _
      · rw [hold name hn] at h
        exact Nat.lt_succ_of_lt (hs.bounded name id h)
    · intro name other id (h : (t.lookup name).join = some id) (k : (t.lookup other).join = some id)
      -- The record just made has an identity that no older record has.
      have hbelow : ∀ m, m ≠ filename → (t.lookup m).join = some id → id < s.nextNode :=
        fun m hm e =>
        hs.bounded m id (by rwa [hold m hm] at e)
      by_cases hn : name = filename <;> by_cases ho : other = filename
      · rw [hn, ho]
      · rw [hn, hnew] at h
        have := hbelow other ho k
        rw [← Option.some.inj h] at this
        exact absurd this (Nat.lt_irrefl _)
      · rw [ho, hnew] at k
        have := hbelow name hn h
        rw [← Option.some.inj k] at this
        exact absurd this (Nat.lt_irrefl _)
      · rw [hold name hn] at h
        rw [hold other ho] at k
        exact hs.unshared name other id h k
  · rwa [insert_refused filename filesize s hres]

theorem separate_apply (env : Env) (filename : Bytes) (s : Store) (op : Op) (hs : Separate s) :
    Separate (apply env filename s op) := by
  cases op with
  | register => exact separate_register env filename s hs
  | append buffer => exact separate_of_fewer hs rfl fun _ _ h => h
  | deregister => exact separate_of_fewer hs rfl fun name id =>
    validNode_erase s _ filename name id rfl
  | insert filesize => exact separate_insert filename filesize s hs
  | delete =>
    cases hv : validNode filename s with
    | none =>
      show Separate (delete env filename s).2
      rwa [delete_refused env filename s hv]
    | some id =>
      apply separate_of_fewer hs
      · show (delete env filename s).2.nextNode = s.nextNode
        rw [delete, hv]
        exact (listRemove_same id s).next
      · exact fun name i => validNode_erase s _ filename name i (delete_hash env filename s id hv)

section Other
variable (env : Env) (filename other : Bytes) (hne : other ≠ filename) (s : Store)
include hne

theorem apply_entry (op : Op) :
    (apply env filename s op).hash.lookup other = s.hash.lookup other := by
  cases op with
  | register =>
    show (register env filename s).2.hash.lookup other = _
    by_cases hreg : registrable filename s = true
    · rw [(register_free env filename s hreg).2]
      split_ifs
      · exact AList.lookup_insert_ne hne
      · rfl
    · rw [register_refused env filename s (by simpa using hreg)]
  | append buffer => rfl
  | deregister => exact AList.lookup_erase_ne hne
  | insert filesize =>
    show (DataManager.insert filename filesize s).2.hash.lookup other = _
    unfold DataManager.insert
    split
    · exact AList.lookup_insert_ne hne
    · rfl
  | delete =>
    show (delete env filename s).2.hash.lookup other = _
    cases hv : validNode filename s with
    | none => rw [delete_refused env filename s hv]
    | some id => rw [delete_hash env filename s id hv, AList.lookup_erase_ne hne]

theorem apply_record (hs : Separate s) (op : Op) (id : NodeId) (hid : validNode other s = some id) :
    (apply env filename s op).nodes id = s.nodes id := by
  cases op with
  | register =>
    show (register env filename s).2.nodes id = _
    unfold register
    dsimp only
    split_ifs <;> rfl
  | append buffer => rfl
  | deregister => rfl
  | insert filesize =>
    show (DataManager.insert filename filesize s).2.nodes id = _
    unfold DataManager.insert
    split
    · have hold : id ≠ s.nextNode := Nat.ne_of_lt (hs.bounded other id hid)
      exact Function.update_of_ne hold _ _
    · rfl
  | delete =>
    show (delete env filename s).2.nodes id = _
    cases hv : validNode filename s with
    | none => rw [delete_refused env filename s hv]
    | some i =>
      have hother : id ≠ i := fun h => hne (hs.unshared other filename i (h ▸ hid) hv)
      rw [delete, hv]
      show (listRemove i s).nodes id = _
      unfold listRemove
      split_ifs
      · exact setPreContent_other i id [] s hother
      · rfl

end Other

theorem apply_disk (env : Env) (filename : Bytes) (s : Store) {P : Disk → Prop} (hkeep : P s.disk)
    (happend : ∀ buffer, P (appendContent env (targetFile env filename) buffer s.disk).2)
    (hprepare : P (prepareFile env (targetFile env filename) s.disk).2)
    (hremove : P (removeIfExists env (targetFile env filename) s.disk).2) (op : Op) :
    P (apply env filename s op).disk := by
  cases op with
  | register =>
    show P (register env filename s).2.disk
    by_cases hreg : registrable filename s = true
    · rw [(register_free env filename s hreg).2]
      split_ifs <;> exact hprepare
    · rwa [register_refused env filename s (by simpa using hreg)]
  | append buffer => exact happend buffer
  | deregister => exact hremove
  | insert filesize =>
    show P (DataManager.insert filename filesize s).2.disk
    rwa [insert_disk]
  | delete =>
    show P (delete env filename s).2.disk
    cases hv : validNode filename s with
    | none => rwa [delete_refused env filename s hv]
    | some id => rwa [delete_disk env filename s id hv]

theorem apply_onlyAt (env : Env) (filename : Bytes) (s : Store) (op : Op) :
    OnlyAt (targetPath env filename) s.disk (apply env filename s op).disk :=
  apply_disk env filename s (OnlyAt.refl _ _) (fun buffer => appendContent_onlyAt env _ buffer _)
    (prepareFile_onlyAt env _ _) (removeIfExists_onlyAt env _ _) op

theorem apply_clean (env : Env) (filename : Bytes) (s : Store) (hs : s.disk.faults = []) (op : Op) :
    (apply env filename s op).disk.faults = [] :=
  apply_disk env filename s (P := fun d => d.faults = []) hs
    (fun buffer => appendContent_faults hs env _ buffer) (prepareFile_faults hs env _)
    (removeIfExists_faults hs env _) op

/-- A directory of that name, or no file and a disk that fails the next operation at once. -/
def blocked (env : Env) (path : Bytes) (d : Disk) : Prop :=
  env.isDirectory (cstr path) = true ∨ (d.next.1 = some .fails ∧ d.files.lookup (cstr path) = none)

section Blocked
variable {env : Env} {path : Bytes} {d : Disk} (hb : blocked env path d)
include hb

theorem blocked_append (buffer : Bytes) : (appendContent env path buffer d).2.files = d.files := by
  have hstop : ¬ (d.next.1 ≠ some .fails ∧ writable env path = true) := by
    rcases hb with hdir | hfault
    · simp [writable, hdir]
    · exact fun h => h.1 hfault.1
  rw [appendContent, if_neg hstop]
  exact next_files d

theorem blocked_clear : (clear env path d).2.files = d.files ∧
    (fileExists env path d = true → (clear env path d).1 = false) := by
  have hstop : (d.next.1.isNone && writable env path) = false := by
    rcases hb with hdir | hfault
    · simp [writable, hdir]
    · simp [hfault.1]
  simp only [clear, hstop, Bool.false_eq_true, if_false]
  split_ifs with he
  · exact ⟨rfl, fun _ => rfl⟩
  · exact ⟨rfl, fun _ => rfl⟩

theorem blocked_prepare : (prepareFile env path d).2.files = d.files := by
  by_cases he : fileExists env path d = true
  · have hc := blocked_clear hb
    simp only [prepareFile, he, if_true, hc.2 he, Bool.not_false]
    exact hc.1
  · simp only [prepareFile, he, if_false, Bool.not_true, Bool.false_eq_true]
    exact blocked_append hb []

theorem blocked_remove : (removeIfExists env path d).2.files = d.files := by
  by_cases hdir : env.isDirectory (cstr path) = true
  · unfold removeIfExists removeRegularFile
    simp only [hdir, if_true]
    split_ifs <;> rfl
  · have hnone := (hb.resolve_left hdir).2
    rw [removeIfExists, if_neg (by simp [fileExists, hdir, hnone])]

end Blocked

theorem apply_blocked (env : Env) (filename : Bytes) (s : Store)
    (hb : blocked env (targetFile env filename) s.disk) (op : Op) :
    (apply env filename s op).disk.files = s.disk.files :=
  apply_disk env filename s (P := fun d => d.files = s.disk.files) rfl
    (fun buffer => blocked_append hb buffer) (blocked_prepare hb) (blocked_remove hb) op

theorem reached (env : Env) (filename : Bytes) (s : Store) (hne : targetPath env filename ≠ [])
    (hb : ¬ blocked env (targetFile env filename) s.disk) :
    ∃ op, (apply env filename s op).disk.files.lookup (targetPath env filename) ≠
      s.disk.files.lookup (targetPath env filename) := by
  have hdir : env.isDirectory (targetPath env filename) = false := by
    rw [← Bool.not_eq_true]
    exact fun h => hb (Or.inl h)
  have hne' : targetFile env filename ≠ [] := fun he => hne (by rw [targetPath, he]; rfl)
  cases hfile : s.disk.files.lookup (targetPath env filename) with
  | some F =>
    have he : fileExists env (targetFile env filename) s.disk = true := by
      rw [targetPath] at hfile
      simp [fileExists, hne', hfile]
    refine ⟨.deregister, ?_⟩
    have hgone : (apply env filename s .deregister).disk.files =
        s.disk.files.erase (targetPath env filename) := by
      show (removeIfExists env (targetFile env filename) s.disk).2.files = _
      rw [removeIfExists, if_pos he, removeRegularFile_done env _ he hdir]
      rfl
    rw [hgone, AList.lookup_erase]
    exact fun h => by cases h
  | none =>
    have hopens : s.disk.next.1 ≠ some .fails := fun hf => hb (Or.inr ⟨hf, hfile⟩)
    have hw : writable env (targetFile env filename) = true := by
      rw [targetPath] at hne hdir
      simp [writable, hne, hdir]
    refine ⟨.append [1], ?_⟩
    show (appendContent env (targetFile env filename) [1] s.disk).2.files.lookup _ ≠ _
    rw [appendContent, if_pos ⟨hopens, hw⟩]
    have hlookup := write_lookup s.disk.next.2 (targetFile env filename)
      ((s.disk.files.lookup (cstr (targetFile env filename))).getD [] ++ s.disk.takes [1])
    rw [targetPath, hlookup]
    exact fun h => by cases h

section Names
variable {env : Env} (hdep : Deployed env) {name other : Bytes}
  (hname : checkFilename name = true) (hother : checkFilename other = true)
  (hdot : name ≠ bytes ".") (hdots : name ≠ bytes "..")
  (hodot : other ≠ bytes ".") (hodots : other ≠ bytes "..")
include hdep hname hdot hdots

theorem targetPath_ne_nil : targetPath env name ≠ [] := by
  rw [targetPath_cstr hdep hname hdot hdots]
  exact List.append_ne_nil_of_left_ne_nil (targetPrefix_spec hdep).1 _

include hother hodot hodots

theorem targetPath_eq_iff :
    targetPath env name = targetPath env other ↔ cstr name = cstr other := by
  rw [targetPath_cstr hdep hname hdot hdots, targetPath_cstr hdep hother hodot hodots]
  exact List.append_right_inj _

end Names

theorem names_isolated (env : Env) (s : Store) (name other : Bytes) (hdep : Deployed env)
    (hs : Separate s) (hname : checkFilename name = true) (hother : checkFilename other = true)
    (hdot : name ≠ bytes ".") (hdots : name ≠ bytes "..")
    (hodot : other ≠ bytes ".") (hodots : other ≠ bytes "..") (hne : name ≠ other) :
    (∀ op, Undisturbed env other s (apply env name s op)) ↔
      cstr name ≠ cstr other ∨ env.isDirectory (targetPath env name) = true ∨
        (s.disk.next.1 = some .fails ∧ s.disk.files.lookup (targetPath env name) = none) := by
  have hpath := targetPath_eq_iff hdep hname hother hdot hdots hodot hodots
  constructor
  · intro h
    by_contra hcon
    obtain ⟨hsame, hfree⟩ := not_or.mp hcon
    have hshare : targetPath env other = targetPath env name := (hpath.mpr (not_not.mp hsame)).symm
    obtain ⟨op, hchanged⟩ := reached env name s (targetPath_ne_nil hdep hname hdot hdots) hfree
    have hfile := (h op).file
    rw [hshare] at hfile
    exact hchanged hfile
  · intro h op
    constructor
    · exact apply_entry env name other hne.symm s op
    · exact fun id => apply_record env name other hne.symm s hs op id
    · rcases h with hdiff | hblocked
      · exact apply_onlyAt env name s op _ fun e => hdiff (hpath.mp e.symm)
      · rw [apply_blocked env name s hblocked op]

theorem helloStore_separate : Separate helloStore := by
  apply separate_insert
  exact separate_of_fewer (separate_register plainEnv (bytes "f") freshStore
    (separate_fresh _ _)) rfl
    fun _ _ h => h

theorem names_isolated_hello :
    (∀ op, Undisturbed plainEnv (bytes "f") helloStore (apply plainEnv (bytes "g") helloStore op)) ↔
      cstr (bytes "g") ≠ cstr (bytes "f") ∨
        plainEnv.isDirectory (targetPath plainEnv (bytes "g")) = true ∨
        (helloStore.disk.next.1 = some .fails ∧
          helloStore.disk.files.lookup (targetPath plainEnv (bytes "g")) = none) :=
  names_isolated plainEnv helloStore (bytes "g") (bytes "f") ⟨by decide, by decide⟩
    helloStore_separate
    (by decide) (by decide) (by decide) (by decide) (by decide) (by decide) (by decide)

/-- `Register` of a name that starts with `f` and a NUL empties the backup `f`. -/
theorem register_empties_other :
    Deployed plainEnv ∧ Separate helloStore ∧
    checkFilename (bytes "f\x00g") = true ∧ checkFilename (bytes "f") = true ∧
    bytes "f\x00g" ≠ bytes "f" ∧ validNode (bytes "f") helloStore = some 0 ∧
    ¬ Undisturbed plainEnv (bytes "f") helloStore
      (apply plainEnv (bytes "f\x00g") helloStore .register) := by
  have hbefore : helloStore.disk.files.lookup
    (targetPath plainEnv (bytes "f")) = some (bytes "hello") := by
    decide
  have hafter : (apply plainEnv (bytes "f\x00g") helloStore .register).disk.files.lookup
      (targetPath plainEnv (bytes "f")) = some [] := by
    decide
  refine ⟨⟨by decide, by decide⟩,
    helloStore_separate, by decide, by decide, by decide, by decide, fun h => ?_⟩
  have hfile := h.file
  rw [hbefore, hafter] at hfile
  cases hfile

end CloudBackup.NameIsolation
