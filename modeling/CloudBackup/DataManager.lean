import CloudBackup.FileStore

/-!
# The data manager

`hash` maps a name to `none` while it is registered for an upload and to the
record made for it once the upload is inserted. Records are shared objects,
so they are kept by identity; a record outlives its entry for whoever still
holds it. `list` is the LRU list from head to tail: a record has non-null
links exactly when it occurs there. The disk and the readings of
`time(nullptr)` still to come belong to the state.
-/

set_option autoImplicit false

namespace CloudBackup.DataManager
open CloudBackup.ByteStrings CloudBackup.FilePath CloudBackup.FileStore

structure BackupInfoNode where
  filename : Bytes
  size : ℤ
  time : ℤ
  deriving DecidableEq

structure DataManagerNode where
  info : BackupInfoNode
  filePreContent : Bytes
  deriving DecidableEq

abbrev NodeId := ℕ

structure Store where
  hash : Table (Option NodeId)
  nodes : NodeId → DataManagerNode
  nextNode : NodeId
  list : List NodeId
  isDirty : Bool
  clock : ℕ → ℤ
  disk : Disk

def Store.fresh (clock : ℕ → ℤ) (disk : Disk) : Store where
  hash := ∅
  nodes := fun _ => { info := { filename := [], size := 0, time := 0 }, filePreContent := [] }
  nextNode := 0
  list := []
  isDirty := false
  clock := clock
  disk := disk

def freshStore : Store := Store.fresh (fun _ => 0) { files := ∅, faults := [] }

/-- The record of a name for which `IsValidFile` is true. -/
def validNode (filename : Bytes) (s : Store) : Option NodeId := (s.hash.lookup filename).join

def setPreContent (id : NodeId) (content : Bytes) (s : Store) : Store :=
  { s with nodes := Function.update s.nodes id { s.nodes id with filePreContent := content } }

def moveToHead (id : NodeId) (s : Store) : Store := { s with list := id :: s.list.erase id }

def listRemove (id : NodeId) (s : Store) : Store :=
  if id ∈ s.list then { setPreContent id [] s with list := s.list.erase id } else s

def removeTail (s : Store) : Store :=
  match s.list.getLast? with
  | none => s
  | some id => listRemove id s

def pushToHead (env : Env) (id : NodeId) (content : Bytes) (s : Store) : Store :=
  let t := { setPreContent id content s with list := id :: s.list }
  if env.lruFileCapacity < t.list.length then removeTail t else t

/-- Register empties a file that is there already and creates one otherwise. -/
def prepareFile (env : Env) (path : Bytes) (d : Disk) : Bool × Disk :=
  let c := if fileExists env path d then clear env path d else (true, d)
  if !c.1 then (false, c.2)
  else if fileExists env path c.2 then (true, c.2)
  else appendContent env path [] c.2

def removeIfExists (env : Env) (path : Bytes) (d : Disk) : Bool × Disk :=
  if fileExists env path d then removeRegularFile env path d else (true, d)

def register (env : Env) (filename : Bytes) (s : Store) : Bool × Store :=
  if (s.hash.lookup filename).isSome then (false, s)
  else if !checkFilename filename then (false, s)
  else
    let p := prepareFile env (targetFile env filename) s.disk
    if p.1 then (true, { s with hash := s.hash.insert filename none, disk := p.2 })
    else (false, { s with disk := p.2 })

/-- The entry goes even when the file cannot be removed. -/
def deregister (env : Env) (filename : Bytes) (s : Store) : Bool × Store :=
  let r := removeIfExists env (targetFile env filename) s.disk
  (r.1, { s with hash := s.hash.erase filename, disk := r.2 })

def newNode (filename : Bytes) (filesize : ℤ) (s : Store) : DataManagerNode :=
  { info := { filename := filename, size := filesize, time := s.clock 0 }, filePreContent := [] }

def insert (filename : Bytes) (filesize : ℤ) (s : Store) : Bool × Store :=
  match s.hash.lookup filename with
  | some none =>
    (true, { s with
      hash := s.hash.insert filename (some s.nextNode)
      nodes := Function.update s.nodes s.nextNode (newNode filename filesize s)
      nextNode := s.nextNode+1
      isDirty := true
      clock := fun n => s.clock (n+1) })
  | _ => (false, s)

def delete (env : Env) (filename : Bytes) (s : Store) : Bool × Store :=
  match validNode filename s with
  | none => (false, s)
  | some id =>
    let t := listRemove id s
    let r := removeIfExists env (targetFile env filename) t.disk
    (r.1, { t with hash := t.hash.erase filename, isDirty := true, disk := r.2 })

def getFileInfoNode (filename : Bytes) (s : Store) : Option NodeId := validNode filename s

def getAllBackupInfo (s : Store) : List BackupInfoNode :=
  s.hash.entries.filterMap fun e => e.2.map fun id => (s.nodes id).info

def getFilePreContent (filename : Bytes) (s : Store) : Bytes × Store :=
  match validNode filename s with
  | none => ([], s)
  | some id => if id ∈ s.list then ((s.nodes id).filePreContent, moveToHead id s) else ([], s)

def keptPrefix (env : Env) (content : Bytes) : Bytes :=
  if env.lruFileContentSize < content.length then content.take env.lruFileContentSize else content

def putFilePreContent (env : Env) (filename content : Bytes) (s : Store) : Bool × Store :=
  match validNode filename s with
  | none => (false, s)
  | some id =>
    if id ∈ s.list then (true, moveToHead id s)
    else (true, pushToHead env id (keptPrefix env content) s)

theorem writable_ne_nil {env : Env} {path : Bytes} (h : writable env path = true) : path ≠ [] := by
  rintro rfl
  simp [writable, cstr] at h

section Clean
variable {d : Disk} (hd : d.faults = []) (env : Env)
include hd

theorem prepareFile_clean (path : Bytes) (hw : writable env path = true) :
    prepareFile env path d = (true, d.write path []) := by
  have hne := writable_ne_nil hw
  by_cases he : fileExists env path d = true
  · have he' : fileExists env path (d.write path []) = true := by
      simp [fileExists, hne, write_lookup]
    simp [prepareFile, he, clear_clean hd env path he hw, he']
  · have hnone : d.files.lookup (cstr path) = none := by
      simp only [fileExists, hne, bne_iff_ne, ne_eq, not_false_eq_true, Bool.and_eq_true,
        Bool.or_eq_true, true_and, not_or, Option.isSome_iff_ne_none, not_not] at he
      exact he.2
    simp [prepareFile, he, appendContent_clean hd env path [] hw, hnone]

theorem prepareFile_refused (path : Bytes) (hw : writable env path = false) :
    prepareFile env path d = (false, d) := by
  by_cases he : fileExists env path d = true
  · simp [prepareFile, he, clear_refused hd env path hw]
  · simp [prepareFile, he, appendContent_refused hd env path [] hw]

theorem prepareFile_faults (path : Bytes) : (prepareFile env path d).2.faults = [] := by
  by_cases hw : writable env path = true
  · rw [prepareFile_clean hd env path hw]
    exact hd
  · rw [prepareFile_refused hd env path (by simpa using hw)]
    exact hd

theorem removeIfExists_faults (path : Bytes) : (removeIfExists env path d).2.faults = [] := by
  unfold removeIfExists
  split_ifs
  · exact removeRegularFile_faults hd env path
  · exact hd

end Clean

structure SameRecords (s t : Store) : Prop where
  hash : t.hash = s.hash
  disk : t.disk = s.disk
  next : t.nextNode = s.nextNode
  info : ∀ id, (t.nodes id).info = (s.nodes id).info

theorem SameRecords.refl (s : Store) : SameRecords s s := ⟨rfl, rfl, rfl, fun _ => rfl⟩

theorem SameRecords.trans {s t u : Store} (h : SameRecords s t) (k : SameRecords t u) :
    SameRecords s u :=
  ⟨k.hash.trans h.hash, k.disk.trans h.disk, k.next.trans h.next, fun id =>
    (k.info id).trans (h.info id)⟩

theorem setPreContent_info (id i : NodeId) (content : Bytes) (s : Store) :
    ((setPreContent id content s).nodes i).info = (s.nodes i).info := by
  by_cases h : i = id
  · subst h
    simp [setPreContent]
  · simp [setPreContent, h]

theorem setPreContent_other (id i : NodeId) (content : Bytes) (s : Store) (h : i ≠ id) :
    (setPreContent id content s).nodes i = s.nodes i := Function.update_of_ne h _ _

theorem setPreContent_same (id : NodeId) (content : Bytes) (s : Store) :
    ((setPreContent id content s).nodes id).filePreContent = content := by
  simp [setPreContent]

theorem moveToHead_same (id : NodeId) (s : Store) : SameRecords s (moveToHead id s) :=
  ⟨rfl, rfl, rfl, fun _ => rfl⟩

theorem listRemove_same (id : NodeId) (s : Store) : SameRecords s (listRemove id s) := by
  unfold listRemove
  split_ifs
  · exact ⟨rfl, rfl, rfl, fun i => setPreContent_info id i [] s⟩
  · exact SameRecords.refl s

theorem removeTail_same (s : Store) : SameRecords s (removeTail s) := by
  unfold removeTail
  split
  · exact SameRecords.refl s
  · exact listRemove_same _ s

theorem pushToHead_same (env : Env) (id : NodeId) (content : Bytes) (s : Store) :
    SameRecords s (pushToHead env id content s) := by
  have h : SameRecords s { setPreContent id content s with list := id :: s.list } :=
    ⟨rfl, rfl, rfl, fun i => setPreContent_info id i content s⟩
  unfold pushToHead
  dsimp only
  split_ifs
  · exact h.trans (removeTail_same _)
  · exact h

theorem getFilePreContent_same (filename : Bytes) (s : Store) :
    SameRecords s (getFilePreContent filename s).2 := by
  unfold getFilePreContent
  split
  · exact SameRecords.refl s
  · split_ifs
    · exact moveToHead_same _ s
    · exact SameRecords.refl s

theorem putFilePreContent_same (env : Env) (filename content : Bytes) (s : Store) :
    SameRecords s (putFilePreContent env filename content s).2 := by
  unfold putFilePreContent
  split
  · exact SameRecords.refl s
  · split_ifs
    · exact moveToHead_same _ s
    · exact pushToHead_same env _ _ s

def CacheHolds (P : NodeId → Bytes → Prop) (s : Store) : Prop :=
  ∀ id ∈ s.list, P id (s.nodes id).filePreContent

theorem keptPrefix_front (env : Env) (content : Bytes) : keptPrefix env content <+: content := by
  unfold keptPrefix
  split_ifs
  · exact List.take_prefix _ _
  · exact List.prefix_rfl

section Cache
variable {P : NodeId → Bytes → Prop} {s : Store} (hs : CacheHolds P s)
include hs

theorem cacheHolds_moveToHead (id : NodeId) (hid : id ∈ s.list) :
    CacheHolds P (moveToHead id s) := by
  intro i hi
  rcases List.mem_cons.mp hi with rfl | hi
  · exact hs i hid
  · exact hs i (List.mem_of_mem_erase hi)

theorem cacheHolds_getFilePreContent (filename : Bytes) :
    CacheHolds P (getFilePreContent filename s).2 := by
  unfold getFilePreContent
  split
  · exact hs
  · split_ifs with hid
    · exact cacheHolds_moveToHead hs _ hid
    · exact hs

variable (hnil : ∀ id, P id [])
include hnil

theorem cacheHolds_listRemove (id : NodeId) : CacheHolds P (listRemove id s) := by
  unfold listRemove
  split_ifs
  · intro i hi
    by_cases h : i = id
    · subst h
      rw [show ((_ : Store).nodes i).filePreContent = [] from setPreContent_same i [] s]
      exact hnil i
    · rw [show (_ : Store).nodes i = s.nodes i from setPreContent_other id i [] s h]
      exact hs i (List.mem_of_mem_erase hi)
  · exact hs

theorem cacheHolds_removeTail : CacheHolds P (removeTail s) := by
  unfold removeTail
  split
  · exact hs
  · exact cacheHolds_listRemove hs hnil _

theorem cacheHolds_pushToHead (env : Env) (id : NodeId) (content : Bytes) (hc : P id content) :
    CacheHolds P (pushToHead env id content s) := by
  have h : CacheHolds P { setPreContent id content s with list := id :: s.list } := by
    intro i hi
    by_cases he : i = id
    · subst he
      rw [show ((_ : Store).nodes i).filePreContent = content from setPreContent_same i content s]
      exact hc
    · rw [show (_ : Store).nodes i = s.nodes i from setPreContent_other id i content s he]
      exact hs i ((List.mem_cons.mp hi).resolve_left he)
  unfold pushToHead
  dsimp only
  split_ifs
  · exact cacheHolds_removeTail h hnil
  · exact h

theorem cacheHolds_putFilePreContent (env : Env) (filename content : Bytes)
    (hc : ∀ id, validNode filename s = some id → id ∉ s.list → P id (keptPrefix env content)) :
    CacheHolds P (putFilePreContent env filename content s).2 := by
  unfold putFilePreContent
  cases hv : validNode filename s with
  | none => exact hs
  | some id =>
    dsimp only
    by_cases hid : id ∈ s.list
    · rw [if_pos hid]
      exact cacheHolds_moveToHead hs id hid
    · rw [if_neg hid]
      exact cacheHolds_pushToHead hs hnil env id _ (hc id hv hid)

end Cache

theorem prepareFile_onlyAt (env : Env) (path : Bytes) (d : Disk) :
    OnlyAt (cstr path) d (prepareFile env path d).2 := by
  have hc : OnlyAt (cstr path) d (if fileExists env path d then
    clear env path d else (true, d)).2 := by
    split_ifs
    · exact clear_onlyAt env path d
    · exact OnlyAt.refl _ _
  unfold prepareFile
  dsimp only
  split_ifs at hc ⊢
  all_goals first
    | exact hc
    | exact hc.trans (appendContent_onlyAt env path [] _)

theorem prepareFile_writable (env : Env) (path : Bytes) (d : Disk)
    (h : (prepareFile env path d).1 = true) :
    writable env path = true := by
  unfold prepareFile at h
  by_cases he : fileExists env path d = true
  · by_cases hc : (FileStore.clear env path d).1 = true
    · exact clear_writable env path d hc
    · simp [he, hc] at h
  · simp only [he, Bool.not_true, Bool.false_eq_true, if_false] at h
    exact appendContent_writable env path [] d h

theorem prepareFile_true (env : Env) (path : Bytes) (d : Disk)
    (h : (prepareFile env path d).1 = true) :
    (prepareFile env path d).2.files.lookup (cstr path) = some [] := by
  by_cases he : fileExists env path d = true
  · by_cases hw : (d.next.1.isNone && writable env path) = true
    · have hclear : clear env path d = (true, d.next.2.write path []) := by
        simp only [clear, he, hw, Bool.not_true, Bool.false_eq_true, if_false, if_true]
      have hne : path ≠ [] := writable_ne_nil (Bool.and_eq_true_iff.mp hw).2
      have he' : fileExists env path (d.next.2.write path []) = true := by
        simp [fileExists, hne, write_lookup]
      simp [prepareFile, he, hclear, he', write_lookup]
    · have hclear : clear env path d = (false, d.next.2) := by
        simp only [clear, he, hw, Bool.not_true, Bool.false_eq_true, if_false]
      simp [prepareFile, he, hclear] at h
  · have hp : prepareFile env path d = appendContent env path [] d := by
      simp [prepareFile, he]
    rw [hp] at h ⊢
    have hsome := appendContent_true env path [] d h
    have hne := writable_ne_nil (appendContent_writable env path [] d h)
    have hnone : d.files.lookup (cstr path) = none := by
      simp only [fileExists, hne, bne_iff_ne, ne_eq, not_false_eq_true, Bool.and_eq_true,
        Bool.or_eq_true, true_and, not_or, Option.isSome_iff_ne_none, not_not] at he
      exact he.2
    rw [hsome, hnone, takes_nil]
    rfl

theorem removeIfExists_onlyAt (env : Env) (path : Bytes) (d : Disk) :
    OnlyAt (cstr path) d (removeIfExists env path d).2 := by
  unfold removeIfExists
  split_ifs
  · exact removeRegularFile_onlyAt env path d
  · exact OnlyAt.refl _ _

theorem removeIfExists_false (env : Env) (path : Bytes) (d : Disk) :
    (removeIfExists env path d).1 = false ↔ path ≠ [] ∧ env.isDirectory (cstr path) = true := by
  by_cases he : fileExists env path d = true
  · have hpath : path ≠ [] := by
      rintro rfl
      simp [fileExists] at he
    by_cases hdir : env.isDirectory (cstr path) = true
    · simp [removeIfExists, removeRegularFile, he, hdir, hpath]
    · simp [removeIfExists, he, removeRegularFile_done env path he (by simpa using hdir), hdir]
  · simp only [removeIfExists, he, if_false, Bool.false_eq_true, Bool.true_eq_false,
      false_iff, not_and]
    intro hpath hdir
    simp [fileExists, hpath, hdir] at he

theorem removeIfExists_lookup (env : Env) (path q F : Bytes) (d : Disk)
    (h : (removeIfExists env path d).2.files.lookup q = some F) : d.files.lookup q = some F := by
  unfold removeIfExists at h
  split_ifs at h
  · exact removeRegularFile_lookup env path q F d h
  · exact h

def registrable (filename : Bytes) (s : Store) : Bool :=
  (s.hash.lookup filename).isNone && checkFilename filename

theorem register_nodes (env : Env) (filename : Bytes) (s : Store) :
    (register env filename s).2.nodes = s.nodes ∧
      (register env filename s).2.nextNode = s.nextNode := by
  unfold register
  dsimp only
  split_ifs <;> exact ⟨rfl, rfl⟩

theorem register_refused (env : Env) (filename : Bytes) (s : Store)
    (h : registrable filename s = false) : register env filename s = (false, s) := by
  unfold register
  split_ifs with h1 h2
  · rfl
  · rfl
  · simp_all [registrable]

theorem register_free (env : Env) (filename : Bytes) (s : Store)
    (h : registrable filename s = true) :
    s.hash.lookup filename = none ∧
    register env filename s = if (prepareFile env (targetFile env filename) s.disk).1
      then (true, { s with hash := s.hash.insert filename none,
                           disk := (prepareFile env (targetFile env filename) s.disk).2 })
      else (false, { s with disk := (prepareFile env (targetFile env filename) s.disk).2 }) := by
  simp only [registrable, Bool.and_eq_true, Option.isNone_iff_eq_none] at h
  refine ⟨h.1, ?_⟩
  unfold register
  simp only [h.1, h.2, Option.isSome_none, Bool.false_eq_true, if_false, Bool.not_true]

theorem insert_reserved (filename : Bytes) (filesize : ℤ) (s : Store)
    (h : s.hash.lookup filename = some none) :
    DataManager.insert filename filesize s = (true, { s with
      hash := s.hash.insert filename (some s.nextNode)
      nodes := Function.update s.nodes s.nextNode (newNode filename filesize s)
      nextNode := s.nextNode+1
      isDirty := true
      clock := fun n => s.clock (n+1) }) := by
  unfold DataManager.insert
  rw [h]

theorem validNode_iff (filename : Bytes) (s : Store) (id : NodeId) :
    validNode filename s = some id ↔ s.hash.lookup filename = some (some id) := by
  unfold validNode
  cases s.hash.lookup filename with
  | none => simp
  | some o => simp

theorem insert_refused (filename : Bytes) (filesize : ℤ) (s : Store)
    (h : s.hash.lookup filename ≠ some none) :
    DataManager.insert filename filesize s = (false, s) := by
  unfold DataManager.insert
  split
  · rename_i hres
    exact absurd hres h
  · rfl

theorem delete_hash (env : Env) (filename : Bytes) (s : Store) (id : NodeId)
    (hv : validNode filename s = some id) :
    (delete env filename s).2.hash = s.hash.erase filename := by
  rw [delete, hv]
  show (listRemove id s).hash.erase filename = _
  rw [(listRemove_same id s).hash]

theorem delete_refused (env : Env) (filename : Bytes) (s : Store)
    (hv : validNode filename s = none) :
    delete env filename s = (false, s) := by
  rw [delete, hv]

theorem delete_disk (env : Env) (filename : Bytes) (s : Store) (id : NodeId)
    (hv : validNode filename s = some id) :
    (delete env filename s).2.disk = (removeIfExists env (targetFile env filename) s.disk).2 := by
  rw [delete, hv]
  show (removeIfExists env _ (listRemove id s).disk).2 = _
  rw [(listRemove_same id s).disk]

theorem insert_disk (filename : Bytes) (filesize : ℤ) (s : Store) :
    (DataManager.insert filename filesize s).2.disk = s.disk := by
  unfold DataManager.insert
  split <;> rfl

theorem validNode_erase (s t : Store) (filename name : Bytes) (id : NodeId)
    (ht : t.hash = s.hash.erase filename) (h : validNode name t = some id) :
    validNode name s = some id := by
  rw [validNode, ht] at h
  by_cases hn : name = filename
  · subst hn
    rw [AList.lookup_erase] at h
    cases h
  · rwa [AList.lookup_erase_ne hn] at h

theorem validNode_reserve (s t : Store) (filename name : Bytes) (id : NodeId)
    (ht : t.hash = s.hash.insert filename none) (h : validNode name t = some id) :
    validNode name s = some id := by
  rw [validNode, ht] at h
  by_cases hn : name = filename
  · subst hn
    rw [AList.lookup_insert] at h
    cases h
  · rwa [AList.lookup_insert_ne hn] at h

structure Linked (s : Store) : Prop where
  nodup : s.list.Nodup
  valid : ∀ id ∈ s.list, validNode (s.nodes id).info.filename s = some id

theorem listRemove_list (id : NodeId) (s : Store) : (listRemove id s).list = s.list.erase id := by
  unfold listRemove
  split_ifs with h
  · rfl
  · exact (List.erase_of_not_mem h).symm

section Linked
variable {s : Store} (hs : Linked s)
include hs

theorem linked_sub {t : Store} (h : SameRecords s t) (hd : t.list.Nodup) (hsub : t.list ⊆ s.list) :
    Linked t := by
  refine ⟨hd, fun id hid => ?_⟩
  rw [validNode, h.hash, h.info]
  exact hs.valid id (hsub hid)

theorem linked_moveToHead (id : NodeId) (hid : id ∈ s.list) : Linked (moveToHead id s) := by
  apply linked_sub hs (moveToHead_same id s)
  · exact List.nodup_cons.mpr ⟨hs.nodup.not_mem_erase, hs.nodup.erase id⟩
  · intro i hi
    rcases List.mem_cons.mp hi with rfl | hi
    · exact hid
    · exact List.mem_of_mem_erase hi

theorem linked_listRemove (id : NodeId) : Linked (listRemove id s) := by
  apply linked_sub hs (listRemove_same id s) <;> rw [listRemove_list]
  · exact hs.nodup.erase id
  · exact List.erase_subset

theorem linked_removeTail : Linked (removeTail s) := by
  unfold removeTail
  split
  · exact hs
  · exact linked_listRemove hs _

theorem linked_pushToHead (env : Env) (id : NodeId) (content : Bytes) (hid : id ∉ s.list)
    (hv : validNode (s.nodes id).info.filename s = some id) :
    Linked (pushToHead env id content s) := by
  have h : Linked { setPreContent id content s with list := id :: s.list } := by
    refine ⟨List.nodup_cons.mpr ⟨hid, hs.nodup⟩, fun i hi => ?_⟩
    rw [show ((_ : Store).nodes i).info = (s.nodes i).info from setPreContent_info id i content s]
    rcases List.mem_cons.mp hi with rfl | hi
    · exact hv
    · exact hs.valid i hi
  unfold pushToHead
  dsimp only
  split_ifs
  · exact linked_removeTail h
  · exact h

theorem linked_getFilePreContent (filename : Bytes) : Linked (getFilePreContent filename s).2 := by
  unfold getFilePreContent
  split
  · exact hs
  · split_ifs with hid
    · exact linked_moveToHead hs _ hid
    · exact hs

theorem linked_putFilePreContent (env : Env) (filename content : Bytes)
    (hname : ∀ id, validNode filename s = some id → (s.nodes id).info.filename = filename) :
    Linked (putFilePreContent env filename content s).2 := by
  unfold putFilePreContent
  cases hv : validNode filename s with
  | none => exact hs
  | some id =>
    dsimp only
    by_cases hid : id ∈ s.list
    · rw [if_pos hid]
      exact linked_moveToHead hs id hid
    · rw [if_neg hid]
      exact linked_pushToHead hs env id _ hid (by rw [hname id hv, hv])

end Linked

end CloudBackup.DataManager
