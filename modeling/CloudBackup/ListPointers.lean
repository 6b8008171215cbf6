import CloudBackup.CircularList
import CloudBackup.CacheOrder
import CloudBackup.RunInvariants

/-!
# The pointers of the list

The nodes of the list are the records themselves and a guard, linked by raw
pointers, while the hash table owns the records: a record is freed when its
entry goes. Reading or assigning through a null pointer or into a freed record
has no outcome. Every call has one, and does what the list of records in
`DataManager` does.
-/

set_option autoImplicit false

namespace CloudBackup.ListPointers
open CloudBackup.ByteStrings CloudBackup.FilePath CloudBackup.FileStore CloudBackup.DataManager
open CloudBackup.CircularList CloudBackup.LruCache CloudBackup.CacheOrder CloudBackup.RunInvariants

/-- A `DataManagerNode *` that is not null. -/
inductive Ref where
  | guard
  | record (id : NodeId)
  deriving DecidableEq

structure Manager where
  hash : Table (Option NodeId)
  nodes : NodeId → DataManagerNode
  live : NodeId → Bool
  nextNode : NodeId
  next : Ref → Option Ref
  prev : Ref → Option Ref
  size : ℕ
  isDirty : Bool
  clock : ℕ → ℤ
  disk : Disk

def setNext (r : Ref) (v : Option Ref) (m : Manager) : Manager :=
  { m with next := Function.update m.next r v }

def setPrev (r : Ref) (v : Option Ref) (m : Manager) : Manager :=
  { m with prev := Function.update m.prev r v }

def setContent (id : NodeId) (content : Bytes) (m : Manager) : Manager :=
  { m with nodes := Function.update m.nodes id { m.nodes id with filePreContent := content } }

def isLive (m : Manager) : Ref → Bool
  | .guard => true
  | .record id => m.live id

def readNext (p : Option Ref) (m : Manager) : Option (Option Ref) :=
  p.bind fun r => if isLive m r then some (m.next r) else none

def readPrev (p : Option Ref) (m : Manager) : Option (Option Ref) :=
  p.bind fun r => if isLive m r then some (m.prev r) else none

def assignNext (p v : Option Ref) (m : Manager) : Option Manager :=
  p.bind fun r => if isLive m r then some (setNext r v m) else none

def assignPrev (p v : Option Ref) (m : Manager) : Option Manager :=
  p.bind fun r => if isLive m r then some (setPrev r v m) else none

/-- The content of the guard is never read. -/
def assignContent (p : Option Ref) (content : Bytes) (m : Manager) : Option Manager :=
  p.bind fun r => if isLive m r then
    match r with
    | .guard => some m
    | .record id => some (setContent id content m)
  else none

def unlink (node : Option Ref) (m : Manager) : Option Manager := do
  let m ← assignNext (← readPrev node m) (← readNext node m) m
  assignPrev (← readNext node m) (← readPrev node m) m

def linkFirst (node : Option Ref) (m : Manager) : Option Manager := do
  let m ← assignNext node (← readNext (some .guard) m) m
  let m ← assignPrev node (some .guard) m
  let m ← assignPrev (← readNext (some .guard) m) node m
  assignNext (some .guard) node m

def moveToHead (node : Option Ref) (m : Manager) : Option (Bool × Manager) :=
  if node = none then some (false, m) else do
    let next ← readNext node m
    let prev ← readPrev node m
    if next = none ∨ prev = none then some (false, m) else
      let m ← unlink node m
      let m ← linkFirst node m
      some (true, m)

def remove (node : Option Ref) (m : Manager) : Option (Bool × Manager) :=
  if node = none then some (false, m) else do
    let next ← readNext node m
    let prev ← readPrev node m
    if next = none ∨ prev = none then some (true, m) else
      let m ← unlink node m
      let m ← assignContent node [] m
      let m ← assignPrev node none m
      let m ← assignNext node none m
      some (true, { m with size := m.size-1 })

def removeTail (m : Manager) : Option (Bool × Manager) := do
  let last ← readPrev (some .guard) m
  if last = some .guard then some (false, m) else remove last m

def pushToHead (env : Env) (node : Option Ref) (content : Bytes) (m : Manager) :
    Option (Bool × Manager) :=
  if node = none then some (false, m) else do
    let next ← readNext node m
    let prev ← readPrev node m
    if next ≠ none ∨ prev ≠ none then some (false, m) else
      let m ← assignContent node content m
      let m ← linkFirst node m
      let m := { m with size := m.size+1 }
      if env.lruFileCapacity < m.size then
        let (_, m) ← removeTail m
        some (true, m)
      else some (true, m)

def validRecord (filename : Bytes) (m : Manager) : Option NodeId := (m.hash.lookup filename).join

/-- `_hash.erase`: the record of the entry is freed with it. -/
def eraseEntry (filename : Bytes) (m : Manager) : Manager :=
  { m with
    hash := m.hash.erase filename
    live := fun id => m.live id && validRecord filename m ≠ some id }

def register (env : Env) (filename : Bytes) (m : Manager) : Bool × Manager :=
  if (m.hash.lookup filename).isSome then (false, m)
  else if !checkFilename filename then (false, m)
  else
    let p := prepareFile env (targetFile env filename) m.disk
    if p.1 then (true, { m with hash := m.hash.insert filename none, disk := p.2 })
    else (false, { m with disk := p.2 })

def deregister (env : Env) (filename : Bytes) (m : Manager) : Bool × Manager :=
  let m := eraseEntry filename m
  let r := removeIfExists env (targetFile env filename) m.disk
  (r.1, { m with disk := r.2 })

def insert (filename : Bytes) (filesize : ℤ) (m : Manager) : Bool × Manager :=
  match m.hash.lookup filename with
  | some none =>
    let info : BackupInfoNode := { filename := filename, size := filesize, time := m.clock 0 }
    (true, { m with
      hash := m.hash.insert filename (some m.nextNode)
      nodes := Function.update m.nodes m.nextNode { info := info, filePreContent := [] }
      live := Function.update m.live m.nextNode true
      nextNode := m.nextNode+1
      next := Function.update m.next (.record m.nextNode) none
      prev := Function.update m.prev (.record m.nextNode) none
      isDirty := true
      clock := fun n => m.clock (n+1) })
  | _ => (false, m)

def delete (env : Env) (filename : Bytes) (m : Manager) : Option (Bool × Manager) :=
  match validRecord filename m with
  | none => some (false, m)
  | some id => do
    let (removed, m) ← remove (some (.record id)) m
    if !removed then some (false, m) else
      let r := removeIfExists env (targetFile env filename) m.disk
      some (r.1, { eraseEntry filename m with isDirty := true, disk := r.2 })

def getFilePreContent (filename : Bytes) (m : Manager) : Option (Bytes × Manager) :=
  match validRecord filename m with
  | none => some ([], m)
  | some id => do
    let next ← readNext (some (.record id)) m
    let prev ← readPrev (some (.record id)) m
    if next = none ∨ prev = none then some ([], m) else
      let (moved, m) ← moveToHead (some (.record id)) m
      if !moved then some ([], m) else some ((m.nodes id).filePreContent, m)

def putFilePreContent (env : Env) (filename content : Bytes) (m : Manager) :
    Option (Bool × Manager) :=
  match validRecord filename m with
  | none => some (false, m)
  | some id => do
    let next ← readNext (some (.record id)) m
    let prev ← readPrev (some (.record id)) m
    if next = none ∨ prev = none then
      pushToHead env (some (.record id)) (keptPrefix env content) m
    else moveToHead (some (.record id)) m

section Pointers
variable {m : Manager}

theorem readNext_live {r : Ref} (h : isLive m r = true) :
    readNext (some r) m = some (m.next r) := by
  rw [readNext, Option.bind_some, if_pos h]

theorem readPrev_live {r : Ref} (h : isLive m r = true) :
    readPrev (some r) m = some (m.prev r) := by
  rw [readPrev, Option.bind_some, if_pos h]

theorem assignNext_live {r : Ref} (v : Option Ref) (h : isLive m r = true) :
    assignNext (some r) v m = some (setNext r v m) := by
  rw [assignNext, Option.bind_some, if_pos h]

theorem assignPrev_live {r : Ref} (v : Option Ref) (h : isLive m r = true) :
    assignPrev (some r) v m = some (setPrev r v m) := by
  rw [assignPrev, Option.bind_some, if_pos h]

theorem assignContent_live {id : NodeId} (content : Bytes) (h : m.live id = true) :
    assignContent (some (.record id)) content m = some (setContent id content m) := by
  rw [assignContent, Option.bind_some]
  exact if_pos h

def relinked (m : Manager) (next prev : Ref → Option Ref) : Manager :=
  { m with next := next, prev := prev }

theorem isLive_relinked (next prev : Ref → Option Ref) (r : Ref) :
    isLive (relinked m next prev) r = isLive m r := by
  cases r <;> rfl

def detached (id : NodeId) (m : Manager) : Manager :=
  let m := setNext (.record id) none (setPrev (.record id) none (setContent id [] m))
  { m with size := m.size-1 }

theorem detached_live {id : NodeId} (h : m.live id = true) :
    (do
      let m ← assignContent (some (.record id)) [] m
      let m ← assignPrev (some (.record id)) none m
      let m ← assignNext (some (.record id)) none m
      some (true, { m with size := m.size-1 })) = some (true, detached id m) := by
  have hprev : isLive (setContent id [] m) (.record id) = true := h
  have hnext : isLive (setPrev (.record id) none (setContent id [] m)) (.record id) = true := h
  rw [assignContent_live [] h]
  show (assignPrev _ none (setContent id [] m)).bind _ = _
  rw [assignPrev_live none hprev]
  show (assignNext _ none (setPrev (.record id) none (setContent id [] m))).bind _ = _
  rw [assignNext_live none hnext]
  rfl

theorem unlink_live {a p n : Ref} (ha : isLive m a = true) (hp : isLive m p = true)
    (hn : isLive m n = true)
    (hprev : m.prev a = some p) (hnext : m.next a = some n) :
    unlink (some a) m =
      some (relinked m (Function.update m.next p (some n))
        (Function.update m.prev n (some p))) := by
  have hkept : Function.update m.next p (some n) a = some n := by
    by_cases hap : a = p
    · rw [hap, Function.update_self]
    · rw [Function.update_of_ne hap, hnext]
  have hlive := isLive_relinked (m := m) (Function.update m.next p (some n)) m.prev
  have hread : readNext (some a) (relinked m (Function.update m.next p (some n)) m.prev) =
    some (some n) := by
    rw [readNext_live ((hlive a).trans ha)]
    exact congrArg some hkept
  have hback : readPrev (some a) (relinked m (Function.update m.next p (some n)) m.prev) =
    some (some p) := by
    rw [readPrev_live ((hlive a).trans ha)]
    exact congrArg some hprev
  have hfirst : unlink (some a) m = (do
      let m ← assignNext (some p) (some n) m
      assignPrev (← readNext (some a) m) (← readPrev (some a) m) m) := by
    rw [unlink, readPrev_live ha, readNext_live ha, hprev, hnext]
    rfl
  rw [hfirst, assignNext_live _ hp]
  show (do assignPrev (← readNext (some a) (relinked m _ m.prev))
                      (← readPrev (some a) (relinked m _ m.prev)) _) = _
  rw [hread, hback]
  exact assignPrev_live (some p) ((hlive n).trans hn)

theorem linkFirst_live {a n : Ref} (ha : isLive m a = true) (hn : isLive m n = true)
    (hne : a ≠ .guard)
    (hnext : m.next .guard = some n) :
    linkFirst (some a) m = some (relinked m
      (Function.update (Function.update m.next a (some n)) .guard (some a))
      (Function.update (Function.update m.prev a (some .guard)) n (some a))) := by
  have hread : readNext (some .guard) (relinked m (Function.update m.next a (some n))
      (Function.update m.prev a (some .guard))) = some (some n) := by
    rw [readNext_live rfl]
    show some (Function.update m.next a (some n) .guard) = _
    rw [Function.update_of_ne hne.symm, hnext]
  have hback : assignPrev (some a) (some .guard)
    (relinked m (Function.update m.next a (some n)) m.prev) =
      some (relinked m (Function.update m.next a (some n))
        (Function.update m.prev a (some .guard))) :=
    assignPrev_live _ ((isLive_relinked _ _ a).trans ha)
  have hlast := assignPrev_live (some a) ((isLive_relinked (Function.update m.next a (some n))
    (Function.update m.prev a (some .guard)) n).trans hn)
  have hfirst : linkFirst (some a) m = (do
      let m ← assignNext (some a) (some n) m
      let m ← assignPrev (some a) (some .guard) m
      let m ← assignPrev (← readNext (some .guard) m) (some a) m
      assignNext (some .guard) (some a) m) := by
    rw [linkFirst, readNext_live rfl, hnext]
    rfl
  rw [hfirst, assignNext_live _ ha]
  show (do
      let m ← assignPrev (some a) (some .guard)
        (relinked m (Function.update m.next a (some n)) m.prev)
      let m ← assignPrev (← readNext (some .guard) m) (some a) m
      assignNext (some .guard) (some a) m) = _
  rw [hback, Option.bind_eq_bind, Option.bind_some, hread, Option.bind_eq_bind,
    Option.bind_some, hlast]
  exact assignNext_live (r := .guard) (some a) rfl

end Pointers

/-- The store that a manager stands for when `xs` are its listed records. -/
def view (m : Manager) (xs : List NodeId) : Store where
  hash := m.hash
  nodes := m.nodes
  nextNode := m.nextNode
  list := xs
  isDirty := m.isDirty
  clock := m.clock
  disk := m.disk

structure Ring (m : Manager) (xs : List NodeId) : Prop where
  circle : Circle m.next m.prev .guard (xs.map .record)
  listed : ∀ id ∈ xs, m.live id = true

def Unlinked (m : Manager) (id : NodeId) : Prop :=
  m.next (.record id) = none ∧ m.prev (.record id) = none

structure Shape (m : Manager) (xs : List NodeId) : Prop where
  ring : Ring m xs
  unlinked : ∀ id, id ∉ xs → Unlinked m id
  size : m.size = xs.length

theorem record_listed {xs : List NodeId} {id : NodeId} :
    Ref.record id ∈ Ref.guard :: xs.map .record ↔ id ∈ xs := by
  constructor
  · intro h
    rcases List.mem_cons.mp h with h | h
    · cases h
    · obtain ⟨i, hi, he⟩ := List.mem_map.mp h
      cases he
      exact hi
  · intro h
    exact List.mem_cons_of_mem _ (List.mem_map_of_mem h)

section Ring
variable {m : Manager} {xs : List NodeId} (h : Ring m xs)
include h

theorem ring_live {r : Ref} (hr : r ∈ Ref.guard :: xs.map .record) : isLive m r = true := by
  cases r with
  | guard => rfl
  | record id => exact h.listed id (record_listed.mp hr)

theorem ring_nodup : xs.Nodup := List.Nodup.of_map _ h.circle.nodup.of_cons

theorem ring_links {id : NodeId} (hid : id ∈ xs) :
    ∃ p n, m.prev (.record id) = some p ∧ m.next (.record id) = some n ∧
      p ∈ Ref.guard :: xs.map .record ∧ n ∈ Ref.guard :: xs.map .record :=
  circle_neighbours h.circle (List.mem_map_of_mem hid)

theorem unlink_ring {id : NodeId} (hid : id ∈ xs) :
    ∃ next prev, unlink (some (.record id)) m = some (relinked m next prev) ∧
      Ring (relinked m next prev) (xs.erase id) ∧
      ∀ i, i ∉ xs → Unlinked m i → Unlinked (relinked m next prev) i := by
  obtain ⟨p, n, hprev, hnext, hp, hn⟩ := ring_links h hid
  refine ⟨_, _, unlink_live (h.listed id hid) (ring_live h hp) (ring_live h hn) hprev hnext,
    ⟨?_, ?_⟩, ?_⟩
  · rw [List.map_erase fun _ _ he => Ref.record.inj he]
    exact circle_unlink h.circle (List.mem_map_of_mem hid) hprev hnext
  · exact fun i hi => h.listed i (List.mem_of_mem_erase hi)
  · intro i hi hout
    have hip : Ref.record i ≠ p := fun he => hi (record_listed.mp (he ▸ hp))
    have hin : Ref.record i ≠ n := fun he => hi (record_listed.mp (he ▸ hn))
    exact ⟨(Function.update_of_ne hip _ _).trans hout.1,
      (Function.update_of_ne hin _ _).trans hout.2⟩

theorem linkFirst_ring {id : NodeId} (hid : id ∉ xs) (hlive : m.live id = true) :
    ∃ next prev, linkFirst (some (.record id)) m = some (relinked m next prev) ∧
      Ring (relinked m next prev) (id::xs) ∧
      ∀ i, i ∉ id::xs → Unlinked m i → Unlinked (relinked m next prev) i := by
  obtain ⟨n, rest, hrest, hfirst⟩ := circle_first h.circle
  have hn : n ∈ Ref.guard :: xs.map Ref.record := by
    have hmem : n ∈ xs.map Ref.record ++ [Ref.guard] := hrest ▸ List.mem_cons_self
    rw [List.mem_append, List.mem_singleton] at hmem
    exact List.mem_cons.mpr hmem.symm
  have hguard : ∀ i, Ref.record i ≠ Ref.guard := fun i he => by cases he
  refine ⟨_, _, linkFirst_live hlive (ring_live h hn) (hguard id) hfirst.1, ⟨?_, ?_⟩, ?_⟩
  · exact circle_link h.circle (fun hm => hid (record_listed.mp hm)) hfirst.1
  · intro i hi
    rcases List.mem_cons.mp hi with rfl | hi
    · exact hlive
    · exact h.listed i hi
  · intro i hi hout
    obtain ⟨hne, hi⟩ := not_or.mp fun hm => hi (List.mem_cons.mpr hm)
    have hr : Ref.record i ≠ Ref.record id := fun he => hne (Ref.record.inj he)
    have hin : Ref.record i ≠ n := fun he => hi (record_listed.mp (he ▸ hn))
    constructor
    · show Function.update (Function.update m.next (.record id) (some n)) .guard (some (.record id))
        (.record i) = none
      rw [Function.update_of_ne (hguard i), Function.update_of_ne hr, hout.1]
    · show Function.update (Function.update m.prev (.record id) (some .guard)) n (some (.record id))
        (.record i) = none
      rw [Function.update_of_ne hin, Function.update_of_ne hr, hout.2]

end Ring

section Operations
variable {m : Manager} {xs : List NodeId} (h : Shape m xs)
include h

theorem moveToHead_shape {id : NodeId} (hid : id ∈ xs) :
    ∃ m', moveToHead (some (.record id)) m = some (true, m') ∧
      view m' (id::xs.erase id) = DataManager.moveToHead id (view m xs) ∧ m'.live = m.live ∧
      Shape m' (id::xs.erase id) := by
  have hlive : isLive m (.record id) = true := h.ring.listed id hid
  obtain ⟨p, n, hprev, hnext, -⟩ := ring_links h.ring hid
  obtain ⟨next, prev, hunlink, hring, hout⟩ := unlink_ring h.ring hid
  obtain ⟨next', prev', hlink, hring', hout'⟩ :=
    linkFirst_ring hring (ring_nodup h.ring).not_mem_erase hlive
  have hrun : moveToHead (some (.record id)) m =
      some (true, relinked (relinked m next prev) next' prev') := by
    rw [moveToHead, if_neg (Option.some_ne_none _), readNext_live hlive, readPrev_live hlive,
      hprev, hnext]
    show (do
      let m ← unlink (some (.record id)) m
      let m ← linkFirst (some (.record id)) m
      some (true, m)) = _
    rw [hunlink, Option.bind_eq_bind, Option.bind_some, hlink]
    rfl
  refine ⟨_, hrun, rfl, rfl, hring', ?_, ?_⟩
  · intro i hi
    have hne : i ∉ xs := by
      intro hm
      by_cases he : i = id
      · exact hi (he ▸ List.mem_cons_self)
      · exact hi (List.mem_cons_of_mem id ((List.mem_erase_of_ne he).mpr hm))
    exact hout' i hi (hout i hne (h.unlinked i hne))
  · have hpos : 0 < xs.length := List.length_pos_of_mem hid
    show m.size = _
    rw [h.size, List.length_cons, List.length_erase_of_mem hid]
    omega

theorem remove_shape {id : NodeId} (hlive : m.live id = true) :
    ∃ m', remove (some (.record id)) m = some (true, m') ∧
      view m' (xs.erase id) = listRemove id (view m xs) ∧ m'.live = m.live ∧
        Shape m' (xs.erase id) := by
  have hread : isLive m (.record id) = true := hlive
  by_cases hid : id ∈ xs
  · obtain ⟨p, n, hprev, hnext, -⟩ := ring_links h.ring hid
    obtain ⟨next, prev, hunlink, hring, hout⟩ := unlink_ring h.ring hid
    have hrun : remove (some (.record id)) m = some (true, detached id (relinked m next prev)) := by
      rw [remove, if_neg (Option.some_ne_none _), readNext_live hread, readPrev_live hread,
        hprev, hnext,
        ← detached_live (m := relinked m next prev) hlive]
      show (unlink (some (.record id)) m).bind _ = _
      rw [hunlink]
      rfl
    have hunlisted : Ref.record id ∉ Ref.guard :: (xs.erase id).map Ref.record :=
      fun hm => (ring_nodup h.ring).not_mem_erase (record_listed.mp hm)
    refine ⟨_, hrun, ?_, rfl, ⟨?_, hring.listed⟩, ?_, ?_⟩
    · rw [listRemove]
      exact (if_pos hid).symm
    · exact circle_outside hring.circle hunlisted none none
    · intro i hi
      by_cases hie : i = id
      · rw [hie]
        exact ⟨Function.update_self _ _ _, Function.update_self _ _ _⟩
      · have hm : i ∉ xs := fun hm => hi ((List.mem_erase_of_ne hie).mpr hm)
        have hr : Ref.record i ≠ Ref.record id := fun he => hie (Ref.record.inj he)
        obtain ⟨hni, hpi⟩ := hout i hm (h.unlinked i hm)
        exact ⟨(Function.update_of_ne hr _ _).trans hni, (Function.update_of_ne hr _ _).trans hpi⟩
    · show m.size-1 = _
      rw [h.size, List.length_erase_of_mem hid]
  · obtain ⟨hnext, hprev⟩ := h.unlinked id hid
    have hsame : xs.erase id = xs := List.erase_of_not_mem hid
    have hrun : remove (some (.record id)) m = some (true, m) := by
      rw [remove, if_neg (Option.some_ne_none _), readNext_live hread, readPrev_live hread,
        hprev, hnext]
      rfl
    refine ⟨m, hrun, ?_, rfl, ?_⟩
    · rw [hsame, listRemove]
      exact (if_neg hid).symm
    · rw [hsame]
      exact h

theorem removeTail_shape (hne : xs ≠ []) :
    ∃ m', removeTail m = some (true, m') ∧
      view m' (DataManager.removeTail (view m xs)).list = DataManager.removeTail (view m xs) ∧
        m'.live = m.live ∧
      Shape m' (DataManager.removeTail (view m xs)).list := by
  obtain ⟨id, hlast⟩ := Option.ne_none_iff_exists'.mp fun hn =>
    hne (List.getLast?_eq_none_iff.mp hn)
  have hid : id ∈ xs := List.mem_of_getLast? hlast
  have hprev : m.prev .guard = some (.record id) := by
    rw [circle_last h.ring.circle, List.getLast?_map, hlast]
    rfl
  have htail : DataManager.removeTail (view m xs) = listRemove id (view m xs) := by
    rw [DataManager.removeTail, show (view m xs).list = xs from rfl, hlast]
  obtain ⟨m', hrun, hview, hlive, hshape⟩ := remove_shape h (h.ring.listed id hid)
  have hlist : (listRemove id (view m xs)).list = xs.erase id := listRemove_list id (view m xs)
  refine ⟨m', ?_, ?_, hlive, ?_⟩
  · rw [removeTail, readPrev_live rfl, hprev]
    exact hrun
  · rw [htail, hlist]
    exact hview
  · rw [htail, hlist]
    exact hshape

theorem pushToHead_shape (env : Env) {id : NodeId} (content : Bytes) (hid : id ∉ xs)
    (hlive : m.live id = true) :
    ∃ m', pushToHead env (some (.record id)) content m = some (true, m') ∧
      view m' (DataManager.pushToHead env id content (view m xs)).list =
        DataManager.pushToHead env id content (view m xs) ∧ m'.live = m.live ∧
      Shape m' (DataManager.pushToHead env id content (view m xs)).list := by
  have hread : isLive m (.record id) = true := hlive
  obtain ⟨hnext, hprev⟩ := h.unlinked id hid
  have hring : Ring (setContent id content m) xs := ⟨h.ring.circle, h.ring.listed⟩
  obtain ⟨next, prev, hlink, hring', hout⟩ := linkFirst_ring hring hid hlive
  obtain ⟨u, hu⟩ : ∃ u : Manager,
    u = { relinked (setContent id content m) next prev with size := m.size+1 } :=
    ⟨_, rfl⟩
  have hview : view u (id::xs) = pushed id content (view m xs) := by
    rw [hu]
    rfl
  have hshape : Shape u (id::xs) := by
    rw [hu]
    refine ⟨⟨hring'.circle, hring'.listed⟩, ?_, ?_⟩
    · intro i hi
      exact hout i hi (h.unlinked i fun hm => hi (List.mem_cons_of_mem id hm))
    · show m.size+1 = _
      rw [h.size]
      rfl
  have hulive : u.live = m.live := by rw [hu]; rfl
  have husize : u.size = (pushed id content (view m xs)).list.length := hshape.size
  have hrun : pushToHead env (some (.record id)) content m =
      if env.lruFileCapacity < u.size then
        (removeTail u).bind fun r => some (true, r.2) else some (true, u) := by
    rw [pushToHead, if_neg (Option.some_ne_none _), readNext_live hread, readPrev_live hread,
      hprev, hnext, hu]
    show (assignContent (some (.record id)) content m).bind _ = _
    rw [assignContent_live content hlive]
    show (linkFirst (some (.record id)) (setContent id content m)).bind _ = _
    rw [hlink]
    rfl
  rw [hrun, husize, pushToHead_pushed]
  split_ifs
  · obtain ⟨m', htail, hv, hl, hs⟩ := removeTail_shape hshape (List.cons_ne_nil id xs)
    rw [hview] at hv hs
    exact ⟨m', by rw [htail]; rfl, hv, hl.trans hulive, hs⟩
  · exact ⟨u, rfl, hview, hulive, hshape⟩

end Operations

structure Mirrors (m : Manager) (s : Store) : Prop where
  view : view m s.list = s
  shape : Shape m s.list
  owned : ∀ id, m.live id = true ↔ ∃ filename, validNode filename s = some id

theorem mirrors_valid {m : Manager} {s : Store} (h : Mirrors m s) (filename : Bytes) :
    validRecord filename m = validNode filename s := by
  rw [← h.view]
  rfl

theorem mirrors_links {m : Manager} {s : Store} (h : Mirrors m s) (id : NodeId) :
    (m.next (.record id) = none ↔ id ∉ s.list) ∧ (m.prev (.record id) = none ↔ id ∉ s.list) := by
  by_cases hid : id ∈ s.list
  · obtain ⟨p, n, hprev, hnext, -⟩ := ring_links h.shape.ring hid
    simp [hprev, hnext, hid]
  · obtain ⟨hnext, hprev⟩ := h.shape.unlinked id hid
    simp [hprev, hnext, hid]

theorem unlinked_iff {m : Manager} {s : Store} (h : Mirrors m s) (id : NodeId) :
    (m.next (.record id) = none ∨ m.prev (.record id) = none) ↔ id ∉ s.list := by
  rw [(mirrors_links h id).1, (mirrors_links h id).2, or_self]

theorem mirrors_same {m m' : Manager} {s t : Store} (h : Mirrors m s)
    (hview : ListPointers.view m' t.list = t)
    (hlive : m'.live = m.live) (hshape : Shape m' t.list) (hsame : SameRecords s t) :
    Mirrors m' t := by
  refine ⟨hview, hshape, fun id => ?_⟩
  rw [hlive, h.owned id]
  simp only [validNode, hsame.hash]

section Calls
variable {env : Env} {m : Manager} {s : Store} (h : Mirrors m s)
include h

theorem mirrors_moveToHead {id : NodeId} (hid : id ∈ s.list) :
    ∃ m', moveToHead (some (.record id)) m = some (true, m') ∧
      Mirrors m' (DataManager.moveToHead id s) := by
  obtain ⟨m', hrun, hview, hlive, hshape⟩ := moveToHead_shape h.shape hid
  rw [h.view] at hview
  exact ⟨m', hrun, mirrors_same h hview hlive hshape (moveToHead_same id s)⟩

theorem mirrors_remove {id : NodeId} (hlive : m.live id = true) :
    ∃ m', remove (some (.record id)) m = some (true, m') ∧ Mirrors m' (listRemove id s) := by
  obtain ⟨m', hrun, hview, hl, hshape⟩ := remove_shape h.shape hlive
  rw [h.view] at hview
  rw [← listRemove_list] at hview hshape
  exact ⟨m', hrun, mirrors_same h hview hl hshape (listRemove_same id s)⟩

theorem mirrors_pushToHead {id : NodeId} (content : Bytes) (hid : id ∉ s.list)
    (hlive : m.live id = true) :
    ∃ m', pushToHead env (some (.record id)) content m = some (true, m') ∧
      Mirrors m' (DataManager.pushToHead env id content s) := by
  obtain ⟨m', hrun, hview, hl, hshape⟩ := pushToHead_shape h.shape env content hid hlive
  rw [h.view] at hview hshape
  exact ⟨m', hrun, mirrors_same h hview hl hshape (pushToHead_same env id content s)⟩

theorem owned_live {filename : Bytes} {id : NodeId} (hv : validNode filename s = some id) :
    m.live id = true :=
  (h.owned id).mpr ⟨filename, hv⟩

theorem getFilePreContent_mirrors (filename : Bytes) :
    ∃ m', getFilePreContent filename m = some ((DataManager.getFilePreContent filename s).1, m') ∧
      Mirrors m' (DataManager.getFilePreContent filename s).2 := by
  cases hv : validNode filename s with
  | none =>
    rw [getFilePreContent, mirrors_valid h, DataManager.getFilePreContent, hv]
    exact ⟨m, rfl, h⟩
  | some id =>
    have hread : isLive m (.record id) = true := owned_live h hv
    rw [getFilePreContent, mirrors_valid h, DataManager.getFilePreContent, hv]
    dsimp only
    rw [readNext_live hread, readPrev_live hread]
    by_cases hid : id ∈ s.list
    · obtain ⟨m', hrun, hm⟩ := mirrors_moveToHead h hid
      have hlinked : ¬ (m.next (.record id) = none ∨ m.prev (.record id) = none) :=
        fun hout => (unlinked_iff h id).mp hout hid
      have hcontent : m'.nodes = s.nodes := congrArg Store.nodes hm.view
      refine ⟨m', ?_, ?_⟩
      · rw [if_pos hid]
        show (if m.next (.record id) = none ∨ m.prev (.record id) = none then _ else
          (moveToHead (some (.record id)) m).bind _) = _
        rw [if_neg hlinked, hrun]
        show some ((m'.nodes id).filePreContent, m') = _
        rw [hcontent]
      · rw [if_pos hid]
        exact hm
    · have hunlinked := (unlinked_iff h id).mpr hid
      refine ⟨m, ?_, ?_⟩
      · rw [if_neg hid]
        exact if_pos hunlinked
      · rw [if_neg hid]
        exact h

variable (env) in
theorem putFilePreContent_mirrors (filename content : Bytes) :
    ∃ m', putFilePreContent env filename content m =
        some ((DataManager.putFilePreContent env filename content s).1, m') ∧
      Mirrors m' (DataManager.putFilePreContent env filename content s).2 := by
  cases hv : validNode filename s with
  | none =>
    rw [putFilePreContent, mirrors_valid h, DataManager.putFilePreContent, hv]
    exact ⟨m, rfl, h⟩
  | some id =>
    have hread : isLive m (.record id) = true := owned_live h hv
    rw [putFilePreContent, mirrors_valid h, DataManager.putFilePreContent, hv]
    dsimp only
    rw [readNext_live hread, readPrev_live hread]
    by_cases hid : id ∈ s.list
    · obtain ⟨m', hrun, hm⟩ := mirrors_moveToHead h hid
      have hlinked : ¬ (m.next (.record id) = none ∨ m.prev (.record id) = none) :=
        fun hout => (unlinked_iff h id).mp hout hid
      rw [if_pos hid]
      exact ⟨m', (if_neg hlinked).trans hrun, hm⟩
    · obtain ⟨m', hrun, hm⟩ := mirrors_pushToHead h (keptPrefix env content) hid hread
      have hunlinked := (unlinked_iff h id).mpr hid
      rw [if_neg hid]
      exact ⟨m', (if_pos hunlinked).trans hrun, hm⟩

theorem register_mirrors (filename : Bytes) :
    (register env filename m).1 = (DataManager.register env filename s).1 ∧
      Mirrors (register env filename m).2 (DataManager.register env filename s).2 := by
  have hhash : m.hash = s.hash := congrArg Store.hash h.view
  have hdisk : m.disk = s.disk := congrArg Store.disk h.view
  unfold register DataManager.register
  dsimp only
  rw [hhash, hdisk]
  split_ifs with hknown hname hfile
  · exact ⟨rfl, h⟩
  · exact ⟨rfl, h⟩
  · refine ⟨rfl, ?_, ⟨⟨h.shape.ring.circle, h.shape.ring.listed⟩, h.shape.unlinked, h.shape.size⟩,
      fun id => ?_⟩
    · rw [← h.view]
      rfl
    · show m.live id = true ↔ ∃ name, ((s.hash.insert filename none).lookup name).join = some id
      rw [h.owned id]
      have hnone : s.hash.lookup filename = none := by simpa using hknown
      apply exists_congr
      intro name
      by_cases hn : name = filename
      · rw [hn, validNode, hnone, AList.lookup_insert]
        rfl
      · rw [validNode, AList.lookup_insert_ne hn]
  · refine ⟨rfl, ?_, ⟨⟨h.shape.ring.circle, h.shape.ring.listed⟩, h.shape.unlinked,
      h.shape.size⟩, h.owned⟩
    rw [← h.view]
    rfl

theorem eraseEntry_mirrors (filename : Bytes)
    (hfree : ∀ id, validNode filename s = some id → id ∉ s.list ∧ ∀ name,
      validNode name s = some id → name = filename) :
    Mirrors (eraseEntry filename m) { s with hash := s.hash.erase filename } := by
  have hlive : ∀ id, (eraseEntry filename m).live id = true ↔ m.live id = true ∧
    validNode filename s ≠ some id := by
    intro id
    rw [← mirrors_valid h filename]
    simp [eraseEntry]
  refine ⟨?_, ⟨⟨h.shape.ring.circle, fun id hid => ?_⟩, h.shape.unlinked, h.shape.size⟩,
    fun id => ?_⟩
  · show ({ ListPointers.view m s.list with hash := m.hash.erase filename } : Store) = _
    rw [show m.hash = s.hash from congrArg Store.hash h.view, h.view]
  · exact (hlive id).mpr ⟨h.shape.ring.listed id hid, fun hv => (hfree id hv).1 hid⟩
  · rw [hlive, h.owned id]
    constructor
    · rintro ⟨⟨name, hv⟩, hother⟩
      have hne : name ≠ filename := fun he => hother (he ▸ hv)
      exact ⟨name, (validNode_erase_ne s _ hne rfl).trans hv⟩
    · rintro ⟨name, hv⟩
      have hs := validNode_erase s _ filename name id rfl hv
      refine ⟨⟨name, hs⟩, fun hf => ?_⟩
      obtain rfl := (hfree id hf).2 name hs
      rw [validNode, AList.lookup_erase] at hv
      cases hv

omit h in
theorem mirrors_aside {m : Manager} {s : Store} (h : Mirrors m s) (isDirty : Bool) (d : Disk) :
    Mirrors { m with isDirty := isDirty, disk := d } { s with isDirty := isDirty, disk := d } := by
  refine ⟨?_, ⟨⟨h.shape.ring.circle, h.shape.ring.listed⟩, h.shape.unlinked, h.shape.size⟩, h.owned⟩
  show ({ ListPointers.view m s.list with isDirty := isDirty, disk := d } : Store) = _
  rw [h.view]

theorem deregister_mirrors (filename : Bytes) (hv : validNode filename s = none) :
    (deregister env filename m).1 = (DataManager.deregister env filename s).1 ∧
      Mirrors (deregister env filename m).2 (DataManager.deregister env filename s).2 := by
  have hdisk : m.disk = s.disk := congrArg Store.disk h.view
  have hdirty : m.isDirty = s.isDirty := congrArg Store.isDirty h.view
  have herased : Mirrors (eraseEntry filename m) { s with hash := s.hash.erase filename } := by
    apply eraseEntry_mirrors h
    intro id hid
    rw [hv] at hid
    cases hid
  have hrun : deregister env filename m = ((removeIfExists env (targetFile env filename) m.disk).1,
      { eraseEntry filename m with
        isDirty := m.isDirty, disk :=
          (removeIfExists env (targetFile env filename) m.disk).2 }) := rfl
  rw [hrun, hdisk, hdirty]
  exact ⟨rfl, mirrors_aside herased _ _⟩

omit h in
theorem insert_same (filename : Bytes) (filesize : ℤ) (hhash : m.hash = s.hash)
    (hres : ¬ s.hash.lookup filename = some none) : insert filename filesize m = (false, m) := by
  unfold insert
  rw [hhash]
  split
  · rename_i hres'
    exact absurd hres' hres
  · rfl

theorem insert_node (filename : Bytes) (filesize : ℤ) (hres : s.hash.lookup filename = some none) :
    insert filename filesize m = (true, { m with
      hash := s.hash.insert filename (some s.nextNode)
      nodes := Function.update s.nodes s.nextNode (newNode filename filesize s)
      live := Function.update m.live s.nextNode true
      nextNode := s.nextNode+1
      next := Function.update m.next (.record s.nextNode) none
      prev := Function.update m.prev (.record s.nextNode) none
      isDirty := true
      clock := fun n => s.clock (n+1) }) := by
  have hhash : m.hash = s.hash := congrArg Store.hash h.view
  have hnodes : m.nodes = s.nodes := congrArg Store.nodes h.view
  have hnext : m.nextNode = s.nextNode := congrArg Store.nextNode h.view
  have hclock : m.clock = s.clock := congrArg Store.clock h.view
  unfold insert newNode
  rw [hhash, hres, hnodes, hnext, hclock]

/-- The new node is alive because its name has it, and the others as before. -/
theorem insert_owned (filename : Bytes) (hres : s.hash.lookup filename = some none) (id : NodeId) :
    Function.update m.live s.nextNode true id = true ↔
      ∃ name, ((s.hash.insert filename (some s.nextNode)).lookup name).join = some id := by
  by_cases he : id = s.nextNode
  · rw [he, Function.update_self]
    refine ⟨fun _ => ⟨filename, ?_⟩, fun _ => rfl⟩
    rw [AList.lookup_insert]
    rfl
  · rw [Function.update_of_ne he, h.owned id]
    apply exists_congr
    intro name
    by_cases hn : name = filename
    · rw [hn, validNode, hres, AList.lookup_insert]
      constructor
      · intro hv
        cases hv
      · intro hv
        exact absurd (Option.some.inj hv).symm he
    · rw [validNode, AList.lookup_insert_ne hn]

theorem insert_mirrors (hs : Ordered env s) (filename : Bytes) (filesize : ℤ) :
    (insert filename filesize m).1 = (DataManager.insert filename filesize s).1 ∧
      Mirrors (insert filename filesize m).2 (DataManager.insert filename filesize s).2 := by
  by_cases hres : s.hash.lookup filename = some none
  · have hfresh : s.nextNode ∉ s.list := fun hm => (hs.named _ _ (hs.linked.valid _ hm)).2.ne rfl
    rw [insert_node h filename filesize hres, insert_reserved filename filesize s hres]
    refine ⟨rfl, ?_, ⟨⟨?_, fun id hid => ?_⟩, fun id hid => ?_, h.shape.size⟩,
      insert_owned h filename hres⟩
    · show ({ ListPointers.view m s.list with
        hash := _, nodes := _, nextNode := _, isDirty := _, clock := _ } : Store) = _
      rw [h.view]
    · exact circle_outside h.shape.ring.circle (fun hm => hfresh (record_listed.mp hm)) none none
    · show Function.update m.live s.nextNode true id = true
      have hne : id ≠ s.nextNode := fun he => hfresh (he ▸ hid)
      rw [Function.update_of_ne hne]
      exact h.shape.ring.listed id hid
    · by_cases he : id = s.nextNode
      · rw [he]
        exact ⟨Function.update_self _ _ _, Function.update_self _ _ _⟩
      · have hr : Ref.record id ≠ Ref.record s.nextNode := fun hr => he (Ref.record.inj hr)
        obtain ⟨hni, hpi⟩ := h.shape.unlinked id hid
        exact ⟨(Function.update_of_ne hr _ _).trans hni, (Function.update_of_ne hr _ _).trans hpi⟩
  · rw [insert_same filename filesize (congrArg Store.hash h.view) hres,
      insert_refused filename filesize s hres]
    exact ⟨rfl, h⟩

theorem delete_mirrors (hs : Ordered env s) (filename : Bytes) :
    ∃ m', delete env filename m = some ((DataManager.delete env filename s).1, m') ∧
      Mirrors m' (DataManager.delete env filename s).2 := by
  cases hv : validNode filename s with
  | none =>
    rw [delete, mirrors_valid h, hv, delete_refused env filename s hv]
    exact ⟨m, rfl, h⟩
  | some id =>
    obtain ⟨m', hrun, hm⟩ := mirrors_remove h (owned_live h hv)
    have hdisk : m'.disk = (listRemove id s).disk := congrArg Store.disk hm.view
    have hvalid : ∀ name, validNode name (listRemove id s) = validNode name s := fun name => by
      rw [validNode, (listRemove_same id s).hash, validNode]
    have herased : Mirrors (eraseEntry filename m')
      { listRemove id s with hash := (listRemove id s).hash.erase filename } := by
      apply eraseEntry_mirrors hm
      intro i hi
      rw [hvalid, hv] at hi
      cases hi
      constructor
      · rw [listRemove_list]
        exact hs.linked.nodup.not_mem_erase
      · intro name hn
        rw [hvalid] at hn
        rw [← (hs.named name id hn).1, (hs.named filename id hv).1]
    have hdelete : delete env filename
      m = some ((removeIfExists env (targetFile env filename) m'.disk).1,
        { eraseEntry filename m' with
          isDirty := true, disk := (removeIfExists env (targetFile env filename) m'.disk).2 }) := by
      rw [delete, mirrors_valid h, hv]
      show (remove (some (.record id)) m).bind _ = _
      rw [hrun]
      rfl
    have hstore : DataManager.delete env filename s =
        ((removeIfExists env (targetFile env filename) (listRemove id s).disk).1,
          { listRemove id s with
            hash := (listRemove id s).hash.erase filename
            isDirty := true
            disk := (removeIfExists env (targetFile env filename) (listRemove id s).disk).2 }) := by
      rw [DataManager.delete, hv]
    rw [hdelete, hstore, hdisk]
    exact ⟨_, rfl, mirrors_aside herased true _⟩

end Calls

def call (env : Env) : Call → Manager → Option Manager
  | .register filename, m => some (register env filename m).2
  | .deregister filename, m => some (deregister env filename m).2
  | .insert filename filesize, m => some (insert filename filesize m).2
  | .delete filename, m => (delete env filename m).map Prod.snd
  | .getFilePreContent filename, m => (getFilePreContent filename m).map Prod.snd
  | .putFilePreContent filename content, m =>
      (putFilePreContent env filename content m).map Prod.snd

theorem call_mirrors {env : Env} {m : Manager} {s : Store} (h : Mirrors m s)
    (hs : Ordered env s) (c : Call)
    (hc : Released c s) : ∃ m', call env c m = some m' ∧ Mirrors m' (storeCall env c s) := by
  cases c with
  | register filename => exact ⟨_, rfl, (register_mirrors h filename).2⟩
  | deregister filename => exact ⟨_, rfl, (deregister_mirrors h filename hc).2⟩
  | insert filename filesize => exact ⟨_, rfl, (insert_mirrors h hs filename filesize).2⟩
  | delete filename =>
    obtain ⟨m', hrun, hm⟩ := delete_mirrors h hs filename
    exact ⟨m', by rw [call, hrun]; rfl, hm⟩
  | getFilePreContent filename =>
    obtain ⟨m', hrun, hm⟩ := getFilePreContent_mirrors h filename
    exact ⟨m', by rw [call, hrun]; rfl, hm⟩
  | putFilePreContent filename content =>
    obtain ⟨m', hrun, hm⟩ := putFilePreContent_mirrors env h filename content
    exact ⟨m', by rw [call, hrun]; rfl, hm⟩

structure Cached where
  manager : Manager
  entries : List (Bytes × Bytes)

def step (env : Env) (k : Cached) (c : Call) : Option Cached :=
  (call env c k.manager).map fun m =>
    { manager := m, entries :=
      cacheCall env (validRecord (callName c) k.manager).isSome c k.entries }

/-- `Deregister` is called for names that are not inserted. -/
def Proper (k : Cached) : Call → Prop
  | .deregister filename => validRecord filename k.manager = none
  | _ => True

instance (k : Cached) : (c : Call) → Decidable (Proper k c)
  | .deregister filename => inferInstanceAs (Decidable (validRecord filename k.manager = none))
  | .register _ | .insert _ _ | .delete _ | .getFilePreContent _ | .putFilePreContent _ _ =>
      isTrue trivial

/-- A manager that has just been built, its records loaded and none of them listed. -/
structure Loaded (m : Manager) : Prop where
  next : m.next = fun r => if r = .guard then some .guard else none
  prev : m.prev = fun r => if r = .guard then some .guard else none
  size : m.size = 0
  owned : ∀ id, m.live id = true ↔ ∃ filename, validRecord filename m = some id
  named : ∀ filename id, validRecord filename m = some id → (m.nodes id).info.filename = filename ∧
    id < m.nextNode
  blank : ∀ id, (m.nodes id).filePreContent = []

/-- The records `xs` are the list, and the entries are what they cache. -/
structure ListSound (env : Env) (k : Cached) (xs : List NodeId) : Prop where
  circle : Circle k.manager.next k.manager.prev .guard (xs.map .record)
  owned : ∀ id ∈ xs, k.manager.live id = true ∧
    k.manager.hash.lookup (k.manager.nodes id).info.filename = some (some id)
  links : ∀ id, (k.manager.next (.record id) = none ↔ id ∉ xs) ∧
    (k.manager.prev (.record id) = none ↔ id ∉ xs)
  size : k.manager.size = xs.length
  bounded : k.manager.size ≤ env.lruFileCapacity
  dropped : ∀ id, id ∉ xs → (k.manager.nodes id).filePreContent = []
  entries : k.entries = xs.map fun id =>
    ((k.manager.nodes id).info.filename, (k.manager.nodes id).filePreContent)
  answer : ∀ filename, ∃ m,
    getFilePreContent filename k.manager = some ((find filename k.entries).getD [], m)

structure Inv (env : Env) (k : Cached) (s : Store) : Prop where
  mirrors : Mirrors k.manager s
  ordered : Ordered env s
  entries : k.entries = cacheEntries s

theorem inv_loaded (env : Env) (m : Manager) (h : Loaded m) :
    Inv env { manager := m, entries := [] } (view m []) := by
  have hguard : ∀ id, ¬ Ref.record id = Ref.guard := fun id he => by cases he
  refine ⟨⟨rfl, ⟨⟨circle_empty ?_ ?_, ?_⟩, ?_, h.size⟩, h.owned⟩,
    ⟨⟨List.nodup_nil, ?_⟩, h.named, ?_, ?_⟩, rfl⟩
  · rw [h.next]
    exact if_pos rfl
  · rw [h.prev]
    exact if_pos rfl
  · exact fun id hid => by cases hid
  · intro id _
    constructor
    · rw [h.next]
      exact if_neg (hguard id)
    · rw [h.prev]
      exact if_neg (hguard id)
  · exact fun id hid => by cases hid
  · exact fun id _ => h.blank id
  · exact Nat.zero_le _

theorem inv_step (env : Env) (k : Cached) (s : Store) (c : Call) (h : Inv env k s)
    (hc : Proper k c) :
    ∃ q, step env k c = some q ∧ Inv env q (storeCall env c s) := by
  have hvalid := fun filename => mirrors_valid h.mirrors filename
  have hreleased : Released c s := by
    cases c with
    | deregister filename => exact (hvalid filename).symm.trans hc
    | register | insert | delete | getFilePreContent | putFilePreContent => trivial
  obtain ⟨m, hrun, hm⟩ := call_mirrors h.mirrors h.ordered c hreleased
  obtain ⟨hentries, hordered⟩ := storeCall_entries h.ordered c hreleased
  have hq : step env k c = some { manager := m, entries := cacheEntries (storeCall env c s) } := by
    rw [step, hrun, hvalid, h.entries, hentries]
    rfl
  exact ⟨_, hq, hm, hordered, rfl⟩

theorem inv_sound (env : Env) (k : Cached) (s : Store) (h : Inv env k s) :
    ListSound env k s.list := by
  have hnodes : s.nodes = k.manager.nodes := congrArg Store.nodes h.mirrors.view.symm
  have hhash : s.hash = k.manager.hash := congrArg Store.hash h.mirrors.view.symm
  refine ⟨h.mirrors.shape.ring.circle, fun id hid => ⟨h.mirrors.shape.ring.listed id hid, ?_⟩,
    mirrors_links h.mirrors, h.mirrors.shape.size, ?_, fun id hid => ?_, ?_, fun filename => ?_⟩
  · rw [← hnodes, ← hhash]
    exact (validNode_iff _ s id).mp (h.ordered.linked.valid id hid)
  · rw [h.mirrors.shape.size]
    exact h.ordered.bounded
  · rw [← hnodes]
    exact h.ordered.dropped id hid
  · rw [h.entries, ← hnodes]
    rfl
  · obtain ⟨m, hrun, -⟩ := getFilePreContent_mirrors h.mirrors filename
    refine ⟨m, hrun.trans ?_⟩
    rw [(getFilePreContent_entries h.ordered filename).1, h.entries]

theorem meets_proper (env : Env) (k : Cached) (c : Call) (calls : List Call)
    (h : Meets (step env) Proper k (c::calls)) : Proper k c := by
  cases c with
  | deregister filename => exact (h _ rfl).1
  | register | insert | delete | getFilePreContent | putFilePreContent => trivial

theorem inv_run (env : Env) (k : Cached) (s : Store) (calls : List Call) (h : Inv env k s)
    (hproper : Meets (step env) Proper k calls) :
    ∃ q t, run (step env) k calls = some q ∧ Inv env q t := by
  induction calls generalizing k s with
  | nil => exact ⟨k, s, rfl, h⟩
  | cons c calls ih =>
    obtain ⟨q, hq, hinv⟩ := inv_step env k s c h (meets_proper env k c calls hproper)
    rw [run, hq, Option.bind_some]
    exact ih q _ hinv (hproper q hq).2

/-- No call follows a null or a stale pointer, and after each of them the links
are a circle that caches what the entries say. -/
theorem list_refines_cache (env : Env) (m : Manager) (calls : List Call) (hm : Loaded m)
    (hproper : Meets (step env) Proper { manager := m, entries := [] } calls) :
    ∃ k xs, run (step env) { manager := m, entries := [] } calls = some k ∧ ListSound env k xs := by
  obtain ⟨k, s, hk, hinv⟩ := inv_run env _ _ calls (inv_loaded env m hm) hproper
  exact ⟨k, s.list, hk, inv_sound env k s hinv⟩

def Manager.fresh (clock : ℕ → ℤ) (disk : Disk) : Manager where
  hash := ∅
  nodes := (Store.fresh clock disk).nodes
  live := fun _ => false
  nextNode := 0
  next := fun r => if r = .guard then some .guard else none
  prev := fun r => if r = .guard then some .guard else none
  size := 0
  isDirty := false
  clock := clock
  disk := disk

theorem fresh_loaded (clock : ℕ → ℤ) (disk : Disk) : Loaded (Manager.fresh clock disk) := by
  have hempty : ∀ filename, validRecord filename (Manager.fresh clock disk) = none := fun _ => rfl
  refine ⟨rfl, rfl, rfl, fun id => ⟨fun h => absurd h Bool.false_ne_true, ?_⟩, ?_, fun _ => rfl⟩
  · rintro ⟨filename, hv⟩
    rw [hempty] at hv
    cases hv
  · intro filename id hv
    rw [hempty] at hv
    cases hv

/-- With room for one record, a second one drives the first out, and is deleted. -/
def twoFiles : List Call :=
  [.register (bytes "f"), .insert (bytes "f") 5, .putFilePreContent (bytes "f") (bytes "hello"),
    .register (bytes "g"), .insert (bytes "g") 1, .putFilePreContent (bytes "g") (bytes "x"),
    .getFilePreContent (bytes "f"), .register (bytes "h"), .deregister (bytes "h"),
      .delete (bytes "g")]

theorem list_refines_cache_two :
    ∃ k xs, run (step { plainEnv with lruFileCapacity := 1 })
        { manager := Manager.fresh (fun _ => 0) { files := ∅, faults := [] }, entries := [] }
          twoFiles = some k ∧
      ListSound { plainEnv with lruFileCapacity := 1 } k xs :=
  list_refines_cache { plainEnv with lruFileCapacity := 1 }
    (Manager.fresh (fun _ => 0) { files := ∅, faults := [] })
    twoFiles (fresh_loaded _ _) (by decide +kernel)

end CloudBackup.ListPointers
