import CloudBackup.DataManager
import CloudBackup.LruCache

/-!
# The order of the cached prefixes

The listed records, read from head to tail, are the entries of a cache that
drops the one used longest ago, and each call of the data manager does to them
what the cache does.
-/

set_option autoImplicit false

namespace CloudBackup.CacheOrder
open CloudBackup.ByteStrings CloudBackup.FilePath CloudBackup.FileStore CloudBackup.DataManager
open CloudBackup.LruCache

def nameOf (s : Store) (id : NodeId) : Bytes := (s.nodes id).info.filename

def contentOf (s : Store) (id : NodeId) : Bytes := (s.nodes id).filePreContent

def cacheEntries (s : Store) : List (Bytes × Bytes) := entriesOf (nameOf s) (contentOf s) s.list

inductive Call where
  | register (filename : Bytes)
  | deregister (filename : Bytes)
  | insert (filename : Bytes) (filesize : ℤ)
  | delete (filename : Bytes)
  | getFilePreContent (filename : Bytes)
  | putFilePreContent (filename content : Bytes)

def callName : Call → Bytes
  | .register filename => filename
  | .deregister filename => filename
  | .insert filename _ => filename
  | .delete filename => filename
  | .getFilePreContent filename => filename
  | .putFilePreContent filename _ => filename

def storeCall (env : Env) : Call → Store → Store
  | .register filename, s => (register env filename s).2
  | .deregister filename, s => (deregister env filename s).2
  | .insert filename filesize, s => (DataManager.insert filename filesize s).2
  | .delete filename, s => (delete env filename s).2
  | .getFilePreContent filename, s => (getFilePreContent filename s).2
  | .putFilePreContent filename content, s => (putFilePreContent env filename content s).2

/-- What a call does to the entries; `valid` tells whether its name has a record. -/
def cacheCall (env : Env) (valid : Bool) : Call → List (Bytes × Bytes) → List (Bytes × Bytes)
  | .register _, l => l
  | .deregister _, l => l
  | .insert _ _, l => l
  | .delete filename, l => drop filename l
  | .getFilePreContent filename, l => touch filename l
  | .putFilePreContent filename content, l =>
    if valid then put env.lruFileCapacity filename (content.take env.lruFileContentSize) l else l

theorem keptPrefix_take (env : Env) (content : Bytes) :
    keptPrefix env content = content.take env.lruFileContentSize := by
  unfold keptPrefix
  split_ifs with h
  · rfl
  · exact (List.take_of_length_le (Nat.le_of_not_lt h)).symm

/-- A record is stored under its own name, and only a listed one keeps a prefix. -/
structure Ordered (env : Env) (s : Store) : Prop where
  linked : Linked s
  named : ∀ filename id, validNode filename s = some id → nameOf s id = filename ∧ id < s.nextNode
  dropped : ∀ id, id ∉ s.list → contentOf s id = []
  bounded : s.list.length ≤ env.lruFileCapacity

section Entries
variable {s : Store} (hs : Linked s)
include hs

theorem listed_alone {i j : NodeId} (hi : i ∈ s.list) (hj : j ∈ s.list)
    (h : nameOf s j = nameOf s i) : j = i := by
  have hvi := hs.valid i hi
  have hvj := hs.valid j hj
  rw [show (s.nodes j).info.filename = (s.nodes i).info.filename from h, hvi] at hvj
  exact (Option.some.inj hvj).symm

theorem unlisted_name {filename : Bytes} (h : ∀ id, validNode filename s = some id → id ∉ s.list) :
    ∀ j ∈ s.list, nameOf s j ≠ filename := by
  rintro j hj rfl
  exact h j (hs.valid j hj) hj

theorem find_listed {id : NodeId} (hid : id ∈ s.list) :
    find (nameOf s id) (cacheEntries s) = some (contentOf s id) :=
  find_entriesOf hid fun _ hj he => listed_alone hs hid hj he

theorem find_unlisted {filename : Bytes} (h : ∀ id, validNode filename s = some id → id ∉ s.list) :
    find filename (cacheEntries s) = none :=
  find_entriesOf_none (unlisted_name hs h)

theorem entries_moveToHead {id : NodeId} (hid : id ∈ s.list) :
    cacheEntries (moveToHead id s) = touch (nameOf s id) (cacheEntries s) :=
  (touch_entriesOf hid hs.nodup fun _ hj he => listed_alone hs hid hj he).symm

end Entries

theorem entries_congr {s t : Store} (ids : List NodeId) (h : ∀ id ∈ ids, t.nodes id = s.nodes id) :
    entriesOf (nameOf t) (contentOf t) ids = entriesOf (nameOf s) (contentOf s) ids := by
  apply List.map_congr_left
  intro id hid
  show ((t.nodes id).info.filename, (t.nodes id).filePreContent) = _
  rw [h id hid]
  rfl

theorem listRemove_kept (id : NodeId) (s : Store) :
    ∀ i ∈ s.list, i ≠ id → (listRemove id s).nodes i = s.nodes i := by
  intro i _ hne
  unfold listRemove
  split_ifs
  · exact setPreContent_other id i [] s hne
  · rfl

theorem entries_listRemove {s : Store} (hs : Linked s) {id : NodeId} (hid : id ∈ s.list) :
    cacheEntries (listRemove id s) = drop (nameOf s id) (cacheEntries s) := by
  rw [cacheEntries, listRemove_list, entries_congr (s := s) (s.list.erase id)]
  · exact (drop_entriesOf hs.nodup fun _ hj he => listed_alone hs hid hj he).symm
  · intro i hi
    apply listRemove_kept id s i (List.mem_of_mem_erase hi)
    rintro rfl
    exact hs.nodup.not_mem_erase hi

theorem entries_removeTail {s : Store} (hs : Linked s) :
    cacheEntries (removeTail s) = (cacheEntries s).dropLast := by
  cases hlast : s.list.getLast? with
  | none =>
    have hnil : s.list = [] := List.getLast?_eq_none_iff.mp hlast
    rw [removeTail, hlast, cacheEntries, hnil]
    rfl
  | some id =>
    have hsplit : s.list.dropLast ++ [id] = s.list := List.dropLast_append_getLast? id hlast
    have hd : (s.list.dropLast ++ [id]).Nodup := hsplit.symm ▸ hs.nodup
    have hnot : id ∉ s.list.dropLast := by
      rw [List.nodup_append] at hd
      exact fun hm => hd.2.2 id hm id List.mem_cons_self rfl
    have herase : s.list.erase id = s.list.dropLast := by
      conv_lhs => rw [← hsplit]
      rw [List.erase_append_right [id] hnot, List.erase_cons_head, List.append_nil]
    have hremove : removeTail s = listRemove id s := by rw [removeTail, hlast]
    rw [hremove, cacheEntries, listRemove_list, herase, entries_congr (s := s) s.list.dropLast]
    · exact List.map_dropLast
    · intro i hi
      apply listRemove_kept id s i (List.mem_of_mem_dropLast hi)
      rintro rfl
      exact hnot hi

def pushed (id : NodeId) (content : Bytes) (s : Store) : Store :=
  { setPreContent id content s with list := id::s.list }

theorem linked_pushed {s : Store} (hs : Linked s) {id : NodeId} (content : Bytes)
    (hid : id ∉ s.list)
    (hv : validNode (nameOf s id) s = some id) : Linked (pushed id content s) := by
  constructor
  · exact List.nodup_cons.mpr ⟨hid, hs.nodup⟩
  · intro i hi
    show validNode ((setPreContent id content s).nodes i).info.filename s = some i
    rw [setPreContent_info]
    rcases List.mem_cons.mp hi with rfl | hi
    · exact hv
    · exact hs.valid i hi

theorem entries_pushed {s : Store} {id : NodeId} (content : Bytes) (hid : id ∉ s.list) :
    cacheEntries (pushed id content s) = (nameOf s id, content)::cacheEntries s := by
  show (nameOf (pushed id content s) id, contentOf (pushed id content s) id)::
    entriesOf (nameOf (pushed id content s)) (contentOf (pushed id content s)) s.list = _
  have hname : nameOf (pushed id content s) id = nameOf s id :=
    congrArg BackupInfoNode.filename (setPreContent_info id id content s)
  have hcontent : contentOf (pushed id content s) id = content := setPreContent_same id content s
  rw [hname, hcontent, entries_congr (s := s) s.list]
  · rfl
  · intro i hi
    exact setPreContent_other id i content s fun he => hid (he ▸ hi)

theorem pushToHead_pushed (env : Env) (id : NodeId) (content : Bytes) (s : Store) :
    pushToHead env id content s =
      if env.lruFileCapacity < (pushed id content s).list.length then
        removeTail (pushed id content s)
      else pushed id content s := rfl

theorem entries_pushToHead (env : Env) {s : Store} (hs : Linked s) {id : NodeId} (content : Bytes)
    (hid : id ∉ s.list) (hv : validNode (nameOf s id) s = some id) :
    cacheEntries (pushToHead env id content s) =
      evict env.lruFileCapacity ((nameOf s id, content)::cacheEntries s) := by
  have hlength : ((nameOf s id, content)::cacheEntries s).length =
    (pushed id content s).list.length := by
    rw [List.length_cons, cacheEntries, entriesOf, List.length_map]
    rfl
  rw [pushToHead_pushed, evict, hlength]
  split_ifs
  · rw [entries_removeTail (linked_pushed hs content hid hv), entries_pushed content hid]
  · exact entries_pushed content hid

theorem dropped_listRemove {s : Store} (h : ∀ id, id ∉ s.list → contentOf s id = []) (id : NodeId) :
    ∀ i, i ∉ (listRemove id s).list → contentOf (listRemove id s) i = [] := by
  intro i hi
  rw [listRemove_list] at hi
  unfold listRemove
  split_ifs with hid
  · by_cases hie : i = id
    · rw [hie]
      exact setPreContent_same id [] s
    · show ((setPreContent id [] s).nodes i).filePreContent = []
      rw [setPreContent_other id i [] s hie]
      exact h i fun hm => hi ((List.mem_erase_of_ne hie).mpr hm)
  · rw [List.erase_of_not_mem hid] at hi
    exact h i hi

theorem length_removeTail {s : Store} (hne : s.list ≠ []) :
    (removeTail s).list.length+1 = s.list.length := by
  obtain ⟨id, hid⟩ := Option.ne_none_iff_exists'.mp fun h => hne (List.getLast?_eq_none_iff.mp h)
  have hmem : id ∈ s.list := List.mem_of_getLast? hid
  rw [removeTail, hid]
  show (listRemove id s).list.length+1 = _
  rw [listRemove_list, List.length_erase_of_mem hmem]
  have hpos : 0 < s.list.length := List.length_pos_of_mem hmem
  omega

theorem dropped_removeTail {s : Store} (h : ∀ id, id ∉ s.list → contentOf s id = []) :
    ∀ i, i ∉ (removeTail s).list → contentOf (removeTail s) i = [] := by
  cases hlast : s.list.getLast? with
  | none =>
    rw [removeTail, hlast]
    exact h
  | some id =>
    rw [removeTail, hlast]
    exact dropped_listRemove h id

theorem dropped_pushed {s : Store} (h : ∀ id, id ∉ s.list → contentOf s id = []) (id : NodeId)
    (content : Bytes) :
    ∀ i, i ∉ (pushed id content s).list → contentOf (pushed id content s) i = [] := by
  intro i hi
  obtain ⟨hne, hi⟩ := not_or.mp fun hm => hi (List.mem_cons.mpr hm)
  show ((setPreContent id content s).nodes i).filePreContent = []
  rw [setPreContent_other id i content s hne]
  exact h i hi

theorem ordered_same {env : Env} {s t : Store} (hs : Ordered env s) (hsame : SameRecords s t)
    (hlinked : Linked t)
    (hdropped : ∀ id, id ∉ t.list → contentOf t id = [])
    (hbounded : t.list.length ≤ env.lruFileCapacity) :
    Ordered env t := by
  refine ⟨hlinked, fun filename id hv => ?_, hdropped, hbounded⟩
  rw [validNode, hsame.hash] at hv
  obtain ⟨hname, hlt⟩ := hs.named filename id hv
  constructor
  · rw [← hname]
    exact congrArg BackupInfoNode.filename (hsame.info id)
  · rw [hsame.next]
    exact hlt

theorem validNode_erase_ne (s t : Store) {filename name : Bytes} (hne : name ≠ filename)
    (ht : t.hash = s.hash.erase filename) : validNode name t = validNode name s := by
  rw [validNode, validNode, ht, AList.lookup_erase_ne hne]

section Calls
variable {env : Env} {s : Store} (hs : Ordered env s)
include hs

theorem ordered_moveToHead {id : NodeId} (hid : id ∈ s.list) : Ordered env (moveToHead id s) := by
  apply ordered_same hs (moveToHead_same id s) (linked_moveToHead hs.linked id hid)
  · intro i hi
    apply hs.dropped i
    intro hm
    by_cases he : i = id
    · exact hi (he ▸ List.mem_cons_self)
    · exact hi (List.mem_cons_of_mem id ((List.mem_erase_of_ne he).mpr hm))
  · show (id::s.list.erase id).length ≤ _
    have hpos : 0 < s.list.length := List.length_pos_of_mem hid
    have hbound := hs.bounded
    rw [List.length_cons, List.length_erase_of_mem hid]
    omega

theorem ordered_listRemove (id : NodeId) : Ordered env (listRemove id s) := by
  apply ordered_same hs (listRemove_same id s) (linked_listRemove hs.linked id)
  · exact dropped_listRemove hs.dropped id
  · rw [listRemove_list]
    exact List.length_erase_le.trans hs.bounded

theorem ordered_pushToHead {id : NodeId} (content : Bytes) (hid : id ∉ s.list)
    (hv : validNode (nameOf s id) s = some id) : Ordered env (pushToHead env id content s) := by
  have hdropped := dropped_pushed hs.dropped id content
  apply ordered_same hs (pushToHead_same env id content s)
    (linked_pushToHead hs.linked env id content hid hv)
  · rw [pushToHead_pushed]
    split_ifs
    · exact dropped_removeTail hdropped
    · exact hdropped
  · rw [pushToHead_pushed]
    have hbound := hs.bounded
    have hlength : (pushed id content s).list.length = s.list.length+1 := rfl
    split_ifs with hfull
    · have htail := length_removeTail (s := pushed id content s) (List.cons_ne_nil id s.list)
      omega
    · omega

theorem find_invalid {filename : Bytes} (h : validNode filename s = none) :
    find filename (cacheEntries s) = none := by
  apply find_unlisted hs.linked
  intro id hv
  rw [h] at hv
  cases hv

theorem getFilePreContent_entries (filename : Bytes) :
    (getFilePreContent filename s).1 = (find filename (cacheEntries s)).getD [] ∧
    cacheEntries (getFilePreContent filename s).2 = touch filename (cacheEntries s) ∧
    Ordered env (getFilePreContent filename s).2 := by
  cases hv : validNode filename s with
  | none =>
    have hfind := find_invalid hs hv
    rw [getFilePreContent, hv, hfind, touch_absent hfind]
    exact ⟨rfl, rfl, hs⟩
  | some id =>
    have hname := (hs.named filename id hv).1
    rw [getFilePreContent, hv]
    dsimp only
    by_cases hid : id ∈ s.list
    · rw [if_pos hid, ← hname, find_listed hs.linked hid]
      exact ⟨rfl, entries_moveToHead hs.linked hid, ordered_moveToHead hs hid⟩
    · have hfind : find filename (cacheEntries s) = none := by
        apply find_unlisted hs.linked
        intro i hi
        rw [hv] at hi
        cases hi
        exact hid
      rw [if_neg hid, hfind, touch_absent hfind]
      exact ⟨rfl, rfl, hs⟩

theorem putFilePreContent_entries (filename content : Bytes) :
    cacheEntries (putFilePreContent env filename content s).2 =
      cacheCall env (validNode filename s).isSome (.putFilePreContent filename content)
        (cacheEntries s) ∧
    Ordered env (putFilePreContent env filename content s).2 := by
  cases hv : validNode filename s with
  | none =>
    rw [putFilePreContent, hv]
    exact ⟨rfl, hs⟩
  | some id =>
    obtain ⟨rfl, -⟩ := hs.named filename id hv
    rw [putFilePreContent, hv, cacheCall, Option.isSome_some, if_pos rfl]
    dsimp only
    by_cases hid : id ∈ s.list
    · rw [if_pos hid, put_present (find_listed hs.linked hid)]
      exact ⟨entries_moveToHead hs.linked hid, ordered_moveToHead hs hid⟩
    · have hfind : find (nameOf s id) (cacheEntries s) = none := by
        apply find_unlisted hs.linked
        intro i hi
        rw [hv] at hi
        cases hi
        exact hid
      rw [if_neg hid, put_absent hfind, keptPrefix_take]
      exact ⟨entries_pushToHead env hs.linked _ hid hv, ordered_pushToHead hs _ hid hv⟩

theorem ordered_aside {t : Store} (hnodes : t.nodes = s.nodes) (hlist : t.list = s.list)
    (hnext : t.nextNode = s.nextNode)
    (hvalid : ∀ filename, validNode filename t = validNode filename s) :
    cacheEntries t = cacheEntries s ∧ Ordered env t := by
  have hname : nameOf t = nameOf s := by
    funext id
    rw [nameOf, hnodes]
    rfl
  have hcontent : contentOf t = contentOf s := by
    funext id
    rw [contentOf, hnodes]
    rfl
  refine ⟨by rw [cacheEntries, hname, hcontent, hlist]; rfl, ⟨?_, ?_⟩, ?_, ?_, ?_⟩
  · rw [hlist]
    exact hs.linked.nodup
  · intro id hid
    rw [hlist] at hid
    rw [hvalid, hnodes]
    exact hs.linked.valid id hid
  · intro filename id hv
    rw [hvalid] at hv
    rw [hname, hnext]
    exact hs.named filename id hv
  · rw [hlist, hcontent]
    exact hs.dropped
  · rw [hlist]
    exact hs.bounded

theorem register_entries (filename : Bytes) :
    cacheEntries (register env filename s).2 = cacheEntries s ∧
      Ordered env (register env filename s).2 := by
  by_cases hreg : registrable filename s = true
  · obtain ⟨hnone, hr⟩ := register_free env filename s hreg
    rw [hr]
    split_ifs
    · refine ordered_aside hs rfl rfl rfl ?_
      intro name
      by_cases hn : name = filename
      · rw [hn, validNode, validNode, hnone, AList.lookup_insert]
        rfl
      · rw [validNode, validNode, AList.lookup_insert_ne hn]
    · exact ordered_aside hs rfl rfl rfl fun _ => rfl
  · rw [register_refused env filename s (by simpa using hreg)]
    exact ⟨rfl, hs⟩

theorem deregister_entries (filename : Bytes) (h : validNode filename s = none) :
    cacheEntries (deregister env filename s).2 = cacheEntries s ∧
      Ordered env (deregister env filename s).2 := by
  refine ordered_aside hs rfl rfl rfl ?_
  intro name
  by_cases hn : name = filename
  · rw [hn, h, validNode]
    show ((s.hash.erase filename).lookup filename).join = none
    rw [AList.lookup_erase]
    rfl
  · rw [validNode, validNode]
    exact congrArg Option.join (AList.lookup_erase_ne hn)

theorem insert_entries (filename : Bytes) (filesize : ℤ) :
    cacheEntries (DataManager.insert filename filesize s).2 = cacheEntries s ∧
      Ordered env (DataManager.insert filename filesize s).2 := by
  by_cases hres : s.hash.lookup filename = some none
  · rw [insert_reserved filename filesize s hres]
    have hlt : ∀ id ∈ s.list, id < s.nextNode :=
      fun id hid => (hs.named _ id (hs.linked.valid id hid)).2
    have hkept : ∀ id, id ≠ s.nextNode →
        Function.update s.nodes s.nextNode (newNode filename filesize s) id = s.nodes id :=
      fun id hne => Function.update_of_ne hne _ _
    constructor
    · apply entries_congr s.list
      exact fun id hid => hkept id (hlt id hid).ne
    · refine ⟨⟨hs.linked.nodup, fun id hid => ?_⟩, fun name id hv => ?_, fun id hid =>
        ?_, hs.bounded⟩
      · show ((s.hash.insert filename (some s.nextNode)).lookup
          (Function.update s.nodes s.nextNode _ id).info.filename).join
          = some id
        have hv := hs.linked.valid id hid
        have hne : (s.nodes id).info.filename ≠ filename := by
          intro he
          rw [he, validNode, hres] at hv
          cases hv
        rw [hkept id (hlt id hid).ne, AList.lookup_insert_ne hne]
        exact hv
      · show (Function.update s.nodes s.nextNode _ id).info.filename = name ∧ id < s.nextNode+1
        have hlookup : ((s.hash.insert filename (some s.nextNode)).lookup name).join = some id := hv
        by_cases hn : name = filename
        · rw [hn, AList.lookup_insert] at hlookup
          obtain rfl : s.nextNode = id := Option.some.inj hlookup
          rw [Function.update_self, hn]
          exact ⟨rfl, Nat.lt_succ_self _⟩
        · rw [AList.lookup_insert_ne hn] at hlookup
          obtain ⟨hname, hid⟩ := hs.named name id hlookup
          rw [hkept id hid.ne]
          exact ⟨hname, Nat.lt_succ_of_lt hid⟩
      · show (Function.update s.nodes s.nextNode _ id).filePreContent = []
        by_cases hn : id = s.nextNode
        · rw [hn, Function.update_self]
          rfl
        · rw [hkept id hn]
          exact hs.dropped id hid
  · rw [insert_refused filename filesize s hres]
    exact ⟨rfl, hs⟩

theorem delete_entries (filename : Bytes) :
    cacheEntries (delete env filename s).2 = drop filename (cacheEntries s) ∧
      Ordered env (delete env filename s).2 := by
  cases hv : validNode filename s with
  | none =>
    have habsent : ∀ j ∈ s.list, nameOf s j ≠ filename := by
      apply unlisted_name hs.linked
      intro id hid
      rw [hv] at hid
      cases hid
    rw [delete_refused env filename s hv]
    exact ⟨(drop_entriesOf_none habsent).symm, hs⟩
  | some id =>
    obtain ⟨rfl, -⟩ := hs.named filename id hv
    have hremoved := ordered_listRemove hs id
    rw [delete, hv]
    constructor
    · show cacheEntries (listRemove id s) = _
      by_cases hid : id ∈ s.list
      · exact entries_listRemove hs.linked hid
      · have habsent : ∀ j ∈ s.list, nameOf s j ≠ nameOf s id := by
          apply unlisted_name hs.linked
          intro i hi
          rw [hv] at hi
          cases hi
          exact hid
        rw [listRemove, if_neg hid]
        exact (drop_entriesOf_none habsent).symm
    · have hgone : id ∉ (listRemove id s).list := by
        rw [listRemove_list]
        exact hs.linked.nodup.not_mem_erase
      refine ⟨⟨hremoved.linked.nodup, fun i hi => ?_⟩, fun name i hi =>
        ?_, hremoved.dropped, hremoved.bounded⟩
      · have hvi := hremoved.linked.valid i hi
        have hne : ((listRemove id s).nodes i).info.filename ≠ nameOf s id := by
          intro he
          rw [he, validNode, (listRemove_same id s).hash] at hvi
          obtain rfl : id = i := Option.some.inj (hv.symm.trans hvi)
          exact hgone hi
        exact (validNode_erase_ne (listRemove id s) _ hne rfl).trans hvi
      · exact hremoved.named name i
          (validNode_erase (listRemove id s) _ (nameOf s id) name i rfl hi)

/-- A record is not deregistered. -/
def Released (c : Call) (s : Store) : Prop :=
  match c with
  | .deregister filename => validNode filename s = none
  | _ => True

theorem storeCall_entries (c : Call) (hc : Released c s) :
    cacheEntries (storeCall env c s) = cacheCall env (validNode (callName c) s).isSome c
      (cacheEntries s) ∧
      Ordered env (storeCall env c s) := by
  cases c with
  | register filename => exact register_entries hs filename
  | deregister filename => exact deregister_entries hs filename hc
  | insert filename filesize => exact insert_entries hs filename filesize
  | delete filename => exact delete_entries hs filename
  | getFilePreContent filename => exact (getFilePreContent_entries hs filename).2
  | putFilePreContent filename content => exact putFilePreContent_entries hs filename content

end Calls

end CloudBackup.CacheOrder
