import CloudBackup.Linearization
import CloudBackup.StoreLocks

/-!
# What the locks of the data manager protect

While nobody has `_rwlock` alone the table, the records and the flag are those
of a service that serves every call at once, while nobody has `_list_mutex` the
cache is; the files always are. A thread that has `_rwlock` finds the table
unchanged, one that has it alone everything but the files of uploads and the
metadata file. The calls that share it follow this discipline.
-/

set_option autoImplicit false

namespace CloudBackup.StoreDiscipline
open CloudBackup.ByteStrings CloudBackup.FilePath CloudBackup.FileStore CloudBackup.DataManager
open CloudBackup.MetadataFile CloudBackup.Restart CloudBackup.Backing CloudBackup.RunInvariants
open CloudBackup.LockPrograms CloudBackup.Linearization CloudBackup.StoreLocks

def withDisk (s : Store) (d : Disk) : Store := { s with disk := d }

def serve (env : Env) : Call → Store → Answer × Store
  | .register filename, s =>
      (.done (DataManager.register env filename s).1, (DataManager.register env filename s).2)
  | .deregister filename, s =>
      (.done (DataManager.deregister env filename s).1, (DataManager.deregister env filename s).2)
  | .insert filename filesize, s =>
      (.done (DataManager.insert filename filesize s).1, (DataManager.insert filename filesize s).2)
  | .delete filename, s => (.done (DataManager.delete env filename s).1,
      (DataManager.delete env filename s).2)
  | .getFileInfoNode filename, s => (.node (DataManager.getFileInfoNode filename s), s)
  | .getAllBackupInfo, s => (.infos (DataManager.getAllBackupInfo s), s)
  | .getFileSize filename, s => (.size (recordSize filename s), s)
  | .getFilePreContent filename, s =>
    (.content (DataManager.getFilePreContent filename s).1,
      (DataManager.getFilePreContent filename s).2)
  | .putFilePreContent filename content, s =>
    (.done (DataManager.putFilePreContent env filename content s).1,
      (DataManager.putFilePreContent env filename content s).2)
  | .readSegment _ filename startPos endPos, s =>
    (.segment (Download.readSegment env filename startPos endPos s).1,
      (Download.readSegment env filename startPos endPos s).2)
  | .collect, s => (.infos (DataManager.getAllBackupInfo s), { s with isDirty := false })
  | .clearFile, s => (.done (clear env (metaFile env) s.disk).1,
    withDisk s (clear env (metaFile env) s.disk).2)
  | .appendFile infosStr, s => (.done (appendContent env (metaFile env) infosStr s.disk).1,
      withDisk s (appendContent env (metaFile env) infosStr s.disk).2)

/-- Names as files have them; `Register` looks for itself at most of that. -/
def Proper : Call → Prop
  | .register filename => checkFilename filename = true → isEntry filename = true
  | .deregister filename => isEntry filename = true
  | _ => True

structure Records (s t : Store) : Prop where
  hash : t.hash = s.hash
  next : t.nextNode = s.nextNode
  clock : t.clock = s.clock
  info : ∀ i, (t.nodes i).info = (s.nodes i).info

structure Cache (s t : Store) : Prop where
  list : t.list = s.list
  content : ∀ i, (t.nodes i).filePreContent = (s.nodes i).filePreContent

structure ListOnly (s t : Store) : Prop extends Records s t where
  dirty : t.isDirty = s.isDirty
  disk : t.disk = s.disk

def Untouched (env : Env) (s : Store) (q : Bytes) : Prop :=
  q ≠ metaPath env ∧ ∀ filename, s.hash.lookup filename = some none → q ≠ targetPath env filename

structure Always (env : Env) (x : Store × Store) : Prop where
  disk : x.2.disk = x.1.disk
  reserved : ∀ filename, x.2.hash.lookup filename = some none → x.1.hash.lookup filename = some none
  entries : ∀ filename, (x.2.hash.lookup filename).isSome = true → isEntry filename = true

def Settled : Lock → Store × Store → Prop
  | .rwlock, x => Records x.1 x.2 ∧ x.2.isDirty = x.1.isDirty
  | .listMutex, x => Cache x.1 x.2
  | .node _, _ => True

structure Keeps (env : Env) (held : Held Lock) (x y : Store × Store) : Prop where
  records : (∃ m, (.rwlock, m) ∈ held) → Records x.1 y.1 ∧ Records x.2 y.2
  cache : (∃ m, (.rwlock, m) ∈ held) → (.listMutex, .exclusive) ∈ held → Cache x.1 y.1 ∧
    Cache x.2 y.2
  whole : (.rwlock, .exclusive) ∈ held → y.1 = withDisk x.1 y.1.disk ∧ y.2 = withDisk x.2 y.2.disk
  files : (.rwlock, .exclusive) ∈ held → ∀ q, Untouched env x.2 q →
    y.2.disk.files.lookup q = x.2.disk.files.lookup q

theorem Records.refl (s : Store) : Records s s := ⟨rfl, rfl, rfl, fun _ => rfl⟩

theorem Records.trans {s t u : Store} (h : Records s t) (k : Records t u) : Records s u :=
  ⟨k.hash.trans h.hash, k.next.trans h.next, k.clock.trans h.clock, fun i =>
    (k.info i).trans (h.info i)⟩

theorem Records.symm {s t : Store} (h : Records s t) : Records t s :=
  ⟨h.hash.symm, h.next.symm, h.clock.symm, fun i => (h.info i).symm⟩

theorem Cache.refl (s : Store) : Cache s s := ⟨rfl, fun _ => rfl⟩

theorem Cache.trans {s t u : Store} (h : Cache s t) (k : Cache t u) : Cache s u :=
  ⟨k.list.trans h.list, fun i => (k.content i).trans (h.content i)⟩

theorem Cache.symm {s t : Store} (h : Cache s t) : Cache t s :=
  ⟨h.list.symm, fun i => (h.content i).symm⟩

theorem ListOnly.refl (s : Store) : ListOnly s s := ⟨Records.refl s, rfl, rfl⟩

theorem ListOnly.trans {s t u : Store} (h : ListOnly s t) (k : ListOnly t u) : ListOnly s u :=
  ⟨h.toRecords.trans k.toRecords, k.dirty.trans h.dirty, k.disk.trans h.disk⟩

theorem keeps_refl (env : Env) (held : Held Lock) (x : Store × Store) : Keeps env held x x where
  records := fun _ => ⟨Records.refl _, Records.refl _⟩
  cache := fun _ _ => ⟨Cache.refl _, Cache.refl _⟩
  whole := fun _ => ⟨rfl, rfl⟩
  files := fun _ _ _ => rfl

theorem keeps_trans (env : Env) (held : Held Lock) (x y z : Store × Store) (h : Keeps env held x y)
    (k : Keeps env held y z) : Keeps env held x z where
  records := fun hm => ⟨(h.records hm).1.trans (k.records hm).1,
    (h.records hm).2.trans (k.records hm).2⟩
  cache := fun hm hl => ⟨(h.cache hm hl).1.trans (k.cache hm hl).1,
    (h.cache hm hl).2.trans (k.cache hm hl).2⟩
  whole := fun hx => by
    obtain ⟨h1, h2⟩ := h.whole hx
    obtain ⟨k1, k2⟩ := k.whole hx
    exact ⟨k1.trans (by rw [h1]; rfl), k2.trans (by rw [h2]; rfl)⟩
  files := fun hx q hq => by
    have hhash : y.2.hash = x.2.hash := by rw [(h.whole hx).2]; rfl
    exact (k.files hx q ⟨hq.1, fun f hf => hq.2 f (by rwa [hhash] at hf)⟩).trans (h.files hx q hq)

def discipline (env : Env) : Discipline Lock Store Call where
  always := Always env
  settled := Settled
  keeps := Keeps env
  waits := fun c => c = .collect
  refl := keeps_refl env
  trans := keeps_trans env

section Rules
variable {env : Env} {held others : Held Lock} {x y : Store × Store}

theorem not_beside {k : Lock} {m : Mode} (hcompatible : Compatible held others)
    (hheld : (k, .exclusive) ∈ held) :
    (k, m) ∉ others := fun ho => by
  have h := (hcompatible _ hheld _ ho rfl).1
  cases h

theorem not_beside_other {k : Lock} {m : Mode} (hcompatible : Compatible held others)
    (hheld : (k, m) ∈ held) :
    (k, .exclusive) ∉ others := fun ho => by
  have h := (hcompatible _ hheld _ ho rfl).2
  cases h

theorem allowed_disk (hx : Always env x) (d : Disk) (hd : (.rwlock, .exclusive) ∈ held ∨
    ∀ q, Untouched env x.2 q → d.files.lookup q = x.2.disk.files.lookup q) :
    Allowed (discipline env) held x (withDisk x.1 d, withDisk x.2 d) where
  always := ⟨rfl, hx.reserved, hx.entries⟩
  settled := by
    intro k _ hk
    cases k with
    | rwlock => exact ⟨⟨hk.1.hash, hk.1.next, hk.1.clock, hk.1.info⟩, hk.2⟩
    | listMutex => exact ⟨hk.list, hk.content⟩
    | node i => trivial
  keeps := fun others hothers =>
    { records := fun _ => ⟨⟨rfl, rfl, rfl, fun _ => rfl⟩, ⟨rfl, rfl, rfl, fun _ => rfl⟩⟩
      cache := fun _ _ => ⟨⟨rfl, fun _ => rfl⟩, ⟨rfl, fun _ => rfl⟩⟩
      whole := fun _ => ⟨rfl, rfl⟩
      files := fun hexclusive q hq => by
        rcases hd with hheld | hd
        · exact absurd hexclusive (not_beside hothers hheld)
        · exact hd q hq }

theorem allowed_writer (hheld : (.rwlock, .exclusive) ∈ held) (hy : Always env y)
    (hcache : (.listMutex, .exclusive) ∈ held ∨ (Cache x.1 x.2 → Cache y.1 y.2)) :
    Allowed (discipline env) held x y where
  always := hy
  settled := by
    intro k hk hsettled
    cases k with
    | rwlock => exact absurd hheld hk
    | listMutex =>
      rcases hcache with hlist | hcache
      · exact absurd hlist hk
      · exact hcache hsettled
    | node i => trivial
  keeps := fun others hothers =>
    { records := fun ⟨_, hm⟩ => absurd hm (not_beside hothers hheld)
      cache := fun ⟨_, hm⟩ => absurd hm (not_beside hothers hheld)
      whole := fun hm => absurd hm (not_beside hothers hheld)
      files := fun hm => absurd hm (not_beside hothers hheld) }

theorem allowed_cache (hheld : (.rwlock, .shared) ∈ held) (hlist : (.listMutex, .exclusive) ∈ held)
    (hx : Always env x)
    (h1 : ListOnly x.1 y.1) (h2 : ListOnly x.2 y.2) : Allowed (discipline env) held x y where
  always := by
    refine ⟨by rw [h1.disk, h2.disk, hx.disk], ?_, ?_⟩
    · rw [h1.hash, h2.hash]
      exact hx.reserved
    · rw [h2.hash]
      exact hx.entries
  settled := by
    intro k hk hsettled
    cases k with
    | rwlock =>
      exact ⟨h1.toRecords.symm.trans (hsettled.1.trans h2.toRecords), by
        rw [h1.dirty, h2.dirty, hsettled.2]⟩
    | listMutex => exact absurd hlist hk
    | node i => trivial
  keeps := fun others hothers =>
    { records := fun _ => ⟨h1.toRecords, h2.toRecords⟩
      cache := fun _ hm => absurd hm (not_beside hothers hlist)
      whole := fun hm => absurd hm (not_beside_other hothers hheld)
      files := fun hm => absurd hm (not_beside_other hothers hheld) }

theorem allowed_flag (hheld : (.rwlock, .shared) ∈ held) (hx : Always env x) :
    Allowed (discipline env) held x ({ x.1 with isDirty := false },
      { x.2 with isDirty := false }) where
  always := ⟨hx.disk, hx.reserved, hx.entries⟩
  settled := by
    intro k _ hk
    cases k with
    | rwlock => exact ⟨⟨hk.1.hash, hk.1.next, hk.1.clock, hk.1.info⟩, rfl⟩
    | listMutex => exact ⟨hk.list, hk.content⟩
    | node i => trivial
  keeps := fun others hothers =>
    { records := fun _ => ⟨⟨rfl, rfl, rfl, fun _ => rfl⟩, ⟨rfl, rfl, rfl, fun _ => rfl⟩⟩
      cache := fun _ _ => ⟨⟨rfl, fun _ => rfl⟩, ⟨rfl, fun _ => rfl⟩⟩
      whole := fun hm => absurd hm (not_beside_other hothers hheld)
      files := fun hm => absurd hm (not_beside_other hothers hheld) }

theorem records_keeps {m : Mode} (hheld : (.rwlock, m) ∈ held) (hk : Keeps env held x y)
    (h : Records x.1 x.2) :
    Records y.1 y.2 := (hk.records ⟨m, hheld⟩).1.symm.trans (h.trans (hk.records ⟨m, hheld⟩).2)

theorem cache_keeps {m : Mode} (hheld : (.rwlock, m) ∈ held)
    (hlist : (.listMutex, .exclusive) ∈ held)
    (hk : Keeps env held x y) (h : Cache x.1 x.2) : Cache y.1 y.2 :=
  (hk.cache ⟨m, hheld⟩ hlist).1.symm.trans (h.trans (hk.cache ⟨m, hheld⟩ hlist).2)

theorem whole_keeps {R : Store → Store → Prop}
    (hR : ∀ s t d e, R s t → R (withDisk s d) (withDisk t e))
    (hheld : (.rwlock, .exclusive) ∈ held) (hk : Keeps env held x y) (h : R x.1 x.2) :
    R y.1 y.2 := by
  obtain ⟨h1, h2⟩ := hk.whole hheld
  rw [h1, h2]
  exact hR _ _ _ _ h

theorem settled_keeps (hheld : (.rwlock, .exclusive) ∈ held) (hk : Keeps env held x y)
    (h : Settled .rwlock x) :
    Settled .rwlock y :=
  whole_keeps (R := fun s t => Settled .rwlock (s, t))
    (fun _ _ _ _ h => ⟨⟨h.1.hash, h.1.next, h.1.clock, h.1.info⟩, h.2⟩) hheld hk h

theorem validNode_records {s t : Store} (h : Records s t) (filename : Bytes) :
    validNode filename t = validNode filename s := by
  rw [validNode, validNode, h.hash]

variable {c : Call} {done : Option Answer}

theorem serves_now {g g' : Store} {answer : Answer} (h : serve env c g = (answer, g')) :
    Serves (serve env) c g none (some answer) g' := by
  have hnow : Serves (serve env) c g none (some (serve env c g).1) (serve env c g).2 := .now
  rwa [h] at hnow

theorem follows_look {rest : Store → Steps} (h : ∀ y, Always env y → Keeps env held x y →
    ∃ done', Serves (serve env) c y.1 done done' y.1 ∧
      Follows (discipline env) (serve env) c held done' (rest y.2) y) :
    Follows (discipline env) (serve env) c held done (.act id rest) x := by
  intro y hy hk
  obtain ⟨done', hserves, hrest⟩ := h y hy hk
  exact ⟨y.1, done', hserves, allowed_still hy, hrest⟩

theorem follows_act {update : Store → Store} {rest : Store → Steps}
    (h : ∀ y, Always env y → Keeps env held x y →
    ∃ g done', Serves (serve env) c y.1 done done' g ∧
      Allowed (discipline env) held y (g, update y.2) ∧
      Follows (discipline env) (serve env) c held done' (rest y.2) (g, update y.2)) :
    Follows (discipline env) (serve env) c held done (.act update rest) x := h

theorem follows_onDisk {α : Type} {f : Disk → α × Disk} {rest : α → Steps}
    (h : ∀ y, Always env y → Keeps env held x y →
    ∃ g done', Serves (serve env) c y.1 done done' g ∧
      Allowed (discipline env) held y (g, withDisk y.2 (f y.2.disk).2) ∧
      Follows (discipline env) (serve env) c held done' (rest (f y.2.disk).1)
        (g, withDisk y.2 (f y.2.disk).2)) :
    Follows (discipline env) (serve env) c held done (onDisk f rest) x := h

theorem follows_leave_reader (answer : Answer) :
    Follows (discipline env) (serve env) c [(.rwlock, .shared)] (some answer) (leave answer) x :=
  fun _ _ _ => ⟨by simp, by simp [without], rfl⟩

theorem follows_leave_writer (answer : Answer) (h : Settled .rwlock x) :
    Follows (discipline env) (serve env) c [(.rwlock, .exclusive)] (some answer) (leave answer) x :=
  fun _ _ hk => ⟨fun _ => settled_keeps (by simp) hk h, by simp [without], rfl⟩

theorem follows_leaveList_reader (answer : Answer) (h : Cache x.1 x.2) :
    Follows (discipline env) (serve env) c [(.listMutex, .exclusive), (.rwlock, .shared)]
      (some answer) (leaveList answer) x :=
  fun _ _ hk => ⟨fun _ => cache_keeps (m := .shared) (by simp) (by simp) hk h, by
    have hwithout : without Lock.listMutex [(.listMutex, .exclusive), (.rwlock, .shared)] =
      [(.rwlock, .shared)] := rfl
    rw [hwithout]
    exact follows_leave_reader answer⟩

end Rules

section Readers
variable {env : Env} {x : Store × Store}

theorem follows_getFileInfoNode (filename : Bytes) :
    Follows (discipline env) (serve env) (.getFileInfoNode filename) [] none
      (StoreLocks.getFileInfoNode filename) x := by
  intro y hy _ hs
  refine follows_look fun z hz hyz => ?_
  have hrec := records_keeps (m := .shared) (by simp) hyz hs.1
  split_ifs with hvalid
  · refine ⟨none, .still none, follows_look fun u hu hzu => ⟨_, serves_now rfl, ?_⟩⟩
    rw [DataManager.getFileInfoNode,
      ← validNode_records (records_keeps (m := .shared) (by simp) hzu hrec)]
    exact follows_leave_reader _
  · refine ⟨_, serves_now rfl, ?_⟩
    rw [DataManager.getFileInfoNode, ← validNode_records hrec,
      Option.not_isSome_iff_eq_none.mp hvalid]
    exact follows_leave_reader _

theorem recordSize_records {s t : Store} (h : Records s t) (filename : Bytes) :
    recordSize filename t = recordSize filename s := by
  unfold recordSize
  rw [validNode_records h]
  cases validNode filename s with
  | none => rfl
  | some i => dsimp only; rw [h.info]

theorem follows_getFileSize (filename : Bytes) :
    Follows (discipline env) (serve env) (.getFileSize filename) [] none
      (StoreLocks.getFileSize filename) x := by
  intro y hy _ hs
  refine follows_look fun z hz hyz => ?_
  have hrec := records_keeps (m := .shared) (by simp) hyz hs.1
  split_ifs with hvalid
  · refine ⟨none, .still none, follows_look fun u hu hzu => ⟨_, serves_now rfl, ?_⟩⟩
    rw [← recordSize_records (records_keeps (m := .shared) (by simp) hzu hrec)]
    exact follows_leave_reader _
  · refine ⟨_, serves_now rfl, ?_⟩
    rw [recordSize, ← validNode_records hrec, Option.not_isSome_iff_eq_none.mp hvalid]
    exact follows_leave_reader _

theorem follows_walk {c : Call} {done : Option Answer}
    {pick : Bytes × Option NodeId → Store → Option BackupInfoNode}
    (hpick : ∀ e s t, Records s t → pick e t = pick e s) (es : List (Bytes × Option NodeId))
    (infos : List BackupInfoNode)
    {rest : List BackupInfoNode → Steps} (hx : Always env x)
    (h : ∀ y, Always env y → Keeps env [(.rwlock, .shared)] x y →
      Follows (discipline env) (serve env) c [(.rwlock, .shared)] done
      (rest (infos ++ es.filterMap fun e => pick e x.2)) y) :
    Follows (discipline env) (serve env) c [(.rwlock, .shared)] done
      (walk pick es infos rest) x := by
  induction es generalizing infos x with
  | nil =>
    have hend := h x hx (keeps_refl env _ x)
    rw [List.filterMap_nil, List.append_nil] at hend
    exact hend
  | cons e es ih =>
    refine follows_look fun y hy hxy => ⟨done, .still done, ih _ hy fun z hz hyz => ?_⟩
    have hrec : Records x.2 y.2 := (hxy.records ⟨.shared, by simp⟩).2
    have hsame : (fun e => pick e y.2) = fun e => pick e x.2 := funext fun e => hpick e _ _ hrec
    have hend := h z hz (keeps_trans env _ x y z hxy hyz)
    rw [List.filterMap_cons] at hend
    rw [hsame, hpick e _ _ hrec, List.append_assoc]
    cases hp : pick e x.2 with
    | none =>
      rw [hp] at hend
      exact hend
    | some info =>
      rw [hp] at hend
      exact hend

theorem pickNode_records (e : Bytes × Option NodeId) (s t : Store) (h : Records s t) :
    pickNode e t = pickNode e s := by
  unfold pickNode
  exact congrFun (congrArg Option.map (funext fun i => h.info i)) e.2

theorem pickValid_records (e : Bytes × Option NodeId) (s t : Store) (h : Records s t) :
    pickValid e t = pickValid e s := by
  unfold pickValid
  rw [validNode_records h, pickNode_records e s t h]

theorem getAllBackupInfo_records {s t : Store} (h : Records s t) :
    DataManager.getAllBackupInfo t = DataManager.getAllBackupInfo s := by
  unfold DataManager.getAllBackupInfo
  rw [h.hash]
  exact List.filterMap_congr fun e _ =>
    congrFun (congrArg Option.map (funext fun i => h.info i)) e.2

theorem walk_pickNode (s : Store) :
    (tableEntries s).filterMap (fun e => pickNode e s) = DataManager.getAllBackupInfo s := by
  rw [tableEntries, List.filterMap_map]
  rfl

theorem walk_pickValid (s : Store) :
    (tableEntries s).filterMap (fun e => pickValid e s) = DataManager.getAllBackupInfo s := by
  rw [← walk_pickNode]
  refine List.filterMap_congr fun e he => ?_
  obtain ⟨entry, hentry, rfl⟩ := List.mem_map.mp he
  have hlookup : s.hash.lookup entry.1 = some entry.2 := AList.mem_lookup_iff.mpr hentry
  unfold pickValid
  rw [validNode, hlookup, Option.join_some]
  cases hnode : entry.2 with
  | none => rfl
  | some i => rfl

theorem follows_getAllBackupInfo :
    Follows (discipline env) (serve env) .getAllBackupInfo
      [] none StoreLocks.getAllBackupInfo x := by
  intro y hy _ hs
  refine follows_look fun z hz hyz =>
    ⟨_, serves_now rfl, follows_walk pickNode_records _ _ hz fun u hu hzu => ?_⟩
  rw [List.nil_append, walk_pickNode,
    getAllBackupInfo_records (records_keeps (m := .shared) (by simp) hyz hs.1)]
  exact follows_leave_reader _

theorem follows_collect :
    Follows (discipline env) (serve env) .collect [] none StoreLocks.collect x := by
  refine fun _ _ _ _ => ⟨rfl, rfl, rfl, rfl, fun y hy hs => follows_look fun z hz hyz =>
    ⟨none, .still none, ?_⟩⟩
  refine follows_walk pickValid_records _ _ hz fun u hu hzu v hv huv => ?_
  have hzv := keeps_trans env _ z u v hzu huv
  have hrec : Records z.2 v.1 :=
    (hzv.records ⟨.shared, by simp⟩).2.trans
      (records_keeps (m := .shared) (by simp) (keeps_trans env _ y z v hyz hzv) hs.1).symm
  refine ⟨_, _, serves_now rfl, allowed_flag (by simp) hv, ?_⟩
  rw [List.nil_append, walk_pickValid, getAllBackupInfo_records hrec]
  exact follows_leave_reader _

theorem moveToHead_cache {s t : Store} (h : Cache s t) (i : NodeId) :
    Cache (moveToHead i s) (moveToHead i t) :=
  ⟨by simp only [moveToHead, h.list], h.content⟩

theorem setPreContent_cache {s t : Store} (h : Cache s t) (i : NodeId) (content : Bytes) :
    Cache (setPreContent i content s) (setPreContent i content t) := by
  refine ⟨h.list, fun j => ?_⟩
  by_cases hj : j = i
  · subst hj
    rw [setPreContent_same, setPreContent_same]
  · rw [setPreContent_other i j content t hj, setPreContent_other i j content s hj, h.content]

theorem linkHead_cache {s t : Store} (h : Cache s t) (i : NodeId) (content : Bytes) :
    Cache (linkHead i content s) (linkHead i content t) :=
  ⟨congrArg (List.cons i) h.list, (setPreContent_cache h i content).content⟩

theorem listRemove_cache {s t : Store} (h : Cache s t) (i : NodeId) :
    Cache (listRemove i s) (listRemove i t) := by
  unfold listRemove
  rw [h.list]
  split_ifs
  · exact ⟨rfl, (setPreContent_cache h i []).content⟩
  · exact h

theorem removeTail_cache {s t : Store} (h : Cache s t) : Cache (removeTail s) (removeTail t) := by
  unfold removeTail
  rw [h.list]
  cases s.list.getLast? with
  | none => exact h
  | some i => exact listRemove_cache h i

theorem moveToHead_listOnly (i : NodeId) (s : Store) : ListOnly s (moveToHead i s) :=
  ⟨⟨rfl, rfl, rfl, fun _ => rfl⟩, rfl, rfl⟩

theorem linkHead_listOnly (i : NodeId) (content : Bytes) (s : Store) :
    ListOnly s (linkHead i content s) :=
  ⟨⟨rfl, rfl, rfl, fun j => setPreContent_info i j content s⟩, rfl, rfl⟩

theorem listRemove_listOnly (i : NodeId) (s : Store) : ListOnly s (listRemove i s) := by
  unfold listRemove
  split_ifs
  · exact ⟨⟨rfl, rfl, rfl, fun j => setPreContent_info i j [] s⟩, rfl, rfl⟩
  · exact ListOnly.refl s

theorem removeTail_listOnly (s : Store) : ListOnly s (removeTail s) := by
  unfold removeTail
  split
  · exact ListOnly.refl s
  · exact listRemove_listOnly _ s

structure AtNode (filename : Bytes) (i : NodeId) (x : Store × Store) : Prop where
  records : Records x.1 x.2
  cache : Cache x.1 x.2
  valid : validNode filename x.1 = some i

theorem atNode_keeps {filename : Bytes} {i : NodeId} {y : Store × Store} (h : AtNode filename i x)
    (hk : Keeps env [(.listMutex, .exclusive), (.rwlock, .shared)] x y) : AtNode filename i y where
  records := records_keeps (m := .shared) (by simp) hk h.records
  cache := cache_keeps (m := .shared) (by simp) (by simp) hk h.cache
  valid := by rw [validNode_records (hk.records ⟨.shared, by simp⟩).1, h.valid]

theorem atNode_acquired {filename : Bytes} {i : NodeId} {y : Store × Store} (hrec : Records x.1 x.2)
    (hnode : validNode filename x.2 = some i) (hk : Keeps env [(.rwlock, .shared)] x y)
    (hcache : Cache y.1 y.2) :
    AtNode filename i y where
  records := records_keeps (m := .shared) (by simp) hk hrec
  cache := hcache
  valid := by rw [validNode_records (hk.records ⟨.shared, by simp⟩).1,
    ← validNode_records hrec, hnode]

theorem moved_allowed (i : NodeId) (hx : Always env x) :
    Allowed (discipline env) [(.listMutex, .exclusive), (.rwlock, .shared)] x
      (moveToHead i x.1, moveToHead i x.2) :=
  allowed_cache (by simp) (by simp) hx (moveToHead_listOnly i x.1) (moveToHead_listOnly i x.2)

theorem follows_getFilePreContent (filename : Bytes) :
    Follows (discipline env) (serve env) (.getFilePreContent filename) [] none
      (StoreLocks.getFilePreContent filename) x := by
  intro y hy _ hs
  refine follows_look fun z hz hyz => ?_
  have hrec := records_keeps (m := .shared) (by simp) hyz hs.1
  have hvalid := validNode_records hrec filename
  cases hnode : validNode filename z.2 with
  | none =>
    exact ⟨_, serves_now (by rw [serve, DataManager.getFilePreContent, ← hvalid, hnode]),
      follows_leave_reader _⟩
  | some i =>
    refine ⟨none, .still none, fun u hu hzu hcache => follows_look fun v hv huv => ?_⟩
    have hat := atNode_keeps (atNode_acquired hrec hnode hzu hcache) huv
    by_cases hin : i ∈ v.2.list
    · rw [if_pos hin]
      refine ⟨none, .still none, fun a ha hva => ?_⟩
      have hata := atNode_keeps hat hva
      have hina : i ∈ a.1.list := by
        rw [(hva.cache ⟨.shared, by simp⟩ (by simp)).1.list, ← hat.cache.list]
        exact hin
      refine ⟨_, _, serves_now (by
        rw [serve, DataManager.getFilePreContent, hata.valid]
        dsimp only
        rw [if_pos hina]), moved_allowed i ha, ?_⟩
      refine follows_look fun b hb hab => ⟨_, .still _, ?_⟩
      -- the copy that is returned is made after the move
      have hcontent : (b.2.nodes i).filePreContent = (a.1.nodes i).filePreContent :=
        ((hab.cache ⟨.shared, by simp⟩ (by simp)).2.content i).trans (hata.cache.content i)
      rw [hcontent]
      exact follows_leaveList_reader _
        (cache_keeps (m := .shared) (by simp) (by simp) hab (moveToHead_cache hata.cache i))
    · rw [if_neg hin]
      rw [hat.cache.list] at hin
      exact ⟨_, serves_now (by
          rw [serve, DataManager.getFilePreContent, hat.valid]; dsimp only; rw [if_neg hin]),
        follows_leaveList_reader _ hat.cache⟩

structure Linking (env : Env) (filename content : Bytes) (i : NodeId)
    (x : Store × Store) : Prop where
  records : Records x.1 x.2
  cache : Cache (linkHead i (keptPrefix env content) x.1) x.2
  valid : validNode filename x.1 = some i
  out : i ∉ x.1.list

theorem linking_keeps {filename content : Bytes} {i : NodeId} {y : Store × Store}
    (h : Linking env filename content i x)
    (hk : Keeps env [(.listMutex, .exclusive), (.rwlock, .shared)] x y) :
    Linking env filename content i y where
  records := records_keeps (m := .shared) (by simp) hk h.records
  cache := (linkHead_cache (hk.cache ⟨.shared, by simp⟩ (by simp)).1.symm i _).trans
    (h.cache.trans (hk.cache ⟨.shared, by simp⟩ (by simp)).2)
  valid := by rw [validNode_records (hk.records ⟨.shared, by simp⟩).1, h.valid]
  out := by
    rw [(hk.cache ⟨.shared, by simp⟩ (by simp)).1.list]
    exact h.out

theorem linking_serve {filename content : Bytes} {i : NodeId}
    (h : Linking env filename content i x) :
    serve env (.putFilePreContent filename content) x.1 =
      (.done true, if env.lruFileCapacity < x.2.list.length then
        removeTail (linkHead i (keptPrefix env content) x.1)
        else linkHead i (keptPrefix env content) x.1) := by
  rw [serve, DataManager.putFilePreContent, h.valid]
  dsimp only
  rw [if_neg h.out, h.cache.list]
  rfl

theorem follows_putFilePreContent (filename content : Bytes) :
    Follows (discipline env) (serve env) (.putFilePreContent filename content) [] none
      (StoreLocks.putFilePreContent env filename content) x := by
  intro y hy _ hs
  refine follows_look fun z hz hyz => ?_
  have hrec := records_keeps (m := .shared) (by simp) hyz hs.1
  have hvalid := validNode_records hrec filename
  cases hnode : validNode filename z.2 with
  | none =>
    exact ⟨_, serves_now (by rw [serve, DataManager.putFilePreContent, ← hvalid, hnode]),
      follows_leave_reader _⟩
  | some i =>
    refine ⟨none, .still none, fun u hu hzu hcache => follows_look fun v hv huv => ?_⟩
    have hat := atNode_keeps (atNode_acquired hrec hnode hzu hcache) huv
    by_cases hin : i ∈ v.2.list
    · rw [if_pos hin]
      refine ⟨none, .still none, fun a ha hva => ?_⟩
      have hata := atNode_keeps hat hva
      have hina : i ∈ a.1.list := by
        rw [(hva.cache ⟨.shared, by simp⟩ (by simp)).1.list, ← hat.cache.list]
        exact hin
      exact ⟨_, _, serves_now (by
        rw [serve, DataManager.putFilePreContent, hata.valid]
        dsimp only
        rw [if_pos hina]), moved_allowed i ha,
          follows_leaveList_reader _ (moveToHead_cache hata.cache i)⟩
    · rw [if_neg hin]
      refine ⟨none, .still none, fun a ha hva => ?_⟩
      have hata := atNode_keeps hat hva
      have hout : i ∉ a.1.list := by
        rw [(hva.cache ⟨.shared, by simp⟩ (by simp)).1.list, ← hat.cache.list]
        exact hin
      have hlinking : Linking env filename content i
        (a.1, linkHead i (keptPrefix env content) a.2) :=
        ⟨hata.records.trans (linkHead_listOnly i _ a.2).toRecords, linkHead_cache hata.cache i _,
          hata.valid, hout⟩
      refine ⟨_, _, .still none, allowed_cache (by simp) (by simp) ha (ListOnly.refl _)
        (linkHead_listOnly i _ a.2), follows_act fun b hb hab => ?_⟩
      have hlinkingb := linking_keeps hlinking hab
      by_cases hfull : env.lruFileCapacity < b.2.list.length
      · refine ⟨b.1, none, .still none, allowed_still hb, ?_⟩
        rw [if_pos hfull]
        refine follows_act fun d hd (hbd : Keeps env _ b d) => ?_
        have hlinkingd := linking_keeps hlinkingb hbd
        rw [← (hbd.cache ⟨.shared, by simp⟩ (by simp)).2.list] at hfull
        exact ⟨removeTail (linkHead i (keptPrefix env content) d.1), _,
          serves_now (by rw [linking_serve hlinkingd, if_pos hfull]),
          allowed_cache (by simp) (by simp) hd
            ((linkHead_listOnly i _ d.1).trans (removeTail_listOnly _)) (removeTail_listOnly d.2),
          follows_leaveList_reader _ (removeTail_cache hlinkingd.cache)⟩
      · refine ⟨linkHead i (keptPrefix env content) b.1, _,
          serves_now (by rw [linking_serve hlinkingb, if_neg hfull]),
          allowed_cache (by simp) (by simp) hb (linkHead_listOnly i _ b.1) (ListOnly.refl _), ?_⟩
        rw [if_neg hfull]
        exact follows_leaveList_reader _ hlinkingb.cache

theorem onlyAt_untouched {p : Bytes} {d : Disk} (hd : OnlyAt p x.2.disk d) (hp : p = metaPath env ∨
    ∃ filename, x.2.hash.lookup filename = some none ∧ p = targetPath env filename) :
    ∀ q, Untouched env x.2 q → d.files.lookup q = x.2.disk.files.lookup q := by
  intro q hq
  refine hd q ?_
  rcases hp with rfl | ⟨filename, hreserved, rfl⟩
  · exact hq.1
  · exact hq.2 filename hreserved

theorem follows_metaFile {c : Call} (f : Disk → Bool × Disk)
    (honly : ∀ d, OnlyAt (metaPath env) d (f d).2)
    (hserve : ∀ s, serve env c s = (.done (f s.disk).1, withDisk s (f s.disk).2)) :
    Follows (discipline env) (serve env) c [] none (onDisk f fun ok => .ret (.done ok)) x := by
  intro y hy _
  refine ⟨_, _, serves_now (hserve y.1), ?_⟩
  rw [← hy.disk]
  exact ⟨allowed_disk hy _ (Or.inr (onlyAt_untouched (honly y.2.disk) (Or.inl rfl))), rfl, rfl⟩

theorem readSegment_files (env : Env) (filename : Bytes) (startPos endPos : ℤ) (s : Store) :
    (Download.readSegment env filename startPos endPos s).2.disk.files = s.disk.files :=
  getContent_files _ _ _ _

theorem follows_readSegment (i : NodeId) (filename : Bytes) (startPos endPos : ℤ) :
    Follows (discipline env) (serve env) (.readSegment i filename startPos endPos) [] none
      (StoreLocks.readSegment env i filename startPos endPos) x := by
  intro y _ _ _ z hz _
  refine ⟨_, _, serves_now rfl, ?_, fun u _ _ => ⟨fun _ => trivial, by simp [without], ?_⟩⟩
  · have hsame : (Download.readSegment env filename startPos endPos z.1).2 =
        withDisk z.1 (Download.readSegment env filename startPos endPos z.2).2.disk := by
      simp only [Download.readSegment, withDisk, hz.disk]
    rw [hsame]
    exact allowed_disk hz _ (Or.inr fun q _ => by rw [readSegment_files])
  · simp only [Download.readSegment, hz.disk]

end Readers

end CloudBackup.StoreDiscipline
