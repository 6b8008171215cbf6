import CloudBackup.Backing
import CloudBackup.LockProgress

/-!
# The locks of the data manager

Every call of the data manager as its thread makes it, one atomic step after
the other: `_rwlock` shared or alone, `_list_mutex` for the LRU list and the
lock of a record for its file. `FileStorageThread` sleeps on a clean flag with
`_rwlock` given back. The workers that serve requests and the storage thread
run any calls at once, and uploads write to the files of the names they hold.
-/

set_option autoImplicit false

namespace CloudBackup.StoreLocks
open CloudBackup.ByteStrings CloudBackup.FilePath CloudBackup.FileStore CloudBackup.DataManager
open CloudBackup.Download CloudBackup.MetadataFile CloudBackup.RunInvariants
  CloudBackup.LockPrograms CloudBackup.LockProgress

inductive Lock where
  | rwlock
  | listMutex
  | node (id : NodeId)
  deriving DecidableEq

inductive Answer where
  | done (ok : Bool)
  | node (id : Option NodeId)
  | infos (infos : List BackupInfoNode)
  | size (bytes : ℕ)
  | content (bytes : Bytes)
  | segment (read : Option Bytes)
  deriving DecidableEq

/-- A segment is read for a record whose name, which never changes, is `filename`. The
last three are the parts of a storage pass. -/
inductive Call where
  | register (filename : Bytes)
  | deregister (filename : Bytes)
  | insert (filename : Bytes) (filesize : ℤ)
  | delete (filename : Bytes)
  | getFileInfoNode (filename : Bytes)
  | getAllBackupInfo
  | getFileSize (filename : Bytes)
  | getFilePreContent (filename : Bytes)
  | putFilePreContent (filename content : Bytes)
  | readSegment (id : NodeId) (filename : Bytes) (startPos endPos : ℤ)
  | collect
  | clearFile
  | appendFile (infosStr : Bytes)

abbrev Steps := Program Lock Store Answer

/-- Scoped locks go in the opposite order. -/
def leave (answer : Answer) : Steps := .release .rwlock (.ret answer)

def leaveList (answer : Answer) : Steps := .release .listMutex (leave answer)

def onDisk {α : Type} (f : Disk → α × Disk) (rest : α → Steps) : Steps :=
  .act (fun s => { s with disk := (f s.disk).2 }) fun s => rest (f s.disk).1

def registerName (filename : Bytes) : Steps :=
  .act (fun s => { s with hash := s.hash.insert filename none }) fun _ => leave (.done true)

def createFile (env : Env) (filename : Bytes) : Steps :=
  .act id fun s =>
    if fileExists env (targetFile env filename) s.disk then registerName filename
    else onDisk (appendContent env (targetFile env filename) []) fun ok =>
      if ok then registerName filename else leave (.done false)

def register (env : Env) (filename : Bytes) : Steps :=
  .acquire .rwlock .exclusive <| .act id fun s =>
    if (s.hash.lookup filename).isSome then leave (.done false)
    else if !checkFilename filename then leave (.done false)
    else .act id fun s =>
      if fileExists env (targetFile env filename) s.disk then
        onDisk (clear env (targetFile env filename)) fun ok =>
          if ok then createFile env filename else leave (.done false)
      else createFile env filename

def deregister (env : Env) (filename : Bytes) : Steps :=
  .acquire .rwlock .exclusive <| .act (fun s => { s with hash := s.hash.erase filename }) fun _ =>
    .act id fun s =>
      if fileExists env (targetFile env filename) s.disk then
        onDisk (removeRegularFile env (targetFile env filename)) fun ok => leave (.done ok)
      else leave (.done true)

def insertNode (filename : Bytes) (filesize : ℤ) (s : Store) : Store :=
  { s with
    hash := s.hash.insert filename (some s.nextNode)
    nodes := Function.update s.nodes s.nextNode (newNode filename filesize s)
    nextNode := s.nextNode+1
    clock := fun n => s.clock (n+1) }

def setDirty (rest : Steps) : Steps :=
  .act (fun s => { s with isDirty := true }) fun _ => .notify rest

def insert (filename : Bytes) (filesize : ℤ) : Steps :=
  .acquire .rwlock .exclusive <| .act id fun s =>
    if s.hash.lookup filename = some none then
      .act (insertNode filename filesize) fun _ => setDirty (leave (.done true))
    else leave (.done false)

def eraseName (id : NodeId) (filename : Bytes) (ok : Bool) : Steps :=
  .release (.node id) <| .act (fun s => { s with hash := s.hash.erase filename }) fun _ =>
    setDirty (leaveList (.done ok))

def delete (env : Env) (filename : Bytes) : Steps :=
  .acquire .rwlock .exclusive <| .act id fun s =>
    match validNode filename s with
    | none => leave (.done false)
    | some i => .acquire .listMutex .exclusive <| .act (listRemove i) fun _ =>
      .acquire (.node i) .exclusive <| .act id fun s =>
        if fileExists env (targetFile env filename) s.disk then
          onDisk (removeRegularFile env (targetFile env filename)) fun ok => eraseName i filename ok
        else eraseName i filename true

def getFileInfoNode (filename : Bytes) : Steps :=
  .acquire .rwlock .shared <| .act id fun s =>
    if (validNode filename s).isSome then .act id fun s => leave (.node (validNode filename s))
    else leave (.node none)

def walk (pick : Bytes × Option NodeId → Store → Option BackupInfoNode) :
    List (Bytes × Option NodeId) → List BackupInfoNode → (List BackupInfoNode → Steps) → Steps
  | [], infos, rest => rest infos
  | e::es, infos, rest => .act id fun s => walk pick es (infos ++ (pick e s).toList) rest

def tableEntries (s : Store) : List (Bytes × Option NodeId) :=
  s.hash.entries.map fun e => (e.1, e.2)

def pickNode (e : Bytes × Option NodeId) (s : Store) : Option BackupInfoNode :=
  e.2.map fun i => (s.nodes i).info

def getAllBackupInfo : Steps :=
  .acquire .rwlock .shared <| .act id fun s => walk pickNode (tableEntries s) [] fun infos =>
    leave (.infos infos)

/-- `-1` as an unsigned number for a name without a record. -/
def recordSize (filename : Bytes) (s : Store) : ℕ :=
  match validNode filename s with
  | none => asSize (-1)
  | some i => asSize (s.nodes i).info.size

def getFileSize (filename : Bytes) : Steps :=
  .acquire .rwlock .shared <| .act id fun s =>
    if (validNode filename s).isSome then .act id fun s => leave (.size (recordSize filename s))
    else leave (.size (asSize (-1)))

def getFilePreContent (filename : Bytes) : Steps :=
  .acquire .rwlock .shared <| .act id fun s =>
    match validNode filename s with
    | none => leave (.content [])
    | some i => .acquire .listMutex .exclusive <| .act id fun s =>
      if i ∈ s.list then .act (moveToHead i) fun _ => .act id fun s =>
        leaveList (.content (s.nodes i).filePreContent)
      else leaveList (.content [])

def linkHead (id : NodeId) (content : Bytes) (s : Store) : Store :=
  { setPreContent id content s with list := id :: s.list }

def putFilePreContent (env : Env) (filename content : Bytes) : Steps :=
  .acquire .rwlock .shared <| .act id fun s =>
    match validNode filename s with
    | none => leave (.done false)
    | some i => .acquire .listMutex .exclusive <| .act id fun s =>
      if i ∈ s.list then .act (moveToHead i) fun _ => leaveList (.done true)
      else .act (linkHead i (keptPrefix env content)) fun _ => .act id fun s =>
        if env.lruFileCapacity < s.list.length then .act removeTail fun _ => leaveList (.done true)
        else leaveList (.done true)

/-- The part of `sendFile` under the lock of the record. -/
def readSegment (env : Env) (i : NodeId) (filename : Bytes) (startPos endPos : ℤ) : Steps :=
  .acquire (.node i) .shared <|
    .act (fun s => (Download.readSegment env filename startPos endPos s).2) fun s =>
      .release (.node i) (.ret (.segment (Download.readSegment env filename startPos endPos s).1))

def pickValid (e : Bytes × Option NodeId) (s : Store) : Option BackupInfoNode :=
  if (validNode e.1 s).isSome then pickNode e s else none

/-- A storage pass up to the end of its lock. -/
def collect : Steps :=
  .acquire .rwlock .shared <| .await .rwlock .shared <| .act id fun s =>
    walk pickValid (tableEntries s) [] fun infos =>
      .act (fun s => { s with isDirty := false }) fun _ => leave (.infos infos)

def clearFile (env : Env) : Steps := onDisk (clear env (metaFile env)) fun ok => .ret (.done ok)

def appendFile (env : Env) (infosStr : Bytes) : Steps :=
  onDisk (appendContent env (metaFile env) infosStr) fun ok => .ret (.done ok)

def steps (env : Env) : Call → Steps
  | .register filename => register env filename
  | .deregister filename => deregister env filename
  | .insert filename filesize => insert filename filesize
  | .delete filename => delete env filename
  | .getFileInfoNode filename => getFileInfoNode filename
  | .getAllBackupInfo => getAllBackupInfo
  | .getFileSize filename => getFileSize filename
  | .getFilePreContent filename => getFilePreContent filename
  | .putFilePreContent filename content => putFilePreContent env filename content
  | .readSegment i filename startPos endPos => readSegment env i filename startPos endPos
  | .collect => collect
  | .clearFile => clearFile env
  | .appendFile infosStr => appendFile env infosStr

/-- A write of an upload to the file of the name it holds; no lock is taken for it. -/
structure Upload where
  filename : Bytes
  content : Bytes

def upload (env : Env) (u : Upload) (s : Store) : Option Store :=
  if s.hash.lookup u.filename = some none then
    some { s with disk := (appendContent env (targetFile env u.filename) u.content s.disk).2 }
  else none

/-- Any number of threads at the data manager. -/
def next {n : ℕ} (env : Env) : System n Lock Store Answer → Event n Call Upload Answer →
    Option (System n Lock Store Answer) :=
  LockPrograms.next (steps env) Store.isDirty (upload env)

def rank : Lock → ℕ
  | .rwlock => 0
  | .listMutex => 1
  | .node _ => 2

/-- The locks in order, notifications, and no waiting for the flag. -/
structure Kind (held : Held Lock) (p : Steps) : Prop where
  disciplined : Disciplined rank Store.isDirty held p
  sleepless : Sleepless p

section Rules
variable {held : Held Lock}

theorem kind_ret (answer : Answer) : Kind [] (.ret answer) := ⟨⟨rfl, trivial⟩, trivial⟩

theorem kind_acquire {k : Lock} {m : Mode} {rest : Steps} (horder : ∀ h ∈ held, rank h.1 < rank k)
    (h : Kind ((k, m)::held) rest) : Kind held (.acquire k m rest) :=
  ⟨⟨⟨horder, h.disciplined.ordered⟩, h.disciplined.announces⟩, h.sleepless⟩

theorem kind_release {k : Lock} {rest : Steps} (h : Kind (without k held) rest) :
    Kind held (.release k rest) :=
  ⟨⟨h.disciplined.ordered, h.disciplined.announces⟩, h.sleepless⟩

theorem kind_act {update : Store → Store} {rest : Store → Steps}
    (hflag : ∀ s, (update s).isDirty = true → s.isDirty = true)
    (h : ∀ s, Kind held (rest s)) : Kind held (.act update rest) :=
  ⟨⟨fun s => (h s).disciplined.ordered, fun s =>
    ⟨(h s).disciplined.announces, fun hs => Or.inl (hflag s hs)⟩⟩,
    fun s => (h s).sleepless⟩

theorem kind_look {rest : Store → Steps} (h : ∀ s, Kind held (rest s)) : Kind held (.act id rest) :=
  kind_act (fun _ => id) h

theorem kind_onDisk {α : Type} {f : Disk → α × Disk} {rest : α → Steps}
    (h : ∀ a, Kind held (rest a)) :
    Kind held (onDisk f rest) := kind_act (fun _ => id) fun s => h (f s.disk).1

theorem kind_setDirty {rest : Steps} (h : Kind held rest) : Kind held (setDirty rest) :=
  ⟨⟨fun _ => h.disciplined.ordered, fun _ =>
    ⟨h.disciplined.announces, fun _ => Or.inr ⟨rest, rfl⟩⟩⟩, fun _ => h.sleepless⟩

theorem kind_leave (m : Mode) (answer : Answer) : Kind [(.rwlock, m)] (leave answer) :=
  kind_release (by simpa [without] using kind_ret answer)

theorem kind_leaveList (m : Mode) (answer : Answer) :
    Kind [(.listMutex, .exclusive), (.rwlock, m)] (leaveList answer) :=
  kind_release (by simpa [without] using kind_leave m answer)

theorem kind_walk (pick : Bytes × Option NodeId → Store → Option BackupInfoNode)
    (es : List (Bytes × Option NodeId))
    (infos : List BackupInfoNode) {rest : List BackupInfoNode → Steps}
    (h : ∀ infos, Kind held (rest infos)) :
    Kind held (walk pick es infos rest) := by
  induction es generalizing infos with
  | nil => exact h infos
  | cons e es ih => exact kind_look fun s => ih _

end Rules

theorem kind_registerName (filename : Bytes) :
    Kind [(.rwlock, .exclusive)] (registerName filename) :=
  kind_act (fun _ => id) fun _ => kind_leave _ _

theorem kind_createFile (env : Env) (filename : Bytes) :
    Kind [(.rwlock, .exclusive)] (createFile env filename) := by
  refine kind_look fun s => ?_
  split_ifs
  · exact kind_registerName filename
  · refine kind_onDisk fun ok => ?_
    split_ifs
    · exact kind_registerName filename
    · exact kind_leave _ _

theorem kind_register (env : Env) (filename : Bytes) : Kind [] (register env filename) := by
  refine kind_acquire (by simp) (kind_look fun s => ?_)
  split_ifs
  · exact kind_leave _ _
  · exact kind_leave _ _
  · refine kind_look fun s => ?_
    split_ifs
    · refine kind_onDisk fun ok => ?_
      split_ifs
      · exact kind_createFile env filename
      · exact kind_leave _ _
    · exact kind_createFile env filename

theorem kind_deregister (env : Env) (filename : Bytes) : Kind [] (deregister env filename) := by
  refine kind_acquire (by simp) (kind_act (fun _ => id) fun _ => kind_look fun s => ?_)
  split_ifs
  · exact kind_onDisk fun ok => kind_leave _ _
  · exact kind_leave _ _

theorem kind_insert (filename : Bytes) (filesize : ℤ) : Kind [] (insert filename filesize) := by
  refine kind_acquire (by simp) (kind_look fun s => ?_)
  split_ifs
  · exact kind_act (fun _ => id) fun _ => kind_setDirty (kind_leave _ _)
  · exact kind_leave _ _

theorem kind_eraseName (i : NodeId) (filename : Bytes) (ok : Bool) :
    Kind [(.node i, .exclusive), (.listMutex, .exclusive), (.rwlock, .exclusive)]
      (eraseName i filename ok) := by
  refine kind_release (kind_act (fun _ => id) fun _ => kind_setDirty ?_)
  simpa [without] using kind_leaveList .exclusive (.done ok)

theorem listRemove_isDirty (i : NodeId) (s : Store) : (listRemove i s).isDirty = s.isDirty := by
  unfold listRemove
  split_ifs <;> rfl

theorem removeTail_isDirty (s : Store) : (removeTail s).isDirty = s.isDirty := by
  unfold removeTail
  split
  · rfl
  · exact listRemove_isDirty _ s

theorem kind_delete (env : Env) (filename : Bytes) : Kind [] (delete env filename) := by
  refine kind_acquire (by simp) (kind_look fun s => ?_)
  cases validNode filename s with
  | none => exact kind_leave _ _
  | some i =>
    refine kind_acquire (by simp [rank]) (kind_act (fun s => ?_) fun _ =>
      kind_acquire (by simp [rank]) (kind_look fun s => ?_))
    · rw [listRemove_isDirty]
      exact id
    · split_ifs
      · exact kind_onDisk fun ok => kind_eraseName i filename ok
      · exact kind_eraseName i filename true

theorem kind_getFilePreContent (filename : Bytes) : Kind [] (getFilePreContent filename) := by
  refine kind_acquire (by simp) (kind_look fun s => ?_)
  cases validNode filename s with
  | none => exact kind_leave _ _
  | some i =>
    refine kind_acquire (by simp [rank]) (kind_look fun s => ?_)
    split_ifs
    · exact kind_act (fun _ => id) fun _ => kind_look fun s => kind_leaveList _ _
    · exact kind_leaveList _ _

theorem kind_putFilePreContent (env : Env) (filename content : Bytes) :
    Kind [] (putFilePreContent env filename content) := by
  refine kind_acquire (by simp) (kind_look fun s => ?_)
  cases validNode filename s with
  | none => exact kind_leave _ _
  | some i =>
    refine kind_acquire (by simp [rank]) (kind_look fun s => ?_)
    split_ifs
    · exact kind_act (fun _ => id) fun _ => kind_leaveList _ _
    · refine kind_act (fun _ => id) fun _ => kind_look fun s => ?_
      split_ifs
      · refine kind_act (fun s => ?_) fun _ => kind_leaveList _ _
        rw [removeTail_isDirty]
        exact id
      · exact kind_leaveList _ _

theorem kind_steps (env : Env) {c : Call} (hc : c ≠ .collect) : Kind [] (steps env c) := by
  cases c with
  | register filename => exact kind_register env filename
  | deregister filename => exact kind_deregister env filename
  | insert filename filesize => exact kind_insert filename filesize
  | delete filename => exact kind_delete env filename
  | getFileInfoNode filename =>
    refine kind_acquire (by simp) (kind_look fun s => ?_)
    split_ifs
    · exact kind_look fun s => kind_leave _ _
    · exact kind_leave _ _
  | getAllBackupInfo =>
    exact kind_acquire (by simp)
      (kind_look fun s => kind_walk _ _ _ fun infos => kind_leave _ _)
  | getFileSize filename =>
    refine kind_acquire (by simp) (kind_look fun s => ?_)
    split_ifs
    · exact kind_look fun s => kind_leave _ _
    · exact kind_leave _ _
  | getFilePreContent filename => exact kind_getFilePreContent filename
  | putFilePreContent filename content => exact kind_putFilePreContent env filename content
  | readSegment i filename startPos endPos =>
    exact kind_acquire (by simp) (kind_act (fun _ => id) fun s =>
      kind_release (by simpa [without] using kind_ret _))
  | collect => exact absurd rfl hc
  | clearFile => exact kind_onDisk fun ok => kind_ret _
  | appendFile infosStr => exact kind_onDisk fun ok => kind_ret _

theorem collect_disciplined : Disciplined rank Store.isDirty [] collect := by
  have hwalk : Kind [(.rwlock, .shared)]
    (.act id fun s => walk pickValid (tableEntries s) [] fun infos =>
      .act (fun s => { s with isDirty := false }) fun _ => leave (.infos infos)) :=
    kind_look fun s => kind_walk _ _ _ fun infos =>
      kind_act (fun _ hs => absurd hs Bool.false_ne_true) fun _ => kind_leave _ _
  exact ⟨⟨by simp, rfl, hwalk.disciplined.ordered⟩, hwalk.disciplined.announces⟩

theorem steps_disciplined (env : Env) (c : Call) :
    Disciplined rank Store.isDirty [] (steps env c) := by
  by_cases hc : c = .collect
  · subst hc
    exact collect_disciplined
  · exact (kind_steps env hc).disciplined

theorem upload_isDirty {env : Env} {u : Upload} {s s' : Store} (h : upload env u s = some s') :
    s'.isDirty = s.isDirty := by
  unfold upload at h
  split_ifs at h
  cases h
  rfl

section Runs
variable {n : ℕ} (env : Env) (s : Store) (events : List (Event n Call Upload Answer))

theorem calm_calls : Throughout (next env) (Calm rank Store.isDirty fun t =>
    .call t .collect ∈ events) (System.start s) events := by
  refine calm_throughout (steps_disciplined env) (fun u s s' hu hs => ?_) s fun t c hcall => ?_
  · rwa [upload_isDirty hu] at hs
  · by_cases hc : c = .collect
    · exact Or.inl (hc ▸ hcall)
    · exact Or.inr (kind_steps env hc).sleepless

/-- Whatever the threads call, no two of them hold a lock that one has alone; where no call
can go on any more all have returned, except that a storage thread sleeps on a clean flag;
and without new calls, wake-ups that nobody asked for and writes of uploads it comes to that. -/
theorem calls_return : Throughout (next env) (fun w => Excluded w ∧
      (Stuck (steps env) Store.isDirty (upload env) w → ∀ t, w.threads t = .idle ∨
        (sleeps (w.threads t) ∧ .call t .collect ∈ events ∧ w.state.isDirty = false)))
      (System.start s) events ∧
    WellFounded fun w' w : System n Lock Store Answer =>
      ∃ e, inside e ∧ next env w e = some w' := by
  refine ⟨throughout_mono (fun w hw => ⟨hw.excluded, fun hstuck t => ?_⟩) (calm_calls env s events),
    calls_end _ _ _⟩
  rcases stuck_done hstuck hw.orderly t with hidle | ⟨hsleeps, hclean⟩
  · exact Or.inl hidle
  · by_cases ht : .call t .collect ∈ events
    · exact Or.inr ⟨hsleeps, ht, hclean⟩
    · obtain ⟨held, k, m, rest, hthread⟩ := sleeps_cases hsleeps
      have hbusy := hw.busy t ht
      rw [hthread] at hbusy
      exact hbusy.elim

end Runs

end CloudBackup.StoreLocks
