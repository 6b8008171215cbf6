import CloudBackup.CleanFlag
import CloudBackup.NameOwnership
import CloudBackup.StoreAtomicity

/-!
# The storage thread among the others

One thread runs `FileStorageThread`, pass after pass, while any number of others
calls the data manager for requests. Uploads register a name before they insert
or deregister it. Where nothing goes on any more the storage thread sleeps on a
clean flag, and unless its last pass failed the metadata file holds the valid
records, or the beginning of their text that a write without a check left.
-/

set_option autoImplicit false

namespace CloudBackup.StorageThread
open CloudBackup.ByteStrings CloudBackup.JsonCodec CloudBackup.FilePath CloudBackup.FileStore
  CloudBackup.DataManager
open CloudBackup.MetadataFile CloudBackup.Restart CloudBackup.Backing CloudBackup.StoragePass
  CloudBackup.RunInvariants
open CloudBackup.LockPrograms CloudBackup.LockProgress CloudBackup.Linearization
  CloudBackup.Ownership
open CloudBackup.StoreLocks CloudBackup.StoreDiscipline CloudBackup.StoreAtomicity
open CloudBackup.CleanFlag (Pass Progress Saved Snapshot Wide Aside firstProcess firstProcess_start)
open CloudBackup.MetadataCrash (plainEnv_housed helloInfo helloText helloCodec helloCodec_reads)
open CloudBackup.NameOwnership (reserved)

/-- Where `FileStorageThread` stands between its calls; `failed` where its last pass
did not come to its end. -/
inductive Turn where
  | collect (failed : Bool)
  | clear (infosStr : Bytes)
  | append (infosStr : Bytes)
  deriving DecidableEq

def Turn.call : Turn → Call
  | .collect _ => .collect
  | .clear _ => .clearFile
  | .append infosStr => .appendFile infosStr

def Turn.next (codec : Codec) : Turn → Answer → Option Turn
  | .collect _, .infos root =>
    match codec.serialize (metadata root) with
    | none => some (.collect true)
    | some infosStr => some (.clear infosStr)
  | .clear infosStr, .done ok => some (if ok then .append infosStr else .collect true)
  | .append _, .done ok => some (.collect !ok)
  | _, _ => none

deriving instance DecidableEq for StoreLocks.Call

/-- A call for a request, with a name as files have them and a size of the system. -/
def asked : Call → Bool
  | .register filename => !checkFilename filename || isEntry filename
  | .deregister filename => isEntry filename
  | .insert _ filesize => -2^63 ≤ filesize && filesize < 2^63
  | .collect | .clearFile | .appendFile _ => false
  | _ => true

/-- The name that an upload gives up with a call. -/
def takes : Call → Option Bytes
  | .insert filename _ => some filename
  | .deregister filename => some filename
  | _ => none

/-- The name that an upload holds after a call. -/
def gives : Call → Answer → Option Bytes
  | .register filename, .done true => some filename
  | _, _ => none

/-- What is known of the threads from outside; `owned` are the names that uploads hold. -/
structure Book (n : ℕ) where
  turn : Turn
  pending : Fin n → Option Call
  owned : Finset Bytes

variable {n : ℕ}

def Book.start : Book n := { turn := .collect false, pending := fun _ => none, owned := ∅ }

/-- The storage thread calls what its turn says, others what requests ask for, with names that
uploads hold. -/
def Calls (t₀ : Fin n) (b : Book n) (t : Fin n) (c : Call) : Prop :=
  (t = t₀ → c = b.turn.call) ∧ (t ≠ t₀ → asked c = true ∧ (takes c).toFinset ⊆ b.owned)

instance (t₀ : Fin n) (b : Book n) (t : Fin n) (c : Call) : Decidable (Calls t₀ b t c) :=
  inferInstanceAs (Decidable (_ ∧ _))

/-- `none` where a thread calls what it never does. -/
def see (codec : Codec) (t₀ : Fin n) (b : Book n) : Sight n Call Upload Answer → Option (Book n)
  | .call t c =>
    if Calls t₀ b t c then
      some { b with pending := Function.update b.pending t (some c),
                    owned := b.owned \ (takes c).toFinset }
    else none
  | .ret t answer => (b.pending t).bind fun c =>
    (if t = t₀ then b.turn.next codec answer else some b.turn).map fun turn =>
      { turn := turn, pending := Function.update b.pending t none,
        owned := b.owned ∪ (gives c answer).toFinset }
  | .environment _ => some b

theorem asked_proper {c : Call} (h : asked c = true) : Proper c := by
  cases c with
  | register filename =>
    intro hcheck
    simpa [asked, hcheck] using h
  | deregister filename => exact h
  | insert | delete | getFileInfoNode | getAllBackupInfo | getFileSize | getFilePreContent
    | putFilePreContent | readSegment
    | collect | clearFile | appendFile => trivial

/-- The metadata file holds a part of the text of the valid records only: the disk cut the write,
in the `close` that nobody looks at. -/
def CutShort (env : Env) (codec : Codec) (s : Store) : Prop :=
  ∃ infosStr written, codec.serialize (metadata (getAllBackupInfo s)) = some infosStr ∧
    written <+: infosStr ∧ written ≠ infosStr ∧ infosStr.length < env.streamBuffer ∧
    s.disk.files.lookup (metaPath env) = some written

structure Beside (env : Env) (s t : Store) : Prop where
  records : getAllBackupInfo t = getAllBackupInfo s
  dirty : t.isDirty = s.isDirty
  info : ∀ i, (t.nodes i).info = (s.nodes i).info
  clock : t.clock = s.clock
  file : t.disk.files.lookup (metaPath env) = s.disk.files.lookup (metaPath env)

section Beside
variable {env : Env} {codec : Codec} {s t : Store}

theorem beside_refl (s : Store) : Beside env s s := ⟨rfl, rfl, fun _ => rfl, rfl, rfl⟩

theorem beside_aside (h : Aside env s t) : Beside env s t :=
  ⟨h.records, h.isDirty, fun i => by rw [h.nodes], h.clock, h.file⟩

theorem beside_listOnly (h : ListOnly s t) : Beside env s t :=
  ⟨getAllBackupInfo_records h.toRecords, h.dirty, h.info, h.clock, by rw [h.disk]⟩

theorem beside_files {d : Disk} (h : d.files = s.disk.files) : Beside env s (withDisk s d) :=
  ⟨rfl, rfl, fun _ => rfl, rfl, congrArg (AList.lookup (metaPath env)) h⟩

theorem beside_wide (h : Beside env s t) (hw : Wide s) : Wide t :=
  ⟨fun i => by rw [h.info i]; exact hw.nodes i, by rw [h.clock]; exact hw.clock⟩

theorem beside_snapshot (h : Beside env s t) {root : List BackupInfoNode} (hs : Snapshot s root) :
    Snapshot t root := by
  refine ⟨hs.1, fun hclean => ?_⟩
  rw [h.records]
  exact hs.2 (h.dirty.symm.trans hclean)

theorem beside_progress (h : Beside env s t) {pass : Pass} (hp : Progress env codec ⟨s, pass⟩) :
    Progress env codec ⟨t, pass⟩ := by
  cases pass with
  | waiting =>
    intro hclean
    obtain ⟨content, items, hfile, hitems, hperm⟩ := hp (h.dirty.symm.trans hclean)
    refine ⟨content, items, h.file.trans hfile, hitems, ?_⟩
    rw [h.records]
    exact hperm
  | collected root => exact beside_snapshot h hp
  | serialized root infosStr => exact ⟨beside_snapshot h hp.1, hp.2⟩
  | cleared root infosStr =>
    exact ⟨beside_snapshot h hp.1, hp.2.1, fun hclean =>
      h.file.trans (hp.2.2 (h.dirty.symm.trans hclean))⟩

theorem beside_cutShort (h : Beside env s t) (hcut : CutShort env codec s) :
    CutShort env codec t := by
  obtain ⟨infosStr, written, hser, hpart⟩ := hcut
  refine ⟨infosStr, written, ?_, ?_⟩
  · rw [h.records]
    exact hser
  · rw [h.file]
    exact hpart

end Beside

theorem getFilePreContent_listOnly (filename : Bytes) (s : Store) :
    ListOnly s (DataManager.getFilePreContent filename s).2 := by
  unfold DataManager.getFilePreContent
  split
  · exact ListOnly.refl s
  · split_ifs
    · exact moveToHead_listOnly _ s
    · exact ListOnly.refl s

theorem putFilePreContent_listOnly (env : Env) (filename content : Bytes) (s : Store) :
    ListOnly s (DataManager.putFilePreContent env filename content s).2 := by
  unfold DataManager.putFilePreContent
  split
  · exact ListOnly.refl s
  · rename_i i hi
    split_ifs
    · exact moveToHead_listOnly i s
    · have hlink := linkHead_listOnly i (keptPrefix env content) s
      show ListOnly s (pushToHead env i (keptPrefix env content) s)
      unfold pushToHead
      dsimp only
      split_ifs
      · exact hlink.trans (removeTail_listOnly _)
      · exact hlink

section Served
variable {env : Env} {codec : Codec} {s : Store} {c : Call}

theorem serve_asked (hh : Housed env) (hw : Wide s) (hasked : asked c = true)
    (hnames : ∀ filename, (s.hash.lookup filename).isSome = true → isEntry filename = true)
    (hheld : ∀ filename, takes c = some filename → filename ∈ reserved s) :
    Beside env s (serve env c s).2 ∨
      (Wide (serve env c s).2 ∧ (serve env c s).2.isDirty = true) := by
  cases c with
  | register filename =>
    refine Or.inl ?_
    cases hcheck : checkFilename filename with
    | true =>
      have hentry : isEntry filename = true := by simpa [asked, hcheck] using hasked
      exact beside_aside (CleanFlag.aside_register env filename s (entry_not_meta hh hentry))
    | false =>
      rw [serve, register_refused env filename s (by simp [registrable, hcheck])]
      exact beside_refl s
  | deregister filename =>
    have hreserved : s.hash.lookup filename = some none := hheld filename rfl
    have hentry := hnames filename (by rw [hreserved]; rfl)
    exact Or.inl (beside_aside
      (CleanFlag.aside_deregister env filename s (entry_not_meta hh hentry) hreserved))
  | insert filename filesize =>
    have hrange := Bool.and_eq_true_iff.mp hasked
    obtain ⟨size, rfl⟩ : ∃ size : Int64, size.toInt = filesize :=
      ⟨Int64.ofInt filesize, Int64.toInt_ofInt_of_le (of_decide_eq_true hrange.1)
        (of_decide_eq_true hrange.2)⟩
    obtain ⟨hwide, hdirty | hsame⟩ := CleanFlag.insert_wide filename size s hw
    · exact Or.inr ⟨hwide, hdirty⟩
    · rw [serve, hsame]
      exact Or.inl (beside_refl s)
  | delete filename =>
    obtain ⟨hwide, hdirty | hsame⟩ := CleanFlag.delete_wide env filename s hw
    · exact Or.inr ⟨hwide, hdirty⟩
    · rw [serve, hsame]
      exact Or.inl (beside_refl s)
  | getFileInfoNode | getAllBackupInfo | getFileSize => exact Or.inl (beside_refl s)
  | getFilePreContent filename =>
    exact Or.inl (beside_listOnly (getFilePreContent_listOnly filename s))
  | putFilePreContent filename content =>
    exact Or.inl (beside_listOnly (putFilePreContent_listOnly env filename content s))
  | readSegment i filename startPos endPos =>
    exact Or.inl (beside_files (readSegment_files env filename startPos endPos s))
  | collect | clearFile | appendFile => cases hasked

theorem serve_names (env : Env) (s : Store) (hproper : Proper c)
    (hnames : ∀ filename, (s.hash.lookup filename).isSome = true → isEntry filename = true)
    (filename : Bytes)
    (h : ((serve env c s).2.hash.lookup filename).isSome = true) : isEntry filename = true := by
  have herase : ∀ gone, ((s.hash.erase gone).lookup filename).isSome = true →
    isEntry filename = true := by
    intro gone hin
    by_cases hname : filename = gone
    · rw [hname, AList.lookup_erase] at hin
      cases hin
    · rw [AList.lookup_erase_ne hname] at hin
      exact hnames filename hin
  have hinsert : ∀ new o, isEntry new = true →
    ((s.hash.insert new o).lookup filename).isSome = true →
      isEntry filename = true := by
    intro new o hnew hin
    by_cases hname : filename = new
    · rw [hname]
      exact hnew
    · rw [AList.lookup_insert_ne hname] at hin
      exact hnames filename hin
  cases c with
  | register name =>
    by_cases hreg : registrable name s = true
    · obtain ⟨-, hr⟩ := register_free env name s hreg
      have hentry := hproper (Bool.and_eq_true_iff.mp hreg).2
      rw [serve, hr] at h
      dsimp only at h
      split_ifs at h
      · exact hinsert name none hentry h
      · exact hnames filename h
    · rw [serve, register_refused env name s (by simpa using hreg)] at h
      exact hnames filename h
  | deregister name => exact herase name h
  | insert name filesize =>
    by_cases hreserved : s.hash.lookup name = some none
    · rw [serve, insert_reserved name filesize s hreserved] at h
      exact hinsert name _ (hnames name (by rw [hreserved]; rfl)) h
    · rw [serve, insert_refused name filesize s hreserved] at h
      exact hnames filename h
  | delete name =>
    cases hvalid : validNode name s with
    | none =>
      rw [serve, delete_refused env name s hvalid] at h
      exact hnames filename h
    | some i =>
      rw [serve_delete env hvalid] at h
      exact herase name h
  | getFilePreContent name =>
    rw [serve, (getFilePreContent_listOnly name s).hash] at h
    exact hnames filename h
  | putFilePreContent name content =>
    rw [serve, (putFilePreContent_listOnly env name content s).hash] at h
    exact hnames filename h
  | getFileInfoNode | getAllBackupInfo | getFileSize | readSegment | collect | clearFile
    | appendFile => exact hnames filename h

theorem serve_exchange (env : Env) (s : Store) (c : Call)
    (hheld : {filename | takes c = some filename} ⊆ reserved s) :
    Exchange {filename | takes c = some filename} (reserved s)
      {filename | gives c (serve env c s).1 = some filename}
      (reserved (serve env c s).2) := by
  have hnone : ∀ (o : Option Bytes), o = none → {filename | o = some filename} =
    (∅ : Set Bytes) := by
    rintro o rfl
    ext filename
    simp
  have hgone : ∀ filename, {name | some filename = some name} = ({filename} : Set Bytes) := by
    intro filename
    ext name
    simp [eq_comm]
  have hkept : takes c = none → gives c (serve env c s).1 = none →
    reserved (serve env c s).2 = reserved s →
      Exchange {filename | takes c = some filename} (reserved s)
        {filename | gives c (serve env c s).1 = some filename}
        (reserved (serve env c s).2) := by
    intro htakes hgives hsame
    rw [hnone _ htakes, hnone _ hgives, hsame]
    exact exchange_refl (Set.empty_subset _)
  cases c with
  | register filename =>
    have hreserves := NameOwnership.register_reserved env filename s
    rw [serve] at hkept ⊢
    cases hok : (DataManager.register env filename s).1 with
    | true =>
      rw [hok, if_pos rfl] at hreserves
      rw [hnone (takes (.register filename)) rfl,
        show gives (.register filename) (.done true) = some filename from rfl, hgone,
        hreserves.2.2]
      exact exchange_take (Set.disjoint_singleton_left.mpr hreserves.2.1)
    | false =>
      rw [hok, if_neg Bool.false_ne_true] at hreserves
      rw [hok] at hkept
      exact hkept rfl rfl hreserves
  | deregister filename =>
    rw [hnone (gives (.deregister filename) _) rfl,
      show takes (.deregister filename) = some filename from rfl, hgone, serve,
      NameOwnership.deregister_reserved]
    exact exchange_give
  | insert filename filesize =>
    rw [show takes (.insert filename filesize) = some filename from rfl, hgone] at hheld ⊢
    rw [hnone (gives (.insert filename filesize) _) rfl, serve,
      NameOwnership.insert_reserved_gone filename filesize s (hheld rfl)]
    exact exchange_give
  | delete filename => exact hkept rfl rfl (NameOwnership.delete_reserved env filename s)
  | getFilePreContent filename =>
    exact hkept rfl rfl (NameOwnership.reserved_same _ _
      (getFilePreContent_listOnly filename s).hash)
  | putFilePreContent filename content =>
    exact hkept rfl rfl (NameOwnership.reserved_same _ _
      (putFilePreContent_listOnly env filename content s).hash)
  | getFileInfoNode | getAllBackupInfo | getFileSize | readSegment | collect | clearFile
    | appendFile => exact hkept rfl rfl rfl

end Served

def Unserved (status : Status Call Answer) : Prop := ∀ answer, status ≠ .served answer

/-- How far a pass has come, as the service can tell: nothing is known after a failure, and
`cut` is behind a write that got to the disk in part. -/
inductive Place where
  | unknown
  | within (pass : Pass)
  | cut

def Place.Holds (env : Env) (codec : Codec) (s : Store) : Place → Prop
  | .unknown => True
  | .within pass => Progress env codec ⟨s, pass⟩
  | .cut => s.isDirty = false → CutShort env codec s

inductive At : Turn → Status Call Answer → Place → Prop
  | failed (status : Status Call Answer) (h : Unserved status) : At (.collect true) status .unknown
  | waiting (status : Status Call Answer) (h : Unserved status) :
      At (.collect false) status (.within .waiting)
  | short (status : Status Call Answer) (h : Unserved status) : At (.collect false) status .cut
  | collected (failed : Bool) (root : List BackupInfoNode) :
      At (.collect failed) (.served (.infos root)) (.within (.collected root))
  | serialized (infosStr : Bytes) (root : List BackupInfoNode) (status : Status Call Answer)
      (h : Unserved status) :
      At (.clear infosStr) status (.within (.serialized root infosStr))
  | cleared (infosStr : Bytes) (root : List BackupInfoNode) :
      At (.clear infosStr) (.served (.done true)) (.within (.cleared root infosStr))
  | uncleared (infosStr : Bytes) : At (.clear infosStr) (.served (.done false)) .unknown
  | writing (infosStr : Bytes) (root : List BackupInfoNode) (status : Status Call Answer)
      (h : Unserved status) :
      At (.append infosStr) status (.within (.cleared root infosStr))
  | written (infosStr : Bytes) : At (.append infosStr) (.served (.done true)) (.within .waiting)
  | writtenShort (infosStr : Bytes) : At (.append infosStr) (.served (.done true)) .cut
  | unwritten (infosStr : Bytes) : At (.append infosStr) (.served (.done false)) .unknown

def Stage (env : Env) (codec : Codec) (turn : Turn) (status : Status Call Answer)
    (s : Store) : Prop :=
  ∃ place, At turn status place ∧ place.Holds env codec s

section Turns
variable {env : Env} {codec : Codec} {turn : Turn} {status : Status Call Answer} {s : Store}

theorem unserved_idle : Unserved .idle := by
  intro answer h
  cases h

theorem unserved_called (c : Call) : Unserved (.called c) := by
  intro answer h
  cases h

theorem stage_unknown (h : At turn status .unknown) : Stage env codec turn status s :=
  ⟨.unknown, h, trivial⟩

theorem stage_waits (h : Stage env codec turn status s) (hstatus : Unserved status)
    {status' : Status Call Answer}
    (hstatus' : Unserved status') : Stage env codec turn status' s := by
  obtain ⟨place, hat, hp⟩ := h
  cases hat with
  | failed => exact ⟨_, .failed _ hstatus', hp⟩
  | waiting => exact ⟨_, .waiting _ hstatus', hp⟩
  | short => exact ⟨_, .short _ hstatus', hp⟩
  | serialized infosStr root => exact ⟨_, .serialized _ root _ hstatus', hp⟩
  | writing infosStr root => exact ⟨_, .writing _ root _ hstatus', hp⟩
  | collected | cleared | uncleared | written | writtenShort | unwritten =>
    exact absurd rfl (hstatus _)

theorem holds_append (hcodec : Reads codec) (hw : Wide s) {infosStr : Bytes}
    {root : List BackupInfoNode}
    (hprogress : Progress env codec ⟨s, .cleared root infosStr⟩)
    (hok : (appendContent env (metaFile env) infosStr s.disk).1 = true) :
    ∃ place, At (.append infosStr) (.served (.done true)) place ∧
      place.Holds env codec (withDisk s (appendContent env (metaFile env) infosStr s.disk).2) := by
  by_cases hall : s.disk.takes infosStr = infosStr
  · exact ⟨_, .written infosStr,
      (CleanFlag.inv_store env codec hcodec _ root infosStr rfl ⟨hw, hprogress⟩
        ⟨hok, hall⟩).progress⟩
  · refine ⟨_, .writtenShort infosStr, fun hclean =>
      ⟨infosStr, s.disk.takes infosStr, ?_, takes_front _ _, hall, ?_, ?_⟩⟩
    · rw [← hprogress.2.1, hprogress.1.2 hclean]
      rfl
    · by_contra hlong
      exact hall (appendContent_honest env _ infosStr s.disk (not_lt.mp hlong) hok)
    · have hfile := appendContent_true env _ infosStr s.disk hok
      have hempty : s.disk.files.lookup (cstr (metaFile env)) = some [] := hprogress.2.2 hclean
      rw [hempty] at hfile
      exact hfile

theorem stage_serve (hcodec : Reads codec) (hw : Wide s)
    (h : Stage env codec turn (.called turn.call) s) :
    Stage env codec turn (.served (serve env turn.call s).1) (serve env turn.call s).2 ∧
      Wide (serve env turn.call s).2 := by
  refine ⟨?_, ⟨?_, ?_⟩⟩
  · obtain ⟨place, hat, hp⟩ := h
    cases hat with
    | failed | waiting | short =>
      exact ⟨_, .collected _ _, CleanFlag.snapshot_wide s hw, fun _ => rfl⟩
    | serialized infosStr root =>
      have hprogress : Progress env codec ⟨s, .serialized root infosStr⟩ := hp
      simp only [Turn.call, serve]
      cases hok : (clear env (metaFile env) s.disk).1 with
      | true =>
        exact ⟨_, .cleared infosStr root,
          (CleanFlag.inv_clear env codec _ root infosStr rfl ⟨hw, hprogress⟩ hok).progress⟩
      | false => exact stage_unknown (.uncleared infosStr)
    | writing infosStr root =>
      simp only [Turn.call, serve]
      cases hok : (appendContent env (metaFile env) infosStr s.disk).1 with
      | true => exact holds_append hcodec hw hp hok
      | false => exact stage_unknown (.unwritten infosStr)
  · cases turn <;> exact hw.nodes
  · cases turn <;> exact hw.clock

theorem stage_ret {answer : Answer} {turn' : Turn} (h : Stage env codec turn (.served answer) s)
    (hnext : turn.next codec answer = some turn') : Stage env codec turn' .idle s := by
  obtain ⟨place, hat, hp⟩ := h
  cases hat with
  | failed _ hstatus => exact absurd rfl (hstatus _)
  | waiting _ hstatus => exact absurd rfl (hstatus _)
  | short _ hstatus => exact absurd rfl (hstatus _)
  | serialized _ _ _ hstatus => exact absurd rfl (hstatus _)
  | writing _ _ _ hstatus => exact absurd rfl (hstatus _)
  | collected failed root =>
    rw [Turn.next] at hnext
    cases hser : codec.serialize (metadata root) with
    | none =>
      rw [hser] at hnext
      cases hnext
      exact stage_unknown (.failed _ unserved_idle)
    | some infosStr =>
      rw [hser] at hnext
      cases hnext
      exact ⟨_, .serialized infosStr root _ unserved_idle, hp, hser⟩
  | cleared infosStr root =>
    cases hnext
    exact ⟨_, .writing infosStr root _ unserved_idle, hp⟩
  | uncleared infosStr =>
    cases hnext
    exact stage_unknown (.failed _ unserved_idle)
  | written infosStr =>
    cases hnext
    exact ⟨_, .waiting _ unserved_idle, hp⟩
  | writtenShort infosStr =>
    cases hnext
    exact ⟨_, .short _ unserved_idle, hp⟩
  | unwritten infosStr =>
    cases hnext
    exact stage_unknown (.failed _ unserved_idle)

theorem stage_saved (h : Stage env codec (.collect false) status s) (hstatus : Unserved status)
    (hclean : s.isDirty = false) :
    Saved env codec s s.disk ∨ CutShort env codec s := by
  obtain ⟨place, hat, hp⟩ := h
  cases hat with
  | waiting => exact Or.inl (hp hclean)
  | short => exact Or.inr (hp hclean)
  | collected => exact absurd rfl (hstatus _)

theorem stage_beside {t : Store} (h : Stage env codec turn status s) (hb : Beside env s t) :
    Stage env codec turn status t := by
  obtain ⟨place, hat, hp⟩ := h
  refine ⟨place, hat, ?_⟩
  cases place with
  | unknown => trivial
  | within pass => exact beside_progress hb hp
  | cut => exact fun hclean => beside_cutShort hb (hp (hb.dirty.symm.trans hclean))

theorem stage_dirty {t : Store} (h : Stage env codec turn status s) (hw : Wide s) (hwide : Wide t)
    (hdirty : t.isDirty = true) :
    Stage env codec turn status t := by
  obtain ⟨place, hat, hp⟩ := h
  refine ⟨place, hat, ?_⟩
  cases place with
  | unknown => trivial
  | within pass => exact (CleanFlag.inv_dirty env codec ⟨s, pass⟩ t ⟨hw, hp⟩ hwide hdirty).progress
  | cut =>
    intro hclean
    rw [hdirty] at hclean
    cases hclean

end Turns

inductive Pends : Option Call → Status Call Answer → Prop
  | idle : Pends none .idle
  | called (c : Call) : Pends (some c) (.called c)
  | served (c : Call) (answer : Answer) : Pends (some c) (.served answer)

/-- The name that goes with a call: up to its moment the one that it takes, after it
the one that it gives. -/
def holding : Option Call → Status Call Answer → Set Bytes
  | some c, .called _ => {filename | takes c = some filename}
  | some c, .served answer => {filename | gives c answer = some filename}
  | _, _ => ∅

def holdings (b : Book n) (a : Service n Call Store Answer) : Option (Fin n) → Set Bytes
  | none => {filename | filename ∈ b.owned}
  | some t => holding (b.pending t) (a.clients t)

structure Client (t₀ : Fin n) (turn : Turn) (t : Fin n) (pending : Option Call)
    (status : Status Call Answer) : Prop where
  pends : Pends pending status
  storage : t = t₀ → ∀ c, pending = some c → c = turn.call
  others : t ≠ t₀ → ∀ c, pending = some c → asked c = true

structure Kept (env : Env) (codec : Codec) (t₀ : Fin n) (b : Book n)
    (a : Service n Call Store Answer) : Prop where
  clients : ∀ t, Client t₀ b.turn t (b.pending t) (a.clients t)
  names : ∀ filename, (a.state.hash.lookup filename).isSome = true → isEntry filename = true
  shared : SharedOut (holdings b a) (reserved a.state)
  wide : Wide a.state
  stage : Stage env codec b.turn (a.clients t₀) a.state

theorem client_idle (t₀ : Fin n) (turn : Turn) (t : Fin n) : Client t₀ turn t none .idle where
  pends := .idle
  storage := fun _ c hc => by cases hc
  others := fun _ c hc => by cases hc

theorem update_both {α β : Type} {P : Fin n → α → β → Prop} {f : Fin n → α} {g : Fin n → β}
    {t : Fin n} {x : α}
    {y : β} (ht : P t x y) (h : ∀ u, u ≠ t → P u (f u) (g u)) (u : Fin n) :
    P u (Function.update f t x u) (Function.update g t y u) := by
  by_cases hu : u = t
  · rw [hu, Function.update_self, Function.update_self]
    exact ht
  · rw [Function.update_of_ne hu, Function.update_of_ne hu]
    exact h u hu

theorem holdings_turn (b : Book n) (a : Service n Call Store Answer) (turn : Turn) (t : Fin n)
    (o : Option Call)
    (owned : Finset Bytes) (status : Status Call Answer) (s : Store) :
    holdings { turn := turn, pending := Function.update b.pending t o, owned := owned }
      { a.turn t status with state := s } =
      Function.update (Function.update (holdings b a) none {filename | filename ∈ owned}) (some t)
        (holding o status) := by
  funext i
  cases i with
  | none =>
    rw [Function.update_of_ne (Option.some_ne_none t).symm, Function.update_self]
    rfl
  | some u =>
    refine update_both (P := fun u o' status' => holding o' status' =
      Function.update (Function.update (holdings b a) none {filename | filename ∈ owned}) (some t)
        (holding o status) (some u))
      ?_ (fun v hv => ?_) u
    · rw [Function.update_self]
    · rw [Function.update_of_ne (mt Option.some.inj hv),
        Function.update_of_ne (Option.some_ne_none v)]
      rfl

section Steps
variable {env : Env} {codec : Codec} {t₀ t : Fin n} {b : Book n} {a : Service n Call Store Answer}
  (hk : Kept env codec t₀ b a)
include hk

theorem kept_idle (ht : a.clients t = .idle) : b.pending t = none := by
  have h := (hk.clients t).pends
  rw [ht] at h
  generalize b.pending t = o at h ⊢
  cases h with
  | idle => rfl

theorem kept_called {c : Call} (ht : a.clients t = .called c) : b.pending t = some c := by
  have h := (hk.clients t).pends
  rw [ht] at h
  generalize b.pending t = o at h ⊢
  cases h with
  | called => rfl

theorem kept_call {c : Call} {b' : Book n} (ht : a.clients t = .idle)
    (hsee : see codec t₀ b (.call t c) = some b') :
    Kept env codec t₀ b' (a.turn t (.called c)) := by
  have hpending := kept_idle hk ht
  simp only [see] at hsee
  split_ifs at hsee with hallowed
  cases hsee
  have hsub : (takes c).toFinset ⊆ b.owned := by
    by_cases htt : t = t₀
    · rw [hallowed.1 htt]
      cases b.turn <;> exact Finset.empty_subset _
    · exact (hallowed.2 htt).2
  constructor
  · refine update_both ⟨.called c, fun htt d hd => ?_, fun htt d hd => ?_⟩ fun u _ => hk.clients u
    · rw [← Option.some.inj hd]
      exact hallowed.1 htt
    · rw [← Option.some.inj hd]
      exact (hallowed.2 htt).1
  · exact hk.names
  · -- the upload gives up the name that its call takes
    have htaken : {filename | takes c = some filename} ⊆ holdings b a none :=
      fun filename hin => hsub (Option.mem_toFinset.mpr hin)
    have hhand := sharedOut_handed hk.shared (Option.some_ne_none t).symm htaken
    have hholdings := holdings_turn b a b.turn t (some c) (b.owned \ (takes c).toFinset)
      (.called c) a.state
    refine (hholdings.trans ?_).symm ▸ hhand
    congr 1
    · congr 1
      ext filename
      simp [holdings]
    · simp [holdings, holding, hpending]
  · exact hk.wide
  · show Stage env codec b.turn ((a.turn t (.called c)).clients t₀) a.state
    by_cases htt : t₀ = t
    · rw [htt, Service.turn_self]
      exact stage_waits (ht ▸ htt ▸ hk.stage) unserved_idle (unserved_called c)
    · rw [Service.turn_other a _ htt]
      exact hk.stage

theorem kept_serve (hh : Housed env) (hcodec : Reads codec) {c : Call}
    (ht : a.clients t = .called c) :
    Kept env codec t₀ b { a.turn t (.served (serve env c a.state).1) with
      state := (serve env c a.state).2 } := by
  have hpending := kept_called hk ht
  have hclient := hk.clients t
  have hproper : Proper c := by
    by_cases htt : t = t₀
    · rw [hclient.storage htt c hpending]
      cases b.turn <;> trivial
    · exact asked_proper (hclient.others htt c hpending)
  have hholding : holdings b a (some t) = {filename | takes c = some filename} := by
    rw [holdings, hpending, ht, holding]
  have hheld : {filename | takes c = some filename} ⊆ reserved a.state :=
    hholding ▸ held_sub hk.shared (some t)
  have hpass : Stage env codec b.turn ((a.turn t (.served (serve env c a.state).1)).clients t₀)
    (serve env c a.state).2 ∧
      Wide (serve env c a.state).2 := by
    by_cases htt : t₀ = t
    · subst htt
      obtain rfl := hclient.storage rfl c hpending
      rw [Service.turn_self]
      exact stage_serve hcodec hk.wide (ht ▸ hk.stage)
    · rw [Service.turn_other a _ htt]
      rcases serve_asked hh hk.wide (hclient.others (Ne.symm htt) c hpending) hk.names
        hheld with hbeside | ⟨hwide, hdirty⟩
      · exact ⟨stage_beside hk.stage hbeside, beside_wide hbeside hk.wide⟩
      · exact ⟨stage_dirty hk.stage hk.wide hwide hdirty, hwide⟩
  constructor
  · have hupdate := update_both (P := Client t₀ b.turn) (f := b.pending) (g := a.clients)
      (x := some c)
      (y := .served (serve env c a.state).1)
        ⟨.served c _, hpending ▸ hclient.storage, hpending ▸ hclient.others⟩
      fun u _ => hk.clients u
    rw [← hpending, Function.update_eq_self] at hupdate
    exact hupdate
  · exact serve_names env a.state hproper hk.names
  · have hexchange := serve_exchange env a.state c hheld
    rw [← hholding] at hexchange
    have hshared := sharedOut_exchange hk.shared (some t) hexchange
    have hholdings := holdings_turn b a b.turn t (some c) b.owned (.served (serve env c a.state).1)
      (serve env c a.state).2
    rw [← hpending, Function.update_eq_self] at hholdings
    refine (hholdings.trans ?_).symm ▸ hshared
    congr 1
    · exact Function.update_eq_self none (holdings b a)
    · rw [hpending, holding]
  · exact hpass.2
  · exact hpass.1

theorem kept_ret {answer : Answer} {b' : Book n} (ht : a.clients t = .served answer)
    (hsee : see codec t₀ b (.ret t answer) = some b') : Kept env codec t₀ b' (a.turn t .idle) := by
  obtain ⟨c, hpending, hturn⟩ := Option.bind_eq_some_iff.mp hsee
  obtain ⟨turn, hnext, rfl⟩ := Option.map_eq_some_iff.mp hturn
  have hholding : holdings b a (some t) = {filename | gives c answer = some filename} := by
    rw [holdings, hpending, ht, holding]
  constructor
  · refine update_both (client_idle t₀ turn t) fun u hu => ?_
    by_cases hut : u = t₀
    · rw [if_neg (hut ▸ hu.symm), Option.some.injEq] at hnext
      exact hnext ▸ hk.clients u
    · exact ⟨(hk.clients u).pends, fun h => absurd h hut, (hk.clients u).others⟩
  · exact hk.names
  · -- the upload has the name from its call
    have hhand := sharedOut_handed hk.shared (i := some t) (j := none) (Option.some_ne_none t)
      (Set.Subset.refl _)
    have hholdings := holdings_turn b a turn t none (b.owned ∪ (gives c answer).toFinset)
      .idle a.state
    refine (hholdings.trans ?_).symm ▸ hhand
    rw [Function.update_comm (Option.some_ne_none t)]
    congr 1
    · congr 1
      rw [hholding]
      ext filename
      simp [holdings, or_comm]
    · rw [Set.sdiff_self]
      rfl
  · exact hk.wide
  · show Stage env codec turn ((a.turn t .idle).clients t₀) a.state
    by_cases htt : t = t₀
    · rw [if_pos htt] at hnext
      rw [htt, Service.turn_self]
      exact stage_ret (ht ▸ htt ▸ hk.stage) hnext
    · rw [if_neg htt, Option.some.injEq] at hnext
      rw [Service.turn_other a _ (Ne.symm htt), ← hnext]
      exact hk.stage

theorem kept_upload (hh : Housed env) {u : Upload} {s : Store}
    (hs : upload env u a.state = some s) :
    Kept env codec t₀ b { a with state := s } := by
  unfold upload at hs
  split_ifs at hs with hreserved
  cases hs
  have hentry := hk.names u.filename (by rw [hreserved]; rfl)
  have hbeside := beside_aside
    (CleanFlag.aside_append env u.filename u.content a.state (entry_not_meta hh hentry))
  exact ⟨hk.clients, hk.names, hk.shared, beside_wide hbeside hk.wide,
    stage_beside hk.stage hbeside⟩

theorem kept_happen (hh : Housed env) (hcodec : Reads codec) {m : Moment n Call Upload Answer}
    {a' : Service n Call Store Answer}
    {b' : Book n} (ha : happen (serve env) (upload env) a m = some a')
    (hb : run (see codec t₀) b (shown m).toList = some b') :
    Kept env codec t₀ b' a' := by
  cases m with
  | call t c =>
    simp only [happen] at ha
    split at ha
    · rename_i ht
      cases ha
      obtain ⟨b₁, hsee, hrest⟩ := Option.bind_eq_some_iff.mp hb
      cases hrest
      exact kept_call hk ht hsee
    · cases ha
  | serve t =>
    simp only [happen] at ha
    split at ha
    · rename_i c ht
      cases ha
      cases hb
      exact kept_serve hk hh hcodec ht
    · cases ha
  | ret t answer =>
    simp only [happen] at ha
    split at ha
    · rename_i r ht
      split_ifs at ha with hr
      cases ha
      obtain ⟨b₁, hsee, hrest⟩ := Option.bind_eq_some_iff.mp hb
      cases hrest
      exact kept_ret hk (hr ▸ ht) hsee
    · cases ha
  | environment u =>
    obtain ⟨s, hs, rfl⟩ := Option.map_eq_some_iff.mp ha
    obtain ⟨b₁, hsee, hrest⟩ := Option.bind_eq_some_iff.mp hb
    cases hsee
    cases hrest
    exact kept_upload hk hh hs

end Steps

structure Begins (env : Env) (codec : Codec) (s : Store) : Prop where
  names : ∀ filename, (s.hash.lookup filename).isSome = true → isEntry filename = true
  unreserved : ∀ filename, s.hash.lookup filename ≠ some none
  wide : Wide s
  saved : s.isDirty = false → Saved env codec s s.disk

section Runs
variable {env : Env} {codec : Codec} {t₀ : Fin n}

theorem kept_start {s : Store} (h : Begins env codec s) :
    Kept env codec t₀ Book.start (Service.start s) where
  clients := client_idle t₀ (.collect false)
  names := h.names
  shared := by
    have hnone : ∀ i, holdings (Book.start (n := n)) (Service.start s) i = ∅ := by
      intro i
      cases i with
      | none => exact Set.eq_empty_of_forall_notMem fun filename hin =>
        Finset.notMem_empty filename hin
      | some t => rfl
    constructor
    · rw [Set.iUnion_eq_empty.mpr hnone]
      exact Set.eq_empty_of_forall_notMem h.unreserved
    · intro i j _
      rw [hnone i]
      exact Set.empty_disjoint _
  wide := h.wide
  stage := by
    exact ⟨_, .waiting _ unserved_idle, h.saved⟩

theorem kept_run (hh : Housed env) (hcodec : Reads codec) {ms : List (Moment n Call Upload Answer)}
    {a a' : Service n Call Store Answer} {b b' : Book n} (hk : Kept env codec t₀ b a)
    (ha : run (happen (serve env) (upload env)) a ms = some a')
    (hb : run (see codec t₀) b (ms.filterMap shown) = some b') :
    Kept env codec t₀ b' a' := by
  induction ms generalizing a b with
  | nil =>
    cases ha
    cases hb
    exact hk
  | cons m ms ih =>
    obtain ⟨a₁, hm, hrest⟩ := Option.bind_eq_some_iff.mp ha
    have hsplit : (m::ms).filterMap shown = (shown m).toList ++ ms.filterMap shown := by
      cases hshown : shown m with
      | none => rw [List.filterMap_cons_none hshown]; rfl
      | some x => rw [List.filterMap_cons_some hshown]; rfl
    rw [hsplit, run_append] at hb
    obtain ⟨b₁, hsee, hlater⟩ := Option.bind_eq_some_iff.mp hb
    exact ih (kept_happen hk hh hcodec hm hsee) hrest hlater

theorem seen_proper {sights : List (Sight n Call Upload Answer)} {b b' : Book n}
    (hb : run (see codec t₀) b sights = some b')
    (t : Fin n) (c : Call) (hc : .call t c ∈ sights) : Proper c := by
  induction sights generalizing b with
  | nil => cases hc
  | cons x xs ih =>
    obtain ⟨b₁, hsee, hrest⟩ := Option.bind_eq_some_iff.mp hb
    rcases List.mem_cons.mp hc with rfl | hc
    · simp only [see] at hsee
      split_ifs at hsee with hallowed
      by_cases htt : t = t₀
      · rw [hallowed.1 htt]
        cases b.turn <;> trivial
      · exact asked_proper (hallowed.2 htt).1
    · exact ih hrest hc

theorem asleep_collects {w : System n Lock Store Answer}
    {service : Service n Call Store Answer} {t : Fin n}
    (hrefines : Refines (discipline env) (serve env) w service)
    (horderly : Orderly rank Store.isDirty w)
    (hsleeps : sleeps (w.threads t)) : service.clients t = .called .collect ∧
      (w.threads t).held = [] := by
  obtain ⟨held, k, m, rest, ht⟩ := sleeps_cases hsleeps
  obtain ⟨c, hclient, rfl⟩ := refines_asleep hrefines ht
  have hgood := horderly.good t
  rw [ht] at hgood ⊢
  exact ⟨hclient, hgood.1⟩

/-- Where nothing goes on any more and the storage thread is in a call, every other call has
returned, the flag is clean, and unless the last pass of the storage thread failed the
metadata file holds the valid records, or what a write that was cut short left of them. -/
theorem rest_saved (hh : Housed env) (hcodec : Reads codec) (s : Store)
    (hbegins : Begins env codec s)
    (events : List (Event n Call Upload Answer)) (b : Book n)
    (hbook : run (see codec t₀) Book.start (events.filterMap seen) = some b)
    (w : System n Lock Store Answer)
    (hrun : run (next env) (System.start s) events = some w)
    (hstuck : Stuck (steps env) Store.isDirty (upload env) w)
    (hbusy : w.threads t₀ ≠ .idle) :
    (∀ t, t ≠ t₀ → w.threads t = .idle) ∧ w.state.isDirty = false ∧
      ∃ failed, b.turn = .collect failed ∧
        (failed = false → Saved env codec w.state w.state.disk ∨ CutShort env codec w.state) := by
  have hproper : ∀ t c, Event.call t c ∈ events → Proper c := fun t c hc =>
    seen_proper hbook t c (List.mem_filterMap.mpr ⟨_, hc, rfl⟩)
  obtain ⟨moments, service, hservice, hshown, hrefines⟩ :=
    calls_refine hh hbegins.names hproper hrun
  have hkept := kept_run hh hcodec (kept_start hbegins) hservice (hshown ▸ hbook)
  have horderly := (throughout_run (calm_calls env s events) hrun).orderly
  have hdone := stuck_done hstuck horderly
  have hothers : ∀ t, t ≠ t₀ → w.threads t = .idle := by
    intro t ht
    refine (hdone t).resolve_right fun h => ?_
    have hasked := (hkept.clients t).others ht _
      (kept_called hkept (asleep_collects hrefines horderly h.1).1)
    cases hasked
  obtain ⟨hsleeps, hclean⟩ := (hdone t₀).resolve_left hbusy
  obtain ⟨hclient, hheld⟩ := asleep_collects hrefines horderly hsleeps
  have hsame : service.state = w.state := refines_same hrefines fun t => by
    by_cases ht : t = t₀
    · rw [ht, hheld]
    · rw [hothers t ht]
      rfl
  refine ⟨hothers, hclean, ?_⟩
  have hcall := (hkept.clients t₀).storage rfl _ (kept_called hkept hclient)
  have hstage := hkept.stage
  rw [hclient, hsame] at hstage
  generalize b.turn = turn at hcall hstage ⊢
  cases turn with
  | clear infosStr => cases hcall
  | append infosStr => cases hcall
  | collect failed =>
    refine ⟨failed, rfl, ?_⟩
    rintro rfl
    exact stage_saved hstage (unserved_called _) hclean

end Runs

/-- An upload while the storage thread sleeps, and the pass that follows it. -/
def uploadEvents (t₀ t : Fin 2) : List (Event 2 Call Upload Answer) :=
  [.call t₀ .collect, .step t₀, .step t₀, .call t (.register (bytes "f")), .step t, .step t,
    .step t, .step t, .step t, .step t,
    .step t, .ret t (.done true), .environment ⟨bytes "f", bytes "hello"⟩,
      .call t (.insert (bytes "f") 5), .step t, .step t,
    .step t, .step t, .step t, .step t, .ret t (.done true), .step t₀, .step t₀, .step t₀, .step t₀,
      .step t₀, .step t₀,
    .ret t₀ (.infos [helloInfo]), .call t₀ .clearFile, .step t₀, .ret t₀ (.done true),
      .call t₀ (.appendFile helloText),
    .step t₀, .ret t₀ (.done true), .call t₀ .collect, .step t₀, .step t₀]

theorem firstProcess_begins : Begins plainEnv helloCodec (firstProcess []).store where
  names := fun filename h => by cases h
  unreserved := fun filename h => by cases h
  wide := (firstProcess_start []).wide
  saved := (firstProcess_start []).saved

theorem rest_saved_upload : ∃ (b : Book 2) (w : System 2 Lock Store Answer),
    run (see helloCodec 0) Book.start ((uploadEvents 0 1).filterMap seen) = some b ∧
      run (next plainEnv) (System.start (firstProcess []).store) (uploadEvents 0 1) = some w ∧
      b.turn = .collect false ∧
      (Saved plainEnv helloCodec w.state w.state.disk ∨ CutShort plainEnv helloCodec w.state) := by
  have hseen : (run (see helloCodec 0) Book.start ((uploadEvents 0 1).filterMap seen)).isSome =
    true := by decide +kernel
  have hruns : (run (next plainEnv) (System.start (firstProcess []).store)
    (uploadEvents 0 1)).isSome = true := by decide +kernel
  have hrest : ∀ t : Fin 2,
      ((run (next plainEnv) (System.start (firstProcess []).store) (uploadEvents 0 1)).get
        hruns).threads t = .idle ∨
        sleeps (((run (next plainEnv) (System.start (firstProcess []).store) (uploadEvents 0 1)).get
          hruns).threads t) := by
    decide +kernel +revert
  have hbusy : ((run (next plainEnv) (System.start (firstProcess []).store) (uploadEvents 0 1)).get
    hruns).threads 0 ≠ .idle := by
    decide +kernel +revert
  have hturn : ((run (see helloCodec 0) Book.start ((uploadEvents 0 1).filterMap seen)).get
    hseen).turn = .collect false := by
    decide +kernel +revert
  have hbook := Option.some_get hseen
  have hrun := Option.some_get hruns
  generalize (run (see helloCodec 0) Book.start ((uploadEvents 0 1).filterMap seen)).get
    hseen = b at hturn hbook
  generalize (run (next plainEnv) (System.start (firstProcess []).store) (uploadEvents 0 1)).get
    hruns = w at hrest hbusy hrun
  obtain ⟨-, -, failed, hfailed, hsaved⟩ :=
    rest_saved plainEnv_housed helloCodec_reads _ firstProcess_begins (uploadEvents 0 1) b
    hbook.symm w hrun.symm (stuck_resting hrest) hbusy
  rw [hturn, Turn.collect.injEq] at hfailed
  exact ⟨b, w, hbook.symm, hrun.symm, hturn, hsaved hfailed.symm⟩

end CloudBackup.StorageThread
