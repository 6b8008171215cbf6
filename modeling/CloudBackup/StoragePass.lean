import CloudBackup.Restart
import CloudBackup.RunInvariants

/-!
# Storage passes and crashes

Calls on the store run between the steps of the thread that writes the
metadata file: the snapshot taken under the lock, the truncation, the write.
A crash may come at any point, also with a part of the text written, and is
followed by a start from the disk it leaves. Beside the state stand the
records that were in a completely written file and were not deleted since.
-/

set_option autoImplicit false

namespace CloudBackup.StoragePass
open CloudBackup.ByteStrings CloudBackup.JsonCodec CloudBackup.FilePath CloudBackup.BackupDirectory
open CloudBackup.FileStore CloudBackup.DataManager CloudBackup.HttpCallbacks
  CloudBackup.MetadataFile
open CloudBackup.Restart CloudBackup.RunInvariants

/-- Where `FileStorageThread` stands. `pending` is what a completed pass adds
to the saved records; `exited` is a process whose start failed. -/
inductive Phase where
  | waiting
  | collected (infos pending : List BackupInfoNode)
  | cleared (infos : List BackupInfoNode) (text : Bytes) (pending : List BackupInfoNode)
  | exited

structure Site where
  store : Store
  phase : Phase
  saved : List BackupInfoNode

def forget (filename : Bytes) (rs : List BackupInfoNode) : List BackupInfoNode :=
  rs.filter fun r => r.filename ≠ filename

def Phase.forget (filename : Bytes) : Phase → Phase
  | .collected infos pending => .collected infos (StoragePass.forget filename pending)
  | .cleared infos text pending => .cleared infos text (StoragePass.forget filename pending)
  | phase => phase

def Phase.pending : Phase → List BackupInfoNode
  | .collected _ pending => pending
  | .cleared _ _ pending => pending
  | _ => []

inductive Act where
  | register (filename : Bytes)
  | append (filename content : Bytes)
  | insert (filename : Bytes) (size : Int64)
  | delete (filename : Bytes)
  | deregister (filename : Bytes)
  | collect
  | clear
  | store
  | crash (written : ℕ)

/-- A call on the store of a running process. -/
def call (f : Store → Store) (w : Site) : Option Site :=
  match w.phase with
  | .exited => none
  | _ => some { w with store := f w.store }

def collectStep (w : Site) : Option Site :=
  match w.phase with
  | .waiting =>
    if w.store.isDirty then
      let infos := getAllBackupInfo w.store
      some { w with store := { w.store with isDirty := false }, phase := .collected infos infos }
    else none
  | _ => none

/-- `Serialize`, then `Clear`. -/
def clearStep (env : Env) (codec : Codec) (w : Site) : Option Site :=
  match w.phase with
  | .collected infos pending =>
    match codec.serialize (metadata infos) with
    | none => some { w with phase := .waiting }
    | some text =>
      let c := FileStore.clear env (metaFile env) w.store.disk
      some { w with
        store := { w.store with disk := c.2 }
        phase := if c.1 then .cleared infos text pending else .waiting }
  | _ => none

def storeStep (env : Env) (w : Site) : Option Site :=
  match w.phase with
  | .cleared _ text pending =>
    let a := appendContent env (metaFile env) text w.store.disk
    some { w with
      store := { w.store with disk := a.2 }
      phase := .waiting
      saved := if Lands env (metaFile env) text w.store.disk then w.saved ++ pending else w.saved }
  | _ => none

/-- The disk a crash leaves; of a write in progress some bytes may be there. -/
def crashDisk (env : Env) (written : ℕ) (w : Site) : Disk :=
  match w.phase with
  | .cleared _ text _ => w.store.disk.write (metaFile env) (text.take written)
  | _ => w.store.disk

def crashStep (env : Env) (codec : Codec) (written : ℕ) (w : Site) : Site :=
  let c := construct env codec w.store.clock (crashDisk env written w)
  { w with store := c.2, phase := if c.1 then .waiting else .exited }

def step (env : Env) (codec : Codec) (w : Site) : Act → Option Site
  | .register filename => call (fun s => (DataManager.register env filename s).2) w
  | .append filename content =>
    if w.store.hash.lookup filename = some none then
      call (fun s => { s with disk :=
        (appendContent env (targetFile env filename) content s.disk).2 }) w
    else none
  | .insert filename size => call (fun s => (DataManager.insert filename size.toInt s).2) w
  | .delete filename =>
    (call (fun s => (DataManager.delete env filename s).2) w).map fun w =>
      { w with phase := w.phase.forget filename, saved := forget filename w.saved }
  | .deregister filename => call (fun s => (DataManager.deregister env filename s).2) w
  | .collect => collectStep w
  | .clear => clearStep env codec w
  | .store => storeStep env w
  | .crash written => some (crashStep env codec written w)

/-- Names without NUL are registered, and only names registered and not yet
inserted are deregistered. -/
def Proper (w : Site) : Act → Prop
  | .register filename => registrable filename w.store = true → 0 ∉ filename
  | .deregister filename => w.store.hash.lookup filename = some none
  | _ => True

/-- Every saved record is there, with its file. -/
def Kept (env : Env) (w : Site) : Prop := ∀ r ∈ w.saved, Recorded w.store r ∧
  (w.store.disk.files.lookup (targetPath env r.filename)).isSome = true

/-- The metadata file is complete and not longer than `GetContent` reads. -/
def Whole (env : Env) (codec : Codec) (d : Disk) : Prop := ∃ infos text, (∀ r ∈ infos, Fits r) ∧
  codec.serialize (metadata infos) = some text ∧ d.files.lookup (metaPath env) = some text ∧
  text.length ≤ maxContent

/-- A crash finds nothing saved, or a complete metadata file that can be read
and no saved record of negative size. -/
def CrashSafe (env : Env) (codec : Codec) (w : Site) : Act → Prop
  | .crash written => w.saved = [] ∨ (Whole env codec (crashDisk env written w) ∧
      w.store.disk.next.1 = none ∧ ∀ r ∈ w.saved, 0 ≤ r.size)
  | _ => True

structure Start (env : Env) (w : Site) : Prop where
  empty : w.store.hash = ∅
  waiting : w.phase = .waiting
  saved : w.saved = []
  file : w.store.disk.files.lookup (metaPath env) = some (bytes "null")
  clock : ∀ n, Int64Range (w.store.clock n)

structure Stored (env : Env) (s : Store) : Prop where
  bounded : ∀ name id, s.hash.lookup name = some (some id) → id < s.nextNode
  named : ∀ name id, s.hash.lookup name = some (some id) → (s.nodes id).info.filename = name ∧
    Fits (s.nodes id).info
  present : ∀ name, (s.hash.lookup name).isSome = true → present env s.disk name = true
  clock : ∀ n, Int64Range (s.clock n)

theorem appendContent_isSome (env : Env) (path buffer : Bytes) (d : Disk)
    (h : (d.files.lookup (cstr path)).isSome = true) :
    ((appendContent env path buffer d).2.files.lookup (cstr path)).isSome = true := by
  unfold appendContent
  split_ifs
  · dsimp only
    rw [write_lookup]
    rfl
  · exact h

theorem clear_true (env : Env) (path : Bytes) (d : Disk)
    (h : (FileStore.clear env path d).1 = true) :
    (FileStore.clear env path d).2.files.lookup (cstr path) = some [] := by
  unfold FileStore.clear at h ⊢
  split_ifs at h ⊢
  exact write_lookup d.next.2 path []

theorem clear_false (env : Env) (path : Bytes) (d : Disk)
    (h : (FileStore.clear env path d).1 = false) :
    (FileStore.clear env path d).2.files = d.files := by
  unfold FileStore.clear at h ⊢
  split_ifs at h ⊢
  · rfl
  · rfl

theorem appendContent_blank (env : Env) (path buffer : Bytes) (d : Disk)
    (h : d.files.lookup (cstr path) = some []) :
    ∃ part, part <+: buffer ∧
      (appendContent env path buffer d).2.files.lookup (cstr path) = some part := by
  unfold appendContent
  split_ifs
  · refine ⟨d.takes buffer, takes_front d buffer, ?_⟩
    dsimp only
    rw [write_lookup, h]
    rfl
  · exact ⟨[], List.nil_prefix, h⟩

theorem prepareFile_unwritable (env : Env) (path : Bytes) (d : Disk)
    (h : writable env path = false) :
    (prepareFile env path d).2.files = d.files := by
  have happend : ∀ d : Disk, (appendContent env path [] d).2.files = d.files := by
    intro d
    rw [appendContent, if_neg (by simp [h])]
    exact next_files d
  have hclear : (FileStore.clear env path d).2.files = d.files ∧
    (FileStore.clear env path d).1 = false := by
    simp only [FileStore.clear, h, Bool.and_false, Bool.false_eq_true, if_false]
    split_ifs <;> exact ⟨rfl, rfl⟩
  unfold prepareFile
  by_cases he : fileExists env path d = true
  · simp only [he, if_true, hclear.2, Bool.not_false]
    exact hclear.1
  · simp only [he, Bool.not_true, Bool.false_eq_true, if_false]
    exact happend d

section Stored
variable {env : Env} (hh : Housed env)
include hh

theorem entry_target (name : Bytes) (he : isEntry name = true) :
    targetPath env name = withSlash (backupDir env) ++ name := by
  obtain ⟨-, htarget, hclean⟩ := entry_path hh name he
  rw [targetPath, htarget, hclean]

theorem meta_apart (name : Bytes) : withSlash (backupDir env) ++ name ≠ metaPath env := by
  intro heq
  apply hh.outside
  rw [targetPrefix_dir hh, ← heq]
  exact List.prefix_append _ _

theorem present_iff (d : Disk) (name : Bytes) : present env d name = true ↔
    isEntry name = true ∧ (d.files.lookup (targetPath env name)).isSome = true := by
  rw [present, Bool.and_eq_true]
  constructor
  · rintro ⟨he, hd⟩
    exact ⟨he, by rwa [entry_target hh name he]⟩
  · rintro ⟨he, hd⟩
    exact ⟨he, by rwa [entry_target hh name he] at hd⟩

theorem present_onlyAt (d d' : Disk) (name filename : Bytes)
    (hd : OnlyAt (targetPath env filename) d d')
    (hf : isEntry filename = true) (hne : name ≠ filename) (hp : present env d name = true) :
    present env d' name = true := by
  rw [present_iff hh] at hp ⊢
  refine ⟨hp.1, ?_⟩
  rw [hd]
  · exact hp.2
  · rw [entry_target hh name hp.1, entry_target hh filename hf]
    exact fun h => hne (List.append_cancel_left h)

theorem present_meta (d d' : Disk) (name : Bytes) (hd : OnlyAt (metaPath env) d d')
    (hp : present env d name = true) : present env d' name = true := by
  rw [present, Bool.and_eq_true] at hp ⊢
  rw [hd _ (meta_apart hh name)]
  exact hp

theorem entry_writable {s : Store} (filename : Bytes) (hreg : registrable filename s = true)
    (hnul : 0 ∉ filename)
    (hw : writable env (targetFile env filename) = true) : isEntry filename = true := by
  obtain ⟨hne, hslash, -⟩ := (checkFilename_iff filename).mp (Bool.and_eq_true_iff.mp hreg).2
  apply (entry_iff filename).mpr
  refine ⟨hne, hslash, hnul, ?_, ?_⟩
  · rintro rfl
    rw [hh.dots.1] at hw
    cases hw
  · rintro rfl
    rw [hh.dots.2] at hw
    cases hw

theorem present_prepare {s : Store} (filename name : Bytes) (hreg : registrable filename s = true)
    (hnul : 0 ∉ filename) (hne : name ≠ filename) (hp : present env s.disk name = true) :
    present env (prepareFile env (targetFile env filename) s.disk).2 name = true := by
  by_cases hw : writable env (targetFile env filename) = true
  · exact present_onlyAt hh s.disk _ name filename (prepareFile_onlyAt env _ s.disk)
      (entry_writable hh filename hreg hnul hw) hne hp
  · rw [present, prepareFile_unwritable env _ s.disk (by simpa using hw)]
    exact hp

theorem stored_register {s : Store} (hs : Stored env s) (filename : Bytes)
    (hproper : registrable filename s = true → 0 ∉ filename) :
    Stored env (DataManager.register env filename s).2 := by
  by_cases hreg : registrable filename s = true
  · obtain ⟨hfree, hr⟩ := register_free env filename s hreg
    have hnul := hproper hreg
    rw [hr]
    by_cases hp : (prepareFile env (targetFile env filename) s.disk).1 = true
    · rw [if_pos hp]
      have hother : ∀ name, name ≠ filename →
        ((s.hash.insert filename none).lookup name) = s.hash.lookup name :=
        fun name hn => AList.lookup_insert_ne hn
      have hsame : ∀ name id, (s.hash.insert filename none).lookup name = some (some id) →
          s.hash.lookup name = some (some id) := fun name id hid => by
        by_cases hn : name = filename
        · rw [hn, AList.lookup_insert] at hid
          cases hid
        · rwa [hother name hn] at hid
      constructor
      · exact fun name id hid => hs.bounded name id (hsame name id hid)
      · exact fun name id hid => hs.named name id (hsame name id hid)
      · intro name hname
        by_cases hn : name = filename
        · subst hn
          rw [present_iff hh]
          refine ⟨entry_writable hh name hreg hnul (prepareFile_writable env _ s.disk hp), ?_⟩
          rw [targetPath, prepareFile_true env _ s.disk hp]
          rfl
        · rw [hother name hn] at hname
          exact present_prepare hh filename name hreg hnul hn (hs.present name hname)
      · exact hs.clock
    · rw [if_neg hp]
      constructor
      · exact hs.bounded
      · exact hs.named
      · intro name hname
        apply present_prepare hh filename name hreg hnul _ (hs.present name hname)
        rintro rfl
        rw [hfree] at hname
        cases hname
      · exact hs.clock
  · rw [register_refused env filename s (by simpa using hreg)]
    exact hs

omit hh in
theorem stored_disk {s : Store} (hs : Stored env s) (d : Disk)
    (hd : ∀ name, present env s.disk name = true → present env d name = true) :
    Stored env { s with disk := d } where
  bounded := hs.bounded
  named := hs.named
  present := fun name hname => hd name (hs.present name hname)
  clock := hs.clock

theorem stored_append {s : Store} (hs : Stored env s) (filename content : Bytes)
    (hin : (s.hash.lookup filename).isSome = true) :
    Stored env
      { s with disk := (appendContent env (targetFile env filename) content s.disk).2 } := by
  have hentry := ((present_iff hh s.disk filename).mp (hs.present filename hin)).1
  apply stored_disk hs
  intro name hp
  by_cases hn : name = filename
  · subst hn
    rw [present_iff hh] at hp ⊢
    exact ⟨hp.1, appendContent_isSome env _ content s.disk hp.2⟩
  · exact present_onlyAt hh s.disk _ name filename
      (appendContent_onlyAt env _ content s.disk) hentry hn hp

omit hh in
theorem stored_insert {s : Store} (hs : Stored env s) (filename : Bytes) (size : Int64) :
    Stored env (DataManager.insert filename size.toInt s).2 := by
  by_cases hres : s.hash.lookup filename = some none
  · rw [insert_reserved filename _ s hres]
    constructor
    · intro name id hid
      by_cases hn : name = filename
      · rw [hn, AList.lookup_insert, Option.some.injEq, Option.some.injEq] at hid
        rw [← hid]
        exact Nat.lt_succ_self _
      · rw [AList.lookup_insert_ne hn] at hid
        exact Nat.lt_succ_of_lt (hs.bounded name id hid)
    · intro name id hid
      by_cases hn : name = filename
      · rw [hn, AList.lookup_insert, Option.some.injEq, Option.some.injEq] at hid
        subst hid
        dsimp only
        rw [Function.update_self, hn]
        exact ⟨rfl, ⟨size.le_toInt, size.toInt_lt⟩, hs.clock 0⟩
      · rw [AList.lookup_insert_ne hn] at hid
        dsimp only
        rw [Function.update_of_ne (hs.bounded name id hid).ne]
        exact hs.named name id hid
    · intro name hname
      by_cases hn : name = filename
      · rw [hn]
        exact hs.present filename (by rw [hres]; rfl)
      · rw [AList.lookup_insert_ne hn] at hname
        exact hs.present name hname
    · exact fun n => hs.clock (n+1)
  · unfold DataManager.insert
    split
    · rename_i h
      exact absurd h hres
    · exact hs

/-- A name leaves the store; the files of the others stay. -/
theorem stored_erase {s : Store} (hs : Stored env s) (filename : Bytes)
    (hentry : isEntry filename = true)
    (t : Store) (hhash : t.hash = s.hash.erase filename)
    (hinfo : ∀ id, (t.nodes id).info = (s.nodes id).info)
    (hnext : t.nextNode = s.nextNode) (hclock : t.clock = s.clock)
    (hdisk : OnlyAt (targetPath env filename) s.disk t.disk) : Stored env t := by
  have hsame : ∀ name v, t.hash.lookup name = some v → name ≠ filename ∧
    s.hash.lookup name = some v := by
    intro name v hv
    by_cases hn : name = filename
    · rw [hhash, hn, AList.lookup_erase] at hv
      cases hv
    · rw [hhash, AList.lookup_erase_ne hn] at hv
      exact ⟨hn, hv⟩
  constructor
  · intro name id hid
    rw [hnext]
    exact hs.bounded name id (hsame name _ hid).2
  · intro name id hid
    rw [hinfo]
    exact hs.named name id (hsame name _ hid).2
  · intro name hname
    obtain ⟨v, hv⟩ := Option.isSome_iff_exists.mp hname
    obtain ⟨hn, hold⟩ := hsame name v hv
    exact present_onlyAt hh s.disk t.disk name filename hdisk hentry hn
      (hs.present name (by rw [hold]; rfl))
  · rw [hclock]
    exact hs.clock

theorem stored_deregister {s : Store} (hs : Stored env s) (filename : Bytes)
    (hin : (s.hash.lookup filename).isSome = true) :
    Stored env (DataManager.deregister env filename s).2 :=
  stored_erase hh hs filename
    ((present_iff hh s.disk filename).mp (hs.present filename hin)).1 _ rfl
    (fun _ => rfl) rfl rfl (removeIfExists_onlyAt env _ s.disk)

theorem stored_delete {s : Store} (hs : Stored env s) (filename : Bytes) :
    Stored env (DataManager.delete env filename s).2 := by
  unfold DataManager.delete
  cases hv : validNode filename s with
  | none => exact hs
  | some id =>
    have hin : (s.hash.lookup filename).isSome = true := by
      rw [(validNode_iff filename s id).mp hv]
      rfl
    have hentry := ((present_iff hh s.disk filename).mp (hs.present filename hin)).1
    have hsame := listRemove_same id s
    have hclock : (listRemove id s).clock = s.clock := by
      unfold listRemove
      split_ifs <;> rfl
    dsimp only
    rw [hsame.disk]
    apply stored_erase hh hs filename hentry
    · dsimp only
      rw [hsame.hash]
    · exact hsame.info
    · exact hsame.next
    · exact hclock
    · exact removeIfExists_onlyAt env _ s.disk

end Stored

theorem recorded_frame {s t : Store} (r : BackupInfoNode)
    (hlookup : t.hash.lookup r.filename = s.hash.lookup r.filename)
    (hinfo : ∀ id, s.hash.lookup r.filename = some (some id) →
      (t.nodes id).info = (s.nodes id).info)
    (hr : Recorded s r) : Recorded t r := by
  obtain ⟨id, hid, hnode⟩ := hr
  exact ⟨id, by rw [hlookup, hid], by rw [hinfo id hid, hnode]⟩

theorem recorded_register (env : Env) (filename : Bytes) {s : Store} (r : BackupInfoNode)
    (hr : Recorded s r) :
    Recorded (DataManager.register env filename s).2 r := by
  by_cases hreg : registrable filename s = true
  · obtain ⟨hfree, heq⟩ := register_free env filename s hreg
    have hne : r.filename ≠ filename := by
      rintro rfl
      obtain ⟨id, hid, -⟩ := hr
      rw [hfree] at hid
      cases hid
    rw [heq]
    split_ifs
    · exact recorded_frame r (AList.lookup_insert_ne hne) (fun _ _ => rfl) hr
    · exact recorded_frame r rfl (fun _ _ => rfl) hr
  · rw [register_refused env filename s (by simpa using hreg)]
    exact hr

theorem recorded_insert {env : Env} {s : Store} (hs : Stored env s) (filename : Bytes) (size : ℤ)
    (r : BackupInfoNode)
    (hr : Recorded s r) : Recorded (DataManager.insert filename size s).2 r := by
  by_cases hres : s.hash.lookup filename = some none
  · have hne : r.filename ≠ filename := by
      rintro rfl
      obtain ⟨id, hid, -⟩ := hr
      rw [hres] at hid
      cases hid
    rw [insert_reserved filename _ s hres]
    apply recorded_frame r (AList.lookup_insert_ne hne) _ hr
    intro id hid
    dsimp only
    rw [Function.update_of_ne (hs.bounded _ id hid).ne]
  · unfold DataManager.insert
    split
    · rename_i h
      exact absurd h hres
    · exact hr

theorem recorded_deregister (env : Env) (filename : Bytes) {s : Store} (r : BackupInfoNode)
    (hne : r.filename ≠ filename) (hr : Recorded s r) :
    Recorded (DataManager.deregister env filename s).2 r :=
  recorded_frame r (AList.lookup_erase_ne hne) (fun _ _ => rfl) hr

theorem recorded_delete (env : Env) (filename : Bytes) {s : Store} (r : BackupInfoNode)
    (hne : r.filename ≠ filename) (hr : Recorded s r) :
    Recorded (DataManager.delete env filename s).2 r := by
  unfold DataManager.delete
  cases validNode filename s with
  | none => exact hr
  | some id =>
    have hsame := listRemove_same id s
    apply recorded_frame r _ _ hr
    · dsimp only
      rw [hsame.hash, AList.lookup_erase_ne hne]
    · intro i _
      exact hsame.info i

theorem mem_snapshot {env : Env} {s : Store} (hs : Stored env s) (r : BackupInfoNode) :
    r ∈ getAllBackupInfo s ↔ Recorded s r := by
  rw [getAllBackupInfo, List.mem_filterMap]
  constructor
  · rintro ⟨⟨name, v⟩, he, hr⟩
    obtain ⟨id, rfl, rfl⟩ := Option.map_eq_some_iff.mp hr
    have hid : s.hash.lookup name = some (some id) := AList.mem_lookup_iff.mpr he
    exact ⟨id, by rw [(hs.named name id hid).1, hid], rfl⟩
  · rintro ⟨id, hid, rfl⟩
    exact ⟨⟨_, some id⟩, AList.mem_lookup_iff.mp hid, rfl⟩

theorem snapshot_fits {env : Env} {s : Store} (hs : Stored env s) :
    ∀ r ∈ getAllBackupInfo s, Fits r := by
  intro r hr
  obtain ⟨id, hid, rfl⟩ := (mem_snapshot hs r).mp hr
  exact (hs.named _ id hid).2

theorem snapshot_names {env : Env} {s : Store} (hs : Stored env s) :
    ((getAllBackupInfo s).map BackupInfoNode.filename).Nodup := by
  have hsub : ∀ entries : List (Sigma fun _ : Bytes => Option NodeId),
    (∀ e ∈ entries, e ∈ s.hash.entries) →
      ((entries.filterMap fun e => e.2.map fun id => (s.nodes id).info).map
        BackupInfoNode.filename).Sublist
        (entries.map Sigma.fst) := by
    intro entries hin
    induction entries with
    | nil => exact List.Sublist.slnil
    | cons e es ih =>
      have hrest := ih fun e' he' => hin e' (List.mem_cons_of_mem e he')
      obtain ⟨name, v⟩ := e
      cases v with
      | none =>
        rw [List.filterMap_cons_none rfl, List.map_cons]
        exact hrest.cons name
      | some id =>
        have hid : s.hash.lookup name = some (some id) :=
          AList.mem_lookup_iff.mpr (hin _ List.mem_cons_self)
        rw [List.filterMap_cons, Option.map_some]
        dsimp only
        rw [List.map_cons, List.map_cons, (hs.named name id hid).1]
        exact hrest.cons_cons name
  exact (hsub s.hash.entries fun _ he => he).nodup s.hash.keys_nodup

end CloudBackup.StoragePass
