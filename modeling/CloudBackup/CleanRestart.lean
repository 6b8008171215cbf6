import CloudBackup.CleanFlag
import CloudBackup.PipeMessages

/-!
# A restart after a completed pass

Calls and storage passes run on a disk without faults, from an empty backup
directory and the metadata file of the first start. When the last pass went
through and nothing was changed since, a new `DataManager` on the disk has the
records of the old one. It keeps their files and removes those of the names
that were registered and never inserted, provided it reads the metadata file
to its end.
-/

set_option autoImplicit false

namespace CloudBackup.CleanRestart
open CloudBackup.ByteStrings CloudBackup.JsonCodec CloudBackup.FilePath CloudBackup.BackupDirectory
open CloudBackup.FileStore CloudBackup.DataManager CloudBackup.HttpCallbacks
  CloudBackup.MetadataFile
open CloudBackup.Restart CloudBackup.StoragePass CloudBackup.MetadataCrash CloudBackup.CleanFlag
  CloudBackup.RunInvariants
open CloudBackup.Download CloudBackup.PipeMessages

/-- `completed` is false from the snapshot of a pass until its text is written. -/
structure Session where
  process : Process
  completed : Bool

inductive Op where
  | register (filename : Bytes)
  | append (filename content : Bytes)
  | deregister (filename : Bytes)
  | insert (filename : Bytes)
  | delete (filename : Bytes)
  | collect
  | serialize
  | clear
  | store

def onStore (w : Session) (s : Store) : Session :=
  { w with process := { w.process with store := s } }

def fileLength (env : Env) (filename : Bytes) (d : Disk) : ℕ :=
  ((d.files.lookup (targetPath env filename)).getD []).length

def passStep (env : Env) (codec : Codec) (w : Session) (a : Step) : Option Session :=
  (CleanFlag.step env codec w.process a).map fun p => { process := p, completed := false }

/-- Only names that are registered and not inserted are appended to or
deregistered; a file never exceeds the sizes of the system. -/
def step (env : Env) (codec : Codec) (w : Session) : Op → Option Session
  | .register filename => some (onStore w (DataManager.register env filename w.process.store).2)
  | .append filename content =>
    let s := w.process.store
    if s.hash.lookup filename = some none ∧
      fileLength env filename s.disk + content.length < 2^63 then
      some (onStore w { s with disk :=
        (appendContent env (targetFile env filename) content s.disk).2 })
    else none
  | .deregister filename =>
    if w.process.store.hash.lookup filename = some none then
      some (onStore w (DataManager.deregister env filename w.process.store).2)
    else none
  | .insert filename =>
    let s := w.process.store
    let size := getFileSize (targetFile env filename) s.disk
    some (onStore w (DataManager.insert filename size.1 { s with disk := size.2 }).2)
  | .delete filename => some (onStore w (DataManager.delete env filename w.process.store).2)
  | .collect => passStep env codec w .collect
  | .serialize => passStep env codec w .serialize
  | .clear => passStep env codec w .clear
  | .store => match w.process.pass with
    | .cleared _ infosStr =>
      let a := appendContent env (metaFile env) infosStr w.process.store.disk
      some { process := withDisk w.process a.2 .waiting, completed := a.1 }
    | _ => none

/-- Names without NUL are registered. -/
def Proper (_ : Session) : Op → Prop
  | .register filename => 0 ∉ filename
  | _ => True

structure Start (env : Env) (w : Session) : Prop where
  empty : w.process.store.hash = ∅
  waiting : w.process.pass = .waiting
  faults : w.process.store.disk.faults = []
  file : w.process.store.disk.files.lookup (metaPath env) = some (bytes "null")
  vacant : ∀ name, isEntry name = true →
    w.process.store.disk.files.lookup (targetPath env name) = none
  clock : ∀ n, Int64Range (w.process.store.clock n)

/-- The last pass completed, and nothing was changed since. -/
structure Clean (w : Session) : Prop where
  waiting : w.process.pass = .waiting
  completed : w.completed = true
  clean : w.process.store.isDirty = false

structure Preserved (env : Env) (s : Store) (c : Bool × Store) : Prop where
  starts : c.1 = true
  records : ∀ r, Recorded c.2 r ↔ Recorded s r
  names : ∀ name, (c.2.hash.lookup name).isSome = true ↔ (validNode name s).isSome = true
  files : ∀ name, (validNode name s).isSome = true → ∃ content,
    s.disk.files.lookup (targetPath env name) = some content ∧
      c.2.disk.files.lookup (targetPath env name) = some content
  removed : ∀ path, ((s.disk.files.lookup path).isSome = true ∧ c.2.disk.files.lookup path = none) ↔
    ∃ name, s.hash.lookup name = some none ∧ path = targetPath env name

structure Tidy (env : Env) (s : Store) : Prop where
  stored : Stored env s
  faults : s.disk.faults = []
  sizes : ∀ r, Recorded s r → 0 ≤ r.size
  short : ∀ name, s.hash.lookup name = some none → fileLength env name s.disk < 2^63
  removable : ∀ name, (s.hash.lookup name).isSome = true → writable env (targetFile env name) = true
  owned : ∀ name, isEntry name = true → (s.disk.files.lookup (targetPath env name)).isSome = true →
    (s.hash.lookup name).isSome = true

theorem writable_file {env : Env} {path : Bytes} (h : writable env path = true) :
    env.isDirectory (cstr path) = false := by
  simpa using (Bool.and_eq_true_iff.mp h).2

theorem removeIfExists_gone {env : Env} {path : Bytes} {d : Disk} (h : writable env path = true) :
    (removeIfExists env path d).2.files.lookup (cstr path) = none := by
  unfold removeIfExists
  split_ifs with he
  · rw [removeRegularFile_done env path he (writable_file h)]
    exact AList.lookup_erase _ _
  · simpa [fileExists, writable_ne_nil h, writable_file h] using he

section Tidy
variable {env : Env} (hh : Housed env) {s : Store} (hs : Tidy env s)
include hh

theorem other_file (d d' : Disk) (name filename : Bytes)
    (hd : OnlyAt (targetPath env filename) d d')
    (hn : isEntry name = true) (hf : isEntry filename = true) (hne : name ≠ filename) :
    d'.files.lookup (targetPath env name) = d.files.lookup (targetPath env name) := by
  apply hd
  rw [entry_target hh name hn, entry_target hh filename hf]
  exact fun h => hne (List.append_cancel_left h)

include hs

theorem tidy_entry (name : Bytes) (h : (s.hash.lookup name).isSome = true) : isEntry name = true :=
  ((present_iff hh s.disk name).mp (hs.stored.present name h)).1

theorem tidy_register (filename : Bytes) (hnul : 0 ∉ filename) :
    Tidy env (DataManager.register env filename s).2 := by
  have hstored := stored_register hh hs.stored filename fun _ => hnul
  by_cases hreg : registrable filename s = true
  · obtain ⟨hfree, hr⟩ := register_free env filename s hreg
    rw [hr] at hstored ⊢
    by_cases hw : writable env (targetFile env filename) = true
    · have hentry := entry_writable hh filename hreg hnul hw
      have hfile := prepareFile_onlyAt env (targetFile env filename) s.disk
      rw [prepareFile_clean hs.faults env _ hw] at hstored hfile ⊢
      rw [if_pos rfl] at hstored ⊢
      have hold : ∀ name, name ≠ filename →
        (s.hash.insert filename none).lookup name = s.hash.lookup name :=
        fun name hn => AList.lookup_insert_ne hn
      constructor
      · exact hstored
      · exact hs.faults
      · rintro r ⟨id, hid, hnode⟩
        by_cases hn : r.filename = filename
        · rw [hn, AList.lookup_insert] at hid
          cases hid
        · exact hs.sizes r ⟨id, (hold _ hn).symm.trans hid, hnode⟩
      · intro name hname
        by_cases hn : name = filename
        · rw [hn, fileLength, targetPath, write_lookup]
          exact Nat.two_pow_pos 63
        · have hname := (hold name hn).symm.trans hname
          rw [fileLength, other_file hh s.disk _ name filename hfile
            (tidy_entry hh hs name (by rw [hname]; rfl)) hentry hn]
          exact hs.short name hname
      · intro name hname
        by_cases hn : name = filename
        · rw [hn]
          exact hw
        · exact hs.removable name ((congrArg Option.isSome (hold name hn)).symm.trans hname)
      · intro name hn hthere
        by_cases heq : name = filename
        · rw [heq]
          show ((s.hash.insert filename none).lookup filename).isSome = true
          rw [AList.lookup_insert]
          rfl
        · rw [other_file hh s.disk _ name filename hfile hn hentry heq] at hthere
          exact (congrArg Option.isSome (hold name heq)).trans (hs.owned name hn hthere)
    · rw [prepareFile_refused hs.faults env _ (by simpa using hw), if_neg Bool.false_ne_true]
      exact hs
  · rw [register_refused env filename s (by simpa using hreg)]
    exact hs

theorem tidy_append (filename content : Bytes) (hres : s.hash.lookup filename = some none)
    (hlen : fileLength env filename s.disk + content.length < 2^63) :
    Tidy env { s with disk := (appendContent env (targetFile env filename) content s.disk).2 } := by
  have hin : (s.hash.lookup filename).isSome = true := by rw [hres]; rfl
  have hentry := tidy_entry hh hs filename hin
  have hfile := appendContent_onlyAt env (targetFile env filename) content s.disk
  constructor
  · exact stored_append hh hs.stored filename content hin
  · exact appendContent_faults hs.faults env _ content
  · exact hs.sizes
  · intro name hname
    by_cases hn : name = filename
    · subst hn
      rw [fileLength, targetPath, appendContent_clean hs.faults env _ content
        (hs.removable name hin), write_lookup, Option.getD_some, List.length_append]
      exact hlen
    · rw [fileLength, other_file hh s.disk _ name filename hfile
        (tidy_entry hh hs name (by rw [hname]; rfl)) hentry hn]
      exact hs.short name hname
  · exact hs.removable
  · intro name hn hthere
    by_cases heq : name = filename
    · rw [heq]
      exact hin
    · rw [other_file hh s.disk _ name filename hfile hn hentry heq] at hthere
      exact hs.owned name hn hthere

theorem tidy_erase (filename : Bytes) (hin : (s.hash.lookup filename).isSome = true) (t : Store)
    (hstored : Stored env t) (hhash : t.hash = s.hash.erase filename)
    (hinfo : ∀ id, (t.nodes id).info = (s.nodes id).info)
    (hdisk : t.disk = (removeIfExists env (targetFile env filename) s.disk).2) : Tidy env t := by
  have hentry := tidy_entry hh hs filename hin
  have hfile := removeIfExists_onlyAt env (targetFile env filename) s.disk
  have hold : ∀ name, name ≠ filename → t.hash.lookup name = s.hash.lookup name := by
    intro name hn
    rw [hhash, AList.lookup_erase_ne hn]
  have hgone : t.hash.lookup filename = none := by
    rw [hhash]
    exact AList.lookup_erase _ _
  have hother : ∀ name v, t.hash.lookup name = some v → name ≠ filename := by
    rintro name v hv rfl
    rw [hgone] at hv
    cases hv
  rw [← hdisk] at hfile
  constructor
  · exact hstored
  · rw [hdisk]
    exact removeIfExists_faults hs.faults env _
  · rintro r ⟨id, hid, hnode⟩
    exact hs.sizes r ⟨id, (hold _ (hother _ _ hid)).symm.trans hid, (hinfo id).symm.trans hnode⟩
  · intro name hname
    have hn := hother name _ hname
    have hname := (hold name hn).symm.trans hname
    rw [fileLength, other_file hh s.disk _ name filename hfile
      (tidy_entry hh hs name (by rw [hname]; rfl)) hentry hn]
    exact hs.short name hname
  · intro name hname
    obtain ⟨v, hv⟩ := Option.isSome_iff_exists.mp hname
    rw [hold name (hother name v hv)] at hname
    exact hs.removable name hname
  · intro name hn hthere
    by_cases heq : name = filename
    · rw [heq, hdisk, targetPath, removeIfExists_gone (hs.removable filename hin)] at hthere
      cases hthere
    · rw [other_file hh s.disk _ name filename hfile hn hentry heq] at hthere
      rw [hold name heq]
      exact hs.owned name hn hthere

theorem tidy_deregister (filename : Bytes) (hres : s.hash.lookup filename = some none) :
    Tidy env (DataManager.deregister env filename s).2 := by
  have hin : (s.hash.lookup filename).isSome = true := by rw [hres]; rfl
  exact tidy_erase hh hs filename hin _ (stored_deregister hh hs.stored filename hin) rfl
    (fun _ => rfl) rfl

theorem tidy_delete (filename : Bytes) : Tidy env (DataManager.delete env filename s).2 := by
  have hstored := stored_delete hh hs.stored filename
  cases hv : validNode filename s with
  | none =>
    rw [delete_refused env filename s hv]
    exact hs
  | some id =>
    have hin : (s.hash.lookup filename).isSome = true := by
      rw [(validNode_iff filename s id).mp hv]
      rfl
    apply tidy_erase hh hs filename hin _ hstored
    · exact delete_hash env filename s id hv
    · intro i
      rw [delete, hv]
      exact (listRemove_same id s).info i
    · exact delete_disk env filename s id hv

theorem insert_size (filename : Bytes) (hres : s.hash.lookup filename = some none) :
    ∃ size : Int64, getFileSize (targetFile env filename) s.disk = (size.toInt, s.disk) ∧
      0 ≤ size.toInt := by
  have hpresent := hs.stored.present filename (by rw [hres]; rfl)
  obtain ⟨content, hcontent⟩ :=
    Option.isSome_iff_exists.mp ((present_iff hh s.disk filename).mp hpresent).2
  have hshort := hs.short filename hres
  rw [fileLength, hcontent, Option.getD_some] at hshort
  have hsize : (Int64.ofInt content.length).toInt = content.length := by
    apply Int64.toInt_ofInt_of_le
    · show -2^63 ≤ (content.length : ℤ)
      omega
    · show (content.length : ℤ) < 2^63
      omega
  refine ⟨Int64.ofInt content.length, ?_, ?_⟩
  · rw [getFileSize_clean hs.faults _ content hcontent, hsize]
  · rw [hsize]
    exact Int.natCast_nonneg _

theorem tidy_insert (filename : Bytes) :
    Tidy env (DataManager.insert filename (getFileSize (targetFile env filename) s.disk).1
      { s with disk := (getFileSize (targetFile env filename) s.disk).2 }).2 := by
  rw [getFileSize_disk hs.faults (targetFile env filename)]
  by_cases hres : s.hash.lookup filename = some none
  · obtain ⟨size, hsize, hpos⟩ := insert_size hh hs filename hres
    rw [hsize]
    have hstored := stored_insert hs.stored filename size
    rw [insert_reserved filename size.toInt s hres] at hstored ⊢
    have hold : ∀ name, name ≠ filename →
        (s.hash.insert filename (some s.nextNode)).lookup name = s.hash.lookup name :=
      fun name hn => AList.lookup_insert_ne hn
    have hin : ∀ name, ((s.hash.insert filename (some s.nextNode)).lookup name).isSome = true ↔
        (s.hash.lookup name).isSome = true := by
      intro name
      by_cases hn : name = filename
      · rw [hn, AList.lookup_insert, hres]
        exact ⟨fun _ => rfl, fun _ => rfl⟩
      · rw [hold name hn]
    constructor
    · exact hstored
    · exact hs.faults
    · rintro r ⟨id, hid, hnode⟩
      by_cases hn : r.filename = filename
      · rw [hn, AList.lookup_insert, Option.some.injEq, Option.some.injEq] at hid
        rw [← hnode, ← hid]
        show 0 ≤ (Function.update s.nodes s.nextNode (newNode filename size.toInt s)
          s.nextNode).info.size
        rw [Function.update_self]
        exact hpos
      · have hid := (hold _ hn).symm.trans hid
        apply hs.sizes r ⟨id, hid, _⟩
        rw [← hnode]
        show _ = (Function.update s.nodes s.nextNode (newNode filename size.toInt s) id).info
        rw [Function.update_of_ne (hs.stored.bounded _ id hid).ne]
    · intro name hname
      by_cases hn : name = filename
      · rw [hn, AList.lookup_insert] at hname
        cases hname
      · exact hs.short name ((hold name hn).symm.trans hname)
    · exact fun name hname => hs.removable name ((hin name).mp hname)
    · exact fun name hn hthere => (hin name).mpr (hs.owned name hn hthere)
  · rw [insert_refused filename _ s hres]
    exact hs

omit hs in
theorem tidy_meta (hs : Tidy env s) (d : Disk) (hd : OnlyAt (metaPath env) s.disk d)
    (hf : d.faults = []) :
    Tidy env { s with disk := d } := by
  have hsame : ∀ name, isEntry name = true →
      d.files.lookup (targetPath env name) = s.disk.files.lookup (targetPath env name) := by
    intro name hn
    apply hd
    rw [entry_target hh name hn]
    exact meta_apart hh name
  constructor
  · apply stored_disk hs.stored
    exact fun name hp => present_meta hh s.disk d name hd hp
  · exact hf
  · exact hs.sizes
  · intro name hname
    rw [fileLength, hsame name (tidy_entry hh hs name (by rw [hname]; rfl))]
    exact hs.short name hname
  · exact hs.removable
  · intro name hn hthere
    rw [hsame name hn] at hthere
    exact hs.owned name hn hthere

end Tidy

def Written (env : Env) (codec : Codec) (s : Store) : Prop := ∃ text,
  codec.serialize (metadata (getAllBackupInfo s)) = some text ∧
    s.disk.files.lookup (metaPath env) = some text

def Reached (env : Env) (codec : Codec) (w : Session) : Prop :=
  match w.process.pass with
  | .waiting => w.completed = true → Written env codec w.process.store
  | .collected root => root = getAllBackupInfo w.process.store
  | .serialized root infosStr => root = getAllBackupInfo w.process.store ∧
      codec.serialize (metadata root) = some infosStr
  | .cleared root infosStr => root = getAllBackupInfo w.process.store ∧
      codec.serialize (metadata root) = some infosStr ∧
        w.process.store.disk.files.lookup (metaPath env) = some []

structure Sound (env : Env) (codec : Codec) (w : Session) : Prop where
  tidy : Tidy env w.process.store
  reached : w.process.store.isDirty = false → Reached env codec w

theorem reached_aside {env : Env} {codec : Codec} {w : Session} {t : Store}
    (ha : Aside env w.process.store t)
    (h : Reached env codec w) : Reached env codec (onStore w t) := by
  unfold Reached at h ⊢
  show match w.process.pass with
    | .waiting => w.completed = true → Written env codec t
    | .collected root => root = getAllBackupInfo t
    | .serialized root infosStr =>
      root = getAllBackupInfo t ∧ codec.serialize (metadata root) = some infosStr
    | .cleared root infosStr =>
      root = getAllBackupInfo t ∧ codec.serialize (metadata root) = some infosStr ∧
        t.disk.files.lookup (metaPath env) = some []
  unfold Written
  rw [ha.records, ha.file]
  exact h

theorem sound_aside {env : Env} {codec : Codec} {w : Session} {t : Store} (hw : Sound env codec w)
    (ht : Tidy env t)
    (ha : Aside env w.process.store t) : Sound env codec (onStore w t) where
  tidy := ht
  reached := fun hclean => reached_aside ha (hw.reached (ha.isDirty.symm.trans hclean))

theorem sound_dirty {env : Env} (codec : Codec) (w : Session) {t : Store} (ht : Tidy env t)
    (hd : t.isDirty = true) : Sound env codec (onStore w t) where
  tidy := ht
  reached := fun hclean => by
    have hclean : t.isDirty = false := hclean
    rw [hd] at hclean
    cases hclean

theorem tidy_flag {env : Env} {s : Store} (hs : Tidy env s) :
    Tidy env { s with isDirty := false } where
  stored := ⟨hs.stored.bounded, hs.stored.named, hs.stored.present, hs.stored.clock⟩
  faults := hs.faults
  sizes := hs.sizes
  short := hs.short
  removable := hs.removable
  owned := hs.owned

section Sound
variable {env : Env} (hh : Housed env) {codec : Codec} {w : Session} (hw : Sound env codec w)
include hh

theorem target_apart (filename : Bytes) (hentry : isEntry filename = true) :
    targetPath env filename ≠ metaPath env := by
  rw [entry_target hh filename hentry]
  exact meta_apart hh filename

include hw

theorem sound_register (filename : Bytes) (hnul : 0 ∉ filename) :
    Sound env codec (onStore w (DataManager.register env filename w.process.store).2) := by
  have htidy := tidy_register hh hw.tidy filename hnul
  by_cases happart : targetPath env filename = metaPath env
  · have hsame : DataManager.register env filename w.process.store = (false, w.process.store) := by
      by_cases hreg : registrable filename w.process.store = true
      · have hw' : writable env (targetFile env filename) = false := by
          by_contra hopen
          exact target_apart hh filename
            (entry_writable hh filename hreg hnul (by simpa using hopen)) happart
        rw [(register_free env filename _ hreg).2, prepareFile_refused hw.tidy.faults env _ hw',
          if_neg Bool.false_ne_true]
      · exact register_refused env filename _ (by simpa using hreg)
    rw [hsame]
    exact hw
  · exact sound_aside hw htidy (aside_register env filename _ happart)

omit hh in
theorem sound_collect (t : Session) (ht : passStep env codec w .collect = some t) :
    Sound env codec t := by
  obtain ⟨p, hp, rfl⟩ := Option.map_eq_some_iff.mp ht
  simp only [CleanFlag.step] at hp
  split at hp
  · split_ifs at hp
    cases hp
    exact ⟨tidy_flag hw.tidy, fun _ => rfl⟩
  · cases hp

omit hh in
theorem sound_serialize (t : Session) (ht : passStep env codec w .serialize = some t) :
    Sound env codec t := by
  obtain ⟨p, hp, rfl⟩ := Option.map_eq_some_iff.mp ht
  simp only [CleanFlag.step] at hp
  split at hp
  · rename_i root hpass
    split at hp
    · cases hp
      exact ⟨hw.tidy, fun _ hdone => absurd hdone Bool.false_ne_true⟩
    · rename_i infosStr hser
      cases hp
      refine ⟨hw.tidy, fun hclean => ?_⟩
      have hroot := hw.reached hclean
      rw [Reached, hpass] at hroot
      exact ⟨hroot, hser⟩
  · cases hp

theorem sound_clear (t : Session) (ht : passStep env codec w .clear = some t) :
    Sound env codec t := by
  obtain ⟨p, hp, rfl⟩ := Option.map_eq_some_iff.mp ht
  have htidy := tidy_meta hh hw.tidy _ (clear_onlyAt env (metaFile env) w.process.store.disk)
    (clear_faults hw.tidy.faults env (metaFile env))
  simp only [CleanFlag.step] at hp
  split at hp
  · rename_i root infosStr hpass
    cases hp
    refine ⟨htidy, fun hclean => ?_⟩
    cases hok : (FileStore.clear env (metaFile env) w.process.store.disk).1 with
    | false => exact fun hdone => absurd hdone Bool.false_ne_true
    | true =>
      have hroot := hw.reached hclean
      rw [Reached, hpass] at hroot
      exact ⟨hroot.1, hroot.2, clear_true env (metaFile env) w.process.store.disk hok⟩
  · cases hp

theorem sound_store (t : Session) (ht : step env codec w .store = some t) : Sound env codec t := by
  simp only [step] at ht
  split at ht
  · rename_i root infosStr hpass
    cases ht
    have htidy := tidy_meta hh hw.tidy _
      (appendContent_onlyAt env (metaFile env) infosStr w.process.store.disk)
      (appendContent_faults hw.tidy.faults env (metaFile env) infosStr)
    refine ⟨htidy, fun hclean hdone => ⟨infosStr, ?_, ?_⟩⟩
    all_goals
      have hroot := hw.reached hclean
      rw [Reached, hpass] at hroot
    · show codec.serialize (metadata (getAllBackupInfo w.process.store)) = some infosStr
      rw [← hroot.1]
      exact hroot.2.1
    · have hfile := lands_lookup ⟨hdone, takes_clean hw.tidy.faults infosStr⟩
      have hempty : w.process.store.disk.files.lookup (cstr (metaFile env)) = some [] := hroot.2.2
      rw [hempty] at hfile
      exact hfile
  · cases ht

theorem step_sound (a : Op) (t : Session) (hproper : Proper w a)
    (ht : step env codec w a = some t) :
    Sound env codec t := by
  cases a with
  | register filename =>
    cases ht
    exact sound_register hh hw filename hproper
  | append filename content =>
    simp only [step] at ht
    split_ifs at ht with hguard
    cases ht
    have hentry := tidy_entry hh hw.tidy filename (by rw [hguard.1]; rfl)
    exact sound_aside hw (tidy_append hh hw.tidy filename content hguard.1 hguard.2)
      (aside_append env filename content _ (target_apart hh filename hentry))
  | deregister filename =>
    simp only [step] at ht
    split_ifs at ht with hres
    cases ht
    have hentry := tidy_entry hh hw.tidy filename (by rw [hres]; rfl)
    exact sound_aside hw (tidy_deregister hh hw.tidy filename hres)
      (aside_deregister env filename _ (target_apart hh filename hentry) hres)
  | insert filename =>
    cases ht
    have htidy := tidy_insert hh hw.tidy filename
    rw [getFileSize_disk hw.tidy.faults (targetFile env filename)] at htidy ⊢
    by_cases hres : w.process.store.hash.lookup filename = some none
    · apply sound_dirty codec w htidy
      rw [insert_reserved filename _ w.process.store hres]
    · rw [insert_refused filename _ w.process.store hres]
      exact hw
  | delete filename =>
    cases ht
    have htidy := tidy_delete hh hw.tidy filename
    cases hv : validNode filename w.process.store with
    | none =>
      rw [delete_refused env filename _ hv]
      exact hw
    | some id =>
      apply sound_dirty codec w htidy
      rw [delete, hv]
  | collect => exact sound_collect hw t ht
  | serialize => exact sound_serialize hw t ht
  | clear => exact sound_clear hh hw t ht
  | store => exact sound_store hh hw t ht

end Sound

theorem first_start {env : Env} (hh : Housed env) {codec : Codec} (hcodec : Reads codec)
    (clock : ℕ → ℤ) (d : Disk)
    (hclock : ∀ n, Int64Range (clock n)) (hfaults : d.faults = [])
    (hfile : d.files.lookup (metaPath env) = some (bytes "null"))
    (hvacant : ∀ name, isEntry name = true → d.files.lookup (targetPath env name) = none) :
    Start env { process := { store := (construct env codec clock d).2, pass := .waiting },
                completed := true } := by
  have hread : d.next.1 = none := by rw [next_of_clean d hfaults]
  have hc := construct_reads hh codec clock d _ hfile hcodec []
    (fun r hr => absurd hr List.not_mem_nil) hcodec.null
    (by decide) hread
  obtain ⟨s, hs⟩ : ∃ s, s = loadRecords [] (reborn clock d) := ⟨_, rfl⟩
  rw [← hs] at hc
  have hempty : s.hash = ∅ := by rw [hs]; rfl
  have hdisk : s.disk = d := by
    rw [hs]
    show d.next.2 = d
    rw [next_of_clean d hfaults]
  obtain ⟨files, hscan, hfiles⟩ := scanDirectory_listed hh s.disk
  have hnil : files = [] := by
    apply List.eq_nil_iff_forall_not_mem.mpr
    intro file hin
    obtain ⟨name, hentry, rfl, hthere⟩ := (hfiles file).mp hin
    rw [← entry_target hh name hentry, hdisk, hvacant name hentry] at hthere
    cases hthere
  have hverify : (verifyFileLegality env s).hash = ∅ ∧ (verifyFileLegality env s).disk = d := by
    rw [verifyFileLegality, hscan, hnil, hempty]
    exact ⟨rfl, hdisk⟩
  rw [hc]
  constructor
  · exact hverify.1
  · rfl
  · show (verifyFileLegality env s).disk.faults = []
    rw [hverify.2]
    exact hfaults
  · show (verifyFileLegality env s).disk.files.lookup (metaPath env) = _
    rw [hverify.2]
    exact hfile
  · show ∀ name, isEntry name = true →
      (verifyFileLegality env s).disk.files.lookup (targetPath env name) = none
    rw [hverify.2]
    exact hvacant
  · show ∀ n, Int64Range ((verifyFileLegality env s).clock n)
    rw [(verifyFileLegality_same hh s).2.2, hs]
    exact hclock

theorem start_tidy {env : Env} {w : Session} (h : Start env w) : Tidy env w.process.store := by
  have hnone : ∀ name, w.process.store.hash.lookup name = none := by
    intro name
    rw [h.empty]
    rfl
  have hsome : ∀ {name v}, w.process.store.hash.lookup name ≠ some v := by
    intro name v hv
    rw [hnone name] at hv
    cases hv
  have hin : ∀ {name}, ¬ (w.process.store.hash.lookup name).isSome = true := by
    intro name hname
    rw [hnone name] at hname
    cases hname
  constructor
  · exact ⟨fun _ _ hid => absurd hid hsome, fun _ _ hid => absurd hid hsome, fun _ hname =>
      absurd hname hin, h.clock⟩
  · exact h.faults
  · exact fun r ⟨_, hid, _⟩ => absurd hid hsome
  · exact fun _ hname => absurd hname hsome
  · exact fun _ hname => absurd hname hin
  · intro name hentry hthere
    rw [h.vacant name hentry] at hthere
    cases hthere

theorem start_sound {env : Env} {codec : Codec} (hcodec : Reads codec) {w : Session}
    (h : Start env w) :
    Sound env codec w := by
  refine ⟨start_tidy h, fun _ => ?_⟩
  rw [Reached, h.waiting]
  intro _
  have hnone : getAllBackupInfo w.process.store = [] := by
    rw [getAllBackupInfo, h.empty]
    rfl
  refine ⟨bytes "null", ?_, h.file⟩
  rw [hnone]
  exact hcodec.null

section Preserved
variable {env : Env} (hh : Housed env) {s : Store} (hs : Tidy env s) (clock : ℕ → ℤ)
include hh hs

theorem loaded_records (r : BackupInfoNode) :
    Recorded (loadRecords (getAllBackupInfo s) (reborn clock s.disk)) r ↔ Recorded s r := by
  have hl := recorded_loadRecords (getAllBackupInfo s) _ (reborn_loaded clock s.disk)
    (snapshot_names hs.stored) r
  rw [hl, mem_snapshot hs.stored]
  constructor
  · rintro (⟨hr, -⟩ | ⟨hr, -⟩)
    · exact hr
    · exact absurd hr (reborn_records clock s.disk r)
  · intro hr
    obtain ⟨id, hid, hnode⟩ := hr
    have hentry := tidy_entry hh hs r.filename (by rw [hid]; rfl)
    apply Or.inl
    refine ⟨⟨id, hid, hnode⟩, ?_⟩
    rw [acceptable, Bool.and_eq_true]
    exact ⟨decide_eq_true ((entry_iff r.filename).mp hentry).1,
      decide_eq_true (hs.sizes r ⟨id, hid, hnode⟩)⟩

theorem loaded_names (name : Bytes) :
    ((loadRecords (getAllBackupInfo s) (reborn clock s.disk)).hash.lookup name).isSome = true ↔
      (validNode name s).isSome = true := by
  have hl := loaded_loadRecords (getAllBackupInfo s) _ (reborn_loaded clock s.disk)
  constructor
  · intro h
    obtain ⟨v, hv⟩ := Option.isSome_iff_exists.mp h
    obtain ⟨r, rfl, hr⟩ := hl.records name v hv
    obtain ⟨id, hid, -⟩ := (loaded_records hh hs clock r).mp hr
    rw [(validNode_iff r.filename s id).mpr hid]
    rfl
  · intro h
    obtain ⟨id, hid⟩ := Option.isSome_iff_exists.mp h
    have hlookup := (validNode_iff name s id).mp hid
    obtain rfl := (hs.stored.named name id hlookup).1
    obtain ⟨i, hi, -⟩ := (loaded_records hh hs clock (s.nodes id).info).mpr ⟨id, hlookup, rfl⟩
    rw [hi]
    rfl

omit hh in
theorem loaded_disk : (loadRecords (getAllBackupInfo s) (reborn clock s.disk)).disk = s.disk := by
  rw [loadRecords_disk]
  show s.disk.next.2 = s.disk
  rw [next_of_clean s.disk hs.faults]

theorem verified_removed (path : Bytes) (hthere : (s.disk.files.lookup path).isSome = true)
    (hgone : (verifyFileLegality env
      (loadRecords (getAllBackupInfo s) (reborn clock s.disk))).disk.files.lookup path = none) :
    ∃ name, s.hash.lookup name = some none ∧ path = targetPath env name := by
  by_contra hnone
  have hsame := verifyFileLegality_file hh
    (loadRecords (getAllBackupInfo s) (reborn clock s.disk)) path
    fun name hentry hlost hpath => by
      rw [← entry_target hh name hentry] at hpath
      obtain ⟨v, hv⟩ := Option.isSome_iff_exists.mp (hs.owned name hentry (by rwa [hpath]))
      cases v with
      | none => exact hnone ⟨name, hv, hpath.symm⟩
      | some id =>
        have hin := (loaded_names hh hs clock name).mpr
          (by rw [(validNode_iff name s id).mpr hv]; rfl)
        rw [hlost] at hin
        cases hin
  rw [loaded_disk hs clock, hgone] at hsame
  rw [← hsame] at hthere
  cases hthere

theorem verified_reserved (name : Bytes) (hres : s.hash.lookup name = some none) :
    (verifyFileLegality env (loadRecords (getAllBackupInfo s)
      (reborn clock s.disk))).disk.files.lookup
      (targetPath env name) = none := by
  have hin : (s.hash.lookup name).isSome = true := by rw [hres]; rfl
  have hentry := tidy_entry hh hs name hin
  have hlost : (loadRecords (getAllBackupInfo s) (reborn clock s.disk)).hash.lookup
    name = none := by
    rw [← Option.not_isSome_iff_eq_none, loaded_names hh hs clock, validNode, hres]
    exact Bool.false_ne_true
  have hdir := writable_file (hs.removable name hin)
  have htarget : cstr (targetFile env name) = withSlash (backupDir env) ++ name :=
    entry_target hh name hentry
  rw [htarget] at hdir
  rw [entry_target hh name hentry]
  apply verifyFileLegality_orphan hh _ name hentry hlost hdir
  rw [loaded_disk hs clock]
  exact hs.faults

theorem verified_preserved :
    Preserved env s (true, verifyFileLegality env
      (loadRecords (getAllBackupInfo s) (reborn clock s.disk))) := by
  have hdisk := loaded_disk hs clock
  have hnames := loaded_names hh hs clock
  have hvalid : ∀ name, (validNode name s).isSome = true → (s.hash.lookup name).isSome = true := by
    intro name h
    obtain ⟨id, hid⟩ := Option.isSome_iff_exists.mp h
    rw [(validNode_iff name s id).mp hid]
    rfl
  constructor
  · rfl
  · intro r
    rw [recorded_verify hh, loaded_records hh hs clock, hdisk]
    apply and_iff_left_of_imp
    rintro ⟨id, hid, -⟩
    exact hs.stored.present r.filename (by rw [hid]; rfl)
  · intro name
    rw [verifyFileLegality_lookup hh, hdisk, ← hnames]
    by_cases hp : present env s.disk name = true
    · rw [if_pos hp]
    · rw [if_neg hp]
      constructor
      · intro h
        cases h
      · intro h
        exact absurd (hs.stored.present name (hvalid name ((hnames name).mp h))) hp
  · intro name hname
    have hentry := tidy_entry hh hs name (hvalid name hname)
    have hthere := ((present_iff hh s.disk name).mp (hs.stored.present name (hvalid name hname))).2
    obtain ⟨content, hcontent⟩ := Option.isSome_iff_exists.mp hthere
    have hkept := verifyFileLegality_kept hh _ name ((hnames name).mpr hname)
    rw [← entry_target hh name hentry, hdisk] at hkept
    exact ⟨content, hcontent, hkept.trans hcontent⟩
  · intro path
    constructor
    · rintro ⟨hthere, hgone⟩
      exact verified_removed hh hs clock path hthere hgone
    · rintro ⟨name, hres, rfl⟩
      have hin : (s.hash.lookup name).isSome = true := by rw [hres]; rfl
      exact ⟨((present_iff hh s.disk name).mp (hs.stored.present name hin)).2,
        verified_reserved hh hs clock name hres⟩

end Preserved

/-- In a run that ends after a completed pass with nothing changed since, a start from
the disk preserves the store exactly when the metadata file is not longer than
`GetContent` reads. -/
theorem restart_preserves (env : Env) (codec : Codec) (w : Session) (ops : List Op)
    (hh : Housed env)
    (hcodec : Reads codec) (hstart : Start env w) (hproper : Meets (step env codec) Proper w ops)
    (t : Session)
    (hrun : run (step env codec) w ops = some t) (hclean : Clean t) (clock : ℕ → ℤ) :
    Preserved env t.process.store (construct env codec clock t.process.store.disk) ↔
      ∀ text, t.process.store.disk.files.lookup (metaPath env) = some text →
        text.length ≤ maxContent := by
  have hsound : Sound env codec t := throughout_run
    (invariant_throughout (fun _ a u hw hp hu => step_sound hh hw a u hp hu)
      (start_sound hcodec hstart) hproper) hrun
  have htidy := hsound.tidy
  have hreached := hsound.reached hclean.clean
  rw [Reached, hclean.waiting] at hreached
  obtain ⟨text, hser, hfile⟩ := hreached hclean.completed
  have hread : t.process.store.disk.next.1 = none := by rw [next_of_clean _ htidy.faults]
  constructor
  · intro hpreserved content hcontent
    obtain rfl := Option.some.inj (hfile.symm.trans hcontent)
    by_contra hlong
    have hexit := construct_cut hh codec clock _ text hfile hcodec _ hser (not_le.mp hlong)
    rw [hpreserved.starts] at hexit
    cases hexit
  · intro hlen
    rw [construct_reads hh codec clock _ text hfile hcodec _ (snapshot_fits htidy.stored) hser
      (hlen text hfile) hread]
    exact verified_preserved hh htidy clock

theorem meets_proper {env : Env} {codec : Codec} (w : Session) (ops : List Op)
    (h : ∀ filename, Op.register filename ∈ ops → 0 ∉ filename) :
    Meets (step env codec) Proper w ops := by
  induction ops generalizing w with
  | nil => trivial
  | cons a as ih =>
    intro t _
    constructor
    · cases a with
      | register filename => exact h filename List.mem_cons_self
      | append | deregister | insert | delete | collect | serialize | clear | store => trivial
    · exact ih t fun filename hin => h filename (List.mem_cons_of_mem a hin)

def firstSession : Session where
  process := firstProcess []
  completed := true

theorem firstSession_start : Start plainEnv firstSession where
  empty := rfl
  waiting := rfl
  faults := rfl
  file := AList.lookup_insert _
  vacant := fun name hentry => by
    show AList.lookup _ ((∅ : Table Bytes).insert (metaPath plainEnv) (bytes "null")) = none
    rw [AList.lookup_insert_ne (target_apart plainEnv_housed name hentry)]
    rfl
  clock := fun _ => by
    show Int64Range 0
    constructor <;> decide

def onePass : List Op := [.collect, .serialize, .clear, .store]

/-- The upload of "g" is not finished. -/
def uploadsAndPass : List Op :=
  [.register (bytes "f"), .append (bytes "f") (bytes "hello"), .register (bytes "g"),
    .insert (bytes "f")] ++ onePass

theorem restart_preserves_hello :
    ∃ t, run (step plainEnv helloCodec) firstSession uploadsAndPass = some t ∧
    Preserved plainEnv t.process.store
      (construct plainEnv helloCodec (fun _ => 0) t.process.store.disk) := by
  let t := (run (step plainEnv helloCodec) firstSession uploadsAndPass).get (by decide +kernel)
  have hrun : run (step plainEnv helloCodec) firstSession uploadsAndPass = some t :=
    (Option.some_get _).symm
  have hfile : t.process.store.disk.files.lookup (metaPath plainEnv) = some helloText := by
    decide +kernel
  have hproper : Meets (step plainEnv helloCodec) Proper firstSession uploadsAndPass :=
    meets_proper firstSession uploadsAndPass fun filename hin => by
      simp only [uploadsAndPass, onePass, List.mem_append, List.mem_cons, Op.register.injEq,
        reduceCtorEq, List.not_mem_nil, or_false, false_or] at hin
      rcases hin with rfl | rfl <;> decide
  have hclean : Clean t := ⟨rfl, by decide +kernel, by decide +kernel⟩
  refine ⟨t, hrun, (restart_preserves plainEnv helloCodec firstSession uploadsAndPass
    plainEnv_housed helloCodec_reads
    firstSession_start hproper t hrun hclean _).mpr fun text htext => ?_⟩
  rw [hfile] at htext
  cases htext
  decide

def recordsCodec (records : List BackupInfoNode) : Codec where
  serialize := fun j =>
    match j with
    | .null => some (bytes "null")
    | j => if j.items.mapM itemInfo = some records then
      some (plainText (metadata records)) else none
  deserialize := fun text =>
    if text = bytes "null" then some .null
    else if text = plainText (metadata records) then some (metadata records) else none

section Codec
variable {records : List BackupInfoNode} (hrecords : records ≠ [])
include hrecords

theorem plainText_metadata : ∃ rest, plainText (metadata records) = 91 :: rest := by
  rw [metadata, if_neg hrecords]
  exact ⟨_, rfl⟩

omit hrecords in
theorem recordsCodec_texts (infos : List BackupInfoNode) (text : Bytes)
    (h : (recordsCodec records).serialize (metadata infos) = some text) :
    (infos = [] ∧ text = bytes "null") ∨
      ((metadata infos).items.mapM itemInfo = some records ∧
        text = plainText (metadata records)) := by
  by_cases hn : infos = []
  · subst hn
    cases h
    exact Or.inl ⟨rfl, rfl⟩
  · rw [metadata, if_neg hn] at h ⊢
    simp only [recordsCodec] at h
    split_ifs at h with hm
    cases h
    exact Or.inr ⟨hm, rfl⟩

theorem recordsCodec_reads : Reads (recordsCodec records) where
  null := rfl
  back := fun infos text hfits hser => by
    obtain ⟨rest, hrest⟩ := plainText_metadata hrecords
    rcases recordsCodec_texts infos text hser with ⟨rfl, rfl⟩ | ⟨hm, rfl⟩
    · exact ⟨by decide, rfl⟩
    · rw [readBack infos hfits] at hm
      cases hm
      have hne : plainText (metadata records) ≠ bytes "null" := by
        rw [hrest]
        exact fun h => absurd (List.cons.inj h).1 (by decide)
      constructor
      · rw [hrest]
        exact List.cons_ne_nil _ _
      · simp only [recordsCodec, hne, if_false, if_true]
  cut := fun infos text part hser hpre hne hnil => by
    obtain ⟨rest, hrest⟩ := plainText_metadata hrecords
    have hhead : part.head? = text.head? := by
      obtain ⟨b, bs, rfl⟩ := List.exists_cons_of_ne_nil hnil
      obtain ⟨tail, rfl⟩ := hpre
      rfl
    have hnull : (bytes "null").head? = some 110 := rfl
    have hout : part ≠ bytes "null" ∧ part ≠ plainText (metadata records) := by
      rcases recordsCodec_texts infos text hser with ⟨rfl, rfl⟩ | ⟨-, rfl⟩
      · refine ⟨hne, ?_⟩
        rintro rfl
        rw [hrest, List.head?_cons, hnull] at hhead
        exact absurd hhead (by decide)
      · refine ⟨?_, hne⟩
        rintro rfl
        rw [hrest, List.head?_cons, hnull] at hhead
        exact absurd hhead (by decide)
    simp only [recordsCodec, hout.1, hout.2, if_false]

end Codec

theorem length_intercalate (separator : Bytes) (n : ℕ) (parts : List Bytes)
    (h : ∀ part ∈ parts, n ≤ part.length) :
    n*parts.length ≤ (separator.intercalate parts).length := by
  induction parts with
  | nil => exact Nat.zero_le _
  | cons part parts ih =>
    have hpart := h part List.mem_cons_self
    have hparts := ih fun q hq => h q (List.mem_cons_of_mem part hq)
    have hstep : part.length + (separator.intercalate parts).length ≤ (separator.intercalate
      (part::parts)).length := by
      cases parts with
      | nil => simp [List.intercalate]
      | cons q qs => simp [List.intercalate, List.intersperse]
    rw [List.length_cons, Nat.mul_add_one]
    omega

theorem length_fileNode (r : BackupInfoNode) :
    32 ≤ (newline 1 ++ plainObject 1 (fileNode r)).length := by
  simp [newline, plainObject, fileNode, plainMember, quoted, plainScalar, List.intercalate, bytes]
  omega

theorem length_metadata (records : List BackupInfoNode) (h : records ≠ []) :
    32*records.length ≤ (plainText (metadata records)).length := by
  have hparts := length_intercalate (bytes ",") 32 ((records.map fileNode).map fun j =>
    newline 1 ++ plainObject 1 j)
    (by
      intro part hpart
      obtain ⟨j, hj, rfl⟩ := List.mem_map.mp hpart
      obtain ⟨r, -, rfl⟩ := List.mem_map.mp hj
      exact length_fileNode r)
  rw [List.length_map, List.length_map] at hparts
  rw [metadata, if_neg h]
  simp only [plainText, List.length_append]
  omega

theorem pass_completes {env : Env} (hh : Housed env) (codec : Codec) (w : Session)
    (old text : Bytes)
    (hwaiting : w.process.pass = .waiting) (hdirty : w.process.store.isDirty = true)
    (hfaults : w.process.store.disk.faults = [])
    (hfile : w.process.store.disk.files.lookup (metaPath env) = some old)
    (hser : codec.serialize (metadata (getAllBackupInfo w.process.store)) = some text) :
    ∃ t, run (step env codec) w onePass = some t ∧ Clean t ∧
      t.process.store.disk.files.lookup (metaPath env) = some text := by
  obtain ⟨⟨s, pass⟩, completed⟩ := w
  obtain rfl : pass = .waiting := hwaiting
  dsimp only at hdirty hfaults hfile hser
  obtain ⟨d, hd⟩ : ∃ d, d = s.disk.write (metaFile env) [] := ⟨_, rfl⟩
  have hexists : fileExists env (metaFile env) s.disk = true := by
    rw [metaPath] at hfile
    simp [fileExists, writable_ne_nil hh.written, hfile]
  have hclear : FileStore.clear env (metaFile env) s.disk = (true, d) := by
    rw [hd]
    exact clear_clean hfaults env (metaFile env) hexists hh.written
  have hempty : d.files.lookup (cstr (metaFile env)) = some [] := by
    rw [hd]
    exact write_lookup s.disk (metaFile env) []
  have happend : appendContent env (metaFile env) text d = (true, d.write (metaFile env) text) := by
    rw [appendContent_clean (by rw [hd]; exact hfaults) env (metaFile env) text hh.written, hempty]
    rfl
  obtain ⟨u, hu⟩ : ∃ u : Store, u = { s with isDirty := false } := ⟨_, rfl⟩
  have hcollect : step env codec ⟨⟨s, .waiting⟩, completed⟩ .collect =
      some ⟨⟨u, .collected (getAllBackupInfo s)⟩, false⟩ := by
    simp [step, passStep, CleanFlag.step, hdirty, hu]
  have hserialize : step env codec ⟨⟨u, .collected (getAllBackupInfo s)⟩, false⟩ .serialize =
      some ⟨⟨u, .serialized (getAllBackupInfo s) text⟩, false⟩ := by
    simp [step, passStep, CleanFlag.step, hser]
  have hclears : step env codec ⟨⟨u, .serialized (getAllBackupInfo s) text⟩, false⟩ .clear =
      some ⟨⟨{ u with disk := d }, .cleared (getAllBackupInfo s) text⟩, false⟩ := by
    have hdisk : u.disk = s.disk := by rw [hu]
    simp [step, passStep, CleanFlag.step, withDisk, hdisk, hclear]
  have hstore : step env codec
    ⟨⟨{ u with disk := d }, .cleared (getAllBackupInfo s) text⟩, false⟩ .store =
      some ⟨⟨{ u with disk := d.write (metaFile env) text }, .waiting⟩, true⟩ := by
    simp [step, withDisk, happend]
  refine ⟨⟨⟨{ u with disk := d.write (metaFile env) text }, .waiting⟩, true⟩, ?_,
    ⟨rfl, rfl, by rw [hu]⟩, ?_⟩
  · rw [onePass, run, hcollect, Option.bind_some, run, hserialize, Option.bind_some, run, hclears,
      Option.bind_some, run, hstore]
    rfl
  · exact write_lookup d (metaFile env) text

def upload (env : Env) (filename : Bytes) (s : Store) : Store :=
  let t := (DataManager.register env filename s).2
  let size := getFileSize (targetFile env filename) t.disk
  (DataManager.insert filename size.1 { t with disk := size.2 }).2

def filled : ℕ → Store
  | 0 => firstSession.process.store
  | n+1 => upload plainEnv (toDecimal n) (filled n)

def uploads (n : ℕ) : List Op :=
  (List.range n).flatMap fun i : ℕ => [.register (toDecimal i), .insert (toDecimal i)]

theorem number_free (n : ℕ) (b : UInt8) (h : b.toNat < 48) : b ∉ toDecimal n :=
  toDecimal_free n b (Or.inl h)

theorem number_entry (n : ℕ) : isEntry (toDecimal n) = true := by
  rw [entry_iff]
  refine ⟨toDecimal_ne_nil n, number_free n slash (by decide), number_free n 0 (by decide), ?_, ?_⟩
  · intro h
    exact number_free n 46 (by decide) (by rw [h]; decide)
  · intro h
    exact number_free n 46 (by decide) (by rw [h]; decide)

theorem uploads_run (codec : Codec) (n : ℕ) :
    run (step plainEnv codec) firstSession
      (uploads n) = some (onStore firstSession (filled n)) := by
  induction n with
  | zero => rfl
  | succ n ih =>
    rw [uploads, List.range_succ, List.flatMap_append, run_append]
    rw [uploads] at ih
    rw [ih]
    rfl

theorem uploads_proper (codec : Codec) (n : ℕ) (w : Session) (ops : List Op)
    (hops : ∀ filename, Op.register filename ∉ ops) :
    Meets (step plainEnv codec) Proper w (uploads n ++ ops) := by
  apply meets_proper
  intro filename hin
  rcases List.mem_append.mp hin with hin | hin
  · obtain ⟨i, -, hi⟩ := List.mem_flatMap.mp hin
    rcases List.mem_cons.mp hi with hi | hi
    · cases hi
      exact number_free i 0 (by decide)
    · cases List.mem_singleton.mp hi
  · exact absurd hin (hops filename)

theorem number_check (n : ℕ) : checkFilename (toDecimal n) = true := by
  rw [checkFilename_iff]
  exact ⟨toDecimal_ne_nil n, number_free n slash (by decide), number_free n quote (by decide)⟩

theorem number_writable (n : ℕ) : writable plainEnv (targetFile plainEnv (toDecimal n)) = true := by
  have htarget : cstr (targetFile plainEnv (toDecimal n)) = bytes "/backup/" ++ toDecimal n :=
    entry_target plainEnv_housed _ (number_entry n)
  obtain ⟨b, bs, hname⟩ := List.exists_cons_of_ne_nil (toDecimal_ne_nil n)
  have hdir : ∀ dir : Bytes, dir.length < 9 → bytes "/backup/" ++ toDecimal n ≠ dir := by
    rintro dir hlen rfl
    rw [List.length_append, hname, List.length_cons] at hlen
    have hbackup : (bytes "/backup/").length = 8 := rfl
    omega
  have hfirst := hdir (bytes "/backup") (by decide)
  have hsecond := hdir (bytes "/") (by decide)
  have hnil := hdir [] (by decide)
  rw [writable, htarget]
  simp only [plainEnv, hfirst, hsecond, decide_false, Bool.or_false, Bool.not_false, Bool.and_true]
  exact bne_iff_ne.mpr hnil

structure Uploaded (env : Env) (filename : Bytes) (s t : Store) : Prop where
  tidy : Tidy env t
  dirty : t.isDirty = true
  file : t.disk.files.lookup (metaPath env) = s.disk.files.lookup (metaPath env)
  keeps : ∀ r, Recorded s r → Recorded t r
  recorded : ∃ r, Recorded t r ∧ r.filename = filename
  others : ∀ name, name ≠ filename → t.hash.lookup name = s.hash.lookup name

theorem upload_uploaded {env : Env} (hh : Housed env) {s : Store} (hs : Tidy env s)
    (filename : Bytes)
    (hentry : isEntry filename = true) (hcheck : checkFilename filename = true)
    (hw : writable env (targetFile env filename) = true) (hfree : s.hash.lookup filename = none) :
    Uploaded env filename s (upload env filename s) := by
  have hreg : registrable filename s = true := by
    rw [registrable, hfree, hcheck]
    rfl
  have hmeta := target_apart hh filename hentry
  have hregister : (DataManager.register env filename s).2 =
      { s with hash := s.hash.insert filename none,
               disk := s.disk.write (targetFile env filename) [] } := by
    rw [(register_free env filename s hreg).2, prepareFile_clean hs.faults env _ hw, if_pos rfl]
  have htidy := tidy_register hh hs filename ((entry_iff filename).mp hentry).2.2.1
  have hkeeps := fun r => recorded_register env filename (s := s) r
  have haside := aside_register env filename s hmeta
  have hhash : (DataManager.register env filename s).2.hash = s.hash.insert filename none := by
    rw [hregister]
  rw [upload]
  generalize (DataManager.register env filename s).2 = t at htidy hkeeps haside hhash ⊢
  have hres : t.hash.lookup filename = some none := by
    rw [hhash]
    exact AList.lookup_insert _
  have hinsert := tidy_insert hh htidy filename
  obtain ⟨size, hsize, -⟩ := insert_size hh htidy filename hres
  rw [hsize] at hinsert ⊢
  have hrecorded := fun r => recorded_insert htidy.stored filename size.toInt r
  have hreserved := insert_reserved filename size.toInt t hres
  constructor
  · exact hinsert
  · rw [hreserved]
  · rw [insert_disk]
    exact haside.file
  · exact fun r hr => hrecorded r (hkeeps r hr)
  · rw [hreserved]
    refine ⟨(newNode filename size.toInt t).info, ⟨t.nextNode, AList.lookup_insert _, ?_⟩, rfl⟩
    show (Function.update t.nodes t.nextNode (newNode filename size.toInt t) t.nextNode).info = _
    rw [Function.update_self]
  · intro name hne
    rw [hreserved]
    show (t.hash.insert filename (some t.nextNode)).lookup name = _
    rw [AList.lookup_insert_ne hne, hhash, AList.lookup_insert_ne hne]

structure Filled (n : ℕ) (s : Store) : Prop where
  tidy : Tidy plainEnv s
  records : ∀ i : ℕ, i < n → ∃ r, Recorded s r ∧ r.filename = toDecimal i
  free : ∀ i : ℕ, n ≤ i → s.hash.lookup (toDecimal i) = none
  dirty : 0 < n → s.isDirty = true
  file : s.disk.files.lookup (metaPath plainEnv) = some (bytes "null")

theorem filled_filled (n : ℕ) : Filled n (filled n) := by
  induction n with
  | zero =>
    have hstart := firstSession_start
    constructor
    · exact start_tidy hstart
    · exact fun i hi => absurd hi (Nat.not_lt_zero i)
    · exact fun _ _ => rfl
    · exact fun hpos => absurd hpos (Nat.lt_irrefl 0)
    · exact hstart.file
  | succ n ih =>
    have hup := upload_uploaded plainEnv_housed ih.tidy (toDecimal n) (number_entry n)
      (number_check n)
      (number_writable n) (ih.free n le_rfl)
    constructor
    · exact hup.tidy
    · intro i hi
      rcases Nat.lt_succ_iff_lt_or_eq.mp hi with hi | rfl
      · obtain ⟨r, hr, hname⟩ := ih.records i hi
        exact ⟨r, hup.keeps r hr, hname⟩
      · exact hup.recorded
    · intro i hi
      rw [filled, hup.others]
      · exact ih.free i (Nat.le_of_succ_le hi)
      · intro heq
        have hdigits := congrArg digits heq
        rw [digits_toDecimal, digits_toDecimal] at hdigits
        omega
    · exact fun _ => hup.dirty
    · exact hup.file.trans ih.file

theorem filled_length (n : ℕ) : n ≤ (getAllBackupInfo (filled n)).length := by
  have hf := filled_filled n
  have hnames : ((List.range n).map fun i : ℕ => toDecimal i) ⊆ (getAllBackupInfo (filled n)).map
    BackupInfoNode.filename := by
    intro name hname
    obtain ⟨i, hi, rfl⟩ := List.mem_map.mp hname
    obtain ⟨r, hr, hr'⟩ := hf.records i (List.mem_range.mp hi)
    exact List.mem_map.mpr ⟨r, (mem_snapshot hf.tidy.stored r).mpr hr, hr'⟩
  have hnodup : ((List.range n).map fun i : ℕ => toDecimal i).Nodup := by
    apply List.nodup_range.map
    intro i j heq
    have hdigits := congrArg digits heq
    rwa [digits_toDecimal, digits_toDecimal] at hdigits
  have hlength := (hnodup.subperm hnames).length_le
  rwa [List.length_map, List.length_map, List.length_range] at hlength

def filledCodec (n : ℕ) : Codec := recordsCodec (getAllBackupInfo (filled n))

theorem filled_lost (n : ℕ) (hn : maxContent < 32*n) :
    Reads (filledCodec n) ∧
    Meets (step plainEnv (filledCodec n)) Proper firstSession (uploads n ++ onePass) ∧
    ∃ t, run (step plainEnv (filledCodec n)) firstSession (uploads n ++ onePass) = some t ∧
      Clean t ∧ (construct plainEnv (filledCodec n)
        (fun _ => 0) t.process.store.disk).1 = false := by
  have hf := filled_filled n
  have hlength := filled_length n
  have hpos : 0 < n := by omega
  have hne : getAllBackupInfo (filled n) ≠ [] := by
    intro h
    rw [h] at hlength
    exact absurd hlength (Nat.not_le_of_lt hpos)
  have hreads : Reads (filledCodec n) := recordsCodec_reads hne
  have hser : (filledCodec n).serialize (metadata (getAllBackupInfo (filled n))) =
      some (plainText (metadata (getAllBackupInfo (filled n)))) := by
    have hback := readBack _ (snapshot_fits hf.tidy.stored)
    rw [metadata, if_neg hne] at hback ⊢
    simp only [filledCodec, recordsCodec, hback, if_true]
    rw [metadata, if_neg hne]
  have hlong := length_metadata _ hne
  refine ⟨hreads, uploads_proper _ n _ _ (by simp [onePass]), ?_⟩
  obtain ⟨t, hrun, hclean, hfile⟩ := pass_completes plainEnv_housed (filledCodec n)
    (onStore firstSession (filled n)) (bytes "null") _ rfl
      (hf.dirty hpos) hf.tidy.faults hf.file hser
  refine ⟨t, ?_, hclean, construct_cut plainEnv_housed _ _ _ _ hfile hreads _ hser (by omega)⟩
  rw [run_append, uploads_run, Option.bind_some]
  exact hrun

/-- The file lists more uploads than are read of it: the start fails. -/
theorem long_metadata_lost : ∃ n codec, n = 2^27 ∧ codec = filledCodec n ∧
    Housed plainEnv ∧ Reads codec ∧ Start plainEnv firstSession ∧
    Meets (step plainEnv codec) Proper firstSession (uploads n ++ onePass) ∧
    ∃ t, run (step plainEnv codec) firstSession (uploads n ++ onePass) = some t ∧ Clean t ∧
      ¬ Preserved plainEnv t.process.store
        (construct plainEnv codec (fun _ => 0) t.process.store.disk) := by
  obtain ⟨n, hn⟩ : ∃ n : ℕ, n = 2^27 := ⟨_, rfl⟩
  have hlong : maxContent < 32*n := by
    rw [hn]
    norm_num [maxContent]
  obtain ⟨hreads, hproper, t, hrun, hclean, hexit⟩ := filled_lost n hlong
  refine ⟨n, _, hn, rfl, plainEnv_housed, hreads, firstSession_start, hproper, t, hrun, hclean,
    fun hpreserved => ?_⟩
  rw [hpreserved.starts] at hexit
  cases hexit

end CloudBackup.CleanRestart
