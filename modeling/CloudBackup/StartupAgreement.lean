import CloudBackup.CleanRestart

/-!
# What a start agrees on

Two independent inputs meet in the constructor: the items of the metadata file
and the files of the backup directory. Names are reconciled both ways. Sizes
are taken over from the items as they are, and items dropped or overwritten
while loading leave the dirty flag alone.
-/

set_option autoImplicit false

namespace CloudBackup.StartupAgreement
open CloudBackup.ByteStrings CloudBackup.JsonCodec CloudBackup.FilePath CloudBackup.BackupDirectory
open CloudBackup.FileStore CloudBackup.DataManager CloudBackup.MetadataFile CloudBackup.Restart
open CloudBackup.StoragePass CloudBackup.MetadataCrash CloudBackup.CleanFlag
  CloudBackup.CleanRestart

def entryFile (env : Env) (d : Disk) (name : Bytes) : Option Bytes :=
  d.files.lookup (withSlash (backupDir env) ++ name)

def standing (infos : List BackupInfoNode) (name : Bytes) : Option BackupInfoNode :=
  (infos.filter fun i => acceptable i && i.filename = name).getLast?

structure Agrees (env : Env) (d : Disk) (infos : List BackupInfoNode) (t : Store) : Prop where
  keys : ∀ name, (t.hash.lookup name).isSome = true ↔ present env t.disk name = true
  records : ∀ name v, t.hash.lookup name = some v → ∃ r, r.filename = name ∧ Restart.Recorded t r
  sizes : ∀ r, Restart.Recorded t r → ∀ F, entryFile env t.disk r.filename = some F →
    r.size = F.length
  kept : ∀ i ∈ infos, acceptable i = true →
    entryFile env t.disk i.filename = entryFile env d i.filename
  flagged : (¬ ∀ r, Restart.Recorded t r ↔ r ∈ infos) → t.isDirty = true

/-- The sizes fit the files, and a record goes or the items need no clearing up. -/
structure Consistent (env : Env) (d : Disk) (infos : List BackupInfoNode) : Prop where
  sizes : ∀ name r F, standing infos name = some r → isEntry name = true →
    entryFile env d name = some F →
    r.size = F.length
  orderly : (∃ i ∈ infos, acceptable i = true ∧ present env d i.filename = false) ∨
    ∀ i ∈ infos, acceptable i = true ∧ ∀ j ∈ infos, j.filename = i.filename → j = i

theorem standing_snoc (infos : List BackupInfoNode) (i : BackupInfoNode) (name : Bytes) :
    standing (infos ++ [i]) name =
      if acceptable i = true ∧ i.filename = name then some i else standing infos name := by
  unfold standing
  rw [List.filter_append]
  by_cases hi : acceptable i = true ∧ i.filename = name
  · have hyes : (acceptable i && decide (i.filename = name)) = true :=
      Bool.and_eq_true_iff.mpr ⟨hi.1, decide_eq_true hi.2⟩
    rw [if_pos hi, List.filter_cons, if_pos hyes, List.filter_nil, List.getLast?_concat]
  · have hnot : ¬ (acceptable i && decide (i.filename = name)) = true := by
      rw [Bool.and_eq_true, decide_eq_true_iff]
      exact hi
    rw [if_neg hi, List.filter_cons, if_neg hnot, List.filter_nil, List.append_nil]

theorem standing_mem {infos : List BackupInfoNode} {name : Bytes} {r : BackupInfoNode}
    (h : standing infos name = some r) : r ∈ infos ∧ acceptable r = true ∧ r.filename = name := by
  obtain ⟨hr, hboth⟩ := List.mem_filter.mp (List.mem_of_getLast? h)
  obtain ⟨hok, hname⟩ := Bool.and_eq_true_iff.mp hboth
  exact ⟨hr, hok, of_decide_eq_true hname⟩

theorem standing_exists {infos : List BackupInfoNode} {i : BackupInfoNode} (hi : i ∈ infos)
    (hok : acceptable i = true) : ∃ r, standing infos i.filename = some r := by
  have hmem : i ∈ infos.filter fun j => acceptable j && decide (j.filename = i.filename) := by
    simp [hi, hok]
  exact ⟨_, List.getLast?_eq_some_getLast (List.ne_nil_of_mem hmem)⟩

theorem loadRecords_snoc (infos : List BackupInfoNode) (i : BackupInfoNode) (s : Store) :
    loadRecords (infos ++ [i]) s =
      if acceptable i then addRecord (loadRecords infos s) i else loadRecords infos s := by
  rw [loadRecords, List.foldl_append]
  rfl

theorem recorded_standing (clock : ℕ → ℤ) (d : Disk) (infos : List BackupInfoNode)
    (r : BackupInfoNode) :
    Restart.Recorded (loadRecords infos (reborn clock d)) r ↔
      standing infos r.filename = some r := by
  induction infos using List.reverseRecOn with
  | nil =>
    constructor
    · intro hr
      exact absurd hr (reborn_records clock d r)
    · intro hr
      cases hr
  | append_singleton infos i ih =>
    have hloaded := loaded_loadRecords infos _ (reborn_loaded clock d)
    rw [loadRecords_snoc, standing_snoc]
    by_cases hok : acceptable i = true
    · rw [if_pos hok, recorded_addRecord _ hloaded, ih]
      by_cases hname : i.filename = r.filename
      · rw [if_pos ⟨hok, hname⟩, Option.some.injEq]
        constructor
        · rintro (rfl | ⟨hne, -⟩)
          · rfl
          · exact absurd hname.symm hne
        · intro hir
          exact Or.inl hir.symm
      · rw [if_neg fun hc => hname hc.2]
        constructor
        · rintro (rfl | ⟨-, hr⟩)
          · exact absurd rfl hname
          · exact hr
        · intro hr
          exact Or.inr ⟨fun he => hname he.symm, hr⟩
    · rw [if_neg hok, if_neg fun hc => hok hc.1]
      exact ih

theorem names_standing (clock : ℕ → ℤ) (d : Disk) (infos : List BackupInfoNode) (name : Bytes) :
    ((loadRecords infos (reborn clock d)).hash.lookup name).isSome = true ↔
      ∃ i ∈ infos, acceptable i = true ∧ i.filename = name := by
  constructor
  · intro h
    obtain ⟨v, hv⟩ := Option.isSome_iff_exists.mp h
    obtain ⟨r, rfl, hr⟩ := (loaded_loadRecords infos _ (reborn_loaded clock d)).records name v hv
    obtain ⟨hmem, hok, -⟩ := standing_mem ((recorded_standing clock d infos r).mp hr)
    exact ⟨r, hmem, hok, rfl⟩
  · rintro ⟨i, hi, hok, rfl⟩
    obtain ⟨r, hr⟩ := standing_exists hi hok
    have hname := (standing_mem hr).2.2
    rw [← hname] at hr ⊢
    obtain ⟨id, hid, -⟩ := (recorded_standing clock d infos r).mpr hr
    rw [hid]
    rfl

/-- Records and items are the same only where nothing is dropped or overwritten. -/
theorem standing_all (infos : List BackupInfoNode) :
    (∀ r, standing infos r.filename = some r ↔ r ∈ infos) ↔
    ∀ i ∈ infos, acceptable i = true ∧ ∀ j ∈ infos, j.filename = i.filename → j = i := by
  constructor
  · intro h i hi
    have hstands := (h i).mpr hi
    refine ⟨(standing_mem hstands).2.1, fun j hj hname => ?_⟩
    have hother := (h j).mpr hj
    rw [hname, hstands] at hother
    exact (Option.some.inj hother).symm
  · intro h r
    constructor
    · exact fun hr => (standing_mem hr).1
    · intro hr
      obtain ⟨hok, hsame⟩ := h r hr
      obtain ⟨x, hx⟩ := standing_exists hr hok
      obtain ⟨hmem, -, hname⟩ := standing_mem hx
      rw [hx, hsame x hmem hname]

section Start
variable {env : Env} (hh : Housed env) {d : Disk} (hd : d.faults = []) {infos : List BackupInfoNode}
  (clock : ℕ → ℤ)
include hh hd

theorem construct_items (codec : Codec) {text : Bytes}
    (hmeta : d.files.lookup (metaPath env) = some text)
    (hitems : itemsOf codec (text.take maxContent) = some infos) :
    construct env codec clock
      d = (true, verifyFileLegality env (loadRecords infos (reborn clock d))) := by
  have hload : loadFromFile env codec
    (Store.fresh clock d) = (true, loadRecords infos (reborn clock d)) := by
    unfold loadFromFile
    have hget : getContent (metaFile env) 0 maxContent (Store.fresh clock d).disk =
      (some (text.take maxContent), d.next.2) := by
      show getContent (metaFile env) 0 maxContent d = _
      rw [getContent_meta d text hmeta, next_of_clean d hd]
      rfl
    rw [hget]
    dsimp only
    unfold itemsOf at hitems
    split_ifs at hitems ⊢ with hnil
    · cases hitems
      rfl
    · rw [hitems]
      rfl
  rw [construct_loads hh codec clock d text hmeta, hload]
  rfl

omit hh in
theorem loaded_same : (loadRecords infos (reborn clock d)).disk = d := by
  rw [loadRecords_disk]
  show d.next.2 = d
  rw [next_of_clean d hd]

theorem dirty_iff : (verifyFileLegality env (loadRecords infos (reborn clock d))).isDirty = true ↔
    ∃ i ∈ infos, acceptable i = true ∧ present env d i.filename = false := by
  have hclean : (loadRecords infos (reborn clock d)).isDirty = false := by
    induction infos using List.reverseRecOn with
    | nil => rfl
    | append_singleton infos i ih =>
      rw [loadRecords_snoc]
      split_ifs
      · exact ih
      · exact ih
  rw [verifyFileLegality_dirty hh, loaded_same hd clock, hclean]
  constructor
  · rintro (hdirty | ⟨name, hin, habsent⟩)
    · cases hdirty
    · obtain ⟨i, hi, hok, rfl⟩ := (names_standing clock d infos name).mp hin
      exact ⟨i, hi, hok, habsent⟩
  · rintro ⟨i, hi, hok, habsent⟩
    exact Or.inr ⟨i.filename,
      (names_standing clock d infos i.filename).mpr ⟨i, hi, hok, rfl⟩, habsent⟩

theorem recorded_start (r : BackupInfoNode) :
    Restart.Recorded (verifyFileLegality env (loadRecords infos (reborn clock d))) r ↔
      standing infos r.filename = some r ∧ present env d r.filename = true := by
  rw [recorded_verify hh, recorded_standing, loaded_same hd clock]

theorem start_kept (i : BackupInfoNode) (hi : i ∈ infos) (hok : acceptable i = true) :
    entryFile env (verifyFileLegality env (loadRecords infos (reborn clock d))).disk i.filename =
      entryFile env d i.filename := by
  have hkept := verifyFileLegality_kept hh _ i.filename
    ((names_standing clock d infos i.filename).mpr ⟨i, hi, hok, rfl⟩)
  rw [loaded_same hd clock] at hkept
  exact hkept

theorem start_keys (hfiles : ∀ path F, d.files.lookup path = some F → env.isDirectory path = false)
    (name : Bytes) :
    ((verifyFileLegality env (loadRecords infos (reborn clock d))).hash.lookup name).isSome = true ↔
      present env (verifyFileLegality env (loadRecords infos (reborn clock d))).disk
        name = true := by
  constructor
  · exact present_verify hh _ name
  · intro hp
    obtain ⟨hentry, hfile⟩ := Bool.and_eq_true_iff.mp hp
    cases hname : (loadRecords infos (reborn clock d)).hash.lookup name with
    | some v =>
      have hkept := verifyFileLegality_kept hh (loadRecords infos (reborn clock d)) name
        (by rw [hname]; rfl)
      have hthere : present env (loadRecords infos (reborn clock d)).disk name = true := by
        rw [present, hentry, ← hkept]
        exact hfile
      rw [verifyFileLegality_lookup hh, if_pos hthere, hname]
      rfl
    | none =>
      obtain ⟨F, hF⟩ := Option.isSome_iff_exists.mp hfile
      have hbefore : (loadRecords infos (reborn clock d)).disk.files.lookup
        (withSlash (backupDir env) ++ name) = some F := by
        obtain ⟨files, hscan, -⟩ :=
          scanDirectory_listed hh (loadRecords infos (reborn clock d)).disk
        rw [verifyFileLegality, hscan] at hF
        exact removeOrphans_shrinks env _ files _ F hF
      rw [loaded_same hd clock] at hbefore
      have hgone := verifyFileLegality_orphan hh (loadRecords infos (reborn clock d))
        name hentry hname
        (hfiles _ F hbefore) (by rw [loaded_same hd clock]; exact hd)
      rw [hgone] at hF
      cases hF

theorem start_agrees (hfiles : ∀ path F, d.files.lookup path = some F →
    env.isDirectory path = false) :
    Agrees env d infos (verifyFileLegality env (loadRecords infos (reborn clock d))) ↔
      Consistent env d infos := by
  have hrecorded : ∀ r, Restart.Recorded
    (verifyFileLegality env (loadRecords infos (reborn clock d))) r ↔
      standing infos r.filename = some r ∧ present env d r.filename = true :=
        recorded_start hh hd clock
  have hloaded := loaded_verify hh _ (loaded_loadRecords infos _ (reborn_loaded clock d))
  constructor
  · intro ha
    constructor
    · intro name r F hstands hentry hF
      obtain ⟨hr, hok, rfl⟩ := standing_mem hstands
      have hpresent : present env d r.filename = true := by
        rw [entryFile] at hF
        rw [present, hentry, hF]
        rfl
      apply ha.sizes r ((hrecorded r).mpr ⟨hstands, hpresent⟩)
      rw [ha.kept r hr hok]
      exact hF
    · by_cases hdirty : ∃ i ∈ infos, acceptable i = true ∧ present env d i.filename = false
      · exact Or.inl hdirty
      · apply Or.inr
        rw [← standing_all]
        have hsame : ∀ r, Restart.Recorded
          (verifyFileLegality env (loadRecords infos (reborn clock d))) r ↔ r ∈ infos := by
          by_contra hdiffer
          exact hdirty ((dirty_iff hh hd clock).mp (ha.flagged hdiffer))
        intro r
        constructor
        · exact fun hr => (standing_mem hr).1
        · intro hr
          exact ((hrecorded r).mp ((hsame r).mpr hr)).1
  · intro hc
    constructor
    · exact start_keys hh hd clock hfiles
    · exact hloaded.records
    · intro r hr F hF
      obtain ⟨hstands, hpresent⟩ := (hrecorded r).mp hr
      obtain ⟨hmem, hok, -⟩ := standing_mem hstands
      rw [start_kept hh hd clock r hmem hok] at hF
      exact hc.sizes r.filename r F hstands (Bool.and_eq_true_iff.mp hpresent).1 hF
    · exact start_kept hh hd clock
    · intro hdiffer
      apply (dirty_iff hh hd clock).mpr
      cases hc.orderly with
      | inl hgoes => exact hgoes
      | inr horderly =>
        by_contra hstay
        apply hdiffer
        intro r
        rw [hrecorded, (standing_all infos).mpr horderly r]
        apply and_iff_left_of_imp
        intro hr
        by_contra habsent
        exact hstay ⟨r, hr, (horderly r hr).1, Bool.eq_false_iff.mpr habsent⟩

end Start

/-- A start on a disk whose removals succeed. -/
theorem startup_agrees (env : Env) (codec : Codec) (clock : ℕ → ℤ) (d : Disk) (text : Bytes)
    (infos : List BackupInfoNode) (hh : Housed env) (hd : d.faults = [])
    (hfiles : ∀ path F, d.files.lookup path = some F → env.isDirectory path = false)
    (hmeta : d.files.lookup (metaPath env) = some text)
    (hitems : itemsOf codec (text.take maxContent) = some infos) :
    (construct env codec clock d).1 = true ∧
      (Agrees env d infos (construct env codec clock d).2 ↔ Consistent env d infos) := by
  rw [construct_items hh hd clock codec hmeta hitems]
  exact ⟨rfl, start_agrees hh hd clock hfiles⟩

/-- A disk with one metadata file, and a file named f. -/
def diskWith (items : List BackupInfoNode) (content : Bytes) : Disk where
  files := AList.insert (bytes "/backup/f") content
    (AList.insert (bytes "/meta") (plainText (metadata items)) ∅)
  faults := []

theorem diskWith_files (items : List BackupInfoNode) (content path F : Bytes)
    (h : (diskWith items content).files.lookup path = some F) :
    plainEnv.isDirectory path = false := by
  by_cases hf : path = bytes "/backup/f"
  · subst hf
    decide
  · rw [diskWith, AList.lookup_insert_ne hf] at h
    by_cases hm : path = bytes "/meta"
    · subst hm
      decide
    · rw [AList.lookup_insert_ne hm] at h
      cases h

theorem startup_agrees_hello :
    (construct plainEnv (recordsCodec [helloInfo]) (fun _ => 0)
      (diskWith [helloInfo] (bytes "hello"))).1 = true ∧
    (Agrees plainEnv (diskWith [helloInfo] (bytes "hello")) [helloInfo]
        (construct plainEnv (recordsCodec [helloInfo]) (fun _ => 0)
          (diskWith [helloInfo] (bytes "hello"))).2 ↔
      Consistent plainEnv (diskWith [helloInfo] (bytes "hello")) [helloInfo]) := by
  apply startup_agrees plainEnv (recordsCodec [helloInfo]) (fun _ => 0)
    (diskWith [helloInfo] (bytes "hello"))
    (plainText (metadata [helloInfo])) [helloInfo] plainEnv_housed rfl (diskWith_files _ _)
  · decide +kernel
  · decide +kernel

def started (items : List BackupInfoNode) (content : Bytes) : Store :=
  (construct plainEnv (recordsCodec items) (fun _ => 0) (diskWith items content)).2

def namelessInfo : BackupInfoNode := { filename := [], size := 0, time := 0 }

/-- A file cut short keeps the size of its item, and an item dropped while loading leaves the flag
clean. -/
theorem startup_disagrees :
    ((started [helloInfo] (bytes "he")).hash.lookup (bytes "f") = some (some 0) ∧
      ((started [helloInfo] (bytes "he")).nodes 0).info.size = 5 ∧
      entryFile plainEnv (started [helloInfo] (bytes "he")).disk (bytes "f") = some (bytes "he")) ∧
    (started [helloInfo, namelessInfo] (bytes "hello")).hash.keys = [bytes "f"] ∧
      (started [helloInfo, namelessInfo] (bytes "hello")).isDirty = false := by
  decide +kernel

end CloudBackup.StartupAgreement
