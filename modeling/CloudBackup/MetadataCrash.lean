import CloudBackup.StoragePass

/-!
# What a crash of the metadata thread costs

A start from a complete metadata file keeps every saved record and its file.
A start from a truncated or half-written one keeps none: from an empty file
no record is loaded and all files are removed, and from a partial text the
start fails.
-/

set_option autoImplicit false

namespace CloudBackup.MetadataCrash
open CloudBackup.ByteStrings CloudBackup.JsonCodec CloudBackup.FilePath CloudBackup.BackupDirectory
open CloudBackup.FileStore CloudBackup.DataManager CloudBackup.HttpCallbacks
  CloudBackup.MetadataFile
open CloudBackup.Restart CloudBackup.RunInvariants CloudBackup.StoragePass

def reborn (clock : ℕ → ℤ) (d : Disk) : Store := Store.fresh clock d.next.2

theorem reborn_loaded (clock : ℕ → ℤ) (d : Disk) : Loaded (reborn clock d) := by
  constructor
  · intro name id hid
    cases hid
  · intro name v hv
    cases hv

section Construct
variable {env : Env} (hh : Housed env) (codec : Codec) (clock : ℕ → ℤ) (d : Disk) (part : Bytes)
  (hmeta : d.files.lookup (metaPath env) = some part)
include hh hmeta

theorem construct_loads : construct env codec clock d =
    if (loadFromFile env codec (Store.fresh clock d)).1
      then (true, verifyFileLegality env (loadFromFile env codec (Store.fresh clock d)).2)
      else loadFromFile env codec (Store.fresh clock d) := by
  have hexists : fileExists env (metaFile env) d = true := by
    rw [metaPath] at hmeta
    simp [fileExists, writable_ne_nil hh.written, hmeta]
  rw [construct, if_pos hexists]
  rfl

omit hh in
theorem getContent_meta : getContent (metaFile env) 0 maxContent d =
    (if d.next.1.isNone then some (part.take maxContent) else none, d.next.2) := by
  rw [metaPath] at hmeta
  unfold getContent
  rw [hmeta]
  cases d.next.1 with
  | none =>
    cases part with
    | nil => rfl
    | cons c cs => rfl
  | some n => rfl

omit hh in
theorem loadFromFile_meta : loadFromFile env codec (Store.fresh clock d) =
    if d.next.1.isNone then
      if part = [] then (true, reborn clock d)
      else
        match (codec.deserialize (part.take maxContent)).bind fun root =>
          root.items.mapM itemInfo with
        | none => (false, reborn clock d)
        | some infos => (true, loadRecords infos (reborn clock d))
    else (false, reborn clock d) := by
  have hget := getContent_meta d part hmeta
  have hnil : part.take maxContent = [] ↔ part = [] := by
    cases part with
    | nil => simp
    | cons c cs => simp [maxContent]
  rw [loadFromFile, Store.fresh]
  dsimp only
  rw [hget]
  by_cases hn : d.next.1.isNone = true
  · rw [if_pos hn, if_pos hn]
    dsimp only
    by_cases hp : part = []
    · rw [if_pos (hnil.mpr hp), if_pos hp]
      rfl
    · rw [if_neg (fun h => hp (hnil.mp h)), if_neg hp]
      rfl
  · rw [if_neg hn, if_neg hn]
    rfl

end Construct

theorem recorded_from {Q : BackupInfoNode → Prop} (infos : List BackupInfoNode) (s : Store)
    (hs : Loaded s)
    (hold : ∀ r, Recorded s r → Q r) (hq : ∀ r ∈ infos, acceptable r = true → Q r)
    (r : BackupInfoNode)
    (hr : Recorded (loadRecords infos s) r) : Q r := by
  induction infos generalizing s with
  | nil => exact hold r hr
  | cons info infos ih =>
    have hrest := fun i hi => hq i (List.mem_cons_of_mem info hi)
    rw [loadRecords, List.foldl_cons] at hr
    by_cases ha : acceptable info = true
    · rw [if_pos ha] at hr
      apply ih _ (loaded_addRecord s hs info) _ hrest hr
      intro i hi
      rcases (recorded_addRecord s hs info i).mp hi with rfl | ⟨-, hi⟩
      · exact hq i List.mem_cons_self ha
      · exact hold i hi
    · rw [if_neg ha] at hr
      exact ih s hs hold hrest hr

theorem reborn_records (clock : ℕ → ℤ) (d : Disk) (r : BackupInfoNode) :
    ¬ Recorded (reborn clock d) r := by
  rintro ⟨id, hid, -⟩
  cases hid

theorem loadRecords_clock (infos : List BackupInfoNode) (s : Store) :
    (loadRecords infos s).clock = s.clock := by
  induction infos generalizing s with
  | nil => rfl
  | cons info infos ih =>
    rw [loadRecords, List.foldl_cons]
    refine (ih _).trans ?_
    split_ifs <;> rfl

/-- The start fails, or it goes through the directory with the records it read. -/
inductive Outcome (env : Env) (codec : Codec) (clock : ℕ → ℤ) (d : Disk) (part : Bytes) :
    Bool × Store → Prop where
  | exits : Outcome env codec clock d part (false, reborn clock d)
  | starts (infos : List BackupInfoNode) (hfits : ∀ r ∈ infos, Fits r) (hread : d.next.1 = none)
      (hfrom : infos = [] ∨ part ≠ [] ∧ (codec.deserialize (part.take maxContent)).isSome = true) :
      Outcome env codec clock d part
        (true, verifyFileLegality env (loadRecords infos (reborn clock d)))

theorem mapM_fits (items : List Json) (infos : List BackupInfoNode)
    (h : items.mapM itemInfo = some infos) :
    ∀ r ∈ infos, Fits r := by
  induction items generalizing infos with
  | nil =>
    cases h
    exact fun r hr => absurd hr List.not_mem_nil
  | cons item items ih =>
    rw [List.mapM_cons] at h
    obtain ⟨info, hinfo, h⟩ := Option.bind_eq_some_iff.mp h
    obtain ⟨rest, hrest, h⟩ := Option.bind_eq_some_iff.mp h
    cases h
    intro r hr
    rcases List.mem_cons.mp hr with rfl | hr
    · exact itemInfo_fits item r hinfo
    · exact ih rest hrest r hr

section Start
variable {env : Env} (hh : Housed env) (codec : Codec) (clock : ℕ → ℤ) (d : Disk) (part : Bytes)
  (hmeta : d.files.lookup (metaPath env) = some part)
include hh hmeta

theorem construct_outcome : Outcome env codec clock d part (construct env codec clock d) := by
  rw [construct_loads hh codec clock d part hmeta, loadFromFile_meta codec clock d part hmeta]
  by_cases hn : d.next.1.isNone = true
  · have hread := Option.isNone_iff_eq_none.mp hn
    rw [if_pos hn]
    by_cases hp : part = []
    · rw [if_pos hp]
      exact .starts [] (fun _ hr => absurd hr List.not_mem_nil) hread (Or.inl rfl)
    · rw [if_neg hp]
      cases hd : codec.deserialize (part.take maxContent) with
      | none => exact .exits
      | some root =>
        rw [Option.bind_some]
        cases hm : root.items.mapM itemInfo with
        | none => exact .exits
        | some infos =>
          exact .starts infos (mapM_fits _ infos hm) hread (Or.inr ⟨hp, by rw [hd]; rfl⟩)
  · rw [if_neg hn]
    exact .exits

theorem construct_meta : (construct env codec clock d).2.disk.files.lookup
    (metaPath env) = some part := by
  have ho := construct_outcome hh codec clock d part hmeta
  generalize construct env codec clock d = c at ho ⊢
  cases ho with
  | exits => exact hmeta
  | starts infos =>
    rw [verifyFileLegality_meta hh, loadRecords_disk]
    exact hmeta

theorem construct_stored (hclock : ∀ n, Int64Range (clock n)) :
    Stored env (construct env codec clock d).2 := by
  have ho := construct_outcome hh codec clock d part hmeta
  generalize construct env codec clock d = c at ho ⊢
  cases ho with
  | exits =>
    constructor
    · intro name id hid
      cases hid
    · intro name id hid
      cases hid
    · intro name hname
      cases hname
    · exact hclock
  | starts infos hfits =>
    have hl := loaded_loadRecords infos _ (reborn_loaded clock d)
    have hv := loaded_verify hh _ hl
    have hq : ∀ r, Recorded (verifyFileLegality env (loadRecords infos (reborn clock d))) r
      → Fits r := by
      intro r hr
      apply recorded_from infos _ (reborn_loaded clock d) _ (fun r hr _ => hfits r hr) r
      · exact ((recorded_verify hh _ r).mp hr).1
      · exact fun r hr => absurd hr (reborn_records clock d r)
    constructor
    · exact hv.bounded
    · intro name id hid
      obtain ⟨r, rfl, hr⟩ := hv.records name _ hid
      have hfit := hq r hr
      obtain ⟨i, hi, hnode⟩ := hr
      rw [hid] at hi
      cases hi
      rw [hnode]
      exact ⟨rfl, hfit⟩
    · exact present_verify hh _
    · rw [(verifyFileLegality_same hh _).2.2, loadRecords_clock]
      exact hclock

theorem construct_exited (hexit : (construct env codec clock d).1 = false) :
    (construct env codec clock d).2.hash = ∅ := by
  have ho := construct_outcome hh codec clock d part hmeta
  generalize construct env codec clock d = c at ho hexit ⊢
  cases ho with
  | exits => rfl
  | starts infos => cases hexit

theorem construct_reads (hcodec : Reads codec) (infos : List BackupInfoNode)
    (hfits : ∀ r ∈ infos, Fits r)
    (hser : codec.serialize (metadata infos) = some part) (hlen : part.length ≤ maxContent)
    (hread : d.next.1 = none) :
    construct env codec clock
      d = (true, verifyFileLegality env (loadRecords infos (reborn clock d))) := by
  obtain ⟨hne, hback⟩ := hcodec.back infos part hfits hser
  have hload : loadFromFile env codec
    (Store.fresh clock d) = (true, loadRecords infos (reborn clock d)) := by
    rw [loadFromFile_meta codec clock d part hmeta, hread, Option.isNone_none, if_pos rfl,
      if_neg hne, List.take_of_length_le hlen, hback, Option.bind_some, readBack infos hfits]
  rw [construct_loads hh codec clock d part hmeta, hload, if_pos rfl]

theorem construct_cut (hcodec : Reads codec) (infos : List BackupInfoNode)
    (hser : codec.serialize (metadata infos) = some part) (hlen : maxContent < part.length) :
    (construct env codec clock d).1 = false := by
  have hshort : (part.take maxContent).length = maxContent := by
    rw [List.length_take, min_eq_left hlen.le]
  have hne : part ≠ [] := by
    rintro rfl
    simp at hlen
  have hcut : codec.deserialize (part.take maxContent) = none := by
    apply hcodec.cut infos part _ hser (List.take_prefix _ _)
    · intro h
      rw [h] at hshort
      omega
    · intro h
      rw [h] at hshort
      exact absurd hshort (by decide)
  have hload : (loadFromFile env codec (Store.fresh clock d)).1 = false := by
    rw [loadFromFile_meta codec clock d part hmeta, if_neg hne, hcut, Option.bind_none]
    split_ifs <;> rfl
  rw [construct_loads hh codec clock d part hmeta, hload, if_neg Bool.false_ne_true]
  exact hload

theorem construct_keeps (hcodec : Reads codec) (infos : List BackupInfoNode)
    (hfits : ∀ r ∈ infos, Fits r)
    (hnames : (infos.map BackupInfoNode.filename).Nodup)
    (hser : codec.serialize (metadata infos) = some part)
    (hlen : part.length ≤ maxContent) (hread : d.next.1 = none) (r : BackupInfoNode)
    (hr : r ∈ infos)
    (hok : acceptable r = true) (hp : present env d r.filename = true) :
    Recorded (construct env codec clock d).2 r := by
  rw [construct_reads hh codec clock d part hmeta hcodec infos hfits hser hlen hread,
    recorded_verify hh, loadRecords_disk]
  constructor
  · exact (recorded_loadRecords infos _ (reborn_loaded clock d) hnames r).mpr (Or.inl ⟨hr, hok⟩)
  · exact hp

theorem construct_kept (hcodec : Reads codec) (infos : List BackupInfoNode) (text : Bytes)
    (hser : codec.serialize (metadata infos) = some text) (hpart : part <+: text)
    (r : BackupInfoNode)
    (hr : Recorded (construct env codec clock d).2 r) :
    part = text ∧ text.length ≤ maxContent ∧ d.next.1 = none ∧ 0 ≤ r.size := by
  have ho := construct_outcome hh codec clock d part hmeta
  generalize construct env codec clock d = c at ho hr
  cases ho with
  | exits => exact absurd hr (reborn_records clock d r)
  | starts loaded hfits hread hfrom =>
    have hr := ((recorded_verify hh _ r).mp hr).1
    have hok : acceptable r = true := recorded_from loaded _ (reborn_loaded clock d)
      (fun r hr => absurd hr (reborn_records clock d r)) (fun r _ ha => ha) r hr
    have hsize : 0 ≤ r.size := of_decide_eq_true (Bool.and_eq_true_iff.mp hok).2
    rcases hfrom with rfl | ⟨hne, hsome⟩
    · exact absurd hr (reborn_records clock d r)
    · have htake : part.take maxContent ≠ [] := by
        cases part with
        | nil => exact absurd rfl hne
        | cons c cs => simp [maxContent]
      have hwhole : part.take maxContent = text := by
        by_contra hcut
        rw [hcodec.cut infos text _ hser ((List.take_prefix _ _).trans hpart) hcut htake] at hsome
        cases hsome
      have hlen : text.length ≤ part.length := by
        rw [← hwhole]
        exact List.length_take_le' _ _
      refine ⟨hpart.eq_of_length_le hlen, ?_, hread, hsize⟩
      rw [← hwhole]
      exact List.length_take_le _ _

end Start

def Listed (infos : List BackupInfoNode) : Prop :=
  (∀ r ∈ infos, Fits r) ∧ (infos.map BackupInfoNode.filename).Nodup

def PassHolds (codec : Codec) (saved : List BackupInfoNode) : Phase → Prop
  | .collected infos pending => Listed infos ∧ pending ⊆ infos ∧ saved ⊆ pending
  | .cleared infos text pending => Listed infos ∧ pending ⊆ infos ∧ saved ⊆ pending ∧
      codec.serialize (metadata infos) = some text
  | _ => True

/-- The file holds some of a written text, and all that is saved once it holds the whole. -/
def FileHolds (codec : Codec) (saved : List BackupInfoNode) (content : Option Bytes) : Prop :=
  ∃ infos text part, Listed infos ∧ codec.serialize (metadata infos) = some text ∧ part <+: text ∧
    content = some part ∧ (part = text → saved ⊆ infos)

structure Sound (env : Env) (codec : Codec) (w : Site) : Prop where
  stored : Stored env w.store
  exited : w.phase = .exited → w.store.hash = ∅
  kept : ∀ r ∈ w.saved, Recorded w.store r
  pending : ∀ r ∈ w.phase.pending, Recorded w.store r
  pass : PassHolds codec w.saved w.phase
  file : FileHolds codec w.saved (w.store.disk.files.lookup (metaPath env))
  blank : ∀ infos text pending, w.phase = .cleared infos text pending →
    w.store.disk.files.lookup (metaPath env) = some []

theorem sound_kept {env : Env} (hh : Housed env) (codec : Codec) (w : Site)
    (hw : Sound env codec w) :
    Kept env w := by
  intro r hr
  have hrec := hw.kept r hr
  obtain ⟨id, hid, -⟩ := hrec
  have hp := hw.stored.present r.filename (by rw [hid]; rfl)
  exact ⟨hw.kept r hr, ((present_iff hh _ _).mp hp).2⟩

theorem file_sub {codec : Codec} {saved saved' : List BackupInfoNode} (hsub : saved' ⊆ saved)
    (content : Option Bytes)
    (h : FileHolds codec saved content) : FileHolds codec saved' content := by
  obtain ⟨infos, text, part, hl, hser, hpre, hc, hcover⟩ := h
  exact ⟨infos, text, part, hl, hser, hpre, hc, fun he r hr => hcover he (hsub hr)⟩

theorem forget_sub (filename : Bytes) (rs : List BackupInfoNode) : forget filename rs ⊆ rs :=
  List.filter_subset_self rs

theorem forget_mono (filename : Bytes) {rs qs : List BackupInfoNode} (h : rs ⊆ qs) :
    forget filename rs ⊆ forget filename qs := by
  intro r hr
  obtain ⟨hmem, hne⟩ := List.mem_filter.mp hr
  exact List.mem_filter.mpr ⟨h hmem, hne⟩

theorem forget_name (filename : Bytes) {rs : List BackupInfoNode} {r : BackupInfoNode}
    (hr : r ∈ forget filename rs) : r.filename ≠ filename :=
  of_decide_eq_true (List.mem_filter.mp hr).2

theorem forget_pending (filename : Bytes) (phase : Phase) :
    (phase.forget filename).pending = forget filename phase.pending := by
  cases phase <;> rfl

section Steps
variable {env : Env} (hh : Housed env) {codec : Codec} {w : Site} (hw : Sound env codec w)
include hw

theorem sound_call (f : Store → Store) (t : Site) (hcall : call f w = some t)
    (hf : Stored env (f w.store))
    (hrec : ∀ r, r ∈ w.saved ∨ r ∈ w.phase.pending → Recorded w.store r → Recorded (f w.store) r)
    (hmeta : (f w.store).disk.files.lookup (metaPath env) = w.store.disk.files.lookup
      (metaPath env)) :
    Sound env codec t := by
  have hphase : w.phase ≠ .exited ∧ t = { w with store := f w.store } := by
    unfold call at hcall
    split at hcall
    · cases hcall
    · rename_i hne
      cases hcall
      exact ⟨fun h => hne h, rfl⟩
  obtain ⟨hne, rfl⟩ := hphase
  constructor
  · exact hf
  · exact fun h => absurd h hne
  · exact fun r hr => hrec r (Or.inl hr) (hw.kept r hr)
  · exact fun r hr => hrec r (Or.inr hr) (hw.pending r hr)
  · exact hw.pass
  · dsimp only
    rw [hmeta]
    exact hw.file
  · intro infos text pending hp
    dsimp only
    rw [hmeta]
    exact hw.blank infos text pending hp

theorem sound_forget (filename : Bytes) :
    Sound env codec { w with phase := w.phase.forget filename,
                             saved := forget filename w.saved } := by
  have hphase : ∀ phase : Phase, PassHolds codec w.saved phase →
      PassHolds codec (forget filename w.saved) (phase.forget filename) := by
    intro phase hp
    cases phase with
    | waiting => trivial
    | collected infos pending =>
      exact ⟨hp.1, List.Subset.trans (forget_sub filename pending) hp.2.1,
        forget_mono filename hp.2.2⟩
    | cleared infos text pending =>
      exact ⟨hp.1, List.Subset.trans (forget_sub filename pending) hp.2.1,
        forget_mono filename hp.2.2.1, hp.2.2.2⟩
    | exited => trivial
  constructor
  · exact hw.stored
  · intro h
    apply hw.exited
    cases hp : w.phase with
    | exited => rfl
    | waiting | collected infos pending | cleared infos text pending =>
      dsimp only at h
      rw [hp] at h
      cases h
  · exact fun r hr => hw.kept r (forget_sub filename w.saved hr)
  · intro r hr
    rw [forget_pending] at hr
    exact hw.pending r (forget_sub filename _ hr)
  · exact hphase w.phase hw.pass
  · exact file_sub (forget_sub filename w.saved) _ hw.file
  · intro infos text pending h
    cases hp : w.phase with
    | cleared infos' text' pending' => exact hw.blank infos' text' pending' hp
    | waiting | collected infos pending | exited =>
      dsimp only at h
      rw [hp] at h
      cases h

theorem collect_sound (t : Site) (ht : collectStep w = some t) : Sound env codec t := by
  unfold collectStep at ht
  split at ht
  · rename_i hphase
    split_ifs at ht
    cases ht
    have hlisted : Listed (getAllBackupInfo w.store) :=
      ⟨snapshot_fits hw.stored, snapshot_names hw.stored⟩
    constructor
    · exact ⟨hw.stored.bounded, hw.stored.named, hw.stored.present, hw.stored.clock⟩
    · exact fun h => nomatch h
    · exact hw.kept
    · exact fun r hr => (mem_snapshot hw.stored r).mp hr
    · exact ⟨hlisted, List.Subset.refl _, fun r hr => (mem_snapshot hw.stored r).mpr (hw.kept r hr)⟩
    · exact hw.file
    · exact fun _ _ _ h => nomatch h
  · cases ht

include hh

theorem stored_meta (d : Disk) (hd : OnlyAt (metaPath env) w.store.disk d) :
    Stored env { w.store with disk := d } :=
  stored_disk hw.stored d fun name hp => present_meta hh w.store.disk d name hd hp

theorem clear_sound (t : Site) (ht : clearStep env codec w = some t) : Sound env codec t := by
  unfold clearStep at ht
  split at ht
  · rename_i infos pending hphase
    have hpass := hw.pass
    have hpend := hw.pending
    rw [hphase] at hpass hpend
    split at ht
    · cases ht
      constructor
      · exact hw.stored
      · exact fun h => nomatch h
      · exact hw.kept
      · exact fun r hr => absurd hr List.not_mem_nil
      · trivial
      · exact hw.file
      · exact fun _ _ _ h => nomatch h
    · rename_i text hser
      have honly := clear_onlyAt env (metaFile env) w.store.disk
      have hstored := stored_meta hh hw _ honly
      dsimp only at ht
      by_cases hc : (FileStore.clear env (metaFile env) w.store.disk).1 = true
      · rw [if_pos hc] at ht
        cases ht
        have hblank := clear_true env (metaFile env) w.store.disk hc
        constructor
        · exact hstored
        · exact fun h => nomatch h
        · exact hw.kept
        · exact hpend
        · exact ⟨hpass.1, hpass.2.1, hpass.2.2, hser⟩
        · exact ⟨infos, text, [], hpass.1, hser, List.nil_prefix, hblank,
            fun _ => List.Subset.trans hpass.2.2 hpass.2.1⟩
        · exact fun _ _ _ _ => hblank
      · rw [if_neg hc] at ht
        cases ht
        have hsame := clear_false env (metaFile env) w.store.disk (by simpa using hc)
        constructor
        · exact hstored
        · exact fun h => nomatch h
        · exact hw.kept
        · exact fun r hr => absurd hr List.not_mem_nil
        · trivial
        · dsimp only
          rw [hsame]
          exact hw.file
        · exact fun _ _ _ h => nomatch h
  · cases ht

theorem store_sound (t : Site) (ht : storeStep env w = some t) : Sound env codec t := by
  unfold storeStep at ht
  split at ht
  · rename_i infos text pending hphase
    cases ht
    have hpass := hw.pass
    have hpend := hw.pending
    have hblank := hw.blank infos text pending hphase
    rw [hphase] at hpass hpend
    obtain ⟨hlisted, hsub, hcover, hser⟩ := hpass
    have honly := appendContent_onlyAt env (metaFile env) text w.store.disk
    have hwritten := appendContent_blank env (metaFile env) text w.store.disk hblank
    constructor
    · exact stored_meta hh hw _ honly
    · exact fun h => nomatch h
    · intro r hr
      dsimp only at hr
      split_ifs at hr
      · exact (List.mem_append.mp hr).elim (hw.kept r) (hpend r)
      · exact hw.kept r hr
    · exact fun r hr => absurd hr List.not_mem_nil
    · trivial
    · obtain ⟨part, hpart, hlookup⟩ := hwritten
      refine ⟨infos, text, part, hlisted, hser, hpart, hlookup, fun _ => ?_⟩
      dsimp only
      split_ifs
      · exact List.append_subset.mpr ⟨List.Subset.trans hcover hsub, hsub⟩
      · exact List.Subset.trans hcover hsub
    · exact fun _ _ _ h => nomatch h
  · cases ht

omit hw in
theorem onlyAt_meta (filename : Bytes) (hentry : isEntry filename = true) (d d' : Disk)
    (hd : OnlyAt (targetPath env filename) d d') :
    d'.files.lookup (metaPath env) = d.files.lookup (metaPath env) := by
  apply hd
  rw [entry_target hh filename hentry]
  exact fun h => meta_apart hh filename h.symm

theorem stored_entry (filename : Bytes) (hin : (w.store.hash.lookup filename).isSome = true) :
    isEntry filename = true :=
  ((present_iff hh _ filename).mp (hw.stored.present filename hin)).1

theorem register_sound (filename : Bytes)
    (hproper : registrable filename w.store = true → 0 ∉ filename) (t : Site)
    (ht : call (fun s => (DataManager.register env filename s).2) w = some t) :
    Sound env codec t := by
  apply sound_call hw _ t ht (stored_register hh hw.stored filename hproper)
  · exact fun r _ hr => recorded_register env filename r hr
  · by_cases hreg : registrable filename w.store = true
    · have hdisk : (DataManager.register env filename w.store).2.disk =
          (prepareFile env (targetFile env filename) w.store.disk).2 := by
        rw [(register_free env filename w.store hreg).2]
        split_ifs <;> rfl
      rw [hdisk]
      by_cases hwr : writable env (targetFile env filename) = true
      · exact onlyAt_meta hh filename (entry_writable hh filename hreg (hproper hreg) hwr) _ _
          (prepareFile_onlyAt env _ _)
      · rw [prepareFile_unwritable env _ _ (by simpa using hwr)]
    · rw [register_refused env filename w.store (by simpa using hreg)]

theorem append_sound (filename content : Bytes)
    (hres : w.store.hash.lookup filename = some none) (t : Site)
    (ht : call (fun s => { s with
      disk := (appendContent env (targetFile env filename) content s.disk).2 }) w = some t) :
    Sound env codec t := by
  have hin : (w.store.hash.lookup filename).isSome = true := by rw [hres]; rfl
  apply sound_call hw _ t ht (stored_append hh hw.stored filename content hin)
  · exact fun r _ hr => hr
  · exact onlyAt_meta hh filename (stored_entry hh hw filename hin) _ _
      (appendContent_onlyAt env _ content _)

omit hh in
theorem insert_sound (filename : Bytes) (size : Int64) (t : Site)
    (ht : call (fun s => (DataManager.insert filename size.toInt s).2) w = some t) :
    Sound env codec t := by
  apply sound_call hw _ t ht (stored_insert hw.stored filename size)
  · exact fun r _ hr => recorded_insert hw.stored filename size.toInt r hr
  · unfold DataManager.insert
    split <;> rfl

theorem deregister_sound (filename : Bytes)
    (hproper : w.store.hash.lookup filename = some none) (t : Site)
    (ht : call (fun s => (DataManager.deregister env filename s).2) w = some t) :
    Sound env codec t := by
  have hin : (w.store.hash.lookup filename).isSome = true := by rw [hproper]; rfl
  apply sound_call hw _ t ht (stored_deregister hh hw.stored filename hin)
  · intro r _ hr
    apply recorded_deregister env filename r _ hr
    rintro rfl
    obtain ⟨id, hid, -⟩ := hr
    rw [hproper] at hid
    cases hid
  · exact onlyAt_meta hh filename (stored_entry hh hw filename hin) _ _
      (removeIfExists_onlyAt env _ _)

theorem delete_sound (filename : Bytes) (t : Site)
    (ht : step env codec w (.delete filename) = some t) :
    Sound env codec t := by
  have hforget := sound_forget hw filename
  have hcall : call (fun s => (DataManager.delete env filename s).2)
      { w with phase := w.phase.forget filename, saved := forget filename w.saved } = some t := by
    rw [← ht]
    simp only [step, call]
    cases w.phase <;> rfl
  apply sound_call hforget _ t hcall (stored_delete hh hw.stored filename)
  · intro r hin hr
    apply recorded_delete env filename r _ hr
    rcases hin with hin | hin
    · exact forget_name filename hin
    · rw [forget_pending] at hin
      exact forget_name filename hin
  · unfold DataManager.delete
    cases hv : validNode filename w.store with
    | none => rfl
    | some id =>
      have hin : (w.store.hash.lookup filename).isSome = true := by
        rw [(validNode_iff filename w.store id).mp hv]
        rfl
      dsimp only
      rw [(listRemove_same id w.store).disk]
      exact onlyAt_meta hh filename (stored_entry hh hw filename hin) _ _
        (removeIfExists_onlyAt env _ _)

theorem crashDisk_file (written : ℕ) :
    FileHolds codec w.saved ((crashDisk env written w).files.lookup (metaPath env)) ∧
      (∀ name, present env w.store.disk name = true →
        present env (crashDisk env written w) name = true) ∧
      (crashDisk env written w).next.1 = w.store.disk.next.1 := by
  unfold crashDisk
  split
  · rename_i infos text pending hphase
    have hpass := hw.pass
    rw [hphase] at hpass
    obtain ⟨hlisted, hsub, hcover, hser⟩ := hpass
    refine ⟨⟨infos, text, text.take written, hlisted, hser, List.take_prefix _ _, ?_, ?_⟩, ?_, rfl⟩
    · exact write_lookup w.store.disk (metaFile env) _
    · exact fun _ => List.Subset.trans hcover hsub
    · exact fun name hp => present_meta hh w.store.disk _ name
        (write_onlyAt w.store.disk (metaFile env) _) hp
  · exact ⟨hw.file, fun _ hp => hp, rfl⟩

theorem crash_sound (hcodec : Reads codec) (written : ℕ)
    (hsafe : CrashSafe env codec w (.crash written)) :
    Sound env codec (crashStep env codec written w) := by
  obtain ⟨hfile, hpresent, hnext⟩ := crashDisk_file hh hw written
  have hkeep := hfile
  obtain ⟨infos, text, part, hlisted, hser, hpre, hpart, hcover⟩ := hfile
  have hmeta := construct_meta hh codec w.store.clock _ part hpart
  constructor
  · exact construct_stored hh codec w.store.clock _ part hpart hw.stored.clock
  · intro h
    apply construct_exited hh codec w.store.clock _ part hpart
    cases hc : (construct env codec w.store.clock (crashDisk env written w)).1 with
    | false => rfl
    | true =>
      simp only [crashStep, hc, if_true] at h
      cases h
  · intro r hr
    have hr : r ∈ w.saved := hr
    rcases hsafe with hnone | ⟨⟨whole, wtext, hwfits, hwser, hwlookup, hwlen⟩, hread, hsize⟩
    · rw [hnone] at hr
      exact absurd hr List.not_mem_nil
    · rw [hpart, Option.some.injEq] at hwlookup
      subst hwlookup
      obtain ⟨hne, hback⟩ := hcodec.back whole part hwfits hwser
      have htext : part = text := by
        by_contra hcut
        rw [hcodec.cut infos text part hser hpre hcut hne] at hback
        cases hback
      subst htext
      have hrec := hw.kept r hr
      obtain ⟨id, hid, -⟩ := hw.kept r hr
      have hp := hw.stored.present r.filename (by rw [hid]; rfl)
      apply construct_keeps hh codec w.store.clock _ part hpart hcodec infos hlisted.1
        hlisted.2 hser hwlen
        (by rw [hnext]; exact hread) r (hcover rfl hr) _ (hpresent _ hp)
      have hentry := ((present_iff hh _ _).mp hp).1
      exact Bool.and_eq_true_iff.mpr ⟨decide_eq_true ((entry_iff _).mp hentry).1,
        decide_eq_true (hsize r hr)⟩
  · intro r hr
    have hwait : (crashStep env codec written w).phase.pending = [] := by
      simp only [crashStep]
      split_ifs <;> rfl
    rw [hwait] at hr
    exact absurd hr List.not_mem_nil
  · simp only [crashStep]
    split_ifs <;> trivial
  · have hsame : (crashStep env codec written w).store.disk.files.lookup
      (metaPath env) = some part := hmeta
    rw [hsame, ← hpart]
    exact hkeep
  · intro infos' text' pending' h
    simp only [crashStep] at h
    split_ifs at h

theorem crash_loses (hcodec : Reads codec) (written : ℕ)
    (hsafe : ¬ CrashSafe env codec w (.crash written)) :
    ¬ Kept env (crashStep env codec written w) := by
  intro hkept
  obtain ⟨⟨infos, text, part, hlisted, hser, hpre, hpart, -⟩, -, hnext⟩ :=
    crashDisk_file hh hw written
  simp only [CrashSafe, not_or] at hsafe
  obtain ⟨hne, hunsafe⟩ := hsafe
  have hback : ∀ r ∈ w.saved, part = text ∧ text.length ≤ maxContent ∧
    (crashDisk env written w).next.1 = none ∧
      0 ≤ r.size := fun r hr =>
    construct_kept hh codec w.store.clock _ part hpart hcodec infos text hser hpre r (hkept r hr).1
  obtain ⟨r, hr⟩ := List.exists_mem_of_ne_nil _ hne
  obtain ⟨rfl, hlen, hread, -⟩ := hback r hr
  apply hunsafe
  refine ⟨⟨infos, part, hlisted.1, hser, hpart, hlen⟩, ?_, fun r hr => (hback r hr).2.2.2⟩
  rw [← hnext]
  exact hread

end Steps

theorem step_sound {env : Env} (hh : Housed env) {codec : Codec} (hcodec : Reads codec) (w : Site)
    (a : Act) (t : Site)
    (hw : Sound env codec w) (hproper : Proper w a) (hsafe : CrashSafe env codec w a)
    (ht : step env codec w a = some t) : Sound env codec t := by
  cases a with
  | register filename => exact register_sound hh hw filename hproper t ht
  | append filename content =>
    simp only [step] at ht
    split_ifs at ht with hres
    exact append_sound hh hw filename content hres t ht
  | insert filename size => exact insert_sound hw filename size t ht
  | delete filename => exact delete_sound hh hw filename t ht
  | deregister filename => exact deregister_sound hh hw filename hproper t ht
  | collect => exact collect_sound hw t ht
  | clear => exact clear_sound hh hw t ht
  | store => exact store_sound hh hw t ht
  | crash written =>
    cases ht
    exact crash_sound hh hw hcodec written hsafe

theorem start_sound {env : Env} {codec : Codec} (hcodec : Reads codec) (w : Site)
    (h : Start env w) :
    Sound env codec w := by
  constructor
  · constructor
    · intro name id hid
      rw [h.empty] at hid
      cases hid
    · intro name id hid
      rw [h.empty] at hid
      cases hid
    · intro name hname
      rw [h.empty] at hname
      cases hname
    · exact h.clock
  · exact fun _ => h.empty
  · intro r hr
    rw [h.saved] at hr
    exact absurd hr List.not_mem_nil
  · intro r hr
    rw [h.waiting] at hr
    exact absurd hr List.not_mem_nil
  · rw [h.waiting]
    trivial
  · refine ⟨[], bytes "null", bytes "null",
      ⟨fun r hr => absurd hr List.not_mem_nil, List.nodup_nil⟩, hcodec.null,
      List.prefix_rfl, h.file, fun _ r hr => ?_⟩
    rw [h.saved] at hr
    exact absurd hr List.not_mem_nil
  · intro infos text pending hp
    rw [h.waiting] at hp
    cases hp

/-- In a run of proper calls, passes and crashes the saved records and their files
are kept exactly when every crash finds the metadata file complete, or nothing saved. -/
theorem crash_keeps (env : Env) (codec : Codec) (w : Site) (acts : List Act) (hh : Housed env)
    (hcodec : Reads codec) (hstart : Start env w) (hproper : Meets (step env codec) Proper w acts) :
    Throughout (step env codec) (Kept env) w acts ↔
      Meets (step env codec) (CrashSafe env codec) w acts := by
  have hbreak : ∀ s a t, Sound env codec s → Proper s a → ¬ CrashSafe env codec s a →
      step env codec s a = some t → ¬ Kept env t := by
    intro s a t hs _ hsafe ht
    cases a with
    | crash written =>
      cases ht
      exact crash_loses hh hs hcodec written hsafe
    | register | append | insert | delete | deregister | collect | clear | store =>
      exact absurd trivial hsafe
  exact throughout_iff_meets_under (sound_kept hh codec)
    (fun s a t hs hp hc ht => step_sound hh hcodec s a t hs hp hc ht) hbreak
      (start_sound hcodec w hstart) hproper

theorem plainEnv_housed : Housed plainEnv where
  deployed := ⟨by decide, by decide⟩
  canonical := ⟨rfl, fun p hp => nomatch hp⟩
  fixed := by decide
  nonempty := by decide
  directory := by decide
  dots := by decide
  outside := by decide
  written := by decide

def freshSite : Site where
  store := Store.fresh (fun _ => 0)
    { files := (∅ : Table Bytes).insert (metaPath plainEnv) (bytes "null"), faults := [] }
  phase := .waiting
  saved := []

theorem freshSite_start : Start plainEnv freshSite where
  empty := rfl
  waiting := rfl
  saved := rfl
  file := AList.lookup_insert _
  clock := fun _ => by
    change Int64Range 0
    constructor <;> norm_num

def storedUpload : List Act :=
  [.register (bytes "f"), .append (bytes "f") (bytes "hello"), .insert (bytes "f") 5, .collect,
    .clear, .store]

def isPlain : Act → Bool
  | .register filename => 0 ∉ filename
  | .deregister _ => false
  | .crash _ => false
  | _ => true

theorem plain_proper (codec : Codec) (w : Site) (acts : List Act) (h : acts.all isPlain = true) :
    Meets (step plainEnv codec) Proper w acts := by
  induction acts generalizing w with
  | nil => trivial
  | cons a as ih =>
    intro t _
    rw [List.all_cons, Bool.and_eq_true] at h
    refine ⟨?_, ih t h.2⟩
    cases a with
    | register filename => exact fun _ => of_decide_eq_true h.1
    | deregister filename => exact nomatch h.1
    | append | insert | delete | collect | clear | store | crash => trivial

theorem plain_safe (codec : Codec) (w : Site) (acts : List Act) (h : acts.all isPlain = true) :
    Meets (step plainEnv codec) (CrashSafe plainEnv codec) w acts := by
  induction acts generalizing w with
  | nil => trivial
  | cons a as ih =>
    intro t _
    rw [List.all_cons, Bool.and_eq_true] at h
    refine ⟨?_, ih t h.2⟩
    cases a with
    | crash written => exact nomatch h.1
    | register | append | insert | delete | deregister | collect | clear | store => trivial

def helloInfo : BackupInfoNode := { filename := bytes "f", size := 5, time := 0 }

/-- The second pass is cut off behind `Clear`: the start that follows removes the
file of an upload that was saved by the first. -/
theorem crash_between_clear_and_append :
    Start plainEnv freshSite ∧
    Meets (step plainEnv plainCodec) Proper freshSite
      (storedUpload ++ [.register (bytes "g"), .insert (bytes "g") 0, .collect, .clear, .crash 0]) ∧
    ∃ w, run (step plainEnv plainCodec) freshSite
        (storedUpload ++ [.register (bytes "g"), .insert (bytes "g") 0, .collect, .clear,
          .crash 0]) = some w ∧
      w.store.disk.files.lookup (targetPath plainEnv (bytes "f")) = none ∧ ¬ Kept plainEnv w := by
  have hrun : (run (step plainEnv plainCodec) freshSite
      (storedUpload ++ [.register (bytes "g"), .insert (bytes "g") 0, .collect, .clear,
        .crash 0])).map
        (fun w => (w.saved, w.store.disk.files.lookup (targetPath plainEnv (bytes "f")))) =
      some ([helloInfo], none) := by decide +kernel
  obtain ⟨w, hw, hfields⟩ := Option.map_eq_some_iff.mp hrun
  obtain ⟨hsaved, hfile⟩ := Prod.mk.inj hfields
  refine ⟨freshSite_start, ?_, w, hw, hfile, fun hkept => ?_⟩
  · apply meets_append (plain_proper plainCodec freshSite storedUpload (by decide))
    intro t _
    apply meets_append (plain_proper plainCodec t [.register (bytes "g"), .insert (bytes "g") 0,
      .collect, .clear]
      (by decide))
    exact fun _ _ _ _ => ⟨trivial, trivial⟩
  · have hthere := (hkept helloInfo (by rw [hsaved]; exact List.mem_singleton_self _)).2
    rw [show helloInfo.filename = bytes "f" from rfl, hfile] at hthere
    cases hthere

def isHello : Json → Bool
  | .array [.object [(_, .string filename), (_, .int size), (_, .int time)]] =>
    filename = helloInfo.filename && (size = helloInfo.size && time = helloInfo.time)
  | _ => false

def helloText : Bytes := plainText (metadata [helloInfo])

def helloCodec : Codec where
  serialize := fun j =>
    match j with
    | .null => some (bytes "null")
    | j => if isHello j then some helloText else none
  deserialize := fun text =>
    if text = bytes "null" then some .null
    else if text = helloText then some (metadata [helloInfo]) else none

theorem helloCodec_texts (infos : List BackupInfoNode) (text : Bytes)
    (h : helloCodec.serialize (metadata infos) = some text) :
    (infos = [] ∧ text = bytes "null") ∨ (infos = [helloInfo] ∧ text = helloText) := by
  match infos with
  | [] =>
    cases h
    exact Or.inl ⟨rfl, rfl⟩
  | [r] =>
    have hser : (if isHello (metadata [r]) then some helloText else none) = some text := h
    split_ifs at hser with hr
    cases hser
    refine Or.inr ⟨?_, rfl⟩
    have hr : (r.filename = helloInfo.filename &&
      (r.size = helloInfo.size && r.time = helloInfo.time)) = true := hr
    simp only [Bool.and_eq_true, decide_eq_true_eq] at hr
    obtain ⟨hf, hz, ht⟩ := hr
    cases r
    simp_all [helloInfo]
  | r::q::rs => cases h

theorem helloCodec_reads : Reads helloCodec where
  null := rfl
  back := fun infos text _ hser => by
    rcases helloCodec_texts infos text hser with ⟨rfl, rfl⟩ | ⟨rfl, rfl⟩
    · exact ⟨by decide, rfl⟩
    · refine ⟨by decide, ?_⟩
      have hne : helloText ≠ bytes "null" := by decide
      simp only [helloCodec, hne, if_false, if_true]
  cut := fun infos text part hser hpre hne hnil => by
    have hout : part ≠ bytes "null" ∧ part ≠ helloText := by
      rcases helloCodec_texts infos text hser with ⟨rfl, rfl⟩ | ⟨rfl, rfl⟩
      · refine ⟨hne, ?_⟩
        rintro rfl
        exact absurd hpre (by decide)
      · refine ⟨?_, hne⟩
        rintro rfl
        exact absurd hpre (by decide)
    simp only [helloCodec, hout.1, hout.2, if_false]

/-- The crash comes after the pass is complete. -/
theorem crash_keeps_hello :
    Throughout (step plainEnv helloCodec) (Kept plainEnv) freshSite
      (storedUpload ++ [.crash 0]) := by
  have hproper : Meets (step plainEnv helloCodec) Proper freshSite (storedUpload ++ [.crash 0]) :=
    meets_append (plain_proper helloCodec freshSite storedUpload (by decide)) fun _ _ _ _ =>
      ⟨trivial, trivial⟩
  apply (crash_keeps plainEnv helloCodec freshSite _ plainEnv_housed helloCodec_reads
    freshSite_start hproper).mpr
  apply meets_append (plain_safe helloCodec freshSite storedUpload (by decide))
  intro t ht u _
  have hrun : (run (step plainEnv helloCodec) freshSite storedUpload).map (fun w =>
      (w.saved, (crashDisk plainEnv 0 w).files.lookup (metaPath plainEnv), w.store.disk.next.1)) =
      some ([helloInfo], some helloText, none) := by decide +kernel
  rw [ht, Option.map_some, Option.some.injEq] at hrun
  obtain ⟨hsaved, hrest⟩ := Prod.mk.inj hrun
  obtain ⟨hfile, hread⟩ := Prod.mk.inj hrest
  refine ⟨Or.inr ⟨⟨[helloInfo], helloText, ?_, rfl, hfile, by decide⟩, hread, ?_⟩, trivial⟩
  · intro r hr
    obtain rfl := List.mem_singleton.mp hr
    constructor <;> constructor <;> decide
  · intro r hr
    rw [hsaved] at hr
    obtain rfl := List.mem_singleton.mp hr
    decide

end CloudBackup.MetadataCrash
