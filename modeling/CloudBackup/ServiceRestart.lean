import CloudBackup.Backing
import CloudBackup.CleanRestart

/-!
# A restart of the service

The storage thread makes its pass. Once the flag is clean the process may end,
and a new one reads the metadata file and goes through the backup directory.
Both leave a store that backs the same files.
-/

set_option autoImplicit false

namespace CloudBackup.ServiceRestart
open CloudBackup.ByteStrings CloudBackup.JsonCodec CloudBackup.FilePath CloudBackup.BackupDirectory
open CloudBackup.FileStore CloudBackup.DataManager CloudBackup.MetadataFile CloudBackup.Restart
  CloudBackup.StoragePass
open CloudBackup.MetadataCrash CloudBackup.CleanFlag CloudBackup.CleanRestart
  CloudBackup.RunInvariants
open CloudBackup.FileService CloudBackup.Backing

/-- `none` when the thread has nothing to do or the pass does not come to its end. -/
def pass (env : Env) (codec : Codec) (s : Store) : Option Store :=
  (run (CleanRestart.step env codec) { process := { store := s, pass := .waiting },
                                       completed := true } onePass).map
    fun w => w.process.store

/-- `none` when the start fails. -/
def restart (env : Env) (codec : Codec) (clock : ℕ → ℤ) (s : Store) : Option Store :=
  let c := construct env codec clock s.disk
  if c.1 then some c.2 else none

/-- The records have a text that can be read back in one piece. -/
def Writes (codec : Codec) (s : Store) : Prop := ∃ text,
  codec.serialize (metadata (getAllBackupInfo s)) = some text ∧ text.length ≤ maxContent

structure Passed (env : Env) (s t : Store) : Prop where
  hash : t.hash = s.hash
  nodes : t.nodes = s.nodes
  next : t.nextNode = s.nextNode
  list : t.list = s.list
  clock : t.clock = s.clock
  files : OnlyAt (metaPath env) s.disk t.disk
  faults : s.disk.faults = [] → t.disk.faults = []

theorem passed_refl (env : Env) (s : Store) : Passed env s s :=
  ⟨rfl, rfl, rfl, rfl, rfl, OnlyAt.refl _ _, id⟩

theorem passed_trans {env : Env} {s t u : Store} (h : Passed env s t) (k : Passed env t u) :
    Passed env s u :=
  ⟨k.hash.trans h.hash, k.nodes.trans h.nodes, k.next.trans h.next, k.list.trans h.list,
    k.clock.trans h.clock, h.files.trans k.files, fun hs => k.faults (h.faults hs)⟩

theorem pass_step {env : Env} {codec : Codec} {w t : Session} {a : Op} (ha : a ∈ onePass)
    (ht : CleanRestart.step env codec w a = some t) :
    Passed env w.process.store t.process.store := by
  simp only [onePass, List.mem_cons, List.not_mem_nil, or_false] at ha
  obtain rfl | rfl | rfl | rfl := ha
  · obtain ⟨p, hp, rfl⟩ := Option.map_eq_some_iff.mp ht
    unfold CleanFlag.step at hp
    dsimp only at hp
    split at hp
    · split_ifs at hp
      cases hp
      exact ⟨rfl, rfl, rfl, rfl, rfl, OnlyAt.refl _ _, id⟩
    · cases hp
  · obtain ⟨p, hp, rfl⟩ := Option.map_eq_some_iff.mp ht
    unfold CleanFlag.step at hp
    dsimp only at hp
    split at hp
    · split at hp
      · cases hp
        exact passed_refl env _
      · cases hp
        exact passed_refl env _
    · cases hp
  · obtain ⟨p, hp, rfl⟩ := Option.map_eq_some_iff.mp ht
    unfold CleanFlag.step at hp
    dsimp only at hp
    split at hp
    · cases hp
      exact ⟨rfl, rfl, rfl, rfl, rfl, clear_onlyAt env (metaFile env) _, fun hs =>
        clear_faults hs env (metaFile env)⟩
    · cases hp
  · unfold CleanRestart.step at ht
    dsimp only at ht
    split at ht
    · cases ht
      exact ⟨rfl, rfl, rfl, rfl, rfl, appendContent_onlyAt env (metaFile env) _ _,
        fun hs => appendContent_faults hs env (metaFile env) _⟩
    · cases ht

theorem pass_run {env : Env} {codec : Codec} {w t : Session} (ops : List Op)
    (hops : ∀ a ∈ ops, a ∈ onePass)
    (ht : run (CleanRestart.step env codec) w ops = some t) :
    Passed env w.process.store t.process.store := by
  induction ops generalizing w with
  | nil =>
    cases ht
    exact passed_refl env _
  | cons a ops ih =>
    obtain ⟨u, hu, hrest⟩ := Option.bind_eq_some_iff.mp ht
    exact passed_trans (pass_step (hops a List.mem_cons_self) hu)
      (ih (fun b hb => hops b (List.mem_cons_of_mem a hb)) hrest)

section Pass
variable {env : Env} (hh : Housed env) {codec : Codec} {f : Files Bytes Bytes} {s : Store}
  (hs : Backs env codec f s)
include hh hs

theorem passed_shelf {t : Store} (h : Passed env s t) : Shelf env f t := by
  have hfile : ∀ name, isEntry name = true →
      t.disk.files.lookup (targetPath env name) = s.disk.files.lookup (targetPath env name) :=
    fun name hentry => h.files _ (entry_not_meta hh hentry)
  constructor
  · exact h.faults hs.shelf.faults
  · rw [h.hash]
    exact hs.shelf.settled
  · intro name id hid
    rw [validNode, h.hash] at hid
    obtain ⟨F, hF, hk⟩ := hs.shelf.kept name id hid
    refine ⟨F, hF, hk.accepted, hk.entry, ?_, ?_, ?_, ?_, hk.short⟩
    · rw [h.next]
      exact hk.older
    · rw [h.nodes, hk.filename]
    · rw [h.nodes, hk.size]
    · rw [hfile name hk.entry, hk.file]
  · intro name hid
    rw [validNode, h.hash] at hid
    exact hs.shelf.absent name hid
  · intro name hentry hthere
    rw [hfile name hentry] at hthere
    rw [h.hash]
    exact hs.shelf.owned name hentry hthere

theorem passed_backs {t : Store} (h : Passed env s t) {text : Bytes}
    (hser : codec.serialize (metadata (getAllBackupInfo s)) = some text)
    (hfile : t.disk.files.lookup (metaPath env) = some text) (hlen : text.length ≤ maxContent) :
    Backs env codec f t := by
  have hrecords : getAllBackupInfo t = getAllBackupInfo s := by
    rw [getAllBackupInfo, getAllBackupInfo, h.hash, h.nodes]
  have hvalid : ∀ name, validNode name t = validNode name s :=
    fun name => by rw [validNode, h.hash, validNode]
  constructor
  · exact passed_shelf hh hs h
  · refine ⟨by rw [h.list]; exact hs.linked.nodup, fun id hid => ?_⟩
    rw [h.list] at hid
    rw [hvalid, h.nodes]
    exact hs.linked.valid id hid
  · intro id hid name F hv hF
    rw [h.list] at hid
    rw [hvalid] at hv
    rw [h.nodes]
    exact hs.cached id hid name F hv hF
  · exact ⟨by rw [h.nodes]; exact hs.timed.nodes, by rw [h.clock]; exact hs.timed.clock⟩
  · exact ⟨text, hfile⟩
  · intro _
    exact ⟨getAllBackupInfo s, text, hser, hfile, hlen, by rw [hrecords]⟩

theorem backs_pass (hdirty : s.isDirty = true) (hwrites : Writes codec s) :
    ∃ t, pass env codec s = some t ∧ t.isDirty = false ∧ Backs env codec f t := by
  obtain ⟨text, hser, hlen⟩ := hwrites
  obtain ⟨old, hold⟩ := hs.file
  obtain ⟨w, hrun, hclean, hfile⟩ := pass_completes hh codec
    { process := { store := s, pass := .waiting }, completed := true } old text rfl hdirty
      hs.shelf.faults hold hser
  have hpassed := pass_run onePass (fun _ ha => ha) hrun
  exact ⟨w.process.store, by
    rw [pass, hrun, Option.map_some], hclean.clean, passed_backs hh hs hpassed hser hfile hlen⟩

end Pass

theorem removeOrphans_faults (env : Env) (s : Store) (files : List Bytes) (h : s.disk.faults = []) :
    (removeOrphans env s files).faults = [] := by
  unfold removeOrphans
  generalize s.disk = d at h ⊢
  induction files generalizing d with
  | nil => exact h
  | cons file files ih =>
    rw [List.foldl_cons]
    apply ih
    split_ifs
    · exact h
    · exact removeRegularFile_faults h env file

theorem verify_rest {env : Env} (hh : Housed env) (s : Store) (h : s.disk.faults = []) :
    (verifyFileLegality env s).disk.faults = [] ∧ (verifyFileLegality env s).list = s.list := by
  obtain ⟨files, hscan, -⟩ := scanDirectory_listed hh s.disk
  rw [verifyFileLegality, hscan]
  exact ⟨removeOrphans_faults env s files h, rfl⟩

theorem loadRecords_rest (infos : List BackupInfoNode) (hfits : ∀ r ∈ infos, Fits r) (s : Store)
    (hs : Timed s) :
    Timed (loadRecords infos s) ∧ (loadRecords infos s).list = s.list ∧
      (loadRecords infos s).isDirty = s.isDirty := by
  induction infos generalizing s with
  | nil => exact ⟨hs, rfl, rfl⟩
  | cons info infos ih =>
    have hrest := fun r hr => hfits r (List.mem_cons_of_mem info hr)
    rw [loadRecords, List.foldl_cons]
    split_ifs
    · apply ih hrest
      refine ⟨fun id => ?_, hs.clock⟩
      show Int64Range
        (Function.update s.nodes s.nextNode { info := info, filePreContent := [] } id).info.time
      by_cases hid : id = s.nextNode
      · rw [hid, Function.update_self]
        exact (hfits info List.mem_cons_self).2
      · rw [Function.update_of_ne hid]
        exact hs.nodes id
    · exact ih hrest s hs

section Start
variable {env : Env} (hh : Housed env) (hflat : Flat env) {codec : Codec}
  {f : Files Bytes Bytes} {s : Store}
  (hs : Backs env codec f s) {infos : List BackupInfoNode} (hperm : infos.Perm (getAllBackupInfo s))
  (clock : ℕ → ℤ)
include hh hs hperm

omit hh hs hperm in
def loaded (s : Store) (infos : List BackupInfoNode) (clock : ℕ → ℤ) : Store :=
  loadRecords infos (reborn clock s.disk)

theorem mem_infos (r : BackupInfoNode) : r ∈ infos ↔ Recorded s r := by
  rw [hperm.mem_iff]
  exact mem_snapshot (shelf_stored hh hs.shelf hs.timed) r

theorem infos_names : (infos.map BackupInfoNode.filename).Nodup :=
  (hperm.map _).nodup_iff.mpr (snapshot_names (shelf_stored hh hs.shelf hs.timed))

omit hh hperm in
theorem recorded_keeps {r : BackupInfoNode} (hr : Recorded s r) :
    ∃ F id, f r.filename = some F ∧ Keeps env s r.filename F id ∧ (s.nodes id).info = r := by
  obtain ⟨id, hid, hnode⟩ := hr
  obtain ⟨F, hF, hk⟩ := hs.shelf.kept r.filename id ((validNode_iff _ s id).mpr hid)
  exact ⟨F, id, hF, hk, hnode⟩

theorem loaded_recorded (r : BackupInfoNode) :
    Recorded (loaded s infos clock) r ↔ Recorded s r := by
  rw [loaded, recorded_loadRecords infos _ (reborn_loaded clock s.disk) (infos_names hh hs hperm),
    mem_infos hh hs hperm]
  constructor
  · rintro (⟨hr, -⟩ | ⟨hr, -⟩)
    · exact hr
    · exact absurd hr (reborn_records clock s.disk r)
  · intro hr
    obtain ⟨F, id, -, hk, hnode⟩ := recorded_keeps hs hr
    have hsize := hk.size
    rw [hnode] at hsize
    refine Or.inl ⟨hr, ?_⟩
    rw [acceptable, Bool.and_eq_true]
    exact ⟨decide_eq_true ((entry_iff _).mp hk.entry).1, decide_eq_true (by rw [hsize]; omega)⟩

omit hh hperm in
theorem loaded_disk : (loaded s infos clock).disk = s.disk := by
  rw [loaded, loadRecords_disk]
  show s.disk.next.2 = s.disk
  rw [next_of_clean s.disk hs.shelf.faults]

theorem started_lookup (name : Bytes) :
    (verifyFileLegality env (loaded s infos clock)).hash.lookup name =
      (loaded s infos clock).hash.lookup name := by
  rw [verifyFileLegality_lookup hh, loaded_disk hs clock]
  split_ifs with hp
  · rfl
  · cases hl : (loaded s infos clock).hash.lookup name with
    | none => rfl
    | some v =>
      have hloaded : Loaded (loaded s infos clock) :=
        loaded_loadRecords infos _ (reborn_loaded clock s.disk)
      obtain ⟨r, rfl, hr⟩ := hloaded.records name v hl
      obtain ⟨F, id, -, hk, -⟩ := recorded_keeps hs ((loaded_recorded hh hs hperm clock r).mp hr)
      exact absurd ((present_iff hh s.disk r.filename).mpr ⟨hk.entry, by rw [hk.file]; rfl⟩) hp

theorem started_recorded (r : BackupInfoNode) :
    Recorded (verifyFileLegality env (loaded s infos clock)) r ↔ Recorded s r := by
  rw [← loaded_recorded hh hs hperm clock]
  simp only [Recorded, started_lookup hh hs hperm clock, (verifyFileLegality_same hh _).1]

include hflat in
theorem started_shelf : Shelf env f (verifyFileLegality env (loaded s infos clock)) := by
  have hloaded : Loaded (verifyFileLegality env (loaded s infos clock)) :=
    loaded_verify hh _ (loaded_loadRecords infos _ (reborn_loaded clock s.disk))
  have hclean : (loaded s infos clock).disk.faults = [] := by
    rw [loaded_disk hs clock]
    exact hs.shelf.faults
  -- An entry is the record of a file kept.
  have hback : ∀ name v, (verifyFileLegality env (loaded s infos clock)).hash.lookup name = some v →
      ∃ F id i, v = some i ∧ f name = some F ∧ Keeps env s name F id ∧
        ((verifyFileLegality env (loaded s infos clock)).nodes i).info = (s.nodes id).info := by
    intro name v hv
    obtain ⟨r, rfl, hr⟩ := hloaded.records name v hv
    obtain ⟨F, id, hF, hk, hnode⟩ :=
      recorded_keeps hs ((started_recorded hh hs hperm clock r).mp hr)
    obtain ⟨i, hi, hinfo⟩ := hr
    exact ⟨F, id, i, Option.some.inj (hv.symm.trans hi), hF, hk, hinfo.trans hnode.symm⟩
  constructor
  · exact (verify_rest hh _ hclean).1
  · intro name hres
    obtain ⟨F, id, i, hv, -⟩ := hback name none hres
    cases hv
  · intro name i hi
    have hlookup := (validNode_iff name _ i).mp hi
    obtain ⟨F, id, j, hj, hF, hk, hinfo⟩ := hback name (some i) hlookup
    obtain rfl := Option.some.inj hj
    refine ⟨F, hF, hk.accepted, hk.entry, hloaded.bounded name i hlookup, ?_, ?_, ?_, hk.short⟩
    · rw [hinfo, hk.filename]
    · rw [hinfo, hk.size]
    · rw [started_lookup hh hs hperm clock] at hlookup
      have hkept := verifyFileLegality_kept hh (loaded s infos clock) name (by rw [hlookup]; rfl)
      rw [entry_target hh name hk.entry, hkept, loaded_disk hs clock,
        ← entry_target hh name hk.entry, hk.file]
  · intro name hnone
    by_contra hsome
    obtain ⟨id, hid⟩ := Option.isSome_iff_exists.mp
      (by rw [shelf_valid hs.shelf name]; exact Option.isSome_iff_ne_none.mpr hsome :
        (validNode name s).isSome = true)
    obtain ⟨F, -, hk⟩ := hs.shelf.kept name id hid
    have hrec : Recorded s (s.nodes id).info :=
      ⟨id, by rw [hk.filename]; exact (validNode_iff name s id).mp hid, rfl⟩
    obtain ⟨i, hi, -⟩ := (started_recorded hh hs hperm clock _).mpr hrec
    rw [hk.filename] at hi
    rw [(validNode_iff name _ i).mpr hi] at hnone
    cases hnone
  · intro name hentry hthere
    rw [started_lookup hh hs hperm clock, ← Option.not_isNone, Bool.not_eq_true']
    by_contra hnone
    rw [Bool.not_eq_false, Option.isNone_iff_eq_none] at hnone
    have hdir := hflat name hentry
    rw [entry_target hh name hentry] at hdir hthere
    rw [verifyFileLegality_orphan hh _ name hentry hnone hdir hclean] at hthere
    cases hthere

include hflat in
theorem started_backs (hclock : ∀ n, Int64Range (clock n)) {text : Bytes}
    (hser : codec.serialize (metadata infos) = some text)
    (hfile : s.disk.files.lookup (metaPath env) = some text) (hlen : text.length ≤ maxContent) :
    Backs env codec f (verifyFileLegality env (loaded s infos clock)) := by
  have hshelf := started_shelf hh hflat hs hperm clock
  have hfits : ∀ r ∈ infos, Fits r := fun r hr =>
    snapshot_fits (shelf_stored hh hs.shelf hs.timed) r (hperm.mem_iff.mp hr)
  have hreborn : Timed (reborn clock s.disk) :=
    ⟨fun _ => by constructor <;> norm_num [reborn, Store.fresh], hclock⟩
  obtain ⟨htimed, hlist, -⟩ := loadRecords_rest infos hfits _ hreborn
  obtain ⟨hnodes, -, hsame⟩ := verifyFileLegality_same hh (loaded s infos clock)
  have hclean : (loaded s infos clock).disk.faults = [] := by
    rw [loaded_disk hs clock]
    exact hs.shelf.faults
  have hempty : (verifyFileLegality env (loaded s infos clock)).list = [] :=
    (verify_rest hh _ hclean).2.trans hlist
  have ht : Timed (verifyFileLegality env (loaded s infos clock)) :=
    ⟨by rw [hnodes]; exact htimed.nodes, by rw [hsame]; exact htimed.clock⟩
  have hmeta : (verifyFileLegality env (loaded s infos clock)).disk.files.lookup
    (metaPath env) = some text := by
    rw [verifyFileLegality_meta hh, loaded_disk hs clock, hfile]
  constructor
  · exact hshelf
  · refine ⟨by rw [hempty]; exact List.nodup_nil, fun id hid => ?_⟩
    rw [hempty] at hid
    cases hid
  · intro id hid
    rw [hempty] at hid
    cases hid
  · exact ht
  · exact ⟨text, hmeta⟩
  · intro _
    have hstored := shelf_stored hh hshelf ht
    refine ⟨infos, text, hser, hmeta, hlen, ?_⟩
    apply (List.perm_ext_iff_of_nodup (infos_names hh hs hperm).of_map
      (snapshot_names hstored).of_map).mpr
    intro r
    rw [mem_infos hh hs hperm, mem_snapshot hstored, started_recorded hh hs hperm clock]

end Start

theorem backs_restart {env : Env} (hh : Housed env) (hflat : Flat env) {codec : Codec}
    (hcodec : Reads codec)
    {f : Files Bytes Bytes} {s : Store} (hs : Backs env codec f s) {clock : ℕ → ℤ}
    (hclock : ∀ n, Int64Range (clock n))
    (hclean : s.isDirty = false) :
    ∃ t, restart env codec clock s = some t ∧ Backs env codec f t := by
  obtain ⟨infos, text, hser, hfile, hlen, hperm⟩ := hs.saved hclean
  have hfits : ∀ r ∈ infos, Fits r := fun r hr =>
    snapshot_fits (shelf_stored hh hs.shelf hs.timed) r (hperm.mem_iff.mp hr)
  have hread : s.disk.next.1 = none := by rw [next_of_clean _ hs.shelf.faults]
  have hstart := construct_reads hh codec clock s.disk text hfile hcodec infos hfits hser hlen hread
  refine ⟨verifyFileLegality env (loaded s infos clock), ?_,
    started_backs hh hflat hs hperm clock hclock hser hfile hlen⟩
  rw [restart, hstart]
  rfl

end CloudBackup.ServiceRestart
