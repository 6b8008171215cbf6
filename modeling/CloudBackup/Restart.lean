import CloudBackup.MetadataFile

/-!
# Starting over from a disk

The records found after a start are those of the metadata file whose files
are still there, and their files are kept. Reading goes wrong for every cut
of a written text except the empty one, which describes no record.
-/

set_option autoImplicit false

namespace CloudBackup.Restart
open CloudBackup.ByteStrings CloudBackup.JsonCodec CloudBackup.FilePath CloudBackup.BackupDirectory
open CloudBackup.FileStore CloudBackup.DataManager CloudBackup.HttpCallbacks
  CloudBackup.MetadataFile

def Recorded (s : Store) (r : BackupInfoNode) : Prop :=
  ∃ id, s.hash.lookup r.filename = some (some id) ∧ (s.nodes id).info = r

structure Loaded (s : Store) : Prop where
  bounded : ∀ name id, s.hash.lookup name = some (some id) → id < s.nextNode
  records : ∀ name v, s.hash.lookup name = some v → ∃ r, r.filename = name ∧ Recorded s r

theorem recorded_addRecord (s : Store) (hs : Loaded s) (info r : BackupInfoNode) :
    Recorded (addRecord s info) r ↔ r = info ∨ (r.filename ≠ info.filename ∧ Recorded s r) := by
  by_cases hn : r.filename = info.filename
  · constructor
    · rintro ⟨id, hid, hr⟩
      rw [addRecord, hn, AList.lookup_insert, Option.some.injEq, Option.some.injEq] at hid
      subst hid
      simp only [addRecord, Function.update_self] at hr
      exact Or.inl hr.symm
    · rintro (rfl | ⟨hne, -⟩)
      · exact ⟨s.nextNode, AList.lookup_insert _, by simp [addRecord]⟩
      · exact absurd hn hne
  · have hold : ∀ id, (addRecord s info).hash.lookup r.filename = some (some id) ↔
        s.hash.lookup r.filename = some (some id) := fun id => by
      rw [addRecord, AList.lookup_insert_ne hn]
    have hnode : ∀ id, s.hash.lookup r.filename = some (some id) →
      (addRecord s info).nodes id = s.nodes id :=
      fun id hid => Function.update_of_ne (hs.bounded _ id hid).ne _ _
    constructor
    · rintro ⟨id, hid, hr⟩
      rw [hold] at hid
      rw [hnode id hid] at hr
      exact Or.inr ⟨hn, id, hid, hr⟩
    · rintro (rfl | ⟨-, id, hid, hr⟩)
      · exact absurd rfl hn
      · exact ⟨id, (hold id).mpr hid, by rw [hnode id hid]; exact hr⟩

theorem loaded_addRecord (s : Store) (hs : Loaded s) (info : BackupInfoNode) :
    Loaded (addRecord s info) := by
  constructor
  · intro name id hid
    by_cases hn : name = info.filename
    · rw [addRecord, hn, AList.lookup_insert, Option.some.injEq, Option.some.injEq] at hid
      rw [← hid]
      exact Nat.lt_succ_self _
    · rw [addRecord, AList.lookup_insert_ne hn] at hid
      exact Nat.lt_succ_of_lt (hs.bounded name id hid)
  · intro name v hv
    by_cases hn : name = info.filename
    · exact ⟨info, hn.symm, (recorded_addRecord s hs info info).mpr (Or.inl rfl)⟩
    · rw [addRecord, AList.lookup_insert_ne hn] at hv
      obtain ⟨r, rfl, hr⟩ := hs.records name v hv
      exact ⟨r, rfl, (recorded_addRecord s hs info r).mpr (Or.inr ⟨hn, hr⟩)⟩

theorem loaded_loadRecords (infos : List BackupInfoNode) (s : Store) (hs : Loaded s) :
    Loaded (loadRecords infos s) := by
  induction infos generalizing s with
  | nil => exact hs
  | cons info infos ih =>
    rw [loadRecords, List.foldl_cons]
    apply ih
    split_ifs
    · exact loaded_addRecord s hs info
    · exact hs

theorem loadRecords_disk (infos : List BackupInfoNode) (s : Store) :
    (loadRecords infos s).disk = s.disk := by
  induction infos generalizing s with
  | nil => rfl
  | cons info infos ih =>
    rw [loadRecords, List.foldl_cons]
    refine (ih _).trans ?_
    split_ifs <;> rfl

/-- Of two items with one name the later stands; the names of a list that was
written differ. -/
theorem recorded_loadRecords (infos : List BackupInfoNode) (s : Store) (hs : Loaded s)
    (hnames : (infos.map BackupInfoNode.filename).Nodup) (r : BackupInfoNode) :
    Recorded (loadRecords infos s) r ↔ (r ∈ infos ∧ acceptable r = true) ∨
      (Recorded s r ∧ ∀ i ∈ infos, acceptable i = true → i.filename ≠ r.filename) := by
  induction infos generalizing s with
  | nil => simp [loadRecords]
  | cons info infos ih =>
    rw [List.map_cons, List.nodup_cons] at hnames
    have hfresh : ∀ i ∈ infos, i.filename ≠ info.filename := fun i hi he =>
      hnames.1 (he ▸ List.mem_map_of_mem hi)
    rw [loadRecords, List.foldl_cons]
    by_cases ha : acceptable info = true
    · rw [if_pos ha]
      refine (ih _ (loaded_addRecord s hs info) hnames.2).trans ?_
      rw [recorded_addRecord s hs]
      constructor
      · rintro (⟨hr, hok⟩ | ⟨rfl | ⟨hne, hr⟩, hrest⟩)
        · exact Or.inl ⟨List.mem_cons_of_mem info hr, hok⟩
        · exact Or.inl ⟨List.mem_cons_self, ha⟩
        · refine Or.inr ⟨hr, fun i hi hok => ?_⟩
          rcases List.mem_cons.mp hi with rfl | hi
          · exact hne.symm
          · exact hrest i hi hok
      · rintro (⟨hr, hok⟩ | ⟨hr, hrest⟩)
        · rcases List.mem_cons.mp hr with rfl | hr
          · exact Or.inr ⟨Or.inl rfl, fun i hi _ => hfresh i hi⟩
          · exact Or.inl ⟨hr, hok⟩
        · exact Or.inr ⟨Or.inr ⟨(hrest info List.mem_cons_self ha).symm, hr⟩,
            fun i hi => hrest i (List.mem_cons_of_mem info hi)⟩
    · rw [if_neg ha]
      refine (ih s hs hnames.2).trans ?_
      constructor
      · rintro (⟨hr, hok⟩ | ⟨hr, hrest⟩)
        · exact Or.inl ⟨List.mem_cons_of_mem info hr, hok⟩
        · refine Or.inr ⟨hr, fun i hi hok => ?_⟩
          rcases List.mem_cons.mp hi with rfl | hi
          · exact absurd hok ha
          · exact hrest i hi hok
      · rintro (⟨hr, hok⟩ | ⟨hr, hrest⟩)
        · rcases List.mem_cons.mp hr with rfl | hr
          · exact absurd hok ha
          · exact Or.inl ⟨hr, hok⟩
        · exact Or.inr ⟨hr, fun i hi => hrest i (List.mem_cons_of_mem info hi)⟩

/-- The deployment: the backup directory is there under its normal path, the
metadata file lies outside it and can be written. -/
structure Housed (env : Env) : Prop where
  deployed : Deployed env
  canonical : Canonical env
  fixed : pathTransform env (backupDir env) = backupDir env
  nonempty : backupDir env ≠ []
  directory : env.isDirectory (backupDir env) = true
  dots : writable env (targetFile env (bytes ".")) = false ∧
    writable env (targetFile env (bytes "..")) = false
  outside : ¬ targetPrefix env <+: metaPath env
  written : writable env (metaFile env) = true

theorem entry_iff (name : Bytes) : isEntry name = true ↔
    name ≠ [] ∧ slash ∉ name ∧ 0 ∉ name ∧ name ≠ bytes "." ∧ name ≠ bytes ".." := by
  simp [isEntry, and_assoc]

theorem takeWhile_reverse_name (s name : Bytes) (hname : slash ∉ name) :
    ((withSlash s ++ name).reverse.takeWhile (· ≠ slash)).reverse = name := by
  obtain ⟨t, ht⟩ := List.getLast?_eq_some_iff.mp (of_decide_eq_true (endsWithSlash_withSlash s))
  rw [ht, List.reverse_append, List.reverse_append, List.takeWhile_append_of_pos]
  · simp
  · intro c hc
    have : c ≠ slash := fun h => hname (h ▸ List.mem_reverse.mp hc)
    simpa using this

theorem getFileName_child (s name : Bytes) (hne : name ≠ []) (hname : slash ∉ name) :
    getFileName (withSlash s ++ name) = name := by
  rw [getFileName, dropTrailingSlash_append_name hne hname]
  exact takeWhile_reverse_name s name hname

section Housed
variable {env : Env} (hh : Housed env)
include hh

theorem targetPrefix_dir : targetPrefix env = withSlash (backupDir env) := by
  have hx : targetFile env (bytes "x") = withSlash (backupDir env) ++ bytes "x" :=
    pathTransform_name hh.canonical hh.deployed.accepted (bytes "x") (by decide) (by decide)
      (by decide) (by decide)
  rw [targetPrefix, hx]
  exact List.dropLast_concat

/-- A listed name is normalised to the path it was listed under, which is also
that of an upload of this name. -/
theorem entry_path (name : Bytes) (he : isEntry name = true) :
    pathTransform env (withSlash (backupDir env) ++ name) = withSlash (backupDir env) ++ name ∧
      targetFile env name = withSlash (backupDir env) ++ name ∧
      cstr (withSlash (backupDir env) ++ name) = withSlash (backupDir env) ++ name := by
  obtain ⟨hne, hslash, hnul, hdot, hdots⟩ := (entry_iff name).mp he
  have hdir : isPath env (backupDir env) ≠ [] := fun h => by
    have hfix := hh.fixed
    rw [pathTransform, pathTransformAt] at hfix
    dsimp only at hfix
    rw [if_pos h] at hfix
    exact hh.nonempty hfix.symm
  have hclean := hh.deployed.clean
  rw [targetPrefix_dir hh] at hclean
  refine ⟨?_, ?_, ?_⟩
  · rw [pathTransform_name hh.canonical hdir name hne hslash hdot hdots, hh.fixed]
  · exact pathTransform_name hh.canonical hh.deployed.accepted name hne hslash hdot hdots
  · apply cstr_clean
    rw [List.mem_append, not_or]
    exact ⟨hclean, hnul⟩

theorem backupDir_clean : cstr (backupDir env) = backupDir env := by
  apply cstr_clean
  intro h
  apply hh.deployed.clean
  rw [targetPrefix_dir hh]
  unfold withSlash
  split_ifs
  · exact h
  · exact List.mem_append_left _ h

theorem scanDirectory_listed (d : Disk) :
    ∃ files, scanDirectory env (backupDir env) d = some files ∧
    ∀ file, file ∈ files ↔ ∃ name, isEntry name = true ∧ file = withSlash (backupDir env) ++ name ∧
      (d.files.lookup file).isSome = true := by
  have hexists : fileExists env (backupDir env) d = true := by
    simp [fileExists, hh.nonempty, backupDir_clean hh, hh.directory]
  refine ⟨(d.files.keys.filter (isChild (backupDir env))).map (pathTransform env), ?_,
    fun file => ?_⟩
  · rw [scanDirectory, hexists, backupDir_clean hh, hh.directory]
    rfl
  · rw [List.mem_map]
    constructor
    · rintro ⟨p, hp, rfl⟩
      obtain ⟨hkey, hchild⟩ := List.mem_filter.mp hp
      obtain ⟨hpre, hentry⟩ := Bool.and_eq_true_iff.mp hchild
      obtain ⟨name, rfl⟩ := List.isPrefixOf_iff_prefix.mp hpre
      rw [List.drop_left] at hentry
      refine ⟨name, hentry, (entry_path hh name hentry).1, ?_⟩
      rw [(entry_path hh name hentry).1]
      exact AList.lookup_isSome.mpr hkey
    · rintro ⟨name, hentry, rfl, hfile⟩
      refine ⟨withSlash (backupDir env) ++ name, List.mem_filter.mpr ⟨?_, ?_⟩,
        (entry_path hh name hentry).1⟩
      · exact AList.lookup_isSome.mp hfile
      · rw [isChild, List.drop_left, hentry, Bool.and_true]
        exact List.isPrefixOf_iff_prefix.mpr (List.prefix_append _ _)

end Housed

theorem eraseAll_lookup (names : List Bytes) (hash : Table (Option NodeId)) (name : Bytes) :
    (names.foldl (fun hash filename => hash.erase filename) hash).lookup name =
      if name ∈ names then none else hash.lookup name := by
  induction names generalizing hash with
  | nil => simp
  | cons n ns ih =>
    rw [List.foldl_cons, ih]
    by_cases hn : name = n
    · subst hn
      rw [AList.lookup_erase]
      simp
    · rw [AList.lookup_erase_ne hn]
      simp [hn]

theorem removeOrphans_lookup (env : Env) (s : Store) (files : List Bytes) (q : Bytes)
    (hq : ∀ file ∈ files, hasRecord s file = false → cstr file ≠ q) :
    (removeOrphans env s files).files.lookup q = s.disk.files.lookup q := by
  unfold removeOrphans
  generalize s.disk = d
  induction files generalizing d with
  | nil => rfl
  | cons file files ih =>
    rw [List.foldl_cons, ih fun f hf => hq f (List.mem_cons_of_mem file hf)]
    split_ifs with hrec
    · rfl
    · exact removeRegularFile_onlyAt env file d q
        (hq file List.mem_cons_self (by simpa using hrec)).symm

/-- What goes through the list of files only removes. -/
theorem removeOrphans_shrinks (env : Env) (s : Store) (files : List Bytes) (q F : Bytes)
    (h : (removeOrphans env s files).files.lookup q = some F) : s.disk.files.lookup q = some F := by
  unfold removeOrphans at h
  generalize s.disk = d at h
  induction files generalizing d with
  | nil => exact h
  | cons file files ih =>
    have hrest := ih _ h
    dsimp only at hrest
    split_ifs at hrest
    · exact hrest
    · exact removeRegularFile_lookup env file q F d hrest

theorem removeOrphans_removed (env : Env) (s : Store) (files : List Bytes) (file : Bytes)
    (hfile : file ∈ files)
    (hrec : hasRecord s file = false) (hne : file ≠ []) (hdir : env.isDirectory (cstr file) = false)
    (hd : s.disk.faults = []) : (removeOrphans env s files).files.lookup (cstr file) = none := by
  have hstays : ∀ (files : List Bytes) (d : Disk), d.files.lookup (cstr file) = none →
      (files.foldl (fun d file =>
        if hasRecord s file then d else (removeRegularFile env file d).2) d).files.lookup
        (cstr file) = none := by
    intro files d hnone
    rw [Option.eq_none_iff_forall_ne_some]
    intro F hF
    rw [removeOrphans_shrinks env { s with disk := d } files _ F hF] at hnone
    cases hnone
  unfold removeOrphans
  generalize s.disk = d at hd ⊢
  induction files generalizing d with
  | nil => exact absurd hfile List.not_mem_nil
  | cons f files ih =>
    rw [List.foldl_cons]
    rcases List.mem_cons.mp hfile with rfl | hin
    · apply hstays
      rw [hrec, if_neg Bool.false_ne_true]
      by_cases he : fileExists env file d = true
      · rw [removeRegularFile_done env file he hdir]
        exact AList.lookup_erase _ _
      · have hgone : d.files.lookup (cstr file) = none := by
          simpa [fileExists, hne, hdir] using he
        simpa only [removeRegularFile, he, Bool.not_false, if_true] using hgone
    · apply ih hin
      split_ifs
      · exact hd
      · exact removeRegularFile_faults hd env f

def present (env : Env) (d : Disk) (name : Bytes) : Bool :=
  isEntry name && (d.files.lookup (withSlash (backupDir env) ++ name)).isSome

section Verify
variable {env : Env} (hh : Housed env) (s : Store)
include hh

omit hh in
theorem mem_backupFiles {files : List Bytes}
    (hfiles : ∀ file, file ∈ files ↔ ∃ name, isEntry name = true ∧
      file = withSlash (backupDir env) ++ name ∧ (s.disk.files.lookup file).isSome = true)
      (name : Bytes) :
    name ∈ (files.filter (hasRecord s)).map getFileName ↔
      present env s.disk name = true ∧ (s.hash.lookup name).isSome = true := by
  rw [List.mem_map, present, Bool.and_eq_true]
  constructor
  · rintro ⟨file, hfile, rfl⟩
    obtain ⟨hmem, hrec⟩ := List.mem_filter.mp hfile
    obtain ⟨n, hn, rfl, hdisk⟩ := (hfiles file).mp hmem
    obtain ⟨hne, hslash, -⟩ := (entry_iff n).mp hn
    rw [hasRecord, getFileName_child _ n hne hslash] at hrec
    rw [getFileName_child _ n hne hslash]
    exact ⟨⟨hn, hdisk⟩, hrec⟩
  · rintro ⟨⟨hn, hdisk⟩, hrec⟩
    obtain ⟨hne, hslash, -⟩ := (entry_iff name).mp hn
    have hname := getFileName_child (backupDir env) name hne hslash
    refine ⟨withSlash (backupDir env) ++ name,
      List.mem_filter.mpr ⟨(hfiles _).mpr ⟨name, hn, rfl, hdisk⟩, ?_⟩, hname⟩
    rw [hasRecord, hname]
    exact hrec

theorem verifyFileLegality_lookup (name : Bytes) : (verifyFileLegality env s).hash.lookup name =
    if present env s.disk name then s.hash.lookup name else none := by
  obtain ⟨files, hscan, hfiles⟩ := scanDirectory_listed hh s.disk
  have hbackup := mem_backupFiles s hfiles name
  rw [verifyFileLegality, hscan]
  dsimp only
  rw [eraseAll_lookup]
  cases hl : s.hash.lookup name with
  | none => simp
  | some v =>
    have hrec : (s.hash.lookup name).isSome = true := by rw [hl]; rfl
    by_cases hp : present env s.disk name = true
    · rw [if_pos hp, if_neg]
      intro hout
      exact of_decide_eq_true (List.mem_filter.mp hout).2 (hbackup.mpr ⟨hp, hrec⟩)
    · rw [if_neg hp, if_pos]
      apply List.mem_filter.mpr
      exact ⟨AList.lookup_isSome.mp hrec, decide_eq_true fun hin => hp (hbackup.mp hin).1⟩

theorem verifyFileLegality_dirty : (verifyFileLegality env s).isDirty = true ↔ s.isDirty = true ∨
    ∃ name, (s.hash.lookup name).isSome = true ∧ present env s.disk name = false := by
  obtain ⟨files, hscan, hfiles⟩ := scanDirectory_listed hh s.disk
  rw [verifyFileLegality, hscan]
  dsimp only
  rw [Bool.or_eq_true, decide_eq_true_iff]
  apply or_congr_right
  constructor
  · intro hne
    obtain ⟨name, hname⟩ := List.exists_mem_of_ne_nil _ hne
    obtain ⟨hkey, hout⟩ := List.mem_filter.mp hname
    have hrec := AList.lookup_isSome.mpr hkey
    refine ⟨name, hrec, Bool.eq_false_iff.mpr fun hp => ?_⟩
    exact of_decide_eq_true hout ((mem_backupFiles s hfiles name).mpr ⟨hp, hrec⟩)
  · rintro ⟨name, hrec, hp⟩
    apply List.ne_nil_of_mem
    apply List.mem_filter.mpr
    refine ⟨AList.lookup_isSome.mp hrec, decide_eq_true fun hin => ?_⟩
    have hpresent := ((mem_backupFiles s hfiles name).mp hin).1
    rw [hp] at hpresent
    cases hpresent

theorem verifyFileLegality_same : (verifyFileLegality env s).nodes = s.nodes ∧
    (verifyFileLegality env s).nextNode = s.nextNode ∧
      (verifyFileLegality env s).clock = s.clock := by
  obtain ⟨files, hscan, -⟩ := scanDirectory_listed hh s.disk
  rw [verifyFileLegality, hscan]
  exact ⟨rfl, rfl, rfl⟩

theorem verifyFileLegality_file (q : Bytes)
    (hq : ∀ name, isEntry name = true → s.hash.lookup name = none →
    withSlash (backupDir env) ++ name ≠ q) :
    (verifyFileLegality env s).disk.files.lookup q = s.disk.files.lookup q := by
  obtain ⟨files, hscan, hfiles⟩ := scanDirectory_listed hh s.disk
  rw [verifyFileLegality, hscan]
  apply removeOrphans_lookup
  intro file hfile hrec
  obtain ⟨n, hn, rfl, -⟩ := (hfiles file).mp hfile
  obtain ⟨hne, hslash, -⟩ := (entry_iff n).mp hn
  rw [hasRecord, getFileName_child _ n hne hslash] at hrec
  rw [(entry_path hh n hn).2.2]
  exact hq n hn (by simpa using hrec)

theorem verifyFileLegality_orphan (name : Bytes) (hentry : isEntry name = true)
    (hnone : s.hash.lookup name = none)
    (hdir : env.isDirectory (withSlash (backupDir env) ++ name) = false) (hd : s.disk.faults = []) :
    (verifyFileLegality env s).disk.files.lookup (withSlash (backupDir env) ++ name) = none := by
  obtain ⟨files, hscan, hfiles⟩ := scanDirectory_listed hh s.disk
  obtain ⟨hne, hslash, -⟩ := (entry_iff name).mp hentry
  have hclean := (entry_path hh name hentry).2.2
  rw [verifyFileLegality, hscan]
  dsimp only
  by_cases hthere : (s.disk.files.lookup (withSlash (backupDir env) ++ name)).isSome = true
  · rw [← hclean]
    apply removeOrphans_removed env s files _ ((hfiles _).mpr ⟨name, hentry, rfl, hthere⟩)
    · rw [hasRecord, getFileName_child _ name hne hslash, hnone]
      rfl
    · exact List.append_ne_nil_of_right_ne_nil _ hne
    · rwa [hclean]
    · exact hd
  · rw [Option.eq_none_iff_forall_ne_some]
    intro F hF
    apply hthere
    rw [removeOrphans_shrinks env s files _ F hF]
    rfl

theorem verifyFileLegality_kept (name : Bytes) (hname : (s.hash.lookup name).isSome = true) :
    (verifyFileLegality env s).disk.files.lookup (withSlash (backupDir env) ++ name) =
      s.disk.files.lookup (withSlash (backupDir env) ++ name) := by
  apply verifyFileLegality_file hh s
  intro n _ hnone heq
  rw [List.append_cancel_left heq] at hnone
  rw [hnone] at hname
  cases hname

theorem verifyFileLegality_meta :
    (verifyFileLegality env s).disk.files.lookup (metaPath env) = s.disk.files.lookup
      (metaPath env) := by
  apply verifyFileLegality_file hh s
  intro n _ _ heq
  apply hh.outside
  rw [targetPrefix_dir hh, ← heq]
  exact List.prefix_append _ _

theorem recorded_verify (r : BackupInfoNode) :
    Recorded (verifyFileLegality env s) r ↔ Recorded s r ∧
      present env s.disk r.filename = true := by
  unfold Recorded
  rw [verifyFileLegality_lookup hh, (verifyFileLegality_same hh s).1]
  by_cases hp : present env s.disk r.filename = true
  · rw [if_pos hp]
    exact (and_iff_left hp).symm
  · rw [if_neg hp]
    simp [hp]

theorem loaded_verify (hs : Loaded s) : Loaded (verifyFileLegality env s) := by
  constructor
  · intro name id hid
    rw [verifyFileLegality_lookup hh] at hid
    rw [(verifyFileLegality_same hh s).2.1]
    split_ifs at hid
    exact hs.bounded name id hid
  · intro name v hv
    rw [verifyFileLegality_lookup hh] at hv
    split_ifs at hv with hp
    obtain ⟨r, rfl, hr⟩ := hs.records name v hv
    exact ⟨r, rfl, (recorded_verify hh s r).mpr ⟨hr, hp⟩⟩

theorem present_verify (name : Bytes)
    (hname : ((verifyFileLegality env s).hash.lookup name).isSome = true) :
    present env (verifyFileLegality env s).disk name = true := by
  rw [verifyFileLegality_lookup hh] at hname
  split_ifs at hname with hp
  · rw [present, verifyFileLegality_kept hh s name hname]
    exact hp
  · cases hname

end Verify

def Int64Range (n : ℤ) : Prop := -2^63 ≤ n ∧ n < 2^63

def Fits (r : BackupInfoNode) : Prop := Int64Range r.size ∧ Int64Range r.time

/-- What the model relies on in the JSON library: null is written as such, a
written list is read back, and no proper non-empty beginning of it is accepted. -/
structure Reads (codec : Codec) : Prop where
  null : codec.serialize .null = some (bytes "null")
  back : ∀ infos text, (∀ r ∈ infos, Fits r) → codec.serialize (metadata infos) = some text →
    text ≠ [] ∧ codec.deserialize text = some (metadata infos)
  cut : ∀ infos text part, codec.serialize (metadata infos) = some text → part <+: text →
    part ≠ text →
    part ≠ [] → codec.deserialize part = none

theorem itemInfo_fileNode (r : BackupInfoNode) (hr : Fits r) : itemInfo (fileNode r) = some r := by
  have hsize : Json.asInt64 (.int r.size) = some r.size := if_pos hr.1
  have htime : Json.asInt64 (.int r.time) = some r.time := if_pos hr.2
  have hf : (fileNode r).field (bytes "filename") = some (.string r.filename) := rfl
  have hz : (fileNode r).field (bytes "size") = some (.int r.size) := rfl
  have ht : (fileNode r).field (bytes "time") = some (.int r.time) := rfl
  rw [itemInfo, hf, hz, ht]
  simp only [Option.bind_some, Json.asString, hsize, htime, Option.map_some]

theorem asInt64_fits (j : Json) (n : ℤ) (h : j.asInt64 = some n) : Int64Range n := by
  unfold Json.asInt64 at h
  split at h
  · split_ifs at h with hn
    cases h
    exact hn
  · cases h
    constructor <;> norm_num
  · cases h

theorem itemInfo_fits (item : Json) (r : BackupInfoNode) (h : itemInfo item = some r) : Fits r := by
  obtain ⟨f, -, h⟩ := Option.bind_eq_some_iff.mp h
  obtain ⟨filename, -, h⟩ := Option.bind_eq_some_iff.mp h
  obtain ⟨z, -, h⟩ := Option.bind_eq_some_iff.mp h
  obtain ⟨size, hsize, h⟩ := Option.bind_eq_some_iff.mp h
  obtain ⟨t, -, h⟩ := Option.bind_eq_some_iff.mp h
  obtain ⟨time, htime, rfl⟩ := Option.map_eq_some_iff.mp h
  exact ⟨asInt64_fits z size hsize, asInt64_fits t time htime⟩

theorem items_metadata (infos : List BackupInfoNode) :
    (metadata infos).items = infos.map fileNode := by
  unfold metadata
  split_ifs with h
  · rw [h]
    rfl
  · rfl

theorem readBack (infos : List BackupInfoNode) (hfits : ∀ r ∈ infos, Fits r) :
    (metadata infos).items.mapM itemInfo = some infos := by
  rw [items_metadata]
  induction infos with
  | nil => rfl
  | cons r rs ih =>
    rw [List.map_cons, List.mapM_cons, itemInfo_fileNode r (hfits r List.mem_cons_self),
      ih fun i hi => hfits i (List.mem_cons_of_mem r hi)]
    rfl

end CloudBackup.Restart
