import CloudBackup.MetadataCrash

/-!
# A clean flag and the saved records

A storage pass clears `_is_dirty` when it takes its snapshot, and serialises,
truncates and writes afterwards, each step of which may fail and send the
thread back to wait. Calls on the store come in between. While the thread
waits on a clean flag the metadata file describes the valid records exactly as
long as no failed pass leaves the flag clean.
-/

set_option autoImplicit false

namespace CloudBackup.CleanFlag
open CloudBackup.ByteStrings CloudBackup.JsonCodec CloudBackup.FilePath CloudBackup.FileStore
open CloudBackup.DataManager CloudBackup.MetadataFile CloudBackup.Restart CloudBackup.StoragePass
open CloudBackup.MetadataCrash CloudBackup.RunInvariants

inductive Pass where
  | waiting
  | collected (root : List BackupInfoNode)
  | serialized (root : List BackupInfoNode) (infosStr : Bytes)
  | cleared (root : List BackupInfoNode) (infosStr : Bytes)

structure Process where
  store : Store
  pass : Pass

inductive Step where
  | register (filename : Bytes)
  | append (filename content : Bytes)
  | deregister (filename : Bytes)
  | insert (filename : Bytes) (filesize : Int64)
  | delete (filename : Bytes)
  | collect
  | serialize
  | clear
  | store

def withDisk (p : Process) (d : Disk) (pass : Pass) : Process :=
  { store := { p.store with disk := d }, pass := pass }

/-- The file of an upload is another than the metadata file; only names that are
registered and not inserted are appended to or deregistered. -/
def step (env : Env) (codec : Codec) (p : Process) : Step → Option Process
  | .register filename =>
    if targetPath env filename = metaPath env then none
    else some { p with store := (register env filename p.store).2 }
  | .append filename content =>
    if targetPath env filename = metaPath env then none
    else some (withDisk p (appendContent env (targetFile env filename) content
      p.store.disk).2 p.pass)
  | .deregister filename =>
    if targetPath env filename ≠ metaPath env ∧ p.store.hash.lookup filename = some none then
      some { p with store := (deregister env filename p.store).2 }
    else none
  | .insert filename filesize =>
    some { p with store := (DataManager.insert filename filesize.toInt p.store).2 }
  | .delete filename => some { p with store := (delete env filename p.store).2 }
  | .collect => match p.pass with
    | .waiting =>
      if p.store.isDirty then
        some { store := { p.store with isDirty := false },
               pass := .collected (getAllBackupInfo p.store) }
      else none
    | _ => none
  | .serialize => match p.pass with
    | .collected root => match codec.serialize (metadata root) with
      | none => some { p with pass := .waiting }
      | some infosStr => some { p with pass := .serialized root infosStr }
    | _ => none
  | .clear => match p.pass with
    | .serialized root infosStr =>
      let c := FileStore.clear env (metaFile env) p.store.disk
      some (withDisk p c.2 (if c.1 then .cleared root infosStr else .waiting))
    | _ => none
  | .store => match p.pass with
    | .cleared _ infosStr =>
      some (withDisk p (appendContent env (metaFile env) infosStr p.store.disk).2 .waiting)
    | _ => none

def itemsOf (codec : Codec) (content : Bytes) : Option (List BackupInfoNode) :=
  if content = [] then some []
  else (codec.deserialize content).bind fun root => root.items.mapM itemInfo

/-- The metadata file holds the valid records, in some order. -/
def Saved (env : Env) (codec : Codec) (s : Store) (d : Disk) : Prop :=
  ∃ content items, d.files.lookup (metaPath env) = some content ∧
    itemsOf codec content = some items ∧
    items.Perm (getAllBackupInfo s)

def CleanSaved (env : Env) (codec : Codec) (p : Process) : Prop :=
  p.pass = .waiting → p.store.isDirty = false → Saved env codec p.store p.store.disk

/-- Where a pass fails, or the write of it is cut short, an update has set the flag again, or the
file that the failure leaves holds the valid records. -/
def Retried (env : Env) (codec : Codec) (p : Process) : Step → Prop
  | .serialize => ∀ root, p.pass = .collected root → codec.serialize (metadata root) = none →
      p.store.isDirty = true ∨ Saved env codec p.store p.store.disk
  | .clear => ∀ root infosStr, p.pass = .serialized root infosStr →
      (FileStore.clear env (metaFile env) p.store.disk).1 = false →
      p.store.isDirty = true ∨ Saved env codec p.store p.store.disk
  | .store => ∀ root infosStr, p.pass = .cleared root infosStr →
      ¬ Lands env (metaFile env) infosStr p.store.disk →
      p.store.isDirty = true ∨ Saved env codec p.store
        (appendContent env (metaFile env) infosStr p.store.disk).2
  | _ => True

structure Wide (s : Store) : Prop where
  nodes : ∀ id, Fits (s.nodes id).info
  clock : ∀ n, Int64Range (s.clock n)

/-- The thread waits, and what a clean flag promises holds. -/
structure Start (env : Env) (codec : Codec) (p : Process) : Prop where
  waiting : p.pass = .waiting
  wide : Wide p.store
  saved : p.store.isDirty = false → Saved env codec p.store p.store.disk

def Snapshot (s : Store) (root : List BackupInfoNode) : Prop :=
  (∀ r ∈ root, Fits r) ∧ (s.isDirty = false → root = getAllBackupInfo s)

def Progress (env : Env) (codec : Codec) (p : Process) : Prop :=
  match p.pass with
  | .waiting => p.store.isDirty = false → Saved env codec p.store p.store.disk
  | .collected root => Snapshot p.store root
  | .serialized root infosStr =>
    Snapshot p.store root ∧ codec.serialize (metadata root) = some infosStr
  | .cleared root infosStr =>
    Snapshot p.store root ∧ codec.serialize (metadata root) = some infosStr ∧
      (p.store.isDirty = false → p.store.disk.files.lookup (metaPath env) = some [])

structure Inv (env : Env) (codec : Codec) (p : Process) : Prop where
  wide : Wide p.store
  progress : Progress env codec p

theorem inv_cleanSaved (env : Env) (codec : Codec) (p : Process) (h : Inv env codec p) :
    CleanSaved env codec p := by
  intro hwaiting hclean
  have hp := h.progress
  rw [Progress, hwaiting] at hp
  exact hp hclean

theorem snapshot_wide (s : Store) (h : Wide s) : ∀ r ∈ getAllBackupInfo s, Fits r := by
  intro r hr
  obtain ⟨e, -, he⟩ := List.mem_filterMap.mp hr
  obtain ⟨id, -, rfl⟩ := Option.map_eq_some_iff.mp he
  exact h.nodes id

structure Aside (env : Env) (s t : Store) : Prop where
  records : getAllBackupInfo t = getAllBackupInfo s
  isDirty : t.isDirty = s.isDirty
  nodes : t.nodes = s.nodes
  clock : t.clock = s.clock
  file : t.disk.files.lookup (metaPath env) = s.disk.files.lookup (metaPath env)

theorem inv_aside (env : Env) (codec : Codec) (p : Process) (t : Store) (h : Inv env codec p)
    (ha : Aside env p.store t) : Inv env codec { p with store := t } := by
  have hsnapshot : ∀ root, Snapshot p.store root → Snapshot t root := by
    intro root hs
    refine ⟨hs.1, fun hclean => ?_⟩
    rw [ha.records]
    exact hs.2 (ha.isDirty.symm.trans hclean)
  constructor
  · exact ⟨by rw [ha.nodes]; exact h.wide.nodes, by rw [ha.clock]; exact h.wide.clock⟩
  · have hp := h.progress
    unfold Progress at hp ⊢
    cases hpass : p.pass with
    | waiting =>
      rw [hpass] at hp
      intro hclean
      obtain ⟨content, items, hfile, hitems, hperm⟩ := hp (ha.isDirty.symm.trans hclean)
      refine ⟨content, items, ha.file.trans hfile, hitems, ?_⟩
      rw [ha.records]
      exact hperm
    | collected root =>
      rw [hpass] at hp
      exact hsnapshot root hp
    | serialized root infosStr =>
      rw [hpass] at hp
      exact ⟨hsnapshot root hp.1, hp.2⟩
    | cleared root infosStr =>
      rw [hpass] at hp
      exact ⟨hsnapshot root hp.1, hp.2.1, fun hclean =>
        ha.file.trans (hp.2.2 (ha.isDirty.symm.trans hclean))⟩

theorem inv_dirty (env : Env) (codec : Codec) (p : Process) (t : Store) (h : Inv env codec p)
    (hw : Wide t)
    (hd : t.isDirty = true) : Inv env codec { p with store := t } := by
  have hdirty : ¬ t.isDirty = false := by simp [hd]
  have hsnapshot : ∀ root, Snapshot p.store root → Snapshot t root :=
    fun root hs => ⟨hs.1, fun hclean => absurd hclean hdirty⟩
  refine ⟨hw, ?_⟩
  have hp := h.progress
  unfold Progress at hp ⊢
  cases hpass : p.pass with
  | waiting => exact fun hclean => absurd hclean hdirty
  | collected root =>
    rw [hpass] at hp
    exact hsnapshot root hp
  | serialized root infosStr =>
    rw [hpass] at hp
    exact ⟨hsnapshot root hp.1, hp.2⟩
  | cleared root infosStr =>
    rw [hpass] at hp
    exact ⟨hsnapshot root hp.1, hp.2.1, fun hclean => absurd hclean hdirty⟩

theorem records_reserve (s : Store) (filename : Bytes) (d : Disk)
    (h : s.hash.lookup filename = none) :
    getAllBackupInfo { s with hash := s.hash.insert filename none, disk := d } =
      getAllBackupInfo s := by
  have hnew : filename ∉ s.hash := AList.lookup_eq_none.mp h
  simp only [getAllBackupInfo, AList.insert_of_notMem hnew]
  rfl

theorem records_release (s : Store) (filename : Bytes) (d : Disk)
    (h : s.hash.lookup filename = some none) :
    getAllBackupInfo { s with hash := s.hash.erase filename, disk := d } = getAllBackupInfo s := by
  have herase : ∀ entries : List (Sigma fun _ : Bytes => Option NodeId),
    entries.dlookup filename = some none →
      (entries.kerase filename).filterMap (fun e => e.2.map fun id => (s.nodes id).info) =
        entries.filterMap fun e => e.2.map fun id => (s.nodes id).info := by
    intro entries hl
    induction entries with
    | nil => rfl
    | cons e es ih =>
      obtain ⟨name, v⟩ := e
      by_cases hn : name = filename
      · subst hn
        rw [List.dlookup_cons_eq] at hl
        obtain rfl := Option.some.inj hl
        have hgone : List.kerase name
          ((⟨name, none⟩ : Sigma fun _ : Bytes => Option NodeId) :: es) = es :=
          List.kerase_cons_eq rfl
        rw [hgone, List.filterMap_cons_none rfl]
      · rw [List.dlookup_cons_ne _ _ (Ne.symm hn)] at hl
        rw [List.kerase_cons_ne (Ne.symm hn), List.filterMap_cons, List.filterMap_cons, ih hl]
  exact herase s.hash.entries h

theorem aside_register (env : Env) (filename : Bytes) (s : Store)
    (happart : targetPath env filename ≠ metaPath env) :
    Aside env s (register env filename s).2 := by
  have hfile := prepareFile_onlyAt env (targetFile env filename) s.disk (metaPath env)
    (Ne.symm happart)
  by_cases hreg : registrable filename s = true
  · obtain ⟨hnone, hr⟩ := register_free env filename s hreg
    rw [hr]
    split_ifs
    · exact ⟨records_reserve s filename _ hnone, rfl, rfl, rfl, hfile⟩
    · exact ⟨rfl, rfl, rfl, rfl, hfile⟩
  · rw [register_refused env filename s (by simpa using hreg)]
    exact ⟨rfl, rfl, rfl, rfl, rfl⟩

theorem aside_deregister (env : Env) (filename : Bytes) (s : Store)
    (happart : targetPath env filename ≠ metaPath env) (h : s.hash.lookup filename = some none) :
    Aside env s (deregister env filename s).2 :=
  ⟨records_release s filename _ h, rfl, rfl, rfl,
    removeIfExists_onlyAt env (targetFile env filename) s.disk (metaPath env) (Ne.symm happart)⟩

theorem aside_append (env : Env) (filename content : Bytes) (s : Store)
    (happart : targetPath env filename ≠ metaPath env) :
    Aside env s { s with disk := (appendContent env (targetFile env filename) content s.disk).2 } :=
  ⟨rfl, rfl, rfl, rfl, appendContent_onlyAt env (targetFile env filename) content s.disk
    (metaPath env)
    (Ne.symm happart)⟩

theorem insert_wide (filename : Bytes) (filesize : Int64) (s : Store) (h : Wide s) :
    Wide (DataManager.insert filename filesize.toInt s).2 ∧
      ((DataManager.insert filename filesize.toInt s).2.isDirty = true ∨
        DataManager.insert filename filesize.toInt s = (false, s)) := by
  by_cases hres : s.hash.lookup filename = some none
  · rw [insert_reserved filename filesize.toInt s hres]
    refine ⟨⟨fun id => ?_, fun n => h.clock (n+1)⟩, Or.inl rfl⟩
    show Fits (Function.update s.nodes s.nextNode (newNode filename filesize.toInt s) id).info
    by_cases hid : id = s.nextNode
    · rw [hid, Function.update_self]
      exact ⟨⟨filesize.le_toInt, filesize.toInt_lt⟩, h.clock 0⟩
    · rw [Function.update_of_ne hid]
      exact h.nodes id
  · rw [insert_refused filename filesize.toInt s hres]
    exact ⟨h, Or.inr rfl⟩

theorem delete_wide (env : Env) (filename : Bytes) (s : Store) (h : Wide s) :
    Wide (delete env filename s).2 ∧
      ((delete env filename s).2.isDirty = true ∨ delete env filename s = (false, s)) := by
  cases hv : validNode filename s with
  | none =>
    rw [delete_refused env filename s hv]
    exact ⟨h, Or.inr rfl⟩
  | some id =>
    rw [delete, hv]
    refine ⟨⟨fun i => ?_, ?_⟩, Or.inl rfl⟩
    · show Fits ((listRemove id s).nodes i).info
      rw [(listRemove_same id s).info]
      exact h.nodes i
    · show ∀ n, Int64Range ((listRemove id s).clock n)
      unfold listRemove
      split_ifs <;> exact h.clock

theorem inv_collect (env : Env) (codec : Codec) (p : Process) (h : Inv env codec p) :
    Inv env codec { store := { p.store with isDirty := false },
                    pass := .collected (getAllBackupInfo p.store) } :=
  ⟨⟨h.wide.nodes, h.wide.clock⟩, snapshot_wide p.store h.wide, fun _ => rfl⟩

theorem clear_files (env : Env) (codec : Codec) (s : Store) (d d' : Disk) (hd : d'.files = d.files)
    (h : Saved env codec s d) : Saved env codec s d' := by
  rw [Saved, hd]
  exact h

theorem inv_clear (env : Env) (codec : Codec) (p : Process) (root : List BackupInfoNode)
    (infosStr : Bytes)
    (hpass : p.pass = .serialized root infosStr) (h : Inv env codec p)
    (hok : (FileStore.clear env (metaFile env) p.store.disk).1 = true) :
    Inv env codec (withDisk p (FileStore.clear env (metaFile env) p.store.disk).2
      (.cleared root infosStr)) := by
  have hp := h.progress
  rw [Progress, hpass] at hp
  refine ⟨⟨h.wide.nodes, h.wide.clock⟩, hp.1, hp.2, fun _ => ?_⟩
  exact clear_true env (metaFile env) p.store.disk hok

theorem inv_store (env : Env) (codec : Codec) (hcodec : Reads codec) (p : Process)
    (root : List BackupInfoNode)
    (infosStr : Bytes) (hpass : p.pass = .cleared root infosStr) (h : Inv env codec p)
    (hok : Lands env (metaFile env) infosStr p.store.disk) :
    Inv env codec
      (withDisk p (appendContent env (metaFile env) infosStr p.store.disk).2 .waiting) := by
  have hp := h.progress
  rw [Progress, hpass] at hp
  obtain ⟨⟨hfits, hroot⟩, hser, hblank⟩ := hp
  refine ⟨⟨h.wide.nodes, h.wide.clock⟩, fun hclean => ⟨infosStr, root, ?_, ?_, ?_⟩⟩
  · have hfile := lands_lookup hok
    have hempty : p.store.disk.files.lookup (cstr (metaFile env)) = some [] := hblank hclean
    rw [hempty] at hfile
    exact hfile
  · obtain ⟨hne, hback⟩ := hcodec.back root infosStr hfits hser
    rw [itemsOf, if_neg hne, hback, Option.bind_some, readBack root hfits]
  · exact List.Perm.of_eq (hroot hclean)

theorem inv_failed (env : Env) (codec : Codec) (p : Process) (d : Disk) (h : Inv env codec p)
    (hc : p.store.isDirty = true ∨ Saved env codec p.store d) :
    Inv env codec (withDisk p d .waiting) := by
  refine ⟨⟨h.wide.nodes, h.wide.clock⟩, fun hclean => ?_⟩
  have hclean : p.store.isDirty = false := hclean
  rcases hc with hd | hsaved
  · rw [hd] at hclean
    cases hclean
  · exact hsaved

theorem failed_unsaved (env : Env) (codec : Codec) (p : Process) (d : Disk)
    (hc : ¬ (p.store.isDirty = true ∨ Saved env codec p.store d)) :
    ¬ CleanSaved env codec (withDisk p d .waiting) := by
  obtain ⟨hd, hunsaved⟩ := not_or.mp hc
  intro h
  exact hunsaved (h rfl (Bool.eq_false_iff.mpr hd))

theorem inv_step (env : Env) (codec : Codec) (hcodec : Reads codec) (p : Process) (a : Step)
    (q : Process)
    (h : Inv env codec p) (hc : Retried env codec p a) (hq : step env codec p a = some q) :
    Inv env codec q := by
  cases a with
  | register filename =>
    simp only [step] at hq
    split_ifs at hq with happart
    cases hq
    exact inv_aside env codec p _ h (aside_register env filename p.store happart)
  | append filename content =>
    simp only [step] at hq
    split_ifs at hq with happart
    cases hq
    exact inv_aside env codec p _ h (aside_append env filename content p.store happart)
  | deregister filename =>
    simp only [step] at hq
    split_ifs at hq with hguard
    cases hq
    exact inv_aside env codec p _ h (aside_deregister env filename p.store hguard.1 hguard.2)
  | insert filename filesize =>
    cases hq
    obtain ⟨hwide, hdirty | hsame⟩ := insert_wide filename filesize p.store h.wide
    · exact inv_dirty env codec p _ h hwide hdirty
    · rw [hsame]
      exact h
  | delete filename =>
    cases hq
    obtain ⟨hwide, hdirty | hsame⟩ := delete_wide env filename p.store h.wide
    · exact inv_dirty env codec p _ h hwide hdirty
    · rw [hsame]
      exact h
  | collect =>
    simp only [step] at hq
    split at hq
    · split_ifs at hq
      cases hq
      exact inv_collect env codec p h
    · cases hq
  | serialize =>
    simp only [step] at hq
    split at hq
    · rename_i root hpass
      split at hq
      · rename_i hser
        cases hq
        exact inv_failed env codec p p.store.disk h (hc root hpass hser)
      · rename_i infosStr hser
        cases hq
        have hp := h.progress
        rw [Progress, hpass] at hp
        exact ⟨h.wide, hp, hser⟩
    · cases hq
  | clear =>
    simp only [step] at hq
    split at hq
    · rename_i root infosStr hpass
      cases hq
      cases hok : (FileStore.clear env (metaFile env) p.store.disk).1 with
      | true => exact inv_clear env codec p root infosStr hpass h hok
      | false =>
        apply inv_failed env codec p _ h
        apply (hc root infosStr hpass hok).imp_right
        exact clear_files env codec p.store _ _ (clear_false env (metaFile env) p.store.disk hok)
    · cases hq
  | store =>
    simp only [step] at hq
    split at hq
    · rename_i root infosStr hpass
      cases hq
      by_cases hok : Lands env (metaFile env) infosStr p.store.disk
      · exact inv_store env codec hcodec p root infosStr hpass h hok
      · exact inv_failed env codec p _ h (hc root infosStr hpass hok)
    · cases hq

theorem unretried_step (env : Env) (codec : Codec) (p : Process) (a : Step) (q : Process)
    (hc : ¬ Retried env codec p a) (hq : step env codec p a = some q) :
    ¬ CleanSaved env codec q := by
  cases a with
  | register | append | deregister | insert | delete | collect => exact absurd trivial hc
  | serialize =>
    simp only [Retried, not_forall] at hc
    obtain ⟨root, hpass, hser, hfail⟩ := hc
    simp only [step, hpass, hser] at hq
    cases hq
    exact failed_unsaved env codec p p.store.disk hfail
  | clear =>
    simp only [Retried, not_forall] at hc
    obtain ⟨root, infosStr, hpass, hok, hfail⟩ := hc
    simp only [step, hpass, hok] at hq
    cases hq
    apply failed_unsaved env codec p
    intro h
    have hfiles := clear_false env (metaFile env) p.store.disk hok
    exact hfail (h.imp_right (clear_files env codec p.store _ _ hfiles.symm))
  | store =>
    simp only [Retried, not_forall] at hc
    obtain ⟨root, infosStr, hpass, hok, hfail⟩ := hc
    simp only [step, hpass] at hq
    cases hq
    exact failed_unsaved env codec p _ hfail

theorem inv_start (env : Env) (codec : Codec) (p : Process) (h : Start env codec p) :
    Inv env codec p := by
  refine ⟨h.wide, ?_⟩
  rw [Progress, h.waiting]
  exact h.saved

theorem clean_means_saved (env : Env) (codec : Codec) (hcodec : Reads codec) (p : Process)
    (steps : List Step)
    (hstart : Start env codec p) :
    Throughout (step env codec) (CleanSaved env codec) p steps ↔
      Meets (step env codec) (Retried env codec) p steps :=
  throughout_iff_meets (inv_cleanSaved env codec) (inv_step env codec hcodec)
    (fun p a q _ => unretried_step env codec p a q) (inv_start env codec p hstart)

def firstProcess (faults : List (Option Fault)) : Process where
  store := Store.fresh (fun _ => 0)
    { files := (∅ : Table Bytes).insert (metaPath plainEnv) (bytes "null"), faults := faults }
  pass := .waiting

theorem firstProcess_start (faults : List (Option Fault)) :
    Start plainEnv helloCodec (firstProcess faults) := by
  constructor
  · rfl
  · constructor
    · intro id
      show Fits { filename := [], size := 0, time := 0 }
      constructor <;> constructor <;> decide
    · intro n
      show Int64Range 0
      constructor <;> decide
  · exact fun _ => ⟨bytes "null", [], AList.lookup_insert _, rfl, List.Perm.refl []⟩

def uploadAndPass : List Step :=
  [.register (bytes "f"), .append (bytes "f") (bytes "hello"), .insert (bytes "f") 5, .collect,
    .serialize, .clear, .store]

theorem clean_means_saved_hello :
    Throughout (step plainEnv helloCodec) (CleanSaved plainEnv helloCodec)
      (firstProcess []) uploadAndPass ↔
      Meets (step plainEnv helloCodec) (Retried plainEnv helloCodec)
        (firstProcess []) uploadAndPass :=
  clean_means_saved plainEnv helloCodec helloCodec_reads (firstProcess []) uploadAndPass
    (firstProcess_start [])

/-- The truncation fails: the thread waits on a clean flag, and the file does not
have the upload. -/
theorem failed_pass_forgotten :
    Start plainEnv helloCodec (firstProcess [none, none, some .fails]) ∧
    ∃ p, run (step plainEnv helloCodec) (firstProcess [none, none, some .fails])
        (uploadAndPass.take 6) = some p ∧
      p.store.disk.files.lookup (metaPath plainEnv) = some (bytes "null") ∧
      getAllBackupInfo p.store = [helloInfo] ∧ ¬ CleanSaved plainEnv helloCodec p := by
  let p := (run (step plainEnv helloCodec) (firstProcess [none, none, some .fails])
    (uploadAndPass.take 6)).get rfl
  have hfile : p.store.disk.files.lookup (metaPath plainEnv) = some (bytes "null") := by
    decide +kernel
  have hinfos : getAllBackupInfo p.store = [helloInfo] := by decide +kernel
  have hempty : itemsOf helloCodec (bytes "null") = some [] := rfl
  refine ⟨firstProcess_start _, p, rfl, hfile, hinfos, fun h => ?_⟩
  obtain ⟨content, items, hcontent, hitems, hperm⟩ := h rfl rfl
  rw [hfile] at hcontent
  cases hcontent
  rw [hempty] at hitems
  cases hitems
  rw [hinfos] at hperm
  cases List.nil_perm.mp hperm

end CloudBackup.CleanFlag
