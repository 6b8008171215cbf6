import CloudBackup.CleanFlag
import CloudBackup.FileOwnership
import CloudBackup.FileService
import CloudBackup.RejectedParts

/-!
# The store behind a file service

Between requests every name in the store has a record, its file holds the
content kept under the name, and the cache holds beginnings of it. Uploads,
deletions, downloads and restarts on a disk without faults take a store that
backs some files to one that backs the files of the service afterwards.
-/

set_option autoImplicit false

namespace CloudBackup.Backing
open CloudBackup.ByteStrings CloudBackup.JsonCodec CloudBackup.FilePath CloudBackup.BackupDirectory
open CloudBackup.FileStore CloudBackup.DataManager CloudBackup.UploadScanner
  CloudBackup.UploadRoundTrip
open CloudBackup.Download CloudBackup.HttpCallbacks CloudBackup.MetadataFile CloudBackup.Restart
  CloudBackup.StoragePass
open CloudBackup.CleanFlag CloudBackup.PartFates CloudBackup.NameOwnership CloudBackup.FileService

/-- A name as a client's own files have them. -/
def Ordinary (name : Bytes) : Prop := 0 ∉ name ∧ name ≠ bytes "." ∧ name ≠ bytes ".."

/-- The backup directory has no directories in it. -/
def Flat (env : Env) : Prop :=
  ∀ name, isEntry name = true → env.isDirectory (targetPath env name) = false

theorem ordinary_entry {name : Bytes} (hcheck : checkFilename name = true) (hname : Ordinary name) :
    isEntry name = true := by
  obtain ⟨hne, hslash, -⟩ := (checkFilename_iff name).mp hcheck
  exact (entry_iff name).mpr ⟨hne, hslash, hname.1, hname.2.1, hname.2.2⟩

section Deployment
variable {env : Env} (hh : Housed env)
include hh

theorem entry_apart {name other : Bytes} (hname : isEntry name = true)
    (hother : isEntry other = true)
    (hne : name ≠ other) : targetPath env name ≠ targetPath env other := by
  rw [entry_target hh name hname, entry_target hh other hother]
  exact fun h => hne (List.append_cancel_left h)

theorem entry_not_meta {name : Bytes} (hname : isEntry name = true) :
    targetPath env name ≠ metaPath env := by
  rw [entry_target hh name hname]
  exact meta_apart hh name

theorem flat_writable (hflat : Flat env) {name : Bytes} (hname : isEntry name = true) :
    writable env (targetFile env name) = true := by
  have hne : targetPath env name ≠ [] := by
    rw [entry_target hh name hname]
    have hname := ((entry_iff name).mp hname).1
    simp [hname]
  have hdir := hflat name hname
  rw [targetPath] at hne hdir
  simp [writable, hne, hdir]

end Deployment

structure Keeps (env : Env) (s : Store) (name F : Bytes) (id : NodeId) : Prop where
  accepted : checkFilename name = true
  entry : isEntry name = true
  older : id < s.nextNode
  filename : (s.nodes id).info.filename = name
  size : (s.nodes id).info.size = F.length
  file : s.disk.files.lookup (targetPath env name) = some F
  short : F.length < 2^63

structure Shelf (env : Env) (f : Files Bytes Bytes) (s : Store) : Prop where
  faults : s.disk.faults = []
  settled : ∀ name, s.hash.lookup name ≠ some none
  kept : ∀ name id, validNode name s = some id → ∃ F, f name = some F ∧ Keeps env s name F id
  absent : ∀ name, validNode name s = none → f name = none
  owned : ∀ name, isEntry name = true → (s.disk.files.lookup (targetPath env name)).isSome = true →
    (s.hash.lookup name).isSome = true

section Shelf
variable {env : Env} {f : Files Bytes Bytes} {s : Store} (hs : Shelf env f s)
include hs

theorem shelf_free (name : Bytes) : (s.hash.lookup name).isNone = (f name).isNone := by
  cases hl : s.hash.lookup name with
  | none =>
    have hv : validNode name s = none := by
      rw [validNode, hl]
      rfl
    rw [hs.absent name hv]
    rfl
  | some v =>
    cases v with
    | none => exact absurd hl (hs.settled name)
    | some id =>
      obtain ⟨F, hF, -⟩ := hs.kept name id ((validNode_iff name s id).mpr hl)
      rw [hF]
      rfl

theorem shelf_valid (name : Bytes) : (validNode name s).isSome = (f name).isSome := by
  cases hv : validNode name s with
  | none =>
    rw [hs.absent name hv]
    rfl
  | some id =>
    obtain ⟨F, hF, -⟩ := hs.kept name id hv
    rw [hF]
    rfl

end Shelf

/-- A part that a client can send, and the content of a file that fits. -/
structure Fitting (p : Part) : Prop where
  ordinary : checkFilename p.name = true → Ordinary p.name
  short : p.content.length < 2^63

theorem fitting_entry {p : Part} (hp : Fitting p) (hcheck : checkFilename p.name = true) :
    isEntry p.name = true :=
  ordinary_entry hcheck (hp.ordinary hcheck)

theorem draws_faults {k : ℕ} {d d' : Disk} (h : Draws k d d') (hd : d.faults = []) :
    d'.faults = [] := by
  rw [h, hd, List.drop_nil]

section Parts
variable {env : Env} (hh : Housed env) {f : Files Bytes Bytes} {s : Store} (hs : Shelf env f s)
include hh hs

theorem shelf_outcome {p : Part} (hp : Fitting p) {ok : Bool} {u : Store} (h : Outcome env s p ok u)
    (hf : Flat env) :
    ok = (checkFilename p.name && (f p.name).isNone) ∧
      u.disk.files.lookup (metaPath env) = s.disk.files.lookup (metaPath env) ∧
      Shelf env (if ok then Function.update f p.name (some p.content) else f) u := by
  cases h with
  | refused hname =>
    refine ⟨?_, rfl, hs⟩
    rw [← shelf_free hs, Bool.and_comm]
    exact hname.symm
  | failed _ k hname hfails _ _ _ =>
    have hcheck := (Bool.and_eq_true_iff.mp hname).2
    rw [flat_writable hh hf (fitting_entry hp hcheck)] at hfails
    obtain ⟨i, -, hfault⟩ := hfails.resolve_left Bool.true_eq_false.mp
    rw [hs.faults] at hfault
    simp at hfault
  | stored _ k hname hbeside hheld hdraws =>
    obtain ⟨hnone, hcheck⟩ := Bool.and_eq_true_iff.mp hname
    have hentry := fitting_entry hp hcheck
    have hfree : f p.name = none := by
      rw [← Option.isNone_iff_eq_none, ← shelf_free hs]
      exact hnone
    obtain ⟨hfile, id, hid, hvalid, hfilename, hsize⟩ := hheld
    refine ⟨by rw [hcheck, hfree]; rfl, hbeside.files _ (entry_not_meta hh hentry).symm, ?_⟩
    rw [if_pos rfl]
    constructor
    · exact draws_faults hdraws hs.faults
    · intro name
      by_cases hn : name = p.name
      · rw [hn, (validNode_iff p.name u id).mp hvalid]
        simp
      · rw [hbeside.entries name hn]
        exact hs.settled name
    · intro name i hi
      by_cases hn : name = p.name
      · subst hn
        obtain rfl := Option.some.inj (hvalid.symm.trans hi)
        exact ⟨p.content, Function.update_self _ _ _, hcheck, hentry, hid, hfilename, hsize,
          hfile, hp.short⟩
      · rw [validNode, hbeside.entries name hn] at hi
        obtain ⟨F, hF, hk⟩ := hs.kept name i hi
        refine ⟨F, by rw [Function.update_of_ne hn, hF], hk.accepted, hk.entry,
          hk.older.trans_le hbeside.next, ?_, ?_, ?_, hk.short⟩
        · rw [hbeside.nodes i hk.older, hk.filename]
        · rw [hbeside.nodes i hk.older, hk.size]
        · rw [hbeside.files _ (entry_apart hh hk.entry hentry hn), hk.file]
    · intro name hn
      have hne : name ≠ p.name := by
        rintro rfl
        rw [hvalid] at hn
        cases hn
      rw [Function.update_of_ne hne]
      apply hs.absent
      rwa [validNode, hbeside.entries name hne] at hn
    · intro name hin hthere
      by_cases hn : name = p.name
      · rw [hn, (validNode_iff p.name u id).mp hvalid]
        rfl
      · rw [hbeside.files _ (entry_apart hh hin hentry hn)] at hthere
        rw [hbeside.entries name hn]
        exact hs.owned name hin hthere

end Parts

def pairs (ps : List Part) : List (Bytes × Bytes) := ps.map fun p => (p.name, p.content)

theorem shelf_handled {env : Env} (hh : Housed env) (hflat : Flat env) {ps : List Part}
    (hps : ∀ p ∈ ps, Fitting p)
    {s t : Store} {o : List (Part × Bool)} (h : Handled env ps s o t) {f : Files Bytes Bytes}
    (hs : Shelf env f s) :
    t.disk.files.lookup (metaPath env) = s.disk.files.lookup (metaPath env) ∧
      successes o = (storeAll checkFilename (pairs ps) f).1.1 ∧
        failures o = (storeAll checkFilename (pairs ps) f).1.2 ∧
      Shelf env (storeAll checkFilename (pairs ps) f).2 t := by
  induction h generalizing f with
  | nil s => exact ⟨rfl, rfl, rfl, hs⟩
  | cons p ps s u t ok o hp _ ih =>
    obtain ⟨hok, hmeta, hu⟩ := shelf_outcome hh hs (hps p List.mem_cons_self) hp hflat
    have hrest := ih (fun q hq => hps q (List.mem_cons_of_mem p hq)) hu
    rw [pairs, List.map_cons, ← pairs]
    cases ok with
    | true =>
      rw [if_pos rfl] at hrest
      rw [storeAll_take hok.symm]
      exact ⟨hrest.1.trans hmeta, congrArg (p.name :: ·) hrest.2.1, hrest.2.2.1, hrest.2.2.2⟩
    | false =>
      rw [if_neg Bool.false_ne_true] at hrest
      rw [storeAll_refuse hok.symm]
      exact ⟨hrest.1.trans hmeta, hrest.2.1, congrArg (p.name :: ·) hrest.2.2.1, hrest.2.2.2⟩

structure Timed (s : Store) : Prop where
  nodes : ∀ id, Int64Range (s.nodes id).info.time
  clock : ∀ n, Int64Range (s.clock n)

structure Marked (s t : Store) : Prop where
  list : t.list = s.list
  timed : Timed s → Timed t
  flag : t.isDirty = false → s.isDirty = false ∧ getAllBackupInfo t = getAllBackupInfo s

theorem marked_refl (s : Store) : Marked s s := ⟨rfl, id, fun h => ⟨h, rfl⟩⟩

theorem marked_trans {s t u : Store} (h : Marked s t) (k : Marked t u) : Marked s u := by
  constructor
  · exact k.list.trans h.list
  · exact fun hs => k.timed (h.timed hs)
  · intro hu
    obtain ⟨ht, hkt⟩ := k.flag hu
    exact ⟨(h.flag ht).1, hkt.trans (h.flag ht).2⟩

theorem marked_disk (s : Store) (d : Disk) : Marked s { s with disk := d } :=
  ⟨rfl, fun h => ⟨h.nodes, h.clock⟩, fun h => ⟨h, rfl⟩⟩

theorem marked_register (env : Env) (filename : Bytes) (s : Store) :
    Marked s (register env filename s).2 := by
  by_cases hreg : registrable filename s = true
  · obtain ⟨hnone, hr⟩ := register_free env filename s hreg
    rw [hr]
    split_ifs
    · exact ⟨rfl, fun h => ⟨h.nodes, h.clock⟩, fun h => ⟨h, records_reserve s filename _ hnone⟩⟩
    · exact marked_disk s _
  · rw [register_refused env filename s (by simpa using hreg)]
    exact marked_refl s

theorem marked_deregister (env : Env) (filename : Bytes) (s : Store)
    (h : s.hash.lookup filename = some none) :
    Marked s (deregister env filename s).2 :=
  ⟨rfl, fun ht => ⟨ht.nodes, ht.clock⟩, fun hd => ⟨hd, records_release s filename _ h⟩⟩

theorem marked_insert (filename : Bytes) (filesize : ℤ) (s : Store) :
    Marked s (DataManager.insert filename filesize s).2 := by
  by_cases hres : s.hash.lookup filename = some none
  · rw [insert_reserved filename filesize s hres]
    refine ⟨rfl, fun h => ⟨fun id => ?_, fun n => h.clock (n+1)⟩, fun h => absurd h (by simp)⟩
    show Int64Range (Function.update s.nodes s.nextNode (newNode filename filesize s) id).info.time
    by_cases hid : id = s.nextNode
    · rw [hid, Function.update_self]
      exact h.clock 0
    · rw [Function.update_of_ne hid]
      exact h.nodes id
  · rw [insert_refused filename filesize s hres]
    exact marked_refl s

theorem effect_marked (env : Env) (h : HeadInfo) (s : Store) (h' : HeadInfo) (s' : Store)
    (hown : mine h ⊆ reserved s) (he : Effect env h s h' s') : Marked s s' := by
  cases he with
  | skips body hcur => exact marked_refl s
  | opens body filename hcur =>
    unfold openUpload
    dsimp only
    split_ifs
    · exact marked_refl s
    · exact marked_register env filename s
    · exact marked_register env filename s
  | fails body content hcur =>
    have hres : s.hash.lookup h.curUploadFile = some none := hown ⟨rfl, hcur⟩
    exact marked_trans (marked_disk s _) (marked_deregister env h.curUploadFile _ hres)
  | waits body disk hcur hd => exact marked_disk s disk
  | finishes body disk hcur hd =>
    have hsize := marked_disk { s with disk := disk }
      (getFileSize (targetFile env h.curUploadFile) disk).2
    exact marked_trans (marked_trans (marked_disk s disk) hsize) (marked_insert _ _ _)

theorem onBody_marked (env : Env) (data : Bytes) (h : HeadInfo) (s : Store) (r : HeadInfo × Store)
    (hown : mine h ⊆ reserved s) (hr : onBody env data h s = some r) :
    mine r.1 ⊆ reserved r.2 ∧ Marked s r.2 := by
  let I := fun g t => mine g ⊆ reserved t ∧ Marked s t
  have hkeep : ∀ g t g' t', I g t → Effect env g t g' t' → I g' t' := fun g t g' t' hi he =>
    ⟨Ownership.exchange_sub (effect_exchange env g t g' t' hi.1 he),
      marked_trans hi.2 (effect_marked env g t g' t' hi.1 he)⟩
  unfold onBody at hr
  split_ifs at hr
  · cases hr
    exact ⟨hown, marked_refl s⟩
  · obtain ⟨q, hq, rfl⟩ := Option.map_eq_some_iff.mp hr
    have hloop : I q.2.1 q.2.2 :=
      uploadLoop_keeps hkeep _ (setBody h (h.requestBody ++ data)) s ⟨hown, marked_refl s⟩ q hq
    split_ifs
    · exact hloop
    · exact hloop
  · cases hr
    exact ⟨hown, marked_refl s⟩

theorem onBodies_marked (env : Env) (chunks : List Bytes) (h : HeadInfo) (s : Store)
    (r : HeadInfo × Store)
    (hown : mine h ⊆ reserved s) (hr : onBodies env chunks h s = some r) : Marked s r.2 := by
  induction chunks generalizing h s with
  | nil =>
    cases hr
    exact marked_refl s
  | cons data rest ih =>
    obtain ⟨q, hq, hrest⟩ := Option.bind_eq_some_iff.mp hr
    obtain ⟨hmine, hmarked⟩ := onBody_marked env data h s q hown hq
    exact marked_trans hmarked (ih q.1 q.2 hmine hrest)

/-- A cached beginning is one of the content kept under the name of its record. -/
def Fronts (f : Files Bytes Bytes) (s : Store) (id : NodeId) (content : Bytes) : Prop :=
  ∀ name F, validNode name s = some id → f name = some F → content <+: F

/-- The metadata file is a text of the records, in some order, that is read to its end. -/
def Written (env : Env) (codec : Codec) (s : Store) : Prop := ∃ infos text,
  codec.serialize (metadata infos) = some text ∧ s.disk.files.lookup (metaPath env) = some text ∧
    text.length ≤ maxContent ∧ infos.Perm (getAllBackupInfo s)

structure Backs (env : Env) (codec : Codec) (f : Files Bytes Bytes) (s : Store) : Prop where
  shelf : Shelf env f s
  linked : Linked s
  cached : CacheHolds (Fronts f s) s
  timed : Timed s
  file : ∃ text, s.disk.files.lookup (metaPath env) = some text
  saved : s.isDirty = false → Written env codec s

theorem linked_older {env : Env} {f : Files Bytes Bytes} {s : Store} (hs : Shelf env f s)
    (hl : Linked s) {id : NodeId}
    (hid : id ∈ s.list) : ∃ name F, validNode name s = some id ∧ f name = some F ∧
      Keeps env s name F id := by
  obtain ⟨F, hF, hk⟩ := hs.kept _ id (hl.valid id hid)
  exact ⟨_, F, hl.valid id hid, hF, hk⟩

theorem shelf_stored {env : Env} (hh : Housed env) {f : Files Bytes Bytes} {s : Store}
    (hs : Shelf env f s)
    (ht : Timed s) : Stored env s := by
  have hvalid : ∀ name id, s.hash.lookup name = some (some id) → ∃ F, f name = some F ∧
    Keeps env s name F id :=
    fun name id hid => hs.kept name id ((validNode_iff name s id).mpr hid)
  constructor
  · intro name id hid
    obtain ⟨F, -, hk⟩ := hvalid name id hid
    exact hk.older
  · intro name id hid
    obtain ⟨F, -, hk⟩ := hvalid name id hid
    refine ⟨hk.filename, ?_, ht.nodes id⟩
    rw [hk.size]
    have hshort := hk.short
    constructor <;> omega
  · intro name hin
    obtain ⟨v, hv⟩ := Option.isSome_iff_exists.mp hin
    cases v with
    | none => exact absurd hv (hs.settled name)
    | some id =>
      obtain ⟨F, -, hk⟩ := hvalid name id hv
      exact (present_iff hh s.disk name).mpr ⟨hk.entry, by rw [hk.file]; rfl⟩
  · exact ht.clock

theorem written_same {env : Env} {codec : Codec} {s t : Store} (hm : Marked s t)
    (hfile : t.disk.files.lookup (metaPath env) = s.disk.files.lookup (metaPath env))
    (h : s.isDirty = false → Written env codec s) : t.isDirty = false → Written env codec t := by
  intro hclean
  obtain ⟨hs, hrecords⟩ := hm.flag hclean
  obtain ⟨infos, text, hser, htext, hlen, hperm⟩ := h hs
  exact ⟨infos, text, hser, hfile.trans htext, hlen, by rw [hrecords]; exact hperm⟩

theorem handled_older {env : Env} {ps : List Part} {s t : Store} {o : List (Part × Bool)}
    (h : Handled env ps s o t) :
    s.nextNode ≤ t.nextNode ∧ (∀ id, id < s.nextNode → t.nodes id = s.nodes id) ∧
      ∀ name, (s.hash.lookup name).isSome = true → t.hash.lookup name = s.hash.lookup name := by
  induction h with
  | nil s => exact ⟨le_rfl, fun _ _ => rfl, fun _ _ => rfl⟩
  | cons p ps s u t ok o hp _ ih =>
    obtain ⟨hnext, hnodes, hentries⟩ := ih
    have hbeside := outcome_beside hp
    have hin : ∀ name, (s.hash.lookup name).isSome = true →
      u.hash.lookup name = s.hash.lookup name := by
      intro name hname
      by_cases hn : name = p.name
      · have hrefused : registrable p.name s = false := by
          rw [registrable, ← hn]
          simp [Option.isNone_eq_false_iff.mpr hname]
        cases hp with
        | refused _ => rfl
        | failed _ _ hreg | stored _ _ hreg => exact absurd (hreg.symm.trans hrefused) (by decide)
      · exact hbeside.entries name hn
    refine ⟨hbeside.next.trans hnext, ?_, ?_⟩
    · intro id hid
      rw [hnodes id (hid.trans_le hbeside.next), hbeside.nodes id hid]
    · intro name hname
      have hu := hin name hname
      rw [hentries name (by rw [hu]; exact hname), hu]

section Upload
variable {env : Env} (hh : Housed env) (hflat : Flat env) {codec : Codec}
  {f : Files Bytes Bytes} {s : Store}
  (hs : Backs env codec f s)
include hh hflat hs

theorem backs_handled {ps : List Part} (hps : ∀ p ∈ ps, Fitting p) {t : Store}
    {o : List (Part × Bool)}
    (h : Handled env ps s o t) (hm : Marked s t) :
    successes o = (storeAll checkFilename (pairs ps) f).1.1 ∧
      failures o = (storeAll checkFilename (pairs ps) f).1.2 ∧
      Backs env codec (storeAll checkFilename (pairs ps) f).2 t := by
  obtain ⟨hmeta, hsucc, hfail, hshelf⟩ := shelf_handled hh hflat hps h hs.shelf
  refine ⟨hsucc, hfail, ?_⟩
  obtain ⟨-, hnodes, hentries⟩ := handled_older h
  have holder : ∀ id ∈ s.list, ∃ name F, validNode name t = some id ∧ t.nodes id = s.nodes id ∧
      f name = some F ∧ (s.nodes id).info.filename = name ∧ validNode name s = some id := by
    intro id hid
    obtain ⟨name, F, hv, hF, hk⟩ := linked_older hs.shelf hs.linked hid
    have hin : (s.hash.lookup name).isSome = true := by
      rw [(validNode_iff name s id).mp hv]
      rfl
    refine ⟨name, F, ?_, hnodes id hk.older, hF, hk.filename, hv⟩
    rw [validNode, hentries name hin]
    exact hv
  constructor
  · exact hshelf
  · refine ⟨by rw [hm.list]; exact hs.linked.nodup, fun id hid => ?_⟩
    rw [hm.list] at hid
    obtain ⟨name, F, hv, hnode, -, hname, -⟩ := holder id hid
    rw [hnode, hname]
    exact hv
  · intro id hid name F hv hF
    rw [hm.list] at hid
    obtain ⟨other, G, -, hnode, hG, hname, hold⟩ := holder id hid
    obtain ⟨F', hF', hk⟩ := hshelf.kept name id hv
    obtain rfl : other = name := by rw [← hname, ← hnode, hk.filename]
    rw [storeAll_keeps (pairs ps) hG] at hF
    rw [hnode]
    exact hs.cached id hid other F hold (hG.trans hF)
  · exact hm.timed hs.timed
  · rw [hmeta]
    exact hs.file
  · exact written_same hm hmeta hs.saved

end Upload

structure Quiet (s t : Store) : Prop where
  same : SameRecords s t
  clock : t.clock = s.clock
  isDirty : t.isDirty = s.isDirty

theorem quiet_refl (s : Store) : Quiet s s := ⟨SameRecords.refl s, rfl, rfl⟩

theorem listRemove_quiet (id : NodeId) (s : Store) : Quiet s (listRemove id s) := by
  refine ⟨listRemove_same id s, ?_, ?_⟩ <;> (unfold listRemove; split_ifs <;> rfl)

theorem removeTail_quiet (s : Store) : Quiet s (removeTail s) := by
  unfold removeTail
  split
  · exact quiet_refl s
  · exact listRemove_quiet _ s

theorem pushToHead_quiet (env : Env) (id : NodeId) (content : Bytes) (s : Store) :
    Quiet s (pushToHead env id content s) := by
  refine ⟨pushToHead_same env id content s, ?_, ?_⟩
  · unfold pushToHead
    dsimp only
    split_ifs
    · exact (removeTail_quiet _).clock.trans rfl
    · rfl
  · unfold pushToHead
    dsimp only
    split_ifs
    · exact (removeTail_quiet _).isDirty.trans rfl
    · rfl

theorem getFilePreContent_quiet (filename : Bytes) (s : Store) :
    Quiet s (getFilePreContent filename s).2 := by
  refine ⟨getFilePreContent_same filename s, ?_, ?_⟩ <;>
    (unfold getFilePreContent; split <;> [rfl; (split_ifs <;> rfl)])

theorem putFilePreContent_quiet (env : Env) (filename content : Bytes) (s : Store) :
    Quiet s (putFilePreContent env filename content s).2 := by
  unfold putFilePreContent
  split
  · exact quiet_refl s
  · split_ifs
    · exact ⟨moveToHead_same _ s, rfl, rfl⟩
    · exact pushToHead_quiet env _ _ s

theorem getContent_disk {d : Disk} (hd : d.faults = []) (path : Bytes) (pos len : ℕ) :
    (getContent path pos len d).2 = d := by
  unfold getContent
  rw [next_of_clean d hd]
  split <;> rfl

section Quiet
variable {env : Env} {codec : Codec} {f : Files Bytes Bytes} {s : Store} (hs : Backs env codec f s)
include hs

theorem shelf_same {t : Store} (h : SameRecords s t) : Shelf env f t := by
  have hv : ∀ name, validNode name t = validNode name s :=
    fun name => by rw [validNode, h.hash, validNode]
  constructor
  · rw [h.disk]
    exact hs.shelf.faults
  · rw [h.hash]
    exact hs.shelf.settled
  · intro name id hid
    rw [hv] at hid
    obtain ⟨F, hF, hk⟩ := hs.shelf.kept name id hid
    refine ⟨F, hF, hk.accepted, hk.entry, ?_, ?_, ?_, ?_, hk.short⟩
    · rw [h.next]
      exact hk.older
    · rw [h.info, hk.filename]
    · rw [h.info, hk.size]
    · rw [h.disk, hk.file]
  · intro name hid
    rw [hv] at hid
    exact hs.shelf.absent name hid
  · rw [h.disk, h.hash]
    exact hs.shelf.owned

theorem backs_quiet {t : Store} (h : Quiet s t) (hl : Linked t) (hc : CacheHolds (Fronts f s) t) :
    Backs env codec f t := by
  have hfronts : Fronts f t = Fronts f s := by
    funext id content
    simp only [Fronts, validNode, h.same.hash]
  have hrecords : getAllBackupInfo t = getAllBackupInfo s := by
    simp only [getAllBackupInfo, h.same.hash, h.same.info]
  constructor
  · exact shelf_same hs h.same
  · exact hl
  · rw [hfronts]
    exact hc
  · refine ⟨fun id => ?_, ?_⟩
    · rw [h.same.info]
      exact hs.timed.nodes id
    · rw [h.clock]
      exact hs.timed.clock
  · rw [h.same.disk]
    exact hs.file
  · intro hclean
    rw [h.isDirty] at hclean
    obtain ⟨infos, text, hser, htext, hlen, hperm⟩ := hs.saved hclean
    exact ⟨infos, text, hser, by rw [h.same.disk]; exact htext, hlen, by rw [hrecords]; exact hperm⟩

theorem backs_lookupPrefix (startPos : ℤ) (filename : Bytes) :
    Backs env codec f (lookupPrefix startPos filename s).2 := by
  apply backs_quiet hs
  · unfold lookupPrefix
    split_ifs
    · exact getFilePreContent_quiet filename s
    · exact quiet_refl s
  · exact linked_lookupPrefix hs.linked startPos filename
  · exact cacheHolds_lookupPrefix hs.cached startPos filename

theorem readSegment_store (filename : Bytes) (startPos endPos : ℤ) :
    (readSegment env filename startPos endPos s).2 = s := by
  rw [readSegment, getContent_disk hs.shelf.faults]

theorem backs_keepPrefix (startPos endPos : ℤ) (filename content : Bytes)
    (hread : (readSegment env filename startPos endPos s).1 = some content) :
    Backs env codec f (keepPrefix env startPos filename content s).2 := by
  have hname : ∀ id, validNode filename s = some id → (s.nodes id).info.filename = filename := by
    intro id hid
    obtain ⟨F, -, hk⟩ := hs.shelf.kept filename id hid
    exact hk.filename
  unfold keepPrefix
  split_ifs with hstart
  · apply backs_quiet hs
    · exact putFilePreContent_quiet env filename content s
    · exact linked_putFilePreContent hs.linked env filename content hname
    · apply cacheHolds_putFilePreContent hs.cached (fun _ _ _ _ _ => List.nil_prefix)
      intro id hid _ name F hv hF
      obtain ⟨G, hG, hk⟩ := hs.shelf.kept filename id hid
      obtain rfl : name = filename := by
        obtain ⟨H, -, hk'⟩ := hs.shelf.kept name id hv
        rw [← hk'.filename, hk.filename]
      obtain rfl := Option.some.inj (hG.symm.trans hF)
      obtain ⟨H, hH, hpre⟩ := getContent_some _ _ _ _ _ hread
      have hsame : H = G := Option.some.inj (hH.symm.trans hk.file)
      rw [hstart, hsame] at hpre
      exact (keptPrefix_front env content).trans hpre
  · exact hs

theorem backs_sendFile (task : SendTask) :
    Backs env codec f (FileOwnership.storeAfter (sendFile env task s)) := by
  have hl := backs_lookupPrefix hs task.startPos (s.nodes task.node).info.filename
  unfold sendFile
  split_ifs
  · exact hs
  · dsimp only
    split_ifs
    · exact hl
    · have hsame := readSegment_store hl (s.nodes task.node).info.filename task.startPos task.endPos
      split
      · rw [hsame]
        exact hl
      · rename_i content hread
        have hk := backs_keepPrefix hl task.startPos task.endPos _ content hread
        rw [hsame]
        split_ifs
        · exact hk
        · exact hk

theorem backs_sendChain (n : ℕ) (task : SendTask) (r : List Bytes × Store)
    (hr : sendChain env n task s = some r) :
    Backs env codec f r.2 := by
  induction n generalizing task s r with
  | zero => cases hr
  | succ n ih =>
    have hsent := backs_sendFile hs task
    rw [sendChain] at hr
    cases hsend : sendFile env task s with
    | closes t =>
      rw [hsend] at hr
      cases hr
    | skips t =>
      rw [hsend] at hr hsent
      cases hr
      exact hsent
    | sends content startPos t =>
      rw [hsend] at hr hsent
      dsimp only at hr
      split_ifs at hr
      · obtain ⟨q, hq, rfl⟩ := Option.map_eq_some_iff.mp hr
        exact ih hsent _ q hq
      · cases hr
        exact hsent

end Quiet

section Delete
variable {env : Env} (hh : Housed env) (hflat : Flat env) {codec : Codec}
  {f : Files Bytes Bytes} {s : Store}
  (hs : Backs env codec f s)
include hh hflat hs

omit hs in
theorem remove_kept {name F : Bytes} {id : NodeId} (hk : Keeps env s name F id) :
    removeIfExists env (targetFile env name) s.disk =
      (true, { s.disk with files := s.disk.files.erase (targetPath env name) }) := by
  have hw := flat_writable hh hflat hk.entry
  have hfile := hk.file
  rw [targetPath] at hfile
  have hexists : fileExists env (targetFile env name) s.disk = true := by
    simp [fileExists, writable_ne_nil hw, hfile]
  have hdir : env.isDirectory (cstr (targetFile env name)) = false := hflat name hk.entry
  rw [removeIfExists, if_pos hexists, removeRegularFile_done env _ hexists hdir, targetPath]

omit hflat in
theorem shelf_delete {name F : Bytes} {id : NodeId} (hk : Keeps env s name F id) {t : Store}
    (hhash : t.hash = s.hash.erase name) (hinfo : ∀ i, (t.nodes i).info = (s.nodes i).info)
    (hnext : t.nextNode = s.nextNode)
    (hdisk : t.disk = { s.disk with files := s.disk.files.erase (targetPath env name) }) :
    Shelf env (Function.update f name none) t := by
  have hother : ∀ other, other ≠ name → t.hash.lookup other = s.hash.lookup other := by
    intro other hne
    rw [hhash, AList.lookup_erase_ne hne]
  have hgone : t.hash.lookup name = none := by
    rw [hhash, AList.lookup_erase]
  have hfile : ∀ path, path ≠ targetPath env name →
    t.disk.files.lookup path = s.disk.files.lookup path := by
    intro path hne
    rw [hdisk]
    exact AList.lookup_erase_ne hne
  constructor
  · rw [hdisk]
    exact hs.shelf.faults
  · intro other
    by_cases hne : other = name
    · rw [hne, hgone]
      simp
    · rw [hother other hne]
      exact hs.shelf.settled other
  · intro other i hi
    have hne : other ≠ name := by
      rintro rfl
      rw [validNode, hgone] at hi
      cases hi
    rw [validNode, hother other hne] at hi
    obtain ⟨G, hG, hk'⟩ := hs.shelf.kept other i hi
    refine ⟨G, by rw [Function.update_of_ne hne, hG], hk'.accepted, hk'.entry, ?_, ?_, ?_,
      ?_, hk'.short⟩
    · rw [hnext]
      exact hk'.older
    · rw [hinfo, hk'.filename]
    · rw [hinfo, hk'.size]
    · rw [hfile _ (entry_apart hh hk'.entry hk.entry hne), hk'.file]
  · intro other hnone
    by_cases hne : other = name
    · rw [hne, Function.update_self]
    · rw [Function.update_of_ne hne]
      apply hs.shelf.absent
      rwa [validNode, hother other hne] at hnone
  · intro other hentry hthere
    by_cases hne : other = name
    · rw [hdisk, hne] at hthere
      simp at hthere
    · rw [hother other hne]
      rw [hfile _ (entry_apart hh hentry hk.entry hne)] at hthere
      exact hs.shelf.owned other hentry hthere

/-- A name in use is deleted with its file; there is nothing else to delete. -/
theorem backs_delete (name : Bytes) : (delete env name s).1 = (f name).isSome ∧
    Backs env codec (Function.update f name none) (delete env name s).2 := by
  cases hv : validNode name s with
  | none =>
    have hnone := hs.shelf.absent name hv
    rw [delete_refused env name s hv, hnone, Function.update_eq_self_iff.mpr hnone.symm]
    exact ⟨rfl, hs⟩
  | some id =>
    obtain ⟨F, hF, hk⟩ := hs.shelf.kept name id hv
    have hquiet := listRemove_quiet id s
    have hremove := remove_kept hh hflat hk
    have hdelete : delete env name s = (true, { listRemove id s with
        hash := s.hash.erase name
        isDirty := true
        disk := { s.disk with files := s.disk.files.erase (targetPath env name) } }) := by
      rw [delete, hv]
      dsimp only
      rw [hquiet.same.disk, hquiet.same.hash, hremove]
    rw [hdelete, hF]
    refine ⟨rfl, ?_⟩
    have hlinked := linked_listRemove hs.linked id
    have hcached := cacheHolds_listRemove hs.cached (fun _ _ _ _ _ => List.nil_prefix) id
    -- What stays linked belongs to another name.
    have hstays : ∀ i ∈ (listRemove id s).list, (s.nodes i).info.filename ≠ name ∧
        validNode (s.nodes i).info.filename s = some i := by
      intro i hi
      rw [listRemove_list] at hi
      have hvalid := hs.linked.valid i (List.mem_of_mem_erase hi)
      refine ⟨fun hname => ?_, hvalid⟩
      rw [hname, hv] at hvalid
      obtain rfl := Option.some.inj hvalid
      exact hs.linked.nodup.not_mem_erase hi
    constructor
    · exact shelf_delete hh hs hk rfl hquiet.same.info hquiet.same.next rfl
    · refine ⟨hlinked.nodup, fun i hi => ?_⟩
      obtain ⟨hne, hvalid⟩ := hstays i hi
      show validNode ((listRemove id s).nodes i).info.filename _ = some i
      rw [hquiet.same.info, validNode, AList.lookup_erase_ne hne]
      exact hvalid
    · intro i hi other G hother hG
      have hne : other ≠ name := by
        rintro rfl
        rw [Function.update_self] at hG
        cases hG
      rw [Function.update_of_ne hne] at hG
      exact hcached i hi other G (validNode_erase s _ name other i rfl hother) hG
    · refine ⟨fun i => ?_, ?_⟩
      · show Int64Range ((listRemove id s).nodes i).info.time
        rw [hquiet.same.info]
        exact hs.timed.nodes i
      · show ∀ n, Int64Range ((listRemove id s).clock n)
        rw [hquiet.clock]
        exact hs.timed.clock
    · obtain ⟨text, htext⟩ := hs.file
      exact ⟨text, (AList.lookup_erase_ne (entry_not_meta hh hk.entry).symm).trans htext⟩
    · intro hclean
      cases hclean

end Delete

end CloudBackup.Backing
