import CloudBackup.CleanFlag
import CloudBackup.NameIsolation
import CloudBackup.NameRelease

/-!
# Where the server writes

Whatever bytes any connections send, requests change only files right below
the backup directory, and the storage thread and the start of the program the
metadata file besides: on a disk that fails as it likes, and with restarts at
any point. Names with a NUL are cut by the operating system, which may leave
the directory itself, and this it does not write.
-/

set_option autoImplicit false

namespace CloudBackup.Confinement
open CloudBackup.PatternSearch CloudBackup.ByteStrings CloudBackup.JsonCodec CloudBackup.FilePath
  CloudBackup.FileStore
open CloudBackup.DataManager CloudBackup.MetadataFile CloudBackup.Restart CloudBackup.StoragePass
open CloudBackup.UploadScanner CloudBackup.Download CloudBackup.HttpCallbacks
  CloudBackup.NameIsolation
open CloudBackup.NameOwnership CloudBackup.FileOwnership CloudBackup.NameRelease
  CloudBackup.RunInvariants

/-- Requests, the steps of storage passes, and a stop at any point with the next start. -/
inductive Event where
  | request (e : NameRelease.Event)
  | pass (a : CleanFlag.Step)
  | restart (clock : ℕ → ℤ)

/-- A start that fails ends the program. -/
structure Process where
  server : Server
  pass : CleanFlag.Pass
  running : Bool

def isPass : CleanFlag.Step → Bool
  | .collect => true
  | .serialize => true
  | .clear => true
  | .store => true
  | _ => false

def step (env : Env) (codec : Codec) (p : Process) : Event → Option Process
  | .request e =>
    if p.running then (NameRelease.step env codec p.server e).map fun srv =>
      { p with server := srv } else none
  | .pass a =>
    if p.running && isPass a then
      (CleanFlag.step env codec { store := p.server.store, pass := p.pass } a).map fun q =>
        { p with server := { p.server with store := q.store }, pass := q.pass }
    else none
  | .restart clock =>
    let r := construct env codec clock p.server.store.disk
    some { server := { store := r.2, connections := fun _ => none }, pass := .waiting,
           running := r.1 }

def disk (p : Process) : Disk := p.server.store.disk

def Inside (env : Env) (path : Bytes) : Prop :=
  ∃ name, isEntry name = true ∧ path = withSlash (backupDir env) ++ name

/-- What the operating system says of the directory and its two dots. -/
structure Rooted (env : Env) : Prop where
  dots : env.isDirectory (targetPath env (bytes ".")) = true ∧
    env.isDirectory (targetPath env (bytes "..")) = true
  parts : ∀ part ∈ [[], bytes ".", bytes ".."], env.isDirectory (targetPrefix env ++ part) = true

def Accepted (name : Bytes) : Prop := checkFilename name = true ∨ isEntry name = true

structure Orderly (srv : Server) : Prop where
  names : ∀ name, (srv.store.hash.lookup name).isSome = true → Accepted name
  uploads : ∀ c h, srv.connections c = some h → ∀ name ∈ mine h, Accepted name

def Spared (P : Bytes → Prop) (d e : Disk) : Prop :=
  ∀ path, ¬ P path → e.files.lookup path = d.files.lookup path

section Spared
variable {P Q : Bytes → Prop} {d e f : Disk}

theorem spared_same (h : e.files = d.files) : Spared P d e := fun _ _ => by rw [h]

theorem spared_trans (h : Spared P d e) (k : Spared P e f) : Spared P d f :=
  fun path hp => (k path hp).trans (h path hp)

theorem spared_mono (hPQ : ∀ path, P path → Q path) (h : Spared P d e) : Spared Q d e :=
  fun path hp => h path fun hP => hp (hPQ path hP)

theorem spared_onlyAt {path : Bytes} (hP : P path) (h : OnlyAt path d e) : Spared P d e :=
  fun q hq => h q fun he => hq (he ▸ hP)

end Spared

structure Confines (env : Env) (s t : Store) : Prop where
  files : Spared (Inside env) s.disk t.disk
  names : ∀ name, (t.hash.lookup name).isSome = true → (s.hash.lookup name).isSome = true ∨
    Accepted name

theorem confines_same (env : Env) {s t : Store} (hfiles : t.disk.files = s.disk.files)
    (hhash : t.hash = s.hash) :
    Confines env s t :=
  ⟨spared_same hfiles, fun name hn => Or.inl (by rwa [hhash] at hn)⟩

theorem confines_trans {env : Env} {s t u : Store} (h : Confines env s t) (k : Confines env t u) :
    Confines env s u :=
  ⟨spared_trans h.files k.files, fun name hn => (k.names name hn).elim (h.names name) Or.inr⟩

section Names
variable {env : Env} (hh : Housed env) (hr : Rooted env)
include hh hr

theorem accepted_path {name : Bytes} (hname : Accepted name) :
    Inside env (targetPath env name) ∨ env.isDirectory (targetPath env name) = true := by
  rcases hname with hcheck | hentry
  · by_cases hdot : name = bytes "."
    · rw [hdot]
      exact Or.inr hr.dots.1
    · by_cases hdots : name = bytes ".."
      · rw [hdots]
        exact Or.inr hr.dots.2
      · rw [targetPath_cstr hh.deployed hcheck hdot hdots]
        by_cases hentry : isEntry (cstr name) = true
        · exact Or.inl ⟨cstr name, hentry, by rw [targetPrefix_dir hh]⟩
        · refine Or.inr (hr.parts _ ?_)
          obtain ⟨-, hslash, -⟩ := (checkFilename_iff name).mp hcheck
          have hclean : slash ∉ cstr name ∧ (0 : UInt8) ∉ cstr name := by
            refine ⟨fun hin => hslash ((List.takeWhile_prefix _).subset hin), fun hin => ?_⟩
            simpa using List.mem_takeWhile_imp hin
          rw [entry_iff] at hentry
          by_contra hpart
          simp only [List.mem_cons, List.not_mem_nil, or_false, not_or] at hpart
          exact hentry ⟨hpart.1, hclean.1, hclean.2, hpart.2.1, hpart.2.2⟩
  · exact Or.inl ⟨name, hentry, entry_target hh name hentry⟩

theorem confines_apply {name : Bytes} (hname : Accepted name) (s : Store) (op : Op) :
    Confines env s (apply env name s op) := by
  constructor
  · rcases accepted_path hh hr hname with hin | hdir
    · exact spared_onlyAt hin (apply_onlyAt env name s op)
    · exact spared_same (apply_blocked env name s (Or.inl hdir) op)
  · intro other ho
    by_cases hne : other = name
    · exact Or.inr (hne ▸ hname)
    · rw [apply_entry env name other hne s op] at ho
      exact Or.inl ho

theorem confines_register (name : Bytes) (s : Store) : Confines env s (register env name s).2 := by
  by_cases hreg : registrable name s = true
  · have hcheck : checkFilename name = true := (Bool.and_eq_true_iff.mp hreg).2
    exact confines_apply hh hr (Or.inl hcheck) s .register
  · rw [register_refused env name s (by simpa using hreg)]
    exact confines_same env rfl rfl

theorem confines_delete {s : Store}
    (hs : ∀ name, (s.hash.lookup name).isSome = true → Accepted name) (name : Bytes) :
    Confines env s (delete env name s).2 := by
  cases hv : validNode name s with
  | none =>
    rw [delete_refused env name s hv]
    exact confines_same env rfl rfl
  | some id =>
    have hin : (s.hash.lookup name).isSome = true := by
      rw [(validNode_iff name s id).mp hv]
      rfl
    exact confines_apply hh hr (hs name hin) s .delete

theorem openUpload_confines (name : Bytes) (h : HeadInfo) (s : Store) :
    Confines env s (openUpload env name h s).2 ∧ ∀ other ∈ mine (openUpload env name h s).1,
      Accepted other := by
  have hregister := confines_register hh hr name s
  unfold openUpload
  dsimp only
  split_ifs with hcheck hreg
  · refine ⟨confines_same env rfl rfl, fun other ho => ?_⟩
    rw [mine_idle (failUpload { h with curUploadFile := name }) rfl] at ho
    exact ho.elim
  · refine ⟨hregister, fun other ho => ?_⟩
    rw [ho.1]
    exact Or.inl (by simpa using hcheck)
  · refine ⟨hregister, fun other ho => ?_⟩
    rw [mine_idle (failUpload { h with curUploadFile := name }) rfl] at ho
    exact ho.elim

theorem written_confines {name : Bytes} (hname : Accepted name) (s : Store) {d : Disk}
    (hd : d = s.disk ∨ ∃ content, d = (appendContent env (targetFile env name) content s.disk).2) :
    Confines env s { s with disk := d } := by
  rcases hd with rfl | ⟨content, rfl⟩
  · exact confines_same env rfl rfl
  · exact confines_apply hh hr hname s (.append content)

theorem effect_confines {h h' : HeadInfo} {s s' : Store} (hmine : ∀ name ∈ mine h, Accepted name)
    (heffect : Effect env h s h' s') : Confines env s s' ∧ ∀ name ∈ mine h', Accepted name := by
  cases heffect with
  | skips body hcur => exact ⟨confines_same env rfl rfl, hmine⟩
  | opens body filename hcur => exact openUpload_confines hh hr filename (setBody h body) s
  | fails body content hcur =>
    have hname : Accepted h.curUploadFile := hmine _ ⟨rfl, hcur⟩
    have happend := confines_apply hh hr hname s (.append content)
    refine ⟨confines_trans happend (confines_apply hh hr hname _ .deregister), fun name hn => ?_⟩
    rw [mine_idle (failUpload (setBody h body)) rfl] at hn
    exact hn.elim
  | waits body disk hcur hd => exact ⟨written_confines hh hr (hmine _ ⟨rfl, hcur⟩) s hd, hmine⟩
  | finishes body disk hcur hd =>
    have hname : Accepted h.curUploadFile := hmine _ ⟨rfl, hcur⟩
    have hsized : Confines env { s with disk := disk }
        { s with disk := (getFileSize (targetFile env h.curUploadFile) disk).2 } :=
      confines_same env (getFileSize_files _ _) rfl
    refine ⟨confines_trans (written_confines hh hr hname s hd)
      (confines_trans hsized (confines_apply hh hr hname _ (.insert _))), fun name hn => ?_⟩
    rw [mine_idle (finishUpload env (setBody h body) { s with disk := disk }).1 rfl] at hn
    exact hn.elim

theorem onBody_confines {data : Bytes} {h : HeadInfo} {s : Store}
    (hmine : ∀ name ∈ mine h, Accepted name)
    {r : HeadInfo × Store} (hrun : onBody env data h s = some r) :
    Confines env s r.2 ∧ ∀ name ∈ mine r.1, Accepted name := by
  unfold onBody at hrun
  split_ifs at hrun
  · cases hrun
    exact ⟨confines_same env rfl rfl, hmine⟩
  · obtain ⟨q, hq, rfl⟩ := Option.map_eq_some_iff.mp hrun
    have hloop : Confines env s q.2.2 ∧ ∀ name ∈ mine q.2.1, Accepted name := by
      refine uploadLoop_keeps (I := fun g t => Confines env s t ∧ ∀ name ∈ mine g,
        Accepted name) ?_ _
        (setBody h (h.requestBody ++ data)) s ⟨confines_same env rfl rfl, hmine⟩ q hq
      rintro g t g' t' ⟨hconf, hg⟩ heffect
      obtain ⟨hstep, hg'⟩ := effect_confines hh hr hg heffect
      exact ⟨confines_trans hconf hstep, hg'⟩
    split_ifs
    · exact hloop
    · exact hloop
  · cases hrun
    exact ⟨confines_same env rfl rfl, hmine⟩

theorem onMessageComplete_confines {codec : Codec} {h : HeadInfo} {s : Store}
    (hs : ∀ name, (s.hash.lookup name).isSome = true → Accepted name)
    {r : HeadInfo × Store × Answer}
    (hrun : onMessageComplete env codec h s = some r) : Confines env s r.2.1 := by
  unfold onMessageComplete at hrun
  split_ifs at hrun
  · cases hrun
    exact confines_same env rfl rfl
  · cases hrun
    unfold processShowlistRequest
    dsimp only
    split <;> exact confines_same env (getContent_files _ _ _ _) rfl
  · obtain ⟨q, -, rfl⟩ := Option.map_eq_some_iff.mp hrun
    exact confines_same env rfl rfl
  · cases hrun
    unfold processDeleteRequest
    dsimp only
    exact confines_delete hh hr hs _
  · cases hrun
    exact confines_same env rfl rfl
  · cases hrun
    exact confines_same env rfl rfl
  · cases hrun
    exact confines_same env rfl rfl

theorem callback_confines {codec : Codec} {h : HeadInfo} {s : Store} {cb : Callback}
    (hs : ∀ name, (s.hash.lookup name).isSome = true → Accepted name)
    (hmine : ∀ name ∈ mine h, Accepted name)
    {r : HeadInfo × Store × Option Answer} (hrun : callback env codec h s cb = some r) :
    Confines env s r.2.1 ∧ ∀ name ∈ mine r.1, Accepted name := by
  cases cb with
  | messageBegin =>
    cases hrun
    refine ⟨confines_same env rfl rfl, fun name hn => ?_⟩
    rw [mine_idle (onMessageBegin h) rfl] at hn
    exact hn.elim
  | headersComplete =>
    obtain ⟨h', hh', rfl⟩ := Option.map_eq_some_iff.mp hrun
    refine ⟨confines_same env rfl rfl, ?_⟩
    rw [onHeadersComplete_mine h h' hh']
    exact hmine
  | body data =>
    obtain ⟨q, hq, rfl⟩ := Option.map_eq_some_iff.mp hrun
    exact onBody_confines hh hr hmine hq
  | messageComplete =>
    obtain ⟨q, hq, rfl⟩ := Option.map_eq_some_iff.mp hrun
    refine ⟨onMessageComplete_confines hh hr hs hq, ?_⟩
    rw [(onMessageComplete_keeps env codec h s q hq).1]
    exact hmine
  | urlComplete =>
    cases hrun
    refine ⟨confines_same env rfl rfl, ?_⟩
    unfold onUrlComplete
    dsimp only
    split <;> exact hmine
  | method data | url data | version data | headerField data | headerValue data
  | headerValueComplete =>
    cases hrun
    exact ⟨confines_same env rfl rfl, hmine⟩

end Names

theorem sendFile_confines (env : Env) (task : SendTask) (s : Store) :
    Confines env s (storeAfter (sendFile env task s)) := by
  refine confines_same env ?_ (sendFile_same env task s).1
  have hl := lookupPrefix_same task.startPos (s.nodes task.node).info.filename s
  have hread : ∀ t : Store,
    (readSegment env (s.nodes task.node).info.filename task.startPos task.endPos t).2.disk.files =
      t.disk.files := fun t => getContent_files _ _ _ _
  have hk : ∀ content t, (keepPrefix env task.startPos (s.nodes task.node).info.filename content
    t).2.disk = t.disk := by
    intro content t
    unfold keepPrefix
    split_ifs
    · exact (putFilePreContent_same env _ content t).disk
    · rfl
  unfold sendFile
  split_ifs
  · rfl
  · dsimp only
    split_ifs
    · exact congrArg Disk.files hl.disk
    · split
      · exact (hread _).trans (congrArg Disk.files hl.disk)
      · split_ifs <;> exact (congrArg Disk.files (hk _ _)).trans
          ((hread _).trans (congrArg Disk.files hl.disk))

section Requests
variable {env : Env} (hh : Housed env) (hr : Rooted env)
include hh hr

theorem request_confines {codec : Codec} {srv srv' : Server} {e : NameRelease.Event}
    (hs : Orderly srv)
    (hstep : NameRelease.step env codec srv e = some srv') :
    Spared (Inside env) srv.store.disk srv'.store.disk ∧ Orderly srv' := by
  have hkept : ∀ {t : Store}, Confines env srv.store t → ∀ name,
    (t.hash.lookup name).isSome = true → Accepted name :=
    fun hc name hn => (hc.names name hn).elim (hs.names name) id
  have huploads : ∀ (c : ℕ) (o : Option HeadInfo),
    (∀ h, o = some h → ∀ name ∈ mine h, Accepted name) →
      ∀ d h, Function.update srv.connections c o d = some h → ∀ name ∈ mine h, Accepted name := by
    intro c o ho d h hd
    by_cases hdc : d = c
    · rw [hdc, Function.update_self] at hd
      exact ho h hd
    · rw [Function.update_of_ne hdc] at hd
      exact hs.uploads d h hd
  cases e with
  | accept c =>
    simp only [NameRelease.step] at hstep
    split_ifs at hstep
    cases hstep
    refine ⟨spared_same rfl, hs.names, huploads c _ fun h he name hn => ?_⟩
    obtain rfl := Option.some.inj he
    rw [mine_idle {} rfl] at hn
    exact hn.elim
  | callback c cb =>
    obtain ⟨h, hc, hrun⟩ := Option.bind_eq_some_iff.mp hstep
    obtain ⟨r, hcall, rfl⟩ := Option.map_eq_some_iff.mp hrun
    obtain ⟨hconf, hmine⟩ := callback_confines hh hr hs.names (hs.uploads c h hc) hcall
    exact ⟨hconf.files, hkept hconf, huploads c _ fun g he => Option.some.inj he ▸ hmine⟩
  | send task =>
    cases hstep
    have hconf := sendFile_confines env task srv.store
    exact ⟨hconf.files, hkept hconf, hs.uploads⟩
  | destroy c =>
    obtain ⟨h, hc, rfl⟩ := Option.map_eq_some_iff.mp hstep
    have hconf : Confines env srv.store (destruct env h srv.store) := by
      unfold destruct
      split_ifs with hcur
      · exact confines_same env rfl rfl
      · exact confines_apply hh hr (hs.uploads c h hc _ ⟨rfl, hcur⟩) srv.store .deregister
    exact ⟨hconf.files, hkept hconf, huploads c none fun _ he =>
      absurd he (Option.some_ne_none _).symm⟩

end Requests

def Owned (env : Env) (path : Bytes) : Prop := Inside env path ∨ path = metaPath env

theorem spared_meta {env : Env} {d e : Disk} (h : OnlyAt (metaPath env) d e) :
    Spared (Owned env) d e :=
  spared_onlyAt (Or.inr rfl) h

theorem pass_spares {env : Env} {codec : Codec} {p q : CleanFlag.Process} {a : CleanFlag.Step}
    (ha : isPass a = true)
    (hstep : CleanFlag.step env codec p a = some q) :
    Spared (Owned env) p.store.disk q.store.disk ∧ q.store.hash = p.store.hash := by
  cases a with
  | register | append | deregister | insert | delete => cases ha
  | collect =>
    simp only [CleanFlag.step] at hstep
    split at hstep
    · split_ifs at hstep
      cases hstep
      exact ⟨spared_same rfl, rfl⟩
    · cases hstep
  | serialize =>
    simp only [CleanFlag.step] at hstep
    split at hstep
    · split at hstep <;> cases hstep <;> exact ⟨spared_same rfl, rfl⟩
    · cases hstep
  | clear =>
    simp only [CleanFlag.step] at hstep
    split at hstep
    · cases hstep
      exact ⟨spared_meta (clear_onlyAt env (metaFile env) p.store.disk), rfl⟩
    · cases hstep
  | store =>
    simp only [CleanFlag.step] at hstep
    split at hstep
    · rename_i infosStr _
      cases hstep
      exact ⟨spared_meta (appendContent_onlyAt env (metaFile env) infosStr p.store.disk), rfl⟩
    · cases hstep

theorem loadFromFile_files (env : Env) (codec : Codec) (s : Store) :
    (loadFromFile env codec s).2.disk.files = s.disk.files := by
  have hread : (getContent (metaFile env) 0 maxContent s.disk).2.files = s.disk.files :=
    getContent_files _ _ _ _
  unfold loadFromFile
  dsimp only
  split
  · exact hread
  · split_ifs
    · exact hread
    · split
      · exact hread
      · rw [loadRecords_disk]
        exact hread

section Steps
variable {env : Env} (hh : Housed env)
include hh

theorem construct_spares (codec : Codec) (clock : ℕ → ℤ) (d : Disk) :
    Spared (Owned env) d (construct env codec clock d).2.disk ∧
      ((construct env codec clock d).1 = true → ∀ name,
        ((construct env codec clock d).2.hash.lookup name).isSome = true → Accepted name) := by
  have hmade : Spared (Owned env) d (if fileExists env (metaFile env) d then (true, d)
      else appendContent env (metaFile env) (bytes "null") d).2 := by
    split_ifs
    · exact spared_same rfl
    · exact spared_meta (appendContent_onlyAt env (metaFile env) _ d)
  unfold construct
  dsimp only
  generalize (if fileExists env (metaFile env) d then (true, d)
    else appendContent env (metaFile env) (bytes "null") d) = a at hmade ⊢
  have hload := loadFromFile_files env codec (Store.fresh clock a.2)
  split_ifs with hfailed hloaded
  · exact ⟨hmade, fun hf => nomatch hf⟩
  · refine ⟨spared_trans (spared_trans hmade (spared_same hload)) fun path hp =>
      ?_, fun _ name hn => ?_⟩
    · apply verifyFileLegality_file hh
      rintro name hentry - rfl
      exact hp (Or.inl ⟨name, hentry, rfl⟩)
    · rw [verifyFileLegality_lookup hh] at hn
      split_ifs at hn with hpresent
      · exact Or.inr ((present_iff hh _ name).mp hpresent).1
      · cases hn
  · exact ⟨spared_trans hmade (spared_same hload), fun hl => absurd hl hloaded⟩

theorem step_spares (hr : Rooted env) {codec : Codec} {p q : Process} {e : Event}
    (hp : p.running = true → Orderly p.server) (hstep : step env codec p e = some q) :
    Spared (Owned env) (disk p) (disk q) ∧ (q.running = true → Orderly q.server) ∧
      ((∃ r, e = .request r) → Spared (Inside env) (disk p) (disk q)) := by
  cases e with
  | request e =>
    simp only [step] at hstep
    split_ifs at hstep with hrunning
    obtain ⟨srv, hsrv, rfl⟩ := Option.map_eq_some_iff.mp hstep
    obtain ⟨hfiles, horderly⟩ := request_confines hh hr (hp hrunning) hsrv
    exact ⟨spared_mono (fun _ hin => Or.inl hin) hfiles, fun _ => horderly, fun _ => hfiles⟩
  | pass a =>
    simp only [step] at hstep
    split_ifs at hstep with hpass
    obtain ⟨t, ht, rfl⟩ := Option.map_eq_some_iff.mp hstep
    obtain ⟨hrunning, ha⟩ := Bool.and_eq_true_iff.mp hpass
    obtain ⟨hfiles, hhash⟩ := pass_spares ha ht
    refine ⟨hfiles, fun _ => ⟨fun name hn => (hp hrunning).names name ?_, (hp hrunning).uploads⟩,
      fun ⟨r, hr⟩ => nomatch hr⟩
    rw [← hhash]
    exact hn
  | restart clock =>
    cases hstep
    obtain ⟨hfiles, hnames⟩ := construct_spares hh codec clock p.server.store.disk
    exact ⟨hfiles, fun hstarted => ⟨hnames hstarted, fun _ _ hc => nomatch hc⟩,
      fun ⟨r, hr⟩ => nomatch hr⟩

/-- In every run, whatever the connections send and wherever the program is stopped and started
again, only files right below the backup directory and the metadata file change, and requests
alone never change the metadata file. -/
theorem writes_confined (hr : Rooted env) (codec : Codec) (p : Process)
    (hp : p.running = true → Orderly p.server)
    (events : List Event) (q : Process) (hrun : run (step env codec) p events = some q) :
    (∀ path, ¬ Inside env path → path ≠ metaPath env →
      (disk q).files.lookup path = (disk p).files.lookup path) ∧
    ((∀ e ∈ events, ∃ r, e = .request r) →
      (disk q).files.lookup (metaPath env) = (disk p).files.lookup (metaPath env)) := by
  have hmeta : ¬ Inside env (metaPath env) := fun ⟨name, _, he⟩ => meta_apart hh name he.symm
  have hall : Spared (Owned env) (disk p) (disk q) ∧
      ((∀ e ∈ events, ∃ r, e = .request r) → Spared (Inside env) (disk p) (disk q)) := by
    induction events generalizing p with
    | nil =>
      cases hrun
      exact ⟨spared_same rfl, fun _ => spared_same rfl⟩
    | cons e events ih =>
      obtain ⟨t, ht, hrest⟩ := Option.bind_eq_some_iff.mp hrun
      obtain ⟨hfiles, horderly, hrequest⟩ := step_spares hh hr hp ht
      obtain ⟨hlater, hrequests⟩ := ih t horderly hrest
      refine ⟨spared_trans hfiles hlater, fun hevents => ?_⟩
      exact spared_trans (hrequest (hevents e List.mem_cons_self))
        (hrequests fun i hi => hevents i (List.mem_cons_of_mem e hi))
  exact ⟨fun path hin hne => hall.1 path fun ho => ho.elim hin hne, fun hevents =>
    hall.2 hevents _ hmeta⟩

end Steps

def rootedEnv : Env := { plainEnv with
  isDirectory := fun path =>
    path = bytes "/backup" || path = bytes "/" || path = bytes "/backup/" || path = bytes
      "/backup/." || path = bytes "/backup/.." }

theorem rootedEnv_housed : Housed rootedEnv where
  deployed := ⟨by decide, by decide⟩
  canonical := ⟨rfl, fun p hp => nomatch hp⟩
  fixed := by decide
  nonempty := by decide
  directory := by decide
  dots := by decide
  outside := by decide
  written := by decide

theorem rootedEnv_rooted : Rooted rootedEnv where
  dots := by decide
  parts := by decide

def newProcess : Process where
  server := { store := Store.fresh (fun _ => 0)
                { files := (∅ : Table Bytes).insert (bytes "/passwd") [1], faults := [] },
              connections := fun _ => none }
  pass := .waiting
  running := false

def dotsUpload : List Callback :=
  [.messageBegin, .method (bytes "POST"), .url (bytes "/upload"), .urlComplete,
    .version (bytes "1.1"),
    .headerField (bytes "Content-Type"), .headerValue (bytes "multipart/form-data; boundary=b"),
      .headerValueComplete,
    .headersComplete, .body (bytes
      "--b\r\nfilename=\"..\"\r\n\r\nhello\r\n--b\r\nfilename=\"f\"\r\n\r\nhello\r\n--b--\r\n"),
    .messageComplete]

def dotsEvents : List Event :=
  .restart (fun _ => 0) :: .request (.accept 0) ::
    dotsUpload.map (fun cb => .request (.callback 0 cb)) ++
    [.pass .collect, .pass .serialize, .pass .clear, .pass .store, .restart fun _ => 0]

theorem writes_confined_dots : ∃ q, run (step rootedEnv plainCodec) newProcess dotsEvents = some q ∧
    (∀ path, ¬ Inside rootedEnv path → path ≠ metaPath rootedEnv →
      (disk q).files.lookup path = (disk newProcess).files.lookup path) ∧
    ((∀ e ∈ dotsEvents, ∃ r, e = .request r) →
      (disk q).files.lookup (metaPath rootedEnv) = (disk newProcess).files.lookup
        (metaPath rootedEnv)) := by
  have hruns : (run (step rootedEnv plainCodec) newProcess dotsEvents).isSome = true := by
    decide +kernel
  obtain ⟨q, hq⟩ := Option.isSome_iff_exists.mp hruns
  exact ⟨q, hq, writes_confined rootedEnv_housed rootedEnv_rooted plainCodec newProcess
    (fun h => nomatch h) dotsEvents q hq⟩

end CloudBackup.Confinement
