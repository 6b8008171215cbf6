import CloudBackup.Versions

/-!
# Names, records and files stay together

One invariant ties the entries, the records, the files and the cache to the
history. Each step keeps it, except that the registration of a name must not
take the disk path of another one, and that a prefix put into the cache must
have been read since the registration its record comes from.
-/

set_option autoImplicit false

namespace CloudBackup.VersionCoherence
open CloudBackup.ByteStrings CloudBackup.FilePath CloudBackup.FileStore
open CloudBackup.DataManager CloudBackup.UploadScanner CloudBackup.Download
open CloudBackup.Versions

/-- The file of every name in use holds what was uploaded under it, and so does
the cache. -/
structure Coherent (env : Env) (w : World) : Prop where
  paths : ∀ a b, (w.store.hash.lookup a).isSome = true → (w.store.hash.lookup b).isSome = true →
    targetPath env a = targetPath env b → a = b
  valid : ∀ name id, validNode name w.store = some id → nodeName w id = name ∧
    id < w.store.nextNode ∧ w.past.born id = w.past.round (targetPath env name) ∧
    w.store.disk.files.lookup (targetPath env name) = some (w.past.content id)
  held : ∀ u name, w.uploads u = .uploading name → w.store.hash.lookup name = some none ∧
    w.store.disk.files.lookup (targetPath env name) = some (w.past.sent name) ∧
    ∀ i < w.store.nextNode, nodePath env w i = targetPath env name →
      w.past.born i < w.past.round (targetPath env name)
  failing : ∀ u name, w.uploads u = .failing name → w.store.hash.lookup name = some none
  owner : ∀ u v name, (w.uploads u).filename = some name →
    (w.uploads v).filename = some name → u = v
  bornLe : ∀ i < w.store.nextNode, w.past.born i ≤ w.past.round (nodePath env w i)
  unique : ∀ i < w.store.nextNode, ∀ j < w.store.nextNode, nodePath env w i = nodePath env w j →
    w.past.born i = w.past.born j → i = j
  kept : ∀ i < w.store.nextNode, w.past.born i = w.past.round (nodePath env w i) →
    ∀ F, w.store.disk.files.lookup (nodePath env w i) = some F → F = w.past.content i
  linked : Linked w.store
  cache : CacheHolds (fun id content => content <+: w.past.content id) w.store
  tasks : ∀ d task, (w.sends d).task = some task → task.node < w.store.nextNode
  pending : ∀ d task content r, w.sends d = .reads task content r →
    r ≤ w.past.round (nodePath env w task.node) ∧
    (∀ i < w.store.nextNode, nodePath env w i = nodePath env w task.node → w.past.born i = r →
      content <+: w.past.content i) ∧
    (w.past.round (nodePath env w task.node) = r → ∀ u name, w.uploads u = .uploading name →
      targetPath env name = nodePath env w task.node → content <+: w.past.sent name)

theorem setSend_task {d d' : ℕ} {x : SendState} {task : SendTask} {n : ℕ} {w : World}
    (hw : ∀ d task, (w.sends d).task = some task → task.node < n)
    (hx : ∀ task, x.task = some task → task.node < n)
    (ht : ((setSend d x w).sends d').task = some task) : task.node < n := by
  by_cases hd : d' = d
  · subst hd
    exact hx task (by simpa [setSend] using ht)
  · exact hw d' task (by simpa [setSend, hd] using ht)

structure Serves (w w' : World) : Prop where
  hash : w'.store.hash = w.store.hash
  files : w'.store.disk.files = w.store.disk.files
  next : w'.store.nextNode = w.store.nextNode
  info : ∀ id, (w'.store.nodes id).info = (w.store.nodes id).info
  uploads : w'.uploads = w.uploads
  sent : w'.past.sent = w.past.sent
  round : w'.past.round = w.past.round
  content : w'.past.content = w.past.content
  born : w'.past.born = w.past.born

structure SameView (s t : Store) : Prop where
  hash : t.hash = s.hash
  files : t.disk.files = s.disk.files
  next : t.nextNode = s.nextNode
  info : ∀ id, (t.nodes id).info = (s.nodes id).info

theorem SameView.refl (s : Store) : SameView s s := ⟨rfl, rfl, rfl, fun _ => rfl⟩

theorem view_of_same {s t : Store} (h : SameRecords s t) : SameView s t :=
  ⟨h.hash, by rw [h.disk], h.next, h.info⟩

theorem readSegment_view (env : Env) (filename : Bytes) (startPos endPos : ℤ) (s : Store) :
    SameView s (readSegment env filename startPos endPos s).2 :=
  ⟨rfl, getContent_files _ _ _ s.disk, rfl, fun _ => rfl⟩

section Serve
variable {env : Env} {w w' : World} (h : Coherent env w)

theorem serves_nodePath (env : Env) (hv : Serves w w') (id : NodeId) :
    nodePath env w' id = nodePath env w id := by
  rw [nodePath, nodePath, nodeName, nodeName, hv.info]

include h

theorem coherent_serves (hv : Serves w w') (hlinked : Linked w'.store)
    (hcache : CacheHolds (fun id content => content <+: w.past.content id) w'.store)
    (htasks : ∀ d task, (w'.sends d).task = some task → task.node < w.store.nextNode)
    (hpending : ∀ d task content r, w'.sends d = .reads task content r →
      w.sends d = .reads task content r ∨
      r = w.past.round (nodePath env w task.node) ∧
      ∃ F, w.store.disk.files.lookup (nodePath env w task.node) = some F ∧ content <+: F) :
    Coherent env w' := by
  have hpath := fun id => serves_nodePath env hv id
  have hname : ∀ id, nodeName w' id = nodeName w id := fun id => by rw [nodeName, nodeName, hv.info]
  have hvalid : ∀ name, validNode name w'.store = validNode name w.store := fun name => by
    rw [validNode, validNode, hv.hash]
  constructor
  · rw [hv.hash]
    exact h.paths
  · intro name id hid
    rw [hvalid] at hid
    rw [hname, hv.next, hv.born, hv.round, hv.files, hv.content]
    exact h.valid name id hid
  · intro u name hu
    rw [hv.uploads] at hu
    simp only [hv.hash, hv.files, hv.sent, hv.next, hpath, hv.born, hv.round]
    exact h.held u name hu
  · intro u name hu
    rw [hv.uploads] at hu
    rw [hv.hash]
    exact h.failing u name hu
  · rw [hv.uploads]
    exact h.owner
  · simp only [hv.next, hv.born, hv.round, hpath]
    exact h.bornLe
  · simp only [hv.next, hv.born, hpath]
    exact h.unique
  · intro i hi hb F hF
    rw [hv.next] at hi
    rw [hv.born, hv.round, hpath] at hb
    rw [hv.files, hpath] at hF
    rw [hv.content]
    exact h.kept i hi hb F hF
  · exact hlinked
  · rw [hv.content]
    exact hcache
  · rw [hv.next]
    exact htasks
  · intro d task content r hd
    simp only [hv.next, hv.born, hv.round, hpath, hv.content, hv.uploads, hv.sent]
    rcases hpending d task content r hd with hold | ⟨rfl, F, hF, hpre⟩
    · exact h.pending d task content r hold
    · -- The disk holds the one content that the latest registration of the path can stand for.
      refine ⟨le_rfl, fun i hi hip hb => ?_, fun _ u name hu hp => ?_⟩
      · rw [← h.kept i hi (by rw [hip, hb]) F (by rw [hip, hF])]
        exact hpre
      · obtain ⟨-, hdisk, -⟩ := h.held u name hu
        rw [hp, hF] at hdisk
        rw [← Option.some.inj hdisk]
        exact hpre

theorem coherent_send {t : Store} (hv : SameView w.store t) (hlinked : Linked t)
    (hcache : CacheHolds (fun id content => content <+: w.past.content id) t) (d : ℕ)
    (x : SendState)
    (hx : ∀ task, x.task = some task → task.node < w.store.nextNode)
    (hread : ∀ task content r, x = .reads task content r →
      r = w.past.round (nodePath env w task.node) ∧
      ∃ F, w.store.disk.files.lookup (nodePath env w task.node) = some F ∧ content <+: F)
    (l : List Emission) :
    Coherent env { setSend d x (setStore t w) with past := { w.past with emitted := l } } := by
  refine coherent_serves h ⟨hv.hash, hv.files, hv.next, hv.info, rfl, rfl, rfl, rfl, rfl⟩
    hlinked hcache
    (fun d' task ht => setSend_task h.tasks hx ht) fun d' task content r hd => ?_
  by_cases he : d' = d
  · subst he
    refine Or.inr (hread task content r ?_)
    simpa [setSend] using hd
  · exact Or.inl (by simpa [setSend, setStore, he] using hd)

theorem coherent_emit {t : Store} (hv : SameView w.store t) (hlinked : Linked t)
    (hcache : CacheHolds (fun id content => content <+: w.past.content id) t) (d : ℕ)
    (task : SendTask)
    (content : Bytes) (htask : task.node < w.store.nextNode) :
    Coherent env (emit d task content (setStore t w)) := by
  apply coherent_send h hv hlinked hcache
  · intro task' ht
    split_ifs at ht
    · obtain rfl := Option.some.inj ht
      exact htask
    · cases ht
  · intro task' content' r hx
    split_ifs at hx

theorem coherent_wait {t : Store} (hv : SameView w.store t) (hlinked : Linked t)
    (hcache : CacheHolds (fun id content => content <+: w.past.content id) t) (d : ℕ)
    (x : SendState)
    (hx : ∀ task, x.task = some task → task.node < w.store.nextNode)
    (hread : ∀ task content r, x ≠ .reads task content r) :
    Coherent env (setSend d x (setStore t w)) :=
  coherent_send h hv hlinked hcache d x hx (fun task content r e => absurd e (hread task content r))
    w.past.emitted

theorem capture_coherent (d : ℕ) (req : HeadInfo) (hs : capture d req w = some w') :
    Coherent env w' := by
  obtain ⟨_, task, -, hreq, rfl⟩ := capture_cases hs
  have hnode := (h.valid _ _ (processDownloadRequest_node _ _ _ _ hreq)).2.1
  exact coherent_wait h (SameView.refl _) h.linked h.cache d _
    (fun t ht => by cases ht; exact hnode) (fun _ _ _ e => by cases e)

theorem lookup_coherent (d : ℕ) (hs : lookupStep d w = some w') : Coherent env w' := by
  obtain ⟨task, hd, hcases⟩ := lookup_cases hs
  have htask := h.tasks d task (by rw [hd]; rfl)
  obtain ⟨-, rfl⟩ | ⟨l, rfl, hcases⟩ := hcases
  · exact coherent_wait h (SameView.refl _) h.linked h.cache d _
      (fun t ht => by cases ht) (fun _ _ _ e => by cases e)
  · have hv := view_of_same (lookupPrefix_same task.startPos (nodeName w task.node) w.store)
    have hl := linked_lookupPrefix h.linked task.startPos (nodeName w task.node)
    have hc := cacheHolds_lookupPrefix h.cache task.startPos (nodeName w task.node)
    obtain ⟨-, rfl⟩ | ⟨-, rfl⟩ := hcases
    · exact coherent_emit h hv hl hc d task _ htask
    · exact coherent_wait h hv hl hc d _ (fun t ht => by cases ht; exact htask)
        (fun _ _ _ e => by cases e)

theorem read_coherent (d : ℕ) (hs : readStep env d w = some w') : Coherent env w' := by
  obtain ⟨task, r, hd, rfl, hcases⟩ := read_cases hs
  have htask := h.tasks d task (by rw [hd]; rfl)
  have hv := readSegment_view env (nodeName w task.node) task.startPos task.endPos w.store
  have hl : Linked (readSegment env (nodeName w task.node) task.startPos task.endPos w.store).2 :=
    ⟨h.linked.nodup, h.linked.valid⟩
  obtain ⟨-, rfl⟩ | ⟨content, hr, ⟨hstart, rfl⟩ | ⟨-, rfl⟩⟩ := hcases
  · exact coherent_wait h hv hl h.cache d _ (fun t ht => by cases ht) (fun _ _ _ e => by cases e)
  · obtain ⟨F, hF, hpre⟩ := getContent_some _ _ _ _ _ hr
    refine coherent_send h hv hl h.cache d _ (fun t ht => by cases ht; exact htask)
      (fun t c r e => ?_) w.past.emitted
    cases e
    rw [hstart] at hpre
    exact ⟨rfl, F, hF, hpre⟩
  · exact coherent_emit h hv hl h.cache d task content htask

theorem put_coherent (d : ℕ) (hs : putStep env d w = some w')
    (hfresh : ∀ task content r, w.sends d = .reads task content r → ∀ id,
      validNode (nodeName w task.node) w.store = some id → id ∉ w.store.list → w.past.born id = r) :
    Coherent env w' := by
  obtain ⟨task, content, r, k, hd, rfl, hcases⟩ := put_cases hs
  have htask := h.tasks d task (by rw [hd]; rfl)
  have hv := view_of_same (putFilePreContent_same env (nodeName w task.node) content w.store)
  have hl := linked_putFilePreContent h.linked env (nodeName w task.node) content
    fun id hid => (h.valid _ id hid).1
  have hc := cacheHolds_putFilePreContent h.cache (fun _ => List.nil_prefix) env
    (nodeName w task.node) content fun id hid hnew => by
      obtain ⟨hname, hlt, -, -⟩ := h.valid _ id hid
      have hpath : nodePath env w id = nodePath env w task.node := by
        rw [nodePath, hname, nodePath]
      exact (keptPrefix_front env content).trans
        ((h.pending d task content r hd).2.1 id hlt hpath (hfresh task content r hd id hid hnew))
  obtain rfl | rfl := hcases
  · exact coherent_emit h hv hl hc d task content htask
  · exact coherent_wait h hv hl hc d _ (fun t ht => by cases ht) (fun _ _ _ e => by cases e)

end Serve

section Change
variable {env : Env} {w : World} (h : Coherent env w)
include h

/-- A connection gives a name up, or will only release it. -/
theorem coherent_drop (u : ℕ) (x : UploadState) (hx : ∀ name, x ≠ .uploading name)
    (hname : ∀ name, x.filename = some name → (w.uploads u).filename = some name)
    (hfail : ∀ name, x = .failing name → w.store.hash.lookup name = some none) :
    Coherent env (setUpload u x w) := by
  have hup : ∀ v name, (setUpload u x w).uploads v = .uploading name →
    w.uploads v = .uploading name := by
    intro v name hv
    by_cases he : v = u
    · subst he
      exact absurd (by simpa [setUpload] using hv) (hx name)
    · simpa [setUpload, he] using hv
  have hfile : ∀ v name, ((setUpload u x w).uploads v).filename = some name →
      (w.uploads v).filename = some name := by
    intro v name hv
    by_cases he : v = u
    · subst he
      exact hname name (by simpa [setUpload] using hv)
    · simpa [setUpload, he] using hv
  exact {
    paths := h.paths
    valid := h.valid
    held := fun v name hv => h.held v name (hup v name hv)
    failing := fun v name hv => by
      by_cases he : v = u
      · subst he
        exact hfail name (by simpa [setUpload] using hv)
      · exact h.failing v name (by simpa [setUpload, he] using hv)
    owner := fun v v' name hv hv' => h.owner v v' name (hfile v name hv) (hfile v' name hv')
    bornLe := h.bornLe
    unique := h.unique
    kept := h.kept
    linked := h.linked
    cache := h.cache
    tasks := h.tasks
    pending := fun d task content r hd =>
      ⟨(h.pending d task content r hd).1, (h.pending d task content r hd).2.1,
        fun hr v name hv => (h.pending d task content r hd).2.2 hr v name (hup v name hv)⟩ }

theorem coherent_touch (d : Disk) (round : Bytes → ℕ) (p : Bytes) (honly : OnlyAt p w.store.disk d)
    (hvalid : ∀ name id, validNode name w.store = some id → targetPath env name ≠ p)
    (hheld : ∀ u name, w.uploads u = .uploading name → targetPath env name ≠ p)
    (hround : ∀ q, q ≠ p → round q = w.past.round q) (hle : w.past.round p ≤ round p)
    (hkept : (∀ i < w.store.nextNode, nodePath env w i = p → w.past.born i < round p) ∨
      round p = w.past.round p ∧ ∀ F, d.files.lookup p = some F →
        w.store.disk.files.lookup p = some F) :
    Coherent env { setDisk d w with past := { w.past with round := round } } := by
  have hmono : ∀ q, w.past.round q ≤ round q := fun q => by
    by_cases hq : q = p
    · rw [hq]
      exact hle
    · rw [hround q hq]
  exact {
    paths := h.paths
    valid := fun name id hid => by
      obtain ⟨h1, h2, h3, h4⟩ := h.valid name id hid
      have hne := hvalid name id hid
      refine ⟨h1, h2, ?_, ?_⟩
      · exact h3.trans (hround _ hne).symm
      · exact (honly _ hne).trans h4
    held := fun u name hu => by
      obtain ⟨h1, h2, h3⟩ := h.held u name hu
      have hne := hheld u name hu
      exact ⟨h1, (honly _ hne).trans h2, fun i hi hp => (h3 i hi hp).trans_eq (hround _ hne).symm⟩
    failing := h.failing
    owner := h.owner
    bornLe := fun i hi => (h.bornLe i hi).trans (hmono _)
    unique := h.unique
    kept := fun i hi hb F hF => by
      by_cases hp : nodePath env w i = p
      · rcases hkept with hlt | ⟨hr, hsub⟩
        · have hlt := hlt i hi hp
          have hb : w.past.born i = round (nodePath env w i) := hb
          rw [hp] at hb
          omega
        · refine h.kept i hi ?_ F ?_
          · rw [hp, ← hr, ← hp]
            exact hb
          · rw [hp]
            exact hsub F (hp ▸ hF)
      · exact h.kept i hi (hb.trans (hround _ hp)) F ((honly _ hp).symm.trans hF)
    linked := ⟨h.linked.nodup, h.linked.valid⟩
    cache := h.cache
    tasks := h.tasks
    pending := fun e task content r hd => by
      obtain ⟨h1, h2, h3⟩ := h.pending e task content r hd
      refine ⟨h1.trans (hmono _), h2, fun hr u name hu hp => ?_⟩
      have hne : nodePath env w task.node ≠ p := fun e => hheld u name hu (hp.trans e)
      exact h3 ((hround _ hne).symm.trans hr) u name hu hp }

theorem coherent_enter (filename : Bytes) (hfree : w.store.hash.lookup filename = none)
    (hpath : ∀ other, (w.store.hash.lookup other).isSome = true →
      targetPath env other ≠ targetPath env filename) :
    Coherent env (setStore { w.store with hash := w.store.hash.insert filename none } w) := by
  have hother : ∀ name, name ≠ filename →
      (w.store.hash.insert filename none).lookup name = w.store.hash.lookup name :=
    fun name hn => AList.lookup_insert_ne hn
  have hvalid : ∀ name id, validNode name
    { w.store with hash := w.store.hash.insert filename none } = some id →
      validNode name w.store = some id := by
    intro name id hid
    by_cases hn : name = filename
    · subst hn
      rw [validNode_iff] at hid
      rw [AList.lookup_insert] at hid
      cases hid
    · rw [validNode_iff] at hid ⊢
      exact (hother name hn).symm.trans hid
  have hsome : ∀ name, w.store.hash.lookup name = some none ∨
    (∃ id, w.store.hash.lookup name = some (some id)) →
      name ≠ filename := by
    rintro name (hn | ⟨id, hn⟩) rfl <;> rw [hfree] at hn <;> cases hn
  exact {
    paths := fun a b ha hb hp => by
      by_cases hna : a = filename
      · by_cases hnb : b = filename
        · rw [hna, hnb]
        · have hb' : (w.store.hash.lookup b).isSome = true := by rw [← hother b hnb]; exact hb
          exact absurd (hna ▸ hp.symm) (hpath b hb')
      · have ha' : (w.store.hash.lookup a).isSome = true := by rw [← hother a hna]; exact ha
        by_cases hnb : b = filename
        · exact absurd (hnb ▸ hp) (hpath a ha')
        · exact h.paths a b ha' (by rw [← hother b hnb]; exact hb) hp
    valid := fun name id hid => h.valid name id (hvalid name id hid)
    held := fun u name hu => by
      obtain ⟨h1, h2, h3⟩ := h.held u name hu
      exact ⟨(hother name (hsome name (Or.inl h1))).trans h1, h2, h3⟩
    failing := fun u name hu => by
      have h1 := h.failing u name hu
      exact (hother name (hsome name (Or.inl h1))).trans h1
    owner := h.owner
    bornLe := h.bornLe
    unique := h.unique
    kept := h.kept
    linked := ⟨h.linked.nodup, fun id hid => by
      have hv := (validNode_iff _ _ _).mp (h.linked.valid id hid)
      exact (validNode_iff _ _ _).mpr ((hother _ (hsome _ (Or.inr ⟨id, hv⟩))).trans hv)⟩
    cache := h.cache
    tasks := h.tasks
    pending := h.pending }

theorem coherent_leave (filename : Bytes) (hname : ∀ u, (w.uploads u).filename ≠ some filename)
    (hlist : ∀ id ∈ w.store.list, nodeName w id ≠ filename) :
    Coherent env (setStore { w.store with hash := w.store.hash.erase filename } w) := by
  have hother : ∀ name, name ≠ filename →
      (w.store.hash.erase filename).lookup name = w.store.hash.lookup name :=
    fun name hn => AList.lookup_erase_ne hn
  have hgone : (w.store.hash.erase filename).lookup filename = none := AList.lookup_erase _ _
  have hin : ∀ name, ((w.store.hash.erase filename).lookup name).isSome = true →
      (w.store.hash.lookup name).isSome = true := by
    intro name hn
    by_cases he : name = filename
    · rw [he, hgone] at hn
      cases hn
    · rwa [hother name he] at hn
  exact {
    paths := fun a b ha hb => h.paths a b (hin a ha) (hin b hb)
    valid := fun name id hid => by
      have hn : name ≠ filename := by
        rintro rfl
        rw [validNode_iff] at hid
        exact absurd (hgone.symm.trans hid) (by simp)
      refine h.valid name id ?_
      rw [validNode_iff] at hid ⊢
      exact (hother name hn).symm.trans hid
    held := fun u name hu => by
      obtain ⟨h1, h2, h3⟩ := h.held u name hu
      have hu' : w.uploads u = .uploading name := hu
      have hn : name ≠ filename := fun e => hname u (by rw [hu', ← e]; rfl)
      exact ⟨(hother name hn).trans h1, h2, h3⟩
    failing := fun u name hu => by
      have hu' : w.uploads u = .failing name := hu
      have hn : name ≠ filename := fun e => hname u (by rw [hu', ← e]; rfl)
      exact (hother name hn).trans (h.failing u name hu)
    owner := h.owner
    bornLe := h.bornLe
    unique := h.unique
    kept := h.kept
    linked := ⟨h.linked.nodup, fun id hid => by
      rw [validNode_iff]
      exact (hother _ (hlist id hid)).trans ((validNode_iff _ _ _).mp (h.linked.valid id hid))⟩
    cache := h.cache
    tasks := h.tasks
    pending := h.pending }

theorem coherent_adopt (u : ℕ) (filename content : Bytes) (hidle : w.uploads u = .idle)
    (hname : ∀ v, (w.uploads v).filename ≠ some filename)
    (hreserved : w.store.hash.lookup filename = some none)
    (hdisk : w.store.disk.files.lookup (targetPath env filename) = some content)
    (hborn : ∀ i < w.store.nextNode, nodePath env w i = targetPath env filename →
      w.past.born i < w.past.round (targetPath env filename))
    (hpend : ∀ d task c r, w.sends d = .reads task c r →
      w.past.round (nodePath env w task.node) = r →
      targetPath env filename = nodePath env w task.node → c <+: content) :
    Coherent env { setUpload u (.uploading filename) w with past :=
      { w.past with sent := Function.update w.past.sent filename content } } := by
  have hsent : ∀ v name, w.uploads v = .uploading name →
      Function.update w.past.sent filename content name = w.past.sent name := fun v name hv =>
    Function.update_of_ne (fun e => hname v (by rw [hv, ← e]; rfl)) _ _
  have hcase : ∀ v name, Function.update w.uploads u (.uploading filename) v = .uploading name →
      (v = u ∧ name = filename) ∨ w.uploads v = .uploading name := by
    intro v name hv
    by_cases he : v = u
    · subst he
      rw [Function.update_self] at hv
      cases hv
      exact Or.inl ⟨rfl, rfl⟩
    · exact Or.inr (by rwa [Function.update_of_ne he] at hv)
  exact {
    paths := h.paths
    valid := h.valid
    held := fun v name hv => by
      rcases hcase v name hv with ⟨-, rfl⟩ | hv
      · exact ⟨hreserved, hdisk.trans (by simp), hborn⟩
      · obtain ⟨h1, h2, h3⟩ := h.held v name hv
        exact ⟨h1, h2.trans (by rw [← hsent v name hv]), h3⟩
    failing := fun v name hv => by
      have he : v ≠ u := by
        rintro rfl
        simp [setUpload] at hv
      exact h.failing v name (by simpa [setUpload, he] using hv)
    owner := fun v v' name hv hv' => by
      by_cases he : v = u
      · by_cases he' : v' = u
        · rw [he, he']
        · subst he
          have h1 : name = filename := by simpa [setUpload, UploadState.filename] using hv.symm
          have h2 : (w.uploads v').filename = some name := by simpa [setUpload, he'] using hv'
          exact absurd (h1 ▸ h2) (hname v')
      · have h2 : (w.uploads v).filename = some name := by simpa [setUpload, he] using hv
        by_cases he' : v' = u
        · subst he'
          have h1 : name = filename := by simpa [setUpload, UploadState.filename] using hv'.symm
          exact absurd (h1 ▸ h2) (hname v)
        · exact h.owner v v' name h2 (by simpa [setUpload, he'] using hv')
    bornLe := h.bornLe
    unique := h.unique
    kept := h.kept
    linked := h.linked
    cache := h.cache
    tasks := h.tasks
    pending := fun d task c r hd => by
      obtain ⟨h1, h2, h3⟩ := h.pending d task c r hd
      refine ⟨h1, h2, fun hr v name hv hp => ?_⟩
      change c <+: Function.update w.past.sent filename content name
      rcases hcase v name hv with ⟨-, rfl⟩ | hv
      · rw [Function.update_self]
        exact hpend d task c r hd hr hp
      · rw [hsent v name hv]
        exact h3 hr v name hv hp }

end Change

theorem world_uploads (w : World) (u : ℕ) (x : UploadState) (hu : w.uploads u = x) :
    Function.update (Function.update w.uploads u .idle) u x = w.uploads := by
  rw [Function.update_idem, ← hu, Function.update_eq_self]

structure Inserts (env : Env) (u : ℕ) (filename : Bytes) (w w' : World) : Prop where
  hash : w'.store.hash = w.store.hash.insert filename (some w.store.nextNode)
  name : nodeName w' w.store.nextNode = filename
  nodes : ∀ i < w.store.nextNode, w'.store.nodes i = w.store.nodes i
  next : w'.store.nextNode = w.store.nextNode+1
  list : w'.store.list = w.store.list
  files : w'.store.disk.files = w.store.disk.files
  uploads : w'.uploads = (setUpload u .idle w).uploads
  sends : w'.sends = w.sends
  sent : w'.past.sent = w.past.sent
  round : w'.past.round = w.past.round
  content : w'.past.content = Function.update w.past.content w.store.nextNode (w.past.sent filename)
  born : w'.past.born =
    Function.update w.past.born w.store.nextNode (w.past.round (targetPath env filename))

section Inserts
variable {env : Env} {u : ℕ} {filename : Bytes} {w w' : World} (hi : Inserts env u filename w w')
include hi

theorem inserts_cases {i : NodeId} (hlt : i < w'.store.nextNode) :
    i < w.store.nextNode ∨ i = w.store.nextNode := by
  rw [hi.next] at hlt
  exact Nat.lt_succ_iff_lt_or_eq.mp hlt

theorem inserts_lookup {name : Bytes} (hn : name ≠ filename) :
    w'.store.hash.lookup name = w.store.hash.lookup name := by
  rw [hi.hash, AList.lookup_insert_ne hn]

theorem inserts_name {i : NodeId} (hlt : i < w.store.nextNode) : nodeName w' i = nodeName w i := by
  rw [nodeName, nodeName, hi.nodes i hlt]

theorem inserts_path {i : NodeId} (hlt : i < w.store.nextNode) :
    nodePath env w' i = nodePath env w i := by
  rw [nodePath, nodePath, inserts_name hi hlt]

theorem inserts_newPath : nodePath env w' w.store.nextNode = targetPath env filename := by
  rw [nodePath, hi.name]

theorem inserts_content {i : NodeId} (hlt : i < w.store.nextNode) :
    w'.past.content i = w.past.content i := by
  rw [hi.content, Function.update_of_ne hlt.ne]

theorem inserts_newContent : w'.past.content w.store.nextNode = w.past.sent filename := by
  rw [hi.content, Function.update_self]

theorem inserts_born {i : NodeId} (hlt : i < w.store.nextNode) :
    w'.past.born i = w.past.born i := by
  rw [hi.born, Function.update_of_ne hlt.ne]

theorem inserts_newBorn :
    w'.past.born w.store.nextNode = w.past.round (targetPath env filename) := by
  rw [hi.born, Function.update_self]

theorem inserts_uploads {v : ℕ} {x : UploadState} (hv : w'.uploads v = x) (hx : x ≠ .idle) :
    v ≠ u ∧ w.uploads v = x := by
  rw [hi.uploads] at hv
  by_cases hv' : v = u
  · subst hv'
    exact absurd (by simpa [setUpload] using hv.symm) hx
  · exact ⟨hv', by simpa [setUpload, hv'] using hv⟩

end Inserts

section Upload
variable {env : Env} {w w' : World} (h : Coherent env w)
include h

theorem named_reserved {u : ℕ} {filename : Bytes} (hu : (w.uploads u).filename = some filename) :
    w.store.hash.lookup filename = some none := by
  cases hx : w.uploads u with
  | idle =>
    rw [hx] at hu
    cases hu
  | uploading name =>
    rw [hx] at hu
    cases hu
    exact (h.held u filename hx).1
  | failing name =>
    rw [hx] at hu
    cases hu
    exact h.failing u filename hx

theorem coherent_idle (u : ℕ) : Coherent env (setUpload u .idle w) :=
  coherent_drop h u .idle (fun _ e => by cases e) (fun _ e => by cases e) (fun _ e => by cases e)

theorem reserved_path (u : ℕ) (filename : Bytes) (hu : (w.uploads u).filename = some filename)
    (hres : w.store.hash.lookup filename = some none) :
    (∀ name id, validNode name w.store = some id → targetPath env name ≠ targetPath env filename) ∧
    ∀ v name, v ≠ u → w.uploads v = .uploading name →
      targetPath env name ≠ targetPath env filename := by
  have hin : (w.store.hash.lookup filename).isSome = true := by rw [hres]; rfl
  constructor
  · intro name id hid hp
    rw [validNode_iff] at hid
    have := h.paths name filename (by rw [hid]; rfl) hin hp
    rw [this, hres] at hid
    cases hid
  · intro v name hne hv hp
    have hname := h.paths name filename (by rw [(h.held v name hv).1]; rfl) hin hp
    exact hne (h.owner v u filename (by rw [hv, hname]; rfl) hu)

theorem idle_unnamed (u : ℕ) (filename : Bytes)
    (hu : (w.uploads u).filename = some filename) (v : ℕ) :
    ((setUpload u .idle w).uploads v).filename ≠ some filename := by
  intro hv
  by_cases he : v = u
  · subst he
    simp [setUpload, UploadState.filename] at hv
  · exact he (h.owner v u filename (by simpa [setUpload, he] using hv) hu)

theorem coherent_owned (u : ℕ) (filename : Bytes)
    (hu : w.uploads u = .uploading filename) (d : Disk)
    (honly : OnlyAt (targetPath env filename) w.store.disk d) (x : UploadState)
    (hx : x = .idle ∨ x = .failing filename) : Coherent env (setDisk d (setUpload u x w)) := by
  obtain ⟨hres, -, hborn⟩ := h.held u filename hu
  have hfile : (w.uploads u).filename = some filename := by rw [hu]; rfl
  obtain ⟨hvalid, hheld⟩ := reserved_path h u filename hfile hres
  have hdrop : Coherent env (setUpload u x w) := by
    rcases hx with rfl | rfl
    · exact coherent_idle h u
    · refine coherent_drop h u _ (fun _ e => by cases e) (fun name e => ?_) (fun name e => ?_)
      · cases e
        exact hfile
      · cases e
        exact hres
  refine coherent_touch hdrop d w.past.round (targetPath env filename) honly hvalid
    (fun v name hv => ?_)
    (fun _ _ => rfl) le_rfl (Or.inl hborn)
  by_cases he : v = u
  · subst he
    rcases hx with rfl | rfl <;> simp [setUpload] at hv
  · exact hheld v name he (by simpa [setUpload, he] using hv)

theorem append_coherent (u : ℕ) (buffer : Bytes) (hs : appendStep env u buffer w = some w') :
    Coherent env w' := by
  obtain ⟨filename, a, hu, rfl, hcases⟩ := append_cases hs
  obtain ⟨hres, hdisk, hborn⟩ := h.held u filename hu
  have hfile : (w.uploads u).filename = some filename := by rw [hu]; rfl
  have honly := appendContent_onlyAt env (targetFile env filename) buffer w.store.disk
  obtain ⟨ha, rfl⟩ | ⟨-, rfl⟩ := hcases
  · have howned := coherent_owned h u filename hu _ honly .idle (Or.inl rfl)
    have hgrown := appendContent_true env (targetFile env filename) buffer w.store.disk ha
    rw [← targetPath, hdisk, Option.getD_some] at hgrown
    have hadopt := coherent_adopt howned u filename
      (w.past.sent filename ++ w.store.disk.takes buffer)
      (by simp [setUpload, setDisk]) (idle_unnamed h u filename hfile) hres hgrown hborn
      fun d task c r hd hr hp => ((h.pending d task c r hd).2.2 hr u filename hu hp).trans
        (List.prefix_append _ _)
    simpa [setUpload, setDisk, world_uploads w u _ hu] using hadopt
  · exact coherent_owned h u filename hu _ honly (.failing filename) (Or.inr rfl)

theorem register_coherent (u : ℕ) (filename : Bytes) (hs : registerStep env u filename w = some w')
    (hpath : registrable filename w.store = true → ∀ other,
      (w.store.hash.lookup other).isSome = true →
      targetPath env other ≠ targetPath env filename) : Coherent env w' := by
  obtain ⟨r, next, v, hu, hr, hnext, hv, hcases⟩ := register_cases hs
  by_cases hreg : registrable filename w.store = true
  · obtain ⟨hfree, hcall⟩ := register_free env filename w.store hreg
    have honly := prepareFile_onlyAt env (targetFile env filename) w.store.disk
    let round := Function.update w.past.round (targetPath env filename)
      (w.past.round (targetPath env filename)+1)
    have hround : ∀ q, q ≠ targetPath env filename → round q = w.past.round q :=
      fun q hq => Function.update_of_ne hq _ _
    have hnew : round (targetPath env filename) = w.past.round (targetPath env filename)+1 :=
      Function.update_self _ _ _
    have hborn : ∀ i < w.store.nextNode, nodePath env w i = targetPath env filename →
        w.past.born i < round (targetPath env filename) := fun i hi hp => by
      have := h.bornLe i hi
      rw [hp] at this
      omega
    have hpend : ∀ d task c r, w.sends d = .reads task c r →
      nodePath env w task.node = targetPath env filename →
        r < round (targetPath env filename) := fun d task c r hd hp => by
      have := (h.pending d task c r hd).1
      rw [hp] at this
      omega
    have htouch := coherent_touch h (prepareFile env (targetFile env filename) w.store.disk).2 round
      (targetPath env filename) honly
      (fun name id hid => hpath hreg name (by rw [(validNode_iff _ _ _).mp hid]; rfl))
      (fun v name hv => hpath hreg name (by rw [(h.held v name hv).1]; rfl))
      hround (by omega) (Or.inl hborn)
    rw [if_pos hreg] at hnext
    rw [hcall] at hr
    by_cases hp : (prepareFile env (targetFile env filename) w.store.disk).1 = true
    · have hidle : ∀ v, (w.uploads v).filename ≠ some filename := fun v hv =>
        absurd ((named_reserved h hv).symm.trans hfree) (by simp)
      have henter := coherent_enter htouch filename hfree (hpath hreg)
      have hadopt := coherent_adopt henter u filename [] hu hidle (AList.lookup_insert _)
        (prepareFile_true env _ _ hp) hborn fun d task c r hd hr hpath => by
          have := hpend d task c r hd hpath.symm
          have hr : round (nodePath env w task.node) = r := hr
          rw [show nodePath env w task.node = targetPath env filename from hpath.symm] at hr
          omega
      rw [if_pos hp] at hr
      obtain ⟨-, rfl⟩ | ⟨hfail, -⟩ := hcases
      · rw [hv, hr, hnext]
        exact hadopt
      · rw [hr] at hfail
        cases hfail
    · rw [if_neg hp] at hr
      obtain ⟨hdone, -⟩ | ⟨-, rfl⟩ := hcases
      · rw [hr] at hdone
        cases hdone
      · rw [hv, hr, hnext]
        exact htouch
  · rw [register_refused env filename w.store (by simpa using hreg)] at hr
    rw [if_neg hreg] at hnext
    obtain ⟨hdone, -⟩ | ⟨-, rfl⟩ := hcases
    · rw [hr] at hdone
      cases hdone
    · rw [hv, hr, hnext]
      exact h

section Inserted
variable {u : ℕ} {filename : Bytes} (hu : w.uploads u = .uploading filename)
  (hi : Inserts env u filename w w')
include hu hi

theorem inserted_valid (name : Bytes) (id : NodeId) (hid : validNode name w'.store = some id) :
    nodeName w' id = name ∧ id < w'.store.nextNode ∧
      w'.past.born id = w'.past.round (targetPath env name) ∧
      w'.store.disk.files.lookup (targetPath env name) = some (w'.past.content id) := by
  rw [validNode_iff] at hid
  by_cases hn : name = filename
  · subst hn
    rw [hi.hash, AList.lookup_insert, Option.some.injEq, Option.some.injEq] at hid
    subst hid
    rw [inserts_newBorn hi, hi.round, hi.next, hi.files, inserts_newContent hi]
    exact ⟨hi.name, Nat.lt_succ_self _, rfl, (h.held u name hu).2.1⟩
  · rw [inserts_lookup hi hn] at hid
    obtain ⟨hname, hlt, hborn, hfile⟩ := h.valid name id ((validNode_iff _ _ _).mpr hid)
    rw [inserts_name hi hlt, inserts_born hi hlt, hi.round, hi.next, hi.files,
      inserts_content hi hlt]
    exact ⟨hname, Nat.lt_succ_of_lt hlt, hborn, hfile⟩

theorem inserted_held (v : ℕ) (name : Bytes) (hv : w'.uploads v = .uploading name) :
    w'.store.hash.lookup name = some none ∧
      w'.store.disk.files.lookup (targetPath env name) = some (w'.past.sent name) ∧
      ∀ i < w'.store.nextNode, nodePath env w' i = targetPath env name →
        w'.past.born i < w'.past.round (targetPath env name) := by
  obtain ⟨hne, hv⟩ := inserts_uploads hi hv (by simp)
  have hapart := (reserved_path h u filename (by rw [hu]; rfl) (h.held u filename hu).1).2
    v name hne hv
  have hn : name ≠ filename := fun e => hapart (by rw [e])
  obtain ⟨hres, hfile, hearlier⟩ := h.held v name hv
  rw [inserts_lookup hi hn, hi.files, hi.sent, hi.round]
  refine ⟨hres, hfile, fun i hlt hp => ?_⟩
  rcases inserts_cases hi hlt with hlt | rfl
  · rw [inserts_born hi hlt]
    exact hearlier i hlt ((inserts_path hi hlt).symm.trans hp)
  · exact absurd (hp.symm.trans (inserts_newPath hi)) hapart

theorem inserted_unique (i : NodeId) (hlt : i < w'.store.nextNode) (j : NodeId)
    (hlt' : j < w'.store.nextNode)
    (hp : nodePath env w' i = nodePath env w' j)
    (hb : w'.past.born i = w'.past.born j) : i = j := by
  have hearlier := (h.held u filename hu).2.2
  rcases inserts_cases hi hlt with hlt | rfl <;> rcases inserts_cases hi hlt' with hlt' | rfl
  · rw [inserts_path hi hlt, inserts_path hi hlt'] at hp
    rw [inserts_born hi hlt, inserts_born hi hlt'] at hb
    exact h.unique i hlt j hlt' hp hb
  · rw [inserts_path hi hlt, inserts_newPath hi] at hp
    rw [inserts_born hi hlt, inserts_newBorn hi] at hb
    exact absurd hb (hearlier i hlt hp).ne
  · rw [inserts_path hi hlt', inserts_newPath hi] at hp
    rw [inserts_born hi hlt', inserts_newBorn hi] at hb
    exact absurd hb.symm (hearlier j hlt' hp.symm).ne
  · rfl

theorem inserted_kept (i : NodeId) (hlt : i < w'.store.nextNode)
    (hb : w'.past.born i = w'.past.round (nodePath env w' i)) (F : Bytes)
    (hF : w'.store.disk.files.lookup (nodePath env w' i) = some F) : F = w'.past.content i := by
  rw [hi.files] at hF
  rcases inserts_cases hi hlt with hlt | rfl
  · rw [inserts_born hi hlt, hi.round, inserts_path hi hlt] at hb
    rw [inserts_path hi hlt] at hF
    rw [inserts_content hi hlt]
    exact h.kept i hlt hb F hF
  · rw [inserts_newPath hi, (h.held u filename hu).2.1] at hF
    rw [inserts_newContent hi]
    exact (Option.some.inj hF).symm

theorem inserted_listed (id : NodeId) (hid : id ∈ w'.store.list) :
    id ∈ w.store.list ∧ id < w.store.nextNode ∧ nodeName w id ≠ filename := by
  rw [hi.list] at hid
  have hv := h.linked.valid id hid
  refine ⟨hid, (h.valid _ id hv).2.1, fun e => ?_⟩
  rw [show (w.store.nodes id).info.filename = filename from e, validNode,
    (h.held u filename hu).1] at hv
  cases hv

theorem inserted_pending (d : ℕ) (task : SendTask) (content : Bytes) (r : ℕ)
    (hd : w'.sends d = .reads task content r) : r ≤ w'.past.round (nodePath env w' task.node) ∧
      (∀ i < w'.store.nextNode, nodePath env w' i = nodePath env w' task.node → w'.past.born i = r →
        content <+: w'.past.content i) ∧
      (w'.past.round (nodePath env w' task.node) = r → ∀ v name, w'.uploads v = .uploading name →
        targetPath env name = nodePath env w' task.node → content <+: w'.past.sent name) := by
  rw [hi.sends] at hd
  have htask : task.node < w.store.nextNode := h.tasks d task (by rw [hd]; rfl)
  obtain ⟨hle, hrecords, huploads⟩ := h.pending d task content r hd
  rw [hi.round, inserts_path hi htask, hi.sent]
  refine ⟨hle, fun i hlt hp hb => ?_, fun hr v name hv hp => ?_⟩
  · rcases inserts_cases hi hlt with hlt | rfl
    · rw [inserts_content hi hlt]
      exact hrecords i hlt ((inserts_path hi hlt).symm.trans hp)
        ((inserts_born hi hlt).symm.trans hb)
    · -- The record is made of the upload that was running when the file was read.
      rw [inserts_newPath hi] at hp
      rw [inserts_newContent hi]
      exact huploads (by rw [← hp, ← inserts_newBorn hi, hb]) u filename hu hp
  · exact huploads hr v name (inserts_uploads hi hv (by simp)).2 hp

theorem coherent_inserts : Coherent env w' := by
  have hres := (h.held u filename hu).1
  constructor
  · have hsome : ∀ name, (w'.store.hash.lookup name).isSome = true →
      (w.store.hash.lookup name).isSome = true := by
      intro name hname
      by_cases hn : name = filename
      · rw [hn, hres]
        rfl
      · rwa [inserts_lookup hi hn] at hname
    exact fun a b ha hb => h.paths a b (hsome a ha) (hsome b hb)
  · exact inserted_valid h hu hi
  · exact inserted_held h hu hi
  · intro v name hv
    obtain ⟨hne, hv⟩ := inserts_uploads hi hv (by simp)
    have hn : name ≠ filename :=
      fun e => hne (h.owner v u filename (by rw [hv, e]; rfl) (by rw [hu]; rfl))
    exact (inserts_lookup hi hn).trans (h.failing v name hv)
  · rw [hi.uploads]
    exact (coherent_idle h u).owner
  · intro i hlt
    rw [hi.round]
    rcases inserts_cases hi hlt with hlt | rfl
    · rw [inserts_born hi hlt, inserts_path hi hlt]
      exact h.bornLe i hlt
    · rw [inserts_newBorn hi, inserts_newPath hi]
  · exact inserted_unique h hu hi
  · exact inserted_kept h hu hi
  · constructor
    · rw [hi.list]
      exact h.linked.nodup
    · intro id hid
      obtain ⟨hid, hlt, hn⟩ := inserted_listed h hu hi id hid
      have hname : (w'.store.nodes id).info.filename = nodeName w id := inserts_name hi hlt
      rw [hname, validNode_iff, inserts_lookup hi hn]
      exact (validNode_iff _ _ _).mp (h.linked.valid id hid)
  · intro id hid
    obtain ⟨hid, hlt, -⟩ := inserted_listed h hu hi id hid
    rw [hi.nodes id hlt, inserts_content hi hlt]
    exact h.cache id hid
  · intro d task ht
    rw [hi.sends] at ht
    rw [hi.next]
    exact (h.tasks d task ht).trans (Nat.lt_succ_self _)
  · exact inserted_pending h hu hi

end Inserted

theorem insert_coherent (u : ℕ) (hs : insertStep env u w = some w') : Coherent env w' := by
  unfold insertStep at hs
  split at hs
  · rename_i filename hu
    have hcall := insert_reserved filename (getFileSize (targetFile env filename) w.store.disk).1
      { w.store with disk := (getFileSize (targetFile env filename) w.store.disk).2 }
        (h.held u filename hu).1
    dsimp only at hs
    rw [hcall] at hs
    simp only [if_true] at hs
    obtain rfl := Option.some.inj hs
    refine coherent_inserts h hu ⟨rfl, ?_, fun i hlt => Function.update_of_ne hlt.ne _ _, rfl,
      rfl, getFileSize_files _ _, rfl, rfl, rfl, rfl, rfl, rfl⟩
    simp [nodeName, setStore, setUpload, newNode]
  · cases hs

theorem deregister_coherent (u : ℕ) (hs : deregisterStep env u w = some w') : Coherent env w' := by
  obtain ⟨filename, hu, rfl⟩ := Option.map_eq_some_iff.mp hs
  have hres := named_reserved h hu
  obtain ⟨hvalid, hheld⟩ := reserved_path h u filename hu hres
  have htouch := coherent_touch (coherent_idle h u)
    (removeIfExists env (targetFile env filename) w.store.disk).2
    w.past.round (targetPath env filename) (removeIfExists_onlyAt env _ _) hvalid
    (fun v name hv => by
      have hne : v ≠ u := by
        rintro rfl
        simp [setUpload] at hv
      exact hheld v name hne (by simpa [setUpload, hne] using hv))
    (fun _ _ => rfl) le_rfl (Or.inr ⟨rfl, fun F hF => removeIfExists_lookup env _ _ F _ hF⟩)
  refine coherent_leave htouch filename (idle_unnamed h u filename hu) fun id hid hname => ?_
  have hv := h.linked.valid id hid
  rw [show (w.store.nodes id).info.filename = filename from hname, validNode, hres] at hv
  cases hv

theorem delete_coherent (filename : Bytes) (hs : deleteStep env filename w = some w') :
    Coherent env w' := by
  obtain rfl := Option.some.inj hs
  unfold delete
  cases hid : validNode filename w.store with
  | none => exact h
  | some id =>
    obtain ⟨hname, hlt, hb, hdisk⟩ := h.valid filename id hid
    have hlookup := (validNode_iff _ _ _).mp hid
    have hin : (w.store.hash.lookup filename).isSome = true := by rw [hlookup]; rfl
    have hremove : Coherent env (setStore (listRemove id w.store) w) :=
      coherent_serves h ⟨(listRemove_same id _).hash, by rw [setStore, (listRemove_same id _).disk],
          (listRemove_same id _).next, (listRemove_same id _).info, rfl, rfl, rfl, rfl, rfl⟩
        (linked_listRemove h.linked id)
          (cacheHolds_listRemove h.cache (fun _ => List.nil_prefix) id)
        h.tasks fun _ _ _ _ hd => Or.inl hd
    have hnobody : ∀ u, (w.uploads u).filename ≠ some filename := fun u hu =>
      absurd ((named_reserved h hu).symm.trans hlookup) (by simp)
    have hleave := coherent_leave hremove filename hnobody fun i hi hn => by
      -- The only record of that name has just been unlinked.
      rw [setStore, listRemove_list] at hi
      have hi' := List.mem_of_mem_erase hi
      have hv := h.linked.valid i hi'
      rw [nodeName, setStore, (listRemove_same id _).info] at hn
      rw [hn, hid] at hv
      cases hv
      exact h.linked.nodup.not_mem_erase hi
    have hsame := listRemove_same id w.store
    have honly : OnlyAt (targetPath env filename) (listRemove id w.store).disk
        (removeIfExists env (targetFile env filename) (listRemove id w.store).disk).2 :=
      removeIfExists_onlyAt env _ _
    have hvalid : ∀ name i, validNode name
      { listRemove id w.store with hash := (listRemove id w.store).hash.erase filename }
        = some i → targetPath env name ≠ targetPath env filename := fun name i hi hp => by
      have hne : name ≠ filename := by
        rintro rfl
        rw [validNode_iff] at hi
        exact absurd ((AList.lookup_erase name _).symm.trans hi) (by simp)
      refine hne (h.paths name filename ?_ hin hp)
      rw [validNode_iff] at hi
      have herase : ((listRemove id w.store).hash.erase filename).lookup name =
          (listRemove id w.store).hash.lookup name := AList.lookup_erase_ne hne
      exact Option.isSome_iff_exists.mpr ⟨some i, by rw [← hsame.hash, ← herase]; exact hi⟩
    have hheld : ∀ v name, w.uploads v = .uploading name →
      targetPath env name ≠ targetPath env filename :=
      fun v name hv hp => by
        have hres := (h.held v name hv).1
        have hname := h.paths name filename (by rw [hres]; rfl) hin hp
        rw [hname, hlookup] at hres
        cases hres
    have htouch := coherent_touch hleave _ w.past.round (targetPath env filename) honly hvalid hheld
      (fun _ _ => rfl) le_rfl (Or.inr ⟨rfl, fun F hF => removeIfExists_lookup env _ _ F _ hF⟩)
    exact coherent_serves htouch ⟨rfl, rfl, rfl, fun _ => rfl, rfl, rfl, rfl, rfl, rfl⟩
      ⟨htouch.linked.nodup, htouch.linked.valid⟩ htouch.cache htouch.tasks fun _ _ _ _ hd =>
        Or.inl hd

end Upload

end CloudBackup.VersionCoherence
