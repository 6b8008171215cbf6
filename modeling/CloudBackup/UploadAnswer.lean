import CloudBackup.HttpCallbacks
import CloudBackup.UploadReceipt

/-!
# What an upload is told

The answer to an upload is made of two lists. A file that is still open when
the body ends is in neither, and a body refused half way is answered without
them. What the answer lists is compared with the records made, and what the
receipt has of the parts with the records and the files.
-/

set_option autoImplicit false

namespace CloudBackup.UploadAnswer
open CloudBackup.PatternSearch CloudBackup.ByteStrings CloudBackup.JsonCodec CloudBackup.FilePath
open CloudBackup.FileStore CloudBackup.DataManager CloudBackup.UploadScanner
  CloudBackup.UploadDecoder
open CloudBackup.UploadChunking CloudBackup.HttpCallbacks CloudBackup.PartFates
  CloudBackup.RejectedParts
open CloudBackup.UploadReceipt

def inserted (s₀ s : Store) : List BackupInfoNode :=
  (List.range' s₀.nextNode (s.nextNode-s₀.nextNode)).map fun id => (s.nodes id).info

/-- The names that the text of a response lists; a response without a report lists none. -/
def successFiles (codec : Codec) (body : Bytes) : List Bytes :=
  if body = [] then []
  else (((codec.deserialize body).bind (Json.field (bytes "success_files"))).getD
    .null).items.filterMap Json.asString

/-- The file has all of the part, and so says its record. -/
def InFull (env : Env) (s : Store) (p : Bytes × Bytes) : Prop :=
  s.disk.files.lookup (targetPath env p.1) = some p.2 ∧
  ∃ id, validNode p.1 s = some id ∧ (s.nodes id).info.filename = p.1 ∧
    (s.nodes id).info.size = p.2.length

structure Truthful (env : Env) (codec : Codec) (s₀ : Store) (r : Receipt) (h : HeadInfo)
    (s : Store) : Prop where
  full : ∀ x, onMessageComplete env codec h s = some x → x.1.responseStatus = bytes "200" →
    ∀ p ∈ r.parts, InFull env s p
  listed : ∀ x, onMessageComplete env codec h s = some x →
    successFiles codec x.1.responseBody = (inserted s₀ s).map BackupInfoNode.filename

/-- Parts that go to one path have the same content. -/
def Agreeing (env : Env) (parts : List (Bytes × Bytes)) : Prop :=
  ∀ p ∈ parts, ∀ q ∈ parts, targetPath env p.1 = targetPath env q.1 → p.2 = q.2

/-- A message that nothing was refused of does not end inside a file and was taken by the disk,
and one that stored a file is not refused later and can be reported on. -/
structure Rounded (env : Env) (codec : Codec) (r : Receipt) (h : HeadInfo) : Prop where
  closed : h.responseStatus = [] → h.uploadFailFiles = [] →
    h.curUploadFile = [] ∧ r.intact = true ∧ Agreeing env r.parts
  reported : h.uploadSuccessFiles ≠ [] →
    h.responseStatus = [] ∧ (codec.serialize (uploadReport h)).isSome = true
  legible : h.responseStatus = [] → ∀ text, codec.serialize (uploadReport h) = some text →
    successFiles codec text = h.uploadSuccessFiles

/-- The finished parts have records, and where they are not as they should be one of them is
too small. -/
structure Recorded (s : Store) (done : List (Bytes × Bytes)) (sound : Bool) : Prop where
  records : ∀ p ∈ done, ∃ id, id < s.nextNode ∧ validNode p.1 s = some id ∧
    (s.nodes id).info.filename = p.1 ∧
    (sound = true → (s.nodes id).info.size = p.2.length)
  broken : sound = false → ∃ p ∈ done, ∃ id, id < s.nextNode ∧ validNode p.1 s = some id ∧
    (s.nodes id).info.size < p.2.length

/-- Every part's file is that of the last part with its path. -/
def Contents (env : Env) (s : Store) (parts : List (Bytes × Bytes)) : Prop :=
  ∀ p ∈ parts, ∃ q ∈ parts, targetPath env q.1 = targetPath env p.1 ∧
    s.disk.files.lookup (targetPath env p.1) = some q.2

/-- Of the part that is open `c` was taken and `kept` is in its file. -/
inductive Traced (env : Env) (h : HeadInfo) (s : Store) (r : Receipt) : Prop where
  | between (hcur : h.curUploadFile = []) (hrec : Recorded s r.parts r.intact)
      (hfiles : r.intact = true → Contents env s r.parts) : Traced env h s r
  | inside (done : List (Bytes × Bytes)) (c kept : Bytes) (sound whole : Bool)
      (hcur : h.curUploadFile ≠ [])
      (hparts : r.parts = done ++ [(h.curUploadFile, c)]) (hintact : r.intact = (sound && whole))
      (hrec : Recorded s done sound)
      (hfile : s.disk.files.lookup (targetPath env h.curUploadFile) = some kept)
      (hwhole : whole = true → kept = c) (hshort : whole = false → kept.length < c.length)
      (hfiles : r.intact = true → Contents env s r.parts) : Traced env h s r

structure Logged (env : Env) (s₀ : Store) (h : HeadInfo) (s : Store) (r : Receipt) : Prop where
  names : (inserted s₀ s).map BackupInfoNode.filename = h.uploadSuccessFiles
  next : s₀.nextNode ≤ s.nextNode
  reserved : h.curUploadFile ≠ [] → s.hash.lookup h.curUploadFile = some none
  parts : h.uploadFailFiles = [] → Traced env h s r

theorem inserted_same (s₀ s t : Store) (hnodes : t.nodes = s.nodes)
    (hnext : t.nextNode = s.nextNode) :
    inserted s₀ t = inserted s₀ s := by
  rw [inserted, inserted, hnodes, hnext]

theorem inserted_next (s₀ s t : Store) (node : DataManagerNode) (hle : s₀.nextNode ≤ s.nextNode)
    (hnodes : t.nodes = Function.update s.nodes s.nextNode node)
    (hnext : t.nextNode = s.nextNode+1) :
    inserted s₀ t = inserted s₀ s ++ [node.info] := by
  have hlen : s.nextNode+1-s₀.nextNode = (s.nextNode-s₀.nextNode)+1 := Nat.succ_sub hle
  have hlast : s₀.nextNode+(s.nextNode-s₀.nextNode) = s.nextNode := Nat.add_sub_of_le hle
  rw [inserted, inserted, hnext, hlen, List.range'_1_concat, List.map_append, hlast, hnodes]
  congr 1
  · apply List.map_congr_left
    intro id hid
    have hlt := (List.mem_range'_1.mp hid).2
    rw [hlast] at hlt
    rw [Function.update_of_ne hlt.ne]
  · simp

theorem recorded_keeps {s t : Store} {done : List (Bytes × Bytes)} {sound : Bool}
    (hr : Recorded s done sound)
    (hnext : s.nextNode ≤ t.nextNode) (hnodes : ∀ id, id < s.nextNode → t.nodes id = s.nodes id)
    (hvalid : ∀ name id, validNode name s = some id → validNode name t = some id) :
    Recorded t done sound := by
  constructor
  · intro p hp
    obtain ⟨id, hid, hnode, hinfo⟩ := hr.records p hp
    refine ⟨id, hid.trans_le hnext, hvalid _ _ hnode, ?_⟩
    rw [hnodes id hid]
    exact hinfo
  · intro hsound
    obtain ⟨p, hp, id, hid, hnode, hsize⟩ := hr.broken hsound
    refine ⟨p, hp, id, hid.trans_le hnext, hvalid _ _ hnode, ?_⟩
    rw [hnodes id hid]
    exact hsize

theorem recorded_snoc {s : Store} {done : List (Bytes × Bytes)} {sound : Bool}
    (hr : Recorded s done sound)
    {name c : Bytes} {id : NodeId} (hid : id < s.nextNode) (hnode : validNode name s = some id)
    (hname : (s.nodes id).info.filename = name) (known : Bool)
    (hknown : known = true → (s.nodes id).info.size = c.length)
    (hunknown : known = false → (s.nodes id).info.size < c.length) :
    Recorded s (done ++ [(name, c)]) (sound && known) := by
  constructor
  · intro p hp
    cases List.mem_append.mp hp with
    | inl hdone =>
      obtain ⟨i, hi, hvalid, hfilename, hsize⟩ := hr.records p hdone
      exact ⟨i, hi, hvalid, hfilename, fun hboth => hsize (Bool.and_eq_true_iff.mp hboth).1⟩
    | inr hlast =>
      obtain rfl := List.mem_singleton.mp hlast
      exact ⟨id, hid, hnode, hname, fun hboth => hknown (Bool.and_eq_true_iff.mp hboth).2⟩
  · intro hnot
    cases hs : sound with
    | false =>
      obtain ⟨p, hp, hsmall⟩ := hr.broken hs
      exact ⟨p, List.mem_append_left _ hp, hsmall⟩
    | true =>
      rw [hs, Bool.true_and] at hnot
      exact ⟨(name, c), by simp, id, hid, hnode, hunknown hnot⟩

theorem traced_setBody {env : Env} {h : HeadInfo} {s : Store} {r : Receipt} (ht : Traced env h s r)
    (body : Bytes) :
    Traced env (setBody h body) s r := by
  cases ht with
  | between h1 h2 h3 => exact .between h1 h2 h3
  | inside done c kept sound whole h1 h2 h3 h4 h5 h6 h7 h8 =>
    exact .inside done c kept sound whole h1 h2 h3 h4 h5 h6 h7 h8

theorem traced_badRequest {env : Env} {h : HeadInfo} {s : Store} {r : Receipt}
    (ht : Traced env h s r) :
    Traced env (badRequest h) s r := by
  cases ht with
  | between h1 h2 h3 => exact .between h1 h2 h3
  | inside done c kept sound whole h1 h2 h3 h4 h5 h6 h7 h8 =>
    exact .inside done c kept sound whole h1 h2 h3 h4 h5 h6 h7 h8

theorem logged_setBody {env : Env} {s₀ s : Store} {h : HeadInfo} {r : Receipt}
    (hl : Logged env s₀ h s r)
    (body : Bytes) : Logged env s₀ (setBody h body) s r :=
  ⟨hl.names, hl.next, hl.reserved, fun hfail => traced_setBody (hl.parts hfail) body⟩

theorem logged_failed {env : Env} {s₀ s t : Store} {h g : HeadInfo} {r r' : Receipt}
    (hl : Logged env s₀ h s r)
    (hnodes : t.nodes = s.nodes) (hnext : t.nextNode = s.nextNode)
    (hsucc : g.uploadSuccessFiles = h.uploadSuccessFiles) :
    Logged env s₀ (failUpload g) t r' := by
  constructor
  · rw [inserted_same s₀ s t hnodes hnext, hl.names]
    exact hsucc.symm
  · rw [hnext]
    exact hl.next
  · intro hcur
    exact absurd rfl hcur
  · intro hfail
    simp [failUpload] at hfail

theorem register_true (env : Env) (filename : Bytes) (s : Store)
    (h : (register env filename s).1 = true) :
    s.hash.lookup filename = none ∧ (register env filename s).2.hash = s.hash.insert filename none ∧
    (register env filename s).2.disk.files.lookup (targetPath env filename) = some [] ∧
    OnlyAt (targetPath env filename) s.disk (register env filename s).2.disk := by
  unfold register at h ⊢
  dsimp only at h ⊢
  split_ifs at h ⊢ with hin _ hprep
  refine ⟨?_, rfl, prepareFile_true env _ s.disk hprep, prepareFile_onlyAt env _ s.disk⟩
  simpa using hin

theorem validNode_insert {s t : Store} {filename : Bytes} {o : Option NodeId}
    (hhash : t.hash = s.hash.insert filename o) (hfree : validNode filename s = none) {name : Bytes}
    {id : NodeId}
    (hid : validNode name s = some id) : validNode name t = some id := by
  have hne : name ≠ filename := by
    rintro rfl
    rw [hfree] at hid
    cases hid
  rw [validNode, hhash, AList.lookup_insert_ne hne]
  exact hid

theorem recorded_inserted {s t : Store} {done : List (Bytes × Bytes)} {sound : Bool}
    (hr : Recorded s done sound) {name c : Bytes} {node : DataManagerNode}
    (hfree : validNode name s = none) (hhash : t.hash = s.hash.insert name (some s.nextNode))
    (hnodes : t.nodes = Function.update s.nodes s.nextNode node)
    (hnext : t.nextNode = s.nextNode+1) (hname : node.info.filename = name) (known : Bool)
    (hknown : known = true → node.info.size = c.length)
    (hunknown : known = false → node.info.size < c.length) :
    Recorded t (done ++ [(name, c)]) (sound && known) := by
  have hlt : s.nextNode < t.nextNode := by
    rw [hnext]
    exact Nat.lt_succ_self _
  have hnode : t.nodes s.nextNode = node := by
    rw [hnodes]
    exact Function.update_self _ _ _
  have hvalid : validNode name t = some s.nextNode := by
    rw [validNode, hhash, AList.lookup_insert]
    rfl
  have hkept : Recorded t done sound := by
    refine recorded_keeps hr hlt.le (fun id hid => ?_) fun _ _ hid =>
      validNode_insert hhash hfree hid
    rw [hnodes]
    exact Function.update_of_ne hid.ne _ _
  refine recorded_snoc hkept hlt hvalid ?_ known ?_ ?_
  · rw [hnode]
    exact hname
  · rw [hnode]
    exact hknown
  · rw [hnode]
    exact hunknown

theorem contents_opened {env : Env} {s t : Store} {parts : List (Bytes × Bytes)} {name : Bytes}
    (hc : Contents env s parts) (hfile : t.disk.files.lookup (targetPath env name) = some [])
    (honly : OnlyAt (targetPath env name) s.disk t.disk) :
    Contents env t (parts ++ [(name, [])]) := by
  intro p hp
  by_cases hpath : targetPath env p.1 = targetPath env name
  · exact ⟨(name, []), by simp, hpath.symm, hpath ▸ hfile⟩
  · have hdone : p ∈ parts := by
      refine (List.mem_append.mp hp).resolve_right fun hlast => hpath ?_
      rw [List.mem_singleton.mp hlast]
    obtain ⟨q, hq, hsame, hlookup⟩ := hc p hdone
    exact ⟨q, List.mem_append_left _ hq, hsame, (honly _ hpath).trans hlookup⟩

theorem logged_opened {env : Env} {s₀ s : Store} {h : HeadInfo} {r : Receipt}
    (hl : Logged env s₀ h s r)
    (hcur : h.curUploadFile = []) (filename body : Bytes) :
    Logged env s₀ (openUpload env filename (setBody h body) s).1
      (openUpload env filename (setBody h body) s).2
      { r with parts := r.parts ++
          (named h (openUpload env filename (setBody h body) s).1).map fun name =>
            (name, []) } := by
  obtain ⟨hnodes, hnext⟩ := register_nodes env filename s
  unfold openUpload
  dsimp only
  split_ifs with hcheck hreg
  · exact logged_failed hl rfl rfl rfl
  · have hne : filename ≠ [] := ((checkFilename_iff filename).mp (by simpa using hcheck)).1
    obtain ⟨hfree, hhash, hfile, honly⟩ := register_true env filename s hreg
    constructor
    · rw [inserted_same s₀ s _ hnodes hnext]
      exact hl.names
    · rw [hnext]
      exact hl.next
    · intro _
      rw [hhash]
      exact AList.lookup_insert _
    · intro hfail
      cases hl.parts hfail with
      | between _ hrec hfiles =>
        refine .inside r.parts [] [] r.intact true hne ?_ (Bool.and_true _).symm ?_ hfile
          (fun _ => rfl)
          (fun hnot => by cases hnot) fun hintact => ?_
        · rw [named, if_neg hne]
          rfl
        · refine recorded_keeps hrec hnext.ge (fun id _ => congrFun hnodes id) fun name id hid => ?_
          exact validNode_insert hhash (by rw [validNode, hfree]; rfl) hid
        · rw [named, if_neg hne]
          exact contents_opened (hfiles hintact) hfile honly
      | inside done c kept sound whole hopen => exact absurd hcur hopen
  · exact logged_failed hl hnodes hnext rfl

theorem fileTurn_write (env : Env) (h : HeadInfo) (s : Store) :
    ∃ content last, content <+: h.requestBody ∧
      fileTurn env h s = writeTurn env h s content last := by
  obtain ⟨pos, hpos⟩ : ∃ pos, pos = asInt (find (sep ++ h.bodyBoundary) h.requestBody) := ⟨_, rfl⟩
  unfold fileTurn
  dsimp only
  rw [← hpos]
  by_cases hnone : pos = -1
  · refine ⟨h.requestBody.take (h.requestBody.length-h.bodyBoundary.length-sep.length), false,
      List.take_prefix _ _, ?_⟩
    simp only [hnone, if_true, writeTurn, copied, setBody_curUploadFile,
      Bool.false_eq_true, if_false]
  · refine ⟨h.requestBody.take (asSize pos), true, List.take_prefix _ _, ?_⟩
    simp only [hnone, if_false, writeTurn, copied, setBody_curUploadFile, if_true]

theorem copied_faults (env : Env) (h : HeadInfo) (s : Store) (content : Bytes) :
    (copied env h s content).2.faults = s.disk.faults.drop (if content = [] then 0 else 1) := by
  unfold copied
  split_ifs
  · rfl
  · exact appendContent_draws env _ content s.disk

theorem copied_file (env : Env) (h : HeadInfo) (s : Store) (content kept : Bytes)
    (hfile : s.disk.files.lookup (targetPath env h.curUploadFile) = some kept)
    (hok : (copied env h s content).1 = true) :
    (copied env h s content).2.files.lookup (targetPath env h.curUploadFile) =
      some (kept ++ s.disk.takes content) := by
  unfold copied at hok ⊢
  split_ifs at hok ⊢ with hnil
  · rw [hnil, takes_nil, List.append_nil]
    exact hfile
  · have happend := appendContent_true env _ content s.disk hok
    rw [targetPath] at hfile
    rw [hfile] at happend
    exact happend

theorem copied_onlyAt (env : Env) (h : HeadInfo) (s : Store) (content : Bytes) :
    OnlyAt (targetPath env h.curUploadFile) s.disk (copied env h s content).2 := by
  unfold copied
  split_ifs
  · exact OnlyAt.refl _ _
  · exact appendContent_onlyAt env _ content s.disk

theorem allTaken_iff (content : Bytes) (s : Store) :
    allTaken content s = true ↔ s.disk.takes content = content := by
  simp only [allTaken, Bool.or_eq_true, decide_eq_true_eq]
  refine ⟨fun h => h.elim (fun hnil => ?_) id, Or.inr⟩
  rw [hnil, takes_nil]

theorem taken_short {content : Bytes} {s : Store} (h : allTaken content s = false) :
    (s.disk.takes content).length < content.length := by
  have hpre := takes_front s.disk content
  refine lt_of_le_of_ne hpre.length_le fun hlen => ?_
  have hall := (allTaken_iff content s).mpr (hpre.eq_of_length hlen)
  rw [h] at hall
  cases hall

theorem size_read (path c content : Bytes) (s : Store) (d : Disk)
    (hfaults : d.faults = s.disk.faults.drop (if content = [] then 0 else 1))
    (hfile : d.files.lookup (cstr path) = some c) :
    (sizeRead content s = true → (getFileSize path d).1 = c.length) ∧
    (sizeRead content s = false → (getFileSize path d).1 = -1) := by
  have hnext : d.next.1 = s.disk.faults.getD (if content = [] then 0 else 1) none := by
    rw [Disk.next, hfaults, List.headD_eq_head?_getD, List.head?_drop, ← List.getD_eq_getElem?_getD]
  unfold sizeRead getFileSize
  rw [← hnext, hfile]
  cases d.next.1 with
  | none => simp
  | some n => simp

theorem contents_written {env : Env} {s t : Store} {done : List (Bytes × Bytes)}
    {name c content : Bytes}
    (hc : Contents env s (done ++ [(name, c)]))
    (hfile : t.disk.files.lookup (targetPath env name) = some (c ++ content))
    (honly : OnlyAt (targetPath env name) s.disk t.disk) :
    Contents env t (done ++ [(name, c ++ content)]) := by
  intro p hp
  by_cases hpath : targetPath env p.1 = targetPath env name
  · exact ⟨(name, c ++ content), by simp, hpath.symm, hpath ▸ hfile⟩
  · -- neither this part nor the one its file is of is the one being written
    have hdone : ∀ d (q : Bytes × Bytes), q ∈ done ++ [(name, d)] →
      targetPath env q.1 ≠ targetPath env name →
        q ∈ done := by
      intro d q hq hother
      refine (List.mem_append.mp hq).resolve_right fun hlast => hother ?_
      rw [List.mem_singleton.mp hlast]
    obtain ⟨q, hq, hsame, hlookup⟩ := hc p (List.mem_append_left _ (hdone _ p hp hpath))
    exact ⟨q, List.mem_append_left _ (hdone _ q hq (hsame.symm ▸ hpath)), hsame,
      (honly _ hpath).trans hlookup⟩

theorem logged_copied {env : Env} {s₀ s : Store} {h : HeadInfo} {r : Receipt}
    (hl : Logged env s₀ h s r)
    (hcur : h.curUploadFile ≠ []) (content body : Bytes) (hok : (copied env h s content).1 = true) :
    Logged env s₀ (setBody h body) { s with disk := (copied env h s content).2 }
      { parts := receive content r.parts, intact := r.intact && allTaken content s } := by
  refine ⟨hl.names, hl.next, hl.reserved, fun hfail => ?_⟩
  cases hl.parts hfail with
  | between hnone => exact absurd hnone hcur
  | inside done c kept sound whole _ hparts hintact hrec hfile hwhole hshort hfiles =>
    have hwritten := copied_file env h s content kept hfile hok
    have hreceived : receive content r.parts = done ++ [(h.curUploadFile, c ++ content)] := by
      rw [hparts, receive_snoc]
    refine .inside done (c ++ content) (kept ++ s.disk.takes content) sound
      (whole && allTaken content s) hcur
      hreceived ?_ (recorded_keeps hrec le_rfl (fun _ _ => rfl) fun _ _ => id) hwritten ?_ ?_ ?_
    · rw [hintact, Bool.and_assoc]
    · intro hboth
      obtain ⟨hw, htaken⟩ := Bool.and_eq_true_iff.mp hboth
      rw [hwhole hw, (allTaken_iff content s).mp htaken]
    · intro hnot
      have hle := (takes_front s.disk content).length_le
      rw [List.length_append, List.length_append]
      cases hw : whole with
      | false =>
        have hless := hshort hw
        omega
      | true =>
        rw [hw, Bool.true_and] at hnot
        have hless := taken_short hnot
        rw [hwhole hw]
        omega
    · intro hboth
      obtain ⟨hi, htaken⟩ := Bool.and_eq_true_iff.mp hboth
      have hw : whole = true := (Bool.and_eq_true_iff.mp (hintact ▸ hi)).2
      rw [hwhole hw, (allTaken_iff content s).mp htaken] at hwritten
      rw [hreceived]
      exact contents_written (hparts ▸ hfiles hi) hwritten (copied_onlyAt env h s content)

theorem logged_finished {env : Env} {s₀ s : Store} {h : HeadInfo} {r : Receipt}
    (hl : Logged env s₀ h s r)
    (hcur : h.curUploadFile ≠ []) (known : Bool)
    (hsize : ∀ c, s.disk.files.lookup (targetPath env h.curUploadFile) = some c →
      (known = true → (getFileSize (targetFile env h.curUploadFile) s.disk).1 = c.length) ∧
      (known = false → (getFileSize (targetFile env h.curUploadFile) s.disk).1 = -1)) :
    Logged env s₀ (finishUpload env h s).1 (finishUpload env h s).2
      { parts := r.parts, intact := r.intact && known } := by
  have hsame := getFileSize_files (targetFile env h.curUploadFile) s.disk
  obtain ⟨z, hz⟩ : ∃ z, z = getFileSize (targetFile env h.curUploadFile) s.disk := ⟨_, rfl⟩
  have hinsert := insert_reserved h.curUploadFile z.1 { s with disk := z.2 } (hl.reserved hcur)
  have hfinish : finishUpload env h s =
      ({ h with uploadSuccessFiles := h.uploadSuccessFiles ++ [h.curUploadFile],
                curUploadFile := [] },
        (DataManager.insert h.curUploadFile z.1 { s with disk := z.2 }).2) := by
    rw [hz]
    rfl
  rw [hfinish, hinsert]
  rw [← hz] at hsize hsame
  obtain ⟨t, ht⟩ : ∃ t : Store, t = { s with
      hash := s.hash.insert h.curUploadFile (some s.nextNode)
      nodes := Function.update s.nodes s.nextNode
        (newNode h.curUploadFile z.1 { s with disk := z.2 })
      nextNode := s.nextNode+1
      disk := z.2
      isDirty := true
      clock := fun n => s.clock (n+1) } := ⟨_, rfl⟩
  have hinserted := inserted_next s₀ s t _ hl.next (by rw [ht]) (by rw [ht])
  show Logged env s₀ _ { s with hash := _, nodes := _, nextNode := _, disk := _, isDirty := _,
                                clock := _ } _
  rw [← ht]
  constructor
  · rw [hinserted, List.map_append, hl.names]
    rfl
  · rw [ht]
    exact Nat.le_succ_of_le hl.next
  · exact fun hnil => absurd rfl hnil
  · intro hfail
    cases hl.parts hfail with
    | between hnone => exact absurd hnone hcur
    | inside done c kept sound whole _ hparts hintact hrec hfile hwhole hshort hfiles =>
      obtain ⟨hknown, hunknown⟩ := hsize kept hfile
      refine .between rfl ?_ fun hboth => ?_
      · have hfree : validNode h.curUploadFile s = none := by
          rw [validNode, hl.reserved hcur]
          rfl
        have hsnoc := recorded_inserted (t := t) (c := c) hrec hfree (by rw [ht]) (by rw [ht])
          (by rw [ht]) rfl (whole && known) ?_ ?_
        · rw [← Bool.and_assoc, ← hintact, ← hparts] at hsnoc
          exact hsnoc
        · intro hall
          obtain ⟨hw, hk⟩ := Bool.and_eq_true_iff.mp hall
          rw [← hwhole hw]
          exact hknown hk
        · intro hnot
          show z.1 < c.length
          cases hk : known with
          | false =>
            rw [hunknown hk]
            omega
          | true =>
            rw [hk, Bool.and_true] at hnot
            rw [hknown hk]
            exact_mod_cast hshort hnot
      · intro p hp
        have hlookup := hfiles (Bool.and_eq_true_iff.mp hboth).1 p hp
        rw [ht]
        dsimp only
        rw [hsame]
        exact hlookup

theorem logged_file {env : Env} {s₀ s s' : Store} {h h' : HeadInfo} {r : Receipt}
    (hl : Logged env s₀ h s r)
    (hcur : h.curUploadFile ≠ []) (ht : fileTurn env h s = .again h' s') :
    Logged env s₀ h' s' { parts := receive (consumed h h') r.parts
                          intact := r.intact && allTaken (consumed h h') s &&
                            (h'.uploadSuccessFiles = h.uploadSuccessFiles || sizeRead
                              (consumed h h') s) } := by
  obtain ⟨content, last, hpre, hwrite⟩ := fileTurn_write env h s
  rw [ht] at hwrite
  cases hok : (copied env h s content).1 with
  | false =>
    rw [writeTurn_fails hok] at hwrite
    cases hwrite
    exact logged_failed hl rfl rfl rfl
  | true =>
    have hlogged := logged_copied hl hcur content (h.requestBody.drop content.length) hok
    cases last with
    | false =>
      rw [writeTurn_goes hok] at hwrite
      cases hwrite
      have hsame : (setBody h (h.requestBody.drop content.length)).uploadSuccessFiles =
        h.uploadSuccessFiles := rfl
      rw [consumed_drop h _ content hpre rfl]
      simp only [hsame, decide_true, Bool.true_or, Bool.and_true]
      exact hlogged
    | true =>
      rw [writeTurn_ends hok] at hwrite
      cases hwrite
      have hmore : ¬ h.uploadSuccessFiles ++ [h.curUploadFile] = h.uploadSuccessFiles := by simp
      have hlist : (finishUpload env (setBody h (h.requestBody.drop content.length))
          { s with disk := (copied env h s content).2 }).1.uploadSuccessFiles =
          h.uploadSuccessFiles ++ [h.curUploadFile] := rfl
      rw [consumed_drop h _ content hpre rfl]
      simp only [hlist, hmore, decide_false, Bool.false_or]
      apply logged_finished hlogged hcur
      intro c hfile
      exact size_read (targetFile env h.curUploadFile) c content s _
        (copied_faults env h s content) hfile

theorem logged_turn {env : Env} {s₀ s s' : Store} {h h' : HeadInfo} {r : Receipt}
    (hl : Logged env s₀ h s r)
    (ht : uploadTurn env h s = .again h' s') : Logged env s₀ h' s' (receiveTurn env h s r) := by
  rw [again_receives ht]
  split_ifs with hcur
  · have heffect := uploadTurn_effect env h s (h', s') (by rw [ht]; rfl)
    dsimp only at heffect
    cases heffect with
    | skips body _ =>
      have hsame : r.parts ++ (named h (setBody h body)).map (fun name =>
        (name, ([] : Bytes))) = r.parts := by
        have hnone : (setBody h body).curUploadFile = [] := hcur
        rw [named, if_pos hnone]
        simp [setBody]
      rw [hsame]
      exact logged_setBody hl body
    | opens body filename _ => exact logged_opened hl hcur filename body
    | fails body content hne => exact absurd hcur hne
    | waits body disk hne hd => exact absurd hcur hne
    | finishes body disk hne hd => exact absurd hcur hne
  · rw [uploadTurn, if_neg hcur] at ht
    exact logged_file hl hcur ht

theorem uploadTurn_leaves {env : Env} {h h' : HeadInfo} {s s' : Store} {ret : Bool}
    (ht : uploadTurn env h s = .leaves ret h' s') : ∃ body, h' = setBody h body ∧ s' = s := by
  by_cases hcur : h.curUploadFile = []
  · rw [uploadTurn, if_pos hcur] at ht
    obtain ⟨n, hturn | ⟨ret', hturn⟩ | hturn | ⟨name, hturn⟩⟩ := searchTurn_cases env h s
    · rw [hturn] at ht
      cases ht
    · rw [hturn] at ht
      cases ht
      exact ⟨_, rfl, rfl⟩
    · rw [hturn] at ht
      cases ht
    · rw [hturn] at ht
      cases ht
  · obtain ⟨content, last, -, hwrite⟩ := fileTurn_write env h s
    rw [uploadTurn, if_neg hcur, hwrite] at ht
    simp only [writeTurn] at ht
    split_ifs at ht

theorem receiveLoop_logged (env : Env) (n : ℕ) (s₀ : Store) {h : HeadInfo} {s : Store} {r : Receipt}
    (hl : Logged env s₀ h s r) {q : Bool × HeadInfo × Store}
    (hrun : uploadLoop env n h s = some q) :
    Logged env s₀ q.2.1 q.2.2 (receiveLoop env n h s r) := by
  induction n generalizing h s r with
  | zero => cases hrun
  | succ n ih =>
    unfold uploadLoop at hrun
    unfold receiveLoop
    split_ifs at hrun ⊢ with hg
    · cases ht : uploadTurn env h s with
      | again h' s' =>
        rw [ht] at hrun
        exact ih (logged_turn hl ht) hrun
      | leaves ret h' s' =>
        rw [ht] at hrun
        cases hrun
        obtain ⟨body, rfl, rfl⟩ := uploadTurn_leaves ht
        exact logged_setBody hl body
      | throws =>
        rw [ht] at hrun
        cases hrun
    · cases hrun
      exact hl

/-- The status is set by nothing but a refusal, and the body by nothing. -/
structure Pending (h : HeadInfo) : Prop where
  status : h.responseStatus = [] ∨ h.responseStatus = bytes "400"
  body : h.responseBody = []

theorem receiveBodies_logged (env : Env) (chunks : List Bytes) (s₀ : Store) {h : HeadInfo}
    {s : Store} {r : Receipt}
    (hup : isUpload h = true) (hst : Pending h) (hl : Logged env s₀ h s r)
    {h' : HeadInfo} {s' : Store}
    (hrun : onBodies env chunks h s = some (h', s')) :
    isUpload h' = true ∧ Pending h' ∧ Logged env s₀ h' s' (receiveBodies env chunks h s r) := by
  induction chunks generalizing h s r with
  | nil =>
    cases hrun
    exact ⟨hup, hst, hl⟩
  | cons data rest ih =>
    obtain ⟨⟨h₁, s₁⟩, hbody, hrest⟩ := Option.bind_eq_some_iff.mp hrun
    unfold receiveBodies
    dsimp only
    rw [hbody]
    unfold onBody at hbody
    by_cases hnone : h.responseStatus = []
    · rw [if_neg (not_not.mpr hnone), if_pos hup] at hbody
      obtain ⟨q, hq, hq'⟩ := Option.map_eq_some_iff.mp hbody
      have hframe := frame_fields (uploadLoop_frame env _ _ s q hq)
      have hempty : q.2.1.responseBody = [] :=
        (congrArg HeadInfo.responseBody (uploadLoop_frame env _ _ s q hq)).trans hst.body
      have hlogged := receiveLoop_logged env _ s₀ (logged_setBody hl (h.requestBody ++ data)) hq
      rw [if_pos ⟨hnone, hup⟩]
      split_ifs at hq' with hret
      · cases hq'
        exact ih (hframe.2.trans hup) ⟨Or.inl (hframe.1.trans hnone), hempty⟩ hlogged hrest
      · cases hq'
        exact ih (hframe.2.trans hup) ⟨Or.inr rfl, hempty⟩
          ⟨hlogged.names, hlogged.next, hlogged.reserved, fun hfail =>
          traced_badRequest (hlogged.parts hfail)⟩ hrest
    · rw [if_pos hnone] at hbody
      cases hbody
      rw [if_neg (fun hc => hnone hc.1)]
      exact ih hup hst hl hrest

theorem headers_pending (g h : HeadInfo) (hup : isUpload g = true) (hst : g.responseStatus = [])
    (hbody : g.responseBody = []) (hhead : onHeadersComplete g = some h) :
    isUpload h = true ∧ Pending h ∧
      h.requestBody = g.requestBody ∧ h.curUploadFile = g.curUploadFile ∧
      h.uploadSuccessFiles = g.uploadSuccessFiles := by
  rw [onHeadersComplete_upload hup] at hhead
  cases hb : (g.requestHeaders.lookup (bytes "content-type")).bind boundaryOf with
  | some boundary =>
    rw [hb] at hhead
    cases hhead
    exact ⟨hup, ⟨Or.inl hst, hbody⟩, rfl, rfl, rfl⟩
  | none =>
    rw [hb] at hhead
    cases hhead
    exact ⟨hup, ⟨Or.inr rfl, hbody⟩, rfl, rfl, rfl⟩

theorem complete_upload (env : Env) (codec : Codec) (h : HeadInfo) (s : Store)
    (hup : isUpload h = true) :
    onMessageComplete env codec h s =
      if h.responseStatus ≠ [] then some (h, s, answer h none false)
      else some (processUploadRequest codec h, s,
        answer (processUploadRequest codec h) none false) := by
  unfold onMessageComplete
  simp only [upload_not_get hup, upload_not_delete hup, hup, Bool.or_self, Bool.false_eq_true,
    if_false, if_true]

theorem processUpload_status (codec : Codec) (h : HeadInfo) :
    (processUploadRequest codec h).responseStatus = bytes "200" ↔ h.uploadFailFiles = [] := by
  have hstatus : (processUploadRequest codec h).responseStatus =
    (uploadStatus h).responseStatus := by
    unfold processUploadRequest
    split <;> rfl
  rw [hstatus, uploadStatus]
  split_ifs with hfail hsucc
  · exact ⟨fun _ => hfail, fun _ => rfl⟩
  · exact ⟨fun h200 => absurd (show bytes "400" = bytes "200" from h200) (by decide), fun hnil =>
      absurd hnil hfail⟩
  · exact ⟨fun h200 => absurd (show bytes "207" = bytes "200" from h200) (by decide), fun hnil =>
      absurd hnil hfail⟩

theorem processUpload_body (codec : Codec) (h : HeadInfo) :
    (processUploadRequest codec h).responseBody =
    (codec.serialize (uploadReport h)).getD h.responseBody := by
  have hkept : (uploadStatus h).responseBody = h.responseBody := by
    unfold uploadStatus
    split_ifs <;> rfl
  unfold processUploadRequest
  split <;> rename_i hser <;> rw [hser]
  · exact hkept
  · rfl

/-- The parts are there in full only where none is open, the disk took everything, and none
was written over by another. -/
theorem full_iff {env : Env} {s₀ s : Store} {h : HeadInfo} {r : Receipt} (hl : Logged env s₀ h s r)
    (hfail : h.uploadFailFiles = []) : (∀ p ∈ r.parts, InFull env s p) ↔
      h.curUploadFile = [] ∧ r.intact = true ∧ Agreeing env r.parts := by
  cases hl.parts hfail with
  | between hcur hrec hfiles =>
    constructor
    · intro hfull
      refine ⟨hcur, ?_, fun p hp q hq hpath => ?_⟩
      · by_contra hnot
        obtain ⟨p, hp, id, -, hvalid, hsmall⟩ := hrec.broken (by simpa using hnot)
        obtain ⟨-, i, hi, -, hsize⟩ := hfull p hp
        rw [hvalid] at hi
        obtain rfl := Option.some.inj hi
        exact hsmall.ne hsize
      · have hfile := (hfull p hp).1
        rw [hpath, (hfull q hq).1] at hfile
        exact (Option.some.inj hfile).symm
    · rintro ⟨-, hintact, hagree⟩ p hp
      obtain ⟨id, -, hvalid, hname, hsize⟩ := hrec.records p hp
      obtain ⟨q, hq, hpath, hfile⟩ := hfiles hintact p hp
      rw [hagree q hq p hp hpath] at hfile
      exact ⟨hfile, id, hvalid, hname, hsize hintact⟩
  | inside done c kept sound whole hcur hparts =>
    constructor
    · intro hfull
      obtain ⟨-, id, hvalid, -⟩ := hfull (h.curUploadFile, c) (by simp [hparts])
      rw [validNode, hl.reserved hcur] at hvalid
      cases hvalid
    · exact fun hclosed => absurd hclosed.1 hcur

theorem logged_start (env : Env) (s : Store) {h : HeadInfo} (hcur : h.curUploadFile = [])
    (hsucc : h.uploadSuccessFiles = []) :
    Logged env s h s ⟨[], true⟩ := by
  constructor
  · rw [hsucc]
    simp [inserted]
  · exact le_rfl
  · exact fun hne => absurd hcur hne
  · refine fun _ => .between hcur
      ⟨fun p hp => absurd hp List.not_mem_nil, fun hnot => by cases hnot⟩ fun _ => ?_
    exact fun p hp => absurd hp List.not_mem_nil

section Answer
variable {env : Env} {codec : Codec} {s₀ s : Store} {h : HeadInfo} {r : Receipt}
  (hl : Logged env s₀ h s r)
  (hup : isUpload h = true) (hst : Pending h)
include hl hup hst

theorem full_answer :
    (∀ x, onMessageComplete env codec h s = some x → x.1.responseStatus = bytes "200" →
      ∀ p ∈ r.parts, InFull env s p) ↔
    (h.responseStatus = [] → h.uploadFailFiles = [] →
      h.curUploadFile = [] ∧ r.intact = true ∧ Agreeing env r.parts) := by
  rw [complete_upload env codec h s hup]
  constructor
  · intro hfull hnone hfails
    rw [if_neg (not_not.mpr hnone)] at hfull
    exact (full_iff hl hfails).mp (hfull _ rfl ((processUpload_status codec h).mpr hfails))
  · intro hclosed x hx h200
    split_ifs at hx with hne
    · obtain rfl := Option.some.inj hx
      rw [hst.status.resolve_left hne] at h200
      exact absurd h200 (by decide)
    · obtain rfl := Option.some.inj hx
      have hfails := (processUpload_status codec h).mp h200
      exact (full_iff hl hfails).mpr (hclosed (not_not.mp hne) hfails)

/-- The list of the answer is complete exactly when there is a report that can be read, or
nothing to report. -/
theorem listed_answer :
    (∀ x, onMessageComplete env codec h s = some x →
      successFiles codec x.1.responseBody = (inserted s₀ s).map BackupInfoNode.filename) ↔
    (h.uploadSuccessFiles ≠ [] → h.responseStatus = [] ∧
      (codec.serialize (uploadReport h)).isSome = true) ∧
      (h.responseStatus = [] → ∀ text, codec.serialize (uploadReport h) = some text →
        successFiles codec text = h.uploadSuccessFiles) := by
  have hblank : successFiles codec h.responseBody = [] := by
    rw [hst.body, successFiles, if_pos rfl]
  rw [complete_upload env codec h s hup, hl.names]
  by_cases hnone : h.responseStatus = []
  · rw [if_neg (not_not.mpr hnone)]
    simp only [Option.some.injEq, forall_eq', processUpload_body, hnone, true_and, forall_const]
    cases codec.serialize (uploadReport h) with
    | none => simp [hblank, eq_comm]
    | some text => simp
  · rw [if_pos hnone]
    simp only [Option.some.injEq, forall_eq', hblank, hnone, false_and, imp_false, not_not,
      false_imp_iff, and_true]
    exact eq_comm

end Answer

def uploadRequest : HeadInfo :=
  { requestMethod := bytes "POST"
    requestUrl := bytes "/upload"
    requestUrlPrefix := bytes "/upload"
    requestVersion := bytes "1.1"
    requestHeaders := AList.insert (bytes "content-type")
      (bytes "multipart/form-data; boundary=b") ∅ }

/-- What the library writes for a report of one stored file, and reads back. -/
def reportText : Bytes :=
  bytes "\x7b\n\t\"fail_count\" : 0,\n\t\"success_count\" : 1,\n\t\"success_files\" : \n\t[\n\t\t\"f\"\n\t],\n\t\"total_count\" : 1\n\x7d"

def reportCodec : Codec where
  serialize := fun _ => some reportText
  deserialize := fun text =>
    if text = reportText then
      some (uploadReport { uploadRequest with uploadSuccessFiles := [bytes "f"] }) else none

/-- The body ends in the middle of the file. -/
def cutPart : Bytes := bytes "--b\r\nfilename=\"f\"\r\n\r\nhello"

/-- A file, and a part without a name behind it. -/
def namelessEnd : Bytes := bytes "--b\r\nfilename=\"f\"\r\n\r\nhello\r\n--b\r\n\r\nx\r\n--b--\r\n"

def answered (body : Bytes) : Option (Bytes × Bytes × List Bytes × List Bytes) :=
  (onHeadersComplete uploadRequest).bind fun h₀ =>
    (onBodies plainEnv [body] h₀ freshStore).bind fun r =>
    (onMessageComplete plainEnv plainCodec r.1 r.2).map fun x =>
      (x.1.responseStatus, x.1.responseBody,
        (inserted freshStore x.2.1).map BackupInfoNode.filename,
        (receiveBodies plainEnv [body] h₀ freshStore ⟨[], true⟩).parts.map Prod.fst)

end CloudBackup.UploadAnswer
