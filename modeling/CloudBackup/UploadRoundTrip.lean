import CloudBackup.UploadChunking

/-!
# Files sent and files stored

The encoder is the form that the page of the server submits. Decoding what it
produces stores every file under its name, and so does scanning it in pieces.
-/

set_option autoImplicit false

namespace CloudBackup.UploadRoundTrip
open CloudBackup.PatternSearch CloudBackup.ByteStrings CloudBackup.FilePath
open CloudBackup.FileStore CloudBackup.DataManager CloudBackup.UploadScanner
open CloudBackup.UploadDecoder CloudBackup.UploadChunking

structure Part where
  name : Bytes
  contentType : Bytes
  content : Bytes

def delimiter (b : Bytes) : Bytes := bytes "--" ++ b

def disposition : Bytes := bytes "Content-Disposition: form-data; name=\"file\"; "

def dispositionLine (p : Part) : Bytes := disposition ++ (filenameKey ++ (p.name ++ [quote]))

def typeLine (p : Part) : Bytes := bytes "Content-Type: " ++ p.contentType

def partHead (b : Bytes) (p : Part) : Bytes :=
  delimiter b ++ sep ++ dispositionLine p ++ sep ++ typeLine p

def encode (b : Bytes) : List Part → Bytes
  | [] => delimiter b ++ (bytes "--" ++ sep)
  | p::ps => partHead b p ++ (sep ++ sep) ++ p.content ++ sep ++ encode b ps

def bchar (c : UInt8) : Bool :=
  (48 ≤ c && c ≤ 57) || (65 ≤ c && c ≤ 90) || (97 ≤ c && c ≤ 122) ||
    (bytes "'()+_,-./:=? ").contains c

/-- A part whose file can be stored under its name. -/
structure Sendable (env : Env) (b : Bytes) (s : Store) (p : Part) : Prop where
  accepted : checkFilename p.name = true
  oneLine : 13 ∉ p.name ∧ 10 ∉ p.name
  nul : 0 ∉ p.name
  dot : p.name ≠ bytes "."
  dots : p.name ≠ bytes ".."
  free : s.hash.lookup p.name = none
  file : env.isDirectory (targetPath env p.name) = false
  typeLine : 13 ∉ p.contentType
  delimited : ¬ (sep ++ delimiter b) <:+: p.content

theorem bchar_not (b : Bytes) (hb : b.all bchar = true) : 13 ∉ b ∧ 34 ∉ b := by
  rw [List.all_eq_true] at hb
  exact ⟨fun h => absurd (hb _ h) (by decide), fun h => absurd (hb _ h) (by decide)⟩

theorem delimiter_clean {b : Bytes} (hb : 13 ∉ b) : 13 ∉ delimiter b := by
  have h : 13 ∉ bytes "--" := by decide
  exact fun hm => (List.mem_append.mp hm).elim h hb

theorem encode_delimiter (b : Bytes) (ps : List Part) : ∃ r, encode b ps = delimiter b ++ r := by
  cases ps with
  | nil => exact ⟨_, rfl⟩
  | cons p ps => exact ⟨_, by simp only [encode, partHead, List.append_assoc]; rfl⟩

theorem encode_length (b : Bytes) (ps : List Part) :
    (delimiter b).length+sep.length < (encode b ps).length := by
  have hsep : sep.length = 2 := by decide
  have hdash : (bytes "--").length = 2 := by decide
  cases ps with
  | nil =>
    simp only [encode, List.length_append]
    omega
  | cons p ps =>
    simp only [encode, partHead, List.length_append]
    omega

theorem blankLine_skip (l t : Bytes) (hl : 13 ∉ l) (ht : ∃ x ts, t = x::ts ∧ x ≠ 13) :
    find (sep ++ sep) (l ++ (sep ++ t)) = (find (sep ++ sep) t).map (· + (l.length+2)) := by
  obtain ⟨x, ts, rfl, hx⟩ := ht
  exact find_skip_line 13 10 x [10] l ts hl (by decide) hx

theorem dispositionLine_cons (p : Part) (r : Bytes) :
    ∃ x xs, dispositionLine p ++ r = x::xs ∧ x ≠ 13 := ⟨67, _, rfl, by decide⟩

theorem typeLine_cons (p : Part) (r : Bytes) : ∃ x xs, typeLine p ++ r = x::xs ∧ x ≠ 13 :=
  ⟨67, _, rfl, by decide⟩

theorem partHead_lines (b : Bytes) (p : Part) :
    partHead b p = delimiter b ++ (sep ++ (dispositionLine p ++ (sep ++ typeLine p))) := by
  simp only [partHead, dispositionLine, List.append_assoc]

theorem find_blankLine (b : Bytes) (p : Part) (r : Bytes) (hb : 13 ∉ delimiter b)
    (hname : 13 ∉ p.name) (htype : 13 ∉ p.contentType) :
    find (sep ++ sep) (partHead b p ++ ((sep ++ sep) ++ r)) = some (partHead b p).length := by
  have hline : 13 ∉ dispositionLine p := by
    have h1 : 13 ∉ disposition := by decide
    have h2 : 13 ∉ filenameKey := by decide
    have h3 : 13 ∉ [quote] := by decide
    simp only [dispositionLine, List.mem_append, not_or]
    exact ⟨h1, h2, hname, h3⟩
  have hct : 13 ∉ typeLine p := by
    have h1 : 13 ∉ bytes "Content-Type: " := by decide
    simp only [typeLine, List.mem_append, not_or]
    exact ⟨h1, htype⟩
  have hsep : sep.length = 2 := by decide
  calc find (sep ++ sep) (partHead b p ++ ((sep ++ sep) ++ r))
      = find (sep ++ sep) (delimiter b ++ (sep ++ (dispositionLine p ++ (sep ++
          (typeLine p ++ ((sep ++ sep) ++ r)))))) := by
        simp only [partHead_lines, List.append_assoc]
    _ = (((some (typeLine p).length).map (· + ((dispositionLine p).length+2))).map
          (· + ((delimiter b).length+2))) := by
        rw [blankLine_skip _ _ hb (dispositionLine_cons p _),
          blankLine_skip _ _ hline (typeLine_cons p _), blankLine_found _ _ hct]
    _ = some (partHead b p).length := by
        simp only [partHead_lines, List.length_append, Option.map_some, hsep, Option.some.injEq]
        omega

theorem partFilename_partHead (b : Bytes) (p : Part) (hb : 34 ∉ delimiter b)
    (hname : quote ∉ p.name) : partFilename (partHead b p) = some p.name := by
  let rest := sep ++ typeLine p
  have hsplit : partHead b p =
      delimiter b ++ 13::(10::disposition ++ filenameKey) ++ (p.name ++ ([quote] ++ rest)) := by
    simp only [partHead_lines, dispositionLine, rest, List.append_assoc]
    rfl
  have hkey : find filenameKey (partHead b p) =
      some (((10::disposition).length)+((delimiter b).length+1)) := by
    rw [hsplit]
    apply find_append
    rw [find_behind_symbol filenameKey (delimiter b) _ 13 34 (by decide) (by decide) hb,
      show find filenameKey (10::disposition ++ filenameKey) =
        some (10::disposition).length by decide]
    rfl
  have hdrop : (partHead b p).drop
      ((((10::disposition).length)+((delimiter b).length+1))+filenameKey.length) =
        p.name ++ ([quote] ++ rest) := by
    rw [hsplit]
    apply List.drop_left'
    simp only [List.length_append, List.length_cons]
    omega
  have hquote : find [quote] (p.name ++ ([quote] ++ rest)) = some p.name.length :=
    find_after_clean quote [] p.name rest hname
  simp only [partFilename, hkey, hdrop, hquote, Option.map_some, List.take_left]

def reservePart (env : Env) (s : Store) (p : Part) : Store :=
  { s with hash := s.hash.insert p.name none, disk := s.disk.write (targetFile env p.name) [] }

def storePart (env : Env) (s : Store) (p : Part) : Store :=
  { s with
    hash := s.hash.insert p.name (some s.nextNode)
    nodes := Function.update s.nodes s.nextNode (newNode p.name p.content.length s)
    nextNode := s.nextNode+1
    isDirty := true
    clock := fun n => s.clock (n+1)
    disk := s.disk.write (targetFile env p.name) p.content }

def received (h : HeadInfo) (p : Part) : HeadInfo :=
  { h with uploadSuccessFiles := h.uploadSuccessFiles ++ [p.name] }

section Decode
variable {env : Env} {b : Bytes} {s : Store} {p : Part} (hp : Sendable env b s p)
  (hdep : Deployed env) (hs : s.disk.faults = [])
include hp hdep

theorem sendable_writable : writable env (targetFile env p.name) = true := by
  have hne := ((checkFilename_iff p.name).mp hp.accepted).1
  have hpath := targetPath_child hdep hp.accepted hp.dot hp.dots hp.nul
  have hfile := hp.file
  rw [writable, ← targetPath, hfile, hpath]
  simp [hne]

include hs

theorem openUpload_sendable (h : HeadInfo) :
    openUpload env p.name h s = ({ h with curUploadFile := p.name }, reservePart env s p) := by
  simp [openUpload, hp.accepted, register, hp.free, reservePart,
    prepareFile_clean hs env _ (sendable_writable hp hdep)]

theorem copyUpload_sendable (h : HeadInfo) (hc : h.curUploadFile = p.name) :
    copyUpload env p.content h (reservePart env s p) =
      { reservePart env s p with disk := s.disk.write (targetFile env p.name) p.content } := by
  by_cases he : p.content = []
  · rw [he, copyUpload_nil]
    rfl
  · have hw := sendable_writable hp hdep
    have hclean : (reservePart env s p).disk.faults = [] := write_clean hs _ _
    rw [copyUpload_clean env p.content h _ he hclean (by rw [hc]; exact hw), hc]
    simp [reservePart, write_write, targetPath, write_lookup]

theorem finishUpload_sendable (h : HeadInfo) (hc : h.curUploadFile = p.name) :
    finishUpload env h (copyUpload env p.content h (reservePart env s p)) =
      ({ received h p with curUploadFile := [] }, storePart env s p) := by
  rw [copyUpload_sendable hp hdep hs h hc, finishUpload, hc]
  dsimp only
  rw [getFileSize_clean (write_clean hs _ _) _ p.content (write_lookup s.disk _ p.content)]
  simp [DataManager.insert, storePart, reservePart, received, newNode, hc]

theorem decode_part (ps : List Part) (h : HeadInfo) (lead : Bytes) (hlead : lead = [] ∨ lead = sep)
    (hb : b.all bchar = true) (hbound : h.bodyBoundary = delimiter b) (hc : h.curUploadFile = []) :
    decode env h s (lead ++ encode b (p::ps)) =
      decode env (received h p) (storePart env s p) (sep ++ encode b ps) := by
  obtain ⟨hb13, hb34⟩ := bchar_not b hb
  have hd13 := delimiter_clean hb13
  have hd34 : 34 ∉ delimiter b := by
    have h1 : 34 ∉ bytes "--" := by decide
    exact fun hm => (List.mem_append.mp hm).elim h1 hb34
  obtain ⟨r, hr⟩ := encode_delimiter b ps
  have hne : p.name ≠ [] := ((checkFilename_iff p.name).mp hp.accepted).1
  have hquote : quote ∉ p.name := ((checkFilename_iff p.name).mp hp.accepted).2.2
  have hlead45 : 45 ∉ lead := by
    rcases hlead with rfl | rfl <;> decide
  let body := p.content ++ (sep ++ encode b ps)
  have hcode : encode b (p::ps) = partHead b p ++ ((sep ++ sep) ++ body) := by
    simp only [encode, body, List.append_assoc]
  have hfirst : find (delimiter b) (lead ++ encode b (p::ps)) = some lead.length := by
    rw [hcode, partHead_lines, List.append_assoc (delimiter b)]
    exact find_after_clean 45 (45::b) lead _ hlead45
  have hlast : find (sep ++ delimiter b) body = some p.content.length := by
    have hclean : 13 ∉ 10::delimiter b := by simp [hd13]
    have hnone := find_eq_none_of_absent _ _ hp.delimited
    simp only [body, hr]
    rw [← List.append_assoc sep]
    exact find_behind 13 (10::delimiter b) p.content r hclean hnone
  have hlong : ¬ body.length ≤ (delimiter b).length+sep.length := by
    have hlen := encode_length b ps
    simp only [body, List.length_append]
    omega
  have hrest : (lead ++ (partHead b p ++ ((sep ++ sep) ++ body))).drop
      (lead.length+((partHead b p).length+4)) = body := by
    have h4 : (sep ++ sep).length = 4 := by decide
    rw [← List.append_assoc, ← List.append_assoc, List.drop_left']
    simp only [List.length_append] at h4 ⊢
    omega
  rw [decode_search env h s _ hc (by rw [hbound]; exact hd13), hbound, hfirst]
  simp only [List.drop_left]
  rw [hcode, find_blankLine b p body hd13 hp.oneLine.1 hp.typeLine]
  simp only [List.take_left, partFilename_partHead b p hd34 hquote]
  obtain ⟨g, hg⟩ : ∃ g, g = { h with curUploadFile := p.name } := ⟨_, rfl⟩
  have hgb : g.bodyBoundary = delimiter b := by rw [hg, ← hbound]
  have hgc : g.curUploadFile = p.name := by rw [hg]
  have hend : ({ received g p with curUploadFile := [] } : HeadInfo) = received h p := by
    rw [hg, ← hc]
    rfl
  rw [openUpload_sendable hp hdep hs h, ← hg, hrest, decode, hgb, if_neg hlong,
    if_neg (by rw [hgc]; exact hne), hlast]
  simp only [body, List.take_left, List.drop_left]
  rw [finishUpload_sendable hp hdep hs g hgc, hend]

end Decode

theorem sendable_storePart {env : Env} {b : Bytes} {s : Store} {p q : Part}
    (hq : Sendable env b s q) (hne : q.name ≠ p.name) : Sendable env b (storePart env s p) q :=
  { hq with free := by simpa [storePart, AList.lookup_insert_ne hne] using hq.free }

theorem decode_closing (env : Env) (b : Bytes) (h : HeadInfo) (s : Store) (lead : Bytes)
    (hlead : lead = [] ∨ lead = sep) (hb : 13 ∉ delimiter b) (hbound : h.bodyBoundary = delimiter b)
    (hc : h.curUploadFile = []) : decode env h s (lead ++ encode b []) = (true, h, s) := by
  have hlead45 : 45 ∉ lead := by
    rcases hlead with rfl | rfl <;> decide
  have hfirst : find (delimiter b) (lead ++ encode b []) = some lead.length :=
    find_after_clean 45 (45::b) lead _ hlead45
  have hclean : 13 ∉ delimiter b ++ bytes "--" := by
    have h1 : 13 ∉ bytes "--" := by decide
    exact fun hm => (List.mem_append.mp hm).elim hb h1
  have hnone : find (sep ++ sep) (encode b []) = none := by
    have h1 := find_clean_append (13:UInt8) [10, 13, 10] (delimiter b ++ bytes "--") sep hclean
    rw [List.append_assoc] at h1
    exact h1
  rw [decode_search env h s _ hc (by rw [hbound]; exact hb), hbound, hfirst]
  simp only [List.drop_left, hnone]

theorem decode_encode (env : Env) (b : Bytes) (ps : List Part) (h : HeadInfo) (s : Store)
    (lead : Bytes) (hlead : lead = [] ∨ lead = sep) (hdep : Deployed env) (hb : b.all bchar = true)
    (hbound : h.bodyBoundary = delimiter b) (hc : h.curUploadFile = []) (hs : s.disk.faults = [])
    (hps : ∀ p ∈ ps, Sendable env b s p) (hnames : (ps.map Part.name).Nodup) :
    decode env h s (lead ++ encode b ps) =
      (true, { h with uploadSuccessFiles := h.uploadSuccessFiles ++ ps.map Part.name },
        ps.foldl (storePart env) s) := by
  induction ps generalizing h s lead with
  | nil =>
    rw [decode_closing env b h s lead hlead (delimiter_clean (bchar_not b hb).1) hbound hc]
    simp
  | cons p ps ih =>
    rw [List.map_cons, List.nodup_cons] at hnames
    have hrest : ∀ q ∈ ps, Sendable env b (storePart env s p) q := fun q hq =>
      sendable_storePart (hps q (List.mem_cons_of_mem _ hq))
        fun e => hnames.1 (e ▸ List.mem_map_of_mem hq)
    rw [decode_part (hps p List.mem_cons_self) hdep hs ps h lead hlead hb hbound hc,
      ih (received h p) (storePart env s p) sep (Or.inr rfl) hbound hc (write_clean hs _ _)
        hrest hnames.2]
    simp [received]

theorem stores_hash (env : Env) (ps : List Part) (s : Store) (name : Bytes)
    (h : ∀ p ∈ ps, name ≠ p.name) :
    (ps.foldl (storePart env) s).hash.lookup name = s.hash.lookup name := by
  induction ps generalizing s with
  | nil => rfl
  | cons p ps ih =>
    rw [List.foldl_cons, ih _ fun q hq => h q (List.mem_cons_of_mem _ hq)]
    exact AList.lookup_insert_ne (h p List.mem_cons_self)

theorem stores_disk (env : Env) (ps : List Part) (s : Store) (path : Bytes)
    (h : ∀ p ∈ ps, path ≠ targetPath env p.name) :
    (ps.foldl (storePart env) s).disk.files.lookup path = s.disk.files.lookup path := by
  induction ps generalizing s with
  | nil => rfl
  | cons p ps ih =>
    rw [List.foldl_cons, ih _ fun q hq => h q (List.mem_cons_of_mem _ hq)]
    exact write_onlyAt s.disk _ _ path (h p List.mem_cons_self)

theorem stores_nodes (env : Env) (ps : List Part) (s : Store) (id : NodeId) (h : id < s.nextNode) :
    (ps.foldl (storePart env) s).nodes id = s.nodes id := by
  induction ps generalizing s with
  | nil => rfl
  | cons p ps ih =>
    rw [List.foldl_cons, ih (storePart env s p) (Nat.lt_succ_of_lt h)]
    exact Function.update_of_ne h.ne _ _

def Stored (env : Env) (s : Store) (p : Part) : Prop :=
  s.disk.files.lookup (targetPath env p.name) = some p.content ∧
  ∃ id, validNode p.name s = some id ∧ (s.nodes id).info.filename = p.name ∧
    (s.nodes id).info.size = p.content.length

theorem stores_stored (env : Env) (b : Bytes) (hdep : Deployed env) (ps : List Part) (s : Store)
    (hps : ∀ p ∈ ps, Sendable env b s p) (hnames : (ps.map Part.name).Nodup) :
    ∀ p ∈ ps, Stored env (ps.foldl (storePart env) s) p := by
  induction ps generalizing s with
  | nil => exact fun p hp => absurd hp List.not_mem_nil
  | cons q ps ih =>
    rw [List.map_cons, List.nodup_cons] at hnames
    have hother : ∀ p ∈ ps, q.name ≠ p.name := fun p hp e =>
      hnames.1 (e ▸ List.mem_map_of_mem hp)
    intro p hp
    rcases List.mem_cons.mp hp with rfl | hp
    · have hpath : ∀ r ∈ ps, targetPath env p.name ≠ targetPath env r.name := fun r hr e => by
        have h1 := hps p List.mem_cons_self
        have h2 := hps r (List.mem_cons_of_mem _ hr)
        rw [targetPath_child hdep h1.accepted h1.dot h1.dots h1.nul,
          targetPath_child hdep h2.accepted h2.dot h2.dots h2.nul] at e
        exact hother r hr (List.append_cancel_left e)
      rw [List.foldl_cons]
      refine ⟨?_, s.nextNode, ?_, ?_⟩
      · rw [stores_disk env ps _ _ hpath]
        exact write_lookup s.disk _ p.content
      · rw [validNode, stores_hash env ps _ _ hother]
        simp [storePart]
      · rw [stores_nodes env ps _ _ (Nat.lt_succ_self _)]
        simp [storePart, newNode]
    · exact ih (storePart env s q)
        (fun r hr => sendable_storePart (hps r (List.mem_cons_of_mem _ hr))
        fun e => hother r hr e.symm) hnames.2 p hp

/-- Every call of `process_upload_body` for these pieces returns true. -/
def Accepted (env : Env) : List Bytes → HeadInfo → Store → Prop
  | [], _, _ => True
  | data::rest, h, s => ∃ h' s',
      processUploadBody env (setBody h (h.requestBody ++ data)) s = some (true, h', s') ∧
      Accepted env rest h' s'

theorem accepted_of_status (env : Env) (chunks : List Bytes) (h h' : HeadInfo) (s s' : Store)
    (hst : h.responseStatus = []) (hup : isUpload h = true)
    (hrun : onBodies env chunks h s = some (h', s')) (hend : h'.responseStatus = []) :
    Accepted env chunks h s := by
  induction chunks generalizing h s with
  | nil => trivial
  | cons c cs ih =>
    obtain ⟨r, hr, hrest⟩ := Option.bind_eq_some_iff.mp hrun
    rw [onBody, if_neg (by simp [hst]), if_pos hup] at hr
    obtain ⟨⟨ret, h₁, s₁⟩, hp, rfl⟩ := Option.map_eq_some_iff.mp hr
    cases ret with
    | true =>
      have hframe := frame_fields (uploadLoop_frame env _ _ s _ hp)
      exact ⟨h₁, s₁, hp, ih h₁ s₁ (hframe.1.trans hst) (hframe.2.trans hup) hrest⟩
    | false =>
      have hrefused := onBodies_refused env cs (badRequest h₁) s₁ badRequest_status
      rw [show onBodies env cs (badRequest h₁) s₁ = some (h', s') from hrest] at hrefused
      cases hrefused
      exact absurd hend badRequest_status

/-- Whatever the pieces, the files that were sent are the files that are stored. -/
theorem upload_round_trip (env : Env) (b : Bytes) (ps : List Part) (h : HeadInfo) (s : Store)
    (chunks : List Bytes) (hdep : Deployed env) (hb : b.all bchar = true)
    (hps : ∀ p ∈ ps, Sendable env b s p) (hnames : (ps.map Part.name).Nodup)
    (hup : isUpload h = true) (hbound : h.bodyBoundary = delimiter b)
    (hstart : h.requestBody = [] ∧ h.curUploadFile = [] ∧ h.responseStatus = [] ∧
      h.uploadSuccessFiles = [] ∧ h.uploadFailFiles = [])
    (hs : s.disk.faults = []) (hcat : chunks.flatten = encode b ps)
    (hfit : BodiesFit env chunks h s) :
    Accepted env chunks h s ∧ ∃ h' s', onBodies env chunks h s = some (h', s') ∧
      h'.uploadSuccessFiles = ps.map Part.name ∧ h'.uploadFailFiles = [] ∧
      h'.curUploadFile = [] ∧ ∀ p ∈ ps, Stored env s' p := by
  obtain ⟨hbody, hcur, hst, hsucc, hfail⟩ := hstart
  have hready : Ready env h s :=
    ⟨hs, fun hc => absurd hcur hc, by rw [hbound]; exact delimiter_clean (bchar_not b hb).1⟩
  have hset : Settled env h s := settled_short env h s hready (by simp [loopGuard, hbody])
  obtain ⟨h', s', hrun, hend⟩ := onBodies_meaning env chunks h s hst hup hset hfit
  rw [hcat, meaning, hbody, List.nil_append, ← List.nil_append (encode b ps),
    decode_encode env b ps (blank h) s [] (Or.inl rfl) hdep hb hbound hcur hs hps hnames] at hend
  obtain ⟨hhead, rfl⟩ := Prod.mk.inj hend
  have hstatus : h'.responseStatus = [] := (congrArg HeadInfo.responseStatus hhead).trans hst
  refine ⟨accepted_of_status env chunks h h' s _ hst hup hrun hstatus, h', _, hrun, ?_, ?_, ?_, ?_⟩
  · refine (congrArg HeadInfo.uploadSuccessFiles hhead).trans ?_
    change h.uploadSuccessFiles ++ ps.map Part.name = ps.map Part.name
    rw [hsucc, List.nil_append]
  · exact (congrArg HeadInfo.uploadFailFiles hhead).trans hfail
  · exact (congrArg HeadInfo.curUploadFile hhead).trans hcur
  · exact stores_stored env b hdep ps s hps hnames

def helloFile : Part where
  name := bytes "f"
  contentType := bytes "text/plain"
  content := bytes "hello"

def largeFile (n : ℕ) : Part where
  name := bytes "f"
  contentType := bytes "text/plain"
  content := List.replicate n 97

theorem plainEnv_deployed : Deployed plainEnv := ⟨by decide, by decide⟩

theorem helloFile_sendable : Sendable plainEnv (bytes "b") freshStore helloFile where
  accepted := by decide
  oneLine := by decide
  nul := by decide
  dot := by decide
  dots := by decide
  free := rfl
  file := by decide
  typeLine := by decide
  delimited := by decide

def helloChunks : List Bytes :=
  [(encode (bytes "b") [helloFile]).take 100, (encode (bytes "b") [helloFile]).drop 100]

theorem upload_round_trip_hello :
    Accepted plainEnv helloChunks (uploadHead (delimiter (bytes "b"))) freshStore ∧
    ∃ h' s', onBodies plainEnv helloChunks (uploadHead (delimiter (bytes "b"))) freshStore
        = some (h', s') ∧
      h'.uploadSuccessFiles = [helloFile].map Part.name ∧ h'.uploadFailFiles = [] ∧
      h'.curUploadFile = [] ∧ ∀ p ∈ [helloFile], Stored plainEnv s' p :=
  upload_round_trip plainEnv (bytes "b") [helloFile] (uploadHead (delimiter (bytes "b"))) freshStore
    helloChunks plainEnv_deployed (by decide) (by simpa using helloFile_sendable) (by decide)
    (by decide) rfl ⟨rfl, rfl, rfl, rfl, rfl⟩ rfl (by simp [helloChunks])
    (bodiesFit_of_length _ _ _ _ (by decide +kernel))

theorem finishUpload_files (env : Env) (h : HeadInfo) (s : Store) :
    (finishUpload env h s).2.disk.files = s.disk.files := by
  simp only [finishUpload, insert_disk, getFileSize]
  split <;> exact next_files _

theorem fileTurn_beyond (env : Env) (h : HeadInfo) (s : Store) (i : ℕ)
    (hi : find (sep ++ h.bodyBoundary) h.requestBody = some i) (h31 : 2^31 ≤ i) (h32 : i+1 < 2^32)
    (hlen : h.requestBody.length < 2^63) (hs : s.disk.faults = [])
    (hw : writable env (targetFile env h.curUploadFile) = true) :
    fileTurn env h s =
      let f := finishUpload env (setBody h []) (copyUpload env h.requestBody h s)
      .again f.1 f.2 := by
  have hint : asInt (some i) = (i : ℤ)-2^32 := by
    rw [asInt, narrow_large i h31 (by omega)]
  have hsize := asSize_neg ((i : ℤ)-2^32) (by omega) (by omega)
  have hall : h.requestBody.take (asSize ((i : ℤ)-2^32)) = h.requestBody :=
    List.take_of_length_le (by omega)
  have hne : h.requestBody ≠ [] := by
    intro e
    have := find_le _ _ i hi
    rw [e, List.length_nil] at this
    omega
  have hneg : ¬ ((i : ℤ)-2^32 = -1) := by omega
  unfold fileTurn copyUpload
  dsimp only
  rw [hi, hint]
  simp only [hneg, if_false, hall, hne, List.drop_length, setBody_curUploadFile,
    appendContent_clean hs env _ _ hw, Bool.not_true, Bool.false_eq_true]

theorem largeFile_sendable (n : ℕ) : Sendable plainEnv (bytes "b") freshStore (largeFile n) :=
  { helloFile_sendable with
    delimited := fun h => by
      have hmem : (13 : UInt8) ∈ (largeFile n).content := h.subset (by decide)
      simp [largeFile] at hmem }

def largeRest (n : ℕ) : Bytes := List.replicate n 97 ++ (sep ++ encode (bytes "b") [])

theorem largeRest_length (n : ℕ) : (largeRest n).length = n+9 := by
  have h9 : (sep ++ encode (bytes "b") []).length = 9 := by decide
  rw [largeRest, List.length_append, h9, List.length_replicate]

theorem largeFile_opens (n : ℕ) (h : HeadInfo) (hbound : h.bodyBoundary = delimiter (bytes "b"))
    (hcur : h.curUploadFile = []) (hbody : h.requestBody = encode (bytes "b") [largeFile n]) :
    uploadTurn plainEnv h freshStore =
      .again { setBody h (largeRest n) with curUploadFile := bytes "f" }
        (reservePart plainEnv freshStore (largeFile n)) := by
  have hsend := largeFile_sendable n
  have hhead : partHead (bytes "b") (largeFile n) = partHead (bytes "b") helloFile := rfl
  have hlen : (partHead (bytes "b") helloFile).length = 88 := by decide +kernel
  have h4 : (sep ++ sep).length = 4 := by decide
  have hsplit : h.requestBody = partHead (bytes "b") (largeFile n) ++
    ((sep ++ sep) ++ largeRest n) := by
    rw [hbody]
    simp only [encode, largeRest, List.append_assoc]
    rfl
  have hblank : find (sep ++ sep) h.requestBody = some 88 := by
    rw [hsplit, find_blankLine (bytes "b") (largeFile n) _ (by decide) hsend.oneLine.1
      hsend.typeLine, hhead, hlen]
  have hkey : find filenameKey h.requestBody = some 50 := by
    rw [hsplit, hhead]
    exact find_append _ _ _ 50 (by decide +kernel)
  have hquote : findFrom [quote] 60 h.requestBody = some 61 := by
    have h60 : ¬ h.requestBody.length < 60 := by
      rw [hsplit, List.length_append, hhead, hlen]
      omega
    rw [findFrom, if_neg h60, hsplit, hhead, List.drop_append_of_le_length (by omega),
      find_append [quote] _ _ 1 (by decide +kernel)]
    rfl
  have hfirst : find h.bodyBoundary h.requestBody = some 0 := by
    rw [hbound, hsplit, partHead_lines, List.append_assoc]
    exact find_at_start _ _ (List.prefix_append _ _)
  have hfits : HeadFits h.requestBody := by
    refine ⟨by rw [hblank]; decide, fun e he => ⟨by rw [hkey]; decide, fun k hk _ => ?_⟩⟩
    cases hkey.symm.trans hk
    rw [show 50+filenameKey.length = 60 by decide, hquote]
    decide
  have hdrop : h.requestBody.drop 92 = largeRest n := by
    rw [hsplit, ← List.append_assoc]
    exact List.drop_left' (by rw [List.length_append, hhead, hlen, h4])
  have htake : h.requestBody.take 88 = partHead (bytes "b") (largeFile n) := by
    rw [hsplit]
    exact List.take_left' (by rw [hhead, hlen])
  have hname : partFilename (partHead (bytes "b") (largeFile n)) = some (largeFile n).name :=
    partFilename_partHead (bytes "b") (largeFile n) (by decide)
      ((checkFilename_iff _).mp hsend.accepted).2.2
  rw [uploadTurn, if_pos hcur, searchTurn_fits plainEnv h freshStore
    (by rw [hfirst]; decide), hfirst]
  dsimp only
  rw [List.drop_zero, setBody_self, headTurn_fits plainEnv h freshStore hfits, hblank]
  dsimp only
  rw [htake, hname]
  dsimp only
  rw [hdrop, openUpload_sendable hsend plainEnv_deployed rfl]
  rfl

theorem largeFile_fills (n : ℕ) (h31 : 2^31 ≤ n) (h32 : n+1000 < 2^32) (h : HeadInfo)
    (hbound : h.bodyBoundary = delimiter (bytes "b")) (hcur : h.curUploadFile = bytes "f")
    (hbody : h.requestBody = largeRest n) :
    ∃ h' s', uploadTurn plainEnv h (reservePart plainEnv freshStore (largeFile n)) = .again h' s' ∧
      loopGuard h' = false ∧
      s'.disk.files.lookup (targetPath plainEnv (bytes "f")) = some (largeRest n) := by
  have hw : writable plainEnv (targetFile plainEnv h.curUploadFile) = true := by
    rw [hcur]
    decide
  have hdelim : find (sep ++ h.bodyBoundary) h.requestBody = some n := by
    have hfind := find_after_clean (13:UInt8) (10::delimiter (bytes "b")) (List.replicate n 97)
      (bytes "--" ++ sep) (by simp)
    rw [List.length_replicate] at hfind
    rw [hbound, hbody]
    exact hfind
  have hlen := largeRest_length n
  have hne : largeRest n ≠ [] := List.ne_nil_of_length_pos (by omega)
  have hclean : (reservePart plainEnv freshStore (largeFile n)).disk.faults = [] := rfl
  rw [uploadTurn, if_neg (by rw [hcur]; decide),
    fileTurn_beyond plainEnv h _ n hdelim h31 (by omega) (by rw [hbody]; omega) hclean hw]
  refine ⟨_, _, rfl, ?_, ?_⟩
  · simp [loopGuard, finishUpload]
  · rw [finishUpload_files, hbody, copyUpload_clean plainEnv _ h _ hne hclean hw, hcur]
    simp only [targetPath, write_lookup]
    rfl

theorem largeFile_swallows (n : ℕ) (h31 : 2^31 ≤ n) (h32 : n+1000 < 2^32) :
    ∃ h' s', onBodies plainEnv [encode (bytes "b") [largeFile n]]
      (uploadHead (delimiter (bytes "b")))
        freshStore = some (h', s') ∧ ¬ Stored plainEnv s' (largeFile n) := by
  obtain ⟨h, hh⟩ : ∃ h, h = setBody (uploadHead (delimiter (bytes "b")))
      (encode (bytes "b") [largeFile n]) := ⟨_, rfl⟩
  have hbody : h.requestBody = encode (bytes "b") [largeFile n] := by rw [hh, setBody_requestBody]
  have hbound : h.bodyBoundary = delimiter (bytes "b") := by rw [hh]; rfl
  have hcur : h.curUploadFile = [] := by rw [hh]; rfl
  have hopens := largeFile_opens n h hbound hcur hbody
  obtain ⟨h₂, s₂, hfills, hend, hdisk⟩ := largeFile_fills n h31 h32
    { setBody h (largeRest n) with curUploadFile := bytes "f" } hbound rfl rfl
  have hguard : loopGuard h = true := by
    rw [loopGuard, hbound, hbody]
    exact decide_eq_true (encode_length _ _)
  have hguard' : loopGuard { setBody h (largeRest n) with curUploadFile := bytes "f" } = true := by
    have hlen := largeRest_length n
    have h5 : (delimiter (bytes "b")).length+sep.length = 5 := by decide
    simp only [loopGuard, setBody_requestBody, setBody_bodyBoundary, hbound, h5, hlen]
    exact decide_eq_true (by omega)
  have hloop : processUploadBody plainEnv h freshStore = some (true, h₂, s₂) := by
    obtain ⟨m, hm⟩ : ∃ m, turnBound h = m+3 := ⟨4*(h.requestBody.length+1)-3, by
      rw [turnBound]
      omega⟩
    rw [processUploadBody, hm, uploadLoop, if_pos hguard, hopens]
    dsimp only
    rw [uploadLoop, if_pos hguard', hfills]
    dsimp only
    rw [uploadLoop, hend]
    rfl
  refine ⟨h₂, s₂, ?_, fun hstored => ?_⟩
  · rw [onBodies, onBody, if_neg (by decide), if_pos (by decide)]
    rw [show setBody _ (_ ++ encode (bytes "b") [largeFile n]) = h from hh.symm, hloop]
    rfl
  · have hsame : largeRest n = (largeFile n).content := Option.some.inj (hdisk.symm.trans hstored.1)
    have hlen := largeRest_length n
    rw [hsame, largeFile, List.length_replicate] at hlen
    omega

theorem upload_loses_beyond_int :
    Sendable plainEnv (bytes "b") freshStore (largeFile (2^31)) ∧
    ∃ h' s', onBodies plainEnv [encode (bytes "b") [largeFile (2^31)]]
        (uploadHead (delimiter (bytes "b"))) freshStore = some (h', s') ∧
      ¬ Stored plainEnv s' (largeFile (2^31)) :=
  ⟨largeFile_sendable _, largeFile_swallows (2^31) le_rfl (by norm_num)⟩

end CloudBackup.UploadRoundTrip
