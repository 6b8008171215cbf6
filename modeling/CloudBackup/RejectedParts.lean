import CloudBackup.PartFates

/-!
# Parts that are refused among the others

While a file is received its end is looked for as a line break and the
boundary; once the name or the file has been given up, as the boundary alone.
The two find the same end when the boundary does not occur in what is left of
the content. A scan in any pieces then gives every part its own outcome.
-/

set_option autoImplicit false

namespace CloudBackup.RejectedParts
open CloudBackup.PatternSearch CloudBackup.ByteStrings CloudBackup.FilePath
open CloudBackup.FileStore CloudBackup.DataManager CloudBackup.UploadScanner
open CloudBackup.UploadDecoder CloudBackup.UploadChunking CloudBackup.UploadRoundTrip
open CloudBackup.PartFates

/-- A part as the page writes it: the form replaces quotes and line breaks in names. -/
structure Written (b : Bytes) (p : Part) : Prop where
  quote : quote ∉ p.name
  oneLine : 13 ∉ p.name ∧ 10 ∉ p.name
  typeLine : 13 ∉ p.contentType
  delimited : ¬ (sep ++ delimiter b) <:+: p.content

/-- The first boundary is the end of the content being passed over. -/
def BehindLine (boundary text : Bytes) : Prop :=
  ∃ i, find (sep ++ boundary) text = some i ∧ find boundary text = some (i+2)

/-- The size of the finished file is asked for after its last bytes were written. -/
def SizeKnown (h : HeadInfo) (s : Store) : Prop := h.curUploadFile ≠ [] →
  ∀ i, find (sep ++ h.bodyBoundary) h.requestBody = some i →
    s.disk.faults.getD (if i = 0 then 0 else 1) none = none

/-- What is to be written of the buffer: all before the end of the file, or what surely is. -/
def pending (h : HeadInfo) : Bytes :=
  h.requestBody.take ((find (sep ++ h.bodyBoundary) h.requestBody).getD
    (h.requestBody.length-h.bodyBoundary.length-sep.length))

/-- A write that is cut short is one that `AppendContent` tells of. -/
def CutTold (env : Env) (h : HeadInfo) (s : Store) : Prop := h.curUploadFile ≠ [] →
  pending h ≠ [] → s.disk.takes (pending h) ≠ pending h → env.streamBuffer ≤ (pending h).length

/-- The name is free and a file can be emptied or created at its path. -/
def Openable (env : Env) (name : Bytes) (s : Store) : Prop :=
  registrable name s = true ∧ writable env (targetFile env name) = true ∧
  if fileExists env (targetFile env name) s.disk then s.disk.next.1 = none
  else s.disk.next.1 ≠ some .fails

def Storable (env : Env) (h : HeadInfo) (s : Store) : Prop := pending h = [] ∨
  (s.disk.next.1 ≠ some .fails ∧ writable env (targetFile env h.curUploadFile) = true ∧
    s.disk.takes (pending h) = pending h)

/-- A part is read at the front of the text and cannot be opened, with `left` behind its header. -/
def HeadRefused (env : Env) (body : Bytes) (s : Store) (left : Bytes) : Prop :=
  ∃ e name, find (sep ++ sep) body = some e ∧ partFilename (body.take e) = some name ∧
    ¬ Openable env name s ∧ left = body.drop (e+4)

/-- A part is to be given up, with `left` of the buffer behind what was looked at. -/
def Refused (env : Env) (h : HeadInfo) (s : Store) (left : Bytes) : Prop :=
  if h.curUploadFile = [] then
    ∃ i, find h.bodyBoundary h.requestBody = some i ∧ HeadRefused env (h.requestBody.drop i) s left
  else ¬ Storable env h s ∧ left = h.requestBody.drop (pending h).length

structure TurnMet (env : Env) (future : Bytes) (h : HeadInfo) (s : Store) : Prop where
  fits : TurnFits h
  size : SizeKnown h s
  told : CutTold env h s
  passes : ∀ left, Refused env h s left → BehindLine h.bodyBoundary (left ++ future)

def LoopMet (env : Env) (future : Bytes) : ℕ → HeadInfo → Store → Prop
  | 0, _, _ => True
  | n+1, h, s => loopGuard h = true → TurnMet env future h s ∧
      ∀ h' s', uploadTurn env h s = .again h' s' → LoopMet env future n h' s'

/-- In every turn of the scanner for these pieces the condition is met. -/
def BodiesMet (env : Env) : List Bytes → HeadInfo → Store → Prop
  | [], _, _ => True
  | data::rest, h, s =>
    LoopMet env rest.flatten (turnBound (setBody h (h.requestBody ++ data)))
      (setBody h (h.requestBody ++ data)) s ∧
    ∀ r, onBody env data h s = some r → BodiesMet env rest r.1 r.2

def afterHead (b : Bytes) (p : Part) (rest : List Part) : Bytes :=
  p.content ++ (sep ++ encode b rest)

theorem encode_cons (b : Bytes) (p : Part) (rest : List Part) :
    encode b (p::rest) = partHead b p ++ ((sep ++ sep) ++ afterHead b p rest) := by
  simp only [encode, afterHead, List.append_assoc]

theorem find_line (b : Bytes) (rest : List Part) :
    find (delimiter b) (sep ++ encode b rest) = some 2 := by
  obtain ⟨r, hr⟩ := encode_delimiter b rest
  rw [hr]
  exact find_after_clean 45 (45::b) sep r (by decide)

section Text
variable {b : Bytes} (hb : b.all bchar = true)
include hb

theorem delimiter_plain : 13 ∉ delimiter b ∧ 34 ∉ delimiter b := by
  obtain ⟨h13, h34⟩ := bchar_not b hb
  constructor
  · exact delimiter_clean h13
  · have h1 : 34 ∉ bytes "--" := by decide
    exact fun hm => (List.mem_append.mp hm).elim h1 h34

theorem find_end (c : Bytes) (rest : List Part) (hc : ¬ (sep ++ delimiter b) <:+: c) :
    find (sep ++ delimiter b) (c ++ (sep ++ encode b rest)) = some c.length := by
  obtain ⟨r, hr⟩ := encode_delimiter b rest
  have hclean : 13 ∉ 10::delimiter b := by
    have := (delimiter_plain hb).1
    simp [this]
  rw [hr, ← List.append_assoc sep]
  exact find_behind 13 (10::delimiter b) c r hclean (find_eq_none_of_absent _ _ hc)

theorem find_head (p : Part) (rest : List Part) (hp : Written b p) :
    find (sep ++ sep) (encode b (p::rest)) = some (partHead b p).length := by
  rw [encode_cons]
  exact find_blankLine b p _ (delimiter_plain hb).1 hp.oneLine.1 hp.typeLine

theorem find_closing : find (sep ++ sep) (encode b []) = none := by
  have hclean : 13 ∉ delimiter b ++ bytes "--" := by
    have h1 : 13 ∉ bytes "--" := by decide
    exact fun hm => (List.mem_append.mp hm).elim (delimiter_plain hb).1 h1
  have hfind := find_clean_append (13:UInt8) [10, 13, 10] (delimiter b ++ bytes "--") sep hclean
  rw [List.append_assoc] at hfind
  exact hfind

theorem head_read (p : Part) (rest : List Part) (hp : Written b p) (buffer future : Bytes)
    (hcat : buffer ++ future = encode b (p::rest)) (e : ℕ)
    (he : find (sep ++ sep) buffer = some e) :
    partFilename (buffer.take e) = some p.name ∧
      buffer.drop (e+4) ++ future = afterHead b p rest ∧ e+4 ≤ buffer.length := by
  have h4 : (sep ++ sep).length = 4 := by decide
  have hle := find_le _ _ e he
  have hall := find_append _ buffer future e he
  rw [hcat, find_head hb p rest hp] at hall
  have hlen : (partHead b p).length = e := Option.some.inj hall
  have htake : buffer.take e = partHead b p := by
    have happend : (buffer ++ future).take e = buffer.take e :=
      List.take_append_of_le_length (by omega)
    rw [← happend, hcat, encode_cons, ← hlen, List.take_left]
  have hdrop : buffer.drop (e+4) ++ future = afterHead b p rest := by
    rw [← List.drop_append_of_le_length (by omega), hcat, encode_cons, ← List.append_assoc]
    exact List.drop_left' (by rw [List.length_append, h4, hlen])
  rw [htake]
  exact ⟨partFilename_partHead b p (delimiter_plain hb).2 hp.quote, hdrop, by omega⟩

end Text

structure Opened (env : Env) (p : Part) (u : Store) (k : ℕ) (c : Bytes) (s : Store) : Prop where
  name : registrable p.name u = true
  target : writable env (targetFile env p.name) = true
  hash : s.hash = u.hash.insert p.name none
  nodes : s.nodes = u.nodes
  next : s.nextNode = u.nextNode
  content : s.disk.files.lookup (targetPath env p.name) = some c
  files : OnlyAt (targetPath env p.name) u.disk s.disk
  draws : Draws k u.disk s.disk

def Listed (h : HeadInfo) (o : List (Part × Bool)) : Prop :=
  h.uploadSuccessFiles = successes o ∧ h.uploadFailFiles = failures o

inductive Stage (env : Env) (b : Bytes) (ps : List Part) (s₀ : Store) (h : HeadInfo) (s : Store)
    (text : Bytes) : Prop where
  | between (done rest : List Part) (o : List (Part × Bool)) (lead : Bytes)
      (hps : ps = done ++ rest)
      (hdone : Handled env done s₀ o s) (hlisted : Listed h o) (hcur : h.curUploadFile = [])
      (htext : text = lead ++ encode b rest) (hlead : find (delimiter b) text = some lead.length)
  | inside (done rest : List Part) (o : List (Part × Bool)) (p : Part) (u : Store) (k : ℕ)
      (c left : Bytes)
      (hps : ps = done ++ p::rest) (hdone : Handled env done s₀ o u) (hlisted : Listed h o)
      (hcur : h.curUploadFile = p.name) (hopened : Opened env p u k c s)
      (hcontent : p.content = c ++ left)
      (htext : text = left ++ (sep ++ encode b rest))

def Complete (env : Env) (ps : List Part) (s₀ : Store) (h : HeadInfo) (s : Store) : Prop :=
  ∃ o, Handled env ps s₀ o s ∧ Listed h o ∧ h.curUploadFile = []

theorem stage_setBody {env : Env} {b : Bytes} {ps : List Part} {s₀ s : Store} {h : HeadInfo}
    {text : Bytes}
    (body : Bytes) (hstage : Stage env b ps s₀ h s text) :
    Stage env b ps s₀ (setBody h body) s text := by
  cases hstage with
  | between done rest o lead h1 h2 h3 h4 h5 h6 => exact .between done rest o lead h1 h2 h3 h4 h5 h6
  | inside done rest o p u k c left h1 h2 h3 h4 h5 h6 h7 =>
    exact .inside done rest o p u k c left h1 h2 h3 h4 h5 h6 h7

def Amid (b : Bytes) (ps : List Part) (text : Bytes) : Prop :=
  ∃ done rest p left, ps = done ++ p::rest ∧ left <:+ p.content ∧
    text = left ++ (sep ++ encode b rest)

inductive Passing (env : Env) (b : Bytes) (ps : List Part) (s₀ : Store) (h : HeadInfo) (s : Store)
    (text : Bytes) : Prop where
  | passing (done rest : List Part) (o : List (Part × Bool)) (p : Part) (left : Bytes)
      (hps : ps = done ++ p::rest) (hdone : Handled env (done ++ [p]) s₀ o s) (hlisted : Listed h o)
      (hcur : h.curUploadFile = []) (hleft : left <:+ p.content)
      (htext : text = left ++ (sep ++ encode b rest))

theorem listed_refused {g : HeadInfo} {o : List (Part × Bool)} (hl : Listed g o) (p : Part)
    (hcur : g.curUploadFile = p.name) : Listed (failUpload g) (o ++ [(p, false)]) := by
  constructor
  · rw [successes_snoc]
    exact hl.1
  · rw [failures_snoc, failUpload, hcur]
    exact congrArg (· ++ [p.name]) hl.2

section Passing
variable {env : Env} {b : Bytes} (hb : b.all bchar = true) {ps : List Part}
  (hps : ∀ p ∈ ps, Written b p)
  {s₀ s : Store} {h : HeadInfo} {text : Bytes}
include hb hps

theorem passing_behind (hpass : Passing env b ps s₀ h s text)
    (hbehind : BehindLine (delimiter b) text) :
    Stage env b ps s₀ h s text := by
  obtain ⟨done, rest, o, p, left, hsplit, hdone, hlisted, hcur, hleft, htext⟩ := hpass
  obtain ⟨i, hline, hfirst⟩ := hbehind
  have hp : Written b p := hps p (by rw [hsplit]; simp)
  have hend := find_end hb left rest fun hin => hp.delimited (hin.trans hleft.isInfix)
  rw [← htext, hline] at hend
  cases hend
  have hlen : left.length+2 = (left ++ sep).length := by
    rw [List.length_append]
    rfl
  rw [hlen] at hfirst
  exact .between (done ++ [p]) rest o (left ++ sep) (by simp [hsplit]) hdone hlisted hcur
    (by rw [htext, List.append_assoc]) hfirst

theorem behind_plain (hamid : Amid b ps text) (hplain : ∀ p ∈ ps, ¬ delimiter b <:+: p.content) :
    BehindLine (delimiter b) text := by
  obtain ⟨done, rest, p, left, hsplit, hleft, htext⟩ := hamid
  have hmem : p ∈ ps := by
    rw [hsplit]
    simp
  refine ⟨left.length, ?_, ?_⟩
  · rw [htext]
    exact find_end hb left rest fun hin => (hps p hmem).delimited (hin.trans hleft.isInfix)
  · have hnone : find (delimiter b) left = none :=
      find_eq_none_of_absent _ _ fun hin => hplain p hmem (hin.trans hleft.isInfix)
    obtain ⟨r, hr⟩ := encode_delimiter b rest
    have h13 := (delimiter_plain hb).1
    rw [htext, show left ++ (sep ++ encode b rest) = left ++ 13::10::encode b rest from rfl,
      find_behind_break _ left _ 13 h13 (List.cons_ne_nil _ _) hnone, hr]
    rw [show (10::(delimiter b ++ r)) = [10] ++ ((45::45::b) ++ r) from rfl]
    rw [show delimiter b = 45::45::b from rfl, find_after_clean 45 (45::b) [10] r (by decide)]
    simp only [Option.map_some, List.length_singleton, Option.some.injEq]
    omega

end Passing

section Open
variable {env : Env} {s : Store} {p : Part}

theorem register_fails (hname : registrable p.name s = true)
    (hr : (register env p.name s).1 = false) : Outcome env s p false (register env p.name s).2 := by
  obtain ⟨hfree, heq⟩ := register_free env p.name s hname
  rw [heq] at hr ⊢
  split_ifs at hr ⊢ with hprep
  have hfails := prepareFile_fails env (targetFile env p.name) s.disk (by simpa using hprep)
  exact .failed _ 1 hname hfails
    ⟨fun _ _ => rfl, fun _ _ => rfl, le_rfl, prepareFile_onlyAt env _ s.disk⟩ hfree
    (prepareFile_draws env _ s.disk)

theorem register_opens (hname : registrable p.name s = true)
    (hr : (register env p.name s).1 = true) :
    Opened env p s 1 [] (register env p.name s).2 := by
  obtain ⟨hfree, heq⟩ := register_free env p.name s hname
  rw [heq] at hr ⊢
  split_ifs at hr ⊢ with hprep
  constructor
  · exact hname
  · exact prepareFile_writable env _ s.disk hprep
  · rfl
  · rfl
  · rfl
  · exact prepareFile_true env _ s.disk hprep
  · exact prepareFile_onlyAt env _ s.disk
  · exact prepareFile_draws env _ s.disk

theorem openable_registers (hname : registrable p.name s = true) (hopen : Openable env p.name s) :
    (register env p.name s).1 = true := by
  obtain ⟨-, hw, hnext⟩ := hopen
  have hprep : (prepareFile env (targetFile env p.name) s.disk).1 = true := by
    rw [prepareFile_eq]
    split_ifs at hnext ⊢ with he
    · simp [clear, he, hnext, hw]
    · simp [appendContent_nil, hnext, hw]
  rw [(register_free env p.name s hname).2, if_pos hprep]

theorem openUpload_outcome (env : Env) (s : Store) (p : Part) (g : HeadInfo) :
    ((openUpload env p.name g s).1 = failUpload { g with curUploadFile := p.name } ∧
      ¬ Openable env p.name s ∧ Outcome env s p false (openUpload env p.name g s).2) ∨
    ((openUpload env p.name g s).1 = { g with curUploadFile := p.name } ∧
      Opened env p s 1 [] (openUpload env p.name g s).2) := by
  unfold openUpload
  dsimp only
  by_cases hname : registrable p.name s = true
  · have hcheck : checkFilename p.name = true := (Bool.and_eq_true_iff.mp hname).2
    rw [hcheck]
    cases hr : (register env p.name s).1 with
    | true => exact Or.inr ⟨rfl, register_opens hname hr⟩
    | false =>
      have hclosed : ¬ Openable env p.name s := by
        intro hopen
        rw [openable_registers hname hopen] at hr
        cases hr
      exact Or.inl ⟨rfl, hclosed, register_fails hname hr⟩
  · have hrefused := register_refused env p.name s (by simpa using hname)
    left
    have hclosed : ¬ Openable env p.name s := fun hopen => hname hopen.1
    rw [hrefused]
    cases hcheck : checkFilename p.name with
    | true => exact ⟨rfl, hclosed, .refused (by simpa using hname)⟩
    | false => exact ⟨rfl, hclosed, .refused (by simpa using hname)⟩

end Open

def copied (env : Env) (h : HeadInfo) (s : Store) (content : Bytes) : Bool × Disk :=
  if content = [] then (true, s.disk)
  else appendContent env (targetFile env h.curUploadFile) content s.disk

def writeTurn (env : Env) (h : HeadInfo) (s : Store) (content : Bytes) (last : Bool) : Turn :=
  let g := setBody h (h.requestBody.drop content.length)
  let a := copied env h s content
  let s := { s with disk := a.2 }
  if !a.1 then .again (failUpload g) (deregister env h.curUploadFile s).2
  else if last then .again (finishUpload env g s).1 (finishUpload env g s).2
  else .again g s

theorem writeTurn_fails {env : Env} {s : Store} {g : HeadInfo} {content : Bytes} {last : Bool}
    (hfail : (copied env g s content).1 = false) : writeTurn env g s content last =
      .again (failUpload (setBody g (g.requestBody.drop content.length)))
        (deregister env g.curUploadFile { s with disk := (copied env g s content).2 }).2 := by
  simp [writeTurn, hfail]

theorem writeTurn_goes {env : Env} {s : Store} {g : HeadInfo} {content : Bytes}
    (hok : (copied env g s content).1 = true) :
    writeTurn env g s content false =
      .again (setBody g (g.requestBody.drop content.length))
        { s with disk := (copied env g s content).2 } := by
  simp [writeTurn, hok]

theorem writeTurn_ends {env : Env} {s : Store} {g : HeadInfo} {content : Bytes}
    (hok : (copied env g s content).1 = true) :
    writeTurn env g s content true =
      .again (finishUpload env (setBody g (g.requestBody.drop content.length))
          { s with disk := (copied env g s content).2 }).1
        (finishUpload env (setBody g (g.requestBody.drop content.length))
          { s with disk := (copied env g s content).2 }).2 := by
  simp [writeTurn, hok]

theorem fileTurn_small (env : Env) (h : HeadInfo) (s : Store)
    (hf : Small (find (sep ++ h.bodyBoundary) h.requestBody)) :
    fileTurn env h s =
      match find (sep ++ h.bodyBoundary) h.requestBody with
      | none => writeTurn env h s (pending h) false
      | some _ => writeTurn env h s (pending h) true := by
  unfold fileTurn writeTurn copied pending
  dsimp only
  cases hi : find (sep ++ h.bodyBoundary) h.requestBody with
  | none =>
    simp only [asInt_none, if_true, setBody_curUploadFile, Bool.false_eq_true, if_false,
      Option.getD_none]
  | some i =>
    rw [hi] at hf
    have hi31 := hf i rfl
    have hne : ¬ (i:ℤ) = -1 := by omega
    simp only [asInt_some i hf, hne, if_false, asSize_small i hi31, if_true, setBody_curUploadFile,
      Option.getD_some]

section Opened
variable {env : Env} {p : Part} {u s : Store} {k : ℕ} {c : Bytes} (ho : Opened env p u k c s)
include ho

theorem opened_named : p.name ≠ [] := by
  have hcheck : checkFilename p.name = true := (Bool.and_eq_true_iff.mp ho.name).2
  exact ((checkFilename_iff p.name).mp hcheck).1

theorem opened_entries (name : Bytes) (hne : name ≠ p.name) :
    s.hash.lookup name = u.hash.lookup name := by
  rw [ho.hash, AList.lookup_insert_ne hne]

theorem opened_fails (a : Bytes)
    (hfail : (appendContent env (targetFile env p.name) a s.disk).1 = false) :
    Outcome env u p false (deregister env p.name
      { s with disk := (appendContent env (targetFile env p.name) a s.disk).2 }).2 := by
  have hdraws := draws_trans ho.draws (appendContent_draws env (targetFile env p.name) a s.disk)
  have hfails : Fails 1 s.disk :=
    (appendContent_fails env _ a s.disk hfail).resolve_left (by simp [ho.target])
  have hj := removeIfExists_draws env (targetFile env p.name)
    (appendContent env (targetFile env p.name) a s.disk).2
  have hfree : (s.hash.erase p.name).lookup p.name = none := AList.lookup_erase _ _
  refine .failed _ (k+1+0) ho.name (Or.inr ?_) ?_ hfree (draws_trans hdraws hj)
  · exact fails_mono (by omega) (fails_later ho.draws hfails)
  · constructor
    · intro name hne
      exact (AList.lookup_erase_ne hne).trans (opened_entries ho name hne)
    · intro id _
      exact congrFun ho.nodes id
    · exact ho.next.ge
    · have happend := ho.files.trans (appendContent_onlyAt env (targetFile env p.name) a s.disk)
      exact happend.trans (removeIfExists_onlyAt env (targetFile env p.name) _)

theorem opened_appends (a : Bytes) (hok : Lands env (targetFile env p.name) a s.disk) :
    Opened env p u (k+1) (c ++ a)
      { s with disk := (appendContent env (targetFile env p.name) a s.disk).2 } := by
  have hcontent := lands_lookup hok
  have hold : s.disk.files.lookup (cstr (targetFile env p.name)) = some c := ho.content
  rw [hold] at hcontent
  exact { ho with
    content := hcontent
    files := ho.files.trans (appendContent_onlyAt env (targetFile env p.name) a s.disk)
    draws := draws_trans ho.draws (appendContent_draws env (targetFile env p.name) a s.disk) }

theorem opened_copied (h : HeadInfo) (hcur : h.curUploadFile = p.name)
    (htold : CutTold env h s) (a : Bytes)
    (ha : a = pending h) :
    ((copied env h s a).1 = true ∧
      (copied env h s a).2.faults = s.disk.faults.drop (if a = [] then 0 else 1) ∧
      ∃ j, Opened env p u j (c ++ a) { s with disk := (copied env h s a).2 }) ∨
    ((copied env h s a).1 = false ∧ ¬ Storable env h s ∧
      Outcome env u p false (deregister env p.name { s with disk := (copied env h s a).2 }).2) := by
  have hne : h.curUploadFile ≠ [] := hcur ▸ opened_named ho
  unfold copied Storable
  rw [hcur, ← ha]
  by_cases hnil : a = []
  · subst hnil
    rw [if_pos rfl, if_pos rfl, List.append_nil]
    exact Or.inl ⟨rfl, rfl, k, ho⟩
  · rw [if_neg hnil, if_neg hnil]
    cases hok : (appendContent env (targetFile env p.name) a s.disk).1 with
    | true =>
      have hall : s.disk.takes a = a := by
        by_contra hcut
        have hlong := htold hne (ha ▸ hnil) (ha ▸ hcut)
        exact hcut (appendContent_honest env _ a s.disk (ha ▸ hlong) hok)
      exact Or.inl ⟨rfl, appendContent_draws env _ a s.disk, k+1, opened_appends ho a ⟨hok, hall⟩⟩
    | false =>
      refine Or.inr ⟨rfl, ?_, opened_fails ho a hok⟩
      rintro (hempty | ⟨hnext, hw, hall⟩)
      · exact hnil hempty
      · simp [appendContent, hnext, hw, hall] at hok

theorem opened_finishes (h : HeadInfo) (hcur : h.curUploadFile = p.name) (hall : c = p.content)
    (hsize : s.disk.faults.headD none = none) :
    (finishUpload env h s).1 =
      { h with uploadSuccessFiles := h.uploadSuccessFiles ++ [p.name], curUploadFile := [] } ∧
    Outcome env u p true (finishUpload env h s).2 := by
  have hlookup : s.disk.files.lookup (cstr (targetFile env p.name)) = some p.content :=
    hall ▸ ho.content
  have hstat : getFileSize (targetFile env p.name) s.disk = ((p.content.length : ℤ),
    s.disk.next.2) := by
    rw [getFileSize, hlookup, Disk.next, hsize]
  have hres : s.hash.lookup p.name = some none := by
    rw [ho.hash, AList.lookup_insert]
  unfold finishUpload
  rw [hcur, hstat]
  dsimp only
  rw [insert_reserved p.name _ { s with disk := s.disk.next.2 } hres]
  refine ⟨rfl, .stored _ (k+1) ho.name ?_ ?_ (draws_trans ho.draws (next_draws s.disk))⟩
  · constructor
    · intro name hne
      exact (AList.lookup_insert_ne hne).trans (opened_entries ho name hne)
    · intro id hid
      have hne : id ≠ s.nextNode := by
        rw [ho.next]
        exact hid.ne
      exact (Function.update_of_ne hne _ _).trans (congrFun ho.nodes id)
    · exact ho.next.ge.trans (Nat.le_succ _)
    · exact ho.files
  · refine ⟨hlookup, s.nextNode, Nat.lt_succ_self _, ?_, ?_, ?_⟩
    · simp [validNode]
    · simp [newNode]
    · simp [newNode]

end Opened

section Text
variable {pat body future left tail : Bytes} (htext : body ++ future = left ++ tail)
  (hend : find pat (body ++ future) = some left.length)
include htext hend

omit htext in
theorem text_before (hnone : find pat body = none) {n : ℕ} (hn : n+pat.length ≤ body.length) :
    n ≤ left.length := by
  by_contra hgt
  rw [find_append_left _ _ _ _ hend (by omega)] at hnone
  cases hnone

theorem text_inside (hnone : find pat body = none) {n : ℕ} (hn : n+pat.length ≤ body.length) :
    body.take n = left.take n ∧ body.drop n ++ future = left.drop n ++ tail := by
  have hbefore := text_before hend hnone hn
  have happend : (body ++ future).take n = body.take n := List.take_append_of_le_length (by omega)
  constructor
  · rw [← happend, htext, List.take_append_of_le_length hbefore]
  · rw [← List.drop_append_of_le_length (by omega), htext, List.drop_append_of_le_length hbefore]

omit htext in
theorem text_kept (hnone : find pat body = none) {n : ℕ} (hn : n+pat.length ≤ body.length) :
    find pat (body.drop n ++ future) = some (left.drop n).length := by
  have hbefore := text_before hend hnone hn
  have hshift := find_drop pat (body ++ future) n fun j hj =>
    find_first _ _ left.length j hend (by omega)
  rw [hend, List.drop_append_of_le_length (by omega)] at hshift
  obtain ⟨j, hj, heq⟩ := Option.map_eq_some_iff.mp hshift.symm
  rw [hj, List.length_drop, ← heq, Nat.add_sub_cancel]

theorem text_ended {i : ℕ} (hi : find pat body = some i) :
    left.length = i ∧ body.take i = left ∧ body.drop i ++ future = tail := by
  have hall := find_append _ _ future i hi
  rw [hend] at hall
  have hleft : left.length = i := Option.some.inj hall
  have hle := find_le _ _ i hi
  have happend : (body ++ future).take i = body.take i := List.take_append_of_le_length (by omega)
  refine ⟨hleft, ?_, ?_⟩
  · rw [← happend, htext, ← hleft, List.take_left]
  · rw [← List.drop_append_of_le_length (by omega), htext, ← hleft, List.drop_left]

end Text

def TurnKeeps (env : Env) (b : Bytes) (ps : List Part) (s₀ : Store) (future : Bytes) (h : HeadInfo)
    (refused : Bytes → Prop) : Turn → Prop
  | .again h' s' => weight h' < weight h ∧
      (Stage env b ps s₀ h' s' (h'.requestBody ++ future) ∨
        (refused h'.requestBody ∧ Passing env b ps s₀ h' s' (h'.requestBody ++ future)))
  | .leaves true h' s' => Stage env b ps s₀ h' s' (h'.requestBody ++ future) ∧
      (future = [] → Complete env ps s₀ h' s')
  | .leaves false _ _ => False
  | .throws => False

section Turn
variable {env : Env} {b : Bytes} (hb : b.all bchar = true) {ps : List Part}
  (hps : ∀ p ∈ ps, Written b p) {s₀ s : Store} {h : HeadInfo} {future : Bytes}
include hb hps

theorem headTurn_keeps {done rest : List Part} {o : List (Part × Bool)} (hsplit : ps = done ++ rest)
    (hdone : Handled env done s₀ o s) (hlisted : Listed h o) (hcur : h.curUploadFile = [])
    (htext : h.requestBody ++ future = encode b rest) (hfits : HeadFits h.requestBody) :
    TurnKeeps env b ps s₀ future h (HeadRefused env h.requestBody s) (headTurn env h s) := by
  have hstart : Stage env b ps s₀ h s (h.requestBody ++ future) := by
    obtain ⟨r, hr⟩ := encode_delimiter b rest
    refine .between done rest o [] hsplit hdone hlisted hcur htext ?_
    rw [htext, hr]
    exact find_at_start _ _ (List.prefix_append _ _)
  rw [headTurn_fits env h s hfits]
  cases rest with
  | nil =>
    have hnone : find (sep ++ sep) h.requestBody = none := by
      cases he : find (sep ++ sep) h.requestBody with
      | none => rfl
      | some e =>
        have hall := find_append _ _ future e he
        rw [htext, find_closing hb] at hall
        cases hall
    rw [hnone]
    refine ⟨hstart, fun _ => ⟨o, ?_, hlisted, hcur⟩⟩
    rwa [hsplit, List.append_nil]
  | cons p rest =>
    have hp : Written b p := hps p (by rw [hsplit]; simp)
    cases he : find (sep ++ sep) h.requestBody with
    | none =>
      refine ⟨hstart, fun hlast => ?_⟩
      rw [hlast, List.append_nil] at htext
      rw [htext, find_head hb p rest hp] at he
      cases he
    | some e =>
      obtain ⟨hname, hafter, hlen⟩ := head_read hb p rest hp h.requestBody future htext e he
      dsimp only
      rw [hname]
      dsimp only
      have hw : ∀ g : HeadInfo, g.requestBody = h.requestBody.drop (e+4) → weight g < weight h := by
        intro g hg
        rw [weight, weight, hg, if_pos hcur, List.length_drop]
        split_ifs <;> omega
      cases openUpload_outcome env s p (setBody h (h.requestBody.drop (e+4))) with
      | inl hrefused =>
        obtain ⟨hhead, hclosed, hout⟩ := hrefused
        have hlists : Listed { setBody h (h.requestBody.drop (e+4)) with curUploadFile := p.name }
          o := hlisted
        rw [hhead]
        refine ⟨hw _ rfl, Or.inr ⟨⟨e, p.name, he, hname, hclosed, rfl⟩, ?_⟩⟩
        exact .passing done rest _ p p.content hsplit (handled_snoc hdone hout)
          (listed_refused hlists p rfl) rfl
          List.suffix_rfl hafter
      | inr hopens =>
        obtain ⟨hhead, hopened⟩ := hopens
        rw [hhead]
        refine ⟨hw _ rfl, Or.inl ?_⟩
        exact .inside done rest o p s 1 [] p.content hsplit hdone hlisted rfl hopened rfl hafter

theorem searchTurn_keeps {done rest : List Part} {o : List (Part × Bool)} {lead : Bytes}
    (hsplit : ps = done ++ rest)
    (hdone : Handled env done s₀ o s) (hlisted : Listed h o) (hcur : h.curUploadFile = [])
    (htext : h.requestBody ++ future = lead ++ encode b rest)
    (hlead : find (delimiter b) (h.requestBody ++ future) = some lead.length)
    (hbound : h.bodyBoundary = delimiter b) (hg : loopGuard h = true) (hfits : TurnFits h) :
    TurnKeeps env b ps s₀ future h (Refused env h s) (searchTurn env h s) := by
  rw [TurnFits, if_pos hcur] at hfits
  have hlong : h.bodyBoundary.length+sep.length < h.requestBody.length := by
    simpa [loopGuard] using hg
  rw [searchTurn_fits env h s hfits.1]
  cases hi : find h.bodyBoundary h.requestBody with
  | none =>
    -- Only bytes before the boundary are let go of.
    obtain ⟨k, hk⟩ : ∃ k, k = h.requestBody.length-h.bodyBoundary.length := ⟨_, rfl⟩
    rw [← hbound] at hlead
    have hkept := text_kept hlead hi (n := k) (by omega)
    have hdrop := (text_inside htext hlead hi (n := k) (by omega)).2
    rw [hbound] at hkept
    dsimp only
    rw [← hk]
    refine ⟨?_, Or.inl (.between done rest o (lead.drop k) hsplit hdone hlisted hcur hdrop hkept)⟩
    have h2 : sep.length = 2 := by decide
    simp only [weight, setBody_requestBody, setBody_curUploadFile, List.length_drop, hcur, if_true]
    omega
  | some i =>
    have hdrop := (text_ended htext (hbound ▸ hlead) hi).2.2
    dsimp only
    have hkeeps := headTurn_keeps (h := setBody h (h.requestBody.drop i)) hb hps hsplit
      hdone hlisted hcur
      hdrop (hfits.2 i hi)
    have hweight : weight (setBody h (h.requestBody.drop i)) ≤ weight h := by
      simp only [weight, setBody_requestBody, setBody_curUploadFile, List.length_drop,
        hcur, if_true]
      omega
    cases ht : headTurn env (setBody h (h.requestBody.drop i)) s with
    | again h' s' =>
      rw [ht] at hkeeps
      refine ⟨hkeeps.1.trans_le hweight, hkeeps.2.imp_right fun hpass => ⟨?_, hpass.2⟩⟩
      rw [Refused, if_pos hcur]
      exact ⟨i, hi, hpass.1⟩
    | leaves ret h' s' =>
      rw [ht] at hkeeps
      cases ret with
      | true => exact hkeeps
      | false => exact hkeeps
    | throws =>
      rw [ht] at hkeeps
      exact hkeeps

section Inside
variable {done rest : List Part} {o : List (Part × Bool)} {p : Part} {u : Store} {k : ℕ}
  {c left : Bytes}
  (hsplit : ps = done ++ p::rest) (hdone : Handled env done s₀ o u) (hlisted : Listed h o)
  (hcur : h.curUploadFile = p.name) (hopened : Opened env p u k c s)
  (hcontent : p.content = c ++ left)
  (htold : CutTold env h s)
include hsplit hdone hlisted hcur hopened hcontent htold

omit hb hps hsplit hdone hlisted hcontent htold in
theorem content_refused (hclosed : ¬ Storable env h s) {left : Bytes}
    (hleft : left = h.requestBody.drop (pending h).length) : Refused env h s left := by
  have hne : h.curUploadFile ≠ [] := hcur ▸ opened_named hopened
  rw [Refused, if_neg hne]
  exact ⟨hclosed, hleft⟩

omit hb hps in
theorem writeTurn_inside {n : ℕ} (hpos : 0 < n) (hn : n ≤ h.requestBody.length)
    (hpending : h.requestBody.take n = pending h) (htake : h.requestBody.take n = left.take n)
    (hrest : h.requestBody.drop n ++ future = left.drop n ++ (sep ++ encode b rest)) :
    TurnKeeps env b ps s₀ future h (Refused env h s)
      (writeTurn env h s (h.requestBody.take n) false) := by
  have hne : h.curUploadFile ≠ [] := hcur ▸ opened_named hopened
  have hlen : (h.requestBody.take n).length = n := by
    rw [List.length_take]
    omega
  have hweight : ∀ g : HeadInfo, g.requestBody = h.requestBody.drop n → weight g < weight h := by
    intro g hbody
    rw [weight, weight, hbody, if_neg hne, List.length_drop]
    split_ifs <;> omega
  cases opened_copied hopened h hcur htold _ hpending with
  | inl hok =>
    obtain ⟨hok, -, j, hopened'⟩ := hok
    rw [writeTurn_goes hok, hlen]
    refine ⟨hweight _ rfl, Or.inl ?_⟩
    have hcut : p.content = c ++ left.take n ++ left.drop n := by
      rw [List.append_assoc, List.take_append_drop, hcontent]
    exact .inside done rest o p u j (c ++ left.take n) (left.drop n) hsplit hdone hlisted hcur
      (htake ▸ hopened') hcut hrest
  | inr hfail =>
    obtain ⟨hfail, hclosed, hout⟩ := hfail
    have hsuffix : left.drop n <:+ p.content := by
      rw [hcontent]
      exact (List.drop_suffix n left).trans (List.suffix_append c left)
    rw [writeTurn_fails hfail, hlen, hcur]
    refine ⟨hweight _ rfl, Or.inr
      ⟨content_refused hcur hopened hclosed (by rw [← hpending, hlen]; rfl), ?_⟩⟩
    exact .passing done rest _ p (left.drop n) hsplit (handled_snoc hdone hout)
      (listed_refused hlisted p hcur)
      rfl hsuffix hrest

omit hb hps in
theorem writeTurn_ended (hrest : h.requestBody.drop left.length ++ future = sep ++ encode b rest)
    (hpending : left = pending h)
    (hknown : s.disk.faults.getD (if left = [] then 0 else 1) none = none) :
    TurnKeeps env b ps s₀ future h (Refused env h s) (writeTurn env h s left true) := by
  have hne : h.curUploadFile ≠ [] := hcur ▸ opened_named hopened
  have hline : find (delimiter b) (h.requestBody.drop left.length ++ future) = some sep.length := by
    rw [hrest]
    exact find_line b rest
  have hweight : ∀ g : HeadInfo, g.requestBody = h.requestBody.drop left.length →
    g.curUploadFile = [] →
      weight g < weight h := by
    intro g hbody hgcur
    rw [weight, weight, hbody, if_neg hne, if_pos hgcur, List.length_drop]
    omega
  cases opened_copied hopened h hcur htold left hpending with
  | inl hok =>
    obtain ⟨hok, hfaults, j, hopened'⟩ := hok
    have hhead : (copied env h s left).2.faults.headD none = none := by
      rw [hfaults, List.headD_eq_head?_getD, List.head?_drop, ← List.getD_eq_getElem?_getD]
      exact hknown
    obtain ⟨hsize, hout⟩ := opened_finishes hopened'
      (setBody h (h.requestBody.drop left.length)) hcur
      hcontent.symm hhead
    rw [writeTurn_ends hok, hsize]
    refine ⟨hweight _ rfl rfl, Or.inl ?_⟩
    refine .between (done ++ [p]) rest (o ++ [(p, true)]) sep (by simp [hsplit])
      (handled_snoc hdone hout) ?_ rfl
      hrest hline
    constructor
    · rw [successes_snoc]
      exact congrArg (· ++ [p.name]) hlisted.1
    · rw [failures_snoc]
      exact hlisted.2
  | inr hfail =>
    obtain ⟨hfail, hclosed, hout⟩ := hfail
    rw [writeTurn_fails hfail, hcur]
    refine ⟨hweight _ rfl rfl,
      Or.inr ⟨content_refused hcur hopened hclosed (by rw [← hpending]; rfl), ?_⟩⟩
    exact .passing done rest _ p [] hsplit (handled_snoc hdone hout)
      (listed_refused hlisted p hcur) rfl
      List.nil_suffix hrest

theorem fileTurn_keeps (htext : h.requestBody ++ future = left ++ (sep ++ encode b rest))
    (hbound : h.bodyBoundary = delimiter b) (hg : loopGuard h = true) (hfits : TurnFits h)
    (hsize : SizeKnown h s) :
    TurnKeeps env b ps s₀ future h (Refused env h s) (fileTurn env h s) := by
  have hp : Written b p := hps p (by rw [hsplit]; simp)
  have hne : h.curUploadFile ≠ [] := hcur ▸ opened_named hopened
  have hsuffix : left <:+ p.content := by
    rw [hcontent]
    exact List.suffix_append c left
  have hend : find (sep ++ h.bodyBoundary) (h.requestBody ++ future) = some left.length := by
    rw [htext, hbound]
    exact find_end hb left rest fun hin => hp.delimited (hin.trans hsuffix.isInfix)
  have hlong : h.bodyBoundary.length+sep.length < h.requestBody.length := by
    simpa [loopGuard] using hg
  have hsep : (sep ++ h.bodyBoundary).length = h.bodyBoundary.length+sep.length := by
    rw [List.length_append, Nat.add_comm]
  rw [TurnFits, if_neg hne] at hfits
  rw [fileTurn_small env h s hfits]
  cases hi : find (sep ++ h.bodyBoundary) h.requestBody with
  | none =>
    obtain ⟨htake, hrest⟩ := text_inside htext hend hi
      (n := h.requestBody.length-h.bodyBoundary.length-sep.length) (by omega)
    have hpending : h.requestBody.take (h.requestBody.length-h.bodyBoundary.length-sep.length) =
      pending h := by
      rw [pending, hi, Option.getD_none]
    dsimp only
    rw [← hpending]
    exact writeTurn_inside hsplit hdone hlisted hcur hopened hcontent htold (by omega)
      (by omega) hpending
      htake hrest
  | some i =>
    obtain ⟨rfl, htake, hrest⟩ := text_ended htext hend hi
    have hknown : s.disk.faults.getD (if left = [] then 0 else 1) none = none := by
      simpa only [List.length_eq_zero_iff] using hsize hne left.length hi
    have hpending : left = pending h := by
      rw [pending, hi, Option.getD_some, htake]
    dsimp only
    rw [← hpending]
    exact writeTurn_ended hsplit hdone hlisted hcur hopened hcontent htold hrest hpending hknown

end Inside

theorem uploadTurn_keeps (hstage : Stage env b ps s₀ h s (h.requestBody ++ future))
    (hbound : h.bodyBoundary = delimiter b) (hg : loopGuard h = true) (hfits : TurnFits h)
    (hsize : SizeKnown h s) (htold : CutTold env h s) :
    TurnKeeps env b ps s₀ future h (Refused env h s) (uploadTurn env h s) := by
  cases hstage with
  | between done rest o lead hsplit hdone hlisted hcur htext hlead =>
    rw [uploadTurn, if_pos hcur]
    exact searchTurn_keeps hb hps hsplit hdone hlisted hcur htext hlead hbound hg hfits
  | inside done rest o p u k c left hsplit hdone hlisted hcur hopened hcontent htext =>
    have hne : h.curUploadFile ≠ [] := hcur ▸ opened_named hopened
    rw [uploadTurn, if_neg hne]
    exact fileTurn_keeps hb hps hsplit hdone hlisted hcur hopened hcontent htold htext hbound
      hg hfits hsize

theorem refused_amid (hstage : Stage env b ps s₀ h s (h.requestBody ++ future))
    (hbound : h.bodyBoundary = delimiter b) (hg : loopGuard h = true) {left : Bytes}
    (hrefused : Refused env h s left) : Amid b ps (left ++ future) := by
  unfold Refused at hrefused
  cases hstage with
  | between done rest o lead hsplit hdone hlisted hcur htext hlead =>
    rw [if_pos hcur] at hrefused
    obtain ⟨i, hi, e, name, he, -, -, rfl⟩ := hrefused
    have hdrop := (text_ended htext (hbound ▸ hlead) hi).2.2
    cases rest with
    | nil =>
      have hall := find_append _ _ future e he
      rw [hdrop, find_closing hb] at hall
      cases hall
    | cons p rest =>
      have hp : Written b p := hps p (by rw [hsplit]; simp)
      obtain ⟨-, hafter, -⟩ := head_read hb p rest hp _ future hdrop e he
      exact ⟨done, rest, p, p.content, hsplit, List.suffix_rfl, hafter⟩
  | inside done rest o p u k c rest' hsplit hdone hlisted hcur hopened hcontent htext =>
    have hne : h.curUploadFile ≠ [] := hcur ▸ opened_named hopened
    rw [if_neg hne] at hrefused
    obtain ⟨-, rfl⟩ := hrefused
    have hp : Written b p := hps p (by rw [hsplit]; simp)
    have hsuffix : rest' <:+ p.content := by
      rw [hcontent]
      exact List.suffix_append c rest'
    have hend : find (sep ++ h.bodyBoundary) (h.requestBody ++ future) = some rest'.length := by
      rw [htext, hbound]
      exact find_end hb rest' rest fun hin => hp.delimited (hin.trans hsuffix.isInfix)
    have hsep : (sep ++ h.bodyBoundary).length = h.bodyBoundary.length+sep.length := by
      rw [List.length_append, Nat.add_comm]
    have hlong : h.bodyBoundary.length+sep.length < h.requestBody.length := by
      simpa [loopGuard] using hg
    cases hi : find (sep ++ h.bodyBoundary) h.requestBody with
    | none =>
      obtain ⟨-, hdrop⟩ := text_inside htext hend hi
        (n := h.requestBody.length-h.bodyBoundary.length-sep.length) (by omega)
      have hlen : (pending h).length = h.requestBody.length-h.bodyBoundary.length-sep.length := by
        rw [pending, hi, Option.getD_none, List.length_take]
        omega
      rw [hlen, hdrop]
      exact ⟨done, rest, p, _, hsplit, (List.drop_suffix _ _).trans hsuffix, rfl⟩
    | some i =>
      obtain ⟨-, htake, hdrop⟩ := text_ended htext hend hi
      have hlen : (pending h).length = i := by
        have hle := find_le _ _ i hi
        rw [pending, hi, Option.getD_some, List.length_take]
        omega
      rw [hlen, hdrop]
      exact ⟨done, rest, p, [], hsplit, List.nil_suffix, rfl⟩

theorem uploadTurn_stage (hstage : Stage env b ps s₀ h s (h.requestBody ++ future))
    (hbound : h.bodyBoundary = delimiter b) (hg : loopGuard h = true)
    (hmet : TurnMet env future h s)
    {h' : HeadInfo} {s' : Store} (ht : uploadTurn env h s = .again h' s') :
    weight h' < weight h ∧ Stage env b ps s₀ h' s' (h'.requestBody ++ future) := by
  have hkeeps := uploadTurn_keeps hb hps hstage hbound hg hmet.fits hmet.size hmet.told
  rw [ht] at hkeeps
  refine ⟨hkeeps.1, ?_⟩
  cases hkeeps.2 with
  | inl hgoes => exact hgoes
  | inr hpass =>
    have hbehind := hmet.passes h'.requestBody hpass.1
    rw [hbound] at hbehind
    exact passing_behind hb hps hpass.2 hbehind

omit hb hps in
theorem stage_long (hstage : Stage env b ps s₀ h s h.requestBody)
    (hbound : h.bodyBoundary = delimiter b) :
    loopGuard h = true := by
  rw [loopGuard, hbound]
  apply decide_eq_true
  cases hstage with
  | between done rest o lead _ _ _ _ htext _ =>
    have hlen := encode_length b rest
    rw [htext, List.length_append]
    omega
  | inside done rest o p u k c left _ _ _ _ _ _ htext =>
    have hlen := encode_length b rest
    rw [htext, List.length_append, List.length_append]
    omega

theorem uploadLoop_stage (n : ℕ) (hn : weight h < n)
    (hstage : Stage env b ps s₀ h s (h.requestBody ++ future))
    (hbound : h.bodyBoundary = delimiter b)
    (hmet : LoopMet env future n h s) :
    ∃ h' s', uploadLoop env n h s = some (true, h', s') ∧
      Stage env b ps s₀ h' s' (h'.requestBody ++ future) ∧
      (future = [] → Complete env ps s₀ h' s') := by
  induction n generalizing h s with
  | zero => omega
  | succ n ih =>
    unfold uploadLoop
    by_cases hg : loopGuard h = true
    · obtain ⟨hturn, hrest⟩ := hmet hg
      have hkeeps := uploadTurn_keeps hb hps hstage hbound hg hturn.fits hturn.size hturn.told
      rw [if_pos hg]
      cases ht : uploadTurn env h s with
      | again h' s' =>
        obtain ⟨hweight, hstage'⟩ := uploadTurn_stage hb hps hstage hbound hg hturn ht
        have hframe := uploadTurn_frame env h h' s (by rw [ht]; rfl)
        have hbound' : h'.bodyBoundary = delimiter b :=
          (congrArg HeadInfo.bodyBoundary hframe).trans hbound
        exact ih (by omega) hstage' hbound' (hrest h' s' ht)
      | leaves ret h' s' =>
        rw [ht] at hkeeps
        cases ret with
        | true => exact ⟨h', s', rfl, hkeeps⟩
        | false => exact hkeeps.elim
      | throws =>
        rw [ht] at hkeeps
        exact hkeeps.elim
    · rw [if_neg hg]
      refine ⟨h, s, rfl, hstage, fun hlast => ?_⟩
      rw [hlast, List.append_nil] at hstage
      exact absurd (stage_long hstage hbound) hg

/-- Piece by piece; after the last one every part has its outcome. -/
theorem onBodies_stage (chunks : List Bytes) (hup : isUpload h = true) (hst : h.responseStatus = [])
    (hbound : h.bodyBoundary = delimiter b)
    (hstage : Stage env b ps s₀ h s (h.requestBody ++ chunks.flatten))
    (hmet : BodiesMet env chunks h s) :
    Accepted env chunks h s ∧ ∃ h' s', onBodies env chunks h s = some (h', s') ∧
      (chunks = [] ∨ Complete env ps s₀ h' s') := by
  induction chunks generalizing h s with
  | nil => exact ⟨trivial, h, s, rfl, Or.inl rfl⟩
  | cons c cs ih =>
    obtain ⟨hloop, hrest⟩ := hmet
    rw [List.flatten_cons, ← List.append_assoc] at hstage
    have hstart := stage_setBody (h.requestBody ++ c) hstage
    obtain ⟨h₁, s₁, hrun, hstage₁, hcomplete⟩ :=
      uploadLoop_stage hb hps _ (weight_lt_turnBound _) hstart hbound hloop
    have hframe := uploadLoop_frame env _ _ s _ hrun
    have hfields := frame_fields hframe
    have hbody : onBody env c h s = some (h₁, s₁) := by
      simp [onBody, hst, hup, processUploadBody, hrun]
    have hbound₁ : h₁.bodyBoundary = delimiter b :=
      (congrArg HeadInfo.bodyBoundary hframe).trans hbound
    obtain ⟨hacc, h', s', hend, hdone⟩ :=
      ih (hfields.2.trans hup) (hfields.1.trans hst) hbound₁ hstage₁
      (hrest _ hbody)
    refine ⟨⟨h₁, s₁, hrun, hacc⟩, h', s', ?_, Or.inr ?_⟩
    · rw [onBodies, hbody]
      exact hend
    · cases hdone with
      | inl hnil =>
        subst hnil
        cases hend
        exact hcomplete rfl
      | inr hdone => exact hdone

end Turn

theorem effect_faults {env : Env} {h h' : HeadInfo} {s s' : Store} (he : Effect env h s h' s')
    (hs : s.disk.faults = []) : s'.disk.faults = [] := by
  cases he with
  | skips body hcur => exact hs
  | opens body filename hcur =>
    unfold openUpload
    dsimp only
    have hreg := (register_clean env filename s hs).1
    split_ifs
    · exact hs
    · exact hreg
    · exact hreg
  | fails body content hcur =>
    exact removeIfExists_faults (appendContent_faults hs env _ content) env _
  | waits body disk hcur hd =>
    cases hd with
    | inl hsame => exact hsame ▸ hs
    | inr hwritten =>
      obtain ⟨content, hdisk⟩ := hwritten
      exact hdisk ▸ appendContent_faults hs env _ content
  | finishes body disk hcur hd =>
    apply finishUpload_faults
    cases hd with
    | inl hsame => exact hsame ▸ hs
    | inr hwritten =>
      obtain ⟨content, hdisk⟩ := hwritten
      exact hdisk ▸ appendContent_faults hs env _ content

section Plain
variable {env : Env} {b : Bytes} (hb : b.all bchar = true) {ps : List Part}
  (hps : ∀ p ∈ ps, Written b p)
  (hplain : ∀ p ∈ ps, ¬ delimiter b <:+: p.content) {s₀ s : Store} {h : HeadInfo} {future : Bytes}
include hb hps hplain

theorem turnMet_plain (hstage : Stage env b ps s₀ h s (h.requestBody ++ future))
    (hbound : h.bodyBoundary = delimiter b) (hg : loopGuard h = true) (hs : s.disk.faults = [])
    (hlen : h.requestBody.length < 2^31) : TurnMet env future h s := by
  constructor
  · exact turnFits_of_length h hlen
  · intro _ i _
    rw [hs]
    rfl
  · intro _ _ hcut
    exact absurd (takes_clean hs _) hcut
  · intro left hrefused
    rw [hbound]
    exact behind_plain hb hps (refused_amid hb hps hstage hbound hg hrefused) hplain

theorem loopMet_plain (n : ℕ) (hstage : Stage env b ps s₀ h s (h.requestBody ++ future))
    (hbound : h.bodyBoundary = delimiter b) (hs : s.disk.faults = [])
    (hlen : h.requestBody.length < 2^31) :
    LoopMet env future n h s := by
  induction n generalizing h s with
  | zero => trivial
  | succ n ih =>
    intro hg
    have hmet := turnMet_plain hb hps hplain hstage hbound hg hs hlen
    refine ⟨hmet, fun h' s' ht => ?_⟩
    obtain ⟨-, hstage'⟩ := uploadTurn_stage hb hps hstage hbound hg hmet ht
    have hframe := uploadTurn_frame env h h' s (by rw [ht]; rfl)
    have hshrinks := uploadTurn_shrinks env h h' s (by rw [ht]; rfl)
    have heffect := uploadTurn_effect env h s (h', s') (by rw [ht]; rfl)
    exact ih hstage' ((congrArg HeadInfo.bodyBoundary hframe).trans hbound)
      (effect_faults heffect hs)
      (hshrinks.trans_lt hlen)

theorem bodiesMet_plain (chunks : List Bytes) (hup : isUpload h = true)
    (hst : h.responseStatus = [])
    (hbound : h.bodyBoundary = delimiter b)
    (hstage : Stage env b ps s₀ h s (h.requestBody ++ chunks.flatten)) (hs : s.disk.faults = [])
    (hlen : h.requestBody.length+chunks.flatten.length < 2^31) : BodiesMet env chunks h s := by
  induction chunks generalizing h s with
  | nil => trivial
  | cons c cs ih =>
    rw [List.flatten_cons, List.length_append] at hlen
    rw [List.flatten_cons, ← List.append_assoc] at hstage
    have hstart := stage_setBody (h.requestBody ++ c) hstage
    have hshort : (setBody h (h.requestBody ++ c)).requestBody.length < 2^31 := by
      rw [setBody_requestBody, List.length_append]
      omega
    have hloop := loopMet_plain hb hps hplain (turnBound (setBody h (h.requestBody ++ c))) hstart
      hbound hs hshort
    refine ⟨hloop, fun r hr => ?_⟩
    obtain ⟨h₁, s₁, hrun, hstage₁, -⟩ :=
      uploadLoop_stage hb hps _ (weight_lt_turnBound _) hstart hbound hloop
    have hframe := uploadLoop_frame env _ _ s _ hrun
    have hfields := frame_fields hframe
    have hshrinks := uploadLoop_shrinks env _ _ s _ hrun
    rw [setBody_requestBody, List.length_append] at hshrinks
    have hkept : s₁.disk.faults = [] :=
      uploadLoop_keeps (I := fun _ s => s.disk.faults = []) (fun _ _ _ _ hi he =>
        effect_faults he hi) _ _ s hs _ hrun
    simp only [onBody, hst, ne_eq, not_true_eq_false, if_false, hup, if_true,
      processUploadBody, hrun, Option.map_some, Option.some.injEq] at hr
    subst hr
    exact ih (hfields.2.trans hup) (hfields.1.trans hst)
      ((congrArg HeadInfo.bodyBoundary hframe).trans hbound)
      hstage₁ hkept (by dsimp only at hshrinks ⊢; omega)

end Plain

theorem encode_stage {env : Env} {b : Bytes} {ps : List Part} {h : HeadInfo} {s : Store}
    (hcur : h.curUploadFile = []) (hlists : h.uploadSuccessFiles = [] ∧ h.uploadFailFiles = []) :
    Stage env b ps s h s (encode b ps) := by
  obtain ⟨r, hr⟩ := encode_delimiter b ps
  refine .between [] ps [] [] rfl (.nil s) hlists hcur rfl ?_
  rw [hr]
  exact find_at_start _ _ (List.prefix_append _ _)

theorem encoded_handled {env : Env} {b : Bytes} {ps : List Part} {h : HeadInfo} {s : Store}
    {chunks : List Bytes}
    (hb : b.all bchar = true) (hps : ∀ p ∈ ps, Written b p) (hup : isUpload h = true)
    (hbound : h.bodyBoundary = delimiter b)
    (hstart : h.requestBody = [] ∧ h.curUploadFile = [] ∧ h.responseStatus = [] ∧
      h.uploadSuccessFiles = [] ∧ h.uploadFailFiles = [])
    (hcat : chunks.flatten = encode b ps) (hmet : BodiesMet env chunks h s) :
    Accepted env chunks h s ∧ ∃ h' s', onBodies env chunks h s = some (h', s') ∧
      Complete env ps s h' s' := by
  obtain ⟨hbody, hcur, hst, hsucc, hfail⟩ := hstart
  have hstage : Stage env b ps s h s (h.requestBody ++ chunks.flatten) := by
    rw [hbody, List.nil_append, hcat]
    exact encode_stage hcur ⟨hsucc, hfail⟩
  obtain ⟨hacc, h', s', hrun, hdone⟩ := onBodies_stage hb hps chunks hup hst hbound hstage hmet
  refine ⟨hacc, h', s', hrun, ?_⟩
  cases hdone with
  | inl hnil =>
    have hlen := encode_length b ps
    rw [← hcat, hnil] at hlen
    simp at hlen
  | inr hdone => exact hdone

def slashFile : Part where
  name := bytes "a/b"
  contentType := bytes "text/plain"
  content := bytes "x"

def mixedParts : List Part := [slashFile, helloFile]

def mixedChunks : List Bytes :=
  [(encode (bytes "b") mixedParts).take 95, (encode (bytes "b") mixedParts).drop 95]

theorem mixedParts_written : ∀ p ∈ mixedParts, Written (bytes "b") p := by
  intro p hp
  simp only [mixedParts, List.mem_cons, List.not_mem_nil, or_false] at hp
  cases hp with
  | inl he => subst he; constructor <;> decide
  | inr he => subst he; constructor <;> decide

/-- A refused part whose content looks like the beginning of another part. -/
def hidingFile : Part where
  name := bytes "a/b"
  contentType := bytes "text/plain"
  content := bytes "--b\r\nfilename=\"evil\"\r\n\r\nx"

end CloudBackup.RejectedParts
