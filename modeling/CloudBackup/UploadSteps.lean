import CloudBackup.UploadScanner
import CloudBackup.RunInvariants

/-!
# The steps of an upload

`process_upload_body` scans its buffer alone up to the next call on the data
manager or on the file. Between two of these calls other connections run, so
each of them is a step of its own. A connection that is left alone takes the
steps of one turn in a row.
-/

set_option autoImplicit false

namespace CloudBackup.UploadSteps
open CloudBackup.PatternSearch CloudBackup.ByteStrings CloudBackup.FilePath
open CloudBackup.FileStore CloudBackup.DataManager CloudBackup.UploadScanner
  CloudBackup.RunInvariants

inductive Scan where
  | leaves (ret : Bool) (h : HeadInfo)
  | again (h : HeadInfo)
  | opens (filename : Bytes) (h : HeadInfo)
  | copies (content : Bytes) (found : Bool) (h : HeadInfo)
  | throws

def scanHead (h : HeadInfo) : Scan :=
  let body := h.requestBody
  let headEndPos := asInt (find (sep ++ sep) body)
  if headEndPos = -1 then .leaves true h
  else
    let keyPos := asInt (find filenameKey body)
    if keyPos = -1 ∨ headEndPos < keyPos then .leaves false h
    else
      let filenamePos := narrow (asSize keyPos + filenameKey.length)
      let filenameEndPos := asInt (findFrom [quote] (asSize filenamePos) body)
      if filenameEndPos = -1 ∨ headEndPos < filenameEndPos then .leaves false h
      else if body.length < asSize filenamePos then .throws
      else
        let filename := (body.drop (asSize filenamePos)).take (asSize (filenameEndPos-filenamePos))
        .opens filename (setBody h (body.drop (asSize (headEndPos+4))))

def scanSearch (h : HeadInfo) : Scan :=
  let body := h.requestBody
  let pos := asInt (find h.bodyBoundary body)
  if pos = -1 then .again (setBody h (body.drop (body.length-h.bodyBoundary.length)))
  else scanHead (setBody h (if 0 < pos then body.drop (asSize pos) else body))

def scanFile (h : HeadInfo) : Scan :=
  let body := h.requestBody
  let pos := asInt (find (sep ++ h.bodyBoundary) body)
  let content := if pos = -1 then body.take (body.length-h.bodyBoundary.length-sep.length)
    else body.take (asSize pos)
  .copies content (pos ≠ -1) (setBody h (body.drop content.length))

def scan (h : HeadInfo) : Scan := if h.curUploadFile = [] then scanSearch h else scanFile h

/-- Where a connection stands: outside `process_upload_body`, at the loop test,
or before one of its calls. -/
inductive Stage where
  | closed
  | outside
  | looping
  | opening (filename : Bytes)
  | copying (content : Bytes) (found : Bool)
  | releasing
  | measuring
  | inserting (size : ℤ)

structure Connection where
  head : HeadInfo
  stage : Stage

inductive Event (ι : Type*) where
  | registered (c : ι) (filename : Bytes) (ok : Bool)
  | appended (c : ι) (filename content : Bytes) (ok : Bool)
  | inserted (c : ι) (filename : Bytes)
  | deregistered (c : ι) (filename : Bytes)
  | deleted (filename : Bytes)

structure World (ι : Type*) where
  store : Store
  connections : ι → Connection
  history : List (Event ι)

inductive Label (ι : Type*) where
  | messageBegin (c : ι)
  | headersComplete (c : ι) (boundary : Bytes)
  | body (c : ι) (data : Bytes)
  | advance (c : ι)
  | destroy (c : ι)
  | delete (filename : Bytes)

section Steps
variable {ι : Type*} [DecidableEq ι]

def setConnection (c : ι) (x : Connection) (w : World ι) : World ι :=
  { w with connections := Function.update w.connections c x }

/-- A call has been made: the store and the history, which is kept latest first. -/
def called (s : Store) (e : Event ι) (w : World ι) : World ι :=
  { w with store := s, history := e::w.history }

def afterAppend (found : Bool) : Stage := if found then .measuring else .looping

def scanned : Scan → Option Connection
  | .leaves _ h => some { head := h, stage := .outside }
  | .again h => some { head := h, stage := .looping }
  | .opens filename h => some { head := h, stage := .opening filename }
  | .copies content found h =>
    some { head := h, stage := if content = [] then afterAppend found else .copying content found }
  | .throws => none

def advance (env : Env) (c : ι) (w : World ι) : Option (World ι) :=
  let h := (w.connections c).head
  let s := w.store
  match (w.connections c).stage with
  | .closed => none
  | .outside => none
  | .looping =>
    if loopGuard h then (scanned (scan h)).map fun x => setConnection c x w
    else some (setConnection c { head := h, stage := .outside } w)
  | .opening filename =>
    let h := { h with curUploadFile := filename }
    if !checkFilename filename then
      some (setConnection c { head := failUpload h, stage := .looping } w)
    else
      let r := register env filename s
      some (called r.2 (.registered c filename r.1)
        (setConnection c { head := if r.1 then h else failUpload h, stage := .looping } w))
  | .copying content found =>
    let a := appendContent env (targetFile env h.curUploadFile) content s.disk
    some (called { s with disk := a.2 } (.appended c h.curUploadFile content a.1)
      (setConnection c { head := h, stage := if a.1 then afterAppend found else .releasing } w))
  | .releasing =>
    some (called (deregister env h.curUploadFile s).2 (.deregistered c h.curUploadFile)
      (setConnection c { head := failUpload h, stage := .looping } w))
  | .measuring =>
    let z := getFileSize (targetFile env h.curUploadFile) s.disk
    some (setConnection c { head := h, stage := .inserting z.1 }
      { w with store := { s with disk := z.2 } })
  | .inserting size =>
    let done := { h with uploadSuccessFiles := h.uploadSuccessFiles ++ [h.curUploadFile],
                         curUploadFile := [] }
    some (called (DataManager.insert h.curUploadFile size s).2 (.inserted c h.curUploadFile)
      (setConnection c { head := done, stage := .looping } w))

/-- A connection that has not been closed and is not in `process_upload_body`. -/
def waiting (c : ι) (w : World ι) : Bool :=
  match (w.connections c).stage with
  | .outside => true
  | _ => false

def step (env : Env) (w : World ι) : Label ι → Option (World ι)
  | .messageBegin c => if waiting c w then
      some (setConnection c { head := {}, stage := .outside } w) else none
  | .headersComplete c boundary =>
    let h := (w.connections c).head
    if waiting c w then some (setConnection c { head := { h with bodyBoundary := boundary },
                                                stage := .outside } w)
    else none
  | .body c data =>
    let h := (w.connections c).head
    if waiting c w then
      some (setConnection c { head := setBody h (h.requestBody ++ data), stage := .looping } w)
    else none
  | .advance c => advance env c w
  | .destroy c =>
    let h := (w.connections c).head
    if waiting c w then
      let w := setConnection c { head := {}, stage := .closed } w
      if h.curUploadFile = [] then some w
      else some (called (deregister env h.curUploadFile w.store).2
        (.deregistered c h.curUploadFile) w)
    else none
  | .delete filename => some (called (delete env filename w.store).2 (.deleted filename) w)

/-- What the scan of a turn leads to when nothing comes in between. -/
def performed (env : Env) (s : Store) : Scan → Turn
  | .leaves ret h => .leaves ret h s
  | .again h => .again h s
  | .opens filename h =>
    let o := openUpload env filename h s
    .again o.1 o.2
  | .copies content found h =>
    let a := if content = [] then (true, s.disk)
      else appendContent env (targetFile env h.curUploadFile) content s.disk
    let s := { s with disk := a.2 }
    if !a.1 then .again (failUpload h) (deregister env h.curUploadFile s).2
    else if !found then .again h s
    else
      let f := finishUpload env h s
      .again f.1 f.2
  | .throws => .throws

omit [DecidableEq ι] in
theorem scanHead_performed (env : Env) (h : HeadInfo) (s : Store) :
    performed env s (scanHead h) = headTurn env h s := by
  unfold scanHead headTurn
  dsimp only
  split_ifs <;> rfl

omit [DecidableEq ι] in
theorem scan_performed (env : Env) (h : HeadInfo) (s : Store) :
    performed env s (scan h) = uploadTurn env h s := by
  by_cases hcur : h.curUploadFile = []
  · rw [scan, if_pos hcur, uploadTurn, if_pos hcur]
    unfold scanSearch searchTurn
    dsimp only
    split_ifs
    · rfl
    · exact scanHead_performed env _ s
    · exact scanHead_performed env _ s
  · rw [scan, if_neg hcur, uploadTurn, if_neg hcur]
    unfold scanFile fileTurn performed
    by_cases hpos : asInt (find (sep ++ h.bodyBoundary) h.requestBody) = -1
    · simp only [hpos, ne_eq, not_true_eq_false, decide_false, Bool.not_false]
    · simp only [hpos, ne_eq, not_false_eq_true, decide_true, Bool.not_true]
      rfl

def Alone (env : Env) (c : ι) : World ι → World ι → Prop :=
  Reaches fun w (_ : Unit) => advance env c w

def Stands (c : ι) (x : Connection) (s : Store) (w : World ι) : Prop :=
  w.connections c = x ∧ w.store = s

theorem alone_step {env : Env} {c : ι} {w w' : World ι} (h : advance env c w = some w') :
    Alone env c w w' := by
  apply reaches_run [()]
  show (advance env c w).bind (fun t => some t) = _
  rw [h]
  rfl

theorem stands_set (c : ι) (x : Connection) (w : World ι) :
    Stands c x w.store (setConnection c x w) :=
  ⟨Function.update_self _ _ _, rfl⟩

theorem stands_called (c : ι) (x : Connection) (s : Store) (e : Event ι) (w : World ι) :
    Stands c x s (called s e (setConnection c x w)) := ⟨Function.update_self _ _ _, rfl⟩

section Alone
variable (env : Env) {c : ι} {h : HeadInfo} {s : Store} {w : World ι}

theorem alone_opening {filename : Bytes}
    (hw : Stands c { head := h, stage := .opening filename } s w) :
    ∃ w', Alone env c w w' ∧
      Stands c { head := (openUpload env filename h s).1, stage := .looping }
        (openUpload env filename h s).2 w' := by
  obtain ⟨hc, rfl⟩ := hw
  by_cases hcheck : checkFilename filename = true
  · refine ⟨_, alone_step (by rw [advance, hc]; dsimp only; rw [if_neg (by simpa using hcheck)]),
      ?_⟩
    have hopen : openUpload env filename h w.store =
        (if (register env filename w.store).1 then { h with curUploadFile := filename }
          else failUpload { h with curUploadFile := filename },
            (register env filename w.store).2) := by
      unfold openUpload
      dsimp only
      rw [if_neg (by simpa using hcheck)]
      split_ifs <;> rfl
    rw [hopen]
    exact stands_called c _ _ _ w
  · refine ⟨_, alone_step (by rw [advance, hc]; dsimp only; rw [if_pos (by simpa using hcheck)]),
      ?_⟩
    have hopen : openUpload env filename h w.store =
      (failUpload { h with curUploadFile := filename }, w.store) := by
      unfold openUpload
      dsimp only
      rw [if_pos (by simpa using hcheck)]
    rw [hopen]
    exact stands_set c _ w

theorem alone_measuring (hw : Stands c { head := h, stage := .measuring } s w) :
    ∃ w', Alone env c w w' ∧
      Stands c { head := (finishUpload env h s).1, stage := .looping }
        (finishUpload env h s).2 w' := by
  obtain ⟨hc, rfl⟩ := hw
  obtain ⟨z, hz⟩ : ∃ z, z = getFileSize (targetFile env h.curUploadFile) w.store.disk := ⟨_, rfl⟩
  obtain ⟨v, hv⟩ : ∃ v, v = setConnection c { head := h, stage := .inserting z.1 }
      { w with store := { w.store with disk := z.2 } } := ⟨_, rfl⟩
  have hfirst : advance env c w = some v := by
    rw [advance, hc, hv, hz]
  have hvc : v.connections c = { head := h, stage := .inserting z.1 } := by
    rw [hv]
    exact Function.update_self _ _ _
  refine ⟨_, reaches_trans (alone_step hfirst) (alone_step (by rw [advance, hvc])), ?_⟩
  have hstore : v.store = { w.store with disk := z.2 } := by rw [hv]; rfl
  rw [finishUpload, ← hz, hstore]
  exact stands_called c _ _ _ v

theorem alone_refl (w : World ι) : Alone env c w w := reaches_run [] rfl

theorem alone_appended {found : Bool}
    (hw : Stands c { head := h, stage := afterAppend found } s w) :
    ∃ w' h' s', Alone env c w w' ∧ Stands c { head := h', stage := .looping } s' w' ∧
      (if !found then Turn.again h s
        else .again (finishUpload env h s).1 (finishUpload env h s).2) = .again h' s' := by
  cases found with
  | false => exact ⟨w, h, s, alone_refl env w, hw, rfl⟩
  | true =>
    obtain ⟨w', halone, hw'⟩ := alone_measuring env hw
    exact ⟨w', _, _, halone, hw', rfl⟩

theorem alone_releasing (hw : Stands c { head := h, stage := .releasing } s w) :
    ∃ w', Alone env c w w' ∧
      Stands c { head := failUpload h, stage := .looping }
        (deregister env h.curUploadFile s).2 w' := by
  obtain ⟨hc, rfl⟩ := hw
  exact ⟨_, alone_step (by rw [advance, hc]), stands_called c _ _ _ w⟩

theorem alone_copying {content : Bytes} {found : Bool} (hne : content ≠ [])
    (hw : Stands c { head := h, stage := .copying content found } s w) :
    ∃ w' h' s', Alone env c w w' ∧ Stands c { head := h', stage := .looping } s' w' ∧
      performed env s (.copies content found h) = .again h' s' := by
  obtain ⟨hc, rfl⟩ := hw
  obtain ⟨a, ha⟩ : ∃ a, a = appendContent env (targetFile env h.curUploadFile) content
    w.store.disk := ⟨_, rfl⟩
  obtain ⟨v, hv⟩ : ∃ v, v = called { w.store with disk := a.2 }
    (.appended c h.curUploadFile content a.1)
      (setConnection c { head := h, stage := if a.1 then afterAppend found else .releasing } w) :=
        ⟨_, rfl⟩
  have hfirst : advance env c w = some v := by
    rw [advance, hc, hv, ha]
  have hstands : Stands c { head := h, stage := if a.1 then afterAppend found else .releasing }
      { w.store with disk := a.2 } v := by
    rw [hv]
    exact stands_called c _ _ _ w
  have hperformed : performed env w.store (.copies content found h) =
      if !a.1 then Turn.again (failUpload h)
        (deregister env h.curUploadFile { w.store with disk := a.2 }).2
      else if !found then .again h { w.store with disk := a.2 }
      else .again (finishUpload env h { w.store with disk := a.2 }).1
        (finishUpload env h { w.store with disk := a.2 }).2 := by
    unfold performed
    dsimp only
    rw [if_neg hne, ← ha]
  rw [hperformed]
  cases hok : a.1 with
  | true =>
    rw [hok, if_pos rfl] at hstands
    obtain ⟨w', h', s', halone, hw', heq⟩ := alone_appended env hstands
    exact ⟨w', h', s', reaches_trans (alone_step hfirst) halone, hw', heq⟩
  | false =>
    rw [hok, if_neg Bool.false_ne_true] at hstands
    obtain ⟨w', halone, hw'⟩ := alone_releasing env hstands
    exact ⟨w', _, _, reaches_trans (alone_step hfirst) halone, hw', rfl⟩

variable {env}

theorem alone_turn {h' : HeadInfo} {s' : Store} (hw : Stands c { head := h, stage := .looping } s w)
    (hguard : loopGuard h = true) (hturn : uploadTurn env h s = .again h' s') :
    ∃ w', Alone env c w w' ∧ Stands c { head := h', stage := .looping } s' w' := by
  obtain ⟨hc, rfl⟩ := hw
  rw [← scan_performed] at hturn
  have hfirst : ∀ x, scanned (scan h) = some x → advance env c w = some (setConnection c x w) := by
    intro x hx
    rw [advance, hc]
    dsimp only
    rw [if_pos hguard, hx]
    rfl
  cases hscan : scan h with
  | leaves ret g =>
    rw [hscan] at hturn
    cases hturn
  | throws =>
    rw [hscan] at hturn
    cases hturn
  | again g =>
    rw [hscan] at hturn hfirst
    cases hturn
    exact ⟨_, alone_step (hfirst _ rfl), stands_set c _ w⟩
  | opens filename g =>
    rw [hscan] at hturn hfirst
    obtain ⟨w', halone, hw'⟩ :=
      alone_opening env (stands_set c { head := g, stage := .opening filename } w)
    cases hturn
    exact ⟨w', reaches_trans (alone_step (hfirst _ rfl)) halone, hw'⟩
  | copies content found g =>
    rw [hscan] at hturn hfirst
    have hstep := alone_step (hfirst _ rfl)
    by_cases hne : content = []
    · obtain ⟨w', h'', s'', halone, hw', heq⟩ := alone_appended env
        (stands_set c { head := g, stage := afterAppend found } w)
      rw [if_pos hne] at hstep
      have hsame : performed env w.store (.copies content found g) = .again h'' s'' := by
        rw [← heq]
        unfold performed
        dsimp only
        rw [if_pos hne]
        rfl
      rw [hsame] at hturn
      cases hturn
      exact ⟨w', reaches_trans hstep halone, hw'⟩
    · obtain ⟨w', h'', s'', halone, hw', heq⟩ := alone_copying env hne
        (stands_set c { head := g, stage := .copying content found } w)
      rw [if_neg hne] at hstep
      rw [heq] at hturn
      cases hturn
      exact ⟨w', reaches_trans hstep halone, hw'⟩

theorem alone_leaves {ret : Bool} {h' : HeadInfo} {s' : Store}
    (hw : Stands c { head := h, stage := .looping } s w)
    (hguard : loopGuard h = true) (hturn : uploadTurn env h s = .leaves ret h' s') :
    ∃ w', Alone env c w w' ∧ Stands c { head := h', stage := .outside } s' w' := by
  obtain ⟨hc, rfl⟩ := hw
  rw [← scan_performed] at hturn
  cases hscan : scan h with
  | leaves ret' g =>
    rw [hscan] at hturn
    cases hturn
    refine ⟨_, alone_step ?_, stands_set c _ w⟩
    rw [advance, hc]
    dsimp only
    rw [if_pos hguard, hscan]
    rfl
  | throws =>
    rw [hscan] at hturn
    cases hturn
  | again g =>
    rw [hscan] at hturn
    cases hturn
  | opens filename g =>
    rw [hscan] at hturn
    cases hturn
  | copies content found g =>
    rw [hscan] at hturn
    unfold performed at hturn
    dsimp only at hturn
    split_ifs at hturn

theorem alone_loop {n : ℕ} {r : Bool × HeadInfo × Store}
    (hw : Stands c { head := h, stage := .looping } s w)
    (hr : uploadLoop env n h s = some r) :
    ∃ w', Alone env c w w' ∧ Stands c { head := r.2.1, stage := .outside } r.2.2 w' := by
  induction n generalizing h s w with
  | zero => cases hr
  | succ n ih =>
    rw [uploadLoop] at hr
    by_cases hguard : loopGuard h = true
    · rw [if_pos hguard] at hr
      cases hturn : uploadTurn env h s with
      | again h' s' =>
        rw [hturn] at hr
        obtain ⟨v, hfirst, hv⟩ := alone_turn hw hguard hturn
        obtain ⟨w', hrest, hw'⟩ := ih hv hr
        exact ⟨w', reaches_trans hfirst hrest, hw'⟩
      | leaves ret h' s' =>
        rw [hturn] at hr
        cases hr
        exact alone_leaves hw hguard hturn
      | throws =>
        rw [hturn] at hr
        cases hr
    · rw [if_neg hguard] at hr
      cases hr
      obtain ⟨hc, rfl⟩ := hw
      refine ⟨_, alone_step (by rw [advance, hc]; dsimp only; rw [if_neg hguard]), stands_set c _ w⟩

end Alone

end Steps

end CloudBackup.UploadSteps
