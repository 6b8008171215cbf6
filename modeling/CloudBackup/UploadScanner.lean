import CloudBackup.DataManager

/-!
# Scanning an upload body

`process_upload_body` is called on every piece of body that arrives. It
works on the bytes not yet disposed of, in one of two modes: looking for the
next part header, or copying the content of the file being uploaded. Found
positions pass through `int`, exactly as in the source.
-/

set_option autoImplicit false

namespace CloudBackup.UploadScanner
open CloudBackup.PatternSearch CloudBackup.ByteStrings CloudBackup.FilePath
open CloudBackup.FileStore CloudBackup.DataManager

/-- `HTTPMessageInfo`; the empty value is what `clear` leaves. -/
structure HeadInfo where
  requestMethod : Bytes := []
  requestUrl : Bytes := []
  requestUrlPrefix : Bytes := []
  requestUrlPath : Bytes := []
  requestVersion : Bytes := []
  requestCurHeaderField : Bytes := []
  requestCurHeaderValue : Bytes := []
  requestHeaders : Table Bytes := ∅
  requestBody : Bytes := []
  bodyBoundary : Bytes := []
  curUploadFile : Bytes := []
  uploadSuccessFiles : List Bytes := []
  uploadFailFiles : List Bytes := []
  curDownloadFile : Bytes := []
  curDeleteFile : Bytes := []
  responseVersion : Bytes := []
  responseStatus : Bytes := []
  responseStatusDescribe : Bytes := []
  responseHeaders : Table Bytes := ∅
  responseBody : Bytes := []

def setBody (h : HeadInfo) (body : Bytes) : HeadInfo := { h with requestBody := body }

section
variable (h : HeadInfo) (body : Bytes)

@[simp] theorem setBody_requestBody : (setBody h body).requestBody = body := rfl
@[simp] theorem setBody_bodyBoundary : (setBody h body).bodyBoundary = h.bodyBoundary := rfl
@[simp] theorem setBody_curUploadFile : (setBody h body).curUploadFile = h.curUploadFile := rfl
@[simp] theorem setBody_responseStatus : (setBody h body).responseStatus = h.responseStatus := rfl
@[simp] theorem setBody_setBody (b : Bytes) : setBody (setBody h b) body = setBody h body := rfl
@[simp] theorem setBody_self : setBody h h.requestBody = h := rfl

end

def filenameKey : Bytes := bytes "filename=\""

/-- The effect of one turn of the `while` loop. -/
inductive Turn where
  | again (h : HeadInfo) (s : Store)
  | leaves (ret : Bool) (h : HeadInfo) (s : Store)
  | throws

def loopGuard (h : HeadInfo) : Bool := h.bodyBoundary.length+sep.length < h.requestBody.length

def failUpload (h : HeadInfo) : HeadInfo :=
  { h with uploadFailFiles := h.uploadFailFiles ++ [h.curUploadFile], curUploadFile := [] }

/-- The name of a part header becomes the current upload unless it is refused. -/
def openUpload (env : Env) (filename : Bytes) (h : HeadInfo) (s : Store) : HeadInfo × Store :=
  let h := { h with curUploadFile := filename }
  if !checkFilename filename then (failUpload h, s)
  else
    let r := register env filename s
    if r.1 then (h, r.2) else (failUpload h, r.2)

/-- The delimiter of the current upload has been reached. -/
def finishUpload (env : Env) (h : HeadInfo) (s : Store) : HeadInfo × Store :=
  let z := getFileSize (targetFile env h.curUploadFile) s.disk
  let i := insert h.curUploadFile z.1 { s with disk := z.2 }
  ({ h with uploadSuccessFiles := h.uploadSuccessFiles ++ [h.curUploadFile],
            curUploadFile := [] }, i.2)

/-- `_request_body` begins with the boundary. -/
def headTurn (env : Env) (h : HeadInfo) (s : Store) : Turn :=
  let body := h.requestBody
  let headEndPos := asInt (find (sep ++ sep) body)
  if headEndPos = -1 then .leaves true h s
  else
    let keyPos := asInt (find filenameKey body)
    if keyPos = -1 ∨ headEndPos < keyPos then .leaves false h s
    else
      let filenamePos := narrow (asSize keyPos + filenameKey.length)
      let filenameEndPos := asInt (findFrom [quote] (asSize filenamePos) body)
      if filenameEndPos = -1 ∨ headEndPos < filenameEndPos then .leaves false h s
      else if body.length < asSize filenamePos then .throws
      else
        let filename := (body.drop (asSize filenamePos)).take (asSize (filenameEndPos-filenamePos))
        let rest := body.drop (asSize (headEndPos+4))
        let o := openUpload env filename (setBody h rest) s
        .again o.1 o.2

def searchTurn (env : Env) (h : HeadInfo) (s : Store) : Turn :=
  let body := h.requestBody
  let pos := asInt (find h.bodyBoundary body)
  if pos = -1 then .again (setBody h (body.drop (body.length-h.bodyBoundary.length))) s
  else headTurn env (setBody h (if 0 < pos then body.drop (asSize pos) else body)) s

def fileTurn (env : Env) (h : HeadInfo) (s : Store) : Turn :=
  let body := h.requestBody
  let pos := asInt (find (sep ++ h.bodyBoundary) body)
  let content := if pos = -1 then body.take (body.length-h.bodyBoundary.length-sep.length)
    else body.take (asSize pos)
  let h := setBody h (body.drop content.length)
  let a := if content = [] then (true, s.disk)
    else appendContent env (targetFile env h.curUploadFile) content s.disk
  let s := { s with disk := a.2 }
  if !a.1 then .again (failUpload h) (deregister env h.curUploadFile s).2
  else if pos = -1 then .again h s
  else
    let f := finishUpload env h s
    .again f.1 f.2

def uploadTurn (env : Env) (h : HeadInfo) (s : Store) : Turn :=
  if h.curUploadFile = [] then searchTurn env h s else fileTurn env h s

/-- `none` when an exception leaves the loop or the turns are used up. -/
def uploadLoop (env : Env) : ℕ → HeadInfo → Store → Option (Bool × HeadInfo × Store)
  | 0, _, _ => none
  | n+1, h, s =>
    if loopGuard h then
      match uploadTurn env h s with
      | .again h' s' => uploadLoop env n h' s'
      | .leaves ret h' s' => some (ret, h', s')
      | .throws => none
    else some (true, h, s)

/-- A turn that disposes of no byte only changes the mode, so twice the number
of bytes and a little more is never used up while positions fit in an `int`. -/
def turnBound (h : HeadInfo) : ℕ := 4*(h.requestBody.length+1)

def processUploadBody (env : Env) (h : HeadInfo) (s : Store) : Option (Bool × HeadInfo × Store) :=
  uploadLoop env (turnBound h) h s

def badRequest (h : HeadInfo) : HeadInfo :=
  { h with responseStatus := bytes "400", responseStatusDescribe := bytes "Bad Request" }

def isUpload (h : HeadInfo) : Bool :=
  h.requestMethod = bytes "POST" && h.requestUrlPrefix = bytes "/upload"

def onBody (env : Env) (data : Bytes) (h : HeadInfo) (s : Store) : Option (HeadInfo × Store) :=
  if h.responseStatus ≠ [] then some (h, s)
  else if isUpload h then
    (processUploadBody env (setBody h (h.requestBody ++ data)) s).map fun r =>
      if r.1 then (r.2.1, r.2.2) else (badRequest r.2.1, r.2.2)
  else some (h, s)

/-- The body of one message, in the pieces in which it is handed over. -/
def onBodies (env : Env) : List Bytes → HeadInfo → Store → Option (HeadInfo × Store)
  | [], h, s => some (h, s)
  | data::rest, h, s => (onBody env data h s).bind fun r => onBodies env rest r.1 r.2

def frame (h : HeadInfo) : HeadInfo :=
  { h with requestBody := [], curUploadFile := [], uploadSuccessFiles := [], uploadFailFiles := [] }

theorem openUpload_frame (env : Env) (name : Bytes) (h : HeadInfo) (s : Store) :
    frame (openUpload env name h s).1 = frame h := by
  unfold openUpload
  dsimp only
  split_ifs <;> rfl

def Turn.head : Turn → Option HeadInfo
  | .again h _ => some h
  | .leaves _ h _ => some h
  | .throws => none

theorem headTurn_cases (env : Env) (h : HeadInfo) (s : Store) :
    (∃ ret, headTurn env h s = .leaves ret h s) ∨ headTurn env h s = .throws ∨
      ∃ name n, headTurn env h s = .again
        (openUpload env name (setBody h (h.requestBody.drop n)) s).1
        (openUpload env name (setBody h (h.requestBody.drop n)) s).2 := by
  unfold headTurn
  dsimp only
  split_ifs
  · exact Or.inl ⟨true, rfl⟩
  · exact Or.inl ⟨false, rfl⟩
  · exact Or.inl ⟨false, rfl⟩
  · exact Or.inr (Or.inl rfl)
  · exact Or.inr (Or.inr ⟨_, _, rfl⟩)

theorem searchTurn_cases (env : Env) (h : HeadInfo) (s : Store) :
    ∃ n, searchTurn env h s = .again (setBody h (h.requestBody.drop n)) s ∨
      (∃ ret, searchTurn env h s = .leaves ret (setBody h (h.requestBody.drop n)) s) ∨
      searchTurn env h s = .throws ∨
      ∃ name, searchTurn env h s = .again
        (openUpload env name (setBody h (h.requestBody.drop n)) s).1
        (openUpload env name (setBody h (h.requestBody.drop n)) s).2 := by
  by_cases hpos : asInt (find h.bodyBoundary h.requestBody) = -1
  · exact ⟨_, Or.inl (if_pos hpos)⟩
  · obtain ⟨k, hk⟩ : ∃ k, (if 0 < asInt (find h.bodyBoundary h.requestBody)
        then h.requestBody.drop (asSize (asInt (find h.bodyBoundary h.requestBody)))
          else h.requestBody) =
        h.requestBody.drop k := by
      split_ifs
      · exact ⟨_, rfl⟩
      · exact ⟨0, rfl⟩
    have hturn : searchTurn env h s = headTurn env (setBody h (h.requestBody.drop k)) s := by
      rw [← hk]
      exact if_neg hpos
    rw [hturn]
    obtain ⟨ret, hhead⟩ | hhead | ⟨name, n, hhead⟩ :=
      headTurn_cases env (setBody h (h.requestBody.drop k)) s
    · exact ⟨k, Or.inr (Or.inl ⟨ret, hhead⟩)⟩
    · exact ⟨k, Or.inr (Or.inr (Or.inl hhead))⟩
    · rw [setBody_setBody, setBody_requestBody, List.drop_drop] at hhead
      exact ⟨k+n, Or.inr (Or.inr (Or.inr ⟨name, hhead⟩))⟩

theorem searchTurn_frame (env : Env) (h h' : HeadInfo) (s : Store)
    (hh : (searchTurn env h s).head = some h') : frame h' = frame h := by
  obtain ⟨n, hturn | ⟨ret, hturn⟩ | hturn | ⟨name, hturn⟩⟩ := searchTurn_cases env h s
  · rw [hturn] at hh
    obtain rfl := Option.some.inj hh
    rfl
  · rw [hturn] at hh
    obtain rfl := Option.some.inj hh
    rfl
  · rw [hturn] at hh
    cases hh
  · rw [hturn] at hh
    obtain rfl := Option.some.inj hh
    exact openUpload_frame env _ _ s

theorem fileTurn_frame (env : Env) (h h' : HeadInfo) (s : Store)
    (hh : (fileTurn env h s).head = some h') : frame h' = frame h := by
  unfold fileTurn at hh
  dsimp only at hh
  split_ifs at hh <;> obtain rfl := Option.some.inj hh <;> rfl

theorem uploadTurn_frame (env : Env) (h h' : HeadInfo) (s : Store)
    (hh : (uploadTurn env h s).head = some h') : frame h' = frame h := by
  unfold uploadTurn at hh
  split_ifs at hh
  · exact searchTurn_frame env h h' s hh
  · exact fileTurn_frame env h h' s hh

theorem uploadLoop_frame (env : Env) (n : ℕ) (h : HeadInfo) (s : Store)
    (r : Bool × HeadInfo × Store) (hr : uploadLoop env n h s = some r) : frame r.2.1 = frame h := by
  induction n generalizing h s with
  | zero => cases hr
  | succ n ih =>
    unfold uploadLoop at hr
    split_ifs at hr
    · cases ht : uploadTurn env h s with
      | again h' s' =>
        rw [ht] at hr
        exact (ih h' s' hr).trans (uploadTurn_frame env h h' s (by rw [ht]; rfl))
      | leaves ret h' s' =>
        rw [ht] at hr
        cases hr
        exact uploadTurn_frame env h h' s (by rw [ht]; rfl)
      | throws =>
        rw [ht] at hr
        cases hr
    · cases hr
      rfl

inductive Effect (env : Env) (h : HeadInfo) (s : Store) : HeadInfo → Store → Prop where
  | skips (body : Bytes) (hcur : h.curUploadFile = []) : Effect env h s (setBody h body) s
  | opens (body filename : Bytes) (hcur : h.curUploadFile = []) :
      Effect env h s (openUpload env filename (setBody h body) s).1
        (openUpload env filename (setBody h body) s).2
  | fails (body content : Bytes) (hcur : h.curUploadFile ≠ []) :
      Effect env h s (failUpload (setBody h body)) (deregister env h.curUploadFile
        { s with disk := (appendContent env (targetFile env h.curUploadFile) content s.disk).2 }).2
  | waits (body : Bytes) (disk : Disk) (hcur : h.curUploadFile ≠ [])
      (hd : disk = s.disk ∨ ∃ content,
        disk = (appendContent env (targetFile env h.curUploadFile) content s.disk).2) :
      Effect env h s (setBody h body) { s with disk := disk }
  | finishes (body : Bytes) (disk : Disk) (hcur : h.curUploadFile ≠ [])
      (hd : disk = s.disk ∨ ∃ content,
        disk = (appendContent env (targetFile env h.curUploadFile) content s.disk).2) :
      Effect env h s (finishUpload env (setBody h body) { s with disk := disk }).1
        (finishUpload env (setBody h body) { s with disk := disk }).2

def Turn.after : Turn → Option (HeadInfo × Store)
  | .again h s => some (h, s)
  | .leaves _ h s => some (h, s)
  | .throws => none

theorem searchTurn_effect (env : Env) (h : HeadInfo) (s : Store) (hcur : h.curUploadFile = [])
    (r : HeadInfo × Store) (hr : (searchTurn env h s).after = some r) : Effect env h s r.1 r.2 := by
  obtain ⟨n, hturn | ⟨ret, hturn⟩ | hturn | ⟨name, hturn⟩⟩ := searchTurn_cases env h s
  · rw [hturn] at hr
    obtain rfl := Option.some.inj hr
    exact .skips _ hcur
  · rw [hturn] at hr
    obtain rfl := Option.some.inj hr
    exact .skips _ hcur
  · rw [hturn] at hr
    cases hr
  · rw [hturn] at hr
    obtain rfl := Option.some.inj hr
    exact .opens _ name hcur

theorem written_effect (env : Env) (h : HeadInfo) (s : Store) (hcur : h.curUploadFile ≠ [])
    (a : Bool × Disk) (ha : a = (true, s.disk) ∨
      ∃ content, a = appendContent env (targetFile env h.curUploadFile) content s.disk)
    (pos : ℤ) (body : Bytes) (r : HeadInfo × Store)
    (hr : (if !a.1 then Turn.again (failUpload (setBody h body))
      (deregister env h.curUploadFile { s with disk := a.2 }).2
      else if pos = -1 then Turn.again (setBody h body) { s with disk := a.2 }
      else Turn.again (finishUpload env (setBody h body) { s with disk := a.2 }).1
        (finishUpload env (setBody h body) { s with disk := a.2 }).2).after = some r) :
          Effect env h s r.1 r.2 := by
  have hdisk : a.2 = s.disk ∨
      ∃ content, a.2 = (appendContent env (targetFile env h.curUploadFile) content s.disk).2 := by
    rcases ha with rfl | ⟨content, rfl⟩
    · exact Or.inl rfl
    · exact Or.inr ⟨content, rfl⟩
  split_ifs at hr with hfail
  · obtain rfl := Option.some.inj hr
    rcases ha with rfl | ⟨content, rfl⟩
    · cases hfail
    · exact .fails body content hcur
  · obtain rfl := Option.some.inj hr
    exact .waits body a.2 hcur hdisk
  · obtain rfl := Option.some.inj hr
    exact .finishes body a.2 hcur hdisk

theorem fileTurn_effect (env : Env) (h : HeadInfo) (s : Store) (hcur : h.curUploadFile ≠ [])
    (r : HeadInfo × Store) (hr : (fileTurn env h s).after = some r) : Effect env h s r.1 r.2 := by
  apply written_effect env h s hcur _ _ _ _ r hr
  split_ifs <;> first | exact Or.inl rfl | exact Or.inr ⟨_, rfl⟩

theorem uploadTurn_effect (env : Env) (h : HeadInfo) (s : Store) (r : HeadInfo × Store)
    (hr : (uploadTurn env h s).after = some r) : Effect env h s r.1 r.2 := by
  unfold uploadTurn at hr
  split_ifs at hr with hcur
  · exact searchTurn_effect env h s hcur r hr
  · exact fileTurn_effect env h s hcur r hr

theorem uploadLoop_keeps {env : Env} {I : HeadInfo → Store → Prop}
    (hkeep : ∀ h s h' s', I h s → Effect env h s h' s' → I h' s') (n : ℕ) (h : HeadInfo) (s : Store)
    (hi : I h s) (r : Bool × HeadInfo × Store) (hr : uploadLoop env n h s = some r) :
    I r.2.1 r.2.2 := by
  induction n generalizing h s with
  | zero => cases hr
  | succ n ih =>
    unfold uploadLoop at hr
    split_ifs at hr
    · cases ht : uploadTurn env h s with
      | again h' s' =>
        rw [ht] at hr
        exact ih h' s'
          (hkeep h s h' s' hi (uploadTurn_effect env h s (h', s') (by rw [ht]; rfl))) hr
      | leaves ret h' s' =>
        rw [ht] at hr
        cases hr
        exact hkeep h s h' s' hi (uploadTurn_effect env h s (h', s') (by rw [ht]; rfl))
      | throws =>
        rw [ht] at hr
        cases hr
    · cases hr
      exact hi

def HeadFits (body : Bytes) : Prop :=
  Small (find (sep ++ sep) body) ∧
  ∀ e, find (sep ++ sep) body = some e → Small (find filenameKey body) ∧
    ∀ k, find filenameKey body = some k → k ≤ e →
      Small (findFrom [quote] (k+filenameKey.length) body)

def TurnFits (h : HeadInfo) : Prop :=
  if h.curUploadFile = [] then
    Small (find h.bodyBoundary h.requestBody) ∧
    ∀ i, find h.bodyBoundary h.requestBody = some i → HeadFits (h.requestBody.drop i)
  else Small (find (sep ++ h.bodyBoundary) h.requestBody)

def LoopFits (env : Env) : ℕ → HeadInfo → Store → Prop
  | 0, _, _ => True
  | n+1, h, s => loopGuard h = true → TurnFits h ∧
      ∀ h' s', uploadTurn env h s = .again h' s' → LoopFits env n h' s'

/-- In no call for these pieces does the scanner meet a position of `2^31` or more. -/
def BodiesFit (env : Env) : List Bytes → HeadInfo → Store → Prop
  | [], _, _ => True
  | data::rest, h, s =>
    (h.responseStatus = [] → isUpload h = true →
      LoopFits env (turnBound (setBody h (h.requestBody ++ data)))
        (setBody h (h.requestBody ++ data)) s) ∧
    ∀ r, onBody env data h s = some r → BodiesFit env rest r.1 r.2

end CloudBackup.UploadScanner
