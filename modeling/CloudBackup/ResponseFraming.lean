import CloudBackup.HttpCallbacks

/-!
# Where a response ends

A client on a kept connection finds the next response by the status line and
the length of the one before. The callbacks of a message fill in no response
header before it is complete, so the length is there exactly when the branch
that answers the message sets it.
-/

set_option autoImplicit false

namespace CloudBackup.ResponseFraming
open CloudBackup.PatternSearch CloudBackup.ByteStrings CloudBackup.JsonCodec CloudBackup.FilePath
open CloudBackup.FileStore CloudBackup.DataManager CloudBackup.UploadScanner CloudBackup.Download
open CloudBackup.HttpCallbacks

def lengthKey : Bytes := bytes "Content-Length"

def statusLine (h : HeadInfo) : Bytes :=
  h.responseVersion ++ bytes " " ++ h.responseStatus ++ bytes " " ++ h.responseStatusDescribe ++ sep

def headerLine (name value : Bytes) : Bytes := name ++ bytes ": " ++ value ++ sep

/-- The bytes that follow the head: the body, or the range of the scheduled download. -/
def bodyLength (h : HeadInfo) (a : Answer) : ℤ :=
  match a.subTask with
  | none => h.responseBody.length
  | some task => rangeLength task.startPos task.endPos

/-- The response has a status and announces its length, in the table of its
headers and in the bytes. -/
structure Delimited (h : HeadInfo) (a : Answer) : Prop where
  status : h.responseStatus ≠ []
  length : h.responseHeaders.lookup lengthKey = some (toDecimal (bodyLength h a))
  line : ∃ before after, a.response =
    statusLine h ++ before ++ headerLine lengthKey (toDecimal (bodyLength h a)) ++ after ++ sep ++
      h.responseBody

/-- What the callbacks of a message can have collected when it is complete;
the store may change between them. -/
inductive Collected (env : Env) (codec : Codec) : HeadInfo → Prop where
  | begins (h : HeadInfo) : Collected env codec (onMessageBegin h)
  | more (h h' : HeadInfo) (s t : Store) (cb : Callback) (a : Option Answer)
      (hcollected : Collected env codec h)
      (hcb : cb ≠ .messageComplete) (hcall : callback env codec h s cb = some (h', t, a)) :
        Collected env codec h'

def pageFile (env : Env) : Bytes := pathTransform env (bytes "./wwwroot/default.html")

/-- The message was not refused while it was parsed, and asks for the page, which
can be read, for a backup that is there, or for an answer in JSON that can be
serialised. -/
def Sized (env : Env) (codec : Codec) (h : HeadInfo) (s : Store) : Prop :=
  h.responseStatus = [] ∧
  if isGet (bytes "/") h || isGet (bytes "/showlist") h then
    (getContent (pageFile env) 0 (2^32-1) s.disk).1.isSome = true
  else if isGet (bytes "/download") h then (validNode h.curDownloadFile s).isSome = true
  else if isDelete h then False
  else if isUpload h then (codec.serialize (uploadReport h)).isSome = true
  else if isGet (bytes "/api") h then
    h.requestUrlPath = bytes "/GetBackupFiles" ∧
      (codec.serialize (fileList (getAllBackupInfo s))).isSome = true
  else False

def Unanswered (h : HeadInfo) : Prop := h.responseHeaders = ∅ ∧ h.responseBody = []

theorem unanswered_frame {h h' : HeadInfo} (hu : Unanswered h) (hf : frame h' = frame h) :
    Unanswered h' := by
  constructor
  · exact (congrArg HeadInfo.responseHeaders hf).trans hu.1
  · exact (congrArg HeadInfo.responseBody hf).trans hu.2

theorem onHeadersComplete_unanswered {h h' : HeadInfo} (hu : Unanswered h)
    (hh : onHeadersComplete h = some h') : Unanswered h' := by
  obtain ⟨a, b, c, k, rfl, rfl | rfl | rfl⟩ := onHeadersComplete_cases hh
  · exact hu
  · exact hu
  · exact hu

theorem onBody_unanswered {env : Env} {data : Bytes} {h : HeadInfo} {s : Store}
    {r : HeadInfo × Store}
    (hu : Unanswered h) (hr : onBody env data h s = some r) : Unanswered r.1 := by
  unfold onBody at hr
  split_ifs at hr
  · cases hr
    exact hu
  · obtain ⟨q, hq, rfl⟩ := Option.map_eq_some_iff.mp hr
    have hframe := uploadLoop_frame env _ _ s q hq
    have hq : Unanswered q.2.1 :=
      unanswered_frame (h := setBody h (h.requestBody ++ data)) hu hframe
    split_ifs
    · exact hq
    · exact hq
  · cases hr
    exact hu

theorem collected_unanswered {env : Env} {codec : Codec} {h : HeadInfo}
    (hc : Collected env codec h) :
    Unanswered h := by
  induction hc with
  | begins h => exact ⟨rfl, rfl⟩
  | more h h' s t cb a _ hcb hcall ih =>
    cases cb with
    | messageBegin =>
      cases hcall
      exact ⟨rfl, rfl⟩
    | method | url | urlComplete | version | headerField | headerValue | headerValueComplete =>
      cases hcall
      first
      | exact ih
      | (simp only [onUrlComplete]
         split <;> exact ih)
    | headersComplete =>
      obtain ⟨q, hq, heq⟩ := Option.map_eq_some_iff.mp hcall
      cases heq
      exact onHeadersComplete_unanswered ih hq
    | body data =>
      obtain ⟨q, hq, heq⟩ := Option.map_eq_some_iff.mp hcall
      cases heq
      exact onBody_unanswered ih hq
    | messageComplete => exact absurd rfl hcb

theorem lines_split {entries : List (Sigma fun _ : Bytes => Bytes)} {name value : Bytes}
    (h : (⟨name, value⟩ : Sigma fun _ : Bytes => Bytes) ∈ entries) : ∃ before after,
    (entries.map fun e => e.1 ++ bytes ": " ++ e.2 ++ sep).flatten =
      before ++ headerLine name value ++ after := by
  obtain ⟨l, r, rfl⟩ := List.append_of_mem h
  refine ⟨(l.map fun e => e.1 ++ bytes ": " ++ e.2 ++ sep).flatten,
    (r.map fun e => e.1 ++ bytes ": " ++ e.2 ++ sep).flatten, ?_⟩
  rw [List.map_append, List.flatten_append, List.map_cons, List.flatten_cons, headerLine]
  exact (List.append_assoc _ _ _).symm

theorem delimited_of {h : HeadInfo} {a : Answer} (hresponse : a.response = responseSeralize h)
    (hstatus : h.responseStatus ≠ [])
    (hlength : h.responseHeaders.lookup lengthKey = some (toDecimal (bodyLength h a))) :
    Delimited h a := by
  refine ⟨hstatus, hlength, ?_⟩
  obtain ⟨before, after, hlines⟩ := lines_split (AList.mem_lookup_iff.mp hlength)
  refine ⟨before, after, ?_⟩
  rw [hresponse, responseSeralize, hlines]
  simp only [statusLine, List.append_assoc]

theorem undelimited_empty {h : HeadInfo} {a : Answer} (hheaders : h.responseHeaders = ∅) :
    ¬ Delimited h a := by
  intro hd
  have hlength := hd.length
  rw [hheaders] at hlength
  cases hlength

theorem badStatus : bytes "400" ≠ [] ∧ bytes "404" ≠ [] ∧ bytes "200" ≠ [] ∧
    bytes "207" ≠ [] := by decide

theorem setStatus_status (status describe : Bytes) (h : HeadInfo) :
    (setStatus status describe h).responseStatus = status := rfl

theorem setHeader_status (name value : Bytes) (h : HeadInfo) :
    (setHeader name value h).responseStatus = h.responseStatus := rfl

theorem processShowlistRequest_delimited {env : Env} {h : HeadInfo} {s : Store}
    (hu : Unanswered h) :
    Delimited (processShowlistRequest env h s).1
      (answer (processShowlistRequest env h s).1 none (processShowlistRequest env h s).2.1) ↔
    (getContent (pageFile env) 0 (2^32-1) s.disk).1.isSome = true := by
  cases hpage : (getContent (pageFile env) 0 (2^32-1) s.disk).1 with
  | none =>
    have hsame : (processShowlistRequest env h s).1 = h := by
      rw [pageFile] at hpage
      simp only [processShowlistRequest, hpage]
    rw [hsame]
    exact ⟨fun hd => absurd hd (undelimited_empty hu.1), fun hn => nomatch hn⟩
  | some content =>
    refine ⟨fun _ => rfl, fun _ => delimited_of rfl ?_ ?_⟩
    · rw [pageFile] at hpage
      simp only [processShowlistRequest, hpage]
      exact badStatus.2.2.1
    · rw [pageFile] at hpage
      simp only [processShowlistRequest, hpage, bodyLength, answer]
      exact setHeader_lookup _ _ _

theorem processDownloadRequest_delimited {h h' : HeadInfo} {s : Store} {task : Option SendTask}
    (hu : Unanswered h)
    (hreq : processDownloadRequest h s = some (h', task)) :
    Delimited h' (answer h' task false) ↔ (validNode h.curDownloadFile s).isSome = true := by
  cases hid : validNode h.curDownloadFile s with
  | none =>
    rw [processDownloadRequest, getFileInfoNode, hid] at hreq
    cases hreq
    exact ⟨fun hd => absurd hd (undelimited_empty hu.1), fun hn => nomatch hn⟩
  | some id =>
    refine ⟨fun _ => rfl, fun _ => ?_⟩
    have htask : ∃ t, task = some t ∧ h'.responseStatus ≠ [] := by
      rw [processDownloadRequest, getFileInfoNode, hid] at hreq
      dsimp only at hreq
      split at hreq
      · obtain ⟨r, -, heq⟩ := Option.map_eq_some_iff.mp hreq
        cases heq
        exact ⟨_, rfl, by simp only [partOfFile, setHeader_status, setStatus_status]; decide⟩
      · cases hreq
        exact ⟨_, rfl, by simp only [wholeFile, setHeader_status, setStatus_status]; decide⟩
    obtain ⟨t, rfl, hstatus⟩ := htask
    exact delimited_of rfl hstatus (announced h h' s t hreq)

theorem jsonBody_delimited {text : Bytes} {h : HeadInfo} (hstatus : h.responseStatus ≠ []) :
    Delimited (jsonBody text h) (answer (jsonBody text h) none false) :=
  delimited_of rfl hstatus (setHeader_lookup _ _ _)

theorem uploadStatus_status (h : HeadInfo) : (uploadStatus h).responseStatus ≠ [] := by
  unfold uploadStatus
  split_ifs
  · exact badStatus.2.2.1
  · exact badStatus.1
  · exact badStatus.2.2.2

theorem processUploadRequest_delimited {codec : Codec} {h : HeadInfo} (hu : Unanswered h) :
    Delimited (processUploadRequest codec h) (answer (processUploadRequest codec h) none false) ↔
    (codec.serialize (uploadReport h)).isSome = true := by
  rw [processUploadRequest]
  cases codec.serialize (uploadReport h) with
  | none =>
    have hheaders : (uploadStatus h).responseHeaders = ∅ := by
      unfold uploadStatus
      split_ifs <;> exact hu.1
    exact ⟨fun hd => absurd hd (undelimited_empty hheaders), fun hn => nomatch hn⟩
  | some text => exact ⟨fun _ => rfl, fun _ => jsonBody_delimited (uploadStatus_status h)⟩

theorem processApiRequest_delimited {codec : Codec} {h : HeadInfo} {s : Store} (hu : Unanswered h) :
    Delimited (processApiRequest codec h s) (answer (processApiRequest codec h s) none false) ↔
    h.requestUrlPath = bytes "/GetBackupFiles" ∧
      (codec.serialize (fileList (getAllBackupInfo s))).isSome = true := by
  have hnone : ¬ Delimited (notFound h) (answer (notFound h) none false) := undelimited_empty hu.1
  rw [processApiRequest]
  split_ifs with hpath
  · cases codec.serialize (fileList (getAllBackupInfo s)) with
    | none => exact ⟨fun hd => absurd hd hnone, fun hn => nomatch hn.2⟩
    | some text => exact ⟨fun _ => ⟨hpath, rfl⟩, fun _ => jsonBody_delimited badStatus.2.2.1⟩
  · exact ⟨fun hd => absurd hd hnone, fun hn => absurd hn.1 hpath⟩

def unknownUrl : HeadInfo :=
  { requestMethod := bytes "GET", requestUrl := bytes "/x", requestUrlPrefix := bytes "/x",
    requestVersion := bytes "1.1", responseVersion := bytes "HTTP/1.1" }

theorem unknownUrl_collected (env : Env) (codec : Codec) (s : Store) :
    Collected env codec unknownUrl := by
  have h0 : Collected env codec (onMessageBegin {}) := .begins {}
  have h1 := h0.more _ _ s s (.method (bytes "GET")) none (by simp) rfl
  have h2 := h1.more _ _ s s (.url (bytes "/x")) none (by simp) rfl
  have h3 := h2.more _ _ s s .urlComplete none (by simp) rfl
  have h4 := h3.more _ _ s s (.version (bytes "1.1")) none (by simp) rfl
  have hlast : onHeadersComplete { unknownUrl with responseVersion := [] } = some unknownUrl := rfl
  exact h4.more _ unknownUrl s s .headersComplete none (by simp)
    (by rw [callback]; exact congrArg _ hlast)

end CloudBackup.ResponseFraming
