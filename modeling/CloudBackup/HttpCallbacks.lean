import CloudBackup.Download
import CloudBackup.JsonCodec

/-!
# The parser's callbacks

The HTTP parser reports a message piece by piece. The callbacks collect the
pieces in the `HTTPMessageInfo` of the connection, route the request once the
headers are complete, hand the body to the upload scanner and answer when the
message is complete. An exception in a callback ends the process.
-/

set_option autoImplicit false

namespace CloudBackup.HttpCallbacks
open CloudBackup.PatternSearch CloudBackup.ByteStrings CloudBackup.JsonCodec CloudBackup.FilePath
open CloudBackup.FileStore CloudBackup.DataManager CloudBackup.UploadScanner CloudBackup.Download

def toUpper (c : UInt8) : UInt8 := if 97 ≤ c && c ≤ 122 then c-32 else c

def toLower (c : UInt8) : UInt8 := if 65 ≤ c && c ≤ 90 then c+32 else c

def onMessageBegin (_ : HeadInfo) : HeadInfo := {}

def onMethod (data : Bytes) (h : HeadInfo) : HeadInfo :=
  { h with requestMethod := h.requestMethod ++ data.map toUpper }

def onUrl (data : Bytes) (h : HeadInfo) : HeadInfo := { h with requestUrl := h.requestUrl ++ data }

def onUrlComplete (h : HeadInfo) : HeadInfo :=
  let pos := if 1 < h.requestUrl.length then findFrom [slash] 1 h.requestUrl else none
  match pos with
  | none => { h with requestUrlPrefix := h.requestUrl }
  | some n => { h with requestUrlPrefix := h.requestUrl.take n,
                       requestUrlPath := h.requestUrl.drop n }

def onVersion (data : Bytes) (h : HeadInfo) : HeadInfo :=
  { h with requestVersion := h.requestVersion ++ data }

def onHeaderField (data : Bytes) (h : HeadInfo) : HeadInfo :=
  { h with requestCurHeaderField := h.requestCurHeaderField ++ data.map toLower }

def onHeaderValue (data : Bytes) (h : HeadInfo) : HeadInfo :=
  { h with requestCurHeaderValue := h.requestCurHeaderValue ++ data }

def onHeaderValueComplete (h : HeadInfo) : HeadInfo :=
  { h with
    requestHeaders := h.requestHeaders.insert h.requestCurHeaderField h.requestCurHeaderValue
    requestCurHeaderField := []
    requestCurHeaderValue := [] }

def hexValue (c : UInt8) : Option ℕ :=
  if isDigit c then some (c.toNat-48) else if 97 ≤ c && c ≤ 102 then some (c.toNat-87) else none

/-- `none` where a percent sign is not followed by two hexadecimal digits. -/
def decodeFrom : Bytes → Option Bytes
  | [] => some []
  | 37::hex1::hex2::rest =>
    match hexValue (toLower hex1), hexValue (toLower hex2) with
    | some x, some y => (decodeFrom rest).map fun r => UInt8.ofNat (16*x+y) :: r
    | _, _ => none
  | 37::_ => none
  | c::rest => (decodeFrom rest).map fun r => (if c = 43 then 32 else c) :: r

def urlDecode (str : Bytes) : Bytes := (decodeFrom str).getD []

def isGet (urlPrefix : Bytes) (h : HeadInfo) : Bool :=
  h.requestMethod = bytes "GET" && h.requestUrlPrefix = urlPrefix

def isDelete (h : HeadInfo) : Bool :=
  h.requestMethod = bytes "DELETE" && h.requestUrlPrefix = bytes "/delete"

def notFound (h : HeadInfo) : HeadInfo := setStatus (bytes "404") (bytes "Not Found") h

/-- `URLDecode(_request_url_path.substr(1))`; `none` where `substr` throws. -/
def urlFile (h : HeadInfo) : Option Bytes :=
  if h.requestUrlPath = [] then none else some (urlDecode (h.requestUrlPath.drop 1))

def boundaryKey : Bytes := bytes "boundary="

def boundaryOf (contentType : Bytes) : Option Bytes :=
  (find boundaryKey contentType).map fun n => bytes "--" ++ contentType.drop (n+boundaryKey.length)

def onHeadersComplete (h : HeadInfo) : Option HeadInfo :=
  let h := { h with responseVersion := bytes "HTTP/" ++ h.requestVersion }
  if isGet (bytes "/download") h then
    (urlFile h).map fun filename =>
      let h := { h with curDownloadFile := filename }
      if checkFilename filename then h else notFound h
  else if isDelete h then
    (urlFile h).map fun filename =>
      let h := { h with curDeleteFile := filename }
      if checkFilename filename then h else notFound h
  else if isUpload h then
    match (h.requestHeaders.lookup (bytes "content-type")).bind boundaryOf with
    | some boundary => some { h with bodyBoundary := boundary }
    | none => some (badRequest h)
  else some h

/-- The headers set the file or the boundary that they ask for, and a status only when they are
refused. -/
theorem onHeadersComplete_cases {h h' : HeadInfo} (hh : onHeadersComplete h = some h') :
    ∃ a b c, ∃ k : HeadInfo, k = { h with
      responseVersion := bytes "HTTP/" ++ h.requestVersion
      curDownloadFile := a
      curDeleteFile := b
      bodyBoundary := c } ∧ (h' = k ∨ h' = notFound k ∨ h' = badRequest k) := by
  unfold onHeadersComplete at hh
  dsimp only at hh
  split_ifs at hh
  · obtain ⟨filename, -, rfl⟩ := Option.map_eq_some_iff.mp hh
    refine ⟨filename, h.curDeleteFile, h.bodyBoundary, _, rfl, ?_⟩
    split_ifs
    · exact Or.inl rfl
    · exact Or.inr (Or.inl rfl)
  · obtain ⟨filename, -, rfl⟩ := Option.map_eq_some_iff.mp hh
    refine ⟨h.curDownloadFile, filename, h.bodyBoundary, _, rfl, ?_⟩
    split_ifs
    · exact Or.inl rfl
    · exact Or.inr (Or.inl rfl)
  · split at hh
    · rename_i boundary _
      cases hh
      exact ⟨h.curDownloadFile, h.curDeleteFile, boundary, _, rfl, Or.inl rfl⟩
    · cases hh
      exact ⟨h.curDownloadFile, h.curDeleteFile, h.bodyBoundary, _, rfl, Or.inr (Or.inr rfl)⟩
  · cases hh
    exact ⟨h.curDownloadFile, h.curDeleteFile, h.bodyBoundary, _, rfl, Or.inl rfl⟩

theorem upload_not_get {h : HeadInfo} (hup : isUpload h = true) (urlPrefix : Bytes) :
    isGet urlPrefix h = false := by
  have hmethod := of_decide_eq_true (Bool.and_eq_true_iff.mp hup).1
  rw [isGet, hmethod, decide_eq_false (by decide), Bool.false_and]

theorem upload_not_delete {h : HeadInfo} (hup : isUpload h = true) : isDelete h = false := by
  have hmethod := of_decide_eq_true (Bool.and_eq_true_iff.mp hup).1
  rw [isDelete, hmethod, decide_eq_false (by decide), Bool.false_and]

theorem onHeadersComplete_upload {h : HeadInfo} (hup : isUpload h = true) :
    onHeadersComplete h =
      match (h.requestHeaders.lookup (bytes "content-type")).bind boundaryOf with
      | some boundary => some { h with responseVersion := bytes "HTTP/" ++ h.requestVersion,
                                       bodyBoundary := boundary }
      | none => some (badRequest
        { h with responseVersion := bytes "HTTP/" ++ h.requestVersion }) := by
  obtain ⟨g, hg⟩ : ∃ g, g = { h with responseVersion := bytes "HTTP/" ++ h.requestVersion } :=
    ⟨_, rfl⟩
  have hpost : isUpload g = true := hg ▸ hup
  unfold onHeadersComplete
  dsimp only
  rw [← hg]
  simp only [upload_not_get hpost, upload_not_delete hpost, hpost, Bool.false_eq_true,
    if_false, if_true]

/-- The page is left out, and closing the connection is asked for, when it
cannot be read. -/
def processShowlistRequest (env : Env) (h : HeadInfo) (s : Store) : HeadInfo × Bool × Store :=
  let r := getContent (pathTransform env (bytes "./wwwroot/default.html")) 0 (2^32-1) s.disk
  let s := { s with disk := r.2 }
  match r.1 with
  | none => (h, true, s)
  | some content =>
    let h := setStatus (bytes "200") (bytes "OK") h
    let h := setHeader (bytes "Content-Type") (bytes "text/html") h
    let h := setHeader (bytes "Content-Length") (toDecimal content.length) h
    ({ h with responseBody := content }, false, s)

def processDeleteRequest (env : Env) (h : HeadInfo) (s : Store) : HeadInfo × Store :=
  let d := delete env h.curDeleteFile s
  (if d.1 then setStatus (bytes "200") (bytes "OK") h else notFound h, d.2)

def jsonBody (text : Bytes) (h : HeadInfo) : HeadInfo :=
  let h := setHeader (bytes "Content-Type") (bytes "application/json") h
  let h := setHeader (bytes "Content-Length") (toDecimal text.length) h
  { h with responseBody := text }

/-- A list that nothing was appended to is no member. -/
def listMember (key : Bytes) (items : List Json) : List (Bytes × Json) :=
  if items = [] then [] else [(key, .array items)]

def uploadReport (h : HeadInfo) : Json :=
  let success := h.uploadSuccessFiles
  let fail := h.uploadFailFiles
  .object ([(bytes "fail_count", .int fail.length)] ++
    listMember (bytes "fail_files") (fail.map .string) ++
    [(bytes "success_count", .int success.length)] ++
    listMember (bytes "success_files") (success.map .string) ++
    [(bytes "total_count", .int (success.length+fail.length))])

def uploadStatus (h : HeadInfo) : HeadInfo :=
  if h.uploadFailFiles = [] then setStatus (bytes "200") (bytes "OK") h
  else if h.uploadSuccessFiles = [] then badRequest h
  else setStatus (bytes "207") (bytes "Multi-Status") h

def processUploadRequest (codec : Codec) (h : HeadInfo) : HeadInfo :=
  match codec.serialize (uploadReport h) with
  | none => uploadStatus h
  | some text => jsonBody text (uploadStatus h)

def fileNode (info : BackupInfoNode) : Json :=
  .object [(bytes "filename", .string info.filename), (bytes "size", .int info.size),
    (bytes "time", .int info.time)]

/-- A root that nothing was appended to is still null. -/
def fileList (infos : List BackupInfoNode) : Json :=
  if infos = [] then .null else .object [(bytes "files", .array (infos.map fileNode))]

def processApiRequest (codec : Codec) (h : HeadInfo) (s : Store) : HeadInfo :=
  if h.requestUrlPath = bytes "/GetBackupFiles" then
    match codec.serialize (fileList (getAllBackupInfo s)) with
    | none => notFound h
    | some text => jsonBody text (setStatus (bytes "200") (bytes "OK") h)
  else notFound h

/-- The headers come in the order of the table that holds them. -/
def responseSeralize (h : HeadInfo) : Bytes :=
  h.responseVersion ++ bytes " " ++ h.responseStatus ++ bytes " " ++
    h.responseStatusDescribe ++ sep ++
    (h.responseHeaders.entries.map fun e => e.1 ++ bytes ": " ++ e.2 ++ sep).flatten ++ sep ++
      h.responseBody

/-- What the end of a message leaves to be done: the bytes for the response
buffer, the task bound, and whether closing the connection was asked for. -/
structure Answer where
  response : Bytes
  subTask : Option SendTask
  closes : Bool

def answer (h : HeadInfo) (subTask : Option SendTask) (closes : Bool) : Answer :=
  { response := responseSeralize h, subTask := subTask, closes := closes }

def onMessageComplete (env : Env) (codec : Codec) (h : HeadInfo) (s : Store) :
    Option (HeadInfo × Store × Answer) :=
  if h.responseStatus ≠ [] then some (h, s, answer h none false)
  else if isGet (bytes "/") h || isGet (bytes "/showlist") h then
    let r := processShowlistRequest env h s
    some (r.1, r.2.2, answer r.1 none r.2.1)
  else if isGet (bytes "/download") h then
    (processDownloadRequest h s).map fun r => (r.1, s, answer r.1 r.2 false)
  else if isDelete h then
    let r := processDeleteRequest env h s
    some (r.1, r.2, answer r.1 none false)
  else if isUpload h then
    let h := processUploadRequest codec h
    some (h, s, answer h none false)
  else if isGet (bytes "/api") h then
    let h := processApiRequest codec h s
    some (h, s, answer h none false)
  else some (notFound h, s, answer (notFound h) none false)

inductive Callback where
  | messageBegin
  | method (data : Bytes)
  | url (data : Bytes)
  | urlComplete
  | version (data : Bytes)
  | headerField (data : Bytes)
  | headerValue (data : Bytes)
  | headerValueComplete
  | headersComplete
  | body (data : Bytes)
  | messageComplete

/-- `none` when an exception leaves the callback. -/
def callback (env : Env) (codec : Codec) (h : HeadInfo) (s : Store) :
    Callback → Option (HeadInfo × Store × Option Answer)
  | .messageBegin => some (onMessageBegin h, s, none)
  | .method data => some (onMethod data h, s, none)
  | .url data => some (onUrl data h, s, none)
  | .urlComplete => some (onUrlComplete h, s, none)
  | .version data => some (onVersion data h, s, none)
  | .headerField data => some (onHeaderField data h, s, none)
  | .headerValue data => some (onHeaderValue data h, s, none)
  | .headerValueComplete => some (onHeaderValueComplete h, s, none)
  | .headersComplete => (onHeadersComplete h).map fun h => (h, s, none)
  | .body data => (onBody env data h s).map fun r => (r.1, r.2, none)
  | .messageComplete => (onMessageComplete env codec h s).map fun r => (r.1, r.2.1, some r.2.2)

end CloudBackup.HttpCallbacks
