import CloudBackup.MessageServing
import CloudBackup.ResponseFraming
import CloudBackup.ServiceRestart

/-!
# The server is a file service

Messages of any connections are served one after the other, the storage thread
makes its passes and the server is restarted in between. The links and forms of
the page ask for a list, a file, a deletion or an upload. Every response tells
what the service of named contents replies to the same requests.
-/

set_option autoImplicit false

namespace CloudBackup.BackupService
open CloudBackup.PatternSearch CloudBackup.ByteStrings CloudBackup.JsonCodec CloudBackup.FilePath
open CloudBackup.FileStore CloudBackup.DataManager CloudBackup.UploadScanner
  CloudBackup.UploadChunking
open CloudBackup.Download CloudBackup.HttpCallbacks CloudBackup.PercentEncoding CloudBackup.Routing
open CloudBackup.LinkNames CloudBackup.StoragePass
open CloudBackup.UploadRoundTrip CloudBackup.PartFates CloudBackup.MetadataFile CloudBackup.Restart
open CloudBackup.ResponseFraming CloudBackup.FileService CloudBackup.Backing
  CloudBackup.ServiceRestart
open CloudBackup.MessageServing

inductive Event where
  | message (h : HeadInfo) (m : Message)
  | pass
  | restart (clock : ℕ → ℤ)

def act (env : Env) (codec : Codec) (s : Store) : Event → Option (Option Response × Store)
  | .message h m => (serveMessage env codec h s m).map fun r => (some r.1, r.2)
  | .pass => (pass env codec s).map fun t => (none, t)
  | .restart clock => (restart env codec clock s).map fun t => (none, t)

def formType : Bytes := bytes "multipart/form-data; boundary="

structure Uploads (m : Message) (b : Bytes) (ps : List Part) : Prop where
  method : m.head.methodName = bytes "POST"
  url : m.head.url.flatten = bytes "/upload"
  contentType : headerValue (bytes "content-type") m.head.headers = some (formType ++ b)
  boundary : b.all bchar = true
  body : m.body.flatten = encode b ps
  short : m.body.flatten.length < 2^31
  written : ∀ p ∈ ps, RejectedParts.Written b p
  plain : ∀ p ∈ ps, ¬ delimiter b <:+: p.content
  ordinary : ∀ p ∈ ps, checkFilename p.name = true → Ordinary p.name

inductive Asks (codec : Codec) (s : Store) : Event → Request Bytes Bytes → Prop where
  | list (h : HeadInfo) (m : Message) (hmethod : m.head.methodName = bytes "GET")
      (hurl : m.head.url.flatten = bytes "/api/GetBackupFiles") : Asks codec s (.message h m) .list
  | fetch (h : HeadInfo) (m : Message) (name text : Bytes)
      (hmethod : m.head.methodName = bytes "GET")
      (henc : Encodes isUnreserved name text)
      (hurl : m.head.url.flatten = bytes "/download" ++ slash::text)
      (hwhole : headerValue (bytes "if-range") m.head.headers = none ∨
        headerValue (bytes "range") m.head.headers = none) :
      Asks codec s (.message h m) (.fetch name)
  | drop (h : HeadInfo) (m : Message) (name text : Bytes)
      (hmethod : m.head.methodName = bytes "DELETE")
      (henc : Encodes isUnreserved name text)
      (hurl : m.head.url.flatten = bytes "/delete" ++ slash::text) :
      Asks codec s (.message h m) (.drop name)
  | store (h : HeadInfo) (m : Message) (b : Bytes) (ps : List Part) (hup : Uploads m b ps) :
      Asks codec s (.message h m) (.store (pairs ps))
  | pass (hdirty : s.isDirty = true) (hwrites : Writes codec s) : Asks codec s .pass .upkeep
  | restart (clock : ℕ → ℤ) (hclock : ∀ n, Int64Range (clock n)) (hclean : s.isDirty = false) :
      Asks codec s (.restart clock) .upkeep

def fileSize (F : Bytes) : ℤ := F.length

def headOf (x : Response) : Bytes := responseSeralize { x.headInfo with responseBody := [] }

/-- A response of a head alone, which announces no length. -/
structure Bare (x : Response) (status : Bytes) : Prop where
  status : x.headInfo.responseStatus = status
  headers : x.headInfo.responseHeaders = ∅
  output : x.output = headOf x

structure Carries (x : Response) (status content : Bytes) : Prop where
  status : x.headInfo.responseStatus = status
  length : x.headInfo.responseHeaders.lookup lengthKey = some (toDecimal content.length)
  output : x.output = headOf x ++ content

def storedStatus (taken refused : List Bytes) : Bytes :=
  if refused = [] then bytes "200" else if taken = [] then bytes "400" else bytes "207"

structure Lists (infos : List BackupInfoNode) (sizes : Bytes → Option ℤ) : Prop where
  names : (infos.map BackupInfoNode.filename).Nodup
  sizes : ∀ name size, (∃ i ∈ infos, i.filename = name ∧ i.size = size) ↔ sizes name = some size

inductive Tells (codec : Codec) : Option Response → Reply Bytes Bytes ℤ → Prop where
  | listed (x : Response) (sizes : Bytes → Option ℤ) (infos : List BackupInfoNode) (text : Bytes)
      (hinfos : Lists infos sizes) (hser : codec.serialize (fileList infos) = some text)
      (hx : Carries x (bytes "200") text) : Tells codec (some x) (.listed sizes)
  | fetched (x : Response) (F : Bytes)
      (hx : Carries x (bytes "200") F) : Tells codec (some x) (.fetched (some F))
  | missing (x : Response) (hx : Bare x (bytes "404")) : Tells codec (some x) (.fetched none)
  | dropped (x : Response) (hx : Bare x (bytes "200")) : Tells codec (some x) (.dropped true)
  | absent (x : Response) (hx : Bare x (bytes "404")) : Tells codec (some x) (.dropped false)
  | stored (x : Response) (taken refused : List Bytes) (text : Bytes)
      (hser : codec.serialize (uploadReport
        { uploadSuccessFiles := taken, uploadFailFiles := refused }) = some text)
      (hx : Carries x (storedStatus taken refused) text) : Tells codec (some x)
        (.stored taken refused)
  | done : Tells codec none .done

/-- The writer does not fail on what a response carries. -/
structure Reports (codec : Codec) : Prop where
  uploads : ∀ h, (codec.serialize (uploadReport h)).isSome = true
  lists : ∀ infos, (codec.serialize (fileList infos)).isSome = true

/-- What the head does not fill in. -/
def requestless (h : HeadInfo) : HeadInfo :=
  { h with
    requestMethod := []
    requestUrl := []
    requestUrlPrefix := []
    requestUrlPath := []
    requestVersion := []
    requestCurHeaderField := []
    requestCurHeaderValue := []
    requestHeaders := ∅ }

theorem headBefore_requestless (r : RequestHead) : requestless (headBefore r) = {} := by
  have hheaders : ∀ (headers : List (List Bytes × List Bytes)) (h : HeadInfo),
      requestless (headers.foldl onHeader h) = requestless h := by
    intro headers
    induction headers with
    | nil => exact fun h => rfl
    | cons header headers ih => exact fun h => ih (onHeader h header)
  have hurl : ∀ h : HeadInfo, requestless (onUrlComplete h) = requestless h := by
    intro h
    unfold onUrlComplete
    dsimp only
    split <;> rfl
  rw [headBefore, hheaders]
  exact hurl (onUrl r.url.flatten (onMethod r.method.flatten {}))

structure Untouched (h : HeadInfo) : Prop where
  status : h.responseStatus = []
  headers : h.responseHeaders = ∅
  body : h.responseBody = []
  requestBody : h.requestBody = []
  upload : h.curUploadFile = []
  lists : h.uploadSuccessFiles = [] ∧ h.uploadFailFiles = []

theorem headBefore_untouched (r : RequestHead) : Untouched (headBefore r) := by
  have h := headBefore_requestless r
  have hfield : ∀ {α : Type} (field : HeadInfo → α),
    field (requestless (headBefore r)) = field {} :=
    fun field => congrArg field h
  exact ⟨hfield HeadInfo.responseStatus, hfield HeadInfo.responseHeaders,
    hfield HeadInfo.responseBody,
    hfield HeadInfo.requestBody, hfield HeadInfo.curUploadFile, hfield HeadInfo.uploadSuccessFiles,
    hfield HeadInfo.uploadFailFiles⟩

theorem route_file {method text : Bytes} (route : Bytes) {r : RequestHead}
    (hmethod : r.methodName = method) (hroute : slash ∉ route)
    (hurl : r.url.flatten = (slash::route) ++ slash::text) :
    Routes method (slash::route) (slash::text) (headBefore r) := by
  have hr := headBefore_routing r
  rwa [hurl, splitUrl_file slash route text hroute, hmethod] at hr

theorem route_bare {method : Bytes} (route : Bytes) {r : RequestHead}
    (hmethod : r.methodName = method) (hroute : slash ∉ route)
    (hurl : r.url.flatten = slash::route) : Routes method (slash::route) [] (headBefore r) := by
  have hr := headBefore_routing r
  rwa [hurl, splitUrl_bare slash route hroute, hmethod] at hr

theorem output_body (h : HeadInfo) :
    responseSeralize h = responseSeralize { h with responseBody := [] } ++ h.responseBody := by
  simp only [responseSeralize, List.append_nil, List.append_assoc]

theorem carries_body {h : HeadInfo} {status text : Bytes} (hstatus : h.responseStatus = status) :
    Carries { headInfo := jsonBody text h, output := responseSeralize (jsonBody text h) }
      status text where
  status := hstatus
  length := setHeader_lookup _ _ _
  output := output_body _

theorem bare_status {h : HeadInfo} {status : Bytes} (hstatus : h.responseStatus = status)
    (hu : Unanswered h) :
    Bare { headInfo := h, output := responseSeralize h } status where
  status := hstatus
  headers := hu.1
  output := by rw [output_body, hu.2, List.append_nil]; rfl

theorem carries_whole {h : HeadInfo} {info : BackupInfoNode} {F : Bytes}
    (hbody : h.responseBody = [])
    (hsize : info.size = F.length) :
    Carries { headInfo := wholeFile info h, output := responseSeralize (wholeFile info h) ++ F }
      (bytes "200") F where
  status := rfl
  length := by
    dsimp only
    rw [wholeFile, lengthKey, setHeader_other _ _ _ _ (by decide), setHeader_lookup, hsize]
  output := by
    have hnone : (wholeFile info h).responseBody = [] := by
      simp only [wholeFile, setHeader, setStatus, hbody]
    have hhead := output_body (wholeFile info h)
    rw [hnone, List.append_nil] at hhead
    exact congrArg (· ++ F) hhead

theorem not_upload {method urlPrefix path : Bytes} {h : HeadInfo}
    (hr : Routes method urlPrefix path h)
    (hne : method ≠ bytes "POST") : isUpload h = false := by
  rw [isUpload, hr.method, decide_eq_false hne, Bool.false_and]

def versioned (h : HeadInfo) : HeadInfo :=
  { h with responseVersion := bytes "HTTP/" ++ h.requestVersion }

section Route
variable {h : HeadInfo} {path : Bytes}

theorem headers_download (hr : Routes (bytes "GET") (bytes "/download") path h) :
    onHeadersComplete h = (urlFile h).map fun name =>
      if checkFilename name then { versioned h with curDownloadFile := name }
      else notFound { versioned h with curDownloadFile := name } := by
  have hroute : isGet (bytes "/download") (versioned h) = true := by
    simp [isGet, versioned, hr.method, hr.urlPrefix]
  exact if_pos hroute

theorem headers_delete (hr : Routes (bytes "DELETE") (bytes "/delete") path h) :
    onHeadersComplete h = (urlFile h).map fun name =>
      if checkFilename name then { versioned h with curDeleteFile := name }
      else notFound { versioned h with curDeleteFile := name } := by
  have hget : ¬ isGet (bytes "/download") (versioned h) = true := by
    simp only [isGet, versioned, hr.method, hr.urlPrefix]
    decide
  have hroute : isDelete (versioned h) = true := by
    simp [isDelete, versioned, hr.method, hr.urlPrefix]
  exact (if_neg hget).trans (if_pos hroute)

theorem headers_api (hr : Routes (bytes "GET") (bytes "/api") path h) :
    onHeadersComplete h = some (versioned h) := by
  have hget : ¬ isGet (bytes "/download") (versioned h) = true := by
    simp only [isGet, versioned, hr.method, hr.urlPrefix]
    decide
  have hdelete : ¬ isDelete (versioned h) = true := by
    simp only [isDelete, versioned, hr.method, hr.urlPrefix]
    decide
  have hup : ¬ isUpload (versioned h) = true := by
    simp only [isUpload, versioned, hr.method, hr.urlPrefix]
    decide
  exact (if_neg hget).trans ((if_neg hdelete).trans (if_neg hup))

theorem download_whole {s : Store} {id : NodeId} (hid : validNode h.curDownloadFile s = some id)
    (hwhole : h.requestHeaders.lookup (bytes "if-range") = none ∨
      h.requestHeaders.lookup (bytes "range") = none) :
    processDownloadRequest h s = some (wholeFile (s.nodes id).info h,
      some ⟨id, 0, (s.nodes id).info.size⟩) := by
  rw [processDownloadRequest, getFileInfoNode, hid]
  dsimp only
  cases hwhole with
  | inl hnone => rw [hnone]
  | inr hnone =>
    rw [hnone]
    cases h.requestHeaders.lookup (bytes "if-range") with
    | none => rfl
    | some ifRange => rfl

variable (env : Env) (codec : Codec) (s : Store) (hst : h.responseStatus = [])
include hst

theorem complete_api (hr : Routes (bytes "GET") (bytes "/api") path h) :
    onMessageComplete env codec h s =
      some (processApiRequest codec h s, s, answer (processApiRequest codec h s) none false) := by
  simp only [onMessageComplete, hst, isGet, isDelete, isUpload, hr.method, hr.urlPrefix]
  rfl

theorem complete_download (hr : Routes (bytes "GET") (bytes "/download") path h) :
    onMessageComplete env codec h s = (processDownloadRequest h s).map fun r =>
      (r.1, s, answer r.1 r.2 false) := by
  simp only [onMessageComplete, hst, isGet, hr.method, hr.urlPrefix]
  rfl

theorem complete_delete (hr : Routes (bytes "DELETE") (bytes "/delete") path h) :
    onMessageComplete env codec h s = some ((processDeleteRequest env h s).1,
      (processDeleteRequest env h s).2,
      answer (processDeleteRequest env h s).1 none false) := by
  simp only [onMessageComplete, hst, isGet, isDelete, hr.method, hr.urlPrefix]
  rfl

theorem complete_upload (hr : Routes (bytes "POST") (bytes "/upload") path h) :
    onMessageComplete env codec h s =
      some (processUploadRequest codec h, s, answer (processUploadRequest codec h) none false) := by
  simp only [onMessageComplete, hst, isGet, isDelete, isUpload, hr.method, hr.urlPrefix]
  rfl

end Route

theorem serve_refused (env : Env) (codec : Codec) (s : Store) (h : HeadInfo) {m : Message}
    {g : HeadInfo}
    (hhead : onHeadersComplete (headBefore m.head) = some g) (hst : g.responseStatus ≠ []) :
    serveMessage env codec h s m = some ({ headInfo := g, output := responseSeralize g }, s) := by
  rw [serveMessage_eq, hhead, Option.bind_some, onBodies_ignored env m.body g s (Or.inl hst),
    Option.bind_some, onMessageComplete, if_pos hst]
  rfl

structure Asking (method route text : Bytes) (r : RequestHead) (g : HeadInfo) : Prop where
  route : Routes method route (slash::text) g
  status : g.responseStatus = []
  unanswered : Unanswered g
  headers : ∀ key, g.requestHeaders.lookup key = headerValue key r.headers

section Named
variable {r : RequestHead} {name text : Bytes} (henc : Encodes isUnreserved name text)
include henc

theorem urlFile_name {h : HeadInfo} (hpath : h.requestUrlPath = slash::text) :
    urlFile h = some name := by
  rw [urlFile, hpath, if_neg (List.cons_ne_nil _ _), List.drop_one, List.tail_cons, urlDecode,
    encoded_decodeFrom henc]
  rfl

theorem download_named (hmethod : r.methodName = bytes "GET")
    (hurl : r.url.flatten = bytes "/download" ++ slash::text) :
    ∃ g, Asking (bytes "GET") (bytes "/download") text r g ∧ g.curDownloadFile = name ∧
      onHeadersComplete (headBefore r) = some (if checkFilename name then g else notFound g) := by
  have hroute : Routes (bytes "GET") (bytes "/download") (slash::text) (headBefore r) :=
    route_file (bytes "download") hmethod (by decide) hurl
  refine ⟨{ versioned (headBefore r) with curDownloadFile := name }, ?_, rfl, ?_⟩
  · exact ⟨⟨hroute.method, hroute.urlPrefix, hroute.urlPath⟩, (headBefore_untouched r).status,
      ⟨(headBefore_untouched r).headers, (headBefore_untouched r).body⟩, headBefore_lookup r⟩
  · rw [headers_download hroute, urlFile_name henc hroute.urlPath]
    rfl

theorem delete_named (hmethod : r.methodName = bytes "DELETE")
    (hurl : r.url.flatten = bytes "/delete" ++ slash::text) :
    ∃ g, Asking (bytes "DELETE") (bytes "/delete") text r g ∧ g.curDeleteFile = name ∧
      onHeadersComplete (headBefore r) = some (if checkFilename name then g else notFound g) := by
  have hroute : Routes (bytes "DELETE") (bytes "/delete") (slash::text) (headBefore r) :=
    route_file (bytes "delete") hmethod (by decide) hurl
  refine ⟨{ versioned (headBefore r) with curDeleteFile := name }, ?_, rfl, ?_⟩
  · exact ⟨⟨hroute.method, hroute.urlPrefix, hroute.urlPath⟩, (headBefore_untouched r).status,
      ⟨(headBefore_untouched r).headers, (headBefore_untouched r).body⟩, headBefore_lookup r⟩
  · rw [headers_delete hroute, urlFile_name henc hroute.urlPath]
    rfl

end Named

section Requests
variable {env : Env} (hh : Housed env) {codec : Codec} {f : Files Bytes Bytes} {s : Store}
  (hs : Backs env codec f s)
include hh hs

theorem lists_records : Lists (getAllBackupInfo s) fun name => (f name).map fileSize := by
  have hstored := shelf_stored hh hs.shelf hs.timed
  refine ⟨snapshot_names hstored, fun name size => ?_⟩
  constructor
  · rintro ⟨r, hr, rfl, rfl⟩
    obtain ⟨F, id, hF, hk, hnode⟩ := recorded_keeps hs ((mem_snapshot hstored r).mp hr)
    rw [hF, Option.map_some, fileSize, ← hk.size, hnode]
  · intro hsize
    obtain ⟨F, hF, hlen⟩ := Option.map_eq_some_iff.mp hsize
    obtain ⟨id, hid⟩ := Option.isSome_iff_exists.mp
      ((shelf_valid hs.shelf name).trans (by rw [hF]; rfl) : (validNode name s).isSome = true)
    obtain ⟨G, hG, hk⟩ := hs.shelf.kept name id hid
    obtain rfl := Option.some.inj (hG.symm.trans hF)
    have hrecord : Recorded s (s.nodes id).info :=
      ⟨id, by rw [hk.filename]; exact (validNode_iff name s id).mp hid, rfl⟩
    exact ⟨_, (mem_snapshot hstored _).mpr hrecord, hk.filename, hk.size.trans hlen⟩

theorem serve_list (hreports : Reports codec) (h : HeadInfo) (m : Message)
    (hmethod : m.head.methodName = bytes "GET")
    (hurl : m.head.url.flatten = bytes "/api/GetBackupFiles") :
    ∃ x, serveMessage env codec h s m = some (x, s) ∧
      Tells codec (some x) (.listed fun name => (f name).map fileSize) := by
  have hroute : Routes (bytes "GET") (bytes "/api") (bytes "/GetBackupFiles") (headBefore m.head) :=
    route_file (bytes "api") hmethod (by decide) hurl
  have hst : (versioned (headBefore m.head)).responseStatus = [] :=
    (headBefore_untouched m.head).status
  have hpath : (versioned (headBefore m.head)).requestUrlPath = bytes "/GetBackupFiles" :=
    hroute.urlPath
  obtain ⟨text, htext⟩ := Option.isSome_iff_exists.mp (hreports.lists (getAllBackupInfo s))
  have hroute' : Routes (bytes "GET") (bytes "/api") (bytes "/GetBackupFiles")
    (versioned (headBefore m.head)) :=
    ⟨hroute.method, hroute.urlPrefix, hroute.urlPath⟩
  have hbody : processApiRequest codec (versioned (headBefore m.head)) s =
      jsonBody text (setStatus (bytes "200") (bytes "OK") (versioned (headBefore m.head))) := by
    rw [processApiRequest, if_pos hpath, htext]
  refine ⟨_, ?_, .listed _ _ (getAllBackupInfo s) text (lists_records hh hs) htext
    (carries_body (h := setStatus (bytes "200") (bytes "OK") (versioned (headBefore m.head))) rfl)⟩
  rw [serveMessage_eq, headers_api hroute, Option.bind_some,
    onBodies_ignored env m.body _ s (Or.inr (not_upload hroute' (by decide))), Option.bind_some,
      complete_api env codec s hst hroute', Option.bind_some, hbody]
  rfl

omit hh in
theorem backs_served {name F : Bytes} {id : NodeId} (hid : validNode name s = some id)
    (hF : f name = some F) :
    Download.Served env name F id s ∧ F.length < 2^63 := by
  obtain ⟨G, hG, hk⟩ := hs.shelf.kept name id hid
  obtain rfl := Option.some.inj (hG.symm.trans hF)
  refine ⟨⟨hid, hk.filename, hk.size, hk.file, hs.shelf.faults, fun i hi e => ?_⟩, hk.short⟩
  exact hs.cached i hi name G (e ▸ hid) hF

omit hh in
theorem deliver_whole (hread : 0 < env.maxFileReadSize) {name F : Bytes} {id : NodeId}
    (hid : validNode name s = some id)
    (hF : f name = some F) (a : Answer) (ha : a.subTask = some ⟨id, 0, F.length⟩) :
    ∃ t, deliver env a s = some (a.response ++ F, t) ∧ Backs env codec f t := by
  obtain ⟨hserved, hshort⟩ := backs_served hs hid hF
  have hchain : ∃ segs t, sendChain env (taskBound ⟨id, 0, F.length⟩)
    ⟨id, 0, F.length⟩ s = some (segs, t) ∧
      segs.flatten = F := by
    cases F with
    | nil => exact ⟨[], s, rfl, rfl⟩
    | cons c cs =>
      have hfront := (cachedPrefix_front hserved).length_le
      obtain ⟨segs, t, hsend, hflat⟩ := (sendChain_exact env name (c::cs) id hshort hread
        (taskBound ⟨id, 0, (c::cs).length⟩) 0 (c::cs).length s hserved le_rfl (by simp) le_rfl
        (by simp [taskBound])).mpr fun _ => by exact_mod_cast hfront
      refine ⟨segs, t, hsend, hflat.trans ?_⟩
      simp [slice]
  obtain ⟨segs, t, hsend, hflat⟩ := hchain
  refine ⟨t, ?_, backs_sendChain hs _ _ _ hsend⟩
  rw [deliver, ha]
  dsimp only
  rw [hsend, Option.map_some, hflat]

omit hh in
theorem accepted_kept {name : Bytes} (hcheck : checkFilename name = false) : f name = none := by
  by_contra hsome
  obtain ⟨id, hid⟩ := Option.isSome_iff_exists.mp
    ((shelf_valid hs.shelf name).trans (Option.isSome_iff_ne_none.mpr hsome) :
      (validNode name s).isSome = true)
  obtain ⟨F, -, hk⟩ := hs.shelf.kept name id hid
  exact Bool.false_ne_true (hcheck.symm.trans hk.accepted)

omit hh in
theorem serve_fetch (hread : 0 < env.maxFileReadSize) (h : HeadInfo) (m : Message)
    (name text : Bytes)
    (hmethod : m.head.methodName = bytes "GET") (henc : Encodes isUnreserved name text)
    (hurl : m.head.url.flatten = bytes "/download" ++ slash::text)
    (hwhole : headerValue (bytes "if-range") m.head.headers = none ∨
      headerValue (bytes "range") m.head.headers = none) :
    ∃ x t, serveMessage env codec h s m = some (x, t) ∧ Tells codec (some x) (.fetched (f name)) ∧
      Backs env codec f t := by
  obtain ⟨g, hg, hnamed, hhead⟩ := download_named henc hmethod hurl
  cases hcheck : checkFilename name with
  | false =>
    rw [if_neg (by rw [hcheck]; exact Bool.false_ne_true)] at hhead
    rw [accepted_kept hs hcheck]
    exact ⟨_, s, serve_refused env codec s h hhead (by decide : bytes "404" ≠ []),
      .missing _ (bare_status rfl hg.unanswered), hs⟩
  | true =>
    rw [if_pos hcheck] at hhead
    rw [serveMessage_eq, hhead, Option.bind_some,
      onBodies_ignored env m.body g s (Or.inr (not_upload hg.route (by decide))), Option.bind_some,
      complete_download env codec s hg.status hg.route]
    cases hid : validNode name s with
    | none =>
      have hrequest : processDownloadRequest g s = some (notFound g, none) := by
        rw [processDownloadRequest, getFileInfoNode, hnamed, hid]
        rfl
      rw [hs.shelf.absent name hid, hrequest]
      exact ⟨_, s, rfl, .missing _ (bare_status rfl hg.unanswered), hs⟩
    | some id =>
      obtain ⟨F, hF, hk⟩ := hs.shelf.kept name id hid
      have hrequest := download_whole (h := g) (by rw [hnamed, hid])
        (by rw [hg.headers, hg.headers]; exact hwhole)
      rw [hk.size] at hrequest
      obtain ⟨t, hdeliver, ht⟩ := deliver_whole hs hread hid hF
        (answer (wholeFile (s.nodes id).info g) (some ⟨id, 0, F.length⟩) false) rfl
      rw [hrequest, Option.map_some, Option.bind_some, hdeliver, hF]
      exact ⟨_, t, rfl, .fetched _ F (carries_whole hg.unanswered.2 hk.size), ht⟩

theorem serve_drop (hflat : Flat env) (h : HeadInfo) (m : Message) (name text : Bytes)
    (hmethod : m.head.methodName = bytes "DELETE") (henc : Encodes isUnreserved name text)
    (hurl : m.head.url.flatten = bytes "/delete" ++ slash::text) :
    ∃ x t, serveMessage env codec h s m = some (x, t) ∧
      Tells codec (some x) (.dropped (f name).isSome) ∧
      Backs env codec (Function.update f name none) t := by
  obtain ⟨g, hg, hnamed, hhead⟩ := delete_named henc hmethod hurl
  cases hcheck : checkFilename name with
  | false =>
    rw [if_neg (by rw [hcheck]; exact Bool.false_ne_true)] at hhead
    have hnone := accepted_kept hs hcheck
    rw [Function.update_eq_self_iff.mpr hnone.symm, hnone]
    exact ⟨_, s, serve_refused env codec s h hhead (by decide : bytes "404" ≠ []),
      .absent _ (bare_status rfl hg.unanswered), hs⟩
  | true =>
    rw [if_pos hcheck] at hhead
    obtain ⟨hdone, ht⟩ := backs_delete hh hflat hs name
    rw [serveMessage_eq, hhead, Option.bind_some,
      onBodies_ignored env m.body g s (Or.inr (not_upload hg.route (by decide))), Option.bind_some,
      complete_delete env codec s hg.status hg.route, Option.bind_some]
    have hdelete : processDeleteRequest env g s =
        (if (f name).isSome then setStatus (bytes "200") (bytes "OK") g else notFound g,
          (delete env name s).2) := by
      rw [processDeleteRequest, hnamed, hdone]
    rw [hdelete]
    refine ⟨_, _, rfl, ?_, ht⟩
    cases (f name).isSome with
    | true => exact .dropped _ (bare_status rfl hg.unanswered)
    | false => exact .absent _ (bare_status rfl hg.unanswered)

omit hh hs in
theorem onBodies_frame {chunks : List Bytes} {h : HeadInfo} {s : Store} {r : HeadInfo × Store}
    (hst : h.responseStatus = []) (hup : isUpload h = true) (hacc : Accepted env chunks h s)
    (hr : onBodies env chunks h s = some r) : frame r.1 = frame h := by
  induction chunks generalizing h s with
  | nil =>
    cases hr
    rfl
  | cons data rest ih =>
    obtain ⟨h', s', hloop, hrest⟩ := hacc
    have hframe : frame h' = frame h := uploadLoop_frame env _ _ s _ hloop
    have hfields := frame_fields hframe
    have hbody : onBody env data h s = some (h', s') := by
      simp [onBody, hst, hup, hloop]
    rw [onBodies, hbody] at hr
    exact (ih (hfields.1.trans hst) (hfields.2.trans hup) hrest hr).trans hframe

omit hh hs in
theorem content_short (b : Bytes) {p : Part} {ps : List Part} (hp : p ∈ ps) :
    p.content.length ≤ (encode b ps).length := by
  induction ps with
  | nil => cases hp
  | cons q qs ih =>
    rw [RejectedParts.encode_cons, RejectedParts.afterHead]
    simp only [List.length_append]
    cases List.mem_cons.mp hp with
    | inl he =>
      subst he
      omega
    | inr hin =>
      have hrest := ih hin
      omega

omit hh hs in
theorem formType_boundary (b : Bytes) : boundaryOf (formType ++ b) = some (delimiter b) := by
  have hkey : find boundaryKey formType = some 21 := by decide
  rw [boundaryOf, find_append boundaryKey formType b 21 hkey, Option.map_some,
    List.drop_append_of_le_length (by decide),
      show formType.drop (21+boundaryKey.length) = [] from by decide]
  rfl

omit hh hs in
theorem upload_named {m : Message} {b : Bytes} {ps : List Part} (hup : Uploads m b ps) :
    ∃ g, onHeadersComplete (headBefore m.head) = some g ∧ Routes (bytes "POST") (bytes "/upload")
      [] g ∧ Untouched g ∧
      g.bodyBoundary = delimiter b := by
  have hroute : Routes (bytes "POST") (bytes "/upload") [] (headBefore m.head) :=
    route_bare (bytes "upload") hup.method (by decide) hup.url
  have hpost : isUpload (headBefore m.head) = true := by
    rw [isUpload, hroute.method, hroute.urlPrefix]
    decide
  have hu := headBefore_untouched m.head
  refine ⟨{ versioned (headBefore m.head) with bodyBoundary := delimiter b }, ?_,
    ⟨hroute.method, hroute.urlPrefix, hroute.urlPath⟩,
      ⟨hu.status, hu.headers, hu.body, hu.requestBody, hu.upload, hu.lists⟩, rfl⟩
  rw [onHeadersComplete_upload hpost, headBefore_lookup, hup.contentType, Option.bind_some,
    formType_boundary]
  rfl

theorem serve_store (hflat : Flat env) (hreports : Reports codec) (h : HeadInfo) (m : Message)
    (b : Bytes) (ps : List Part)
    (hup : Uploads m b ps) :
    ∃ x t, serveMessage env codec h s m = some (x, t) ∧
      Tells codec (some x) (.stored (storeAll checkFilename (pairs ps) f).1.1
        (storeAll checkFilename (pairs ps) f).1.2) ∧
      Backs env codec (storeAll checkFilename (pairs ps) f).2 t := by
  obtain ⟨g, hhead, hroute, hu, hbound⟩ := upload_named hup
  have hpost : isUpload g = true := by
    rw [isUpload, hroute.method, hroute.urlPrefix]
    decide
  have hshort := hup.short
  have hstage : RejectedParts.Stage env b ps s g s (g.requestBody ++ m.body.flatten) := by
    rw [hu.requestBody, List.nil_append, hup.body]
    exact RejectedParts.encode_stage hu.upload hu.lists
  have hmet := RejectedParts.bodiesMet_plain hup.boundary hup.written hup.plain m.body hpost
    hu.status hbound hstage
    hs.shelf.faults (by rw [hu.requestBody, List.length_nil]; omega)
  obtain ⟨hacc, g', t, hbodies, o, hhandled, hlisted, hnone⟩ :=
    RejectedParts.encoded_handled hup.boundary hup.written hpost
    hbound ⟨hu.requestBody, hu.upload, hu.status, hu.lists⟩ hup.body hmet
  have hmine : NameOwnership.mine g ⊆ NameOwnership.reserved s :=
    fun name hname => absurd (hname.1.trans hu.upload) hname.2
  have hfitting : ∀ p ∈ ps, Fitting p := by
    intro p hp
    have hlen := content_short b hp
    rw [← hup.body] at hlen
    exact ⟨hup.ordinary p hp, by omega⟩
  obtain ⟨htaken, hrefused, hbacks⟩ := backs_handled hh hflat hs hfitting hhandled
    (onBodies_marked env m.body g s _ hmine hbodies)
  have hframe := onBodies_frame hu.status hpost hacc hbodies
  have hroute' : Routes (bytes "POST") (bytes "/upload") [] g' :=
    ⟨(congrArg HeadInfo.requestMethod hframe).trans hroute.method,
      (congrArg HeadInfo.requestUrlPrefix hframe).trans
      hroute.urlPrefix, (congrArg HeadInfo.requestUrlPath hframe).trans hroute.urlPath⟩
  have hst : g'.responseStatus = [] := (frame_fields hframe).1.trans hu.status
  obtain ⟨text, htext⟩ := Option.isSome_iff_exists.mp (hreports.uploads g')
  have hreport : uploadReport g' = uploadReport
      { uploadSuccessFiles := (storeAll checkFilename (pairs ps) f).1.1
        uploadFailFiles := (storeAll checkFilename (pairs ps) f).1.2 } := by
    simp only [uploadReport, hlisted.1, hlisted.2, htaken, hrefused]
  have hstatus : (uploadStatus g').responseStatus =
      storedStatus (storeAll checkFilename (pairs ps) f).1.1
        (storeAll checkFilename (pairs ps) f).1.2 := by
    rw [uploadStatus, storedStatus, hlisted.1, hlisted.2, htaken, hrefused]
    split_ifs <;> rfl
  have hanswer : processUploadRequest codec g' = jsonBody text (uploadStatus g') := by
    rw [processUploadRequest, htext]
  rw [serveMessage_eq, hhead, Option.bind_some, hbodies, Option.bind_some,
    complete_upload env codec t hst hroute', Option.bind_some, hanswer]
  exact ⟨_, t, rfl, .stored _ _ _ text (hreport ▸ htext) (carries_body hstatus), hbacks⟩

end Requests

/-- Every event is served as the service serves its request. -/
theorem act_simulates {env : Env} {codec : Codec} (hh : Housed env) (hflat : Flat env)
    (hread : 0 < env.maxFileReadSize)
    (hcodec : Reads codec) (hreports : Reports codec) :
    Simulates (act env codec) (serve checkFilename fileSize) (Asks codec) (Tells codec) fun s f =>
      Backs env codec f s := by
  intro s f event request hs hasks
  cases hasks with
  | list h m hmethod hurl =>
    obtain ⟨x, hserve, htells⟩ := serve_list hh hs hreports h m hmethod hurl
    exact ⟨(some x, s), by rw [act, hserve]; rfl, htells, hs⟩
  | fetch h m name text hmethod henc hurl hwhole =>
    obtain ⟨x, t, hserve, htells, ht⟩ := serve_fetch hs hread h m name text hmethod henc hurl hwhole
    exact ⟨(some x, t), by rw [act, hserve]; rfl, htells, ht⟩
  | drop h m name text hmethod henc hurl =>
    obtain ⟨x, t, hserve, htells, ht⟩ := serve_drop hh hs hflat h m name text hmethod henc hurl
    exact ⟨(some x, t), by rw [act, hserve]; rfl, htells, ht⟩
  | store h m b ps hup =>
    obtain ⟨x, t, hserve, htells, ht⟩ := serve_store hh hs hflat hreports h m b ps hup
    exact ⟨(some x, t), by rw [act, hserve]; rfl, htells, ht⟩
  | pass hdirty hwrites =>
    obtain ⟨t, hpass, -, ht⟩ := backs_pass hh hs hdirty hwrites
    exact ⟨(none, t), by rw [act, hpass]; rfl, .done, ht⟩
  | restart clock hclock hclean =>
    obtain ⟨t, hrestart, ht⟩ := backs_restart hh hflat hcodec hs hclock hclean
    exact ⟨(none, t), by rw [act, hrestart]; rfl, .done, ht⟩

/-- The program is a file service: whatever the connections ask, in any pieces, and however
often the server is restarted, every response tells what the service of named contents
replies, and the store still backs its files. -/
theorem service_refined (env : Env) (codec : Codec) (hh : Housed env) (hflat : Flat env)
    (hread : 0 < env.maxFileReadSize)
    (hcodec : Reads codec) (hreports : Reports codec) (f : Files Bytes Bytes) (s : Store)
    (hs : Backs env codec f s)
    (events : List Event) (requests : List (Request Bytes Bytes))
    (hasked : Asked (act env codec) (Asks codec) s events requests) :
    ∃ rs t, replies (act env codec) s events = some (rs, t) ∧
      List.Forall₂ (Tells codec) rs (outcomes (serve checkFilename fileSize) f requests).1 ∧
      Backs env codec (outcomes (serve checkFilename fileSize) f requests).2 t :=
  replies_tell (act_simulates hh hflat hread hcodec hreports) hs hasked

def reportMember (m : Bytes × Json) : Bytes :=
  match m.2 with
  | .array items => newline 1 ++ quoted m.1 ++ bytes " : " ++ newline 1 ++ bytes "[" ++
      (bytes ",").intercalate (items.map fun j => newline 2 ++ plainObject 2 j) ++
        newline 1 ++ bytes "]"
  | _ => plainMember 1 m

def reportText (members : List (Bytes × Json)) : Bytes :=
  bytes "\x7b" ++ (bytes ",").intercalate (members.map reportMember) ++ newline 0 ++ bytes "\x7d"

def serviceCodec : Codec where
  serialize
    | .object members => some (reportText members)
    | j => MetadataCrash.helloCodec.serialize j
  deserialize := MetadataCrash.helloCodec.deserialize

theorem serviceCodec_metadata (infos : List BackupInfoNode) :
    serviceCodec.serialize (metadata infos) = MetadataCrash.helloCodec.serialize
      (metadata infos) := by
  cases infos with
  | nil => rfl
  | cons r rs => rfl

theorem serviceCodec_reads : Reads serviceCodec where
  null := MetadataCrash.helloCodec_reads.null
  back := fun infos text hfits hser => by
    rw [serviceCodec_metadata] at hser
    exact MetadataCrash.helloCodec_reads.back infos text hfits hser
  cut := fun infos text part hser => by
    rw [serviceCodec_metadata] at hser
    exact MetadataCrash.helloCodec_reads.cut infos text part hser

theorem serviceCodec_reports : Reports serviceCodec where
  uploads := fun _ => rfl
  lists := fun infos => by
    cases infos with
    | nil => rfl
    | cons r rs => rfl

def emptyStore : Store := (CleanFlag.firstProcess []).store

theorem plainEnv_flat : Flat plainEnv := by
  intro name hentry
  have hprefix : withSlash (backupDir plainEnv) = bytes "/backup/" := by decide
  rw [entry_target MetadataCrash.plainEnv_housed name hentry, hprefix]
  have hlen : (bytes "/backup/" ++ name).length = 8+name.length := List.length_append
  have hout : bytes "/backup/" ++ name ≠ bytes "/backup" ∧
    bytes "/backup/" ++ name ≠ bytes "/" := by
    constructor <;> (intro he; rw [he] at hlen; simp [bytes] at hlen; omega)
  simp [plainEnv, hout]

theorem emptyStore_backs : Backs plainEnv serviceCodec (fun _ => none) emptyStore := by
  constructor
  · constructor
    · rfl
    · exact fun name h => by cases h
    · exact fun name id h => by cases h
    · exact fun _ _ => rfl
    · intro name hentry hthere
      have hlookup : emptyStore.disk.files.lookup (targetPath plainEnv name) = none := by
        show AList.lookup _ ((∅ : Table Bytes).insert (metaPath plainEnv) (bytes "null")) = none
        rw [AList.lookup_insert_ne (entry_not_meta MetadataCrash.plainEnv_housed hentry),
          AList.lookup_empty]
      rw [hlookup] at hthere
      cases hthere
  · exact ⟨List.nodup_nil, fun id h => by cases h⟩
  · exact fun id h => by cases h
  · have hzero : Int64Range 0 := by constructor <;> decide
    exact ⟨fun _ => hzero, fun _ => hzero⟩
  · exact ⟨bytes "null", AList.lookup_insert _⟩
  · exact fun _ => ⟨[], bytes "null", rfl, AList.lookup_insert _, by decide, List.Perm.refl []⟩

def uploadHello : Message where
  head :=
    { method := [bytes "POST"]
      url := [bytes "/up", bytes "load"]
      version := [bytes "1.1"]
      headers := [([bytes "Content-", bytes "Type"], [formType, bytes "b"])] }
  body := helloChunks

def fileMessage (method url : Bytes) : Message where
  head := { method := [method], url := [url], version := [bytes "1.1"], headers := [] }
  body := []

theorem helloChunks_flatten : helloChunks.flatten = encode (bytes "b") [helloFile] := by
  simp [helloChunks]

theorem uploadHello_uploads : Uploads uploadHello (bytes "b") [helloFile] where
  method := by decide
  url := by decide
  contentType := by decide
  boundary := by decide
  body := helloChunks_flatten
  short := by
    rw [show uploadHello.body.flatten = encode (bytes "b") [helloFile] from helloChunks_flatten]
    decide
  written := by
    intro p hp
    obtain rfl := List.mem_singleton.mp hp
    constructor <;> decide
  plain := by decide
  ordinary := by
    intro p hp _
    obtain rfl := List.mem_singleton.mp hp
    refine ⟨?_, ?_, ?_⟩ <;> decide

def getList : Event := .message {} (fileMessage (bytes "get") (bytes "/api/GetBackupFiles"))

def getHello : Event := .message {} (fileMessage (bytes "GET") (bytes "/download/f"))

def dropHello : Event := .message {} (fileMessage (bytes "DELETE") (bytes "/delete/f"))

theorem hello_link : Encodes isUnreserved (bytes "f") (bytes "f") :=
  .kept 102 [] [] (by decide) .nil

theorem getList_asks (s : Store) : Asks serviceCodec s getList .list :=
  .list _ _ (by decide) (by decide)

theorem getHello_asks (s : Store) : Asks serviceCodec s getHello (.fetch (bytes "f")) :=
  .fetch _ _ _ _ (by decide) hello_link (by decide) (Or.inl (by decide))

theorem dropHello_asks (s : Store) : Asks serviceCodec s dropHello (.drop (bytes "f")) :=
  .drop _ _ _ _ (by decide) hello_link (by decide)

theorem stored_asked (events : List Event) (requests : List (Request Bytes Bytes))
    (hrest : ∀ s, Asked (act plainEnv serviceCodec) (Asks serviceCodec) s events requests) :
    Asked (act plainEnv serviceCodec) (Asks serviceCodec) emptyStore
      (.message {} uploadHello::.pass::(.restart fun _ => 0)::events)
      (.store (pairs [helloFile])::.upkeep::.upkeep::requests) := by
  have hstored : (act plainEnv serviceCodec emptyStore (.message {} uploadHello)).map
      (fun r => (r.2.isDirty, getAllBackupInfo r.2)) = some (true, [MetadataCrash.helloInfo]) := by
        decide +kernel
  have hpassed : ((act plainEnv serviceCodec emptyStore (.message {} uploadHello)).bind fun r =>
      (act plainEnv serviceCodec r.2 .pass).map fun p => p.2.isDirty) = some false := by
        decide +kernel
  refine ⟨.store _ _ (bytes "b") [helloFile] uploadHello_uploads, fun r hr => ?_⟩
  rw [hr] at hstored hpassed
  obtain ⟨hdirty, hrecords⟩ := Prod.mk.inj (Option.some.inj hstored)
  refine ⟨.pass hdirty ⟨MetadataCrash.helloText, ?_, by decide⟩, fun p hp => ?_⟩
  · rw [hrecords]
    rfl
  · rw [Option.bind_some, hp] at hpassed
    exact ⟨.restart _ (fun _ => by constructor <;> decide) (Option.some.inj hpassed),
      fun _ _ => hrest _⟩

/-- Stored, restarted, listed, fetched, dropped and missed. -/
def helloEvents : List Event :=
  [.message {} uploadHello, .pass, .restart fun _ => 0, getList, getHello, dropHello, getHello]

def helloRequests : List (Request Bytes Bytes) :=
  [.store (pairs [helloFile]), .upkeep, .upkeep, .list, .fetch (bytes "f"), .drop (bytes "f"),
    .fetch (bytes "f")]

theorem helloEvents_asked :
    Asked (act plainEnv serviceCodec) (Asks serviceCodec) emptyStore helloEvents helloRequests :=
  stored_asked _ _ fun s =>
    ⟨getList_asks s, fun _ _ => ⟨getHello_asks _, fun _ _ => ⟨dropHello_asks _, fun _ _ =>
    ⟨getHello_asks _, fun _ _ => trivial⟩⟩⟩⟩

theorem service_refined_hello :
    ∃ rs t, replies (act plainEnv serviceCodec) emptyStore helloEvents = some (rs, t) ∧
      List.Forall₂ (Tells serviceCodec) rs
        (outcomes (serve checkFilename fileSize) (fun _ => none) helloRequests).1 ∧
      Backs plainEnv serviceCodec
        (outcomes (serve checkFilename fileSize) (fun _ => none) helloRequests).2 t :=
  service_refined plainEnv serviceCodec MetadataCrash.plainEnv_housed plainEnv_flat
    (by decide) serviceCodec_reads
    serviceCodec_reports (fun _ => none) emptyStore emptyStore_backs helloEvents helloRequests
      helloEvents_asked

/-- After an upload whose answer names a file among the stored ones, and any requests that do
not drop it, restarts among them, the file is fetched with the content that was sent. -/
theorem acknowledged_kept (env : Env) (codec : Codec) (hh : Housed env) (hflat : Flat env)
    (hread : 0 < env.maxFileReadSize)
    (hcodec : Reads codec) (hreports : Reports codec) (f : Files Bytes Bytes) (s : Store)
    (hs : Backs env codec f s)
    (ps : List Part) (name : Bytes) (up down : Event) (events : List Event)
    (requests : List (Request Bytes Bytes))
    (hasked : Asked (act env codec) (Asks codec) s (up::(events ++ [down]))
      (.store (pairs ps)::(requests ++ [.fetch name])))
    (hkept : Request.drop name ∉ requests) :
    ∃ x rs y t taken refused,
      replies (act env codec) s (up::(events ++ [down])) = some (x::(rs ++ [y]), t) ∧
      Tells codec x (.stored taken refused) ∧
      (name ∈ taken → ∃ r p, y = some r ∧ p ∈ ps ∧ p.name = name ∧
        Carries r (bytes "200") p.content) := by
  obtain ⟨xs, t, hreplies, htold, -⟩ :=
    replies_tell (act_simulates hh hflat hread hcodec hreports) hs hasked
  obtain ⟨x, rest, hx, hrest, rfl⟩ := List.forall₂_cons_right_iff.mp htold
  obtain ⟨rs, y, rfl, hy⟩ := tells_last hrest
  refine ⟨x, rs, y, t, _, _, hreplies, hx, fun htaken => ?_⟩
  obtain ⟨-, -, content, hin, hcontent⟩ := storeAll_taken (pairs ps) f htaken
  obtain ⟨p, hp, hpair⟩ := List.mem_map.mp hin
  cases hpair
  have hfetched : (outcomes (serve checkFilename fileSize) (storeAll checkFilename (pairs ps) f).2
    requests).2 p.name =
      some p.content := outcomes_keeps hcontent requests hkept
  have htells : Tells codec y (.fetched ((outcomes (serve checkFilename fileSize)
      (storeAll checkFilename (pairs ps) f).2 requests).2 p.name)) := hy
  rw [hfetched] at htells
  cases htells with
  | fetched r _ hr => exact ⟨r, p, rfl, hp, rfl, hr⟩

theorem acknowledged_kept_hello :
    ∃ x rs y t taken refused, replies (act plainEnv serviceCodec) emptyStore
        (.message {} uploadHello::([.pass, .restart fun _ => 0, getList] ++ [getHello])) =
          some (x::(rs ++ [y]), t) ∧
      Tells serviceCodec x (.stored taken refused) ∧
      (bytes "f" ∈ taken → ∃ r p, y = some r ∧ p ∈ [helloFile] ∧ p.name = bytes "f" ∧
        Carries r (bytes "200") p.content) := by
  apply acknowledged_kept plainEnv serviceCodec MetadataCrash.plainEnv_housed plainEnv_flat
    (by decide) serviceCodec_reads
    serviceCodec_reports (fun _ => none) emptyStore emptyStore_backs [helloFile] (bytes "f")
    (.message {} uploadHello) getHello [.pass, .restart fun _ => 0, getList]
      [.upkeep, .upkeep, .list]
  · exact stored_asked _ _ fun s =>
      ⟨getList_asks s, fun _ _ => ⟨getHello_asks _, fun _ _ => trivial⟩⟩
  · simp

end CloudBackup.BackupService
