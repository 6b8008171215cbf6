import CloudBackup.HttpCallbacks

/-!
# Routing a request

The head of a message reaches the callbacks as method, URL, version and
headers, each in any pieces. `on_url_complete` splits the URL at its second
slash, and `on_headers_complete` takes the rest of it without the first byte.
-/

set_option autoImplicit false

namespace CloudBackup.Routing
open CloudBackup.PatternSearch CloudBackup.ByteStrings CloudBackup.JsonCodec CloudBackup.FilePath
open CloudBackup.DataManager CloudBackup.UploadScanner CloudBackup.Download
  CloudBackup.HttpCallbacks
open CloudBackup.RunInvariants

/-- A head in the pieces in which the parser reports it. -/
structure RequestHead where
  method : List Bytes
  url : List Bytes
  version : List Bytes
  headers : List (List Bytes × List Bytes)

def headerCalls (header : List Bytes × List Bytes) : List Callback :=
  header.1.map .headerField ++ header.2.map .headerValue ++ [.headerValueComplete]

def RequestHead.calls (r : RequestHead) : List Callback :=
  [.messageBegin] ++ r.method.map .method ++ r.url.map .url ++ [.urlComplete] ++
    r.version.map .version ++ r.headers.flatMap headerCalls ++ [.headersComplete]

def RequestHead.methodName (r : RequestHead) : Bytes := r.method.flatten.map toUpper

def substr (s : Bytes) (pos : ℕ) : Option Bytes :=
  if s.length < pos then none else some (s.drop pos)

def onUrlCompleteChecked (h : HeadInfo) : Option HeadInfo :=
  let pos := if 1 < h.requestUrl.length then findFrom [slash] 1 h.requestUrl else none
  match pos with
  | none => some { h with requestUrlPrefix := h.requestUrl }
  | some n => (substr h.requestUrl n).map fun path =>
      { h with requestUrlPrefix := h.requestUrl.take n, requestUrlPath := path }

def onHeadersCompleteChecked (h : HeadInfo) : Option HeadInfo :=
  let h := { h with responseVersion := bytes "HTTP/" ++ h.requestVersion }
  if isGet (bytes "/download") h then
    (substr h.requestUrlPath 1).map fun str =>
      let h := { h with curDownloadFile := urlDecode str }
      if checkFilename h.curDownloadFile then h else notFound h
  else if isDelete h then
    (substr h.requestUrlPath 1).map fun str =>
      let h := { h with curDeleteFile := urlDecode str }
      if checkFilename h.curDeleteFile then h else notFound h
  else if isUpload h then
    match h.requestHeaders.lookup (bytes "content-type") with
    | none => some (badRequest h)
    | some contentType =>
      match find boundaryKey contentType with
      | none => some (badRequest h)
      | some n => (substr contentType (n+boundaryKey.length)).map fun boundary =>
          { h with bodyBoundary := bytes "--" ++ boundary }
  else some h

/-- The requests that name a file in the URL. -/
def fileRoutes : List (Bytes × Bytes) :=
  [(bytes "GET", bytes "/download"), (bytes "DELETE", bytes "/delete")]

/-- `none` when the name is missing or badly encoded. -/
def fileNamed (route url : Bytes) : Option Bytes :=
  if route ++ [slash] <+: url then decodeFrom (url.drop (route.length+1)) else none

/-- The request is for a file whose name is missing, badly encoded or refused. -/
def Unnamed (r : RequestHead) : Prop := ∃ route, (r.methodName, route) ∈ fileRoutes ∧
  (r.url.flatten = route ∨ route ++ [slash] <+: r.url.flatten) ∧
  ∀ filename, fileNamed route r.url.flatten = some filename → checkFilename filename = false

/-- Whatever body follows, the response is the 404 and nothing else is done. -/
structure NotFound (env : Env) (codec : Codec) (h : HeadInfo) : Prop where
  status : h.responseStatus = bytes "404"
  body : ∀ data s, onBody env data h s = some (h, s)
  complete : ∀ s, onMessageComplete env codec h s = some (h, s, answer h none false)

section
variable (env : Env) (codec : Codec) (s : Store)

def collect (h : HeadInfo) (cb : Callback) : Option HeadInfo :=
  (callback env codec h s cb).map (·.1)

def Routed (h : HeadInfo) (r : RequestHead) : Prop :=
  ∃ h', run (collect env codec s) h r.calls = some h' ∧ (Unnamed r → NotFound env codec h')

end

/-- The URL of a file route with nothing behind the route. -/
def BareRoute (r : RequestHead) : Prop := (r.methodName, r.url.flatten) ∈ fileRoutes

theorem substr_some (s : Bytes) (pos : ℕ) (h : pos ≤ s.length) : substr s pos = some (s.drop pos) :=
  if_neg (not_lt.mpr h)

theorem onUrlComplete_checked (h : HeadInfo) : onUrlCompleteChecked h = some (onUrlComplete h) := by
  unfold onUrlCompleteChecked onUrlComplete
  cases hpos : (if 1 < h.requestUrl.length then findFrom [slash] 1 h.requestUrl else none) with
  | none => rfl
  | some n =>
    split_ifs at hpos with hlen
    have hle := findFrom_le hpos
    dsimp only
    rw [substr_some _ _ (by omega)]
    rfl

theorem urlFile_checked (h : HeadInfo) : urlFile h = (substr h.requestUrlPath 1).map urlDecode := by
  unfold urlFile substr
  cases h.requestUrlPath with
  | nil => rfl
  | cons c cs => simp

theorem onHeadersComplete_checked (h : HeadInfo) :
    onHeadersCompleteChecked h = onHeadersComplete h := by
  unfold onHeadersCompleteChecked onHeadersComplete
  dsimp only
  split_ifs
  · rw [urlFile_checked, Option.map_map]
    rfl
  · rw [urlFile_checked, Option.map_map]
    rfl
  · cases h.requestHeaders.lookup (bytes "content-type") with
    | none => rfl
    | some contentType =>
      cases hfind : find boundaryKey contentType with
      | none => simp [boundaryOf, hfind]
      | some n =>
        have hle := find_le _ _ _ hfind
        simp [boundaryOf, hfind, substr_some _ _ hle]
  · rfl

section Pieces
variable {env : Env} {codec : Codec} {s : Store}

theorem run_pieces (call : Bytes → Callback) (act : Bytes → HeadInfo → HeadInfo)
    (hcall : ∀ h data, collect env codec s h (call data) = some (act data h))
    (hnil : ∀ h, act [] h = h) (happend : ∀ h a b, act b (act a h) = act (a ++ b) h)
    (h : HeadInfo) (pieces : List Bytes) :
    run (collect env codec s) h (pieces.map call) = some (act pieces.flatten h) := by
  induction pieces generalizing h with
  | nil => rw [List.map_nil, run, List.flatten_nil, hnil]
  | cons p ps ih =>
    rw [List.map_cons, run, hcall, Option.bind_some, ih, happend, List.flatten_cons]

theorem run_method (h : HeadInfo) (pieces : List Bytes) :
    run (collect env codec s) h (pieces.map .method) = some (onMethod pieces.flatten h) := by
  apply run_pieces Callback.method onMethod (fun _ _ => rfl)
  · simp [onMethod]
  · simp [onMethod]

theorem run_url (h : HeadInfo) (pieces : List Bytes) :
    run (collect env codec s) h (pieces.map .url) = some (onUrl pieces.flatten h) := by
  apply run_pieces Callback.url onUrl (fun _ _ => rfl)
  · simp [onUrl]
  · simp [onUrl]

theorem run_version (h : HeadInfo) (pieces : List Bytes) :
    run (collect env codec s) h (pieces.map .version) = some (onVersion pieces.flatten h) := by
  apply run_pieces Callback.version onVersion (fun _ _ => rfl)
  · simp [onVersion]
  · simp [onVersion]

theorem run_headerField (h : HeadInfo) (pieces : List Bytes) :
    run (collect env codec s) h
      (pieces.map .headerField) = some (onHeaderField pieces.flatten h) := by
  apply run_pieces Callback.headerField onHeaderField (fun _ _ => rfl)
  · simp [onHeaderField]
  · simp [onHeaderField]

theorem run_headerValue (h : HeadInfo) (pieces : List Bytes) :
    run (collect env codec s) h
      (pieces.map .headerValue) = some (onHeaderValue pieces.flatten h) := by
  apply run_pieces Callback.headerValue onHeaderValue (fun _ _ => rfl)
  · simp [onHeaderValue]
  · simp [onHeaderValue]

def onHeader (h : HeadInfo) (header : List Bytes × List Bytes) : HeadInfo :=
  onHeaderValueComplete (onHeaderValue header.2.flatten (onHeaderField header.1.flatten h))

theorem run_header (h : HeadInfo) (header : List Bytes × List Bytes) :
    run (collect env codec s) h (headerCalls header) = some (onHeader h header) := by
  rw [headerCalls, run_append, run_append, run_headerField, Option.bind_some, run_headerValue]
  rfl

theorem run_headers (h : HeadInfo) (headers : List (List Bytes × List Bytes)) :
    run (collect env codec s) h
      (headers.flatMap headerCalls) = some (headers.foldl onHeader h) := by
  induction headers generalizing h with
  | nil => rfl
  | cons header headers ih =>
    rw [List.flatMap_cons, run_append, run_header, Option.bind_some, ih, List.foldl_cons]

end Pieces

structure Routes (method urlPrefix urlPath : Bytes) (h : HeadInfo) : Prop where
  method : h.requestMethod = method
  urlPrefix : h.requestUrlPrefix = urlPrefix
  urlPath : h.requestUrlPath = urlPath

theorem routing_headers {method urlPrefix urlPath : Bytes} {h : HeadInfo}
    (hr : Routes method urlPrefix urlPath h) (headers : List (List Bytes × List Bytes)) :
    Routes method urlPrefix urlPath (headers.foldl onHeader h) := by
  induction headers generalizing h with
  | nil => exact hr
  | cons header headers ih => exact ih ⟨hr.method, hr.urlPrefix, hr.urlPath⟩

/-- A URL in its two parts. -/
def splitUrl (url : Bytes) : Bytes × Bytes :=
  let h := onUrlComplete { requestUrl := url }
  (h.requestUrlPrefix, h.requestUrlPath)

theorem splitUrl_eq (url : Bytes) : splitUrl url =
    match (if 1 < url.length then findFrom [slash] 1 url else none) with
    | none => (url, [])
    | some n => (url.take n, url.drop n) := by
  unfold splitUrl onUrlComplete
  dsimp only
  cases (if 1 < url.length then findFrom [slash] 1 url else none) with
  | none => rfl
  | some n => rfl

theorem splitUrl_append (url : Bytes) : (splitUrl url).1 ++ (splitUrl url).2 = url := by
  rw [splitUrl_eq]
  split
  · exact List.append_nil url
  · exact List.take_append_drop _ url

theorem splitUrl_file (c : UInt8) (route file : Bytes) (h : slash ∉ route) :
    splitUrl (c::route ++ slash::file) = (c::route, slash::file) := by
  have hpos : findFrom [slash] 1 (c::route ++ slash::file) = some (route.length+1) := by
    rw [findFrom, if_neg (by simp)]
    rw [List.cons_append, List.drop_succ_cons, List.drop_zero]
    rw [show route ++ slash::file = route ++ ([slash] ++ file) from rfl,
      find_after_clean slash [] route file h]
    rfl
  rw [splitUrl_eq, if_pos (by simp), hpos]
  simp

theorem splitUrl_bare (c : UInt8) (route : Bytes) (h : slash ∉ route) :
    splitUrl (c::route) = (c::route, []) := by
  have hpos : findFrom [slash] 1 (c::route) = none := by
    rw [findFrom, List.drop_succ_cons, List.drop_zero, find_eq_none_of_clean slash [] route h]
    split_ifs <;> rfl
  rw [splitUrl_eq, hpos]
  split_ifs <;> rfl

def headBefore (r : RequestHead) : HeadInfo :=
  r.headers.foldl onHeader
    (onVersion r.version.flatten
      (onUrlComplete (onUrl r.url.flatten (onMethod r.method.flatten {}))))

theorem run_calls (env : Env) (codec : Codec) (s : Store) (h : HeadInfo) (r : RequestHead) :
    run (collect env codec s) h r.calls = onHeadersComplete (headBefore r) := by
  simp only [RequestHead.calls, run_append, run_method, run_url, run_version, run_headers,
    Option.bind_some, run, collect, callback, Option.map_some, Option.bind_fun_some]
  rw [Option.map_map]
  exact congrFun Option.map_id _

theorem headBefore_routing (r : RequestHead) :
    Routes r.methodName (splitUrl r.url.flatten).1 (splitUrl r.url.flatten).2 (headBefore r) := by
  apply routing_headers
  have hmethod : (onMethod r.method.flatten {}).requestMethod = r.methodName := List.nil_append _
  have hurl : (onUrl r.url.flatten (onMethod r.method.flatten {})).requestUrl = r.url.flatten :=
    List.nil_append _
  rw [splitUrl_eq]
  unfold onUrlComplete
  rw [hurl]
  cases (if 1 < r.url.flatten.length then findFrom [slash] 1 r.url.flatten else none) with
  | none => exact ⟨hmethod, rfl, rfl⟩
  | some n => exact ⟨hmethod, rfl, rfl⟩

theorem mem_fileRoutes (method route : Bytes) : (method, route) ∈ fileRoutes ↔
    (method = bytes "GET" ∧ route = bytes "/download") ∨
    (method = bytes "DELETE" ∧ route = bytes "/delete") := by
  simp [fileRoutes]

theorem onHeadersComplete_file (h : HeadInfo)
    (hroute : (h.requestMethod, h.requestUrlPrefix) ∈ fileRoutes) :
    ∃ keep refuse : Bytes → HeadInfo, (∀ filename, (refuse filename).responseStatus = bytes "404") ∧
      onHeadersComplete h = (urlFile h).map fun filename =>
        if checkFilename filename then keep filename else refuse filename := by
  unfold onHeadersComplete
  dsimp only
  cases (mem_fileRoutes _ _).mp hroute with
  | inl hget =>
    rw [if_pos (by simp [isGet, hget])]
    exact ⟨_, _, fun _ => rfl, rfl⟩
  | inr hdelete =>
    rw [if_neg (by simp [isGet, hdelete]; decide), if_pos (by simp [isDelete, hdelete])]
    exact ⟨_, _, fun _ => rfl, rfl⟩

theorem onHeadersComplete_other (h : HeadInfo)
    (hroute : (h.requestMethod, h.requestUrlPrefix) ∉ fileRoutes) :
    ∃ h', onHeadersComplete h = some h' := by
  have hnot := mt (mem_fileRoutes _ _).mpr hroute
  unfold onHeadersComplete
  dsimp only
  rw [if_neg (by simp [isGet]; tauto), if_neg (by simp [isDelete]; tauto)]
  split_ifs
  · split
    · exact ⟨_, rfl⟩
    · exact ⟨_, rfl⟩
  · exact ⟨_, rfl⟩

theorem notFound_of_status (env : Env) (codec : Codec) (h : HeadInfo)
    (hstatus : h.responseStatus = bytes "404") : NotFound env codec h := by
  have hset : h.responseStatus ≠ [] := by
    rw [hstatus]
    decide
  constructor
  · exact hstatus
  · intro data s
    rw [onBody, if_pos hset]
  · intro s
    rw [onMessageComplete, if_pos hset]

theorem splitUrl_route (method route file : Bytes) (h : (method, route) ∈ fileRoutes) :
    splitUrl route = (route, []) ∧ splitUrl (route ++ slash::file) = (route, slash::file) := by
  cases (mem_fileRoutes _ _).mp h with
  | inl hget =>
    rw [hget.2]
    exact ⟨splitUrl_bare slash (bytes "download") (by decide),
      splitUrl_file slash (bytes "download") file (by decide)⟩
  | inr hdelete =>
    rw [hdelete.2]
    exact ⟨splitUrl_bare slash (bytes "delete") (by decide),
      splitUrl_file slash (bytes "delete") file (by decide)⟩

theorem fileNamed_refused (route file : Bytes)
    (h : ∀ filename, fileNamed route (route ++ slash::file) = some filename →
      checkFilename filename = false) :
    checkFilename (urlDecode file) = false := by
  have hnamed : fileNamed route (route ++ slash::file) = decodeFrom file := by
    have hpre : route ++ [slash] <+: route ++ slash::file := ⟨file, by simp⟩
    rw [fileNamed, if_pos hpre, List.drop_append, List.drop_of_length_le (by omega)]
    simp
  rw [hnamed] at h
  unfold urlDecode
  cases hfile : decodeFrom file with
  | none => rfl
  | some filename => exact h filename hfile

theorem unnamed_split {r : RequestHead} (hunnamed : Unnamed r) (hbare : ¬ BareRoute r) :
    ∃ route file, (r.methodName, route) ∈ fileRoutes ∧
      splitUrl r.url.flatten = (route, slash::file) ∧
      checkFilename (urlDecode file) = false := by
  obtain ⟨route, hmem, hurl, hname⟩ := hunnamed
  cases hurl with
  | inl hurl =>
    rw [← hurl] at hmem
    exact absurd hmem hbare
  | inr hpre =>
    obtain ⟨file, hfile⟩ := hpre
    rw [List.append_assoc, List.singleton_append] at hfile
    rw [← hfile] at hname
    refine ⟨route, file, hmem, ?_, fileNamed_refused route file hname⟩
    rw [← hfile]
    exact (splitUrl_route _ _ file hmem).2

/-- An exception is thrown exactly where the URL of a file ends with its route; every
other name that is missing, badly encoded or refused is answered 404. -/
theorem routing_safe (env : Env) (codec : Codec) (s : Store) (h : HeadInfo) (r : RequestHead) :
    Routed env codec s h r ↔ ¬ BareRoute r := by
  unfold Routed
  rw [run_calls]
  obtain ⟨hmethod, hprefix, hpath⟩ := headBefore_routing r
  constructor
  · intro ⟨h', hrun, _⟩ hbare
    have hsplit := (splitUrl_route _ _ [] hbare).1
    rw [hsplit] at hprefix hpath
    obtain ⟨keep, refuse, -, heq⟩ :=
      onHeadersComplete_file (headBefore r) (by rw [hmethod, hprefix]; exact hbare)
    rw [heq, urlFile, if_pos hpath] at hrun
    cases hrun
  · intro hbare
    by_cases hroute : ((headBefore r).requestMethod, (headBefore r).requestUrlPrefix) ∈ fileRoutes
    · obtain ⟨keep, refuse, hrefuse, heq⟩ := onHeadersComplete_file (headBefore r) hroute
      rw [hmethod, hprefix] at hroute
      have hpathne : (splitUrl r.url.flatten).2 ≠ [] := by
        intro hnil
        have hurl := splitUrl_append r.url.flatten
        rw [hnil, List.append_nil] at hurl
        rw [hurl] at hroute
        exact hbare hroute
      rw [heq, urlFile, if_neg (by rw [hpath]; exact hpathne), hpath]
      refine ⟨_, rfl, fun hunnamed => ?_⟩
      obtain ⟨route, file, -, hsplit, hname⟩ := unnamed_split hunnamed hbare
      dsimp only
      rw [hsplit, List.drop_one, List.tail_cons, hname]
      exact notFound_of_status env codec _ (hrefuse _)
    · obtain ⟨h', heq⟩ := onHeadersComplete_other (headBefore r) hroute
      refine ⟨h', heq, fun hunnamed => ?_⟩
      obtain ⟨route, file, hmem, hsplit, -⟩ := unnamed_split hunnamed hbare
      rw [hmethod, hprefix, hsplit] at hroute
      exact absurd hmem hroute

def bareDownload : RequestHead :=
  { method := [bytes "GET"], url := [bytes "/down", bytes "load"], version := [bytes "1.1"],
    headers := [] }

/-- The URL is the route and nothing else. -/
theorem bareDownload_throws :
    run (collect plainEnv plainCodec freshStore) {} bareDownload.calls = none ∧
    ¬ Routed plainEnv plainCodec freshStore {} bareDownload := by
  have hthrows : run (collect plainEnv plainCodec freshStore) {} bareDownload.calls = none := rfl
  constructor
  · exact hthrows
  · intro ⟨h', hrun, _⟩
    rw [hthrows] at hrun
    cases hrun

end CloudBackup.Routing
