import CloudBackup.LinkNames
import CloudBackup.SerialServer

/-!
# One message and its response

A message is its head in pieces and its body in pieces. It is served in full
when its callbacks are through and the download that they bound has come to
its end. The head is collected without a look at the store.
-/

set_option autoImplicit false

namespace CloudBackup.MessageServing
open CloudBackup.PatternSearch CloudBackup.ByteStrings CloudBackup.JsonCodec CloudBackup.FilePath
open CloudBackup.DataManager CloudBackup.UploadScanner CloudBackup.Download
  CloudBackup.HttpCallbacks
open CloudBackup.RunInvariants CloudBackup.Routing CloudBackup.LinkNames CloudBackup.SerialServer

structure Message where
  head : RequestHead
  body : List Bytes

def Message.calls (m : Message) : List Callback :=
  m.head.calls ++ m.body.map .body ++ [.messageComplete]

structure Response where
  headInfo : HeadInfo
  output : Bytes

/-- A task for every byte, and one that finds nothing left. -/
def taskBound (task : SendTask) : ℕ := (task.endPos-task.startPos).toNat+1

def deliver (env : Env) (a : Answer) (s : Store) : Option (Bytes × Store) :=
  match a.subTask with
  | none => some (a.response, s)
  | some task => (sendChain env (taskBound task) task s).map fun r =>
    (a.response ++ r.1.flatten, r.2)

/-- `none` when a callback throws or the connection is closed. -/
def serveMessage (env : Env) (codec : Codec) (h : HeadInfo) (s : Store) (m : Message) :
    Option (Response × Store) :=
  (respond env codec m.calls h s).bind fun q =>
    match q.2.1 with
    | [a] => (deliver env a q.2.2).map fun r => ({ headInfo := q.1, output := r.1 }, r.2)
    | _ => none

theorem respond_append (env : Env) (codec : Codec) (cbs ds : List Callback) (h : HeadInfo)
    (s : Store) :
    respond env codec (cbs ++ ds) h s = (respond env codec cbs h s).bind fun q =>
      (respond env codec ds q.1 q.2.2).map fun p => (p.1, q.2.1 ++ p.2.1, p.2.2) := by
  induction cbs generalizing h s with
  | nil =>
    rw [List.nil_append, respond, Option.bind_some]
    cases respond env codec ds h s with
    | none => rfl
    | some p => rfl
  | cons cb cbs ih =>
    rw [List.cons_append, respond, respond]
    cases callback env codec h s cb with
    | none => rfl
    | some r =>
      rw [Option.bind_some, Option.bind_some, ih]
      cases respond env codec cbs r.1 r.2.1 with
      | none => rfl
      | some q =>
        rw [Option.bind_some, Option.map_some, Option.bind_some, Option.map_map]
        refine Option.map_congr fun p _ => ?_
        rw [Function.comp_apply, List.append_assoc]

def Heads (cb : Callback) : Prop := (∀ data, cb ≠ .body data) ∧ cb ≠ .messageComplete

theorem callback_heads (env : Env) (codec : Codec) (h : HeadInfo) (s : Store) {cb : Callback}
    (hcb : Heads cb) :
    callback env codec h s cb = (collect env codec s h cb).map fun h' => (h', s, none) := by
  cases cb with
  | body data => exact absurd rfl (hcb.1 data)
  | messageComplete => exact absurd rfl hcb.2
  | headersComplete =>
    rw [collect, callback, Option.map_map, Option.map_map]
    rfl
  | messageBegin | method | url | urlComplete | version | headerField | headerValue
    | headerValueComplete => rfl

theorem respond_heads (env : Env) (codec : Codec) (cbs : List Callback) (h : HeadInfo) (s : Store)
    (hcbs : ∀ cb ∈ cbs, Heads cb) :
    respond env codec cbs h s = (run (collect env codec s) h cbs).map fun h' => (h', [], s) := by
  induction cbs generalizing h with
  | nil => rfl
  | cons cb cbs ih =>
    rw [respond, callback_heads env codec h s (hcbs cb List.mem_cons_self), run]
    cases collect env codec s h cb with
    | none => rfl
    | some h' =>
      rw [Option.map_some, Option.bind_some, Option.bind_some, ih h' fun c hc =>
        hcbs c (List.mem_cons_of_mem _ hc), Option.map_map]
      rfl

theorem calls_heads (r : RequestHead) : ∀ cb ∈ r.calls, Heads cb := by
  have hheader : ∀ header, ∀ cb ∈ headerCalls header, Heads cb := by
    intro header cb hcb
    simp only [headerCalls, List.mem_append, List.mem_map, List.mem_singleton] at hcb
    obtain (⟨_, _, rfl⟩ | ⟨_, _, rfl⟩) | rfl := hcb <;> simp [Heads]
  intro cb hcb
  simp only [RequestHead.calls, List.mem_append, List.mem_map, List.mem_singleton,
    List.mem_flatMap] at hcb
  obtain (((((rfl | ⟨_, _, rfl⟩) | ⟨_, _, rfl⟩) | rfl) | ⟨_, _, rfl⟩) | ⟨header, _, hin⟩) | rfl :=
    hcb
  all_goals first
    | exact hheader header cb hin
    | simp [Heads]

theorem respond_bodies (env : Env) (codec : Codec) (chunks : List Bytes) (h : HeadInfo)
    (s : Store) :
    respond env codec (chunks.map .body) h s = (onBodies env chunks h s).map fun r =>
      (r.1, [], r.2) := by
  induction chunks generalizing h s with
  | nil => rfl
  | cons data rest ih =>
    rw [List.map_cons, respond, callback, onBodies]
    cases onBody env data h s with
    | none => rfl
    | some r =>
      rw [Option.map_some, Option.bind_some, Option.bind_some, ih, Option.map_map]
      rfl

theorem serveMessage_eq (env : Env) (codec : Codec) (h : HeadInfo) (s : Store) (m : Message) :
    serveMessage env codec h s m = (onHeadersComplete (headBefore m.head)).bind fun g =>
      (onBodies env m.body g s).bind fun r => (onMessageComplete env codec r.1 r.2).bind fun x =>
        (deliver env x.2.2 x.2.1).map fun d => ({ headInfo := x.1, output := d.1 }, d.2) := by
  rw [serveMessage, Message.calls, respond_append, respond_append,
    respond_heads env codec _ h s (calls_heads m.head), run_calls]
  cases onHeadersComplete (headBefore m.head) with
  | none => rfl
  | some g =>
    rw [Option.map_some, Option.bind_some, respond_bodies, Option.bind_some]
    cases onBodies env m.body g s with
    | none => rfl
    | some r =>
      rw [Option.map_some, Option.map_some, Option.bind_some, Option.bind_some, respond, callback]
      cases onMessageComplete env codec r.1 r.2 with
      | none => rfl
      | some x => rfl

theorem onBodies_ignored (env : Env) (chunks : List Bytes) (h : HeadInfo) (s : Store)
    (hskip : h.responseStatus ≠ [] ∨ isUpload h = false) :
    onBodies env chunks h s = some (h, s) := by
  induction chunks with
  | nil => rfl
  | cons data rest ih =>
    have hone : onBody env data h s = some (h, s) := by
      unfold onBody
      by_cases hst : h.responseStatus = []
      · rw [if_neg (by rw [ne_eq, not_not]; exact hst), if_neg]
        rw [hskip.resolve_left (by rw [ne_eq, not_not]; exact hst)]
        exact Bool.false_ne_true
      · rw [if_pos hst]
    rw [onBodies, hone, Option.bind_some]
    exact ih

def headerName (header : List Bytes × List Bytes) : Bytes := header.1.flatten.map toLower

def headerValue (name : Bytes) (headers : List (List Bytes × List Bytes)) : Option Bytes :=
  (headers.reverse.find? fun header => headerName header = name).map fun header => header.2.flatten

theorem headers_lookup (h : HeadInfo) (hfield : h.requestCurHeaderField = [])
    (hvalue : h.requestCurHeaderValue = [])
    (headers : List (List Bytes × List Bytes)) (name : Bytes) :
    (headers.foldl onHeader h).requestHeaders.lookup name =
      (headerValue name headers).or (h.requestHeaders.lookup name) := by
  induction headers generalizing h with
  | nil => rfl
  | cons header headers ih =>
    have hhead : (onHeader h header).requestHeaders = h.requestHeaders.insert
      (headerName header) header.2.flatten := by
      simp only [onHeader, onHeaderValueComplete, onHeaderValue, onHeaderField, hfield, hvalue,
        List.nil_append, headerName]
    rw [List.foldl_cons, ih (onHeader h header) rfl rfl, hhead, headerValue, headerValue,
      List.reverse_cons, List.find?_append]
    cases hfind : headers.reverse.find? fun header => headerName header = name with
    | some later => rfl
    | none =>
      rw [Option.map_none, Option.none_or, Option.none_or]
      by_cases hname : headerName header = name
      · rw [← hname, AList.lookup_insert, List.find?_singleton, if_pos (decide_eq_true rfl)]
        rfl
      · rw [AList.lookup_insert_ne (Ne.symm hname), List.find?_singleton,
          if_neg (by rw [decide_eq_false hname]; exact Bool.false_ne_true)]
        rfl

theorem onUrlComplete_headers (h : HeadInfo) : (onUrlComplete h).requestHeaders = h.requestHeaders ∧
    (onUrlComplete h).requestCurHeaderField = h.requestCurHeaderField ∧
    (onUrlComplete h).requestCurHeaderValue = h.requestCurHeaderValue := by
  unfold onUrlComplete
  dsimp only
  split <;> exact ⟨rfl, rfl, rfl⟩

theorem headBefore_lookup (r : RequestHead) (name : Bytes) :
    (headBefore r).requestHeaders.lookup name = headerValue name r.headers := by
  obtain ⟨hheaders, hfield, hvalue⟩ :=
    onUrlComplete_headers (onUrl r.url.flatten (onMethod r.method.flatten {}))
  have hlookup := headers_lookup (onVersion r.version.flatten
    (onUrlComplete (onUrl r.url.flatten (onMethod r.method.flatten {})))) hfield hvalue
      r.headers name
  rw [headBefore, hlookup, show (onVersion r.version.flatten _).requestHeaders = _ from hheaders]
  exact Option.or_none

end CloudBackup.MessageServing
