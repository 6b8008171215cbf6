import CloudBackup.BackupService
import CloudBackup.ResponseHeads
import CloudBackup.StreamReading

/-!
# What a client reads

The responses to the messages of one connection are written one after the
other. A client reads a head up to the blank line and then as many bytes as
the head announces; where it announces nothing, the body lasts as long as the
connection. Deletions and refusals are answered without a length.
-/

set_option autoImplicit false

namespace CloudBackup.ResponseStream
open CloudBackup.PatternSearch CloudBackup.ByteStrings CloudBackup.JsonCodec CloudBackup.FilePath
open CloudBackup.FileStore CloudBackup.DataManager CloudBackup.UploadScanner
  CloudBackup.UploadChunking
open CloudBackup.Download CloudBackup.HttpCallbacks CloudBackup.PipeMessages
  CloudBackup.PercentEncoding
open CloudBackup.Routing CloudBackup.LinkNames CloudBackup.Restart CloudBackup.ResponseFraming
open CloudBackup.ResponseHeads CloudBackup.FileService CloudBackup.Backing
  CloudBackup.MessageServing
open CloudBackup.BackupService CloudBackup.StreamReading

structure Received where
  statusLine : Bytes
  headers : List (Bytes × Bytes)
  body : Bytes

def space : UInt8 := 32

def statusCode (statusLine : Bytes) : Bytes := ((statusLine.dropWhile (· ≠ space)).drop 1).take 3

def decimal (text : Bytes) : Option ℕ :=
  if text ≠ [] ∧ text.all isDigit = true then some (digits text) else none

def receive : Reader UInt8 Received := fun stream =>
  (readResponse stream).bind fun r =>
    match r.2.1.lookup lengthKey with
    | none => some (⟨r.1, r.2.1, r.2.2⟩, none)
    | some text => (decimal text).bind fun n =>
      if n ≤ r.2.2.length then some (⟨r.1, r.2.1, r.2.2.take n⟩, some (r.2.2.drop n)) else none

def sent {κ : Type*} [DecidableEq κ] (c : κ) (owners : List κ)
    (rs : List (Option Response)) : Bytes :=
  ((share c owners rs).reduceOption.map Response.output).flatten

def isAnswer : Reply Bytes Bytes ℤ → Bool
  | .done => false
  | _ => true

def endless : Reply Bytes Bytes ℤ → Bool
  | .fetched none => true
  | .dropped _ => true
  | _ => false

/-- The status of a reply and the content that is announced. -/
inductive Says (codec : Codec) : Reply Bytes Bytes ℤ → Bytes → Option Bytes → Prop where
  | listed (sizes : Bytes → Option ℤ) (infos : List BackupInfoNode) (text : Bytes)
      (hinfos : Lists infos sizes)
      (hser : codec.serialize (fileList infos) = some text) : Says codec (.listed sizes)
        (bytes "200") (some text)
  | fetched (F : Bytes) : Says codec (.fetched (some F)) (bytes "200") (some F)
  | missing : Says codec (.fetched none) (bytes "404") none
  | dropped : Says codec (.dropped true) (bytes "200") none
  | absent : Says codec (.dropped false) (bytes "404") none
  | stored (taken refused : List Bytes) (text : Bytes)
      (hser : codec.serialize (uploadReport
        { uploadSuccessFiles := taken, uploadFailFiles := refused }) = some text) :
      Says codec (.stored taken refused) (storedStatus taken refused) (some text)

def Shows (codec : Codec) (r : Received) (reply : Reply Bytes Bytes ℤ) : Prop :=
  ∃ status content, Says codec reply status content ∧ statusCode r.statusLine = status ∧
    ∀ text, content = some text → r.body = text

/-- The version is of a digit, a dot and a digit, and the name has no line break. -/
structure Legible (event : Event) (request : Request Bytes Bytes) : Prop where
  version : ∀ h m, event = .message h m → cr ∉ m.head.version.flatten ∧
    space ∉ m.head.version.flatten
  name : ∀ name, request = .fetch name → ¬ sep <:+: name

structure Clear (h : HeadInfo) : Prop where
  version : cr ∉ h.responseVersion ∧ space ∉ h.responseVersion
  status : PlainStatus h
  headers : Headed Readable h

theorem decimal_toDecimal (n : ℕ) : decimal (toDecimal n) = some n := by
  have hall : (toDecimal n).all isDigit = true :=
    List.all_eq_true.mpr fun b hb => (isDigit_iff b).mpr (toDecimal_digits n b hb)
  rw [decimal, if_pos ⟨toDecimal_ne_nil n, hall⟩, digits_toDecimal]

theorem statusText_code {h : HeadInfo} (hversion : space ∉ h.responseVersion)
    (hlen : h.responseStatus.length = 3) :
    statusCode (statusText h) = h.responseStatus := by
  have hkept : ∀ b ∈ h.responseVersion, decide (b ≠ space) = true := by
    intro b hb
    rw [decide_eq_true_iff]
    rintro rfl
    exact hversion hb
  have hsame : statusText h =
    h.responseVersion ++ space::(h.responseStatus ++ (bytes " " ++ h.responseStatusDescribe)) := by
    simp [statusText, bytes, space]
  rw [statusCode, hsame, List.dropWhile_append_of_pos hkept, List.dropWhile_cons_of_neg (by simp),
    List.drop_one, List.tail_cons, ← hlen, List.take_left]

theorem lookup_pairs (key : Bytes) (h : HeadInfo) :
    (headerPairs h).lookup key = h.responseHeaders.lookup key := by
  rw [headerPairs, AList.lookup]
  induction h.responseHeaders.entries with
  | nil => rfl
  | cons e es ih =>
    obtain ⟨name, value⟩ := e
    by_cases hkey : key = name
    · subst hkey
      rw [List.map_cons, List.lookup_cons_self, List.dlookup_cons_eq]
    · rw [List.map_cons, List.lookup_cons, beq_false_of_ne hkey,
        List.dlookup_cons_ne _ _ hkey, ← ih]

theorem clear_readResponse {x : Response} (hx : Clear x.headInfo) (rest : Bytes) :
    readResponse (headOf x ++ rest) = some (statusText x.headInfo,
      headerPairs x.headInfo, rest) := by
  have hstatus : cr ∉ statusText { x.headInfo with responseBody := rest } := by
    simp only [statusText, List.mem_append, not_or]
    exact ⟨⟨⟨⟨hx.version.1, by decide⟩, hx.status.1⟩, by decide⟩, hx.status.2⟩
  have hread := parses_of_readable (h := { x.headInfo with responseBody := rest })
    hstatus hx.headers
  rw [output_body] at hread
  exact hread

theorem headOf_ne_nil (x : Response) : headOf x ≠ [] := by
  rw [headOf, seralize_lines]
  exact List.append_ne_nil_of_right_ne_nil _ (List.cons_ne_nil _ _)

theorem says_length {codec : Codec} {reply : Reply Bytes Bytes ℤ} {status : Bytes}
    {content : Option Bytes}
    (h : Says codec reply status content) : status.length = 3 ∧ endless reply = content.isNone := by
  cases h with
  | stored taken refused text hser =>
    refine ⟨?_, rfl⟩
    unfold storedStatus
    split_ifs <;> rfl
  | listed | fetched | missing | dropped | absent => exact ⟨rfl, rfl⟩

theorem carries_frames {codec : Codec} {reply : Reply Bytes Bytes ℤ} {x : Response}
    {status text : Bytes}
    (hs : Says codec reply status (some text)) (hc : Carries x status text)
    (hx : Clear x.headInfo) :
    Frames receive endless (Shows codec) x.output reply := by
  obtain ⟨hlen, hends⟩ := says_length hs
  refine ⟨?_, fun rest => ?_⟩
  · rw [hc.output]
    exact List.append_ne_nil_of_left_ne_nil (headOf_ne_nil x) _
  · refine ⟨⟨statusText x.headInfo, headerPairs x.headInfo, text⟩, ?_, status, some text, hs, ?_,
      fun _ ht => Option.some.inj ht⟩
    · rw [hends, hc.output, List.append_assoc, receive, clear_readResponse hx, Option.bind_some,
        lookup_pairs, hc.length]
      dsimp only
      rw [decimal_toDecimal, Option.bind_some, if_pos (by simp), List.take_left, List.drop_left]
      rfl
    · rw [statusText_code hx.version.2 (by rw [hc.status]; exact hlen), hc.status]

theorem bare_frames {codec : Codec} {reply : Reply Bytes Bytes ℤ} {x : Response} {status : Bytes}
    (hs : Says codec reply status none) (hb : Bare x status) (hx : Clear x.headInfo) :
    Frames receive endless (Shows codec) x.output reply := by
  obtain ⟨hlen, hends⟩ := says_length hs
  refine ⟨?_, fun rest => ?_⟩
  · rw [hb.output]
    exact headOf_ne_nil x
  · refine ⟨⟨statusText x.headInfo, headerPairs x.headInfo, rest⟩, ?_, status, none, hs, ?_,
      fun _ ht => nomatch ht⟩
    · rw [hends, hb.output, receive, clear_readResponse hx, Option.bind_some,
        lookup_pairs, hb.headers]
      rfl
    · rw [statusText_code hx.version.2 (by rw [hb.status]; exact hlen), hb.status]

theorem tells_frames {codec : Codec} {x : Response} {reply : Reply Bytes Bytes ℤ}
    (ht : Tells codec (some x) reply)
    (hx : Clear x.headInfo) :
    isAnswer reply = true ∧ Frames receive endless (Shows codec) x.output reply := by
  cases ht with
  | listed _ sizes infos text hinfos hser hc =>
    exact ⟨rfl, carries_frames (.listed sizes infos text hinfos hser) hc hx⟩
  | fetched _ F hc => exact ⟨rfl, carries_frames (.fetched F) hc hx⟩
  | missing _ hb => exact ⟨rfl, bare_frames .missing hb hx⟩
  | dropped _ hb => exact ⟨rfl, bare_frames .dropped hb hx⟩
  | absent _ hb => exact ⟨rfl, bare_frames .absent hb hx⟩
  | stored _ taken refused text hser hc =>
    exact ⟨rfl, carries_frames (.stored taken refused text hser) hc hx⟩

def asked (h : HeadInfo) : HeadInfo :=
  frame { h with responseStatus := [], responseStatusDescribe := [] }

theorem onBody_asked {env : Env} {data : Bytes} {h : HeadInfo} {s : Store} {r : HeadInfo × Store}
    (hr : onBody env data h s = some r) : asked r.1 = asked h := by
  have hstatusless : ∀ {k g : HeadInfo}, frame k = frame g → asked k = asked g := fun he =>
    congrArg (fun f : HeadInfo => { f with responseStatus := [], responseStatusDescribe := [] }) he
  unfold onBody at hr
  split_ifs at hr
  · cases hr
    rfl
  · obtain ⟨q, hq, rfl⟩ := Option.map_eq_some_iff.mp hr
    have hframe := hstatusless (uploadLoop_frame env _ _ s q hq)
    split_ifs
    · exact hframe
    · exact hframe
  · cases hr
    rfl

theorem onBodies_keeps {env : Env} {P : HeadInfo → Prop}
    (hstep : ∀ (data : Bytes) (h : HeadInfo) (s : Store) (r : HeadInfo × Store), P h →
      onBody env data h s = some r → P r.1)
    {chunks : List Bytes} {h : HeadInfo} {s : Store} {r : HeadInfo × Store} (hh : P h)
    (hr : onBodies env chunks h s = some r) : P r.1 := by
  induction chunks generalizing h s with
  | nil =>
    cases hr
    exact hh
  | cons data rest ih =>
    obtain ⟨q, hq, hrest⟩ := Option.bind_eq_some_iff.mp hr
    exact ih (hstep data h s q hh hq) hrest

structure Prepared (version : Bytes) (h : HeadInfo) : Prop where
  unanswered : Unanswered h
  status : PlainStatus h
  version : h.responseVersion = bytes "HTTP/" ++ version

theorem headBefore_version (r : RequestHead) :
    (headBefore r).requestVersion = r.version.flatten := by
  have hheaders : ∀ (headers : List (List Bytes × List Bytes)) (h : HeadInfo),
      (headers.foldl onHeader h).requestVersion = h.requestVersion := by
    intro headers
    induction headers with
    | nil => exact fun h => rfl
    | cons header headers ih => exact fun h => ih (onHeader h header)
  have hurl : ∀ h : HeadInfo, (onUrlComplete h).requestVersion = h.requestVersion := by
    intro h
    unfold onUrlComplete
    dsimp only
    split <;> rfl
  rw [headBefore, hheaders]
  show (onUrlComplete _).requestVersion ++ r.version.flatten = r.version.flatten
  rw [hurl]
  rfl

theorem prepared_head {r : RequestHead} {g : HeadInfo}
    (hg : onHeadersComplete (headBefore r) = some g) :
    Prepared r.version.flatten g := by
  have hu := headBefore_untouched r
  have hdescribe : (headBefore r).responseStatusDescribe = [] :=
    congrArg HeadInfo.responseStatusDescribe (headBefore_requestless r)
  have hplain : PlainStatus (headBefore r) := by
    constructor
    · rw [hu.status]
      exact List.not_mem_nil
    · rw [hdescribe]
      exact List.not_mem_nil
  refine ⟨onHeadersComplete_unanswered ⟨hu.headers, hu.body⟩ hg, plain_headers hplain hg, ?_⟩
  rw [← headBefore_version r]
  obtain ⟨a, b, c, k, rfl, rfl | rfl | rfl⟩ := onHeadersComplete_cases hg <;> rfl

theorem prepared_bodies {version : Bytes} {env : Env} {chunks : List Bytes} {h : HeadInfo}
    {s : Store} {r : HeadInfo × Store}
    (hh : Prepared version h) (hr : onBodies env chunks h s = some r) : Prepared version r.1 := by
  refine onBodies_keeps (P := Prepared version) (fun data k t q hk hq => ?_) hh hr
  exact ⟨onBody_unanswered hk.unanswered hq, plain_body hk.status hq,
    (congrArg HeadInfo.responseVersion (onBody_asked hq)).trans hk.version⟩

theorem isGet_kept {urlPrefix : Bytes} {r : RequestHead} {g g' : HeadInfo}
    (hg : onHeadersComplete (headBefore r) = some g)
    (hasked : asked g' = asked g) : isGet urlPrefix g' = isGet urlPrefix (headBefore r) := by
  have hmethod : g'.requestMethod = g.requestMethod := (congrArg HeadInfo.requestMethod hasked :)
  have hprefix : g'.requestUrlPrefix = g.requestUrlPrefix :=
    (congrArg HeadInfo.requestUrlPrefix hasked :)
  rw [isGet, hmethod, hprefix]
  obtain ⟨a, b, c, k, rfl, rfl | rfl | rfl⟩ := onHeadersComplete_cases hg <;> rfl

theorem download_asked {codec : Codec} {s : Store} {h : HeadInfo} {m : Message}
    {request : Request Bytes Bytes}
    (hasks : Asks codec s (.message h m) request)
    (hget : isGet (bytes "/download") (headBefore m.head) = true) :
    ∃ name, request = .fetch name ∧ ∃ g,
      Routes (bytes "GET") (bytes "/download") g.requestUrlPath g ∧
      g.curDownloadFile = name ∧
      onHeadersComplete (headBefore m.head) = some (if checkFilename name then
        g else notFound g) := by
  obtain ⟨hmethod, hprefix⟩ := Bool.and_eq_true_iff.mp hget
  replace hmethod : (headBefore m.head).requestMethod = bytes "GET" := of_decide_eq_true hmethod
  replace hprefix : (headBefore m.head).requestUrlPrefix = bytes "/download" :=
    of_decide_eq_true hprefix
  cases hasks with
  | list _ _ hm hurl =>
    have hroute := route_file (bytes "api") hm (by decide) hurl
    exact absurd (hroute.urlPrefix.symm.trans hprefix) (by decide)
  | fetch _ _ name text hm henc hurl hwhole =>
    obtain ⟨g, hg, hnamed, hhead⟩ := download_named henc hm hurl
    exact ⟨name, rfl, g, ⟨hg.route.method, hg.route.urlPrefix, rfl⟩, hnamed, hhead⟩
  | drop _ _ name text hm henc hurl =>
    have hroute := route_file (bytes "delete") hm (by decide) hurl
    exact absurd (hroute.method.symm.trans hmethod) (by decide)
  | store _ _ b ps hup =>
    have hroute := route_bare (bytes "upload") hup.method (by decide) hup.url
    exact absurd (hroute.method.symm.trans hmethod) (by decide)

theorem serve_clear {env : Env} {codec : Codec} {f : Files Bytes Bytes} {s : Store}
    (hs : Backs env codec f s)
    {h : HeadInfo} {m : Message} {request : Request Bytes Bytes}
    (hasks : Asks codec s (.message h m) request)
    (hlegible : Legible (.message h m) request) {x : Response} {t : Store}
    (hserve : serveMessage env codec h s m = some (x, t)) : Clear x.headInfo := by
  rw [serveMessage_eq] at hserve
  obtain ⟨g, hg, hserve⟩ := Option.bind_eq_some_iff.mp hserve
  obtain ⟨r, hr, hserve⟩ := Option.bind_eq_some_iff.mp hserve
  obtain ⟨⟨h', t', a⟩, hcomplete, hserve⟩ := Option.bind_eq_some_iff.mp hserve
  obtain ⟨d, -, heq⟩ := Option.map_eq_some_iff.mp hserve
  cases heq
  have hp := prepared_bodies (prepared_head hg) hr
  obtain ⟨hcr, hspace⟩ := hlegible.version h m rfl
  obtain ⟨hplain, hversion⟩ := complete_status hp.status hcomplete
  constructor
  · rw [hversion, hp.version, List.mem_append, List.mem_append, not_or, not_or]
    exact ⟨⟨by decide, hcr⟩, by decide, hspace⟩
  · exact hplain
  · apply complete_headed readable_permits hp.unanswered hcomplete
    intro id hst hdownload hid
    have hasked : asked r.1 = asked g :=
      onBodies_keeps (P := fun k => asked k = asked g) (fun data k u q hk hq =>
        (onBody_asked hq).trans hk) rfl hr
    rw [isGet_kept hg hasked] at hdownload
    obtain ⟨name, rfl, k, hroute, hnamed, hhead⟩ := download_asked hasks hdownload
    obtain rfl := Option.some.inj (hhead.symm.trans hg)
    cases hcheck : checkFilename name with
    | false =>
      rw [hcheck, if_neg Bool.false_ne_true] at hr
      rw [onBodies_ignored env m.body _ s (Or.inl (by decide : bytes "404" ≠ []))] at hr
      cases hr
      exact absurd hst (by decide : bytes "404" ≠ [])
    | true =>
      rw [hcheck, if_pos rfl] at hr
      rw [onBodies_ignored env m.body _ s (Or.inr (not_upload hroute (by decide)))] at hr
      cases hr
      rw [hnamed] at hid
      obtain ⟨F, -, hk⟩ := hs.shelf.kept name id hid
      have hbroken := hlegible.name name rfl
      rw [← hk.filename] at hbroken
      exact ⟨⟨by decide, by decide, (etag_unbroken _).mpr hbroken⟩, by
        decide, by decide, disposition_unbroken _ hbroken⟩

def Told (codec : Codec) (x : Option Response) (reply : Reply Bytes Bytes ℤ) : Prop :=
  Tells codec x reply ∧ ∀ r, x = some r → Clear r.headInfo

theorem act_told {env : Env} {codec : Codec} (hh : Housed env) (hflat : Flat env)
    (hread : 0 < env.maxFileReadSize)
    (hcodec : Reads codec) (hreports : Reports codec) :
    Simulates (act env codec) (serve checkFilename fileSize)
      (fun s e q => Asks codec s e q ∧ Legible e q) (Told codec)
      fun s f => Backs env codec f s := by
  rintro s f event request hs ⟨hasks, hlegible⟩
  obtain ⟨r, hr, htells, hkept⟩ :=
    act_simulates hh hflat hread hcodec hreports s f event request hs hasks
  refine ⟨r, hr, ⟨htells, fun x hx => ?_⟩, hkept⟩
  cases event with
  | message h m =>
    obtain ⟨q, hserve, rfl⟩ := Option.map_eq_some_iff.mp hr
    obtain rfl := Option.some.inj hx
    exact serve_clear hs hasks hlegible hserve
  | pass =>
    obtain ⟨t, -, rfl⟩ := Option.map_eq_some_iff.mp hr
    cases hx
  | restart clock =>
    obtain ⟨t, -, rfl⟩ := Option.map_eq_some_iff.mp hr
    cases hx

theorem told_frames {codec : Codec} {rs : List (Option Response)}
    {replies : List (Reply Bytes Bytes ℤ)}
    (h : List.Forall₂ (Told codec) rs replies) :
    List.Forall₂ (Frames receive endless (Shows codec)) (rs.reduceOption.map Response.output)
      (replies.filter isAnswer) := by
  induction h with
  | nil => exact List.Forall₂.nil
  | @cons x reply rs replies hx _ ih =>
    cases x with
    | none =>
      cases hx.1
      rw [List.reduceOption_cons_of_none, List.filter_cons_of_neg (by decide)]
      exact ih
    | some r =>
      obtain ⟨hanswer, hframes⟩ := tells_frames hx.1 (hx.2 r rfl)
      rw [List.reduceOption_cons_of_some, List.filter_cons_of_pos hanswer, List.map_cons]
      exact List.Forall₂.cons hframes ih

/-- Whatever the connections ask, in any order, a client that reads heads and announced lengths
off the stream of its connection has the replies of the service to its own requests, one by
one, up to and with the first that announces no length. -/
theorem answers_read (env : Env) (codec : Codec) (hh : Housed env) (hflat : Flat env)
    (hread : 0 < env.maxFileReadSize)
    (hcodec : Reads codec) (hreports : Reports codec) (f : Files Bytes Bytes) (s : Store)
    (hs : Backs env codec f s)
    (events : List Event) (requests : List (Request Bytes Bytes))
    (hasked : Asked (act env codec) (Asks codec) s events requests)
    (hlegible : List.Forall₂ Legible events requests)
    {κ : Type*} [DecidableEq κ] (owners : List κ) :
    ∃ rs t, replies (act env codec) s events = some (rs, t) ∧ ∀ c,
      List.Forall₂ (Shows codec) (readAll receive (sent c owners rs))
        (through endless ((share c owners
          (outcomes (serve checkFilename fileSize) f requests).1).filter isAnswer)) := by
  obtain ⟨rs, t, hrun, htold, -⟩ :=
    replies_tell (act_told hh hflat hread hcodec hreports) hs (asked_with hasked hlegible)
  refine ⟨rs, t, hrun, fun c => ?_⟩
  have hempty : receive [] = none := by decide
  exact readAll_frames hempty (told_frames (share_forall₂ htold c owners))

/-- One client uploads before the restart and another lists, fetches, drops and misses after it. -/
theorem answers_read_hello :
    ∃ rs t, replies (act plainEnv serviceCodec) emptyStore helloEvents = some (rs, t) ∧ ∀ c : ℕ,
      List.Forall₂ (Shows serviceCodec) (readAll receive (sent c [0, 9, 9, 1, 1, 1, 1] rs))
        (through endless ((share c [0, 9, 9, 1, 1, 1, 1]
          (outcomes (serve checkFilename fileSize) (fun _ => none) helloRequests).1).filter
            isAnswer)) := by
  apply answers_read plainEnv serviceCodec MetadataCrash.plainEnv_housed plainEnv_flat
    (by decide) serviceCodec_reads
    serviceCodec_reports (fun _ => none) emptyStore emptyStore_backs helloEvents helloRequests
      helloEvents_asked
  have hmessage : ∀ (m : Message) (request : Request Bytes Bytes),
    m.head.version.flatten = bytes "1.1" →
      (∀ name, request = .fetch name → name = bytes "f") → Legible (.message {} m) request := by
    intro m request hversion hname
    constructor
    · rintro h m' ⟨⟩
      rw [hversion]
      decide
    · intro name hfetch
      rw [hname name hfetch]
      decide
  have hupkeep : ∀ event : Event, (∀ h m, event ≠ .message h m) → Legible event .upkeep :=
    fun event he =>
    ⟨fun h m hm => absurd hm (he h m), fun name hfetch => nomatch hfetch⟩
  refine .cons (hmessage _ _ (by decide) ?_) <| .cons (hupkeep _ ?_) <| .cons (hupkeep _ ?_) <|
    .cons (hmessage _ _ (by decide) ?_) <| .cons (hmessage _ _ (by decide) ?_) <|
    .cons (hmessage _ _ (by decide) ?_) <| .cons (hmessage _ _ (by decide) ?_) .nil
  all_goals simp

end CloudBackup.ResponseStream
