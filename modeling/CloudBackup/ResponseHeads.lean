import CloudBackup.PipeMessages
import CloudBackup.ResponseFraming
import CloudBackup.TextLines
import CloudBackup.UploadChunking

/-!
# Reading a response back

A client splits what it receives at the first blank line and the head at the
line breaks. The name of a stored file goes into two header values as it is,
and nothing between the upload of the name and the download looks for a break.
-/

set_option autoImplicit false

namespace CloudBackup.ResponseHeads
open CloudBackup.PatternSearch CloudBackup.ByteStrings CloudBackup.JsonCodec CloudBackup.FilePath
open CloudBackup.FileStore CloudBackup.DataManager CloudBackup.UploadScanner CloudBackup.Download
open CloudBackup.UploadChunking CloudBackup.HttpCallbacks CloudBackup.PipeMessages
open CloudBackup.ResponseFraming CloudBackup.TextLines

def cr : UInt8 := 13
def lf : UInt8 := 10
def colon : UInt8 := 58

def headerEntry (line : Bytes) : Option (Bytes × Bytes) :=
  (find (bytes ": ") line).map fun n => (line.take n, line.drop (n+2))

def readLines : List Bytes → Option (Bytes × List (Bytes × Bytes))
  | [] => none
  | status::lines => (lines.mapM headerEntry).map fun entries => (status, entries)

/-- The status line, the headers in their order, and the body. -/
def readResponse (response : Bytes) : Option (Bytes × List (Bytes × Bytes) × Bytes) :=
  (find (sep ++ sep) response).bind fun n =>
    (readLines (splitLines cr lf (response.take n))).map fun r => (r.1, r.2, response.drop (n+4))

def statusText (h : HeadInfo) : Bytes :=
  h.responseVersion ++ bytes " " ++ h.responseStatus ++ bytes " " ++ h.responseStatusDescribe

def headerPairs (h : HeadInfo) : List (Bytes × Bytes) :=
  h.responseHeaders.entries.map fun e => (e.1, e.2)

def ParsesBack (h : HeadInfo) (a : Answer) : Prop :=
  readResponse a.response = some (statusText h, headerPairs h, h.responseBody)

/-- No value of a header carries a CR or an LF. -/
def SafeValues (h : HeadInfo) : Prop := ∀ e ∈ headerPairs h, cr ∉ e.2 ∧ lf ∉ e.2

def Named (h : HeadInfo) (s : Store) (name : Bytes) : Prop :=
  h.responseStatus = [] ∧ isGet (bytes "/download") h = true ∧
    ∃ id, validNode h.curDownloadFile s = some id ∧ (s.nodes id).info.filename = name

theorem sep_across (s t : Bytes) (c : UInt8) (hc : c ∉ sep) (hs : ¬ sep <:+: s)
    (ht : ¬ sep <:+: t) :
    ¬ sep <:+: s ++ c::t := by
  rw [not_infix_iff] at hs ht ⊢
  rw [find_behind_break sep s t c hc (by decide) hs, ht]
  rfl

theorem sep_clean {s : Bytes} (h : cr ∉ s) : ¬ sep <:+: s := fun hin =>
  h (hin.subset (by decide))

theorem decimal_bytes (n : ℤ) (b : UInt8) (h : b ∈ toDecimal n) : 45 ≤ b.toNat ∧ b.toNat ≤ 57 := by
  rw [toDecimal, List.mem_append] at h
  cases h with
  | inl hsign =>
    split_ifs at hsign with hneg
    · have hminus : b = 45 := by simpa [bytes] using hsign
      subst hminus
      decide
    · cases hsign
  | inr hdigits =>
    have hnat : b ∈ toDecimal (n.natAbs : ℤ) := by
      rw [toDecimal_nat]
      exact hdigits
    have := toDecimal_digits n.natAbs b hnat
    omega

theorem decimal_free (n : ℤ) (b : UInt8) (h : b.toNat < 45 ∨ 57 < b.toNat) : b ∉ toDecimal n := by
  intro hb
  have := decimal_bytes n b hb
  omega

theorem break_free (n : ℤ) (x : UInt8) (hx : x = cr ∨ x = lf) : x ∉ toDecimal n := by
  apply decimal_free
  rcases hx with rfl | rfl <;> decide

theorem range_free (a b c : ℤ) (x : UInt8) (hx : x = cr ∨ x = lf) :
    x ∉ bytes "bytes " ++ toDecimal a ++ bytes "-" ++ toDecimal b ++ bytes "/" ++ toDecimal c := by
  have hwords : x ∉ bytes "bytes " ∧ x ∉ bytes "-" ∧ x ∉ bytes "/" := by
    rcases hx with rfl | rfl <;> decide
  simp only [List.mem_append, not_or]
  exact ⟨⟨⟨⟨⟨hwords.1, break_free a x hx⟩, hwords.2.1⟩, break_free b x hx⟩, hwords.2.2⟩,
    break_free c x hx⟩

def disposition (info : BackupInfoNode) : Bytes :=
  bytes "attachment; filename=\"" ++ info.filename ++ [quote]

theorem etag_unbroken (info : BackupInfoNode) :
    ¬ sep <:+: etag info ↔ ¬ sep <:+: info.filename := by
  have hdash : (45 : UInt8) ∉ sep := by decide
  have hnumber : ∀ n : ℤ, ¬ sep <:+: toDecimal n :=
    fun n => sep_clean (break_free n cr (Or.inl rfl))
  constructor
  · intro h hin
    apply h
    rw [etag, List.append_assoc, List.append_assoc, List.append_assoc]
    exact hin.trans (List.prefix_append _ _).isInfix
  · intro h
    have hone := sep_across info.filename (toDecimal info.time) 45 hdash h (hnumber info.time)
    have htwo := sep_across (info.filename ++ 45::toDecimal info.time) (toDecimal info.size)
      45 hdash hone
      (hnumber info.size)
    have hsame : etag info =
        (info.filename ++ 45::toDecimal info.time) ++ 45::toDecimal info.size := by
      simp [etag, bytes]
    rw [hsame]
    exact htwo

theorem disposition_unbroken (info : BackupInfoNode) (h : ¬ sep <:+: info.filename) :
    ¬ sep <:+: disposition info := by
  have hquote : quote ∉ sep := by decide
  have hone := sep_across (bytes "attachment; filename=") info.filename quote hquote
    (sep_clean (by decide)) h
  have htwo := sep_across (bytes "attachment; filename=" ++ quote::info.filename)
    [] quote hquote hone (by decide)
  have hsame : disposition info =
      (bytes "attachment; filename=" ++ quote::info.filename) ++ [quote] := by
    simp [disposition, bytes, quote]
  rw [hsame]
  exact htwo

theorem etag_free (info : BackupInfoNode) (x : UInt8) (hx : x = cr ∨ x = lf) :
    x ∉ etag info ↔ x ∉ info.filename := by
  have hdash : x ∉ bytes "-" := by
    rcases hx with rfl | rfl <;> decide
  simp [etag, break_free _ x hx, hdash]

theorem disposition_free (info : BackupInfoNode) (x : UInt8) (hx : x = cr ∨ x = lf)
    (h : x ∉ info.filename) :
    x ∉ disposition info := by
  have hwords : x ∉ bytes "attachment; filename=\"" ∧ x ∉ [quote] := by
    rcases hx with rfl | rfl <;> decide
  rw [disposition, List.mem_append, List.mem_append, not_or, not_or]
  exact ⟨⟨hwords.1, h⟩, hwords.2⟩

def Headed (P : Bytes → Bytes → Prop) (h : HeadInfo) : Prop :=
  ∀ e ∈ h.responseHeaders.entries, P e.1 e.2

theorem headed_set {P : Bytes → Bytes → Prop} {h : HeadInfo} (hh : Headed P h) {name value : Bytes}
    (hp : P name value) : Headed P (setHeader name value h) := by
  intro e he
  rw [setHeader, AList.entries_insert] at he
  cases List.mem_cons.mp he with
  | inl hnew =>
    subst hnew
    exact hp
  | inr hold => exact hh e (List.kerase_sublist _ _ |>.subset hold)

theorem headed_empty {P : Bytes → Bytes → Prop} {h : HeadInfo} (hempty : h.responseHeaders = ∅) :
    Headed P h := by
  intro e he
  rw [hempty] at he
  cases he

structure Permits (P : Bytes → Bytes → Prop) : Prop where
  contentType : ∀ v, v = bytes "text/html" ∨ v = bytes "application/json" ∨
    v = bytes "application/octet-stream" →
    P (bytes "Content-Type") v
  acceptRanges : P (bytes "Accept-Ranges") (bytes "bytes")
  contentLength : ∀ n, P (bytes "Content-Length") (toDecimal n)
  contentRange : ∀ a b c, P (bytes "Content-Range")
    (bytes "bytes " ++ toDecimal a ++ bytes "-" ++ toDecimal b ++ bytes "/" ++ toDecimal c)

section Branches
variable {P : Bytes → Bytes → Prop} (hp : Permits P)
include hp

theorem headed_json {h : HeadInfo} (hh : Headed P h) (text : Bytes) :
    Headed P (jsonBody text h) := by
  have htype := headed_set hh (hp.contentType (bytes "application/json") (Or.inr (Or.inl rfl)))
  have hlength := headed_set htype (hp.contentLength text.length)
  intro e he
  exact hlength e he

theorem headed_whole {h : HeadInfo} (hh : Headed P h) (info : BackupInfoNode)
    (hname : P (bytes "ETag") (etag info) ∧ P (bytes "Content-Disposition") (disposition info)) :
    Headed P (wholeFile info h) := by
  apply headed_set _ hname.2
  apply headed_set _ (hp.contentLength info.size)
  apply headed_set _ hname.1
  apply headed_set _ hp.acceptRanges
  apply headed_set _ (hp.contentType _ (Or.inr (Or.inr rfl)))
  exact hh

theorem headed_part {h : HeadInfo} (hh : Headed P h) (info : BackupInfoNode) (startPos endPos : ℤ) :
    Headed P (partOfFile info startPos endPos h) := by
  apply headed_set _ (hp.contentRange startPos (wrap (endPos-1)) info.size)
  apply headed_set _ (hp.contentLength (rangeLength startPos endPos))
  exact hh

theorem headed_download {h h' : HeadInfo} {s : Store} {task : Option SendTask} (hh : Headed P h)
    (hname : ∀ id, validNode h.curDownloadFile s = some id →
      P (bytes "ETag") (etag (s.nodes id).info) ∧
      P (bytes "Content-Disposition") (disposition (s.nodes id).info))
    (hreq : processDownloadRequest h s = some (h', task)) : Headed P h' := by
  unfold processDownloadRequest getFileInfoNode at hreq
  cases hid : validNode h.curDownloadFile s with
  | none =>
    rw [hid] at hreq
    cases hreq
    exact hh
  | some id =>
    have hwhole := headed_whole hp hh (s.nodes id).info (hname id hid)
    rw [hid] at hreq
    dsimp only at hreq
    split at hreq
    · obtain ⟨r, -, heq⟩ := Option.map_eq_some_iff.mp hreq
      cases heq
      exact headed_part hp hwhole _ _ _
    · cases hreq
      exact hwhole

theorem headed_list (env : Env) {h : HeadInfo} (hh : Headed P h) (s : Store) :
    Headed P (processShowlistRequest env h s).1 := by
  unfold processShowlistRequest
  dsimp only
  split
  · exact hh
  · apply headed_set _ (hp.contentLength _)
    apply headed_set _ (hp.contentType _ (Or.inl rfl))
    exact hh

/-- Whatever answers the message, only a download puts a name into a header. -/
theorem complete_headed {env : Env} {codec : Codec} {h h' : HeadInfo} {s t : Store} {a : Answer}
    (hu : Unanswered h)
    (hcomplete : onMessageComplete env codec h s = some (h', t, a))
    (hname : ∀ id, h.responseStatus = [] → isGet (bytes "/download") h = true →
      validNode h.curDownloadFile s = some id → P (bytes "ETag") (etag (s.nodes id).info) ∧
        P (bytes "Content-Disposition") (disposition (s.nodes id).info)) : Headed P h' := by
  have hh : Headed P h := headed_empty hu.1
  rw [onMessageComplete] at hcomplete
  split_ifs at hcomplete with hstatus hlist hdownload hdelete hupload hapi
  · cases hcomplete
    exact hh
  · cases hcomplete
    exact headed_list hp env hh s
  · obtain ⟨r, hr, heq⟩ := Option.map_eq_some_iff.mp hcomplete
    cases heq
    exact headed_download hp hh (fun id => hname id (not_not.mp hstatus) hdownload) hr
  · cases hcomplete
    unfold processDeleteRequest
    dsimp only
    split_ifs
    · exact hh
    · exact hh
  · cases hcomplete
    have hreport : Headed P (uploadStatus h) := by
      unfold uploadStatus
      split_ifs <;> exact hh
    unfold processUploadRequest
    split
    · exact hreport
    · exact headed_json hp hreport _
  · cases hcomplete
    unfold processApiRequest
    split_ifs
    · split
      · exact hh
      · exact headed_json hp (h := setStatus (bytes "200") (bytes "OK") h) hh _
    · exact hh
  · cases hcomplete
    exact hh

end Branches

def PlainStatus (h : HeadInfo) : Prop := cr ∉ h.responseStatus ∧ cr ∉ h.responseStatusDescribe

theorem plain_frame {h h' : HeadInfo} (hp : PlainStatus h) (hf : frame h' = frame h) :
    PlainStatus h' := by
  have hstatus := congrArg HeadInfo.responseStatus hf
  have hdescribe := congrArg HeadInfo.responseStatusDescribe hf
  constructor
  · intro hin
    exact hp.1 (hstatus ▸ hin)
  · intro hin
    exact hp.2 (hdescribe ▸ hin)

theorem plain_json {h : HeadInfo} (hp : PlainStatus h) (text : Bytes) :
    PlainStatus (jsonBody text h) := ⟨hp.1, hp.2⟩

theorem plain_notFound (h : HeadInfo) : PlainStatus (notFound h) :=
  ⟨show cr ∉ bytes "404" by decide, show cr ∉ bytes "Not Found" by decide⟩

theorem plain_badRequest (h : HeadInfo) : PlainStatus (badRequest h) :=
  ⟨show cr ∉ bytes "400" by decide, show cr ∉ bytes "Bad Request" by decide⟩

theorem plain_ok (h : HeadInfo) : PlainStatus (setStatus (bytes "200") (bytes "OK") h) :=
  ⟨show cr ∉ bytes "200" by decide, show cr ∉ bytes "OK" by decide⟩

theorem plain_upload (h : HeadInfo) : PlainStatus (uploadStatus h) := by
  unfold uploadStatus
  split_ifs
  · exact plain_ok h
  · exact plain_badRequest h
  · exact ⟨show cr ∉ bytes "207" by decide, show cr ∉ bytes "Multi-Status" by decide⟩

theorem plain_headers {h h' : HeadInfo} (hp : PlainStatus h) (hh : onHeadersComplete h = some h') :
    PlainStatus h' := by
  obtain ⟨a, b, c, k, rfl, rfl | rfl | rfl⟩ := onHeadersComplete_cases hh
  · exact hp
  · exact plain_notFound _
  · exact plain_badRequest _

theorem plain_body {env : Env} {data : Bytes} {h : HeadInfo} {s : Store} {r : HeadInfo × Store}
    (hp : PlainStatus h) (hr : onBody env data h s = some r) : PlainStatus r.1 := by
  unfold onBody at hr
  split_ifs at hr
  · cases hr
    exact hp
  · obtain ⟨q, hq, rfl⟩ := Option.map_eq_some_iff.mp hr
    have hframe := uploadLoop_frame env _ _ s q hq
    have hq : PlainStatus q.2.1 := plain_frame (h := setBody h (h.requestBody ++ data)) hp hframe
    split_ifs
    · exact hq
    · exact plain_badRequest _
  · cases hr
    exact hp

theorem collected_plain {env : Env} {codec : Codec} {h : HeadInfo} (hc : Collected env codec h) :
    PlainStatus h := by
  induction hc with
  | begins h => exact ⟨List.not_mem_nil, List.not_mem_nil⟩
  | more h h' s t cb a _ hcb hcall ih =>
    cases cb with
    | messageBegin =>
      cases hcall
      exact ⟨List.not_mem_nil, List.not_mem_nil⟩
    | method | url | version | headerField | headerValue | headerValueComplete =>
      cases hcall
      exact ih
    | urlComplete =>
      cases hcall
      unfold onUrlComplete
      dsimp only
      split <;> exact ih
    | headersComplete =>
      obtain ⟨q, hq, heq⟩ := Option.map_eq_some_iff.mp hcall
      cases heq
      exact plain_headers ih hq
    | body data =>
      obtain ⟨q, hq, heq⟩ := Option.map_eq_some_iff.mp hcall
      cases heq
      exact plain_body ih hq
    | messageComplete => exact absurd rfl hcb

theorem whole_status (info : BackupInfoNode) (h : HeadInfo) :
    PlainStatus (wholeFile info h) ∧ (wholeFile info h).responseVersion = h.responseVersion := by
  refine ⟨⟨?_, ?_⟩, ?_⟩
  · simp only [wholeFile, setHeader, setStatus]
    decide
  · simp only [wholeFile, setHeader, setStatus]
    decide
  · simp only [wholeFile, setHeader, setStatus]

theorem part_status (info : BackupInfoNode) (startPos endPos : ℤ) (h : HeadInfo) :
    PlainStatus (partOfFile info startPos endPos h) ∧
      (partOfFile info startPos endPos h).responseVersion = h.responseVersion := by
  refine ⟨⟨?_, ?_⟩, ?_⟩
  · simp only [partOfFile, setHeader, setStatus]
    decide
  · simp only [partOfFile, setHeader, setStatus]
    decide
  · simp only [partOfFile, setHeader, setStatus]

theorem download_status {h h' : HeadInfo} {s : Store} {task : Option SendTask}
    (hreq : processDownloadRequest h s = some (h', task)) :
    PlainStatus h' ∧ h'.responseVersion = h.responseVersion := by
  unfold processDownloadRequest at hreq
  cases hid : getFileInfoNode h.curDownloadFile s with
  | none =>
    rw [hid] at hreq
    cases hreq
    exact ⟨plain_notFound h, rfl⟩
  | some id =>
    have hwhole := whole_status (s.nodes id).info h
    rw [hid] at hreq
    dsimp only at hreq
    split at hreq
    · obtain ⟨r, -, heq⟩ := Option.map_eq_some_iff.mp hreq
      cases heq
      have hpart := part_status (s.nodes id).info r.1 r.2 (wholeFile (s.nodes id).info h)
      exact ⟨hpart.1, hpart.2.trans hwhole.2⟩
    · cases hreq
      exact hwhole

theorem complete_status {env : Env} {codec : Codec} {h h' : HeadInfo} {s t : Store} {a : Answer}
    (hp : PlainStatus h)
    (hcomplete : onMessageComplete env codec h s = some (h', t, a)) :
    PlainStatus h' ∧ h'.responseVersion = h.responseVersion := by
  rw [onMessageComplete] at hcomplete
  split_ifs at hcomplete with hstatus hlist hdownload hdelete hupload hapi
  · cases hcomplete
    exact ⟨hp, rfl⟩
  · cases hcomplete
    unfold processShowlistRequest
    dsimp only
    split
    · exact ⟨hp, rfl⟩
    · exact ⟨⟨(plain_ok h).1, (plain_ok h).2⟩, rfl⟩
  · obtain ⟨r, hr, heq⟩ := Option.map_eq_some_iff.mp hcomplete
    cases heq
    exact download_status hr
  · cases hcomplete
    unfold processDeleteRequest
    dsimp only
    split_ifs
    · exact ⟨plain_ok h, rfl⟩
    · exact ⟨plain_notFound h, rfl⟩
  · cases hcomplete
    have hversion : (uploadStatus h).responseVersion = h.responseVersion := by
      unfold uploadStatus
      split_ifs <;> rfl
    unfold processUploadRequest
    split
    · exact ⟨plain_upload h, hversion⟩
    · exact ⟨plain_json (plain_upload h) _, hversion⟩
  · cases hcomplete
    unfold processApiRequest
    split_ifs
    · split
      · exact ⟨plain_notFound h, rfl⟩
      · exact ⟨plain_json (plain_ok h) _, rfl⟩
    · exact ⟨plain_notFound h, rfl⟩
  · cases hcomplete
    exact ⟨plain_notFound h, rfl⟩

def headerLines (h : HeadInfo) : List Bytes := (headerPairs h).map fun e => e.1 ++ bytes ": " ++ e.2

theorem seralize_lines (h : HeadInfo) : responseSeralize h =
    joinLines cr lf (statusText h::headerLines h) ++ cr::lf::cr::lf::h.responseBody := by
  have hlines : (h.responseHeaders.entries.map fun e => e.1 ++ bytes ": " ++ e.2 ++ sep) =
      (headerLines h).map (· ++ [cr, lf]) := by
    rw [headerLines, headerPairs, List.map_map, List.map_map]
    rfl
  have hended := joinLines_ended cr lf (statusText h) (headerLines h)
  rw [responseSeralize, hlines, ← statusText]
  calc statusText h ++ sep ++ ((headerLines h).map (· ++ [cr, lf])).flatten ++ sep ++ h.responseBody
      = (statusText h ++ cr::lf::((headerLines h).map (· ++ [cr, lf])).flatten) ++
        cr::lf::h.responseBody := by
        simp [sep, bytes, cr, lf]
    _ = (joinLines cr lf (statusText h::headerLines h) ++ [cr, lf]) ++ cr::lf::h.responseBody := by
      rw [hended]
    _ = joinLines cr lf (statusText h::headerLines h) ++ cr::lf::cr::lf::h.responseBody := by simp

def Readable (name value : Bytes) : Prop := cr ∉ name ∧ colon ∉ name ∧ ¬ sep <:+: value

theorem headerEntry_line {name value : Bytes} (hname : colon ∉ name) :
    headerEntry (name ++ bytes ": " ++ value) = some (name, value) := by
  have hfind : find (bytes ": ") (name ++ bytes ": " ++ value) = some name.length := by
    rw [List.append_assoc]
    exact find_after_clean colon [32] name value hname
  have htwo : (bytes ": ").length = 2 := rfl
  rw [headerEntry, hfind, Option.map_some, ← htwo, ← List.length_append, List.append_assoc,
    List.take_left, ← List.append_assoc, List.drop_left]

theorem readable_line {name value : Bytes} (hr : Readable name value) :
    ¬ sep <:+: name ++ bytes ": " ++ value := by
  have hblank := sep_across [] value 32 (by decide) (by decide) hr.2.2
  have hcolon := sep_across name ([] ++ 32::value) colon (by decide) (sep_clean hr.1) hblank
  have hsame : name ++ bytes ": " ++ value = name ++ colon::([] ++ 32::value) := by
    simp [bytes, colon]
  rw [hsame]
  exact hcolon

theorem mapM_entries (es : List (Bytes × Bytes)) (h : ∀ e ∈ es, colon ∉ e.1) :
    (es.map fun e => e.1 ++ bytes ": " ++ e.2).mapM headerEntry = some es := by
  induction es with
  | nil => rfl
  | cons e es ih =>
    rw [List.map_cons, List.mapM_cons, headerEntry_line (h e List.mem_cons_self),
      ih fun i hi => h i (List.mem_cons_of_mem e hi)]
    rfl

theorem parses_of_readable {h : HeadInfo} (hstatus : cr ∉ statusText h)
    (hread : Headed Readable h) :
    readResponse (responseSeralize h) = some (statusText h, headerPairs h, h.responseBody) := by
  have hpairs : ∀ e ∈ headerPairs h, Readable e.1 e.2 := by
    intro e he
    obtain ⟨x, hx, rfl⟩ := List.mem_map.mp he
    exact hread x hx
  have hlines : ∀ l ∈ statusText h::headerLines h, l ≠ [] ∧ ¬ [cr, lf] <:+: l := by
    intro l hl
    cases List.mem_cons.mp hl with
    | inl hfirst =>
      subst hfirst
      refine ⟨?_, sep_clean hstatus⟩
      simp [statusText, bytes]
    | inr hrest =>
      obtain ⟨e, he, rfl⟩ := List.mem_map.mp hrest
      refine ⟨?_, readable_line (hpairs e he)⟩
      simp [bytes]
  have hne : cr ≠ lf := by decide
  have hfind := find_blank hne (statusText h::headerLines h) (List.cons_ne_nil _ _) hlines
    h.responseBody
  have hsplit := splitLines_join hne (statusText h::headerLines h) (List.cons_ne_nil _ _) fun l
    hl => (hlines l hl).2
  have hmap := mapM_entries (headerPairs h) fun e he => (hpairs e he).2.1
  rw [readResponse, seralize_lines]
  have hpattern : sep ++ sep = [cr, lf, cr, lf] := rfl
  rw [hpattern, hfind, Option.bind_some, List.take_left, hsplit, readLines, headerLines, hmap]
  simp

theorem headerEntry_suffix {line : Bytes} {e : Bytes × Bytes} (h : headerEntry line = some e) :
    e.2 <:+ line := by
  obtain ⟨n, -, rfl⟩ := Option.map_eq_some_iff.mp h
  exact List.drop_suffix _ _

theorem mapM_mem {lines : List Bytes} {es : List (Bytes × Bytes)}
    (h : lines.mapM headerEntry = some es) :
    ∀ e ∈ es, ∃ line ∈ lines, headerEntry line = some e := by
  induction lines generalizing es with
  | nil =>
    cases h
    intro e he
    cases he
  | cons l ls ih =>
    rw [List.mapM_cons] at h
    obtain ⟨x, hx, h⟩ := Option.bind_eq_some_iff.mp h
    obtain ⟨xs, hxs, h⟩ := Option.bind_eq_some_iff.mp h
    cases h
    intro e he
    cases List.mem_cons.mp he with
    | inl hfirst => exact ⟨l, List.mem_cons_self, hfirst ▸ hx⟩
    | inr hrest =>
      obtain ⟨line, hline, heq⟩ := ih hxs e hrest
      exact ⟨line, List.mem_cons_of_mem l hline, heq⟩

theorem read_unbroken {response status body : Bytes} {es : List (Bytes × Bytes)}
    (h : readResponse response = some (status, es, body)) : ∀ e ∈ es, ¬ sep <:+: e.2 := by
  intro e he hin
  obtain ⟨n, -, h⟩ := Option.bind_eq_some_iff.mp h
  obtain ⟨r, hr, heq⟩ := Option.map_eq_some_iff.mp h
  cases heq
  cases hlines : splitLines cr lf (response.take n) with
  | nil =>
    rw [hlines] at hr
    cases hr
  | cons first lines =>
    rw [hlines] at hr
    obtain ⟨found, hfound, heq⟩ := Option.map_eq_some_iff.mp hr
    cases heq
    obtain ⟨line, hline, hentry⟩ := mapM_mem hfound e he
    have hclean := splitLines_clean (c := cr) (d := lf) (response.take n) line
      (by rw [hlines]; exact List.mem_cons_of_mem first hline)
    exact hclean (hin.trans (headerEntry_suffix hentry).isInfix)

theorem readable_permits : Permits Readable := by
  constructor
  · intro v hv
    refine ⟨by decide, by decide, sep_clean ?_⟩
    rcases hv with rfl | rfl | rfl <;> decide
  · exact ⟨by decide, by decide, sep_clean (by decide)⟩
  · exact fun n => ⟨by decide, by decide, sep_clean (break_free n cr (Or.inl rfl))⟩
  · exact fun a b c => ⟨by decide, by decide, sep_clean (range_free a b c cr (Or.inl rfl))⟩

theorem safe_permits : Permits fun _ value => cr ∉ value ∧ lf ∉ value := by
  constructor
  · intro v hv
    rcases hv with rfl | rfl | rfl <;> decide
  · decide
  · exact fun n => ⟨break_free n cr (Or.inl rfl), break_free n lf (Or.inr rfl)⟩
  · exact fun a b c => ⟨range_free a b c cr (Or.inl rfl), range_free a b c lf (Or.inr rfl)⟩

theorem whole_etag (info : BackupInfoNode) (h : HeadInfo) :
    (wholeFile info h).responseHeaders.lookup (bytes "ETag") = some (etag info) := by
  rw [wholeFile, setHeader_other _ _ _ _ (by decide), setHeader_other _ _ _ _ (by decide),
    setHeader_lookup]

theorem part_etag (info : BackupInfoNode) (startPos endPos : ℤ) (h : HeadInfo) :
    (partOfFile info startPos endPos h).responseHeaders.lookup (bytes "ETag") =
      h.responseHeaders.lookup (bytes "ETag") := by
  rw [partOfFile, setHeader_other _ _ _ _ (by decide), setHeader_other _ _ _ _ (by decide)]
  rfl

theorem download_etag {h h' : HeadInfo} {s : Store} {task : Option SendTask} {id : NodeId}
    (hid : validNode h.curDownloadFile s = some id)
    (hreq : processDownloadRequest h s = some (h', task)) :
    h'.responseHeaders.lookup (bytes "ETag") = some (etag (s.nodes id).info) := by
  have hwhole := whole_etag (s.nodes id).info h
  rw [processDownloadRequest, getFileInfoNode, hid] at hreq
  dsimp only at hreq
  split at hreq
  · obtain ⟨r, -, heq⟩ := Option.map_eq_some_iff.mp hreq
    cases heq
    rw [part_etag]
    exact hwhole
  · cases hreq
    exact hwhole

section Complete
variable {env : Env} {codec : Codec} {h h' : HeadInfo} {s t : Store} {a : Answer}
  (hcomplete : onMessageComplete env codec h s = some (h', t, a))
include hcomplete

theorem complete_response : a.response = responseSeralize h' := by
  rw [onMessageComplete] at hcomplete
  split_ifs at hcomplete
  · cases hcomplete
    rfl
  · cases hcomplete
    rfl
  · obtain ⟨r, -, heq⟩ := Option.map_eq_some_iff.mp hcomplete
    cases heq
    rfl
  · cases hcomplete
    rfl
  · cases hcomplete
    rfl
  · cases hcomplete
    rfl
  · cases hcomplete
    rfl

theorem etag_listed {name : Bytes} (hnamed : Named h s name) :
    ∃ info : BackupInfoNode, info.filename = name ∧ (bytes "ETag", etag info) ∈ headerPairs h' := by
  obtain ⟨hstatus, hdownload, id, hid, rfl⟩ := hnamed
  have hprefix : h.requestUrlPrefix = bytes "/download" :=
    of_decide_eq_true (Bool.and_eq_true_iff.mp hdownload).2
  have hlist : (isGet (bytes "/") h || isGet (bytes "/showlist") h) = false := by
    simp only [isGet, hprefix, Bool.or_eq_false_iff, Bool.and_eq_false_iff]
    exact ⟨Or.inr (by decide), Or.inr (by decide)⟩
  rw [onMessageComplete, if_neg (not_not.mpr hstatus), hlist, if_neg Bool.false_ne_true,
    if_pos hdownload] at hcomplete
  obtain ⟨r, hr, heq⟩ := Option.map_eq_some_iff.mp hcomplete
  cases heq
  have hentry := AList.mem_lookup_iff.mp (Option.mem_def.mpr (download_etag hid hr))
  exact ⟨(s.nodes id).info, rfl, List.mem_map.mpr ⟨_, hentry, rfl⟩⟩

/-- Every response is read back as it was meant, and no header value carries a CR or an LF,
exactly as far as the name of the file it is about allows. -/
theorem heads_parse_back (hc : Collected env codec h) (hversion : cr ∉ h.responseVersion) :
    (ParsesBack h' a ↔ ∀ name, Named h s name → ¬ sep <:+: name) ∧
      (SafeValues h' ↔ ∀ name, Named h s name → cr ∉ name ∧ lf ∉ name) := by
  have hu := collected_unanswered hc
  have hresponse := complete_response hcomplete
  constructor
  · constructor
    · intro hparses name hnamed
      obtain ⟨info, rfl, hlisted⟩ := etag_listed hcomplete hnamed
      exact (etag_unbroken info).mp (read_unbroken hparses _ hlisted)
    · intro hnames
      obtain ⟨hplain, hsame⟩ := complete_status (collected_plain hc) hcomplete
      have hstatus : cr ∉ statusText h' := by
        simp only [statusText, List.mem_append, not_or, hsame]
        exact ⟨⟨⟨⟨hversion, by decide⟩, hplain.1⟩, by decide⟩, hplain.2⟩
      have hread : Headed Readable h' := by
        apply complete_headed readable_permits hu hcomplete
        intro id hst hdownload hid
        have hname := hnames _ ⟨hst, hdownload, id, hid, rfl⟩
        exact ⟨⟨by decide, by decide, (etag_unbroken _).mpr hname⟩, by
          decide, by decide, disposition_unbroken _ hname⟩
      rw [ParsesBack, hresponse]
      exact parses_of_readable hstatus hread
  · constructor
    · intro hsafe name hnamed
      obtain ⟨info, rfl, hlisted⟩ := etag_listed hcomplete hnamed
      obtain ⟨hcr, hlf⟩ := hsafe _ hlisted
      exact ⟨(etag_free info cr (Or.inl rfl)).mp hcr, (etag_free info lf (Or.inr rfl)).mp hlf⟩
    · intro hnames e he
      have hheaded : Headed (fun _ value => cr ∉ value ∧ lf ∉ value) h' := by
        apply complete_headed safe_permits hu hcomplete
        intro id hst hdownload hid
        obtain ⟨hcr, hlf⟩ := hnames _ ⟨hst, hdownload, id, hid, rfl⟩
        exact ⟨⟨(etag_free _ cr (Or.inl rfl)).mpr hcr, (etag_free _ lf (Or.inr rfl)).mpr hlf⟩,
          disposition_free _ cr (Or.inl rfl) hcr, disposition_free _ lf (Or.inr rfl) hlf⟩
      obtain ⟨x, hx, rfl⟩ := List.mem_map.mp he
      exact hheaded x hx

end Complete

def downloadOf (path name : Bytes) : HeadInfo :=
  { requestMethod := bytes "GET"
    requestUrl := bytes "/download" ++ path
    requestUrlPrefix := bytes "/download"
    requestUrlPath := path
    requestVersion := bytes "1.1"
    responseVersion := bytes "HTTP/1.1"
    curDownloadFile := name }

theorem downloadOf_collected (env : Env) (codec : Codec) (s : Store) (path name : Bytes)
    (hurl : onUrlComplete { requestMethod := bytes "GET",
                            requestUrl := bytes "/download" ++ path } =
      { downloadOf path [] with requestVersion := [], responseVersion := [] })
    (hname : onHeadersComplete { downloadOf path [] with responseVersion := [] } =
      some (downloadOf path name)) :
    Collected env codec (downloadOf path name) := by
  have h0 : Collected env codec (onMessageBegin {}) := .begins {}
  have h1 := h0.more _ _ s s (.method (bytes "GET")) none (by simp) rfl
  have h2 := h1.more _ _ s s (.url (bytes "/download" ++ path)) none (by simp) rfl
  have h3 := h2.more _ _ s s .urlComplete none (by simp)
    (congrArg (fun h => some (h, s, none)) hurl)
  have h4 := h3.more _ _ s s (.version (bytes "1.1")) none (by simp) rfl
  exact h4.more _ _ s s .headersComplete none (by simp) (by rw [callback]; exact congrArg _ hname)

def helloRequest : HeadInfo := downloadOf (bytes "/f") (bytes "f")

theorem helloRequest_collected : Collected plainEnv plainCodec helloRequest :=
  downloadOf_collected plainEnv plainCodec freshStore (bytes "/f") (bytes "f") rfl rfl

theorem heads_parse_back_hello :
    ∃ h' a, onMessageComplete plainEnv plainCodec helloRequest helloStore =
      some (h', helloStore, a) ∧
    (ParsesBack h' a ↔ ∀ name, Named helloRequest helloStore name → ¬ sep <:+: name) ∧
    (SafeValues h' ↔ ∀ name, Named helloRequest helloStore name → cr ∉ name ∧ lf ∉ name) := by
  have hcomplete : onMessageComplete plainEnv plainCodec helloRequest helloStore =
      some (wholeFile (helloStore.nodes 0).info helloRequest, helloStore,
        answer (wholeFile (helloStore.nodes 0).info helloRequest) (some ⟨0, 0, 5⟩) false) := rfl
  exact ⟨_, _, hcomplete, heads_parse_back hcomplete helloRequest_collected (by decide)⟩

/-- The name of the part runs over two lines. -/
def brokenPart : Bytes := bytes "--b\r\nfilename=\"a\r\nX: y\"\r\n\r\nhello\r\n--b--\r\n"

def brokenRequest : HeadInfo := downloadOf (bytes "/a%0D%0AX:%20y") (bytes "a\r\nX: y")

theorem brokenRequest_collected : Collected plainEnv plainCodec brokenRequest :=
  downloadOf_collected plainEnv plainCodec freshStore _ _ rfl rfl

def served (body : Bytes) (request : HeadInfo) : Option (HeadInfo × Answer) :=
  (onBodies plainEnv [body] (uploadHead (bytes "--b")) freshStore).bind fun r =>
    (onMessageComplete plainEnv plainCodec request r.2).map fun x => (x.1, x.2.2)

/-- The upload of the part and the download of its name: the second line is read as headers of their
own. -/
theorem broken_head : Collected plainEnv plainCodec brokenRequest ∧
    ∃ h a, served brokenPart brokenRequest = some (h, a) ∧ ¬ ParsesBack h a ∧
      (readResponse a.response).map
        (fun r => r.2.1.lookup (bytes "X")) = some (some (bytes "y\"")) ∧
      bytes "X" ∉ h.responseHeaders.keys := by
  refine ⟨brokenRequest_collected, ?_⟩
  have hrun : (served brokenPart brokenRequest).map (fun x =>
      (decide (readResponse x.2.response = some (statusText x.1, headerPairs x.1,
        x.1.responseBody)), (readResponse x.2.response).map fun r => r.2.1.lookup (bytes "X"),
        decide (bytes "X" ∈ x.1.responseHeaders.keys))) = some (false,
          some (some (bytes "y\"")), false) := by
    decide +kernel
  obtain ⟨x, hx, hfields⟩ := Option.map_eq_some_iff.mp hrun
  simp only [Prod.mk.injEq, decide_eq_false_iff_not] at hfields
  exact ⟨x.1, x.2, hx, hfields⟩

end CloudBackup.ResponseHeads
