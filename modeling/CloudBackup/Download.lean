import CloudBackup.RunInvariants
import CloudBackup.UploadScanner

/-!
# Serving a file

`process_download_request` announces a range and leaves the rest to a chain
of `sendFile` tasks, each of which appends one segment. The first segment of
a range from the start of a file may come from the cache, which was filled
by other downloads. The steps of a task that other connections may come
between have definitions of their own.
-/

set_option autoImplicit false

namespace CloudBackup.Download
open CloudBackup.PatternSearch CloudBackup.ByteStrings CloudBackup.FilePath
open CloudBackup.FileStore CloudBackup.DataManager CloudBackup.UploadScanner
open CloudBackup.RunInvariants

def isSpace (c : UInt8) : Bool := c == 32 || (9 ≤ c && c ≤ 13)

def isDigit (c : UInt8) : Bool := 48 ≤ c && c ≤ 57

def digits (s : Bytes) : ℕ := s.foldl (fun n c => 10*n+(c.toNat-48)) 0

def signed (negative : Bool) (s : Bytes) : Option ℤ :=
  let ds := s.takeWhile isDigit
  let v : ℤ := if negative then -(digits ds) else digits ds
  if ds = [] then none else if -2^63 ≤ v ∧ v < 2^63 then some v else none

/-- `std::stoll`; `none` where it throws. -/
def stoll (s : Bytes) : Option ℤ :=
  match s.dropWhile isSpace with
  | 45::r => signed true r
  | 43::r => signed false r
  | r => signed false r

/-- A sum of two `long long` values. -/
def wrap (n : ℤ) : ℤ := Int.bmod n (2^64)

/-- A sum of two `int` values. -/
def wrapInt (n : ℤ) : ℤ := Int.bmod n (2^32)

def parseRange (rangeValue : Bytes) (size : ℤ) : Option (ℤ × ℤ) :=
  let dashPos := asInt (find (bytes "-") rangeValue)
  let next := asSize (wrapInt (dashPos+1))
  (stoll (rangeValue.take (asSize dashPos))).bind fun startPos =>
    if next < rangeValue.length then
      (stoll (rangeValue.drop next)).map fun last => (startPos, min (wrap (last+1)) size)
    else some (startPos, size)

def etag (info : BackupInfoNode) : Bytes :=
  info.filename ++ bytes "-" ++ toDecimal info.time ++ bytes "-" ++ toDecimal info.size

def setHeader (name value : Bytes) (h : HeadInfo) : HeadInfo :=
  { h with responseHeaders := h.responseHeaders.insert name value }

def setStatus (status describe : Bytes) (h : HeadInfo) : HeadInfo :=
  { h with responseStatus := status, responseStatusDescribe := describe }

def wholeFile (info : BackupInfoNode) (h : HeadInfo) : HeadInfo :=
  let h := setStatus (bytes "200") (bytes "OK") h
  let h := setHeader (bytes "Content-Type") (bytes "application/octet-stream") h
  let h := setHeader (bytes "Accept-Ranges") (bytes "bytes") h
  let h := setHeader (bytes "ETag") (etag info) h
  let h := setHeader (bytes "Content-Length") (toDecimal info.size) h
  setHeader (bytes "Content-Disposition")
    (bytes "attachment; filename=\"" ++ info.filename ++ [quote]) h

/-- `end_pos - start_pos` as a `long long`; from 0 on nothing is subtracted. -/
def rangeLength (startPos endPos : ℤ) : ℤ :=
  if startPos = 0 then endPos else wrap (endPos-startPos)

def partOfFile (info : BackupInfoNode) (startPos endPos : ℤ) (h : HeadInfo) : HeadInfo :=
  let h := setStatus (bytes "206") (bytes "Partial Content") h
  let h := setHeader (bytes "Content-Length") (toDecimal (rangeLength startPos endPos)) h
  setHeader (bytes "Content-Range") (bytes "bytes " ++ toDecimal startPos ++ bytes "-" ++
    toDecimal (wrap (endPos-1)) ++ bytes "/" ++ toDecimal info.size) h

/-- What `_sub_task` is bound to. -/
structure SendTask where
  node : NodeId
  startPos : ℤ
  endPos : ℤ
  deriving DecidableEq

/-- `none` when `stoll` throws. -/
def processDownloadRequest (h : HeadInfo) (s : Store) : Option (HeadInfo × Option SendTask) :=
  match getFileInfoNode h.curDownloadFile s with
  | none => some (setStatus (bytes "404") (bytes "Not Found") h, none)
  | some id =>
    let info := (s.nodes id).info
    match h.requestHeaders.lookup (bytes "if-range"), h.requestHeaders.lookup (bytes "range") with
    | some ifRange, some range =>
      let r := if ifRange = etag info ∧ find (bytes "bytes=") range = some 0
        then parseRange (range.drop 6) info.size else some (0, info.size)
      r.map fun r => (partOfFile info r.1 r.2 (wholeFile info h), some ⟨id, r.1, r.2⟩)
    | _, _ => some (wholeFile info h, some ⟨id, 0, info.size⟩)

def lookupPrefix (startPos : ℤ) (filename : Bytes) (s : Store) : Bytes × Store :=
  if startPos = 0 then getFilePreContent filename s else ([], s)

def readSize (env : Env) (startPos endPos : ℤ) : ℤ := min env.maxFileReadSize (endPos-startPos)

def readSegment (env : Env) (filename : Bytes) (startPos endPos : ℤ) (s : Store) :
    Option Bytes × Store :=
  let r := getContent (targetFile env filename) (asSize startPos)
    (asSize (readSize env startPos endPos)) s.disk
  (r.1, { s with disk := r.2 })

def keepPrefix (env : Env) (startPos : ℤ) (filename content : Bytes) (s : Store) : Bool × Store :=
  if startPos = 0 then putFilePreContent env filename content s else (true, s)

/-- A task closes the connection, has nothing to send, or appends a segment and
goes on behind it. -/
inductive Sent where
  | closes (s : Store)
  | skips (s : Store)
  | sends (content : Bytes) (startPos : ℤ) (s : Store)

def sendFile (env : Env) (task : SendTask) (s : Store) : Sent :=
  if task.endPos ≤ task.startPos then .skips s
  else
    let filename := (s.nodes task.node).info.filename
    let l := lookupPrefix task.startPos filename s
    if l.1 ≠ [] then .sends l.1 (task.startPos+l.1.length) l.2
    else
      let r := readSegment env filename task.startPos task.endPos l.2
      match r.1 with
      | none => .closes r.2
      | some content =>
        let k := keepPrefix env task.startPos filename content r.2
        if k.1 then .sends content (task.startPos+content.length) k.2 else .closes k.2

/-- The segments of a chain; `none` when the connection is closed or more tasks
follow than the first argument allows for. -/
def sendChain (env : Env) : ℕ → SendTask → Store → Option (List Bytes × Store)
  | 0, _, _ => none
  | n+1, task, s =>
    match sendFile env task s with
    | .closes _ => none
    | .skips t => some ([], t)
    | .sends content startPos t =>
      if startPos < task.endPos then
        (sendChain env n { task with startPos := startPos } t).map fun r => (content :: r.1, r.2)
      else some ([content], t)

theorem processDownloadRequest_node (h h' : HeadInfo) (s : Store) (task : SendTask)
    (hreq : processDownloadRequest h s = some (h', some task)) :
    validNode h.curDownloadFile s = some task.node := by
  unfold processDownloadRequest getFileInfoNode at hreq
  cases hid : validNode h.curDownloadFile s with
  | none =>
    rw [hid] at hreq
    cases hreq
  | some id =>
    rw [hid] at hreq
    dsimp only at hreq
    split at hreq
    · obtain ⟨r, -, hr⟩ := Option.map_eq_some_iff.mp hreq
      cases hr
      rfl
    · cases hreq
      rfl

theorem lookupPrefix_same (startPos : ℤ) (filename : Bytes) (s : Store) :
    SameRecords s (lookupPrefix startPos filename s).2 := by
  unfold lookupPrefix
  split_ifs
  · exact getFilePreContent_same filename s
  · exact SameRecords.refl s

theorem linked_lookupPrefix {s : Store} (hs : Linked s) (startPos : ℤ) (filename : Bytes) :
    Linked (lookupPrefix startPos filename s).2 := by
  unfold lookupPrefix
  split_ifs
  · exact linked_getFilePreContent hs filename
  · exact hs

theorem cacheHolds_lookupPrefix {P : NodeId → Bytes → Prop} {s : Store} (hs : CacheHolds P s)
    (startPos : ℤ) (filename : Bytes) : CacheHolds P (lookupPrefix startPos filename s).2 := by
  unfold lookupPrefix
  split_ifs
  · exact cacheHolds_getFilePreContent hs filename
  · exact hs

theorem setHeader_lookup (name value : Bytes) (h : HeadInfo) :
    (setHeader name value h).responseHeaders.lookup name = some value := AList.lookup_insert _

theorem setHeader_other (name value other : Bytes) (h : HeadInfo) (hne : other ≠ name) :
    (setHeader name value h).responseHeaders.lookup other = h.responseHeaders.lookup other :=
  AList.lookup_insert_ne hne

theorem announced (h h' : HeadInfo) (s : Store) (task : SendTask)
    (hreq : processDownloadRequest h s = some (h', some task)) :
    h'.responseHeaders.lookup (bytes "Content-Length") =
      some (toDecimal (rangeLength task.startPos task.endPos)) := by
  have hpart : ∀ info a b g,
    (partOfFile info a b g).responseHeaders.lookup (bytes "Content-Length") =
      some (toDecimal (rangeLength a b)) := fun info a b g => by
    rw [partOfFile, setHeader_other _ _ _ _ (by decide), setHeader_lookup]
  have hwhole : ∀ info g, (wholeFile info g).responseHeaders.lookup (bytes "Content-Length") =
      some (toDecimal info.size) := fun info g => by
    rw [wholeFile, setHeader_other _ _ _ _ (by decide), setHeader_lookup]
  unfold processDownloadRequest at hreq
  cases hid : getFileInfoNode h.curDownloadFile s with
  | none =>
    rw [hid] at hreq
    cases hreq
  | some id =>
    rw [hid] at hreq
    dsimp only at hreq
    split at hreq
    · obtain ⟨r, -, hr⟩ := Option.map_eq_some_iff.mp hreq
      cases hr
      exact hpart _ _ _ _
    · cases hreq
      exact hwhole _ _

theorem wrap_fits (n : ℤ) (h : -2^63 ≤ n) (h' : n < 2^63) : wrap n = n := by
  have hcast : ((2^64 : ℕ) : ℤ) = 2^64 := by norm_num
  exact Int.bmod_eq_of_le (by omega) (by omega)

theorem rangeLength_fits {startPos endPos : ℤ} (h0 : 0 ≤ startPos) (hle : startPos ≤ endPos)
    (hend : endPos < 2^63) : rangeLength startPos endPos = endPos-startPos := by
  unfold rangeLength
  split_ifs with hzero
  · rw [hzero, sub_zero]
  · exact wrap_fits _ (by omega) (by omega)

structure Served (env : Env) (filename F : Bytes) (id : NodeId) (s : Store) : Prop where
  valid : validNode filename s = some id
  name : (s.nodes id).info.filename = filename
  size : (s.nodes id).info.size = F.length
  disk : s.disk.files.lookup (targetPath env filename) = some F
  clean : s.disk.faults = []
  cache : CacheHolds (fun i content => i = id → content <+: F) s

def cachedPrefix (id : NodeId) (s : Store) : Bytes :=
  if id ∈ s.list then (s.nodes id).filePreContent else []

def slice (F : Bytes) (startPos endPos : ℤ) : Bytes :=
  (F.drop startPos.toNat).take (endPos-startPos).toNat

section Served
variable {env : Env} {filename F : Bytes} {id : NodeId} {s : Store}
  (hs : Served env filename F id s)
include hs

theorem served_same {t : Store} (h : SameRecords s t)
    (hc : CacheHolds (fun i content => i = id → content <+: F) t) : Served env filename F id t where
  valid := by rw [validNode, h.hash]; exact hs.valid
  name := by rw [h.info]; exact hs.name
  size := by rw [h.info]; exact hs.size
  disk := by rw [h.disk]; exact hs.disk
  clean := by rw [h.disk]; exact hs.clean
  cache := hc

theorem cachedPrefix_front : cachedPrefix id s <+: F := by
  unfold cachedPrefix
  split_ifs with h
  · exact hs.cache id h rfl
  · exact List.nil_prefix

theorem getFilePreContent_served : (getFilePreContent filename s).1 = cachedPrefix id s := by
  rw [getFilePreContent, hs.valid]
  dsimp only
  unfold cachedPrefix
  split_ifs <;> rfl

theorem served_getFilePreContent : Served env filename F id (getFilePreContent filename s).2 :=
  served_same hs (getFilePreContent_same filename s)
    (cacheHolds_getFilePreContent hs.cache filename)

theorem lookupPrefix_served (startPos : ℤ) :
    (lookupPrefix startPos filename s).1 = (if startPos = 0 then cachedPrefix id s else []) ∧
      Served env filename F id (lookupPrefix startPos filename s).2 := by
  unfold lookupPrefix
  split_ifs
  · exact ⟨getFilePreContent_served hs, served_getFilePreContent hs⟩
  · exact ⟨rfl, hs⟩

theorem readSegment_served (startPos endPos : ℤ) (hF : F.length < 2^63) (h0 : 0 ≤ startPos)
    (hlt : startPos < endPos) (hle : endPos ≤ F.length) :
    readSegment env filename startPos endPos s =
      (some ((F.drop startPos.toNat).take (readSize env startPos endPos).toNat), s) := by
  have hsize : 0 ≤ readSize env startPos endPos ∧
    readSize env startPos endPos ≤ endPos-startPos := by
    unfold readSize
    omega
  have hpos : asSize startPos = startPos.toNat := by
    unfold asSize
    omega
  have hlen : asSize (readSize env startPos endPos) = (readSize env startPos endPos).toNat := by
    unfold asSize
    omega
  have hdisk := hs.disk
  rw [targetPath] at hdisk
  simp only [readSegment, getContent, next_of_clean s.disk hs.clean, hdisk, hpos, hlen]
  rw [if_neg (by omega)]

theorem keepPrefix_served (startPos : ℤ) (content : Bytes) (hc : startPos = 0 → content <+: F) :
    (keepPrefix env startPos filename content s).1 = true ∧
      Served env filename F id (keepPrefix env startPos filename content s).2 := by
  unfold keepPrefix
  split_ifs with h
  · have hkept := (keptPrefix_front env content).trans (hc h)
    refine ⟨?_, served_same hs (putFilePreContent_same env filename content s)
      (cacheHolds_putFilePreContent hs.cache (fun _ _ => List.nil_prefix) env filename content
        fun _ _ _ _ => hkept)⟩
    rw [putFilePreContent, hs.valid]
    dsimp only
    split_ifs <;> rfl
  · exact ⟨rfl, hs⟩

theorem sendFile_read (startPos endPos : ℤ) (hF : F.length < 2^63) (h0 : 0 ≤ startPos)
    (hlt : startPos < endPos) (hle : endPos ≤ F.length)
    (hmiss : startPos = 0 → cachedPrefix id s = []) :
    let content := (F.drop startPos.toNat).take (readSize env startPos endPos).toNat
    ∃ t, sendFile env ⟨id, startPos, endPos⟩ s = .sends content (startPos+content.length) t ∧
      Served env filename F id t := by
  obtain ⟨hfound, hserved⟩ := lookupPrefix_served hs startPos
  have hempty : (lookupPrefix startPos filename s).1 = [] := by
    rw [hfound]
    split_ifs with h
    · exact hmiss h
    · rfl
  have hfront : startPos = 0 →
      (F.drop startPos.toNat).take (readSize env startPos endPos).toNat <+: F := by
    rintro rfl
    exact List.take_prefix _ _
  obtain ⟨hkeep, hserved'⟩ := keepPrefix_served hserved startPos _ hfront
  refine ⟨_, ?_, hserved'⟩
  unfold sendFile
  simp only [hs.name, not_le.mpr hlt, if_false, hempty, ne_eq, not_true_eq_false,
    readSegment_served hserved startPos endPos hF h0 hlt hle, hkeep, if_true]

theorem sendFile_cached (endPos : ℤ) (hlt : 0 < endPos) (hhit : cachedPrefix id s ≠ []) :
    ∃ t, sendFile env ⟨id, 0, endPos⟩ s = .sends (cachedPrefix id s) (cachedPrefix id s).length t ∧
      Served env filename F id t := by
  obtain ⟨hfound, hserved⟩ := lookupPrefix_served hs 0
  rw [if_pos rfl] at hfound
  refine ⟨_, ?_, hserved⟩
  unfold sendFile
  simp only [hs.name, not_le.mpr hlt, if_false, hfound, ne_eq, hhit, not_false_eq_true,
    if_true, zero_add]

end Served

theorem slice_split (F : Bytes) (a m b : ℤ) (h0 : 0 ≤ a) (h1 : a ≤ m) (h2 : m ≤ b) :
    slice F a b = slice F a m ++ slice F m b := by
  have hlen : (b-a).toNat = (m-a).toNat+(b-m).toNat := by omega
  have hpos : m.toNat = a.toNat+(m-a).toNat := by omega
  rw [slice, slice, slice, hlen, hpos, ← List.drop_drop, List.take_add]

theorem slice_length (F : Bytes) (a b : ℤ) (h0 : 0 ≤ a) (h1 : a ≤ b) (h2 : b ≤ F.length) :
    ((slice F a b).length : ℤ) = b-a := by
  rw [slice, List.length_take, List.length_drop]
  omega

/-- Segment by segment, each as long as the configuration allows, the file is
read up to the end of the range. -/
theorem sendChain_read (env : Env) (filename F : Bytes) (id : NodeId) (hF : F.length < 2^63)
    (hread : 0 < env.maxFileReadSize) (n : ℕ) (startPos endPos : ℤ) (s : Store)
    (hs : Served env filename F id s) (h0 : 0 ≤ startPos) (hlt : startPos < endPos)
    (hle : endPos ≤ F.length) (hn : endPos-startPos ≤ n)
    (hmiss : startPos = 0 → cachedPrefix id s = []) :
    ∃ segs t, sendChain env n ⟨id, startPos, endPos⟩ s = some (segs, t) ∧
      segs.flatten = slice F startPos endPos := by
  induction n generalizing startPos s with
  | zero => omega
  | succ n ih =>
    obtain ⟨t, hsend, hserved⟩ := sendFile_read hs startPos endPos hF h0 hlt hle hmiss
    have hsize : 0 < readSize env startPos endPos ∧
      readSize env startPos endPos ≤ endPos-startPos := by
      unfold readSize
      omega
    have hsegment : (F.drop startPos.toNat).take (readSize env startPos endPos).toNat =
        slice F startPos (startPos+readSize env startPos endPos) := by
      rw [slice, add_sub_cancel_left]
    have hlen := slice_length F startPos (startPos+readSize env startPos endPos) h0
      (by omega) (by omega)
    rw [hsegment, hlen] at hsend
    rw [sendChain, hsend]
    dsimp only
    split_ifs with hmore
    · obtain ⟨segs, u, hchain, hflat⟩ :=
        ih (startPos+(startPos+readSize env startPos endPos-startPos)) t
        hserved (by omega) hmore (by omega) (by omega)
      rw [hchain]
      refine ⟨_, u, rfl, ?_⟩
      rw [List.flatten_cons, hflat, add_sub_cancel_left]
      exact (slice_split F _ _ _ h0 (by omega) (by omega)).symm
    · refine ⟨_, t, rfl, ?_⟩
      have hend : startPos+readSize env startPos endPos = endPos := by omega
      rw [hend, List.flatten_singleton]

theorem sendChain_exact (env : Env) (filename F : Bytes) (id : NodeId) (hF : F.length < 2^63)
    (hread : 0 < env.maxFileReadSize) (n : ℕ) (startPos endPos : ℤ) (s : Store)
    (hs : Served env filename F id s) (h0 : 0 ≤ startPos) (hlt : startPos < endPos)
    (hle : endPos ≤ F.length) (hn : endPos-startPos ≤ n) :
    (∃ segs t, sendChain env n ⟨id, startPos, endPos⟩ s = some (segs, t) ∧
      segs.flatten = slice F startPos endPos) ↔
      (startPos = 0 → ((cachedPrefix id s).length : ℤ) ≤ endPos) := by
  by_cases hmiss : startPos = 0 → cachedPrefix id s = []
  · refine ⟨fun _ h => ?_, fun _ => sendChain_read env filename F id hF hread n startPos endPos s hs
      h0 hlt hle hn hmiss⟩
    rw [hmiss h, List.length_nil]
    omega
  · obtain ⟨rfl, hhit⟩ := Classical.not_imp.mp hmiss
    have hpre := cachedPrefix_front hs
    have hcached : cachedPrefix id s = slice F 0 (cachedPrefix id s).length := by
      simpa [slice] using List.prefix_iff_eq_take.mp hpre
    have hwhole := slice_length F 0 endPos le_rfl hlt.le hle
    obtain ⟨m, rfl⟩ : ∃ m, n = m+1 := ⟨n-1, by omega⟩
    obtain ⟨t, hsend, hserved⟩ := sendFile_cached hs endPos hlt hhit
    rw [sendChain, hsend]
    dsimp only
    split_ifs with hmore
    · refine ⟨fun _ _ => hmore.le, fun _ => ?_⟩
      have hpos := List.length_pos_iff.mpr hhit
      obtain ⟨segs, u, hchain, hflat⟩ := sendChain_read env filename F id hF hread m
        (cachedPrefix id s).length endPos t hserved (by omega) hmore hle (by omega) (by omega)
      rw [hchain]
      refine ⟨_, u, rfl, ?_⟩
      rw [List.flatten_cons, hflat, slice_split F 0 _ endPos le_rfl (by omega) hmore.le, ← hcached]
    · constructor
      · rintro ⟨segs, u, hchain, hflat⟩ -
        cases hchain
        rw [List.flatten_singleton] at hflat
        rw [hflat, hwhole]
        omega
      · intro hfit
        have hend : ((cachedPrefix id s).length : ℤ) = endPos :=
          le_antisymm (hfit rfl) (not_lt.mp hmore)
        refine ⟨_, t, rfl, ?_⟩
        rw [List.flatten_singleton, ← hend, ← hcached]

/-- One task of an earlier download of the file, for any part of it. -/
def downloadStep (env : Env) (id : NodeId) (size : ℕ) (s : Store) (r : ℤ × ℤ) : Option Store :=
  if 0 ≤ r.1 ∧ r.1 < r.2 ∧ r.2 ≤ size then
    match sendFile env ⟨id, r.1, r.2⟩ s with
    | .closes t => some t
    | .skips t => some t
    | .sends _ _ t => some t
  else none

theorem downloadStep_served (env : Env) (filename F : Bytes) (id : NodeId) (hF : F.length < 2^63)
    (s t : Store) (r : ℤ × ℤ) (hs : Served env filename F id s)
    (hstep : downloadStep env id F.length s r = some t) : Served env filename F id t := by
  unfold downloadStep at hstep
  split_ifs at hstep with hr
  obtain ⟨h0, hlt, hle⟩ := hr
  by_cases hmiss : r.1 = 0 → cachedPrefix id s = []
  · obtain ⟨u, hsend, hserved⟩ := sendFile_read hs r.1 r.2 hF h0 hlt hle hmiss
    rw [hsend] at hstep
    cases hstep
    exact hserved
  · obtain ⟨hzero, hhit⟩ := Classical.not_imp.mp hmiss
    obtain ⟨u, hsend, hserved⟩ := sendFile_cached hs r.2 (hzero ▸ hlt) hhit
    rw [hzero, hsend] at hstep
    cases hstep
    exact hserved

theorem downloads_served (env : Env) (filename F : Bytes) (id : NodeId) (hF : F.length < 2^63)
    (s t : Store) (rs : List (ℤ × ℤ)) (hs : Served env filename F id s)
    (hrun : run (downloadStep env id F.length) s rs = some t) : Served env filename F id t := by
  have hkeep : ∀ s r t, Served env filename F id s → True →
      downloadStep env id F.length s r = some t → Served env filename F id t :=
    fun s r t hs _ hstep => downloadStep_served env filename F id hF s t r hs hstep
  exact throughout_run (invariant_throughout hkeep hs (meets_trivial s rs)) hrun

structure Uploaded (env : Env) (filename F : Bytes) (id : NodeId) (s : Store) : Prop where
  valid : validNode filename s = some id
  name : (s.nodes id).info.filename = filename
  size : (s.nodes id).info.size = F.length
  disk : s.disk.files.lookup (targetPath env filename) = some F
  clean : s.disk.faults = []
  uncached : id ∉ s.list

theorem served_of_uploaded {env : Env} {filename F : Bytes} {id : NodeId} {s : Store}
    (h : Uploaded env filename F id s) : Served env filename F id s :=
  { h with cache := fun _ hi e => absurd (e ▸ hi) h.uncached }

/-- After any earlier downloads, a chain sends exactly what was announced if and
only if it does not start with a cached prefix longer than its range. -/
theorem download_exact (env : Env) (filename F : Bytes) (id : NodeId) (s₀ s : Store)
    (rs : List (ℤ × ℤ)) (n : ℕ) (startPos endPos : ℤ) (hup : Uploaded env filename F id s₀)
    (hrun : run (downloadStep env id F.length) s₀ rs = some s) (hF : F.length < 2^63)
    (hread : 0 < env.maxFileReadSize) (h0 : 0 ≤ startPos) (hlt : startPos < endPos)
    (hle : endPos ≤ F.length) (hn : endPos-startPos ≤ n) :
    (∃ segs t, sendChain env n ⟨id, startPos, endPos⟩ s = some (segs, t) ∧
      segs.flatten = slice F startPos endPos ∧ ∀ h h' u,
        processDownloadRequest h u = some (h', some ⟨id, startPos, endPos⟩) →
        h'.responseHeaders.lookup (bytes "Content-Length") = some (toDecimal segs.flatten.length)) ↔
      (startPos = 0 → ((cachedPrefix id s).length : ℤ) ≤ endPos) := by
  have hserved := downloads_served env filename F id hF s₀ s rs (served_of_uploaded hup) hrun
  have hexact := sendChain_exact env filename F id hF hread n startPos endPos s hserved
    h0 hlt hle hn
  constructor
  · rintro ⟨segs, t, hchain, hflat, -⟩
    exact hexact.mp ⟨segs, t, hchain, hflat⟩
  · intro hfit
    obtain ⟨segs, t, hchain, hflat⟩ := hexact.mpr hfit
    refine ⟨segs, t, hchain, hflat, fun h h' u hreq => ?_⟩
    rw [hflat, slice_length F startPos endPos h0 hlt.le hle, announced h h' u _ hreq,
      rangeLength_fits h0 hlt.le (by omega)]

def helloStore : Store :=
  let s := (register plainEnv (bytes "f") freshStore).2
  let a := appendContent plainEnv (targetFile plainEnv (bytes "f")) (bytes "hello") s.disk
  (DataManager.insert (bytes "f") 5 { s with disk := a.2 }).2

theorem helloStore_uploaded : Uploaded plainEnv (bytes "f") (bytes "hello") 0 helloStore :=
  ⟨by decide, by decide, by decide, by decide, by decide, by decide⟩

theorem download_exact_hello :
    (∃ segs t, sendChain plainEnv 5 ⟨0, 1, 5⟩ helloStore = some (segs, t) ∧
      segs.flatten = slice (bytes "hello") 1 5 ∧ ∀ h h' u,
        processDownloadRequest h u = some (h', some ⟨0, 1, 5⟩) →
        h'.responseHeaders.lookup (bytes "Content-Length") = some (toDecimal segs.flatten.length)) ↔
      ((1 : ℤ) = 0 → ((cachedPrefix 0 helloStore).length : ℤ) ≤ 5) :=
  download_exact plainEnv (bytes "f") (bytes "hello") 0 helloStore helloStore [] 5 1 5
    helloStore_uploaded rfl (by decide) (by decide) (by decide) (by decide) (by decide) (by decide)

/-- The whole file has been downloaded once; the range asked for is its first two bytes. -/
theorem cached_prefix_overruns :
    Uploaded plainEnv (bytes "f") (bytes "hello") 0 helloStore ∧
    ∃ s, run (downloadStep plainEnv 0 5) helloStore [(0, 5)] = some s ∧
      ∃ t, sendChain plainEnv 2 ⟨0, 0, 2⟩ s = some ([bytes "hello"], t) ∧
        [bytes "hello"].flatten ≠ slice (bytes "hello") 0 2 :=
  ⟨helloStore_uploaded, _, rfl, _, rfl, by decide⟩

end CloudBackup.Download
