import CloudBackup.PercentEncoding
import CloudBackup.MediaTypes
import CloudBackup.Routing

/-!
# The links of the page

The page links every listed file by its name as `encodeURIComponent` writes
it. `URLDecode` walks over positions and computes with the `int` values of its
characters; it agrees with the decoder of the callbacks and with the meaning
of percent-encoded text, so a link leads back to the name it was made of.
-/

set_option autoImplicit false

namespace CloudBackup.LinkNames
open CloudBackup.PatternSearch CloudBackup.ByteStrings CloudBackup.JsonCodec CloudBackup.FilePath
open CloudBackup.DataManager CloudBackup.UploadScanner CloudBackup.HttpCallbacks CloudBackup.Routing
open CloudBackup.RunInvariants CloudBackup.PercentEncoding CloudBackup.MediaTypes

/-- What `encodeURIComponent` keeps. -/
def isUnreserved (c : UInt8) : Bool := isAlnum c || (bytes "-_.!~*'()").contains c

def encodeURIComponent (name : Bytes) : Bytes := encode isUnreserved name

def charInt (c : UInt8) : ℤ := if c < 128 then c.toNat else c.toNat-256

def intChar (value : ℤ) : UInt8 := UInt8.ofNat (value % 256).toNat

def tolower (c : ℤ) : ℤ := if 65 ≤ c ∧ c ≤ 90 then c+32 else c

def isdigit (c : ℤ) : Bool := 48 ≤ c ∧ c ≤ 57

def isxdigit (c : ℤ) : Bool := isdigit c || (65 ≤ c ∧ c ≤ 70) || (97 ≤ c ∧ c ≤ 102)

/-- `hex - (isdigit(hex) ? '0' : 'a' - 10)`. -/
def hexInt (hex : ℤ) : ℤ := hex-(if isdigit hex then 48 else 97-10)

def urlDecodeFrom (str : Bytes) (i : ℕ) (decoded : Bytes) : Bytes :=
  if i < str.length then
    if str.getD i 0 = 37 then
      if str.length ≤ i+2 then []
      else
        let hex1 := tolower (charInt (str.getD (i+1) 0))
        let hex2 := tolower (charInt (str.getD (i+2) 0))
        if isxdigit hex1 && isxdigit hex2 then
          urlDecodeFrom str (i+2+1) (decoded ++ [intChar (hexInt hex1*16+hexInt hex2)])
        else []
    else if str.getD i 0 = 43 then urlDecodeFrom str (i+1) (decoded ++ [32])
    else urlDecodeFrom str (i+1) (decoded ++ [str.getD i 0])
  else decoded
termination_by str.length-i

def urlDecodeString (str : Bytes) : Bytes := urlDecodeFrom str 0 []

theorem byte_cases {P : UInt8 → Prop} (h : ∀ n : Fin 256, P (UInt8.ofNat n)) (c : UInt8) : P c := by
  have hc := h ⟨c.toNat, c.toNat_lt⟩
  rwa [UInt8.ofNat_toNat] at hc

theorem hexValue_digitValue (c : UInt8) : hexValue (toLower c) = digitValue c := by
  induction c using byte_cases with
  | h n =>
    revert n
    decide +kernel

theorem hexValue_int (c : UInt8) :
    hexValue (toLower c) = if isxdigit (tolower (charInt c)) then
      some (hexInt (tolower (charInt c))).toNat else none := by
  induction c using byte_cases with
  | h n =>
    revert n
    decide +kernel

theorem hexInt_nonneg (c : UInt8) (h : isxdigit (tolower (charInt c)) = true) :
    0 ≤ hexInt (tolower (charInt c)) := by
  induction c using byte_cases with
  | h n =>
    revert n
    decide +kernel

theorem hexDigit_value (d : HexDigit) : hexValue (toLower d.char) = some d.value :=
  (hexValue_digitValue d.char).trans d.valid

theorem intChar_hex (a b : UInt8) (x y : ℕ) (hx : hexValue (toLower a) = some x)
    (hy : hexValue (toLower b) = some y) :
    isxdigit (tolower (charInt a)) = true ∧ isxdigit (tolower (charInt b)) = true ∧
    intChar (hexInt (tolower (charInt a))*16+hexInt (tolower (charInt b))) = UInt8.ofNat
      (16*x+y) := by
  rw [hexValue_int] at hx hy
  split_ifs at hx hy with ha hb
  have h1 := hexInt_nonneg a ha
  have h2 := hexInt_nonneg b hb
  have hx' := Option.some.inj hx
  have hy' := Option.some.inj hy
  refine ⟨ha, hb, ?_⟩
  have hsum : hexInt (tolower (charInt a))*16+hexInt (tolower (charInt b)) =
    ((16*x+y : ℕ) : ℤ) := by omega
  rw [intChar, hsum]
  apply UInt8.toNat_inj.mp
  simp only [UInt8.toNat_ofNat']
  omega

theorem decodeFrom_plain (c : UInt8) (cs : Bytes) (hc : c ≠ 37) :
    decodeFrom (c::cs) = (decodeFrom cs).map fun r => (if c = 43 then 32 else c)::r := by
  rw [decodeFrom]
  · exact fun _ _ _ h => absurd h hc
  · exact hc

theorem map_append_getD (o : Option Bytes) (decoded : Bytes) (c : UInt8) :
    ((o.map fun r => c::r).map (decoded ++ ·)).getD [] = (o.map (decoded ++ [c] ++ ·)).getD [] := by
  cases o with
  | none => rfl
  | some r => simp

theorem decodeFrom_escape (high low : HexDigit) (rest : Bytes) :
    decodeFrom (percent::high.char::low.char::rest) =
      (decodeFrom rest).map fun r => UInt8.ofNat (16*high.value+low.value)::r := by
  rw [percent, decodeFrom, hexDigit_value, hexDigit_value]

theorem decodeFrom_textOf (ps : List Piece) : decodeFrom (textOf ps) = some (meaningOf ps) := by
  induction ps with
  | nil => rfl
  | cons p ps ih =>
    rw [textOf_cons, meaningOf_cons]
    cases p with
    | plain c hpercent hplus =>
      have hplus' : c ≠ 43 := hplus
      rw [Piece.text, List.singleton_append, decodeFrom_plain c _ hpercent, ih, if_neg hplus']
      rfl
    | plus =>
      rw [Piece.text, List.singleton_append, decodeFrom_plain plusSign _ (by decide), ih]
      rfl
    | escape high low =>
      show decodeFrom (percent::high.char::low.char::textOf ps) = _
      rw [decodeFrom_escape, ih]
      rfl

theorem hexValue_digit {c : UInt8} {x : ℕ} (h : hexValue (toLower c) = some x) : ∃ d :
    HexDigit, d.char = c :=
  ⟨⟨c, x, (hexValue_digitValue c).symm.trans h⟩, rfl⟩

theorem decodeFrom_percent (s : Bytes) (h : (decodeFrom (percent::s)).isSome) :
    ∃ high low : HexDigit, ∃ rest, s = high.char::low.char::rest := by
  match s with
  | [] => cases h
  | [_] => cases h
  | a::b::rest =>
    rw [percent, decodeFrom] at h
    cases ha : hexValue (toLower a) with
    | none => simp [ha] at h
    | some x =>
      cases hb : hexValue (toLower b) with
      | none => simp [ha, hb] at h
      | some y =>
        obtain ⟨high, rfl⟩ := hexValue_digit ha
        obtain ⟨low, rfl⟩ := hexValue_digit hb
        exact ⟨high, low, rest, rfl⟩

theorem decodeFrom_wellEscaped (s : Bytes) (h : (decodeFrom s).isSome) : WellEscaped s := by
  match s with
  | [] => exact wellEscaped_nil
  | c::cs =>
    by_cases hc : c = percent
    · subst hc
      obtain ⟨high, low, rest, rfl⟩ := decodeFrom_percent cs h
      rw [decodeFrom_escape, Option.isSome_map] at h
      exact (wellEscaped_escape high low rest).mpr (decodeFrom_wellEscaped rest h)
    · rw [decodeFrom_plain c cs hc, Option.isSome_map] at h
      exact (wellEscaped_cons hc cs).mpr (decodeFrom_wellEscaped cs h)
termination_by s.length

theorem decodeFrom_none (s : Bytes) (h : ¬ WellEscaped s) : decodeFrom s = none := by
  cases hs : decodeFrom s with
  | none => rfl
  | some r => exact absurd (decodeFrom_wellEscaped s (by rw [hs]; rfl)) h

section Walk
variable {str : Bytes} {i : ℕ} {c : UInt8} {cs : Bytes} (h : str.drop i = c::cs)
include h

theorem at_lt : i < str.length := by
  by_contra hle
  rw [List.drop_of_length_le (by omega)] at h
  cases h

theorem at_length : str.length = i+1+cs.length := by
  have hlen := congrArg List.length h
  rw [List.length_drop, List.length_cons] at hlen
  have hlt := at_lt h
  omega

theorem at_getD (k : ℕ) : str.getD (i+k) 0 = (c::cs).getD k 0 := by
  simp [← h, List.getD]

theorem at_drop (k : ℕ) : str.drop (i+(k+1)) = cs.drop k := by
  rw [← List.drop_drop, h, List.drop_succ_cons]

omit h in
theorem walk_end (decoded : Bytes) (hend : str.drop i = []) :
    urlDecodeFrom str i decoded = decoded := by
  rw [urlDecodeFrom, if_neg (not_lt.mpr (List.drop_eq_nil_iff.mp hend))]

theorem walk_plain (decoded : Bytes) (hc : c ≠ 37) :
    urlDecodeFrom str i decoded = urlDecodeFrom str (i+1)
      (decoded ++ [if c = 43 then 32 else c]) := by
  have hat : str.getD i 0 = c := at_getD h 0
  rw [urlDecodeFrom, if_pos (at_lt h), hat, if_neg hc]
  split_ifs <;> rfl

end Walk

section Escape
variable {str : Bytes} {i : ℕ}

theorem walk_short {cs : Bytes} (h : str.drop i = 37::cs) (decoded : Bytes) (hcs : cs.length < 2) :
    urlDecodeFrom str i decoded = [] := by
  have hat : str.getD i 0 = 37 := at_getD h 0
  have hlen := at_length h
  rw [urlDecodeFrom, if_pos (at_lt h), hat, if_pos rfl, if_pos (by omega)]

variable {a b : UInt8} {rest : Bytes} (h : str.drop i = 37::a::b::rest)
include h

theorem walk_digits (decoded : Bytes) : urlDecodeFrom str i decoded =
    if isxdigit (tolower (charInt a)) && isxdigit (tolower (charInt b)) then
      urlDecodeFrom str (i+2+1)
        (decoded ++ [intChar (hexInt (tolower (charInt a))*16+hexInt (tolower (charInt b)))])
    else [] := by
  have hat : str.getD i 0 = 37 := at_getD h 0
  have ha : str.getD (i+1) 0 = a := at_getD h 1
  have hb : str.getD (i+2) 0 = b := at_getD h 2
  have hlen := at_length h
  rw [List.length_cons, List.length_cons] at hlen
  rw [urlDecodeFrom, if_pos (at_lt h), hat, if_pos rfl, if_neg (by omega), ha, hb]

theorem walk_escape (decoded : Bytes) {x y : ℕ} (hx : hexValue (toLower a) = some x)
    (hy : hexValue (toLower b) = some y) :
    urlDecodeFrom str i decoded = urlDecodeFrom str (i+2+1)
      (decoded ++ [UInt8.ofNat (16*x+y)]) := by
  obtain ⟨ha, hb, hchar⟩ := intChar_hex a b x y hx hy
  rw [walk_digits h, ha, hb, hchar, Bool.and_self, if_pos rfl]

theorem walk_refused (decoded : Bytes)
    (hno : hexValue (toLower a) = none ∨ hexValue (toLower b) = none) :
    urlDecodeFrom str i decoded = [] := by
  have hdigits : ¬ (isxdigit (tolower (charInt a)) && isxdigit (tolower (charInt b))) = true := by
    rw [hexValue_int, hexValue_int] at hno
    simpa [Decidable.imp_iff_not_or] using hno
  rw [walk_digits h, if_neg hdigits]

end Escape

theorem urlDecodeFrom_drop (str : Bytes) (i : ℕ) (decoded : Bytes) :
    urlDecodeFrom str i decoded = ((decodeFrom (str.drop i)).map (decoded ++ ·)).getD [] := by
  cases h : str.drop i with
  | nil =>
    rw [walk_end decoded h]
    simp [decodeFrom]
  | cons c cs =>
    have hlt := at_lt h
    by_cases hpercent : c = 37
    · subst hpercent
      rcases cs with _ | ⟨a, _ | ⟨b, rest⟩⟩
      · rw [walk_short h decoded (by simp)]
        rfl
      · rw [walk_short h decoded (by simp)]
        rfl
      · have hdrop : str.drop (i+2+1) = rest := at_drop h 2
        cases hx : hexValue (toLower a) with
        | none =>
          rw [walk_refused h decoded (Or.inl hx)]
          simp [decodeFrom, hx]
        | some x =>
          cases hy : hexValue (toLower b) with
          | none =>
            rw [walk_refused h decoded (Or.inr hy)]
            simp [decodeFrom, hx, hy]
          | some y =>
            rw [walk_escape h decoded hx hy, urlDecodeFrom_drop str (i+2+1), hdrop, decodeFrom, hx,
              hy, map_append_getD]
    · have hdrop : str.drop (i+1) = cs := at_drop h 0
      rw [walk_plain h decoded hpercent, urlDecodeFrom_drop str (i+1), hdrop,
        decodeFrom_plain c cs hpercent, map_append_getD]
termination_by str.length-i

theorem urlDecodeString_eq (str : Bytes) : urlDecodeString str = urlDecode str := by
  rw [urlDecodeString, urlDecodeFrom_drop, List.drop_zero, urlDecode]
  cases decodeFrom str with
  | none => rfl
  | some r => rfl

theorem urlDecodeString_textOf (ps : List Piece) : urlDecodeString (textOf ps) = meaningOf ps := by
  rw [urlDecodeString_eq, urlDecode, decodeFrom_textOf]
  rfl

theorem urlDecodeString_meaning (s : Bytes) :
    (WellEscaped s → ∃ ps, textOf ps = s ∧ urlDecodeString s = meaningOf ps) ∧
    (¬ WellEscaped s → urlDecodeString s = []) := by
  constructor
  · intro h
    obtain ⟨ps, rfl⟩ := (wellEscaped_iff s).mp h
    exact ⟨ps, rfl, urlDecodeString_textOf ps⟩
  · intro h
    rw [urlDecodeString_eq, urlDecode, decodeFrom_none s h]
    rfl

theorem encoded_decodeFrom {name text : Bytes} (h : Encodes isUnreserved name text) :
    decodeFrom text = some name := by
  obtain ⟨ps, rfl, rfl⟩ := encodes_pieces (by decide) (by decide) h
  exact decodeFrom_textOf ps

/-- `on_url` for every piece, then `on_url_complete`. -/
def readUrl (h : HeadInfo) (pieces : List Bytes) : HeadInfo :=
  onUrlComplete (pieces.foldl (fun h data => onUrl data h) h)

theorem onUrl_pieces (h : HeadInfo) (pieces : List Bytes) :
    pieces.foldl (fun h data => onUrl data h) h = onUrl pieces.flatten h := by
  induction pieces generalizing h with
  | nil => simp [onUrl]
  | cons p ps ih =>
    rw [List.foldl_cons, ih, List.flatten_cons]
    simp [onUrl]

theorem onUrlComplete_split (h : HeadInfo) (hpath : (splitUrl h.requestUrl).2 ≠ []) :
    (onUrlComplete h).requestUrlPrefix = (splitUrl h.requestUrl).1 ∧
    (onUrlComplete h).requestUrlPath = (splitUrl h.requestUrl).2 := by
  rw [splitUrl_eq] at hpath ⊢
  unfold onUrlComplete
  dsimp only
  cases hpos : (if 1 < h.requestUrl.length then findFrom [slash] 1 h.requestUrl else none) with
  | none =>
    rw [hpos] at hpath
    exact absurd rfl hpath
  | some n => exact ⟨rfl, rfl⟩

theorem readUrl_link (h : HeadInfo) (hurl : h.requestUrl = []) (method route text : Bytes)
    (hroute : (method, route) ∈ fileRoutes) (pieces : List Bytes)
    (hpieces : pieces.flatten = route ++ slash::text) :
    (readUrl h pieces).requestUrlPrefix = route ∧
      (readUrl h pieces).requestUrlPath = slash::text := by
  have hread : (onUrl pieces.flatten h).requestUrl = route ++ slash::text := by
    rw [onUrl, hurl, List.nil_append, hpieces]
  have hsplit := (splitUrl_route method route text hroute).2
  rw [← hread] at hsplit
  have hmain := onUrlComplete_split (onUrl pieces.flatten h)
    (by rw [hsplit]; exact List.cons_ne_nil _ _)
  rw [hsplit] at hmain
  rw [readUrl, onUrl_pieces]
  exact hmain

theorem routes_method (route : Bytes)
    (hroute : route = bytes "/download" ∨ route = bytes "/delete") :
    ∃ method, (method, route) ∈ fileRoutes := by
  cases hroute with
  | inl h => exact ⟨bytes "GET", (mem_fileRoutes _ _).mpr (Or.inl ⟨rfl, h⟩)⟩
  | inr h => exact ⟨bytes "DELETE", (mem_fileRoutes _ _).mpr (Or.inr ⟨rfl, h⟩)⟩

/-- A link in any pieces leads to the name that it was written from, and `URLDecode` is the
reference decoding on every string. -/
theorem link_decoded (h : HeadInfo) (hurl : h.requestUrl = []) (route name text : Bytes)
    (hroute : route = bytes "/download" ∨ route = bytes "/delete")
    (hname : checkFilename name = true)
    (henc : Encodes isUnreserved name text) (pieces : List Bytes)
    (hpieces : pieces.flatten = route ++ slash::text)
    (s : Bytes) :
    ((readUrl h pieces).requestUrlPrefix = route ∧
      ∃ str, substr (readUrl h pieces).requestUrlPath 1 = some str ∧
        urlDecodeString str = name ∧ checkFilename (urlDecodeString str) = true) ∧
    (WellEscaped s → ∃ ps, textOf ps = s ∧ urlDecodeString s = meaningOf ps) ∧
    (¬ WellEscaped s → urlDecodeString s = []) := by
  obtain ⟨method, hmem⟩ := routes_method route hroute
  obtain ⟨hpre, hpath⟩ := readUrl_link h hurl method route text hmem pieces hpieces
  have hdecode : urlDecodeString text = name := by
    rw [urlDecodeString_eq, urlDecode, encoded_decodeFrom henc]
    rfl
  constructor
  · refine ⟨hpre, text, ?_, hdecode, by rw [hdecode, hname]⟩
    rw [hpath]
    rfl
  · exact urlDecodeString_meaning s

/-- A percent sign, a plus, a question mark, a blank and a byte beyond ASCII, in four pieces. -/
theorem link_decoded_signs :
    ((readUrl {} [bytes "/down", bytes "load/%2", bytes "5%2b%3F", bytes "%20%ff"]).requestUrlPrefix
      = bytes "/download" ∧
      ∃ str, substr (readUrl {} [bytes "/down", bytes "load/%2", bytes "5%2b%3F",
        bytes "%20%ff"]).requestUrlPath 1 = some str ∧
        urlDecodeString str = [37, 43, 63, 32, 255] ∧ checkFilename (urlDecodeString str) = true) ∧
    (WellEscaped (bytes "%4") → ∃ ps, textOf ps = bytes "%4" ∧
      urlDecodeString (bytes "%4") = meaningOf ps) ∧
    (¬ WellEscaped (bytes "%4") → urlDecodeString (bytes "%4") = []) := by
  apply link_decoded {} rfl (bytes "/download") [37, 43, 63, 32, 255] (bytes "%25%2b%3F%20%ff")
  · exact Or.inl rfl
  · decide
  · apply Encodes.escaped ⟨50, 2, rfl⟩ ⟨53, 5, rfl⟩ _ _ (by decide)
    apply Encodes.escaped ⟨50, 2, rfl⟩ ⟨98, 11, rfl⟩ _ _ (by decide)
    apply Encodes.escaped ⟨51, 3, rfl⟩ ⟨70, 15, rfl⟩ _ _ (by decide)
    apply Encodes.escaped ⟨50, 2, rfl⟩ ⟨48, 0, rfl⟩ _ _ (by decide)
    apply Encodes.escaped ⟨102, 15, rfl⟩ ⟨102, 15, rfl⟩ _ _ (by decide)
    exact Encodes.nil
  · decide

theorem onHeader_status (h : HeadInfo) (headers : List (List Bytes × List Bytes)) :
    (headers.foldl onHeader h).responseStatus = h.responseStatus := by
  induction headers generalizing h with
  | nil => rfl
  | cons header headers ih => exact ih (onHeader h header)

theorem onUrlComplete_status (h : HeadInfo) :
    (onUrlComplete h).responseStatus = h.responseStatus := by
  unfold onUrlComplete
  dsimp only
  split <;> rfl

theorem headBefore_status (r : RequestHead) : (headBefore r).responseStatus = [] := by
  rw [headBefore, onHeader_status]
  exact onUrlComplete_status _

theorem onHeadersComplete_named (h : HeadInfo) (hstatus : h.responseStatus = []) (name : Bytes)
    (hroute : (h.requestMethod, h.requestUrlPrefix) ∈ fileRoutes) (hfile : urlFile h = some name)
    (hname : checkFilename name = true) :
    ∃ h', onHeadersComplete h = some h' ∧ h'.responseStatus = [] ∧
      (h.requestMethod = bytes "GET" → h'.curDownloadFile = name) ∧
      (h.requestMethod = bytes "DELETE" → h'.curDeleteFile = name) := by
  have hfile' : urlFile { h with responseVersion := bytes "HTTP/" ++ h.requestVersion } =
    some name := hfile
  unfold onHeadersComplete
  dsimp only
  rw [hfile', Option.map_some, Option.map_some, if_pos hname, if_pos hname]
  cases (mem_fileRoutes _ _).mp hroute with
  | inl hget =>
    rw [if_pos (by simp [isGet, hget]), hget.1]
    exact ⟨_, rfl, hstatus, fun _ => rfl, fun h => absurd h (by decide)⟩
  | inr hdelete =>
    rw [if_neg (by simp [isGet, hdelete]; decide), if_pos (by simp [isDelete, hdelete]), hdelete.1]
    exact ⟨_, rfl, hstatus, fun h => absurd h (by decide), fun _ => rfl⟩

theorem link_named (env : Env) (codec : Codec) (s : Store) (h : HeadInfo) (r : RequestHead)
    (route name text : Bytes) (hroute : (r.methodName, route) ∈ fileRoutes)
    (hname : checkFilename name = true)
    (henc : Encodes isUnreserved name text) (hurl : r.url.flatten = route ++ slash::text) :
    ∃ h', run (collect env codec s) h r.calls = some h' ∧ h'.responseStatus = [] ∧
      (r.methodName = bytes "GET" → h'.curDownloadFile = name) ∧
      (r.methodName = bytes "DELETE" → h'.curDeleteFile = name) := by
  obtain ⟨hmethod, hpre, hpath⟩ := headBefore_routing r
  rw [hurl, (splitUrl_route _ _ text hroute).2] at hpre hpath
  have hfile : urlFile (headBefore r) = some name := by
    rw [urlFile, hpath, if_neg (List.cons_ne_nil _ _), List.drop_one, List.tail_cons, urlDecode,
      encoded_decodeFrom henc]
    rfl
  rw [run_calls, ← hmethod]
  exact onHeadersComplete_named _ (headBefore_status r) name
    (by rw [hmethod, hpre]; exact hroute) hfile hname

theorem pageLink_named (env : Env) (codec : Codec) (s : Store) (h : HeadInfo) (name : Bytes)
    (version : List Bytes)
    (headers : List (List Bytes × List Bytes)) (hname : checkFilename name = true) :
    ∃ h', run (collect env codec s) h
        (RequestHead.mk [bytes "GET"] [bytes "/download/" ++ encodeURIComponent name] version
          headers).calls = some h' ∧
      h'.responseStatus = [] ∧ h'.curDownloadFile = name := by
  obtain ⟨h', hrun, hstatus, hfile, -⟩ := link_named env codec s h
    (RequestHead.mk [bytes "GET"] [bytes "/download/" ++ encodeURIComponent name] version headers)
    (bytes "/download") name (encodeURIComponent name)
      ((mem_fileRoutes _ _).mpr (Or.inl ⟨rfl, rfl⟩)) hname
    (encode_encodes isUnreserved name)
    (by rw [List.flatten_singleton]; rfl)
  exact ⟨h', hrun, hstatus, hfile rfl⟩

end CloudBackup.LinkNames
