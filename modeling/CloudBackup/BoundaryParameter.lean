import CloudBackup.MediaTypes
import CloudBackup.UploadAnswer

/-!
# The boundary that a content type names

Everything behind the first `boundary=` of the header is taken as the boundary,
quotes and later parameters included. A body is then searched for a delimiter
that it does not have, and nobody is told.
-/

set_option autoImplicit false

namespace CloudBackup.BoundaryParameter
open CloudBackup.PatternSearch CloudBackup.ByteStrings CloudBackup.FilePath CloudBackup.FileStore
  CloudBackup.MediaTypes
open CloudBackup.DataManager CloudBackup.UploadScanner CloudBackup.UploadDecoder
  CloudBackup.UploadChunking
open CloudBackup.UploadRoundTrip CloudBackup.JsonCodec CloudBackup.HttpCallbacks
  CloudBackup.RejectedParts
open CloudBackup.UploadAnswer

/-- One to seventy boundary characters, of which the last is not a space. -/
structure Legal (v : Bytes) : Prop where
  chars : v.all bchar = true
  nonempty : v ≠ []
  short : v.length ≤ 70
  noSpaceEnd : v.getLast? ≠ some 32

def word : Bytes := bytes "boundary"

/-- Names are compared without regard to their case. -/
def isFormData (m : MediaType) : Bool := m.essence.map toLower = bytes "multipart/form-data"

structure HasBoundary (m : MediaType) (v : Bytes) : Prop where
  legal : Legal v
  parameter : ∃ p ∈ m.parameters, p.name.text.map toLower = word ∧ p.value.meaning = v

def FindsParts (v : Bytes) (h : HeadInfo) : Prop :=
  ∀ (env : Env) (ps : List Part) (chunks : List Bytes) (s : Store), (∀ p ∈ ps, Written v p) →
    chunks.flatten = encode v ps → BodiesMet env chunks h s →
    ∃ h' s', onBodies env chunks h s = some (h', s') ∧ Complete env ps s h' s'

structure BoundaryRight (value : Bytes) (h : HeadInfo) : Prop where
  named : ∀ m v, m.text = value → isFormData m = true → HasBoundary m v →
    h.bodyBoundary = delimiter v ∧ h.responseStatus = [] ∧ FindsParts v h
  unnamed : (∀ m v, m.text = value → ¬ HasBoundary m v) → h.responseStatus = bytes "400" ∧
    ∀ env codec chunks s,
    ((onBodies env chunks h s).bind fun r => onMessageComplete env codec r.1 r.2) = some (h, s,
      answer h none false)

/-- The last parameter is the boundary as a token, and nothing before its name reads `boundary=`. -/
def LastToken (m : MediaType) (v : Bytes) : Prop :=
  ∃ ps q t, m.parameters = ps ++ [q] ∧ q.value = .token t ∧ t.text = v ∧ word <:+ q.name.text ∧
    ¬ boundaryKey <:+: m.front ps q

structure WellWritten (value : Bytes) : Prop where
  named : ∀ m v, m.text = value → isFormData m = true → HasBoundary m v → LastToken m v
  unnamed : (∀ m v, m.text = value → ¬ HasBoundary m v) → ¬ boundaryKey <:+: value

theorem boundaryKey_word : boundaryKey = word ++ [equals] := by decide

theorem word_token : ∀ c ∈ word, isTokenChar c = true := List.all_eq_true.mp (by decide)

theorem legal_free {v : Bytes} (hv : Legal v) : semicolon ∉ v ∧ quote ∉ v := by
  have hchars := List.all_eq_true.mp hv.chars
  exact ⟨fun h => absurd (hchars _ h) (by decide), fun h => absurd (hchars _ h) (by decide)⟩

theorem boundaryOf_none (value : Bytes) : boundaryOf value = none ↔ ¬ boundaryKey <:+: value := by
  rw [boundaryOf, Option.map_eq_none_iff, not_infix_iff]

theorem boundaryOf_end {value v : Bytes} (h : boundaryOf value = some (delimiter v)) :
    boundaryKey ++ v <:+ value := by
  obtain ⟨n, hn, hv⟩ := Option.map_eq_some_iff.mp h
  obtain ⟨r, hr⟩ := find_occurs boundaryKey value n hn
  have hrest : r = v := by
    rw [delimiter, List.append_cancel_left_eq, ← List.drop_drop, ← hr, List.drop_left] at hv
    exact hv
  rw [← hrest, hr]
  exact List.drop_suffix n value

theorem boundaryOf_last {m : MediaType} {ps : List Parameter} {q : Parameter} {t : Token}
    (hsplit : m.parameters = ps ++ [q]) (hvalue : q.value = .token t)
    (hname : word <:+ q.name.text) :
    boundaryOf m.text = some (delimiter t.text) ↔ ¬ boundaryKey <:+: m.front ps q := by
  have htext : m.text = m.front ps q ++ (q.name.text ++ equals::t.text) := by
    rw [text_last hsplit, hvalue]
    rfl
  rw [boundaryKey_word, ← find_ended word equals (m.front ps q) _ t.text
    (token_free q.name equals (by decide)) hname,
    ← htext, ← boundaryKey_word]
  obtain ⟨r, hr⟩ := hname
  have hkey : m.text = (m.front ps q ++ r ++ boundaryKey) ++ t.text := by
    rw [htext, ← hr, boundaryKey_word]
    simp
  have hpos : q.name.text.length-word.length = r.length := by
    rw [← hr]
    simp
  rw [hpos]
  constructor
  · intro hread
    obtain ⟨n, hn, hv⟩ := Option.map_eq_some_iff.mp hread
    have hlen := congrArg List.length (List.append_cancel_left hv)
    have htoken := List.length_pos_iff.mpr t.nonempty
    rw [List.length_drop, hkey, List.length_append, List.length_append, List.length_append] at hlen
    rw [hn]
    congr 1
    omega
  · intro hfind
    rw [boundaryOf, hfind, Option.map_some, hkey]
    have hdrop : (m.front ps q).length+r.length+boundaryKey.length =
        (m.front ps q ++ r ++ boundaryKey).length := by
      simp [Nat.add_assoc]
    rw [hdrop, List.drop_left, delimiter]

/-- The header is read right exactly when its last parameter is the boundary as a token that nothing
before it hides. -/
theorem boundaryOf_iff {m : MediaType} {v : Bytes} (hlegal : Legal v) :
    boundaryOf m.text = some (delimiter v) ↔ LastToken m v := by
  constructor
  · intro hread
    have hend := boundaryOf_end hread
    rw [boundaryKey_word, List.append_assoc] at hend
    obtain ⟨hsemi, hquote⟩ := legal_free hlegal
    cases List.eq_nil_or_concat' m.parameters with
    | inl hnil =>
      have hmem : equals ∈ m.mainType.text ++ slash::m.subtype.text := by
        simpa [MediaType.text, MediaType.essence, hnil] using
          hend.subset (List.mem_append_right word List.mem_cons_self)
      cases List.mem_append.mp hmem with
      | inl hmain => exact absurd hmain (token_free _ _ (by decide))
      | inr hsub =>
        exact absurd ((List.mem_cons.mp hsub).resolve_left (by decide))
          (token_free _ _ (by decide))
    | inr hsome =>
      obtain ⟨ps, q, hsplit⟩ := hsome
      obtain ⟨⟨t, ht, hvalue⟩, hname⟩ :=
        last_parameter hsplit word_token hsemi hquote hlegal.nonempty hend
      subst ht
      exact ⟨ps, q, t, hsplit, hvalue, rfl, hname, (boundaryOf_last hsplit hvalue hname).mp hread⟩
  · rintro ⟨ps, q, t, hsplit, hvalue, rfl, hname, hhidden⟩
    exact (boundaryOf_last hsplit hvalue hname).mpr hhidden

theorem finds_parts {h : HeadInfo} {v : Bytes} (hv : Legal v) (hup : isUpload h = true)
    (hbound : h.bodyBoundary = delimiter v)
    (hstart : h.requestBody = [] ∧ h.curUploadFile = [] ∧ h.responseStatus = [] ∧
      h.uploadSuccessFiles = [] ∧ h.uploadFailFiles = []) : FindsParts v h := by
  intro env ps chunks s hps hcat hmet
  exact (encoded_handled hv.chars hps hup hbound hstart hcat hmet).2

theorem refused_answer (h : HeadInfo) (hst : h.responseStatus = bytes "400") (env : Env)
    (codec : Codec)
    (chunks : List Bytes) (s : Store) :
    ((onBodies env chunks h s).bind fun r => onMessageComplete env codec r.1 r.2) = some (h, s,
      answer h none false) := by
  have hne : h.responseStatus ≠ [] := by
    rw [hst]
    decide
  rw [onBodies_refused env chunks h s hne, Option.bind_some, onMessageComplete, if_pos hne]

section Header
variable {g : HeadInfo} {value : Bytes} (hup : isUpload g = true)
  (hfresh : g.requestBody = [] ∧ g.curUploadFile = [] ∧ g.responseStatus = [] ∧
    g.uploadSuccessFiles = [] ∧ g.uploadFailFiles = [])
include hup hfresh

theorem right_read {boundary : Bytes} (hread : boundaryOf value = some boundary) :
    BoundaryRight value { g with responseVersion := bytes "HTTP/" ++ g.requestVersion,
                                 bodyBoundary := boundary } ↔
      WellWritten value := by
  constructor
  · intro hright
    constructor
    · intro m v htext hform hhas
      have hbound : boundary = delimiter v := (hright.named m v htext hform hhas).1
      apply (boundaryOf_iff hhas.legal).mp
      rw [htext, hread, hbound]
    · intro hno
      have hst : g.responseStatus = bytes "400" := (hright.unnamed hno).1
      rw [hfresh.2.2.1] at hst
      exact absurd hst (by decide)
  · intro hwell
    constructor
    · intro m v htext hform hhas
      have hbound := (boundaryOf_iff hhas.legal).mpr (hwell.named m v htext hform hhas)
      rw [htext, hread] at hbound
      obtain rfl := Option.some.inj hbound
      exact ⟨rfl, hfresh.2.2.1, finds_parts hhas.legal hup rfl hfresh⟩
    · intro hno
      rw [(boundaryOf_none value).mpr (hwell.unnamed hno)] at hread
      cases hread

omit hup hfresh in
theorem right_refused (hread : boundaryOf value = none) :
    BoundaryRight value
      (badRequest { g with responseVersion := bytes "HTTP/" ++ g.requestVersion }) ↔
      WellWritten value := by
  constructor
  · intro hright
    constructor
    · intro m v htext hform hhas
      have hst : bytes "400" = [] := (hright.named m v htext hform hhas).2.1
      exact absurd hst (by decide)
    · exact fun _ => (boundaryOf_none value).mp hread
  · intro hwell
    constructor
    · intro m v htext hform hhas
      have hbound := (boundaryOf_iff hhas.legal).mpr (hwell.named m v htext hform hhas)
      rw [htext, hread] at hbound
      cases hbound
    · exact fun _ => ⟨rfl, refused_answer _ rfl⟩

end Header

/-- The boundary is read as the grammar says exactly for the values that are written plainly. -/
theorem boundary_read (g : HeadInfo) (value : Bytes) (hup : isUpload g = true)
    (hvalue : g.requestHeaders.lookup (bytes "content-type") = some value)
    (hfresh : g.requestBody = [] ∧ g.curUploadFile = [] ∧ g.responseStatus = [] ∧
      g.uploadSuccessFiles = [] ∧ g.uploadFailFiles = []) :
    ∃ h, onHeadersComplete g = some h ∧ (BoundaryRight value h ↔ WellWritten value) := by
  rw [onHeadersComplete_upload hup, hvalue, Option.bind_some]
  cases hread : boundaryOf value with
  | some boundary => exact ⟨_, rfl, right_read hup hfresh hread⟩
  | none => exact ⟨_, rfl, right_refused hread⟩

theorem boundary_read_hello :
    ∃ h, onHeadersComplete uploadRequest = some h ∧
      (BoundaryRight (bytes "multipart/form-data; boundary=b") h ↔
        WellWritten (bytes "multipart/form-data; boundary=b")) :=
  boundary_read uploadRequest _ (by decide) (by decide) ⟨rfl, rfl, rfl, rfl, rfl⟩

def requestOf (value : Bytes) : HeadInfo :=
  { uploadRequest with requestHeaders := AList.insert (bytes "content-type") value ∅ }

def quotedType : MediaType where
  mainType := ⟨bytes "multipart", by decide, by decide⟩
  subtype := ⟨bytes "form-data", by decide, by decide⟩
  parameters := [
    { before := ⟨[], by decide⟩
      behind := ⟨bytes " ", by decide⟩
      name := ⟨bytes "boundary", by decide, by decide⟩
      value := .quoted [⟨false, 98, by decide⟩] }]

theorem quotedType_boundary : HasBoundary quotedType (bytes "b") where
  legal := ⟨by decide, by decide, by decide, by decide⟩
  parameter := ⟨_, List.mem_cons_self, by decide, by decide⟩

def dropped (value : Bytes) : Option (Bytes × Bytes × List Bytes × List Bytes) :=
  (onHeadersComplete (requestOf value)).bind fun h =>
    (onBodies plainEnv [helloPart] h freshStore).bind fun r =>
    (onMessageComplete plainEnv plainCodec r.1 r.2).map fun x =>
      (h.bodyBoundary, x.1.responseStatus, x.1.uploadSuccessFiles, x.1.uploadFailFiles)

/-- The quotes become part of the boundary, as a parameter behind it does, and the file is lost
under a 200. -/
theorem quoted_boundary :
    quotedType.text = bytes "multipart/form-data; boundary=\"b\"" ∧ isFormData quotedType = true ∧
    HasBoundary quotedType (bytes "b") ∧
    dropped quotedType.text = some (bytes "--\"b\"", bytes "200", [], []) ∧
    dropped (bytes "multipart/form-data; boundary=b; charset=utf-8") =
      some (bytes "--b; charset=utf-8", bytes "200", [], []) ∧
    ∃ h, onHeadersComplete (requestOf quotedType.text) = some h ∧
      ¬ BoundaryRight quotedType.text h := by
  have hhead : (onHeadersComplete (requestOf quotedType.text)).map
    HeadInfo.bodyBoundary = some (bytes "--\"b\"") := by
    decide
  obtain ⟨h, hh, hbound⟩ := Option.map_eq_some_iff.mp hhead
  refine ⟨by decide, by decide, quotedType_boundary, by decide +kernel, by decide +kernel, h, hh,
    fun hright => ?_⟩
  have hb := (hright.named quotedType (bytes "b") rfl (by decide) quotedType_boundary).1
  rw [hbound] at hb
  exact absurd hb (by decide)

end CloudBackup.BoundaryParameter
