import CloudBackup.ByteStrings

/-!
# Media types with parameters

A media type is a type, a subtype and parameters behind semicolons, each a name
and a value that is a token or a quoted string. Texts are written from values that
carry their grammar; what ends the text of a media type is then known.
-/

set_option autoImplicit false

namespace CloudBackup.MediaTypes
open CloudBackup.ByteStrings

def semicolon : UInt8 := 59
def equals : UInt8 := 61
def backslash : UInt8 := 92

def isAlnum (c : UInt8) : Bool := (48 ≤ c && c ≤ 57) || (65 ≤ c && c ≤ 90) || (97 ≤ c && c ≤ 122)

def isTokenChar (c : UInt8) : Bool := isAlnum c || (bytes "!#$%&'*+-.^_|~").contains c || c == 96

def isBlank (c : UInt8) : Bool := c == 32 || c == 9

/-- What a backslash may stand before: a tab, a space and what is visible. -/
def isQuotable (c : UInt8) : Bool := c == 9 || (32 ≤ c && c != 127)

def isQuotedChar (c : UInt8) : Bool := isQuotable c && c != quote && c != backslash

structure Token where
  text : Bytes
  nonempty : text ≠ []
  chars : text.all isTokenChar = true

structure Quoted where
  escaped : Bool
  char : UInt8
  allowed : (if escaped then isQuotable char else isQuotedChar char) = true

def Quoted.text (q : Quoted) : Bytes := if q.escaped then [backslash, q.char] else [q.char]

inductive Value where
  | token (t : Token)
  | quoted (qs : List Quoted)

def Value.text : Value → Bytes
  | .token t => t.text
  | .quoted qs => quote::(qs.map Quoted.text).flatten ++ [quote]

def Value.meaning : Value → Bytes
  | .token t => t.text
  | .quoted qs => qs.map Quoted.char

structure Blanks where
  text : Bytes
  chars : text.all isBlank = true

structure Parameter where
  before : Blanks
  behind : Blanks
  name : Token
  value : Value

def Parameter.lead (p : Parameter) : Bytes := p.before.text ++ semicolon::p.behind.text

def Parameter.text (p : Parameter) : Bytes := p.lead ++ (p.name.text ++ equals::p.value.text)

structure MediaType where
  mainType : Token
  subtype : Token
  parameters : List Parameter

def MediaType.essence (m : MediaType) : Bytes := m.mainType.text ++ slash::m.subtype.text

def MediaType.text (m : MediaType) : Bytes := m.essence ++ (m.parameters.map Parameter.text).flatten

def MediaType.front (m : MediaType) (ps : List Parameter) (q : Parameter) : Bytes :=
  m.essence ++ (ps.map Parameter.text).flatten ++ q.lead

theorem token_free (t : Token) (c : UInt8) (hc : isTokenChar c = false) : c ∉ t.text := by
  intro hmem
  have htoken := List.all_eq_true.mp t.chars c hmem
  rw [hc] at htoken
  exact absurd htoken (by decide)

theorem blank_free (b : Blanks) (c : UInt8) (hc : isBlank c = false) : c ∉ b.text := by
  intro hmem
  have hblank := List.all_eq_true.mp b.chars c hmem
  rw [hc] at hblank
  exact absurd hblank (by decide)

theorem token_not_blank (c : UInt8) (hc : isTokenChar c = true) : ¬ isBlank c = true := by
  intro hblank
  cases Bool.or_eq_true_iff.mp hblank with
  | inl h => exact absurd (eq_of_beq h ▸ hc) (by decide)
  | inr h => exact absurd (eq_of_beq h ▸ hc) (by decide)

theorem text_last {m : MediaType} {ps : List Parameter} {q : Parameter}
    (hsplit : m.parameters = ps ++ [q]) :
    m.text = m.front ps q ++ (q.name.text ++ equals::q.value.text) := by
  simp [MediaType.text, MediaType.front, Parameter.text, hsplit]

theorem cut_once {α : Type*} {s t x y : List α} {c : α} (hs : c ∉ s) (hx : c ∉ x)
    (h : s ++ c::x = t ++ c::y) :
    s = t ∧ x = y := by
  cases List.append_eq_append_iff.mp h with
  | inl hleft =>
    obtain ⟨a, rfl, ha⟩ := hleft
    cases a with
    | nil => exact ⟨(List.append_nil s).symm, (List.cons.inj ha).2⟩
    | cons d a =>
      obtain ⟨rfl, rfl⟩ := List.cons.inj ha
      exact absurd (List.mem_append_right a List.mem_cons_self) hx
  | inr hright =>
    obtain ⟨a, rfl, ha⟩ := hright
    cases a with
    | nil => exact ⟨List.append_nil t, (List.cons.inj ha).2.symm⟩
    | cons d a =>
      obtain ⟨rfl, -⟩ := List.cons.inj ha
      exact absurd (List.mem_append_right t List.mem_cons_self) hs

theorem suffix_behind {α : Type*} {s t u : List α} {c : α} (hs : c ∉ s) (h : s <:+ t ++ c::u) :
    s <:+ u := by
  cases List.suffix_or_suffix_of_suffix h (List.suffix_append t (c::u)) with
  | inl hin =>
    cases List.suffix_cons_iff.mp hin with
    | inl heq => exact absurd (heq ▸ List.mem_cons_self) hs
    | inr hsuf => exact hsuf
  | inr hout => exact absurd (hout.subset List.mem_cons_self) hs

section Last
variable {m : MediaType} {word v : Bytes} {ps : List Parameter} {q : Parameter}
  (hsplit : m.parameters = ps ++ [q])
  (hword : ∀ c ∈ word, isTokenChar c = true) (hsemi : semicolon ∉ v) (hquote : quote ∉ v)
  (hne : v ≠ [])
  (hend : word ++ equals::v <:+ m.text)
include hsplit hword hsemi hquote hne hend

theorem last_parameter : (∃ t : Token, t.text = v ∧ q.value = .token t) ∧ word <:+ q.name.text := by
  have hwordFree : ∀ c, isTokenChar c = false → c ∉ word := fun c hc hmem => by
    rw [hword c hmem] at hc
    exact absurd hc (by decide)
  rw [text_last hsplit] at hend
  cases hq : q.value with
  | quoted qs =>
    rw [hq] at hend
    have hv : v <:+ word ++ equals::v := ⟨word ++ [equals], by simp⟩
    have hlast : [quote] <:+ m.front ps q ++ (q.name.text ++ equals::(Value.quoted qs).text) :=
      ⟨m.front ps q ++ (q.name.text ++ equals::quote::(qs.map Quoted.text).flatten), by
        simp [Value.text]⟩
    cases List.suffix_or_suffix_of_suffix hlast (hv.trans hend) with
    | inl hin => exact absurd (hin.subset List.mem_cons_self) hquote
    | inr hout =>
      cases List.suffix_cons_iff.mp hout with
      | inl heq => exact absurd (heq ▸ List.mem_cons_self) hquote
      | inr hnil => exact absurd (List.suffix_nil.mp hnil) hne
  | token t =>
    rw [hq] at hend
    have hbehind : word ++ equals::v <:+ q.behind.text ++ (q.name.text ++ equals::t.text) := by
      apply suffix_behind (c := semicolon)
        (t := m.essence ++ (ps.map Parameter.text).flatten ++ q.before.text)
      · intro hmem
        cases List.mem_append.mp hmem with
        | inl hw => exact hwordFree semicolon (by decide) hw
        | inr hv => exact (List.mem_cons.mp hv).elim (by decide) hsemi
      · simpa [MediaType.front, Parameter.lead, Value.text] using hend
    obtain ⟨r, hr⟩ := hbehind
    have hequals : equals ∉ q.behind.text ++ q.name.text := fun hmem =>
      (List.mem_append.mp hmem).elim (blank_free _ _ (by decide)) (token_free _ _ (by decide))
    have hcut : (q.behind.text ++ q.name.text) ++ equals::t.text = (r ++ word) ++ equals::v := by
      simpa using hr.symm
    obtain ⟨hname, hvalue⟩ := cut_once hequals (token_free t equals (by decide)) hcut
    refine ⟨⟨t, hvalue, rfl⟩, ?_⟩
    cases List.suffix_or_suffix_of_suffix (List.suffix_append r word)
      (hname ▸ List.suffix_append q.behind.text q.name.text) with
    | inl hin => exact hin
    | inr hout =>
      -- what the word has before the name would be blanks
      obtain ⟨k, rfl⟩ := hout
      cases k with
      | nil => exact List.suffix_rfl
      | cons c k =>
        have hblank : c ∈ q.behind.text := by
          have hsplit : q.behind.text = r ++ c::k := List.append_cancel_right (by simpa using hname)
          exact hsplit ▸ List.mem_append_right r List.mem_cons_self
        have htoken := hword c (List.mem_append_left _ List.mem_cons_self)
        exact absurd (List.all_eq_true.mp q.behind.chars c hblank) (token_not_blank c htoken)

end Last

end CloudBackup.MediaTypes
