import Mathlib.Data.List.Basic
import Mathlib.Tactic.IntervalCases

/-!
# Percent-encoded text

A text whose percent signs all stand before two hexadecimal digits is written
from pieces, and the pieces are its meaning: an escape is the byte of its
value, a plus is a blank, every other byte is itself.
-/

set_option autoImplicit false

namespace CloudBackup.PercentEncoding

def percent : UInt8 := 37
def plusSign : UInt8 := 43
def blank : UInt8 := 32

def digitValue (c : UInt8) : Option ℕ :=
  if 48 ≤ c ∧ c ≤ 57 then some (c.toNat-48)
  else if 65 ≤ c ∧ c ≤ 70 then some (c.toNat-55)
  else if 97 ≤ c ∧ c ≤ 102 then some (c.toNat-87)
  else none

structure HexDigit where
  char : UInt8
  value : ℕ
  valid : digitValue char = some value

inductive Piece where
  | plain (c : UInt8) (hpercent : c ≠ percent) (hplus : c ≠ plusSign)
  | plus
  | escape (high low : HexDigit)

def Piece.text : Piece → List UInt8
  | .plain c _ _ => [c]
  | .plus => [plusSign]
  | .escape high low => [percent, high.char, low.char]

def Piece.meaning : Piece → UInt8
  | .plain c _ _ => c
  | .plus => blank
  | .escape high low => UInt8.ofNat (16*high.value+low.value)

def textOf (ps : List Piece) : List UInt8 := ps.flatMap Piece.text

def meaningOf (ps : List Piece) : List UInt8 := ps.map Piece.meaning

/-- Every percent sign stands before two hexadecimal digits. -/
def WellEscaped (s : List UInt8) : Prop :=
  ∀ i, s[i]? = some percent → ∃ high low : HexDigit, s[i+1]? = some high.char ∧
    s[i+2]? = some low.char

/-- Kept bytes stand for themselves, all others are escaped with digits of either case. -/
inductive Encodes (keep : UInt8 → Bool) : List UInt8 → List UInt8 → Prop where
  | nil : Encodes keep [] []
  | kept (c : UInt8) (name text : List UInt8) (hc : keep c = true) (rest : Encodes keep name text) :
      Encodes keep (c::name) (c::text)
  | escaped (high low : HexDigit) (name text : List UInt8)
      (hc : keep (UInt8.ofNat (16*high.value+low.value)) = false) (rest : Encodes keep name text) :
      Encodes keep (UInt8.ofNat (16*high.value+low.value)::name)
        (percent::high.char::low.char::text)

def upperDigit (v : ℕ) : UInt8 := UInt8.ofNat (if v < 10 then 48+v else 55+v)

/-- The encoder that writes its digits in upper case. -/
def encode (keep : UInt8 → Bool) (name : List UInt8) : List UInt8 :=
  name.flatMap fun c => if keep c then
    [c] else [percent, upperDigit (c.toNat/16), upperDigit (c.toNat%16)]

@[simp] theorem textOf_cons (p : Piece) (ps : List Piece) : textOf (p::ps) = p.text ++ textOf ps :=
  List.flatMap_cons

@[simp] theorem meaningOf_cons (p : Piece) (ps : List Piece) :
    meaningOf (p::ps) = p.meaning :: meaningOf ps := List.map_cons

theorem digitValue_percent : digitValue percent = none := by decide

theorem hexDigit_ne_percent (d : HexDigit) : d.char ≠ percent := by
  intro h
  have hvalid := d.valid
  rw [h, digitValue_percent] at hvalid
  cases hvalid

theorem upperDigit_valid (v : ℕ) (hv : v < 16) : digitValue (upperDigit v) = some v := by
  interval_cases v <;> rfl

theorem wellEscaped_nil : WellEscaped [] := by
  intro i h
  cases h

theorem wellEscaped_cons {c : UInt8} (hc : c ≠ percent) (s : List UInt8) :
    WellEscaped (c::s) ↔ WellEscaped s := by
  constructor
  · intro h i hi
    exact h (i+1) hi
  · intro h i hi
    cases i with
    | zero => exact absurd (Option.some.inj hi) hc
    | succ i => exact h i hi

theorem wellEscaped_escape (high low : HexDigit) (s : List UInt8) :
    WellEscaped (percent::high.char::low.char::s) ↔ WellEscaped s := by
  constructor
  · intro h i hi
    exact h (i+3) hi
  · intro h i hi
    match i with
    | 0 => exact ⟨high, low, rfl, rfl⟩
    | 1 => exact absurd (Option.some.inj hi) (hexDigit_ne_percent high)
    | 2 => exact absurd (Option.some.inj hi) (hexDigit_ne_percent low)
    | i+3 => exact h i hi

theorem wellEscaped_percent (s : List UInt8) (h : WellEscaped (percent::s)) :
    ∃ high low : HexDigit, ∃ rest, s = high.char::low.char::rest := by
  obtain ⟨high, low, h1, h2⟩ := h 0 rfl
  match s with
  | [] => cases h1
  | [_] => cases h2
  | a::b::rest =>
    obtain rfl := Option.some.inj h1
    obtain rfl := Option.some.inj h2
    exact ⟨high, low, rest, rfl⟩

theorem textOf_wellEscaped (ps : List Piece) : WellEscaped (textOf ps) := by
  induction ps with
  | nil => exact wellEscaped_nil
  | cons p ps ih =>
    cases p with
    | plain c hpercent hplus => exact (wellEscaped_cons hpercent _).mpr ih
    | plus => exact (wellEscaped_cons (by decide) _).mpr ih
    | escape high low => exact (wellEscaped_escape high low _).mpr ih

theorem wellEscaped_read (s : List UInt8) (h : WellEscaped s) : ∃ ps, textOf ps = s := by
  match s with
  | [] => exact ⟨[], rfl⟩
  | c::cs =>
    by_cases hpercent : c = percent
    · subst hpercent
      obtain ⟨high, low, rest, rfl⟩ := wellEscaped_percent cs h
      obtain ⟨ps, rfl⟩ := wellEscaped_read rest ((wellEscaped_escape high low rest).mp h)
      exact ⟨.escape high low::ps, rfl⟩
    · obtain ⟨ps, rfl⟩ := wellEscaped_read cs ((wellEscaped_cons hpercent cs).mp h)
      by_cases hplus : c = plusSign
      · exact ⟨.plus::ps, by rw [hplus]; rfl⟩
      · exact ⟨.plain c hpercent hplus::ps, rfl⟩
termination_by s.length

theorem wellEscaped_iff (s : List UInt8) : WellEscaped s ↔ ∃ ps, textOf ps = s := by
  constructor
  · exact wellEscaped_read s
  · rintro ⟨ps, rfl⟩
    exact textOf_wellEscaped ps

section Encoder
variable {keep : UInt8 → Bool}

/-- What an encoder writes means what it was given, as long as it escapes the two signs. -/
theorem encodes_pieces (hpercent : keep percent = false) (hplus : keep plusSign = false)
    {name text : List UInt8} (h : Encodes keep name text) :
    ∃ ps, textOf ps = text ∧ meaningOf ps = name := by
  induction h with
  | nil => exact ⟨[], rfl, rfl⟩
  | kept c name text hc _ ih =>
    obtain ⟨ps, rfl, rfl⟩ := ih
    have hc1 : c ≠ percent := fun e => by simp [e, hpercent] at hc
    have hc2 : c ≠ plusSign := fun e => by simp [e, hplus] at hc
    exact ⟨.plain c hc1 hc2::ps, rfl, rfl⟩
  | escaped high low name text _ _ ih =>
    obtain ⟨ps, rfl, rfl⟩ := ih
    exact ⟨.escape high low::ps, rfl, rfl⟩

theorem encode_encodes (keep : UInt8 → Bool) (name : List UInt8) :
    Encodes keep name (encode keep name) := by
  induction name with
  | nil => exact .nil
  | cons c name ih =>
    rw [encode, List.flatMap_cons]
    split_ifs with hc
    · exact .kept c name _ hc ih
    · have hbyte := c.toNat_lt
      let high : HexDigit := ⟨_, c.toNat/16, upperDigit_valid _ (by omega)⟩
      let low : HexDigit := ⟨_, c.toNat%16, upperDigit_valid _ (by omega)⟩
      have hvalue : UInt8.ofNat (16*high.value+low.value) = c := by
        show UInt8.ofNat (16*(c.toNat/16)+c.toNat%16) = c
        rw [Nat.div_add_mod, UInt8.ofNat_toNat]
      have henc := Encodes.escaped high low name (encode keep name)
        (by rw [hvalue]; simpa using hc) ih
      rw [hvalue] at henc
      exact henc

end Encoder

end CloudBackup.PercentEncoding
