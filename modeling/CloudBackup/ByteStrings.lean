import CloudBackup.PatternSearch

/-!
# Byte strings and the integer types of their positions

A `std::string` is a list of bytes of any value. Positions returned by
`find` are stored in an `int` by much of the program, so the conversions
between `size_t`, `int` and back are kept explicit.
-/

set_option autoImplicit false

namespace CloudBackup.ByteStrings
open CloudBackup.PatternSearch

abbrev Bytes := List UInt8

def bytes (s : String) : Bytes := s.toList.map fun c => UInt8.ofNat c.toNat

def sep : Bytes := bytes "\r\n"

def slash : UInt8 := 47
def quote : UInt8 := 34
def tilde : UInt8 := 126

/-- `size_t` narrowed to a 32-bit `int`. -/
def narrow (n : ℕ) : ℤ := Int.bmod n (2^32)

/-- `int pos = s.find(..)`, where `npos` becomes `-1`. -/
def asInt : Option ℕ → ℤ
  | none => -1
  | some n => narrow n

/-- An `int` used where a `size_t` is expected. -/
def asSize (i : ℤ) : ℕ := (i % 2^64).toNat

/-- The part of a string that the operating system reads from `c_str()`. -/
def cstr (s : Bytes) : Bytes := s.takeWhile (· ≠ 0)

/-- `std::to_string` of a signed integer. -/
def toDecimal (n : ℤ) : Bytes :=
  (if n < 0 then bytes "-" else []) ++
    (Nat.toDigits 10 n.natAbs).map fun c => UInt8.ofNat c.toNat

def Small (o : Option ℕ) : Prop := ∀ n, o = some n → n < 2^31

instance (o : Option ℕ) : Decidable (Small o) :=
  match o with
  | none => isTrue (by intro n h; cases h)
  | some k => decidable_of_iff (k < 2^31) (by simp [Small])

theorem narrow_mod (n : ℕ) :
    narrow n = if n%2^32 < 2^31 then ((n%2^32 : ℕ) : ℤ) else ((n%2^32 : ℕ) : ℤ)-2^32 := by
  unfold narrow
  rw [Int.bmod_def]
  split_ifs <;> omega

theorem narrow_small (n : ℕ) (h : n < 2^31) : narrow n = n := by
  have hmod : n%2^32 = n := Nat.mod_eq_of_lt (h.trans (by norm_num))
  rw [narrow_mod, hmod, if_pos h]

theorem narrow_large (n : ℕ) (h : 2^31 ≤ n) (h' : n < 2^32) : narrow n = (n : ℤ)-2^32 := by
  rw [narrow_mod, Nat.mod_eq_of_lt h', if_neg (not_lt.mpr h)]

theorem narrow_bounds (n : ℕ) : -2^31 ≤ narrow n ∧ narrow n < 2^31 ∧ narrow n ≤ n := by
  rw [narrow_mod]
  split_ifs <;> omega

theorem asSize_neg (i : ℤ) (h : i < 0) (h' : -2^64 ≤ i) : (asSize i : ℤ) = i+2^64 := by
  unfold asSize
  omega

theorem asSize_cast (n : ℕ) (h : n < 2^64) : asSize n = n := by
  unfold asSize
  omega

theorem asSize_pos {i : ℤ} (h : -2^31 ≤ i) (h' : i < 2^32) (hne : i ≠ 0) : 1 ≤ asSize i := by
  unfold asSize
  omega

theorem asInt_some (n : ℕ) (h : Small (some n)) : asInt (some n) = n :=
  narrow_small n (h n rfl)

theorem asInt_none : asInt none = -1 := rfl

theorem asInt_bounds (o : Option ℕ) : -2^31 ≤ asInt o ∧ asInt o < 2^31 := by
  cases o with
  | none => exact ⟨by decide, by decide⟩
  | some n => exact ⟨(narrow_bounds n).1, (narrow_bounds n).2.1⟩

theorem asInt_found {o : Option ℕ} (h : asInt o ≠ -1) : ∃ n, o = some n ∧ asInt o = narrow n := by
  cases o with
  | none => exact absurd rfl h
  | some n => exact ⟨n, rfl, rfl⟩

theorem blankLine_found (l r : Bytes) (hl : 13 ∉ l) :
    find (sep ++ sep) (l ++ ((sep ++ sep) ++ r)) = some l.length :=
  find_after_clean 13 [10, 13, 10] l r hl

theorem cstr_append_of_clean (s t : Bytes) (hs : 0 ∉ s) : cstr (s ++ t) = s ++ cstr t := by
  unfold cstr
  rw [List.takeWhile_append_of_pos]
  intro c hc
  have : c ≠ 0 := fun h => hs (h ▸ hc)
  simpa using this

theorem cstr_clean (s : Bytes) (hs : 0 ∉ s) : cstr s = s := by
  simpa [cstr] using cstr_append_of_clean s [] hs

end CloudBackup.ByteStrings
