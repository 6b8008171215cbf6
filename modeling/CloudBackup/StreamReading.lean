import Mathlib

/-!
# Units read off a stream

A reader takes one unit off the front of a stream and leaves the rest. Some
units have no end of their own and last as long as the stream. Units written
one after the other are read one by one, through the first that lasts.
-/

set_option autoImplicit false

namespace CloudBackup.StreamReading

variable {α ρ θ ω κ : Type*}

/-- What is read and the stream behind it, or no stream behind what lasts. -/
abbrev Reader (α ρ : Type*) := List α → Option (ρ × Option (List α))

def readUpTo (read : Reader α ρ) : ℕ → List α → List ρ
  | 0, _ => []
  | n+1, stream =>
    match read stream with
    | none => []
    | some (r, none) => [r]
    | some (r, some rest) => r::readUpTo read n rest

/-- A unit has one element at least. -/
def readAll (read : Reader α ρ) (stream : List α) : List ρ := readUpTo read (stream.length+1) stream

/-- The elements up to the first that lasts, and this one. -/
def through (lasts : θ → Bool) : List θ → List θ
  | [] => []
  | x::xs => if lasts x then [x] else x::through lasts xs

/-- A unit for `x` is read as what shows `x`, whatever follows it. -/
def Frames (read : Reader α ρ) (lasts : θ → Bool) (shows : ρ → θ → Prop) (unit : List α)
    (x : θ) : Prop :=
  unit ≠ [] ∧ ∀ rest, ∃ r, read (unit ++ rest) = some (r, if lasts x then
    none else some rest) ∧ shows r x

section Reading
variable {read : Reader α ρ} {lasts : θ → Bool} {shows : ρ → θ → Prop}

theorem readUpTo_frames (hnil : read [] = none) {units : List (List α)} {xs : List θ}
    (h : List.Forall₂ (Frames read lasts shows) units xs) (n : ℕ) (hn : units.length < n) :
    List.Forall₂ shows (readUpTo read n units.flatten) (through lasts xs) := by
  induction h generalizing n with
  | nil =>
    obtain ⟨m, rfl⟩ := Nat.exists_eq_succ_of_ne_zero (by omega : n ≠ 0)
    rw [List.flatten_nil, readUpTo, hnil]
    exact List.Forall₂.nil
  | @cons unit x units xs hunit hrest ih =>
    obtain ⟨m, rfl⟩ := Nat.exists_eq_succ_of_ne_zero (by omega : n ≠ 0)
    obtain ⟨r, hread, hshows⟩ := hunit.2 units.flatten
    rw [List.flatten_cons, readUpTo, hread, through]
    cases lasts x with
    | true => exact List.Forall₂.cons hshows List.Forall₂.nil
    | false =>
      rw [List.length_cons] at hn
      exact List.Forall₂.cons hshows (ih m (by omega))

theorem units_length {units : List (List α)} (h : ∀ unit ∈ units, unit ≠ []) :
    units.length ≤ units.flatten.length := by
  induction units with
  | nil => exact le_rfl
  | cons unit units ih =>
    have hrest := ih fun u hu => h u (List.mem_cons_of_mem unit hu)
    have hpos := List.length_pos_iff.mpr (h unit List.mem_cons_self)
    rw [List.flatten_cons, List.length_append, List.length_cons]
    omega

theorem readAll_frames (hnil : read [] = none) {units : List (List α)} {xs : List θ}
    (h : List.Forall₂ (Frames read lasts shows) units xs) :
    List.Forall₂ shows (readAll read units.flatten) (through lasts xs) := by
  apply readUpTo_frames hnil h
  have hne : ∀ unit ∈ units, unit ≠ [] := by
    intro unit hunit
    obtain ⟨i, hi, rfl⟩ := List.getElem_of_mem hunit
    exact (h.get hi (h.length_eq ▸ hi)).1
  have := units_length hne
  omega

end Reading

section Shares
variable [DecidableEq κ]

def share (c : κ) : List κ → List ω → List ω
  | owner::owners, x::xs => if owner = c then x::share c owners xs else share c owners xs
  | _, _ => []

theorem share_forall₂ {R : ω → θ → Prop} {xs : List ω} {ys : List θ} (h : List.Forall₂ R xs ys)
    (c : κ) (owners : List κ) :
    List.Forall₂ R (share c owners xs) (share c owners ys) := by
  induction h generalizing owners with
  | nil => cases owners <;> exact List.Forall₂.nil
  | cons hxy _ ih =>
    cases owners with
    | nil => exact List.Forall₂.nil
    | cons owner owners =>
      rw [share, share]
      split_ifs
      · exact List.Forall₂.cons hxy (ih owners)
      · exact ih owners

end Shares

end CloudBackup.StreamReading
