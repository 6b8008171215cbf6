import Mathlib

/-!
# Ring buffers

A queue kept in a fixed number of slots: from the position of its first
element on, wrapping at the end, the slots hold the elements in order, and
the slots beyond the last element are empty.
-/

set_option autoImplicit false

namespace CloudBackup.RingBuffer

variable {τ : Type*}

def Holds (slots : List (Option τ)) (pos : ℕ) (pending : List τ) : Prop :=
  ∀ i < slots.length, slots[(pos+i) % slots.length]? = some pending[i]?

theorem holds_replicate (n : ℕ) : Holds (List.replicate n (none : Option τ)) 0 [] := by
  intro i hi
  rw [List.length_replicate] at hi ⊢
  rw [List.getElem?_nil, List.getElem?_replicate, if_pos (Nat.mod_lt _ (by omega))]

theorem offset_inj {n i j : ℕ} (pos : ℕ) (hi : i < n) (hj : j < n) (h : (pos+i) % n = (pos+j) % n) :
    i = j := by
  have hmod : i ≡ j [MOD n] := Nat.ModEq.add_left_cancel' pos h
  rwa [Nat.ModEq, Nat.mod_eq_of_lt hi, Nat.mod_eq_of_lt hj] at hmod

section Queue
variable {slots : List (Option τ)} {pos : ℕ} {pending : List τ} (h : Holds slots pos pending)
include h

theorem holds_free (hroom : pending.length < slots.length) :
    slots[(pos+pending.length) % slots.length]? = some none := by
  rw [h pending.length hroom, List.getElem?_eq_none le_rfl]

theorem holds_write (task : τ) (hroom : pending.length < slots.length) :
    Holds (slots.set ((pos+pending.length) % slots.length) (some task)) pos
      (pending ++ [task]) := by
  intro i hi
  rw [List.length_set] at hi ⊢
  by_cases hlast : i = pending.length
  · subst hlast
    rw [List.getElem?_set_self (Nat.mod_lt _ (by omega)), List.getElem?_concat_length]
  · have hother : (pos+pending.length) % slots.length ≠ (pos+i) % slots.length := fun e =>
      hlast (offset_inj pos hroom hi e).symm
    rw [List.getElem?_set_ne hother, h i hi]
    congr 1
    rcases Nat.lt_or_gt_of_ne hlast with hlt | hgt
    · rw [List.getElem?_append_left hlt]
    · rw [List.getElem?_eq_none hgt.le, List.getElem?_eq_none (by simp; omega)]

end Queue

section Head
variable {slots : List (Option τ)} {pos : ℕ} {task : τ} {rest : List τ}
  (h : Holds slots pos (task::rest)) (hpos : pos < slots.length)
include h hpos

theorem holds_head : slots[pos]? = some (some task) := by
  have h0 := h 0 (by omega)
  rwa [Nat.add_zero, Nat.mod_eq_of_lt hpos] at h0

theorem holds_take (hroom : rest.length < slots.length) :
    Holds (slots.set pos none) ((pos+1) % slots.length) rest := by
  intro i hi
  rw [List.length_set] at hi ⊢
  rw [Nat.mod_add_mod, Nat.add_assoc, Nat.add_comm 1 i]
  by_cases hlast : i+1 = slots.length
  · -- The slot just emptied is now the last one.
    rw [hlast, Nat.add_mod_right, Nat.mod_eq_of_lt hpos, List.getElem?_set_self hpos,
      List.getElem?_eq_none (by omega)]
  · have hother : pos ≠ (pos+(i+1)) % slots.length := by
      intro e
      have e0 : (pos+0) % slots.length = (pos+(i+1)) % slots.length := by
        rw [Nat.add_zero, Nat.mod_eq_of_lt hpos]
        exact e
      exact absurd (offset_inj pos (by omega) (by omega) e0) (by omega)
    rw [List.getElem?_set_ne hother, h (i+1) (by omega), List.getElem?_cons_succ]

end Head

end CloudBackup.RingBuffer
