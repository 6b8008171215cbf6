import Mathlib

/-!
# A cache that drops the entry used longest ago

The entries are listed from the one used last. A hit brings an entry to the
front, a new entry is put there, and what exceeds the capacity goes at the
back. The second half reads such a list off a list of objects with keys.
-/

set_option autoImplicit false

namespace CloudBackup.LruCache

section Entries
variable {κ υ : Type*} [DecidableEq κ]

def find (k : κ) : List (κ × υ) → Option υ
  | [] => none
  | e::l => if e.1 = k then some e.2 else find k l

def drop (k : κ) (l : List (κ × υ)) : List (κ × υ) := l.filter fun e => e.1 ≠ k

def touch (k : κ) (l : List (κ × υ)) : List (κ × υ) :=
  match find k l with
  | none => l
  | some v => (k, v)::drop k l

def evict (capacity : ℕ) (l : List (κ × υ)) : List (κ × υ) :=
  if capacity < l.length then l.dropLast else l

def put (capacity : ℕ) (k : κ) (v : υ) (l : List (κ × υ)) : List (κ × υ) :=
  if (find k l).isSome then touch k l else evict capacity ((k, v)::l)

theorem touch_absent {k : κ} {l : List (κ × υ)} (h : find k l = none) : touch k l = l := by
  rw [touch, h]

theorem touch_present {k : κ} {v : υ} {l : List (κ × υ)} (h : find k l = some v) :
    touch k l = (k, v)::drop k l := by
  rw [touch, h]

theorem put_absent {capacity : ℕ} {k : κ} {v : υ} {l : List (κ × υ)} (h : find k l = none) :
    put capacity k v l = evict capacity ((k, v)::l) := by
  rw [put, h]
  rfl

theorem put_present {capacity : ℕ} {k : κ} {v w : υ} {l : List (κ × υ)} (h : find k l = some w) :
    put capacity k v l = touch k l := by
  rw [put, h]
  rfl

end Entries

section Objects
variable {ι κ υ : Type*} [DecidableEq κ] (key : ι → κ) (value : ι → υ)

def entriesOf (ids : List ι) : List (κ × υ) := ids.map fun i => (key i, value i)

variable {key value}

theorem find_entriesOf_none {k : κ} {ids : List ι} (h : ∀ i ∈ ids, key i ≠ k) :
    find k (entriesOf key value ids) = none := by
  induction ids with
  | nil => rfl
  | cons i ids ih =>
    rw [entriesOf, List.map_cons, find, if_neg (h i List.mem_cons_self)]
    exact ih fun j hj => h j (List.mem_cons_of_mem i hj)

theorem find_entriesOf {i : ι} {ids : List ι} (hi : i ∈ ids)
    (hinj : ∀ j ∈ ids, key j = key i → j = i) :
    find (key i) (entriesOf key value ids) = some (value i) := by
  induction ids with
  | nil => cases hi
  | cons j ids ih =>
    rw [entriesOf, List.map_cons, find]
    by_cases hj : key j = key i
    · obtain rfl := hinj j List.mem_cons_self hj
      rw [if_pos hj]
    · rw [if_neg hj]
      have hmem : i ∈ ids := (List.mem_cons.mp hi).resolve_left fun he => hj (he ▸ rfl)
      exact ih hmem fun k hk => hinj k (List.mem_cons_of_mem j hk)

theorem drop_entriesOf_none {k : κ} {ids : List ι} (h : ∀ i ∈ ids, key i ≠ k) :
    drop k (entriesOf key value ids) = entriesOf key value ids := by
  apply List.filter_eq_self.mpr
  intro e he
  obtain ⟨i, hi, rfl⟩ := List.mem_map.mp he
  exact decide_eq_true (h i hi)

variable [DecidableEq ι]

theorem drop_entriesOf {i : ι} {ids : List ι} (hd : ids.Nodup)
    (hinj : ∀ j ∈ ids, key j = key i → j = i) :
    drop (key i) (entriesOf key value ids) = entriesOf key value (ids.erase i) := by
  induction ids with
  | nil => rfl
  | cons j ids ih =>
    have hrest : ∀ k ∈ ids, key k = key i → k = i := fun k hk => hinj k (List.mem_cons_of_mem j hk)
    by_cases hj : j = i
    · subst hj
      have hgone : ∀ k ∈ ids, key k ≠ key j :=
        fun k hk he => (List.nodup_cons.mp hd).1 (hrest k hk he ▸ hk)
      rw [List.erase_cons_head, entriesOf, List.map_cons, drop, List.filter_cons_of_neg (by simp)]
      exact drop_entriesOf_none hgone
    · have hkey : key j ≠ key i := fun he => hj (hinj j List.mem_cons_self he)
      rw [List.erase_cons_tail (by simpa using hj), entriesOf, List.map_cons, drop,
        List.filter_cons_of_pos (by simpa using hkey)]
      exact congrArg _ (ih hd.of_cons hrest)

theorem touch_entriesOf {i : ι} {ids : List ι} (hi : i ∈ ids) (hd : ids.Nodup)
    (hinj : ∀ j ∈ ids, key j = key i → j = i) :
    touch (key i) (entriesOf key value ids) = entriesOf key value (i::ids.erase i) := by
  rw [touch_present (find_entriesOf hi hinj), drop_entriesOf hd hinj]
  rfl

end Objects

end CloudBackup.LruCache
