import Mathlib

/-!
# A pool shared out among owners

Each owner holds a set of resources; the pool is shared out when the sets are
disjoint and make it up. An exchange takes an owner from one set to another:
what it gives up leaves the pool and what it takes was in nobody's hands.
-/

set_option autoImplicit false

namespace CloudBackup.Ownership

variable {ι α : Type*} {held : ι → Set α} {pool pool' pool'' : Set α} {mine mine' mine'' : Set α}

structure SharedOut (held : ι → Set α) (pool : Set α) : Prop where
  all : pool = ⋃ i, held i
  apart : ∀ i j, i ≠ j → Disjoint (held i) (held j)

structure Exchange (mine pool mine' pool' : Set α) : Prop where
  total : pool' = mine' ∪ (pool \ mine)
  free : Disjoint mine' (pool \ mine)

theorem exchange_refl (h : mine ⊆ pool) : Exchange mine pool mine pool := by
  constructor
  · exact (Set.union_sdiff_cancel h).symm
  · exact Set.disjoint_sdiff_right

theorem exchange_rest (h : Exchange mine pool mine' pool') : pool' \ mine' = pool \ mine := by
  rw [h.total, Set.union_sdiff_left]
  exact h.free.sdiff_eq_right

theorem exchange_trans (h : Exchange mine pool mine' pool')
    (k : Exchange mine' pool' mine'' pool'') :
    Exchange mine pool mine'' pool'' := by
  constructor
  · rw [k.total, exchange_rest h]
  · rw [← exchange_rest h]
    exact k.free

theorem exchange_sub (h : Exchange mine pool mine' pool') : mine' ⊆ pool' := by
  rw [h.total]
  exact Set.subset_union_left

theorem exchange_give : Exchange mine pool ∅ (pool \ mine) := by
  constructor
  · exact (Set.empty_union _).symm
  · exact Set.empty_disjoint _

theorem exchange_take (h : Disjoint mine pool) : Exchange ∅ pool mine (mine ∪ pool) := by
  constructor
  · rw [Set.sdiff_empty]
  · rwa [Set.sdiff_empty]

theorem held_sub (h : SharedOut held pool) (i : ι) : held i ⊆ pool := by
  rw [h.all]
  exact Set.subset_iUnion held i

section
variable [DecidableEq ι]

theorem iUnion_update (i : ι) (m : Set α) :
    ⋃ j, Function.update held i m j = m ∪ ⋃ (j : ι) (_ : j ≠ i), held j := by
  ext a
  simp only [Set.mem_iUnion, Set.mem_union]
  constructor
  · rintro ⟨j, hj⟩
    by_cases hji : j = i
    · subst hji
      rw [Function.update_self] at hj
      exact Or.inl hj
    · rw [Function.update_of_ne hji] at hj
      exact Or.inr ⟨j, hji, hj⟩
  · rintro (ha | ⟨j, hji, hj⟩)
    · exact ⟨i, by rwa [Function.update_self]⟩
    · exact ⟨j, by rwa [Function.update_of_ne hji]⟩

omit [DecidableEq ι] in
theorem others_eq (h : SharedOut held pool) (i : ι) :
    ⋃ (j : ι) (_ : j ≠ i), held j = pool \ held i := by
  ext a
  simp only [h.all, Set.mem_iUnion, Set.mem_sdiff]
  constructor
  · rintro ⟨j, hji, hj⟩
    exact ⟨⟨j, hj⟩, Set.disjoint_left.mp (h.apart j i hji) hj⟩
  · rintro ⟨⟨j, hj⟩, hi⟩
    refine ⟨j, ?_, hj⟩
    rintro rfl
    exact hi hj

theorem sharedOut_exchange (h : SharedOut held pool) (i : ι)
    (k : Exchange (held i) pool mine' pool') : SharedOut (Function.update held i mine') pool' := by
  have hother : ∀ j, j ≠ i → Disjoint mine' (held j) := by
    intro j hj
    have hrest : held j ⊆ pool \ held i := fun a ha =>
      ⟨held_sub h j ha, Set.disjoint_left.mp (h.apart j i hj) ha⟩
    exact k.free.mono_right hrest
  constructor
  · rw [iUnion_update, others_eq h, k.total]
  · intro a b hab
    by_cases ha : a = i
    · subst ha
      rw [Function.update_self, Function.update_of_ne hab.symm]
      exact hother b hab.symm
    · by_cases hb : b = i
      · subst hb
        rw [Function.update_self, Function.update_of_ne ha]
        exact (hother a ha).symm
      · rw [Function.update_of_ne ha, Function.update_of_ne hb]
        exact h.apart a b hab

theorem sharedOut_handed (h : SharedOut held pool) {i j : ι} (hij : i ≠ j) {part : Set α}
    (hpart : part ⊆ held i) :
    SharedOut (Function.update (Function.update held i (held i \ part)) j
      (part ∪ held j)) pool := by
  have hi := held_sub h i
  have hj := held_sub h j
  have hgive : Exchange (held i) pool (held i \ part) (pool \ part) := by
    constructor
    · ext a
      have hpi := @hpart a
      have hia := @hi a
      simp only [Set.mem_sdiff, Set.mem_union]
      tauto
    · exact Set.disjoint_left.mpr fun a ha hrest => hrest.2 ha.1
  have htake : Exchange (held j) (pool \ part) (part ∪ held j) pool := by
    constructor
    · ext a
      have hpi := @hpart a
      have hia := @hi a
      have hja := @hj a
      simp only [Set.mem_sdiff, Set.mem_union]
      tauto
    · refine Set.disjoint_left.mpr fun a ha hrest => ?_
      rcases ha with hpart | hheld
      · exact hrest.1.2 hpart
      · exact hrest.2 hheld
  refine sharedOut_exchange (sharedOut_exchange h i hgive) j ?_
  rw [Function.update_of_ne hij.symm]
  exact htake

theorem forgotten (h : SharedOut held pool) (i : ι) (hi : (held i).Nonempty) :
    pool ≠ ⋃ j, Function.update held i ∅ j := by
  rw [iUnion_update, others_eq h, Set.empty_union]
  obtain ⟨a, ha⟩ := hi
  intro hpool
  have hmem := held_sub h i ha
  rw [hpool] at hmem
  exact hmem.2 ha

end

end CloudBackup.Ownership
