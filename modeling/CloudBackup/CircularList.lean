import Mathlib

/-!
# Circular doubly linked lists

The links of a heap are two partial maps on its nodes. A circle runs from a
guard through the listed nodes, none of them twice, back to the guard, and the
`prev` links run the same way backwards.
-/

set_option autoImplicit false

namespace CloudBackup.CircularList

variable {α : Type*} {next prev next' prev' : α → Option α} {guard : α} {xs : List α}

def Joined (next prev : α → Option α) (a b : α) : Prop := next a = some b ∧ prev b = some a

structure Circle (next prev : α → Option α) (guard : α) (xs : List α) : Prop where
  nodup : (guard :: xs).Nodup
  joined : (guard :: (xs ++ [guard])).IsChain (Joined next prev)

/-- A chain depends on the `next` links of all its nodes but the last and on the
`prev` links of all but the first. -/
theorem chain_frame {l : List α} (h : l.IsChain (Joined next prev))
    (hn : ∀ a ∈ l.dropLast, next' a = next a)
    (hp : ∀ b ∈ l.tail, prev' b = prev b) : l.IsChain (Joined next' prev') := by
  induction l with
  | nil => exact List.IsChain.nil
  | cons a l ih =>
    cases l with
    | nil => exact List.IsChain.singleton a
    | cons b t =>
      rw [List.isChain_cons_cons] at h ⊢
      rw [List.dropLast_cons_cons] at hn
      constructor
      · constructor
        · rw [hn a List.mem_cons_self]
          exact h.1.1
        · rw [hp b List.mem_cons_self]
          exact h.1.2
      · apply ih h.2
        · exact fun c hc => hn c (List.mem_cons_of_mem a hc)
        · exact fun c hc => hp c (List.mem_cons_of_mem b hc)

theorem circle_empty (hn : next guard = some guard) (hp : prev guard = some guard) :
    Circle next prev guard [] := by
  constructor
  · exact List.nodup_singleton guard
  · exact List.isChain_pair.mpr ⟨hn, hp⟩

theorem circle_congr (h : Circle next prev guard xs) (hn : ∀ a ∈ guard :: xs, next' a = next a)
    (hp : ∀ a ∈ guard :: xs, prev' a = prev a) : Circle next' prev' guard xs := by
  refine ⟨h.nodup, chain_frame h.joined ?_ ?_⟩
  · intro a ha
    rw [← List.cons_append, List.dropLast_concat] at ha
    exact hn a ha
  · intro b hb
    rw [List.tail_cons, List.mem_append, List.mem_singleton] at hb
    exact hp b (List.mem_cons.mpr hb.symm)

theorem circle_first (h : Circle next prev guard xs) :
    ∃ n rest, xs ++ [guard] = n :: rest ∧ Joined next prev guard n := by
  cases xs with
  | nil => exact ⟨guard, [], rfl, List.isChain_pair.mp h.joined⟩
  | cons x xs => exact ⟨x, xs ++ [guard], rfl, (List.isChain_cons_cons.mp h.joined).1⟩

theorem circle_last (h : Circle next prev guard xs) :
    prev guard = some (xs.getLast?.getD guard) := by
  induction xs using List.reverseRecOn with
  | nil => exact (List.isChain_pair.mp h.joined).2
  | append_singleton l x =>
    have hsplit : guard :: (l ++ [x] ++ [guard]) = (guard :: l) ++ x :: guard :: [] := by simp
    have hj := h.joined
    rw [hsplit, List.isChain_append_cons_cons] at hj
    rw [List.getLast?_concat]
    exact hj.2.1.2

structure Spot (next prev : α → Option α) (guard x p n : α) (l r : List α) : Prop where
  left : Joined next prev p x
  right : Joined next prev x n
  before : (guard :: l).getLast? = some p
  after : (r ++ [guard]).head? = some n
  front : (guard :: l).IsChain (Joined next prev)
  back : (r ++ [guard]).IsChain (Joined next prev)

theorem circle_spot {x : α} {l r : List α} (h : Circle next prev guard (l ++ x :: r)) :
    ∃ p n, Spot next prev guard x p n l r := by
  obtain ⟨front, p, hfront⟩ : ∃ front p, guard :: l = front ++ [p] :=
    ⟨(guard :: l).dropLast, (guard :: l).getLast (List.cons_ne_nil guard l),
      (List.dropLast_append_getLast (List.cons_ne_nil guard l)).symm⟩
  obtain ⟨n, back, hback⟩ : ∃ n back, r ++ [guard] = n :: back :=
    List.exists_cons_of_ne_nil (by simp)
  have hj := h.joined
  rw [show guard :: (l ++ x :: r ++ [guard]) = (guard :: l) ++ x ::
    (r ++ [guard]) by simp, hfront, hback,
    List.append_assoc, List.singleton_append, List.isChain_append_cons_cons,
      List.isChain_cons_cons] at hj
  obtain ⟨hbefore, hleft, hright, hafter⟩ := hj
  refine ⟨p, n, hleft, hright, ?_, ?_, ?_, ?_⟩
  · rw [hfront, List.getLast?_concat]
  · rw [hback, List.head?_cons]
  · rw [hfront]
    exact hbefore
  · rw [hback]
    exact hafter

theorem circle_neighbours (h : Circle next prev guard xs) {x : α} (hx : x ∈ xs) :
    ∃ p n, prev x = some p ∧ next x = some n ∧ p ∈ guard :: xs ∧ n ∈ guard :: xs := by
  obtain ⟨l, r, rfl⟩ := List.append_of_mem hx
  obtain ⟨p, n, hspot⟩ := circle_spot h
  have hp : p ∈ guard :: l := List.mem_of_getLast? hspot.before
  have hn : n ∈ r ++ [guard] := List.mem_of_head? hspot.after
  refine ⟨p, n, hspot.left.2, hspot.right.1, ?_, ?_⟩
  · rw [← List.cons_append]
    exact List.mem_append_left _ hp
  · rw [List.mem_append, List.mem_singleton] at hn
    rcases hn with hn | rfl
    · exact List.mem_cons_of_mem guard (List.mem_append_right l (List.mem_cons_of_mem x hn))
    · exact List.mem_cons_self

theorem last_unrepeated {l : List α} {a : α} (hd : l.Nodup) (ha : l.getLast? = some a) :
    a ∉ l.dropLast := by
  rw [← List.dropLast_append_getLast? a ha, List.nodup_append] at hd
  exact fun hm => hd.2.2 a hm a List.mem_cons_self rfl

theorem first_unrepeated {l : List α} {a : α} (hd : l.Nodup) (ha : l.head? = some a) :
    a ∉ l.tail := by
  rw [← List.cons_head?_tail ha, List.nodup_cons] at hd
  exact hd.1

section Splice
variable [DecidableEq α]

theorem circle_unlink (h : Circle next prev guard xs) {x p n : α} (hx : x ∈ xs)
    (hp : prev x = some p)
    (hn : next x = some n) :
    Circle (Function.update next p (some n)) (Function.update prev n (some p)) guard
      (xs.erase x) := by
  obtain ⟨l, r, rfl⟩ := List.append_of_mem hx
  obtain ⟨p', n', hspot⟩ := circle_spot h
  obtain rfl : p' = p := Option.some.inj (hspot.left.2.symm.trans hp)
  obtain rfl : n' = n := Option.some.inj (hspot.right.1.symm.trans hn)
  have hnodup := h.nodup
  rw [← List.cons_append, List.nodup_append] at hnodup
  obtain ⟨hfront, hback, hapart⟩ := hnodup
  have hxl : x ∉ l := fun hm => hapart x (List.mem_cons_of_mem guard hm) x List.mem_cons_self rfl
  rw [List.erase_append_right (x :: r) hxl, List.erase_cons_head]
  have hpl : p' ∈ guard :: l := List.mem_of_getLast? hspot.before
  have hnr : n' ∈ r ++ [guard] := List.mem_of_head? hspot.after
  have hround : (r ++ [guard]).Nodup := by
    rw [List.nodup_append]
    refine ⟨hback.of_cons, List.nodup_singleton guard, ?_⟩
    intro a ha b hb
    rw [List.mem_singleton.mp hb]
    exact (hapart guard List.mem_cons_self a (List.mem_cons_of_mem x ha)).symm
  constructor
  · rw [← List.cons_append, List.nodup_append]
    exact ⟨hfront, hback.of_cons, fun a ha b hb => hapart a ha b (List.mem_cons_of_mem x hb)⟩
  · rw [List.append_assoc, ← List.cons_append, List.isChain_append]
    refine ⟨chain_frame hspot.front ?_ ?_, chain_frame hspot.back ?_ ?_, ?_⟩
    · intro a ha
      apply Function.update_of_ne
      rintro rfl
      exact last_unrepeated hfront hspot.before ha
    · intro b hb
      apply Function.update_of_ne
      rintro rfl
      rcases List.mem_append.mp hnr with hm | hm
      · exact hapart b (List.mem_cons_of_mem guard hb) b (List.mem_cons_of_mem x hm) rfl
      · rw [List.mem_singleton.mp hm] at hb
        exact (List.nodup_cons.mp hfront).1 hb
    · intro a ha
      apply Function.update_of_ne
      rintro rfl
      rw [List.dropLast_concat] at ha
      exact hapart a hpl a (List.mem_cons_of_mem x ha) rfl
    · intro b hb
      apply Function.update_of_ne
      rintro rfl
      exact first_unrepeated hround hspot.after hb
    · intro a ha b hb
      rw [hspot.before] at ha
      rw [hspot.after] at hb
      cases ha
      cases hb
      exact ⟨Function.update_self _ _ _, Function.update_self _ _ _⟩

theorem circle_link (h : Circle next prev guard xs) {x n : α} (hx : x ∉ guard :: xs)
    (hn : next guard = some n) :
    Circle (Function.update (Function.update next x (some n)) guard (some x))
      (Function.update (Function.update prev x (some guard)) n (some x)) guard (x :: xs) := by
  obtain ⟨n', rest, hrest, hfirst⟩ := circle_first h
  obtain rfl : n' = n := Option.some.inj (hfirst.1.symm.trans hn)
  have hxg : x ≠ guard := fun he => hx (he ▸ List.mem_cons_self)
  have hxs : x ∉ xs := fun hm => hx (List.mem_cons_of_mem guard hm)
  have hg : guard ∉ xs := (List.nodup_cons.mp h.nodup).1
  have hround : (n' :: rest).Nodup := by
    rw [← hrest, List.nodup_append]
    refine ⟨h.nodup.of_cons, List.nodup_singleton guard, ?_⟩
    rintro a ha b hb rfl
    rw [List.mem_singleton.mp hb] at ha
    exact hg ha
  have hmem : ∀ a ∈ n' :: rest, a ≠ x := by
    rintro a ha rfl
    rw [← hrest, List.mem_append, List.mem_singleton] at ha
    exact ha.elim hxs hxg
  constructor
  · apply List.nodup_cons.mpr
    constructor
    · exact fun hm => (List.mem_cons.mp hm).elim (fun he => hxg he.symm) hg
    · exact List.nodup_cons.mpr ⟨hxs, h.nodup.of_cons⟩
  · have hchain := h.joined
    rw [hrest, List.isChain_cons_cons] at hchain
    rw [List.cons_append, hrest, List.isChain_cons_cons, List.isChain_cons_cons]
    refine ⟨⟨Function.update_self _ _ _, ?_⟩, ⟨?_, Function.update_self _ _ _⟩, ?_⟩
    · rw [Function.update_of_ne (hmem n' List.mem_cons_self).symm, Function.update_self]
    · rw [Function.update_of_ne hxg, Function.update_self]
    · apply chain_frame hchain.2
      · intro a ha
        rw [← hrest, List.dropLast_concat] at ha
        have hag : a ≠ guard := fun he => hg (he ▸ ha)
        have hax : a ≠ x := fun he => hxs (he ▸ ha)
        rw [Function.update_of_ne hag, Function.update_of_ne hax]
      · intro b hb
        have hbn : b ≠ n' := fun he => (List.nodup_cons.mp hround).1 (he ▸ hb)
        rw [Function.update_of_ne hbn, Function.update_of_ne (hmem b (List.mem_cons_of_mem n' hb))]

theorem circle_outside (h : Circle next prev guard xs) {x : α} (hx : x ∉ guard :: xs)
    (v w : Option α) :
    Circle (Function.update next x v) (Function.update prev x w) guard xs := by
  have hne : ∀ a ∈ guard :: xs, a ≠ x := fun a ha he => hx (he ▸ ha)
  apply circle_congr h
  · exact fun a ha => Function.update_of_ne (hne a ha) _ _
  · exact fun a ha => Function.update_of_ne (hne a ha) _ _

end Splice

end CloudBackup.CircularList
