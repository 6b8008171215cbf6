import CloudBackup.PatternSearch

/-!
# Lines with a two-symbol break

A text is split at every break, and lines without a break of their own come
back from the text they are joined to. A blank line is where the first two
breaks meet when no joined line is empty.
-/

set_option autoImplicit false

namespace CloudBackup.TextLines
open CloudBackup.PatternSearch

variable {α : Type*} [DecidableEq α]

def splitLines (c d : α) : List α → List (List α)
  | x::y::rest =>
    if x = c ∧ y = d then [] :: splitLines c d rest
    else match splitLines c d (y::rest) with
      | [] => [[x]]
      | l::ls => (x::l)::ls
  | s => [s]

def joinLines (c d : α) : List (List α) → List α
  | [] => []
  | [l] => l
  | l::m::ls => l ++ c::d::joinLines c d (m::ls)

omit [DecidableEq α] in
theorem joinLines_cons (c d : α) (l : List α) (ls : List (List α)) (hne : ls ≠ []) :
    joinLines c d (l::ls) = l ++ c::d::joinLines c d ls := by
  cases ls with
  | nil => exact absurd rfl hne
  | cons m ls => rfl

omit [DecidableEq α] in
theorem joinLines_ended (c d : α) (l : List α) (ls : List (List α)) :
    l ++ c::d::(ls.map (· ++ [c, d])).flatten = joinLines c d (l::ls) ++ [c, d] := by
  induction ls generalizing l with
  | nil => simp [joinLines]
  | cons m ls ih =>
    rw [joinLines_cons c d l (m::ls) (List.cons_ne_nil m ls), List.append_assoc, List.cons_append,
      List.cons_append, ← ih m]
    simp

section Break
variable {c d : α} (hcd : c ≠ d)
include hcd

omit [DecidableEq α] in
theorem line_unbroken {l : List α} (hl : ¬ [c, d] <:+: l) (t : List α) (j : ℕ) (hj : j < l.length) :
    ¬ [c, d] <+: (l ++ c::t).drop j := by
  intro hp
  rw [List.drop_append_of_le_length hj.le] at hp
  by_cases hfit : 2 ≤ (l.drop j).length
  · have hin : [c, d] <+: l.drop j := by
      obtain ⟨r, hr⟩ := hp
      refine List.prefix_of_prefix_length_le ⟨r, hr⟩ (List.prefix_append _ _) hfit
    exact hl (hin.isInfix.trans (List.drop_suffix j l).isInfix)
  · have hone : (l.drop j).length = 1 := by
      rw [List.length_drop] at hfit ⊢
      omega
    obtain ⟨x, hx⟩ := List.length_eq_one_iff.mp hone
    rw [hx] at hp
    obtain ⟨-, hp⟩ := List.cons_prefix_cons.mp hp
    obtain ⟨hd, -⟩ := List.cons_prefix_cons.mp hp
    exact hcd hd.symm

theorem splitLines_line {l : List α} (hl : ¬ [c, d] <:+: l) (t : List α) :
    splitLines c d (l ++ c::d::t) = l :: splitLines c d t := by
  induction l with
  | nil => simp [splitLines]
  | cons x l ih =>
    have hrest : ¬ [c, d] <:+: l := fun h => hl (h.trans (List.suffix_cons x l).isInfix)
    have hstart : ¬ [c, d] <+: x::(l ++ c::d::t) := line_unbroken hcd hl (d::t) 0 (Nat.succ_pos _)
    cases l with
    | nil =>
      have hno : ¬ (x = c ∧ c = d) := fun h => hcd h.2
      simp only [List.nil_append] at ih
      simp only [List.cons_append, List.nil_append, splitLines, hno, if_false, and_self, if_true]
    | cons y l =>
      have hno : ¬ (x = c ∧ y = d) := by
        rintro ⟨rfl, rfl⟩
        exact hstart (by simp)
      have hsplit := ih hrest
      rw [List.cons_append] at hsplit
      rw [List.cons_append, List.cons_append, splitLines, if_neg hno, hsplit]

omit hcd in
theorem splitLines_last {l : List α} (hl : ¬ [c, d] <:+: l) : splitLines c d l = [l] := by
  induction l with
  | nil => rfl
  | cons x l ih =>
    have hrest : ¬ [c, d] <:+: l := fun h => hl (h.trans (List.suffix_cons x l).isInfix)
    cases l with
    | nil => rfl
    | cons y l =>
      have hno : ¬ (x = c ∧ y = d) := by
        rintro ⟨rfl, rfl⟩
        exact hl (List.prefix_append [x, y] l).isInfix
      rw [splitLines, if_neg hno, ih hrest]

theorem splitLines_join (ls : List (List α)) (hne : ls ≠ []) (hls : ∀ l ∈ ls, ¬ [c, d] <:+: l) :
    splitLines c d (joinLines c d ls) = ls := by
  induction ls with
  | nil => exact absurd rfl hne
  | cons l ls ih =>
    by_cases hlast : ls = []
    · subst hlast
      exact splitLines_last (hls l List.mem_cons_self)
    · rw [joinLines_cons c d l ls hlast, splitLines_line hcd (hls l List.mem_cons_self),
        ih hlast fun m hm => hls m (List.mem_cons_of_mem l hm)]

theorem find_blank (ls : List (List α)) (hne : ls ≠ []) (hls : ∀ l ∈ ls, l ≠ [] ∧ ¬ [c, d] <:+: l)
    (t : List α) :
    find [c, d, c, d] (joinLines c d ls ++ c::d::c::d::t) = some (joinLines c d ls).length := by
  have hbreak : ∀ s : List α, [c, d, c, d] <+: s → [c, d] <+: s := fun s hs =>
    (List.prefix_append [c, d] [c, d]).trans hs
  induction ls with
  | nil => exact absurd rfl hne
  | cons l ls ih =>
    have hunbroken := line_unbroken hcd (hls l List.mem_cons_self).2
    by_cases hlast : ls = []
    · subst hlast
      apply find_eq_some
      · simp [joinLines]
      · intro j hj hp
        exact hunbroken (d::c::d::t) j hj (hbreak _ hp)
    · have hrest := ih hlast fun m hm => hls m (List.mem_cons_of_mem l hm)
      rw [joinLines_cons c d l ls hlast, List.append_assoc, List.cons_append, List.cons_append]
      obtain ⟨u, hu⟩ : ∃ u, u = joinLines c d ls ++ c::d::c::d::t := ⟨_, rfl⟩
      have hstart : ¬ [c, d] <+: u := by
        obtain ⟨m, ms, rfl⟩ := List.exists_cons_of_ne_nil hlast
        obtain ⟨hm, hclean⟩ := hls m (List.mem_cons_of_mem l List.mem_cons_self)
        have hfirst : ∃ v, u = m ++ c::v := by
          rw [hu]
          by_cases hms : ms = []
          · exact ⟨d::c::d::t, by rw [hms, joinLines]⟩
          · exact ⟨d::(joinLines c d ms ++ c::d::c::d::t), by
              rw [joinLines_cons c d m ms hms]; simp⟩
        obtain ⟨v, hv⟩ := hfirst
        rw [hv]
        exact line_unbroken hcd hclean v 0 (List.length_pos_iff.mpr hm)
      rw [← hu] at hrest ⊢
      have hskip : ∀ j < l.length+2, ¬ [c, d, c, d] <+: (l ++ c::d::u).drop j := by
        intro j hj hp
        by_cases hin : j < l.length
        · exact hunbroken (d::u) j hin (hbreak _ hp)
        · rw [List.drop_append, List.drop_eq_nil_of_le (by omega), List.nil_append] at hp
          have hcases : j-l.length = 0 ∨ j-l.length = 1 := by omega
          cases hcases with
          | inl h0 =>
            rw [h0] at hp
            have htail := (List.cons_prefix_cons.mp (List.cons_prefix_cons.mp hp).2).2
            exact hstart htail
          | inr h1 =>
            rw [h1] at hp
            exact hcd (List.cons_prefix_cons.mp hp).1
      have hdrop : (l ++ c::d::u).drop (l.length+2) = u := by
        simp
      rw [find_drop [c, d, c, d] (l ++ c::d::u) (l.length+2) hskip, hdrop, hrest]
      simp only [Option.map_some, List.length_append, List.length_cons]
      congr 1
      omega

end Break

theorem splitLines_front {c d : α} (s l : List α) (ls : List (List α))
    (h : splitLines c d s = l::ls) : l <+: s := by
  induction s using splitLines.induct c d generalizing l ls with
  | case1 x y rest hbreak ih =>
    rw [splitLines, if_pos hbreak] at h
    cases h
    exact List.nil_prefix
  | case2 x y rest hno hnone ih =>
    rw [splitLines, if_neg hno, hnone] at h
    cases h
    exact List.prefix_append [x] (y::rest)
  | case3 x y rest hno m ms hmore ih =>
    rw [splitLines, if_neg hno, hmore] at h
    cases h
    exact (List.prefix_cons_inj x).mpr (ih m ms hmore)
  | case4 s hshort =>
    rw [splitLines] at h
    · cases h
      exact List.prefix_refl s
    · exact hshort

theorem splitLines_clean {c d : α} (s : List α) : ∀ l ∈ splitLines c d s, ¬ [c, d] <:+: l := by
  induction s using splitLines.induct c d with
  | case1 x y rest hbreak ih =>
    intro l hl
    rw [splitLines, if_pos hbreak] at hl
    cases List.mem_cons.mp hl with
    | inl h0 => simp [h0]
    | inr hr => exact ih l hr
  | case2 x y rest hno hnone ih =>
    intro l hl
    rw [splitLines, if_neg hno, hnone, List.mem_singleton] at hl
    subst hl
    intro hin
    have hlen := hin.length_le
    simp at hlen
  | case3 x y rest hno m ms hmore ih =>
    rw [hmore] at ih
    intro l hl
    rw [splitLines, if_neg hno, hmore] at hl
    cases List.mem_cons.mp hl with
    | inl h0 =>
      subst h0
      intro hin
      cases List.infix_cons_iff.mp hin with
      | inl hp =>
        have hfront : [c, d] <+: x::y::rest :=
          hp.trans ((List.prefix_cons_inj x).mpr (splitLines_front _ _ _ hmore))
        obtain ⟨hx, htail⟩ := List.cons_prefix_cons.mp hfront
        exact hno ⟨hx.symm, (List.cons_prefix_cons.mp htail).1.symm⟩
      | inr hin => exact ih m List.mem_cons_self hin
    | inr hr => exact ih l (List.mem_cons_of_mem m hr)
  | case4 s hshort =>
    intro l hl hin
    rw [splitLines] at hl
    · rw [List.mem_singleton] at hl
      subst hl
      have hlen := hin.length_le
      match l, hshort with
      | [], _ => simp at hlen
      | [_], _ => simp at hlen
      | x::y::rest, hshort => exact hshort x y rest rfl
    · exact hshort

end CloudBackup.TextLines
