import Mathlib

/-!
# First occurrence of a pattern

Offsets are counted from the left end of the text. A text may be searched
before all of it has arrived: the lemmas say which part of it can be given
away without moving the first occurrence.
-/

set_option autoImplicit false

namespace CloudBackup.PatternSearch

variable {α : Type*} [DecidableEq α]

def find (pat : List α) : List α → Option ℕ
  | [] => if pat = [] then some 0 else none
  | c::cs => if pat <+: c::cs then some 0 else (find pat cs).map (· + 1)

def findFrom (pat : List α) (pos : ℕ) (s : List α) : Option ℕ :=
  if s.length < pos then none else (find pat (s.drop pos)).map (· + pos)

theorem find_at_start (pat s : List α) (h : pat <+: s) : find pat s = some 0 := by
  cases s with
  | nil => simp [find, List.prefix_nil.mp h]
  | cons c cs => simp [find, h]

theorem find_cons_skip (pat : List α) (c : α) (cs : List α)
    (h : ¬ pat <+: c::cs) : find pat (c::cs) = (find pat cs).map (· + 1) := by
  simp [find, h]

theorem find_occurs (pat s : List α) (i : ℕ) (h : find pat s = some i) :
    pat <+: s.drop i := by
  induction s generalizing i with
  | nil =>
    by_cases hp : pat = []
    · simp [hp]
    · simp [find, hp] at h
  | cons c cs ih =>
    by_cases hp : pat <+: c::cs
    · rw [find_at_start pat _ hp] at h
      cases h
      exact hp
    · rw [find_cons_skip pat c cs hp] at h
      obtain ⟨j, hj, rfl⟩ := Option.map_eq_some_iff.mp h
      exact ih j hj

theorem find_le (pat s : List α) (i : ℕ) (h : find pat s = some i) :
    i + pat.length ≤ s.length := by
  induction s generalizing i with
  | nil =>
    by_cases hp : pat = []
    · simp_all [find]
    · simp [find, hp] at h
  | cons c cs ih =>
    by_cases hp : pat <+: c::cs
    · rw [find_at_start pat _ hp] at h
      cases h
      simpa using hp.length_le
    · rw [find_cons_skip pat c cs hp] at h
      obtain ⟨j, hj, rfl⟩ := Option.map_eq_some_iff.mp h
      have := ih j hj
      simp only [List.length_cons]
      omega

theorem find_first (pat s : List α) (i j : ℕ) (h : find pat s = some i) (hj : j < i) :
    ¬ pat <+: s.drop j := by
  induction s generalizing i j with
  | nil =>
    have := find_le pat [] i h
    simp only [List.length_nil] at this
    omega
  | cons c cs ih =>
    by_cases hp : pat <+: c::cs
    · rw [find_at_start pat _ hp] at h
      cases h
      omega
    · rw [find_cons_skip pat c cs hp] at h
      obtain ⟨k, hk, rfl⟩ := Option.map_eq_some_iff.mp h
      cases j with
      | zero => exact hp
      | succ j => exact ih k j hk (by omega)

theorem find_none (pat s : List α) (h : find pat s = none) (j : ℕ) :
    ¬ pat <+: s.drop j := by
  induction s generalizing j with
  | nil =>
    by_cases hp : pat = []
    · simp [find, hp] at h
    · simpa [List.prefix_nil] using hp
  | cons c cs ih =>
    by_cases hp : pat <+: c::cs
    · simp [find_at_start pat _ hp] at h
    · rw [find_cons_skip pat c cs hp, Option.map_eq_none_iff] at h
      cases j with
      | zero => exact hp
      | succ j => exact ih h j

theorem find_eq_some (pat s : List α) (i : ℕ) (hi : pat <+: s.drop i)
    (hlt : ∀ j < i, ¬ pat <+: s.drop j) : find pat s = some i := by
  cases hf : find pat s with
  | none => exact absurd hi (find_none pat s hf i)
  | some k =>
    have hk := find_occurs pat s k hf
    rcases lt_trichotomy k i with h | h | h
    · exact absurd hk (hlt k h)
    · rw [h]
    · exact absurd hi (find_first pat s k i hf h)

theorem find_eq_none (pat s : List α) (h : ∀ j, ¬ pat <+: s.drop j) : find pat s = none := by
  cases hf : find pat s with
  | none => rfl
  | some k => exact absurd (find_occurs pat s k hf) (h k)

theorem find_append (pat s t : List α) (i : ℕ) (h : find pat s = some i) :
    find pat (s ++ t) = some i := by
  have hle := find_le pat s i h
  have hocc : ∀ j ≤ i, (pat <+: (s ++ t).drop j ↔ pat <+: s.drop j) := by
    intro j hj
    rw [List.drop_append_of_le_length (by omega)]
    constructor
    · intro hp
      exact List.prefix_of_prefix_length_le hp (List.prefix_append _ _)
        (by rw [List.length_drop]; omega)
    · intro hp
      exact hp.trans (List.prefix_append _ _)
  exact find_eq_some pat _ i ((hocc i le_rfl).mpr (find_occurs pat s i h))
    (fun j hj hp => find_first pat s i j h hj ((hocc j hj.le).mp hp))

/-- Letting go of a part in which no occurrence starts only shifts the answer. -/
theorem find_drop (pat s : List α) (k : ℕ) (h : ∀ j < k, ¬ pat <+: s.drop j) :
    find pat s = (find pat (s.drop k)).map (· + k) := by
  induction k generalizing s with
  | zero => simp
  | succ k ih =>
    cases s with
    | nil =>
      have hp : pat ≠ [] := by
        rintro rfl
        exact h 0 (by omega) (List.nil_prefix)
      simp [find, hp]
    | cons c cs =>
      have hc : ¬ pat <+: c::cs := h 0 (by omega)
      rw [find_cons_skip pat c cs hc, ih cs (fun j hj => h (j + 1) (by omega))]
      simp [Function.comp_def, Nat.add_assoc]

/-- In a text without the pattern only the last `pat.length - 1` symbols can
belong to an occurrence completed by what follows. -/
theorem find_drop_append (pat s t : List α) (k : ℕ) (hs : find pat s = none)
    (hk : k + pat.length ≤ s.length + 1) :
    find pat (s ++ t) = (find pat (s.drop k ++ t)).map (· + k) := by
  have hk' : k ≤ s.length := by
    by_contra hlt
    have hp : pat = [] := List.length_eq_zero_iff.mp (by omega)
    exact find_none pat s hs 0 (hp ▸ List.nil_prefix)
  rw [← List.drop_append_of_le_length hk']
  apply find_drop
  intro j hj hp
  rw [List.drop_append_of_le_length (by omega)] at hp
  exact find_none pat s hs j (List.prefix_of_prefix_length_le hp (List.prefix_append _ _)
    (by rw [List.length_drop]; omega))

/-- A pattern whose first symbol does not recur in it has no border, so it is
found exactly behind any text it does not occur in. -/
theorem find_behind (c : α) (cs s t : List α) (hc : c ∉ cs) (hs : find (c::cs) s = none) :
    find (c::cs) (s ++ ((c::cs) ++ t)) = some s.length := by
  apply find_eq_some
  · simp
  · intro j hj hp
    rw [List.drop_append_of_le_length hj.le] at hp
    by_cases hfit : (c::cs).length ≤ (s.drop j).length
    · exact find_none _ s hs j (List.prefix_of_prefix_length_le hp (List.prefix_append _ _) hfit)
    · -- The occurrence would reach into the pattern behind `s` and repeat its head there.
      have hlen : (s.drop j).length = s.length - j := List.length_drop
      obtain ⟨r, hr⟩ := hp
      have hget := congrArg (fun l => l[s.length - j]?) hr
      simp only [List.length_cons] at hfit
      have hpos : s.length - j = (s.length - j - 1) + 1 := by omega
      rw [List.getElem?_append_left (by simp only [List.length_cons]; omega),
        List.getElem?_append_right (by omega), hlen, Nat.sub_self] at hget
      rw [hpos, List.getElem?_cons_succ] at hget
      simp only [List.cons_append, List.getElem?_cons_zero] at hget
      exact hc (List.mem_of_getElem? hget)

theorem find_append_left (pat s t : List α) (i : ℕ) (h : find pat (s ++ t) = some i)
    (hi : i + pat.length ≤ s.length) : find pat s = some i := by
  have hle : ∀ j ≤ i, (s ++ t).drop j = s.drop j ++ t := fun j hj =>
    List.drop_append_of_le_length (by omega)
  apply find_eq_some
  · have hp := find_occurs pat _ i h
    rw [hle i le_rfl] at hp
    exact List.prefix_of_prefix_length_le hp (List.prefix_append _ _)
      (by rw [List.length_drop]; omega)
  · intro j hj hp
    apply find_first pat _ i j h hj
    rw [hle j hj.le]
    exact hp.trans (List.prefix_append _ _)

theorem find_getElem (pat s : List α) (i j : ℕ) (h : find pat s = some i) (hj : j < pat.length) :
    s[i+j]? = pat[j]? := by
  obtain ⟨r, hr⟩ := find_occurs pat s i h
  rw [← List.getElem?_drop, ← hr, List.getElem?_append_left hj]

theorem find_eq_none_of_absent (pat s : List α) (h : ¬ pat <:+: s) : find pat s = none := by
  apply find_eq_none
  intro j hp
  exact h (hp.isInfix.trans (List.drop_suffix j s).isInfix)

theorem not_infix_iff (pat s : List α) : ¬ pat <:+: s ↔ find pat s = none := by
  constructor
  · exact find_eq_none_of_absent pat s
  · rintro hnone ⟨u, v, rfl⟩
    apply find_none pat _ hnone u.length
    simp

theorem find_eq_none_of_clean (c : α) (cs s : List α) (hc : c ∉ s) : find (c::cs) s = none :=
  find_eq_none_of_absent _ _ fun h => hc (h.subset (by simp))

theorem find_clean_append (c : α) (cs s t : List α) (hc : c ∉ s) :
    find (c::cs) (s ++ t) = (find (c::cs) t).map (· + s.length) := by
  have hdrop : (s ++ t).drop s.length = t := by simp
  rw [find_drop (c::cs) (s ++ t) s.length, hdrop]
  intro j hj hp
  rw [List.drop_append_of_le_length hj.le] at hp
  have hlen : 0 < (s.drop j).length := by
    rw [List.length_drop]
    omega
  obtain ⟨d, ds, hd⟩ := List.exists_cons_of_length_pos hlen
  rw [hd, List.cons_append] at hp
  have hmem : d ∈ s := List.mem_of_mem_drop (by rw [hd]; exact List.mem_cons_self)
  exact hc ((List.cons_prefix_cons.mp hp).1 ▸ hmem)

theorem find_after_clean (c : α) (cs s t : List α) (hc : c ∉ s) :
    find (c::cs) (s ++ ((c::cs) ++ t)) = some s.length := by
  rw [find_clean_append c cs s _ hc, find_at_start _ _ (List.prefix_append _ _), Option.map_some,
    Nat.zero_add]

theorem find_behind_break (pat s t : List α) (c : α) (hc : c ∉ pat) (hne : pat ≠ [])
    (hs : find pat s = none) : find pat (s ++ c::t) = (find pat t).map (· + (s.length+1)) := by
  have hdrop : (s ++ c::t).drop (s.length+1) = t := by simp
  rw [find_drop pat (s ++ c::t) (s.length+1), hdrop]
  intro j hj hp
  rw [List.drop_append_of_le_length (by omega)] at hp
  by_cases hfit : pat.length ≤ (s.drop j).length
  · exact find_none pat s hs j (List.prefix_of_prefix_length_le hp (List.prefix_append _ _) hfit)
  · have hpos := List.length_pos_iff.mpr hne
    obtain ⟨r, hr⟩ := hp
    have hget := congrArg (fun l => l[(s.drop j).length]?) hr
    rw [List.getElem?_append_left (by omega), List.getElem?_append_right le_rfl, Nat.sub_self,
      List.getElem?_cons_zero] at hget
    exact hc (List.mem_of_getElem? hget)

/-- An occurrence cannot begin before a symbol `c` that is not in the pattern
when the text before `c` lacks a symbol of it. -/
theorem find_behind_symbol (pat s t : List α) (c q : α) (hc : c ∉ pat) (hq : q ∈ pat)
    (hs : q ∉ s) : find pat (s ++ c::t) = (find pat t).map (· + (s.length+1)) := by
  apply find_behind_break pat s t c hc (List.ne_nil_of_mem hq)
  exact find_eq_none_of_absent pat s fun h => hs (h.subset hq)

theorem find_skip_line (c d x : α) (cs s t : List α) (hc : c ∉ s) (hd : d ≠ c) (hx : x ≠ c) :
    find (c::d::c::cs) (s ++ c::d::x::t) =
      (find (c::d::c::cs) (x::t)).map (· + (s.length+2)) := by
  induction s with
  | nil =>
    have h0 : ¬ (c::d::c::cs) <+: c::d::x::t := by
      simp [List.cons_prefix_cons, Ne.symm hx]
    have h1 : ¬ (c::d::c::cs) <+: d::x::t := by
      simp [List.cons_prefix_cons, Ne.symm hd]
    rw [List.nil_append, find_cons_skip _ _ _ h0, find_cons_skip _ _ _ h1,
      Option.map_map]
    rfl
  | cons y ys ih =>
    have hy : c ≠ y := fun h => hc (by simp [h])
    have hnot : ¬ (c::d::c::cs) <+: y::(ys ++ c::d::x::t) :=
      fun h => hy (List.cons_prefix_cons.mp h).1
    rw [List.cons_append, find_cons_skip _ _ _ hnot, ih (fun h => hc (by simp [h])),
      Option.map_map]
    rfl

theorem find_ended (cs : List α) (c : α) (front s t : List α) (hc : c ∉ s) (hs : cs <:+ s) :
    find (cs ++ [c]) (front ++ (s ++ c::t)) = some (front.length+(s.length-cs.length)) ↔
      ¬ (cs ++ [c]) <:+: front := by
  obtain ⟨r, rfl⟩ := hs
  have hpos : (r ++ cs).length-cs.length = r.length := by simp
  rw [hpos]
  constructor
  · rintro hfind ⟨u, v, rfl⟩
    apply find_first _ _ _ u.length hfind
    · simp
      omega
    · simp
  · intro hfront
    apply find_eq_some
    · simp
    · intro j hj hp
      obtain ⟨w, hw⟩ := hp
      -- the last symbol of the occurrence is a `c`, so it lies in the front
      have hlast : (front ++ (r ++ cs ++ c::t))[j+cs.length]? = some c := by
        rw [← List.getElem?_drop, ← hw]
        simp
      have hin : j+cs.length < front.length := by
        by_contra hout
        rw [List.getElem?_append_right (not_lt.mp hout),
          List.getElem?_append_left (by simp; omega)] at hlast
        exact hc (List.mem_of_getElem? hlast)
      apply hfront
      have hfit : (cs ++ [c]).length ≤ (front.drop j).length := by
        simp
        omega
      rw [List.drop_append_of_le_length (by omega)] at hw
      have hpre : cs ++ [c] <+: front.drop j :=
        List.prefix_of_prefix_length_le ⟨w, hw⟩ (List.prefix_append _ _) hfit
      exact hpre.isInfix.trans (List.drop_suffix j front).isInfix

section From
variable {pat s : List α} {pos n : ℕ}

theorem findFrom_eq_some : findFrom pat pos s = some n ↔
    pos ≤ s.length ∧ ∃ m, find pat (s.drop pos) = some m ∧ n = pos+m := by
  unfold findFrom
  split_ifs with hpos
  · simp [hpos]
  · simp [not_lt.mp hpos, eq_comm, Nat.add_comm]

theorem findFrom_ge (h : findFrom pat pos s = some n) : pos ≤ n := by
  obtain ⟨-, m, -, rfl⟩ := findFrom_eq_some.mp h
  exact Nat.le_add_right pos m

theorem findFrom_within (h : findFrom pat pos s = some n) : pos ≤ s.length :=
  (findFrom_eq_some.mp h).1

theorem findFrom_le (h : findFrom pat pos s = some n) : n+pat.length ≤ s.length := by
  obtain ⟨hpos, m, hm, rfl⟩ := findFrom_eq_some.mp h
  have hle := find_le pat _ m hm
  rw [List.length_drop] at hle
  omega

theorem findFrom_symbol {c : α} (h : findFrom [c] pos s = some n) : c ∈ s.drop pos := by
  obtain ⟨-, m, hm, -⟩ := findFrom_eq_some.mp h
  obtain ⟨t, ht⟩ := find_occurs _ _ _ hm
  apply List.mem_of_mem_drop (i := m)
  rw [← ht]
  exact List.mem_cons_self

end From

end CloudBackup.PatternSearch
