import Mathlib

/-!
# Runs of a labelled step function

A run is a list of labels read from a starting state; a label that is not
enabled ends it. A predicate holds throughout a run when every state passed
satisfies it, and a condition is met throughout when it holds of every
state and label at which a step is taken.
-/

set_option autoImplicit false

namespace CloudBackup.RunInvariants

variable {σ ι : Type*} (step : σ → ι → Option σ)

def run : σ → List ι → Option σ
  | s, [] => some s
  | s, i::is => (step s i).bind fun t => run t is

def Throughout (P : σ → Prop) : σ → List ι → Prop
  | s, [] => P s
  | s, i::is => P s ∧ ∀ t, step s i = some t → Throughout P t is

def Meets (C : σ → ι → Prop) : σ → List ι → Prop
  | _, [] => True
  | s, i::is => ∀ t, step s i = some t → C s i ∧ Meets C t is

variable {step}

theorem run_append (s : σ) (is js : List ι) :
    run step s (is ++ js) = (run step s is).bind fun t => run step t js := by
  induction is generalizing s with
  | nil => rfl
  | cons i is ih =>
    simp only [List.cons_append, run, Option.bind_assoc]
    exact congrArg _ (funext ih)

theorem throughout_start {P : σ → Prop} {s : σ} {is : List ι} (h : Throughout step P s is) :
    P s := by
  cases is with
  | nil => exact h
  | cons i is => exact h.1

theorem throughout_mono {P Q : σ → Prop} (hpq : ∀ s, P s → Q s) {s : σ} {is : List ι}
    (h : Throughout step P s is) : Throughout step Q s is := by
  induction is generalizing s with
  | nil => exact hpq s h
  | cons i is ih => exact ⟨hpq s h.1, fun t ht => ih (h.2 t ht)⟩

theorem meets_mono {C D : σ → ι → Prop} (hcd : ∀ s i, C s i → D s i) {s : σ} {is : List ι}
    (h : Meets step C s is) : Meets step D s is := by
  induction is generalizing s with
  | nil => trivial
  | cons i is ih => exact fun t ht => ⟨hcd s i (h t ht).1, ih (h t ht).2⟩

theorem throughout_run {P : σ → Prop} {s t : σ} {is : List ι}
    (h : Throughout step P s is) (hr : run step s is = some t) : P t := by
  induction is generalizing s with
  | nil =>
    cases hr
    exact h
  | cons i is ih =>
    obtain ⟨u, hu, hrest⟩ := Option.bind_eq_some_iff.mp hr
    exact ih (h.2 u hu) hrest

theorem invariant_throughout {I : σ → Prop} {C : σ → ι → Prop}
    (hstep : ∀ s i t, I s → C s i → step s i = some t → I t) {s : σ} {is : List ι}
    (hs : I s) (hc : Meets step C s is) : Throughout step I s is := by
  induction is generalizing s with
  | nil => exact hs
  | cons i is ih =>
    refine ⟨hs, fun t ht => ?_⟩
    obtain ⟨hci, hcs⟩ := hc t ht
    exact ih (hstep s i t hs hci ht) hcs

theorem meets_trivial (s : σ) (is : List ι) : Meets step (fun _ _ => True) s is := by
  induction is generalizing s with
  | nil => trivial
  | cons i is ih => exact fun t _ => ⟨trivial, ih t⟩

theorem meets_mem {C : ι → Prop} (s : σ) {is : List ι} (h : ∀ i ∈ is, C i) :
    Meets step (fun _ i => C i) s is := by
  induction is generalizing s with
  | nil => trivial
  | cons i is ih => exact fun t _ =>
    ⟨h i List.mem_cons_self, ih t fun j hj => h j (List.mem_cons_of_mem i hj)⟩

theorem meets_append {C : σ → ι → Prop} {s : σ} {is js : List ι} (hs : Meets step C s is)
    (ht : ∀ t, run step s is = some t → Meets step C t js) : Meets step C s (is ++ js) := by
  induction is generalizing s with
  | nil => exact ht s rfl
  | cons i is ih =>
    intro u hu
    refine ⟨(hs u hu).1, ih (hs u hu).2 fun t hr => ht t ?_⟩
    rw [run, hu, Option.bind_some]
    exact hr

theorem meets_and {C D : σ → ι → Prop} {s : σ} {is : List ι} (hc : Meets step C s is)
    (hd : Meets step D s is) : Meets step (fun s i => C s i ∧ D s i) s is := by
  induction is generalizing s with
  | nil => trivial
  | cons i is ih => exact fun t ht => ⟨⟨(hc t ht).1, (hd t ht).1⟩, ih (hc t ht).2 (hd t ht).2⟩

/-- The exactness rule, in runs whose steps meet `D`. `I` is kept by every step
that meets the condition `C` and implies `P`; a step that misses `C` leads out of
`P`. Then `P` holds throughout a run exactly when each of its steps meets `C`. -/
theorem throughout_iff_meets_under {I P : σ → Prop} {C D : σ → ι → Prop}
    (himp : ∀ s, I s → P s)
    (hkeep : ∀ s i t, I s → D s i → C s i → step s i = some t → I t)
    (hbreak : ∀ s i t, I s → D s i → ¬ C s i → step s i = some t → ¬ P t)
    {s : σ} {is : List ι} (hs : I s) (hd : Meets step D s is) :
    Throughout step P s is ↔ Meets step C s is := by
  constructor
  · intro h
    induction is generalizing s with
    | nil => trivial
    | cons i is ih =>
      intro t ht
      have hrest := h.2 t ht
      obtain ⟨hdi, hds⟩ := hd t ht
      have hci : C s i := by
        by_contra hn
        exact hbreak s i t hs hdi hn ht (throughout_start hrest)
      exact ⟨hci, ih (hkeep s i t hs hdi hci ht) hds hrest⟩
  · intro h
    have hkeep' : ∀ s i t, I s → C s i ∧ D s i → step s i = some t → I t :=
      fun s i t hi hcd ht => hkeep s i t hi hcd.2 hcd.1 ht
    exact throughout_mono himp (invariant_throughout hkeep' hs (meets_and h hd))

theorem throughout_iff_meets {I P : σ → Prop} {C : σ → ι → Prop}
    (himp : ∀ s, I s → P s)
    (hkeep : ∀ s i t, I s → C s i → step s i = some t → I t)
    (hbreak : ∀ s i t, I s → ¬ C s i → step s i = some t → ¬ P t)
    {s : σ} {is : List ι} (hs : I s) :
    Throughout step P s is ↔ Meets step C s is :=
  throughout_iff_meets_under himp (fun s i t hi _ hc ht => hkeep s i t hi hc ht)
    (fun s i t hi _ hc ht => hbreak s i t hi hc ht) hs (meets_trivial s is)

/-- On a given run the condition can be evaluated. -/
instance decidableMeets (C : σ → ι → Prop) [∀ s i, Decidable (C s i)] :
    (s : σ) → (is : List ι) → Decidable (Meets step C s is)
  | _, [] => isTrue trivial
  | s, i::is =>
    match h : step s i with
    | none => isTrue fun t ht => by rw [h] at ht; cases ht
    | some t =>
      have := decidableMeets C t is
      decidable_of_iff (C s i ∧ Meets step C t is)
        ⟨fun hc u hu => by rw [h] at hu; cases hu; exact hc, fun hc => hc t h⟩

theorem run_length_le {C : ι → Prop} (work : σ → ℕ)
    (hless : ∀ s i t, C i → step s i = some t → work t < work s)
    {s t : σ} {is : List ι} (hC : ∀ i ∈ is, C i) (h : run step s is = some t) :
    is.length+work t ≤ work s := by
  induction is generalizing s with
  | nil =>
    cases h
    simp
  | cons i is ih =>
    obtain ⟨u, hu, hrest⟩ := Option.bind_eq_some_iff.mp h
    have hstep := hless s i u (hC i List.mem_cons_self) hu
    have hlater := ih (fun j hj => hC j (List.mem_cons_of_mem i hj)) hrest
    rw [List.length_cons]
    omega

def Reaches (step : σ → ι → Option σ) (s t : σ) : Prop := ∃ is, run step s is = some t

theorem reaches_run {s t : σ} (is : List ι) (h : run step s is = some t) : Reaches step s t :=
  ⟨is, h⟩

theorem reaches_trans {s t u : σ} (h : Reaches step s t) (k : Reaches step t u) :
    Reaches step s u := by
  obtain ⟨is, his⟩ := h
  obtain ⟨js, hjs⟩ := k
  refine ⟨is ++ js, ?_⟩
  rw [run_append, his]
  exact hjs

theorem reaches_stage {P : ℕ → σ → Prop} {n : ℕ}
    (hnext : ∀ i < n, ∀ s, P i s → ∃ t, Reaches step s t ∧ P (i+1) t) {s : σ} (hs : P 0 s) :
    ∃ t, Reaches step s t ∧ P n t := by
  induction n with
  | zero => exact ⟨s, reaches_run [] rfl, hs⟩
  | succ n ih =>
    obtain ⟨t, hst, ht⟩ := ih fun i hi => hnext i (Nat.lt_succ_of_lt hi)
    obtain ⟨u, htu, hu⟩ := hnext n (Nat.lt_succ_self n) t ht
    exact ⟨u, reaches_trans hst htu, hu⟩

end CloudBackup.RunInvariants
