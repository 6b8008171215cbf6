import Mathlib

/-!
# A service of named contents

What a file service is for, over any names and contents: it lists, fetches,
drops and stores, and upkeep changes nothing. A machine that answers one
call after the other serves these requests when every reply tells what the
service replies, and a relation between the two states is kept.
-/

set_option autoImplicit false

namespace CloudBackup.FileService

section Replies
variable {σ α ρ τ β θ : Type*}

/-- `none` when a call is not survived. -/
def replies (step : σ → α → Option (ρ × σ)) : σ → List α → Option (List ρ × σ)
  | s, [] => some ([], s)
  | s, a::as => (step s a).bind fun r => (replies step r.2 as).map fun q => (r.1::q.1, q.2)

def outcomes (serve : τ → β → θ × τ) : τ → List β → List θ × τ
  | t, [] => ([], t)
  | t, b::bs => ((serve t b).1 :: (outcomes serve (serve t b).2 bs).1,
      (outcomes serve (serve t b).2 bs).2)

/-- Each call asks for the request in its place, in the state that it finds. -/
def Asked (step : σ → α → Option (ρ × σ)) (asks : σ → α → β → Prop) : σ → List α → List β → Prop
  | _, [], [] => True
  | s, a::as, b::bs => asks s a b ∧ ∀ r, step s a = some r → Asked step asks r.2 as bs
  | _, [], _::_ => False
  | _, _::_, [] => False

variable {step : σ → α → Option (ρ × σ)} {serve : τ → β → θ × τ} {asks : σ → α → β → Prop}
  {tells : ρ → θ → Prop} {R : σ → τ → Prop}

/-- Every call is survived, tells the outcome of its request and keeps the relation. -/
def Simulates (step : σ → α → Option (ρ × σ)) (serve : τ → β → θ × τ) (asks : σ → α → β → Prop)
    (tells : ρ → θ → Prop)
    (R : σ → τ → Prop) : Prop :=
  ∀ s t a b, R s t → asks s a b → ∃ r, step s a = some r ∧ tells r.1 (serve t b).1 ∧
    R r.2 (serve t b).2

theorem replies_tell (hstep : Simulates step serve asks tells R) {s : σ} {t : τ} {as : List α}
    {bs : List β}
    (hR : R s t) (hasked : Asked step asks s as bs) :
    ∃ rs u, replies step s as = some (rs, u) ∧ List.Forall₂ tells rs (outcomes serve t bs).1 ∧
      R u (outcomes serve t bs).2 := by
  induction as generalizing s t bs with
  | nil =>
    cases bs with
    | nil => exact ⟨[], s, rfl, List.Forall₂.nil, hR⟩
    | cons b bs => exact hasked.elim
  | cons a as ih =>
    cases bs with
    | nil => exact hasked.elim
    | cons b bs =>
      obtain ⟨hab, hrest⟩ := hasked
      obtain ⟨r, hr, htells, hkept⟩ := hstep s t a b hR hab
      obtain ⟨rs, u, hrun, htold, hlast⟩ := ih hkept (hrest r hr)
      refine ⟨r.1::rs, u, ?_, List.Forall₂.cons htells htold, hlast⟩
      rw [replies, hr, Option.bind_some, hrun]
      rfl

theorem asked_with {P : α → β → Prop} {s : σ} {as : List α} {bs : List β}
    (hasked : Asked step asks s as bs)
    (hP : List.Forall₂ P as bs) : Asked step (fun s a b => asks s a b ∧ P a b) s as bs := by
  induction hP generalizing s with
  | nil => exact trivial
  | cons hab _ ih => exact ⟨⟨hasked.1, hab⟩, fun r hr => ih (hasked.2 r hr)⟩

theorem outcomes_append (t : τ) (bs cs : List β) : outcomes serve t (bs ++ cs) =
    ((outcomes serve t bs).1 ++ (outcomes serve (outcomes serve t bs).2 cs).1,
      (outcomes serve (outcomes serve t bs).2 cs).2) := by
  induction bs generalizing t with
  | nil => rfl
  | cons b bs ih => rw [List.cons_append, outcomes, ih]; rfl

theorem tells_last {t : τ} {bs : List β} {b : β} {rs : List ρ}
    (h : List.Forall₂ tells rs (outcomes serve t (bs ++ [b])).1) :
    ∃ front r, rs = front ++ [r] ∧ tells r (serve (outcomes serve t bs).2 b).1 := by
  rw [outcomes_append] at h
  have hlast := List.forall₂_drop_append _ _ _ h
  obtain ⟨r, rest, hr, hrest, hdrop⟩ := List.forall₂_cons_right_iff.mp hlast
  cases hrest
  exact ⟨_, r, by rw [← hdrop]; exact (List.take_append_drop _ rs).symm, hr⟩

end Replies

section Service
variable {ν κ ι : Type*}

abbrev Files (ν κ : Type*) := ν → Option κ

inductive Request (ν κ : Type*) where
  | list
  | fetch (name : ν)
  | drop (name : ν)
  | store (files : List (ν × κ))
  | upkeep

inductive Reply (ν κ ι : Type*) where
  | listed (sizes : ν → Option ι)
  | fetched (content : Option κ)
  | dropped (done : Bool)
  | stored (taken refused : List ν)
  | done

variable [DecidableEq ν]

/-- One file after the other is taken, unless its name is refused or in use. -/
def storeAll (accepts : ν → Bool) : List (ν × κ) → Files ν κ → (List ν × List ν) × Files ν κ
  | [], f => (([], []), f)
  | (name, content)::rest, f =>
    if accepts name && (f name).isNone then
      let q := storeAll accepts rest (Function.update f name (some content))
      ((name::q.1.1, q.1.2), q.2)
    else
      let q := storeAll accepts rest f
      ((q.1.1, name::q.1.2), q.2)

def serve (accepts : ν → Bool) (size : κ → ι) (f : Files ν κ) :
    Request ν κ → Reply ν κ ι × Files ν κ
  | .list => (.listed fun name => (f name).map size, f)
  | .fetch name => (.fetched (f name), f)
  | .drop name => (.dropped (f name).isSome, Function.update f name none)
  | .store files => (.stored (storeAll accepts files f).1.1 (storeAll accepts files f).1.2,
      (storeAll accepts files f).2)
  | .upkeep => (.done, f)

variable {accepts : ν → Bool} {size : κ → ι}

theorem storeAll_take {name : ν} {content : κ} {rest : List (ν × κ)} {f : Files ν κ}
    (h : (accepts name && (f name).isNone) = true) :
    storeAll accepts ((name, content)::rest) f =
      ((name::(storeAll accepts rest (Function.update f name (some content))).1.1,
        (storeAll accepts rest (Function.update f name (some content))).1.2),
        (storeAll accepts rest (Function.update f name (some content))).2) := by
  rw [storeAll, if_pos h]

theorem storeAll_refuse {name : ν} {content : κ} {rest : List (ν × κ)} {f : Files ν κ}
    (h : (accepts name && (f name).isNone) = false) :
    storeAll accepts ((name, content)::rest) f =
      (((storeAll accepts rest f).1.1, name::(storeAll accepts rest f).1.2),
        (storeAll accepts rest f).2) := by
  rw [storeAll, if_neg (by rw [h]; exact Bool.false_ne_true)]

theorem storeAll_keeps {name : ν} {content : κ} (files : List (ν × κ)) {f : Files ν κ}
    (h : f name = some content) :
    (storeAll accepts files f).2 name = some content := by
  induction files generalizing f with
  | nil => exact h
  | cons file rest ih =>
    obtain ⟨other, c⟩ := file
    cases htake : accepts other && (f other).isNone with
    | false =>
      rw [storeAll_refuse htake]
      exact ih h
    | true =>
      rw [storeAll_take htake]
      apply ih
      have hother : name ≠ other := by
        rintro rfl
        rw [h] at htake
        simp at htake
      rw [Function.update_of_ne hother, h]

theorem serve_keeps {name : ν} {content : κ} {f : Files ν κ} (h : f name = some content)
    {r : Request ν κ}
    (hr : r ≠ .drop name) : (serve accepts size f r).2 name = some content := by
  cases r with
  | list | fetch | upkeep => exact h
  | drop other =>
    have hother : name ≠ other := fun e => hr (by rw [e])
    exact (Function.update_of_ne hother _ _).trans h
  | store files => exact storeAll_keeps files h

theorem outcomes_keeps {name : ν} {content : κ} {f : Files ν κ} (h : f name = some content)
    (rs : List (Request ν κ)) (hrs : Request.drop name ∉ rs) :
    (outcomes (serve accepts size) f rs).2 name = some content := by
  induction rs generalizing f with
  | nil => exact h
  | cons r rs ih =>
    rw [List.mem_cons, not_or] at hrs
    exact ih (serve_keeps h (Ne.symm hrs.1)) hrs.2

/-- The names taken are those of the files that are kept since. -/
theorem storeAll_taken (files : List (ν × κ)) (f : Files ν κ) {name : ν}
    (h : name ∈ (storeAll accepts files f).1.1) :
    accepts name = true ∧ f name = none ∧ ∃ content, (name, content) ∈ files ∧
      (storeAll accepts files f).2 name = some content := by
  induction files generalizing f with
  | nil => cases h
  | cons file rest ih =>
    obtain ⟨other, c⟩ := file
    cases htake : accepts other && (f other).isNone with
    | false =>
      rw [storeAll_refuse htake] at h ⊢
      obtain ⟨hacc, hfree, content, hmem, hkept⟩ := ih f h
      exact ⟨hacc, hfree, content, List.mem_cons_of_mem _ hmem, hkept⟩
    | true =>
      rw [storeAll_take htake] at h ⊢
      obtain ⟨haccepts, hnone⟩ := Bool.and_eq_true_iff.mp htake
      by_cases hname : name = other
      · subst hname
        refine ⟨haccepts, Option.isNone_iff_eq_none.mp hnone, c, List.mem_cons_self, ?_⟩
        exact storeAll_keeps rest (Function.update_self _ _ _)
      · obtain ⟨hacc, hfree, content, hmem, hkept⟩ := ih _ ((List.mem_cons.mp h).resolve_left hname)
        rw [Function.update_of_ne hname] at hfree
        exact ⟨hacc, hfree, content, List.mem_cons_of_mem _ hmem, hkept⟩

end Service

end CloudBackup.FileService
