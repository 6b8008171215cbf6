import CloudBackup.LockPrograms

/-!
# Locks taken in order

Threads whose programs take their locks in one order, sleep with nothing else
in their hands and notify whenever they make the awaited condition true: as
long as a call can go on at all some call does, every call comes to its end,
and nobody sleeps through the condition.
-/

set_option autoImplicit false

namespace CloudBackup.LockProgress
open CloudBackup.RunInvariants CloudBackup.LockPrograms

variable {κ σ ρ γ ε : Type} {n : ℕ} [DecidableEq κ]

/-- A lock comes after those in hand, and nothing is in hand at the end. -/
def Ordered (rank : κ → ℕ) : Held κ → Program κ σ ρ → Prop
  | held, .ret _ => held = []
  | held, .acquire k m rest => (∀ h ∈ held, rank h.1 < rank k) ∧ Ordered rank ((k, m)::held) rest
  | held, .release k rest => Ordered rank (without k held) rest
  | held, .act _ rest => ∀ s, Ordered rank held (rest s)
  | held, .await k m rest => held = [(k, m)] ∧ Ordered rank [(k, m)] rest
  | held, .notify rest => Ordered rank held rest

omit [DecidableEq κ] in
/-- An action that makes the condition true is followed by a notification. -/
def Announces (ready : σ → Bool) : Program κ σ ρ → Prop
  | .ret _ => True
  | .acquire _ _ rest => Announces ready rest
  | .release _ rest => Announces ready rest
  | .act update rest => ∀ s, Announces ready (rest s) ∧
      (ready (update s) = true → ready s = true ∨ ∃ q, rest s = .notify q)
  | .await _ _ rest => Announces ready rest
  | .notify rest => Announces ready rest

structure Disciplined (rank : κ → ℕ) (ready : σ → Bool) (held : Held κ)
    (p : Program κ σ ρ) : Prop where
  ordered : Ordered rank held p
  announces : Announces ready p

omit [DecidableEq κ] in
def Sleepless : Program κ σ ρ → Prop
  | .ret _ => True
  | .acquire _ _ rest => Sleepless rest
  | .release _ rest => Sleepless rest
  | .act _ rest => ∀ s, Sleepless (rest s)
  | .await _ _ _ => False
  | .notify rest => Sleepless rest

def Good (rank : κ → ℕ) (ready : σ → Bool) : Thread κ σ ρ → Prop
  | .idle => True
  | .running held p => Disciplined rank ready held p
  | .asleep held k m rest => held = [] ∧ Disciplined rank ready [(k, m)] rest
  | .notified held k m rest => held = [] ∧ Disciplined rank ready [(k, m)] rest

def Busy : Thread κ σ ρ → Prop
  | .idle => True
  | .running _ p => Sleepless p
  | _ => False

def sleeps : Thread κ σ ρ → Prop
  | .asleep .. => True
  | _ => False

instance (thread : Thread κ σ ρ) : Decidable (sleeps thread) :=
  match thread with
  | .asleep .. => isTrue trivial
  | .idle => isFalse id
  | .running .. => isFalse id
  | .notified .. => isFalse id

instance (thread : Thread κ σ ρ) : Decidable (thread = .idle) :=
  match thread with
  | .idle => isTrue rfl
  | .asleep .. => isFalse fun h => by cases h
  | .running .. => isFalse fun h => by cases h
  | .notified .. => isFalse fun h => by cases h

def notifies : Thread κ σ ρ → Prop
  | .running _ (.notify _) => True
  | _ => False

structure Orderly (rank : κ → ℕ) (ready : σ → Bool) (w : System n κ σ ρ) : Prop where
  good : ∀ t, Good rank ready (w.threads t)
  awake : ready w.state = true → (∀ t, ¬ sleeps (w.threads t)) ∨ ∃ t, notifies (w.threads t)

section Steps
variable {rank : κ → ℕ} {ready : σ → Bool}

theorem good_notify {thread : Thread κ σ ρ} (h : Good rank ready thread) :
    Good rank ready thread.notify := by
  cases thread <;> exact h

omit [DecidableEq κ] in
theorem sleeps_notify (thread : Thread κ σ ρ) : ¬ sleeps thread.notify := by
  cases thread <;> exact id

theorem good_move {w : System n κ σ ρ} {a b : Thread κ σ ρ} {s : σ} (hmoves : Moves ready w a b s)
    (h : Good rank ready a) : Good rank ready b := by
  cases hmoves with
  | acquire held k m rest hfree => exact ⟨h.ordered.2, h.announces⟩
  | release held k rest => exact ⟨h.ordered, h.announces⟩
  | act held update rest => exact ⟨h.ordered _, (h.announces _).1⟩
  | pass held k m rest hready =>
    obtain ⟨rfl, hrest⟩ := h.ordered
    exact ⟨hrest, h.announces⟩
  | sleep held k m rest hready =>
    obtain ⟨rfl, hrest⟩ := h.ordered
    exact ⟨by simp [without], hrest, h.announces⟩
  | return_ held k m rest hfree =>
    obtain ⟨rfl, hrest⟩ := h
    exact ⟨⟨rfl, hrest.ordered⟩, hrest.announces⟩

theorem move_announces {w : System n κ σ ρ} {a b : Thread κ σ ρ} {s : σ}
    (hmoves : Moves ready w a b s)
    (h : Good rank ready a) (hs : ready s = true) :
    (ready w.state = true ∧ ¬ sleeps b) ∨ notifies b := by
  cases hmoves with
  | acquire held k m rest hfree => exact Or.inl ⟨hs, id⟩
  | release held k rest => exact Or.inl ⟨hs, id⟩
  | act held update rest =>
    rcases (h.announces w.state).2 hs with hready | ⟨q, hq⟩
    · exact Or.inl ⟨hready, id⟩
    · rw [hq]
      exact Or.inr trivial
  | pass held k m rest hready => exact Or.inl ⟨hs, id⟩
  | sleep held k m rest hready => exact absurd hs (by simp [hready])
  | return_ held k m rest hfree => exact Or.inl ⟨hs, id⟩

omit [DecidableEq κ] in
theorem move_quiet [DecidableEq κ] {w : System n κ σ ρ} {a b : Thread κ σ ρ} {s : σ}
    (hmoves : Moves ready w a b s) :
    ¬ notifies a := by
  cases hmoves <;> exact id

variable {w w' : System n κ σ ρ} (hw : Orderly rank ready w)
include hw

theorem orderly_step [DecidableEq ρ] {program : γ → Program κ σ ρ}
    {effect : ε → σ → Option σ} {t : Fin n}
    (hnext : next program ready effect w (.step t) = some w') : Orderly rank ready w' := by
  rcases step_cases hnext with ⟨after, s, hmoves, rfl⟩ | ⟨held, rest, ht, rfl⟩
  · refine ⟨fun u => ?_, fun hs => ?_⟩
    · by_cases hu : u = t
      · subst hu
        simp only [System.turn, Function.update_self]
        exact good_move hmoves (hw.good u)
      · simp only [System.turn, Function.update_of_ne hu]
        exact hw.good u
    · rcases move_announces hmoves (hw.good t) hs with ⟨hready, hafter⟩ | hafter
      · rcases hw.awake hready with hnone | ⟨u, hu⟩
        · refine Or.inl fun v => ?_
          by_cases hv : v = t
          · subst hv
            simp only [System.turn, Function.update_self]
            exact hafter
          · simp only [System.turn, Function.update_of_ne hv]
            exact hnone v
        · have hut : u ≠ t := by
            rintro rfl
            exact move_quiet hmoves hu
          exact Or.inr ⟨u, by simpa only [System.turn, Function.update_of_ne hut] using hu⟩
      · exact Or.inr ⟨t, by simpa only [System.turn, Function.update_self] using hafter⟩
  · have hgood := hw.good t
    rw [ht] at hgood
    refine ⟨fun u => ?_, fun _ => Or.inl fun u => ?_⟩
    · by_cases hu : u = t
      · subst hu
        simp only [Function.update_self]
        exact ⟨hgood.ordered, hgood.announces⟩
      · simp only [Function.update_of_ne hu]
        exact good_notify (hw.good u)
    · by_cases hu : u = t
      · subst hu
        simp only [Function.update_self]
        exact id
      · simp only [Function.update_of_ne hu]
        exact sleeps_notify _

theorem orderly_turn {t : Fin n} (thread : Thread κ σ ρ) (hgood : Good rank ready thread)
    (hsleeps : ¬ sleeps thread)
    (hquiet : ¬ notifies (w.threads t)) : Orderly rank ready (w.turn t thread) := by
  refine ⟨fun u => ?_, fun hs => ?_⟩
  · by_cases hu : u = t
    · subst hu
      simp only [System.turn, Function.update_self]
      exact hgood
    · simp only [System.turn, Function.update_of_ne hu]
      exact hw.good u
  · rcases hw.awake hs with hnone | ⟨u, hu⟩
    · refine Or.inl fun v => ?_
      by_cases hv : v = t
      · subst hv
        simp only [System.turn, Function.update_self]
        exact hsleeps
      · simp only [System.turn, Function.update_of_ne hv]
        exact hnone v
    · have hut : u ≠ t := by
        rintro rfl
        exact hquiet hu
      exact Or.inr ⟨u, by simpa only [System.turn, Function.update_of_ne hut] using hu⟩

variable [DecidableEq ρ] {program : γ → Program κ σ ρ} {effect : ε → σ → Option σ}

theorem orderly_next (hprogram : ∀ c, Disciplined rank ready [] (program c))
    (heffect : ∀ e s s', effect e s = some s' → ready s' = true → ready s = true)
    {e : Event n γ ε ρ}
    (hnext : next program ready effect w e = some w') : Orderly rank ready w' := by
  cases e with
  | call t c =>
    simp only [next] at hnext
    split at hnext
    · rename_i ht
      cases hnext
      exact orderly_turn hw _ (hprogram c) id (by rw [ht]; exact id)
    · cases hnext
  | step t => exact orderly_step hw hnext
  | wake t =>
    simp only [next] at hnext
    split at hnext
    · rename_i held k m rest ht
      cases hnext
      have hgood := hw.good t
      rw [ht] at hgood
      exact orderly_turn hw _ hgood id (by rw [ht]; exact id)
    · cases hnext
  | ret t result =>
    simp only [next] at hnext
    split at hnext
    · rename_i held r ht
      split_ifs at hnext
      cases hnext
      exact orderly_turn hw _ trivial id (by rw [ht]; exact id)
    · cases hnext
  | environment e =>
    obtain ⟨s, hs, rfl⟩ := Option.map_eq_some_iff.mp hnext
    exact ⟨hw.good, fun hready => hw.awake (heffect e _ s hs hready)⟩

omit hw [DecidableEq ρ] in
theorem orderly_start (s : σ) : Orderly rank ready (System.start (n := n) (ρ := ρ) s) :=
  ⟨fun _ => trivial, fun _ => Or.inl fun _ => id⟩

end Steps

section Busy
variable {ready : σ → Bool} {w w' : System n κ σ ρ}

theorem busy_move {a b : Thread κ σ ρ} {s : σ} (hmoves : Moves ready w a b s)
    (h : Busy a) : Busy b := by
  cases hmoves with
  | acquire held k m rest hfree => exact h
  | release held k rest => exact h
  | act held update rest => exact h _
  | pass held k m rest hready => exact h.elim
  | sleep held k m rest hready => exact h.elim
  | return_ held k m rest hfree => exact h.elim

variable [DecidableEq ρ] {program : γ → Program κ σ ρ} {effect : ε → σ → Option σ}

theorem busy_next {e : Event n γ ε ρ} {u : Fin n} (h : Busy (w.threads u))
    (hcalls : ∀ c, e = .call u c → Sleepless (program c))
    (hnext : next program ready effect w e = some w') : Busy (w'.threads u) := by
  have hturn : ∀ t thread, (t = u → Busy thread) → Busy ((w.turn t thread).threads u) :=
    fun t thread hthread => by
    by_cases hu : u = t
    · subst hu
      simp only [System.turn, Function.update_self]
      exact hthread rfl
    · simp only [System.turn, Function.update_of_ne hu]
      exact h
  cases e with
  | call t c =>
    simp only [next] at hnext
    split at hnext
    · cases hnext
      exact hturn t _ fun ht => hcalls c (by rw [ht])
    · cases hnext
  | step t =>
    rcases step_cases hnext with ⟨after, s, hmoves, rfl⟩ | ⟨held, rest, ht, rfl⟩
    · exact hturn t after fun htu => busy_move hmoves (htu ▸ h)
    · by_cases hu : u = t
      · subst hu
        simp only [Function.update_self]
        rw [ht] at h
        exact h
      · simp only [Function.update_of_ne hu]
        generalize w.threads u = thread at h ⊢
        cases thread <;> exact h
  | wake t =>
    simp only [next] at hnext
    split at hnext
    · rename_i ht
      cases hnext
      exact hturn t _ fun htu => by rw [← htu, ht] at h; exact h
    · cases hnext
  | ret t result =>
    simp only [next] at hnext
    split at hnext
    · split_ifs at hnext
      cases hnext
      exact hturn t _ fun _ => trivial
    · cases hnext
  | environment e =>
    obtain ⟨s, -, rfl⟩ := Option.map_eq_some_iff.mp hnext
    exact h

end Busy

structure Calm (rank : κ → ℕ) (ready : σ → Bool) (waits : Fin n → Prop)
    (w : System n κ σ ρ) : Prop where
  excluded : Excluded w
  orderly : Orderly rank ready w
  busy : ∀ t, ¬ waits t → Busy (w.threads t)

theorem calm_throughout [DecidableEq ρ] {program : γ → Program κ σ ρ} {ready : σ → Bool}
    {effect : ε → σ → Option σ}
    {rank : κ → ℕ} {waits : Fin n → Prop} (hprogram : ∀ c, Disciplined rank ready [] (program c))
    (heffect : ∀ e s s', effect e s = some s' → ready s' = true → ready s = true) (s : σ)
    {es : List (Event n γ ε ρ)}
    (hwaits : ∀ t c, Event.call t c ∈ es → waits t ∨ Sleepless (program c)) :
    Throughout (next program ready effect) (Calm rank ready waits) (System.start s) es := by
  refine invariant_throughout (fun w e w' hw he hnext => ?_) ?_
    (meets_mem (C := fun e => ∀ t c, e = .call t c → waits t ∨ Sleepless (program c)) _
      fun e he t c hc =>
      hwaits t c (hc ▸ he))
  · refine ⟨excluded_next hw.excluded hnext, orderly_next hw.orderly hprogram heffect hnext,
      fun t ht => ?_⟩
    exact busy_next (hw.busy t ht) (fun c hc => (he t c hc).resolve_left ht) hnext
  · exact ⟨fun _ _ _ _ hh => absurd hh List.not_mem_nil, orderly_start s, fun _ _ => trivial⟩

def Stuck [DecidableEq ρ] (program : γ → Program κ σ ρ) (ready : σ → Bool)
    (effect : ε → σ → Option σ)
    (w : System n κ σ ρ) : Prop :=
  ∀ t, next program ready effect w (.step t) = none ∧ ∀ r,
    next program ready effect w (.ret t r) = none

def wants : Thread κ σ ρ → Option (κ × Mode)
  | .running _ (.acquire k m _) => some (k, m)
  | .notified _ k m _ => some (k, m)
  | _ => none

omit [DecidableEq κ] in
theorem sleeps_cases {thread : Thread κ σ ρ} (h : sleeps thread) :
    ∃ held k m rest, thread = .asleep held k m rest := by
  cases thread with
  | asleep held k m rest => exact ⟨held, k, m, rest, rfl⟩
  | idle => exact h.elim
  | running held p => exact h.elim
  | notified held k m rest => exact h.elim

omit [DecidableEq κ] in
theorem wants_cases {thread : Thread κ σ ρ} {k : κ} {m : Mode} (h : wants thread = some (k, m)) :
    (∃ held rest, thread = .running held (.acquire k m rest)) ∨ ∃ held rest,
      thread = .notified held k m rest := by
  cases thread with
  | idle => cases h
  | asleep held k m rest => cases h
  | notified held k m rest =>
    cases h
    exact Or.inr ⟨held, rest, rfl⟩
  | running held p =>
    cases p with
    | acquire k m rest =>
      cases h
      exact Or.inl ⟨held, rest, rfl⟩
    | ret r => cases h
    | release k rest => cases h
    | act update rest => cases h
    | await k m rest => cases h
    | notify rest => cases h

section Stuck
variable [DecidableEq ρ] {program : γ → Program κ σ ρ} {ready : σ → Bool}
  {effect : ε → σ → Option σ}
  {rank : κ → ℕ} {w : System n κ σ ρ} (hstuck : Stuck program ready effect w)
include hstuck

theorem stuck_cases (t : Fin n) : w.threads t = .idle ∨ sleeps (w.threads t) ∨
    ∃ k m, wants (w.threads t) = some (k, m) ∧ ¬ Free w k m := by
  obtain ⟨hstep, hret⟩ := hstuck t
  simp only [next] at hstep hret
  cases ht : w.threads t with
  | idle => exact Or.inl rfl
  | asleep held k m rest => exact Or.inr (Or.inl trivial)
  | notified held k m rest =>
    rw [ht] at hstep
    refine Or.inr (Or.inr ⟨k, m, rfl, fun hfree => ?_⟩)
    simp only [if_pos hfree] at hstep
    cases hstep
  | running held p =>
    rw [ht] at hstep hret
    cases p with
    | ret r =>
      have h := hret r
      simp at h
    | acquire k m rest =>
      refine Or.inr (Or.inr ⟨k, m, rfl, fun hfree => ?_⟩)
      simp only [advance, if_pos hfree] at hstep
      cases hstep
    | release k rest => cases hstep
    | act update rest => cases hstep
    | await k m rest =>
      simp only [advance] at hstep
      split_ifs at hstep
    | notify rest => cases hstep

omit hstuck in
theorem stuck_resting (h : ∀ t, w.threads t = .idle ∨ sleeps (w.threads t)) :
    Stuck program ready effect w := by
  intro t
  simp only [next]
  rcases h t with hidle | hsleeps
  · rw [hidle]
    exact ⟨rfl, fun _ => rfl⟩
  · obtain ⟨held, k, m, rest, ht⟩ := sleeps_cases hsleeps
    rw [ht]
    exact ⟨rfl, fun _ => rfl⟩

theorem stuck_holder (hw : Orderly rank ready w) {k : κ} {m : Mode} (hfree : ¬ Free w k m) :
    ∃ u l m', wants (w.threads u) = some (l, m') ∧ rank k < rank l := by
  unfold Free at hfree
  push Not at hfree
  obtain ⟨u, o, ho, rfl, -⟩ := hfree
  have hgood := hw.good u
  rcases stuck_cases hstuck u with hidle | hsleeps | ⟨l, m', hwants, -⟩
  · rw [hidle] at ho
    exact absurd ho List.not_mem_nil
  · obtain ⟨held, k, m, rest, hu⟩ := sleeps_cases hsleeps
    rw [hu] at ho hgood
    rw [hgood.1] at ho
    exact absurd ho List.not_mem_nil
  · refine ⟨u, l, m', hwants, ?_⟩
    rcases wants_cases hwants with ⟨held, rest, hu⟩ | ⟨held, rest, hu⟩
    · rw [hu] at ho hgood
      exact hgood.ordered.1 o ho
    · rw [hu] at ho hgood
      rw [hgood.1] at ho
      exact absurd ho List.not_mem_nil

theorem stuck_wants (hw : Orderly rank ready w) (t : Fin n) (k : κ) (m : Mode) :
    wants (w.threads t) ≠ some (k, m) := by
  intro ht
  let order : Fin n → ℕ := fun u => ((wants (w.threads u)).map fun o => rank o.1 + 1).getD 0
  have : Nonempty (Fin n) := ⟨t⟩
  obtain ⟨last, hlast⟩ := Finite.exists_max order
  have hpos : 0 < order last := by
    refine lt_of_lt_of_le ?_ (hlast t)
    simp [order, ht]
  rcases stuck_cases hstuck last with hidle | hsleeps | ⟨l, m', hwants, hfree⟩
  · simp [order, hidle, wants] at hpos
  · obtain ⟨held, k, m, rest, hthread⟩ := sleeps_cases hsleeps
    simp [order, hthread, wants] at hpos
  · obtain ⟨u, l', m'', hu, hlt⟩ := stuck_holder hstuck hw hfree
    have hle := hlast u
    simp [order, hu, hwants] at hle
    omega

/-- Nothing is stuck but at its end: every call has returned, or sleeps for a
condition that is false. -/
theorem stuck_done (hw : Orderly rank ready w) (t : Fin n) :
    w.threads t = .idle ∨ (sleeps (w.threads t) ∧ ready w.state = false) := by
  have hcases : ∀ u, w.threads u = .idle ∨ sleeps (w.threads u) := fun u => by
    rcases stuck_cases hstuck u with hidle | hsleeps | ⟨k, m, hwants, -⟩
    · exact Or.inl hidle
    · exact Or.inr hsleeps
    · exact absurd hwants (stuck_wants hstuck hw u k m)
  rcases hcases t with hidle | hsleeps
  · exact Or.inl hidle
  · refine Or.inr ⟨hsleeps, ?_⟩
    by_contra hready
    rcases hw.awake (by simpa using hready) with hnone | ⟨u, hu⟩
    · exact hnone t hsleeps
    · rcases hcases u with hidle | hsleeps
      · rw [hidle] at hu
        exact hu
      · obtain ⟨held, k, m, rest, hthread⟩ := sleeps_cases hsleeps
        rw [hthread] at hu
        exact hu

end Stuck

inductive After : Program κ σ ρ → Program κ σ ρ → Prop
  | acquire (k : κ) (m : Mode) (rest : Program κ σ ρ) : After rest (.acquire k m rest)
  | release (k : κ) (rest : Program κ σ ρ) : After rest (.release k rest)
  | act (update : σ → σ) (rest : σ → Program κ σ ρ) (s : σ) : After (rest s) (.act update rest)
  | await (k : κ) (m : Mode) (rest : Program κ σ ρ) : After rest (.await k m rest)
  | notify (rest : Program κ σ ρ) : After rest (.notify rest)

inductive Closer : Option (Program κ σ ρ) → Option (Program κ σ ρ) → Prop
  | done (p : Program κ σ ρ) : Closer none (some p)
  | rest (q p : Program κ σ ρ) (h : After q p) : Closer (some q) (some p)

def place : Thread κ σ ρ → Option (Program κ σ ρ)
  | .idle => none
  | .running _ p => some p
  | .asleep _ k m rest => some (.await k m rest)
  | .notified _ k m rest => some (.await k m rest)

def stir : Thread κ σ ρ → ℕ
  | .notified .. => 2
  | .asleep .. => 0
  | _ => 1

omit [DecidableEq κ] in
theorem acc_none : Acc Closer (none : Option (Program κ σ ρ)) := ⟨_, fun p h => by cases h⟩

omit [DecidableEq κ] in
theorem acc_some {p : Program κ σ ρ} (h : ∀ q, After q p → Acc Closer (some q)) :
    Acc Closer (some p) := by
  refine ⟨_, fun o ho => ?_⟩
  cases ho with
  | done => exact acc_none
  | rest q p hq => exact h q hq

omit [DecidableEq κ] in
theorem acc_program (p : Program κ σ ρ) : Acc Closer (some p) := by
  induction p with
  | ret r => exact acc_some fun q h => by cases h
  | acquire k m rest ih => exact acc_some fun q h => by cases h; exact ih
  | release k rest ih => exact acc_some fun q h => by cases h; exact ih
  | act update rest ih => exact acc_some fun q h => by cases h; exact ih _
  | await k m rest ih => exact acc_some fun q h => by cases h; exact ih
  | notify rest ih => exact acc_some fun q h => by cases h; exact ih

omit [DecidableEq κ] in
theorem closer_wf : WellFounded (Closer (κ := κ) (σ := σ) (ρ := ρ)) :=
  ⟨Option.rec acc_none acc_program⟩

/-- Some thread is closer to its end, or all are where they were and less astir. -/
def Nearer : (Fin n → Option (Program κ σ ρ)) × ℕ → (Fin n → Option (Program κ σ ρ)) × ℕ → Prop :=
  Prod.Lex (Pi.Lex (· < ·) Closer) (· < ·)

omit [DecidableEq κ] in
theorem nearer_wf : WellFounded (Nearer (n := n) (κ := κ) (σ := σ) (ρ := ρ)) :=
  WellFounded.prod_lex (Pi.Lex.wellFounded (· < ·) fun _ => closer_wf) wellFounded_lt

def whereabouts (w : System n κ σ ρ) : (Fin n → Option (Program κ σ ρ)) × ℕ :=
  (fun t => place (w.threads t), ∑ t, stir (w.threads t))

omit [DecidableEq κ] in
theorem nearer_place {w w' : System n κ σ ρ} {t : Fin n}
    (ht : Closer (place (w'.threads t)) (place (w.threads t)))
    (hothers : ∀ u, u ≠ t → place (w'.threads u) = place (w.threads u)) :
    Nearer (whereabouts w') (whereabouts w) :=
  Prod.Lex.left _ _ ⟨t, fun u hu => hothers u hu.ne, ht⟩

omit [DecidableEq κ] in
theorem nearer_stir {w : System n κ σ ρ} {t : Fin n} {thread : Thread κ σ ρ} {s : σ}
    (hplace : place thread = place (w.threads t)) (hstir : stir thread < stir (w.threads t)) :
    Nearer (whereabouts { w.turn t thread with state := s }) (whereabouts w) := by
  have hsame : (fun u => place (({ w.turn t thread with state := s } : System n κ σ ρ).threads u)) =
      fun u => place (w.threads u) := by
    funext u
    by_cases hu : u = t
    · subst hu
      simp only [System.turn, Function.update_self]
      exact hplace
    · simp only [System.turn, Function.update_of_ne hu]
  rw [whereabouts, whereabouts, hsame]
  refine Prod.Lex.right _ (Finset.sum_lt_sum (fun u _ => ?_) ⟨t, Finset.mem_univ t, ?_⟩)
  · by_cases hu : u = t
    · subst hu
      simp only [System.turn, Function.update_self]
      exact hstir.le
    · simp only [System.turn, Function.update_of_ne hu, le_refl]
  · simp only [System.turn, Function.update_self]
    exact hstir

theorem move_nearer {ready : σ → Bool} {w : System n κ σ ρ} {t : Fin n}
    {thread : Thread κ σ ρ} {s : σ}
    (h : Moves ready w (w.threads t) thread s) :
    Nearer (whereabouts { w.turn t thread with state := s }) (whereabouts w) := by
  have hothers : ∀ u, u ≠ t →
    place (({ w.turn t thread with state := s } : System n κ σ ρ).threads u) =
      place (w.threads u) := by
    intro u hu
    simp only [System.turn, Function.update_of_ne hu]
  have hclose : Closer (place thread) (place (w.threads t)) →
      Nearer (whereabouts { w.turn t thread with state := s }) (whereabouts w) := fun hcloser =>
    nearer_place (by simpa only [System.turn, Function.update_self] using hcloser) hothers
  generalize hb : w.threads t = before at h hclose
  cases h with
  | acquire held k m rest hfree => exact hclose (.rest _ _ (.acquire k m rest))
  | release held k rest => exact hclose (.rest _ _ (.release k rest))
  | act held update rest => exact hclose (.rest _ _ (.act update rest _))
  | pass held k m rest hready => exact hclose (.rest _ _ (.await k m rest))
  | sleep held k m rest hready =>
    exact nearer_stir (by rw [hb]; rfl) (by rw [hb]; exact Nat.zero_lt_one)
  | return_ held k m rest hfree =>
    exact nearer_stir (by rw [hb]; rfl) (by rw [hb]; exact Nat.one_lt_two)

/-- The events of calls in progress. -/
def inside : Event n γ ε ρ → Prop
  | .step _ => True
  | .ret _ _ => True
  | _ => False

section Ends
variable [DecidableEq ρ] (program : γ → Program κ σ ρ) (ready : σ → Bool)
  (effect : ε → σ → Option σ)

theorem next_nearer {w w' : System n κ σ ρ} {e : Event n γ ε ρ} (hinside : inside e)
    (hnext : next program ready effect w e = some w') :
    Nearer (whereabouts w') (whereabouts w) := by
  cases e with
  | step t =>
    rcases step_cases hnext with ⟨after, s, hmoves, rfl⟩ | ⟨held, rest, ht, rfl⟩
    · exact move_nearer hmoves
    · refine nearer_place (t := t) ?_ fun u hu => ?_
      · simp only [Function.update_self]
        rw [ht]
        exact .rest _ _ (.notify rest)
      · simp only [Function.update_of_ne hu]
        cases w.threads u <;> rfl
  | ret t result =>
    simp only [next] at hnext
    split at hnext
    · rename_i held r ht
      split_ifs at hnext
      cases hnext
      refine nearer_place (t := t) ?_ fun u hu => ?_
      · simp only [System.turn, Function.update_self]
        rw [ht]
        exact .done _
      · simp only [System.turn, Function.update_of_ne hu]
    · cases hnext
  | call t c => exact hinside.elim
  | wake t => exact hinside.elim
  | environment e => exact hinside.elim

theorem calls_end : WellFounded fun w' w : System n κ σ ρ =>
    ∃ e : Event n γ ε ρ, inside e ∧ next program ready effect w e = some w' :=
  Subrelation.wf (fun ⟨_, hinside, hnext⟩ => next_nearer program ready effect hinside hnext)
    (InvImage.wf whereabouts nearer_wf)

end Ends

end CloudBackup.LockProgress
