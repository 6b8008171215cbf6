import CloudBackup.RunInvariants

/-!
# Threads that take locks

The program of a call takes and gives back locks, shared or exclusive, and
acts on a common state in between. It may wait for a condition of the state,
and then sleeps without its lock until another thread notifies. Any number of
threads make calls, one atomic step at a time and in any order.
-/

set_option autoImplicit false

namespace CloudBackup.LockPrograms
open CloudBackup.RunInvariants

inductive Mode where
  | shared
  | exclusive
  deriving DecidableEq

/-- `act` goes on as the state says that it finds, and leaves the state updated. -/
inductive Program (κ σ ρ : Type) where
  | ret (result : ρ)
  | acquire (lock : κ) (mode : Mode) (rest : Program κ σ ρ)
  | release (lock : κ) (rest : Program κ σ ρ)
  | act (update : σ → σ) (rest : σ → Program κ σ ρ)
  | await (lock : κ) (mode : Mode) (rest : Program κ σ ρ)
  | notify (rest : Program κ σ ρ)

abbrev Held (κ : Type) := List (κ × Mode)

/-- A thread sleeps without the lock it waits with, and takes it again once notified. -/
inductive Thread (κ σ ρ : Type) where
  | idle
  | running (held : Held κ) (rest : Program κ σ ρ)
  | asleep (held : Held κ) (lock : κ) (mode : Mode) (rest : Program κ σ ρ)
  | notified (held : Held κ) (lock : κ) (mode : Mode) (rest : Program κ σ ρ)

variable {κ σ ρ γ ε : Type} {n : ℕ}

def Thread.held : Thread κ σ ρ → Held κ
  | .idle => []
  | .running held _ => held
  | .asleep held _ _ _ => held
  | .notified held _ _ _ => held

def Thread.notify : Thread κ σ ρ → Thread κ σ ρ
  | .asleep held k m rest => .notified held k m rest
  | thread => thread

structure System (n : ℕ) (κ σ ρ : Type) where
  state : σ
  threads : Fin n → Thread κ σ ρ

def System.start (s : σ) : System n κ σ ρ := { state := s, threads := fun _ => .idle }

def System.turn (w : System n κ σ ρ) (t : Fin n) (thread : Thread κ σ ρ) : System n κ σ ρ :=
  { w with threads := Function.update w.threads t thread }

/-- Two threads hold one lock only where both share it. -/
def Compatible (held others : Held κ) : Prop :=
  ∀ h ∈ held, ∀ o ∈ others, h.1 = o.1 → h.2 = .shared ∧ o.2 = .shared

variable [DecidableEq κ]

def Free (w : System n κ σ ρ) (lock : κ) (mode : Mode) : Prop :=
  ∀ t, ∀ o ∈ (w.threads t).held, lock = o.1 → mode = .shared ∧ o.2 = .shared

instance (w : System n κ σ ρ) (lock : κ) (mode : Mode) : Decidable (Free w lock mode) :=
  inferInstanceAs (Decidable (∀ t, ∀ o ∈ (w.threads t).held,
    lock = o.1 → mode = .shared ∧ o.2 = .shared))

def without (lock : κ) (held : Held κ) : Held κ := held.filter fun h => h.1 ≠ lock

def advance (ready : σ → Bool) (w : System n κ σ ρ) (t : Fin n) (held : Held κ) :
    Program κ σ ρ → Option (System n κ σ ρ)
  | .ret _ => none
  | .acquire k m rest => if Free w k m then some (w.turn t (.running ((k, m)::held) rest)) else none
  | .release k rest => some (w.turn t (.running (without k held) rest))
  | .act update rest => some { w.turn t (.running held (rest w.state)) with
      state := update w.state }
  | .await k m rest =>
    if ready w.state then some (w.turn t (.running held rest))
    else some (w.turn t (.asleep (without k held) k m rest))
  | .notify rest => some { w with
      threads := Function.update (fun u => (w.threads u).notify) t (.running held rest) }

inductive Event (n : ℕ) (γ ε ρ : Type) where
  | call (t : Fin n) (c : γ)
  | step (t : Fin n)
  | wake (t : Fin n)
  | ret (t : Fin n) (result : ρ)
  | environment (e : ε)

/-- Others may change the state too, where `effect` says so; a sleeper may wake
without having been notified. -/
def next [DecidableEq ρ] (program : γ → Program κ σ ρ) (ready : σ → Bool)
    (effect : ε → σ → Option σ)
    (w : System n κ σ ρ) : Event n γ ε ρ → Option (System n κ σ ρ)
  | .call t c => match w.threads t with
    | .idle => some (w.turn t (.running [] (program c)))
    | _ => none
  | .step t => match w.threads t with
    | .running held p => advance ready w t held p
    | .notified held k m rest =>
      if Free w k m then some (w.turn t (.running ((k, m)::held) (.await k m rest))) else none
    | _ => none
  | .wake t => match w.threads t with
    | .asleep held k m rest => some (w.turn t (.notified held k m rest))
    | _ => none
  | .ret t result => match w.threads t with
    | .running _ (.ret r) => if r = result then some (w.turn t .idle) else none
    | _ => none
  | .environment e => (effect e w.state).map fun s => { w with state := s }

inductive Moves (ready : σ → Bool) (w : System n κ σ ρ) : Thread κ σ ρ → Thread κ σ ρ → σ → Prop
  | acquire (held : Held κ) (k : κ) (m : Mode) (rest : Program κ σ ρ) (hfree : Free w k m) :
      Moves ready w (.running held (.acquire k m rest)) (.running ((k, m)::held) rest) w.state
  | release (held : Held κ) (k : κ) (rest : Program κ σ ρ) :
      Moves ready w (.running held (.release k rest)) (.running (without k held) rest) w.state
  | act (held : Held κ) (update : σ → σ) (rest : σ → Program κ σ ρ) :
      Moves ready w (.running held (.act update rest)) (.running held (rest w.state))
        (update w.state)
  | pass (held : Held κ) (k : κ) (m : Mode) (rest : Program κ σ ρ) (hready : ready w.state = true) :
      Moves ready w (.running held (.await k m rest)) (.running held rest) w.state
  | sleep (held : Held κ) (k : κ) (m : Mode) (rest : Program κ σ ρ)
      (hready : ready w.state = false) :
      Moves ready w (.running held (.await k m rest)) (.asleep (without k held) k m rest) w.state
  | return_ (held : Held κ) (k : κ) (m : Mode) (rest : Program κ σ ρ) (hfree : Free w k m) :
      Moves ready w (.notified held k m rest) (.running ((k, m)::held) (.await k m rest)) w.state

theorem step_cases [DecidableEq ρ] {program : γ → Program κ σ ρ} {ready : σ → Bool}
    {effect : ε → σ → Option σ}
    {w w' : System n κ σ ρ} {t : Fin n} (h : next program ready effect w (.step t) = some w') :
    (∃ thread s, Moves ready w (w.threads t) thread s ∧ w' = { w.turn t thread with state := s }) ∨
      ∃ held rest, w.threads t = .running held (.notify rest) ∧
        w' = { w with
          threads := Function.update (fun u => (w.threads u).notify) t (.running held rest) } := by
  simp only [next] at h
  split at h
  · rename_i held p hp
    rw [hp]
    cases p with
    | ret r => cases h
    | acquire k m rest =>
      simp only [advance] at h
      split_ifs at h with hfree
      cases h
      exact Or.inl ⟨_, _, .acquire held k m rest hfree, rfl⟩
    | release k rest =>
      cases h
      exact Or.inl ⟨_, _, .release held k rest, rfl⟩
    | act update rest =>
      cases h
      exact Or.inl ⟨_, _, .act held update rest, rfl⟩
    | await k m rest =>
      simp only [advance] at h
      split_ifs at h with hready
      · cases h
        exact Or.inl ⟨_, _, .pass held k m rest hready, rfl⟩
      · cases h
        exact Or.inl ⟨_, _, .sleep held k m rest (by simpa using hready), rfl⟩
    | notify rest =>
      cases h
      exact Or.inr ⟨held, rest, rfl, rfl⟩
  · rename_i held k m rest hp
    rw [hp]
    split_ifs at h with hfree
    cases h
    exact Or.inl ⟨_, _, .return_ held k m rest hfree, rfl⟩
  · cases h

omit [DecidableEq κ] in
theorem notify_held (thread : Thread κ σ ρ) : thread.notify.held = thread.held := by
  cases thread <;> rfl

omit [DecidableEq κ] in
theorem compatible_symm {held others : Held κ} (h : Compatible held others) :
    Compatible others held :=
  fun o ho k hk he => (h k hk o ho he.symm).symm

def Excluded (w : System n κ σ ρ) : Prop :=
  ∀ t u, t ≠ u → Compatible (w.threads t).held (w.threads u).held

omit [DecidableEq κ] in
theorem excluded_turn {w : System n κ σ ρ} (h : Excluded w) (t : Fin n) (thread : Thread κ σ ρ)
    (hthread : ∀ o ∈ thread.held, o ∈ (w.threads t).held ∨ Free w o.1 o.2) :
    Excluded (w.turn t thread) := by
  have hnew : ∀ u, t ≠ u → Compatible thread.held (w.threads u).held := by
    intro u hu o ho k hk he
    rcases hthread o ho with hold | hfree
    · exact h t u hu o hold k hk he
    · exact hfree u k hk he
  intro u v huv
  by_cases hu : u = t
  · subst hu
    simp only [System.turn, Function.update_self, Function.update_of_ne huv.symm]
    exact hnew v huv
  · by_cases hv : v = t
    · subst hv
      simp only [System.turn, Function.update_self, Function.update_of_ne hu]
      exact compatible_symm (hnew u (Ne.symm huv))
    · simp only [System.turn, Function.update_of_ne hu, Function.update_of_ne hv]
      exact h u v huv

omit [DecidableEq κ] in
theorem excluded_held {w w' : System n κ σ ρ} (h : Excluded w)
    (hheld : ∀ t, (w'.threads t).held = (w.threads t).held) : Excluded w' := by
  intro t u htu
  rw [hheld, hheld]
  exact h t u htu

theorem moves_held {ready : σ → Bool} {w : System n κ σ ρ} {a b : Thread κ σ ρ} {s : σ}
    (h : Moves ready w a b s) :
    ∀ o ∈ b.held, o ∈ a.held ∨ Free w o.1 o.2 := by
  intro o ho
  cases h with
  | acquire held k m rest hfree =>
    rcases List.mem_cons.mp ho with rfl | ho
    · exact Or.inr hfree
    · exact Or.inl ho
  | release held k rest => exact Or.inl (List.mem_of_mem_filter ho)
  | act held update rest => exact Or.inl ho
  | pass held k m rest hready => exact Or.inl ho
  | sleep held k m rest hready => exact Or.inl (List.mem_of_mem_filter ho)
  | return_ held k m rest hfree =>
    rcases List.mem_cons.mp ho with rfl | ho
    · exact Or.inr hfree
    · exact Or.inl ho

omit [DecidableEq κ] in
theorem update_held {w : System n κ σ ρ} {t : Fin n} {held : Held κ} {p : Program κ σ ρ}
    (ht : w.threads t = .running held p) (rest : Program κ σ ρ) (u : Fin n) :
    (Function.update (fun u => (w.threads u).notify) t (.running held rest) u).held =
      (w.threads u).held := by
  by_cases hu : u = t
  · subst hu
    rw [Function.update_self, ht]
    rfl
  · rw [Function.update_of_ne hu, notify_held]

theorem excluded_next [DecidableEq ρ] {program : γ → Program κ σ ρ} {ready : σ → Bool}
    {effect : ε → σ → Option σ}
    {w w' : System n κ σ ρ} (h : Excluded w) {e : Event n γ ε ρ}
    (hnext : next program ready effect w e = some w') :
    Excluded w' := by
  cases e with
  | call t c =>
    simp only [next] at hnext
    split at hnext
    · cases hnext
      exact excluded_turn h t _ fun o ho => absurd ho List.not_mem_nil
    · cases hnext
  | step t =>
    rcases step_cases hnext with ⟨after, s, hmoves, rfl⟩ | ⟨held, rest, ht, rfl⟩
    · exact excluded_turn h t after (moves_held hmoves)
    · exact excluded_held h (update_held ht rest)
  | wake t =>
    simp only [next] at hnext
    split at hnext
    · rename_i held k m rest ht
      cases hnext
      exact excluded_turn h t _ fun o ho => Or.inl (by rw [ht]; exact ho)
    · cases hnext
  | ret t result =>
    simp only [next] at hnext
    split at hnext
    · split_ifs at hnext
      cases hnext
      exact excluded_turn h t _ fun o ho => absurd ho List.not_mem_nil
    · cases hnext
  | environment e =>
    obtain ⟨s, -, rfl⟩ := Option.map_eq_some_iff.mp hnext
    exact h

end CloudBackup.LockPrograms
