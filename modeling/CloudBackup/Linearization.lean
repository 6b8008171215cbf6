import CloudBackup.LockPrograms

/-!
# Calls that look atomic

Threads that take locks refine a service that serves every call at one moment
between its start and its return. Each lock comes with what holds of the two
states while nobody has it alone, and each thread with what others leave as it
is as long as it holds its locks. A program follows this discipline when each of
its actions is allowed and one of them, at the right moment, serves the call.
-/

set_option autoImplicit false

namespace CloudBackup.Linearization
open CloudBackup.RunInvariants CloudBackup.LockPrograms

inductive Status (γ ρ : Type) where
  | idle
  | called (c : γ)
  | served (result : ρ)

structure Service (n : ℕ) (γ σ ρ : Type) where
  state : σ
  clients : Fin n → Status γ ρ

inductive Moment (n : ℕ) (γ ε ρ : Type) where
  | call (t : Fin n) (c : γ)
  | serve (t : Fin n)
  | ret (t : Fin n) (result : ρ)
  | environment (e : ε)

variable {κ σ ρ γ ε : Type} {n : ℕ}

def Service.start (s : σ) : Service n γ σ ρ := { state := s, clients := fun _ => .idle }

def Service.turn (a : Service n γ σ ρ) (t : Fin n) (status : Status γ ρ) : Service n γ σ ρ :=
  { a with clients := Function.update a.clients t status }

theorem Service.turn_self (a : Service n γ σ ρ) (t : Fin n) (status : Status γ ρ) :
    (a.turn t status).clients t = status := by
  simp only [Service.turn, Function.update_self]

theorem Service.turn_other (a : Service n γ σ ρ) {t u : Fin n} (status : Status γ ρ) (h : u ≠ t) :
    (a.turn t status).clients u = a.clients u := by
  simp only [Service.turn, Function.update_of_ne h]

def happen [DecidableEq ρ] (serve : γ → σ → ρ × σ) (effect : ε → σ → Option σ)
    (a : Service n γ σ ρ) :
    Moment n γ ε ρ → Option (Service n γ σ ρ)
  | .call t c => match a.clients t with
    | .idle => some (a.turn t (.called c))
    | _ => none
  | .serve t => match a.clients t with
    | .called c => some { a.turn t (.served (serve c a.state).1) with state := (serve c a.state).2 }
    | _ => none
  | .ret t result => match a.clients t with
    | .served r => if r = result then some (a.turn t .idle) else none
    | _ => none
  | .environment e => (effect e a.state).map fun s => { a with state := s }

/-- What is seen from outside: calls, results, and what else happens to the state. -/
inductive Sight (n : ℕ) (γ ε ρ : Type) where
  | call (t : Fin n) (c : γ)
  | ret (t : Fin n) (result : ρ)
  | environment (e : ε)

def seen : Event n γ ε ρ → Option (Sight n γ ε ρ)
  | .call t c => some (.call t c)
  | .ret t result => some (.ret t result)
  | .environment e => some (.environment e)
  | _ => none

def shown : Moment n γ ε ρ → Option (Sight n γ ε ρ)
  | .call t c => some (.call t c)
  | .ret t result => some (.ret t result)
  | .environment e => some (.environment e)
  | .serve _ => none

/-- `waits` says which calls may wait for the condition, and they do before they are served. -/
structure Discipline (κ σ γ : Type) where
  always : σ × σ → Prop
  settled : κ → σ × σ → Prop
  keeps : Held κ → σ × σ → σ × σ → Prop
  waits : γ → Prop
  refl : ∀ held x, keeps held x x
  trans : ∀ held x y z, keeps held x y → keeps held y z → keeps held x z

/-- What a thread may do while others hold what is compatible with its locks. -/
structure Allowed (D : Discipline κ σ γ) (held : Held κ) (x y : σ × σ) : Prop where
  always : D.always y
  settled : ∀ k, (k, Mode.exclusive) ∉ held → D.settled k x → D.settled k y
  keeps : ∀ others, Compatible held others → D.keeps others x y

inductive Serves (serve : γ → σ → ρ × σ) (c : γ) (g : σ) : Option ρ → Option ρ → σ → Prop
  | still (done : Option ρ) : Serves serve c g done done g
  | now : Serves serve c g none (some (serve c g).1) (serve c g).2

variable [DecidableEq κ]

def Follows (D : Discipline κ σ γ) (serve : γ → σ → ρ × σ) (c : γ) :
    Held κ → Option ρ → Program κ σ ρ → σ × σ → Prop
  | held, done, .ret r, _ => held = [] ∧ done = some r
  | held, done, .acquire k m rest, x => ∀ y, D.always y → D.keeps held x y → D.settled k y →
      Follows D serve c ((k, m)::held) done rest y
  | held, done, .release k rest, x => ∀ y, D.always y → D.keeps held x y →
      ((k, Mode.exclusive) ∈ held → D.settled k y) ∧ Follows D serve c (without k held) done rest y
  | held, done, .act update rest, x => ∀ y, D.always y → D.keeps held x y →
      ∃ g done', Serves serve c y.1 done done' g ∧ Allowed D held y (g, update y.2) ∧
        Follows D serve c held done' (rest y.2) (g, update y.2)
  | held, done, .await k m rest, _ => held = [(k, m)] ∧ m = .shared ∧ done = none ∧ D.waits c ∧
      ∀ y, D.always y → D.settled k y → Follows D serve c [(k, m)] done rest y
  | held, done, .notify rest, x => Follows D serve c held done rest x

section Rules
variable {D : Discipline κ σ γ} {serve : γ → σ → ρ × σ} {c : γ}

theorem follows_keeps {held : Held κ} {done : Option ρ} {p : Program κ σ ρ} {x y : σ × σ}
    (h : Follows D serve c held done p x) (hkeeps : D.keeps held x y) :
    Follows D serve c held done p y := by
  induction p generalizing held done x y with
  | ret r => exact h
  | acquire k m rest ih => exact fun z hz hyz => h z hz (D.trans held x y z hkeeps hyz)
  | release k rest ih => exact fun z hz hyz => h z hz (D.trans held x y z hkeeps hyz)
  | act update rest ih => exact fun z hz hyz => h z hz (D.trans held x y z hkeeps hyz)
  | await k m rest ih => exact h
  | notify rest ih => exact ih h hkeeps

end Rules

def Tracks (D : Discipline κ σ γ) (serve : γ → σ → ρ × σ) (c : γ) (done : Option ρ) (x : σ × σ) :
    Thread κ σ ρ → Prop
  | .idle => False
  | .running held p => Follows D serve c held done p x
  | .asleep held k m rest => held = [] ∧ m = .shared ∧ done = none ∧ D.waits c ∧
      ∀ y, D.always y → D.settled k y → Follows D serve c [(k, m)] done rest y
  | .notified held k m rest => held = [] ∧ m = .shared ∧ done = none ∧ D.waits c ∧
      ∀ y, D.always y → D.settled k y → Follows D serve c [(k, m)] done rest y

def statusOf (c : γ) : Option ρ → Status γ ρ
  | none => .called c
  | some r => .served r

inductive Stands (D : Discipline κ σ γ) (serve : γ → σ → ρ × σ) (x : σ × σ) :
    Thread κ σ ρ → Status γ ρ → Prop
  | idle : Stands D serve x .idle .idle
  | busy (c : γ) (done : Option ρ) (thread : Thread κ σ ρ) (h : Tracks D serve c done x thread) :
      Stands D serve x thread (statusOf c done)

structure Refines (D : Discipline κ σ γ) (serve : γ → σ → ρ × σ) (w : System n κ σ ρ)
    (a : Service n γ σ ρ) : Prop where
  always : D.always (a.state, w.state)
  excluded : Excluded w
  settled : ∀ k, (∀ t, (k, Mode.exclusive) ∉ (w.threads t).held) → D.settled k (a.state, w.state)
  stands : ∀ t, Stands D serve (a.state, w.state) (w.threads t) (a.clients t)

section Refines
variable {D : Discipline κ σ γ} {serve : γ → σ → ρ × σ}

omit [DecidableEq κ] in
theorem allowed_still {held : Held κ} {x : σ × σ} (h : D.always x) : Allowed D held x x :=
  ⟨h, fun _ _ hk => hk, fun others _ => D.refl others x⟩

theorem tracks_keeps {c : γ} {done : Option ρ} {thread : Thread κ σ ρ} {x y : σ × σ}
    (h : Tracks D serve c done x thread) (hkeeps : D.keeps thread.held x y) :
    Tracks D serve c done y thread := by
  cases thread with
  | idle => exact h
  | running held p => exact follows_keeps h hkeeps
  | asleep held k m rest => exact h
  | notified held k m rest => exact h

theorem tracks_notify {c : γ} {done : Option ρ} {thread : Thread κ σ ρ} {x : σ × σ}
    (h : Tracks D serve c done x thread) : Tracks D serve c done x thread.notify := by
  cases thread <;> exact h

theorem stands_keeps {thread : Thread κ σ ρ} {status : Status γ ρ} {x y : σ × σ}
    (h : Stands D serve x thread status) (hkeeps : D.keeps thread.held x y) :
    Stands D serve y thread status := by
  cases h with
  | idle => exact .idle
  | busy c done thread h => exact .busy c done thread (tracks_keeps h hkeeps)

theorem stands_notify {thread : Thread κ σ ρ} {status : Status γ ρ} {x : σ × σ}
    (h : Stands D serve x thread status) : Stands D serve x thread.notify status := by
  cases h with
  | idle => exact .idle
  | busy c done thread h => exact .busy c done thread.notify (tracks_notify h)

structure Served (D : Discipline κ σ γ) (serve : γ → σ → ρ × σ) (c : γ) (done done' : Option ρ)
    (x y : σ × σ)
    (before after : Thread κ σ ρ) : Prop where
  serves : Serves serve c x.1 done done' y.1
  allowed : Allowed D before.held x y
  given : ∀ k, (k, Mode.exclusive) ∈ before.held → (k, Mode.exclusive) ∉ after.held → D.settled k y
  tracks : Tracks D serve c done' y after

theorem served_still {c : γ} {done : Option ρ} {x : σ × σ} {before after : Thread κ σ ρ}
    (halways : D.always x)
    (hgiven : ∀ k, (k, Mode.exclusive) ∈ before.held → (k, Mode.exclusive) ∉ after.held →
      D.settled k x)
    (h : Tracks D serve c done x after) : Served D serve c done done x x before after :=
  ⟨.still done, allowed_still halways, hgiven, h⟩

variable {w : System n κ σ ρ} {a : Service n γ σ ρ} (hR : Refines D serve w a)
include hR

theorem refines_free {k : κ} {m : Mode} (hfree : Free w k m) : D.settled k (a.state, w.state) :=
  hR.settled k fun t ht => absurd (hfree t _ ht rfl).2 (by simp)

theorem refines_shared {k : κ} {t : Fin n} (ht : (w.threads t).held = [(k, Mode.shared)]) :
    ∀ u, (k, Mode.exclusive) ∉ (w.threads u).held := by
  intro u hu
  by_cases htu : t = u
  · subst htu
    rw [ht] at hu
    simp at hu
  · have hmem : (k, Mode.shared) ∈ (w.threads t).held := by
      rw [ht]
      exact List.mem_singleton_self _
    exact absurd (hR.excluded t u htu _ hmem _ hu rfl).2 (by simp)

theorem moves_served {ready : σ → Bool} {t : Fin n} {c : γ} {done : Option ρ}
    {after : Thread κ σ ρ} {s : σ}
    (hmoves : Moves ready w (w.threads t) after s)
    (h : Tracks D serve c done (a.state, w.state) (w.threads t)) :
    ∃ g done', Served D serve c done done' (a.state, w.state) (g, s) (w.threads t) after := by
  generalize hb : w.threads t = before at hmoves h ⊢
  cases hmoves with
  | acquire held k m rest hfree =>
    exact ⟨_, done, served_still hR.always
      (fun l hl hnot => absurd (List.mem_cons_of_mem _ hl) hnot)
      (h _ hR.always (D.refl held _) (refines_free hR hfree))⟩
  | release held k rest =>
    obtain ⟨hsettled, hrest⟩ := h _ hR.always (D.refl held _)
    refine ⟨_, done, served_still hR.always (fun l hl hnot => ?_) hrest⟩
    have hlk : l = k := by
      by_contra hne
      exact hnot (List.mem_filter.mpr ⟨hl, by simpa using hne⟩)
    subst hlk
    exact hsettled hl
  | act held update rest =>
    obtain ⟨g, done', hserves, hallowed, hrest⟩ := h _ hR.always (D.refl held _)
    exact ⟨g, done', hserves, hallowed, fun l hl hnot => absurd hl hnot, hrest⟩
  | pass held k m rest hready =>
    obtain ⟨rfl, rfl, -, -, hrest⟩ := h
    have hsettled := hR.settled k (refines_shared hR (t := t) (by rw [hb]; rfl))
    exact ⟨_, done, served_still hR.always (fun l hl hnot => absurd hl hnot)
      (hrest _ hR.always hsettled)⟩
  | sleep held k m rest hready =>
    obtain ⟨rfl, rfl, hlater⟩ := h
    refine ⟨_, done, served_still hR.always (fun l hl _ => ?_) ⟨by simp [without], rfl, hlater⟩⟩
    simp [Thread.held] at hl
  | return_ held k m rest hfree =>
    obtain ⟨rfl, rfl, hlater⟩ := h
    refine ⟨_, done, served_still hR.always (fun l hl _ => ?_) ⟨rfl, rfl, hlater⟩⟩
    simp [Thread.held] at hl

theorem refines_move {ready : σ → Bool} {t : Fin n} {c : γ} {done done' : Option ρ}
    {after : Thread κ σ ρ} {s g : σ}
    (hmoves : Moves ready w (w.threads t) after s)
    (h : Served D serve c done done' (a.state, w.state) (g, s) (w.threads t) after) :
    Refines D serve { w.turn t after with state := s }
      { a.turn t (statusOf c done') with state := g } where
  always := h.allowed.always
  excluded := excluded_turn hR.excluded t after (moves_held hmoves)
  settled := by
    intro k hk
    by_cases hhad : (k, Mode.exclusive) ∈ (w.threads t).held
    · refine h.given k hhad fun hin => hk t ?_
      simp only [System.turn, Function.update_self]
      exact hin
    · refine h.allowed.settled k hhad (hR.settled k fun u => ?_)
      by_cases hu : u = t
      · rw [hu]
        exact hhad
      · have hku := hk u
        simp only [System.turn, Function.update_of_ne hu] at hku
        exact hku
  stands := by
    intro u
    by_cases hu : u = t
    · subst hu
      simp only [System.turn, Service.turn, Function.update_self]
      exact .busy c done' after h.tracks
    · simp only [System.turn, Service.turn, Function.update_of_ne hu]
      exact stands_keeps (hR.stands u) (h.allowed.keeps _ (hR.excluded t u (Ne.symm hu)))

theorem refines_notify {t : Fin n} {held : Held κ} {rest : Program κ σ ρ}
    (ht : w.threads t = .running held (.notify rest)) :
    Refines D serve
      { w with threads := Function.update (fun u => (w.threads u).notify) t (.running held rest) }
      a where
  always := hR.always
  excluded := excluded_held hR.excluded (update_held ht rest)
  settled := by
    intro k hk
    refine hR.settled k fun u => ?_
    rw [← update_held ht rest u]
    exact hk u
  stands := by
    intro u
    by_cases hu : u = t
    · subst hu
      have hold := hR.stands u
      rw [ht] at hold
      simp only [Function.update_self]
      generalize a.clients u = status at hold ⊢
      cases hold with
      | busy c done thread h => exact .busy c done _ h
    · simp only [Function.update_of_ne hu]
      exact stands_notify (hR.stands u)

variable [DecidableEq ρ] {program : γ → Program κ σ ρ} {ready : σ → Bool}
  {effect : ε → σ → Option σ}

omit hR in
theorem serves_happen (effect : ε → σ → Option σ) {t : Fin n} {c : γ}
    {done done' : Option ρ} {g : σ}
    (hclient : a.clients t = statusOf c done) (h : Serves serve c a.state done done' g) :
    ∃ ms, run (happen serve effect) a ms = some { a.turn t (statusOf c done') with state := g } ∧
      ms.filterMap (shown (ε := ε)) = [] := by
  cases h with
  | still done =>
    refine ⟨[], ?_, rfl⟩
    rw [Service.turn, ← hclient, Function.update_eq_self]
    rfl
  | now =>
    refine ⟨[.serve t], ?_, rfl⟩
    rw [run, happen, hclient]
    rfl

omit [DecidableEq ρ] in
theorem refines_idle {t : Fin n} (ht : w.threads t = .idle) : a.clients t = .idle := by
  have h := hR.stands t
  rw [ht] at h
  generalize a.clients t = status at h ⊢
  cases h with
  | idle => rfl
  | busy c done thread h => exact h.elim

omit [DecidableEq ρ] in
theorem refines_busy {t : Fin n} (ht : w.threads t ≠ .idle) :
    ∃ c done, a.clients t = statusOf c done ∧
    Tracks D serve c done (a.state, w.state) (w.threads t) := by
  have h := hR.stands t
  generalize w.threads t = thread at h ht ⊢
  generalize a.clients t = status at h ⊢
  cases h with
  | idle => exact absurd rfl ht
  | busy c done thread h => exact ⟨c, done, rfl, h⟩

omit [DecidableEq ρ] in
theorem refines_asleep {t : Fin n} {held : Held κ} {k : κ} {m : Mode} {rest : Program κ σ ρ}
    (ht : w.threads t = .asleep held k m rest) : ∃ c, a.clients t = .called c ∧ D.waits c := by
  obtain ⟨c, done, hclient, htracks⟩ := refines_busy hR (t := t) (by rw [ht]; simp)
  rw [ht] at htracks
  obtain ⟨-, -, rfl, hwaits, -⟩ := htracks
  exact ⟨c, hclient, hwaits⟩

omit [DecidableEq ρ] in
theorem refines_turn {t : Fin n} (thread : Thread κ σ ρ) {status : Status γ ρ}
    (hheld : thread.held = (w.threads t).held)
    (h : Stands D serve (a.state, w.state) thread status) :
    Refines D serve (w.turn t thread) (a.turn t status) := by
  have hsame : ∀ u, ((w.turn t thread).threads u).held = (w.threads u).held := by
    intro u
    by_cases hu : u = t
    · subst hu
      simp only [System.turn, Function.update_self]
      exact hheld
    · simp only [System.turn, Function.update_of_ne hu]
  refine ⟨hR.always, excluded_held hR.excluded hsame, fun k hk => hR.settled k fun u =>
    ?_, fun u => ?_⟩
  · rw [← hsame u]
    exact hk u
  · by_cases hu : u = t
    · subst hu
      simp only [System.turn, Service.turn, Function.update_self]
      exact h
    · simp only [System.turn, Service.turn, Function.update_of_ne hu]
      exact hR.stands u

theorem refines_step {w' : System n κ σ ρ} {t : Fin n}
    (hnext : next program ready effect w (.step t) = some w') :
    ∃ ms a', run (happen serve effect) a ms = some a' ∧ ms.filterMap (shown (ε := ε)) = [] ∧
      Refines D serve w' a' := by
  rcases step_cases hnext with ⟨after, s, hmoves, rfl⟩ | ⟨held, rest, ht, rfl⟩
  · have hbusy : w.threads t ≠ .idle := by
      intro h
      rw [h] at hmoves
      cases hmoves
    obtain ⟨c, done, hclient, htracks⟩ := refines_busy hR hbusy
    obtain ⟨g, done', hserved⟩ := moves_served hR hmoves htracks
    obtain ⟨ms, hrun, hshown⟩ := serves_happen effect hclient hserved.serves
    exact ⟨ms, _, hrun, hshown, refines_move hR hmoves hserved⟩
  · exact ⟨[], a, rfl, rfl, refines_notify hR ht⟩

/-- One event of the threads is some moments of the service that look the same. -/
theorem refines_next {proper : γ → Prop}
    (hprogram : ∀ c x, proper c → D.always x → Follows D serve c [] none (program c) x)
    (heffect : ∀ e x s, D.always x → effect e x.2 = some s → ∃ g, effect e x.1 = some g ∧
      Allowed D [] x (g, s))
    {w' : System n κ σ ρ} {e : Event n γ ε ρ} (hproper : ∀ t c, e = .call t c → proper c)
    (hnext : next program ready effect w e = some w') :
    ∃ ms a', run (happen serve effect) a ms = some a' ∧ ms.filterMap shown = (seen e).toList ∧
      Refines D serve w' a' := by
  cases e with
  | call t c =>
    simp only [next] at hnext
    split at hnext
    · rename_i ht
      cases hnext
      refine ⟨[.call t c], _, ?_, rfl, refines_turn hR _ ?_
        (.busy c none _ (hprogram c _ (hproper t c rfl) hR.always))⟩
      · rw [run, happen, refines_idle hR ht]
        rfl
      · rw [ht]
        rfl
    · cases hnext
  | step t => exact refines_step hR hnext
  | wake t =>
    simp only [next] at hnext
    split at hnext
    · rename_i held k m rest ht
      cases hnext
      have hstands := hR.stands t
      rw [ht] at hstands
      refine ⟨[], a, rfl, rfl, ?_⟩
      have h := refines_turn hR (t := t) (.notified held k m rest) (by rw [ht]; rfl)
        (stands_notify hstands)
      rwa [Service.turn, Function.update_eq_self] at h
    · cases hnext
  | ret t result =>
    simp only [next] at hnext
    split at hnext
    · rename_i held r ht
      split_ifs at hnext with hr
      cases hnext
      subst hr
      obtain ⟨c, done, hclient, htracks⟩ := refines_busy hR (t := t) (by rw [ht]; simp)
      rw [ht] at htracks
      obtain ⟨rfl, rfl⟩ := htracks
      refine ⟨[.ret t r], _, ?_, rfl, refines_turn hR .idle (by rw [ht]; rfl) .idle⟩
      rw [run, happen, hclient]
      simp [statusOf, run]
    · cases hnext
  | environment e =>
    obtain ⟨s, hs, rfl⟩ := Option.map_eq_some_iff.mp hnext
    obtain ⟨g, hg, hallowed⟩ := heffect e _ s hR.always hs
    refine ⟨[.environment e], { a with state := g }, ?_, rfl, hallowed.always, hR.excluded,
      fun k hk => ?_, fun t => ?_⟩
    · rw [run, happen, hg]
      rfl
    · exact hallowed.settled k List.not_mem_nil (hR.settled k hk)
    · refine stands_keeps (hR.stands t) (hallowed.keeps _ fun h hh => ?_)
      exact absurd hh List.not_mem_nil

end Refines

theorem run_refines [DecidableEq ρ] {program : γ → Program κ σ ρ} {ready : σ → Bool}
    {effect : ε → σ → Option σ}
    {D : Discipline κ σ γ} {serve : γ → σ → ρ × σ} {proper : γ → Prop}
    (hprogram : ∀ c x, proper c → D.always x → Follows D serve c [] none (program c) x)
    (heffect : ∀ e x s, D.always x → effect e x.2 = some s → ∃ g, effect e x.1 = some g ∧
      Allowed D [] x (g, s))
    {w w' : System n κ σ ρ} {a : Service n γ σ ρ} {es : List (Event n γ ε ρ)}
    (hR : Refines D serve w a)
    (hproper : ∀ t c, Event.call t c ∈ es → proper c)
    (hrun : run (next program ready effect) w es = some w') :
    ∃ ms a', run (happen serve effect) a ms = some a' ∧ ms.filterMap shown = es.filterMap seen ∧
      Refines D serve w' a' := by
  induction es generalizing w a with
  | nil =>
    cases hrun
    exact ⟨[], a, rfl, rfl, hR⟩
  | cons e es ih =>
    obtain ⟨v, hv, hrest⟩ := Option.bind_eq_some_iff.mp hrun
    obtain ⟨ms, b, hms, hshown, hb⟩ := refines_next hR hprogram heffect
      (fun t c he => hproper t c (he ▸ List.mem_cons_self)) hv
    obtain ⟨ms', a', hms', hshown', ha'⟩ :=
      ih hb (fun t c hc => hproper t c (List.mem_cons_of_mem e hc)) hrest
    refine ⟨ms ++ ms', a', ?_, ?_, ha'⟩
    · rw [run_append, hms]
      exact hms'
    · rw [List.filterMap_append, hshown, hshown']
      cases hseen : seen e with
      | none => rw [List.filterMap_cons_none hseen]; rfl
      | some x => rw [List.filterMap_cons_some hseen]; rfl

theorem refines_start {D : Discipline κ σ γ} {serve : γ → σ → ρ × σ} {s : σ}
    (halways : D.always (s, s))
    (hsettled : ∀ k, D.settled k (s, s)) :
    Refines D serve (System.start (n := n) (ρ := ρ) s) (Service.start s) where
  always := halways
  excluded := fun _ _ _ _ hh => absurd hh List.not_mem_nil
  settled := fun k _ => hsettled k
  stands := fun _ => .idle

end CloudBackup.Linearization
