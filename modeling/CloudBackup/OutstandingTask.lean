import CloudBackup.ConnectionTasks
import CloudBackup.RunInvariants
import CloudBackup.WorkerPool

/-!
# One outstanding task per connection

The dispatcher receives for any number of connections while any number of
workers run their tasks. The flag hands a connection to one task at a time
and the next task is bound before the lock is released; but `_sub_task` is
looked at behind the lock, when the flag may have been cleared and another
task of the connection may have bound its own successor.
-/

set_option autoImplicit false

namespace CloudBackup.OutstandingTask
open CloudBackup.ByteStrings CloudBackup.JsonCodec CloudBackup.FilePath CloudBackup.FileStore
open CloudBackup.DataManager CloudBackup.Download CloudBackup.HttpCallbacks CloudBackup.HttpParser
open CloudBackup.ConnectionTasks CloudBackup.WorkerPool CloudBackup.RunInvariants

/-- Where a worker stands: before a task, before its final section, or before
the last look at `_sub_task`. The flag there is whether the final section left
a task bound. -/
inductive Phase where
  | begins (task : Task)
  | ends (task : Task) (handleSize : ℕ)
  | checks (bound : Bool)
  deriving DecidableEq

structure Server (σ : Type) where
  store : Store
  connections : ℕ → Connection σ
  pool : ThreadPool (ℕ × Task) (ℕ × Phase)
  failed : ℕ → Bool

inductive Event where
  | read (c : ℕ) (data : Bytes)
  | close (c : ℕ)
  | take (w : ℕ)
  | start (w : ℕ)
  | finish (w : ℕ)
  | check (w : ℕ)

variable {σ : Type}

def phaseOf (srv : Server σ) (w : ℕ) : Option (ℕ × Phase) := (srv.pool.workerThreads[w]?).join

def update (srv : Server σ) (c : ℕ) (con : Connection σ)
    (pool : ThreadPool (ℕ × Task) (ℕ × Phase)) : Server σ :=
  { srv with connections := Function.update srv.connections c con, pool := pool }

/-- The dispatcher blocks in `push` while the queue is full. -/
def stepRead (srv : Server σ) (c : ℕ) (data : Bytes) : Option (Server σ) :=
  if (srv.connections c).isClosed || data = [] then none
  else
    let r := netReader data (srv.connections c)
    if r.2 then (push (c, .handler) srv.pool).map (update srv c r.1)
    else some (update srv c r.1 srv.pool)

def stepClose (srv : Server σ) (c : ℕ) : Option (Server σ) :=
  some (update srv c { srv.connections c with isClosed := true } srv.pool)

def stepTake (srv : Server σ) (w : ℕ) : Option (Server σ) :=
  (threadRun (fun t => (t.1, Phase.begins t.2)) w srv.pool).map fun pool =>
    { srv with pool := pool }

def started (srv : Server σ) (w c : ℕ) (task : Task) : Outcome σ → Server σ
  | .returns con s => { update srv c con (turn w none srv.pool) with store := s }
  | .fails con s => { update srv c con (turn w none srv.pool) with
      store := s, failed := Function.update srv.failed c true }
  | .goesOn n con s => { update srv c con (turn w (some (c, .ends task n)) srv.pool) with
    store := s }

def finished (srv : Server σ) (w c : ℕ) (task : Task) (n : ℕ) : Server σ :=
  let con := finish n (srv.connections c) task
  update srv c con (turn w (some (c, .checks con.subTask.isSome)) srv.pool)

/-- A task that the queue has no room for is called in place. -/
def handOn (w c : ℕ) (pool : ThreadPool (ℕ × Task) (ℕ × Phase)) :
    Option Task → ThreadPool (ℕ × Task) (ℕ × Phase)
  | none => turn w none pool
  | some task =>
    let r := tryPush (c, task) pool
    turn w (if r.1 then none else some (c, .begins task)) r.2

section
variable (lib : Llhttp σ) (env : Env) (codec : Codec) (perHandle : ℕ)

def step (srv : Server σ) : Event → Option (Server σ)
  | .read c data => stepRead srv c data
  | .close c => stepClose srv c
  | .take w => stepTake srv w
  | .start w =>
    match phaseOf srv w with
    | some (c, .begins task) =>
      (start lib env codec perHandle (srv.connections c) srv.store task).map (started srv w c task)
    | _ => none
  | .finish w =>
    match phaseOf srv w with
    | some (c, .ends task n) => some (finished srv w c task n)
    | _ => none
  | .check w =>
    match phaseOf srv w with
    | some (c, .checks _) => some
        { srv with pool := handOn w c srv.pool (srv.connections c).subTask }
    | _ => none

end

def Open (srv : Server σ) (c : ℕ) : Prop :=
  (srv.connections c).isClosed = false ∧ srv.failed c = false

def waitsFor (c : ℕ) (t : ℕ × Task) : Bool := t.1 = c

def inTask (c : ℕ) (x : ℕ × Phase) : Bool := x.1 = c

def holds (c : ℕ) (x : ℕ × Phase) : Bool := x.1 = c && x.2 ≠ .checks false

/-- At most one task of an open connection is queued or running, and exactly one
while received bytes wait. -/
def OneTask (does : ℕ → ℕ × Phase → Bool) (srv : Server σ) : Prop := ∀ c, Open srv c →
  count (waitsFor c) (does c) srv.pool ≤ 1 ∧
  ((srv.connections c).requestBuffer ≠ [] → count (waitsFor c) (does c) srv.pool = 1)

/-- A worker that gave the connection back finds nothing bound. -/
def FindsNothing (srv : Server σ) : Event → Prop
  | .check w => ∀ c, phaseOf srv w = some (c, .checks false) → Open srv c →
      (srv.connections c).subTask = none
  | _ => True

/-- Bytes that make a handler necessary do not come while a worker is between
giving the connection back and its last look. -/
def ReadsBetween (srv : Server σ) : Event → Prop
  | .read c _ => Open srv c → (srv.connections c).isProcessing = false →
      ∀ bound, some (c, Phase.checks bound) ∉ srv.pool.workerThreads
  | _ => True

structure Start (srv : Server σ) : Prop where
  quiet : ∀ c, (srv.connections c).requestBuffer = [] ∧ (srv.connections c).isProcessing = false ∧
    (srv.connections c).subTask = none
  queue : srv.pool.taskQueue = []
  idle : ∀ o ∈ srv.pool.workerThreads, o = none

structure Sound (srv : Server σ) (c : ℕ) : Prop where
  owned : count (waitsFor c) (holds c) srv.pool = if (srv.connections c).isProcessing then 1 else 0
  received : (srv.connections c).requestBuffer ≠ [] → (srv.connections c).isProcessing = true
  free : (srv.connections c).isProcessing = false → (srv.connections c).subTask = none
  bound : some (c, Phase.checks true) ∈ srv.pool.workerThreads → (srv.connections c).subTask ≠ none

def AllSound (srv : Server σ) : Prop := ∀ c, Open srv c → Sound srv c

theorem sound_one {srv : Server σ} (h : AllSound srv) : OneTask holds srv := by
  intro c ho
  have hs := h c ho
  rw [hs.owned]
  constructor
  · split <;> omega
  · intro hne
    rw [hs.received hne, if_pos rfl]

theorem phaseOf_some {srv : Server σ} {w : ℕ} {x : ℕ × Phase} (h : phaseOf srv w = some x) :
    srv.pool.workerThreads[w]? = some (some x) := by
  rw [phaseOf, Option.join_eq_some_iff] at h
  exact h

theorem holds_other {c d : ℕ} (hne : d ≠ c) (phase : Phase) : holds d (c, phase) = false := by
  simp only [holds, decide_eq_false (Ne.symm hne), Bool.false_and]

theorem waitsFor_other {c d : ℕ} (hne : d ≠ c) (task : Task) : waitsFor d (c, task) = false :=
  decide_eq_false (Ne.symm hne)

theorem any_other {c d : ℕ} (hne : d ≠ c) {o : Option (ℕ × Phase)}
    (ho : ∀ x, o = some x → x.1 = c) :
    o.any (holds d) = false := by
  cases o with
  | none => rfl
  | some x =>
    obtain ⟨e, phase⟩ := x
    have he : e = c := ho _ rfl
    subst he
    exact holds_other hne phase

theorem sound_frame {srv srv' : Server σ} {d : ℕ} (hs : Sound srv d)
    (hcon : srv'.connections d = srv.connections d)
    (hcount : count (waitsFor d) (holds d) srv'.pool = count (waitsFor d) (holds d) srv.pool)
    (hmem : some (d, Phase.checks true) ∈ srv'.pool.workerThreads →
      some (d, Phase.checks true) ∈ srv.pool.workerThreads) : Sound srv' d := by
  constructor
  · rw [hcount, hcon]
    exact hs.owned
  · rw [hcon]
    exact hs.received
  · rw [hcon]
    exact hs.free
  · rw [hcon]
    exact fun h => hs.bound (hmem h)

theorem turn_mem_old {w : ℕ} {o : Option (ℕ × Phase)} {pool : ThreadPool (ℕ × Task) (ℕ × Phase)}
    {x : ℕ × Phase}
    (hx : some x ∈ (turn w o pool).workerThreads) (hne : o ≠ some x) :
    some x ∈ pool.workerThreads := by
  cases List.mem_or_eq_of_mem_set hx with
  | inl hmem => exact hmem
  | inr heq => exact absurd heq.symm hne

/-- Worker `w` goes from one phase on `c` to another, or leaves: the other
connections do not see it. -/
theorem sound_turn_other {srv srv' : Server σ} {w c d : ℕ} {phase : Phase}
    (hw : phaseOf srv w = some (c, phase))
    (hne : d ≠ c) (hs : Sound srv d) (o : Option (ℕ × Phase)) (ho : ∀ x, o = some x → x.1 = c)
    (hcon : srv'.connections d = srv.connections d) (hpool : srv'.pool = turn w o srv.pool) :
    Sound srv' d := by
  apply sound_frame hs hcon
  · have hturn := count_turn (waitsFor d) (holds d) w _ o srv.pool (phaseOf_some hw)
    rw [any_other hne ho, Option.any_some, holds_other hne] at hturn
    rw [hpool]
    exact Nat.add_right_cancel hturn
  · intro hx
    rw [hpool] at hx
    apply turn_mem_old hx
    intro heq
    exact hne (ho _ heq)

/-- A worker that holds an open connection is the only one. -/
theorem sound_sole {srv : Server σ} {w c : ℕ} {phase : Phase} (hs : Sound srv c)
    (hw : phaseOf srv w = some (c, phase)) (hp : phase ≠ .checks false) :
    (srv.connections c).isProcessing = true ∧ count (waitsFor c) (holds c) srv.pool = 1 ∧
    count (waitsFor c) (holds c) (turn w none srv.pool) = 0 := by
  have hturn := count_turn (waitsFor c) (holds c) w _ none srv.pool (phaseOf_some hw)
  have hholds : holds c (c, phase) = true := by simp [holds, hp]
  rw [Option.any_some, hholds, Option.any_none, hs.owned] at hturn
  simp only [if_true, Bool.false_eq_true, if_false, Nat.add_zero] at hturn
  cases hproc : (srv.connections c).isProcessing with
  | false =>
    rw [hproc, if_neg Bool.false_ne_true] at hturn
    omega
  | true =>
    refine ⟨rfl, by rw [hs.owned, hproc, if_pos rfl], ?_⟩
    rw [hproc, if_pos rfl] at hturn
    omega

theorem sole_unbound {w c : ℕ} {pool : ThreadPool (ℕ × Task) (ℕ × Phase)}
    (h : count (waitsFor c) (holds c) (turn w none pool) = 0) (o : Option (ℕ × Phase))
    (ho : o ≠ some (c, .checks true)) :
    some (c, Phase.checks true) ∉ (turn w o pool).workerThreads := by
  intro hx
  cases turn_mem w o pool _ hx with
  | inl heq => exact ho heq
  | inr hmem =>
    have hpos := count_pos (waitsFor c) (holds c) _ _ hmem (by simp [holds])
    omega

theorem count_goesOn {w c : ℕ} {phase : Phase} {srv : Server σ} (hs : Sound srv c)
    (hw : phaseOf srv w = some (c, phase)) (hp : phase ≠ .checks false) (o : Option (ℕ × Phase)) :
    count (waitsFor c) (holds c) (turn w o srv.pool) = if o.any (holds c) then 1 else 0 := by
  obtain ⟨-, hone, hzero⟩ := sound_sole hs hw hp
  have hturn := count_turn (waitsFor c) (holds c) w _ o srv.pool (phaseOf_some hw)
  have hholds : holds c (c, phase) = true := by simp [holds, hp]
  rw [Option.any_some, hholds, if_pos rfl, hone] at hturn
  omega

theorem sound_start {lib : Llhttp σ} {env : Env} {codec : Codec} {perHandle : ℕ}
    {srv : Server σ} {w c : ℕ}
    {task : Task} {o : Outcome σ} (h : AllSound srv) (hw : phaseOf srv w = some (c, .begins task))
    (hstart : start lib env codec perHandle (srv.connections c) srv.store task = some o) :
    AllSound (started srv w c task o) := by
  intro d hopen
  by_cases hne : d = c
  · subst hne
    cases o with
    | returns con s =>
      obtain ⟨hclosed, rfl⟩ := start_returns lib env codec perHandle _ _ task con s hstart
      have hc : (started srv w d task (.returns (srv.connections d) s)).connections
        d = srv.connections d :=
        Function.update_self ..
      rw [Open, hc, hclosed] at hopen
      exact nomatch hopen.1
    | fails con s =>
      have hf : (started srv w d task (.fails con s)).failed d = true := Function.update_self ..
      rw [Open, hf] at hopen
      exact nomatch hopen.2
    | goesOn n con s =>
      obtain ⟨hclosed, hk⟩ := start_goesOn lib env codec perHandle _ _ task n con s hstart
      have hs := h d ⟨hclosed, hopen.2⟩
      obtain ⟨hproc, hone, hzero⟩ := sound_sole hs hw (by simp)
      have hc : (started srv w d task (.goesOn n con s)).connections d = con :=
        Function.update_self ..
      constructor
      · rw [hc, hk.isProcessing, hproc]
        have hcount := count_goesOn hs hw (by simp) (some (d, .ends task n))
        refine hcount.trans ?_
        simp [holds]
      · rw [hc, hk.isProcessing]
        exact fun _ => hproc
      · rw [hc, hk.isProcessing, hproc]
        exact fun hn => nomatch hn
      · intro hx
        exact absurd hx (sole_unbound hzero _ (by simp))
  · have hcon : ∀ con, Function.update srv.connections c con d = srv.connections d :=
      fun con => by rw [Function.update_of_ne hne]
    cases o with
    | returns con s =>
      have hs := h d ⟨by rw [← hcon con]; exact hopen.1, hopen.2⟩
      exact sound_turn_other hw hne hs none (by simp) (hcon con) rfl
    | fails con s =>
      have hfail : Function.update srv.failed c true d = srv.failed d :=
        Function.update_of_ne hne _ _
      have hs := h d ⟨by rw [← hcon con]; exact hopen.1, by rw [← hfail]; exact hopen.2⟩
      exact sound_turn_other hw hne hs none (by simp) (hcon con) rfl
    | goesOn n con s =>
      have hs := h d ⟨by rw [← hcon con]; exact hopen.1, hopen.2⟩
      exact sound_turn_other hw hne hs (some (c, .ends task n)) (by simp) (hcon con) rfl

theorem finish_flags (n : ℕ) (con : Connection σ) (task : Task) (hproc : con.isProcessing = true) :
    (finish n con task).isClosed = con.isClosed ∧
    (((finish n con task).subTask = none ∧ (finish n con task).requestBuffer = [] ∧
      (finish n con task).isProcessing = false) ∨
    ((finish n con task).subTask ≠ none ∧ (finish n con task).isProcessing = true)) := by
  obtain ⟨buffer, hf⟩ := finish_settle n con task
  rw [hf]
  obtain ⟨hsub, hbuf, hs⟩ | ⟨-, -, hs⟩ | ⟨hsub, hs⟩ :=
    settle_cases { con with requestBuffer := buffer }
  · rw [hs]
    exact ⟨rfl, Or.inl ⟨hsub, hbuf, rfl⟩⟩
  · rw [hs]
    exact ⟨rfl, Or.inr ⟨Option.some_ne_none _, hproc⟩⟩
  · rw [hs]
    exact ⟨rfl, Or.inr ⟨hsub, hproc⟩⟩

theorem finish_closed (n : ℕ) (con : Connection σ) (task : Task) :
    (finish n con task).isClosed = con.isClosed := by
  obtain ⟨buffer, hf⟩ := finish_settle n con task
  rw [hf]
  obtain ⟨-, -, hs⟩ | ⟨-, -, hs⟩ | ⟨-, hs⟩ :=
    settle_cases { con with requestBuffer := buffer } <;> rw [hs]

theorem sound_finish {srv : Server σ} {w c : ℕ} {task : Task} {n : ℕ} (h : AllSound srv)
    (hw : phaseOf srv w = some (c, .ends task n)) : AllSound (finished srv w c task n) := by
  intro d hopen
  by_cases hne : d = c
  · subst hne
    have hc : (finished srv w d task n).connections d = finish n (srv.connections d) task :=
      Function.update_self ..
    have hclosed := finish_closed n (srv.connections d) task
    have hs := h d ⟨by rw [← hclosed, ← hc]; exact hopen.1, hopen.2⟩
    obtain ⟨hproc, -, hzero⟩ := sound_sole hs hw (by simp)
    have hcount := count_goesOn hs hw (by simp)
      (some (d, .checks (finish n (srv.connections d) task).subTask.isSome))
    obtain ⟨-, ⟨hsub, hbuf, hoff⟩ | ⟨hsub, hon⟩⟩ := finish_flags n (srv.connections d) task hproc
    · constructor
      · rw [hc, hoff]
        refine hcount.trans ?_
        simp [holds, hsub]
      · rw [hc, hbuf]
        exact fun hn => absurd rfl hn
      · rw [hc]
        exact fun _ => hsub
      · intro hx
        refine absurd hx (sole_unbound hzero _ ?_)
        simp [hsub]
    · constructor
      · rw [hc, hon]
        refine hcount.trans ?_
        simp [holds, Option.isSome_iff_ne_none.mpr hsub]
      · rw [hc]
        exact fun _ => hon
      · rw [hc, hon]
        exact fun hn => nomatch hn
      · rw [hc]
        exact fun _ => hsub
  · have hcon : ∀ con, Function.update srv.connections c con d = srv.connections d :=
      fun con => by rw [Function.update_of_ne hne]
    have hs := h d ⟨by rw [← hcon _]; exact hopen.1, hopen.2⟩
    exact sound_turn_other hw hne hs _ (fun x hx => by cases hx; rfl) (hcon _) rfl

theorem handOn_some (w c : ℕ) (pool : ThreadPool (ℕ × Task) (ℕ × Phase)) (task : Task) :
    (∃ pool', push (c, task) pool = some pool' ∧ handOn w c pool (some task) = turn w none pool') ∨
    handOn w c pool (some task) = turn w (some (c, .begins task)) pool := by
  rw [handOn]
  obtain ⟨pool', hpush, htry⟩ | htry := tryPush_cases (c, task) pool
  · left
    refine ⟨pool', hpush, ?_⟩
    rw [htry]
    rfl
  · right
    rw [htry]
    rfl

theorem stepRead_some {srv srv' : Server σ} {c : ℕ} {data : Bytes}
    (h : stepRead srv c data = some srv') :
    (srv.connections c).isClosed = false ∧ ∃ pool', srv' = update srv c
        { srv.connections c with
          requestBuffer := (srv.connections c).requestBuffer ++ data, isProcessing := true } pool' ∧
      (((srv.connections c).isProcessing = true ∧ pool' = srv.pool) ∨
        ((srv.connections c).isProcessing = false ∧ push (c, .handler) srv.pool = some pool')) := by
  simp only [stepRead] at h
  split_ifs at h with hclosed hpush
  · obtain ⟨pool', hp, rfl⟩ := Option.map_eq_some_iff.mp h
    obtain ⟨hcon, hflag⟩ := netReader_buffer data (srv.connections c)
    rw [hflag, Bool.not_eq_true'] at hpush
    refine ⟨by simp_all, pool', by rw [hcon], Or.inr ⟨hpush, hp⟩⟩
  · cases h
    obtain ⟨hcon, hflag⟩ := netReader_buffer data (srv.connections c)
    rw [hflag, Bool.not_eq_true', Bool.not_eq_false] at hpush
    refine ⟨by simp_all, srv.pool, by rw [hcon], Or.inl ⟨hpush, rfl⟩⟩

theorem sound_read {srv srv' : Server σ} {c : ℕ} {data : Bytes} (h : AllSound srv)
    (hread : stepRead srv c data = some srv') : AllSound srv' := by
  obtain ⟨hclosed, pool', rfl, hcase⟩ := stepRead_some hread
  intro d hopen
  have hworkers : pool'.workerThreads = srv.pool.workerThreads := by
    obtain ⟨-, rfl⟩ | ⟨-, hpush⟩ := hcase
    · rfl
    · exact (count_push (waitsFor c) (holds c) _ _ _ hpush).1
  by_cases hne : d = c
  · subst hne
    have hs := h d ⟨hclosed, hopen.2⟩
    have hcount : count (waitsFor d) (holds d) pool' = 1 := by
      obtain ⟨hproc, rfl⟩ | ⟨hproc, hpush⟩ := hcase
      · rw [hs.owned, hproc, if_pos rfl]
      · rw [(count_push (waitsFor d) (holds d) _ _ _ hpush).2, hs.owned, hproc]
        simp [waitsFor]
    constructor
    · simp only [update, Function.update_self, if_true]
      exact hcount
    · simp [update]
    · simp [update]
    · intro hx
      have hx : some (d, Phase.checks true) ∈ srv.pool.workerThreads := by
        rw [← hworkers]
        exact hx
      simp only [update, Function.update_self]
      exact hs.bound hx
  · have hcon : ∀ con, Function.update srv.connections c con d = srv.connections d :=
      fun con => by rw [Function.update_of_ne hne]
    apply sound_frame (h d ⟨by rw [← hcon _]; exact hopen.1, hopen.2⟩) (hcon _)
    · obtain ⟨-, rfl⟩ | ⟨-, hpush⟩ := hcase
      · rfl
      · change count (waitsFor d) (holds d) pool' = _
        rw [(count_push (waitsFor d) (holds d) _ _ _ hpush).2, waitsFor_other hne]
        rfl
    · intro hx
      rw [← hworkers]
      exact hx

theorem sound_close {srv srv' : Server σ} {c : ℕ} (h : AllSound srv)
    (hclose : stepClose srv c = some srv') :
    AllSound srv' := by
  cases hclose
  intro d hopen
  by_cases hne : d = c
  · subst hne
    have hclosed := hopen.1
    simp only [update, Function.update_self] at hclosed
    cases hclosed
  · have hcon : ∀ con, Function.update srv.connections c con d = srv.connections d :=
      fun con => by rw [Function.update_of_ne hne]
    exact sound_frame (h d ⟨by rw [← hcon _]; exact hopen.1, hopen.2⟩) (hcon _) rfl id

theorem sound_take {srv srv' : Server σ} {w : ℕ} (h : AllSound srv)
    (htake : stepTake srv w = some srv') :
    AllSound srv' := by
  obtain ⟨pool', hpool, rfl⟩ := Option.map_eq_some_iff.mp htake
  intro d hopen
  refine sound_frame (h d hopen) rfl ?_ ?_
  · apply count_threadRun (waitsFor d) (holds d) _ _ w _ _ hpool
    intro t
    simp [holds, waitsFor]
  · intro hx
    obtain ⟨task, rest, -, -, rfl⟩ := threadRun_some _ _ _ _ hpool
    exact turn_mem_old hx (by simp)

theorem sound_back {srv : Server σ} {w c : ℕ} {bound : Bool}
    (hw : phaseOf srv w = some (c, .checks bound))
    (hsub : (srv.connections c).subTask = none) {d : ℕ}
    (hs : Sound srv d) : Sound { srv with pool := turn w none srv.pool } d := by
  by_cases hne : d = c
  · subst hne
    cases bound with
    | true => exact absurd hsub (hs.bound (List.mem_of_getElem? (phaseOf_some hw)))
    | false =>
      refine sound_frame hs rfl ?_ ?_
      · have hturn := count_turn (waitsFor d) (holds d) w _ none srv.pool (phaseOf_some hw)
        have hholds : holds d (d, .checks false) = false := by simp [holds]
        rw [Option.any_some, hholds, Option.any_none] at hturn
        exact Nat.add_right_cancel hturn
      · exact fun hx => turn_mem_old hx (by simp)
  · exact sound_turn_other hw hne hs none (by simp) rfl rfl

theorem sound_handOn {srv : Server σ} {w d : ℕ} (hw : phaseOf srv w = some (d, .checks true))
    (hs : Sound srv d)
    (task : Task) (hsub : (srv.connections d).subTask = some task) :
    Sound { srv with pool := handOn w d srv.pool (some task) } d := by
  obtain ⟨hproc, -, hzero⟩ := sound_sole hs hw (by simp)
  have hcount := count_goesOn hs hw (by simp)
  have hsome : (srv.connections d).subTask ≠ none := by
    rw [hsub]
    exact Option.some_ne_none _
  obtain ⟨pool', hpush, hpool⟩ | hpool := handOn_some w d srv.pool task
  · obtain ⟨hworkers, hup⟩ := count_push (waitsFor d) (holds d) _ _ _ hpush
    have hw' : pool'.workerThreads[w]? = some (some (d, .checks true)) := by
      rw [hworkers]
      exact phaseOf_some hw
    have hturn := count_turn (waitsFor d) (holds d) w _ none pool' hw'
    constructor
    · simp only [hpool, hproc, if_true]
      rw [hup, hs.owned, hproc] at hturn
      simp [holds, waitsFor] at hturn
      exact hturn
    · exact hs.received
    · exact hs.free
    · exact fun _ => hsome
  · constructor
    · simp only [hpool, hproc, if_true]
      refine (hcount _).trans ?_
      simp [holds]
    · exact hs.received
    · exact hs.free
    · exact fun _ => hsome

theorem sound_handOn_other {srv : Server σ} {w c d : ℕ} {bound : Bool}
    (hw : phaseOf srv w = some (c, .checks bound))
    (hne : d ≠ c) (hs : Sound srv d) (task : Task) :
    Sound { srv with pool := handOn w c srv.pool (some task) } d := by
  obtain ⟨pool', hpush, hpool⟩ | hpool := handOn_some w c srv.pool task
  · obtain ⟨hworkers, hup⟩ := count_push (waitsFor d) (holds d) _ _ _ hpush
    have hw' : pool'.workerThreads[w]? = some (some (c, .checks bound)) := by
      rw [hworkers]
      exact phaseOf_some hw
    have hturn := count_turn (waitsFor d) (holds d) w _ none pool' hw'
    refine sound_frame hs rfl ?_ ?_
    · simp only [hpool]
      rw [hup, waitsFor_other hne, Option.any_some, holds_other hne] at hturn
      exact Nat.add_right_cancel hturn
    · intro hx
      simp only [hpool] at hx
      rw [← hworkers]
      exact turn_mem_old hx (by simp)
  · exact sound_turn_other hw hne hs _ (fun x hx => by cases hx; rfl) rfl hpool

theorem sound_check {srv : Server σ} {w c : ℕ} {bound : Bool} (h : AllSound srv)
    (hw : phaseOf srv w = some (c, .checks bound)) (hfinds : FindsNothing srv (.check w)) :
    AllSound { srv with pool := handOn w c srv.pool (srv.connections c).subTask } := by
  intro d hopen
  have hs := h d hopen
  cases hsub : (srv.connections c).subTask with
  | none => exact sound_back hw hsub hs
  | some task =>
    by_cases hne : d = c
    · subst hne
      cases bound with
      | true => exact sound_handOn hw hs task hsub
      | false =>
        rw [hfinds d hw hopen] at hsub
        cases hsub
    · exact sound_handOn_other hw hne hs task

section
variable {lib : Llhttp σ} {env : Env} {codec : Codec} {perHandle : ℕ}

theorem step_sound (srv : Server σ) (e : Event) (srv' : Server σ) (h : AllSound srv)
    (hfinds : FindsNothing srv e)
    (hstep : step lib env codec perHandle srv e = some srv') : AllSound srv' := by
  cases e with
  | read c data => exact sound_read h hstep
  | close c => exact sound_close h hstep
  | take w => exact sound_take h hstep
  | start w =>
    simp only [step] at hstep
    split at hstep
    · rename_i c task hw
      obtain ⟨o, ho, rfl⟩ := Option.map_eq_some_iff.mp hstep
      exact sound_start h hw ho
    · cases hstep
  | finish w =>
    simp only [step] at hstep
    split at hstep
    · rename_i c task n hw
      cases hstep
      exact sound_finish h hw
    · cases hstep
  | check w =>
    simp only [step] at hstep
    split at hstep
    · rename_i c bound hw
      cases hstep
      exact sound_check h hw hfinds
    · cases hstep

structure Alone (srv : Server σ) : Prop where
  sound : AllSound srv
  single : ∀ c, Open srv c → count (waitsFor c) (inTask c) srv.pool ≤ 1

theorem holds_inTask (c : ℕ) (x : ℕ × Phase) (h : holds c x = true) : inTask c x = true :=
  (Bool.and_eq_true_iff.mp h).1

theorem alone_one {srv : Server σ} (h : Alone srv) : OneTask inTask srv := by
  intro c ho
  refine ⟨h.single c ho, fun hne => ?_⟩
  have hone := (sound_one h.sound c ho).2 hne
  have hle := count_mono (waitsFor c) (holds c) (inTask c) (holds_inTask c) srv.pool
  have hmost := h.single c ho
  omega

theorem alone_back {srv : Server σ} {w c : ℕ} (h : Alone srv) (ho : Open srv c)
    (hw : phaseOf srv w = some (c, .checks false)) : (srv.connections c).isProcessing = false := by
  have hkeep := count_turn (waitsFor c) (holds c) w _ none srv.pool (phaseOf_some hw)
  have hdrop := count_turn (waitsFor c) (inTask c) w _ none srv.pool (phaseOf_some hw)
  have hle := count_mono (waitsFor c) (holds c) (inTask c) (holds_inTask c) (turn w none srv.pool)
  have hmost := h.single c ho
  have hholds : holds c (c, .checks false) = false := by simp [holds]
  have hin : inTask c (c, .checks false) = true := by simp [inTask]
  rw [Option.any_some, hholds, Option.any_none, (h.sound c ho).owned] at hkeep
  rw [Option.any_some, hin, Option.any_none] at hdrop
  simp only [if_true, Bool.false_eq_true, if_false, Nat.add_zero] at hkeep hdrop
  cases hproc : (srv.connections c).isProcessing with
  | false => rfl
  | true =>
    rw [hproc, if_pos rfl] at hkeep
    omega

theorem alone_finds {srv : Server σ} (h : Alone srv) (e : Event) : FindsNothing srv e := by
  cases e with
  | read | close | take | start | finish => trivial
  | check w => exact fun c hw ho => (h.sound c ho).free (alone_back h ho hw)

theorem inTask_turn {srv : Server σ} {w c : ℕ} {phase : Phase}
    (hw : phaseOf srv w = some (c, phase)) (d : ℕ)
    (o : Option (ℕ × Phase)) (ho : ∀ x, o = some x → x.1 = c) :
    count (waitsFor d) (inTask d) (turn w o srv.pool) ≤ count (waitsFor d) (inTask d) srv.pool := by
  apply count_turn_le _ _ w _ o srv.pool (phaseOf_some hw)
  intro hany
  cases o with
  | none => cases hany
  | some x =>
    have hx : x.1 = c := ho x rfl
    rw [Option.any_some, inTask, hx] at hany
    exact hany

theorem inTask_handOn {srv : Server σ} {w c : ℕ} {phase : Phase}
    (hw : phaseOf srv w = some (c, phase)) (d : ℕ)
    (next : Option Task) : count (waitsFor d) (inTask d) (handOn w c srv.pool next) ≤
      count (waitsFor d) (inTask d) srv.pool := by
  cases next with
  | none => exact inTask_turn hw d none (by simp)
  | some task =>
    obtain ⟨pool', hpush, hpool⟩ | hpool := handOn_some w c srv.pool task
    · obtain ⟨hworkers, hup⟩ := count_push (waitsFor d) (inTask d) _ _ _ hpush
      have hw' : pool'.workerThreads[w]? = some (some (c, phase)) := by
        rw [hworkers]
        exact phaseOf_some hw
      have hturn := count_turn (waitsFor d) (inTask d) w _ none pool' hw'
      rw [Option.any_some, Option.any_none, inTask] at hturn
      rw [hpool]
      rw [hup] at hturn
      by_cases hcd : c = d
      · simp only [waitsFor, hcd, decide_true, if_true, Bool.false_eq_true, if_false] at hturn
        omega
      · simp only [waitsFor, hcd, decide_false, Bool.false_eq_true, if_false] at hturn
        omega
    · rw [hpool]
      exact inTask_turn hw d _ (fun x hx => by cases hx; rfl)

theorem single_le {srv srv' : Server σ} (h : Alone srv) (hopen : ∀ d, Open srv' d → Open srv d)
    (hle : ∀ d, count (waitsFor d) (inTask d) srv'.pool ≤ count (waitsFor d) (inTask d) srv.pool)
    (d : ℕ)
    (ho : Open srv' d) : count (waitsFor d) (inTask d) srv'.pool ≤ 1 :=
  (hle d).trans (h.single d (hopen d ho))

theorem open_update {srv srv' : Server σ} {c d : ℕ} {con : Connection σ} (h : Open srv' d)
    (hcon : srv'.connections = Function.update srv.connections c con)
    (hfailed : srv'.failed = srv.failed)
    (hclosed : con.isClosed = false → (srv.connections c).isClosed = false) : Open srv d := by
  rw [Open, hcon, hfailed] at h
  refine ⟨?_, h.2⟩
  have hd := h.1
  by_cases hne : d = c
  · subst hne
    rw [Function.update_self] at hd
    exact hclosed hd
  · rwa [Function.update_of_ne hne] at hd

theorem idle_count {srv : Server σ} {c : ℕ} (hs : Sound srv c)
    (hproc : (srv.connections c).isProcessing = false)
    (hreads : ∀ bound, some (c, Phase.checks bound) ∉ srv.pool.workerThreads) :
    count (waitsFor c) (inTask c) srv.pool = 0 := by
  have hzero := hs.owned
  rw [hproc, if_neg Bool.false_ne_true] at hzero
  by_contra hpos
  obtain ⟨⟨d, phase⟩, hx, hin, hout⟩ :=
    count_witness (waitsFor c) (inTask c) (holds c) srv.pool hzero (Nat.pos_of_ne_zero hpos)
  have hd : d = c := of_decide_eq_true hin
  subst hd
  have hphase : phase = .checks false := by
    by_contra hne
    simp [holds, hne] at hout
  subst hphase
  exact hreads false hx

theorem single_start {srv : Server σ} (h : Alone srv) {w c : ℕ} {task : Task} {o : Outcome σ}
    (hw : phaseOf srv w = some (c, .begins task))
    (hstart : start lib env codec perHandle (srv.connections c) srv.store task = some o) (d : ℕ)
    (hd : Open (started srv w c task o) d) :
    count (waitsFor d) (inTask d) (started srv w c task o).pool ≤ 1 := by
  cases o with
  | returns con s =>
    obtain ⟨-, rfl⟩ := start_returns lib env codec perHandle _ _ task con s hstart
    exact (inTask_turn hw d none (by simp)).trans (h.single d (open_update hd rfl rfl id))
  | fails con s =>
    have hfail := hd.2
    have hne : d ≠ c := by
      rintro rfl
      simp only [started, Function.update_self] at hfail
      cases hfail
    simp only [started, Function.update_of_ne hne] at hfail
    have hcon := hd.1
    simp only [started, update, Function.update_of_ne hne] at hcon
    exact (inTask_turn hw d none (by simp)).trans (h.single d ⟨hcon, hfail⟩)
  | goesOn n con s =>
    obtain ⟨hclosed, -⟩ := start_goesOn lib env codec perHandle _ _ task n con s hstart
    exact (inTask_turn hw d _ (fun x hx => by cases hx; rfl)).trans
      (h.single d (open_update hd rfl rfl fun _ => hclosed))

theorem step_alone (srv : Server σ) (e : Event) (srv' : Server σ) (h : Alone srv)
    (hreads : ReadsBetween srv e)
    (hstep : step lib env codec perHandle srv e = some srv') : Alone srv' := by
  refine ⟨step_sound srv e srv' h.sound (alone_finds h e) hstep, ?_⟩
  cases e with
  | read c data =>
    obtain ⟨hclosed, pool', rfl, hcase⟩ := stepRead_some hstep
    intro d ho
    have hold := open_update ho rfl rfl (fun _ => hclosed)
    obtain ⟨-, rfl⟩ | ⟨hproc, hpush⟩ := hcase
    · exact h.single d hold
    · change count (waitsFor d) (inTask d) pool' ≤ 1
      rw [(count_push (waitsFor d) (inTask d) _ _ _ hpush).2]
      by_cases hne : d = c
      · subst hne
        rw [idle_count (h.sound d hold) hproc (hreads hold hproc)]
        split <;> omega
      · rw [waitsFor_other hne]
        exact h.single d hold
  | close c =>
    cases hstep
    exact single_le h (fun d hd => open_update hd rfl rfl (fun hn => by cases hn))
      (fun d => Nat.le_refl _)
  | take w =>
    obtain ⟨pool', hpool, rfl⟩ := Option.map_eq_some_iff.mp hstep
    refine single_le h (fun d ho => ho) ?_
    intro d
    apply Nat.le_of_eq
    exact count_threadRun (waitsFor d) (inTask d) _ (fun t => rfl) w _ _ hpool
  | start w =>
    simp only [step] at hstep
    split at hstep
    · rename_i c task hw
      obtain ⟨o, ho, rfl⟩ := Option.map_eq_some_iff.mp hstep
      exact single_start h hw ho
    · cases hstep
  | finish w =>
    simp only [step] at hstep
    split at hstep
    · rename_i c task n hw
      cases hstep
      apply single_le h
      · intro d hd
        apply open_update hd rfl rfl
        rw [finish_closed]
        exact id
      · exact fun d => inTask_turn hw d _ (fun x hx => by cases hx; rfl)
    · cases hstep
  | check w =>
    simp only [step] at hstep
    split at hstep
    · rename_i c bound hw
      cases hstep
      exact single_le h (fun d hd => hd) (fun d => inTask_handOn hw d _)
    · cases hstep

theorem read_breaks (srv : Server σ) (e : Event) (srv' : Server σ) (hnot : ¬ ReadsBetween srv e)
    (hstep : step lib env codec perHandle srv e = some srv') : ¬ OneTask inTask srv' := by
  cases e with
  | close | take | start | finish | check => exact absurd trivial hnot
  | read c data =>
    simp only [ReadsBetween, not_forall, not_not] at hnot
    obtain ⟨hopen, hproc, bound, hmem⟩ := hnot
    obtain ⟨-, pool', rfl, hcase⟩ := stepRead_some hstep
    obtain ⟨hproc', -⟩ | ⟨-, hpush⟩ := hcase
    · rw [hproc] at hproc'
      cases hproc'
    · intro honly
      have hopen' : Open (update srv c { srv.connections c with
          requestBuffer := (srv.connections c).requestBuffer ++ data, isProcessing :=
            true } pool') c := by
        refine ⟨?_, hopen.2⟩
        simp only [update, Function.update_self]
        exact hopen.1
      have hle : count (waitsFor c) (inTask c) pool' ≤ 1 := (honly c hopen').1
      have hpos := count_pos (waitsFor c) (inTask c) srv.pool _ hmem (by simp [inTask])
      rw [(count_push (waitsFor c) (inTask c) _ _ _ hpush).2] at hle
      simp [waitsFor] at hle
      omega

theorem check_breaks (srv : Server σ) (e : Event) (srv' : Server σ) (h : AllSound srv)
    (hnot : ¬ FindsNothing srv e)
    (hstep : step lib env codec perHandle srv e = some srv') : ¬ OneTask holds srv' := by
  cases e with
  | read | close | take | start | finish => exact absurd trivial hnot
  | check w =>
    simp only [FindsNothing, not_forall] at hnot
    obtain ⟨c, hw, hopen, hbound⟩ := hnot
    have hs := h c hopen
    have hproc : (srv.connections c).isProcessing = true := by
      by_contra hn
      exact hbound (hs.free (Bool.eq_false_iff.mpr hn))
    have hone : count (waitsFor c) (holds c) srv.pool = 1 := by rw [hs.owned, hproc, if_pos rfl]
    simp only [step, hw] at hstep
    cases hstep
    obtain ⟨task, hsub⟩ := Option.ne_none_iff_exists'.mp hbound
    intro honly
    have hle := (honly c hopen).1
    simp only [hsub] at hle
    obtain ⟨pool', hpush, hpool⟩ | hpool := handOn_some w c srv.pool task
    · obtain ⟨hworkers, hup⟩ := count_push (waitsFor c) (holds c) _ _ _ hpush
      have hw' : pool'.workerThreads[w]? = some (some (c, .checks false)) := by
        rw [hworkers]
        exact phaseOf_some hw
      have hturn := count_turn (waitsFor c) (holds c) w _ none pool' hw'
      rw [hpool] at hle
      rw [hup, hone] at hturn
      simp [holds, waitsFor] at hturn
      omega
    · have hturn := count_turn (waitsFor c) (holds c) w _ (some (c, .begins task)) srv.pool
        (phaseOf_some hw)
      rw [hpool] at hle
      rw [hone] at hturn
      simp [holds] at hturn
      omega

theorem start_sound (srv : Server σ) (h : Start srv) : Alone srv := by
  have hworkers : ∀ p : Option (ℕ × Phase) → Bool, p none = false →
    srv.pool.workerThreads.countP p = 0 := by
    intro p hp
    apply List.countP_eq_zero.mpr
    intro o ho
    rw [h.idle o ho, hp]
    exact Bool.false_ne_true
  have hcount : ∀ c does, count (waitsFor c) does srv.pool = 0 := by
    intro c does
    rw [count, h.queue, hworkers _ rfl]
    rfl
  constructor
  · intro c _
    obtain ⟨hbuf, hproc, hsub⟩ := h.quiet c
    constructor
    · rw [hcount, hproc]
      rfl
    · exact fun hn => absurd hbuf hn
    · exact fun _ => hsub
    · intro hmem
      cases h.idle _ hmem
  · intro c _
    rw [hcount]
    exact Nat.zero_le 1

/-- Counting a worker until it has given the connection back, no connection has a
second task exactly as long as no such worker finds a task bound; counting it
until it has returned, exactly as long as no handler is pushed before that. -/
theorem one_outstanding (srv : Server σ) (events : List Event) (h : Start srv) :
    (Throughout (step lib env codec perHandle) (OneTask holds) srv events ↔
      Meets (step lib env codec perHandle) FindsNothing srv events) ∧
    (Throughout (step lib env codec perHandle) (OneTask inTask) srv events ↔
      Meets (step lib env codec perHandle) ReadsBetween srv events) := by
  have hs := start_sound srv h
  constructor
  · exact throughout_iff_meets (fun _ => sound_one) step_sound check_breaks hs.sound
  · exact throughout_iff_meets (fun _ => alone_one) step_alone (fun s e t _ => read_breaks s e t) hs

end

def quietServer : Server ℕ where
  store := Store.fresh (fun _ => 0) { files := ∅, faults := [] }
  connections := fun _ => { parser := 0 }
  pool := { taskQueueCapacity := 2, workerThreads := [none, none] }
  failed := fun _ => false

theorem quietServer_start : Start quietServer where
  quiet := fun _ => ⟨rfl, rfl, rfl⟩
  queue := rfl
  idle := fun o ho => by
    simp only [quietServer, List.mem_cons, List.not_mem_nil, or_false, or_self] at ho
    exact ho

/-- Worker 0 has given the connection back when the handler for further bytes is
pushed, and looks at `_sub_task` when that handler has bound its successor. -/
def strayCheck : List Event :=
  [.read 0 (bytes "G"), .take 0, .start 0, .finish 0, .read 0 (bytes "ET"), .take 1, .start 1,
    .finish 1, .check 1, .check 0]

/-- The same parser call waits twice, and two workers can make it at once. -/
theorem two_handlers : Start quietServer ∧
    ∃ srv, run (step requestBytes.llhttp plainEnv plainCodec 1) quietServer strayCheck = some srv ∧
      Open srv 0 ∧ srv.pool.taskQueue = [(0, .handler), (0, .handler)] ∧
      (srv.connections 0).requestBuffer = bytes "T" ∧ ¬ OneTask holds srv ∧
        ¬ OneTask inTask srv := by
  have hrun : (run (step requestBytes.llhttp plainEnv plainCodec 1) quietServer strayCheck).map
      (fun srv => ((srv.connections 0).isClosed, srv.failed 0, srv.pool.taskQueue,
        (srv.connections 0).requestBuffer)) =
      some (false, false, [(0, .handler), (0, .handler)], bytes "T") := by decide +kernel
  obtain ⟨srv, hsrv, hfields⟩ := Option.map_eq_some_iff.mp hrun
  simp only [Prod.mk.injEq] at hfields
  obtain ⟨hclosed, hfailed, hqueue, hbuf⟩ := hfields
  have htwo : ∀ does, 2 ≤ count (waitsFor 0) does srv.pool := by
    intro does
    rw [count, hqueue]
    exact Nat.le_add_right 2 _
  refine ⟨quietServer_start, srv, hsrv, ⟨hclosed, hfailed⟩, hqueue, hbuf, fun h => ?_, fun h => ?_⟩
  · have hle := (h 0 ⟨hclosed, hfailed⟩).1
    have hge := htwo (holds 0)
    omega
  · have hle := (h 0 ⟨hclosed, hfailed⟩).1
    have hge := htwo (inTask 0)
    omega

theorem one_outstanding_quiet :
    (Throughout (step requestBytes.llhttp plainEnv plainCodec 1)
      (OneTask holds) quietServer strayCheck ↔
      Meets (step requestBytes.llhttp plainEnv plainCodec 1) FindsNothing quietServer strayCheck) ∧
    (Throughout (step requestBytes.llhttp plainEnv plainCodec 1)
      (OneTask inTask) quietServer strayCheck ↔
      Meets (step requestBytes.llhttp plainEnv plainCodec 1) ReadsBetween quietServer strayCheck) :=
  one_outstanding quietServer strayCheck quietServer_start

end CloudBackup.OutstandingTask
