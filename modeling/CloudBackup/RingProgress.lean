import CloudBackup.TaskRing

/-!
# The task ring never sticks

Threads wait in the ring only for tasks: a worker when every task has been
taken, a producer when the ring is full of announced tasks and each worker is
in a task. When the tasks end and no call is made, the ring runs empty within
a number of steps that is known beforehand, with every call returned.
-/

set_option autoImplicit false

namespace CloudBackup.RingProgress
open CloudBackup.RunInvariants CloudBackup.TaskRing

variable {τ : Type*}

def isCall : Event τ → Bool
  | .call _ _ _ => true
  | _ => false

def isFinish : Event τ → Bool
  | .finish _ => true
  | _ => false

/-- What is still to do for a call and its task: the wait, the write and the post, and for
the task the wait of a worker, the locked take, the post and the run. -/
def callWork : Option (Push τ) → ℕ
  | none => 0
  | some x =>
    match x.stage with
    | .called => 7
    | .admitted => 6
    | .written => 5

def workerWork : Option (Working τ) → ℕ
  | none => 0
  | some .taking => 3
  | some (.posting _) => 2
  | some (.running _) => 1

def work (r : ThreadPool τ) : ℕ :=
  (r.producers.map callWork).sum + 4*r.readyTasks + (r.workerThreads.map workerWork).sum

structure Waiting (r : ThreadPool τ) (pending : List τ) : Prop where
  producers : ∀ (p : ℕ) (x : Push τ), r.producers[p]? = some (some x) →
    x.stage = .called ∧ x.blocking = true ∧ pending.length = r.taskQueueCapacity
  announced : r.readyTasks = pending.length
  workers : pending ≠ [] → ∀ (w : ℕ) (o : Option (Working τ)), r.workerThreads[w]? = some o →
    ∃ task, o = some (.running task)

structure Drained (r : ThreadPool τ) : Prop where
  producers : ∀ (p : ℕ) (o : Option (Push τ)), r.producers[p]? = some o → o = none
  workers : ∀ (w : ℕ) (o : Option (Working τ)), r.workerThreads[w]? = some o → o = none
  tasks : r.taken = r.written.map some

structure Drains (r : ThreadPool τ) : Prop where
  ends : ∀ (events : List (Event τ)) (r' : ThreadPool τ), (∀ e ∈ events, isCall e = false) →
    run step r events = some r' → events.length+work r' ≤ work r
  waits : (∀ e, isCall e = false → isFinish e = false → step r e = none) →
    ∃ pending, r.written.map some = r.taken ++ pending.map some ∧ Waiting r pending
  drained : (∀ e, isCall e = false → step r e = none) → Drained r

inductive Moves (r : ThreadPool τ) : Event τ → ThreadPool τ → Prop where
  | call (p : ℕ) (task : Option τ) (blocking : Bool) (hp : r.producers[p]? = some none) :
      Moves r (.call p task blocking) (call r p blocking task)
  | enter (p : ℕ) (x : Push τ) (hp : r.producers[p]? = some (some x)) (hx : x.stage = .called) :
      Moves r (.semWait p) { r with
        freeSlots := r.freeSlots-1, producers :=
          r.producers.set p (some { x with stage := .admitted }) }
  | refuse (p : ℕ) (x : Push τ) (hp : r.producers[p]? = some (some x)) (hx : x.stage = .called) :
      Moves r (.semWait p) { r with
        producers := r.producers.set p none, returned :=
          r.returned ++ [⟨some x.task, x.stored, some false⟩] }
  | write (p : ℕ) (x : Push τ) (hp : r.producers[p]? = some (some x)) (hx : x.stage = .admitted) :
      Moves r (.write p) (write r p x)
  | post (p : ℕ) (x : Push τ) (hp : r.producers[p]? = some (some x)) (hx : x.stage = .written) :
      Moves r (.semPost p) (semPost r p x)
  | wake (w : ℕ) (hw : r.workerThreads[w]? = some none) (hready : 0 < r.readyTasks) :
      Moves r (.workerWait w) { r with
        readyTasks := r.readyTasks-1, workerThreads := r.workerThreads.set w (some .taking) }
  | take (w : ℕ) (hw : r.workerThreads[w]? = some (some .taking)) : Moves r (.take w) (take r w)
  | release (w : ℕ) (task : Option τ) (hw : r.workerThreads[w]? = some (some (.posting task))) :
      Moves r (.workerPost w) { r with
        freeSlots := r.freeSlots+1, workerThreads := r.workerThreads.set w (some (.running task)) }
  | finish (w : ℕ) (task : τ) (hw : r.workerThreads[w]? = some (some (.running (some task)))) :
      Moves r (.finish w) { r with workerThreads := r.workerThreads.set w none }

theorem step_moves {r r' : ThreadPool τ} {e : Event τ} (hr : step r e = some r') :
    Moves r e r' := by
  cases e with
  | call p task blocking =>
    simp only [step] at hr
    split at hr
    · rename_i hp
      cases hr
      exact .call p task blocking hp
    · cases hr
  | semWait p =>
    simp only [step] at hr
    split at hr
    · rename_i x hp
      split_ifs at hr with hx
      unfold semWait at hr
      split_ifs at hr <;> cases hr
      · exact .enter p x hp hx
      · exact .refuse p x hp hx
    · cases hr
  | write p =>
    simp only [step] at hr
    split at hr
    · rename_i x hp
      split_ifs at hr with hx
      cases hr
      exact .write p x hp hx
    · cases hr
  | semPost p =>
    simp only [step] at hr
    split at hr
    · rename_i x hp
      split_ifs at hr with hx
      cases hr
      exact .post p x hp hx
    · cases hr
  | workerWait w =>
    simp only [step] at hr
    split at hr
    · rename_i hw
      unfold workerWait at hr
      split_ifs at hr with hready
      cases hr
      exact .wake w hw hready
    · cases hr
  | take w =>
    simp only [step] at hr
    split at hr
    · rename_i hw
      cases hr
      exact .take w hw
    · cases hr
  | workerPost w =>
    simp only [step] at hr
    split at hr
    · rename_i task hw
      cases hr
      exact .release w task hw
    · cases hr
  | finish w =>
    simp only [step] at hr
    split at hr
    · rename_i task hw
      cases hr
      exact .finish w task hw
    · cases hr

theorem moves_workers {r r' : ThreadPool τ} {e : Event τ} (hm : Moves r e r') :
    r'.workerThreads.length = r.workerThreads.length := by
  cases hm with
  | call p task blocking => cases task <;> rfl
  | enter | refuse | write | post => rfl
  | wake | take | release | finish => exact List.length_set

theorem sum_turn {α : Type*} (f : α → ℕ) (xs : List α) (i : ℕ) (a b : α) (h : xs[i]? = some a) :
    ((xs.set i b).map f).sum + f a = (xs.map f).sum + f b := by
  induction xs generalizing i with
  | nil => cases h
  | cons x xs ih =>
    cases i with
    | zero =>
      cases h
      simp only [List.set_cons_zero, List.map_cons, List.sum_cons]
      omega
    | succ i =>
      have hi := ih i h
      simp only [List.set_cons_succ, List.map_cons, List.sum_cons]
      omega

theorem moves_work {r r' : ThreadPool τ} {e : Event τ} (he : isCall e = false) (hm : Moves r e r') :
    work r' < work r := by
  cases hm with
  | call p task blocking hp => cases he
  | enter p x hp hx =>
    have hsum := sum_turn callWork r.producers p _ (some { x with stage := .admitted }) hp
    simp only [callWork, hx] at hsum
    simp only [work]
    omega
  | refuse p x hp hx =>
    have hsum := sum_turn callWork r.producers p _ none hp
    simp only [callWork, hx] at hsum
    simp only [work]
    omega
  | write p x hp hx =>
    have hsum := sum_turn callWork r.producers p _ (some (filed x)) hp
    have hfiled : (filed x).stage = .written := rfl
    simp only [callWork, hx, hfiled] at hsum
    simp only [work, write]
    omega
  | post p x hp hx =>
    have hsum := sum_turn callWork r.producers p _ none hp
    simp only [callWork, hx] at hsum
    simp only [work, semPost]
    omega
  | wake w hw hready =>
    have hsum := sum_turn workerWork r.workerThreads w _ (some .taking) hw
    simp only [workerWork] at hsum
    simp only [work]
    omega
  | take w hw =>
    have hsum := sum_turn workerWork r.workerThreads w _
      (some (.posting r.taskQueue[r.consumerPos]?.join)) hw
    simp only [workerWork] at hsum
    simp only [work, take]
    omega
  | release w task hw =>
    have hsum := sum_turn workerWork r.workerThreads w _ (some (.running task)) hw
    simp only [workerWork] at hsum
    simp only [work]
    omega
  | finish w task hw =>
    have hsum := sum_turn workerWork r.workerThreads w _ none hw
    simp only [workerWork] at hsum
    simp only [work]
    omega

def Tasked (r : ThreadPool τ) : Prop :=
  ∀ o, some o ∈ r.workerThreads → o ≠ .posting none ∧ o ≠ .running none

theorem tasked_set {r : ThreadPool τ} (h : Tasked r) (w : ℕ) (o : Option (Working τ))
    (ho : ∀ x, o = some x → x ≠ .posting none ∧ x ≠ .running none) :
    ∀ x, some x ∈ r.workerThreads.set w o → x ≠ .posting none ∧ x ≠ .running none := by
  intro x hx
  cases List.mem_or_eq_of_mem_set hx with
  | inl hmem => exact h x hmem
  | inr heq => exact ho x heq.symm

theorem tasked_moves {r r' : ThreadPool τ} {pending : List τ} {e : Event τ} (hl : Ledger r pending)
    (h : Tasked r)
    (hm : Moves r e r') : Tasked r' := by
  cases hm with
  | call p task blocking hp => cases task <;> exact h
  | enter | refuse | write | post => exact h
  | wake w hw hready => exact tasked_set h w _ (by simp)
  | take w hw =>
    obtain ⟨task, rest, rfl⟩ := ledger_filled hl w hw
    refine tasked_set h w _ fun x hx => ?_
    rw [take_task hl] at hx
    cases hx
    simp
  | release w task hw =>
    refine tasked_set h w _ fun x hx => ?_
    cases hx
    simpa using h _ (List.mem_of_getElem? hw)
  | finish w task hw => exact tasked_set h w none (fun x hx => nomatch hx)

theorem tasked_start (taskPoolCapacity producers threadsSize : ℕ) :
    Tasked (ThreadPool.start taskPoolCapacity producers threadsSize : ThreadPool τ) := by
  intro o ho
  cases List.eq_of_mem_replicate ho

section Stuck
variable {r : ThreadPool τ} {pending : List τ} (h : Ledger r pending)
  (hstuck : ∀ e, isCall e = false → isFinish e = false → step r e = none)
include hstuck

theorem stuck_producer {p : ℕ} {x : Push τ} (hp : r.producers[p]? = some (some x)) :
    x.stage = .called ∧ x.blocking = true ∧ r.freeSlots = 0 := by
  have hwait := hstuck (.semWait p) rfl rfl
  have hwrite := hstuck (.write p) rfl rfl
  have hpost := hstuck (.semPost p) rfl rfl
  simp only [step, hp] at hwait hwrite hpost
  cases hx : x.stage with
  | called =>
    rw [if_pos hx, semWait] at hwait
    split_ifs at hwait with hfree hblock
    exact ⟨rfl, hblock, by omega⟩
  | admitted =>
    rw [if_pos hx] at hwrite
    cases hwrite
  | written =>
    rw [if_pos hx] at hpost
    cases hpost

theorem stuck_stage (stage : Stage) (hs : stage ≠ .called) :
    r.producers.countP (inStage stage) = 0 := by
  rw [List.countP_eq_zero]
  intro o ho
  obtain ⟨p, hlt, hp⟩ := List.getElem_of_mem ho
  cases o with
  | none => exact Bool.false_ne_true
  | some x =>
    have hx := (stuck_producer hstuck (List.getElem?_eq_some_iff.mpr ⟨hlt, hp⟩)).1
    simp [inStage, hx, hs.symm]

theorem stuck_worker {w : ℕ} {o : Option (Working τ)} (hw : r.workerThreads[w]? = some o) :
    (o = none ∧ r.readyTasks = 0) ∨ ∃ task, o = some (.running task) := by
  cases o with
  | none =>
    have hwait := hstuck (.workerWait w) rfl rfl
    simp only [step, hw, workerWait] at hwait
    split_ifs at hwait
    exact Or.inl ⟨rfl, by omega⟩
  | some o =>
    cases o with
    | taking =>
      have htake := hstuck (.take w) rfl rfl
      simp only [step, hw] at htake
      cases htake
    | posting task =>
      have hpost := hstuck (.workerPost w) rfl rfl
      simp only [step, hw] at hpost
      cases hpost
    | running task => exact Or.inr ⟨task, rfl⟩

theorem stuck_workers (p : Option (Working τ) → Bool) (hnone : p none = false)
    (hrunning : ∀ task, p (some (.running task)) = false) :
    r.workerThreads.countP p = 0 := by
  rw [List.countP_eq_zero]
  intro o ho
  obtain ⟨w, hlt, hw⟩ := List.getElem_of_mem ho
  rcases stuck_worker hstuck (List.getElem?_eq_some_iff.mpr ⟨hlt, hw⟩) with ⟨rfl, -⟩ | ⟨task, rfl⟩
  · rw [hnone]
    exact Bool.false_ne_true
  · rw [hrunning]
    exact Bool.false_ne_true

include h

theorem stuck_waiting : Waiting r pending := by
  have hadmitted := stuck_stage hstuck .admitted (by decide)
  have hwritten := stuck_stage hstuck .written (by decide)
  have hposting := stuck_workers hstuck isPosting rfl fun _ => rfl
  have htaking := stuck_workers hstuck isTaking rfl fun _ => rfl
  have hslots := h.slots
  have htasks := h.tasks
  constructor
  · intro p x hp
    obtain ⟨hx, hblocking, hfree⟩ := stuck_producer hstuck hp
    exact ⟨hx, hblocking, by omega⟩
  · omega
  · intro hne w o hw
    rcases stuck_worker hstuck hw with ⟨-, hready⟩ | hrunning
    · have hpos := List.length_pos_iff.mpr hne
      omega
    · exact hrunning

end Stuck

section Ends
variable {r : ThreadPool τ} {pending : List τ} (h : Ledger r pending) (ht : Tasked r)
  (hstuck : ∀ e, isCall e = false → step r e = none)
include h ht hstuck

theorem stuck_drained (hworkers : 0 < r.workerThreads.length) : Drained r := by
  have hwaiting : Waiting r pending := stuck_waiting h fun e he _ => hstuck e he
  have hidle : ∀ (w : ℕ) (o : Option (Working τ)), r.workerThreads[w]? = some o → o = none := by
    intro w o hw
    rcases stuck_worker (fun e he _ => hstuck e he) hw with ⟨hnone, -⟩ | ⟨task, rfl⟩
    · exact hnone
    · have htask := (ht _ (List.mem_of_getElem? hw)).2
      cases task with
      | none => exact absurd rfl htask
      | some task =>
        have hfinish := hstuck (.finish w) rfl
        simp only [step, hw] at hfinish
        cases hfinish
  have hempty : pending = [] := by
    by_contra hne
    have hfirst : r.workerThreads[0]? = some r.workerThreads[0] := List.getElem?_eq_getElem hworkers
    obtain ⟨task, hrunning⟩ := hwaiting.workers hne 0 _ hfirst
    rw [hrunning] at hfirst
    cases hidle 0 _ hfirst
  refine ⟨fun p o hp => ?_, hidle, ?_⟩
  · cases o with
    | none => rfl
    | some x =>
      have hfull := (hwaiting.producers p x hp).2.2
      have hinside := h.inside
      rw [hempty, List.length_nil] at hfull
      omega
  · rw [h.log, hempty, List.map_nil, List.append_nil]

end Ends

/-- For every capacity, any producers and at least one worker, in every state of every run:
without new calls the rest of the run is bounded beforehand; where no thread can go on inside
the ring, idle workers have no task to take and a caller waits only before a full ring whose
workers are all in tasks; where no task ends any more either, every call has returned and
every task that was written has been taken and has ended. -/
theorem pool_drains (taskPoolCapacity producers threadsSize : ℕ) (hcap : 1 ≤ taskPoolCapacity)
    (hthreads : 1 ≤ threadsSize)
    (events : List (Event τ)) :
    Throughout step Drains (ThreadPool.start taskPoolCapacity producers threadsSize) events := by
  have hinv : Throughout step (fun r =>
    (∃ pending, Ledger r pending) ∧ Tasked r ∧ 0 < r.workerThreads.length)
      (ThreadPool.start taskPoolCapacity producers threadsSize : ThreadPool τ) events := by
    apply invariant_throughout _ ⟨⟨[], ledger_start taskPoolCapacity producers threadsSize hcap⟩,
      tasked_start taskPoolCapacity producers threadsSize,
      lt_of_lt_of_eq hthreads List.length_replicate.symm⟩ (meets_trivial _ _)
    rintro r e r' ⟨⟨pending, h⟩, ht, hworkers⟩ - hr
    obtain ⟨pending', h', -⟩ := ledger_step r r' pending e h hr
    exact ⟨⟨pending', h'⟩, tasked_moves h ht (step_moves hr), by
      rw [moves_workers (step_moves hr)]; exact hworkers⟩
  refine throughout_mono ?_ hinv
  rintro r ⟨⟨pending, h⟩, ht, hworkers⟩
  constructor
  · intro events r' hevents hr
    exact run_length_le work (fun s e s' he hs => moves_work he (step_moves hs)) hevents hr
  · exact fun hstuck => ⟨pending, h.log, stuck_waiting h hstuck⟩
  · exact fun hstuck => stuck_drained h ht hstuck hworkers

/-- One slot and one worker: the second caller waits while the worker is in the first task. -/
theorem pool_drains_full :
    Throughout step Drains (ThreadPool.start 1 3 1)
      [.call 0 (some 7) true, .semWait 0, .write 0, .semPost 0, .workerWait 0, .take 0,
        .workerPost 0,
        .call 1 (some 8) true, .semWait 1, .write 1, .semPost 1, .call 2 (some 9) true] :=
  pool_drains 1 3 1 le_rfl le_rfl _

end CloudBackup.RingProgress
