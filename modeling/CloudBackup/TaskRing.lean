import CloudBackup.RingBuffer
import CloudBackup.RunInvariants
import CloudBackup.WorkerPool

/-!
# The task ring, one atomic step at a time

`push` and `try_push` wait for a free slot, write it under the producers'
mutex and post the other semaphore after the lock is gone; a worker does the
same from the other end. The steps of all threads interleave freely. The logs
`written` and `taken` and the writes counted per call are for the statements.
-/

set_option autoImplicit false

namespace CloudBackup.TaskRing
open CloudBackup.RunInvariants CloudBackup.RingBuffer
open CloudBackup.WorkerPool (countP_turn)

/-- Before the semaphore, between it and the slot write, before the post. -/
inductive Stage where
  | called
  | admitted
  | written
  deriving DecidableEq

structure Push (τ : Type*) where
  task : τ
  blocking : Bool
  stage : Stage
  stored : List τ

inductive Working (τ : Type*) where
  | taking
  | posting (task : Option τ)
  | running (task : Option τ)

/-- A call that is over; `push` has no result. An empty task is `none`. -/
structure Returned (τ : Type*) where
  task : Option τ
  stored : List τ
  result : Option Bool

structure ThreadPool (τ : Type*) where
  taskQueue : List (Option τ)
  taskQueueCapacity : ℕ
  consumerPos : ℕ := 0
  productorPos : ℕ := 0
  freeSlots : ℕ
  readyTasks : ℕ := 0
  producers : List (Option (Push τ))
  workerThreads : List (Option (Working τ))
  written : List τ := []
  taken : List (Option τ) := []
  returned : List (Returned τ) := []

variable {τ : Type*}

/-- Any numbers of threads that produce and of workers, none of them in a call. -/
def ThreadPool.start (taskPoolCapacity producers threadsSize : ℕ) : ThreadPool τ where
  taskQueue := List.replicate taskPoolCapacity none
  taskQueueCapacity := taskPoolCapacity
  freeSlots := taskPoolCapacity
  producers := List.replicate producers none
  workerThreads := List.replicate threadsSize none

inductive Event (τ : Type*) where
  | call (p : ℕ) (task : Option τ) (blocking : Bool)
  | semWait (p : ℕ)
  | write (p : ℕ)
  | semPost (p : ℕ)
  | workerWait (w : ℕ)
  | take (w : ℕ)
  | workerPost (w : ℕ)
  | finish (w : ℕ)

def outcome (blocking ok : Bool) : Option Bool := if blocking then none else some ok

def call (r : ThreadPool τ) (p : ℕ) (blocking : Bool) : Option τ → ThreadPool τ
  | none => { r with returned := r.returned ++ [⟨none, [], outcome blocking false⟩] }
  | some task => { r with producers := r.producers.set p (some ⟨task, blocking, .called, []⟩) }

/-- `sem_wait` blocks on an exhausted semaphore, `sem_trywait` gives up. -/
def semWait (r : ThreadPool τ) (p : ℕ) (x : Push τ) : Option (ThreadPool τ) :=
  if 0 < r.freeSlots then
    some { r with
      freeSlots := r.freeSlots-1
      producers := r.producers.set p (some { x with stage := .admitted }) }
  else if x.blocking then none
  else some { r with
    producers := r.producers.set p none
    returned := r.returned ++ [⟨some x.task, x.stored, some false⟩] }

def filed (x : Push τ) : Push τ := { x with stage := .written, stored := x.stored ++ [x.task] }

def write (r : ThreadPool τ) (p : ℕ) (x : Push τ) : ThreadPool τ :=
  { r with
    taskQueue := r.taskQueue.set r.productorPos (some x.task)
    productorPos := (r.productorPos+1) % r.taskQueueCapacity
    producers := r.producers.set p (some (filed x))
    written := r.written ++ [x.task] }

def semPost (r : ThreadPool τ) (p : ℕ) (x : Push τ) : ThreadPool τ :=
  { r with
    readyTasks := r.readyTasks+1
    producers := r.producers.set p none
    returned := r.returned ++ [⟨some x.task, x.stored, outcome x.blocking true⟩] }

def workerWait (r : ThreadPool τ) (w : ℕ) : Option (ThreadPool τ) :=
  if 0 < r.readyTasks then
    some { r with readyTasks := r.readyTasks-1,
                  workerThreads := r.workerThreads.set w (some .taking) }
  else none

def take (r : ThreadPool τ) (w : ℕ) : ThreadPool τ :=
  let task := r.taskQueue[r.consumerPos]?.join
  { r with
    taskQueue := r.taskQueue.set r.consumerPos none
    consumerPos := (r.consumerPos+1) % r.taskQueueCapacity
    workerThreads := r.workerThreads.set w (some (.posting task))
    taken := r.taken ++ [task] }

/-- A call of an empty task would end the process. -/
def step (r : ThreadPool τ) : Event τ → Option (ThreadPool τ)
  | .call p task blocking => match r.producers[p]? with
    | some none => some (call r p blocking task)
    | _ => none
  | .semWait p => match r.producers[p]? with
    | some (some x) => if x.stage = .called then semWait r p x else none
    | _ => none
  | .write p => match r.producers[p]? with
    | some (some x) => if x.stage = .admitted then some (write r p x) else none
    | _ => none
  | .semPost p => match r.producers[p]? with
    | some (some x) => if x.stage = .written then some (semPost r p x) else none
    | _ => none
  | .workerWait w => match r.workerThreads[w]? with
    | some none => workerWait r w
    | _ => none
  | .take w => match r.workerThreads[w]? with
    | some (some .taking) => some (take r w)
    | _ => none
  | .workerPost w => match r.workerThreads[w]? with
    | some (some (.posting task)) => some { r with
      freeSlots := r.freeSlots+1
      workerThreads := r.workerThreads.set w (some (.running task)) }
    | _ => none
  | .finish w => match r.workerThreads[w]? with
    | some (some (.running (some _))) => some { r with workerThreads := r.workerThreads.set w none }
    | _ => none

structure Sound (r : ThreadPool τ) : Prop where
  writeFree : ∀ (p : ℕ) (x : Push τ), r.producers[p]? = some (some x) → x.stage = .admitted →
    r.taskQueue[r.productorPos]? = some none
  takeFull : ∀ w : ℕ, r.workerThreads[w]? = some (some .taking) →
    ∃ task, r.taskQueue[r.consumerPos]? = some (some task)
  fifo : ∃ pending, r.written.map some = r.taken ++ pending.map some ∧
    Holds r.taskQueue r.consumerPos pending ∧ pending.length ≤ r.taskQueue.length
  results : ∀ c ∈ r.returned, c.stored = if c.result = some false then [] else c.task.toList

def inStage (stage : Stage) : Option (Push τ) → Bool
  | some x => x.stage = stage
  | none => false

def isTaking : Option (Working τ) → Bool
  | some .taking => true
  | _ => false

def isPosting : Option (Working τ) → Bool
  | some (.posting _) => true
  | _ => false

structure Ledger (r : ThreadPool τ) (pending : List τ) : Prop where
  size : r.taskQueue.length = r.taskQueueCapacity
  inside : r.consumerPos < r.taskQueueCapacity
  end_ : r.productorPos = (r.consumerPos+pending.length) % r.taskQueueCapacity
  holds : Holds r.taskQueue r.consumerPos pending
  log : r.written.map some = r.taken ++ pending.map some
  slots : r.freeSlots + r.producers.countP (inStage .admitted) + pending.length +
    r.workerThreads.countP isPosting = r.taskQueueCapacity
  tasks : r.readyTasks + r.workerThreads.countP isTaking + r.producers.countP (inStage .written) =
    pending.length
  calls : ∀ x, some x ∈ r.producers → x.stored = if x.stage = .written then [x.task] else []
  results : ∀ c ∈ r.returned, c.stored = if c.result = some false then [] else c.task.toList

theorem countP_pos_of_getElem {α : Type*} {p : α → Bool} {xs : List α} {i : ℕ} {a : α}
    (h : xs[i]? = some a) (ha : p a = true) : 0 < xs.countP p :=
  List.countP_pos_iff.mpr ⟨a, List.mem_of_getElem? h, ha⟩

section Ledger
variable {r : ThreadPool τ} {pending : List τ} (h : Ledger r pending)
include h

theorem ledger_room (p : ℕ) (x : Push τ) (hp : r.producers[p]? = some (some x))
    (hx : x.stage = .admitted) : pending.length < r.taskQueueCapacity := by
  have hpos : 0 < r.producers.countP (inStage .admitted) :=
    countP_pos_of_getElem hp (decide_eq_true hx)
  have := h.slots
  omega

theorem ledger_filled (w : ℕ) (hw : r.workerThreads[w]? = some (some .taking)) :
    ∃ task rest, pending = task::rest := by
  have hpos : 0 < r.workerThreads.countP isTaking := countP_pos_of_getElem hw rfl
  have := h.tasks
  exact List.length_pos_iff_exists_cons.mp (by omega)

theorem ledger_sound : Sound r := by
  constructor
  · intro p x hp hx
    have hroom := ledger_room h p x hp hx
    rw [h.end_, ← h.size]
    exact holds_free h.holds (by rwa [h.size])
  · intro w hw
    obtain ⟨task, rest, rfl⟩ := ledger_filled h w hw
    exact ⟨task, holds_head h.holds (by rw [h.size]; exact h.inside)⟩
  · have := h.slots
    exact ⟨pending, h.log, h.holds, by rw [h.size]; omega⟩
  · exact h.results

theorem ledger_turn (p : ℕ) (o : Option (Push τ)) (free ready : ℕ) (results : List (Returned τ))
    (hcalls : ∀ x, o = some x → x.stored = if x.stage = .written then [x.task] else [])
    (hresults : ∀ c ∈ results, c.stored = if c.result = some false then [] else c.task.toList)
    (hslots : free + (r.producers.set p o).countP (inStage .admitted) =
      r.freeSlots + r.producers.countP (inStage .admitted))
    (htasks : ready + (r.producers.set p o).countP (inStage .written) =
      r.readyTasks + r.producers.countP (inStage .written)) :
    Ledger { r with
      freeSlots := free, readyTasks := ready, producers :=
        r.producers.set p o, returned := results }
      pending := by
  have hs := h.slots
  have ht := h.tasks
  refine ⟨h.size, h.inside, h.end_, h.holds, h.log, ?_, ?_, ?_, hresults⟩
  · show free + (r.producers.set p o).countP (inStage .admitted) + pending.length +
      r.workerThreads.countP isPosting = r.taskQueueCapacity
    omega
  · show ready + r.workerThreads.countP isTaking + (r.producers.set p o).countP (inStage .written) =
      pending.length
    omega
  · intro x hx
    cases List.mem_or_eq_of_mem_set hx with
    | inl hmem => exact h.calls x hmem
    | inr heq => exact hcalls x heq.symm

theorem results_concat (c : Returned τ)
    (hc : c.stored = if c.result = some false then [] else c.task.toList) :
    ∀ c' ∈ r.returned ++ [c], c'.stored = if c'.result = some false then
      [] else c'.task.toList := by
  intro c' hc'
  cases List.mem_append.mp hc' with
  | inl hold => exact h.results c' hold
  | inr hnew =>
    rw [List.mem_singleton.mp hnew]
    exact hc

theorem ledger_call (p : ℕ) (blocking : Bool) (task : Option τ) (hp : r.producers[p]? = some none) :
    Ledger (call r p blocking task) pending := by
  cases task with
  | none =>
    exact { h with results := results_concat h _ (by simp) }
  | some task =>
    have hadmitted := countP_turn (inStage .admitted) r.producers p none
      (some ⟨task, blocking, .called, []⟩) hp
    have hwritten := countP_turn (inStage .written) r.producers p none
      (some ⟨task, blocking, .called, []⟩) hp
    simp only [inStage, Bool.false_eq_true, if_false, reduceCtorEq,
      decide_false] at hadmitted hwritten
    apply ledger_turn h p _ r.freeSlots r.readyTasks r.returned
    · rintro x ⟨⟩
      rfl
    · exact h.results
    · omega
    · omega

theorem ledger_semWait (p : ℕ) (x : Push τ) (hp : r.producers[p]? = some (some x))
    (hx : x.stage = .called) (r' : ThreadPool τ) (hr : semWait r p x = some r') :
    Ledger r' pending := by
  have hstored : x.stored = [] := by
    rw [h.calls x (List.mem_of_getElem? hp), hx]
    rfl
  unfold semWait at hr
  split_ifs at hr with hfree hblock
  · cases hr
    have hadmitted := countP_turn (inStage .admitted) r.producers p _
      (some { x with stage := .admitted }) hp
    have hwritten := countP_turn (inStage .written) r.producers p _
      (some { x with stage := .admitted }) hp
    simp only [inStage, hx, reduceCtorEq, decide_false, decide_true, Bool.false_eq_true,
      if_false, if_true]
      at hadmitted hwritten
    apply ledger_turn h p _ (r.freeSlots-1) r.readyTasks r.returned
    · rintro y ⟨⟩
      exact hstored
    · exact h.results
    · omega
    · omega
  · cases hr
    have hadmitted := countP_turn (inStage .admitted) r.producers p _ none hp
    have hwritten := countP_turn (inStage .written) r.producers p _ none hp
    simp only [inStage, hx, reduceCtorEq, decide_false, Bool.false_eq_true,
      if_false] at hadmitted hwritten
    apply ledger_turn h p none r.freeSlots r.readyTasks
    · rintro y ⟨⟩
    · exact results_concat h _ hstored
    · omega
    · omega

theorem ledger_semPost (p : ℕ) (x : Push τ) (hp : r.producers[p]? = some (some x))
    (hx : x.stage = .written) : Ledger (semPost r p x) pending := by
  have hstored : x.stored = [x.task] := by
    rw [h.calls x (List.mem_of_getElem? hp), hx]
    rfl
  have hadmitted := countP_turn (inStage .admitted) r.producers p _ none hp
  have hwritten := countP_turn (inStage .written) r.producers p _ none hp
  simp only [inStage, hx, reduceCtorEq, decide_false, decide_true, Bool.false_eq_true,
    if_false, if_true]
    at hadmitted hwritten
  apply ledger_turn h p none r.freeSlots (r.readyTasks+1)
  · rintro y ⟨⟩
  · apply results_concat h
    cases hb : x.blocking <;> simpa [outcome, hb] using hstored
  · omega
  · omega

theorem ledger_write (p : ℕ) (x : Push τ) (hp : r.producers[p]? = some (some x))
    (hx : x.stage = .admitted) : Ledger (write r p x) (pending ++ [x.task]) := by
  have hroom := ledger_room h p x hp hx
  have hstored : x.stored = [] := by
    rw [h.calls x (List.mem_of_getElem? hp), hx]
    rfl
  have hfiled : (filed x).stage = .written := rfl
  have hadmitted := countP_turn (inStage .admitted) r.producers p _ (some (filed x)) hp
  have hwritten := countP_turn (inStage .written) r.producers p _ (some (filed x)) hp
  simp only [inStage, hx, hfiled, reduceCtorEq, decide_false, decide_true, Bool.false_eq_true,
    if_false, if_true]
    at hadmitted hwritten
  have hs := h.slots
  have ht := h.tasks
  constructor
  · exact (List.length_set).trans h.size
  · exact h.inside
  · show (r.productorPos+1) % r.taskQueueCapacity =
      (r.consumerPos+(pending ++ [x.task]).length) % r.taskQueueCapacity
    rw [h.end_, Nat.mod_add_mod, List.length_append, List.length_singleton, Nat.add_assoc]
  · have hnext := holds_write h.holds x.task (by rwa [h.size])
    rwa [h.size, ← h.end_] at hnext
  · show (r.written ++ [x.task]).map some = r.taken ++ (pending ++ [x.task]).map some
    rw [List.map_append, List.map_append, h.log, List.append_assoc]
  · show r.freeSlots + (r.producers.set p (some (filed x))).countP (inStage .admitted) +
      (pending ++ [x.task]).length + r.workerThreads.countP isPosting = r.taskQueueCapacity
    rw [List.length_append, List.length_singleton]
    omega
  · show r.readyTasks + r.workerThreads.countP isTaking +
      (r.producers.set p (some (filed x))).countP (inStage .written) = (pending ++ [x.task]).length
    rw [List.length_append, List.length_singleton]
    omega
  · intro z hz
    cases List.mem_or_eq_of_mem_set hz with
    | inl hmem => exact h.calls z hmem
    | inr heq =>
      cases heq
      show x.stored ++ [x.task] = [x.task]
      rw [hstored, List.nil_append]
  · exact h.results

theorem ledger_work (w : ℕ) (o : Option (Working τ)) (free ready : ℕ)
    (hslots : free + (r.workerThreads.set w o).countP isPosting =
      r.freeSlots + r.workerThreads.countP isPosting)
    (htasks : ready + (r.workerThreads.set w o).countP isTaking =
      r.readyTasks + r.workerThreads.countP isTaking) :
    Ledger { r with freeSlots := free, readyTasks := ready,
                    workerThreads := r.workerThreads.set w o }
      pending := by
  have hs := h.slots
  have ht := h.tasks
  refine ⟨h.size, h.inside, h.end_, h.holds, h.log, ?_, ?_, h.calls, h.results⟩
  · show free + r.producers.countP (inStage .admitted) + pending.length +
      (r.workerThreads.set w o).countP isPosting = r.taskQueueCapacity
    omega
  · show ready + (r.workerThreads.set w o).countP isTaking + r.producers.countP (inStage .written) =
      pending.length
    omega

theorem ledger_workerWait (w : ℕ) (hw : r.workerThreads[w]? = some none) (r' : ThreadPool τ)
    (hr : workerWait r w = some r') : Ledger r' pending := by
  unfold workerWait at hr
  split_ifs at hr with hready
  cases hr
  have hposting := countP_turn isPosting r.workerThreads w none (some .taking) hw
  have htaking := countP_turn isTaking r.workerThreads w none (some .taking) hw
  simp only [isPosting, isTaking, Bool.false_eq_true, if_false, if_true] at hposting htaking
  apply ledger_work h w (some .taking) r.freeSlots (r.readyTasks-1) <;> omega

theorem ledger_workerPost (w : ℕ) (task : Option τ)
    (hw : r.workerThreads[w]? = some (some (.posting task))) :
    Ledger { r with
      freeSlots := r.freeSlots+1, workerThreads := r.workerThreads.set w (some (.running task)) }
      pending := by
  have hposting := countP_turn isPosting r.workerThreads w _ (some (.running task)) hw
  have htaking := countP_turn isTaking r.workerThreads w _ (some (.running task)) hw
  simp only [isPosting, isTaking, Bool.false_eq_true, if_false, if_true] at hposting htaking
  apply ledger_work h w (some (.running task)) (r.freeSlots+1) r.readyTasks <;> omega

theorem ledger_finish (w : ℕ) (task : Option τ)
    (hw : r.workerThreads[w]? = some (some (.running task))) :
    Ledger { r with workerThreads := r.workerThreads.set w none } pending := by
  have hposting := countP_turn isPosting r.workerThreads w _ none hw
  have htaking := countP_turn isTaking r.workerThreads w _ none hw
  simp only [isPosting, isTaking, Bool.false_eq_true, if_false] at hposting htaking
  apply ledger_work h w none r.freeSlots r.readyTasks <;> omega

end Ledger

theorem take_task {r : ThreadPool τ} {task : τ} {rest : List τ} (h : Ledger r (task::rest)) :
    r.taskQueue[r.consumerPos]?.join = some task := by
  rw [holds_head h.holds (by rw [h.size]; exact h.inside)]
  rfl

theorem ledger_take {r : ThreadPool τ} {task : τ} {rest : List τ}
    (h : Ledger r (task::rest)) (w : ℕ)
    (hw : r.workerThreads[w]? = some (some .taking)) : Ledger (take r w) rest := by
  have hs := h.slots
  have ht := h.tasks
  rw [List.length_cons] at hs ht
  have hposting := countP_turn isPosting r.workerThreads w _ (some (.posting (some task))) hw
  have htaking := countP_turn isTaking r.workerThreads w _ (some (.posting (some task))) hw
  simp only [isPosting, isTaking, Bool.false_eq_true, if_false, if_true] at hposting htaking
  have hinside : r.consumerPos < r.taskQueue.length := by
    rw [h.size]
    exact h.inside
  simp only [take, take_task h]
  constructor
  · exact (List.length_set).trans h.size
  · exact Nat.mod_lt _ (by have := h.inside; omega)
  · show r.productorPos = _
    rw [h.end_, Nat.mod_add_mod, List.length_cons, Nat.add_assoc, Nat.add_comm 1 rest.length]
  · show Holds (r.taskQueue.set r.consumerPos none) ((r.consumerPos+1) % r.taskQueueCapacity) rest
    rw [← h.size]
    exact holds_take h.holds hinside (by rw [h.size]; omega)
  · show r.written.map some = r.taken ++ [some task] ++ rest.map some
    rw [h.log, List.append_assoc]
    rfl
  · show r.freeSlots + r.producers.countP (inStage .admitted) + rest.length +
      (r.workerThreads.set w (some (.posting (some task)))).countP isPosting = r.taskQueueCapacity
    omega
  · show r.readyTasks + (r.workerThreads.set w (some (.posting (some task)))).countP isTaking +
      r.producers.countP (inStage .written) = rest.length
    omega
  · exact h.calls
  · exact h.results

def doing : Option (Working τ) → Option τ
  | some (.posting task) => task
  | some (.running task) => task
  | _ => none

def poolOf (r : ThreadPool τ) (pending : List τ) : WorkerPool.ThreadPool τ τ where
  taskQueue := pending
  taskQueueCapacity := r.taskQueueCapacity
  workerThreads := r.workerThreads.map doing

def PoolMove (pool pool' : WorkerPool.ThreadPool τ τ) : Event τ → Prop
  | .write _ => ∃ task, WorkerPool.push task pool = some pool'
  | .take w => WorkerPool.threadRun id w pool = some pool'
  | .finish w => pool' = WorkerPool.turn w none pool
  | _ => pool' = pool

theorem poolOf_work (r r' : ThreadPool τ) (pending : List τ) (w : ℕ) (o o' : Option (Working τ))
    (hw : r.workerThreads[w]? = some o) (hcap : r'.taskQueueCapacity = r.taskQueueCapacity)
    (hr : r'.workerThreads = r.workerThreads.set w o') (hsame : doing o' = doing o) :
    poolOf r' pending = poolOf r pending := by
  have hdoing : (r.workerThreads.map doing)[w]? = some (doing o) := by
    rw [List.getElem?_map, hw, Option.map_some]
  have hset : (r.workerThreads.map doing).set w (doing o) = r.workerThreads.map doing := by
    apply List.ext_getElem?
    intro i
    by_cases hi : w = i
    · subst hi
      rw [List.getElem?_set_self', hdoing]
      rfl
    · rw [List.getElem?_set_ne hi]
  simp only [poolOf, hcap, hr, List.map_set, hsame, hset]

theorem poolOf_push (r : ThreadPool τ) (pending : List τ) (p : ℕ) (x : Push τ)
    (hroom : pending.length < r.taskQueueCapacity) :
    WorkerPool.push x.task (poolOf r pending) =
      some (poolOf (write r p x) (pending ++ [x.task])) := by
  rw [WorkerPool.push]
  exact if_pos hroom

theorem poolOf_take (r : ThreadPool τ) (task : τ) (rest : List τ) (w : ℕ)
    (h : Ledger r (task::rest))
    (hw : r.workerThreads[w]? = some (some .taking)) :
    WorkerPool.threadRun id w (poolOf r (task::rest)) = some (poolOf (take r w) rest) := by
  have hidle : (r.workerThreads.map doing)[w]? = some none := by
    rw [List.getElem?_map, hw]
    rfl
  simp only [WorkerPool.threadRun, poolOf, hidle, take, take_task h, WorkerPool.turn, List.map_set]
  rfl

theorem ledger_step (r r' : ThreadPool τ) (pending : List τ) (e : Event τ) (h : Ledger r pending)
    (hr : step r e = some r') :
    ∃ pending', Ledger r' pending' ∧ PoolMove (poolOf r pending) (poolOf r' pending') e := by
  cases e with
  | call p task blocking =>
    simp only [step] at hr
    split at hr
    · rename_i hp
      cases hr
      refine ⟨pending, ledger_call h p blocking task hp, ?_⟩
      cases task <;> rfl
    · cases hr
  | semWait p =>
    simp only [step] at hr
    split at hr
    · rename_i x hp
      split_ifs at hr with hx
      refine ⟨pending, ledger_semWait h p x hp hx r' hr, ?_⟩
      unfold semWait at hr
      split_ifs at hr <;> cases hr <;> rfl
    · cases hr
  | write p =>
    simp only [step] at hr
    split at hr
    · rename_i x hp
      split_ifs at hr with hx
      cases hr
      exact ⟨_, ledger_write h p x hp hx, x.task,
        poolOf_push r pending p x (ledger_room h p x hp hx)⟩
    · cases hr
  | semPost p =>
    simp only [step] at hr
    split at hr
    · rename_i x hp
      split_ifs at hr with hx
      cases hr
      exact ⟨pending, ledger_semPost h p x hp hx, rfl⟩
    · cases hr
  | workerWait w =>
    simp only [step] at hr
    split at hr
    · rename_i hw
      refine ⟨pending, ledger_workerWait h w hw r' hr, ?_⟩
      unfold workerWait at hr
      split_ifs at hr
      cases hr
      exact poolOf_work r _ pending w none (some .taking) hw rfl rfl rfl
    · cases hr
  | take w =>
    simp only [step] at hr
    split at hr
    · rename_i hw
      cases hr
      obtain ⟨task, rest, rfl⟩ := ledger_filled h w hw
      exact ⟨rest, ledger_take h w hw, poolOf_take r task rest w h hw⟩
    · cases hr
  | workerPost w =>
    simp only [step] at hr
    split at hr
    · rename_i task hw
      cases hr
      exact ⟨pending, ledger_workerPost h w task hw, poolOf_work r _ pending w _ _ hw rfl rfl rfl⟩
    · cases hr
  | finish w =>
    simp only [step] at hr
    split at hr
    · rename_i task hw
      cases hr
      refine ⟨pending, ledger_finish h w _ hw, ?_⟩
      simp only [PoolMove, poolOf, WorkerPool.turn, List.map_set]
      rfl
    · cases hr

theorem ledger_start (taskPoolCapacity producers threadsSize : ℕ) (hcap : 1 ≤ taskPoolCapacity) :
    Ledger (ThreadPool.start taskPoolCapacity producers threadsSize : ThreadPool τ) [] := by
  constructor
  · exact List.length_replicate
  · exact hcap
  · exact (Nat.zero_mod _).symm
  · exact holds_replicate taskPoolCapacity
  · rfl
  · simp [ThreadPool.start, List.countP_replicate, inStage, isPosting]
  · simp [ThreadPool.start, List.countP_replicate, inStage, isTaking]
  · intro x hx
    cases List.eq_of_mem_replicate hx
  · intro c hc
    cases hc

theorem ring_sound (taskPoolCapacity producers threadsSize : ℕ) (hcap : 1 ≤ taskPoolCapacity)
    (events : List (Event τ)) :
    Throughout step Sound (ThreadPool.start taskPoolCapacity producers threadsSize) events := by
  have hinv : Throughout step (fun r => ∃ pending, Ledger r pending)
      (ThreadPool.start taskPoolCapacity producers threadsSize) events := by
    apply invariant_throughout _ ⟨[], ledger_start taskPoolCapacity producers threadsSize hcap⟩
      (meets_trivial _ _)
    rintro r e r' ⟨pending, h⟩ - hr
    obtain ⟨pending', h', -⟩ := ledger_step r r' pending e h hr
    exact ⟨pending', h'⟩
  exact throughout_mono (fun r ⟨pending, h⟩ => ledger_sound h) hinv

/-- One slot and one worker: the second task is offered while the slot is taken
from, and `try_push` gives up. -/
theorem ring_sound_contended :
    Throughout step Sound (ThreadPool.start 1 2 1)
      [.call 0 (some 7) true, .semWait 0, .write 0, .semPost 0, .workerWait 0, .take 0,
        .call 1 (some 8) false, .semWait 1, .workerPost 0, .finish 0] :=
  ring_sound 1 2 1 le_rfl _

end CloudBackup.TaskRing
