import Mathlib

/-!
# A pool of worker threads

Tasks wait in a bounded queue, every worker is idle or does something. What
a pool holds of one kind is counted over both: it goes up when a task is
pushed and stays when a worker takes one.
-/

set_option autoImplicit false

namespace CloudBackup.WorkerPool

structure ThreadPool (τ ω : Type*) where
  taskQueue : List τ := []
  taskQueueCapacity : ℕ
  workerThreads : List (Option ω)

variable {τ ω : Type*}

/-- `none` where `push` blocks. -/
def push (task : τ) (pool : ThreadPool τ ω) : Option (ThreadPool τ ω) :=
  if pool.taskQueue.length < pool.taskQueueCapacity then
    some { pool with taskQueue := pool.taskQueue ++ [task] }
  else none

def tryPush (task : τ) (pool : ThreadPool τ ω) : Bool × ThreadPool τ ω :=
  match push task pool with
  | some pool => (true, pool)
  | none => (false, pool)

def turn (w : ℕ) (o : Option ω) (pool : ThreadPool τ ω) : ThreadPool τ ω :=
  { pool with workerThreads := pool.workerThreads.set w o }

def threadRun (begins : τ → ω) (w : ℕ) (pool : ThreadPool τ ω) : Option (ThreadPool τ ω) :=
  match pool.workerThreads[w]?, pool.taskQueue with
  | some none, task::rest => some (turn w (some (begins task)) { pool with taskQueue := rest })
  | _, _ => none

def count (waits : τ → Bool) (does : ω → Bool) (pool : ThreadPool τ ω) : ℕ :=
  pool.taskQueue.countP waits + pool.workerThreads.countP (Option.any does)

variable (waits : τ → Bool) (does : ω → Bool)

theorem count_push (task : τ) (pool pool' : ThreadPool τ ω) (h : push task pool = some pool') :
    pool'.workerThreads = pool.workerThreads ∧
    count waits does pool' = count waits does pool + if waits task then 1 else 0 := by
  rw [push] at h
  split_ifs at h
  cases h
  simp only [count, List.countP_append, List.countP_singleton]
  exact ⟨trivial, by omega⟩

theorem tryPush_cases (task : τ) (pool : ThreadPool τ ω) :
    (∃ pool', push task pool = some pool' ∧ tryPush task pool = (true, pool')) ∨
    tryPush task pool = (false, pool) := by
  rw [tryPush]
  cases push task pool with
  | some pool' => exact Or.inl ⟨pool', rfl, rfl⟩
  | none => exact Or.inr rfl

theorem countP_turn {α : Type*} (p : α → Bool) (xs : List α) (i : ℕ) (a b : α)
    (h : xs[i]? = some a) :
    (xs.set i b).countP p + (if p a then 1 else 0) = xs.countP p + if p b then 1 else 0 := by
  induction xs generalizing i with
  | nil => cases h
  | cons x xs ih =>
    cases i with
    | zero =>
      cases h
      simp only [List.set_cons_zero, List.countP_cons]
      omega
    | succ i =>
      have hi := ih i h
      simp only [List.set_cons_succ, List.countP_cons]
      omega

theorem count_turn (w : ℕ) (o o' : Option ω) (pool : ThreadPool τ ω)
    (h : pool.workerThreads[w]? = some o) :
    count waits does (turn w o' pool) + (if o.any does then 1 else 0) =
      count waits does pool + if o'.any does then 1 else 0 := by
  have hw := countP_turn (Option.any does) pool.workerThreads w o o' h
  simp only [count, turn]
  omega

theorem count_turn_le (w : ℕ) (o o' : Option ω) (pool : ThreadPool τ ω)
    (h : pool.workerThreads[w]? = some o)
    (hdoes : o'.any does = true → o.any does = true) :
    count waits does (turn w o' pool) ≤ count waits does pool := by
  have hturn := count_turn waits does w o o' pool h
  cases ho' : o'.any does with
  | false =>
    rw [ho', if_neg Bool.false_ne_true] at hturn
    omega
  | true =>
    rw [ho', hdoes ho'] at hturn
    omega

theorem count_mono (does' : ω → Bool) (hdoes : ∀ x, does x = true → does' x = true)
    (pool : ThreadPool τ ω) :
    count waits does pool ≤ count waits does' pool := by
  apply Nat.add_le_add_left
  apply List.countP_mono_left
  intro o _ ho
  cases o with
  | none => exact ho
  | some x => exact hdoes x ho

theorem threadRun_some (begins : τ → ω) (w : ℕ) (pool pool' : ThreadPool τ ω)
    (h : threadRun begins w pool = some pool') : ∃ task rest, pool.workerThreads[w]? = some none ∧
    pool.taskQueue = task::rest ∧
      pool' = turn w (some (begins task)) { pool with taskQueue := rest } := by
  rw [threadRun] at h
  split at h
  · rename_i task rest hw hq
    cases h
    exact ⟨task, rest, hw, hq, rfl⟩
  · cases h

theorem count_threadRun (begins : τ → ω) (hsame : ∀ task, does (begins task) = waits task) (w : ℕ)
    (pool pool' : ThreadPool τ ω) (h : threadRun begins w pool = some pool') :
    count waits does pool' = count waits does pool := by
  obtain ⟨task, rest, hw, hq, rfl⟩ := threadRun_some begins w pool pool' h
  have hturn := count_turn waits does w none (some (begins task)) { pool with taskQueue := rest } hw
  rw [Option.any_none, Option.any_some, hsame task] at hturn
  simp only [Bool.false_eq_true, if_false, Nat.add_zero] at hturn
  rw [hturn]
  simp only [count, hq, List.countP_cons]
  omega

theorem turn_mem (w : ℕ) (o : Option ω) (pool : ThreadPool τ ω) (x : ω)
    (hx : some x ∈ (turn w o pool).workerThreads) :
    o = some x ∨ some x ∈ (turn w none pool).workerThreads := by
  have hset : (turn w o pool).workerThreads = (turn w none pool).workerThreads.set w o := by
    simp only [turn, List.set_set]
  rw [hset] at hx
  cases List.mem_or_eq_of_mem_set hx with
  | inl hmem => exact Or.inr hmem
  | inr heq => exact Or.inl heq.symm

theorem count_witness (does' : ω → Bool) (pool : ThreadPool τ ω)
    (hzero : count waits does' pool = 0)
    (hpos : 0 < count waits does pool) :
    ∃ x, some x ∈ pool.workerThreads ∧ does x = true ∧ does' x = false := by
  rw [count, Nat.add_eq_zero_iff] at hzero
  obtain ⟨hqueue, hworkers⟩ := hzero
  rw [count, hqueue, Nat.zero_add] at hpos
  obtain ⟨o, ho, hany⟩ := List.countP_pos_iff.mp hpos
  cases o with
  | none => cases hany
  | some x => exact ⟨x, ho, hany, Bool.eq_false_iff.mpr (List.countP_eq_zero.mp hworkers _ ho)⟩

theorem count_pos (pool : ThreadPool τ ω) (x : ω) (hx : some x ∈ pool.workerThreads)
    (hd : does x = true) :
    0 < count waits does pool := by
  apply Nat.lt_of_lt_of_le _ (Nat.le_add_left _ _)
  exact List.countP_pos_iff.mpr ⟨some x, hx, hd⟩

end CloudBackup.WorkerPool
