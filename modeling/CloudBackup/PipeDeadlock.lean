import CloudBackup.RunInvariants
import CloudBackup.WorkerPool

/-!
# The dispatcher, the workers and the pipe between them

The dispatcher serves the ready descriptors of a batch one after the other. For
a connection it reads messages and pushes a handler, which blocks on a full
queue; only when it comes to the pipe does it read the notifications. A handler
comes to at most one message, since `on_message_complete` pauses the parser; it
writes one notification for it, which blocks on a full pipe, and is queued again
without blocking while messages are left. Both can wait for each other whatever
the sizes are.
-/

set_option autoImplicit false

namespace CloudBackup.PipeDeadlock
open CloudBackup.RunInvariants CloudBackup.WorkerPool

structure Connection where
  received : ℕ := 0
  isProcessing : Bool := false

inductive Ready where
  | net (c : ℕ)
  | pipe
  deriving DecidableEq

inductive Dispatcher where
  | serving (batch : List Ready)
  | pushing (c : ℕ) (batch : List Ready)

/-- A handler before `llhttp_execute` and in it, with the notifications still to be written. -/
inductive Handler where
  | started (c : ℕ)
  | notifying (c handled left : ℕ)

structure Server where
  connections : ℕ → Connection
  dispatcher : Dispatcher
  pool : ThreadPool ℕ Handler
  pipe : List ℕ
  pipeCapacity : ℕ

def Server.start (threadsSize taskPoolCapacity pipeCapacity : ℕ) : Server where
  connections := fun _ => {}
  dispatcher := .serving []
  pool := { taskQueueCapacity := taskPoolCapacity,
            workerThreads := List.replicate threadsSize none }
  pipe := []
  pipeCapacity := pipeCapacity

inductive Event where
  | epollWait (batch : List Ready)
  | read (more : ℕ)
  | wouldBlock
  | push
  | readPipe
  | take (w : ℕ)
  | execute (w handled : ℕ)
  | notify (w : ℕ)
  | finish (w : ℕ)

/-- A read of `more+1` messages in `NetReader`. -/
def netReader (srv : Server) (c more : ℕ) (batch : List Ready) : Server :=
  let connection := srv.connections c
  { srv with
    connections := Function.update srv.connections c
      { received := connection.received + (more+1), isProcessing := true }
    dispatcher := if connection.isProcessing then .serving batch else .pushing c batch }

/-- The final section of a handler and its `try_push`. -/
def finishHandler (srv : Server) (w c handled : ℕ) : Server :=
  let received := (srv.connections c).received - handled
  if received = 0 then
    { srv with
      connections := Function.update srv.connections c { received := 0, isProcessing := false }
      pool := turn w none srv.pool }
  else
    let r := tryPush c srv.pool
    { srv with
      connections := Function.update srv.connections c
        { srv.connections c with received := received }
      pool := turn w (if r.1 then none else some (.started c)) r.2 }

/-- `none` where the thread that would take the step is blocked or elsewhere. -/
def step (srv : Server) : Event → Option Server
  | .epollWait batch => match srv.dispatcher with
    | .serving [] =>
      if Ready.pipe ∈ batch → srv.pipe ≠ [] then
        some { srv with dispatcher := .serving batch } else none
    | _ => none
  | .read more => match srv.dispatcher with
    | .serving (.net c::rest) => some (netReader srv c more (.net c::rest))
    | _ => none
  | .wouldBlock => match srv.dispatcher with
    | .serving (.net _::rest) => some { srv with dispatcher := .serving rest }
    | _ => none
  | .push => match srv.dispatcher with
    | .pushing c batch => (push c srv.pool).map fun pool =>
      { srv with pool := pool, dispatcher := .serving batch }
    | _ => none
  | .readPipe => match srv.dispatcher with
    | .serving (.pipe::rest) => some { srv with pipe := [], dispatcher := .serving rest }
    | _ => none
  | .take w => (threadRun .started w srv.pool).map fun pool => { srv with pool := pool }
  | .execute w handled => match srv.pool.workerThreads[w]? with
    | some (some (.started c)) =>
      if handled ≤ 1 ∧ handled ≤ (srv.connections c).received then
        some { srv with pool := turn w (some (.notifying c handled handled)) srv.pool }
      else none
    | _ => none
  | .notify w => match srv.pool.workerThreads[w]? with
    | some (some (.notifying c handled (left+1))) =>
      if srv.pipe.length < srv.pipeCapacity then
        some { srv with pipe := srv.pipe ++ [c],
                        pool := turn w (some (.notifying c handled left)) srv.pool }
      else none
    | _ => none
  | .finish w => match srv.pool.workerThreads[w]? with
    | some (some (.notifying c handled 0)) => some (finishHandler srv w c handled)
    | _ => none

def inWrite (o : Option Handler) : Prop :=
  ∃ c handled left, o = some (.notifying c handled (left+1))

structure Stuck (srv : Server) : Prop where
  dispatcher : ∃ c batch, srv.dispatcher = .pushing c batch
  queue : srv.pool.taskQueueCapacity ≤ srv.pool.taskQueue.length
  workers : ∀ o ∈ srv.pool.workerThreads, inWrite o
  pipe : srv.pipeCapacity ≤ srv.pipe.length

theorem stuck_forever (srv : Server) (h : Stuck srv) (e : Event) : step srv e = none := by
  obtain ⟨c, batch, hd⟩ := h.dispatcher
  have hw : ∀ w o, srv.pool.workerThreads[w]? = some o → inWrite o := fun w o ho =>
    h.workers o (List.mem_of_getElem? ho)
  cases e with
  | epollWait _ => simp only [step, hd]
  | read _ => simp only [step, hd]
  | wouldBlock => simp only [step, hd]
  | push =>
    simp only [step, hd, push, if_neg (Nat.not_lt.mpr h.queue)]
    rfl
  | readPipe => simp only [step, hd]
  | take w =>
    have hidle : threadRun Handler.started w srv.pool = none := by
      unfold threadRun
      split
      · rename_i ho _
        obtain ⟨_, _, _, h⟩ := hw w _ ho
        cases h
      · rfl
    rw [step, hidle]
    rfl
  | execute w _ =>
    simp only [step]
    split
    · rename_i ho
      obtain ⟨_, _, _, h⟩ := hw w _ ho
      cases h
    · rfl
  | notify w =>
    simp only [step]
    split
    · exact if_neg (Nat.not_lt.mpr h.pipe)
    · rfl
  | finish w =>
    simp only [step]
    split
    · rename_i ho
      obtain ⟨_, _, _, h⟩ := hw w _ ho
      cases h
    · rfl

def nets (c len : ℕ) : List Ready := (List.range' c len).map Ready.net

theorem nets_succ (c len : ℕ) : nets c (len+1) = .net c :: nets (c+1) len := by
  rw [nets, List.range'_succ]
  rfl

structure Serving (c len : ℕ) (srv : Server) : Prop where
  batch : srv.dispatcher = .serving (nets c (len+1))
  untouched : ∀ d, c < d → srv.connections d = {}

def approach (c len : ℕ) (srv : Server) : Server :=
  { srv with
    connections := Function.update srv.connections (c+1) { received := 1, isProcessing := true }
    dispatcher := .pushing (c+1) (nets (c+1) (len+1)) }

theorem serving_approach (c len : ℕ) (srv : Server) (h : Serving c (len+1) srv) :
    run step srv [.wouldBlock, .read 0] = some (approach c len srv) := by
  have hnew : srv.connections (c+1) = {} := h.untouched (c+1) (Nat.lt_succ_self c)
  simp only [run, step, h.batch, nets_succ, Option.bind_some, netReader, hnew, approach]
  rfl

def enqueued (c len : ℕ) (srv : Server) : Server :=
  { approach c len srv with
    dispatcher := .serving (nets (c+1) (len+1))
    pool := { srv.pool with taskQueue := srv.pool.taskQueue ++ [c+1] } }

theorem serving_enqueue (c len : ℕ) (srv : Server) (h : Serving c (len+1) srv)
    (hroom : srv.pool.taskQueue.length < srv.pool.taskQueueCapacity) :
    run step srv [.wouldBlock, .read 0, .push] = some (enqueued c len srv) := by
  rw [show [Event.wouldBlock, .read 0, .push] = [.wouldBlock, .read 0] ++ [.push] from rfl,
    run_append, serving_approach c len srv h]
  have hpush : push (c+1) srv.pool =
    some { srv.pool with taskQueue := srv.pool.taskQueue ++ [c+1] } :=
    if_pos hroom
  simp only [Option.bind_some, run, step, approach, hpush, Option.map_some]
  rfl

theorem serving_enqueued (c len : ℕ) (srv : Server) (h : Serving c (len+1) srv) :
    Serving (c+1) len (enqueued c len srv) := by
  constructor
  · rfl
  · intro d hd
    show Function.update srv.connections (c+1) _ d = {}
    rw [Function.update_of_ne (by omega)]
    exact h.untouched d (by omega)

structure Sizes (n q p : ℕ) (srv : Server) : Prop where
  workers : srv.pool.workerThreads.length = n+1
  queue : srv.pool.taskQueueCapacity = q+1
  pipe : srv.pipeCapacity = p+1

structure Filling (n q p k : ℕ) (srv : Server) : Prop where
  sizes : Sizes n q p srv
  serving : Serving 0 (n+q+2) srv
  queue : srv.pool.taskQueue = []
  workers : srv.pool.workerThreads = some (.started 0) :: List.replicate n none
  received : k < (srv.connections 0).received
  room : srv.pipe.length + k = p+1

structure Blocking (n q p i : ℕ) (srv : Server) : Prop where
  sizes : Sizes n q p srv
  serving : Serving i (n-i+q+2) srv
  queue : srv.pool.taskQueue = []
  workers : ∃ blocked, (∀ o ∈ blocked, inWrite o) ∧ blocked.length = i+1 ∧
    srv.pool.workerThreads = blocked ++ List.replicate (n-i) none
  full : srv.pipe.length = p+1

structure Queueing (n q p j : ℕ) (srv : Server) : Prop where
  sizes : Sizes n q p srv
  serving : Serving (n+j) (q+2-j) srv
  queue : srv.pool.taskQueue.length = j
  workers : ∀ o ∈ srv.pool.workerThreads, inWrite o
  full : srv.pipe.length = p+1

theorem filling_start (n q p : ℕ) :
    ∃ t, Reaches step (Server.start (n+1) (q+1) (p+1)) t ∧ Filling n q p (p+1) t := by
  let t : Server := {
    connections := Function.update (fun _ => {}) 0 { received := p+2, isProcessing := true }
    dispatcher := .serving (nets 0 (n+q+3))
    pool := {
      taskQueueCapacity := q+1
      workerThreads := some (.started 0) :: List.replicate n none }
    pipe := []
    pipeCapacity := p+1 }
  have hpipe : Ready.pipe ∉ nets 0 (n+q+3) := by simp [nets]
  have hrun : run step (Server.start (n+1) (q+1) (p+1))
      [.epollWait (nets 0 (n+q+3)), .read (p+1), .push, .take 0] = some t := by
    simp only [run, step, Server.start, hpipe, false_imp_iff, if_true, Option.bind_some]
    simp [t, nets_succ, netReader, push, threadRun, turn, List.replicate_succ]
  refine ⟨t, reaches_run _ hrun, ?_⟩
  constructor
  · exact ⟨by simp [t], rfl, rfl⟩
  · refine ⟨rfl, fun d hd => ?_⟩
    show Function.update (fun _ => ({} : Connection)) 0 _ d = {}
    rw [Function.update_of_ne (Nat.ne_of_gt hd)]
  · rfl
  · rfl
  · simp [t]
  · simp [t]

theorem filling_next (n q p k : ℕ) (srv : Server) (h : Filling n q p (k+1) srv) :
    ∃ t, Reaches step srv t ∧ Filling n q p k t := by
  obtain ⟨⟨hlength, hcap, hpcap⟩, hserving, hqueue, hworkers, hreceived, hroom⟩ := h
  obtain ⟨connections, dispatcher, ⟨queue, cap, workers⟩, pipe, pcap⟩ := srv
  dsimp only at hlength hcap hpcap hqueue hworkers hreceived hroom
  subst hcap hpcap hqueue hworkers
  let left : Connection := { connections 0 with received := (connections 0).received-1 }
  let t : Server := {
    connections := Function.update connections 0 left
    dispatcher := dispatcher
    pool := {
      taskQueueCapacity := q+1
      workerThreads := some (.started 0) :: List.replicate n none }
    pipe := pipe ++ [0]
    pipeCapacity := p+1 }
  have hone : 1 ≤ (connections 0).received := by omega
  have hpipe : pipe.length < p+1 := by omega
  have hleft : (connections 0).received-1 ≠ 0 := by omega
  have hrun : run step ⟨connections, dispatcher,
    ⟨[], q+1, some (.started 0) :: List.replicate n none⟩, pipe, p+1⟩
      [.execute 0 1, .notify 0, .finish 0, .take 0] = some t := by
    simp [run, step, turn, hone, hpipe, finishHandler, hleft, tryPush, push, threadRun, t, left]
  refine ⟨t, reaches_run _ hrun, ?_⟩
  constructor
  · exact ⟨hlength, rfl, rfl⟩
  · refine ⟨hserving.batch, fun d hd => ?_⟩
    show Function.update connections 0 left d = {}
    rw [Function.update_of_ne (by omega)]
    exact hserving.untouched d hd
  · rfl
  · rfl
  · show k < (Function.update connections 0 left 0).received
    rw [Function.update_self]
    show k < (connections 0).received-1
    omega
  · show (pipe ++ [0]).length + k = p+1
    rw [List.length_append, List.length_singleton]
    omega

theorem blocking_start (n q p : ℕ) (srv : Server) (h : Filling n q p 0 srv) :
    ∃ t, Reaches step srv t ∧ Blocking n q p 0 t := by
  obtain ⟨hsizes, hserving, hqueue, hworkers, hreceived, hroom⟩ := h
  have hstarted : srv.pool.workerThreads[0]? = some (some (.started 0)) := by rw [hworkers]; rfl
  have hrun : run step srv [.execute 0 1] =
    some { srv with pool := turn 0 (some (.notifying 0 1 1)) srv.pool } := by
    simp only [run, step, hstarted, if_pos (And.intro le_rfl (Nat.succ_le_of_lt hreceived))]
    rfl
  refine ⟨_, reaches_run _ hrun, ?_⟩
  constructor
  · exact ⟨(List.length_set).trans hsizes.workers, hsizes.queue, hsizes.pipe⟩
  · exact ⟨hserving.batch, hserving.untouched⟩
  · exact hqueue
  · refine ⟨[some (.notifying 0 1 1)], ?_, rfl, ?_⟩
    · intro o ho
      exact ⟨0, 1, 0, List.mem_singleton.mp ho⟩
    · show srv.pool.workerThreads.set 0 _ = _
      rw [hworkers]
      rfl
  · exact hroom

theorem set_after {α : Type*} (xs : List α) (n : ℕ) (a b : α) :
    (xs ++ List.replicate (n+1) a).set xs.length b = xs ++ [b] ++ List.replicate n a := by
  rw [List.set_append_right _ _ le_rfl, Nat.sub_self, List.replicate_succ, List.set_cons_zero,
    List.append_assoc]
  rfl

theorem getElem_after {α : Type*} (xs : List α) (n : ℕ) (a : α) :
    (xs ++ List.replicate (n+1) a)[xs.length]? = some a := by
  rw [List.getElem?_append_right le_rfl, Nat.sub_self]
  rfl

theorem blocking_next (n q p i : ℕ) (hi : i < n) (srv : Server) (h : Blocking n q p i srv) :
    ∃ t, Reaches step srv t ∧ Blocking n q p (i+1) t := by
  obtain ⟨hsizes, hserving, hqueue, ⟨blocked, hblocked, hlength, hworkers⟩, hfull⟩ := h
  obtain ⟨m, hm⟩ : ∃ m, n = i+1+m := ⟨n-(i+1), by omega⟩
  have hidle : n-i = m+1 := by omega
  have hrest : n-(i+1) = m := by omega
  rw [hidle] at hworkers hserving
  rw [show m+1+q+2 = m+q+2+1 by omega] at hserving
  have hroom : srv.pool.taskQueue.length < srv.pool.taskQueueCapacity := by
    rw [hqueue, hsizes.queue]
    exact Nat.succ_pos q
  have hpushed := serving_enqueue i (m+q+2) srv hserving hroom
  let pool : ThreadPool ℕ Handler := {
    taskQueueCapacity := srv.pool.taskQueueCapacity
    workerThreads := blocked ++ [some (.notifying (i+1) 1 1)] ++ List.replicate m none }
  let t : Server := { enqueued i (m+q+2) srv with pool := pool }
  have hnone : srv.pool.workerThreads[i+1]? = some none := by
    rw [hworkers, ← hlength]
    exact getElem_after blocked m none
  have htaken : run step (enqueued i (m+q+2) srv) [.take (i+1), .execute (i+1) 1] = some t := by
    have hlt : i+1 < srv.pool.workerThreads.length := by
      rw [hsizes.workers]
      omega
    have hset : srv.pool.workerThreads.set (i+1)
      (some (.notifying (i+1) 1 1)) = pool.workerThreads := by
      have hafter := set_after blocked m none (some (.notifying (i+1) 1 1))
      rw [hlength] at hafter
      rw [hworkers, hafter]
    simp only [run, step, enqueued, approach, hqueue, List.nil_append, threadRun, hnone, turn,
      Option.map_some,
      Option.bind_some, List.getElem?_set_self hlt, Function.update_self, le_refl, and_self,
        if_true, List.set_set, hset]
    rfl
  have hreach : Reaches step srv t := reaches_trans (reaches_run _ hpushed) (reaches_run _ htaken)
  refine ⟨t, hreach, ?_⟩
  constructor
  · refine ⟨?_, hsizes.queue, hsizes.pipe⟩
    show (blocked ++ [some (Handler.notifying (i+1) 1 1)] ++ List.replicate m none).length = n+1
    simp only [List.length_append, List.length_singleton, List.length_replicate, hlength]
    omega
  · rw [hrest]
    exact ⟨rfl, (serving_enqueued i (m+q+2) srv hserving).untouched⟩
  · rfl
  · refine ⟨blocked ++ [some (.notifying (i+1) 1 1)], ?_, ?_, ?_⟩
    · intro o ho
      cases List.mem_append.mp ho with
      | inl hold => exact hblocked o hold
      | inr hnew => exact ⟨i+1, 1, 0, List.mem_singleton.mp hnew⟩
    · rw [List.length_append, hlength]
      rfl
    · rw [hrest]
  · exact hfull

theorem queueing_next (n q p j : ℕ) (hj : j < q+1) (srv : Server) (h : Queueing n q p j srv) :
    ∃ t, Reaches step srv t ∧ Queueing n q p (j+1) t := by
  obtain ⟨hsizes, hserving, hqueue, hworkers, hfull⟩ := h
  obtain ⟨m, hm⟩ : ∃ m, q+2-j = m+1 := ⟨q+1-j, by omega⟩
  rw [hm] at hserving
  have hroom : srv.pool.taskQueue.length < srv.pool.taskQueueCapacity := by
    rw [hqueue, hsizes.queue]
    exact hj
  refine ⟨_, reaches_run _ (serving_enqueue (n+j) m srv hserving hroom), ?_⟩
  constructor
  · exact ⟨hsizes.workers, hsizes.queue, hsizes.pipe⟩
  · rw [show q+2-(j+1) = m by omega]
    exact serving_enqueued (n+j) m srv hserving
  · show (srv.pool.taskQueue ++ [n+j+1]).length = j+1
    rw [List.length_append, hqueue]
    rfl
  · exact hworkers
  · exact hfull

theorem queueing_stuck (n q p : ℕ) (srv : Server) (h : Queueing n q p (q+1) srv) :
    ∃ t, Reaches step srv t ∧ Stuck t := by
  have hserving := h.serving
  rw [show q+2-(q+1) = 0+1 by omega] at hserving
  refine ⟨_, reaches_run _ (serving_approach (n+(q+1)) 0 srv hserving), ?_⟩
  constructor
  · exact ⟨_, _, rfl⟩
  · show srv.pool.taskQueueCapacity ≤ srv.pool.taskQueue.length
    rw [h.queue, h.sizes.queue]
  · exact h.workers
  · show srv.pipeCapacity ≤ srv.pipe.length
    rw [h.full, h.sizes.pipe]

theorem deadlock_reachable (n q p : ℕ) :
    ∃ events srv, run step (Server.start (n+1) (q+1) (p+1)) events = some srv ∧ Stuck srv ∧
      ∀ e, step srv e = none := by
  obtain ⟨s0, hr0, hfilling⟩ := filling_start n q p
  obtain ⟨s1, hr1, hfull⟩ := reaches_stage (P := fun k => Filling n q p (p+1-k)) (n := p+1)
    (fun k hk s hs => filling_next n q p (p+1-(k+1)) s (by rwa [show p+1-(k+1)+1 = p+1-k by omega]))
    hfilling
  rw [Nat.sub_self] at hfull
  obtain ⟨s2, hr2, hfirst⟩ := blocking_start n q p s1 hfull
  obtain ⟨s3, hr3, hall⟩ := reaches_stage (fun i hi s hs => blocking_next n q p i hi s hs) hfirst
  have hqueueing : Queueing n q p 0 s3 := by
    obtain ⟨hsizes, hserving, hqueue, ⟨blocked, hblocked, -, hworkers⟩, hpipe⟩ := hall
    rw [Nat.sub_self] at hserving hworkers
    refine ⟨hsizes, ?_, by rw [hqueue]; rfl, ?_, hpipe⟩
    · rw [show 0+q+2 = q+2-0 by omega] at hserving
      exact hserving
    · rw [hworkers, List.replicate_zero, List.append_nil]
      exact hblocked
  obtain ⟨s4, hr4, hlast⟩ :=
    reaches_stage (fun j hj s hs => queueing_next n q p j hj s hs) hqueueing
  obtain ⟨srv, hr5, hstuck⟩ := queueing_stuck n q p s4 hlast
  obtain ⟨events, hevents⟩ : Reaches step (Server.start (n+1) (q+1) (p+1)) srv :=
    reaches_trans hr0 (reaches_trans hr1
      (reaches_trans hr2 (reaches_trans hr3 (reaches_trans hr4 hr5))))
  exact ⟨events, srv, hevents, hstuck, stuck_forever srv hstuck⟩

/-- One worker, one slot, room for one notification, three connections: the first
sends two requests at once, and the handler of the second blocks. -/
theorem deadlock_smallest :
    ∃ srv, run step (Server.start 1 1 1)
      [.epollWait [.net 0, .net 1, .net 2], .read 1, .push, .take 0, .execute 0 1, .notify 0,
        .finish 0, .take 0,
        .execute 0 1, .wouldBlock, .read 0, .push, .wouldBlock, .read 0] = some srv ∧
          Stuck srv := by
  refine ⟨_, rfl, ⟨2, _, rfl⟩, ?_, ?_, ?_⟩
  · decide
  · intro o ho
    exact ⟨0, 1, 0, List.mem_singleton.mp ho⟩
  · decide

end CloudBackup.PipeDeadlock
