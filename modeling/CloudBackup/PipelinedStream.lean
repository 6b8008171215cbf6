import CloudBackup.ConnectionTasks
import CloudBackup.RunInvariants
import CloudBackup.SerialServer

/-!
# Pipelined streams stay in order

A connection receives, parses, sends and writes in any order, slice by slice
and segment by segment, while other connections change the store. Whatever
it has read and appended is what a serial server would have: the invariant
follows that server through the pending task.
-/

set_option autoImplicit false

namespace CloudBackup.PipelinedStream
open CloudBackup.ByteStrings CloudBackup.JsonCodec CloudBackup.FilePath CloudBackup.FileStore
open CloudBackup.DataManager CloudBackup.UploadScanner CloudBackup.Download
  CloudBackup.HttpCallbacks
open CloudBackup.HttpParser CloudBackup.ConnectionTasks CloudBackup.RunInvariants
  CloudBackup.SerialServer

/-- One connection: its tasks that are queued or called in place, everything
received and written, and the slices counted as consumed. -/
structure Stream (σ : Type) where
  store : Store
  connection : Connection σ
  tasks : List Task := []
  received : Bytes := []
  fed : List Bytes := []
  written : Bytes := []

inductive Act where
  | read (data : Bytes)
  | run
  | write (writeBytes : ℕ)
  | close
  | others (s : Store)

variable {σ : Type}

def stepRead (w : Stream σ) (data : Bytes) : Option (Stream σ) :=
  if w.connection.isClosed then none
  else
    let r := netReader data w.connection
    some { w with
      connection := r.1
      tasks := w.tasks ++ if r.2 then [.handler] else []
      received := w.received ++ data }

/-- `write` takes what it can of the buffer. -/
def stepWrite (w : Stream σ) (writeBytes : ℕ) : Option (Stream σ) :=
  if w.connection.isClosed || w.connection.responseBuffer.length < writeBytes then none
  else some { w with
    connection := netWriter writeBytes w.connection
    written := w.written ++ w.connection.responseBuffer.take writeBytes }

def consumed (c : Connection σ) (handleSize : ℕ) : Task → List Bytes
  | .handler => [c.requestBuffer.take handleSize]
  | .sendFile _ => []

def ran (w : Stream σ) (rest : List Task) (task : Task) : Outcome σ → Stream σ
  | .returns c s => { w with store := s, connection := c, tasks := rest }
  | .fails c s => { w with store := s, connection := c, tasks := rest }
  | .goesOn n c s =>
    let d := finish n c task
    { w with
      store := s
      connection := d
      tasks := rest ++ d.subTask.toList
      fed := w.fed ++ consumed c n task }

section
variable (lib : Llhttp σ) (env : Env) (codec : Codec) (perHandle : ℕ)

/-- A task runs from its start to the look at `_sub_task`, which makes the next. -/
def stepRun (w : Stream σ) : Option (Stream σ) :=
  match w.tasks with
  | [] => none
  | task::rest => (start lib env codec perHandle w.connection w.store task).map (ran w rest task)

def step (w : Stream σ) : Act → Option (Stream σ)
  | .read data => stepRead w data
  | .run => stepRun lib env codec perHandle w
  | .write writeBytes => stepWrite w writeBytes
  | .close => some { w with connection := { w.connection with isClosed := true } }
  | .others s => some { w with store := s }

/-- Nothing is skipped or fed twice, the bytes written are a beginning of the
replies in the order of the stream's messages, and every body is complete
before the next head. -/
def InOrder (p : σ) (w : Stream σ) : Prop := ∃ a, Serves lib env codec p a ∧ Ordered lib env p a ∧
  a.input = w.fed.flatten ∧ w.fed.flatten <+: w.received ∧ w.written <+: a.output ∧
  ∀ rs rest q, Splits lib p rs rest q → rs.flatten ++ rest = w.received → a.requests <+: rs

end

structure Accepted (p : σ) (w : Stream σ) : Prop where
  connection : w.connection = { parser := p }
  tasks : w.tasks = []
  received : w.received = []
  fed : w.fed = []
  written : w.written = []

theorem receive_respond (env : Env) (codec : Codec) (cbs : List Callback) (c : Connection σ)
    (s : Store) :
    receive env codec cbs c s = (respond env codec cbs c.headInfo s).map fun q =>
      (q.2.1.foldl (fun d a => answered d (some a)) { c with headInfo := q.1 }, q.2.2) := by
  induction cbs generalizing c s with
  | nil => rfl
  | cons cb cbs ih =>
    rw [receive, respond]
    cases hcb : callback env codec c.headInfo s cb with
    | none => rfl
    | some r =>
      simp only [Option.bind_some, Option.map_map]
      rw [ih]
      cases ha : r.2.2 with
      | none => rfl
      | some a => rfl

theorem callback_quiet (env : Env) (codec : Codec) (h : HeadInfo) (s : Store) (cb : Callback)
    (r : HeadInfo × Store × Option Answer) (hcb : cb ≠ .messageComplete)
    (hr : callback env codec h s cb = some r) : r.2.2 = none := by
  cases cb with
  | messageComplete => exact absurd rfl hcb
  | headersComplete | body =>
    obtain ⟨q, -, rfl⟩ := Option.map_eq_some_iff.mp hr
    rfl
  | messageBegin | method | url | urlComplete | version | headerField | headerValue
    | headerValueComplete =>
    cases hr
    rfl

theorem respond_quiet (env : Env) (codec : Codec) (cbs : List Callback) (h : HeadInfo) (s : Store)
    (q : HeadInfo × List Answer × Store) (hquiet : .messageComplete ∉ cbs)
    (hq : respond env codec cbs h s = some q) : q.2.1 = [] := by
  induction cbs generalizing h s q with
  | nil =>
    cases hq
    rfl
  | cons cb cbs ih =>
    rw [List.mem_cons, not_or] at hquiet
    obtain ⟨r, hr, hrest⟩ := Option.bind_eq_some_iff.mp hq
    obtain ⟨q', hq', rfl⟩ := Option.map_eq_some_iff.mp hrest
    simp only [callback_quiet env codec h s cb r (Ne.symm hquiet.1) hr, Option.toList_none,
      List.nil_append]
    exact ih r.1 r.2.1 q' hquiet.2 hq'

theorem respond_answer (env : Env) (codec : Codec) (cbs : List Callback) (h : HeadInfo) (s : Store)
    (q : HeadInfo × List Answer × Store) (hquiet : .messageComplete ∉ cbs)
    (hq : respond env codec (cbs ++ [.messageComplete]) h s = some q) : ∃ a, q.2.1 = [a] := by
  induction cbs generalizing h s q with
  | nil =>
    obtain ⟨r, hr, hrest⟩ := Option.bind_eq_some_iff.mp hq
    obtain ⟨q', hq', rfl⟩ := Option.map_eq_some_iff.mp hrest
    obtain ⟨r', -, rfl⟩ := Option.map_eq_some_iff.mp hr
    cases hq'
    exact ⟨r'.2.2, rfl⟩
  | cons cb cbs ih =>
    rw [List.mem_cons, not_or] at hquiet
    obtain ⟨r, hr, hrest⟩ := Option.bind_eq_some_iff.mp hq
    obtain ⟨q', hq', rfl⟩ := Option.map_eq_some_iff.mp hrest
    simp only [callback_quiet env codec h s cb r (Ne.symm hquiet.1) hr, Option.toList_none,
      List.nil_append]
    exact ih r.1 r.2.1 q' hquiet.2 hq'

section
variable {lib : Llhttp σ} {env : Env} {codec : Codec} {perHandle : ℕ}

theorem handlerStart_cases (hinc : Incremental lib) (c : Connection σ) (s : Store) (o : Outcome σ)
    (h : handlerStart lib env codec perHandle c s = some o) (slice : Bytes)
    (hslice : slice = c.requestBuffer.take perHandle) :
    o = .returns c s ∨ ∃ q, respond env codec (lib.execute c.parser slice).calls
      c.headInfo s = some q ∧
      ((∃ d, o = .fails d q.2.2 ∧ d.isProcessing = c.isProcessing ∧
        d.requestBuffer = c.requestBuffer ∧
          d.responseBuffer = c.responseBuffer) ∨
        ((lib.execute c.parser slice).verdict = .ok ∧ q.2.1 = [] ∧ o = .goesOn slice.length
          { c with parser := (lib.execute c.parser slice).parser, headInfo := q.1,
                   subTask := none } q.2.2) ∨
        ∃ n a, (lib.execute c.parser slice).verdict = .paused n ∧ q.2.1 = [a] ∧ o = .goesOn n
          { c with
            parser := lib.resume (lib.execute c.parser slice).parser
            headInfo := q.1
            responseBuffer := c.responseBuffer ++ a.response
            subTask := a.subTask.map .sendFile } q.2.2) := by
  subst hslice
  rw [handlerStart] at h
  split_ifs at h with hclosed
  · cases h
    exact Or.inl rfl
  · right
    obtain ⟨⟨d, t⟩, hr, rfl⟩ := Option.map_eq_some_iff.mp h
    rw [receive_respond] at hr
    obtain ⟨q, hq, hd⟩ := Option.map_eq_some_iff.mp hr
    obtain ⟨rfl, rfl⟩ := Prod.mk.inj hd
    refine ⟨q, hq, ?_⟩
    dsimp only
    cases hv : (lib.execute c.parser (c.requestBuffer.take perHandle)).verdict with
    | failed =>
      have hnone := respond_quiet env codec _ _ _ q (hinc.quiet _ _ (by simp [hv])) hq
      left
      rw [hnone]
      exact ⟨_, rfl, rfl, rfl, rfl⟩
    | ok =>
      have hnone := respond_quiet env codec _ _ _ q (hinc.quiet _ _ (by simp [hv])) hq
      right
      left
      rw [hnone]
      exact ⟨rfl, rfl, rfl⟩
    | paused n =>
      obtain ⟨calls, hcalls, hquiet⟩ := hinc.answers _ _ n hv
      rw [hcalls] at hq
      obtain ⟨a, ha⟩ := respond_answer env codec calls _ _ q hquiet hq
      right
      right
      rw [ha]
      refine ⟨n, a, rfl, rfl, ?_⟩
      simp only [List.foldl_cons, List.foldl_nil, answered, Option.or_none]

theorem sendFileStart_cases (env : Env) (task : SendTask) (c : Connection σ) (s : Store) :
    sendFileStart env task c s = .returns c s ∨
    (∃ t, sendFileStart env task c s = .fails { c with subTask := none } t) ∨
    (∃ t, sendFile env task s = .skips t ∧ sendFileStart env task c s = .goesOn 0
      { c with subTask := none } t) ∨
    ∃ content startPos t, sendFile env task s = .sends content startPos t ∧
      sendFileStart env task c s = .goesOn 0
        { c with
          responseBuffer := c.responseBuffer ++ content
          subTask := (behind task startPos).map .sendFile } t := by
  rw [sendFileStart]
  split_ifs with hclosed
  · exact Or.inl rfl
  · right
    cases hsend : sendFile env task s with
    | closes t => exact Or.inl ⟨t, rfl⟩
    | skips t => exact Or.inr (Or.inl ⟨t, rfl, rfl⟩)
    | sends content startPos t =>
      refine Or.inr (Or.inr ⟨content, startPos, t, rfl, ?_⟩)
      rw [behind]
      dsimp only
      split_ifs <;> rfl

end

def boundBy (a : Serial σ) : Option Task := a.current.map fun c => .sendFile c.2

def taskOf (a : Serial σ) : Task := (boundBy a).getD .handler

/-- A task has ended the connection, no task is due, or the task is pending
that the serial server's state calls for. -/
inductive Pending (w : Stream σ) (a : Serial σ) : Prop where
  | dead (htasks : w.tasks = []) (hproc : w.connection.isProcessing = true)
  | idle (htasks : w.tasks = []) (hproc : w.connection.isProcessing = false)
      (hempty : w.connection.requestBuffer = []) (hcurrent : a.current = none)
      (hparser : w.connection.parser = a.parser) (hhead : w.connection.headInfo = a.headInfo)
  | busy (htasks : w.tasks = [taskOf a]) (hproc : w.connection.isProcessing = true)
      (hparser : w.connection.parser = a.parser) (hhead : w.connection.headInfo = a.headInfo)

structure Tracks (lib : Llhttp σ) (env : Env) (codec : Codec) (p : σ) (w : Stream σ)
    (a : Serial σ) : Prop where
  serves : Serves lib env codec p a
  received : w.fed.flatten ++ w.connection.requestBuffer = w.received
  input : a.input = w.fed.flatten
  output : a.output = w.written ++ w.connection.responseBuffer
  pending : Pending w a

theorem settle_same (c : Connection σ) :
    (settle c).parser = c.parser ∧ (settle c).headInfo = c.headInfo ∧
    (settle c).requestBuffer = c.requestBuffer ∧ (settle c).responseBuffer = c.responseBuffer := by
  obtain ⟨-, -, hs⟩ | ⟨-, -, hs⟩ | ⟨-, hs⟩ :=
    settle_cases c <;> rw [hs] <;> exact ⟨rfl, rfl, rfl, rfl⟩

theorem settle_pending {w : Stream σ} {a : Serial σ} {c : Connection σ}
    (hcon : w.connection = settle c)
    (htasks : w.tasks = (settle c).subTask.toList) (hproc : c.isProcessing = true)
    (hsub : c.subTask = boundBy a) (hparser : c.parser = a.parser)
    (hhead : c.headInfo = a.headInfo) :
    Pending w a := by
  obtain ⟨hp, hh, hr, -⟩ := settle_same c
  rw [← hp, ← hcon] at hparser
  rw [← hh, ← hcon] at hhead
  obtain ⟨hnone, hempty, hs⟩ | ⟨hnone, -, hs⟩ | ⟨hsome, hs⟩ := settle_cases c
  · rw [hnone] at hsub
    apply Pending.idle
    · rw [htasks, hs, hnone, Option.toList_none]
    · rw [hcon, hs]
    · rw [hcon, hr, hempty]
    · exact Option.map_eq_none_iff.mp hsub.symm
    · exact hparser
    · exact hhead
  · rw [hnone] at hsub
    apply Pending.busy
    · rw [htasks, hs, taskOf, ← hsub, Option.toList_some, Option.getD_none]
    · rw [hcon, hs]
      exact hproc
    · exact hparser
    · exact hhead
  · obtain ⟨task, htask⟩ := Option.ne_none_iff_exists'.mp hsome
    rw [htask] at hsub
    apply Pending.busy
    · rw [htasks, hs, taskOf, ← hsub, htask, Option.toList_some, Option.getD_some]
    · rw [hcon, hs]
      exact hproc
    · exact hparser
    · exact hhead

theorem place_output (a : Serial σ) (r : Reply) (left : Option SendTask) :
    (a.place r left).output = (a.done.map Reply.bytes).flatten ++ r.bytes := by
  rw [Serial.output, place_replies]
  simp only [List.map_append, List.map_cons, List.map_nil, List.flatten_append, List.flatten_cons,
    List.flatten_nil, List.append_nil]

theorem place_input (a : Serial σ) (r : Reply) (left : Option SendTask) :
    (a.place r left).input = (a.done.map Reply.request).flatten ++ r.request ++ a.unfinished := by
  have hunfinished : (a.place r left).unfinished = a.unfinished := by cases left <;> rfl
  rw [Serial.input, Serial.requests, place_replies, hunfinished]
  simp only [List.map_append, List.map_cons, List.map_nil, List.flatten_append, List.flatten_cons,
    List.flatten_nil, List.append_nil]

theorem place_bound (a : Serial σ) (r : Reply) (left : Option SendTask) :
    boundBy (a.place r left) = left.map .sendFile := by
  cases left <;> rfl

theorem place_same (a : Serial σ) (r : Reply) (left : Option SendTask) :
    (a.place r left).parser = a.parser ∧ (a.place r left).headInfo = a.headInfo := by
  cases left <;> exact ⟨rfl, rfl⟩

section
variable {lib : Llhttp σ} {env : Env} {codec : Codec} {perHandle : ℕ} {p : σ}

theorem tracks_read {w w' : Stream σ} {a : Serial σ} {data : Bytes} (h : Tracks lib env codec p w a)
    (hread : stepRead w data = some w') : Tracks lib env codec p w' a := by
  rw [stepRead] at hread
  split_ifs at hread
  cases hread
  obtain ⟨hcon, hflag⟩ := netReader_buffer data w.connection
  have hpending := h.pending
  constructor
  · exact h.serves
  · simp only [hcon]
    rw [← List.append_assoc, h.received]
  · exact h.input
  · simp only [hcon]
    exact h.output
  · cases hpending with
    | dead htasks hproc =>
      apply Pending.dead
      · simp [hflag, hproc, htasks]
      · simp only [hcon]
    | idle htasks hproc hempty hcurrent hparser hhead =>
      apply Pending.busy
      · simp [hflag, hproc, htasks, taskOf, boundBy, hcurrent]
      · simp only [hcon]
      · simp only [hcon, hparser]
      · simp only [hcon, hhead]
    | busy htasks hproc hparser hhead =>
      apply Pending.busy
      · simp [hflag, hproc, htasks]
      · simp only [hcon]
      · simp only [hcon, hparser]
      · simp only [hcon, hhead]

theorem tracks_write {w w' : Stream σ} {a : Serial σ} {n : ℕ} (h : Tracks lib env codec p w a)
    (hwrite : stepWrite w n = some w') : Tracks lib env codec p w' a := by
  rw [stepWrite] at hwrite
  split_ifs at hwrite
  cases hwrite
  constructor
  · exact h.serves
  · exact h.received
  · exact h.input
  · rw [h.output, netWriter, List.append_assoc, List.take_append_drop]
  · cases h.pending with
    | dead htasks hproc => exact Pending.dead htasks hproc
    | idle htasks hproc hempty hcurrent hparser hhead =>
      exact Pending.idle htasks hproc hempty hcurrent hparser hhead
    | busy htasks hproc hparser hhead => exact Pending.busy htasks hproc hparser hhead

theorem tracks_aside {w w' : Stream σ} {a : Serial σ} (h : Tracks lib env codec p w a)
    (hcon : ∃ closed, w'.connection = { w.connection with isClosed := closed })
    (htasks : w'.tasks = w.tasks)
    (hreceived : w'.received = w.received) (hfed : w'.fed = w.fed)
    (hwritten : w'.written = w.written) :
    Tracks lib env codec p w' a := by
  obtain ⟨closed, hcon⟩ := hcon
  constructor
  · exact h.serves
  · rw [hfed, hcon, hreceived]
    exact h.received
  · rw [hfed]
    exact h.input
  · rw [hwritten, hcon]
    exact h.output
  · cases h.pending with
    | dead ht hproc => exact Pending.dead (htasks.trans ht) (by rw [hcon]; exact hproc)
    | idle ht hproc hempty hcurrent hparser hhead =>
      exact Pending.idle (htasks.trans ht) (by rw [hcon]; exact hproc)
        (by rw [hcon]; exact hempty) hcurrent
        (by rw [hcon]; exact hparser) (by rw [hcon]; exact hhead)
    | busy ht hproc hparser hhead =>
      exact Pending.busy (htasks.trans ht) (by rw [hcon]; exact hproc) (by rw [hcon]; exact hparser)
        (by rw [hcon]; exact hhead)

theorem tracks_dead {w w' : Stream σ} {a : Serial σ} (h : Tracks lib env codec p w a)
    (hbuffer : w'.connection.requestBuffer = w.connection.requestBuffer)
    (hresponse : w'.connection.responseBuffer = w.connection.responseBuffer)
    (hproc : w'.connection.isProcessing = true) (htasks : w'.tasks = [])
    (hreceived : w'.received = w.received)
    (hfed : w'.fed = w.fed) (hwritten : w'.written = w.written) : Tracks lib env codec p w' a := by
  constructor
  · exact h.serves
  · rw [hfed, hbuffer, hreceived]
    exact h.received
  · rw [hfed]
    exact h.input
  · rw [hwritten, hresponse]
    exact h.output
  · exact Pending.dead htasks hproc

theorem finish_handler (n : ℕ) (c : Connection σ) :
    (finish n c .handler).requestBuffer = c.requestBuffer.drop n ∧
    (finish n c .handler).responseBuffer = c.responseBuffer := by
  obtain ⟨-, -, hr, hs⟩ := settle_same { c with requestBuffer := c.requestBuffer.drop n }
  exact ⟨hr, hs⟩

theorem tracks_part {w : Stream σ} {a : Serial σ} {slice : Bytes} {head : HeadInfo} {t : Store}
    (h : Tracks lib env codec p w a) (hproc : w.connection.isProcessing = true)
    (hcurrent : a.current = none)
    (hslice : w.connection.requestBuffer.take slice.length = slice)
    (hok : (lib.execute a.parser slice).verdict = .ok)
    (hq : respond env codec (lib.execute a.parser slice).calls a.headInfo
      w.store = some (head, [], t)) :
    ∃ b, Tracks lib env codec p (ran w [] .handler (.goesOn slice.length
      { w.connection with parser := (lib.execute a.parser slice).parser, headInfo := head,
                          subTask := none } t)) b := by
  refine ⟨_, h.serves.tail (Step.part a slice head w.store t hcurrent hok hq), ?_, ?_, ?_, ?_⟩
  · simp only [ran, consumed, (finish_handler _ _).1, List.flatten_append, List.flatten_cons,
      List.flatten_nil, List.append_nil, List.append_assoc, List.take_append_drop]
    exact h.received
  · simp only [ran, consumed, List.flatten_append, List.flatten_cons, List.flatten_nil,
      List.append_nil, hslice, ← h.input]
    simp only [Serial.input, Serial.requests, Serial.replies, hcurrent, List.append_assoc]
  · simp only [ran, (finish_handler _ _).2]
    exact h.output
  · refine settle_pending rfl rfl hproc ?_ rfl rfl
    simp only [boundBy, hcurrent, Option.map_none]

theorem tracks_message {w : Stream σ} {a : Serial σ} {n : ℕ} {head : HeadInfo}
    {answer : Answer} {t : Store}
    (h : Tracks lib env codec p w a) (hproc : w.connection.isProcessing = true)
    (hcurrent : a.current = none)
    (hlen : (w.connection.requestBuffer.take n).length = n)
    (hpaused : (lib.execute a.parser (w.connection.requestBuffer.take n)).verdict = .paused n)
    (hq : respond env codec (lib.execute a.parser (w.connection.requestBuffer.take n)).calls
      a.headInfo w.store =
      some (head, [answer], t)) :
    ∃ b, Tracks lib env codec p (ran w [] .handler (.goesOn n
      { w.connection with
        parser := lib.resume (lib.execute a.parser (w.connection.requestBuffer.take n)).parser
        headInfo := head
        responseBuffer := w.connection.responseBuffer ++ answer.response
        subTask := answer.subTask.map .sendFile } t)) b := by
  have hout : a.output = (a.done.map Reply.bytes).flatten := by
    rw [Serial.output, idle_replies hcurrent]
  have hin : a.input = (a.done.map Reply.request).flatten ++ a.unfinished := by
    rw [Serial.input, Serial.requests, idle_replies hcurrent]
  refine ⟨_, h.serves.tail (Step.message a (w.connection.requestBuffer.take n) head answer w.store t
    hcurrent ?_ hq), ?_, ?_, ?_, ?_⟩
  · rw [hlen]
    exact hpaused
  · simp only [ran, consumed, (finish_handler _ _).1, List.flatten_append, List.flatten_cons,
      List.flatten_nil, List.append_nil, List.append_assoc, List.take_append_drop]
    exact h.received
  · rw [place_input]
    simp only [ran, consumed, List.flatten_append, List.flatten_cons, List.flatten_nil,
      List.append_nil, ← h.input, hin, List.append_assoc]
  · rw [place_output]
    simp only [ran, (finish_handler _ _).2, Reply.bytes, List.flatten_nil, List.append_nil]
    rw [← hout, h.output, List.append_assoc]
  · refine settle_pending rfl rfl hproc ?_ ?_ ?_
    · rw [place_bound]
    · rw [(place_same _ _ _).1]
    · rw [(place_same _ _ _).2]

theorem tracks_handler (hinc : Incremental lib) {w : Stream σ} {a : Serial σ} {o : Outcome σ}
    (h : Tracks lib env codec p w a) (hproc : w.connection.isProcessing = true)
    (hparser : w.connection.parser = a.parser) (hhead : w.connection.headInfo = a.headInfo)
    (hcurrent : a.current = none)
    (hstart : handlerStart lib env codec perHandle w.connection w.store = some o) :
    ∃ b, Tracks lib env codec p (ran w [] .handler o) b := by
  obtain rfl | ⟨q, hq, ⟨d, rfl, hdproc, hdbuf, hdresp⟩ | ⟨hok, hnone, rfl⟩ | ⟨n, answer, hpaused,
    hone, rfl⟩⟩ :=
    handlerStart_cases hinc w.connection w.store o hstart _ rfl
  · exact ⟨a, tracks_dead h rfl rfl hproc rfl rfl rfl rfl⟩
  · exact ⟨a, tracks_dead h hdbuf hdresp (hdproc.trans hproc) rfl rfl rfl rfl⟩
  · obtain ⟨head, answers, t⟩ := q
    obtain rfl : answers = [] := hnone
    rw [hparser] at hok ⊢
    rw [hparser, hhead] at hq
    refine tracks_part h hproc hcurrent ?_ hok hq
    rw [List.length_take, ← List.take_eq_take_min]
  · obtain ⟨head, answers, t⟩ := q
    obtain rfl : answers = [answer] := hone
    rw [hparser] at hpaused ⊢
    rw [hparser, hhead] at hq
    have hn := hinc.within _ _ n hpaused
    -- the bytes behind the pause were not looked at
    have hsame := hinc.stops _ _ n [] hpaused
    rw [List.length_take] at hn
    rw [List.append_nil, List.take_take, min_eq_left (hn.trans (min_le_left _ _))] at hsame
    rw [← hsame] at hpaused hq ⊢
    exact tracks_message h hproc hcurrent
      (List.length_take_of_le (hn.trans (min_le_right _ _))) hpaused hq

theorem tracks_sendFile {w : Stream σ} {a : Serial σ} {r : Reply} {task : SendTask}
    (h : Tracks lib env codec p w a) (hproc : w.connection.isProcessing = true)
    (hparser : w.connection.parser = a.parser) (hhead : w.connection.headInfo = a.headInfo)
    (hcurrent : a.current = some (r, task)) :
    ∃ b, Tracks lib env codec p
      (ran w [] (.sendFile task) (sendFileStart env task w.connection w.store)) b := by
  have hout : a.output = (a.done.map Reply.bytes).flatten ++ r.bytes := by
    rw [Serial.output, busy_replies hcurrent]
    simp
  have hin : a.input = (a.done.map Reply.request).flatten ++ r.request ++ a.unfinished := by
    rw [Serial.input, Serial.requests, busy_replies hcurrent]
    simp
  obtain hr | ⟨t, hr⟩ | ⟨t, hsend, hr⟩ | ⟨content, startPos, t, hsend, hr⟩ :=
    sendFileStart_cases env task w.connection w.store
  · rw [hr]
    exact ⟨a, tracks_dead h rfl rfl hproc rfl rfl rfl rfl⟩
  · rw [hr]
    exact ⟨a, tracks_dead h rfl rfl hproc rfl rfl rfl rfl⟩
  · rw [hr]
    refine ⟨_, h.serves.tail (Step.skip a r task w.store t hcurrent hsend), ?_, ?_, ?_, ?_⟩
    · simp only [ran, consumed, finish, sendFileEnd, (settle_same _).2.2.1, List.append_nil]
      exact h.received
    · rw [place_input, ← hin]
      simp only [ran, consumed, List.append_nil]
      exact h.input
    · rw [place_output, ← hout]
      simp only [ran, finish, sendFileEnd, (settle_same _).2.2.2]
      exact h.output
    · refine settle_pending rfl rfl hproc ?_ ?_ ?_
      · rw [place_bound, Option.map_none]
      · rw [(place_same _ _ _).1, hparser]
      · rw [(place_same _ _ _).2, hhead]
  · rw [hr]
    refine ⟨_, h.serves.tail (Step.segment a r task content startPos w.store t hcurrent hsend),
      ?_, ?_, ?_, ?_⟩
    · simp only [ran, consumed, finish, sendFileEnd, (settle_same _).2.2.1, List.append_nil]
      exact h.received
    · rw [place_input]
      simp only [ran, consumed, List.append_nil, Reply.extend]
      rw [← hin]
      exact h.input
    · rw [place_output]
      simp only [ran, finish, sendFileEnd, (settle_same _).2.2.2, Reply.extend, Reply.bytes,
        List.flatten_append, List.flatten_cons, List.flatten_nil, List.append_nil]
      rw [← List.append_assoc w.written, ← h.output, hout, Reply.bytes]
      simp only [List.append_assoc]
    · refine settle_pending rfl rfl hproc ?_ ?_ ?_
      · rw [place_bound]
      · rw [(place_same _ _ _).1, hparser]
      · rw [(place_same _ _ _).2, hhead]

theorem tracks_run (hinc : Incremental lib) {w w' : Stream σ} {a : Serial σ}
    (h : Tracks lib env codec p w a)
    (hrun : stepRun lib env codec perHandle w = some w') : ∃ b, Tracks lib env codec p w' b := by
  rw [stepRun] at hrun
  cases h.pending with
  | dead htasks hproc | idle htasks hproc hempty hcurrent hparser hhead =>
    rw [htasks] at hrun
    cases hrun
  | busy htasks hproc hparser hhead =>
    rw [htasks] at hrun
    obtain ⟨o, ho, rfl⟩ := Option.map_eq_some_iff.mp hrun
    cases hcurrent : a.current with
    | none =>
      have htask : taskOf a = .handler := by
        simp only [taskOf, boundBy, hcurrent, Option.map_none, Option.getD_none]
      rw [htask] at ho ⊢
      exact tracks_handler hinc h hproc hparser hhead hcurrent ho
    | some c =>
      obtain ⟨r, task⟩ := c
      have htask : taskOf a = .sendFile task := by
        simp only [taskOf, boundBy, hcurrent, Option.map_some, Option.getD_some]
      rw [htask] at ho ⊢
      cases ho
      exact tracks_sendFile h hproc hparser hhead hcurrent

theorem step_tracks (hinc : Incremental lib) (w : Stream σ) (act : Act) (w' : Stream σ)
    (h : ∃ a, Tracks lib env codec p w a) (hstep : step lib env codec perHandle w act = some w') :
    ∃ a, Tracks lib env codec p w' a := by
  obtain ⟨a, ha⟩ := h
  cases act with
  | read data => exact ⟨a, tracks_read ha hstep⟩
  | run => exact tracks_run hinc ha hstep
  | write n => exact ⟨a, tracks_write ha hstep⟩
  | close =>
    cases hstep
    exact ⟨a, tracks_aside ha ⟨true, rfl⟩ rfl rfl rfl rfl⟩
  | others s =>
    cases hstep
    exact ⟨a, tracks_aside ha ⟨w.connection.isClosed, rfl⟩ rfl rfl rfl rfl⟩

theorem tracks_inOrder (hinc : Incremental lib) (w : Stream σ)
    (h : ∃ a, Tracks lib env codec p w a) :
    InOrder lib env codec p w := by
  obtain ⟨a, ha⟩ := h
  have hordered := serves_ordered hinc ha.serves
  refine ⟨a, ha.serves, hordered, ha.input, ⟨_, ha.received⟩, ?_, fun rs rest q hsplits heq => ?_⟩
  · rw [ha.output]
    exact List.prefix_append _ _
  · apply ordered_first hinc hordered hsplits
    rw [heq, ha.input]
    exact ha.received.symm

theorem accepted_tracks (w : Stream σ) (h : Accepted p w) : ∃ a, Tracks lib env codec p w a := by
  refine ⟨{ parser := p }, Relation.ReflTransGen.refl, ?_, ?_, ?_, ?_⟩
  · rw [h.fed, h.connection, h.received]
    rfl
  · rw [h.fed]
    rfl
  · rw [h.written, h.connection]
    rfl
  · exact Pending.idle h.tasks (by rw [h.connection]) (by rw [h.connection]) rfl
      (by rw [h.connection])
      (by rw [h.connection])

/-- For every stream, every split into reads and slices, and every order of the
steps. -/
theorem streams_in_order (hinc : Incremental lib) (w : Stream σ) (acts : List Act)
    (h : Accepted p w) :
    Throughout (step lib env codec perHandle) (InOrder lib env codec p) w acts := by
  apply throughout_mono (tracks_inOrder hinc)
  apply invariant_throughout (fun w act w' hi _ => step_tracks hinc w act w' hi)
    (accepted_tracks w h)
  exact meets_trivial w acts

end

def acceptedStream : Stream ℕ where
  store := Store.fresh (fun _ => 0) { files := ∅, faults := [] }
  connection := { parser := 0 }

theorem acceptedStream_accepted : Accepted 0 acceptedStream where
  connection := rfl
  tasks := rfl
  received := rfl
  fed := rfl
  written := rfl

/-- Two requests, cut by the reads and the slices elsewhere than between them; the first answer
is being written when the second is appended. -/
def splitRequests : List Act :=
  [.read (requestText.take 5), .run, .read (requestText.drop 5 ++ requestText), .run, .run,
    .write 9, .run, .run, .run, .write 43]

def notFoundText : Bytes := bytes "HTTP/1.1 404 Not Found\r\n\r\n"

theorem streams_in_order_split :
    (run (step requestBytes.llhttp plainEnv plainCodec 8) acceptedStream splitRequests).map
      Stream.written = some (notFoundText ++ notFoundText) ∧
    Throughout (step requestBytes.llhttp plainEnv plainCodec 8)
      (InOrder requestBytes.llhttp plainEnv plainCodec 0) acceptedStream splitRequests :=
  ⟨by decide +kernel, streams_in_order (bytewise_incremental requestBytes) acceptedStream
    splitRequests acceptedStream_accepted⟩

end CloudBackup.PipelinedStream
