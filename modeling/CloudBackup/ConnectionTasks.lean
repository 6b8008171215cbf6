import CloudBackup.HttpParser

/-!
# The tasks of a connection

A connection's requests are worked off by tasks of the thread pool, one
after the other: `handler` parses the next slice of what was received,
`sendFile` appends the next segment of a download. The steps of a task are
its start, its final section under `_request_mutex`, and the look at
`_sub_task` behind it.
-/

set_option autoImplicit false

namespace CloudBackup.ConnectionTasks
open CloudBackup.ByteStrings CloudBackup.JsonCodec CloudBackup.FilePath CloudBackup.DataManager
open CloudBackup.UploadScanner CloudBackup.Download CloudBackup.HttpCallbacks CloudBackup.HttpParser

inductive Task where
  | handler
  | sendFile (task : SendTask)
  deriving DecidableEq

structure Connection (σ : Type) where
  parser : σ
  headInfo : HeadInfo := {}
  requestBuffer : Bytes := []
  isProcessing : Bool := false
  subTask : Option Task := none
  responseBuffer : Bytes := []
  isClosed : Bool := false

/-- A task returns, asks for the connection to be closed and returns, or comes
to its final section with the number of bytes it has consumed. -/
inductive Outcome (σ : Type) where
  | returns (c : Connection σ) (s : Store)
  | fails (c : Connection σ) (s : Store)
  | goesOn (handleSize : ℕ) (c : Connection σ) (s : Store)

variable {σ : Type}

/-- The locked part of `NetReader`: the connection, and whether a handler is to
be pushed. -/
def netReader (data : Bytes) (c : Connection σ) : Connection σ × Bool :=
  let c := { c with requestBuffer := c.requestBuffer ++ data }
  if c.isProcessing then (c, false) else ({ c with isProcessing := true }, true)

def netWriter (writeBytes : ℕ) (c : Connection σ) : Connection σ :=
  { c with responseBuffer := c.responseBuffer.drop writeBytes }

def answered (c : Connection σ) : Option Answer → Connection σ
  | none => c
  | some a => { c with
      responseBuffer := c.responseBuffer ++ a.response
      subTask := (a.subTask.map .sendFile).or c.subTask }

/-- The callbacks of a slice; `none` when an exception leaves one. -/
def receive (env : Env) (codec : Codec) :
    List Callback → Connection σ → Store → Option (Connection σ × Store)
  | [], c, s => some (c, s)
  | cb::cbs, c, s => (callback env codec c.headInfo s cb).bind fun r =>
      receive env codec cbs (answered { c with headInfo := r.1 } r.2.2) r.2.1

section
variable (lib : Llhttp σ) (env : Env) (codec : Codec) (perHandle : ℕ)

def handlerStart (c : Connection σ) (s : Store) : Option (Outcome σ) :=
  if c.isClosed then some (.returns c s)
  else
    let c := { c with subTask := none }
    let cur := c.requestBuffer.take perHandle
    let r := lib.execute c.parser cur
    (receive env codec r.calls { c with parser := r.parser } s).map fun q =>
      match r.verdict with
      | .failed => .fails q.1 q.2
      | .ok => .goesOn cur.length q.1 q.2
      | .paused errorPos => .goesOn errorPos { q.1 with parser := lib.resume q.1.parser } q.2

def sendFileStart (task : SendTask) (c : Connection σ) (s : Store) : Outcome σ :=
  if c.isClosed then .returns c s
  else
    let c := { c with subTask := none }
    match sendFile env task s with
    | .closes t => .fails c t
    | .skips t => .goesOn 0 c t
    | .sends content startPos t =>
      let c := { c with responseBuffer := c.responseBuffer ++ content }
      if startPos < task.endPos then
        .goesOn 0 { c with subTask := some (.sendFile { task with startPos := startPos }) } t
      else .goesOn 0 c t

def start (c : Connection σ) (s : Store) : Task → Option (Outcome σ)
  | .handler => handlerStart lib env codec perHandle c s
  | .sendFile task => some (sendFileStart env task c s)

end

/-- What both final sections do when nothing is bound. -/
def settle (c : Connection σ) : Connection σ :=
  if c.subTask = none then
    if c.requestBuffer = [] then
      { c with isProcessing := false } else { c with subTask := some .handler }
  else c

def handlerEnd (handleSize : ℕ) (c : Connection σ) : Connection σ :=
  settle { c with requestBuffer := c.requestBuffer.drop handleSize }

def sendFileEnd (c : Connection σ) : Connection σ := settle c

def finish (handleSize : ℕ) (c : Connection σ) : Task → Connection σ
  | .handler => handlerEnd handleSize c
  | .sendFile _ => sendFileEnd c

theorem netReader_buffer (data : Bytes) (c : Connection σ) :
    (netReader data c).1 = { c with requestBuffer := c.requestBuffer ++ data,
                                    isProcessing := true } ∧
    (netReader data c).2 = !c.isProcessing := by
  rw [netReader]
  cases hp : c.isProcessing with
  | true => simp
  | false => simp

structure Untouched (c d : Connection σ) : Prop where
  parser : d.parser = c.parser
  requestBuffer : d.requestBuffer = c.requestBuffer
  isProcessing : d.isProcessing = c.isProcessing
  isClosed : d.isClosed = c.isClosed

theorem answered_untouched (c : Connection σ) (a : Option Answer) : Untouched c (answered c a) := by
  cases a with
  | none => exact ⟨rfl, rfl, rfl, rfl⟩
  | some a => exact ⟨rfl, rfl, rfl, rfl⟩

theorem receive_untouched (env : Env) (codec : Codec) (cbs : List Callback)
    (c : Connection σ) (s : Store)
    (d : Connection σ) (t : Store) (h : receive env codec cbs c s = some (d, t)) :
    Untouched c d := by
  induction cbs generalizing c s with
  | nil =>
    cases h
    exact ⟨rfl, rfl, rfl, rfl⟩
  | cons cb cbs ih =>
    obtain ⟨r, -, hrest⟩ := Option.bind_eq_some_iff.mp h
    have hu := ih _ _ hrest
    have ha := answered_untouched { c with headInfo := r.1 } r.2.2
    constructor
    · exact hu.parser.trans ha.parser
    · exact hu.requestBuffer.trans ha.requestBuffer
    · exact hu.isProcessing.trans ha.isProcessing
    · exact hu.isClosed.trans ha.isClosed

structure Kept (c d : Connection σ) : Prop where
  requestBuffer : d.requestBuffer = c.requestBuffer
  isProcessing : d.isProcessing = c.isProcessing
  isClosed : d.isClosed = c.isClosed

theorem start_goesOn (lib : Llhttp σ) (env : Env) (codec : Codec) (perHandle : ℕ)
    (c : Connection σ) (s : Store)
    (task : Task) (n : ℕ) (d : Connection σ) (t : Store)
    (h : start lib env codec perHandle c s task = some (.goesOn n d t)) :
    c.isClosed = false ∧ Kept c d := by
  cases task with
  | handler =>
    simp only [start, handlerStart] at h
    split_ifs at h with hclosed
    · cases h
    · obtain ⟨⟨d', t'⟩, hr, hd⟩ := Option.map_eq_some_iff.mp h
      have hu := receive_untouched env codec _ _ _ _ _ hr
      refine ⟨by simpa using hclosed, ?_⟩
      dsimp only at hd
      split at hd
      · cases hd
      · cases hd
        exact ⟨hu.requestBuffer, hu.isProcessing, hu.isClosed⟩
      · cases hd
        exact ⟨hu.requestBuffer, hu.isProcessing, hu.isClosed⟩
  | sendFile task =>
    simp only [start, sendFileStart] at h
    split_ifs at h with hclosed
    · cases h
    · refine ⟨by simpa using hclosed, ?_⟩
      have h := Option.some.inj h
      split at h
      · cases h
      · cases h
        exact ⟨rfl, rfl, rfl⟩
      · split_ifs at h
        · cases h
          exact ⟨rfl, rfl, rfl⟩
        · cases h
          exact ⟨rfl, rfl, rfl⟩

theorem start_returns (lib : Llhttp σ) (env : Env) (codec : Codec) (perHandle : ℕ)
    (c : Connection σ) (s : Store)
    (task : Task) (d : Connection σ) (t : Store)
    (h : start lib env codec perHandle c s task = some (.returns d t)) :
    c.isClosed = true ∧ d = c := by
  cases task with
  | handler =>
    simp only [start, handlerStart] at h
    split_ifs at h with hclosed
    · cases h
      exact ⟨hclosed, rfl⟩
    · obtain ⟨q, -, hd⟩ := Option.map_eq_some_iff.mp h
      split at hd <;> cases hd
  | sendFile task =>
    simp only [start, sendFileStart] at h
    split_ifs at h with hclosed
    · cases h
      exact ⟨hclosed, rfl⟩
    · have h := Option.some.inj h
      split at h
      · cases h
      · cases h
      · split_ifs at h

theorem settle_cases (c : Connection σ) :
    (c.subTask = none ∧ c.requestBuffer = [] ∧ settle c = { c with isProcessing := false }) ∨
    (c.subTask = none ∧ c.requestBuffer ≠ [] ∧ settle c = { c with subTask := some .handler }) ∨
    (c.subTask ≠ none ∧ settle c = c) := by
  by_cases hsub : c.subTask = none
  · by_cases hbuf : c.requestBuffer = []
    · exact Or.inl ⟨hsub, hbuf, by rw [settle, if_pos hsub, if_pos hbuf]⟩
    · exact Or.inr (Or.inl ⟨hsub, hbuf, by rw [settle, if_pos hsub, if_neg hbuf]⟩)
  · exact Or.inr (Or.inr ⟨hsub, by rw [settle, if_neg hsub]⟩)

theorem finish_settle (n : ℕ) (c : Connection σ) (task : Task) : ∃ buffer,
    finish n c task = settle { c with requestBuffer := buffer } := by
  cases task with
  | handler => exact ⟨_, rfl⟩
  | sendFile task => exact ⟨c.requestBuffer, rfl⟩

end CloudBackup.ConnectionTasks
