import CloudBackup.HttpParser

/-!
# A server of one message at a time

What pipelining is to look like from outside: the stream is read one message
after another, a message is answered when it is complete, and the segments
of its download follow before the next byte is read. Between the steps the
store may be changed by others.
-/

set_option autoImplicit false

namespace CloudBackup.SerialServer
open CloudBackup.ByteStrings CloudBackup.JsonCodec CloudBackup.FilePath CloudBackup.DataManager
open CloudBackup.UploadScanner CloudBackup.Download CloudBackup.HttpCallbacks CloudBackup.HttpParser

def respond (env : Env) (codec : Codec) :
    List Callback → HeadInfo → Store → Option (HeadInfo × List Answer × Store)
  | [], h, s => some (h, [], s)
  | cb::cbs, h, s => (callback env codec h s cb).bind fun r =>
      (respond env codec cbs r.1 r.2.1).map fun q => (q.1, r.2.2.toList ++ q.2.1, q.2.2)

def behind (task : SendTask) (startPos : ℤ) : Option SendTask :=
  if startPos < task.endPos then some { task with startPos := startPos } else none

/-- A message with its answer: the head, the download it announced, and the
segments sent so far. -/
structure Reply where
  request : Bytes
  head : Bytes
  download : Option SendTask
  segments : List Bytes

def Reply.bytes (r : Reply) : Bytes := r.head ++ r.segments.flatten

structure Serial (σ : Type) where
  parser : σ
  headInfo : HeadInfo := {}
  unfinished : Bytes := []
  done : List Reply := []
  current : Option (Reply × SendTask) := none

variable {σ : Type}

def Serial.replies (a : Serial σ) : List Reply := a.done ++ (a.current.map Prod.fst).toList

def Serial.requests (a : Serial σ) : List Bytes := a.replies.map Reply.request

def Serial.input (a : Serial σ) : Bytes := a.requests.flatten ++ a.unfinished

def Serial.output (a : Serial σ) : Bytes := (a.replies.map Reply.bytes).flatten

/-- The reply is complete, or its download goes on. -/
def Serial.place (a : Serial σ) (r : Reply) : Option SendTask → Serial σ
  | none => { a with done := a.done ++ [r], current := none }
  | some task => { a with current := some (r, task) }

def Reply.extend (r : Reply) (content : Bytes) : Reply :=
  { r with segments := r.segments ++ [content] }

section
variable (lib : Llhttp σ) (env : Env) (codec : Codec)

inductive Step : Serial σ → Serial σ → Prop where
  | part (a : Serial σ) (slice : Bytes) (h : HeadInfo) (s t : Store) (hidle : a.current = none)
      (hok : (lib.execute a.parser slice).verdict = .ok)
      (hquiet : respond env codec (lib.execute a.parser slice).calls a.headInfo
        s = some (h, [], t)) :
      Step a { a with
        parser := (lib.execute a.parser slice).parser
        headInfo := h
        unfinished := a.unfinished ++ slice }
  | message (a : Serial σ) (slice : Bytes) (h : HeadInfo) (answer : Answer) (s t : Store)
      (hidle : a.current = none)
      (hpaused : (lib.execute a.parser slice).verdict = .paused slice.length)
      (hanswer : respond env codec (lib.execute a.parser slice).calls a.headInfo s =
        some (h, [answer], t)) :
      Step a (Serial.place { a with
          parser := lib.resume (lib.execute a.parser slice).parser
          headInfo := h
          unfinished := [] }
        { request := a.unfinished ++ slice, head := answer.response, download := answer.subTask,
          segments := [] }
        answer.subTask)
  | segment (a : Serial σ) (r : Reply) (task : SendTask) (content : Bytes) (startPos : ℤ)
      (s t : Store)
      (hcurrent : a.current = some (r, task))
      (hsend : sendFile env task s = .sends content startPos t) :
      Step a (a.place (r.extend content) (behind task startPos))
  | skip (a : Serial σ) (r : Reply) (task : SendTask) (s t : Store)
      (hcurrent : a.current = some (r, task))
      (hsend : sendFile env task s = .skips t) : Step a (a.place r none)

/-- What a server that began with parser `p` can have come to. -/
def Serves (p : σ) (a : Serial σ) : Prop :=
  Relation.ReflTransGen (Step lib env codec) { parser := p } a

/-- The segments of a download so far, and what is left of it. -/
inductive Sends (env : Env) (download : Option SendTask) : List Bytes → Option SendTask → Prop where
  | begins : Sends env download [] download
  | segment (segments : List Bytes) (task : SendTask) (content : Bytes) (startPos : ℤ) (s t : Store)
      (h : Sends env download segments (some task))
      (hsend : sendFile env task s = .sends content startPos t) :
      Sends env download (segments ++ [content]) (behind task startPos)
  | skip (segments : List Bytes) (task : SendTask) (s t : Store)
      (h : Sends env download segments (some task))
      (hsend : sendFile env task s = .skips t) : Sends env download segments none

/-- The requests are the messages of the stream, every reply but the current one
is complete, and nothing of the next message is read before that. -/
structure Ordered (p : σ) (a : Serial σ) : Prop where
  requests : Splits lib p a.requests a.unfinished a.parser
  complete : ∀ r ∈ a.done, Sends env r.download r.segments none
  current : ∀ r task, a.current = some (r, task) →
    a.unfinished = [] ∧ Sends env r.download r.segments (some task)

end

theorem place_replies (a : Serial σ) (r : Reply) (left : Option SendTask) :
    (a.place r left).replies = a.done ++ [r] := by
  cases left with
  | none => simp only [Serial.place, Serial.replies, Option.map_none, Option.toList_none,
    List.append_nil]
  | some task => rfl

theorem idle_replies {a : Serial σ} (h : a.current = none) : a.replies = a.done := by
  simp only [Serial.replies, h, Option.map_none, Option.toList_none, List.append_nil]

theorem busy_replies {a : Serial σ} {r : Reply} {task : SendTask} (h : a.current = some (r, task)) :
    a.replies = a.done ++ [r] := by
  simp only [Serial.replies, h, Option.map_some, Option.toList_some]

section
variable {lib : Llhttp σ} {env : Env} {codec : Codec} {p : σ}

theorem place_ordered {a : Serial σ} {r : Reply} {left : Option SendTask}
    (hrequests : Splits lib p ((a.done ++ [r]).map Reply.request) a.unfinished a.parser)
    (hdone : ∀ r ∈ a.done, Sends env r.download r.segments none) (hempty : a.unfinished = [])
    (hsends : Sends env r.download r.segments left) : Ordered lib env p (a.place r left) := by
  constructor
  · rw [Serial.requests, place_replies]
    cases left with
    | none => exact hrequests
    | some task => exact hrequests
  · intro q hq
    cases left with
    | none =>
      cases List.mem_append.mp hq with
      | inl hold => exact hdone q hold
      | inr hnew =>
        rw [List.mem_singleton.mp hnew]
        exact hsends
    | some task => exact hdone q hq
  · intro q task hcurrent
    cases left with
    | none => cases hcurrent
    | some task =>
      cases hcurrent
      exact ⟨hempty, hsends⟩

theorem step_ordered (hinc : Incremental lib) {a b : Serial σ} (h : Ordered lib env p a)
    (hstep : Step lib env codec a b) : Ordered lib env p b := by
  have hrequests := h.requests
  cases hstep with
  | part slice h' s t hidle hok hquiet =>
    constructor
    · exact splits_part hinc hrequests slice hok
    · exact h.complete
    · intro r task hcurrent
      rw [hidle] at hcurrent
      cases hcurrent
  | message slice h' answer s t hidle hpaused hanswer =>
    rw [Serial.requests, idle_replies hidle] at hrequests
    apply place_ordered
    · rw [List.map_append]
      exact splits_message hinc hrequests slice hpaused
    · exact h.complete
    · rfl
    · exact Sends.begins
  | segment r task content startPos s t hcurrent hsend =>
    rw [Serial.requests, busy_replies hcurrent] at hrequests
    obtain ⟨hempty, hsends⟩ := h.current r task hcurrent
    apply place_ordered
    · rw [List.map_append] at hrequests ⊢
      exact hrequests
    · exact h.complete
    · exact hempty
    · exact Sends.segment r.segments task content startPos s t hsends hsend
  | skip r task s t hcurrent hsend =>
    rw [Serial.requests, busy_replies hcurrent] at hrequests
    obtain ⟨hempty, hsends⟩ := h.current r task hcurrent
    apply place_ordered
    · exact hrequests
    · exact h.complete
    · exact hempty
    · exact Sends.skip r.segments task s t hsends hsend

theorem serves_ordered (hinc : Incremental lib) {a : Serial σ} (h : Serves lib env codec p a) :
    Ordered lib env p a := by
  induction h with
  | refl => exact ⟨splits_nil hinc p, fun r hr => (nomatch hr), fun r task hcurrent =>
    (nomatch hcurrent)⟩
  | tail _ hstep ih => exact step_ordered hinc ih hstep

/-- The messages answered are the first of every stream that begins with what
was read, however that stream is read. -/
theorem ordered_first (hinc : Incremental lib) {a : Serial σ} (h : Ordered lib env p a)
    {rs : List Bytes}
    {rest more : Bytes} {q : σ} (hsplits : Splits lib p rs rest q)
    (heq : rs.flatten ++ rest = a.input ++ more) :
    a.requests <+: rs :=
  splits_first hinc h.requests hsplits heq

end

end CloudBackup.SerialServer
