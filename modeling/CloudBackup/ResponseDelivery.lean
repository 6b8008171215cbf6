import CloudBackup.ByteStrings
import CloudBackup.RunInvariants

/-!
# What calls the writer again

Workers append to `_response_buffer` and send a 'w' message; the dispatcher
calls `NetWriter` for each message and whenever a socket with `EPOLLOUT` in
its interest set becomes writable. `NetWriter` changes the interest set when
bytes were written, and leaves it when the kernel's buffer is full.
-/

set_option autoImplicit false

namespace CloudBackup.ResponseDelivery
open CloudBackup.ByteStrings CloudBackup.RunInvariants

/-- A connection at the dispatcher: `epollOut` is whether `EPOLLOUT` is in its
interest set, `pipe` counts its 'w' messages, `owing` the workers between append
and notify, `room` the free bytes of the kernel's send buffer. -/
structure Channel where
  responseBuffer : Bytes := []
  epollOut : Bool := false
  pipe : ℕ := 0
  owing : ℕ := 0
  room : ℕ
  isOpen : Bool := true
  deriving DecidableEq

inductive Write where
  | took (writeBytes : ℕ)
  | again
  | interrupted
  | failed
  deriving DecidableEq

inductive Act where
  | append (data : Bytes)
  | notify
  | handle (results : List Write)
  | writable (results : List Write)
  | drain (n : ℕ)
  | close

/-- The loop of `NetWriter` over the results of `write` that the kernel's buffer
allows; `none` for any other results. -/
def writeLoop (c : Channel) : List Write → Option Channel
  | .interrupted::results => writeLoop c results
  | [.again] => if c.room = 0 then some c else none
  | [.failed] => some { c with isOpen := false }
  | [.took n] =>
    if 0 < n ∧ n ≤ c.room ∧ n ≤ c.responseBuffer.length then
      let rest := c.responseBuffer.drop n
      some { c with responseBuffer := rest, epollOut := rest ≠ [], room := c.room-n }
    else none
  | _ => none

def netWriter (c : Channel) (results : List Write) : Option Channel :=
  if c.responseBuffer = [] then some c else writeLoop c results

/-- Messages for a connection that is not open any more are dropped. -/
def step (c : Channel) : Act → Option Channel
  | .append data => some { c with responseBuffer := c.responseBuffer ++ data, owing := c.owing+1 }
  | .notify => if c.owing = 0 then none else some { c with owing := c.owing-1, pipe := c.pipe+1 }
  | .handle results =>
    if c.pipe = 0 then none
    else if c.isOpen then netWriter { c with pipe := c.pipe-1 } results
    else some { c with pipe := c.pipe-1 }
  | .writable results => if c.isOpen && c.epollOut then netWriter c results else none
  | .drain n => some { c with room := c.room+n }
  | .close => some { c with isOpen := false }

/-- Unsent bytes of an open connection are to be sent on a message or an event. -/
def Attended (c : Channel) : Prop :=
  c.isOpen = true → c.responseBuffer ≠ [] → c.owing = 0 → 0 < c.pipe ∨ c.epollOut = true

/-- A message that finds the kernel's buffer full is not the last thing that
calls the writer. -/
def Armed (c : Channel) : Act → Prop
  | .handle results => .again ∈ results → c.isOpen = true → c.responseBuffer ≠ [] →
      c.epollOut = true ∨ 1 < c.pipe ∨ 0 < c.owing
  | _ => True

structure Start (c : Channel) : Prop where
  buffer : c.responseBuffer = []

/-- The loop leaves the connection closed, as it was before a full buffer, or
with the interest that fits what is left. -/
theorem writeLoop_cases {c d : Channel} {results : List Write} (h : writeLoop c results = some d) :
    (.again ∉ results ∧ d.isOpen = false) ∨ (.again ∈ results ∧ d = c) ∨
    (.again ∉ results ∧ (d.responseBuffer ≠ [] → d.epollOut = true)) := by
  induction results with
  | nil => cases h
  | cons r results ih =>
    cases r with
    | interrupted =>
      have h := ih h
      simpa using h
    | again =>
      cases results with
      | nil =>
        simp only [writeLoop] at h
        split_ifs at h
        cases h
        exact Or.inr (Or.inl ⟨List.mem_singleton_self _, rfl⟩)
      | cons r results => cases h
    | failed =>
      cases results with
      | nil =>
        cases h
        exact Or.inl ⟨by simp, rfl⟩
      | cons r results => cases h
    | took n =>
      cases results with
      | nil =>
        simp only [writeLoop] at h
        split_ifs at h
        cases h
        exact Or.inr (Or.inr ⟨by simp, by simp⟩)
      | cons r results => cases h

theorem netWriter_attended {c d : Channel} {results : List Write} (h : netWriter c results = some d)
    (hnext : .again ∈ results → c.responseBuffer ≠ [] → c.owing = 0 → 0 < c.pipe ∨
      c.epollOut = true) :
    Attended d := by
  intro hopen hbuf how
  rw [netWriter] at h
  split_ifs at h with hempty
  · cases h
    exact absurd hempty hbuf
  · obtain ⟨-, hclosed⟩ | ⟨hagain, rfl⟩ | ⟨-, hout⟩ := writeLoop_cases h
    · rw [hclosed] at hopen
      cases hopen
    · exact hnext hagain hbuf how
    · exact Or.inr (hout hbuf)

theorem step_attended (c : Channel) (act : Act) (d : Channel) (h : Attended c)
    (harmed : Armed c act)
    (hstep : step c act = some d) : Attended d := by
  cases act with
  | append data =>
    cases hstep
    intro _ _ how
    exact absurd how (Nat.succ_ne_zero _)
  | notify =>
    simp only [step] at hstep
    split_ifs at hstep
    cases hstep
    intro _ _ _
    exact Or.inl (Nat.succ_pos _)
  | handle results =>
    simp only [step] at hstep
    split_ifs at hstep with hpipe hopen
    · apply netWriter_attended hstep
      intro hagain hbuf how
      dsimp only at how ⊢
      obtain hout | hmore | howing := harmed hagain hopen hbuf
      · exact Or.inr hout
      · exact Or.inl (Nat.sub_pos_of_lt hmore)
      · omega
    · cases hstep
      intro hopen' _ _
      exact absurd hopen' hopen
  | writable results =>
    simp only [step] at hstep
    split_ifs at hstep with hon
    apply netWriter_attended hstep
    exact fun _ _ _ => Or.inr (Bool.and_eq_true_iff.mp hon).2
  | drain n =>
    cases hstep
    exact h
  | close =>
    cases hstep
    exact fun hopen => nomatch hopen

theorem step_strands (c : Channel) (act : Act) (d : Channel) (harmed : ¬ Armed c act)
    (hstep : step c act = some d) : ¬ Attended d := by
  cases act with
  | append | notify | writable | drain | close => exact absurd trivial harmed
  | handle results =>
    simp only [Armed, Classical.not_imp, not_or] at harmed
    obtain ⟨hagain, hopen, hbuf, hout, hmore, howing⟩ := harmed
    simp only [step, hopen, if_true, netWriter, if_neg hbuf] at hstep
    split_ifs at hstep with hpipe
    obtain ⟨hnot, -⟩ | ⟨-, rfl⟩ | ⟨hnot, -⟩ := writeLoop_cases hstep
    · exact absurd hagain hnot
    · intro hatt
      cases hatt rfl hbuf (Nat.eq_zero_of_not_pos howing) with
      | inl hpos =>
        have hpos : 0 < c.pipe-1 := hpos
        omega
      | inr hon => exact hout hon
    · exact absurd hagain hnot

/-- In every run unsent bytes are attended to in all states exactly when every
message that finds the kernel's buffer full comes with `EPOLLOUT` in the interest
set, another message, or a worker about to send one. -/
theorem response_attended (c : Channel) (acts : List Act) (h : Start c) :
    Throughout step Attended c acts ↔ Meets step Armed c acts :=
  throughout_iff_meets (fun _ h => h) step_attended (fun c act d _ => step_strands c act d)
    (fun _ hbuf => absurd h.buffer hbuf)

/-- The first response fills the kernel's buffer exactly, which takes `EPOLLOUT`
out of the interest set; the second finds it full. -/
def filledExactly : List Act :=
  [.append (bytes "first"), .notify, .handle [.took 5], .append (bytes "second"), .notify,
    .handle [.again]]

theorem response_stranded :
    Start { room := 5 } ∧ ∃ c, run step { room := 5 } filledExactly = some c ∧
    c.isOpen = true ∧ c.responseBuffer = bytes "second" ∧ c.owing = 0 ∧ c.pipe = 0 ∧
      c.epollOut = false ∧
    ¬ Attended c := by
  refine ⟨⟨rfl⟩, { responseBuffer := bytes "second", room := 0 }, by
    decide, rfl, rfl, rfl, rfl, rfl, fun h => ?_⟩
  exact absurd (h rfl (by decide) rfl) (by decide)

theorem response_attended_filled : Throughout step Attended { room := 5 } filledExactly ↔
    Meets step Armed { room := 5 } filledExactly :=
  response_attended { room := 5 } filledExactly ⟨rfl⟩

end CloudBackup.ResponseDelivery
