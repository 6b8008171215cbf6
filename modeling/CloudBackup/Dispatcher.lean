import CloudBackup.ConnectionTasks
import CloudBackup.PipeMessages

/-!
# The dispatcher and its descriptors

One thread waits for events, accepts connections, reads their bytes and the
messages of the workers, writes, and closes. Its calls of the kernel are steps
of their own, so that clients and workers come between any two of them. A
client is known by its number; what it has sent, which object its bytes went
to, and the closed sockets are for the statements.
-/

set_option autoImplicit false

namespace CloudBackup.Dispatcher
open CloudBackup.ByteStrings CloudBackup.ConnectionTasks CloudBackup.PipeMessages

/-- The descriptors of the server itself, and the bounds of the system and the configuration. -/
structure Config where
  listenFd : ℕ
  readPipeFd : ℕ
  own : ℕ → Bool
  limit : ℕ
  tcpBufferReadSize : ℕ
  maxEvents : ℕ
  apart : readPipeFd ≠ listenFd
  owned : own listenFd = true ∧ own readPipeFd = true

/-- One end of a connection: what the client has sent, and what of it is in the receive buffer. -/
structure Client where
  sent : Bytes := []
  pending : Bytes := []
  finished : Bool := false
  broken : Bool := false

/-- A `read` would not come back with `EAGAIN`. -/
def Client.hot (c : Client) : Bool := c.pending ≠ [] || c.finished || c.broken

/-- A connection object, whose bytes it has got, and all of them. -/
structure Peer (σ : Type) where
  client : ℕ
  useTime : ℕ
  connection : Connection σ
  received : Bytes := []

structure EpollEvent where
  fd : ℕ
  readable : Bool
  writable : Bool
  deriving DecidableEq

/-- Where the thread is; the flag tells whether `PipeDataHandler` called. -/
inductive Control where
  | waiting
  | accepting
  | readingPipe
  | handlingPipe
  | reading (fd : ℕ) (inPipe : Bool)
  | writing (fd : ℕ) (inPipe : Bool)
  deriving DecidableEq

structure Server (σ : Type) where
  clients : ℕ → Client := fun _ => {}
  arrivals : ℕ := 0
  backlog : List ℕ := []
  sockets : ℕ → Option ℕ := fun _ => none
  files : ℕ → Bool := fun _ => false
  interest : ℕ → Bool
  ready : ℕ → Bool := fun _ => false
  pipe : List Notification := []
  connections : ℕ → Option (Peer σ) := fun _ => none
  recordNetFdUseTime : ℕ → ℕ := fun _ => 0
  readPipeBuffer : List Notification := []
  events : List EpollEvent := []
  control : Control := .waiting
  pushed : List ℕ := []
  retired : List (Peer σ) := []
  closed : List ℕ := []
  strayClose : Bool := false

variable {σ : Type}

/-- `InitializeServer` and `StartServer` have registered the pipe and the listening socket. -/
def Server.start (cfg : Config) : Server σ where
  interest := fun fd => fd = cfg.listenFd || fd = cfg.readPipeFd

def inUse (cfg : Config) (s : Server σ) (fd : ℕ) : Bool :=
  cfg.own fd || (s.sockets fd).isSome || s.files fd

def isFree (cfg : Config) (s : Server σ) (fd : ℕ) : Bool := fd < cfg.limit && !inUse cfg s fd

def Full (cfg : Config) (s : Server σ) : Prop := ∀ fd < cfg.limit, inUse cfg s fd = true

instance (cfg : Config) (s : Server σ) : Decidable (Full cfg s) :=
  inferInstanceAs (Decidable (∀ fd, fd < cfg.limit → inUse cfg s fd = true))

def hotAt (s : Server σ) (fd : ℕ) : Bool := (s.sockets fd).any fun c => (s.clients c).hot

/-- What arrives at a watched socket is reported. -/
def signal (c : ℕ) (s : Server σ) : Server σ :=
  { s with ready := fun fd => s.ready fd || (s.sockets fd = some c && s.interest fd) }

def report (fd : ℕ) (s : Server σ) : Server σ := { s with ready := Function.update s.ready fd true }

def setClient (c : ℕ) (k : Client) (s : Server σ) : Server σ :=
  { s with clients := Function.update s.clients c k }

/-- `EPOLL_CTL_ADD` reports what is there already. -/
def epollAdd (fd : ℕ) (s : Server σ) : Server σ :=
  { s with
    interest := Function.update s.interest fd true
    ready := Function.update s.ready fd (hotAt s fd) }

/-- `EPOLL_CTL_MOD` reports what is there again. -/
def epollMod (fd : ℕ) (s : Server σ) : Server σ :=
  { s with ready := Function.update s.ready fd (s.ready fd || hotAt s fd) }

def epollDel (fd : ℕ) (s : Server σ) : Server σ :=
  { s with interest := Function.update s.interest fd false,
           ready := Function.update s.ready fd false }

/-- A descriptor that is not open would be somebody else's. -/
def closeFd (fd : ℕ) (s : Server σ) : Server σ :=
  match s.sockets fd with
  | none => { s with strayClose := true }
  | some c => { s with sockets := Function.update s.sockets fd none, closed := c::s.closed }

def netExcepter (fd : ℕ) (s : Server σ) : Server σ :=
  let s := epollDel fd s
  match s.connections fd with
  | none => closeFd fd s
  | some peer => closeFd fd
      { s with
        connections := Function.update s.connections fd none
        retired :=
          { peer with connection := { peer.connection with isClosed := true } }::s.retired }

/-- The parser of a new connection is as `llhttp_init` leaves it. -/
def addConnection (parser : σ) (fd c : ℕ) (s : Server σ) : Server σ :=
  let s := epollAdd fd { s with sockets := Function.update s.sockets fd (some c) }
  let useTime := (s.recordNetFdUseTime fd+1) % 10000
  { s with
    recordNetFdUseTime := Function.update s.recordNetFdUseTime fd useTime
    connections := Function.update s.connections fd (some
      { client := c, useTime := useTime, connection := { parser := parser } }) }

def back (inPipe : Bool) : Control := if inPipe then .handlingPipe else .waiting

/-- `NetReader` and `NetWriter` return at once for a descriptor without a connection. -/
def enter (control : Control) (fd : ℕ) (inPipe : Bool) (s : Server σ) : Server σ :=
  if (s.connections fd).isSome then
    { s with control := control } else { s with control := back inPipe }

/-- The next event of the batch; of one with both flags the writable one is left for later. -/
def dispatch (cfg : Config) (e : EpollEvent) (rest : List EpollEvent) (s : Server σ) : Server σ :=
  if e.fd = cfg.listenFd then
    { s with events := rest, control := if e.readable then .accepting else .waiting }
  else if e.fd = cfg.readPipeFd then
    { s with events := rest, control := if e.readable then .readingPipe else .waiting }
  else if e.readable then
    enter (.reading e.fd false) e.fd false
      { s with events := if e.writable then { e with readable := false }::rest else rest }
  else if e.writable then enter (.writing e.fd false) e.fd false { s with events := rest }
  else { s with events := rest }

def pipeDataHandler (m : Notification) (s : Server σ) : Server σ :=
  if (s.connections m.netFd).isNone || m.useTime ≠ s.recordNetFdUseTime m.netFd then s
  else if m.op = 114 then enter (.reading m.netFd true) m.netFd true s
  else if m.op = 119 then enter (.writing m.netFd true) m.netFd true s
  else if m.op = 99 then netExcepter m.netFd s
  else s

/-- A chunk goes to the connection, and a handler to the pool unless one is under way. -/
def netReader (fd c readBytes : ℕ) (peer : Peer σ) (s : Server σ) : Server σ :=
  let k := s.clients c
  let chunk := k.pending.take readBytes
  let r := ConnectionTasks.netReader chunk peer.connection
  { setClient c { k with pending := k.pending.drop readBytes } s with
    connections := Function.update s.connections fd (some
      { peer with connection := r.1, received := peer.received ++ chunk })
    pushed := if r.2 then s.pushed ++ [peer.client] else s.pushed }

inductive Event (σ : Type) where
  | connect
  | send (c : ℕ) (data : Bytes)
  | finish (c : ℕ)
  | breakOff (c : ℕ)
  | work (fd : ℕ) (connection : Connection σ)
  | notify (m : Notification)
  | openFile (fd : ℕ)
  | closeFile (fd : ℕ)
  | wait (events : List EpollEvent)
  | next
  | accept (fd : ℕ) (added : Bool)
  | acceptAgain
  | acceptError
  | readPipe (messages : ℕ)
  | pipeAgain
  | handleMessage
  | read (readBytes : ℕ)
  | readAgain
  | readEnd
  | readError
  | write (writeBytes : ℕ)
  | writeAgain
  | writeError
  | interrupted

def step (cfg : Config) (parser : σ) (s : Server σ) : Event σ → Option (Server σ)
  | .connect =>
    some (report cfg.listenFd
      { s with arrivals := s.arrivals+1, backlog := s.backlog ++ [s.arrivals] })
  | .send c data =>
    let k := s.clients c
    if c < s.arrivals ∧ k.finished = false ∧ k.broken = false then
      some (signal c (setClient c
        { k with sent := k.sent ++ data, pending := k.pending ++ data } s))
    else none
  | .finish c =>
    if c < s.arrivals then some (signal c (setClient c { s.clients c with finished := true } s))
      else none
  | .breakOff c =>
    if c < s.arrivals then some (signal c (setClient c { s.clients c with broken := true } s))
      else none
  | .work fd connection => (s.connections fd).map fun peer =>
      { s with connections :=
                 Function.update s.connections fd (some { peer with connection := connection }) }
  | .notify m => some (report cfg.readPipeFd { s with pipe := s.pipe ++ [m] })
  | .openFile fd => if isFree cfg s fd then
    some { s with files := Function.update s.files fd true } else none
  | .closeFile fd => some { s with files := Function.update s.files fd false }
  | .wait events =>
    if s.control = .waiting ∧ s.events = [] ∧ events ≠ [] ∧ events.length ≤ cfg.maxEvents ∧
        ∀ e ∈ events, s.interest e.fd = true ∧ (e.readable = true → s.ready e.fd = true) then
      some { s with
        events := events
        ready := fun fd => s.ready fd && !(events.any fun e => e.fd = fd && e.readable) }
    else none
  | .next =>
    match s.control, s.events with
    | .waiting, e::rest => some (dispatch cfg e rest s)
    | _, _ => none
  | .accept fd added =>
    match s.control, s.backlog with
    | .accepting, c::rest =>
      if isFree cfg s fd then
        let s := { s with backlog := rest }
        some (if added then addConnection parser fd c s else { s with closed := c::s.closed })
      else none
    | _, _ => none
  | .acceptAgain =>
    -- `accept` takes a descriptor before it looks into the queue.
    if s.control = .accepting ∧ s.backlog = [] ∧ ¬ Full cfg s then
      some { s with control := .waiting } else none
  | .acceptError => if s.control = .accepting ∧ Full cfg s then some s else none
  | .readPipe messages =>
    if s.control = .readingPipe then
      some { s with readPipeBuffer := s.readPipeBuffer ++ s.pipe.take messages,
                    pipe := s.pipe.drop messages }
    else none
  | .pipeAgain =>
    if s.control = .readingPipe ∧ s.pipe = [] then
      some { s with control := .handlingPipe } else none
  | .handleMessage =>
    match s.control, s.readPipeBuffer with
    | .handlingPipe, [] => some { s with control := .waiting }
    | .handlingPipe, m::rest => some (pipeDataHandler m { s with readPipeBuffer := rest })
    | _, _ => none
  | .read readBytes =>
    match s.control with
    | .reading fd _ =>
      match s.sockets fd, s.connections fd with
      | some c, some peer =>
        if 0 < readBytes ∧ readBytes ≤ (s.clients c).pending.length ∧
          readBytes < cfg.tcpBufferReadSize then
          some (netReader fd c readBytes peer s)
        else none
      | _, _ => none
    | _ => none
  | .readAgain =>
    match s.control with
    | .reading fd inPipe => if hotAt s fd then none else some { s with control := back inPipe }
    | _ => none
  | .readEnd =>
    match s.control with
    | .reading fd inPipe =>
      if (s.sockets fd).any fun c => (s.clients c).pending = [] ∧ (s.clients c).finished = true then
        some { netExcepter fd s with control := back inPipe }
      else none
    | _ => none
  | .readError =>
    match s.control with
    | .reading fd inPipe =>
      if (s.sockets fd).any fun c => (s.clients c).broken then
        some { netExcepter fd s with control := back inPipe }
      else none
    | _ => none
  | .write writeBytes =>
    match s.control with
    | .writing fd inPipe => (s.connections fd).map fun peer =>
        epollMod fd { s with
          connections := Function.update s.connections fd (some
            { peer with connection := ConnectionTasks.netWriter writeBytes peer.connection })
          control := back inPipe }
    | _ => none
  | .writeAgain =>
    match s.control with
    | .writing _ inPipe => some { s with control := back inPipe }
    | _ => none
  | .writeError =>
    match s.control with
    | .writing fd inPipe => some { netExcepter fd s with control := back inPipe }
    | _ => none
  | .interrupted => if s.control = .waiting ∨ s.control = .handlingPipe then none else some s

/-- Every client that came is waiting, served at one descriptor or closed once, the table and
the interest set follow the open sockets, and no descriptor is closed that is not open. -/
structure Placed (cfg : Config) (s : Server σ) : Prop where
  table : ∀ fd, (s.connections fd).map Peer.client = s.sockets fd
  watched : ∀ fd, s.interest fd = true ↔ fd = cfg.listenFd ∨ fd = cfg.readPipeFd ∨
    (s.sockets fd).isSome = true
  others : ∀ fd, cfg.own fd = true ∨ s.files fd = true → s.sockets fd = none
  single : ∀ fd gd c, s.sockets fd = some c → s.sockets gd = some c → fd = gd
  once : (s.backlog ++ s.closed).Nodup
  apart : ∀ fd c, s.sockets fd = some c → c ∉ s.backlog ++ s.closed
  known : ∀ c, c < s.arrivals ↔ c ∈ s.backlog ++ s.closed ∨ ∃ fd, s.sockets fd = some c
  tidy : s.strayClose = false

/-- Everything a client has sent is with its object, in order, or in its receive buffer. -/
structure Streams (s : Server σ) : Prop where
  served : ∀ fd p, s.connections fd = some p → p.received ++ (s.clients p.client).pending =
    (s.clients p.client).sent
  queued : ∀ c ∈ s.backlog, (s.clients c).pending = (s.clients c).sent
  unborn : ∀ c, s.arrivals ≤ c → s.clients c = {}

structure Layout (s t : Server σ) : Prop where
  arrivals : t.arrivals = s.arrivals
  backlog : t.backlog = s.backlog
  sockets : t.sockets = s.sockets
  files : t.files = s.files
  interest : t.interest = s.interest
  connections : ∀ fd, (t.connections fd).map Peer.client = (s.connections fd).map Peer.client
  closed : t.closed = s.closed
  strayClose : t.strayClose = s.strayClose

theorem placed_layout {cfg : Config} {s t : Server σ} (h : Placed cfg s) (hl : Layout s t) :
    Placed cfg t := by
  constructor
  · intro fd
    rw [hl.connections, hl.sockets, h.table]
  · rw [hl.interest, hl.sockets]
    exact h.watched
  · rw [hl.files, hl.sockets]
    exact h.others
  · rw [hl.sockets]
    exact h.single
  · rw [hl.backlog, hl.closed]
    exact h.once
  · rw [hl.backlog, hl.closed, hl.sockets]
    exact h.apart
  · rw [hl.arrivals, hl.backlog, hl.closed, hl.sockets]
    exact h.known
  · rw [hl.strayClose]
    exact h.tidy

section Placed
variable {cfg : Config} {s : Server σ} (h : Placed cfg s)
include h

theorem peer_socket {fd : ℕ} {p : Peer σ} (hp : s.connections fd = some p) :
    s.sockets fd = some p.client := by
  rw [← h.table, hp]
  rfl

theorem peer_client {fd c : ℕ} {p : Peer σ} (hc : s.sockets fd = some c)
    (hp : s.connections fd = some p) : p.client = c :=
  Option.some.inj ((peer_socket h hp).symm.trans hc)

theorem socket_other {fd c : ℕ} (hc : s.sockets fd = some c) :
    fd ≠ cfg.listenFd ∧ fd ≠ cfg.readPipeFd := by
  constructor
  · rintro rfl
    rw [h.others _ (Or.inl cfg.owned.1)] at hc
    cases hc
  · rintro rfl
    rw [h.others _ (Or.inl cfg.owned.2)] at hc
    cases hc

theorem netExcepter_eq {fd : ℕ} {p : Peer σ} (hp : s.connections fd = some p) :
    netExcepter fd s = { epollDel fd s with
      connections := Function.update s.connections fd none
      retired := { p with connection := { p.connection with isClosed := true } }::s.retired
      sockets := Function.update s.sockets fd none
      closed := p.client::s.closed } := by
  have hsocket := peer_socket h hp
  simp only [netExcepter, epollDel, hp, closeFd, hsocket]

theorem placed_netExcepter {fd : ℕ} {p : Peer σ} (hp : s.connections fd = some p) :
    Placed cfg (netExcepter fd s) := by
  have hsocket := peer_socket h hp
  have hother := socket_other h hsocket
  rw [netExcepter_eq h hp]
  have happart := h.apart fd p.client hsocket
  constructor
  · intro gd
    by_cases hgd : gd = fd
    · subst hgd
      simp
    · simp [Function.update_of_ne hgd, h.table]
  · intro gd
    by_cases hgd : gd = fd
    · subst hgd
      simp [epollDel, hother]
    · simpa [epollDel, Function.update_of_ne hgd] using h.watched gd
  · intro gd hgd
    by_cases he : gd = fd
    · subst he
      simp
    · simpa [Function.update_of_ne he] using h.others gd hgd
  · intro gd hd c hgd hhd
    have hstay : ∀ i, Function.update s.sockets fd none i = some c → s.sockets i = some c := by
      intro i hi
      by_cases he : i = fd
      · subst he
        simp at hi
      · rwa [Function.update_of_ne he] at hi
    exact h.single gd hd c (hstay gd hgd) (hstay hd hhd)
  · have honce := h.once
    simp only [List.mem_append, not_or] at happart
    rw [List.nodup_append] at honce ⊢
    simp only [epollDel, List.nodup_cons]
    refine ⟨honce.1, ⟨happart.2, honce.2.1⟩, ?_⟩
    intro a ha b hb
    rcases List.mem_cons.mp hb with rfl | hb
    · rintro rfl
      exact happart.1 ha
    · exact honce.2.2 a ha b hb
  · intro gd c hgd
    by_cases he : gd = fd
    · subst he
      simp at hgd
    · simp only [Function.update_of_ne he] at hgd
      have hout := h.apart gd c hgd
      have hne : c ≠ p.client := fun hc => he (h.single gd fd c hgd (hc ▸ hsocket))
      simp only [epollDel, List.mem_append, List.mem_cons, not_or] at hout ⊢
      exact ⟨hout.1, hne, hout.2⟩
  · intro c
    show c < s.arrivals ↔ _
    rw [h.known]
    simp only [epollDel, List.mem_append, List.mem_cons]
    constructor
    · rintro ((hb | hc) | ⟨gd, hgd⟩)
      · exact Or.inl (Or.inl hb)
      · exact Or.inl (Or.inr (Or.inr hc))
      · by_cases he : gd = fd
        · subst he
          exact Or.inl (Or.inr (Or.inl (Option.some.inj (hgd.symm.trans hsocket))))
        · exact Or.inr ⟨gd, by rw [Function.update_of_ne he, hgd]⟩
    · rintro ((hb | rfl | hc) | ⟨gd, hgd⟩)
      · exact Or.inl (Or.inl hb)
      · exact Or.inr ⟨fd, hsocket⟩
      · exact Or.inl (Or.inr hc)
      · by_cases he : gd = fd
        · subst he
          simp at hgd
        · exact Or.inr ⟨gd, by rwa [Function.update_of_ne he] at hgd⟩
  · exact h.tidy

theorem placed_connect : Placed cfg
    { s with arrivals := s.arrivals+1, backlog := s.backlog ++ [s.arrivals] } := by
  have hnew : s.arrivals ∉ s.backlog ++ s.closed ∧ ∀ fd, s.sockets fd ≠ some s.arrivals := by
    have hnot := mt (h.known s.arrivals).mpr (lt_irrefl _)
    rw [not_or, not_exists] at hnot
    exact hnot
  have hperm : (s.backlog ++ [s.arrivals] ++ s.closed).Perm
    (s.arrivals::(s.backlog ++ s.closed)) := by
    rw [List.append_assoc, List.singleton_append]
    exact List.perm_middle
  constructor
  · exact h.table
  · exact h.watched
  · exact h.others
  · exact h.single
  · exact hperm.nodup_iff.mpr (List.nodup_cons.mpr ⟨hnew.1, h.once⟩)
  · intro fd c hc
    rw [hperm.mem_iff, List.mem_cons, not_or]
    refine ⟨?_, h.apart fd c hc⟩
    rintro rfl
    exact hnew.2 fd hc
  · intro c
    rw [hperm.mem_iff, List.mem_cons, or_assoc, ← h.known]
    show c < s.arrivals+1 ↔ _
    omega
  · exact h.tidy

theorem placed_files {fd : ℕ} (hfree : isFree cfg s fd = true) :
    Placed cfg { s with files := Function.update s.files fd true } := by
  have hnone : s.sockets fd = none := by
    simp only [isFree, inUse, Bool.and_eq_true, Bool.not_eq_true', Bool.or_eq_false_iff] at hfree
    simpa using hfree.2.1.2
  refine { h with others := fun gd hgd => ?_ }
  by_cases he : gd = fd
  · rw [he, hnone]
  · dsimp only at hgd
    rw [Function.update_of_ne he] at hgd
    exact h.others gd hgd

theorem placed_close (fd : ℕ) :
    Placed cfg { s with files := Function.update s.files fd false } := by
  refine { h with others := fun gd hgd => ?_ }
  by_cases he : gd = fd
  · subst he
    simp only [Function.update_self, Bool.false_eq_true, or_false] at hgd
    exact h.others gd (Or.inl hgd)
  · dsimp only at hgd
    rw [Function.update_of_ne he] at hgd
    exact h.others gd hgd

omit h in
theorem free_other {fd : ℕ} (hfree : isFree cfg s fd = true) :
    fd ≠ cfg.listenFd ∧ fd ≠ cfg.readPipeFd := by
  have hown : cfg.own fd = false := by
    simp only [isFree, inUse, Bool.and_eq_true, Bool.not_eq_true', Bool.or_eq_false_iff] at hfree
    exact hfree.2.1.1
  constructor
  · rintro rfl
    exact Bool.false_ne_true (hown.symm.trans cfg.owned.1)
  · rintro rfl
    exact Bool.false_ne_true (hown.symm.trans cfg.owned.2)

section Accept
variable {c : ℕ} {rest : List ℕ} (hqueue : s.backlog = c::rest)
include hqueue

theorem head_unplaced : c ∉ rest ++ s.closed ∧ (rest ++ s.closed).Nodup ∧ ∀ fd,
    s.sockets fd ≠ some c := by
  have honce := h.once
  rw [hqueue, List.cons_append, List.nodup_cons] at honce
  refine ⟨honce.1, honce.2, fun fd hfd => h.apart fd c hfd ?_⟩
  rw [hqueue]
  exact List.mem_cons_self

theorem placed_refused : Placed cfg { s with backlog := rest, closed := c::s.closed } := by
  obtain ⟨hout, hnodup, hsocket⟩ := head_unplaced h hqueue
  have hperm : (rest ++ c::s.closed).Perm (s.backlog ++ s.closed) := by
    rw [hqueue]
    exact List.perm_middle
  constructor
  · exact h.table
  · exact h.watched
  · exact h.others
  · exact h.single
  · exact hperm.nodup_iff.mpr h.once
  · intro fd k hk
    rw [hperm.mem_iff]
    exact h.apart fd k hk
  · intro k
    rw [hperm.mem_iff]
    exact h.known k
  · exact h.tidy

theorem placed_accepted (parser : σ) {fd : ℕ} (hfree : isFree cfg s fd = true) :
    Placed cfg (addConnection parser fd c { s with backlog := rest }) := by
  obtain ⟨hout, hnodup, hsocket⟩ := head_unplaced h hqueue
  have hfree' : cfg.own fd = false ∧ s.sockets fd = none ∧ s.files fd = false := by
    simp only [isFree, inUse, Bool.and_eq_true, Bool.not_eq_true', Bool.or_eq_false_iff] at hfree
    exact ⟨hfree.2.1.1, by simpa using hfree.2.1.2, hfree.2.2⟩
  obtain ⟨hown, hnone, hfile⟩ := hfree'
  have hstay : ∀ gd k, Function.update s.sockets fd (some c) gd = some k ↔
      (gd = fd ∧ k = c) ∨ (gd ≠ fd ∧ s.sockets gd = some k) := by
    intro gd k
    by_cases he : gd = fd
    · subst he
      simp [eq_comm]
    · simp [he]
  have hqueued : ∀ k, k ∈ s.backlog ++ s.closed ↔ k = c ∨ k ∈ rest ++ s.closed := by
    intro k
    rw [hqueue, List.cons_append, List.mem_cons]
  constructor
  · intro gd
    by_cases he : gd = fd
    · subst he
      simp [addConnection, epollAdd]
    · simp [addConnection, epollAdd, Function.update_of_ne he, h.table]
  · intro gd
    by_cases he : gd = fd
    · subst he
      simp [addConnection, epollAdd]
    · simpa [addConnection, epollAdd, Function.update_of_ne he] using h.watched gd
  · intro gd hgd
    have hne : gd ≠ fd := by
      rintro rfl
      cases hgd with
      | inl ho => exact Bool.false_ne_true (hown.symm.trans ho)
      | inr hf => exact Bool.false_ne_true (hfile.symm.trans hf)
    simpa [addConnection, epollAdd, Function.update_of_ne hne] using h.others gd hgd
  · intro gd hd k hgd hhd
    rcases (hstay gd k).mp hgd with ⟨hg, hkc⟩ | ⟨-, hold⟩
    · rcases (hstay hd k).mp hhd with ⟨hd', -⟩ | ⟨-, hold⟩
      · rw [hg, hd']
      · exact absurd (hkc ▸ hold) (hsocket hd)
    · rcases (hstay hd k).mp hhd with ⟨-, hkc⟩ | ⟨-, hold'⟩
      · exact absurd (hkc ▸ hold) (hsocket gd)
      · exact h.single gd hd k hold hold'
  · exact hnodup
  · intro gd k hgd
    rcases (hstay gd k).mp hgd with ⟨-, rfl⟩ | ⟨-, hgd⟩
    · exact hout
    · have hk := h.apart gd k hgd
      rw [hqueued, not_or] at hk
      exact hk.2
  · intro k
    show k < s.arrivals ↔ k ∈ rest ++ s.closed ∨ ∃ gd,
      Function.update s.sockets fd (some c) gd = some k
    rw [h.known, hqueued]
    constructor
    · rintro ((rfl | hk) | ⟨gd, hgd⟩)
      · exact Or.inr ⟨fd, Function.update_self _ _ _⟩
      · exact Or.inl hk
      · refine Or.inr ⟨gd, (hstay gd k).mpr (Or.inr ⟨?_, hgd⟩)⟩
        rintro rfl
        rw [hnone] at hgd
        cases hgd
    · rintro (hk | ⟨gd, hgd⟩)
      · exact Or.inl (Or.inr hk)
      · rcases (hstay gd k).mp hgd with ⟨-, rfl⟩ | ⟨-, hgd⟩
        · exact Or.inl (Or.inl rfl)
        · exact Or.inr ⟨gd, hgd⟩
  · exact h.tidy

end Accept

end Placed

theorem streams_same {s t : Server σ} (h : Streams s) (hclients : t.clients = s.clients)
    (harrivals : t.arrivals = s.arrivals)
    (hbacklog : ∀ c ∈ t.backlog, c ∈ s.backlog)
    (hconnections : ∀ fd p, t.connections fd = some p →
      (∃ q, s.connections fd = some q ∧ q.client = p.client ∧ q.received = p.received) ∨
      (p.client ∈ s.backlog ∧ p.received = [])) : Streams t := by
  constructor
  · intro fd p hp
    rw [hclients]
    rcases hconnections fd p hp with ⟨q, hq, hclient, hreceived⟩ | ⟨hqueued, hreceived⟩
    · rw [← hclient, ← hreceived]
      exact h.served fd q hq
    · rw [hreceived, List.nil_append]
      exact h.queued _ hqueued
  · intro c hc
    rw [hclients]
    exact h.queued c (hbacklog c hc)
  · rw [hclients, harrivals]
    exact h.unborn

theorem streams_client {s : Server σ} (h : Streams s) {c : ℕ} (hc : c < s.arrivals)
    (data : Bytes) (k : Client)
    (hsent : k.sent = (s.clients c).sent ++ data)
    (hpending : k.pending = (s.clients c).pending ++ data) :
    Streams (signal c (setClient c k s)) := by
  have hclients : (signal c (setClient c k s)).clients = Function.update s.clients c k := rfl
  constructor
  · intro fd p hp
    rw [hclients]
    by_cases he : p.client = c
    · rw [he, Function.update_self, hsent, hpending, ← List.append_assoc, ← he]
      rw [h.served fd p hp]
    · rw [Function.update_of_ne he]
      exact h.served fd p hp
  · intro d hd
    rw [hclients]
    by_cases he : d = c
    · subst he
      rw [Function.update_self, hsent, hpending, h.queued d hd]
    · rw [Function.update_of_ne he]
      exact h.queued d hd
  · intro d hd
    have hne : d ≠ c := by
      rintro rfl
      exact absurd hd (not_le.mpr hc)
    rw [hclients, Function.update_of_ne hne]
    exact h.unborn d hd

theorem streams_read {cfg : Config} {s : Server σ} (hplaced : Placed cfg s) (h : Streams s)
    {fd c : ℕ} {peer : Peer σ}
    (hc : s.sockets fd = some c) (hpeer : s.connections fd = some peer) (n : ℕ) :
    Streams (netReader fd c n peer s) := by
  have hclient := peer_client hplaced hc hpeer
  have hin := (hplaced.known c).mpr (Or.inr ⟨fd, hc⟩)
  have hclients : ∀ d, d ≠ c → (netReader fd c n peer s).clients d = s.clients d :=
    fun d hd => Function.update_of_ne hd _ _
  constructor
  · intro gd p hp
    by_cases he : gd = fd
    · subst he
      have hp : some _ = some p := (Function.update_self gd _ s.connections).symm.trans hp
      obtain rfl := Option.some.inj hp
      have hserved := h.served gd peer hpeer
      rw [hclient] at hserved
      simp only [netReader, setClient, hclient, Function.update_self]
      rw [List.append_assoc, List.take_append_drop, hserved]
    · have hp : s.connections gd = some p :=
        (Function.update_of_ne he _ s.connections).symm.trans hp
      have hne : p.client ≠ c :=
        fun hpc => he (hplaced.single gd fd c (hpc ▸ peer_socket hplaced hp) hc)
      rw [hclients _ hne]
      exact h.served gd p hp
  · intro d hd
    have hne : d ≠ c := by
      rintro rfl
      exact hplaced.apart fd d hc (List.mem_append_left _ hd)
    rw [hclients d hne]
    exact h.queued d hd
  · intro d hd
    have hne : d ≠ c := by
      rintro rfl
      exact absurd hd (not_le.mpr hin)
    rw [hclients d hne]
    exact h.unborn d hd

theorem map_update {s : Server σ} {fd : ℕ} {p : Peer σ} (hp : s.connections fd = some p)
    (connection : Connection σ)
    (received : Bytes) (gd : ℕ) :
    (Function.update s.connections fd
      (some { p with connection := connection, received := received }) gd).map Peer.client =
      (s.connections gd).map Peer.client := by
  by_cases he : gd = fd
  · subst he
    rw [Function.update_self, hp]
    rfl
  · rw [Function.update_of_ne he]

theorem streams_update {s t : Server σ} (h : Streams s) {fd : ℕ} {p : Peer σ}
    (hp : s.connections fd = some p)
    (connection : Connection σ) (hclients : t.clients = s.clients)
    (harrivals : t.arrivals = s.arrivals)
    (hbacklog : t.backlog = s.backlog)
    (hconnections : t.connections = Function.update s.connections fd
      (some { p with connection := connection })) : Streams t := by
  refine streams_same h hclients harrivals (fun c hc => hbacklog ▸ hc) fun gd r hr => ?_
  rw [hconnections] at hr
  by_cases he : gd = fd
  · subst he
    rw [Function.update_self] at hr
    cases hr
    exact Or.inl ⟨p, hp, rfl, rfl⟩
  · rw [Function.update_of_ne he] at hr
    exact Or.inl ⟨r, hr, rfl, rfl⟩

end CloudBackup.Dispatcher
