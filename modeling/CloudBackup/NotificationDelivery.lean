import CloudBackup.PipeMessages

/-!
# From the worker to its connection

Workers write notifications of the connection they work for, also after it has
been closed and its descriptor accepted again. The dispatcher finds the
connection by the descriptor and compares the number of its use, which counts
modulo 10000. A connection object is known by its descriptor and the number of
accepts on it; these numbers, the objects made and the logs of what was
written and handled are for the statements.
-/

set_option autoImplicit false

namespace CloudBackup.NotificationDelivery
open CloudBackup.ByteStrings CloudBackup.PipeMessages CloudBackup.RunInvariants

structure HTTPConnection where
  netFd : ℕ
  serial : ℕ
  useTime : ℕ
  deriving DecidableEq

/-- `notify_new_message_need_send` and `notify_close_curent_connection`. -/
inductive Notify where
  | newMessage
  | close

def Notify.op : Notify → UInt8
  | .newMessage => 119
  | .close => 99

/-- A message with its writer and the accepts on its descriptor until then. -/
structure Written where
  connection : HTTPConnection
  notify : Notify
  accepted : ℕ

inductive Call where
  | netReader
  | netWriter
  | netExcepter
  deriving DecidableEq

/-- The connection at each descriptor, and what was called for each object. -/
structure Table where
  connections : ℕ → Option HTTPConnection
  calls : HTTPConnection → List Call

/-- A message as it was decoded, the accepts on its descriptor until then, and the connections
before and after it was handled. -/
structure Handled where
  op : UInt8
  netFd : ℤ
  useTime : ℤ
  accepted : ℕ
  before : Table
  after : Table

structure Server extends Table where
  recordNetFdUseTime : ℕ → ℕ
  pipe : Bytes
  readPipeBuffer : Bytes
  reading : Bool
  accepted : ℕ → ℕ
  objects : List HTTPConnection
  written : List Written
  handled : List Handled

def Server.start : Server where
  connections := fun _ => none
  calls := fun _ => []
  recordNetFdUseTime := fun _ => 0
  pipe := []
  readPipeBuffer := []
  reading := false
  accepted := fun _ => 0
  objects := []
  written := []
  handled := []

def Table.call (t : Table) (c : HTTPConnection) (k : Call) : Table :=
  { t with calls := Function.update t.calls c (t.calls c ++ [k]) }

def called (fd : ℕ) (k : Call) (srv : Server) : Server :=
  match srv.connections fd with
  | none => srv
  | some c => { srv with toTable := srv.toTable.call c k }

def Table.without (t : Table) (fd : ℕ) : Table :=
  { t with connections := Function.update t.connections fd none }

def netExcepter (fd : ℕ) (srv : Server) : Server :=
  let srv := called fd .netExcepter srv
  { srv with toTable := srv.toTable.without fd }

/-- `NetReader` and `NetWriter`; which calls of them end in `NetExcepter` is given by the
second component. -/
def visit (fd : ℕ) (k : Call) (st : Server × List Bool) : Server × List Bool :=
  let srv := called fd k st.1
  (if st.2.headD false then netExcepter fd srv else srv, st.2.tail)

/-- `PipeDataHandler` on a decoded message. -/
def serveMessage (st : Server × List Bool) (op : UInt8) (netFd useTime : ℤ) : Server × List Bool :=
  let fd := netFd.toNat
  if netFd < 0 ∨ st.1.connections fd = none ∨ useTime ≠ st.1.recordNetFdUseTime fd then st
  else if op = 114 then visit fd .netReader st
  else if op = 119 then visit fd .netWriter st
  else if op = 99 then (netExcepter fd st.1, st.2)
  else st

def dispatch (st : Server × List Bool) (op : UInt8) (netFd useTime : ℤ) : Server × List Bool :=
  let r := serveMessage st op netFd useTime
  ({ r.1 with handled := r.1.handled ++
      [⟨op, netFd, useTime, st.1.accepted netFd.toNat, st.1.toTable, r.1.toTable⟩] }, r.2)

inductive Event where
  | accept (fd : ℕ)
  | except (fd : ℕ)
  | notify (connection : HTTPConnection) (kind : Notify)
  | read (readBytes : ℕ)
  | handle (excepts : List Bool)

def addConnection (fd : ℕ) (srv : Server) : Server :=
  let useTime := (srv.recordNetFdUseTime fd+1) % 10000
  let connection : HTTPConnection := ⟨fd, srv.accepted fd+1, useTime⟩
  { srv with
    connections := Function.update srv.connections fd (some connection)
    recordNetFdUseTime := Function.update srv.recordNetFdUseTime fd useTime
    accepted := Function.update srv.accepted fd (srv.accepted fd+1)
    objects := connection :: srv.objects }

def notification (connection : HTTPConnection) (kind : Notify) : Notification :=
  ⟨kind.op, connection.netFd, connection.useTime⟩

def Written.message (w : Written) : Notification := notification w.connection w.notify

/-- The dispatcher accepts and closes connections, or is in `PipeDataReader`; the
descriptor of an accepted connection is one that is not in use. Any object ever
made may still have a worker. `none` also where `PipeDataHandler` throws. -/
def step (srv : Server) : Event → Option Server
  | .accept fd =>
    if srv.reading = false ∧ fd < 2^31 ∧ srv.connections fd = none then
      some (addConnection fd srv) else none
  | .except fd =>
    if srv.reading = false then some (netExcepter fd srv) else none
  | .notify connection kind =>
    if connection ∈ srv.objects then
      some { srv with
        pipe := srv.pipe ++ (notification connection kind).text
        written := srv.written ++ [⟨connection, kind, srv.accepted connection.netFd⟩] }
    else none
  | .read readBytes =>
    if 0 < readBytes ∧ readBytes ≤ 1023 ∧ readBytes ≤ srv.pipe.length then
      some { srv with
        pipe := srv.pipe.drop readBytes
        readPipeBuffer := srv.readPipeBuffer ++ cstr (srv.pipe.take readBytes)
        reading := true }
    else none
  | .handle excepts =>
    (pipeDataHandler dispatch srv.readPipeBuffer (srv, excepts)).map fun r =>
      { r.2.1 with readPipeBuffer := r.1, reading := false }

structure Decoded (e : Handled) (w : Written) : Prop where
  op : e.op = w.notify.op
  netFd : e.netFd = w.connection.netFd
  useTime : e.useTime = w.connection.useTime

/-- What a message does to the connections, by the object that it is for. -/
def applied (kind : Notify) (c : HTTPConnection) (excepts : Bool) (t : Table) : Table :=
  match kind, excepts with
  | .newMessage, false => t.call c .netWriter
  | .newMessage, true => ((t.call c .netWriter).call c .netExcepter).without c.netFd
  | .close, _ => (t.call c .netExcepter).without c.netFd

/-- It is for the writer's connection, if that is still open, and does nothing otherwise. -/
def Delivered (e : Handled) (w : Written) : Prop :=
  (e.before.connections w.connection.netFd = some w.connection →
    ∃ excepts, e.after = applied w.notify w.connection excepts e.before) ∧
  (e.before.connections w.connection.netFd ≠ some w.connection → e.after = e.before)

/-- Fewer than 10000 connections were accepted on the descriptor since the writer's. -/
def Young (e : Handled) (w : Written) : Prop := e.accepted - w.connection.serial < 10000

def Linked : Table → List Handled → Table → Prop
  | a, [], b => a = b
  | a, e::es, b => e.before = a ∧ Linked e.after es b

structure Sound (srv : Server) : Prop where
  log : ∃ done rest, srv.written = done ++ rest ∧
    List.Forall₂ (fun e w => Decoded e w ∧ (Young e w → Delivered e w)) srv.handled done ∧
    stream (rest.map Written.message) = srv.readPipeBuffer ++ srv.pipe
  kept : srv.reading = false → comma ∉ srv.readPipeBuffer
  total : srv.readPipeBuffer.length < 2^31 → ∀ excepts, ∃ t es,
    step srv (.handle excepts) = some t ∧
    t.handled = srv.handled ++ es ∧ Linked srv.toTable es t.toTable

/-- `PipeDataHandler` is called on fewer bytes than an `int` can count. -/
def Countable (srv : Server) : Event → Prop
  | .handle _ => srv.readPipeBuffer.length < 2^31
  | _ => True

instance (srv : Server) (e : Event) : Decidable (Countable srv e) :=
  match e with
  | .handle _ => inferInstanceAs (Decidable (srv.readPipeBuffer.length < 2^31))
  | .accept _ | .except _ | .notify _ _ | .read _ => isTrue trivial

structure Numbered (srv : Server) : Prop where
  made : ∀ c ∈ srv.objects, c.netFd < 2^31 ∧ c.useTime = c.serial % 10000 ∧
    c.serial ≤ srv.accepted c.netFd
  latest : ∀ fd c, srv.connections fd = some c →
    c.netFd = fd ∧ c.serial = srv.accepted fd ∧ c.useTime = c.serial % 10000
  record : ∀ fd, srv.recordNetFdUseTime fd = srv.accepted fd % 10000
  writers : ∀ w ∈ srv.written, w.connection ∈ srv.objects

structure Settles (s t : Server) : Prop where
  recordNetFdUseTime : t.recordNetFdUseTime = s.recordNetFdUseTime
  accepted : t.accepted = s.accepted
  objects : t.objects = s.objects
  written : t.written = s.written
  pipe : t.pipe = s.pipe
  fewer : ∀ fd c, t.connections fd = some c → s.connections fd = some c

theorem Settles.refl (s : Server) : Settles s s := ⟨rfl, rfl, rfl, rfl, rfl, fun _ _ h => h⟩

theorem Settles.trans {s t u : Server} (h : Settles s t) (k : Settles t u) : Settles s u where
  recordNetFdUseTime := k.recordNetFdUseTime.trans h.recordNetFdUseTime
  accepted := k.accepted.trans h.accepted
  objects := k.objects.trans h.objects
  written := k.written.trans h.written
  pipe := k.pipe.trans h.pipe
  fewer := fun fd c hc => h.fewer fd c (k.fewer fd c hc)

theorem numbered_settles {s t : Server} (hs : Numbered s) (h : Settles s t) : Numbered t := by
  constructor
  · rw [h.objects, h.accepted]
    exact hs.made
  · intro fd c hc
    rw [h.accepted]
    exact hs.latest fd c (h.fewer fd c hc)
  · rw [h.recordNetFdUseTime, h.accepted]
    exact hs.record
  · rw [h.written, h.objects]
    exact hs.writers

structure Touches (s t : Server) : Prop where
  rest : t = { s with toTable := t.toTable }
  fewer : ∀ fd c, t.connections fd = some c → s.connections fd = some c

theorem Touches.refl (s : Server) : Touches s s := ⟨rfl, fun _ _ h => h⟩

theorem Touches.trans {s t u : Server} (h : Touches s t) (k : Touches t u) : Touches s u where
  rest := by
    rw [k.rest, h.rest]
  fewer := fun fd c hc => h.fewer fd c (k.fewer fd c hc)

theorem called_touches (fd : ℕ) (k : Call) (srv : Server) : Touches srv (called fd k srv) := by
  unfold called
  split
  · exact Touches.refl srv
  · exact ⟨rfl, fun _ _ h => h⟩

theorem without_touches (fd : ℕ) (srv : Server) :
    Touches srv { srv with toTable := srv.toTable.without fd } := by
  refine ⟨rfl, fun g c h => ?_⟩
  have h : Function.update srv.connections fd none g = some c := h
  by_cases hg : g = fd
  · rw [hg, Function.update_self] at h
    cases h
  · rwa [Function.update_of_ne hg] at h

theorem netExcepter_touches (fd : ℕ) (srv : Server) : Touches srv (netExcepter fd srv) :=
  (called_touches fd .netExcepter srv).trans (without_touches fd _)

theorem visit_touches (fd : ℕ) (k : Call) (st : Server × List Bool) :
    Touches st.1 (visit fd k st).1 := by
  unfold visit
  dsimp only
  split_ifs
  · exact (called_touches fd k st.1).trans (netExcepter_touches fd _)
  · exact called_touches fd k st.1

theorem serveMessage_touches (st : Server × List Bool) (op : UInt8) (netFd useTime : ℤ) :
    Touches st.1 (serveMessage st op netFd useTime).1 := by
  unfold serveMessage
  dsimp only
  split_ifs
  · exact Touches.refl _
  · exact visit_touches _ _ st
  · exact visit_touches _ _ st
  · exact netExcepter_touches _ _
  · exact Touches.refl _

theorem touches_settles {s t : Server} (h : Touches s t) : Settles s t := by
  refine ⟨?_, ?_, ?_, ?_, ?_, h.fewer⟩ <;> rw [h.rest]

theorem dispatch_settles (st : Server × List Bool) (op : UInt8) (netFd useTime : ℤ) :
    Settles st.1 (dispatch st op netFd useTime).1 :=
  (touches_settles (serveMessage_touches st op netFd useTime)).trans
    ⟨rfl, rfl, rfl, rfl, rfl, fun _ _ h => h⟩

theorem serial_unique {a b : ℕ} (h : a ≤ b) (hnear : b-a < 10000)
    (hmod : a % 10000 = b % 10000) : a = b := by
  omega

theorem connection_unique {c d : HTTPConnection} (hfd : c.netFd = d.netFd)
    (hserial : c.serial = d.serial)
    (hc : c.useTime = c.serial % 10000) (hd : d.useTime = d.serial % 10000) : c = d := by
  cases c
  cases d
  simp_all

/-- A message passes the test of its descriptor and number only where its writer's connection is. -/
theorem dropped_other (srv : Server) (hs : Numbered srv) (c : HTTPConnection) (hc : c ∈ srv.objects)
    (hyoung : srv.accepted c.netFd - c.serial < 10000) (hother : srv.connections c.netFd ≠ some c)
    (hsome : srv.connections c.netFd ≠ none) : c.useTime ≠ srv.recordNetFdUseTime c.netFd := by
  obtain ⟨-, huse, hle⟩ := hs.made c hc
  obtain ⟨d, hd⟩ := Option.ne_none_iff_exists'.mp hsome
  obtain ⟨hdfd, hdserial, hduse⟩ := hs.latest c.netFd d hd
  intro hmatch
  have hmod : c.serial % 10000 = srv.accepted c.netFd % 10000 := by
    rw [← huse, hmatch, hs.record]
  have hserial : d.serial = c.serial := by
    rw [hdserial]
    exact (serial_unique hle hyoung hmod).symm
  exact hother (hd.trans (congrArg some (connection_unique hdfd hserial hduse huse)))

theorem called_here {fd : ℕ} {c : HTTPConnection} {srv : Server} (k : Call)
    (h : srv.connections fd = some c) :
    called fd k srv = { srv with toTable := srv.toTable.call c k } := by
  rw [called, h]

theorem netExcepter_here {fd : ℕ} {c : HTTPConnection} {srv : Server}
    (h : srv.connections fd = some c) :
    (netExcepter fd srv).toTable = (srv.toTable.call c .netExcepter).without fd := by
  rw [netExcepter, called_here .netExcepter h]

theorem visit_here {fd : ℕ} {c : HTTPConnection} {st : Server × List Bool} (k : Call)
    (h : st.1.connections fd = some c) : (visit fd k st).1.toTable =
      if st.2.headD false then ((st.1.toTable.call c k).call c .netExcepter).without fd
      else st.1.toTable.call c k := by
  rw [visit, called_here k h]
  split_ifs
  · exact netExcepter_here h
  · rfl

theorem serveMessage_writer (st : Server × List Bool) (hs : Numbered st.1) (w : Written)
    (hw : w.connection ∈ st.1.objects)
    (hyoung : st.1.accepted w.connection.netFd - w.connection.serial < 10000) :
    (st.1.connections w.connection.netFd = some w.connection → ∃ excepts,
      (serveMessage st w.notify.op w.connection.netFd w.connection.useTime).1.toTable =
        applied w.notify w.connection excepts st.1.toTable) ∧
    (st.1.connections w.connection.netFd ≠ some w.connection →
      (serveMessage st w.notify.op w.connection.netFd w.connection.useTime).1.toTable =
        st.1.toTable) := by
  obtain ⟨c, kind, accepted⟩ := w
  dsimp only at hw hyoung ⊢
  have hnat : ((c.netFd : ℤ)).toNat = c.netFd := Int.toNat_natCast _
  constructor
  · intro hhere
    obtain ⟨-, hserial, huse⟩ := hs.latest c.netFd c hhere
    have hmatch : (c.useTime : ℤ) = st.1.recordNetFdUseTime c.netFd := by
      rw [huse, hs.record, hserial]
    have hpass : ¬ ((c.netFd : ℤ) < 0 ∨ st.1.connections c.netFd = none ∨
        (c.useTime : ℤ) ≠ st.1.recordNetFdUseTime c.netFd) := by
      rw [hhere, hmatch]
      simp
    refine ⟨st.2.headD false, ?_⟩
    simp only [serveMessage, hnat, if_neg hpass]
    cases kind with
    | newMessage =>
      have hop : Notify.newMessage.op = 119 := rfl
      rw [if_neg (by decide), if_pos hop, visit_here .netWriter hhere]
      cases st.2.headD false <;> rfl
    | close =>
      have hop : Notify.close.op = 99 := rfl
      rw [if_neg (by decide), if_neg (by decide), if_pos hop, netExcepter_here hhere, applied]
  · intro hother
    have hdrop : (c.netFd : ℤ) < 0 ∨ st.1.connections c.netFd = none ∨
        (c.useTime : ℤ) ≠ st.1.recordNetFdUseTime c.netFd := by
      refine Or.inr (Classical.or_iff_not_imp_left.mpr fun hsome hmatch => ?_)
      exact dropped_other st.1 hs c hw hyoung hother hsome (by exact_mod_cast hmatch)
    simp only [serveMessage, hnat, if_pos hdrop]

theorem dispatch_entry (st : Server × List Bool) (hs : Numbered st.1) (w : Written)
    (hw : w.connection ∈ st.1.objects) :
    ∃ e, (serve dispatch st w.message).1.handled = st.1.handled ++ [e] ∧ e.before = st.1.toTable ∧
      e.after = (serve dispatch st w.message).1.toTable ∧ Decoded e w ∧
        (Young e w → Delivered e w) := by
  let r := serveMessage st w.notify.op w.connection.netFd w.connection.useTime
  let e : Handled := ⟨w.notify.op, w.connection.netFd, w.connection.useTime,
    st.1.accepted w.connection.netFd, st.1.toTable, r.1.toTable⟩
  have hsame : r.1.handled = st.1.handled := by
    rw [(serveMessage_touches st w.notify.op w.connection.netFd w.connection.useTime).rest]
  refine ⟨e, ?_, rfl, rfl, ⟨rfl, rfl, rfl⟩, fun hyoung => serveMessage_writer st hs w hw hyoung⟩
  show r.1.handled ++ _ = _
  rw [hsame]
  rfl

theorem dispatch_entries (st : Server × List Bool) (hs : Numbered st.1) (ws : List Written)
    (hws : ∀ w ∈ ws, w.connection ∈ st.1.objects) :
    Settles st.1 ((ws.map Written.message).foldl (serve dispatch) st).1 ∧
    ∃ es, ((ws.map Written.message).foldl (serve dispatch) st).1.handled = st.1.handled ++ es ∧
      Linked st.1.toTable es ((ws.map Written.message).foldl (serve dispatch) st).1.toTable ∧
      List.Forall₂ (fun e w => Decoded e w ∧ (Young e w → Delivered e w)) es ws := by
  induction ws generalizing st with
  | nil => exact ⟨Settles.refl _, [], (List.append_nil _).symm, rfl, List.Forall₂.nil⟩
  | cons w ws ih =>
    obtain ⟨e, he, hbefore, hafter, hmatch⟩ := dispatch_entry st hs w (hws w (by simp))
    have hone : Settles st.1 (serve dispatch st w.message).1 := dispatch_settles st _ _ _
    have hobjects : ∀ v ∈ ws, v.connection ∈ (serve dispatch st w.message).1.objects :=
      fun v hv => by
      rw [hone.objects]
      exact hws v (by simp [hv])
    obtain ⟨hrest, es, hes, hlinked, hall⟩ := ih _ (numbered_settles hs hone) hobjects
    refine ⟨hone.trans hrest, e::es, ?_, ⟨hbefore, ?_⟩, List.Forall₂.cons hmatch hall⟩
    · rw [List.map_cons, List.foldl_cons, hes, he, List.append_assoc]
      rfl
    · rw [hafter]
      exact hlinked

theorem message_proper (srv : Server) (hs : Numbered srv) (w : Written)
    (hw : w.connection ∈ srv.objects) :
    w.message.Proper := by
  obtain ⟨hfd, huse, -⟩ := hs.made _ hw
  constructor
  · cases hn : w.notify <;> simp [Written.message, notification, hn, Notify.op, comma]
  · exact hfd
  · show w.connection.useTime < 2^31
    omega

theorem stream_split (ws : List Written) (hws : ∀ w ∈ ws, w.message.Proper)
    (gathered coming : Bytes)
    (h : stream (ws.map Written.message) = gathered ++ coming) :
    ∃ done rest tail, ws = done ++ rest ∧ gathered = stream (done.map Written.message) ++ tail ∧
      comma ∉ tail ∧ stream (rest.map Written.message) = tail ++ coming := by
  induction ws generalizing gathered with
  | nil =>
    obtain ⟨rfl, rfl⟩ := List.append_eq_nil_iff.mp h.symm
    exact ⟨[], [], [], rfl, rfl, by simp, rfl⟩
  | cons w ws ih =>
    have hw := hws w (by simp)
    rw [List.map_cons, stream_cons] at h
    by_cases hcut : gathered.length < w.message.text.length
    · -- The first message is not complete yet.
      have hfront : gathered <+: w.message.body := by
        have htext : gathered <+: w.message.text :=
          List.prefix_of_prefix_length_le ⟨coming, h.symm⟩ (List.prefix_append _ _) hcut.le
        rw [Notification.text, List.length_append, List.length_singleton] at hcut
        exact List.prefix_of_prefix_length_le htext (List.prefix_append _ _) (by omega)
      refine ⟨[], w::ws, gathered, rfl, rfl, fun hc => body_comma hw (hfront.subset hc), ?_⟩
      rw [List.map_cons, stream_cons, h]
    · obtain ⟨more, rfl⟩ : w.message.text <+: gathered :=
        List.prefix_of_prefix_length_le (List.prefix_append _ _) ⟨coming, h.symm⟩ (by omega)
      rw [List.append_assoc] at h
      obtain ⟨done, rest, tail, rfl, rfl, htail, hrest⟩ :=
        ih (fun v hv => hws v (by simp [hv])) more (List.append_cancel_left h)
      exact ⟨w::done, rest, tail,
        rfl, by rw [List.map_cons, stream_cons, List.append_assoc], htail, hrest⟩

structure Tracked (srv : Server) : Prop where
  numbered : Numbered srv
  log : ∃ done rest, srv.written = done ++ rest ∧
    List.Forall₂ (fun e w => Decoded e w ∧ (Young e w → Delivered e w)) srv.handled done ∧
    stream (rest.map Written.message) = srv.readPipeBuffer ++ srv.pipe
  kept : srv.reading = false → comma ∉ srv.readPipeBuffer

theorem tracked_handle (srv : Server) (h : Tracked srv) (hsmall : srv.readPipeBuffer.length < 2^31)
    (excepts : List Bool) : ∃ t es, step srv (.handle excepts) = some t ∧
      t.handled = srv.handled ++ es ∧
      Linked srv.toTable es t.toTable ∧ Tracked t := by
  obtain ⟨hs, ⟨old, new, hwritten, hhandled, hstream⟩, -⟩ := h
  have hnew : ∀ w ∈ new, w.connection ∈ srv.objects := fun w hw =>
    hs.writers w (by rw [hwritten]; simp [hw])
  obtain ⟨done, rest, tail, rfl, hbuffer, htail, hrest⟩ :=
    stream_split new (fun w hw => message_proper srv hs w (hnew w hw)) _ _ hstream
  have hproper : ∀ m ∈ done.map Written.message, m.Proper := by
    intro m hm
    obtain ⟨w, hw, rfl⟩ := List.mem_map.mp hm
    exact message_proper srv hs w (hnew w (by simp [hw]))
  rw [hbuffer] at hsmall
  have hrun := pipeDataHandler_stream dispatch _ hproper tail htail hsmall (srv, excepts)
  obtain ⟨hsettles, es, hes, hlinked, hall⟩ := dispatch_entries (srv, excepts) hs done
    fun w hw => hnew w (by simp [hw])
  obtain ⟨t, ht⟩ : ∃ t, t = ((done.map Written.message).foldl (serve dispatch) (srv, excepts)).1 :=
    ⟨_, rfl⟩
  rw [← ht] at hsettles hes hlinked
  refine ⟨{ t with readPipeBuffer := tail, reading := false }, es, ?_, hes, hlinked, ?_⟩
  · rw [step, hbuffer, hrun, ht]
    rfl
  · constructor
    · exact numbered_settles (numbered_settles hs hsettles)
        ⟨rfl, rfl, rfl, rfl, rfl, fun _ _ hc => hc⟩
    · refine ⟨old ++ done, rest, ?_, ?_, ?_⟩
      · show t.written = _
        rw [hsettles.written, hwritten, List.append_assoc]
      · show List.Forall₂ _ t.handled _
        rw [hes]
        exact List.rel_append hhandled hall
      · show _ = tail ++ t.pipe
        rw [hsettles.pipe, hrest]
    · exact fun _ => htail

theorem text_clean (w : Written) : 0 ∉ w.message.text := by
  intro h
  simp only [Notification.text, Notification.body, identifier, List.mem_append, List.mem_cons] at h
  rcases h with (h | h | h | h) | h
  · cases hn : w.notify <;> simp [Written.message, notification, hn, Notify.op] at h
  · exact toDecimal_free _ 0 (by decide) h
  · exact absurd h (by decide)
  · exact toDecimal_free _ 0 (by decide) h
  · exact absurd h (by decide)

theorem stream_clean (ws : List Written) : 0 ∉ stream (ws.map Written.message) := by
  induction ws with
  | nil => simp [stream]
  | cons w ws ih =>
    rw [List.map_cons, stream_cons, List.mem_append]
    exact fun h => h.elim (text_clean w) ih

theorem numbered_addConnection (srv : Server) (h : Numbered srv) (fd : ℕ) (hfd : fd < 2^31) :
    Numbered (addConnection fd srv) := by
  have huse : (srv.recordNetFdUseTime fd+1) % 10000 = (srv.accepted fd+1) % 10000 := by
    rw [h.record, Nat.mod_add_mod]
  have hnew : Function.update srv.accepted fd (srv.accepted fd+1) fd = srv.accepted fd+1 :=
    Function.update_self ..
  have hold : ∀ g, srv.accepted g ≤ Function.update srv.accepted fd (srv.accepted fd+1) g := by
    intro g
    by_cases hg : g = fd
    · subst hg
      rw [hnew]
      exact Nat.le_succ _
    · rw [Function.update_of_ne hg]
  constructor
  · intro c hc
    cases List.mem_cons.mp hc with
    | inl heq =>
      subst heq
      exact ⟨hfd, huse, hnew.ge⟩
    | inr hmem =>
      obtain ⟨hcfd, hcuse, hle⟩ := h.made c hmem
      exact ⟨hcfd, hcuse, hle.trans (hold _)⟩
  · intro g c hc
    have hc : Function.update srv.connections fd _ g = some c := hc
    show _ ∧ _ = Function.update srv.accepted fd (srv.accepted fd+1) g ∧ _
    by_cases hg : g = fd
    · subst hg
      rw [Function.update_self] at hc
      obtain rfl := Option.some.inj hc
      exact ⟨rfl, hnew.symm, huse⟩
    · rw [Function.update_of_ne hg] at hc ⊢
      exact h.latest g c hc
  · intro g
    show Function.update srv.recordNetFdUseTime fd _ g = Function.update srv.accepted fd _ g % 10000
    by_cases hg : g = fd
    · subst hg
      rw [Function.update_self, Function.update_self, huse]
    · rw [Function.update_of_ne hg, Function.update_of_ne hg]
      exact h.record g
  · exact fun w hw => List.mem_cons_of_mem _ (h.writers w hw)

theorem tracked_step (srv : Server) (e : Event) (t : Server) (h : Tracked srv)
    (hc : Countable srv e)
    (ht : step srv e = some t) : Tracked t := by
  cases e with
  | accept fd =>
    simp only [step] at ht
    split_ifs at ht with hguard
    cases ht
    exact ⟨numbered_addConnection srv h.numbered fd hguard.2.1, h.log, h.kept⟩
  | except fd =>
    simp only [step] at ht
    split_ifs at ht
    cases ht
    have htouches := netExcepter_touches fd srv
    have hrest := htouches.rest
    refine ⟨numbered_settles h.numbered (touches_settles htouches), ?_, ?_⟩
    · rw [hrest]
      exact h.log
    · rw [hrest]
      exact h.kept
  | notify connection kind =>
    simp only [step] at ht
    split_ifs at ht with hmade
    cases ht
    constructor
    · refine ⟨h.numbered.made, h.numbered.latest, h.numbered.record, fun w hw => ?_⟩
      cases List.mem_append.mp hw with
      | inl hold => exact h.numbered.writers w hold
      | inr hnew =>
        rw [List.mem_singleton.mp hnew]
        exact hmade
    · obtain ⟨done, rest, hwritten, hhandled, hstream⟩ := h.log
      refine ⟨done, rest ++ [⟨connection, kind, srv.accepted connection.netFd⟩], ?_, hhandled, ?_⟩
      · show srv.written ++ _ = _
        rw [hwritten, List.append_assoc]
      · show _ = srv.readPipeBuffer ++ (srv.pipe ++ _)
        rw [List.map_append, stream_append, hstream, List.append_assoc]
        simp [stream, Written.message]
    · exact h.kept
  | read readBytes =>
    simp only [step] at ht
    split_ifs at ht
    cases ht
    constructor
    · exact ⟨h.numbered.made, h.numbered.latest, h.numbered.record, h.numbered.writers⟩
    · obtain ⟨done, rest, hwritten, hhandled, hstream⟩ := h.log
      have hclean : cstr (srv.pipe.take readBytes) = srv.pipe.take readBytes := by
        apply cstr_clean
        intro hz
        apply stream_clean rest
        rw [hstream]
        exact List.mem_append_right _ (List.mem_of_mem_take hz)
      refine ⟨done, rest, hwritten, hhandled, ?_⟩
      show _ = srv.readPipeBuffer ++ cstr (srv.pipe.take readBytes) ++ srv.pipe.drop readBytes
      rw [hclean, List.append_assoc, List.take_append_drop, hstream]
    · intro hr
      cases hr
  | handle excepts =>
    obtain ⟨u, -, hu, -, -, hnext⟩ := tracked_handle srv h hc excepts
    rw [hu] at ht
    cases ht
    exact hnext

theorem tracked_start : Tracked Server.start := by
  constructor
  · constructor
    · intro c hc
      cases hc
    · intro fd c hc
      cases hc
    · exact fun fd => rfl
    · intro w hw
      cases hw
  · exact ⟨[], [], rfl, List.Forall₂.nil, rfl⟩
  · exact fun _ => List.not_mem_nil

theorem tracked_sound (srv : Server) (h : Tracked srv) : Sound srv := by
  refine ⟨h.log, h.kept, fun hsmall excepts => ?_⟩
  obtain ⟨t, es, ht, hes, hlinked, -⟩ := tracked_handle srv h hsmall excepts
  exact ⟨t, es, ht, hes, hlinked⟩

theorem notifications_delivered (events : List Event)
    (h : Meets step Countable Server.start events) :
    Throughout step Sound Server.start events :=
  throughout_mono tracked_sound (invariant_throughout tracked_step tracked_start h)

/-- A worker writes while the pipe is read in pieces, and once more when the descriptor has been
closed and accepted again. -/
def smallRun : List Event :=
  [.accept 5, .notify ⟨5, 1, 1⟩ .newMessage, .read 3, .handle [], .read 2, .handle [],
    .except 5, .accept 5, .notify ⟨5, 1, 1⟩ .close, .read 5, .handle []]

theorem notifications_delivered_small : Throughout step Sound Server.start smallRun :=
  notifications_delivered smallRun (by decide +kernel)

theorem addConnection_connection (fd : ℕ) (srv : Server) : (addConnection fd srv).connections fd =
    some ⟨fd, srv.accepted fd+1, (srv.recordNetFdUseTime fd+1) % 10000⟩ := Function.update_self ..

theorem addConnection_record (fd : ℕ) (srv : Server) :
    (addConnection fd srv).recordNetFdUseTime fd = (srv.recordNetFdUseTime fd+1) % 10000 :=
  Function.update_self ..

def first : HTTPConnection := ⟨5, 1, 1⟩

/-- The first connection is closed, and `k` more have come and gone. -/
structure Reused (k : ℕ) (srv : Server) : Prop where
  reading : srv.reading = false
  closed : srv.connections 5 = none
  accepted : srv.accepted 5 = k+1
  record : srv.recordNetFdUseTime 5 = (k+1) % 10000
  object : first ∈ srv.objects
  empty : srv.pipe = [] ∧ srv.readPipeBuffer = []
  logs : srv.written = [] ∧ srv.handled = []

theorem reused_start : ∃ t, Reaches step Server.start t ∧ Reused 0 t := by
  refine ⟨netExcepter 5 (addConnection 5 Server.start), reaches_run [.accept 5, .except 5] rfl, ?_⟩
  constructor
  · rfl
  · rfl
  · rfl
  · rfl
  · exact List.mem_cons_self
  · exact ⟨rfl, rfl⟩
  · exact ⟨rfl, rfl⟩

theorem reused_next (k : ℕ) (srv : Server) (h : Reused k srv) :
    ∃ t, Reaches step srv t ∧ Reused (k+1) t := by
  have hrun : run step srv [.accept 5, .except 5] = some (netExcepter 5 (addConnection 5 srv)) := by
    have hguard : srv.reading = false ∧ 5 < 2^31 ∧ srv.connections 5 = none :=
      ⟨h.reading, by decide, h.closed⟩
    have hidle : (addConnection 5 srv).reading = false := h.reading
    simp only [run, step, if_pos hguard, Option.bind_some, if_pos hidle]
  refine ⟨_, reaches_run _ hrun, ?_⟩
  constructor
  · exact h.reading
  · show Function.update (addConnection 5 srv).connections 5 none 5 = none
    rw [Function.update_self]
  · show Function.update srv.accepted 5 (srv.accepted 5+1) 5 = k+1+1
    rw [Function.update_self, h.accepted]
  · show (addConnection 5 srv).recordNetFdUseTime 5 = (k+1+1) % 10000
    rw [addConnection_record, h.record, Nat.mod_add_mod]
  · exact List.mem_cons_of_mem _ h.object
  · exact h.empty
  · exact h.logs

theorem reused_misdelivers (srv : Server) (h : Reused 9999 srv) : ∃ t e w, Reaches step srv t ∧
    t.handled = [e] ∧ t.written = [w] ∧ w.connection = first ∧ w.accepted = e.accepted ∧
      Decoded e w ∧
    e.before.connections 5 = some ⟨5, 10001, 1⟩ ∧
    e.after.calls ⟨5, 10001, 1⟩ = e.before.calls ⟨5, 10001, 1⟩ ++ [.netWriter] := by
  let late : HTTPConnection := ⟨5, 10001, 1⟩
  have hlate : (addConnection 5 srv).connections 5 = some late := by
    rw [addConnection_connection, h.accepted, h.record]
  have hrecord : (addConnection 5 srv).recordNetFdUseTime 5 = 1 := by
    rw [addConnection_record, h.record]
  obtain ⟨u, hu⟩ : ∃ u : Server, u = { addConnection 5 srv with
    readPipeBuffer := (notification first .newMessage).text
    reading := true
    written := [⟨first, .newMessage, (addConnection 5 srv).accepted 5⟩] } := ⟨_, rfl⟩
  have hread : run step srv [.accept 5, .notify first .newMessage, .read 5] = some u := by
    have hguard : srv.reading = false ∧ 5 < 2^31 ∧ srv.connections 5 = none :=
      ⟨h.reading, by decide, h.closed⟩
    have hmem : first ∈ (addConnection 5 srv).objects := List.mem_cons_of_mem _ h.object
    have hpipe : (addConnection 5 srv).pipe = [] := h.empty.1
    have hbuffer : (addConnection 5 srv).readPipeBuffer = [] := h.empty.2
    have hwritten : (addConnection 5 srv).written = [] := h.logs.1
    have hfive : 0 < 5 ∧ 5 ≤ 1023 ∧
      5 ≤ ([] ++ (notification first .newMessage).text : Bytes).length := by decide
    simp only [run, step, if_pos hguard, Option.bind_some, if_pos hmem, hpipe, hbuffer, hwritten,
      if_pos hfive, hu]
    rfl
  have hproper : (notification first .newMessage).Proper := ⟨by decide, by decide, by decide⟩
  have hhandle := pipeDataHandler_stream dispatch [notification first .newMessage]
    (fun m hm => by rw [List.mem_singleton.mp hm]; exact hproper) [] List.not_mem_nil
      (by decide) (u, [])
  have hbuffer : u.readPipeBuffer = stream [notification first .newMessage] ++ [] := by
    rw [hu, List.append_nil]
    exact (List.append_nil _).symm
  have hhere : u.connections 5 = some late := by
    rw [hu]
    exact hlate
  have hserved : serveMessage
    (u, []) 119 5 1 = ({ u with toTable := u.toTable.call late .netWriter }, []) := by
    have hpass : ¬ ((5 : ℤ) < 0 ∨ u.connections (5 : ℤ).toNat = none ∨
        (1 : ℤ) ≠ u.recordNetFdUseTime (5 : ℤ).toNat) := by
      have hnumber : u.recordNetFdUseTime 5 = 1 := by
        rw [hu]
        exact hrecord
      rw [show (5 : ℤ).toNat = 5 from rfl, hhere, hnumber]
      simp
    rw [serveMessage, if_neg hpass, if_neg (by decide), if_pos rfl]
    show visit 5 .netWriter (u, []) = _
    rw [visit, called_here .netWriter hhere]
    rfl
  let e : Handled := ⟨119, 5, 1, u.accepted 5, u.toTable, u.toTable.call late .netWriter⟩
  have hnone : u.handled = [] := by
    rw [hu]
    exact h.logs.2
  obtain ⟨t, ht⟩ : ∃ t, t = (dispatch (u, []) 119 5 1).1 := ⟨_, rfl⟩
  have hentry : t.handled = [e] ∧ t.written = u.written := by
    rw [ht, dispatch, hserved]
    exact ⟨congrArg (· ++ [e]) hnone, rfl⟩
  refine ⟨{ t with readPipeBuffer := [], reading := false }, e, ⟨first, .newMessage, u.accepted 5⟩,
    ?_, hentry.1, ?_, rfl, rfl, ⟨rfl, rfl, rfl⟩, hhere, ?_⟩
  · apply reaches_trans (reaches_run _ hread)
    apply reaches_run [.handle []]
    rw [run, step, hbuffer, hhandle, ht]
    rfl
  · show t.written = _
    rw [hentry.2, hu]
  · exact Function.update_self late (u.calls late ++ [Call.netWriter]) u.calls

/-- No connection was accepted while the message was in flight, and still it is
applied to a later one. -/
theorem late_notification_misdelivered : ∃ events srv e w, run step Server.start events = some srv ∧
    srv.handled = [e] ∧ srv.written = [w] ∧ Decoded e w ∧ e.accepted - w.accepted < 10000 ∧
    w.connection = first ∧ e.before.connections 5 = some ⟨5, 10001, 1⟩ ∧
    e.after.calls ⟨5, 10001, 1⟩ = e.before.calls ⟨5, 10001, 1⟩ ++ [.netWriter] ∧
      ¬ Delivered e w := by
  obtain ⟨s, hs, hfirst⟩ := reused_start
  obtain ⟨t, ht, hreused⟩ := reaches_stage (n := 9999) (fun k _ s hk => reused_next k s hk) hfirst
  obtain ⟨srv, e, w, hsrv, hhandled, hwritten, hw, hflight, hdecoded, hlate, hcalls⟩ :=
    reused_misdelivers t hreused
  obtain ⟨events, hevents⟩ := reaches_trans hs (reaches_trans ht hsrv)
  refine ⟨events, srv, e, w, hevents, hhandled, hwritten,
    hdecoded, by omega, hw, hlate, hcalls, fun hdel => ?_⟩
  have hother : e.before.connections w.connection.netFd ≠ some w.connection := by
    rw [hw]
    show e.before.connections 5 ≠ some first
    rw [hlate]
    decide
  rw [hdel.2 hother] at hcalls
  exact absurd (congrArg List.length hcalls) (by simp)

end CloudBackup.NotificationDelivery
