import CloudBackup.Dispatcher
import CloudBackup.RunInvariants

/-!
# What the dispatcher is told about

Every event is reported once. A client in the queue, bytes and ends of
connections, and messages of the workers are each reported, in the batch, or
being worked on by a loop that goes on until nothing is left. The loops come
back, but for the one that accepts when it is out of descriptors.
-/

set_option autoImplicit false

namespace CloudBackup.ReadyInput
open CloudBackup.ByteStrings CloudBackup.ConnectionTasks CloudBackup.RunInvariants
open CloudBackup.Dispatcher
open CloudBackup.PipeMessages (Notification)

/-- A source that has something is reported, or somebody has taken the report. -/
def Watched {ι : Type*} (hot ready busy : ι → Prop) : Prop := ∀ i, hot i → ready i ∨ busy i

section Watched
variable {ι : Type*} {hot ready busy hot' ready' busy' : ι → Prop} (h : Watched hot ready busy)
include h

theorem watched_step (hhot : ∀ i, hot' i → hot i ∨ ready' i ∨ busy' i)
    (hready : ∀ i, ready i → hot' i → ready' i ∨ busy' i)
    (hbusy : ∀ i, busy i → hot' i → ready' i ∨ busy' i) : Watched hot' ready' busy' := by
  intro i hi
  rcases hhot i hi with hold | hnew
  · cases h i hold with
    | inl hr => exact hready i hr hi
    | inr hb => exact hbusy i hb hi
  · exact hnew

theorem watched_arrive (hhot : ∀ i, hot' i → hot i ∨ ready' i) (hready : ∀ i, ready i → ready' i) :
    Watched hot' ready' busy :=
  watched_step h (fun i hi => (hhot i hi).imp_right Or.inl) (fun i hr _ => Or.inl (hready i hr))
    fun _ hb _ => Or.inr hb

theorem watched_take (htaken : ∀ i, ready i → ready' i ∨ busy' i) (hbusy : ∀ i, busy i → busy' i) :
    Watched hot ready' busy' :=
  watched_step h (fun _ hi => Or.inl hi) (fun i hr _ => htaken i hr) fun i hb _ =>
    Or.inr (hbusy i hb)

theorem watched_drain (hhot : ∀ i, hot' i → hot i) (hbusy : ∀ i, busy i → hot' i → busy' i) :
    Watched hot' ready busy' :=
  watched_step h (fun i hi => Or.inl (hhot i hi)) (fun _ hr _ => Or.inl hr) fun i hb hi =>
    Or.inr (hbusy i hb hi)

theorem watched_rest (hready : ∀ i, ¬ ready i) (hbusy : ∀ i, ¬ busy i) (i : ι) : ¬ hot i := by
  intro hi
  cases h i hi with
  | inl hr => exact hready i hr
  | inr hb => exact hbusy i hb

end Watched

variable {σ : Type}

def Held (s : Server σ) : Prop :=
  match s.control with
  | .reading fd _ => (s.connections fd).isSome = true
  | .writing fd _ => (s.connections fd).isSome = true
  | _ => True

def Hot (cfg : Config) (s : Server σ) (fd : ℕ) : Prop :=
  if fd = cfg.listenFd then s.backlog ≠ [] else if fd = cfg.readPipeFd then
    s.pipe ≠ [] else hotAt s fd = true

def Serves (cfg : Config) : Control → ℕ → Prop
  | .accepting, fd => fd = cfg.listenFd
  | .readingPipe, fd => fd = cfg.readPipeFd
  | .reading gd _, fd => fd = gd
  | .waiting, _ | .handlingPipe, _ | .writing _ _, _ => False

def Busy (cfg : Config) (s : Server σ) (fd : ℕ) : Prop :=
  (∃ e ∈ s.events, e.fd = fd ∧ e.readable = true) ∨ Serves cfg s.control fd

def Attended (cfg : Config) (s : Server σ) : Prop :=
  Watched (Hot cfg s) (fun fd => s.ready fd = true) (Busy cfg s)

def Buffered (s : Server σ) : Prop := s.readPipeBuffer ≠ [] →
  match s.control with
  | .readingPipe | .handlingPipe => True
  | .reading _ inPipe => inPipe = true
  | .writing _ inPipe => inPipe = true
  | .waiting | .accepting => False

structure Sound (cfg : Config) (s : Server σ) : Prop where
  placed : Placed cfg s
  held : Held s
  streams : Streams s
  attended : Attended cfg s
  buffered : Buffered s

theorem hot_socket {cfg : Config} {s : Server σ} (h : Placed cfg s) {fd c : ℕ}
    (hc : s.sockets fd = some c) : Hot cfg s fd ↔ (s.clients c).hot = true := by
  obtain ⟨hlisten, hpipe⟩ := socket_other h hc
  rw [Hot, if_neg hlisten, if_neg hpipe, hotAt, hc]
  simp

theorem hot_drop (k : Client) (n : ℕ)
    (h : ({ k with pending := k.pending.drop n } : Client).hot = true) : k.hot = true := by
  simp only [Client.hot, Bool.or_eq_true, decide_eq_true_eq] at h ⊢
  refine h.imp_left (Or.imp_left fun hne hnil => ?_)
  rw [hnil] at hne
  exact hne List.drop_nil

theorem hotAt_client {s t : Server σ} {c : ℕ} {k : Client}
    (hk : k.hot = true → (s.clients c).hot = true)
    (hclients : t.clients = Function.update s.clients c k)
    (hsockets : t.sockets = s.sockets) {fd : ℕ}
    (hhot : hotAt t fd = true) : hotAt s fd = true := by
  rw [hotAt, hsockets, hclients, Option.any_eq_true] at hhot
  obtain ⟨d, hd, hdhot⟩ := hhot
  rw [hotAt, hd, Option.any_some]
  by_cases he : d = c
  · subst he
    rw [Function.update_self] at hdhot
    exact hk hdhot
  · rwa [Function.update_of_ne he] at hdhot

structure Still (s t : Server σ) : Prop where
  clients : t.clients = s.clients
  arrivals : t.arrivals = s.arrivals
  backlog : t.backlog = s.backlog
  sockets : t.sockets = s.sockets
  files : t.files = s.files
  interest : t.interest = s.interest
  connections : t.connections = s.connections
  closed : t.closed = s.closed
  strayClose : t.strayClose = s.strayClose

theorem still_layout {s t : Server σ} (h : Still s t) : Layout s t :=
  ⟨h.arrivals, h.backlog, h.sockets, h.files, h.interest,
    fun _ => by rw [h.connections], h.closed, h.strayClose⟩

theorem sound_still {cfg : Config} {s t : Server σ} (h : Sound cfg s) (hs : Still s t)
    (hheld : Held t)
    (hattended : Attended cfg t) (hbuffered : Buffered t) : Sound cfg t := by
  refine ⟨placed_layout h.placed (still_layout hs), hheld, ?_, hattended, hbuffered⟩
  apply streams_same h.streams hs.clients hs.arrivals
  · rw [hs.backlog]
    exact fun _ hc => hc
  · intro fd p hp
    rw [hs.connections] at hp
    exact Or.inl ⟨p, hp, rfl, rfl⟩

theorem held_back {s : Server σ} {inPipe : Bool} (h : s.control = back inPipe) : Held s := by
  rw [Held, h]
  cases inPipe <;> trivial

theorem buffered_back {s : Server σ} {inPipe : Bool} (h : s.control = back inPipe)
    (hin : s.readPipeBuffer ≠ [] → inPipe = true) : Buffered s := by
  intro hne
  rw [h, hin hne]
  trivial

section Events
variable {cfg : Config} {s : Server σ} (h : Sound cfg s)
include h

theorem sound_enter {control : Control} {fd : ℕ} {inPipe : Bool}
    (hcontrol : control = .reading fd inPipe ∨ control = .writing fd inPipe)
    (hidle : ∀ gd, ¬ Serves cfg s.control gd) (hin : s.readPipeBuffer ≠ [] → inPipe = true) :
    Sound cfg (enter control fd inPipe s) := by
  have hwatched : ∀ k, Attended cfg { s with control := k } := fun k =>
    watched_take h.attended (fun _ hr => Or.inl hr) fun gd hb =>
      Or.inl (hb.resolve_right (hidle gd))
  unfold enter
  split_ifs with hfound
  · refine sound_still h ⟨rfl, rfl, rfl, rfl, rfl, rfl, rfl, rfl, rfl⟩ ?_
      (hwatched control) fun hne => ?_
    · rcases hcontrol with rfl | rfl <;> exact hfound
    · rcases hcontrol with rfl | rfl <;> exact hin hne
  · refine sound_still h ⟨rfl, rfl, rfl, rfl, rfl, rfl, rfl, rfl, rfl⟩ (held_back rfl) (hwatched _)
      (buffered_back rfl hin)

theorem waiting_empty (hcontrol : s.control = .waiting) : s.readPipeBuffer = [] := by
  by_contra hne
  have hb := h.buffered hne
  rw [hcontrol] at hb
  exact hb

theorem sound_wait (parser : σ) {t : Server σ} {events : List EpollEvent}
    (ht : step cfg parser s (.wait events) = some t) :
    Sound cfg t := by
  simp only [step] at ht
  split_ifs at ht with hguard
  obtain ⟨hcontrol, hnone, -, -, -⟩ := hguard
  cases ht
  refine sound_still h ⟨rfl, rfl, rfl, rfl, rfl, rfl, rfl, rfl, rfl⟩ ?_ ?_ h.buffered
  · exact h.held
  · apply watched_take h.attended
    · intro fd hr
      by_cases htaken : ∃ e ∈ events, e.fd = fd ∧ e.readable = true
      · exact Or.inr (Or.inl htaken)
      · refine Or.inl ?_
        have hnot : (events.any fun e => e.fd = fd && e.readable) = false := by
          simpa using htaken
        simp [hr, hnot]
    · rintro fd (⟨e, he, -⟩ | hserves)
      · rw [hnone] at he
        cases he
      · exact Or.inr hserves

theorem sound_dispatch {e : EpollEvent} {rest : List EpollEvent} (hcontrol : s.control = .waiting)
    (hevents : s.events = e::rest) :
    Sound cfg (dispatch cfg e rest s) := by
  have hempty := waiting_empty h hcontrol
  have hbuffered : ∀ t : Server σ, t.readPipeBuffer = s.readPipeBuffer → Buffered t :=
    fun t ht hne =>
    absurd (ht.trans hempty) hne
  -- A report of the rest stays, and this one is taken up unless there is nothing to it.
  have hattended : ∀ (events : List EpollEvent) (control : Control), (∀ e' ∈ rest, e' ∈ events) →
      (e.readable = true → Hot cfg s e.fd → Serves cfg control e.fd) →
      Attended cfg { s with events := events, control := control } := by
    intro events control hrest hthis
    apply watched_drain h.attended (fun _ hi => hi)
    rintro fd (⟨e', he', rfl, hreadable⟩ | hserves) hhot
    · rw [hevents] at he'
      rcases List.mem_cons.mp he' with rfl | hin
      · exact Or.inr (hthis hreadable hhot)
      · exact Or.inl ⟨e', hrest e' hin, rfl, hreadable⟩
    · rw [hcontrol] at hserves
      exact hserves.elim
  have hstill : ∀ (events : List EpollEvent) (control : Control),
    Still s { s with events := events, control := control } :=
    fun _ _ => ⟨rfl, rfl, rfl, rfl, rfl, rfl, rfl, rfl, rfl⟩
  have hsame : ∀ e' ∈ rest, e' ∈ rest := fun _ he => he
  have hsocket : ∀ (events : List EpollEvent) (control : Control), (∀ e' ∈ rest, e' ∈ events) →
      e.fd ≠ cfg.listenFd → e.fd ≠ cfg.readPipeFd →
      (control = .reading e.fd false ∨ control = .writing e.fd false ∧ e.readable = false) →
      Sound cfg (enter control e.fd false { s with events := events }) := by
    intro events control hrest hlisten hpipe hcase
    unfold enter
    split_ifs with hfound
    · rcases hcase with rfl | ⟨rfl, hnot⟩
      · exact sound_still h (hstill _ _) hfound (hattended events _ hrest fun _ _ => rfl)
          (hbuffered _ rfl)
      · exact sound_still h (hstill _ _) hfound (hattended events _ hrest fun hr _ =>
          absurd (hnot.symm.trans hr) Bool.false_ne_true)
          (hbuffered _ rfl)
    · refine sound_still h (hstill _ _) trivial (hattended events _ hrest fun _ hhot => ?_)
        (hbuffered _ rfl)
      have hnone : s.sockets e.fd = none := by
        rw [← h.placed.table, Option.map_eq_none_iff]
        simpa using hfound
      rw [Hot, if_neg hlisten, if_neg hpipe, hotAt, hnone] at hhot
      cases hhot
  unfold dispatch
  split_ifs with hlisten hreadable hpipe hreadable hreadable hboth hwritable
  · exact sound_still h (hstill _ _) trivial (hattended rest _ hsame fun _ _ => hlisten)
      (hbuffered _ rfl)
  · exact sound_still h (hstill _ _) trivial (hattended rest _ hsame fun hr => absurd hr hreadable)
      (hbuffered _ rfl)
  · exact sound_still h (hstill _ _) trivial (hattended rest _ hsame fun _ _ => hpipe)
      (hbuffered _ rfl)
  · exact sound_still h (hstill _ _) trivial (hattended rest _ hsame fun hr => absurd hr hreadable)
      (hbuffered _ rfl)
  · exact hsocket _ _ (fun _ he' => List.mem_cons_of_mem _ he') hlisten hpipe (Or.inl rfl)
  · exact hsocket _ _ hsame hlisten hpipe (Or.inl rfl)
  · exact hsocket _ _ hsame hlisten hpipe (Or.inr ⟨rfl, by simpa using hreadable⟩)
  · have hidle := hattended rest .waiting hsame fun hr => absurd hr hreadable
    rw [← hcontrol] at hidle
    exact sound_still h ⟨rfl, rfl, rfl, rfl, rfl, rfl, rfl, rfl, rfl⟩ h.held hidle (hbuffered _ rfl)

theorem sound_accept (parser : σ) {fd c : ℕ} {rest : List ℕ} (added : Bool)
    (hcontrol : s.control = .accepting)
    (hbacklog : s.backlog = c::rest) (hfree : isFree cfg s fd = true) :
    Sound cfg (if added then addConnection parser fd c { s with backlog := rest }
      else { s with backlog := rest, closed := c::s.closed }) := by
  have hin : c ∈ s.backlog := by
    rw [hbacklog]
    exact List.mem_cons_self
  have hrest : ∀ k ∈ rest, k ∈ s.backlog := by
    intro k hk
    rw [hbacklog]
    exact List.mem_cons_of_mem _ hk
  have hheld : ∀ t : Server σ, t.control = s.control → Held t := by
    intro t ht
    rw [Held, ht, hcontrol]
    trivial
  have hbusy : Serves cfg s.control cfg.listenFd := by
    rw [hcontrol]
    rfl
  split_ifs with hadded
  · refine ⟨placed_accepted h.placed hbacklog parser hfree, hheld _ rfl, ?_, ?_, h.buffered⟩
    · refine streams_same h.streams ?_ ?_ hrest fun gd p hp => ?_
      · rfl
      · rfl
      by_cases he : gd = fd
      · subst he
        have hp : some _ = some p := (Function.update_self gd _ s.connections).symm.trans hp
        obtain rfl := Option.some.inj hp
        exact Or.inr ⟨hin, rfl⟩
      · have hp : s.connections gd = some p :=
          (Function.update_of_ne he _ s.connections).symm.trans hp
        exact Or.inl ⟨p, hp, rfl, rfl⟩
    · obtain ⟨hlisten, hpipe⟩ := free_other hfree
      -- What was there before the socket was registered is reported by the registration.
      have hnew : ∀ gd, Hot cfg (addConnection parser fd c { s with backlog := rest }) gd →
        gd ≠ fd → Hot cfg s gd := by
        intro gd hhot hne
        unfold Hot at hhot ⊢
        split_ifs at hhot ⊢
        · rw [hbacklog]
          exact List.cons_ne_nil _ _
        · exact hhot
        · simpa [hotAt, addConnection, epollAdd, Function.update_of_ne hne] using hhot
      have hthis : Hot cfg (addConnection parser fd c { s with backlog := rest }) fd →
          (addConnection parser fd c { s with backlog := rest }).ready fd = true := by
        intro hhot
        rw [Hot, if_neg hlisten, if_neg hpipe] at hhot
        show Function.update s.ready fd _ fd = true
        rw [Function.update_self]
        exact hhot
      apply watched_step h.attended
      · intro gd hhot
        by_cases he : gd = fd
        · subst he
          exact Or.inr (Or.inl (hthis hhot))
        · exact Or.inl (hnew gd hhot he)
      · intro gd hr hhot
        by_cases he : gd = fd
        · subst he
          exact Or.inl (hthis hhot)
        · refine Or.inl ?_
          simpa [addConnection, epollAdd, Function.update_of_ne he] using hr
      · exact fun gd hb _ => Or.inr hb
  · refine ⟨placed_refused h.placed hbacklog, hheld _ rfl, ?_, ?_, h.buffered⟩
    · exact streams_same h.streams rfl rfl hrest fun gd p hp => Or.inl ⟨p, hp, rfl, rfl⟩
    · apply watched_drain h.attended
      · intro gd hhot
        unfold Hot at hhot ⊢
        split_ifs at hhot ⊢
        · rw [hbacklog]
          exact List.cons_ne_nil _ _
        · exact hhot
        · exact hhot
      · exact fun _ hb _ => hb

theorem sound_acceptAgain (hcontrol : s.control = .accepting) (hbacklog : s.backlog = []) :
    Sound cfg { s with control := .waiting } := by
  refine sound_still h ⟨rfl, rfl, rfl, rfl, rfl, rfl, rfl, rfl, rfl⟩ trivial ?_ fun hne => ?_
  · apply watched_drain h.attended (fun _ hi => hi)
    rintro gd (hb | hserves) hhot
    · exact Or.inl hb
    · rw [hcontrol] at hserves
      obtain rfl : gd = cfg.listenFd := hserves
      rw [Hot, if_pos rfl] at hhot
      exact absurd hbacklog hhot
  · have hb := h.buffered hne
    rw [hcontrol] at hb
    exact hb

theorem sound_readPipe (n : ℕ) (hcontrol : s.control = .readingPipe) :
    Sound cfg { s with readPipeBuffer := s.readPipeBuffer ++ s.pipe.take n,
                       pipe := s.pipe.drop n } := by
  refine sound_still h ⟨rfl, rfl, rfl, rfl, rfl, rfl, rfl, rfl, rfl⟩ h.held ?_ fun _ => ?_
  · apply watched_drain h.attended
    · intro gd hhot
      unfold Hot at hhot ⊢
      split_ifs at hhot ⊢
      · exact hhot
      · rintro hnil
        rw [hnil] at hhot
        exact hhot List.drop_nil
      · exact hhot
    · exact fun _ hb _ => hb
  · rw [hcontrol]
    trivial

theorem sound_pipeAgain (hcontrol : s.control = .readingPipe) (hpipe : s.pipe = []) :
    Sound cfg { s with control := .handlingPipe } := by
  refine sound_still h ⟨rfl, rfl, rfl, rfl, rfl, rfl, rfl, rfl, rfl⟩ trivial ?_ fun _ => trivial
  apply watched_drain h.attended (fun _ hi => hi)
  rintro gd (hb | hserves) hhot
  · exact Or.inl hb
  · rw [hcontrol] at hserves
    obtain rfl : gd = cfg.readPipeFd := hserves
    rw [Hot, if_neg cfg.apart, if_pos rfl] at hhot
    exact absurd hpipe hhot

theorem sound_netExcepter {fd : ℕ} {control : Control} {peer : Peer σ}
    (hpeer : s.connections fd = some peer)
    (hserves : ∀ gd, Serves cfg s.control gd → gd = fd)
    (hheld : Held { netExcepter fd s with control := control })
    (hbuffered : Buffered { netExcepter fd s with control := control }) :
    Sound cfg { netExcepter fd s with control := control } := by
  have heq := netExcepter_eq h.placed hpeer
  obtain ⟨hlisten, hpipe⟩ := socket_other h.placed (peer_socket h.placed hpeer)
  refine ⟨?_, hheld, ?_, ?_, hbuffered⟩
  · exact placed_layout (placed_netExcepter h.placed hpeer) ⟨rfl, rfl, rfl, rfl, rfl, fun _ =>
      rfl, rfl, rfl⟩
  · rw [heq]
    refine streams_same h.streams ?_ ?_ (fun _ hc => hc) fun gd p hp => ?_
    · rfl
    · rfl
    have hne : gd ≠ fd := by
      rintro rfl
      simp at hp
    simp only [Function.update_of_ne hne] at hp
    exact Or.inl ⟨p, hp, rfl, rfl⟩
  · have hgone : ∀ gd, Hot cfg { netExcepter fd s with control := control } gd → gd ≠ fd ∧
      Hot cfg s gd := by
      intro gd hhot
      rw [heq] at hhot
      have hne : gd ≠ fd := by
        rintro rfl
        rw [Hot, if_neg hlisten, if_neg hpipe] at hhot
        simp [hotAt] at hhot
      refine ⟨hne, ?_⟩
      unfold Hot at hhot ⊢
      split_ifs at hhot ⊢
      · exact hhot
      · exact hhot
      · simpa [hotAt, epollDel, Function.update_of_ne hne] using hhot
    apply watched_step h.attended
    · exact fun gd hhot => Or.inl (hgone gd hhot).2
    · intro gd hr hhot
      refine Or.inl ?_
      simpa [heq, epollDel, Function.update_of_ne (hgone gd hhot).1] using hr
    · rintro gd (⟨e, he, hfd⟩ | hserved) hhot
      · refine Or.inr (Or.inl ⟨e, ?_, hfd⟩)
        rwa [heq]
      · exact absurd (hserves gd hserved) (hgone gd hhot).1

omit h in
theorem handling_idle (hcontrol : s.control = .handlingPipe) (gd : ℕ) :
    ¬ Serves cfg s.control gd := by
  rw [hcontrol]
  exact id

theorem sound_pipeDataHandler (m : Notification) (hcontrol : s.control = .handlingPipe) :
    Sound cfg (pipeDataHandler m s) := by
  have hidle : ∀ gd, ¬ Serves cfg s.control gd := handling_idle hcontrol
  unfold pipeDataHandler
  split_ifs with hstale hread hwrite hclose
  · exact h
  · exact sound_enter h (Or.inl rfl) hidle fun _ => rfl
  · exact sound_enter h (Or.inr rfl) hidle fun _ => rfl
  · rw [Bool.or_eq_true, not_or, Option.isNone_iff_eq_none] at hstale
    obtain ⟨peer, hpeer⟩ := Option.ne_none_iff_exists'.mp hstale.1
    have hsame : netExcepter m.netFd
      s = { netExcepter m.netFd s with control := .handlingPipe } := by
      rw [netExcepter_eq h.placed hpeer, ← hcontrol]
      rfl
    rw [hsame]
    exact sound_netExcepter h hpeer (fun gd hserves => absurd hserves (hidle gd)) trivial fun _ =>
      trivial
  · exact h

theorem sound_handled (rest : List Notification) (hcontrol : s.control = .handlingPipe) :
    Sound cfg { s with readPipeBuffer := rest } := by
  refine sound_still h ⟨rfl, rfl, rfl, rfl, rfl, rfl, rfl, rfl, rfl⟩ h.held ?_ fun _ => ?_
  · exact h.attended
  · rw [hcontrol]
    trivial

theorem sound_handledAll (hcontrol : s.control = .handlingPipe) (hempty : s.readPipeBuffer = []) :
    Sound cfg { s with control := .waiting } := by
  refine sound_still h ⟨rfl, rfl, rfl, rfl, rfl, rfl, rfl, rfl, rfl⟩ trivial ?_ fun hne =>
    absurd hempty hne
  exact watched_take h.attended (fun _ hr => Or.inl hr) fun gd hb =>
    Or.inl (hb.resolve_right (handling_idle hcontrol gd))

theorem buffered_caller {fd : ℕ} {inPipe : Bool}
    (hcontrol : s.control = .reading fd inPipe ∨ s.control = .writing fd inPipe) :
    s.readPipeBuffer ≠ [] → inPipe = true := by
  intro hne
  have hb := h.buffered hne
  cases hcontrol with
  | inl hc => rwa [hc] at hb
  | inr hc => rwa [hc] at hb

theorem sound_read {fd c : ℕ} {inPipe : Bool} {peer : Peer σ} (n : ℕ)
    (hcontrol : s.control = .reading fd inPipe)
    (hc : s.sockets fd = some c) (hpeer : s.connections fd = some peer) :
    Sound cfg (netReader fd c n peer s) := by
  refine ⟨?_, ?_, streams_read h.placed h.streams hc hpeer n, ?_, h.buffered⟩
  · refine placed_layout h.placed ⟨rfl, rfl, rfl, rfl, rfl, fun gd => ?_, rfl, rfl⟩
    exact map_update hpeer _ _ gd
  · rw [Held, show (netReader fd c n peer s).control = _ from hcontrol]
    show (Function.update s.connections fd _ fd).isSome = true
    rw [Function.update_self]
    rfl
  · apply watched_drain h.attended
    · intro gd hhot
      unfold Hot at hhot ⊢
      split_ifs at hhot ⊢
      · exact hhot
      · exact hhot
      · refine hotAt_client (hot_drop (s.clients c) n) ?_ ?_ hhot
        · rfl
        · rfl
    · exact fun _ hb _ => hb

theorem sound_back {fd : ℕ} {inPipe : Bool}
    (hcontrol : s.control = .reading fd inPipe ∨ s.control = .writing fd inPipe)
    (hdone : ∀ gd, Serves cfg s.control gd → ¬ Hot cfg s gd) :
    Sound cfg { s with control := back inPipe } := by
  refine sound_still h ⟨rfl, rfl, rfl, rfl, rfl, rfl, rfl, rfl, rfl⟩ (held_back rfl) ?_
    (buffered_back rfl (buffered_caller h hcontrol))
  apply watched_drain h.attended (fun _ hi => hi)
  rintro gd (hb | hserves) hhot
  · exact Or.inl hb
  · exact absurd hhot (hdone gd hserves)

theorem sound_excepted {fd : ℕ} {inPipe : Bool}
    (hcontrol : s.control = .reading fd inPipe ∨ s.control = .writing fd inPipe) :
    Sound cfg { netExcepter fd s with control := back inPipe } := by
  have hfound : (s.connections fd).isSome = true := by
    have hheld := h.held
    cases hcontrol with
    | inl hc => rwa [Held, hc] at hheld
    | inr hc => rwa [Held, hc] at hheld
  obtain ⟨peer, hpeer⟩ := Option.isSome_iff_exists.mp hfound
  apply sound_netExcepter h hpeer
  · intro gd hserves
    cases hcontrol with
    | inl hc => rwa [hc] at hserves
    | inr hc =>
      rw [hc] at hserves
      exact hserves.elim
  · exact held_back rfl
  · apply buffered_back rfl
    rw [netExcepter_eq h.placed hpeer]
    exact buffered_caller h hcontrol

theorem sound_write {fd : ℕ} {inPipe : Bool} {peer : Peer σ} (connection : Connection σ)
    (hcontrol : s.control = .writing fd inPipe)
    (hpeer : s.connections fd = some peer) :
    Sound cfg (epollMod fd { s with
      connections := Function.update s.connections fd (some { peer with connection := connection })
      control := back inPipe }) := by
  refine ⟨?_, held_back rfl, ?_, ?_, buffered_back rfl (buffered_caller h (Or.inr hcontrol))⟩
  · refine placed_layout h.placed ⟨rfl, rfl, rfl, rfl, rfl, fun gd => ?_, rfl, rfl⟩
    exact map_update hpeer _ _ gd
  · exact streams_update h.streams hpeer connection rfl rfl rfl rfl
  · apply watched_step h.attended
    · exact fun _ hi => Or.inl hi
    · intro gd hr _
      refine Or.inl ?_
      by_cases he : gd = fd
      · subst he
        simp [epollMod, hr]
      · simpa [epollMod, Function.update_of_ne he] using hr
    · rintro gd (hb | hserves) _
      · exact Or.inr (Or.inl hb)
      · rw [hcontrol] at hserves
        exact hserves.elim

theorem sound_work {fd : ℕ} {peer : Peer σ} (connection : Connection σ)
    (hpeer : s.connections fd = some peer) :
    Sound cfg { s with
      connections := Function.update s.connections fd
        (some { peer with connection := connection }) } := by
  refine ⟨?_, ?_, streams_update h.streams hpeer connection rfl rfl rfl rfl, h.attended, h.buffered⟩
  · exact placed_layout h.placed ⟨rfl, rfl, rfl, rfl, rfl, map_update hpeer _ _, rfl, rfl⟩
  · have hheld := h.held
    have hsome : ∀ gd, (s.connections gd).isSome = true →
        (Function.update s.connections fd (some { peer with connection := connection })
          gd).isSome = true := by
      intro gd hgd
      by_cases he : gd = fd
      · rw [he, Function.update_self]
        rfl
      · rwa [Function.update_of_ne he]
    unfold Held at hheld ⊢
    dsimp only
    split
    · rename_i gd _ hcontrol
      rw [hcontrol] at hheld
      exact hsome gd hheld
    · rename_i gd _ hcontrol
      rw [hcontrol] at hheld
      exact hsome gd hheld
    · trivial

theorem sound_connect :
    Sound cfg (report cfg.listenFd
      { s with arrivals := s.arrivals+1, backlog := s.backlog ++ [s.arrivals] }) := by
  refine ⟨?_, h.held, ?_, ?_, h.buffered⟩
  · exact placed_layout (placed_connect h.placed) ⟨rfl, rfl, rfl, rfl, rfl, fun _ => rfl, rfl, rfl⟩
  · constructor
    · exact h.streams.served
    · intro c hc
      rcases List.mem_append.mp hc with hold | hnew
      · exact h.streams.queued c hold
      · obtain rfl := List.mem_singleton.mp hnew
        show (s.clients s.arrivals).pending = (s.clients s.arrivals).sent
        rw [h.streams.unborn s.arrivals le_rfl]
    · exact fun c hc => h.streams.unborn c (Nat.le_of_succ_le hc)
  · apply watched_arrive h.attended
    · intro gd hhot
      by_cases he : gd = cfg.listenFd
      · subst he
        exact Or.inr (Function.update_self _ _ _)
      · rw [Hot, if_neg he] at hhot
        rw [Hot, if_neg he]
        exact Or.inl hhot
    · intro gd hr
      by_cases he : gd = cfg.listenFd
      · subst he
        exact Function.update_self _ _ _
      · exact (Function.update_of_ne he _ _).trans hr

theorem sound_notify (m : Notification) :
    Sound cfg (report cfg.readPipeFd { s with pipe := s.pipe ++ [m] }) := by
  refine sound_still h ⟨rfl, rfl, rfl, rfl, rfl, rfl, rfl, rfl, rfl⟩ h.held ?_ h.buffered
  apply watched_arrive h.attended
  · intro gd hhot
    by_cases he : gd = cfg.readPipeFd
    · subst he
      exact Or.inr (Function.update_self _ _ _)
    · rw [Hot, if_neg he] at hhot
      rw [Hot, if_neg he]
      exact Or.inl hhot
  · intro gd hr
    by_cases he : gd = cfg.readPipeFd
    · subst he
      exact Function.update_self _ _ _
    · exact (Function.update_of_ne he _ _).trans hr

theorem sound_client {c : ℕ} (hc : c < s.arrivals) (data : Bytes) (k : Client)
    (hsent : k.sent = (s.clients c).sent ++ data)
    (hpending : k.pending = (s.clients c).pending ++ data) :
    Sound cfg (signal c (setClient c k s)) := by
  refine ⟨?_, h.held, streams_client h.streams hc data k hsent hpending, ?_, h.buffered⟩
  · exact placed_layout h.placed ⟨rfl, rfl, rfl, rfl, rfl, fun _ => rfl, rfl, rfl⟩
  · apply watched_arrive h.attended
    · intro gd hhot
      by_cases he : s.sockets gd = some c
      · have hinterest := (h.placed.watched gd).mpr (Or.inr (Or.inr (by rw [he]; rfl)))
        refine Or.inr ?_
        simp [signal, setClient, he, hinterest]
      · refine Or.inl ?_
        unfold Hot at hhot ⊢
        split_ifs at hhot ⊢
        · exact hhot
        · exact hhot
        · rw [hotAt, Option.any_eq_true] at hhot ⊢
          obtain ⟨d, hd, hdhot⟩ := hhot
          have hne : d ≠ c := by
            rintro rfl
            exact he hd
          exact ⟨d, hd, by rwa [← Function.update_of_ne hne k s.clients]⟩
    · intro gd hr
      simp [signal, setClient, hr]

theorem sound_step (parser : σ) {event : Event σ} {t : Server σ}
    (ht : step cfg parser s event = some t) : Sound cfg t := by
  cases event with
  | connect =>
    cases ht
    exact sound_connect h
  | send c data =>
    simp only [step] at ht
    split_ifs at ht with hguard
    cases ht
    exact sound_client h hguard.1 data _ rfl rfl
  | finish c =>
    simp only [step] at ht
    split_ifs at ht with hc
    cases ht
    exact sound_client h hc [] _ (List.append_nil _).symm (List.append_nil _).symm
  | breakOff c =>
    simp only [step] at ht
    split_ifs at ht with hc
    cases ht
    exact sound_client h hc [] _ (List.append_nil _).symm (List.append_nil _).symm
  | work fd connection =>
    obtain ⟨peer, hpeer, rfl⟩ := Option.map_eq_some_iff.mp ht
    exact sound_work h connection hpeer
  | notify m =>
    cases ht
    exact sound_notify h m
  | openFile fd =>
    simp only [step] at ht
    split_ifs at ht with hfree
    cases ht
    exact ⟨placed_files h.placed hfree, h.held,
      streams_same h.streams rfl rfl (fun _ hc => hc) fun gd p hp =>
      Or.inl ⟨p, hp, rfl, rfl⟩, h.attended, h.buffered⟩
  | closeFile fd =>
    cases ht
    exact ⟨placed_close h.placed fd, h.held,
      streams_same h.streams rfl rfl (fun _ hc => hc) fun gd p hp =>
      Or.inl ⟨p, hp, rfl, rfl⟩, h.attended, h.buffered⟩
  | wait events => exact sound_wait h parser ht
  | next =>
    simp only [step] at ht
    split at ht
    · rename_i e rest hcontrol hevents
      cases ht
      exact sound_dispatch h hcontrol hevents
    · cases ht
  | accept fd added =>
    simp only [step] at ht
    split at ht
    · rename_i c rest hcontrol hbacklog
      split_ifs at ht with hfree hadded
      · cases ht
        have hsound := sound_accept h parser added hcontrol hbacklog hfree
        rwa [if_pos hadded] at hsound
      · cases ht
        have hsound := sound_accept h parser added hcontrol hbacklog hfree
        rwa [if_neg hadded] at hsound
    · cases ht
  | acceptAgain =>
    simp only [step] at ht
    split_ifs at ht with hguard
    cases ht
    exact sound_acceptAgain h hguard.1 hguard.2.1
  | acceptError =>
    simp only [step] at ht
    split_ifs at ht
    cases ht
    exact h
  | readPipe n =>
    simp only [step] at ht
    split_ifs at ht with hcontrol
    cases ht
    exact sound_readPipe h n hcontrol
  | pipeAgain =>
    simp only [step] at ht
    split_ifs at ht with hguard
    cases ht
    exact sound_pipeAgain h hguard.1 hguard.2
  | handleMessage =>
    simp only [step] at ht
    split at ht
    · rename_i hcontrol hempty
      cases ht
      exact sound_handledAll h hcontrol hempty
    · rename_i m rest hcontrol _
      cases ht
      exact sound_pipeDataHandler (sound_handled h rest hcontrol) m hcontrol
    · cases ht
  | read n =>
    simp only [step] at ht
    split at ht
    · rename_i fd inPipe hcontrol
      split at ht
      · rename_i c peer hc hpeer
        split_ifs at ht
        cases ht
        exact sound_read h n hcontrol hc hpeer
      · cases ht
    · cases ht
  | readAgain =>
    simp only [step] at ht
    split at ht
    · rename_i fd inPipe hcontrol
      split_ifs at ht with hcold
      cases ht
      refine sound_back h (Or.inl hcontrol) fun gd hserves hhot => hcold ?_
      rw [hcontrol] at hserves
      obtain rfl : gd = fd := hserves
      have hheld := h.held
      rw [Held, hcontrol] at hheld
      obtain ⟨peer, hpeer⟩ := Option.isSome_iff_exists.mp hheld
      obtain ⟨hlisten, hpipe⟩ := socket_other h.placed (peer_socket h.placed hpeer)
      rwa [Hot, if_neg hlisten, if_neg hpipe] at hhot
    · cases ht
  | readEnd =>
    simp only [step] at ht
    split at ht
    · rename_i fd inPipe hcontrol
      split_ifs at ht
      cases ht
      exact sound_excepted h (Or.inl hcontrol)
    · cases ht
  | readError =>
    simp only [step] at ht
    split at ht
    · rename_i fd inPipe hcontrol
      split_ifs at ht
      cases ht
      exact sound_excepted h (Or.inl hcontrol)
    · cases ht
  | write n =>
    simp only [step] at ht
    split at ht
    · rename_i fd inPipe hcontrol
      obtain ⟨peer, hpeer, rfl⟩ := Option.map_eq_some_iff.mp ht
      exact sound_write h _ hcontrol hpeer
    · cases ht
  | writeAgain =>
    simp only [step] at ht
    split at ht
    · rename_i fd inPipe hcontrol
      cases ht
      refine sound_back h (Or.inr hcontrol) fun gd hserves => ?_
      rw [hcontrol] at hserves
      exact hserves.elim
    · cases ht
  | writeError =>
    simp only [step] at ht
    split at ht
    · rename_i fd inPipe hcontrol
      cases ht
      exact sound_excepted h (Or.inr hcontrol)
    · cases ht
  | interrupted =>
    simp only [step] at ht
    split_ifs at ht
    cases ht
    exact h

end Events

theorem sound_start (cfg : Config) : Sound cfg (Server.start cfg : Server σ) := by
  refine ⟨?_, trivial, ?_, ?_, fun hne => absurd rfl hne⟩
  · constructor
    · exact fun _ => rfl
    · intro fd
      simp [Server.start]
    · exact fun _ _ => rfl
    · exact fun fd gd c hc => by cases hc
    · exact List.nodup_nil
    · exact fun fd c hc => by cases hc
    · intro c
      simp [Server.start]
    · rfl
  · exact ⟨(fun fd p hp => by cases hp), (fun c hc => by cases hc), fun _ _ => rfl⟩
  · intro fd hhot
    unfold Hot at hhot
    split_ifs at hhot
    · exact absurd rfl hhot
    · exact absurd rfl hhot
    · cases hhot

theorem sound_throughout (cfg : Config) (parser : σ) (events : List (Event σ)) :
    Throughout (step cfg parser) (Sound cfg) (Server.start cfg) events :=
  invariant_throughout (fun _ _ _ h _ ht => sound_step h parser ht) (sound_start cfg)
    (meets_trivial _ _)

def Blocked (s : Server σ) : Prop := s.control = .waiting ∧ s.events = [] ∧ ∀ fd, s.ready fd = false

/-- Nobody waits to be accepted, no message and no byte is left to be read, no end of a
connection is overlooked, and every object has all that its client sent. -/
structure AtRest (s : Server σ) : Prop where
  backlog : s.backlog = []
  pipe : s.pipe = [] ∧ s.readPipeBuffer = []
  sockets : ∀ fd c, s.sockets fd = some c →
    (s.clients c).pending = [] ∧ (s.clients c).finished = false ∧ (s.clients c).broken = false
  received : ∀ fd p, s.connections fd = some p → p.received = (s.clients p.client).sent

theorem sound_rest {cfg : Config} {s : Server σ} (h : Sound cfg s) (hb : Blocked s) : AtRest s := by
  obtain ⟨hcontrol, hevents, hready⟩ := hb
  have hcold : ∀ fd, ¬ Hot cfg s fd := by
    apply watched_rest h.attended
    · intro fd hr
      exact Bool.false_ne_true ((hready fd).symm.trans hr)
    · rintro fd (⟨e, he, -⟩ | hserves)
      · rw [hevents] at he
        cases he
      · rw [hcontrol] at hserves
        exact hserves
  have hsockets : ∀ fd c, s.sockets fd = some c →
      (s.clients c).pending = [] ∧ (s.clients c).finished = false ∧
        (s.clients c).broken = false := by
    intro fd c hc
    have hnot := mt (hot_socket h.placed hc).mpr (hcold fd)
    simp only [Client.hot, Bool.or_eq_true, decide_eq_true_eq, not_or, not_not,
      Bool.not_eq_true] at hnot
    exact ⟨hnot.1.1, hnot.1.2, hnot.2⟩
  constructor
  · have hlisten := hcold cfg.listenFd
    rwa [Hot, if_pos rfl, not_not] at hlisten
  · have hpipe := hcold cfg.readPipeFd
    rw [Hot, if_neg cfg.apart, if_pos rfl, not_not] at hpipe
    exact ⟨hpipe, waiting_empty h hcontrol⟩
  · exact hsockets
  · intro fd p hp
    have hserved := h.streams.served fd p hp
    rwa [(hsockets fd p.client (peer_socket h.placed hp)).1, List.append_nil] at hserved

/-- Whatever clients and workers do between any two calls, the dispatcher does not go to sleep
over anything that is left to do. -/
theorem nothing_overlooked (cfg : Config) (parser : σ) (events : List (Event σ)) :
    Throughout (step cfg parser) (fun s => Blocked s → AtRest s) (Server.start cfg) events :=
  throughout_mono (fun _ h => sound_rest h) (sound_throughout cfg parser events)

/-- In every state of every run each client is in one place, its bytes are with its own object
in the order in which it sent them, also where a descriptor was used before, and no descriptor
is closed twice. -/
theorem clients_kept (cfg : Config) (parser : σ) (events : List (Event σ)) :
    Throughout (step cfg parser) (fun s => Placed cfg s ∧
      ∀ fd p, s.connections fd = some p → p.received ++ (s.clients p.client).pending =
        (s.clients p.client).sent)
      (Server.start cfg) events :=
  throughout_mono (fun _ h => ⟨h.placed, h.streams.served⟩) (sound_throughout cfg parser events)

/-- The descriptors that no socket has. -/
def spare (cfg : Config) (s : Server σ) : Finset ℕ :=
  (Finset.range cfg.limit).filter fun fd => cfg.own fd = false ∧ s.sockets fd = none

/-- `SetNonBlock` and `EpollAdd` do not fail. -/
def Adds (_ : Server σ) : Event σ → Prop
  | .accept _ added => added = true
  | _ => True

/-- No descriptor is left over behind the clients in the queue. -/
def Stuck (cfg : Config) (s : Server σ) : Prop :=
  s.control = .accepting ∧ (spare cfg s).card ≤ s.backlog.length

theorem spare_update {cfg : Config} {s t : Server σ} {fd c : ℕ} (hfd : fd ∈ spare cfg s)
    (ht : t.sockets = Function.update s.sockets fd (some c)) :
    (spare cfg t).card+1 = (spare cfg s).card := by
  have herase : spare cfg t = (spare cfg s).erase fd := by
    ext gd
    simp only [spare, Finset.mem_filter, Finset.mem_erase, ht]
    by_cases he : gd = fd
    · subst he
      simp
    · rw [Function.update_of_ne he]
      tauto
  rw [herase, Finset.card_erase_add_one hfd]

theorem free_spare {cfg : Config} {s : Server σ} {fd : ℕ} (hfree : isFree cfg s fd = true) :
    fd ∈ spare cfg s := by
  simp only [isFree, inUse, Bool.and_eq_true, Bool.not_eq_true', Bool.or_eq_false_iff,
    decide_eq_true_eq] at hfree
  simp only [spare, Finset.mem_filter, Finset.mem_range]
  exact ⟨hfree.1, hfree.2.1.1, by simpa using hfree.2.1.2⟩

theorem free_of_room {cfg : Config} {s : Server σ} (h : ¬ Full cfg s) :
    ∃ fd, isFree cfg s fd = true := by
  simp only [Full, not_forall, Bool.not_eq_true] at h
  obtain ⟨fd, hlimit, hunused⟩ := h
  exact ⟨fd, by simp [isFree, hlimit, hunused]⟩

theorem spare_free {cfg : Config} {s : Server σ} {fd : ℕ} (hfd : fd ∈ spare cfg s)
    (hfiles : ∀ fd, s.files fd = false) :
    isFree cfg s fd = true := by
  simp only [spare, Finset.mem_filter, Finset.mem_range] at hfd
  simp [isFree, inUse, hfd, hfiles]

theorem stuck_same {cfg : Config} {s t : Server σ} (h : Stuck cfg s)
    (hcontrol : t.control = s.control)
    (hsockets : t.sockets = s.sockets) (hbacklog : s.backlog.length ≤ t.backlog.length) :
    Stuck cfg t := by
  refine ⟨hcontrol.trans h.1, le_trans ?_ hbacklog⟩
  rw [spare, hsockets]
  exact h.2

theorem stuck_step {cfg : Config} {parser : σ} {s t : Server σ} {event : Event σ} (h : Stuck cfg s)
    (hadds : Adds s event)
    (ht : step cfg parser s event = some t) : Stuck cfg t := by
  have hcontrol := h.1
  cases event with
  | accept fd added =>
    obtain rfl : added = true := hadds
    simp only [step] at ht
    split at ht
    · rename_i c rest _ hbacklog
      split_ifs at ht with hfree
      cases ht
      have hcard := spare_update (t := addConnection parser fd c { s with backlog := rest })
        (free_spare hfree) rfl
      have hless := h.2
      rw [hbacklog, List.length_cons] at hless
      refine ⟨hcontrol, ?_⟩
      show _ ≤ rest.length
      omega
    · cases ht
  | connect =>
    cases ht
    exact stuck_same h rfl rfl (by simp [report])
  | acceptAgain =>
    simp only [step] at ht
    split_ifs at ht with hguard
    obtain ⟨fd, hfree⟩ := free_of_room hguard.2.2
    have hsome := Finset.card_pos.mpr ⟨fd, free_spare hfree⟩
    have hless := h.2
    rw [hguard.2.1, List.length_nil] at hless
    omega
  | send | finish | breakOff | openFile | acceptError =>
    simp only [step] at ht
    split_ifs at ht
    cases ht
    exact stuck_same h rfl rfl le_rfl
  | work =>
    obtain ⟨peer, -, rfl⟩ := Option.map_eq_some_iff.mp ht
    exact stuck_same h rfl rfl le_rfl
  | notify | closeFile =>
    cases ht
    exact stuck_same h rfl rfl le_rfl
  | wait | readPipe | pipeAgain =>
    simp only [step, hcontrol] at ht
    simp at ht
  | next | handleMessage | read | readAgain | readEnd | readError | write | writeAgain
    | writeError =>
    simp only [step, hcontrol] at ht
    cases ht
  | interrupted =>
    simp only [step] at ht
    split_ifs at ht
    cases ht
    exact h

theorem accepts_all {cfg : Config} (parser : σ) {s : Server σ} (hcontrol : s.control = .accepting)
    (hfiles : ∀ fd, s.files fd = false) (hroom : s.backlog.length < (spare cfg s).card) :
    ∃ events t, Meets (step cfg parser) Adds s events ∧ run (step cfg parser) s events = some t ∧
      t.control ≠ .accepting := by
  generalize hqueue : s.backlog = queue at hroom
  induction queue generalizing s with
  | nil =>
    obtain ⟨fd, hfd⟩ := Finset.card_pos.mp hroom
    have hlimit := hfd
    simp only [spare, Finset.mem_filter, Finset.mem_range] at hlimit
    have hunused : inUse cfg s fd = false := by
      simpa [isFree, hlimit.1] using spare_free hfd hfiles
    have hagain : step cfg parser s .acceptAgain = some { s with control := .waiting } :=
      if_pos ⟨hcontrol, hqueue, fun hfull =>
        absurd (hfull fd hlimit.1) (by rw [hunused]; exact Bool.false_ne_true)⟩
    refine ⟨[.acceptAgain], { s with control := .waiting }, fun t _ => ⟨trivial, trivial⟩, ?_, ?_⟩
    · rw [run, hagain, Option.bind_some]
      rfl
    · exact fun he => Control.noConfusion he
  | cons c rest ih =>
    rw [List.length_cons] at hroom
    obtain ⟨fd, hfd⟩ := Finset.card_pos.mp (Nat.lt_trans (Nat.succ_pos _) hroom)
    have hfree := spare_free hfd hfiles
    have hstep : step cfg parser s
      (.accept fd true) = some (addConnection parser fd c { s with backlog := rest }) := by
      simp only [step]
      split
      · rename_i d tail _ hother
        cases hqueue.symm.trans hother
        rw [if_pos hfree]
        rfl
      · rename_i hno
        exact absurd hqueue (hno c rest hcontrol)
    have hcard := spare_update (t := addConnection parser fd c { s with backlog := rest }) hfd rfl
    obtain ⟨events, t, hmeets, hrun, hdone⟩ :=
      ih (s := addConnection parser fd c { s with backlog := rest }) hcontrol hfiles
      rfl (by omega)
    refine ⟨.accept fd true::events, t, ?_, ?_, hdone⟩
    · intro u hu
      rw [hstep] at hu
      cases hu
      exact ⟨rfl, hmeets⟩
    · rw [run, hstep, Option.bind_some, hrun]

/-- `Accepter` comes back if and only if a descriptor is left over behind the clients in the
queue: only then does `accept` say that there is nobody. Otherwise the one thread that reads,
writes and closes stays in its loop for good. -/
theorem accepter_returns (cfg : Config) (parser : σ) (s : Server σ)
    (hcontrol : s.control = .accepting)
    (hfiles : ∀ fd, s.files fd = false) :
    (∃ events t, Meets (step cfg parser) Adds s events ∧ run (step cfg parser) s events = some t ∧
      t.control ≠ .accepting) ↔
      s.backlog.length < (spare cfg s).card := by
  constructor
  · rintro ⟨events, t, hmeets, hrun, hdone⟩
    by_contra hless
    have hstuck : Throughout (step cfg parser) (Stuck cfg) s events :=
      invariant_throughout (fun _ _ _ h hadds ht => stuck_step h hadds ht)
        ⟨hcontrol, not_lt.mp hless⟩ hmeets
    exact hdone (throughout_run hstuck hrun).1
  · exact accepts_all parser hcontrol hfiles

def smallConfig : Config where
  listenFd := 3
  readPipeFd := 4
  own := fun fd => fd < 6
  limit := 8
  tcpBufferReadSize := 1024
  maxEvents := 16
  apart := by decide
  owned := by decide

/-- Two clients come, and one is accepted: the second has a descriptor, the call behind it none. -/
def crowded : Server Unit :=
  ((run (step smallConfig ()) (Server.start smallConfig)
    [.connect, .connect, .wait [⟨3, true, false⟩], .next, .accept 6 true]).getD
      (Server.start smallConfig))

theorem accepter_returns_crowded :
    (∃ events t, Meets (step smallConfig ()) Adds crowded events ∧
      run (step smallConfig ()) crowded events = some t ∧
      t.control ≠ .accepting) ↔ crowded.backlog.length < (spare smallConfig crowded).card :=
  accepter_returns smallConfig () crowded rfl fun _ => rfl

example : ¬ crowded.backlog.length < (spare smallConfig crowded).card := by decide

end CloudBackup.ReadyInput
