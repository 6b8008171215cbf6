import CloudBackup.FileOwnership

/-!
# No name stays reserved by nobody

Any number of connections receive callbacks in any order, serve files and
are destroyed. The reserved names are those of the live connections exactly
as long as every message begins on a connection without an unfinished upload:
`clear` empties the name without releasing it, which the destructor does.
-/

set_option autoImplicit false

namespace CloudBackup.NameRelease
open CloudBackup.ByteStrings CloudBackup.JsonCodec CloudBackup.FilePath CloudBackup.FileStore
open CloudBackup.DataManager CloudBackup.UploadScanner CloudBackup.Download
  CloudBackup.HttpCallbacks
open CloudBackup.RunInvariants CloudBackup.Ownership CloudBackup.NameOwnership
  CloudBackup.FileOwnership

structure Server where
  store : Store
  connections : ℕ → Option HeadInfo

inductive Event where
  | accept (c : ℕ)
  | callback (c : ℕ) (cb : Callback)
  | send (task : SendTask)
  | destroy (c : ℕ)

/-- `none` where the connection does not fit the event or a callback throws. -/
def step (env : Env) (codec : Codec) (srv : Server) : Event → Option Server
  | .accept c =>
    if (srv.connections c).isNone then
      some { srv with connections := Function.update srv.connections c (some {}) }
    else none
  | .callback c cb => (srv.connections c).bind fun h =>
      (callback env codec h srv.store cb).map fun r =>
        { store := r.2.1, connections := Function.update srv.connections c (some r.1) }
  | .send task => some { srv with store := storeAfter (sendFile env task srv.store) }
  | .destroy c => (srv.connections c).map fun h =>
      { store := destruct env h srv.store, connections := Function.update srv.connections c none }

def held (srv : Server) (c : ℕ) : Set Bytes := (srv.connections c).elim ∅ mine

/-- The names registered and not inserted are the unfinished uploads of live connections. -/
def Reserved (srv : Server) : Prop := ∀ name, srv.store.hash.lookup name = some none ↔
  name ≠ [] ∧ ∃ c h, srv.connections c = some h ∧ h.curUploadFile = name

/-- A name that no live connection holds has its record, or is gone together
with its file and can be registered. -/
def Released (env : Env) (srv : Server) : Prop := ∀ name, checkFilename name = true →
  writable env (targetFile env name) = true →
  (∀ c h, srv.connections c = some h → h.curUploadFile ≠ name) →
  (validNode name srv.store).isSome = true ∨
  (srv.store.hash.lookup name = none ∧
    ((∀ other, (srv.store.hash.lookup other).isSome = true →
      targetPath env other ≠ targetPath env name) →
      srv.store.disk.files.lookup (targetPath env name) = none) ∧
    (register env name srv.store).1 = true)

def BeginsIdle (srv : Server) : Event → Prop
  | .callback c .messageBegin => ∀ h, srv.connections c = some h → h.curUploadFile = []
  | _ => True

structure Start (env : Env) (srv : Server) : Prop where
  closed : ∀ c, srv.connections c = none
  settled : ∀ name, srv.store.hash.lookup name ≠ some none
  plain : ∀ p, (p = [] ∨ env.isDirectory p = true) → srv.store.disk.files.lookup p = none
  owned : ∀ name F, checkFilename name = true →
    srv.store.disk.files.lookup (targetPath env name) = some F →
    ∃ other, (srv.store.hash.lookup other).isSome = true ∧
      targetPath env other = targetPath env name

theorem held_live (srv : Server) (c : ℕ) (h : HeadInfo) (hc : srv.connections c = some h) :
    held srv c = mine h := by
  rw [held, hc, Option.elim_some]

theorem held_none (srv : Server) (c : ℕ) (hc : srv.connections c = none) : held srv c = ∅ := by
  rw [held, hc, Option.elim_none]

theorem held_update (store : Store) (connections : ℕ → Option HeadInfo) (c : ℕ)
    (o : Option HeadInfo) :
    held { store := store, connections := Function.update connections c o } =
      Function.update (held { store := store, connections := connections }) c (o.elim ∅ mine) := by
  funext d
  simp only [held]
  by_cases hd : d = c
  · subst hd
    rw [Function.update_self, Function.update_self]
  · rw [Function.update_of_ne hd, Function.update_of_ne hd, held]

theorem held_iff (srv : Server) (name : Bytes) :
    name ∈ ⋃ c, held srv c ↔ name ≠ [] ∧ ∃ c h, srv.connections c = some h ∧
      h.curUploadFile = name := by
  rw [Set.mem_iUnion]
  constructor
  · rintro ⟨c, hc⟩
    cases hcon : srv.connections c with
    | none =>
      rw [held_none srv c hcon] at hc
      exact absurd hc (Set.notMem_empty name)
    | some h =>
      rw [held_live srv c h hcon] at hc
      exact ⟨hc.2, c, h, hcon, hc.1.symm⟩
  · rintro ⟨hne, c, h, hcon, rfl⟩
    refine ⟨c, ?_⟩
    rw [held_live srv c h hcon]
    exact ⟨rfl, hne⟩

theorem reserved_iff (srv : Server) : Reserved srv ↔ reserved srv.store = ⋃ c, held srv c := by
  constructor
  · intro hres
    ext name
    exact (hres name).trans (held_iff srv name).symm
  · intro heq name
    have hmem : name ∈ reserved srv.store ↔ name ∈ ⋃ c, held srv c := by rw [heq]
    exact hmem.trans (held_iff srv name)

def Shared (srv : Server) : Prop := SharedOut (held srv) (reserved srv.store)

theorem shared_reserved (srv : Server) (h : Shared srv) : Reserved srv :=
  (reserved_iff srv).mpr h.all

theorem shared_mine {srv : Server} (hs : Shared srv) {c : ℕ} {h : HeadInfo}
    (hc : srv.connections c = some h) :
    mine h ⊆ reserved srv.store := by
  rw [← held_live srv c h hc]
  exact held_sub hs c

theorem shared_exchange {srv : Server} (hs : Shared srv) (c : ℕ) (o : Option HeadInfo)
    (store : Store)
    (he : Exchange (held srv c) (reserved srv.store) (o.elim ∅ mine) (reserved store)) :
    Shared { store := store, connections := Function.update srv.connections c o } := by
  rw [Shared, held_update]
  exact sharedOut_exchange hs c he

theorem step_shared (env : Env) (codec : Codec) (srv : Server) (e : Event) (srv' : Server)
    (hs : Shared srv)
    (hidle : BeginsIdle srv e) (hstep : step env codec srv e = some srv') : Shared srv' := by
  cases e with
  | accept c =>
    simp only [step] at hstep
    split_ifs at hstep with hc
    cases hstep
    apply shared_exchange hs
    rw [held_none srv c (Option.isNone_iff_eq_none.mp hc), Option.elim_some, mine_idle _ rfl]
    exact exchange_refl (Set.empty_subset _)
  | callback c cb =>
    obtain ⟨h, hc, hrun⟩ := Option.bind_eq_some_iff.mp hstep
    obtain ⟨r, hr, rfl⟩ := Option.map_eq_some_iff.mp hrun
    apply shared_exchange hs
    rw [held_live srv c h hc, Option.elim_some]
    apply callback_exchange env codec h srv.store cb r (shared_mine hs hc) _ hr
    rintro rfl
    exact hidle h hc
  | send task =>
    cases hstep
    have hhash := (sendFile_same env task srv.store).1
    rw [Shared, reserved_same srv.store _ hhash]
    exact hs
  | destroy c =>
    obtain ⟨h, hc, rfl⟩ := Option.map_eq_some_iff.mp hstep
    apply shared_exchange hs
    rw [held_live srv c h hc]
    exact destruct_exchange env h srv.store

theorem step_forgets (env : Env) (codec : Codec) (srv : Server) (e : Event) (srv' : Server)
    (hs : Shared srv)
    (hidle : ¬ BeginsIdle srv e) (hstep : step env codec srv e = some srv') : ¬ Reserved srv' := by
  rw [reserved_iff]
  match e, hidle with
  | .callback c .messageBegin, hidle =>
    simp only [BeginsIdle, not_forall] at hidle
    obtain ⟨h, hc, hcur⟩ := hidle
    have hafter : srv' = { srv with
      connections := Function.update srv.connections c (some (onMessageBegin h)) } := by
      simp only [step, hc, Option.bind_some, callback, Option.map_some] at hstep
      exact (Option.some.inj hstep).symm
    rw [hafter, held_update, Option.elim_some, mine_idle (onMessageBegin h) rfl]
    apply forgotten hs c
    rw [held_live srv c h hc, mine_busy h hcur]
    exact Set.singleton_nonempty _
  | .accept c, hidle | .send task, hidle | .destroy c, hidle => exact absurd trivial hidle
  | .callback c (.method d), hidle | .callback c (.url d), hidle | .callback c .urlComplete, hidle
  | .callback c (.version d), hidle | .callback c (.headerField d),
    hidle | .callback c (.headerValue d), hidle
  | .callback c .headerValueComplete, hidle | .callback c .headersComplete, hidle
  | .callback c (.body d), hidle | .callback c .messageComplete, hidle => exact absurd trivial hidle

theorem step_tidy (env : Env) (codec : Codec) (srv : Server) (e : Event) (srv' : Server)
    (hs : Shared srv)
    (ht : Tidy env srv.store) (hstep : step env codec srv e = some srv') : Tidy env srv'.store := by
  cases e with
  | accept c =>
    simp only [step] at hstep
    split_ifs at hstep
    cases hstep
    exact ht
  | callback c cb =>
    obtain ⟨h, hc, hrun⟩ := Option.bind_eq_some_iff.mp hstep
    obtain ⟨r, hr, rfl⟩ := Option.map_eq_some_iff.mp hrun
    exact callback_tidy ht codec h cb r (shared_mine hs hc) hr
  | send task =>
    cases hstep
    exact (sendFile_same env task srv.store).2 ht
  | destroy c =>
    obtain ⟨h, hc, rfl⟩ := Option.map_eq_some_iff.mp hstep
    exact destruct_tidy ht h

theorem tidy_released (env : Env) (srv : Server) (hs : Shared srv) (ht : Tidy env srv.store) :
    Released env srv := by
  intro name hcheck hw hnobody
  have hfree : srv.store.hash.lookup name ≠ some none := fun hres => by
    obtain ⟨-, c, h, hc, hcur⟩ := (shared_reserved srv hs name).mp hres
    exact hnobody c h hc hcur
  cases hl : srv.store.hash.lookup name with
  | none =>
    refine Or.inr ⟨rfl, fun hothers => ?_, ?_⟩
    · cases hF : srv.store.disk.files.lookup (targetPath env name) with
      | none => rfl
      | some F =>
        obtain ⟨other, ho, hp⟩ := ht.owned name F hcheck hF
        exact absurd hp (hothers other ho)
    · rw [register_clean ht name hw (by rw [registrable, hl, hcheck]; rfl)]
  | some o =>
    cases o with
    | none => exact absurd hl hfree
    | some id =>
      left
      rw [(validNode_iff name srv.store id).mpr hl]
      rfl

theorem start_shared (env : Env) (srv : Server) (h : Start env srv) : Shared srv := by
  have hheld : ∀ c, held srv c = ∅ := fun c => held_none srv c (h.closed c)
  constructor
  · ext name
    simp only [hheld, Set.iUnion_empty, Set.mem_empty_iff_false, iff_false]
    exact h.settled name
  · intro c d _
    rw [hheld c]
    exact Set.empty_disjoint _

/-- Exactly the runs in which every message begins on a connection without an
unfinished upload keep the reserved names with live connections; and then, on
a disk without faults, what nobody holds is released. -/
theorem names_released (env : Env) (codec : Codec) (srv : Server) (events : List Event)
    (hstart : Start env srv) :
    (Throughout (step env codec) Reserved srv events ↔
      Meets (step env codec) BeginsIdle srv events) ∧
    (srv.store.disk.faults = [] → Meets (step env codec) BeginsIdle srv events →
      Throughout (step env codec) (Released env) srv events) := by
  have hshared := start_shared env srv hstart
  constructor
  · exact throughout_iff_meets shared_reserved (step_shared env codec)
      (step_forgets env codec) hshared
  · intro hclean hidle
    have hkeep : ∀ s e t, Shared s ∧ Tidy env s.store → BeginsIdle s e →
      step env codec s e = some t →
        Shared t ∧ Tidy env t.store := fun s e t h hi hst =>
      ⟨step_shared env codec s e t h.1 hi hst, step_tidy env codec s e t h.1 h.2 hst⟩
    exact throughout_mono (fun s h => tidy_released env s h.1 h.2)
      (invariant_throughout hkeep ⟨hshared, hclean, hstart.plain, hstart.owned⟩ hidle)

def freshServer : Server := { store := freshStore, connections := fun _ => none }

theorem freshServer_start : Start plainEnv freshServer where
  closed := fun _ => rfl
  settled := fun name h => by simp [freshServer, freshStore, Store.fresh] at h
  plain := fun p _ => by simp [freshServer, freshStore, Store.fresh]
  owned := fun name F _ hF => by simp [freshServer, freshStore, Store.fresh] at hF

/-- A request whose body stops five bytes into the content of a file. -/
def cutUpload (c : ℕ) : List Event :=
  [.callback c (.method (bytes "POST")), .callback c (.url (bytes "/upload")),
    .callback c .urlComplete,
    .callback c (.version (bytes "1.1")), .callback c (.headerField (bytes "Content-Type")),
    .callback c (.headerValue (bytes "multipart/form-data; boundary=b")),
      .callback c .headerValueComplete,
    .callback c (.headerField (bytes "Content-Length")), .callback c (.headerValue (bytes "26")),
    .callback c .headerValueComplete, .callback c .headersComplete,
    .callback c (.body (bytes "--b\r\nfilename=\"f\"\r\n\r\nhello")), .callback c .messageComplete]

def begins : Event → Bool
  | .callback _ .messageBegin => true
  | _ => false

theorem quiet_meets (env : Env) (codec : Codec) (srv : Server) (events : List Event)
    (h : events.all (fun e => !begins e) = true) :
    Meets (step env codec) BeginsIdle srv events := by
  induction events generalizing srv with
  | nil => trivial
  | cons e es ih =>
    intro t _
    rw [List.all_cons, Bool.and_eq_true] at h
    refine ⟨?_, ih t h.2⟩
    unfold BeginsIdle
    split
    · exact absurd h.1 (by simp [begins])
    · trivial

theorem first_meets (events : List Event) (h : events.all (fun e => !begins e) = true) :
    Meets (step plainEnv plainCodec) BeginsIdle freshServer
      ([.accept 0, .callback 0 .messageBegin] ++ events) := by
  intro srv₁ h₁
  refine ⟨trivial, fun srv₂ _ => ⟨fun g hg => ?_, quiet_meets _ _ srv₂ events h⟩⟩
  obtain rfl := Option.some.inj h₁
  obtain rfl := Option.some.inj hg
  rfl

/-- The next message of the connection leaves the name of the cut upload with nobody. -/
theorem name_leaks :
    Start plainEnv freshServer ∧
    ∃ srv, run (step plainEnv plainCodec) freshServer
        ([.accept 0, .callback 0 .messageBegin] ++ cutUpload 0 ++ [.callback 0 .messageBegin]) =
          some srv ∧
      ¬ Reserved srv := by
  have hrun : (run (step plainEnv plainCodec) freshServer
      ([.accept 0, .callback 0 .messageBegin] ++ cutUpload 0)).map
        (fun srv => (srv.connections 0).map HeadInfo.curUploadFile) = some (some (bytes "f")) := by
          decide +kernel
  obtain ⟨cut, hcut, hhead⟩ := Option.map_eq_some_iff.mp hrun
  obtain ⟨h, hc, hcur⟩ := Option.map_eq_some_iff.mp hhead
  have hshared : Shared cut :=
    throughout_run (invariant_throughout (step_shared plainEnv plainCodec)
    (start_shared plainEnv freshServer freshServer_start)
      (first_meets (cutUpload 0) (by decide))) hcut
  have hlast : step plainEnv plainCodec cut (.callback 0 .messageBegin) =
      some { cut with
        connections := Function.update cut.connections 0 (some (onMessageBegin h)) } := by
    simp only [step, hc, Option.bind_some, callback, Option.map_some]
  refine ⟨freshServer_start, _, ?_, step_forgets plainEnv plainCodec cut _ _ hshared ?_ hlast⟩
  · rw [run_append, hcut, Option.bind_some, run, hlast]
    rfl
  · intro hidle
    rw [hidle h hc] at hcur
    exact absurd hcur (by decide)

/-- The connection of the cut upload is closed instead. -/
theorem names_released_close :
    Throughout (step plainEnv plainCodec) Reserved freshServer
      ([.accept 0, .callback 0 .messageBegin] ++ (cutUpload 0 ++ [.destroy 0])) ∧
    Throughout (step plainEnv plainCodec) (Released plainEnv) freshServer
      ([.accept 0, .callback 0 .messageBegin] ++ (cutUpload 0 ++ [.destroy 0])) := by
  have hmeets := first_meets (cutUpload 0 ++ [.destroy 0]) (by decide)
  obtain ⟨hiff, hreleased⟩ := names_released plainEnv plainCodec freshServer _ freshServer_start
  exact ⟨hiff.mpr hmeets, hreleased rfl hmeets⟩

end CloudBackup.NameRelease
