import CloudBackup.UploadSteps
import CloudBackup.NameIsolation

/-!
# Uploads that do not get in each other's way

`AppendContent` runs under no lock. What keeps two uploads of one name apart
is the reservation that `Register` makes: it is held by one connection until
that connection inserts or deregisters the name, and nobody else appends to
the file meanwhile. A file that is visible has exactly the bytes appended by
the connection that inserted it, unless the disk cuts a write short where
`AppendContent` does not look.
-/

set_option autoImplicit false

namespace CloudBackup.UploadIsolation
open CloudBackup.ByteStrings CloudBackup.FilePath CloudBackup.FileStore CloudBackup.DataManager
open CloudBackup.UploadScanner CloudBackup.UploadSteps CloudBackup.NameIsolation
  CloudBackup.RunInvariants

section History
variable {ι : Type*} [DecidableEq ι]

/-- The connection whose `Register` of the name returned true and that has not
inserted or deregistered it since. -/
def holder (filename : Bytes) : List (Event ι) → Option ι
  | [] => none
  | .registered c name ok::es => if name = filename ∧ ok = true then some c else holder filename es
  | .inserted c name::es | .deregistered c name::es =>
    if name = filename ∧ holder filename es = some c then none else holder filename es
  | .appended _ _ _ _::es | .deleted _::es => holder filename es

/-- The bytes a connection has appended to a name since it registered it. -/
def appended (c : ι) (filename : Bytes) : List (Event ι) → Bytes
  | [] => []
  | .registered d name ok::es =>
      if d = c ∧ name = filename ∧ ok = true then [] else appended c filename es
  | .appended d name content _::es =>
    if d = c ∧ name = filename then appended c filename es ++ content else appended c filename es
  | .inserted _ _::es | .deregistered _ _::es | .deleted _::es => appended c filename es

/-- None of these appends failed. -/
def intact (c : ι) (filename : Bytes) : List (Event ι) → Bool
  | [] => true
  | .registered d name ok::es => (d = c ∧ name = filename ∧ ok = true) || intact c filename es
  | .appended d name _ ok::es => (!(d = c ∧ name = filename) || ok) && intact c filename es
  | .inserted _ _::es | .deregistered _ _::es | .deleted _::es => intact c filename es

/-- The connection that inserted the name last. -/
def author (filename : Bytes) : List (Event ι) → Option ι
  | [] => none
  | .inserted c name::es => if name = filename then some c else author filename es
  | .registered _ _ _::es | .appended _ _ _ _::es | .deregistered _ _::es | .deleted _::es =>
      author filename es

def eventName : Event ι → Bytes
  | .registered _ name _ => name
  | .appended _ name _ _ => name
  | .inserted _ name => name
  | .deregistered _ name => name
  | .deleted name => name

section Other
variable (e : Event ι) (es : List (Event ι)) {filename : Bytes} (hne : eventName e ≠ filename)
include hne

theorem holder_other : holder filename (e::es) = holder filename es := by
  cases e with
  | registered c name ok => exact if_neg fun h => hne h.1
  | appended c name content ok => rfl
  | inserted c name => exact if_neg fun h => hne h.1
  | deregistered c name => exact if_neg fun h => hne h.1
  | deleted name => rfl

omit [DecidableEq ι] in
theorem author_other : author filename (e::es) = author filename es := by
  cases e with
  | inserted c name => exact if_neg hne
  | registered | appended | deregistered | deleted => rfl

theorem appended_other (c : ι) : appended c filename (e::es) = appended c filename es := by
  cases e with
  | registered d name ok => exact if_neg fun h => hne h.2.1
  | appended d name content ok => exact if_neg fun h => hne h.2
  | inserted | deregistered | deleted => rfl

theorem intact_other (c : ι) : intact c filename (e::es) = intact c filename es := by
  cases e with
  | registered d name ok =>
    have hn : name ≠ filename := hne
    simp [intact, hn]
  | appended d name content ok =>
    have hn : name ≠ filename := hne
    simp [intact, hn]
  | inserted | deregistered | deleted => rfl

end Other
end History

/-- A name without NUL other than the two directories that every directory has. -/
def Plain (filename : Bytes) : Prop := 0 ∉ filename ∧ filename ≠ bytes "." ∧ filename ≠ bytes ".."

instance (filename : Bytes) : Decidable (Plain filename) := by
  unfold Plain
  infer_instance

structure Named (filename : Bytes) : Prop where
  accepted : checkFilename filename = true
  plain : Plain filename

section World
variable {ι : Type*} [DecidableEq ι]

/-- What the registrations of the run are promised. -/
def PlainNames (w : World ι) : Label ι → Prop
  | .advance c => match (w.connections c).stage with
    | .opening filename => Plain filename
    | _ => True
  | _ => True

/-- A write that the disk cuts short is long enough for `AppendContent` to notice. -/
def WritesTold (env : Env) (w : World ι) : Label ι → Prop
  | .advance c => match (w.connections c).stage with
    | .copying content _ => w.store.disk.takes content ≠ content → env.streamBuffer ≤ content.length
    | _ => True
  | _ => True

def Appends (w : World ι) (c : ι) (filename : Bytes) : Prop :=
  (w.connections c).head.curUploadFile = filename ∧ ∃ content found,
    (w.connections c).stage = .copying content found

/-- `clean` says that no file operation fails. -/
structure Isolated (env : Env) (clean : Prop) (w : World ι) : Prop where
  reserved : ∀ c filename, holder filename w.history = some c →
    w.store.hash.lookup filename = some none
  excluded : ∀ c filename, holder filename w.history = some c →
    (register env filename w.store).1 = false
  alone : ∀ c filename, Appends w c filename → holder filename w.history = some c
  visible : ∀ filename id, validNode filename w.store = some id → ∃ c,
    author filename w.history = some c ∧
    w.store.disk.files.lookup (targetPath env filename) = some (appended c filename w.history) ∧
    (clean → (w.store.nodes id).info.size = (appended c filename w.history).length)

def World.start (clock : ℕ → ℤ) (disk : Disk) : World ι where
  store := Store.fresh clock disk
  connections := fun _ => { head := {}, stage := .outside }
  history := []

structure NameKnown (env : Env) (clean : Prop) (s : Store) (history : List (Event ι))
    (filename : Bytes) : Prop where
  held : ∀ c, holder filename history = some c → s.hash.lookup filename = some none ∧
    Named filename ∧
    (intact c filename history = true →
      s.disk.files.lookup (targetPath env filename) = some (appended c filename history))
  stored : ∀ id, validNode filename s = some id → Named filename ∧ ∃ c,
    author filename history = some c ∧
    s.disk.files.lookup (targetPath env filename) = some (appended c filename history) ∧
    (clean → (s.nodes id).info.size = (appended c filename history).length)

def Busy : Stage → Prop
  | .copying _ _ => True
  | .releasing => True
  | .measuring => True
  | .inserting _ => True
  | _ => False

structure ConnectionKnown (clean : Prop) (history : List (Event ι)) (c : ι)
    (x : Connection) : Prop where
  owns : x.head.curUploadFile ≠ [] → holder x.head.curUploadFile history = some c
  busy : Busy x.stage → x.head.curUploadFile ≠ []
  intact : x.head.curUploadFile ≠ [] → x.stage ≠ .releasing →
    intact c x.head.curUploadFile history = true
  measured : ∀ size, x.stage = .inserting size → clean →
    size = (appended c x.head.curUploadFile history).length

structure Inv (env : Env) (clean : Prop) (w : World ι) : Prop where
  separate : Separate w.store
  faultless : clean → w.store.disk.faults = []
  names : ∀ filename, NameKnown env clean w.store w.history filename
  connections : ∀ c, ConnectionKnown clean w.history c (w.connections c)

theorem inv_start (env : Env) (clock : ℕ → ℤ) (disk : Disk) :
    Inv env (disk.faults = []) ((World.start clock disk : World ι)) := by
  refine ⟨separate_fresh clock disk, id, fun filename => ⟨?_, ?_⟩, fun c => ⟨?_, ?_, ?_, ?_⟩⟩
  · intro c h
    cases h
  · intro id h
    cases h
  · exact fun h => absurd rfl h
  · exact fun h => h.elim
  · exact fun h => absurd rfl h
  · intro size h
    cases h

theorem inv_isolated (env : Env) (clean : Prop) (w : World ι) (h : Inv env clean w) :
    Isolated env clean w := by
  constructor
  · exact fun c filename hc => ((h.names filename).held c hc).1
  · intro c filename hc
    have hres := ((h.names filename).held c hc).1
    rw [register_refused env filename w.store (by simp [registrable, hres])]
  · rintro c filename ⟨rfl, content, found, hstage⟩
    apply (h.connections c).owns
    apply (h.connections c).busy
    rw [hstage]
    trivial
  · exact fun filename id hid => ((h.names filename).stored id hid).2

structure Elsewhere (env : Env) (filename : Bytes) (s t : Store) : Prop where
  entry : ∀ name, name ≠ filename → t.hash.lookup name = s.hash.lookup name
  record : ∀ name id, name ≠ filename → validNode name s = some id → t.nodes id = s.nodes id
  file : ∀ name, name ≠ filename → Named name →
    t.disk.files.lookup (targetPath env name) = s.disk.files.lookup (targetPath env name)

theorem Elsewhere.refl (env : Env) (filename : Bytes) (s : Store) : Elsewhere env filename s s :=
  ⟨fun _ _ => rfl, fun _ _ _ _ => rfl, fun _ _ _ => rfl⟩

theorem apply_elsewhere {env : Env} (hdep : Deployed env) {filename : Bytes}
    (hf : Named filename) {s : Store}
    (hs : Separate s) (op : Op) : Elsewhere env filename s (apply env filename s op) := by
  constructor
  · exact fun name hne => apply_entry env filename name hne s op
  · exact fun name id hne => apply_record env filename name hne s hs op id
  · intro name hne hn
    apply apply_onlyAt env filename s op
    rw [Ne, targetPath_eq_iff hdep hn.accepted hf.accepted hn.plain.2.1 hn.plain.2.2 hf.plain.2.1
      hf.plain.2.2, cstr_clean name hn.plain.1, cstr_clean filename hf.plain.1]
    exact hne

theorem nameKnown_other {env : Env} {clean : Prop} {s t : Store} {es : List (Event ι)}
    {filename name : Bytes}
    (e : Event ι) (h : NameKnown env clean s es name) (helse : Elsewhere env filename s t)
    (he : eventName e = filename) (hne : name ≠ filename) : NameKnown env clean t (e::es) name := by
  have hev : eventName e ≠ name := fun heq => hne (heq.symm.trans he)
  constructor
  · intro c hc
    rw [holder_other e es hev] at hc
    obtain ⟨hres, hnamed, hfile⟩ := h.held c hc
    rw [helse.entry name hne, intact_other e es hev, appended_other e es hev,
      helse.file name hne hnamed]
    exact ⟨hres, hnamed, hfile⟩
  · intro id hid
    rw [validNode, helse.entry name hne] at hid
    obtain ⟨hnamed, c, hauthor, hfile, hsize⟩ := h.stored id hid
    refine ⟨hnamed, c, ?_⟩
    rw [author_other e es hev, appended_other e es hev, helse.file name hne hnamed,
      helse.record name id hne hid]
    exact ⟨hauthor, hfile, hsize⟩

theorem connectionKnown_kept {clean : Prop} {es es' : List (Event ι)} {c : ι} {x : Connection}
    (h : ConnectionKnown clean es c x)
    (hsame : x.head.curUploadFile ≠ [] →
      holder x.head.curUploadFile es' = holder x.head.curUploadFile es ∧
      UploadIsolation.intact c x.head.curUploadFile es' = UploadIsolation.intact c
        x.head.curUploadFile es ∧
      appended c x.head.curUploadFile es' = appended c x.head.curUploadFile es) :
    ConnectionKnown clean es' c x := by
  constructor
  · intro hne
    rw [(hsame hne).1]
    exact h.owns hne
  · exact h.busy
  · intro hne hstage
    rw [(hsame hne).2.1]
    exact h.intact hne hstage
  · intro size hstage hclean
    have hne := h.busy (by rw [hstage]; trivial)
    rw [(hsame hne).2.2]
    exact h.measured size hstage hclean

theorem connectionKnown_other {clean : Prop} {es : List (Event ι)} {c : ι} {x : Connection}
    (e : Event ι)
    (h : ConnectionKnown clean es c x)
    (hne : x.head.curUploadFile ≠ [] → eventName e ≠ x.head.curUploadFile) :
    ConnectionKnown clean (e::es) c x :=
  connectionKnown_kept h fun hx =>
    ⟨holder_other e es (hne hx), intact_other e es (hne hx) c, appended_other e es (hne hx) c⟩

theorem connectionKnown_idle (clean : Prop) (es : List (Event ι)) (c : ι) (x : Connection)
    (hcur : x.head.curUploadFile = []) (hstage : ¬ Busy x.stage) :
    ConnectionKnown clean es c x := by
  constructor
  · exact fun hne => absurd hcur hne
  · exact fun hb => absurd hb hstage
  · exact fun hne => absurd hcur hne
  · intro size hs
    exact absurd (by rw [hs]; trivial) hstage

section Steps
variable {env : Env} {clean : Prop} {w : World ι} (h : Inv env clean w)
include h

theorem inv_called (filename : Bytes) {t : Store} (c : ι) (x : Connection) (e : Event ι)
    (he : eventName e = filename) (helse : Elsewhere env filename w.store t) (hsep : Separate t)
    (hfaults : clean → t.disk.faults = []) (hname : NameKnown env clean t (e::w.history) filename)
    (hothers : ∀ d, d ≠ c → ConnectionKnown clean (e::w.history) d (w.connections d))
    (hx : ConnectionKnown clean (e::w.history) c x) :
    Inv env clean (called t e (setConnection c x w)) := by
  refine ⟨hsep, hfaults, fun name => ?_, fun d => ?_⟩
  · by_cases hn : name = filename
    · rw [hn]
      exact hname
    · exact nameKnown_other e (h.names name) helse he hn
  · show ConnectionKnown clean (e::w.history) d (Function.update w.connections c x d)
    by_cases hd : d = c
    · rw [hd, Function.update_self]
      exact hx
    · rw [Function.update_of_ne hd]
      exact hothers d hd

theorem inv_set (c : ι) (x : Connection) (hx : ConnectionKnown clean w.history c x) :
    Inv env clean (setConnection c x w) := by
  refine ⟨h.separate, h.faultless, h.names, fun d => ?_⟩
  show ConnectionKnown clean w.history d (Function.update w.connections c x d)
  by_cases hd : d = c
  · rw [hd, Function.update_self]
    exact hx
  · rw [Function.update_of_ne hd]
    exact h.connections d

theorem others_apart {c : ι} {filename : Bytes} (hc : holder filename w.history = some c)
    (e : Event ι)
    (he : eventName e = filename) :
    ∀ d, d ≠ c → ConnectionKnown clean (e::w.history) d (w.connections d) := by
  intro d hd
  apply connectionKnown_other e (h.connections d)
  intro hne heq
  have howns := (h.connections d).owns hne
  rw [← heq, he, hc] at howns
  exact hd (Option.some.inj howns).symm

omit h in
theorem refused_same (c : ι) (filename name : Bytes) (es : List (Event ι)) (d : ι) :
    holder name (.registered c filename false::es) = holder name es ∧
    UploadIsolation.intact d name
      (.registered c filename false::es) = UploadIsolation.intact d name es ∧
    appended d name (.registered c filename false::es) = appended d name es ∧
    author name (.registered c filename false::es) = author name es := by
  refine ⟨if_neg (by simp), ?_, if_neg (by simp), rfl⟩
  simp [UploadIsolation.intact]

omit h in
theorem nameKnown_unregistered (filename : Bytes) {s : Store} (es : List (Event ι))
    (hnone : s.hash.lookup filename = none) (hheld : ∀ c, holder filename es ≠ some c) :
    NameKnown env clean s es filename := by
  constructor
  · exact fun c hc => absurd hc (hheld c)
  · intro id hid
    rw [validNode, hnone] at hid
    cases hid

omit h in
theorem nameKnown_reserved {filename : Bytes} {s : Store} {es : List (Event ι)}
    (hres : s.hash.lookup filename = some none)
    (hheld : ∀ c, holder filename es = some c → Named filename ∧
      (UploadIsolation.intact c filename es = true →
      s.disk.files.lookup (targetPath env filename) = some (appended c filename es))) :
    NameKnown env clean s es filename := by
  constructor
  · exact fun c hc => ⟨hres, hheld c hc⟩
  · intro id hid
    rw [validNode, hres] at hid
    cases hid

theorem inv_registered (hdep : Deployed env) {filename : Bytes} (hf : Named filename) (c : ι)
    (head : HeadInfo)
    (hcur : head.curUploadFile = filename) (hok : (register env filename w.store).1 = true) :
    Inv env clean (called (register env filename w.store).2 (.registered c filename true)
      (setConnection c { head := head, stage := .looping } w)) := by
  have hreg : registrable filename w.store = true := by
    by_contra hn
    rw [register_refused env filename w.store (by simpa using hn)] at hok
    cases hok
  obtain ⟨hnone, hr⟩ := register_free env filename w.store hreg
  have hp : (prepareFile env (targetFile env filename) w.store.disk).1 = true := by
    by_contra hn
    rw [hr, if_neg hn] at hok
    cases hok
  have helse := apply_elsewhere hdep hf h.separate Op.register
  have hholder : holder filename (.registered c filename true::w.history) = some c :=
    if_pos ⟨rfl, rfl⟩
  have happended : appended c filename (.registered c filename true::w.history) = [] :=
    if_pos ⟨rfl, rfl, rfl⟩
  have hintact : UploadIsolation.intact c filename
    (.registered c filename true::w.history) = true := by
    simp [UploadIsolation.intact]
  have hfree : ∀ d, holder filename w.history ≠ some d := by
    intro d hd
    rw [((h.names filename).held d hd).1] at hnone
    cases hnone
  refine inv_called h filename c _ _ rfl helse
    (separate_apply env filename w.store .register h.separate) ?_ ?_ ?_ ?_
  · exact fun hc => apply_clean env filename w.store (h.faultless hc) .register
  · rw [hr, if_pos hp]
    apply nameKnown_reserved (AList.lookup_insert _)
    intro d hd
    rw [hholder] at hd
    obtain rfl := Option.some.inj hd
    refine ⟨hf, fun _ => ?_⟩
    rw [happended]
    exact prepareFile_true env _ _ hp
  · intro d hd
    apply connectionKnown_other _ (h.connections d)
    rintro hne heq
    have heq : filename = (w.connections d).head.curUploadFile := heq
    exact hfree d (heq ▸ (h.connections d).owns hne)
  · constructor
    · intro _
      rw [show ({ head := head, stage := .looping } : Connection).head.curUploadFile =
        filename from hcur]
      exact hholder
    · exact fun hb => hb.elim
    · intro _ _
      rw [show ({ head := head, stage := .looping } : Connection).head.curUploadFile =
        filename from hcur]
      exact hintact
    · intro size hs
      cases hs

theorem inv_unregistered (hdep : Deployed env) {filename : Bytes} (hf : Named filename) (c : ι)
    (head : HeadInfo)
    (hcur : head.curUploadFile = []) (hok : (register env filename w.store).1 = false) :
    Inv env clean (called (register env filename w.store).2 (.registered c filename false)
      (setConnection c { head := head, stage := .looping } w)) := by
  have helse := apply_elsewhere hdep hf h.separate Op.register
  refine inv_called h filename c _ _ rfl helse
    (separate_apply env filename w.store .register h.separate) ?_ ?_ ?_ ?_
  · exact fun hc => apply_clean env filename w.store (h.faultless hc) .register
  · by_cases hreg : registrable filename w.store = true
    · obtain ⟨hnone, hr⟩ := register_free env filename w.store hreg
      have hp : ¬ (prepareFile env (targetFile env filename) w.store.disk).1 = true := by
        intro hp
        rw [hr, if_pos hp] at hok
        cases hok
      rw [hr, if_neg hp]
      refine nameKnown_unregistered filename _ (by exact hnone) ?_
      intro d hd
      rw [(refused_same c filename filename w.history d).1] at hd
      rw [((h.names filename).held d hd).1] at hnone
      cases hnone
    · rw [register_refused env filename w.store (by simpa using hreg)]
      constructor
      · intro d hd
        obtain ⟨hholder, hintact, happended, -⟩ := refused_same c filename filename w.history d
        rw [hholder] at hd
        rw [hintact, happended]
        exact (h.names filename).held d hd
      · intro id hid
        obtain ⟨hnamed, d, hauthor, hfile, hsize⟩ := (h.names filename).stored id hid
        obtain ⟨-, -, happended, hsame⟩ := refused_same c filename filename w.history d
        refine ⟨hnamed, d, ?_⟩
        rw [happended, hsame]
        exact ⟨hauthor, hfile, hsize⟩
  · intro d _
    obtain ⟨hholder, hintact, happended, -⟩ :=
      refused_same c filename (w.connections d).head.curUploadFile w.history d
    exact connectionKnown_kept (h.connections d) fun _ => ⟨hholder, hintact, happended⟩
  · exact connectionKnown_idle clean _ c _ hcur fun hb => hb

section Holder
variable (hdep : Deployed env) {c : ι} {head : HeadInfo} {stage : Stage}
  (hconn : w.connections c = { head := head, stage := stage }) (hcur : head.curUploadFile ≠ [])
include hconn hcur

theorem holds : holder head.curUploadFile w.history = some c := by
  have howns := (h.connections c).owns
  rw [hconn] at howns
  exact howns hcur

theorem holds_intact (hstage : stage ≠ .releasing) :
    UploadIsolation.intact c head.curUploadFile w.history = true := by
  have hintact := (h.connections c).intact
  rw [hconn] at hintact
  exact hintact hcur hstage

theorem holds_file (hstage : stage ≠ .releasing) :
    w.store.disk.files.lookup (targetPath env head.curUploadFile) =
    some (appended c head.curUploadFile w.history) :=
  ((h.names _).held c (holds h hconn hcur)).2.2 (holds_intact h hconn hcur hstage)

include hdep

theorem inv_appended (content : Bytes) (next : Stage) (hstage : stage ≠ .releasing)
    (htold : w.store.disk.takes content ≠ content → env.streamBuffer ≤ content.length)
    (hnext : (appendContent env (targetFile env head.curUploadFile) content w.store.disk).1 = false
      → next = .releasing)
    (hsize : ∀ size, next ≠ .inserting size) :
    Inv env clean (called { w.store with
        disk := (appendContent env (targetFile env head.curUploadFile) content w.store.disk).2 }
      (.appended c head.curUploadFile content
        (appendContent env (targetFile env head.curUploadFile) content w.store.disk).1)
      (setConnection c { head := head, stage := next } w)) := by
  obtain ⟨a, ha⟩ : ∃ a, a = appendContent env (targetFile env head.curUploadFile) content
    w.store.disk := ⟨_, rfl⟩
  have hc := holds h hconn hcur
  obtain ⟨hres, hnamed, -⟩ := (h.names _).held c hc
  have hfile := holds_file h hconn hcur hstage
  have helse := apply_elsewhere hdep hnamed h.separate (Op.append content)
  have hclean := fun hcl =>
    apply_clean env head.curUploadFile w.store (h.faultless hcl) (.append content)
  have hsep := separate_apply env head.curUploadFile w.store (.append content) h.separate
  rw [← ha] at hnext ⊢
  simp only [apply, ← ha] at helse hclean hsep
  have hholder : holder head.curUploadFile
    (.appended c head.curUploadFile content a.1::w.history) = some c := hc
  have happended : appended c head.curUploadFile
    (.appended c head.curUploadFile content a.1::w.history) =
      appended c head.curUploadFile w.history ++ content := if_pos ⟨rfl, rfl⟩
  have hintact : UploadIsolation.intact c head.curUploadFile
      (.appended c head.curUploadFile content a.1::w.history) = a.1 := by
    simp [UploadIsolation.intact, holds_intact h hconn hcur hstage]
  refine inv_called h head.curUploadFile c _ _ rfl helse hsep hclean ?_ (others_apart h hc _ rfl) ?_
  · apply nameKnown_reserved (by exact hres)
    intro d hd
    rw [hholder] at hd
    obtain rfl := Option.some.inj hd
    refine ⟨hnamed, fun hi => ?_⟩
    rw [hintact, ha] at hi
    rw [happended]
    show a.2.files.lookup _ = _
    rw [ha]
    have hall : w.store.disk.takes content = content := by
      by_contra hcut
      exact hcut (appendContent_honest env _ content w.store.disk (htold hcut) hi)
    have htrue := lands_lookup ⟨hi, hall⟩
    rw [show w.store.disk.files.lookup (cstr (targetFile env head.curUploadFile)) = _
      from hfile] at htrue
    exact htrue
  · constructor
    · exact fun _ => hholder
    · exact fun _ => hcur
    · intro _ hn
      rw [hintact]
      by_contra hfail
      exact hn (hnext (by simpa using hfail))
    · exact fun size hs => absurd hs (hsize size)

theorem inv_released (x : Connection) (hx : x.head.curUploadFile = []) (hbusy : ¬ Busy x.stage) :
    Inv env clean (called (deregister env head.curUploadFile w.store).2
      (.deregistered c head.curUploadFile)
      (setConnection c x w)) := by
  have hc := holds h hconn hcur
  obtain ⟨hres, hnamed, -⟩ := (h.names _).held c hc
  have helse := apply_elsewhere hdep hnamed h.separate Op.deregister
  have hholder : holder head.curUploadFile (.deregistered c head.curUploadFile::w.history) = none :=
    if_pos ⟨rfl, hc⟩
  refine inv_called h head.curUploadFile c _ _ rfl helse
    (separate_apply env head.curUploadFile w.store .deregister h.separate) ?_ ?_
      (others_apart h hc _ rfl) ?_
  · exact fun hcl => apply_clean env head.curUploadFile w.store (h.faultless hcl) .deregister
  · refine nameKnown_unregistered head.curUploadFile _ (AList.lookup_erase _ _) ?_
    intro d hd
    rw [hholder] at hd
    cases hd
  · exact connectionKnown_idle clean _ c x hx hbusy

omit hdep in
theorem inv_measured (hstage : stage ≠ .releasing) (z : ℤ × Disk)
    (hz : z = getFileSize (targetFile env head.curUploadFile) w.store.disk) :
    Inv env clean (setConnection c { head := head, stage := .inserting z.1 }
      { w with store := { w.store with disk := z.2 } }) := by
  have hfile := holds_file h hconn hcur hstage
  have hfiles : z.2.files = w.store.disk.files := by
    rw [hz]
    exact getFileSize_files _ _
  have hclean : clean → z = (((appended c head.curUploadFile w.history).length : ℤ),
    w.store.disk) := by
    intro hcl
    rw [hz]
    exact getFileSize_clean (h.faultless hcl) _ _ hfile
  have hnames : ∀ name, NameKnown env clean { w.store with disk := z.2 } w.history name := by
    intro name
    have hname := h.names name
    constructor
    · show ∀ d, _ → _ ∧ _ ∧ (_ → z.2.files.lookup (targetPath env name) = _)
      rw [hfiles]
      exact hname.held
    · show ∀ id, _ → _ ∧ ∃ d, _ ∧ z.2.files.lookup (targetPath env name) = _ ∧ _
      rw [hfiles]
      exact hname.stored
  have hinv : Inv env clean { w with store := { w.store with disk := z.2 } } := by
    refine ⟨separate_of_fewer h.separate rfl fun _ _ hv => hv, fun hcl => ?_, hnames, h.connections⟩
    show z.2.faults = []
    rw [hclean hcl]
    exact h.faultless hcl
  apply inv_set hinv
  constructor
  · exact fun _ => holds h hconn hcur
  · exact fun _ => hcur
  · exact fun _ _ => holds_intact h hconn hcur hstage
  · intro size hs hcl
    obtain rfl : z.1 = size := Stage.inserting.inj hs
    rw [hclean hcl]

theorem inv_inserted (size : ℤ) (hstage : stage = .inserting size) (x : Connection)
    (hx : x.head.curUploadFile = []) (hbusy : ¬ Busy x.stage) :
    Inv env clean (called (DataManager.insert head.curUploadFile size w.store).2
      (.inserted c head.curUploadFile)
      (setConnection c x w)) := by
  have hc := holds h hconn hcur
  obtain ⟨hres, hnamed, -⟩ := (h.names _).held c hc
  have hfile := holds_file h hconn hcur (by rw [hstage]; intro hn; cases hn)
  have hsize := (h.connections c).measured size
  rw [hconn] at hsize
  have helse := apply_elsewhere hdep hnamed h.separate (Op.insert size)
  refine inv_called h head.curUploadFile c _ _ rfl helse
    (separate_apply env head.curUploadFile w.store (.insert size) h.separate) ?_ ?_
      (others_apart h hc _ rfl) ?_
  · exact fun hcl => apply_clean env head.curUploadFile w.store (h.faultless hcl) (.insert size)
  · rw [insert_reserved head.curUploadFile size w.store hres]
    constructor
    · intro d hd
      have hholder : holder head.curUploadFile (.inserted c head.curUploadFile::w.history) = none :=
        if_pos ⟨rfl, hc⟩
      rw [hholder] at hd
      cases hd
    · intro id hid
      have hlookup : ((w.store.hash.insert head.curUploadFile (some w.store.nextNode)).lookup
        head.curUploadFile).join = some id := hid
      rw [AList.lookup_insert] at hlookup
      obtain rfl : w.store.nextNode = id := Option.some.inj hlookup
      refine ⟨hnamed, c, if_pos rfl, hfile, fun hcl => ?_⟩
      show (Function.update w.store.nodes w.store.nextNode _ w.store.nextNode).info.size = _
      rw [Function.update_self]
      exact hsize hstage hcl
  · exact connectionKnown_idle clean _ c x hx hbusy

end Holder

theorem inv_deleted (hdep : Deployed env) (filename : Bytes) :
    Inv env clean (called (delete env filename w.store).2 (.deleted filename) w) := by
  have hconnections : ∀ c, ConnectionKnown clean (.deleted filename::w.history) c
    (w.connections c) :=
    fun c => connectionKnown_kept (h.connections c) fun _ => ⟨rfl, rfl, rfl⟩
  have hsep := separate_apply env filename w.store .delete h.separate
  have hclean := fun hcl => apply_clean env filename w.store (h.faultless hcl) .delete
  refine ⟨hsep, hclean, fun name => ?_, hconnections⟩
  cases hv : validNode filename w.store with
  | none =>
    show NameKnown env clean (delete env filename w.store).2 (.deleted filename::w.history) name
    rw [delete_refused env filename w.store hv]
    exact ⟨(h.names name).held, (h.names name).stored⟩
  | some id =>
    have hnamed := ((h.names filename).stored id hv).1
    by_cases hn : name = filename
    · subst hn
      refine nameKnown_unregistered name _ ?_ ?_
      · show (delete env name w.store).2.hash.lookup name = none
        rw [delete_hash env name w.store id hv, AList.lookup_erase]
      · intro c hc
        rw [validNode, ((h.names name).held c hc).1] at hv
        cases hv
    · exact nameKnown_other _ (h.names name) (apply_elsewhere hdep hnamed h.separate .delete) rfl hn

theorem inv_kept {c : ι} (hstage : (w.connections c).stage ≠ .releasing) (x : Connection)
    (hcur : x.head.curUploadFile = (w.connections c).head.curUploadFile)
    (hbusy : Busy x.stage → x.head.curUploadFile ≠ []) (hsize : ∀ size, x.stage ≠ .inserting size) :
    Inv env clean (setConnection c x w) := by
  have hconn := h.connections c
  apply inv_set h
  constructor
  · rw [hcur]
    exact hconn.owns
  · exact hbusy
  · rw [hcur]
    exact fun hne _ => hconn.intact hne hstage
  · exact fun size hs => absurd hs (hsize size)

omit h in
theorem scanHead_kept (head : HeadInfo) (x : Connection) (hx : scanned (scanHead head) = some x) :
    x.head.curUploadFile = head.curUploadFile ∧ ¬ Busy x.stage := by
  unfold scanHead at hx
  dsimp only at hx
  split_ifs at hx <;> simp only [scanned, Option.some.injEq, reduceCtorEq] at hx <;> subst hx <;>
    exact ⟨rfl, id⟩

omit h in
/-- A scan keeps the name, and copies only for a name. -/
theorem scan_kept (head : HeadInfo) (x : Connection) (hx : scanned (scan head) = some x) :
    x.head.curUploadFile = head.curUploadFile ∧ (Busy x.stage → x.head.curUploadFile ≠ []) ∧
      ∀ size, x.stage ≠ .inserting size := by
  unfold scan at hx
  split_ifs at hx with hcur
  · have hkept : x.head.curUploadFile = head.curUploadFile ∧ ¬ Busy x.stage := by
      unfold scanSearch at hx
      dsimp only at hx
      split_ifs at hx
      · cases hx
        exact ⟨rfl, id⟩
      · have hhead := scanHead_kept _ x hx
        exact hhead
      · exact scanHead_kept _ x hx
    refine ⟨hkept.1, fun hb => absurd hb hkept.2, fun size hs => hkept.2 ?_⟩
    rw [hs]
    trivial
  · simp only [scanFile, scanned, Option.some.injEq] at hx
    subst hx
    refine ⟨rfl, fun _ => hcur, fun size => ?_⟩
    dsimp only
    unfold afterAppend
    split_ifs <;> exact fun hs => by cases hs

end Steps

theorem inv_advance {env : Env} (hdep : Deployed env) (clean : Prop) (w w' : World ι) (c : ι)
    (h : Inv env clean w)
    (hplain : PlainNames w (.advance c)) (htold : WritesTold env w (.advance c))
    (hstep : advance env c w = some w') : Inv env clean w' := by
  obtain ⟨head, stage, hconn⟩ : ∃ head stage, w.connections c = { head := head, stage := stage } :=
    ⟨_, _, rfl⟩
  have hknown := h.connections c
  rw [hconn] at hknown
  rw [advance, hconn] at hstep
  cases stage with
  | closed => cases hstep
  | outside => cases hstep
  | looping =>
    have hnot : (w.connections c).stage ≠ .releasing := by
      rw [hconn]
      exact fun hs => by cases hs
    dsimp only at hstep
    split_ifs at hstep
    · obtain ⟨x, hx, rfl⟩ := Option.map_eq_some_iff.mp hstep
      obtain ⟨hcur, hbusy, hsize⟩ := scan_kept head x hx
      exact inv_kept h hnot x (by rw [hconn]; exact hcur) hbusy hsize
    · cases hstep
      exact inv_kept h hnot _ (by rw [hconn]) (fun hb => hb.elim) fun size hs => by cases hs
  | opening filename =>
    dsimp only at hstep
    by_cases hcheck : checkFilename filename = true
    · have hp : Plain filename := by
        rw [PlainNames, hconn] at hplain
        exact hplain
      have hnamed : Named filename := ⟨hcheck, hp⟩
      rw [if_neg (by simpa using hcheck)] at hstep
      cases hstep
      cases hok : (register env filename w.store).1 with
      | true => exact inv_registered h hdep hnamed c _ rfl hok
      | false => exact inv_unregistered h hdep hnamed c _ rfl hok
    · rw [if_pos (by simpa using hcheck)] at hstep
      cases hstep
      exact inv_set h c _ (connectionKnown_idle clean _ c _ rfl fun hb => hb)
  | copying content found =>
    cases hstep
    apply inv_appended h hdep hconn (hknown.busy trivial) content
    · exact fun hs => by cases hs
    · rw [WritesTold, hconn] at htold
      exact htold
    · intro hfail
      rw [if_neg (by simpa using hfail)]
    · intro size
      unfold afterAppend
      split_ifs <;> exact fun hs => by cases hs
  | releasing =>
    cases hstep
    exact inv_released h hdep hconn (hknown.busy trivial) _ rfl fun hb => hb
  | measuring =>
    cases hstep
    exact inv_measured h hconn (hknown.busy trivial) (fun hs => by cases hs) _ rfl
  | inserting size =>
    cases hstep
    exact inv_inserted h hdep hconn (hknown.busy trivial) size rfl _ rfl fun hb => hb

omit [DecidableEq ι] in
theorem waiting_outside {c : ι} {w : World ι} (h : waiting c w = true) :
    (w.connections c).stage = .outside := by
  unfold waiting at h
  split at h
  · assumption
  · cases h

theorem inv_step {env : Env} (hdep : Deployed env) (clean : Prop) (w : World ι) (l : Label ι)
    (w' : World ι)
    (h : Inv env clean w) (hmet : PlainNames w l ∧ WritesTold env w l)
    (hstep : step env w l = some w') :
    Inv env clean w' := by
  have hnot : ∀ c, waiting c w = true → (w.connections c).stage ≠ .releasing := by
    intro c hc hs
    rw [waiting_outside hc] at hs
    cases hs
  cases l with
  | advance c => exact inv_advance hdep clean w w' c h hmet.1 hmet.2 hstep
  | delete filename =>
    cases hstep
    exact inv_deleted h hdep filename
  | messageBegin c =>
    simp only [step] at hstep
    split_ifs at hstep with hwait
    cases hstep
    exact inv_set h c _ (connectionKnown_idle clean _ c _ rfl fun hb => hb)
  | headersComplete c boundary =>
    simp only [step] at hstep
    split_ifs at hstep with hwait
    cases hstep
    exact inv_kept h (hnot c hwait) _ rfl (fun hb => hb.elim) fun size hs => by cases hs
  | body c data =>
    simp only [step] at hstep
    split_ifs at hstep with hwait
    cases hstep
    exact inv_kept h (hnot c hwait) _ rfl (fun hb => hb.elim) fun size hs => by cases hs
  | destroy c =>
    simp only [step] at hstep
    split_ifs at hstep with hwait hcur
    · cases hstep
      exact inv_set h c _ (connectionKnown_idle clean _ c _ rfl fun hb => hb)
    · cases hstep
      obtain ⟨head, stage, hconn⟩ : ∃ head stage,
        w.connections c = { head := head, stage := stage } := ⟨_, _, rfl⟩
      rw [hconn] at hcur ⊢
      exact inv_released h hdep hconn hcur _ rfl fun hb => hb

/-- In every interleaving a reserved name belongs to one connection, and a
visible file is what its connection has appended. -/
theorem uploads_isolated (env : Env) (hdep : Deployed env) (clock : ℕ → ℤ) (disk : Disk)
    (labels : List (Label ι))
    (hplain : Meets (step env) PlainNames (World.start clock disk) labels)
    (htold : Meets (step env) (WritesTold env) (World.start clock disk) labels) :
    Throughout (step env) (Isolated env (disk.faults = [])) (World.start clock disk) labels :=
  throughout_mono (inv_isolated env _)
    (invariant_throughout (inv_step hdep _) (inv_start env clock disk) (meets_and hplain htold))

instance (w : World ι) : (l : Label ι) → Decidable (PlainNames w l)
  | .advance c => by
    unfold PlainNames
    dsimp only
    split <;> infer_instance
  | .messageBegin _ | .headersComplete _ _ | .body _ _ | .destroy _ | .delete _ => isTrue trivial

instance (env : Env) (w : World ι) : (l : Label ι) → Decidable (WritesTold env w l)
  | .advance c => by
    unfold WritesTold
    dsimp only
    split <;> infer_instance
  | .messageBegin _ | .headersComplete _ _ | .body _ _ | .destroy _ | .delete _ => isTrue trivial

end World

def smallPart : Bytes := bytes "--b\r\nfilename=\"f\"\r\n\r\nhi\r\n--b--\r\n"

/-- The second connection is refused while the first uploads the name, and uploads
it itself once it is deleted. -/
def contended : List (Label ℕ) :=
  [.headersComplete 0 (bytes "--b"), .body 0 smallPart, .headersComplete 1 (bytes "--b"),
    .body 1 smallPart,
    .advance 0, .advance 1, .advance 0, .advance 1, .advance 0, .advance 1, .advance 0,
      .advance 0, .advance 0,
    .delete (bytes "f"), .advance 0, .body 1 smallPart, .advance 1, .advance 1,
      .advance 1, .advance 1,
    .advance 1, .advance 1, .destroy 0]

theorem uploads_isolated_contended :
    Throughout (step plainEnv) (Isolated plainEnv (([] : List (Option Fault)) = []))
      (World.start (fun _ => 0) { files := ∅, faults := [] }) contended :=
  uploads_isolated plainEnv ⟨by decide, by decide⟩ (fun _ => 0)
    { files := ∅, faults := [] } contended
    (by decide +kernel) (by decide +kernel)

/-- The disk takes the first of the two bytes that are written to the file. -/
def fullDisk : Disk := { files := ∅, faults := [none, some (.cut 1)] }

def cutUpload : List (Label ℕ) :=
  [.headersComplete 0 (bytes "--b"), .body 0 smallPart, .advance 0, .advance 0, .advance 0,
    .advance 0, .advance 0, .advance 0]

/-- A file with a part of its bytes is inserted. -/
theorem cut_write_visible :
    ¬ Throughout (step plainEnv) (Isolated plainEnv (fullDisk.faults = []))
      (World.start (fun _ => 0) fullDisk) cutUpload := by
  intro h
  have hrun : (run (step plainEnv) (World.start (fun _ => 0) fullDisk) cutUpload).map (fun w =>
      (validNode (bytes "f") w.store, author (bytes "f") w.history,
        appended 0 (bytes "f") w.history,
        w.store.disk.files.lookup (targetPath plainEnv (bytes "f")))) =
      some (some 0, some 0, bytes "hi", some (bytes "h")) := by
    decide +kernel
  obtain ⟨w, hw, hfields⟩ := Option.map_eq_some_iff.mp hrun
  simp only [Prod.mk.injEq] at hfields
  obtain ⟨hvalid, hauthor, happended, hfile⟩ := hfields
  obtain ⟨c, hc, hwhole, -⟩ := (throughout_run h hw).visible (bytes "f") 0 hvalid
  rw [hauthor] at hc
  obtain rfl := Option.some.inj hc
  rw [happended, hfile] at hwhole
  exact absurd hwhole (by decide)

end CloudBackup.UploadIsolation
