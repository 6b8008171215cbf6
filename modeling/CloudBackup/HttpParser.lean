import CloudBackup.HttpCallbacks

/-!
# The HTTP parser

`llhttp` is given a connection's bytes slice by slice. It makes the callbacks
of the slice and comes back at its end, at an error, or behind the last byte
of a message, where `on_message_complete` pauses it. All that is used of it
is that it reads the stream the same however it is sliced.
-/

set_option autoImplicit false

namespace CloudBackup.HttpParser
open CloudBackup.ByteStrings CloudBackup.HttpCallbacks

inductive Verdict where
  | ok
  | paused (errorPos : ℕ)
  | failed
  deriving DecidableEq

structure Execution (σ : Type) where
  calls : List Callback
  verdict : Verdict
  parser : σ

structure Llhttp (σ : Type) where
  execute : σ → Bytes → Execution σ
  resume : σ → σ

variable {σ : Type}

def Verdict.behind (n : ℕ) : Verdict → Verdict
  | .ok => .ok
  | .paused errorPos => .paused (n+errorPos)
  | .failed => .failed

/-- A pause comes with the callback that asked for it and depends on the bytes
before it only; the parser goes on where a slice ended. -/
structure Incremental (lib : Llhttp σ) : Prop where
  nothing : ∀ p, lib.execute p [] = { calls := [], verdict := .ok, parser := p }
  within : ∀ p data n, (lib.execute p data).verdict = .paused n → n ≤ data.length
  stops : ∀ p data n rest, (lib.execute p data).verdict = .paused n →
    lib.execute p (data.take n ++ rest) = lib.execute p data
  goesOn : ∀ p a b, (lib.execute p a).verdict = .ok →
    (lib.execute p (a ++ b)).verdict =
      (lib.execute (lib.execute p a).parser b).verdict.behind a.length ∧
    (lib.execute p (a ++ b)).parser = (lib.execute (lib.execute p a).parser b).parser
  answers : ∀ p data n, (lib.execute p data).verdict = .paused n →
    ∃ calls, (lib.execute p data).calls = calls ++ [.messageComplete] ∧ .messageComplete ∉ calls
  quiet : ∀ p data, (∀ n, (lib.execute p data).verdict ≠ .paused n) →
    .messageComplete ∉ (lib.execute p data).calls

/-- The stream `requests.flatten ++ rest` is read from `p` as these messages and
the beginning `rest` of another, which leaves the parser in `q`. -/
def Splits (lib : Llhttp σ) : σ → List Bytes → Bytes → σ → Prop
  | p, [], rest, q => (lib.execute p rest).verdict = .ok ∧ (lib.execute p rest).parser = q
  | p, r::rs, rest, q => (lib.execute p r).verdict = .paused r.length ∧
      Splits lib (lib.resume (lib.execute p r).parser) rs rest q

section
variable {lib : Llhttp σ} (hinc : Incremental lib)
include hinc

theorem splits_nil (p : σ) : Splits lib p [] [] p := by
  simp only [Splits, hinc.nothing p, and_self]

theorem splits_part {p q : σ} {rs : List Bytes} {rest : Bytes} (h : Splits lib p rs rest q)
    (slice : Bytes)
    (hok : (lib.execute q slice).verdict = .ok) :
    Splits lib p rs (rest ++ slice) (lib.execute q slice).parser := by
  induction rs generalizing p with
  | nil =>
    obtain ⟨hv, rfl⟩ := h
    obtain ⟨hverdict, hparser⟩ := hinc.goesOn p rest slice hv
    constructor
    · rw [hverdict, hok, Verdict.behind]
    · exact hparser
  | cons r rs ih => exact ⟨h.1, ih h.2⟩

theorem splits_message {p q : σ} {rs : List Bytes} {rest : Bytes} (h : Splits lib p rs rest q)
    (slice : Bytes)
    (hpaused : (lib.execute q slice).verdict = .paused slice.length) :
    Splits lib p (rs ++ [rest ++ slice]) [] (lib.resume (lib.execute q slice).parser) := by
  induction rs generalizing p with
  | nil =>
    obtain ⟨hv, rfl⟩ := h
    obtain ⟨hverdict, hparser⟩ := hinc.goesOn p rest slice hv
    rw [List.nil_append, Splits, hverdict, hpaused, hparser, Verdict.behind, List.length_append]
    exact ⟨rfl, splits_nil hinc _⟩
  | cons r rs ih => exact ⟨h.1, ih h.2⟩

theorem message_unique (p : σ) (r r' rest rest' : Bytes)
    (hr : (lib.execute p r).verdict = .paused r.length)
    (hr' : (lib.execute p r').verdict = .paused r'.length)
    (heq : r ++ rest = r' ++ rest') : r = r' := by
  have hall := hinc.stops p r r.length rest hr
  have hall' := hinc.stops p r' r'.length rest' hr'
  rw [List.take_length] at hall hall'
  rw [heq, hall'] at hall
  rw [← hall, hr'] at hr
  have hlen : r.length = r'.length := (Verdict.paused.inj hr).symm
  exact (List.append_inj heq hlen).1

theorem unfinished_short (p : σ) (r rest tail : Bytes)
    (hr : (lib.execute p r).verdict = .paused r.length)
    (hok : (lib.execute p rest).verdict = .ok) : r ++ tail ≠ rest := by
  rintro rfl
  have hall := hinc.stops p r r.length tail hr
  rw [List.take_length] at hall
  rw [hall, hr] at hok
  cases hok

/-- However the beginning of a stream was read, its messages are the first ones
of the stream. -/
theorem splits_first {p q q' : σ} {rs rs' : List Bytes} {rest rest' more : Bytes}
    (h : Splits lib p rs rest q)
    (h' : Splits lib p rs' rest' q') (heq : rs'.flatten ++ rest' = (rs.flatten ++ rest) ++ more) :
    rs <+: rs' := by
  induction rs generalizing p rs' with
  | nil => exact List.nil_prefix
  | cons r rs ih =>
    cases rs' with
    | nil =>
      simp only [List.flatten_nil, List.nil_append, List.flatten_cons, List.append_assoc] at heq
      exact absurd heq.symm (unfinished_short hinc p r rest' _ h.1 h'.1)
    | cons r' rs' =>
      simp only [List.flatten_cons, List.append_assoc] at heq
      have hsame : r' = r := message_unique hinc p r' r _ _ h'.1 h.1 heq
      subst hsame
      have hrest := List.append_cancel_left heq
      exact List.cons_prefix_cons.mpr ⟨rfl, ih h.2 h'.2 (by rw [hrest, List.append_assoc])⟩

end

structure Bytewise (σ : Type) where
  next : σ → UInt8 → Option (List Callback × Bool × σ)
  silent : ∀ p b r, next p b = some r → .messageComplete ∉ r.1

def Bytewise.scan (m : Bytewise σ) : σ → Bytes → Execution σ
  | p, [] => { calls := [], verdict := .ok, parser := p }
  | p, b::bs =>
    match m.next p b with
    | none => { calls := [], verdict := .failed, parser := p }
    | some (calls, true, q) =>
      { calls := calls ++ [.messageComplete], verdict := .paused 1, parser := q }
    | some (calls, false, q) =>
      let r := m.scan q bs
      { calls := calls ++ r.calls, verdict := r.verdict.behind 1, parser := r.parser }

def Bytewise.llhttp (m : Bytewise σ) : Llhttp σ where
  execute := m.scan
  resume := id

theorem behind_ok (n : ℕ) (v : Verdict) : v.behind n = .ok ↔ v = .ok := by
  cases v <;> simp [Verdict.behind]

theorem behind_behind (m n : ℕ) (v : Verdict) : (v.behind m).behind n = v.behind (m+n) := by
  cases v <;> simp [Verdict.behind]
  omega

theorem behind_paused (n k : ℕ) (v : Verdict) :
    v.behind n = .paused k ↔ ∃ j, v = .paused j ∧ k = n+j := by
  cases v <;> simp [Verdict.behind, eq_comm]

section
variable (m : Bytewise σ)

theorem scan_cons (p q : σ) (b : UInt8) (bs : Bytes) (calls : List Callback)
    (h : m.next p b = some (calls, false, q)) : m.scan p (b::bs) =
      { calls := calls ++ (m.scan q bs).calls, verdict := (m.scan q bs).verdict.behind 1,
        parser := (m.scan q bs).parser } := by
  rw [Bytewise.scan, h]

theorem scan_within (p : σ) (data : Bytes) (n : ℕ) (h : (m.scan p data).verdict = .paused n) :
    n ≤ data.length := by
  induction data generalizing p n with
  | nil => cases h
  | cons b bs ih =>
    rw [Bytewise.scan] at h
    split at h
    · cases h
    · cases h
      exact Nat.succ_le_succ (Nat.zero_le _)
    · obtain ⟨j, hj, rfl⟩ := (behind_paused 1 n _).mp h
      have hle := ih _ j hj
      rw [List.length_cons]
      omega

theorem scan_stops (p : σ) (data : Bytes) (n : ℕ) (rest : Bytes)
    (h : (m.scan p data).verdict = .paused n) :
    m.scan p (data.take n ++ rest) = m.scan p data := by
  induction data generalizing p n with
  | nil => cases h
  | cons b bs ih =>
    cases hnext : m.next p b with
    | none =>
      rw [Bytewise.scan, hnext] at h
      cases h
    | some r =>
      obtain ⟨calls, last, q⟩ := r
      cases last with
      | true =>
        rw [Bytewise.scan, hnext] at h
        cases h
        simp only [List.take_succ_cons, List.cons_append, Bytewise.scan, hnext]
      | false =>
        rw [scan_cons m p q b bs calls hnext] at h
        obtain ⟨j, hj, rfl⟩ := (behind_paused 1 n _).mp h
        rw [Nat.add_comm, List.take_succ_cons, List.cons_append, scan_cons m p q b _ calls hnext,
          scan_cons m p q b bs calls hnext, ih q j hj]

theorem scan_goesOn (p : σ) (a b : Bytes) (h : (m.scan p a).verdict = .ok) :
    (m.scan p (a ++ b)).verdict = (m.scan (m.scan p a).parser b).verdict.behind a.length ∧
    (m.scan p (a ++ b)).parser = (m.scan (m.scan p a).parser b).parser := by
  induction a generalizing p with
  | nil =>
    refine ⟨?_, rfl⟩
    change (m.scan p b).verdict = (m.scan p b).verdict.behind 0
    cases (m.scan p b).verdict <;> simp [Verdict.behind]
  | cons c cs ih =>
    cases hnext : m.next p c with
    | none =>
      rw [Bytewise.scan, hnext] at h
      cases h
    | some r =>
      obtain ⟨calls, last, q⟩ := r
      cases last with
      | true =>
        rw [Bytewise.scan, hnext] at h
        cases h
      | false =>
        rw [scan_cons m p q c cs calls hnext] at h ⊢
        obtain ⟨hverdict, hparser⟩ := ih q ((behind_ok 1 _).mp h)
        rw [List.cons_append, scan_cons m p q c _ calls hnext]
        refine ⟨?_, hparser⟩
        dsimp only
        rw [hverdict, behind_behind, List.length_cons]

theorem scan_answers (p : σ) (data : Bytes) (n : ℕ) (h : (m.scan p data).verdict = .paused n) :
    ∃ calls, (m.scan p data).calls = calls ++ [.messageComplete] ∧ .messageComplete ∉ calls := by
  induction data generalizing p n with
  | nil => cases h
  | cons b bs ih =>
    cases hnext : m.next p b with
    | none =>
      rw [Bytewise.scan, hnext] at h
      cases h
    | some r =>
      have hsilent := m.silent p b r hnext
      obtain ⟨calls, last, q⟩ := r
      cases last with
      | true =>
        refine ⟨calls, ?_, hsilent⟩
        rw [Bytewise.scan, hnext]
      | false =>
        rw [scan_cons m p q b bs calls hnext] at h ⊢
        obtain ⟨j, hj, -⟩ := (behind_paused 1 n _).mp h
        obtain ⟨more, hmore, hnot⟩ := ih q j hj
        refine ⟨calls ++ more, ?_, ?_⟩
        · dsimp only
          rw [hmore, List.append_assoc]
        · rw [List.mem_append]
          exact not_or.mpr ⟨hsilent, hnot⟩

theorem scan_quiet (p : σ) (data : Bytes) (h : ∀ n, (m.scan p data).verdict ≠ .paused n) :
    .messageComplete ∉ (m.scan p data).calls := by
  induction data generalizing p with
  | nil => exact List.not_mem_nil
  | cons b bs ih =>
    cases hnext : m.next p b with
    | none =>
      rw [Bytewise.scan, hnext]
      exact List.not_mem_nil
    | some r =>
      have hsilent := m.silent p b r hnext
      obtain ⟨calls, last, q⟩ := r
      cases last with
      | true =>
        rw [Bytewise.scan, hnext] at h
        exact absurd rfl (h 1)
      | false =>
        rw [scan_cons m p q b bs calls hnext] at h ⊢
        dsimp only
        rw [List.mem_append]
        refine not_or.mpr ⟨hsilent, ih q fun n hn => h (1+n) ?_⟩
        dsimp only
        rw [hn, Verdict.behind]

theorem bytewise_incremental : Incremental m.llhttp where
  nothing := fun _ => rfl
  within := scan_within m
  stops := scan_stops m
  goesOn := scan_goesOn m
  answers := scan_answers m
  quiet := scan_quiet m

end

def requestText : Bytes := bytes "GET /x HTTP/1.1\r\n\r\n"

def requestCalls (pos : ℕ) (b : UInt8) : List Callback :=
  if pos = 0 then [.messageBegin, .method [b]]
  else if pos ≤ 2 then [.method [b]]
  else if pos = 4 ∨ pos = 5 then [.url [b]]
  else if pos = 6 then [.urlComplete]
  else if 12 ≤ pos ∧ pos ≤ 14 then [.version [b]]
  else if pos = 18 then [.headersComplete] else []

def requestBytes : Bytewise ℕ where
  next := fun pos b =>
    if requestText[pos]? = some b then
      some (requestCalls pos b, pos+1 = requestText.length,
        if pos+1 = requestText.length then 0 else pos+1)
    else none
  silent := fun pos b r h => by
    split at h
    · cases h
      unfold requestCalls
      split_ifs <;> simp
    · cases h

end CloudBackup.HttpParser
