import CloudBackup.Download

/-!
# The notifications in the pipe

A notification is an operation, the identifier of a connection and a comma.
`PipeDataHandler` cuts the bytes gathered so far at the commas and hands each
operation on, and keeps what follows the last comma for the next call. What
is done for an operation is a parameter. Positions are `int`s; the loop is
bounded by the number of bytes.
-/

set_option autoImplicit false

namespace CloudBackup.PipeMessages
open CloudBackup.PatternSearch CloudBackup.ByteStrings CloudBackup.Download

def comma : UInt8 := 44
def underscore : UInt8 := 95

def findLastOf (c : UInt8) (s : Bytes) : Option ℕ :=
  (find [c] s.reverse).map fun i => s.length-1-i

/-- `std::stoi`; `none` where it throws. -/
def stoi (s : Bytes) : Option ℤ :=
  (stoll s).bind fun v => if -2^31 ≤ v ∧ v < 2^31 then some v else none

section
variable {σ : Type*} (act : σ → UInt8 → ℤ → ℤ → σ)

/-- `none` where `stoi` throws. -/
def handleMessage (st : σ) : Bytes → Option σ
  | [] => some st
  | op::netFdIdentifier =>
    if netFdIdentifier.length+1 < 4 then some st
    else
      let underscorePos := asInt (findLastOf underscore netFdIdentifier)
      if underscorePos = -1 then some st
      else
        (stoi (netFdIdentifier.take (asSize underscorePos))).bind fun netFd =>
          (stoi (netFdIdentifier.drop (asSize (underscorePos+1)))).map fun useTime =>
            act st op netFd useTime

def handlerLoop (readPipeBuffer : Bytes) : ℕ → ℤ → σ → Option σ
  | 0, _, _ => none
  | n+1, pos, st =>
    if asSize pos < readPipeBuffer.length then
      let commaPos := asInt (findFrom [comma] (asSize pos) readPipeBuffer)
      if commaPos = -1 then some st
      else
        let netFdStr := (readPipeBuffer.drop (asSize pos)).take (asSize (commaPos-pos))
        (handleMessage act st netFdStr).bind fun st => handlerLoop readPipeBuffer n (commaPos+1) st
    else some st

def keepRest (readPipeBuffer : Bytes) : Bytes :=
  let pos := asInt (findLastOf comma readPipeBuffer)
  if pos = -1 then readPipeBuffer else readPipeBuffer.drop (asSize (pos+1))

/-- What remains of the buffer, and what has been done; `none` when an exception
leaves the handler or the loop does not end. -/
def pipeDataHandler (readPipeBuffer : Bytes) (st : σ) : Option (Bytes × σ) :=
  if readPipeBuffer = [] then some ([], st)
  else (handlerLoop act readPipeBuffer (readPipeBuffer.length+1) 0 st).map fun st =>
    (keepRest readPipeBuffer, st)

end

structure Notification where
  op : UInt8
  netFd : ℕ
  useTime : ℕ

/-- `net_fd_identifier`. -/
def identifier (netFd useTime : ℕ) : Bytes := toDecimal netFd ++ underscore :: toDecimal useTime

def Notification.body (m : Notification) : Bytes := m.op :: identifier m.netFd m.useTime

def Notification.text (m : Notification) : Bytes := m.body ++ [comma]

def stream (ms : List Notification) : Bytes := (ms.map Notification.text).flatten

structure Notification.Proper (m : Notification) : Prop where
  op : m.op ≠ comma
  netFd : m.netFd < 2^31
  useTime : m.useTime < 2^31

def digitByte (c : Char) : UInt8 := UInt8.ofNat c.toNat

theorem toDecimal_nat (n : ℕ) : toDecimal n = (Nat.toDigits 10 n).map digitByte := by
  have hpos : ¬ (n : ℤ) < 0 := by omega
  rw [toDecimal, if_neg hpos, List.nil_append, Int.natAbs_natCast]
  rfl

theorem digitByte_toNat (c : Char) (h : c.isDigit = true) :
    (digitByte c).toNat = c.toNat ∧ 48 ≤ c.toNat ∧ c.toNat ≤ 57 := by
  have hrange : 48 ≤ c.toNat ∧ c.toNat ≤ 57 := by
    simpa [Char.isDigit, UInt32.le_iff_toNat_le] using h
  refine ⟨?_, hrange⟩
  rw [digitByte, UInt8.toNat_ofNat']
  omega

theorem toDecimal_digits (n : ℕ) (b : UInt8) (h : b ∈ toDecimal n) :
    48 ≤ b.toNat ∧ b.toNat ≤ 57 := by
  rw [toDecimal_nat] at h
  obtain ⟨c, hc, rfl⟩ := List.mem_map.mp h
  obtain ⟨heq, hrange⟩ := digitByte_toNat c (Nat.isDigit_of_mem_toDigits (by decide) (by decide) hc)
  rwa [heq]

theorem isDigit_iff (b : UInt8) : isDigit b = true ↔ 48 ≤ b.toNat ∧ b.toNat ≤ 57 := by
  simp [isDigit, UInt8.le_iff_toNat_le]

theorem digits_map (cs : List Char) (h : ∀ c ∈ cs, c.isDigit = true) (n : ℕ) :
    (cs.map digitByte).foldl (fun n c => 10*n+(c.toNat-48)) n = Nat.ofDigitChars 10 cs n := by
  induction cs generalizing n with
  | nil => simp
  | cons c cs ih =>
    have hc := (digitByte_toNat c (h c (by simp))).1
    rw [List.map_cons, List.foldl_cons, ih (fun d hd => h d (by simp [hd])),
      Nat.ofDigitChars_cons, hc]
    rfl

theorem digits_toDecimal (n : ℕ) : digits (toDecimal n) = n := by
  rw [digits, toDecimal_nat, digits_map _ fun c hc =>
    Nat.isDigit_of_mem_toDigits (by decide) (by decide) hc]
  exact Nat.ofDigitChars_toDigits (by decide) (by decide)

theorem toDecimal_ne_nil (n : ℕ) : toDecimal n ≠ [] := by
  rw [toDecimal_nat]
  exact fun h => Nat.toDigits_ne_nil (List.map_eq_nil_iff.mp h)

theorem toDecimal_free (n : ℕ) (b : UInt8) (h : b.toNat < 48 ∨ 57 < b.toNat) : b ∉ toDecimal n := by
  intro hb
  have := toDecimal_digits n b hb
  omega

theorem stoi_toDecimal (n : ℕ) (hn : n < 2^31) : stoi (toDecimal n) = some (n : ℤ) := by
  have hall : ∀ b ∈ toDecimal n, isDigit b = true :=
    fun b hb => (isDigit_iff b).mpr (toDecimal_digits n b hb)
  have hsigned : signed false (toDecimal n) = some (n : ℤ) := by
    have htake : (toDecimal n).takeWhile isDigit = toDecimal n :=
      List.takeWhile_eq_self_iff.mpr hall
    simp only [signed, htake, toDecimal_ne_nil, digits_toDecimal, Bool.false_eq_true, if_false]
    rw [if_pos (by omega)]
  have hstoll : stoll (toDecimal n) = some (n : ℤ) := by
    rw [stoll]
    cases hd : toDecimal n with
    | nil => exact absurd hd (toDecimal_ne_nil n)
    | cons b bs =>
      have hb := toDecimal_digits n b (by rw [hd]; exact List.mem_cons_self)
      have hspace : isSpace b = false := by
        simp only [isSpace, Bool.or_eq_false_iff, beq_eq_false_iff_ne, Bool.and_eq_false_iff,
          decide_eq_false_iff_not, UInt8.le_iff_toNat_le]
        constructor
        · rintro rfl
          exact absurd hb.1 (by decide)
        · refine Or.inr fun h => ?_
          have : b.toNat ≤ 13 := h
          omega
      rw [List.dropWhile_cons_of_neg (by simp [hspace])]
      rw [hd] at hsigned
      split
      · rename_i heq
        cases heq
        exact absurd hb.1 (by decide)
      · rename_i heq
        cases heq
        exact absurd hb.1 (by decide)
      · exact hsigned
  rw [stoi, hstoll, Option.bind_some, if_pos (by omega)]

theorem findLastOf_after (c : UInt8) (s t : Bytes) (h : c ∉ t) :
    findLastOf c (s ++ c::t) = some s.length := by
  have hrev : (s ++ c::t).reverse = t.reverse ++ ([c] ++ s.reverse) := by simp
  rw [findLastOf, hrev, find_after_clean c [] t.reverse s.reverse (by simpa using h),
    Option.map_some, List.length_reverse, List.length_append, List.length_cons]
  congr 1
  omega

theorem findLastOf_none (c : UInt8) (s : Bytes) (h : c ∉ s) : findLastOf c s = none := by
  rw [findLastOf, find_eq_none_of_clean c [] s.reverse (by simpa using h)]
  rfl

theorem asSize_succ (n : ℕ) (h : n+1 < 2^64) : asSize ((n : ℤ)+1) = n+1 := by
  unfold asSize
  omega

theorem toDecimal_length (n : ℕ) (hn : n < 2^31) :
    0 < (toDecimal n).length ∧ (toDecimal n).length ≤ 10 := by
  refine ⟨List.length_pos_iff.mpr (toDecimal_ne_nil n), ?_⟩
  rw [toDecimal_nat, List.length_map, Nat.length_toDigits_le_iff (by decide) (by decide)]
  omega

section Message
variable {m : Notification} (hm : m.Proper)
include hm

theorem body_comma : comma ∉ m.body := by
  intro h
  simp only [Notification.body, identifier, List.mem_cons, List.mem_append] at h
  rcases h with h | h | h | h
  · exact hm.op h.symm
  · exact toDecimal_free _ comma (by decide) h
  · exact absurd h (by decide)
  · exact toDecimal_free _ comma (by decide) h

theorem body_length : 4 ≤ m.body.length ∧ m.body.length ≤ 22 := by
  have h1 := toDecimal_length m.netFd hm.netFd
  have h2 := toDecimal_length m.useTime hm.useTime
  simp only [Notification.body, identifier, List.length_cons, List.length_append]
  omega

theorem text_length : 5 ≤ m.text.length ∧ m.text.length ≤ 23 := by
  have := body_length hm
  rw [Notification.text, List.length_append, List.length_singleton]
  omega

theorem handleMessage_body {σ : Type*} (act : σ → UInt8 → ℤ → ℤ → σ) (st : σ) :
    handleMessage act st m.body = some (act st m.op m.netFd m.useTime) := by
  have hlast : findLastOf underscore
    (identifier m.netFd m.useTime) = some (toDecimal m.netFd).length :=
    findLastOf_after _ _ _ (toDecimal_free _ _ (by decide))
  have hfd := toDecimal_length m.netFd hm.netFd
  have hlong := (body_length hm).1
  rw [Notification.body, List.length_cons] at hlong
  have hint : asInt (some (toDecimal m.netFd).length) = (toDecimal m.netFd).length := by
    apply asInt_some
    rintro n ⟨⟩
    omega
  have htake : asSize ((toDecimal m.netFd).length : ℤ) = (toDecimal m.netFd).length :=
    asSize_cast _ (by omega)
  have hdrop := asSize_succ (toDecimal m.netFd).length (by omega)
  have hpos : ¬ ((toDecimal m.netFd).length : ℤ) = -1 := by omega
  rw [Notification.body, handleMessage, if_neg (by omega), hlast, hint]
  simp only [hpos, if_false, htake, hdrop]
  rw [identifier, List.take_left' rfl, List.drop_append, List.drop_of_length_le (Nat.le_succ _),
    Nat.add_sub_cancel_left, List.drop_one, List.tail_cons, List.nil_append,
    stoi_toDecimal _ hm.netFd, stoi_toDecimal _ hm.useTime]
  rfl

end Message

theorem stream_cons (m : Notification) (ms : List Notification) :
    stream (m::ms) = m.text ++ stream ms := rfl

theorem stream_append (ms ns : List Notification) : stream (ms ++ ns) = stream ms ++ stream ns := by
  simp [stream]

section Loop
variable {σ : Type*} (act : σ → UInt8 → ℤ → ℤ → σ)

def serve (st : σ) (m : Notification) : σ := act st m.op m.netFd m.useTime

theorem handlerLoop_message (m : Notification) (hm : m.Proper) (before rest : Bytes)
    (hsmall : (before ++ m.text).length ≤ 2^31) (n : ℕ) (st : σ) :
    handlerLoop act (before ++ (m.text ++ rest)) (n+1) before.length st =
      handlerLoop act (before ++ (m.text ++ rest)) n (before ++ m.text).length
        (serve act st m) := by
  have htext : m.text.length = m.body.length+1 := by
    rw [Notification.text, List.length_append, List.length_singleton]
  have hlen : (before ++ m.text).length = before.length+(m.body.length+1) := by
    rw [List.length_append, htext]
  rw [hlen] at hsmall
  have hpos : asSize (before.length : ℤ) = before.length := asSize_cast _ (by omega)
  have hdrop : (before ++ (m.text ++ rest)).drop before.length = m.text ++ rest :=
    List.drop_left' rfl
  have hfind : findFrom [comma] before.length (before ++ (m.text ++ rest)) =
      some (m.body.length+before.length) := by
    have hin : ¬ (before ++ (m.text ++ rest)).length < before.length := by
      rw [List.length_append]
      omega
    rw [findFrom, if_neg hin, hdrop, Notification.text, List.append_assoc,
      find_after_clean comma [] m.body rest (body_comma hm)]
    rfl
  have hint : asInt (some (m.body.length+before.length)) = (m.body.length+before.length : ℕ) := by
    apply asInt_some
    rintro k ⟨⟩
    omega
  have hinside : before.length < (before ++ (m.text ++ rest)).length := by
    rw [List.length_append, List.length_append, htext]
    omega
  have hne : ¬ ((m.body.length+before.length : ℕ) : ℤ) = -1 := by omega
  have htake : asSize (((m.body.length+before.length : ℕ) : ℤ)-before.length) = m.body.length := by
    rw [show ((m.body.length+before.length : ℕ) : ℤ)-before.length = (m.body.length : ℕ) by omega]
    exact asSize_cast _ (by omega)
  have hbody : (m.text ++ rest).take m.body.length = m.body := by
    rw [Notification.text, List.append_assoc]
    exact List.take_left' rfl
  have hnext : (((m.body.length+before.length : ℕ) : ℤ)+1) = ((before ++ m.text).length : ℕ) := by
    rw [hlen]
    omega
  rw [handlerLoop]
  simp only [hpos, if_pos hinside, hfind, hint, hne, if_false, hdrop, htake, hbody,
    handleMessage_body hm, Option.bind_some, hnext]
  rfl

theorem handlerLoop_messages (ms : List Notification) (hms : ∀ m ∈ ms, m.Proper)
    (before rest : Bytes)
    (hsmall : (before ++ stream ms).length ≤ 2^31) (n : ℕ) (st : σ) :
    handlerLoop act (before ++ (stream ms ++ rest)) (ms.length+n) before.length st =
      handlerLoop act (before ++ (stream ms ++ rest)) n (before ++ stream ms).length
        (ms.foldl (serve act) st) := by
  induction ms generalizing before st with
  | nil => rw [List.length_nil, Nat.zero_add, stream, List.map_nil, List.flatten_nil,
    List.append_nil]; rfl
  | cons m ms ih =>
    rw [stream_cons] at hsmall ⊢
    have hfirst : (before ++ m.text).length ≤ 2^31 := by
      rw [List.length_append] at hsmall ⊢
      rw [List.length_append] at hsmall
      omega
    have hrest := ih (fun k hk => hms k (by simp [hk])) (before ++ m.text)
      (by rwa [List.append_assoc]) (serve act st m)
    rw [List.length_cons, Nat.add_right_comm, List.append_assoc,
      handlerLoop_message act m (hms m (by simp)) before (stream ms ++ rest) hfirst]
    rw [List.append_assoc, List.append_assoc] at hrest
    exact hrest

theorem handlerLoop_tail (before tail : Bytes) (htail : comma ∉ tail)
    (hsmall : before.length ≤ 2^31)
    (n : ℕ) (st : σ) : handlerLoop act (before ++ tail) (n+1) before.length st = some st := by
  have hpos : asSize (before.length : ℤ) = before.length := asSize_cast _ (by omega)
  rw [handlerLoop, hpos]
  by_cases hin : before.length < (before ++ tail).length
  · have hfind : findFrom [comma] before.length (before ++ tail) = none := by
      rw [findFrom, if_neg (by omega), List.drop_left' rfl,
        find_eq_none_of_clean comma [] tail htail]
      rfl
    rw [if_pos hin, hfind]
    rfl
  · rw [if_neg hin]

end Loop

theorem keepRest_tail (ms : List Notification) (tail : Bytes) (htail : comma ∉ tail)
    (hsmall : (stream ms ++ tail).length < 2^31) : keepRest (stream ms ++ tail) = tail := by
  induction ms using List.reverseRecOn with
  | nil =>
    rw [stream, List.map_nil, List.flatten_nil, List.nil_append, keepRest,
      findLastOf_none comma tail htail]
    rfl
  | append_singleton ms m =>
    have hsplit : stream (ms ++ [m]) ++ tail = (stream ms ++ m.body) ++ comma::tail := by
      simp [stream, Notification.text]
    rw [hsplit] at hsmall ⊢
    rw [List.length_append, List.length_cons] at hsmall
    have hint : asInt (some (stream ms ++ m.body).length) = (stream ms ++ m.body).length := by
      apply asInt_some
      rintro k ⟨⟩
      omega
    have hne : ¬ ((stream ms ++ m.body).length : ℤ) = -1 := by omega
    have hdrop := asSize_succ (stream ms ++ m.body).length (by omega)
    rw [keepRest, findLastOf_after comma _ tail htail, hint]
    simp only [hne, if_false, hdrop]
    rw [List.drop_append, List.drop_of_length_le (Nat.le_succ _), Nat.add_sub_cancel_left]
    rfl

theorem pipeDataHandler_stream {σ : Type*} (act : σ → UInt8 → ℤ → ℤ → σ) (ms : List Notification)
    (hms : ∀ m ∈ ms, m.Proper) (tail : Bytes) (htail : comma ∉ tail)
    (hsmall : (stream ms ++ tail).length < 2^31) (st : σ) :
    pipeDataHandler act (stream ms ++ tail) st = some (tail, ms.foldl (serve act) st) := by
  by_cases hnil : stream ms ++ tail = []
  · obtain ⟨hstream, rfl⟩ := List.append_eq_nil_iff.mp hnil
    have hms : ms = [] := by
      cases ms with
      | nil => rfl
      | cons m ms => simp [stream_cons, Notification.text] at hstream
    subst hms
    rfl
  · have hcount : ms.length ≤ (stream ms).length := by
      clear hsmall hnil
      induction ms with
      | nil => exact Nat.zero_le _
      | cons m ms ih =>
        have hm := (text_length (hms m (by simp))).1
        have hrest := ih fun k hk => hms k (by simp [hk])
        rw [stream_cons, List.length_cons, List.length_append]
        omega
    rw [List.length_append] at hsmall
    obtain ⟨n, hn⟩ : ∃ n, (stream ms ++ tail).length+1 = ms.length+(n+1) :=
      ⟨(stream ms ++ tail).length-ms.length, by rw [List.length_append]; omega⟩
    have hloop := handlerLoop_messages act ms hms [] tail (by rw [List.nil_append]; omega) (n+1) st
    have hend := handlerLoop_tail act (stream ms) tail htail (by omega) n (ms.foldl (serve act) st)
    simp only [List.nil_append, List.length_nil] at hloop
    rw [pipeDataHandler, if_neg hnil, hn]
    rw [show (0 : ℤ) = ((0 : ℕ) : ℤ) from rfl, hloop, hend, Option.map_some,
      keepRest_tail ms tail htail (by rw [List.length_append]; omega)]

def ping : Notification := ⟨119, 5, 1⟩

def count (served : ℕ) (_ : UInt8) (_ _ : ℤ) : ℕ := served+1

theorem ping_proper : ping.Proper := ⟨by decide, by decide, by decide⟩

theorem pings_length (k : ℕ) : (stream (List.replicate k ping)).length = 5*k := by
  induction k with
  | zero => rfl
  | succ k ih =>
    have h5 : ping.text.length = 5 := by decide
    rw [List.replicate_succ, stream_cons, List.length_append, ih, h5]
    omega

theorem pings_served (k served : ℕ) :
    (List.replicate k ping).foldl (serve count) served = served+k := by
  induction k generalizing served with
  | zero => rfl
  | succ k ih =>
    rw [List.replicate_succ, List.foldl_cons, ih]
    show served+1+k = served+(k+1)
    omega

theorem handlerLoop_beyond (before : Bytes) (h31 : before.length ≤ 2^31)
    (hcut : 2^31 ≤ before.length+4)
    (n served : ℕ) : handlerLoop count (before ++ (ping.text ++ ping.text))
      (n+2) before.length served =
      some (served+1) := by
  have hpos : asSize (before.length : ℤ) = before.length := asSize_cast _ (by omega)
  have hdrop : (before ++ (ping.text ++ ping.text)).drop before.length = ping.text ++ ping.text :=
    List.drop_left' rfl
  have hlen : (before ++ (ping.text ++ ping.text)).length = before.length+10 := List.length_append
  have hfind : findFrom [comma] before.length
    (before ++ (ping.text ++ ping.text)) = some (4+before.length) := by
    rw [findFrom, if_neg (by omega), hdrop,
      show find [comma] (ping.text ++ ping.text) = some 4 by decide]
    rfl
  have hint : asInt (some (4+before.length)) = (4+before.length : ℤ)-2^32 := by
    rw [asInt, narrow_large _ (by omega) (by omega)]
    omega
  have hne : ¬ (4+before.length : ℤ)-2^32 = -1 := by omega
  have hsize := asSize_neg ((4+before.length : ℤ)-2^32-before.length) (by omega) (by omega)
  have htake : (ping.text ++ ping.text).take (asSize ((4+before.length : ℤ)-2^32-before.length)) =
      ping.text ++ ping.text := by
    apply List.take_of_length_le
    rw [show (ping.text ++ ping.text).length = 10 by decide]
    omega
  have hmessage : handleMessage count served (ping.text ++ ping.text) = some (served+1) := rfl
  have hend := asSize_neg ((4+before.length : ℤ)-2^32+1) (by omega) (by omega)
  have hout : ¬ asSize ((4+before.length : ℤ)-2^32+1) <
      (before ++ (ping.text ++ ping.text)).length := by
    rw [hlen]
    omega
  rw [handlerLoop]
  simp only [hpos, hlen, show before.length < before.length+10 by
    omega, if_true, hfind, hint, hne, if_false, hdrop, htake, hmessage, Option.bind_some]
  rw [handlerLoop, if_neg hout]

theorem pipeDataHandler_beyond (k : ℕ) (h31 : 5*k ≤ 2^31) (hcut : 2^31 ≤ 5*k+4) :
    pipeDataHandler count (stream (List.replicate (k+2) ping)) 0 = some ([], k+1) := by
  have hsplit : stream (List.replicate (k+2) ping) =
      stream (List.replicate k ping) ++ (ping.text ++ ping.text) := by
    rw [List.replicate_add, stream_append]
    rfl
  have hlen := pings_length k
  have hall : (stream (List.replicate k ping) ++ (ping.text ++ ping.text)).length = 5*k+10 := by
    rw [List.length_append, hlen]
    rfl
  have hnil : stream (List.replicate k ping) ++ (ping.text ++ ping.text) ≠ [] := by
    apply List.ne_nil_of_length_pos
    omega
  obtain ⟨n, hn⟩ : ∃ n, 5*k+10+1 = k+(n+2) := ⟨4*k+9, by omega⟩
  have hfirst := handlerLoop_messages count (List.replicate k ping)
    (fun m hm => by rw [List.eq_of_mem_replicate hm]; exact ping_proper) [] (ping.text ++ ping.text)
    (by rw [List.nil_append]; omega) (n+2) 0
  simp only [List.nil_append, List.length_nil, List.length_replicate, pings_served,
    Nat.zero_add] at hfirst
  have hsecond := handlerLoop_beyond (stream (List.replicate k ping)) (by omega) (by omega) n k
  have hlast : findLastOf comma (stream (List.replicate k ping) ++ (ping.text ++ ping.text)) =
    some (5*k+9) := by
    have hcomma : ping.text ++ ping.text = (ping.text ++ ping.body) ++ [comma] := by decide
    rw [hcomma, ← List.append_assoc, findLastOf_after comma _ [] List.not_mem_nil,
      List.length_append, hlen]
    rfl
  have hint : asInt (some (5*k+9)) = (5*k+9 : ℤ)-2^32 := by
    rw [asInt, narrow_large _ (by omega) (by omega)]
    omega
  have hrest : keepRest (stream (List.replicate k ping) ++ (ping.text ++ ping.text)) = [] := by
    have hne : ¬ (5*k+9 : ℤ)-2^32 = -1 := by omega
    have hsize := asSize_neg ((5*k+9 : ℤ)-2^32+1) (by omega) (by omega)
    rw [keepRest, hlast, hint]
    simp only [hne, if_false]
    exact List.drop_of_length_le (by omega)
  rw [hsplit, pipeDataHandler, if_neg hnil, hall, hn, show (0 : ℤ) = ((0 : ℕ) : ℤ) from rfl,
    hfirst, hsecond, Option.map_some, hrest]

end CloudBackup.PipeMessages
