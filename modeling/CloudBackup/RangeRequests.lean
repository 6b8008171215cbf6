import CloudBackup.PipeMessages

/-!
# Range requests

What a `Range` header selects, read with the grammar of byte ranges, against
the part of the file that `process_download_request` announces. The bounds are
read with `stoll` around the first dash, whose position passes through an
`int`.
-/

set_option autoImplicit false

namespace CloudBackup.RangeRequests
open CloudBackup.PatternSearch CloudBackup.ByteStrings CloudBackup.DataManager
open CloudBackup.FileStore CloudBackup.UploadScanner CloudBackup.Download CloudBackup.PipeMessages

def dash : UInt8 := 45

def bounds (value : Bytes) : Option (Bytes × Bytes) :=
  match value.dropWhile isDigit with
  | [] => none
  | c::last => if c = dash ∧ last.all isDigit then some (value.takeWhile isDigit, last) else none

def select (first last : Bytes) (size : ℤ) : Option (ℤ × ℤ) :=
  if first = [] then
    if last = [] then none else some (max 0 (size-digits last), size)
  else if last = [] then some (digits first, size)
    else some (digits first, min (digits last+1) size)

def requested (range : Bytes) : Option (Bytes × Bytes) :=
  if bytes "bytes=" <+: range then bounds (range.drop 6) else none

/-- The non-empty part of the file that a `Range` value asks for. -/
def asked (range : Bytes) (size : ℤ) : Option (ℤ × ℤ) :=
  (requested range).bind fun r => (select r.1 r.2 size).filter fun p => p.1 < p.2

def FitsLong (n : ℤ) : Prop := -2^63 ≤ n ∧ n < 2^63

def lastRead (rangeValue : Bytes) : Option ℤ :=
  let next := asSize (wrapInt (asInt (find (bytes "-") rangeValue)+1))
  if next < rangeValue.length then stoll (rangeValue.drop next) else none

def ifRangeMatches (info : BackupInfoNode) (ifRange range : Bytes) : Prop :=
  ifRange = etag info ∧ find (bytes "bytes=") range = some 0

instance (info : BackupInfoNode) (ifRange range : Bytes) :
    Decidable (ifRangeMatches info ifRange range) :=
  inferInstanceAs (Decidable (_ ∧ _))

def sums (info : BackupInfoNode) (ifRange range : Bytes) (task : SendTask) : List ℤ :=
  (if ifRangeMatches info ifRange range then
    ((lastRead (range.drop 6)).map (· + 1)).toList else []) ++
    [task.endPos-task.startPos, task.endPos-1]

structure PartAnswer (info : BackupInfoNode) (h h' : HeadInfo) (task : SendTask) : Prop where
  status : h'.responseStatus = bytes "206"
  current : h.requestHeaders.lookup (bytes "if-range") = some (etag info)
  part : ∃ range, h.requestHeaders.lookup (bytes "range") = some range ∧
    asked range info.size = some (task.startPos, task.endPos)
  inside : 0 ≤ task.startPos ∧ task.startPos < task.endPos ∧ task.endPos ≤ info.size
  length : h'.responseHeaders.lookup (bytes "Content-Length") =
    some (toDecimal (task.endPos-task.startPos))
  contentRange : h'.responseHeaders.lookup (bytes "Content-Range") =
    some (bytes "bytes " ++ toDecimal task.startPos ++ bytes "-" ++
      toDecimal (task.endPos-1) ++ bytes "/" ++ toDecimal info.size)

structure WholeAnswer (info : BackupInfoNode) (h' : HeadInfo) (task : SendTask) : Prop where
  status : h'.responseStatus = bytes "200"
  start : task.startPos = 0
  stop : task.endPos = info.size

def RightAnswer (h : HeadInfo) (s : Store) : Option (HeadInfo × Option SendTask) → Prop
  | none => False
  | some (h', none) => h'.responseStatus ≠ bytes "200" ∧ h'.responseStatus ≠ bytes "206"
  | some (h', some task) =>
    (∀ ifRange range, h.requestHeaders.lookup (bytes "if-range") = some ifRange →
      h.requestHeaders.lookup (bytes "range") = some range →
      ∀ n ∈ sums (s.nodes task.node).info ifRange range task, FitsLong n) ∧
    (PartAnswer (s.nodes task.node).info h h' task ∨ WholeAnswer (s.nodes task.node).info h' task)

/-- When the dash is found: behind a number before position `2^31-1`, or where the position as
an `int`, or the one behind it, happens to lead to the same part. -/
def DashFound (first last : Bytes) (startPos endPos size : ℤ) : Prop :=
  let r := first.length%2^32
  if first.length < 2^31-1 then first ≠ [] ∧ (digits last : ℤ)+1 < 2^63
  else (2^31-1 ≤ r ∧ r < 2^32-1 ∧ endPos = size ∧ (r = first.length ∨ 2^31 ≤ r ∨ startPos = 0)) ∨
    (r = 2^32-1 ∧ endPos = startPos+1) ∨ (0 < r ∧ r < 2^31-1 ∧ startPos = 0 ∧ endPos = 1)

def WellAsked (h : HeadInfo) (s : Store) : Prop :=
  ∀ id ifRange range, getFileInfoNode h.curDownloadFile s = some id →
    h.requestHeaders.lookup (bytes "if-range") = some ifRange →
    h.requestHeaders.lookup (bytes "range") = some range →
    ifRange = etag (s.nodes id).info ∧ ∃ first last startPos endPos,
      requested range = some (first, last) ∧
      asked range (s.nodes id).info.size = some (startPos, endPos) ∧
      DashFound first last startPos endPos (s.nodes id).info.size

theorem isDigit_plain (b : UInt8) (h : isDigit b = true) :
    isSpace b = false ∧ b ≠ dash ∧ b ≠ 43 := by
  have hrange := (isDigit_iff b).mp h
  constructor
  · have h32 : b ≠ 32 := by
      intro e
      subst e
      exact absurd h (by decide)
    simp only [isSpace, Bool.or_eq_false_iff, beq_eq_false_iff_ne, Bool.and_eq_false_iff,
      decide_eq_false_iff_not, UInt8.le_iff_toNat_le]
    exact ⟨h32, Or.inr fun hle => by have : b.toNat ≤ 13 := hle; omega⟩
  · constructor
    · intro e
      subst e
      exact absurd h (by decide)
    · intro e
      subst e
      exact absurd h (by decide)

theorem takeWhile_digits (s t : Bytes) (hs : ∀ b ∈ s, isDigit b = true)
    (ht : ∀ b ∈ t.head?, isDigit b = false) : (s ++ t).takeWhile isDigit = s := by
  rw [List.takeWhile_append_of_pos hs]
  cases t with
  | nil => simp
  | cons c t => simp [ht c (by simp)]

theorem stoll_digits (s t : Bytes) (hs : ∀ b ∈ s, isDigit b = true) (hne : s ≠ [])
    (ht : ∀ b ∈ t.head?, isDigit b = false) :
    stoll (s ++ t) = if (digits s : ℤ) < 2^63 then some (digits s : ℤ) else none := by
  have hsigned : signed false (s ++ t) =
      if (digits s : ℤ) < 2^63 then some (digits s : ℤ) else none := by
    simp only [signed, takeWhile_digits s t hs ht, hne, Bool.false_eq_true, if_false]
    have : -2^63 ≤ (digits s : ℤ) := by omega
    simp only [this, true_and]
  cases s with
  | nil => exact absurd rfl hne
  | cons b bs =>
    obtain ⟨hspace, hdash, hplus⟩ := isDigit_plain b (hs b (by simp))
    rw [stoll, List.cons_append, List.dropWhile_cons_of_neg (by simp [hspace])]
    split
    · rename_i heq
      cases heq
      exact absurd rfl hdash
    · rename_i heq
      cases heq
      exact absurd rfl hplus
    · exact hsigned

theorem foldl_digits (s : Bytes) (n : ℕ) :
    s.foldl (fun n c => 10*n+(c.toNat-48)) n = n*10^s.length+digits s := by
  induction s generalizing n with
  | nil => simp [digits]
  | cons c cs ih =>
    have hdigits : digits (c::cs) = (c.toNat-48)*10^cs.length+digits cs := by
      rw [digits, List.foldl_cons, ih]
      simp
    rw [List.foldl_cons, ih, hdigits, List.length_cons, pow_succ]
    ring

theorem digits_append (s t : Bytes) : digits (s ++ t) = digits s*10^t.length+digits t := by
  rw [digits, List.foldl_append, foldl_digits]
  rfl

theorem digits_drop_le (s : Bytes) (k : ℕ) : digits (s.drop k) ≤ digits s := by
  calc digits (s.drop k) ≤ digits (s.take k)*10^(s.drop k).length+digits (s.drop k) :=
        Nat.le_add_left _ _
    _ = digits (s.take k ++ s.drop k) := (digits_append _ _).symm
    _ = digits s := by rw [List.take_append_drop]

theorem digits_take_le (s : Bytes) (k : ℕ) : digits (s.take k) ≤ digits s := by
  have hpos : 0 < 10^(s.drop k).length := Nat.pos_of_neZero _
  calc digits (s.take k) ≤ digits (s.take k)*10^(s.drop k).length := Nat.le_mul_of_pos_right _ hpos
    _ ≤ digits (s.take k)*10^(s.drop k).length+digits (s.drop k) := Nat.le_add_right _ _
    _ = digits (s.take k ++ s.drop k) := (digits_append _ _).symm
    _ = digits s := by rw [List.take_append_drop]

theorem digits_cut (s : Bytes) (k : ℕ) (hk : k < s.length) (h : digits (s.take k) = digits s) :
    digits s = 0 := by
  have hsplit := digits_append (s.take k) (s.drop k)
  rw [List.take_append_drop] at hsplit
  have hten : 10 ≤ 10^(s.drop k).length :=
    Nat.le_self_pow (by rw [List.length_drop]; omega) 10
  have hgrow := Nat.mul_le_mul_left (digits (s.take k)) hten
  omega

theorem bounds_some (value first last : Bytes) (h : bounds value = some (first, last)) :
    value = first ++ dash::last ∧ (∀ b ∈ first, isDigit b = true) ∧ ∀ b ∈ last,
      isDigit b = true := by
  unfold bounds at h
  cases hd : value.dropWhile isDigit with
  | nil =>
    rw [hd] at h
    cases h
  | cons c rest =>
    rw [hd] at h
    dsimp only at h
    split_ifs at h with hc
    cases h
    constructor
    · rw [← hc.1, ← hd, List.takeWhile_append_dropWhile]
    · exact ⟨fun b hb => List.mem_takeWhile_imp hb, by simpa using hc.2⟩

theorem requested_some (range first last : Bytes) (h : requested range = some (first, last)) :
    find (bytes "bytes=") range = some 0 ∧ range.drop 6 = first ++ dash::last ∧
      (∀ b ∈ first, isDigit b = true) ∧ ∀ b ∈ last, isDigit b = true := by
  unfold requested at h
  split_ifs at h with hp
  exact ⟨find_at_start _ _ hp, bounds_some _ _ _ h⟩

theorem asked_some (range : Bytes) (size startPos endPos : ℤ)
    (h : asked range size = some (startPos, endPos)) :
    ∃ first last, requested range = some (first, last) ∧
      select first last size = some (startPos, endPos) ∧ startPos < endPos := by
  obtain ⟨⟨first, last⟩, hreq, hsel⟩ := Option.bind_eq_some_iff.mp h
  have hfilter := Option.filter_eq_some_iff.mp hsel
  exact ⟨first, last, hreq, hfilter.1, by simpa using hfilter.2⟩

theorem select_inside (first last : Bytes) (size startPos endPos : ℤ)
    (h : select first last size = some (startPos, endPos)) : 0 ≤ startPos ∧ endPos ≤ size := by
  unfold select at h
  split_ifs at h <;> cases h <;> omega

theorem select_first (first last : Bytes) (size startPos endPos : ℤ) (hne : first ≠ [])
    (h : select first last size = some (startPos, endPos)) :
    startPos = digits first ∧ endPos = if last = [] then size else min (digits last+1) size := by
  rw [select, if_neg hne] at h
  split_ifs at h ⊢ <;> cases h <;> exact ⟨rfl, rfl⟩

/-- The two agree, with no sum out of range. -/
def ReadRight (value : Bytes) (startPos endPos size : ℤ) : Prop :=
  parseRange value size = some (startPos, endPos) ∧ ∀ n, lastRead value = some n → FitsLong (n+1)

theorem parseRange_eq (value : Bytes) (size : ℤ) :
    parseRange value size =
      (stoll (value.take (asSize (asInt (find (bytes "-") value))))).bind fun startPos =>
        if asSize (wrapInt (asInt (find (bytes "-") value)+1)) < value.length then
          (lastRead value).map fun last => (startPos, min (wrap (last+1)) size)
        else some (startPos, size) := by
  unfold parseRange lastRead
  dsimp only
  split_ifs <;> rfl

theorem wrapInt_fits (n : ℤ) (h : -2^31 ≤ n) (h' : n < 2^31) : wrapInt n = n := by
  have hcast : ((2^32 : ℕ) : ℤ) = 2^32 := by norm_num
  exact Int.bmod_eq_of_le (by omega) (by omega)

theorem asSize_wrapInt : asSize (wrapInt (((2^31-1 : ℕ) : ℤ)+1)) = 2^64-2^31 := by decide

theorem find_dash (first last : Bytes) (hfirst : ∀ b ∈ first, isDigit b = true) :
    find (bytes "-") (first ++ dash::last) = some first.length := by
  apply find_after_clean dash [] first last
  intro hmem
  exact absurd (hfirst dash hmem) (by decide)

section Value
variable {first last : Bytes} {startPos endPos size : ℤ}

theorem readRight_of_last (value : Bytes) (a l : ℤ)
    (hstart : stoll (value.take (asSize (asInt (find (bytes "-") value)))) = some a)
    (hnext : asSize (wrapInt (asInt (find (bytes "-") value)+1)) < value.length)
    (hlast : lastRead value = some l) :
    ReadRight value startPos endPos size ↔
      FitsLong (l+1) ∧ startPos = a ∧ endPos = min (l+1) size := by
  unfold ReadRight
  rw [parseRange_eq, hstart, Option.bind_some, if_pos hnext, hlast, Option.map_some]
  constructor
  · intro ⟨hpair, hfit⟩
    have hl := hfit l rfl
    rw [wrap_fits _ hl.1 hl.2] at hpair
    cases hpair
    exact ⟨hl, rfl, rfl⟩
  · intro ⟨hl, hs, he⟩
    constructor
    · rw [wrap_fits _ hl.1 hl.2, hs, he]
    · intro n hn
      cases hn
      exact hl

theorem readRight_of_end (value : Bytes) (a : ℤ)
    (hstart : stoll (value.take (asSize (asInt (find (bytes "-") value)))) = some a)
    (hnext : value.length ≤ asSize (wrapInt (asInt (find (bytes "-") value)+1))) :
    ReadRight value startPos endPos size ↔ startPos = a ∧ endPos = size := by
  have hlast : lastRead value = none := if_neg (not_lt.mpr hnext)
  unfold ReadRight
  rw [parseRange_eq, hstart, Option.bind_some, if_neg (not_lt.mpr hnext), hlast]
  simp [eq_comm]

theorem not_readRight (value : Bytes) (h : parseRange value size = none) :
    ¬ ReadRight value startPos endPos size := by
  intro hright
  rw [hright.1] at h
  cases h

theorem parseRange_start_none (value : Bytes)
    (hstart : stoll (value.take (asSize (asInt (find (bytes "-") value)))) = none) :
    parseRange value size = none := by
  rw [parseRange_eq, hstart]
  rfl

theorem parseRange_last_none (value : Bytes) (a : ℤ)
    (hstart : stoll (value.take (asSize (asInt (find (bytes "-") value)))) = some a)
    (hnext : asSize (wrapInt (asInt (find (bytes "-") value)+1)) < value.length)
    (hlast : lastRead value = none) : parseRange value size = none := by
  rw [parseRange_eq, hstart, Option.bind_some, if_pos hnext, hlast]
  rfl

variable (hfirst : ∀ b ∈ first, isDigit b = true)
  (hsel : select first last size = some (startPos, endPos)) (hlt : startPos < endPos)
  (hsize : size < 2^63)
include hfirst hsel hlt hsize

theorem stoll_first (hne : first ≠ []) (t : Bytes) (ht : ∀ b ∈ t.head?, isDigit b = false) :
    stoll (first ++ t) = some startPos := by
  have hstart := (select_first first last size startPos endPos hne hsel).1
  have hend := (select_inside first last size startPos endPos hsel).2
  rw [stoll_digits first t hfirst hne ht, if_pos (by omega), hstart]

variable (hlast : ∀ b ∈ last, isDigit b = true) (hlen : first.length+1+last.length < 2^63)
include hlen

include hlast in
theorem readRight_near (hnear : first.length < 2^31-1) :
    ReadRight (first ++ dash::last) startPos endPos size ↔
      first ≠ [] ∧ (digits last : ℤ)+1 < 2^63 := by
  have hpos : asInt (find (bytes "-") (first ++ dash::last)) = first.length := by
    rw [find_dash first last hfirst]
    exact narrow_small _ (by omega)
  have htake : (first ++ dash::last).take
    (asSize (asInt (find (bytes "-") (first ++ dash::last)))) =
      first := by
    rw [hpos, asSize_cast _ (by omega), List.take_left]
  have hnext : asSize (wrapInt (asInt (find (bytes "-") (first ++ dash::last))+1)) =
    first.length+1 := by
    rw [hpos, wrapInt_fits _ (by omega) (by omega)]
    exact asSize_succ _ (by omega)
  by_cases hne : first = []
  · subst hne
    constructor
    · intro h
      exact absurd h (not_readRight _ (parseRange_start_none _ (by rw [htake]; rfl)))
    · intro h
      exact absurd rfl h.1
  · have hstart := stoll_first hfirst hsel hlt hsize hne [] (by simp)
    rw [List.append_nil] at hstart
    obtain ⟨-, hend⟩ := select_first first last size startPos endPos hne hsel
    by_cases hl : last = []
    · subst hl
      rw [readRight_of_end _ startPos (by rw [htake, hstart]) (by rw [hnext]; simp)]
      rw [if_pos rfl] at hend
      simp [hne, hend, digits]
    · rw [if_neg hl] at hend
      have hmore : asSize (wrapInt (asInt (find (bytes "-") (first ++ dash::last))+1)) <
          (first ++ dash::last).length := by
        have := List.length_pos_iff.mpr hl
        rw [hnext, List.length_append, List.length_cons]
        omega
      have hread : lastRead (first ++ dash::last) =
          if (digits last : ℤ) < 2^63 then some (digits last : ℤ) else none := by
        have hdrop : (first ++ dash::last).drop (first.length+1) = last := by
          rw [List.drop_append, List.drop_of_length_le (by omega)]
          simp
        unfold lastRead
        dsimp only
        rw [if_pos hmore, hnext, hdrop]
        simpa using stoll_digits last [] hlast hl (by simp)
      by_cases hbig : (digits last : ℤ) < 2^63
      · rw [if_pos hbig] at hread
        rw [readRight_of_last _ startPos (digits last) (by rw [htake, hstart]) hmore hread]
        unfold FitsLong
        constructor
        · intro h
          exact ⟨hne, h.1.2⟩
        · intro h
          exact ⟨⟨by omega, h.2⟩, rfl, hend⟩
      · rw [if_neg hbig] at hread
        constructor
        · intro h
          exact absurd h (not_readRight _
            (parseRange_last_none _ startPos (by rw [htake, hstart]) hmore hread))
        · intro h
          omega

theorem readRight_wrapped (hfar : 2^31 ≤ first.length) (hsmall : first.length%2^32 < 2^31-1) :
    ReadRight (first ++ dash::last) startPos endPos size ↔
      0 < first.length%2^32 ∧ startPos = 0 ∧ endPos = 1 := by
  have hne : first ≠ [] := List.ne_nil_of_length_pos (by omega)
  obtain ⟨hstart, hend⟩ := select_first first last size startPos endPos hne hsel
  have hinside := select_inside first last size startPos endPos hsel
  obtain ⟨r, hr⟩ : ∃ r, r = first.length%2^32 := ⟨_, rfl⟩
  have hpos : asInt (find (bytes "-") (first ++ dash::last)) = r := by
    rw [find_dash first last hfirst, hr]
    exact (narrow_mod first.length).trans (if_pos (by omega))
  rw [← hr] at hsmall ⊢
  have htake : (first ++ dash::last).take
      (asSize (asInt (find (bytes "-") (first ++ dash::last)))) = first.take r := by
    rw [hpos, asSize_cast _ (by omega), List.take_append_of_le_length (by omega)]
  have hnext : asSize (wrapInt (asInt (find (bytes "-") (first ++ dash::last))+1)) = r+1 := by
    rw [hpos, wrapInt_fits _ (by omega) (by omega)]
    exact asSize_succ _ (by omega)
  by_cases hzero : r = 0
  · have hnone : parseRange (first ++ dash::last) size = none :=
      parseRange_start_none (first ++ dash::last) (by rw [htake, hzero]; rfl)
    constructor
    · intro h
      exact absurd h (not_readRight _ hnone)
    · omega
  · have hhead : stoll (first.take r) = some (digits (first.take r) : ℤ) := by
      have hall : ∀ b ∈ first.take r, isDigit b = true :=
        fun b hb => hfirst b (List.mem_of_mem_take hb)
      have hle := digits_take_le first r
      have hread := stoll_digits (first.take r) [] hall
        (List.ne_nil_of_length_pos (by rw [List.length_take]; omega)) (by simp)
      rwa [List.append_nil, if_pos (by omega)] at hread
    have hmore : asSize (wrapInt (asInt (find (bytes "-") (first ++ dash::last))+1)) <
        (first ++ dash::last).length := by
      rw [hnext, List.length_append]
      omega
    have hdrop := digits_drop_le first (r+1)
    have hread : lastRead (first ++ dash::last) = some (digits (first.drop (r+1)) : ℤ) := by
      have hall : ∀ b ∈ first.drop (r+1), isDigit b = true :=
        fun b hb => hfirst b (List.mem_of_mem_drop hb)
      unfold lastRead
      dsimp only
      rw [if_pos hmore, hnext, List.drop_append_of_le_length (by omega),
        stoll_digits _ (dash::last) hall
          (List.ne_nil_of_length_pos (by rw [List.length_drop]; omega)) (by simp; decide),
        if_pos (by omega)]
    rw [readRight_of_last (first ++ dash::last) (digits (first.take r)) (digits (first.drop (r+1)))
      (by rw [htake, hhead]) hmore hread]
    unfold FitsLong
    constructor
    · intro h
      have hcut := digits_cut first r (by omega) (by omega)
      omega
    · intro h
      have htakele := digits_take_le first r
      omega

theorem readRight_negative (hbig : 2^31 ≤ first.length%2^32) :
    ReadRight (first ++ dash::last) startPos endPos size ↔
      (first.length%2^32 < 2^32-1 ∧ endPos = size) ∨
        (first.length%2^32 = 2^32-1 ∧ endPos = startPos+1) := by
  have hne : first ≠ [] := List.ne_nil_of_length_pos (by omega)
  obtain ⟨hstart, hend⟩ := select_first first last size startPos endPos hne hsel
  have hinside := select_inside first last size startPos endPos hsel
  have hwhole := stoll_first hfirst hsel hlt hsize hne (dash::last) (by simp; decide)
  obtain ⟨r, hr⟩ : ∃ r, r = first.length%2^32 := ⟨_, rfl⟩
  have hpos : asInt (find (bytes "-") (first ++ dash::last)) = (r : ℤ)-2^32 := by
    rw [find_dash first last hfirst, hr]
    exact (narrow_mod first.length).trans (if_neg (not_lt.mpr hbig))
  rw [← hr] at hbig ⊢
  have hbound : r < 2^32 := by omega
  have htake : (first ++ dash::last).take
      (asSize (asInt (find (bytes "-") (first ++ dash::last)))) = first ++ dash::last := by
    apply List.take_of_length_le
    rw [hpos, List.length_append, List.length_cons]
    unfold asSize
    omega
  by_cases hminus : r = 2^32-1
  · have hnext : asSize (wrapInt (asInt (find (bytes "-") (first ++ dash::last))+1)) = 0 := by
      rw [hpos, wrapInt_fits _ (by omega) (by omega)]
      unfold asSize
      omega
    have hmore : asSize (wrapInt (asInt (find (bytes "-") (first ++ dash::last))+1)) <
        (first ++ dash::last).length := by
      rw [hnext]
      simp
    have hread : lastRead (first ++ dash::last) = some startPos := by
      unfold lastRead
      dsimp only
      rw [if_pos hmore, hnext, List.drop_zero, hwhole]
    rw [readRight_of_last (first ++ dash::last) startPos startPos
      (by rw [htake, hwhole]) hmore hread]
    unfold FitsLong
    omega
  · have hnext : (first ++ dash::last).length ≤
        asSize (wrapInt (asInt (find (bytes "-") (first ++ dash::last))+1)) := by
      rw [hpos, wrapInt_fits _ (by omega) (by omega), List.length_append, List.length_cons]
      unfold asSize
      omega
    rw [readRight_of_end _ startPos (by rw [htake, hwhole]) hnext]
    omega

/-- The position comes out as the last one of an `int`, and the one behind it overflows: what
follows the dash is not looked at. -/
theorem readRight_last (hedge : first.length%2^32 = 2^31-1) :
    ReadRight (first ++ dash::last) startPos endPos size ↔
      endPos = size ∧ (first.length = 2^31-1 ∨ startPos = 0) := by
  have hne : first ≠ [] := List.ne_nil_of_length_pos (by omega)
  obtain ⟨hstart, hend⟩ := select_first first last size startPos endPos hne hsel
  have hinside := select_inside first last size startPos endPos hsel
  have hpos : asInt (find (bytes "-") (first ++ dash::last)) = ((2^31-1 : ℕ) : ℤ) := by
    rw [find_dash first last hfirst]
    refine (narrow_mod first.length).trans ?_
    rw [hedge, if_pos (by omega)]
  have htake : (first ++ dash::last).take
      (asSize (asInt (find (bytes "-") (first ++ dash::last)))) = first.take (2^31-1) := by
    rw [hpos, asSize_cast _ (by omega), List.take_append_of_le_length (by omega)]
  have hnext : (first ++ dash::last).length ≤
      asSize (wrapInt (asInt (find (bytes "-") (first ++ dash::last))+1)) := by
    rw [hpos, asSize_wrapInt, List.length_append, List.length_cons]
    omega
  have hhead : stoll (first.take (2^31-1)) = some (digits (first.take (2^31-1)) : ℤ) := by
    have hall : ∀ b ∈ first.take (2^31-1), isDigit b = true :=
      fun b hb => hfirst b (List.mem_of_mem_take hb)
    have hle := digits_take_le first (2^31-1)
    have hread := stoll_digits (first.take (2^31-1)) [] hall
      (List.ne_nil_of_length_pos (by rw [List.length_take]; omega)) (by simp)
    rwa [List.append_nil, if_pos (by omega)] at hread
  rw [readRight_of_end _ (digits (first.take (2^31-1)) : ℤ) (by rw [htake, hhead]) hnext]
  have htakele := digits_take_le first (2^31-1)
  by_cases hexact : first.length = 2^31-1
  · have hall : first.take (2^31-1) = first := List.take_of_length_le hexact.le
    rw [hall]
    omega
  · constructor
    · intro h
      have hcut := digits_cut first (2^31-1) (by omega) (by omega)
      omega
    · omega

theorem readRight_far (hfar : 2^31-1 ≤ first.length) :
    ReadRight (first ++ dash::last) startPos endPos size ↔
      (2^31-1 ≤ first.length%2^32 ∧ first.length%2^32 < 2^32-1 ∧ endPos = size ∧
        (first.length%2^32 = first.length ∨ 2^31 ≤ first.length%2^32 ∨ startPos = 0)) ∨
      (first.length%2^32 = 2^32-1 ∧ endPos = startPos+1) ∨
      (0 < first.length%2^32 ∧ first.length%2^32 < 2^31-1 ∧ startPos = 0 ∧ endPos = 1) := by
  rcases lt_trichotomy (first.length%2^32) (2^31-1) with hsmall | hedge | hbig
  · rw [readRight_wrapped hfirst hsel hlt hsize hlen (by omega) hsmall]
    omega
  · rw [readRight_last hfirst hsel hlt hsize hlen hedge]
    omega
  · rw [readRight_negative hfirst hsel hlt hsize hlen (by omega)]
    omega

include hlast in
theorem readRight_iff :
    ReadRight (first ++ dash::last) startPos endPos size ↔
      DashFound first last startPos endPos size := by
  by_cases hnear : first.length < 2^31-1
  · rw [readRight_near hfirst hsel hlt hsize hlast hlen hnear]
    simp only [DashFound, hnear, if_true]
  · rw [readRight_far hfirst hsel hlt hsize hlen (not_lt.mp hnear)]
    simp only [DashFound, hnear, if_false]

end Value

theorem partOfFile_answer (info : BackupInfoNode) (h : HeadInfo) (id : NodeId) (range : Bytes)
    (startPos endPos : ℤ) (hif : h.requestHeaders.lookup (bytes "if-range") = some (etag info))
    (hrange : h.requestHeaders.lookup (bytes "range") = some range)
    (hask : asked range info.size = some (startPos, endPos)) (hsize : info.size < 2^63) :
    PartAnswer info h (partOfFile info startPos endPos (wholeFile info h))
      ⟨id, startPos, endPos⟩ := by
  obtain ⟨first, last, -, hsel, hlt⟩ := asked_some range info.size startPos endPos hask
  have hinside := select_inside first last info.size startPos endPos hsel
  constructor
  · rfl
  · exact hif
  · exact ⟨range, hrange, hask⟩
  · exact ⟨hinside.1, hlt, hinside.2⟩
  · rw [partOfFile, setHeader_other _ _ _ _ (by decide), setHeader_lookup,
      rangeLength_fits hinside.1 hlt.le (by omega)]
  · rw [partOfFile, setHeader_lookup, wrap_fits _ (by omega) (by omega)]

theorem partOfFile_not_whole (info : BackupInfoNode) (h : HeadInfo) (task : SendTask)
    (startPos endPos : ℤ) : ¬ WholeAnswer info (partOfFile info startPos endPos h) task := by
  intro hwhole
  exact absurd hwhole.status (by decide : bytes "206" ≠ bytes "200")

section Request
variable {h : HeadInfo} {s : Store} {id : NodeId} {ifRange range : Bytes}
  (hid : getFileInfoNode h.curDownloadFile s = some id)
  (hif : h.requestHeaders.lookup (bytes "if-range") = some ifRange)
  (hrange : h.requestHeaders.lookup (bytes "range") = some range)
include hid hif hrange

theorem processDownloadRequest_range :
    processDownloadRequest h s =
      (if ifRangeMatches (s.nodes id).info ifRange range
        then parseRange (range.drop 6) (s.nodes id).info.size
        else some (0, (s.nodes id).info.size)).map fun r =>
      (partOfFile (s.nodes id).info r.1 r.2 (wholeFile (s.nodes id).info h),
        some ⟨id, r.1, r.2⟩) := by
  rw [processDownloadRequest, hid]
  dsimp only
  rw [hif, hrange]
  rfl

theorem rightAnswer_range (hsize : (s.nodes id).info.size < 2^63) :
    RightAnswer h s (processDownloadRequest h s) ↔
      ifRange = etag (s.nodes id).info ∧ ∃ startPos endPos,
        asked range (s.nodes id).info.size = some (startPos, endPos) ∧
        ReadRight (range.drop 6) startPos endPos (s.nodes id).info.size ∧
        ∀ n ∈ [endPos-startPos, endPos-1], FitsLong n := by
  rw [processDownloadRequest_range hid hif hrange]
  constructor
  · intro hright
    cases hread : (if ifRangeMatches (s.nodes id).info ifRange range
        then parseRange (range.drop 6) (s.nodes id).info.size
        else some (0, (s.nodes id).info.size)) with
    | none =>
      rw [hread] at hright
      exact hright.elim
    | some r =>
      rw [hread] at hright
      obtain ⟨hsums, hpart | hwhole⟩ := hright
      · have hcur := hpart.current
        rw [hif] at hcur
        cases hcur
        obtain ⟨range', hrange', hask⟩ := hpart.part
        rw [hrange] at hrange'
        cases hrange'
        obtain ⟨first, last, hreq, -, -⟩ := asked_some range _ _ _ hask
        have hmatch : ifRangeMatches (s.nodes id).info (etag (s.nodes id).info) range :=
          ⟨rfl, (requested_some range first last hreq).1⟩
        rw [if_pos hmatch] at hread
        have hfits := hsums _ _ hif hrange
        unfold sums at hfits
        rw [if_pos hmatch] at hfits
        refine ⟨rfl, r.1, r.2, hask, ⟨hread, fun n hn => ?_⟩, fun n hn => ?_⟩
        · exact hfits (n+1) (by simp [hn])
        · exact hfits n (List.mem_append_right _ hn)
      · exact absurd hwhole (partOfFile_not_whole _ _ _ _ _)
  · intro ⟨hcur, startPos, endPos, hask, hread, hfits⟩
    obtain ⟨first, last, hreq, -, -⟩ := asked_some range _ _ _ hask
    have hmatch : ifRangeMatches (s.nodes id).info ifRange range :=
      ⟨hcur, (requested_some range first last hreq).1⟩
    rw [if_pos hmatch, hread.1]
    constructor
    · intro ifRange' range' hif' hrange' n hn
      rw [hif] at hif'
      rw [hrange] at hrange'
      cases hif'
      cases hrange'
      unfold sums at hn
      rw [if_pos hmatch] at hn
      cases List.mem_append.mp hn with
      | inl hlast =>
        obtain ⟨l, hl, rfl⟩ := by simpa using hlast
        exact hread.2 l hl
      | inr hdiff => exact hfits n hdiff
    · exact Or.inl (partOfFile_answer _ _ _ range _ _ (hcur ▸ hif) hrange hask hsize)

end Request

theorem asked_fits (range : Bytes) (size startPos endPos : ℤ) (hsize : size < 2^63)
    (hask : asked range size = some (startPos, endPos)) :
    ∀ n ∈ [endPos-startPos, endPos-1], FitsLong n := by
  obtain ⟨first, last, -, hsel, hlt⟩ := asked_some range size startPos endPos hask
  have hinside := select_inside first last size startPos endPos hsel
  simp only [List.mem_cons, List.not_mem_nil, or_false, forall_eq_or_imp, forall_eq, FitsLong]
  omega

theorem readRight_asked (range : Bytes) (size startPos endPos : ℤ) (hsize : size < 2^63)
    (hlen : range.length < 2^63) (hask : asked range size = some (startPos, endPos)) :
    ReadRight (range.drop 6) startPos endPos size ↔
      ∃ first last, requested range = some (first, last) ∧
        DashFound first last startPos endPos size := by
  obtain ⟨first, last, hreq, hsel, hlt⟩ := asked_some range size startPos endPos hask
  obtain ⟨-, hvalue, hfirst, hlast⟩ := requested_some range first last hreq
  have hshort : first.length+1+last.length < 2^63 := by
    have hdrop := congrArg List.length hvalue
    rw [List.length_drop, List.length_append, List.length_cons] at hdrop
    omega
  rw [hvalue, readRight_iff hfirst hsel hlt hsize hlast hshort]
  constructor
  · intro h
    exact ⟨first, last, hreq, h⟩
  · intro ⟨first', last', hreq', h⟩
    rw [hreq] at hreq'
    cases hreq'
    exact h

/-- For a record of any size and any two headers the answer is right if and only if one of
the headers is missing, or the condition is met and the part selected is found where the
dash is looked for. -/
theorem rangeRequest_right (h : HeadInfo) (s : Store)
    (hsize : ∀ id, getFileInfoNode h.curDownloadFile s = some id → (s.nodes id).info.size < 2^63)
    (hlen : ∀ range, h.requestHeaders.lookup (bytes "range") = some range → range.length < 2^63) :
    RightAnswer h s (processDownloadRequest h s) ↔ WellAsked h s := by
  cases hid : getFileInfoNode h.curDownloadFile s with
  | none =>
    have hanswer : processDownloadRequest h s =
        some (setStatus (bytes "404") (bytes "Not Found") h, none) := by
      rw [processDownloadRequest, hid]
    rw [hanswer]
    constructor
    · intro _ id _ _ hid'
      rw [hid] at hid'
      cases hid'
    · intro _
      exact ⟨(by decide : bytes "404" ≠ bytes "200"), (by decide : bytes "404" ≠ bytes "206")⟩
  | some id =>
    by_cases hboth : ∃ ifRange range, h.requestHeaders.lookup (bytes "if-range") = some ifRange ∧
        h.requestHeaders.lookup (bytes "range") = some range
    · obtain ⟨ifRange, range, hif, hrange⟩ := hboth
      rw [rightAnswer_range hid hif hrange (hsize id hid)]
      constructor
      · intro ⟨hcur, startPos, endPos, hask, hread, _⟩ id' ifRange' range' hid' hif' hrange'
        rw [hid] at hid'
        rw [hif] at hif'
        rw [hrange] at hrange'
        cases hid'
        cases hif'
        cases hrange'
        obtain ⟨first, last, hreq, hfound⟩ := (readRight_asked range _ startPos endPos
          (hsize id hid) (hlen range hrange) hask).mp hread
        exact ⟨hcur, first, last, startPos, endPos, hreq, hask, hfound⟩
      · intro hwell
        obtain ⟨hcur, first, last, startPos, endPos, hreq, hask, hfound⟩ :=
          hwell id ifRange range hid hif hrange
        have hread := (readRight_asked range _ startPos endPos
          (hsize id hid) (hlen range hrange) hask).mpr ⟨first, last, hreq, hfound⟩
        exact ⟨hcur, startPos, endPos, hask, hread,
          asked_fits range _ startPos endPos (hsize id hid) hask⟩
    · have hanswer : processDownloadRequest h s =
          some (wholeFile (s.nodes id).info h, some ⟨id, 0, (s.nodes id).info.size⟩) := by
        rw [processDownloadRequest, hid]
        dsimp only
        split
        · rename_i ifRange range hif hrange
          exact absurd ⟨ifRange, range, hif, hrange⟩ hboth
        · rfl
      rw [hanswer]
      constructor
      · intro _ id' ifRange range _ hif hrange
        exact absurd ⟨ifRange, range, hif, hrange⟩ hboth
      · intro _
        constructor
        · intro ifRange range hif hrange
          exact absurd ⟨ifRange, range, hif, hrange⟩ hboth
        · exact Or.inr ⟨rfl, rfl, rfl⟩

def helloRequest (ifRange range : Bytes) : HeadInfo :=
  { curDownloadFile := bytes "f"
    requestHeaders := ((∅ : Table Bytes).insert (bytes "if-range") ifRange).insert
      (bytes "range") range }

def helloEtag : Bytes := etag (helloStore.nodes 0).info

theorem rangeRequest_right_hello :
    RightAnswer (helloRequest helloEtag (bytes "bytes=1-3")) helloStore
      (processDownloadRequest (helloRequest helloEtag (bytes "bytes=1-3")) helloStore) ↔
    WellAsked (helloRequest helloEtag (bytes "bytes=1-3")) helloStore := by
  apply rangeRequest_right
  · intro id hid
    have hzero : some 0 = some id := hid
    cases hzero
    decide
  · intro range hrange
    have hvalue : some (bytes "bytes=1-3") = some range := hrange
    cases hvalue
    decide

/-- The last two bytes are asked for with `-2`, and an `If-Range` that is out of date. -/
theorem suffixRange_throws :
    processDownloadRequest (helloRequest helloEtag (bytes "bytes=-2")) helloStore = none ∧
    ¬ RightAnswer (helloRequest helloEtag (bytes "bytes=-2")) helloStore
      (processDownloadRequest (helloRequest helloEtag (bytes "bytes=-2")) helloStore) ∧
    ∃ h' task, processDownloadRequest (helloRequest (bytes "old") (bytes "bytes=1-3")) helloStore =
      some (h', some task) ∧ h'.responseStatus = bytes "206" ∧ bytes "old" ≠ helloEtag := by
  have hthrows : processDownloadRequest (helloRequest helloEtag (bytes "bytes=-2"))
    helloStore = none := by
    decide
  constructor
  · exact hthrows
  · constructor
    · rw [hthrows]
      exact id
    · exact ⟨_, _, rfl, rfl, by decide⟩

end CloudBackup.RangeRequests
