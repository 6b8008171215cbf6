import CloudBackup.UploadScanner

/-!
# What an upload body means

`decode` reads a whole body at once, with positions that are not narrowed
and without a residual buffer. It is the reference the incremental scanner
is compared with: under the conditions of a turn, the turn leaves the
meaning of its buffer followed by anything still to come unchanged.
-/

set_option autoImplicit false

namespace CloudBackup.UploadDecoder
open CloudBackup.PatternSearch CloudBackup.ByteStrings CloudBackup.FilePath
open CloudBackup.FileStore CloudBackup.DataManager CloudBackup.UploadScanner

/-- The filename of a part header, given the text before its blank line. -/
def partFilename (head : Bytes) : Option Bytes :=
  match find filenameKey head with
  | none => none
  | some k =>
    let rest := head.drop (k+filenameKey.length)
    (find [quote] rest).map rest.take

def copyUpload (env : Env) (content : Bytes) (h : HeadInfo) (s : Store) : Store :=
  if content = [] then s
  else { s with disk := (appendContent env (targetFile env h.curUploadFile) content s.disk).2 }

def decode (env : Env) (h : HeadInfo) (s : Store) (u : Bytes) : Bool × HeadInfo × Store :=
  if u.length ≤ h.bodyBoundary.length+sep.length then (true, h, s)
  else if h.curUploadFile = [] then
    match find h.bodyBoundary u with
    | none => (true, h, s)
    | some i =>
      match find (sep ++ sep) (u.drop i) with
      | none => (true, h, s)
      | some e =>
        match partFilename ((u.drop i).take e) with
        | none => (false, h, s)
        | some name =>
          let o := openUpload env name h s
          decode env o.1 o.2 (u.drop (i+(e+4)))
  else
    match find (sep ++ h.bodyBoundary) u with
    | none => (true, h, copyUpload env (u.take (u.length-h.bodyBoundary.length-sep.length)) h s)
    | some i =>
      let f := finishUpload env h (copyUpload env (u.take i) h s)
      decode env f.1 f.2 (u.drop i)
termination_by 2*u.length+(if h.curUploadFile = [] then 0 else 1)
decreasing_by
  · simp only [List.length_drop]
    split_ifs <;> omega
  · simp only [List.length_drop, finishUpload, if_true, if_neg ‹¬ h.curUploadFile = []›]
    omega

def blank (h : HeadInfo) : HeadInfo := setBody h []

theorem openUpload_blank (env : Env) (name : Bytes) (h : HeadInfo) (s : Store) :
    openUpload env name (blank h) s =
      (blank (openUpload env name h s).1, (openUpload env name h s).2) := by
  unfold openUpload
  dsimp only
  split_ifs <;> rfl

theorem openUpload_body (env : Env) (name : Bytes) (h : HeadInfo) (s : Store) :
    (openUpload env name h s).1.requestBody = h.requestBody ∧
      (openUpload env name h s).1.bodyBoundary = h.bodyBoundary := by
  unfold openUpload
  dsimp only
  split_ifs <;> exact ⟨rfl, rfl⟩

theorem filenameKey_before (body : Bytes) (e k : ℕ) (he : find (sep ++ sep) body = some e)
    (hk : find filenameKey body = some k) (hke : k ≤ e) : k+filenameKey.length ≤ e := by
  by_contra hlt
  have h1 := find_getElem (sep ++ sep) body e 0 he (by decide)
  have h2 := find_getElem filenameKey body k (e-k) hk (by omega)
  rw [Nat.add_sub_cancel' hke] at h2
  rw [Nat.add_zero, h2] at h1
  exact absurd (List.mem_of_getElem? h1) (by decide)

theorem quote_before (body : Bytes) (e p q : ℕ) (he : find (sep ++ sep) body = some e)
    (hq : find [quote] (body.drop p) = some q) : q+p ≠ e := by
  rintro rfl
  have h1 := find_getElem (sep ++ sep) body _ 0 he (by decide)
  have h2 := find_getElem [quote] (body.drop p) q 0 hq (by decide)
  rw [List.getElem?_drop, Nat.add_zero, Nat.add_comm p q] at h2
  rw [Nat.add_zero, h2] at h1
  exact absurd h1 (by decide)

theorem find_take (pat body : Bytes) (e : ℕ) (he : e ≤ body.length) :
    find pat (body.take e) = (find pat body).filter fun k => k+pat.length ≤ e := by
  have hlen : (body.take e).length = e := by simp [he]
  cases ht : find pat (body.take e) with
  | some k =>
    have hle := find_le pat _ k ht
    have hb := find_append pat _ (body.drop e) k ht
    rw [List.take_append_drop] at hb
    rw [hlen] at hle
    simp [hb, Option.filter, hle]
  | none =>
    cases hb : find pat body with
    | none => rfl
    | some k =>
      by_cases hk : k+pat.length ≤ e
      · rw [← List.take_append_drop e body] at hb
        rw [find_append_left pat _ _ k hb (by omega)] at ht
        cases ht
      · simp [Option.filter, hk]

theorem partFilename_take (body : Bytes) (e : ℕ) (he : find (sep ++ sep) body = some e) :
    partFilename (body.take e) =
      match find filenameKey body with
      | none => none
      | some k =>
        if e < k then none
        else match find [quote] (body.drop (k+filenameKey.length)) with
          | none => none
          | some q => if e < q+(k+filenameKey.length) then none
              else some ((body.drop (k+filenameKey.length)).take q) := by
  have hle : e ≤ body.length := by
    have := find_le _ _ _ he
    omega
  rw [partFilename, find_take filenameKey body e hle]
  cases hk : find filenameKey body with
  | none => rfl
  | some k =>
    by_cases hke : k ≤ e
    · have hend := filenameKey_before body e k he hk hke
      simp only [Option.filter, hend, decide_true, if_true, not_lt.mpr hke, if_false]
      rw [List.drop_take, find_take [quote] _ _ (by rw [List.length_drop]; omega)]
      cases hq : find [quote] (body.drop (k+filenameKey.length)) with
      | none => rfl
      | some q =>
        have hne := quote_before body e _ q he hq
        by_cases hqe : q+1 ≤ e-(k+filenameKey.length)
        · have hcond : ¬ e < q+(k+filenameKey.length) := by omega
          have hmin : min q (e-(k+filenameKey.length)) = q := by omega
          simp [Option.filter, hqe, hcond, List.take_take, hmin]
        · have hcond : e < q+(k+filenameKey.length) := by omega
          simp [Option.filter, hqe, hcond]
    · have hend : ¬ k+filenameKey.length ≤ e := by omega
      simp [Option.filter, hend, not_le.mp hke]

theorem asSize_small (n : ℕ) (h : n < 2^31) : asSize (n : ℤ) = n := asSize_cast n (by omega)

theorem headTurn_fits (env : Env) (h : HeadInfo) (s : Store) (hf : HeadFits h.requestBody) :
    headTurn env h s =
      match find (sep ++ sep) h.requestBody with
      | none => .leaves true h s
      | some e =>
        match partFilename (h.requestBody.take e) with
        | none => .leaves false h s
        | some name =>
          let o := openUpload env name (setBody h (h.requestBody.drop (e+4))) s
          .again o.1 o.2 := by
  obtain ⟨hsmall, hkeys⟩ := hf
  unfold headTurn
  dsimp only
  cases he : find (sep ++ sep) h.requestBody with
  | none => simp [asInt_none]
  | some e =>
    rw [he] at hsmall
    obtain ⟨hks, hqs⟩ := hkeys e he
    have he31 := hsmall e rfl
    dsimp only
    rw [partFilename_take _ e he, asInt_some e hsmall, if_neg (by omega)]
    cases hk : find filenameKey h.requestBody with
    | none => simp [asInt_none]
    | some k =>
      rw [hk] at hks
      dsimp only
      rw [asInt_some k hks]
      by_cases hke : e < k
      · simp [hke]
      · have hend := filenameKey_before _ e k he hk (by omega)
        have hbody := find_le _ _ _ he
        have hpos : narrow (asSize (k:ℤ)+filenameKey.length) = (k+filenameKey.length : ℕ) := by
          rw [asSize_small k (hks k rfl), narrow_small _ (by omega)]
        have hfrom : findFrom [quote] (k+filenameKey.length) h.requestBody =
            (find [quote] (h.requestBody.drop (k+filenameKey.length))).map
              (· + (k+filenameKey.length)) := by
          rw [findFrom, if_neg (by omega)]
        have hqsmall := hqs k hk (by omega)
        rw [if_neg (by omega), hpos, asSize_small (k+filenameKey.length) (by omega)]
        rw [hfrom] at hqsmall ⊢
        cases hq : find [quote] (h.requestBody.drop (k+filenameKey.length)) with
        | none => simp [asInt_none, hke]
        | some q =>
          rw [hq, Option.map_some] at hqsmall
          have hq31 := hqsmall _ rfl
          rw [Option.map_some, asInt_some _ hqsmall]
          by_cases hqe : e < q+(k+filenameKey.length)
          · have : (e:ℤ) < (q+(k+filenameKey.length) : ℕ) := by exact_mod_cast hqe
            simp only [this, or_true, if_true, hke, if_false, hqe]
          · have hname :
                asSize (((q+(k+filenameKey.length) : ℕ) : ℤ)-(k+filenameKey.length : ℕ)) = q := by
              have hq64 := asSize_small q (by omega)
              have hsub :
                  ((q+(k+filenameKey.length) : ℕ) : ℤ)-(k+filenameKey.length : ℕ) = (q:ℤ) := by
                omega
              rw [hsub, hq64]
            have hrest : asSize ((e:ℤ)+4) = e+4 := asSize_cast (e+4) (by omega)
            rw [if_neg (by omega), if_neg (by omega), hname, hrest]
            simp only [hke, if_false, hqe]

theorem searchTurn_fits (env : Env) (h : HeadInfo) (s : Store)
    (hf : Small (find h.bodyBoundary h.requestBody)) :
    searchTurn env h s =
      match find h.bodyBoundary h.requestBody with
      | none =>
        .again (setBody h (h.requestBody.drop (h.requestBody.length-h.bodyBoundary.length))) s
      | some i => headTurn env (setBody h (h.requestBody.drop i)) s := by
  unfold searchTurn
  dsimp only
  cases hi : find h.bodyBoundary h.requestBody with
  | none => simp [asInt_none]
  | some i =>
    rw [hi] at hf
    have hi31 := hf i rfl
    rw [asInt_some i hf, if_neg (by omega), asSize_small i hi31]
    cases i with
    | zero => simp
    | succ i => rw [if_pos (by omega)]

theorem fileTurn_fits (env : Env) (h : HeadInfo) (s : Store)
    (hs : s.disk.faults = []) (hw : writable env (targetFile env h.curUploadFile) = true)
    (hf : Small (find (sep ++ h.bodyBoundary) h.requestBody)) :
    fileTurn env h s =
      match find (sep ++ h.bodyBoundary) h.requestBody with
      | none =>
        let n := h.requestBody.length-h.bodyBoundary.length-sep.length
        .again (setBody h (h.requestBody.drop n)) (copyUpload env (h.requestBody.take n) h s)
      | some i =>
        let f := finishUpload env (setBody h (h.requestBody.drop i))
          (copyUpload env (h.requestBody.take i) h s)
        .again f.1 f.2 := by
  have hcopy : ∀ content, (if content = [] then (true, s.disk)
        else appendContent env (targetFile env h.curUploadFile) content s.disk) =
      (true, (copyUpload env content h s).disk) := fun content => by
    unfold copyUpload
    split_ifs
    · rfl
    · simp [appendContent_clean hs env _ content hw]
  have hstore : ∀ content, { s with disk := (copyUpload env content h s).disk } =
      copyUpload env content h s := fun content => by
    unfold copyUpload
    split_ifs <;> rfl
  unfold fileTurn
  dsimp only
  cases hi : find (sep ++ h.bodyBoundary) h.requestBody with
  | none =>
    have hlen : (h.requestBody.take
      (h.requestBody.length-h.bodyBoundary.length-sep.length)).length =
        h.requestBody.length-h.bodyBoundary.length-sep.length := by
      rw [List.length_take]
      omega
    simp only [asInt_none, if_true, setBody_curUploadFile, hcopy, hstore, hlen, Bool.not_true,
      Bool.false_eq_true, if_false]
  | some i =>
    rw [hi] at hf
    have hi31 := hf i rfl
    have hle := find_le _ _ _ hi
    have hlen : (h.requestBody.take i).length = i := by
      rw [List.length_take]
      omega
    have hne : ¬ (i:ℤ) = -1 := by omega
    simp only [asInt_some i hf, hne, if_false, asSize_small i hi31, setBody_curUploadFile, hcopy,
      hstore, hlen, Bool.not_true, Bool.false_eq_true]

theorem copyUpload_nil (env : Env) (h : HeadInfo) (s : Store) : copyUpload env [] h s = s := rfl

theorem copyUpload_clean (env : Env) (a : Bytes) (h : HeadInfo) (s : Store) (ha : a ≠ [])
    (hs : s.disk.faults = []) (hw : writable env (targetFile env h.curUploadFile) = true) :
    copyUpload env a h s =
      { s with disk := s.disk.write (targetFile env h.curUploadFile)
                ((s.disk.files.lookup (targetPath env h.curUploadFile)).getD [] ++ a) } := by
  simp [copyUpload, ha, appendContent_clean hs env _ a hw, targetPath]

theorem copyUpload_faults (env : Env) (a : Bytes) (h : HeadInfo) (s : Store)
    (hs : s.disk.faults = []) (hw : writable env (targetFile env h.curUploadFile) = true) :
    (copyUpload env a h s).disk.faults = [] := by
  by_cases ha : a = []
  · rw [ha, copyUpload_nil, hs]
  · rw [copyUpload_clean env a h s ha hs hw]
    exact write_clean hs _ _

theorem copyUpload_append (env : Env) (a b : Bytes) (h : HeadInfo) (s : Store)
    (hs : s.disk.faults = []) (hw : writable env (targetFile env h.curUploadFile) = true) :
    copyUpload env (a ++ b) h s = copyUpload env b h (copyUpload env a h s) := by
  by_cases ha : a = []
  · simp [ha, copyUpload_nil]
  by_cases hb : b = []
  · simp [hb, copyUpload_nil]
  rw [copyUpload_clean env b h _ hb (copyUpload_faults env a h s hs hw) hw,
    copyUpload_clean env a h s ha hs hw,
    copyUpload_clean env (a ++ b) h s (by simp [ha]) hs hw]
  simp [write_write, targetPath, write_lookup]

theorem copyUpload_blank (env : Env) (a : Bytes) (h : HeadInfo) (s : Store) (body : Bytes) :
    copyUpload env a (setBody h body) s = copyUpload env a h s := rfl

theorem finishUpload_blank (env : Env) (h : HeadInfo) (s : Store) (body : Bytes) :
    finishUpload env (setBody h body) s =
      (setBody (finishUpload env h s).1 body, (finishUpload env h s).2) := rfl

theorem finishUpload_faults (env : Env) (h : HeadInfo) (s : Store) (hs : s.disk.faults = []) :
    (finishUpload env h s).2.disk.faults = [] := by
  simp only [finishUpload, insert_disk, getFileSize]
  split <;> exact next_clean _ hs

theorem register_clean (env : Env) (name : Bytes) (s : Store) (hs : s.disk.faults = []) :
    (register env name s).2.disk.faults = [] ∧
      ((register env name s).1 = true → writable env (targetFile env name) = true) := by
  unfold register
  dsimp only
  split_ifs with h1 h2 h3
  · exact ⟨hs, fun h => by simp at h⟩
  · exact ⟨hs, fun h => by simp at h⟩
  · by_cases hw : writable env (targetFile env name) = true
    · rw [prepareFile_clean hs env _ hw]
      exact ⟨write_clean hs _ _, fun _ => hw⟩
    · rw [prepareFile_refused hs env _ (by simpa using hw)] at h3
      cases h3
  · by_cases hw : writable env (targetFile env name) = true
    · rw [prepareFile_clean hs env _ hw] at h3
      exact absurd rfl h3
    · rw [prepareFile_refused hs env _ (by simpa using hw)]
      exact ⟨hs, fun h => by simp at h⟩

structure Ready (env : Env) (h : HeadInfo) (s : Store) : Prop where
  clean : s.disk.faults = []
  target : h.curUploadFile ≠ [] → writable env (targetFile env h.curUploadFile) = true
  boundary : 13 ∉ h.bodyBoundary

theorem ready_setBody {env : Env} {h : HeadInfo} {s : Store} (hr : Ready env h s) (body : Bytes) :
    Ready env (setBody h body) s := ⟨hr.clean, hr.target, hr.boundary⟩

theorem ready_openUpload {env : Env} {h : HeadInfo} {s : Store} (hr : Ready env h s)
    (name : Bytes) :
    Ready env (openUpload env name h s).1 (openUpload env name h s).2 := by
  have hreg := register_clean env name s hr.clean
  refine ⟨?_, ?_, by rw [(openUpload_body env name h s).2]; exact hr.boundary⟩
  · unfold openUpload
    dsimp only
    split_ifs
    · exact hr.clean
    · exact hreg.1
    · exact hreg.1
  · unfold openUpload
    dsimp only
    split_ifs with h1 h2
    · exact fun h => absurd rfl h
    · exact fun _ => hreg.2 h2
    · exact fun h => absurd rfl h

theorem ready_finishUpload {env : Env} {h : HeadInfo} {s : Store} (hr : Ready env h s) :
    Ready env (finishUpload env h s).1 (finishUpload env h s).2 :=
  ⟨finishUpload_faults env h s hr.clean, fun h => absurd rfl h, hr.boundary⟩

theorem ready_copyUpload {env : Env} {h : HeadInfo} {s : Store} (hr : Ready env h s)
    (hc : h.curUploadFile ≠ []) (a : Bytes) : Ready env h (copyUpload env a h s) :=
  ⟨copyUpload_faults env a h s hr.clean (hr.target hc), hr.target, hr.boundary⟩

def meaning (env : Env) (h : HeadInfo) (s : Store) (y : Bytes) : Bool × HeadInfo × Store :=
  decode env (blank h) s (h.requestBody ++ y)

theorem boundary_before (b u : Bytes) (i e : ℕ) (hb : 13 ∉ b) (hi : find b u = some i)
    (he : find (sep ++ sep) (u.drop i) = some e) : b.length ≤ e := by
  by_contra hlt
  have h1 := find_getElem (sep ++ sep) _ e 0 he (by decide)
  have h2 := find_getElem b u i e hi (by omega)
  rw [Nat.add_zero, List.getElem?_drop, h2] at h1
  exact hb (List.mem_of_getElem? (h1.trans (by decide : (sep ++ sep)[0]? = some 13)))

/-- While looking for a part header the length test decides nothing: a
complete header is longer than what the loop leaves alone. -/
theorem decode_search (env : Env) (h : HeadInfo) (s : Store) (u : Bytes)
    (hc : h.curUploadFile = []) (hb : 13 ∉ h.bodyBoundary) :
    decode env h s u =
      match find h.bodyBoundary u with
      | none => (true, h, s)
      | some i =>
        match find (sep ++ sep) (u.drop i) with
        | none => (true, h, s)
        | some e =>
          match partFilename ((u.drop i).take e) with
          | none => (false, h, s)
          | some name =>
            let o := openUpload env name h s
            decode env o.1 o.2 (u.drop (i+(e+4))) := by
  rw [decode, if_pos hc]
  split_ifs with hlen
  · cases hi : find h.bodyBoundary u with
    | none => rfl
    | some i =>
      cases he : find (sep ++ sep) (u.drop i) with
      | none => simp [he]
      | some e =>
        have h1 := boundary_before _ u i e hb hi he
        have h2 := find_le _ _ _ he
        have h3 : (sep ++ sep).length = 4 := by decide
        have h4 : sep.length = 2 := by decide
        rw [List.length_drop] at h2
        omega
  · rfl

section Meaning
variable {env : Env} {h : HeadInfo} {s : Store} (hr : Ready env h s)
include hr

theorem meaning_search_none (hc : h.curUploadFile = [])
    (hi : find h.bodyBoundary h.requestBody = none) (k : ℕ)
    (hk : k+h.bodyBoundary.length ≤ h.requestBody.length) (y : Bytes) :
    meaning env h s y = meaning env (setBody h (h.requestBody.drop k)) s y := by
  have hfind := find_drop_append h.bodyBoundary h.requestBody y k hi (by omega)
  have hdrop : ∀ j, (h.requestBody ++ y).drop (j+k) = (h.requestBody.drop k ++ y).drop j :=
    fun j => by
    rw [Nat.add_comm, ← List.drop_drop, List.drop_append_of_le_length (by omega)]
  have hrest : ∀ j e, (h.requestBody ++ y).drop (j+k+e) = (h.requestBody.drop k ++ y).drop (j+e) :=
    fun j e => by rw [Nat.add_right_comm, hdrop]
  change decode env (blank h) s (h.requestBody ++ y) =
    decode env (blank h) s (h.requestBody.drop k ++ y)
  rw [decode_search env (blank h) s (h.requestBody ++ y) hc hr.boundary,
    decode_search env (blank h) s (_ ++ y) hc hr.boundary]
  simp only [blank, setBody_bodyBoundary, hfind]
  cases find h.bodyBoundary (h.requestBody.drop k ++ y) with
  | none => rfl
  | some j => simp only [Option.map_some, hdrop, hrest]

theorem meaning_search_some (hc : h.curUploadFile = []) (i : ℕ)
    (hi : find h.bodyBoundary h.requestBody = some i) (y : Bytes) :
    meaning env h s y = meaning env (setBody h (h.requestBody.drop i)) s y := by
  have hle := find_le _ _ _ hi
  have hdrop : ∀ j, (h.requestBody ++ y).drop (i+j) = (h.requestBody.drop i ++ y).drop j :=
    fun j => by
    rw [← List.drop_drop, List.drop_append_of_le_length (by omega)]
  have hzero : find h.bodyBoundary (h.requestBody.drop i ++ y) = some 0 :=
    find_at_start _ _ ((find_occurs _ _ _ hi).trans (List.prefix_append _ _))
  have hdrop0 := hdrop 0
  change decode env (blank h) s (h.requestBody ++ y) =
    decode env (blank h) s (h.requestBody.drop i ++ y)
  rw [decode_search env (blank h) s (h.requestBody ++ y) hc hr.boundary,
    decode_search env (blank h) s (_ ++ y) hc hr.boundary]
  simp only [blank, setBody_bodyBoundary, hzero, find_append _ _ y i hi, hdrop, Nat.zero_add,
    List.drop_zero]
  simp only [Nat.add_zero, List.drop_zero] at hdrop0
  rw [hdrop0]

theorem meaning_head (hc : h.curUploadFile = []) (hi : h.bodyBoundary <+: h.requestBody)
    (y : Bytes) :
    meaning env h s y =
      match find (sep ++ sep) (h.requestBody ++ y) with
      | none => (true, blank h, s)
      | some e =>
        match partFilename ((h.requestBody ++ y).take e) with
        | none => (false, blank h, s)
        | some name =>
          let o := openUpload env name h s
          decode env (blank o.1) o.2 ((h.requestBody ++ y).drop (e+4)) := by
  have hzero : find h.bodyBoundary (h.requestBody ++ y) = some 0 :=
    find_at_start _ _ (hi.trans (List.prefix_append _ _))
  rw [meaning, decode_search env (blank h) s _ hc hr.boundary]
  have hb : (blank h).bodyBoundary = h.bodyBoundary := rfl
  simp only [hb, hzero, List.drop_zero, Nat.zero_add, openUpload_blank]

theorem meaning_head_some (hc : h.curUploadFile = []) (hi : h.bodyBoundary <+: h.requestBody)
    (e : ℕ) (he : find (sep ++ sep) h.requestBody = some e) (y : Bytes) :
    meaning env h s y =
      match partFilename (h.requestBody.take e) with
      | none => (false, blank h, s)
      | some name =>
        let o := openUpload env name (setBody h (h.requestBody.drop (e+4))) s
        meaning env o.1 o.2 y := by
  have hle := find_le _ _ _ he
  have h4 : (sep ++ sep).length = 4 := by decide
  rw [meaning_head hr hc hi, find_append _ _ y e he]
  simp only
  rw [List.take_append_of_le_length (by omega), List.drop_append_of_le_length (by omega)]
  cases partFilename (h.requestBody.take e) with
  | none => rfl
  | some name =>
    have hbody := (openUpload_body env name (setBody h (h.requestBody.drop (e+4))) s).1
    have h1 := openUpload_blank env name h s
    have h2 := openUpload_blank env name (setBody h (h.requestBody.drop (e+4))) s
    rw [show blank (setBody h (h.requestBody.drop (e+4))) = blank h from rfl, h1] at h2
    simp only [Prod.mk.injEq] at h2
    simp only [meaning, hbody, setBody_requestBody, ← h2.1, ← h2.2]

omit hr in
theorem meaning_file (hc : h.curUploadFile ≠ []) (y : Bytes)
    (hg : h.bodyBoundary.length+sep.length < (h.requestBody ++ y).length) :
    meaning env h s y =
      match find (sep ++ h.bodyBoundary) (h.requestBody ++ y) with
      | none => (true, blank h, copyUpload env ((h.requestBody ++ y).take
          ((h.requestBody ++ y).length-h.bodyBoundary.length-sep.length)) h s)
      | some i =>
        let f := finishUpload env h (copyUpload env ((h.requestBody ++ y).take i) h s)
        decode env (blank f.1) f.2 ((h.requestBody ++ y).drop i) := by
  rw [meaning, decode, if_neg (by simpa [blank] using hg), if_neg (by simpa [blank] using hc)]
  rfl

omit hr in
theorem meaning_file_some (hc : h.curUploadFile ≠ []) (i : ℕ)
    (hg : h.bodyBoundary.length+sep.length < h.requestBody.length)
    (hi : find (sep ++ h.bodyBoundary) h.requestBody = some i) (y : Bytes) :
    meaning env h s y =
      (let f := finishUpload env (setBody h (h.requestBody.drop i))
        (copyUpload env (h.requestBody.take i) h s)
      meaning env f.1 f.2 y) := by
  have hle := find_le _ _ _ hi
  rw [meaning_file hc y (by rw [List.length_append]; omega), find_append _ _ y i hi]
  simp only
  rw [List.take_append_of_le_length (by omega), List.drop_append_of_le_length (by omega),
    finishUpload_blank]
  rfl

theorem meaning_file_none (hc : h.curUploadFile ≠ [])
    (hi : find (sep ++ h.bodyBoundary) h.requestBody = none) (k : ℕ)
    (hk : k+(h.bodyBoundary.length+sep.length) = h.requestBody.length) (hpos : 0 < k) (y : Bytes) :
    meaning env h s y = meaning env (setBody h (h.requestBody.drop k))
      (copyUpload env (h.requestBody.take k) h s) y := by
  have hlen : (sep ++ h.bodyBoundary).length = h.bodyBoundary.length+sep.length := by
    rw [List.length_append, Nat.add_comm]
  have hc' : (setBody h (h.requestBody.drop k)).curUploadFile ≠ [] := hc
  rw [meaning_file hc y (by rw [List.length_append]; omega)]
  by_cases hy : y = []
  · subst hy
    have hshort : meaning env (setBody h (h.requestBody.drop k))
        (copyUpload env (h.requestBody.take k) h s) [] =
          (true, blank h, copyUpload env (h.requestBody.take k) h s) := by
      rw [meaning, decode, if_pos]
      · rfl
      · simp only [blank, setBody_requestBody, setBody_bodyBoundary, List.append_nil,
          List.length_drop]
        omega
    rw [hshort, List.append_nil, hi]
    simp only
    rw [show h.requestBody.length-h.bodyBoundary.length-sep.length = k by omega]
  · have hylen := List.length_pos_iff.mpr hy
    rw [meaning_file hc' y (by
        simp only [setBody_requestBody, setBody_bodyBoundary, List.length_append, List.length_drop]
        omega)]
    simp only [setBody_requestBody, setBody_bodyBoundary, copyUpload_blank]
    rw [find_drop_append (sep ++ h.bodyBoundary) h.requestBody y k hi (by omega)]
    have htake : ∀ j, (h.requestBody ++ y).take (k+j) =
        h.requestBody.take k ++ (h.requestBody.drop k ++ y).take j := fun j => by
      rw [List.take_add, List.take_append_of_le_length (by omega),
        List.drop_append_of_le_length (by omega)]
    have hdrop : ∀ j, (h.requestBody ++ y).drop (k+j) = (h.requestBody.drop k ++ y).drop j :=
      fun j => by rw [← List.drop_drop, List.drop_append_of_le_length (by omega)]
    have hcopy : ∀ j, copyUpload env ((h.requestBody ++ y).take (k+j)) h s =
        copyUpload env ((h.requestBody.drop k ++ y).take j) h
          (copyUpload env (h.requestBody.take k) h s) := fun j => by
      rw [htake, copyUpload_append env _ _ h s hr.clean (hr.target hc)]
    cases hj : find (sep ++ h.bodyBoundary) (h.requestBody.drop k ++ y) with
    | none =>
      simp only [Option.map_none]
      rw [← hcopy, show blank (setBody h (h.requestBody.drop k)) = blank h from rfl]
      congr 4
      simp only [List.length_append, List.length_drop]
      omega
    | some j =>
      simp only [Option.map_some, Nat.add_comm j k, hcopy, hdrop, finishUpload_blank]
      rfl

end Meaning

end CloudBackup.UploadDecoder
