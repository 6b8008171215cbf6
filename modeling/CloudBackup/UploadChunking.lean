import CloudBackup.UploadDecoder

/-!
# Chunking of an upload body

Each turn of the scanner keeps the meaning of its buffer, so a loop does,
and so does a sequence of calls. The final state is therefore the one that
decoding the whole body at once gives, whatever the pieces were.
-/

set_option autoImplicit false

namespace CloudBackup.UploadChunking
open CloudBackup.PatternSearch CloudBackup.ByteStrings CloudBackup.FilePath
open CloudBackup.FileStore CloudBackup.DataManager CloudBackup.UploadScanner
  CloudBackup.UploadDecoder

def weight (h : HeadInfo) : ℕ := 2*h.requestBody.length+(if h.curUploadFile = [] then 0 else 1)

def Settled (env : Env) (h : HeadInfo) (s : Store) : Prop :=
  Ready env h s ∧ meaning env h s [] = (true, blank h, s)

def Follows (env : Env) (h : HeadInfo) (s : Store) : Turn → Prop
  | .again h' s' => Ready env h' s' ∧ (∀ y, meaning env h s y = meaning env h' s' y) ∧
      weight h' < weight h
  | .leaves true h' s' => Settled env h' s' ∧ ∀ y, meaning env h s y = meaning env h' s' y
  | .leaves false h' s' => ∀ y, meaning env h s y = (false, blank h', s')
  | .throws => False

theorem settled_short (env : Env) (h : HeadInfo) (s : Store) (hr : Ready env h s)
    (hg : loopGuard h ≠ true) : Settled env h s := by
  refine ⟨hr, ?_⟩
  have hlen : (h.requestBody ++ []).length ≤ (blank h).bodyBoundary.length+sep.length := by
    simpa [loopGuard, blank] using hg
  rw [meaning, decode, if_pos hlen]

section
variable {env : Env} {h : HeadInfo} {s : Store} (hr : Ready env h s)
include hr

theorem headTurn_follows (hc : h.curUploadFile = []) (hi : h.bodyBoundary <+: h.requestBody)
    (hf : HeadFits h.requestBody) : Follows env h s (headTurn env h s) := by
  rw [headTurn_fits env h s hf]
  cases he : find (sep ++ sep) h.requestBody with
  | none =>
    refine ⟨⟨hr, ?_⟩, fun y => rfl⟩
    rw [meaning_head hr hc hi, List.append_nil, he]
  | some e =>
    have hsome := meaning_head_some hr hc hi e he
    dsimp only
    cases hp : partFilename (h.requestBody.take e) with
    | none =>
      intro y
      rw [hsome y, hp]
    | some name =>
      refine ⟨ready_openUpload (ready_setBody hr _) name, fun y => ?_, ?_⟩
      · rw [hsome y, hp]
      · have hle := find_le _ _ _ he
        have h4 : (sep ++ sep).length = 4 := by decide
        simp only [weight, (openUpload_body env name _ s).1, setBody_requestBody,
          List.length_drop, hc]
        split_ifs <;> omega

theorem searchTurn_follows (hc : h.curUploadFile = []) (hg : loopGuard h = true) (hf : TurnFits h) :
    Follows env h s (searchTurn env h s) := by
  rw [TurnFits, if_pos hc] at hf
  have hlen : h.bodyBoundary.length+sep.length < h.requestBody.length := by
    simpa [loopGuard] using hg
  rw [searchTurn_fits env h s hf.1]
  cases hi : find h.bodyBoundary h.requestBody with
  | none =>
    refine ⟨ready_setBody hr _, fun y => meaning_search_none hr hc hi _ (by omega) y, ?_⟩
    have h2 : sep.length = 2 := by decide
    simp only [weight, setBody_requestBody, setBody_curUploadFile, List.length_drop, hc, if_true]
    omega
  | some i =>
    have hh := headTurn_follows (ready_setBody hr (h.requestBody.drop i)) hc
      (find_occurs _ _ _ hi) (hf.2 i hi)
    have hm := meaning_search_some hr hc i hi
    have hw : weight (setBody h (h.requestBody.drop i)) ≤ weight h := by
      simp only [weight, setBody_requestBody, setBody_curUploadFile, List.length_drop, hc, if_true]
      omega
    dsimp only
    cases ht : headTurn env (setBody h (h.requestBody.drop i)) s with
    | again h' s' =>
      rw [ht] at hh
      exact ⟨hh.1, fun y => (hm y).trans (hh.2.1 y), hh.2.2.trans_le hw⟩
    | leaves ret h' s' =>
      rw [ht] at hh
      cases ret with
      | true => exact ⟨hh.1, fun y => (hm y).trans (hh.2 y)⟩
      | false => exact fun y => (hm y).trans (hh y)
    | throws =>
      rw [ht] at hh
      exact hh

theorem fileTurn_follows (hc : h.curUploadFile ≠ []) (hg : loopGuard h = true) (hf : TurnFits h) :
    Follows env h s (fileTurn env h s) := by
  rw [TurnFits, if_neg hc] at hf
  have hlen : h.bodyBoundary.length+sep.length < h.requestBody.length := by
    simpa [loopGuard] using hg
  rw [fileTurn_fits env h s hr.clean (hr.target hc) hf]
  cases hi : find (sep ++ h.bodyBoundary) h.requestBody with
  | none =>
    refine ⟨ready_setBody (ready_copyUpload hr hc _) _,
      fun y => meaning_file_none hr hc hi _ (by omega) (by omega) y, ?_⟩
    simp only [weight, setBody_requestBody, setBody_curUploadFile, List.length_drop, hc, if_false]
    omega
  | some i =>
    refine ⟨ready_finishUpload (ready_setBody (ready_copyUpload hr hc _) _),
      fun y => meaning_file_some hc i hlen hi y, ?_⟩
    simp only [weight, finishUpload, setBody_requestBody, List.length_drop, if_true, if_neg hc]
    omega

theorem uploadTurn_follows (hg : loopGuard h = true) (hf : TurnFits h) :
    Follows env h s (uploadTurn env h s) := by
  unfold uploadTurn
  split_ifs with hc
  · exact searchTurn_follows hr hc hg hf
  · exact fileTurn_follows hr hc hg hf

end

/-- The loop ends before its turns are used up, either settled with the same
meaning or refusing whatever may follow. -/
theorem uploadLoop_meaning (env : Env) (n : ℕ) (h : HeadInfo) (s : Store) (hr : Ready env h s)
    (hn : weight h < n) (hf : LoopFits env n h s) :
    ∃ ret h' s', uploadLoop env n h s = some (ret, h', s') ∧
      (ret = true → Settled env h' s' ∧ ∀ y, meaning env h s y = meaning env h' s' y) ∧
      (ret = false → ∀ y, meaning env h s y = (false, blank h', s')) := by
  induction n generalizing h s with
  | zero => omega
  | succ n ih =>
    unfold uploadLoop
    by_cases hg : loopGuard h = true
    · obtain ⟨hturn, hrest⟩ := hf hg
      have hfol := uploadTurn_follows hr hg hturn
      rw [if_pos hg]
      cases ht : uploadTurn env h s with
      | again h' s' =>
        rw [ht] at hfol
        obtain ⟨hr', hm, hw⟩ := hfol
        obtain ⟨ret, h'', s'', hl, htrue, hfalse⟩ := ih h' s' hr' (by omega) (hrest h' s' ht)
        refine ⟨ret, h'', s'', hl, fun e => ?_, fun e y => (hm y).trans (hfalse e y)⟩
        exact ⟨(htrue e).1, fun y => (hm y).trans ((htrue e).2 y)⟩
      | leaves ret h' s' =>
        rw [ht] at hfol
        cases ret with
        | true => exact ⟨true, h', s', rfl, fun _ => hfol, fun e => absurd e (by decide)⟩
        | false => exact ⟨false, h', s', rfl, fun e => absurd e (by decide), fun _ => hfol⟩
      | throws =>
        rw [ht] at hfol
        exact hfol.elim
    · rw [if_neg hg]
      exact ⟨true, h, s, rfl, fun _ => ⟨settled_short env h s hr hg, fun y => rfl⟩,
        fun e => absurd e (by decide)⟩

theorem weight_lt_turnBound (h : HeadInfo) : weight h < turnBound h := by
  unfold weight turnBound
  split_ifs <;> omega

def verdict (d : Bool × HeadInfo × Store) : HeadInfo × Store :=
  (if d.1 then d.2.1 else badRequest d.2.1, d.2.2)

theorem onBodies_refused (env : Env) (chunks : List Bytes) (h : HeadInfo) (s : Store)
    (hs : h.responseStatus ≠ []) : onBodies env chunks h s = some (h, s) := by
  induction chunks with
  | nil => rfl
  | cons c cs ih => simp [onBodies, onBody, hs, ih]

theorem frame_fields {h k : HeadInfo} (hf : frame h = frame k) :
    h.responseStatus = k.responseStatus ∧ isUpload h = isUpload k := by
  have h1 := congrArg HeadInfo.responseStatus hf
  have h2 := congrArg HeadInfo.requestMethod hf
  have h3 := congrArg HeadInfo.requestUrlPrefix hf
  simp only [frame] at h1 h2 h3
  exact ⟨h1, by simp [isUpload, h2, h3]⟩

theorem badRequest_status {h : HeadInfo} : (badRequest h).responseStatus ≠ [] := by
  change bytes "400" ≠ []
  decide

theorem onBodies_meaning (env : Env) (chunks : List Bytes) (h : HeadInfo) (s : Store)
    (hst : h.responseStatus = []) (hup : isUpload h = true) (hset : Settled env h s)
    (hf : BodiesFit env chunks h s) :
    ∃ h' s', onBodies env chunks h s = some (h', s') ∧
      (blank h', s') = verdict (meaning env h s chunks.flatten) := by
  induction chunks generalizing h s with
  | nil =>
    refine ⟨h, s, rfl, ?_⟩
    rw [List.flatten_nil, hset.2]
    rfl
  | cons c cs ih =>
    obtain ⟨hloop, hrest⟩ := hf
    obtain ⟨ret, h', s', hl, htrue, hfalse⟩ :=
      uploadLoop_meaning env _ (setBody h (h.requestBody ++ c))
      s (ready_setBody hset.1 _) (weight_lt_turnBound _) (hloop hst hup)
    have hcat : ∀ y, meaning env (setBody h (h.requestBody ++ c)) s y = meaning env h s (c ++ y) :=
      fun y => by rw [meaning, setBody_requestBody, List.append_assoc]; rfl
    have hframe := frame_fields (uploadLoop_frame env _ _ s _ hl)
    have hbody : onBody env c h s = some (if ret then (h', s') else (badRequest h', s')) := by
      simp [onBody, hst, hup, processUploadBody, hl]
    rw [onBodies, hbody, Option.bind_some, List.flatten_cons, ← hcat]
    cases ret with
    | true =>
      obtain ⟨hset', hm⟩ := htrue rfl
      rw [hm]
      exact ih h' s' (hframe.1.trans hst) (hframe.2.trans hup) hset' (hrest _ hbody)
    | false =>
      refine ⟨badRequest h', s', onBodies_refused env cs (badRequest h') s' badRequest_status, ?_⟩
      rw [hfalse rfl]
      rfl

theorem searchTurn_shrinks (env : Env) (h h' : HeadInfo) (s : Store)
    (hh : (searchTurn env h s).head = some h') : h'.requestBody.length ≤ h.requestBody.length := by
  obtain ⟨n, hturn | ⟨ret, hturn⟩ | hturn | ⟨name, hturn⟩⟩ := searchTurn_cases env h s
  · rw [hturn] at hh
    obtain rfl := Option.some.inj hh
    simp
  · rw [hturn] at hh
    obtain rfl := Option.some.inj hh
    simp
  · rw [hturn] at hh
    cases hh
  · rw [hturn] at hh
    obtain rfl := Option.some.inj hh
    rw [(openUpload_body env name _ s).1, setBody_requestBody, List.length_drop]
    omega

theorem uploadTurn_shrinks (env : Env) (h h' : HeadInfo) (s : Store)
    (hh : (uploadTurn env h s).head = some h') : h'.requestBody.length ≤ h.requestBody.length := by
  unfold uploadTurn at hh
  split_ifs at hh
  · exact searchTurn_shrinks env h h' s hh
  · unfold fileTurn at hh
    dsimp only at hh
    split_ifs at hh <;> obtain rfl := Option.some.inj hh <;>
      simp [failUpload, finishUpload, setBody]

theorem small_find (pat u : Bytes) (hu : u.length < 2^31) : Small (find pat u) := by
  intro n hn
  have := find_le pat u n hn
  omega

theorem turnFits_of_length (h : HeadInfo) (hl : h.requestBody.length < 2^31) : TurnFits h := by
  unfold TurnFits
  split_ifs
  · refine ⟨small_find _ _ hl, fun i _ => ?_⟩
    have hdrop : (h.requestBody.drop i).length < 2^31 := by
      rw [List.length_drop]
      omega
    refine ⟨small_find _ _ hdrop, fun e _ => ⟨small_find _ _ hdrop, fun k _ _ n hn => ?_⟩⟩
    have hle := findFrom_le hn
    omega
  · exact small_find _ _ hl

theorem loopFits_of_length (env : Env) (n : ℕ) (h : HeadInfo) (s : Store)
    (hl : h.requestBody.length < 2^31) : LoopFits env n h s := by
  induction n generalizing h s with
  | zero => trivial
  | succ n ih =>
    refine fun _ => ⟨turnFits_of_length h hl, fun h' s' ht => ih h' s' ?_⟩
    exact (uploadTurn_shrinks env h h' s (by rw [ht]; rfl)).trans_lt hl

theorem uploadLoop_shrinks (env : Env) (n : ℕ) (h : HeadInfo) (s : Store)
    (r : Bool × HeadInfo × Store) (hr : uploadLoop env n h s = some r) :
    r.2.1.requestBody.length ≤ h.requestBody.length := by
  induction n generalizing h s with
  | zero => cases hr
  | succ n ih =>
    unfold uploadLoop at hr
    split_ifs at hr
    · cases ht : uploadTurn env h s with
      | again h' s' =>
        rw [ht] at hr
        exact (ih h' s' hr).trans (uploadTurn_shrinks env h h' s (by rw [ht]; rfl))
      | leaves ret h' s' =>
        rw [ht] at hr
        cases hr
        exact uploadTurn_shrinks env h h' s (by rw [ht]; rfl)
      | throws =>
        rw [ht] at hr
        cases hr
    · cases hr
      exact le_rfl

theorem bodiesFit_of_length (env : Env) (chunks : List Bytes) (h : HeadInfo) (s : Store)
    (hl : h.requestBody.length+chunks.flatten.length < 2^31) : BodiesFit env chunks h s := by
  induction chunks generalizing h s with
  | nil => trivial
  | cons c cs ih =>
    rw [List.flatten_cons, List.length_append] at hl
    have hbuf : (setBody h (h.requestBody ++ c)).requestBody.length < 2^31 := by
      rw [setBody_requestBody, List.length_append]
      omega
    refine ⟨fun _ _ => loopFits_of_length env _ _ s hbuf, fun r hr => ih r.1 r.2 ?_⟩
    unfold onBody at hr
    split_ifs at hr
    · cases hr
      dsimp only
      omega
    · obtain ⟨q, hq, rfl⟩ := Option.map_eq_some_iff.mp hr
      have hshrink := uploadLoop_shrinks env _ _ s q hq
      rw [setBody_requestBody, List.length_append] at hshrink
      split_ifs <;> simp only [badRequest] <;> omega
    · cases hr
      dsimp only
      omega

/-- Two ways of cutting one body into pieces end alike. -/
theorem chunking_irrelevant (env : Env) (h : HeadInfo) (s : Store) (cs ds : List Bytes)
    (hstart : h.requestBody = [] ∧ h.curUploadFile = [] ∧ h.responseStatus = [])
    (hup : isUpload h = true) (hb : 13 ∉ h.bodyBoundary) (hs : s.disk.faults = [])
    (hcat : cs.flatten = ds.flatten) (hcs : BodiesFit env cs h s) (hds : BodiesFit env ds h s) :
    ∃ h₁ h₂ t, onBodies env cs h s = some (h₁, t) ∧ onBodies env ds h s = some (h₂, t) ∧
      h₁.uploadSuccessFiles = h₂.uploadSuccessFiles ∧ h₁.uploadFailFiles = h₂.uploadFailFiles ∧
      h₁.curUploadFile = h₂.curUploadFile ∧ h₁.responseStatus = h₂.responseStatus := by
  obtain ⟨hbody, hcur, hst⟩ := hstart
  have hready : Ready env h s := ⟨hs, fun hc => absurd hcur hc, hb⟩
  have hset : Settled env h s := settled_short env h s hready (by simp [loopGuard, hbody])
  obtain ⟨h₁, t₁, hrun₁, hend₁⟩ := onBodies_meaning env cs h s hst hup hset hcs
  obtain ⟨h₂, t₂, hrun₂, hend₂⟩ := onBodies_meaning env ds h s hst hup hset hds
  rw [hcat, ← hend₂, Prod.mk.injEq] at hend₁
  obtain ⟨hheads, rfl⟩ := hend₁
  refine ⟨h₁, h₂, t₁, hrun₁, hrun₂, ?_, ?_, ?_, ?_⟩
  · exact (congrArg HeadInfo.uploadSuccessFiles hheads :)
  · exact (congrArg HeadInfo.uploadFailFiles hheads :)
  · exact (congrArg HeadInfo.curUploadFile hheads :)
  · exact (congrArg HeadInfo.responseStatus hheads :)

def uploadHead (boundary : Bytes) : HeadInfo :=
  { requestMethod := bytes "POST"
    requestUrl := bytes "/upload"
    requestUrlPrefix := bytes "/upload"
    requestVersion := bytes "1.1"
    bodyBoundary := boundary
    responseVersion := bytes "HTTP/1.1" }

def helloPart : Bytes :=
  bytes "--b\r\nContent-Disposition: form-data; name=\"file\"; filename=\"f\"\r\nContent-Type: text/plain\r\n\r\nhello\r\n--b--\r\n"

def preamble (n : ℕ) : Bytes := List.replicate n 97

theorem chunking_irrelevant_hello :
    ∃ h₁ h₂ t, onBodies plainEnv [helloPart.take 20, helloPart.drop 20]
      (uploadHead (bytes "--b")) freshStore
        = some (h₁, t) ∧
      onBodies plainEnv [helloPart] (uploadHead (bytes "--b")) freshStore = some (h₂, t) ∧
      h₁.uploadSuccessFiles = h₂.uploadSuccessFiles ∧ h₁.uploadFailFiles = h₂.uploadFailFiles ∧
      h₁.curUploadFile = h₂.curUploadFile ∧ h₁.responseStatus = h₂.responseStatus :=
  chunking_irrelevant plainEnv (uploadHead (bytes "--b")) freshStore
    [helloPart.take 20, helloPart.drop 20] [helloPart] ⟨rfl, rfl, rfl⟩ (by decide) (by decide) rfl
    (by simp) (bodiesFit_of_length _ _ _ _ (by decide)) (bodiesFit_of_length _ _ _ _ (by decide))

theorem preamble_skipped (n : ℕ) (hn : 5 < n) :
    onBody plainEnv (preamble n) (uploadHead (bytes "--b")) freshStore =
      some (setBody (uploadHead (bytes "--b")) (preamble 3), freshStore) := by
  set h := setBody (uploadHead (bytes "--b")) (preamble n) with hh
  have hcur : h.curUploadFile = [] := rfl
  have hbody : h.requestBody = preamble n := rfl
  have hb : h.bodyBoundary = bytes "--b" := rfl
  have h3 : (bytes "--b").length = 3 := by decide
  obtain ⟨m, hm⟩ : ∃ m, turnBound h = m+2 :=
    ⟨4*(n+1)-2, by rw [turnBound, hbody, preamble, List.length_replicate]; omega⟩
  have hguard : loopGuard h = true := by
    have h2 : sep.length = 2 := by decide
    rw [loopGuard, hb, hbody, h3, h2, preamble, List.length_replicate]
    exact decide_eq_true hn
  have hnone : find (bytes "--b") (preamble n) = none :=
    find_eq_none_of_clean 45 _ _ (by simp [preamble])
  have hrest : (preamble n).drop ((preamble n).length-3) = preamble 3 := by
    rw [preamble, List.length_replicate, List.drop_replicate, Nat.sub_sub_self (by omega)]
    rfl
  have hturn : uploadTurn plainEnv h freshStore =
      .again (setBody (uploadHead (bytes "--b")) (preamble 3)) freshStore := by
    rw [uploadTurn, if_pos hcur, searchTurn]
    simp only [hbody, hb, hnone, asInt_none, if_true, h3, hrest]
    rfl
  have hend : loopGuard (setBody (uploadHead (bytes "--b")) (preamble 3)) = false := by decide
  rw [onBody, if_neg (by decide), if_pos (by decide), processUploadBody,
    show setBody _ (_ ++ preamble n) = h from rfl, hm, uploadLoop, if_pos hguard, hturn]
  simp only
  rw [uploadLoop, hend]
  rfl

theorem headTurn_beyond (env : Env) (h : HeadInfo) (s : Store) (e k : ℕ)
    (he : find (sep ++ sep) h.requestBody = some e) (hk : find filenameKey h.requestBody = some k)
    (hke : k ≤ e) (hk31 : 2^31 ≤ k) (he32 : e+10 < 2^32) (hlen : h.requestBody.length < 2^63) :
    headTurn env h s = .leaves false h s := by
  have hei : asInt (some e) = (e : ℤ)-2^32 := by
    rw [asInt, narrow_large e (by omega) (by omega)]
  have hki : asInt (some k) = (k : ℤ)-2^32 := by
    rw [asInt, narrow_large k hk31 (by omega)]
  have hkey : filenameKey.length = 10 := by decide
  have hsize := asSize_neg ((k : ℤ)-2^32) (by omega) (by omega)
  have hpos : narrow (asSize ((k : ℤ)-2^32)+10) = (k : ℤ)+10-2^32 := by
    have hleft : (asSize ((k : ℤ)-2^32)+10)%2^32 = k+10 := by omega
    rw [narrow_mod, hleft, if_neg (by omega)]
    push_cast
    rfl
  have hfar := asSize_neg ((k : ℤ)+10-2^32) (by omega) (by omega)
  have hquote : findFrom [quote] (asSize ((k : ℤ)+10-2^32)) h.requestBody = none := by
    rw [findFrom, if_pos (by omega)]
  unfold headTurn
  dsimp only
  rw [he, hk, hei, hki, hkey, hpos, hquote, asInt_none, if_neg (by omega), if_neg (by omega),
    if_pos (Or.inl rfl)]

theorem searchTurn_beyond (env : Env) (h : HeadInfo) (s : Store) (i : ℕ)
    (hi : find h.bodyBoundary h.requestBody = some i) (h31 : 2^31 ≤ i) (h32 : i+1 < 2^32) :
    searchTurn env h s = headTurn env h s := by
  have hint : asInt (some i) = (i : ℤ)-2^32 := by
    rw [asInt, narrow_large i h31 (by omega)]
  unfold searchTurn
  dsimp only
  rw [hi, hint, if_neg (by omega), if_neg (by omega), setBody_self]

theorem preamble_refused (n : ℕ) (h31 : 2^31 ≤ n) (h32 : n+200 < 2^32) :
    onBody plainEnv (preamble n ++ helloPart) (uploadHead (bytes "--b")) freshStore =
      some (badRequest (setBody (uploadHead (bytes "--b")) (preamble n ++ helloPart)),
        freshStore) := by
  set h := setBody (uploadHead (bytes "--b")) (preamble n ++ helloPart) with hh
  have hcur : h.curUploadFile = [] := rfl
  have hbody : h.requestBody = preamble n ++ helloPart := rfl
  have hb : h.bodyBoundary = bytes "--b" := rfl
  have hpart : helloPart.length = 106 := by decide
  have hlen : h.requestBody.length = n+106 := by
    rw [hbody, List.length_append, preamble, List.length_replicate, hpart]
  obtain ⟨m, hm⟩ : ∃ m, turnBound h = m+1 := ⟨4*(n+107)-1, by
    rw [turnBound, hlen]
    omega⟩
  have hguard : loopGuard h = true := by
    have h3 : (bytes "--b").length = 3 := by decide
    have h2 : sep.length = 2 := by decide
    rw [loopGuard, hb, h3, h2, hlen]
    exact decide_eq_true (by omega)
  -- Every pattern searched for begins with a byte that the preamble lacks.
  have hskip : ∀ c cs i, c ≠ 97 → find (c::cs) helloPart = some i →
      find (c::cs) h.requestBody = some (i+n) := fun c cs i hc hi => by
    rw [hbody, find_clean_append c cs (preamble n) helloPart (by simp [preamble, hc]), hi,
      Option.map_some, preamble, List.length_replicate]
  have hturn : uploadTurn plainEnv h freshStore = .leaves false h freshStore := by
    rw [uploadTurn, if_pos hcur, searchTurn_beyond plainEnv h freshStore (0+n)
      (hskip _ _ 0 (by decide) (by decide)) (by omega) (by omega)]
    exact headTurn_beyond plainEnv h freshStore (88+n) (50+n)
      (hskip _ _ 88 (by decide) (by decide +kernel)) (hskip _ _ 50 (by decide) (by decide +kernel))
      (by omega) (by omega) (by omega) (by omega)
  rw [onBody, if_neg (by decide), if_pos (by decide), processUploadBody,
    show setBody _ (_ ++ (preamble n ++ helloPart)) = h from rfl, hm, uploadLoop,
      if_pos hguard, hturn]
  rfl

theorem hello_received :
    ∃ r, onBody plainEnv helloPart (setBody (uploadHead (bytes "--b")) (preamble 3))
      freshStore = some r ∧
      r.1.responseStatus = [] ∧ r.1.uploadSuccessFiles = [bytes "f"] := by
  have hrun : (onBody plainEnv helloPart (setBody (uploadHead (bytes "--b")) (preamble 3))
    freshStore).map
      (fun r => (r.1.responseStatus, r.1.uploadSuccessFiles)) = some ([], [bytes "f"]) := by
    decide +kernel
  obtain ⟨r, hr, hfields⟩ := Option.map_eq_some_iff.mp hrun
  obtain ⟨hstatus, hfiles⟩ := Prod.mk.inj hfields
  exact ⟨r, hr, hstatus, hfiles⟩

theorem preamble_chunking (n : ℕ) (h31 : 2^31 ≤ n) (h32 : n+200 < 2^32) :
    ∃ h₁ s₁ h₂ s₂,
      onBodies plainEnv [preamble n, helloPart] (uploadHead (bytes "--b"))
        freshStore = some (h₁, s₁) ∧
      onBodies plainEnv [preamble n ++ helloPart] (uploadHead (bytes "--b"))
        freshStore = some (h₂, s₂) ∧
      h₁.responseStatus ≠ h₂.responseStatus ∧ h₁.uploadSuccessFiles ≠ h₂.uploadSuccessFiles := by
  obtain ⟨r, hr, hstatus, hfiles⟩ := hello_received
  refine ⟨r.1, r.2, _, _, ?_, by rw [onBodies, preamble_refused n h31 h32]; rfl, ?_, ?_⟩
  · rw [onBodies, preamble_skipped n (by omega), Option.bind_some, onBodies, hr]
    rfl
  · rw [hstatus]
    exact badRequest_status.symm
  · rw [hfiles]
    exact List.cons_ne_nil _ _

theorem chunking_relevant_beyond_int :
    [preamble (2^31), helloPart].flatten = [preamble (2^31) ++ helloPart].flatten ∧
    ∃ h₁ s₁ h₂ s₂,
      onBodies plainEnv [preamble (2^31), helloPart] (uploadHead (bytes "--b")) freshStore
        = some (h₁, s₁) ∧
      onBodies plainEnv [preamble (2^31) ++ helloPart] (uploadHead (bytes "--b")) freshStore
        = some (h₂, s₂) ∧
      h₁.responseStatus ≠ h₂.responseStatus ∧ h₁.uploadSuccessFiles ≠ h₂.uploadSuccessFiles :=
  ⟨by simp, preamble_chunking (2^31) le_rfl (by norm_num)⟩

end CloudBackup.UploadChunking
