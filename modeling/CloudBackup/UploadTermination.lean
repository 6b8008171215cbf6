import CloudBackup.UploadChunking

/-!
# The upload loop ends and keeps little

Every turn of the loop makes the buffer shorter, or ends a file and leaves the
buffer alone, except where a position that passed through `int` comes back as
another number. What the loop keeps when it ends is an unfinished part header
or no more than a delimiter.
-/

set_option autoImplicit false

namespace CloudBackup.UploadTermination
open CloudBackup.PatternSearch CloudBackup.ByteStrings CloudBackup.FilePath
open CloudBackup.FileStore CloudBackup.DataManager CloudBackup.UploadScanner
  CloudBackup.UploadDecoder
open CloudBackup.UploadChunking

section Positions
variable (body : Bytes)

def headEndPos : ℤ := asInt (find (sep ++ sep) body)

def keyPos : ℤ := asInt (find filenameKey body)

def filenamePos : ℤ := narrow (asSize (keyPos body) + filenameKey.length)

def filenameEndPos : ℤ := asInt (findFrom [quote] (asSize (filenamePos body)) body)

def filenameIn : Bytes :=
  (body.drop (asSize (filenamePos body))).take (asSize (filenameEndPos body-filenamePos body))

def behindHead : Bytes := body.drop (asSize (headEndPos body+4))

structure HasName : Prop where
  headEnd : headEndPos body ≠ -1
  key : keyPos body ≠ -1
  keyBefore : keyPos body ≤ headEndPos body
  nameEnd : filenameEndPos body ≠ -1
  nameEndBefore : filenameEndPos body ≤ headEndPos body

instance : Decidable (HasName body) :=
  decidable_of_iff (headEndPos body ≠ -1 ∧ (keyPos body ≠ -1 ∧ keyPos body ≤ headEndPos body) ∧
      filenameEndPos body ≠ -1 ∧ filenameEndPos body ≤ headEndPos body)
    ⟨fun h => ⟨h.1, h.2.1.1, h.2.1.2, h.2.2.1, h.2.2.2⟩,
      fun h => ⟨h.headEnd, ⟨h.key, h.keyBefore⟩, h.nameEnd, h.nameEndBefore⟩⟩

end Positions

def fromBoundary (pos : ℤ) (body : Bytes) : Bytes :=
  if 0 < pos then body.drop (asSize pos) else body

def Kept (h : HeadInfo) : Prop :=
  (h.bodyBoundary <+: h.requestBody ∧ ¬ sep ++ sep <:+: h.requestBody) ∨
  h.requestBody.length ≤ h.bodyBoundary.length+sep.length

theorem kept_setBody (h : HeadInfo) (body : Bytes) : Kept (setBody h body) ↔
    (h.bodyBoundary <+: body ∧ ¬ sep ++ sep <:+: body) ∨
      body.length ≤ h.bodyBoundary.length+sep.length := Iff.rfl

/-- The blank line is not found, as its position is `-1` once more; or the boundary was
found out of reach of an `int`. -/
structure Overlooked (h : HeadInfo) (i : ℕ) : Prop where
  headEnd : headEndPos (fromBoundary (narrow i) h.requestBody) = -1
  beyond : 2^31 ≤ i ∨ (find (sep ++ sep) (fromBoundary (narrow i) h.requestBody)).isSome
  long : h.bodyBoundary.length+sep.length < (fromBoundary (narrow i) h.requestBody).length

structure Stuck (h : HeadInfo) (i : ℕ) : Prop where
  start : narrow i ≤ 0
  headEnd : headEndPos h.requestBody = -4
  name : HasName h.requestBody

structure Astray (h : HeadInfo) : Prop where
  searching : h.curUploadFile = []
  guarded : loopGuard h = true
  boundary : ∃ i, find h.bodyBoundary h.requestBody = some i ∧ narrow i ≠ -1 ∧
    (Overlooked h i ∨ Stuck h i)

/-- A header with a name makes the next state; `substr` is not called beyond the end. -/
theorem headTurn_eq (env : Env) (h : HeadInfo) (body : Bytes) (s : Store) :
    headTurn env (setBody h body) s =
    if headEndPos body = -1 then .leaves true (setBody h body) s
    else if HasName body then
      .again (openUpload env (filenameIn body) (setBody h (behindHead body)) s).1
        (openUpload env (filenameIn body) (setBody h (behindHead body)) s).2
    else .leaves false (setBody h body) s := by
  by_cases hend : headEndPos body = -1
  · rw [if_pos hend]
    exact if_pos hend
  · rw [if_neg hend]
    refine (if_neg hend).trans ?_
    by_cases hname : HasName body
    · obtain ⟨n, hn, -⟩ := asInt_found hname.nameEnd
      have hkey : ¬ (keyPos body = -1 ∨ headEndPos body < keyPos body) :=
        not_or.mpr ⟨hname.key, not_lt.mpr hname.keyBefore⟩
      have hnameEnd : ¬ (filenameEndPos body = -1 ∨ headEndPos body < filenameEndPos body) :=
        not_or.mpr ⟨hname.nameEnd, not_lt.mpr hname.nameEndBefore⟩
      rw [if_pos hname]
      exact (if_neg hkey).trans ((if_neg hnameEnd).trans (if_neg (not_lt.mpr (findFrom_within hn))))
    · rw [if_neg hname]
      by_cases hkey : keyPos body = -1 ∨ headEndPos body < keyPos body
      · exact if_pos hkey
      · refine (if_neg hkey).trans (if_pos ?_)
        by_contra hnameEnd
        obtain ⟨hkey1, hkey2⟩ := not_or.mp hkey
        obtain ⟨hend1, hend2⟩ := not_or.mp hnameEnd
        exact hname ⟨hend, hkey1, not_lt.mp hkey2, hend1, not_lt.mp hend2⟩

theorem blankLine_length : (sep ++ sep).length = 4 := by decide

theorem headEnd_length {body : Bytes} (h : headEndPos body ≠ -1) : 4 ≤ body.length := by
  obtain ⟨n, hn, -⟩ := asInt_found h
  have hle := find_le _ _ _ hn
  rw [blankLine_length] at hle
  omega

theorem behindHead_shorter {body : Bytes} (hname : HasName body) (hfour : headEndPos body ≠ -4) :
    (behindHead body).length < body.length := by
  have hlen := headEnd_length hname.headEnd
  obtain ⟨hlow, hhigh⟩ := asInt_bounds (find (sep ++ sep) body)
  have herase : 1 ≤ asSize (headEndPos body+4) := by
    apply asSize_pos
    · unfold headEndPos
      omega
    · unfold headEndPos
      omega
    · omega
  rw [behindHead, List.length_drop]
  omega

theorem fromBoundary_length (pos : ℤ) (body : Bytes) :
    (fromBoundary pos body).length ≤ body.length := by
  unfold fromBoundary
  split_ifs
  · rw [List.length_drop]
    omega
  · exact le_rfl

theorem fromBoundary_shorter {pos : ℤ} {body : Bytes} (hpos : 0 < pos) (hhigh : pos < 2^31)
    (hbody : body ≠ []) :
    (fromBoundary pos body).length < body.length := by
  have herase := asSize_pos (i := pos) (by omega) (by omega) (by omega)
  have hlen := List.length_pos_iff.mpr hbody
  rw [fromBoundary, if_pos hpos, List.length_drop]
  omega

inductive Proceeds (h : HeadInfo) : Turn → Prop where
  | again (h' : HeadInfo) (s' : Store) (hless : weight h' < weight h) : Proceeds h (.again h' s')
  | leaves (ret : Bool) (h' : HeadInfo) (s' : Store)
      (hkept : ret = true → Kept h') : Proceeds h (.leaves ret h' s')

section Turn
variable {env : Env} {h : HeadInfo} {s : Store}

theorem opened_weight (name body : Bytes) (hcur : h.curUploadFile = [])
    (hbody : body.length < h.requestBody.length) :
    weight (openUpload env name (setBody h body) s).1 < weight h := by
  rw [weight, weight, (openUpload_body env name _ s).1, setBody_requestBody, if_pos hcur]
  split_ifs <;> omega

theorem guard_length (hguard : loopGuard h = true) :
    h.bodyBoundary.length+sep.length < h.requestBody.length := by
  simpa [loopGuard] using hguard

theorem searchTurn_eq (env : Env) (h : HeadInfo) (s : Store) : searchTurn env h s =
    if asInt (find h.bodyBoundary h.requestBody) = -1 then
      .again (setBody h (h.requestBody.drop (h.requestBody.length-h.bodyBoundary.length))) s
    else headTurn env (setBody h
      (fromBoundary (asInt (find h.bodyBoundary h.requestBody)) h.requestBody)) s := rfl

theorem fromBoundary_found {i : ℕ} (hsmall : i < 2^31) (body : Bytes) :
    fromBoundary (narrow i) body = body.drop i := by
  rw [narrow_small i hsmall, fromBoundary, asSize_cast i (by omega)]
  split_ifs with hpos
  · rfl
  · have hzero : i = 0 := by omega
    rw [hzero, List.drop_zero]

theorem break_kept {i : ℕ} (hi : find h.bodyBoundary h.requestBody = some i)
    (hend : headEndPos (fromBoundary (narrow i) h.requestBody) = -1) (hfine : ¬ Overlooked h i) :
    Kept (setBody h (fromBoundary (narrow i) h.requestBody)) := by
  rw [kept_setBody]
  by_contra hlost
  obtain ⟨hopen, hlong⟩ := not_or.mp hlost
  apply hfine
  refine ⟨hend, ?_, not_le.mp hlong⟩
  by_contra hnear
  obtain ⟨hsmall, hnone⟩ := not_or.mp hnear
  have hbody := fromBoundary_found (not_le.mp hsmall) h.requestBody
  apply hopen
  constructor
  · rw [hbody]
    exact find_occurs _ _ _ hi
  · rw [not_infix_iff]
    simpa using hnone

theorem opened_shorter {i : ℕ} (hname : HasName (fromBoundary (narrow i) h.requestBody))
    (hfine : ¬ Stuck h i) :
    (behindHead (fromBoundary (narrow i) h.requestBody)).length < h.requestBody.length := by
  have hcut := fromBoundary_length (narrow i) h.requestBody
  by_cases hfour : headEndPos (fromBoundary (narrow i) h.requestBody) = -4
  · by_cases hpos : 0 < narrow i
    · have hbody : h.requestBody ≠ [] := by
        intro hnil
        have hlen := headEnd_length hname.headEnd
        rw [hnil] at hlen hcut
        exact absurd (hlen.trans hcut) (by decide)
      have hshort := fromBoundary_shorter hpos (narrow_bounds i).2.1 hbody
      rw [behindHead, List.length_drop]
      omega
    · rw [fromBoundary, if_neg hpos] at hname hfour
      exact absurd ⟨not_lt.mp hpos, hfour, hname⟩ hfine
  · exact (behindHead_shorter hname hfour).trans_le hcut

theorem headTurn_proceeds (hcur : h.curUploadFile = []) (body : Bytes)
    (hbreak : headEndPos body = -1 → Kept (setBody h body))
    (hopen : HasName body → (behindHead body).length < h.requestBody.length) :
    Proceeds h (headTurn env (setBody h body) s) := by
  rw [headTurn_eq]
  split_ifs with hend hname
  · exact .leaves true _ s fun _ => hbreak hend
  · exact .again _ _ (opened_weight _ _ hcur (hopen hname))
  · exact .leaves false _ s fun hret => absurd hret Bool.false_ne_true

theorem searchTurn_missing (hpos : asInt (find h.bodyBoundary h.requestBody) = -1) :
    searchTurn env h s =
    .again (setBody h (h.requestBody.drop (h.requestBody.length-h.bodyBoundary.length))) s :=
  if_pos hpos

theorem searchTurn_found {i : ℕ} (hi : find h.bodyBoundary h.requestBody = some i)
    (hne : narrow i ≠ -1) :
    searchTurn env h s = headTurn env (setBody h (fromBoundary (narrow i) h.requestBody)) s := by
  rw [searchTurn_eq, hi]
  exact if_neg hne

theorem searchTurn_proceeds (hcur : h.curUploadFile = []) (hguard : loopGuard h = true)
    (hfine : ¬ Astray h) :
    Proceeds h (searchTurn env h s) := by
  have hlen := guard_length hguard
  by_cases hpos : asInt (find h.bodyBoundary h.requestBody) = -1
  · rw [searchTurn_missing hpos]
    apply Proceeds.again
    have hsep : sep.length = 2 := by decide
    rw [weight, weight, setBody_requestBody, setBody_curUploadFile, if_pos hcur, List.length_drop]
    omega
  · obtain ⟨i, hi, hnarrow⟩ := asInt_found hpos
    rw [hnarrow] at hpos
    have hlook : ¬ Overlooked h i := fun hbad => hfine ⟨hcur, hguard, i, hi, hpos, Or.inl hbad⟩
    have hmove : ¬ Stuck h i := fun hbad => hfine ⟨hcur, hguard, i, hi, hpos, Or.inr hbad⟩
    rw [searchTurn_found hi hpos]
    apply headTurn_proceeds hcur
    · intro hend
      exact break_kept hi hend hlook
    · intro hname
      exact opened_shorter hname hmove

theorem written_proceeds (hcur : h.curUploadFile ≠ []) (content : Bytes) (a : Bool × Disk) (pos : ℤ)
    (hcopied : pos = -1 → 1 ≤ content.length) (hbody : h.requestBody ≠ []) :
    Proceeds h
      (if !a.1 then .again (failUpload (setBody h (h.requestBody.drop content.length)))
        (deregister env h.curUploadFile { s with disk := a.2 }).2
      else if pos = -1 then .again (setBody h (h.requestBody.drop content.length))
        { s with disk := a.2 }
      else .again (finishUpload env (setBody h (h.requestBody.drop content.length))
        { s with disk := a.2 }).1
        (finishUpload env (setBody h (h.requestBody.drop content.length))
          { s with disk := a.2 }).2) := by
  have hlen := List.length_pos_iff.mpr hbody
  have hleft : (h.requestBody.drop content.length).length = h.requestBody.length-content.length :=
    List.length_drop
  split_ifs with hfail hpos
  · apply Proceeds.again
    rw [weight, weight, failUpload, if_pos rfl, if_neg hcur, setBody_requestBody, hleft]
    omega
  · apply Proceeds.again
    have hsome := hcopied hpos
    rw [weight, weight, setBody_requestBody, setBody_curUploadFile, if_neg hcur, hleft]
    omega
  · apply Proceeds.again
    rw [weight, weight, finishUpload, if_pos rfl, if_neg hcur]
    simp only [setBody_requestBody, hleft]
    omega

theorem fileTurn_proceeds (hcur : h.curUploadFile ≠ []) (hguard : loopGuard h = true) :
    Proceeds h (fileTurn env h s) := by
  have hlen := guard_length hguard
  have hbody : h.requestBody ≠ [] := List.length_pos_iff.mp (by omega)
  apply written_proceeds hcur _ _ _ _ hbody
  intro hpos
  rw [if_pos hpos, List.length_take]
  omega

theorem uploadTurn_proceeds (hguard : loopGuard h = true) (hfine : ¬ Astray h) :
    Proceeds h (uploadTurn env h s) := by
  unfold uploadTurn
  split_ifs with hcur
  · exact searchTurn_proceeds hcur hguard hfine
  · exact fileTurn_proceeds hcur hguard

end Turn

inductive Reaches (env : Env) : HeadInfo → Store → HeadInfo → Store → Prop where
  | start (h : HeadInfo) (s : Store) : Reaches env h s h s
  | turn (h : HeadInfo) (s : Store) (h₁ : HeadInfo) (s₁ : Store) (h₂ : HeadInfo) (s₂ : Store)
      (hguard : loopGuard h = true) (hturn : uploadTurn env h s = .again h₁ s₁)
      (rest : Reaches env h₁ s₁ h₂ s₂) :
      Reaches env h s h₂ s₂

/-- The loop ends, however many turns it is given beyond those it needs. -/
def Ends (env : Env) (h : HeadInfo) (s : Store) (r : Bool × HeadInfo × Store) : Prop :=
  ∃ n, ∀ m, n ≤ m → uploadLoop env m h s = some r

def LoopRight (env : Env) (h : HeadInfo) (s : Store) : Prop :=
  ∃ r, Ends env h s r ∧ (r.1 = true → Kept r.2.1)

section Run
variable {env : Env}

theorem uploadLoop_again {n : ℕ} {h h₁ : HeadInfo} {s s₁ : Store} (hguard : loopGuard h = true)
    (hturn : uploadTurn env h s = .again h₁ s₁) :
    uploadLoop env (n+1) h s = uploadLoop env n h₁ s₁ := by
  rw [uploadLoop, if_pos hguard, hturn]

theorem uploadLoop_leaves {n : ℕ} {h h₁ : HeadInfo} {s s₁ : Store} {ret : Bool}
    (hguard : loopGuard h = true)
    (hturn : uploadTurn env h s = .leaves ret h₁ s₁) :
    uploadLoop env (n+1) h s = some (ret, h₁, s₁) := by
  rw [uploadLoop, if_pos hguard, hturn]

theorem uploadLoop_done {n : ℕ} {h : HeadInfo} {s : Store} (hguard : ¬ loopGuard h = true) :
    uploadLoop env (n+1) h s = some (true, h, s) := by
  rw [uploadLoop, if_neg hguard]

theorem ends_again {h h₁ : HeadInfo} {s s₁ : Store} (hguard : loopGuard h = true)
    (hturn : uploadTurn env h s = .again h₁ s₁) (r : Bool × HeadInfo × Store) :
    Ends env h s r ↔ Ends env h₁ s₁ r := by
  constructor
  · rintro ⟨n, hn⟩
    refine ⟨n, fun m hm => ?_⟩
    rw [← uploadLoop_again hguard hturn]
    exact hn (m+1) (by omega)
  · rintro ⟨n, hn⟩
    refine ⟨n+1, fun m hm => ?_⟩
    obtain ⟨k, rfl⟩ := Nat.exists_eq_add_of_le' (show 1 ≤ m by omega)
    rw [uploadLoop_again hguard hturn]
    exact hn k (by omega)

theorem loopRight_again {h h₁ : HeadInfo} {s s₁ : Store} (hguard : loopGuard h = true)
    (hturn : uploadTurn env h s = .again h₁ s₁) : LoopRight env h s ↔ LoopRight env h₁ s₁ := by
  simp only [LoopRight, ends_again hguard hturn]

theorem ends_leaves {h h₁ : HeadInfo} {s s₁ : Store} {ret : Bool} (hguard : loopGuard h = true)
    (hturn : uploadTurn env h s = .leaves ret h₁ s₁) : Ends env h s (ret, h₁, s₁) := by
  refine ⟨1, fun m hm => ?_⟩
  obtain ⟨k, rfl⟩ := Nat.exists_eq_add_of_le' hm
  exact uploadLoop_leaves hguard hturn

theorem ends_done {h : HeadInfo} {s : Store} (hguard : ¬ loopGuard h = true) :
    Ends env h s (true, h, s) := by
  refine ⟨1, fun m hm => ?_⟩
  obtain ⟨k, rfl⟩ := Nat.exists_eq_add_of_le' hm
  exact uploadLoop_done hguard

theorem ends_unique {h : HeadInfo} {s : Store} {r r' : Bool × HeadInfo × Store}
    (hr : Ends env h s r)
    (hr' : Ends env h s r') : r = r' := by
  obtain ⟨n, hn⟩ := hr
  obtain ⟨n', hn'⟩ := hr'
  have h1 := hn (max n n') (le_max_left n n')
  rw [hn' (max n n') (le_max_right n n')] at h1
  exact (Option.some.inj h1).symm

theorem ends_of {n : ℕ} {h : HeadInfo} {s : Store} {r : Bool × HeadInfo × Store}
    (hr : uploadLoop env n h s = some r) :
    Ends env h s r := by
  induction n generalizing h s with
  | zero => cases hr
  | succ n ih =>
    by_cases hguard : loopGuard h = true
    · cases hturn : uploadTurn env h s with
      | again h₁ s₁ =>
        rw [uploadLoop_again hguard hturn] at hr
        exact (ends_again hguard hturn r).mpr (ih hr)
      | leaves ret h₁ s₁ =>
        rw [uploadLoop_leaves hguard hturn] at hr
        rw [← Option.some.inj hr]
        exact ends_leaves hguard hturn
      | throws =>
        rw [uploadLoop, if_pos hguard, hturn] at hr
        cases hr
    · rw [uploadLoop_done hguard] at hr
      rw [← Option.some.inj hr]
      exact ends_done hguard

theorem uploadLoop_fine (n : ℕ) (h : HeadInfo) (s : Store) (hn : weight h < n)
    (hfine : ∀ h' s', Reaches env h s h' s' → ¬ Astray h') :
    ∃ r, uploadLoop env n h s = some r ∧ (r.1 = true → Kept r.2.1) := by
  induction n generalizing h s with
  | zero => omega
  | succ n ih =>
    by_cases hguard : loopGuard h = true
    · have hproceeds : Proceeds h (uploadTurn env h s) :=
        uploadTurn_proceeds hguard (hfine h s (.start h s))
      cases hturn : uploadTurn env h s with
      | again h₁ s₁ =>
        rw [hturn] at hproceeds
        cases hproceeds with
        | again _ _ hless =>
          rw [uploadLoop_again hguard hturn]
          exact ih h₁ s₁ (by omega) (fun h₂ s₂ hreach =>
            hfine h₂ s₂ (.turn h s h₁ s₁ h₂ s₂ hguard hturn hreach))
      | leaves ret h₁ s₁ =>
        rw [hturn] at hproceeds
        cases hproceeds with
        | leaves _ _ _ hkept => exact ⟨(ret, h₁, s₁), uploadLoop_leaves hguard hturn, hkept⟩
      | throws =>
        rw [hturn] at hproceeds
        cases hproceeds
    · refine ⟨(true, h, s), uploadLoop_done hguard, fun _ => Or.inr ?_⟩
      simpa [loopGuard] using hguard

theorem loopRight_fine (h : HeadInfo) (s : Store)
    (hfine : ∀ h' s', Reaches env h s h' s' → ¬ Astray h') :
    LoopRight env h s := by
  obtain ⟨r, hr, hkept⟩ := uploadLoop_fine (weight h+1) h s (Nat.lt_succ_self _) hfine
  exact ⟨r, ends_of hr, hkept⟩

end Run

section Wrong
variable {env : Env} {h : HeadInfo} {s : Store} {i : ℕ}

theorem uploadTurn_found (hcur : h.curUploadFile = [])
    (hi : find h.bodyBoundary h.requestBody = some i)
    (hne : narrow i ≠ -1) : uploadTurn env h s = headTurn env
      (setBody h (fromBoundary (narrow i) h.requestBody)) s := by
  rw [uploadTurn, if_pos hcur, searchTurn_found hi hne]

theorem beyond_not_start (hi : find h.bodyBoundary h.requestBody = some i) (hbeyond : 2^31 ≤ i) :
    ¬ h.bodyBoundary <+: fromBoundary (narrow i) h.requestBody := by
  obtain ⟨hlow, hhigh, -⟩ := narrow_bounds i
  unfold fromBoundary
  split_ifs with hpos
  · have hsize : (asSize (narrow i) : ℤ) = narrow i := by
      unfold asSize
      omega
    exact find_first _ _ i _ hi (by omega)
  · have hfirst := find_first _ _ i 0 hi (by omega)
    rwa [List.drop_zero] at hfirst

theorem overlooked_wrong (hcur : h.curUploadFile = []) (hguard : loopGuard h = true)
    (hi : find h.bodyBoundary h.requestBody = some i) (hne : narrow i ≠ -1)
    (hbad : Overlooked h i) :
    ¬ LoopRight env h s := by
  have hturn : uploadTurn env h s = _ := uploadTurn_found hcur hi hne
  rw [headTurn_eq, if_pos hbad.headEnd] at hturn
  rintro ⟨r, hends, hkept⟩
  rw [ends_unique hends (ends_leaves hguard hturn)] at hkept
  cases (kept_setBody h _).mp (hkept rfl) with
  | inl hopen =>
    cases hbad.beyond with
    | inl hbeyond => exact beyond_not_start hi hbeyond hopen.1
    | inr hblank =>
      rw [(not_infix_iff _ _).mp hopen.2] at hblank
      cases hblank
  | inr hshort => exact absurd hshort (not_le.mpr hbad.long)

theorem stuck_refused {body : Bytes} (hlen : body.length < 2^63) (hname : HasName body)
    (hend : headEndPos body = -4) :
    checkFilename (filenameIn body) = false := by
  obtain ⟨n, hn, -⟩ := asInt_found hname.nameEnd
  have hwithin := findFrom_within hn
  have hquote := findFrom_symbol hn
  have hbefore := hname.nameEndBefore
  have hendLow : -2^31 ≤ filenameEndPos body := (asInt_bounds _).1
  have hstartLow : -2^31 ≤ filenamePos body := (narrow_bounds _).1
  have hstartHigh : filenamePos body < 2^31 := (narrow_bounds _).2.1
  have hstart : 0 ≤ filenamePos body := by
    by_contra hneg
    have hsize := asSize_neg (filenamePos body) (not_le.mp hneg) (by omega)
    omega
  have hall : body.length ≤ asSize (filenameEndPos body-filenamePos body) := by
    have hsize := asSize_neg (filenameEndPos body-filenamePos body) (by omega) (by omega)
    omega
  rw [← Bool.not_eq_true, checkFilename_iff]
  rintro ⟨-, -, hclean⟩
  rw [filenameIn, List.take_of_length_le (by rw [List.length_drop]; omega)] at hclean
  exact hclean hquote

theorem stuck_turn (hlen : h.requestBody.length < 2^63) (hcur : h.curUploadFile = [])
    (hi : find h.bodyBoundary h.requestBody = some i) (hne : narrow i ≠ -1) (hbad : Stuck h i) :
    ∃ name, uploadTurn env h s = .again (failUpload { h with curUploadFile := name }) s := by
  have hturn : uploadTurn env h s = _ := uploadTurn_found hcur hi hne
  have hsame : fromBoundary (narrow i) h.requestBody = h.requestBody :=
    if_neg (not_lt.mpr hbad.start)
  have hrest : behindHead h.requestBody = h.requestBody := by
    rw [behindHead, hbad.headEnd]
    rfl
  have hcheck := stuck_refused hlen hbad.name hbad.headEnd
  refine ⟨filenameIn h.requestBody, ?_⟩
  rw [hturn, hsame, headTurn_eq, if_neg hbad.name.headEnd, if_pos hbad.name, hrest,
    setBody_self, openUpload]
  dsimp only
  rw [hcheck]
  rfl

theorem stuck_spins (n : ℕ) (hlen : h.requestBody.length < 2^63) (hcur : h.curUploadFile = [])
    (hguard : loopGuard h = true)
    (hi : find h.bodyBoundary h.requestBody = some i) (hne : narrow i ≠ -1) (hbad : Stuck h i) :
    uploadLoop env n h s = none := by
  induction n generalizing h with
  | zero => rfl
  | succ n ih =>
    obtain ⟨name, hturn⟩ : ∃ name,
      uploadTurn env h s = .again (failUpload { h with curUploadFile := name }) s :=
      stuck_turn hlen hcur hi hne hbad
    rw [uploadLoop_again hguard hturn]
    exact ih hlen rfl hguard hi ⟨hbad.start, hbad.headEnd, hbad.name⟩

theorem astray_wrong (hlen : h.requestBody.length < 2^63) (hastray : Astray h) :
    ¬ LoopRight env h s := by
  obtain ⟨hcur, hguard, i, hi, hne, hbad⟩ := hastray
  cases hbad with
  | inl hbad => exact overlooked_wrong hcur hguard hi hne hbad
  | inr hbad =>
    rintro ⟨r, ⟨n, hn⟩, -⟩
    have hspin : uploadLoop env n h s = none := stuck_spins n hlen hcur hguard hi hne hbad
    rw [hn n le_rfl] at hspin
    cases hspin

end Wrong

theorem loopRight_reaches {env : Env} {h h' : HeadInfo} {s s' : Store}
    (hreach : Reaches env h s h' s') :
    LoopRight env h s ↔ LoopRight env h' s' := by
  induction hreach with
  | start h s => exact Iff.rfl
  | turn h s h₁ s₁ h₂ s₂ hguard hturn _ ih => exact (loopRight_again hguard hturn).trans ih

theorem reaches_shrinks {env : Env} {h h' : HeadInfo} {s s' : Store}
    (hreach : Reaches env h s h' s') :
    h'.requestBody.length ≤ h.requestBody.length := by
  induction hreach with
  | start h s => exact le_rfl
  | turn h s h₁ s₁ h₂ s₂ hguard hturn _ ih =>
    exact ih.trans (uploadTurn_shrinks env h h₁ s (by rw [hturn]; rfl))

theorem narrow_zero : narrow 0 = 0 := narrow_small 0 (by norm_num)

theorem fromBoundary_zero (body : Bytes) : fromBoundary (narrow 0) body = body := by
  rw [narrow_zero]
  rfl

theorem filler_free {c : UInt8} (n : ℕ) (hc : c ≠ 97) : c ∉ List.replicate n 97 := by
  intro hmem
  exact hc (List.eq_of_mem_replicate hmem)

theorem blankLine_last (front : Bytes) (hfront : (13 : UInt8) ∉ front) :
    find (sep ++ sep) (front ++ (sep ++ sep)) = some front.length := by
  have hfind := blankLine_found front [] hfront
  rw [List.append_nil] at hfind
  exact hfind

/-- A part header that goes on for `n` bytes behind the boundary. -/
def longHead (n : ℕ) : Bytes := bytes "--b" ++ List.replicate n 97 ++ (sep ++ sep)

theorem longHead_length (n : ℕ) : (longHead n).length = n+7 := by
  have hb : (bytes "--b").length = 3 := by decide
  rw [longHead, List.length_append, List.length_append, List.length_replicate, blankLine_length, hb]
  omega

theorem longHead_blank (n : ℕ) : find (sep ++ sep) (longHead n) = some (n+3) := by
  have hfront : (13 : UInt8) ∉ bytes "--b" ++ List.replicate n 97 := by
    rw [List.mem_append, not_or]
    exact ⟨by decide, filler_free n (by decide)⟩
  have hb : (bytes "--b").length = 3 := by decide
  rw [longHead, blankLine_last _ hfront, List.length_append, List.length_replicate, hb,
    Nat.add_comm]

theorem longHead_overlooked {h : HeadInfo} (n : ℕ) (hn : n+4 = 2^32)
    (hb : h.bodyBoundary = bytes "--b")
    (hbody : h.requestBody = longHead n) : Overlooked h 0 := by
  have hlen : (bytes "--b").length+sep.length = 5 := by decide
  constructor
  · rw [fromBoundary_zero, hbody, headEndPos, longHead_blank]
    have hnarrow := narrow_large (n+3) (by omega) (by omega)
    rw [asInt, hnarrow]
    omega
  · rw [fromBoundary_zero, hbody, longHead_blank]
    exact Or.inr rfl
  · rw [fromBoundary_zero, hbody, hb, longHead_length, hlen]
    omega

/-- A part header with a quotation mark, the key and the blank line, so many bytes apart. -/
def farHead (n₁ n₂ n₃ : ℕ) : Bytes :=
  bytes "--b" ++ List.replicate n₁ 97 ++ [quote] ++ List.replicate n₂ 97 ++ filenameKey ++
    List.replicate n₃ 97 ++
    (sep ++ sep)

section Far
variable (n₁ n₂ n₃ : ℕ)

theorem farHead_quote : find [quote] (farHead n₁ n₂ n₃) = some (n₁+3) := by
  have hfront : quote ∉ bytes "--b" ++ List.replicate n₁ 97 := by
    rw [List.mem_append, not_or]
    exact ⟨by decide, filler_free n₁ (by decide)⟩
  have hb : (bytes "--b").length = 3 := by decide
  have hfind := find_after_clean quote [] (bytes "--b" ++ List.replicate n₁ 97)
    (List.replicate n₂ 97 ++ filenameKey ++ List.replicate n₃ 97 ++ (sep ++ sep)) hfront
  rw [List.length_append, List.length_replicate, hb, Nat.add_comm] at hfind
  rw [← hfind, farHead]
  simp only [List.append_assoc]

theorem farHead_key : find filenameKey (farHead n₁ n₂ n₃) = some (n₁+n₂+4) := by
  have hfront : (102 : UInt8) ∉
      bytes "--b" ++ List.replicate n₁ 97 ++ [quote] ++ List.replicate n₂ 97 := by
    simp only [List.mem_append, not_or]
    exact ⟨⟨⟨by decide, filler_free n₁ (by decide)⟩, by decide⟩, filler_free n₂ (by decide)⟩
  have hb : (bytes "--b").length = 3 := by decide
  have hfind := find_after_clean
    (102 : UInt8) filenameKey.tail _ (List.replicate n₃ 97 ++ (sep ++ sep)) hfront
  have hlen : (bytes "--b" ++ List.replicate n₁ 97 ++ [quote] ++ List.replicate n₂ 97).length =
    n₁+n₂+4 := by
    simp only [List.length_append, List.length_replicate, hb, List.length_singleton]
    omega
  rw [hlen] at hfind
  rw [← hfind, farHead]
  simp only [List.append_assoc]
  rfl

theorem farHead_blank : find (sep ++ sep) (farHead n₁ n₂ n₃) = some (n₁+n₂+n₃+14) := by
  have hfront : (13 : UInt8) ∉
      bytes "--b" ++ List.replicate n₁ 97 ++ [quote] ++ List.replicate n₂ 97 ++ filenameKey ++
        List.replicate n₃ 97 := by
    simp only [List.mem_append, not_or]
    exact ⟨⟨⟨⟨⟨by decide, filler_free n₁ (by decide)⟩, by decide⟩,
      filler_free n₂ (by decide)⟩, by decide⟩, filler_free n₃ (by decide)⟩
  have hb : (bytes "--b").length = 3 := by decide
  have hkey : filenameKey.length = 10 := by decide
  rw [farHead, blankLine_last _ hfront]
  simp only [List.length_append, List.length_replicate, hb, hkey, List.length_singleton]
  congr 1
  omega

theorem farHead_stuck {h : HeadInfo} (h₁ : n₁ = 2^31) (h₂ : n₁+n₂+14 = 2^32) (h₃ : n₃+4 = 2^32)
    (hbody : h.requestBody = farHead n₁ n₂ n₃) : Stuck h 0 := by
  have hend : headEndPos h.requestBody = -4 := by
    have hpos : n₁+n₂+n₃+14 = 8589934588 := by omega
    rw [hbody, headEndPos, farHead_blank, hpos]
    decide
  have hkey : keyPos h.requestBody = -10 := by
    have hpos : n₁+n₂+4 = 4294967286 := by omega
    rw [hbody, keyPos, farHead_key, hpos]
    decide
  have hname : filenamePos h.requestBody = 0 := by
    rw [filenamePos, hkey]
    decide
  have hnameEnd : filenameEndPos h.requestBody = 2147483651-2^32 := by
    have hpos : n₁+3 = 2147483651 := by omega
    rw [filenameEndPos, hname, hbody, show asSize 0 = 0 from rfl, findFrom,
      if_neg (Nat.not_lt_zero _), List.drop_zero, farHead_quote, hpos]
    decide
  refine ⟨narrow_zero.le, hend, ?_, ?_, ?_, ?_, ?_⟩
  · omega
  · omega
  · omega
  · omega
  · omega

theorem farHead_length : (farHead n₁ n₂ n₃).length = n₁+n₂+n₃+18 := by
  have hb : (bytes "--b").length = 3 := by decide
  have hkey : filenameKey.length = 10 := by decide
  have hsep : sep.length = 2 := by decide
  simp only [farHead, List.length_append, List.length_replicate, hb, hkey,
    List.length_singleton, hsep]
  omega

end Far

def longRequest : HeadInfo := setBody (uploadHead (bytes "--b")) (longHead (2^32-4))

def farRequest : HeadInfo := setBody (uploadHead (bytes "--b")) (farHead (2^31) (2^31-14) (2^32-4))

theorem longHead_start (n : ℕ) : find (bytes "--b") (longHead n) = some 0 := by
  rw [longHead, List.append_assoc]
  exact find_at_start _ _ (List.prefix_append _ _)

theorem farHead_start (n₁ n₂ n₃ : ℕ) : find (bytes "--b") (farHead n₁ n₂ n₃) = some 0 := by
  simp only [farHead, List.append_assoc]
  exact find_at_start _ _ (List.prefix_append _ _)

theorem headEndPos_small {body : Bytes} {j : ℕ} (hsmall : body.length < 2^31)
    (hj : find (sep ++ sep) body = some j) :
    headEndPos body = j := by
  have hle := find_le _ _ _ hj
  rw [headEndPos, hj]
  exact narrow_small j (by omega)

theorem small_not_astray {h : HeadInfo} (hsmall : h.requestBody.length < 2^31) : ¬ Astray h := by
  rintro ⟨-, -, i, hi, -, hbad⟩
  have hle := find_le _ _ _ hi
  cases hbad with
  | inl hbad =>
    cases hbad.beyond with
    | inl hbeyond => omega
    | inr hblank =>
      obtain ⟨j, hj⟩ := Option.isSome_iff_exists.mp hblank
      have hcut := fromBoundary_length (narrow i) h.requestBody
      have hend := hbad.headEnd
      rw [headEndPos_small (by omega) hj] at hend
      omega
  | inr hbad =>
    obtain ⟨j, hj, -⟩ := asInt_found hbad.name.headEnd
    have hend := hbad.headEnd
    rw [headEndPos_small hsmall hj] at hend
    omega

theorem processUploadBody_kept (env : Env) (h : HeadInfo) (s : Store)
    (hsmall : h.requestBody.length < 2^31) :
    ∃ r, processUploadBody env h s = some r ∧ (r.1 = true → Kept r.2.1) :=
  uploadLoop_fine (turnBound h) h s (weight_lt_turnBound h)
    fun _ _ hreach => small_not_astray ((reaches_shrinks hreach).trans_lt hsmall)

theorem onBodies_kept (env : Env) (chunks : List Bytes) (h : HeadInfo) (s : Store)
    (hup : isUpload h = true)
    (hkept : h.responseStatus = [] → Kept h)
    (hsmall : h.requestBody.length+chunks.flatten.length < 2^31) :
    ∃ h' s', onBodies env chunks h s = some (h', s') ∧ (h'.responseStatus = [] → Kept h') := by
  induction chunks generalizing h s with
  | nil => exact ⟨h, s, rfl, hkept⟩
  | cons data chunks ih =>
    by_cases hstatus : h.responseStatus = []
    · rw [List.flatten_cons, List.length_append] at hsmall
      have hlen : (setBody h (h.requestBody ++ data)).requestBody.length =
        h.requestBody.length+data.length :=
        List.length_append
      obtain ⟨r, hr, hkept'⟩ :=
        processUploadBody_kept env (setBody h (h.requestBody ++ data)) s (by omega)
      have hbody : onBody env data h s = some (if r.1 then
        (r.2.1, r.2.2) else (badRequest r.2.1, r.2.2)) := by
        simp [onBody, hstatus, hup, hr]
      rw [onBodies, hbody, Option.bind_some]
      cases hret : r.1 with
      | true =>
        have hshort := uploadLoop_shrinks env _ _ s r hr
        have hframe := (frame_fields (uploadLoop_frame env _ _ s r hr)).2
        exact ih r.2.1 r.2.2 (hframe.trans hup) (fun _ => hkept' hret) (by omega)
      | false => exact ⟨badRequest r.2.1, r.2.2, onBodies_refused env chunks _ _ badRequest_status,
          fun h' => absurd h' badRequest_status⟩
    · exact ⟨h, s, onBodies_refused env (data::chunks) h s hstatus, fun h' => absurd h' hstatus⟩

end CloudBackup.UploadTermination
