import CloudBackup.RejectedParts

/-!
# What was read of an upload

`partsOf` reads the parts off a whole text. Beside the scanner a receipt is
kept of the parts whose headers were read, with the bytes taken for each. As
long as no part is refused the receipt and the parts in what is left of the
text make up the parts of the whole, however the text was cut.
-/

set_option autoImplicit false

namespace CloudBackup.UploadReceipt
open CloudBackup.PatternSearch CloudBackup.ByteStrings CloudBackup.FilePath CloudBackup.FileStore
open CloudBackup.DataManager CloudBackup.UploadScanner CloudBackup.UploadDecoder
open CloudBackup.UploadChunking CloudBackup.PartFates CloudBackup.RejectedParts

/-- The name in the next part header, and where the blank line behind it begins. -/
def nextHead (boundary text : Bytes) : Option (Bytes × ℕ) :=
  (find boundary text).bind fun i => (find (sep ++ sep) (text.drop i)).bind fun e =>
    (partFilename ((text.drop i).take e)).map fun name => (name, e+i)

/-- Each part goes to the next line with the boundary, the last to the end if there is none. -/
def partsOf (boundary text : Bytes) : List (Bytes × Bytes) :=
  if text = [] then []
  else
    match nextHead boundary text with
    | none => []
    | some (name, n) =>
      let content := text.drop (n+4)
      match find (sep ++ boundary) content with
      | none => [(name, content)]
      | some j => (name, content.take j) :: partsOf boundary (content.drop j)
termination_by text.length
decreasing_by
  have hpos : 0 < text.length := List.length_pos_of_ne_nil ‹¬ text = []›
  simp only [List.length_drop]
  omega

/-- The parts whose headers were read, with the bytes taken for each. `intact` is false once
the disk has not taken all of what an append reported as done, or the size of a finished file
was not to be had. -/
structure Receipt where
  parts : List (Bytes × Bytes)
  intact : Bool

def named (h h' : HeadInfo) : List Bytes :=
  if h'.curUploadFile = [] then h'.uploadFailFiles.drop h.uploadFailFiles.length
    else [h'.curUploadFile]

def consumed (h h' : HeadInfo) : Bytes :=
  h.requestBody.take (h.requestBody.length-h'.requestBody.length)

def receive (content : Bytes) : List (Bytes × Bytes) → List (Bytes × Bytes)
  | [] => []
  | [p] => [(p.1, p.2 ++ content)]
  | p::q::ps => p :: receive content (q::ps)

def allTaken (content : Bytes) (s : Store) : Bool := content = [] || s.disk.takes content = content

/-- `GetFileSize` comes behind the write of the turn. -/
def sizeRead (content : Bytes) (s : Store) : Bool :=
  (s.disk.faults.getD (if content = [] then 0 else 1) none).isNone

def receiveTurn (env : Env) (h : HeadInfo) (s : Store) (r : Receipt) : Receipt :=
  match uploadTurn env h s with
  | .again h' _ =>
    if h.curUploadFile = [] then
      { r with parts := r.parts ++ (named h h').map fun name => (name, []) }
    else
      let content := consumed h h'
      { parts := receive content r.parts
        intact := r.intact && allTaken content s &&
          (h'.uploadSuccessFiles = h.uploadSuccessFiles || sizeRead content s) }
  | _ => r

def receiveLoop (env : Env) : ℕ → HeadInfo → Store → Receipt → Receipt
  | 0, _, _, r => r
  | n+1, h, s, r =>
    if loopGuard h then
      match uploadTurn env h s with
      | .again h' s' => receiveLoop env n h' s' (receiveTurn env h s r)
      | _ => r
    else r

def receiveBodies (env : Env) : List Bytes → HeadInfo → Store → Receipt → Receipt
  | [], _, _, r => r
  | data::rest, h, s, r =>
    let g := setBody h (h.requestBody ++ data)
    let q := if h.responseStatus = [] ∧ isUpload h then receiveLoop env (turnBound g) g s r else r
    match onBody env data h s with
    | none => q
    | some t => receiveBodies env rest t.1 t.2 q

theorem again_receives {env : Env} {h h' : HeadInfo} {s s' : Store} {r : Receipt}
    (ht : uploadTurn env h s = .again h' s') : receiveTurn env h s r =
      if h.curUploadFile = [] then
        { r with parts := r.parts ++ (named h h').map fun name => (name, []) }
      else { parts := receive (consumed h h') r.parts
             intact := r.intact && allTaken (consumed h h') s &&
               (h'.uploadSuccessFiles = h.uploadSuccessFiles || sizeRead (consumed h h') s) } := by
  rw [receiveTurn, ht]

theorem consumed_drop (h h' : HeadInfo) (content : Bytes) (hpre : content <+: h.requestBody)
    (hbody : h'.requestBody = h.requestBody.drop content.length) : consumed h h' = content := by
  have hle := hpre.length_le
  rw [consumed, hbody, List.length_drop, Nat.sub_sub_self hle]
  exact (List.prefix_iff_eq_take.mp hpre).symm

theorem receive_snoc (content : Bytes) (done : List (Bytes × Bytes)) (name c : Bytes) :
    receive content (done ++ [(name, c)]) = done ++ [(name, c ++ content)] := by
  induction done with
  | nil => rfl
  | cons p ps ih =>
    cases ps with
    | nil => rfl
    | cons q ps => exact congrArg (p :: ·) ih

theorem receive_receive (c d : Bytes) (parts : List (Bytes × Bytes)) :
    receive d (receive c parts) = receive (c ++ d) parts := by
  rcases List.eq_nil_or_concat parts with rfl | ⟨done, ⟨name, a⟩, rfl⟩
  · rfl
  · rw [List.concat_eq_append, receive_snoc, receive_snoc, receive_snoc, List.append_assoc]

theorem partsOf_head (boundary text : Bytes) : partsOf boundary text =
    match nextHead boundary text with
    | none => []
    | some (name, n) =>
      match find (sep ++ boundary) (text.drop (n+4)) with
      | none => [(name, text.drop (n+4))]
      | some j => (name, (text.drop (n+4)).take j) ::
          partsOf boundary ((text.drop (n+4)).drop j) := by
  rw [partsOf]
  split_ifs with hnil
  · have hnone : nextHead boundary [] = none := by
      unfold nextHead
      cases find boundary ([] : Bytes) with
      | none => rfl
      | some i =>
        have hblank : find (sep ++ sep) ([] : Bytes) = none := by decide
        rw [Option.bind_some, List.drop_nil, hblank]
        rfl
    rw [hnil, hnone]
  · rfl

theorem partsOf_shift (boundary text : Bytes) (k : ℕ)
    (hshift : nextHead boundary text = (nextHead boundary (text.drop k)).map fun r =>
      (r.1, r.2+k)) :
    partsOf boundary text = partsOf boundary (text.drop k) := by
  rw [partsOf_head boundary text, partsOf_head boundary (text.drop k), hshift]
  cases nextHead boundary (text.drop k) with
  | none => rfl
  | some r =>
    have hdrop : text.drop (r.2+k+4) = (text.drop k).drop (r.2+4) := by
      rw [List.drop_drop]
      congr 1
      omega
    simp only [Option.map_some, hdrop]

theorem nextHead_skip (boundary body y : Bytes) (hnone : find boundary body = none) (k : ℕ)
    (hk : k+boundary.length ≤ body.length) : nextHead boundary (body ++ y) =
      (nextHead boundary ((body ++ y).drop k)).map fun r => (r.1, r.2+k) := by
  have hfind := find_drop_append boundary body y k hnone (by omega)
  have hdrop : (body ++ y).drop k = body.drop k ++ y := List.drop_append_of_le_length (by omega)
  unfold nextHead
  rw [hfind, hdrop]
  cases find boundary (body.drop k ++ y) with
  | none => rfl
  | some j =>
    have hrest : (body ++ y).drop (j+k) = (body.drop k ++ y).drop j := by
      rw [Nat.add_comm, ← List.drop_drop, hdrop]
    simp only [Option.map_some, Option.bind_some, hrest]
    cases find (sep ++ sep) ((body.drop k ++ y).drop j) with
    | none => rfl
    | some e =>
      rw [Option.bind_some, Option.bind_some, Option.map_map]
      congr 1
      funext name
      exact congrArg (Prod.mk name) (Nat.add_assoc e j k).symm

theorem nextHead_found (boundary text : Bytes) (i : ℕ) (hi : find boundary text = some i) :
    nextHead boundary text = (nextHead boundary (text.drop i)).map fun r => (r.1, r.2+i) := by
  have hzero : find boundary (text.drop i) = some 0 := find_at_start _ _ (find_occurs _ _ _ hi)
  unfold nextHead
  rw [hi, hzero]
  simp only [Option.bind_some, List.drop_zero]
  cases find (sep ++ sep) (text.drop i) with
  | none => rfl
  | some e =>
    rw [Option.bind_some, Option.bind_some, Option.map_map]
    rfl

theorem nextHead_read (boundary body y : Bytes) (hi : boundary <+: body) (e : ℕ)
    (he : find (sep ++ sep) body = some e) :
    nextHead boundary (body ++ y) = (partFilename (body.take e)).map fun name => (name, e) := by
  have hzero : find boundary (body ++ y) = some 0 :=
    find_at_start _ _ (hi.trans (List.prefix_append _ _))
  have hle := find_le _ _ e he
  have htake : (body ++ y).take e = body.take e := List.take_append_of_le_length (by omega)
  simp only [nextHead, hzero, Option.bind_some, List.drop_zero, find_append _ _ y e he, htake,
    Nat.add_zero]

theorem nextHead_short (boundary text : Bytes) (hb : 13 ∉ boundary)
    (hlen : text.length ≤ boundary.length+sep.length) : nextHead boundary text = none := by
  unfold nextHead
  cases hi : find boundary text with
  | none => rfl
  | some i =>
    rw [Option.bind_some]
    cases he : find (sep ++ sep) (text.drop i) with
    | none => rfl
    | some e =>
      have h1 := boundary_before _ text i e hb hi he
      have h2 := find_le _ _ e he
      have h3 : (sep ++ sep).length = 4 := by decide
      have h4 : sep.length = 2 := by decide
      rw [List.length_drop] at h2
      omega

/-- The rest of a part that is being received, and the parts behind it. -/
def resume (boundary : Bytes) (parts : List (Bytes × Bytes)) (text : Bytes) :
    List (Bytes × Bytes) :=
  match find (sep ++ boundary) text with
  | none => receive text parts
  | some j => receive (text.take j) parts ++ partsOf boundary (text.drop j)

theorem resume_opened (boundary text name : Bytes) (n : ℕ) (parts : List (Bytes × Bytes))
    (hhead : nextHead boundary text = some (name, n)) :
    resume boundary (parts ++ [(name, [])]) (text.drop (n+4)) = parts ++ partsOf boundary text := by
  rw [partsOf_head, hhead, resume]
  dsimp only
  cases find (sep ++ boundary) (text.drop (n+4)) with
  | none => rw [receive_snoc, List.nil_append]
  | some j =>
    dsimp only
    rw [receive_snoc, List.nil_append, List.append_assoc, List.singleton_append]

theorem resume_skip (boundary body y : Bytes) (parts : List (Bytes × Bytes))
    (hnone : find (sep ++ boundary) body = none) (k : ℕ)
    (hk : k+(sep ++ boundary).length ≤ body.length) :
    resume boundary (receive (body.take k) parts) (body.drop k ++ y) = resume boundary parts
      (body ++ y) := by
  have hfind := find_drop_append (sep ++ boundary) body y k hnone (by omega)
  have hdrop : (body ++ y).drop k = body.drop k ++ y := List.drop_append_of_le_length (by omega)
  have hall : body ++ y = body.take k ++ (body.drop k ++ y) := by
    rw [← List.append_assoc, List.take_append_drop]
  unfold resume
  rw [hfind]
  cases find (sep ++ boundary) (body.drop k ++ y) with
  | none =>
    dsimp only [Option.map_none]
    rw [receive_receive, ← hall]
  | some j =>
    have htake : (body ++ y).take (j+k) = body.take k ++ (body.drop k ++ y).take j := by
      have hk' : (body.take k).length = k := by
        rw [List.length_take]
        omega
      rw [hall, List.take_append, hk', List.take_take, Nat.min_eq_right (by omega),
        Nat.add_sub_cancel]
    have hrest : (body ++ y).drop (j+k) = (body.drop k ++ y).drop j := by
      rw [Nat.add_comm, ← List.drop_drop, hdrop]
    dsimp only [Option.map_some]
    rw [receive_receive, htake, hrest]

theorem resume_found (boundary body y : Bytes) (parts : List (Bytes × Bytes)) (i : ℕ)
    (hi : find (sep ++ boundary) body = some i) : resume boundary parts (body ++ y) =
      receive (body.take i) parts ++ partsOf boundary (body.drop i ++ y) := by
  have hle := find_le _ _ i hi
  have htake : (body ++ y).take i = body.take i := List.take_append_of_le_length (by omega)
  have hdrop : (body ++ y).drop i = body.drop i ++ y := List.drop_append_of_le_length (by omega)
  rw [resume, find_append _ _ y i hi]
  dsimp only
  rw [htake, hdrop]

def ahead (h : HeadInfo) (parts : List (Bytes × Bytes)) (text : Bytes) : List (Bytes × Bytes) :=
  if h.curUploadFile = [] then
    parts ++ partsOf h.bodyBoundary text else resume h.bodyBoundary parts text

theorem ahead_setBody (h : HeadInfo) (body : Bytes) (parts : List (Bytes × Bytes)) (text : Bytes) :
    ahead (setBody h body) parts text = ahead h parts text := rfl

def Spent (h : HeadInfo) : Prop :=
  h.curUploadFile = [] → nextHead h.bodyBoundary h.requestBody = none

section Turn
variable {env : Env} {h h' : HeadInfo} {s s' : Store} {r : Receipt}

theorem headTurn_ahead (hcur : h.curUploadFile = []) (hi : h.bodyBoundary <+: h.requestBody)
    (hfits : HeadFits h.requestBody) (ht : headTurn env h s = .again h' s')
    (hfail : h'.uploadFailFiles = [])
    (y : Bytes) (parts : List (Bytes × Bytes)) : h.uploadFailFiles = [] ∧
      ahead h' (parts ++ (named h h').map fun name => (name, [])) (h'.requestBody ++ y) =
        ahead h parts (h.requestBody ++ y) := by
  rw [headTurn_fits env h s hfits] at ht
  cases he : find (sep ++ sep) h.requestBody with
  | none =>
    rw [he] at ht
    cases ht
  | some e =>
    rw [he] at ht
    dsimp only at ht
    have hread := nextHead_read h.bodyBoundary h.requestBody y hi e he
    cases hp : partFilename (h.requestBody.take e) with
    | none =>
      rw [hp] at ht
      cases ht
    | some name =>
      rw [hp] at ht hread
      have hle := find_le _ _ e he
      have h4 : (sep ++ sep).length = 4 := by decide
      have hdrop : (h.requestBody ++ y).drop (e+4) = h.requestBody.drop (e+4) ++ y :=
        List.drop_append_of_le_length (by omega)
      unfold openUpload at ht
      dsimp only at ht
      split_ifs at ht with hcheck hreg
      · cases ht
        simp [failUpload] at hfail
      · cases ht
        have hne : name ≠ [] := ((checkFilename_iff name).mp (by simpa using hcheck)).1
        refine ⟨hfail, ?_⟩
        rw [ahead, if_neg hne, ahead, if_pos hcur, named, if_neg hne]
        have hopened := resume_opened h.bodyBoundary (h.requestBody ++ y) name e parts hread
        rw [hdrop] at hopened
        exact hopened
      · cases ht
        simp [failUpload] at hfail

theorem searchTurn_ahead (hcur : h.curUploadFile = []) (hg : loopGuard h = true)
    (hfits : TurnFits h)
    (ht : searchTurn env h s = .again h' s') (hfail : h'.uploadFailFiles = []) (y : Bytes)
    (parts : List (Bytes × Bytes)) : h.uploadFailFiles = [] ∧
      ahead h' (parts ++ (named h h').map fun name => (name, [])) (h'.requestBody ++ y) =
        ahead h parts (h.requestBody ++ y) := by
  have hlong : h.bodyBoundary.length+sep.length < h.requestBody.length := by
    simpa [loopGuard] using hg
  rw [TurnFits, if_pos hcur] at hfits
  rw [searchTurn_fits env h s hfits.1] at ht
  cases hi : find h.bodyBoundary h.requestBody with
  | none =>
    rw [hi] at ht
    cases ht
    have hnone : (named h (setBody h
      (h.requestBody.drop (h.requestBody.length-h.bodyBoundary.length)))).map
        (fun name => (name, ([] : Bytes))) = [] := by
      rw [named, setBody_curUploadFile, if_pos hcur]
      simp [setBody]
    have hskip := nextHead_skip h.bodyBoundary h.requestBody y hi
      (h.requestBody.length-h.bodyBoundary.length) (by omega)
    have hshift := partsOf_shift h.bodyBoundary (h.requestBody ++ y) _ hskip
    rw [List.drop_append_of_le_length (by omega)] at hshift
    refine ⟨hfail, ?_⟩
    rw [hnone, List.append_nil, ahead_setBody, ahead, if_pos hcur, ahead, if_pos hcur, hshift]
    rfl
  | some i =>
    rw [hi] at ht
    have hle := find_le _ _ i hi
    obtain ⟨hclean, hsame⟩ := headTurn_ahead (h := setBody h (h.requestBody.drop i)) hcur
      (find_occurs _ _ i hi) (hfits.2 i hi) ht hfail y parts
    have hshift := partsOf_shift h.bodyBoundary (h.requestBody ++ y) i
      (nextHead_found h.bodyBoundary _ i (find_append _ _ y i hi))
    rw [List.drop_append_of_le_length (by omega)] at hshift
    refine ⟨hclean, hsame.trans ?_⟩
    rw [ahead_setBody, ahead, if_pos hcur, ahead, if_pos hcur, hshift]
    rfl

theorem fileTurn_ahead (hcur : h.curUploadFile ≠ []) (hg : loopGuard h = true) (hfits : TurnFits h)
    (ht : fileTurn env h s = .again h' s') (hfail : h'.uploadFailFiles = []) (y : Bytes)
    (parts : List (Bytes × Bytes)) : h.uploadFailFiles = [] ∧
      ahead h' (receive (consumed h h') parts) (h'.requestBody ++ y) = ahead h parts
        (h.requestBody ++ y) := by
  have hlong : h.bodyBoundary.length+sep.length < h.requestBody.length := by
    simpa [loopGuard] using hg
  have hsep : (sep ++ h.bodyBoundary).length = h.bodyBoundary.length+sep.length := by
    rw [List.length_append, Nat.add_comm]
  rw [TurnFits, if_neg hcur] at hfits
  rw [fileTurn_small env h s hfits] at ht
  have hpre : pending h <+: h.requestBody := List.take_prefix _ _
  cases hi : find (sep ++ h.bodyBoundary) h.requestBody with
  | none =>
    rw [hi] at ht
    obtain ⟨k, hk⟩ : ∃ k, k = h.requestBody.length-h.bodyBoundary.length-sep.length := ⟨_, rfl⟩
    have hpending : pending h = h.requestBody.take k := by rw [pending, hi, Option.getD_none, hk]
    have hlen : (pending h).length = k := by
      rw [hpending, List.length_take]
      omega
    cases hok : (copied env h s (pending h)).1 with
    | false =>
      rw [writeTurn_fails hok] at ht
      cases ht
      simp [failUpload] at hfail
    | true =>
      rw [writeTurn_goes hok] at ht
      cases ht
      refine ⟨hfail, ?_⟩
      rw [consumed_drop h _ (pending h) hpre rfl, ahead_setBody, ahead, if_neg hcur, ahead,
        if_neg hcur, hlen, hpending]
      exact resume_skip h.bodyBoundary h.requestBody y parts hi k (by omega)
  | some i =>
    rw [hi] at ht
    dsimp only at ht
    have hle := find_le _ _ i hi
    have hpending : pending h = h.requestBody.take i := by rw [pending, hi, Option.getD_some]
    have hlen : (pending h).length = i := by
      rw [hpending, List.length_take]
      omega
    cases hok : (copied env h s (pending h)).1 with
    | false =>
      rw [writeTurn_fails hok] at ht
      cases ht
      simp [failUpload] at hfail
    | true =>
      rw [writeTurn_ends hok] at ht
      cases ht
      refine ⟨hfail, ?_⟩
      have hnil : (finishUpload env (setBody h (h.requestBody.drop (pending h).length))
          { s with disk := (copied env h s (pending h)).2 }).1.curUploadFile = [] := rfl
      rw [consumed_drop h _ (pending h) hpre rfl, ahead, if_pos hnil, ahead, if_neg hcur,
        resume_found h.bodyBoundary h.requestBody y parts i hi, ← hpending, ← hlen]
      rfl

theorem uploadTurn_ahead (hg : loopGuard h = true) (hfits : TurnFits h)
    (ht : uploadTurn env h s = .again h' s') (hfail : h'.uploadFailFiles = []) (y : Bytes) :
    h.uploadFailFiles = [] ∧ ahead h' (receiveTurn env h s r).parts (h'.requestBody ++ y) =
      ahead h r.parts (h.requestBody ++ y) := by
  rw [again_receives ht]
  by_cases hcur : h.curUploadFile = []
  · rw [if_pos hcur]
    rw [uploadTurn, if_pos hcur] at ht
    exact searchTurn_ahead hcur hg hfits ht hfail y r.parts
  · rw [if_neg hcur]
    rw [uploadTurn, if_neg hcur] at ht
    exact fileTurn_ahead hcur hg hfits ht hfail y r.parts

theorem uploadTurn_left (hfits : TurnFits h) (ht : uploadTurn env h s = .leaves true h' s')
    (y : Bytes) :
    h'.uploadFailFiles = h.uploadFailFiles ∧ Spent h' ∧
      ahead h' r.parts (h'.requestBody ++ y) = ahead h r.parts (h.requestBody ++ y) := by
  by_cases hcur : h.curUploadFile = []
  · rw [uploadTurn, if_pos hcur] at ht
    rw [TurnFits, if_pos hcur] at hfits
    rw [searchTurn_fits env h s hfits.1] at ht
    cases hi : find h.bodyBoundary h.requestBody with
    | none =>
      rw [hi] at ht
      cases ht
    | some i =>
      rw [hi] at ht
      dsimp only at ht
      rw [headTurn_fits env _ s (hfits.2 i hi)] at ht
      have hle := find_le _ _ i hi
      have hshift := partsOf_shift h.bodyBoundary (h.requestBody ++ y) i
        (nextHead_found h.bodyBoundary _ i (find_append _ _ y i hi))
      rw [List.drop_append_of_le_length (by omega)] at hshift
      rw [setBody_requestBody] at ht
      cases he : find (sep ++ sep) (h.requestBody.drop i) with
      | none =>
        rw [he] at ht
        cases ht
        refine ⟨rfl, fun _ => ?_, ?_⟩
        · have hzero : find h.bodyBoundary (h.requestBody.drop i) = some 0 :=
            find_at_start _ _ (find_occurs _ _ i hi)
          show nextHead h.bodyBoundary (h.requestBody.drop i) = none
          rw [nextHead, hzero, Option.bind_some, List.drop_zero, he]
          rfl
        · rw [ahead_setBody, ahead, if_pos hcur, ahead, if_pos hcur, hshift]
          rfl
      | some e =>
        rw [he] at ht
        dsimp only at ht
        cases hp : partFilename ((h.requestBody.drop i).take e) with
        | none =>
          rw [hp] at ht
          cases ht
        | some name =>
          rw [hp] at ht
          cases ht
  · rw [uploadTurn, if_neg hcur] at ht
    rw [TurnFits, if_neg hcur] at hfits
    rw [fileTurn_small env h s hfits] at ht
    cases hi : find (sep ++ h.bodyBoundary) h.requestBody with
    | none =>
      rw [hi] at ht
      simp only [writeTurn] at ht
      split_ifs at ht
    | some i =>
      rw [hi] at ht
      simp only [writeTurn] at ht
      split_ifs at ht

end Turn

theorem receiveLoop_ahead (env : Env) (n : ℕ) {h : HeadInfo} {s : Store} (r : Receipt)
    (hb : 13 ∉ h.bodyBoundary)
    (hfits : LoopFits env n h s) {q : HeadInfo × Store}
    (hrun : uploadLoop env n h s = some (true, q))
    (hfail : q.1.uploadFailFiles = []) : h.uploadFailFiles = [] ∧ Spent q.1 ∧ ∀ y,
      ahead q.1 (receiveLoop env n h s r).parts (q.1.requestBody ++ y) = ahead h r.parts
        (h.requestBody ++ y) := by
  induction n generalizing h s r with
  | zero => cases hrun
  | succ n ih =>
    unfold uploadLoop at hrun
    unfold receiveLoop
    by_cases hg : loopGuard h = true
    · obtain ⟨hturn, hrest⟩ := hfits hg
      rw [if_pos hg] at hrun
      rw [if_pos hg]
      cases ht : uploadTurn env h s with
      | again h' s' =>
        rw [ht] at hrun
        have hframe := uploadTurn_frame env h h' s (by rw [ht]; rfl)
        have hb' : 13 ∉ h'.bodyBoundary := (congrArg HeadInfo.bodyBoundary hframe) ▸ hb
        obtain ⟨hclean, hspent, hsame⟩ := ih (receiveTurn env h s r) hb' (hrest h' s' ht) hrun
        have hfirst := (uploadTurn_ahead (r := r) hg hturn ht hclean []).1
        refine ⟨hfirst, hspent, fun y => ?_⟩
        exact (hsame y).trans (uploadTurn_ahead hg hturn ht hclean y).2
      | leaves ret h' s' =>
        rw [ht] at hrun
        cases hrun
        have hleft := fun y => uploadTurn_left (r := r) hturn ht y
        refine ⟨(hleft []).1 ▸ hfail, (hleft []).2.1, fun y => (hleft y).2.2⟩
      | throws =>
        rw [ht] at hrun
        cases hrun
    · rw [if_neg hg] at hrun
      rw [if_neg hg]
      cases hrun
      refine ⟨hfail, fun _ => ?_, fun _ => rfl⟩
      exact nextHead_short h.bodyBoundary h.requestBody hb (by simpa [loopGuard] using hg)

theorem receiveBodies_ahead (env : Env) (chunks : List Bytes) {h h' : HeadInfo} {s s' : Store}
    (r : Receipt)
    (hb : 13 ∉ h.bodyBoundary) (hup : isUpload h = true) (hst : h.responseStatus = [])
    (hfits : BodiesFit env chunks h s) (hrun : onBodies env chunks h s = some (h', s'))
    (hanswered : h'.responseStatus = []) (hfail : h'.uploadFailFiles = []) :
    h.uploadFailFiles = [] ∧ (Spent h → Spent h') ∧
      ahead h' (receiveBodies env chunks h s r).parts h'.requestBody =
        ahead h r.parts (h.requestBody ++ chunks.flatten) := by
  induction chunks generalizing h s r with
  | nil =>
    cases hrun
    refine ⟨hfail, id, ?_⟩
    rw [List.flatten_nil, List.append_nil]
    rfl
  | cons data rest ih =>
    obtain ⟨⟨h₁, s₁⟩, hbody, hrest⟩ := Option.bind_eq_some_iff.mp hrun
    obtain ⟨hloop, hlater⟩ := hfits
    have hlater := hlater _ hbody
    unfold receiveBodies
    dsimp only
    rw [hbody, if_pos ⟨hst, hup⟩]
    unfold onBody at hbody
    rw [if_neg (not_not.mpr hst), if_pos hup] at hbody
    obtain ⟨⟨ret, q⟩, hq, hq'⟩ := Option.map_eq_some_iff.mp hbody
    have hframe := uploadLoop_frame env _ _ s _ hq
    have hfields := frame_fields hframe
    have hb₁ : 13 ∉ q.1.bodyBoundary := (congrArg HeadInfo.bodyBoundary hframe) ▸ hb
    cases ret with
    | true =>
      cases hq'
      obtain ⟨hclean, hkeeps, hsame⟩ := ih (receiveLoop env _ _ s r) hb₁ (hfields.2.trans hup)
        (hfields.1.trans hst) hlater hrest
      obtain ⟨hfirst, hspent, hstep⟩ :=
        receiveLoop_ahead env _ (h := setBody h (h.requestBody ++ data)) r hb
        (hloop hst hup) hq hclean
      refine ⟨hfirst, fun _ => hkeeps hspent, hsame.trans ?_⟩
      rw [hstep, ahead_setBody, setBody_requestBody, List.append_assoc, List.flatten_cons]
    | false =>
      cases hq'
      rw [onBodies_refused env rest _ _ badRequest_status] at hrest
      cases hrest
      exact absurd hanswered badRequest_status

/-- A message of which nothing is refused, and whose last part is finished, has been read
as the parts of its text. -/
theorem receipt_read (env : Env) (chunks : List Bytes) {h h' : HeadInfo} {s s' : Store}
    (hstart : h.requestBody = [] ∧ h.curUploadFile = [] ∧ h.responseStatus = [])
    (hb : 13 ∉ h.bodyBoundary)
    (hup : isUpload h = true) (hfits : BodiesFit env chunks h s)
    (hrun : onBodies env chunks h s = some (h', s')) (hanswered : h'.responseStatus = [])
    (hfail : h'.uploadFailFiles = []) (hcur : h'.curUploadFile = []) :
    (receiveBodies env chunks h s ⟨[], true⟩).parts = partsOf h.bodyBoundary chunks.flatten := by
  obtain ⟨hbody, hnone, hst⟩ := hstart
  obtain ⟨-, hspent, hsame⟩ :=
    receiveBodies_ahead env chunks ⟨[], true⟩ hb hup hst hfits hrun hanswered hfail
  have hblank : Spent h := fun _ => nextHead_short h.bodyBoundary h.requestBody hb (by simp [hbody])
  have hrest : partsOf h'.bodyBoundary h'.requestBody = [] := by
    rw [partsOf_head, hspent hblank hcur]
  rw [ahead, if_pos hcur, hrest, List.append_nil, ahead, if_pos hnone, hbody, List.nil_append,
    List.nil_append] at hsame
  exact hsame

end CloudBackup.UploadReceipt
