import CloudBackup.Download

/-!
# A download goes on

A run of `sendFile` that has not reached the end of its range binds the next
one. It is further on by what the cache or the file gave, and a file that ends
before the position gives nothing without that being an error. Between the
steps of a run, and between runs, others may change anything.
-/

set_option autoImplicit false

namespace CloudBackup.DownloadProgress
open CloudBackup.PatternSearch CloudBackup.ByteStrings CloudBackup.FilePath
open CloudBackup.FileStore CloudBackup.DataManager CloudBackup.Download

structure View where
  looked : Store
  read : Store
  kept : Store

def sendAmid (env : Env) (task : SendTask) (v : View) : Sent :=
  if task.endPos ≤ task.startPos then .skips v.looked
  else
    let filename := (v.looked.nodes task.node).info.filename
    let l := lookupPrefix task.startPos filename v.looked
    if l.1 ≠ [] then .sends l.1 (task.startPos+l.1.length) l.2
    else
      let r := readSegment env filename task.startPos task.endPos v.read
      match r.1 with
      | none => .closes r.2
      | some content =>
        let k := keepPrefix env task.startPos filename content v.kept
        if k.1 then .sends content (task.startPos+content.length) k.2 else .closes k.2

/-- The steps of a run that nothing comes between. -/
def alone (env : Env) (task : SendTask) (s : Store) : View :=
  let filename := (s.nodes task.node).info.filename
  let l := lookupPrefix task.startPos filename s
  ⟨s, l.2, (readSegment env filename task.startPos task.endPos l.2).2⟩

theorem sendFile_amid (env : Env) (task : SendTask) (s : Store) :
    sendFile env task s = sendAmid env task (alone env task s) := rfl

def rescheduled (task : SendTask) : Sent → Option SendTask
  | .sends _ startPos _ => if startPos < task.endPos then
      some { task with startPos := startPos } else none
  | _ => none

def chain (env : Env) (task : SendTask) (views : ℕ → View) : ℕ → Option SendTask
  | 0 => some task
  | n+1 => (chain env task views n).bind fun t => rescheduled t (sendAmid env t (views n))

def Advances (task : SendTask) (sent : Sent) : Prop :=
  ∀ next, rescheduled task sent = some next →
    task.startPos < next.startPos ∧ next.startPos ≤ next.endPos ∧ next.endPos = task.endPos

/-- Nothing is cached for the start of the file, and the file can be read but
ends before the position. -/
structure Stalls (env : Env) (task : SendTask) (v : View) : Prop where
  more : task.startPos < task.endPos
  cold : task.startPos = 0 → ∀ id,
    validNode (v.looked.nodes task.node).info.filename v.looked = some id →
    id ∈ v.looked.list → (v.looked.nodes id).filePreContent = []
  opens : v.read.disk.next.1 = none
  short : ∃ F, v.read.disk.files.lookup
    (targetPath env (v.looked.nodes task.node).info.filename) = some F ∧
    F.length ≤ asSize task.startPos
  known : task.startPos = 0 → ∃ id,
    validNode (v.looked.nodes task.node).info.filename v.kept = some id

theorem lookupPrefix_empty (startPos : ℤ) (filename : Bytes) (s : Store) :
    (lookupPrefix startPos filename s).1 = [] ↔
      (startPos = 0 → ∀ id, validNode filename s = some id →
      id ∈ s.list → (s.nodes id).filePreContent = []) := by
  unfold lookupPrefix getFilePreContent
  by_cases h0 : startPos = 0
  · rw [if_pos h0]
    cases hid : validNode filename s with
    | none => simp
    | some id => by_cases hmem : id ∈ s.list <;> simp [h0, hmem]
  · simp [h0]

theorem keepPrefix_kept (env : Env) (startPos : ℤ) (filename content : Bytes) (s : Store) :
    (keepPrefix env startPos filename content s).1 = true ↔
      (startPos = 0 → ∃ id, validNode filename s = some id) := by
  unfold keepPrefix putFilePreContent
  by_cases h0 : startPos = 0
  · rw [if_pos h0]
    cases validNode filename s with
    | none => simp [h0]
    | some id => by_cases hmem : id ∈ s.list <;> simp [hmem]
  · simp [h0]

/-- A read gives nothing only behind the end of the file. -/
theorem readSegment_empty (env : Env) (filename : Bytes) (startPos endPos : ℤ) (s : Store)
    (hread : 0 < env.maxFileReadSize ∧ env.maxFileReadSize < 2^63) (hlt : startPos < endPos) :
    (readSegment env filename startPos endPos s).1 = some [] ↔ s.disk.next.1 = none ∧
      ∃ F, s.disk.files.lookup (targetPath env filename) = some F ∧ F.length ≤ asSize startPos := by
  have hsize : 0 < asSize (readSize env startPos endPos) := by
    unfold asSize readSize
    omega
  simp only [readSegment, getContent, targetPath]
  cases s.disk.next.1 with
  | some n => simp
  | none =>
    cases s.disk.files.lookup (cstr (targetFile env filename)) with
    | none => simp
    | some F =>
      by_cases hle : F.length ≤ asSize startPos
      · simp [hle]
      · have htake : (F.drop (asSize startPos)).take
          (asSize (readSize env startPos endPos)) ≠ [] := by
          rw [← List.length_pos_iff, List.length_take, List.length_drop]
          omega
        simp only [hle, if_false, Option.some.injEq, htake, true_and, exists_eq_left']

section Run
variable {env : Env} (hread : 0 < env.maxFileReadSize ∧ env.maxFileReadSize < 2^63)
  {task : SendTask} {v : View}
include hread

theorem stalls_sends (h : Stalls env task v) :
    ∃ t, sendAmid env task v = .sends [] task.startPos t := by
  have hcold := (lookupPrefix_empty task.startPos _ v.looked).mpr h.cold
  have hempty := (readSegment_empty env _ task.startPos task.endPos v.read hread h.more).mpr
    ⟨h.opens, h.short⟩
  have hkept := (keepPrefix_kept env task.startPos _ [] v.kept).mpr h.known
  refine ⟨(keepPrefix env task.startPos (v.looked.nodes task.node).info.filename [] v.kept).2, ?_⟩
  unfold sendAmid
  simp only [not_le.mpr h.more, if_false, hcold, ne_eq, not_true_eq_false, hempty, hkept, if_true,
    List.length_nil, Nat.cast_zero, add_zero]

theorem sendAmid_sends {content : Bytes} {startPos : ℤ} {t : Store}
    (h : sendAmid env task v = .sends content startPos t) :
    startPos = task.startPos+content.length ∧ (content = [] → Stalls env task v) := by
  unfold sendAmid at h
  by_cases hend : task.endPos ≤ task.startPos
  · rw [if_pos hend] at h
    cases h
  · rw [if_neg hend] at h
    dsimp only at h
    by_cases hcold :
        (lookupPrefix task.startPos (v.looked.nodes task.node).info.filename v.looked).1 = []
    · rw [if_neg (not_not.mpr hcold)] at h
      cases hr : (readSegment env (v.looked.nodes task.node).info.filename task.startPos
        task.endPos v.read).1 with
      | none =>
        rw [hr] at h
        cases h
      | some found =>
        rw [hr] at h
        dsimp only at h
        split_ifs at h with hkept
        cases h
        refine ⟨rfl, fun hnil => ?_⟩
        rw [hnil] at hr
        have hlt := not_le.mp hend
        obtain ⟨hopens, hshort⟩ := (readSegment_empty env _ _ _ _ hread hlt).mp hr
        exact ⟨hlt, (lookupPrefix_empty _ _ _).mp hcold, hopens, hshort,
          (keepPrefix_kept _ _ _ _ _).mp hkept⟩
    · rw [if_pos hcold] at h
      cases h
      exact ⟨rfl, fun hnil => absurd hnil hcold⟩

theorem advances_iff : Advances task (sendAmid env task v) ↔ ¬ Stalls env task v := by
  constructor
  · intro hadv hstall
    obtain ⟨t, ht⟩ := stalls_sends hread hstall
    have hnext : rescheduled task (sendAmid env task v) = some task := by
      rw [ht, rescheduled, if_pos hstall.more]
    exact absurd (hadv task hnext).1 (lt_irrefl _)
  · intro hnot next hnext
    cases hsent : sendAmid env task v with
    | closes t =>
      rw [hsent] at hnext
      cases hnext
    | skips t =>
      rw [hsent] at hnext
      cases hnext
    | sends content startPos t =>
      obtain ⟨hpos, hempty⟩ := sendAmid_sends hread hsent
      have hsome : 0 < content.length := List.length_pos_iff.mpr fun hnil => hnot (hempty hnil)
      rw [hsent, rescheduled] at hnext
      split_ifs at hnext with hlt
      cases hnext
      exact ⟨by dsimp only; omega, hlt.le, rfl⟩

end Run

theorem chain_further {env : Env} {task : SendTask} {views : ℕ → View}
    (hadv : ∀ n t, chain env task views n = some t → Advances t (sendAmid env t (views n))) (n : ℕ)
    {t : SendTask}
    (ht : chain env task views n = some t) :
    task.startPos+n ≤ t.startPos ∧ t.endPos = task.endPos ∧ (0 < n → t.startPos ≤ t.endPos) := by
  induction n generalizing t with
  | zero =>
    cases ht
    simp
  | succ n ih =>
    obtain ⟨u, hu, hnext⟩ := Option.bind_eq_some_iff.mp ht
    obtain ⟨hfurther, hend, -⟩ := ih hu
    obtain ⟨hlt, hle, hsame⟩ := hadv n u hu t hnext
    refine ⟨?_, hsame.trans hend, fun _ => hle⟩
    push_cast
    omega

theorem chain_bounded {env : Env} {task : SendTask} {views : ℕ → View}
    (hadv : ∀ n t, chain env task views n = some t → Advances t (sendAmid env t (views n))) (n : ℕ)
    (hn : (chain env task views n).isSome = true) : n ≤ (task.endPos-task.startPos).toNat := by
  obtain ⟨t, ht⟩ := Option.isSome_iff_exists.mp hn
  obtain ⟨hfurther, hend, hle⟩ := chain_further hadv n ht
  by_cases h0 : n = 0
  · omega
  · have := hle (Nat.pos_of_ne_zero h0)
    omega

/-- Every run of a chain gets further exactly when none of them stalls, and then the chain is
no longer than its range. -/
theorem download_ends (env : Env) (hread : 0 < env.maxFileReadSize ∧ env.maxFileReadSize < 2^63)
    (task : SendTask) (views : ℕ → View) :
    ((∀ n t, chain env task views n = some t → Advances t (sendAmid env t (views n))) ∧
      ∀ n, (chain env task views n).isSome = true → n ≤ (task.endPos-task.startPos).toNat) ↔
    ∀ n t, chain env task views n = some t → ¬ Stalls env t (views n) := by
  constructor
  · intro h n t ht
    exact (advances_iff hread).mp (h.1 n t ht)
  · intro h
    have hadv : ∀ n t, chain env task views n = some t → Advances t (sendAmid env t (views n)) :=
      fun n t ht => (advances_iff hread).mpr (h n t ht)
    exact ⟨hadv, chain_bounded hadv⟩

theorem download_ends_hello :
    ((∀ n t, chain plainEnv ⟨0, 0, 5⟩ (fun _ => alone plainEnv ⟨0, 0, 5⟩ helloStore) n = some t →
        Advances t (sendAmid plainEnv t (alone plainEnv ⟨0, 0, 5⟩ helloStore))) ∧
      ∀ n, (chain plainEnv ⟨0, 0, 5⟩ (fun _ => alone plainEnv ⟨0, 0, 5⟩ helloStore) n).isSome =
        true → n ≤ 5) ↔
    ∀ n t, chain plainEnv ⟨0, 0, 5⟩ (fun _ => alone plainEnv ⟨0, 0, 5⟩ helloStore) n = some t →
      ¬ Stalls plainEnv t (alone plainEnv ⟨0, 0, 5⟩ helloStore) :=
  download_ends plainEnv (by decide) ⟨0, 0, 5⟩ fun _ => alone plainEnv ⟨0, 0, 5⟩ helloStore

/-- The file is deleted and its upload begins again while bytes 2 to 4 are being sent. -/
def reuploading : Store :=
  (register plainEnv (bytes "f") (delete plainEnv (bytes "f") helloStore).2).2

/-- Every further run sends nothing and binds the same task again. -/
theorem download_stuck :
    ¬ Advances ⟨0, 2, 5⟩ (sendAmid plainEnv ⟨0, 2, 5⟩ (alone plainEnv ⟨0, 2, 5⟩ reuploading)) ∧
    ∀ n, chain plainEnv ⟨0, 2, 5⟩ (fun _ => alone plainEnv ⟨0, 2, 5⟩ reuploading)
      n = some ⟨0, 2, 5⟩ := by
  have hstep : rescheduled ⟨0, 2, 5⟩
    (sendAmid plainEnv ⟨0, 2, 5⟩ (alone plainEnv ⟨0, 2, 5⟩ reuploading)) =
      some ⟨0, 2, 5⟩ := by
    decide +kernel
  constructor
  · intro hadvances
    exact absurd (hadvances _ hstep).1 (lt_irrefl _)
  · intro n
    induction n with
    | zero => rfl
    | succ n ih =>
      rw [chain, ih]
      exact hstep

end CloudBackup.DownloadProgress
