import CloudBackup.Download

/-!
# Versions of a file

Downloads proceed in steps between which other connections delete and upload
files of the same name. A record stays the version a download captured even
when the name stands for another one, but the cache and the disk are asked
by name. The history kept beside the store records what was uploaded for
each record, as far as it got to the file, and how often each disk path has
been registered.
-/

set_option autoImplicit false

namespace CloudBackup.Versions
open CloudBackup.ByteStrings CloudBackup.FilePath CloudBackup.FileStore
open CloudBackup.DataManager CloudBackup.UploadScanner CloudBackup.Download
open CloudBackup.RunInvariants

/-- The upload of a connection; an append that fails is followed by `Deregister`. -/
inductive UploadState where
  | idle
  | uploading (filename : Bytes)
  | failing (filename : Bytes)
  deriving DecidableEq

def UploadState.filename : UploadState → Option Bytes
  | .idle => none
  | .uploading filename => some filename
  | .failing filename => some filename

/-- Where a download stands between two steps of its `sendFile` tasks. `reads`
holds what was read and the registrations of the path counted then. -/
inductive SendState where
  | idle
  | starts (task : SendTask)
  | misses (task : SendTask)
  | reads (task : SendTask) (content : Bytes) (round : ℕ)
  | closed
  deriving DecidableEq

def SendState.task : SendState → Option SendTask
  | .starts task => some task
  | .misses task => some task
  | .reads task _ _ => some task
  | _ => none

/-- Bytes appended to a response buffer under the header of a record. -/
structure Emission where
  node : NodeId
  offset : ℕ
  content : Bytes
  deriving DecidableEq

structure History where
  sent : Bytes → Bytes
  round : Bytes → ℕ
  content : NodeId → Bytes
  born : NodeId → ℕ
  emitted : List Emission

structure World where
  store : Store
  uploads : ℕ → UploadState
  sends : ℕ → SendState
  past : History

def setUpload (u : ℕ) (x : UploadState) (w : World) : World :=
  { w with uploads := Function.update w.uploads u x }

def setSend (d : ℕ) (x : SendState) (w : World) : World :=
  { w with sends := Function.update w.sends d x }

def setStore (s : Store) (w : World) : World := { w with store := s }

def setDisk (d : Disk) (w : World) : World := { w with store := { w.store with disk := d } }

def nodeName (w : World) (id : NodeId) : Bytes := (w.store.nodes id).info.filename

def nodePath (env : Env) (w : World) (id : NodeId) : Bytes := targetPath env (nodeName w id)

/-- Append a segment and bind the next task. -/
def emit (d : ℕ) (task : SendTask) (content : Bytes) (w : World) : World :=
  let startPos := task.startPos+content.length
  let next := if startPos < task.endPos then .starts { task with startPos := startPos } else .idle
  { setSend d next w with past :=
    { w.past with emitted := w.past.emitted ++ [⟨task.node, asSize task.startPos, content⟩] } }

def capture (d : ℕ) (h : HeadInfo) (w : World) : Option World :=
  match w.sends d, processDownloadRequest h w.store with
  | .idle, some (_, some task) => some (setSend d (.starts task) w)
  | _, _ => none

def lookupStep (d : ℕ) (w : World) : Option World :=
  match w.sends d with
  | .starts task =>
    if task.endPos ≤ task.startPos then some (setSend d .idle w)
    else
      let l := lookupPrefix task.startPos (nodeName w task.node) w.store
      let w := setStore l.2 w
      some (if l.1 ≠ [] then emit d task l.1 w else setSend d (.misses task) w)
  | _ => none

def readStep (env : Env) (d : ℕ) (w : World) : Option World :=
  match w.sends d with
  | .misses task =>
    let r := readSegment env (nodeName w task.node) task.startPos task.endPos w.store
    let path := nodePath env w task.node
    let w := setStore r.2 w
    match r.1 with
    | none => some (setSend d .closed w)
    | some content =>
      some (if task.startPos = 0 then setSend d (.reads task content (w.past.round path)) w
        else emit d task content w)
  | _ => none

def putStep (env : Env) (d : ℕ) (w : World) : Option World :=
  match w.sends d with
  | .reads task content _ =>
    let k := putFilePreContent env (nodeName w task.node) content w.store
    let w := setStore k.2 w
    some (if k.1 then emit d task content w else setSend d .closed w)
  | _ => none

def registerStep (env : Env) (u : ℕ) (filename : Bytes) (w : World) : Option World :=
  match w.uploads u with
  | .idle =>
    let r := register env filename w.store
    let path := targetPath env filename
    let round := if registrable filename w.store
      then Function.update w.past.round path (w.past.round path+1) else w.past.round
    let w := { setStore r.2 w with past := { w.past with round := round } }
    some (if r.1
      then { setUpload u (.uploading filename) w with past :=
        { w.past with sent := Function.update w.past.sent filename [] } }
      else w)
  | _ => none

def appendStep (env : Env) (u : ℕ) (buffer : Bytes) (w : World) : Option World :=
  match w.uploads u with
  | .uploading filename =>
    let a := appendContent env (targetFile env filename) buffer w.store.disk
    let written := w.store.disk.takes buffer
    let w := setDisk a.2 w
    some (if a.1
      then { w with
        past := { w.past with
          sent := Function.update w.past.sent filename (w.past.sent filename ++ written) } }
      else setUpload u (.failing filename) w)
  | _ => none

def insertStep (env : Env) (u : ℕ) (w : World) : Option World :=
  match w.uploads u with
  | .uploading filename =>
    let z := getFileSize (targetFile env filename) w.store.disk
    let i := DataManager.insert filename z.1 { w.store with disk := z.2 }
    let id := w.store.nextNode
    let past := if i.1
      then { w.past with
        content := Function.update w.past.content id (w.past.sent filename)
        born := Function.update w.past.born id (w.past.round (targetPath env filename)) }
      else w.past
    some { setUpload u .idle (setStore i.2 w) with past := past }
  | _ => none

def deregisterStep (env : Env) (u : ℕ) (w : World) : Option World :=
  (w.uploads u).filename.map fun filename =>
    setUpload u .idle (setStore (deregister env filename w.store).2 w)

/-- `clear` on the state of a message forgets the name without releasing it. -/
def forgetStep (u : ℕ) (w : World) : Option World :=
  (w.uploads u).filename.map fun _ => setUpload u .idle w

def deleteStep (env : Env) (filename : Bytes) (w : World) : Option World :=
  some (setStore (delete env filename w.store).2 w)

inductive Act where
  | capture (d : ℕ) (h : HeadInfo)
  | lookup (d : ℕ)
  | read (d : ℕ)
  | put (d : ℕ)
  | register (u : ℕ) (filename : Bytes)
  | append (u : ℕ) (buffer : Bytes)
  | insert (u : ℕ)
  | deregister (u : ℕ)
  | forget (u : ℕ)
  | delete (filename : Bytes)

def step (env : Env) (w : World) : Act → Option World
  | .capture d h => Versions.capture d h w
  | .lookup d => lookupStep d w
  | .read d => readStep env d w
  | .put d => putStep env d w
  | .register u filename => registerStep env u filename w
  | .append u buffer => appendStep env u buffer w
  | .insert u => insertStep env u w
  | .deregister u => deregisterStep env u w
  | .forget u => forgetStep u w
  | .delete filename => deleteStep env filename w

section Cases
variable {env : Env} {d u : ℕ} {w w' : World}

theorem capture_cases {h : HeadInfo} (hs : capture d h w = some w') :
    ∃ collected task, w.sends d = .idle ∧
      processDownloadRequest h w.store = some (collected, some task) ∧
      w' = setSend d (.starts task) w := by
  unfold capture at hs
  split at hs
  · rename_i collected task hd hreq
    exact ⟨collected, task, hd, hreq, (Option.some.inj hs).symm⟩
  · cases hs

theorem lookup_cases (hs : lookupStep d w = some w') :
    ∃ task, w.sends d = .starts task ∧
      ((task.endPos ≤ task.startPos ∧ w' = setSend d .idle w) ∨
        ∃ l, l = lookupPrefix task.startPos (nodeName w task.node) w.store ∧
          ((l.1 ≠ [] ∧ w' = emit d task l.1 (setStore l.2 w)) ∨
            (l.1 = [] ∧ w' = setSend d (.misses task) (setStore l.2 w)))) := by
  unfold lookupStep at hs
  split at hs
  · rename_i task hd
    refine ⟨task, hd, ?_⟩
    split_ifs at hs with hend
    · exact Or.inl ⟨hend, (Option.some.inj hs).symm⟩
    · refine Or.inr ⟨_, rfl, ?_⟩
      obtain rfl := Option.some.inj hs
      split_ifs with hhit
      · exact Or.inl ⟨hhit, rfl⟩
      · exact Or.inr ⟨not_not.mp hhit, rfl⟩
  · cases hs

theorem read_cases (hs : readStep env d w = some w') :
    ∃ task r, w.sends d = .misses task ∧
      r = readSegment env (nodeName w task.node) task.startPos task.endPos w.store ∧
      ((r.1 = none ∧ w' = setSend d .closed (setStore r.2 w)) ∨
        ∃ content, r.1 = some content ∧
          ((task.startPos = 0 ∧
              w' = setSend d (.reads task content (w.past.round (nodePath env w task.node)))
                (setStore r.2 w)) ∨
            (task.startPos ≠ 0 ∧ w' = emit d task content (setStore r.2 w)))) := by
  unfold readStep at hs
  split at hs
  · rename_i task hd
    refine ⟨task, _, hd, rfl, ?_⟩
    dsimp only at hs
    split at hs
    · rename_i hr
      exact Or.inl ⟨hr, (Option.some.inj hs).symm⟩
    · rename_i content hr
      obtain rfl := Option.some.inj hs
      refine Or.inr ⟨content, hr, ?_⟩
      split_ifs with hstart
      · exact Or.inl ⟨hstart, rfl⟩
      · exact Or.inr ⟨hstart, rfl⟩
  · cases hs

theorem put_cases (hs : putStep env d w = some w') :
    ∃ task content round k, w.sends d = .reads task content round ∧
      k = putFilePreContent env (nodeName w task.node) content w.store ∧
      (w' = emit d task content (setStore k.2 w) ∨ w' = setSend d .closed (setStore k.2 w)) := by
  unfold putStep at hs
  split at hs
  · rename_i task content round hd
    refine ⟨task, content, round, _, hd, rfl, ?_⟩
    obtain rfl := Option.some.inj hs
    split_ifs
    · exact Or.inl rfl
    · exact Or.inr rfl
  · cases hs

/-- A refused piece leaves only the release of the name to do. -/
theorem append_cases {buffer : Bytes} (hs : appendStep env u buffer w = some w') :
    ∃ filename a, w.uploads u = .uploading filename ∧
      a = appendContent env (targetFile env filename) buffer w.store.disk ∧
      ((a.1 = true ∧ w' = { setDisk a.2 w with
          past := { w.past with
            sent := Function.update w.past.sent filename
              (w.past.sent filename ++ w.store.disk.takes buffer) } }) ∨
        (a.1 = false ∧ w' = setUpload u (.failing filename) (setDisk a.2 w))) := by
  unfold appendStep at hs
  split at hs
  · rename_i filename hu
    refine ⟨filename, _, hu, rfl, ?_⟩
    obtain rfl := Option.some.inj hs
    split_ifs with ha
    · exact Or.inl ⟨ha, rfl⟩
    · exact Or.inr ⟨Bool.eq_false_of_not_eq_true ha, rfl⟩
  · cases hs

theorem register_cases {filename : Bytes} (hs : registerStep env u filename w = some w') :
    ∃ r round v, w.uploads u = .idle ∧ r = register env filename w.store ∧
      (round = if registrable filename w.store
        then Function.update w.past.round (targetPath env filename)
          (w.past.round (targetPath env filename)+1)
        else w.past.round) ∧
      v = { setStore r.2 w with past := { w.past with round := round } } ∧
      ((r.1 = true ∧ w' = { setUpload u (.uploading filename) v with past :=
          { v.past with sent := Function.update v.past.sent filename [] } }) ∨
        (r.1 = false ∧ w' = v)) := by
  unfold registerStep at hs
  split at hs
  · rename_i hu
    refine ⟨_, _, _, hu, rfl, rfl, rfl, ?_⟩
    have hw := (Option.some.inj hs).symm
    by_cases hr : (register env filename w.store).1 = true
    · exact Or.inl ⟨hr, hw.trans (if_pos hr)⟩
    · exact Or.inr ⟨Bool.eq_false_of_not_eq_true hr, hw.trans (if_neg hr)⟩
  · cases hs

end Cases

def resume (d : ℕ) (task : SendTask) (w : World) : Sent → World
  | .closes s => setSend d .closed (setStore s w)
  | .skips s => setSend d .idle (setStore s w)
  | .sends content _ s => emit d task content (setStore s w)

theorem setSend_again (d : ℕ) (x y : SendState) (s t : Store) (w : World) :
    setSend d y (setStore t (setSend d x (setStore s w))) = setSend d y (setStore t w) := by
  simp [setSend, setStore]

theorem emit_again (d : ℕ) (task : SendTask) (content : Bytes) (x : SendState) (s t : Store)
    (w : World) :
    emit d task content (setStore t (setSend d x (setStore s w))) =
      emit d task content (setStore t w) := by
  simp [emit, setSend, setStore]

section Steps
variable (env : Env) {d : ℕ} {task : SendTask} {w : World}

theorem lookup_answers (hd : w.sends d = .starts task) (h : task.endPos ≤ task.startPos ∨
    (lookupPrefix task.startPos (nodeName w task.node) w.store).1 ≠ []) :
    step env w (.lookup d) = some (resume d task w (sendFile env task w.store)) := by
  by_cases hend : task.endPos ≤ task.startPos
  · rw [sendFile, if_pos hend]
    simp only [step, lookupStep, hd]
    rw [if_pos hend]
    rfl
  · have hhit := h.resolve_left hend
    have hsend : sendFile env task w.store =
        .sends (lookupPrefix task.startPos (nodeName w task.node) w.store).1
          (task.startPos+(lookupPrefix task.startPos (nodeName w task.node) w.store).1.length)
          (lookupPrefix task.startPos (nodeName w task.node) w.store).2 := by
      rw [sendFile, if_neg hend]
      exact if_pos hhit
    rw [hsend]
    simp only [step, lookupStep, hd]
    rw [if_neg hend, if_pos hhit]
    rfl

theorem lookup_misses (hd : w.sends d = .starts task) (hend : ¬ task.endPos ≤ task.startPos)
    (hmiss : ¬ (lookupPrefix task.startPos (nodeName w task.node) w.store).1 ≠ []) :
    step env w (.lookup d) = some (setSend d (.misses task)
      (setStore (lookupPrefix task.startPos (nodeName w task.node) w.store).2 w)) := by
  simp only [step, lookupStep, hd]
  rw [if_neg hend, if_neg hmiss]

theorem sendFile_missed (hend : ¬ task.endPos ≤ task.startPos)
    (hmiss : ¬ (lookupPrefix task.startPos (nodeName w task.node) w.store).1 ≠ [])
    {r : Option Bytes × Store}
    (hr : r = readSegment env (nodeName w task.node) task.startPos task.endPos
      (lookupPrefix task.startPos (nodeName w task.node) w.store).2) :
    sendFile env task w.store = match r.1 with
      | none => .closes r.2
      | some content =>
        let k := keepPrefix env task.startPos (nodeName w task.node) content r.2
        if k.1 then .sends content (task.startPos+content.length) k.2 else .closes k.2 := by
  rw [sendFile, if_neg hend]
  dsimp only
  rw [nodeName] at hmiss hr
  rw [if_neg hmiss, hr]
  rfl

theorem read_fails (hd : w.sends d = .misses task) {r : Option Bytes × Store}
    (hr : readSegment env (nodeName w task.node) task.startPos task.endPos w.store = r)
    (hnone : r.1 = none) :
    step env w (.read d) = some (setSend d .closed (setStore r.2 w)) := by
  simp only [step, readStep, hd, hr, hnone]

theorem read_answers (hd : w.sends d = .misses task) {r : Option Bytes × Store} {content : Bytes}
    (hr : readSegment env (nodeName w task.node) task.startPos task.endPos w.store = r)
    (hsome : r.1 = some content) :
    step env w (.read d) = some (if task.startPos = 0
      then setSend d (.reads task content (w.past.round (nodePath env w task.node)))
        (setStore r.2 w)
      else emit d task content (setStore r.2 w)) := by
  simp only [step, readStep, hd, hr, hsome]
  rfl

theorem put_answers (content : Bytes) {round : ℕ} (hd : w.sends d = .reads task content round)
    {k : Bool × Store}
    (hk : putFilePreContent env (nodeName w task.node) content w.store = k) :
    step env w (.put d) =
      some (if k.1 then emit d task content (setStore k.2 w)
        else setSend d .closed (setStore k.2 w)) := by
  simp only [step, putStep, hd, hk]

theorem sendFile_steps (hd : w.sends d = .starts task) :
    ∃ n, run (step env) w ([.lookup d, .read d, .put d].take n) =
      some (resume d task w (sendFile env task w.store)) := by
  by_cases hanswers : task.endPos ≤ task.startPos ∨
      (lookupPrefix task.startPos (nodeName w task.node) w.store).1 ≠ []
  · refine ⟨1, ?_⟩
    rw [List.take, List.take, run, lookup_answers env hd hanswers]
    rfl
  obtain ⟨hend, hhit⟩ := not_or.mp hanswers
  obtain ⟨l, hl⟩ : ∃ l, l = lookupPrefix task.startPos (nodeName w task.node) w.store := ⟨_, rfl⟩
  obtain ⟨r, hr⟩ : ∃ r, r = readSegment env (nodeName w task.node) task.startPos task.endPos l.2 :=
    ⟨_, rfl⟩
  obtain ⟨v, hv⟩ : ∃ v, v = setSend d (.misses task) (setStore l.2 w) := ⟨_, rfl⟩
  have hlookup : step env w (.lookup d) = some v := by
    rw [hv, hl]
    exact lookup_misses env hd hend hhit
  have hsend := sendFile_missed env hend hhit (hl ▸ hr)
  have hmiss : v.sends d = .misses task := by simp [hv, setSend]
  have hname : nodeName v task.node = nodeName w task.node := by
    rw [hv, hl]
    exact congrArg _ ((lookupPrefix_same task.startPos _ w.store).info task.node)
  have hread : readSegment env (nodeName v task.node) task.startPos task.endPos v.store = r := by
    rw [hname, hv, hr]
    rfl
  cases hcontent : r.1 with
  | none =>
    have hclose := read_fails env hmiss hread hcontent
    refine ⟨2, ?_⟩
    simp only [List.take, run, hlookup, hclose, Option.bind_some]
    rw [hsend, hcontent, resume, hv, setSend_again]
  | some content =>
    have hanswer := read_answers env hmiss hread hcontent
    rw [hcontent] at hsend
    dsimp only at hsend
    by_cases hstart : task.startPos = 0
    · obtain ⟨u, hu⟩ : ∃ u, u =
          setSend d (.reads task content (v.past.round (nodePath env v task.node)))
            (setStore r.2 v) := ⟨_, rfl⟩
      obtain ⟨k, hk⟩ : ∃ k, k = putFilePreContent env (nodeName w task.node) content r.2 := ⟨_, rfl⟩
      have hput : putFilePreContent env (nodeName u task.node) content u.store = k := by
        have hsame : nodeName u task.node = nodeName w task.node := by
          rw [← hname, hu, ← hread]
          rfl
        rw [hsame, hu, hk]
        rfl
      have hreads : u.sends d = .reads task content (v.past.round (nodePath env v task.node)) := by
        simp [hu, setSend]
      have hlast := put_answers env content hreads hput
      rw [if_pos hstart, ← hu] at hanswer
      refine ⟨3, ?_⟩
      simp only [List.take, run, hlookup, hanswer, hlast, Option.bind_some]
      rw [keepPrefix, if_pos hstart, ← hk] at hsend
      rw [hsend]
      by_cases hdone : k.1 = true
      · rw [if_pos hdone, if_pos hdone, resume, hu, hv, emit_again, emit_again]
      · rw [if_neg hdone, if_neg hdone, resume, hu, hv, setSend_again, setSend_again]
    · rw [if_neg hstart] at hanswer
      refine ⟨2, ?_⟩
      simp only [List.take, run, hlookup, hanswer, Option.bind_some]
      rw [keepPrefix, if_neg hstart, if_pos rfl] at hsend
      rw [hsend, resume, hv, emit_again]

end Steps

end CloudBackup.Versions
