import CloudBackup.VersionCoherence

/-!
# What downloads are served

Two conditions on the steps of a run are enough for the cache, and two more
for the bodies sent under the header of a record. Without them a schedule
exists in which a deleted version is cached for its successor, and one in
which a successor is sent under the old header.
-/

set_option autoImplicit false

namespace CloudBackup.VersionServing
open CloudBackup.ByteStrings CloudBackup.FilePath CloudBackup.FileStore
open CloudBackup.DataManager CloudBackup.UploadScanner CloudBackup.Download
open CloudBackup.RunInvariants CloudBackup.Versions CloudBackup.VersionCoherence

/-- A registration takes a path of its own, and a prefix is cached for the
record whose registration was the latest one of the path when it was read. -/
def CacheSafe (env : Env) (w : World) : Act → Prop
  | .register _ filename => registrable filename w.store = true →
      ∀ other, (w.store.hash.lookup other).isSome = true →
        targetPath env other ≠ targetPath env filename
  | .put d => ∀ task content r, w.sends d = .reads task content r → ∀ id,
      validNode (nodeName w task.node) w.store = some id → id ∉ w.store.list → w.past.born id = r
  | _ => True

theorem step_coherent (env : Env) (w : World) (a : Act) (w' : World) (h : Coherent env w)
    (hc : CacheSafe env w a) (hs : step env w a = some w') : Coherent env w' := by
  cases a with
  | capture d req => exact capture_coherent h d req hs
  | lookup d => exact lookup_coherent h d hs
  | read d => exact read_coherent h d hs
  | put d => exact put_coherent h d hs hc
  | register u filename => exact register_coherent h u filename hs hc
  | append u buffer => exact append_coherent h u buffer hs
  | insert u => exact insert_coherent h u hs
  | deregister u => exact deregister_coherent h u hs
  | forget u =>
    obtain ⟨-, -, rfl⟩ := Option.map_eq_some_iff.mp hs
    exact coherent_idle h u
  | delete filename => exact delete_coherent h filename hs

/-- The server has started: every entry is a record with its file, nothing is
cached and no connection is at work. -/
structure Start (env : Env) (w : World) : Prop where
  paths : ∀ a b, (w.store.hash.lookup a).isSome = true → (w.store.hash.lookup b).isSome = true →
    targetPath env a = targetPath env b → a = b
  loaded : ∀ name v, w.store.hash.lookup name = some v → ∃ id < w.store.nextNode, v = some id ∧
    nodeName w id = name ∧ w.store.disk.files.lookup
      (targetPath env name) = some (w.past.content id)
  nodes : ∀ id < w.store.nextNode, validNode (nodeName w id) w.store = some id
  rounds : ∀ id < w.store.nextNode, w.past.born id = w.past.round (nodePath env w id)
  list : w.store.list = []
  uploads : ∀ u, w.uploads u = .idle
  sends : ∀ d, w.sends d = .idle
  emitted : w.past.emitted = []

theorem start_coherent (env : Env) (w : World) (h : Start env w) : Coherent env w where
  paths := h.paths
  valid := fun name id hid => by
    obtain ⟨i, hlt, hi, hname, hdisk⟩ := h.loaded name (some id) ((validNode_iff _ _ _).mp hid)
    cases hi
    have hb := h.rounds id hlt
    rw [nodePath, hname] at hb
    exact ⟨hname, hlt, hb, hdisk⟩
  held := fun u name hu => by
    rw [h.uploads] at hu
    cases hu
  failing := fun u name hu => by
    rw [h.uploads] at hu
    cases hu
  owner := fun u v name hu => by
    rw [h.uploads] at hu
    cases hu
  bornLe := fun i hi => (h.rounds i hi).le
  unique := fun i hi j hj hp _ => by
    have hi' := (validNode_iff _ _ _).mp (h.nodes i hi)
    have hj' := (validNode_iff _ _ _).mp (h.nodes j hj)
    have hname := h.paths _ _ (by rw [hi']; rfl) (by rw [hj']; rfl) hp
    rw [hname, hj'] at hi'
    cases hi'
    rfl
  kept := fun i hi _ F hF => by
    obtain ⟨j, hlt, hj, hname, hdisk⟩ := h.loaded _ _ ((validNode_iff _ _ _).mp (h.nodes i hi))
    cases hj
    exact Option.some.inj (hF.symm.trans hdisk)
  linked := ⟨by rw [h.list]; exact List.nodup_nil, fun id hid => by
    rw [h.list] at hid
    cases hid⟩
  cache := fun id hid => by
    rw [h.list] at hid
    cases hid
  tasks := fun d task ht => by
    rw [h.sends] at ht
    cases ht
  pending := fun d task content r hd => by
    rw [h.sends] at hd
    cases hd

/-- What is cached for a record is a prefix of what was uploaded for it, and of its file. -/
def CacheCoherent (env : Env) (w : World) : Prop :=
  ∀ id ∈ w.store.list, (w.store.nodes id).filePreContent <+: w.past.content id ∧
    w.store.disk.files.lookup (nodePath env w id) = some (w.past.content id)

theorem coherent_cache (env : Env) (w : World) (h : Coherent env w) : CacheCoherent env w :=
  fun id hid =>
  ⟨h.cache id hid, (h.valid _ id (h.linked.valid id hid)).2.2.2⟩

theorem cache_coherent (env : Env) (w : World) (acts : List Act) (hstart : Start env w)
    (hsafe : Meets (step env) (CacheSafe env) w acts) :
    Throughout (step env) (CacheCoherent env) w acts :=
  throughout_mono (coherent_cache env)
    (invariant_throughout (step_coherent env) (start_coherent env w hstart) hsafe)

/-- Besides, the cache is asked for the record that was captured, and the disk
while the latest registration of its path is that of the record. -/
def ServeSafe (env : Env) (w : World) : Act → Prop
  | .lookup d => ∀ task, w.sends d = .starts task → task.startPos = 0 → ∀ id,
      validNode (nodeName w task.node) w.store = some id → id ∈ w.store.list →
      (w.store.nodes id).filePreContent ≠ [] → id = task.node
  | .read d => ∀ task, w.sends d = .misses task →
      (w.store.disk.files.lookup (nodePath env w task.node)).isSome = true →
      w.past.born task.node = w.past.round (nodePath env w task.node)
  | a => CacheSafe env w a

def OneVersion (w : World) : Prop :=
  ∀ e ∈ w.past.emitted, e.content <+: (w.past.content e.node).drop e.offset

structure Faithful (w : World) : Prop where
  emitted : ∀ e ∈ w.past.emitted, e.node < w.store.nextNode ∧
    e.content <+: (w.past.content e.node).drop e.offset
  fresh : ∀ d task content r, w.sends d = .reads task content r →
    r = w.past.born task.node ∧ task.startPos = 0

theorem serveSafe_cacheSafe {env : Env} {w : World} {a : Act} (h : ServeSafe env w a) :
    CacheSafe env w a := by
  cases a <;> first | exact h | trivial

structure Keeps (w w' : World) : Prop where
  emitted : w'.past.emitted = w.past.emitted
  sends : w'.sends = w.sends
  next : w.store.nextNode ≤ w'.store.nextNode
  content : ∀ i < w.store.nextNode, w'.past.content i = w.past.content i
  born : ∀ i < w.store.nextNode, w'.past.born i = w.past.born i

theorem faithful_keeps {env : Env} {w w' : World} (hc : Coherent env w) (h : Faithful w)
    (hk : Keeps w w') : Faithful w' where
  emitted := fun e he => by
    rw [hk.emitted] at he
    obtain ⟨hlt, hpre⟩ := h.emitted e he
    exact ⟨hlt.trans_le hk.next, by rw [hk.content _ hlt]; exact hpre⟩
  fresh := fun d task content r hd => by
    rw [hk.sends] at hd
    rw [hk.born _ (hc.tasks d task (by rw [hd]; rfl))]
    exact h.fresh d task content r hd

theorem register_keeps (env : Env) (u : ℕ) (filename : Bytes) (w w' : World)
    (hs : registerStep env u filename w = some w') : Keeps w w' := by
  have hnext : (register env filename w.store).2.nextNode = w.store.nextNode := by
    unfold register
    dsimp only
    split_ifs <;> rfl
  obtain ⟨r, round, v, -, rfl, -, rfl, ⟨-, rfl⟩ | ⟨-, rfl⟩⟩ := register_cases hs
  · exact ⟨rfl, rfl, hnext.ge, fun _ _ => rfl, fun _ _ => rfl⟩
  · exact ⟨rfl, rfl, hnext.ge, fun _ _ => rfl, fun _ _ => rfl⟩

theorem append_keeps (env : Env) (u : ℕ) (buffer : Bytes) (w w' : World)
    (hs : appendStep env u buffer w = some w') : Keeps w w' := by
  obtain ⟨filename, a, -, -, ⟨-, rfl⟩ | ⟨-, rfl⟩⟩ := append_cases hs
  · exact ⟨rfl, rfl, le_rfl, fun _ _ => rfl, fun _ _ => rfl⟩
  · exact ⟨rfl, rfl, le_rfl, fun _ _ => rfl, fun _ _ => rfl⟩

theorem insert_keeps (env : Env) (u : ℕ) (w w' : World) (hs : insertStep env u w = some w') :
    Keeps w w' := by
  have hnext : ∀ filename z s, s.nextNode ≤ (DataManager.insert filename z s).2.nextNode := by
    intro filename z s
    unfold DataManager.insert
    split
    · exact Nat.le_succ _
    · exact le_rfl
  unfold insertStep at hs
  split at hs
  · rename_i filename _
    have hn := hnext filename (getFileSize (targetFile env filename) w.store.disk).1
      { w.store with disk := (getFileSize (targetFile env filename) w.store.disk).2 }
    obtain rfl := Option.some.inj hs
    refine ⟨?_, rfl, hn, fun i hlt => ?_, fun i hlt => ?_⟩ <;> dsimp only <;> split_ifs
    · rfl
    · rfl
    · exact Function.update_of_ne hlt.ne _ _
    · rfl
    · exact Function.update_of_ne hlt.ne _ _
    · rfl
  · cases hs

theorem delete_keeps (env : Env) (filename : Bytes) (w w' : World)
    (hs : deleteStep env filename w = some w') : Keeps w w' := by
  obtain rfl := Option.some.inj hs
  refine ⟨rfl, rfl, ?_, fun _ _ => rfl, fun _ _ => rfl⟩
  change w.store.nextNode ≤ (delete env filename w.store).2.nextNode
  unfold delete
  split
  · exact le_rfl
  · exact (listRemove_same _ w.store).next.ge

section Serve
variable {env : Env} {w w' : World} (hc : Coherent env w) (h : Faithful w)
include h

theorem faithful_wait {s : Store} (hnext : s.nextNode = w.store.nextNode) (d : ℕ) (x : SendState)
    (hx : ∀ task content r, x = .reads task content r → r = w.past.born task.node ∧
      task.startPos = 0) :
    Faithful (setSend d x (setStore s w)) where
  emitted := fun e he => ⟨(h.emitted e he).1.trans_eq hnext.symm, (h.emitted e he).2⟩
  fresh := fun d' task content r hd => by
    by_cases he : d' = d
    · subst he
      exact hx task content r (by simpa [setSend] using hd)
    · exact h.fresh d' task content r (by simpa [setSend, setStore, he] using hd)

theorem faithful_emit {s : Store} (hnext : s.nextNode = w.store.nextNode) (d : ℕ) (task : SendTask)
    (content : Bytes) (htask : task.node < w.store.nextNode)
    (hpre : content <+: (w.past.content task.node).drop (asSize task.startPos)) :
    Faithful (emit d task content (setStore s w)) where
  emitted := fun e he => by
    rcases List.mem_append.mp he with he | he
    · exact ⟨(h.emitted e he).1.trans_eq hnext.symm, (h.emitted e he).2⟩
    · rw [List.mem_singleton] at he
      subst he
      exact ⟨htask.trans_eq hnext.symm, hpre⟩
  fresh := fun d' t c r hd => by
    refine (faithful_wait h hnext d _ ?_).fresh d' t c r hd
    intro t c r e
    split_ifs at e

include hc

theorem lookup_faithful (d : ℕ) (hsafe : ServeSafe env w (.lookup d))
    (hs : lookupStep d w = some w') :
    Faithful w' := by
  obtain ⟨task, hd, hcases⟩ := lookup_cases hs
  have htask := hc.tasks d task (by rw [hd]; rfl)
  obtain ⟨-, rfl⟩ | ⟨l, rfl, hcases⟩ := hcases
  · exact faithful_wait h rfl d _ fun _ _ _ e => by cases e
  · have hnext := (lookupPrefix_same task.startPos (nodeName w task.node) w.store).next
    obtain ⟨hhit, rfl⟩ | ⟨-, rfl⟩ := hcases
    · refine faithful_emit h hnext d task _ htask ?_
      -- A hit is the prefix kept for the record that the name stands for now.
      unfold lookupPrefix at hhit ⊢
      split_ifs at hhit ⊢ with hstart
      · unfold getFilePreContent at hhit ⊢
        cases hv : validNode (nodeName w task.node) w.store with
        | none =>
          rw [hv] at hhit
          exact absurd rfl hhit
        | some id =>
          rw [hv] at hhit
          dsimp only at hhit ⊢
          by_cases hin : id ∈ w.store.list
          · rw [if_pos hin] at hhit ⊢
            have hid := hsafe task hd hstart id hv hin hhit
            rw [← hid, hstart]
            exact hc.cache id hin
          · rw [if_neg hin] at hhit
            exact absurd rfl hhit
      · exact absurd rfl hhit
    · exact faithful_wait h hnext d _ fun _ _ _ e => by cases e

theorem read_faithful (d : ℕ) (hsafe : ServeSafe env w (.read d))
    (hs : readStep env d w = some w') :
    Faithful w' := by
  obtain ⟨task, r, hd, rfl, hcases⟩ := read_cases hs
  have htask := hc.tasks d task (by rw [hd]; rfl)
  have hnext := (readSegment_view env (nodeName w task.node) task.startPos task.endPos w.store).next
  obtain ⟨-, rfl⟩ | ⟨content, hr, hcases⟩ := hcases
  · exact faithful_wait h hnext d _ fun _ _ _ e => by cases e
  · obtain ⟨F, hF, hpre⟩ := getContent_some _ _ _ _ _ hr
    have hborn := hsafe task hd (Option.isSome_iff_exists.mpr ⟨F, hF⟩)
    obtain ⟨hstart, rfl⟩ | ⟨-, rfl⟩ := hcases
    · refine faithful_wait h hnext d _ fun t c r e => ?_
      cases e
      exact ⟨hborn.symm, hstart⟩
    · refine faithful_emit h hnext d task content htask ?_
      rw [← hc.kept _ htask hborn F hF]
      exact hpre

theorem put_faithful (d : ℕ) (hs : putStep env d w = some w') : Faithful w' := by
  obtain ⟨task, content, r, k, hd, rfl, hcases⟩ := put_cases hs
  have htask := hc.tasks d task (by rw [hd]; rfl)
  have hnext := (putFilePreContent_same env (nodeName w task.node) content w.store).next
  obtain ⟨hfresh, hstart⟩ := h.fresh d task content r hd
  obtain rfl | rfl := hcases
  · refine faithful_emit h hnext d task content htask ?_
    rw [hstart]
    exact (hc.pending d task content r hd).2.1 _ htask rfl hfresh.symm
  · exact faithful_wait h hnext d _ fun _ _ _ e => by cases e

end Serve

theorem step_faithful (env : Env) (w : World) (a : Act) (w' : World) (hc : Coherent env w)
    (h : Faithful w) (hsafe : ServeSafe env w a) (hs : step env w a = some w') : Faithful w' := by
  cases a with
  | capture d req =>
    obtain ⟨_, task, -, -, rfl⟩ := capture_cases hs
    exact faithful_wait h rfl d _ fun _ _ _ e => by cases e
  | lookup d => exact lookup_faithful hc h d hsafe hs
  | read d => exact read_faithful hc h d hsafe hs
  | put d => exact put_faithful hc h d hs
  | register u filename => exact faithful_keeps hc h (register_keeps env u filename w w' hs)
  | append u buffer => exact faithful_keeps hc h (append_keeps env u buffer w w' hs)
  | insert u => exact faithful_keeps hc h (insert_keeps env u w w' hs)
  | deregister u =>
    obtain ⟨-, -, rfl⟩ := Option.map_eq_some_iff.mp hs
    exact faithful_keeps hc h ⟨rfl, rfl, le_rfl, fun _ _ => rfl, fun _ _ => rfl⟩
  | forget u =>
    obtain ⟨-, -, rfl⟩ := Option.map_eq_some_iff.mp hs
    exact faithful_keeps hc h ⟨rfl, rfl, le_rfl, fun _ _ => rfl, fun _ _ => rfl⟩
  | delete filename => exact faithful_keeps hc h (delete_keeps env filename w w' hs)

theorem start_faithful (env : Env) (w : World) (h : Start env w) : Faithful w where
  emitted := fun e he => by
    rw [h.emitted] at he
    cases he
  fresh := fun d task content r hd => by
    rw [h.sends] at hd
    cases hd

def freshWorld : World where
  store := freshStore
  uploads := fun _ => .idle
  sends := fun _ => .idle
  past := { sent := fun _ => [], round := fun _ => 0, content := fun _ => [], born := fun _ => 0,
            emitted := [] }

def downloadHead : HeadInfo :=
  { requestMethod := bytes "GET"
    requestUrl := bytes "/download/f"
    requestUrlPrefix := bytes "/download"
    requestUrlPath := bytes "/f"
    requestVersion := bytes "1.1"
    curDownloadFile := bytes "f"
    responseVersion := bytes "HTTP/1.1" }

def uploadActs (u : ℕ) (content : String) : List Act :=
  [.register u (bytes "f"), .append u (bytes content), .insert u]

theorem freshWorld_start : Start plainEnv freshWorld where
  paths := fun a b ha => absurd ha (by simp [freshWorld, freshStore, Store.fresh])
  loaded := fun name v hv => by simp [freshWorld, freshStore, Store.fresh] at hv
  nodes := fun id hlt => absurd hlt (Nat.not_lt_zero id)
  rounds := fun id hlt => absurd hlt (Nat.not_lt_zero id)
  list := rfl
  uploads := fun _ => rfl
  sends := fun _ => rfl
  emitted := rfl

/-- The file is deleted and uploaded again between the read and `PutFilePreContent`. -/
theorem stale_prefix_cached :
    Start plainEnv freshWorld ∧
    ∃ w, run (step plainEnv) freshWorld
      (uploadActs 0 "hello" ++ [.capture 0 downloadHead, .lookup 0, .read 0,
        .delete (bytes "f")] ++ uploadActs 1 "world" ++ [.put 0]) = some w ∧
      ¬ CacheCoherent plainEnv w := by
  have hrun : (run (step plainEnv) freshWorld
    (uploadActs 0 "hello" ++ [.capture 0 downloadHead, .lookup 0,
      .read 0, .delete (bytes "f")] ++ uploadActs 1 "world" ++ [.put 0])).map
        (fun w => (w.store.list, (w.store.nodes 1).filePreContent, w.past.content 1)) =
      some ([1], bytes "hello", bytes "world") := by decide +kernel
  obtain ⟨w, hw, hfields⟩ := Option.map_eq_some_iff.mp hrun
  obtain ⟨hlist, hrest⟩ := Prod.mk.inj hfields
  obtain ⟨hcached, hcontent⟩ := Prod.mk.inj hrest
  refine ⟨freshWorld_start, w, hw, fun hcoherent => ?_⟩
  have hpre := (hcoherent 1 (by rw [hlist]; exact List.mem_singleton_self 1)).1
  rw [hcached, hcontent] at hpre
  exact absurd hpre (by decide)

def downloadActs : List Act := [.capture 0 downloadHead, .lookup 0, .read 0, .put 0]

theorem download_serveSafe :
    Meets (step plainEnv) (ServeSafe plainEnv) freshWorld
      (uploadActs 0 "hello" ++ downloadActs) := by
  intro w₁ h₁
  refine ⟨fun _ other ho => absurd ho (by simp [freshWorld, freshStore, Store.fresh]), ?_⟩
  obtain rfl := Option.some.inj h₁
  intro w₂ h₂
  obtain rfl := Option.some.inj h₂
  refine ⟨trivial, fun w₃ h₃ => ?_⟩
  obtain rfl := Option.some.inj h₃
  refine ⟨trivial, fun w₄ h₄ => ?_⟩
  obtain rfl := Option.some.inj h₄
  refine ⟨trivial, fun w₅ h₅ => ⟨fun task _ _ id _ hid => ?_, ?_⟩⟩
  · exact absurd (show id ∈ [] from hid) List.not_mem_nil
  obtain rfl := Option.some.inj h₅
  intro w₆ h₆
  refine ⟨fun task hd _ => ?_, ?_⟩
  · have hd : SendState.misses ⟨0, 0, 5⟩ = .misses task := hd
    cases hd
    rfl
  obtain rfl := Option.some.inj h₆
  refine fun w₇ h₇ => ⟨fun task content r hd id hv _ => ?_, trivial⟩
  have hd : SendState.reads ⟨0, 0, 5⟩ (bytes "hello") 1 = .reads task content r := hd
  cases hd
  have hv : some 0 = some id := hv
  cases hv
  rfl

theorem cache_coherent_download :
    Throughout (step plainEnv) (CacheCoherent plainEnv) freshWorld
      (uploadActs 0 "hello" ++ downloadActs) :=
  cache_coherent plainEnv freshWorld _ freshWorld_start
    (meets_mono (fun _ _ h => serveSafe_cacheSafe h) download_serveSafe)

end CloudBackup.VersionServing
