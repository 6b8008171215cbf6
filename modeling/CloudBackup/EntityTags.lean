import CloudBackup.RangeRequests
import CloudBackup.VersionServing

/-!
# What an entity tag tells apart

The tag of a version is made of its name, the second of its `Insert` and its
size. A name can be uploaded, deleted and uploaded again within one second,
and the tags of the two versions are then those of their sizes. A client that
resumes a download by its tag puts bytes together that were sent under equal
tags.
-/

set_option autoImplicit false

namespace CloudBackup.EntityTags
open CloudBackup.PatternSearch CloudBackup.ByteStrings CloudBackup.FilePath CloudBackup.FileStore
open CloudBackup.DataManager CloudBackup.UploadScanner CloudBackup.Download
  CloudBackup.RunInvariants
open CloudBackup.PipeMessages CloudBackup.RangeRequests CloudBackup.Versions
open CloudBackup.VersionCoherence CloudBackup.VersionServing

def tag (w : World) (id : NodeId) : Bytes := etag (w.store.nodes id).info

/-- Versions of one name with equal tags were uploaded with the same content. -/
def Tagged (w : World) : Prop :=
  ∀ i < w.store.nextNode, ∀ j < w.store.nextNode, nodeName w i = nodeName w j → tag w i = tag w j →
    w.past.content i = w.past.content j

/-- The bytes that were sent of a version, and those sent to a request behind them whose `If-Range`
is the tag of that version, are bytes of one content. -/
def Resumes (w : World) : Prop :=
  ∀ e ∈ w.past.emitted, ∀ e' ∈ w.past.emitted, nodeName w e.node = nodeName w e'.node →
    ∀ range, ifRangeMatches (w.store.nodes e'.node).info (tag w e.node) range →
    e.content <+: (w.past.content e.node).drop e.offset ∧
    e'.content <+: (w.past.content e.node).drop e'.offset

structure Continues (w : World) : Prop where
  tagged : Tagged w
  resumes : Resumes w

/-- A version is not inserted in the second of an earlier one of its name that has the same
size and other content. -/
def Renewed (env : Env) (w : World) : Act → Prop
  | .insert u => ∀ filename, w.uploads u = .uploading filename →
      w.store.hash.lookup filename = some none →
      ∀ i < w.store.nextNode, nodeName w i = filename →
        (w.store.nodes i).info.time = w.store.clock 0 →
        (w.store.nodes i).info.size = (getFileSize (targetFile env filename) w.store.disk).1 →
        w.past.content i = w.past.sent filename
  | _ => True

theorem tagged_resumes {w : World} (h : Tagged w) (hf : Faithful w) : Resumes w := by
  intro e he e' he' hname range hmatch
  obtain ⟨hlt, hfirst⟩ := hf.emitted e he
  obtain ⟨hlt', hsecond⟩ := hf.emitted e' he'
  refine ⟨hfirst, ?_⟩
  rw [h e.node hlt e'.node hlt' hname hmatch.1]
  exact hsecond

theorem dash_split {s t x y : Bytes} (hs : 45 ∉ s) (ht : 45 ∉ t) (h : s ++ 45::x = t ++ 45::y) :
    s = t ∧ x = y := by
  have hfirst := find_after_clean 45 [] s x hs
  have hsecond := find_after_clean 45 [] t y ht
  rw [show s ++ ([45] ++ x) = t ++ ([45] ++ y) from h, hsecond] at hfirst
  have hlen : s.length = t.length := (Option.some.inj hfirst).symm
  obtain ⟨hst, hrest⟩ := List.append_inj h hlen
  exact ⟨hst, (List.cons.inj hrest).2⟩

theorem toDecimal_negative {n : ℤ} (hn : n < 0) : toDecimal n = 45::toDecimal (n.natAbs : ℤ) := by
  rw [toDecimal_nat, toDecimal, if_pos hn]
  rfl

theorem toDecimal_positive {n : ℤ} (hn : 0 ≤ n) : toDecimal n = toDecimal (n.natAbs : ℤ) := by
  rw [Int.natAbs_of_nonneg hn]

theorem decimal_digits (n : ℕ) : 45 ∉ toDecimal n := toDecimal_free n 45 (by decide)

theorem toDecimal_inj {m n : ℕ} (h : toDecimal m = toDecimal n) : m = n := by
  rw [← digits_toDecimal m, h, digits_toDecimal]

theorem decimal_dash {a b : ℤ} {x y : Bytes} (h : toDecimal a ++ 45::x = toDecimal b ++ 45::y) :
    a = b ∧ x = y := by
  have hsign : ∀ {m n : ℕ} {u v : Bytes}, toDecimal m ++ 45::u ≠ 45::(toDecimal n ++ 45::v) := by
    intro m n u v heq
    cases hm : toDecimal m with
    | nil => exact toDecimal_ne_nil m hm
    | cons c cs =>
      rw [hm] at heq
      have hc : c = 45 := (List.cons.inj heq).1
      exact decimal_digits m (by rw [hm, hc]; exact List.mem_cons_self)
  by_cases ha : a < 0
  · by_cases hb : b < 0
    · rw [toDecimal_negative ha, toDecimal_negative hb] at h
      obtain ⟨hdigits, hrest⟩ :=
        dash_split (decimal_digits _) (decimal_digits _) (List.cons.inj h).2
      have := toDecimal_inj hdigits
      exact ⟨by omega, hrest⟩
    · rw [toDecimal_negative ha, toDecimal_positive (not_lt.mp hb)] at h
      exact absurd h.symm hsign
  · by_cases hb : b < 0
    · rw [toDecimal_positive (not_lt.mp ha), toDecimal_negative hb] at h
      exact absurd h hsign
    · rw [toDecimal_positive (not_lt.mp ha), toDecimal_positive (not_lt.mp hb)] at h
      obtain ⟨hdigits, hrest⟩ := dash_split (decimal_digits _) (decimal_digits _) h
      have := toDecimal_inj hdigits
      exact ⟨by omega, hrest⟩

theorem etag_iff {i j : BackupInfoNode} (hname : i.filename = j.filename) :
    etag i = etag j ↔ i.time = j.time ∧ i.size = j.size := by
  have hparts : ∀ k : BackupInfoNode, etag k =
    k.filename ++ 45::(toDecimal k.time ++ 45::toDecimal k.size) := by
    intro k
    simp [etag, bytes]
  constructor
  · intro h
    rw [hparts, hparts, hname] at h
    obtain ⟨htime, hrest⟩ := decimal_dash (List.cons.inj (List.append_cancel_left h)).2
    have hsize := decimal_dash (x := []) (y := []) (congrArg (· ++ [45]) hrest)
    exact ⟨htime, hsize.1⟩
  · rintro ⟨htime, hsize⟩
    rw [hparts, hparts, hname, htime, hsize]

structure SameVersions (w w' : World) : Prop where
  next : w'.store.nextNode = w.store.nextNode
  info : ∀ i, (w'.store.nodes i).info = (w.store.nodes i).info
  content : w'.past.content = w.past.content

theorem tagged_same {w w' : World} (hs : SameVersions w w') (h : Tagged w) : Tagged w' := by
  intro i hi j hj hname htag
  rw [hs.next] at hi hj
  rw [nodeName, nodeName, hs.info, hs.info] at hname
  rw [tag, tag, hs.info, hs.info] at htag
  rw [hs.content]
  exact h i hi j hj hname htag

theorem same_emit (d : ℕ) (task : SendTask) (content : Bytes) {w w' : World}
    (h : SameVersions w w') :
    SameVersions w (emit d task content w') := ⟨h.next, h.info, h.content⟩

theorem same_records {w : World} {t : Store} (h : SameRecords w.store t) :
    SameVersions w (setStore t w) :=
  ⟨h.next, h.info, rfl⟩

theorem lookup_same {d : ℕ} {w w' : World} (hs : lookupStep d w = some w') : SameVersions w w' := by
  obtain ⟨task, -, ⟨-, rfl⟩ | ⟨l, rfl, hcases⟩⟩ := lookup_cases hs
  · exact ⟨rfl, fun _ => rfl, rfl⟩
  · have hlooked := same_records (lookupPrefix_same task.startPos (nodeName w task.node) w.store)
    obtain ⟨-, rfl⟩ | ⟨-, rfl⟩ := hcases
    · exact same_emit d task _ hlooked
    · exact ⟨hlooked.next, hlooked.info, hlooked.content⟩

theorem read_same {env : Env} {d : ℕ} {w w' : World} (hs : readStep env d w = some w') :
    SameVersions w w' := by
  obtain ⟨task, r, -, rfl, ⟨-, rfl⟩ | ⟨content, -, ⟨-, rfl⟩ | ⟨-, rfl⟩⟩⟩ := read_cases hs
  · exact ⟨rfl, fun _ => rfl, rfl⟩
  · exact ⟨rfl, fun _ => rfl, rfl⟩
  · exact ⟨rfl, fun _ => rfl, rfl⟩

theorem put_same {env : Env} {d : ℕ} {w w' : World} (hs : putStep env d w = some w') :
    SameVersions w w' := by
  obtain ⟨task, content, round, k, -, rfl, hcases⟩ := put_cases hs
  have hput := same_records (putFilePreContent_same env (nodeName w task.node) content w.store)
  obtain rfl | rfl := hcases
  · exact same_emit d task content hput
  · exact ⟨hput.next, hput.info, hput.content⟩

theorem register_same {env : Env} {u : ℕ} {filename : Bytes} {w w' : World}
    (hs : registerStep env u filename w = some w') : SameVersions w w' := by
  obtain ⟨hnodes, hnext⟩ := register_nodes env filename w.store
  have hinfo : ∀ i, ((register env filename w.store).2.nodes i).info = (w.store.nodes i).info :=
    fun i => by rw [hnodes]
  obtain ⟨r, round, v, -, rfl, -, rfl, ⟨-, rfl⟩ | ⟨-, rfl⟩⟩ := register_cases hs
  · exact ⟨hnext, hinfo, rfl⟩
  · exact ⟨hnext, hinfo, rfl⟩

theorem append_same {env : Env} {u : ℕ} {buffer : Bytes} {w w' : World}
    (hs : appendStep env u buffer w = some w') :
    SameVersions w w' := by
  obtain ⟨filename, a, -, -, ⟨-, rfl⟩ | ⟨-, rfl⟩⟩ := append_cases hs
  · exact ⟨rfl, fun _ => rfl, rfl⟩
  · exact ⟨rfl, fun _ => rfl, rfl⟩

theorem delete_same {env : Env} {filename : Bytes} {w w' : World}
    (hs : deleteStep env filename w = some w') :
    SameVersions w w' := by
  obtain rfl := Option.some.inj hs
  unfold setStore delete
  cases hid : validNode filename w.store with
  | none => exact ⟨rfl, fun _ => rfl, rfl⟩
  | some id =>
    have hlist := listRemove_same id w.store
    exact ⟨hlist.next, hlist.info, rfl⟩

theorem step_same {env : Env} {w w' : World} {a : Act} (hs : step env w a = some w')
    (hno : ∀ u, a ≠ .insert u) :
    SameVersions w w' := by
  cases a with
  | capture d h =>
    obtain ⟨_, task, -, -, rfl⟩ := capture_cases hs
    exact ⟨rfl, fun _ => rfl, rfl⟩
  | lookup d => exact lookup_same hs
  | read d => exact read_same hs
  | put d => exact put_same hs
  | register u filename => exact register_same hs
  | append u buffer => exact append_same hs
  | insert u => exact absurd rfl (hno u)
  | deregister u =>
    obtain ⟨filename, -, rfl⟩ := Option.map_eq_some_iff.mp hs
    exact ⟨rfl, fun _ => rfl, rfl⟩
  | forget u =>
    obtain ⟨filename, -, rfl⟩ := Option.map_eq_some_iff.mp hs
    exact ⟨rfl, fun _ => rfl, rfl⟩
  | delete filename => exact delete_same hs

structure NewVersion (env : Env) (filename : Bytes) (w w' : World) : Prop where
  next : w'.store.nextNode = w.store.nextNode+1
  old : ∀ i < w.store.nextNode, (w'.store.nodes i).info = (w.store.nodes i).info ∧
    w'.past.content i = w.past.content i
  info : (w'.store.nodes w.store.nextNode).info =
    { filename := filename, size := (getFileSize (targetFile env filename) w.store.disk).1,
      time := w.store.clock 0 }
  content : w'.past.content w.store.nextNode = w.past.sent filename

theorem insert_makes {env : Env} {u : ℕ} {w w' : World} (hs : step env w (.insert u) = some w') :
    SameVersions w w' ∨ ∃ filename, w.uploads u = .uploading filename ∧
      w.store.hash.lookup filename = some none ∧ NewVersion env filename w w' := by
  have hs : insertStep env u w = some w' := hs
  unfold insertStep at hs
  split at hs
  · rename_i filename hu
    obtain ⟨z, hz⟩ : ∃ z, z = getFileSize (targetFile env filename) w.store.disk := ⟨_, rfl⟩
    rw [← hz] at hs
    by_cases hres : w.store.hash.lookup filename = some none
    · have hcall := insert_reserved filename z.1 { w.store with disk := z.2 } hres
      dsimp only at hs
      rw [hcall] at hs
      obtain rfl := Option.some.inj hs
      refine Or.inr ⟨filename, hu, hres, rfl, fun i hi => ?_, ?_, ?_⟩
      · have hold : ∀ (f : NodeId → DataManagerNode) x,
          Function.update f w.store.nextNode x i = f i :=
          fun f x => Function.update_of_ne hi.ne _ _
        exact ⟨congrArg DataManagerNode.info (hold _ _), Function.update_of_ne hi.ne _ _⟩
      · rw [← hz]
        simp [setStore, setUpload, newNode]
      · exact Function.update_self _ _ _
    · have hcall := insert_refused filename z.1 { w.store with disk := z.2 } hres
      dsimp only at hs
      rw [hcall] at hs
      obtain rfl := Option.some.inj hs
      exact Or.inl ⟨rfl, fun _ => rfl, rfl⟩
  · cases hs

section New
variable {env : Env} {filename : Bytes} {w w' : World} (hv : NewVersion env filename w w')
include hv

theorem new_tag {i : NodeId} (hi : i < w.store.nextNode) (hname : nodeName w i = filename) :
    tag w' w.store.nextNode = tag w' i ↔ (w.store.nodes i).info.time = w.store.clock 0 ∧
      (w.store.nodes i).info.size = (getFileSize (targetFile env filename) w.store.disk).1 := by
  rw [tag, tag, (hv.old i hi).1, hv.info, etag_iff hname.symm]
  exact and_congr eq_comm eq_comm

theorem new_tagged (h : Tagged w) : Tagged w' ↔ ∀ i < w.store.nextNode, nodeName w i = filename →
    (w.store.nodes i).info.time = w.store.clock 0 →
    (w.store.nodes i).info.size = (getFileSize (targetFile env filename) w.store.disk).1 →
    w.past.content i = w.past.sent filename := by
  have hnew : nodeName w' w.store.nextNode = filename := by rw [nodeName, hv.info]
  have hold : ∀ i < w.store.nextNode, nodeName w' i = nodeName w i := fun i hi => by
    rw [nodeName, nodeName, (hv.old i hi).1]
  have hcases : ∀ i < w'.store.nextNode, i < w.store.nextNode ∨ i = w.store.nextNode :=
    fun i hi => by
    rw [hv.next] at hi
    exact Nat.lt_succ_iff_lt_or_eq.mp hi
  constructor
  · intro htagged i hi hname htime hsize
    have hlt : i < w'.store.nextNode := hv.next ▸ Nat.lt_succ_of_lt hi
    have hlast : w.store.nextNode < w'.store.nextNode := hv.next ▸ Nat.lt_succ_self _
    have hsame := htagged w.store.nextNode hlast i hlt (by rw [hnew, hold i hi, hname])
      ((new_tag hv hi hname).mpr ⟨htime, hsize⟩)
    rw [hv.content, (hv.old i hi).2] at hsame
    exact hsame.symm
  · intro hdiffer i hi j hj hname htag
    cases hcases i hi with
    | inl hi' =>
      cases hcases j hj with
      | inl hj' =>
        rw [hold i hi', hold j hj'] at hname
        rw [tag, tag, (hv.old i hi').1, (hv.old j hj').1] at htag
        rw [(hv.old i hi').2, (hv.old j hj').2]
        exact h i hi' j hj' hname htag
      | inr hj' =>
        subst hj'
        rw [hnew, hold i hi'] at hname
        obtain ⟨htime, hsize⟩ := (new_tag hv hi' hname).mp htag.symm
        rw [hv.content, (hv.old i hi').2]
        exact hdiffer i hi' hname htime hsize
    | inr hi' =>
      subst hi'
      cases hcases j hj with
      | inl hj' =>
        rw [hnew, hold j hj'] at hname
        obtain ⟨htime, hsize⟩ := (new_tag hv hj' hname.symm).mp htag
        rw [hv.content, (hv.old j hj').2]
        exact (hdiffer j hj' hname.symm htime hsize).symm
      | inr hj' => rw [hj']

end New

theorem renewed_keeps (env : Env) (w : World) (a : Act) (w' : World) (h : Tagged w)
    (hc : Renewed env w a)
    (hs : step env w a = some w') : Tagged w' := by
  by_cases ha : ∃ u, a = .insert u
  · obtain ⟨u, rfl⟩ := ha
    cases insert_makes hs with
    | inl hsame => exact tagged_same hsame h
    | inr hmakes =>
      obtain ⟨filename, hu, hres, hv⟩ := hmakes
      exact (new_tagged hv h).mpr (hc filename hu hres)
  · exact tagged_same (step_same hs fun u he => ha ⟨u, he⟩) h

theorem unrenewed_breaks (env : Env) (w : World) (a : Act) (w' : World) (h : Tagged w)
    (hc : ¬ Renewed env w a)
    (hs : step env w a = some w') : ¬ Tagged w' := by
  cases a with
  | insert u =>
    simp only [Renewed, not_forall] at hc
    obtain ⟨filename, hu, hres, i, hi, hname, htime, hsize, hother⟩ := hc
    have hmakes : NewVersion env filename w w' := by
      cases insert_makes hs with
      | inl hsame =>
        have hs : insertStep env u w = some w' := hs
        have hcall := insert_reserved filename
          (getFileSize (targetFile env filename) w.store.disk).1
          { w.store with disk := (getFileSize (targetFile env filename) w.store.disk).2 } hres
        simp only [insertStep, hu, hcall] at hs
        obtain rfl := Option.some.inj hs
        exact absurd hsame.next (Nat.succ_ne_self w.store.nextNode)
      | inr hmakes =>
        obtain ⟨other, hu', -, hv⟩ := hmakes
        rw [hu] at hu'
        cases hu'
        exact hv
    intro htagged
    exact hother ((new_tagged hmakes h).mp htagged i hi hname htime hsize)
  | capture | lookup | read | put | register | append | deregister | forget | delete =>
    exact absurd trivial hc

theorem start_tagged {env : Env} {w : World} (h : Start env w) : Tagged w := by
  intro i hi j hj hname _
  have hsame := h.nodes i hi
  rw [hname, h.nodes j hj] at hsame
  rw [Option.some.inj hsame]

/-- Equal tags mean equal contents throughout a run exactly when every `Insert` of a name falls in
another second than those before it, has another size or the same content; and where besides
every download is served from its own version, what was sent under equal tags can be put together.
-/
theorem tags_tell (env : Env) (w : World) (acts : List Act) (hstart : Start env w) :
    (Throughout (step env) Tagged w acts ↔ Meets (step env) (Renewed env) w acts) ∧
    (Meets (step env) (fun w a => Renewed env w a ∧ ServeSafe env w a) w acts →
      Throughout (step env) Continues w acts) := by
  constructor
  · exact throughout_iff_meets (fun _ h => h) (renewed_keeps env) (unrenewed_breaks env)
      (start_tagged hstart)
  · intro hmeets
    have hkeep : ∀ w a w', (Coherent env w ∧ Faithful w) ∧ Tagged w → Renewed env w a ∧
      ServeSafe env w a →
        step env w a = some w' → (Coherent env w' ∧ Faithful w') ∧ Tagged w' := by
      intro w a w' h hsafe hs
      refine ⟨⟨?_, ?_⟩, renewed_keeps env w a w' h.2 hsafe.1 hs⟩
      · exact step_coherent env w a w' h.1.1 (serveSafe_cacheSafe hsafe.2) hs
      · exact step_faithful env w a w' h.1.1 h.1.2 hsafe.2 hs
    have hbegin : (Coherent env w ∧ Faithful w) ∧ Tagged w :=
      ⟨⟨start_coherent env w hstart, start_faithful env w hstart⟩, start_tagged hstart⟩
    exact throughout_mono (fun w h => ⟨h.2, tagged_resumes h.2 h.1.2⟩)
      (invariant_throughout hkeep hbegin hmeets)

theorem hello_renewed :
    Meets (step plainEnv) (Renewed plainEnv) freshWorld (uploadActs 0 "hello" ++ downloadActs) := by
  intro w₁ h₁
  refine ⟨trivial, ?_⟩
  obtain rfl := Option.some.inj h₁
  intro w₂ h₂
  obtain rfl := Option.some.inj h₂
  refine ⟨trivial, fun w₃ h₃ => ⟨fun filename _ _ i hi => ?_, ?_⟩⟩
  · exact absurd (show i < 0 from hi) (Nat.not_lt_zero i)
  exact fun _ _ => ⟨trivial, fun _ _ =>
    ⟨trivial, fun _ _ => ⟨trivial, fun _ _ => ⟨trivial, trivial⟩⟩⟩⟩

theorem tags_tell_hello :
    Throughout (step plainEnv) Continues freshWorld (uploadActs 0 "hello" ++ downloadActs) :=
  (tags_tell plainEnv freshWorld _ freshWorld_start).2 (meets_and hello_renewed download_serveSafe)

def resumeHead : HeadInfo := helloRequest (bytes "f-0-5") (bytes "bytes=2-")

/-- `hello` is downloaded, deleted and followed by `world` within the second, and the download is
resumed behind its first two bytes. -/
def resumedActs : List Act :=
  uploadActs 0 "hello" ++ downloadActs ++ [.delete (bytes "f")] ++ uploadActs 1 "world" ++
    [.capture 1 resumeHead, .lookup 1, .read 1]

theorem tag_reused :
    Start plainEnv freshWorld ∧ (∀ n, freshWorld.store.clock n ≤ freshWorld.store.clock (n+1)) ∧
    ∃ w, run (step plainEnv) freshWorld resumedActs = some w ∧
      (tag w 0 = bytes "f-0-5" ∧ tag w 1 = bytes "f-0-5") ∧
      (w.past.content 0 = bytes "hello" ∧ w.past.content 1 = bytes "world") ∧
      w.past.emitted = [⟨0, 0, bytes "hello"⟩, ⟨1, 2, bytes "rld"⟩] ∧
      (processDownloadRequest resumeHead w.store).map (fun r => (r.1.responseStatus, r.2)) =
        some (bytes "206", some ⟨1, 2, 5⟩) ∧ ¬ Tagged w ∧ ¬ Resumes w := by
  have hrun : (run (step plainEnv) freshWorld resumedActs).map
      (fun w => ([w.store.nextNode],
        [nodeName w 0, nodeName w 1, tag w 0, tag w 1, w.past.content 0, w.past.content 1],
        (processDownloadRequest resumeHead w.store).map (fun r => (r.1.responseStatus, r.2)))) =
      some ([2], [bytes "f", bytes "f", bytes "f-0-5", bytes "f-0-5", bytes "hello", bytes "world"],
        some (bytes "206", some ⟨1, 2, 5⟩)) := by
    decide +kernel
  have hsent : (run (step plainEnv) freshWorld resumedActs).map (fun w => w.past.emitted) =
      some [⟨0, 0, bytes "hello"⟩, ⟨1, 2, bytes "rld"⟩] := by decide +kernel
  obtain ⟨w, hw, hfields⟩ := Option.map_eq_some_iff.mp hrun
  simp only [Prod.mk.injEq, List.cons.injEq, and_true] at hfields
  obtain ⟨hnext, ⟨hname, hname', htag, htag', hcontent, hcontent'⟩, hpart⟩ := hfields
  rw [hw] at hsent
  have hemitted : w.past.emitted = [⟨0, 0, bytes "hello"⟩, ⟨1, 2, bytes "rld"⟩] :=
    Option.some.inj hsent
  refine ⟨freshWorld_start, fun _ => le_rfl, w, hw, ⟨htag, htag'⟩, ⟨hcontent, hcontent'⟩,
    hemitted, hpart, fun htagged => ?_, fun hresumes => ?_⟩
  · have hsame := htagged 0 (hnext ▸ Nat.zero_lt_two) 1 (hnext ▸ Nat.one_lt_two)
      (hname.trans hname'.symm)
      (htag.trans htag'.symm)
    rw [hcontent, hcontent'] at hsame
    exact absurd hsame (by decide)
  · have hmatch : ifRangeMatches (w.store.nodes 1).info (tag w 0) (bytes "bytes=2-") :=
      ⟨htag.trans htag'.symm, by decide⟩
    have hspliced := (hresumes ⟨0, 0, bytes "hello"⟩ (by simp [hemitted]) ⟨1, 2, bytes "rld"⟩
      (by simp [hemitted]) (hname.trans hname'.symm) _ hmatch).2
    dsimp only at hspliced
    rw [hcontent] at hspliced
    exact absurd hspliced (by decide)

end CloudBackup.EntityTags
