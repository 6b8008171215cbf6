import CloudBackup.UploadRoundTrip

/-!
# What becomes of the parts of a body

One after the other, each part is refused for its name, given up because a file
operation failed, or stored. Nothing but its own name and path is touched, so
what is stored stays. The operations draw on the fault plan in order.
-/

set_option autoImplicit false

namespace CloudBackup.PartFates
open CloudBackup.ByteStrings CloudBackup.FilePath CloudBackup.FileStore CloudBackup.DataManager
open CloudBackup.UploadRoundTrip

def Draws (k : ℕ) (d d' : Disk) : Prop := d'.faults = d.faults.drop k

/-- One of the next `k` operations fails. -/
def Fails (k : ℕ) (d : Disk) : Prop := ∃ i < k, d.faults.getD i none ≠ none

def Held (env : Env) (s : Store) (p : Part) : Prop :=
  s.disk.files.lookup (targetPath env p.name) = some p.content ∧
  ∃ id, id < s.nextNode ∧ validNode p.name s = some id ∧ (s.nodes id).info.filename = p.name ∧
    (s.nodes id).info.size = p.content.length

structure Beside (env : Env) (p : Part) (s u : Store) : Prop where
  entries : ∀ name, name ≠ p.name → u.hash.lookup name = s.hash.lookup name
  nodes : ∀ id, id < s.nextNode → u.nodes id = s.nodes id
  next : s.nextNode ≤ u.nextNode
  files : OnlyAt (targetPath env p.name) s.disk u.disk

inductive Outcome (env : Env) (s : Store) (p : Part) : Bool → Store → Prop where
  | refused (hname : registrable p.name s = false) : Outcome env s p false s
  | failed (u : Store) (k : ℕ) (hname : registrable p.name s = true)
      (hfails : writable env (targetFile env p.name) = false ∨ Fails k s.disk)
      (hbeside : Beside env p s u) (hfree : u.hash.lookup p.name = none)
      (hdraws : Draws k s.disk u.disk) : Outcome env s p false u
  | stored (u : Store) (k : ℕ) (hname : registrable p.name s = true) (hbeside : Beside env p s u)
      (hheld : Held env u p) (hdraws : Draws k s.disk u.disk) : Outcome env s p true u

inductive Handled (env : Env) : List Part → Store → List (Part × Bool) → Store → Prop where
  | nil (s : Store) : Handled env [] s [] s
  | cons (p : Part) (ps : List Part) (s u t : Store) (ok : Bool) (o : List (Part × Bool))
      (hpart : Outcome env s p ok u) (hrest : Handled env ps u o t) :
      Handled env (p::ps) s ((p, ok)::o) t

def successes (o : List (Part × Bool)) : List Bytes := (o.filter fun r => r.2).map fun r => r.1.name

def failures (o : List (Part × Bool)) : List Bytes := (o.filter fun r => !r.2).map fun r => r.1.name

/-- Accepted names of the parts do not share a path. -/
def Apart (env : Env) (ps : List Part) : Prop := ∀ p ∈ ps, ∀ q ∈ ps, checkFilename p.name = true →
  checkFilename q.name = true → p.name ≠ q.name → targetPath env p.name ≠ targetPath env q.name

theorem handled_snoc {env : Env} {ps : List Part} {s u t : Store}
    {o : List (Part × Bool)} {p : Part}
    {ok : Bool} (h : Handled env ps s o u) (hp : Outcome env u p ok t) :
    Handled env (ps ++ [p]) s (o ++ [(p, ok)]) t := by
  induction h with
  | nil s => exact .cons p [] s t t ok [] hp (.nil t)
  | cons q ps s v u ok' o hq _ ih => exact .cons q _ s v t ok' _ hq (ih hp)

theorem handled_parts {env : Env} {ps : List Part} {s t : Store} {o : List (Part × Bool)}
    (h : Handled env ps s o t) : o.map Prod.fst = ps := by
  induction h with
  | nil s => rfl
  | cons p ps s u t ok o _ _ ih => rw [List.map_cons, ih]

theorem successes_snoc (o : List (Part × Bool)) (p : Part) (ok : Bool) :
    successes (o ++ [(p, ok)]) = if ok then successes o ++ [p.name] else successes o := by
  cases ok <;> simp [successes]

theorem failures_snoc (o : List (Part × Bool)) (p : Part) (ok : Bool) :
    failures (o ++ [(p, ok)]) = if ok then failures o else failures o ++ [p.name] := by
  cases ok <;> simp [failures]

theorem outcome_beside {env : Env} {s u : Store} {p : Part} {ok : Bool} (h : Outcome env s p ok u) :
    Beside env p s u := by
  cases h with
  | refused _ => exact ⟨fun _ _ => rfl, fun _ _ => rfl, le_rfl, OnlyAt.refl _ _⟩
  | failed _ k _ _ hbeside _ _ => exact hbeside
  | stored _ k _ hbeside _ _ => exact hbeside

theorem handled_frame {env : Env} {ps : List Part} {s t : Store} {o : List (Part × Bool)}
    (h : Handled env ps s o t) :
    (∀ name, (∀ p ∈ ps, name ≠ p.name) → t.hash.lookup name = s.hash.lookup name) ∧
    ∀ path, (∀ p ∈ ps, path ≠ targetPath env p.name) →
      t.disk.files.lookup path = s.disk.files.lookup path := by
  induction h with
  | nil s => exact ⟨fun _ _ => rfl, fun _ _ => rfl⟩
  | cons p ps s u t ok o hp _ ih =>
    have hbeside := outcome_beside hp
    constructor
    · intro name hname
      rw [ih.1 name fun q hq => hname q (List.mem_cons_of_mem _ hq)]
      exact hbeside.entries name (hname p List.mem_cons_self)
    · intro path hpath
      rw [ih.2 path fun q hq => hpath q (List.mem_cons_of_mem _ hq)]
      exact hbeside.files path (hpath p List.mem_cons_self)

theorem apart_of_plain {env : Env} (hdep : Deployed env) {ps : List Part}
    (hps : ∀ p ∈ ps, p.name ≠ bytes "." ∧ p.name ≠ bytes ".." ∧ 0 ∉ p.name) : Apart env ps := by
  intro p hp q hq hpc hqc hne
  obtain ⟨hpd, hpdd, hp0⟩ := hps p hp
  obtain ⟨hqd, hqdd, hq0⟩ := hps q hq
  rw [targetPath_child hdep hpc hpd hpdd hp0, targetPath_child hdep hqc hqd hqdd hq0]
  exact fun e => hne (List.append_cancel_left e)

theorem outcome_held {env : Env} {p q : Part} {s u : Store} {ok : Bool} (hheld : Held env s p)
    (hapart : checkFilename q.name = true → p.name ≠ q.name →
      targetPath env p.name ≠ targetPath env q.name)
    (h : Outcome env s q ok u) : Held env u p := by
  have hbeside := outcome_beside h
  by_cases hname : registrable q.name s = true
  · obtain ⟨hcontent, id, hid, hvalid, hfilename, hsize⟩ := hheld
    have hfree := (register_free env q.name s hname).1
    have hcheck : checkFilename q.name = true := (Bool.and_eq_true_iff.mp hname).2
    have hne : p.name ≠ q.name := by
      intro e
      rw [validNode, e, hfree] at hvalid
      cases hvalid
    have hnode := hbeside.nodes id hid
    refine ⟨?_, id, hid.trans_le hbeside.next, ?_, ?_, ?_⟩
    · rw [hbeside.files _ (hapart hcheck hne), hcontent]
    · rw [validNode, hbeside.entries _ hne]
      exact hvalid
    · rw [hnode, hfilename]
    · rw [hnode, hsize]
  · cases h with
    | refused _ => exact hheld
    | failed _ k hq _ _ _ _ => exact absurd hq hname
    | stored _ k hq _ _ _ => exact absurd hq hname

theorem handled_keeps {env : Env} {ps : List Part} {s t : Store} {o : List (Part × Bool)} {p : Part}
    (h : Handled env ps s o t) (hheld : Held env s p)
    (hapart : ∀ q ∈ ps, checkFilename q.name = true → p.name ≠ q.name →
      targetPath env p.name ≠ targetPath env q.name) : Held env t p := by
  induction h with
  | nil s => exact hheld
  | cons q ps s u t ok o hq _ ih =>
    have hkept := outcome_held hheld (hapart q List.mem_cons_self) hq
    exact ih hkept fun r hr => hapart r (List.mem_cons_of_mem _ hr)

theorem handled_held {env : Env} {ps : List Part} {s t : Store} {o : List (Part × Bool)}
    (h : Handled env ps s o t) (hapart : Apart env ps) : ∀ p, (p, true) ∈ o → Held env t p := by
  induction h with
  | nil s => exact fun p hp => absurd hp List.not_mem_nil
  | cons q ps s u t ok o hq hrest ih =>
    intro p hp
    cases List.mem_cons.mp hp with
    | inl heq =>
      cases heq
      cases hq with
      | stored _ k hname hbeside hheld hdraws =>
        have hcheck : checkFilename q.name = true := (Bool.and_eq_true_iff.mp hname).2
        exact handled_keeps hrest hheld fun r hr hrc =>
          hapart q List.mem_cons_self r (List.mem_cons_of_mem _ hr) hcheck hrc
    | inr hmem =>
      exact ih (fun r hr r' hr' =>
        hapart r (List.mem_cons_of_mem _ hr) r' (List.mem_cons_of_mem _ hr')) p hmem

theorem held_stored {env : Env} {s : Store} {p : Part} (h : Held env s p) : Stored env s p := by
  obtain ⟨hcontent, id, -, hvalid, hfilename, hsize⟩ := h
  exact ⟨hcontent, id, hvalid, hfilename, hsize⟩

theorem draws_trans {j k : ℕ} {d e f : Disk} (h : Draws j d e) (h' : Draws k e f) :
    Draws (j+k) d f := by
  unfold Draws at h h' ⊢
  rw [h', h, List.drop_drop]

theorem fails_mono {j k : ℕ} {d : Disk} (hjk : j ≤ k) (h : Fails j d) : Fails k d := by
  obtain ⟨i, hi, hfault⟩ := h
  exact ⟨i, hi.trans_le hjk, hfault⟩

theorem fails_later {j k : ℕ} {d e : Disk} (hdraws : Draws j d e) (h : Fails k e) :
    Fails (j+k) d := by
  obtain ⟨i, hi, hfault⟩ := h
  refine ⟨j+i, by omega, ?_⟩
  rw [hdraws] at hfault
  simpa [List.getD_eq_getElem?_getD, List.getElem?_drop] using hfault

theorem next_draws (d : Disk) : Draws 1 d d.next.2 := by
  simp [Draws, Disk.next]

theorem next_fails (d : Disk) (h : d.next.1 ≠ none) : Fails 1 d := by
  refine ⟨0, by omega, ?_⟩
  simpa [Disk.next, List.headD_eq_head?_getD, List.getD_eq_getElem?_getD,
    List.head?_eq_getElem?] using h

theorem appendContent_draws (env : Env) (path buffer : Bytes) (d : Disk) :
    Draws 1 d (appendContent env path buffer d).2 := by
  have hnext := next_draws d
  unfold appendContent
  split_ifs
  · exact hnext
  · exact hnext

theorem appendContent_fails (env : Env) (path buffer : Bytes) (d : Disk)
    (h : (appendContent env path buffer d).1 = false) : writable env path = false ∨ Fails 1 d := by
  by_cases hw : writable env path = true
  · right
    apply next_fails
    intro hnone
    have htakes : d.takes buffer = buffer := by simp [Disk.takes, hnone]
    simp [appendContent, hnone, hw, htakes] at h
  · left
    simpa using hw

theorem clear_draws (env : Env) (path : Bytes) (d : Disk) (he : fileExists env path d = true) :
    Draws 1 d (clear env path d).2 := by
  have hnext := next_draws d
  unfold clear
  rw [he]
  simp only [Bool.not_true, Bool.false_eq_true, if_false]
  split_ifs <;> exact hnext

theorem clear_fails (env : Env) (path : Bytes) (d : Disk) (he : fileExists env path d = true)
    (h : (clear env path d).1 = false) : writable env path = false ∨ Fails 1 d := by
  by_cases hw : writable env path = true
  · right
    apply next_fails
    intro hnone
    simp [clear, he, hnone, hw] at h
  · left
    simpa using hw

theorem clear_exists (env : Env) (path : Bytes) (d : Disk) (h : (clear env path d).1 = true) :
    fileExists env path (clear env path d).2 = true := by
  unfold clear at h ⊢
  split_ifs at h ⊢ with he hok
  have hne : path ≠ [] := writable_ne_nil (Bool.and_eq_true_iff.mp hok).2
  simp [fileExists, hne, write_lookup]

theorem prepareFile_eq (env : Env) (path : Bytes) (d : Disk) :
    prepareFile env path d =
      if fileExists env path d then clear env path d else appendContent env path [] d := by
  unfold prepareFile
  dsimp only
  by_cases he : fileExists env path d = true
  · simp only [he, if_true]
    have hpair : clear env path d = ((clear env path d).1, (clear env path d).2) := rfl
    cases hc : (clear env path d).1 with
    | true =>
      have hexists := clear_exists env path d hc
      rw [hc] at hpair
      simp [hexists, ← hpair]
    | false =>
      rw [hc] at hpair
      simp [← hpair]
  · simp [he]

theorem prepareFile_draws (env : Env) (path : Bytes) (d : Disk) :
    Draws 1 d (prepareFile env path d).2 := by
  rw [prepareFile_eq]
  split_ifs with he
  · exact clear_draws env path d he
  · exact appendContent_draws env path [] d

theorem prepareFile_fails (env : Env) (path : Bytes) (d : Disk)
    (h : (prepareFile env path d).1 = false) : writable env path = false ∨ Fails 1 d := by
  rw [prepareFile_eq] at h
  split_ifs at h with he
  · exact clear_fails env path d he h
  · exact appendContent_fails env path [] d h

theorem removeIfExists_draws (env : Env) (path : Bytes) (d : Disk) :
    Draws 0 d (removeIfExists env path d).2 := by
  unfold removeIfExists removeRegularFile
  split_ifs
  · exact rfl
  · exact rfl
  · exact rfl
  · exact rfl

end CloudBackup.PartFates
