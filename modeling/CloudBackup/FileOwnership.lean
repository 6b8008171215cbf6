import CloudBackup.NameOwnership

/-!
# Whose a file is

On a disk without faults every file below the backup directory belongs to a
name in the store. An upload writes to the file of the name it holds, and a
name leaves the store together with its file.
-/

set_option autoImplicit false

namespace CloudBackup.FileOwnership
open CloudBackup.ByteStrings CloudBackup.JsonCodec CloudBackup.FilePath CloudBackup.FileStore
open CloudBackup.DataManager CloudBackup.UploadScanner CloudBackup.Download
open CloudBackup.HttpCallbacks CloudBackup.Ownership CloudBackup.NameOwnership

structure Tidy (env : Env) (s : Store) : Prop where
  clean : s.disk.faults = []
  plain : ∀ p, (p = [] ∨ env.isDirectory p = true) → s.disk.files.lookup p = none
  owned : ∀ name F, checkFilename name = true → s.disk.files.lookup (targetPath env name) = some F →
    ∃ other, (s.hash.lookup other).isSome = true ∧ targetPath env other = targetPath env name

section
variable {env : Env} {s : Store} (hs : Tidy env s)
include hs

theorem tidy_same (t : Store)
    (hhash : ∀ name, (s.hash.lookup name).isSome = true → (t.hash.lookup name).isSome = true)
    (hdisk : t.disk = s.disk) : Tidy env t where
  clean := by rw [hdisk]; exact hs.clean
  plain := by rw [hdisk]; exact hs.plain
  owned := fun name F hcheck hF => by
    rw [hdisk] at hF
    obtain ⟨other, ho, hp⟩ := hs.owned name F hcheck hF
    exact ⟨other, hhash other ho, hp⟩

theorem tidy_write (filename content : Bytes) (t : Store)
    (hhash : ∀ name, (s.hash.lookup name).isSome = true → (t.hash.lookup name).isSome = true)
    (hin : (t.hash.lookup filename).isSome = true)
    (hw : writable env (targetFile env filename) = true)
    (hdisk : t.disk = s.disk.write (targetFile env filename) content) : Tidy env t := by
  obtain ⟨hne, hdir⟩ := Bool.and_eq_true_iff.mp hw
  simp only [bne_iff_ne, ne_eq, Bool.not_eq_true'] at hne hdir
  have hother : ∀ q, q ≠ targetPath env filename →
    t.disk.files.lookup q = s.disk.files.lookup q := by
    rw [hdisk]
    exact write_onlyAt s.disk _ _
  constructor
  · rw [hdisk]
    exact hs.clean
  · intro p hp
    have hpf : p ≠ targetPath env filename := by
      rintro rfl
      rcases hp with hp | hp
      · exact hne hp
      · rw [targetPath, hdir] at hp
        cases hp
    rw [hother p hpf]
    exact hs.plain p hp
  · intro name F hcheck hF
    by_cases hpath : targetPath env name = targetPath env filename
    · exact ⟨filename, hin, hpath.symm⟩
    · rw [hother _ hpath] at hF
      obtain ⟨other, ho, hp⟩ := hs.owned name F hcheck hF
      exact ⟨other, hhash other ho, hp⟩

theorem removeIfExists_gone (path : Bytes) (hpath : path ≠ []) :
    (removeIfExists env path s.disk).2.files.lookup (cstr path) = none := by
  unfold removeIfExists
  split_ifs with he
  · by_cases hdir : env.isDirectory (cstr path) = true
    · unfold removeRegularFile
      rw [if_neg (by simp [he]), if_pos hdir]
      exact hs.plain _ (Or.inr hdir)
    · rw [removeRegularFile_done env path he (by simpa using hdir)]
      exact AList.lookup_erase (cstr path) s.disk.files
  · simp only [fileExists, hpath, bne_iff_ne, ne_eq, not_false_eq_true, Bool.and_eq_true,
      Bool.or_eq_true, true_and, not_or, Option.isSome_iff_ne_none, not_not] at he
    exact he.2

theorem target_gone (filename : Bytes) :
    (removeIfExists env (targetFile env filename) s.disk).2.files.lookup
      (targetPath env filename) = none := by
  by_cases hpath : targetFile env filename = []
  · have hnil : targetPath env filename = [] := by rw [targetPath, hpath]; rfl
    have hout : (removeIfExists env (targetFile env filename) s.disk).2 = s.disk := by
      simp [removeIfExists, fileExists, hpath]
    rw [hout, hnil]
    exact hs.plain [] (Or.inl rfl)
  · exact removeIfExists_gone hs _ hpath

theorem tidy_release (filename : Bytes) (t : Store) (hhash : t.hash = s.hash.erase filename)
    (hdisk : t.disk = (removeIfExists env (targetFile env filename) s.disk).2) : Tidy env t := by
  have hgone : t.disk.files.lookup (targetPath env filename) = none := by
    rw [hdisk]
    exact target_gone hs filename
  have hother : ∀ q, q ≠ targetPath env filename →
    t.disk.files.lookup q = s.disk.files.lookup q := by
    rw [hdisk]
    exact removeIfExists_onlyAt env _ _
  constructor
  · rw [hdisk]
    exact removeIfExists_faults hs.clean _ _
  · intro p hp
    by_cases hpath : p = targetPath env filename
    · rw [hpath]
      exact hgone
    · rw [hother p hpath]
      exact hs.plain p hp
  · intro name F hcheck hF
    have hpath : targetPath env name ≠ targetPath env filename := fun hp => by
      rw [hp, hgone] at hF
      cases hF
    rw [hother _ hpath] at hF
    obtain ⟨other, ho, hp⟩ := hs.owned name F hcheck hF
    refine ⟨other, ?_, hp⟩
    have hne : other ≠ filename := fun he => hpath (by rw [← hp, he])
    rw [hhash, AList.lookup_erase_ne hne]
    exact ho

theorem deregister_tidy (filename : Bytes) : Tidy env (deregister env filename s).2 :=
  tidy_release hs filename _ rfl rfl

theorem delete_tidy (filename : Bytes) : Tidy env (delete env filename s).2 := by
  unfold delete
  cases validNode filename s with
  | none => exact hs
  | some id =>
    have hsame := listRemove_same id s
    apply tidy_release hs filename
    · dsimp only
      rw [hsame.hash]
    · dsimp only
      rw [hsame.disk]

theorem register_clean (filename : Bytes) (hw : writable env (targetFile env filename) = true)
    (hfree : registrable filename s = true) :
    register env filename s = (true, { s with
      hash := s.hash.insert filename none
      disk := s.disk.write (targetFile env filename) [] }) := by
  rw [(register_free env filename s hfree).2, prepareFile_clean hs.clean env _ hw, if_pos rfl]

theorem register_tidy (filename : Bytes) : Tidy env (register env filename s).2 := by
  by_cases hreg : registrable filename s = true
  · by_cases hw : writable env (targetFile env filename) = true
    · rw [register_clean hs filename hw hreg]
      apply tidy_write hs filename [] _ _ _ hw rfl
      · intro name hn
        by_cases hname : name = filename
        · rw [hname, AList.lookup_insert]
          rfl
        · rw [AList.lookup_insert_ne hname]
          exact hn
      · rw [AList.lookup_insert]
        rfl
    · rw [(register_free env filename s hreg).2,
        prepareFile_refused hs.clean env _ (by simpa using hw), if_neg (by simp)]
      exact hs
  · rw [register_refused env filename s (by simpa using hreg)]
    exact hs

theorem append_tidy (filename content : Bytes) (hin : (s.hash.lookup filename).isSome = true) :
    Tidy env { s with disk := (appendContent env (targetFile env filename) content s.disk).2 } := by
  by_cases hw : writable env (targetFile env filename) = true
  · rw [appendContent_clean hs.clean env _ content hw]
    apply tidy_write hs filename
    · exact fun _ hn => hn
    · exact hin
    · exact hw
    · rfl
  · rw [appendContent_refused hs.clean env _ content (by simpa using hw)]
    exact hs

theorem getFileSize_tidy (path : Bytes) :
    Tidy env { s with disk := (getFileSize path s.disk).2 } := by
  have hdisk : (getFileSize path s.disk).2 = s.disk := by
    unfold getFileSize
    rw [next_of_clean s.disk hs.clean]
    split <;> rfl
  rw [hdisk]
  exact hs

theorem getContent_tidy (path : Bytes) (pos len : ℕ) :
    Tidy env { s with disk := (getContent path pos len s.disk).2 } := by
  have hdisk : (getContent path pos len s.disk).2 = s.disk := by
    unfold getContent
    rw [next_of_clean s.disk hs.clean]
    split <;> rfl
  rw [hdisk]
  exact hs

theorem insert_tidy (filename : Bytes) (size : ℤ) :
    Tidy env (DataManager.insert filename size s).2 := by
  unfold DataManager.insert
  split
  · apply tidy_same hs
    · intro name hn
      by_cases hname : name = filename
      · rw [hname, AList.lookup_insert]
        rfl
      · rw [AList.lookup_insert_ne hname]
        exact hn
    · rfl
  · exact hs

theorem records_tidy (t : Store) (h : SameRecords s t) : Tidy env t :=
  tidy_same hs t (fun name hn => by rw [h.hash]; exact hn) h.disk

theorem effect_tidy (h h' : HeadInfo) (s' : Store) (hown : mine h ⊆ reserved s)
    (he : Effect env h s h' s') :
    Tidy env s' := by
  have hin : h.curUploadFile ≠ [] → (s.hash.lookup h.curUploadFile).isSome = true := fun hcur => by
    have hres : s.hash.lookup h.curUploadFile = some none := hown ⟨rfl, hcur⟩
    rw [hres]
    rfl
  have hwrote : h.curUploadFile ≠ [] → ∀ disk, (disk = s.disk ∨ ∃ content,
      disk = (appendContent env (targetFile env h.curUploadFile) content s.disk).2) →
      Tidy env { s with disk := disk } := by
    rintro hcur disk (rfl | ⟨content, rfl⟩)
    · exact hs
    · exact append_tidy hs _ content (hin hcur)
  cases he with
  | skips body hcur => exact hs
  | opens body filename hcur =>
    unfold openUpload
    dsimp only
    split_ifs
    · exact hs
    · exact register_tidy hs filename
    · exact register_tidy hs filename
  | fails body content hcur => exact deregister_tidy (append_tidy hs _ content (hin hcur)) _
  | waits body disk hcur hd => exact hwrote hcur disk hd
  | finishes body disk hcur hd => exact insert_tidy (getFileSize_tidy (hwrote hcur disk hd) _) _ _

theorem onBody_tidy (data : Bytes) (h : HeadInfo) (r : HeadInfo × Store)
    (hown : mine h ⊆ reserved s)
    (hr : onBody env data h s = some r) : Tidy env r.2 := by
  let I := fun g t => mine g ⊆ reserved t ∧ Tidy env t
  have hkeep : ∀ g t g' t', I g t → Effect env g t g' t' → I g' t' := fun g t g' t' hi he =>
    ⟨exchange_sub (effect_exchange env g t g' t' hi.1 he), effect_tidy hi.2 g g' t' hi.1 he⟩
  unfold onBody at hr
  split_ifs at hr
  · cases hr
    exact hs
  · obtain ⟨q, hq, rfl⟩ := Option.map_eq_some_iff.mp hr
    have hloop : I q.2.1 q.2.2 :=
      uploadLoop_keeps hkeep _ (setBody h (h.requestBody ++ data)) s ⟨hown, hs⟩ q hq
    split_ifs
    · exact hloop.2
    · exact hloop.2
  · cases hr
    exact hs

theorem onMessageComplete_tidy (codec : Codec) (h : HeadInfo) (r : HeadInfo × Store × Answer)
    (hr : onMessageComplete env codec h s = some r) : Tidy env r.2.1 := by
  unfold onMessageComplete at hr
  dsimp only at hr
  split_ifs at hr
  · cases hr
    exact hs
  · cases hr
    unfold processShowlistRequest
    dsimp only
    split <;> exact getContent_tidy hs _ _ _
  · obtain ⟨q, -, rfl⟩ := Option.map_eq_some_iff.mp hr
    exact hs
  · cases hr
    exact delete_tidy hs _
  · cases hr
    exact hs
  · cases hr
    exact hs
  · cases hr
    exact hs

theorem callback_tidy (codec : Codec) (h : HeadInfo) (cb : Callback)
    (r : HeadInfo × Store × Option Answer)
    (hown : mine h ⊆ reserved s) (hr : callback env codec h s cb = some r) : Tidy env r.2.1 := by
  cases cb with
  | headersComplete =>
    obtain ⟨h', -, rfl⟩ := Option.map_eq_some_iff.mp hr
    exact hs
  | body data =>
    obtain ⟨q, hq, rfl⟩ := Option.map_eq_some_iff.mp hr
    exact onBody_tidy hs data h q hown hq
  | messageComplete =>
    obtain ⟨q, hq, rfl⟩ := Option.map_eq_some_iff.mp hr
    exact onMessageComplete_tidy hs codec h q hq
  | messageBegin | method data | url data | urlComplete | version data | headerField data
  | headerValue data | headerValueComplete =>
    cases hr
    exact hs

theorem destruct_tidy (h : HeadInfo) : Tidy env (destruct env h s) := by
  unfold destruct
  split_ifs
  · exact hs
  · exact deregister_tidy hs _

end

def storeAfter : Sent → Store
  | .closes s => s
  | .skips s => s
  | .sends _ _ s => s

theorem sendFile_same (env : Env) (task : SendTask) (s : Store) :
    (storeAfter (sendFile env task s)).hash = s.hash ∧
      (Tidy env s → Tidy env (storeAfter (sendFile env task s))) := by
  let filename := (s.nodes task.node).info.filename
  let l := lookupPrefix task.startPos filename s
  have hl := lookupPrefix_same task.startPos filename s
  let r := readSegment env filename task.startPos task.endPos l.2
  have hr : r.2.hash = s.hash ∧ (Tidy env s → Tidy env r.2) :=
    ⟨hl.hash, fun hs => getContent_tidy (records_tidy hs l.2 hl) _ _ _⟩
  have hk : ∀ content, SameRecords r.2 (keepPrefix env task.startPos filename content r.2).2 := by
    intro content
    unfold keepPrefix
    split_ifs
    · exact putFilePreContent_same env filename content r.2
    · exact SameRecords.refl r.2
  unfold sendFile
  split_ifs with hend
  · exact ⟨rfl, id⟩
  · dsimp only
    split_ifs with hhit
    · exact ⟨hl.hash, fun hs => records_tidy hs _ hl⟩
    · split
      · exact hr
      · rename_i content _
        have hkept := hk content
        split_ifs
        · exact ⟨hkept.hash.trans hr.1, fun hs => records_tidy (hr.2 hs) _ hkept⟩
        · exact ⟨hkept.hash.trans hr.1, fun hs => records_tidy (hr.2 hs) _ hkept⟩

end CloudBackup.FileOwnership
