import CloudBackup.HttpCallbacks
import CloudBackup.Ownership

/-!
# Whose a reserved name is

A name that the store keeps reserved belongs to the upload that registered
it. Every callback of a connection except the first of a message exchanges
the name of the connection against the reserved names; on a disk without
faults the files below the backup directory belong to names in the store.
-/

set_option autoImplicit false

namespace CloudBackup.NameOwnership
open CloudBackup.ByteStrings CloudBackup.JsonCodec CloudBackup.FilePath CloudBackup.FileStore
open CloudBackup.DataManager CloudBackup.UploadScanner CloudBackup.Download
open CloudBackup.HttpCallbacks CloudBackup.Ownership

def reserved (s : Store) : Set Bytes := {name | s.hash.lookup name = some none}

def mine (h : HeadInfo) : Set Bytes := {name | name = h.curUploadFile ∧ name ≠ []}

def destruct (env : Env) (h : HeadInfo) (s : Store) : Store :=
  if h.curUploadFile = [] then s else (deregister env h.curUploadFile s).2

theorem mine_idle (h : HeadInfo) (hcur : h.curUploadFile = []) : mine h = ∅ := by
  ext name
  simp only [mine, hcur, Set.mem_ofPred_eq, Set.mem_empty_iff_false, iff_false, not_and, not_not]
  exact id

theorem mine_busy (h : HeadInfo) (hcur : h.curUploadFile ≠ []) : mine h = {h.curUploadFile} := by
  ext name
  simp only [mine, Set.mem_ofPred_eq, Set.mem_singleton_iff]
  constructor
  · exact fun hn => hn.1
  · rintro rfl
    exact ⟨rfl, hcur⟩

theorem reserved_same (s t : Store) (h : t.hash = s.hash) : reserved t = reserved s := by
  rw [reserved, h, reserved]

theorem reserved_erase (s : Store) (filename : Bytes) (t : Store)
    (h : t.hash = s.hash.erase filename) :
    reserved t = reserved s \ {filename} := by
  ext name
  simp only [reserved, h, Set.mem_ofPred_eq, Set.mem_sdiff, Set.mem_singleton_iff]
  by_cases hn : name = filename
  · subst hn
    rw [AList.lookup_erase]
    simp
  · rw [AList.lookup_erase_ne hn]
    simp [hn]

theorem reserved_insert_none (s : Store) (filename : Bytes) (t : Store)
    (h : t.hash = s.hash.insert filename none) : reserved t = {filename} ∪ reserved s := by
  ext name
  simp only [reserved, h, Set.mem_ofPred_eq, Set.mem_union, Set.mem_singleton_iff]
  by_cases hn : name = filename
  · subst hn
    rw [AList.lookup_insert]
    simp
  · rw [AList.lookup_insert_ne hn]
    simp [hn]

theorem reserved_insert_some (s : Store) (filename : Bytes) (id : NodeId) (t : Store)
    (h : t.hash = s.hash.insert filename (some id)) : reserved t = reserved s \ {filename} := by
  ext name
  simp only [reserved, h, Set.mem_ofPred_eq, Set.mem_sdiff, Set.mem_singleton_iff]
  by_cases hn : name = filename
  · subst hn
    rw [AList.lookup_insert]
    simp
  · rw [AList.lookup_insert_ne hn]
    simp [hn]

theorem deregister_reserved (env : Env) (filename : Bytes) (s : Store) :
    reserved (deregister env filename s).2 = reserved s \ {filename} :=
  reserved_erase s filename _ rfl

theorem delete_reserved (env : Env) (filename : Bytes) (s : Store) :
    reserved (delete env filename s).2 = reserved s := by
  unfold delete
  cases hv : validNode filename s with
  | none => rfl
  | some id =>
    have hhash : (listRemove id s).hash = s.hash := (listRemove_same id s).hash
    rw [reserved_erase s filename _ (by rw [← hhash])]
    have hfree : filename ∉ reserved s := fun hres => by
      have hres : s.hash.lookup filename = some none := hres
      rw [(validNode_iff _ _ _).mp hv] at hres
      cases hres
    exact Set.sdiff_singleton_eq_self hfree

theorem insert_reserved_gone (filename : Bytes) (size : ℤ) (s : Store)
    (hres : filename ∈ reserved s) :
    reserved (DataManager.insert filename size s).2 = reserved s \ {filename} := by
  rw [insert_reserved filename size s hres]
  exact reserved_insert_some s filename _ _ rfl

theorem register_reserved (env : Env) (filename : Bytes) (s : Store) :
    if (register env filename s).1 then
      filename ≠ [] ∧ filename ∉ reserved s ∧
        reserved (register env filename s).2 = {filename} ∪ reserved s
    else reserved (register env filename s).2 = reserved s := by
  by_cases hreg : registrable filename s = true
  · obtain ⟨hnone, hr⟩ := register_free env filename s hreg
    rw [hr]
    by_cases hp : (prepareFile env (targetFile env filename) s.disk).1 = true
    · rw [if_pos hp, if_pos rfl]
      refine ⟨?_, fun hres => ?_, reserved_insert_none s filename _ rfl⟩
      · have hcheck := (Bool.and_eq_true_iff.mp hreg).2
        exact ((checkFilename_iff filename).mp hcheck).1
      · have hres : s.hash.lookup filename = some none := hres
        rw [hnone] at hres
        cases hres
    · rw [if_neg hp, if_neg (by simp)]
      rfl
  · rw [register_refused env filename s (by simpa using hreg), if_neg (by simp)]

theorem openUpload_exchange (env : Env) (filename : Bytes) (h : HeadInfo) (s : Store)
    (hcur : h.curUploadFile = []) :
    Exchange (mine h) (reserved s) (mine (openUpload env filename h s).1)
      (reserved (openUpload env filename h s).2) := by
  have hnone : Exchange (mine h) (reserved s) ∅ (reserved s) := by
    rw [mine_idle h hcur]
    exact exchange_refl (Set.empty_subset _)
  have hreg := register_reserved env filename s
  unfold openUpload
  dsimp only
  split_ifs with hcheck hr
  · rw [mine_idle (failUpload _) rfl]
    exact hnone
  · rw [if_pos hr] at hreg
    obtain ⟨hne, hfree, hres⟩ := hreg
    rw [mine_idle h hcur, mine_busy _ hne, hres]
    exact exchange_take (Set.disjoint_singleton_left.mpr hfree)
  · rw [if_neg hr] at hreg
    rw [mine_idle (failUpload _) rfl, hreg]
    exact hnone

theorem effect_exchange (env : Env) (h : HeadInfo) (s : Store) (h' : HeadInfo) (s' : Store)
    (hown : mine h ⊆ reserved s) (he : Effect env h s h' s') :
    Exchange (mine h) (reserved s) (mine h') (reserved s') := by
  cases he with
  | skips body hcur => exact exchange_refl hown
  | opens body filename hcur => exact openUpload_exchange env filename (setBody h body) s hcur
  | fails body content hcur =>
    rw [mine_idle (failUpload _) rfl, deregister_reserved, mine_busy h hcur]
    exact exchange_give
  | waits body disk hcur hd => exact exchange_refl hown
  | finishes body disk hcur hd =>
    have hres : h.curUploadFile ∈ reserved s := hown ⟨rfl, hcur⟩
    rw [mine_idle (finishUpload env _ _).1 rfl, mine_busy h hcur]
    have hgone := insert_reserved_gone h.curUploadFile
      (getFileSize (targetFile env h.curUploadFile) disk).1
      { s with disk := (getFileSize (targetFile env h.curUploadFile) disk).2 } hres
    rw [finishUpload, setBody_curUploadFile, hgone]
    exact exchange_give

theorem onBody_exchange (env : Env) (data : Bytes) (h : HeadInfo) (s : Store) (r : HeadInfo × Store)
    (hown : mine h ⊆ reserved s) (hr : onBody env data h s = some r) :
    Exchange (mine h) (reserved s) (mine r.1) (reserved r.2) := by
  let I := fun g t => Exchange (mine h) (reserved s) (mine g) (reserved t)
  have hkeep : ∀ g t g' t', I g t → Effect env g t g' t' → I g' t' := fun g t g' t' hi he =>
    exchange_trans hi (effect_exchange env g t g' t' (exchange_sub hi) he)
  unfold onBody at hr
  split_ifs at hr
  · cases hr
    exact exchange_refl hown
  · obtain ⟨q, hq, rfl⟩ := Option.map_eq_some_iff.mp hr
    have hloop : I q.2.1 q.2.2 :=
      uploadLoop_keeps hkeep _ (setBody h (h.requestBody ++ data)) s (exchange_refl hown) q hq
    split_ifs
    · exact hloop
    · exact hloop
  · cases hr
    exact exchange_refl hown

theorem onHeadersComplete_mine (h h' : HeadInfo) (hh : onHeadersComplete h = some h') :
    mine h' = mine h := by
  obtain ⟨a, b, c, k, rfl, rfl | rfl | rfl⟩ := onHeadersComplete_cases hh
  · rfl
  · rfl
  · rfl

theorem setHeader_mine (name value : Bytes) (h : HeadInfo) :
    mine (setHeader name value h) = mine h := rfl

theorem setStatus_mine (status describe : Bytes) (h : HeadInfo) :
    mine (setStatus status describe h) = mine h := rfl

theorem wholeFile_mine (info : BackupInfoNode) (h : HeadInfo) :
    mine (wholeFile info h) = mine h := by
  simp only [wholeFile, setHeader_mine, setStatus_mine]

theorem partOfFile_mine (info : BackupInfoNode) (startPos endPos : ℤ) (h : HeadInfo) :
    mine (partOfFile info startPos endPos h) = mine h := by
  simp only [partOfFile, setHeader_mine, setStatus_mine]

theorem processDownloadRequest_mine (h : HeadInfo) (s : Store) (r : HeadInfo × Option SendTask)
    (hr : processDownloadRequest h s = some r) : mine r.1 = mine h := by
  unfold processDownloadRequest at hr
  split at hr
  · obtain rfl := Option.some.inj hr
    exact setStatus_mine _ _ h
  · dsimp only at hr
    split at hr
    · obtain ⟨q, -, hq⟩ := Option.map_eq_some_iff.mp hr
      rw [← hq, partOfFile_mine, wholeFile_mine]
    · obtain rfl := Option.some.inj hr
      exact wholeFile_mine _ h

theorem processUploadRequest_mine (codec : Codec) (h : HeadInfo) :
    mine (processUploadRequest codec h) = mine h := by
  have hstatus : mine (uploadStatus h) = mine h := by
    unfold uploadStatus
    split_ifs <;> rfl
  unfold processUploadRequest
  split
  · exact hstatus
  · exact hstatus

theorem processApiRequest_mine (codec : Codec) (h : HeadInfo) (s : Store) :
    mine (processApiRequest codec h s) = mine h := by
  unfold processApiRequest
  split_ifs
  · split <;> rfl
  · rfl

theorem processShowlistRequest_mine (env : Env) (h : HeadInfo) (s : Store) :
    mine (processShowlistRequest env h s).1 = mine h ∧
      (processShowlistRequest env h s).2.2.hash = s.hash := by
  unfold processShowlistRequest
  dsimp only
  split <;> exact ⟨rfl, rfl⟩

theorem onMessageComplete_keeps (env : Env) (codec : Codec) (h : HeadInfo) (s : Store)
    (r : HeadInfo × Store × Answer) (hr : onMessageComplete env codec h s = some r) :
    mine r.1 = mine h ∧ reserved r.2.1 = reserved s := by
  unfold onMessageComplete at hr
  dsimp only at hr
  split_ifs at hr
  · cases hr
    exact ⟨rfl, rfl⟩
  · cases hr
    obtain ⟨hmine, hhash⟩ := processShowlistRequest_mine env h s
    exact ⟨hmine, reserved_same s _ hhash⟩
  · obtain ⟨q, hq, rfl⟩ := Option.map_eq_some_iff.mp hr
    exact ⟨processDownloadRequest_mine h s q hq, rfl⟩
  · cases hr
    refine ⟨?_, delete_reserved env _ s⟩
    unfold processDeleteRequest
    dsimp only
    split_ifs <;> rfl
  · cases hr
    exact ⟨processUploadRequest_mine codec h, rfl⟩
  · cases hr
    exact ⟨processApiRequest_mine codec h s, rfl⟩
  · cases hr
    exact ⟨rfl, rfl⟩

/-- The first callback of a message is the only one that drops a name. -/
theorem callback_exchange (env : Env) (codec : Codec) (h : HeadInfo) (s : Store) (cb : Callback)
    (r : HeadInfo × Store × Option Answer) (hown : mine h ⊆ reserved s)
    (hcb : cb = .messageBegin → h.curUploadFile = []) (hr : callback env codec h s cb = some r) :
    Exchange (mine h) (reserved s) (mine r.1) (reserved r.2.1) := by
  cases cb with
  | messageBegin =>
    cases hr
    rw [mine_idle h (hcb rfl), mine_idle (onMessageBegin h) rfl]
    exact exchange_refl (Set.empty_subset _)
  | headersComplete =>
    obtain ⟨h', hh, rfl⟩ := Option.map_eq_some_iff.mp hr
    rw [onHeadersComplete_mine h h' hh]
    exact exchange_refl hown
  | body data =>
    obtain ⟨q, hq, rfl⟩ := Option.map_eq_some_iff.mp hr
    exact onBody_exchange env data h s q hown hq
  | messageComplete =>
    obtain ⟨q, hq, rfl⟩ := Option.map_eq_some_iff.mp hr
    obtain ⟨hmine, hres⟩ := onMessageComplete_keeps env codec h s q hq
    rw [hmine, hres]
    exact exchange_refl hown
  | urlComplete =>
    cases hr
    have hmine : mine (onUrlComplete h) = mine h := by
      unfold onUrlComplete
      dsimp only
      split <;> rfl
    rw [hmine]
    exact exchange_refl hown
  | method data | url data | version data | headerField data | headerValue data
  | headerValueComplete =>
    cases hr
    exact exchange_refl hown

theorem destruct_exchange (env : Env) (h : HeadInfo) (s : Store) :
    Exchange (mine h) (reserved s) ∅ (reserved (destruct env h s)) := by
  unfold destruct
  split_ifs with hcur
  · rw [mine_idle h hcur]
    exact exchange_refl (Set.empty_subset _)
  · rw [deregister_reserved, mine_busy h hcur]
    exact exchange_give

end CloudBackup.NameOwnership
