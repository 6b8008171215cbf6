import CloudBackup.MetadataCrash
import CloudBackup.StoreDiscipline

/-!
# Calls of the data manager are atomic

What the threads do at the data manager, step by step and in any order, looks as
if every call were served at one moment by the functions of `DataManager`. A call
that has `_rwlock` alone is served when it looks at or changes its file, and what
it does to the table before or after nobody sees.
-/

set_option autoImplicit false

namespace CloudBackup.StoreAtomicity
open CloudBackup.ByteStrings CloudBackup.FilePath CloudBackup.FileStore CloudBackup.DataManager
open CloudBackup.MetadataFile CloudBackup.Restart CloudBackup.Backing CloudBackup.RunInvariants
open CloudBackup.StoragePass (clear_true)
open CloudBackup.MetadataCrash (plainEnv_housed)
open CloudBackup.LockPrograms CloudBackup.Linearization CloudBackup.StoreLocks
  CloudBackup.StoreDiscipline

section Private
variable {env : Env} (hh : Housed env) {x y : Store × Store} {filename : Bytes}

theorem fileExists_lookup {d e : Disk}
    (h : e.files.lookup (targetPath env filename) = d.files.lookup (targetPath env filename)) :
    fileExists env (targetFile env filename) e = fileExists env (targetFile env filename) d := by
  unfold fileExists
  rw [show cstr (targetFile env filename) = targetPath env filename from rfl, h]

include hh

theorem untouched_private (hx : Always env x) (hentry : isEntry filename = true)
    (hfree : x.2.hash.lookup filename ≠ some none) :
    Untouched env x.2 (targetPath env filename) := by
  refine ⟨entry_not_meta hh hentry, fun other hother => ?_⟩
  refine entry_apart hh hentry (hx.entries other (by rw [hother]; rfl)) ?_
  rintro rfl
  exact hfree hother

theorem fileExists_keeps {held : Held Lock} (hheld : (.rwlock, .exclusive) ∈ held)
    (hx : Always env x)
    (hentry : isEntry filename = true) (hfree : x.2.hash.lookup filename ≠ some none)
    (hk : Keeps env held x y) :
    fileExists env (targetFile env filename) y.2.disk = fileExists env
      (targetFile env filename) x.2.disk :=
  fileExists_lookup (hk.files hheld _ (untouched_private hh hx hentry hfree))

end Private

structure Fresh (filename : Bytes) (x : Store × Store) : Prop where
  settled : Settled .rwlock x
  absent : x.2.hash.lookup filename = none
  accepted : checkFilename filename = true

structure Registering (filename : Bytes) (x : Store × Store) : Prop where
  settled : Settled .rwlock (x.1, { x.2 with hash := x.2.hash.insert filename none })
  absent : x.2.hash.lookup filename = none

section Register
variable {env : Env} {x y : Store × Store} {filename : Bytes}

theorem fresh_keeps (h : Fresh filename x) (hk : Keeps env [(.rwlock, .exclusive)] x y) :
    Fresh filename y :=
  ⟨settled_keeps (by simp) hk h.settled, whole_keeps (R := fun _ t => t.hash.lookup filename = none)
    (fun _ _ _ _ h => h) (by simp) hk h.absent, h.accepted⟩

theorem registering_keeps (h : Registering filename x)
    (hk : Keeps env [(.rwlock, .exclusive)] x y) :
    Registering filename y :=
  ⟨whole_keeps (R := fun s t => Settled .rwlock (s, { t with hash := t.hash.insert filename none }))
    (fun _ _ _ _ h => ⟨⟨h.1.hash, h.1.next, h.1.clock, h.1.info⟩, h.2⟩) (by simp) hk h.settled,
    whole_keeps (R := fun _ t => t.hash.lookup filename = none) (fun _ _ _ _ h => h)
      (by simp) hk h.absent⟩

theorem always_insert {g t : Store} {o : Option NodeId} (hx : Always env x)
    (hentry : isEntry filename = true)
    (hdisk : t.disk = g.disk) (htable : t.hash = x.2.hash.insert filename o)
    (hsame : t.hash = g.hash) : Always env (g, t) where
  disk := hdisk
  reserved := fun other hother => by rw [← hsame]; exact hother
  entries := fun other hother => by
    rw [htable] at hother
    by_cases hname : other = filename
    · rw [hname]
      exact hentry
    · rw [AList.lookup_insert_ne hname] at hother
      exact hx.entries other hother

theorem follows_registerName {c : Call} (hentry : isEntry filename = true)
    (h : Registering filename x) :
    Follows (discipline env) (serve env) c [(.rwlock, .exclusive)] (some (.done true))
      (registerName filename) x := by
  refine follows_act fun y hy hk => ?_
  have hy' := registering_keeps h hk
  exact ⟨y.1, _, .still _, allowed_writer (by simp)
    (always_insert hy hentry hy.disk rfl hy'.settled.1.hash)
    (Or.inr fun hcache => ⟨hcache.list, hcache.content⟩), follows_leave_writer _ hy'.settled⟩

variable (env) in
theorem serve_register {s : Store} (habsent : s.hash.lookup filename = none)
    (hcheck : checkFilename filename = true) :
    serve env (.register filename) s = (.done (prepareFile env (targetFile env filename) s.disk).1,
      if (prepareFile env (targetFile env filename) s.disk).1 then
        { s with hash := s.hash.insert filename none,
                 disk := (prepareFile env (targetFile env filename) s.disk).2 }
      else withDisk s (prepareFile env (targetFile env filename) s.disk).2) := by
  rw [serve, DataManager.register, habsent, hcheck]
  simp only [Option.isSome_none, Bool.false_eq_true, if_false, Bool.not_true]
  split_ifs with hp
  · rw [hp]
  · rw [Bool.not_eq_true] at hp
    rw [hp]
    rfl

theorem follows_prepare (hx : Fresh filename x) (f : Disk → Bool × Disk) (made : Steps)
    (hf : ∀ y, Always env y → Keeps env [(.rwlock, .exclusive)] x y →
      prepareFile env (targetFile env filename) y.2.disk = f y.2.disk)
    (hmade : ∀ y, Always env y → Keeps env [(.rwlock, .exclusive)] x y →
      (f y.2.disk).1 = true → ∀ g, Always env (g, withDisk y.2 (f y.2.disk).2) →
        Registering filename (g, withDisk y.2 (f y.2.disk).2) →
      Follows (discipline env) (serve env) (.register filename) [(.rwlock, .exclusive)]
        (some (.done true)) made
        (g, withDisk y.2 (f y.2.disk).2)) :
    Follows (discipline env) (serve env) (.register filename) [(.rwlock, .exclusive)] none
      (onDisk f fun ok => if ok then made else leave (.done false)) x := by
  refine follows_onDisk fun y hy hk => ?_
  have hfresh := fresh_keeps hx hk
  have hprepare := hf y hy hk
  have habsent : y.1.hash.lookup filename = none := by rw [← hfresh.settled.1.hash, hfresh.absent]
  have hserve := serve_register env habsent hfresh.accepted
  rw [← hy.disk, hprepare] at hserve
  by_cases hok : (f y.2.disk).1 = true
  · rw [if_pos hok, hok] at hserve
    refine ⟨_, _, serves_now hserve, ?_⟩
    have halways : Always env
      ({ y.1 with hash := y.1.hash.insert filename none, disk := (f y.2.disk).2 },
        withDisk y.2 (f y.2.disk).2) := by
      refine ⟨rfl, fun other hother => ?_, hy.entries⟩
      by_cases hsame : other = filename
      · rw [hsame]
        exact AList.lookup_insert _
      · exact (AList.lookup_insert_ne hsame).trans (hy.reserved other hother)
    have hregistering : Registering filename
      ({ y.1 with hash := y.1.hash.insert filename none, disk := (f y.2.disk).2 },
        withDisk y.2 (f y.2.disk).2) :=
      ⟨⟨⟨by rw [show (withDisk y.2 (f y.2.disk).2).hash = y.1.hash from hfresh.settled.1.hash],
        hfresh.settled.1.next,
        hfresh.settled.1.clock, hfresh.settled.1.info⟩, hfresh.settled.2⟩, hfresh.absent⟩
    refine ⟨allowed_writer (by simp) halways (Or.inr fun hcache =>
      ⟨hcache.list, hcache.content⟩), ?_⟩
    rw [hok]
    exact hmade y hy hk hok _ halways hregistering
  · rw [if_neg hok] at hserve
    rw [Bool.not_eq_true] at hok
    rw [hok] at hserve
    refine ⟨_, _, serves_now hserve, allowed_disk hy _ (Or.inl (by simp)), ?_⟩
    rw [hok]
    exact follows_leave_writer _
      ⟨⟨hfresh.settled.1.hash, hfresh.settled.1.next, hfresh.settled.1.clock,
      hfresh.settled.1.info⟩, hfresh.settled.2⟩

theorem fileExists_cleared {path : Bytes} {d : Disk} (h : (clear env path d).1 = true) :
    fileExists env path (clear env path d).2 = true := by
  have hpath : path ≠ [] := by
    rintro rfl
    simp [clear, fileExists] at h
  simp [fileExists, hpath, clear_true env path d h]

theorem prepareFile_clear {path : Bytes} {d : Disk} (hexists : fileExists env path d = true) :
    prepareFile env path d = clear env path d := by
  have hstill : (clear env path d).1 = true → fileExists env path (clear env path d).2 = true :=
    fileExists_cleared
  simp only [prepareFile, hexists, if_true]
  generalize clear env path d = c at hstill ⊢
  obtain ⟨ok, e⟩ := c
  cases ok with
  | false => rfl
  | true =>
    rw [hstill rfl]
    rfl

theorem prepareFile_create {path : Bytes} {d : Disk} (hexists : fileExists env path d = false) :
    prepareFile env path d = appendContent env path [] d := by
  simp [prepareFile, hexists]

section Housed
variable (hh : Housed env) (hentry : isEntry filename = true)
include hh hentry

theorem fresh_exists (hx : Always env x) (hfresh : Fresh filename x)
    (hk : Keeps env [(.rwlock, .exclusive)] x y) :
    fileExists env (targetFile env filename) y.2.disk = fileExists env
      (targetFile env filename) x.2.disk :=
  fileExists_keeps hh (by simp) hx hentry (by rw [hfresh.absent]; simp) hk

theorem follows_createFile (hx : Always env x) (hfresh : Fresh filename x)
    (hexists : fileExists env (targetFile env filename) x.2.disk = false) :
    Follows (discipline env) (serve env) (.register filename) [(.rwlock, .exclusive)] none
      (createFile env filename) x := by
  refine follows_look fun y hy hk => ⟨none, .still none, ?_⟩
  rw [fresh_exists hh hentry hx hfresh hk, hexists, if_neg Bool.false_ne_true]
  refine follows_prepare (fresh_keeps hfresh hk) _ _ (fun z hz hyz => prepareFile_create ?_)
    fun z hz hyz hok g halways hregistering => follows_registerName hentry hregistering
  rw [fresh_exists hh hentry hx hfresh (keeps_trans env _ x y z hk hyz), hexists]

theorem follows_createFile_made {c : Call} (hx : Always env x)
    (hregistering : Registering filename x)
    (hexists : fileExists env (targetFile env filename) x.2.disk = true) :
    Follows (discipline env) (serve env) c [(.rwlock, .exclusive)] (some (.done true))
      (createFile env filename) x := by
  refine follows_look fun y hy hk => ⟨_, .still _, ?_⟩
  rw [fileExists_keeps hh (by simp) hx hentry (by rw [hregistering.absent]; simp) hk,
    hexists, if_pos rfl]
  exact follows_registerName hentry (registering_keeps hregistering hk)

/-- The file is cleared or created, whichever the two looks at it say; nobody touches it
in between. -/
theorem follows_fresh (hfresh : Fresh filename x) :
    Follows (discipline env) (serve env) (.register filename) [(.rwlock, .exclusive)] none
      (.act id fun s =>
        if fileExists env (targetFile env filename) s.disk then
          onDisk (clear env (targetFile env filename)) fun ok => if ok then
            createFile env filename else leave (.done false)
        else createFile env filename) x := by
  refine follows_look fun y hy hk => ⟨none, .still none, ?_⟩
  have hfresh := fresh_keeps hfresh hk
  cases hexists : fileExists env (targetFile env filename) y.2.disk with
  | false =>
    rw [if_neg Bool.false_ne_true]
    exact follows_createFile hh hentry hy hfresh hexists
  | true =>
    rw [if_pos rfl]
    refine follows_prepare hfresh _ _ (fun z hz hyz => prepareFile_clear ?_) fun z hz hyz hok g
      halways hregistering => ?_
    · rw [fresh_exists hh hentry hy hfresh hyz, hexists]
    · exact follows_createFile_made hh hentry halways hregistering (fileExists_cleared hok)

end Housed

theorem follows_register (hh : Housed env) (hproper : Proper (.register filename)) :
    Follows (discipline env) (serve env) (.register filename) [] none
      (StoreLocks.register env filename) x := by
  intro y hy _ hs
  refine follows_look fun z hz hyz => ?_
  have hsettled := settled_keeps (by simp) hyz hs
  by_cases hsome : (z.2.hash.lookup filename).isSome = true
  · rw [if_pos hsome]
    refine ⟨_, serves_now ?_, follows_leave_writer _ hsettled⟩
    rw [hsettled.1.hash] at hsome
    simp only [serve, DataManager.register, if_pos hsome]
  · rw [if_neg hsome]
    have habsent : z.1.hash.lookup filename = none := by
      rw [← hsettled.1.hash]
      exact Option.not_isSome_iff_eq_none.mp hsome
    cases hcheck : checkFilename filename with
    | false =>
      refine ⟨_, serves_now ?_, follows_leave_writer _ hsettled⟩
      simp [serve, DataManager.register, habsent, hcheck]
    | true =>
      exact ⟨none, .still none, follows_fresh hh (hproper hcheck)
        ⟨hsettled, Option.not_isSome_iff_eq_none.mp hsome, hcheck⟩⟩

end Register

section Entries
variable {env : Env} {x y : Store × Store} {filename : Bytes}

theorem always_erase (hx : Always env x) (filename : Bytes) :
    Always env (x.1, { x.2 with hash := x.2.hash.erase filename }) := by
  have hrest : ∀ other, ((x.2.hash.erase filename).lookup other).isSome = true →
    other ≠ filename := by
    rintro other hother rfl
    rw [AList.lookup_erase] at hother
    cases hother
  refine ⟨hx.disk, fun other hother => ?_, fun other hother => ?_⟩
  · have hne := hrest other
      (by rw [show (x.2.hash.erase filename).lookup other = some none from hother]; rfl)
    exact hx.reserved other ((AList.lookup_erase_ne hne).symm.trans hother)
  · refine hx.entries other ?_
    rwa [← AList.lookup_erase_ne (hrest other hother)]

def Erased (filename : Bytes) (x : Store × Store) : Prop :=
  Settled .rwlock ({ x.1 with hash := x.1.hash.erase filename }, x.2)

theorem erased_keeps (h : Erased filename x) (hk : Keeps env [(.rwlock, .exclusive)] x y) :
    Erased filename y :=
  whole_keeps (R := fun s t => Erased filename (s, t))
    (fun _ _ _ _ h => ⟨⟨h.1.hash, h.1.next, h.1.clock, h.1.info⟩, h.2⟩) (by simp) hk h

theorem erased_free (h : Erased filename x) : x.2.hash.lookup filename ≠ some none := by
  rw [h.1.hash]
  simp

theorem serve_deregister (s : Store) : serve env (.deregister filename) s =
    (.done (removeIfExists env (targetFile env filename) s.disk).1,
      { s with hash := s.hash.erase filename,
               disk := (removeIfExists env (targetFile env filename) s.disk).2 }) := rfl

theorem erased_done (hx : Always env x) (h : Erased filename x) (d : Disk) :
    Allowed (discipline env) [(.rwlock, .exclusive)] x
        ({ x.1 with hash := x.1.hash.erase filename, disk := d }, withDisk x.2 d) ∧
      Settled .rwlock ({ x.1 with hash := x.1.hash.erase filename, disk := d },
        withDisk x.2 d) := by
  refine ⟨allowed_writer (by simp) ⟨rfl, fun other hother => ?_, hx.entries⟩
    (Or.inr fun hcache => ⟨hcache.list, hcache.content⟩),
      ⟨h.1.hash, h.1.next, h.1.clock, h.1.info⟩, h.2⟩
  rw [show (withDisk x.2 d).hash = x.1.hash.erase filename from h.1.hash] at hother
  exact hother

theorem follows_deregister (hh : Housed env) (hproper : Proper (.deregister filename)) :
    Follows (discipline env) (serve env) (.deregister filename) [] none
      (StoreLocks.deregister env filename) x := by
  intro y hy _ hs
  refine follows_act fun z hz hyz => ?_
  have hsettled := settled_keeps (by simp) hyz hs
  have herased : Erased filename (z.1, { z.2 with hash := z.2.hash.erase filename }) :=
    ⟨⟨congrArg (AList.erase filename) hsettled.1.hash, hsettled.1.next, hsettled.1.clock,
      hsettled.1.info⟩, hsettled.2⟩
  have halways := always_erase hz filename
  refine ⟨z.1, none, .still none, allowed_writer (by simp) halways
    (Or.inr fun hcache => ⟨hcache.list, hcache.content⟩), follows_act fun u hu hzu => ?_⟩
  have herasedu := erased_keeps herased hzu
  have hexists : ∀ v, Keeps env [(.rwlock, .exclusive)] u v →
      fileExists env (targetFile env filename) v.2.disk = fileExists env
        (targetFile env filename) u.2.disk :=
    fun v hk => fileExists_keeps hh (by simp) hu hproper (erased_free herasedu) hk
  cases hfile : fileExists env (targetFile env filename) u.2.disk with
  | false =>
    have hremove : removeIfExists env (targetFile env filename) u.1.disk = (true, u.2.disk) := by
      rw [← hu.disk, removeIfExists, hfile, if_neg Bool.false_ne_true]
    have hdone := erased_done hu herasedu u.2.disk
    refine ⟨_, _, serves_now ((serve_deregister u.1).trans (by rw [hremove])), hdone.1, ?_⟩
    rw [if_neg Bool.false_ne_true]
    exact follows_leave_writer _ hdone.2
  | true =>
    refine ⟨u.1, none, .still none, allowed_still hu, ?_⟩
    rw [if_pos rfl]
    refine follows_onDisk fun v hv (huv : Keeps env _ u v) => ?_
    have hremove : removeIfExists env (targetFile env filename) v.1.disk =
        removeRegularFile env (targetFile env filename) v.2.disk := by
      rw [← hv.disk, removeIfExists, hexists v huv, hfile, if_pos rfl]
    have hdone := erased_done hv (erased_keeps herasedu huv)
      (removeRegularFile env (targetFile env filename) v.2.disk).2
    refine ⟨_, _, serves_now ((serve_deregister v.1).trans (by rw [hremove])), hdone.1,
      follows_leave_writer _ hdone.2⟩

def Flagging (x : Store × Store) : Prop := Settled .rwlock (x.1, { x.2 with isDirty := true })

theorem flagging_keeps {held : Held Lock} (hheld : (.rwlock, .exclusive) ∈ held) (h : Flagging x)
    (hk : Keeps env held x y) :
    Flagging y :=
  whole_keeps (R := fun s t => Flagging (s, t))
    (fun _ _ _ _ h => ⟨⟨h.1.hash, h.1.next, h.1.clock, h.1.info⟩, h.2⟩) hheld hk h

theorem follows_setDirty {c : Call} {held : Held Lock} {done : Option Answer} {rest : Steps}
    (hheld : (.rwlock, .exclusive) ∈ held) (h : Flagging x)
    (hrest : ∀ y, Keeps env held x y → Settled .rwlock (y.1, { y.2 with isDirty := true }) →
      Follows (discipline env) (serve env) c held done rest (y.1, { y.2 with isDirty := true })) :
    Follows (discipline env) (serve env) c held done (setDirty rest) x := by
  refine follows_act fun y hy hk => ?_
  exact ⟨y.1, done, .still done, allowed_writer hheld ⟨hy.disk, hy.reserved, hy.entries⟩
    (Or.inr fun hcache => ⟨hcache.list, hcache.content⟩), hrest y hk (flagging_keeps hheld h hk)⟩

theorem insertNode_cache {s t : Store} {filesize : ℤ} (hrec : Records s t) (hcache : Cache s t) :
    Cache { insertNode filename filesize s with isDirty := true }
      (insertNode filename filesize t) := by
  refine ⟨hcache.list, fun i => ?_⟩
  simp only [insertNode, hrec.next]
  by_cases hi : i = s.nextNode
  · subst hi
    simp [newNode]
  · simp only [Function.update_of_ne hi]
    exact hcache.content i

theorem insertNode_records {s t : Store} {filesize : ℤ} (hrec : Records s t) :
    Records (insertNode filename filesize s) (insertNode filename filesize t) := by
  refine ⟨?_, ?_, ?_, fun i => ?_⟩
  · simp only [insertNode, hrec.hash, hrec.next]
  · simp only [insertNode, hrec.next]
  · simp only [insertNode, hrec.clock]
  · simp only [insertNode, hrec.next]
    by_cases hi : i = s.nextNode
    · subst hi
      simp [newNode, hrec.clock]
    · simp only [Function.update_of_ne hi]
      exact hrec.info i

theorem follows_insert (filesize : ℤ) :
    Follows (discipline env) (serve env) (.insert filename filesize) [] none
      (StoreLocks.insert filename filesize) x := by
  intro y hy _ hs
  refine follows_look fun z hz hyz => ?_
  have hsettled := settled_keeps (by simp) hyz hs
  by_cases hreserved : z.2.hash.lookup filename = some none
  · rw [if_pos hreserved]
    refine ⟨none, .still none, follows_act fun u hu hzu => ?_⟩
    have hsettledu := settled_keeps (by simp) hzu hsettled
    have hreservedu : u.2.hash.lookup filename = some none :=
      whole_keeps (R := fun _ t => t.hash.lookup filename = some none) (fun _ _ _ _ h => h)
        (by simp) hzu hreserved
    have hserve : serve env (.insert filename filesize) u.1 =
        (.done true, { insertNode filename filesize u.1 with isDirty := true }) := by
      rw [serve, insert_reserved filename filesize u.1 (by rw [← hsettledu.1.hash, hreservedu])]
      rfl
    have hrec : Records (insertNode filename filesize u.1) (insertNode filename filesize u.2) :=
      insertNode_records hsettledu.1
    have halways : Always env ({ insertNode filename filesize u.1 with isDirty := true },
      insertNode filename filesize u.2) :=
      always_insert hu (hu.entries filename (by rw [hreservedu]; rfl)) hu.disk rfl hrec.hash
    refine ⟨_, _, serves_now hserve,
      allowed_writer (by simp) halways (Or.inr (insertNode_cache hsettledu.1)), ?_⟩
    exact follows_setDirty (by simp) ⟨⟨hrec.hash, hrec.next, hrec.clock, hrec.info⟩, rfl⟩
      fun v _ hv => follows_leave_writer _ hv
  · rw [if_neg hreserved]
    refine ⟨_, serves_now ?_, follows_leave_writer _ hsettled⟩
    rw [hsettled.1.hash] at hreserved
    rw [serve, insert_refused filename filesize z.1 hreserved]

end Entries

structure Unlinked (filename : Bytes) (i : NodeId) (x : Store × Store) : Prop where
  settled : Settled .rwlock x
  cache : Cache (listRemove i x.1) x.2
  valid : validNode filename x.2 = some i

structure Deleting (filename : Bytes) (x : Store × Store) : Prop where
  settled : Settled .rwlock (x.1, { x.2 with hash := x.2.hash.erase filename, isDirty := true })
  cache : Cache x.1 x.2

theorem listRemove_withDisk (i : NodeId) (s : Store) (d : Disk) :
    listRemove i (withDisk s d) = withDisk (listRemove i s) d := by
  by_cases hin : i ∈ s.list
  · rw [listRemove, listRemove, if_pos (show i ∈ (withDisk s d).list from hin), if_pos hin]
    rfl
  · rw [listRemove, listRemove, if_neg (show i ∉ (withDisk s d).list from hin), if_neg hin]

section Delete
variable {env : Env} {x y : Store × Store} {filename : Bytes} {i : NodeId} {held : Held Lock}
  (hheld : (.rwlock, .exclusive) ∈ held) (hk : Keeps env held x y)
include hheld hk

theorem cache_whole (h : Cache x.1 x.2) : Cache y.1 y.2 :=
  whole_keeps (R := Cache) (fun _ _ _ _ h => ⟨h.list, h.content⟩) hheld hk h

theorem valid_whole (h : validNode filename x.2 = some i) : validNode filename y.2 = some i :=
  whole_keeps (R := fun _ t => validNode filename t = some i) (fun _ _ _ _ h => h) hheld hk h

theorem unlinked_keeps (h : Unlinked filename i x) : Unlinked filename i y where
  settled := settled_keeps hheld hk h.settled
  cache := whole_keeps (R := fun s t => Cache (listRemove i s) t) (fun s t d e h => by
    rw [listRemove_withDisk]
    exact ⟨h.list, h.content⟩) hheld hk h.cache
  valid := valid_whole hheld hk h.valid

theorem deleting_keeps (h : Deleting filename x) : Deleting filename y where
  settled := whole_keeps (R := fun s t =>
    Settled .rwlock (s, { t with hash := t.hash.erase filename, isDirty := true }))
    (fun _ _ _ _ h => ⟨⟨h.1.hash, h.1.next, h.1.clock, h.1.info⟩, h.2⟩) hheld hk h.settled
  cache := cache_whole hheld hk h.cache

end Delete

section Delete
variable {env : Env} {x y : Store × Store} {filename : Bytes} {i : NodeId}

theorem serve_delete (env : Env) {s : Store} (hvalid : validNode filename s = some i) :
    serve env (.delete filename) s =
    (.done (removeIfExists env (targetFile env filename) s.disk).1,
      { listRemove i s with
        hash := s.hash.erase filename, isDirty := true, disk :=
          (removeIfExists env (targetFile env filename) s.disk).2 }) := by
  rw [serve, DataManager.delete, hvalid]
  simp only [(listRemove_same i s).hash, (listRemove_same i s).disk]

theorem unlinked_done (hx : Always env x) (h : Unlinked filename i x) (d : Disk) :
    Allowed (discipline env) [(.node i, .exclusive), (.listMutex, .exclusive),
      (.rwlock, .exclusive)] x
        ({ listRemove i x.1 with hash := x.1.hash.erase filename, isDirty := true, disk := d },
          withDisk x.2 d) ∧
      Deleting filename
        ({ listRemove i x.1 with hash := x.1.hash.erase filename, isDirty := true, disk := d },
          withDisk x.2 d) := by
  have hlist := listRemove_listOnly i x.1
  refine ⟨allowed_writer (by simp) ⟨rfl, fun other hother => ?_, hx.entries⟩ (Or.inl (by simp)),
    ⟨⟨⟨?_, ?_, ?_, fun j => ?_⟩, rfl⟩, ⟨h.cache.list, h.cache.content⟩⟩⟩
  · have hne : other ≠ filename := by
      rintro rfl
      have hrecord := (validNode_iff _ _ _).mp h.valid
      rw [show x.2.hash.lookup other = some none from hother] at hrecord
      cases hrecord
    exact (AList.lookup_erase_ne hne).trans (hx.reserved other hother)
  · exact congrArg (AList.erase filename) h.settled.1.hash
  · exact h.settled.1.next.trans hlist.next.symm
  · exact h.settled.1.clock.trans hlist.clock.symm
  · exact (h.settled.1.info j).trans (hlist.info j).symm

theorem follows_leaveList_writer {c : Call} (answer : Answer) (hsettled : Settled .rwlock x)
    (hcache : Cache x.1 x.2) :
    Follows (discipline env) (serve env) c [(.listMutex, .exclusive), (.rwlock, .exclusive)]
      (some answer) (leaveList answer) x :=
  fun _ _ hk => ⟨fun _ => cache_whole (by simp) hk hcache, by
    have hwithout : without Lock.listMutex [(.listMutex, .exclusive), (.rwlock, .exclusive)] =
      [(.rwlock, .exclusive)] := rfl
    rw [hwithout]
    exact follows_leave_writer answer (settled_keeps (by simp) hk hsettled)⟩

theorem follows_eraseName {c : Call} {ok : Bool} (h : Deleting filename x) :
    Follows (discipline env) (serve env) c [(.node i, .exclusive), (.listMutex, .exclusive),
      (.rwlock, .exclusive)]
      (some (.done ok)) (eraseName i filename ok) x := by
  intro y hy hk
  have hy' := deleting_keeps (by simp) hk h
  refine ⟨fun _ => trivial, ?_⟩
  have hwithout : without (Lock.node i) [(.node i, .exclusive), (.listMutex, .exclusive),
    (.rwlock, .exclusive)] =
      [(.listMutex, .exclusive), (.rwlock, .exclusive)] := by simp [without]
  rw [hwithout]
  refine follows_act fun z hz hyz => ?_
  have hz' := deleting_keeps (by simp) hyz hy'
  have herase := always_erase hz filename
  refine ⟨z.1, _, .still _, allowed_writer (by simp) herase (Or.inl (by simp)),
    follows_setDirty (by simp) hz'.settled
    fun u hzu hu => follows_leaveList_writer _ hu ?_⟩
  have hcache := cache_whole (by simp) hzu (x :=
    (z.1, { z.2 with hash := z.2.hash.erase filename }))
    ⟨hz'.cache.list, hz'.cache.content⟩
  exact ⟨hcache.list, hcache.content⟩

theorem follows_unlink (hh : Housed env) (h : Unlinked filename i x) :
    Follows (discipline env) (serve env) (.delete filename)
      [(.node i, .exclusive), (.listMutex, .exclusive), (.rwlock, .exclusive)] none
      (.act id fun s =>
        if fileExists env (targetFile env filename) s.disk then
          onDisk (removeRegularFile env (targetFile env filename)) fun ok => eraseName i filename ok
        else eraseName i filename true) x := by
  refine follows_act fun y hy hk => ?_
  have hunlinked := unlinked_keeps (by simp) hk h
  have hrecord := (validNode_iff _ _ _).mp hunlinked.valid
  have hentry := hy.entries filename (by rw [hrecord]; rfl)
  have hserve : ∀ {z}, Unlinked filename i z → validNode filename z.1 = some i := fun hz =>
    (validNode_records hz.settled.1 filename).symm.trans hz.valid
  cases hfile : fileExists env (targetFile env filename) y.2.disk with
  | false =>
    have hremove : removeIfExists env (targetFile env filename) y.1.disk = (true, y.2.disk) := by
      rw [← hy.disk, removeIfExists, hfile, if_neg Bool.false_ne_true]
    have hdone := unlinked_done hy hunlinked y.2.disk
    refine ⟨_, _, serves_now ((serve_delete env (hserve hunlinked)).trans (by rw [hremove])),
      hdone.1, ?_⟩
    rw [if_neg Bool.false_ne_true]
    exact follows_eraseName hdone.2
  | true =>
    refine ⟨y.1, none, .still none, allowed_still hy, ?_⟩
    rw [if_pos rfl]
    refine follows_onDisk fun z hz (hyz : Keeps env _ y z) => ?_
    have hunlinkedz := unlinked_keeps (by simp) hyz hunlinked
    have hremove : removeIfExists env (targetFile env filename) z.1.disk =
        removeRegularFile env (targetFile env filename) z.2.disk := by
      rw [← hz.disk, removeIfExists, fileExists_keeps hh (by simp) hy hentry (by rw [hrecord]; simp)
        hyz, hfile, if_pos rfl]
    have hdone := unlinked_done hz hunlinkedz
      (removeRegularFile env (targetFile env filename) z.2.disk).2
    refine ⟨_, _, serves_now ((serve_delete env (hserve hunlinkedz)).trans (by rw [hremove])),
      hdone.1, follows_eraseName hdone.2⟩

theorem follows_delete (hh : Housed env) :
    Follows (discipline env) (serve env) (.delete filename) [] none
      (StoreLocks.delete env filename) x := by
  intro y hy _ hs
  refine follows_look fun z hz hyz => ?_
  have hsettled := settled_keeps (by simp) hyz hs
  cases hnode : validNode filename z.2 with
  | none =>
    refine ⟨_, serves_now ?_, follows_leave_writer _ hsettled⟩
    rw [serve, delete_refused env filename z.1 (by rw [← validNode_records hsettled.1, hnode])]
  | some i =>
    refine ⟨none, .still none, fun u hu hzu hcache => follows_act fun v hv huv => ?_⟩
    have hvalid : validNode filename v.2 = some i :=
      valid_whole (by simp) huv (valid_whole (by simp) hzu hnode)
    have hsettledv : Settled .rwlock v :=
      settled_keeps (by simp) huv (settled_keeps (by simp) hzu hsettled)
    have hcachev : Cache v.1 v.2 := cache_whole (by simp) huv hcache
    have hlist := listRemove_listOnly i v.2
    have hunlinked : Unlinked filename i (v.1, listRemove i v.2) :=
      ⟨⟨hsettledv.1.trans hlist.toRecords, hlist.dirty.trans hsettledv.2⟩,
        listRemove_cache hcachev i, (validNode_records hlist.toRecords filename).trans hvalid⟩
    have halways : Always env (v.1, listRemove i v.2) := by
      refine ⟨hlist.disk.trans hv.disk, ?_, ?_⟩
      · rw [hlist.hash]
        exact hv.reserved
      · rw [hlist.hash]
        exact hv.entries
    refine ⟨v.1, none, .still none, allowed_writer (by simp) halways (Or.inl (by simp)),
      fun a ha hva _ => ?_⟩
    exact follows_unlink hh (unlinked_keeps (by simp) hva hunlinked)

end Delete

theorem store_same {g s : Store} (hrecords : Records g s) (hdirty : s.isDirty = g.isDirty)
    (hcache : Cache g s)
    (hdisk : s.disk = g.disk) : g = s := by
  obtain ⟨hhash, hnext, hclock, hinfo⟩ := hrecords
  obtain ⟨hlist, hcontent⟩ := hcache
  have hnodes : s.nodes = g.nodes := funext fun i => by
    have hi := hinfo i
    have hc := hcontent i
    generalize s.nodes i = a at hi hc ⊢
    generalize g.nodes i = b at hi hc ⊢
    cases a
    cases b
    cases hi
    cases hc
    rfl
  cases g
  cases s
  cases hhash
  cases hnext
  cases hclock
  cases hlist
  cases hdirty
  cases hdisk
  cases hnodes
  rfl

section Calls
variable {env : Env} (hh : Housed env)
include hh

theorem follows_steps (c : Call) (x : Store × Store) (hproper : Proper c) :
    Follows (discipline env) (serve env) c [] none (steps env c) x := by
  cases c with
  | register filename => exact follows_register hh hproper
  | deregister filename => exact follows_deregister hh hproper
  | insert filename filesize => exact follows_insert filesize
  | delete filename => exact follows_delete hh
  | getFileInfoNode filename => exact follows_getFileInfoNode filename
  | getAllBackupInfo => exact follows_getAllBackupInfo
  | getFileSize filename => exact follows_getFileSize filename
  | getFilePreContent filename => exact follows_getFilePreContent filename
  | putFilePreContent filename content => exact follows_putFilePreContent filename content
  | readSegment i filename startPos endPos => exact follows_readSegment i filename startPos endPos
  | collect => exact follows_collect
  | clearFile =>
    exact follows_metaFile (clear env (metaFile env)) (clear_onlyAt env (metaFile env)) fun _ => rfl
  | appendFile infosStr =>
    exact follows_metaFile (appendContent env (metaFile env) infosStr)
      (appendContent_onlyAt env (metaFile env) infosStr)
      fun _ => rfl

omit hh in
theorem upload_allowed (u : Upload) (x : Store × Store) (s : Store) (hx : Always env x)
    (hs : upload env u x.2 = some s) :
    ∃ g, upload env u x.1 = some g ∧ Allowed (discipline env) [] x (g, s) := by
  unfold upload at hs ⊢
  split_ifs at hs with hreserved
  cases hs
  rw [if_pos (hx.reserved _ hreserved), ← hx.disk]
  exact ⟨_, rfl, allowed_disk hx _ (Or.inr (onlyAt_untouched (appendContent_onlyAt env _ _ _)
    (Or.inr ⟨u.filename, hreserved, rfl⟩)))⟩

section Runs
variable {n : ℕ} {s : Store}
  (hentries : ∀ filename, (s.hash.lookup filename).isSome = true → isEntry filename = true)
  {events : List (Event n Call Upload Answer)} (hproper : ∀ t c, Event.call t c ∈ events → Proper c)
  {w : System n Lock Store Answer}

include hentries hproper in
theorem calls_refine (hrun : run (next env) (System.start s) events = some w) :
    ∃ moments service, run (happen (serve env) (upload env))
      (Service.start s) moments = some service ∧
      moments.filterMap shown = events.filterMap seen ∧
        Refines (discipline env) (serve env) w service := by
  have hstart : Refines (discipline env) (serve env) (System.start (n := n) s) (Service.start s) :=
    refines_start ⟨rfl, fun _ h => h, hentries⟩ fun k => by
      cases k with
      | rwlock => exact ⟨Records.refl s, rfl⟩
      | listMutex => exact Cache.refl s
      | node i => trivial
  exact run_refines (fun c x hc _ => follows_steps hh c x hc) upload_allowed hstart hproper hrun

omit hh in
theorem refines_same {service : Service n Call Store Answer}
    (hrefines : Refines (discipline env) (serve env) w service)
    (hheld : ∀ t, (w.threads t).held = []) : service.state = w.state := by
  have hfree : ∀ k t, (k, Mode.exclusive) ∉ (w.threads t).held := fun k t => by
    rw [hheld t]
    exact List.not_mem_nil
  have hsettled := hrefines.settled .rwlock (hfree .rwlock)
  exact store_same hsettled.1 hsettled.2 (hrefines.settled .listMutex (hfree .listMutex))
    hrefines.always.disk

end Runs

/-- Whatever any number of threads does at the data manager, there is an order of moments, each
between the start and the return of its call, at which the calls served at once by
`DataManager` give the same results; when no call is in progress the states agree. -/
theorem calls_atomic {n : ℕ} (s : Store)
    (hentries : ∀ filename, (s.hash.lookup filename).isSome = true → isEntry filename = true)
    (events : List (Event n Call Upload Answer))
    (hproper : ∀ t c, Event.call t c ∈ events → Proper c)
    (w : System n Lock Store Answer) (hrun : run (next env) (System.start s) events = some w) :
    ∃ moments service, run (happen (serve env) (upload env))
      (Service.start s) moments = some service ∧
      moments.filterMap shown = events.filterMap seen ∧
        ((∀ t, w.threads t = .idle) → service.state = w.state) := by
  obtain ⟨moments, service, hservice, hshown, hrefines⟩ := calls_refine hh hentries hproper hrun
  refine ⟨moments, service, hservice, hshown, fun hidle => refines_same hrefines fun t => ?_⟩
  rw [hidle t]
  rfl

end Calls

def registeredStore : Store :=
  { freshStore with hash := (∅ : Table (Option NodeId)).insert (bytes "a") none }

def insertEvents : List (Event 2 Call Upload Answer) :=
  [.call 1 .getAllBackupInfo, .call 0 (.insert (bytes "a") 3), .step 0, .step 0,
    .environment ⟨bytes "a", [1]⟩, .step 0,
    .step 0, .step 0, .step 0, .step 1, .step 1, .step 1, .step 1, .ret 0 (.done true),
      .ret 1 (.infos [⟨bytes "a", 3, 0⟩])]

theorem calls_atomic_insert :
    ∃ w, run (next plainEnv) (System.start registeredStore) insertEvents = some w ∧
    ∃ moments service, run (happen (serve plainEnv) (upload plainEnv))
        (Service.start registeredStore) moments = some service ∧
      moments.filterMap shown = insertEvents.filterMap seen ∧
        ((∀ t, w.threads t = .idle) → service.state = w.state) := by
  refine ⟨_, rfl, calls_atomic plainEnv_housed registeredStore (fun filename h => ?_) insertEvents
    (fun t c hc => ?_) _ rfl⟩
  · by_cases hname : filename = bytes "a"
    · rw [hname]
      decide
    · rw [registeredStore, AList.lookup_insert_ne hname] at h
      cases h
  · simp only [insertEvents, List.mem_cons, List.not_mem_nil, or_false, reduceCtorEq,
      Event.call.injEq] at hc
    rcases hc with ⟨-, rfl⟩ | ⟨-, rfl⟩
    · trivial
    · trivial

end CloudBackup.StoreAtomicity
