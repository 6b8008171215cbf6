import CloudBackup.PathNormalisation

/-!
# Accepted names below a directory

The path of a file is spelled as a directory, a slash and an accepted name.
Both spellings are normalised by the same walk, so the name becomes the last
component, unless it is one of the two that normalising takes away.
-/

set_option autoImplicit false

namespace CloudBackup.DirectChildren
open CloudBackup.ByteStrings CloudBackup.FilePath CloudBackup.CanonicalPaths
  CloudBackup.PathNormalisation
open CloudBackup.BackupDirectory (isPath_expand)

theorem untilded_append (env : Env) {dir : Bytes} (hdir : dir ≠ []) (t : Bytes) :
    untilded env (dir ++ slash::t) = untilded env dir ++ slash::t := by
  rw [untilded, untilded, List.splitOn_append_cons_self,
    List.head?_append_of_ne_nil _ (List.splitOn_ne_nil slash dir)]
  split_ifs
  · rw [List.drop_append_of_le_length (List.length_pos_iff.mpr hdir), List.append_assoc]
  · rfl

theorem untilded_ne_nil (env : Env) {dir : Bytes} (hdir : isPath env dir ≠ []) :
    untilded env dir ≠ [] := by
  intro h
  rw [untilded_eq] at h
  by_cases htilde : underHome dir = true
  · obtain ⟨hroot, p, hp, -⟩ := accepted_home hdir htilde
    rw [if_pos htilde, hp, Option.getD_some] at h
    apply hdir
    rw [isPath_expand env dir (by simp [accepted_ne_nil hdir, hroot]), BackupDirectory.expand,
      if_pos htilde, hp, Option.map_some, h]
    split_ifs <;> rfl
  · rw [if_neg htilde] at h
    exact accepted_ne_nil hdir h

theorem untilded_absolute (env : Env) {s : Bytes} (h : s.head? = some slash) :
    untilded env s = s := by
  rw [untilded_eq, underHome_absolute h]
  rfl

theorem locate_child (cwd s : Bytes) {name : Bytes} (h : slash ∉ name) :
    locate cwd (s ++ slash::name) = enter (locate cwd (s ++ [slash])) name := by
  have hhead : (s ++ slash::name).head? = (s ++ [slash]).head? := by cases s <;> rfl
  rw [locate, locate, hhead, resolve_slash, resolve_trail, resolve_free _ h]

theorem locate_trail (cwd : Bytes) {s : Bytes} (h : s ≠ []) :
    locate cwd (s ++ [slash]) = locate cwd s := by
  rw [locate, locate, head_append h, resolve_trail]

theorem destination_child (env : Env) {dir : Bytes} (hdir : isPath env dir ≠ []) {name : Bytes}
    (hname : slash ∉ name) :
    destination env (withSlash dir ++ name) = enter (destination env dir) name := by
  have hne := accepted_ne_nil hdir
  rw [destination, destination, withSlash]
  split_ifs with hend
  · obtain ⟨d, rfl⟩ := List.getLast?_eq_some_iff.mp (of_decide_eq_true hend)
    rw [List.append_assoc, List.singleton_append]
    by_cases hd : d = []
    · rw [hd, List.nil_append, List.nil_append, untilded_absolute env rfl,
        untilded_absolute env rfl]
      exact locate_child env.cwd [] hname
    · rw [untilded_append env hd, untilded_append env hd, locate_child env.cwd _ hname]
  · rw [List.append_assoc, List.singleton_append, untilded_append env hne,
      locate_child env.cwd _ hname, locate_trail env.cwd (untilded_ne_nil env hdir)]

theorem pathOf_child {P Q : Place} {name : Bytes} (hfree : slash ∉ name)
    (h : pathOf Q = pathOf P ++ slash::name) :
    P ≠ [] ∧ name ≠ bytes "." ∧ name ≠ bytes ".." := by
  obtain ⟨t, ht⟩ := List.head?_eq_some_iff.mp (pathOf_head P)
  rw [ht] at h
  have hlong : pathOf Q ≠ [slash] := by
    rw [h]
    simp
  have hcomp := (canonical_pathOf Q).components hlong
  have hsplit : ((pathOf Q).drop 1).splitOn slash = t.splitOn slash ++ [name] := by
    rw [h, List.cons_append, List.drop_one, List.tail_cons, List.splitOn_append_cons_self,
      List.splitOn_eq_singleton hfree]
  rw [hsplit] at hcomp
  have hname := hcomp name (by simp)
  refine ⟨?_, hname.2⟩
  rintro rfl
  obtain rfl : t = [] := (List.cons.inj ht).2.symm
  exact (hcomp [] (by simp)).1 rfl

/-- The file of an accepted name is a direct child of the directory and carries that name,
unless the name is `.` or `..` or the directory is the root under some spelling. -/
theorem pathTransform_child_iff (env : Env) (hcwd : Canonical env.cwd) (dir : Bytes)
    (hdir : pathTransform env dir ≠ [])
    (name : Bytes) (hname : checkFilename name = true) :
    pathTransform env (withSlash dir ++ name) = pathTransform env dir ++ slash::name ↔
      name ≠ bytes "." ∧ name ≠ bytes ".." ∧ destination env dir ≠ [] := by
  obtain ⟨hne, hfree, -⟩ := (checkFilename_iff name).mp hname
  have haccepted : isPath env dir ≠ [] := fun h => hdir (pathTransform_refused env h)
  have hchild : isPath env (withSlash dir ++ name) ≠ [] := by
    obtain ⟨r, hr, -, hspell⟩ := isPath_child env dir haccepted
    rw [hspell name hne hfree]
    exact List.append_ne_nil_of_left_ne_nil hr name
  rw [pathTransform_destination env hcwd hchild, pathTransform_destination env hcwd haccepted,
    destination_child env haccepted hfree]
  constructor
  · intro h
    obtain ⟨hroot, hdot, hdots⟩ := pathOf_child hfree h
    exact ⟨hdot, hdots, hroot⟩
  · rintro ⟨hdot, hdots, hroot⟩
    obtain ⟨c, rfl⟩ := exists_component hne hfree hdot hdots
    rw [enter_component, pathOf_snoc, dirOf_pathOf hroot, List.append_assoc, List.singleton_append]

theorem pathTransform_child_file :
    pathTransform plainEnv (withSlash (bytes "tmp/.././backup/") ++ bytes "a.txt") =
        pathTransform plainEnv (bytes "tmp/.././backup/") ++ slash::bytes "a.txt" ↔
      bytes "a.txt" ≠ bytes "." ∧ bytes "a.txt" ≠ bytes ".." ∧
        destination plainEnv (bytes "tmp/.././backup/") ≠ [] :=
  pathTransform_child_iff plainEnv (canonical_pathOf []) (bytes "tmp/.././backup/") (by decide)
    (bytes "a.txt") (by decide)

/-- The name of the directory above is accepted, and leads out of the backup directory. -/
theorem parent_escapes :
    checkFilename (bytes "..") = true ∧ pathTransform plainEnv (bytes "/backup") = bytes "/backup" ∧
    pathTransform plainEnv (withSlash (bytes "/backup") ++ bytes "..") = bytes "/" := by
  decide

end CloudBackup.DirectChildren
