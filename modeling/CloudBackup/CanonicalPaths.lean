import CloudBackup.ByteStrings

/-!
# Places in a file system and their canonical paths

A place is the list of components that lead to it from the root, so the text
of a place is canonical by construction. A path is resolved from a place
component by component; nothing lies above the root.
-/

set_option autoImplicit false

namespace CloudBackup.CanonicalPaths
open CloudBackup.ByteStrings

structure Component where
  text : Bytes
  nonempty : text ≠ []
  unbroken : slash ∉ text
  ne_dot : text ≠ bytes "."
  ne_dots : text ≠ bytes ".."

abbrev Place := List Component

def below (P : Place) : Bytes := P.flatMap fun c => slash::c.text

/-- With a slash at its end. -/
def dirOf (P : Place) : Bytes := below P ++ [slash]

def pathOf (P : Place) : Bytes := if P = [] then [slash] else below P

/-- One component of a path; the place above is the list without its last component. -/
def enter (P : Place) (comp : Bytes) : Place :=
  if comp = [] then P
  else if comp = bytes "." then P
  else if comp = bytes ".." then P.dropLast
  else if h : comp ≠ [] ∧ slash ∉ comp ∧ comp ≠ bytes "." ∧ comp ≠ bytes ".." then
    P ++ [⟨comp, h.1, h.2.1, h.2.2.1, h.2.2.2⟩]
  else P

def resolve (P : Place) (path : Bytes) : Place := (path.splitOn slash).foldl enter P

structure Canonical (s : Bytes) : Prop where
  absolute : s.head? = some slash
  components : s ≠ [slash] → ∀ comp ∈ (s.drop 1).splitOn slash,
    comp ≠ [] ∧ comp ≠ bytes "." ∧ comp ≠ bytes ".."
  trailing : s.getLast? = some slash → s = [slash]

theorem below_nil : below [] = [] := rfl

theorem below_cons (c : Component) (P : Place) : below (c::P) = slash::(c.text ++ below P) := rfl

theorem below_snoc (P : Place) (c : Component) : below (P ++ [c]) = dirOf P ++ c.text := by
  simp [below, dirOf]

theorem dirOf_root : dirOf [] = [slash] := rfl

theorem pathOf_root : pathOf [] = [slash] := rfl

theorem pathOf_snoc (P : Place) (c : Component) : pathOf (P ++ [c]) = dirOf P ++ c.text := by
  rw [pathOf, if_neg (by simp), below_snoc]

theorem pathOf_below {P : Place} (h : P ≠ []) : pathOf P = below P := if_neg h

theorem dirOf_pathOf {P : Place} (h : P ≠ []) : dirOf P = pathOf P ++ [slash] := by
  rw [pathOf_below h, dirOf]

theorem pathOf_head (P : Place) : (pathOf P).head? = some slash := by
  cases P with
  | nil => rfl
  | cons c P => rfl

theorem pathOf_ne_nil (P : Place) : pathOf P ≠ [] := by
  cases P with
  | nil => exact List.cons_ne_nil _ _
  | cons c P => exact List.cons_ne_nil _ _

theorem pathOf_last {P : Place} (h : P ≠ []) : (pathOf P).getLast? ≠ some slash := by
  induction P using List.reverseRecOn with
  | nil => exact absurd rfl h
  | append_singleton P c _ =>
    rw [pathOf_snoc, List.getLast?_append_of_ne_nil _ c.nonempty]
    exact fun hlast => c.unbroken (List.mem_of_getLast? hlast)

@[elab_as_elim]
theorem text_induction {motive : Bytes → Prop} (free : ∀ s, slash ∉ s → motive s)
    (behind : ∀ front rest, slash ∉ front → motive rest → motive (front ++ slash::rest))
    (s : Bytes) : motive s := by
  induction hlen : s.length using Nat.strong_induction_on generalizing s with
  | _ n ih =>
    by_cases h : slash ∈ s
    · obtain ⟨front, rest, rfl, hfront⟩ := List.eq_append_cons_of_mem h
      have hshort : rest.length < n := by
        rw [← hlen, List.length_append, List.length_cons]
        omega
      exact behind front rest hfront (ih _ hshort rest rfl)
    · exact free s h

theorem splitOn_free (s : Bytes) : ∀ comp ∈ s.splitOn slash, slash ∉ comp := by
  induction s using text_induction with
  | free s h =>
    rw [List.splitOn_eq_singleton h]
    intro comp hcomp
    rw [List.mem_singleton.mp hcomp]
    exact h
  | behind front rest hfront ih =>
    rw [List.splitOn_append_cons_self_of_not_mem hfront]
    intro comp hcomp
    cases List.mem_cons.mp hcomp with
    | inl heq =>
      rw [heq]
      exact hfront
    | inr hrest => exact ih comp hrest

theorem enter_empty (P : Place) : enter P [] = P := if_pos rfl

theorem enter_dot (P : Place) : enter P (bytes ".") = P := by
  rw [enter, if_neg (by decide), if_pos rfl]

theorem enter_dots (P : Place) : enter P (bytes "..") = P.dropLast := by
  rw [enter, if_neg (by decide), if_neg (by decide), if_pos rfl]

theorem enter_component (P : Place) (c : Component) : enter P c.text = P ++ [c] := by
  rw [enter, if_neg c.nonempty, if_neg c.ne_dot, if_neg c.ne_dots,
    dif_pos ⟨c.nonempty, c.unbroken, c.ne_dot, c.ne_dots⟩]

theorem exists_component {comp : Bytes} (hne : comp ≠ []) (hfree : slash ∉ comp)
    (hdot : comp ≠ bytes ".") (hdots : comp ≠ bytes "..") : ∃ c : Component, c.text = comp :=
  ⟨⟨comp, hne, hfree, hdot, hdots⟩, rfl⟩

theorem resolve_slash (P : Place) (s t : Bytes) :
    resolve P (s ++ slash::t) = resolve (resolve P s) t := by
  rw [resolve, List.splitOn_append_cons_self, List.foldl_append]
  rfl

theorem resolve_free (P : Place) {s : Bytes} (h : slash ∉ s) : resolve P s = enter P s := by
  rw [resolve, List.splitOn_eq_singleton h]
  rfl

theorem resolve_nil (P : Place) : resolve P [] = P := by
  rw [resolve_free P List.not_mem_nil, enter_empty]

theorem resolve_lead (P : Place) (t : Bytes) : resolve P (slash::t) = resolve P t := by
  have h := resolve_slash P [] t
  rw [resolve_nil] at h
  exact h

theorem resolve_trail (P : Place) (s : Bytes) : resolve P (s ++ [slash]) = resolve P s := by
  rw [resolve_slash, resolve_nil]

theorem resolve_below (P Q : Place) : resolve P (below Q) = P ++ Q := by
  induction Q using List.reverseRecOn with
  | nil => rw [below_nil, resolve_nil, List.append_nil]
  | append_singleton Q c ih =>
    rw [below_snoc, dirOf, List.append_assoc, List.singleton_append, resolve_slash, ih,
      resolve_free _ c.unbroken, enter_component, List.append_assoc]

theorem resolve_pathOf (P : Place) : resolve [] (pathOf P) = P := by
  by_cases h : P = []
  · rw [h]
    exact (resolve_lead [] []).trans (resolve_nil [])
  · rw [pathOf_below h, resolve_below, List.nil_append]

theorem splitOn_below (c : Component) (P : Place) :
    ((below (c::P)).drop 1).splitOn slash = (c::P).map Component.text := by
  induction P generalizing c with
  | nil =>
    rw [below_cons, below_nil, List.append_nil, List.drop_one, List.tail_cons,
      List.splitOn_eq_singleton c.unbroken]
    rfl
  | cons d P ih =>
    rw [below_cons, below_cons, List.drop_one, List.tail_cons,
      List.splitOn_append_cons_self_of_not_mem c.unbroken, List.map_cons, ← ih d]
    rfl

theorem canonical_pathOf (P : Place) : Canonical (pathOf P) := by
  constructor
  · exact pathOf_head P
  · intro hroot comp hcomp
    cases P with
    | nil => exact absurd rfl hroot
    | cons c P =>
      rw [pathOf_below (List.cons_ne_nil c P), splitOn_below] at hcomp
      obtain ⟨d, -, rfl⟩ := List.mem_map.mp hcomp
      exact ⟨d.nonempty, d.ne_dot, d.ne_dots⟩
  · intro hlast
    by_cases h : P = []
    · rw [h, pathOf_root]
    · exact absurd hlast (pathOf_last h)

theorem enter_good (P : Place) (comps : List Bytes) (hfree : ∀ comp ∈ comps, slash ∉ comp)
    (hgood : ∀ comp ∈ comps, comp ≠ [] ∧ comp ≠ bytes "." ∧ comp ≠ bytes "..") :
    below (comps.foldl enter P) = below P ++ comps.flatMap fun comp => slash::comp := by
  induction comps generalizing P with
  | nil => simp
  | cons comp comps ih =>
    obtain ⟨hne, hdot, hdots⟩ := hgood comp List.mem_cons_self
    obtain ⟨c, rfl⟩ := exists_component hne (hfree comp List.mem_cons_self) hdot hdots
    rw [List.foldl_cons, enter_component, ih _ (fun d hd => hfree d (List.mem_cons_of_mem _ hd))
      (fun d hd => hgood d (List.mem_cons_of_mem _ hd)), below_snoc]
    simp [dirOf]

theorem intercalate_lead (comp : Bytes) (comps : List Bytes) :
    (comp::comps).flatMap (fun c => slash::c) = slash::[slash].intercalate (comp::comps) := by
  induction comps generalizing comp with
  | nil => simp
  | cons d comps ih => rw [List.flatMap_cons, ih, List.intercalate_cons_cons]; simp

theorem canonical_place {s : Bytes} (h : Canonical s) : ∃ P, s = pathOf P := by
  obtain ⟨t, rfl⟩ := List.head?_eq_some_iff.mp h.absolute
  by_cases hroot : slash::t = [slash]
  · exact ⟨[], hroot⟩
  · have hgood := h.components hroot
    rw [List.drop_one, List.tail_cons] at hgood
    obtain ⟨comp, comps, hsplit⟩ := List.exists_cons_of_ne_nil (List.splitOn_ne_nil slash t)
    have hbelow : below (resolve [] t) = slash::t := by
      rw [resolve, enter_good [] _ (splitOn_free t) hgood, below_nil, List.nil_append, hsplit,
        intercalate_lead, ← hsplit, List.intercalate_splitOn]
    refine ⟨resolve [] t, ?_⟩
    rw [pathOf_below (fun e => by rw [e] at hbelow; cases hbelow), hbelow]

theorem canonical_iff (s : Bytes) : Canonical s ↔ ∃ P, s = pathOf P := by
  constructor
  · exact canonical_place
  · rintro ⟨P, rfl⟩
    exact canonical_pathOf P

end CloudBackup.CanonicalPaths
