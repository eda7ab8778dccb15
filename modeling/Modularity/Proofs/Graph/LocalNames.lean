import Modularity.Proofs.Graph.Conditions
import Modularity.Proofs.Namespace.Renaming

namespace Modularity

namespace Namespace

variable {ancestor name : String}

theorem child_relativeTo (hwithin : isWithin ancestor name) (hne : name ≠ ancestor) :
    child ancestor (relativeTo ancestor name) = name := by
  by_cases hroot : ancestor = ""
  · subst hroot
    rfl
  · rw [child, if_neg hroot]
    exact below_relativeTo hroot hwithin hne

/-- The byte after the ancestor and its dot starts a character, or is the end, and the part relative to the
ancestor starts there. -/
theorem exists_pos_relativeTo (hroot : ancestor ≠ "") (hwithin : isWithin ancestor name)
    (hne : name ≠ ancestor) :
    ∃ p : name.Pos, p.offset.byteIdx = ancestor.utf8ByteSize + 1 ∧
      (name.sliceFrom p).copy = relativeTo ancestor name := by
  have hparts : name = ancestor ++ "." ++ relativeTo ancestor name :=
    (below_relativeTo hroot hwithin hne).symm
  have hsplits := String.Pos.splits_ofEqAppend hparts
  refine ⟨String.Pos.ofEqAppend hparts, ?_, hsplits.copy_sliceFrom_eq⟩
  rw [hsplits.offset_eq_rawEndPos, String.byteIdx_rawEndPos, String.utf8ByteSize_append]
  rfl

end Namespace

namespace Layout

open Namespace

variable {c : Codebase} {o : GraphOptions} {k l : Candidate}

theorem IsCandidate.isWithin (hk : IsCandidate c o k) : isWithin k.root k.space := by
  cases hd : o.detection with
  | directSubspaces => exact isWithin_of_parent ((isCandidate_iff_of_direct hd).1 hk).2.2
  | declaredSpaces => exact ((isCandidate_iff_of_declared hd).1 hk).2.2

/-- No candidate of a root lies within another one: they all stand directly below the root, or nothing is
declared within what is declared. -/
theorem IsCandidate.space_eq (hplaced : Condition.placed.Holds c o) (hk : IsCandidate c o k)
    (hl : IsCandidate c o l) (hroot : k.root = l.root) (hwithin : Namespace.isWithin k.space l.space) :
    k.space = l.space := by
  cases hd : o.detection with
  | directSubspaces =>
    have hkparent := ((isCandidate_iff_of_direct hd).1 hk).2.2
    have hlparent := ((isCandidate_iff_of_direct hd).1 hl).2.2
    rw [← hroot] at hlparent
    exact ((isWithin_iff_of_parent hlparent).1 hwithin).resolve_right (not_isWithin_parent hkparent)
  | declaredSpaces =>
    have hkdeclares := ((isCandidate_iff_of_declared hd).1 hk).2.1
    have hldeclares := ((isCandidate_iff_of_declared hd).1 hl).2.1
    simp only [Condition.Holds, hd] at hplaced
    exact (hplaced _ _ hkdeclares hldeclares hwithin).symm

theorem IsCandidate.space_eq_of_relativeTo (hplaced : Condition.placed.Holds c o) (hk : IsCandidate c o k)
    (hl : IsCandidate c o l) (hroot : k.root = l.root)
    (hname : relativeTo k.root k.space = relativeTo l.root l.space) : k.space = l.space := by
  have hkwithin := hk.isWithin
  have hlwithin := hl.isWithin
  -- a module on the root itself keeps its whole name, with which a local one might clash, but then it is the
  -- only module of the root
  by_cases hkself : k.space = k.root
  · exact hk.space_eq hplaced hl hroot (by rw [hkself, hroot]; exact hlwithin)
  by_cases hlself : l.space = l.root
  · exact (hl.space_eq hplaced hk hroot.symm (by rw [hlself, ← hroot]; exact hkwithin)).symm
  rw [← child_relativeTo hkwithin hkself, ← child_relativeTo hlwithin hlself, hname, hroot]

end Layout

namespace ModuleGraph

open Layout Namespace

variable {c : Codebase} {o : GraphOptions} {name first second : String}

theorem candidates_of_duplicate (hc : c.Coherent)
    (h : MayFail c o (.duplicateModule name first second)) :
    ∃ k l, IsCandidate c o k ∧ IsCandidate c o l ∧ k.space = first ∧ l.space = second ∧
      first ≠ second ∧ k.moduleName o.naming = name ∧ l.moduleName o.naming = name ∧
      HoldsBefore c o Condition.distinct.rank := by
  obtain ⟨_, hbuild⟩ := h
  obtain ⟨_, hfault, hbefore⟩ := refused_of_build hc hbuild
  cases hfault with
  | duplicateModule hk hl hne hname => exact ⟨_, _, hk, hl, rfl, rfl, hne, rfl, hname.symm, hbefore⟩

/-- A name relative to a namespace is inverted by the child of that name, and it is a slice that starts where
a character does. No two modules share a name if they are named by their whole namespaces. If they are
named by the parts below their roots, two that share one lie in different roots, and in no root both. -/
theorem local_names (hc : c.Reachable) (o : GraphOptions) :
    (∀ ancestor name, isWithin ancestor name → name ≠ ancestor →
      child ancestor (relativeTo ancestor name) = name) ∧
    (∀ ancestor name, ancestor ≠ "" → isWithin ancestor name → name ≠ ancestor →
      ∃ p : name.Pos, p.offset.byteIdx = ancestor.utf8ByteSize + 1 ∧
        (name.sliceFrom p).copy = relativeTo ancestor name) ∧
    (o.naming = .qualified → ∀ name first second,
      ¬ MayFail c o (.duplicateModule name first second)) ∧
    (o.naming = .relative → ∀ name first second,
      MayFail c o (.duplicateModule name first second) →
      ∃ r ∈ trimmedRoots o.roots, ∃ r' ∈ trimmedRoots o.roots, r ≠ r' ∧
        isWithin r first ∧ isWithin r' second ∧
        relativeTo r first = name ∧ relativeTo r' second = name ∧
        ∀ root ∈ trimmedRoots o.roots, ¬ (isWithin root first ∧ isWithin root second)) := by
  refine ⟨fun _ _ ↦ child_relativeTo, fun _ _ ↦ exists_pos_relativeTo, fun hnaming name first second h ↦ ?_,
    fun hnaming name first second h ↦ ?_⟩
  · obtain ⟨k, l, -, -, rfl, rfl, hne, hkname, hlname, -⟩ := candidates_of_duplicate hc.coherent h
    rw [hnaming] at hkname hlname
    exact hne (hkname.trans hlname.symm)
  · obtain ⟨k, l, hk, hl, rfl, rfl, hne, hkname, hlname, hbefore⟩ :=
      candidates_of_duplicate hc.coherent h
    rw [hnaming] at hkname hlname
    have hapart : Condition.apart.Holds c o := hbefore .apart (by decide)
    have hroots : k.root ≠ l.root := fun hroot ↦
      hne (hk.space_eq_of_relativeTo (hbefore .placed (by decide)) hl hroot (hkname.trans hlname.symm))
    refine ⟨k.root, hk.1, l.root, hl.1, hroots, hk.isWithin, hl.isWithin, hkname, hlname, ?_⟩
    intro root hmem hin
    have hkroot := root_unique hapart hmem hk.1 hin.1 hk.isWithin
    exact hroots (hkroot.symm.trans (root_unique hapart hmem hl.1 hin.2 hl.isWithin))

def arcade : Codebase :=
  Codebase.index #[.ofName "east.orders.Order", .ofName "west.orders.Order"] (.replicate 2 true) .empty

theorem arcade_reachable : arcade.Reachable :=
  @Codebase.Reachable.assembled arcade.arena.toList [] _ rfl

/-- The orders of the two shops of the arcade can be told apart by their whole names only. In a name the part
below a root may start at a byte that is no number of characters. -/
theorem local_names_arcade :
    arcade.Reachable ∧
    child "café" (relativeTo "café" "café.orders") = "café.orders" ∧
    (∃ p : String.Pos "café.orders", p.offset.byteIdx = 6 ∧
      (("café.orders" : String).sliceFrom p).copy = relativeTo "café" "café.orders") ∧
    (∀ name first second, ¬ MayFail arcade { roots := ["east", "west"], naming := .qualified }
      (.duplicateModule name first second)) ∧
    build arcade { roots := ["east", "west"], naming := .relative } =
      .error (.duplicateModule "orders" "east.orders" "west.orders") ∧
    ∃ r r', r ≠ r' ∧ isWithin r "east.orders" ∧ isWithin r' "west.orders" := by
  have herror : build arcade { roots := ["east", "west"], naming := .relative } =
      .error (.duplicateModule "orders" "east.orders" "west.orders") :=
    (@map_error_iff _ Unit _ _ (fun _ ↦ ()) _).1 (by decide +kernel)
  have hwithin : isWithin "café" "café.orders" := by decide +kernel
  obtain ⟨hchild, hslice, -, hclash⟩ := local_names arcade_reachable
    { roots := ["east", "west"], naming := .relative }
  obtain ⟨-, -, hqualified, -⟩ := local_names arcade_reachable
    { roots := ["east", "west"], naming := .qualified }
  obtain ⟨r, -, r', -, hne, hin, hin', -⟩ := hclash rfl _ _ _ ⟨0, herror⟩
  exact ⟨arcade_reachable, hchild _ _ hwithin (by decide), hslice _ _ (by decide) hwithin (by decide),
    hqualified rfl, herror, r, r', hne, hin, hin'⟩

end ModuleGraph

end Modularity
