import Modularity.Graph.Basic
import Modularity.Proofs.Codebase.Queries
import Modularity.Proofs.Except

namespace Modularity

namespace Layout

open Namespace

variable {c : Codebase} {roots : List String}

theorem overlap?_eq_none :
    overlap? roots = none ↔ roots.Pairwise fun a b ↦ ¬ isWithin a b ∧ ¬ isWithin b a := by
  induction roots with
  | nil => simp [overlap?]
  | cons outer rest ih =>
    rw [List.pairwise_cons, ← ih, overlap?]
    split
    · rename_i inner hfind
      have hover := List.find?_some hfind
      simp only [Bool.or_eq_true] at hover
      simp only [reduceCtorEq, false_iff, not_and]
      intro hrest
      have hapart := hrest inner (List.mem_of_find?_eq_some hfind)
      exact absurd hover (not_or.2 hapart)
    · rename_i hfind
      rw [List.find?_eq_none] at hfind
      constructor
      · exact fun h ↦ ⟨fun b hb ↦ not_or.1 (by simpa using hfind b hb), h⟩
      · exact fun h ↦ h.2

theorem checkedRoots_eq_ok {stated : List String} :
    checkedRoots c stated = .ok roots ↔
      roots = trimmedRoots stated ∧ roots ≠ [] ∧
        (∀ root ∈ roots, root ≠ "" → c.hasNamespace root) ∧
          roots.Pairwise fun a b ↦ ¬ isWithin a b ∧ ¬ isWithin b a := by
  unfold checkedRoots
  dsimp only
  split
  · rename_i hempty
    simp only [reduceCtorEq, false_iff, not_and]
    intro hx hne
    subst hx
    exact absurd (List.isEmpty_iff.1 hempty) hne
  · rename_i hne
    rw [List.isEmpty_iff] at hne
    split
    · rename_i root hfind
      simp only [reduceCtorEq, false_iff, not_and]
      intro hy _ hall
      subst hy
      have hroot := List.find?_some hfind
      simp only [ne_eq, Bool.and_eq_true, decide_eq_true_eq, Bool.not_eq_true'] at hroot
      have hknown := hall root (List.mem_of_find?_eq_some hfind) hroot.1
      rw [hroot.2] at hknown
      nomatch hknown
    · rename_i outer inner hfind hover
      simp only [reduceCtorEq, false_iff, not_and]
      intro hz _ _ hpair
      subst hz
      rw [overlap?_eq_none.2 hpair] at hover
      nomatch hover
    · rename_i hfind hover
      rw [Except.ok.injEq]
      constructor
      · intro hw
        subst hw
        refine ⟨rfl, hne, fun root hroot hroot' ↦ ?_, overlap?_eq_none.1 hover⟩
        have hnot := List.find?_eq_none.1 hfind root hroot
        simpa [hroot'] using hnot
      · exact fun h ↦ h.1.symm

theorem eq_of_isWithin (hpair : roots.Pairwise fun a b ↦ ¬ isWithin a b ∧ ¬ isWithin b a)
    {r s : String} (hr : r ∈ roots) (hs : s ∈ roots) (h : isWithin r s) : r = s := by
  induction roots with
  | nil => nomatch hr
  | cons first rest ih =>
    rw [List.pairwise_cons] at hpair
    rcases List.mem_cons.1 hr with rfl | hr'
    · rcases List.mem_cons.1 hs with rfl | hs'
      · rfl
      · exact absurd h (hpair.1 s hs').1
    · rcases List.mem_cons.1 hs with rfl | hs'
      · exact absurd h (hpair.1 r hr').2
      · exact ih hpair.2 hr' hs'

def Declares (c : Codebase) (space : String) : Prop :=
  ∃ d, c.descriptor? space = some d ∧ d.module.isSome

theorem mem_declaredSpaces (h : c.Coherent) {space : String} :
    space ∈ declaredSpaces c ↔ Declares c space := by
  simp only [declaredSpaces, List.mem_map, List.mem_filter, OrderedMap.mem_values]
  constructor
  · intro hx
    obtain ⟨d, ⟨⟨k, hd⟩, hm⟩, rfl⟩ := hx
    exact ⟨d, (h.keyed hd) ▸ hd, hm⟩
  · intro hy
    obtain ⟨d, hd, hm⟩ := hy
    exact ⟨d, ⟨⟨space, hd⟩, hm⟩, h.keyed hd⟩

variable {ks : List Candidate} {k k' : Candidate}

def belowRoots (c : Codebase) (roots : List String) : List Candidate :=
  roots.flatMap fun root ↦ (c.directSubspaces root).map (⟨root, ·⟩)

theorem mem_belowRoots : k ∈ belowRoots c roots ↔
    k.root ∈ roots ∧ k.space ∈ c.known ∧ Namespace.parent? k.space = some k.root := by
  simp only [belowRoots, List.mem_flatMap, List.mem_map, Codebase.mem_directSubspaces]
  constructor
  · intro hx
    obtain ⟨root, hroot, space, hspace, rfl⟩ := hx
    exact ⟨hroot, hspace⟩
  · intro hy
    obtain ⟨hroot, hspace⟩ := hy
    exact ⟨k.root, hroot, k.space, hspace, rfl⟩

theorem directCandidates_eq_ok : directCandidates c roots = .ok ks ↔
    ks = belowRoots c roots ∧ ∀ space ∈ declaredSpaces c, ∃ k ∈ ks, k.space = space := by
  have hall : ((declaredSpaces c).find? fun space ↦ !(belowRoots c roots).any fun k ↦ k.space = space) =
      none ↔ ∀ space ∈ declaredSpaces c, ∃ k ∈ belowRoots c roots, k.space = space := by
    simp [List.find?_eq_none]
  rw [directCandidates, ← belowRoots]
  split
  · rename_i space hfind
    rw [hfind] at hall
    simp only [reduceCtorEq, false_iff] at hall ⊢
    exact fun hx ↦ hall (hx.1 ▸ hx.2)
  · rename_i hfind
    rw [Except.ok.injEq, eq_comm]
    exact ⟨fun hks ↦ ⟨hks, hks ▸ hall.1 hfind⟩, And.left⟩

theorem directCandidates_eq_error {err : LayoutError} (h : directCandidates c roots = .error err) :
    ∃ space ∈ declaredSpaces c, (∀ k ∈ belowRoots c roots, k.space ≠ space) ∧
      err = .conflictingDetection space := by
  rw [directCandidates, ← belowRoots] at h
  split at h
  · rename_i space hfind
    have hnone := List.find?_some hfind
    simp only [Bool.not_eq_true', List.any_eq_false, decide_eq_true_eq] at hnone
    exact ⟨space, List.mem_of_find?_eq_some hfind, hnone, (Except.error.inj h).symm⟩
  · nomatch h

theorem mem_directCandidates (h : directCandidates c roots = .ok ks) :
    k ∈ ks ↔ k.root ∈ roots ∧ k.space ∈ c.known ∧ Namespace.parent? k.space = some k.root := by
  rw [(directCandidates_eq_ok.1 h).1, mem_belowRoots]

theorem nesting?_eq_none {declared : List String} :
    nesting? declared = none ↔
      ∀ outer ∈ declared, ∀ inner ∈ declared, isWithin outer inner → inner = outer := by
  simp only [nesting?, List.findSome?_eq_none_iff, Option.map_eq_none_iff, List.find?_eq_none,
    Bool.and_eq_true, decide_eq_true_eq, ne_eq, not_and, Bool.not_eq_true]
  refine forall₂_congr fun outer _ ↦ forall₂_congr fun inner _ ↦ ?_
  by_cases he : inner = outer <;> simp [he]

theorem nesting?_eq_some {declared : List String} {outer inner : String}
    (h : nesting? declared = some (outer, inner)) :
    outer ∈ declared ∧ inner ∈ declared ∧ inner ≠ outer ∧ isWithin outer inner := by
  obtain ⟨found, hfound, hmap⟩ := List.exists_of_findSome?_eq_some h
  obtain ⟨found', hfind, heq⟩ := Option.map_eq_some_iff.1 hmap
  obtain ⟨rfl, rfl⟩ := Prod.mk.inj heq
  have hinner := List.find?_some hfind
  rw [Bool.and_eq_true, decide_eq_true_eq] at hinner
  exact ⟨hfound, List.mem_of_find?_eq_some hfind, hinner⟩

theorem declaredCandidates_eq_ok : declaredCandidates c roots = .ok ks ↔
    ks = ((declaredSpaces c).filterMap fun space ↦
      (roots.find? fun root ↦ isWithin root space).map (⟨·, space⟩)) ∧
    ∀ outer ∈ declaredSpaces c, ∀ inner ∈ declaredSpaces c, isWithin outer inner → inner = outer := by
  rw [← nesting?_eq_none, declaredCandidates]
  split
  · rename_i hsome
    simp [hsome]
  · rename_i hnone
    rw [Except.ok.injEq, eq_comm, hnone]
    simp only [and_true]

theorem declaredCandidates_eq_error {err : LayoutError} (h : declaredCandidates c roots = .error err) :
    ∃ outer ∈ declaredSpaces c, ∃ inner ∈ declaredSpaces c, inner ≠ outer ∧ isWithin outer inner ∧
      err = .nestedModules outer inner := by
  rw [declaredCandidates] at h
  split at h
  · rename_i outer inner hnesting
    obtain ⟨houter, hinner, hne, hwithin⟩ := nesting?_eq_some hnesting
    exact ⟨outer, houter, inner, hinner, hne, hwithin, (Except.error.inj h).symm⟩
  · nomatch h

theorem mem_declaredCandidates (h : declaredCandidates c roots = .ok ks) :
    k ∈ ks ↔
      k.space ∈ declaredSpaces c ∧ (roots.find? fun root ↦ isWithin root k.space) = some k.root := by
  rw [(declaredCandidates_eq_ok.1 h).1]
  simp only [List.mem_filterMap, Option.map_eq_some_iff]
  constructor
  · intro hx
    obtain ⟨space, hspace, root, hroot, rfl⟩ := hx
    exact ⟨hspace, hroot⟩
  · intro hy
    obtain ⟨hspace, hroot⟩ := hy
    exact ⟨k.space, hspace, k.root, hroot, rfl⟩

theorem candidates_root {detection : Detection} (h : candidates detection c roots = .ok ks)
    (hk : k ∈ ks) : k.root ∈ roots ∧ isWithin k.root k.space := by
  cases detection with
  | directSubspaces =>
    obtain ⟨hroot, -, hparent⟩ := (mem_directCandidates h).1 hk
    exact ⟨hroot, isWithin_of_parent hparent⟩
  | declaredSpaces =>
    obtain ⟨-, hfind⟩ := (mem_declaredCandidates h).1 hk
    exact ⟨List.mem_of_find?_eq_some hfind, by simpa using List.find?_some hfind⟩

/-- No candidate lies within another one, whichever way they were found. -/
theorem candidates_disjoint {detection : Detection}
    (hpair : roots.Pairwise fun a b ↦ ¬ isWithin a b ∧ ¬ isWithin b a)
    (h : candidates detection c roots = .ok ks) (hk : k ∈ ks) (hk' : k' ∈ ks)
    (hwithin : isWithin k.space k'.space) : k = k' := by
  cases detection with
  | directSubspaces =>
    obtain ⟨hroot, -, hparent⟩ := (mem_directCandidates h).1 hk
    obtain ⟨hroot', -, hparent'⟩ := (mem_directCandidates h).1 hk'
    rcases (isWithin_iff_of_parent hparent').1 hwithin with hspace | hinner
    · have hroots : k.root = k'.root := by
        rw [hspace, hparent'] at hparent
        exact (Option.some.inj hparent).symm
      cases k
      cases k'
      simp_all
    · -- the root of `k'` would lie below `k`, hence below the root of `k`
      have hroots := isWithin_trans (isWithin_of_parent hparent) hinner
      rw [← eq_of_isWithin hpair hroot hroot' hroots] at hinner
      exact absurd hinner (not_isWithin_parent hparent)
  | declaredSpaces =>
    obtain ⟨hdeclared, hfind⟩ := (mem_declaredCandidates h).1 hk
    obtain ⟨hdeclared', hfind'⟩ := (mem_declaredCandidates h).1 hk'
    have hspace := (declaredCandidates_eq_ok.1 h).2 _ hdeclared _ hdeclared' hwithin
    rw [hspace, hfind] at hfind'
    have hroots := Option.some.inj hfind'
    cases k
    cases k'
    simp_all

end Layout

end Modularity
