import Modularity.Proofs.Codebase.Reachable
import Modularity.Proofs.Graph.Build
import Modularity.Proofs.Ordered.Canonical
import Modularity.Proofs.Text.Words

namespace Modularity

namespace Layout

theorem mem_trimmedRoots {stated : List String} {root : String} :
    root ∈ trimmedRoots stated ↔ ∃ r ∈ stated, Text.trim r = root := by
  rw [trimmedRoots, OrderedSet.mem_toList, OrderedSet.mem_ofList, List.mem_map]

theorem trim_of_mem_trimmedRoots {stated : List String} {root : String} (h : root ∈ trimmedRoots stated) :
    Text.trim root = root := by
  obtain ⟨r, -, rfl⟩ := mem_trimmedRoots.1 h
  exact Text.trim_trim r

end Layout

namespace ModuleGraph

open Layout

variable {c : Codebase} {o : GraphOptions} {g : ModuleGraph} {m : Module} {root : String}

theorem mem_modulesOfRoot : m ∈ g.modulesOfRoot root ↔ m ∈ g.modules ∧ m.root = root := by
  rw [modulesOfRoot, List.mem_filter, decide_eq_true_eq]

/-- The modules below some distinct roots, one root after the other. -/
theorem flatMap_modulesOfRoot_perm (g : ModuleGraph) {rs : List String} (h : rs.Nodup) :
    (rs.flatMap g.modulesOfRoot).Perm (g.modules.filter fun m ↦ m.root ∈ rs) := by
  induction rs with
  | nil => simp
  | cons r rs ih =>
    rw [List.nodup_cons] at h
    have hfirst : ((g.modules.filter fun m ↦ m.root ∈ r :: rs).filter fun m ↦ m.root = r) =
        g.modulesOfRoot r := by
      rw [List.filter_filter, modulesOfRoot]
      refine List.filter_congr fun m _ ↦ ?_
      by_cases hroot : m.root = r <;> simp [hroot]
    have hrest : ((g.modules.filter fun m ↦ m.root ∈ r :: rs).filter fun m ↦ !decide (m.root = r)) =
        g.modules.filter fun m ↦ m.root ∈ rs := by
      rw [List.filter_filter]
      refine List.filter_congr fun m _ ↦ ?_
      by_cases hroot : m.root = r
      · simp [hroot, h.1]
      · simp [hroot]
    rw [List.flatMap_cons]
    refine ((ih h.2).append_left _).trans ?_
    rw [← hfirst, ← hrest]
    exact List.filter_append_perm _ _

namespace Built

theorem root_trimmed (h : Built c o g) (hm : m ∈ g.modules) : Text.trim m.root = m.root :=
  trim_of_mem_trimmedRoots (h.module_root hm).1

theorem exists_stated_root (h : Built c o g) (hm : m ∈ g.modules) :
    ∃ r ∈ g.roots, Text.trim r = m.root := by
  rw [ModuleGraph.roots, h.options]
  exact mem_trimmedRoots.1 (h.module_root hm).1

end Built

/-- A root that is stated with white space finds none of its modules. -/
theorem stated_root_missed : Codebase.shop.Reachable ∧
    ∃ g, build .shop { roots := [" shop"] } = .ok g ∧ g.roots = [" shop"] ∧
      ∃ m ∈ g.modules, ∀ r ∈ g.roots, m ∉ g.modulesOfRoot r := by
  have hbuild : (build .shop { roots := [" shop"] }).toOption.map
      (fun g ↦ (g.roots, g.modules.length, (g.modulesOfRoot " shop").length)) =
        some ([" shop"], 2, 0) := by decide +kernel
  obtain ⟨g, hg, hcounts⟩ := Option.map_eq_some_iff.1 hbuild
  obtain ⟨hroots, hcounts⟩ := Prod.mk.inj hcounts
  obtain ⟨hmodules, hnone⟩ := Prod.mk.inj hcounts
  obtain ⟨m, hm⟩ := List.exists_mem_of_length_pos (hmodules ▸ Nat.two_pos)
  refine ⟨Codebase.shop_reachable, g, ok_of_toOption hg, hroots, m, hm, fun r hr ↦ ?_⟩
  rw [hroots, List.mem_singleton] at hr
  rw [hr, List.eq_nil_of_length_eq_zero hnone]
  exact List.not_mem_nil

/-- Every module of a graph is found under one of its roots, read without white space at the ends: listed
over the distinct roots in that form, in any order, the modules come exactly once each. Over the roots as
they were stated the modules come that have their root among these, again exactly once each; so all of
them do where no stated root has white space at its ends, and such a root finds none. -/
theorem modules_by_trimmed_root (h : build c o = .ok g) :
    g.modules.Nodup ∧
    (∀ m ∈ g.modules, ∃ r ∈ g.roots, m ∈ g.modulesOfRoot (Text.trim r)) ∧
    (∀ rs : List String, rs.Nodup → (∀ root, root ∈ rs ↔ ∃ r ∈ g.roots, Text.trim r = root) →
      (rs.flatMap g.modulesOfRoot).Perm g.modules) ∧
    (∀ r ∈ g.roots, Text.trim r ≠ r → g.modulesOfRoot r = []) ∧
    ∀ rs : List String, rs.Nodup → (∀ root, root ∈ rs ↔ root ∈ g.roots) →
      (rs.flatMap g.modulesOfRoot).Perm (g.modules.filter fun m ↦ m.root ∈ g.roots) ∧
      ((∀ r ∈ g.roots, Text.trim r = r) → (rs.flatMap g.modulesOfRoot).Perm g.modules) := by
  have hb := build_eq_ok.1 h
  refine ⟨StrictLinear.nodup_of_ascending hb.ascending, fun m hm ↦ ?_, fun rs hrs hmem ↦ ?_,
    fun r _ hne ↦ ?_, fun rs hrs hmem ↦ ?_⟩
  · obtain ⟨r, hr, htrim⟩ := hb.exists_stated_root hm
    exact ⟨r, hr, mem_modulesOfRoot.2 ⟨hm, htrim.symm⟩⟩
  · have hall : (g.modules.filter fun m ↦ m.root ∈ rs) = g.modules := by
      rw [List.filter_eq_self]
      exact fun m hm ↦ decide_eq_true ((hmem _).2 (hb.exists_stated_root hm))
    exact hall ▸ g.flatMap_modulesOfRoot_perm hrs
  · rw [List.eq_nil_iff_forall_not_mem]
    intro m hm
    obtain ⟨hmem, rfl⟩ := mem_modulesOfRoot.1 hm
    exact hne (hb.root_trimmed hmem)
  · have hstated : (rs.flatMap g.modulesOfRoot).Perm (g.modules.filter fun m ↦ m.root ∈ g.roots) := by
      simp only [← hmem]
      exact g.flatMap_modulesOfRoot_perm hrs
    refine ⟨hstated, fun htrimmed ↦ ?_⟩
    have hall : (g.modules.filter fun m ↦ m.root ∈ g.roots) = g.modules := by
      rw [List.filter_eq_self]
      intro m hm
      obtain ⟨r, hr, htrim⟩ := hb.exists_stated_root hm
      rw [htrimmed r hr] at htrim
      exact decide_eq_true (htrim ▸ hr)
    exact hall ▸ hstated

/-- The shop by its root, which is stated twice. -/
theorem modules_by_trimmed_root_shop :
    ∃ g, build .shop { roots := [" shop", "shop "] } = .ok g ∧ g.modules.Nodup ∧
      (["shop"].flatMap g.modulesOfRoot).Perm g.modules := by
  have hbuild : (build .shop { roots := [" shop", "shop "] }).toOption.map (·.roots) =
      some [" shop", "shop "] := by decide +kernel
  obtain ⟨g, hg, hroots⟩ := Option.map_eq_some_iff.1 hbuild
  obtain ⟨hnodup, -, hcover, -⟩ := modules_by_trimmed_root (ok_of_toOption hg)
  have hleft : Text.trim " shop" = "shop" := by decide +kernel
  have hright : Text.trim "shop " = "shop" := by decide +kernel
  refine ⟨g, ok_of_toOption hg, hnodup, hcover ["shop"] (List.nodup_singleton _) fun root ↦ ?_⟩
  rw [hroots]
  simp [hleft, hright, eq_comm]

end ModuleGraph

end Modularity
