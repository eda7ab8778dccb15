import Modularity.Proofs.Graph.Dependency
import Modularity.Proofs.Graph.Roots
import Modularity.Proofs.Verification.Cycles
import Mathlib.Data.List.Rotate

namespace Modularity

def Dependency.step (c : Codebase) (d : Dependency) : String :=
  "\n  " ++ d.source ++ " -> " ++ d.target ++ ": " ++ d.edge.describe c

namespace ModuleGraph

open Circuit

variable {c : Codebase} {o : GraphOptions} {g : ModuleGraph} {m : Module} {d : Dependency}
  {root a : String} {cycle : List String}

def IsFirst (g : ModuleGraph) (m : Module) (d : Dependency) : Prop :=
  ∃ earlier later, g.dependencies m = earlier ++ d :: later ∧ ∀ e ∈ earlier, e.target ≠ d.target

theorem isFirst_iff :
    g.IsFirst m d ↔ (g.dependencies m).find? (fun e ↦ e.target = d.target) = some d := by
  simp [IsFirst, List.find?_eq_some_iff_append]

theorem IsFirst.mem_dependencies (h : g.IsFirst m d) : d ∈ g.dependencies m :=
  List.mem_of_find?_eq_some (isFirst_iff.1 h)

theorem exists_isFirst (h : d ∈ g.dependencies m) : ∃ e, g.IsFirst m e ∧ e.target = d.target := by
  have hsome : ((g.dependencies m).find? fun e ↦ e.target = d.target).isSome :=
    List.find?_isSome.2 ⟨d, h, decide_eq_true rfl⟩
  obtain ⟨e, he⟩ := Option.isSome_iff_exists.1 hsome
  have htarget : e.target = d.target := by simpa using List.find?_some he
  exact ⟨e, isFirst_iff.2 (htarget ▸ he), htarget⟩

theorem source_of_mem_dependencies (h : d ∈ g.dependencies m) : d.source = m.name := by
  obtain ⟨-, n, -, -, heq⟩ := mem_dependencies.1 h
  rw [heq]

theorem rotate_one_cons (a : String) (rest : List String) : (a :: rest).rotate 1 = rest ++ [a] := by
  rw [List.rotate_cons_succ, List.rotate_zero]

theorem hops_eq_zip (cycle : List String) : hops cycle = cycle.zip (cycle.rotate 1) := by
  cases cycle with
  | nil => rfl
  | cons start rest => rw [hops, rotate_one_cons]

theorem forall₂_rotate {arc : String → String → Prop}
    (h : IsElementary arc (cycle : Cycle String)) : List.Forall₂ arc cycle (cycle.rotate 1) := by
  cases cycle with
  | nil => exact .nil
  | cons start rest =>
    have hchain := List.isChain_cons_iff_forall₂.1 (isElementary_cons.1 h).2
    rw [List.dropLast_concat] at hchain
    rw [rotate_one_cons]
    exact hchain.resolve_left (List.concat_ne_nil _ _)

namespace Built

theorem not_dependsIn_self (h : Built c o g) : ¬ g.DependsIn root a a := fun hself ↦
  h.successors_irrefl a (h.mem_successors.2 hself)

theorem two_le_length (h : Built c o g) (hcycle : IsElementary (g.DependsIn root) (cycle : Cycle String)) :
    2 ≤ cycle.length := by
  match cycle with
  | [] => exact absurd rfl hcycle.1
  | [a] =>
    have hself := forall₂_rotate hcycle
    rw [List.rotate_singleton] at hself
    exact absurd (List.forall₂_cons.1 hself).1 h.not_dependsIn_self
  | _ :: _ :: _ => exact Nat.le_add_left ..

/-- Every step between modules of a root has its evidence: the module that a name stands for, and its first
dependency on the next one. -/
theorem exists_steps (h : Built c o g) {sources targets : List String}
    (hsteps : List.Forall₂ (g.DependsIn root) sources targets) :
    ∃ steps : List Dependency, steps.map (·.source) = sources ∧ steps.map (·.target) = targets ∧
      ∀ d ∈ steps, ∃ m ∈ g.modulesOfRoot root, g.module? d.source = some m ∧ g.IsFirst m d := by
  induction hsteps with
  | nil => exact ⟨[], rfl, rfl, fun _ hd ↦ nomatch hd⟩
  | cons hstep _ ih =>
    obtain ⟨m, hm, -, -, rfl, -, d, hd, rfl⟩ := hstep
    obtain ⟨steps, rfl, rfl, hfirst⟩ := ih
    obtain ⟨e, he, htarget⟩ := exists_isFirst hd
    have hsource := source_of_mem_dependencies he.mem_dependencies
    have hmodule : g.module? e.source = some m :=
      h.module?_eq_some_iff.2 ⟨(mem_modulesOfRoot.1 hm).1, hsource.symm⟩
    refine ⟨e :: steps, by rw [List.map_cons, hsource], by rw [List.map_cons, htarget], ?_⟩
    exact List.forall_mem_cons.2 ⟨⟨m, hm, hmodule, he⟩, hfirst⟩

end Built

theorem explain_of_isFirst (hm : g.module? d.source = some m) (hd : g.IsFirst m d) :
    explain g.allDependencies g.codebase (d.source, d.target) = d.step g.codebase := by
  have htable : g.allDependencies.lookup d.source = some (g.dependencies m) := by
    rw [allDependencies, lookup_map, ← module?, hm]
    rfl
  rw [explain, htable, Option.getD_some, isFirst_iff.1 hd]
  rfl

theorem explain_hops {steps : List Dependency} (hcycle : steps.map (·.source) = cycle)
    (hnext : steps.map (·.target) = cycle.rotate 1)
    (hfirst : ∀ d ∈ steps, ∃ m, g.module? d.source = some m ∧ g.IsFirst m d) :
    (hops cycle).map (explain g.allDependencies g.codebase) =
      steps.map (Dependency.step g.codebase) := by
  rw [hops_eq_zip, ← hnext, ← hcycle, List.zip_map', List.map_map]
  refine List.map_congr_left fun d hd ↦ ?_
  obtain ⟨m, hm, hd⟩ := hfirst d hd
  exact explain_of_isFirst hm hd

/-- Every violation that is found in a root stands for a cycle of at least two distinct modules of it. Its
message is the closed path of their names, and then one step for each of them: the one of the first
dependency, in the order of discovery, of the module on the one after it. -/
theorem cycles_explained (hbuild : build c o = .ok g) (root : String) :
    ∀ v ∈ (g.checkCyclesOfRoot root).toList, v.kind = .cycle ∧
      ∃ cycle ∈ g.cyclesOfRoot root, 2 ≤ cycle.length ∧ cycle.Nodup ∧
        ∃ steps : List Dependency,
          steps.map (·.source) = cycle ∧ steps.map (·.target) = cycle.rotate 1 ∧
          (∀ d ∈ steps, ∃ m ∈ g.modulesOfRoot root, g.module? d.source = some m ∧ g.IsFirst m d) ∧
          v.message = "Cycle detected: " ++ String.intercalate " -> " (cycle ++ cycle.take 1) ++
            String.join (steps.map (Dependency.step g.codebase)) := by
  have h := build_eq_ok.1 hbuild
  intro v hv
  obtain ⟨cycle, hcycle, rfl⟩ := List.mem_map.1 hv
  have helem := (h.elementary_of_mem_cyclesOfRoot hcycle).1
  obtain ⟨steps, hsources, htargets, hfirst⟩ := h.exists_steps (forall₂_rotate helem)
  refine ⟨rfl, cycle, hcycle, h.two_le_length helem, Cycle.nodup_coe_iff.1 helem.2.1, steps, hsources,
    htargets, hfirst, ?_⟩
  rw [cycleViolation, explain_hops hsources htargets fun d hd ↦ ?_]
  obtain ⟨m, -, hm, hd⟩ := hfirst d hd
  exact ⟨m, hm, hd⟩

theorem cycles_explained_shop :
    ∃ g v, build .shop { roots := ["shop"] } = .ok g ∧ v ∈ (g.checkCyclesOfRoot "shop").toList ∧
      ∃ steps : List Dependency,
        steps.map (·.source) = ["orders", "stock"] ∧ steps.map (·.target) = ["stock", "orders"] ∧
        v.message = "Cycle detected: orders -> stock -> orders" ++
          String.join (steps.map (Dependency.step g.codebase)) := by
  have hcycles : (build .shop { roots := ["shop"] }).toOption.map (·.cyclesOfRoot "shop") =
      some [["orders", "stock"]] := by decide +kernel
  obtain ⟨g, hg, hcycles⟩ := Option.map_eq_some_iff.1 hcycles
  have hbuild := ok_of_toOption hg
  have hv : cycleViolation g.allDependencies g.codebase ["orders", "stock"] ∈
      (g.checkCyclesOfRoot "shop").toList :=
    List.mem_map.2 ⟨_, by rw [hcycles]; exact List.mem_cons_self .., rfl⟩
  obtain ⟨-, cycle, hcycle, -, -, steps, hsources, htargets, -, hmessage⟩ :=
    cycles_explained hbuild "shop" _ hv
  rw [hcycles, List.mem_singleton] at hcycle
  subst hcycle
  exact ⟨g, _, hbuild, hv, steps, hsources, htargets, hmessage⟩

end ModuleGraph

end Modularity
