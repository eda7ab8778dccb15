import Modularity.Proofs.Graph.Naming
import Modularity.Proofs.Verification.Findings

namespace Modularity

/-! ### Circuits -/

section

variable (ρ : Renaming) {next next' : String → List String}

theorem Reach.levels_rename (hnext : ∀ v, next' (ρ v) = (next v).map ρ) (bound : Nat)
    (seen level : List String) :
    levels next' bound (seen.map ρ) (level.map ρ) = (levels next bound seen level).map ρ := by
  induction bound generalizing seen level with
  | zero => rfl
  | succ bound ih =>
    have hfresh : ((level.map ρ).eraseDups.filter fun a ↦ !(seen.map ρ).contains a) =
        (level.eraseDups.filter fun a ↦ !seen.contains a).map ρ := by
      rw [eraseDups_map ρ.injective, List.filter_map]
      refine congrArg (List.map ρ) (List.filter_congr fun v _ ↦ ?_)
      rw [Function.comp_apply, ρ.contains_map]
    have hlevel : ∀ fresh : List String, (fresh.map ρ).flatMap next' = (fresh.flatMap next).map ρ := by
      intro fresh
      rw [List.flatMap_map, List.map_flatMap, funext hnext]
    rw [levels, levels, hfresh, hlevel, ← List.map_append, ih, ← List.map_append]

namespace Circuit

variable (hnext : ∀ v, next' (ρ v) = (next v).map ρ)

include hnext

theorem continuations_rename (start : String) (fuel : Nat) (before : List String) (node : String) :
    continuations next' (ρ start) fuel (before.map ρ) (ρ node) =
      (continuations next start fuel before node).map (List.map ρ) := by
  induction fuel generalizing before node with
  | zero => rfl
  | succ fuel ih =>
    rw [continuations, continuations, hnext, List.flatMap_map, List.map_flatMap]
    refine List.flatMap_congr fun v _ ↦ ?_
    rw [← List.map_cons, ih]
    simp only [ρ.eq_iff, ρ.contains_map, apply_ite (List.map (List.map ρ)), List.map_cons, List.map_nil,
      List.map_reverse]

theorem within_rename (vertices : List String) (v : String) :
    within next' (vertices.map ρ) (ρ v) = (within next vertices v).map ρ := by
  rw [within, within, hnext, List.filter_map]
  refine congrArg (List.map ρ) (List.filter_congr fun w _ ↦ ?_)
  rw [Function.comp_apply, ρ.contains_map]

theorem circuits_rename (vertices : List String) :
    circuits next' (vertices.map ρ) = (circuits next vertices).map (List.map ρ) := by
  induction vertices with
  | nil => rfl
  | cons start rest ih =>
    have hfirst := continuations_rename ρ (within_rename ρ hnext (start :: rest)) start (rest.length + 1)
      [] start
    rw [List.map_cons, circuits, circuits, ih, List.map_append, ← hfirst, List.length_map]
    rfl

theorem among_rename (vertices : List String) (budget : Nat) :
    among next' (vertices.map ρ) budget = (among next vertices budget).map (List.map ρ) := by
  rw [among_eq, among_eq, circuits_rename ρ hnext, List.map_take]

theorem closure_rename (vertices : List String) :
    closure next' (vertices.map ρ) =
      (closure next vertices).map fun entry ↦ (ρ entry.1, entry.2.map ρ) := by
  have hlevels : ∀ v, Reach.levels next' (vertices.length + 1) [] (next' (ρ v)) =
      (Reach.levels next (vertices.length + 1) [] (next v)).map ρ := by
    intro v
    rw [hnext]
    exact Reach.levels_rename ρ hnext _ [] _
  rw [closure, closure, List.map_map, List.map_map, List.length_map]
  exact List.map_congr_left fun v _ ↦ congrArg (Prod.mk (ρ v)) (hlevels v)

omit hnext in
theorem component_rename (reach : List (String × List String)) (vertices : List String) (v : String) :
    component (reach.map fun entry ↦ (ρ entry.1, entry.2.map ρ)) (vertices.map ρ) (ρ v) =
      (component reach vertices v).map ρ := by
  have hreached : ∀ a b,
      (((reach.map fun entry ↦ (ρ entry.1, entry.2.map ρ)).lookup (ρ a)).getD []).contains (ρ b) =
        ((reach.lookup a).getD []).contains b := by
    intro a b
    rw [ρ.lookup_map]
    cases reach.lookup a with
    | none => rfl
    | some found => exact ρ.contains_map found b
  rw [component, component, List.filter_map]
  refine congrArg (List.map ρ) (List.filter_congr fun w _ ↦ ?_)
  simp only [Function.comp_apply, hreached, ρ.eq_iff]

theorem components_rename (vertices : List String) :
    components next' (vertices.map ρ) = (components next vertices).map (List.map ρ) := by
  rw [components, components, closure_rename ρ hnext, ← eraseDups_map ρ.map_injective, List.map_map,
    List.map_map]
  exact congrArg List.eraseDups (List.map_congr_left fun v _ ↦ component_rename ρ _ vertices v)

/-- Under other names in the same order the search finds the same circuits. -/
theorem all_rename (vertices : List String) (budget : Nat) :
    all next' (vertices.map ρ) budget = (all next vertices budget).map (List.map ρ) := by
  have hlength : ((fun part : List String ↦ decide (2 ≤ part.length)) ∘ List.map ρ) =
      fun part ↦ decide (2 ≤ part.length) := funext fun part ↦ by
    rw [Function.comp_apply, List.length_map]
  rw [all, all, components_rename ρ hnext, List.filter_map, hlength, List.flatMap_map,
    List.map_flatMap]
  exact List.flatMap_congr fun part _ ↦ among_rename ρ hnext part budget

end Circuit

end

/-! ### Modules -/

def Dependency.rename (ρ : Renaming) (d : Dependency) : Dependency :=
  { d with source := ρ d.source, target := ρ d.target }

def Finding.rename (ρ : Renaming) : Finding → Finding := map (·.rename ρ) (·.rename ρ)

theorem Dependency.targets_rename (ρ : Renaming) (ds : List Dependency) :
    targets (ds.map (rename ρ)) = (targets ds).map ρ := by
  rw [targets, targets, ← eraseDups_map ρ.injective, List.map_map, List.map_map]
  rfl

namespace ModuleGraph

/-- The dependency that explains the step from one module to another one: its first one on that module. -/
def reason? (g : ModuleGraph) (origin target : String) : Option Dependency :=
  ((g.allDependencies.lookup origin).getD []).find? (·.target = target)

structure Renames (ρ : Renaming) (g k : ModuleGraph) : Prop where
  codebase : k.codebase = g.codebase
  modules : k.modules = g.modules.map (·.rename ρ)
  owner : ∀ id, k.owner? id = (g.owner? id).map (·.rename ρ)
  stereotypes : k.options.stereotypes = g.options.stereotypes

namespace Renames

variable {ρ : Renaming} {g k : ModuleGraph} {m n : Module} {d : Dependency} (r : Renames ρ g k)

include r

theorem resolve? (m : Module) (e : Edge) :
    k.resolve? (m.rename ρ) e = (g.resolve? m e).map (·.rename ρ) := by
  have hother : ((fun n : Module ↦ decide (n.name ≠ (m.rename ρ).name)) ∘ Module.rename ρ) =
      fun n ↦ decide (n.name ≠ m.name) := by
    funext n
    exact decide_eq_decide.2 (not_congr ρ.eq_iff)
  rw [ModuleGraph.resolve?, ModuleGraph.resolve?, r.owner, Option.filter_map, hother, Option.map_map,
    Option.map_map]
  rfl

theorem dependencies (m : Module) :
    k.dependencies (m.rename ρ) = (g.dependencies m).map (·.rename ρ) := by
  rw [ModuleGraph.dependencies, ModuleGraph.dependencies, List.map_filterMap]
  exact List.filterMap_congr fun e _ ↦ r.resolve? m e

theorem module? (name : String) : k.module? (ρ name) = (g.module? name).map (·.rename ρ) := by
  have hkey : ((fun n : Module ↦ decide (n.name = ρ name)) ∘ Module.rename ρ) =
      fun n ↦ decide (n.name = name) := by
    funext n
    exact decide_eq_decide.2 ρ.eq_iff
  rw [ModuleGraph.module?, ModuleGraph.module?, r.modules, List.find?_map, hkey]

/-! ### Cycles -/

theorem table (ms : List Module) :
    (ms.map (·.rename ρ)).map (fun m ↦ (m.name, k.dependencies m)) =
      (ms.map fun m ↦ (m.name, g.dependencies m)).map fun entry ↦
        (ρ entry.1, entry.2.map (·.rename ρ)) := by
  rw [List.map_map, List.map_map]
  exact List.map_congr_left fun m _ ↦ congrArg (Prod.mk (ρ m.name)) (r.dependencies m)

omit r in
theorem arcs_rename (table : List (String × List Dependency)) (names : List String) (name : String) :
    arcs (table.map fun entry ↦ (ρ entry.1, entry.2.map (·.rename ρ))) (names.map ρ) (ρ name) =
      (arcs table names name).map ρ := by
  have hkept : ∀ targets : List String, (targets.map ρ).filter (names.map ρ).contains =
      (targets.filter names.contains).map ρ := by
    intro targets
    rw [List.filter_map]
    refine congrArg (List.map ρ) (List.filter_congr fun target _ ↦ ?_)
    rw [Function.comp_apply, ρ.contains_map]
  rw [arcs, arcs, ρ.lookup_map]
  cases table.lookup name with
  | none => rfl
  | some ds => rw [Option.map_some, Option.getD_some, Option.getD_some, Dependency.targets_rename, hkept]

omit r in
theorem arcTable_rename (table : List (String × List Dependency)) (names : List String) :
    (names.map ρ).map (fun name ↦ (name,
      arcs (table.map fun entry ↦ (ρ entry.1, entry.2.map (·.rename ρ))) (names.map ρ) name)) =
      (names.map fun name ↦ (name, arcs table names name)).map fun entry ↦ (ρ entry.1, entry.2.map ρ) := by
  rw [List.map_map, List.map_map]
  exact List.map_congr_left fun name _ ↦ congrArg (Prod.mk (ρ name)) (arcs_rename table names name)

theorem modulesOfRoot (root : String) :
    k.modulesOfRoot root = (g.modulesOfRoot root).map (·.rename ρ) := by
  rw [ModuleGraph.modulesOfRoot, ModuleGraph.modulesOfRoot, r.modules, List.filter_map]
  rfl

theorem namesOf (root : String) : k.namesOf root = (g.namesOf root).map ρ := by
  rw [ModuleGraph.namesOf, ModuleGraph.namesOf, r.modulesOfRoot, List.map_map, List.map_map]
  rfl

theorem successors (root name : String) :
    k.successors root (ρ name) = (g.successors root name).map ρ := by
  have htable := r.table (g.modulesOfRoot root)
  rw [← r.modulesOfRoot] at htable
  simp only [ModuleGraph.successors, r.namesOf, htable, arcTable_rename, ρ.lookup_map]
  cases ((g.namesOf root).map fun name ↦ (name, arcs ((g.modulesOfRoot root).map fun m ↦
    (m.name, g.dependencies m)) (g.namesOf root) name)).lookup name <;> rfl

theorem cyclesOfRoot (root : String) :
    k.cyclesOfRoot root = (g.cyclesOfRoot root).map (List.map ρ) := by
  rw [cyclesOfRoot_eq, cyclesOfRoot_eq, r.namesOf, Circuit.all_rename ρ (r.successors root),
    ρ.toList_ofList_map]

theorem reason? (origin target : String) :
    k.reason? (ρ origin) (ρ target) = (g.reason? origin target).map (·.rename ρ) := by
  have hall : k.allDependencies = g.allDependencies.map fun entry ↦
      (ρ entry.1, entry.2.map (·.rename ρ)) := by
    rw [allDependencies, r.modules]
    exact r.table g.modules
  have hkey : ((fun d : Dependency ↦ decide (d.target = ρ target)) ∘ Dependency.rename ρ) =
      fun d ↦ decide (d.target = target) := by
    funext d
    exact decide_eq_decide.2 ρ.eq_iff
  rw [ModuleGraph.reason?, ModuleGraph.reason?, hall, ρ.lookup_map]
  cases g.allDependencies.lookup origin with
  | none => rfl
  | some ds => rw [Option.map_some, Option.getD_some, Option.getD_some, List.find?_map, hkey]

/-! ### Rules -/

omit r in
theorem allowList_of_unrestricted (hm : m.declaration.allowed = []) :
    g.allowList m = .unrestricted := by
  rw [allowList, Module.allowList, if_pos (List.isEmpty_iff.2 hm)]

/-- Without declared allow-lists the rules are the same under other names. -/
theorem breaks (hm : m.declaration.allowed = []) (rule : Rule) :
    k.breaks (m.rename ρ) (n.rename ρ) (d.rename ρ) rule = g.breaks m n d rule := by
  cases rule with
  | allowance =>
    have hrenamed : (m.rename ρ).declaration.allowed = [] := hm
    rw [ModuleGraph.breaks, ModuleGraph.breaks, allowList_of_unrestricted hm,
      allowList_of_unrestricted hrenamed]
    rfl
  | exposure => rfl
  | injection =>
    rw [ModuleGraph.breaks, ModuleGraph.breaks, r.stereotypes, r.codebase]
    rfl

theorem findings (hall : ∀ m ∈ g.modules, m.declaration.allowed = []) :
    k.findings = g.findings.map (·.rename ρ) := by
  have hkept := findings_map (q := fun _ ↦ true) r.modules (fun m _ ↦ r.dependencies m)
    (fun d ↦ r.module? d.target) fun m hm d _ n _ rule ↦
      (r.breaks (hall m hm) rule).trans (Bool.and_true _).symm
  rwa [List.filter_true] at hkept

end Renames

/-! ### Two ways of naming -/

open Layout

variable {c : Codebase} {o : GraphOptions} {g k : ModuleGraph} {root : String}

theorem Built.renames (h : Built c o g) {p : GraphOptions} (ρ : Renaming)
    (hstereotypes : p.stereotypes = o.stereotypes) :
    Renames ρ g (g.mapModules g.codebase p (·.rename ρ)) where
  codebase := rfl
  modules := rfl
  owner id := by
    have hspace : ∀ m : Module, (m.rename ρ).space = m.space := fun _ ↦ rfl
    exact h.owner?_mapModules hspace id
  stereotypes := by
    rw [h.options]
    exact hstereotypes

theorem Built.violations_below (h : Built c o g) (hroots : trimmedRoots o.roots = [root]) :
    g.violations.toList =
      (g.cyclesOfRoot root).map (cycleViolation g.allDependencies g.codebase) ++
        g.findings.map g.breach := by
  rw [toList_violations, h.toList_checkCycles, hroots, List.flatMap_singleton]
  rfl

theorem Built.kinds_below (h : Built c o g) (hroots : trimmedRoots o.roots = [root]) :
    g.violations.toList.map (·.kind) =
      (g.cyclesOfRoot root).map (fun _ ↦ .cycle) ++ g.findings.map (·.rule.kind) := by
  rw [h.violations_below hroots, List.map_append, List.map_map, List.map_map]
  exact congrArg₂ (· ++ ·) rfl (List.map_congr_left fun x _ ↦ breach_kind x)

/-- Below one root, without shared modules and declared allow-lists, the way of naming modules changes their
names and nothing else. A build with either way succeeds if one with the other way does. The change puts the
root and a dot in front of the name of a module, save that of the root itself, and keeps the order of names:
the modules are the same in the same order, with the same owners, edges and dependencies, and the same
cycles and broken rules are listed in the same order, the bound on cycles cutting the same ones off. -/
theorem naming_renames (hroots : trimmedRoots o.roots = [root]) (hroot : root ≠ "")
    (hshared : o.shared = []) :
    ((∃ g, build c (o.named .relative) = .ok g) ↔ ∃ k, build c (o.named .qualified) = .ok k) ∧
    ∀ g k, build c (o.named .relative) = .ok g → build c (o.named .qualified) = .ok k →
      (∀ m ∈ g.modules, m.declaration.allowed = []) →
      ∃ ρ : Renaming,
        (∀ a b, ρ a < ρ b ↔ a < b) ∧ Function.Injective (Module.rename ρ) ∧
        (∀ m ∈ g.modules, ρ m.name =
          if m.space.name = root then m.name else root ++ "." ++ m.name) ∧
        k.modules = g.modules.map (·.rename ρ) ∧ k.codebase = g.codebase ∧
        (∀ id, k.owner? id = (g.owner? id).map (·.rename ρ)) ∧
        (∀ m ∈ g.modules, (m.rename ρ).edges = m.edges ∧
          k.dependencies (m.rename ρ) = (g.dependencies m).map (·.rename ρ)) ∧
        k.cyclesOfRoot root = (g.cyclesOfRoot root).map (List.map ρ) ∧
        (∀ origin target, k.reason? (ρ origin) (ρ target) =
          (g.reason? origin target).map (·.rename ρ)) ∧
        k.findings = g.findings.map (·.rename ρ) ∧
        (∀ x ∈ [g, k], x.violations.toList =
          (x.cyclesOfRoot root).map (cycleViolation x.allDependencies x.codebase) ++
            x.findings.map x.breach) ∧
        k.violations.toList.map (·.kind) = g.violations.toList.map (·.kind) := by
  obtain ⟨ρ, hbuilds, hnames⟩ := build_qualified (c := c) hroots hroot hshared
  refine ⟨⟨fun hx ↦ ?_, fun hy ↦ ?_⟩, fun g k hg hk hall ↦ ?_⟩
  · obtain ⟨g, hg⟩ := hx
    exact ⟨_, (hbuilds _).2 ⟨g, hg, rfl⟩⟩
  · obtain ⟨k, hk⟩ := hy
    obtain ⟨g, hg, -⟩ := (hbuilds k).1 hk
    exact ⟨g, hg⟩
  obtain ⟨g', hg', rfl⟩ := (hbuilds k).1 hk
  obtain rfl : g = g' := Except.ok.inj (hg.symm.trans hg')
  have h := build_eq_ok.1 hg
  have r := h.renames ρ (p := o.named .qualified) rfl
  refine ⟨ρ, fun _ _ ↦ ρ.lt_iff, Module.rename_injective ρ, fun m hm ↦ ?_, rfl, rfl, r.owner,
    fun m _ ↦ ⟨rfl, r.dependencies m⟩, r.cyclesOfRoot root, r.reason?, r.findings hall, ?_, ?_⟩
  · rw [hnames g hg m hm]
    exact h.space_of_relative hroots hroot hm
  · intro x hx
    rcases List.mem_cons.1 hx with rfl | hx
    · exact h.violations_below hroots
    · rw [List.mem_singleton.1 hx]
      exact (build_eq_ok.1 hk).violations_below hroots
  · rw [(build_eq_ok.1 hk).kinds_below hroots, h.kinds_below hroots, r.cyclesOfRoot, r.findings hall,
      List.map_map, List.map_map]
    rfl

/-- The cycle of the shop under whole names. -/
theorem naming_renames_shop :
    ∃ g k, trimmedRoots ["shop"] = ["shop"] ∧ "shop" ≠ "" ∧
      build .shop (GraphOptions.named { roots := ["shop"] } .relative) = .ok g ∧
      build .shop (GraphOptions.named { roots := ["shop"] } .qualified) = .ok k ∧
      (∀ m ∈ g.modules, m.declaration.allowed = []) ∧
      g.cyclesOfRoot "shop" = [["orders", "stock"]] ∧
      k.cyclesOfRoot "shop" = [["shop.orders", "shop.stock"]] ∧
      ∃ ρ : Renaming, k.modules = g.modules.map (·.rename ρ) ∧
        k.cyclesOfRoot "shop" = (g.cyclesOfRoot "shop").map (List.map ρ) := by
  have hroots : trimmedRoots ["shop"] = ["shop"] := by decide +kernel
  have hroot : "shop" ≠ "" := by decide
  have hleft : (build .shop (GraphOptions.named { roots := ["shop"] } .relative)).toOption.map
      (fun g ↦ (g.cyclesOfRoot "shop", g.modules.map (·.declaration.allowed))) =
        some ([["orders", "stock"]], [[], []]) := by decide +kernel
  have hright : (build .shop (GraphOptions.named { roots := ["shop"] } .qualified)).toOption.map
      (·.cyclesOfRoot "shop") = some [["shop.orders", "shop.stock"]] := by decide +kernel
  obtain ⟨g, hg, hlists⟩ := Option.map_eq_some_iff.1 hleft
  obtain ⟨k, hk, hqualified⟩ := Option.map_eq_some_iff.1 hright
  obtain ⟨hcycles, hallowed⟩ := Prod.mk.inj hlists
  have hnone : ∀ m ∈ g.modules, m.declaration.allowed = [] := by
    intro m hm
    have hmem := List.mem_map_of_mem (f := (·.declaration.allowed)) hm
    rw [hallowed] at hmem
    simpa using hmem
  obtain ⟨-, hrenames⟩ := naming_renames (c := .shop) (o := { roots := ["shop"] }) hroots hroot rfl
  obtain ⟨ρ, -, -, -, hmodules, -, -, -, hrenamed, -⟩ :=
    hrenames g k (ok_of_toOption hg) (ok_of_toOption hk) hnone
  exact ⟨g, k, hroots, hroot, ok_of_toOption hg, ok_of_toOption hk, hnone, hcycles, hqualified, ρ,
    hmodules, hrenamed⟩

end ModuleGraph

end Modularity
