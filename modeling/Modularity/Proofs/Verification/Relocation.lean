import Modularity.Proofs.Graph.Dependency
import Modularity.Proofs.Graph.Relocation
import Modularity.Proofs.Ordered.Distinct
import Modularity.Verification.Verify

namespace Modularity

theorem lookup_map_snd {α β γ : Type} [BEq α] (f : β → γ) (table : List (α × β)) (k : α) :
    (table.map fun entry ↦ (entry.1, f entry.2)).lookup k = (table.lookup k).map f := by
  induction table with
  | nil => rfl
  | cons entry table ih =>
    rw [List.map_cons, List.lookup_cons, List.lookup_cons, ih]
    cases k == entry.1 <;> rfl

def Dependency.relocate (e : Symbol.Id → Symbol.Id) (x : Dependency) : Dependency :=
  { x with edge := x.edge.relocate e }

theorem Dependency.targets_relocate (e : Symbol.Id → Symbol.Id) (xs : List Dependency) :
    targets (xs.map (relocate e)) = targets xs := by
  rw [targets, targets, List.map_map]
  rfl

namespace ModuleGraph

open Layout

def IsTarget (g : ModuleGraph) (id : Symbol.Id) : Prop :=
  ∃ m ∈ g.modules, ∃ x ∈ m.edges, x.target = id

/-- One graph mirrors another one, whose symbols may stand at other positions. Their modules manage as many
symbols, have interfaces of the same names and the same edges, and answer alike about the symbols that
edges lead to. -/
structure Mirrors (e : Symbol.Id → Symbol.Id) (g k : ModuleGraph) : Prop where
  injective : Function.Injective e
  symbol : ∀ id, k.codebase.symbol (e id) = g.codebase.symbol id
  modules : k.modules = g.modules.map (·.relocate k.codebase)
  shared : k.shared = g.shared.map (·.relocate k.codebase)
  managed : ∀ m ∈ g.modules, (m.relocate k.codebase).qualifying.size = m.qualifying.size
  names : ∀ m ∈ g.modules, (m.relocate k.codebase).interfaces.names = m.interfaces.names
  edges : ∀ m ∈ g.modules, (m.relocate k.codebase).edges = m.edges.map (Edge.relocate e)
  owner : ∀ id, g.IsTarget id → k.owner? (e id) = (g.owner? id).map (·.relocate k.codebase)
  admits : ∀ m ∈ g.modules, ∀ id, g.IsTarget id → ∀ l : AllowList,
    l.admits (m.relocate k.codebase) (e id) = l.admits m id
  exposes : ∀ m ∈ g.modules, ∀ id, g.IsTarget id →
    (m.relocate k.codebase).exposes (e id) = m.exposes id
  roots : trimmedRoots k.roots = trimmedRoots g.roots
  stereotypes : k.options.stereotypes = g.options.stereotypes

structure Relocates (e : Symbol.Id → Symbol.Id) (g k : ModuleGraph) : Prop where
  codebase : g.codebase.Relocates e k.codebase
  modules : k.modules = g.modules.map (·.relocate k.codebase)
  shared : k.shared = g.shared.map (·.relocate k.codebase)
  inside : ∀ m ∈ g.modules, m.codebase = g.codebase
  chosen : ∀ m ∈ g.shared, m ∈ g.modules
  owner : ∀ id, k.owner? (e id) = (g.owner? id).map (·.relocate k.codebase)
  owned : ∀ id m, g.owner? id = some m → m ∈ g.modules
  roots : trimmedRoots k.roots = trimmedRoots g.roots
  stereotypes : k.options.stereotypes = g.options.stereotypes

variable {c d : Codebase} {e : Symbol.Id → Symbol.Id} {o p : GraphOptions} {g k : ModuleGraph}
  {m n : Module}

theorem Built.owner?_map {f : Module → Module} (hb : Built c o g) (hk : Built d p k)
    (hmodules : k.modules = g.modules.map f) (hc : c.Coherent) (hd : d.Coherent) {i j : Symbol.Id}
    (hcontains : ∀ m ∈ g.modules, (f m).contains j = m.contains i) :
    k.owner? j = (g.owner? i).map f := by
  refine Option.ext fun n ↦ ?_
  rw [hk.owner?_eq_some_iff hd, Option.map_eq_some_iff, hmodules]
  constructor
  · intro hx
    obtain ⟨hn, hid⟩ := hx
    obtain ⟨m, hm, rfl⟩ := List.mem_map.1 hn
    rw [hcontains m hm] at hid
    exact ⟨m, (hb.owner?_eq_some_iff hc).2 ⟨hm, hid⟩, rfl⟩
  · intro hy
    obtain ⟨m, howner, rfl⟩ := hy
    obtain ⟨hm, hid⟩ := (hb.owner?_eq_some_iff hc).1 howner
    exact ⟨List.mem_map_of_mem hm, (hcontains m hm).trans hid⟩

theorem Built.relocates (hb : Built c o g) (h : c.Relocates e d) (ho : o.Alike p) :
    Relocates e g (g.relocate (d.restrict (trimmedRoots o.roots) o.ignore) p) := by
  have hcode : g.codebase.Relocates e (d.restrict (trimmedRoots o.roots) o.ignore) := by
    rw [hb.codebase]
    exact h.restrict _ _
  have hinside : ∀ m ∈ g.modules, m.codebase = g.codebase := fun m ↦ hb.module_codebase
  have hk : build d p = .ok (g.relocate (d.restrict (trimmedRoots o.roots) o.ignore) p) := by
    rw [build_relocate h ho, build_eq_ok.2 hb]
    rfl
  refine ⟨hcode, rfl, rfl, hinside, fun m hm ↦ ?_, fun id ↦ ?_, ?_, ?_, ?_⟩
  · obtain ⟨name, -, hname⟩ := (mem_of_mapM_ok hb.shared).1 hm
    cases hfind : g.modules.find? fun n ↦ n.name = name with
    | none => simp only [hfind, reduceCtorEq] at hname
    | some n =>
      rw [hfind] at hname
      exact Except.ok.inj hname ▸ List.mem_of_find?_eq_some hfind
  · exact hb.owner?_map (build_eq_ok.1 hk) rfl h.source h.target fun m hm ↦
      m.contains_relocate (hinside m hm ▸ hcode) id
  · exact fun id m howner ↦ ((hb.owner?_eq_some_iff h.source).1 howner).1
  · have hroots : g.roots = o.roots := congrArg GraphOptions.roots hb.options
    rw [hroots]
    exact ho.roots
  · rw [hb.options]
    exact ho.stereotypes

namespace Mirrors

variable (r : Mirrors e g k)

include r

theorem resolve? (m : Module) {x : Edge} (hx : g.IsTarget x.target) :
    k.resolve? (m.relocate k.codebase) (x.relocate e) = (g.resolve? m x).map (Dependency.relocate e) := by
  have howner : k.owner? (x.relocate e).target =
      (g.owner? x.target).map (·.relocate k.codebase) := r.owner x.target hx
  rw [ModuleGraph.resolve?, ModuleGraph.resolve?, howner, Option.filter_map, Option.map_map,
    Option.map_map]
  rfl

theorem dependencies (hm : m ∈ g.modules) :
    k.dependencies (m.relocate k.codebase) = (g.dependencies m).map (Dependency.relocate e) := by
  rw [ModuleGraph.dependencies, ModuleGraph.dependencies, r.edges m hm,
    eraseDups_map (Edge.relocate_injective r.injective), List.filterMap_map, List.map_filterMap]
  exact List.filterMap_congr fun x hx ↦ r.resolve? m ⟨m, hm, x, List.mem_eraseDups.1 hx, rfl⟩

omit r in
theorem isTarget_of_mem_dependencies (hm : m ∈ g.modules) {x : Dependency}
    (hx : x ∈ g.dependencies m) : g.IsTarget x.edge.target :=
  ⟨m, hm, x.edge, (mem_dependencies.1 hx).1, rfl⟩

theorem module? (name : String) :
    k.module? name = (g.module? name).map (·.relocate k.codebase) := by
  rw [ModuleGraph.module?, ModuleGraph.module?, r.modules, List.find?_map]
  rfl

theorem shared_names : k.shared.map (·.name) = g.shared.map (·.name) := by
  rw [r.shared, List.map_map]
  rfl

theorem allowList (m : Module) : k.allowList (m.relocate k.codebase) = g.allowList m := by
  rw [ModuleGraph.allowList, ModuleGraph.allowList, r.shared_names]
  rfl

theorem describe (x : Edge) : (x.relocate e).describe k.codebase = x.describe g.codebase :=
  x.describe_relocate r.symbol

theorem checkDependency (hn : n ∈ g.modules) (allowed : AllowList) {x : Dependency}
    (hx : g.IsTarget x.edge.target) :
    k.checkDependency (m.relocate k.codebase) (n.relocate k.codebase) allowed (x.relocate e) =
      g.checkDependency m n allowed x := by
  have hadmits : allowed.admits (n.relocate k.codebase) (x.relocate e).edge.target =
      allowed.admits n x.edge.target := r.admits n hn _ hx allowed
  have hexposes : (n.relocate k.codebase).exposes (x.relocate e).edge.target =
      n.exposes x.edge.target := r.exposes n hn _ hx
  have hdescribe : (x.relocate e).edge.describe k.codebase = x.edge.describe g.codebase :=
    r.describe x.edge
  have horigin : k.codebase.symbol (x.relocate e).edge.origin = g.codebase.symbol x.edge.origin :=
    r.symbol _
  have htarget : k.codebase.symbol (x.relocate e).edge.target = g.codebase.symbol x.edge.target :=
    r.symbol _
  simp only [ModuleGraph.checkDependency, checkAllowed, checkExposed, checkInjection, disallowed,
    unexposed, filledField, hadmits, hexposes, hdescribe, horigin, htarget, r.stereotypes]
  rfl

theorem checkModule (hm : m ∈ g.modules) :
    k.checkModule (m.relocate k.codebase) = g.checkModule m := by
  rw [ModuleGraph.checkModule, ModuleGraph.checkModule, r.dependencies hm, r.allowList,
    List.flatMap_map]
  refine congrArg Violations.mk (List.flatMap_congr fun x hx ↦ ?_)
  have htarget : k.module? (x.relocate e).target =
      (g.module? x.target).map (·.relocate k.codebase) := r.module? x.target
  rw [htarget]
  cases hn : g.module? x.target with
  | none => simp only [Option.map_none, Option.toList_none, List.flatMap_nil]
  | some n =>
    have hmem : n ∈ g.modules := List.mem_of_find?_eq_some hn
    have hchecks := @checkDependency _ _ _ m n r hmem (g.allowList m) x
      (isTarget_of_mem_dependencies hm hx)
    simp only [Option.map_some, Option.toList_some, List.flatMap_singleton, hchecks]

theorem modulesOfRoot (root : String) :
    k.modulesOfRoot root = (g.modulesOfRoot root).map (·.relocate k.codebase) := by
  rw [ModuleGraph.modulesOfRoot, ModuleGraph.modulesOfRoot, r.modules, List.filter_map]
  rfl

theorem table {ms : List Module} (hms : ∀ m ∈ ms, m ∈ g.modules) :
    (ms.map (·.relocate k.codebase)).map (fun m ↦ (m.name, k.dependencies m)) =
      (ms.map fun m ↦ (m.name, g.dependencies m)).map fun entry ↦
        (entry.1, entry.2.map (Dependency.relocate e)) := by
  rw [List.map_map, List.map_map]
  exact List.map_congr_left fun m hm ↦ congrArg (Prod.mk m.name) (r.dependencies (hms m hm))

omit r in
theorem arcs_relocate (table : List (String × List Dependency)) (names : List String) (name : String) :
    arcs (table.map fun entry ↦ (entry.1, entry.2.map (Dependency.relocate e))) names name =
      arcs table names name := by
  rw [arcs, arcs, lookup_map_snd]
  cases table.lookup name with
  | none => rfl
  | some xs => rw [Option.map_some, Option.getD_some, Option.getD_some, Dependency.targets_relocate]

theorem cyclesOfRoot (root : String) : k.cyclesOfRoot root = g.cyclesOfRoot root := by
  have hnames : (k.modulesOfRoot root).map (·.name) = (g.modulesOfRoot root).map (·.name) := by
    rw [r.modulesOfRoot, List.map_map]
    rfl
  have htable := r.table fun m (hm : m ∈ g.modulesOfRoot root) ↦ List.mem_of_mem_filter hm
  rw [← r.modulesOfRoot] at htable
  simp only [ModuleGraph.cyclesOfRoot, hnames, htable, arcs_relocate]

theorem explain (table : List (String × List Dependency)) (hop : String × String) :
    explain (table.map fun entry ↦ (entry.1, entry.2.map (Dependency.relocate e))) k.codebase hop =
      ModuleGraph.explain table g.codebase hop := by
  have hfind : ∀ xs : List Dependency, (xs.map (Dependency.relocate e)).find? (·.target = hop.2) =
      (xs.find? (·.target = hop.2)).map (Dependency.relocate e) := fun xs ↦ List.find?_map ..
  rw [ModuleGraph.explain, ModuleGraph.explain, lookup_map_snd]
  have hget : ((table.lookup hop.1).map (List.map (Dependency.relocate e))).getD [] =
      ((table.lookup hop.1).getD []).map (Dependency.relocate e) := by
    cases table.lookup hop.1 <;> rfl
  rw [hget, hfind]
  cases ((table.lookup hop.1).getD []).find? (·.target = hop.2) with
  | none => rfl
  | some x =>
    have hdescribe : (x.relocate e).edge.describe k.codebase = x.edge.describe g.codebase :=
      r.describe x.edge
    simp only [Option.map_some, hdescribe]

theorem checkCyclesOfRoot (root : String) : k.checkCyclesOfRoot root = g.checkCyclesOfRoot root := by
  have htable := r.table fun m (hm : m ∈ g.modules) ↦ hm
  rw [← r.modules] at htable
  have hall : k.allDependencies = g.allDependencies.map fun entry ↦
      (entry.1, entry.2.map (Dependency.relocate e)) := htable
  have hexplain : ModuleGraph.explain k.allDependencies k.codebase =
      ModuleGraph.explain g.allDependencies g.codebase := by
    rw [hall]
    exact funext fun hop ↦ r.explain g.allDependencies hop
  have hcycle : ∀ cycle, cycleViolation k.allDependencies k.codebase cycle =
      cycleViolation g.allDependencies g.codebase cycle := fun cycle ↦ by
    rw [cycleViolation, cycleViolation, hexplain]
  rw [ModuleGraph.checkCyclesOfRoot, ModuleGraph.checkCyclesOfRoot, r.cyclesOfRoot, funext hcycle]

theorem checkCycles : k.checkCycles = g.checkCycles := by
  have hroots : (OrderedSet.ofList (k.roots.map Text.trim)).toList =
      (OrderedSet.ofList (g.roots.map Text.trim)).toList := r.roots
  rw [ModuleGraph.checkCycles, ModuleGraph.checkCycles, hroots, funext r.checkCyclesOfRoot]

theorem violations : k.violations = g.violations := by
  rw [ModuleGraph.violations, ModuleGraph.violations, r.checkCycles, r.modules, List.map_map]
  exact congrArg (fun parts ↦ g.checkCycles ++ Violations.concat parts)
    (List.map_congr_left fun m hm ↦ r.checkModule hm)

end Mirrors

namespace Relocates

variable (r : Relocates e g k)

include r

theorem module_codebase (hm : m ∈ g.modules) : m.codebase.Relocates e k.codebase :=
  r.inside m hm ▸ r.codebase

theorem mirrors : Mirrors e g k where
  injective := r.codebase.injective
  symbol := r.codebase.symbol
  modules := r.modules
  shared := r.shared
  managed m hm := by
    rw [m.qualifying_relocate (r.module_codebase hm), OrderedSet.size_image r.codebase.ascending]
  names m hm := by
    rw [m.interfaces_relocate (r.module_codebase hm), InterfaceFamily.names_relocate]
  edges _ hm := Module.edges_relocate (r.module_codebase hm)
  owner id _ := r.owner id
  admits _ hm id _ l := l.admits_relocate (r.module_codebase hm) id
  exposes m hm id _ := m.exposes_relocate (r.module_codebase hm) id
  roots := r.roots
  stereotypes := r.stereotypes

theorem dependencies (hm : m ∈ g.modules) :
    k.dependencies (m.relocate k.codebase) = (g.dependencies m).map (Dependency.relocate e) :=
  r.mirrors.dependencies hm

theorem violations : k.violations = g.violations := r.mirrors.violations

end Relocates

end ModuleGraph

end Modularity
