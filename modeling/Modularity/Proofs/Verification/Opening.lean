import Modularity.Proofs.Codebase.Opening
import Modularity.Proofs.Graph.Conditions
import Modularity.Proofs.Verification.Findings
import Modularity.Proofs.Verification.Relocation

namespace Modularity

open Layout Namespace

variable {c u v : Codebase} {o : GraphOptions} {g k : ModuleGraph} {m n : Module} {d : Dependency}
  {space : String} {id : Symbol.Id}

/-! ### Modules -/

namespace Module

def opening (m : Module) (space : String) : Module :=
  { m with declaration := { m.declaration with
      isOpen := m.declaration.isOpen || m.space.name = space } }

theorem interfaces_opening : (m.relocate (m.codebase.opening space)).interfaces = m.interfaces := by
  have hdeclared : ∀ other, ((m.codebase.opening space).descriptor? other).map (·.interfaces) =
      (m.codebase.descriptor? other).map (·.interfaces) := by
    intro other
    rw [Codebase.descriptor?_opening, Option.map_map]
    rfl
  have hscoped : (m.relocate (m.codebase.opening space)).scopedInterfaces = m.scopedInterfaces := by
    have hsame : ∀ n : Namespace, n.codebase = m.codebase → ∀ name,
        Interface.ofNamespace name (n.relocate (m.codebase.opening space)) =
          Interface.ofNamespace name n := by
      intro n hn name
      rw [← hn]
      rfl
    exact (scopedInterfaces_of_declared (m := m) (d := m.codebase.opening space) (f := fun i ↦ i)
      rfl hdeclared hsame).trans (List.map_id' _)
  rw [interfaces, interfaces, hscoped]
  rfl

theorem exposes_opening (hid : m.contains id) :
    (m.opening space).exposes id = (m.exposes id || decide (m.space.name = space)) := by
  have hopen : (m.opening space).isOpen = (m.isOpen || decide (m.space.name = space)) := rfl
  have hcontains : (m.opening space).contains id = m.contains id := rfl
  have hinterfaces : (m.opening space).interfaces = m.interfaces := rfl
  rw [exposes, exposes, hopen, hcontains, hinterfaces, hid]
  cases m.isOpen <;> cases decide (m.space.name = space) <;> simp

end Module

theorem AllowList.admits_congr (l : AllowList) (hname : m.name = n.name)
    (hinterfaces : m.interfaces = n.interfaces) (id : Symbol.Id) : l.admits m id = l.admits n id := by
  have hone : ∀ p : Permission, p.admits m id = p.admits n id := fun p ↦ by
    rw [Permission.admits, Permission.admits, hname, hinterfaces]
  rw [admits, admits, funext hone]

/-! ### The layout -/

namespace Layout

theorem candidates_opening (detection : Detection) (roots : List String) :
    candidates detection (c.opening space) roots = candidates detection c roots := by
  have hdeclared : declaredSpaces (c.opening space) = declaredSpaces c := by
    simp only [declaredSpaces, Codebase.opening, OrderedMap.values_mapValues, List.filter_map,
      List.map_map, Function.comp_def, Descriptor.opening, Option.isSome_map]
  have hdirect : ∀ root, (c.opening space).directSubspaces root = c.directSubspaces root := fun _ ↦ rfl
  cases detection with
  | directSubspaces => simp only [candidates, directCandidates, hdeclared, hdirect]
  | declaredSpaces => simp only [candidates, declaredCandidates, hdeclared]

theorem declaration_opening (hc : c.Coherent) (hdeclares : Declares c space) (other : String) :
    (((c.opening space).descriptor? other).bind (·.module)).getD {} =
      { ((c.descriptor? other).bind (·.module)).getD {} with
        isOpen := (((c.descriptor? other).bind (·.module)).getD {}).isOpen || other = space } := by
  by_cases hother : other = space
  · obtain ⟨d, hd, hsome⟩ := hdeclares
    obtain ⟨declaration, hmodule⟩ := Option.isSome_iff_exists.1 hsome
    rw [hother, hc.descriptor?_opening_self hd hmodule, hd]
    simp [hmodule]
  · rw [hc.descriptor?_opening_of_ne hother]
    simp [hother]

theorem Candidate.module_opening (hc : c.Coherent) (hdeclares : Declares c space) (k : Candidate) :
    k.module (c.opening space) o =
      (k.module c o).map fun m ↦ (m.opening space).relocate (c.opening space) := by
  have hdeclaration : ((⟨c.opening space, k.space⟩ : Namespace).descriptor?.bind (·.module)).getD {} =
      { ((⟨c, k.space⟩ : Namespace).descriptor?.bind (·.module)).getD {} with
        isOpen := (((⟨c, k.space⟩ : Namespace).descriptor?.bind (·.module)).getD {}).isOpen ||
          k.space = space } := declaration_opening hc hdeclares k.space
  simp only [Candidate.module, Module.ofNamespace, hdeclaration,
    apply_ite (Except.map fun m ↦ (Module.opening m space).relocate (c.opening space))]
  rfl

end Layout

namespace ModuleGraph

def opening (g : ModuleGraph) (space : String) : ModuleGraph :=
  g.mapModules g.codebase g.options (·.opening space)

theorem build_opening (hc : c.Coherent) (hdeclares : Declares (scope c o) space) (pick : Nat) :
    build (c.opening space) o pick =
      (build c o pick).map fun g ↦ (g.opening space).relocate ((scope c o).opening space) o := by
  have hscope : (c.opening space).restrict (trimmedRoots o.roots) o.ignore =
      (scope c o).opening space := Codebase.restrict_opening ..
  have hmodule : ∀ k : Candidate, k.module ((scope c o).opening space) o =
      (k.module (scope c o) o).map fun m ↦ (m.opening space).relocate ((scope c o).opening space) :=
    fun k ↦ k.module_opening (coherent_scope hc) hdeclares
  have htwice : ∀ g : ModuleGraph, (g.opening space).relocate ((scope c o).opening space) o =
      g.mapModules ((scope c o).opening space) o
        fun m ↦ (m.opening space).relocate ((scope c o).opening space) := by
    intro g
    simp only [relocate, opening, mapModules, List.map_map, Function.comp_def]
  simp only [htwice]
  simp only [← hscope] at hmodule ⊢
  refine build_map (fun _ ↦ rfl) (fun _ ↦ rfl) rfl rfl rfl ?_ hmodule
  rw [hscope, candidates_opening]
  rfl

/-! ### A module opened in place -/

theorem module?_opening (name : String) :
    (g.opening space).module? name = (g.module? name).map (·.opening space) := List.find?_map ..

theorem allowList_opening (m : Module) :
    (g.opening space).allowList (m.opening space) = g.allowList m := by
  have hshared : (g.opening space).shared.map (·.name) = g.shared.map (·.name) := List.map_map ..
  rw [allowList, allowList, hshared]
  rfl

namespace Built

theorem owner?_opening (h : Built c o g) (id : Symbol.Id) :
    (g.opening space).owner? id = (g.owner? id).map (·.opening space) := by
  have hspace : ∀ m : Module, (m.opening space).space = m.space := fun _ ↦ rfl
  exact h.owner?_mapModules hspace id

theorem dependencies_opening (h : Built c o g) (m : Module) :
    (g.opening space).dependencies (m.opening space) = g.dependencies m := by
  have hresolve : (g.opening space).resolve? (m.opening space) = g.resolve? m := by
    funext e
    rw [resolve?, resolve?, h.owner?_opening, Option.filter_map, Option.map_map]
    rfl
  rw [dependencies, dependencies, hresolve]
  rfl

theorem checkCycles_opening (h : Built c o g) : (g.opening space).checkCycles = g.checkCycles := by
  have htable : ∀ ms : List Module, (ms.map (·.opening space)).map
      (fun m ↦ (m.name, (g.opening space).dependencies m)) = ms.map fun m ↦ (m.name, g.dependencies m) := by
    intro ms
    rw [List.map_map]
    exact List.map_congr_left fun m _ ↦ congrArg (Prod.mk m.name) (h.dependencies_opening m)
  have hmodules : ∀ root, (g.opening space).modulesOfRoot root =
      (g.modulesOfRoot root).map (·.opening space) := fun root ↦ List.filter_map ..
  have hnames : ∀ ms : List Module, (ms.map (·.opening space)).map (·.name) = ms.map (·.name) :=
    fun ms ↦ List.map_map ..
  have hcycles : ∀ root, (g.opening space).cyclesOfRoot root = g.cyclesOfRoot root := by
    intro root
    simp only [cyclesOfRoot, hmodules, htable, hnames]
  have hroot : (g.opening space).checkCyclesOfRoot = g.checkCyclesOfRoot := by
    funext root
    have hall : (g.opening space).allDependencies = g.allDependencies := htable g.modules
    rw [checkCyclesOfRoot, checkCyclesOfRoot, hall, hcycles]
    rfl
  rw [checkCycles, checkCycles, hroot]
  rfl

end Built

end ModuleGraph

/-- Whether a finding is that a symbol of the module of a namespace is not exposed. -/
def Finding.isLifted (x : Finding) (space : String) : Bool :=
  x.rule = .exposure ∧ x.target.space.name = space

def Finding.opening (x : Finding) (space : String) : Finding :=
  { x with origin := x.origin.opening space, target := x.target.opening space }

namespace ModuleGraph

theorem breaks_opening (hid : n.contains d.edge.target) (rule : Rule) :
    (g.opening space).breaks (m.opening space) (n.opening space) d rule =
      (g.breaks m n d rule && !(⟨m, n, d, rule⟩ : Finding).isLifted space) := by
  cases rule with
  | allowance =>
    rw [breaks, breaks, allowList_opening]
    exact (Bool.and_true _).symm
  | exposure =>
    -- an open module exposes what it contains, and the target of a dependency is in its module
    rw [breaks, breaks, n.exposes_opening hid, Bool.not_or]
    simp [Finding.isLifted]
  | injection => exact (Bool.and_true _).symm

theorem breach_opening (x : Finding) :
    (g.opening space).breach (x.opening space) = g.breach x := by
  obtain ⟨m, n, d, rule⟩ := x
  cases rule with
  | allowance => exact congrArg (g.disallowed m n · d) (allowList_opening m)
  | exposure => rfl
  | injection => rfl

namespace Built

theorem findings_opening (h : Built c o g) (hc : c.Coherent) :
    (g.opening space).findings =
      (g.findings.filter fun x ↦ !x.isLifted space).map (·.opening space) := by
  have hdependencies : ∀ m ∈ g.modules,
      (g.opening space).dependencies (m.opening space) = (g.dependencies m).map id := fun m _ ↦ by
    rw [h.dependencies_opening, List.map_id]
  refine findings_map (f := (·.opening space)) (e := id) rfl hdependencies (fun _ ↦ module?_opening _)
    fun m _ d hd n hn rule ↦ ?_
  have howner := (h.module?_target_iff hc hd).1 hn
  exact breaks_opening ((h.owner?_eq_some_iff hc).1 howner).2 rule

theorem violations_opening (h : Built c o g) (hc : c.Coherent) :
    (g.opening space).violations.toList =
      g.checkCycles.toList ++ (g.findings.filter fun x ↦ !x.isLifted space).map g.breach := by
  rw [toList_violations, h.checkCycles_opening, h.findings_opening hc, List.map_map]
  exact congrArg (g.checkCycles.toList ++ List.map · _) (funext breach_opening)

/-! ### The graph of the changed codebase -/

theorem owner?_reopened (h : Built c o g) (hc : c.Coherent) (hd : (c.opening space).Coherent)
    (hk : Built (c.opening space) o ((g.opening space).relocate (g.codebase.opening space) o))
    (id : Symbol.Id) :
    ((g.opening space).relocate (g.codebase.opening space) o).owner? id =
      (g.owner? id).map fun m ↦ (m.opening space).relocate (g.codebase.opening space) := by
  refine h.owner?_map hk (List.map_map ..) hc hd fun m hm ↦ ?_
  show ((m.opening space).relocate (g.codebase.opening space)).contains id = m.contains id
  rw [← h.module_codebase hm]
  rfl

theorem mirrors_opening (h : Built c o g) (hc : c.Coherent) (hd : (c.opening space).Coherent)
    (hk : Built (c.opening space) o ((g.opening space).relocate (g.codebase.opening space) o)) :
    Mirrors (fun i ↦ i) (g.opening space)
      ((g.opening space).relocate (g.codebase.opening space) o) := by
  have hinside : ∀ m ∈ (g.opening space).modules, m.codebase = g.codebase := by
    intro m hm
    obtain ⟨n, hn, rfl⟩ := List.mem_map.1 hm
    show n.codebase = g.codebase
    exact h.module_codebase hn
  have hinterfaces : ∀ m ∈ (g.opening space).modules,
      (m.relocate (g.codebase.opening space)).interfaces = m.interfaces := by
    intro m hm
    rw [← hinside m hm, m.interfaces_opening]
  have hcontains : ∀ m ∈ (g.opening space).modules, ∀ id,
      (m.relocate (g.codebase.opening space)).contains id = m.contains id := by
    intro m hm id
    rw [← hinside m hm]
    rfl
  have hroots : (g.opening space).roots = o.roots := congrArg GraphOptions.roots h.options
  -- symbols keep their positions, and the index by namespaces is that of the same symbols
  exact {
    injective := fun _ _ heq ↦ heq
    symbol := fun _ ↦ rfl
    modules := rfl
    shared := rfl
    managed := fun m hm ↦ by
      show (m.relocate (g.codebase.opening space)).qualifying.size = m.qualifying.size
      rw [← hinside m hm]
      rfl
    names := fun m hm ↦ congrArg InterfaceFamily.names (hinterfaces m hm)
    edges := fun m hm ↦ by
      show (m.relocate (g.codebase.opening space)).edges = m.edges.map (Edge.relocate fun i ↦ i)
      rw [← hinside m hm]
      exact (List.map_id' _).symm
    owner := fun id _ ↦ by
      rw [h.owner?_reopened hc hd hk, h.owner?_opening, Option.map_map]
      rfl
    admits := fun m hm id _ l ↦ by
      have hname : (m.relocate (g.codebase.opening space)).name = m.name := rfl
      exact l.admits_congr hname (hinterfaces m hm) id
    exposes := fun m hm id _ ↦ by
      have hopen : (m.relocate (g.codebase.opening space)).isOpen = m.isOpen := rfl
      show (m.relocate (g.codebase.opening space)).exposes id = m.exposes id
      rw [Module.exposes, Module.exposes, hopen, hcontains m hm, hinterfaces m hm]
    roots := by
      rw [hroots]
      rfl
    stereotypes := congrArg GraphOptions.stereotypes h.options.symm }

/-- What a module manages, presents and depends on is the same in the graph of the changed codebase. -/
theorem module_reopened (h : Built c o g)
    (r : Mirrors (fun i ↦ i) (g.opening space) k) (hk : k.codebase = g.codebase.opening space)
    (hm : m ∈ g.modules) :
    ((m.opening space).relocate k.codebase).qualifying = m.qualifying ∧
    ((m.opening space).relocate k.codebase).interfaces = m.interfaces ∧
    k.dependencies ((m.opening space).relocate k.codebase) = g.dependencies m := by
  have hdependencies := r.dependencies (List.mem_map_of_mem hm)
  rw [h.dependencies_opening] at hdependencies
  refine ⟨?_, ?_, hdependencies.trans (List.map_id' _)⟩
  · rw [hk, ← h.module_codebase hm]
    rfl
  · rw [hk, ← h.module_codebase hm]
    exact (m.opening space).interfaces_opening

/-- The closed module that a namespace of a root declares is the one of that namespace. -/
theorem exists_closed (h : Built c o g) (hc : c.Coherent) (hopens : c.Opens space v)
    (hroot : ∃ root ∈ trimmedRoots o.roots, isWithin root space) :
    ∃ M ∈ g.modules, M.isOpen = false ∧ ∀ m ∈ g.modules, m.space.name = space ↔ m = M := by
  obtain ⟨d, declaration, hd, hmodule, hclosed, -⟩ := hopens.declared
  obtain ⟨M, hM, hspace, hdeclaration⟩ :=
    h.exists_module_of_declares hc ⟨d, hd, Option.isSome_of_eq_some hmodule⟩ hroot
  rw [hd, Option.bind_some, hmodule, Option.some.injEq] at hdeclaration
  have hshut : M.isOpen = false := by
    rw [Module.isOpen, ← hdeclaration, hclosed]
  refine ⟨M, hM, hshut, fun m hm ↦ ⟨fun hm' ↦ ?_, fun heq ↦ heq ▸ hspace⟩⟩
  refine h.eq_of_isWithin hm hM ?_
  rw [hm', hspace]
  exact isWithin_refl _

end Built

/-- Opening the module that a namespace of a root declares lifts the exposure violations of its own symbols
only. The build may fail with the same errors, or it gives the same modules up to that flag, with the same
symbols, interfaces and dependencies, and the same owner of every symbol. The violations are the cycles
and one for each finding: those of the exposure rule whose target is that module are gone, and the others
are the same in the same order. -/
theorem opening_lifts (hu : u.Reachable) (hv : v.Reachable) (hopens : u.Opens space v)
    (hroot : ∃ root ∈ trimmedRoots o.roots, isWithin root space) :
    ((∃ k, build v o = .ok k) ↔ ∃ g, build u o = .ok g) ∧
    (∀ err, MayFail v o err ↔ MayFail u o err) ∧
    ∀ g k, build u o = .ok g → build v o = .ok k →
      (∃ M ∈ g.modules, M.isOpen = false ∧ ∀ m ∈ g.modules, m.space.name = space ↔ m = M) ∧
      k.modules = g.modules.map (fun m ↦ (m.opening space).relocate k.codebase) ∧
      (∀ id, k.owner? id = (g.owner? id).map fun m ↦ (m.opening space).relocate k.codebase) ∧
      (∀ m ∈ g.modules,
        ((m.opening space).relocate k.codebase).qualifying = m.qualifying ∧
        ((m.opening space).relocate k.codebase).interfaces = m.interfaces ∧
        k.dependencies ((m.opening space).relocate k.codebase) = g.dependencies m) ∧
      (∀ y ∈ g.checkCycles.toList, y.kind = .cycle) ∧
      (∀ x ∈ g.findings, x.dependency ∈ g.dependencies x.origin ∧
        g.owner? x.dependency.edge.target = some x.target ∧ (g.breach x).kind = x.rule.kind) ∧
      g.violations.toList = g.checkCycles.toList ++ g.findings.map g.breach ∧
      k.violations.toList = g.checkCycles.toList ++ (g.findings.filter fun x ↦
        ¬ (x.rule = .exposure ∧ x.target.space.name = space)).map g.breach := by
  have hc := hu.coherent
  have hd := hv.coherent
  obtain rfl := hopens.eq_opening hc hd
  have hscope : Declares (scope u o) space := by
    obtain ⟨d, declaration, hdescriptor, hmodule, -⟩ := hopens.declared
    rw [Declares, descriptor?_scope hroot]
    exact ⟨d, hdescriptor, Option.isSome_of_eq_some hmodule⟩
  have hbuild := build_opening hc hscope 0
  refine ⟨?_, fun err ↦ ?_, fun g k hg hk ↦ ?_⟩
  · rw [hbuild]
    cases build u o <;> simp [Except.map]
  · rw [MayFail, MayFail]
    simp only [build_opening hc hscope, map_error_iff]
  have h := build_eq_ok.1 hg
  have hgraph : k = (g.opening space).relocate (g.codebase.opening space) o := by
    rw [hbuild, hg] at hk
    rw [h.codebase]
    exact (Except.ok.inj hk).symm
  subst hgraph
  have r := h.mirrors_opening hc hd (build_eq_ok.1 hk)
  refine ⟨h.exists_closed hc hopens hroot, List.map_map ..,
    h.owner?_reopened hc hd (build_eq_ok.1 hk), fun m hm ↦ h.module_reopened r rfl hm, fun y hy ↦ ?_,
    fun x hx ↦ ?_, toList_violations, ?_⟩
  · rw [h.toList_checkCycles] at hy
    obtain ⟨root, -, hy⟩ := List.mem_flatMap.1 hy
    exact kind_of_mem_checkCyclesOfRoot hy
  · obtain ⟨-, hx, hn, -⟩ := mem_findings.1 hx
    exact ⟨hx, (h.module?_target_iff hc hx).1 hn, breach_kind x⟩
  · have hkept : ∀ x : Finding, (!x.isLifted space) =
        decide (¬ (x.rule = .exposure ∧ x.target.space.name = space)) := fun _ ↦ decide_not.symm
    rw [r.violations, h.violations_opening hc, funext hkept]

/-- Opening the store of the bazaar spares the bank its only violation, and the stall one of three. -/
theorem opening_lifts_bazaar :
    (bazaar false).Reachable ∧ (bazaar true).Reachable ∧
    (bazaar false).Opens "bazaar.store" (bazaar true) ∧
    (∃ root ∈ trimmedRoots ["bazaar"], isWithin root "bazaar.store") ∧
    ∃ g k, build (bazaar false) { roots := ["bazaar"] } = .ok g ∧
      build (bazaar true) { roots := ["bazaar"] } = .ok k ∧
      k.violations.toList.map (fun v ↦ (v.module, v.kind)) =
        [(some "stall", .disallowedDependency), (some "stall", .fieldInjection)] ∧
      g.violations.toList = g.checkCycles.toList ++ g.findings.map g.breach ∧
      k.violations.toList = g.checkCycles.toList ++ (g.findings.filter fun x ↦
        ¬ (x.rule = .exposure ∧ x.target.space.name = "bazaar.store")).map g.breach := by
  have hstore : bazaar true = (bazaar false).opening "bazaar.store" := by
    rw [bazaar, bazaar, ← Codebase.index_opening]
    exact congrArg (Codebase.index _ _) (by decide +kernel)
  have hopens : (bazaar false).Opens "bazaar.store" (bazaar true) := by
    rw [hstore]
    have hdeclared : (bazaar false).descriptor? "bazaar.store" =
        some { name := "bazaar.store", module := some {} } := by decide +kernel
    exact (bazaar_reachable false).coherent.opens_opening hdeclared rfl rfl
  have hroot : ∃ root ∈ trimmedRoots ["bazaar"], isWithin root "bazaar.store" := by decide +kernel
  have hkinds : (build (bazaar true) { roots := ["bazaar"] }).toOption.map
      (fun k ↦ k.violations.toList.map fun v ↦ (v.module, v.kind)) =
      some [(some "stall", .disallowedDependency), (some "stall", .fieldInjection)] := by
    decide +kernel
  obtain ⟨k, hk, hkinds⟩ := Option.map_eq_some_iff.1 hkinds
  have hopened := ok_of_toOption hk
  obtain ⟨hsucceeds, -, hlifts⟩ :=
    opening_lifts (o := { roots := ["bazaar"] }) (bazaar_reachable false) (bazaar_reachable true)
      hopens hroot
  obtain ⟨g, hg⟩ := hsucceeds.1 ⟨k, hopened⟩
  obtain ⟨-, -, -, -, -, -, hviolations, hlifted⟩ := hlifts g k hg hopened
  exact ⟨bazaar_reachable false, bazaar_reachable true, hopens, hroot, g, k, hg, hopened, hkinds,
    hviolations, hlifted⟩

end ModuleGraph

end Modularity
