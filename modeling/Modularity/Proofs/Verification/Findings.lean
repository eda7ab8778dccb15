import Modularity.Proofs.Verification.Soundness
import Modularity.Report.Basic

namespace Modularity

open Layout

inductive Rule where
  /-- The allow-list admits the dependency. -/
  | allowance
  /-- The target is exposed. -/
  | exposure
  /-- No field is filled, except in configurations. -/
  | injection
deriving DecidableEq

namespace Rule

def all : List Rule := [.allowance, .exposure, .injection]

theorem mem_all (rule : Rule) : rule ∈ all := by
  cases rule <;> decide

def kind : Rule → Violation.Kind
  | .allowance => .disallowedDependency
  | .exposure => .nonExposedSymbol
  | .injection => .fieldInjection

end Rule

/-- A rule that a dependency of one module on another one breaks. -/
structure Finding where
  origin : Module
  target : Module
  dependency : Dependency
  rule : Rule

def Finding.map (f : Module → Module) (e : Dependency → Dependency) (x : Finding) : Finding :=
  ⟨f x.origin, f x.target, e x.dependency, x.rule⟩

namespace ModuleGraph

def breaks (g : ModuleGraph) (origin target : Module) (d : Dependency) : Rule → Bool
  | .allowance => !(g.allowList origin).admits target d.edge.target
  | .exposure => !target.exposes d.edge.target
  | .injection => d.edge.isFieldInjection &&
      !g.options.stereotypes.isConfiguration (g.codebase.symbol d.edge.origin)

def findingsAt (g : ModuleGraph) (origin target : Module) (d : Dependency) : List Finding :=
  (Rule.all.filter (g.breaks origin target d)).map fun rule ↦ ⟨origin, target, d, rule⟩

def findingsOf (g : ModuleGraph) (m : Module) : List Finding :=
  (g.dependencies m).flatMap fun d ↦
    (g.module? d.target).toList.flatMap fun target ↦ g.findingsAt m target d

def findings (g : ModuleGraph) : List Finding := g.modules.flatMap g.findingsOf

def breach (g : ModuleGraph) (x : Finding) : Violation :=
  match x.rule with
  | .allowance => g.disallowed x.origin x.target (g.allowList x.origin) x.dependency
  | .exposure => g.unexposed x.origin x.target x.dependency
  | .injection => g.filledField x.origin x.dependency

def Precedes (g : ModuleGraph) (x y : Finding) : Prop :=
  x.origin.name < y.origin.name ∨ x.origin = y.origin ∧
    ([x.dependency, y.dependency].Sublist (g.dependencies x.origin) ∨
      x.dependency = y.dependency ∧ [x.rule, y.rule].Sublist Rule.all)

variable {c : Codebase} {o : GraphOptions} {g : ModuleGraph} {m n : Module} {d : Dependency}
  {x : Finding}

theorem breach_kind (x : Finding) : (g.breach x).kind = x.rule.kind := by
  obtain ⟨m, n, d, rule⟩ := x
  cases rule <;> rfl

theorem kind_of_mem_checkCyclesOfRoot {root : String} {v : Violation}
    (hv : v ∈ (g.checkCyclesOfRoot root).toList) : v.kind = .cycle := by
  obtain ⟨cycle, -, rfl⟩ := List.mem_map.1 hv
  rfl

theorem breach_module (x : Finding) : (g.breach x).module = some x.origin.name := by
  obtain ⟨m, n, d, rule⟩ := x
  cases rule <;> rfl

/-! ### No check hides another one -/

theorem toList_checkDependency :
    (g.checkDependency m n (g.allowList m) d).toList = (g.findingsAt m n d).map g.breach := by
  have hrule : ∀ rule, ((if g.breaks m n d rule then [rule] else []).map fun rule ↦
      (⟨m, n, d, rule⟩ : Finding)).map g.breach =
        if g.breaks m n d rule then [g.breach ⟨m, n, d, rule⟩] else [] := by
    intro rule
    split <;> rfl
  have hall : Rule.all.filter (g.breaks m n d) =
      (if g.breaks m n d .allowance then [.allowance] else []) ++
        (if g.breaks m n d .exposure then [.exposure] else []) ++
        if g.breaks m n d .injection then [.injection] else [] := by
    simp only [Rule.all, List.filter_cons, List.filter_nil]
    split <;> split <;> split <;> rfl
  have hallowed : g.checkAllowed m n (g.allowList m) d =
      if g.breaks m n d .allowance then [g.breach ⟨m, n, d, .allowance⟩] else [] := by
    rw [checkAllowed, breaks]
    cases (g.allowList m).admits n d.edge.target <;> rfl
  have hexposed : g.checkExposed m n d =
      if g.breaks m n d .exposure then [g.breach ⟨m, n, d, .exposure⟩] else [] := by
    rw [checkExposed, breaks]
    cases n.exposes d.edge.target <;> rfl
  have hinjection : g.checkInjection m d =
      if g.breaks m n d .injection then [g.breach ⟨m, n, d, .injection⟩] else [] := by
    rw [checkInjection, breaks]
    cases d.edge.isFieldInjection <;>
      cases g.options.stereotypes.isConfiguration (g.codebase.symbol d.edge.origin) <;> rfl
  rw [checkDependency, hallowed, hexposed, hinjection, findingsAt, hall]
  simp only [List.map_append, hrule]

theorem toList_checkModule : (g.checkModule m).toList = (g.findingsOf m).map g.breach := by
  simp only [checkModule, findingsOf, List.map_flatMap, toList_checkDependency]

theorem toList_violations :
    g.violations.toList = g.checkCycles.toList ++ g.findings.map g.breach := by
  rw [violations, Violations.toList_append, Violations.toList_concat, findings, List.map_flatMap,
    List.flatMap_map]
  simp only [toList_checkModule]

/-! ### The findings -/

theorem mem_findingsAt :
    x ∈ g.findingsAt m n d ↔ x = ⟨m, n, d, x.rule⟩ ∧ g.breaks m n d x.rule := by
  simp only [findingsAt, List.mem_map, List.mem_filter, Rule.mem_all, true_and]
  constructor
  · intro hx
    obtain ⟨rule, hrule, rfl⟩ := hx
    exact ⟨rfl, hrule⟩
  · intro hy
    exact ⟨x.rule, hy.2, hy.1.symm⟩

theorem mem_findingsOf :
    x ∈ g.findingsOf m ↔ x.origin = m ∧ x.dependency ∈ g.dependencies m ∧
      g.module? x.dependency.target = some x.target ∧
      g.breaks m x.target x.dependency x.rule := by
  simp only [findingsOf, List.mem_flatMap, Option.mem_toList, mem_findingsAt]
  constructor
  · intro hx
    obtain ⟨d, hd, n, hn, heq, hrule⟩ := hx
    rw [heq]
    exact ⟨rfl, hd, hn, hrule⟩
  · intro hy
    obtain ⟨rfl, hd, hn, hrule⟩ := hy
    exact ⟨x.dependency, hd, x.target, hn, rfl, hrule⟩

theorem mem_findings :
    x ∈ g.findings ↔ x.origin ∈ g.modules ∧ x.dependency ∈ g.dependencies x.origin ∧
      g.module? x.dependency.target = some x.target ∧
      g.breaks x.origin x.target x.dependency x.rule := by
  simp only [findings, List.mem_flatMap, mem_findingsOf]
  constructor
  · intro hx
    obtain ⟨m, hm, rfl, hfinding⟩ := hx
    exact ⟨hm, hfinding⟩
  · exact fun hy ↦ ⟨x.origin, hy.1, rfl, hy.2⟩

/-! ### Two graphs side by side -/

section

variable {k : ModuleGraph} {f : Module → Module} {e : Dependency → Dependency} {q : Finding → Bool}

theorem findingsAt_map (hbreaks : ∀ rule,
    k.breaks (f m) (f n) (e d) rule = (g.breaks m n d rule && q ⟨m, n, d, rule⟩)) :
    k.findingsAt (f m) (f n) (e d) = ((g.findingsAt m n d).filter q).map (.map f e) := by
  rw [findingsAt, findingsAt, List.filter_map, List.map_map, List.filter_filter, funext hbreaks]
  exact congrArg (List.map _) (List.filter_congr fun rule _ ↦ Bool.and_comm ..)

/-- Where modules and dependencies are changed and rules are broken as before or no more, findings are
changed in their order or go. -/
theorem findings_map (hmodules : k.modules = g.modules.map f)
    (hdependencies : ∀ m ∈ g.modules, k.dependencies (f m) = (g.dependencies m).map e)
    (htarget : ∀ d, k.module? (e d).target = (g.module? d.target).map f)
    (hbreaks : ∀ m ∈ g.modules, ∀ d ∈ g.dependencies m, ∀ n, g.module? d.target = some n → ∀ rule,
      k.breaks (f m) (f n) (e d) rule = (g.breaks m n d rule && q ⟨m, n, d, rule⟩)) :
    k.findings = (g.findings.filter q).map (.map f e) := by
  rw [findings, findings, hmodules, List.flatMap_map, List.filter_flatMap, List.map_flatMap]
  refine List.flatMap_congr fun m hm ↦ ?_
  rw [findingsOf, findingsOf, hdependencies m hm, List.flatMap_map, List.filter_flatMap,
    List.map_flatMap]
  refine List.flatMap_congr fun d hd ↦ ?_
  rw [htarget]
  cases hn : g.module? d.target with
  | none => rfl
  | some n =>
    simp only [Option.map_some, Option.toList_some, List.flatMap_singleton]
    exact findingsAt_map (hbreaks m hm d hd n hn)

end

/-! ### The order of findings -/

theorem findingsOf_pairwise (m : Module) : (g.findingsOf m).Pairwise g.Precedes := by
  have hrules : Rule.all.Pairwise fun r s ↦ [r, s].Sublist Rule.all :=
    List.pairwise_iff_forall_sublist.2 id
  have hdependencies : (g.dependencies m).Pairwise fun d d' ↦ [d, d'].Sublist (g.dependencies m) :=
    List.pairwise_iff_forall_sublist.2 id
  refine List.pairwise_flatMap.2 ⟨fun d _ ↦ ?_, hdependencies.imp fun {d d'} hsub x hx y hy ↦ ?_⟩
  · cases g.module? d.target with
    | none => exact .nil
    | some n =>
      rw [Option.toList_some, List.flatMap_singleton]
      exact List.pairwise_map.2 ((hrules.filter _).imp fun hsub ↦ .inr ⟨rfl, .inr ⟨rfl, hsub⟩⟩)
  · obtain ⟨n, -, hx⟩ := List.mem_flatMap.1 hx
    obtain ⟨n', -, hy⟩ := List.mem_flatMap.1 hy
    rw [(mem_findingsAt.1 hx).1, (mem_findingsAt.1 hy).1]
    exact .inr ⟨rfl, .inl hsub⟩

namespace Built

theorem findings_pairwise (h : Built c o g) : g.findings.Pairwise g.Precedes := by
  refine List.pairwise_flatMap.2 ⟨fun m _ ↦ findingsOf_pairwise m, ?_⟩
  refine h.ascending.imp fun {m n} hlt x hx y hy ↦ .inl ?_
  rw [(mem_findingsOf.1 hx).1, (mem_findingsOf.1 hy).1]
  exact hlt

variable (hc : c.Coherent)

include hc

theorem dependencies_nodup (h : Built c o g) (hm : m ∈ g.modules) : (g.dependencies m).Nodup := by
  apply List.Nodup.of_map (·.edge)
  rw [h.map_edge_dependencies hc hm]
  exact (nodup_eraseDups _).filter _

theorem findings_nodup (h : Built c o g) : g.findings.Nodup := by
  apply h.findings_pairwise.imp_of_mem
  rintro x y hx - (hlt | ⟨-, hsub | ⟨-, hsub⟩⟩) rfl
  · exact StrictLinear.irrefl _ hlt
  · have hnodup := (h.dependencies_nodup hc (mem_findings.1 hx).1).sublist hsub
    simp at hnodup
  · have hnodup : Rule.all.Nodup := by decide
    simpa using hnodup.sublist hsub

theorem module?_target_iff (h : Built c o g) (hd : d ∈ g.dependencies m) :
    g.module? d.target = some n ↔ g.owner? d.edge.target = some n := by
  obtain ⟨B, hB, howner, -, hname⟩ := h.owner?_target hc hd
  have hmodule : g.module? d.target = some B := h.module?_eq_some_iff.2 ⟨hB, hname.symm⟩
  rw [hmodule, howner]

theorem mem_findings_iff (h : Built c o g) (hm : m ∈ g.modules) (hd : d ∈ g.dependencies m)
    (hn : g.owner? d.edge.target = some n) (rule : Rule) :
    ⟨m, n, d, rule⟩ ∈ g.findings ↔ g.breaks m n d rule := by
  have hmodule := (h.module?_target_iff hc hd).2 hn
  simp [mem_findings, hm, hd, hmodule]

end Built

end ModuleGraph

/-! ### Reports -/

namespace Report

open ModuleGraph

theorem severity_eq_error_iff {v : Violation} : v.severity = .error ↔ v.kind ≠ .fieldInjection := by
  rw [Violation.severity]
  cases v.kind <;> decide

theorem errors_ofGraph (g : ModuleGraph) (vs : Violations) :
    (ofGraph g vs).errors = vs.toList.filter fun v ↦ v.kind ≠ .fieldInjection := by
  simp only [ofGraph, severity_eq_error_iff]

theorem warnings_ofGraph (g : ModuleGraph) (vs : Violations) :
    (ofGraph g vs).warnings = vs.toList.filter fun v ↦ v.kind = .fieldInjection := by
  simp only [ofGraph, ne_eq, severity_eq_error_iff, not_not]

theorem perm_ofGraph (g : ModuleGraph) (vs : Violations) :
    ((ofGraph g vs).errors ++ (ofGraph g vs).warnings).Perm vs.toList := by
  have hperm := List.filter_append_perm (fun v : Violation ↦ v.kind ≠ .fieldInjection) vs.toList
  rw [errors_ofGraph, warnings_ofGraph]
  simpa using hperm

theorem name_statusOf (errors warnings : List Violation) :
    ((statusOf errors warnings).name = "ok" ↔ errors = [] ∧ warnings = []) ∧
    ((statusOf errors warnings).name = "error" ↔ errors ≠ []) ∧
    ((statusOf errors warnings).name = "warning" ↔ errors = [] ∧ warnings ≠ []) := by
  cases errors <;> cases warnings <;> simp [statusOf, Status.name]

theorem status_ofGraph (g : ModuleGraph) (vs : Violations) :
    ((ofGraph g vs).status = "ok" ↔ vs.toList = []) ∧
    ((ofGraph g vs).status = "error" ↔ ∃ v ∈ vs.toList, v.kind ≠ .fieldInjection) ∧
    ((ofGraph g vs).status = "warning" ↔
      vs.toList ≠ [] ∧ ∀ v ∈ vs.toList, v.kind = .fieldInjection) := by
  have herrors : (ofGraph g vs).errors = [] ↔ ∀ v ∈ vs.toList, v.kind = .fieldInjection := by
    simp [errors_ofGraph, List.filter_eq_nil_iff]
  have hnil : vs.toList = [] ↔ (ofGraph g vs).errors = [] ∧ (ofGraph g vs).warnings = [] := by
    rw [← List.append_eq_nil_iff]
    constructor
    · exact fun hvs ↦ List.perm_nil.1 (hvs ▸ perm_ofGraph g vs)
    · exact fun hparts ↦ List.nil_perm.1 (hparts ▸ perm_ofGraph g vs)
  have hsome : (ofGraph g vs).errors ≠ [] ↔ ∃ v ∈ vs.toList, v.kind ≠ .fieldInjection := by
    rw [ne_eq, herrors]
    simp
  obtain ⟨hok, herror, hwarning⟩ := name_statusOf (ofGraph g vs).errors (ofGraph g vs).warnings
  refine ⟨hok.trans hnil.symm, herror.trans hsome, hwarning.trans ?_⟩
  rw [ne_eq, ne_eq, hnil, ← herrors]
  constructor
  · exact fun hx ↦ ⟨fun hnone ↦ hx.2 hnone.2, hx.1⟩
  · exact fun hy ↦ ⟨hy.2, fun hwarnings ↦ hy.1 ⟨hy.2, hwarnings⟩⟩

end Report

namespace ModuleGraph

variable {c : Codebase} {o : GraphOptions} {g : ModuleGraph}

/-- The violations of a graph are the cycles of its roots, by ascending names of the roots, and after them
one violation for each finding, in their order. A finding is a broken rule at a dependency of a module:
findings come by ascending names of their modules, for one module in the order of the dependencies, for
one dependency in the order of the checks, and none comes twice. Every dependency of a module leads to
a symbol that another module owns, and each of the three rules is broken there on its own account. A
report divides any violations into those of field injection and the others and keeps their order; its
status tells whether there are any and whether there are others. -/
theorem violations_exact (hc : c.Reachable) (hbuild : build c o = .ok g) :
    (g.violations.toList =
      ((trimmedRoots o.roots).flatMap fun root ↦ (g.checkCyclesOfRoot root).toList) ++
        g.findings.map g.breach) ∧
    (trimmedRoots o.roots).Pairwise (· < ·) ∧
    (∀ root, ∀ v ∈ (g.checkCyclesOfRoot root).toList, v.kind = .cycle) ∧
    (∀ x, (g.breach x).kind = x.rule.kind ∧ (g.breach x).module = some x.origin.name) ∧
    g.findings.Pairwise g.Precedes ∧ g.findings.Nodup ∧
    (∀ x ∈ g.findings, x.origin ∈ g.modules ∧ x.dependency ∈ g.dependencies x.origin ∧
      g.owner? x.dependency.edge.target = some x.target) ∧
    (∀ m ∈ g.modules, (g.dependencies m).Nodup ∧ ∀ d ∈ g.dependencies m,
      ∃ n ∈ g.modules, n ≠ m ∧ n.name = d.target ∧ g.owner? d.edge.target = some n ∧
        (⟨m, n, d, .allowance⟩ ∈ g.findings ↔ ¬ (g.allowList m).admits n d.edge.target) ∧
        (⟨m, n, d, .exposure⟩ ∈ g.findings ↔ ¬ n.exposes d.edge.target) ∧
        (⟨m, n, d, .injection⟩ ∈ g.findings ↔ d.edge.site = .injectedField ∧
          ¬ o.stereotypes.isConfiguration (c.symbol d.edge.origin))) ∧
    ∀ vs : Violations,
      (Report.ofGraph g vs).errors = vs.toList.filter (fun v ↦ v.kind ≠ .fieldInjection) ∧
      (Report.ofGraph g vs).warnings = vs.toList.filter (fun v ↦ v.kind = .fieldInjection) ∧
      ((Report.ofGraph g vs).errors ++ (Report.ofGraph g vs).warnings).Perm vs.toList ∧
      ((Report.ofGraph g vs).status = "ok" ↔ vs.toList = []) ∧
      ((Report.ofGraph g vs).status = "error" ↔ ∃ v ∈ vs.toList, v.kind ≠ .fieldInjection) ∧
      ((Report.ofGraph g vs).status = "warning" ↔
        vs.toList ≠ [] ∧ ∀ v ∈ vs.toList, v.kind = .fieldInjection) := by
  have hco := hc.coherent
  have h := build_eq_ok.1 hbuild
  refine ⟨?_, (OrderedSet.ofList _).ascending, fun _ _ ↦ kind_of_mem_checkCyclesOfRoot,
    fun x ↦ ⟨breach_kind x, breach_module x⟩,
    h.findings_pairwise, h.findings_nodup hco, fun x hx ↦ ?_,
    fun m hm ↦ ⟨h.dependencies_nodup hco hm, fun d hd ↦ ?_⟩, fun vs ↦ ⟨Report.errors_ofGraph g vs,
      Report.warnings_ofGraph g vs, Report.perm_ofGraph g vs, Report.status_ofGraph g vs⟩⟩
  · rw [toList_violations, h.toList_checkCycles]
  · obtain ⟨hm, hd, hn, -⟩ := mem_findings.1 hx
    exact ⟨hm, hd, (h.module?_target_iff hco hd).1 hn⟩
  · obtain ⟨n, hn, howner, hne, hname⟩ := h.owner?_target hco hd
    have hrule := h.mem_findings_iff hco hm hd howner
    have hsymbol : g.codebase.symbol d.edge.origin = c.symbol d.edge.origin := by
      rw [h.codebase, Codebase.symbol_restrict]
    refine ⟨n, hn, hne, hname.symm, howner, ?_, ?_, ?_⟩
    · simp [hrule, breaks]
    · simp [hrule, breaks]
    · simp [hrule, breaks, Edge.isFieldInjection, h.options, hsymbol]

def bazaar (isOpen : Bool) : Codebase := Codebase.index
  #[((Symbol.ofName "bazaar.bank.Teller").tagged "service").referring "bazaar.store.Keeper",
    ((Symbol.ofName "bazaar.stall.Vendor").tagged "service").withMember
      ((Member.newField "keeper" "bazaar.store.Keeper").tagged "autowired"),
    (Symbol.ofName "bazaar.store.Keeper").tagged "service", .ofName "bazaar.store.api.Till"]
  (.replicate 4 true)
  (Codebase.mergeDescriptors [{ name := "bazaar.stall", module := some { allowed := ["bank"] } },
    { name := "bazaar.store", module := some { isOpen } },
    { name := "bazaar.store.api", interfaces := ["api"] }])

theorem bazaar_reachable (isOpen : Bool) : (bazaar isOpen).Reachable := by
  refine @Codebase.Reachable.assembled (bazaar isOpen).arena.toList (bazaar isOpen).descriptors.values _ ?_
  cases isOpen <;> rfl

theorem violations_exact_bazaar :
    ∃ g, (bazaar false).Reachable ∧ build (bazaar false) { roots := ["bazaar"] } = .ok g ∧
      g.violations.toList.map (fun v ↦ (v.module, v.kind)) =
        [(some "bank", .nonExposedSymbol), (some "stall", .disallowedDependency),
          (some "stall", .nonExposedSymbol), (some "stall", .fieldInjection)] ∧
      g.violations.toList =
        ((trimmedRoots ["bazaar"]).flatMap fun root ↦ (g.checkCyclesOfRoot root).toList) ++
          g.findings.map g.breach ∧
      (Report.ofGraph g g.violations).status = "error" := by
  have hkinds : (build (bazaar false) { roots := ["bazaar"] }).toOption.map
      (fun g ↦ g.violations.toList.map fun v ↦ (v.module, v.kind)) =
      some [(some "bank", .nonExposedSymbol), (some "stall", .disallowedDependency),
        (some "stall", .nonExposedSymbol), (some "stall", .fieldInjection)] := by decide +kernel
  obtain ⟨g, hg, hkinds⟩ := Option.map_eq_some_iff.1 hkinds
  have hbuild := ok_of_toOption hg
  obtain ⟨hlist, -, -, -, -, -, -, -, hreport⟩ := violations_exact (bazaar_reachable false) hbuild
  obtain ⟨-, -, -, -, herror, -⟩ := hreport g.violations
  refine ⟨g, bazaar_reachable false, hbuild, hkinds, hlist, herror.2 ?_⟩
  have hmem := List.mem_cons_self (a := (some "bank", Violation.Kind.nonExposedSymbol))
    (l := [(some "stall", .disallowedDependency), (some "stall", .nonExposedSymbol),
      (some "stall", .fieldInjection)])
  rw [← hkinds] at hmem
  obtain ⟨v, hv, hpair⟩ := List.mem_map.1 hmem
  refine ⟨v, hv, fun hkind ↦ ?_⟩
  rw [hkind] at hpair
  nomatch (Prod.mk.inj hpair).2

end ModuleGraph

end Modularity
