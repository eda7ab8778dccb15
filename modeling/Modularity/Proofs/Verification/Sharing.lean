import Modularity.Proofs.Interface.Facets
import Modularity.Proofs.Verification.Findings

namespace Modularity

variable {c : Codebase} {o : GraphOptions} {g : ModuleGraph} {m n shared : Module} {d : Dependency}
  {id : Symbol.Id}

/-- What an entry of an allow-list admits: a whole module, what any of its interfaces has, or what one of
them has. -/
theorem Permission.admits_iff {p : Permission} :
    p.admits m id ↔ p.module = m.name ∧ (p.interface = none ∨
      (p.interface = some "*" ∧ ∃ i ∈ m.interfaces.toList, i.contains id) ∨
        ∃ name i, p.interface = some name ∧ m.interfaces.get? name = some i ∧ i.contains id) := by
  rw [admits, Bool.and_eq_true, decide_eq_true_eq]
  refine and_congr_right fun _ ↦ ?_
  cases p.interface with
  | none => simp
  | some name =>
    have hany : m.interfaces.contains id ↔ ∃ i ∈ m.interfaces.toList, i.contains id := List.any_eq_true
    by_cases hstar : name = "*"
    · -- an interface that is itself called `*` is one of those that `*` stands for
      have hnamed : ∀ i, m.interfaces.get? "*" = some i → i.contains id →
          ∃ i ∈ m.interfaces.toList, i.contains id :=
        fun i hi hid ↦ ⟨i, InterfaceFamily.mem_toList.2 ⟨"*", hi⟩, hid⟩
      simpa [hstar, hany] using hnamed
    · simp [hstar, Option.any_eq_true]

def GraphOptions.sharing (o : GraphOptions) (name : String) : GraphOptions :=
  { o with shared := o.shared ++ [name] }

/-- Whether a finding is that a dependency on a module is not allowed. -/
def Finding.isSpared (x : Finding) (name : String) : Bool :=
  x.rule = .allowance ∧ x.target.name = name

namespace ModuleGraph

def sharing (g : ModuleGraph) (m : Module) : ModuleGraph :=
  { g with options := g.options.sharing m.name, shared := g.shared ++ [m] }

theorem findShared_append {modules ms : List Module} {names : List String}
    (h : findShared modules names = .ok ms) (hm : modules.find? (·.name = m.name) = some m) :
    findShared modules (names ++ [m.name]) = .ok (ms ++ [m]) := by
  refine mapM_ok_iff.2 (List.rel_append (mapM_ok_iff.1 h) (.cons ?_ .nil))
  rw [hm]

namespace Built

theorem sharing (h : Built c o g) (hm : m ∈ g.modules) :
    Built c (o.sharing m.name) (g.sharing m) where
  roots := h.roots
  codebase := h.codebase
  options := congrArg (GraphOptions.sharing · m.name) h.options
  laidOut := h.laidOut
  ascending := h.ascending
  shared := findShared_append h.shared (StrictLinear.find?_key h.ascending hm)
  owners := h.owners
  fresh := h.fresh

theorem mem_shared_iff (h : Built c o g) (hm : m ∈ g.modules) :
    m ∈ g.shared ↔ m.name ∈ o.shared := by
  rw [mem_of_mapM_ok h.shared]
  constructor
  · intro hx
    obtain ⟨name, hname, hfound⟩ := hx
    cases hfind : g.modules.find? (·.name = name) with
    | none =>
      rw [hfind] at hfound
      nomatch hfound
    | some n =>
      rw [hfind] at hfound
      obtain rfl := Except.ok.inj hfound
      have hn := List.find?_some hfind
      rw [decide_eq_true_eq] at hn
      exact hn ▸ hname
  · intro hy
    refine ⟨m.name, hy, ?_⟩
    rw [StrictLinear.find?_key h.ascending hm]

theorem allowList_admits_iff (h : Built c o g) (hm : m ∈ g.modules) (hn : n ∈ g.modules) (hne : n ≠ m) :
    (g.allowList m).admits n id ↔ m.declaration.allowed = [] ∨ n ∈ g.shared ∨
      ∃ entry ∈ m.declaration.allowed, (Permission.ofEntry entry).admits n id := by
  rw [allowList, Module.allowList_admits fun heq ↦ hne (h.eq_of_name hn hm heq), h.mem_shared hn]

end Built

theorem admits_sharing (hne : n.name ≠ m.name) :
    ((g.sharing shared).allowList m).admits n id =
      ((g.allowList m).admits n id || n.name = shared.name) := by
  have hnames : (g.sharing shared).shared.map (·.name) = g.shared.map (·.name) ++ [shared.name] :=
    List.map_append ..
  rw [Bool.eq_iff_iff, Bool.or_eq_true, decide_eq_true_eq, allowList, allowList,
    Module.allowList_admits hne, Module.allowList_admits hne, hnames, List.mem_append,
    List.mem_singleton, or_right_comm, ← or_assoc]

theorem breaks_sharing (hne : n.name ≠ m.name) (rule : Rule) :
    (g.sharing shared).breaks m n d rule =
      (g.breaks m n d rule && !(⟨m, n, d, rule⟩ : Finding).isSpared shared.name) := by
  cases rule with
  | allowance =>
    rw [breaks, breaks, admits_sharing hne, Bool.not_or]
    simp [Finding.isSpared]
  | exposure => exact (Bool.and_true _).symm
  | injection => exact (Bool.and_true _).symm

theorem findings_sharing :
    (g.sharing shared).findings = g.findings.filter fun x ↦ !x.isSpared shared.name := by
  have hmodules : (g.sharing shared).modules = g.modules.map id := (List.map_id _).symm
  have hdependencies : ∀ m ∈ g.modules, (g.sharing shared).dependencies m = (g.dependencies m).map id :=
    fun _ _ ↦ (List.map_id _).symm
  have htarget : ∀ d : Dependency,
      (g.sharing shared).module? d.target = (g.module? d.target).map id := fun _ ↦
    (congrFun Option.map_id _).symm
  refine (findings_map (f := id) (e := id) hmodules hdependencies htarget
    fun m _ d hd n hn rule ↦ ?_).trans (List.map_id _)
  -- no dependency leads back to its own module, the only one that a list never gets as shared
  have hname : n.name = d.target := by simpa using List.find?_some hn
  exact breaks_sharing (hname ▸ target_ne_of_mem_dependencies hd) rule

/-- Shared modules only relax allow-lists. The allow-list of a module admits a symbol of another module
exactly if nothing is declared, the other module is shared, or a declared entry names that module without
an interface, with `*` for any of its interfaces that has the symbol, or with one that has it. So a build
with one more shared module succeeds and gives the same modules, owners, dependencies and cycles; and of
the rules that dependencies break, in their order, those go that forbid a dependency on that module. -/
theorem sharing_relaxes (hbuild : build c o = .ok g) :
    (∀ m ∈ g.modules, m ∈ g.shared ↔ m.name ∈ o.shared) ∧
    (∀ m ∈ g.modules, ∀ n ∈ g.modules, n ≠ m → ∀ id, (g.allowList m).admits n id ↔
      m.declaration.allowed = [] ∨ n ∈ g.shared ∨ ∃ entry ∈ m.declaration.allowed, ∃ p,
        Permission.ofEntry entry = p ∧ p.module = n.name ∧ (p.interface = none ∨
          (p.interface = some "*" ∧ ∃ i ∈ n.interfaces.toList, i.contains id) ∨
            ∃ name i, p.interface = some name ∧ n.interfaces.get? name = some i ∧ i.contains id)) ∧
    ∀ shared ∈ g.modules, ∃ k, build c (o.sharing shared.name) = .ok k ∧
      k.modules = g.modules ∧ k.codebase = g.codebase ∧ k.owners = g.owners ∧
      k.shared = g.shared ++ [shared] ∧ (∀ m, k.dependencies m = g.dependencies m) ∧
      k.checkCycles = g.checkCycles ∧ (∀ v ∈ g.checkCycles.toList, v.kind = .cycle) ∧
      g.violations.toList = g.checkCycles.toList ++ g.findings.map g.breach ∧
      k.violations.toList = g.checkCycles.toList ++ k.findings.map k.breach ∧
      (∀ x, (g.breach x).kind = x.rule.kind ∧ (k.breach x).kind = x.rule.kind) ∧
      (∀ x ∈ g.findings, x.origin ∈ g.modules ∧ x.dependency ∈ g.dependencies x.origin ∧
        g.module? x.dependency.target = some x.target) ∧
      k.findings = g.findings.filter fun x ↦
        ¬ (x.rule = .allowance ∧ x.target.name = shared.name) := by
  have h := build_eq_ok.1 hbuild
  refine ⟨fun m hm ↦ h.mem_shared_iff hm, fun m hm n hn hne id ↦ ?_, fun shared hshared ↦ ?_⟩
  · simp only [h.allowList_admits_iff hm hn hne, Permission.admits_iff, exists_eq_left']
  · have hspared : ∀ x : Finding, (!x.isSpared shared.name) =
        decide (¬ (x.rule = .allowance ∧ x.target.name = shared.name)) := fun _ ↦ decide_not.symm
    refine ⟨g.sharing shared, build_eq_ok.2 (h.sharing hshared), rfl, rfl, rfl, rfl, fun _ ↦ rfl, rfl,
      fun v hv ↦ ?_, toList_violations, toList_violations,
      fun x ↦ ⟨breach_kind x, breach_kind x⟩, fun x hx ↦ ?_, ?_⟩
    · rw [h.toList_checkCycles] at hv
      obtain ⟨root, -, hv⟩ := List.mem_flatMap.1 hv
      exact kind_of_mem_checkCyclesOfRoot hv
    · obtain ⟨hm, hd, hn, -⟩ := mem_findings.1 hx
      exact ⟨hm, hd, hn⟩
    · rw [findings_sharing, funext hspared]

/-- Sharing the store of the bazaar spares the stall the one violation that it is not allowed. -/
theorem sharing_relaxes_bazaar :
    ∃ g k, build (bazaar false) { roots := ["bazaar"] } = .ok g ∧
      build (bazaar false) { roots := ["bazaar"], shared := ["store"] } = .ok k ∧
      k.violations.toList.map (fun v ↦ (v.module, v.kind)) =
        [(some "bank", .nonExposedSymbol), (some "stall", .nonExposedSymbol),
          (some "stall", .fieldInjection)] ∧
      k.findings = g.findings.filter fun x ↦ ¬ (x.rule = .allowance ∧ x.target.name = "store") := by
  have hnames : (build (bazaar false) { roots := ["bazaar"] }).toOption.map
      (fun g ↦ g.modules.map (·.name)) = some ["bank", "stall", "store"] := by decide +kernel
  have hkinds : (build (bazaar false) { roots := ["bazaar"], shared := ["store"] }).toOption.map
      (fun k ↦ k.violations.toList.map fun v ↦ (v.module, v.kind)) =
      some [(some "bank", .nonExposedSymbol), (some "stall", .nonExposedSymbol),
        (some "stall", .fieldInjection)] := by decide +kernel
  obtain ⟨g, hg, hnames⟩ := Option.map_eq_some_iff.1 hnames
  obtain ⟨k, hk, hkinds⟩ := Option.map_eq_some_iff.1 hkinds
  obtain ⟨-, -, hrelaxes⟩ := sharing_relaxes (ok_of_toOption hg)
  obtain ⟨store, hstore, hname⟩ := List.mem_map.1
    (hnames ▸ (by decide : "store" ∈ ["bank", "stall", "store"]))
  obtain ⟨k', hk', -, -, -, -, -, -, -, -, -, -, -, hfindings⟩ := hrelaxes store hstore
  rw [hname] at hk' hfindings
  obtain rfl : k = k' := Except.ok.inj ((ok_of_toOption hk).symm.trans hk')
  exact ⟨g, k, ok_of_toOption hg, ok_of_toOption hk, hkinds, hfindings⟩

end ModuleGraph

end Modularity
