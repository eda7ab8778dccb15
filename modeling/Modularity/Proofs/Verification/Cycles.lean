import Modularity.Proofs.Graph.Build
import Modularity.Proofs.Verification.Component
import Modularity.Verification.Cycles
import Mathlib.Data.Set.Function

namespace Modularity.ModuleGraph

open Circuit Reach Relation

variable {c : Codebase} {o : GraphOptions} {g : ModuleGraph} {m n : Module} {root a b : String}

/-- Whether, of two modules of a root, the first has a dependency with the second as its target. -/
def DependsIn (g : ModuleGraph) (root : String) (a b : String) : Prop :=
  ∃ m ∈ g.modulesOfRoot root, ∃ n ∈ g.modulesOfRoot root, m.name = a ∧ n.name = b ∧
    ∃ d ∈ g.dependencies m, d.target = b

def namesOf (g : ModuleGraph) (root : String) : List String := (g.modulesOfRoot root).map (·.name)

def successors (g : ModuleGraph) (root : String) (name : String) : List String :=
  let table := (g.modulesOfRoot root).map fun m ↦ (m.name, g.dependencies m)
  (((g.namesOf root).map fun name ↦ (name, arcs table (g.namesOf root) name)).lookup name).getD []

theorem cyclesOfRoot_eq (g : ModuleGraph) (root : String) :
    g.cyclesOfRoot root =
      (OrderedSet.ofList (Circuit.all (g.successors root) (g.namesOf root) maxCycles)).toList := rfl

theorem target_ne_of_mem_dependencies {d : Dependency} (h : d ∈ g.dependencies m) :
    d.target ≠ m.name := by
  obtain ⟨e, -, he⟩ := List.mem_filterMap.1 h
  obtain ⟨n, hn, rfl⟩ := Option.map_eq_some_iff.1 he
  simpa using (Option.filter_eq_some_iff.1 hn).2

theorem mem_namesOf_of_isElementary {z : Cycle String}
    (hz : IsElementary (g.DependsIn root) z) (ha : a ∈ z) : a ∈ g.namesOf root := by
  obtain ⟨b, hab, -⟩ := TransGen.head'_iff.1 (hz.transGen ha ha)
  obtain ⟨m, hm, -, -, rfl, -⟩ := hab
  exact List.mem_map_of_mem hm

def circuitsAt (g : ModuleGraph) (root v : String) : List (List String) :=
  circuits (g.successors root)
    (component (closure (g.successors root) (g.namesOf root)) (g.namesOf root) v)

namespace Built

theorem modulesOfRoot_ascending (h : Built c o g) (root : String) :
    (g.modulesOfRoot root).Pairwise fun m n ↦ m.name < n.name := h.ascending.filter _

theorem namesOf_ascending (h : Built c o g) (root : String) :
    (g.namesOf root).Pairwise (· < ·) := List.pairwise_map.2 (h.modulesOfRoot_ascending root)

theorem mem_successors (h : Built c o g) : b ∈ g.successors root a ↔ g.DependsIn root a b := by
  have hnames : (g.namesOf root).find? (fun name ↦ name = a) =
      ((g.modulesOfRoot root).find? fun m ↦ m.name = a).map (·.name) := by
    rw [namesOf, List.find?_map]
    rfl
  simp only [successors, lookup_map (fun name ↦ name), hnames]
  cases hfind : (g.modulesOfRoot root).find? fun m ↦ m.name = a with
  | none =>
    simp only [Option.map_none, Option.getD_none, List.not_mem_nil, false_iff]
    intro hx
    obtain ⟨m, hm, -, -, hname, -⟩ := hx
    have hnot := List.find?_eq_none.1 hfind m hm
    simp [hname] at hnot
  | some m =>
    have hm := List.mem_of_find?_eq_some hfind
    have hname : m.name = a := by simpa using List.find?_some hfind
    subst hname
    simp only [Option.map_some, Option.getD_some, arcs, Dependency.targets,
      lookup_map Module.name, hfind, List.mem_filter, List.mem_eraseDups, List.mem_map,
      List.contains_iff_mem, namesOf]
    constructor
    · intro hy
      obtain ⟨⟨d, hd, rfl⟩, n, hn, hname⟩ := hy
      exact ⟨m, hm, n, hn, rfl, hname, d, hd, rfl⟩
    · intro hz
      obtain ⟨m', hm', n, hn, hname, rfl, d, hd, htarget⟩ := hz
      have heq := StrictLinear.find?_key (h.modulesOfRoot_ascending root) hm'
      rw [hname, hfind] at heq
      obtain rfl := Option.some.inj heq
      exact ⟨⟨d, hd, htarget⟩, n, hn, rfl⟩

theorem arc_successors (h : Built c o g) : Arc (g.successors root) = g.DependsIn root :=
  funext fun _ ↦ funext fun _ ↦ propext h.mem_successors

theorem successors_closed (h : Built c o g) : ∀ a ∈ g.namesOf root,
    g.successors root a ⊆ g.namesOf root := by
  intro a _ b hb
  obtain ⟨-, -, n, hn, -, rfl, -⟩ := h.mem_successors.1 hb
  exact List.mem_map_of_mem hn

theorem successors_irrefl (h : Built c o g) (a : String) : a ∉ g.successors root a := by
  intro ha
  obtain ⟨m, -, -, -, hname, -, d, hd, htarget⟩ := h.mem_successors.1 ha
  exact target_ne_of_mem_dependencies hd (htarget.trans hname.symm)

theorem circuitsAt_ascending (h : Built c o g) (root v : String) :
    (g.circuitsAt root v).Pairwise (· < ·) :=
  circuits_ascending (component_ascending (h.namesOf_ascending root))

variable {cycle : List String} {v : String}

theorem mem_circuitsAt (h : Built c o g) (hv : v ∈ g.namesOf root) :
    cycle ∈ g.circuitsAt root v ↔
      IsElementary (g.DependsIn root) cycle ∧ IsRooted cycle ∧
        ∀ w ∈ cycle, Strong (g.DependsIn root) v w := by
  rw [circuitsAt, mem_circuits_component h.successors_closed (h.namesOf_ascending root) hv,
    h.arc_successors]
  constructor
  · exact fun hc ↦ ⟨hc.1, hc.2.1, hc.2.2.2⟩
  · exact fun hc ↦ ⟨hc.1, hc.2.1, fun w hw ↦ mem_namesOf_of_isElementary hc.1 hw, hc.2.2⟩

theorem mem_cyclesOfRoot (h : Built c o g) (hv : v ∈ g.namesOf root) :
    cycle ∈ g.cyclesOfRoot root ∧ (∀ w ∈ cycle, Strong (g.DependsIn root) v w) ↔
      cycle ∈ (g.circuitsAt root v).take maxCycles := by
  rw [cyclesOfRoot_eq, OrderedSet.mem_toList, OrderedSet.mem_ofList, ← h.arc_successors]
  exact mem_all h.successors_closed h.successors_irrefl (h.namesOf_ascending root) hv

theorem elementary_of_mem_cyclesOfRoot (h : Built c o g) (hc : cycle ∈ g.cyclesOfRoot root) :
    IsElementary (g.DependsIn root) cycle ∧ IsRooted cycle := by
  rw [cyclesOfRoot_eq, OrderedSet.mem_toList, OrderedSet.mem_ofList,
    mem_all_iff h.successors_irrefl (h.namesOf_ascending root)] at hc
  obtain ⟨v, hv, hc⟩ := hc
  have hmem := (h.mem_circuitsAt hv).1 (List.mem_of_mem_take hc)
  exact ⟨hmem.1, hmem.2.1⟩

theorem cyclesOfRoot_eq_nil_iff (h : Built c o g) :
    g.cyclesOfRoot root = [] ↔ ∀ v, ¬ TransGen (g.DependsIn root) v v := by
  constructor
  · intro hnil v hv
    obtain ⟨z, hz, hvz⟩ := exists_elementary hv
    obtain ⟨cycle, rfl, hrooted⟩ := exists_rooted hz.1 hz.2.1
    have hnames := mem_namesOf_of_isElementary hz hvz
    have hmem : cycle ∈ g.circuitsAt root v :=
      (h.mem_circuitsAt hnames).2 ⟨hz, hrooted, fun w hw ↦ hz.strong hvz hw⟩
    -- the first circuit of the component is reported, whatever the bound cuts off
    have htake : (g.circuitsAt root v).take maxCycles ≠ [] := by
      rw [ne_eq, List.take_eq_nil_iff, not_or]
      exact ⟨by decide, List.ne_nil_of_mem hmem⟩
    obtain ⟨first, hfirst⟩ := List.exists_mem_of_ne_nil _ htake
    have hreported := ((h.mem_cyclesOfRoot hnames).2 hfirst).1
    rw [hnil] at hreported
    nomatch hreported
  · intro hacyclic
    apply List.eq_nil_iff_forall_not_mem.2
    intro cycle hc
    obtain ⟨helem, hrooted⟩ := h.elementary_of_mem_cyclesOfRoot hc
    cases cycle with
    | nil => exact hrooted
    | cons v rest => exact hacyclic v (helem.transGen (by simp) (by simp))

/-- Where no component has more circuits than are listed, the reported cycles are all the circuits. -/
theorem cyclesOfRoot_bijOn (h : Built c o g)
    (hfew : ∀ v, ∀ zs : List (Cycle String), zs.Nodup →
      (∀ z ∈ zs, IsElementary (g.DependsIn root) z ∧ ∀ w ∈ z, Strong (g.DependsIn root) v w) →
      zs.length ≤ maxCycles) :
    Set.BijOn (fun cycle : List String ↦ (cycle : Cycle String))
      {cycle | cycle ∈ g.cyclesOfRoot root} {z | IsElementary (g.DependsIn root) z} := by
  refine ⟨fun cycle hc ↦ (h.elementary_of_mem_cyclesOfRoot hc).1, fun x hx y hy hxy ↦ ?_,
    fun z hz ↦ ?_⟩
  · obtain ⟨helem, hrooted⟩ := h.elementary_of_mem_cyclesOfRoot hx
    exact rooted_unique hrooted (h.elementary_of_mem_cyclesOfRoot hy).2
      (Cycle.nodup_coe_iff.1 helem.2.1) hxy
  · obtain ⟨cycle, rfl, hrooted⟩ := exists_rooted hz.1 hz.2.1
    refine ⟨cycle, ?_, rfl⟩
    cases cycle with
    | nil => exact hrooted.elim
    | cons v rest =>
      have hv : v ∈ ((v :: rest : List String) : Cycle String) := by simp
      have hnames := mem_namesOf_of_isElementary hz hv
      have hlen : (g.circuitsAt root v).length ≤ maxCycles := by
        have hnodup : ((g.circuitsAt root v).map
            fun cycle : List String ↦ (cycle : Cycle String)).Nodup := by
          refine List.Nodup.map_on (fun x hx y hy hxy ↦ ?_)
            ((h.circuitsAt_ascending root v).imp StrictLinear.ne_of_lt)
          obtain ⟨helem, hrootedx, -⟩ := (h.mem_circuitsAt hnames).1 hx
          exact rooted_unique hrootedx ((h.mem_circuitsAt hnames).1 hy).2.1
            (Cycle.nodup_coe_iff.1 helem.2.1) hxy
        have hcount := hfew v _ hnodup fun z hz ↦ by
          obtain ⟨cycle, hc, rfl⟩ := List.mem_map.1 hz
          obtain ⟨helem, -, hstrong⟩ := (h.mem_circuitsAt hnames).1 hc
          exact ⟨helem, hstrong⟩
        rwa [List.length_map] at hcount
      refine ((h.mem_cyclesOfRoot hnames).2 ?_).1
      rw [List.take_of_length_le hlen, h.mem_circuitsAt hnames]
      exact ⟨hz, hrooted, fun w hw ↦ hz.strong hv hw⟩

end Built

/-- The cycles of a root are exact. Each violation stands for one cycle, and the cycles ascend. Each is an
elementary circuit of the dependencies between the modules of the root, written from its smallest module
on. Of the circuits in the component of a module exactly the first ones in their lexicographic order are
reported, up to the bound; where no component exceeds the bound, the cycles are all the circuits, each
once. No cycle is reported exactly if there is no circuit. -/
theorem cycles_exact (hbuild : build c o = .ok g) (root : String) :
    (g.checkCyclesOfRoot root).toList =
      (g.cyclesOfRoot root).map (cycleViolation g.allDependencies g.codebase) ∧
    (g.cyclesOfRoot root).Pairwise (· < ·) ∧
    (∀ cycle ∈ g.cyclesOfRoot root, IsElementary (g.DependsIn root) cycle ∧ IsRooted cycle) ∧
    (∀ v ∈ g.namesOf root, ∃ circuits : List (List String), circuits.Pairwise (· < ·) ∧
      (∀ cycle, cycle ∈ circuits ↔ IsElementary (g.DependsIn root) cycle ∧ IsRooted cycle ∧
        ∀ w ∈ cycle, Strong (g.DependsIn root) v w) ∧
      ∀ cycle, cycle ∈ circuits.take maxCycles ↔
        cycle ∈ g.cyclesOfRoot root ∧ ∀ w ∈ cycle, Strong (g.DependsIn root) v w) ∧
    ((∀ v, ∀ zs : List (Cycle String), zs.Nodup →
        (∀ z ∈ zs, IsElementary (g.DependsIn root) z ∧ ∀ w ∈ z, Strong (g.DependsIn root) v w) →
        zs.length ≤ maxCycles) →
      Set.BijOn (fun cycle : List String ↦ (cycle : Cycle String))
        {cycle | cycle ∈ g.cyclesOfRoot root} {z | IsElementary (g.DependsIn root) z}) ∧
    (g.cyclesOfRoot root = [] ↔ ∀ v, ¬ TransGen (g.DependsIn root) v v) := by
  have h := build_eq_ok.1 hbuild
  refine ⟨rfl, (OrderedSet.ofList _).ascending, fun cycle ↦ h.elementary_of_mem_cyclesOfRoot,
    fun v hv ↦ ?_, h.cyclesOfRoot_bijOn, h.cyclesOfRoot_eq_nil_iff⟩
  exact ⟨g.circuitsAt root v, h.circuitsAt_ascending root v, fun cycle ↦ h.mem_circuitsAt hv,
    fun cycle ↦ (h.mem_cyclesOfRoot hv).symm⟩

theorem cycles_exact_shop :
    ∃ g, build .shop { roots := ["shop"] } = .ok g ∧
      g.cyclesOfRoot "shop" = [["orders", "stock"]] ∧
      IsElementary (g.DependsIn "shop") (["orders", "stock"] : List String) := by
  have hcycles : (build .shop { roots := ["shop"] }).toOption.map (·.cyclesOfRoot "shop") =
      some [["orders", "stock"]] := by decide +kernel
  obtain ⟨g, hg, hcycles⟩ := Option.map_eq_some_iff.1 hcycles
  have hbuild := ok_of_toOption hg
  obtain ⟨-, -, helem, -⟩ := cycles_exact hbuild "shop"
  exact ⟨g, hbuild, hcycles, (helem _ (by rw [hcycles]; simp)).1⟩

end Modularity.ModuleGraph
