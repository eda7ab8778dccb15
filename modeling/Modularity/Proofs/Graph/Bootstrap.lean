import Modularity.Graph.Bootstrap
import Modularity.Proofs.Graph.Dependency
import Modularity.Proofs.Graph.Search

namespace Modularity

namespace ModuleGraph

open Relation Reach

variable {c : Codebase} {o : GraphOptions} {g : ModuleGraph} {m a b : Module} {name : String} {n : Nat}

def Needs (g : ModuleGraph) (a b : Module) : Prop :=
  b ∈ g.modules ∧ ∃ d ∈ Dependency.ofKinds [.usesComponent] (g.dependencies a), d.target = b.name

theorem mem_componentTargets : name ∈ g.componentTargets m ↔
    ∃ d ∈ Dependency.ofKinds [.usesComponent] (g.dependencies m), d.target = name := by
  rw [componentTargets, Dependency.targets, List.mem_eraseDups, List.mem_map]

theorem mem_modules_of_walk (hm : m ∈ g.modules) (h : Walk g.Needs n m a) : a ∈ g.modules := by
  cases h with
  | nil => exact hm
  | snoc _ hneeds => exact hneeds.1

namespace Built

variable (hc : c.Coherent)

theorem nodup_names (h : Built c o g) : (g.modules.map (·.name)).Nodup :=
  List.pairwise_map.2 (h.ascending.imp StrictLinear.ne_of_lt)

theorem needs_eq (h : Built c o g) (hm : m ∈ g.modules) : g.needs m.name = g.componentTargets m := by
  rw [needs, h.module?_eq_some_iff.2 ⟨hm, rfl⟩, Option.map_some, Option.getD_some]

theorem names_eq {names : List String} (h : Built c o g) (hnames : names ⊆ g.modules.map (·.name)) :
    (names.filterMap g.module?).map (·.name) = names := by
  induction names with
  | nil => rfl
  | cons name names ih =>
    rw [List.cons_subset] at hnames
    obtain ⟨m, hm, rfl⟩ := List.mem_map.1 hnames.1
    rw [List.filterMap_cons_some (h.module?_eq_some_iff.2 ⟨hm, rfl⟩), List.map_cons, ih hnames.2]

theorem mem_bootstrap_iff (h : Built c o g) {depth : Depth} :
    a ∈ g.bootstrap m depth ↔ a ∈ g.modules ∧ a.name ∈ g.bootstrapNames m depth := by
  rw [bootstrap, List.mem_filterMap]
  constructor
  · intro hx
    obtain ⟨name, hname, hfind⟩ := hx
    obtain ⟨ha, rfl⟩ := h.module?_eq_some_iff.1 hfind
    exact ⟨ha, hname⟩
  · intro hy
    exact ⟨a.name, hy.2, h.module?_eq_some_iff.2 ⟨hy.1, rfl⟩⟩

include hc

theorem exists_target (h : Built c o g) (hname : name ∈ g.componentTargets m) :
    ∃ b ∈ g.modules, b.name = name ∧ b ≠ m := by
  obtain ⟨d, hd, rfl⟩ := mem_componentTargets.1 hname
  obtain ⟨b, hb, -, hne, htarget⟩ := h.owner?_target hc (Dependency.mem_ofKinds.1 hd).1
  exact ⟨b, hb, htarget.symm, hne⟩

theorem arc_iff (h : Built c o g) (hm : m ∈ g.modules) :
    Arc g.needs m.name name ↔ ∃ b, g.Needs m b ∧ b.name = name := by
  rw [Arc, h.needs_eq hm]
  constructor
  · intro hname
    obtain ⟨b, hb, rfl, -⟩ := h.exists_target hc hname
    exact ⟨b, ⟨hb, mem_componentTargets.1 hname⟩, rfl⟩
  · intro hx
    obtain ⟨b, hneeds, rfl⟩ := hx
    exact mem_componentTargets.2 hneeds.2

theorem walk_iff (h : Built c o g) (hm : m ∈ g.modules) :
    Walk (Arc g.needs) n m.name name ↔ ∃ b ∈ g.modules, Walk g.Needs n m b ∧ b.name = name := by
  induction n generalizing name with
  | zero =>
    simp only [walk_zero_iff]
    constructor
    · exact fun hname ↦ ⟨m, hm, rfl, hname⟩
    · intro hx
      obtain ⟨b, -, rfl, hname⟩ := hx
      exact hname
  | succ n ih =>
    simp only [walk_succ_iff, ih]
    constructor
    · intro hx
      obtain ⟨_, ⟨a, ha, hwalk, rfl⟩, harc⟩ := hx
      obtain ⟨b, hneeds, rfl⟩ := (h.arc_iff hc ha).1 harc
      exact ⟨b, hneeds.1, ⟨a, hwalk, hneeds⟩, rfl⟩
    · intro hy
      obtain ⟨b, -, ⟨a, hwalk, hneeds⟩, rfl⟩ := hy
      have ha : a ∈ g.modules := mem_modules_of_walk hm hwalk
      exact ⟨a.name, ⟨a, ha, hwalk, rfl⟩, (h.arc_iff hc ha).2 ⟨b, hneeds, rfl⟩⟩

theorem walk_name_iff (h : Built c o g) (hm : m ∈ g.modules) (ha : a ∈ g.modules) :
    Walk (Arc g.needs) n m.name a.name ↔ Walk g.Needs n m a := by
  rw [h.walk_iff hc hm]
  constructor
  · intro hx
    obtain ⟨b, hb, hwalk, hname⟩ := hx
    exact h.eq_of_name hb ha hname ▸ hwalk
  · exact fun hwalk ↦ ⟨a, ha, hwalk, rfl⟩

theorem distance_name (h : Built c o g) (hm : m ∈ g.modules) (ha : a ∈ g.modules) :
    distance (Arc g.needs) m.name a.name = distance g.Needs m a :=
  congrArg sInf (Set.ext fun _ ↦ h.walk_name_iff hc hm ha)

theorem explores (h : Built c o g) (hm : m ∈ g.modules) :
    Explores (Arc g.needs) m.name ((g.modules.map (·.name)).erase m.name)
      (g.bootstrapNames m .all) := by
  have hclosed : ∀ name ∈ g.modules.map (·.name), g.needs name ⊆ g.modules.map (·.name) := by
    intro name hname target htarget
    obtain ⟨a, ha, rfl⟩ := List.mem_map.1 hname
    obtain ⟨b, hneeds, rfl⟩ := (h.arc_iff hc ha).1 htarget
    exact List.mem_map_of_mem hneeds.1
  have hsearch := search_explores h.nodup_names hclosed (List.mem_map_of_mem hm)
  rwa [h.needs_eq hm] at hsearch

theorem map_bootstrap (h : Built c o g) (hm : m ∈ g.modules) (depth : Depth) :
    (g.bootstrap m depth).map (·.name) = g.bootstrapNames m depth := by
  apply h.names_eq
  cases depth with
  | none => exact List.nil_subset _
  | immediate =>
    intro name hname
    obtain ⟨b, hb, rfl, -⟩ := h.exists_target hc hname
    exact List.mem_map_of_mem hb
  | all => exact fun name hname ↦ List.mem_of_mem_erase (((h.explores hc hm).mem_iff name).1 hname).1

theorem mem_bootstrap_all_iff (h : Built c o g) (hm : m ∈ g.modules) :
    a ∈ g.bootstrap m .all ↔ a ≠ m ∧ TransGen g.Needs m a := by
  rw [h.mem_bootstrap_iff, (h.explores hc hm).mem_iff, h.nodup_names.mem_erase_iff]
  constructor
  · intro hx
    obtain ⟨ha, ⟨hne, -⟩, n, hwalk⟩ := hx
    have hne : a ≠ m := fun e ↦ hne (congrArg Module.name e)
    exact ⟨hne, (transGen_iff_walk_of_ne hne.symm).2 ⟨n, (h.walk_name_iff hc hm ha).1 hwalk⟩⟩
  · intro hy
    obtain ⟨hne, hreach⟩ := hy
    obtain ⟨n, hwalk⟩ := (transGen_iff_walk_of_ne hne.symm).1 hreach
    have ha := mem_modules_of_walk hm hwalk
    exact ⟨ha, ⟨fun heq ↦ hne (h.eq_of_name ha hm heq), List.mem_map_of_mem ha⟩, n,
      (h.walk_name_iff hc hm ha).2 hwalk⟩

theorem mem_bootstrap_immediate_iff (h : Built c o g) :
    a ∈ g.bootstrap m .immediate ↔ a ≠ m ∧ g.Needs m a := by
  rw [h.mem_bootstrap_iff, bootstrapNames]
  constructor
  · intro hx
    obtain ⟨ha, hname⟩ := hx
    obtain ⟨b, hb, hname', hne⟩ := h.exists_target hc hname
    exact ⟨h.eq_of_name hb ha hname' ▸ hne, ha, mem_componentTargets.1 hname⟩
  · intro hy
    exact ⟨hy.2.1, mem_componentTargets.2 hy.2.2⟩

/-- What a module uses directly is new to the search and visited first. -/
theorem prefix_bootstrap (h : Built c o g) (hm : m ∈ g.modules) :
    g.bootstrap m .immediate <+: g.bootstrap m .all := by
  have hnew : g.componentTargets m ⊆ (g.modules.map (·.name)).erase m.name := by
    intro name hname
    obtain ⟨b, hb, rfl, hne⟩ := h.exists_target hc hname
    exact h.nodup_names.mem_erase_iff.2 ⟨fun heq ↦ hne (h.eq_of_name hb hm heq), List.mem_map_of_mem hb⟩
  have hnames : g.bootstrapNames m .immediate <+: g.bootstrapNames m .all :=
    prefix_search (h.nodup_names.erase m.name) (nodup_eraseDups _) hnew
  exact hnames.filterMap g.module?

theorem bootstrap_nearest (h : Built c o g) (hm : m ∈ g.modules) :
    (g.bootstrap m .all).Pairwise fun a b ↦ distance g.Needs m a ≤ distance g.Needs m b := by
  have hnearest := (h.explores hc hm).nearest
  rw [← h.map_bootstrap hc hm, List.pairwise_map] at hnearest
  refine hnearest.imp_of_mem fun {a b} ha hb hle ↦ ?_
  rwa [h.distance_name hc hm (h.mem_bootstrap_iff.1 ha).1,
    h.distance_name hc hm (h.mem_bootstrap_iff.1 hb).1] at hle

end Built

/-- What a module needs to start is found breadth first. In full depth these are exactly the other modules
that it reaches, itself left out also where it lies on a cycle; each comes once, and none comes before a
nearer one. The modules that it needs immediately are those at distance one, in the order of their first
use, and they come first in full depth, too. -/
theorem bootstrap_breadth_first (hc : c.Reachable) (hbuild : build c o = .ok g) (hm : m ∈ g.modules) :
    (g.bootstrap m .all).Nodup ∧
    (∀ a, a ∈ g.bootstrap m .all ↔ a ≠ m ∧ TransGen g.Needs m a) ∧
    ((g.bootstrap m .all).Pairwise fun a b ↦ distance g.Needs m a ≤ distance g.Needs m b) ∧
    g.bootstrap m .immediate <+: g.bootstrap m .all ∧
    (∀ a, a ∈ g.bootstrap m .immediate ↔ IsLeast {n | Walk g.Needs n m a} 1) ∧
    (g.bootstrap m .immediate).map (·.name) =
      ((Dependency.ofKinds [.usesComponent] (g.dependencies m)).map (·.target)).eraseDups := by
  have hco := hc.coherent
  have h := build_eq_ok.1 hbuild
  have hnodup : ((g.bootstrap m .all).map (·.name)).Nodup := by
    rw [h.map_bootstrap hco hm]
    exact (h.explores hco hm).nodup
  refine ⟨.of_map _ hnodup, fun a ↦ h.mem_bootstrap_all_iff hco hm, h.bootstrap_nearest hco hm,
    h.prefix_bootstrap hco hm, fun a ↦ ?_, h.map_bootstrap hco hm .immediate⟩
  rw [h.mem_bootstrap_immediate_iff hco, isLeast_one_iff]

def mill : Codebase := Codebase.index
  #[((Symbol.ofName "mill.bakery.Baker").tagged "service").withMember
      (.newConstructor ["mill.oven.Stoker", "mill.flour.Miller"]),
    ((Symbol.ofName "mill.flour.Miller").tagged "service").withMember
      (.newConstructor ["mill.grain.Farmer"]),
    ((Symbol.ofName "mill.grain.Farmer").tagged "service").withMember
      (.newConstructor ["mill.bakery.Baker"]),
    ((Symbol.ofName "mill.oven.Stoker").tagged "service").withMember
      (.newConstructor ["mill.grain.Farmer", "mill.flour.Miller"])]
  (.replicate 4 true) .empty

theorem mill_reachable : mill.Reachable :=
  @Codebase.Reachable.assembled mill.arena.toList [] _ rfl

theorem bootstrap_breadth_first_mill :
    ∃ g, mill.Reachable ∧ build mill { roots := ["mill"] } = .ok g ∧ ∃ m ∈ g.modules,
      (g.bootstrap m .immediate).map (·.name) = ["oven", "flour"] ∧
      (g.bootstrap m .all).map (·.name) = ["oven", "flour", "grain"] ∧
      g.bootstrap m .immediate <+: g.bootstrap m .all ∧
      (g.bootstrap m .all).Pairwise fun a b ↦ distance g.Needs m a ≤ distance g.Needs m b := by
  have htables : (build mill { roots := ["mill"] }).toOption.map (fun g ↦
      (g.modules.map (·.name), ["bakery", "flour", "grain", "oven"].map g.needs)) =
      some (["bakery", "flour", "grain", "oven"],
        [["oven", "flour"], ["grain"], ["bakery"], ["grain", "flour"]]) := by decide +kernel
  obtain ⟨g, hg, htables⟩ := Option.map_eq_some_iff.1 htables
  obtain ⟨hnames, hneeds⟩ := Prod.mk.inj htables
  simp only [List.map_cons, List.map_nil, List.cons.injEq, and_true] at hneeds
  obtain ⟨hbakery, hflour, hgrain, hoven⟩ := hneeds
  have hbuild := ok_of_toOption hg
  have h := build_eq_ok.1 hbuild
  have hmem : "bakery" ∈ g.modules.map (·.name) := by simp [hnames]
  obtain ⟨m, hm, hname⟩ := List.mem_map.1 hmem
  have htargets : g.componentTargets m = ["oven", "flour"] := by
    rw [← h.needs_eq hm, hname, hbakery]
  obtain ⟨-, -, hnearest, hprefix, -⟩ := bootstrap_breadth_first mill_reachable hbuild hm
  refine ⟨g, mill_reachable, hbuild, m, hm, ?_, ?_, hprefix, hnearest⟩
  · rw [h.map_bootstrap mill_reachable.coherent hm, bootstrapNames, htargets]
  · rw [h.map_bootstrap mill_reachable.coherent hm, bootstrapNames, hnames, hname, htargets]
    simp [search, hflour, hgrain, hoven]

end ModuleGraph

end Modularity
