import Modularity.Graph.Dependency
import Modularity.Proofs.Edge.Discovery
import Modularity.Proofs.Graph.Management
import Modularity.Proofs.Ordered.Distinct

namespace Modularity

open Namespace

namespace Dependency

variable {kinds : List Edge.Kind} {ds : List Dependency}

theorem ofKinds_eq (kinds : List Edge.Kind) (ds : List Dependency) :
    ofKinds kinds ds = ds.filter fun d ↦ kinds = [] ∨ d.kind ∈ kinds := by
  rw [ofKinds]
  split
  · rename_i hnil
    rw [List.isEmpty_iff] at hnil
    simp [hnil]
  · rename_i hne
    rw [List.isEmpty_iff] at hne
    simp [hne]

theorem mem_ofKinds {d : Dependency} :
    d ∈ ofKinds kinds ds ↔ d ∈ ds ∧ (kinds = [] ∨ d.kind ∈ kinds) := by
  simp [ofKinds_eq]

theorem map_edge_ofKinds (kinds : List Edge.Kind) (ds : List Dependency) :
    (ofKinds kinds ds).map (·.edge) =
      (ds.map (·.edge)).filter fun e ↦ kinds = [] ∨ e.kind ∈ kinds := by
  rw [ofKinds_eq, List.filter_map]
  rfl

end Dependency

namespace ModuleGraph

def Uses (g : ModuleGraph) (A B : Module) (t : Symbol.Id) : Prop :=
  A ∈ g.modules ∧ g.owner? t = some B ∧ B ≠ A ∧ ∃ s ∈ A.qualifying, ∃ site,
    Mentions g.options.stereotypes g.options.platform (g.codebase.symbol s) site
      (g.codebase.symbol t).name

/-- A managed symbol of a module, no configuration, has a field injected whose type names a symbol. -/
def InjectsField (g : ModuleGraph) (A : Module) (t : Symbol.Id) : Prop :=
  ∃ s ∈ A.qualifying, ¬ g.options.stereotypes.isConfiguration (g.codebase.symbol s) ∧
    Mentions g.options.stereotypes g.options.platform (g.codebase.symbol s) .injectedField
      (g.codebase.symbol t).name

variable {c : Codebase} {o : GraphOptions} {g : ModuleGraph} {A B : Module} {s t : Symbol.Id}
  {d : Dependency}

theorem mem_dependencies :
    d ∈ g.dependencies A ↔ d.edge ∈ A.edges ∧ ∃ B, g.owner? d.edge.target = some B ∧
      B.name ≠ A.name ∧ d = ⟨d.edge, A.name, B.name⟩ := by
  simp only [dependencies, List.mem_filterMap, List.mem_eraseDups, resolve?, Option.map_eq_some_iff,
    Option.filter_eq_some_iff, decide_eq_true_eq]
  constructor
  · intro hx
    obtain ⟨e, he, B, ⟨howner, hne⟩, rfl⟩ := hx
    exact ⟨he, B, howner, hne, rfl⟩
  · intro hy
    obtain ⟨he, B, howner, hne, heq⟩ := hy
    exact ⟨d.edge, he, B, ⟨howner, hne⟩, heq.symm⟩

namespace Built

theorem discovery_eq (h : Built c o g) (hA : A ∈ g.modules) :
    A.discovery = ⟨g.codebase, g.options.stereotypes, g.options.platform, A.space.name⟩ := by
  rw [Module.discovery, h.module_codebase hA, h.module_stereotypes hA, h.module_platform hA,
    h.options]

/-- Edges lead out of the module, whatever owner their targets have. -/
theorem not_contains_target (h : Built c o g) {e : Edge} (hA : A ∈ g.modules) (he : e ∈ A.edges) :
    ¬ A.contains e.target := by
  obtain ⟨s, -, he⟩ := List.mem_flatMap.1 he
  obtain ⟨-, x, -, -, htarget⟩ := Discovery.exists_mention_of_mem_edges he
  obtain ⟨-, -, -, houtside⟩ := Discovery.target?_eq_some_iff.1 htarget
  rw [h.discovery_eq hA] at houtside
  exact fun hin ↦ houtside ((h.contains_iff hA).1 hin).2

variable (hc : c.Coherent)

include hc

theorem contains_of_mem_qualifying (h : Built c o g) (hA : A ∈ g.modules) (hs : s ∈ A.qualifying) :
    A.contains s :=
  ((Module.mem_qualifying (h.module_codebase hA ▸ h.coherent hc)).1 hs).1

theorem owner?_target (h : Built c o g) (hd : d ∈ g.dependencies A) :
    ∃ B ∈ g.modules, g.owner? d.edge.target = some B ∧ B ≠ A ∧ d.target = B.name := by
  obtain ⟨-, B, howner, hne, heq⟩ := mem_dependencies.1 hd
  refine ⟨B, ((h.owner?_eq_some_iff hc).1 howner).1, howner, fun heq ↦ hne (heq ▸ rfl), ?_⟩
  rw [heq]

/-- From a managed symbol exactly its name leads to a symbol of another module. -/
theorem leads_iff (h : Built c o g) (hA : A ∈ g.modules) (hs : s ∈ A.qualifying)
    (howner : g.owner? t = some B) (hne : B ≠ A) {name : String} :
    A.discovery.Leads s name t ↔ name = (g.codebase.symbol t).name := by
  obtain ⟨hB, hBt⟩ := (h.owner?_eq_some_iff hc).1 howner
  have hmem := ((h.contains_iff hB).1 hBt).1
  rw [h.discovery_eq hA, Discovery.Leads, (h.coherent hc).find?_eq_some_iff]
  constructor
  · exact fun hleads ↦ hleads.1.2.symm
  · intro hx
    subst hx
    refine ⟨⟨hmem, rfl⟩, ?_, fun hwithin ↦ ?_⟩
    · intro hy
      subst hy
      exact hne (h.unique hB hA hBt (h.contains_of_mem_qualifying hc hA hs))
    · exact hne (h.unique hB hA hBt ((h.contains_iff hA).2 ⟨hmem, hwithin⟩))

theorem mem_dependencies_of_edge (h : Built c o g) {e : Edge} (hA : A ∈ g.modules) (hs : s ∈ A.qualifying)
    (he : e ∈ A.discovery.edges s) (howner : g.owner? e.target = some B) (hne : B ≠ A) :
    ⟨e, A.name, B.name⟩ ∈ g.dependencies A := by
  have hB := ((h.owner?_eq_some_iff hc).1 howner).1
  exact mem_dependencies.2 ⟨List.mem_flatMap.2 ⟨s, hs, he⟩, B, howner,
    fun heq ↦ hne (h.eq_of_name hB hA heq), rfl⟩

theorem exists_edge_iff (h : Built c o g) (hA : A ∈ g.modules) (hs : s ∈ A.qualifying)
    (howner : g.owner? t = some B) (hne : B ≠ A) :
    (∃ e ∈ A.discovery.edges s, e.target = t) ↔
      ∃ site, Mentions g.options.stereotypes g.options.platform (g.codebase.symbol s) site
        (g.codebase.symbol t).name := by
  simp only [Discovery.exists_edge_iff, h.leads_iff hc hA hs howner hne]
  rw [h.discovery_eq hA]
  simp only [exists_eq_right]

theorem exists_injected_iff (h : Built c o g) (hA : A ∈ g.modules) (hs : s ∈ A.qualifying)
    (howner : g.owner? t = some B) (hne : B ≠ A) :
    (∃ e ∈ A.discovery.edges s, e.target = t ∧ e.isFieldInjection) ↔
      Mentions g.options.stereotypes g.options.platform (g.codebase.symbol s) .injectedField
        (g.codebase.symbol t).name := by
  simp only [Discovery.exists_injected_iff, h.leads_iff hc hA hs howner hne]
  rw [h.discovery_eq hA]
  simp only [exists_eq_right]

theorem uses_iff (h : Built c o g) (hA : A ∈ g.modules) :
    g.Uses A B t ↔ g.owner? t = some B ∧ ∃ d ∈ g.dependencies A, d.edge.target = t := by
  constructor
  · intro hx
    obtain ⟨-, howner, hne, s, hs, hmentions⟩ := hx
    obtain ⟨e, he, rfl⟩ := (h.exists_edge_iff hc hA hs howner hne).2 hmentions
    exact ⟨howner, _, h.mem_dependencies_of_edge hc hA hs he howner hne, rfl⟩
  · intro hy
    obtain ⟨howner, d, hd, rfl⟩ := hy
    obtain ⟨n, -, howner', hne, -⟩ := h.owner?_target hc hd
    obtain rfl := Option.some.inj (howner.symm.trans howner')
    obtain ⟨s, hs, he⟩ := List.mem_flatMap.1 (mem_dependencies.1 hd).1
    exact ⟨hA, howner, hne, s, hs, (h.exists_edge_iff hc hA hs howner hne).1 ⟨d.edge, he, rfl⟩⟩

theorem injectsField_iff (h : Built c o g) (hA : A ∈ g.modules) (howner : g.owner? t = some B)
    (hne : B ≠ A) :
    g.InjectsField A t ↔ ∃ d ∈ g.dependencies A, d.edge.target = t ∧ d.edge.isFieldInjection ∧
      ¬ g.options.stereotypes.isConfiguration (g.codebase.symbol d.edge.origin) := by
  constructor
  · intro hx
    obtain ⟨s, hs, hconf, hmentions⟩ := hx
    obtain ⟨e, he, rfl, hfield⟩ := (h.exists_injected_iff hc hA hs howner hne).2 hmentions
    refine ⟨_, h.mem_dependencies_of_edge hc hA hs he howner hne, rfl, hfield, ?_⟩
    rwa [(Discovery.exists_mention_of_mem_edges he).1]
  · intro hy
    obtain ⟨d, hd, rfl, hfield, hconf⟩ := hy
    obtain ⟨s, hs, he⟩ := List.mem_flatMap.1 (mem_dependencies.1 hd).1
    rw [(Discovery.exists_mention_of_mem_edges he).1] at hconf
    exact ⟨s, hs, hconf, (h.exists_injected_iff hc hA hs howner hne).1 ⟨d.edge, he, rfl, hfield⟩⟩

theorem origin_of_mem_edges (h : Built c o g) {e : Edge} (hA : A ∈ g.modules) (he : e ∈ A.edges) :
    e.origin ∈ A.qualifying ∧ g.owner? e.origin = some A := by
  obtain ⟨s, hs, he⟩ := List.mem_flatMap.1 he
  rw [(Discovery.exists_mention_of_mem_edges he).1]
  exact ⟨hs, (h.owner?_eq_some_iff hc).2 ⟨hA, h.contains_of_mem_qualifying hc hA hs⟩⟩

/-- The three ways to leave out what stays within a module agree: an edge is resolved as soon as its target
has an owner. -/
theorem resolve?_eq (h : Built c o g) {e : Edge} (hA : A ∈ g.modules) (he : e ∈ A.edges) :
    g.resolve? A e = (g.owner? e.target).map fun B ↦ ⟨e, A.name, B.name⟩ := by
  rw [resolve?]
  cases howner : g.owner? e.target with
  | none => rfl
  | some B =>
    obtain ⟨hB, hBt⟩ := (h.owner?_eq_some_iff hc).1 howner
    have hne : B.name ≠ A.name := fun hname ↦
      h.not_contains_target hA he (h.eq_of_name hB hA hname ▸ hBt)
    rw [Option.filter_some_pos (by simpa using hne)]

theorem map_edge_dependencies (h : Built c o g) (hA : A ∈ g.modules) :
    (g.dependencies A).map (·.edge) =
      A.edges.eraseDups.filter fun e ↦ (g.owner? e.target).isSome := by
  have hedge : ∀ e ∈ A.edges.eraseDups, (g.resolve? A e).map (·.edge) =
      Option.guard (fun e ↦ (g.owner? e.target).isSome) e := fun e he ↦ by
    rw [h.resolve?_eq hc hA (List.mem_eraseDups.1 he)]
    cases howner : g.owner? e.target <;> simp [Option.guard, howner]
  rw [dependencies, List.map_filterMap, List.filterMap_congr hedge, List.filterMap_eq_filter]

end Built

/-- The dependencies of a module are exact and well owned. Of whatever kinds they are asked for, they have,
each once and in the order of first occurrence, exactly the edges of the module with one of these kinds
whose target has an owner. Each leads from a managed symbol that the module owns to a member that another
module of the graph owns, and tells the two modules by their names, so a look-up of either name or
position succeeds. -/
theorem dependencies_exact (hc : c.Reachable) (hbuild : build c o = .ok g) (hA : A ∈ g.modules)
    (kinds : List Edge.Kind) :
    ((Dependency.ofKinds kinds (g.dependencies A)).map (·.edge) =
      (A.edges.filter fun e ↦
        (g.owner? e.target).isSome ∧ (kinds = [] ∨ e.kind ∈ kinds)).eraseDups) ∧
    ((Dependency.ofKinds kinds (g.dependencies A)).map (·.edge)).Nodup ∧
    ∀ d ∈ Dependency.ofKinds kinds (g.dependencies A),
      (d.edge.origin ∈ A.qualifying ∧ g.owner? d.edge.origin = some A ∧
        d.edge.origin < g.codebase.arena.size ∧ d.source = A.name) ∧
      (∃ B ∈ g.modules, B ≠ A ∧ g.module? d.target = some B ∧ B.name = d.target ∧
        g.owner? d.edge.target = some B) ∧
      g.codebase.contains d.edge.target ∧ d.edge.target < g.codebase.arena.size ∧
      d.target ≠ A.name := by
  have hco := hc.coherent
  have h := build_eq_ok.1 hbuild
  have hedges : (Dependency.ofKinds kinds (g.dependencies A)).map (·.edge) =
      (A.edges.filter fun e ↦
        (g.owner? e.target).isSome ∧ (kinds = [] ∨ e.kind ∈ kinds)).eraseDups := by
    rw [Dependency.map_edge_ofKinds, h.map_edge_dependencies hco hA, List.filter_filter,
      eraseDups_filter]
    exact List.filter_congr fun e _ ↦ by simp [and_comm]
  refine ⟨hedges, hedges ▸ nodup_eraseDups _, fun d hd ↦ ?_⟩
  obtain ⟨he, B, howner, hne, heq⟩ := mem_dependencies.1 (Dependency.mem_ofKinds.1 hd).1
  obtain ⟨hB, hBt⟩ := (h.owner?_eq_some_iff hco).1 howner
  have hmem := ((h.contains_iff hB).1 hBt).1
  obtain ⟨hqualifying, horigin⟩ := h.origin_of_mem_edges hco hA he
  have horiginmem := ((h.contains_iff hA).1 (h.contains_of_mem_qualifying hco hA hqualifying)).1
  have hsource : d.source = A.name := by rw [heq]
  have htarget : B.name = d.target := by rw [heq]
  refine ⟨⟨hqualifying, horigin, (h.coherent hco).lt_size_of_contains horiginmem, hsource⟩,
    ⟨B, hB, fun heq ↦ hne (heq ▸ rfl), h.module?_eq_some_iff.2 ⟨hB, htarget⟩, htarget, howner⟩,
    hmem, (h.coherent hco).lt_size_of_contains hmem, ?_⟩
  rwa [← htarget]

theorem dependencies_exact_shop :
    ∃ g, Codebase.shop.Reachable ∧ build .shop { roots := ["shop"] } = .ok g ∧ ∃ A ∈ g.modules,
      (Dependency.ofKinds [.plain] (g.dependencies A)).map
        (fun d ↦ (d.edge.origin, d.edge.target, d.source, d.target)) = [(1, 2, "orders", "stock")] ∧
      ((Dependency.ofKinds [.plain] (g.dependencies A)).map (·.edge)).Nodup ∧
      ∀ d ∈ Dependency.ofKinds [.plain] (g.dependencies A), ∃ B ∈ g.modules, B ≠ A ∧
        g.module? d.target = some B ∧ B.name = d.target ∧ g.owner? d.edge.target = some B := by
  have hlisted : (build .shop { roots := ["shop"] }).toOption.map (fun g ↦ g.modules.map fun A ↦
      (Dependency.ofKinds [.plain] (g.dependencies A)).map
        fun d ↦ (d.edge.origin, d.edge.target, d.source, d.target)) =
      some [[(1, 2, "orders", "stock")], [(2, 1, "stock", "orders")]] := by decide +kernel
  obtain ⟨g, hg, hlisted⟩ := Option.map_eq_some_iff.1 hlisted
  have hbuild := ok_of_toOption hg
  have hmem := List.mem_cons_self (a := [(1, 2, "orders", "stock")])
    (l := [[(2, 1, "stock", "orders")]])
  rw [← hlisted] at hmem
  obtain ⟨A, hA, hA'⟩ := List.mem_map.1 hmem
  obtain ⟨-, hnodup, hitems⟩ := dependencies_exact Codebase.shop_reachable hbuild hA [.plain]
  exact ⟨g, Codebase.shop_reachable, hbuild, A, hA, hA', hnodup, fun d hd ↦ (hitems d hd).2.1⟩

end ModuleGraph

end Modularity
