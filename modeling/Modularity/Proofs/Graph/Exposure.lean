import Modularity.Proofs.Codebase.Indexes
import Modularity.Proofs.Graph.Ownership
import Modularity.Proofs.Interface.Facets

namespace Modularity

open Namespace Interface

inductive Namespace.DeclaresInterface (n : Namespace) (k : String) : Prop
  | space {name : String} {d : Descriptor} :
      isWithin n.name name → n.codebase.descriptor? name = some d → k ∈ d.interfaces →
      DeclaresInterface n k
  | symbol {id : Symbol.Id} :
      n.codebase.contains id → isWithin n.name (n.codebase.symbol id).space →
      k ∈ (n.codebase.symbol id).interfaces → DeclaresInterface n k

/-- The declarations of a module put a symbol into the interface of a name: that of the namespace that it is
directly in, its own, or, where nothing is declared at all, that of no declaration. -/
inductive Module.Presents (m : Module) (k : String) (id : Symbol.Id) : Prop
  | space {d : Descriptor} :
      isWithin m.space.name (m.codebase.symbol id).space →
      m.codebase.descriptor? (m.codebase.symbol id).space = some d → k ∈ d.interfaces →
      (m.codebase.symbol id).isPublic → ¬ (m.codebase.symbol id).isMarker → Presents m k id
  | symbol :
      isWithin m.space.name (m.codebase.symbol id).space → k ∈ (m.codebase.symbol id).interfaces →
      Presents m k id
  | undeclared :
      k = defaultName → (∀ j, ¬ m.space.DeclaresInterface j) →
      (m.codebase.symbol id).space = m.space.name →
      (m.codebase.symbol id).isPublic → ¬ (m.codebase.symbol id).isMarker → Presents m k id

namespace Interface

variable {c : Codebase} {space : String} {i : Interface} {k : String} {id : Symbol.Id}

theorem contains_iff : i.contains id ↔ i.Shows (.symbol id) := decide_eq_true_iff

theorem ofNamespace_shows (h : c.Coherent) :
    (ofNamespace k ⟨c, space⟩).Shows (.symbol id) ↔ c.contains id ∧ (c.symbol id).space = space ∧
      (c.symbol id).isPublic ∧ ¬ (c.symbol id).isMarker := by
  have hdirect : id ∈ (⟨c, space⟩ : Namespace).directSymbols ↔
      c.contains id ∧ (c.symbol id).space = space := h.mem_directlyIn
  simp only [Shows, ofNamespace, OrderedSet.mem_ofList, List.mem_filter, hdirect, and_assoc,
    Symbol.isPresentable, Bool.and_eq_true, Bool.not_eq_true', Bool.not_eq_true]

theorem ofSymbols_shows {ids : List Symbol.Id} : (ofSymbols k ids).Shows (.symbol id) ↔ id ∈ ids :=
  OrderedSet.mem_ofList

end Interface

namespace InterfaceFamily

variable {f : InterfaceFamily} {k : String} {x : Facet}

theorem Shows.presence (h : f.Shows k x) : f.Shows k .presence := by
  obtain ⟨i, hi, -⟩ := h
  exact ⟨i, hi, trivial⟩

theorem mem_names : k ∈ f.names ↔ f.Shows k .presence := by
  rw [names, OrderedMap.mem_keys]
  exact exists_congr fun i ↦ (and_iff_left trivial).symm

end InterfaceFamily

namespace Module

variable {m : Module} (h : m.codebase.Coherent) {i : Interface} {k : String} {id : Symbol.Id} {x : Facet}

include h

theorem mem_scopedInterfaces :
    i ∈ m.scopedInterfaces ↔ ∃ name d k, isWithin m.space.name name ∧
      m.codebase.descriptor? name = some d ∧ k ∈ d.interfaces ∧
        i = Interface.ofNamespace k ⟨m.codebase, name⟩ := by
  have hknown : ∀ {name d}, m.codebase.descriptor? name = some d → name ∈ m.codebase.known :=
    fun hd ↦ h.mem_known.2 (.inr ⟨_, OrderedMap.mem_keys.2 ⟨_, hd⟩, isWithin_refl _⟩)
  have hbelow : ∀ n, n ∈ m.space.subspaces ↔ ∃ name ∈ m.codebase.known,
      name ≠ m.space.name ∧ isWithin m.space.name name ∧ ⟨m.codebase, name⟩ = n := by
    intro n
    simp only [subspaces, Codebase.subspaces, List.mem_map, List.mem_filter, OrderedSet.mem_toList,
      Bool.and_eq_true, decide_eq_true_eq, and_assoc]
    rfl
  simp only [scopedInterfaces, List.mem_flatMap, List.mem_map, Option.mem_toList, List.mem_cons]
  constructor
  · intro hx
    obtain ⟨n, hn, k, ⟨d, hd, hk⟩, rfl⟩ := hx
    rcases hn with rfl | hn
    · exact ⟨m.space.name, d, k, isWithin_refl _, hd, hk, rfl⟩
    · obtain ⟨name, -, -, hwithin, rfl⟩ := (hbelow n).1 hn
      exact ⟨name, d, k, hwithin, hd, hk, rfl⟩
  · intro hx
    obtain ⟨name, d, k, hwithin, hd, hk, rfl⟩ := hx
    refine ⟨⟨m.codebase, name⟩, ?_, k, ⟨d, hd, hk⟩, rfl⟩
    by_cases hname : name = m.space.name
    · exact .inl (hname ▸ rfl)
    · exact .inr ((hbelow _).2 ⟨name, hknown hd, hname, hwithin, rfl⟩)

theorem mem_symbolInterfaces :
    i ∈ m.symbolInterfaces ↔ ∃ id k, m.codebase.contains id ∧
      isWithin m.space.name (m.codebase.symbol id).space ∧ k ∈ (m.codebase.symbol id).interfaces ∧
        i = ofSymbols k [id] := by
  have hsymbols : ∀ id, id ∈ m.space.symbols ↔
      m.codebase.contains id ∧ isWithin m.space.name (m.codebase.symbol id).space :=
    fun id ↦ h.mem_inNamespace
  simp only [symbolInterfaces, List.mem_flatMap, List.mem_map, hsymbols]
  constructor
  · intro hx
    obtain ⟨id, ⟨hid, hwithin⟩, k, hk, rfl⟩ := hx
    exact ⟨id, k, hid, hwithin, hk, rfl⟩
  · intro hx
    obtain ⟨id, k, hid, hwithin, hk, rfl⟩ := hx
    exact ⟨id, ⟨hid, hwithin⟩, k, hk, rfl⟩

omit h in
/-- What the module declares, before the default takes the place of nothing. -/
theorem shows_declared (m : Module) (k : String) (x : Facet) :
    ((InterfaceFamily.ofList m.scopedInterfaces).union
      (InterfaceFamily.ofList m.symbolInterfaces)).Shows k x ↔
      (∃ i ∈ m.scopedInterfaces, i.name = k ∧ i.Shows x) ∨
        ∃ i ∈ m.symbolInterfaces, i.name = k ∧ i.Shows x := by
  rw [(InterfaceFamily.keyed_ofList _).shows_union (InterfaceFamily.keyed_ofList _),
    InterfaceFamily.shows_ofList, InterfaceFamily.shows_ofList]

theorem declares_iff :
    ((InterfaceFamily.ofList m.scopedInterfaces).union
      (InterfaceFamily.ofList m.symbolInterfaces)).Shows k .presence ↔ m.space.DeclaresInterface k := by
  rw [shows_declared]
  constructor
  · intro hx
    rcases hx with ⟨i, hi, rfl, -⟩ | ⟨i, hi, rfl, -⟩
    · obtain ⟨name, d, k, hwithin, hd, hk, rfl⟩ := (mem_scopedInterfaces h).1 hi
      exact .space hwithin hd hk
    · obtain ⟨id, k, hid, hwithin, hk, rfl⟩ := (mem_symbolInterfaces h).1 hi
      exact .symbol hid hwithin hk
  · intro hx
    cases hx with
    | space hwithin hd hk =>
      exact .inl ⟨_, (mem_scopedInterfaces h).2 ⟨_, _, k, hwithin, hd, hk, rfl⟩, rfl, trivial⟩
    | symbol hid hwithin hk =>
      exact .inr ⟨_, (mem_symbolInterfaces h).2 ⟨_, k, hid, hwithin, hk, rfl⟩, rfl, trivial⟩

theorem undeclared_iff :
    (∀ k x, ¬ ((InterfaceFamily.ofList m.scopedInterfaces).union
      (InterfaceFamily.ofList m.symbolInterfaces)).Shows k x) ↔
      ∀ k, ¬ m.space.DeclaresInterface k := by
  refine forall_congr' fun k ↦ ?_
  rw [← declares_iff h]
  exact ⟨fun hx ↦ hx .presence, fun hx x hshows ↦ hx hshows.presence⟩

omit h in
theorem keyed_interfaces (m : Module) : m.interfaces.Keyed :=
  ((InterfaceFamily.keyed_ofList _).union _).orDefault _

theorem mem_names_interfaces :
    k ∈ m.interfaces.names ↔ m.space.DeclaresInterface k ∨
      k = defaultName ∧ ∀ j, ¬ m.space.DeclaresInterface j := by
  rw [InterfaceFamily.mem_names, interfaces, InterfaceFamily.shows_orDefault, declares_iff h,
    undeclared_iff h]
  refine or_congr_right ⟨fun hx ↦ ⟨hx.2.1, hx.1⟩, fun hx ↦ ⟨hx.2, hx.1, trivial⟩⟩

theorem shows_interfaces :
    m.interfaces.Shows k (.symbol id) ↔ m.codebase.contains id ∧ m.Presents k id := by
  rw [interfaces, InterfaceFamily.shows_orDefault, undeclared_iff h, shows_declared]
  constructor
  · intro hx
    rcases hx with (⟨i, hi, rfl, hid⟩ | ⟨i, hi, rfl, hid⟩) | ⟨hnone, rfl, hid⟩
    · obtain ⟨name, d, k, hwithin, hd, hk, rfl⟩ := (mem_scopedInterfaces h).1 hi
      obtain ⟨hmember, rfl, hpublic, hmarker⟩ := (ofNamespace_shows h).1 hid
      exact ⟨hmember, .space hwithin hd hk hpublic hmarker⟩
    · obtain ⟨_, k, hmember, hwithin, hk, rfl⟩ := (mem_symbolInterfaces h).1 hi
      obtain rfl := List.mem_singleton.1 (ofSymbols_shows.1 hid)
      exact ⟨hmember, .symbol hwithin hk⟩
    · obtain ⟨hmember, hin, hpublic, hmarker⟩ := (ofNamespace_shows h).1 hid
      exact ⟨hmember, .undeclared rfl hnone hin hpublic hmarker⟩
  · intro hx
    obtain ⟨hid, hpresents⟩ := hx
    cases hpresents with
    | space hwithin hd hk hpublic hmarker =>
      exact .inl (.inl ⟨_, (mem_scopedInterfaces h).2 ⟨_, _, k, hwithin, hd, hk, rfl⟩, rfl,
        (ofNamespace_shows h).2 ⟨hid, rfl, hpublic, hmarker⟩⟩)
    | symbol hwithin hk =>
      exact .inl (.inr ⟨_, (mem_symbolInterfaces h).2 ⟨id, k, hid, hwithin, hk, rfl⟩, rfl,
        ofSymbols_shows.2 (List.mem_singleton_self id)⟩)
    | undeclared hk hnone hin hpublic hmarker =>
      exact .inr ⟨hnone, hk, (ofNamespace_shows h).2 ⟨hid, hin, hpublic, hmarker⟩⟩

end Module

namespace ModuleGraph

variable {c : Codebase} {o : GraphOptions} {g : ModuleGraph} {m : Module}

/-- An interface of a module has exactly the members that the declarations in the module put there. A module
has the interfaces that are declared in it, or else the default one, so it is never without; and unless
it is open, it exposes what is in one of them. -/
theorem interfaces_exact (hc : c.Reachable) (hbuild : build c o = .ok g) (hm : m ∈ g.modules) :
    m.codebase = g.codebase ∧
    (∀ k id, (∃ i ∈ m.interfaces.toList, i.name = k ∧ i.contains id) ↔
      g.codebase.contains id ∧ m.Presents k id) ∧
    ¬ m.interfaces.isEmpty ∧
    m.interfaces.names.Pairwise (· < ·) ∧
    (∀ k, k ∈ m.interfaces.names ↔ m.space.DeclaresInterface k ∨
      k = defaultName ∧ ∀ j, ¬ m.space.DeclaresInterface j) ∧
    (¬ m.isOpen → ∀ id, m.exposes id ↔ ∃ i ∈ m.interfaces.toList, i.contains id) ∧
    (m.isOpen → ∀ id, m.exposes id = m.contains id) := by
  have hb := build_eq_ok.1 hbuild
  have hcode : m.codebase = g.codebase := hb.module_codebase hm
  have h : m.codebase.Coherent := hcode ▸ hb.coherent hc.coherent
  refine ⟨hcode, fun k id ↦ ?_, ?_, List.pairwise_map.2 m.interfaces.byName.ascending,
    fun k ↦ Module.mem_names_interfaces h, fun hclosed id ↦ ?_, fun hopen id ↦ if_pos hopen⟩
  · rw [← hcode, ← Module.shows_interfaces h, m.keyed_interfaces.shows_iff]
    simp only [contains_iff]
  · rw [InterfaceFamily.isEmpty_iff]
    intro hempty
    have hnone : ∀ j, ¬ m.space.DeclaresInterface j := fun j hj ↦
      hempty j .presence (InterfaceFamily.mem_names.1 ((Module.mem_names_interfaces h).2 (.inl hj)))
    exact hempty defaultName .presence
      (InterfaceFamily.mem_names.1 ((Module.mem_names_interfaces h).2 (.inr ⟨rfl, hnone⟩)))
  · rw [Module.exposes, if_neg hclosed]
    exact List.any_eq_true

def market : Codebase := Codebase.index
  #[(Symbol.ofName "shop.orders.Draft").inInterface "spi", .ofName "shop.orders.Order",
    .ofName "shop.orders.api.Price", .ofName "shop.stock.Item"]
  (.replicate 4 true) (Codebase.mergeDescriptors [{ name := "shop.orders.api", interfaces := ["api"] }])

theorem market_reachable : market.Reachable :=
  @Codebase.Reachable.assembled market.arena.toList market.descriptors.values _ rfl

theorem interfaces_exact_market :
    ∃ g, market.Reachable ∧ build market { roots := ["shop"] } = .ok g ∧
      (g.modules.map fun m ↦ m.interfaces.toList.map fun i ↦ (i.name, i.symbols.toList)) =
        [[("api", [2]), ("spi", [0])], [(defaultName, [3])]] ∧
      ∀ m ∈ g.modules,
        (∀ k id, (∃ i ∈ m.interfaces.toList, i.name = k ∧ i.contains id) ↔
          g.codebase.contains id ∧ m.Presents k id) ∧
        ∀ k, k ∈ m.interfaces.names ↔ m.space.DeclaresInterface k ∨
          k = defaultName ∧ ∀ j, ¬ m.space.DeclaresInterface j := by
  have hinterfaces : (build market { roots := ["shop"] }).toOption.map
      (·.modules.map fun m ↦ m.interfaces.toList.map fun i ↦ (i.name, i.symbols.toList)) =
        some [[("api", [2]), ("spi", [0])], [(defaultName, [3])]] := by decide +kernel
  obtain ⟨g, hg, hinterfaces⟩ := Option.map_eq_some_iff.1 hinterfaces
  have hbuild := ok_of_toOption hg
  refine ⟨g, market_reachable, hbuild, hinterfaces, fun m hm ↦ ?_⟩
  obtain ⟨-, hpresents, -, -, hnames, -⟩ := interfaces_exact market_reachable hbuild hm
  exact ⟨hpresents, hnames⟩

end ModuleGraph

end Modularity
