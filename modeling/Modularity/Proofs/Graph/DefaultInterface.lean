import Modularity.Proofs.Graph.Exposure

namespace Modularity

open Interface

namespace InterfaceFamily

variable {f : InterfaceFamily} {i : Interface} {k : String} {x : Facet}

theorem shows_iff_of_get? (h : f.get? k = some i) : f.Shows k x ↔ i.Shows x := by
  rw [Shows, h]
  simp

theorem exists_default?_iff : (∃ i, f.default? = some i) ↔ defaultName ∈ f.names :=
  OrderedMap.mem_keys.symm

theorem Keyed.isDeclared_iff (hf : f.Keyed) : f.isDeclared ↔ ∃ k ∈ f.names, k ≠ defaultName := by
  rw [isDeclared, Bool.or_eq_true, decide_eq_true_eq, List.any_eq_true]
  constructor
  · intro h
    rcases h with hmany | ⟨i, hi, hname⟩
    · -- names are distinct, so of several interfaces one is not named as the default
      by_contra hnone
      have hall : ∀ k ∈ f.names, k = defaultName := fun k hk ↦
        Classical.byContradiction fun hne ↦ hnone ⟨k, hk, hne⟩
      have hsame : f.names = List.replicate f.size defaultName :=
        List.eq_replicate_iff.2 ⟨List.length_map .., hall⟩
      have hnodup : (List.replicate f.size defaultName).Nodup := hsame ▸ f.byName.keys_nodup
      exact absurd (List.nodup_replicate.1 hnodup) (Nat.not_le.2 hmany)
    · obtain ⟨k, hk⟩ := mem_toList.1 hi
      refine ⟨k, OrderedMap.mem_keys.2 ⟨i, hk⟩, ?_⟩
      rw [← hf k i hk]
      simpa [isDefault] using hname
  · intro h
    obtain ⟨k, hk, hne⟩ := h
    obtain ⟨i, hi⟩ := OrderedMap.mem_keys.1 hk
    refine .inr ⟨i, mem_toList.2 ⟨k, hi⟩, ?_⟩
    simpa [isDefault, hf k i hi] using hne

end InterfaceFamily

namespace Module

/-- A symbol that the default interface of a module is meant for: a public one, no marker, directly in the
namespace of the module. -/
def Fronts (m : Module) (id : Symbol.Id) : Prop :=
  (m.codebase.symbol id).space = m.space.name ∧ (m.codebase.symbol id).isPublic ∧
    ¬ (m.codebase.symbol id).isMarker

/-- The module keeps its default interface apart from declared ones: it says that interfaces are declared
exactly if that is so, and what passes for its default has no other symbols than a default has. -/
structure TellsDefault (m : Module) : Prop where
  isDeclared_iff : m.interfaces.isDeclared ↔ ∃ k, m.space.DeclaresInterface k
  fronts : ∀ i, m.interfaces.default? = some i → ∀ id, i.contains id → m.Fronts id

variable {m : Module} (h : m.codebase.Coherent) {i : Interface} {id : Symbol.Id}

include h

theorem isDeclared_interfaces_iff :
    m.interfaces.isDeclared ↔ ∃ k, k ≠ defaultName ∧ m.space.DeclaresInterface k := by
  rw [m.keyed_interfaces.isDeclared_iff]
  constructor
  · intro hx
    obtain ⟨k, hk, hne⟩ := hx
    exact ⟨k, hne, ((mem_names_interfaces h).1 hk).resolve_right fun hdefault ↦ hne hdefault.1⟩
  · intro hy
    obtain ⟨k, hne, hk⟩ := hy
    exact ⟨k, (mem_names_interfaces h).2 (.inl hk), hne⟩

theorem exists_default?_interfaces_iff :
    (∃ i, m.interfaces.default? = some i) ↔
      m.space.DeclaresInterface defaultName ∨ ∀ k, ¬ m.space.DeclaresInterface k := by
  rw [InterfaceFamily.exists_default?_iff, mem_names_interfaces h]
  exact or_congr_right (and_iff_right rfl)

theorem contains_default?_iff (hi : m.interfaces.default? = some i) :
    i.contains id ↔ m.codebase.contains id ∧ m.Presents defaultName id := by
  rw [Interface.contains_iff, ← InterfaceFamily.shows_iff_of_get? hi, shows_interfaces h]

omit h in
/-- Where nobody declares the default name, only what a default is meant for stands under it. -/
theorem Presents.fronts (hpresents : m.Presents defaultName id) (hid : m.codebase.contains id)
    (hfree : ¬ m.space.DeclaresInterface defaultName) : m.Fronts id := by
  cases hpresents with
  | space hwithin hd hk => exact absurd (.space hwithin hd hk) hfree
  | symbol hwithin hk => exact absurd (.symbol hid hwithin hk) hfree
  | undeclared _ _ hin hpublic hmarker => exact ⟨hin, hpublic, hmarker⟩

theorem tellsDefault_iff :
    m.TellsDefault ↔ (m.space.DeclaresInterface defaultName →
      (∃ k, k ≠ defaultName ∧ m.space.DeclaresInterface k) ∧
        ∀ id, m.codebase.contains id → m.Presents defaultName id → m.Fronts id) := by
  constructor
  · intro htells hdeclared
    refine ⟨(isDeclared_interfaces_iff h).1 (htells.isDeclared_iff.2 ⟨_, hdeclared⟩), ?_⟩
    intro id hid hpresents
    obtain ⟨i, hi⟩ := (exists_default?_interfaces_iff h).2 (.inl hdeclared)
    exact htells.fronts i hi id ((contains_default?_iff h hi).2 ⟨hid, hpresents⟩)
  · intro hx
    refine ⟨?_, fun i hi id hcontains ↦ ?_⟩
    · rw [isDeclared_interfaces_iff h]
      constructor
      · exact fun hy ↦ hy.imp fun k hk ↦ hk.2
      · intro hz
        obtain ⟨k, hk⟩ := hz
        by_cases hname : k = defaultName
        · exact (hx (hname ▸ hk)).1
        · exact ⟨k, hname, hk⟩
    · obtain ⟨hid, hpresents⟩ := (contains_default?_iff h hi).1 hcontains
      by_cases hdeclared : m.space.DeclaresInterface defaultName
      · exact (hx hdeclared).2 id hid hpresents
      · exact hpresents.fronts hid hdeclared

end Module

namespace ModuleGraph

variable {c : Codebase} {o : GraphOptions} {g : ModuleGraph} {m : Module}

def stall : Codebase := Codebase.index
  #[{ (Symbol.ofName "shop.orders.Draft").inInterface defaultName with visibility := .withinNamespace },
    .ofName "shop.stock.Item"]
  (.replicate 2 true) .empty

theorem stall_reachable : stall.Reachable :=
  @Codebase.Reachable.assembled stall.arena.toList [] _ rfl

/-- A declared interface with the name of the default passes for it: the module says that nothing is
declared, and its default has a symbol that is not public. -/
theorem default_name_taken : stall.Reachable ∧
    ∃ g, build stall { roots := ["shop"] } = .ok g ∧ ∃ m ∈ g.modules,
      m.space.DeclaresInterface defaultName ∧ m.interfaces.isDeclared = false ∧
      (∃ i, m.interfaces.default? = some i ∧ ∃ id, i.contains id ∧ ¬ m.Fronts id) ∧
      ¬ m.TellsDefault := by
  have hmodules : (build stall { roots := ["shop"] }).toOption.map (·.modules.map fun m ↦
      (m.codebase.contains 0 && Namespace.isWithin m.space.name (m.codebase.symbol 0).space &&
        (m.codebase.symbol 0).interfaces.contains defaultName,
        m.interfaces.isDeclared, m.interfaces.default?.any (·.contains 0),
        (m.codebase.symbol 0).isPublic)) =
      some [(true, false, true, false), (false, false, false, false)] := by decide +kernel
  obtain ⟨g, hg, hmodules⟩ := Option.map_eq_some_iff.1 hmodules
  obtain ⟨m, hm, hfacts⟩ : ∃ m ∈ g.modules, _ = (true, false, true, false) :=
    List.mem_map.1 (hmodules ▸ List.mem_cons_self ..)
  simp only [Prod.mk.injEq, Bool.and_eq_true, List.contains_iff_mem] at hfacts
  obtain ⟨⟨⟨hid, hwithin⟩, hname⟩, hundeclared, hcontains, hhidden⟩ := hfacts
  have hdeclares : m.space.DeclaresInterface defaultName := .symbol hid hwithin hname
  obtain ⟨i, hi, hcontains⟩ := (Option.any_eq_true _ _).1 hcontains
  have hfronts : ¬ m.Fronts 0 := fun h ↦ Bool.false_ne_true (hhidden.symm.trans h.2.1)
  refine ⟨stall_reachable, g, ok_of_toOption hg, m, hm, hdeclares, hundeclared,
    ⟨i, hi, 0, hcontains, hfronts⟩, fun h ↦ hfronts (h.fronts i hi 0 hcontains)⟩

/-- What a module makes of its default interface, whatever names are declared in it. It says that interfaces
are declared exactly if one of another name is. It has a default exactly if nothing is declared or the
name of the default is, and the default has what the declarations put there. So it is kept apart from
declared interfaces exactly if nobody declares its name, or if somebody does beside another one and only
such symbols stand under that name as a default is meant for. -/
theorem default_told_apart (hc : c.Reachable) (hbuild : build c o = .ok g) (hm : m ∈ g.modules) :
    (m.interfaces.isDeclared ↔ ∃ k, k ≠ defaultName ∧ m.space.DeclaresInterface k) ∧
    ((∃ i, m.interfaces.default? = some i) ↔
      m.space.DeclaresInterface defaultName ∨ ∀ k, ¬ m.space.DeclaresInterface k) ∧
    (∀ i, m.interfaces.default? = some i → ∀ id,
      i.contains id ↔ m.codebase.contains id ∧ m.Presents defaultName id) ∧
    (m.TellsDefault ↔ (m.space.DeclaresInterface defaultName →
      (∃ k, k ≠ defaultName ∧ m.space.DeclaresInterface k) ∧
        ∀ id, m.codebase.contains id → m.Presents defaultName id → m.Fronts id)) := by
  have hb := build_eq_ok.1 hbuild
  have h : m.codebase.Coherent := hb.module_codebase hm ▸ hb.coherent hc.coherent
  exact ⟨Module.isDeclared_interfaces_iff h, Module.exists_default?_interfaces_iff h,
    fun i hi id ↦ Module.contains_default?_iff h hi, Module.tellsDefault_iff h⟩

/-- The orders of the stall lose their default to a declared interface, the stock keeps its own. -/
theorem default_told_apart_stall :
    ∃ g, stall.Reachable ∧ build stall { roots := ["shop"] } = .ok g ∧
      g.modules.map (fun m ↦ (m.name, m.interfaces.isDeclared)) =
        [("orders", false), ("stock", false)] ∧
      ∀ m ∈ g.modules,
        (m.interfaces.isDeclared ↔ ∃ k, k ≠ defaultName ∧ m.space.DeclaresInterface k) ∧
        (m.TellsDefault ↔ (m.space.DeclaresInterface defaultName →
          (∃ k, k ≠ defaultName ∧ m.space.DeclaresInterface k) ∧
            ∀ id, m.codebase.contains id → m.Presents defaultName id → m.Fronts id)) := by
  have hnames : (build stall { roots := ["shop"] }).toOption.map
      (·.modules.map fun m ↦ (m.name, m.interfaces.isDeclared)) =
        some [("orders", false), ("stock", false)] := by decide +kernel
  obtain ⟨g, hg, hnames⟩ := Option.map_eq_some_iff.1 hnames
  have hbuild := ok_of_toOption hg
  refine ⟨g, stall_reachable, hbuild, hnames, fun m hm ↦ ?_⟩
  obtain ⟨hdeclared, -, -, htells⟩ := default_told_apart stall_reachable hbuild hm
  exact ⟨hdeclared, htells⟩

end ModuleGraph

end Modularity
