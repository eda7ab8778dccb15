import Modularity.Proofs.Graph.Ownership

namespace Modularity

open Namespace

def Stereotypes.Produces (st : Stereotypes) (s product : Symbol) : Prop :=
  ∃ f ∈ s.members, st.isFactory f ∧
    ∃ type, f.valueType = some type ∧ product.name ∈ TypeExpr.names type

namespace Module

variable {m : Module} {id : Symbol.Id}

theorem isManaged_iff {st : Stereotypes} {s : Symbol} :
    isManaged st s ↔ st.isComponent s ∨ st.isEntity s ∨ st.isRepository s := by
  simp [isManaged, or_assoc]

variable (h : m.codebase.Coherent)

include h

theorem mem_filter {p : Symbol → Bool} :
    id ∈ m.space.filter p ↔ m.contains id ∧ p (m.codebase.symbol id) := by
  have hsymbols : id ∈ m.space.symbols ↔ m.contains id := h.mem_inNamespace.trans contains_iff.symm
  rw [Namespace.filter, List.mem_filter, hsymbols]
  rfl

theorem mem_products {s : Symbol} :
    id ∈ m.products s ↔ m.contains id ∧ m.stereotypes.Produces s (m.codebase.symbol id) := by
  have hnamed : ∀ name, name ∈ ((s.members.filter m.stereotypes.isFactory).flatMap fun f ↦
      f.valueType.toList.flatMap TypeExpr.names) ↔ ∃ f ∈ s.members, m.stereotypes.isFactory f ∧
        ∃ type, f.valueType = some type ∧ name ∈ TypeExpr.names type := by
    simp [and_assoc]
  simp only [products, List.mem_filter, List.mem_filterMap, hnamed, h.find?_eq_some_iff, contains_iff]
  constructor
  · intro hx
    obtain ⟨⟨name, hname, hmem, rfl⟩, hin⟩ := hx
    exact ⟨⟨hmem, hin⟩, hname⟩
  · intro hy
    obtain ⟨⟨hmem, hin⟩, hproduces⟩ := hy
    exact ⟨⟨_, hproduces, hmem, rfl⟩, hin⟩

theorem mem_qualifying :
    id ∈ m.qualifying ↔ m.contains id ∧ (isManaged m.stereotypes (m.codebase.symbol id) ∨
      ∃ k, m.contains k ∧ m.stereotypes.isConfiguration (m.codebase.symbol k) ∧
        m.stereotypes.Produces (m.codebase.symbol k) (m.codebase.symbol id)) := by
  simp only [qualifying, OrderedSet.mem_ofList, List.mem_append, List.mem_flatMap, mem_filter h,
    mem_products h]
  constructor
  · intro hx
    rcases hx with ⟨hid, hmanaged⟩ | ⟨k, ⟨hk, hconfiguration⟩, hid, hproduces⟩
    · exact ⟨hid, .inl hmanaged⟩
    · exact ⟨hid, .inr ⟨k, hk, hconfiguration, hproduces⟩⟩
  · intro hy
    obtain ⟨hid, hmanaged | ⟨k, hk, hconfiguration, hproduces⟩⟩ := hy
    · exact .inl ⟨hid, hmanaged⟩
    · exact .inr ⟨k, ⟨hk, hconfiguration⟩, hid, hproduces⟩

end Module

namespace ModuleGraph

open Layout

variable {c : Codebase} {o : GraphOptions} {g : ModuleGraph} {m : Module} {id : Symbol.Id}

namespace Built

variable (hc : c.Coherent)

include hc

theorem codebase_contains_iff (h : Built c o g) :
    g.codebase.contains id ↔ c.contains id ∧
      (∃ root ∈ trimmedRoots o.roots, isWithin root (c.symbol id).space) ∧
        ¬ o.ignore.ignores (c.symbol id).name := by
  rw [h.codebase, Codebase.contains_restrict hc]
  simp [Codebase.isUnder, and_assoc]

theorem mem_qualifying (h : Built c o g) (hm : m ∈ g.modules) :
    id ∈ m.qualifying ↔ m.contains id ∧ (Module.isManaged o.stereotypes (c.symbol id) ∨
      ∃ k, m.contains k ∧ o.stereotypes.isConfiguration (c.symbol k) ∧
        o.stereotypes.Produces (c.symbol k) (c.symbol id)) := by
  have hsymbol : ∀ i, m.codebase.symbol i = c.symbol i := by
    intro i
    rw [h.module_codebase hm, h.codebase, Codebase.symbol_restrict]
  rw [Module.mem_qualifying (h.module_codebase hm ▸ h.coherent hc), h.module_stereotypes hm]
  simp only [hsymbol]

end Built

/-- Whatever tells the stereotypes, a module manages exactly the imported symbols within its namespace that
are components, entities or repositories or that the value type of a factory method names, where the
method is one of an imported configuration within that namespace. They are listed in ascending order. To
be imported is to be within a root and not ignored. So nothing of another module and nothing ignored is
managed, and a symbol that is not managed for its own sake gains nothing from the configurations of other
modules. -/
theorem qualifying_exact (hc : c.Reachable) (hbuild : build c o = .ok g) (hm : m ∈ g.modules) :
    m.qualifying.toList.Pairwise (· < ·) ∧
    (∀ id, id ∈ m.qualifying.toList ↔
      g.codebase.contains id ∧ isWithin m.space.name (c.symbol id).space ∧
        (o.stereotypes.isComponent (c.symbol id) ∨ o.stereotypes.isEntity (c.symbol id) ∨
          o.stereotypes.isRepository (c.symbol id) ∨
          ∃ k, g.codebase.contains k ∧ isWithin m.space.name (c.symbol k).space ∧
            o.stereotypes.isConfiguration (c.symbol k) ∧
            o.stereotypes.Produces (c.symbol k) (c.symbol id))) ∧
    (∀ id, g.codebase.contains id ↔ c.contains id ∧
      (∃ root ∈ trimmedRoots o.roots, isWithin root (c.symbol id).space) ∧
        ¬ o.ignore.ignores (c.symbol id).name) ∧
    (∀ id, g.owner? id ≠ some m → id ∉ m.qualifying.toList) ∧
    (∀ id, o.ignore.ignores (c.symbol id).name → id ∉ m.qualifying.toList) ∧
    ∀ id, ¬ Module.isManaged o.stereotypes (c.symbol id) →
      (∀ k, o.stereotypes.isConfiguration (c.symbol k) →
        o.stereotypes.Produces (c.symbol k) (c.symbol id) → g.owner? k ≠ some m) →
      id ∉ m.qualifying.toList := by
  have hco := hc.coherent
  have h := build_eq_ok.1 hbuild
  have howner : ∀ {i}, m.contains i → g.owner? i = some m :=
    fun hi ↦ (h.owner?_eq_some_iff hco).2 ⟨hm, hi⟩
  have hcontains : ∀ i, m.contains i ↔ g.codebase.contains i ∧ isWithin m.space.name (c.symbol i).space := by
    intro i
    rw [h.contains_iff hm, h.codebase, Codebase.symbol_restrict]
  refine ⟨m.qualifying.ascending, fun id ↦ ?_, fun id ↦ h.codebase_contains_iff hco,
    fun id hid hmem ↦ ?_, fun id hid hmem ↦ ?_, fun id hmanaged hk hmem ↦ ?_⟩
  · rw [OrderedSet.mem_toList, h.mem_qualifying hco hm]
    simp only [Module.isManaged_iff, hcontains, and_assoc, or_assoc]
  · exact hid (howner ((h.mem_qualifying hco hm).1 hmem).1)
  · have hin := ((hcontains id).1 ((h.mem_qualifying hco hm).1 hmem).1).1
    exact ((h.codebase_contains_iff hco).1 hin).2.2 hid
  · rcases ((h.mem_qualifying hco hm).1 hmem).2 with hown | ⟨k, hin, hconfiguration, hproduces⟩
    · exact hmanaged hown
    · exact hk k hconfiguration hproduces (howner hin)

def foundry : Codebase := Codebase.index
  #[((Symbol.ofName "foundry.bell.Caster").tagged "configuration").withMember
      ((Member.newMethod "cast" []
        (some "java.util.Map<foundry.bell.Clapper, ? extends foundry.tower.Rope>[]")).tagged "bean")
      |>.withMember ((Member.newMethod "melt" [] (some "foundry.bell.Scrap")).tagged "bean"),
    .ofName "foundry.bell.Clapper", .ofName "foundry.bell.Scrap",
    (Symbol.ofName "foundry.tower.Ringer").tagged "service", .ofName "foundry.tower.Rope"]
  (.replicate 5 true) .empty

theorem qualifying_exact_foundry :
    ∃ ignore g m, foundry.Reachable ∧ IgnoreList.ofPatterns ["*.Scrap"] = .ok ignore ∧
      build foundry { roots := ["foundry"], ignore } = .ok g ∧ m ∈ g.modules ∧
      m.space.name = "foundry.bell" ∧ m.qualifying.toList = [0, 1] ∧
      m.qualifying.toList.Pairwise (· < ·) ∧ 2 ∉ m.qualifying.toList ∧ 4 ∉ m.qualifying.toList := by
  have hreachable : foundry.Reachable := @Codebase.Reachable.assembled foundry.arena.toList [] _ rfl
  have hlists : (IgnoreList.ofPatterns ["*.Scrap"]).toOption.bind (fun ignore ↦
      (build foundry { roots := ["foundry"], ignore }).toOption.map fun g ↦
        (ignore.ignores (foundry.symbol 2).name,
          g.modules.map fun m ↦ (m.space.name, m.qualifying.toList))) =
      some (true, [("foundry.bell", [0, 1]), ("foundry.tower", [3])]) := by decide +kernel
  obtain ⟨ignore, hignore, hg⟩ := Option.bind_eq_some_iff.1 hlists
  obtain ⟨g, hg, hpair⟩ := Option.map_eq_some_iff.1 hg
  obtain ⟨hscrap, hmodules⟩ := Prod.mk.inj hpair
  obtain ⟨m, hm, hbell⟩ := List.mem_map.1 (hmodules ▸ List.mem_cons_self ..)
  obtain ⟨hspace, hqualifying⟩ := Prod.mk.inj hbell
  have hbuild := ok_of_toOption hg
  obtain ⟨hascending, hexact, -, -, hignored, -⟩ := qualifying_exact hreachable hbuild hm
  refine ⟨ignore, g, m, hreachable, ok_of_toOption hignore, hbuild, hm, hspace, hqualifying, hascending,
    hignored 2 hscrap, fun hrope ↦ ?_⟩
  have hwithin := ((hexact 4).1 hrope).2.1
  rw [hspace] at hwithin
  exact absurd hwithin (by decide +kernel)

end ModuleGraph

end Modularity
