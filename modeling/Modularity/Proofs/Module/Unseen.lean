import Modularity.Proofs.Codebase.Addition
import Modularity.Proofs.Graph.Dependency
import Modularity.Proofs.Module.Relocation

namespace Modularity

open Namespace

namespace Symbol

def typeExprs (s : Symbol) : List String :=
  s.members.flatMap (fun m ↦ m.parameterTypes ++ m.valueType.toList) ++ s.references.map (·.target) ++
    s.supertypes

def typeNames (s : Symbol) : List String := s.typeExprs.flatMap TypeExpr.names

/-- A symbol that no module has a use for: it is neither managed nor a configuration, no interface over a
namespace takes it in, and it declares no interface. -/
structure IsInert (st : Stereotypes) (s : Symbol) : Prop where
  component : ¬ st.isComponent s
  entity : ¬ st.isEntity s
  repository : ¬ st.isRepository s
  configuration : ¬ st.isConfiguration s
  unpresentable : ¬ s.isPresentable
  interfaces : s.interfaces = []

theorem IsInert.unmanaged {st : Stereotypes} {s : Symbol} (h : s.IsInert st) :
    ¬ Module.isManaged st s := by
  simp [Module.isManaged, h.component, h.entity, h.repository]

variable {s : Symbol} {m : Member} {expr t : String}

theorem mem_typeNames (hexpr : expr ∈ s.typeExprs) (ht : t ∈ TypeExpr.names expr) : t ∈ s.typeNames :=
  List.mem_flatMap.2 ⟨expr, hexpr, ht⟩

theorem mem_typeExprs_of_mem_members (hm : m ∈ s.members)
    (hexpr : expr ∈ m.parameterTypes ++ m.valueType.toList) : expr ∈ s.typeExprs :=
  List.mem_append_left _ (List.mem_append_left _ (List.mem_flatMap.2 ⟨m, hm, hexpr⟩))

theorem mem_typeExprs_of_parameter (hm : m ∈ s.members) (hexpr : expr ∈ m.parameterTypes) :
    expr ∈ s.typeExprs :=
  mem_typeExprs_of_mem_members hm (List.mem_append_left _ hexpr)

theorem mem_typeExprs_of_value (hm : m ∈ s.members) (hexpr : m.valueType = some expr) :
    expr ∈ s.typeExprs :=
  mem_typeExprs_of_mem_members hm (List.mem_append_right _ (Option.mem_toList.2 hexpr))

end Symbol

variable {st : Stereotypes} {platform : Platform} {s : Symbol} {site : Edge.Site} {t : String}

theorem Mentions.mem_typeNames (h : Mentions st platform s site t) : t ∈ s.typeNames := by
  cases h with
  | constructorParameter hinj hexpr ht =>
    exact Symbol.mem_typeNames
      (Symbol.mem_typeExprs_of_parameter (List.mem_filter.1 hinj.1).1 hexpr) ht
  | injectedField hm _ _ hexpr ht =>
    exact Symbol.mem_typeNames (Symbol.mem_typeExprs_of_value hm hexpr) ht
  | injectedMethod hm _ _ hexpr ht =>
    exact Symbol.mem_typeNames (Symbol.mem_typeExprs_of_parameter hm hexpr) ht
  | parameter hm _ _ hexpr ht _ =>
    exact Symbol.mem_typeNames (Symbol.mem_typeExprs_of_parameter hm hexpr) ht
  | value hm _ _ hexpr ht _ =>
    exact Symbol.mem_typeNames (Symbol.mem_typeExprs_of_value hm hexpr) ht
  | reference hr ht =>
    exact Symbol.mem_typeNames
      (List.mem_append_left _ (List.mem_append_right _ (List.mem_map_of_mem hr))) ht
  | supertype hexpr ht => exact Symbol.mem_typeNames (List.mem_append_right _ hexpr) ht

theorem filter_ne_filter {α : Type} [DecidableEq α] {p : α → Bool} {a : α} (ha : ¬ p a) (xs : List α) :
    (xs.filter (· ≠ a)).filter p = xs.filter p := by
  rw [List.filter_filter]
  refine List.filter_congr fun b _ ↦ ?_
  by_cases hb : b = a
  · subst hb
    simp [ha]
  · simp [hb]

theorem flatMap_filter_ne {α β : Type} [DecidableEq α] {f : α → List β} {a : α} (ha : f a = [])
    (xs : List α) : (xs.filter (· ≠ a)).flatMap f = xs.flatMap f := by
  induction xs with
  | nil => rfl
  | cons x xs ih =>
    rw [List.flatMap_cons, ← ih]
    by_cases hx : x = a
    · rw [List.filter_cons_of_neg (by simpa using hx), hx, ha, List.nil_append]
    · rw [List.filter_cons_of_pos (by simpa using hx), List.flatMap_cons]

/-- One codebase hides the symbol at a position, which nobody sees in another one. -/
structure Codebase.Hides (st : Stereotypes) (id : Symbol.Id) (c d : Codebase) : Prop
    extends Codebase.Extends id c d where
  spaces : c.SameSpaces d
  inert : (c.symbol id).IsInert st
  unnamed : ∀ i, c.contains i → (c.symbol id).name ∉ (c.symbol i).typeNames

variable {d : Codebase} {id : Symbol.Id}

theorem Codebase.Hides.find?_of_mem {c : Codebase} (h : c.Hides st id d) {i : Symbol.Id}
    (hi : c.contains i) {name : String} (hname : name ∈ (c.symbol i).typeNames) :
    d.find? name = c.find? name :=
  h.find? fun heq ↦ h.unnamed i hi (heq ▸ hname)

section

variable {n : Namespace} (h : n.codebase.Hides st id d)

include h

theorem Namespace.filter_unseen {p : Symbol → Bool} (hp : ¬ p (n.codebase.symbol id)) :
    (n.relocate d).filter p = n.filter p := by
  have hsame : (fun i ↦ p (d.symbol i)) = fun i ↦ p (n.codebase.symbol i) :=
    funext fun i ↦ congrArg p (h.symbol i)
  have hsymbols : n.symbols = (n.relocate d).symbols.filter (· ≠ id) := h.inNamespace n.name
  rw [Namespace.filter, Namespace.filter, hsymbols]
  exact (congrArg (List.filter · _) hsame).trans
    (filter_ne_filter (p := fun i ↦ p (n.codebase.symbol i)) hp _).symm

theorem Interface.ofNamespace_unseen (name : String) :
    ofNamespace name (n.relocate d) = ofNamespace name n := by
  have hsame : (fun i ↦ (d.symbol i).isPresentable) = fun i ↦ (n.codebase.symbol i).isPresentable :=
    funext fun i ↦ congrArg Symbol.isPresentable (h.symbol i)
  have hdirect : n.directSymbols = (n.relocate d).directSymbols.filter (· ≠ id) := h.directlyIn n.name
  have hsymbols : (n.relocate d).directSymbols.filter (fun i ↦ (d.symbol i).isPresentable) =
      n.directSymbols.filter fun i ↦ (n.codebase.symbol i).isPresentable := by
    rw [hsame, hdirect]
    exact (filter_ne_filter (p := fun i ↦ (n.codebase.symbol i).isPresentable)
      h.inert.unpresentable _).symm
  exact congrArg (fun symbols ↦ Interface.mk name _ (.ofList symbols)) hsymbols

end

namespace Discovery

variable {k : Discovery} {origin : Symbol.Id} (h : k.codebase.Hides st id d)

include h

theorem symbol_unseen (i : Symbol.Id) : (k.relocate d).codebase.symbol i = k.codebase.symbol i :=
  h.symbol i

theorem target?_unseen (horigin : k.codebase.contains origin) {x : Mention}
    (hx : x ∈ (k.codebase.symbol origin).mentions k.stereotypes) :
    (k.relocate d).target? origin x = k.target? origin x := by
  have hsame : (k.relocate d).isExcluded x = k.isExcluded x := rfl
  rw [target?, target?, hsame]
  by_cases hexcluded : k.isExcluded x
  · rw [if_pos hexcluded, if_pos hexcluded]
  · -- only what is not passed over counts as a mention
    have hmentions := exists_mention_iff.1 ⟨x, hx, rfl, rfl, hexcluded⟩
    have hfind : (k.relocate d).codebase.find? x.name = k.codebase.find? x.name :=
      h.find?_of_mem horigin hmentions.mem_typeNames
    rw [if_neg hexcluded, if_neg hexcluded, hfind]
    refine congrArg (Option.filter · _) (funext fun i ↦ ?_)
    rw [symbol_unseen h]
    rfl

theorem edge?_unseen (horigin : k.codebase.contains origin) {x : Mention}
    (hx : x ∈ (k.codebase.symbol origin).mentions k.stereotypes) :
    (k.relocate d).edge? origin x = k.edge? origin x := by
  rw [edge?, edge?, target?_unseen h horigin hx]
  refine congrArg (Option.map · _) (funext fun target ↦ ?_)
  rw [symbol_unseen h]
  rfl

theorem edges_unseen (horigin : k.codebase.contains origin) :
    (k.relocate d).edges origin = k.edges origin := by
  have hst : (k.relocate d).stereotypes = k.stereotypes := rfl
  have hshown : (Mention.inMembers k.stereotypes (k.codebase.symbol origin)).filterMap
      ((k.relocate d).edge? origin) = (Mention.inMembers k.stereotypes
        (k.codebase.symbol origin)).filterMap (k.edge? origin) :=
    List.filterMap_congr fun x hx ↦ edge?_unseen h horigin (List.mem_append_left _ hx)
  have hothers : (Mention.elsewhere (k.codebase.symbol origin)).filterMap
      ((k.relocate d).edge? origin) =
        (Mention.elsewhere (k.codebase.symbol origin)).filterMap (k.edge? origin) :=
    List.filterMap_congr fun x hx ↦ edge?_unseen h horigin (List.mem_append_right _ hx)
  rw [edges, edges, symbol_unseen h, hst, hshown, hothers]

end Discovery

namespace Module

variable {m : Module} (h : m.codebase.Hides m.stereotypes id d)

include h

theorem symbol_unseen (i : Symbol.Id) : (m.relocate d).codebase.symbol i = m.codebase.symbol i :=
  h.symbol i

theorem filter_unseen {p : Symbol → Bool} (hp : ¬ p (m.codebase.symbol id)) :
    (m.relocate d).space.filter p = m.space.filter p :=
  m.space.filter_unseen h hp

theorem contains_unseen {i : Symbol.Id} (hi : m.codebase.contains i) :
    (m.relocate d).contains i = m.contains i := by
  have hget : (m.relocate d).codebase.get? i = m.codebase.get? i := by
    have hd : d.get? i = some (d.symbol i) := if_pos (h.contains_iff.1 hi).1
    have hc : m.codebase.get? i = some (m.codebase.symbol i) := if_pos hi
    rw [hc, ← h.symbol]
    exact hd
  rw [contains, contains, hget]
  rfl

theorem products_unseen {i : Symbol.Id} (hi : m.codebase.contains i) :
    (m.relocate d).products (m.codebase.symbol i) = m.products (m.codebase.symbol i) := by
  have hfind : (((m.codebase.symbol i).members.filter m.stereotypes.isFactory).flatMap fun f ↦
      f.valueType.toList.flatMap TypeExpr.names).filterMap (m.relocate d).codebase.find? =
      (((m.codebase.symbol i).members.filter m.stereotypes.isFactory).flatMap fun f ↦
        f.valueType.toList.flatMap TypeExpr.names).filterMap m.codebase.find? := by
    refine List.filterMap_congr fun name hname ↦ h.find?_of_mem hi ?_
    obtain ⟨f, hf, hname⟩ := List.mem_flatMap.1 hname
    obtain ⟨expr, hexpr, hname⟩ := List.mem_flatMap.1 hname
    exact Symbol.mem_typeNames (Symbol.mem_typeExprs_of_value (List.mem_filter.1 hf).1
      (Option.mem_toList.1 hexpr)) hname
  have hholds : (fun j ↦ (m.relocate d).space.holds ((m.relocate d).codebase.symbol j)) =
      fun j ↦ m.space.holds (m.codebase.symbol j) :=
    funext fun j ↦ congrArg m.space.holds (h.symbol j)
  have hst : (m.relocate d).stereotypes = m.stereotypes := rfl
  simp only [products, hst, hfind, hholds]

theorem qualifying_unseen : (m.relocate d).qualifying = m.qualifying := by
  have hproducts : (m.space.filter m.stereotypes.isConfiguration).flatMap
      (fun i ↦ (m.relocate d).products ((m.relocate d).codebase.symbol i)) =
      (m.space.filter m.stereotypes.isConfiguration).flatMap
        fun i ↦ m.products (m.codebase.symbol i) := by
    refine List.flatMap_congr fun i hi ↦ ?_
    have hmem := (contains_iff.1 ((mem_filter h.source).1 hi).1).1
    rw [symbol_unseen h, products_unseen h hmem]
  have hst : (m.relocate d).stereotypes = m.stereotypes := rfl
  simp only [qualifying, hst, filter_unseen h h.inert.unmanaged,
    filter_unseen h h.inert.configuration, hproducts]

theorem symbolInterfaces_unseen : (m.relocate d).symbolInterfaces = m.symbolInterfaces := by
  have hsymbols : m.space.symbols = (m.relocate d).space.symbols.filter (· ≠ id) :=
    h.inNamespace m.space.name
  have hnone : ((m.codebase.symbol id).interfaces.map fun name ↦ Interface.ofSymbols name [id]) = [] := by
    rw [h.inert.interfaces, List.map_nil]
  rw [symbolInterfaces, symbolInterfaces, hsymbols, flatMap_filter_ne (a := id) hnone]
  refine List.flatMap_congr fun i _ ↦ ?_
  rw [symbol_unseen h]

theorem interfaces_unseen : (m.relocate d).interfaces = m.interfaces := by
  have hscoped : (m.relocate d).scopedInterfaces = m.scopedInterfaces := by
    rw [scopedInterfaces_of_declared h.spaces.known
      (fun space ↦ congrArg _ (h.spaces.descriptor? space)) (f := fun i ↦ i) fun n hn name ↦
      Interface.ofNamespace_unseen (hn ▸ h) name]
    exact List.map_id' _
  have hdefault : Interface.ofDefault (m.relocate d).space = Interface.ofDefault m.space :=
    Interface.ofNamespace_unseen h _
  rw [interfaces, interfaces, hscoped, symbolInterfaces_unseen h, InterfaceFamily.orDefault,
    InterfaceFamily.orDefault, hdefault]

theorem edges_unseen : (m.relocate d).edges = m.edges := by
  have hdiscovery : (m.relocate d).discovery = m.discovery.relocate d := rfl
  rw [edges, edges, qualifying_unseen h, hdiscovery]
  refine List.flatMap_congr fun i hi ↦ ?_
  have hmem := (contains_iff.1 ((mem_qualifying h.source).1 hi).1).1
  exact Discovery.edges_unseen h hmem

theorem exposes_unseen {i : Symbol.Id} (hi : m.codebase.contains i) :
    (m.relocate d).exposes i = m.exposes i := by
  rw [exposes, exposes, interfaces_unseen h, contains_unseen h hi]
  rfl

end Module

theorem AllowList.admits_unseen {m : Module} (h : m.codebase.Hides m.stereotypes id d) (l : AllowList)
    (i : Symbol.Id) : l.admits (m.relocate d) i = l.admits m i := by
  simp only [admits, Permission.admits, m.interfaces_unseen h]
  rfl

end Modularity
