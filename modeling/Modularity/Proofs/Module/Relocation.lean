import Modularity.Module.AllowList
import Modularity.Proofs.Codebase.Relocation
import Modularity.Proofs.Ordered.Image

namespace Modularity

open Namespace

variable {d : Codebase} {e : Symbol.Id → Symbol.Id}

/-! ### Namespaces -/

def Namespace.relocate (n : Namespace) (d : Codebase) : Namespace := ⟨d, n.name⟩

section

variable {n : Namespace} (h : n.codebase.Relocates e d)

include h

theorem Namespace.symbols_relocate : (n.relocate d).symbols = n.symbols.map e := h.inNamespace n.name

theorem Namespace.filter_relocate (p : Symbol → Bool) :
    (n.relocate d).filter p = (n.filter p).map e := by
  have hsame : ((fun id ↦ p (d.symbol id)) ∘ e) = fun id ↦ p (n.codebase.symbol id) := by
    funext id
    rw [Function.comp_apply, h.symbol]
  rw [Namespace.filter, Namespace.filter, symbols_relocate h, List.filter_map]
  exact congrArg (fun q ↦ (n.symbols.filter q).map e) hsame

end

theorem Namespace.subspaces_relocate {n : Namespace} (h : d.known = n.codebase.known) :
    (n.relocate d).subspaces = n.subspaces.map (·.relocate d) := by
  have hnames : d.subspaces n.name = n.codebase.subspaces n.name := by
    rw [Codebase.subspaces, Codebase.subspaces, h]
  rw [subspaces, subspaces, List.map_map]
  exact congrArg (List.map _) hnames

/-! ### Interfaces -/

namespace Interface

def relocate (e : Symbol.Id → Symbol.Id) (i : Interface) : Interface :=
  { i with symbols := i.symbols.image e }

theorem ofNamespace_relocate {n : Namespace} (h : n.codebase.Relocates e d) (name : String) :
    ofNamespace name (n.relocate d) = (ofNamespace name n).relocate e := by
  have hdirect : (n.relocate d).directSymbols = n.directSymbols.map e := h.directlyIn n.name
  have hsame : ((fun id ↦ (d.symbol id).isPresentable) ∘ e) =
      fun id ↦ (n.codebase.symbol id).isPresentable := by
    funext id
    rw [Function.comp_apply, h.symbol]
  have hsymbols : (n.relocate d).directSymbols.filter (fun id ↦ (d.symbol id).isPresentable) =
      (n.directSymbols.filter fun id ↦ (n.codebase.symbol id).isPresentable).map e := by
    rw [hdirect, List.filter_map, hsame]
  have himage : ((ofNamespace name n).relocate e).symbols = .ofList
      ((n.directSymbols.filter fun id ↦ (n.codebase.symbol id).isPresentable).map e) :=
    OrderedSet.image_ofList _
  rw [← hsymbols] at himage
  exact congrArg (Interface.mk name _) himage.symm

theorem ofSymbols_relocate (name : String) (ids : List Symbol.Id) :
    ofSymbols name (ids.map e) = (ofSymbols name ids).relocate e :=
  congrArg (Interface.mk name none) (OrderedSet.image_ofList ids).symm

theorem merge?_relocate (i j : Interface) :
    (i.relocate e).merge? (j.relocate e) = (i.merge? j).map (relocate e) := by
  by_cases hname : i.name = j.name
  · simp [merge?, relocate, hname, OrderedSet.image_union]
  · simp [merge?, relocate, hname]

theorem contains_relocate (he : Function.Injective e) (i : Interface) (id : Symbol.Id) :
    (i.relocate e).contains (e id) = i.contains id :=
  OrderedSet.contains_image he i.symbols id

end Interface

namespace InterfaceFamily

def relocate (e : Symbol.Id → Symbol.Id) (f : InterfaceFamily) : InterfaceFamily :=
  ⟨f.byName.mapValues (·.relocate e)⟩

theorem add_relocate (f : InterfaceFamily) (i : Interface) :
    (f.relocate e).add (i.relocate e) = (f.add i).relocate e := by
  refine congrArg InterfaceFamily.mk (Eq.symm (OrderedMap.alter_mapValues _ (fun o ↦ ?_) _ _))
  cases o with
  | none => rfl
  | some j =>
    rw [Option.map_some]
    dsimp only
    rw [Interface.merge?_relocate]
    cases j.merge? i <;> rfl

theorem foldl_add_relocate (f : InterfaceFamily) (is : List Interface) :
    (is.map (·.relocate e)).foldl add (f.relocate e) = (is.foldl add f).relocate e := by
  induction is generalizing f with
  | nil => rfl
  | cons i is ih => rw [List.map_cons, List.foldl_cons, List.foldl_cons, add_relocate, ih]

theorem ofList_relocate (is : List Interface) :
    ofList (is.map (·.relocate e)) = (ofList is).relocate e := foldl_add_relocate empty is

theorem toList_relocate (f : InterfaceFamily) :
    (f.relocate e).toList = f.toList.map (·.relocate e) := OrderedMap.values_mapValues _ _

theorem union_relocate (f k : InterfaceFamily) :
    (f.relocate e).union (k.relocate e) = (f.union k).relocate e := by
  rw [union, union, toList_relocate, foldl_add_relocate]

theorem orDefault_relocate {n : Namespace} (h : n.codebase.Relocates e d) (f : InterfaceFamily) :
    (f.relocate e).orDefault (n.relocate d) = (f.orDefault n).relocate e := by
  have hempty : (f.relocate e).isEmpty = f.isEmpty := OrderedMap.isEmpty_mapValues _ _
  rw [orDefault, orDefault, hempty, apply_ite (relocate e), ← add_relocate, Interface.ofDefault,
    Interface.ofNamespace_relocate h]
  rfl

theorem names_relocate (f : InterfaceFamily) : (f.relocate e).names = f.names :=
  OrderedMap.keys_mapValues _ _

theorem get?_relocate (f : InterfaceFamily) (name : String) :
    (f.relocate e).get? name = (f.get? name).map (·.relocate e) := OrderedMap.get?_mapValues _ _ _

theorem contains_relocate (he : Function.Injective e) (f : InterfaceFamily) (id : Symbol.Id) :
    (f.relocate e).contains (e id) = f.contains id := by
  rw [contains, contains, toList_relocate, List.any_map]
  exact congrArg (List.any f.toList) (funext fun i ↦ i.contains_relocate he id)

end InterfaceFamily

/-! ### Edges -/

def Edge.relocate (e : Symbol.Id → Symbol.Id) (x : Edge) : Edge :=
  { x with origin := e x.origin, target := e x.target }

theorem Edge.relocate_injective (he : Function.Injective e) : Function.Injective (Edge.relocate e) := by
  intro x y hxy
  cases x
  cases y
  simp only [relocate, mk.injEq] at hxy ⊢
  exact ⟨he hxy.1, he hxy.2.1, hxy.2.2⟩

theorem Edge.describe_relocate {c : Codebase} (h : ∀ id, d.symbol (e id) = c.symbol id) (x : Edge) :
    (x.relocate e).describe d = x.describe c := by
  simp only [describe, relocate, h]

namespace Discovery

def relocate (k : Discovery) (d : Codebase) : Discovery := { k with codebase := d }

variable {k : Discovery} (h : k.codebase.Relocates e d)

include h

theorem symbol_relocate (id : Symbol.Id) :
    (k.relocate d).codebase.symbol (e id) = k.codebase.symbol id := h.symbol id

theorem target?_relocate (origin : Symbol.Id) (m : Mention) :
    (k.relocate d).target? (e origin) m = (k.target? origin m).map e := by
  have hexcluded : (k.relocate d).isExcluded m = k.isExcluded m := rfl
  have hfind : (k.relocate d).codebase.find? m.name = (k.codebase.find? m.name).map e :=
    h.find? m.name
  rw [target?, target?, hexcluded, hfind, apply_ite (Option.map e), Option.map_none,
    Option.filter_map]
  have hsame : ((fun id ↦ decide (id ≠ e origin) &&
      !isWithin (k.relocate d).owner ((k.relocate d).codebase.symbol id).space) ∘ e) =
      fun id ↦ decide (id ≠ origin) && !isWithin k.owner (k.codebase.symbol id).space := by
    funext id
    rw [Function.comp_apply, symbol_relocate h, decide_eq_decide.2 h.injective.ne_iff]
    rfl
  rw [hsame]

theorem edge?_relocate (origin : Symbol.Id) (m : Mention) :
    (k.relocate d).edge? (e origin) m = (k.edge? origin m).map (Edge.relocate e) := by
  rw [edge?, edge?, target?_relocate h, Option.map_map, Option.map_map]
  refine congrArg (Option.map · _) (funext fun target ↦ ?_)
  simp only [Function.comp_apply, symbol_relocate h]
  rfl

theorem edges_relocate (origin : Symbol.Id) :
    (k.relocate d).edges (e origin) = (k.edges origin).map (Edge.relocate e) := by
  have hmentions : ∀ ms : List Mention, ms.filterMap ((k.relocate d).edge? (e origin)) =
      (ms.filterMap (k.edge? origin)).map (Edge.relocate e) := fun ms ↦ by
    rw [List.map_filterMap]
    exact congrArg (List.filterMap · ms) (funext fun m ↦ edge?_relocate h origin m)
  have hst : (k.relocate d).stereotypes = k.stereotypes := rfl
  rw [edges, edges, symbol_relocate h, hst, hmentions, hmentions, List.map_append, List.filter_map]
  congr 2
  refine congrArg (List.filter · _) (funext fun x ↦ ?_)
  rw [Function.comp_apply, Bool.eq_iff_iff]
  simp only [Bool.not_eq_true', ← Bool.not_eq_true, List.contains_iff_mem, List.map_map, List.mem_map,
    Function.comp_apply, Edge.relocate, h.injective.eq_iff]

end Discovery

/-! ### Modules -/

namespace Module

def relocate (m : Module) (d : Codebase) : Module := { m with space := m.space.relocate d }

variable {m : Module} (h : m.codebase.Relocates e d)

include h

theorem symbol_relocate (id : Symbol.Id) :
    (m.relocate d).codebase.symbol (e id) = m.codebase.symbol id := h.symbol id

theorem products_relocate (s : Symbol) : (m.relocate d).products s = (m.products s).map e := by
  have hfind : ∀ types : List String, types.filterMap (m.relocate d).codebase.find? =
      (types.filterMap m.codebase.find?).map e := fun types ↦ by
    rw [List.map_filterMap]
    exact congrArg (List.filterMap · types) (funext fun name ↦ h.find? name)
  have hsame : ((fun id ↦ (m.relocate d).space.holds ((m.relocate d).codebase.symbol id)) ∘ e) =
      fun id ↦ m.space.holds (m.codebase.symbol id) := by
    funext id
    rw [Function.comp_apply, symbol_relocate h]
    rfl
  rw [products, products, hfind, List.filter_map, hsame]
  rfl

theorem qualifying_relocate : (m.relocate d).qualifying = m.qualifying.image e := by
  have hfilter : ∀ p, (m.relocate d).space.filter p = (m.space.filter p).map e :=
    m.space.filter_relocate h
  have hproducts : ∀ id, (m.relocate d).products ((m.relocate d).codebase.symbol (e id)) =
      (m.products (m.codebase.symbol id)).map e := fun id ↦ by
    rw [symbol_relocate h, products_relocate h]
  rw [qualifying, qualifying, OrderedSet.image_ofList, List.map_append, List.map_flatMap, hfilter,
    hfilter, List.flatMap_map]
  simp only [hproducts]
  rfl

omit h in
/-- The interfaces over namespaces change as each of them does, if the same are declared. -/
theorem scopedInterfaces_of_declared (hknown : d.known = m.codebase.known)
    (hdeclared : ∀ space, (d.descriptor? space).map (·.interfaces) =
      (m.codebase.descriptor? space).map (·.interfaces)) {f : Interface → Interface}
    (hf : ∀ n : Namespace, n.codebase = m.codebase → ∀ name,
      Interface.ofNamespace name (n.relocate d) = f (Interface.ofNamespace name n)) :
    (m.relocate d).scopedInterfaces = m.scopedInterfaces.map f := by
  have hspaces : (m.relocate d).space :: (m.relocate d).space.subspaces =
      (m.space :: m.space.subspaces).map (·.relocate d) :=
    congrArg (List.cons _) (Namespace.subspaces_relocate hknown)
  have hinside : ∀ n ∈ m.space :: m.space.subspaces, n.codebase = m.codebase := by
    intro n hn
    rcases List.mem_cons.1 hn with rfl | hn
    · rfl
    · obtain ⟨name, -, rfl⟩ := List.mem_map.1 hn
      rfl
  have hnames : ∀ o : Option Descriptor,
      o.toList.flatMap (·.interfaces) = (o.map (·.interfaces)).getD [] := by
    intro o
    cases o <;> simp
  rw [scopedInterfaces, scopedInterfaces, hspaces, List.flatMap_map, List.map_flatMap]
  apply List.flatMap_congr
  intro n hn
  have hsame : (n.relocate d).descriptor?.map (·.interfaces) = n.descriptor?.map (·.interfaces) := by
    rw [Namespace.descriptor?, Namespace.descriptor?, hinside n hn]
    exact hdeclared n.name
  rw [hnames, hnames, hsame, List.map_map]
  exact List.map_congr_left fun name _ ↦ hf n (hinside n hn) name

theorem scopedInterfaces_relocate :
    (m.relocate d).scopedInterfaces = m.scopedInterfaces.map (·.relocate e) :=
  scopedInterfaces_of_declared h.known (fun space ↦ congrArg _ (h.descriptor? space)) fun _ hn name ↦
    Interface.ofNamespace_relocate (hn ▸ h) name

theorem symbolInterfaces_relocate :
    (m.relocate d).symbolInterfaces = m.symbolInterfaces.map (·.relocate e) := by
  have hsymbols : (m.relocate d).space.symbols = m.space.symbols.map e := m.space.symbols_relocate h
  rw [symbolInterfaces, symbolInterfaces, hsymbols, List.flatMap_map, List.map_flatMap]
  apply List.flatMap_congr
  intro id _
  rw [symbol_relocate h, List.map_map]
  exact List.map_congr_left fun name _ ↦ Interface.ofSymbols_relocate name [id]

theorem interfaces_relocate : (m.relocate d).interfaces = m.interfaces.relocate e := by
  rw [interfaces, interfaces, scopedInterfaces_relocate h, symbolInterfaces_relocate h,
    InterfaceFamily.ofList_relocate, InterfaceFamily.ofList_relocate, InterfaceFamily.union_relocate]
  exact InterfaceFamily.orDefault_relocate h _

theorem contains_relocate (id : Symbol.Id) : (m.relocate d).contains (e id) = m.contains id := by
  have hget : (m.relocate d).codebase.get? (e id) = m.codebase.get? id := h.get? id
  rw [contains, contains, hget]
  rfl

theorem exposes_relocate (id : Symbol.Id) : (m.relocate d).exposes (e id) = m.exposes id := by
  rw [exposes, exposes, contains_relocate h, interfaces_relocate h,
    InterfaceFamily.contains_relocate h.injective]
  rfl

theorem edges_relocate : (m.relocate d).edges = m.edges.map (Edge.relocate e) := by
  have hdiscovery : (m.relocate d).discovery = m.discovery.relocate d := rfl
  rw [edges, edges, qualifying_relocate h, OrderedSet.toList_image h.ascending, List.flatMap_map,
    List.map_flatMap, hdiscovery]
  exact List.flatMap_congr fun id _ ↦ Discovery.edges_relocate h id

end Module

section

variable {m : Module} (h : m.codebase.Relocates e d)

include h

theorem Permission.admits_relocate (p : Permission) (id : Symbol.Id) :
    p.admits (m.relocate d) (e id) = p.admits m id := by
  have hany : ∀ i : Option Interface,
      (i.map (·.relocate e)).any (·.contains (e id)) = i.any (·.contains id) := fun i ↦ by
    rw [Option.any_map]
    exact congrArg (Option.any · i) (funext fun i ↦ i.contains_relocate h.injective id)
  rw [admits, admits, m.interfaces_relocate h, InterfaceFamily.contains_relocate h.injective]
  simp only [InterfaceFamily.get?_relocate, hany]
  rfl

theorem AllowList.admits_relocate (l : AllowList) (id : Symbol.Id) :
    l.admits (m.relocate d) (e id) = l.admits m id := by
  rw [admits, admits]
  exact congrArg (l.isUnrestricted || List.any l.permissions ·)
    (funext fun p ↦ p.admits_relocate h id)

end

end Modularity
