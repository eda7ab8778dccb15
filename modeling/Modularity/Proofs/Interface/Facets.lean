import Modularity.Interface.Family
import Modularity.Proofs.Codebase.Reachable
import Modularity.Proofs.Ordered.Canonical

namespace Modularity

inductive Interface.Facet where
  | presence
  | scopes
  | scope (space : String)
  | symbol (id : Symbol.Id)

namespace Interface

def Shows (i : Interface) : Facet → Prop
  | .presence => True
  | .scopes => i.isScoped
  | .scope space => ∃ scopes, i.scopes = some scopes ∧ space ∈ scopes
  | .symbol id => id ∈ i.symbols

variable {i j : Interface} {x : Facet}

theorem ext_shows (hname : i.name = j.name) (h : ∀ x, i.Shows x ↔ j.Shows x) : i = j := by
  have hscoped : i.scopes.isSome ↔ j.scopes.isSome := h .scopes
  have hscope : ∀ space, (∃ a, i.scopes = some a ∧ space ∈ a) ↔ ∃ b, j.scopes = some b ∧ space ∈ b :=
    fun space ↦ h (.scope space)
  have hsymbols : i.symbols = j.symbols := OrderedSet.ext fun id ↦ h (.symbol id)
  obtain ⟨name, a, ids⟩ := i
  obtain ⟨name', b, ids'⟩ := j
  obtain rfl : name = name' := hname
  obtain rfl : ids = ids' := hsymbols
  cases a with
  | none =>
    cases b with
    | none => rfl
    | some b => simp at hscoped
  | some a =>
    cases b with
    | none => simp at hscoped
    | some b =>
      have hsame : a = b := OrderedSet.ext fun space ↦ by simpa using hscope space
      rw [hsame]

def merged (i j : Interface) : Interface :=
  ⟨i.name, mergeScopes i.scopes j.scopes, i.symbols.union j.symbols⟩

theorem merge?_eq (h : i.name = j.name) : i.merge? j = some (i.merged j) := if_pos h

theorem shows_merged : (i.merged j).Shows x ↔ i.Shows x ∨ j.Shows x := by
  obtain ⟨name, a, ids⟩ := i
  obtain ⟨name', b, ids'⟩ := j
  cases x with
  | presence => simp [Shows]
  | scopes => cases a <;> cases b <;> simp [Shows, isScoped, merged, mergeScopes]
  | scope space => cases a <;> cases b <;> simp [Shows, merged, mergeScopes]
  | symbol id => simp [Shows, merged]

end Interface

namespace InterfaceFamily

open Interface

def Keyed (f : InterfaceFamily) : Prop := ∀ k i, f.get? k = some i → i.name = k

def Shows (f : InterfaceFamily) (k : String) (x : Facet) : Prop :=
  ∃ i, f.get? k = some i ∧ i.Shows x

variable {f g : InterfaceFamily} {i : Interface} {is : List Interface} {k : String} {x : Facet}

theorem Keyed.ext_shows (hf : f.Keyed) (hg : g.Keyed) (h : ∀ k x, f.Shows k x ↔ g.Shows k x) :
    f = g := by
  have hget : ∀ k, f.get? k = g.get? k := by
    intro k
    cases hi : f.get? k with
    | none =>
      cases hj : g.get? k with
      | none => rfl
      | some j =>
        obtain ⟨i, hi', -⟩ := (h k .presence).2 ⟨j, hj, trivial⟩
        rw [hi] at hi'
        nomatch hi'
    | some i =>
      obtain ⟨j, hj, -⟩ := (h k .presence).1 ⟨i, hi, trivial⟩
      rw [hj, Interface.ext_shows ((hf k i hi).trans (hg k j hj).symm) fun x ↦ ?_]
      simpa [Shows, hi, hj] using h k x
  obtain ⟨m⟩ := f
  obtain ⟨n⟩ := g
  exact congrArg _ (OrderedMap.ext_get? hget)

theorem not_shows_empty : ¬ empty.Shows k x := by
  intro h
  obtain ⟨i, hi, -⟩ := h
  nomatch hi

theorem isEmpty_iff : f.isEmpty ↔ ∀ k x, ¬ f.Shows k x := by
  have hempty : f.isEmpty ↔ f.byName.entries = [] := List.isEmpty_iff
  rw [hempty]
  constructor
  · intro hnil k x h
    obtain ⟨i, hi, -⟩ := h
    have hmem := OrderedMap.get?_eq_some_iff.1 hi
    rw [hnil] at hmem
    nomatch hmem
  · intro h
    by_contra hne
    obtain ⟨e, he⟩ := List.exists_mem_of_ne_nil _ hne
    exact h e.1 .presence ⟨e.2, OrderedMap.get?_eq_some_iff.2 he, trivial⟩

/-- The interface of another name, which `add` would put in place of the one that is there, never
arises. -/
theorem Keyed.get?_add (hf : f.Keyed) (i : Interface) (k : String) :
    (f.add i).get? k =
      if i.name = k then some ((f.get? i.name).elim i (·.merged i)) else f.get? k := by
  rw [get?, add, OrderedMap.get?_alter]
  cases hget : f.get? i.name with
  | none =>
    rw [get?] at hget
    rw [hget]
    rfl
  | some j =>
    have hmerge : j.merge? i = some (j.merged i) := merge?_eq (hf _ _ hget)
    rw [get?] at hget
    rw [hget]
    dsimp only
    rw [hmerge]
    rfl

theorem Keyed.add (hf : f.Keyed) (i : Interface) : (f.add i).Keyed := by
  intro k j hj
  rw [hf.get?_add] at hj
  split at hj
  · rename_i hk
    rw [← hk, ← Option.some.inj hj]
    cases hget : f.get? i.name with
    | none => rfl
    | some u => exact hf _ u hget
  · exact hf k j hj

theorem Keyed.shows_add (hf : f.Keyed) :
    (f.add i).Shows k x ↔ f.Shows k x ∨ i.name = k ∧ i.Shows x := by
  rw [Shows, hf.get?_add]
  by_cases hk : i.name = k
  · subst hk
    cases hget : f.get? i.name with
    | none => simp [Shows, hget]
    | some j => simp [Shows, hget, shows_merged]
  · simp [Shows, hk]

theorem Keyed.foldl (hf : f.Keyed) (is : List Interface) : (is.foldl InterfaceFamily.add f).Keyed := by
  induction is generalizing f with
  | nil => exact hf
  | cons i is ih => exact ih (hf.add i)

theorem Keyed.shows_foldl (hf : f.Keyed) :
    (is.foldl InterfaceFamily.add f).Shows k x ↔ f.Shows k x ∨ ∃ i ∈ is, i.name = k ∧ i.Shows x := by
  induction is generalizing f with
  | nil => simp
  | cons i is ih => rw [List.foldl_cons, ih (hf.add i), hf.shows_add, or_assoc, List.exists_mem_cons_iff]

theorem keyed_empty : empty.Keyed := nofun

theorem keyed_ofList (is : List Interface) : (ofList is).Keyed := keyed_empty.foldl is

theorem shows_ofList : (ofList is).Shows k x ↔ ∃ i ∈ is, i.name = k ∧ i.Shows x := by
  rw [ofList, keyed_empty.shows_foldl]
  exact or_iff_right not_shows_empty

theorem mem_toList : i ∈ f.toList ↔ ∃ k, f.get? k = some i := OrderedMap.mem_values

theorem Keyed.shows_iff (hf : f.Keyed) : f.Shows k x ↔ ∃ i ∈ f.toList, i.name = k ∧ i.Shows x := by
  constructor
  · intro h
    obtain ⟨i, hi, hx⟩ := h
    exact ⟨i, mem_toList.2 ⟨k, hi⟩, hf k i hi, hx⟩
  · intro h
    obtain ⟨i, hi, rfl, hx⟩ := h
    obtain ⟨k, hk⟩ := mem_toList.1 hi
    exact ⟨i, (hf k i hk).symm ▸ hk, hx⟩

theorem Keyed.union (hf : f.Keyed) (g : InterfaceFamily) : (f.union g).Keyed := hf.foldl g.toList

theorem Keyed.shows_union (hf : f.Keyed) (hg : g.Keyed) :
    (f.union g).Shows k x ↔ f.Shows k x ∨ g.Shows k x := by
  rw [hg.shows_iff]
  exact hf.shows_foldl

theorem Keyed.orDefault (hf : f.Keyed) (n : Namespace) : (f.orDefault n).Keyed := by
  unfold InterfaceFamily.orDefault
  split
  · exact keyed_empty.add _
  · exact hf

theorem shows_orDefault (n : Namespace) : (f.orDefault n).Shows k x ↔
    f.Shows k x ∨ (∀ k x, ¬ f.Shows k x) ∧ k = defaultName ∧ (ofDefault n).Shows x := by
  unfold InterfaceFamily.orDefault
  by_cases hempty : f.isEmpty
  · have hnone := isEmpty_iff.1 hempty
    rw [if_pos hempty, keyed_empty.shows_add, or_iff_right not_shows_empty, or_iff_right (hnone k x),
      and_iff_right hnone]
    exact and_congr_left fun _ ↦ eq_comm
  · rw [if_neg hempty, or_iff_left]
    exact fun h ↦ hempty (isEmpty_iff.2 h.1)

inductive Composed : InterfaceFamily → Prop
  | empty : Composed .empty
  | ofList (is : List Interface) : Composed (.ofList is)
  | add {f : InterfaceFamily} (i : Interface) : Composed f → Composed (f.add i)
  | union {f g : InterfaceFamily} : Composed f → Composed g → Composed (f.union g)
  | orDefault {f : InterfaceFamily} (n : Namespace) : Composed f → Composed (f.orDefault n)

theorem Composed.keyed (hf : f.Composed) : f.Keyed := by
  induction hf with
  | empty => exact keyed_empty
  | ofList is => exact keyed_ofList is
  | add i _ ih => exact ih.add i
  | union _ _ ih _ => exact ih.union _
  | orDefault n _ ih => exact ih.orDefault n

/-- Families form a commutative monoid in which every family is its own double. A family that is put together
from a list depends on what stands in the list and on nothing else, and two lists may be joined before
or after. Every interface stands under its own name, so that adding one always finds two that can be
merged. -/
theorem union_laws {f g h : InterfaceFamily} (hf : f.Composed) (hg : g.Composed) (hh : h.Composed) :
    f.union g = g.union f ∧
    (f.union g).union h = f.union (g.union h) ∧
    empty.union f = f ∧ f.union empty = f ∧
    f.union f = f ∧
    (∀ is js : List Interface, (∀ i, i ∈ is ↔ i ∈ js) → ofList is = ofList js) ∧
    (∀ is js : List Interface, (ofList is).union (ofList js) = ofList (is ++ js)) ∧
    (∀ k i, f.get? k = some i → i.name = k) ∧
    ∀ i j, f.get? i.name = some j → ∃ u, j.merge? i = some u ∧ (f.add i).get? i.name = some u := by
  have hf := hf.keyed
  have hg := hg.keyed
  have hh := hh.keyed
  refine ⟨?_, ?_, ?_, rfl, ?_, ?_, ?_, hf, ?_⟩
  · refine (hf.union g).ext_shows (hg.union f) fun k x ↦ ?_
    rw [hf.shows_union hg, hg.shows_union hf, or_comm]
  · refine ((hf.union g).union h).ext_shows (hf.union _) fun k x ↦ ?_
    rw [(hf.union g).shows_union hh, hf.shows_union hg, hf.shows_union (hg.union h), hg.shows_union hh,
      or_assoc]
  · refine (keyed_empty.union f).ext_shows hf fun k x ↦ ?_
    rw [keyed_empty.shows_union hf]
    exact or_iff_right not_shows_empty
  · refine (hf.union f).ext_shows hf fun k x ↦ ?_
    rw [hf.shows_union hf, or_self]
  · intro is js hsame
    refine (keyed_ofList is).ext_shows (keyed_ofList js) fun k x ↦ ?_
    simp only [shows_ofList, hsame]
  · intro is js
    refine ((keyed_ofList is).union _).ext_shows (keyed_ofList _) fun k x ↦ ?_
    rw [(keyed_ofList is).shows_union (keyed_ofList js), shows_ofList, shows_ofList, shows_ofList]
    simp only [List.mem_append, or_and_right, exists_or]
  · intro i j hj
    refine ⟨j.merged i, merge?_eq (hf _ j hj), ?_⟩
    rw [hf.get?_add, if_pos rfl, hj]
    rfl

def ordersFamily : InterfaceFamily :=
  ofList [.ofNamespace "api" ⟨.shop, "shop.orders"⟩, .ofSymbols "spi" [0]]

def itemFamily : InterfaceFamily := ofList [.ofSymbols "api" [2]]

/-- An interface over a namespace takes in one of its name that lists symbols. -/
theorem union_laws_shop :
    ordersFamily.Composed ∧ itemFamily.Composed ∧
    ordersFamily.union itemFamily = itemFamily.union ordersFamily ∧
    (ordersFamily.union itemFamily).union ordersFamily =
      ordersFamily.union (itemFamily.union ordersFamily) ∧
    (ordersFamily.union itemFamily).toList.map (fun i ↦ (i.name, i.isScoped, i.symbols.toList)) =
      [("api", true, [1, 2]), ("spi", false, [0])] := by
  have hf : ordersFamily.Composed := .ofList _
  have hg : itemFamily.Composed := .ofList _
  obtain ⟨hcomm, hassoc, -⟩ := union_laws hf hg hf
  exact ⟨hf, hg, hcomm, hassoc, by decide +kernel⟩

end InterfaceFamily

end Modularity
