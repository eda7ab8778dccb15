import Modularity.Namespace.Basic
import Modularity.Ordered.Sort
import Modularity.Proofs.Namespace.Order
import Modularity.Proofs.Ordered.Image
import Mathlib.Data.List.Basic

namespace Modularity

/-- A change of names that keeps their order, and so leaves different names different. -/
structure Renaming where
  apply : String → String
  ascends : ∀ {a b}, a < b → apply a < apply b

namespace Renaming

instance : CoeFun Renaming fun _ ↦ String → String := ⟨apply⟩

def none : Renaming := ⟨id, id⟩

theorem prefix_lt (front : List Char) {xs ys : List Char} (h : xs < ys) : front ++ xs < front ++ ys := by
  induction front with
  | nil => exact h
  | cons c front ih => exact List.Lex.cons ih

def below (space : String) : Renaming where
  apply name := space ++ "." ++ name
  ascends {a b} h := by
    have happend : ∀ name, (space ++ "." ++ name).toList = (space ++ ".").toList ++ name.toList :=
      fun _ ↦ String.toList_append
    show (space ++ "." ++ a).toList < (space ++ "." ++ b).toList
    rw [happend, happend]
    exact prefix_lt _ h

variable (ρ : Renaming) {a b : String}

theorem injective : Function.Injective ρ := by
  intro a b hab
  apply StrictLinear.eq_of_not_lt
  · exact fun hlt ↦ StrictLinear.ne_of_lt (ρ.ascends hlt) hab
  · exact fun hgt ↦ StrictLinear.ne_of_lt (ρ.ascends hgt) hab.symm

theorem eq_iff : ρ a = ρ b ↔ a = b := ρ.injective.eq_iff

theorem lt_iff : ρ a < ρ b ↔ a < b := by
  refine ⟨fun hlt ↦ Classical.byContradiction fun hnot ↦ ?_, ρ.ascends⟩
  by_cases hgt : b < a
  · exact StrictLinear.asymm hlt (ρ.ascends hgt)
  · rw [StrictLinear.eq_of_not_lt hnot hgt] at hlt
    exact StrictLinear.irrefl _ hlt

theorem map_injective : Function.Injective (List.map ρ) := List.map_injective_iff.2 ρ.injective

theorem map_lt {xs ys : List String} (h : xs < ys) : xs.map ρ < ys.map ρ := by
  induction h with
  | nil => exact List.Lex.nil
  | rel hlt => exact List.Lex.rel (ρ.ascends hlt)
  | cons _ ih => exact List.Lex.cons ih

theorem contains_map (xs : List String) (a : String) : (xs.map ρ).contains (ρ a) = xs.contains a := by
  rw [Bool.eq_iff_iff, List.contains_iff_mem, List.contains_iff_mem, List.mem_map_of_injective ρ.injective]

theorem toList_ofList_map (xss : List (List String)) :
    (OrderedSet.ofList (xss.map (List.map ρ))).toList =
      (OrderedSet.ofList xss).toList.map (List.map ρ) := by
  rw [← OrderedSet.image_ofList, OrderedSet.toList_image fun h ↦ ρ.map_lt h]

variable {α β : Type}

theorem lookup_map (f : α → β) (table : List (String × α)) (name : String) :
    (table.map fun entry ↦ (ρ entry.1, f entry.2)).lookup (ρ name) = (table.lookup name).map f := by
  have hkey : ∀ other, (ρ name == ρ other) = (name == other) := by
    intro other
    rw [Bool.eq_iff_iff, beq_iff_eq, beq_iff_eq, ρ.eq_iff]
  induction table with
  | nil => rfl
  | cons entry table ih =>
    rw [List.map_cons, List.lookup_cons, List.lookup_cons, hkey, ih]
    cases name == entry.1 <;> rfl

theorem sortBy_map {key : α → String} {f : α → α} (hf : ∀ x, key (f x) = ρ (key x)) (xs : List α) :
    sortBy key (xs.map f) = (sortBy key xs).map f := by
  have hplace : ∀ (a : α) (ys : List α),
      insertBy (fun x ↦ ρ (key x)) a ys = insertBy key a ys := by
    intro a ys
    induction ys with
    | nil => rfl
    | cons y ys ih => simp only [insertBy, ρ.lt_iff, ih]
  have hkey : key ∘ f = fun x ↦ ρ (key x) := funext hf
  rw [Modularity.sortBy_map, hkey, sortBy, sortBy, funext₂ hplace]

end Renaming

namespace Namespace

/-- A name properly below a namespace is put together from its part there. -/
theorem below_relativeTo {root name : String} (hroot : root ≠ "") (hwithin : isWithin root name)
    (hne : name ≠ root) : Renaming.below root (relativeTo root name) = name := by
  have hdotted : root.toList ++ ['.'] <+: name.toList := by
    rcases isWithin_iff.1 hwithin with h | h | h
    · exact absurd h hroot
    · exact absurd h hne
    · exact h
  have hlen : (root.toList ++ ['.']).length = root.toList.length + 1 := by
    rw [List.length_append, List.length_singleton]
  have hrelative : relativeTo root name = String.ofList (name.toList.drop (root.toList.length + 1)) := by
    rw [relativeTo, if_neg]
    simp [hroot, hwithin, hne]
  have hdot : ".".toList = ['.'] := rfl
  apply String.toList_inj.1
  show (root ++ "." ++ relativeTo root name).toList = name.toList
  rw [hrelative, String.toList_append, String.toList_append, hdot, String.toList_ofList, ← hlen]
  exact List.prefix_iff_eq_append.1 hdotted

theorem relativeTo_self (root : String) : relativeTo root root = root := by
  simp [relativeTo]

end Namespace

end Modularity
