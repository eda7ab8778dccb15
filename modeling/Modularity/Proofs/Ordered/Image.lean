import Modularity.Ordered.Map
import Modularity.Ordered.Set
import Mathlib.Logic.Function.Basic

namespace Modularity

namespace OrderedSet

variable {α β : Type} [LT α] [LT β] [DecidableLT β] [StrictLinear β] {f : α → β}

def image (f : α → β) (s : OrderedSet α) : OrderedSet β := .ofList (s.toList.map f)

theorem mem_image {s : OrderedSet α} {b : β} : b ∈ s.image f ↔ ∃ a ∈ s, f a = b := by
  rw [image, mem_ofList, List.mem_map]
  rfl

theorem toList_image (hf : ∀ {a b}, a < b → f a < f b) (s : OrderedSet α) :
    (s.image f).toList = s.toList.map f :=
  toList_ofList (List.pairwise_map.2 (s.ascending.imp hf))

theorem size_image (hf : ∀ {a b}, a < b → f a < f b) (s : OrderedSet α) : (s.image f).size = s.size := by
  rw [size, size, toList_image hf, List.length_map]

theorem contains_image [DecidableEq α] [DecidableEq β] (hf : Function.Injective f) (s : OrderedSet α)
    (a : α) : (s.image f).contains (f a) = s.contains a := by
  have hiff : f a ∈ s.image f ↔ a ∈ s := by
    rw [mem_image]
    constructor
    · intro hx
      obtain ⟨b, hb, heq⟩ := hx
      exact hf heq ▸ hb
    · exact fun ha ↦ ⟨a, ha, rfl⟩
  exact decide_eq_decide.2 hiff

variable [DecidableLT α] [StrictLinear α]

theorem image_ofList (xs : List α) : (ofList xs).image f = ofList (xs.map f) := by
  apply ext
  intro b
  rw [mem_image, mem_ofList, List.mem_map]
  simp only [mem_ofList]

theorem image_union (s t : OrderedSet α) : (s.union t).image f = (s.image f).union (t.image f) := by
  apply ext
  intro b
  simp only [mem_image, mem_union, or_and_right, exists_or]

end OrderedSet

namespace OrderedMap

variable {κ ν μ : Type} [LT κ] (f : ν → μ)

def mapValues (m : OrderedMap κ ν) : OrderedMap κ μ :=
  ⟨m.entries.map fun e ↦ (e.1, f e.2), List.pairwise_map.2 m.ascending⟩

theorem values_mapValues (m : OrderedMap κ ν) : (m.mapValues f).values = m.values.map f := by
  rw [values, values, mapValues, List.map_map, List.map_map]
  rfl

theorem keys_mapValues (m : OrderedMap κ ν) : (m.mapValues f).keys = m.keys := by
  rw [keys, keys, mapValues, List.map_map]
  rfl

theorem filter_mapValues (m : OrderedMap κ ν) (p : κ → Bool) :
    (m.mapValues f).filter (fun k _ ↦ p k) = (m.filter fun k _ ↦ p k).mapValues f := by
  simp only [filter, mapValues, List.filter_map]
  rfl

theorem isEmpty_mapValues (m : OrderedMap κ ν) : (m.mapValues f).isEmpty = m.isEmpty :=
  List.isEmpty_map

theorem get?_mapValues [DecidableEq κ] (m : OrderedMap κ ν) (k : κ) :
    (m.mapValues f).get? k = (m.get? k).map f := by
  rw [get?, get?, mapValues, List.find?_map, Option.map_map, Option.map_map]
  rfl

theorem alter_mapValues [DecidableLT κ] [StrictLinear κ] {put : Option ν → ν} {put' : Option μ → μ}
    (hput : ∀ o, f (put o) = put' (o.map f)) (m : OrderedMap κ ν) (k : κ) :
    (m.alter k put).mapValues f = (m.mapValues f).alter k put' := by
  have hrevise : ∀ es : List (κ × ν), (revise k put es).map (fun e ↦ (e.1, f e.2)) =
      revise k put' (es.map fun e ↦ (e.1, f e.2)) := by
    intro es
    induction es with
    | nil => simp [revise, hput]
    | cons e es ih =>
      obtain ⟨j, v⟩ := e
      simp only [revise, List.map_cons]
      split
      · simp [hput]
      · split
        · rw [List.map_cons, ih]
        · simp [hput]
  simp only [alter, mapValues, hrevise]

end OrderedMap

end Modularity
