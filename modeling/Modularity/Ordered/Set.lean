import Modularity.Ordered.Linear

namespace Modularity

variable {α : Type} [LT α]

/-- A finite set, kept as the strictly ascending list of its elements. -/
structure OrderedSet (α : Type) [LT α] where
  toList : List α
  ascending : toList.Pairwise (· < ·)
deriving DecidableEq

namespace OrderedSet

/-- Puts a value at its place in an ascending list; a value that is there already is kept. -/
def place [DecidableLT α] (a : α) : List α → List α
  | [] => [a]
  | b :: bs => if a < b then a :: b :: bs else if b < a then b :: place a bs else b :: bs

section

variable [DecidableLT α] [StrictLinear α]

theorem mem_place {a b : α} {xs : List α} : b ∈ place a xs ↔ b = a ∨ b ∈ xs := by
  induction xs with
  | nil => simp [place]
  | cons x xs ih =>
    unfold place
    split
    · simp
    · rename_i hnot
      split
      · simp only [List.mem_cons, ih]
        exact or_left_comm
      · rename_i hnot'
        have heq : a = x := StrictLinear.eq_of_not_lt hnot hnot'
        subst heq
        simp

theorem ascending_place {a : α} {xs : List α} (h : xs.Pairwise (· < ·)) :
    (place a xs).Pairwise (· < ·) := by
  induction xs with
  | nil => simp [place]
  | cons x xs ih =>
    rw [List.pairwise_cons] at h
    unfold place
    split
    · rename_i hlt
      refine List.pairwise_cons.2 ⟨fun b hb ↦ ?_, List.pairwise_cons.2 h⟩
      rcases List.mem_cons.1 hb with heq | hmem
      · exact heq ▸ hlt
      · exact StrictLinear.trans hlt (h.1 b hmem)
    · split
      · rename_i hlt
        refine List.pairwise_cons.2 ⟨fun b hb ↦ ?_, ih h.2⟩
        rcases mem_place.1 hb with heq | hmem
        · exact heq ▸ hlt
        · exact h.1 b hmem
      · exact List.pairwise_cons.2 h

end

def empty : OrderedSet α := ⟨[], .nil⟩

instance : Inhabited (OrderedSet α) := ⟨empty⟩

instance : Membership α (OrderedSet α) := ⟨fun s a ↦ a ∈ s.toList⟩

instance [DecidableEq α] (a : α) (s : OrderedSet α) : Decidable (a ∈ s) :=
  inferInstanceAs (Decidable (a ∈ s.toList))

def contains [DecidableEq α] (s : OrderedSet α) (a : α) : Bool := decide (a ∈ s)

def size (s : OrderedSet α) : Nat := s.toList.length

def isEmpty (s : OrderedSet α) : Bool := s.toList.isEmpty

def filter (s : OrderedSet α) (p : α → Bool) : OrderedSet α :=
  ⟨s.toList.filter p, s.ascending.filter p⟩

variable [DecidableLT α] [StrictLinear α]

def insert (s : OrderedSet α) (a : α) : OrderedSet α :=
  ⟨place a s.toList, ascending_place s.ascending⟩

def insertAll (s : OrderedSet α) (xs : List α) : OrderedSet α := xs.foldr (fun a t ↦ t.insert a) s

def ofList (xs : List α) : OrderedSet α := empty.insertAll xs

def union (s t : OrderedSet α) : OrderedSet α := s.insertAll t.toList

omit [DecidableLT α] [StrictLinear α] in
theorem mem_toList {s : OrderedSet α} {a : α} : a ∈ s.toList ↔ a ∈ s := Iff.rfl

omit [DecidableLT α] in
theorem ext {s t : OrderedSet α} (h : ∀ a, a ∈ s ↔ a ∈ t) : s = t := by
  cases s with
  | mk xs hx =>
    cases t with
    | mk ys hy =>
      have heq : xs = ys := StrictLinear.eq_of_mem_iff hx hy h
      subst heq
      rfl

@[simp] theorem mem_insert {s : OrderedSet α} {a b : α} : b ∈ s.insert a ↔ b = a ∨ b ∈ s :=
  mem_place

@[simp] theorem mem_insertAll {s : OrderedSet α} {xs : List α} {b : α} :
    b ∈ s.insertAll xs ↔ b ∈ xs ∨ b ∈ s := by
  induction xs with
  | nil => simp [insertAll]
  | cons x xs ih =>
    have hcons : s.insertAll (x :: xs) = (s.insertAll xs).insert x := rfl
    rw [hcons, mem_insert, ih, List.mem_cons, or_assoc]

omit [DecidableLT α] [StrictLinear α] in
@[simp] theorem not_mem_empty {a : α} : ¬ a ∈ (empty : OrderedSet α) := List.not_mem_nil

@[simp] theorem mem_ofList {xs : List α} {b : α} : b ∈ ofList xs ↔ b ∈ xs := by
  simp [ofList]

theorem toList_ofList {xs : List α} (h : xs.Pairwise (· < ·)) : (ofList xs).toList = xs :=
  StrictLinear.eq_of_mem_iff (ofList xs).ascending h fun _ ↦ mem_ofList

@[simp] theorem mem_union {s t : OrderedSet α} {b : α} : b ∈ s.union t ↔ b ∈ s ∨ b ∈ t := by
  rw [union, mem_insertAll, mem_toList]
  exact or_comm

end OrderedSet

end Modularity
