import Modularity.Ordered.Linear

namespace Modularity

variable {α κ : Type} [LT κ] [DecidableLT κ]

/-- Puts a value before the first one whose key is not smaller. -/
def insertBy (key : α → κ) (a : α) : List α → List α
  | [] => [a]
  | b :: bs => if key b < key a then b :: insertBy key a bs else a :: b :: bs

def sortBy (key : α → κ) (xs : List α) : List α := xs.foldr (insertBy key) []

theorem insertBy_perm (key : α → κ) (a : α) (xs : List α) : (insertBy key a xs).Perm (a :: xs) := by
  induction xs with
  | nil => exact .refl _
  | cons b bs ih =>
    unfold insertBy
    split
    · exact (ih.cons b).trans (.swap a b bs)
    · exact .refl _

theorem sortBy_perm (key : α → κ) (xs : List α) : (sortBy key xs).Perm xs := by
  induction xs with
  | nil => exact .refl _
  | cons a as ih => exact (insertBy_perm key a (sortBy key as)).trans (ih.cons a)

@[simp] theorem mem_sortBy {key : α → κ} {xs : List α} {a : α} : a ∈ sortBy key xs ↔ a ∈ xs :=
  (sortBy_perm key xs).mem_iff

theorem sortBy_map {β : Type} (key : β → κ) (f : α → β) (xs : List α) :
    sortBy key (xs.map f) = (sortBy (key ∘ f) xs).map f := by
  have hplace : ∀ (a : α) (ys : List α),
      insertBy key (f a) (ys.map f) = (insertBy (key ∘ f) a ys).map f := by
    intro a ys
    induction ys with
    | nil => rfl
    | cons y ys ih =>
      simp only [List.map_cons, insertBy, Function.comp_apply]
      split
      · rw [ih, List.map_cons]
      · rfl
  induction xs with
  | nil => rfl
  | cons x xs ih =>
    show insertBy key (f x) (sortBy key (xs.map f)) = _
    rw [ih, hplace]
    rfl

variable [StrictLinear κ]

theorem insertBy_pairwise (key : α → κ) (a : α) {xs : List α}
    (h : xs.Pairwise fun x y ↦ ¬ key y < key x) :
    (insertBy key a xs).Pairwise fun x y ↦ ¬ key y < key x := by
  induction xs with
  | nil => simp [insertBy]
  | cons b bs ih =>
    rw [List.pairwise_cons] at h
    unfold insertBy
    split
    · rename_i hlt
      refine List.pairwise_cons.2 ⟨fun x hx ↦ ?_, ih h.2⟩
      rcases List.mem_cons.1 ((insertBy_perm key a bs).mem_iff.1 hx) with rfl | hx
      · exact StrictLinear.asymm hlt
      · exact h.1 x hx
    · rename_i hnot
      refine List.pairwise_cons.2 ⟨fun x hx hxa ↦ ?_, List.pairwise_cons.2 h⟩
      rcases List.mem_cons.1 hx with rfl | hx
      · exact hnot hxa
      · by_cases hab : key a < key b
        · exact h.1 x hx (StrictLinear.trans hxa hab)
        · exact h.1 x hx (StrictLinear.eq_of_not_lt hab hnot ▸ hxa)

theorem sortBy_pairwise (key : α → κ) (xs : List α) :
    (sortBy key xs).Pairwise fun x y ↦ ¬ key y < key x := by
  induction xs with
  | nil => exact .nil
  | cons a as ih => exact insertBy_pairwise key a ih

theorem sortBy_ascending (key : α → κ) {xs : List α} (h : (xs.map key).Nodup) :
    (sortBy key xs).Pairwise fun x y ↦ key x < key y := by
  have hne : (sortBy key xs).Pairwise fun x y ↦ key x ≠ key y :=
    List.pairwise_map.1 (((sortBy_perm key xs).map key).nodup_iff.2 h)
  refine ((sortBy_pairwise key xs).and hne).imp fun {x y} hxy ↦ ?_
  apply Classical.byContradiction
  intro hlt
  exact hxy.2 (StrictLinear.eq_of_not_lt hlt hxy.1)

theorem insertBy_stable (key : α → κ) {R : α → α → Prop} {a : α} {xs : List α} (ha : ∀ x ∈ xs, R a x)
    (h : xs.Pairwise fun x y ↦ key x < key y ∨ key x = key y ∧ R x y) :
    (insertBy key a xs).Pairwise fun x y ↦ key x < key y ∨ key x = key y ∧ R x y := by
  induction xs with
  | nil => simp [insertBy]
  | cons b bs ih =>
    rw [List.pairwise_cons] at h
    unfold insertBy
    split
    · rename_i hlt
      refine List.pairwise_cons.2 ⟨fun x hx ↦ ?_, ih (fun y hy ↦ ha y (List.mem_cons_of_mem _ hy)) h.2⟩
      rcases List.mem_cons.1 ((insertBy_perm key a bs).mem_iff.1 hx) with rfl | hx
      · exact .inl hlt
      · exact h.1 x hx
    · rename_i hnot
      refine List.pairwise_cons.2 ⟨fun x hx ↦ ?_, List.pairwise_cons.2 h⟩
      -- what stands behind `b` has no smaller key than `b`, and `b` has none than `a`
      have hle : ¬ key x < key a := by
        rcases List.mem_cons.1 hx with rfl | hx
        · exact hnot
        · intro hxa
          rcases h.1 x hx with hbx | ⟨hbx, -⟩
          · exact hnot (StrictLinear.trans hbx hxa)
          · exact hnot (hbx ▸ hxa)
      by_cases hax : key a < key x
      · exact .inl hax
      · exact .inr ⟨StrictLinear.eq_of_not_lt hax hle, ha x hx⟩

/-- Sorting keeps the order of values whose keys are equal, so of two sorts in a row the last one decides
first. -/
theorem sortBy_stable (key : α → κ) {R : α → α → Prop} {xs : List α} (h : xs.Pairwise R) :
    (sortBy key xs).Pairwise fun x y ↦ key x < key y ∨ key x = key y ∧ R x y := by
  induction xs with
  | nil => exact .nil
  | cons a as ih =>
    rw [List.pairwise_cons] at h
    exact insertBy_stable key (fun y hy ↦ h.1 y (mem_sortBy.1 hy)) (ih h.2)

end Modularity
