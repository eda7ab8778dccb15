namespace Modularity

/-- A strict order under which any two distinct values compare. -/
class StrictLinear (α : Type) [LT α] : Prop where
  irrefl (a : α) : ¬ a < a
  trans {a b c : α} : a < b → b < c → a < c
  eq_of_not_lt {a b : α} : ¬ a < b → ¬ b < a → a = b

namespace StrictLinear

variable {α : Type} [LT α] [StrictLinear α]

theorem asymm {a b : α} (h : a < b) : ¬ b < a :=
  fun hlt ↦ irrefl a (trans h hlt)

theorem ne_of_lt {a b : α} (h : a < b) : a ≠ b :=
  fun heq ↦ irrefl a (heq ▸ h)

theorem eq_of_mem_iff {xs ys : List α} (hx : xs.Pairwise (· < ·)) (hy : ys.Pairwise (· < ·))
    (h : ∀ a, a ∈ xs ↔ a ∈ ys) : xs = ys := by
  induction xs generalizing ys with
  | nil =>
    cases ys with
    | nil => rfl
    | cons y ys => simpa using h y
  | cons x xs ih =>
    cases ys with
    | nil => simpa using h x
    | cons y ys =>
      rw [List.pairwise_cons] at hx hy
      have hxy : x = y := by
        apply eq_of_not_lt
        · intro hlt
          rcases List.mem_cons.1 ((h x).1 (List.mem_cons_self ..)) with heq | hmem
          · exact ne_of_lt hlt heq
          · exact asymm hlt (hy.1 x hmem)
        · intro hlt
          rcases List.mem_cons.1 ((h y).2 (List.mem_cons_self ..)) with heq | hmem
          · exact ne_of_lt hlt heq
          · exact asymm hlt (hx.1 y hmem)
      subst hxy
      congr 1
      refine ih hx.2 hy.2 fun a ↦ ⟨fun hmem ↦ ?_, fun hmem ↦ ?_⟩
      · rcases List.mem_cons.1 ((h a).1 (List.mem_cons_of_mem _ hmem)) with heq | hrest
        · exact absurd (hx.1 a hmem) (heq ▸ irrefl a)
        · exact hrest
      · rcases List.mem_cons.1 ((h a).2 (List.mem_cons_of_mem _ hmem)) with heq | hrest
        · exact absurd (hy.1 a hmem) (heq ▸ irrefl a)
        · exact hrest

theorem find?_key [DecidableEq α] {β : Type} {key : β → α} {xs : List β}
    (h : xs.Pairwise fun x y ↦ key x < key y) {x : β} (hx : x ∈ xs) :
    xs.find? (fun y ↦ key y = key x) = some x := by
  induction xs with
  | nil => nomatch hx
  | cons y ys ih =>
    rw [List.pairwise_cons] at h
    rcases List.mem_cons.1 hx with rfl | hx
    · simp
    · have hne : key y ≠ key x := ne_of_lt (h.1 x hx)
      rw [List.find?_cons_of_neg (by simpa using hne)]
      exact ih h.2 hx

end StrictLinear

instance : StrictLinear Nat where
  irrefl := Nat.lt_irrefl
  trans := Nat.lt_trans
  eq_of_not_lt h h' := Nat.le_antisymm (Nat.not_lt.1 h') (Nat.not_lt.1 h)

instance : StrictLinear String where
  irrefl := String.lt_irrefl
  trans := String.lt_trans
  eq_of_not_lt h h' := String.le_antisymm (String.not_lt.1 h') (String.not_lt.1 h)

/-- Lists compare by their first difference, a proper beginning being the smaller list. -/
instance {α : Type} [LT α] [StrictLinear α] : StrictLinear (List α) where
  irrefl xs := by
    induction xs with
    | nil => exact fun h ↦ nomatch h
    | cons x xs ih =>
      intro h
      cases h with
      | rel h => exact StrictLinear.irrefl x h
      | cons h => exact ih h
  trans {xs ys zs} h h' := by
    induction h generalizing zs with
    | nil => cases h' <;> exact List.Lex.nil
    | rel hlt =>
      cases h' with
      | rel hlt' => exact List.Lex.rel (StrictLinear.trans hlt hlt')
      | cons _ => exact List.Lex.rel hlt
    | cons _ ih =>
      cases h' with
      | rel hlt => exact List.Lex.rel hlt
      | cons hrest => exact List.Lex.cons (ih hrest)
  eq_of_not_lt {xs ys} h h' := by
    induction xs generalizing ys with
    | nil =>
      cases ys with
      | nil => rfl
      | cons y ys => exact absurd List.Lex.nil h
    | cons x xs ih =>
      cases ys with
      | nil => exact absurd List.Lex.nil h'
      | cons y ys =>
        have heq : x = y := StrictLinear.eq_of_not_lt
          (fun hlt ↦ h (List.Lex.rel hlt)) (fun hlt ↦ h' (List.Lex.rel hlt))
        subst heq
        rw [ih (fun hlt ↦ h (List.Lex.cons hlt)) (fun hlt ↦ h' (List.Lex.cons hlt))]

end Modularity
