import Mathlib.Data.List.Nodup
import Mathlib.Logic.Function.Basic

namespace Modularity

variable {α β : Type} [BEq α] [LawfulBEq α] [BEq β] [LawfulBEq β]

omit [LawfulBEq α] in
/-- Induction along the first occurrences: after an element come the ones that differ from it. -/
theorem distinct_induction {motive : List α → Prop} (nil : motive [])
    (cons : ∀ x xs, motive (xs.filter fun y ↦ !(y == x)) → motive (x :: xs)) (xs : List α) :
    motive xs := by
  induction hk : xs.length using Nat.strongRecOn generalizing xs with
  | ind k ih =>
    cases xs with
    | nil => exact nil
    | cons x xs =>
      have hlt : (xs.filter fun y ↦ !(y == x)).length < k := by
        rw [← hk]
        exact Nat.lt_succ_of_le (List.length_filter_le ..)
      exact cons x xs (ih _ hlt _ rfl)

theorem eraseDups_map {f : α → β} (hf : Function.Injective f) (xs : List α) :
    (xs.map f).eraseDups = xs.eraseDups.map f := by
  induction xs using distinct_induction with
  | nil => rfl
  | cons x xs ih =>
    have hsame : ((fun y ↦ !(y == f x)) ∘ f) = fun y ↦ !(y == x) := by
      funext y
      rw [Function.comp_apply, Bool.eq_iff_iff]
      simp [hf.eq_iff]
    rw [List.map_cons, List.eraseDups_cons, List.eraseDups_cons, List.map_cons, List.filter_map,
      hsame, ih]

theorem nodup_eraseDups (xs : List α) : xs.eraseDups.Nodup := by
  induction xs using distinct_induction with
  | nil => exact .nil
  | cons x xs ih =>
    rw [List.eraseDups_cons, List.nodup_cons]
    exact ⟨by simp, ih⟩

theorem eraseDups_eq_self {xs : List α} (h : xs.Nodup) : xs.eraseDups = xs := by
  induction xs with
  | nil => rfl
  | cons x xs ih =>
    rw [List.nodup_cons] at h
    have hall : (xs.filter fun y ↦ !(y == x)) = xs := by
      rw [List.filter_eq_self]
      intro y hy
      have hne : y ≠ x := fun e ↦ h.1 (e ▸ hy)
      simpa using hne
    rw [List.eraseDups_cons, hall, ih h.2]

theorem eraseDups_filter (p : α → Bool) (xs : List α) :
    (xs.filter p).eraseDups = xs.eraseDups.filter p := by
  induction xs using distinct_induction with
  | nil => rfl
  | cons x xs ih =>
    have hswap : ((xs.filter p).filter fun y ↦ !(y == x)) = (xs.filter fun y ↦ !(y == x)).filter p := by
      rw [List.filter_filter, List.filter_filter]
      exact List.filter_congr fun y _ ↦ Bool.and_comm ..
    rw [List.eraseDups_cons, List.filter_cons, List.filter_cons]
    split
    · rw [List.eraseDups_cons, hswap, ih]
    · rename_i hx
      -- an element that fails the test takes nothing with it that passes
      have hnone : ((xs.filter p).filter fun y ↦ !(y == x)) = xs.filter p := by
        rw [List.filter_eq_self]
        intro y hy
        have hne : y ≠ x := fun e ↦ hx (e ▸ (List.mem_filter.1 hy).2)
        simpa using hne
      rw [← ih, ← hswap, hnone]

end Modularity
