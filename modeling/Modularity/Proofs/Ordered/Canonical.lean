import Modularity.Ordered.Map
import Modularity.Ordered.Sort
import Mathlib.Data.List.Nodup

namespace Modularity

variable {α β : Type} [LT α] [StrictLinear α]

namespace StrictLinear

variable {key : β → α}

theorem nodup_of_ascending {xs : List β} (h : xs.Pairwise fun x y ↦ key x < key y) : xs.Nodup :=
  h.imp fun hlt heq ↦ ne_of_lt hlt (congrArg key heq)

theorem eq_of_perm {xs ys : List β} (hx : xs.Pairwise fun x y ↦ key x < key y)
    (hy : ys.Pairwise fun x y ↦ key x < key y) (h : xs.Perm ys) : xs = ys :=
  h.eq_of_pairwise (fun _ _ _ _ hlt hgt ↦ absurd hgt (asymm hlt)) hx hy

end StrictLinear

theorem find?_eq_some_of_unique {α : Type} {p : α → Bool} {l : List α}
    (hone : ∀ a ∈ l, ∀ b ∈ l, p a → p b → a = b) {a : α} :
    l.find? p = some a ↔ a ∈ l ∧ p a := by
  constructor
  · exact fun h ↦ ⟨List.mem_of_find?_eq_some h, List.find?_some h⟩
  · intro hx
    obtain ⟨ha, hpa⟩ := hx
    obtain ⟨b, hb⟩ := Option.isSome_iff_exists.1 (List.find?_isSome.2 ⟨a, ha, hpa⟩)
    rw [hb, hone b (List.mem_of_find?_eq_some hb) a ha (List.find?_some hb) hpa]

theorem find?_key_eq_some_iff {α β : Type} [DecidableEq α] {key : β → α} {xs : List β}
    (h : (xs.map key).Nodup) {k : α} {x : β} :
    (xs.find? fun y ↦ key y = k) = some x ↔ x ∈ xs ∧ key x = k := by
  rw [find?_eq_some_of_unique, decide_eq_true_eq]
  intro y hy z hz hyk hzk
  rw [decide_eq_true_eq] at hyk hzk
  exact List.inj_on_of_nodup_map h hy hz (hyk.trans hzk.symm)

/-- Values with distinct keys are sorted in one way only. -/
theorem sortBy_eq_of_perm [DecidableLT α] {key : β → α} {xs ys : List β} (h : xs.Perm ys)
    (hy : ys.Pairwise fun x y ↦ key x < key y) : sortBy key xs = ys := by
  have hkeys : (ys.map key).Nodup := List.pairwise_map.2 (hy.imp StrictLinear.ne_of_lt)
  have hx := sortBy_ascending key ((h.map key).nodup_iff.2 hkeys)
  exact StrictLinear.eq_of_perm hx hy ((sortBy_perm key xs).trans h)

namespace OrderedMap

variable {m n : OrderedMap α β}

theorem keys_nodup (m : OrderedMap α β) : m.keys.Nodup :=
  List.pairwise_map.2 (m.ascending.imp StrictLinear.ne_of_lt)

omit [StrictLinear α] in
theorem ext_entries (h : m.entries = n.entries) : m = n := by
  cases m
  cases n
  congr 1

theorem ext_get? [DecidableEq α] (h : ∀ k, m.get? k = n.get? k) : m = n := by
  have hmem : ∀ e, e ∈ m.entries ↔ e ∈ n.entries := by
    intro e
    rw [← get?_eq_some_iff, ← get?_eq_some_iff, h]
  have hperm : m.entries.Perm n.entries :=
    (List.perm_ext_iff_of_nodup (StrictLinear.nodup_of_ascending m.ascending)
      (StrictLinear.nodup_of_ascending n.ascending)).2 hmem
  exact ext_entries (StrictLinear.eq_of_perm m.ascending n.ascending hperm)

end OrderedMap

end Modularity
