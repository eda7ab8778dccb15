import Modularity.Proofs.Verification.Circuit

namespace Modularity

theorem lookup_map {α γ : Type} (key : α → String) (f : α → γ) (xs : List α) (k : String) :
    (xs.map fun x ↦ (key x, f x)).lookup k = (xs.find? fun x ↦ key x = k).map f := by
  induction xs with
  | nil => rfl
  | cons x xs ih =>
    rw [List.map_cons, List.lookup_cons]
    by_cases hx : key x = k
    · simp [hx]
    · have hne : (k == key x) = false := by simpa using fun e : k = key x ↦ hx e.symm
      simp [hx, hne, ih]

namespace Circuit

open Relation Reach

variable {next : String → List String} {vertices : List String} {arc : String → String → Prop}
  {v w : String} {budget : Nat} {c : List String}

def Strong (arc : String → String → Prop) (v w : String) : Prop :=
  ReflTransGen arc v w ∧ ReflTransGen arc w v

theorem Strong.symm (h : Strong arc v w) : Strong arc w v := ⟨h.2, h.1⟩

theorem Strong.trans {u : String} (h : Strong arc u v) (h' : Strong arc v w) : Strong arc u w :=
  ⟨h.1.trans h'.1, h'.2.trans h.2⟩

theorem IsElementary.transGen {z : Cycle String} (h : IsElementary arc z) (hv : v ∈ z) (hw : w ∈ z) :
    TransGen arc v w := by
  have hchain : z.Chain (TransGen arc) := h.2.2.imp fun a b hab ↦ .single hab
  exact Cycle.chain_iff_pairwise.1 hchain v hv w hw

theorem IsElementary.strong {z : Cycle String} (h : IsElementary arc z) (hv : v ∈ z) (hw : w ∈ z) :
    Strong arc v w :=
  ⟨(h.transGen hv hw).to_reflTransGen, (h.transGen hw hv).to_reflTransGen⟩

/-- A vertex that leads back to itself lies on a circuit. -/
theorem exists_elementary (h : TransGen arc v v) : ∃ z : Cycle String, IsElementary arc z ∧ v ∈ z := by
  obtain ⟨w, hvw, hwv⟩ := TransGen.tail'_iff.1 h
  obtain ⟨path, hnodup, hchain, hlast⟩ := exists_nodup_path hvw
  refine ⟨(v :: path : List String), isElementary_cons.2 ⟨hnodup, ?_⟩, by simp⟩
  rw [← List.cons_append, List.isChain_append]
  refine ⟨hchain, List.isChain_singleton _, fun a ha b hb ↦ ?_⟩
  rw [hlast] at ha
  obtain rfl := Option.some.inj ha
  obtain rfl := Option.some.inj hb
  exact hwv

section

variable (hclosed : ∀ a ∈ vertices, next a ⊆ vertices)

include hclosed

theorem mem_closure (hv : v ∈ vertices) :
    w ∈ ((closure next vertices).lookup v).getD [] ↔ TransGen (Arc next) v w := by
  have hfind : (vertices.find? fun u ↦ u = v) = some v := by
    have hsome : (vertices.find? fun u ↦ u = v).isSome := List.find?_isSome.2 ⟨v, hv, by simp⟩
    obtain ⟨u, hu⟩ := Option.isSome_iff_exists.1 hsome
    have huv : u = v := by simpa using List.find?_some hu
    rw [hu, huv]
  rw [closure, lookup_map (fun u ↦ u), hfind, Option.map_some, Option.getD_some]
  exact mem_levels_iff hclosed hv

theorem mem_component (hv : v ∈ vertices) :
    w ∈ component (closure next vertices) vertices v ↔ w ∈ vertices ∧ Strong (Arc next) v w := by
  rw [component, List.mem_filter]
  apply and_congr_right
  intro hw
  simp only [Bool.or_eq_true, decide_eq_true_eq, Bool.and_eq_true, List.contains_iff_mem,
    mem_closure hclosed hv, mem_closure hclosed hw]
  rw [Strong, reflTransGen_iff_eq_or_transGen, reflTransGen_iff_eq_or_transGen, eq_comm (a := v)]
  tauto

omit hclosed in
theorem component_ascending (hasc : vertices.Pairwise (· < ·)) :
    (component (closure next vertices) vertices v).Pairwise (· < ·) := hasc.filter _

/-- Components that share a vertex are one component. -/
theorem component_eq (hasc : vertices.Pairwise (· < ·)) (hv : v ∈ vertices) (hw : w ∈ vertices)
    (h : Strong (Arc next) v w) :
    component (closure next vertices) vertices v = component (closure next vertices) vertices w := by
  apply StrictLinear.eq_of_mem_iff (component_ascending hasc) (component_ascending hasc)
  intro u
  rw [mem_component hclosed hv, mem_component hclosed hw]
  exact and_congr_right fun _ ↦ ⟨h.symm.trans, h.trans⟩

theorem mem_circuits_component (hasc : vertices.Pairwise (· < ·)) (hv : v ∈ vertices) :
    c ∈ circuits next (component (closure next vertices) vertices v) ↔
      IsElementary (Arc next) c ∧ IsRooted c ∧ c ⊆ vertices ∧ ∀ w ∈ c, Strong (Arc next) v w := by
  rw [mem_circuits (component_ascending hasc)]
  refine and_congr_right fun _ ↦ and_congr_right fun _ ↦ ?_
  constructor
  · intro hsub
    exact ⟨fun w hw ↦ ((mem_component hclosed hv).1 (hsub hw)).1,
      fun w hw ↦ ((mem_component hclosed hv).1 (hsub hw)).2⟩
  · intro hx w hw
    obtain ⟨hsub, hstrong⟩ := hx
    exact (mem_component hclosed hv).2 ⟨hsub hw, hstrong w hw⟩

variable (hirrefl : ∀ v, v ∉ next v)

include hirrefl

omit hclosed in
theorem two_le_of_mem_circuits {part : List String} (hasc : part.Pairwise (· < ·))
    (h : c ∈ circuits next part) : 2 ≤ part.length := by
  obtain ⟨helem, hrooted, hsub⟩ := (mem_circuits hasc).1 h
  cases c with
  | nil => exact hrooted.elim
  | cons start rest =>
    obtain ⟨hnodup, hchain⟩ := isElementary_cons.1 helem
    cases rest with
    | nil => exact absurd (List.isChain_cons_cons.1 hchain).1 (hirrefl start)
    | cons w rest =>
      have hlen := (List.subperm_of_subset hnodup hsub).length_le
      rw [List.length_cons, List.length_cons] at hlen
      omega

omit hclosed in
theorem mem_all_iff (hasc : vertices.Pairwise (· < ·)) :
    c ∈ all next vertices budget ↔ ∃ v ∈ vertices,
      c ∈ (circuits next (component (closure next vertices) vertices v)).take budget := by
  simp only [all, components, List.mem_flatMap, List.mem_filter, List.mem_eraseDups, List.mem_map,
    decide_eq_true_eq, among_eq]
  constructor
  · intro hx
    obtain ⟨part, ⟨⟨v, hv, rfl⟩, -⟩, hc⟩ := hx
    exact ⟨v, hv, hc⟩
  · intro hy
    obtain ⟨v, hv, hc⟩ := hy
    exact ⟨_, ⟨⟨v, hv, rfl⟩, two_le_of_mem_circuits hirrefl (component_ascending hasc)
      (List.mem_of_mem_take hc)⟩, hc⟩

/-- What the circuits of a component contribute to all circuits: its first ones, within the bound. -/
theorem mem_all (hasc : vertices.Pairwise (· < ·)) (hv : v ∈ vertices) :
    c ∈ all next vertices budget ∧ (∀ w ∈ c, Strong (Arc next) v w) ↔
      c ∈ (circuits next (component (closure next vertices) vertices v)).take budget := by
  rw [mem_all_iff hirrefl hasc]
  constructor
  · intro hx
    obtain ⟨⟨u, hu, hc⟩, hstrong⟩ := hx
    obtain ⟨-, hrooted, -, hstrong'⟩ :=
      (mem_circuits_component hclosed hasc hu).1 (List.mem_of_mem_take hc)
    cases c with
    | nil => exact hrooted.elim
    | cons start rest =>
      have huv : Strong (Arc next) u v :=
        (hstrong' start (List.mem_cons_self ..)).trans (hstrong start (List.mem_cons_self ..)).symm
      rwa [component_eq hclosed hasc hu hv huv] at hc
  · intro hc
    have hstrong := ((mem_circuits_component hclosed hasc hv).1 (List.mem_of_mem_take hc)).2.2.2
    exact ⟨⟨v, hv, hc⟩, hstrong⟩

end

end Circuit

end Modularity
