import Modularity.Graph.Reach
import Mathlib.Data.List.Chain
import Mathlib.Logic.Relation

namespace Modularity.Reach

open Relation

variable {α : Type} [DecidableEq α] {next : α → List α} {seen level vertices : List α}

def Arc (next : α → List α) (a b : α) : Prop := b ∈ next a

theorem levels_sound {bound : Nat} {b : α} (h : b ∈ levels next bound seen level) :
    ∃ a ∈ level, ReflTransGen (Arc next) a b := by
  induction bound generalizing seen level with
  | zero => nomatch h
  | succ bound ih =>
    simp only [levels, List.mem_append, List.mem_filter, List.mem_eraseDups] at h
    rcases h with ⟨hb, -⟩ | h
    · exact ⟨b, hb, .refl⟩
    · obtain ⟨d, hd, hdb⟩ := ih h
      obtain ⟨a, ha, had⟩ := List.mem_flatMap.1 hd
      have ha' : a ∈ level := by simpa using (List.mem_filter.1 ha).1
      exact ⟨a, ha', hdb.head had⟩

/-- The vertices that were seen lead to nothing but seen vertices and the level under way. -/
def Bounded (next : α → List α) (seen level : List α) : Prop :=
  ∀ a ∈ seen, ∀ b ∈ next a, b ∈ seen ∨ b ∈ level

theorem bounded_step (h : Bounded next seen level) :
    Bounded next (seen ++ level.eraseDups.filter fun a ↦ !seen.contains a)
      ((level.eraseDups.filter fun a ↦ !seen.contains a).flatMap next) := by
  intro a ha b hb
  rcases List.mem_append.1 ha with ha | ha
  · left
    by_cases hseen : b ∈ seen
    · exact List.mem_append_left _ hseen
    · have hlevel := (h a ha b hb).resolve_left hseen
      exact List.mem_append_right _ (List.mem_filter.2 ⟨by simpa using hlevel, by simpa using hseen⟩)
  · exact .inr (List.mem_flatMap.2 ⟨a, ha, hb⟩)

theorem levels_nil (bound : Nat) (seen : List α) : levels next bound seen [] = [] := by
  induction bound generalizing seen with
  | zero => rfl
  | succ bound ih => simp [levels, ih]

/-- With enough levels the search ends with a set of vertices that leads nowhere else. -/
theorem levels_closed {bound : Nat} (hclosed : ∀ a ∈ vertices, next a ⊆ vertices)
    (hlevel : level ⊆ vertices) (hinv : Bounded next seen level)
    (hbound : (vertices.filter fun a ↦ !seen.contains a).length < bound) :
    level ⊆ seen ++ levels next bound seen level ∧
      ∀ a ∈ seen ++ levels next bound seen level, next a ⊆ seen ++ levels next bound seen level := by
  induction bound generalizing seen level with
  | zero => exact absurd hbound (Nat.not_lt_zero _)
  | succ bound ih =>
    generalize hfresh : (level.eraseDups.filter fun a ↦ !seen.contains a) = fresh
    have hmem : ∀ a, a ∈ fresh ↔ a ∈ level ∧ a ∉ seen := fun a ↦ by
      rw [← hfresh, List.mem_filter, List.mem_eraseDups]
      simp
    have hsub : level ⊆ seen ++ fresh := fun a ha ↦ by
      by_cases hseen : a ∈ seen
      · exact List.mem_append_left _ hseen
      · exact List.mem_append_right _ ((hmem a).2 ⟨ha, hseen⟩)
    have hlevels : levels next (bound + 1) seen level =
        fresh ++ levels next bound (seen ++ fresh) (fresh.flatMap next) := by
      rw [levels, hfresh]
    rw [hlevels, ← List.append_assoc]
    by_cases hnil : fresh = []
    · have hseen : level ⊆ seen := by simpa [hnil] using hsub
      rw [hnil, List.flatMap_nil, levels_nil, List.append_nil, List.append_nil]
      refine ⟨hseen, fun a ha b hb ↦ ?_⟩
      exact (hinv a ha b hb).elim id fun hb ↦ hseen hb
    · have hlevel' : fresh.flatMap next ⊆ vertices := fun b hb ↦ by
        obtain ⟨a, ha, hab⟩ := List.mem_flatMap.1 hb
        exact hclosed a (hlevel ((hmem a).1 ha).1) hab
      have hinv' := bounded_step hinv
      rw [hfresh] at hinv'
      -- a fresh vertex leaves the set of those still to be seen
      obtain ⟨first, hfirst⟩ := List.exists_mem_of_ne_nil _ hnil
      have hfewer : (vertices.filter fun a ↦ !(seen ++ fresh).contains a).length < bound := by
        have hsplit : (vertices.filter fun a ↦ !(seen ++ fresh).contains a) =
            (vertices.filter fun a ↦ !seen.contains a).filter fun a ↦ !fresh.contains a := by
          rw [List.filter_filter]
          apply List.filter_congr
          intro a _
          rw [List.contains_append, Bool.not_or, Bool.and_comm]
        have hlt : ((vertices.filter fun a ↦ !seen.contains a).filter
            fun a ↦ !fresh.contains a).length < (vertices.filter fun a ↦ !seen.contains a).length := by
          rw [List.length_filter_lt_length_iff_exists]
          obtain ⟨hin, hout⟩ := (hmem first).1 hfirst
          exact ⟨first, List.mem_filter.2 ⟨hlevel hin, by simpa using hout⟩, by simpa using hfirst⟩
        rw [hsplit]
        omega
      obtain ⟨-, hrest⟩ := ih hlevel' hinv' hfewer
      exact ⟨fun a ha ↦ List.mem_append_left _ (hsub ha), hrest⟩

theorem mem_levels_iff (hclosed : ∀ a ∈ vertices, next a ⊆ vertices) {v w : α} (hv : v ∈ vertices) :
    w ∈ levels next (vertices.length + 1) [] (next v) ↔ TransGen (Arc next) v w := by
  have hinv : Bounded next [] (next v) := fun a ha ↦ nomatch ha
  have hbound : (vertices.filter fun a ↦ !([] : List α).contains a).length < vertices.length + 1 := by
    have hlength := List.length_filter_le (fun a ↦ !([] : List α).contains a) vertices
    omega
  obtain ⟨hstart, hstep⟩ := levels_closed hclosed (hclosed v hv) hinv hbound
  rw [List.nil_append] at hstart hstep
  constructor
  · intro h
    obtain ⟨a, ha, haw⟩ := levels_sound h
    exact .head' ha haw
  · intro h
    obtain ⟨a, ha, haw⟩ := TransGen.head'_iff.1 h
    induction haw with
    | refl => exact hstart ha
    | tail _ hbc ih => exact hstep _ (ih (.head' ha ‹_›)) hbc

/-- Whatever can be reached is reached on a path without repetition. -/
theorem exists_nodup_path {r : α → α → Prop} {a b : α} (h : ReflTransGen r a b) :
    ∃ path, (a :: path).Nodup ∧ (a :: path).IsChain r ∧ (a :: path).getLast? = some b := by
  induction h using ReflTransGen.head_induction_on with
  | refl => exact ⟨[], by simp⟩
  | @head a c hac _ ih =>
    obtain ⟨path, hnodup, hchain, hlast⟩ := ih
    by_cases ha : a ∈ c :: path
    · -- the path comes back to `a`: take what follows from there
      obtain ⟨front, back, hsplit⟩ := List.append_of_mem ha
      have hsuffix : a :: back <:+ c :: path := ⟨front, hsplit.symm⟩
      refine ⟨back, hnodup.sublist hsuffix.sublist, hchain.suffix hsuffix, ?_⟩
      rw [hsplit] at hlast
      simpa using hlast
    · refine ⟨c :: path, List.nodup_cons.2 ⟨ha, hnodup⟩, ?_, ?_⟩
      · exact List.isChain_cons_cons.2 ⟨hac, hchain⟩
      · rwa [List.getLast?_cons_cons]

end Modularity.Reach
