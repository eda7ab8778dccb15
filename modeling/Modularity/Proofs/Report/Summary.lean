import Mathlib.Algebra.Ring.Nat
import Mathlib.Data.List.Induction
import Modularity.Proofs.Ordered.Canonical
import Modularity.Report.Basic

namespace Modularity

theorem Dependency.ofKinds_nil (ds : List Dependency) : ofKinds [] ds = ds := rfl

theorem Edge.Kind.rank_injective : Function.Injective Edge.Kind.rank := by
  intro k l h
  cases k <;> cases l <;> first | rfl | nomatch h

namespace DependencySummary

def subject (s : DependencySummary) : String × Edge.Kind := (s.module, s.kind)

def Precedes (s u : DependencySummary) : Prop :=
  s.module < u.module ∨ s.module = u.module ∧ s.kind.rank < u.kind.rank

variable {s : DependencySummary} {ss us : List DependencySummary} {d : Dependency}
  {ds : List Dependency} {t : String} {k : Edge.Kind}

theorem tally_cons_of_subject (h : s.subject = (t, k)) :
    tally t k (s :: ss) = { s with count := s.count + 1 } :: ss := by
  obtain ⟨rfl, rfl⟩ := Prod.mk.inj h
  simp [tally]

theorem tally_cons_of_ne (h : s.subject ≠ (t, k)) : tally t k (s :: ss) = s :: tally t k ss := by
  have hother : ¬ (s.module = t ∧ s.kind = k) := fun hsame ↦ h (Prod.ext hsame.1 hsame.2)
  rw [tally, if_neg]
  simpa using hother

theorem subjects_tally : (tally t k ss).map subject =
    if (t, k) ∈ ss.map subject then ss.map subject else ss.map subject ++ [(t, k)] := by
  induction ss with
  | nil => rfl
  | cons s ss ih =>
    by_cases hs : s.subject = (t, k)
    · have hfirst : (t, k) ∈ (s :: ss).map subject := hs ▸ List.mem_map_of_mem (List.mem_cons_self ..)
      rw [tally_cons_of_subject hs, if_pos hfirst]
      rfl
    · have hrest : (t, k) ∈ s.subject :: ss.map subject ↔ (t, k) ∈ ss.map subject := by
        rw [List.mem_cons, or_iff_right (Ne.symm hs)]
      simp only [tally_cons_of_ne hs, List.map_cons, ih, hrest]
      split <;> rfl

theorem sum_tally : ((tally t k ss).map (·.count)).sum = (ss.map (·.count)).sum + 1 := by
  induction ss with
  | nil => rfl
  | cons s ss ih =>
    by_cases hs : s.subject = (t, k)
    · rw [tally_cons_of_subject hs]
      simp only [List.map_cons, List.sum_cons]
      omega
    · rw [tally_cons_of_ne hs]
      simp only [List.map_cons, List.sum_cons, ih]
      omega

/-- Only the summary of the subject changes; where there is none yet, it is added with the count one. -/
theorem mem_tally (h : (ss.map subject).Nodup) (hs : s ∈ tally t k ss) :
    (s ∈ ss ∧ s.subject ≠ (t, k)) ∨
    (∃ u ∈ ss, u.subject = (t, k) ∧ s = { u with count := u.count + 1 }) ∨
    ((t, k) ∉ ss.map subject ∧ s = ⟨t, k, 1⟩) := by
  induction ss with
  | nil => exact .inr (.inr ⟨List.not_mem_nil, List.mem_singleton.1 hs⟩)
  | cons u ss ih =>
    rw [List.map_cons, List.nodup_cons] at h
    by_cases hu : u.subject = (t, k)
    · rw [tally_cons_of_subject hu] at hs
      rcases List.mem_cons.1 hs with rfl | hs
      · exact .inr (.inl ⟨u, List.mem_cons_self .., hu, rfl⟩)
      · refine .inl ⟨List.mem_cons_of_mem _ hs, fun hsame ↦ h.1 ?_⟩
        rw [hu, ← hsame]
        exact List.mem_map_of_mem hs
    · rw [tally_cons_of_ne hu] at hs
      rcases List.mem_cons.1 hs with rfl | hs
      · exact .inl ⟨List.mem_cons_self .., hu⟩
      · rcases ih h.2 hs with ⟨hmem, hne⟩ | ⟨v, hv, hsame, rfl⟩ | ⟨hnew, rfl⟩
        · exact .inl ⟨List.mem_cons_of_mem _ hmem, hne⟩
        · exact .inr (.inl ⟨v, List.mem_cons_of_mem _ hv, hsame, rfl⟩)
        · refine .inr (.inr ⟨?_, rfl⟩)
          rw [List.map_cons, List.mem_cons, or_iff_right (Ne.symm hu)]
          exact hnew

def number (ds : List Dependency) (subject : String × Edge.Kind) : Nat :=
  ds.countP fun d ↦ (d.target, d.kind) = subject

variable {q : String × Edge.Kind}

theorem number_concat :
    number (ds ++ [d]) q = number ds q + if (d.target, d.kind) = q then 1 else 0 := by
  simp [number, List.countP_append, List.countP_singleton]

theorem number_pos_iff : 0 < number ds q ↔ ∃ d ∈ ds, (d.target, d.kind) = q := by
  simp [number, List.countP_pos_iff]

/-- Whether summaries account for some dependencies: there is one for each subject that comes up, with the
number of times that it does, and so they count every dependency. -/
structure Accounts (ds : List Dependency) (ss : List DependencySummary) : Prop where
  distinct : (ss.map subject).Nodup
  mem_subjects : ∀ q, q ∈ ss.map subject ↔ 0 < number ds q
  count : ∀ s ∈ ss, s.count = number ds s.subject
  total : (ss.map (·.count)).sum = ds.length

namespace Accounts

theorem nil : Accounts [] [] := by
  constructor <;> simp [number]

theorem concat (h : Accounts ds ss) (d : Dependency) :
    Accounts (ds ++ [d]) (tally d.target d.kind ss) where
  distinct := by
    rw [subjects_tally]
    split
    · exact h.distinct
    · rename_i hnew
      exact List.nodup_append_comm.1 (List.nodup_cons.2 ⟨hnew, h.distinct⟩)
  mem_subjects q := by
    have hadded : q ∈ (tally d.target d.kind ss).map subject ↔
        q ∈ ss.map subject ∨ (d.target, d.kind) = q := by
      rw [subjects_tally]
      split
      · rename_i hmem
        exact ⟨.inl, fun hx ↦ hx.elim id fun heq ↦ heq ▸ hmem⟩
      · rw [List.mem_append, List.mem_singleton, eq_comm (a := q)]
    rw [hadded, h.mem_subjects, number_concat]
    split <;> simp [*]
  count s hs := by
    rw [number_concat]
    rcases mem_tally h.distinct hs with ⟨hmem, hne⟩ | ⟨u, hu, hsame, rfl⟩ | ⟨hnew, rfl⟩
    · rw [if_neg (Ne.symm hne), h.count s hmem, Nat.add_zero]
    · have hsubject : subject { u with count := u.count + 1 } = u.subject := rfl
      rw [hsubject, if_pos hsame.symm, ← h.count u hu]
    · have hnone : number ds (d.target, d.kind) = 0 :=
        Nat.eq_zero_of_not_pos fun hpos ↦ hnew ((h.mem_subjects _).2 hpos)
      have hsubject : subject ⟨d.target, d.kind, 1⟩ = (d.target, d.kind) := rfl
      rw [hsubject, if_pos rfl, hnone]
  total := by rw [sum_tally, h.total, List.length_append, List.length_singleton]

theorem perm (h : Accounts ds ss) (hperm : us.Perm ss) : Accounts ds us where
  distinct := (hperm.map _).nodup_iff.2 h.distinct
  mem_subjects q := (hperm.map _).mem_iff.trans (h.mem_subjects q)
  count s hs := h.count s (hperm.mem_iff.1 hs)
  total := (hperm.map _).sum_nat.trans h.total

end Accounts

theorem accounts_foldl (ds : List Dependency) :
    Accounts ds (ds.foldl (fun counted d ↦ tally d.target d.kind counted) []) := by
  induction ds using List.reverseRecOn with
  | nil => exact .nil
  | append_singleton ds d ih =>
    rw [List.foldl_append]
    exact ih.concat d

theorem accounts_ofDependencies (ds : List Dependency) : Accounts ds (ofDependencies ds) :=
  (accounts_foldl ds).perm ((sortBy_perm _ _).trans (sortBy_perm _ _))

theorem ofDependencies_pairwise (ds : List Dependency) : (ofDependencies ds).Pairwise Precedes := by
  -- the sort by kinds shows among the summaries of one module, since the sort by names is stable
  have hsorted := sortBy_stable (·.module) (sortBy_pairwise (fun s : DependencySummary ↦ s.kind.rank)
    (ds.foldl (fun counted d ↦ tally d.target d.kind counted) []))
  have hdistinct := List.pairwise_map.1 (accounts_ofDependencies ds).distinct
  refine (hsorted.and hdistinct).imp fun {s u} hx ↦ ?_
  obtain ⟨hlt | ⟨hmodule, hkind⟩, hne⟩ := hx
  · exact .inl hlt
  · have hrank : s.kind.rank ≠ u.kind.rank := fun e ↦
      hne (Prod.ext hmodule (Edge.Kind.rank_injective e))
    exact .inr ⟨hmodule, Nat.lt_of_le_of_ne (Nat.not_lt.1 hkind) hrank⟩

end DependencySummary

namespace Report

open DependencySummary

/-- A report has a summary of each module, in their order, that accounts for its dependencies. The summaries
of these strictly ascend by the name of the target and the kind, so none comes twice; there is one for a
target and a kind exactly if the module has a dependency on that target of that kind, and it counts all of
these; so the counts add up to the number of all dependencies. -/
theorem summaries_account (g : ModuleGraph) (vs : Violations) :
    List.Forall₂ (fun (m : Module) (s : ModuleSummary) ↦
      s.name = m.name ∧
      s.dependencies.Pairwise Precedes ∧
      (s.dependencies.map fun x ↦ (x.module, x.kind)).Nodup ∧
      (∀ t k, (∃ x ∈ s.dependencies, x.module = t ∧ x.kind = k) ↔
        ∃ d ∈ Dependency.ofKinds [] (g.dependencies m), d.target = t ∧ d.kind = k) ∧
      (∀ x ∈ s.dependencies, x.count =
        (Dependency.ofKinds [] (g.dependencies m)).countP fun d ↦ d.target = x.module ∧ d.kind = x.kind) ∧
      (s.dependencies.map (·.count)).sum = (Dependency.ofKinds [] (g.dependencies m)).length)
    g.modules (ofGraph g vs).modules := by
  rw [ofGraph, List.forall₂_map_right_iff, List.forall₂_same]
  intro m _
  have h := accounts_ofDependencies (g.dependencies m)
  simp only [Dependency.ofKinds_nil, ModuleSummary.ofModule, true_and]
  refine ⟨ofDependencies_pairwise _, h.distinct, fun t k ↦ ?_, fun x hx ↦ ?_, h.total⟩
  · have hmem := h.mem_subjects (t, k)
    rw [number_pos_iff, List.mem_map] at hmem
    simpa [subject] using hmem
  · exact (h.count x hx).trans (List.countP_congr fun d _ ↦ by simp [subject])

end Report

end Modularity
