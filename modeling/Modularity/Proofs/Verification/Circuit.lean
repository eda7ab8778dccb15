import Modularity.Ordered.Linear
import Modularity.Proofs.Graph.Reach
import Modularity.Verification.Circuit
import Mathlib.Data.List.Cycle

namespace Modularity.Circuit

open Relation Reach

variable {next : String → List String} {start node : String} {before : List String}

/-! ### The search without a bound -/

/-- The circuits that continue a path from `start` and close there. -/
def continuations (next : String → List String) (start : String) :
    Nat → List String → String → List (List String)
  | 0, _, _ => []
  | fuel + 1, before, node =>
    (next node).flatMap fun v ↦
      if v = start then [(node :: before).reverse]
      else if v = node || before.contains v then []
      else continuations next start fuel (node :: before) v

def within (next : String → List String) (vertices : List String) (v : String) : List String :=
  vertices.filter (next v).contains

def circuits (next : String → List String) : List String → List (List String)
  | [] => []
  | start :: rest =>
    continuations (within next (start :: rest)) start (rest.length + 1) [] start ++
      circuits next rest

theorem take_append_take {α : Type} (xs ys : List α) (n : Nat) :
    (xs.take n ++ ys).take n = (xs ++ ys).take n := by
  rw [List.take_append, List.take_append, List.take_take, List.length_take, Nat.min_self]
  congr 2
  omega

/-- A fold that adds to what it has found, and never more than the budget, cuts the list of all there
is. -/
theorem foldl_eq_take {α β : Type} {budget : Nat} {f : List β → α → List β} {g : α → List β}
    (hf : ∀ found a, found.length ≤ budget → f found a = (found ++ g a).take budget)
    (xs : List α) {found : List β} (hfound : found.length ≤ budget) :
    xs.foldl f found = (found ++ xs.flatMap g).take budget := by
  induction xs generalizing found with
  | nil => simp [List.take_of_length_le hfound]
  | cons x xs ih =>
    have hlen : ((found ++ g x).take budget).length ≤ budget := List.length_take_le ..
    rw [List.foldl_cons, hf found x hfound, ih hlen, take_append_take, List.flatMap_cons,
      List.append_assoc]

theorem through_eq (fuel budget : Nat) (before : List String) (node : String) :
    through next start fuel before node budget =
      (continuations next start fuel before node).take budget := by
  induction fuel generalizing before node budget with
  | zero => simp [through, continuations]
  | succ fuel ih =>
    rw [through, continuations, ← List.nil_append ((next node).flatMap _)]
    refine foldl_eq_take (fun found v hfound ↦ ?_) (next node) (Nat.zero_le budget)
    split
    · rename_i hfull
      have hlen : found.length = budget := Nat.le_antisymm hfound hfull
      rw [← hlen, List.take_left']
      rfl
    · rename_i hroom
      split
      · rw [List.take_of_length_le]
        simp only [List.length_append, List.length_singleton]
        omega
      · split
        · rw [List.append_nil, List.take_of_length_le hfound]
        · rw [ih, List.take_append, List.take_of_length_le hfound]

theorem among_eq (vertices : List String) (budget : Nat) :
    among next vertices budget = (circuits next vertices).take budget := by
  induction vertices generalizing budget with
  | nil => simp [among, circuits]
  | cons start rest ih =>
    have hwithin : (fun v ↦ (start :: rest).filter (next v).contains) =
        within next (start :: rest) := rfl
    simp only [among, circuits, hwithin]
    rw [ih, through_eq, List.take_append, List.length_take]
    congr 2
    omega

/-! ### The order of circuits -/

/-- Of two lists the one that goes on with the smaller vertex where they part is the smaller one. -/
theorem lt_of_diverge {path x y : List String} {v w : String} (hx : path ++ [v] <+: x)
    (hy : path ++ [w] <+: y) (hvw : v < w) : x < y := by
  obtain ⟨xs, rfl⟩ := hx
  obtain ⟨ys, rfl⟩ := hy
  induction path with
  | nil => exact List.Lex.rel hvw
  | cons u path ih => exact List.Lex.cons ih

theorem lt_of_longer {path y : List String} {w : String} (hy : path ++ [w] <+: y) : path < y := by
  obtain ⟨ys, rfl⟩ := hy
  induction path with
  | nil => exact List.Lex.nil
  | cons u path ih => exact List.Lex.cons ih

theorem prefix_of_mem_continuations {fuel : Nat} {c : List String}
    (h : c ∈ continuations next start fuel before node) : (node :: before).reverse <+: c := by
  induction fuel generalizing before node with
  | zero => nomatch h
  | succ fuel ih =>
    obtain ⟨v, -, hc⟩ := List.mem_flatMap.1 h
    split at hc
    · rw [List.mem_singleton.1 hc]
    · split at hc
      · nomatch hc
      · have hlong := ih hc
        rw [List.reverse_cons] at hlong
        exact (List.prefix_append _ _).trans hlong

theorem continuations_ascending (hasc : ∀ v, (next v).Pairwise (· < ·))
    (hleast : ∀ v, ∀ w ∈ next v, ¬ w < start) (fuel : Nat) (before : List String) (node : String) :
    (continuations next start fuel before node).Pairwise (· < ·) := by
  induction fuel generalizing before node with
  | zero => exact .nil
  | succ fuel ih =>
    refine List.pairwise_flatMap.2 ⟨fun v _ ↦ ?_, ?_⟩
    · split
      · exact List.pairwise_singleton _ _
      · split
        · exact .nil
        · exact ih _ _
    · apply (hasc node).imp_of_mem
      intro v w hv _ hvw x hx y hy
      have hw : w ≠ start := fun heq ↦ hleast node v hv (heq ▸ hvw)
      rw [if_neg hw] at hy
      split at hy
      · nomatch hy
      · have hy := prefix_of_mem_continuations hy
        rw [List.reverse_cons] at hy
        split at hx
        · rw [List.mem_singleton.1 hx]
          exact lt_of_longer hy
        · split at hx
          · nomatch hx
          · have hx := prefix_of_mem_continuations hx
            rw [List.reverse_cons] at hx
            exact lt_of_diverge hx hy hvw

theorem head_of_mem_circuits {vertices c : List String} (h : c ∈ circuits next vertices) :
    ∃ v ∈ vertices, [v] <+: c := by
  induction vertices with
  | nil => nomatch h
  | cons start rest ih =>
    rcases List.mem_append.1 h with h | h
    · exact ⟨start, List.mem_cons_self .., prefix_of_mem_continuations h⟩
    · obtain ⟨v, hv, hc⟩ := ih h
      exact ⟨v, List.mem_cons_of_mem _ hv, hc⟩

theorem circuits_ascending {vertices : List String} (hasc : vertices.Pairwise (· < ·)) :
    (circuits next vertices).Pairwise (· < ·) := by
  induction vertices with
  | nil => exact .nil
  | cons start rest ih =>
    rw [List.pairwise_cons] at hasc
    refine List.pairwise_append.2 ⟨?_, ih hasc.2, fun x hx y hy ↦ ?_⟩
    · refine continuations_ascending (fun v ↦ ?_) (fun v w hw ↦ ?_) _ _ _
      · exact (List.pairwise_cons.2 hasc).filter _
      · rcases List.mem_cons.1 (List.mem_filter.1 hw).1 with rfl | hw
        · exact StrictLinear.irrefl w
        · exact StrictLinear.asymm (hasc.1 w hw)
    · obtain ⟨v, hv, hy⟩ := head_of_mem_circuits hy
      have hx : [] ++ [start] <+: x := prefix_of_mem_continuations hx
      have hy : [] ++ [v] <+: y := hy
      exact lt_of_diverge hx hy (hasc.1 v hv)

/-! ### Which circuits are found -/

/-- A closed walk through distinct vertices, without a start. -/
def IsElementary (arc : String → String → Prop) (z : Cycle String) : Prop :=
  z ≠ .nil ∧ z.Nodup ∧ z.Chain arc

def IsRooted : List String → Prop
  | [] => False
  | start :: rest => ∀ v ∈ rest, start < v

theorem isElementary_cons {arc : String → String → Prop} {rest : List String} :
    IsElementary arc (start :: rest : List String) ↔
      (start :: rest).Nodup ∧ (start :: (rest ++ [start])).IsChain arc := by
  rw [IsElementary, Cycle.nodup_coe_iff, Cycle.chain_coe_cons]
  simp

/-- The search continues a path in every way that closes it without repetition, given as many steps as
there are vertices left. -/
theorem mem_continuations {vertices : List String} (hclosed : ∀ v, next v ⊆ vertices) {fuel : Nat}
    {c : List String} (hpath : (node :: before).Nodup) (hsub : node :: before ⊆ vertices)
    (hstart : start ∈ node :: before) (hfuel : vertices.length ≤ fuel + before.length) :
    c ∈ continuations next start fuel before node ↔
      ∃ rest, c = (node :: before).reverse ++ rest ∧ c.Nodup ∧
        (node :: (rest ++ [start])).IsChain (Arc next) := by
  induction fuel generalizing before node with
  | zero =>
    have hlen := (List.subperm_of_subset hpath hsub).length_le
    rw [List.length_cons] at hlen
    omega
  | succ fuel ih =>
    rw [continuations, List.mem_flatMap]
    constructor
    · intro hx
      obtain ⟨v, hv, hc⟩ := hx
      split at hc
      · rename_i hclose
        subst hclose
        refine ⟨[], by simpa using hc, ?_, ?_⟩
        · rw [List.mem_singleton.1 hc]
          exact List.nodup_reverse.2 hpath
        · simpa [Arc] using hv
      · split at hc
        · nomatch hc
        · rename_i hopen hnew
          simp only [Bool.or_eq_true, decide_eq_true_eq, List.contains_iff_mem, not_or] at hnew
          have hmem : v ∉ node :: before := by simpa using hnew
          rw [ih (List.nodup_cons.2 ⟨hmem, hpath⟩) (List.cons_subset.2 ⟨hclosed node hv, hsub⟩)
            (List.mem_cons_of_mem _ hstart) (by rw [List.length_cons]; omega)] at hc
          obtain ⟨rest, rfl, hnodup, hchain⟩ := hc
          refine ⟨v :: rest, by simp, hnodup, ?_⟩
          exact List.isChain_cons_cons.2 ⟨hv, hchain⟩
    · intro hy
      obtain ⟨rest, rfl, hnodup, hchain⟩ := hy
      cases rest with
      | nil =>
        refine ⟨start, ?_, by simp⟩
        simpa [Arc] using hchain
      | cons v rest =>
        rw [List.cons_append, List.isChain_cons_cons] at hchain
        have hmem : v ∉ node :: before := fun hv ↦
          (List.nodup_append.1 hnodup).2.2 v (List.mem_reverse.2 hv) v (List.mem_cons_self ..) rfl
        have hopen : v ≠ start := fun heq ↦ hmem (heq ▸ hstart)
        have hnew : ¬ (v = node || before.contains v) := by simpa using hmem
        refine ⟨v, hchain.1, ?_⟩
        rw [if_neg hopen, if_neg hnew,
          ih (List.nodup_cons.2 ⟨hmem, hpath⟩) (List.cons_subset.2 ⟨hclosed node hchain.1, hsub⟩)
            (List.mem_cons_of_mem _ hstart) (by rw [List.length_cons]; omega)]
        exact ⟨rest, by simp, hnodup, hchain.2⟩

theorem isChain_within {vertices path : List String} {v : String} :
    (v :: path).IsChain (Arc (within next vertices)) ↔
      path ⊆ vertices ∧ (v :: path).IsChain (Arc next) := by
  induction path generalizing v with
  | nil => simp
  | cons w path ih =>
    rw [List.isChain_cons_cons, List.isChain_cons_cons, ih, List.cons_subset]
    simp only [Arc, within, List.mem_filter, List.contains_iff_mem]
    tauto

theorem mem_circuits {vertices c : List String} (hasc : vertices.Pairwise (· < ·)) :
    c ∈ circuits next vertices ↔ IsElementary (Arc next) c ∧ IsRooted c ∧ c ⊆ vertices := by
  induction vertices with
  | nil =>
    simp only [circuits, List.not_mem_nil, false_iff, not_and, List.subset_nil]
    intro _ hrooted hx
    subst hx
    exact hrooted
  | cons start rest ih =>
    have hasc' := List.pairwise_cons.1 hasc
    have hwithin : ∀ v, within next (start :: rest) v ⊆ start :: rest := fun v w hw ↦
      (List.mem_filter.1 hw).1
    rw [circuits, List.mem_append, ih hasc'.2, mem_continuations hwithin (List.nodup_singleton _)
      (by simp) (by simp) (by simp)]
    simp only [isChain_within, List.reverse_singleton, List.singleton_append]
    constructor
    · intro hy
      rcases hy with ⟨path, rfl, hnodup, hsub, hchain⟩ | ⟨helem, hrooted, hsub⟩
      · refine ⟨isElementary_cons.2 ⟨hnodup, hchain⟩, ?_, ?_⟩
        · intro v hv
          have hv' : v ∈ start :: rest := hsub (List.mem_append_left _ hv)
          rcases List.mem_cons.1 hv' with rfl | hv'
          · exact absurd hv (List.nodup_cons.1 hnodup).1
          · exact hasc'.1 v hv'
        · exact List.cons_subset.2 ⟨List.mem_cons_self .., (List.append_subset.1 hsub).1⟩
      · exact ⟨helem, hrooted, fun v hv ↦ List.mem_cons_of_mem _ (hsub hv)⟩
    · intro hz
      obtain ⟨helem, hrooted, hsub⟩ := hz
      cases c with
      | nil => exact hrooted.elim
      | cons first path =>
        obtain ⟨hnodup, hchain⟩ := isElementary_cons.1 helem
        obtain ⟨hfirst, hpath⟩ := List.cons_subset.1 hsub
        rcases List.mem_cons.1 hfirst with rfl | hfirst'
        · left
          refine ⟨path, rfl, hnodup, ?_, hchain⟩
          exact List.append_subset.2 ⟨hpath, by simp⟩
        · right
          refine ⟨helem, hrooted, List.cons_subset.2 ⟨hfirst', fun v hv ↦ ?_⟩⟩
          rcases List.mem_cons.1 (hpath hv) with rfl | hv'
          · exact absurd (hrooted v hv) (StrictLinear.asymm (hasc'.1 first hfirst'))
          · exact hv'

/-! ### Circuits without a start -/

theorem exists_least {l : List String} (h : l ≠ []) : ∃ s ∈ l, ∀ v ∈ l, ¬ v < s := by
  induction l with
  | nil => exact absurd rfl h
  | cons a l ih =>
    by_cases hl : l = []
    · subst hl
      exact ⟨a, by simp, fun v hv ↦ List.mem_singleton.1 hv ▸ StrictLinear.irrefl v⟩
    · obtain ⟨s, hs, hleast⟩ := ih hl
      by_cases hlt : a < s
      · refine ⟨a, List.mem_cons_self .., fun v hv hva ↦ ?_⟩
        rcases List.mem_cons.1 hv with rfl | hv
        · exact StrictLinear.irrefl v hva
        · exact hleast v hv (StrictLinear.trans hva hlt)
      · refine ⟨s, List.mem_cons_of_mem _ hs, fun v hv ↦ ?_⟩
        rcases List.mem_cons.1 hv with rfl | hv
        · exact hlt
        · exact hleast v hv

theorem exists_rooted {z : Cycle String} (hne : z ≠ .nil) (hnodup : z.Nodup) :
    ∃ c : List String, (c : Cycle String) = z ∧ IsRooted c := by
  induction z using Cycle.induction_on with
  | nil => exact absurd rfl hne
  | cons a l _ =>
    rw [Cycle.nodup_coe_iff] at hnodup
    obtain ⟨s, hs, hleast⟩ := exists_least (List.cons_ne_nil a l)
    obtain ⟨front, back, hsplit⟩ := List.append_of_mem hs
    rw [hsplit] at hnodup hleast ⊢
    refine ⟨s :: (back ++ front), ?_, fun v hv ↦ ?_⟩
    · rw [Cycle.coe_eq_coe]
      exact (List.isRotated_append : s :: back ++ front ~r front ++ s :: back)
    · have hv' : v ∈ front ∨ v ∈ back := (List.mem_append.1 hv).symm
      have hvs : v ≠ s := fun heq ↦ by
        subst heq
        have hdisjoint := List.nodup_append.1 hnodup
        rcases hv' with hv' | hv'
        · exact hdisjoint.2.2 v hv' v (List.mem_cons_self ..) rfl
        · exact (List.nodup_cons.1 hdisjoint.2.1).1 hv'
      have hle := hleast v (List.mem_append.2 (hv'.imp_right (List.mem_cons_of_mem s)))
      exact Classical.byContradiction fun hlt ↦ hvs (StrictLinear.eq_of_not_lt hle hlt)

theorem rooted_unique {c d : List String} (hc : IsRooted c) (hd : IsRooted d) (hnodup : c.Nodup)
    (h : (c : Cycle String) = d) : c = d := by
  rw [Cycle.coe_eq_coe] at h
  obtain ⟨n, hn, rfl⟩ := List.isRotated_iff_mod.1 h
  cases c with
  | nil => exact hc.elim
  | cons s path =>
    rw [List.rotate_eq_drop_append_take hn] at hd ⊢
    cases n with
    | zero => simp
    | succ n =>
      rw [List.drop_succ_cons, List.take_succ_cons] at hd ⊢
      cases hdrop : path.drop n with
      | nil =>
        have hlen : path.length ≤ n := List.drop_eq_nil_iff.1 hdrop
        rw [List.nil_append, List.take_of_length_le hlen]
      | cons t rest =>
        -- both first vertices would be smaller than the other one
        rw [hdrop] at hd
        have ht : t ∈ path := List.mem_of_mem_drop (hdrop ▸ List.mem_cons_self ..)
        have hs : t < s := hd s (by simp)
        exact absurd (hc t ht) (StrictLinear.asymm hs)

end Modularity.Circuit
