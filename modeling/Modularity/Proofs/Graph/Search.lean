import Modularity.Proofs.Graph.Reach
import Modularity.Proofs.Ordered.Distinct
import Mathlib.Data.List.Lattice
import Mathlib.Order.Lattice.Nat

namespace Modularity.Reach

open Relation

variable {α : Type} {r : α → α → Prop} {a b c start : α} {k n : Nat}

/-! ### Walks -/

inductive Walk (r : α → α → Prop) : Nat → α → α → Prop
  | nil (a : α) : Walk r 0 a a
  | snoc {n : Nat} {a b c : α} : Walk r n a b → r b c → Walk r (n + 1) a c

theorem walk_zero_iff : Walk r 0 a b ↔ a = b := by
  constructor
  · intro h
    cases h
    rfl
  · intro hx
    subst hx
    exact .nil a

theorem walk_succ_iff : Walk r (n + 1) a c ↔ ∃ b, Walk r n a b ∧ r b c := by
  constructor
  · intro h
    cases h with
    | snoc h hbc => exact ⟨_, h, hbc⟩
  · intro hx
    obtain ⟨b, h, hbc⟩ := hx
    exact h.snoc hbc

theorem transGen_iff_walk : TransGen r a b ↔ ∃ n, Walk r (n + 1) a b := by
  constructor
  · intro h
    induction h with
    | single h => exact ⟨0, (Walk.nil a).snoc h⟩
    | tail _ hbc ih =>
      obtain ⟨n, hn⟩ := ih
      exact ⟨n + 1, hn.snoc hbc⟩
  · intro hx
    obtain ⟨n, h⟩ := hx
    induction n generalizing b with
    | zero =>
      obtain ⟨a', ha', hab⟩ := walk_succ_iff.1 h
      exact walk_zero_iff.1 ha' ▸ .single hab
    | succ n ih =>
      obtain ⟨b', hb', hb⟩ := walk_succ_iff.1 h
      exact (ih hb').tail hb

noncomputable def distance (r : α → α → Prop) (a b : α) : Nat := sInf {n | Walk r n a b}

theorem Walk.isLeast_distance (h : Walk r n a b) : IsLeast {n | Walk r n a b} (distance r a b) :=
  ⟨Nat.sInf_mem ⟨n, h⟩, fun _ hk ↦ Nat.sInf_le hk⟩

theorem distance_eq_of_isLeast (h : IsLeast {n | Walk r n a b} k) : distance r a b = k :=
  (h.1.isLeast_distance).unique h

theorem transGen_iff_walk_of_ne (h : start ≠ a) : TransGen r start a ↔ ∃ n, Walk r n start a := by
  rw [transGen_iff_walk]
  constructor
  · intro hx
    obtain ⟨n, hn⟩ := hx
    exact ⟨n + 1, hn⟩
  · intro hy
    obtain ⟨n, hn⟩ := hy
    cases n with
    | zero => exact absurd (walk_zero_iff.1 hn) h
    | succ n => exact ⟨n, hn⟩

theorem isLeast_one_iff : IsLeast {n | Walk r n a b} 1 ↔ b ≠ a ∧ r a b := by
  have harrow : Walk r 1 a b ↔ r a b := by
    rw [walk_succ_iff]
    simp only [walk_zero_iff, exists_eq_left']
  constructor
  · intro h
    refine ⟨fun e ↦ ?_, harrow.1 h.1⟩
    exact absurd (h.2 (walk_zero_iff.2 e.symm)) (Nat.not_succ_le_zero 0)
  · intro hx
    obtain ⟨hne, hab⟩ := hx
    refine ⟨harrow.2 hab, fun n hn ↦ ?_⟩
    cases n with
    | zero => exact absurd (walk_zero_iff.1 hn).symm hne
    | succ n => exact Nat.succ_le_succ (Nat.zero_le n)

variable [DecidableEq α] {next : α → List α} {unseen level later vertices : List α} {x : α}

/-! ### One level of the queue -/

def visited (unseen level : List α) : List α := (level.filter fun a ↦ a ∈ unseen).eraseDups

theorem mem_visited : a ∈ visited unseen level ↔ a ∈ level ∧ a ∈ unseen := by
  rw [visited, List.mem_eraseDups, List.mem_filter, decide_eq_true_eq]

theorem visited_cons (hnodup : unseen.Nodup) (ha : a ∈ unseen) :
    visited unseen (a :: level) = a :: visited (unseen.erase a) level := by
  have hrest : ((level.filter fun b ↦ b ∈ unseen).filter fun b ↦ !(b == a)) =
      level.filter fun b ↦ b ∈ unseen.erase a := by
    rw [List.filter_filter]
    refine List.filter_congr fun b _ ↦ ?_
    rw [Bool.eq_iff_iff]
    simp [hnodup.mem_erase_iff]
  rw [visited, List.filter_cons_of_pos (by simpa using ha), List.eraseDups_cons, hrest, visited]

theorem visited_cons_of_notMem (ha : a ∉ unseen) : visited unseen (a :: level) = visited unseen level := by
  rw [visited, List.filter_cons_of_neg (by simpa using ha), visited]

/-- The search visits what is new in a level and queues what follows it behind the rest. -/
theorem search_append (hnodup : unseen.Nodup) :
    search next unseen (level ++ later) = visited unseen level ++
      search next (unseen.diff (visited unseen level))
        (later ++ (visited unseen level).flatMap next) := by
  induction level generalizing unseen later with
  | nil => simp [visited]
  | cons a level ih =>
    rw [List.cons_append, search]
    by_cases ha : a ∈ unseen
    · rw [if_pos ha, List.append_assoc, ih (hnodup.erase a), visited_cons hnodup ha, List.cons_append,
        List.diff_cons, List.flatMap_cons, List.append_assoc]
    · rw [if_neg ha, ih hnodup, visited_cons_of_notMem ha]

theorem search_level (hnodup : unseen.Nodup) : search next unseen level = visited unseen level ++
    search next (unseen.diff (visited unseen level)) ((visited unseen level).flatMap next) := by
  rw [← List.append_nil level, search_append hnodup, List.append_nil, List.nil_append]

/-- A level without repetitions in which all is new is visited first, as it stands. -/
theorem prefix_search (hnodup : unseen.Nodup) (hlevel : level.Nodup) (hnew : level ⊆ unseen) :
    level <+: search next unseen level := by
  have hvisited : visited unseen level = level := by
    rw [visited, List.filter_eq_self.2 fun a ha ↦ by simpa using hnew ha, eraseDups_eq_self hlevel]
  rw [search_level hnodup, hvisited]
  exact List.prefix_append _ _

/-! ### Level after level -/

/-- Where the search stands when a level begins: to be seen are the vertices that no walk of up to `k`
arrows leads to, and of these the level has the ones that a walk with one arrow more leads to. -/
structure Frontier (next : α → List α) (start : α) (vertices : List α) (k : Nat)
    (unseen level : List α) : Prop where
  nodup : unseen.Nodup
  mem_unseen : ∀ x, x ∈ unseen ↔ x ∈ vertices ∧ ∀ j ≤ k, ¬ Walk (Arc next) j start x
  walk : ∀ x ∈ level, Walk (Arc next) (k + 1) start x
  mem_level : ∀ x ∈ unseen, Walk (Arc next) (k + 1) start x → x ∈ level

namespace Frontier

theorem begin (hnodup : vertices.Nodup) :
    Frontier next start vertices 0 (vertices.erase start) (next start) where
  nodup := hnodup.erase start
  mem_unseen x := by
    rw [hnodup.mem_erase_iff, and_comm]
    refine and_congr_right fun _ ↦ ⟨fun hne j hj h ↦ ?_, fun h e ↦ ?_⟩
    · obtain rfl := Nat.le_zero.1 hj
      exact hne (walk_zero_iff.1 h).symm
    · exact h 0 le_rfl (walk_zero_iff.2 e.symm)
  walk _ hx := .snoc (.nil start) hx
  mem_level x _ h := by
    obtain ⟨a, ha, hax⟩ := walk_succ_iff.1 h
    exact walk_zero_iff.1 ha ▸ hax

theorem mem_visited_iff (h : Frontier next start vertices k unseen level) :
    x ∈ visited unseen level ↔
      x ∈ vertices ∧ IsLeast {n | Walk (Arc next) n start x} (k + 1) := by
  rw [mem_visited, h.mem_unseen]
  constructor
  · intro hx
    obtain ⟨hlevel, hvertex, hfar⟩ := hx
    refine ⟨hvertex, h.walk x hlevel, fun j hj ↦ Nat.lt_of_not_le fun hjk ↦ hfar j hjk hj⟩
  · intro hy
    obtain ⟨hvertex, hwalk, hleast⟩ := hy
    have hfar : ∀ j ≤ k, ¬ Walk (Arc next) j start x := fun j hjk hj ↦ by
      have hle := hleast hj
      omega
    exact ⟨h.mem_level x ((h.mem_unseen x).2 ⟨hvertex, hfar⟩) hwalk, hvertex, hfar⟩

theorem mem_diff_iff (h : Frontier next start vertices k unseen level) :
    x ∈ unseen.diff (visited unseen level) ↔
      x ∈ vertices ∧ ∀ j ≤ k + 1, ¬ Walk (Arc next) j start x := by
  rw [h.nodup.mem_sdiff_iff, h.mem_visited_iff, h.mem_unseen]
  constructor
  · intro hx
    obtain ⟨⟨hvertex, hfar⟩, hnot⟩ := hx
    refine ⟨hvertex, fun j hj hwalk ↦ ?_⟩
    rcases Nat.lt_or_eq_of_le hj with hlt | rfl
    · exact hfar j (Nat.le_of_lt_succ hlt) hwalk
    · exact hnot ⟨hvertex, hwalk, fun i hi ↦ Nat.lt_of_not_le fun hik ↦ hfar i hik hi⟩
  · intro hy
    obtain ⟨hvertex, hfar⟩ := hy
    exact ⟨⟨hvertex, fun j hj ↦ hfar j (Nat.le_succ_of_le hj)⟩, fun hat ↦ hfar _ le_rfl hat.2.1⟩

/-- The visits of a level bring the search to the next one. -/
theorem step (hclosed : ∀ n x, Walk (Arc next) n start x → x ∈ vertices)
    (h : Frontier next start vertices k unseen level) :
    Frontier next start vertices (k + 1) (unseen.diff (visited unseen level))
      ((visited unseen level).flatMap next) where
  nodup := h.nodup.diff
  mem_unseen _ := h.mem_diff_iff
  walk x hx := by
    obtain ⟨a, ha, hax⟩ := List.mem_flatMap.1 hx
    exact (h.mem_visited_iff.1 ha).2.1.snoc hax
  mem_level x hx hwalk := by
    obtain ⟨a, ha, hax⟩ := walk_succ_iff.1 hwalk
    refine List.mem_flatMap.2 ⟨a, h.mem_visited_iff.2 ⟨hclosed _ a ha, ha, fun j hj ↦ ?_⟩, hax⟩
    -- a shorter walk to `a` would lead to `x` too early
    exact Nat.lt_of_not_le fun hjk ↦
      (h.mem_diff_iff.1 hx).2 (j + 1) (Nat.succ_le_succ hjk) (hj.snoc hax)

/-- If a level brings no visit, nothing is reached any more. -/
theorem exists_walk_le (hclosed : ∀ n x, Walk (Arc next) n start x → x ∈ vertices)
    (h : Frontier next start vertices k unseen level) (hnil : visited unseen level = [])
    (hwalk : Walk (Arc next) n start x) : ∃ j ≤ k, Walk (Arc next) j start x := by
  induction n generalizing x with
  | zero => exact ⟨0, Nat.zero_le k, hwalk⟩
  | succ n ih =>
    obtain ⟨a, ha, hax⟩ := walk_succ_iff.1 hwalk
    obtain ⟨j, hj, hwalkj⟩ := ih ha
    by_contra hfar
    have hunseen : x ∈ unseen := (h.mem_unseen x).2
      ⟨hclosed _ x hwalk, fun i hi hwalki ↦ hfar ⟨i, hi, hwalki⟩⟩
    have hnext : Walk (Arc next) (k + 1) start x := by
      rcases Nat.lt_or_eq_of_le hj with hlt | rfl
      · exact absurd ⟨j + 1, hlt, hwalkj.snoc hax⟩ hfar
      · exact hwalkj.snoc hax
    have hvisit := mem_visited.2 ⟨h.mem_level x hunseen hnext, hunseen⟩
    rw [hnil] at hvisit
    nomatch hvisit

theorem length_diff_lt (h : Frontier next start vertices k unseen level) (hne : visited unseen level ≠ []) :
    (unseen.diff (visited unseen level)).length < unseen.length := by
  obtain ⟨x, hx⟩ := List.exists_mem_of_ne_nil _ hne
  rw [h.nodup.sdiff_eq_filter, List.length_filter_lt_length_iff_exists]
  exact ⟨x, (mem_visited.1 hx).2, by simpa using hx⟩

end Frontier

/-! ### The whole search -/

/-- A list of vertices that is all that can be reached of some vertices, each once and the nearest first. -/
structure Explores (r : α → α → Prop) (start : α) (unseen found : List α) : Prop where
  nodup : found.Nodup
  mem_iff : ∀ x, x ∈ found ↔ x ∈ unseen ∧ ∃ n, Walk r n start x
  nearest : found.Pairwise fun x y ↦ distance r start x ≤ distance r start y

theorem Frontier.explores_nil (hclosed : ∀ n x, Walk (Arc next) n start x → x ∈ vertices)
    (h : Frontier next start vertices k unseen level) (hnil : visited unseen level = []) :
    Explores (Arc next) start unseen [] := by
  refine ⟨.nil, fun x ↦ ⟨fun hx ↦ absurd hx List.not_mem_nil, fun hx ↦ ?_⟩, .nil⟩
  obtain ⟨hunseen, n, hwalk⟩ := hx
  obtain ⟨j, hj, hwalkj⟩ := h.exists_walk_le hclosed hnil hwalk
  exact absurd hwalkj (((h.mem_unseen x).1 hunseen).2 j hj)

/-- The visits of a level go before whatever explores the rest. -/
theorem Frontier.explores_append {rest : List α} (h : Frontier next start vertices k unseen level)
    (hrest : Explores (Arc next) start (unseen.diff (visited unseen level)) rest) :
    Explores (Arc next) start unseen (visited unseen level ++ rest) where
  nodup := by
    refine List.nodup_append.2 ⟨nodup_eraseDups _, hrest.nodup, fun x hx y hy heq ↦ ?_⟩
    exact (h.nodup.mem_sdiff_iff.1 ((hrest.mem_iff y).1 hy).1).2 (heq ▸ hx)
  mem_iff x := by
    rw [List.mem_append, hrest.mem_iff, h.nodup.mem_sdiff_iff]
    constructor
    · intro hx
      rcases hx with hx | ⟨⟨hunseen, -⟩, hwalk⟩
      · exact ⟨(mem_visited.1 hx).2, k + 1, (h.mem_visited_iff.1 hx).2.1⟩
      · exact ⟨hunseen, hwalk⟩
    · intro hy
      by_cases hx : x ∈ visited unseen level
      · exact .inl hx
      · exact .inr ⟨⟨hy.1, hx⟩, hy.2⟩
  nearest := by
    have hnear : ∀ x ∈ visited unseen level, distance (Arc next) start x = k + 1 :=
      fun x hx ↦ distance_eq_of_isLeast (h.mem_visited_iff.1 hx).2
    refine List.pairwise_append.2 ⟨?_, hrest.nearest, fun x hx y hy ↦ ?_⟩
    · exact List.pairwise_of_forall_mem_list fun x hx y hy ↦ (hnear x hx).trans_le (hnear y hy).ge
    · obtain ⟨hunseen, n, hwalk⟩ := (hrest.mem_iff y).1 hy
      rw [hnear x hx]
      exact Nat.le_of_not_lt fun hlt ↦
        (h.mem_diff_iff.1 hunseen).2 _ hlt.le hwalk.isLeast_distance.1

theorem Frontier.explores (hclosed : ∀ n x, Walk (Arc next) n start x → x ∈ vertices)
    (h : Frontier next start vertices k unseen level) :
    Explores (Arc next) start unseen (search next unseen level) := by
  -- every level with a visit leaves fewer vertices to be seen
  induction hk : unseen.length using Nat.strongRecOn generalizing unseen level k with
  | ind size ih =>
    rw [search_level h.nodup]
    by_cases hnil : visited unseen level = []
    · have hdone : search next (unseen.diff []) ([].flatMap next) = [] := by
        rw [List.flatMap_nil, search]
      rw [hnil, hdone, List.append_nil]
      exact h.explores_nil hclosed hnil
    · exact h.explores_append (ih _ (hk ▸ h.length_diff_lt hnil) (h.step hclosed) rfl)

/-- The search from a vertex finds whatever else can be reached from it. -/
theorem search_explores (hnodup : vertices.Nodup) (hclosed : ∀ a ∈ vertices, next a ⊆ vertices)
    (hstart : start ∈ vertices) :
    Explores (Arc next) start (vertices.erase start)
      (search next (vertices.erase start) (next start)) := by
  refine (Frontier.begin hnodup).explores fun n x hwalk ↦ ?_
  induction n generalizing x with
  | zero => exact walk_zero_iff.1 hwalk ▸ hstart
  | succ n ih =>
    obtain ⟨a, ha, hax⟩ := walk_succ_iff.1 hwalk
    exact hclosed a (ih a ha) hax

end Modularity.Reach
