import Modularity.Proofs.Codebase.Rebuild

namespace Modularity.Codebase

open Namespace

theorem Coherent.contains_restrict_iff {c : Codebase} (h : c.Coherent) {roots : List String}
    {ignore : IgnoreList} {id : Symbol.Id} : (c.restrict roots ignore).contains id ↔
      c.contains id ∧ keeps (roots, ignore) (c.symbol id) := by
  rw [contains_restrict h, Bool.and_assoc, Bool.and_eq_true]
  rfl

theorem Coherent.mem_symbols {c : Codebase} (h : c.Coherent) {s : Symbol} :
    s ∈ c.members.map (·.1) ↔ ∃ id, c.contains id ∧ c.symbol id = s := by
  constructor
  · intro hs
    obtain ⟨p, hp, rfl⟩ := List.mem_map.1 hs
    exact ⟨p.2, h.mem_members.1 hp⟩
  · intro hx
    obtain ⟨id, hid, rfl⟩ := hx
    exact List.mem_map.2 ⟨(c.symbol id, id), h.mem_members.2 ⟨hid, rfl⟩, rfl⟩

structure Extends (id : Symbol.Id) (c d : Codebase) : Prop where
  source : c.Coherent
  target : d.Coherent
  arena : d.arena = c.arena
  contains : ∀ i, c.contains i = (d.contains i && i ≠ id)
  descriptors : d.descriptors = c.descriptors

namespace Extends

variable {c d : Codebase} {id : Symbol.Id} (h : Extends id c d)

include h

theorem symbol (i : Symbol.Id) : d.symbol i = c.symbol i := by
  rw [Codebase.symbol, Codebase.symbol, h.arena]

theorem contains_iff {i : Symbol.Id} : c.contains i ↔ d.contains i ∧ i ≠ id := by
  rw [h.contains, Bool.and_eq_true, decide_eq_true_eq]

theorem members : c.members = d.members.filter (·.2 ≠ id) := by
  have hc : c.members = c.arena.toList.zipIdx.filter fun p ↦ c.contains p.2 := rfl
  have hd : d.members = d.arena.toList.zipIdx.filter fun p ↦ d.contains p.2 := rfl
  rw [hc, hd, h.arena, List.filter_filter]
  refine List.filter_congr fun p _ ↦ ?_
  rw [h.contains, Bool.and_comm]

theorem restrict (roots : List String) (ignore : IgnoreList) :
    Extends id (c.restrict roots ignore) (d.restrict roots ignore) where
  source := h.source.restrict _ _
  target := h.target.restrict _ _
  arena := h.arena
  contains i := by
    rw [contains_restrict h.source, contains_restrict h.target, h.contains, h.symbol]
    ac_rfl
  descriptors := by
    rw [Codebase.restrict, Codebase.restrict, h.descriptors]
    rfl

theorem find? {name : String} (hname : name ≠ (c.symbol id).name) : d.find? name = c.find? name := by
  refine Option.ext fun i ↦ ?_
  rw [h.target.find?_eq_some_iff, h.source.find?_eq_some_iff, h.contains_iff, h.symbol, and_assoc]
  refine and_congr_right fun _ ↦ ⟨fun hi ↦ ⟨fun heq ↦ hname ?_, hi⟩, And.right⟩
  rw [← hi, heq]

theorem directlyIn (space : String) : c.directlyIn space = (d.directlyIn space).filter (· ≠ id) := by
  rw [h.source.directlyIn_eq, h.target.directlyIn_eq, h.members, List.filter_map, List.filter_filter,
    List.filter_filter]
  exact congrArg _ (List.filter_congr fun p _ ↦ Bool.and_comm ..)

theorem inNamespace (space : String) :
    c.inNamespace space = (d.inNamespace space).filter (· ≠ id) := by
  rw [h.source.inNamespace_eq, h.target.inNamespace_eq, h.members, List.filter_map,
    List.filter_filter, List.filter_filter]
  exact congrArg _ (List.filter_congr fun p _ ↦ Bool.and_comm ..)

theorem sameSpaces
    (hroom : d.contains id → ∃ i, c.contains i ∧ isWithin (c.symbol id).space (c.symbol i).space) :
    c.SameSpaces d := by
  refine ⟨OrderedSet.ext fun space ↦ ?_, h.descriptors⟩
  rw [h.target.mem_known, h.source.mem_known, h.descriptors]
  refine or_congr_left ⟨?_, ?_⟩
  · intro hx
    obtain ⟨i, hi, hwithin⟩ := hx
    rw [h.symbol] at hwithin
    by_cases hid : i = id
    · subst hid
      obtain ⟨j, hj, hin⟩ := hroom hi
      exact ⟨j, hj, isWithin_trans hwithin hin⟩
    · exact ⟨i, h.contains_iff.2 ⟨hi, hid⟩, hwithin⟩
  · intro hy
    obtain ⟨i, hi, hwithin⟩ := hy
    exact ⟨i, (h.contains_iff.1 hi).1, (h.symbol i).symm ▸ hwithin⟩

end Extends

def without (c : Codebase) (id : Symbol.Id) : Codebase :=
  index c.arena (c.visible.setIfInBounds id false) c.descriptors

theorem Coherent.without_extends {c : Codebase} (h : c.Coherent) (id : Symbol.Id) :
    Extends id (c.without id) c where
  source := {
    indexed := rfl
    sized := by simp [without, index, h.sized]
    ascending := h.ascending
    placed := h.placed
    keyed := h.keyed }
  target := h
  arena := rfl
  contains i := by
    have hvisible : (c.without id).contains i = (c.visible.setIfInBounds id false).getD i false := rfl
    rw [hvisible, Codebase.contains, Array.getD_eq_getD_getElem?, Array.getD_eq_getD_getElem?,
      Array.getElem?_setIfInBounds]
    by_cases hi : id = i
    · subst hi
      by_cases hlt : id < c.visible.size <;> simp [hlt]
    · simp [hi, Ne.symm hi]
  descriptors := rfl

/-- A codebase is another one with one more symbol. -/
structure Adds (u : Codebase) (x : Symbol) (v : Codebase) : Prop where
  members : (v.members.map (·.1)).Perm (x :: u.members.map (·.1))
  descriptors : v.descriptors = u.descriptors

variable {u v : Codebase} {x : Symbol}

theorem Coherent.exists_adds (hu : u.Coherent) (hnew : u.find? x.name = none)
    (hplaced : ¬ isMisplaced x) :
    ∃ v, assemble (x :: u.members.map (·.1)) u.descriptors.values = .ok v ∧ u.Adds x v := by
  have hfresh : ∀ s ∈ u.members.map (·.1), s.name ≠ x.name := by
    rw [hu.find?_eq, Option.map_eq_none_iff, List.find?_eq_none] at hnew
    intro s hs
    obtain ⟨p, hp, rfl⟩ := List.mem_map.1 hs
    simpa using hnew p hp
  have hnames : ((x :: u.members.map (·.1)).map (·.name)).Nodup := by
    rw [List.map_cons, List.nodup_cons]
    refine ⟨fun hx ↦ ?_, ?_⟩
    · obtain ⟨s, hs, hname⟩ := List.mem_map.1 hx
      exact hfresh s hs hname
    · exact hu.names_nodup
  refine ⟨_, assemble_of_nodup hnames fun s hs ↦ ?_, ?_, ?_⟩
  · rcases List.mem_cons.1 hs with rfl | hs
    · exact hplaced
    · exact hu.placed s (mem_arena hs)
  · rw [members_index, List.zipIdx_map_fst]
    exact sortBy_perm ..
  · exact hu.mergeDescriptors_of_perm (.refl _)

/-- What is added to a codebase can be hidden again, and what remains are the members of the codebase. -/
theorem Adds.exists_members_without (h : u.Adds x v) (hu : u.Coherent) (hv : v.Coherent) :
    ∃ id, v.contains id ∧ v.symbol id = x ∧
      (v.without id).members.map (·.1) = u.members.map (·.1) := by
  obtain ⟨⟨s, id⟩, hmem, rfl⟩ := List.mem_map.1 (h.members.mem_iff.2 (List.mem_cons_self ..))
  obtain ⟨hid, hs⟩ := hv.mem_members.1 hmem
  have hw := hv.without_extends id
  have hsame : ∀ p ∈ v.members, p.2 ≠ id ↔ p.1 ≠ s := by
    intro p hp
    obtain ⟨hc, hsymbol⟩ := hv.mem_members.1 hp
    refine not_congr ⟨fun heq ↦ ?_, fun heq ↦ ?_⟩
    · rw [← hsymbol, heq, hs]
    · have hfind := hv.find?_eq_some_iff.2 ⟨hc, congrArg Symbol.name hsymbol⟩
      rw [heq, hv.find?_eq_some_iff.2 ⟨hid, congrArg Symbol.name hs⟩] at hfind
      exact (Option.some.inj hfind).symm
  have hsymbols : (v.without id).members.map (·.1) = (v.members.map (·.1)).filter (· ≠ s) := by
    rw [hw.members, List.filter_map]
    exact congrArg _ (List.filter_congr fun p hp ↦ decide_eq_decide.2 (hsame p hp))
  have hnodup : (s :: u.members.map (·.1)).Nodup := h.members.nodup_iff.1
    (StrictLinear.nodup_of_ascending hv.symbols_ascending)
  have hperm : ((v.without id).members.map (·.1)).Perm (u.members.map (·.1)) := by
    have hrest : (s :: u.members.map (·.1)).filter (· ≠ s) = u.members.map (·.1) := by
      rw [List.filter_cons_of_neg (by simp), List.filter_eq_self]
      exact fun t ht ↦ decide_eq_true fun heq ↦ (List.nodup_cons.1 hnodup).1 (heq ▸ ht)
    rw [hsymbols, ← hrest]
    exact h.members.filter _
  exact ⟨id, hid, hs, StrictLinear.eq_of_perm hw.source.symbols_ascending hu.symbols_ascending hperm⟩

end Modularity.Codebase
