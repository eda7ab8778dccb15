import Modularity.Proofs.Codebase.Queries

namespace Modularity.Codebase

open Namespace

theorem members_restrict {c : Codebase} (h : c.Coherent) (roots : List String) (ignore : IgnoreList) :
    (c.restrict roots ignore).members =
      c.members.filter fun p ↦ isUnder roots p.1.space && !ignore.ignores p.1.name := by
  have hrestrict : (c.restrict roots ignore).members =
      c.arena.toList.zipIdx.filter fun p ↦ (c.restrict roots ignore).contains p.2 := rfl
  have hmembers : c.members = c.arena.toList.zipIdx.filter fun p ↦ c.contains p.2 := rfl
  rw [hrestrict, hmembers, List.filter_filter]
  apply List.filter_congr
  intro p hp
  rw [List.mem_zipIdx_iff_getElem?, Array.getElem?_toList] at hp
  rw [contains_restrict h, symbol_of_getElem? hp, Bool.and_assoc, Bool.and_comm]

structure SameSpaces (c d : Codebase) : Prop where
  known : d.known = c.known
  descriptors : d.descriptors = c.descriptors

namespace SameSpaces

variable {c d : Codebase} (h : c.SameSpaces d)

include h

theorem hasNamespace (space : String) : d.hasNamespace space = c.hasNamespace space := by
  rw [Codebase.hasNamespace, Codebase.hasNamespace, h.known]

theorem subspaces (space : String) : d.subspaces space = c.subspaces space := by
  rw [Codebase.subspaces, Codebase.subspaces, h.known]

theorem directSubspaces (space : String) : d.directSubspaces space = c.directSubspaces space := by
  rw [Codebase.directSubspaces, Codebase.directSubspaces, h.known]

theorem descriptor? (space : String) : d.descriptor? space = c.descriptor? space := by
  rw [Codebase.descriptor?, Codebase.descriptor?, h.descriptors]

end SameSpaces

/-- One codebase is another one with its symbols at other positions. -/
structure Relocates (e : Symbol.Id → Symbol.Id) (c d : Codebase) : Prop where
  source : c.Coherent
  target : d.Coherent
  ascending : ∀ {i j : Symbol.Id}, i < j → e i < e j
  symbol : ∀ i, d.symbol (e i) = c.symbol i
  members : d.members = c.members.map fun p ↦ (p.1, e p.2)
  descriptors : d.descriptors = c.descriptors

namespace Relocates

variable {c d : Codebase} {e : Symbol.Id → Symbol.Id} (h : Relocates e c d)

include h

theorem injective : Function.Injective e := by
  intro i j hij
  rcases Nat.lt_trichotomy i j with hlt | heq | hlt
  · exact absurd hij (Nat.ne_of_lt (h.ascending hlt))
  · exact heq
  · exact absurd hij.symm (Nat.ne_of_lt (h.ascending hlt))

theorem restrict (roots : List String) (ignore : IgnoreList) :
    Relocates e (c.restrict roots ignore) (d.restrict roots ignore) where
  source := h.source.restrict _ _
  target := h.target.restrict _ _
  ascending := h.ascending
  symbol := h.symbol
  members := by
    rw [members_restrict h.source, members_restrict h.target, h.members, List.filter_map]
    rfl
  descriptors := by
    rw [Codebase.restrict, Codebase.restrict, h.descriptors]
    rfl

theorem contains (id : Symbol.Id) : d.contains (e id) = c.contains id := by
  rw [Bool.eq_iff_iff]
  have hsource : c.contains id ↔ (c.symbol id, id) ∈ c.members :=
    ⟨fun hid ↦ h.source.mem_members.2 ⟨hid, rfl⟩, fun hid ↦ (h.source.mem_members.1 hid).1⟩
  have htarget : d.contains (e id) ↔ (c.symbol id, e id) ∈ d.members :=
    ⟨fun hid ↦ h.target.mem_members.2 ⟨hid, h.symbol id⟩, fun hid ↦ (h.target.mem_members.1 hid).1⟩
  rw [hsource, htarget, h.members, List.mem_map]
  constructor
  · intro hx
    obtain ⟨⟨s, i⟩, hmem, heq⟩ := hx
    obtain ⟨rfl, hi⟩ := Prod.mk.inj heq
    exact h.injective hi ▸ hmem
  · exact fun hmem ↦ ⟨_, hmem, rfl⟩

theorem get? (id : Symbol.Id) : d.get? (e id) = c.get? id := by
  rw [Codebase.get?, Codebase.get?, h.contains, h.symbol]

theorem find? (name : String) : d.find? name = (c.find? name).map e := by
  rw [h.target.find?_eq, h.source.find?_eq, h.members, List.find?_map, Option.map_map, Option.map_map]
  rfl

theorem directlyIn (space : String) : d.directlyIn space = (c.directlyIn space).map e := by
  rw [h.target.directlyIn_eq, h.source.directlyIn_eq, h.members, List.filter_map, List.map_map,
    List.map_map]
  rfl

theorem inNamespace (space : String) : d.inNamespace space = (c.inNamespace space).map e := by
  rw [h.target.inNamespace_eq, h.source.inNamespace_eq, h.members, List.filter_map, List.map_map,
    List.map_map]
  rfl

theorem known : d.known = c.known := by
  apply OrderedSet.ext
  intro space
  rw [h.target.mem_known, h.source.mem_known, h.descriptors]
  refine or_congr_left ⟨?_, ?_⟩
  · intro hx
    obtain ⟨id, hid, hwithin⟩ := hx
    have hmem : (d.symbol id, id) ∈ d.members := h.target.mem_members.2 ⟨hid, rfl⟩
    rw [h.members, List.mem_map] at hmem
    obtain ⟨p, hp, heq⟩ := hmem
    obtain ⟨-, rfl⟩ := Prod.mk.inj heq
    rw [h.symbol] at hwithin
    exact ⟨p.2, (h.source.mem_members.1 hp).1, hwithin⟩
  · intro hy
    obtain ⟨i, hi, hwithin⟩ := hy
    exact ⟨e i, (h.contains i).symm ▸ hi, (h.symbol i).symm ▸ hwithin⟩

theorem sameSpaces : c.SameSpaces d := ⟨h.known, h.descriptors⟩

theorem hasNamespace (space : String) : d.hasNamespace space = c.hasNamespace space :=
  h.sameSpaces.hasNamespace space

theorem subspaces (space : String) : d.subspaces space = c.subspaces space :=
  h.sameSpaces.subspaces space

theorem directSubspaces (space : String) : d.directSubspaces space = c.directSubspaces space :=
  h.sameSpaces.directSubspaces space

theorem descriptor? (space : String) : d.descriptor? space = c.descriptor? space :=
  h.sameSpaces.descriptor? space

end Relocates

def compacted (c : Codebase) : Codebase :=
  let symbols := c.members.map (·.1)
  index symbols.toArray (.replicate symbols.length true) c.descriptors

/-- The position of each symbol of the compact form; beyond them come positions without symbols. -/
def origin (c : Codebase) (i : Symbol.Id) : Symbol.Id :=
  ((c.members[i]?).map (·.2)).getD (c.arena.size + i)

variable {c : Codebase}

theorem members_index (ss : List Symbol) (ds : OrderedMap String Descriptor) :
    (index ss.toArray (.replicate ss.length true) ds).members = ss.zipIdx := by
  have hmembers : (index ss.toArray (.replicate ss.length true) ds).members = ss.zipIdx.filter fun p ↦
      (Array.replicate ss.length true).getD p.2 false := rfl
  rw [hmembers, List.filter_eq_self]
  intro p hp
  have hlt := List.snd_lt_of_mem_zipIdx hp
  rw [Nat.add_zero] at hlt
  rw [Array.getD_eq_getD_getElem?, Array.getElem?_replicate, if_pos hlt]
  rfl

theorem members_compacted (c : Codebase) : c.compacted.members = (c.members.map (·.1)).zipIdx :=
  members_index _ _

theorem mem_arena {s : Symbol} (hs : s ∈ c.members.map (·.1)) :
    s ∈ c.arena.toList := by
  obtain ⟨p, hp, rfl⟩ := List.mem_map.1 hs
  have hfound := List.mem_of_mem_filter hp
  rw [List.mem_zipIdx_iff_getElem?] at hfound
  exact List.mem_of_getElem? hfound

theorem Coherent.compacted (h : Coherent c) : Coherent c.compacted where
  indexed := rfl
  sized := by simp [Codebase.compacted, index]
  ascending := h.symbols_ascending
  placed := fun s hs ↦ h.placed s (mem_arena hs)
  keyed := h.keyed

theorem Coherent.origin_of_lt (h : Coherent c) {i : Symbol.Id} (hi : i < c.members.length) :
    c.origin i = c.members[i].2 ∧ c.symbol (c.origin i) = c.members[i].1 := by
  have horigin : c.origin i = c.members[i].2 := by
    rw [origin, List.getElem?_eq_getElem hi]
    rfl
  refine ⟨horigin, ?_⟩
  rw [horigin]
  exact (h.mem_members.1 (List.getElem_mem hi)).2

theorem origin_of_ge {i : Symbol.Id} (hi : c.members.length ≤ i) : c.origin i = c.arena.size + i := by
  rw [origin, List.getElem?_eq_none hi]
  rfl

theorem Coherent.origin_ascending (h : Coherent c) {i j : Symbol.Id} (hij : i < j) :
    c.origin i < c.origin j := by
  by_cases hj : j < c.members.length
  · rw [(h.origin_of_lt (Nat.lt_trans hij hj)).1, (h.origin_of_lt hj).1]
    exact List.pairwise_iff_getElem.1 (members_ascending c) i j _ hj hij
  · rw [origin_of_ge (Nat.le_of_not_lt hj)]
    by_cases hi : i < c.members.length
    · have hmem := (h.mem_members.1 (List.getElem_mem hi)).1
      have hlt := h.lt_size_of_contains hmem
      rw [(h.origin_of_lt hi).1]
      exact Nat.lt_of_lt_of_le hlt (Nat.le_add_right _ _)
    · rw [origin_of_ge (Nat.le_of_not_lt hi)]
      exact Nat.add_lt_add_left hij _

theorem Coherent.compacted_relocates (h : Coherent c) : Relocates c.origin c.compacted c where
  source := h.compacted
  target := h
  ascending := h.origin_ascending
  symbol i := by
    have hsymbol : c.compacted.symbol i = (c.members.map (·.1)).toArray.getD i default := rfl
    rw [hsymbol, Array.getD_eq_getD_getElem?, List.getElem?_toArray, List.getElem?_map]
    by_cases hi : i < c.members.length
    · rw [(h.origin_of_lt hi).2, List.getElem?_eq_getElem hi]
      rfl
    · have hge := Nat.le_of_not_lt hi
      have hsize : c.arena.size ≤ c.arena.size + i := Nat.le_add_right _ _
      rw [origin_of_ge hge, List.getElem?_eq_none hge, Codebase.symbol, Array.getD_eq_getD_getElem?,
        Array.getElem?_eq_none hsize]
      rfl
  members := by
    rw [members_compacted]
    apply List.ext_getElem (by simp)
    intro i hi _
    rw [List.getElem_map, List.getElem_zipIdx, List.getElem_map, Nat.zero_add]
    exact Prod.ext rfl (h.origin_of_lt hi).1.symm
  descriptors := rfl

end Modularity.Codebase
