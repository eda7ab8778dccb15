import Modularity.Proofs.Codebase.Assembly

namespace Modularity

namespace Codebase

/-- The codebases that come from assemblies and restrictions. -/
inductive Reachable : Codebase → Prop
  | empty : Reachable .empty
  | assembled {symbols : List Symbol} {ds : List Descriptor} {c : Codebase} :
      assemble symbols ds = .ok c → Reachable c
  | restricted {c : Codebase} (roots : List String) (ignore : IgnoreList) :
      Reachable c → Reachable (c.restrict roots ignore)

structure Coherent (c : Codebase) : Prop where
  indexed : c = index c.arena c.visible c.descriptors
  sized : c.visible.size = c.arena.size
  ascending : c.arena.toList.Pairwise fun s t ↦ s.name < t.name
  placed : ∀ s ∈ c.arena.toList, ¬ isMisplaced s
  keyed : ∀ {space d}, c.descriptors.get? space = some d → d.name = space

variable {c : Codebase}

theorem coherent_empty : Coherent empty where
  indexed := rfl
  sized := rfl
  ascending := .nil
  placed := by simp [empty, index]
  keyed := by simp [empty, index]

theorem coherent_assemble {symbols : List Symbol} {ds : List Descriptor}
    (h : assemble symbols ds = .ok c) : Coherent c := by
  obtain ⟨hrepeated, hfind, rfl⟩ := assemble_eq_ok.1 h
  refine ⟨rfl, ?_, ?_, ?_, ?_⟩
  · simp [index]
  · exact StrictLinear.ascending_of_isChain (repeatedName?_eq_none.1 hrepeated) (sortBy_pairwise _ _)
  · exact fun s hs ↦ List.find?_eq_none.1 hfind s hs
  · exact mergeDescriptors_keyed ds

theorem Coherent.restrict (h : Coherent c) (roots : List String) (ignore : IgnoreList) :
    Coherent (c.restrict roots ignore) where
  indexed := rfl
  sized := by simp [Codebase.restrict, index, h.sized]
  ascending := h.ascending
  placed := h.placed
  keyed := by
    intro space d hd
    simp only [Codebase.restrict, index, OrderedMap.get?_filter, Option.filter_eq_some_iff] at hd
    exact h.keyed hd.1

theorem Reachable.coherent (h : Reachable c) : Coherent c := by
  induction h with
  | empty => exact coherent_empty
  | assembled h => exact coherent_assemble h
  | restricted roots ignore _ ih => exact ih.restrict roots ignore

theorem mem_visibleSymbols {arena : Array Symbol} {visible : Array Bool} {p : Symbol × Symbol.Id} :
    p ∈ visibleSymbols arena visible ↔
      arena[p.2]? = some p.1 ∧ visible.getD p.2 false := by
  rw [visibleSymbols, List.mem_filter, List.mem_zipIdx_iff_getElem?, Array.getElem?_toList]

theorem symbol_of_getElem? {id : Symbol.Id} {s : Symbol} (h : c.arena[id]? = some s) :
    c.symbol id = s := by
  simp [symbol, Array.getD_eq_getD_getElem?, h]

theorem Coherent.lt_size_of_contains (h : Coherent c) {id : Symbol.Id} (hid : c.contains id) :
    id < c.arena.size := by
  rw [← h.sized]
  apply Classical.byContradiction
  intro hge
  simp [contains, Array.getD_eq_getD_getElem?, Array.getElem?_eq_none (Nat.le_of_not_lt hge)] at hid

theorem Coherent.mem_members (h : Coherent c) {p : Symbol × Symbol.Id} :
    p ∈ c.members ↔ c.contains p.2 ∧ c.symbol p.2 = p.1 := by
  rw [members, mem_visibleSymbols]
  constructor
  · exact fun hp ↦ ⟨hp.2, symbol_of_getElem? hp.1⟩
  · intro hx
    obtain ⟨hc, hs⟩ := hx
    have hlt := h.lt_size_of_contains hc
    refine ⟨?_, hc⟩
    rw [Array.getElem?_eq_getElem hlt, ← hs]
    simp [symbol, Array.getD_eq_getD_getElem?, Array.getElem?_eq_getElem hlt]

theorem members_ascending (c : Codebase) : c.members.Pairwise fun p q ↦ p.2 < q.2 := by
  refine List.Pairwise.filter _ (List.pairwise_map.1 ?_)
  rw [List.zipIdx_map_snd]
  exact List.pairwise_lt_range'

theorem members_names_ascending (h : Coherent c) :
    c.members.Pairwise fun p q ↦ p.1.name < q.1.name := by
  have hmap := h.ascending
  rw [← List.zipIdx_map_fst 0 c.arena.toList, List.pairwise_map] at hmap
  exact hmap.filter _

theorem Coherent.symbols_ascending (h : Coherent c) :
    (c.members.map (·.1)).Pairwise fun s t ↦ s.name < t.name :=
  List.pairwise_map.2 (members_names_ascending h)

def shop : Codebase := index
  #[.ofName "shop.Main",
    ((Symbol.ofName "shop.orders.Order").tagged "service").referring "shop.stock.Item",
    ((Symbol.ofName "shop.stock.Item").tagged "service").referring "shop.orders.Order"]
  (.replicate 3 true) .empty

theorem shop_reachable : shop.Reachable :=
  @Reachable.assembled shop.arena.toList [] _ rfl

end Codebase

end Modularity
