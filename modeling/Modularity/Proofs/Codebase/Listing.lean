import Modularity.Proofs.Codebase.Rebuild

namespace Modularity

def Symbol.listing (s : Symbol) (ms : List Member) : Symbol := { s with members := ms }

def Symbol.listingOf (name : String) (ms : List Member) (s : Symbol) : Symbol :=
  if s.name = name then s.listing ms else s

@[simp] theorem Symbol.name_listingOf (name : String) (ms : List Member) (s : Symbol) :
    (s.listingOf name ms).name = s.name := by
  rw [listingOf]
  split <;> rfl

@[simp] theorem Symbol.space_listingOf (name : String) (ms : List Member) (s : Symbol) :
    (s.listingOf name ms).space = s.space := by
  rw [listingOf]
  split <;> rfl

namespace Codebase

/-- The codebase in which the symbol at a position has other members. -/
def listing (c : Codebase) (id : Symbol.Id) (ms : List Member) : Codebase :=
  { c with arena := c.arena.modify id (·.listing ms) }

variable {c : Codebase} {id : Symbol.Id} {ms : List Member}

@[simp] theorem find?_listing (name : String) : (c.listing id ms).find? name = c.find? name := rfl

theorem getElem?_arena (h : id < c.arena.size) : c.arena[id]? = some (c.symbol id) := by
  rw [symbol, Array.getD_eq_getD_getElem?, Array.getElem?_eq_getElem h]
  rfl

theorem symbol_listing (h : id < c.arena.size) :
    (c.listing id ms).symbol id = (c.symbol id).listing ms := by
  simp only [symbol, listing, Array.getD_eq_getD_getElem?, Array.getElem?_modify,
    Array.getElem?_eq_getElem h]
  rfl

theorem symbol_listing_of_ne {i : Symbol.Id} (h : i ≠ id) :
    (c.listing id ms).symbol i = c.symbol i := by
  simp only [symbol, listing, Array.getD_eq_getD_getElem?, Array.getElem?_modify, if_neg h.symm]

theorem listing_of_size_le (h : c.arena.size ≤ id) : c.listing id ms = c := by
  have harena : c.arena.modify id (·.listing ms) = c.arena := by
    apply Array.ext_getElem?
    intro i
    rw [Array.getElem?_modify]
    split
    · rename_i hid
      rw [← hid, Array.getElem?_eq_none h]
      rfl
    · rfl
  rw [listing, harena]

theorem symbol_listing_of_perm (h : ms.Perm (c.symbol id).members) :
    (c.listing id ms).symbol id = (c.symbol id).listing ms := by
  by_cases hid : id < c.arena.size
  · exact symbol_listing hid
  · -- Where there is no symbol there are no members to permute.
    have hdefault : c.symbol id = default := by
      rw [symbol, Array.getD_eq_getD_getElem?, Array.getElem?_eq_none (Nat.le_of_not_lt hid)]
      rfl
    rw [hdefault] at h ⊢
    rw [listing_of_size_le (Nat.le_of_not_lt hid), hdefault, h.eq_nil]
    rfl

@[simp] theorem space_symbol_listing (i : Symbol.Id) :
    ((c.listing id ms).symbol i).space = (c.symbol i).space := by
  by_cases hi : i = id
  · by_cases hid : id < c.arena.size
    · rw [hi, symbol_listing hid]
      rfl
    · rw [listing_of_size_le (Nat.le_of_not_lt hid)]
  · rw [symbol_listing_of_ne hi]

theorem index_modify (arena : Array Symbol) (visible : Array Bool)
    (ds : OrderedMap String Descriptor) (id : Symbol.Id) (ms : List Member) :
    index (arena.modify id (·.listing ms)) visible ds = (index arena visible ds).listing id ms := by
  have hzip : (arena.modify id (·.listing ms)).toList.zipIdx =
      arena.toList.zipIdx.map fun p ↦ (if p.2 = id then p.1.listing ms else p.1, p.2) := by
    apply List.ext_getElem?
    intro i
    simp only [List.getElem?_zipIdx, List.getElem?_map, Array.getElem?_toList, Array.getElem?_modify,
      Nat.zero_add, Option.map_map]
    by_cases hid : id = i
    · subst hid
      simp [Function.comp_def]
    · simp [Function.comp_def, hid, Ne.symm hid]
  have hsymbols : visibleSymbols (arena.modify id (·.listing ms)) visible =
      (visibleSymbols arena visible).map fun p ↦ (if p.2 = id then p.1.listing ms else p.1, p.2) := by
    rw [visibleSymbols, hzip, List.filter_map]
    rfl
  have hname : ∀ p : Symbol × Symbol.Id,
      (if p.2 = id then p.1.listing ms else p.1).name = p.1.name := by
    intro p
    split <;> rfl
  have hspace : ∀ p : Symbol × Symbol.Id,
      (if p.2 = id then p.1.listing ms else p.1).space = p.1.space := by
    intro p
    split <;> rfl
  simp only [index, listing, hsymbols, List.foldr_map, hname, hspace]

theorem restrict_listing (roots : List String) (ignore : IgnoreList) :
    (c.listing id ms).restrict roots ignore = (c.restrict roots ignore).listing id ms := by
  have hkept : ∀ keeps : Symbol → Bool → Bool, (∀ s v, keeps (s.listing ms) v = keeps s v) →
      Array.zipWith keeps (c.arena.modify id (·.listing ms)) c.visible =
        Array.zipWith keeps c.arena c.visible := by
    intro keeps hkeeps
    apply Array.ext_getElem?
    intro i
    rw [Array.getElem?_zipWith, Array.getElem?_zipWith, Array.getElem?_modify]
    by_cases hid : id = i
    · cases c.arena[i]? <;> cases c.visible[i]? <;> simp [hid, hkeeps]
    · rw [if_neg hid]
  rw [restrict, restrict, ← index_modify, listing]
  dsimp only
  rw [hkept _ fun _ _ ↦ rfl]

theorem map_listingOf {ss : List Symbol} {s : Symbol} (h : (ss.map (·.name)).Nodup) (hs : ss[id]? = some s) :
    (ss.map (·.listingOf s.name ms)).toArray = ss.toArray.modify id (·.listing ms) := by
  apply Array.ext_getElem?
  intro i
  rw [List.getElem?_toArray, List.getElem?_map, Array.getElem?_modify, List.getElem?_toArray]
  by_cases hid : id = i
  · rw [← hid, if_pos rfl, hs]
    exact congrArg some (if_pos rfl)
  · rw [if_neg hid]
    cases ht : ss[i]? with
    | none => rfl
    | some t =>
      have hne : t.name ≠ s.name := by
        intro hname
        have hlt : i < (ss.map (·.name)).length := by
          rw [List.length_map]
          exact (List.getElem?_eq_some_iff.1 ht).1
        refine hid ((List.getElem?_inj hlt h).1 ?_).symm
        rw [List.getElem?_map, List.getElem?_map, ht, hs, Option.map_some, Option.map_some, hname]
      exact congrArg some (if_neg hne)

/-- A codebase that is assembled with the one version of a symbol is the other version of the codebase. -/
theorem assemble_listing {symbols : List Symbol} {ds : List Descriptor} (h : assemble symbols ds = .ok c)
    (hid : id < c.arena.size) :
    assemble (symbols.map (·.listingOf (c.symbol id).name ms)) ds = .ok (c.listing id ms) := by
  have hc := coherent_assemble h
  obtain ⟨sorted, hsorted⟩ : ∃ sorted, sorted = sortBy (·.name) symbols := ⟨_, rfl⟩
  have hindex : c = index sorted.toArray (.replicate sorted.length true) (mergeDescriptors ds) := by
    obtain ⟨-, -, rfl⟩ := assemble_eq_ok.1 h
    rw [hsorted]
  have harena : c.arena = sorted.toArray := by
    rw [hindex]
    rfl
  have hat : sorted[id]? = some (c.symbol id) := by
    rw [← List.getElem?_toArray, ← harena, getElem?_arena hid]
  have hkeys : Symbol.name ∘ Symbol.listingOf (c.symbol id).name ms = Symbol.name :=
    funext fun t ↦ t.name_listingOf _ _
  have hnodup : (sorted.map (·.name)).Nodup := by
    have hascending := hc.ascending
    rw [harena] at hascending
    exact List.pairwise_map.2 (hascending.imp StrictLinear.ne_of_lt)
  rw [assemble_of_nodup, sortBy_map, hkeys, ← hsorted, map_listingOf hnodup hat, index_modify,
    List.length_map, ← hindex]
  · rw [List.map_map, hkeys]
    rw [hsorted] at hnodup
    exact ((sortBy_perm _ _).map _).nodup_iff.1 hnodup
  · intro s hs
    obtain ⟨t, ht, rfl⟩ := List.mem_map.1 hs
    rw [isMisplaced, Symbol.name_listingOf, Symbol.space_listingOf]
    apply hc.placed t
    rw [harena, hsorted]
    exact mem_sortBy.2 ht

theorem Reachable.listing (h : c.Reachable) (id : Symbol.Id) (ms : List Member) :
    (c.listing id ms).Reachable := by
  induction h with
  | empty =>
    rw [listing_of_size_le (Nat.zero_le _)]
    exact .empty
  | @assembled symbols ds c h =>
    by_cases hid : id < c.arena.size
    · exact .assembled (assemble_listing h hid)
    · rw [listing_of_size_le (Nat.le_of_not_lt hid)]
      exact .assembled h
  | restricted roots ignore _ ih =>
    rw [← restrict_listing]
    exact ih.restricted roots ignore

end Codebase

end Modularity
