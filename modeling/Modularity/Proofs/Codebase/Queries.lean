import Modularity.Proofs.Codebase.Reachable
import Modularity.Namespace.Basic

namespace Modularity

theorem filter_dropWhile {α : Type} {p q : α → Bool} {l : List α} (h : ∀ a ∈ l, p a → ¬ q a) :
    (l.dropWhile q).filter p = l.filter p := by
  induction l with
  | nil => rfl
  | cons a l ih =>
    have ih := ih fun b hb ↦ h b (List.mem_cons_of_mem _ hb)
    by_cases hq : q a
    · have hp : ¬ p a := fun hp ↦ h a (List.mem_cons_self ..) hp hq
      rw [List.dropWhile_cons_of_pos hq, ih, List.filter_cons_of_neg hp]
    · rw [List.dropWhile_cons_of_neg hq]

theorem takeWhile_eq_filter {α : Type} {q : α → Bool} {l : List α}
    (hrun : l.Pairwise fun a b ↦ q b → q a) : l.takeWhile q = l.filter q := by
  induction l with
  | nil => rfl
  | cons a l ih =>
    rw [List.pairwise_cons] at hrun
    by_cases hq : q a
    · rw [List.takeWhile_cons_of_pos hq, List.filter_cons_of_pos hq, ih hrun.2]
    · rw [List.takeWhile_cons_of_neg hq, List.filter_cons_of_neg hq]
      symm
      rw [List.filter_eq_nil_iff]
      exact fun b hb hqb ↦ hq (hrun.1 b hb hqb)

namespace Codebase

open Namespace

variable {c : Codebase}

theorem Coherent.find?_eq (h : Coherent c) (name : String) :
    c.find? name = (c.members.find? fun p ↦ p.1.name = name).map (·.2) := by
  have hnames : c.names =
      c.members.foldr (fun p (m : OrderedMap String Symbol.Id) ↦ m.insert p.1.name p.2) .empty := by
    rw [h.indexed]
    rfl
  rw [find?, hnames]
  induction c.members with
  | nil => rfl
  | cons p ps ih =>
    rw [List.foldr_cons, OrderedMap.get?_insert, ih]
    by_cases hp : p.1.name = name
    · simp [hp]
    · simp [hp]

theorem Coherent.find?_eq_some_iff (h : Coherent c) {name : String} {id : Symbol.Id} :
    c.find? name = some id ↔ c.contains id ∧ (c.symbol id).name = name := by
  rw [h.find?_eq]
  constructor
  · intro hfind
    obtain ⟨p, hp, rfl⟩ := Option.map_eq_some_iff.1 hfind
    obtain ⟨hc, hs⟩ := h.mem_members.1 (List.mem_of_find?_eq_some hp)
    refine ⟨hc, ?_⟩
    rw [hs]
    simpa using List.find?_some hp
  · intro hx
    obtain ⟨hc, rfl⟩ := hx
    have hmem : (c.symbol id, id) ∈ c.members := h.mem_members.2 ⟨hc, rfl⟩
    rw [StrictLinear.find?_key (members_names_ascending h) hmem]
    rfl

theorem Coherent.spaces_get? (h : Coherent c) (space : String) (ids : List Symbol.Id) :
    c.spaces.get? space = some ids ↔
      ids ≠ [] ∧ ids = (c.members.filter fun p ↦ p.1.space = space).map (·.2) := by
  have hspaces : c.spaces = c.members.foldr
      (fun p (m : OrderedMap String (List Symbol.Id)) ↦
        m.alter p.1.space fun ids ↦ p.2 :: ids.getD []) .empty := by
    rw [h.indexed]
    rfl
  suffices hget : c.spaces.get? space =
      if (c.members.filter fun p ↦ p.1.space = space).map (·.2) = [] then none
      else some ((c.members.filter fun p ↦ p.1.space = space).map (·.2)) by
    rw [hget]
    split
    · rename_i hnil
      rw [hnil]
      simp
    · rename_i hne
      simp only [Option.some.injEq]
      constructor
      · intro hx
        subst hx
        exact ⟨hne, rfl⟩
      · exact fun hids ↦ hids.2.symm
  rw [hspaces]
  induction c.members with
  | nil => rfl
  | cons p ps ih =>
    rw [List.foldr_cons, OrderedMap.get?_alter]
    by_cases hp : p.1.space = space
    · subst hp
      rw [ih, List.filter_cons_of_pos (by simp)]
      by_cases hnil : (ps.filter fun q ↦ q.1.space = p.1.space).map (·.2) = []
      · simp [hnil]
      · simp only [hnil, if_true, if_false, Option.getD_some, List.map_cons, reduceCtorEq]
    · rw [if_neg hp, ih, List.filter_cons_of_neg (by simpa using hp)]

theorem Coherent.directlyIn_eq (h : Coherent c) (space : String) :
    c.directlyIn space = (c.members.filter fun p ↦ p.1.space = space).map (·.2) := by
  unfold directlyIn
  cases hget : c.spaces.get? space with
  | some ids => exact ((h.spaces_get? space ids).1 hget).2
  | none =>
    refine (Classical.byContradiction fun hne ↦ ?_ : _ = []).symm
    have hsome := (h.spaces_get? space _).2 ⟨hne, rfl⟩
    rw [hget] at hsome
    nomatch hsome

/-- The names that start alike follow one another, whatever characters come next. -/
theorem takeWhile_entriesFrom {ν : Type} (m : OrderedMap String ν) (start : String) :
    ((m.entriesFrom start).takeWhile fun e ↦ startsWith e.1 start) =
      m.entries.filter fun e ↦ startsWith e.1 start := by
  have hasc : (m.entriesFrom start).Pairwise fun e f ↦ e.1 < f.1 :=
    m.ascending.sublist (List.dropWhile_sublist _)
  rw [takeWhile_eq_filter]
  · apply filter_dropWhile
    intro e _ he
    simpa using not_lt_of_startsWith he
  · apply hasc.imp_of_mem
    intro a b ha _ hab hb
    exact startsWith_of_between (OrderedMap.not_lt_of_mem_entriesFrom ha) (StrictLinear.asymm hab) hb

/-- Of the run of neighbours in the index, no namespace within the given one is missing. -/
theorem entriesFrom_filter {ν : Type} (m : OrderedMap String ν) (space : String) :
    ((m.entriesFrom space).takeWhile fun e ↦ startsWith e.1 space).filter
        (fun e ↦ isWithin space e.1) =
      m.entries.filter fun e ↦ isWithin space e.1 := by
  rw [takeWhile_entriesFrom, List.filter_filter]
  refine List.filter_congr fun e _ ↦ ?_
  rw [Bool.and_eq_left_iff_imp]
  exact startsWith_of_isWithin

theorem Coherent.mem_entries_ids (h : Coherent c) {e : String × List Symbol.Id}
    (he : e ∈ c.spaces.entries) {id : Symbol.Id} :
    id ∈ e.2 ↔ c.contains id ∧ (c.symbol id).space = e.1 := by
  obtain ⟨space, ids⟩ := e
  rw [((h.spaces_get? space ids).1 (OrderedMap.get?_eq_some_iff.2 he)).2]
  simp only [List.mem_map, List.mem_filter, decide_eq_true_eq]
  constructor
  · intro hx
    obtain ⟨p, ⟨hp, hspace⟩, rfl⟩ := hx
    obtain ⟨hc, hs⟩ := h.mem_members.1 hp
    exact ⟨hc, hs ▸ hspace⟩
  · intro hy
    obtain ⟨hc, hspace⟩ := hy
    exact ⟨(c.symbol id, id), ⟨h.mem_members.2 ⟨hc, rfl⟩, hspace⟩, rfl⟩

theorem Coherent.exists_entry (h : Coherent c) {id : Symbol.Id} (hid : c.contains id) :
    ∃ e ∈ c.spaces.entries, e.1 = (c.symbol id).space := by
  have hmem : (c.symbol id, id) ∈ c.members.filter fun p ↦ p.1.space = (c.symbol id).space :=
    List.mem_filter.2 ⟨h.mem_members.2 ⟨hid, rfl⟩, by simp⟩
  have hget := (h.spaces_get? (c.symbol id).space _).2
    ⟨List.ne_nil_of_mem (List.mem_map_of_mem hmem), rfl⟩
  exact ⟨_, OrderedMap.get?_eq_some_iff.1 hget, rfl⟩

theorem Coherent.ids_nodup (h : Coherent c) (space : String) :
    ((c.spaces.entries.filter fun e ↦ isWithin space e.1).flatMap (·.2)).Nodup := by
  refine List.nodup_flatMap.2 ⟨fun e he ↦ ?_, ?_⟩
  · have hget := OrderedMap.get?_eq_some_iff.2 (List.mem_of_mem_filter he)
    rw [((h.spaces_get? e.1 e.2).1 hget).2]
    exact (List.pairwise_map.2 ((members_ascending c).filter _)).imp Nat.ne_of_lt
  · apply (c.spaces.ascending.filter _).imp_of_mem
    intro a b ha hb hab id hida hidb
    have hsa := (h.mem_entries_ids (List.mem_of_mem_filter ha)).1 hida
    have hsb := (h.mem_entries_ids (List.mem_of_mem_filter hb)).1 hidb
    exact StrictLinear.ne_of_lt hab (hsa.2.symm.trans hsb.2)

theorem Coherent.inNamespace_eq (h : Coherent c) (space : String) :
    c.inNamespace space = (c.members.filter fun p ↦ isWithin space p.1.space).map (·.2) := by
  unfold inNamespace
  dsimp only
  rw [entriesFrom_filter]
  refine StrictLinear.eq_of_mem_iff ?_ ?_ fun id ↦ ?_
  · exact sortBy_ascending id (by simpa using h.ids_nodup space)
  · exact List.pairwise_map.2 ((members_ascending c).filter _)
  · rw [mem_sortBy, List.mem_flatMap, List.mem_map]
    constructor
    · intro hx
      obtain ⟨e, he, hid⟩ := hx
      obtain ⟨he, hwithin⟩ := List.mem_filter.1 he
      obtain ⟨hc, hspace⟩ := (h.mem_entries_ids he).1 hid
      refine ⟨(c.symbol id, id), List.mem_filter.2 ⟨h.mem_members.2 ⟨hc, rfl⟩, ?_⟩, rfl⟩
      rw [hspace]
      exact hwithin
    · intro hy
      obtain ⟨p, hp, rfl⟩ := hy
      obtain ⟨hp, hwithin⟩ := List.mem_filter.1 hp
      obtain ⟨hc, hs⟩ := h.mem_members.1 hp
      obtain ⟨e, he, hspace⟩ := h.exists_entry hc
      rw [hs] at hspace
      refine ⟨e, List.mem_filter.2 ⟨he, hspace ▸ hwithin⟩, (h.mem_entries_ids he).2 ⟨hc, ?_⟩⟩
      rw [hs, hspace]

theorem Coherent.mem_inNamespace (h : Coherent c) {space : String} {id : Symbol.Id} :
    id ∈ c.inNamespace space ↔ c.contains id ∧ isWithin space (c.symbol id).space := by
  rw [h.inNamespace_eq, List.mem_map]
  constructor
  · intro hx
    obtain ⟨p, hp, rfl⟩ := hx
    obtain ⟨hp, hwithin⟩ := List.mem_filter.1 hp
    obtain ⟨hc, hs⟩ := h.mem_members.1 hp
    exact ⟨hc, hs ▸ hwithin⟩
  · intro hy
    obtain ⟨hc, hwithin⟩ := hy
    exact ⟨(c.symbol id, id), List.mem_filter.2 ⟨h.mem_members.2 ⟨hc, rfl⟩, hwithin⟩, rfl⟩

theorem Coherent.inNamespace_ascending (h : Coherent c) (space : String) :
    (c.inNamespace space).Pairwise (· < ·) := by
  rw [h.inNamespace_eq, List.pairwise_map]
  exact (members_ascending c).filter _

/-- Climbing a lineage adds all of it to a set that holds the ancestors of what it has. While the climb goes
on, this is so of what the set has within the rest of the lineage. -/
theorem mem_climbInto {known : OrderedSet String} {n space : String}
    (hclosed : ∀ a ∈ known, isWithin a n → ∀ b, isWithin b a → b ∈ known) :
    space ∈ climbInto known (lineage n) ↔ space ∈ known ∨ isWithin space n := by
  induction hk : n.toList.length using Nat.strongRecOn generalizing n known with
  | ind k ih =>
    have hhead : climbInto known (lineage n) =
        if known.contains n then known else climbInto (known.insert n) (ancestors n) := rfl
    rw [hhead]
    by_cases hn : n ∈ known
    · have hstop : known.contains n := decide_eq_true hn
      rw [if_pos hstop]
      exact (or_iff_left_of_imp fun hspace ↦ hclosed n hn (isWithin_refl n) space hspace).symm
    · rw [if_neg (by simpa [OrderedSet.contains] using hn)]
      cases hp : parent? n with
      | none =>
        obtain rfl := parent?_eq_none.1 hp
        have hnone : ancestors "" = [] := rfl
        rw [hnone, climbInto, OrderedSet.mem_insert, isWithin_empty_iff, or_comm]
      | some p =>
        have hrest : ancestors n = lineage p := List.tail_eq_of_cons_eq (lineage_of_parent hp)
        have hstill : ∀ a ∈ known.insert n, isWithin a p → ∀ b, isWithin b a → b ∈ known.insert n := by
          intro a ha hap b hb
          rcases OrderedSet.mem_insert.1 ha with rfl | ha
          · exact absurd hap (not_isWithin_parent hp)
          · have hmem := hclosed a ha (isWithin_trans hap (isWithin_of_parent hp)) b hb
            exact OrderedSet.mem_insert.2 (.inr hmem)
        rw [hrest, ih _ (hk ▸ parent_length_lt hp) hstill rfl, OrderedSet.mem_insert,
          isWithin_iff_of_parent hp, or_comm (a := space = n), or_assoc]

theorem mem_ancestry {spaces : List String} {space : String} :
    space ∈ ancestry spaces ↔ ∃ n ∈ spaces, isWithin space n := by
  suffices hrun : ∀ known : OrderedSet String, (∀ a ∈ known, ∀ b, isWithin b a → b ∈ known) →
      (space ∈ spaces.foldl (fun known n ↦ climbInto known (lineage n)) known ↔
        space ∈ known ∨ ∃ n ∈ spaces, isWithin space n) by
    simpa [ancestry] using hrun .empty (fun a ha ↦ absurd ha OrderedSet.not_mem_empty)
  induction spaces with
  | nil => simp
  | cons n spaces ih =>
    intro known hclosed
    have hstep : ∀ a, a ∈ climbInto known (lineage n) ↔ a ∈ known ∨ isWithin a n :=
      fun a ↦ mem_climbInto fun a ha _ ↦ hclosed a ha
    have hclosed' : ∀ a ∈ climbInto known (lineage n), ∀ b, isWithin b a →
        b ∈ climbInto known (lineage n) := by
      intro a ha b hb
      rw [hstep] at ha ⊢
      exact ha.imp (hclosed a · b hb) (isWithin_trans hb)
    rw [List.foldl_cons, ih _ hclosed', hstep, List.exists_mem_cons_iff, or_assoc]

theorem Coherent.mem_known (h : Coherent c) {space : String} :
    space ∈ c.known ↔
      (∃ id, c.contains id ∧ isWithin space (c.symbol id).space) ∨
        ∃ name ∈ c.descriptors.keys, isWithin space name := by
  have hknown : c.known = ancestry (c.spaces.keys ++ c.descriptors.keys) := by
    rw [h.indexed]
    rfl
  rw [hknown, mem_ancestry]
  simp only [List.mem_append]
  have hkeys : ∀ name, name ∈ c.spaces.keys ↔ ∃ id, c.contains id ∧ (c.symbol id).space = name := by
    intro name
    constructor
    · intro hname
      obtain ⟨e, he, rfl⟩ := List.mem_map.1 hname
      obtain ⟨hne, -⟩ := (h.spaces_get? e.1 e.2).1 (OrderedMap.get?_eq_some_iff.2 he)
      obtain ⟨id, hid⟩ := List.exists_mem_of_ne_nil _ hne
      exact ⟨id, (h.mem_entries_ids he).1 hid⟩
    · intro hx
      obtain ⟨id, hc, rfl⟩ := hx
      obtain ⟨e, he, hspace⟩ := h.exists_entry hc
      exact hspace ▸ List.mem_map_of_mem he
  constructor
  · rintro ⟨name, hname | hname, hwithin⟩
    · obtain ⟨id, hc, rfl⟩ := (hkeys name).1 hname
      exact .inl ⟨id, hc, hwithin⟩
    · exact .inr ⟨name, hname, hwithin⟩
  · intro hy
    rcases hy with ⟨id, hc, hwithin⟩ | ⟨name, hname, hwithin⟩
    · exact ⟨_, .inl ((hkeys _).2 ⟨id, hc, rfl⟩), hwithin⟩
    · exact ⟨name, .inr hname, hwithin⟩

theorem Coherent.known_of_isWithin (h : Coherent c) {outer inner : String}
    (hinner : inner ∈ c.known) (hwithin : isWithin outer inner) : outer ∈ c.known := by
  rw [h.mem_known] at hinner ⊢
  rcases hinner with ⟨id, hc, hin⟩ | ⟨name, hname, hin⟩
  · exact .inl ⟨id, hc, isWithin_trans hwithin hin⟩
  · exact .inr ⟨name, hname, isWithin_trans hwithin hin⟩

theorem mem_directSubspaces {space name : String} :
    name ∈ c.directSubspaces space ↔ name ∈ c.known ∧ parent? name = some space := by
  rw [directSubspaces, List.mem_filter, OrderedSet.mem_toList]
  simp only [Bool.and_eq_true, decide_eq_true_eq]
  constructor
  · exact fun h ↦ ⟨h.1, h.2.2⟩
  · intro hx
    obtain ⟨hk, hp⟩ := hx
    refine ⟨hk, fun heq ↦ ?_, hp⟩
    exact not_isWithin_parent hp (heq ▸ isWithin_refl name)

theorem contains_restrict (h : Coherent c) (roots : List String) (ignore : IgnoreList)
    (id : Symbol.Id) :
    (c.restrict roots ignore).contains id =
      (c.contains id && isUnder roots (c.symbol id).space &&
        !ignore.ignores (c.symbol id).name) := by
  simp only [restrict, index, contains, symbol, Array.getD_eq_getD_getElem?,
    Array.getElem?_zipWith]
  by_cases hlt : id < c.arena.size
  · have hv : id < c.visible.size := h.sized ▸ hlt
    simp [hlt, hv]
  · have hv : c.visible.size ≤ id := h.sized ▸ Nat.le_of_not_lt hlt
    simp [Array.getElem?_eq_none hv]

theorem Coherent.contains_of_restrict (h : Coherent c) {roots : List String} {ignore : IgnoreList}
    {id : Symbol.Id} (hid : (c.restrict roots ignore).contains id) : c.contains id := by
  rw [contains_restrict h, Bool.and_eq_true, Bool.and_eq_true] at hid
  exact hid.1.1

@[simp] theorem symbol_restrict (roots : List String) (ignore : IgnoreList) (id : Symbol.Id) :
    (c.restrict roots ignore).symbol id = c.symbol id := rfl

/-- Looking up the run of names that start with a given name finds what reading every member finds, whatever
the name: the members within that namespace, each once and by ascending position. The run holds every
indexed namespace that starts with the name, so also those within it that others come before. -/
theorem inNamespace_exact (hc : c.Reachable) (space : String) :
    c.inNamespace space = c.filter (fun s ↦ isWithin space s.space) ∧
    (c.inNamespace space).Pairwise (· < ·) ∧
    (∀ id, id ∈ c.inNamespace space ↔ c.contains id ∧ isWithin space (c.symbol id).space) ∧
    (((c.spaces.entriesFrom space).takeWhile fun e ↦ startsWith e.1 space) =
      c.spaces.entries.filter fun e ↦ startsWith e.1 space) ∧
    ∀ e ∈ c.spaces.entries, isWithin space e.1 →
      e ∈ (c.spaces.entriesFrom space).takeWhile fun e ↦ startsWith e.1 space := by
  have h := hc.coherent
  refine ⟨h.inNamespace_eq space, h.inNamespace_ascending space, fun id ↦ h.mem_inNamespace,
    takeWhile_entriesFrom _ space, fun e he hwithin ↦ ?_⟩
  rw [takeWhile_entriesFrom, List.mem_filter]
  exact ⟨he, startsWith_of_isWithin hwithin⟩

def yard : Codebase := index
  #[.ofName "yard.stock-old.Crate", .ofName "yard.stock.Item", .ofName "yard.stock.parts.Bolt",
    .ofName "yard.stockade.Fence"]
  (.replicate 4 true) .empty

theorem inNamespace_exact_yard :
    yard.Reachable ∧
    yard.spaces.keys = ["yard.stock", "yard.stock-old", "yard.stock.parts", "yard.stockade"] ∧
    yard.inNamespace "yard.stock" = yard.filter (fun s ↦ isWithin "yard.stock" s.space) ∧
    yard.inNamespace "yard.stock" = [1, 2] := by
  have hreachable : yard.Reachable := @Reachable.assembled yard.arena.toList [] _ rfl
  have hfilter : yard.filter (fun s ↦ isWithin "yard.stock" s.space) = [1, 2] := by decide +kernel
  obtain ⟨heq, -⟩ := inNamespace_exact hreachable "yard.stock"
  exact ⟨hreachable, by decide +kernel, heq, heq.trans hfilter⟩

end Codebase

end Modularity
