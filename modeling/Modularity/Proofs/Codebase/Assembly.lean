import Modularity.Codebase.Queries
import Modularity.Proofs.Namespace.Order
import Modularity.Proofs.Ordered.Canonical
import Mathlib.Data.List.Duplicate
import Mathlib.Data.List.Induction

namespace Modularity

/-- A sorted list whose neighbours have distinct keys has ascending keys. -/
theorem StrictLinear.ascending_of_isChain {α β : Type} [LT α] [StrictLinear α] {key : β → α}
    {xs : List β} (hne : xs.IsChain fun x y ↦ key x ≠ key y)
    (hs : xs.Pairwise fun x y ↦ ¬ key y < key x) :
    xs.Pairwise fun x y ↦ key x < key y := by
  induction xs with
  | nil => exact .nil
  | cons x xs ih =>
    cases xs with
    | nil => exact List.pairwise_singleton _ _
    | cons y rest =>
      rw [List.isChain_cons_cons] at hne
      have hs' := List.pairwise_cons.1 hs
      have hrest := ih hne.2 hs'.2
      have hxy : key x < key y := Classical.byContradiction fun hlt ↦
        hne.1 (StrictLinear.eq_of_not_lt hlt (hs'.1 y (List.mem_cons_self ..)))
      refine List.pairwise_cons.2 ⟨fun z hz ↦ ?_, hrest⟩
      rcases List.mem_cons.1 hz with rfl | hz
      · exact hxy
      · exact StrictLinear.trans hxy ((List.pairwise_cons.1 hrest).1 z hz)

theorem StrictLinear.not_lt_of_find? {α β : Type} [LT α] [StrictLinear α] {key : β → α} {p : β → Bool}
    {xs : List β} (hs : xs.Pairwise fun x y ↦ ¬ key y < key x) {x : β} (h : xs.find? p = some x) :
    ∀ y ∈ xs, p y → ¬ key y < key x := by
  obtain ⟨-, before, after, rfl, hbefore⟩ := List.find?_eq_some_iff_append.1 h
  have hafter := (List.pairwise_cons.1 (List.pairwise_append.1 hs).2.1).1
  intro y hy hp
  rcases List.mem_append.1 hy with hy | hy
  · simpa [hp] using hbefore y hy
  · rcases List.mem_cons.1 hy with rfl | hy
    · exact StrictLinear.irrefl _
    · exact hafter y hy

theorem duplicate_perm {α : Type} [DecidableEq α] {xs ys : List α} (h : xs.Perm ys) {a : α} :
    List.Duplicate a xs ↔ List.Duplicate a ys := by
  rw [List.duplicate_iff_two_le_count, List.duplicate_iff_two_le_count, h.count_eq]

/-! ### Descriptors of one namespace -/

namespace Descriptor

def joined? : List Descriptor → Option Descriptor
  | [] => none
  | d :: ds => some (ds.foldl merge d)

theorem joined?_append_singleton (ds : List Descriptor) (d : Descriptor) :
    joined? (ds ++ [d]) = some (((joined? ds).map (·.merge d)).getD d) := by
  cases ds <;> simp [joined?]

theorem joined?_eq_none {ds : List Descriptor} : joined? ds = none ↔ ds = [] := by
  cases ds <;> simp [joined?]

/-- A descriptor says what some descriptors say together: it has the tags of all of them and lists their
interfaces one after the other, and of the modules that they declare it keeps the last one. -/
structure Joins (d : Descriptor) (ds : List Descriptor) : Prop where
  name : ∃ e ∈ ds, e.name = d.name
  tags : ∀ tag, tag ∈ d.tags ↔ ∃ e ∈ ds, tag ∈ e.tags
  interfaces : d.interfaces = ds.flatMap (·.interfaces)
  module : d.module = (ds.filterMap (·.module)).getLast?

variable {d : Descriptor} {ds : List Descriptor}

theorem joins_singleton (d : Descriptor) : Joins d [d] where
  name := ⟨d, List.mem_singleton_self d, rfl⟩
  tags := by simp
  interfaces := by simp
  module := by cases hmodule : d.module <;> simp [hmodule]

theorem Joins.merge (h : Joins d ds) (later : Descriptor) : Joins (d.merge later) (ds ++ [later]) where
  name := by
    obtain ⟨e, he, hname⟩ := h.name
    exact ⟨e, List.mem_append_left _ he, hname⟩
  tags tag := by
    rw [Descriptor.merge, OrderedSet.mem_union, h.tags]
    simp [or_and_right, exists_or]
  interfaces := by simp [Descriptor.merge, h.interfaces]
  module := by
    rw [Descriptor.merge, h.module, List.filterMap_append, List.getLast?_append]
    cases hmodule : later.module <;> simp [hmodule]

theorem joins_of_joined? (h : joined? ds = some d) : Joins d ds := by
  induction ds using List.reverseRecOn generalizing d with
  | nil => nomatch h
  | append_singleton ds later ih =>
    rw [joined?_append_singleton] at h
    cases hjoined : joined? ds with
    | none =>
      obtain rfl := joined?_eq_none.1 hjoined
      rw [hjoined] at h
      obtain rfl := Option.some.inj h
      exact joins_singleton _
    | some earlier =>
      rw [hjoined] at h
      obtain rfl := Option.some.inj h
      exact (ih hjoined).merge later

end Descriptor

def Symbol.Placed (s : Symbol) : Prop := s.space = "" ∨ (s.space ++ ".").toList <+: s.name.toList

instance (s : Symbol) : Decidable s.Placed := inferInstanceAs (Decidable (_ ∨ _))

namespace Codebase

open Namespace

variable {c : Codebase} {ss ts : List Symbol} {ds es : List Descriptor}

theorem get?_mergeDescriptors (ds : List Descriptor) (space : String) :
    (mergeDescriptors ds).get? space = Descriptor.joined? (ds.filter (·.name = space)) := by
  induction ds using List.reverseRecOn with
  | nil => rfl
  | append_singleton ds d ih =>
    rw [mergeDescriptors, List.foldl_append, List.foldl_cons, List.foldl_nil, OrderedMap.get?_alter,
      ← mergeDescriptors, List.filter_append]
    by_cases hspace : d.name = space
    · subst hspace
      rw [if_pos rfl, List.filter_cons_of_pos (by simp), List.filter_nil,
        Descriptor.joined?_append_singleton, ← ih]
      cases (mergeDescriptors ds).get? d.name <;> rfl
    · rw [if_neg hspace, ih, List.filter_cons_of_neg (by simpa using hspace), List.filter_nil,
        List.append_nil]

theorem mergeDescriptors_keyed (ds : List Descriptor) {space : String} {d : Descriptor}
    (h : (mergeDescriptors ds).get? space = some d) : d.name = space := by
  rw [get?_mergeDescriptors] at h
  obtain ⟨e, he, hname⟩ := (Descriptor.joins_of_joined? h).name
  rw [← hname]
  simpa using (List.mem_filter.1 he).2

/-! ### Faults -/

theorem isMisplaced_iff {s : Symbol} : isMisplaced s ↔ ¬ s.Placed := by
  rw [isMisplaced, Symbol.Placed, Bool.and_eq_true, Bool.not_eq_true', ← Bool.not_eq_true, startsWith_iff,
    not_or, decide_eq_true_eq]

theorem repeatedName?_eq_none {ss : List Symbol} :
    repeatedName? ss = none ↔ ss.IsChain fun s t ↦ s.name ≠ t.name := by
  induction ss with
  | nil => simp [repeatedName?]
  | cons s ss ih =>
    cases ss with
    | nil => simp [repeatedName?]
    | cons t rest => rw [repeatedName?, List.isChain_cons_cons, ← ih]; split <;> simp [*]

structure SmallestDuplicate (name : String) (names : List String) : Prop where
  duplicate : List.Duplicate name names
  smallest : ∀ other, List.Duplicate other names → ¬ other < name

theorem SmallestDuplicate.unique {m n : String} {names : List String} (hm : SmallestDuplicate m names)
    (hn : SmallestDuplicate n names) : m = n :=
  StrictLinear.eq_of_not_lt (hn.smallest m hm.duplicate) (hm.smallest n hn.duplicate)

theorem SmallestDuplicate.perm {n : String} {names names' : List String} (h : SmallestDuplicate n names)
    (hperm : names.Perm names') : SmallestDuplicate n names' where
  duplicate := (duplicate_perm hperm).1 h.duplicate
  smallest other hother := h.smallest other ((duplicate_perm hperm).2 hother)

/-- Once symbols are sorted, the first name that two neighbours share is the smallest one of all that
repeat. -/
theorem smallestDuplicate_of_repeatedName? {n : String}
    (hs : ss.Pairwise fun s t ↦ ¬ t.name < s.name) (h : repeatedName? ss = some n) :
    SmallestDuplicate n (ss.map (·.name)) := by
  induction ss with
  | nil => nomatch h
  | cons s ss ih =>
    cases ss with
    | nil => nomatch h
    | cons t rest =>
      obtain ⟨hfirst, hrest⟩ := List.pairwise_cons.1 hs
      rw [repeatedName?] at h
      split at h
      · rename_i hname
        obtain rfl := Option.some.inj h
        refine ⟨.cons_mem (hname ▸ List.mem_cons_self ..), fun other hother ↦ ?_⟩
        obtain ⟨u, hu, rfl⟩ := List.mem_map.1 hother.mem
        rcases List.mem_cons.1 hu with rfl | hu
        · exact StrictLinear.irrefl _
        · exact hfirst u hu
      · rename_i hne
        have hlater := ih hrest h
        refine ⟨hlater.duplicate.duplicate_cons _, fun other hother ↦ hlater.smallest other ?_⟩
        refine hother.of_duplicate_cons fun heq ↦ ?_
        subst heq
        -- whatever shares the name of `s` stands after `t`, so that `t` shares it, too
        obtain ⟨u, hu, hname⟩ := List.mem_map.1 hother.mem_cons_self
        rcases List.mem_cons.1 hu with rfl | hu'
        · exact hne hname.symm
        · have hst : ¬ s.name < t.name := fun hlt ↦
            (List.pairwise_cons.1 hrest).1 u hu' (lt_of_eq_of_lt hname hlt)
          exact hne (StrictLinear.eq_of_not_lt hst (hfirst t (List.mem_cons_self ..)))

theorem nodup_sortBy_name : ((sortBy (·.name) ss).map (·.name)).Nodup ↔ (ss.map (·.name)).Nodup :=
  ((sortBy_perm _ _).map _).nodup_iff

theorem repeatedName?_sortBy_eq_none :
    repeatedName? (sortBy (·.name) ss) = none ↔ (ss.map (·.name)).Nodup := by
  rw [repeatedName?_eq_none, ← nodup_sortBy_name]
  constructor
  · intro hchain
    exact List.pairwise_map.2
      ((StrictLinear.ascending_of_isChain hchain (sortBy_pairwise _ _)).imp StrictLinear.ne_of_lt)
  · intro hnodup
    exact (List.pairwise_map.1 hnodup).isChain

/-! ### Assemblies -/

theorem assemble_eq_duplicate {n : String} :
    assemble ss ds = .error (.duplicateSymbol n) ↔ repeatedName? (sortBy (·.name) ss) = some n := by
  cases hrepeated : repeatedName? (sortBy (·.name) ss) <;>
    cases hfind : (sortBy (·.name) ss).find? isMisplaced <;> simp [assemble, hrepeated, hfind]

theorem assemble_eq_outside {n space : String} :
    assemble ss ds = .error (.outsideNamespace n space) ↔
      repeatedName? (sortBy (·.name) ss) = none ∧
        ∃ s, (sortBy (·.name) ss).find? isMisplaced = some s ∧ s.name = n ∧ s.space = space := by
  cases hrepeated : repeatedName? (sortBy (·.name) ss) <;>
    cases hfind : (sortBy (·.name) ss).find? isMisplaced <;> simp [assemble, hrepeated, hfind]

theorem assemble_eq_ok :
    assemble ss ds = .ok c ↔ repeatedName? (sortBy (·.name) ss) = none ∧
      (sortBy (·.name) ss).find? isMisplaced = none ∧
      index (sortBy (·.name) ss).toArray (.replicate (sortBy (·.name) ss).length true)
        (mergeDescriptors ds) = c := by
  cases hrepeated : repeatedName? (sortBy (·.name) ss) <;>
    cases hfind : (sortBy (·.name) ss).find? isMisplaced <;> simp [assemble, hrepeated, hfind]

theorem find?_isMisplaced_eq_none :
    (sortBy (·.name) ss).find? isMisplaced = none ↔ ∀ s ∈ ss, s.Placed := by
  simp [List.find?_eq_none, isMisplaced_iff]

theorem exists_duplicate_iff (ds : List Descriptor) :
    (∃ n, assemble ss ds = .error (.duplicateSymbol n)) ↔ ¬ (ss.map (·.name)).Nodup := by
  rw [← repeatedName?_sortBy_eq_none, ← ne_eq, Option.ne_none_iff_exists']
  exact exists_congr fun n ↦ assemble_eq_duplicate

theorem smallestDuplicate_of_assemble {n : String} (h : assemble ss ds = .error (.duplicateSymbol n)) :
    SmallestDuplicate n (ss.map (·.name)) :=
  (smallestDuplicate_of_repeatedName? (sortBy_pairwise _ _) (assemble_eq_duplicate.1 h)).perm
    ((sortBy_perm _ _).map _)

theorem exists_outside_iff :
    (∃ n space, assemble ss ds = .error (.outsideNamespace n space)) ↔
      (ss.map (·.name)).Nodup ∧ ∃ s ∈ ss, ¬ s.Placed := by
  constructor
  · intro hx
    obtain ⟨n, space, h⟩ := hx
    obtain ⟨hunique, s, hfind, -⟩ := assemble_eq_outside.1 h
    exact ⟨repeatedName?_sortBy_eq_none.1 hunique, s, mem_sortBy.1 (List.mem_of_find?_eq_some hfind),
      isMisplaced_iff.1 (List.find?_some hfind)⟩
  · intro hy
    obtain ⟨hnodup, t, ht, hplaced⟩ := hy
    have hfault : (sortBy (·.name) ss).find? isMisplaced ≠ none := fun hnone ↦
      hplaced (find?_isMisplaced_eq_none.1 hnone t ht)
    obtain ⟨s, hfind⟩ := Option.ne_none_iff_exists'.1 hfault
    exact ⟨_, _, assemble_eq_outside.2 ⟨repeatedName?_sortBy_eq_none.2 hnodup, s, hfind, rfl, rfl⟩⟩

theorem smallest_of_outside {n space : String} (h : assemble ss ds = .error (.outsideNamespace n space)) :
    ∃ s ∈ ss, s.name = n ∧ s.space = space ∧ ¬ s.Placed ∧ ∀ t ∈ ss, ¬ t.Placed → ¬ t.name < n := by
  obtain ⟨-, s, hfind, rfl, rfl⟩ := assemble_eq_outside.1 h
  refine ⟨s, mem_sortBy.1 (List.mem_of_find?_eq_some hfind), rfl, rfl,
    isMisplaced_iff.1 (List.find?_some hfind), fun t ht hplaced ↦ ?_⟩
  exact StrictLinear.not_lt_of_find? (sortBy_pairwise _ _) hfind t (mem_sortBy.2 ht)
    (isMisplaced_iff.2 hplaced)

theorem exists_ok_iff :
    (∃ c, assemble ss ds = .ok c) ↔ (ss.map (·.name)).Nodup ∧ ∀ s ∈ ss, s.Placed := by
  simp only [assemble_eq_ok, repeatedName?_sortBy_eq_none, find?_isMisplaced_eq_none, exists_and_left,
    exists_eq', and_true]

/-! ### Other orders of arrival -/

theorem mergeDescriptors_congr (h : ∀ space, ds.filter (·.name = space) = es.filter (·.name = space)) :
    mergeDescriptors ds = mergeDescriptors es := by
  apply OrderedMap.ext_get?
  intro space
  rw [get?_mergeDescriptors, get?_mergeDescriptors, h]

theorem assemble_perm (hss : ss.Perm ts)
    (hds : ∀ space, ds.filter (·.name = space) = es.filter (·.name = space)) :
    assemble ss ds = assemble ts es := by
  have hnames : (ss.map (·.name)).Perm (ts.map (·.name)) := hss.map _
  by_cases hnodup : (ts.map (·.name)).Nodup
  · have hsorted : sortBy (·.name) ss = sortBy (·.name) ts :=
      sortBy_eq_of_perm (hss.trans (sortBy_perm (·.name) ts).symm) (sortBy_ascending _ hnodup)
    rw [assemble, assemble, hsorted, mergeDescriptors_congr hds]
  · obtain ⟨n, hleft⟩ := (exists_duplicate_iff ds).2 (hnames.nodup_iff.not.2 hnodup)
    obtain ⟨n', hright⟩ := (exists_duplicate_iff es).2 hnodup
    rw [hleft, hright, ((smallestDuplicate_of_assemble hleft).perm hnames).unique
      (smallestDuplicate_of_assemble hright)]

theorem descriptor?_of_assemble (h : assemble ss ds = .ok c) (space : String) :
    c.descriptor? space = Descriptor.joined? (ds.filter (·.name = space)) := by
  obtain ⟨-, -, rfl⟩ := assemble_eq_ok.1 h
  exact get?_mergeDescriptors ds space

/-- An assembly depends only on what it is given. It fails if a name repeats, with the smallest such name;
else if a symbol is not in the namespace that it declares, with the smallest such symbol; else it succeeds.
However the symbols are rearranged, and the descriptors too as long as those of one namespace keep their
order, the fault is the same or the codebase is, with all its positions, answers and its fingerprint. Of
each namespace that codebase keeps one descriptor, which joins those that were given, in their order. -/
theorem assemble_exact (ss : List Symbol) (ds : List Descriptor) :
    ((∃ n, assemble ss ds = .error (.duplicateSymbol n)) ↔ ¬ (ss.map (·.name)).Nodup) ∧
    (∀ n, assemble ss ds = .error (.duplicateSymbol n) → SmallestDuplicate n (ss.map (·.name))) ∧
    ((∃ n space, assemble ss ds = .error (.outsideNamespace n space)) ↔
      (ss.map (·.name)).Nodup ∧ ∃ s ∈ ss, ¬ s.Placed) ∧
    (∀ n space, assemble ss ds = .error (.outsideNamespace n space) →
      ∃ s ∈ ss, s.name = n ∧ s.space = space ∧ ¬ s.Placed ∧ ∀ t ∈ ss, ¬ t.Placed → ¬ t.name < n) ∧
    ((∃ c, assemble ss ds = .ok c) ↔ (ss.map (·.name)).Nodup ∧ ∀ s ∈ ss, s.Placed) ∧
    (∀ ts es, ss.Perm ts → (∀ space, ds.filter (·.name = space) = es.filter (·.name = space)) →
      assemble ts es = assemble ss ds) ∧
    ∀ c, assemble ss ds = .ok c → ∀ space,
      (c.descriptor? space = none ↔ ∀ d ∈ ds, d.name ≠ space) ∧
      ∀ d, c.descriptor? space = some d → d.name = space ∧ d.Joins (ds.filter (·.name = space)) := by
  refine ⟨exists_duplicate_iff ds, fun n ↦ smallestDuplicate_of_assemble, exists_outside_iff,
    fun n space ↦ smallest_of_outside, exists_ok_iff, fun ts es hss hds ↦ (assemble_perm hss hds).symm,
    fun c h space ↦ ?_⟩
  have hdescriptor := descriptor?_of_assemble h space
  constructor
  · rw [hdescriptor, Descriptor.joined?_eq_none, List.filter_eq_nil_iff]
    simp
  · intro d hd
    refine ⟨?_, Descriptor.joins_of_joined? (hdescriptor.symm.trans hd)⟩
    exact mergeDescriptors_keyed ds ((get?_mergeDescriptors ds space).trans (hdescriptor.symm.trans hd))

theorem assemble_exact_shop :
    ∃ c, assemble [.ofName "shop.stock.Item", .ofName "shop.orders.Order"]
        [{ name := "shop.orders", interfaces := ["api"], module := some {} }, { name := "shop.stock" },
          { name := "shop.orders", interfaces := ["spi"] }] = .ok c ∧
      assemble [.ofName "shop.orders.Order", .ofName "shop.stock.Item"]
        [{ name := "shop.stock" }, { name := "shop.orders", interfaces := ["api"], module := some {} },
          { name := "shop.orders", interfaces := ["spi"] }] = .ok c ∧
      ∃ d, c.descriptor? "shop.orders" = some d ∧ d.interfaces = ["api", "spi"] ∧ d.module = some {} := by
  obtain ⟨-, -, -, -, hok, hperm, hdescriptors⟩ :=
    assemble_exact [.ofName "shop.stock.Item", .ofName "shop.orders.Order"]
      [{ name := "shop.orders", interfaces := ["api"], module := some {} }, { name := "shop.stock" },
        { name := "shop.orders", interfaces := ["spi"] }]
  obtain ⟨c, hc⟩ := hok.2 ⟨by decide +kernel, by decide +kernel⟩
  obtain ⟨hnone, hsome⟩ := hdescriptors c hc "shop.orders"
  obtain ⟨d, hd⟩ := Option.ne_none_iff_exists'.1 fun hnot ↦
    hnone.1 hnot _ (List.mem_cons_self ..) rfl
  obtain ⟨-, hjoins⟩ := hsome d hd
  refine ⟨c, hc, (hperm _ _ (.swap ..) fun space ↦ ?_).trans hc, d, hd, hjoins.interfaces, hjoins.module⟩
  by_cases horders : "shop.orders" = space
  · subst horders
    rfl
  · simp [List.filter_cons, horders]

end Codebase

end Modularity
