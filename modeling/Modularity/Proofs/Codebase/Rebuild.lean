import Modularity.Proofs.Codebase.Indexes
import Modularity.Proofs.Except

namespace Modularity.Codebase

open Namespace

variable {c d : Codebase} {ss : List Symbol} {ds : List Descriptor}

theorem Coherent.names_descriptors (h : c.Coherent) :
    c.descriptors.values.map (·.name) = c.descriptors.keys := by
  rw [OrderedMap.values, OrderedMap.keys, List.map_map]
  exact List.map_congr_left fun e he ↦ h.keyed (OrderedMap.get?_eq_some_iff.2 he)

theorem get?_mergeDescriptors_of_nodup (h : (ds.map (·.name)).Nodup) (space : String) :
    (mergeDescriptors ds).get? space = ds.find? (·.name = space) := by
  rw [get?_mergeDescriptors]
  cases hfind : ds.find? (·.name = space) with
  | none =>
    rw [List.filter_eq_nil_iff.2 (List.find?_eq_none.1 hfind)]
    rfl
  | some d =>
    have hone : (ds.filter (·.name = space)).Perm [d] := by
      refine (List.perm_ext_iff_of_nodup (h.of_map.filter _) (List.nodup_singleton d)).2 fun e ↦ ?_
      rw [List.mem_filter, decide_eq_true_eq, ← find?_key_eq_some_iff h, hfind, List.mem_singleton,
        Option.some.injEq, eq_comm]
    rw [List.perm_singleton.1 hone]
    rfl

theorem Coherent.mergeDescriptors_of_perm (h : c.Coherent) (hperm : ds.Perm c.descriptors.values) :
    mergeDescriptors ds = c.descriptors := by
  have hnodup : (ds.map (·.name)).Nodup := by
    rw [(hperm.map _).nodup_iff, h.names_descriptors]
    exact c.descriptors.keys_nodup
  apply OrderedMap.ext_get?
  intro space
  rw [get?_mergeDescriptors_of_nodup hnodup]
  apply Option.ext
  intro d
  rw [find?_key_eq_some_iff hnodup, hperm.mem_iff, OrderedMap.mem_values]
  constructor
  · intro hx
    obtain ⟨⟨k, hk⟩, rfl⟩ := hx
    exact (h.keyed hk) ▸ hk
  · exact fun hget ↦ ⟨⟨space, hget⟩, h.keyed hget⟩

theorem assemble_of_nodup (hnames : (ss.map (·.name)).Nodup) (hplaced : ∀ s ∈ ss, ¬ isMisplaced s) :
    assemble ss ds = .ok (index (sortBy (·.name) ss).toArray
      (.replicate (sortBy (·.name) ss).length true) (mergeDescriptors ds)) := by
  have hfind : (sortBy (·.name) ss).find? isMisplaced = none :=
    List.find?_eq_none.2 fun s hs ↦ hplaced s (mem_sortBy.1 hs)
  exact assemble_eq_ok.2 ⟨repeatedName?_sortBy_eq_none.2 hnames, hfind, rfl⟩

theorem Coherent.names_nodup (h : c.Coherent) : ((c.members.map (·.1)).map (·.name)).Nodup :=
  List.pairwise_map.2 (h.symbols_ascending.imp StrictLinear.ne_of_lt)

/-- What a codebase holds can be assembled again, and gives its compact form. -/
theorem Coherent.assemble_compacted (h : c.Coherent) (hss : ss.Perm (c.members.map (·.1)))
    (hds : ds.Perm c.descriptors.values) : assemble ss ds = .ok c.compacted := by
  have hsorted : sortBy (·.name) ss = c.members.map (·.1) := sortBy_eq_of_perm hss h.symbols_ascending
  have hnames : (ss.map (·.name)).Nodup := (hss.map _).nodup_iff.2 h.names_nodup
  have hplaced : ∀ s ∈ ss, ¬ isMisplaced s := fun s hs ↦ h.placed s (mem_arena (hss.mem_iff.1 hs))
  rw [assemble_of_nodup hnames hplaced, hsorted, h.mergeDescriptors_of_perm hds]
  rfl

/-- Two codebases answer alike, positions in the first one standing for positions in the second one. -/
structure AnswersAlike (e : Symbol.Id → Symbol.Id) (d r : Codebase) : Prop where
  ascending : ∀ i j, i < j → e i < e j
  symbol : ∀ i, r.symbol (e i) = d.symbol i
  contains : ∀ i, r.contains (e i) = d.contains i
  members : r.members = d.members.map fun p ↦ (p.1, e p.2)
  size : r.size = d.size
  descriptors : r.descriptors.values = d.descriptors.values
  find? : ∀ name, r.find? name = (d.find? name).map e
  directlyIn : ∀ space, r.directlyIn space = (d.directlyIn space).map e
  inNamespace : ∀ space, r.inNamespace space = (d.inNamespace space).map e
  directSubspaces : ∀ space, r.directSubspaces space = d.directSubspaces space
  subspaces : ∀ space, r.subspaces space = d.subspaces space
  hasNamespace : ∀ space, r.hasNamespace space = d.hasNamespace space
  fingerprint : r.fingerprint = d.fingerprint

variable {r : Codebase} {e : Symbol.Id → Symbol.Id}

theorem Relocates.size (h : Relocates e d r) : r.size = d.size := by
  rw [h.target.size_eq, h.source.size_eq, h.members, List.length_map]

theorem Relocates.content (h : Relocates e d r) : r.content = d.content := by
  have hsymbols : r.members.map (·.1) = d.members.map (·.1) := by
    rw [h.members, List.map_map]
    rfl
  rw [content_eq, content_eq, hsymbols, h.descriptors]

theorem Relocates.answersAlike (h : Relocates e d r) : AnswersAlike e d r where
  ascending _ _ := h.ascending
  symbol := h.symbol
  contains := h.contains
  members := h.members
  size := h.size
  descriptors := congrArg OrderedMap.values h.descriptors
  find? := h.find?
  directlyIn := h.directlyIn
  inNamespace := h.inNamespace
  directSubspaces := h.directSubspaces
  subspaces := h.subspaces
  hasNamespace := h.hasNamespace
  fingerprint := congrArg Fingerprint.ofParts h.content

theorem Coherent.descriptors_restrict (h : c.Coherent) (roots : List String) (ignore : IgnoreList) :
    (c.restrict roots ignore).descriptors.values =
      c.descriptors.values.filter fun d ↦ isUnder roots d.name := by
  have hvalues : (c.restrict roots ignore).descriptors.values =
      (c.descriptors.entries.filter fun e ↦ isUnder roots e.1).map (·.2) := rfl
  rw [hvalues, OrderedMap.values, List.filter_map]
  refine congrArg _ (List.filter_congr fun e he ↦ ?_)
  rw [Function.comp_apply, h.keyed (OrderedMap.get?_eq_some_iff.2 he)]

structure AnswersFrom (c r : Codebase) : Prop where
  members : r.members.Sublist c.members
  find? : ∀ name id, r.find? name = some id → c.find? name = some id
  directlyIn : ∀ space, ∀ id ∈ r.directlyIn space, id ∈ c.directlyIn space
  inNamespace : ∀ space, ∀ id ∈ r.inNamespace space, id ∈ c.inNamespace space
  symbol : ∀ id, r.symbol id = c.symbol id

theorem Coherent.answersFrom_restrict (h : c.Coherent) (roots : List String) (ignore : IgnoreList) :
    AnswersFrom c (c.restrict roots ignore) := by
  have hr := h.restrict roots ignore
  refine ⟨?_, fun name id hfind ↦ ?_, fun space id hid ↦ ?_, fun space id hid ↦ ?_, fun id ↦ rfl⟩
  · rw [members_restrict h]
    exact List.filter_sublist
  · obtain ⟨hid, hname⟩ := hr.find?_eq_some_iff.1 hfind
    exact h.find?_eq_some_iff.2 ⟨h.contains_of_restrict hid, hname⟩
  · obtain ⟨hmem, hspace⟩ := hr.mem_directlyIn.1 hid
    exact h.mem_directlyIn.2 ⟨h.contains_of_restrict hmem, hspace⟩
  · obtain ⟨hmem, hwithin⟩ := hr.mem_inNamespace.1 hid
    exact h.mem_inNamespace.2 ⟨h.contains_of_restrict hmem, hwithin⟩

/-- A restriction is as good as a codebase that is assembled from the members within the roots that are
not ignored and the descriptors within the roots, in any order. That assembly never fails; the codebase
that it gives answers every query as the restriction does, positions being moved in their order; and the
positions with which the restriction answers are those of the codebase that it restricts. -/
theorem restrict_as_rebuilt (h : c.Reachable) (roots : List String) (ignore : IgnoreList)
    (hss : ss.Perm ((c.members.map (·.1)).filter fun s ↦
      isUnder roots s.space && !ignore.ignores s.name))
    (hds : ds.Perm (c.descriptors.values.filter fun d ↦ isUnder roots d.name)) :
    (∃ d, assemble ss ds = .ok d ∧ ∃ e, AnswersAlike e d (c.restrict roots ignore)) ∧
      AnswersFrom c (c.restrict roots ignore) := by
  have hc := h.coherent
  have hr := hc.restrict roots ignore
  have hsymbols : (c.restrict roots ignore).members.map (·.1) =
      (c.members.map (·.1)).filter fun s ↦ isUnder roots s.space && !ignore.ignores s.name := by
    rw [members_restrict hc, List.filter_map]
    rfl
  have hassemble := hr.assemble_compacted (hsymbols ▸ hss) (hc.descriptors_restrict roots ignore ▸ hds)
  exact ⟨⟨_, hassemble, _, hr.compacted_relocates.answersAlike⟩, hc.answersFrom_restrict roots ignore⟩

def depot : Codebase := index
  #[.ofName "lib.Text", .ofName "shop.Main",
    ((Symbol.ofName "shop.orders.Order").tagged "service").referring "shop.stock.Item",
    (Symbol.ofName "shop.stock.Item").tagged "service"]
  (.replicate 4 true)
  (mergeDescriptors [{ name := "shop.orders", module := some { displayName := some " Orders " } },
    { name := "lib", module := some {} }])

theorem depot_reachable : depot.Reachable :=
  @Reachable.assembled depot.arena.toList depot.descriptors.values _ rfl

/-- The shop of the depot without its main symbol, and the same assembled in another order. -/
theorem restrict_as_rebuilt_depot :
    ∃ ignore d e, IgnoreList.ofPatterns ["*.Main"] = .ok ignore ∧
      (depot.restrict ["shop"] ignore).members = [(depot.symbol 2, 2), (depot.symbol 3, 3)] ∧
      assemble [depot.symbol 3, depot.symbol 2]
        [{ name := "shop.orders", module := some { displayName := some " Orders " } }] = .ok d ∧
      AnswersAlike e d (depot.restrict ["shop"] ignore) := by
  have hkept : (IgnoreList.ofPatterns ["*.Main"]).toOption.map (fun ignore ↦
      ((depot.restrict ["shop"] ignore).members, (depot.members.map (·.1)).filter fun s ↦
        isUnder ["shop"] s.space && !ignore.ignores s.name)) =
      some ([(depot.symbol 2, 2), (depot.symbol 3, 3)], [depot.symbol 2, depot.symbol 3]) := by
    decide +kernel
  have hdescriptors : (depot.descriptors.values.filter fun d ↦ isUnder ["shop"] d.name) =
      [{ name := "shop.orders", module := some { displayName := some " Orders " } }] := by
    decide +kernel
  obtain ⟨ignore, hok, hlists⟩ := Option.map_eq_some_iff.1 hkept
  obtain ⟨hmembers, hsymbols⟩ := Prod.mk.inj hlists
  have hss : [depot.symbol 3, depot.symbol 2].Perm ((depot.members.map (·.1)).filter fun s ↦
      isUnder ["shop"] s.space && !ignore.ignores s.name) := hsymbols ▸ .swap ..
  have hds := List.Perm.of_eq hdescriptors.symm
  obtain ⟨⟨d, hd, e, halike⟩, -⟩ := restrict_as_rebuilt depot_reachable ["shop"] ignore hss hds
  exact ⟨ignore, d, e, ok_of_toOption hok, hmembers, hd, halike⟩

end Modularity.Codebase
