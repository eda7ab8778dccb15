import Modularity.Proofs.Codebase.Queries
import Modularity.Proofs.Edge.Occurrence

namespace Modularity

open Mention

variable {st : Stereotypes} {s : Symbol}

def Edge.Site.phase : Edge.Site → Nat
  | .injectionConstructor => 0
  | .injectedField => 1
  | .injectionMethod => 1
  | .memberSignature => 2
  | .staticReference => 3
  | .supertype => 4

theorem Edge.Site.isInMember_iff {site : Edge.Site} : site.isInMember ↔ site.phase ≤ 2 := by
  cases site <;> decide

theorem pairwise_phase {n : Nat} {xs : List Mention} (h : ∀ x ∈ xs, x.site.phase = n) :
    xs.Pairwise fun x y ↦ x.site.phase ≤ y.site.phase := by
  apply List.pairwise_of_forall_mem_list
  intro x hx y hy
  replace hx := h x hx
  replace hy := h y hy
  omega

theorem inMembers_pairwise (st : Stereotypes) (s : Symbol) :
    (inMembers st s).Pairwise fun x y ↦ x.site.phase ≤ y.site.phase := by
  have hconstructors : ∀ x ∈ inConstructors st s, x.site.phase = 0 := fun x hx ↦ by
    rw [site_of_mem_inConstructors hx, Edge.Site.phase]
  have hinjected : ∀ x ∈ s.members.flatMap (injected st), x.site.phase = 1 := fun x hx ↦ by
    obtain ⟨m, -, hx⟩ := List.mem_flatMap.1 hx
    rcases site_of_mem_injected hx with hsite | hsite <;> rw [hsite, Edge.Site.phase]
  have hsignature : ∀ x ∈ s.members.flatMap (inSignature st s), x.site.phase = 2 := fun x hx ↦ by
    obtain ⟨m, -, hx⟩ := List.mem_flatMap.1 hx
    rw [site_of_mem_inSignature hx, Edge.Site.phase]
  rw [inMembers, List.append_assoc, List.pairwise_append, List.pairwise_append]
  refine ⟨pairwise_phase hconstructors, ⟨pairwise_phase hinjected, pairwise_phase hsignature, ?_⟩, ?_⟩
  · intro x hx y hy
    replace hx := hinjected x hx
    replace hy := hsignature y hy
    omega
  · intro x hx y _
    replace hx := hconstructors x hx
    omega

theorem elsewhere_pairwise (s : Symbol) :
    (elsewhere s).Pairwise fun x y ↦ x.site.phase ≤ y.site.phase := by
  have hreferences : ∀ x ∈ s.references.flatMap (fun r ↦
      ofType .staticReference (r.member.bind s.member?) r.line r.target), x.site.phase = 3 := by
    intro x hx
    obtain ⟨r, -, hx⟩ := List.mem_flatMap.1 hx
    obtain ⟨t, -, rfl⟩ := mem_ofType.1 hx
    rfl
  have hsupertypes : ∀ x ∈ s.supertypes.flatMap (ofType .supertype none none), x.site.phase = 4 := by
    intro x hx
    obtain ⟨expr, -, hx⟩ := List.mem_flatMap.1 hx
    obtain ⟨t, -, rfl⟩ := mem_ofType.1 hx
    rfl
  rw [elsewhere, List.pairwise_append]
  refine ⟨pairwise_phase hreferences, pairwise_phase hsupertypes, fun x hx y hy ↦ ?_⟩
  replace hx := hreferences x hx
  replace hy := hsupertypes y hy
  omega

theorem Symbol.mentions_pairwise (st : Stereotypes) (s : Symbol) :
    (s.mentions st).Pairwise fun x y ↦ x.site.phase ≤ y.site.phase := by
  rw [mentions, List.pairwise_append]
  refine ⟨inMembers_pairwise st s, elsewhere_pairwise s, fun x hx y hy ↦ ?_⟩
  have hinside := Edge.Site.isInMember_iff.1 (isInMember_of_mem_inMembers hx)
  have houtside := mt Edge.Site.isInMember_iff.2 (not_isInMember_of_mem_elsewhere hy)
  omega

theorem Edge.Kind.eq_classify_iff {kind : Edge.Kind} {member : Option Member} {t : Symbol}
    {site : Edge.Site} :
    kind = .classify st member t site ↔
      (kind = .eventListener ↔ member.any st.isEventHandler) ∧
      (kind = .entity ↔ ¬ member.any st.isEventHandler ∧ st.isEntity t) ∧
      (kind = .usesComponent ↔ ¬ member.any st.isEventHandler ∧ ¬ st.isEntity t ∧ site.isInjection) := by
  rw [classify]
  generalize member.any st.isEventHandler = handles
  generalize st.isEntity t = entity
  generalize site.isInjection = injected
  cases kind <;> cases handles <;> cases entity <;> cases injected <;> decide

namespace Discovery

variable {d : Discovery} {origin target : Symbol.Id} {x : Mention} {e : Edge}

/-! ### The edge of one mention -/

structure Found (d : Discovery) (origin : Symbol.Id) (x : Mention) (e : Edge) : Prop where
  leads : d.Leads origin x.name e.target
  foreign : x.site = .memberSignature → ¬ d.platform.excludes x.name
  ofOrigin : e.origin = origin
  site : e.site = x.site
  member : e.member = x.member.map (·.name)
  line : e.line = x.line.or (x.member.bind (·.line))
  listener : e.kind = .eventListener ↔ x.member.any d.stereotypes.isEventHandler
  entity : e.kind = .entity ↔
    ¬ x.member.any d.stereotypes.isEventHandler ∧ d.stereotypes.isEntity (d.codebase.symbol e.target)
  component : e.kind = .usesComponent ↔ ¬ x.member.any d.stereotypes.isEventHandler ∧
    ¬ d.stereotypes.isEntity (d.codebase.symbol e.target) ∧ x.site.isInjection

theorem not_isExcluded_of_mem_elsewhere (hx : x ∈ elsewhere s) : ¬ d.isExcluded x := by
  intro hexcluded
  apply not_isInMember_of_mem_elsewhere hx
  rw [(isExcluded_iff.1 hexcluded).1]
  rfl

theorem edge?_eq_some_iff : d.edge? origin x = some e ↔ d.Found origin x e := by
  constructor
  · intro he
    obtain ⟨target, htarget, rfl⟩ := Option.map_eq_some_iff.1 he
    obtain ⟨hforeign, hleads⟩ := target?_eq_some_iff.1 htarget
    obtain ⟨hlistener, hentity, hcomponent⟩ := Edge.Kind.eq_classify_iff.1
      (Eq.refl (Edge.Kind.classify d.stereotypes x.member (d.codebase.symbol target) x.site))
    exact ⟨hleads, fun hsite hplatform ↦ hforeign (isExcluded_iff.2 ⟨hsite, hplatform⟩), rfl, rfl, rfl,
      rfl, hlistener, hentity, hcomponent⟩
  · intro h
    have htarget : d.target? origin x = some e.target := target?_eq_some_iff.2
      ⟨fun hx ↦ h.foreign (isExcluded_iff.1 hx).1 (isExcluded_iff.1 hx).2, h.leads⟩
    have hkind := Edge.Kind.eq_classify_iff.2 ⟨h.listener, h.entity, h.component⟩
    rw [edge?, htarget, Option.map_some, ← hkind, ← h.site, ← h.member, ← h.line, ← h.ofOrigin]

/-! ### The search as one pass -/

/-- What a pass over the edges of mentions has come to: the targets that signatures have shown, and the edges
that it keeps. -/
structure Pass where
  covered : OrderedSet Symbol.Id := .empty
  edges : List Edge := []

namespace Pass

def add (p : Pass) (e : Edge) : Pass :=
  if e.site.isInMember then ⟨p.covered.insert e.target, p.edges ++ [e]⟩
  else if e.target ∈ p.covered then p
  else ⟨p.covered, p.edges ++ [e]⟩

def Faithful (p : Pass) : Prop :=
  ∀ target, target ∈ p.covered ↔ ∃ e ∈ p.edges, e.site.isInMember ∧ e.target = target

variable {p : Pass} {es : List Edge}

theorem Faithful.add (h : p.Faithful) (e : Edge) : (p.add e).Faithful := by
  intro target
  unfold Pass.add
  split
  · rename_i hsite
    simp only [OrderedSet.mem_insert, h target, List.mem_append, List.mem_singleton, or_and_right,
      exists_or, exists_eq_left, hsite, true_and]
    rw [or_comm, eq_comm]
  · rename_i hsite
    -- What is not in a signature leaves the covered targets as they are, whether it is kept or not.
    split
    · exact h target
    · simp [h target, hsite, or_and_right, exists_or]

theorem Faithful.foldl (h : p.Faithful) (es : List Edge) : (es.foldl Pass.add p).Faithful := by
  induction es generalizing p with
  | nil => exact h
  | cons e es ih => exact ih (h.add e)

theorem foldl_add_of_isInMember (hes : ∀ e ∈ es, e.site.isInMember) :
    (es.foldl add p).edges = p.edges ++ es := by
  induction es generalizing p with
  | nil => simp
  | cons e es ih =>
    have he : p.add e = ⟨p.covered.insert e.target, p.edges ++ [e]⟩ := if_pos (hes e (List.mem_cons_self ..))
    rw [List.foldl_cons, ih fun f hf ↦ hes f (List.mem_cons_of_mem _ hf), he, List.append_assoc]
    rfl

theorem foldl_add_of_not_isInMember (hes : ∀ e ∈ es, ¬ e.site.isInMember) :
    (es.foldl add p).edges = p.edges ++ es.filter (·.target ∉ p.covered) := by
  induction es generalizing p with
  | nil => simp
  | cons e es ih =>
    have hsite := hes e (List.mem_cons_self ..)
    rw [List.foldl_cons, ih fun f hf ↦ hes f (List.mem_cons_of_mem _ hf)]
    by_cases hcovered : e.target ∈ p.covered
    · have he : p.add e = p := by rw [add, if_neg hsite, if_pos hcovered]
      rw [he, List.filter_cons_of_neg (by simpa using hcovered)]
    · have he : p.add e = ⟨p.covered, p.edges ++ [e]⟩ := by rw [add, if_neg hsite, if_neg hcovered]
      rw [he, List.filter_cons_of_pos (by simpa using hcovered), List.append_assoc]
      rfl

end Pass

def Shows (d : Discovery) (origin target : Symbol.Id) : Prop :=
  ∃ e ∈ d.edges origin, e.site.isInMember ∧ e.target = target

instance : Decidable (d.Shows origin target) := inferInstanceAs (Decidable (∃ e ∈ _, _ ∧ _))

theorem shows_iff : d.Shows origin target ↔
    ∃ e ∈ (inMembers d.stereotypes (d.codebase.symbol origin)).filterMap (d.edge? origin),
      e.target = target := by
  simp only [← edges_filter, List.mem_filter, and_assoc]
  rfl

theorem edges_eq_pass : d.edges origin = ((((d.codebase.symbol origin).mentions d.stereotypes).filterMap
    (d.edge? origin)).foldl Pass.add {}).edges := by
  have hshown : ∀ e ∈ (inMembers d.stereotypes (d.codebase.symbol origin)).filterMap (d.edge? origin),
      e.site.isInMember := fun _ ↦ isInMember_of_mem_filterMap
  -- The signatures come first, so that all of their targets are covered when the others are met.
  have hedges := Pass.foldl_add_of_isInMember (p := {}) hshown
  have hstart : Pass.Faithful {} := fun target ↦ by simp
  have hcovered := hstart.foldl
    ((inMembers d.stereotypes (d.codebase.symbol origin)).filterMap (d.edge? origin))
  rw [Symbol.mentions, List.filterMap_append, List.foldl_append,
    Pass.foldl_add_of_not_isInMember fun _ ↦ not_isInMember_of_mem_filterMap, hedges, List.nil_append,
    edges]
  refine congrArg _ (List.filter_congr fun e _ ↦ ?_)
  rw [Bool.eq_iff_iff, Bool.not_eq_true', decide_eq_true_eq, hcovered, hedges, List.nil_append,
    ← Bool.not_eq_true, List.contains_iff_mem, List.mem_map]
  refine not_congr (exists_congr fun f ↦ and_congr_right fun hf ↦ ?_)
  rw [and_iff_right (hshown f hf)]

/-- The edge of a mention outside the signatures, unless they show its target. -/
def gapEdge? (d : Discovery) (origin : Symbol.Id) (x : Mention) : Option Edge :=
  (d.edge? origin x).filter fun e ↦ ¬ d.Shows origin e.target

theorem gapEdge?_eq_some_iff :
    d.gapEdge? origin x = some e ↔ d.Found origin x e ∧ ¬ d.Shows origin e.target := by
  rw [gapEdge?, Option.filter_eq_some_iff, edge?_eq_some_iff, decide_eq_true_iff]

theorem edges_eq_append : d.edges origin =
    (inMembers d.stereotypes (d.codebase.symbol origin)).filterMap (d.edge? origin) ++
      (elsewhere (d.codebase.symbol origin)).filterMap (d.gapEdge? origin) := by
  have hgap : d.gapEdge? origin = fun x ↦
      (d.edge? origin x).filter fun e ↦ ¬ d.Shows origin e.target := rfl
  rw [edges, hgap, ← List.filter_filterMap]
  refine congrArg _ (List.filter_congr fun e _ ↦ ?_)
  rw [Bool.eq_iff_iff, Bool.not_eq_true', decide_eq_true_iff, ← Bool.not_eq_true, List.contains_iff_mem,
    List.mem_map, shows_iff]

theorem not_isInMember_of_mem_gapEdges
    (h : e ∈ (elsewhere (d.codebase.symbol origin)).filterMap (d.gapEdge? origin)) :
    ¬ e.site.isInMember := by
  obtain ⟨x, hx, he⟩ := List.mem_filterMap.1 h
  rw [(gapEdge?_eq_some_iff.1 he).1.site]
  exact not_isInMember_of_mem_elsewhere hx

theorem edges_filter_not : (d.edges origin).filter (!·.site.isInMember) =
    (elsewhere (d.codebase.symbol origin)).filterMap (d.gapEdge? origin) := by
  rw [edges_eq_append, List.filter_append,
    List.filter_eq_nil_iff.2 fun e he ↦ by simpa using isInMember_of_mem_filterMap he, List.nil_append,
    List.filter_eq_self.2 fun e he ↦ by simpa using not_isInMember_of_mem_gapEdges he]

theorem edges_sublist : (d.edges origin).Sublist
    (((d.codebase.symbol origin).mentions d.stereotypes).filterMap (d.edge? origin)) := by
  rw [Symbol.mentions, List.filterMap_append, edges]
  exact List.filter_sublist.append_left _

theorem exists_found_of_mem_edges (h : e ∈ d.edges origin) :
    ∃ x ∈ (d.codebase.symbol origin).mentions d.stereotypes, d.Found origin x e := by
  obtain ⟨x, hx, he⟩ := List.mem_filterMap.1 (edges_sublist.subset h)
  exact ⟨x, hx, edge?_eq_some_iff.1 he⟩

theorem edges_pairwise : (d.edges origin).Pairwise fun e f ↦ e.site.phase ≤ f.site.phase := by
  refine List.Pairwise.sublist edges_sublist (List.pairwise_filterMap.2 ?_)
  refine (Symbol.mentions_pairwise _ _).imp fun hle e he f hf ↦ ?_
  rw [(edge?_eq_some_iff.1 he).site, (edge?_eq_some_iff.1 hf).site]
  exact hle

theorem exists_mem_elsewhere_iff {t : String} : (∃ x ∈ elsewhere s, x.name = t) ↔
    ∃ expr ∈ s.references.map (·.target) ++ s.supertypes, t ∈ TypeExpr.names expr := by
  simp only [elsewhere, List.mem_append, List.mem_flatMap, List.mem_map, mem_ofType]
  constructor
  · rintro ⟨x, ⟨r, hr, t, ht, rfl⟩ | ⟨expr, hexpr, t, ht, rfl⟩, rfl⟩
    · exact ⟨r.target, .inl ⟨r, hr, rfl⟩, ht⟩
    · exact ⟨expr, .inr hexpr, ht⟩
  · rintro ⟨expr, ⟨r, hr, rfl⟩ | hexpr, ht⟩
    · exact ⟨_, .inl ⟨r, hr, t, ht, rfl⟩, rfl⟩
    · exact ⟨_, .inr ⟨expr, hexpr, t, ht, rfl⟩, rfl⟩

theorem exists_edge_iff_of_regular (hs : d.codebase.symbol origin = s) (h : s.Regular) :
    (∃ e ∈ d.edges origin, e.target = target) ↔
      (∃ o ∈ s.occurrences, d.Leads origin o.name target ∧
        (o.site d.stereotypes s = .memberSignature → ¬ d.platform.excludes o.name)) ∨
      ∃ expr ∈ s.references.map (·.target) ++ s.supertypes,
        ∃ t ∈ TypeExpr.names expr, d.Leads origin t target := by
  subst hs
  have hperm : (inMembers d.stereotypes (d.codebase.symbol origin)).Perm _ := inMembers_perm h
  constructor
  · intro hy
    obtain ⟨e, he, rfl⟩ := hy
    obtain ⟨x, hx, hfound⟩ := exists_found_of_mem_edges he
    rcases List.mem_append.1 hx with hx | hx
    · obtain ⟨o, ho, rfl⟩ := List.mem_map.1 (hperm.mem_iff.1 hx)
      exact .inl ⟨o, ho, hfound.leads, hfound.foreign⟩
    · obtain ⟨expr, hexpr, ht⟩ := exists_mem_elsewhere_iff.1 ⟨x, hx, rfl⟩
      exact .inr ⟨expr, hexpr, x.name, ht, hfound.leads⟩
  · intro hy
    rcases hy with ⟨o, ho, hleads, hforeign⟩ | ⟨expr, hexpr, t, ht, hleads⟩
    · have htarget : d.target? origin (o.mention d.stereotypes (d.codebase.symbol origin)) = some target :=
        target?_eq_some_iff.2
          ⟨fun hx ↦ hforeign (isExcluded_iff.1 hx).1 (isExcluded_iff.1 hx).2, hleads⟩
      obtain ⟨e, he, htarget, -⟩ :=
        exists_edge_of_mem_inMembers (hperm.mem_iff.2 (List.mem_map_of_mem ho)) htarget
      exact ⟨e, he, htarget⟩
    · obtain ⟨x, hx, rfl⟩ := exists_mem_elsewhere_iff.2 ⟨expr, hexpr, ht⟩
      exact exists_edge_of_mem_elsewhere hx
        (target?_eq_some_iff.2 ⟨not_isExcluded_of_mem_elsewhere hx, hleads⟩)

/-- An occurrence in a body or a supertype that leads to a foreign member has one edge of its own, or a
signature has shown the member. Nothing that the symbol names is lost, and every edge tells of a mention. -/
theorem gap_edges_exact (hc : d.codebase.Reachable) (hs : d.codebase.symbol origin = s) :
    d.edges origin =
      (((s.mentions d.stereotypes).filterMap (d.edge? origin)).foldl Pass.add {}).edges ∧
    (∀ e ∈ d.edges origin, ∀ f ∈ d.edges origin, ¬ e.site.isInMember → f.site.isInMember →
      e.target ≠ f.target) ∧
    (d.edges origin).filter (!·.site.isInMember) = (elsewhere s).filterMap (d.gapEdge? origin) ∧
    (∀ x e, d.gapEdge? origin x = some e ↔ d.Found origin x e ∧ ¬ d.Shows origin e.target) ∧
    (∀ x ∈ elsewhere s, ∀ target, d.Leads origin x.name target →
      (∃ e, d.gapEdge? origin x = some e ∧ e.target = target) ∨
      d.gapEdge? origin x = none ∧ d.Shows origin target) ∧
    (s.Regular → ∀ target, (∃ e ∈ d.edges origin, e.target = target) ↔
      (∃ o ∈ s.occurrences, d.Leads origin o.name target ∧
        (o.site d.stereotypes s = .memberSignature → ¬ d.platform.excludes o.name)) ∨
      ∃ expr ∈ s.references.map (·.target) ++ s.supertypes,
        ∃ t ∈ TypeExpr.names expr, d.Leads origin t target) ∧
    (∀ e ∈ d.edges origin, d.codebase.contains e.target ∧ e.target ≠ origin ∧
      ¬ Namespace.isWithin d.owner (d.codebase.symbol e.target).space) ∧
    (d.edges origin).Pairwise (fun e f ↦ e.site.phase ≤ f.site.phase) ∧
    ∀ e ∈ d.edges origin, ∃ x ∈ s.mentions d.stereotypes, d.Found origin x e := by
  refine ⟨hs ▸ edges_eq_pass, fun e he f hf hgap hshown htarget ↦ ?_, hs ▸ edges_filter_not,
    fun _ _ ↦ gapEdge?_eq_some_iff, fun x hx target hleads ↦ ?_,
    fun h _ ↦ exists_edge_iff_of_regular hs h, fun e he ↦ ?_, edges_pairwise,
    fun _ he ↦ hs ▸ exists_found_of_mem_edges he⟩
  · have hmem : e ∈ (d.edges origin).filter (!·.site.isInMember) :=
      List.mem_filter.2 ⟨he, by simpa using hgap⟩
    rw [edges_filter_not] at hmem
    obtain ⟨x, -, hx⟩ := List.mem_filterMap.1 hmem
    exact (gapEdge?_eq_some_iff.1 hx).2 ⟨f, hf, hshown, htarget.symm⟩
  · obtain ⟨e, he, htarget, -⟩ :=
      exists_edge? (target?_eq_some_iff.2 ⟨not_isExcluded_of_mem_elsewhere hx, hleads⟩)
    subst htarget
    by_cases hshown : d.Shows origin e.target
    · refine .inr ⟨?_, hshown⟩
      rw [gapEdge?, he]
      simpa using hshown
    · exact .inl ⟨e, gapEdge?_eq_some_iff.2 ⟨edge?_eq_some_iff.1 he, hshown⟩, rfl⟩
  · obtain ⟨x, -, hfound⟩ := exists_found_of_mem_edges he
    obtain ⟨hfind, hne, howner⟩ := hfound.leads
    exact ⟨(hc.coherent.find?_eq_some_iff.1 hfind).1, hne, howner⟩

/-! ### A symbol that fills gaps -/

def clerk : Symbol where
  name := "shop.orders.Clerk"
  space := "shop.orders"
  supertypes := ["shop.stock.Shelf<shop.stock.Item>"]
  members := [
    .newConstructor ["shop.stock.Item"],
    ((Member.newMethod "on" ["int"] none).tagged "event_listener").atLine 42]
  references := [
    { target := "shop.stock.Item", member := some "on" },
    { target := "shop.stock.Changed", member := some "on" }]

def clerkDiscovery : Discovery where
  codebase := Codebase.index
    #[clerk, .ofName "shop.stock.Changed", .ofName "shop.stock.Item", .ofName "shop.stock.Shelf"]
    (.replicate 4 true) .empty
  stereotypes := .usual
  platform := .usual
  owner := "shop.orders"

theorem clerkDiscovery_reachable : clerkDiscovery.codebase.Reachable :=
  @Codebase.Reachable.assembled clerkDiscovery.codebase.arena.toList [] _ rfl

/-- Of the four uses outside the signatures two name the item, which the constructor shows. -/
theorem gap_edges_exact_clerk :
    clerkDiscovery.codebase.Reachable ∧ clerkDiscovery.codebase.symbol 0 = clerk ∧ clerk.Regular ∧
      (elsewhere clerk).length = 4 ∧
      (elsewhere clerk).filterMap (clerkDiscovery.gapEdge? 0) = [
        ⟨0, 1, .eventListener, .staticReference, some "on", some 42⟩,
        ⟨0, 3, .plain, .supertype, none, none⟩] ∧
      (clerkDiscovery.edges 0).map (·.site) = [.injectionConstructor, .staticReference, .supertype] ∧
      (clerkDiscovery.edges 0).filter (!·.site.isInMember) =
        (elsewhere clerk).filterMap (clerkDiscovery.gapEdge? 0) ∧
      ∃ e ∈ clerkDiscovery.edges 0, e.target = 3 := by
  have hs : clerkDiscovery.codebase.symbol 0 = clerk := rfl
  have hregular : clerk.Regular := ⟨by decide, by decide⟩
  obtain ⟨-, -, hgaps, -, -, htargets, -⟩ := gap_edges_exact clerkDiscovery_reachable hs
  have hshelf := (htargets hregular 3).2 (.inr
    ⟨"shop.stock.Shelf<shop.stock.Item>", by decide, "shop.stock.Shelf", by decide,
      by decide, by decide, by decide⟩)
  exact ⟨clerkDiscovery_reachable, hs, hregular, by decide +kernel, by decide +kernel,
    by decide +kernel, hgaps, hshelf⟩

end Discovery

end Modularity
