import Modularity.Proofs.Codebase.Listing
import Modularity.Proofs.Edge.Gaps

namespace Modularity

open Mention

variable {st : Stereotypes} {s : Symbol} {ms : List Member}

/-- A map of a list is a permutation of another one only if they are equal, provided that a value
which they do not have in common comes from the second map only where it comes from the first. -/
theorem perm_map_iff {α β : Type} [DecidableEq β] {f g : α → β} {us : List α}
    (h : ∀ u ∈ us, f u ≠ g u → ∀ w ∈ us, g w = f u → f w = f u) :
    (us.map f).Perm (us.map g) ↔ ∀ u ∈ us, f u = g u := by
  constructor
  · intro hperm u hu
    apply Classical.byContradiction
    intro hne
    have hcount := (hperm.filter fun b ↦ b = f u).length_eq
    rw [List.filter_map, List.filter_map, List.length_map, List.length_map] at hcount
    -- Where the second map gives the value, so does the first: the equal counts leave no room for `u`.
    have hfilter : us.filter ((fun b ↦ decide (b = f u)) ∘ g) =
        (us.filter ((fun b ↦ decide (b = f u)) ∘ f)).filter ((fun b ↦ decide (b = f u)) ∘ g) := by
      rw [List.filter_filter]
      refine List.filter_congr fun w hw ↦ ?_
      have hother := h u hu hne w hw
      by_cases hgw : g w = f u <;> simp [hgw, hother]
    have hsub : (us.filter ((fun b ↦ decide (b = f u)) ∘ g)).Sublist
        (us.filter ((fun b ↦ decide (b = f u)) ∘ f)) := by
      rw [hfilter]
      exact List.filter_sublist
    have hmem : u ∈ us.filter ((fun b ↦ decide (b = f u)) ∘ g) := by
      rw [hsub.eq_of_length hcount.symm]
      exact List.mem_filter.2 ⟨hu, by simp⟩
    have hgu : g u = f u := by simpa using (List.mem_filter.1 hmem).2
    exact hne hgu.symm
  · intro hsame
    rw [List.map_congr_left hsame]

/-! ### Mentions -/

theorem isInjectionConstructor_listing (h : ms.Perm s.members) (m : Member) :
    isInjectionConstructor st (s.listing ms) m = isInjectionConstructor st s m := by
  have hconstructors : (s.listing ms).constructors.Perm s.constructors := h.filter _
  rw [isInjectionConstructor, isInjectionConstructor, hconstructors.any_eq, hconstructors.length_eq]

theorem inMembers_listing (h : ms.Perm s.members) :
    (inMembers st (s.listing ms)).Perm (inMembers st s) := by
  have hsame : isInjectionConstructor st (s.listing ms) = isInjectionConstructor st s :=
    funext (isInjectionConstructor_listing h)
  have hsignature : inSignature st (s.listing ms) = inSignature st s := by
    funext m
    rw [inSignature, inSignature, hsame]
  rw [inMembers, inMembers, inConstructors, inConstructors, hsame, hsignature]
  exact (((h.filter _).flatMap_right _).append (h.flatMap_right _)).append (h.flatMap_right _)

theorem Symbol.name_of_member? {name : String} {m : Member} (h : s.member? name = some m) :
    m.name = name := by
  simpa using List.find?_some h

theorem map_name_member? (s : Symbol) (name : String) :
    (s.member? name).map (·.name) = if name ∈ s.members.map (·.name) then some name else none := by
  cases hfind : s.member? name with
  | none =>
    rw [Symbol.member?, List.find?_eq_none] at hfind
    rw [if_neg]
    · rfl
    · intro hmem
      obtain ⟨m, hm, hname⟩ := List.mem_map.1 hmem
      exact hfind m hm (decide_eq_true hname)
  | some m =>
    have hname := Symbol.name_of_member? hfind
    rw [if_pos (List.mem_map.2 ⟨m, List.mem_of_find?_eq_some hfind, hname⟩), Option.map_some, hname]

theorem map_name_member?_listing (h : ms.Perm s.members) (name : String) :
    ((s.listing ms).member? name).map (·.name) = (s.member? name).map (·.name) := by
  have hnames := h.map (·.name)
  rw [map_name_member?, map_name_member?]
  simp only [← hnames.mem_iff]
  rfl

def Reference.memberIn (s : Symbol) (r : Reference) : Option Member := r.member.bind s.member?

/-- In two versions of a symbol the members that a use names tell the same about it. -/
structure Reference.ReadsAlike (st : Stereotypes) (s s' : Symbol) (r : Reference) : Prop where
  handler : (r.memberIn s').any st.isEventHandler = (r.memberIn s).any st.isEventHandler
  line : r.line = none → (r.memberIn s').bind (·.line) = (r.memberIn s).bind (·.line)

theorem map_name_memberIn_listing (h : ms.Perm s.members) (r : Reference) :
    (r.memberIn (s.listing ms)).map (·.name) = (r.memberIn s).map (·.name) := by
  rw [Reference.memberIn, Reference.memberIn]
  cases r.member with
  | none => rfl
  | some name => exact map_name_member?_listing h name

theorem Reference.memberIn_eq_bind (s : Symbol) (r : Reference) :
    r.memberIn s = ((r.memberIn s).map (·.name)).bind s.member? := by
  cases hmember : r.memberIn s with
  | none => rfl
  | some m =>
    obtain ⟨name, -, hfind⟩ := Option.bind_eq_some_iff.1 hmember
    rw [Option.map_some, Option.bind_some, Symbol.name_of_member? hfind, hfind]

/-- The edge without what a use in a body takes from the member that it names. -/
def Edge.unread (e : Edge) : Edge :=
  if e.site = .staticReference then { e with kind := .plain, line := none } else e

namespace Discovery

variable {d : Discovery} {origin target : Symbol.Id} {r : Reference}

def listing (d : Discovery) (origin : Symbol.Id) (ms : List Member) : Discovery :=
  { d with codebase := d.codebase.listing origin ms }

theorem symbol_listing (h : ms.Perm (d.codebase.symbol origin).members) :
    (d.listing origin ms).codebase.symbol origin = (d.codebase.symbol origin).listing ms :=
  Codebase.symbol_listing_of_perm h

theorem symbol_listing_of_ne (h : target ≠ origin) :
    (d.listing origin ms).codebase.symbol target = d.codebase.symbol target :=
  Codebase.symbol_listing_of_ne h

theorem target?_listing : (d.listing origin ms).target? origin = d.target? origin := by
  funext x
  simp only [target?, listing, Codebase.find?_listing, Codebase.space_symbol_listing]
  rfl

theorem edge?_listing : (d.listing origin ms).edge? origin = d.edge? origin := by
  funext x
  rw [edge?, edge?, target?_listing]
  -- No edge leads to the origin, so the kind of an edge never depends on the origin's members.
  refine Option.map_congr fun target htarget ↦ ?_
  rw [symbol_listing_of_ne (target?_eq_some_iff.1 htarget).2.2.1]
  rfl

/-! ### The uses in bodies -/

def gapTarget? (d : Discovery) (origin : Symbol.Id) (t : String) : Option Symbol.Id :=
  (d.target? origin ⟨t, .staticReference, none, none⟩).filter fun target ↦ ¬ d.Shows origin target

theorem gapTarget?_eq_some_iff {t : String} :
    d.gapTarget? origin t = some target ↔ d.Leads origin t target ∧ ¬ d.Shows origin target := by
  have hplace : ¬ d.isExcluded ⟨t, .staticReference, none, none⟩ := by simp [isExcluded]
  rw [gapTarget?, Option.filter_eq_some_iff, target?_eq_some_iff, and_iff_right hplace, decide_eq_true_iff]

def gapUses (d : Discovery) (origin : Symbol.Id) : List (Reference × Symbol.Id) :=
  (d.codebase.symbol origin).references.flatMap fun r ↦
    (TypeExpr.names r.target).filterMap fun t ↦ (d.gapTarget? origin t).map (r, ·)

theorem mem_gapUses : (r, target) ∈ d.gapUses origin ↔
    r ∈ (d.codebase.symbol origin).references ∧
      ∃ t ∈ TypeExpr.names r.target, d.Leads origin t target ∧ ¬ d.Shows origin target := by
  simp only [gapUses, List.mem_flatMap, List.mem_filterMap, Option.map_eq_some_iff, Prod.mk.injEq,
    gapTarget?_eq_some_iff]
  constructor
  · rintro ⟨q, hq, t, ht, target', h, rfl, rfl⟩
    exact ⟨hq, t, ht, h⟩
  · rintro ⟨hr, t, ht, h⟩
    exact ⟨r, hr, t, ht, target, h, rfl, rfl⟩

def useEdge (d : Discovery) (origin : Symbol.Id) (s : Symbol) (u : Reference × Symbol.Id) : Edge where
  origin := origin
  target := u.2
  kind := .classify d.stereotypes (u.1.memberIn s) (d.codebase.symbol u.2) .staticReference
  site := .staticReference
  member := (u.1.memberIn s).map (·.name)
  line := u.1.line.or ((u.1.memberIn s).bind (·.line))

theorem gapEdges_of_references : ((d.codebase.symbol origin).references.flatMap fun r ↦
      ofType .staticReference (r.memberIn (d.codebase.symbol origin)) r.line r.target).filterMap
        (d.gapEdge? origin) =
    (d.gapUses origin).map (d.useEdge origin (d.codebase.symbol origin)) := by
  rw [List.filterMap_flatMap, gapUses, List.map_flatMap]
  refine List.flatMap_congr fun r _ ↦ ?_
  rw [ofType, List.filterMap_map, List.map_filterMap]
  refine List.filterMap_congr fun t _ ↦ ?_
  rw [Function.comp_apply, gapEdge?, edge?, gapTarget?, Option.map_map, Option.filter_map]
  rfl

theorem edges_eq_uses : d.edges origin =
    (inMembers d.stereotypes (d.codebase.symbol origin)).filterMap (d.edge? origin) ++
      ((d.gapUses origin).map (d.useEdge origin (d.codebase.symbol origin)) ++
        ((d.codebase.symbol origin).supertypes.flatMap (ofType .supertype none none)).filterMap
          (d.gapEdge? origin)) := by
  rw [edges_eq_append, ← gapEdges_of_references, elsewhere, List.filterMap_append]
  rfl

/-! ### Two versions -/

theorem shown_listing (h : ms.Perm (d.codebase.symbol origin).members) :
    ((inMembers d.stereotypes ((d.codebase.symbol origin).listing ms)).filterMap (d.edge? origin)).Perm
      ((inMembers d.stereotypes (d.codebase.symbol origin)).filterMap (d.edge? origin)) :=
  (inMembers_listing h).filterMap _

theorem shows_listing (h : ms.Perm (d.codebase.symbol origin).members) :
    (d.listing origin ms).Shows origin = d.Shows origin := by
  funext target
  rw [eq_iff_iff, shows_iff, shows_iff, edge?_listing, symbol_listing h]
  exact exists_congr fun e ↦ and_congr_left fun _ ↦ (shown_listing h).mem_iff

theorem gapEdge?_listing (h : ms.Perm (d.codebase.symbol origin).members) :
    (d.listing origin ms).gapEdge? origin = d.gapEdge? origin := by
  funext x
  simp only [gapEdge?, edge?_listing, shows_listing h]

theorem gapUses_listing (h : ms.Perm (d.codebase.symbol origin).members) :
    (d.listing origin ms).gapUses origin = d.gapUses origin := by
  simp only [gapUses, gapTarget?, target?_listing, shows_listing h, symbol_listing h]
  rfl

theorem map_useEdge_listing : (d.gapUses origin).map ((d.listing origin ms).useEdge origin s) =
    (d.gapUses origin).map (d.useEdge origin s) := by
  refine List.map_congr_left fun u hu ↦ ?_
  obtain ⟨-, t, -, hleads, -⟩ := mem_gapUses.1 hu
  rw [useEdge, symbol_listing_of_ne hleads.2.1]
  rfl

theorem classify_static_eq_iff {member member' : Option Member} {t : Symbol} :
    Edge.Kind.classify st member' t .staticReference = Edge.Kind.classify st member t .staticReference ↔
      member'.any st.isEventHandler = member.any st.isEventHandler := by
  rw [Edge.Kind.classify, Edge.Kind.classify]
  cases member'.any st.isEventHandler <;> cases member.any st.isEventHandler <;>
    cases st.isEntity t <;> decide

theorem useEdge_eq_iff (h : ms.Perm s.members) {u : Reference × Symbol.Id} :
    d.useEdge origin (s.listing ms) u = d.useEdge origin s u ↔
      u.1.ReadsAlike d.stereotypes s (s.listing ms) := by
  rw [useEdge, useEdge, Edge.mk.injEq, map_name_memberIn_listing h, classify_static_eq_iff]
  simp only [true_and]
  constructor
  · intro hsame
    obtain ⟨hhandler, hline⟩ := hsame
    refine ⟨hhandler, fun hnone ↦ ?_⟩
    rwa [hnone, Option.none_or, Option.none_or] at hline
  · intro hsame
    refine ⟨hsame.handler, ?_⟩
    cases hline : u.1.line with
    | none => rw [hsame.line hline]
    | some line => rfl

theorem useEdge_collision (h : ms.Perm s.members) {u w : Reference × Symbol.Id}
    (hne : d.useEdge origin (s.listing ms) u ≠ d.useEdge origin s u)
    (hw : d.useEdge origin s w = d.useEdge origin (s.listing ms) u) :
    d.useEdge origin (s.listing ms) w = d.useEdge origin (s.listing ms) u := by
  obtain ⟨-, htarget, hkind, -, hname, hline⟩ := Edge.mk.inj hw
  -- Both uses give the same name, so that they read the same member in each of the versions.
  rw [map_name_memberIn_listing h] at hname
  have hold : w.1.memberIn s = u.1.memberIn s := by
    rw [w.1.memberIn_eq_bind s, hname, ← u.1.memberIn_eq_bind s]
  have hnew : w.1.memberIn (s.listing ms) = u.1.memberIn (s.listing ms) := by
    rw [w.1.memberIn_eq_bind (s.listing ms), map_name_memberIn_listing h, hname,
      ← map_name_memberIn_listing h, ← u.1.memberIn_eq_bind (s.listing ms)]
  rw [hold, htarget, eq_comm, classify_static_eq_iff] at hkind
  rw [hold] at hline
  -- The kinds agree, so it is the line that the versions tell differently, and a line that `w` has itself
  -- is the same in both.
  have hlines : u.1.line = none ∧
      (u.1.memberIn (s.listing ms)).bind (·.line) ≠ (u.1.memberIn s).bind (·.line) := by
    apply Classical.byContradiction
    intro hlines
    refine hne ((useEdge_eq_iff h).2 ⟨hkind, fun hnone ↦ ?_⟩)
    exact Classical.not_not.1 fun hdiffers ↦ hlines ⟨hnone, hdiffers⟩
  obtain ⟨hnone, hdiffers⟩ := hlines
  rw [hnone, Option.none_or] at hline
  rw [useEdge, useEdge, htarget, hnew, hnone, Option.none_or]
  cases hown : w.1.line with
  | none =>
    rw [hown, Option.none_or] at hline
    exact absurd hline.symm hdiffers
  | some line =>
    rw [hown] at hline
    rw [← hline]
    rfl

theorem map_unread_useEdge_listing (h : ms.Perm s.members) (us : List (Reference × Symbol.Id)) :
    (us.map (d.useEdge origin (s.listing ms))).map Edge.unread =
      (us.map (d.useEdge origin s)).map Edge.unread := by
  rw [List.map_map, List.map_map]
  refine List.map_congr_left fun u _ ↦ ?_
  rw [Function.comp_apply, Function.comp_apply, useEdge, useEdge, map_name_memberIn_listing h]
  rfl

theorem edges_listing_eq (h : ms.Perm (d.codebase.symbol origin).members) :
    (d.listing origin ms).edges origin =
      (inMembers d.stereotypes ((d.codebase.symbol origin).listing ms)).filterMap (d.edge? origin) ++
      ((d.gapUses origin).map (d.useEdge origin ((d.codebase.symbol origin).listing ms)) ++
        ((d.codebase.symbol origin).supertypes.flatMap (ofType .supertype none none)).filterMap
          (d.gapEdge? origin)) := by
  rw [edges_eq_uses, symbol_listing h, edge?_listing, gapEdge?_listing h, gapUses_listing h,
    map_useEdge_listing]
  rfl

theorem filter_map_useEdge (us : List (Reference × Symbol.Id)) :
    (us.map (d.useEdge origin s)).filter (·.site ≠ .staticReference) = [] := by
  rw [List.filter_eq_nil_iff]
  intro e he
  obtain ⟨u, -, rfl⟩ := List.mem_map.1 he
  simp [useEdge]

/-- The order of the members does not matter to signatures and supertypes, nor to what a use in a body
leads to. All of the edges are the same exactly if the first members of the names that uses give tell the
same about them. -/
theorem edges_listing (hs : d.codebase.symbol origin = s) (hms : ms.Perm s.members) :
    (d.listing origin ms).codebase.symbol origin = s.listing ms ∧
    (∀ i, i ≠ origin → (d.listing origin ms).codebase.symbol i = d.codebase.symbol i) ∧
    (d.codebase.Reachable → (d.listing origin ms).codebase.Reachable) ∧
    (∀ symbols ds, Codebase.assemble symbols ds = .ok d.codebase → origin < d.codebase.arena.size →
      Codebase.assemble (symbols.map (·.listingOf s.name ms)) ds = .ok (d.listing origin ms).codebase) ∧
    (((d.listing origin ms).edges origin).filter (·.site ≠ .staticReference)).Perm
      ((d.edges origin).filter (·.site ≠ .staticReference)) ∧
    (((d.listing origin ms).edges origin).map Edge.unread).Perm ((d.edges origin).map Edge.unread) ∧
    (((d.listing origin ms).edges origin).Perm (d.edges origin) ↔
      ∀ r ∈ s.references, ∀ t ∈ TypeExpr.names r.target, ∀ target, d.Leads origin t target →
        ¬ d.Shows origin target → r.ReadsAlike d.stereotypes s (s.listing ms)) := by
  subst hs
  refine ⟨symbol_listing hms, fun _ hi ↦ symbol_listing_of_ne hi,
    fun hc ↦ hc.listing origin ms, fun _ _ h hid ↦ Codebase.assemble_listing h hid, ?_, ?_, ?_⟩
  · rw [edges_listing_eq hms, edges_eq_uses, List.filter_append, List.filter_append, List.filter_append,
      List.filter_append, filter_map_useEdge, filter_map_useEdge]
    exact ((shown_listing hms).filter _).append_right _
  · rw [edges_listing_eq hms, edges_eq_uses, List.map_append, List.map_append, List.map_append,
      List.map_append, map_unread_useEdge_listing hms]
    exact ((shown_listing hms).map _).append_right _
  · have huses : ((d.gapUses origin).map (d.useEdge origin ((d.codebase.symbol origin).listing ms))).Perm
          ((d.gapUses origin).map (d.useEdge origin (d.codebase.symbol origin))) ↔ _ :=
      perm_map_iff fun _ _ hne _ _ hw ↦ useEdge_collision hms hne hw
    rw [edges_listing_eq hms, edges_eq_uses, ((shown_listing hms).append_right _).congr_left,
      List.perm_append_left_iff, List.perm_append_right_iff, huses]
    constructor
    · intro hsame r hr t ht target hleads hshows
      exact (useEdge_eq_iff hms).1 (hsame (r, target) (mem_gapUses.2 ⟨hr, t, ht, hleads, hshows⟩))
    · intro halike u hu
      obtain ⟨hr, t, ht, hleads, hshows⟩ := mem_gapUses.1 hu
      exact (useEdge_eq_iff hms).2 (halike u.1 hr t ht u.2 hleads hshows)

/-! ### Members that share a name -/

def counter : Symbol where
  name := "shop.orders.Counter"
  space := "shop.orders"
  members := [
    (Member.newConstructor ["shop.stock.Item"]).tagged "inject",
    (Member.newConstructor ["shop.stock.Shelf"]).tagged "inject",
    (Member.newField "on" "shop.stock.Item").atLine 7,
    (Member.newMethod "on" ["shop.stock.Shelf"] none).atLine 9]
  references := [{ target := "shop.stock.Changed", member := some "on", line := some 8 }]

def counterDiscovery : Discovery where
  codebase := Codebase.index
    #[counter, .ofName "shop.stock.Changed", .ofName "shop.stock.Item", .ofName "shop.stock.Shelf"]
    (.replicate 4 true) .empty
  stereotypes := .usual
  platform := .usual
  owner := "shop.orders"

/-- The use has a line of its own, so that it does not matter which of the two members it stands in. -/
theorem edges_listing_counter :
    counterDiscovery.codebase.symbol 0 = counter ∧ counter.members.reverse.Perm counter.members ∧
      (counterDiscovery.edges 0).length = 5 ∧
      (counterDiscovery.listing 0 counter.members.reverse).edges 0 ≠ counterDiscovery.edges 0 ∧
      ((counterDiscovery.listing 0 counter.members.reverse).edges 0).Perm (counterDiscovery.edges 0) := by
  have hs : counterDiscovery.codebase.symbol 0 = counter := rfl
  have hms : counter.members.reverse.Perm counter.members := List.reverse_perm _
  obtain ⟨-, -, -, -, -, -, hperm⟩ := edges_listing hs hms
  refine ⟨hs, hms, by decide +kernel, by decide +kernel, hperm.2 fun r hr t _ target _ _ ↦ ?_⟩
  rw [List.mem_singleton.1 hr]
  exact ⟨by decide +kernel, by decide⟩

def desk : Symbol where
  name := "shop.orders.Desk"
  space := "shop.orders"
  members := [
    ((Member.newMethod "on" [] none).tagged "event_listener").atLine 7,
    (Member.newMethod "on" ["int"] none).atLine 9]
  references := [{ target := "shop.stock.Changed", member := some "on" }]

def deskDiscovery : Discovery where
  codebase := Codebase.index #[desk, .ofName "shop.stock.Changed"] (.replicate 2 true) .empty
  stereotypes := .usual
  platform := .usual
  owner := "shop.orders"

theorem deskDiscovery_reachable : deskDiscovery.codebase.Reachable :=
  @Codebase.Reachable.assembled deskDiscovery.codebase.arena.toList [] _ rfl

/-- With its methods the other way round the symbol has an edge of another kind and at another line. -/
theorem desk_reversed :
    deskDiscovery.codebase.Reachable ∧
      (deskDiscovery.listing 0 desk.members.reverse).codebase.Reachable ∧
      deskDiscovery.codebase.symbol 0 = desk ∧ desk.members.reverse.Perm desk.members ∧
      deskDiscovery.edges 0 = [⟨0, 1, .eventListener, .staticReference, some "on", some 7⟩] ∧
      (deskDiscovery.listing 0 desk.members.reverse).edges 0 =
        [⟨0, 1, .plain, .staticReference, some "on", some 9⟩] ∧
      ¬ ((deskDiscovery.listing 0 desk.members.reverse).edges 0).Perm (deskDiscovery.edges 0) := by
  have hedges : deskDiscovery.edges 0 = [⟨0, 1, .eventListener, .staticReference, some "on", some 7⟩] := by
    decide +kernel
  have hreversed : (deskDiscovery.listing 0 desk.members.reverse).edges 0 =
      [⟨0, 1, .plain, .staticReference, some "on", some 9⟩] := by
    decide +kernel
  refine ⟨deskDiscovery_reachable, deskDiscovery_reachable.listing _ _, rfl, List.reverse_perm _, hedges,
    hreversed, ?_⟩
  rw [hedges, hreversed, List.singleton_perm_singleton]
  decide

end Discovery

end Modularity
