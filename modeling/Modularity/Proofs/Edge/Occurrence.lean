import Modularity.Proofs.Edge.Discovery
import Mathlib.Data.List.Basic

namespace Modularity

inductive Occurrence.Part where
  | parameter
  | value
deriving DecidableEq

structure Occurrence where
  member : Member
  part : Occurrence.Part
  name : String
deriving DecidableEq

def Member.occurrences (m : Member) : List Occurrence :=
  (m.parameterTypes.flatMap TypeExpr.names).map (⟨m, .parameter, ·⟩) ++
    (m.valueType.toList.flatMap TypeExpr.names).map (⟨m, .value, ·⟩)

def Symbol.occurrences (s : Symbol) : List Occurrence := s.members.flatMap Member.occurrences

structure Symbol.Regular (s : Symbol) : Prop where
  constructors : ∀ m ∈ s.members, m.kind = .constructor → m.valueType = none
  fields : ∀ m ∈ s.members, m.kind = .field → m.parameterTypes = []

instance {st : Stereotypes} {s : Symbol} {m : Member} : Decidable (IsInjected st s m) :=
  inferInstanceAs (Decidable (_ ∧ _))

/-- The site of a type in the signature of a member. The parameters of an injected constructor or of a
method that is marked for injection are injected, and so is the type of a field that is marked; every
other type is a plain part of a signature. -/
def Member.siteOf (st : Stereotypes) (s : Symbol) (m : Member) : Occurrence.Part → Edge.Site
  | .parameter =>
    if IsInjected st s m then .injectionConstructor
    else if m.kind = .method ∧ st.isInjectionPoint m then .injectionMethod
    else .memberSignature
  | .value => if m.kind = .field ∧ st.isInjectionPoint m then .injectedField else .memberSignature

namespace Occurrence

def site (st : Stereotypes) (s : Symbol) (o : Occurrence) : Edge.Site := o.member.siteOf st s o.part

def mention (st : Stereotypes) (s : Symbol) (o : Occurrence) : Mention :=
  ⟨o.name, o.site st s, some o.member, none⟩

end Occurrence

def Symbol.mentionsAt (st : Stereotypes) (s : Symbol) (sites : List Edge.Site) : List Mention :=
  (s.occurrences.filter fun o ↦ o.site st s ∈ sites).map (·.mention st s)

variable {st : Stereotypes} {s : Symbol} {m : Member} {sites : List Edge.Site}

open Mention

theorem Member.siteOf_cases (st : Stereotypes) (s : Symbol) (m : Member) (part : Occurrence.Part) :
    m.siteOf st s part = .injectionConstructor ∨
      (m.siteOf st s part = .injectedField ∨ m.siteOf st s part = .injectionMethod) ∨
        m.siteOf st s part = .memberSignature := by
  cases part with
  | parameter =>
    rw [Member.siteOf]
    split
    · simp
    · split <;> simp
  | value =>
    rw [Member.siteOf]
    split <;> simp

theorem IsInjected.kind (h : IsInjected st s m) : m.kind = .constructor := by
  simpa using (List.mem_filter.1 h.1).2

theorem isInjected_of_isInjectionPoint (hm : m ∈ s.members) (hkind : m.kind = .constructor)
    (hpoint : st.isInjectionPoint m) : IsInjected st s m :=
  ⟨List.mem_filter.2 ⟨hm, by simpa using hkind⟩, .inl hpoint⟩

/-! ### The passes of the search -/

def Member.typesAt (st : Stereotypes) (s : Symbol) (sites : List Edge.Site) (m : Member) :
    List Mention :=
  (if m.siteOf st s .parameter ∈ sites then ofParameters (m.siteOf st s .parameter) m else []) ++
    if m.siteOf st s .value ∈ sites then ofValue (m.siteOf st s .value) m else []

theorem Member.typesAt_eq (sites : List Edge.Site) (m : Member) :
    m.typesAt st s sites =
      (m.occurrences.filter fun o ↦ o.site st s ∈ sites).map (·.mention st s) := by
  have hpart : ∀ (part : Occurrence.Part) (names : List String),
      ((names.map fun name ↦ (⟨m, part, name⟩ : Occurrence)).filter fun o ↦ o.site st s ∈ sites).map
          (·.mention st s) =
        if m.siteOf st s part ∈ sites then names.map (⟨·, m.siteOf st s part, some m, none⟩)
        else [] := by
    intro part names
    have hsame : ((fun o : Occurrence ↦ decide (o.site st s ∈ sites)) ∘ fun name ↦ ⟨m, part, name⟩) =
        fun _ ↦ decide (m.siteOf st s part ∈ sites) := rfl
    rw [List.filter_map, List.map_map, hsame]
    by_cases hsite : m.siteOf st s part ∈ sites
    · rw [if_pos hsite, List.filter_eq_self.2 fun _ _ ↦ decide_eq_true hsite]
      rfl
    · simp [hsite]
  have hparameters : ∀ site, ofParameters site m =
      (m.parameterTypes.flatMap TypeExpr.names).map (⟨·, site, some m, none⟩) :=
    fun site ↦ by rw [List.map_flatMap]; rfl
  have hvalue : ∀ site, ofValue site m =
      (m.valueType.toList.flatMap TypeExpr.names).map (⟨·, site, some m, none⟩) :=
    fun site ↦ by rw [List.map_flatMap]; rfl
  rw [typesAt, occurrences, List.filter_append, List.map_append, hpart, hpart, hparameters, hvalue]

/-- A pass over the members that takes the types of some sites from each takes the occurrences that
belong to these sites. -/
theorem Symbol.flatMap_eq_mentionsAt {pass : Member → List Mention}
    (h : ∀ m ∈ s.members, pass m = m.typesAt st s sites) :
    s.members.flatMap pass = s.mentionsAt st sites := by
  rw [mentionsAt, occurrences, List.filter_flatMap, List.map_flatMap]
  exact List.flatMap_congr fun m hm ↦ (h m hm).trans (m.typesAt_eq sites)

theorem flatMap_filter_eq {α β : Type} (p : α → Bool) (f : α → List β) (xs : List α) :
    (xs.filter p).flatMap f = xs.flatMap fun x ↦ if p x then f x else [] := by
  induction xs with
  | nil => rfl
  | cons x xs ih =>
    rw [List.flatMap_cons, ← ih]
    by_cases hx : p x <;> simp [hx]

theorem inConstructors_eq (st : Stereotypes) (s : Symbol) :
    inConstructors st s = s.mentionsAt st [.injectionConstructor] := by
  rw [inConstructors, flatMap_filter_eq]
  refine Symbol.flatMap_eq_mentionsAt fun m hm ↦ ?_
  have hcall : isInjectionConstructor st s m ↔ IsInjected st s m := isInjectionConstructor_iff hm
  by_cases hinj : IsInjected st s m
  · simp [Member.typesAt, Member.siteOf, hcall.2 hinj, hinj, hinj.kind]
  · have hparameter : m.siteOf st s .parameter ≠ .injectionConstructor := by
      rw [Member.siteOf, if_neg hinj]
      split <;> decide
    have hvalue : m.siteOf st s .value ≠ .injectionConstructor := by
      rw [Member.siteOf]
      split <;> decide
    simp [Member.typesAt, mt hcall.1 hinj, hparameter, hvalue]

theorem injected_eq (st : Stereotypes) (s : Symbol) :
    s.members.flatMap (injected st) = s.mentionsAt st [.injectedField, .injectionMethod] := by
  refine Symbol.flatMap_eq_mentionsAt fun m _ ↦ ?_
  have hkind : m.kind ≠ .constructor → ¬ IsInjected st s m := fun hne hinj ↦ hne hinj.kind
  cases hm : m.kind with
  | constructor =>
    by_cases hinj : IsInjected st s m <;> simp [injected, Member.typesAt, Member.siteOf, hm, hinj]
  | field =>
    have hinj : ¬ IsInjected st s m := hkind (by simp [hm])
    by_cases hpoint : st.isInjectionPoint m <;>
      simp [injected, Member.typesAt, Member.siteOf, hm, hinj, hpoint]
  | method =>
    have hinj : ¬ IsInjected st s m := hkind (by simp [hm])
    by_cases hpoint : st.isInjectionPoint m <;>
      simp [injected, Member.typesAt, Member.siteOf, hm, hinj, hpoint]

theorem inSignature_eq (h : s.Regular) :
    s.members.flatMap (inSignature st s) = s.mentionsAt st [.memberSignature] := by
  refine Symbol.flatMap_eq_mentionsAt fun m hm ↦ ?_
  have hkind : m.kind ≠ .constructor → ¬ IsInjected st s m := fun hne hinj ↦ hne hinj.kind
  have hcall : isInjectionConstructor st s m ↔ IsInjected st s m := isInjectionConstructor_iff hm
  cases hm' : m.kind with
  | constructor =>
    have hvalue : ofValue .memberSignature m = [] := by
      simp [ofValue, h.constructors m hm hm']
    by_cases hinj : IsInjected st s m
    · simp [inSignature, Member.typesAt, Member.siteOf, hcall.2 hinj, hinj, hm', hvalue]
    · have hpoint : ¬ st.isInjectionPoint m := fun hpoint ↦
        hinj (isInjected_of_isInjectionPoint hm hm' hpoint)
      simp [inSignature, Member.typesAt, Member.siteOf, mt hcall.1 hinj, hinj, hm', hpoint, hvalue]
  | field =>
    have hinj : ¬ IsInjected st s m := hkind (by simp [hm'])
    have hparameters : ofParameters .memberSignature m = [] := by
      simp [ofParameters, h.fields m hm hm']
    by_cases hpoint : st.isInjectionPoint m <;>
      simp [inSignature, Member.typesAt, Member.siteOf, mt hcall.1 hinj, hinj, hm', hpoint, hparameters]
  | method =>
    have hinj : ¬ IsInjected st s m := hkind (by simp [hm'])
    by_cases hpoint : st.isInjectionPoint m <;>
      simp [inSignature, Member.typesAt, Member.siteOf, mt hcall.1 hinj, hinj, hm', hpoint]

theorem filter_append_perm_of_trichotomy {α : Type} {p q r : α → Bool} {xs : List α}
    (h : ∀ x ∈ xs, p x && !q x && !r x || !p x && q x && !r x || !p x && !q x && r x) :
    (xs.filter p ++ xs.filter q ++ xs.filter r).Perm xs := by
  have hq : xs.filter q = (xs.filter (!p ·)).filter q := by
    rw [List.filter_filter]
    refine List.filter_congr fun x hx ↦ ?_
    have hcover := h x hx
    revert hcover
    cases p x <;> cases q x <;> cases r x <;> simp
  have hr : xs.filter r = (xs.filter (!p ·)).filter (!q ·) := by
    rw [List.filter_filter]
    refine List.filter_congr fun x hx ↦ ?_
    have hcover := h x hx
    revert hcover
    cases p x <;> cases q x <;> cases r x <;> simp
  rw [hq, hr, List.append_assoc]
  exact ((List.filter_append_perm q _).append_left _).trans (List.filter_append_perm p xs)

/-- The search sees each occurrence once, and nothing else in the members. -/
theorem inMembers_perm (h : s.Regular) :
    (inMembers st s).Perm (s.occurrences.map (·.mention st s)) := by
  rw [inMembers, inConstructors_eq, injected_eq, inSignature_eq h, Symbol.mentionsAt,
    Symbol.mentionsAt, Symbol.mentionsAt, ← List.map_append, ← List.map_append]
  refine List.Perm.map _ (filter_append_perm_of_trichotomy fun o _ ↦ ?_)
  rcases Member.siteOf_cases st s o.member o.part with hsite | (hsite | hsite) | hsite <;>
    simp [Occurrence.site, hsite]

/-! ### The edges -/

def Edge.Site.isInMember (site : Edge.Site) : Bool :=
  site ≠ .staticReference && site ≠ .supertype

theorem isInMember_of_mem_inMembers {x : Mention} (hx : x ∈ inMembers st s) : x.site.isInMember := by
  rw [inMembers, List.mem_append, List.mem_append, List.mem_flatMap, List.mem_flatMap] at hx
  rcases hx with (hx | ⟨m, -, hx⟩) | ⟨m, -, hx⟩
  · simp [Edge.Site.isInMember, site_of_mem_inConstructors hx]
  · rcases site_of_mem_injected hx with hsite | hsite <;> simp [Edge.Site.isInMember, hsite]
  · simp [Edge.Site.isInMember, site_of_mem_inSignature hx]

theorem not_isInMember_of_mem_elsewhere {x : Mention} (hx : x ∈ elsewhere s) :
    ¬ x.site.isInMember := by
  rcases List.mem_append.1 hx with hx | hx
  · obtain ⟨r, -, hx⟩ := List.mem_flatMap.1 hx
    obtain ⟨t, -, rfl⟩ := mem_ofType.1 hx
    simp [Edge.Site.isInMember]
  · obtain ⟨expr, -, hx⟩ := List.mem_flatMap.1 hx
    obtain ⟨t, -, rfl⟩ := mem_ofType.1 hx
    simp [Edge.Site.isInMember]

namespace Discovery

variable {d : Discovery} {origin : Symbol.Id} {o : Occurrence} {e : Edge}

def occurrenceEdge? (d : Discovery) (origin : Symbol.Id) (o : Occurrence) : Option Edge :=
  d.edge? origin (o.mention d.stereotypes (d.codebase.symbol origin))

/-- An occurrence calls for an edge: its name is that of a member outside the owner and other than the
origin, and a plain part of a signature does not name a type of the platform. -/
structure Yields (d : Discovery) (origin : Symbol.Id) (o : Occurrence) (e : Edge) : Prop where
  leads : d.Leads origin o.name e.target
  foreign : o.site d.stereotypes (d.codebase.symbol origin) = .memberSignature →
    ¬ d.platform.excludes o.name
  edge : e = {
    origin
    target := e.target
    kind := .classify d.stereotypes (some o.member) (d.codebase.symbol e.target)
      (o.site d.stereotypes (d.codebase.symbol origin))
    site := o.site d.stereotypes (d.codebase.symbol origin)
    member := some o.member.name
    line := o.member.line }

theorem occurrenceEdge?_eq_some_iff :
    d.occurrenceEdge? origin o = some e ↔ d.Yields origin o e := by
  constructor
  · intro he
    obtain ⟨target, htarget, rfl⟩ := Option.map_eq_some_iff.1 he
    obtain ⟨hforeign, hleads⟩ := target?_eq_some_iff.1 htarget
    exact ⟨hleads, fun hsite hplatform ↦ hforeign (isExcluded_iff.2 ⟨hsite, hplatform⟩), rfl⟩
  · intro he
    obtain ⟨hleads, hforeign, hedge⟩ := he
    rw [hedge]
    exact Option.map_eq_some_iff.2 ⟨e.target, target?_eq_some_iff.2
      ⟨fun hx ↦ hforeign (isExcluded_iff.1 hx).1 (isExcluded_iff.1 hx).2, hleads⟩, rfl⟩

theorem isInMember_of_mem_filterMap
    (h : e ∈ (inMembers d.stereotypes (d.codebase.symbol origin)).filterMap (d.edge? origin)) :
    e.site.isInMember := by
  obtain ⟨x, hx, he⟩ := List.mem_filterMap.1 h
  rw [(edge?_eq_some he).2.2]
  exact isInMember_of_mem_inMembers hx

theorem not_isInMember_of_mem_filterMap
    (h : e ∈ (elsewhere (d.codebase.symbol origin)).filterMap (d.edge? origin)) :
    ¬ e.site.isInMember := by
  obtain ⟨x, hx, he⟩ := List.mem_filterMap.1 h
  rw [(edge?_eq_some he).2.2]
  exact not_isInMember_of_mem_elsewhere hx

theorem edges_filter :
    (d.edges origin).filter (·.site.isInMember) =
      (inMembers d.stereotypes (d.codebase.symbol origin)).filterMap (d.edge? origin) := by
  rw [edges, List.filter_append, List.filter_eq_self.2 fun e he ↦ isInMember_of_mem_filterMap he,
    List.filter_eq_nil_iff.2 fun e he ↦ not_isInMember_of_mem_filterMap (List.mem_filter.1 he).1,
    List.append_nil]

/-- The phases of the search see the names in the signatures once each: the parameters of injected
constructors, then what is injected into fields and methods, then all the rest. Of the edges from
signatures there is one for each name that calls for one. -/
theorem signature_edges_exact {s : Symbol} (hs : d.codebase.symbol origin = s) (h : s.Regular) :
    (inMembers d.stereotypes s).Perm (s.occurrences.map (·.mention d.stereotypes s)) ∧
    inConstructors d.stereotypes s = s.mentionsAt d.stereotypes [.injectionConstructor] ∧
    s.members.flatMap (injected d.stereotypes) =
      s.mentionsAt d.stereotypes [.injectedField, .injectionMethod] ∧
    s.members.flatMap (inSignature d.stereotypes s) =
      s.mentionsAt d.stereotypes [.memberSignature] ∧
    ((d.edges origin).filter (·.site.isInMember)).Perm
      (s.occurrences.filterMap (d.occurrenceEdge? origin)) ∧
    ∀ o e, d.occurrenceEdge? origin o = some e ↔ d.Yields origin o e := by
  subst hs
  refine ⟨inMembers_perm h, inConstructors_eq _ _, injected_eq _ _, inSignature_eq h, ?_,
    fun _ _ ↦ occurrenceEdge?_eq_some_iff⟩
  rw [edges_filter]
  refine ((inMembers_perm h).filterMap _).trans (.of_eq ?_)
  rw [List.filterMap_map]
  rfl

/-! ### A symbol with members of every kind -/

def basket : Symbol where
  name := "shop.orders.Basket"
  space := "shop.orders"
  members := [
    (Member.newConstructor ["List<shop.stock.Item>"]).tagged "inject",
    .newConstructor ["shop.stock.Item"],
    (Member.newField "item" "shop.stock.Item").tagged "inject",
    .newField "count" "int",
    (Member.newMethod "fill" ["shop.stock.Item"] (some "shop.stock.Item")).tagged "inject",
    .newMethod "top" [] (some "shop.stock.Item")]

def basketDiscovery : Discovery where
  codebase := Codebase.index #[basket, .ofName "shop.stock.Item"] (.replicate 2 true) .empty
  stereotypes := .usual
  platform := .usual
  owner := "shop.orders"

/-- The type that the marked method returns is a plain part of its signature. -/
theorem signature_edges_exact_basket :
    basketDiscovery.codebase.symbol 0 = basket ∧ basket.Regular ∧
      (basketDiscovery.edges 0).map (·.site) =
        [.injectionConstructor, .injectedField, .injectionMethod, .memberSignature,
          .memberSignature, .memberSignature] ∧
      ((basketDiscovery.edges 0).filter (·.site.isInMember)).Perm
        (basket.occurrences.filterMap (basketDiscovery.occurrenceEdge? 0)) := by
  have hs : basketDiscovery.codebase.symbol 0 = basket := rfl
  have hregular : basket.Regular := ⟨by decide, by decide⟩
  obtain ⟨-, -, -, -, hedges, -⟩ := signature_edges_exact hs hregular
  exact ⟨hs, hregular, by decide +kernel, hedges⟩

end Discovery

end Modularity
