import Modularity.Edge.Discovery

namespace Modularity

variable {st : Stereotypes} {platform : Platform} {s : Symbol} {m : Member} {site : Edge.Site}
  {t : String}

/-- The constructors that the container calls: those marked for injection, or the only one. -/
def IsInjected (st : Stereotypes) (s : Symbol) (m : Member) : Prop :=
  m ∈ s.constructors ∧
    (st.isInjectionPoint m ∨ (∀ n ∈ s.constructors, ¬ st.isInjectionPoint n) ∧ s.constructors = [m])

inductive Mentions (st : Stereotypes) (platform : Platform) (s : Symbol) :
    Edge.Site → String → Prop
  | constructorParameter {m : Member} {expr t : String} :
      IsInjected st s m → expr ∈ m.parameterTypes → t ∈ TypeExpr.names expr →
      Mentions st platform s .injectionConstructor t
  | injectedField {m : Member} {expr t : String} :
      m ∈ s.members → m.kind = .field → st.isInjectionPoint m → m.valueType = some expr →
      t ∈ TypeExpr.names expr → Mentions st platform s .injectedField t
  | injectedMethod {m : Member} {expr t : String} :
      m ∈ s.members → m.kind = .method → st.isInjectionPoint m → expr ∈ m.parameterTypes →
      t ∈ TypeExpr.names expr → Mentions st platform s .injectionMethod t
  | parameter {m : Member} {expr t : String} :
      m ∈ s.members → ¬ st.isInjectionPoint m → ¬ IsInjected st s m → expr ∈ m.parameterTypes →
      t ∈ TypeExpr.names expr → ¬ platform.excludes t → Mentions st platform s .memberSignature t
  | value {m : Member} {expr t : String} :
      m ∈ s.members → ¬ IsInjected st s m →
      ¬ (st.isInjectionPoint m ∧ (m.kind = .field ∨ m.kind = .constructor)) →
      m.valueType = some expr → t ∈ TypeExpr.names expr → ¬ platform.excludes t →
      Mentions st platform s .memberSignature t
  | reference {r : Reference} {t : String} :
      r ∈ s.references → t ∈ TypeExpr.names r.target → Mentions st platform s .staticReference t
  | supertype {expr t : String} :
      expr ∈ s.supertypes → t ∈ TypeExpr.names expr → Mentions st platform s .supertype t

namespace Mention

theorem isInjectionConstructor_iff (hm : m ∈ s.members) :
    isInjectionConstructor st s m ↔ IsInjected st s m := by
  have hmem : m ∈ s.constructors ↔ m.kind = .constructor := by
    simp [Symbol.constructors, hm]
  rw [IsInjected, hmem]
  simp only [isInjectionConstructor, Bool.and_eq_true, Bool.or_eq_true, decide_eq_true_eq,
    Bool.not_eq_true', List.any_eq_false]
  refine and_congr_right fun hkind ↦ or_congr_right (and_congr_right fun _ ↦ ?_)
  constructor
  · intro hone
    obtain ⟨n, hn⟩ := List.length_eq_one_iff.1 hone
    have hmn := hmem.2 hkind
    rw [hn, List.mem_singleton] at hmn
    rw [hn, hmn]
  · intro hone
    rw [hone, List.length_singleton]

theorem mem_ofType {member : Option Member} {line : Option UInt32} {expr : String} {x : Mention} :
    x ∈ ofType site member line expr ↔ ∃ t ∈ TypeExpr.names expr, x = ⟨t, site, member, line⟩ := by
  simp [ofType, eq_comm]

theorem mem_ofParameters {x : Mention} :
    x ∈ ofParameters site m ↔
      ∃ expr ∈ m.parameterTypes, ∃ t ∈ TypeExpr.names expr, x = ⟨t, site, some m, none⟩ := by
  simp only [ofParameters, List.mem_flatMap, mem_ofType]

theorem mem_ofValue {x : Mention} :
    x ∈ ofValue site m ↔
      ∃ expr, m.valueType = some expr ∧ ∃ t ∈ TypeExpr.names expr, x = ⟨t, site, some m, none⟩ := by
  simp only [ofValue, List.mem_flatMap, Option.mem_toList, mem_ofType]

theorem site_of_mem_ofParameters {x : Mention} (h : x ∈ ofParameters site m) : x.site = site := by
  obtain ⟨-, -, -, -, rfl⟩ := mem_ofParameters.1 h
  rfl

theorem site_of_mem_ofValue {x : Mention} (h : x ∈ ofValue site m) : x.site = site := by
  obtain ⟨-, -, -, -, rfl⟩ := mem_ofValue.1 h
  rfl

theorem site_of_mem_inConstructors {x : Mention} (h : x ∈ inConstructors st s) :
    x.site = .injectionConstructor := by
  obtain ⟨m, -, hx⟩ := List.mem_flatMap.1 h
  exact site_of_mem_ofParameters hx

theorem site_of_mem_injected {x : Mention} (h : x ∈ injected st m) :
    x.site = .injectedField ∨ x.site = .injectionMethod := by
  unfold injected at h
  split at h
  · split at h
    · exact .inl (site_of_mem_ofValue h)
    · exact .inr (site_of_mem_ofParameters h)
    · nomatch h
  · nomatch h

theorem site_of_mem_inSignature {x : Mention} (h : x ∈ inSignature st s m) :
    x.site = .memberSignature := by
  unfold inSignature at h
  split at h
  · nomatch h
  · rcases List.mem_append.1 h with h | h
    · split at h
      · nomatch h
      · exact site_of_mem_ofParameters h
    · exact site_of_mem_ofValue h

theorem mentions_of_mem_inConstructors {x : Mention} (h : x ∈ inConstructors st s) :
    Mentions st platform s x.site x.name := by
  obtain ⟨m, hm, hx⟩ := List.mem_flatMap.1 h
  obtain ⟨hm, hinj⟩ := List.mem_filter.1 hm
  obtain ⟨expr, hexpr, t, ht, rfl⟩ := mem_ofParameters.1 hx
  exact .constructorParameter ((isInjectionConstructor_iff hm).1 hinj) hexpr ht

theorem mentions_of_mem_injected {x : Mention} (hm : m ∈ s.members) (h : x ∈ injected st m) :
    Mentions st platform s x.site x.name := by
  unfold injected at h
  split at h
  · rename_i hinj
    cases hkind : m.kind with
    | constructor => simp [hkind] at h
    | field =>
      rw [hkind] at h
      obtain ⟨expr, hexpr, t, ht, rfl⟩ := mem_ofValue.1 h
      exact .injectedField hm hkind hinj hexpr ht
    | method =>
      rw [hkind] at h
      obtain ⟨expr, hexpr, t, ht, rfl⟩ := mem_ofParameters.1 h
      exact .injectedMethod hm hkind hinj hexpr ht
  · nomatch h

def HasPlainValue (st : Stereotypes) (s : Symbol) (m : Member) : Prop :=
  ¬ IsInjected st s m ∧ ¬ (st.isInjectionPoint m ∧ (m.kind = .field ∨ m.kind = .constructor))

theorem mem_inSignature {x : Mention} (hm : m ∈ s.members) :
    x ∈ inSignature st s m ↔ HasPlainValue st s m ∧
      (¬ st.isInjectionPoint m ∧ x ∈ ofParameters .memberSignature m ∨
        x ∈ ofValue .memberSignature m) := by
  have hkind : m.kind ≠ .method ↔ m.kind = .field ∨ m.kind = .constructor := by
    cases m.kind <;> simp
  have hskip : (isInjectionConstructor st s m || (st.isInjectionPoint m && m.kind ≠ .method)) ↔
      ¬ HasPlainValue st s m := by
    rw [HasPlainValue, ← not_or, Classical.not_not, Bool.or_eq_true, Bool.and_eq_true, decide_eq_true_eq,
      isInjectionConstructor_iff hm, hkind]
  unfold inSignature
  by_cases hplain : HasPlainValue st s m
  · rw [if_neg (mt hskip.1 (Classical.not_not.2 hplain))]
    by_cases hpoint : st.isInjectionPoint m <;> simp [hplain, hpoint]
  · rw [if_pos (hskip.2 hplain)]
    simp [hplain]

theorem mentions_of_mem_inSignature {x : Mention} (hm : m ∈ s.members) (h : x ∈ inSignature st s m)
    (hforeign : ¬ platform.excludes x.name) : Mentions st platform s x.site x.name := by
  obtain ⟨hplain, ⟨hpoint, hx⟩ | hx⟩ := (mem_inSignature hm).1 h
  · obtain ⟨expr, hexpr, t, ht, rfl⟩ := mem_ofParameters.1 hx
    exact .parameter hm hpoint hplain.1 hexpr ht hforeign
  · obtain ⟨expr, hexpr, t, ht, rfl⟩ := mem_ofValue.1 hx
    exact .value hm hplain.1 hplain.2 hexpr ht hforeign

theorem mentions_of_mem_elsewhere {x : Mention} (h : x ∈ elsewhere s) :
    Mentions st platform s x.site x.name := by
  rcases List.mem_append.1 h with h | h
  · obtain ⟨r, hr, hx⟩ := List.mem_flatMap.1 h
    obtain ⟨t, ht, rfl⟩ := mem_ofType.1 hx
    exact .reference hr ht
  · obtain ⟨expr, hexpr, hx⟩ := List.mem_flatMap.1 h
    obtain ⟨t, ht, rfl⟩ := mem_ofType.1 hx
    exact .supertype hexpr ht

end Mention

def Symbol.mentions (st : Stereotypes) (s : Symbol) : List Mention :=
  Mention.inMembers st s ++ Mention.elsewhere s

namespace Discovery

variable {d : Discovery} {origin target : Symbol.Id}

theorem isExcluded_iff {x : Mention} :
    d.isExcluded x ↔ x.site = .memberSignature ∧ d.platform.excludes x.name := by
  rw [isExcluded, Bool.and_eq_true, decide_eq_true_eq]

/-- The list of mentions, without those that are passed over, has exactly what the symbol mentions. -/
theorem exists_mention_iff :
    (∃ x ∈ s.mentions d.stereotypes, x.site = site ∧ x.name = t ∧ ¬ d.isExcluded x) ↔
      Mentions d.stereotypes d.platform s site t := by
  have hmem : ∀ x, x ∈ s.mentions d.stereotypes ↔
      x ∈ Mention.inConstructors d.stereotypes s ∨
      (∃ m ∈ s.members, x ∈ Mention.injected d.stereotypes m) ∨
      (∃ m ∈ s.members, x ∈ Mention.inSignature d.stereotypes s m) ∨ x ∈ Mention.elsewhere s := by
    intro x
    simp only [Symbol.mentions, Mention.inMembers, List.mem_append, List.mem_flatMap, or_assoc]
  constructor
  · intro hy
    obtain ⟨x, hx, rfl, rfl, hexcluded⟩ := hy
    rcases (hmem x).1 hx with hx | ⟨m, hm, hx⟩ | ⟨m, hm, hx⟩ | hx
    · exact Mention.mentions_of_mem_inConstructors hx
    · exact Mention.mentions_of_mem_injected hm hx
    · refine Mention.mentions_of_mem_inSignature hm hx fun hplatform ↦ hexcluded ?_
      exact isExcluded_iff.2 ⟨Mention.site_of_mem_inSignature hx, hplatform⟩
    · exact Mention.mentions_of_mem_elsewhere hx
  · intro h
    cases h with
    | @constructorParameter m expr t hinj hexpr ht =>
      have hm : m ∈ s.members := (List.mem_filter.1 hinj.1).1
      refine ⟨⟨t, _, some m, none⟩, (hmem _).2 (.inl ?_), rfl, rfl, by simp [isExcluded]⟩
      exact List.mem_flatMap.2 ⟨m,
        List.mem_filter.2 ⟨hm, (Mention.isInjectionConstructor_iff hm).2 hinj⟩,
        Mention.mem_ofParameters.2 ⟨expr, hexpr, t, ht, rfl⟩⟩
    | @injectedField m expr t hm hkind hpoint hexpr ht =>
      refine ⟨⟨t, _, some m, none⟩, (hmem _).2 (.inr (.inl ⟨m, hm, ?_⟩)), rfl, rfl,
        by simp [isExcluded]⟩
      rw [Mention.injected, if_pos hpoint, hkind]
      exact Mention.mem_ofValue.2 ⟨expr, hexpr, t, ht, rfl⟩
    | @injectedMethod m expr t hm hkind hpoint hexpr ht =>
      refine ⟨⟨t, _, some m, none⟩, (hmem _).2 (.inr (.inl ⟨m, hm, ?_⟩)), rfl, rfl,
        by simp [isExcluded]⟩
      rw [Mention.injected, if_pos hpoint, hkind]
      exact Mention.mem_ofParameters.2 ⟨expr, hexpr, t, ht, rfl⟩
    | @parameter m expr t hm hpoint hinj hexpr ht hforeign =>
      refine ⟨⟨t, _, some m, none⟩, (hmem _).2 (.inr (.inr (.inl ⟨m, hm, ?_⟩))), rfl, rfl,
        by simpa [isExcluded] using hforeign⟩
      exact (Mention.mem_inSignature hm).2 ⟨⟨hinj, fun h ↦ hpoint h.1⟩,
        .inl ⟨hpoint, Mention.mem_ofParameters.2 ⟨expr, hexpr, t, ht, rfl⟩⟩⟩
    | @value m expr t hm hinj hplain hexpr ht hforeign =>
      refine ⟨⟨t, _, some m, none⟩, (hmem _).2 (.inr (.inr (.inl ⟨m, hm, ?_⟩))), rfl, rfl,
        by simpa [isExcluded] using hforeign⟩
      exact (Mention.mem_inSignature hm).2 ⟨⟨hinj, hplain⟩,
        .inr (Mention.mem_ofValue.2 ⟨expr, hexpr, t, ht, rfl⟩)⟩
    | @reference r t hr ht =>
      refine ⟨⟨t, _, r.member.bind s.member?, r.line⟩, (hmem _).2 (.inr (.inr (.inr ?_))), rfl, rfl,
        by simp [isExcluded]⟩
      exact List.mem_append_left _ (List.mem_flatMap.2 ⟨r, hr, Mention.mem_ofType.2 ⟨t, ht, rfl⟩⟩)
    | @supertype expr t hexpr ht =>
      refine ⟨⟨t, _, none, none⟩, (hmem _).2 (.inr (.inr (.inr ?_))), rfl, rfl,
        by simp [isExcluded]⟩
      exact List.mem_append_right _
        (List.mem_flatMap.2 ⟨expr, hexpr, Mention.mem_ofType.2 ⟨t, ht, rfl⟩⟩)

def Leads (d : Discovery) (origin : Symbol.Id) (t : String) (target : Symbol.Id) : Prop :=
  d.codebase.find? t = some target ∧ target ≠ origin ∧
    ¬ Namespace.isWithin d.owner (d.codebase.symbol target).space

theorem target?_eq_some_iff {x : Mention} :
    d.target? origin x = some target ↔ ¬ d.isExcluded x ∧ d.Leads origin x.name target := by
  unfold target? Leads
  split
  · rename_i hexcluded
    simp [hexcluded]
  · rename_i hexcluded
    simp [hexcluded, Option.filter_eq_some_iff]

theorem edge?_eq_some {x : Mention} {e : Edge} (h : d.edge? origin x = some e) :
    d.target? origin x = some e.target ∧ e.origin = origin ∧ e.site = x.site := by
  obtain ⟨target, htarget, rfl⟩ := Option.map_eq_some_iff.1 h
  exact ⟨htarget, rfl, rfl⟩

theorem exists_edge? {x : Mention} (h : d.target? origin x = some target) :
    ∃ e, d.edge? origin x = some e ∧ e.target = target ∧ e.site = x.site :=
  ⟨_, Option.map_eq_some_iff.2 ⟨target, h, rfl⟩, rfl, rfl⟩

theorem exists_mention_of_mem_edges {e : Edge} (h : e ∈ d.edges origin) :
    e.origin = origin ∧ ∃ x ∈ (d.codebase.symbol origin).mentions d.stereotypes,
      x.site = e.site ∧ d.target? origin x = some e.target := by
  have hfound : ∃ x ∈ (d.codebase.symbol origin).mentions d.stereotypes,
      d.edge? origin x = some e := by
    rcases List.mem_append.1 h with h | h
    · obtain ⟨x, hx, he⟩ := List.mem_filterMap.1 h
      exact ⟨x, List.mem_append_left _ hx, he⟩
    · obtain ⟨x, hx, he⟩ := List.mem_filterMap.1 (List.mem_filter.1 h).1
      exact ⟨x, List.mem_append_right _ hx, he⟩
  obtain ⟨x, hx, he⟩ := hfound
  obtain ⟨htarget, horigin, hsite⟩ := edge?_eq_some he
  exact ⟨horigin, x, hx, hsite.symm, htarget⟩

theorem exists_edge_of_mem_inMembers {x : Mention}
    (hx : x ∈ Mention.inMembers d.stereotypes (d.codebase.symbol origin))
    (h : d.target? origin x = some target) :
    ∃ e ∈ d.edges origin, e.target = target ∧ e.site = x.site := by
  obtain ⟨e, he, htarget, hsite⟩ := exists_edge? h
  exact ⟨e, List.mem_append_left _ (List.mem_filterMap.2 ⟨x, hx, he⟩), htarget, hsite⟩

/-- A use in a body or a supertype adds an edge unless a signature has shown its target. -/
theorem exists_edge_of_mem_elsewhere {x : Mention}
    (hx : x ∈ Mention.elsewhere (d.codebase.symbol origin))
    (h : d.target? origin x = some target) : ∃ e ∈ d.edges origin, e.target = target := by
  obtain ⟨e, he, htarget, -⟩ := exists_edge? h
  have hmem := List.mem_filterMap.2 ⟨x, hx, he⟩
  by_cases hshown : target ∈ ((Mention.inMembers d.stereotypes (d.codebase.symbol origin)).filterMap
      (d.edge? origin)).map (·.target)
  · obtain ⟨e', he', htarget'⟩ := List.mem_map.1 hshown
    exact ⟨e', List.mem_append_left _ he', htarget'⟩
  · refine ⟨e, List.mem_append_right _ (List.mem_filter.2 ⟨hmem, ?_⟩), htarget⟩
    rw [htarget]
    simpa using hshown

theorem exists_edge_iff :
    (∃ e ∈ d.edges origin, e.target = target) ↔
      ∃ site t, Mentions d.stereotypes d.platform (d.codebase.symbol origin) site t ∧
        d.Leads origin t target := by
  constructor
  · intro hy
    obtain ⟨e, he, rfl⟩ := hy
    obtain ⟨-, x, hx, hsite, htarget⟩ := exists_mention_of_mem_edges he
    obtain ⟨hexcluded, hleads⟩ := target?_eq_some_iff.1 htarget
    exact ⟨x.site, x.name, exists_mention_iff.1 ⟨x, hx, rfl, rfl, hexcluded⟩, hleads⟩
  · intro hz
    obtain ⟨site, t, hmentions, hleads⟩ := hz
    obtain ⟨x, hx, -, rfl, hexcluded⟩ := exists_mention_iff.2 hmentions
    have htarget := target?_eq_some_iff.2 ⟨hexcluded, hleads⟩
    rcases List.mem_append.1 hx with hx | hx
    · obtain ⟨e, he, hetarget, -⟩ := exists_edge_of_mem_inMembers hx htarget
      exact ⟨e, he, hetarget⟩
    · exact exists_edge_of_mem_elsewhere hx htarget

theorem site_of_mem_elsewhere {x : Mention} (h : x ∈ Mention.elsewhere s) :
    x.site ≠ .injectedField := by
  rcases List.mem_append.1 h with h | h
  · obtain ⟨r, -, hx⟩ := List.mem_flatMap.1 h
    obtain ⟨t, -, rfl⟩ := Mention.mem_ofType.1 hx
    simp
  · obtain ⟨expr, -, hx⟩ := List.mem_flatMap.1 h
    obtain ⟨t, -, rfl⟩ := Mention.mem_ofType.1 hx
    simp

theorem exists_injected_iff :
    (∃ e ∈ d.edges origin, e.target = target ∧ e.isFieldInjection) ↔
      ∃ t, Mentions d.stereotypes d.platform (d.codebase.symbol origin) .injectedField t ∧
        d.Leads origin t target := by
  constructor
  · intro hy
    obtain ⟨e, he, rfl, hinj⟩ := hy
    obtain ⟨-, x, hx, hsite, htarget⟩ := exists_mention_of_mem_edges he
    obtain ⟨hexcluded, hleads⟩ := target?_eq_some_iff.1 htarget
    have hfield : x.site = .injectedField := by simpa [Edge.isFieldInjection, hsite] using hinj
    exact ⟨x.name, exists_mention_iff.1 ⟨x, hx, hfield, rfl, hexcluded⟩, hleads⟩
  · intro hz
    obtain ⟨t, hmentions, hleads⟩ := hz
    obtain ⟨x, hx, hsite, rfl, hexcluded⟩ := exists_mention_iff.2 hmentions
    have htarget := target?_eq_some_iff.2 ⟨hexcluded, hleads⟩
    rcases List.mem_append.1 hx with hx | hx
    · obtain ⟨e, he, hetarget, hesite⟩ := exists_edge_of_mem_inMembers hx htarget
      exact ⟨e, he, hetarget, by simp [Edge.isFieldInjection, hesite, hsite]⟩
    · exact absurd hsite (site_of_mem_elsewhere hx)

end Discovery

end Modularity
