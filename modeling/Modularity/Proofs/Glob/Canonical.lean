import Modularity.Graph.Cache
import Modularity.Proofs.Glob.Nesting

namespace Modularity

namespace Glob

def Unreadable (pattern : String) : Prop := ∃ flaw, compile pattern = .error flaw

/-- A pattern that is matched as an expression, and as one of too many levels. -/
def TooDeep (pattern : String) : Prop :=
  ∃ g, compile pattern = .ok g ∧ (g.demand = .extension ∨ g.demand = .expression) ∧ g.regex.isTooDeep

def Fits (pattern name : String) : Prop := ∃ g, compile pattern = .ok g ∧ g.fits name

theorem not_unreadable_iff {pattern : String} : ¬ Unreadable pattern ↔ ∃ g, compile pattern = .ok g := by
  rw [Unreadable]
  cases compile pattern <;> simp

theorem not_unreadable_of_tooDeep {pattern : String} (h : TooDeep pattern) : ¬ Unreadable pattern :=
  not_unreadable_iff.2 (h.imp fun _ hg ↦ hg.1)

instance (pattern : String) : Decidable (Unreadable pattern) :=
  decidable_of_iff (¬ (compile pattern).toOption.isSome) <| by
    rw [Unreadable]
    cases compile pattern <;> simp [Except.toOption]

instance (pattern : String) : Decidable (TooDeep pattern) :=
  decidable_of_iff ((compile pattern).toOption.any fun g ↦
    decide (g.demand = .extension ∨ g.demand = .expression) && g.regex.isTooDeep) <| by
    rw [TooDeep]
    cases compile pattern <;> simp [Except.toOption]

instance (pattern name : String) : Decidable (Fits pattern name) :=
  decidable_of_iff ((compile pattern).toOption.any fun g ↦ g.fits name) <| by
    rw [Fits]
    cases compile pattern <;> simp [Except.toOption]

theorem tooDeep_braced {pairs : Nat} (h : Regex.maxDepth ≤ pairs) :
    TooDeep (String.ofList (braced pairs)) := by
  obtain ⟨pairs, rfl⟩ : ∃ k, pairs = k + 1 := ⟨pairs - 1, by simp [Regex.maxDepth] at h; omega⟩
  refine ⟨_, compile_braced pairs, .inr rfl, ?_⟩
  have hdepth : (bracedRegex (pairs + 1)).depth .row = pairs + 1 := by
    rw [bracedRegex, Regex.depth, depth_bracedRegex]
  rw [Regex.isTooDeep, hdepth, decide_eq_true_eq]
  omega

end Glob

namespace IgnoreList

open Glob

variable {ps qs : List String} {l k : IgnoreList} {globs : List (String × Glob)} {pattern : String}
  {refusal? : IgnoreList → Option String}

theorem compileAll_cases (ps : List String) :
    (∃ globs, compileAll ps = .ok globs ∧ globs.map (·.1) = ps) ∨
    ∃ front p back flaw, ps = front ++ p :: back ∧ (∀ q ∈ front, ¬ Unreadable q) ∧
      compile p = .error flaw ∧ compileAll ps = .error (p, flaw) := by
  induction ps with
  | nil => exact .inl ⟨[], rfl, rfl⟩
  | cons p ps ih =>
    cases hp : compile p with
    | error flaw =>
      refine .inr ⟨[], p, ps, flaw, rfl, by simp, hp, ?_⟩
      rw [compileAll, hp]
    | ok g =>
      rcases ih with ⟨globs, hglobs, hnames⟩ | ⟨front, q, back, flaw, rfl, hfront, hq, herror⟩
      · refine .inl ⟨(p, g) :: globs, ?_, by rw [List.map_cons, hnames]⟩
        rw [compileAll, hp]
        simp only [hglobs]
      · refine .inr ⟨p :: front, q, back, flaw, rfl, ?_, hq, ?_⟩
        · exact List.forall_mem_cons.2 ⟨not_unreadable_iff.2 ⟨g, hp⟩, hfront⟩
        · rw [compileAll, hp]
          simp only [herror]

theorem mem_globs {g : Glob} : (pattern, g) ∈ l.globs ↔ pattern ∈ l.patterns ∧ compile pattern = .ok g := by
  constructor
  · exact fun h ↦ ⟨List.mem_map.2 ⟨_, h, rfl⟩, l.compiled _ h⟩
  · intro hx
    obtain ⟨hpattern, hcompile⟩ := hx
    obtain ⟨⟨p, g'⟩, hmem, rfl⟩ := List.mem_map.1 hpattern
    have hg : Except.ok g' = .ok g := (l.compiled _ hmem).symm.trans hcompile
    exact Except.ok.inj hg ▸ hmem

theorem ignores_iff {name : String} : l.ignores name ↔ ∃ p ∈ l.patterns, Fits p name := by
  rw [ignores, List.any_eq_true]
  constructor
  · intro hx
    obtain ⟨⟨p, g⟩, hmem, hfits⟩ := hx
    obtain ⟨hp, hcompile⟩ := mem_globs.1 hmem
    exact ⟨p, hp, g, hcompile, hfits⟩
  · intro hy
    obtain ⟨p, hp, g, hcompile, hfits⟩ := hy
    exact ⟨(p, g), mem_globs.2 ⟨hp, hcompile⟩, hfits⟩

theorem mem_regexes {r : Regex} {demand : Demand} :
    r ∈ l.regexes demand ↔ ∃ p ∈ l.patterns, ∃ g, compile p = .ok g ∧ g.demand = demand ∧ g.regex = r := by
  simp only [regexes, List.mem_map, List.mem_filter, decide_eq_true_eq]
  constructor
  · intro hx
    obtain ⟨g, ⟨⟨⟨p, g⟩, hmem, rfl⟩, hdemand⟩, rfl⟩ := hx
    obtain ⟨hp, hcompile⟩ := mem_globs.1 hmem
    exact ⟨p, hp, g, hcompile, hdemand, rfl⟩
  · intro hy
    obtain ⟨p, hp, g, hcompile, hdemand, rfl⟩ := hy
    exact ⟨g, ⟨⟨(p, g), mem_globs.2 ⟨hp, hcompile⟩, rfl⟩, hdemand⟩, rfl⟩

theorem depthRefusal?_eq_none_iff : l.depthRefusal? = Option.none ↔ ∀ p ∈ l.patterns, ¬ TooDeep p := by
  have hregexes : l.depthRefusal? = Option.none ↔
      (∀ r ∈ l.regexes .extension, ¬ r.isTooDeep) ∧ ∀ r ∈ l.regexes .expression, ¬ r.isTooDeep := by
    rw [depthRefusal?, ← List.find?_eq_none]
    cases (l.regexes .extension).find? Regex.isTooDeep <;> simp [List.findIdx?_eq_none_iff]
  rw [hregexes]
  constructor
  · intro hx p hp hdeep
    obtain ⟨g, hcompile, hdemand | hdemand, htoo⟩ := hdeep
    · exact hx.1 _ (mem_regexes.2 ⟨p, hp, g, hcompile, hdemand, rfl⟩) htoo
    · exact hx.2 _ (mem_regexes.2 ⟨p, hp, g, hcompile, hdemand, rfl⟩) htoo
  · intro hy
    refine ⟨fun r hr htoo ↦ ?_, fun r hr htoo ↦ ?_⟩
    · obtain ⟨p, hp, g, hcompile, hdemand, rfl⟩ := mem_regexes.1 hr
      exact hy p hp ⟨g, hcompile, .inl hdemand, htoo⟩
    · obtain ⟨p, hp, g, hcompile, hdemand, rfl⟩ := mem_regexes.1 hr
      exact hy p hp ⟨g, hcompile, .inr hdemand, htoo⟩

theorem ofPatterns_of_error {flaw : Glob.Flaw}
    (h : compileAll (OrderedSet.ofList ps).toList = .error (pattern, flaw)) :
    ofPatterns ps refusal? = .error (.inPattern pattern flaw) := by
  unfold ofPatterns
  split
  · rename_i p f herror
    obtain ⟨rfl, rfl⟩ := Prod.mk.inj (Except.error.inj (h.symm.trans herror))
    rfl
  · rename_i hglobs
    nomatch h.symm.trans hglobs

theorem ofPatterns_of_ok (h : compileAll (OrderedSet.ofList ps).toList = .ok globs) :
    ofPatterns ps refusal? = match refusal? ⟨globs, compile_of_mem_compileAll h⟩ with
      | some reason => .error (.inSet (globs.map (·.1)) reason)
      | Option.none => .ok ⟨globs, compile_of_mem_compileAll h⟩ := by
  unfold ofPatterns
  split
  · rename_i herror
    nomatch h.symm.trans herror
  · rename_i gs hgs
    obtain rfl := Except.ok.inj (h.symm.trans hgs)
    rfl

theorem ofPatterns_congr (h : ∀ p, p ∈ ps ↔ p ∈ qs) : ofPatterns ps refusal? = ofPatterns qs refusal? := by
  have hset : OrderedSet.ofList ps = OrderedSet.ofList qs := by
    apply OrderedSet.ext
    simpa using h
  cases hps : compileAll (OrderedSet.ofList ps).toList with
  | error e => rw [ofPatterns_of_error hps, ofPatterns_of_error (hset ▸ hps)]
  | ok globs => rw [ofPatterns_of_ok hps, ofPatterns_of_ok (hset ▸ hps)]

/-- What becomes of some patterns: the smallest one that cannot be read is named, or else they are stored in
ascending order, unless they are refused together. -/
theorem ofPatterns_cases (ps : List String) (refusal? : IgnoreList → Option String) :
    (∃ p ∈ ps, ∃ flaw, compile p = .error flaw ∧ (∀ q ∈ ps, Unreadable q → ¬ q < p) ∧
      ofPatterns ps refusal? = .error (.inPattern p flaw)) ∨
    ∃ l : IgnoreList, l.patterns = (OrderedSet.ofList ps).toList ∧
      ofPatterns ps refusal? = match refusal? l with
        | some reason => .error (.inSet l.patterns reason)
        | Option.none => .ok l := by
  have hmem : ∀ p, p ∈ (OrderedSet.ofList ps).toList ↔ p ∈ ps := fun _ ↦ OrderedSet.mem_ofList
  rcases compileAll_cases (OrderedSet.ofList ps).toList with
    ⟨globs, hglobs, hnames⟩ | ⟨front, p, back, flaw, hsplit, hfront, hp, herror⟩
  · exact .inr ⟨⟨globs, compile_of_mem_compileAll hglobs⟩, hnames, ofPatterns_of_ok hglobs⟩
  · refine .inl ⟨p, (hmem p).1 (by simp [hsplit]), flaw, hp, fun q hq hunreadable hlt ↦ ?_,
      ofPatterns_of_error herror⟩
    -- what is smaller than a pattern stands before it, and there all patterns can be read
    have hascending := (OrderedSet.ofList ps).ascending
    rw [hsplit, List.pairwise_append, List.pairwise_cons] at hascending
    have hq' : q ∈ front ++ p :: back := hsplit ▸ (hmem q).2 hq
    rcases List.mem_append.1 hq' with hq' | hq'
    · exact hfront q hq' hunreadable
    · rcases List.mem_cons.1 hq' with rfl | hq'
      · exact StrictLinear.irrefl _ hlt
      · exact StrictLinear.asymm hlt (hascending.2.1.1 q hq')

theorem ofPatterns_of_unreadable (h : ∃ p ∈ ps, Unreadable p) :
    ∃ p ∈ ps, ∃ flaw, compile p = .error flaw ∧ (∀ q ∈ ps, Unreadable q → ¬ q < p) ∧
      ofPatterns ps refusal? = .error (.inPattern p flaw) := by
  rcases ofPatterns_cases ps refusal? with hfirst | ⟨l, hl, -⟩
  · exact hfirst
  · obtain ⟨p, hp, hunreadable⟩ := h
    have hstored : p ∈ l.patterns := hl ▸ OrderedSet.mem_ofList.2 hp
    obtain ⟨⟨_, g⟩, hmem, rfl⟩ := List.mem_map.1 hstored
    exact absurd hunreadable (not_unreadable_iff.2 ⟨g, (mem_globs.1 hmem).2⟩)

theorem ofPatterns_of_readable (h : ∀ p ∈ ps, ¬ Unreadable p) (refusal? : IgnoreList → Option String) :
    ∃ l : IgnoreList, l.patterns = (OrderedSet.ofList ps).toList ∧
      (∀ reason, refusal? l = some reason →
        ofPatterns ps refusal? = .error (.inSet l.patterns reason)) ∧
      (refusal? l = Option.none → ofPatterns ps refusal? = .ok l) := by
  rcases ofPatterns_cases ps refusal? with ⟨p, hp, flaw, hflaw, -⟩ | ⟨l, hl, hresult⟩
  · exact absurd ⟨flaw, hflaw⟩ (h p hp)
  · exact ⟨l, hl, fun reason hreason ↦ by rw [hresult, hreason], fun hnone ↦ by rw [hresult, hnone]⟩

theorem ofPatterns_of_tooDeep (h : ∀ p ∈ ps, ¬ Unreadable p) (hdeep : ∃ p ∈ ps, TooDeep p) :
    ∃ reason, ofPatterns ps = .error (.inSet (OrderedSet.ofList ps).toList reason) := by
  obtain ⟨l, hl, hrefused, -⟩ := ofPatterns_of_readable h depthRefusal?
  cases hreason : l.depthRefusal? with
  | none =>
    obtain ⟨p, hp, hdeep⟩ := hdeep
    exact absurd hdeep (depthRefusal?_eq_none_iff.1 hreason p (hl ▸ OrderedSet.mem_ofList.2 hp))
  | some reason => exact ⟨reason, hl ▸ hrefused reason hreason⟩

theorem ofPatterns_of_sound (h : ∀ p ∈ ps, ¬ Unreadable p ∧ ¬ TooDeep p) : ∃ l, ofPatterns ps = .ok l := by
  obtain ⟨l, hl, -, hok⟩ := ofPatterns_of_readable (fun p hp ↦ (h p hp).1) depthRefusal?
  refine ⟨l, hok (depthRefusal?_eq_none_iff.2 fun p hp ↦ ?_)⟩
  rw [hl, OrderedSet.mem_toList, OrderedSet.mem_ofList] at hp
  exact (h p hp).2

theorem joined_notMem_pair (p q : String) : String.intercalate ", " [p, q] ∉ [p, q] := by
  have hlength : (String.intercalate ", " [p, q]).length = p.length + 2 + q.length :=
    (String.length_append (p ++ ", ") q).trans (by rw [String.length_append]; rfl)
  intro hmem
  rcases List.mem_cons.1 hmem with hsame | hmem
  · rw [hsame] at hlength
    omega
  · rw [List.mem_singleton.1 hmem] at hlength
    omega

theorem patterns_of_ofPatterns (h : ofPatterns ps refusal? = .ok l) :
    l.patterns = (OrderedSet.ofList ps).toList := by
  rcases ofPatterns_cases ps refusal? with ⟨p, -, flaw, -, -, herror⟩ | ⟨k, hk, hresult⟩
  · rw [h] at herror
    nomatch herror
  · rw [h] at hresult
    split at hresult
    · nomatch hresult
    · exact Except.ok.inj hresult ▸ hk

theorem mem_patterns (h : ofPatterns ps refusal? = .ok l) : pattern ∈ l.patterns ↔ pattern ∈ ps := by
  rw [patterns_of_ofPatterns h, OrderedSet.mem_toList, OrderedSet.mem_ofList]

theorem patterns_eq_iff (hl : ofPatterns ps refusal? = .ok l) (hk : ofPatterns qs refusal? = .ok k) :
    l.patterns = k.patterns ↔ ∀ p, p ∈ ps ↔ p ∈ qs := by
  constructor
  · intro heq p
    rw [← mem_patterns hl, heq, mem_patterns hk]
  · intro hset
    rw [ofPatterns_congr hset, hk] at hl
    rw [Except.ok.inj hl]

/-- Some patterns make the same list, or have the same flaw, as any others of the same set. The smallest
pattern that cannot be read is named; if all can be read but they are refused together, all of them are
named, in ascending order; otherwise they are stored. A name is ignored exactly if it fits one of the
patterns, taken alone. Lists are equal exactly if they come from one set of patterns, and equal lists make
the same key of the cache, as they make the same graphs. -/
theorem ofPatterns_exact (refusal? : IgnoreList → Option String) :
    (∀ ps qs : List String, (∀ p, p ∈ ps ↔ p ∈ qs) → ofPatterns ps refusal? = ofPatterns qs refusal?) ∧
    (∀ ps : List String, (∃ p ∈ ps, Unreadable p) →
      ∃ p ∈ ps, ∃ flaw, compile p = .error flaw ∧ (∀ q ∈ ps, Unreadable q → ¬ q < p) ∧
        ofPatterns ps refusal? = .error (.inPattern p flaw)) ∧
    (∀ ps : List String, (∀ p ∈ ps, ¬ Unreadable p) →
      ∃ l : IgnoreList, l.patterns = (OrderedSet.ofList ps).toList ∧
        (∀ reason, refusal? l = some reason → ∃ flaw, ofPatterns ps refusal? = .error flaw ∧
          flaw.subject = String.intercalate ", " l.patterns ∧ flaw.message = reason) ∧
        (refusal? l = Option.none → ofPatterns ps refusal? = .ok l)) ∧
    (∀ (ps : List String) (l : IgnoreList), ofPatterns ps refusal? = .ok l →
      l.patterns = (OrderedSet.ofList ps).toList ∧
      ∀ name, l.ignores name ↔ ∃ p ∈ ps, Fits p name) ∧
    (∀ (ps qs : List String) (l k : IgnoreList), ofPatterns ps refusal? = .ok l →
      ofPatterns qs refusal? = .ok k → (l.patterns = k.patterns ↔ ∀ p, p ∈ ps ↔ p ∈ qs)) ∧
    ((refusal? none = Option.none → ofPatterns [] refusal? = .ok none) ∧ ∀ name, ¬ none.ignores name) ∧
    ∀ (c : Codebase) (o : GraphOptions) (l k : IgnoreList),
      (CacheKey.of c { o with ignore := l } = CacheKey.of c { o with ignore := k } ↔
        l.patterns = k.patterns) ∧
      (l.patterns = k.patterns → (∀ name, l.ignores name = k.ignores name) ∧
        ∀ pick, ModuleGraph.build c { o with ignore := l } pick =
          ModuleGraph.build c { o with ignore := k } pick) := by
  refine ⟨fun _ _ ↦ ofPatterns_congr, fun _ ↦ ofPatterns_of_unreadable, fun ps h ↦ ?_,
    fun ps l h ↦ ⟨patterns_of_ofPatterns h, fun name ↦ ?_⟩, fun _ _ _ _ ↦ patterns_eq_iff,
    ⟨fun h ↦ ?_, fun name ↦ ?_⟩, fun c o l k ↦ ⟨⟨fun h ↦ ?_, fun h ↦ ?_⟩, fun h ↦ ?_⟩⟩
  · obtain ⟨l, hl, hrefused, hok⟩ := ofPatterns_of_readable h refusal?
    exact ⟨l, hl, fun reason hreason ↦ ⟨_, hrefused reason hreason, rfl, rfl⟩, hok⟩
  · simp only [ignores_iff, mem_patterns h]
  · obtain ⟨l, hl, -, hok⟩ := @ofPatterns_of_readable [] nofun refusal?
    obtain rfl : l = none := eq_of_patterns hl
    exact hok h
  · simp [none, ignores]
  · exact congrArg CacheKey.ignored h
  · rw [eq_of_patterns h]
  · rw [eq_of_patterns h]
    exact ⟨fun _ ↦ rfl, fun _ ↦ rfl⟩

/-- Patterns that cannot be read, a pattern that is nested too deeply, and patterns of which all is well. -/
theorem ofPatterns_exact_variants :
    ofPatterns ["lib.*", "*.Main", "lib.*"] = ofPatterns ["*.Main", "lib.*"] ∧
    (∃ flaw, ofPatterns ["\x7b", "z", "[", "z"] = .error (.inPattern "[" flaw)) ∧
    (∃ flaw, ofPatterns [String.ofList (braced 250)] = .error flaw ∧
      flaw.subject = String.ofList (braced 250)) ∧
    ofPatterns [] = .ok none ∧
    ∃ l k, ofPatterns ["lib.*", "*.Main", "lib.*"] = .ok l ∧ ofPatterns ["*.Main", "lib.*"] = .ok k ∧
      l.patterns = ["*.Main", "lib.*"] ∧ l.ignores "shop.Main" ∧ ¬ l.ignores "shop.Order" ∧
      l.patterns = k.patterns ∧
      CacheKey.of default { ignore := l } = CacheKey.of default { ignore := k } ∧
      l.ignores "shop.Main" = k.ignores "shop.Main" := by
  obtain ⟨hset, hunreadable, hreadable, hstored, hequal, hempty, hkey⟩ := ofPatterns_exact depthRefusal?
  have hsame : ∀ p, p ∈ ["lib.*", "*.Main", "lib.*"] ↔ p ∈ ["*.Main", "lib.*"] := by grind
  have hfirst : ∃ flaw, ofPatterns ["\x7b", "z", "[", "z"] = .error (.inPattern "[" flaw) := by
    have hclass : Unreadable "[" := by decide
    obtain ⟨p, hp, flaw, hflaw, hleast, herror⟩ :=
      hunreadable ["\x7b", "z", "[", "z"] ⟨"[", by decide, hclass⟩
    have honly : ∀ p ∈ ["\x7b", "z", "[", "z"], Unreadable p → p = "[" ∨ "[" < p := by decide
    rcases honly p hp ⟨flaw, hflaw⟩ with rfl | hlt
    · exact ⟨flaw, herror⟩
    · exact absurd hlt (hleast "[" (by decide) hclass)
  have hdeep : ∃ flaw, ofPatterns [String.ofList (braced 250)] = .error flaw ∧
      flaw.subject = String.ofList (braced 250) := by
    have htoo : TooDeep (String.ofList (braced 250)) := tooDeep_braced (by decide)
    obtain ⟨l, hl, hrefused, -⟩ := hreadable [String.ofList (braced 250)]
      (List.forall_mem_singleton.2 (not_unreadable_of_tooDeep htoo))
    cases hreason : l.depthRefusal? with
    | none => exact absurd htoo (depthRefusal?_eq_none_iff.1 hreason _ (hl ▸ List.mem_singleton_self _))
    | some reason =>
      obtain ⟨flaw, herror, hsubject, -⟩ := hrefused reason hreason
      exact ⟨flaw, herror, hsubject.trans (hl ▸ rfl)⟩
  have hfine : ∀ p ∈ ["lib.*", "*.Main", "lib.*"], ¬ Unreadable p ∧ ¬ TooDeep p := by decide
  obtain ⟨l, hl⟩ := ofPatterns_of_sound hfine
  obtain ⟨k, hk⟩ := @ofPatterns_of_sound ["*.Main", "lib.*"] fun p hp ↦ hfine p ((hsame p).2 hp)
  obtain ⟨hpatterns, hignores⟩ := hstored _ _ hl
  have halike := (hequal _ _ _ _ hl hk).2 hsame
  have hresult := hkey default {} l k
  have hmain : ∃ p ∈ ["lib.*", "*.Main", "lib.*"], Fits p "shop.Main" := by decide
  have horder : ¬ ∃ p ∈ ["lib.*", "*.Main", "lib.*"], Fits p "shop.Order" := by decide
  exact ⟨hset _ _ hsame, hfirst, hdeep, hempty.1 rfl, l, k, hl, hk, hpatterns.trans (by decide),
    (hignores _).2 hmain, mt (hignores _).1 horder, halike, hresult.1.2 halike, (hresult.2 halike).1 _⟩

/-- Patterns that can all be read, one of them nested too deeply: the flaw names neither of them but the two
together. Alone the sound pattern makes a list, and the other one is named. -/
theorem deep_pattern_not_named :
    ∃ flaw, ofPatterns ["a", String.ofList (braced 250)] = .error flaw ∧
      flaw.subject = "a, " ++ String.ofList (braced 250) ∧
      flaw.subject ∉ ["a", String.ofList (braced 250)] ∧
      (∃ l, ofPatterns ["a"] = .ok l) ∧
      ∃ alone, ofPatterns [String.ofList (braced 250)] = .error alone ∧
        alone.subject = String.ofList (braced 250) := by
  have hdeep : TooDeep (String.ofList (braced 250)) := tooDeep_braced (by decide)
  have hreadable := not_unreadable_of_tooDeep hdeep
  have hletter : ∀ p ∈ ["a"], ¬ Unreadable p ∧ ¬ TooDeep p := by decide
  obtain ⟨reason, hboth⟩ := @ofPatterns_of_tooDeep ["a", String.ofList (braced 250)]
    (List.forall_mem_cons.2 ⟨(hletter _ (.head _)).1, List.forall_mem_singleton.2 hreadable⟩)
    ⟨_, .tail _ (.head _), hdeep⟩
  obtain ⟨reason', halone⟩ := @ofPatterns_of_tooDeep [String.ofList (braced 250)]
    (List.forall_mem_singleton.2 hreadable) ⟨_, .head _, hdeep⟩
  rw [OrderedSet.toList_ofList (List.pairwise_pair.2 (letter_lt_braced 249))] at hboth
  exact ⟨_, hboth, rfl, joined_notMem_pair "a" _, ofPatterns_of_sound hletter, _, halone, rfl⟩

end IgnoreList

end Modularity
