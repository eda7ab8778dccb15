import Modularity.Graph.Cache
import Modularity.Proofs.Graph.Outline

namespace Modularity

open ModuleGraph

variable {c d : Codebase} {o p : GraphOptions} {g : ModuleGraph} {pick : Nat}

theorem Violations.verdict_eq_ok_iff {vs : Violations} : vs.verdict = .ok () ↔ vs.isEmpty := by
  rw [verdict]
  cases vs.isEmpty <;> simp

theorem alike_of_key (hkey : CacheKey.of c o = CacheKey.of d p) (hst : p.stereotypes = o.stereotypes) :
    o.Alike p := by
  have hroots : (OrderedSet.ofList p.roots).toList = (OrderedSet.ofList o.roots).toList :=
    congrArg CacheKey.roots hkey.symm
  refine ⟨?_, ?_, ?_, ?_, ?_, hst, ?_⟩
  · have hmem : ∀ root, root ∈ p.roots ↔ root ∈ o.roots := fun root ↦ by
      rw [← OrderedSet.mem_ofList, ← OrderedSet.mem_ofList, ← OrderedSet.mem_toList, hroots,
        OrderedSet.mem_toList]
    refine congrArg OrderedSet.toList (OrderedSet.ext fun root ↦ ?_)
    rw [OrderedSet.mem_ofList, OrderedSet.mem_ofList, List.mem_map, List.mem_map]
    simp only [hmem]
  · exact IgnoreList.eq_of_patterns (congrArg CacheKey.ignored hkey.symm)
  · exact congrArg CacheKey.detection hkey.symm
  · exact congrArg CacheKey.naming hkey.symm
  · exact congrArg CacheKey.shared hkey.symm
  · have hstarts : p.platform.starts = o.platform.starts :=
      congrArg CacheKey.platformStarts hkey.symm
    rw [Platform.mk.injEq]
    exact hstarts

namespace GraphCache

inductive Call where
  | request (c : Codebase) (o : GraphOptions)
  | clear
  | verify (n : Nat)

/-- The cache after a call. A request leaves the same in it whichever error it is answered with, as
`request_cache` states. -/
def step (s : GraphCache) : Call → GraphCache
  | .request c o => (s.request c o).2
  | .clear => s.clear
  | .verify n => ((s.verify n).map (·.2)).getD s

def run (calls : List Call) : GraphCache := calls.foldl step {}

/-- One of the calls, after which the cache was not cleared. -/
def Recent (calls : List Call) (call : Call) : Prop :=
  ∃ before after, calls = before ++ call :: after ∧ .clear ∉ after

/-- What the requests among some calls are relied on for: codebases come from assemblies and
restrictions, fingerprints do not collide, and the numbers of stereotypes identify them. -/
structure Trusted (calls : List Call) : Prop where
  reachable : ∀ {c o}, .request c o ∈ calls → c.Reachable
  injective : ∀ {c o d p}, .request c o ∈ calls → .request d p ∈ calls →
    c.fingerprint = d.fingerprint → Fingerprint.bytes c.content = Fingerprint.bytes d.content
  identified : ∀ {c o d p}, .request c o ∈ calls → .request d p ∈ calls →
    o.instanceNumber = p.instanceNumber → o.stereotypes = p.stereotypes

/-- A build with the key of an earlier request gives what that request gave. -/
theorem Trusted.outline_eq {calls : List Call} (h : Trusted calls) (hc : .request c o ∈ calls)
    (hd : .request d p ∈ calls) (hkey : CacheKey.of c o = CacheKey.of d p) :
    (build d p pick).map outline = (build c o pick).map outline := by
  have hbytes := h.injective hc hd (congrArg CacheKey.fingerprint hkey)
  have hst := h.identified hd hc (congrArg CacheKey.instanceNumber hkey.symm)
  exact build_outline_of_bytes (h.reachable hc).coherent (h.reachable hd).coherent hbytes
    (alike_of_key hkey hst) pick

/-- What every call keeps: a mark stands on graphs without violations only, and the graph in a slot is
one that a request with that key gave since the cache was cleared, up to the mark. -/
structure Faithful (calls : List Call) (s : GraphCache) : Prop where
  marks : ∀ {n g}, s.graph? n = some g → g.isVerified → g.violations.isEmpty
  slots : ∀ {key n}, s.slot? key = some n → ∃ c o, Recent calls (.request c o) ∧
    CacheKey.of c o = key ∧ ∃ g b, build c o = .ok g ∧ s.graph? n = some { g with isVerified := b }

variable {s : GraphCache} {calls all : List Call} {call : Call} {n : Nat}

theorem Recent.mem (h : Recent calls call) : call ∈ calls := by
  obtain ⟨before, after, rfl, -⟩ := h
  exact List.mem_append_right _ (List.mem_cons_self ..)

theorem Recent.append (h : Recent calls call) {next : Call} (hnext : next ≠ .clear) :
    Recent (calls ++ [next]) call := by
  obtain ⟨before, after, rfl, hafter⟩ := h
  refine ⟨before, after ++ [next], by simp, fun hmem ↦ ?_⟩
  rcases List.mem_append.1 hmem with hmem | hmem
  · exact hafter hmem
  · exact hnext (List.mem_singleton.1 hmem).symm

theorem recent_last (calls : List Call) (call : Call) : Recent (calls ++ [call]) call :=
  ⟨calls, [], rfl, List.not_mem_nil⟩

/-! ### Single calls -/

theorem slot?_fill (s : GraphCache) (k key : CacheKey) (n : Option Nat) :
    (s.fill k n).slot? key = if key = k then n else s.slot? key := by
  have hlookup : (s.fill k n).slots.lookup key = if key = k then some n else s.slots.lookup key := by
    rw [fill, List.lookup_cons]
    by_cases hkey : key = k
    · simp [hkey]
    · have hne : (key == k) = false := by simpa using hkey
      rw [hne, if_neg hkey]
      induction s.slots with
      | nil => rfl
      | cons entry slots ih =>
        by_cases hentry : entry.1 = k
        · have hskip : (key == entry.1) = false := by simpa [hentry] using hkey
          rw [List.filter_cons_of_neg (by simpa using hentry), List.lookup_cons, hskip]
          exact ih
        · rw [List.filter_cons_of_pos (by simpa using hentry), List.lookup_cons, List.lookup_cons]
          cases key == entry.1 with
          | true => rfl
          | false => exact ih
  rw [slot?, slot?, hlookup]
  split <;> rfl

/-- A request is answered from its slot, or by a build that fails, or by one that adds a graph. -/
theorem request_cases (s : GraphCache) (c : Codebase) (o : GraphOptions) (pick : Nat := 0) :
    (∃ n, s.slot? (.of c o) = some n ∧ s.request c o pick = (.ok n, s)) ∨
    (∃ err, build c o pick = .error err ∧
      s.request c o pick = (.error err, s.fill (.of c o) none)) ∨
    ∃ g, build c o pick = .ok g ∧ s.request c o pick = (.ok s.graphs.length,
      { s.fill (.of c o) (some s.graphs.length) with graphs := s.graphs ++ [g] }) := by
  rw [request]
  dsimp only
  cases s.slot? (.of c o) with
  | some n => exact .inl ⟨n, rfl, rfl⟩
  | none =>
    cases build c o pick with
    | error err => exact .inr (.inl ⟨err, rfl, rfl⟩)
    | ok g => exact .inr (.inr ⟨g, rfl, rfl⟩)

theorem slot?_request (h : (s.request c o).1 = .ok n) : (s.request c o).2.slot? (.of c o) = some n := by
  obtain ⟨m, hm, heq⟩ | ⟨err, -, heq⟩ | ⟨g, -, heq⟩ := s.request_cases c o
  · rw [heq] at h ⊢
    exact hm.trans (congrArg some (Except.ok.inj h))
  · rw [heq] at h
    nomatch h
  · rw [heq] at h ⊢
    have hfilled := s.slot?_fill (.of c o) (.of c o) (some s.graphs.length)
    rw [if_pos rfl] at hfilled
    exact hfilled.trans (congrArg some (Except.ok.inj h))

theorem request_of_slot? (h : s.slot? (.of c o) = some n) : s.request c o pick = (.ok n, s) := by
  rw [request, h]

/-- It depends on the run which error a request is answered with, but not what it leaves in the cache. -/
theorem request_cache (s : GraphCache) (c : Codebase) (o : GraphOptions) (pick : Nat) :
    (s.request c o pick).2 = (s.request c o).2 := by
  cases hslot : s.slot? (.of c o) with
  | some n => rw [request_of_slot? hslot, request_of_slot? hslot]
  | none =>
    rw [request, request, hslot]
    dsimp only
    cases hbuild : build c o with
    | error err =>
      cases hpick : build c o pick with
      | error err' => rfl
      | ok g => nomatch hbuild.symm.trans (build_ok_any hpick)
    | ok g =>
      have hpick : build c o pick = .ok g := build_ok_any hbuild
      rw [hpick]

theorem request_again (h : (s.request c o).1 = .ok n) (hkey : CacheKey.of d p = .of c o) :
    ((s.request c o).2.request d p).1 = .ok n := by
  have hslot := slot?_request h
  rw [← hkey] at hslot
  rw [request_of_slot? hslot]

theorem step_verify_cases (s : GraphCache) (n : Nat) :
    s.step (.verify n) = s ∨ ∃ g g', s.graph? n = some g ∧ g.verify = .ok g' ∧
      s.step (.verify n) = { s with graphs := s.graphs.set n g' } := by
  rw [step, verify]
  cases s.graph? n with
  | none => exact .inl rfl
  | some g =>
    rw [Option.map_some, Option.map_some, Option.getD_some]
    cases hverify : g.verify with
    | error vs => exact .inl rfl
    | ok g' => exact .inr ⟨g, g', rfl, hverify, rfl⟩

theorem marked_of_verify {g' : ModuleGraph} (h : g.verify = .ok g') :
    g' = { g with isVerified := true } ∧ (g.isVerified ∨ g.violations.isEmpty) := by
  rw [ModuleGraph.verify] at h
  split at h
  · rename_i hmark
    obtain rfl := Except.ok.inj h
    exact ⟨by rw [← hmark], .inl hmark⟩
  · obtain ⟨_, hpassed, rfl⟩ := map_ok_iff.1 h
    exact ⟨rfl, .inr (Violations.verdict_eq_ok_iff.1 hpassed)⟩

/-! ### Steps and runs -/

theorem violations_of_outline {g g' : ModuleGraph} (h : g'.outline = g.outline) :
    g'.violations = g.violations := congrArg Outline.violations h

/-- No call takes a graph away or changes anything but its mark. -/
theorem graph?_step (call : Call) (hg : s.graph? n = some g) :
    ∃ b, (s.step call).graph? n = some { g with isVerified := b } := by
  cases call with
  | request c o =>
    rw [step]
    obtain ⟨m, -, heq⟩ | ⟨err, -, heq⟩ | ⟨built, -, heq⟩ := s.request_cases c o
    · rw [heq]
      exact ⟨g.isVerified, hg⟩
    · rw [heq]
      exact ⟨g.isVerified, hg⟩
    · rw [heq]
      refine ⟨g.isVerified, ?_⟩
      have hlt : n < s.graphs.length := (List.getElem?_eq_some_iff.1 hg).1
      exact (List.getElem?_append_left hlt).trans hg
  | clear => exact ⟨g.isVerified, hg⟩
  | verify m =>
    obtain heq | ⟨old, new, hold, hverify, heq⟩ := s.step_verify_cases m
    · rw [heq]
      exact ⟨g.isVerified, hg⟩
    · rw [heq]
      by_cases hmn : m = n
      · subst hmn
        obtain rfl := Option.some.inj (hold.symm.trans hg)
        have hlt : m < s.graphs.length := (List.getElem?_eq_some_iff.1 hg).1
        exact ⟨true, (List.getElem?_set_self hlt).trans (congrArg some (marked_of_verify hverify).1)⟩
      · exact ⟨g.isVerified, (List.getElem?_set_ne hmn).trans hg⟩

theorem graph?_foldl (more : List Call) (hg : s.graph? n = some g) :
    ∃ g', (more.foldl step s).graph? n = some g' ∧ g'.outline = g.outline := by
  induction more generalizing s g with
  | nil => exact ⟨g, hg, rfl⟩
  | cons call more ih =>
    obtain ⟨b, hb⟩ := graph?_step call hg
    obtain ⟨final, hfinal, heq⟩ := ih hb
    exact ⟨final, hfinal, heq⟩

theorem marks_step (call : Call) (h : ∀ {n g}, s.graph? n = some g → g.isVerified → g.violations.isEmpty)
    (hg : (s.step call).graph? n = some g) (hmark : g.isVerified) : g.violations.isEmpty := by
  cases call with
  | request c o =>
    rw [step] at hg
    obtain ⟨m, -, heq⟩ | ⟨err, -, heq⟩ | ⟨built, hbuild, heq⟩ := s.request_cases c o
    · rw [heq] at hg
      exact h hg hmark
    · rw [heq] at hg
      exact h hg hmark
    · rw [heq] at hg
      rcases List.mem_append.1 (List.mem_of_getElem? hg) with hmem | hmem
      · obtain ⟨m, hm⟩ := List.getElem?_of_mem hmem
        exact h hm hmark
      · obtain rfl := List.mem_singleton.1 hmem
        rw [(build_eq_ok.1 hbuild).fresh] at hmark
        nomatch hmark
  | clear => exact h hg hmark
  | verify m =>
    obtain heq | ⟨old, new, hold, hverify, heq⟩ := s.step_verify_cases m
    · rw [heq] at hg
      exact h hg hmark
    · rw [heq] at hg
      rcases List.mem_or_eq_of_mem_set (List.mem_of_getElem? hg) with hmem | rfl
      · obtain ⟨i, hi⟩ := List.getElem?_of_mem hmem
        exact h hi hmark
      · obtain ⟨rfl, hpassed⟩ := marked_of_verify hverify
        have hsame : ({ old with isVerified := true } : ModuleGraph).violations = old.violations := rfl
        rw [hsame]
        exact hpassed.elim (h hold) id

theorem slot?_step (call : Call) {key : CacheKey} (hslot : (s.step call).slot? key = some n) :
    call ≠ .clear ∧ s.slot? key = some n ∨ ∃ c o g, call = .request c o ∧ CacheKey.of c o = key ∧
      (s.step call).graph? n = some g ∧ build c o = .ok g := by
  cases call with
  | request c o =>
    rw [step] at hslot ⊢
    obtain ⟨m, -, heq⟩ | ⟨err, -, heq⟩ | ⟨built, hbuild, heq⟩ := s.request_cases c o
    · rw [heq] at hslot
      exact .inl ⟨nofun, hslot⟩
    · rw [heq, slot?_fill] at hslot
      split at hslot
      · nomatch hslot
      · exact .inl ⟨nofun, hslot⟩
    · rw [heq] at hslot ⊢
      replace hslot : (s.fill (.of c o) (some s.graphs.length)).slot? key = some n := hslot
      rw [slot?_fill] at hslot
      split at hslot
      · rename_i hkey
        obtain rfl := Option.some.inj hslot
        exact .inr ⟨c, o, built, rfl, hkey.symm, List.getElem?_concat_length, hbuild⟩
      · exact .inl ⟨nofun, hslot⟩
  | clear => nomatch hslot
  | verify m =>
    obtain heq | ⟨old, new, -, -, heq⟩ := s.step_verify_cases m
    · rw [heq] at hslot
      exact .inl ⟨nofun, hslot⟩
    · rw [heq] at hslot
      exact .inl ⟨nofun, hslot⟩

theorem Faithful.step (h : Faithful calls s) (call : Call) : Faithful (calls ++ [call]) (s.step call) where
  marks := marks_step call h.marks
  slots := by
    intro key n hslot
    obtain ⟨hnext, hold⟩ | ⟨c, o, g, rfl, hkey, hg, hbuild⟩ := slot?_step call hslot
    · -- the slot was there before, and its graph is still the same
      obtain ⟨c, o, hrecent, hkey, g, b, hbuild, hg⟩ := h.slots hold
      obtain ⟨b', hg'⟩ := graph?_step call hg
      exact ⟨c, o, hrecent.append hnext, hkey, g, b', hbuild, hg'⟩
    · exact ⟨c, o, recent_last _ _, hkey, g, g.isVerified, hbuild, hg⟩

theorem run_append (calls more : List Call) : run (calls ++ more) = more.foldl step (run calls) :=
  List.foldl_append

theorem run_request (calls : List Call) (c : Codebase) (o : GraphOptions) :
    run (calls ++ [.request c o]) = ((run calls).request c o).2 := run_append calls _

theorem faithful_run (calls : List Call) : Faithful calls (run calls) := by
  induction calls using List.reverseRecOn with
  | nil =>
    refine ⟨fun {n g} hg ↦ ?_, fun {key n} hslot ↦ ?_⟩
    · nomatch hg
    · nomatch hslot
  | append_singleton calls call ih =>
    rw [run_append]
    exact ih.step call

/-! ### Answers -/

theorem Faithful.request (h : Faithful calls s) (ht : Trusted all) (hcalls : ∀ call ∈ calls, call ∈ all)
    (hc : .request c o ∈ all) (pick : Nat) :
    (∃ err, (s.request c o pick).1 = .error err ∧ build c o pick = .error err) ∨
    ∃ n g fresh, (s.request c o pick).1 = .ok n ∧ (s.request c o pick).2.graph? n = some g ∧
      build c o pick = .ok fresh ∧ g.outline = fresh.outline := by
  obtain ⟨n, hslot, heq⟩ | ⟨err, hbuild, heq⟩ | ⟨g, hbuild, heq⟩ := s.request_cases c o pick
  · obtain ⟨d, p, hd, hkey, g, b, hbuild, hg⟩ := h.slots hslot
    have houtline : (build c o pick).map outline = .ok g.outline := by
      rw [ht.outline_eq (hcalls _ hd.mem) hc hkey, build_ok_any hbuild]
      rfl
    obtain ⟨fresh, hfresh, hsame⟩ := map_ok_iff.1 houtline
    rw [heq]
    exact .inr ⟨n, _, fresh, rfl, hg, hfresh, hsame.symm⟩
  · rw [heq]
    exact .inl ⟨err, rfl, hbuild⟩
  · rw [heq]
    exact .inr ⟨_, g, g, rfl, List.getElem?_concat_length, hbuild, rfl⟩

theorem Faithful.verify (h : Faithful calls s) (hg : s.graph? n = some g) :
    ∃ s', s.verify n = some (g.violations.verdict, s') := by
  rw [GraphCache.verify, hg, Option.map_some, ModuleGraph.verify]
  by_cases hmark : g.isVerified
  · rw [if_pos hmark, Violations.verdict_eq_ok_iff.2 (h.marks hg hmark)]
    exact ⟨_, rfl⟩
  · rw [if_neg hmark]
    cases hverdict : g.violations.verdict with
    | ok u => exact ⟨_, rfl⟩
    | error vs => exact ⟨_, rfl⟩

/-- A cached graph is as good as a fresh one. In any run of requests, verifications and clearings a request
may fail with the errors that the build may fail with and with no others, and the cache is left the same
whichever it is; it succeeds exactly when the build does. Then the graph that it hands out keeps, to the end
of the run, the outline of the graph that the build gives; and verification of it gives the verdict on the
violations of that graph. -/
theorem cached_as_fresh {before after : List Call} (h : Trusted (before ++ .request c o :: after)) :
    (∀ err, (∃ pick, ((run before).request c o pick).1 = .error err) ↔ MayFail c o err) ∧
    (∀ pick, ((run before).request c o pick).2 = run (before ++ [.request c o])) ∧
    (∀ pick pick', (∃ n, ((run before).request c o pick).1 = .ok n) ↔
      ∃ fresh, build c o pick' = .ok fresh) ∧
    ∀ pick pick' n fresh, ((run before).request c o pick).1 = .ok n → build c o pick' = .ok fresh →
      ∃ g, (run (before ++ .request c o :: after)).graph? n = some g ∧ g.outline = fresh.outline ∧
        ∃ answer s, (run (before ++ .request c o :: after)).verify n = some (answer, s) ∧
          answer = fresh.violations.verdict ∧ (answer = .ok () ↔ fresh.violations.isEmpty) := by
  have hin : ∀ call ∈ before, call ∈ before ++ .request c o :: after :=
    fun call hcall ↦ List.mem_append_left _ hcall
  have hanswer := (faithful_run before).request h hin (List.mem_append_right _ (List.mem_cons_self ..))
  refine ⟨fun err ↦ exists_congr fun pick ↦ ?_, fun pick ↦ ?_, fun pick pick' ↦ ?_,
    fun pick pick' n fresh hn hbuild ↦ ?_⟩
  · obtain ⟨err', heq, hbuild⟩ | ⟨n, g, fresh, heq, -, hbuild, -⟩ := hanswer pick <;> rw [heq, hbuild]
    · rw [Except.error.injEq, Except.error.injEq]
    · exact iff_of_false nofun nofun
  · rw [request_cache, run_request]
  · have hany : (∃ fresh, build c o pick' = .ok fresh) ↔ ∃ fresh, build c o pick = .ok fresh :=
      exists_congr fun _ ↦ ⟨build_ok_any, build_ok_any⟩
    rw [hany]
    obtain ⟨err, heq, hbuild⟩ | ⟨n, g, fresh, heq, -, hbuild, -⟩ := hanswer pick <;> rw [heq, hbuild]
    · exact iff_of_false nofun nofun
    · exact iff_of_true ⟨n, rfl⟩ ⟨fresh, rfl⟩
  · obtain ⟨err, heq, -⟩ | ⟨m, g, fresh', heq, hg, hbuild', houtline⟩ := hanswer pick
    · nomatch heq.symm.trans hn
    · obtain rfl : m = n := Except.ok.inj (heq.symm.trans hn)
      obtain rfl : fresh' = fresh := Except.ok.inj (hbuild'.symm.trans (build_ok_any hbuild))
      have hrun : run (before ++ .request c o :: after) =
          after.foldl step ((run before).request c o pick).2 := by
        rw [run_append, List.foldl_cons, step, request_cache _ _ _ pick]
      -- whatever is called after the request, the graph of this number tells the same
      obtain ⟨final, hfinal, hkept⟩ := graph?_foldl after hg
      have hsame : final.outline = fresh'.outline := hkept.trans houtline
      have hgraph : (run (before ++ .request c o :: after)).graph? m = some final := hrun ▸ hfinal
      obtain ⟨s, hverify⟩ := (faithful_run _).verify hgraph
      rw [violations_of_outline hsame] at hverify
      exact ⟨final, hgraph, hsame, _, s, hverify, rfl, Violations.verdict_eq_ok_iff⟩

/-- A request for the annex, its root stated twice, is answered by the graph of the shop. -/
theorem cached_as_fresh_annex :
    ((run [.request .shop { roots := ["shop"] }]).request .annex { roots := ["shop", "shop"] }).1 =
      .ok 0 ∧
    ∃ fresh g, build .annex { roots := ["shop", "shop"] } = .ok fresh ∧
      (run ([.request .shop { roots := ["shop"] }] ++ .request .annex { roots := ["shop", "shop"] } ::
        [.verify 0, .clear])).graph? 0 = some g ∧
      g.outline = fresh.outline := by
  have hkey : CacheKey.of .annex { roots := ["shop", "shop"] } =
      CacheKey.of .shop { roots := ["shop"] } := by
    rw [CacheKey.of, CacheKey.of, Codebase.fingerprint, Codebase.fingerprint, Codebase.annex_content]
    rfl
  have hfirst : (({} : GraphCache).request .shop { roots := ["shop"] }).1 = .ok 0 :=
    ok_of_toOption (by decide +kernel)
  have hhit := request_again hfirst hkey
  have htrusted : Trusted ([.request .shop { roots := ["shop"] }] ++
      .request .annex { roots := ["shop", "shop"] } :: [.verify 0, .clear]) := by
    have hrequests : ∀ {c o}, Call.request c o ∈ [.request .shop { roots := ["shop"] }] ++
        .request .annex { roots := ["shop", "shop"] } :: [.verify 0, .clear] →
        (c = .shop ∨ c = .annex) ∧ o.stereotypes = .usual := by
      intro c o hmem
      simp only [List.cons_append, List.nil_append, List.mem_cons, List.not_mem_nil, or_false,
        Call.request.injEq, reduceCtorEq] at hmem
      rcases hmem with ⟨rfl, rfl⟩ | ⟨rfl, rfl⟩
      · exact ⟨.inl rfl, rfl⟩
      · exact ⟨.inr rfl, rfl⟩
    have hcontent : ∀ {c o}, Call.request c o ∈ [.request .shop { roots := ["shop"] }] ++
        .request .annex { roots := ["shop", "shop"] } :: [.verify 0, .clear] →
        c.content = Codebase.shop.content := by
      intro c o hmem
      rcases (hrequests hmem).1 with rfl | rfl
      · rfl
      · exact Codebase.annex_content
    refine ⟨fun hc ↦ ?_, fun hc hd _ ↦ ?_, fun hc hd _ ↦ ?_⟩
    · rcases (hrequests hc).1 with rfl | rfl
      · exact Codebase.shop_reachable
      · exact Codebase.annex_reachable
    · rw [hcontent hc, hcontent hd]
    · exact (hrequests hc).2.trans (hrequests hd).2.symm
  obtain ⟨-, -, hok, hsame⟩ := cached_as_fresh htrusted
  obtain ⟨fresh, hfresh⟩ := (hok 0 0).1 ⟨0, hhit⟩
  obtain ⟨g, hg, houtline, -⟩ := hsame 0 0 0 fresh hhit hfresh
  exact ⟨hhit, fresh, g, hfresh, hg, houtline⟩

end GraphCache

end Modularity
