import Modularity.Proofs.Graph.Layout

namespace Modularity

namespace Layout

theorem repeatedModule?_eq_none {ms : List Module} :
    repeatedModule? ms = none ↔ ms.IsChain fun m n ↦ m.name ≠ n.name := by
  induction ms with
  | nil => simp [repeatedModule?]
  | cons m ms ih =>
    cases ms with
    | nil => simp [repeatedModule?]
    | cons n rest => rw [repeatedModule?, List.isChain_cons_cons, ← ih]; split <;> simp [*]

theorem Candidate.module_eq_ok {k : Candidate} {c : Codebase} {o : GraphOptions} {m : Module}
    (h : k.module c o = .ok m) :
    m = { name := k.moduleName o.naming, displayName := m.displayName, root := k.root,
          space := ⟨c, k.space⟩, declaration := ((c.descriptor? k.space).bind (·.module)).getD {},
          stereotypes := o.stereotypes, platform := o.platform } := by
  simp only [Candidate.module, Module.ofNamespace] at h
  split at h <;> split at h
  · nomatch h
  · obtain rfl := Except.ok.inj h
    rfl
  · nomatch h
  · obtain rfl := Except.ok.inj h
    rfl

end Layout

namespace ModuleGraph

open Layout Namespace

section

variable {α β γ ε : Type} {f : α → Except ε β} {xs : List α} {pick : Nat} {e : ε}

theorem mem_failures : e ∈ failures f xs ↔ ∃ x ∈ xs, f x = .error e := by
  rw [failures, List.mem_filterMap]
  refine exists_congr fun x ↦ and_congr_right fun _ ↦ ?_
  cases f x <;> simp

theorem gather_eq_ok {ys : List β} : gather f xs pick = .ok ys ↔ xs.mapM f = .ok ys := by
  rw [gather]
  cases xs.mapM f <;> simp

theorem gather_of_error (h : (failures f xs)[pick]? = some e) : gather f xs pick = .error e := by
  obtain ⟨hlt, -⟩ := List.getElem?_eq_some_iff.1 h
  obtain ⟨x, hx, hfail⟩ := mem_failures.1 (List.mem_of_getElem? h)
  rw [gather]
  cases hall : xs.mapM f with
  | ok ys =>
    obtain ⟨y, -, hy⟩ := exists_of_mapM_ok hall hx
    nomatch hfail.symm.trans hy
  | error first =>
    dsimp only
    rw [Nat.mod_eq_of_lt hlt, List.getD_eq_getElem?_getD, h, Option.getD_some]

/-- Each of the errors may be the one that is told, and no other. -/
theorem exists_gather_eq_error : (∃ pick, gather f xs pick = .error e) ↔ ∃ x ∈ xs, f x = .error e := by
  rw [← mem_failures]
  constructor
  · intro hx
    obtain ⟨pick, hpick⟩ := hx
    rw [gather] at hpick
    cases hall : xs.mapM f with
    | ok ys =>
      rw [hall] at hpick
      nomatch hpick
    | error first =>
      rw [hall] at hpick
      have hfirst : first ∈ failures f xs := mem_failures.2 (exists_of_mapM_error hall)
      have hlt : pick % (failures f xs).length < (failures f xs).length :=
        Nat.mod_lt _ (List.length_pos_of_mem hfirst)
      obtain rfl := Except.error.inj hpick
      rw [List.getD_eq_getElem?_getD, List.getElem?_eq_getElem hlt, Option.getD_some]
      exact List.getElem_mem hlt
  · intro hmem
    obtain ⟨pick, hpick⟩ := List.getElem?_of_mem hmem
    exact ⟨pick, gather_of_error hpick⟩

theorem gather_map {g : α → Except ε γ} {k : β → γ} (h : ∀ x, g x = (f x).map k) :
    gather g xs pick = (gather f xs pick).map (List.map k) := by
  have hall : xs.mapM g = (xs.mapM f).map (List.map k) := by
    rw [← mapM_map_ok]
    exact congrArg (List.mapM · xs) (funext h)
  have hfailures : failures g xs = failures f xs := by
    refine List.filterMap_congr fun x _ ↦ ?_
    rw [h]
    cases f x <;> rfl
  rw [gather, gather, hall, hfailures]
  cases xs.mapM f <;> rfl

end

/-- An error that a build may fail with. -/
def MayFail (c : Codebase) (o : GraphOptions) (err : LayoutError) : Prop :=
  ∃ pick, build c o pick = .error err

structure Built (c : Codebase) (o : GraphOptions) (g : ModuleGraph) : Prop where
  roots : checkedRoots c o.roots = .ok (trimmedRoots o.roots)
  codebase : g.codebase = c.restrict (trimmedRoots o.roots) o.ignore
  options : g.options = o
  laidOut : ∃ ks ms, candidates o.detection g.codebase (trimmedRoots o.roots) = .ok ks ∧
    ks.mapM (·.module g.codebase o) = .ok ms ∧ g.modules = sortBy (·.name) ms
  ascending : g.modules.Pairwise fun m n ↦ m.name < n.name
  shared : findShared g.modules o.shared = .ok g.shared
  owners : g.owners = ownerTable g.codebase.arena.size g.modules
  fresh : g.isVerified = false

variable {c : Codebase} {o : GraphOptions} {g : ModuleGraph} {pick : Nat}

theorem modulesOf_eq_ok {roots : List String} {modules : List Module} :
    modulesOf c roots o pick = .ok modules ↔
      ∃ ks ms, candidates o.detection c roots = .ok ks ∧ ks.mapM (·.module c o) = .ok ms ∧
        modules = sortBy (·.name) ms ∧ modules.Pairwise fun m n ↦ m.name < n.name := by
  simp only [modulesOf, bind_ok_iff, gather_eq_ok]
  refine exists_congr fun ks ↦ ⟨?_, ?_⟩
  · intro hx
    obtain ⟨hks, ms, hms, hrep⟩ := hx
    cases hnone : repeatedModule? (sortBy (·.name) ms) with
    | some pair =>
      simp only [hnone, reduceCtorEq] at hrep
    | none =>
      rw [hnone] at hrep
      obtain rfl := Except.ok.inj hrep
      exact ⟨ms, hks, hms, rfl, StrictLinear.ascending_of_isChain
        (repeatedModule?_eq_none.1 hnone) (sortBy_pairwise _ _)⟩
  · intro hy
    obtain ⟨ms, hks, hms, rfl, hasc⟩ := hy
    refine ⟨hks, ms, hms, ?_⟩
    have hnone : repeatedModule? (sortBy (·.name) ms) = none :=
      repeatedModule?_eq_none.2 (hasc.imp StrictLinear.ne_of_lt).isChain
    rw [hnone]

theorem build_eq_ok : build c o pick = .ok g ↔ Built c o g := by
  simp only [build, bind_ok_iff, pure, Except.pure, Except.ok.injEq]
  constructor
  · intro hx
    obtain ⟨roots, hroots, modules, hmodules, shared, hshared, rfl⟩ := hx
    obtain ⟨rfl, -⟩ := checkedRoots_eq_ok.1 hroots
    obtain ⟨ks, ms, hks, hms, rfl, hasc⟩ := modulesOf_eq_ok.1 hmodules
    exact ⟨hroots, rfl, rfl, ⟨ks, ms, hks, hms, rfl⟩, hasc, hshared, rfl, rfl⟩
  · intro h
    obtain ⟨ks, ms, hks, hms, hsorted⟩ := h.laidOut
    refine ⟨_, h.roots, g.modules, ?_, g.shared, h.shared, ?_⟩
    · rw [← h.codebase]
      exact modulesOf_eq_ok.2 ⟨ks, ms, hks, hms, hsorted, h.ascending⟩
    · have hcode := h.codebase
      have hoptions := h.options
      have howners := h.owners
      have hfresh := h.fresh
      cases g
      simp only at hcode hoptions howners hfresh
      subst hcode hoptions howners hfresh
      rfl

theorem build_ok_any {pick' : Nat} (h : build c o pick = .ok g) : build c o pick' = .ok g :=
  build_eq_ok.2 (build_eq_ok.1 h)

theorem mayFail_congr {α : Type} {d : Codebase} {p : GraphOptions} {f f' : ModuleGraph → α}
    {err : LayoutError} (h : ∀ pick, (build d p pick).map f = (build c o pick).map f') :
    MayFail d p err ↔ MayFail c o err :=
  exists_congr fun pick ↦ by rw [← @map_error_iff _ _ _ _ f, h, map_error_iff]

namespace Built

theorem mem_modules (h : Built c o g) :
    ∃ ks, candidates o.detection g.codebase (trimmedRoots o.roots) = .ok ks ∧
      (∀ m, m ∈ g.modules ↔ ∃ k ∈ ks, k.module g.codebase o = .ok m) ∧
        ∀ k ∈ ks, ∃ m ∈ g.modules, k.module g.codebase o = .ok m := by
  obtain ⟨ks, ms, hks, hms, hsorted⟩ := h.laidOut
  refine ⟨ks, hks, fun m ↦ ?_, fun k hk ↦ ?_⟩
  · rw [hsorted, mem_sortBy, mem_of_mapM_ok hms]
  · obtain ⟨m, hm, hkm⟩ := exists_of_mapM_ok hms hk
    exact ⟨m, hsorted ▸ mem_sortBy.2 hm, hkm⟩

variable {m n : Module}

theorem exists_candidate (h : Built c o g) (hm : m ∈ g.modules) :
    ∃ ks, candidates o.detection g.codebase (trimmedRoots o.roots) = .ok ks ∧
      ∃ k ∈ ks, k.module g.codebase o = .ok m := by
  obtain ⟨ks, hks, hmem, -⟩ := h.mem_modules
  exact ⟨ks, hks, (hmem m).1 hm⟩

theorem apart (h : Built c o g) :
    (trimmedRoots o.roots).Pairwise fun a b ↦ ¬ isWithin a b ∧ ¬ isWithin b a :=
  (checkedRoots_eq_ok.1 h.roots).2.2.2

theorem module_codebase (h : Built c o g) (hm : m ∈ g.modules) : m.codebase = g.codebase := by
  obtain ⟨ks, -, k, -, hk⟩ := h.exists_candidate hm
  rw [Candidate.module_eq_ok hk]
  rfl

theorem module_stereotypes (h : Built c o g) (hm : m ∈ g.modules) :
    m.stereotypes = o.stereotypes := by
  obtain ⟨ks, -, k, -, hk⟩ := h.exists_candidate hm
  rw [Candidate.module_eq_ok hk]

theorem module_platform (h : Built c o g) (hm : m ∈ g.modules) : m.platform = o.platform := by
  obtain ⟨ks, -, k, -, hk⟩ := h.exists_candidate hm
  rw [Candidate.module_eq_ok hk]

theorem module_root (h : Built c o g) (hm : m ∈ g.modules) :
    m.root ∈ trimmedRoots o.roots ∧ isWithin m.root m.space.name := by
  obtain ⟨ks, hks, k, hk, hkm⟩ := h.exists_candidate hm
  rw [Candidate.module_eq_ok hkm]
  exact candidates_root hks hk

/-- No module lies within another one. -/
theorem eq_of_isWithin (h : Built c o g) (hm : m ∈ g.modules) (hn : n ∈ g.modules)
    (hwithin : isWithin m.space.name n.space.name) : m = n := by
  obtain ⟨ks, hks, hmem, -⟩ := h.mem_modules
  obtain ⟨k, hk, hkm⟩ := (hmem m).1 hm
  obtain ⟨k', hk', hkn⟩ := (hmem n).1 hn
  rw [Candidate.module_eq_ok hkm, Candidate.module_eq_ok hkn] at hwithin
  obtain rfl := candidates_disjoint h.apart hks hk hk' hwithin
  exact Except.ok.inj (hkm.symm.trans hkn)

theorem eq_of_name (h : Built c o g) (hm : m ∈ g.modules) (hn : n ∈ g.modules)
    (hname : m.name = n.name) : m = n := by
  have hfind := StrictLinear.find?_key h.ascending hm
  rw [hname, StrictLinear.find?_key h.ascending hn] at hfind
  exact (Option.some.inj hfind).symm

theorem module?_eq_some_iff (h : Built c o g) {name : String} :
    g.module? name = some m ↔ m ∈ g.modules ∧ m.name = name := by
  constructor
  · exact fun hfind ↦ ⟨List.mem_of_find?_eq_some hfind, by simpa using List.find?_some hfind⟩
  · intro hx
    obtain ⟨hm, rfl⟩ := hx
    exact StrictLinear.find?_key h.ascending hm

end Built

end ModuleGraph

end Modularity
