import Modularity.Proofs.Graph.Dependency
import Modularity.Proofs.Verification.Cycles
import Modularity.Verification.Verify

namespace Modularity

namespace Violations

theorem toList_append (vs ws : Violations) : (vs ++ ws).toList = vs.toList ++ ws.toList := rfl

theorem toList_concat (parts : List Violations) :
    (concat parts).toList = parts.flatMap toList := by
  suffices hfold : ∀ vs : Violations, (parts.foldl append vs).toList = vs.toList ++ parts.flatMap toList by
    simpa [concat, none] using hfold none
  induction parts with
  | nil => exact fun vs ↦ (List.append_nil _).symm
  | cons part parts ih =>
    intro vs
    rw [List.foldl_cons, ih, List.flatMap_cons, ← List.append_assoc]
    rfl

end Violations

namespace AllowList

theorem mem_allow {l : AllowList} {name : String} {p : Permission} :
    p ∈ (l.allow name).permissions ↔ p ∈ l.permissions ∨ p = ⟨name, none⟩ := by
  unfold allow
  dsimp only
  split
  · rename_i hmem
    refine ⟨.inl, fun h ↦ h.elim id fun heq ↦ heq ▸ hmem⟩
  · simp

theorem mem_foldl_allow {names : List String} {l : AllowList} {p : Permission} :
    p ∈ (names.foldl allow l).permissions ↔
      p ∈ l.permissions ∨ ∃ name ∈ names, p = ⟨name, none⟩ := by
  induction names generalizing l with
  | nil => simp
  | cons name names ih =>
    rw [List.foldl_cons, ih, mem_allow, List.exists_mem_cons_iff, or_assoc]

end AllowList

/-- What an allow-list admits: everything if nothing is declared, else the shared modules and what an
entry admits. -/
theorem Module.allowList_admits {m target : Module} {shared : List String} {id : Symbol.Id}
    (hne : target.name ≠ m.name) :
    (m.allowList shared).admits target id ↔ m.declaration.allowed = [] ∨ target.name ∈ shared ∨
      ∃ entry ∈ m.declaration.allowed, (Permission.ofEntry entry).admits target id := by
  unfold Module.allowList
  split
  · rename_i hempty
    simp [AllowList.admits, AllowList.isUnrestricted, AllowList.unrestricted,
      List.isEmpty_iff.1 hempty]
  · rename_i hsome
    rw [List.isEmpty_iff] at hsome
    have hmem : ∀ p, p ∈ ((shared.filter (· ≠ m.name)).foldl AllowList.allow
        ⟨m.declaration.allowed.map Permission.ofEntry⟩).permissions ↔
        (∃ entry ∈ m.declaration.allowed, Permission.ofEntry entry = p) ∨
          ∃ name ∈ shared, name ≠ m.name ∧ p = ⟨name, none⟩ := fun p ↦ by
      simp [AllowList.mem_foldl_allow, and_assoc]
    have hrestricted : ((shared.filter (· ≠ m.name)).foldl AllowList.allow
        ⟨m.declaration.allowed.map Permission.ofEntry⟩).permissions ≠ [] := by
      obtain ⟨entry, hentry⟩ := List.exists_mem_of_ne_nil _ hsome
      exact List.ne_nil_of_mem ((hmem _).2 (.inl ⟨entry, hentry, rfl⟩))
    rw [AllowList.admits, AllowList.isUnrestricted, Bool.or_eq_true, List.isEmpty_iff,
      List.any_eq_true, or_iff_right hrestricted, or_iff_right hsome]
    constructor
    · intro hx
      obtain ⟨p, hp, hadmits⟩ := hx
      rcases (hmem p).1 hp with ⟨entry, hentry, rfl⟩ | ⟨name, hname, -, rfl⟩
      · exact .inr ⟨entry, hentry, hadmits⟩
      · have hsame : name = target.name := by simpa [Permission.admits] using hadmits
        exact .inl (hsame ▸ hname)
    · intro hy
      rcases hy with hshared | ⟨entry, hentry, hadmits⟩
      · exact ⟨_, (hmem _).2 (.inr ⟨_, hshared, hne, rfl⟩), by simp [Permission.admits]⟩
      · exact ⟨_, (hmem _).2 (.inl ⟨entry, hentry, rfl⟩), hadmits⟩

namespace ModuleGraph

open Layout Relation

variable {c : Codebase} {o : GraphOptions} {g : ModuleGraph} {A B m : Module} {t : Symbol.Id}
  {d : Dependency} {root a b : String}

theorem checkDependency_eq_nil_iff {allowed : AllowList} :
    (g.checkDependency A B allowed d).toList = [] ↔
      allowed.admits B d.edge.target ∧ B.exposes d.edge.target ∧
        ¬ (d.edge.isFieldInjection ∧
          ¬ g.options.stereotypes.isConfiguration (g.codebase.symbol d.edge.origin)) := by
  simp only [checkDependency, List.append_eq_nil_iff, and_assoc]
  refine and_congr ?_ (and_congr ?_ ?_)
  · unfold checkAllowed
    split <;> simp_all
  · unfold checkExposed
    split <;> simp_all
  · unfold checkInjection
    by_cases hfield : d.edge.isFieldInjection <;> simp [hfield]

namespace Built

theorem mem_shared (h : Built c o g) (hB : B ∈ g.modules) :
    B.name ∈ g.shared.map (·.name) ↔ B ∈ g.shared := by
  constructor
  · intro hname
    obtain ⟨m, hm, hmB⟩ := List.mem_map.1 hname
    obtain ⟨name, -, hfound⟩ := (mem_of_mapM_ok h.shared).1 hm
    have hmem : m ∈ g.modules := by
      cases hfind : g.modules.find? (·.name = name) with
      | none => simp [hfind] at hfound
      | some n =>
        simp only [hfind, Except.ok.injEq] at hfound
        exact hfound ▸ List.mem_of_find?_eq_some hfind
    exact h.eq_of_name hmem hB hmB ▸ hm
  · exact List.mem_map_of_mem

theorem toList_checkCycles (h : Built c o g) :
    g.checkCycles.toList =
      (trimmedRoots o.roots).flatMap fun root ↦ (g.checkCyclesOfRoot root).toList := by
  have hroots : (OrderedSet.ofList (g.roots.map Text.trim)).toList = trimmedRoots o.roots := by
    rw [ModuleGraph.roots, h.options]
    rfl
  rw [checkCycles, Violations.toList_concat, hroots, List.flatMap_map]

theorem checkCycles_eq_nil_iff (h : Built c o g) :
    g.checkCycles.toList = [] ↔ ∀ root v, ¬ TransGen (g.DependsIn root) v v := by
  have hcycles : g.checkCycles.toList = [] ↔
      ∀ root ∈ trimmedRoots o.roots, g.cyclesOfRoot root = [] := by
    simp [h.toList_checkCycles, checkCyclesOfRoot]
  rw [hcycles]
  constructor
  · intro hall root v hv
    obtain ⟨b, ⟨m, hm, -⟩, -⟩ := TransGen.head'_iff.1 hv
    obtain ⟨hm, hroot⟩ := List.mem_filter.1 hm
    have hmem := (h.module_root hm).1
    simp only [decide_eq_true_eq] at hroot
    rw [hroot] at hmem
    exact h.cyclesOfRoot_eq_nil_iff.1 (hall root hmem) v hv
  · exact fun hall root _ ↦ h.cyclesOfRoot_eq_nil_iff.2 (hall root)

variable (hc : c.Coherent)

include hc

theorem dependsIn_iff (h : Built c o g) :
    g.DependsIn root a b ↔ ∃ A B, A.root = root ∧ B.root = root ∧ A.name = a ∧ B.name = b ∧
      ∃ t, g.Uses A B t := by
  constructor
  · intro hx
    obtain ⟨A, hA, n, hn, rfl, rfl, d, hd, htarget⟩ := hx
    obtain ⟨hA, hrootA⟩ := List.mem_filter.1 hA
    obtain ⟨hn, hrootn⟩ := List.mem_filter.1 hn
    obtain ⟨B, hB, howner, -, hname⟩ := h.owner?_target hc hd
    obtain rfl := h.eq_of_name hB hn (hname.symm.trans htarget)
    exact ⟨A, B, by simpa using hrootA, by simpa using hrootn, rfl, rfl, _,
      (h.uses_iff hc hA).2 ⟨howner, d, hd, rfl⟩⟩
  · intro hy
    obtain ⟨A, B, hrootA, hrootB, rfl, rfl, t, huses⟩ := hy
    have hA := huses.1
    obtain ⟨howner, d, hd, rfl⟩ := (h.uses_iff hc hA).1 huses
    obtain ⟨n, hn, howner', -, hname⟩ := h.owner?_target hc hd
    obtain rfl := Option.some.inj (howner.symm.trans howner')
    exact ⟨A, List.mem_filter.2 ⟨hA, by simpa using hrootA⟩, B,
      List.mem_filter.2 ⟨hn, by simpa using hrootB⟩, rfl, rfl, d, hd, hname⟩

theorem acyclic_iff (h : Built c o g) :
    (∀ v, ¬ TransGen (g.DependsIn root) v v) ↔
      ∀ A, ¬ TransGen (fun A B ↦ A.root = root ∧ B.root = root ∧ ∃ t, g.Uses A B t) A A := by
  constructor
  · intro hnames A hA
    refine hnames A.name (hA.lift (·.name) fun A B hAB ↦ ?_)
    exact (h.dependsIn_iff hc).2 ⟨A, B, hAB.1, hAB.2.1, rfl, rfl, hAB.2.2⟩
  · intro hmodules v hv
    refine hmodules _ (hv.lift (fun name ↦ (g.module? name).getD default) fun a b hab ↦ ?_)
    obtain ⟨A, B, hrootA, hrootB, rfl, rfl, t, huses⟩ := (h.dependsIn_iff hc).1 hab
    have hA : g.module? A.name = some A := h.module?_eq_some_iff.2 ⟨huses.1, rfl⟩
    have hB : g.module? B.name = some B :=
      h.module?_eq_some_iff.2 ⟨((h.owner?_eq_some_iff hc).1 huses.2.1).1, rfl⟩
    simp only [Function.onFun, hA, hB, Option.getD_some]
    exact ⟨hrootA, hrootB, t, huses⟩

theorem checkModule_eq_nil_iff (h : Built c o g) (hA : A ∈ g.modules) :
    (g.checkModule A).toList = [] ↔ ∀ B t, g.Uses A B t →
      (A.declaration.allowed = [] ∨ B ∈ g.shared ∨
        ∃ entry ∈ A.declaration.allowed, (Permission.ofEntry entry).admits B t) ∧
      (B.isOpen ∨ B.interfaces.contains t) ∧ ¬ g.InjectsField A t := by
  have hrules : (g.checkModule A).toList = [] ↔ ∀ d ∈ g.dependencies A, ∀ B,
      g.module? d.target = some B → (g.checkDependency A B (g.allowList A) d).toList = [] := by
    simp [checkModule, List.flatMap_eq_nil_iff]
  have hexposes : ∀ B t, g.owner? t = some B → (B.exposes t ↔ B.isOpen ∨ B.interfaces.contains t) := by
    intro B t howner
    have hBt := ((h.owner?_eq_some_iff hc).1 howner).2
    by_cases hopen : B.isOpen <;> simp [Module.exposes, hopen, hBt]
  have hadmits : ∀ B t, g.Uses A B t → ((g.allowList A).admits B t ↔
      A.declaration.allowed = [] ∨ B ∈ g.shared ∨
        ∃ entry ∈ A.declaration.allowed, (Permission.ofEntry entry).admits B t) := by
    intro B t hx
    obtain ⟨-, howner, hne, -⟩ := hx
    have hB := ((h.owner?_eq_some_iff hc).1 howner).1
    rw [allowList, Module.allowList_admits fun heq ↦ hne (h.eq_of_name hB hA heq), h.mem_shared hB]
  rw [hrules]
  constructor
  · intro hall B t huses
    obtain ⟨howner, d, hd, rfl⟩ := (h.uses_iff hc hA).1 huses
    -- whatever dependency leads to the symbol, its target is the owner
    have htarget : ∀ d' ∈ g.dependencies A, d'.edge.target = d.edge.target →
        g.module? d'.target = some B := fun d' hd' htarget ↦ by
      obtain ⟨n, hn, howner', -, hname⟩ := h.owner?_target hc hd'
      rw [htarget, howner] at howner'
      obtain rfl := Option.some.inj howner'
      exact h.module?_eq_some_iff.2 ⟨hn, hname.symm⟩
    obtain ⟨hallowed, hexposed, -⟩ := checkDependency_eq_nil_iff.1 (hall d hd B (htarget d hd rfl))
    refine ⟨(hadmits B _ huses).1 hallowed, (hexposes B _ howner).1 hexposed, fun hinjects ↦ ?_⟩
    obtain ⟨d', hd', htarget', hinjected⟩ :=
      (h.injectsField_iff hc hA howner huses.2.2.1).1 hinjects
    exact (checkDependency_eq_nil_iff.1 (hall d' hd' B (htarget d' hd' htarget'))).2.2 hinjected
  · intro hall d hd B hB
    obtain ⟨n, hn, howner, hne, hname⟩ := h.owner?_target hc hd
    obtain rfl : n = B :=
      h.eq_of_name hn (h.module?_eq_some_iff.1 hB).1 (hname.symm.trans (h.module?_eq_some_iff.1 hB).2.symm)
    have huses := (h.uses_iff hc hA).2 ⟨howner, d, hd, rfl⟩
    obtain ⟨hallowed, hexposed, hinjects⟩ := hall n _ huses
    refine checkDependency_eq_nil_iff.2 ⟨(hadmits n _ huses).2 hallowed,
      (hexposes n _ howner).2 hexposed, fun hinjected ↦ hinjects ?_⟩
    exact (h.injectsField_iff hc hA howner hne).2 ⟨d, hd, rfl, hinjected⟩

end Built

/-- Verification of a graph that was just built passes exactly if the modules of no root use each other in
a circle, and every use is admitted by the allow-list of the module, leads to a symbol that its owner
exposes, and is no injection into a field outside of configurations. If it does not pass, it fails with
the violations of the graph. -/
theorem verify_exact (hc : c.Reachable) (hbuild : build c o = .ok g) :
    (g.verify = .ok g.markVerified ∨ g.verify = .error g.violations) ∧
    (g.verify = .ok g.markVerified ↔
      (∀ root A, ¬ TransGen
        (fun A B ↦ A.root = root ∧ B.root = root ∧ ∃ t, g.Uses A B t) A A) ∧
      ∀ A B t, g.Uses A B t →
        (A.declaration.allowed = [] ∨ B ∈ g.shared ∨
          ∃ entry ∈ A.declaration.allowed, (Permission.ofEntry entry).admits B t) ∧
        (B.isOpen ∨ B.interfaces.contains t) ∧ ¬ g.InjectsField A t) := by
  have hco := hc.coherent
  have h := build_eq_ok.1 hbuild
  have hverify : g.verify = if g.violations.toList = [] then .ok g.markVerified
      else .error g.violations := by
    rw [verify, h.fresh, Violations.verdict, Violations.isEmpty]
    by_cases hnil : g.violations.toList = []
    · rw [if_pos hnil, hnil]
      rfl
    · rw [if_neg hnil, List.isEmpty_eq_false_iff.2 hnil]
      rfl
  have hviolations : g.violations.toList = [] ↔
      (∀ root v, ¬ TransGen (g.DependsIn root) v v) ∧
        ∀ A ∈ g.modules, (g.checkModule A).toList = [] := by
    rw [violations, Violations.toList_append, Violations.toList_concat, List.append_eq_nil_iff,
      h.checkCycles_eq_nil_iff, List.flatMap_eq_nil_iff, List.forall_mem_map]
  constructor
  · rw [hverify]
    split
    · exact .inl rfl
    · exact .inr rfl
  · have hpass : g.verify = .ok g.markVerified ↔ g.violations.toList = [] := by
      by_cases hnil : g.violations.toList = [] <;> simp [hverify, hnil]
    rw [hpass, hviolations]
    refine and_congr (forall_congr' fun root ↦ h.acyclic_iff hco) ?_
    constructor
    · exact fun hall A B t huses ↦
        (h.checkModule_eq_nil_iff hco huses.1).1 (hall A huses.1) B t huses
    · exact fun hall A hA ↦ (h.checkModule_eq_nil_iff hco hA).2 (hall A)

theorem verify_exact_shop :
    ∃ g, Codebase.shop.Reachable ∧ build .shop { roots := ["shop"] } = .ok g ∧
      g.verify = .error g.violations ∧
      ¬ ((∀ root A, ¬ TransGen
          (fun A B ↦ A.root = root ∧ B.root = root ∧ ∃ t, g.Uses A B t) A A) ∧
        ∀ A B t, g.Uses A B t →
          (A.declaration.allowed = [] ∨ B ∈ g.shared ∨
            ∃ entry ∈ A.declaration.allowed, (Permission.ofEntry entry).admits B t) ∧
          (B.isOpen ∨ B.interfaces.contains t) ∧ ¬ g.InjectsField A t) := by
  have hfails : (build .shop { roots := ["shop"] }).toOption.map (·.verify.isOk) = some false := by
    decide +kernel
  obtain ⟨g, hg, hfails⟩ := Option.map_eq_some_iff.1 hfails
  have hbuild := ok_of_toOption hg
  obtain ⟨heither, hiff⟩ := verify_exact Codebase.shop_reachable hbuild
  have hne : g.verify ≠ .ok g.markVerified := fun heq ↦ by
    rw [heq] at hfails
    nomatch hfails
  exact ⟨g, Codebase.shop_reachable, hbuild, heither.resolve_left hne, fun h ↦ hne (hiff.2 h)⟩

end ModuleGraph

end Modularity
