import Modularity.Proofs.Graph.Conditions
import Modularity.Proofs.Graph.Relocation
import Modularity.Proofs.Namespace.Renaming

namespace Modularity

open Namespace

def GraphOptions.named (o : GraphOptions) (naming : Naming) : GraphOptions := { o with naming }

variable {c : Codebase} {o : GraphOptions} {g k : ModuleGraph} {ρ : Renaming} {root : String}

def Module.rename (ρ : Renaming) (m : Module) : Module := { m with name := ρ m.name }

theorem Module.rename_injective (ρ : Renaming) : Function.Injective (rename ρ) := by
  intro m n h
  have hname := ρ.injective (congrArg Module.name h)
  cases m
  cases n
  simp_all [rename]

namespace Layout

/-- Whether a change of names leads from the one way of naming the candidates to the other one. -/
def Qualifies (ρ : Renaming) (detection : Detection) (c : Codebase) (roots : List String) : Prop :=
  ∀ ks, candidates detection c roots = .ok ks →
    ∀ k ∈ ks, ρ (k.moduleName .relative) = k.moduleName .qualified

/-- One change of names serves all candidates below a root: only where the root is itself a module, and
then it is the only one, names stay as they are. -/
theorem exists_renaming {detection : Detection} {ks : List Candidate} (hroot : root ≠ "")
    (hks : candidates detection c [root] = .ok ks) :
    ∃ ρ : Renaming, ∀ k ∈ ks, ρ (k.moduleName .relative) = k.moduleName .qualified := by
  have hwithin : ∀ k ∈ ks, k.root = root ∧ isWithin root k.space := by
    intro k hk
    obtain ⟨hmem, hin⟩ := candidates_root hks hk
    obtain rfl := List.mem_singleton.1 hmem
    exact ⟨rfl, hin⟩
  by_cases hself : ∃ k ∈ ks, k.space = root
  · obtain ⟨l, hl, rfl⟩ := hself
    refine ⟨.none, fun k hk ↦ ?_⟩
    have hsingle : [l.space].Pairwise fun a b ↦ ¬ isWithin a b ∧ ¬ isWithin b a :=
      List.pairwise_singleton _ _
    obtain rfl := candidates_disjoint hsingle hks hl hk (hwithin k hk).2
    rw [Candidate.moduleName, Candidate.moduleName, (hwithin l hl).1, relativeTo_self]
    rfl
  · refine ⟨.below root, fun k hk ↦ ?_⟩
    obtain ⟨hkroot, hin⟩ := hwithin k hk
    rw [Candidate.moduleName, Candidate.moduleName, hkroot]
    exact below_relativeTo hroot hin fun hspace ↦ hself ⟨k, hk, hspace⟩

theorem exists_qualifies (detection : Detection) (c : Codebase) (hroot : root ≠ "") :
    ∃ ρ : Renaming, Qualifies ρ detection c [root] := by
  cases hks : candidates detection c [root] with
  | error err => exact ⟨.none, fun ks hks' ↦ nomatch hks.symm.trans hks'⟩
  | ok ks =>
    obtain ⟨ρ, hρ⟩ := exists_renaming hroot hks
    exact ⟨ρ, fun ks' hks' ↦ Except.ok.inj (hks.symm.trans hks') ▸ hρ⟩

theorem Candidate.module_qualified {k : Candidate}
    (hname : ρ (k.moduleName .relative) = k.moduleName .qualified) :
    k.module c (o.named .qualified) = (k.module c (o.named .relative)).map (·.rename ρ) := by
  have hqualified : k.moduleName (o.named .qualified).naming = ρ (k.moduleName (o.named .relative).naming) :=
    hname.symm
  rw [Candidate.module_eq, Candidate.module_eq, hqualified, apply_ite (Except.map (Module.rename ρ))]
  rfl

end Layout

namespace ModuleGraph

open Layout

theorem modulesOf_qualified {roots : List String} (hρ : Qualifies ρ o.detection c roots)
    {modules : List Module} :
    modulesOf c roots (o.named .qualified) = .ok modules ↔
      ∃ ms, modulesOf c roots (o.named .relative) = .ok ms ∧ modules = ms.map (·.rename ρ) := by
  have hmapM : ∀ ks : List Candidate, candidates o.detection c roots = .ok ks →
      ks.mapM (Candidate.module c (o.named .qualified)) =
        (ks.mapM (Candidate.module c (o.named .relative))).map (List.map (Module.rename ρ)) := by
    intro ks hks
    rw [← mapM_map_ok]
    exact mapM_congr fun k hk ↦ k.module_qualified (hρ ks hks k hk)
  have hname : ∀ m : Module, (m.rename ρ).name = ρ m.name := fun _ ↦ rfl
  have hsorted : ∀ ms : List Module,
      sortBy (·.name) (ms.map (·.rename ρ)) = (sortBy (·.name) ms).map (·.rename ρ) :=
    ρ.sortBy_map hname
  have hascending : ∀ ms : List Module, ((ms.map (·.rename ρ)).Pairwise fun m n ↦ m.name < n.name) ↔
      ms.Pairwise fun m n ↦ m.name < n.name := by
    intro ms
    rw [List.pairwise_map]
    exact iff_of_eq (congrArg (List.Pairwise · ms) (funext₂ fun m n ↦ propext ρ.lt_iff))
  simp only [modulesOf_eq_ok]
  constructor
  · intro hx
    obtain ⟨ks, ms', hks, hms', rfl, hasc⟩ := hx
    rw [hmapM ks hks, map_ok_iff] at hms'
    obtain ⟨ms, hms, rfl⟩ := hms'
    rw [hsorted] at hasc ⊢
    exact ⟨_, ⟨ks, ms, hks, hms, rfl, (hascending _).1 hasc⟩, rfl⟩
  · intro hy
    obtain ⟨_, ⟨ks, ms, hks, hms, rfl, hasc⟩, rfl⟩ := hy
    refine ⟨ks, ms.map (·.rename ρ), hks, ?_, (hsorted ms).symm, (hascending _).2 hasc⟩
    rw [hmapM ks hks, map_ok_iff]
    exact ⟨ms, hms, rfl⟩

theorem Built.space_of_relative (h : Built c (o.named .relative) g)
    (hroots : trimmedRoots o.roots = [root]) (hroot : root ≠ "") {m : Module} (hm : m ∈ g.modules) :
    m.space.name = if m.space.name = root then m.name else root ++ "." ++ m.name := by
  obtain ⟨hmem, hwithin⟩ := h.module_root hm
  obtain ⟨ks, -, k, -, hkm⟩ := h.exists_candidate hm
  have hname : m.name = relativeTo m.root m.space.name := by
    obtain ⟨rfl, hname⟩ := candidate_of_module hkm
    exact hname
  replace hmem : m.root ∈ trimmedRoots o.roots := hmem
  rw [hroots, List.mem_singleton] at hmem
  rw [hmem] at hname hwithin
  split
  · rename_i hself
    rw [hname, hself, relativeTo_self]
  · rename_i hbelow
    rw [hname]
    exact (below_relativeTo hroot hwithin hbelow).symm

/-- Without shared modules a build lays the modules out and enters the owners. -/
theorem build_unshared (hshared : o.shared = []) :
    build c o = .ok g ↔ checkedRoots c o.roots = .ok (trimmedRoots o.roots) ∧
      ∃ modules, modulesOf (scope c o) (trimmedRoots o.roots) o = .ok modules ∧
        g = { codebase := scope c o, options := o, modules, shared := []
              owners := ownerTable (scope c o).arena.size modules } := by
  have hnone : ∀ modules shared, findShared modules o.shared = .ok shared ↔ shared = [] := by
    intro modules shared
    rw [hshared]
    exact ⟨fun h ↦ (Except.ok.inj h).symm, fun h ↦ h ▸ rfl⟩
  simp only [build, bind_ok_iff, pure, Except.pure, Except.ok.injEq, hnone, exists_eq_left]
  constructor
  · intro hx
    obtain ⟨roots, hroots, modules, hmodules, rfl⟩ := hx
    obtain ⟨rfl, -⟩ := checkedRoots_eq_ok.1 hroots
    exact ⟨hroots, modules, hmodules, rfl⟩
  · intro hy
    obtain ⟨hroots, modules, hmodules, rfl⟩ := hy
    exact ⟨_, hroots, modules, hmodules, rfl⟩

/-- Below one root either way of naming builds a graph if the other one does, and the graphs differ by a
change of names that keeps their order: the names of namespaces instead of their parts below the root. -/
theorem build_qualified (hroots : trimmedRoots o.roots = [root]) (hroot : root ≠ "")
    (hshared : o.shared = []) :
    ∃ ρ : Renaming,
      (∀ k, build c (o.named .qualified) = .ok k ↔ ∃ g, build c (o.named .relative) = .ok g ∧
        k = g.mapModules g.codebase (o.named .qualified) (·.rename ρ)) ∧
      ∀ g, build c (o.named .relative) = .ok g → ∀ m ∈ g.modules, ρ m.name = m.space.name := by
  obtain ⟨ρ, hρ⟩ := exists_qualifies o.detection (scope c o) hroot
  rw [← hroots] at hρ
  refine ⟨ρ, fun k ↦ ?_, fun g hg m hm ↦ ?_⟩
  · have hleft : (o.named .relative).shared = [] := hshared
    have hright : (o.named .qualified).shared = [] := hshared
    rw [build_unshared hright]
    simp only [build_unshared hleft]
    constructor
    · intro hx
      obtain ⟨hchecked, modules, hmodules, rfl⟩ := hx
      obtain ⟨ms, hms, rfl⟩ := (modulesOf_qualified hρ).1 hmodules
      exact ⟨_, ⟨hchecked, ms, hms, rfl⟩, rfl⟩
    · intro hy
      obtain ⟨_, ⟨hchecked, ms, hms, rfl⟩, rfl⟩ := hy
      exact ⟨hchecked, _, (modulesOf_qualified hρ).2 ⟨ms, hms, rfl⟩, rfl⟩
  · have h := build_eq_ok.1 hg
    obtain ⟨ks, hks, k, hk, hkm⟩ := h.exists_candidate hm
    rw [h.codebase] at hks
    obtain ⟨rfl, hname⟩ := candidate_of_module hkm
    rw [hname]
    exact hρ ks hks _ hk

end ModuleGraph

end Modularity
