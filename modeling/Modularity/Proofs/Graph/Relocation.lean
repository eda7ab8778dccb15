import Modularity.Proofs.Graph.Ownership
import Modularity.Proofs.Module.Relocation

namespace Modularity

open Namespace

/-- Options that a graph does not depend on the difference of: the roots may be stated otherwise. -/
structure GraphOptions.Alike (o p : GraphOptions) : Prop where
  roots : Layout.trimmedRoots p.roots = Layout.trimmedRoots o.roots
  ignore : p.ignore = o.ignore
  detection : p.detection = o.detection
  naming : p.naming = o.naming
  shared : p.shared = o.shared
  stereotypes : p.stereotypes = o.stereotypes
  platform : p.platform = o.platform

theorem GraphOptions.Alike.refl (o : GraphOptions) : o.Alike o := ⟨rfl, rfl, rfl, rfl, rfl, rfl, rfl⟩

variable {c d : Codebase} {e : Symbol.Id → Symbol.Id} {o p : GraphOptions} {pick : Nat}

namespace Layout

section

variable (h : c.SameSpaces d)

include h

theorem checkedRoots_relocate (ho : o.Alike p) : checkedRoots d p.roots = checkedRoots c o.roots := by
  simp only [checkedRoots, ho.roots, h.hasNamespace]

theorem declaredSpaces_relocate : declaredSpaces d = declaredSpaces c := by
  rw [declaredSpaces, declaredSpaces, h.descriptors]

theorem candidates_relocate (detection : Detection) (roots : List String) :
    candidates detection d roots = candidates detection c roots := by
  cases detection with
  | directSubspaces =>
    simp only [candidates, directCandidates, declaredSpaces_relocate h, h.directSubspaces]
  | declaredSpaces =>
    simp only [candidates, declaredCandidates, declaredSpaces_relocate h]

theorem Candidate.module_relocate (ho : o.Alike p) (k : Candidate) :
    k.module d p = (k.module c o).map (·.relocate d) := by
  have hdescriptor : (⟨d, k.space⟩ : Namespace).descriptor? = (⟨c, k.space⟩ : Namespace).descriptor? :=
    h.descriptor? k.space
  simp only [Candidate.module, Module.ofNamespace, hdescriptor, ho.naming, ho.stereotypes, ho.platform,
    apply_ite (Except.map (Module.relocate · d))]
  rfl

end

theorem repeatedModule?_map {f : Module → Module} (hname : ∀ m, (f m).name = m.name) (ms : List Module) :
    repeatedModule? (ms.map f) = (repeatedModule? ms).map fun pair ↦ (f pair.1, f pair.2) := by
  induction ms with
  | nil => rfl
  | cons m ms ih =>
    cases ms with
    | nil => rfl
    | cons n rest =>
      rw [List.map_cons] at ih
      rw [List.map_cons, List.map_cons, repeatedModule?, repeatedModule?, ih, hname, hname,
        apply_ite (Option.map _)]
      rfl

end Layout

namespace ModuleGraph

open Layout

def mapModules (g : ModuleGraph) (d : Codebase) (p : GraphOptions) (f : Module → Module) : ModuleGraph :=
  let modules := g.modules.map f
  { codebase := d, options := p, modules
    owners := ownerTable d.arena.size modules
    shared := g.shared.map f
    isVerified := g.isVerified }

/-- A change of modules that leaves their namespaces alone changes the owners only. -/
theorem Built.owner?_mapModules {g : ModuleGraph} (h : Built c o g) {f : Module → Module}
    (hspace : ∀ m, (f m).space = m.space) (id : Symbol.Id) :
    (g.mapModules g.codebase p f).owner? id = (g.owner? id).map f := by
  have howners : (g.mapModules g.codebase p f).owners =
      ownerTable g.codebase.arena.size (g.modules.map f) := rfl
  have hkey : ((fun m : Module ↦ m.space.symbols.contains id) ∘ f) =
      fun m ↦ m.space.symbols.contains id := funext fun m ↦ by rw [Function.comp_apply, hspace]
  rw [owner?, owner?, howners, h.owners, getElem?_ownerTable, getElem?_ownerTable, ← List.map_reverse,
    List.find?_map, hkey]
  split <;> rfl

def relocate (g : ModuleGraph) (d : Codebase) (p : GraphOptions) : ModuleGraph :=
  g.mapModules d p (·.relocate d)

section

variable {f : Module → Module} (hname : ∀ m, (f m).name = m.name)

include hname

theorem findShared_map (ms : List Module) (names : List String) :
    findShared (ms.map f) names = (findShared ms names).map (List.map f) := by
  rw [findShared, findShared, ← mapM_map_ok]
  refine congrArg (List.mapM · names) (funext fun name ↦ ?_)
  have hkey : ((fun m : Module ↦ decide (m.name = name)) ∘ f) = fun m ↦ decide (m.name = name) :=
    funext fun m ↦ by rw [Function.comp_apply, hname]
  rw [List.find?_map, hkey]
  cases ms.find? fun m ↦ m.name = name with
  | none => rfl
  | some m => rfl

variable (hspace : ∀ m, (f m).space.name = m.space.name)

include hspace

/-- The same namespaces become modules, if the same are candidates and each gives the changed module. -/
theorem modulesOf_map {roots : List String}
    (hcandidates : candidates p.detection d roots = candidates o.detection c roots)
    (hmodule : ∀ k : Candidate, k.module d p = (k.module c o).map f) :
    modulesOf d roots p pick = (modulesOf c roots o pick).map (List.map f) := by
  have hkey : Module.name ∘ f = Module.name := funext hname
  rw [modulesOf, modulesOf, hcandidates]
  cases candidates o.detection c roots with
  | error err => rfl
  | ok ks =>
    simp only [bind, Except.bind, gather_map hmodule]
    cases gather (Candidate.module c o) ks pick with
    | error err => rfl
    | ok ms =>
      simp only [Except.map, sortBy_map, hkey, repeatedModule?_map hname]
      cases repeatedModule? (sortBy (·.name) ms) with
      | none => rfl
      | some pair => simp only [Option.map_some, hname, hspace]

theorem build_map (hroots : checkedRoots d p.roots = checkedRoots c o.roots)
    (hignore : p.ignore = o.ignore) (hshared : p.shared = o.shared)
    (hcandidates : candidates p.detection (d.restrict (trimmedRoots o.roots) o.ignore)
      (trimmedRoots o.roots) = candidates o.detection (c.restrict (trimmedRoots o.roots) o.ignore)
        (trimmedRoots o.roots))
    (hmodule : ∀ k : Candidate, k.module (d.restrict (trimmedRoots o.roots) o.ignore) p =
      (k.module (c.restrict (trimmedRoots o.roots) o.ignore) o).map f) :
    build d p pick =
      (build c o pick).map (·.mapModules (d.restrict (trimmedRoots o.roots) o.ignore) p f) := by
  rw [build, build, hroots]
  cases hchecked : checkedRoots c o.roots with
  | error err => rfl
  | ok roots =>
    obtain ⟨rfl, -⟩ := checkedRoots_eq_ok.1 hchecked
    simp only [bind, Except.bind, hignore, hshared, modulesOf_map hname hspace hcandidates hmodule]
    cases modulesOf (c.restrict (trimmedRoots o.roots) o.ignore) (trimmedRoots o.roots) o pick with
    | error err => rfl
    | ok ms =>
      simp only [Except.map, findShared_map hname]
      cases findShared ms o.shared with
      | error err => rfl
      | ok shared => rfl

end

/-- A build looks at the namespaces only: before the roots and the ignored names hide anything, and
after. -/
theorem build_of_sameSpaces (h : c.SameSpaces d)
    (hrestrict : (c.restrict (trimmedRoots o.roots) o.ignore).SameSpaces
      (d.restrict (trimmedRoots o.roots) o.ignore)) (ho : o.Alike p) (pick : Nat) :
    build d p pick =
      (build c o pick).map (·.relocate (d.restrict (trimmedRoots o.roots) o.ignore) p) := by
  refine build_map (fun _ ↦ rfl) (fun _ ↦ rfl) (checkedRoots_relocate h ho) ho.ignore ho.shared ?_
    fun k ↦ k.module_relocate hrestrict ho
  rw [ho.detection, candidates_relocate hrestrict]

theorem build_relocate (h : c.Relocates e d) (ho : o.Alike p) (pick : Nat) :
    build d p pick =
      (build c o pick).map (·.relocate (d.restrict (trimmedRoots o.roots) o.ignore) p) :=
  build_of_sameSpaces h.sameSpaces (h.restrict _ _).sameSpaces ho pick

end ModuleGraph

end Modularity
