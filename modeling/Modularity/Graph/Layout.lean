import Modularity.Graph.Options
import Modularity.Module.Basic

namespace Modularity

namespace Layout

/-- Two of some roots that overlap, in their order: the first root that overlaps a later one, and the
first later one that it overlaps. -/
def overlap? : List String → Option (String × String)
  | [] => none
  | outer :: rest =>
    match rest.find? fun inner ↦
        Namespace.isWithin outer inner || Namespace.isWithin inner outer with
    | some inner => some (outer, inner)
    | none => overlap? rest

def trimmedRoots (roots : List String) : List String :=
  (OrderedSet.ofList (roots.map Text.trim)).toList

/-- The roots of an analysis. There has to be one, each has to be known, and no two may overlap. -/
def checkedRoots (c : Codebase) (roots : List String) : Except LayoutError (List String) :=
  let roots := trimmedRoots roots
  if roots.isEmpty then .error .noRoots
  else
    match roots.find? fun root ↦ root ≠ "" && !c.hasNamespace root, overlap? roots with
    | some root, _ => .error (.unknownRoot root)
    | none, some (outer, inner) => .error (.overlappingRoots outer inner)
    | none, none => .ok roots

/-- A namespace that is to be a module, with its root. -/
structure Candidate where
  root : String
  space : String
deriving DecidableEq, Inhabited

def declaredSpaces (c : Codebase) : List String :=
  (c.descriptors.values.filter fun d ↦ d.module.isSome).map (·.name)

/-- The namespaces directly below the roots. Every declared module has to be among them. -/
def directCandidates (c : Codebase) (roots : List String) : Except LayoutError (List Candidate) :=
  let candidates := roots.flatMap fun root ↦ (c.directSubspaces root).map (⟨root, ·⟩)
  match (declaredSpaces c).find? fun space ↦ !candidates.any fun k ↦ k.space = space with
  | some space => .error (.conflictingDetection space)
  | none => .ok candidates

/-- A declared namespace with another one in it: the first such, and the first one in it. -/
def nesting? (declared : List String) : Option (String × String) :=
  declared.findSome? fun outer ↦
    (declared.find? fun inner ↦ inner ≠ outer && Namespace.isWithin outer inner).map (outer, ·)

def declaredCandidates (c : Codebase) (roots : List String) : Except LayoutError (List Candidate) :=
  let declared := declaredSpaces c
  match nesting? declared with
  | some (outer, inner) => .error (.nestedModules outer inner)
  | none => .ok (declared.filterMap fun space ↦
      (roots.find? fun root ↦ Namespace.isWithin root space).map (⟨·, space⟩))

def candidates (detection : Detection) (c : Codebase) (roots : List String) :
    Except LayoutError (List Candidate) :=
  match detection with
  | .directSubspaces => directCandidates c roots
  | .declaredSpaces => declaredCandidates c roots

def Candidate.moduleName (k : Candidate) : Naming → String
  | .relative => Namespace.relativeTo k.root k.space
  | .qualified => k.space

def Candidate.module (c : Codebase) (o : GraphOptions) (k : Candidate) : Except LayoutError Module :=
  Module.ofNamespace (k.moduleName o.naming) k.root ⟨c, k.space⟩ o.stereotypes o.platform

def repeatedModule? : List Module → Option (Module × Module)
  | m :: n :: rest => if m.name = n.name then some (m, n) else repeatedModule? (n :: rest)
  | _ => none

end Layout

end Modularity
