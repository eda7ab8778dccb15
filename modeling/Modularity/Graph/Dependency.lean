import Modularity.Graph.Basic

namespace Modularity

structure Dependency where
  edge : Edge
  source : String
  target : String
deriving DecidableEq, Inhabited

namespace Dependency

def kind (d : Dependency) : Edge.Kind := d.edge.kind

/-- The dependencies of some kinds; every kind counts if none is given. -/
def ofKinds (kinds : List Edge.Kind) (ds : List Dependency) : List Dependency :=
  if kinds.isEmpty then ds else ds.filter fun d ↦ kinds.contains d.kind

def targets (ds : List Dependency) : List String := (ds.map (·.target)).eraseDups

end Dependency

namespace ModuleGraph

/-- The dependency of a module that an edge is. Targets without owner and targets in the module itself
give none. -/
def resolve? (g : ModuleGraph) (m : Module) (e : Edge) : Option Dependency :=
  ((g.owner? e.target).filter (·.name ≠ m.name)).map fun target ↦ ⟨e, m.name, target.name⟩

def dependencies (g : ModuleGraph) (m : Module) : List Dependency :=
  m.edges.eraseDups.filterMap (g.resolve? m)

def dependsOn (g : ModuleGraph) (m : Module) (name : String) : Bool :=
  (g.dependencies m).any (·.target = name)

def allDependencies (g : ModuleGraph) : List (String × List Dependency) :=
  g.modules.map fun m ↦ (m.name, g.dependencies m)

end ModuleGraph

end Modularity
