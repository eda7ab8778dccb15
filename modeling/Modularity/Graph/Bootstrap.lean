import Modularity.Graph.Dependency
import Modularity.Graph.Reach

namespace Modularity

inductive Depth where
  | none
  | immediate
  | all
deriving DecidableEq, Inhabited

namespace ModuleGraph

/-- The modules whose components a module uses, in the order of first use. -/
def componentTargets (g : ModuleGraph) (m : Module) : List String :=
  Dependency.targets (Dependency.ofKinds [.usesComponent] (g.dependencies m))

def needs (g : ModuleGraph) (name : String) : List String :=
  ((g.module? name).map g.componentTargets).getD []

/-- The names of the modules that a module needs to start, the nearest first. -/
def bootstrapNames (g : ModuleGraph) (m : Module) : Depth → List String
  | .none => []
  | .immediate => g.componentTargets m
  | .all =>
    let others := (g.modules.map (·.name)).erase m.name
    Reach.search g.needs others (g.componentTargets m)

def bootstrap (g : ModuleGraph) (m : Module) (depth : Depth) : List Module :=
  (g.bootstrapNames m depth).filterMap g.module?

end ModuleGraph

end Modularity
