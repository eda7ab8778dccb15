import Modularity.Verification.Cycles
import Modularity.Verification.Rules

namespace Modularity

namespace ModuleGraph

/-- Every violation of a graph: the cycles, then the broken rules of each module in the order of the
modules. -/
def violations (g : ModuleGraph) : Violations :=
  g.checkCycles ++ Violations.concat (g.modules.map g.checkModule)

def markVerified (g : ModuleGraph) : ModuleGraph := { g with isVerified := true }

/-- Fails with the violations of a graph, if it has any. A graph that has passed is not checked again. -/
def verify (g : ModuleGraph) : Except Violations ModuleGraph :=
  if g.isVerified then .ok g else g.violations.verdict.map fun _ ↦ g.markVerified

end ModuleGraph

end Modularity
