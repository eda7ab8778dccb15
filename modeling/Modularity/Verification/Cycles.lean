import Modularity.Graph.Dependency
import Modularity.Ordered.Set
import Modularity.Verification.Circuit
import Modularity.Verification.Violation

namespace Modularity

namespace ModuleGraph

def maxCycles : Nat := 100

def arcs (table : List (String × List Dependency)) (names : List String) (name : String) :
    List String :=
  (Dependency.targets ((table.lookup name).getD [])).filter names.contains

def cyclesOfRoot (g : ModuleGraph) (root : String) : List (List String) :=
  let names := (g.modulesOfRoot root).map (·.name)
  let table := (g.modulesOfRoot root).map fun m ↦ (m.name, g.dependencies m)
  let next := names.map fun name ↦ (name, arcs table names name)
  (OrderedSet.ofList
    (Circuit.all (fun name ↦ (next.lookup name).getD []) names maxCycles)).toList

def hops : List String → List (String × String)
  | [] => []
  | start :: rest => (start :: rest).zip (rest ++ [start])

def explain (table : List (String × List Dependency)) (c : Codebase) (hop : String × String) : String :=
  match ((table.lookup hop.1).getD []).find? (·.target = hop.2) with
  | some d => "\n  " ++ hop.1 ++ " -> " ++ hop.2 ++ ": " ++ d.edge.describe c
  | none => ""

def cycleViolation (table : List (String × List Dependency)) (c : Codebase) (cycle : List String) :
    Violation where
  kind := .cycle
  module := none
  message := "Cycle detected: " ++ String.intercalate " -> " (cycle ++ cycle.take 1) ++
    String.join ((hops cycle).map (explain table c))
  fixHint := some "Break the cycle by inverting one dependency, e.g. through an event"

def checkCyclesOfRoot (g : ModuleGraph) (root : String) : Violations :=
  let table := g.allDependencies
  ⟨(g.cyclesOfRoot root).map (cycleViolation table g.codebase)⟩

def checkCycles (g : ModuleGraph) : Violations :=
  .concat ((OrderedSet.ofList (g.roots.map Text.trim)).toList.map g.checkCyclesOfRoot)

end ModuleGraph

end Modularity
