import Modularity.Graph.Dependency
import Modularity.Verification.Violation

namespace Modularity

namespace ModuleGraph

def disallowed (g : ModuleGraph) (origin target : Module) (allowed : AllowList) (d : Dependency) :
    Violation where
  kind := .disallowedDependency
  module := some origin.name
  message := "Module '" ++ origin.name ++ "' depends on disallowed module '" ++ target.name ++
    "' via " ++ d.edge.describe g.codebase ++ ". Allowed targets: " ++ allowed.text ++ "."
  fixHint := some ("Add '" ++ target.name ++ "' to the allowed dependencies of '" ++ origin.name ++
    "' or remove the reference")

def unexposed (g : ModuleGraph) (origin target : Module) (d : Dependency) : Violation :=
  let symbol := (g.codebase.symbol d.edge.target).name
  { kind := .nonExposedSymbol
    module := some origin.name
    message := "Module '" ++ origin.name ++ "' depends on non-exposed symbol " ++ symbol ++
      " in module '" ++ target.name ++ "': " ++ d.edge.describe g.codebase
    fixHint := some ("Expose " ++ symbol ++ " through a named interface of '" ++ target.name ++ "'") }

def filledField (g : ModuleGraph) (origin : Module) (d : Dependency) : Violation where
  kind := .fieldInjection
  module := some origin.name
  message := "Module '" ++ origin.name ++ "' uses field injection in " ++
    (g.codebase.symbol d.edge.origin).name ++ "." ++ d.edge.member.getD "?" ++
    ". Prefer constructor injection instead!"
  fixHint := some "Inject the dependency through the constructor"

def checkAllowed (g : ModuleGraph) (origin target : Module) (allowed : AllowList) (d : Dependency) :
    List Violation :=
  if allowed.admits target d.edge.target then [] else [g.disallowed origin target allowed d]

def checkExposed (g : ModuleGraph) (origin target : Module) (d : Dependency) : List Violation :=
  if target.exposes d.edge.target then [] else [g.unexposed origin target d]

def checkInjection (g : ModuleGraph) (origin : Module) (d : Dependency) : List Violation :=
  let declaring := g.codebase.symbol d.edge.origin
  if !d.edge.isFieldInjection || g.options.stereotypes.isConfiguration declaring then []
  else [g.filledField origin d]

def checkDependency (g : ModuleGraph) (origin target : Module) (allowed : AllowList) (d : Dependency) :
    Violations :=
  ⟨g.checkAllowed origin target allowed d ++ g.checkExposed origin target d ++
    g.checkInjection origin d⟩

/-- The rules that the dependencies of a module break, in the order of the dependencies. -/
def checkModule (g : ModuleGraph) (m : Module) : Violations :=
  let allowed := g.allowList m
  ⟨(g.dependencies m).flatMap fun d ↦
    (g.module? d.target).toList.flatMap fun target ↦
      (g.checkDependency m target allowed d).toList⟩

end ModuleGraph

end Modularity
