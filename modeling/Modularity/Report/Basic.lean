import Modularity.Json.Text
import Modularity.Verification.Verify

namespace Modularity

structure DependencySummary where
  module : String
  kind : Edge.Kind
  count : Nat
deriving DecidableEq, Inhabited

structure ModuleSummary where
  name : String
  displayName : String
  space : String
  qualifying : Nat
  interfaces : List String
  allowed : List String
  dependencies : List DependencySummary
deriving DecidableEq, Inhabited

inductive Report.Status where
  | ok
  | warning
  | error
deriving DecidableEq, Inhabited

def Report.Status.name : Report.Status → String
  | .ok => "ok"
  | .warning => "warning"
  | .error => "error"

/-- A report. Version, command and status are texts, since a report may come from elsewhere. -/
structure Report where
  version : String
  command : String
  status : String
  roots : List String
  modules : List ModuleSummary
  errors : List Violation
  warnings : List Violation
deriving DecidableEq, Inhabited

namespace DependencySummary

def tally (module : String) (kind : Edge.Kind) : List DependencySummary → List DependencySummary
  | [] => [⟨module, kind, 1⟩]
  | s :: rest =>
    if s.module = module && s.kind = kind then { s with count := s.count + 1 } :: rest
    else s :: tally module kind rest

/-- The dependencies by module and kind, in the order of module names and kinds. -/
def ofDependencies (ds : List Dependency) : List DependencySummary :=
  sortBy (·.module) (sortBy (·.kind.rank)
    (ds.foldl (fun counted d ↦ tally d.target d.kind counted) []))

def fieldNames : List String := ["module", "dependency_type", "count"]

def toJson (s : DependencySummary) : Json := .obj [
  ("module", .str s.module),
  ("dependency_type", .str s.kind.name),
  ("count", .nat s.count)]

def ofJson? (j : Json) : Option DependencySummary := do
  let r ← j.record? fieldNames
  return {
    module := ← r.required "module" Json.str?
    kind := ← r.required "dependency_type" (Json.oneOf? Edge.Kind.all Edge.Kind.name)
    count := ← r.required "count" Json.count? }

end DependencySummary

namespace ModuleSummary

def ofModule (g : ModuleGraph) (m : Module) : ModuleSummary where
  name := m.name
  displayName := m.displayName
  space := m.space.name
  qualifying := m.qualifying.size
  interfaces := m.interfaces.names
  allowed := (g.allowList m).permissions.map Permission.text
  dependencies := DependencySummary.ofDependencies (g.dependencies m)

def fieldNames : List String :=
  ["name", "display_name", "namespace", "qualifying_symbols", "named_interfaces",
    "allowed_dependencies", "dependencies"]

def toJson (s : ModuleSummary) : Json := .obj [
  ("name", .str s.name),
  ("display_name", .str s.displayName),
  ("namespace", .str s.space),
  ("qualifying_symbols", .nat s.qualifying),
  ("named_interfaces", .strs s.interfaces),
  ("allowed_dependencies", .strs s.allowed),
  ("dependencies", .arr (s.dependencies.map DependencySummary.toJson))]

def ofJson? (j : Json) : Option ModuleSummary := do
  let r ← j.record? fieldNames
  return {
    name := ← r.required "name" Json.str?
    displayName := ← r.required "display_name" Json.str?
    space := ← r.required "namespace" Json.str?
    qualifying := ← r.required "qualifying_symbols" Json.count?
    interfaces := ← r.required "named_interfaces" Json.strs?
    allowed := ← r.required "allowed_dependencies" Json.strs?
    dependencies := ← r.required "dependencies" (Json.list? DependencySummary.ofJson?) }

end ModuleSummary

namespace Report

def currentVersion : String := "0.1.0"

def statusOf (errors warnings : List Violation) : Status :=
  if !errors.isEmpty then .error else if !warnings.isEmpty then .warning else .ok

def ofGraph (g : ModuleGraph) (vs : Violations) : Report :=
  let errors := vs.toList.filter (·.severity = .error)
  let warnings := vs.toList.filter (·.severity ≠ .error)
  { version := currentVersion
    command := "verify"
    status := (statusOf errors warnings).name
    roots := g.roots
    modules := g.modules.map (.ofModule g)
    errors, warnings }

def isClean (r : Report) : Bool := r.errors.isEmpty && r.warnings.isEmpty

def fieldNames : List String :=
  ["version", "command", "status", "roots", "modules", "errors", "warnings"]

def toJson (r : Report) : Json := .obj [
  ("version", .str r.version),
  ("command", .str r.command),
  ("status", .str r.status),
  ("roots", .strs r.roots),
  ("modules", .arr (r.modules.map ModuleSummary.toJson)),
  ("errors", .arr (r.errors.map Violation.toJson)),
  ("warnings", .arr (r.warnings.map Violation.toJson))]

def ofJson? (j : Json) : Option Report := do
  let r ← j.record? fieldNames
  return {
    version := ← r.required "version" Json.str?
    command := ← r.required "command" Json.str?
    status := ← r.required "status" Json.str?
    roots := ← r.required "roots" Json.strs?
    modules := ← r.required "modules" (Json.list? ModuleSummary.ofJson?)
    errors := ← r.required "errors" (Json.list? Violation.ofJson?)
    warnings := ← r.required "warnings" (Json.list? Violation.ofJson?) }

end Report

end Modularity
