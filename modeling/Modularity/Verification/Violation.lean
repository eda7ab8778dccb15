import Modularity.Json.Record

namespace Modularity

inductive Severity where
  | error
  | warning
deriving DecidableEq, Inhabited

namespace Severity

def name : Severity → String
  | .error => "ERROR"
  | .warning => "WARNING"

def label : Severity → String
  | .error => "error"
  | .warning => "warning"

end Severity

inductive Violation.Kind where
  /-- Modules of one root depend on each other in a circle. -/
  | cycle
  /-- A module depends on something that its allow-list does not admit. -/
  | disallowedDependency
  /-- A module refers to a symbol that the other module does not expose. -/
  | nonExposedSymbol
  /-- The container fills a field. -/
  | fieldInjection
deriving DecidableEq, Inhabited

namespace Violation.Kind

def all : List Violation.Kind := [.cycle, .disallowedDependency, .nonExposedSymbol, .fieldInjection]

def name : Violation.Kind → String
  | .cycle => "cycle"
  | .disallowedDependency => "disallowed_dependency"
  | .nonExposedSymbol => "non_exposed_symbol"
  | .fieldInjection => "field_injection"

def code : Violation.Kind → String
  | .cycle => "E101"
  | .disallowedDependency => "E102"
  | .nonExposedSymbol => "E103"
  | .fieldInjection => "W101"

def severity : Violation.Kind → Severity
  | .fieldInjection => .warning
  | _ => .error

end Violation.Kind

/-- A broken rule. Cycles are reported against no module. -/
structure Violation where
  kind : Violation.Kind
  module : Option String
  message : String
  fixHint : Option String := none
deriving DecidableEq, Inhabited

namespace Violation

def code (v : Violation) : String := v.kind.code

def severity (v : Violation) : Severity := v.kind.severity

def fieldNames : List String := ["kind", "module", "message", "fix_hint"]

def toJson (v : Violation) : Json := .obj [
  ("kind", .str v.kind.name),
  ("module", .orNull .str v.module),
  ("message", .str v.message),
  ("fix_hint", .orNull .str v.fixHint)]

def ofJson? (j : Json) : Option Violation := do
  let r ← j.record? fieldNames
  return {
    kind := ← r.required "kind" (Json.oneOf? Kind.all Kind.name)
    module := ← r.nullable "module" Json.str?
    message := ← r.required "message" Json.str?
    fixHint := ← r.nullable "fix_hint" Json.str? }

end Violation

structure Violations where
  toList : List Violation
deriving DecidableEq, Inhabited

namespace Violations

def none : Violations := ⟨[]⟩

def single (v : Violation) : Violations := ⟨[v]⟩

def append (vs ws : Violations) : Violations := ⟨vs.toList ++ ws.toList⟩

instance : Append Violations := ⟨append⟩

def concat (parts : List Violations) : Violations := parts.foldl append none

def push (vs : Violations) (v : Violation) : Violations := ⟨vs.toList ++ [v]⟩

def size (vs : Violations) : Nat := vs.toList.length

def isEmpty (vs : Violations) : Bool := vs.toList.isEmpty

def filter (vs : Violations) (p : Violation → Bool) : Violations := ⟨vs.toList.filter p⟩

def ofKind (vs : Violations) (kind : Violation.Kind) : Violations := vs.filter (·.kind = kind)

def messages (vs : Violations) : List String := vs.toList.map (·.message)

def text (vs : Violations) : String := String.intercalate "\n" vs.messages

def verdict (vs : Violations) : Except Violations Unit := if vs.isEmpty then .ok () else .error vs

def toJson (vs : Violations) : Json := .arr (vs.toList.map Violation.toJson)

def ofJson? (j : Json) : Option Violations := (Json.list? Violation.ofJson? j).map .mk

end Violations

end Modularity
