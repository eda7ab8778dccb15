import Modularity.Codebase.Queries
import Modularity.Json.Reader

namespace Modularity

/-- The descriptors and symbols that an extractor has found. -/
structure Snapshot where
  descriptors : List Descriptor := []
  symbols : List Symbol := []
deriving DecidableEq, Inhabited

namespace Snapshot

def fieldNames : List String := ["namespaces", "symbols"]

def toJson (s : Snapshot) : Json := .obj [
  ("namespaces", .arr (s.descriptors.map Descriptor.toJson)),
  ("symbols", .arr (s.symbols.map Symbol.toJson))]

def ofJson? (j : Json) : Option Snapshot := do
  let r ← j.record? fieldNames
  return {
    descriptors := ← r.withDefault "namespaces" (Json.list? Descriptor.ofJson?) []
    symbols := ← r.withDefault "symbols" (Json.list? Symbol.ofJson?) [] }

end Snapshot

namespace Codebase

def ofSnapshot (s : Snapshot) : Except InputError Codebase := assemble s.symbols s.descriptors

def ofText (text : String) : Except InputError Codebase :=
  match (Json.ofString? text).bind Snapshot.ofJson? with
  | some s => ofSnapshot s
  | none => .error .malformedSnapshot

def ofFile (contents : Option String) : Except InputError Codebase :=
  match contents with
  | some text => ofText text
  | none => .error .unreadableSnapshot

def toSnapshot (c : Codebase) : Snapshot :=
  ⟨c.descriptors.values, c.members.map (·.1)⟩

end Codebase

end Modularity
