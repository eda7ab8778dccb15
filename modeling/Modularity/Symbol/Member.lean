import Modularity.Json.Record
import Modularity.Json.Text

namespace Modularity

inductive Member.Kind where
  | constructor
  | field
  | method
deriving DecidableEq, Inhabited

namespace Member.Kind

def all : List Member.Kind := [.constructor, .field, .method]

def name : Member.Kind → String
  | .constructor => "constructor"
  | .field => "field"
  | .method => "method"

end Member.Kind

/-- A member. The value type is the type of a field and the return type of a method; constructors
have none. -/
structure Member where
  kind : Member.Kind
  name : String
  tags : OrderedSet String := .empty
  parameterTypes : List String := []
  valueType : Option String := none
  line : Option UInt32 := none
deriving DecidableEq, Inhabited

namespace Member

def newConstructor (parameterTypes : List String) : Member :=
  { kind := .constructor, name := "<init>", parameterTypes }

def newField (name type : String) : Member :=
  { kind := .field, name, valueType := some type }

def newMethod (name : String) (parameterTypes : List String) (returns : Option String) : Member :=
  { kind := .method, name, parameterTypes, valueType := returns }

def tagged (m : Member) (tag : String) : Member := { m with tags := m.tags.insert tag }

def atLine (m : Member) (line : UInt32) : Member := { m with line := some line }

/-- The signature for a reader, such as `method place(orders.Order) -> void`. -/
def signature (m : Member) : String :=
  let parameters := String.intercalate ", " m.parameterTypes
  match m.kind, m.valueType with
  | .field, some type => "field " ++ m.name ++ " : " ++ type
  | .field, none => "field " ++ m.name
  | .constructor, _ => "constructor (" ++ parameters ++ ")"
  | .method, some type => "method " ++ m.name ++ "(" ++ parameters ++ ") -> " ++ type
  | .method, none => "method " ++ m.name ++ "(" ++ parameters ++ ")"

def fieldNames : List String := ["kind", "name", "tags", "parameter_types", "value_type", "line"]

def toJson (m : Member) : Json := .obj [
  ("kind", .str m.kind.name),
  ("name", .str m.name),
  ("tags", .strSet m.tags),
  ("parameter_types", .strs m.parameterTypes),
  ("value_type", .orNull .str m.valueType),
  ("line", .orNull (fun n ↦ .nat n.toNat) m.line)]

def ofJson? (j : Json) : Option Member := do
  let r ← j.record? fieldNames
  return {
    kind := ← r.required "kind" (Json.oneOf? Kind.all Kind.name)
    name := ← r.required "name" Json.str?
    tags := ← r.withDefault "tags" Json.strSet? .empty
    parameterTypes := ← r.withDefault "parameter_types" Json.strs? []
    valueType := ← r.withDefault "value_type" (Json.option? Json.str?) none
    line := ← r.withDefault "line" (Json.option? Json.uint32?) none }

end Member

end Modularity
