import Modularity.Json.Record
import Modularity.Json.Text

namespace Modularity

/-- What a namespace says of the module that it declares. An empty list of allowed dependencies leaves
the module unrestricted; an open module exposes every symbol it contains. -/
structure Declaration where
  displayName : Option String := none
  allowed : List String := []
  isOpen : Bool := false
deriving DecidableEq, Inhabited

namespace Declaration

def fieldNames : List String := ["display_name", "allowed_dependencies", "open"]

def toJson (d : Declaration) : Json := .obj [
  ("display_name", .orNull .str d.displayName),
  ("allowed_dependencies", .strs d.allowed),
  ("open", .bool d.isOpen)]

def ofJson? (j : Json) : Option Declaration := do
  let r ← j.record? fieldNames
  return {
    displayName := ← r.withDefault "display_name" (Json.option? Json.str?) none
    allowed := ← r.withDefault "allowed_dependencies" Json.strs? []
    isOpen := ← r.withDefault "open" Json.bool? false }

end Declaration

structure Descriptor where
  name : String
  tags : OrderedSet String := .empty
  module : Option Declaration := none
  /-- The named interfaces that the namespace declares to be. -/
  interfaces : List String := []
deriving DecidableEq, Inhabited

namespace Descriptor

def tagged (d : Descriptor) (tag : String) : Descriptor := { d with tags := d.tags.insert tag }

def declaring (d : Descriptor) (declaration : Declaration) : Descriptor :=
  { d with module := some declaration }

def inInterface (d : Descriptor) (interface : String) : Descriptor :=
  { d with interfaces := d.interfaces ++ [interface] }

/-- Joins a later descriptor of the same namespace: tags are united, interfaces are listed one after
the other, and a module declaration replaces the one before. -/
def merge (d later : Descriptor) : Descriptor :=
  { d with
    tags := d.tags.union later.tags
    interfaces := d.interfaces ++ later.interfaces
    module := later.module.or d.module }

def fieldNames : List String := ["name", "tags", "module", "named_interfaces"]

def toJson (d : Descriptor) : Json := .obj [
  ("name", .str d.name),
  ("tags", .strSet d.tags),
  ("module", .orNull Declaration.toJson d.module),
  ("named_interfaces", .strs d.interfaces)]

def ofJson? (j : Json) : Option Descriptor := do
  let r ← j.record? fieldNames
  return {
    name := ← r.required "name" Json.str?
    tags := ← r.withDefault "tags" Json.strSet? .empty
    module := ← r.withDefault "module" (Json.option? Declaration.ofJson?) none
    interfaces := ← r.withDefault "named_interfaces" Json.strs? [] }

end Descriptor

end Modularity
