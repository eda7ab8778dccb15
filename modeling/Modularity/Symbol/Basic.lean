import Modularity.Symbol.Member

namespace Modularity

/-- The kinds of symbols. A marker describes a namespace and stands for no type. -/
inductive Symbol.Kind where
  | classType
  | interfaceType
  | enumType
  | recordType
  | annotationType
  | marker
deriving DecidableEq, Inhabited

namespace Symbol.Kind

def all : List Symbol.Kind :=
  [.classType, .interfaceType, .enumType, .recordType, .annotationType, .marker]

def name : Symbol.Kind → String
  | .classType => "class"
  | .interfaceType => "interface"
  | .enumType => "enum"
  | .recordType => "record"
  | .annotationType => "annotation"
  | .marker => "marker"

end Symbol.Kind

/-- Who can see a symbol: everyone, its namespace, or the symbol that encloses it. -/
inductive Visibility where
  | everywhere
  | withinNamespace
  | withinSymbol
deriving DecidableEq, Inhabited

namespace Visibility

def all : List Visibility := [.everywhere, .withinNamespace, .withinSymbol]

def name : Visibility → String
  | .everywhere => "public"
  | .withinNamespace => "package"
  | .withinSymbol => "private"

end Visibility

/-- A use of a type in a body, which no member signature shows. -/
structure Reference where
  target : String
  /-- The name of the member whose body it is. -/
  member : Option String := none
  line : Option UInt32 := none
deriving DecidableEq, Inhabited

namespace Reference

def fieldNames : List String := ["target", "member", "line"]

def toJson (r : Reference) : Json := .obj [
  ("target", .str r.target),
  ("member", .orNull .str r.member),
  ("line", .orNull (fun n ↦ .nat n.toNat) r.line)]

def ofJson? (j : Json) : Option Reference := do
  let r ← j.record? fieldNames
  return {
    target := ← r.required "target" Json.str?
    member := ← r.withDefault "member" (Json.option? Json.str?) none
    line := ← r.withDefault "line" (Json.option? Json.uint32?) none }

end Reference

structure Symbol where
  name : String
  space : String
  kind : Symbol.Kind := .classType
  visibility : Visibility := .withinNamespace
  tags : OrderedSet String := .empty
  supertypes : List String := []
  members : List Member := []
  references : List Reference := []
  /-- The named interfaces that the symbol declares itself part of. -/
  interfaces : List String := []
deriving DecidableEq, Inhabited

namespace Symbol

def qualifier (name : List Char) : List Char :=
  ((name.reverse.dropWhile (· ≠ '.')).drop 1).reverse

def ofName (name : String) : Symbol :=
  { name, space := String.ofList (qualifier name.toList), visibility := .everywhere }

def tagged (s : Symbol) (tag : String) : Symbol := { s with tags := s.tags.insert tag }

def withMember (s : Symbol) (m : Member) : Symbol := { s with members := s.members ++ [m] }

def extending (s : Symbol) (supertype : String) : Symbol :=
  { s with supertypes := s.supertypes ++ [supertype] }

def referring (s : Symbol) (target : String) : Symbol :=
  { s with references := s.references ++ [{ target }] }

def inInterface (s : Symbol) (interface : String) : Symbol :=
  { s with interfaces := s.interfaces ++ [interface] }

def simpleName (s : Symbol) : String :=
  String.ofList (s.name.toList.reverse.takeWhile (· ≠ '.')).reverse

def isPublic (s : Symbol) : Bool := s.visibility = .everywhere

def isMarker (s : Symbol) : Bool := s.kind = .marker

/-- Whether an interface over a namespace takes the symbol in: it is public and no marker. -/
def isPresentable (s : Symbol) : Bool := s.isPublic && !s.isMarker

def constructors (s : Symbol) : List Member := s.members.filter (·.kind = .constructor)

def member? (s : Symbol) (name : String) : Option Member := s.members.find? (·.name = name)

def fieldNames : List String :=
  ["name", "namespace", "kind", "visibility", "tags", "supertypes", "members", "references",
    "named_interfaces"]

def toJson (s : Symbol) : Json := .obj [
  ("name", .str s.name),
  ("namespace", .str s.space),
  ("kind", .str s.kind.name),
  ("visibility", .str s.visibility.name),
  ("tags", .strSet s.tags),
  ("supertypes", .strs s.supertypes),
  ("members", .arr (s.members.map Member.toJson)),
  ("references", .arr (s.references.map Reference.toJson)),
  ("named_interfaces", .strs s.interfaces)]

def ofJson? (j : Json) : Option Symbol := do
  let r ← j.record? fieldNames
  return {
    name := ← r.required "name" Json.str?
    space := ← r.required "namespace" Json.str?
    kind := ← r.withDefault "kind" (Json.oneOf? Kind.all Kind.name) .classType
    visibility :=
      ← r.withDefault "visibility" (Json.oneOf? Visibility.all Visibility.name) .withinNamespace
    tags := ← r.withDefault "tags" Json.strSet? .empty
    supertypes := ← r.withDefault "supertypes" Json.strs? []
    members := ← r.withDefault "members" (Json.list? Member.ofJson?) []
    references := ← r.withDefault "references" (Json.list? Reference.ofJson?) []
    interfaces := ← r.withDefault "named_interfaces" Json.strs? [] }

end Symbol

end Modularity
