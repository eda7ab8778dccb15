import Modularity.Codebase.Queries
import Modularity.Stereotypes

namespace Modularity

inductive Edge.Site where
  /-- A parameter of a constructor that the container calls. -/
  | injectionConstructor
  /-- The type of a field that the container fills. -/
  | injectedField
  /-- A parameter of a method that the container calls. -/
  | injectionMethod
  /-- A type in the signature of any other member. -/
  | memberSignature
  /-- A use in a body. -/
  | staticReference
  | supertype
deriving DecidableEq, Inhabited

namespace Edge.Site

def all : List Edge.Site :=
  [.injectionConstructor, .injectedField, .injectionMethod, .memberSignature, .staticReference,
    .supertype]

def phrase : Edge.Site → String
  | .injectionConstructor => "injection constructor"
  | .injectedField => "injected field"
  | .injectionMethod => "injection method"
  | .memberSignature => "member signature"
  | .staticReference => "static reference"
  | .supertype => "supertype"

def name : Edge.Site → String
  | .injectionConstructor => "injection_constructor"
  | .injectedField => "injected_field"
  | .injectionMethod => "injection_method"
  | .memberSignature => "member_signature"
  | .staticReference => "static_reference"
  | .supertype => "supertype"

def isInjection : Edge.Site → Bool
  | .injectionConstructor | .injectedField | .injectionMethod => true
  | _ => false

end Edge.Site

inductive Edge.Kind where
  /-- The origin needs a component of the other module. -/
  | usesComponent
  /-- The origin refers to an entity of the other module. -/
  | entity
  /-- The origin handles events of the other module. -/
  | eventListener
  | plain
deriving DecidableEq, Inhabited

namespace Edge.Kind

def all : List Edge.Kind := [.usesComponent, .entity, .eventListener, .plain]

def name : Edge.Kind → String
  | .usesComponent => "USES_COMPONENT"
  | .entity => "ENTITY"
  | .eventListener => "EVENT_LISTENER"
  | .plain => "DEFAULT"

def rank : Edge.Kind → Nat
  | .usesComponent => 0
  | .entity => 1
  | .eventListener => 2
  | .plain => 3

/-- The kind of a reference. An event handler tells more than an entity, and an entity more than an
injection. -/
def classify (st : Stereotypes) (member : Option Member) (target : Symbol) (site : Edge.Site) :
    Edge.Kind :=
  if member.any st.isEventHandler then .eventListener
  else if st.isEntity target then .entity
  else if site.isInjection then .usesComponent
  else .plain

end Edge.Kind

/-- A reference from a symbol to a symbol outside its module. -/
structure Edge where
  origin : Symbol.Id
  target : Symbol.Id
  kind : Edge.Kind
  site : Edge.Site
  /-- The name of the member that it stands in. -/
  member : Option String
  line : Option UInt32
deriving DecidableEq, Inhabited

namespace Edge

def isFieldInjection (e : Edge) : Bool := e.site = .injectedField

/-- The edge for a reader, such as `a.Origin.member (injected field) -> b.Target (line 12)`. -/
def describe (c : Codebase) (e : Edge) : String :=
  let member := match e.member with
    | some name => "." ++ name
    | none => ""
  let place := match e.line with
    | some line => " (line " ++ toString line.toNat ++ ")"
    | none => ""
  (c.symbol e.origin).name ++ member ++ " (" ++ e.site.phrase ++ ") -> " ++
    (c.symbol e.target).name ++ place

end Edge

end Modularity
