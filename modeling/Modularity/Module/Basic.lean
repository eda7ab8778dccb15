import Modularity.Edge.Discovery
import Modularity.Graph.Error
import Modularity.Interface.Family

namespace Modularity

structure Module where
  name : String
  displayName : String
  /-- The root namespace that the module was found under. -/
  root : String
  space : Namespace
  declaration : Declaration
  stereotypes : Stereotypes
  platform : Platform
deriving Inhabited

namespace Module

/-- The module of a namespace. What the namespace declares decides how it is shown: an explicit display
name counts without white space at its ends, and nobody may choose an empty one. -/
def ofNamespace (name root : String) (space : Namespace) (st : Stereotypes) (platform : Platform) :
    Except LayoutError Module :=
  let declaration := (space.descriptor?.bind (·.module)).getD {}
  let displayName := match declaration.displayName with
    | some explicit => Text.trim explicit
    | none => Namespace.localName space.name
  if displayName = "" then .error (.blankDisplayName space.name)
  else .ok { name, displayName, root, space, declaration, stereotypes := st, platform }

def codebase (m : Module) : Codebase := m.space.codebase

def isOpen (m : Module) : Bool := m.declaration.isOpen

def contains (m : Module) (id : Symbol.Id) : Bool := (m.codebase.get? id).any m.space.holds

def containsName (m : Module) (name : String) : Bool := (m.codebase.find? name).any m.contains

def isManaged (st : Stereotypes) (s : Symbol) : Bool :=
  st.isComponent s || st.isEntity s || st.isRepository s

def products (m : Module) (s : Symbol) : List Symbol.Id :=
  let types := (s.members.filter m.stereotypes.isFactory).flatMap fun f ↦
    f.valueType.toList.flatMap TypeExpr.names
  (types.filterMap m.codebase.find?).filter fun id ↦ m.space.holds (m.codebase.symbol id)

/-- The symbols that the module manages: components, entities, repositories, and the products of the
factory methods in its own configurations. -/
def qualifying (m : Module) : OrderedSet Symbol.Id :=
  let configurations := m.space.filter m.stereotypes.isConfiguration
  .ofList (m.space.filter (isManaged m.stereotypes) ++
    configurations.flatMap fun id ↦ m.products (m.codebase.symbol id))

def scopedInterfaces (m : Module) : List Interface :=
  (m.space :: m.space.subspaces).flatMap fun n ↦
    (n.descriptor?.toList.flatMap (·.interfaces)).map fun name ↦ Interface.ofNamespace name n

def symbolInterfaces (m : Module) : List Interface :=
  m.space.symbols.flatMap fun id ↦
    (m.codebase.symbol id).interfaces.map fun name ↦ Interface.ofSymbols name [id]

def interfaces (m : Module) : InterfaceFamily :=
  ((InterfaceFamily.ofList m.scopedInterfaces).union
    (InterfaceFamily.ofList m.symbolInterfaces)).orDefault m.space

def exposes (m : Module) (id : Symbol.Id) : Bool :=
  if m.isOpen then m.contains id else m.interfaces.contains id

def discovery (m : Module) : Discovery := ⟨m.codebase, m.stereotypes, m.platform, m.space.name⟩

def edges (m : Module) : List Edge := m.qualifying.toList.flatMap m.discovery.edges

def title (m : Module) : String := m.displayName ++ " (" ++ m.space.name ++ ")"

end Module

end Modularity
