import Modularity.Namespace.Basic

namespace Modularity

/-- A named interface. With `scopes` it stands for what those namespaces present; without, it was put
together symbol by symbol. -/
structure Interface where
  name : String
  scopes : Option (OrderedSet String)
  symbols : OrderedSet Symbol.Id
deriving DecidableEq, Inhabited

namespace Interface

def defaultName : String := "<<UNNAMED>>"

/-- The interface over a namespace: its public members other than markers. -/
def ofNamespace (name : String) (n : Namespace) : Interface where
  name
  scopes := some (.ofList [n.name])
  symbols := .ofList (n.directSymbols.filter fun id ↦ (n.codebase.symbol id).isPresentable)

def ofSymbols (name : String) (ids : List Symbol.Id) : Interface where
  name
  scopes := none
  symbols := .ofList ids

def ofDefault (n : Namespace) : Interface := ofNamespace defaultName n

def isDefault (i : Interface) : Bool := i.name = defaultName

def isScoped (i : Interface) : Bool := i.scopes.isSome

def contains (i : Interface) (id : Symbol.Id) : Bool := i.symbols.contains id

def mergeScopes : Option (OrderedSet String) → Option (OrderedSet String) → Option (OrderedSet String)
  | some a, some b => some (a.union b)
  | some a, none => some a
  | none, b => b

def merge? (i j : Interface) : Option Interface :=
  if i.name = j.name then
    some ⟨i.name, mergeScopes i.scopes j.scopes, i.symbols.union j.symbols⟩
  else none

end Interface

end Modularity
