import Modularity.Interface.Basic

namespace Modularity

structure InterfaceFamily where
  byName : OrderedMap String Interface
deriving DecidableEq, Inhabited

namespace InterfaceFamily

def empty : InterfaceFamily := ⟨.empty⟩

/-- Adds an interface, merged into the one of its name if there is one. -/
def add (f : InterfaceFamily) (i : Interface) : InterfaceFamily :=
  ⟨f.byName.alter i.name fun
    | none => i
    | some j => (j.merge? i).getD i⟩

def ofList (is : List Interface) : InterfaceFamily := is.foldl add empty

def toList (f : InterfaceFamily) : List Interface := f.byName.values

def union (f g : InterfaceFamily) : InterfaceFamily := g.toList.foldl add f

def names (f : InterfaceFamily) : List String := f.byName.keys

def size (f : InterfaceFamily) : Nat := f.byName.size

def isEmpty (f : InterfaceFamily) : Bool := f.byName.isEmpty

def orDefault (f : InterfaceFamily) (n : Namespace) : InterfaceFamily :=
  if f.isEmpty then empty.add (Interface.ofDefault n) else f

def isDeclared (f : InterfaceFamily) : Bool := 1 < f.size || f.toList.any fun i ↦ !i.isDefault

def get? (f : InterfaceFamily) (name : String) : Option Interface := f.byName.get? name

def default? (f : InterfaceFamily) : Option Interface := f.get? Interface.defaultName

def contains (f : InterfaceFamily) (id : Symbol.Id) : Bool := f.toList.any (·.contains id)

def containing (f : InterfaceFamily) (id : Symbol.Id) : List Interface :=
  f.toList.filter (·.contains id)

end InterfaceFamily

end Modularity
