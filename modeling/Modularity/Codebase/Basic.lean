import Modularity.Codebase.Error
import Modularity.Descriptor
import Modularity.Glob.IgnoreList
import Modularity.Namespace.Name
import Modularity.Ordered.Map
import Modularity.Ordered.Sort
import Modularity.Symbol.Basic

namespace Modularity

/-- The position of a symbol among all symbols that its codebase was assembled from. -/
abbrev Symbol.Id : Type := Nat

/-- The symbols of a codebase with the indexes over its members, the visible ones. Restricting a codebase
hides symbols and keeps every position, so a position means the same symbol in all of its restrictions. -/
structure Codebase where
  /-- Every symbol of the assembly, by ascending name. -/
  arena : Array Symbol
  /-- Which of them are members, position by position. -/
  visible : Array Bool
  /-- The member of each name. -/
  names : OrderedMap String Symbol.Id
  /-- The members of each namespace that has any, by ascending position. -/
  spaces : OrderedMap String (List Symbol.Id)
  /-- What is declared about namespaces. -/
  descriptors : OrderedMap String Descriptor
  /-- The namespaces of members and descriptors with all of their ancestors. -/
  known : OrderedSet String
deriving Inhabited

namespace Namespace

/-- A namespace and everything that contains it. -/
def lineage (name : String) : List String := name :: ancestors name

end Namespace

namespace Codebase

def visibleSymbols (arena : Array Symbol) (visible : Array Bool) : List (Symbol × Symbol.Id) :=
  arena.toList.zipIdx.filter fun (_, id) ↦ visible.getD id false

/-- Adds the names of a lineage, the nearest first, up to one that is there already; what contains that one
is there as well. -/
def climbInto (known : OrderedSet String) : List String → OrderedSet String
  | [] => known
  | name :: rest => if known.contains name then known else climbInto (known.insert name) rest

def ancestry (spaces : List String) : OrderedSet String :=
  spaces.foldl (fun known space ↦ climbInto known (Namespace.lineage space)) .empty

/-- Indexes the visible part of symbols that are sorted by name. -/
def index (arena : Array Symbol) (visible : Array Bool) (descriptors : OrderedMap String Descriptor) :
    Codebase :=
  let members := visibleSymbols arena visible
  let spaces := members.foldr
    (fun (s, id) (m : OrderedMap String (List Symbol.Id)) ↦
      m.alter s.space fun ids ↦ id :: ids.getD []) .empty
  { arena, visible, spaces, descriptors
    names := members.foldr (fun (s, id) (m : OrderedMap String Symbol.Id) ↦ m.insert s.name id) .empty
    known := ancestry (spaces.keys ++ descriptors.keys) }

def empty : Codebase := index #[] #[] .empty

def repeatedName? : List Symbol → Option String
  | s :: t :: rest => if s.name = t.name then some s.name else repeatedName? (t :: rest)
  | _ => none

/-- Whether a symbol declares a namespace that its name is not in. -/
def isMisplaced (s : Symbol) : Bool :=
  s.space ≠ "" && !Namespace.startsWith s.name (s.space ++ ".")

def mergeDescriptors (ds : List Descriptor) : OrderedMap String Descriptor :=
  ds.foldl (fun m d ↦ m.alter d.name fun
    | none => d
    | some earlier => earlier.merge d) .empty

/-- Assembles a codebase. Names have to be unique, and a symbol has to lie in its namespace; of several
faults of a kind the one with the smallest name is told. -/
def assemble (symbols : List Symbol) (ds : List Descriptor) : Except InputError Codebase :=
  let sorted := sortBy (·.name) symbols
  match repeatedName? sorted, sorted.find? isMisplaced with
  | some name, _ => .error (.duplicateSymbol name)
  | none, some s => .error (.outsideNamespace s.name s.space)
  | none, none =>
    .ok (index sorted.toArray (Array.replicate sorted.length true) (mergeDescriptors ds))

def isUnder (roots : List String) (space : String) : Bool :=
  roots.any fun root ↦ Namespace.isWithin root space

/-- Keeps the members and descriptors within some roots, except for the members to ignore. -/
def restrict (c : Codebase) (roots : List String) (ignore : IgnoreList) : Codebase :=
  let keeps (s : Symbol) (v : Bool) := v && isUnder roots s.space && !ignore.ignores s.name
  index c.arena (Array.zipWith keeps c.arena c.visible)
    (c.descriptors.filter fun name _ ↦ isUnder roots name)

end Codebase

end Modularity
