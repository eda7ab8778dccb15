import Modularity.Graph.Layout
import Modularity.Module.AllowList

namespace Modularity

/-- The modules of an application, in the order of their names. Positions of symbols are those of the codebase
that the graph was built from. -/
structure ModuleGraph where
  /-- The part of the codebase that the roots and the ignored names leave. -/
  codebase : Codebase
  options : GraphOptions
  modules : List Module
  /-- The module of each symbol, position by position. -/
  owners : Array (Option Module)
  /-- The shared modules, in the order of the options. -/
  shared : List Module
  /-- Whether the graph has passed verification. -/
  isVerified : Bool := false
deriving Inhabited

namespace ModuleGraph

def enter (owners : Array (Option Module)) (m : Module) : Array (Option Module) :=
  m.space.symbols.foldl (fun table id ↦ table.setIfInBounds id (some m)) owners

def ownerTable (count : Nat) (modules : List Module) : Array (Option Module) :=
  modules.foldl enter (Array.replicate count none)

def findShared (modules : List Module) (names : List String) : Except LayoutError (List Module) :=
  names.mapM fun name ↦
    match modules.find? (·.name = name) with
    | some m => .ok m
    | none => .error (.unknownSharedModule name)

def failures {α β ε : Type} (f : α → Except ε β) (xs : List α) : List ε :=
  xs.filterMap fun x ↦ match f x with
    | .ok _ => none
    | .error e => some e

/-- What is computed for some values side by side. If it fails for several of them, only one of their errors
is told, and it depends on the run which one: `pick` counts through the errors. -/
def gather {α β ε : Type} (f : α → Except ε β) (xs : List α) (pick : Nat) : Except ε (List β) :=
  match xs.mapM f with
  | .ok ys => .ok ys
  | .error first => .error ((failures f xs).getD (pick % (failures f xs).length) first)

def modulesOf (c : Codebase) (roots : List String) (o : GraphOptions) (pick : Nat := 0) :
    Except LayoutError (List Module) := do
  let candidates ← Layout.candidates o.detection c roots
  let modules ← gather (·.module c o) candidates pick
  let sorted := sortBy (·.name) modules
  match Layout.repeatedModule? sorted with
  | some (m, n) => .error (.duplicateModule m.name m.space.name n.space.name)
  | none => .ok sorted

def build (c : Codebase) (o : GraphOptions) (pick : Nat := 0) : Except LayoutError ModuleGraph := do
  let roots ← Layout.checkedRoots c o.roots
  let codebase := c.restrict roots o.ignore
  let modules ← modulesOf codebase roots o pick
  let shared ← findShared modules o.shared
  return {
    codebase, modules, shared
    options := o
    owners := ownerTable codebase.arena.size modules }

def ofRoot (c : Codebase) (root : String) (ignore : IgnoreList) (pick : Nat := 0) :
    Except LayoutError ModuleGraph :=
  build c { roots := [root], ignore } pick

def roots (g : ModuleGraph) : List String := g.options.roots

def module? (g : ModuleGraph) (name : String) : Option Module := g.modules.find? (·.name = name)

def owner? (g : ModuleGraph) (id : Symbol.Id) : Option Module := (g.owners[id]?).join

def ownerOfName? (g : ModuleGraph) (name : String) : Option Module :=
  (g.codebase.find? name).bind g.owner?

def modulesOfRoot (g : ModuleGraph) (root : String) : List Module :=
  g.modules.filter (·.root = root)

def allowList (g : ModuleGraph) (m : Module) : AllowList := m.allowList (g.shared.map (·.name))

end ModuleGraph

end Modularity
