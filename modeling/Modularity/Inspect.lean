import Modularity.Graph.Bootstrap
import Modularity.Graph.Cache
import Modularity.Text.Quoted

namespace Modularity

def inspectFields (name : String) (fields : List (String × String)) : String :=
  name ++ " \x7b " ++ String.intercalate ", " (fields.map fun (k, v) ↦ k ++ ": " ++ v) ++ " \x7d"

def Namespace.inspect (n : Namespace) : String :=
  inspectFields "Namespace" [("name", Text.quoted n.name)]

def Module.inspect (m : Module) : String :=
  inspectFields "Module" [
    ("name", Text.quoted m.name),
    ("display_name", Text.quoted m.displayName),
    ("namespace", Text.quoted m.space.name)]

def Detection.inspect : Detection → String
  | .directSubspaces => "DirectSubNamespaces"
  | .declaredSpaces => "ExplicitlyAnnotated"

def Naming.inspect : Naming → String
  | .relative => "Local"
  | .qualified => "FullyQualified"

def GraphOptions.inspect (o : GraphOptions) : String :=
  inspectFields "GraphOptions" [
    ("roots", Text.quotedList o.roots),
    ("ignore", Text.quotedList o.ignore.patterns),
    ("detection", o.detection.inspect),
    ("naming", o.naming.inspect),
    ("shared_modules", Text.quotedList o.shared),
    ("classifier", Text.quoted o.stereotypes.name)]

def ModuleGraph.inspect (g : ModuleGraph) : String :=
  inspectFields "ModulesGraph" [
    ("roots", Text.quotedList g.roots),
    ("modules", "[" ++ String.intercalate ", " (g.modules.map Module.inspect) ++ "]")]

def GraphCache.inspect (c : GraphCache) : String :=
  inspectFields "GraphCache" [("len", toString c.size)]

def ModuleGraph.describeDependencies (g : ModuleGraph) (m : Module) : String :=
  let allowed := g.allowList m
  let direct := (g.bootstrap m .immediate).map (·.name)
  (if allowed.isUnrestricted then "" else "> Allowed dependencies: " ++ allowed.text ++ "\n") ++
    if direct.isEmpty then ""
    else "> Direct module dependencies: " ++ String.intercalate ", " direct ++ "\n"

def Interface.describe (i : Interface) : String :=
  ">   " ++ i.name ++ " (" ++ toString i.symbols.size ++ " symbols)\n"

/-- A module on several lines: its names, its dependencies if the graph is given, its interfaces, and
the symbols it manages, a plus in front of the exposed ones. -/
def Module.describe (m : Module) (g : Option ModuleGraph) : String :=
  let managed := m.qualifying.toList
  "# " ++ m.displayName ++ "\n" ++
    "> Logical name: " ++ m.name ++ "\n" ++
    "> Namespace: " ++ m.space.name ++ "\n" ++
    ((g.map fun g ↦ g.describeDependencies m).getD "") ++
    "> Named interfaces:\n" ++
    String.join (m.interfaces.toList.map Interface.describe) ++
    "> Qualifying symbols:\n" ++
    (if managed.isEmpty then ">   none\n" else "") ++
    String.join (managed.map fun id ↦
      ">   " ++ (if m.exposes id then "+" else "o") ++ " " ++ (m.codebase.symbol id).name ++ "\n")

end Modularity
