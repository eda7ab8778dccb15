import Modularity.Json.Basic
import Modularity.Ordered.Set

namespace Modularity.Json

def strSet (s : OrderedSet String) : Json := strs s.toList

def strs? : Json → Option (List String) := list? str?

def strSet? (j : Json) : Option (OrderedSet String) := (strs? j).map .ofList

end Modularity.Json
