import Modularity.Graph.Reach

namespace Modularity.Circuit

/-- The circuits that continue a path from `start` and close there, at most `budget` of them. The path is
given with its last vertex, `node`, apart and the other ones newest first; `fuel` bounds the vertices
that it may still take up. -/
def through (next : String → List String) (start : String) :
    Nat → List String → String → Nat → List (List String)
  | 0, _, _, _ => []
  | fuel + 1, before, node, budget =>
    (next node).foldl (fun found v ↦
      if budget ≤ found.length then found
      else if v = start then found ++ [(node :: before).reverse]
      else if v = node || before.contains v then found
      else found ++ through next start fuel (node :: before) v (budget - found.length)) []

def among (next : String → List String) : List String → Nat → List (List String)
  | [], _ => []
  | start :: rest, budget =>
    let within v := (start :: rest).filter (next v).contains
    let found := through within start (rest.length + 1) [] start budget
    found ++ among next rest (budget - found.length)

def closure (next : String → List String) (vertices : List String) : List (String × List String) :=
  vertices.map fun v ↦ (v, Reach.levels next (vertices.length + 1) [] (next v))

def component (reach : List (String × List String)) (vertices : List String) (v : String) :
    List String :=
  vertices.filter fun w ↦
    w = v || (((reach.lookup v).getD []).contains w && ((reach.lookup w).getD []).contains v)

def components (next : String → List String) (vertices : List String) : List (List String) :=
  let reach := closure next vertices
  (vertices.map (component reach vertices)).eraseDups

/-- The circuits of two vertices or more. Within a strongly connected component each is found once, from its
smallest vertex on, and at most `budget` of them, the first ones in lexicographic order. -/
def all (next : String → List String) (vertices : List String) (budget : Nat) :
    List (List String) :=
  ((components next vertices).filter fun part ↦ 2 ≤ part.length).flatMap fun part ↦
    among next part budget

end Modularity.Circuit
