namespace Modularity.Namespace

/-- The ancestors of a name that is read from its end, the nearest first: what is left before each dot,
and at last the empty name. -/
def climb : List Char → List (List Char)
  | [] => []
  | c :: cs =>
    if cs = [] then [[]]
    else if c = '.' then cs :: climb cs
    else climb cs

def ancestors (name : String) : List String :=
  (climb name.toList.reverse).map fun cs ↦ String.ofList cs.reverse

def parent? (name : String) : Option String :=
  (climb name.toList.reverse).head?.map fun cs ↦ String.ofList cs.reverse

/-- Whether a name is an outer namespace itself or a name below it, so that a dot follows the outer name
inside it. -/
def isWithin (outer inner : String) : Bool :=
  outer = "" || inner = outer || (outer.toList ++ ['.']).isPrefixOf inner.toList

def startsWith (name start : String) : Bool := start.toList.isPrefixOf name.toList

def localName (name : String) : String :=
  String.ofList (name.toList.reverse.takeWhile (· ≠ '.')).reverse

def child (outer segment : String) : String :=
  if outer = "" then segment else outer ++ "." ++ segment

/-- The part of a name that follows an ancestor and a dot. A name that is not properly below the
ancestor, or below the empty name, is given back whole. -/
def relativeTo (ancestor name : String) : String :=
  if ancestor = "" || !isWithin ancestor name || name = ancestor then name
  else String.ofList (name.toList.drop (ancestor.toList.length + 1))

end Modularity.Namespace
