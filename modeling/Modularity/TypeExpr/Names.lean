import Modularity.Text.Blank
import Modularity.Text.Pieces

namespace Modularity

namespace TypeExpr

def isDelimiter (c : Char) : Bool :=
  c = '<' || c = '>' || c = ',' || c = '[' || c = ']' || c = '&' || c = ' '

def isKeyword (cs : List Char) : Bool :=
  cs = ['?'] || cs = "extends".toList || cs = "super".toList

def namesIn (cs : List Char) : List (List Char) :=
  ((Text.pieces isDelimiter cs).map Text.trimBlank).filter fun name ↦
    !name.isEmpty && !isKeyword name

/-- The type names that a type expression mentions, from left to right: generic arguments, item types
of arrays and bounds of wildcards are names of their own. -/
def names (expr : String) : List String := (namesIn expr.toList).map String.ofList

def primitives : List String :=
  ["boolean", "byte", "char", "short", "int", "long", "float", "double", "void"]

def isPrimitive (name : String) : Bool := primitives.contains name

end TypeExpr

end Modularity
