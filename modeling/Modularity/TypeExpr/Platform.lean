import Modularity.TypeExpr.Names

namespace Modularity

structure Platform where
  starts : List String
deriving DecidableEq, Inhabited

namespace Platform

def usualStarts : List String := ["java.", "javax.", "kotlin.", "scala."]

def usual : Platform := ⟨usualStarts⟩

def contains (p : Platform) (name : String) : Bool :=
  p.starts.any fun start ↦ start.toList.isPrefixOf name.toList

/-- Whether a plain member signature that names the type is of no interest. -/
def excludes (p : Platform) (name : String) : Bool := TypeExpr.isPrimitive name || p.contains name

end Platform

end Modularity
