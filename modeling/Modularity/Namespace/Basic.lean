import Modularity.Codebase.Queries

namespace Modularity

/-- A namespace of a codebase. It need not be known there. -/
structure Namespace where
  codebase : Codebase
  name : String
deriving Inhabited

namespace Namespace

def descriptor? (n : Namespace) : Option Descriptor := n.codebase.descriptor? n.name

def hasTag (n : Namespace) (tag : String) : Bool := n.codebase.namespaceHasTag n.name tag

def symbols (n : Namespace) : List Symbol.Id := n.codebase.inNamespace n.name

def directSymbols (n : Namespace) : List Symbol.Id := n.codebase.directlyIn n.name

def filter (n : Namespace) (p : Symbol → Bool) : List Symbol.Id :=
  n.symbols.filter fun id ↦ p (n.codebase.symbol id)

def holds (n : Namespace) (s : Symbol) : Bool := isWithin n.name s.space

def directSubspaces (n : Namespace) : List Namespace :=
  (n.codebase.directSubspaces n.name).map (⟨n.codebase, ·⟩)

def subspaces (n : Namespace) : List Namespace :=
  (n.codebase.subspaces n.name).map (⟨n.codebase, ·⟩)

def outer? (n : Namespace) : Option Namespace := (parent? n.name).map (⟨n.codebase, ·⟩)

/-- Whether two namespaces have one name and codebases with one fingerprint. -/
def same (n m : Namespace) : Bool :=
  n.name = m.name && n.codebase.fingerprint = m.codebase.fingerprint

end Namespace

end Modularity
