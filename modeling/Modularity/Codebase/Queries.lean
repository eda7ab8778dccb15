import Modularity.Codebase.Basic
import Modularity.Fingerprint.Basic
import Modularity.Json.Writer

namespace Modularity.Codebase

def members (c : Codebase) : List (Symbol × Symbol.Id) := visibleSymbols c.arena c.visible

def size (c : Codebase) : Nat := c.names.size

def isEmpty (c : Codebase) : Bool := c.size = 0

def symbol (c : Codebase) (id : Symbol.Id) : Symbol := c.arena.getD id default

def contains (c : Codebase) (id : Symbol.Id) : Bool := c.visible.getD id false

def get? (c : Codebase) (id : Symbol.Id) : Option Symbol :=
  if c.contains id then some (c.symbol id) else none

def find? (c : Codebase) (name : String) : Option Symbol.Id := c.names.get? name

def resolve? (c : Codebase) (name : String) : Option Symbol := (c.find? name).map c.symbol

def filter (c : Codebase) (p : Symbol → Bool) : List Symbol.Id :=
  (c.members.filter fun (s, _) ↦ p s).map (·.2)

def directlyIn (c : Codebase) (space : String) : List Symbol.Id := (c.spaces.get? space).getD []

/-- The members of a namespace and of everything below it. The namespaces that start with the same
characters follow one another, and of these only the ones below it count. -/
def inNamespace (c : Codebase) (space : String) : List Symbol.Id :=
  let run := (c.spaces.entriesFrom space).takeWhile fun e ↦ Namespace.startsWith e.1 space
  sortBy id ((run.filter fun e ↦ Namespace.isWithin space e.1).flatMap (·.2))

def directSubspaces (c : Codebase) (space : String) : List String :=
  c.known.toList.filter fun name ↦ name ≠ space && Namespace.parent? name = some space

def subspaces (c : Codebase) (space : String) : List String :=
  c.known.toList.filter fun name ↦ name ≠ space && Namespace.isWithin space name

def hasNamespace (c : Codebase) (space : String) : Bool := c.known.contains space

def descriptor? (c : Codebase) (space : String) : Option Descriptor := c.descriptors.get? space

def symbolHasTag (c : Codebase) (id : Symbol.Id) (tag : String) : Bool :=
  (c.get? id).any fun s ↦ s.tags.contains tag

def namespaceHasTag (c : Codebase) (space tag : String) : Bool :=
  (c.descriptor? space).any fun d ↦ d.tags.contains tag

/-- All that is visible of a codebase, as texts: the members, then the descriptors. -/
def content (c : Codebase) : List String :=
  c.members.map (fun (s, _) ↦ s.toJson.text) ++ c.descriptors.values.map (fun d ↦ d.toJson.text)

def fingerprint (c : Codebase) : String := Fingerprint.ofParts c.content

end Modularity.Codebase
