import Modularity.Graph.Basic
import Modularity.Verification.Verify

namespace Modularity

/-- What tells requests apart. The roots count as a set, in the form in which they were given. -/
structure CacheKey where
  fingerprint : String
  roots : List String
  ignored : List String
  detection : Detection
  naming : Naming
  shared : List String
  platformStarts : List String
  instanceNumber : Nat
deriving DecidableEq, Inhabited

def CacheKey.of (c : Codebase) (o : GraphOptions) : CacheKey where
  fingerprint := c.fingerprint
  roots := (OrderedSet.ofList o.roots).toList
  ignored := o.ignore.patterns
  detection := o.detection
  naming := o.naming
  shared := o.shared
  platformStarts := o.platform.starts
  instanceNumber := o.instanceNumber

/-- The graphs that were ever built, and the slots of the requests since the cache was cleared. A slot
stays empty as long as every build for it has failed. -/
structure GraphCache where
  graphs : List ModuleGraph := []
  slots : List (CacheKey × Option Nat) := []
deriving Inhabited

namespace GraphCache

def slot? (c : GraphCache) (k : CacheKey) : Option Nat := (c.slots.lookup k).join

def fill (c : GraphCache) (k : CacheKey) (n : Option Nat) : GraphCache :=
  { c with slots := (k, n) :: c.slots.filter (·.1 ≠ k) }

/-- The graph of a request, by its number: the one in the slot, or one that is built now. -/
def request (c : GraphCache) (code : Codebase) (o : GraphOptions) (pick : Nat := 0) :
    Except LayoutError Nat × GraphCache :=
  let k := CacheKey.of code o
  match c.slot? k with
  | some n => (.ok n, c)
  | none =>
    match ModuleGraph.build code o pick with
    | .error e => (.error e, c.fill k none)
    | .ok g => (.ok c.graphs.length, { c.fill k (some c.graphs.length) with graphs := c.graphs ++ [g] })

def graph? (c : GraphCache) (n : Nat) : Option ModuleGraph := c.graphs[n]?

def verify (c : GraphCache) (n : Nat) : Option (Except Violations Unit × GraphCache) :=
  (c.graph? n).map fun g ↦
    match g.verify with
    | .ok g => (.ok (), { c with graphs := c.graphs.set n g })
    | .error vs => (.error vs, c)

def size (c : GraphCache) : Nat := (c.slots.filter fun s ↦ s.2.isSome).length

def isEmpty (c : GraphCache) : Bool := c.size = 0

/-- Empties the slots. Graphs that were handed out stay valid. -/
def clear (c : GraphCache) : GraphCache := { c with slots := [] }

end GraphCache

end Modularity
