import Modularity.Glob.Regex

namespace Modularity

/-- A byte as it is written in an expression: ASCII as it is, after a backslash if it has a meaning of
its own, and any other byte by its number. -/
def writtenByte (b : UInt8) : List Char :=
  let c := Char.ofNat b.toNat
  if 128 ≤ b then '\\' :: 'x' :: Nat.toDigits 16 b.toNat
  else if "\\.+*?()|[]\x7b\x7d^$#&-~".toList.contains c then ['\\', c]
  else [c]

namespace ByteSet

def writtenRange (range : UInt8 × UInt8) : List Char :=
  if range.1 = range.2 then writtenByte range.1
  else writtenByte range.1 ++ '-' :: writtenByte range.2

def written (s : ByteSet) : List Char :=
  '[' :: (if s.negated then ['^'] else []) ++ s.ranges.flatMap writtenRange ++ [']']

/-- The levels of a set: its brackets, and the list in them unless it is a single range. -/
def depth (s : ByteSet) : Nat := if s.ranges.length = 1 then 1 else 2

end ByteSet

namespace Regex

def written : Regex → List Char
  | .empty => []
  | .literal b => writtenByte b
  | .anyByte => ['.']
  | .oneOf set => set.written
  | .anything => ['.', '*']
  | .optional r => r.written ++ ['?']
  | .group r => ['(', '?', ':'] ++ r.written ++ [')']
  | .seq r s => r.written ++ s.written
  | .either r s => r.written ++ '|' :: s.written

/-- An expression for a whole text as it is written: over bytes, and between anchors. -/
def text (r : Regex) : String := String.ofList ("(?-u)^".toList ++ r.written ++ ['$'])

inductive Surroundings where
  /-- Brackets or a repetition, of which it is the whole. -/
  | whole
  /-- A row of expressions one after the other. -/
  | row
  /-- A choice of several expressions. -/
  | choice
deriving DecidableEq, Inhabited

/-- The levels of an expression. A row counts once, however many expressions it holds, and so does a
choice; brackets, repetitions and sets count each. -/
def depth : Regex → Surroundings → Nat
  | .empty, _ => 0
  | .literal _, _ => 0
  | .anyByte, _ => 0
  | .oneOf set, _ => set.depth
  | .anything, _ => 1
  | .optional r, _ => r.depth .whole + 1
  | .group r, _ => r.depth .whole + 1
  | .seq r s, around => max (r.depth .row) (s.depth .row) + if around = .row then 0 else 1
  | .either r s, around => max (r.depth .choice) (s.depth .choice) + if around = .choice then 0 else 1

def maxDepth : Nat := 250

def isTooDeep (r : Regex) : Bool := maxDepth < r.depth .row + 1

end Regex

end Modularity
