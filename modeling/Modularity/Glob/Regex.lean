namespace Modularity

/-- A set of bytes: those in one of the ranges, ends included, or those in none of them. -/
structure ByteSet where
  negated : Bool
  ranges : List (UInt8 × UInt8)
deriving DecidableEq, Inhabited

def ByteSet.contains (s : ByteSet) (b : UInt8) : Bool :=
  s.negated != s.ranges.any fun (low, high) ↦ low ≤ b && b ≤ high

inductive Regex where
  /-- The empty text. -/
  | empty
  /-- One byte, written out. -/
  | literal (b : UInt8)
  /-- Any byte. -/
  | anyByte
  /-- One byte of a set. -/
  | oneOf (set : ByteSet)
  /-- Any text. -/
  | anything
  /-- An expression, or the empty text in its place. -/
  | optional (inner : Regex)
  /-- An expression in brackets. -/
  | group (inner : Regex)
  /-- One expression after another. -/
  | seq (first second : Regex)
  /-- Either of two expressions. -/
  | either (first second : Regex)
deriving DecidableEq, Inhabited

namespace Regex

def bytes : List UInt8 → Regex
  | [] => .empty
  | [b] => .literal b
  | b :: bs => .seq (.literal b) (bytes bs)

def choice : List Regex → Regex
  | [] => .empty
  | [r] => r
  | r :: rs => .either r (choice rs)

/-- Marks every place from the first marked one on, or every place if one before them was marked. -/
def spread : Bool → List Bool → List Bool
  | _, [] => []
  | before, mark :: marks => (before || mark) :: spread (before || mark) marks

def past (test : UInt8 → Bool) (bs : List UInt8) (marks : List Bool) : List Bool :=
  false :: bs.zipWith (fun b mark ↦ mark && test b) marks

/-- The places where a match of an expression may end, given the places where it may start. -/
def ends (bs : List UInt8) : Regex → List Bool → List Bool
  | .empty, marks => marks
  | .literal b, marks => past (· == b) bs marks
  | .anyByte, marks => past (fun _ ↦ true) bs marks
  | .oneOf set, marks => past set.contains bs marks
  | .anything, marks => spread false marks
  | .optional r, marks => marks.zipWith (· || ·) (r.ends bs marks)
  | .group r, marks => r.ends bs marks
  | .seq r s, marks => s.ends bs (r.ends bs marks)
  | .either r s, marks => (r.ends bs marks).zipWith (· || ·) (s.ends bs marks)

def fits (r : Regex) (bs : List UInt8) : Bool :=
  (r.ends bs (true :: bs.map fun _ ↦ false)).getLastD false

end Regex

end Modularity
