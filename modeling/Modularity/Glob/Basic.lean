import Modularity.Glob.Parser
import Modularity.Glob.Regex

namespace Modularity

namespace Glob

/-- The set of bytes of a class. Characters count byte by byte, and a range runs from the last byte of
its first character to the first byte of its last one. -/
def classRanges : List (Char × Char) → List (UInt8 × UInt8)
  | [] => []
  | (low, high) :: rest =>
    let lows := String.utf8EncodeChar low
    let highs := String.utf8EncodeChar high
    let own :=
      if low = high then lows.map fun b ↦ (b, b)
      else
        lows.dropLast.map (fun b ↦ (b, b)) ++ [(lows.getLastD 0, highs.headD 0)] ++
          highs.tail.map fun b ↦ (b, b)
    own ++ classRanges rest

def slash : Regex := .literal 47

def betweenSlashes : Regex := .group (.either slash (.seq slash (.seq .anything slash)))

def upToSlash : Regex := .group (.either (.optional slash) (.seq .anything slash))

mutual

/-- The expression of a token. Braces whose branches are all empty contribute nothing. -/
def Token.regex? : Token → Option Regex
  | .literal c => some (Regex.bytes (String.utf8EncodeChar c))
  | .anyByte => some .anyByte
  | .anyBytes => some .anything
  | .leading => some upToSlash
  | .trailing => some (.seq slash .anything)
  | .between => some betweenSlashes
  | .oneOf negated ranges => some (.oneOf ⟨negated, classRanges ranges⟩)
  | .branches options =>
    match optionRegexes options with
    | [] => none
    | rs => some (.group (Regex.choice rs))

def rowRegex? : List Token → Option Regex
  | [] => none
  | t :: ts =>
    match t.regex?, rowRegex? ts with
    | none, rest => rest
    | some r, none => some r
    | some r, some rest => some (.seq r rest)

/-- The expressions of branches; an empty branch is no branch. -/
def optionRegexes : List (List Token) → List Regex
  | [] => []
  | ts :: rest =>
    match rowRegex? ts with
    | none => optionRegexes rest
    | some r => r :: optionRegexes rest

end

/-- The expression of a whole pattern. Doubled stars that stand alone match every name. -/
def regexOf (tokens : List Token) : Regex :=
  match tokens with
  | [.leading] => .anything
  | tokens => (rowRegex? tokens).getD .empty

inductive Demand where
  /-- Some text, as the whole name, its start or its end. -/
  | text
  /-- A file name, or any file name with an extension. -/
  | fileName
  /-- A file name with an extension, within an expression. -/
  | extension
  /-- Sets of bytes and text without a slash, after the last slash. -/
  | lastPart
  /-- An expression of any other form. -/
  | expression
deriving DecidableEq, Inhabited

def literals? : List Token → Option (List Char)
  | [] => some []
  | .literal c :: rest => (literals? rest).map (c :: ·)
  | _ => none

/-- Whether characters are the extension of a file name: a dot, and neither dot nor slash after it. -/
def isExtension : List Char → Bool
  | '.' :: rest => rest.all fun c ↦ c ≠ '.' && c ≠ '/'
  | _ => false

def Token.isInPart : Token → Bool
  | .literal c => c ≠ '/'
  | .oneOf negated ranges => !(ByteSet.mk negated (classRanges ranges)).contains 47
  | _ => false

def Token.isInExtension : Token → Bool
  | .literal c => c ≠ '.' && c ≠ '/'
  | _ => false

def endsInExtension (tokens : List Token) : Bool :=
  match tokens.reverse.dropWhile Token.isInExtension with
  | .literal '.' :: _ => true
  | _ => false

/-- Whether tokens are written out up to a star, or up to doubled stars after a slash, at their end. -/
def isStart (tokens : List Token) : Bool :=
  match tokens.reverse with
  | .anyBytes :: rest => (literals? rest).isSome
  | .trailing :: rest => (literals? rest).isSome
  | _ => false

def demandOfExpression (tokens : List Token) : Demand :=
  if endsInExtension tokens then .extension else .expression

/-- What tokens ask for after a star in front. A slash alone is no text to look for. -/
def demandAfterStar (tokens : List Token) : Demand :=
  match literals? tokens with
  | some [] => .expression
  | some ['/'] => .expression
  | some cs => if isExtension cs then .fileName else .text
  | none => demandOfExpression tokens

def demandOf : List Token → Demand
  | .leading :: .anyBytes :: rest => demandAfterStar rest
  | .anyBytes :: rest => demandAfterStar rest
  | .leading :: rest =>
    match literals? rest with
    | some [] => .expression
    | some cs => if cs.contains '/' then .text else .fileName
    | none =>
      if endsInExtension rest then .extension
      else if rest.all Token.isInPart then .lastPart
      else .expression
  | tokens =>
    match literals? tokens with
    | some [] => .expression
    | some _ => .text
    | none => if isStart tokens then .text else demandOfExpression tokens

def hasFileName (name : String) : Bool :=
  (name.toList.reverse.takeWhile (· ≠ '/')) ≠ ['.', '.']

end Glob

structure Glob where
  regex : Regex
  demand : Glob.Demand
deriving DecidableEq, Inhabited

namespace Glob

def compile (pattern : String) : Except Flaw Glob :=
  (parse pattern).map fun tokens ↦ ⟨regexOf tokens, demandOf tokens⟩

def asksForFile (g : Glob) : Bool := g.demand = .fileName || g.demand = .extension

/-- A pattern matches the bytes of a whole name. One that asks for a file name or for its extension matches no
name without one. -/
def fits (g : Glob) (name : String) : Bool :=
  Regex.fits g.regex (name.toList.flatMap String.utf8EncodeChar) &&
    (!g.asksForFile || hasFileName name)

end Glob

end Modularity
