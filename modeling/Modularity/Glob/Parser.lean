namespace Modularity.Glob

inductive Token where
  /-- One character. -/
  | literal (c : Char)
  /-- Any byte, written `?`. -/
  | anyByte
  /-- Any bytes, written `*`. -/
  | anyBytes
  /-- Nothing, or anything up to a slash, written `**` in front. -/
  | leading
  /-- A slash and anything, written `**` at the end. -/
  | trailing
  /-- One slash, or two with anything between them, written `**` between slashes. -/
  | between
  /-- A class: one byte in, or not in, the ranges of characters. -/
  | oneOf (negated : Bool) (ranges : List (Char × Char))
  /-- Braces: one of several branches. -/
  | branches (options : List (List Token))
deriving Inhabited

inductive Flaw where
  | unclosedClass
  | invalidRange (low high : Char)
  | unopenedBrace
  | unclosedBrace
  | danglingEscape
deriving DecidableEq, Inhabited

def Flaw.message : Flaw → String
  | .unclosedClass => "unclosed character class; missing ']'"
  | .invalidRange low high =>
    "invalid range; '" ++ String.ofList [low] ++ "' > '" ++ String.ofList [high] ++ "'"
  | .unopenedBrace =>
    "unopened alternate group; missing '\x7b' (maybe escape '\x7d' with '[\x7d]'?)"
  | .unclosedBrace =>
    "unclosed alternate group; missing '\x7d' (maybe escape '\x7b' with '[\x7b]'?)"
  | .danglingEscape => "dangling '\\'"

/-- How much of a class has been read: nothing, its negation, or a member at least. -/
inductive Stage where
  | opened
  | negation
  | members
deriving DecidableEq, Inhabited

/-- A class under way: its ranges, the last one first, and whether a dash waits for the end of the last
range. -/
structure ClassDraft where
  stage : Stage := .opened
  negated : Bool := false
  reversed : List (Char × Char) := []
  dash : Bool := false
deriving Inhabited

namespace ClassDraft

def push (d : ClassDraft) (c : Char) : ClassDraft :=
  { d with stage := .members, reversed := (c, c) :: d.reversed, dash := false }

def stretch (d : ClassDraft) (c : Char) : Except Flaw ClassDraft :=
  match d.reversed with
  | (low, _) :: rest =>
    if c < low then .error (.invalidRange low c)
    else .ok { d with stage := .members, reversed := (low, c) :: rest, dash := false }
  | [] => .ok (d.push c)

def member (d : ClassDraft) (c : Char) : Except Flaw ClassDraft :=
  if d.dash then d.stretch c
  else if c = '-' && d.stage = .members then .ok { d with dash := true }
  else .ok (d.push c)

/-- The token of a class that has ended; a dash at the end is a member. -/
def token (d : ClassDraft) : Token :=
  let d := if d.dash then d.push '-' else d
  .oneOf d.negated d.reversed.reverse

end ClassDraft

inductive Mode where
  | plain
  /-- After a backslash. -/
  | escape
  /-- After one star; the character before it is kept. -/
  | star (before : Option Char)
  /-- After two stars; the character before them is kept. -/
  | stars (before : Option Char)
  /-- Inside a class. -/
  | inClass (draft : ClassDraft)
deriving Inhabited

/-- The machine: the branch under way and the branches that wait, the innermost first and each with its
last token first; the number of waiting branches at each open brace; the character before. -/
structure Scan where
  current : List Token := []
  waiting : List (List Token) := []
  braces : List Nat := []
  before : Option Char := none
  mode : Mode := .plain
deriving Inhabited

namespace Scan

def push (s : Scan) (t : Token) : Scan := { s with current := t :: s.current, mode := .plain }

def branch (s : Scan) : Scan :=
  { s with current := [], waiting := s.current :: s.waiting, mode := .plain }

def openBrace (s : Scan) : Scan := { s.branch with braces := s.waiting.length :: s.braces }

/-- A closing brace: every branch since the opening one becomes a token of the branch before it. -/
def closeBrace (s : Scan) : Except Flaw Scan :=
  match s.braces with
  | [] => .error .unopenedBrace
  | outer :: braces =>
    let count := s.waiting.length - outer
    let options := ((s.current :: s.waiting).take count).map List.reverse
    let rest := s.waiting.drop (count - 1)
    .ok {
      s with
      current := .branches options.reverse :: rest.headD []
      waiting := rest.tail
      braces := braces
      mode := .plain }

def plain (s : Scan) (c : Char) : Except Flaw Scan :=
  match c with
  | '?' => .ok (s.push .anyByte)
  | '*' => .ok { s with mode := .star s.before }
  | '[' => .ok { s with mode := .inClass {} }
  | '\x7b' => .ok s.openBrace
  | '\x7d' => s.closeBrace
  | ',' => .ok (if s.braces.isEmpty then s.push (.literal ',') else s.branch)
  | '\\' => .ok { s with mode := .escape }
  | c => .ok (s.push (.literal c))

def twoStars (s : Scan) : Scan := (s.push .anyBytes).push .anyBytes

/-- Puts a token for two stars in the place of the slash before them, unless stars stood there already. -/
def replaceSlash (s : Scan) (t : Token) : Scan :=
  match s.current with
  | .leading :: _ => { s with mode := .plain }
  | .trailing :: _ => { s with mode := .plain }
  | _ :: rest => { s with current := t :: rest, mode := .plain }
  | [] => s.push t

/-- What two stars mean before a character or the end, and whether they take that character. -/
def resolveStars (s : Scan) (before next : Option Char) : Scan × Bool :=
  if s.current.isEmpty then
    match next with
    | none => (s.push .leading, false)
    | some '/' => (s.push .leading, true)
    | some _ => (s.twoStars, false)
  else if before ≠ some '/' && (s.braces.isEmpty || (before ≠ some ',' && before ≠ some '\x7b')) then
    (s.twoStars, false)
  else
    match next with
    | none => (s.replaceSlash .trailing, false)
    | some '/' => (s.replaceSlash .between, true)
    | some c =>
      if !s.braces.isEmpty && (c = ',' || c = '\x7d') then (s.replaceSlash .trailing, false)
      else (s.twoStars, false)

def read (s : Scan) (c : Char) : Except Flaw Scan :=
  match s.mode with
  | .plain => s.plain c
  | .escape => .ok (s.push (.literal c))
  | .star before =>
    if c = '*' then .ok { s with mode := .stars before } else (s.push .anyBytes).plain c
  | .stars before =>
    match s.resolveStars before (some c) with
    | (s, true) => .ok s
    | (s, false) => s.plain c
  | .inClass draft =>
    if draft.stage = .opened && (c = '!' || c = '^') then
      .ok { s with mode := .inClass { draft with stage := .negation, negated := true } }
    else if c = ']' && draft.stage = .members then .ok (s.push draft.token)
    else (draft.member c).map fun draft ↦ { s with mode := .inClass draft }

def step (s : Scan) (c : Char) : Except Flaw Scan :=
  (s.read c).map fun s ↦ { s with before := some c }

def run : Scan → List Char → Except Flaw Scan
  | s, [] => .ok s
  | s, c :: cs =>
    match s.step c with
    | .ok s' => run s' cs
    | .error flaw => .error flaw

def endMode (s : Scan) : Except Flaw Scan :=
  match s.mode with
  | .plain => .ok s
  | .escape => .error .danglingEscape
  | .star _ => .ok (s.push .anyBytes)
  | .stars before => .ok (s.resolveStars before none).1
  | .inClass _ => .error .unclosedClass

def finish (s : Scan) : Except Flaw (List Token) :=
  match s.endMode with
  | .ok s => if s.braces.isEmpty then .ok s.current.reverse else .error .unclosedBrace
  | .error flaw => .error flaw

end Scan

def parse (pattern : String) : Except Flaw (List Token) :=
  match Scan.run {} pattern.toList with
  | .ok s => s.finish
  | .error flaw => .error flaw

end Modularity.Glob
