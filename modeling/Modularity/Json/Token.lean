import Modularity.Json.Basic

namespace Modularity.Json

/-- A token of JSON text. A `broken` text holds a surrogate escape without a partner. -/
inductive Token where
  | beginObject
  | endObject
  | beginArray
  | endArray
  | comma
  | colon
  | text (s : String)
  | broken
  | word (value : Json)
deriving Inhabited

def isSpace (c : Char) : Bool := c = ' ' || c = '\t' || c = '\n' || c = '\r'

def punctuation? : Char → Option Token
  | '\x7b' => some .beginObject
  | '\x7d' => some .endObject
  | '[' => some .beginArray
  | ']' => some .endArray
  | ',' => some .comma
  | ':' => some .colon
  | _ => none

def isWordChar (c : Char) : Bool := !isSpace c && (punctuation? c).isNone && c != '"'

def digitsValue (cs : List Char) : Nat := cs.foldl (fun n c ↦ 10 * n + (c.toNat - '0'.toNat)) 0

/-- Whether a text is a whole part: one zero, or digits that start with another one. -/
def isWhole (cs : List Char) : Bool :=
  match cs with
  | [] => false
  | '0' :: rest => rest.isEmpty
  | _ => cs.all Char.isDigit

def isExponent : List Char → Bool
  | [] => true
  | e :: rest =>
    (e = 'e' || e = 'E') &&
      match rest with
      | [] => false
      | s :: digits =>
        if s = '+' || s = '-' then !digits.isEmpty && digits.all Char.isDigit
        else rest.all Char.isDigit

def isFraction : List Char → Bool
  | '.' :: rest =>
    !(rest.takeWhile Char.isDigit).isEmpty && isExponent (rest.dropWhile Char.isDigit)
  | cs => isExponent cs

def isUnsigned (cs : List Char) : Bool :=
  isWhole (cs.takeWhile Char.isDigit) && isFraction (cs.dropWhile Char.isDigit)

def ofWord? (cs : List Char) : Option Json :=
  if cs = ['n', 'u', 'l', 'l'] then some .null
  else if cs = ['t', 'r', 'u', 'e'] then some (.bool true)
  else if cs = ['f', 'a', 'l', 's', 'e'] then some (.bool false)
  else if isWhole cs && cs.all Char.isDigit then some (.nat (digitsValue cs))
  else if isUnsigned (if cs.head? = some '-' then cs.tail else cs) then
    some (.decimal (String.ofList cs))
  else none

def escaped? : Char → Option Char
  | '"' => some '"'
  | '\\' => some '\\'
  | '/' => some '/'
  | 'b' => some '\x08'
  | 'f' => some '\x0c'
  | 'n' => some '\n'
  | 'r' => some '\r'
  | 't' => some '\t'
  | _ => none

def hexDigit? (c : Char) : Option Nat :=
  if c.isDigit then some (c.toNat - '0'.toNat)
  else if 'a' ≤ c && c ≤ 'f' then some (c.toNat - 'a'.toNat + 10)
  else if 'A' ≤ c && c ≤ 'F' then some (c.toNat - 'A'.toNat + 10)
  else none

/-- A text under way: its characters, the last one first, a high surrogate that waits for its partner,
and whether a surrogate has been left without one. -/
structure Draft where
  reversed : List Char := []
  high : Option Nat := none
  broken : Bool := false
deriving Inhabited

namespace Draft

def push (d : Draft) (c : Char) : Draft :=
  ⟨c :: d.reversed, none, d.broken || d.high.isSome⟩

def pushUnit (d : Draft) (u : Nat) : Draft :=
  if 0xD800 ≤ u && u < 0xDC00 then ⟨d.reversed, some u, d.broken || d.high.isSome⟩
  else if 0xDC00 ≤ u && u < 0xE000 then
    match d.high with
    | some h =>
      ⟨Char.ofNat (0x10000 + (h - 0xD800) * 0x400 + (u - 0xDC00)) :: d.reversed, none, d.broken⟩
    | none => { d with broken := true }
  else d.push (Char.ofNat u)

def token (d : Draft) : Token :=
  if d.broken || d.high.isSome then .broken else .text (String.ofList d.reversed.reverse)

end Draft

inductive Mode where
  /-- Between tokens. -/
  | between
  /-- Inside a word, whose characters are kept with the last one first. -/
  | word (reversed : List Char)
  /-- Inside a text. -/
  | text (draft : Draft)
  /-- After a backslash. -/
  | escape (draft : Draft)
  /-- Inside a numeric escape, with the digits still owed and the value so far. -/
  | unit (draft : Draft) (owed : Nat) (value : Nat)
deriving Inhabited

structure Scan where
  reversed : List Token := []
  mode : Mode := .between
deriving Inhabited

namespace Scan

def emit (s : Scan) (t : Token) : Scan := ⟨t :: s.reversed, .between⟩

def start (s : Scan) (c : Char) : Scan :=
  if isSpace c then { s with mode := .between }
  else if c = '"' then { s with mode := .text {} }
  else
    match punctuation? c with
    | some t => s.emit t
    | none => { s with mode := .word [c] }

def endWord (s : Scan) (reversed : List Char) : Option Scan :=
  (ofWord? reversed.reverse).map fun value ↦ s.emit (.word value)

def step (s : Scan) (c : Char) : Option Scan :=
  match s.mode with
  | .between => some (s.start c)
  | .word reversed =>
    if isWordChar c then some { s with mode := .word (c :: reversed) }
    else (s.endWord reversed).map (·.start c)
  | .text draft =>
    if c = '"' then some (s.emit draft.token)
    else if c = '\\' then some { s with mode := .escape draft }
    else if c.toNat < 0x20 then none
    else some { s with mode := .text (draft.push c) }
  | .escape draft =>
    if c = 'u' then some { s with mode := .unit draft 4 0 }
    else (escaped? c).map fun e ↦ { s with mode := .text (draft.push e) }
  | .unit draft owed value =>
    (hexDigit? c).map fun d ↦
      let value := 16 * value + d
      if owed ≤ 1 then { s with mode := .text (draft.pushUnit value) }
      else { s with mode := .unit draft (owed - 1) value }

def run : Scan → List Char → Option Scan
  | s, [] => some s
  | s, c :: cs =>
    match s.step c with
    | some s' => run s' cs
    | none => none

def finish (s : Scan) : Option (List Token) :=
  match s.mode with
  | .between => some s.reversed.reverse
  | .word reversed => (s.endWord reversed).map fun s ↦ s.reversed.reverse
  | _ => none

end Scan

def tokens? (cs : List Char) : Option (List Token) := (Scan.run {} cs).bind Scan.finish

end Modularity.Json
