import Modularity.Json.Basic

namespace Modularity.Json

def hexDigit (n : Nat) : Char := Nat.digitChar (n % 16)

/-- One character inside a text. Only quotes, backslashes and controls are escaped. -/
def escape (c : Char) : List Char :=
  if c = '"' then ['\\', '"']
  else if c = '\\' then ['\\', '\\']
  else if c = '\x08' then ['\\', 'b']
  else if c = '\x0c' then ['\\', 'f']
  else if c = '\n' then ['\\', 'n']
  else if c = '\r' then ['\\', 'r']
  else if c = '\t' then ['\\', 't']
  else if c.toNat < 0x20 then
    ['\\', 'u', '0', '0', hexDigit (c.toNat / 16), hexDigit c.toNat]
  else [c]

def quote (s : String) : List Char := '"' :: s.toList.flatMap escape ++ ['"']

def commas {α : Type} (between : List α) : List (List α) → List α
  | [] => []
  | [part] => part
  | part :: rest => part ++ between ++ commas between rest

/-- What stands for an unreadable text: a surrogate escape without a partner. -/
def lone : List Char := ['"', '\\', 'u', 'd', '8', '0', '0', '"']

mutual

def compact : Json → List Char
  | .null => ['n', 'u', 'l', 'l']
  | .bool true => ['t', 'r', 'u', 'e']
  | .bool false => ['f', 'a', 'l', 's', 'e']
  | .nat n => Nat.toDigits 10 n
  | .decimal lexeme => lexeme.toList
  | .str s => quote s
  | .unreadable => lone
  | .arr items => '[' :: commas [','] (compactItems items) ++ [']']
  | .obj fields => '\x7b' :: commas [','] (compactFields fields) ++ ['\x7d']

def compactItems : List Json → List (List Char)
  | [] => []
  | item :: rest => compact item :: compactItems rest

def compactFields : List (String × Json) → List (List Char)
  | [] => []
  | (key, value) :: rest => (quote key ++ ':' :: compact value) :: compactFields rest

end

def newline (level : Nat) : List Char := '\n' :: List.replicate (2 * level) ' '

/-- Parts between brackets, each on a line of its own; no part at all stays on the line. -/
def block (opening closing : Char) (level : Nat) : List (List Char) → List Char
  | [] => [opening, closing]
  | parts =>
    opening :: newline (level + 1) ++ commas (',' :: newline (level + 1)) parts ++
      newline level ++ [closing]

mutual

def pretty (level : Nat) : Json → List Char
  | .null => ['n', 'u', 'l', 'l']
  | .bool true => ['t', 'r', 'u', 'e']
  | .bool false => ['f', 'a', 'l', 's', 'e']
  | .nat n => Nat.toDigits 10 n
  | .decimal lexeme => lexeme.toList
  | .str s => quote s
  | .unreadable => lone
  | .arr items => block '[' ']' level (prettyItems (level + 1) items)
  | .obj fields => block '\x7b' '\x7d' level (prettyFields (level + 1) fields)

def prettyItems (level : Nat) : List Json → List (List Char)
  | [] => []
  | item :: rest => pretty level item :: prettyItems level rest

def prettyFields (level : Nat) : List (String × Json) → List (List Char)
  | [] => []
  | (key, value) :: rest =>
    (quote key ++ ':' :: ' ' :: pretty level value) :: prettyFields level rest

end

def text (j : Json) : String := String.ofList j.compact

def prettyText (j : Json) : String := String.ofList (j.pretty 0)

end Modularity.Json
