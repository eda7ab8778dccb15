import Modularity.Json.Token

namespace Modularity.Json

/-- An open container: what it holds so far, the last item first. In an object a value for `key` is
under way, and `readable` says that every key so far denotes a text. -/
inductive Frame where
  | array (reversed : List Json)
  | object (reversed : List (String × Json)) (readable : Bool) (key : String)
deriving Inhabited

inductive Expect where
  /-- A value. -/
  | value
  /-- A value or the end of the array that was just opened. -/
  | firstItem
  /-- A key or the end of the object that was just opened. -/
  | firstKey
  /-- A key. -/
  | key
  /-- The colon after a key. -/
  | colon
  /-- A comma or the end of the open container. -/
  | next
  /-- Nothing: this value was all. -/
  | nothing (value : Json)
deriving Inhabited

structure Build where
  stack : List Frame := []
  expect : Expect := .value
deriving Inhabited

namespace Build

def complete (stack : List Frame) (value : Json) : Build :=
  match stack with
  | [] => ⟨[], .nothing value⟩
  | .array reversed :: outer => ⟨.array (value :: reversed) :: outer, .next⟩
  | .object reversed readable key :: outer =>
    ⟨.object ((key, value) :: reversed) readable key :: outer, .next⟩

def value? (stack : List Frame) : Token → Option Build
  | .beginObject => some ⟨.object [] true "" :: stack, .firstKey⟩
  | .beginArray => some ⟨.array [] :: stack, .firstItem⟩
  | .text s => some (complete stack (.str s))
  | .broken => some (complete stack .unreadable)
  | .word value => some (complete stack value)
  | _ => none

def key? (stack : List Frame) : Token → Option Build
  | .text s =>
    match stack with
    | .object reversed readable _ :: outer => some ⟨.object reversed readable s :: outer, .colon⟩
    | _ => none
  | .broken =>
    match stack with
    | .object reversed _ key :: outer => some ⟨.object reversed false key :: outer, .colon⟩
    | _ => none
  | _ => none

def endArray? : List Frame → Option Build
  | .array reversed :: outer => some (complete outer (.arr reversed.reverse))
  | _ => none

def endObject? : List Frame → Option Build
  | .object reversed readable _ :: outer =>
    some (complete outer (if readable then .obj reversed.reverse else .unreadable))
  | _ => none

def comma? : List Frame → Option Build
  | .array reversed :: outer => some ⟨.array reversed :: outer, .value⟩
  | .object reversed readable key :: outer => some ⟨.object reversed readable key :: outer, .key⟩
  | [] => none

/-- One token: the reader after it, or nothing where no JSON text goes on like this. -/
def step (b : Build) (t : Token) : Option Build :=
  match b.expect, t with
  | .value, t => value? b.stack t
  | .firstItem, .endArray => endArray? b.stack
  | .firstItem, t => value? b.stack t
  | .firstKey, .endObject => endObject? b.stack
  | .firstKey, t => key? b.stack t
  | .key, t => key? b.stack t
  | .colon, .colon => some { b with expect := .value }
  | .next, .comma => comma? b.stack
  | .next, .endArray => endArray? b.stack
  | .next, .endObject => endObject? b.stack
  | _, _ => none

def run : Build → List Token → Option Build
  | b, [] => some b
  | b, t :: ts =>
    match b.step t with
    | some b' => run b' ts
    | none => none

def finish (b : Build) : Option Json :=
  match b.expect with
  | .nothing value => some value
  | _ => none

end Build

def ofTokens? (ts : List Token) : Option Json := (Build.run {} ts).bind Build.finish

def ofChars? (cs : List Char) : Option Json := (tokens? cs).bind ofTokens?

def ofString? (s : String) : Option Json := ofChars? s.toList

end Modularity.Json
