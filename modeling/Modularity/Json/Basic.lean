namespace Modularity

/-- A JSON value. A plain non-negative integer is a `nat` of any size; every other number keeps its
lexeme. An `unreadable` value stands for text that follows the grammar and denotes nothing, because a
surrogate escape in it has no partner: it may be passed over and never be used. Objects keep their fields in
order, and repeated names. -/
inductive Json where
  | null
  | bool (b : Bool)
  | nat (n : Nat)
  | decimal (lexeme : String)
  | str (s : String)
  | unreadable
  | arr (items : List Json)
  | obj (fields : List (String × Json))
deriving Inhabited

namespace Json

def strs (ss : List String) : Json := .arr (ss.map .str)

def orNull {α : Type} (form : α → Json) : Option α → Json
  | none => .null
  | some a => form a

def append : Json → Json → Json
  | .obj fs, .obj gs => .obj (fs ++ gs)
  | j, _ => j

def field? (name : String) : Json → Option Json
  | .obj fields => fields.lookup name
  | _ => none

def list? {α : Type} (item? : Json → Option α) : Json → Option (List α)
  | .arr items => items.mapM item?
  | _ => none

def str? : Json → Option String
  | .str s => some s
  | _ => none

def bool? : Json → Option Bool
  | .bool b => some b
  | _ => none

def nat? : Json → Option Nat
  | .nat n => some n
  | _ => none

def uint32? : Json → Option UInt32
  | .nat n => if n < UInt32.size then some (UInt32.ofNat n) else none
  | _ => none

/-- Reads a count, which has to fit 64 bits. -/
def count? : Json → Option Nat
  | .nat n => if n < UInt64.size then some n else none
  | _ => none

def option? {α : Type} (value? : Json → Option α) : Json → Option (Option α)
  | .null => some none
  | j => (value? j).map some

/-- Reads one of several named values: its name, or an object that holds the name with `null`. -/
def oneOf? {α : Type} (all : List α) (name : α → String) : Json → Option α
  | .str s => all.find? (fun a ↦ name a = s)
  | .obj [(s, .null)] => all.find? (fun a ↦ name a = s)
  | _ => none

end Json

end Modularity
