import Modularity.Json.Basic

namespace Modularity.Json

/-- The fields of a record that are there. A record is an object, whose unknown fields are passed over, or, in
positional form, an array of the fields in their declared order, which may end early. -/
structure Record where
  positional : Bool
  fields : List (String × Json)

def repeats (fields : List (String × Json)) (name : String) : Bool :=
  1 < (fields.filter (fun f ↦ f.1 = name)).length

/-- Views a value as a record with the given field names. A known field that is given twice and an
array that is too long are refused. -/
def record? (names : List String) : Json → Option Record
  | .obj fields => if names.any (repeats fields) then none else some ⟨false, fields⟩
  | .arr items => if names.length < items.length then none else some ⟨true, names.zip items⟩
  | _ => none

namespace Record

def required {α : Type} (r : Record) (name : String) (value? : Json → Option α) : Option α :=
  (r.fields.lookup name).bind value?

def withDefault {α : Type} (r : Record) (name : String) (value? : Json → Option α) (default : α) :
    Option α :=
  match r.fields.lookup name with
  | some j => value? j
  | none => some default

/-- A field that may be `null`. It may be left out of an object, but not of an array. -/
def nullable {α : Type} (r : Record) (name : String) (value? : Json → Option α) :
    Option (Option α) :=
  match r.fields.lookup name with
  | some j => j.option? value?
  | none => if r.positional then none else some none

end Record

end Modularity.Json
