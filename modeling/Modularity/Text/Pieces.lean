namespace Modularity.Text

def pieces (isDelimiter : Char → Bool) : List Char → List (List Char)
  | [] => [[]]
  | c :: cs =>
    match isDelimiter c, pieces isDelimiter cs with
    | true, ps => [] :: ps
    | false, [] => [[c]]
    | false, p :: ps => (c :: p) :: ps

def cutAtColons : List Char → Option (List Char × List Char)
  | ':' :: ':' :: rest => some ([], rest)
  | c :: rest => (cutAtColons rest).map fun (before, after) ↦ (c :: before, after)
  | [] => none

def dropCarriageReturn (line : List Char) : List Char :=
  match line.reverse with
  | '\r' :: rest => rest.reverse
  | _ => line

/-- The lines among the pieces between line feeds: an ended line loses a carriage return before its
end, and nothing after the last end is no line. -/
def endedLines : List (List Char) → List (List Char)
  | [] => []
  | [last] => if last.isEmpty then [] else [last]
  | line :: rest => dropCarriageReturn line :: endedLines rest

def lines (s : String) : List String :=
  (endedLines (pieces (· == '\n') s.toList)).map String.ofList

end Modularity.Text
