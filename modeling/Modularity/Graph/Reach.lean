namespace Modularity.Reach

variable {α : Type} [DecidableEq α]

/-- The vertices of a level and of the levels after it, those already seen left out. Each level lists what
follows the vertices of the level before, in their order and each once. The first number bounds the
count of levels. -/
def levels (next : α → List α) : Nat → List α → List α → List α
  | 0, _, _ => []
  | bound + 1, seen, level =>
    let fresh := level.eraseDups.filter fun a ↦ !seen.contains a
    fresh ++ levels next bound (seen ++ fresh) (fresh.flatMap next)

/-- The vertices that a queue leads to, in the order of the visits. What follows a vertex goes to the end of
the queue when the vertex is visited. A vertex counts as seen from its visit on and not from its place in
the queue, so the queue can hold it several times; only its first turn is a visit. -/
def search (next : α → List α) (unseen queue : List α) : List α :=
  match queue with
  | [] => []
  | a :: queue =>
    if a ∈ unseen then a :: search next (unseen.erase a) (queue ++ next a)
    else search next unseen queue
-- A visit leaves fewer vertices unseen, however long the queue gets; any other turn shortens the queue.
termination_by (unseen.length, queue.length)
decreasing_by
  · rename_i h
    have hpos := List.length_pos_of_mem h
    rw [List.length_erase_of_mem h]
    exact Prod.Lex.left _ _ (Nat.sub_lt hpos Nat.one_pos)
  · exact Prod.Lex.right _ (Nat.lt_succ_self _)

end Modularity.Reach
