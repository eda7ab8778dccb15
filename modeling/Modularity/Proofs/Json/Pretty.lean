import Modularity.Proofs.Json.RoundTrip

namespace Modularity.Json

variable {j : Json} {items : List Json} {fields : List (String × Json)}

theorem closes_spaces (n : Nat) : Closes (List.replicate n ' ') [] := by
  induction n with
  | zero => exact Closes.nil
  | succ n ih =>
    have hspace : Closes [' '] [] := fun found ↦ rfl
    exact hspace.append ih

theorem closes_newline (level : Nat) : Closes (newline level) [] := by
  have hbreak : Closes ['\n'] [] := fun found ↦ rfl
  exact hbreak.append (closes_spaces _)

/-- Parts between brackets spell their tokens between the tokens of the brackets. -/
theorem closes_block {opening closing : Char} {first last : Token} (hopen : Closes [opening] [first])
    (hclose : Closes [closing] [last]) (level : Nat) {parts : List (List Char)}
    {tss : List (List Token)} (h : List.Forall₂ Spells parts tss) :
    Closes (block opening closing level parts) (first :: commas [.comma] tss ++ [last]) := by
  cases h with
  | nil => exact hopen.append hclose
  | @cons part ts parts tss hpart hrest =>
    have hcomma : Closes (',' :: newline (level + 1)) [.comma] :=
      closes_comma.append (closes_newline (level + 1))
    have hbody := spells_commas hcomma (.cons hpart hrest)
    have hbreak : Closes ('\n' :: (List.replicate (2 * level) ' ' ++ [closing])) [last] :=
      (closes_newline level).append hclose
    have hrest := hbody.append_closes (by decide) hbreak
    have hall := (hopen.append (closes_newline (level + 1))).append hrest
    simpa [block, newline] using hall

theorem prettyItems_eq (level : Nat) (items : List Json) :
    prettyItems level items = items.map (pretty level) := by
  induction items with
  | nil => rfl
  | cons item rest ih => rw [prettyItems, ih, List.map_cons]

theorem spells_prettyFields {level : Nat} (h : ∀ f ∈ fields, Spells (f.2.pretty level) f.2.tokens) :
    List.Forall₂ Spells (prettyFields level fields) (fieldTokens fields) := by
  induction fields with
  | nil => exact .nil
  | cons f rest ih =>
    obtain ⟨key, value⟩ := f
    refine .cons ?_ (ih fun f hf ↦ h f (List.mem_cons_of_mem _ hf))
    have hcolon : Closes [':'] [.colon] := closes_punctuation rfl (by decide) (by decide)
    have hspaced : Closes [':', ' '] [.colon] := hcolon.append (closes_spaces 1)
    have hvalue := hspaced.append_spells (h (key, value) (List.mem_cons_self ..))
    exact (closes_quote key).append_spells hvalue

theorem spells_pretty (h : Plain j) (level : Nat) : Spells (j.pretty level) j.tokens := by
  induction h generalizing level with
  | null => exact spells_compact .null
  | bool b =>
    cases b with
    | false => exact spells_compact (.bool false)
    | true => exact spells_compact (.bool true)
  | nat n => exact spells_nat n
  | str s => exact (closes_quote s).spells
  | @arr items _ ih =>
    have hopen : Closes ['['] [.beginArray] := closes_punctuation rfl (by decide) (by decide)
    have hclose : Closes [']'] [.endArray] := closes_punctuation rfl (by decide) (by decide)
    have hitems : List.Forall₂ Spells (prettyItems (level + 1) items) (itemTokens items) := by
      rw [prettyItems_eq, itemTokens_eq, List.forall₂_map_left_iff, List.forall₂_map_right_iff,
        List.forall₂_same]
      exact fun item hitem ↦ ih item hitem _
    exact (closes_block hopen hclose level hitems).spells
  | @obj fields _ ih =>
    have hopen : Closes ['\x7b'] [.beginObject] := closes_punctuation rfl (by decide) (by decide)
    have hclose : Closes ['\x7d'] [.endObject] := closes_punctuation rfl (by decide) (by decide)
    have hfields := spells_prettyFields fun f hf ↦ ih f hf (level + 1)
    exact (closes_block hopen hclose level hfields).spells

theorem ofString?_prettyText (h : Plain j) : ofString? j.prettyText = some j := by
  rw [ofString?, prettyText, String.toList_ofList, ofChars?, (spells_pretty h 0).tokens?,
    Option.bind_some, ofTokens?_tokens h]

end Modularity.Json
