import Modularity.Json.Reader
import Modularity.Proofs.Json.Scan
import Mathlib.Data.List.Forall2

namespace Modularity.Json

/-- The values that records are written as: no numbers with a sign or a fraction, and nothing
unreadable. -/
inductive Plain : Json → Prop
  | null : Plain .null
  | bool (b : Bool) : Plain (.bool b)
  | nat (n : Nat) : Plain (.nat n)
  | str (s : String) : Plain (.str s)
  | arr {items : List Json} : (∀ j ∈ items, Plain j) → Plain (.arr items)
  | obj {fields : List (String × Json)} : (∀ f ∈ fields, Plain f.2) → Plain (.obj fields)

mutual

def tokens : Json → List Token
  | .null => [.word .null]
  | .bool b => [.word (.bool b)]
  | .nat n => [.word (.nat n)]
  | .decimal lexeme => [.word (.decimal lexeme)]
  | .str s => [.text s]
  | .unreadable => [.broken]
  | .arr items => .beginArray :: commas [.comma] (itemTokens items) ++ [.endArray]
  | .obj fields => .beginObject :: commas [.comma] (fieldTokens fields) ++ [.endObject]

def itemTokens : List Json → List (List Token)
  | [] => []
  | item :: rest => tokens item :: itemTokens rest

def fieldTokens : List (String × Json) → List (List Token)
  | [] => []
  | (key, value) :: rest => (.text key :: .colon :: tokens value) :: fieldTokens rest

end

variable {j : Json} {items : List Json} {fields : List (String × Json)}

theorem commas_cons_cons {α : Type} (between : List α) (x y : List α) (rest : List (List α)) :
    commas between (x :: y :: rest) = x ++ (between ++ commas between (y :: rest)) :=
  List.append_assoc ..

theorem spells_commas {space : List Char} (hcomma : Closes (',' :: space) [.comma])
    {parts : List (List Char)} {tss : List (List Token)} (h : List.Forall₂ Spells parts tss) :
    Spells (commas (',' :: space) parts) (commas [.comma] tss) := by
  induction h with
  | nil => exact Closes.nil.spells
  | @cons part ts parts tss hpart hrest ih =>
    cases hrest with
    | nil => exact hpart
    | cons =>
      rw [commas_cons_cons, commas_cons_cons, ← List.append_assoc, ← List.append_assoc]
      exact (hpart.append_closes (by decide) hcomma).append_spells ih

theorem closes_comma : Closes [','] [.comma] := closes_punctuation rfl (by decide) (by decide)

theorem compactItems_eq (items : List Json) : compactItems items = items.map compact := by
  induction items with
  | nil => rfl
  | cons item rest ih => rw [compactItems, ih, List.map_cons]

theorem itemTokens_eq (items : List Json) : itemTokens items = items.map tokens := by
  induction items with
  | nil => rfl
  | cons item rest ih => rw [itemTokens, ih, List.map_cons]

theorem spells_fields (h : ∀ f ∈ fields, Spells f.2.compact f.2.tokens) :
    List.Forall₂ Spells (compactFields fields) (fieldTokens fields) := by
  induction fields with
  | nil => exact .nil
  | cons f rest ih =>
    obtain ⟨key, value⟩ := f
    refine .cons ?_ (ih fun f hf ↦ h f (List.mem_cons_of_mem _ hf))
    have hcolon : Closes [':'] [.colon] := closes_punctuation rfl (by decide) (by decide)
    have hvalue := hcolon.append_spells (h (key, value) (List.mem_cons_self ..))
    exact (closes_quote key).append_spells hvalue

theorem spells_compact (h : Plain j) : Spells j.compact j.tokens := by
  induction h with
  | null => exact spells_word (List.cons_ne_nil _ _) (by decide) rfl
  | bool b => cases b <;> exact spells_word (List.cons_ne_nil _ _) (by decide) rfl
  | nat n => exact spells_nat n
  | str s => exact (closes_quote s).spells
  | @arr items _ ih =>
    have hopen : Closes ['['] [.beginArray] := closes_punctuation rfl (by decide) (by decide)
    have hclose : Closes [']'] [.endArray] := closes_punctuation rfl (by decide) (by decide)
    have hitems : List.Forall₂ Spells (compactItems items) (itemTokens items) := by
      rw [compactItems_eq, itemTokens_eq, List.forall₂_map_left_iff, List.forall₂_map_right_iff,
        List.forall₂_same]
      exact ih
    exact ((hopen.append_spells (spells_commas closes_comma hitems)).append_closes (by decide)
      hclose).spells
  | @obj fields _ ih =>
    have hopen : Closes ['\x7b'] [.beginObject] := closes_punctuation rfl (by decide) (by decide)
    have hclose : Closes ['\x7d'] [.endObject] := closes_punctuation rfl (by decide) (by decide)
    exact ((hopen.append_spells (spells_commas closes_comma (spells_fields ih))).append_closes
      (by decide) hclose).spells

namespace Build

theorem run_append (b : Build) (ts us : List Token) :
    b.run (ts ++ us) = (b.run ts).bind fun b' ↦ b'.run us := by
  induction ts generalizing b with
  | nil => rfl
  | cons t ts ih =>
    rw [List.cons_append, run, run]
    cases b.step t with
    | none => rfl
    | some b' => exact ih b'

def Reads (j : Json) : Prop :=
  ∀ stack, run ⟨stack, .value⟩ j.tokens = some (complete stack j) ∧
    run ⟨stack, .firstItem⟩ j.tokens = some (complete stack j)

theorem run_items {reversed : List Json} {outer : List Frame} (hne : items ≠ [])
    (h : ∀ j ∈ items, Reads j) :
    run ⟨.array reversed :: outer, .value⟩ (commas [.comma] (itemTokens items)) =
        some ⟨.array (items.reverse ++ reversed) :: outer, .next⟩ ∧
      run ⟨.array reversed :: outer, .firstItem⟩ (commas [.comma] (itemTokens items)) =
        some ⟨.array (items.reverse ++ reversed) :: outer, .next⟩ := by
  induction items generalizing reversed with
  | nil => exact absurd rfl hne
  | cons item rest ih =>
    obtain ⟨hvalue, hfirst⟩ := h item (List.mem_cons_self ..) (.array reversed :: outer)
    cases rest with
    | nil => exact ⟨hvalue, hfirst⟩
    | cons next rest =>
      have hrest := (ih (by simp) fun j hj ↦ h j (List.mem_cons_of_mem _ hj) :
        run ⟨.array (item :: reversed) :: outer, .value⟩ _ = _ ∧ _).1
      rw [itemTokens, itemTokens, commas_cons_cons, run_append, run_append, hvalue, hfirst,
        Option.bind_some, List.reverse_cons, List.append_assoc]
      exact ⟨hrest, hrest⟩

theorem run_fields {reversed : List (String × Json)} {key : String} {outer : List Frame}
    (hne : fields ≠ []) (h : ∀ f ∈ fields, Reads f.2) :
    ∃ key', run ⟨.object reversed true key :: outer, .key⟩ (commas [.comma] (fieldTokens fields)) =
        some ⟨.object (fields.reverse ++ reversed) true key' :: outer, .next⟩ ∧
      run ⟨.object reversed true key :: outer, .firstKey⟩ (commas [.comma] (fieldTokens fields)) =
        some ⟨.object (fields.reverse ++ reversed) true key' :: outer, .next⟩ := by
  induction fields generalizing reversed key with
  | nil => exact absurd rfl hne
  | cons f rest ih =>
    obtain ⟨name, value⟩ := f
    have hvalue := (h (name, value) (List.mem_cons_self ..) (.object reversed true name :: outer)).1
    have hfield : ∀ expect, expect = .key ∨ expect = .firstKey →
        run ⟨.object reversed true key :: outer, expect⟩ (.text name :: .colon :: value.tokens) =
          some ⟨.object ((name, value) :: reversed) true name :: outer, .next⟩ := by
      rintro expect (rfl | rfl) <;> exact hvalue
    cases rest with
    | nil => exact ⟨name, hfield _ (.inl rfl), hfield _ (.inr rfl)⟩
    | cons next rest =>
      obtain ⟨key', hrest, -⟩ := (ih (by simp) fun f hf ↦ h f (List.mem_cons_of_mem _ hf) :
        ∃ key', run ⟨.object ((name, value) :: reversed) true name :: outer, .key⟩ _ = _ ∧ _)
      refine ⟨key', ?_⟩
      rw [fieldTokens, fieldTokens, commas_cons_cons, run_append, run_append, hfield _ (.inl rfl),
        hfield _ (.inr rfl), Option.bind_some, List.reverse_cons, List.append_assoc]
      exact ⟨hrest, hrest⟩

theorem reads (h : Plain j) : Reads j := by
  induction h with
  | null => exact fun stack ↦ ⟨rfl, rfl⟩
  | bool b => exact fun stack ↦ ⟨rfl, rfl⟩
  | nat n => exact fun stack ↦ ⟨rfl, rfl⟩
  | str s => exact fun stack ↦ ⟨rfl, rfl⟩
  | @arr items _ ih =>
    intro stack
    have hbody : run ⟨.array [] :: stack, .firstItem⟩
        (commas [.comma] (itemTokens items) ++ [.endArray]) = some (complete stack (.arr items)) := by
      by_cases hnil : items = []
      · subst hnil
        rfl
      · rw [run_append, (run_items hnil ih).2, Option.bind_some, List.append_nil]
        have hlast : run ⟨.array items.reverse :: stack, .next⟩ [.endArray] =
            some (complete stack (.arr items.reverse.reverse)) := rfl
        rw [hlast, List.reverse_reverse]
    exact ⟨hbody, hbody⟩
  | @obj fields _ ih =>
    intro stack
    have hbody : run ⟨.object [] true "" :: stack, .firstKey⟩
        (commas [.comma] (fieldTokens fields) ++ [.endObject]) =
          some (complete stack (.obj fields)) := by
      by_cases hnil : fields = []
      · subst hnil
        rfl
      · obtain ⟨key, -, hrun⟩ :=
          (run_fields hnil ih : ∃ key, run ⟨.object [] true "" :: stack, .key⟩ _ = _ ∧ _)
        rw [run_append, hrun, Option.bind_some, List.append_nil]
        have hlast : run ⟨.object fields.reverse true key :: stack, .next⟩ [.endObject] =
            some (complete stack (.obj fields.reverse.reverse)) := rfl
        rw [hlast, List.reverse_reverse]
    exact ⟨hbody, hbody⟩

end Build

theorem ofTokens?_tokens (h : Plain j) : ofTokens? j.tokens = some j := by
  have hrun : Build.run {} j.tokens = some (Build.complete [] j) := (Build.reads h []).1
  rw [ofTokens?, hrun]
  rfl

theorem ofString?_text (h : Plain j) : ofString? j.text = some j := by
  rw [ofString?, text, String.toList_ofList, ofChars?, (spells_compact h).tokens?, Option.bind_some,
    ofTokens?_tokens h]

theorem eq_of_text {k : Json} (hj : Plain j) (hk : Plain k) (h : j.text = k.text) : j = k := by
  have hread := ofString?_text hj
  rw [h, ofString?_text hk] at hread
  exact (Option.some.inj hread).symm

end Modularity.Json
