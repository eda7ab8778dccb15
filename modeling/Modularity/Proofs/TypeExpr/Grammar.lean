import Modularity.Proofs.Text.Words
import Modularity.TypeExpr.Names
import Mathlib.Tactic.MkIffOfInductiveProp

namespace Modularity.TypeExpr

def delimiters : List Char := ['<', '>', ',', '[', ']', '&', ' ']

def keywords : List String := ["?", "extends", "super"]

@[mk_iff] structure IsName (name : String) : Prop where
  nonempty : name ≠ ""
  undelimited : name.toList.all (· ∉ delimiters)
  starts : name.toList.head?.all (!Text.isBlank ·)
  ends : name.toList.getLast?.all (!Text.isBlank ·)
  regular : name ∉ keywords

instance (name : String) : Decidable (IsName name) := decidable_of_iff' _ (isName_iff name)

structure Name where
  text : String
  isName : IsName text

mutual

inductive Expr where
  | plain (name : Name)
  /-- A generic type with its arguments. -/
  | applied (name : Name) (arguments : Arguments)
  | array (item : Expr)
  | wildcard
  /-- A wildcard for the types that extend another one. -/
  | upper (bound : Expr)
  /-- A wildcard for the types that another one extends. -/
  | lower (bound : Expr)
  | intersection (left right : Expr)

/-- The arguments of a generic type. A space may follow each comma or not. -/
inductive Arguments where
  | last (argument : Expr)
  | more (argument : Expr) (spaced : Bool) (rest : Arguments)

end

mutual

def Expr.text : Expr → String
  | .plain name => name.text
  | .applied name arguments => name.text ++ "<" ++ (arguments.text ++ ">")
  | .array item => item.text ++ "[]"
  | .wildcard => "?"
  | .upper bound => "? extends " ++ bound.text
  | .lower bound => "? super " ++ bound.text
  | .intersection left right => left.text ++ " & " ++ right.text

def Arguments.text : Arguments → String
  | .last argument => argument.text
  | .more argument false rest => argument.text ++ "," ++ rest.text
  | .more argument true rest => argument.text ++ ", " ++ rest.text

end

mutual

def Expr.names : Expr → List String
  | .plain name => [name.text]
  | .applied name arguments => name.text :: arguments.names
  | .array item => item.names
  | .wildcard => []
  | .upper bound => bound.names
  | .lower bound => bound.names
  | .intersection left right => left.names ++ right.names

def Arguments.names : Arguments → List String
  | .last argument => argument.names
  | .more argument _ rest => argument.names ++ rest.names

end

theorem isDelimiter_iff {c : Char} : isDelimiter c ↔ c ∈ delimiters := by
  simp [isDelimiter, delimiters, or_assoc]

theorem isKeyword_iff {cs : List Char} : isKeyword cs ↔ String.ofList cs ∈ keywords := by
  have hword : ∀ word : String, cs = word.toList ↔ String.ofList cs = word := fun word ↦ by
    rw [← String.toList_inj, String.toList_ofList]
  have hmark : cs = ['?'] ↔ String.ofList cs = "?" := hword "?"
  rw [isKeyword, Bool.or_eq_true, Bool.or_eq_true, decide_eq_true_eq, decide_eq_true_eq, decide_eq_true_eq,
    hmark, hword, hword, keywords, List.mem_cons, List.mem_cons, List.mem_singleton, or_assoc]

theorem namesIn_of_undelimited {cs : List Char} (h : cs.all (· ∉ delimiters)) :
    namesIn cs = [Text.trimBlank cs].filter fun name ↦ !name.isEmpty && !isKeyword name := by
  have hnone : ∀ c ∈ cs, isDelimiter c = false := fun c hc ↦
    Bool.eq_false_iff.2 (isDelimiter_iff.not.2 (of_decide_eq_true (List.all_eq_true.1 h c hc)))
  rw [namesIn, Text.pieces_eq_splitOnP, List.splitOnP_eq_singleton hnone, List.map_singleton]

theorem isName_of_mem_names {expr name : String} (h : name ∈ names expr) : IsName name := by
  obtain ⟨found, hfound, rfl⟩ := List.mem_map.1 h
  rw [namesIn, List.mem_filter, List.mem_map, Bool.and_eq_true, Bool.not_eq_true',
    Bool.not_eq_true'] at hfound
  obtain ⟨⟨piece, hpiece, rfl⟩, hnonempty, hregular⟩ := hfound
  obtain ⟨hstarts, hends⟩ := Text.trimBlank_eq_self_iff.1 (Text.trimBlank_trimBlank piece)
  have hundelimited : (Text.trimBlank piece).all (· ∉ delimiters) := by
    refine List.all_eq_true.2 fun c hc ↦ decide_eq_true (isDelimiter_iff.not.1 ?_)
    exact Bool.eq_false_iff.1 (Text.not_of_mem_pieces hpiece (Text.trimBlank_subset piece hc))
  exact {
    nonempty := by simpa using hnonempty
    undelimited := by rwa [String.toList_ofList]
    starts := by rwa [String.toList_ofList]
    ends := by rwa [String.toList_ofList]
    regular := isKeyword_iff.not.1 (Bool.eq_false_iff.1 hregular) }

theorem Name.names_text (name : Name) : names name.text = [name.text] := by
  obtain ⟨text, hname⟩ := name
  have htrim : Text.trimBlank text.toList = text.toList :=
    Text.trimBlank_eq_self_iff.2 ⟨hname.starts, hname.ends⟩
  have hregular : isKeyword text.toList = false := by
    rw [Bool.eq_false_iff, ne_eq, isKeyword_iff, String.ofList_toList]
    exact hname.regular
  have hnonempty : text.toList.isEmpty = false := by
    simpa using hname.nonempty
  rw [names, namesIn_of_undelimited hname.undelimited, htrim]
  simp [hregular, hnonempty]

theorem names_of_keyword {word : String} (h : word ∈ keywords) : names word = [] := by
  have hall : ∀ word ∈ keywords, names word = [] := by decide +kernel
  exact hall word h

variable {d : Char}

theorem names_append (hd : d ∈ delimiters) (a b : String) :
    names (a ++ String.singleton d ++ b) = names a ++ names b := by
  simp only [names, namesIn, Text.pieces_eq_splitOnP, String.toList_append, String.toList_singleton,
    List.append_assoc, List.singleton_append]
  rw [List.splitOnP_append_cons _ _ (isDelimiter_iff.2 hd), List.map_append, List.filter_append,
    List.map_append]

theorem names_delimiter_append (hd : d ∈ delimiters) (a : String) :
    names (String.singleton d ++ a) = names a :=
  names_append hd "" a

theorem names_append_delimiter (hd : d ∈ delimiters) (a : String) :
    names (a ++ String.singleton d) = names a := by
  have h := names_append hd a ""
  rwa [String.append_empty, show names "" = [] from rfl, List.append_nil] at h

theorem names_keyword_append {word : String} (h : word ∈ keywords) (a : String) :
    names (word ++ " " ++ a) = names a := by
  have hspace : names (word ++ " " ++ a) = names word ++ names a := names_append (d := ' ') (by decide) word a
  rw [hspace, names_of_keyword h, List.nil_append]

/-- A bound is introduced by a question mark and one more keyword. -/
theorem names_bound {word : String} (h : word ∈ keywords) (a : String) :
    names ("?" ++ " " ++ (word ++ " " ++ a)) = names a := by
  rw [names_keyword_append (by decide), names_keyword_append h]

mutual

theorem Expr.names_text (e : Expr) : TypeExpr.names e.text = e.names := by
  -- the laws above are about one delimiter, so texts with several in a row are put together anew
  cases e with
  | plain name => exact name.names_text
  | applied name arguments =>
    have hopen : TypeExpr.names (name.text ++ "<" ++ (arguments.text ++ ">")) =
        TypeExpr.names name.text ++ TypeExpr.names (arguments.text ++ ">") :=
      names_append (d := '<') (by decide) _ _
    have hclose : TypeExpr.names (arguments.text ++ ">") = TypeExpr.names arguments.text :=
      names_append_delimiter (d := '>') (by decide) _
    rw [Expr.text, hopen, hclose, name.names_text, arguments.names_text]
    rfl
  | array item =>
    have hopen : TypeExpr.names (item.text ++ "[") = TypeExpr.names item.text :=
      names_append_delimiter (d := '[') (by decide) _
    have hclose : TypeExpr.names (item.text ++ "[" ++ "]") = TypeExpr.names (item.text ++ "[") :=
      names_append_delimiter (d := ']') (by decide) _
    have hparts : item.text ++ "[]" = item.text ++ "[" ++ "]" := by
      rw [String.append_assoc]
      rfl
    rw [Expr.text, hparts, hclose, hopen, item.names_text]
    rfl
  | wildcard => exact names_of_keyword (by decide)
  | upper bound =>
    have hparts : "? extends " ++ bound.text = "?" ++ " " ++ ("extends" ++ " " ++ bound.text) := by
      rw [← String.append_assoc]
      rfl
    rw [Expr.text, hparts, names_bound (by decide), bound.names_text]
    rfl
  | lower bound =>
    have hparts : "? super " ++ bound.text = "?" ++ " " ++ ("super" ++ " " ++ bound.text) := by
      rw [← String.append_assoc]
      rfl
    rw [Expr.text, hparts, names_bound (by decide), bound.names_text]
    rfl
  | intersection left right =>
    have hparts : left.text ++ (" " ++ "&" ++ " ") ++ right.text =
        left.text ++ " " ++ "&" ++ (" " ++ right.text) := by
      simp only [String.append_assoc]
    have hleft : TypeExpr.names (left.text ++ " ") = TypeExpr.names left.text :=
      names_append_delimiter (d := ' ') (by decide) _
    have hright : TypeExpr.names (" " ++ right.text) = TypeExpr.names right.text :=
      names_delimiter_append (d := ' ') (by decide) _
    have hboth : TypeExpr.names (left.text ++ " " ++ "&" ++ (" " ++ right.text)) =
        TypeExpr.names (left.text ++ " ") ++ TypeExpr.names (" " ++ right.text) :=
      names_append (d := '&') (by decide) _ _
    rw [hright, hleft, left.names_text, right.names_text, ← hparts] at hboth
    exact hboth

theorem Arguments.names_text (a : Arguments) : TypeExpr.names a.text = a.names := by
  cases a with
  | last argument => exact argument.names_text
  | more argument spaced rest =>
    have hcomma : ∀ b : String, TypeExpr.names (argument.text ++ "," ++ b) =
        TypeExpr.names argument.text ++ TypeExpr.names b :=
      names_append (d := ',') (by decide) argument.text
    have hspace : TypeExpr.names (" " ++ rest.text) = TypeExpr.names rest.text :=
      names_delimiter_append (d := ' ') (by decide) _
    cases spaced with
    | false => rw [Arguments.text, hcomma, argument.names_text, rest.names_text, Arguments.names]
    | true =>
      have hparts :
          argument.text ++ ("," ++ " ") ++ rest.text = argument.text ++ "," ++ (" " ++ rest.text) := by
        simp only [String.append_assoc]
      have hboth := hcomma (" " ++ rest.text)
      rw [hspace, argument.names_text, rest.names_text, ← hparts] at hboth
      exact hboth

end

/-- The names of a written expression are those of the expression, however it is nested; a delimiter between
two texts separates their names; and whatever is found in a text can name a type. -/
theorem names_exact :
    (∀ e : Expr, names e.text = e.names) ∧
    (∀ (a b : String) (d : Char), d ∈ delimiters →
      names (a ++ String.singleton d ++ b) = names a ++ names b) ∧
    ∀ expr : String, ∀ name ∈ names expr, IsName name :=
  ⟨Expr.names_text, fun a b _ hd ↦ names_append hd a b, fun _ _ ↦ isName_of_mem_names⟩

def ledger : Expr :=
  .array (.applied ⟨"java.util.Map", by decide +kernel⟩
    (.more (.plain ⟨"orders.OrderId", by decide +kernel⟩) true
      (.last (.upper (.plain ⟨"orders.Order", by decide +kernel⟩)))))

theorem names_exact_ledger :
    ledger.text = "java.util.Map<orders.OrderId, ? extends orders.Order>[]" ∧
    names ledger.text = ["java.util.Map", "orders.OrderId", "orders.Order"] ∧
    ']' ∈ delimiters ∧
    names ("orders.Order[" ++ String.singleton ']' ++ "& orders.Item") =
      names "orders.Order[" ++ names "& orders.Item" ∧
    "orders.Order" ∈ names ledger.text ∧ IsName "orders.Order" := by
  obtain ⟨hnames, hseparate, hname⟩ := names_exact
  have hledger : names ledger.text = ["java.util.Map", "orders.OrderId", "orders.Order"] := hnames ledger
  have hmem : "orders.Order" ∈ names ledger.text := by
    rw [hledger]
    decide
  exact ⟨by decide +kernel, hledger, by decide, hseparate _ _ ']' (by decide), hmem, hname _ _ hmem⟩

end Modularity.TypeExpr
