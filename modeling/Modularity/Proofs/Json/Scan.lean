import Modularity.Json.Token
import Modularity.Json.Writer

namespace Modularity.Json

theorem digitsValue_append (cs : List Char) (c : Char) :
    digitsValue (cs ++ [c]) = 10 * digitsValue cs + (c.toNat - '0'.toNat) := by
  simp [digitsValue]

theorem digitsValue_toDigits (n : Nat) : digitsValue (Nat.toDigits 10 n) = n := by
  induction n using Nat.strongRecOn with
  | ind n ih =>
    have hvalue : ∀ {d}, d < 10 → d.digitChar.toNat - '0'.toNat = d := fun hd ↦
      Nat.toNat_digitChar_sub_48_of_lt_ten hd
    by_cases hn : n < 10
    · rw [Nat.toDigits_of_lt_base hn]
      simpa [digitsValue] using hvalue hn
    · rw [Nat.toDigits_of_base_le (by decide) (by omega), digitsValue_append, ih (n / 10) (by omega),
        hvalue (Nat.mod_lt _ (by decide))]
      omega

theorem head?_toDigits {n : Nat} (h : 0 < n) : (Nat.toDigits 10 n).head? ≠ some '0' := by
  induction n using Nat.strongRecOn with
  | ind n ih =>
    by_cases hn : n < 10
    · rw [Nat.toDigits_of_lt_base hn]
      simpa using Nat.ne_of_gt h
    · rw [Nat.toDigits_of_base_le (by decide) (by omega), List.head?_append]
      have hrest := ih (n / 10) (by omega) (by omega)
      cases hhead : (Nat.toDigits 10 (n / 10)).head? with
      | none => simp [Nat.toDigits_ne_nil] at hhead
      | some c => simpa [hhead] using hrest

theorem all_isDigit_toDigits (n : Nat) : (Nat.toDigits 10 n).all Char.isDigit := by
  rw [List.all_eq_true]
  exact fun c hc ↦ Nat.isDigit_of_mem_toDigits (by decide) (by decide) hc

theorem isWhole_toDigits (n : Nat) : isWhole (Nat.toDigits 10 n) := by
  by_cases hn : n = 0
  · subst hn
    decide
  · have hhead := head?_toDigits (Nat.pos_of_ne_zero hn)
    have hall := all_isDigit_toDigits n
    unfold isWhole
    split
    · rename_i hnil
      simp [Nat.toDigits_ne_nil] at hnil
    · rename_i hzero
      simp [hzero] at hhead
    · exact hall

theorem ofWord?_toDigits (n : Nat) : ofWord? (Nat.toDigits 10 n) = some (.nat n) := by
  have hall := all_isDigit_toDigits n
  have hno : ∀ {c cs}, ¬ c.isDigit → Nat.toDigits 10 n ≠ c :: cs := fun hc e ↦ by
    rw [e, List.all_cons, Bool.and_eq_true] at hall
    exact hc hall.1
  rw [ofWord?, if_neg (hno (by decide)), if_neg (hno (by decide)), if_neg (hno (by decide)), if_pos,
    digitsValue_toDigits]
  rw [isWhole_toDigits, hall]
  rfl

namespace Scan

theorem run_append (s : Scan) (cs ds : List Char) :
    s.run (cs ++ ds) = (s.run cs).bind fun s' ↦ s'.run ds := by
  induction cs generalizing s with
  | nil => rfl
  | cons c cs ih =>
    rw [List.cons_append, run, run]
    cases s.step c with
    | none => rfl
    | some s' => exact ih s'

def settle (s : Scan) : Option Scan :=
  match s.mode with
  | .between => some s
  | .word reversed => s.endWord reversed
  | _ => none

theorem finish_eq (s : Scan) : s.finish = s.settle.map fun s' ↦ s'.reversed.reverse := by
  obtain ⟨found, mode⟩ := s
  cases mode <;> rfl

theorem mode_of_settle {s s' : Scan} (h : s.settle = some s') : s'.mode = .between := by
  unfold settle at h
  split at h
  · obtain rfl := Option.some.inj h
    assumption
  · obtain ⟨value, -, rfl⟩ := Option.map_eq_some_iff.1 h
    rfl
  · nomatch h

/-- A character that is no part of a word ends the word under way. -/
theorem run_of_settle {s s' : Scan} (h : s.settle = some s') {c : Char} (hc : ¬ isWordChar c)
    (cs : List Char) : s.run (c :: cs) = s'.run (c :: cs) := by
  have hmode := mode_of_settle h
  have hstep : s.step c = s'.step c := by
    have hstep' : s'.step c = some (s'.start c) := by
      rw [step, hmode]
    rw [hstep']
    unfold settle at h
    unfold step
    split at h
    · rename_i hbetween
      obtain rfl := Option.some.inj h
      rw [hbetween]
    · rename_i reversed hword
      simp only [hword, if_neg hc, h, Option.map_some]
    · nomatch h
  rw [run, run, hstep]

end Scan

/-- Between tokens, the characters are read as the tokens and nothing is left under way. -/
def Closes (cs : List Char) (ts : List Token) : Prop :=
  ∀ found, Scan.run ⟨found, .between⟩ cs = some ⟨ts.reverse ++ found, .between⟩

/-- Between tokens, the characters are read as the tokens once a word under way is ended. -/
def Spells (cs : List Char) (ts : List Token) : Prop :=
  ∀ found, ∃ s, Scan.run ⟨found, .between⟩ cs = some s ∧
    s.settle = some ⟨ts.reverse ++ found, .between⟩

variable {cs ds : List Char} {ts us : List Token}

theorem Closes.spells (h : Closes cs ts) : Spells cs ts := fun found ↦ ⟨_, h found, rfl⟩

theorem Closes.nil : Closes [] [] := fun _ ↦ rfl

theorem Closes.append_spells (h : Closes cs ts) (h' : Spells ds us) : Spells (cs ++ ds) (ts ++ us) := by
  intro found
  obtain ⟨s, hrun, hsettle⟩ := h' (ts.reverse ++ found)
  refine ⟨s, ?_, ?_⟩
  · rw [Scan.run_append, h found]
    exact hrun
  · rw [hsettle, List.reverse_append, List.append_assoc]

theorem Closes.append (h : Closes cs ts) (h' : Closes ds us) : Closes (cs ++ ds) (ts ++ us) := by
  intro found
  rw [Scan.run_append, h found, Option.bind_some, h' (ts.reverse ++ found), List.reverse_append,
    List.append_assoc]

/-- After a word may follow whatever starts with punctuation or white space. -/
theorem Spells.append_closes {c : Char} (h : Spells cs ts) (hc : ¬ isWordChar c)
    (h' : Closes (c :: ds) us) : Closes (cs ++ c :: ds) (ts ++ us) := by
  intro found
  obtain ⟨s, hrun, hsettle⟩ := h found
  rw [Scan.run_append, hrun, Option.bind_some, Scan.run_of_settle hsettle hc,
    h' (ts.reverse ++ found), List.reverse_append, List.append_assoc]

theorem Spells.tokens? (h : Spells cs ts) : tokens? cs = some ts := by
  obtain ⟨s, hrun, hsettle⟩ := h []
  have hrun' : Scan.run {} cs = some s := hrun
  rw [Json.tokens?, hrun', Option.bind_some, Scan.finish_eq, hsettle]
  simp

theorem closes_punctuation {c : Char} {t : Token} (hc : punctuation? c = some t)
    (hspace : ¬ isSpace c) (hquote : c ≠ '"') : Closes [c] [t] := by
  intro found
  have hstart : Scan.start ⟨found, .between⟩ c = ⟨t :: found, .between⟩ := by
    rw [Scan.start, if_neg hspace, if_neg hquote, hc]
    rfl
  simp only [Scan.run, Scan.step, hstart]
  rfl

theorem spells_word {value : Json} (hne : cs ≠ []) (hcs : cs.all isWordChar)
    (hvalue : ofWord? cs = some value) : Spells cs [.word value] := by
  intro found
  have hrun : ∀ (ds read : List Char), ds.all isWordChar →
      Scan.run ⟨found, .word read⟩ ds = some ⟨found, .word (ds.reverse ++ read)⟩ := by
    intro ds
    induction ds with
    | nil => exact fun read _ ↦ rfl
    | cons d ds ih =>
      intro read hds
      rw [List.all_cons, Bool.and_eq_true] at hds
      rw [Scan.run, Scan.step]
      simp only [if_pos hds.1]
      rw [ih (d :: read) hds.2, List.reverse_cons, List.append_assoc]
      rfl
  cases cs with
  | nil => exact absurd rfl hne
  | cons c cs =>
    rw [List.all_cons, Bool.and_eq_true] at hcs
    have hplain : isSpace c = false ∧ punctuation? c = none ∧ c ≠ '"' := by
      simpa [isWordChar, and_assoc] using hcs.1
    have hstart : Scan.start ⟨found, .between⟩ c = ⟨found, .word [c]⟩ := by
      simp [Scan.start, hplain]
    refine ⟨⟨found, .word (cs.reverse ++ [c])⟩, ?_, ?_⟩
    · simp only [Scan.run, Scan.step, hstart]
      exact hrun cs [c] hcs.2
    · simp [Scan.settle, Scan.endWord, hvalue, Scan.emit]

theorem isWordChar_of_isDigit {c : Char} (h : c.isDigit) : isWordChar c := by
  have hne : ∀ d : Char, ¬ d.isDigit → c ≠ d := fun d hd e ↦ hd (e ▸ h)
  have hspace : isSpace c = false := by
    simp [isSpace, hne ' ' (by decide), hne '\t' (by decide), hne '\n' (by decide),
      hne '\r' (by decide)]
  have hpunctuation : punctuation? c = none := by
    unfold punctuation?
    split
    all_goals first | rfl | exact absurd h (by decide)
  simp [isWordChar, hspace, hpunctuation, hne '"' (by decide)]

theorem spells_nat (n : Nat) : Spells (Nat.toDigits 10 n) [.word (.nat n)] := by
  refine spells_word Nat.toDigits_ne_nil ?_ (ofWord?_toDigits n)
  rw [List.all_eq_true]
  intro c hc
  exact isWordChar_of_isDigit (List.all_eq_true.1 (all_isDigit_toDigits n) c hc)

def drafted (reversed : List Char) : Draft := ⟨reversed, none, false⟩

theorem hexDigit?_hexDigit (n : Nat) : hexDigit? (hexDigit n) = some (n % 16) := by
  have hall : ∀ d < 16, hexDigit? (Nat.digitChar d) = some d := by decide
  exact hall _ (Nat.mod_lt _ (by decide))

theorem pushUnit_drafted (read : List Char) {c : Char} (h : c.toNat < 0x20) :
    (drafted read).pushUnit c.toNat = drafted (c :: read) := by
  rw [Draft.pushUnit, if_neg (by simp; omega), if_neg (by simp; omega), Char.ofNat_toNat]
  rfl

theorem run_unit (found : List Token) (d : Draft) (x y : Nat) :
    Scan.run ⟨found, .unit d 2 0⟩ [hexDigit x, hexDigit y] =
      some ⟨found, .text (d.pushUnit (16 * (x % 16) + y % 16))⟩ := by
  simp [Scan.run, Scan.step, hexDigit?_hexDigit]

theorem run_escape (found : List Token) (read : List Char) (c : Char) :
    Scan.run ⟨found, .text (drafted read)⟩ (escape c) =
      some ⟨found, .text (drafted (c :: read))⟩ := by
  unfold escape
  by_cases hquote : c = '"'
  · subst hquote
    rfl
  by_cases hslash : c = '\\'
  · subst hslash
    rfl
  rw [if_neg hquote, if_neg hslash]
  iterate 5
    split
    · rename_i h
      subst h
      rfl
  split
  · rename_i hcontrol
    have hvalue : 16 * (c.toNat / 16 % 16) + c.toNat % 16 = c.toNat := by omega
    have hopen : Scan.run ⟨found, .text (drafted read)⟩ ['\\', 'u', '0', '0'] =
        some ⟨found, .unit (drafted read) 2 0⟩ := rfl
    have hsplit : ['\\', 'u', '0', '0', hexDigit (c.toNat / 16), hexDigit c.toNat] =
        ['\\', 'u', '0', '0'] ++ [hexDigit (c.toNat / 16), hexDigit c.toNat] := rfl
    rw [hsplit, Scan.run_append, hopen, Option.bind_some, run_unit, hvalue,
      pushUnit_drafted read hcontrol]
  · rename_i hplain
    simp only [Scan.run, Scan.step, if_neg hquote, if_neg hslash, if_neg hplain]
    rfl

theorem run_flatMap_escape (found : List Token) (cs read : List Char) :
    Scan.run ⟨found, .text (drafted read)⟩ (cs.flatMap escape) =
      some ⟨found, .text (drafted (cs.reverse ++ read))⟩ := by
  induction cs generalizing read with
  | nil => rfl
  | cons c cs ih =>
    rw [List.flatMap_cons, Scan.run_append, run_escape, Option.bind_some, ih, List.reverse_cons,
      List.append_assoc]
    rfl

theorem closes_quote (s : String) : Closes (quote s) [.text s] := by
  intro found
  have hquote : quote s = ['"'] ++ (s.toList.flatMap escape ++ ['"']) := rfl
  have hopen : Scan.run ⟨found, .between⟩ ['"'] = some ⟨found, .text (drafted [])⟩ := rfl
  rw [hquote, Scan.run_append, hopen, Option.bind_some, Scan.run_append, run_flatMap_escape,
    Option.bind_some, List.append_nil]
  have htoken : (drafted s.toList.reverse).token = .text s := by
    simp [drafted, Draft.token]
  simp only [Scan.run, Scan.step, if_true, Scan.emit, htoken]
  rfl

end Modularity.Json
