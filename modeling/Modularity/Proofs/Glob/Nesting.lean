import Modularity.Glob.IgnoreList

namespace Modularity.Glob

def braced : Nat → List Char
  | 0 => ['a']
  | pairs + 1 => '\x7b' :: (braced pairs ++ ['\x7d'])

def bracedToken : Nat → Token
  | 0 => .literal 'a'
  | pairs + 1 => .branches [[bracedToken pairs]]

def bracedRegex : Nat → Regex
  | 0 => .literal 97
  | pairs + 1 => .group (bracedRegex pairs)

namespace Scan

theorem run_cons {s t : Scan} {c : Char} (h : s.read c = .ok t) (cs : List Char) :
    s.run (c :: cs) = run { t with before := some c } cs := by
  rw [run, step, h]
  rfl

theorem read_of_plain {s : Scan} (h : s.mode = .plain) (c : Char) : s.read c = s.plain c := by
  rw [read, h]

end Scan

/-- Braces are read as one token, wherever they stand. -/
theorem run_braced {s : Scan} (hs : s.mode = .plain) (pairs : Nat) (rest : List Char) :
    ∃ before, s.run (braced pairs ++ rest) =
      Scan.run { s with current := bracedToken pairs :: s.current, before } rest := by
  induction pairs generalizing s rest with
  | zero =>
    have hletter : s.read 'a' = .ok (s.push (.literal 'a')) := Scan.read_of_plain hs 'a'
    refine ⟨some 'a', ?_⟩
    rw [braced, List.singleton_append, Scan.run_cons hletter, Scan.push, hs]
    rfl
  | succ pairs ih =>
    have hopen : s.read '\x7b' = .ok s.openBrace := Scan.read_of_plain hs '\x7b'
    obtain ⟨before, hinner⟩ := @ih { s.openBrace with before := some '\x7b' } rfl ('\x7d' :: rest)
    refine ⟨some '\x7d', ?_⟩
    have hclose : Scan.read { s.openBrace with current := [bracedToken pairs], before } '\x7d' =
        .ok { s with current := bracedToken (pairs + 1) :: s.current, before } := by
      have hcount : s.waiting.length + 1 - s.waiting.length = 1 := Nat.add_sub_cancel_left ..
      rw [Scan.read_of_plain rfl]
      simp [Scan.plain, Scan.closeBrace, Scan.openBrace, Scan.branch, hcount, hs, bracedToken]
    rw [braced, List.cons_append, Scan.run_cons hopen, List.append_assoc, List.singleton_append, hinner]
    exact Scan.run_cons hclose rest

theorem parse_braced (pairs : Nat) : parse (String.ofList (braced pairs)) = .ok [bracedToken pairs] := by
  obtain ⟨before, hrun⟩ := run_braced (s := {}) rfl pairs []
  rw [parse, String.toList_ofList, ← List.append_nil (braced pairs), hrun]
  rfl

theorem regex?_bracedToken (pairs : Nat) : (bracedToken pairs).regex? = some (bracedRegex pairs) := by
  induction pairs with
  | zero => rfl
  | succ pairs ih => simp [bracedToken, Token.regex?, optionRegexes, rowRegex?, ih, Regex.choice, bracedRegex]

theorem depth_bracedRegex (pairs : Nat) : (bracedRegex pairs).depth .whole = pairs := by
  induction pairs with
  | zero => rfl
  | succ pairs ih => rw [bracedRegex, Regex.depth, ih]

theorem compile_braced (pairs : Nat) :
    compile (String.ofList (braced (pairs + 1))) = .ok ⟨bracedRegex (pairs + 1), .expression⟩ := by
  have hregex : regexOf [bracedToken (pairs + 1)] = bracedRegex (pairs + 1) := by
    have hrow : rowRegex? [bracedToken (pairs + 1)] = some (bracedRegex (pairs + 1)) := by
      simp [rowRegex?, regex?_bracedToken]
    have hne : [bracedToken (pairs + 1)] ≠ [.leading] := nofun
    rw [regexOf, hrow, Option.getD_some]
    exact hne
  have hdemand : demandOf [bracedToken (pairs + 1)] = .expression := rfl
  rw [compile, parse_braced]
  show Except.ok (Glob.mk _ _) = _
  rw [hregex, hdemand]

theorem letter_lt_braced (pairs : Nat) : "a" < String.ofList (braced (pairs + 1)) := by
  have hfirst : 'a' < '\x7b' := by decide
  rw [String.lt_iff, String.toList_ofList, String.toList_ofList]
  exact .rel hfirst

end Modularity.Glob
