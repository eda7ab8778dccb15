import Modularity.Glob.Basic
import Modularity.Glob.Written
import Modularity.Ordered.Set

namespace Modularity

/-- The patterns in ascending order, each with its compiled form. -/
structure IgnoreList where
  globs : List (String × Glob)
  compiled : ∀ g ∈ globs, Glob.compile g.1 = .ok g.2
deriving DecidableEq

namespace IgnoreList

inductive Flaw where
  /-- A pattern cannot be read. -/
  | inPattern (pattern : String) (flaw : Glob.Flaw)
  /-- All patterns can be read, but they cannot be compiled together. -/
  | inSet (patterns : List String) (reason : String)
deriving DecidableEq, Inhabited

/-- What the flaw is found in: one pattern, or all of them. -/
def Flaw.subject : Flaw → String
  | .inPattern pattern _ => pattern
  | .inSet patterns _ => String.intercalate ", " patterns

def Flaw.message : Flaw → String
  | .inPattern pattern flaw => "error parsing glob '" ++ pattern ++ "': " ++ flaw.message
  | .inSet _ reason => reason

def none : IgnoreList := ⟨[], by simp⟩

instance : Inhabited IgnoreList := ⟨none⟩

def compileAll : List String → Except (String × Glob.Flaw) (List (String × Glob))
  | [] => .ok []
  | pattern :: rest =>
    match Glob.compile pattern with
    | .error flaw => .error (pattern, flaw)
    | .ok glob =>
      match compileAll rest with
      | .error e => .error e
      | .ok globs => .ok ((pattern, glob) :: globs)

theorem compile_of_mem_compileAll {patterns : List String} {globs : List (String × Glob)}
    (h : compileAll patterns = .ok globs) : ∀ g ∈ globs, Glob.compile g.1 = .ok g.2 := by
  induction patterns generalizing globs with
  | nil =>
    obtain rfl := Except.ok.inj h
    simp
  | cons pattern rest ih =>
    unfold compileAll at h
    split at h
    · simp at h
    · rename_i glob hglob
      split at h
      · simp at h
      · rename_i tail htail
        obtain rfl := Except.ok.inj h
        intro g hg
        rcases List.mem_cons.1 hg with rfl | hg
        · exact hglob
        · exact ih htail g hg

def patterns (l : IgnoreList) : List String := l.globs.map (·.1)

def regexes (l : IgnoreList) (demand : Glob.Demand) : List Regex :=
  ((l.globs.map (·.2)).filter (·.demand = demand)).map (·.regex)

/-- Why a list with a pattern of too many levels is refused. Patterns that ask for an extension come first,
each on its own; other expressions are counted together, except those for the last part of a name, which
are apart and hold no brackets. A pattern that is matched as a text has no levels. -/
def depthRefusal? (l : IgnoreList) : Option String :=
  match (l.regexes .extension).find? Regex.isTooDeep with
  | some r => some ("error parsing glob '" ++ r.text ++ "': error parsing pattern 0")
  | Option.none =>
    ((l.regexes .expression).findIdx? Regex.isTooDeep).map fun place ↦
      "error parsing pattern " ++ toString place

/-- The list of some patterns, or its flaw: the smallest pattern that cannot be read, or else the reason for
which the compiler of expressions refuses the patterns together. It refuses too many levels, and it may
have limits of its own on the size of what it compiles. -/
def ofPatterns (patterns : List String) (refusal? : IgnoreList → Option String := depthRefusal?) :
    Except Flaw IgnoreList :=
  match h : compileAll (OrderedSet.ofList patterns).toList with
  | .error (pattern, flaw) => .error (.inPattern pattern flaw)
  | .ok globs =>
    let l : IgnoreList := ⟨globs, compile_of_mem_compileAll h⟩
    match refusal? l with
    | some reason => .error (.inSet l.patterns reason)
    | Option.none => .ok l

theorem eq_of_patterns {l k : IgnoreList} (h : l.patterns = k.patterns) : l = k := by
  obtain ⟨ls, hl⟩ := l
  obtain ⟨ks, hk⟩ := k
  suffices hglobs : ls = ks by
    subst hglobs
    rfl
  replace h : ls.map (·.1) = ks.map (·.1) := h
  induction ls generalizing ks with
  | nil =>
    rw [List.map_nil, eq_comm, List.map_eq_nil_iff] at h
    exact h.symm
  | cons g ls ih =>
    cases ks with
    | nil => simp at h
    | cons g' ks =>
      obtain ⟨hpattern, hrest⟩ : g.1 = g'.1 ∧ ls.map (·.1) = ks.map (·.1) := List.cons.inj h
      have hg := hl g (List.mem_cons_self ..)
      have hg' := hk g' (List.mem_cons_self ..)
      rw [hpattern, hg'] at hg
      rw [ih (fun x hx ↦ hl x (List.mem_cons_of_mem _ hx)) ks
        (fun x hx ↦ hk x (List.mem_cons_of_mem _ hx)) hrest, Prod.ext hpattern (Except.ok.inj hg).symm]

def isEmpty (l : IgnoreList) : Bool := l.globs.isEmpty

def ignores (l : IgnoreList) (name : String) : Bool := l.globs.any fun g ↦ g.2.fits name

end IgnoreList

end Modularity
