import Modularity.Codebase.Basic

namespace Modularity.Namespace

theorem mem_climb {r cs : List Char} :
    cs ∈ climb r ↔ cs = [] ∧ r ≠ [] ∨ cs ≠ [] ∧ ∃ front, r = front ++ '.' :: cs := by
  induction r with
  | nil => simp [climb]
  | cons c t ih =>
    by_cases ht : t = []
    · subst ht
      have hlong : cs ≠ [] → ∀ front, [c] ≠ front ++ '.' :: cs := by
        intro hcs front heq
        have hlen := congrArg List.length heq
        have hpos := List.length_pos_iff.2 hcs
        simp at hlen
        omega
      simp only [climb, if_true, List.mem_singleton]
      constructor
      · exact fun h ↦ .inl ⟨h, by simp⟩
      · intro hx
        rcases hx with h | ⟨hcs, front, heq⟩
        · exact h.1
        · exact absurd heq (hlong hcs front)
    · have hcut : (∃ front, c :: t = front ++ '.' :: cs) ↔
          c = '.' ∧ cs = t ∨ ∃ front, t = front ++ '.' :: cs := by
        constructor
        · intro hy
          obtain ⟨front, heq⟩ := hy
          cases front with
          | nil =>
            obtain ⟨rfl, rfl⟩ := List.cons.inj heq
            exact .inl ⟨rfl, rfl⟩
          | cons d front =>
            obtain ⟨rfl, rfl⟩ := List.cons.inj heq
            exact .inr ⟨front, rfl⟩
        · intro hz
          rcases hz with ⟨rfl, rfl⟩ | ⟨front, rfl⟩
          · exact ⟨[], rfl⟩
          · exact ⟨c :: front, rfl⟩
      unfold climb
      rw [if_neg ht, hcut]
      split
      · rename_i hc
        rw [List.mem_cons, ih]
        grind
      · rename_i hc
        rw [ih]
        grind

/-- What is left of a name after its last dot is cut off has the same ancestors from there on. -/
theorem climb_tail {r p : List Char} {rest : List (List Char)} (h : climb r = p :: rest) :
    rest = climb p := by
  induction r with
  | nil => simp [climb] at h
  | cons c t ih =>
    unfold climb at h
    split at h
    · obtain ⟨rfl, rfl⟩ := List.cons.inj h
      rfl
    · split at h
      · obtain ⟨rfl, rfl⟩ := List.cons.inj h
        rfl
      · exact ih h

theorem isWithin_iff {outer inner : String} :
    isWithin outer inner ↔
      outer = "" ∨ inner = outer ∨ outer.toList ++ ['.'] <+: inner.toList := by
  simp [isWithin, or_assoc]

@[simp] theorem isWithin_refl (n : String) : isWithin n n := isWithin_iff.2 (.inr (.inl rfl))

@[simp] theorem isWithin_empty (n : String) : isWithin "" n := isWithin_iff.2 (.inl rfl)

theorem mem_ancestors {a n : String} :
    a ∈ ancestors n ↔ a.toList.reverse ∈ climb n.toList.reverse := by
  simp only [ancestors, List.mem_map]
  constructor
  · intro hx
    obtain ⟨cs, hcs, rfl⟩ := hx
    simpa using hcs
  · intro h
    exact ⟨_, h, by simp⟩

theorem mem_lineage {a n : String} : a ∈ lineage n ↔ isWithin a n := by
  rw [lineage, List.mem_cons, mem_ancestors, mem_climb, isWithin_iff]
  simp only [List.reverse_eq_nil_iff, String.toList_eq_nil_iff, ne_eq]
  have hcut : (∃ front, n.toList.reverse = front ++ '.' :: a.toList.reverse) ↔
      a.toList ++ ['.'] <+: n.toList := by
    constructor
    · intro hx
      obtain ⟨front, heq⟩ := hx
      refine ⟨front.reverse, ?_⟩
      have hreversed := congrArg List.reverse heq
      simpa using hreversed.symm
    · intro hy
      obtain ⟨back, heq⟩ := hy
      refine ⟨back.reverse, ?_⟩
      rw [← heq]
      simp
  rw [hcut]
  by_cases ha : a = ""
  · subst ha
    by_cases hn : n = "" <;> simp [hn]
  · simp only [ha, false_and, not_false_eq_true, true_and, false_or]
    exact or_congr_left eq_comm

@[simp] theorem lineage_empty : lineage "" = [""] := rfl

theorem lineage_of_parent {n p : String} (h : parent? n = some p) : lineage n = n :: lineage p := by
  obtain ⟨cs, hcs, rfl⟩ := Option.map_eq_some_iff.1 h
  obtain ⟨rest, hrest⟩ := List.head?_eq_some_iff.1 hcs
  have htail := climb_tail hrest
  simp only [lineage, ancestors, String.toList_ofList, List.reverse_reverse]
  rw [hrest, htail, List.map_cons]

theorem parent?_eq_none {n : String} : parent? n = none ↔ n = "" := by
  have hnil : climb n.toList.reverse = [] ↔ n = "" := by
    rw [List.eq_nil_iff_forall_not_mem]
    constructor
    · intro h
      have hnil := h []
      rw [mem_climb] at hnil
      simpa using hnil
    · intro hx
      subst hx
      simp [climb]
  rw [parent?, Option.map_eq_none_iff, List.head?_eq_none_iff, hnil]

/-- With a dot put after every name, containment in a namespace other than the outermost one is the
order of prefixes. -/
theorem isWithin_iff_dotted {outer inner : String} :
    isWithin outer inner ↔
      outer = "" ∨ outer.toList ++ ['.'] <+: inner.toList ++ ['.'] := by
  have hself : inner = outer ↔ outer.toList ++ ['.'] = inner.toList ++ ['.'] := by
    rw [List.append_left_inj, String.toList_inj]
    exact eq_comm
  rw [isWithin_iff, List.prefix_concat_iff, hself]

theorem isWithin_trans {a b c : String} (h : isWithin a b) (h' : isWithin b c) : isWithin a c := by
  rw [isWithin_iff_dotted] at h h' ⊢
  rcases h with rfl | h
  · exact .inl rfl
  · rcases h' with rfl | h'
    · have hlen := h.length_le
      simp only [List.length_append, String.toList_empty, List.length_nil, List.length_cons] at hlen
      exact .inl (String.toList_eq_nil_iff.1 (List.eq_nil_of_length_eq_zero (by omega)))
    · exact .inr (h.trans h')

theorem isWithin_empty_iff {a : String} : isWithin a "" ↔ a = "" := by
  rw [isWithin_iff]
  constructor
  · intro hx
    rcases hx with h | h | h
    · exact h
    · exact h.symm
    · simp at h
  · exact .inl

theorem isWithin_antisymm {a b : String} (h : isWithin a b) (h' : isWithin b a) : a = b := by
  rw [isWithin_iff_dotted] at h h'
  rcases h with rfl | h
  · exact (isWithin_empty_iff.1 (isWithin_iff_dotted.2 h')).symm
  · rcases h' with rfl | h'
    · exact isWithin_empty_iff.1 (isWithin_iff_dotted.2 (.inr h))
    · have heq := h.eq_of_length (Nat.le_antisymm h.length_le h'.length_le)
      exact String.toList_inj.1 (List.append_left_inj ['.'] |>.1 heq)

theorem isWithin_or_of_common {a b c : String} (ha : isWithin a c) (hb : isWithin b c) :
    isWithin a b ∨ isWithin b a := by
  rw [isWithin_iff_dotted] at ha hb
  rcases ha with rfl | ha
  · exact .inl (isWithin_empty b)
  · rcases hb with rfl | hb
    · exact .inr (isWithin_empty a)
    · rcases Nat.le_total (a.toList ++ ['.']).length (b.toList ++ ['.']).length with h | h
      · exact .inl (isWithin_iff_dotted.2 (.inr (List.prefix_of_prefix_length_le ha hb h)))
      · exact .inr (isWithin_iff_dotted.2 (.inr (List.prefix_of_prefix_length_le hb ha h)))

theorem isWithin_iff_of_parent {a n p : String} (h : parent? n = some p) :
    isWithin a n ↔ a = n ∨ isWithin a p := by
  rw [← mem_lineage, lineage_of_parent h, List.mem_cons, mem_lineage]

theorem isWithin_of_parent {n p : String} (h : parent? n = some p) : isWithin p n :=
  (isWithin_iff_of_parent h).2 (.inr (isWithin_refl p))

theorem parent_length_lt {n p : String} (h : parent? n = some p) :
    p.toList.length < n.toList.length := by
  obtain ⟨cs, hcs, rfl⟩ := Option.map_eq_some_iff.1 h
  have hmem := mem_climb.1 (List.mem_of_head? hcs)
  rcases hmem with ⟨rfl, hn⟩ | ⟨-, front, hfront⟩
  · have hpos := List.length_pos_iff.2 hn
    simpa using hpos
  · have hlen := congrArg List.length hfront
    simp at hlen ⊢
    omega

/-- Every name is led to the empty one by its parents. -/
theorem parent_induction {motive : String → Prop} (root : motive "")
    (step : ∀ n p, parent? n = some p → motive p → motive n) (n : String) : motive n := by
  induction hk : n.toList.length using Nat.strongRecOn generalizing n with
  | ind k ih =>
    cases hp : parent? n with
    | none => exact parent?_eq_none.1 hp ▸ root
    | some p => exact step n p hp (ih _ (hk ▸ parent_length_lt hp) p rfl)

theorem not_isWithin_parent {n p : String} (h : parent? n = some p) : ¬ isWithin n p := by
  intro hn
  have heq := isWithin_antisymm hn (isWithin_of_parent h)
  have hlen := parent_length_lt h
  rw [heq] at hlen
  omega

theorem exists_child {r n : String} (h : isWithin r n) (hne : r ≠ n) :
    ∃ s, parent? s = some r ∧ isWithin s n := by
  induction n using parent_induction with
  | root => exact absurd (isWithin_empty_iff.1 h) hne
  | step n p hp ih =>
    rcases (isWithin_iff_of_parent hp).1 h with heq | h'
    · exact absurd heq hne
    · by_cases heq : r = p
      · exact ⟨n, heq ▸ hp, isWithin_refl n⟩
      · obtain ⟨s, hs, hw⟩ := ih h' heq
        exact ⟨s, hs, isWithin_trans hw (isWithin_of_parent hp)⟩

theorem startsWith_iff {name start : String} :
    startsWith name start ↔ start.toList <+: name.toList := by
  simp [startsWith]

theorem startsWith_of_isWithin {outer inner : String} (h : isWithin outer inner) :
    startsWith inner outer := by
  rw [startsWith_iff]
  rcases isWithin_iff.1 h with rfl | rfl | h
  · exact List.nil_prefix
  · exact List.prefix_rfl
  · exact (List.prefix_append _ _).trans h

theorem prefix_of_between {start name later : List Char} (h : ¬ name < start) (h' : ¬ later < name)
    (hs : start <+: later) : start <+: name := by
  induction start generalizing name later with
  | nil => exact List.nil_prefix
  | cons c cs ih =>
    obtain ⟨rest, rfl⟩ := hs
    cases name with
    | nil => exact absurd (List.nil_lt_cons c cs) h
    | cons d ds =>
      simp only [List.cons_append, List.cons_lt_cons_iff, not_or, not_and] at h h'
      obtain rfl : d = c := Char.le_antisymm (Char.not_lt.1 h'.1) (Char.not_lt.1 h.1)
      have hrest := ih (h.2 rfl) (h'.2 rfl) (List.prefix_append cs rest)
      exact List.cons_prefix_cons.2 ⟨rfl, hrest⟩

/-- The names that start with given characters follow one another: what stands between the characters
and such a name is such a name, too. -/
theorem startsWith_of_between {start name later : String} (h : ¬ name < start)
    (h' : ¬ later < name) (hs : startsWith later start) : startsWith name start :=
  startsWith_iff.2 (prefix_of_between h h' (startsWith_iff.1 hs))

theorem not_lt_of_startsWith {start name : String} (h : startsWith name start) : ¬ name < start :=
  List.IsPrefix.le (startsWith_iff.1 h)

end Modularity.Namespace
