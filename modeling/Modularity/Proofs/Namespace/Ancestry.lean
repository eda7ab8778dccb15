import Modularity.Proofs.Fingerprint.Bytes
import Modularity.Proofs.Namespace.Order

namespace Modularity.Namespace

variable {a n p : String}

def up : Nat → String → Option String
  | 0, name => some name
  | steps + 1, name => (parent? name).bind (up steps)

/-- A name that is read from its end has its nearest ancestor behind the first dot, or else in nothing. -/
theorem head?_climb {r cs : List Char} :
    (climb r).head? = some cs ↔
      r ≠ [] ∧ (cs = [] ∧ '.' ∉ r ∨ ∃ front, '.' ∉ front ∧ r = front ++ '.' :: cs) := by
  induction r with
  | nil => simp [climb]
  | cons c t ih =>
    have hfirst : (∃ front, '.' ∉ front ∧ c :: t = front ++ '.' :: cs) ↔
        c = '.' ∧ t = cs ∨ c ≠ '.' ∧ ∃ front, '.' ∉ front ∧ t = front ++ '.' :: cs := by
      constructor
      · intro hx
        obtain ⟨front, hfront, hcut⟩ := hx
        cases front with
        | nil => exact .inl (List.cons.inj hcut)
        | cons d front =>
          rw [List.mem_cons, not_or] at hfront
          obtain ⟨rfl, ht⟩ := List.cons.inj hcut
          exact .inr ⟨Ne.symm hfront.1, front, hfront.2, ht⟩
      · intro hy
        rcases hy with ⟨rfl, rfl⟩ | ⟨hc, front, hfront, rfl⟩
        · exact ⟨[], List.not_mem_nil, rfl⟩
        · exact ⟨c :: front, by simp [hfront, Ne.symm hc], rfl⟩
    unfold climb
    rw [hfirst]
    by_cases ht : t = []
    · subst ht
      by_cases hc : c = '.' <;> simp [hc, eq_comm]
    · by_cases hc : c = '.'
      · simp [ht, hc, eq_comm]
      · simp [ht, hc, ih, eq_comm]

theorem parent?_eq_some_iff :
    parent? n = some p ↔
      n ≠ "" ∧ (p = "" ∧ '.' ∉ n.toList ∨ ∃ last : String, '.' ∉ last.toList ∧ n = p ++ "." ++ last) := by
  have hhead : parent? n = some p ↔ (climb n.toList.reverse).head? = some p.toList.reverse := by
    rw [parent?, Option.map_eq_some_iff]
    constructor
    · intro hx
      obtain ⟨cs, hcs, rfl⟩ := hx
      rw [hcs, String.toList_ofList, List.reverse_reverse]
    · exact fun hcs ↦ ⟨_, hcs, by rw [List.reverse_reverse, String.ofList_toList]⟩
  have hlast : (∃ front, '.' ∉ front ∧ n.toList.reverse = front ++ '.' :: p.toList.reverse) ↔
      ∃ last : String, '.' ∉ last.toList ∧ n = p ++ "." ++ last := by
    have hdot : ".".toList = ['.'] := rfl
    constructor
    · intro hx
      obtain ⟨front, hfront, hcut⟩ := hx
      refine ⟨String.ofList front.reverse, by simpa using hfront, String.toList_inj.1 ?_⟩
      have hreversed := congrArg List.reverse hcut
      simpa [hdot] using hreversed
    · intro hy
      obtain ⟨last, hlast, rfl⟩ := hy
      exact ⟨last.toList.reverse, by simpa using hlast, by simp [hdot]⟩
  rw [hhead, head?_climb, hlast]
  simp

theorem isWithin_iff_bytes {outer inner : String} :
    isWithin outer inner ↔
      outer = "" ∨ inner = outer ∨ Fingerprint.utf8 (outer ++ ".") <+: Fingerprint.utf8 inner := by
  rw [isWithin_iff, Fingerprint.utf8_prefix_iff, String.toList_append]
  rfl

theorem up_eq_getElem? (steps : Nat) (n : String) : up steps n = (lineage n)[steps]? := by
  induction steps generalizing n with
  | zero => rfl
  | succ steps ih =>
    cases hp : parent? n with
    | none =>
      obtain rfl := parent?_eq_none.1 hp
      rw [up, hp, lineage_empty]
      rfl
    | some p => rw [lineage_of_parent hp, up, hp, Option.bind_some, ih, List.getElem?_cons_succ]

theorem getLast?_lineage (n : String) : (lineage n).getLast? = some "" := by
  induction n using parent_induction with
  | root => rw [lineage_empty, List.getLast?_singleton]
  | step n p hp ih => rw [lineage_of_parent hp, List.getLast?_cons, ih, Option.getD_some]

theorem exists_up (n : String) : ∃ last, up last n = some "" ∧ ∀ steps, up steps n = none ↔ last < steps := by
  have hlast := getLast?_lineage n
  rw [List.getLast?_eq_getElem?, ← up_eq_getElem?] at hlast
  refine ⟨_, hlast, fun steps ↦ ?_⟩
  rw [up_eq_getElem?, List.getElem?_eq_none_iff, lineage, List.length_cons, Nat.add_sub_cancel,
    Nat.succ_le_iff]

theorem isWithin_iff_up : isWithin a n ↔ ∃ steps, up steps n = some a := by
  simp only [← mem_lineage, List.mem_iff_getElem?, up_eq_getElem?]

/-- That one namespace contains another is seen at the bytes of their names, where a dot follows the outer
one. A name has as its parent what stands before its last dot. The climb from a name through parents meets
exactly the namespaces that contain it, and ends at the empty one. Containment is an order, in which the
namespaces that contain a third one are comparable. -/
theorem containment_exact :
    (∀ a n, isWithin a n ↔
      a = "" ∨ n = a ∨ Fingerprint.utf8 (a ++ ".") <+: Fingerprint.utf8 n) ∧
    (∀ n p, parent? n = some p ↔
      n ≠ "" ∧ (p = "" ∧ '.' ∉ n.toList ∨ ∃ last : String, '.' ∉ last.toList ∧ n = p ++ "." ++ last)) ∧
    (∀ a n, isWithin a n ↔ ∃ steps, up steps n = some a) ∧
    (∀ n, ∃ last, up last n = some "" ∧ ∀ steps, up steps n = none ↔ last < steps) ∧
    (∀ a, isWithin a a) ∧
    (∀ a b, isWithin a b → isWithin b a → a = b) ∧
    (∀ a b c, isWithin a b → isWithin b c → isWithin a c) ∧
    ∀ a b c, isWithin a c → isWithin b c → isWithin a b ∨ isWithin b a :=
  ⟨fun _ _ ↦ isWithin_iff_bytes, fun _ _ ↦ parent?_eq_some_iff, fun _ _ ↦ isWithin_iff_up, exists_up,
    isWithin_refl, fun _ _ ↦ isWithin_antisymm, fun _ _ _ ↦ isWithin_trans,
    fun _ _ _ ↦ isWithin_or_of_common⟩

/-- A name with an empty segment: the segment has a namespace of its own, whose name ends with a dot. -/
theorem containment_exact_doubled :
    isWithin "café" "café." ∧ isWithin "café." "café..tea" ∧ isWithin "café" "café..tea" ∧
    (isWithin "café" "café." ∨ isWithin "café." "café") ∧
    parent? "café..tea" = some "café." ∧ (∃ steps, up steps "café..tea" = some "café") ∧
    isWithin (child "café" "") "café." ∧ isWithin "café." (child "café" "") ∧ child "café" "" = "café." := by
  obtain ⟨-, hparent, hclimb, -, -, hantisymm, htrans, hcommon⟩ := containment_exact
  have hinner : isWithin "café" "café." := by decide +kernel
  have houter : isWithin "café." "café..tea" := by decide +kernel
  have hall := htrans _ _ _ hinner houter
  have hcut : parent? "café..tea" = some "café." :=
    (hparent _ _).2 ⟨by decide +kernel, .inr ⟨"tea", by decide +kernel, by decide +kernel⟩⟩
  have hdown : isWithin (child "café" "") "café." := by decide +kernel
  have hup : isWithin "café." (child "café" "") := by decide +kernel
  exact ⟨hinner, houter, hall, hcommon _ _ _ hall houter, hcut, (hclimb _ _).1 hall, hdown, hup,
    hantisymm _ _ hdown hup⟩

end Modularity.Namespace
