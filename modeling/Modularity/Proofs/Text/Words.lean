import Modularity.Text.Blank
import Modularity.Text.Pieces
import Mathlib.Data.List.DropRight

namespace Modularity.Text

theorem trimBlank_eq (cs : List Char) : trimBlank cs = (dropBlank cs).rdropWhile isBlank := rfl

/-- What is left between blanks starts with no blank. -/
theorem dropBlank_rdropWhile {cs : List Char} (h : dropBlank cs = cs) :
    dropBlank (cs.rdropWhile isBlank) = cs.rdropWhile isBlank := by
  rw [dropBlank, List.dropWhile_eq_self_iff] at h ⊢
  intro hpos hblank
  have hstart := List.rdropWhile_prefix isBlank (l := cs)
  have hlt : 0 < cs.length := hpos.trans_le hstart.length_le
  rw [hstart.getElem hpos] at hblank
  exact h hlt hblank

theorem trimBlank_trimBlank (cs : List Char) : trimBlank (trimBlank cs) = trimBlank cs := by
  have hstart : dropBlank (dropBlank cs) = dropBlank cs := List.dropWhile_idempotent isBlank cs
  have hkept : dropBlank (trimBlank cs) = trimBlank cs := dropBlank_rdropWhile hstart
  rw [trimBlank_eq (trimBlank cs), hkept, trimBlank_eq]
  exact List.rdropWhile_idempotent isBlank _

theorem trim_trim (s : String) : trim (trim s) = trim s := by
  rw [trim, trim, String.toList_ofList, trimBlank_trimBlank]

theorem trimBlank_subset (cs : List Char) : trimBlank cs ⊆ cs :=
  List.Subset.trans (List.rdropWhile_prefix isBlank _).subset (List.dropWhile_suffix isBlank).subset

theorem trimBlank_eq_self_iff {cs : List Char} :
    trimBlank cs = cs ↔ cs.head?.all (!isBlank ·) ∧ cs.getLast?.all (!isBlank ·) := by
  have hfirst : dropBlank cs = cs ↔ cs.head?.all (!isBlank ·) := by
    cases cs <;> simp [dropBlank, List.dropWhile_eq_self_iff]
  have hlast : cs.rdropWhile isBlank = cs ↔ cs.getLast?.all (!isBlank ·) := by
    rw [List.rdropWhile_eq_self_iff]
    cases cs <;> simp [List.getLast?_eq_some_getLast]
  rw [← hfirst, ← hlast, trimBlank_eq]
  constructor
  · intro h
    have hsuffix := List.dropWhile_suffix isBlank (l := cs)
    have hlen := (List.rdropWhile_prefix isBlank (dropBlank cs)).length_le
    rw [h] at hlen
    have hkept : dropBlank cs = cs := hsuffix.eq_of_length (Nat.le_antisymm hsuffix.length_le hlen)
    rw [hkept] at h
    exact ⟨hkept, h⟩
  · intro h
    rw [h.1, h.2]

theorem pieces_eq_splitOnP (p : Char → Bool) (cs : List Char) : pieces p cs = cs.splitOnP p := by
  induction cs with
  | nil => rfl
  | cons c cs ih =>
    rw [List.splitOnP_cons_eq_if_modifyHead, pieces, ih]
    obtain ⟨first, rest, hsplit⟩ := List.exists_cons_of_ne_nil (List.splitOnP_ne_nil p cs)
    rw [hsplit]
    cases p c <;> rfl

theorem not_of_mem_pieces {p : Char → Bool} {cs piece : List Char} {c : Char} (hpiece : piece ∈ pieces p cs)
    (hc : c ∈ piece) : p c = false := by
  induction cs generalizing piece with
  | nil =>
    rw [pieces, List.mem_singleton] at hpiece
    exact absurd (hpiece ▸ hc) List.not_mem_nil
  | cons d cs ih =>
    obtain ⟨first, rest, hsplit⟩ :=
      List.exists_cons_of_ne_nil (pieces_eq_splitOnP p cs ▸ List.splitOnP_ne_nil p cs)
    rw [hsplit] at ih
    rw [pieces, hsplit] at hpiece
    cases hd : p d with
    | true =>
      rw [hd, List.mem_cons] at hpiece
      rcases hpiece with rfl | hpiece
      · exact absurd hc List.not_mem_nil
      · exact ih hpiece hc
    | false =>
      rw [hd, List.mem_cons] at hpiece
      rcases hpiece with rfl | hpiece
      · rcases List.mem_cons.1 hc with rfl | hc
        · exact hd
        · exact ih (List.mem_cons_self ..) hc
      · exact ih (List.mem_cons_of_mem _ hpiece) hc

end Modularity.Text
