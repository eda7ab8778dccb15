import Modularity.Fingerprint.Basic

namespace Modularity.Fingerprint

theorem zero_notMem_utf8EncodeChar {c : Char} (hc : c ≠ '\x00') :
    (0 : UInt8) ∉ String.utf8EncodeChar c := by
  have hpos : c.val.toNat ≠ 0 := fun hzero ↦ hc (Char.ext (UInt32.toNat_inj.1 hzero))
  have hbyte : ∀ n : Nat, n % 256 ≠ 0 → (0 : UInt8) ≠ UInt8.ofNat n := by
    intro n hn h
    have hzero := congrArg UInt8.toNat h
    rw [UInt8.toNat_ofNat'] at hzero
    exact hn hzero.symm
  unfold String.utf8EncodeChar
  dsimp only
  split
  · rw [List.mem_singleton]
    exact hbyte _ (by omega)
  · split
    · simp only [List.mem_cons, List.not_mem_nil, or_false, not_or]
      exact ⟨hbyte _ (by omega), hbyte _ (by omega)⟩
    · split
      · simp only [List.mem_cons, List.not_mem_nil, or_false, not_or]
        exact ⟨hbyte _ (by omega), hbyte _ (by omega), hbyte _ (by omega)⟩
      · simp only [List.mem_cons, List.not_mem_nil, or_false, not_or]
        exact ⟨hbyte _ (by omega), hbyte _ (by omega), hbyte _ (by omega), hbyte _ (by omega)⟩

theorem zero_notMem_utf8 {s : String} (hs : '\x00' ∉ s.toList) : (0 : UInt8) ∉ utf8 s := by
  rw [utf8, List.mem_flatMap]
  intro hx
  obtain ⟨c, hc, hzero⟩ := hx
  exact zero_notMem_utf8EncodeChar (fun h ↦ hs (h ▸ hc)) hzero

theorem eq_of_utf8 {s t : String} (h : utf8 s = utf8 t) : s = t := by
  rw [← String.toByteArray_inj, ← String.utf8Encode_toList, ← String.utf8Encode_toList]
  exact congrArg List.toByteArray h

/-- The bytes of a character tell it from whatever follows. -/
theorem utf8EncodeChar_append_inj {c d : Char} {xs ys : List UInt8}
    (h : String.utf8EncodeChar c ++ xs = String.utf8EncodeChar d ++ ys) : c = d ∧ xs = ys := by
  have hdecode : ∀ (c : Char) (xs : List UInt8),
      ByteArray.utf8DecodeChar? (String.utf8EncodeChar c ++ xs).toByteArray 0 = some c := fun c xs ↦ by
    rw [List.toByteArray_append]
    exact ByteArray.utf8DecodeChar?_utf8EncodeChar_append
  have hcd : c = d := Option.some.inj ((hdecode c xs).symm.trans (h ▸ hdecode d ys))
  subst hcd
  exact ⟨rfl, List.append_cancel_left h⟩

theorem utf8_prefix_iff {s t : String} : utf8 s <+: utf8 t ↔ s.toList <+: t.toList := by
  have hchars : ∀ xs ys : List Char,
      xs.flatMap String.utf8EncodeChar <+: ys.flatMap String.utf8EncodeChar ↔ xs <+: ys := by
    intro xs ys
    induction xs generalizing ys with
    | nil => simp
    | cons x xs ih =>
      cases ys with
      | nil => simp
      | cons y ys =>
        rw [List.flatMap_cons, List.flatMap_cons, List.cons_prefix_cons, ← ih]
        constructor
        · intro hx
          obtain ⟨rest, hrest⟩ := hx
          rw [List.append_assoc] at hrest
          obtain ⟨rfl, hys⟩ := utf8EncodeChar_append_inj hrest
          exact ⟨rfl, rest, hys⟩
        · intro hy
          obtain ⟨rfl, rest, hrest⟩ := hy
          exact ⟨rest, by rw [List.append_assoc, hrest]⟩
  exact hchars s.toList t.toList

theorem append_cons_inj {α : Type} {separator : α} {xs ys us vs : List α} (hx : separator ∉ xs)
    (hy : separator ∉ ys) (h : xs ++ separator :: us = ys ++ separator :: vs) :
    xs = ys ∧ us = vs := by
  induction xs generalizing ys with
  | nil =>
    cases ys with
    | nil => exact ⟨rfl, (List.cons.inj h).2⟩
    | cons y ys => exact absurd ((List.cons.inj h).1 ▸ List.mem_cons_self ..) hy
  | cons x xs ih =>
    cases ys with
    | nil => exact absurd ((List.cons.inj h).1 ▸ List.mem_cons_self ..) hx
    | cons y ys =>
      rw [List.mem_cons, not_or] at hx hy
      obtain ⟨rfl, hrest⟩ := List.cons.inj h
      obtain ⟨rfl, hus⟩ := ih hx.2 hy.2 hrest
      exact ⟨rfl, hus⟩

theorem eq_of_bytes {xs ys : List String} (hx : ∀ s ∈ xs, '\x00' ∉ s.toList)
    (hy : ∀ s ∈ ys, '\x00' ∉ s.toList) (h : bytes xs = bytes ys) : xs = ys := by
  have hcons : ∀ (s : String) (ss : List String),
      bytes (s :: ss) = utf8 s ++ 0 :: bytes ss := fun s ss ↦ by
    rw [bytes, List.flatMap_cons, List.append_assoc]
    rfl
  induction xs generalizing ys with
  | nil =>
    cases ys with
    | nil => rfl
    | cons y ys =>
      rw [hcons] at h
      simp [bytes] at h
  | cons x xs ih =>
    cases ys with
    | nil =>
      rw [hcons] at h
      simp [bytes] at h
    | cons y ys =>
      rw [List.forall_mem_cons] at hx hy
      rw [hcons, hcons] at h
      obtain ⟨hxy, hrest⟩ := append_cons_inj (zero_notMem_utf8 hx.1) (zero_notMem_utf8 hy.1) h
      rw [eq_of_utf8 hxy, ih hx.2 hy.2 hrest]

end Modularity.Fingerprint
