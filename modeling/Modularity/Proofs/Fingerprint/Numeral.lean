import Modularity.Fingerprint.Base62
import Modularity.Fingerprint.Basic
import Mathlib.Data.Nat.Digits.Lemmas

namespace Modularity.Base62

def place (c : Char) : Nat := alphabet.idxOf c

def value (cs : List Char) : Nat := cs.foldl (fun n c ↦ 62 * n + place c) 0

theorem place_digit {n : Nat} (h : n < 62) : place (digit n) = n := by
  have hall : ∀ n < 62, place (digit n) = n := by decide +kernel
  exact hall n h

theorem digit_mem_alphabet {n : Nat} (h : n < 62) : digit n ∈ alphabet := by
  have hall : ∀ n < 62, digit n ∈ alphabet := by decide +kernel
  exact hall n h

theorem value_append_singleton (cs : List Char) (c : Char) :
    value (cs ++ [c]) = 62 * value cs + place c := by
  simp [value]

theorem digits_eq (count n : Nat) (known : List Char) :
    digits count n known = digits count n [] ++ known := by
  induction count generalizing n known with
  | zero => rfl
  | succ count ih => rw [digits, digits, ih, ih _ [_], List.append_assoc, List.singleton_append]

/-- A row of digits keeps a number up to a multiple of the power that it has no room for. -/
theorem value_digits (count n : Nat) : value (digits count n []) = n % 62 ^ count := by
  induction count generalizing n with
  | zero => rw [Nat.pow_zero, Nat.mod_one]; rfl
  | succ count ih =>
    have hdigit : place (digit (n % 62)) = n % 62 := place_digit (Nat.mod_lt _ (by decide))
    rw [digits, digits_eq, value_append_singleton, ih, hdigit, Nat.pow_succ', Nat.mod_mul, Nat.add_comm]

theorem toNat_lt_pow (n : UInt64) : n.toNat < 62 ^ width := by
  have hwidth : UInt64.size ≤ 62 ^ width := by decide
  exact Nat.lt_of_lt_of_le n.toNat_lt_size hwidth

theorem value_encode (n : UInt64) : value (encode n).toList = n.toNat := by
  rw [encode, String.toList_ofList, value_digits]
  exact Nat.mod_eq_of_lt (toNat_lt_pow n)

theorem encode_injective {m n : UInt64} (h : encode m = encode n) : m = n := by
  have hvalue := value_encode m
  rw [h, value_encode] at hvalue
  exact (UInt64.toNat_inj.1 hvalue).symm

theorem digitsAppend_succ (count n : Nat) :
    Nat.digitsAppend 62 (count + 1) n = n % 62 :: Nat.digitsAppend 62 count (n / 62) := by
  rcases Nat.eq_zero_or_pos n with rfl | hpos
  · simp [Nat.digitsAppend, List.replicate_succ]
  · rw [Nat.digitsAppend, Nat.digitsAppend, Nat.digits_def' (by decide) hpos, List.length_cons,
      Nat.add_sub_add_right, List.cons_append]

/-- The digits of a number without leading zeros, padded with zeros and put in the order of writing. -/
theorem digits_eq_digitsAppend {count n : Nat} (h : n < 62 ^ count) :
    digits count n [] = ((Nat.digitsAppend 62 count n).map digit).reverse := by
  induction count generalizing n with
  | zero =>
    obtain rfl : n = 0 := by simpa using h
    rfl
  | succ count ih =>
    have hdiv : n / 62 < 62 ^ count := Nat.div_lt_of_lt_mul (by rwa [← Nat.pow_succ'])
    rw [digits, digits_eq, ih hdiv, digitsAppend_succ, List.map_cons, List.reverse_cons]

/-- The digits of a number, as many as are written, the most significant one first. -/
def row (n : UInt64) : List Nat := (Nat.digitsAppend 62 width n.toNat).reverse

theorem length_row (n : UInt64) : (row n).length = width := by
  rw [row, List.length_reverse, Nat.length_digitsAppend (by decide) width (toNat_lt_pow n)]

theorem lt_of_mem_row {n : UInt64} {d : Nat} (h : d ∈ row n) : d < 62 :=
  Nat.lt_of_mem_digitsAppend (by decide) width d (List.mem_reverse.1 h)

theorem ofDigits_row (n : UInt64) : Nat.ofDigits 62 (row n).reverse = n.toNat := by
  rw [row, List.reverse_reverse]
  exact (Nat.setInvOn_digitsAppend_ofDigits (by decide) width).2 (toNat_lt_pow n)

theorem toList_encode (n : UInt64) : (encode n).toList = (row n).map digit := by
  rw [encode, String.toList_ofList, digits_eq_digitsAppend (toNat_lt_pow n), row, List.map_reverse]

def byte (n : Nat) : UInt8 := (digit n).val.toUInt8

theorem byte_lt_iff {m n : Nat} (hm : m < 62) (hn : n < 62) : byte m < byte n ↔ m < n := by
  have hall : ∀ m < 62, ∀ n < 62, (byte m < byte n ↔ m < n) := by decide +kernel
  exact hall m hm n hn

theorem byte_inj {m n : Nat} (hm : m < 62) (hn : n < 62) : byte m = byte n ↔ m = n := by
  refine ⟨fun h ↦ ?_, congrArg byte⟩
  rcases Nat.lt_trichotomy m n with hlt | heq | hgt
  · exact absurd h (UInt8.ne_of_lt ((byte_lt_iff hm hn).2 hlt))
  · exact heq
  · exact absurd h.symm (UInt8.ne_of_lt ((byte_lt_iff hn hm).2 hgt))

theorem utf8EncodeChar_digit {n : Nat} (h : n < 62) : String.utf8EncodeChar (digit n) = [byte n] := by
  have hall : ∀ n < 62, String.utf8EncodeChar (digit n) = [byte n] := by decide +kernel
  exact hall n h

theorem flatMap_utf8EncodeChar {ds : List Nat} (h : ∀ d ∈ ds, d < 62) :
    (ds.map digit).flatMap String.utf8EncodeChar = ds.map byte := by
  induction ds with
  | nil => rfl
  | cons d ds ih =>
    rw [List.forall_mem_cons] at h
    rw [List.map_cons, List.flatMap_cons, utf8EncodeChar_digit h.1, ih h.2]
    rfl

theorem utf8_encode (n : UInt64) : Fingerprint.utf8 (encode n) = (row n).map byte := by
  rw [Fingerprint.utf8, toList_encode]
  exact flatMap_utf8EncodeChar fun _ ↦ lt_of_mem_row

/-- A first digit decides, whatever follows it. -/
theorem add_mul_lt_add_mul_iff {b m n x y : Nat} (hm : m < b) (hn : n < b) :
    m + b * x < n + b * y ↔ x < y ∨ x = y ∧ m < n := by
  rcases Nat.lt_trichotomy x y with hlt | rfl | hgt
  · have hstep : b * (x + 1) ≤ b * y := Nat.mul_le_mul_left b hlt
    rw [Nat.mul_succ] at hstep
    omega
  · omega
  · have hstep : b * (y + 1) ≤ b * x := Nat.mul_le_mul_left b hgt
    rw [Nat.mul_succ] at hstep
    omega

theorem ofDigits_reverse_lt {ds : List Nat} (h : ∀ d ∈ ds, d < 62) :
    Nat.ofDigits 62 ds.reverse < 62 ^ ds.length := by
  rw [← List.length_reverse]
  exact Nat.ofDigits_lt_base_pow_length (by decide) fun d hd ↦ h d (List.mem_reverse.1 hd)

theorem map_byte_lt_iff {xs ys : List Nat} (hlen : xs.length = ys.length) (hx : ∀ x ∈ xs, x < 62)
    (hy : ∀ y ∈ ys, y < 62) :
    xs.map byte < ys.map byte ↔ Nat.ofDigits 62 xs.reverse < Nat.ofDigits 62 ys.reverse := by
  induction xs generalizing ys with
  | nil =>
    obtain rfl := List.eq_nil_of_length_eq_zero hlen.symm
    simp
  | cons x xs ih =>
    cases ys with
    | nil => simp at hlen
    | cons y ys =>
      rw [List.forall_mem_cons] at hx hy
      have hrest : xs.length = ys.length := Nat.succ.inj hlen
      have hfirst := ofDigits_reverse_lt hx.2
      have hsecond := ofDigits_reverse_lt hy.2
      rw [hrest] at hfirst
      rw [List.map_cons, List.map_cons, List.cons_lt_cons_iff, byte_lt_iff hx.1 hy.1, byte_inj hx.1 hy.1,
        ih hrest hx.2 hy.2, List.reverse_cons, List.reverse_cons, Nat.ofDigits_append, Nat.ofDigits_append,
        Nat.ofDigits_singleton, Nat.ofDigits_singleton, List.length_reverse, List.length_reverse, hrest,
        add_mul_lt_add_mul_iff hfirst hsecond]

theorem utf8_encode_lt_iff {m n : UInt64} :
    Fingerprint.utf8 (encode m) < Fingerprint.utf8 (encode n) ↔ m < n := by
  have hlen : (row m).length = (row n).length := by rw [length_row, length_row]
  rw [utf8_encode, utf8_encode, map_byte_lt_iff hlen (fun _ ↦ lt_of_mem_row) (fun _ ↦ lt_of_mem_row),
    ofDigits_row, ofDigits_row]
  rfl

/-- A number is written as its digits without leading zeros, put behind as many zeros as make eleven
characters of them. The value of what is written is the number, so different numbers are written
differently, and numbers compare like the bytes of what is written. -/
theorem encode_exact :
    (∀ n : UInt64, (encode n).toList =
      ((Nat.digits 62 n.toNat ++ List.replicate (11 - (Nat.digits 62 n.toNat).length) 0).map digit).reverse) ∧
    (∀ n : UInt64, (encode n).length = 11 ∧ ∀ c ∈ (encode n).toList, c ∈ alphabet) ∧
    (∀ n : UInt64, value (encode n).toList = n.toNat) ∧
    Function.Injective encode ∧
    ∀ m n : UInt64, m < n ↔ Fingerprint.utf8 (encode m) < Fingerprint.utf8 (encode n) := by
  refine ⟨fun n ↦ ?_, fun n ↦ ⟨?_, fun c hc ↦ ?_⟩, value_encode, fun _ _ ↦ encode_injective,
    fun _ _ ↦ utf8_encode_lt_iff.symm⟩
  · rw [toList_encode, row, List.map_reverse]
    rfl
  · rw [← String.length_toList, toList_encode, List.length_map, length_row]
    rfl
  · rw [toList_encode, List.mem_map] at hc
    obtain ⟨d, hd, rfl⟩ := hc
    exact digit_mem_alphabet (lt_of_mem_row hd)

/-- The last digit, the first number of two digits, and the greatest number of all. -/
theorem encode_exact_carry :
    encode 61 = "0000000000z" ∧ encode 62 = "00000000010" ∧
    Fingerprint.utf8 (encode 61) < Fingerprint.utf8 (encode 62) ∧
    value "LygHa16AHYF".toList = 18446744073709551615 ∧ '1' ∈ (encode 62).toList ∧ '1' ∈ alphabet := by
  obtain ⟨-, hrow, hvalue, -, horder⟩ := encode_exact
  have hgreatest : encode 18446744073709551615 = "LygHa16AHYF" := by decide +kernel
  have hone : '1' ∈ (encode 62).toList := by decide +kernel
  refine ⟨by decide +kernel, by decide +kernel, (horder 61 62).1 (by decide), ?_, hone, (hrow 62).2 _ hone⟩
  rw [← hgreatest, hvalue]
  rfl

end Modularity.Base62
