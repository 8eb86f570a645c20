import Mathlib.Data.Nat.Bitwise
import Mathlib.Data.List.Basic

namespace BitPack

/-- Bit `i` of a byte, counted from the most significant one. -/
def bitOf (b : UInt8) (i : Nat) : Bool :=
  (b.toNat &&& (1 <<< (7 - i))) != 0

/-- The byte with bit `i`, counted from the most significant one, set. -/
def setBitOf (b : UInt8) (i : Nat) : UInt8 :=
  UInt8.ofNat (b.toNat ||| (1 <<< (7 - i)))

theorem bitOf_eq_testBit (b : UInt8) (i : Nat) : bitOf b i = b.toNat.testBit (7 - i) := by
  rw [bitOf, Nat.one_shiftLeft, Nat.and_two_pow]
  cases b.toNat.testBit (7 - i) <;> simp

theorem bitOf_setBitOf (b : UInt8) {i j : Nat} (hi : i < 8) (hj : j < 8) :
    bitOf (setBitOf b i) j = (decide (i = j) || bitOf b j) := by
  have hbound : b.toNat ||| (1 <<< (7 - i)) < 2 ^ 8 := by
    apply Nat.or_lt_two_pow b.toNat_lt
    rw [Nat.one_shiftLeft]
    exact Nat.pow_lt_pow_right (by omega) (by omega)
  rw [bitOf_eq_testBit, bitOf_eq_testBit, setBitOf, UInt8.toNat_ofNat_of_lt' hbound,
    Nat.testBit_or, Nat.one_shiftLeft, Nat.testBit_two_pow, Bool.or_comm]
  congr 1
  simp only [decide_eq_decide]
  omega

theorem bitOf_zero (i : Nat) : bitOf 0 i = false := by
  simp [bitOf]

/-- Bit `p` of a byte string; positions past the end read as zero. -/
def bit (bytes : List UInt8) (p : Nat) : Bool :=
  bitOf (bytes.getD (p / 8) 0) (p % 8)

/-- All bits of a byte string in order. -/
def bits (bytes : List UInt8) : List Bool :=
  (List.range (8 * bytes.length)).map (bit bytes)

@[simp] theorem length_bits (bytes : List UInt8) : (bits bytes).length = 8 * bytes.length := by
  simp [bits]

theorem getElem?_bits {bytes : List UInt8} {p : Nat} (hp : p < 8 * bytes.length) :
    (bits bytes)[p]? = some (bit bytes p) := by
  simp [bits, hp]

theorem bit_append_left {front : List UInt8} (back : List UInt8) {p : Nat}
    (hp : p < 8 * front.length) : bit (front ++ back) p = bit front p := by
  rw [bit, bit, List.getD_append _ _ _ _ (by omega)]

theorem bit_append_right (front back : List UInt8) (p : Nat) :
    bit (front ++ back) (8 * front.length + p) = bit back p := by
  have hdiv : (8 * front.length + p) / 8 = front.length + p / 8 := by omega
  have hmod : (8 * front.length + p) % 8 = p % 8 := by omega
  rw [bit, bit, hdiv, hmod, List.getD_append_right _ _ _ _ (by omega)]
  simp

theorem bit_of_length_le {bytes : List UInt8} {p : Nat} (hp : 8 * bytes.length ≤ p) :
    bit bytes p = false := by
  rw [bit, List.getD_eq_default _ _ (by omega), bitOf_zero]

/-- Padding with zero bytes changes no bit. -/
theorem bit_append_zeros (bytes : List UInt8) (n p : Nat) :
    bit (bytes ++ List.replicate n 0) p = bit bytes p := by
  by_cases hp : p < 8 * bytes.length
  · exact bit_append_left _ hp
  · obtain ⟨q, rfl⟩ := Nat.exists_eq_add_of_le (not_lt.mp hp)
    have hbeyond : 8 * bytes.length ≤ 8 * bytes.length + q := by omega
    rw [bit_append_right, bit_of_length_le hbeyond, bit]
    by_cases hq : q / 8 < n
    · rw [List.getD_eq_getElem _ _ (by simpa using hq), List.getElem_replicate, bitOf_zero]
    · rw [List.getD_eq_default _ _ (by simpa using hq), bitOf_zero]

/-- Setting bit `p` inside its byte sets exactly bit `p` of the string. -/
theorem bit_modify_setBitOf {bytes : List UInt8} {p : Nat} (hp : p < 8 * bytes.length) (q : Nat) :
    bit (bytes.modify (p / 8) (setBitOf · (p % 8))) q = (decide (p = q) || bit bytes q) := by
  have hbyte : p / 8 < bytes.length := by omega
  rw [bit, bit, List.getD_eq_getElem?_getD, List.getD_eq_getElem?_getD, List.getElem?_modify]
  by_cases hsame : p / 8 = q / 8
  · have hq : q / 8 < bytes.length := by omega
    simp only [if_pos hsame, List.getElem?_eq_getElem hq, Option.map_eq_map, Option.map_some,
      Option.getD_some]
    rw [bitOf_setBitOf _ (by omega) (by omega)]
    congr 2
    simp only [eq_iff_iff]
    omega
  · have hne : p ≠ q := by
      rintro rfl
      exact hsame rfl
    simp [hsame, hne]

/-- Dropping whole bytes drops eight bits for each. -/
theorem bits_drop_eq {bytes : List UInt8} {k : Nat} (hk : k ≤ bytes.length) :
    bits (bytes.drop k) = (bits bytes).drop (8 * k) := by
  apply List.ext_getElem?
  intro p
  rw [List.getElem?_drop]
  by_cases hp : p < 8 * (bytes.drop k).length
  · have hlen : 8 * k + p < 8 * bytes.length := by
      rw [List.length_drop] at hp
      omega
    rw [getElem?_bits hp, getElem?_bits hlen]
    have hsplit := bit_append_right (bytes.take k) (bytes.drop k) p
    rw [List.take_append_drop, List.length_take_of_le hk] at hsplit
    rw [hsplit]
  · have hlen : ¬ 8 * k + p < 8 * bytes.length := by
      rw [List.length_drop] at hp
      omega
    rw [List.getElem?_eq_none (by rw [length_bits]; omega),
      List.getElem?_eq_none (by rw [length_bits]; omega)]

theorem byte_ext {a b : UInt8} (h : ∀ i < 8, bitOf a i = bitOf b i) : a = b := by
  rw [← UInt8.toNat_inj]
  apply Nat.eq_of_testBit_eq
  intro j
  by_cases hj : j < 8
  · have hbit := h (7 - j) (by omega)
    rwa [bitOf_eq_testBit, bitOf_eq_testBit, show 7 - (7 - j) = j by omega] at hbit
  · have hlt : ∀ c : UInt8, c.toNat.testBit j = false := fun c =>
      Nat.testBit_lt_two_pow (lt_of_lt_of_le c.toNat_lt
        (Nat.pow_le_pow_right (by omega) (show 8 ≤ j by omega)))
    rw [hlt, hlt]

/-- A byte string begins with another one when it has its bits. -/
theorem isPrefix_of_bit {front bytes : List UInt8} (hlen : front.length ≤ bytes.length)
    (h : ∀ p < 8 * front.length, bit bytes p = bit front p) : front <+: bytes := by
  rw [List.prefix_iff_getElem?]
  intro i hi
  have hi' : i < bytes.length := by omega
  rw [List.getElem?_eq_getElem hi', Option.some.injEq]
  apply byte_ext
  intro j hj
  have hbit := h (8 * i + j) (by omega)
  rw [bit, bit, show (8 * i + j) / 8 = i by omega, show (8 * i + j) % 8 = j by omega,
    List.getD_eq_getElem _ _ hi, List.getD_eq_getElem _ _ hi'] at hbit
  exact hbit

/-- The bits from position `8 * k` on begin with `word` when each of them does. -/
theorem isPrefix_bits_drop {bytes : List UInt8} {k : Nat} {word : List Bool}
    (hlen : 8 * k + word.length ≤ 8 * bytes.length)
    (h : ∀ p < word.length, bit bytes (8 * k + p) = word.getD p false) :
    word <+: bits (bytes.drop k) := by
  rw [bits_drop_eq (by omega), List.prefix_iff_getElem?]
  intro p hp
  rw [List.getElem?_drop, getElem?_bits (by omega), h p hp, List.getD_eq_getElem _ _ hp]

end BitPack
