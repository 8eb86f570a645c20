import ClockUtils.Compression.HuffmanGeneric
import ClockUtils.Compression.Mapping

open BitPack

namespace clockUtils.compression

theorem orBit_ok {result : Bytes} {p : Nat} (hp : p < 8 * result.length) (b : Bool) :
    ∃ out, orBit result p b = .ok out ∧ out.length = result.length ∧
      ∀ q, bit out q = (bit result q || (decide (p = q) && b)) := by
  rw [orBit, if_pos (by omega)]
  cases b with
  | false => exact ⟨result, rfl, rfl, by simp⟩
  | true =>
    refine ⟨_, rfl, List.length_modify .., fun q => ?_⟩
    rw [if_pos rfl, bit_modify_setBitOf hp, Bool.and_true, Bool.or_comm]

/-- Writing a word into allocated bytes ors it into the bits from `p` on. -/
theorem writeWord_ok {word : List Bool} {p : Nat} {result : Bytes}
    (hroom : p + word.length ≤ 8 * result.length) :
    ∃ out, writeWord word p result = .ok out ∧ out.length = result.length ∧
      ∀ q, bit out q = (bit result q || (decide (p ≤ q) && word.getD (q - p) false)) := by
  induction word generalizing p result with
  | nil => exact ⟨result, rfl, rfl, by simp⟩
  | cons b word ih =>
    rw [List.length_cons] at hroom
    have hp : p < 8 * result.length := by omega
    obtain ⟨first, hfirst, hfirstLen, hfirstBit⟩ := orBit_ok hp b
    have hroom' : p + 1 + word.length ≤ 8 * first.length := by omega
    obtain ⟨out, hout, hlen, hbit⟩ := ih hroom'
    refine ⟨out, ?_, by omega, fun q => ?_⟩
    · rw [writeWord, hfirst]
      exact hout
    · rw [hbit, hfirstBit]
      rcases Nat.lt_trichotomy p q with hlt | rfl | hgt
      · have hsub : q - p = q - (p + 1) + 1 := by omega
        simp [hlt.ne, hlt.le, Nat.succ_le_of_lt hlt, hsub]
      · simp
      · simp [hgt.ne', hgt.not_ge, show ¬ p + 1 ≤ q by omega]

/-- The bytes allocated after writing `text` from bit `index` on: one more than
the full bytes before the last word's end, unless there is nothing to write. -/
def allocated (mappings : ByteTable (List Bool)) (text : Bytes) (index size : Nat) : Nat :=
  if text = [] then size else max size ((index + (encode mappings text).length) / 8 + 1)

/-- Writing a text ors its code words, one behind the other, into the bits
from `index` on, and no index leaves the allocated bytes. -/
theorem writeText_ok (mappings : ByteTable (List Bool)) (text : Bytes) (index : Nat)
    (result : Bytes) :
    ∃ out, writeText mappings text index result = .ok out ∧
      out.length = allocated mappings text index result.length ∧
      ∀ q, bit out q =
        (bit result q || (decide (index ≤ q) && (encode mappings text).getD (q - index) false)) := by
  induction text generalizing index result with
  | nil => exact ⟨result, rfl, rfl, by simp [encode]⟩
  | cons c text ih =>
    have hencode : encode mappings (c :: text) = mappings.get c ++ encode mappings text := by
      simp [encode]
    generalize hword : mappings.get c = word at hencode
    let grown := result ++ List.replicate ((index + word.length) / 8 + 1 - result.length) 0
    have hgrown : grown.length = max result.length ((index + word.length) / 8 + 1) := by
      simp only [grown, List.length_append, List.length_replicate]
      omega
    have hroom : index + word.length ≤ 8 * grown.length := by omega
    obtain ⟨first, hfirst, hfirstLen, hfirstBit⟩ := writeWord_ok hroom
    obtain ⟨out, hout, hlen, hbit⟩ := ih (index + word.length) first
    refine ⟨out, ?_, ?_, fun q => ?_⟩
    · rw [writeText, hword, hfirst]
      exact hout
    · rw [hlen, allocated, allocated, if_neg (List.cons_ne_nil _ _), hencode, List.length_append]
      split
      · next hnil =>
        simp only [hnil, encode, List.flatMap_nil, List.length_nil]
        omega
      · omega
    · rw [hbit, hfirstBit, bit_append_zeros, hencode]
      by_cases hin : q - index < word.length
      · rw [List.getD_append _ _ _ _ hin]
        by_cases hlow : index + word.length ≤ q
        · omega
        · simp [hlow]
      · rw [List.getD_append_right _ _ _ _ (by omega), List.getD_eq_default _ _ (by omega)]
        by_cases hle : index ≤ q
        · have hbeyond : index + word.length ≤ q := by omega
          simp [hle, hbeyond, Nat.sub_sub]
        · simp [hle, show ¬ index + word.length ≤ q by omega]

/-- What the encoders append to a front of whole bytes: the front stays, and the
payload begins with the code words and has one byte more than they fill. -/
theorem writeText_payload (mappings : ByteTable (List Bool)) {text : Bytes} (htext : text ≠ [])
    (front : Bytes) :
    ∃ payload, writeText mappings text (8 * front.length) front = .ok (front ++ payload) ∧
      encode mappings text <+: bits payload ∧
      payload.length = (encode mappings text).length / 8 + 1 := by
  obtain ⟨out, hout, hlen, hbit⟩ := writeText_ok mappings text (8 * front.length) front
  rw [allocated, if_neg htext] at hlen
  have hfront : front <+: out := by
    apply isPrefix_of_bit (by omega)
    intro p hp
    rw [hbit]
    simp [show ¬ 8 * front.length ≤ p by omega]
  obtain ⟨payload, rfl⟩ := hfront
  rw [List.length_append] at hlen
  refine ⟨payload, hout, ?_, by omega⟩
  have hroom : 8 * front.length + (encode mappings text).length ≤ 8 * (front ++ payload).length := by
    rw [List.length_append]
    omega
  have hprefix := isPrefix_bits_drop hroom (fun p _ => by
    rw [hbit, bit_of_length_le (by omega)]
    simp)
  rwa [List.drop_left] at hprefix

end clockUtils.compression
