import Mathlib.Data.List.TakeWhile
import Mathlib.Data.Nat.Digits.Lemmas

namespace DecimalStream

/-- `isspace` -/
def isSpace (c : UInt8) : Bool :=
  c = 32 ∨ 9 ≤ c ∧ c ≤ 13

/-- `isdigit` -/
def isDigit (c : UInt8) : Bool :=
  48 ≤ c ∧ c ≤ 57

def minus : UInt8 := 45

def plus : UInt8 := 43

/-- The character of a digit. -/
def digit (d : Nat) : UInt8 :=
  UInt8.ofNat (48 + d)

/-- `out << n` of an unsigned number, with the default flags in the C locale. -/
def decimal (n : Nat) : List UInt8 :=
  if n = 0 then [digit 0] else (Nat.digits 10 n).reverse.map digit

/-- `out << n` of a signed number. -/
def signed (n : Int) : List UInt8 :=
  if n < 0 then minus :: decimal n.natAbs else decimal n.natAbs

/-- The number that some digits write. -/
def value (digits : List UInt8) : Nat :=
  digits.foldl (fun n c => 10 * n + (c.toNat - 48)) 0

/-- What input of a number finds in a text: a sign, digits and what is behind them. -/
structure Scan where
  negative : Bool
  digits : List UInt8
  rest : List UInt8

def scanDigits (negative : Bool) (text : List UInt8) : Scan :=
  ⟨negative, text.takeWhile isDigit, text.dropWhile isDigit⟩

/-- Behind the white space that is skipped. -/
def scan : List UInt8 → Scan
  | [] => ⟨false, [], []⟩
  | c :: text =>
    if c = minus then scanDigits true text
    else if c = plus then scanDigits false text
    else scanDigits false (c :: text)

/-- The number of a sign and digits. -/
def number (negative : Bool) (digits : List UInt8) : Int :=
  if negative then -(value digits : Int) else value digits

/-- What `in >> n` stores, `none` if it leaves `n` alone, and whether the stream has
not failed and is at its end then. -/
structure Extracted (T : Type) where
  stored : Option T
  good : Bool

/-- `in >> n` for a signed type with these bounds. A stream that has only white space
fails before the number is looked at. A number out of the bounds is replaced by the
nearest one. -/
def extractSigned (lo hi : Int) (text : List UInt8) : Extracted Int :=
  if text.dropWhile isSpace = [] then ⟨none, false⟩
  else
    let s := scan (text.dropWhile isSpace)
    let n := number s.negative s.digits
    if s.digits = [] then ⟨some 0, false⟩
    else if n < lo then ⟨some lo, false⟩
    else if hi < n then ⟨some hi, false⟩
    else ⟨some n, s.rest.isEmpty⟩

/-- `in >> n` for an unsigned type with values below `size`. A number behind a minus
sign counts from `size` downwards. -/
def extractUnsigned (size : Nat) (text : List UInt8) : Extracted Nat :=
  if text.dropWhile isSpace = [] then ⟨none, false⟩
  else
    let s := scan (text.dropWhile isSpace)
    if s.digits = [] then ⟨some 0, false⟩
    else if size ≤ value s.digits then ⟨some (size - 1), false⟩
    else if s.negative then ⟨some ((size - value s.digits) % size), s.rest.isEmpty⟩
    else ⟨some (value s.digits), s.rest.isEmpty⟩

theorem toNat_digit {d : Nat} (h : d < 10) : (digit d).toNat = 48 + d := by
  rw [digit, UInt8.toNat_ofNat']
  omega

theorem isDigit_iff (c : UInt8) : isDigit c = true ↔ 48 ≤ c.toNat ∧ c.toNat ≤ 57 := by
  rw [isDigit, decide_eq_true_iff, UInt8.le_iff_toNat_le, UInt8.le_iff_toNat_le]
  exact .rfl

theorem isDigit_digit {d : Nat} (h : d < 10) : isDigit (digit d) = true := by
  rw [isDigit_iff, toNat_digit h]
  omega

theorem isDigit_of_mem_decimal {n : Nat} {c : UInt8} (h : c ∈ decimal n) : isDigit c = true := by
  unfold decimal at h
  split at h
  · obtain rfl := List.mem_singleton.mp h
    exact isDigit_digit (by omega)
  · obtain ⟨d, hd, rfl⟩ := List.mem_map.mp h
    exact isDigit_digit (Nat.digits_lt_base (by omega) (List.mem_reverse.mp hd))

theorem decimal_ne_nil (n : Nat) : decimal n ≠ [] := by
  unfold decimal
  split
  · simp
  · next h =>
    rw [Ne, List.map_eq_nil_iff, List.reverse_eq_nil_iff]
    exact Nat.digits_ne_nil_iff_ne_zero.mpr h

theorem length_decimal_le {n k : Nat} (hk : 0 < k) (h : n < 10 ^ k) : (decimal n).length ≤ k := by
  unfold decimal
  split
  · exact hk
  · rw [List.length_map, List.length_reverse]
    exact (Nat.digits_length_le_iff (by omega) n).mpr h

theorem value_append (digits : List UInt8) (c : UInt8) :
    value (digits ++ [c]) = 10 * value digits + (c.toNat - 48) := by
  rw [value, List.foldl_append]
  rfl

/-- The digits of a number write the number. -/
theorem value_map_digit {digits : List Nat} (h : ∀ d ∈ digits, d < 10) :
    value (digits.reverse.map digit) = Nat.ofDigits 10 digits := by
  induction digits with
  | nil => rfl
  | cons d digits ih =>
    rw [List.forall_mem_cons] at h
    rw [List.reverse_cons, List.map_append, List.map_singleton, value_append, ih h.2,
      toNat_digit h.1, Nat.ofDigits_cons]
    omega

theorem value_decimal (n : Nat) : value (decimal n) = n := by
  unfold decimal
  split
  · next h => rw [h]; decide
  · rw [value_map_digit fun d hd => Nat.digits_lt_base (by omega) hd, Nat.ofDigits_digits]

/-- The text is a number with this sign and these digits: white space, the sign, of
which a plus may be left out, and at least one digit. -/
def Written (text : List UInt8) (negative : Bool) (digits : List UInt8) : Prop :=
  ∃ spaces sign, text = spaces ++ (sign ++ digits) ∧ (∀ c ∈ spaces, isSpace c = true) ∧
    sign ∈ (if negative then [[minus]] else [[], [plus]]) ∧
    digits ≠ [] ∧ ∀ c ∈ digits, isDigit c = true

theorem not_isSpace_of_isDigit {c : UInt8} (h : isDigit c = true) : isSpace c = false := by
  rw [isDigit_iff] at h
  rw [isSpace, decide_eq_false_iff_not, not_or, not_and_or, ← UInt8.toNat_inj,
    UInt8.le_iff_toNat_le, UInt8.le_iff_toNat_le]
  change ¬ c.toNat = 32 ∧ (¬ 9 ≤ c.toNat ∨ ¬ c.toNat ≤ 13)
  omega

theorem not_sign_of_isDigit {c : UInt8} (h : isDigit c = true) : c ≠ minus ∧ c ≠ plus := by
  constructor <;> rintro rfl <;> cases h

theorem scanDigits_eq_iff {negative negative' : Bool} {text digits : List UInt8} :
    scanDigits negative' text = ⟨negative, digits, []⟩ ↔
      negative' = negative ∧ text = digits ∧ ∀ c ∈ digits, isDigit c = true := by
  rw [scanDigits, Scan.mk.injEq, List.dropWhile_eq_nil_iff, and_congr_right_iff]
  intro _
  constructor
  · rintro ⟨rfl, hall⟩
    rw [List.takeWhile_eq_self_iff.mpr hall]
    exact ⟨rfl, hall⟩
  · rintro ⟨rfl, hall⟩
    exact ⟨List.takeWhile_eq_self_iff.mpr hall, hall⟩

section Number

variable {negative : Bool} {digits : List UInt8} (hne : digits ≠ [])

include hne

/-- What input finds where a number begins. -/
theorem scan_sign_append (hall : ∀ c ∈ digits, isDigit c = true) {sign : List UInt8}
    (hsign : sign ∈ (if negative then [[minus]] else [[], [plus]])) :
    scan (sign ++ digits) = ⟨negative, digits, []⟩ := by
  have hdigits : ∀ negative, scanDigits negative digits = ⟨negative, digits, []⟩ :=
    fun negative => scanDigits_eq_iff.mpr ⟨rfl, rfl, hall⟩
  cases negative with
  | true =>
    obtain rfl := List.mem_singleton.mp hsign
    exact hdigits true
  | false =>
    rcases List.mem_cons.mp hsign with rfl | hsign
    · obtain ⟨c, rest, rfl⟩ := List.exists_cons_of_ne_nil hne
      obtain ⟨hminus, hplus⟩ := not_sign_of_isDigit (hall c List.mem_cons_self)
      rw [List.nil_append, scan, if_neg hminus, if_neg hplus]
      exact hdigits false
    · obtain rfl := List.mem_singleton.mp hsign
      exact hdigits false

theorem exists_sign_of_scan {text : List UInt8} (hscan : scan text = ⟨negative, digits, []⟩) :
    (∀ c ∈ digits, isDigit c = true) ∧
      ∃ sign ∈ (if negative then [[minus]] else [[], [plus]]), text = sign ++ digits := by
  cases text with
  | nil =>
    rw [scan, Scan.mk.injEq] at hscan
    exact absurd hscan.2.1.symm hne
  | cons c text =>
    rw [scan] at hscan
    split at hscan
    · next hminus =>
      obtain ⟨rfl, rfl, hall⟩ := scanDigits_eq_iff.mp hscan
      exact ⟨hall, [minus], by simp, by rw [hminus]; rfl⟩
    · split at hscan
      · next hplus =>
        obtain ⟨rfl, rfl, hall⟩ := scanDigits_eq_iff.mp hscan
        exact ⟨hall, [plus], by simp, by rw [hplus]; rfl⟩
      · obtain ⟨rfl, rfl, hall⟩ := scanDigits_eq_iff.mp hscan
        exact ⟨hall, [], by simp, rfl⟩

end Number

theorem not_isSpace_of_sign_append {negative : Bool} {sign digits : List UInt8}
    (hall : ∀ c ∈ digits, isDigit c = true)
    (hsign : sign ∈ (if negative then [[minus]] else [[], [plus]])) :
    (sign ++ digits).dropWhile isSpace = sign ++ digits := by
  have hdigits : digits.dropWhile isSpace = digits := by
    cases digits with
    | nil => rfl
    | cons c rest =>
      refine List.dropWhile_cons_of_neg ?_
      rw [not_isSpace_of_isDigit (hall c List.mem_cons_self)]
      exact Bool.false_ne_true
  cases negative with
  | true =>
    obtain rfl := List.mem_singleton.mp hsign
    rfl
  | false =>
    rcases List.mem_cons.mp hsign with rfl | hsign
    · exact hdigits
    · obtain rfl := List.mem_singleton.mp hsign
      rfl

/-- Input reads a text to its end exactly if it is a number. -/
theorem scan_eq_iff {text : List UInt8} {negative : Bool} {digits : List UInt8} :
    (scan (text.dropWhile isSpace) = ⟨negative, digits, []⟩ ∧ digits ≠ []) ↔
      Written text negative digits := by
  constructor
  · rintro ⟨hscan, hne⟩
    obtain ⟨hall, sign, hsign, hrest⟩ := exists_sign_of_scan hne hscan
    refine ⟨text.takeWhile isSpace, sign, ?_, fun c hc => List.mem_takeWhile_imp hc, hsign, hne,
      hall⟩
    rw [← hrest, List.takeWhile_append_dropWhile]
  · rintro ⟨spaces, sign, rfl, hspaces, hsign, hne, hall⟩
    refine ⟨?_, hne⟩
    rw [List.dropWhile_append_of_pos hspaces, not_isSpace_of_sign_append hall hsign]
    exact scan_sign_append hne hall hsign

theorem Written.dropWhile_ne_nil {text : List UInt8} {negative : Bool} {digits : List UInt8}
    (h : Written text negative digits) : text.dropWhile isSpace ≠ [] := by
  obtain ⟨hscan, hne⟩ := scan_eq_iff.mpr h
  intro hnil
  rw [hnil, scan, Scan.mk.injEq] at hscan
  exact hne hscan.2.1.symm

/-- Input succeeds and reaches the end exactly on the texts of the numbers that the
type has. -/
theorem extractSigned_eq_iff {lo hi : Int} {text : List UInt8} {n : Int} :
    extractSigned lo hi text = ⟨some n, true⟩ ↔
      ∃ negative digits, Written text negative digits ∧ number negative digits = n ∧
        lo ≤ n ∧ n ≤ hi := by
  constructor
  · intro h
    unfold extractSigned at h
    split at h
    · cases h
    · simp only at h
      split at h
      · cases h
      · next hdigits =>
        split at h
        · cases h
        · next hlo =>
          split at h
          · cases h
          · next hhi =>
            rw [Extracted.mk.injEq, Option.some.injEq, List.isEmpty_iff] at h
            obtain ⟨rfl, hrest⟩ := h
            refine ⟨_, _, scan_eq_iff.mp ⟨?_, hdigits⟩, rfl, Int.not_lt.mp hlo, Int.not_lt.mp hhi⟩
            rw [← hrest]
  · rintro ⟨negative, digits, hwritten, rfl, hlo, hhi⟩
    obtain ⟨hscan, hne⟩ := scan_eq_iff.mpr hwritten
    rw [extractSigned, if_neg hwritten.dropWhile_ne_nil, hscan]
    dsimp only
    rw [if_neg hne, if_neg (Int.not_lt.mpr hlo), if_neg (Int.not_lt.mpr hhi)]
    rfl

theorem exists_of_extractSigned_good {lo hi : Int} {text : List UInt8}
    (h : (extractSigned lo hi text).good = true) :
    ∃ n, extractSigned lo hi text = ⟨some n, true⟩ := by
  unfold extractSigned at h ⊢
  split at h
  · cases h
  · next hspace =>
    rw [if_neg hspace]
    simp only at h ⊢
    split at h
    · cases h
    · next hdigits =>
      rw [if_neg hdigits]
      split at h
      · cases h
      · next hlo =>
        rw [if_neg hlo]
        split at h
        · cases h
        · next hhi =>
          rw [if_neg hhi]
          exact ⟨_, congrArg _ h⟩

theorem written_signed (n : Int) : Written (signed n) (n < 0) (decimal n.natAbs) := by
  refine ⟨[], if n < 0 then [minus] else [], ?_, by simp, ?_, decimal_ne_nil _,
    fun c hc => isDigit_of_mem_decimal hc⟩
  · unfold signed
    split
    · rfl
    · rfl
  · by_cases h : n < 0
    · simp [h]
    · simp [h]

/-- What was put out is read again. -/
theorem extractSigned_signed {lo hi n : Int} (hlo : lo ≤ n) (hhi : n ≤ hi) :
    extractSigned lo hi (signed n) = ⟨some n, true⟩ := by
  refine extractSigned_eq_iff.mpr ⟨_, _, written_signed n, ?_, hlo, hhi⟩
  rw [number, value_decimal]
  split
  · next h =>
    have hneg : n < 0 := by simpa using h
    omega
  · next h =>
    have hpos : ¬ n < 0 := by simpa using h
    omega

theorem extractUnsigned_decimal {size n : Nat} (h : n < size) :
    extractUnsigned size (decimal n) = ⟨some n, true⟩ := by
  have hwritten : Written (decimal n) false (decimal n) :=
    ⟨[], [], rfl, by simp, by simp, decimal_ne_nil n, fun c hc => isDigit_of_mem_decimal hc⟩
  obtain ⟨hscan, hne⟩ := scan_eq_iff.mpr hwritten
  rw [extractUnsigned, if_neg hwritten.dropWhile_ne_nil, hscan]
  dsimp only
  rw [if_neg hne, value_decimal, if_neg (Nat.not_le.mpr h)]
  rfl

end DecimalStream
