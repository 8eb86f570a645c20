import Mathlib.Algebra.Order.Ring.Int
import Mathlib.Tactic.Positivity

/-- An integer type of a C++ program, with its `std::numeric_limits<T>::digits`. -/
inductive IntegerType where
  | bool
  | signed (digits : Nat)
  | unsigned (digits : Nat)
  deriving DecidableEq

namespace IntegerType

/-- `int`, where it has 32 bits. -/
def int : IntegerType := signed 31

/-- `uint32_t` -/
def uint32 : IntegerType := unsigned 32

def bits : IntegerType → Nat
  | bool => 1
  | signed digits => digits + 1
  | unsigned digits => digits

/-- The number is one of the type. -/
def Holds : IntegerType → Int → Prop
  | bool, n => n = 0 ∨ n = 1
  | signed digits, n => -2 ^ digits ≤ n ∧ n < 2 ^ digits
  | unsigned digits, n => 0 ≤ n ∧ n < 2 ^ digits

/-- `T(n)`, which keeps only the bits that the type has. -/
def cast : IntegerType → Int → Int
  | bool, n => if n = 0 then 0 else 1
  | signed digits, n => n.bmod (2 ^ (digits + 1))
  | unsigned digits, n => n % 2 ^ digits

theorem holds_cast (type : IntegerType) (n : Int) : type.Holds (type.cast n) := by
  cases type with
  | bool =>
    rw [cast]
    split
    · exact .inl rfl
    · exact .inr rfl
  | signed digits =>
    have hlo := Int.le_bmod (x := n) (m := 2 ^ (digits + 1)) (by positivity)
    have hhi := Int.bmod_lt (x := n) (m := 2 ^ (digits + 1)) (by positivity)
    push_cast at hlo hhi
    rw [cast]
    constructor
    · omega
    · omega
  | unsigned digits =>
    exact ⟨Int.emod_nonneg n (by positivity), Int.emod_lt_of_pos n (by positivity)⟩

theorem holds_zero (type : IntegerType) : type.Holds 0 := by
  cases type with
  | bool => exact .inl rfl
  | signed digits =>
    have hpos : (0 : Int) < 2 ^ digits := by positivity
    constructor
    · omega
    · omega
  | unsigned digits => exact ⟨le_refl _, by positivity⟩

/-- A number of the type stays as it is. -/
theorem cast_eq_self {type : IntegerType} {n : Int} (h : type.Holds n) : type.cast n = n := by
  cases type with
  | bool =>
    obtain rfl | rfl := h
    · rfl
    · rfl
  | signed digits =>
    obtain ⟨hlo, hhi⟩ := h
    apply Int.bmod_eq_of_le_mul_two
    · push_cast
      omega
    · push_cast
      omega
  | unsigned digits => exact Int.emod_eq_of_lt h.1 h.2

theorem cast_emod {type : IntegerType} (htype : type ≠ bool) (n : Int) :
    type.cast n % 2 ^ type.bits = n % 2 ^ type.bits := by
  cases type with
  | bool => exact absurd rfl htype
  | signed digits =>
    have hmod := Int.bmod_emod (x := n) (m := 2 ^ (digits + 1))
    push_cast at hmod
    exact hmod
  | unsigned digits => exact Int.emod_emod_of_dvd n (dvd_refl _)

theorem cast_emod_self {type : IntegerType} (htype : type ≠ bool) (n : Int) :
    type.cast (n % 2 ^ type.bits) = type.cast n := by
  cases type with
  | bool => exact absurd rfl htype
  | signed digits =>
    have hmod := Int.emod_bmod n (2 ^ (digits + 1))
    push_cast at hmod
    exact hmod
  | unsigned digits => exact Int.emod_emod_of_dvd n (dvd_refl _)

/-- A number comes back from another type that has no fewer bits or has the number
itself. -/
theorem cast_cast {type : IntegerType} (via : IntegerType) (hvia : via ≠ bool) {n : Int}
    (hn : type.Holds n) (h : type.bits ≤ via.bits ∨ via.Holds n) : type.cast (via.cast n) = n := by
  obtain hbits | hholds := h
  · have hdvd : (2 : Int) ^ type.bits ∣ 2 ^ via.bits := pow_dvd_pow 2 hbits
    have hmod : via.cast n % 2 ^ type.bits = n % 2 ^ type.bits := by
      rw [← Int.emod_emod_of_dvd _ hdvd, cast_emod hvia, Int.emod_emod_of_dvd _ hdvd]
    obtain rfl | htype := eq_or_ne type bool
    · rw [bits, pow_one] at hmod
      obtain rfl | rfl := hn
      · rw [cast_eq_self (holds_zero via)]
        rfl
      · rw [cast, if_neg (by omega)]
    · rw [← cast_emod_self htype, hmod, cast_emod_self htype, cast_eq_self hn]
  · rw [cast_eq_self hholds, cast_eq_self hn]

end IntegerType
