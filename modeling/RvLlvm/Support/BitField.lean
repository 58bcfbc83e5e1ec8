import Mathlib.Data.Int.Notation
import Mathlib.Tactic.NormNum
import Mathlib.Tactic.Positivity
import Mathlib.Tactic.Ring
import Mathlib.Logic.Function.Basic

/-!
# Bit fields of machine words

A machine word is a `Nat` read through its fields. Nothing here names a program.

* `half`, `word`, `cell w`: the value a 16-, 32- or `w`-bit cell holds after a store.
* `field lo w n`: bits `lo, …, lo + w - 1` of `n`; `setField lo w v n` replaces them by the low `w`
  bits of the integer `v`.
* `field_setField_self`, `field_setField_below`, `field_setField_above`: a store into a field is
  read back from it and from no other field.
* `signExtend w n`: the signed value of a `w`-bit field.
-/

namespace RvLlvm.Support

/-! ## Truncating stores -/

/-- The value a 16-bit cell holds after `n` is stored in it. -/
def half (n : Nat) : Nat := n % 2 ^ 16

/-- The value a 32-bit cell holds after `z` is stored in it. -/
def word (z : Int) : Nat := (z % 2 ^ 32).toNat

theorem half_lt (n : Nat) : half n < 2 ^ 16 := Nat.mod_lt _ (by decide)

theorem half_of_lt {n : Nat} (h : n < 2 ^ 16) : half n = n := Nat.mod_eq_of_lt h

theorem word_of_lt {n : Nat} (h : n < 2 ^ 32) : word n = n := by unfold word; omega

/-- The cells of a machine with words of four or eight bytes. -/
theorem word_dvd {wordsize : Nat} (hw : wordsize = 4 ∨ wordsize = 8) :
    2 ^ (8 * wordsize) ∣ 2 ^ 64 := by
  apply Nat.pow_dvd_pow
  omega

/-- Two integers fill a word alike exactly when they are equal modulo `2 ^ 32`. -/
theorem word_eq_iff (a b : Int) : word a = word b ↔ a % 2 ^ 32 = b % 2 ^ 32 := by
  unfold word
  omega

theorem word_word_add (a b : Int) : word (word a + b) = word (a + b) := by
  unfold word
  omega

/-- The value a `w`-bit cell holds after `z` is stored in it. -/
def cell (w : Nat) (z : Int) : Nat := (z % 2 ^ w).toNat

theorem cell_cast (w : Nat) (z : Int) : (cell w z : Int) = z % 2 ^ w :=
  Int.toNat_of_nonneg (Int.emod_nonneg z (by positivity))

theorem cell_lt (w : Nat) (z : Int) : cell w z < 2 ^ w := by
  have hcast := cell_cast w z
  have hlt := Int.emod_lt_of_pos z (show (0 : Int) < 2 ^ w by positivity)
  rw [← hcast] at hlt
  exact_mod_cast hlt

/-- Two integers fill a cell alike exactly when they are equal modulo its size. -/
theorem cell_eq_iff {w : Nat} (a b : Int) : cell w a = cell w b ↔ a % 2 ^ w = b % 2 ^ w := by
  rw [← cell_cast, ← cell_cast]
  exact Nat.cast_inj.symm

theorem cell_cell_add (w : Nat) (a b : Int) : cell w (cell w a + b) = cell w (a + b) := by
  rw [cell_eq_iff, cell_cast, Int.emod_add_emod]

/-! ## Fields -/

/-- Bits `lo, …, lo + w - 1` of `n`. -/
def field (lo w n : Nat) : Nat := n / 2 ^ lo % 2 ^ w

/-- `n` with bits `lo, …, lo + w - 1` replaced by the low bits of `v`. -/
def setField (lo w : Nat) (v : Int) (n : Nat) : Nat :=
  n % 2 ^ lo + (v % 2 ^ w).toNat * 2 ^ lo + n / 2 ^ (lo + w) * 2 ^ (lo + w)

section Fields

variable {lo w : Nat} (v : Int) (n : Nat)

theorem low_lt (w : Nat) : (v % 2 ^ w).toNat < 2 ^ w := by
  have hpos : (0 : Int) < 2 ^ w := by positivity
  have hlt := Int.emod_lt_of_pos v hpos
  have h0 := Int.emod_nonneg v hpos.ne'
  rw [← Int.toNat_of_nonneg h0] at hlt
  exact_mod_cast hlt

/-- The three parts of a word with a field set. -/
theorem setField_eq :
    setField lo w v n = n % 2 ^ lo + 2 ^ lo * ((v % 2 ^ w).toNat + 2 ^ w * (n / 2 ^ (lo + w))) := by
  unfold setField
  rw [pow_add]
  ring

/-- **A field is read back as it was set.** -/
theorem field_setField_self : field lo w (setField lo w v n) = (v % 2 ^ w).toNat := by
  rw [setField_eq, field, Nat.add_mul_div_left _ _ (Nat.two_pow_pos lo),
    Nat.div_eq_of_lt (Nat.mod_lt _ (Nat.two_pow_pos lo)), Nat.zero_add, Nat.add_mul_mod_self_left,
    Nat.mod_eq_of_lt (low_lt v w)]

/-- A field only depends on the bits below its end. -/
theorem field_eq_mod (lo w n : Nat) : field lo w n = n % 2 ^ (lo + w) / 2 ^ lo := by
  rw [field, pow_add, Nat.mod_mul_right_div_self]

/-- Setting a field leaves the fields below it. -/
theorem field_setField_below {lo' w' : Nat} (h : lo' + w' ≤ lo) :
    field lo' w' (setField lo w v n) = field lo' w' n := by
  have hdvd : 2 ^ (lo' + w') ∣ 2 ^ lo := pow_dvd_pow 2 h
  obtain ⟨k, hk⟩ := hdvd
  rw [field_eq_mod, field_eq_mod, setField_eq]
  congr 1
  rw [hk, Nat.mul_assoc, Nat.add_mul_mod_self_left]
  exact Nat.mod_mod_of_dvd n (Nat.dvd_mul_right _ _)

/-- Setting a field leaves the fields above it. -/
theorem field_setField_above {lo' w' : Nat} (h : lo + w ≤ lo') :
    field lo' w' (setField lo w v n) = field lo' w' n := by
  obtain ⟨k, rfl⟩ := Nat.exists_eq_add_of_le h
  have hlow : n % 2 ^ lo + (v % 2 ^ w).toNat * 2 ^ lo < 2 ^ (lo + w) := by
    have hmod := Nat.mod_lt n (Nat.two_pow_pos lo)
    have hv := Nat.mul_le_mul_right (2 ^ lo) (Nat.succ_le_of_lt (low_lt v w))
    rw [Nat.succ_mul] at hv
    rw [pow_add, Nat.mul_comm (2 ^ lo)]
    omega
  have hdiv : setField lo w v n / 2 ^ (lo + w) = n / 2 ^ (lo + w) := by
    unfold setField
    rw [Nat.add_mul_div_right _ _ (Nat.two_pow_pos _), Nat.div_eq_of_lt hlow, Nat.zero_add]
  rw [field, field, pow_add 2 (lo + w) k, ← Nat.div_div_eq_div_mul, ← Nat.div_div_eq_div_mul, hdiv]

end Fields

/-! ## Signed fields -/

/-- The signed value of a `w`-bit field. -/
def signExtend (w : Nat) (n : Nat) : Int := (n : Int).bmod (2 ^ w)

/-- The signed value of a field that holds the low bits of `v`. -/
theorem signExtend_low (v : Int) (w : Nat) : signExtend w (v % 2 ^ w).toNat = v.bmod (2 ^ w) := by
  have hpos : (0 : Int) < 2 ^ w := by positivity
  unfold signExtend
  rw [Int.toNat_of_nonneg (Int.emod_nonneg v hpos.ne')]
  have : (2 : Int) ^ w = ((2 ^ w : Nat) : Int) := by norm_cast
  rw [this, Int.emod_bmod]

end RvLlvm.Support
