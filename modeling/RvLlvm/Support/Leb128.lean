import Mathlib.Tactic.LinearCombination
import RvLlvm.Support.BitField

/-!
# Signed LEB128

A signed 64-bit value as bytes of seven bits each, lowest first. Every byte but the last has its
high bit set, and bit 6 of the last one is the sign. Nothing here names a program.

* `encode`, `decode`: the writer and the reader of one value; a value is read as the 64 bits of its
  cell.
* `decode_encode`: what was written is read back, and the bytes after it are left.
* `encode_ne_nil`: a value takes a byte at least.
-/

namespace RvLlvm.Support.Sleb128

/-! ## Writing -/

/-- No byte follows `byte` when its sign bit tells the rest `v`. -/
def last (v : Int) (byte : Nat) : Bool :=
  (v == 0 && byte < 64) || (v == -1 && 64 ≤ byte)

/-- The bytes of `v`, for at most `n` turns. -/
def encodeBytes : Nat → Int → List Nat
  | 0, _ => []
  | n + 1, v =>
    let byte := (v % 128).toNat
    if last (v / 128) byte then [byte] else (byte + 128) :: encodeBytes n (v / 128)

/-- The bytes of the signed 64-bit value that `v` is cut to; ten turns are enough. -/
def encode (v : Int) : List Nat := encodeBytes 10 (v.bmod (2 ^ 64))

/-! ## Reading -/

/-- Why no value was read. -/
inductive Malformed
  | extendsPastEnd | tooBig
  deriving DecidableEq

/-- The 64 bits of a value and the bytes left; `value` holds the `shift` bits read so far. A shift
by more than the width, which only padding reaches, adds nothing. -/
def decodeBytes (value shift : Nat) : List Nat → Except Malformed (Nat × List Nat)
  | [] => .error .extendsPastEnd
  | byte :: data =>
    let slice := byte % 128
    if 64 ≤ shift && slice != (if 2 ^ 63 ≤ value then 0x7f else 0) ||
        shift == 63 && slice != 0 && slice != 0x7f then
      .error .tooBig
    else
      let value := value ||| slice * 2 ^ shift % 2 ^ 64
      if 128 ≤ byte then decodeBytes value (shift + 7) data
      else if shift + 7 < 64 && 64 ≤ slice then
        .ok (value ||| (2 ^ 64 - 1) * 2 ^ (shift + 7) % 2 ^ 64, data)
      else .ok (value, data)

def decode (data : List Nat) : Except Malformed (Nat × List Nat) := decodeBytes 0 0 data

/-! ## Round trip -/

theorem encode_ne_nil (v : Int) : encode v ≠ [] := by
  unfold encode encodeBytes
  simp only
  split
  · exact List.cons_ne_nil _ _
  · exact List.cons_ne_nil _ _

variable {shift value : Nat}

/-- Bits above those read are added. -/
theorem or_shifted (h : value < 2 ^ shift) (b : Nat) :
    value ||| b * 2 ^ shift = value + b * 2 ^ shift := by
  rw [Nat.or_comm, Nat.add_comm, Nat.mul_comm]
  exact (Nat.two_pow_add_eq_or_of_lt h b).symm

theorem sum_lt {byte : Nat} (hvalue : value < 2 ^ shift) (hbyte : byte < 128) :
    value + byte * 2 ^ shift < 2 ^ (shift + 7) := by
  have : byte * 2 ^ shift + 2 ^ shift ≤ 2 ^ (shift + 7) := by
    rw [pow_add, ← Nat.succ_mul, Nat.mul_comm (2 ^ shift)]
    exact Nat.mul_le_mul_right _ hbyte
  omega

/-- The bits that extend a negative value. -/
theorem extension (h : shift ≤ 64) :
    (2 ^ 64 - 1) * 2 ^ shift % 2 ^ 64 = (2 ^ (64 - shift) - 1) * 2 ^ shift := by
  have hpow : 2 ^ (64 - shift) * 2 ^ shift = 2 ^ 64 := by
    rw [← pow_add, Nat.sub_add_cancel h]
  have hle : 2 ^ shift ≤ 2 ^ 64 := Nat.pow_le_pow_right (by decide) h
  have hpos : 0 < 2 ^ shift := Nat.two_pow_pos shift
  rw [Nat.sub_mul (2 ^ (64 - shift)), hpow, Nat.sub_mul, Nat.one_mul]
  have hsplit : 2 ^ 64 * 2 ^ shift - 2 ^ shift =
      2 ^ 64 - 2 ^ shift + 2 ^ 64 * (2 ^ shift - 1) := by
    rw [Nat.mul_sub, Nat.mul_one]
    have : 2 ^ 64 ≤ 2 ^ 64 * 2 ^ shift := Nat.le_mul_of_pos_right _ hpos
    omega
  rw [hsplit, Nat.add_mul_mod_self_left]
  exact Nat.mod_eq_of_lt (by omega)

/-- A byte that is not the last adds its seven bits. -/
theorem decodeBytes_more {byte : Nat} (hvalue : value < 2 ^ shift) (hbyte : byte < 128)
    (hshift : shift ≤ 56) (data : List Nat) :
    decodeBytes value shift ((byte + 128) :: data) =
      decodeBytes (value + byte * 2 ^ shift) (shift + 7) data := by
  have hslice : (byte + 128) % 128 = byte := by omega
  have hfit : byte * 2 ^ shift < 2 ^ 64 := by
    calc byte * 2 ^ shift < 2 ^ 7 * 2 ^ shift := by
          exact Nat.mul_lt_mul_of_pos_right hbyte (Nat.two_pow_pos shift)
      _ = 2 ^ (7 + shift) := (pow_add 2 7 shift).symm
      _ ≤ 2 ^ 64 := Nat.pow_le_pow_right (by decide) (by omega)
  have h64 : decide (64 ≤ shift) = false := decide_eq_false (by omega)
  have h63 : (shift == 63) = false := beq_eq_false_iff_ne.mpr (by omega)
  rw [decodeBytes]
  simp only [hslice, h64, h63, Bool.false_and, Bool.or_self, Bool.false_eq_true, if_false]
  rw [if_pos (by omega), Nat.mod_eq_of_lt hfit, or_shifted hvalue]

/-- The last byte of a non-negative value. -/
theorem decodeBytes_last_pos {byte : Nat} (hvalue : value < 2 ^ shift) (hbyte : byte < 64)
    (hshift : shift ≤ 56) (data : List Nat) :
    decodeBytes value shift (byte :: data) = .ok (value + byte * 2 ^ shift, data) := by
  have hslice : byte % 128 = byte := by omega
  have hfit : byte * 2 ^ shift < 2 ^ 64 := by
    calc byte * 2 ^ shift < 2 ^ 6 * 2 ^ shift := by
          exact Nat.mul_lt_mul_of_pos_right hbyte (Nat.two_pow_pos shift)
      _ = 2 ^ (6 + shift) := (pow_add 2 6 shift).symm
      _ ≤ 2 ^ 64 := Nat.pow_le_pow_right (by decide) (by omega)
  have h64 : decide (64 ≤ shift) = false := decide_eq_false (by omega)
  have h63 : (shift == 63) = false := beq_eq_false_iff_ne.mpr (by omega)
  have hsign : decide (64 ≤ byte) = false := decide_eq_false (by omega)
  rw [decodeBytes]
  simp only [hslice, h64, h63, hsign, Bool.false_and, Bool.and_false, Bool.or_self,
    Bool.false_eq_true, if_false]
  rw [if_neg (by omega), Nat.mod_eq_of_lt hfit, or_shifted hvalue]

/-- The last byte of a negative value. -/
theorem decodeBytes_last_neg {byte : Nat} (hvalue : value < 2 ^ shift) (hneg : 64 ≤ byte)
    (hbyte : byte < 128) (hshift : shift ≤ 56) (data : List Nat) :
    decodeBytes value shift (byte :: data) =
      .ok (value + byte * 2 ^ shift + (2 ^ (57 - shift) - 1) * 2 ^ (shift + 7), data) := by
  have hslice : byte % 128 = byte := by omega
  have hsum := sum_lt hvalue hbyte
  have hfit : byte * 2 ^ shift < 2 ^ 64 := by
    have : 2 ^ (shift + 7) ≤ 2 ^ 64 := Nat.pow_le_pow_right (by decide) (by omega)
    omega
  have h64 : decide (64 ≤ shift) = false := decide_eq_false (by omega)
  have h63 : (shift == 63) = false := beq_eq_false_iff_ne.mpr (by omega)
  have hsign : (decide (shift + 7 < 64) && decide (64 ≤ byte)) = true := by
    rw [decide_eq_true (by omega : shift + 7 < 64), decide_eq_true hneg]
    rfl
  rw [decodeBytes]
  simp only [hslice, h64, h63, Bool.false_and, Bool.or_self, Bool.false_eq_true, if_false, hsign,
    if_true]
  rw [if_neg (by omega), Nat.mod_eq_of_lt hfit, or_shifted hvalue, extension (by omega),
    or_shifted hsum, show 64 - (shift + 7) = 57 - shift by omega]

/-- The tenth byte holds the sign alone. -/
theorem decodeBytes_tenth {v : Int} (hvalue : value < 2 ^ 63) (hv : v = 0 ∨ v = -1)
    (data : List Nat) :
    decodeBytes value 63 ((v % 128).toNat :: data) = .ok (cell 64 (value + v * 2 ^ 63), data) := by
  rcases hv with rfl | rfl
  · have hcell : cell 64 (value + 0 * 2 ^ 63) = value := by
      unfold cell
      omega
    rw [hcell, decodeBytes]
    simp
  · have hcell : cell 64 (value + -1 * 2 ^ 63) = value + 1 * 2 ^ 63 := by
      unfold cell
      omega
    rw [hcell, ← or_shifted hvalue, decodeBytes]
    simp

/-- A value whose last byte is below 64 is the sum. -/
theorem cell_last_pos {b : Nat} {v : Int} (hvalue : value < 2 ^ shift) (hb : b < 128)
    (hs : shift ≤ 56) (hv : v = b) : cell 64 (value + v * 2 ^ shift) = value + b * 2 ^ shift := by
  have hsum := sum_lt hvalue hb
  have hpow : 2 ^ (shift + 7) ≤ 2 ^ 64 := Nat.pow_le_pow_right (by decide) (by omega)
  have hcast : (value + v * 2 ^ shift : Int) = (value + b * 2 ^ shift : Nat) := by
    push_cast
    rw [hv]
  rw [hcast]
  unfold cell
  omega

/-- A negative value is the sum with the sign above it. -/
theorem cell_last_neg {b : Nat} {v : Int} (hvalue : value < 2 ^ shift) (hb : b < 128)
    (hs : shift ≤ 56) (hv : v = b - 128) :
    cell 64 (value + v * 2 ^ shift) =
      value + b * 2 ^ shift + (2 ^ (57 - shift) - 1) * 2 ^ (shift + 7) := by
  have hsum := sum_lt hvalue hb
  have hfull : (2 ^ (57 - shift) - 1) * 2 ^ (shift + 7) + 2 ^ (shift + 7) = 2 ^ 64 := by
    rw [← Nat.succ_mul, Nat.succ_eq_add_one, Nat.sub_add_cancel Nat.one_le_two_pow, ← pow_add]
    congr 1
    omega
  have hcast : (value + v * 2 ^ shift : Int) =
      (value + b * 2 ^ shift : Nat) - (2 ^ (shift + 7) : Nat) := by
    rw [show 2 ^ (shift + 7) = 2 ^ shift * 128 from pow_add 2 shift 7]
    push_cast
    linear_combination (2 : Int) ^ shift * hv
  rw [hcast]
  unfold cell
  omega

/-- What is read of a value whose first bits are read already. -/
theorem decodeBytes_encodeBytes (n : Nat) {v : Int} (shift : Nat) (hshift : shift + 7 * n = 70)
    (hn : 0 < n) (hvalue : value < 2 ^ shift) (hlo : -2 ^ (63 - shift) ≤ v)
    (hhi : v < 2 ^ (63 - shift)) (data : List Nat) :
    decodeBytes value shift (encodeBytes n v ++ data) =
      .ok (cell 64 (value + v * 2 ^ shift), data) := by
  induction n generalizing value v shift with
  | zero => exact absurd hn (lt_irrefl 0)
  | succ n ih =>
    rw [encodeBytes]
    by_cases hlast : n = 0
    · -- the tenth byte
      obtain rfl : shift = 63 := by omega
      have hv : v = 0 ∨ v = -1 := by
        simp only [Nat.sub_self, pow_zero] at hlo hhi
        omega
      have hstop : last (v / 128) (v % 128).toNat = true := by
        rcases hv with rfl | rfl <;> rfl
      simp only [hstop, if_true]
      exact decodeBytes_tenth hvalue hv data
    · have hs : shift ≤ 56 := by omega
      have hmod := Int.emod_lt_of_pos v (by decide : (0 : Int) < 128)
      have hnonneg := Int.emod_nonneg v (by decide : (128 : Int) ≠ 0)
      have hdiv := Int.emod_add_mul_ediv v 128
      have hbyte : (v % 128).toNat < 128 := by omega
      have hcast : ((v % 128).toNat : Int) = v % 128 := Int.toNat_of_nonneg hnonneg
      have hpow : (2 : Int) ^ (shift + 7) = 2 ^ shift * 128 := pow_add 2 shift 7
      split
      next hstop =>
        unfold last at hstop
        simp only [Bool.or_eq_true, Bool.and_eq_true, beq_iff_eq, decide_eq_true_eq] at hstop
        rw [List.singleton_append]
        rcases hstop with ⟨hzero, hsmall⟩ | ⟨hneg, hlarge⟩
        · have hv : v = (v % 128).toNat := by omega
          rw [decodeBytes_last_pos hvalue hsmall hs, cell_last_pos hvalue hbyte hs hv]
        · have hv : v = (v % 128).toNat - 128 := by omega
          rw [decodeBytes_last_neg hvalue hlarge hbyte hs, cell_last_neg hvalue hbyte hs hv]
      next hmore =>
        have hrange : (2 : Int) ^ (63 - shift) = 128 * 2 ^ (63 - (shift + 7)) := by
          rw [show 63 - shift = 7 + (63 - (shift + 7)) by omega, pow_add]
          rfl
        have hsum := sum_lt hvalue hbyte
        rw [List.cons_append, decodeBytes_more hvalue hbyte hs]
        rw [ih (shift + 7) (by omega) (by omega) hsum (by omega) (by omega)]
        congr 3
        push_cast
        rw [hcast, hpow]
        linear_combination (2 : Int) ^ shift * hdiv

/-- **A value that was written is read back**, and the bytes after it are left. -/
theorem decode_encode (v : Int) (data : List Nat) :
    decode (encode v ++ data) = .ok (cell 64 v, data) := by
  have hlo : -2 ^ 63 ≤ v.bmod (2 ^ 64) := by
    have := @Int.le_bmod v (2 ^ 64) (by decide)
    omega
  have hhi : v.bmod (2 ^ 64) < 2 ^ 63 := by
    have := @Int.bmod_lt v (2 ^ 64) (by decide)
    omega
  have hread := decodeBytes_encodeBytes 10 0 (by decide) (by decide)
    Nat.one_pos hlo hhi data
  have hcell : cell 64 ((0 : Nat) + v.bmod (2 ^ 64) * 2 ^ 0) = cell 64 v := by
    rw [cell_eq_iff, pow_zero, mul_one, Nat.cast_zero, zero_add]
    exact Int.bmod_emod
  rw [← hcell]
  exact hread

end RvLlvm.Support.Sleb128
