import RvLlvm.Support.BitField
import RvLlvm.Support.Memory

/-!
# Fields of byte blocks

A block of bytes is one little-endian number, and an access to some of its bytes an access to a
field of it. Nothing here names a program.

* `readAt`, `writeAt`: the number that some bytes of a block hold, read and written.
* `field_readAt`: a field of what is read is a field of the block.
* `leNat_writeAt`: setting a field of what was read sets that field of the block and nothing else.
-/

namespace RvLlvm.Support

theorem leNat_append (a b : List UInt8) : leNat (a ++ b) = leNat a + 256 ^ a.length * leNat b := by
  induction a with
  | nil => simp [leNat]
  | cons x a ih =>
    rw [List.cons_append, leNat, leNat, ih, List.length_cons, pow_succ]
    ring

theorem pow_256 (k : Nat) : (256 : Nat) ^ k = 2 ^ (8 * k) := by
  rw [pow_mul]
  norm_num

/-- The number in `n` bytes from `o` on, if the block has them. -/
def readAt (bs : List UInt8) (o n : Nat) : Option Nat :=
  if o + n ≤ bs.length then some (leNat ((bs.drop o).take n)) else none

/-- The block with `x` in `n` bytes from `o` on. -/
def writeAt (bs : List UInt8) (o n x : Nat) : List UInt8 :=
  bs.take o ++ (leBytes n x ++ bs.drop (o + n))

section Access

variable {bs : List UInt8} {o n : Nat}

theorem length_writeAt (h : o + n ≤ bs.length) (x : Nat) :
    (writeAt bs o n x).length = bs.length := by
  rw [writeAt, List.length_append, List.length_append, List.length_take, List.length_drop,
    length_leBytes]
  omega

/-- The parts of a block at an access. -/
theorem leNat_parts (h : o + n ≤ bs.length) :
    leNat bs = leNat (bs.take o) + 2 ^ (8 * o) *
      (leNat ((bs.drop o).take n) + 2 ^ (8 * n) * leNat (bs.drop (o + n))) := by
  have hsplit : bs = bs.take o ++ ((bs.drop o).take n ++ bs.drop (o + n)) := by
    rw [← List.drop_drop, List.take_append_drop, List.take_append_drop]
  conv_lhs => rw [hsplit]
  rw [leNat_append, leNat_append, List.length_take, List.length_take, List.length_drop,
    Nat.min_eq_left (by omega), Nat.min_eq_left (by omega), pow_256, pow_256]

theorem leNat_take_lt (bs : List UInt8) (n : Nat) : leNat (bs.take n) < 2 ^ (8 * n) := by
  refine (leNat_lt _).trans_le ?_
  rw [← pow_256]
  exact Nat.pow_le_pow_right (by decide) (List.length_take_le n bs)

/-- A field of what is read is a field of the block. -/
theorem field_readAt (h : o + n ≤ bs.length) {w : Nat} (hw : w ≤ 8 * n) :
    field 0 w (leNat ((bs.drop o).take n)) = field (8 * o) w (leNat bs) := by
  obtain ⟨k, hk⟩ := Nat.exists_eq_add_of_le hw
  rw [field, field, leNat_parts h, Nat.add_mul_div_left _ _ (Nat.two_pow_pos _),
    Nat.div_eq_of_lt (leNat_take_lt bs o), hk, pow_add, Nat.zero_add, pow_zero, Nat.div_one,
    Nat.mul_assoc, Nat.add_mul_mod_self_left]

theorem setField_zero_lt {w m x : Nat} (v : Int) (hw : w ≤ m) (hx : x < 2 ^ m) :
    setField 0 w v x < 2 ^ m := by
  obtain ⟨k, rfl⟩ := Nat.exists_eq_add_of_le hw
  have hv := low_lt v w
  have hdiv : x / 2 ^ w < 2 ^ k := by
    rw [Nat.div_lt_iff_lt_mul (Nat.two_pow_pos w), Nat.mul_comm, ← pow_add]
    exact hx
  have hmul := Nat.mul_le_mul_right (2 ^ w) (Nat.succ_le_of_lt hdiv)
  rw [setField, pow_zero, Nat.mod_one, Nat.zero_add, Nat.zero_add, Nat.mul_one, pow_add,
    Nat.mul_comm (2 ^ w)]
  rw [Nat.succ_mul] at hmul
  omega

/-- **A field that is set in place**: the block's number has that field set. -/
theorem leNat_writeAt (h : o + n ≤ bs.length) {w : Nat} (hw : w ≤ 8 * n) (v : Int) :
    leNat (writeAt bs o n (setField 0 w v (leNat ((bs.drop o).take n)))) =
      setField (8 * o) w v (leNat bs) := by
  have hlt := setField_zero_lt v hw (leNat_take_lt (bs.drop o) n)
  have hbytes : leNat (leBytes n (setField 0 w v (leNat ((bs.drop o).take n)))) =
      setField 0 w v (leNat ((bs.drop o).take n)) := by
    rw [← pow_256] at hlt
    exact leNat_leBytes hlt
  obtain ⟨k, hk⟩ := Nat.exists_eq_add_of_le hw
  rw [writeAt, leNat_append, leNat_append, hbytes, length_leBytes, List.length_take,
    Nat.min_eq_left (by omega), pow_256, pow_256, leNat_parts h]
  have hlow := leNat_take_lt bs o
  generalize leNat (bs.take o) = a at hlow ⊢
  generalize leNat ((bs.drop o).take n) = m
  generalize leNat (bs.drop (o + n)) = b
  rw [setField, setField, hk, pow_add 2 (8 * o) w, ← Nat.div_div_eq_div_mul,
    Nat.add_mul_mod_self_left, Nat.mod_eq_of_lt hlow, Nat.add_mul_div_left _ _ (Nat.two_pow_pos _),
    Nat.div_eq_of_lt hlow, Nat.zero_add, Nat.zero_add, pow_add 2 w k, Nat.mul_assoc (2 ^ w),
    Nat.add_mul_div_left _ _ (Nat.two_pow_pos w), pow_zero, Nat.mod_one, Nat.zero_add]
  ring

end Access

end RvLlvm.Support
