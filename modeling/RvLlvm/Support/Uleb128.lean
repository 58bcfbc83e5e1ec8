import Mathlib.Tactic.Ring
import RvLlvm.Support.Leb128

/-!
# Unsigned LEB128

An unsigned 64-bit value as bytes of seven bits each, lowest first; every byte but the last has its
high bit set. Nothing here names a program.

* `encode`, `decode`: the writer and the reader of one value.
* `decode_encode`: what was written is read back, and the bytes after it are left.
* `decode_append`: a value is read the same whatever follows it; `Sleb128.decode_append` the same of
  signed values.
-/

namespace RvLlvm.Support.Uleb128

/-- The bytes of `n`, for at most `turns` turns. -/
def encodeBytes : Nat → Nat → List Nat
  | 0, _ => []
  | turns + 1, n => if n / 128 = 0 then [n % 128] else (n % 128 + 128) :: encodeBytes
    turns (n / 128)

/-- The bytes of a 64-bit value; ten turns are enough. -/
def encode (n : Nat) : List Nat := encodeBytes 10 n

/-- The value and the bytes left; `value` holds the bits below `shift`. A value that does not fit 64
bits, or that has no end, is refused. -/
def decodeBytes (value shift : Nat) : List Nat → Option (Nat × List Nat)
  | [] => none
  | byte :: data =>
    let slice := byte % 128
    if (64 ≤ shift && slice != 0) || slice * 2 ^ shift % 2 ^ 64 / 2 ^ shift != slice then none
    else if 128 ≤ byte then decodeBytes (value + slice * 2 ^ shift) (shift + 7) data
    else some (value + slice * 2 ^ shift, data)

def decode (data : List Nat) : Option (Nat × List Nat) := decodeBytes 0 0 data

theorem decodeBytes_encodeBytes (turns : Nat) {value shift n : Nat} (hn : n < 128 ^ turns)
    (hturns : 0 < turns) (hfit : n * 2 ^ shift < 2 ^ 64) (data : List Nat) :
    decodeBytes value shift (encodeBytes turns n ++ data) = some (value + n * 2 ^ shift, data) := by
  induction turns generalizing value shift n with
  | zero => exact absurd hturns (Nat.lt_irrefl 0)
  | succ turns ih =>
    have hpow : 0 < 2 ^ shift := by positivity
    have hslice : n % 128 * 2 ^ shift ≤ n * 2 ^ shift := Nat.mul_le_mul_right _ (Nat.mod_le n 128)
    have hcheck : n % 128 * 2 ^ shift % 2 ^ 64 / 2 ^ shift = n % 128 := by
      rw [Nat.mod_eq_of_lt (by omega), Nat.mul_div_cancel _ hpow]
    have hwide : 64 ≤ shift → n % 128 = 0 := fun hs => by
      have hle : 2 ^ 64 ≤ 2 ^ shift := Nat.pow_le_pow_right (by decide) hs
      have hzero : n = 0 := by
        by_contra hne
        have hone : 1 * 2 ^ shift ≤ n * 2 ^ shift := Nat.mul_le_mul_right _ (Nat.pos_of_ne_zero hne)
        omega
      rw [hzero]
    have hok : ((64 ≤ shift && n % 128 != 0) ||
        n % 128 * 2 ^ shift % 2 ^ 64 / 2 ^ shift != n % 128) = false := by
      rw [hcheck]
      simpa using hwide
    rw [encodeBytes]
    split
    · next hlast =>
      have hmod : n % 128 % 128 = n % 128 := Nat.mod_mod n 128
      have hval : n % 128 = n := by omega
      rw [List.cons_append, decodeBytes, hmod, hok, if_neg (by simp), if_neg (by omega), hval]
      rfl
    · next hmore =>
      have hmod : (n % 128 + 128) % 128 = n % 128 := by omega
      have hsplit : n * 2 ^ shift = n % 128 * 2 ^ shift + n / 128 * 2 ^ (shift + 7) := by
        conv_lhs => rw [← Nat.mod_add_div n 128]
        rw [pow_add]
        ring
      have hrest : 0 < turns := by
        by_contra hzero
        obtain rfl : turns = 0 := by omega
        omega
      rw [List.cons_append, decodeBytes, hmod, hok, if_neg (by simp), if_pos (by omega),
        ih (by rw [pow_succ] at hn; omega) hrest (by omega), hsplit, Nat.add_assoc]

/-- **A value that was written is read back**, and the bytes after it are left. -/
theorem decode_encode {n : Nat} (hn : n < 2 ^ 64) (data : List Nat) :
    decode (encode n ++ data) = some (n, data) := by
  have hread : decodeBytes 0 0 (encodeBytes 10 n ++ data) = some (0 + n * 2 ^ 0, data) :=
    decodeBytes_encodeBytes 10 (by omega) (by decide) (by omega) data
  rw [decode, encode, hread]
  simp

theorem decodeBytes_append {data rest : List Nat} {v : Nat} (more : List Nat) {value shift : Nat}
    (h : decodeBytes value shift data = some (v, rest)) :
    decodeBytes value shift (data ++ more) = some (v, rest ++ more) := by
  induction data generalizing value shift with
  | nil => exact absurd h (by simp [decodeBytes])
  | cons byte data ih =>
    rw [decodeBytes] at h
    rw [List.cons_append, decodeBytes]
    split at h
    · exact absurd h (by simp)
    · next hok =>
      rw [if_neg hok]
      split at h
      · next hmore =>
        rw [if_pos hmore]
        exact ih h
      · next hlast =>
        rw [if_neg hlast]
        obtain ⟨rfl, rfl⟩ := Prod.mk.inj (Option.some.inj h)
        rfl

/-- A value is read the same whatever follows it. -/
theorem decode_append {data rest : List Nat} {v : Nat} (h : decode data = some (v, rest))
    (more : List Nat) : decode (data ++ more) = some (v, rest ++ more) :=
  decodeBytes_append more h

end RvLlvm.Support.Uleb128

namespace RvLlvm.Support.Sleb128

theorem decodeBytes_append {data rest : List Nat} {v : Nat} (more : List Nat) {value shift : Nat}
    (h : decodeBytes value shift data = .ok (v, rest)) :
    decodeBytes value shift (data ++ more) = .ok (v, rest ++ more) := by
  induction data generalizing value shift with
  | nil => exact absurd h (by simp [decodeBytes])
  | cons byte data ih =>
    rw [decodeBytes] at h
    rw [List.cons_append, decodeBytes]
    generalize (64 ≤ shift && byte % 128 != (if 2 ^ 63 ≤ value then 0x7f else 0) ||
      shift == 63 && byte % 128 != 0 && byte % 128 != 0x7f) = tooBig at h ⊢
    cases tooBig with
    | true => exact absurd h (by simp)
    | false =>
      rw [if_neg Bool.false_ne_true] at h ⊢
      split at h
      · next hmore =>
        rw [if_pos hmore]
        exact ih h
      · next hlast =>
        rw [if_neg hlast]
        split at h
        · next hneg =>
          rw [if_pos hneg]
          obtain ⟨rfl, rfl⟩ := Prod.mk.inj (Except.ok.inj h)
          rfl
        · next hpos =>
          rw [if_neg hpos]
          obtain ⟨rfl, rfl⟩ := Prod.mk.inj (Except.ok.inj h)
          rfl

/-- A signed value is read the same whatever follows it. -/
theorem decode_append {data rest : List Nat} {v : Nat} (h : decode data = .ok (v, rest))
    (more : List Nat) : decode (data ++ more) = .ok (v, rest ++ more) :=
  decodeBytes_append more h

end RvLlvm.Support.Sleb128
