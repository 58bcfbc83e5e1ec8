import Mathlib.Algebra.Order.Ring.Int
import Mathlib.Data.List.Basic
import Mathlib.Logic.Function.Basic

/-!
# Byte memory

Memory as a function from addresses to bytes, with the two loops of a C library on it, and
little-endian numbers. Nothing here names a program.

* `copy`, `fill`: the byte loops of `memcpy` and `memset`, from low to high.
* `copy_apply`, `fill_apply`: what they leave where, for a copy whose two ranges do not overlap.
* `leBytes`, `leNat`: numbers as bytes; `readNat` reads one from memory, `readWord` takes one from a
  byte list.
-/

namespace RvLlvm.Support

/-- A memory of bytes. -/
abbrev Memory := Nat → UInt8

namespace Memory

/-- `memcpy` of `n` bytes to `d` from `s`. -/
def copy (m : Memory) (d s : Nat) : Nat → Memory
  | 0 => m
  | n + 1 => copy (Function.update m d (m s)) (d + 1) (s + 1) n

/-- `memset` of `n` bytes from `d` to `c`. -/
def fill (m : Memory) (d : Nat) (c : UInt8) : Nat → Memory
  | 0 => m
  | n + 1 => fill (Function.update m d c) (d + 1) c n

attribute [local grind =] copy fill

theorem fill_apply (m : Memory) (d : Nat) (c : UInt8) (n a : Nat) :
    m.fill d c n a = if d ≤ a ∧ a < d + n then c else m a := by
  induction n generalizing m d with
  | zero =>
    rw [fill, if_neg]
    omega
  | succ n ih =>
    rw [fill, ih]
    by_cases ha : a = d
    · rw [if_neg (by omega), if_pos (by omega), ha, Function.update_self]
    · by_cases hin : d + 1 ≤ a ∧ a < d + 1 + n
      · rw [if_pos hin, if_pos (by omega)]
      · rw [if_neg hin, if_neg (by omega), Function.update_of_ne ha]

theorem copy_apply (m : Memory) {d s n : Nat} (h : d + n ≤ s ∨ s + n ≤ d) (a : Nat) :
    m.copy d s n a = if d ≤ a ∧ a < d + n then m (s + (a - d)) else m a := by
  induction n generalizing m d s with
  | zero =>
    rw [copy, if_neg]
    omega
  | succ n ih =>
    rw [copy, ih _ (by omega)]
    by_cases ha : a = d
    · rw [if_neg (by omega), if_pos (by omega), ha, Function.update_self, Nat.sub_self,
        Nat.add_zero]
    · by_cases hin : d + 1 ≤ a ∧ a < d + 1 + n
      · rw [if_pos hin, if_pos (by omega), Function.update_of_ne (by omega)]
        congr 1
        omega
      · rw [if_neg hin, if_neg (by omega), Function.update_of_ne ha]

/-- A copy leaves what is outside its target, wherever its source lies. -/
theorem copy_apply_of_not (m : Memory) (d s n : Nat) {a : Nat} (h : ¬ (d ≤ a ∧ a < d + n)) :
    m.copy d s n a = m a := by
  induction n generalizing m d s with
  | zero => rfl
  | succ n ih =>
    rw [copy, ih _ _ _ (by omega), Function.update_of_ne (by omega)]

/-- The memory with the bytes `bs` from `d` on. -/
def write (m : Memory) (d : Nat) (bs : List UInt8) : Memory := fun a =>
  if d ≤ a then (bs[a - d]?).getD (m a) else m a

attribute [local grind =] write

theorem write_of_lt (m : Memory) {d i : Nat} {bs : List UInt8} (h : i < bs.length) :
    m.write d bs (d + i) = bs[i] := by
  rw [write, if_pos (Nat.le_add_right d i), Nat.add_sub_cancel_left, List.getElem?_eq_getElem h]
  rfl

theorem write_of_not (m : Memory) {d a : Nat} {bs : List UInt8}
    (h : ¬ (d ≤ a ∧ a < d + bs.length)) : m.write d bs a = m a := by
  rw [write]
  split
  · rw [List.getElem?_eq_none (by omega)]
    rfl
  · rfl

end Memory

/-! ## Little-endian numbers -/

/-- The low `k` bytes of `n`. -/
def leBytes : Nat → Nat → List UInt8
  | 0, _ => []
  | k + 1, n => UInt8.ofNat n :: leBytes k (n / 256)

/-- The number that `bs` holds. -/
def leNat : List UInt8 → Nat
  | [] => 0
  | b :: bs => b.toNat + 256 * leNat bs

attribute [local grind =] leBytes leNat

@[simp] theorem length_leBytes (k n : Nat) : (leBytes k n).length = k := by
  induction k generalizing n with
  | zero => rfl
  | succ k ih => rw [leBytes, List.length_cons, ih]

theorem leNat_leBytes_mod (k n : Nat) : leNat (leBytes k n) = n % 256 ^ k := by
  induction k generalizing n with
  | zero => exact (Nat.mod_one n).symm
  | succ k ih =>
    have hsplit : n % 256 ^ (k + 1) = n % 256 + 256 * (n / 256 % 256 ^ k) := by
      rw [Nat.pow_succ, Nat.mul_comm, Nat.mod_mul]
    rw [leBytes, leNat, ih, UInt8.toNat_ofNat', hsplit]

theorem leNat_leBytes {k n : Nat} (h : n < 256 ^ k) : leNat (leBytes k n) = n := by
  rw [leNat_leBytes_mod, Nat.mod_eq_of_lt h]

theorem leNat_lt (bs : List UInt8) : leNat bs < 256 ^ bs.length := by
  induction bs with
  | nil => exact Nat.one_pos
  | cons b bs ih =>
    have hb := b.toNat_lt
    rw [leNat, List.length_cons, Nat.pow_succ]
    omega

namespace Memory

/-- The number in the `k` bytes from `d` on. -/
def readNat (m : Memory) (d : Nat) : Nat → Nat
  | 0 => 0
  | k + 1 => (m d).toNat + 256 * readNat m (d + 1) k

attribute [local grind =] readNat

theorem readNat_congr {m m' : Memory} {d d' k : Nat} (h : ∀ i < k, m (d + i) = m' (d' + i)) :
    m.readNat d k = m'.readNat d' k := by
  induction k generalizing d d' with
  | zero => rfl
  | succ k ih =>
    have hfirst : m d = m' d' := h 0 (Nat.succ_pos k)
    rw [readNat, readNat, hfirst, ih fun i hi => ?_]
    rw [Nat.add_right_comm, Nat.add_right_comm d']
    exact h (i + 1) (Nat.succ_lt_succ hi)

theorem readNat_lt (m : Memory) (d k : Nat) : m.readNat d k < 256 ^ k := by
  induction k generalizing d with
  | zero => exact Nat.one_pos
  | succ k ih =>
    have hb := (m d).toNat_lt
    have hrest := ih (d + 1)
    rw [readNat, Nat.pow_succ]
    omega

/-- A number by its low and its high bytes. -/
theorem readNat_add (m : Memory) (d j k : Nat) :
    m.readNat d (j + k) = m.readNat d j + 256 ^ j * m.readNat (d + j) k := by
  induction j generalizing d with
  | zero => simp [readNat]
  | succ j ih =>
    rw [Nat.succ_add, readNat, readNat, ih, Nat.add_assoc d 1 j, Nat.add_comm 1 j, Nat.pow_succ,
      Nat.mul_add, Nat.add_assoc, Nat.mul_comm _ 256, Nat.mul_assoc]

theorem readNat_eq_leNat (m : Memory) (d : Nat) (bs : List UInt8)
    (h : ∀ i (hi : i < bs.length), m (d + i) = bs[i]) : m.readNat d bs.length = leNat bs := by
  induction bs generalizing d with
  | nil => rfl
  | cons b bs ih =>
    have hfirst : m d = b := h 0 (Nat.succ_pos _)
    rw [List.length_cons, readNat, leNat, hfirst, ih (d + 1) fun i hi => ?_]
    rw [Nat.add_assoc, Nat.add_comm 1 i]
    exact h (i + 1) (Nat.succ_lt_succ hi)

theorem readNat_write (m : Memory) (d k n : Nat) :
    (m.write d (leBytes k n)).readNat d k = n % 256 ^ k := by
  have h := readNat_eq_leNat (m.write d (leBytes k n)) d (leBytes k n)
    fun i hi => write_of_lt m hi
  rwa [length_leBytes, leNat_leBytes_mod] at h

end Memory

/-- A 32-bit number from the front of `bs`, and the rest. -/
def readWord (bs : List UInt8) : Option (Nat × List UInt8) :=
  if 4 ≤ bs.length then some (leNat (bs.take 4), bs.drop 4) else none

theorem readWord_leBytes {n : Nat} (h : n < 2 ^ 32) (bs : List UInt8) :
    readWord (leBytes 4 n ++ bs) = some (n, bs) := by
  have hlen : (leBytes 4 n).length = 4 := length_leBytes 4 n
  rw [readWord, if_pos (by rw [List.length_append]; omega), List.take_left' hlen,
    List.drop_left' hlen, leNat_leBytes h]

end RvLlvm.Support
