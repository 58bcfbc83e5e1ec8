import Mathlib.Algebra.Order.Ring.Int
import Mathlib.Data.List.Basic

/-!
# Loads and stores at machine addresses

Memory as a function from addresses of `w` bits to bytes; addresses wrap. Nothing here names a
program.

* `load_store`: a load gives back what a store of its size at its address has put there.
* `load_store_of_disjoint`: a store elsewhere does not change it.
-/

namespace RvLlvm.Support

/-- A memory of bytes at addresses of `w` bits. -/
abbrev WordMemory (w : Nat) := BitVec w → BitVec 8

namespace WordMemory

variable {w : Nat}

/-- `n` bytes from `a` on, little-endian. -/
def load (m : WordMemory w) (a : BitVec w) : (n : Nat) → BitVec (8 * n)
  | 0 => 0#0
  | n + 1 => load m (a + 1#w) n ++ m a

/-- The low `n` bytes of `v` stored from `a` on. -/
def store {k : Nat} (m : WordMemory w) (a : BitVec w) (n : Nat) (v : BitVec k) : WordMemory w :=
  fun b =>
  if (b - a).toNat < n then v.extractLsb' (8 * (b - a).toNat) 8 else m b

theorem load_congr {m m' : WordMemory w} {a : BitVec w} {n : Nat}
    (h : ∀ k < n, m (a + BitVec.ofNat w k) = m' (a + BitVec.ofNat w k)) : load m a n = load m' a n := by
  induction n generalizing a with
  | zero => rfl
  | succ n ih =>
    have hfirst : m a = m' a := by simpa using h 0 (Nat.succ_pos n)
    rw [load, load, hfirst, ih]
    intro k hk
    have hnext := h (k + 1) (Nat.succ_lt_succ hk)
    rwa [BitVec.ofNat_add, BitVec.add_comm (BitVec.ofNat w k), ← BitVec.add_assoc] at hnext

/-- A load bit by bit. -/
theorem getLsbD_load (m : WordMemory w) (a : BitVec w) {n i : Nat} (h : i < 8 * n) :
    (load m a n).getLsbD i = (m (a + BitVec.ofNat w (i / 8))).getLsbD (i % 8) := by
  induction n generalizing a i with
  | zero => exact absurd h (Nat.not_lt_zero i)
  | succ n ih =>
    rw [load]
    have happ := BitVec.getLsbD_append (x := load m (a + 1#w) n) (y := m a) (i := i)
    refine happ.trans ?_
    by_cases hi : i < 8
    · rw [if_pos hi, Nat.div_eq_of_lt hi, Nat.mod_eq_of_lt hi]
      simp
    · have hdiv : i / 8 = (i - 8) / 8 + 1 := by omega
      have hmod : (i - 8) % 8 = i % 8 := by omega
      rw [if_neg hi, ih _ (by omega), hmod, hdiv, BitVec.ofNat_add,
        BitVec.add_comm (BitVec.ofNat w _), ← BitVec.add_assoc]

theorem load_store {k : Nat} (m : WordMemory w) (a : BitVec w) {n : Nat} (v : BitVec k)
    (hn : n ≤ 2 ^ w) :
    load (store m a n v) a n = v.setWidth (8 * n) := by
  refine BitVec.eq_of_getLsbD_eq fun i hi => ?_
  have hbyte : (a + BitVec.ofNat w (i / 8) - a).toNat = i / 8 := by
    rw [BitVec.add_comm, BitVec.add_sub_cancel, BitVec.toNat_ofNat]
    exact Nat.mod_eq_of_lt (by omega)
  rw [getLsbD_load _ _ hi, store, hbyte, if_pos (by omega), BitVec.getLsbD_extractLsb',
    BitVec.getLsbD_setWidth, Nat.div_add_mod]
  simp [hi, Nat.mod_lt]

/-- Ranges of addresses that do not meet. -/
def Disjoint (a : BitVec w) (n : Nat) (b : BitVec w) (l : Nat) : Prop :=
  ∀ i < n, ∀ j < l, a + BitVec.ofNat w i ≠ b + BitVec.ofNat w j

theorem load_store_of_disjoint {k : Nat} (m : WordMemory w) {a b : BitVec w} {n l : Nat}
    (v : BitVec k)
    (h : Disjoint a n b l) : load (store m b l v) a n = load m a n := by
  refine load_congr fun i hi => ?_
  rw [store, if_neg]
  intro hlt
  refine h i hi _ hlt ?_
  rw [BitVec.ofNat_toNat, BitVec.setWidth_eq, BitVec.add_comm b, BitVec.sub_add_cancel]

/-- Ranges at two offsets from one address, neither far from it, meet only if the offsets do. -/
theorem disjoint_of_offsets {o p : Int} {n l : Nat} (hw : 32 ≤ w) (base : BitVec w)
    (ho : -2 ^ 30 ≤ o ∧ o < 2 ^ 30) (hp : -2 ^ 30 ≤ p ∧ p < 2 ^ 30) (hn : n ≤ 8) (hl : l ≤ 8)
    (h : o + n ≤ p ∨ p + l ≤ o) :
    Disjoint (base + BitVec.ofInt w o) n (base + BitVec.ofInt w p) l := by
  intro i hi j hj heq
  have hsum : BitVec.ofInt w (o + i) = BitVec.ofInt w (p + j) := by
    rw [BitVec.ofInt_add, BitVec.ofInt_add, BitVec.ofInt_natCast, BitVec.ofInt_natCast]
    rw [BitVec.add_assoc, BitVec.add_assoc] at heq
    exact (BitVec.add_right_inj base).mp heq
  have hpow : 2 ^ 32 ≤ 2 ^ w := Nat.pow_le_pow_right (by decide) hw
  have hint := congrArg BitVec.toInt hsum
  rw [BitVec.toInt_ofInt, BitVec.toInt_ofInt] at hint
  generalize 2 ^ w = k at hpow hint
  rw [Int.bmod_eq_of_le (by omega) (by omega), Int.bmod_eq_of_le (by omega) (by omega)] at hint
  omega

end WordMemory

end RvLlvm.Support
