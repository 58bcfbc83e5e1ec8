import Mathlib.Data.BitVec
import Mathlib.Data.Nat.Size
import Mathlib.Data.Nat.Sqrt
import Mathlib.Tactic.Linarith
import Mathlib.Tactic.Ring
import RvLlvm.Support.WordOrder

/-!
# Square roots of words

Model of `APInt::sqrt` (`llvm/lib/Support/APInt.cpp:1162-1241`). A failed assertion and a division by
zero have no result; the root that the C library computes for values of less than 52 bits is a
parameter.

* `babylonian_eq`: the loop ends at the root, rounded down, and no sum in it wraps.
* `sqrt_eq`: what is returned when the square behind the root fits.
* `sqrt_right_iff`: the result is the nearest integer, without a wrapped product, exactly where that
  square fits the width and the value is no product of two consecutive numbers.
-/

namespace RvLlvm.APInt.SquareRoot

open Support.WordOrder

variable {W : Nat}

/-- `getActiveBits`. -/
def getActiveBits (x : BitVec W) : Nat := x.toNat.size

/-- The table for the values of at most five bits. -/
def results : List Nat :=
  [0, 1, 1, 2, 2, 2, 2, 3, 3, 3, 3, 3, 3, 4, 4, 4, 4, 4, 4, 4, 4,
    5, 5, 5, 5, 5, 5, 5, 5, 5, 5, 6]

/-- The search for the starting value from `i` on. -/
def startingValue (n : BitVec W) (i : Nat) (testy : BitVec W) : BitVec W :=
  if W ≤ i ∨ n ≤ testy then 1#W <<< (i / 2) else startingValue n (i + 2) (testy <<< 2)
termination_by W - i

/-- `x_new`. -/
def next (n x_old : BitVec W) : BitVec W := (n / x_old + x_old) / 2#W

/-- The Babylonian loop. -/
def babylonian (n x_old : BitVec W) : Option (BitVec W) :=
  if x_old = 0 then none
  else if x_old ≤ next n x_old then some x_old
  else babylonian n (next n x_old)
termination_by x_old.toNat
decreasing_by exact BitVec.lt_def.mp (BitVec.not_le.mp ‹_›)

/-- The choice between the last value of the loop and the one behind it. -/
def closest (n x_old : BitVec W) : Option (BitVec W) :=
  let square := x_old * x_old
  let nextSquare := (x_old + 1) * (x_old + 1)
  if n < square then some x_old
  else if ¬n ≤ nextSquare then none
  else
    let midpoint := (nextSquare - square) / 2#W
    let offset := n - square
    if offset < midpoint then some x_old else some (x_old + 1)

/-- The first value of the loop. -/
def first (n : BitVec W) : BitVec W := startingValue n 4 16#W

/-- `sqrt`. -/
def sqrt (libc : Nat → Nat) (n : BitVec W) : Option (BitVec W) :=
  if getActiveBits n ≤ 5 then some (BitVec.ofNat W (results.getD n.toNat 0))
  else if getActiveBits n < 52 then some (BitVec.ofNat W (libc n.toNat))
  else (babylonian n (first n)).bind (closest n)

/-! ## What is asked of a root -/

/-- `r` is at most a half away from the root of `n`. -/
def Nearest (n r : Nat) : Prop := (2 * r - 1) ^ 2 ≤ 4 * n ∧ 4 * n ≤ (2 * r + 1) ^ 2

instance (n r : Nat) : Decidable (Nearest n r) := inferInstanceAs (Decidable (_ ∧ _))

/-- The rule the table follows. -/
theorem nearest_results : ∀ n < 32, Nearest n (results.getD n 0) := by decide

/-- The values the loop goes through. -/
inductive Visits (n : BitVec W) : BitVec W → Prop
  | first : Visits n (first n)
  | next {x : BitVec W} : Visits n x → next n x < x → Visits n (next n x)

/-- No sum of the loop wraps, and neither of the two squares behind it. -/
structure Unwrapped (n : BitVec W) : Prop where
  sums : ∀ x, Visits n x → (n / x).toNat + x.toNat < 2 ^ W
  squares : ∀ x, babylonian n (first n) = some x →
    x.toNat ^ 2 < 2 ^ W ∧ (x.toNat + 1) ^ 2 < 2 ^ W

/-- A result, the nearest one, computed without wrapping. -/
def Right (libc : Nat → Nat) (n : BitVec W) : Prop :=
  Unwrapped n ∧ ∃ r, sqrt libc n = some r ∧ Nearest n.toNat r.toNat

/-! ## Newton's step on numbers -/

section Newton

variable {n x : Nat}

/-- A step does not go below the root. -/
theorem sqrt_le_newton (hx : 0 < x) : n.sqrt ≤ (n / x + x) / 2 := by
  have hsq : n.sqrt * n.sqrt ≤ n := n.sqrt_le
  rw [Nat.le_div_iff_mul_le (by decide)]
  rcases Nat.le_total (n.sqrt * 2) x with h | h
  · exact h.trans (Nat.le_add_left _ _)
  · obtain ⟨d, hd⟩ := Nat.exists_eq_add_of_le h
    have hquot : d ≤ n / x := by
      rw [Nat.le_div_iff_mul_le hx]
      nlinarith [sq_nonneg ((n.sqrt : Int) - x)]
    omega

/-- A step from above the root that does not go down was at the root. -/
theorem eq_sqrt_of_le_newton (hx : 0 < x) (hle : n.sqrt ≤ x) (hstop : x ≤ (n / x + x) / 2) :
    x = n.sqrt := by
  have hquot : x ≤ n / x := by omega
  rw [Nat.le_div_iff_mul_le hx] at hquot
  exact Nat.le_antisymm (Nat.le_sqrt.mpr hquot) hle

/-- The sum of a step is small. -/
theorem newton_sum_le (hn : 0 < n) (hle : n.sqrt ≤ x) : n / x + x ≤ 2 * x + 2 := by
  have hs : 0 < n.sqrt := Nat.sqrt_pos.mpr hn
  have hquot : n / x ≤ n.sqrt + 2 := by
    rw [Nat.div_le_iff_le_mul_add_pred (by omega)]
    have hlt := n.sqrt_le_add
    nlinarith
  omega

end Newton

/-! ## The loop -/

/-- The starting value is a power of two above the root. -/
theorem startingValue_spec (n : BitVec W) (i : Nat) (testy : BitVec W) (heven : i % 2 = 0)
    (hi : i ≤ W + 1) (hW : 2 ≤ W) (htesty : i < W → testy.toNat = 2 ^ i) :
    n.toNat.sqrt ≤ (startingValue n i testy).toNat ∧ 0 < (startingValue n i testy).toNat ∧
      (startingValue n i testy).toNat ≤ 2 ^ ((W + 1) / 2) := by
  induction i, testy using startingValue.induct (n := n) with
  | case1 i testy hstop =>
    have hhalf : i / 2 + i / 2 = i := by omega
    have hn : n.toNat ≤ 2 ^ i := by
      rcases Nat.lt_or_ge i W with hlt | hge
      · have hle := hstop.resolve_left (Nat.not_le.mpr hlt)
        rw [BitVec.le_def, htesty hlt] at hle
        exact hle
      · exact n.isLt.le.trans (Nat.pow_le_pow_right (by decide) hge)
    have hval : (1#W <<< (i / 2)).toNat = 2 ^ (i / 2) := by
      rw [BitVec.toNat_shiftLeft, BitVec.toNat_ofNat, Nat.mod_eq_of_lt (Nat.one_lt_two_pow (by omega)),
        Nat.one_shiftLeft]
      exact Nat.mod_eq_of_lt (Nat.pow_lt_pow_right (by decide) (by omega))
    rw [startingValue, if_pos hstop, hval]
    refine ⟨?_, Nat.two_pow_pos _, Nat.pow_le_pow_right (by decide) (by omega)⟩
    rw [← Nat.lt_succ_iff, Nat.sqrt_lt]
    calc n.toNat ≤ 2 ^ (i / 2) * 2 ^ (i / 2) := by rw [← Nat.pow_add, hhalf]; exact hn
      _ < _ := Nat.mul_self_lt_mul_self (Nat.lt_succ_self _)
  | case2 i testy hgo ih =>
    rw [not_or, Nat.not_le] at hgo
    rw [startingValue, if_neg (by rw [not_or, Nat.not_le]; exact hgo)]
    refine ih (by omega) (by omega) fun hlt => ?_
    rw [BitVec.toNat_shiftLeft, htesty hgo.1, Nat.shiftLeft_eq, ← Nat.pow_add]
    exact Nat.mod_eq_of_lt (Nat.pow_lt_pow_right (by decide) hlt)

theorem first_spec (n : BitVec W) (hW : 5 ≤ W) :
    n.toNat.sqrt ≤ (first n).toNat ∧ 0 < (first n).toNat ∧ (first n).toNat ≤ 2 ^ ((W + 1) / 2) := by
  refine startingValue_spec n 4 16#W rfl (by omega) (by omega) fun _ => ?_
  have hpow : 2 ^ 4 < 2 ^ W := Nat.pow_lt_pow_right Nat.one_lt_two (by omega)
  rw [BitVec.toNat_ofNat]
  exact Nat.mod_eq_of_lt hpow

theorem toNat_two (hW : 2 ≤ W) : (2#W).toNat = 2 := by
  rw [BitVec.toNat_ofNat]
  exact Nat.mod_eq_of_lt (Nat.lt_of_lt_of_le (by decide) (Nat.pow_le_pow_right (by decide) hW))

/-- What holds of every value of the loop. -/
structure Above (n x : BitVec W) : Prop where
  root : n.toNat.sqrt ≤ x.toNat
  pos : 0 < x.toNat
  bound : x.toNat ≤ 2 ^ ((W + 1) / 2)

section Loop

variable {n x : BitVec W}

/-- No sum wraps above the root. -/
theorem Above.sum_lt (h : Above n x) (hW : 6 ≤ W) (hn : 0 < n.toNat) :
    (n / x).toNat + x.toNat < 2 ^ W := by
  have hsum := newton_sum_le hn h.root
  have hbound := h.bound
  have hpow : 2 ^ ((W + 1) / 2) * 2 ^ 2 ≤ 2 ^ W := by
    rw [← Nat.pow_add]
    exact Nat.pow_le_pow_right Nat.two_pos (by omega)
  have htwo : 2 ^ 1 < 2 ^ ((W + 1) / 2) := Nat.pow_lt_pow_right Nat.one_lt_two (by omega)
  rw [BitVec.toNat_udiv]
  omega

theorem Above.toNat_next (h : Above n x) (hW : 6 ≤ W) (hn : 0 < n.toNat) :
    (next n x).toNat = (n.toNat / x.toNat + x.toNat) / 2 := by
  have hsum := h.sum_lt hW hn
  rw [next, BitVec.toNat_udiv, BitVec.toNat_add, Nat.mod_eq_of_lt hsum, BitVec.toNat_udiv,
    toNat_two (by omega)]

theorem Above.next (h : Above n x) (hW : 6 ≤ W) (hn : 0 < n.toNat) (hlt : next n x < x) :
    Above n (next n x) := by
  have hval := h.toNat_next hW hn
  have hroot : n.toNat.sqrt ≤ (SquareRoot.next n x).toNat := by
    rw [hval]
    exact sqrt_le_newton h.pos
  exact ⟨hroot, (Nat.sqrt_pos.mpr hn).trans_le hroot, (BitVec.lt_def.mp hlt).le.trans h.bound⟩

/-- The loop ends at the root. -/
theorem babylonian_eq (hW : 6 ≤ W) (hn : 0 < n.toNat) (h : Above n x) :
    ∃ r, babylonian n x = some r ∧ r.toNat = n.toNat.sqrt := by
  induction x using babylonian.induct (n := n) with
  | case1 => exact absurd h.pos (by simp)
  | case2 x h0 hstop =>
    rw [babylonian, if_neg h0, if_pos hstop]
    rw [BitVec.le_def, h.toNat_next hW hn] at hstop
    exact ⟨x, rfl, eq_sqrt_of_le_newton h.pos h.root hstop⟩
  | case3 x h0 hgo ih =>
    rw [babylonian, if_neg h0, if_neg hgo]
    exact ih (h.next hW hn (BitVec.not_le.mp hgo))

end Loop

/-! ## The result -/

section Result

variable {n : BitVec W}

theorem visits_above (hW : 6 ≤ W) (hn : 0 < n.toNat) {x : BitVec W} (h : Visits n x) :
    Above n x := by
  induction h with
  | first =>
    obtain ⟨hroot, hpos, hbound⟩ := first_spec n (by omega)
    exact ⟨hroot, hpos, hbound⟩
  | next _ hlt ih => exact ih.next hW hn hlt

/-- The number of bits of a value bounds the width, and keeps the value from zero. -/
theorem width_of_bits (h : 52 ≤ getActiveBits n) : 52 ≤ W ∧ 0 < n.toNat := by
  refine ⟨h.trans (Nat.size_le.mpr n.isLt), Nat.pos_of_ne_zero fun h0 => ?_⟩
  rw [getActiveBits, h0] at h
  exact absurd h (by decide)

/-- The root of a word and one less than its square both fit. -/
theorem sqrt_fits (n : BitVec W) : n.toNat.sqrt * n.toNat.sqrt < 2 ^ W :=
  n.toNat.sqrt_le.trans_lt n.isLt

/-- **The last step**, from the root rounded down, when the square behind it fits. -/
theorem closest_eq {x : BitVec W} (hW : 2 ≤ W) (hx : x.toNat = n.toNat.sqrt)
    (hfits : (n.toNat.sqrt + 1) * (n.toNat.sqrt + 1) < 2 ^ W) :
    ∃ r, closest n x = some r ∧
      r.toNat = if n.toNat < n.toNat.sqrt * n.toNat.sqrt + n.toNat.sqrt then n.toNat.sqrt
        else n.toNat.sqrt + 1 := by
  have hle := n.toNat.sqrt_le
  have hlt := n.toNat.lt_succ_sqrt
  rw [Nat.succ_eq_add_one] at hlt
  generalize hs : n.toNat.sqrt = s at *
  have hexpand : (s + 1) * (s + 1) = s * s + (2 * s + 1) := by ring
  have hone : (x + 1).toNat = s + 1 := by
    rw [BitVec.toNat_add, hx, toNat_one (by omega)]
    exact Nat.mod_eq_of_lt (by nlinarith)
  have hsquare : (x * x).toNat = s * s := by
    rw [BitVec.toNat_mul, hx]
    exact Nat.mod_eq_of_lt (by omega)
  have hnext : ((x + 1) * (x + 1)).toNat = (s + 1) * (s + 1) := by
    rw [BitVec.toNat_mul, hone]
    exact Nat.mod_eq_of_lt hfits
  have hmid : (((x + 1) * (x + 1) - x * x) / 2#W).toNat = s := by
    have hsub := toNat_sub_cases ((x + 1) * (x + 1)) (x * x)
    rw [hnext, hsquare] at hsub
    rw [BitVec.toNat_udiv, toNat_two hW]
    omega
  have hoffset : (n - x * x).toNat = n.toNat - s * s := by
    have hsub := toNat_sub_cases n (x * x)
    rw [hsquare] at hsub
    omega
  rw [closest, if_neg (by rw [BitVec.lt_def, hsquare]; omega),
    if_neg (not_not.mpr (by rw [BitVec.le_def, hnext]; omega))]
  simp only [BitVec.lt_def, hmid, hoffset]
  split
  · exact ⟨x, rfl, by rw [if_pos (by omega), hx]⟩
  · exact ⟨x + 1, rfl, by rw [if_neg (by omega), hone]⟩

/-- **The root of a value of many bits.** -/
theorem sqrt_eq (libc : Nat → Nat) (h : 52 ≤ getActiveBits n)
    (hfits : (n.toNat.sqrt + 1) * (n.toNat.sqrt + 1) < 2 ^ W) :
    ∃ r, sqrt libc n = some r ∧
      r.toNat = if n.toNat < n.toNat.sqrt * n.toNat.sqrt + n.toNat.sqrt then n.toNat.sqrt
        else n.toNat.sqrt + 1 := by
  obtain ⟨hW, hn⟩ := width_of_bits h
  obtain ⟨x, hloop, hx⟩ := babylonian_eq (by omega) hn (visits_above (by omega) hn .first)
  obtain ⟨r, hr, hval⟩ := closest_eq (by omega) hx hfits
  refine ⟨r, ?_, hval⟩
  rw [sqrt, if_neg (by omega), if_neg (by omega), hloop, Option.bind_some, hr]

/-- Which of the two neighbours of a root is the nearer. -/
theorem nearest_iff (n : Nat) :
    Nearest n (if n < n.sqrt * n.sqrt + n.sqrt then n.sqrt else n.sqrt + 1) ↔
      n ≠ n.sqrt * (n.sqrt + 1) := by
  have hle := n.sqrt_le
  have hlt := n.lt_succ_sqrt
  rw [Nat.succ_eq_add_one] at hlt
  generalize n.sqrt = s at *
  have hlow : (2 * s + 1) ^ 2 = 4 * (s * s + s) + 1 := by ring
  have hhigh : (2 * (s + 1) + 1) ^ 2 = 4 * ((s + 1) * (s + 1)) + 4 * s + 5 := by ring
  have hdown : (2 * s - 1) ^ 2 ≤ 4 * (s * s) := by
    calc (2 * s - 1) ^ 2 ≤ (2 * s) ^ 2 := Nat.pow_le_pow_left (Nat.sub_le _ _) 2
      _ = 4 * (s * s) := by ring
  have hprod : s * (s + 1) = s * s + s := by ring
  unfold Nearest
  split
  · omega
  · rw [show 2 * (s + 1) - 1 = 2 * s + 1 by omega]
    omega

/-- **The result is the nearest integer, and no step that decides it wraps, exactly where the square
behind the root fits and the value is no product of two consecutive numbers.** -/
theorem sqrt_right_iff (libc : Nat → Nat) (n : BitVec W) (h : 52 ≤ getActiveBits n) :
    Right libc n ↔
      (n.toNat.sqrt + 1) * (n.toNat.sqrt + 1) < 2 ^ W ∧
        n.toNat ≠ n.toNat.sqrt * (n.toNat.sqrt + 1) := by
  obtain ⟨hW, hn⟩ := width_of_bits h
  obtain ⟨x, hloop, hx⟩ := babylonian_eq (by omega) hn (visits_above (by omega) hn .first)
  constructor
  · rintro ⟨hunwrapped, r, hr, hnearest⟩
    have hfits := (hunwrapped.squares x hloop).2
    rw [hx, sq] at hfits
    obtain ⟨r', hr', hval⟩ := sqrt_eq libc h hfits
    obtain rfl : r' = r := Option.some.inj (hr'.symm.trans hr)
    rw [hval] at hnearest
    exact ⟨hfits, (nearest_iff n.toNat).mp hnearest⟩
  · rintro ⟨hfits, hne⟩
    obtain ⟨r, hr, hval⟩ := sqrt_eq libc h hfits
    refine ⟨⟨fun y hy => (visits_above (by omega) hn hy).sum_lt (by omega) hn, fun y hy => ?_⟩,
      r, hr, ?_⟩
    · obtain rfl : x = y := Option.some.inj (hloop.symm.trans hy)
      rw [hx, sq, sq]
      exact ⟨sqrt_fits n, hfits⟩
    · rw [hval]
      exact (nearest_iff n.toNat).mpr hne

theorem getActiveBits_of_le (h : 2 ^ 52 ≤ n.toNat) : 52 ≤ getActiveBits n :=
  (Nat.lt_size.mpr h).le

/-- A square of many bits. -/
theorem sqrt_right_iff_square :
    Right id (2 ^ 52 : BitVec 64) ↔
      ((2 ^ 52 : BitVec 64).toNat.sqrt + 1) * ((2 ^ 52 : BitVec 64).toNat.sqrt + 1) < 2 ^ 64 ∧
        (2 ^ 52 : BitVec 64).toNat ≠
          (2 ^ 52 : BitVec 64).toNat.sqrt * ((2 ^ 52 : BitVec 64).toNat.sqrt + 1) :=
  sqrt_right_iff id (2 ^ 52 : BitVec 64) (getActiveBits_of_le (by decide))

/-- The value `2 ^ 26 * (2 ^ 26 + 1)` is nearer to the square of `2 ^ 26`. -/
theorem not_right_product : ¬ Right id (BitVec.ofNat 64 (2 ^ 26 * (2 ^ 26 + 1))) := by
  rintro ⟨-, r, hr, hnearest⟩
  have hval : (BitVec.ofNat 64 (2 ^ 26 * (2 ^ 26 + 1))).toNat = 2 ^ 26 * 2 ^ 26 + 2 ^ 26 := by
    decide
  have hroot : Nat.sqrt (2 ^ 26 * 2 ^ 26 + 2 ^ 26) = 2 ^ 26 := Nat.sqrt_add_eq _ (by decide)
  obtain ⟨r', hr', hroot'⟩ := sqrt_eq id
    (getActiveBits_of_le (by rw [hval]; decide) :
      52 ≤ getActiveBits (BitVec.ofNat 64 (2 ^ 26 * (2 ^ 26 + 1))))
    (by rw [hval, hroot]; decide)
  obtain rfl : r' = r := Option.some.inj (hr'.symm.trans hr)
  rw [hval, hroot, if_neg (by decide)] at hroot'
  rw [hval, hroot'] at hnearest
  exact absurd hnearest (by decide)

end Result

end RvLlvm.APInt.SquareRoot
