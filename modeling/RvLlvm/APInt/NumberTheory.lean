import RvLlvm.APInt.DivRem
import RvLlvm.CodeGen.DivisionByConstant
import RvLlvm.Support.Euclid

/-!
# Greatest common divisors and inverses

Model of `GreatestCommonDivisor` (`llvm/lib/Support/APInt.cpp:767-808`) and `multiplicativeInverse`
(`:1250-1290`). The loop of the first is given a number of turns, and the second calls `udivrem` with
the remainder in the dividend, as the source does.

* `gcdLoop_eq`: the loop ends at the greatest common divisor.
* `step_spec`: one turn of the extended algorithm, also where `udivrem` gives a wrong quotient.
* `numberTheory`: both functions.
-/

namespace RvLlvm.APInt.NumberTheory

open Function Support.WordOrder Support.Euclid
open CodeGen.Unsigned (countrZero countrZero_spec)

variable {W : Nat}

/-! ## `GreatestCommonDivisor` -/

/-- `countr_zero`. -/
def countr_zero (x : BitVec W) : Nat := countrZero W x.toNat

/-- `x.lshrInPlace(x.countr_zero() - Pow2)`; a negative distance fails the shift's assertion. -/
def shiftDown (Pow2 : Nat) (x : BitVec W) : Option (BitVec W) :=
  if countr_zero x < Pow2 then none else some (x >>> (countr_zero x - Pow2))

/-- Stein's loop, for at most `turns` turns. -/
def gcdLoop (Pow2 : Nat) : Nat → BitVec W → BitVec W → Option (BitVec W)
  | turns, A, B =>
    if A = B then some A
    else
      match turns with
      | 0 => none
      | turns + 1 =>
        if B < A then (shiftDown Pow2 (A - B)).bind fun A => gcdLoop Pow2 turns A B
        else (shiftDown Pow2 (B - A)).bind fun B => gcdLoop Pow2 turns A B

def GreatestCommonDivisor (turns : Nat) (A B : BitVec W) : Option (BitVec W) :=
  if A = B then some A
  else if A = 0 then some B
  else if B = 0 then some A
  else
    let Pow2_A := countr_zero A
    let Pow2_B := countr_zero B
    if Pow2_B < Pow2_A then gcdLoop Pow2_B turns (A >>> (Pow2_A - Pow2_B)) B
    else if Pow2_A < Pow2_B then gcdLoop Pow2_A turns A (B >>> (Pow2_B - Pow2_A))
    else gcdLoop Pow2_A turns A B

section Gcd

variable {A B x : BitVec W} {p : Nat}

theorem countr_zero_spec (h : x ≠ 0) : ∃ u, u % 2 = 1 ∧ x.toNat = 2 ^ countr_zero x * u := by
  have hpos : 0 < x.toNat := Nat.pos_of_ne_zero fun h0 => h (BitVec.eq_of_toNat_eq h0)
  obtain ⟨u, hu, hx⟩ := countrZero_spec hpos x.isLt
  exact ⟨u, hu, hx.trans (Nat.mul_comm _ _)⟩

/-- A number is an odd multiple of `2 ^ p`. -/
def OddMultiple (p : Nat) (x : BitVec W) : Prop := ∃ u, u % 2 = 1 ∧ x.toNat = 2 ^ p * u

theorem toNat_shift {k u : Nat} (h : x.toNat = 2 ^ k * u) (hle : p ≤ k) :
    (x >>> (k - p)).toNat = 2 ^ p * u := by
  have hsplit : 2 ^ k = 2 ^ (k - p) * 2 ^ p := by rw [← Nat.pow_add, Nat.sub_add_cancel hle]
  rw [BitVec.toNat_ushiftRight, Nat.shiftRight_eq_div_pow, h, hsplit, Nat.mul_assoc,
    Nat.mul_div_cancel_left _ (Nat.two_pow_pos _)]

/-- The difference of two odd multiples, shifted down. -/
theorem shiftDown_sub (hA : OddMultiple p A) (hB : OddMultiple p B) (hlt : B < A) :
    ∃ A', shiftDown p (A - B) = some A' ∧ OddMultiple p A' ∧ A'.toNat < A.toNat ∧
      Nat.gcd A'.toNat B.toNat = Nat.gcd A.toNat B.toNat := by
  obtain ⟨a, ha, hAa⟩ := hA
  obtain ⟨b, hb, hBb⟩ := hB
  rw [BitVec.lt_def] at hlt
  have hab : b < a := by
    rw [hAa, hBb] at hlt
    exact Nat.lt_of_mul_lt_mul_left hlt
  have hsub : (A - B).toNat = 2 ^ p * (a - b) := by
    rw [BitVec.toNat_sub_of_le (BitVec.le_def.mpr hlt.le), hAa, hBb, Nat.mul_sub]
  have hne : A - B ≠ 0 := by
    intro h0
    rw [h0, toNat_zero] at hsub
    rcases Nat.mul_eq_zero.mp hsub.symm with h | h
    · exact absurd h (Nat.two_pow_pos p).ne'
    · omega
  obtain ⟨u, hu, hx⟩ := countr_zero_spec hne
  -- the difference of odd numbers is even
  have hk : p < countr_zero (A - B) := by
    by_contra hge
    obtain ⟨d, hd⟩ := Nat.exists_eq_add_of_le (Nat.not_lt.mp hge)
    rw [hsub, hd, Nat.pow_add, Nat.mul_assoc] at hx
    have hx' := Nat.eq_of_mul_eq_mul_left (Nat.two_pow_pos _) hx
    rcases Nat.eq_zero_or_pos (2 ^ d * (a - b)) with h | h <;>
    · have heven : 2 ^ d * (a - b) % 2 = 0 := by
        rw [Nat.mul_mod, show (a - b) % 2 = 0 by omega, Nat.mul_zero, Nat.zero_mod]
      rw [hx', hu] at heven
      exact absurd heven (by decide)
  refine ⟨(A - B) >>> (countr_zero (A - B) - p), ?_, ?_, ?_, ?_⟩
  · rw [shiftDown, if_neg (Nat.not_lt.mpr hk.le)]
  · exact ⟨u, hu, toNat_shift hx hk.le⟩
  · rw [BitVec.toNat_ushiftRight]
    calc (A - B).toNat >>> (countr_zero (A - B) - p) ≤ (A - B).toNat := Nat.shiftRight_le _ _
      _ < A.toNat := by
        have hBpos : 0 < B.toNat := by
          rw [hBb]
          exact Nat.mul_pos (Nat.two_pow_pos p) (by omega)
        rw [BitVec.toNat_sub_of_le (BitVec.le_def.mpr hlt.le)]
        omega
  · have hpow : 2 ^ countr_zero (A - B) * u = 2 ^ p * (2 ^ (countr_zero (A - B) - p) * u) := by
      rw [← Nat.mul_assoc, ← Nat.pow_add, Nat.add_sub_cancel' hk.le]
    calc Nat.gcd ((A - B) >>> (countr_zero (A - B) - p)).toNat B.toNat
        = Nat.gcd (2 ^ p * u) (2 ^ p * b) := by rw [toNat_shift hx hk.le, hBb]
      _ = Nat.gcd (A - B).toNat B.toNat := by rw [hx, hBb, hpow, gcd_odd_part hb]
      _ = Nat.gcd A.toNat B.toNat := by
        rw [BitVec.toNat_sub_of_le (BitVec.le_def.mpr hlt.le), Nat.gcd_sub_self_left hlt.le]

/-- **The loop** ends at the greatest common divisor. -/
theorem gcdLoop_eq : ∀ {turns : Nat} {A B : BitVec W}, OddMultiple p A → OddMultiple p B →
    A.toNat + B.toNat ≤ turns →
    ∃ g, gcdLoop p turns A B = some g ∧ g.toNat = Nat.gcd A.toNat B.toNat := by
  intro turns
  induction turns with
  | zero =>
    rintro A B ⟨a, ha, hA⟩ - hle
    have hpos : 0 < A.toNat := by
      rw [hA]
      exact Nat.mul_pos (Nat.two_pow_pos p) (by omega)
    omega
  | succ turns ih =>
    intro A B hA hB hle
    rw [gcdLoop]
    split
    · next heq =>
      rw [heq, Nat.gcd_self]
      exact ⟨B, rfl, rfl⟩
    · next hne =>
      split
      · next hlt =>
        obtain ⟨A', hshift, hA', hless, hgcd⟩ := shiftDown_sub hA hB hlt
        rw [hshift, Option.bind_some, ← hgcd]
        exact ih hA' hB (by omega)
      · next hge =>
        have hlt : A < B := by
          rw [BitVec.lt_def] at hge ⊢
          rw [eq_iff] at hne
          omega
        obtain ⟨B', hshift, hB', hless, hgcd⟩ := shiftDown_sub hB hA hlt
        rw [hshift, Option.bind_some, Nat.gcd_comm A.toNat B.toNat, ← hgcd, Nat.gcd_comm B'.toNat]
        exact ih hA hB' (by omega)

/-- The number with more powers of two is shifted down to the other. -/
theorem shift_common {k l u v : Nat} (hu : u % 2 = 1) (hv : v % 2 = 1) (hA : A.toNat = 2 ^ k * u)
    (hB : B.toNat = 2 ^ l * v) (hle : l ≤ k) :
    OddMultiple l (A >>> (k - l)) ∧ OddMultiple l B ∧
      Nat.gcd (A >>> (k - l)).toNat B.toNat = Nat.gcd A.toNat B.toNat := by
  have hshift := toNat_shift hA hle
  refine ⟨⟨u, hu, hshift⟩, ⟨v, hv, hB⟩, ?_⟩
  have hpow : 2 ^ k * u = 2 ^ l * (2 ^ (k - l) * u) := by
    rw [← Nat.mul_assoc, ← Nat.pow_add, Nat.add_sub_cancel' hle]
  rw [hshift, hA, hB, hpow, gcd_odd_part hv]

/-- **`GreatestCommonDivisor`** ends with the greatest common divisor. -/
theorem gcd_spec (A B : BitVec W) : ∃ n, ∀ turns, n ≤ turns →
    ∃ g, GreatestCommonDivisor turns A B = some g ∧ g.toNat = Nat.gcd A.toNat B.toNat := by
  refine ⟨2 ^ W + 2 ^ W, fun turns hturns => ?_⟩
  have hbound : ∀ X Y : BitVec W, X.toNat + Y.toNat ≤ turns := fun X Y => by
    have hX := X.isLt
    have hY := Y.isLt
    omega
  unfold GreatestCommonDivisor
  split
  · next heq => exact ⟨A, rfl, by rw [heq, Nat.gcd_self]⟩
  split
  · next h0 => exact ⟨B, rfl, by rw [h0, toNat_zero, Nat.gcd_zero_left]⟩
  split
  · next h0 => exact ⟨A, rfl, by rw [h0, toNat_zero, Nat.gcd_zero_right]⟩
  next hA0 hB0 =>
  obtain ⟨a, ha, hA⟩ := countr_zero_spec hA0
  obtain ⟨b, hb, hB⟩ := countr_zero_spec hB0
  simp only
  split
  · next hlt =>
    obtain ⟨hA', hB', hgcd⟩ := shift_common ha hb hA hB hlt.le
    rw [← hgcd]
    exact gcdLoop_eq hA' hB' (hbound _ _)
  split
  · next hlt =>
    obtain ⟨hB', hA', hgcd⟩ := shift_common hb ha hB hA hlt.le
    rw [Nat.gcd_comm, ← hgcd, Nat.gcd_comm]
    exact gcdLoop_eq hA' hB' (hbound _ _)
  · next h1 h2 =>
    have hsame : countr_zero B = countr_zero A := by omega
    rw [hsame] at hB
    exact gcdLoop_eq ⟨a, ha, hA⟩ ⟨b, hb, hB⟩ (hbound _ _)

end Gcd

/-! ## `multiplicativeInverse` -/

/-- The variables that `udivrem` gets. -/
inductive Cell
  | r (i : Bool) | q
  deriving DecidableEq

/-- The remainders and the quotient, the two cofactors, and which of the two is the older. -/
structure Euclid (W : Nat) where
  cells : Cell → BitVec W
  t : Bool → BitVec W
  i : Bool

/-- `r[i]` and `r[i^1]`. -/
def Euclid.older (s : Euclid W) : BitVec W := s.cells (.r s.i)
def Euclid.newer (s : Euclid W) : BitVec W := s.cells (.r !s.i)

/-- One turn: `udivrem(r[i], r[i^1], q, r[i])`, `t[i] -= t[i^1] * q` and `i ^= 1`. -/
def Euclid.step (s : Euclid W) : Option (Euclid W) :=
  (DivRem.udivrem (.var (.r s.i)) (.var (.r !s.i)) .q (.r s.i) s.cells).map fun cells =>
    { cells, t := update s.t s.i (s.t s.i - s.t (!s.i) * cells .q), i := !s.i }

section Frame

variable {α : Type*} [DecidableEq α] {LHS RHS : DivRem.Operand α W} {Quotient Remainder x : α}
  {σ σ' : α → BitVec W}

theorem finish_frame {l r : Nat} (h : DivRem.finish LHS RHS Quotient Remainder l r σ = some σ')
    (hq : x ≠ Quotient) (hr : x ≠ Remainder) : σ' x = σ x := by
  unfold DivRem.finish at h
  split at h
  · rw [← Option.some.inj h, update_of_ne hq, update_of_ne hr]
  split at h
  · rw [← Option.some.inj h, DivRem.assign_other hq hr]
  split at h
  · simp only at h
    split at h
    · exact absurd h (by simp)
    · rw [← Option.some.inj h, DivRem.assign_other hq hr]
  · obtain ⟨w, -, rfl⟩ := Option.map_eq_some_iff.mp h
    exact DivRem.assign_other hq hr _ _

/-- No other variable changes. -/
theorem udivrem_frame (h : DivRem.udivrem LHS RHS Quotient Remainder σ = some σ')
    (hq : x ≠ Quotient) (hr : x ≠ Remainder) : σ' x = σ x := by
  unfold DivRem.udivrem at h
  split at h
  · split at h
    · exact absurd h (by simp)
    · rw [← Option.some.inj h, DivRem.assign_other hq hr]
  simp only at h
  split at h
  · exact absurd h (by simp)
  split at h
  · rw [← Option.some.inj h, DivRem.assign_other hq hr]
  split at h
  · rw [finish_frame h hq hr, DivRem.assign_other hq hr]
  · exact finish_frame h hq hr

end Frame

section Step

variable {s s' : Euclid W}

/-- The remainder is right, and so is the quotient unless the divisor is one. -/
theorem udivrem_cells (h0 : s.newer ≠ 0) :
    ∃ cells, DivRem.udivrem (.var (.r s.i)) (.var (.r !s.i)) .q (.r s.i) s.cells = some cells ∧
      cells (.r s.i) = s.older % s.newer ∧ cells (.r !s.i) = s.newer ∧
      (s.newer ≠ 1 → cells .q = s.older / s.newer) := by
  have hne : Cell.q ≠ Cell.r s.i := by simp
  have hright0 : (DivRem.Operand.var (.r !s.i)).read s.cells ≠ 0 := h0
  have hother : Cell.r (!s.i) ≠ Cell.r s.i := by simp
  have hsmall : Cell.r (!s.i) ≠ Cell.q := by simp
  have hframe : ∀ {cells : Cell → BitVec W},
      DivRem.udivrem (.var (.r s.i)) (.var (.r !s.i)) .q (.r s.i) s.cells = some cells →
        cells (.r !s.i) = s.newer := fun h => udivrem_frame h hsmall hother
  by_cases hright : W ≤ 64 ∨ s.newer ≠ 1 ∨ s.older = 0
  · have hunharmed : DivRem.Unharmed (.var (.r s.i)) (.var (.r !s.i)) .q (.r s.i) s.cells :=
      hright.imp_right fun h => h.imp_right Or.inl
    obtain ⟨cells, hrun, hq, hr⟩ := (DivRem.udivrem_right_iff hne hright0).mpr hunharmed
    exact ⟨cells, hrun, hr, hframe hrun, fun _ => hq⟩
  · -- the divisor one: the dividend is zero when it is read again
    rw [not_or, not_or, not_not] at hright
    obtain ⟨hW, hone, holder⟩ := hright
    have hrun : DivRem.udivrem (.var (.r s.i)) (.var (.r !s.i)) .q (.r s.i) s.cells =
        DivRem.finish (.var (.r s.i)) (.var (.r !s.i)) .q (.r s.i) _ _ _ :=
      DivRem.udivrem_one hW holder hone
    have hl : (DivRem.Operand.var (.r s.i)).read
        (DivRem.assign .q (.r s.i) ((DivRem.Operand.var (.r s.i)).read s.cells) 0 s.cells) = 0 :=
      DivRem.assign_remainder _ _
    have hr : (DivRem.Operand.var (.r !s.i)).read
        (DivRem.assign .q (.r s.i) ((DivRem.Operand.var (.r s.i)).read s.cells) 0 s.cells) = 1 :=
      (DivRem.assign_other hsmall hother _ _).trans hone
    have hpos : (0 : BitVec W) < 1 := by
      rw [BitVec.lt_def, toNat_zero, toNat_one (by omega)]
      exact Nat.one_pos
    rw [DivRem.finish, if_pos (Or.inr (by rw [hl, hr]; exact hpos))] at hrun
    refine ⟨_, hrun, ?_, hframe hrun, fun hno => absurd hone hno⟩
    rw [update_of_ne hne.symm, update_self, hl, hone, DivRem.mod_one (by omega)]

theorem toNat_ne_zero {x : BitVec W} (h : x ≠ 0) : x.toNat ≠ 0 :=
  fun h0 => h (BitVec.eq_of_toNat_eq h0)

/-- **A turn**: the remainders are those of the algorithm, and the new cofactor too unless the
divisor was one. -/
theorem step_spec (h0 : s.newer ≠ 0) :
    ∃ s', s.step = some s' ∧ s'.older = s.newer ∧ s'.newer = s.older % s.newer ∧
      s'.t s'.i = s.t (!s.i) ∧
      (s.newer ≠ 1 → s'.t (!s'.i) = s.t s.i - s.t (!s.i) * (s.older / s.newer)) := by
  obtain ⟨cells, hrun, hrem, hkeep, hquot⟩ := udivrem_cells h0
  refine ⟨⟨cells, update s.t s.i (s.t s.i - s.t (!s.i) * cells .q), !s.i⟩,
    by rw [Euclid.step, hrun, Option.map_some], hkeep, ?_, ?_, fun hone => ?_⟩
  · simpa only [Euclid.newer, Bool.not_not] using hrem
  · exact update_of_ne (by simp) _ _
  · simp only [Bool.not_not, update_self]
    rw [hquot hone]

theorem step_lt (h0 : s.newer ≠ 0) (h : s.step = some s') : s'.newer.toNat < s.newer.toNat := by
  obtain ⟨s'', hstep, -, hnewer, -⟩ := step_spec h0
  obtain rfl := Option.some.inj (h.symm.trans hstep)
  rw [hnewer, BitVec.toNat_umod]
  exact Nat.mod_lt _ (Nat.pos_of_ne_zero (toNat_ne_zero h0))

end Step

/-- The loop of `multiplicativeInverse`. -/
def Euclid.loop (s : Euclid W) : Option (Euclid W) :=
  if s.newer = 0 then some s
  else
    match _ : s.step with
    | none => none
    | some s' => s'.loop
termination_by s.newer.toNat
decreasing_by exact step_lt ‹_› ‹_›

/-- The variables before the loop. -/
def Euclid.start (a modulo : BitVec W) : Euclid W where
  cells
    | .r false => modulo
    | .r true => a
    | .q => 0
  t
    | false => 0
    | true => 1
  i := false

def multiplicativeInverse (a modulo : BitVec W) : Option (BitVec W) :=
  if ¬a < modulo then none
  else
    (Euclid.start a modulo).loop.map fun s =>
      if s.older ≠ 1 then 0
      else if (s.t s.i).msb then s.t s.i + modulo else s.t s.i

/-! ## The inverse -/

section Inverse

variable {m a : Nat} {s : Euclid W}

/-- The state stands for two remainders and, unless the newer is zero, for both cofactors. -/
def Stands (m a : Nat) (s : Euclid W) : Prop :=
  ∃ T T' : Int, Cofactors m a s.older.toNat s.newer.toNat T T' ∧
    s.t s.i = BitVec.ofInt W T ∧ (s.newer ≠ 0 → s.t (!s.i) = BitVec.ofInt W T')

theorem ofInt_sub_mul (T T' : Int) (x y : BitVec W) :
    BitVec.ofInt W (T - T' * (x.toNat / y.toNat : Nat)) =
      BitVec.ofInt W T - BitVec.ofInt W T' * (x / y) := by
  rw [Int.sub_eq_add_neg, BitVec.ofInt_add, BitVec.ofInt_neg, BitVec.ofInt_mul, BitVec.ofInt_natCast,
    DivRem.ofNat_div, BitVec.sub_eq_add_neg]

/-- A turn keeps what the state stands for. -/
theorem Stands.step (h : Stands m a s) (h0 : s.newer ≠ 0) :
    ∃ s', s.step = some s' ∧ Stands m a s' := by
  obtain ⟨T, T', hcof, hT, hT'⟩ := h
  obtain ⟨s', hstep, holder, hnewer, ht, ht'⟩ := step_spec h0
  have hpos : 0 < s.newer.toNat := Nat.pos_of_ne_zero (toNat_ne_zero h0)
  have hmod : s'.newer.toNat = s.older.toNat % s.newer.toNat := by rw [hnewer, BitVec.toNat_umod]
  refine ⟨s', hstep, T', T - T' * (s.older.toNat / s.newer.toNat : Nat), ?_, ht.trans (hT' h0),
    fun hne => ?_⟩
  · rw [holder, hmod]
    exact hcof.step hpos
  · have hone : s.newer ≠ 1 := by
      intro hone
      have hW : 0 < W := by
        rcases Nat.eq_zero_or_pos W with rfl | hW
        · exact absurd (Subsingleton.elim s.newer 0) h0
        · exact hW
      rw [hnewer, hone, DivRem.mod_one hW] at hne
      exact hne rfl
    rw [ht' hone, hT, hT' h0, ofInt_sub_mul]

/-- **The loop** ends with the greatest common divisor and its cofactor. -/
theorem loop_spec (h : Stands m a s) :
    ∃ s', s.loop = some s' ∧ s'.newer = 0 ∧ Stands m a s' := by
  induction hn : s.newer.toNat using Nat.strong_induction_on generalizing s with
  | _ n ih =>
    rw [Euclid.loop]
    split
    · next h0 => exact ⟨s, rfl, h0, h⟩
    · next h0 =>
      obtain ⟨s', hstep, hstands⟩ := h.step h0
      split
      · next hnone => exact absurd (hstep.symm.trans hnone) (by simp)
      · next s'' hsome =>
        obtain rfl := Option.some.inj (hstep.symm.trans hsome)
        exact ih s'.newer.toNat (hn ▸ step_lt h0 hstep) hstands rfl

theorem stands_start {a modulo : BitVec W} (hlt : a < modulo) :
    Stands modulo.toNat a.toNat (Euclid.start a modulo) := by
  refine ⟨0, 1, Cofactors.start (BitVec.lt_def.mp hlt), ?_, fun _ => ?_⟩
  · exact (BitVec.ofInt_natCast W 0).symm
  · exact (BitVec.ofInt_natCast W 1).symm

/-- A small cofactor is read with its sign from its wrapped value. -/
theorem signed_cofactor {modulo : BitVec W} {T : Int} (hhalf : 2 * T.natAbs ≤ modulo.toNat)
    (hpos : positive modulo.toNat T < modulo.toNat) :
    (if (BitVec.ofInt W T).msb then BitVec.ofInt W T + modulo else BitVec.ofInt W T).toNat =
      positive modulo.toNat T := by
  have hlt := modulo.isLt
  have hval : (BitVec.ofInt W T).toInt = T := by
    rw [BitVec.toInt_ofInt]
    refine Int.bmod_eq_of_le_mul_two ?_ ?_ <;> push_cast <;> rw [two_pow_cast] <;> omega
  have hmsb : (BitVec.ofInt W T).msb = decide (T < 0) := by
    rw [BitVec.msb_eq_toInt, hval]
  have hcast : ∀ n : Nat, n < 2 ^ W → (BitVec.ofInt W n).toNat = n := fun n hn => by
    rw [BitVec.ofInt_natCast, BitVec.toNat_ofNat, Nat.mod_eq_of_lt hn]
  rw [hmsb]
  rcases lt_or_ge T 0 with hT | hT
  · have hsum : T + modulo.toNat = (positive modulo.toNat T : Nat) := by
      unfold positive
      rw [if_pos hT]
      omega
    have hmodulo : modulo = BitVec.ofInt W modulo.toNat := by
      rw [BitVec.ofInt_natCast, BitVec.ofNat_toNat, BitVec.setWidth_eq]
    rw [if_pos (decide_eq_true hT)]
    conv_lhs => rw [hmodulo, ← BitVec.ofInt_add, hsum]
    exact hcast _ (hpos.trans hlt)
  · have hsame : T = (positive modulo.toNat T : Nat) := by
      unfold positive
      rw [if_neg (not_lt.mpr hT)]
      omega
    rw [if_neg (by rw [decide_eq_true_eq]; exact not_lt.mpr hT)]
    conv_lhs => rw [hsame]
    exact hcast _ (hpos.trans hlt)

/-- What is asked of the inverse of `a`: the only one below the modulus, or zero. -/
def InverseOf (a modulo x : BitVec W) : Prop :=
  if 1 < modulo.toNat ∧ Nat.Coprime modulo.toNat a.toNat then
    x < modulo ∧ a.toNat * x.toNat % modulo.toNat = 1 ∧
      ∀ y < modulo.toNat, a.toNat * y % modulo.toNat = 1 → y = x.toNat
  else x = 0

/-- **`multiplicativeInverse`** gives the inverse. -/
theorem multiplicativeInverse_spec {a modulo : BitVec W} (hlt : a < modulo) :
    ∃ x, multiplicativeInverse a modulo = some x ∧ InverseOf a modulo x := by
  obtain ⟨s, hloop, h0, T, T', hcof, hT, -⟩ := loop_spec (stands_start hlt)
  rw [multiplicativeInverse, if_neg (not_not.mpr hlt), hloop, Option.map_some]
  refine ⟨_, rfl, ?_⟩
  rw [h0, toNat_zero] at hcof
  have hgcd : s.older.toNat = Nat.gcd modulo.toNat a.toNat := by
    rw [← hcof.gcd, Nat.gcd_zero_right]
  have hW : 0 < W := by
    rcases Nat.eq_zero_or_pos W with rfl | hW
    · exact absurd hlt (by rw [Subsingleton.elim a modulo]; exact BitVec.lt_irrefl _)
    · exact hW
  have hone : s.older = 1 ↔ Nat.Coprime modulo.toNat a.toNat := by
    rw [eq_iff, toNat_one hW, hgcd]
  unfold InverseOf
  by_cases hcoprime : Nat.Coprime modulo.toNat a.toNat
  · have holder := hone.mpr hcoprime
    rw [holder, toNat_one hW] at hcof
    rw [if_neg (not_not.mpr holder), hT]
    by_cases hm : 1 < modulo.toNat
    · obtain ⟨hless, hinv⟩ := hcof.inverse hm
      have hval := signed_cofactor hcof.half hless
      rw [if_pos ⟨hm, hcoprime⟩, BitVec.lt_def, hval]
      exact ⟨hless, hinv, fun y hy hay => inverse_unique hless hy hinv hay hcoprime⟩
    · -- the modulus one: the loop has not turned, and the cofactor is zero
      have hzero : T = 0 := by
        have hhalf := hcof.half
        omega
      rw [if_neg fun h => hm h.1, hzero]
      simp
  · rw [if_pos fun h => hcoprime (hone.mp h), if_neg fun h => hcoprime h.2]

end Inverse

/-- **Greatest common divisors and inverses are exact.** -/
theorem numberTheory (W : Nat) :
    (∀ A B : BitVec W, ∃ n, ∀ turns, n ≤ turns →
      ∃ g, GreatestCommonDivisor turns A B = some g ∧ g.toNat = Nat.gcd A.toNat B.toNat) ∧
    ∀ a modulo : BitVec W, a < modulo →
      ∃ x, multiplicativeInverse a modulo = some x ∧ InverseOf a modulo x :=
  ⟨gcd_spec, fun _ _ => multiplicativeInverse_spec⟩

/-- Three and seven. -/
theorem numberTheory_seven :
    ∃ x, multiplicativeInverse 3#8 7#8 = some x ∧ InverseOf 3#8 7#8 x :=
  (numberTheory 8).2 3#8 7#8 (by decide)

end RvLlvm.APInt.NumberTheory
