import RvLlvm.APInt.Divide
import RvLlvm.Support.LongDivision
import Mathlib.Data.List.Induction
import Mathlib.Tactic.LinearCombination

/-!
# Algorithm D

`KnuthDiv` divides: digit by digit from the top, each trial digit right or one too large.

Results:
* `trialDigit_spec`: the trial digit after its two tests, with no intermediate out of its word.
* `subMul_spec`, `addBack_spec`: multiply and subtract, and add back, as equations between numbers.
* `digitLoop_spec`: the invariant of the loop. The digits above `j` are the quotient's, the window
  below them is less than `base` times the divisor.
* `KnuthDiv_spec`: quotient and remainder of the numbers before normalisation.
-/

namespace RvLlvm.APInt

open Support

/-- All digits are less than the base. -/
def IsDigits (ds : List Nat) : Prop := ∀ d ∈ ds, d < base

theorem one_lt_base : 1 < base := by decide

variable {ds v : List Nat}

theorem IsDigits.cons {d : Nat} (hd : d < base) (hds : IsDigits ds) :
    IsDigits (d :: ds) := List.forall_mem_cons.mpr ⟨hd, hds⟩

theorem IsDigits.head {d : Nat} (h : IsDigits (d :: ds)) : d < base :=
  h d List.mem_cons_self

theorem IsDigits.tail {d : Nat} (h : IsDigits (d :: ds)) : IsDigits ds :=
  (List.forall_mem_cons.mp h).2

/-! ## The trial digit -/

theorem uint64_eq {x : Nat} (h : x < 2 ^ 64) : uint64 x = some x := if_pos h

theorem int64_eq {x : Int} (hlo : -2 ^ 63 ≤ x) (hhi : x < 2 ^ 63) : int64 x = some x := if_pos ⟨hlo, hhi⟩

/-- Neither side of the comparison leaves its word. -/
theorem tooLarge_eq {v2 u3 qp rp : Nat} (hv2 : v2 < base) (hu3 : u3 < base) (hq : qp ≤ base + 1)
    (hrp : rp < base) :
    tooLarge v2 u3 qp rp = some (decide (qp = base) || decide (base * rp + u3 < qp * v2)) := by
  rw [tooLarge]
  split
  · rename_i h
    rw [decide_eq_true h, Bool.true_or]
  · rename_i h
    have hl : qp * v2 < 2 ^ 64 :=
      calc qp * v2 ≤ (base + 1) * (base - 1) := Nat.mul_le_mul hq (Nat.le_sub_one_of_lt hv2)
        _ < 2 ^ 64 := by decide
    have hr : base * rp + u3 < 2 ^ 64 :=
      calc base * rp + u3 ≤ base * (base - 1) + (base - 1) :=
            Nat.add_le_add (Nat.mul_le_mul_left _ (Nat.le_sub_one_of_lt hrp)) (Nat.le_sub_one_of_lt hu3)
        _ < 2 ^ 64 := by decide
    rw [uint64_eq hl, uint64_eq hr, decide_eq_false h, Bool.false_or]
    rfl

/-- **D3**: the trial digit is right or one too large, and a digit. -/
theorem trialDigit_spec {u v v1 v2 vr u1 u2 u3 ur B : Nat}
    (hu : u = ((u1 * base + u2) * base + u3) * B + ur) (hur : ur < B)
    (hv : v = (v1 * base + v2) * B + vr) (hvr : vr < B)
    (hv1 : v1 < base) (hnorm : base ≤ 2 * v1) (hv2 : v2 < base) (hu3 : u3 < base)
    (hlt : u < base * v) :
    ∃ qp, trialDigit v1 v2 u1 u2 u3 = some qp ∧ qp < base ∧ u / v ≤ qp ∧ qp ≤ u / v + 1 := by
  have hbase : base = 4294967296 := rfl
  have hv1pos : 0 < v1 := by omega
  have hvpos : 0 < v := Nat.pos_of_ne_zero fun h => by rw [h, Nat.mul_zero] at hlt; omega
  have hdigit : u / v < base := Nat.div_lt_of_lt_mul (by rwa [Nat.mul_comm])
  have hwide : base + 1 ≤ v1 * base :=
    calc base + 1 ≤ 2 * base := by decide
      _ ≤ v1 * base := Nat.mul_le_mul_right _ (by omega)
  -- a suggestion `q` with the rest `r` of the leading part, and what the test says of them
  have hover : ∀ {q r : Nat}, q * v1 + r = u1 * base + u2 → base * r + u3 < q * v2 → u / v < q :=
    fun hd h => Nat.div_lt_of_lt_mul (by
      rw [Nat.mul_comm]
      exact lt_mul_of_test hu hur hv ((test_iff hd).mp h))
  have near : ∀ {q r : Nat}, q * v1 + r = u1 * base + u2 → q ≤ base + 1 → ¬base * r + u3 < q * v2 →
      q ≤ u / v + 1 := fun {q r} hd hq h => by
    have hmul := mul_lt_add_of_test hu hv hvr (by omega) (hq.trans hwide)
      (Nat.not_lt.mp (mt (test_iff hd).mpr h))
    rw [← Nat.sub_le_iff_le_add, Nat.le_div_iff_mul_le hvpos, Nat.sub_mul, Nat.one_mul]
    omega
  have hle := div_le_trial hu hur hu3 hv hv1pos
  have hnonneg := Nat.zero_le (u / v)
  have hlead := lead_lt hu hv hvr hv2 hlt
  have htwo := trial_le_add_two hu hv hvr hv2 hnorm hlt (Nat.div_mul_le_self _ v1)
  have hdm : (u1 * base + u2) / v1 * v1 + (u1 * base + u2) % v1 = u1 * base + u2 := by
    rw [Nat.mul_comm]
    exact Nat.div_add_mod _ _
  have hrp := Nat.mod_lt (u1 * base + u2) hv1pos
  have hMake : Make_64 u1 u2 = u1 * base + u2 := rfl
  rw [trialDigit, hMake]
  generalize (u1 * base + u2) / v1 = qp at hdm htwo hle
  generalize (u1 * base + u2) % v1 = rp at hdm hrp
  rw [tooLarge_eq hv2 hu3 (by omega) (by omega), Option.bind_some]
  split
  · -- the first suggestion stands
    rename_i hfirst
    obtain ⟨hne, htest⟩ := Bool.or_eq_false_iff.mp hfirst
    have hq := near hdm (by omega) (of_decide_eq_false htest)
    have hb := of_decide_eq_false hne
    exact ⟨qp, rfl, by omega, hle, hq⟩
  · rename_i hfirst
    have hlow : u / v < qp := by
      rcases Bool.or_eq_true_iff.mp (Bool.of_not_eq_false hfirst) with h | h
      · rw [of_decide_eq_true h]
        exact hdigit
      · exact hover hdm (of_decide_eq_true h)
    have hdm' : (qp - 1) * v1 + (rp + v1) = u1 * base + u2 := by
      obtain ⟨q, rfl⟩ : ∃ q, qp = q + 1 := ⟨qp - 1, by omega⟩
      rw [← hdm, Nat.add_mul, Nat.one_mul, Nat.add_sub_cancel]
      omega
    split
    · -- the rest is no digit any more: the second test would fail
      rename_i hrest
      refine ⟨qp - 1, rfl, ?_, by omega, by omega⟩
      by_contra hwrap
      have hqb : qp - 1 = base := by omega
      rw [hqb, Nat.mul_comm] at hdm'
      rw [Nat.add_mul, Nat.one_mul, ← hdm'] at hlead
      omega
    · rename_i hrest
      rw [tooLarge_eq hv2 hu3 (by omega) (Nat.not_le.mp hrest), Option.map_some]
      split
      · rename_i hsecond
        have hlow' : u / v < qp - 1 := by
          rcases Bool.or_eq_true_iff.mp hsecond with h | h
          · rw [of_decide_eq_true h]
            exact hdigit
          · exact hover hdm' (of_decide_eq_true h)
        exact ⟨qp - 1 - 1, rfl, by omega, by omega, by omega⟩
      · rename_i hsecond
        obtain ⟨hne, htest⟩ := Bool.or_eq_false_iff.mp (Bool.eq_false_of_not_eq_true hsecond)
        have hq := near hdm' (by omega) (of_decide_eq_false htest)
        have hb := of_decide_eq_false hne
        exact ⟨qp - 1, rfl, by omega, by omega, hq⟩

/-! ## Multiply and subtract, add back -/

theorem Lo_32_natCast (x : Nat) : Lo_32 x = x % 2 ^ 32 := by
  rw [Lo_32]
  omega

theorem Lo_32_lt (x : Int) : Lo_32 x < base := by
  show (x % 2 ^ 32).toNat < 2 ^ 32
  omega

/-- One digit of D4: the borrow is the carry of the product. -/
theorem subMul_step {qp u v : Nat} {borrow : Int} (hq : qp < base) (hu : u < base) (hv : v < base)
    (hb : 0 ≤ borrow ∧ borrow ≤ qp) :
    uint64 (qp * v) = some (qp * v) ∧ ∃ subres c : Int,
      int64 (u - borrow - Lo_32 (qp * v : Nat)) = some subres ∧
        (Hi_32 (qp * v : Nat) - Hi_32 subres : Int) % 2 ^ 32 = c ∧ (0 ≤ c ∧ c ≤ qp) ∧
        u - (qp * v : Nat) - borrow = Lo_32 subres - base * c := by
  have hp : qp * v ≤ qp * (base - 1) := Nat.mul_le_mul_left qp (Nat.le_sub_one_of_lt hv)
  have hbase : base = 4294967296 := rfl
  rw [hbase] at hq hu hv hp ⊢
  have hp64 : qp * (4294967296 - 1) ≤ 4294967295 * 4294967295 := Nat.mul_le_mul (by omega) (by omega)
  generalize qp * v = p at hp ⊢
  refine ⟨uint64_eq (by omega), _, _, int64_eq ?_ ?_, rfl, ⟨?_, ?_⟩, ?_⟩
  · simp only [Lo_32]
    omega
  · simp only [Lo_32]
    omega
  · omega
  · simp only [Lo_32, Hi_32]
    omega
  · simp only [Lo_32, Hi_32]
    omega

/-- **D4**: `qp` times the divisor is taken off, up to the borrow. -/
theorem subMul_spec {qp : Nat} (hq : qp < base) : ∀ {us vs : List Nat} {borrow : Int},
    us.length = vs.length → IsDigits us → IsDigits vs → 0 ≤ borrow ∧ borrow ≤ qp →
    ∃ us' c, subMul qp borrow us vs = some (us', c) ∧ us'.length = us.length ∧ IsDigits us' ∧
      (0 ≤ c ∧ c ≤ qp) ∧ ((Nat.ofDigits base us : Nat) : Int) - qp * (Nat.ofDigits base vs : Nat) - borrow =
        (Nat.ofDigits base us' : Nat) - base ^ us.length * c
  | [], [], borrow, _, _, _, hb => ⟨[], borrow, rfl, rfl, List.forall_mem_nil _, hb, by simp [Nat.ofDigits_nil]⟩
  | u :: us, v :: vs, borrow, hlen, hu, hv, hb => by
    obtain ⟨hp, subres, c, hsub, hc, hcb, hval⟩ := subMul_step hq hu.head hv.head hb
    obtain ⟨us', c', hrun, hlen', hdig, hcb', hval'⟩ :=
      subMul_spec hq (Nat.succ.inj hlen) hu.tail hv.tail hcb
    refine ⟨Lo_32 subres :: us', c', ?_, congrArg Nat.succ hlen', hdig.cons (Lo_32_lt _), hcb', ?_⟩
    · rw [subMul, hp, Option.bind_some, hsub, Option.bind_some, hc, hrun]
      rfl
    · rw [Nat.cast_mul] at hval
      simp only [Nat.ofDigits_cons, Nat.cast_add, Nat.cast_mul, List.length_cons, pow_succ]
      linear_combination hval + (base : Int) * hval'

/-- One digit of D6: the comparison finds the carry. -/
theorem addBack_step {u v : Nat} (hu : u < base) (hv : v < base) (carry : Bool) :
    u + v + carry.toNat = (u + v + carry.toNat) % 2 ^ 32 +
      base * (decide ((u + v + carry.toNat) % 2 ^ 32 < min u v) ||
        carry && decide ((u + v + carry.toNat) % 2 ^ 32 = min u v)).toNat := by
  have hbase : base = 4294967296 := rfl
  rw [hbase] at hu hv ⊢
  by_cases hlt : (u + v + carry.toNat) % 2 ^ 32 < min u v
  · rw [decide_eq_true hlt, Bool.true_or, Bool.toNat_true]
    cases carry <;> simp only [Bool.toNat_true, Bool.toNat_false] at hlt ⊢ <;> omega
  · rw [decide_eq_false hlt, Bool.false_or]
    cases carry with
    | false =>
      simp only [Bool.toNat_false, Bool.false_and] at hlt ⊢
      omega
    | true =>
      rw [Bool.true_and]
      by_cases heq : (u + v + true.toNat) % 2 ^ 32 = min u v
      · rw [decide_eq_true heq]
        simp only [Bool.toNat_true] at heq hlt ⊢
        omega
      · rw [decide_eq_false heq]
        simp only [Bool.toNat_true, Bool.toNat_false] at heq hlt ⊢
        omega

/-- **D6**: the divisor is added, up to the carry. -/
theorem addBack_spec : ∀ {us vs : List Nat} (carry : Bool), us.length = vs.length → IsDigits us →
    IsDigits vs → (addBack carry us vs).1.length = us.length ∧ IsDigits (addBack carry us vs).1 ∧
      Nat.ofDigits base us + Nat.ofDigits base vs + carry.toNat =
        Nat.ofDigits base (addBack carry us vs).1 + base ^ us.length * (addBack carry us vs).2.toNat
  | [], [], carry, _, _, _ => ⟨rfl, List.forall_mem_nil _, by simp [addBack]⟩
  | u :: us, v :: vs, carry, hlen, hu, hv => by
    have hstep := addBack_step hu.head hv.head carry
    rw [addBack]
    dsimp only
    generalize (decide ((u + v + carry.toNat) % 2 ^ 32 < min u v) ||
      carry && decide ((u + v + carry.toNat) % 2 ^ 32 = min u v)) = next at hstep ⊢
    obtain ⟨hlen', hdig, hval⟩ := addBack_spec next (Nat.succ.inj hlen) hu.tail hv.tail
    refine ⟨congrArg Nat.succ hlen', hdig.cons (Nat.mod_lt _ (by decide)), ?_⟩
    simp only [Nat.ofDigits_cons, List.length_cons, pow_succ]
    linear_combination hstep + base * hval

/-! ## One digit of the quotient -/

/-- The divisor's leading digits, the first with its top bit set. -/
def Normal (v : List Nat) : Prop := ∃ low v2 v1, v = low ++ [v2, v1] ∧ base ≤ 2 * v1

theorem exists_two_last {l : List Nat} (h : 2 ≤ l.length) : ∃ low x y, l = low ++ [x, y] := by
  obtain ⟨init, y, rfl⟩ := (List.eq_nil_or_concat l).resolve_left (by rintro rfl; contradiction)
  rw [List.concat_eq_append, List.length_append, List.length_singleton] at h
  obtain ⟨low, x, rfl⟩ := (List.eq_nil_or_concat init).resolve_left (by rintro rfl; contradiction)
  exact ⟨low, x, y, by rw [List.concat_eq_append, List.concat_eq_append, List.append_assoc]; rfl⟩

theorem getElem?_last (low : List Nat) (x y : Nat) :
    (low ++ [x, y])[(low ++ [x, y]).length - 1]? = some y ∧
      (low ++ [x, y])[(low ++ [x, y]).length - 2]? = some x := by
  constructor <;> simp

theorem ofDigits_two_last (low : List Nat) (x y : Nat) :
    Nat.ofDigits base (low ++ [x, y]) = (y * base + x) * base ^ low.length + Nat.ofDigits base low := by
  rw [Nat.ofDigits_append, Nat.ofDigits_cons, Nat.ofDigits_singleton]
  ring

theorem digits_unique {P U R k : Int} (hU : 0 ≤ U ∧ U < P) (hR : 0 ≤ R ∧ R < P) (h : R = U + P * k) :
    k = 0 ∧ U = R := by
  have hk : k = 0 :=
    calc k = U / P + k := by rw [Int.ediv_eq_zero_of_lt hU.1 hU.2, Int.zero_add]
      _ = (U + P * k) / P := (Int.add_mul_ediv_left U k (by omega)).symm
      _ = 0 := by rw [← h, Int.ediv_eq_zero_of_lt hR.1 hR.2]
  exact ⟨hk, by rw [h, hk, Int.mul_zero, Int.add_zero]⟩

/-- **D5 and D6**: the digit is the quotient, and what is left is the remainder, under a zero
digit. -/
theorem testRemainder_spec {us' : List Nat} {W top qp : Nat} {c : Int} (hv : IsDigits v)
    (hdig' : IsDigits us') (hlen' : us'.length = v.length) (hVpos : 0 < Nat.ofDigits base v)
    (htop : top < base) (hqb : qp < base) (hqlo : W / Nat.ofDigits base v ≤ qp)
    (hqhi : qp ≤ W / Nat.ofDigits base v + 1) (hc : 0 ≤ c ∧ c ≤ qp)
    (hW : (W : Int) - qp * (Nat.ofDigits base v : Nat) =
      (Nat.ofDigits base us' : Nat) + ((base ^ v.length : Nat) : Int) * (top - c)) :
    ∃ us, testRemainder v us' top qp c = (us, 0, W / Nat.ofDigits base v) ∧
      us.length = v.length ∧ IsDigits us ∧ Nat.ofDigits base us = W % Nat.ofDigits base v := by
  have hVlt := Nat.ofDigits_lt_base_pow_length one_lt_base hv
  have hU' := Nat.ofDigits_lt_base_pow_length one_lt_base hdig'
  rw [hlen'] at hU'
  have hmod := Nat.mod_lt W hVpos
  have hdm : ((Nat.ofDigits base v : Nat) : Int) * (W / Nat.ofDigits base v : Nat) +
      (W % Nat.ofDigits base v : Nat) = W := by
    exact_mod_cast Nat.div_add_mod W (Nat.ofDigits base v)
  have hqb' : qp < 2 ^ 32 := hqb
  have htop' : top < 2 ^ 32 := htop
  have hcLo : (Lo_32 c : Int) = c := by
    rw [Lo_32]
    omega
  have hnonneg := Nat.zero_le (W / Nat.ofDigits base v)
  generalize W / Nat.ofDigits base v = Q at *
  generalize W % Nat.ofDigits base v = R at *
  by_cases hneg : (top : Int) < c
  · -- one too large: the divisor comes back
    obtain ⟨hlen'', hdig'', hsum⟩ := addBack_spec false hlen' hdig' hv
    have hU'' := Nat.ofDigits_lt_base_pow_length one_lt_base hdig''
    rw [hlen', Bool.toNat_false, Nat.add_zero] at hsum
    rw [hlen'', hlen'] at hU''
    have hqp : qp = Q + 1 := by
      by_contra hne
      have heq : qp = Q := by omega
      have hdown : ((base ^ v.length : Nat) : Int) * (top - c) ≤ (base ^ v.length : Nat) * (-1) :=
        Int.mul_le_mul_of_nonneg_left (by omega) (Int.natCast_nonneg _)
      rw [heq, Int.mul_comm] at hW
      omega
    have hrest : (R : Int) = (Nat.ofDigits base (addBack false us' v).1 : Nat) +
        ((base ^ v.length : Nat) : Int) * (top - c + (addBack false us' v).2.toNat) := by
      rw [hqp] at hW
      have hsumZ : ((Nat.ofDigits base us' : Nat) : Int) + (Nat.ofDigits base v : Nat) =
          (Nat.ofDigits base (addBack false us' v).1 : Nat) +
            ((base ^ v.length : Nat) : Int) * (addBack false us' v).2.toNat := by exact_mod_cast hsum
      rw [Nat.cast_add, Nat.cast_one] at hW
      linear_combination hdm + hW + hsumZ
    obtain ⟨htop0, hval⟩ := digits_unique ⟨Int.natCast_nonneg _, by exact_mod_cast hU''⟩
      ⟨Int.natCast_nonneg _, by exact_mod_cast hmod.trans hVlt⟩ hrest
    have htopdig : (Lo_32 (top - Lo_32 c) + (addBack false us' v).2.toNat) % 2 ^ 32 = 0 := by
      rw [hcLo, Lo_32]
      omega
    have hdigit : Lo_32 ((Lo_32 qp : Int) - 1) = Q := by
      rw [Lo_32_natCast, Lo_32]
      omega
    refine ⟨(addBack false us' v).1, ?_, hlen''.trans hlen', hdig'', by exact_mod_cast hval⟩
    rw [testRemainder, decide_eq_true hneg]
    dsimp only
    rw [if_pos rfl, htopdig, hdigit]
  · have hqp : qp = Q := by
      by_contra hne
      have hup : 0 ≤ ((base ^ v.length : Nat) : Int) * (top - c) :=
        Int.mul_nonneg (Int.natCast_nonneg _) (by omega)
      rw [show qp = Q + 1 by omega, Nat.cast_add, Nat.cast_one, Int.add_mul, Int.mul_comm Q] at hW
      omega
    have hrest : (R : Int) = (Nat.ofDigits base us' : Nat) +
        ((base ^ v.length : Nat) : Int) * (top - c) := by
      rw [hqp] at hW
      linear_combination hdm + hW
    obtain ⟨htop0, hval⟩ := digits_unique ⟨Int.natCast_nonneg _, by exact_mod_cast hU'⟩
      ⟨Int.natCast_nonneg _, by exact_mod_cast hmod.trans hVlt⟩ hrest
    have htopdig : Lo_32 (top - Lo_32 c) = 0 := by
      rw [hcLo, Lo_32]
      omega
    have hdigit : Lo_32 qp = Q := by
      rw [Lo_32_natCast]
      omega
    refine ⟨us', ?_, hlen', hdig', by exact_mod_cast hval⟩
    rw [testRemainder, decide_eq_false hneg, htopdig, hdigit]
    rfl

/-- **D3 to D6**: the digit is the quotient, and what is left is the remainder, under a zero
digit. -/
theorem quotientDigit_spec {us : List Nat} {top : Nat} (hv : IsDigits v) (hu : IsDigits us)
    (htop : top < base) (hlen : us.length = v.length) (hnorm : Normal v)
    (hlt : Nat.ofDigits base us + base ^ v.length * top < base * Nat.ofDigits base v) :
    ∃ us', quotientDigit v us top = some (us', 0,
        (Nat.ofDigits base us + base ^ v.length * top) / Nat.ofDigits base v) ∧
      us'.length = v.length ∧ IsDigits us' ∧ Nat.ofDigits base us' =
        (Nat.ofDigits base us + base ^ v.length * top) % Nat.ofDigits base v := by
  have hVlt := Nat.ofDigits_lt_base_pow_length one_lt_base hv
  obtain ⟨low, v2, v1, rfl, hbase⟩ := hnorm
  obtain ⟨ulow, u3, u2, rfl⟩ : ∃ low x y, us = low ++ [x, y] :=
    exists_two_last (by rw [hlen, List.length_append]; exact Nat.le_add_left _ _)
  have hlow : ulow.length = low.length := by simpa using hlen
  have hVpos : 0 < Nat.ofDigits base (low ++ [v2, v1]) :=
    Nat.pos_of_ne_zero fun h => by rw [h, Nat.mul_zero] at hlt; omega
  have hmem : ∀ {l : List Nat} {x y : Nat}, IsDigits (l ++ [x, y]) → IsDigits l ∧ x < base ∧ y < base :=
    fun h => ⟨fun d hd => h d (List.mem_append_left _ hd), h _ (by simp), h _ (by simp)⟩
  obtain ⟨hlowd, hv2, hv1⟩ := hmem hv
  obtain ⟨hulowd, hu3, hu2⟩ := hmem hu
  -- the leading digits of the window
  have hW : Nat.ofDigits base (ulow ++ [u3, u2]) + base ^ (low ++ [v2, v1]).length * top =
      ((top * base + u2) * base + u3) * base ^ low.length + Nat.ofDigits base ulow := by
    rw [ofDigits_two_last, hlow, List.length_append]
    simp only [List.length_cons, List.length_nil, pow_succ]
    ring
  obtain ⟨qp, htrial, hqb, hqlo, hqhi⟩ := trialDigit_spec hW
    (hlow ▸ Nat.ofDigits_lt_base_pow_length one_lt_base hulowd) (ofDigits_two_last low v2 v1)
    (Nat.ofDigits_lt_base_pow_length one_lt_base hlowd) hv1 hbase hv2 hu3 hlt
  obtain ⟨us', c, hsub, hlen', hdig', hc, hval⟩ := subMul_spec hqb hlen hu hv
    ⟨le_refl (0 : Int), Int.natCast_nonneg qp⟩
  obtain ⟨hlast, hsecond⟩ := getElem?_last low v2 v1
  obtain ⟨hulast, husecond⟩ := getElem?_last ulow u3 u2
  rw [hlen] at hulast husecond
  rw [quotientDigit, hlast, hsecond, hulast, husecond, Option.bind_some, Option.bind_some,
    Option.bind_some, Option.bind_some, htrial, Option.bind_some, hsub, Option.map_some]
  have hWval : ((Nat.ofDigits base (ulow ++ [u3, u2]) +
      base ^ (low ++ [v2, v1]).length * top : Nat) : Int) - qp * (Nat.ofDigits base (low ++ [v2, v1]) : Nat) =
      (Nat.ofDigits base us' : Nat) + ((base ^ (low ++ [v2, v1]).length : Nat) : Int) * (top - c) := by
    rw [hlen] at hval
    rw [Nat.cast_add, Nat.cast_mul, Nat.cast_pow]
    linear_combination hval
  obtain ⟨us, hrun, hspec⟩ := testRemainder_spec hv hdig' (hlen'.trans hlen) hVpos htop hqb hqlo hqhi hc
    hWval
  exact ⟨us, congrArg some hrun, hspec⟩

/-! ## The digits from the top down -/

/-- Where the numerator's digits are at step `j`. -/
theorem digitStep_spec {low us rest q : List Nat} {top : Nat} (hv : IsDigits v) (hu : IsDigits us)
    (htop : top < base) (hlen : us.length = v.length) (hnorm : Normal v)
    (hq : low.length < q.length)
    (hlt : Nat.ofDigits base us + base ^ v.length * top < base * Nat.ofDigits base v) :
    ∃ us', digitStep v low.length (low ++ (us ++ top :: rest)) q = some (low ++ (us' ++ 0 :: rest),
        q.set low.length ((Nat.ofDigits base us + base ^ v.length * top) / Nat.ofDigits base v)) ∧
      us'.length = v.length ∧ IsDigits us' ∧ Nat.ofDigits base us' =
        (Nat.ofDigits base us + base ^ v.length * top) % Nat.ofDigits base v := by
  obtain ⟨us', hrun, hlen', hspec⟩ := quotientDigit_spec hv hu htop hlen hnorm hlt
  refine ⟨us', ?_, hlen', hspec⟩
  have htopAt : (low ++ (us ++ top :: rest))[low.length + v.length]? = some top := by
    rw [← hlen, List.getElem?_append_right (Nat.le_add_right _ _), Nat.add_sub_cancel_left,
      List.getElem?_append_right (Nat.le_refl _), Nat.sub_self, List.getElem?_cons_zero]
  have hmid : ((low ++ (us ++ top :: rest)).drop low.length).take v.length = us := by
    rw [List.drop_left, ← hlen, List.take_left]
  have hrest : (low ++ (us ++ top :: rest)).drop (low.length + v.length + 1) = rest := by
    rw [Nat.add_assoc, ← List.drop_drop, List.drop_left, ← List.drop_drop, ← hlen, List.drop_left]
    rfl
  rw [digitStep, htopAt, hmid, Option.bind_some, hrun, Option.bind_some]
  dsimp only
  rw [if_neg (Nat.not_le.mpr hq), hrest, List.take_left]

/-- **The loop**: the digits of the quotient, and the remainder in the low digits. -/
theorem digitLoop_spec (hv : IsDigits v) (hnorm : Normal v) (hn : 0 < v.length) :
    ∀ {low us rest q : List Nat} {top : Nat}, IsDigits low → IsDigits us → top < base →
      us.length = v.length → low.length < q.length →
      Nat.ofDigits base us + base ^ v.length * top < base * Nat.ofDigits base v →
      ∃ u' q', digitLoop v low.length (low ++ (us ++ top :: rest)) q = some (u', q') ∧
        q'.length = q.length ∧ IsDigits (q'.take (low.length + 1)) ∧
        q'.drop (low.length + 1) = q.drop (low.length + 1) ∧
        IsDigits (u'.take v.length) ∧ v.length ≤ u'.length ∧
        Nat.ofDigits base (u'.take v.length) < Nat.ofDigits base v ∧
        Nat.ofDigits base (low ++ (us ++ [top])) =
          Nat.ofDigits base (q'.take (low.length + 1)) * Nat.ofDigits base v +
            Nat.ofDigits base (u'.take v.length) := by
  intro low
  induction low using List.reverseRecOn with
  | nil =>
    intro us rest q top _ hu htop hlen hq hlt
    obtain ⟨us', hrun, hlen', hdig', hval⟩ := digitStep_spec hv hu htop hlen hnorm hq hlt
    have hVpos : 0 < Nat.ofDigits base v :=
      Nat.pos_of_ne_zero fun h => by rw [h, Nat.mul_zero] at hlt; omega
    have hdigit := Nat.div_lt_of_lt_mul (hlt.trans_eq (Nat.mul_comm _ _))
    obtain ⟨q0, qs, rfl⟩ := List.exists_cons_of_length_pos hq
    have hu' : (us' ++ 0 :: rest).take v.length = us' := by rw [← hlen', List.take_left]
    refine ⟨us' ++ 0 :: rest, _, hrun, List.length_set, ?_, rfl, ?_, ?_, ?_, ?_⟩
    · exact List.forall_mem_singleton.mpr hdigit
    · rwa [hu']
    · rw [← hlen', List.length_append]
      exact Nat.le_add_right _ _
    · rw [hu', hval]
      exact Nat.mod_lt _ hVpos
    · rw [hu', hval, List.nil_append, Nat.ofDigits_append, Nat.ofDigits_singleton, hlen]
      show _ = Nat.ofDigits base [_] * _ + _
      rw [Nat.ofDigits_singleton]
      exact (Nat.div_add_mod' _ _).symm
  | append_singleton low x ih =>
    intro us rest q top hlow hu htop hlen hq hlt
    obtain ⟨us', hrun, hlen', hdig', hval⟩ := digitStep_spec hv hu htop hlen hnorm hq hlt
    have hVpos : 0 < Nat.ofDigits base v :=
      Nat.pos_of_ne_zero fun h => by rw [h, Nat.mul_zero] at hlt; omega
    have hdigit := Nat.div_lt_of_lt_mul (hlt.trans_eq (Nat.mul_comm _ _))
    have hdm := Nat.div_add_mod (Nat.ofDigits base us + base ^ v.length * top) (Nat.ofDigits base v)
    have hmod := Nat.mod_lt (Nat.ofDigits base us + base ^ v.length * top) hVpos
    have hx : x < base := hlow x (List.mem_append_right _ (List.mem_singleton_self x))
    rw [← hval] at hdm hmod
    generalize (Nat.ofDigits base us + base ^ v.length * top) / Nat.ofDigits base v = d at *
    -- the next digit of the dividend comes in below, the zero on top goes
    obtain ⟨init, last, rfl⟩ : ∃ init last, us' = init ++ [last] :=
      ⟨us'.dropLast, us'.getLast (List.ne_nil_of_length_pos (by omega)),
        (List.dropLast_concat_getLast _).symm⟩
    have hsplit : low ++ [x] ++ (init ++ [last] ++ 0 :: rest) =
        low ++ ((x :: init) ++ last :: (0 :: rest)) := by
      simp only [List.append_assoc, List.cons_append, List.nil_append]
    have hwindow : Nat.ofDigits base (x :: init) + base ^ v.length * last =
        x + base * Nat.ofDigits base (init ++ [last]) := by
      rw [Nat.ofDigits_cons, Nat.ofDigits_append, Nat.ofDigits_singleton, ← hlen', List.length_append,
        List.length_singleton, pow_succ]
      ring
    have hlt' : Nat.ofDigits base (x :: init) + base ^ v.length * last < base * Nat.ofDigits base v := by
      have hnext := Nat.mul_le_mul_left base (Nat.succ_le_of_lt hmod)
      rw [hwindow]
      rw [Nat.mul_succ] at hnext
      omega
    rw [List.length_append, List.length_singleton] at hq hrun ⊢
    obtain ⟨u', q', hrun', hlenq, hqdig, hqdrop, hu'dig, hu'len, hu'lt, hsum⟩ :=
      @ih (x :: init) (0 :: rest) (q.set (low.length + 1) d) last
        (fun e he => hlow e (List.mem_append_left _ he))
        (IsDigits.cons hx fun e he => hdig' e (List.mem_append_left _ he))
        (hdig' last (List.mem_append_right _ (List.mem_singleton_self last)))
        (by rw [← hlen', List.length_append]; rfl) (by rw [List.length_set]; omega) hlt'
    have hget : q'[low.length + 1]? = some d := by
      have h0 := congrArg (·[0]?) hqdrop
      simpa [List.getElem?_drop, hq] using h0
    have htake : q'.take (low.length + 1 + 1) = q'.take (low.length + 1) ++ [d] := by
      rw [List.take_add_one, hget]
      rfl
    refine ⟨u', q', ?_, hlenq.trans List.length_set, ?_, ?_, hu'dig, hu'len, hu'lt, ?_⟩
    · rw [digitLoop, hrun, Option.bind_some]
      dsimp only
      rw [hsplit]
      exact hrun'
    · rw [htake]
      exact List.forall_mem_append.mpr ⟨hqdig, List.forall_mem_singleton.mpr hdigit⟩
    · have h1 := congrArg (List.drop 1) hqdrop
      rw [List.drop_drop, List.drop_drop, List.drop_set_of_lt (by omega)] at h1
      exact h1
    · have hlenTake : (q'.take (low.length + 1)).length = low.length + 1 :=
        List.length_take_of_le (by rw [hlenq, List.length_set]; omega)
      have hlow : Nat.ofDigits base (low ++ [x]) + base ^ (low.length + 1) *
          Nat.ofDigits base (init ++ [last]) = Nat.ofDigits base (q'.take (low.length + 1)) *
            Nat.ofDigits base v + Nat.ofDigits base (u'.take v.length) := by
        rw [← hsum, show low ++ (x :: init ++ [last]) = low ++ [x] ++ (init ++ [last]) by simp,
          @Nat.ofDigits_append base (low ++ [x]), List.length_append, List.length_singleton]
      rw [htake, @Nat.ofDigits_append base (q'.take _), hlenTake, Nat.ofDigits_singleton,
        @Nat.ofDigits_append base (low ++ [x]), List.length_append, List.length_singleton,
        @Nat.ofDigits_append base us, Nat.ofDigits_singleton, hlen, ← hdm]
      linear_combination hlow

/-! ## Normalisation -/

theorem two_pow_mul_two_pow {s : Nat} (hs : s ≤ 32) : 2 ^ (32 - s) * 2 ^ s = base := by
  rw [← pow_add, Nat.sub_add_cancel hs]
  rfl

theorem shiftLeft_step {s d carry : Nat} (hs : s ≤ 32) (hd : d < base) (hc : carry < 2 ^ s) :
    ((d <<< s % 2 ^ 32) ||| carry) < base ∧ d >>> (32 - s) < 2 ^ s ∧
      d * 2 ^ s + carry = ((d <<< s % 2 ^ 32) ||| carry) + base * d >>> (32 - s) := by
  have hpow := two_pow_mul_two_pow hs
  have hmod : d <<< s % 2 ^ 32 = (d % 2 ^ (32 - s)) <<< s := by
    rw [Nat.shiftLeft_eq, Nat.shiftLeft_eq, ← Nat.mul_mod_mul_right, hpow]
    rfl
  have hdm := Nat.div_add_mod d (2 ^ (32 - s))
  have hlt := Nat.mod_lt d (Nat.two_pow_pos (32 - s))
  rw [hmod, ← Nat.shiftLeft_add_eq_or_of_lt hc, Nat.shiftLeft_eq, Nat.shiftRight_eq_div_pow]
  refine ⟨?_, Nat.div_lt_of_lt_mul (hd.trans_eq (by rw [← hpow])), ?_⟩
  · have hle := Nat.mul_le_mul_right (2 ^ s) (Nat.succ_le_of_lt hlt)
    rw [Nat.succ_mul, hpow] at hle
    omega
  · rw [← hpow]
    linear_combination (2 ^ s) * hdm.symm

theorem shiftLeft_spec {s : Nat} (hs : s ≤ 32) : ∀ {ds : List Nat} {carry : Nat}, IsDigits ds →
    carry < 2 ^ s → (shiftLeft s carry ds).1.length = ds.length ∧ IsDigits (shiftLeft s carry ds).1 ∧
      (shiftLeft s carry ds).2 < 2 ^ s ∧ Nat.ofDigits base ds * 2 ^ s + carry =
        Nat.ofDigits base (shiftLeft s carry ds).1 + base ^ ds.length * (shiftLeft s carry ds).2
  | [], carry, _, hc => ⟨rfl, List.forall_mem_nil _, hc, by simp [shiftLeft]⟩
  | d :: ds, carry, hds, hc => by
    obtain ⟨hdig, hcarry, hval⟩ := shiftLeft_step hs hds.head hc
    obtain ⟨hlen, hdig', hlt, hval'⟩ := shiftLeft_spec hs hds.tail hcarry
    rw [shiftLeft]
    refine ⟨congrArg Nat.succ hlen, hdig'.cons hdig, hlt, ?_⟩
    simp only [Nat.ofDigits_cons, List.length_cons, pow_succ]
    linear_combination hval + base * hval'

theorem shiftRight_step {s d D : Nat} (hs : s ≤ 32) (hd : d < base) :
    ((d >>> s) ||| (D % 2 ^ s * 2 ^ (32 - s))) < base ∧
      d <<< (32 - s) % 2 ^ 32 = (d + base * D) % 2 ^ s * 2 ^ (32 - s) ∧
      ((d >>> s) ||| (D % 2 ^ s * 2 ^ (32 - s))) + base * (D / 2 ^ s) = (d + base * D) / 2 ^ s := by
  have hpow := two_pow_mul_two_pow hs
  have hlow : d / 2 ^ s < 2 ^ (32 - s) := Nat.div_lt_of_lt_mul (hd.trans_eq (by rw [← hpow, Nat.mul_comm]))
  have hdm := Nat.div_add_mod D (2 ^ s)
  have hlt := Nat.mod_lt D (Nat.two_pow_pos s)
  have hbase : base * D = 2 ^ s * (2 ^ (32 - s) * D) := by
    rw [← hpow]
    ring
  rw [Nat.or_comm, ← Nat.shiftLeft_eq, ← Nat.shiftLeft_add_eq_or_of_lt
    (by rw [Nat.shiftRight_eq_div_pow]; exact hlow), Nat.shiftLeft_eq, Nat.shiftRight_eq_div_pow, hbase,
    Nat.add_mul_mod_self_left, Nat.add_mul_div_left _ _ (Nat.two_pow_pos s)]
  refine ⟨?_, ?_, ?_⟩
  · have hle := Nat.mul_le_mul_right (2 ^ (32 - s)) (Nat.succ_le_of_lt hlt)
    rw [Nat.succ_mul, Nat.mul_comm (2 ^ s), hpow] at hle
    omega
  · rw [Nat.shiftLeft_eq, ← Nat.mul_mod_mul_right, Nat.mul_comm (2 ^ s), hpow]
    rfl
  · rw [← hpow]
    linear_combination (2 ^ (32 - s)) * hdm

theorem shiftRight_spec {s : Nat} (hs : s ≤ 32) : ∀ {ds : List Nat}, IsDigits ds →
    (shiftRight s ds).1.length = ds.length ∧ IsDigits (shiftRight s ds).1 ∧
      Nat.ofDigits base (shiftRight s ds).1 = Nat.ofDigits base ds / 2 ^ s ∧
      (shiftRight s ds).2 = Nat.ofDigits base ds % 2 ^ s * 2 ^ (32 - s)
  | [], _ => ⟨rfl, List.forall_mem_nil _, by simp [shiftRight], by simp [shiftRight]⟩
  | d :: ds, hds => by
    obtain ⟨hlen, hdig, hval, hcarry⟩ := shiftRight_spec hs hds.tail
    obtain ⟨hlt, hout, hsum⟩ := shiftRight_step (D := Nat.ofDigits base ds) hs hds.head
    rw [shiftRight, hcarry]
    refine ⟨congrArg Nat.succ hlen, hdig.cons hlt, ?_, hout⟩
    rw [Nat.ofDigits_cons, Nat.ofDigits_cons, hval]
    exact hsum

theorem countl_zero_spec {x : Nat} (hx : x < base) (h0 : x ≠ 0) :
    countl_zero x ≤ 31 ∧ 2 ^ 31 ≤ x * 2 ^ countl_zero x ∧ (x + 1) * 2 ^ countl_zero x ≤ base := by
  have hlog : x.log2 < 32 := (Nat.log2_lt h0).mpr hx
  rw [countl_zero, if_neg h0]
  refine ⟨Nat.sub_le _ _, ?_, ?_⟩
  · calc 2 ^ 31 = 2 ^ x.log2 * 2 ^ (31 - x.log2) := by rw [← pow_add, Nat.add_sub_cancel' (by omega)]
      _ ≤ x * 2 ^ (31 - x.log2) := Nat.mul_le_mul_right _ (Nat.log2_self_le h0)
  · calc (x + 1) * 2 ^ (31 - x.log2) ≤ 2 ^ (x.log2 + 1) * 2 ^ (31 - x.log2) :=
          Nat.mul_le_mul_right _ Nat.lt_log2_self
      _ = base := by
        rw [← pow_add, show x.log2 + 1 + (31 - x.log2) = 32 by omega]
        rfl

theorem normalize_spec {s : Nat} (hs : s ≤ 32) (hds : IsDigits ds) :
    (normalize s ds).1.length = ds.length ∧ IsDigits (normalize s ds).1 ∧ (normalize s ds).2 < 2 ^ s ∧
      Nat.ofDigits base ds * 2 ^ s =
        Nat.ofDigits base (normalize s ds).1 + base ^ ds.length * (normalize s ds).2 := by
  rw [normalize]
  split
  · rename_i h
    rw [h]
    exact ⟨rfl, hds, Nat.one_pos, by simp⟩
  · exact shiftLeft_spec hs hds (Nat.two_pow_pos s)

theorem unnormalize_spec {s : Nat} (hs : s ≤ 32) (hds : IsDigits ds) :
    (unnormalize s ds).length = ds.length ∧ IsDigits (unnormalize s ds) ∧
      Nat.ofDigits base (unnormalize s ds) = Nat.ofDigits base ds / 2 ^ s := by
  rw [unnormalize]
  split
  · rename_i h
    rw [h]
    exact ⟨rfl, hds, (Nat.div_one _).symm⟩
  · obtain ⟨hlen, hdig, hval, -⟩ := shiftRight_spec hs hds
    exact ⟨hlen, hdig, hval⟩

theorem ofDigits_concat (low : List Nat) (x : Nat) :
    Nat.ofDigits base (low ++ [x]) = Nat.ofDigits base low + base ^ low.length * x := by
  rw [Nat.ofDigits_append, Nat.ofDigits_singleton]

/-- **D1**: the divisor's leading bit comes to the top and nothing is lost. -/
theorem normalize_divisor {top : Nat} (hv : IsDigits (v ++ [top])) (hn : 0 < v.length)
    (h0 : top ≠ 0) : Normal (normalize (countl_zero top) (v ++ [top])).1 ∧
      Nat.ofDigits base (normalize (countl_zero top) (v ++ [top])).1 =
        Nat.ofDigits base (v ++ [top]) * 2 ^ countl_zero top := by
  have htop : top < base := hv top (List.mem_append_right _ (List.mem_singleton_self top))
  obtain ⟨hs, hlo, hhi⟩ := countl_zero_spec htop h0
  obtain ⟨hlen, hdig, -, hval⟩ := normalize_spec (Nat.le_succ_of_le hs) hv
  have hlow := Nat.ofDigits_lt_base_pow_length one_lt_base
    (fun d hd => hv d (List.mem_append_left _ hd) : IsDigits v)
  generalize countl_zero top = s at *
  generalize normalize s (v ++ [top]) = r at *
  rw [List.length_append, List.length_singleton] at hlen hval
  have hpow : 0 < base ^ v.length := Nat.pow_pos (by decide)
  -- the number stays below the weight of the next digit
  have hupper : Nat.ofDigits base (v ++ [top]) * 2 ^ s < base ^ (v.length + 1) :=
    calc Nat.ofDigits base (v ++ [top]) * 2 ^ s < base ^ v.length * (top + 1) * 2 ^ s := by
          refine Nat.mul_lt_mul_of_pos_right ?_ (Nat.two_pow_pos s)
          rw [ofDigits_concat, Nat.mul_succ]
          omega
      _ = base ^ v.length * ((top + 1) * 2 ^ s) := Nat.mul_assoc _ _ _
      _ ≤ base ^ v.length * base := Nat.mul_le_mul_left _ hhi
      _ = base ^ (v.length + 1) := (pow_succ _ _).symm
  have hcarry : r.2 = 0 := by
    by_contra hne
    have hle := Nat.mul_le_mul_left (base ^ (v.length + 1)) (Nat.pos_of_ne_zero hne)
    omega
  rw [hcarry, Nat.mul_zero, Nat.add_zero] at hval
  refine ⟨?_, hval.symm⟩
  obtain ⟨low, x, y, hr⟩ := exists_two_last (l := r.1) (by omega)
  refine ⟨low, x, y, hr, ?_⟩
  have hlen' : (low ++ [x]).length = v.length := by
    rw [hr] at hlen
    simpa using hlen
  have hr' : r.1 = low ++ [x] ++ [y] := by rw [hr, List.append_assoc]; rfl
  have hinit := Nat.ofDigits_lt_base_pow_length one_lt_base
    (fun d hd => hdig d (hr' ▸ List.mem_append_left _ hd) : IsDigits (low ++ [x]))
  have hlower : base ^ v.length * 2 ^ 31 < base ^ v.length * (y + 1) :=
    calc base ^ v.length * 2 ^ 31 ≤ base ^ v.length * (top * 2 ^ s) := Nat.mul_le_mul_left _ hlo
      _ = base ^ v.length * top * 2 ^ s := (Nat.mul_assoc _ _ _).symm
      _ ≤ Nat.ofDigits base (v ++ [top]) * 2 ^ s := by
        refine Nat.mul_le_mul_right _ ?_
        rw [ofDigits_concat]
        exact Nat.le_add_left _ _
      _ < base ^ v.length * (y + 1) := by
        rw [hval, hr', ofDigits_concat, hlen', Nat.mul_succ]
        rw [hlen'] at hinit
        omega
  have hy := Nat.lt_of_mul_lt_mul_left hlower
  show 2 ^ 32 ≤ 2 * y
  omega

/-! ## `KnuthDiv` -/

/-- **Algorithm D** divides. -/
theorem KnuthDiv_spec {u q r : List Nat} {top : Nat} {m : Nat} (hv : IsDigits (v ++ [top]))
    (hn : 0 < v.length) (h0 : top ≠ 0) (hu : IsDigits (u.take (m + (v.length + 1))))
    (hlen : m + (v.length + 1) < u.length) (hq : m < q.length) :
    ∃ q' r', KnuthDiv u (v ++ [top]) q r m = some (q', r' ++ r.drop (v.length + 1)) ∧
      q'.length = q.length ∧ IsDigits (q'.take (m + 1)) ∧ q'.drop (m + 1) = q.drop (m + 1) ∧
      Nat.ofDigits base (q'.take (m + 1)) =
        Nat.ofDigits base (u.take (m + (v.length + 1))) / Nat.ofDigits base (v ++ [top]) ∧
      r'.length = v.length + 1 ∧ IsDigits r' ∧ Nat.ofDigits base r' =
        Nat.ofDigits base (u.take (m + (v.length + 1))) % Nat.ofDigits base (v ++ [top]) := by
  have htop : top < base := hv top (List.mem_append_right _ (List.mem_singleton_self top))
  obtain ⟨hs, hlo, hhi⟩ := countl_zero_spec htop h0
  obtain ⟨hnorm, hvval⟩ := normalize_divisor hv hn h0
  obtain ⟨hvlen, hvdig, -, -⟩ := normalize_spec (Nat.le_succ_of_le hs) hv
  obtain ⟨hulen, hudig, hcarry, huval⟩ := normalize_spec (Nat.le_succ_of_le hs) hu
  have hvn : (v ++ [top]).length = v.length + 1 := by rw [List.length_append, List.length_singleton]
  have hlast : (v ++ [top])[(v ++ [top]).length - 1]? = some top := by simp
  have hrun : KnuthDiv u (v ++ [top]) q r m =
      (digitLoop (normalize (countl_zero top) (v ++ [top])).1 m
        ((normalize (countl_zero top) (u.take (m + (v.length + 1)))).1 ++
          (normalize (countl_zero top) (u.take (m + (v.length + 1)))).2 ::
            u.drop (m + (v.length + 1) + 1)) q).map
        fun p => (p.2, unnormalize (countl_zero top) (p.1.take (v.length + 1)) ++
          r.drop (v.length + 1)) := by
    show (Option.bind _ _) = _
    rw [hlast, Option.bind_some, hvn]
    dsimp only
    rw [if_neg (Nat.not_le.mpr hlen)]
  rw [hrun]
  rw [List.length_take_of_le hlen.le] at hulen huval
  rw [hvn] at hvlen
  generalize countl_zero top = s at *
  generalize (normalize s (v ++ [top])).1 = v' at *
  generalize normalize s (u.take (m + (v.length + 1))) = u' at *
  -- the first window: the carry on top of the highest digits
  obtain ⟨low, us, hsplit, hlow, hus⟩ : ∃ low us, u'.1 = low ++ us ∧ low.length = m ∧
      us.length = v'.length :=
    ⟨u'.1.take m, u'.1.drop m, (List.take_append_drop _ _).symm,
      List.length_take_of_le (by omega), by rw [List.length_drop]; omega⟩
  rw [hsplit] at hudig huval ⊢
  have hVlt : base ^ v.length * 2 ^ 31 ≤ Nat.ofDigits base v' := by
    rw [hvval, ofDigits_concat, Nat.add_mul, Nat.mul_assoc]
    exact (Nat.mul_le_mul_left _ hlo).trans (Nat.le_add_left _ _)
  have hwindow : Nat.ofDigits base us + base ^ v'.length * u'.2 < base * Nat.ofDigits base v' :=
    calc Nat.ofDigits base us + base ^ v'.length * u'.2 < base ^ v'.length * (u'.2 + 1) := by
          have hlt := Nat.ofDigits_lt_base_pow_length one_lt_base
            (fun d hd => hudig d (List.mem_append_right _ hd) : IsDigits us)
          rw [hus] at hlt
          rw [Nat.mul_succ]
          omega
      _ ≤ base ^ v'.length * 2 ^ 31 :=
          Nat.mul_le_mul_left _ ((Nat.succ_le_of_lt hcarry).trans (Nat.pow_le_pow_right (by decide) hs))
      _ = base * (base ^ v.length * 2 ^ 31) := by rw [hvlen, pow_succ]; ring
      _ ≤ base * Nat.ofDigits base v' := Nat.mul_le_mul_left _ hVlt
  have hcarryDigit : u'.2 < base :=
    hcarry.trans_le ((Nat.pow_le_pow_right (by decide) hs).trans (by decide))
  obtain ⟨uf, qf, hloop, hqlen, hqdig, hqdrop, hufdig, huflen, huflt, hsum⟩ :=
    @digitLoop_spec v' hvdig hnorm (by omega) low us (u.drop (m + (v.length + 1) + 1)) q u'.2
      (fun d hd => hudig d (List.mem_append_left _ hd))
      (fun d hd => hudig d (List.mem_append_right _ hd)) hcarryDigit hus (by omega) hwindow
  rw [hlow] at hloop hqdig hqdrop hsum
  rw [hvlen] at hufdig huflen huflt hsum
  obtain ⟨hrlen, hrdig, hrval⟩ := unnormalize_spec (Nat.le_succ_of_le hs) hufdig
  have hwhole : Nat.ofDigits base (low ++ (us ++ [u'.2])) =
      Nat.ofDigits base (u.take (m + (v.length + 1))) * 2 ^ s := by
    rw [huval, ← List.append_assoc, ofDigits_concat, List.length_append, hlow, hus, hvlen]
  rw [hwhole, hvval] at hsum
  rw [hvval] at huflt
  obtain ⟨hquot, hrem⟩ := (Nat.div_mod_unique (Nat.zero_lt_of_lt huflt)).mpr
    ⟨((Nat.add_comm _ _).trans (congrArg (· + _) (Nat.mul_comm _ _))).trans hsum.symm, huflt⟩
  refine ⟨qf, unnormalize s (uf.take (v.length + 1)), ?_, hqlen, hqdig, hqdrop, ?_, ?_, hrdig, ?_⟩
  · rw [List.append_assoc, hloop]
    rfl
  · rw [← hquot, Nat.mul_div_mul_right _ _ (Nat.two_pow_pos s)]
  · rw [hrlen, List.length_take_of_le huflen]
  · rw [hrval, ← hrem, Nat.mul_mod_mul_right, Nat.mul_div_cancel _ (Nat.two_pow_pos s)]

end RvLlvm.APInt
