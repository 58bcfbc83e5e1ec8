import RvLlvm.CodeGen.MatInt
import RvLlvm.Support.LowBit

/-!
# The recursive expansion is right

What `generateInstSeqImpl` emits leaves the constant in the register: by recursion on the constant,
each shift and ADDI undoing what was taken off.
-/

namespace RvLlvm.CodeGen.MatInt

open Support

variable {f : FeatureBitset} {w : Nat} {val : BitVec 64}

/-! ## Running a sequence -/

theorem run_append {seq : InstSeq} {x : BitVec w} (h : run f w seq = some x) (rest : InstSeq) :
    run f w (seq ++ rest) = rest.foldlM (exec f) x := by
  rw [run, List.foldlM_append, ← run, h]
  rfl

theorem run_concat {seq : InstSeq} {x : BitVec w} (h : run f w seq = some x) (i : Inst) :
    run f w (seq ++ [i]) = exec f x i := by
  rw [run_append h, List.foldlM_cons]
  cases exec f x i <;> rfl

theorem run_singleton (i : Inst) : run f w [i] = exec f 0 i := run_concat (rfl : run f w [] = some 0) i

section
variable {x : BitVec w} {imm : Int}

theorem exec_lui (h : 0 ≤ imm ∧ imm < 2 ^ 20) :
    exec f x ⟨.LUI, imm⟩ = some ((BitVec.ofInt 32 (imm * 2 ^ 12)).signExtend w) := if_pos h

theorem exec_addi (h : -2 ^ 11 ≤ imm ∧ imm < 2 ^ 11) :
    exec f x ⟨.ADDI, imm⟩ = some (x + BitVec.ofInt w imm) := if_pos h

theorem exec_addiw (hf : f.feature64Bit) (h : -2 ^ 11 ≤ imm ∧ imm < 2 ^ 11) :
    exec f x ⟨.ADDIW, imm⟩ = some ((x.setWidth 32 + BitVec.ofInt 32 imm).signExtend w) :=
  if_pos ⟨hf, h⟩

theorem exec_slli {k : Nat} (h : k < w) : exec f x ⟨.SLLI, k⟩ = some (x <<< k) :=
  if_pos ⟨Int.natCast_nonneg k, Int.ofNat_lt.mpr h⟩

theorem exec_slli_uw {k : Nat} (hf : f.feature64Bit) (hz : f.stdExtZba) (h : k < w) :
    exec f x ⟨.SLLI_UW, k⟩ = some (zextW x <<< k) :=
  if_pos ⟨hf, hz, Int.natCast_nonneg k, Int.ofNat_lt.mpr h⟩

theorem exec_bseti {k : Nat} (hz : f.stdExtZbs) (h : k < w) :
    exec f x ⟨.BSETI, k⟩ = some (x ||| BitVec.twoPow w k) :=
  if_pos ⟨hz, Int.natCast_nonneg k, Int.ofNat_lt.mpr h⟩

end

/-! ## Constants of 32 bits -/

theorem isPowerOf2_64_eq (h : isPowerOf2_64 val) : val = BitVec.twoPow 64 val.ctz.toNat := by
  obtain ⟨hne, hand⟩ := h
  rw [and_sub_one hne] at hand
  refine BitVec.eq_of_getLsbD_eq fun i hi => ?_
  have hbit := congrArg (fun y => y.getLsbD i) hand
  rw [BitVec.getLsbD_twoPow]
  by_cases hc : val.ctz.toNat = i
  · subst hc
    simpa [hi] using BitVec.getLsbD_true_ctz_of_ne_zero hne
  · simpa [hi, hc, Ne.symm hc] using hbit

/-- What LUI and ADDI(W) add up to. -/
theorem int32_split (h : isInt 32 val) : ∃ q : Int,
    ((((val + 0x800).sshiftRight 12 &&& 0xFFFFF).toNat : Nat) : Int) = q % 2 ^ 20 ∧
      (signExtend64 12 val).toInt = val.toInt - q * 2 ^ 12 ∧ -2 ^ 19 ≤ q ∧ q ≤ 2 ^ 19 := by
  rw [isInt] at h
  refine ⟨(val.toInt + 0x800) / 2 ^ 12, ?_, ?_, by omega, by omega⟩
  · have hsum : (val + 0x800).toInt = val.toInt + 0x800 := by
      rw [BitVec.toInt_add, show (0x800 : BitVec 64).toInt = 0x800 from rfl, Int.bmod_def]
      omega
    have hshift : ((val + 0x800).sshiftRight 12).toInt = (val.toInt + 0x800) / 2 ^ 12 := by
      rw [BitVec.toInt_sshiftRight, hsum, Int.shiftRight_eq_div_pow]
      rfl
    have hlow := BitVec.toInt_eq_toNat_bmod ((val + 0x800).sshiftRight 12)
    rw [hshift, Int.bmod_def] at hlow
    rw [BitVec.toNat_and, show (0xFFFFF : BitVec 64).toNat = 2 ^ 20 - 1 from rfl,
      Nat.and_two_pow_sub_one_eq_mod]
    omega
  · rw [toInt_signExtend64 (by decide), Int.bmod_def]
    omega

theorem imm12_signExtend64 (val : BitVec 64) :
    -2 ^ 11 ≤ (signExtend64 12 val).toInt ∧ (signExtend64 12 val).toInt < 2 ^ 11 :=
  isInt_signExtend64 (show 12 ≤ 64 by decide) (by decide) val

theorem run_int32Seq (hw : w = 64 ∧ f.feature64Bit ∨ w = 32 ∧ ¬f.feature64Bit)
    (h : isInt 32 val) : run f w (int32Seq f val) = some (BitVec.ofInt w val.toInt) := by
  obtain ⟨q, hhi, hlo, hq⟩ := int32_split h
  have himm := imm12_signExtend64 val
  rw [isInt] at h
  rw [int32Seq]
  generalize ((val + 0x800).sshiftRight 12 &&& 0xFFFFF).toNat = hi20 at hhi ⊢
  generalize (signExtend64 12 val).toInt = lo12 at hlo himm ⊢
  have hlui : (0 : Int) ≤ hi20 ∧ (hi20 : Int) < 2 ^ 20 := by omega
  have hrun : run f w [⟨.LUI, hi20⟩] = _ := (run_singleton _).trans (exec_lui hlui)
  by_cases h0 : hi20 = 0
  · simp only [h0, ne_eq, not_true_eq_false, if_false, or_true, if_true, and_false,
      List.nil_append]
    rw [run_singleton, exec_addi himm, show lo12 = val.toInt by omega]
    exact congrArg some (BitVec.zero_add _)
  · by_cases hl : lo12 = 0
    · simp only [h0, hl, ne_eq, not_true_eq_false, not_false_eq_true, if_true, or_self, if_false,
        List.append_nil]
      rw [hrun]
      refine congrArg some (BitVec.eq_of_toInt_eq ?_)
      rcases hw with ⟨rfl, -⟩ | ⟨rfl, -⟩ <;>
        rw [BitVec.toInt_signExtend_of_le (by decide), BitVec.toInt_ofInt, BitVec.toInt_ofInt,
          Int.bmod_def, Int.bmod_def] <;> omega
    · simp only [h0, hl, ne_eq, not_false_eq_true, if_true, or_false, and_true]
      have hsum : BitVec.ofInt 32 (hi20 * 2 ^ 12) + BitVec.ofInt 32 lo12 =
          BitVec.ofInt 32 val.toInt := by
        rw [← BitVec.ofInt_add]
        refine BitVec.eq_of_toInt_eq ?_
        rw [BitVec.toInt_ofInt, BitVec.toInt_ofInt, Int.bmod_def, Int.bmod_def]
        omega
      rcases hw with ⟨rfl, hf⟩ | ⟨rfl, hf⟩
      · rw [if_pos hf, run_concat hrun, exec_addiw hf himm, setWidth_signExtend (by decide), hsum]
        refine congrArg some (BitVec.eq_of_toInt_eq ?_)
        rw [BitVec.toInt_signExtend_of_le (by decide), BitVec.toInt_ofInt, BitVec.toInt_ofInt,
          Int.bmod_def, Int.bmod_def]
        omega
      · rw [if_neg hf, run_concat hrun, exec_addi himm, BitVec.signExtend_eq, hsum]

/-! ## The shifts -/

theorem getLsbD_zextW (x : BitVec 64) (i : Nat) :
    (zextW x).getLsbD i = (decide (i < 32) && x.getLsbD i) := by
  rw [zextW, BitVec.getLsbD_setWidth, BitVec.getLsbD_setWidth]
  by_cases hi : i < 32
  · rw [decide_eq_true hi, decide_eq_true (hi.trans (by decide)), Bool.true_and]
  · rw [decide_eq_false hi, Bool.false_and, Bool.and_false]

variable {x : BitVec 64}

theorem zextW_eq_self (h : x.toNat < 2 ^ 32) : zextW x = x := by
  refine BitVec.eq_of_getLsbD_eq fun i _ => ?_
  rw [getLsbD_zextW]
  by_cases hi : i < 32
  · rw [decide_eq_true hi, Bool.true_and]
  · rw [getLsbD_of_toNat_lt h (Nat.not_lt.mp hi), Bool.and_false]

theorem zextW_or_highOnes (h : x.toNat < 2 ^ 32) : zextW (x ||| highOnes) = x := by
  refine BitVec.eq_of_getLsbD_eq fun i _ => ?_
  rw [getLsbD_zextW, BitVec.getLsbD_or, getLsbD_highOnes]
  by_cases hi : i < 32
  · rw [decide_eq_true hi, decide_eq_false (Nat.not_le.mpr hi), Bool.true_and, Bool.false_and,
      Bool.or_false]
  · rw [decide_eq_false hi, getLsbD_of_toNat_lt h (Nat.not_lt.mp hi), Bool.false_and]

/-- Shifting back gives `val <<< amount`. -/
structure Restores (f : FeatureBitset) (s : Shifted) (val : BitVec 64) (amount : Nat) : Prop where
  eq : (if s.isUnsigned then zextW s.val else s.val) <<< s.amount = val <<< amount
  pos : 0 < s.amount
  le : s.amount ≤ amount
  zba : s.isUnsigned → f.stdExtZba

theorem restores_shiftForLUI (f : FeatureBitset) (val : BitVec 64) {amount : Nat}
    (h : 0 < amount) : Restores f (shiftForLUI f val amount) val amount := by
  have hsame : Restores f ⟨val, amount, false⟩ val amount := ⟨rfl, h, Nat.le_refl _, by simp⟩
  rw [shiftForLUI]
  split
  · rename_i hwide
    have hshift : (val <<< 12) <<< (amount - 12) = val <<< amount := by
      rw [← BitVec.shiftLeft_add, Nat.add_sub_cancel' hwide.1.le]
    split
    · exact ⟨hshift, by simp only; omega, Nat.sub_le _ _, by simp⟩
    · split
      · rename_i hu
        refine ⟨?_, by simp only; omega, Nat.sub_le _ _, fun _ => hu.2⟩
        simp only [if_true, zextW_or_highOnes hu.1, hshift]
      · exact hsame
  · exact hsame

theorem restores_shiftUW {s : Shifted} {amount : Nat} (h : Restores f s val amount) :
    Restores f (shiftUW f s) val amount := by
  rw [shiftUW]
  split
  · rename_i hu
    refine ⟨?_, h.pos, h.le, fun _ => hu.2.2⟩
    have heq := h.eq
    rw [zextW_eq_self hu.1, ite_self] at heq
    simp only [if_true, zextW_or_highOnes hu.1, heq]
  · exact h

theorem sshiftRight_shiftLeft {k : Nat} (h : ∀ i < k, x.getLsbD i = false) :
    x.sshiftRight k <<< k = x := by
  refine BitVec.eq_of_getLsbD_eq fun i hi => ?_
  rw [BitVec.getLsbD_shiftLeft, decide_eq_true hi, Bool.true_and]
  by_cases hik : i < k
  · rw [decide_eq_true hik, h i hik]
    rfl
  · rw [decide_eq_false hik, BitVec.getLsbD_sshiftRight, Nat.add_sub_cancel' (Nat.not_lt.mp hik),
      if_pos hi]
    simp [show i - k < 64 by omega]

theorem ctz_lt (hx : x ≠ 0) : x.ctz.toNat < 64 := BitVec.ctz_lt_iff_ne_zero.mpr hx

/-! ## The recursion -/

/-- The instruction that shifts back, if there is one. -/
theorem run_shift (hf : f.feature64Bit) (hlow : ∀ i < 12, x.getLsbD i = false) {seq : InstSeq}
    (h : run f 64 seq = some (shiftDown f x).val) :
    run f 64 (seq ++ if (shiftDown f x).amount ≠ 0 then
      [⟨if (shiftDown f x).isUnsigned then .SLLI_UW else .SLLI, (shiftDown f x).amount⟩] else []) =
      some x := by
  by_cases hx : isInt 32 x
  · have hs : shiftDown f x = ⟨x, 0, false⟩ := if_pos hx
    rw [hs] at h ⊢
    rw [if_neg (not_not.mpr rfl), List.append_nil, h]
  · have hne : x ≠ 0 := fun h0 => hx (by simp [h0, isInt])
    have hctz := le_ctz hne hlow
    obtain ⟨heq, hpos, hle, hzba⟩ : Restores f (shiftDown f x) _ _ := by
      rw [shiftDown, if_neg hx]
      exact restores_shiftUW (restores_shiftForLUI f _ (by omega))
    rw [sshiftRight_shiftLeft fun i hi => BitVec.getLsbD_false_of_lt_ctz hi] at heq
    have hlt := hle.trans_lt (ctz_lt hne)
    rw [if_pos hpos.ne', run_concat h]
    by_cases hu : (shiftDown f x).isUnsigned
    · rw [if_pos hu] at heq ⊢
      rw [exec_slli_uw hf (hzba hu) hlt, heq]
    · rw [if_neg hu] at heq ⊢
      rw [exec_slli hlt, heq]

theorem run_lo12 {seq : InstSeq} (h : run f 64 seq = some (x - signExtend64 12 x)) :
    run f 64 (seq ++ if signExtend64 12 x ≠ 0 then [⟨.ADDI, (signExtend64 12 x).toInt⟩] else []) =
      some x := by
  split
  · rw [run_concat h, exec_addi (imm12_signExtend64 x), BitVec.ofInt_toInt, BitVec.sub_add_cancel]
  · rename_i hlo
    rw [List.append_nil, h, not_not.mp hlo]
    exact congrArg some (BitVec.sub_zero x)

/-- **On RV64 the expansion leaves the constant.** -/
theorem run_generateInstSeqImpl (hf : f.feature64Bit) (val : BitVec 64) :
    run f 64 (generateInstSeqImpl f val) = some val := by
  induction val using generateInstSeqImpl.induct f with
  | case1 val h =>
    have hpow := isPowerOf2_64_eq h.2.1
    rw [generateInstSeqImpl, if_pos h, run_singleton, exec_bseti h.1 (ctz_lt h.2.1.1), ← hpow]
    exact congrArg some (BitVec.zero_or)
  | case2 val h h32 =>
    rw [generateInstSeqImpl, if_neg h, dif_pos h32, run_int32Seq (.inl ⟨rfl, hf⟩) h32,
      BitVec.ofInt_toInt]
  | case3 val h h32 lo12 s ih =>
    rw [generateInstSeqImpl, if_neg h, dif_neg h32]
    exact run_lo12 (run_shift hf (fun i hi => getLsbD_sub_signExtend64 val hi) ih)

theorem ctz_0x800 : (0x800 : BitVec 64).ctz.toNat = 11 := by decide +kernel

/-- **On RV32 it leaves a constant of 32 bits.** -/
theorem run_generateInstSeqImpl32 (hf : ¬f.feature64Bit) (h32 : isInt 32 val) :
    run f 32 (generateInstSeqImpl f val) = some (val.setWidth 32) := by
  have hofInt : BitVec.ofInt 32 val.toInt = val.setWidth 32 := by
    refine BitVec.eq_of_toInt_eq ?_
    rw [BitVec.toInt_ofInt, BitVec.toInt_setWidth, BitVec.toInt_eq_toNat_bmod,
      Int.bmod_bmod_of_dvd (by decide)]
  rw [generateInstSeqImpl]
  by_cases h : f.stdExtZbs ∧ isPowerOf2_64 val ∧ (¬isInt 32 val ∨ val = 0x800)
  · obtain rfl : val = 0x800 := h.2.2.resolve_left (not_not.mpr h32)
    rw [if_pos h, run_singleton, ctz_0x800, exec_bseti h.1 (by decide)]
    rfl
  · rw [if_neg h, dif_pos h32, run_int32Seq (.inr ⟨rfl, hf⟩) h32, hofInt]

/-- A constant of 32 bits takes two instructions at most. -/
theorem length_generateInstSeqImpl_le (f : FeatureBitset) (h32 : isInt 32 val) :
    (generateInstSeqImpl f val).length ≤ 2 := by
  rw [generateInstSeqImpl]
  split
  · exact Nat.le_succ 1
  · rw [int32Seq]
    split <;> split <;> simp

end RvLlvm.CodeGen.MatInt
