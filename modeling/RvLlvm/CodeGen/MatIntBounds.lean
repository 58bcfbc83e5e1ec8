import RvLlvm.CodeGen.MatIntSeq

/-!
# The sequences are legal and short

How far `generateInstSeqImpl` recurs, and what `generateInstSeq` emits. Each call of the recursion
takes 12 bits off the constant at least, so four calls are enough for 64 bits, and a call adds two
instructions at most.

* `isInt_shiftDown`: the measure, the signed bits of what is left.
* `nested_generateInstSeqImpl`, `length_generateInstSeqImpl`: at most four calls and eight
  instructions.
* `legal_and_bounded`: every instruction of either function is legal, and there are eight at most,
  two for a constant of 32 bits.
-/

namespace RvLlvm.CodeGen.MatInt

open Support

/-! ## The recursion -/

/-- The calls of `generateInstSeqImpl` on `val`, one inside the other. -/
inductive Nested (f : FeatureBitset) : BitVec 64 → Nat → Prop
  | bit {val} : f.stdExtZbs ∧ isPowerOf2_64 val ∧ (¬isInt 32 val ∨ val = 0x800) → Nested f val 1
  | int32 {val} : isInt 32 val → Nested f val 1
  | call {val n} : ¬isInt 32 val → Nested f (shiftDown f (val - signExtend64 12 val)).val n →
      Nested f val (n + 1)

variable {f : FeatureBitset} {val x : BitVec 64} {res tmpSeq : InstSeq}

theorem odd_of_getLsbD_zero {z : BitVec 64} (h : z.getLsbD 0 = true) : z.toInt % 2 = 1 := by
  rw [BitVec.getLsbD, Nat.testBit_zero, decide_eq_true_eq] at h
  rcases toInt_or z with hz | hz
  · omega
  · omega

/-- Shifted by its trailing zeros, a word is odd. -/
theorem odd_sshiftRight_ctz (hx : x ≠ 0) : (x.sshiftRight x.ctz.toNat).toInt % 2 = 1 := by
  refine odd_of_getLsbD_zero ?_
  rw [BitVec.getLsbD_sshiftRight, Nat.add_zero, if_pos (ctz_lt hx)]
  simpa using BitVec.getLsbD_true_ctz_of_ne_zero hx

theorem two_pow_ctz_dvd (hx : x ≠ 0) : ((2 ^ x.ctz.toNat : Nat) : Int) ∣ x.toInt := by
  have hlow : x.toNat % 2 ^ x.ctz.toNat = 0 := by
    refine Nat.eq_of_testBit_eq fun i => ?_
    rw [Nat.testBit_mod_two_pow, Nat.zero_testBit]
    by_cases hi : i < x.ctz.toNat
    · rw [BitVec.testBit_toNat, BitVec.getLsbD_false_of_lt_ctz hi, Bool.and_false]
    · rw [decide_eq_false hi, Bool.false_and]
  have hnat : ((2 ^ x.ctz.toNat : Nat) : Int) ∣ x.toNat :=
    Int.natCast_dvd_natCast.mpr (Nat.dvd_of_mod_eq_zero hlow)
  have htop : ((2 ^ x.ctz.toNat : Nat) : Int) ∣ (2 ^ 64 : Nat) :=
    Int.natCast_dvd_natCast.mpr (Nat.pow_dvd_pow 2 (ctz_lt hx).le)
  rcases toInt_or x with heq | heq
  · rw [heq]
    exact hnat
  · rw [heq]
    exact Int.dvd_sub hnat htop

theorem toInt_sshiftRight_ctz_mul (hx : x ≠ 0) :
    (x.sshiftRight x.ctz.toNat).toInt * (2 ^ x.ctz.toNat : Nat) = x.toInt := by
  rw [BitVec.toInt_sshiftRight, Int.shiftRight_eq_div_pow]
  exact Int.ediv_mul_cancel (two_pow_ctz_dvd hx)

/-- The word without its low 12 bits is near the word, unless it wraps. -/
theorem sub_signExtend64_bounds {m : Nat} (hm : m ≤ 51) (h : isInt (m + 13) val) :
    -(4096 * 2 ^ m + 2048 : Nat) ≤ (val - signExtend64 12 val).toInt ∧
      (val - signExtend64 12 val).toInt ≤ (4096 * 2 ^ m + 2048 : Nat) := by
  have hlo := imm12_signExtend64 val
  have hsub : (val - signExtend64 12 val).toInt =
      (val.toInt - (signExtend64 12 val).toInt).bmod (2 ^ 64) := BitVec.toInt_sub
  have hpow : (2 : Int) ^ (m + 13 - 1) = ((4096 * 2 ^ m : Nat) : Int) := by
    rw [show m + 13 - 1 = 12 + m by omega, Int.pow_add]
    push_cast
    rfl
  have hP : 2 ^ m ≤ 2 ^ 51 := Nat.pow_le_pow_right (by decide) hm
  rw [isInt, hpow] at h
  rw [hsub, Int.bmod_def]
  by_cases hfull : 2 ^ m = 2 ^ 51
  · rw [hfull] at h ⊢
    omega
  · have hhalf : 2 ^ m ≤ 2 ^ 50 := by
      refine Nat.pow_le_pow_right (by decide) ?_
      by_contra hlt
      exact hfull (by rw [show m = 51 by omega])
    omega

/-- An odd number, of which a multiple by a power of two is within an even bound. -/
theorem odd_lt_bound {z K P : Int} (hodd : z % 2 = 1) (hP : P % 2 = 0) (hK : 1 ≤ K)
    (hlo : -P ≤ z * K) (hhi : z * K ≤ P) : -P ≤ z ∧ z < P := by
  rcases Int.lt_or_gt_of_ne (show z ≠ 0 by omega) with hneg | hpos
  · have hle : z * K ≤ z * 1 := Int.mul_le_mul_of_nonpos_left (by omega) hK
    omega
  · have hle : z * 1 ≤ z * K := Int.mul_le_mul_of_nonneg_left hK (by omega)
    omega

/-- **One call takes off 12 signed bits**, or leaves 32: after the low 12 bits the trailing zeros go
as well, so what is left is odd and stays off the bound that rounding reaches. -/
theorem isInt_shiftDown {m : Nat} (hm : 0 < m) (hm51 : m ≤ 51) (h : isInt (m + 13) val) :
    isInt 32 (shiftDown f (val - signExtend64 12 val)).val ∨
      isInt (m + 1) (shiftDown f (val - signExtend64 12 val)).val := by
  rcases shiftDown_val f (val - signExtend64 12 val) with h32 | heq
  · exact .inl h32
  have hbounds := sub_signExtend64_bounds hm51 h
  have hlow : ∀ i < 12, (val - signExtend64 12 val).getLsbD i = false :=
    fun i hi => getLsbD_sub_signExtend64 val hi
  rw [heq]
  generalize val - signExtend64 12 val = x at *
  by_cases hx : x = 0
  · left
    rw [hx, BitVec.ofNat_eq_ofNat, BitVec.zero_sshiftRight]
    decide
  right
  have hctz := le_ctz hx hlow
  have hodd := odd_sshiftRight_ctz hx
  have hmul := toInt_sshiftRight_ctz_mul hx
  -- the quotient by 4096, of which only trailing zeros are left to shift out
  obtain ⟨k, hk⟩ : ∃ k, x.ctz.toNat = 12 + k := ⟨x.ctz.toNat - 12, by omega⟩
  rw [hk] at hodd hmul ⊢
  have hP : ((2 ^ m : Nat) : Int) % 2 = 0 := by
    rw [show m = m - 1 + 1 by omega, Nat.pow_succ]
    omega
  have hK : (1 : Int) ≤ (2 ^ k : Nat) := by
    have := Nat.two_pow_pos k
    omega
  have hquot : (x.sshiftRight (12 + k)).toInt * (2 ^ k : Nat) * 4096 = x.toInt := by
    rw [← hmul, Nat.pow_add, Int.mul_assoc, Int.mul_comm ((2 ^ k : Nat) : Int)]
    norm_cast
  rw [isInt, Nat.add_sub_cancel]
  exact_mod_cast odd_lt_bound hodd hP hK (by omega) (by omega)

theorem isInt_mono {m n : Nat} (hmn : m ≤ n) (h : isInt m val) : isInt n val := by
  have hpow : (2 : Int) ^ (m - 1) ≤ 2 ^ (n - 1) := by
    exact_mod_cast Nat.pow_le_pow_right (show 0 < 2 by decide) (show m - 1 ≤ n - 1 by omega)
  rw [isInt] at h ⊢
  omega

/-- Whatever holds of constants of 32 bits, and of one more call when it holds of the rest, holds
of `28 + 12 * k` bits after `k` calls. -/
theorem call_induction {P : Nat → BitVec 64 → Prop} (hbase : ∀ k val, isInt 32 val → P k val)
    (hcall : ∀ k val, ¬isInt 32 val → P k (shiftDown f (val - signExtend64 12 val)).val →
      P (k + 1) val)
    {k : Nat} (hk : k ≤ 3) (h : isInt (28 + 12 * k) val) : P k val := by
  induction k generalizing val with
  | zero => exact hbase 0 val (isInt_mono (by decide) h)
  | succ k ih =>
    by_cases h32 : isInt 32 val
    · exact hbase _ val h32
    refine hcall k val h32 ?_
    rw [show 28 + 12 * (k + 1) = 12 * k + 27 + 13 by omega] at h
    rcases isInt_shiftDown (f := f) (by omega) (by omega) h with hrest | hrest
    · exact hbase k _ hrest
    · exact ih (by omega) (isInt_mono (by omega) hrest)

theorem isInt_64 (val : BitVec 64) : isInt 64 val := by
  have hlo := @BitVec.le_toInt 64 val
  have hhi := @BitVec.toInt_lt 64 val
  exact ⟨by simpa using hlo, by simpa using hhi⟩

/-- The recursion goes four calls deep at most. -/
theorem nested_generateInstSeqImpl (f : FeatureBitset) (val : BitVec 64) :
    ∃ n ≤ 4, Nested f val n := by
  refine call_induction (f := f) (P := fun k val => ∃ n ≤ k + 1, Nested f val n) ?_ ?_
    (by decide : 3 ≤ 3) (isInt_64 val)
  · intro k val h32
    exact ⟨1, by omega, .int32 h32⟩
  · rintro k val h32 ⟨n, hn, hnest⟩
    exact ⟨n + 1, by omega, .call h32 hnest⟩

theorem length_optional (p : Prop) [Decidable p] (i : Inst) :
    (if p then [i] else []).length ≤ 1 := by
  split
  · exact Nat.le_refl 1
  · exact Nat.zero_le 1

/-- One call adds a shift and an ADDI at most. -/
theorem length_call (f : FeatureBitset) (h32 : ¬isInt 32 val) :
    (generateInstSeqImpl f val).length ≤
      (generateInstSeqImpl f (shiftDown f (val - signExtend64 12 val)).val).length + 2 := by
  rw [generateInstSeqImpl]
  split
  · rw [List.length_singleton]
    omega
  · dsimp only
    rw [List.length_append, List.length_append, Nat.add_assoc]
    exact Nat.add_le_add_left (Nat.add_le_add (length_optional _ _) (length_optional _ _)) _

theorem length_generateInstSeqImpl (f : FeatureBitset) (val : BitVec 64) :
    (generateInstSeqImpl f val).length ≤ 8 := by
  refine call_induction (f := f) (P := fun k val => (generateInstSeqImpl f val).length ≤ 2 + 2 * k)
    ?_ ?_ (by decide : 3 ≤ 3) (isInt_64 val)
  · intro k val h32
    exact (length_generateInstSeqImpl_le f h32).trans (Nat.le_add_right 2 _)
  · intro k val h32 hrest
    have hcall := length_call f h32
    omega

/-! ## The attempts -/

theorem length_improve (tmpSeq res : InstSeq) (i : Inst) :
    (improve tmpSeq res i).length ≤ res.length := by
  rw [improve]
  split
  · rename_i h
    rw [List.length_append, List.length_singleton]
    exact h.le
  · exact Nat.le_refl _

theorem length_trySLLI (f : FeatureBitset) (val : BitVec 64) (res : InstSeq) :
    (trySLLI f val res).length ≤ max 2 res.length := by
  rw [trySLLI]
  split
  · dsimp only
    split
    · rename_i h
      rw [List.length_append, List.length_singleton]
      rcases h with h | h
      · omega
      · have hsix := length_generateInstSeqImpl_six f h.1
        omega
    · exact Nat.le_max_right _ _
  · exact Nat.le_max_right _ _

theorem length_trySRLI (f : FeatureBitset) (val : BitVec 64) (res : InstSeq) :
    (trySRLI f val res).length ≤ res.length := by
  rw [trySRLI]
  split
  · dsimp only
    have htwice := (length_improve (generateInstSeqImpl f ((val <<< val.clz.toNat |||
      maskTrailingOnes val.clz.toNat) &&& ~~~maskTrailingOnes val.clz.toNat)) _
        ⟨.SRLI, val.clz.toNat⟩).trans (length_improve (generateInstSeqImpl f
          (val <<< val.clz.toNat ||| maskTrailingOnes val.clz.toNat)) res ⟨.SRLI, val.clz.toNat⟩)
    split
    · exact (length_improve _ _ _).trans htwice
    · exact htwice
  · exact Nat.le_refl _

theorem length_tryPACK (f : FeatureBitset) (val : BitVec 64) (res : InstSeq) :
    (tryPACK f val res).length ≤ res.length := by
  rw [tryPACK]
  split
  · dsimp only
    split
    · exact length_improve _ _ _
    · exact Nat.le_refl _
  · exact Nat.le_refl _

theorem length_tryBit31 (f : FeatureBitset) (val : BitVec 64) (res : InstSeq) :
    (tryBit31 f val res).length ≤ res.length := by
  rw [tryBit31]
  split_ifs
  · exact length_improve _ _ _
  · exact Nat.le_refl _
  · exact length_improve _ _ _
  · exact Nat.le_refl _

theorem length_tryUpperBits (f : FeatureBitset) (val : BitVec 64) (res : InstSeq) :
    (tryUpperBits f val res).length ≤ res.length := by
  rw [tryUpperBits]
  split
  · split
    · rename_i h
      exact h.le
    · exact Nat.le_refl _
  · exact Nat.le_refl _

theorem length_tryZbs (f : FeatureBitset) (val : BitVec 64) (res : InstSeq) :
    (tryZbs f val res).length ≤ res.length := by
  rw [tryZbs]
  split
  · exact (length_tryUpperBits f val _).trans (length_tryBit31 f val res)
  · exact Nat.le_refl _

theorem length_tryShAdd (f : FeatureBitset) (val : BitVec 64) (res : InstSeq) :
    (tryShAdd f val res).length ≤ res.length := by
  rw [tryShAdd]
  split
  · split
    · exact length_improve _ _ _
    · dsimp only
      split
      · split
        · rename_i h
          rw [List.length_append]
          exact h.le
        · exact Nat.le_refl _
      · exact Nat.le_refl _
  · exact Nat.le_refl _

theorem length_tryRotate (f : FeatureBitset) (val : BitVec 64) (res : InstSeq) :
    (tryRotate f val res).length ≤ res.length := by
  rw [tryRotate]
  split
  · rename_i h
    dsimp only
    split
    · exact h.1.le
    · exact Nat.le_refl _
  · exact Nat.le_refl _

theorem length_generateInstSeq (f : FeatureBitset) (val : BitVec 64) :
    (generateInstSeq f val).length ≤ 8 := by
  have himpl := length_generateInstSeqImpl f val
  have hfirst := length_trySLLI f val (generateInstSeqImpl f val)
  rw [generateInstSeq]
  split
  · omega
  · refine (length_tryRotate f val _).trans ((length_tryShAdd f val _).trans
      ((length_tryZbs f val _).trans ((length_tryPACK f val _).trans
        ((length_trySRLI f val _).trans ?_))))
    omega

theorem length_generateInstSeq_int32 (f : FeatureBitset) (h32 : isInt 32 val) :
    (generateInstSeq f val).length ≤ 2 := by
  have hshort : (trySLLI f val (generateInstSeqImpl f val)).length ≤ 2 :=
    length_trySLLI_le f (length_generateInstSeqImpl_le f h32)
  rw [generateInstSeq, if_pos hshort]
  exact hshort

/-! ## The instructions -/

/-- A sequence that runs has legal instructions only. -/
theorem legal_of_run {w : Nat} {seq : InstSeq} {v : BitVec w} (h : run f w seq = some v) :
    ∀ i ∈ seq, i.legal f w := by
  rw [run] at h
  generalize (0 : BitVec w) = x at h
  induction seq generalizing x with
  | nil => exact fun i hi => absurd hi List.not_mem_nil
  | cons i seq ih =>
    rw [List.foldlM_cons] at h
    obtain ⟨y, hy, hrest⟩ := Option.bind_eq_some_iff.mp h
    intro j hj
    rcases List.mem_cons.mp hj with rfl | hj
    · rw [exec] at hy
      by_contra hillegal
      rw [if_neg hillegal] at hy
      cases hy
    · exact ih y hrest j hj

/-- **The sequences are legal and bounded.** On RV32 a constant has 32 signed bits. -/
theorem legal_and_bounded (f : FeatureBitset) (val : BitVec 64) :
    (∃ n ≤ 4, Nested f val n) ∧
      ((generateInstSeqImpl f val).length ≤ 8 ∧ (generateInstSeq f val).length ≤ 8) ∧
      (isInt 32 val →
        (generateInstSeqImpl f val).length ≤ 2 ∧ (generateInstSeq f val).length ≤ 2) ∧
      ∀ w, w = 64 ∧ f.feature64Bit = true ∨ w = 32 ∧ f.feature64Bit = false ∧ isInt 32 val →
        ∀ i, i ∈ generateInstSeqImpl f val ∨ i ∈ generateInstSeq f val → i.legal f w := by
  refine ⟨nested_generateInstSeqImpl f val,
    ⟨length_generateInstSeqImpl f val, length_generateInstSeq f val⟩,
    fun h32 => ⟨length_generateInstSeqImpl_le f h32, length_generateInstSeq_int32 f h32⟩, ?_⟩
  rintro w (⟨rfl, hf⟩ | ⟨rfl, hf, h32⟩) i (hi | hi)
  · exact legal_of_run (run_generateInstSeqImpl hf val) i hi
  · exact legal_of_run (run_generateInstSeq_rv64 hf val) i hi
  · exact legal_of_run (run_generateInstSeqImpl32 (by simp [hf]) h32) i hi
  · exact legal_of_run (run_generateInstSeq_rv32 (by simp [hf]) h32) i hi

/-- A constant of 64 bits on RV64, and one of 32 bits on RV32. -/
theorem legal_and_bounded_words :
    (generateInstSeq ⟨true, true, true, true, true, true, false⟩ 0x123456789abcdef0).length ≤ 8 ∧
      (generateInstSeq ⟨false, true, false, true, false, false, false⟩ 0x12345678).length ≤ 2 :=
  ⟨(legal_and_bounded _ _).2.1.2, ((legal_and_bounded _ _).2.2.1 (by decide)).2⟩

/-- On RV32 a single bit above the word is set with an immediate that cannot be encoded. -/
theorem wide_constant_illegal :
    ¬∀ (f : FeatureBitset) (val : BitVec 64) (w : Nat), (w = if f.feature64Bit then 64 else 32) →
      ∀ i ∈ generateInstSeq f val, i.legal f w := by
  intro h
  have himpl : generateInstSeqImpl ⟨false, false, false, true, false, false, false⟩ 0x100000000 =
      [⟨.BSETI, 32⟩] := by
    rw [generateInstSeqImpl, if_pos (by decide),
      show (0x100000000 : BitVec 64).ctz.toNat = 32 by decide +kernel]
    rfl
  have hseq : generateInstSeq ⟨false, false, false, true, false, false, false⟩ 0x100000000 =
      [⟨.BSETI, 32⟩] := by
    rw [generateInstSeq, himpl]
    rfl
  have hlegal := h ⟨false, false, false, true, false, false, false⟩ 0x100000000 32 rfl ⟨.BSETI, 32⟩
  rw [hseq] at hlegal
  exact absurd (hlegal (List.mem_singleton.mpr rfl)) (by decide)

end RvLlvm.CodeGen.MatInt
