import RvLlvm.IR.RangeDivision
import Mathlib.Data.BitVec
import Mathlib.Tactic.Abel

/-!
# Sums and differences of ranges

Model of `ConstantRange::add` and `sub` (`llvm/lib/IR/ConstantRange.cpp:991-1011` and `:1044-1064`).
A range is an arc of `size` words from its lower end, and the sums of two arcs are an arc again: the
source finds that it covers all words by comparing its size with those of the operands.

* `mem_add`, `mem_sub`: exactly the sums and the differences.
-/

namespace RvLlvm.IR.ConstantRange

open Support.WordOrder

variable {w : Nat}

/-- The end of `add` and `sub`. -/
def wrappedOrRange (A B : ConstantRange w) (NewLower NewUpper : BitVec w) : ConstantRange w :=
  if h : NewLower = NewUpper then getFull A.pos
  else
    let X := ofNe NewLower NewUpper A.pos h
    -- a range smaller than an operand has wrapped
    if X.isSizeStrictlySmallerThan A || X.isSizeStrictlySmallerThan B then getFull A.pos else X

def add (A B : ConstantRange w) : ConstantRange w :=
  if A.isEmptySet || B.isEmptySet then getEmpty A.pos
  else if A.isFullSet || B.isFullSet then getFull A.pos
  else wrappedOrRange A B (A.Lower + B.Lower) (A.Upper + B.Upper - 1)

def sub (A B : ConstantRange w) : ConstantRange w :=
  if A.isEmptySet || B.isEmptySet then getEmpty A.pos
  else if A.isFullSet || B.isFullSet then getFull A.pos
  else wrappedOrRange A B (A.Lower - B.Upper + 1) (A.Upper - B.Lower)

variable {A B : ConstantRange w} {a b x : BitVec w}

/-! ## Arcs -/

theorem mem_iff_lower : x ∈ A ↔ ∃ i < A.size, x = A.Lower + BitVec.ofNat w i := by
  rw [mem_iff_lt_size]
  constructor
  · intro h
    refine ⟨_, h, ?_⟩
    rw [BitVec.ofNat_toNat, BitVec.setWidth_eq, BitVec.add_comm, BitVec.sub_add_cancel]
  · rintro ⟨i, hi, rfl⟩
    have hsize := A.size_le
    rw [BitVec.add_comm, BitVec.add_sub_cancel, BitVec.toNat_ofNat, Nat.mod_eq_of_lt (by omega)]
    exact hi

/-- From the upper end down. -/
theorem mem_iff_upper (hA : A.Lower ≠ A.Upper) :
    x ∈ A ↔ ∃ i < A.size, x = A.Upper - 1 - BitVec.ofNat w i := by
  have hsize : A.size = (A.Upper - A.Lower).toNat := by
    rw [size, if_neg]
    rw [isFullSet_iff]
    rw [Ne, eq_iff] at hA
    exact fun h => hA h.1
  have hpos : 0 < A.size := by
    have hsub := toNat_sub_cases A.Upper A.Lower
    have hU := A.Upper.isLt
    have hL := A.Lower.isLt
    rw [Ne, eq_iff] at hA
    omega
  have hupper : A.Upper - 1 = A.Lower + BitVec.ofNat w (A.size - 1) := by
    have hofNat : BitVec.ofNat w (A.size - 1) = A.Upper - A.Lower - 1 := by
      rw [eq_iff, BitVec.toNat_ofNat, Nat.mod_eq_of_lt (by have := (A.Upper - A.Lower).isLt; omega)]
      have hsub := toNat_sub_cases (A.Upper - A.Lower) 1
      have h1 := toNat_one A.pos
      omega
    rw [hofNat]
    abel
  have hsplit : ∀ i, i < A.size →
      BitVec.ofNat w (A.size - 1) - BitVec.ofNat w i = BitVec.ofNat w (A.size - 1 - i) := by
    intro i hi
    have hadd : BitVec.ofNat w (A.size - 1 - i) + BitVec.ofNat w i = BitVec.ofNat w (A.size - 1) := by
      rw [← BitVec.ofNat_add, Nat.sub_add_cancel (by omega)]
    rw [← hadd, BitVec.add_sub_cancel]
  rw [mem_iff_lower, hupper]
  constructor
  · rintro ⟨i, hi, rfl⟩
    refine ⟨A.size - 1 - i, by omega, ?_⟩
    rw [add_sub_assoc, hsplit _ (by omega), show A.size - 1 - (A.size - 1 - i) = i by omega]
  · rintro ⟨i, hi, rfl⟩
    refine ⟨A.size - 1 - i, by omega, ?_⟩
    rw [add_sub_assoc, hsplit _ hi]

/-- The sums of two arcs. -/
theorem arc_add {s : BitVec w} {m n : Nat} (hm : 0 < m) (hn : 0 < n) :
    (∃ i < m, ∃ j < n, x = s + BitVec.ofNat w (i + j)) ↔ (x - s).toNat < m + n - 1 := by
  constructor
  · rintro ⟨i, hi, j, hj, rfl⟩
    rw [BitVec.add_comm, BitVec.add_sub_cancel, BitVec.toNat_ofNat]
    have hmod := Nat.mod_le (i + j) (2 ^ w)
    omega
  · intro h
    have hx : x = s + BitVec.ofNat w (x - s).toNat := by
      rw [BitVec.ofNat_toNat, BitVec.setWidth_eq, BitVec.add_comm, BitVec.sub_add_cancel]
    by_cases hlt : (x - s).toNat < m
    · exact ⟨(x - s).toNat, hlt, 0, hn, by rw [Nat.add_zero]; exact hx⟩
    · refine ⟨m - 1, by omega, (x - s).toNat - (m - 1), by omega, ?_⟩
      rw [Nat.add_sub_cancel' (by omega)]
      exact hx

theorem size_pos (h : ¬A.isEmptySet = true) : 0 < A.size := by
  obtain ⟨a, ha⟩ := exists_mem h
  exact Nat.lt_of_le_of_lt (Nat.zero_le _) (mem_iff_lt_size.mp ha)

/-- `wrappedOrRange` is an arc with the size of the sums. -/
theorem mem_wrappedOrRange {L U : BitVec w} (hA : 0 < A.size) (hB : 0 < B.size)
    (hA' : A.size < 2 ^ w) (hB' : B.size < 2 ^ w)
    (hsize : U - L = BitVec.ofNat w (A.size + B.size - 1)) :
    x ∈ wrappedOrRange A B L U ↔ (x - L).toNat < A.size + B.size - 1 := by
  have hxL := (x - L).isLt
  have hUL : (U - L).toNat = (A.size + B.size - 1) % 2 ^ w := by rw [hsize, BitVec.toNat_ofNat]
  have hmod : A.size + B.size - 1 < 2 ^ w ∧ (U - L).toNat = A.size + B.size - 1 ∨
      2 ^ w ≤ A.size + B.size - 1 ∧ (U - L).toNat + 2 ^ w = A.size + B.size - 1 := by
    rw [hUL]
    by_cases hlt : A.size + B.size - 1 < 2 ^ w
    · exact .inl ⟨hlt, Nat.mod_eq_of_lt hlt⟩
    · refine .inr ⟨by omega, ?_⟩
      rw [Nat.mod_eq_sub_mod (by omega), Nat.mod_eq_of_lt (by omega)]
      omega
  have hdiff := toNat_sub_cases U L
  unfold wrappedOrRange
  by_cases h : L = U
  · rw [dif_pos h]
    rw [eq_iff] at h
    have hUlt := U.isLt
    exact iff_of_true (mem_getFull A.pos x) (by omega)
  · rw [dif_neg h]
    dsimp only
    have hXsize : (ofNe L U A.pos h).size = (U - L).toNat := by
      rw [size, if_neg]
      rw [isFullSet_iff]
      exact fun hfull => h (eq_iff.mpr hfull.1)
    split_ifs with hsmall
    · rw [Bool.or_eq_true, isSizeStrictlySmallerThan_iff, isSizeStrictlySmallerThan_iff, hXsize] at hsmall
      exact iff_of_true (mem_getFull A.pos x) (by omega)
    · rw [Bool.or_eq_true, isSizeStrictlySmallerThan_iff, isSizeStrictlySmallerThan_iff, hXsize] at hsmall
      rw [mem_iff_lt_size, hXsize]
      show (x - L).toNat < (U - L).toNat ↔ _
      omega

theorem lower_ne_upper (hempty : ¬A.isEmptySet = true) (hfull : ¬A.isFullSet = true) :
    A.Lower ≠ A.Upper := by
  have hproper := Proper.of_not hempty hfull
  rw [Ne, eq_iff]
  exact hproper

theorem upper_eq (hfull : ¬A.isFullSet = true) :
    A.size < 2 ^ w ∧ A.Upper = A.Lower + BitVec.ofNat w A.size := by
  have hsize : A.size = (A.Upper - A.Lower).toNat := by rw [size, if_neg hfull]
  refine ⟨hsize ▸ (A.Upper - A.Lower).isLt, ?_⟩
  rw [hsize, BitVec.ofNat_toNat, BitVec.setWidth_eq, BitVec.add_comm, BitVec.sub_add_cancel]

/-! ## Sums and differences -/

theorem mem_add : x ∈ add A B ↔ ∃ a ∈ A, ∃ b ∈ B, a + b = x := by
  unfold add
  by_cases hempty : (A.isEmptySet || B.isEmptySet) = true
  · rw [if_pos hempty]
    rw [Bool.or_eq_true, isEmptySet_iff_forall, isEmptySet_iff_forall] at hempty
    refine iff_of_false (not_mem_getEmpty A.pos x) ?_
    rintro ⟨a, ha, b, hb, -⟩
    exact hempty.elim (fun h => h a ha) fun h => h b hb
  rw [if_neg hempty]
  rw [Bool.or_eq_true, not_or] at hempty
  obtain ⟨a₀, ha₀⟩ := exists_mem hempty.1
  obtain ⟨b₀, hb₀⟩ := exists_mem hempty.2
  by_cases hfull : (A.isFullSet || B.isFullSet) = true
  · rw [if_pos hfull]
    rw [Bool.or_eq_true, isFullSet_iff_forall, isFullSet_iff_forall] at hfull
    refine iff_of_true (mem_getFull A.pos x) ?_
    rcases hfull with h | h
    · exact ⟨x - b₀, h _, b₀, hb₀, BitVec.sub_add_cancel x b₀⟩
    · exact ⟨a₀, ha₀, x - a₀, h _, by rw [BitVec.add_comm, BitVec.sub_add_cancel]⟩
  rw [if_neg hfull]
  rw [Bool.or_eq_true, not_or] at hfull
  obtain ⟨hAlt, hAU⟩ := upper_eq hfull.1
  obtain ⟨hBlt, hBU⟩ := upper_eq hfull.2
  have hA := size_pos hempty.1
  have hB := size_pos hempty.2
  have hsize : A.Upper + B.Upper - 1 - (A.Lower + B.Lower) = BitVec.ofNat w (A.size + B.size - 1) := by
    have hsum : BitVec.ofNat w (A.size + B.size - 1) + 1 = BitVec.ofNat w A.size + BitVec.ofNat w B.size := by
      rw [← BitVec.ofNat_add, BitVec.ofNat_eq_ofNat, ← BitVec.ofNat_add, Nat.sub_add_cancel (by omega)]
    rw [hAU, hBU, eq_sub_of_add_eq hsum]
    abel
  rw [mem_wrappedOrRange hA hB hAlt hBlt hsize, ← arc_add hA hB]
  constructor
  · rintro ⟨i, hi, j, hj, rfl⟩
    refine ⟨_, mem_iff_lower.mpr ⟨i, hi, rfl⟩, _, mem_iff_lower.mpr ⟨j, hj, rfl⟩, ?_⟩
    rw [BitVec.ofNat_add]
    abel
  · rintro ⟨a, ha, b, hb, rfl⟩
    obtain ⟨i, hi, rfl⟩ := mem_iff_lower.mp ha
    obtain ⟨j, hj, rfl⟩ := mem_iff_lower.mp hb
    refine ⟨i, hi, j, hj, ?_⟩
    rw [BitVec.ofNat_add]
    abel

theorem mem_sub : x ∈ sub A B ↔ ∃ a ∈ A, ∃ b ∈ B, a - b = x := by
  unfold sub
  by_cases hempty : (A.isEmptySet || B.isEmptySet) = true
  · rw [if_pos hempty]
    rw [Bool.or_eq_true, isEmptySet_iff_forall, isEmptySet_iff_forall] at hempty
    refine iff_of_false (not_mem_getEmpty A.pos x) ?_
    rintro ⟨a, ha, b, hb, -⟩
    exact hempty.elim (fun h => h a ha) fun h => h b hb
  rw [if_neg hempty]
  rw [Bool.or_eq_true, not_or] at hempty
  obtain ⟨a₀, ha₀⟩ := exists_mem hempty.1
  obtain ⟨b₀, hb₀⟩ := exists_mem hempty.2
  by_cases hfull : (A.isFullSet || B.isFullSet) = true
  · rw [if_pos hfull]
    rw [Bool.or_eq_true, isFullSet_iff_forall, isFullSet_iff_forall] at hfull
    refine iff_of_true (mem_getFull A.pos x) ?_
    rcases hfull with h | h
    · exact ⟨x + b₀, h _, b₀, hb₀, BitVec.add_sub_cancel x b₀⟩
    · exact ⟨a₀, ha₀, a₀ - x, h _, by abel⟩
  rw [if_neg hfull]
  rw [Bool.or_eq_true, not_or] at hfull
  obtain ⟨hAlt, hAU⟩ := upper_eq hfull.1
  obtain ⟨hBlt, hBU⟩ := upper_eq hfull.2
  have hA := size_pos hempty.1
  have hB := size_pos hempty.2
  have hsize : A.Upper - B.Lower - (A.Lower - B.Upper + 1) = BitVec.ofNat w (A.size + B.size - 1) := by
    have hsum : BitVec.ofNat w (A.size + B.size - 1) + 1 = BitVec.ofNat w A.size + BitVec.ofNat w B.size := by
      rw [← BitVec.ofNat_add, BitVec.ofNat_eq_ofNat, ← BitVec.ofNat_add, Nat.sub_add_cancel (by omega)]
    rw [hAU, hBU, eq_sub_of_add_eq hsum]
    abel
  rw [mem_wrappedOrRange hA hB hAlt hBlt hsize, ← arc_add hA hB]
  have hBne := lower_ne_upper hempty.2 hfull.2
  constructor
  · rintro ⟨i, hi, j, hj, rfl⟩
    refine ⟨_, mem_iff_lower.mpr ⟨i, hi, rfl⟩, _, (mem_iff_upper hBne).mpr ⟨j, hj, rfl⟩, ?_⟩
    rw [BitVec.ofNat_add]
    abel
  · rintro ⟨a, ha, b, hb, rfl⟩
    obtain ⟨i, hi, rfl⟩ := mem_iff_lower.mp ha
    obtain ⟨j, hj, rfl⟩ := (mem_iff_upper hBne).mp hb
    refine ⟨i, hi, j, hj, ?_⟩
    rw [BitVec.ofNat_add]
    abel

end RvLlvm.IR.ConstantRange
