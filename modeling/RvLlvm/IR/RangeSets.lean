import RvLlvm.IR.ConstantRange
import Mathlib.Tactic.Tauto

/-!
# Intersections and unions of ranges

Model of `getPreferredRange`, `intersectWith`, `unionWith`, `exactIntersectWith` and
`exactUnionWith` (`llvm/lib/IR/ConstantRange.cpp:500-715`). The common values of two ranges, or all
their values, are not always one range; a range that covers them is returned then.

* `intersectWith_cases`, `unionWith_cases`: the result is exact, or the set has two gaps, which no
  range has.
* `exactIntersectWith_iff`, `exactUnionWith_iff`: a range is returned exactly when it has the
  members of the set.
* `intersections_and_unions`: all of it, with the sizes.
-/

namespace RvLlvm.IR.ConstantRange

open Support.WordOrder

variable {w : Nat}

inductive PreferredRangeType where
  | Smallest | Unsigned | Signed
deriving DecidableEq

/-- `getPreferredRange`. -/
def getPreferredRange (CR1 CR2 : ConstantRange w) (type : PreferredRangeType) : ConstantRange w :=
  if type = .Unsigned ∧ CR1.isWrappedSet = false ∧ CR2.isWrappedSet = true then CR1
  else if type = .Unsigned ∧ CR1.isWrappedSet = true ∧ CR2.isWrappedSet = false then CR2
  else if type = .Signed ∧ CR1.isSignWrappedSet = false ∧ CR2.isSignWrappedSet = true then CR1
  else if type = .Signed ∧ CR1.isSignWrappedSet = true ∧ CR2.isSignWrappedSet = false then CR2
  else if CR1.isSizeStrictlySmallerThan CR2 then CR1
  else CR2

theorem ne_of_lt {a b : BitVec w} (h : a < b) : a ≠ b := by
  rw [BitVec.lt_def] at h
  rw [Ne, eq_iff]
  omega

theorem ne_of_not_le {a b : BitVec w} (h : ¬a ≤ b) : b ≠ a := by
  rw [BitVec.le_def] at h
  rw [Ne, eq_iff]
  omega

/-- The upper end of one range is below that of another, which is wrapped. -/
theorem ne_of_wrapped {A B : ConstantRange w} (hA : A.isUpperWrapped = true)
    (h : B.Upper < A.Upper) : A.Lower ≠ B.Upper := by
  rw [isUpperWrapped_iff] at hA
  rw [BitVec.lt_def] at h
  rw [Ne, eq_iff]
  omega

theorem ne_of_wrapped' {A B : ConstantRange w} (hA : A.isUpperWrapped = true)
    (h : ¬B.Lower < A.Lower) : B.Lower ≠ A.Upper := by
  rw [isUpperWrapped_iff] at hA
  rw [BitVec.lt_def] at h
  rw [Ne, eq_iff]
  omega

theorem wrapped_of_not_flat {a b : Bool} (h : b = true → a = true) (hflat : ¬(a = false ∧ b = false)) :
    a = true := by
  cases a
  · exact h (by simpa using hflat)
  · rfl

theorem wrapped_of_not_swap {a b : Bool} (h : ¬(a = false ∧ b = true)) (hb : b = true) : a = true := by
  cases a
  · exact absurd ⟨rfl, hb⟩ h
  · rfl

/-- `intersectWith` past its first checks, after which the second range wraps around only if the
first does. -/
def intersectProper (A B : ConstantRange w) (type : PreferredRangeType)
    (h : B.isUpperWrapped = true → A.isUpperWrapped = true) : ConstantRange w :=
  if hflat : A.isUpperWrapped = false ∧ B.isUpperWrapped = false then
    if A.Lower < B.Lower then
      if h1 : A.Upper ≤ B.Lower then getEmpty A.pos
      else if A.Upper < B.Upper then ofNe B.Lower A.Upper A.pos (ne_of_not_le h1)
      else B
    else if A.Upper < B.Upper then A
    else if h1 : A.Lower < B.Upper then ofNe A.Lower B.Upper A.pos (ne_of_lt h1)
    else getEmpty A.pos
  else if A.isUpperWrapped = true ∧ B.isUpperWrapped = false then
    if h1 : B.Lower < A.Upper then
      if B.Upper < A.Upper then B
      else if B.Upper ≤ A.Lower then ofNe B.Lower A.Upper A.pos (ne_of_lt h1)
      else getPreferredRange A B type
    else if B.Lower < A.Lower then
      if h2 : B.Upper ≤ A.Lower then getEmpty A.pos
      else ofNe A.Lower B.Upper A.pos (ne_of_not_le h2)
    else B
  else
    have hA : A.isUpperWrapped = true := wrapped_of_not_flat h hflat
    if h1 : B.Upper < A.Upper then
      if B.Lower < A.Upper then getPreferredRange A B type
      else if B.Lower < A.Lower then ofNe A.Lower B.Upper A.pos (ne_of_wrapped hA h1)
      else B
    else if B.Upper ≤ A.Lower then
      if h2 : B.Lower < A.Lower then A
      else ofNe B.Lower A.Upper A.pos (ne_of_wrapped' hA h2)
    else getPreferredRange A B type

/-- `intersectWith`. -/
def intersectWith (A B : ConstantRange w) (type : PreferredRangeType) : ConstantRange w :=
  if A.isEmptySet || B.isFullSet then A
  else if B.isEmptySet || A.isFullSet then B
  else if h : A.isUpperWrapped = false ∧ B.isUpperWrapped = true then
    intersectProper B A type fun _ => h.2
  else
    intersectProper A B type (wrapped_of_not_swap h)

/-- A range that is neither empty nor full. -/
def Proper (A : ConstantRange w) : Prop := A.Lower.toNat ≠ A.Upper.toNat

theorem Proper.of_not {A : ConstantRange w} (he : ¬A.isEmptySet = true) (hf : ¬A.isFullSet = true) :
    A.Proper := by
  rw [isEmptySet_iff] at he
  rw [isFullSet_iff] at hf
  unfold Proper
  omega

theorem proper_of_not {A B : ConstantRange w} (h1 : ¬(A.isFullSet || B.isEmptySet) = true)
    (h2 : ¬(B.isFullSet || A.isEmptySet) = true) : A.Proper ∧ B.Proper := by
  rw [Bool.or_eq_true, not_or] at h1 h2
  exact ⟨.of_not h2.2 h1.1, .of_not h1.2 h2.1⟩

/-! ## The bounds of a union -/

theorem bounds_apart {A B : ConstantRange w} (hA : A.Proper) (hB : B.Proper)
    (hflat : A.isUpperWrapped = false ∧ B.isUpperWrapped = false)
    (h : B.Upper < A.Lower ∨ A.Upper < B.Lower) : A.Lower ≠ B.Upper ∧ B.Lower ≠ A.Upper := by
  unfold Proper at hA hB
  rw [isUpperWrapped_eq_false_iff, isUpperWrapped_eq_false_iff] at hflat
  rw [BitVec.lt_def, BitVec.lt_def] at h
  rw [Ne, Ne, eq_iff, eq_iff]
  omega

theorem bounds_joined {A B : ConstantRange w} (hA : A.Proper) (hB : B.Proper)
    (hflat : A.isUpperWrapped = false ∧ B.isUpperWrapped = false) :
    (if B.Lower < A.Lower then B.Lower else A.Lower) ≠
      if A.Upper - 1 < B.Upper - 1 then B.Upper else A.Upper := by
  have h1 := toNat_one A.pos
  have hAU := toNat_sub_cases A.Upper 1
  have hBU := toNat_sub_cases B.Upper 1
  unfold Proper at hA hB
  rw [isUpperWrapped_eq_false_iff, isUpperWrapped_eq_false_iff] at hflat
  simp only [BitVec.lt_def]
  rw [Ne, eq_iff]
  split_ifs <;> omega

theorem bounds_missed {A B : ConstantRange w} (h1 : ¬(B.Upper ≤ A.Upper ∨ A.Lower ≤ B.Lower))
    (h2 : ¬(B.Lower ≤ A.Upper ∧ A.Lower ≤ B.Upper)) (h3 : ¬(A.Upper < B.Lower ∧ A.Lower ≤ B.Upper)) :
    A.Lower ≠ B.Upper := by
  simp only [BitVec.le_def, BitVec.lt_def] at h1 h2 h3
  rw [Ne, eq_iff]
  omega

theorem bounds_wrapped {A B : ConstantRange w} (hA : A.isUpperWrapped = true)
    (hB : ¬B.isUpperWrapped = false) (h : ¬(B.Lower ≤ A.Upper ∨ A.Lower ≤ B.Upper)) :
    (if B.Lower < A.Lower then B.Lower else A.Lower) ≠
      if A.Upper < B.Upper then B.Upper else A.Upper := by
  rw [isUpperWrapped_iff] at hA
  rw [isUpperWrapped_eq_false_iff] at hB
  simp only [BitVec.le_def] at h
  simp only [BitVec.lt_def]
  rw [Ne, eq_iff]
  split_ifs <;> omega

/-- `unionWith` past its first checks, after which the second range wraps around only if the first
does. -/
def unionProper (A B : ConstantRange w) (type : PreferredRangeType) (hA : A.Proper) (hB : B.Proper)
    (h : B.isUpperWrapped = true → A.isUpperWrapped = true) : ConstantRange w :=
  if hflat : A.isUpperWrapped = false ∧ B.isUpperWrapped = false then
    if h1 : B.Upper < A.Lower ∨ A.Upper < B.Lower then
      getPreferredRange (ofNe A.Lower B.Upper A.pos (bounds_apart hA hB hflat h1).1)
        (ofNe B.Lower A.Upper A.pos (bounds_apart hA hB hflat h1).2) type
    else
      let L := if B.Lower < A.Lower then B.Lower else A.Lower
      let U := if A.Upper - 1 < B.Upper - 1 then B.Upper else A.Upper
      if L = 0 ∧ U = 0 then getFull A.pos else ofNe L U A.pos (bounds_joined hA hB hflat)
  else
    have hwrapped : A.isUpperWrapped = true := wrapped_of_not_flat h hflat
    if hb : B.isUpperWrapped = false then
      if h1 : B.Upper ≤ A.Upper ∨ A.Lower ≤ B.Lower then A
      else if h2 : B.Lower ≤ A.Upper ∧ A.Lower ≤ B.Upper then getFull A.pos
      else if h3 : A.Upper < B.Lower ∧ B.Upper < A.Lower then
        getPreferredRange (ofNe A.Lower B.Upper A.pos (ne_of_lt h3.2).symm)
          (ofNe B.Lower A.Upper A.pos (ne_of_lt h3.1).symm) type
      else if h4 : A.Upper < B.Lower ∧ A.Lower ≤ B.Upper then
        ofNe B.Lower A.Upper A.pos (ne_of_lt h4.1).symm
      else ofNe A.Lower B.Upper A.pos (bounds_missed h1 h2 h4)
    else if h1 : B.Lower ≤ A.Upper ∨ A.Lower ≤ B.Upper then getFull A.pos
    else
      let L := if B.Lower < A.Lower then B.Lower else A.Lower
      let U := if A.Upper < B.Upper then B.Upper else A.Upper
      ofNe L U A.pos (bounds_wrapped hwrapped hb h1)

/-- `unionWith`. -/
def unionWith (A B : ConstantRange w) (type : PreferredRangeType) : ConstantRange w :=
  if h1 : A.isFullSet || B.isEmptySet then A
  else if h2 : B.isFullSet || A.isEmptySet then B
  else
    have hA : A.Proper := (proper_of_not h1 h2).1
    have hB : B.Proper := (proper_of_not h1 h2).2
    if h : A.isUpperWrapped = false ∧ B.isUpperWrapped = true then
      unionProper B A type hB hA fun _ => h.2
    else unionProper A B type hA hB (wrapped_of_not_swap h)

/-- `exactIntersectWith`. -/
def exactIntersectWith (A B : ConstantRange w) : Option (ConstantRange w) :=
  let result := intersectWith A B .Smallest
  if result = (unionWith A.inverse B.inverse .Smallest).inverse then some result else none

/-- `exactUnionWith`. -/
def exactUnionWith (A B : ConstantRange w) : Option (ConstantRange w) :=
  let result := unionWith A B .Smallest
  if result = (intersectWith A.inverse B.inverse .Smallest).inverse then some result else none

variable {A B : ConstantRange w} {type : PreferredRangeType} {x : BitVec w}

/-! ## Intersections -/

/-- A set of words with two gaps. -/
def Split (p : BitVec w → Prop) : Prop :=
  ∃ a b c d : BitVec w, a.toNat < b.toNat ∧ b.toNat < c.toNat ∧ c.toNat < d.toNat ∧
    (p a ↔ p c) ∧ (p b ↔ p d) ∧ ¬(p a ↔ p b)

/-- No range has two gaps. -/
theorem not_split_range (C : ConstantRange w) : ¬Split (· ∈ C) := by
  rintro ⟨a, b, c, d, hab, hbc, hcd, hac, hbd, hne⟩
  by_cases ha : a ∈ C
  · have hb : b ∉ C := fun hb => hne (iff_of_true ha hb)
    have hc : c ∈ C := hac.mp ha
    have hd : d ∉ C := mt hbd.mpr hb
    rw [mem_iff] at ha hb hc hd
    omega
  · have hb : b ∈ C := by_contra fun hb => hne (iff_of_false ha hb)
    have hc : c ∉ C := mt hac.mpr ha
    have hd : d ∈ C := hbd.mp hb
    rw [mem_iff] at ha hb hc hd
    omega

theorem not_range_of_split {p : BitVec w → Prop} (h : Split p) : ¬∃ C : ConstantRange w, ∀ x, x ∈ C ↔ p x := by
  rintro ⟨C, hC⟩
  refine not_split_range C ?_
  simpa only [Split, hC] using h

theorem getPreferredRange_eq (A B : ConstantRange w) (type : PreferredRangeType) :
    getPreferredRange A B type = A ∨ getPreferredRange A B type = B := by
  unfold getPreferredRange
  split_ifs
  all_goals simp

theorem mem_getPreferredRange (h : x ∈ A ∧ x ∈ B) : x ∈ getPreferredRange A B type := by
  rcases getPreferredRange_eq A B type with heq | heq
  · rw [heq]
    exact h.1
  · rw [heq]
    exact h.2

theorem mem_flat (h : A.isUpperWrapped = false) (hA : A.Proper) :
    x ∈ A ↔ A.Lower.toNat ≤ x.toNat ∧ x.toNat < A.Upper.toNat := by
  unfold Proper at hA
  rw [isUpperWrapped_eq_false_iff] at h
  rw [mem_iff]
  omega

theorem mem_wrapped (h : A.isUpperWrapped = true) :
    x ∈ A ↔ A.Lower.toNat ≤ x.toNat ∨ x.toNat < A.Upper.toNat := by
  rw [isUpperWrapped_iff] at h
  rw [mem_iff]
  omega

section bounds

variable {lo hi : BitVec w} {hw : 0 < w} (hne : lo ≠ hi)

theorem mem_ofNe_of_lt (h : lo < hi) :
    x ∈ ofNe lo hi hw hne ↔ lo.toNat ≤ x.toNat ∧ x.toNat < hi.toNat :=
  mem_flat (decide_eq_false (Nat.not_lt.mpr (Nat.le_of_lt h))) (Nat.ne_of_lt h)

theorem mem_ofNe_of_gt (h : hi < lo) :
    x ∈ ofNe lo hi hw hne ↔ lo.toNat ≤ x.toNat ∨ x.toNat < hi.toNat :=
  mem_wrapped (decide_eq_true h)

end bounds

/-- An intersection of two ranges that do not wrap around. -/
theorem mem_intersectProper_flat (type : PreferredRangeType)
    (h : B.isUpperWrapped = true → A.isUpperWrapped = true) (hA : A.Proper) (hB : B.Proper)
    (hAf : A.isUpperWrapped = false) (hBf : B.isUpperWrapped = false) :
    x ∈ intersectProper A B type h ↔ x ∈ A ∧ x ∈ B := by
  unfold intersectProper
  rw [dif_pos ⟨hAf, hBf⟩, mem_flat hAf hA, mem_flat hBf hB]
  split_ifs with h1 h2 h3 h4 h5
  · refine iff_of_false (not_mem_getEmpty A.pos x) ?_
    rw [BitVec.le_def] at h2
    omega
  · rw [mem_ofNe_of_lt _ (BitVec.not_le.mp h2)]
    rw [BitVec.lt_def] at h1 h3
    omega
  · rw [mem_flat hBf hB]
    rw [BitVec.lt_def] at h1 h3
    omega
  · rw [mem_flat hAf hA]
    rw [BitVec.lt_def] at h1 h4
    omega
  · rw [mem_ofNe_of_lt _ h5]
    rw [BitVec.lt_def] at h1 h4
    omega
  · refine iff_of_false (not_mem_getEmpty A.pos x) ?_
    rw [BitVec.lt_def] at h5
    omega

/-- The intersection of a range that wraps around with one that does not. -/
theorem intersectProper_mixed (type : PreferredRangeType)
    (h : B.isUpperWrapped = true → A.isUpperWrapped = true) (hB : B.Proper)
    (hAw : A.isUpperWrapped = true) (hBf : B.isUpperWrapped = false) :
    (∀ x, x ∈ intersectProper A B type h ↔ x ∈ A ∧ x ∈ B) ∨
      intersectProper A B type h = getPreferredRange A B type ∧ Split fun x => x ∈ A ∧ x ∈ B := by
  have hA := isUpperWrapped_iff.mp hAw
  unfold intersectProper
  rw [dif_neg fun hflat => Bool.noConfusion (hAw.symm.trans hflat.1), if_pos ⟨hAw, hBf⟩]
  split_ifs with h1 h2 h3 h4 h5
  · left
    intro x
    rw [mem_wrapped hAw, mem_flat hBf hB]
    rw [BitVec.lt_def] at h2
    omega
  · left
    intro x
    rw [mem_wrapped hAw, mem_flat hBf hB, mem_ofNe_of_lt _ h1]
    rw [BitVec.lt_def] at h2
    rw [BitVec.le_def] at h3
    omega
  · right
    refine ⟨rfl, B.Lower, A.Upper, A.Lower, B.Upper, ?_⟩
    simp only [mem_wrapped hAw, mem_flat hBf hB]
    rw [BitVec.lt_def] at h1
    rw [BitVec.le_def] at h3
    omega
  · left
    intro x
    rw [mem_wrapped hAw, mem_flat hBf hB]
    refine iff_of_false (not_mem_getEmpty A.pos x) ?_
    rw [BitVec.lt_def] at h1
    rw [BitVec.le_def] at h5
    omega
  · left
    intro x
    rw [mem_wrapped hAw, mem_flat hBf hB, mem_ofNe_of_lt _ (BitVec.not_le.mp h5)]
    rw [BitVec.lt_def] at h1 h4
    omega
  · left
    intro x
    rw [mem_wrapped hAw, mem_flat hBf hB]
    rw [BitVec.lt_def] at h1 h4
    omega

/-- The intersection of two ranges that wrap around. -/
theorem intersectProper_wrapped (type : PreferredRangeType)
    (h : B.isUpperWrapped = true → A.isUpperWrapped = true)
    (hAw : A.isUpperWrapped = true) (hBw : B.isUpperWrapped = true) :
    (∀ x, x ∈ intersectProper A B type h ↔ x ∈ A ∧ x ∈ B) ∨
      intersectProper A B type h = getPreferredRange A B type ∧ Split fun x => x ∈ A ∧ x ∈ B := by
  have hA := isUpperWrapped_iff.mp hAw
  have hB := isUpperWrapped_iff.mp hBw
  unfold intersectProper
  rw [dif_neg fun hflat => Bool.noConfusion (hAw.symm.trans hflat.1),
    if_neg fun hmixed => Bool.noConfusion (hBw.symm.trans hmixed.2)]
  dsimp only
  split_ifs with h1 h2 h3 h4 h5
  · right
    refine ⟨rfl, B.Upper, B.Lower, A.Upper, A.Lower, ?_⟩
    simp only [mem_wrapped hAw, mem_wrapped hBw]
    rw [BitVec.lt_def] at h2
    omega
  · left
    intro x
    rw [mem_wrapped hAw, mem_wrapped hBw,
      mem_ofNe_of_gt _ (BitVec.lt_def.mpr (Nat.lt_trans h1 hA))]
    rw [BitVec.lt_def] at h1 h2 h3
    omega
  · left
    intro x
    rw [mem_wrapped hAw, mem_wrapped hBw]
    rw [BitVec.lt_def] at h1 h2 h3
    omega
  · left
    intro x
    rw [mem_wrapped hAw, mem_wrapped hBw]
    rw [BitVec.lt_def] at h1 h5
    omega
  · left
    intro x
    rw [mem_wrapped hAw, mem_wrapped hBw,
      mem_ofNe_of_gt _ (BitVec.lt_def.mpr (Nat.lt_of_lt_of_le hA (Nat.not_lt.mp h5)))]
    rw [BitVec.le_def] at h4
    rw [BitVec.lt_def] at h1 h5
    omega
  · right
    refine ⟨rfl, A.Upper, A.Lower, B.Upper, B.Lower, ?_⟩
    simp only [mem_wrapped hAw, mem_wrapped hBw]
    rw [BitVec.le_def] at h4
    rw [BitVec.lt_def] at h1
    omega

/-- All cases of an intersection. -/
theorem intersectProper_cases (type : PreferredRangeType)
    (h : B.isUpperWrapped = true → A.isUpperWrapped = true)
    (hA : A.Proper) (hB : B.Proper) :
    (∀ x, x ∈ intersectProper A B type h ↔ x ∈ A ∧ x ∈ B) ∨
      intersectProper A B type h = getPreferredRange A B type ∧ Split fun x => x ∈ A ∧ x ∈ B := by
  cases hBw : B.isUpperWrapped
  · cases hAw : A.isUpperWrapped
    · exact .inl fun x => mem_intersectProper_flat type h hA hB hAw hBw
    · exact intersectProper_mixed type h hB hAw hBw
  · exact intersectProper_wrapped type h (h hBw) hBw

/-! ## Unions -/

/-- The upper bounds of two ranges that do not wrap around, as `unionWith` compares them. -/
theorem upper_sub_one_lt_iff (hA : A.Lower.toNat < A.Upper.toNat)
    (hB : B.Lower.toNat < B.Upper.toNat) : A.Upper - 1 < B.Upper - 1 ↔ A.Upper < B.Upper := by
  have h1 := toNat_one A.pos
  have hAU := toNat_sub_cases A.Upper 1
  have hBU := toNat_sub_cases B.Upper 1
  rw [BitVec.lt_def, BitVec.lt_def]
  omega

/-- Two ranges that do not wrap around, with a gap between them. -/
theorem mem_covers_of_apart (hAf : A.isUpperWrapped = false) (hBf : B.isUpperWrapped = false)
    (hA : A.Proper) (hB : B.Proper) (h : B.Upper < A.Lower ∨ A.Upper < B.Lower)
    (hAB : A.Lower ≠ B.Upper) (hBA : B.Lower ≠ A.Upper) (hx : x ∈ A ∨ x ∈ B) :
    x ∈ ofNe A.Lower B.Upper A.pos hAB ∧ x ∈ ofNe B.Lower A.Upper A.pos hBA := by
  have hA' := Nat.lt_of_le_of_ne (isUpperWrapped_eq_false_iff.mp hAf) hA
  have hB' := Nat.lt_of_le_of_ne (isUpperWrapped_eq_false_iff.mp hBf) hB
  rw [mem_flat hAf hA, mem_flat hBf hB] at hx
  rcases h with h | h
  · have hlt : B.Lower < A.Upper := Nat.lt_trans hB' (Nat.lt_trans h hA')
    rw [mem_ofNe_of_gt _ h, mem_ofNe_of_lt _ hlt]
    rw [BitVec.lt_def] at h
    omega
  · have hlt : A.Lower < B.Upper := Nat.lt_trans hA' (Nat.lt_trans h hB')
    rw [mem_ofNe_of_lt _ hlt, mem_ofNe_of_gt _ h]
    rw [BitVec.lt_def] at h
    omega

/-- The union of two ranges that do not wrap around. -/
theorem unionProper_flat (type : PreferredRangeType) (hA : A.Proper) (hB : B.Proper)
    (h : B.isUpperWrapped = true → A.isUpperWrapped = true)
    (hAf : A.isUpperWrapped = false) (hBf : B.isUpperWrapped = false) :
    (∀ x, x ∈ unionProper A B type hA hB h ↔ x ∈ A ∨ x ∈ B) ∨
      (∀ x, x ∈ A ∨ x ∈ B → x ∈ unionProper A B type hA hB h) ∧
        Split fun x => x ∈ A ∨ x ∈ B := by
  have hA' := Nat.lt_of_le_of_ne (isUpperWrapped_eq_false_iff.mp hAf) hA
  have hB' := Nat.lt_of_le_of_ne (isUpperWrapped_eq_false_iff.mp hBf) hB
  unfold unionProper
  rw [dif_pos ⟨hAf, hBf⟩]
  split
  next h1 =>
    right
    constructor
    · intro x hx
      exact mem_getPreferredRange (mem_covers_of_apart hAf hBf hA hB h1 _ _ hx)
    · simp only [Split, mem_flat hAf hA, mem_flat hBf hB]
      rcases h1 with h1 | h1
      · rw [BitVec.lt_def] at h1
        refine ⟨B.Lower, B.Upper, A.Lower, A.Upper, ?_⟩
        omega
      · rw [BitVec.lt_def] at h1
        refine ⟨A.Lower, A.Upper, B.Lower, B.Upper, ?_⟩
        omega
  next h1 =>
    left
    intro x
    dsimp only
    rw [BitVec.lt_def, BitVec.lt_def] at h1
    rw [mem_flat hAf hA, mem_flat hBf hB]
    rw [if_neg, mem_ofNe_of_lt]
    · simp only [upper_sub_one_lt_iff hA' hB', BitVec.lt_def, apply_ite BitVec.toNat]
      split_ifs
      all_goals omega
    · simp only [upper_sub_one_lt_iff hA' hB', BitVec.lt_def, apply_ite BitVec.toNat]
      split_ifs
      all_goals omega
    · rintro ⟨-, hU⟩
      rw [apply_ite (· = 0), eq_iff, eq_iff, toNat_zero] at hU
      split_ifs at hU
      all_goals omega

/-- The union of a range that wraps around with one that does not. -/
theorem unionProper_mixed (type : PreferredRangeType) (hA : A.Proper) (hB : B.Proper)
    (h : B.isUpperWrapped = true → A.isUpperWrapped = true)
    (hAw : A.isUpperWrapped = true) (hBf : B.isUpperWrapped = false) :
    (∀ x, x ∈ unionProper A B type hA hB h ↔ x ∈ A ∨ x ∈ B) ∨
      (∀ x, x ∈ A ∨ x ∈ B → x ∈ unionProper A B type hA hB h) ∧
        Split fun x => x ∈ A ∨ x ∈ B := by
  have hA' := isUpperWrapped_iff.mp hAw
  have hB' := Nat.lt_of_le_of_ne (isUpperWrapped_eq_false_iff.mp hBf) hB
  unfold unionProper
  rw [dif_neg fun hflat => Bool.noConfusion (hAw.symm.trans hflat.1), dif_pos hBf]
  split_ifs with h1 h2 h3 h4
  all_goals rw [BitVec.le_def, BitVec.le_def] at h1
  · left
    intro x
    rw [mem_wrapped hAw, mem_flat hBf hB]
    omega
  · left
    intro x
    refine iff_of_true (mem_getFull A.pos x) ?_
    rw [mem_wrapped hAw, mem_flat hBf hB]
    rw [BitVec.le_def, BitVec.le_def] at h2
    omega
  · right
    constructor
    · intro x hx
      apply mem_getPreferredRange
      rw [mem_wrapped hAw, mem_flat hBf hB] at hx
      rw [mem_ofNe_of_gt _ h3.2, mem_ofNe_of_gt _ h3.1]
      omega
    · refine ⟨A.Upper, B.Lower, B.Upper, A.Lower, ?_⟩
      simp only [mem_wrapped hAw, mem_flat hBf hB]
      rw [BitVec.lt_def, BitVec.lt_def] at h3
      omega
  · left
    intro x
    rw [mem_wrapped hAw, mem_flat hBf hB, mem_ofNe_of_gt _ h4.1]
    rw [BitVec.lt_def, BitVec.le_def] at h4
    omega
  · left
    intro x
    rw [BitVec.le_def, BitVec.le_def] at h2
    rw [BitVec.lt_def, BitVec.lt_def] at h3
    rw [BitVec.lt_def, BitVec.le_def] at h4
    have hBA : B.Upper < A.Lower := by
      rw [BitVec.lt_def]
      omega
    rw [mem_wrapped hAw, mem_flat hBf hB, mem_ofNe_of_gt _ hBA]
    omega

/-- The union of two ranges that wrap around. -/
theorem mem_unionProper_wrapped (type : PreferredRangeType) (hA : A.Proper) (hB : B.Proper)
    (h : B.isUpperWrapped = true → A.isUpperWrapped = true)
    (hAw : A.isUpperWrapped = true) (hBw : B.isUpperWrapped = true) (x : BitVec w) :
    x ∈ unionProper A B type hA hB h ↔ x ∈ A ∨ x ∈ B := by
  have hA' := isUpperWrapped_iff.mp hAw
  have hB' := isUpperWrapped_iff.mp hBw
  unfold unionProper
  rw [dif_neg fun hflat => Bool.noConfusion (hAw.symm.trans hflat.1),
    dif_neg fun hflat => Bool.noConfusion (hBw.symm.trans hflat), mem_wrapped hAw, mem_wrapped hBw]
  by_cases h1 : B.Lower ≤ A.Upper ∨ A.Lower ≤ B.Upper
  · rw [dif_pos h1]
    refine iff_of_true (mem_getFull A.pos x) ?_
    rw [BitVec.le_def, BitVec.le_def] at h1
    omega
  · rw [dif_neg h1]
    dsimp only
    rw [BitVec.le_def, BitVec.le_def] at h1
    rw [mem_ofNe_of_gt]
    · simp only [BitVec.lt_def, apply_ite BitVec.toNat]
      split_ifs
      all_goals omega
    · simp only [BitVec.lt_def, apply_ite BitVec.toNat]
      split_ifs
      all_goals omega

/-- All cases of a union. -/
theorem unionProper_cases (type : PreferredRangeType) (hA : A.Proper) (hB : B.Proper)
    (h : B.isUpperWrapped = true → A.isUpperWrapped = true) :
    (∀ x, x ∈ unionProper A B type hA hB h ↔ x ∈ A ∨ x ∈ B) ∨
      (∀ x, x ∈ A ∨ x ∈ B → x ∈ unionProper A B type hA hB h) ∧
        Split fun x => x ∈ A ∨ x ∈ B := by
  cases hBw : B.isUpperWrapped
  · cases hAw : A.isUpperWrapped
    · exact unionProper_flat type hA hB h hAw hBw
    · exact unionProper_mixed type hA hB h hAw hBw
  · exact .inl (mem_unionProper_wrapped type hA hB h (h hBw) hBw)

/-! ## What the two operations return -/

/-- **All cases of an intersection.** -/
theorem intersectWith_cases (A B : ConstantRange w) (type : PreferredRangeType) :
    (∀ x, x ∈ intersectWith A B type ↔ x ∈ A ∧ x ∈ B) ∨
      (intersectWith A B type = getPreferredRange A B type ∨
        intersectWith A B type = getPreferredRange B A type) ∧
      Split fun x => x ∈ A ∧ x ∈ B := by
  unfold intersectWith
  split_ifs with h1 h2 h3
  · refine .inl fun x => ?_
    rw [Bool.or_eq_true, isEmptySet_iff_forall, isFullSet_iff_forall] at h1
    rcases h1 with h1 | h1
    · simp [h1 x]
    · simp [h1 x]
  · refine .inl fun x => ?_
    rw [Bool.or_eq_true, isEmptySet_iff_forall, isFullSet_iff_forall] at h2
    rcases h2 with h2 | h2
    · simp [h2 x]
    · simp [h2 x]
  · rw [Bool.or_eq_true, not_or] at h1 h2
    rcases intersectProper_cases type (fun _ => h3.2) (.of_not h2.1 h1.2)
      (.of_not h1.1 h2.2) with hexact | ⟨heq, hsplit⟩
    · exact .inl fun x => (hexact x).trans and_comm
    · refine .inr ⟨.inr heq, ?_⟩
      simpa only [and_comm] using hsplit
  · rw [Bool.or_eq_true, not_or] at h1 h2
    rcases intersectProper_cases type (wrapped_of_not_swap h3) (.of_not h1.1 h2.2)
      (.of_not h2.1 h1.2) with hexact | ⟨heq, hsplit⟩
    · exact .inl hexact
    · exact .inr ⟨.inl heq, hsplit⟩

/-- **All cases of a union.** -/
theorem unionWith_cases (A B : ConstantRange w) (type : PreferredRangeType) :
    (∀ x, x ∈ unionWith A B type ↔ x ∈ A ∨ x ∈ B) ∨
      (∀ x, x ∈ A ∨ x ∈ B → x ∈ unionWith A B type) ∧ Split fun x => x ∈ A ∨ x ∈ B := by
  unfold unionWith
  split_ifs with h1 h2 h3
  · refine .inl fun x => ?_
    rw [Bool.or_eq_true, isEmptySet_iff_forall, isFullSet_iff_forall] at h1
    rcases h1 with h1 | h1
    · simp [h1 x]
    · simp [h1 x]
  · refine .inl fun x => ?_
    rw [Bool.or_eq_true, isEmptySet_iff_forall, isFullSet_iff_forall] at h2
    rcases h2 with h2 | h2
    · simp [h2 x]
    · simp [h2 x]
  · obtain ⟨hA, hB⟩ := proper_of_not h1 h2
    rcases unionProper_cases type hB hA (fun _ => h3.2) with hexact | ⟨hcover, hsplit⟩
    · exact .inl fun x => (hexact x).trans or_comm
    · refine .inr ⟨fun x hx => hcover x hx.symm, ?_⟩
      simpa only [or_comm] using hsplit
  · obtain ⟨hA, hB⟩ := proper_of_not h1 h2
    exact unionProper_cases type hA hB (wrapped_of_not_swap h3)

/-! ## Sizes -/

theorem isSizeStrictlySmallerThan_iff :
    A.isSizeStrictlySmallerThan B = true ↔ A.size < B.size := by
  have hlt := (A.Upper - A.Lower).isLt
  unfold isSizeStrictlySmallerThan
  split_ifs with hA hB
  · have hsize : A.size = 2 ^ w := if_pos hA
    rw [hsize]
    exact iff_of_false id (Nat.not_lt.mpr B.size_le)
  · have hsizeA : A.size = (A.Upper - A.Lower).toNat := if_neg hA
    have hsizeB : B.size = 2 ^ w := if_pos hB
    rw [hsizeA, hsizeB]
    exact iff_of_true rfl hlt
  · have hsizeA : A.size = (A.Upper - A.Lower).toNat := if_neg hA
    have hsizeB : B.size = (B.Upper - B.Lower).toNat := if_neg hB
    rw [hsizeA, hsizeB, BitVec.ult_iff_lt, BitVec.lt_def]

/-- The preferred range is larger than the other one only if the latter wraps around in the
preferred sense. -/
theorem getPreferredRange_smaller {O : ConstantRange w} (hO : O = A ∨ O = B)
    (h : O.size < (getPreferredRange A B type).size) :
    type = .Unsigned ∧ O.isWrappedSet = true ∧ (getPreferredRange A B type).isWrappedSet = false ∨
      type = .Signed ∧ O.isSignWrappedSet = true ∧
        (getPreferredRange A B type).isSignWrappedSet = false := by
  unfold getPreferredRange at h ⊢
  split_ifs at h ⊢ with h1 h2 h3 h4 h5
  · rcases hO with rfl | rfl
    · exact absurd h (Nat.lt_irrefl _)
    · exact .inl ⟨h1.1, h1.2.2, h1.2.1⟩
  · rcases hO with rfl | rfl
    · exact .inl h2
    · exact absurd h (Nat.lt_irrefl _)
  · rcases hO with rfl | rfl
    · exact absurd h (Nat.lt_irrefl _)
    · exact .inr ⟨h3.1, h3.2.2, h3.2.1⟩
  · rcases hO with rfl | rfl
    · exact .inr h4
    · exact absurd h (Nat.lt_irrefl _)
  · rw [isSizeStrictlySmallerThan_iff] at h5
    rcases hO with rfl | rfl
    · exact absurd h (Nat.lt_irrefl _)
    · exact absurd h (Nat.lt_asymm h5)
  · rw [isSizeStrictlySmallerThan_iff] at h5
    rcases hO with rfl | rfl
    · exact absurd h h5
    · exact absurd h (Nat.lt_irrefl _)

/-! ## The exact operations -/

theorem intersectWith_exact (h : ∃ C : ConstantRange w, ∀ x, x ∈ C ↔ x ∈ A ∧ x ∈ B) :
    x ∈ intersectWith A B type ↔ x ∈ A ∧ x ∈ B := by
  rcases intersectWith_cases A B type with hexact | ⟨-, hsplit⟩
  · exact hexact x
  · exact absurd h (not_range_of_split hsplit)

theorem mem_intersectWith (hA : x ∈ A) (hB : x ∈ B) : x ∈ intersectWith A B type := by
  rcases intersectWith_cases A B type with hexact | ⟨heq | heq, -⟩
  · exact (hexact x).mpr ⟨hA, hB⟩
  · rw [heq]
    exact mem_getPreferredRange ⟨hA, hB⟩
  · rw [heq]
    exact mem_getPreferredRange ⟨hB, hA⟩

theorem unionWith_exact (h : ∃ C : ConstantRange w, ∀ x, x ∈ C ↔ x ∈ A ∨ x ∈ B) :
    x ∈ unionWith A B type ↔ x ∈ A ∨ x ∈ B := by
  rcases unionWith_cases A B type with hexact | ⟨-, hsplit⟩
  · exact hexact x
  · exact absurd h (not_range_of_split hsplit)

theorem mem_unionWith (h : x ∈ A ∨ x ∈ B) : x ∈ unionWith A B type := by
  rcases unionWith_cases A B type with hexact | ⟨hcover, -⟩
  · exact (hexact x).mpr h
  · exact hcover x h

/-- A range is returned exactly when the common values are one. -/
theorem exactIntersectWith_iff {R : ConstantRange w} :
    exactIntersectWith A B = some R ↔ ∀ x, x ∈ R ↔ x ∈ A ∧ x ∈ B := by
  unfold exactIntersectWith
  constructor
  · intro h x
    dsimp only at h
    split_ifs at h with heq
    obtain rfl := Option.some.inj h
    constructor
    · intro hx
      rw [heq, mem_inverse] at hx
      constructor
      · by_contra hA
        exact hx (mem_unionWith (.inl (mem_inverse.mpr hA)))
      · by_contra hB
        exact hx (mem_unionWith (.inr (mem_inverse.mpr hB)))
    · exact fun hx => mem_intersectWith hx.1 hx.2
  · intro hR
    have hresult : intersectWith A B .Smallest = R :=
      eq_of_mem_iff fun x => (intersectWith_exact ⟨R, hR⟩).trans (hR x).symm
    have hunion : (unionWith A.inverse B.inverse .Smallest).inverse = R := by
      refine eq_of_mem_iff fun x => ?_
      rw [mem_inverse, unionWith_exact ⟨R.inverse, fun y => ?_⟩, mem_inverse, mem_inverse, hR x]
      · tauto
      · rw [mem_inverse, mem_inverse, mem_inverse, hR y]
        tauto
    dsimp only
    rw [hresult, hunion, if_pos rfl]

theorem exactUnionWith_iff {R : ConstantRange w} :
    exactUnionWith A B = some R ↔ ∀ x, x ∈ R ↔ x ∈ A ∨ x ∈ B := by
  unfold exactUnionWith
  constructor
  · intro h x
    dsimp only at h
    split_ifs at h with heq
    obtain rfl := Option.some.inj h
    constructor
    · intro hx
      rw [heq, mem_inverse] at hx
      by_contra hnot
      rw [not_or] at hnot
      exact hx (mem_intersectWith (mem_inverse.mpr hnot.1) (mem_inverse.mpr hnot.2))
    · exact mem_unionWith
  · intro hR
    have hresult : unionWith A B .Smallest = R :=
      eq_of_mem_iff fun x => (unionWith_exact ⟨R, hR⟩).trans (hR x).symm
    have hintersection : (intersectWith A.inverse B.inverse .Smallest).inverse = R := by
      refine eq_of_mem_iff fun x => ?_
      rw [mem_inverse, intersectWith_exact ⟨R.inverse, fun y => ?_⟩, mem_inverse, mem_inverse, hR x]
      · tauto
      · rw [mem_inverse, mem_inverse, mem_inverse, hR y]
        tauto
    dsimp only
    rw [hresult, hintersection, if_pos rfl]

/-- Without one range for the common values, an operand is returned, and that is larger than the
other one only if the latter wraps around in the preferred sense. -/
theorem intersectWith_of_split (h : ¬∃ C : ConstantRange w, ∀ x, x ∈ C ↔ x ∈ A ∧ x ∈ B) :
    (intersectWith A B type = A ∨ intersectWith A B type = B) ∧
      ∀ O, O = A ∨ O = B → O.size < (intersectWith A B type).size →
        type = .Unsigned ∧ O.isWrappedSet = true ∧ (intersectWith A B type).isWrappedSet = false ∨
          type = .Signed ∧ O.isSignWrappedSet = true ∧
            (intersectWith A B type).isSignWrappedSet = false := by
  rcases intersectWith_cases A B type with hexact | ⟨heq | heq, -⟩
  · exact absurd ⟨_, hexact⟩ h
  · rw [heq]
    exact ⟨getPreferredRange_eq A B type, fun O hO => getPreferredRange_smaller hO⟩
  · rw [heq]
    exact ⟨(getPreferredRange_eq B A type).symm, fun O hO => getPreferredRange_smaller hO.symm⟩

/-- What the four operations return. -/
theorem intersections_and_unions (A B : ConstantRange w) (type : PreferredRangeType) :
    ((∀ x, x ∈ A → x ∈ B → x ∈ intersectWith A B type) ∧
      ((∃ C : ConstantRange w, ∀ x, x ∈ C ↔ x ∈ A ∧ x ∈ B) →
        ∀ x, x ∈ intersectWith A B type ↔ x ∈ A ∧ x ∈ B) ∧
      ((¬∃ C : ConstantRange w, ∀ x, x ∈ C ↔ x ∈ A ∧ x ∈ B) →
        (intersectWith A B type = A ∨ intersectWith A B type = B) ∧
          ∀ O, O = A ∨ O = B →
            {x | x ∈ O}.ncard < {x | x ∈ intersectWith A B type}.ncard →
            type = .Unsigned ∧ O.isWrappedSet = true ∧
                (intersectWith A B type).isWrappedSet = false ∨
              type = .Signed ∧ O.isSignWrappedSet = true ∧
                (intersectWith A B type).isSignWrappedSet = false)) ∧
    ((∀ x, x ∈ A ∨ x ∈ B → x ∈ unionWith A B type) ∧
      ((∃ C : ConstantRange w, ∀ x, x ∈ C ↔ x ∈ A ∨ x ∈ B) →
        ∀ x, x ∈ unionWith A B type ↔ x ∈ A ∨ x ∈ B)) ∧
    (∀ R, exactIntersectWith A B = some R ↔ ∀ x, x ∈ R ↔ x ∈ A ∧ x ∈ B) ∧
    (∀ R, exactUnionWith A B = some R ↔ ∀ x, x ∈ R ↔ x ∈ A ∨ x ∈ B) := by
  refine ⟨⟨fun x hA hB => mem_intersectWith hA hB, fun h x => intersectWith_exact h, fun h => ?_⟩,
    ⟨fun x => mem_unionWith, fun h x => unionWith_exact h⟩, fun R => exactIntersectWith_iff,
    fun R => exactUnionWith_iff⟩
  simp only [ncard_members]
  exact intersectWith_of_split h

/-- The words from 1 to 6, and those from 6 around to 1. -/
theorem intersectWith_larger :
    ¬∀ (w : Nat) (A B : ConstantRange w) (type : PreferredRangeType),
      (¬∃ C : ConstantRange w, ∀ x, x ∈ C ↔ x ∈ A ∧ x ∈ B) →
      {x | x ∈ intersectWith A B type}.ncard ≤ {x | x ∈ A}.ncard ∧
        {x | x ∈ intersectWith A B type}.ncard ≤ {x | x ∈ B}.ncard := by
  intro h
  have hsplit : Split fun x : BitVec 3 =>
      x ∈ ofNe 1 7 (by decide) (by decide) ∧ x ∈ ofNe 6 2 (by decide) (by decide) :=
    ⟨0, 1, 2, 6, by decide⟩
  have hlarge := (h 3 _ _ .Unsigned (not_range_of_split hsplit)).2
  rw [ncard_members, ncard_members] at hlarge
  exact absurd hlarge (by decide)

end RvLlvm.IR.ConstantRange
