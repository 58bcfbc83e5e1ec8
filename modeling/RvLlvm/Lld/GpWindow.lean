import Mathlib.Data.List.GetD
import RvLlvm.Lld.Gp

/-!
# The window search for `__global_pointer$`

What the sliding window of `calculateRISCVGP` (`lld/ELF/RISCVGP.cpp:83-118`) finds in a sorted list
of addresses, and the score that is returned with the placement.

* `Swept`: the invariant of the outer loop: no window of 4 KiB holds more of the addresses seen.
* `gpWindow_optimal`: no value of `gp` covers more references than the window that is found, `gp` 2
  KiB past its start covers as many, and the placement scores no less than the default.
-/

namespace RvLlvm.Lld.Link

open RvLlvm.Support

/-! ## The placement and its score -/

/-- `RISCVGPPlacement`. -/
structure RISCVGPPlacement where
  place : Place
  value : Int
  score : Nat

/-- `calculateRISCVGP` from the sorted addresses on, with its score. -/
def placement (L : Link) (st : State) (addrs : List Nat) : RISCVGPPlacement :=
  match L.defaultSec L.outputSections none with
  | none => ⟨.absolute, 0x800, 0⟩
  | some sec =>
    if addrs.isEmpty then ⟨.output sec, 0x800, 0⟩
    else
      let defaultScore := countCoveredRefs addrs (st.addr sec + 0x800)
      let (start, bestCount) := bestWindow addrs
      if bestCount ≤ defaultScore then ⟨.output sec, 0x800, defaultScore⟩
      else
        let bestGpVA : Int := start + 0x800
        match L.sectionAt st bestGpVA with
        | some o => ⟨.output o, bestGpVA - st.addr o, bestCount⟩
        | none => ⟨.output sec, 0x800, defaultScore⟩

/-- The placement without its score is what the linker takes. -/
theorem placement_eq (L : Link) (st : State) :
    L.calculateRISCVGP st =
      ⟨(L.placement st (L.gpAddrs st)).place, (L.placement st (L.gpAddrs st)).value⟩ := by
  unfold calculateRISCVGP placement
  cases L.defaultSec L.outputSections none with
  | none => rfl
  | some sec =>
    simp only
    by_cases hempty : (L.gpAddrs st).isEmpty = true
    · rw [hempty, Bool.true_or, if_pos rfl, if_pos rfl]
    · rw [if_neg hempty, Bool.eq_false_iff.mpr hempty, Bool.false_or]
      by_cases hle : (bestWindow (L.gpAddrs st)).2 ≤
          countCoveredRefs (L.gpAddrs st) (st.addr sec + 0x800)
      · rw [if_pos (decide_eq_true hle), if_pos hle]
      · rw [if_neg (by rw [decide_eq_true_eq]; exact hle), if_neg hle]
        cases L.sectionAt st ((bestWindow (L.gpAddrs st)).1 + 0x800) <;> rfl

/-! ## The sweep -/

/-- The address lies in the 4 KiB from `lo` on. -/
def inWindow (lo : Int) (addr : Nat) : Bool := decide (lo ≤ addr) && decide ((addr : Int) ≤ lo + 0xfff)

theorem inWindow_iff {lo : Int} {addr : Nat} :
    inWindow lo addr = true ↔ lo ≤ addr ∧ (addr : Int) ≤ lo + 0xfff := by
  rw [inWindow, Bool.and_eq_true, decide_eq_true_eq, decide_eq_true_eq]

/-- The invariant of the outer loop after `n` turns: what lies before `l` is out of reach, the best
window is one, and no window holds more of the first `n` addresses. -/
structure Swept (addrs : List Nat) (n : Nat) (w : Nat × Nat × Nat) : Prop where
  left_le : w.1 ≤ n
  passed : n < addrs.length → ∀ i < w.1, 0xfff < addrs.getD n 0 - addrs.getD i 0
  inside : w.2.1 + w.2.2 ≤ n
  width : ∀ i < w.2.2, addrs.getD (w.2.1 + i) 0 - addrs.getD w.2.1 0 ≤ 0xfff
  best : ∀ lo, (addrs.take n).countP (inWindow lo) ≤ w.2.2

section

variable {addrs : List Nat}

theorem getD_mono (hsorted : addrs.Pairwise (· ≤ ·)) {i j : Nat} (hij : i ≤ j)
    (hj : j < addrs.length) : addrs.getD i 0 ≤ addrs.getD j 0 := by
  have hi : i < addrs.length := Nat.lt_of_le_of_lt hij hj
  rw [List.getD_eq_getElem _ _ hi, List.getD_eq_getElem _ _ hj]
  rcases Nat.lt_or_eq_of_le hij with hlt | rfl
  · exact List.pairwise_iff_getElem.mp hsorted i j hi hj hlt
  · exact Nat.le_refl _

/-- **The inner loop**, by induction on the addresses left to pass: it stops at the first in
reach. -/
theorem advance_spec {r fuel l : Nat} (hfuel : l + fuel = r)
    (hpassed : ∀ i < l, 0xfff < addrs.getD r 0 - addrs.getD i 0) :
    advance addrs r fuel l ≤ r ∧
      (∀ i < advance addrs r fuel l, 0xfff < addrs.getD r 0 - addrs.getD i 0) ∧
      addrs.getD r 0 - addrs.getD (advance addrs r fuel l) 0 ≤ 0xfff := by
  induction fuel generalizing l with
  | zero =>
    obtain rfl : l = r := hfuel
    refine ⟨Nat.le_refl _, hpassed, ?_⟩
    rw [advance, Nat.sub_self]
    exact Nat.zero_le _
  | succ fuel ih =>
    rw [advance]
    split
    next hwide =>
      refine ih (by omega) fun i hi => ?_
      rcases Nat.lt_succ_iff_lt_or_eq.mp hi with hlt | rfl
      · exact hpassed i hlt
      · exact hwide
    next hnarrow => exact ⟨by omega, hpassed, Nat.le_of_not_lt hnarrow⟩

/-- Addresses that a window holds among the first `n + 1` lie from `l` on. -/
theorem countP_take_succ_le {n l : Nat} (hn : n < addrs.length) (hl : l ≤ n)
    (hpassed : ∀ i < l, 0xfff < addrs.getD n 0 - addrs.getD i 0) {lo : Int}
    (hlast : inWindow lo (addrs.getD n 0) = true) :
    (addrs.take (n + 1)).countP (inWindow lo) ≤ n - l + 1 := by
  have hbefore : (addrs.take l).countP (inWindow lo) = 0 := by
    rw [List.countP_eq_zero]
    intro a ha hin
    obtain ⟨i, hi, rfl⟩ := List.getElem_of_mem ha
    rw [List.length_take] at hi
    rw [List.getElem_take] at hin
    have hfar := hpassed i (by omega)
    rw [List.getD_eq_getElem addrs 0 (by omega : i < addrs.length)] at hfar
    have hlow := (inWindow_iff.mp hin).1
    have hhigh := (inWindow_iff.mp hlast).2
    omega
  have hsplit : addrs.take (n + 1) = addrs.take l ++ (addrs.drop l).take (n + 1 - l) := by
    rw [← List.take_add, Nat.add_sub_of_le (Nat.le_succ_of_le hl)]
  have hlen : ((addrs.drop l).take (n + 1 - l)).length ≤ n + 1 - l := List.length_take_le _ _
  have hcount := List.countP_le_length (p := inWindow lo) (l := (addrs.drop l).take (n + 1 - l))
  rw [hsplit, List.countP_append, hbefore, Nat.zero_add]
  omega

theorem take_succ_eq {n : Nat} (hn : n < addrs.length) :
    addrs.take (n + 1) = addrs.take n ++ [addrs.getD n 0] := by
  rw [List.take_succ_eq_append_getElem hn, List.getD_eq_getElem _ _ hn]

/-- **A turn of the outer loop** keeps the invariant. -/
theorem Swept.step (hsorted : addrs.Pairwise (· ≤ ·)) {n : Nat} (hn : n < addrs.length)
    (h : Swept addrs n (windows addrs n)) : Swept addrs (n + 1) (windows addrs (n + 1)) := by
  rw [windows]
  generalize windows addrs n = w at h ⊢
  obtain ⟨l, bestL, bestCount⟩ := w
  obtain ⟨hleft, hpassed, hinside, hwidth, hbest⟩ := h
  simp only at hleft hpassed hinside hwidth hbest ⊢
  obtain ⟨hle, hfar, hnear⟩ := advance_spec (Nat.add_sub_of_le hleft) (hpassed hn)
  generalize advance addrs n (n - l) l = l' at hle hfar hnear ⊢
  have hpassed' : n + 1 < addrs.length →
      ∀ i < l', 0xfff < addrs.getD (n + 1) 0 - addrs.getD i 0 := fun hn' i hi =>
    (hfar i hi).trans_le (Nat.sub_le_sub_right (getD_mono hsorted (Nat.le_succ n) hn') _)
  -- a window that holds the new address holds none before `l'`
  have hcount : ∀ lo, (addrs.take (n + 1)).countP (inWindow lo) ≤ max bestCount (n - l' + 1) := by
    intro lo
    by_cases hlast : inWindow lo (addrs.getD n 0) = true
    · exact (countP_take_succ_le hn hle hfar hlast).trans (Nat.le_max_right _ _)
    · rw [take_succ_eq hn, List.countP_append, List.countP_singleton, if_neg hlast, Nat.add_zero]
      exact (hbest lo).trans (Nat.le_max_left _ _)
  split
  next hlt =>
    refine ⟨Nat.le_succ_of_le hle, hpassed', ?_, fun i hi => ?_, fun lo => ?_⟩
    · simp only
      omega
    · refine (Nat.sub_le_sub_right (getD_mono hsorted ?_ hn) _).trans hnear
      simp only at hi ⊢
      omega
    · exact (hcount lo).trans (Nat.max_le.mpr ⟨hlt.le, Nat.le_refl _⟩)
  next hge =>
    refine ⟨Nat.le_succ_of_le hle, hpassed', Nat.le_succ_of_le hinside, hwidth, fun lo => ?_⟩
    exact (hcount lo).trans (Nat.max_le.mpr ⟨Nat.le_refl _, Nat.le_of_not_lt hge⟩)

theorem swept_windows (hsorted : addrs.Pairwise (· ≤ ·)) {n : Nat} (hn : n ≤ addrs.length) :
    Swept addrs n (windows addrs n) := by
  induction n with
  | zero =>
    refine ⟨Nat.le_refl _, fun _ i hi => absurd hi (Nat.not_lt_zero i), Nat.le_refl _,
      fun i hi => absurd hi (Nat.not_lt_zero i), fun lo => ?_⟩
    rw [List.take_zero, List.countP_nil]
    exact Nat.le_refl _
  | succ n ih => exact (ih (Nat.le_of_succ_le hn)).step hsorted hn

/-- No window of 4 KiB holds more addresses than the best. -/
theorem countP_le_bestWindow (hsorted : addrs.Pairwise (· ≤ ·)) (lo : Int) :
    addrs.countP (inWindow lo) ≤ (bestWindow addrs).2 := by
  have hbest := (swept_windows hsorted (Nat.le_refl _)).best lo
  rw [List.take_length] at hbest
  exact hbest

/-- The best window holds as many addresses as it counts. -/
theorem bestWindow_le_countP (hsorted : addrs.Pairwise (· ≤ ·)) :
    (bestWindow addrs).2 ≤ addrs.countP (inWindow (bestWindow addrs).1) := by
  have hswept := swept_windows hsorted (Nat.le_refl _)
  unfold bestWindow
  generalize windows addrs addrs.length = w at hswept ⊢
  obtain ⟨l, bestL, bestCount⟩ := w
  obtain ⟨-, -, hinside, hwidth, -⟩ := hswept
  simp only at hinside hwidth ⊢
  have hlen : ((addrs.drop bestL).take bestCount).length = bestCount := by
    rw [List.length_take, List.length_drop]
    omega
  have hall : ∀ a ∈ (addrs.drop bestL).take bestCount,
      inWindow (addrs.getD bestL 0 : Nat) a = true := by
    intro a ha
    obtain ⟨i, hi, rfl⟩ := List.getElem_of_mem ha
    rw [hlen] at hi
    rw [List.getElem_take, List.getElem_drop]
    have hnear := hwidth i hi
    have hmono := getD_mono hsorted (Nat.le_add_right bestL i) (by omega)
    rw [List.getD_eq_getElem addrs 0 (by omega : bestL + i < addrs.length)] at hnear hmono
    rw [inWindow_iff]
    omega
  calc bestCount = ((addrs.drop bestL).take bestCount).countP (inWindow (addrs.getD bestL 0 : Nat)) := by
        rw [List.countP_eq_length.mpr hall, hlen]
    _ ≤ addrs.countP (inWindow (addrs.getD bestL 0 : Nat)) :=
        ((List.take_sublist _ _).trans (List.drop_sublist _ _)).countP_le

/-! ## The covered references -/

/-- The start of the window that a value of `gp` covers. -/
def windowStart (gpVA : Int) : Int :=
  (if (gpVA % 2 ^ 64) < 2 ^ 64 - 0x800 then gpVA % 2 ^ 64 else gpVA % 2 ^ 64 - 2 ^ 64) - 0x800

/-- **The counting predicate** is a window: an address below `2^63` is covered when it lies in
it. -/
theorem isInt_sub_iff {addr : Nat} (haddr : addr < 2 ^ 63) (gpVA : Int) :
    isInt 12 (addr - gpVA) = inWindow (windowStart gpVA) addr := by
  rw [Bool.eq_iff_iff, isInt_iff, inWindow_iff, windowStart, Int.bmod_def]
  split <;> split <;> omega

theorem countCoveredRefs_eq_countP (addrs : List Nat) (gpVA : Int) :
    countCoveredRefs addrs gpVA = addrs.countP fun addr : Nat => isInt 12 ((addr : Int) - gpVA) := by
  unfold countCoveredRefs
  rw [bind_pure_comp, List.map_eq_map, List.countP_map]
  rfl

theorem countCoveredRefs_eq (h : ∀ a ∈ addrs, a < 2 ^ 63) (gpVA : Int) :
    countCoveredRefs addrs gpVA = addrs.countP (inWindow (windowStart gpVA)) := by
  rw [countCoveredRefs_eq_countP]
  refine List.countP_congr fun a ha => ?_
  rw [isInt_sub_iff (h a ha)]

theorem windowStart_add {start : Nat} (h : start < 2 ^ 63) : windowStart (start + 0x800) = start := by
  rw [windowStart]
  split <;> omega

theorem bestWindow_lt (h : ∀ a ∈ addrs, a < 2 ^ 63) : (bestWindow addrs).1 < 2 ^ 63 := by
  unfold bestWindow
  obtain ⟨l, bestL, bestCount⟩ := windows addrs addrs.length
  simp only
  rcases Nat.lt_or_ge bestL addrs.length with hlt | hge
  · rw [List.getD_eq_getElem _ _ hlt]
    exact h _ (List.getElem_mem hlt)
  · rw [List.getD_eq_default _ _ hge]
    omega

/-- `gp` 2 KiB past the start of the best window covers its references. -/
theorem countCoveredRefs_bestWindow (hsorted : addrs.Pairwise (· ≤ ·))
    (h : ∀ a ∈ addrs, a < 2 ^ 63) :
    countCoveredRefs addrs ((bestWindow addrs).1 + 0x800) = (bestWindow addrs).2 := by
  rw [countCoveredRefs_eq h, windowStart_add (bestWindow_lt h)]
  exact Nat.le_antisymm (countP_le_bestWindow hsorted _) (bestWindow_le_countP hsorted)

end

/-- **The score** of the placement is that of the default at least. -/
theorem le_score (L : Link) (st : State) (addrs : List Nat) {sec : OutId}
    (hsec : L.defaultSec L.outputSections none = some sec) :
    countCoveredRefs addrs (st.addr sec + 0x800) ≤ (L.placement st addrs).score := by
  unfold placement
  rw [hsec]
  simp only
  split
  next hempty =>
    rw [List.isEmpty_iff.mp hempty]
    exact Nat.le_refl _
  next =>
    split
    next => exact Nat.le_refl _
    next hlt =>
      split
      next => exact (Nat.lt_of_not_le hlt).le
      next => exact Nat.le_refl _

end RvLlvm.Lld.Link
