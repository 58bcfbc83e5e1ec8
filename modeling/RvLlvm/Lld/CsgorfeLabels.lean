import RvLlvm.Lld.CsgorfePartition

/-!
# Label differences inside a function

`updateSymbols` (`CSGORFE.h:359-370`) gives a symbol of `.text` to the last function that starts
at or before it, so the range of a function is half open where the next one starts at its end.

* `Planned.label_moved`: a label of function `g` that no function starts at is moved by the
  function's start, to its slice.
* `label_difference_iff`: of two labels in the closed range of one function, the difference and
  the shared section survive exactly when both or neither sit where another function starts.
-/

namespace RvLlvm.Lld.Csgorfe

open RvLlvm.Elf RvLlvm.Support Splitter

/-- Symbol `k` labels a position in the closed range of function `g`. -/
def labels (sp : Splitter) (funcs : List FunctionInfo) (g k : Nat) : Prop :=
  let f := funcs.getD g ⟨0, 0, 0, 0⟩
  k < sp.symCount ∧ (sp.sym k).stShndx = sp.textIndex ∧
    f.start ≤ (sp.sym k).stValue ∧ (sp.sym k).stValue ≤ f.start + f.size

/-- Symbol `k` is at the end of function `g`, where another function starts. -/
def atNextStart (sp : Splitter) (funcs : List FunctionInfo) (g k : Nat) : Prop :=
  let f := funcs.getD g ⟨0, 0, 0, 0⟩
  (sp.sym k).stValue = f.start + f.size ∧ ∃ f' ∈ funcs, f'.start = (sp.sym k).stValue

/-- The difference of two symbols and the section they share are the same in both images. -/
structure KeepsDifference (im im' : Image) (k k' : Nat) : Prop where
  difference : ((im'.sym k).stValue : Int) - (im'.sym k').stValue =
    (im.sym k).stValue - (im.sym k').stValue
  section_eq : (im'.sym k).stShndx = (im'.sym k').stShndx

namespace Planned

variable {im : Image} {sp : Splitter} {funcs : List FunctionInfo} {relocs : List Nat}
  (h : Planned im sp funcs relocs)

include h

/-- The function a label is assigned to. -/
theorem functionForOffset_label {g k : Nat} (hg : g < funcs.length) (hk : labels sp funcs g k)
    (hnext : ¬ atNextStart sp funcs g k) :
    functionForOffset funcs (sp.sym k).stValue = g := by
  unfold labels at hk
  unfold atNextStart at hnext
  rw [Checked.getD_eq hg] at hk hnext
  obtain ⟨_, _, hlo, hhi⟩ := hk
  refine floorIndex_unique h.plan.slices.sorted hg hlo fun hn => ?_
  have hend := h.plan.slices.apart g hn
  have hne : funcs[g + 1].start ≠ (sp.sym k).stValue := fun heq =>
    hnext ⟨by omega, _, List.getElem_mem hn, heq⟩
  omega

/-- **A label of function `g`** keeps its distance from the start of the function's slice. -/
theorem label_moved {g k : Nat} (hg : g < funcs.length) (hk : labels sp funcs g k)
    (hnext : ¬ atNextStart sp funcs g k) :
    ((split sp funcs relocs).sym k).stValue + funcs[g].start = (sp.sym k).stValue ∧
      ((split sp funcs relocs).sym k).stShndx = half (sliceIndex sp g) := by
  have hfunc := h.functionForOffset_label hg hk hnext
  unfold labels at hk
  rw [Checked.getD_eq hg] at hk
  obtain ⟨hlt, htext, hlo, _⟩ := hk
  rw [h.split_sym, if_pos ⟨hlt, htext⟩]
  simp only [moveSymbol, functionForOffset_placed, hfunc, placed_getD hg]
  exact ⟨by omega, rfl⟩

/-- A label where the next function starts becomes the start of that function's slice. -/
theorem label_nextStart {g k : Nat} (hk : labels sp funcs g k)
    (hnext : atNextStart sp funcs g k) :
    ((split sp funcs relocs).sym k).stValue = 0 ∧ ∃ g', ∃ hg' : g' < funcs.length,
      funcs[g'].start = (sp.sym k).stValue ∧
      ((split sp funcs relocs).sym k).stShndx = half (sliceIndex sp g') := by
  obtain ⟨hlt, htext, _⟩ := hk
  obtain ⟨_, f', hf', hstart⟩ := hnext
  obtain ⟨g', hg', rfl⟩ := List.getElem_of_mem hf'
  have hfunc : functionForOffset funcs (sp.sym k).stValue = g' := by
    refine floorIndex_unique h.plan.slices.sorted hg' (Nat.le_of_eq hstart) fun hn => ?_
    have : (funcs[g']).start < (funcs[g' + 1]).start :=
      h.plan.slices.sorted.lt (Nat.lt_succ_self g') hn hg'
    omega
  rw [h.split_sym, if_pos ⟨hlt, htext⟩]
  simp only [moveSymbol, functionForOffset_placed, hfunc, placed_getD hg']
  exact ⟨by omega, g', hg', hstart, rfl⟩

end Planned

/-- **Label differences inside a function survive** exactly when both labels or neither sit where
another function starts. -/
theorem label_difference_iff {im im' : Image} {sp : Splitter} {funcs : List FunctionInfo}
    {relocs : List Nat} (h : accept im = some (sp, funcs, relocs)) (hrun : run im = some im')
    {g k k' : Nat} (hg : g < funcs.length) (hk : labels sp funcs g k)
    (hk' : labels sp funcs g k') :
    KeepsDifference im im' k k' ↔ (atNextStart sp funcs g k ↔ atNextStart sp funcs g k') := by
  have hp := planned_of_accept h
  have hsize : 0 < funcs[g].size := hp.plan.sized _ (List.getElem_mem hg)
  rw [run_eq_split h hrun, ← hp.image]
  by_cases hend : atNextStart sp funcs g k <;> by_cases hend' : atNextStart sp funcs g k'
  · -- both are the start of the next function
    obtain ⟨hzero, g₁, hg₁, hstart, hindex⟩ := hp.label_nextStart hk hend
    obtain ⟨hzero', g₂, hg₂, hstart', hindex'⟩ := hp.label_nextStart hk' hend'
    have hval := hend.1
    have hval' := hend'.1
    have hgg : funcs[g₁].start = funcs[g₂].start := by omega
    obtain rfl : g₁ = g₂ := by
      by_contra hne
      rcases Nat.lt_or_gt_of_ne hne with hlt | hlt
      · exact absurd (hp.plan.slices.sorted.lt hlt hg₂ hg₁) (by omega)
      · exact absurd (hp.plan.slices.sorted.lt hlt hg₁ hg₂) (by omega)
    simp only [hend, hend', iff_true]
    exact ⟨by omega, by rw [hindex, hindex']⟩
  · obtain ⟨hzero, _⟩ := hp.label_nextStart hk hend
    obtain ⟨hmoved, _⟩ := hp.label_moved hg hk' hend'
    have hval := hend.1
    have hlo := hk'.2.2
    rw [Checked.getD_eq hg] at hval hlo
    simp only [hend, hend', iff_false, not_true]
    rintro ⟨hdiff, _⟩
    omega
  · obtain ⟨hzero, _⟩ := hp.label_nextStart hk' hend'
    obtain ⟨hmoved, _⟩ := hp.label_moved hg hk hend
    have hval := hend'.1
    have hlo := hk.2.2
    rw [Checked.getD_eq hg] at hval hlo
    simp only [hend, hend', false_iff, not_true, iff_false]
    rintro ⟨hdiff, _⟩
    omega
  · obtain ⟨hmoved, hindex⟩ := hp.label_moved hg hk hend
    obtain ⟨hmoved', hindex'⟩ := hp.label_moved hg hk' hend'
    simp only [hend, hend', iff_self, iff_true]
    exact ⟨by omega, by rw [hindex, hindex']⟩

/-- In `gapObject` the end label of the first function stays with it. -/
theorem label_difference_gapObject :
    ∃ im', run gapObject.toImage = some im' ∧ KeepsDifference gapObject.toImage im' 1 2 := by
  have hacc : accept gapObject.toImage = some (_, _, _) := rfl
  refine ⟨_, rfl, (label_difference_iff (g := 0) hacc rfl (by decide)
    ⟨by decide, rfl, by decide, by decide⟩ ⟨by decide, rfl, by decide, by decide⟩).mpr
    (iff_of_false ?_ ?_)⟩
  · rintro ⟨hend, _⟩
    exact absurd (show (0 : Nat) = 0 + 4 from hend) (by decide)
  · rintro ⟨_, f', hf', hstart⟩
    have hmem : f' ∈ [⟨1, 0, 4, 0⟩, ⟨3, 8, 4, 0⟩] := hf'
    rcases List.mem_cons.mp hmem with rfl | hmem
    · exact absurd (show 0 = 4 from hstart) (by decide)
    · obtain rfl := List.mem_singleton.mp hmem
      exact absurd (show 8 = 4 from hstart) (by decide)

/-- In `denseObject` the end of the first function is the start of the second, so the distance
between the two is lost. -/
theorem not_label_difference_denseObject :
    ∃ sp funcs relocs im', accept denseObject.toImage = some (sp, funcs, relocs) ∧
      run denseObject.toImage = some im' ∧ labels sp funcs 0 1 ∧ labels sp funcs 0 2 ∧
      ¬ KeepsDifference denseObject.toImage im' 1 2 := by
  have hacc : accept denseObject.toImage = some (_, _, _) := rfl
  refine ⟨_, _, _, _, hacc, rfl, ⟨by decide, rfl, by decide, by decide⟩,
    ⟨by decide, rfl, by decide, by decide⟩, fun hkeeps => ?_⟩
  exact absurd hkeeps.difference (by decide)

end RvLlvm.Lld.Csgorfe
