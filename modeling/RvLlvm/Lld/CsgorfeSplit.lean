import RvLlvm.Lld.CsgorfePlan

/-!
# What `splitText` leaves in the section table

Closed form of `splitText` (`CSGORFE.h:306-322`).

* `home first count g` is the header the `g`-th piece of a split section gets: the first piece
  keeps the section's own header, the others are appended from `count` on.
* `splitText_spec`: function `g` gets the header `home textIndex sectionCount g`, which is
  `sliceOf` its range, and every other header stays.
* `functionForOffset_placed`: the section indices play no part in which function is found.
-/

namespace RvLlvm.Lld.Csgorfe

open RvLlvm.Elf RvLlvm.Support Splitter

/-! ## Pieces and their headers -/

/-- The header of piece `g`: the section's own for the first, then the appended ones. -/
def home (first count g : Nat) : Nat := if g = 0 then first else count + (g - 1)

theorem home_zero (first count : Nat) : home first count 0 = first := rfl

theorem home_succ (first count g : Nat) : home first count (g + 1) = count + g := rfl

theorem home_inj {first count g g' : Nat} (hf : first < count)
    (h : home first count g = home first count g') : g = g' := by
  unfold home at h
  split_ifs at h <;> omega

theorem home_lt {first count g n : Nat} (hf : first < count) (hg : g < n) :
    home first count g < count + (n - 1) := by
  unfold home
  split_ifs <;> omega

theorem home_ne {first count g i : Nat} (hi : i < count) (hne : i ≠ first) :
    i ≠ home first count g := by
  unfold home
  split_ifs <;> omega

/-- An index is a piece's header, or an old header other than the section's own. -/
theorem eq_home_of_lt {first count i n : Nat} (hi : i < count + (n - 1))
    (hold : i < count → i = first) (hn : 0 < n) : ∃ g < n, i = home first count g := by
  by_cases h : i < count
  · exact ⟨0, hn, hold h⟩
  · refine ⟨i - count + 1, by omega, ?_⟩
    rw [home_succ]
    omega

/-! ## `splitText` -/

/-- The functions with the section indices `splitText` gives them. -/
def placed (sp : Splitter) (funcs : List FunctionInfo) : List FunctionInfo :=
  funcs.mapIdx fun g f => { f with sectionIndex := half (home sp.textIndex sp.sectionCount g) }

theorem splitTextLoop_spec (orig : Shdr) :
    ∀ (fs : List FunctionInfo) (sp : Splitter),
      let r := splitTextLoop orig sp fs
      r.1.sectionCount = sp.sectionCount + fs.length ∧
      (∀ i < sp.sectionCount, r.1.shdr i = sp.shdr i) ∧
      (∀ g (hg : g < fs.length), r.1.shdr (sp.sectionCount + g) = sliceOf orig fs[g]) ∧
      r.2 = fs.mapIdx (fun g f => { f with sectionIndex := half (sp.sectionCount + g) }) ∧
      r.1.sym = sp.sym ∧ r.1.rela = sp.rela ∧ r.1.ehdr = sp.ehdr ∧
      r.1.textIndex = sp.textIndex ∧ r.1.symtabIndex = sp.symtabIndex
  | [], sp => ⟨rfl, fun _ _ => rfl, fun _ h => absurd h (Nat.not_lt_zero _), rfl, rfl, rfl, rfl,
      rfl, rfl⟩
  | f :: fs, sp => by
    obtain ⟨hcount, hold, hnew, hfs, hsym, hrela, hehdr, htext, hsymtab⟩ :=
      splitTextLoop_spec orig fs (sp.appendSectionHeader (sliceOf orig f))
    refine ⟨?_, fun i hi => ?_, fun g hg => ?_, ?_, hsym, hrela, hehdr, htext, hsymtab⟩
    · simp only [splitTextLoop, hcount, appendSectionHeader_sectionCount, List.length_cons]
      omega
    · have hi' : i < sp.sectionCount + 1 := Nat.lt_succ_of_lt hi
      simp only [splitTextLoop]
      rw [hold i hi']
      exact Function.update_of_ne (Nat.ne_of_lt hi) _ _
    · simp only [splitTextLoop]
      cases g with
      | zero =>
        rw [Nat.add_zero, hold _ (Nat.lt_succ_self _)]
        simp
      | succ g =>
        have := hnew g (by simpa using hg)
        rw [appendSectionHeader_sectionCount] at this
        rw [show sp.sectionCount + (g + 1) = sp.sectionCount + 1 + g by omega]
        exact this
    · simp only [splitTextLoop, List.mapIdx_cons, hfs, appendSectionHeader_sectionCount,
        Nat.add_sub_cancel, Nat.add_zero, List.cons.injEq, true_and]
      congr 1
      funext g f
      rw [show sp.sectionCount + 1 + g = sp.sectionCount + (g + 1) by omega]

/-- What `splitText` leaves. -/
structure TextSplit (sp : Splitter) (funcs : List FunctionInfo) (sp' : Splitter) : Prop where
  count : sp'.sectionCount = sp.sectionCount + (funcs.length - 1)
  homes : ∀ g (hg : g < funcs.length),
    sp'.shdr (home sp.textIndex sp.sectionCount g) = sliceOf sp.text funcs[g]
  others : ∀ i < sp.sectionCount, i ≠ sp.textIndex → sp'.shdr i = sp.shdr i
  sym : sp'.sym = sp.sym
  rela : sp'.rela = sp.rela
  ehdr : sp'.ehdr = sp.ehdr
  textIndex : sp'.textIndex = sp.textIndex
  symtabIndex : sp'.symtabIndex = sp.symtabIndex

variable {funcs : List FunctionInfo}

/-- **`splitText` gives every function its own header.** -/
theorem splitText_spec {sp : Splitter} (hne : 0 < funcs.length)
    (ht : sp.textIndex < sp.sectionCount) :
    TextSplit sp funcs (sp.splitText funcs).1 ∧ (sp.splitText funcs).2 = placed sp funcs := by
  cases funcs with
  | nil => exact absurd hne (Nat.lt_irrefl 0)
  | cons f fs =>
    obtain ⟨hcount, hold, hnew, hfs, hsym, hrela, hehdr, htext, hsymtab⟩ :=
      splitTextLoop_spec sp.text fs sp
    refine ⟨⟨hcount, fun g hg => ?_, fun i hi hne => ?_, hsym, hrela, hehdr, htext, hsymtab⟩, ?_⟩
    · cases g with
      | zero => simp [splitText, setHeader, home_zero]
      | succ g =>
        have hne : sp.sectionCount + g ≠ sp.textIndex := by omega
        simp only [splitText, setHeader, home_succ, Function.update_of_ne hne]
        exact hnew g (by simpa using hg)
    · simp only [splitText, setHeader, Function.update_of_ne hne]
      exact hold i hi
    · simp only [splitText, placed, List.mapIdx_cons, hfs, home_zero, home_succ]

theorem placed_length (sp : Splitter) (funcs : List FunctionInfo) :
    (placed sp funcs).length = funcs.length := by
  simp [placed]

theorem placed_getElem {sp : Splitter} {g : Nat} (hg : g < funcs.length)
    (hg' : g < (placed sp funcs).length) :
    (placed sp funcs)[g] =
      { funcs[g] with sectionIndex := half (home sp.textIndex sp.sectionCount g) } := by
  simp [placed]

theorem placed_getD {sp : Splitter} {g : Nat} (hg : g < funcs.length) (d : FunctionInfo) :
    (placed sp funcs).getD g d =
      { funcs[g] with sectionIndex := half (home sp.textIndex sp.sectionCount g) } := by
  have hg' : g < (placed sp funcs).length := by rw [placed_length]; exact hg
  rw [List.getD_eq_getElem?_getD, List.getElem?_eq_getElem hg', Option.getD_some,
    placed_getElem hg]

/-- Placing the functions does not change which one an offset belongs to. -/
theorem functionForOffset_placed (sp : Splitter) (funcs : List FunctionInfo) (x : Nat) :
    functionForOffset (placed sp funcs) x = functionForOffset funcs x := by
  refine floorIndex_congr (List.ext_getElem (by simp [placed]) fun i h h' => ?_) x
  simp [placed]

end RvLlvm.Lld.Csgorfe
