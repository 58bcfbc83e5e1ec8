import RvLlvm.Lld.CsgorfeOutcome

/-!
# What relocation entries denote before and after the split

A relocation entry of an object denotes a byte of text through its symbol: the symbol's section,
at the symbol's value plus the entry's addend. The split does not move text in the file, so a
byte of text is named by its file offset.

* `denotes`: the byte of text an entry denotes in an image, as the linker reads it.
* `Checked.symbolByte?_split`: after the split, `a` past a symbol is still byte `b` exactly when `b`
  lies in the function that holds the *symbol*, whose slice has a section index that fits.
* `keeps_denotation_iff`: the split keeps what every entry denotes exactly when every entry stays
  inside its symbol's function. `updateSymbols` moves the symbol by its own value and the addend
  is not looked at.
-/

namespace RvLlvm.Lld.Csgorfe

open RvLlvm.Elf RvLlvm.Support Splitter

/-! ## Reading an image -/

/-- The section a symbol is defined in; reserved indices name none. -/
def symbolSection? (im : Image) (s : Sym) : Option Nat :=
  if s.stShndx < shnLoreserve ∧ s.stShndx < im.ehdr.eShnum then some s.stShndx else none

/-- Offset `x` of section `i` as a byte of text, by file offset. -/
def textByte? (im : Image) (i : Nat) (x : Int) : Option Int :=
  if isTextHeader (im.shdr i) = true ∧ 0 ≤ x ∧ x < (im.shdr i).shSize
  then some ((im.shdr i).shOffset + x) else none

/-- The byte of text `addend` past symbol `k`. -/
def symbolByte? (im : Image) (k : Nat) (addend : Int) : Option Int :=
  (symbolSection? im (im.sym k)).bind fun i => textByte? im i ((im.sym k).stValue + addend)

/-- The byte of text a relocation record denotes: its symbol's value plus its addend. -/
def denotes (im : Image) (r : Rela) : Option Int := symbolByte? im r.rSym r.rAddend

/-- The record at file offset `o` is an entry of a relocation section. -/
def isEntry (im : Image) (o : Nat) : Prop :=
  ∃ s < im.ehdr.eShnum, (im.shdr s).shType = shtRela ∧
    ∃ j < relaCount (im.shdr s), o = relaOffset (im.shdr s) j

/-- Symbol `k` is in the symbol table. -/
def isSymbol (im : Image) (k : Nat) : Prop :=
  ∃ t < im.ehdr.eShnum, (im.shdr t).shType = shtSymtab ∧
    k < (im.shdr t).shSize / (im.shdr t).shEntsize

/-- Every entry that denotes a byte of text in `im` denotes the same byte in `im'`. -/
def KeepsDenotation (im im' : Image) : Prop :=
  ∀ o, isEntry im o → isSymbol im (im.rela o).rSym →
    ∀ b, denotes im (im.rela o) = some b → denotes im' (im'.rela o) = some b

/-! ## The condition -/

/-- Byte `b` lies in function `g`. -/
def inFunction (sp : Splitter) (funcs : List FunctionInfo) (g : Nat) (b : Int) : Prop :=
  let f := funcs.getD g ⟨0, 0, 0, 0⟩
  sp.text.shOffset + f.start ≤ b ∧ b < sp.text.shOffset + f.start + f.size

/-- The header of function `g`'s slice has an index that `st_shndx` can hold and `e_shnum`
counts. -/
def indexFits (sp : Splitter) (funcs : List FunctionInfo) (relocs : List Nat) (g : Nat) : Prop :=
  sliceIndex sp g < shnLoreserve ∧ sliceIndex sp g < half (headerCount sp funcs relocs)

/-- Every entry that denotes a byte of text denotes one of the function that holds its symbol, and
that function's slice has a usable index. -/
def StaysInFunction (obj : ObjectFile) (sp : Splitter) (funcs : List FunctionInfo)
    (relocs : List Nat) : Prop :=
  ∀ o, isEntry obj.toImage o → isSymbol obj.toImage (obj.rela o).rSym →
    ∀ b, denotes obj.toImage (obj.rela o) = some b →
      let g := functionForOffset funcs (obj.sym (obj.rela o).rSym).stValue
      inFunction sp funcs g b ∧ indexFits sp funcs relocs g

/-! ## A symbol after the split -/

theorem symbolByte?_eq_some {im : Image} {k : Nat} {a b : Int} (h : symbolByte? im k a = some b) :
    let s := im.sym k
    symbolSection? im s = some s.stShndx ∧ s.stShndx < shnLoreserve ∧
      s.stShndx < im.ehdr.eShnum ∧ isTextHeader (im.shdr s.stShndx) = true ∧
      0 ≤ s.stValue + a ∧ s.stValue + a < (im.shdr s.stShndx).shSize ∧
      b = (im.shdr s.stShndx).shOffset + (s.stValue + a) := by
  unfold symbolByte? at h
  by_cases hsec : (im.sym k).stShndx < shnLoreserve ∧ (im.sym k).stShndx < im.ehdr.eShnum
  · have hsome : symbolSection? im (im.sym k) = some (im.sym k).stShndx := if_pos hsec
    rw [hsome, Option.bind_some, textByte?] at h
    split at h
    · rename_i hbyte
      exact ⟨hsome, hsec.1, hsec.2, hbyte.1, hbyte.2.1, hbyte.2.2, (Option.some.inj h).symm⟩
    · exact absurd h (by simp)
  · rw [symbolSection?, if_neg hsec] at h
    exact absurd h (by simp)

theorem symbolByte?_of {im : Image} {k i : Nat} {a x b : Int} (hi : (im.sym k).stShndx = i)
    (hx : (im.sym k).stValue + a = x) (hres : i < shnLoreserve) (hnum : i < im.ehdr.eShnum)
    (ht : isTextHeader (im.shdr i) = true) (h0 : 0 ≤ x) (hlt : x < (im.shdr i).shSize)
    (hb : b = (im.shdr i).shOffset + x) : symbolByte? im k a = some b := by
  unfold symbolByte? symbolSection?
  rw [hi, if_pos ⟨hres, hnum⟩, Option.bind_some, hx, textByte?, if_pos ⟨ht, h0, hlt⟩, hb]

/-- Rebasing a record keeps its symbol and its addend. -/
theorem Outcome.rela_symbol {sp : Splitter} {funcs : List FunctionInfo} {relocs : List Nat}
    {im : Image} (h : Outcome sp funcs relocs im) (o : Nat) :
    (im.rela o).rSym = (sp.rela o).rSym ∧ (im.rela o).rAddend = (sp.rela o).rAddend := by
  rw [h.rela]
  split
  · exact ⟨rfl, rfl⟩
  · exact ⟨rfl, rfl⟩

variable {obj : ObjectFile} {sp : Splitter} {funcs : List FunctionInfo} {relocs : List Nat}

theorem run_eq_some {im : Image} (h : Accepted obj sp funcs relocs)
    (hrun : run obj.toImage = some im) : im = split sp funcs relocs := by
  unfold Accepted at h
  rw [run, h] at hrun
  exact (Option.some.inj hrun).symm

namespace Checked

variable (h : Checked obj sp funcs relocs)

include h

/-- A symbol of the symbol table is one that `updateSymbols` visits. -/
theorem symbol_lt {k : Nat} (hk : isSymbol obj.toImage k) : k < sp.symCount := by
  obtain ⟨t, ht, htype, hlt⟩ := hk
  rw [← h.image] at htype hlt
  rw [← h.count] at ht
  obtain rfl := h.symtab_only t ht htype
  exact hlt

/-- The byte of text a symbol names is in `.text`. -/
theorem symbolByte?_text {k : Nat} {a b : Int} (hb : symbolByte? obj.toImage k a = some b) :
    (sp.sym k).stShndx = sp.textIndex ∧ b = sp.text.shOffset + ((sp.sym k).stValue + a) := by
  obtain ⟨_, _, hlt, htext, _, _, hbyte⟩ := symbolByte?_eq_some hb
  simp only [← h.image] at hlt htext hbyte
  have himage : sp.toImage.ehdr.eShnum = sp.sectionCount := by rw [h.image, h.count]
  have hidx : (sp.sym k).stShndx = sp.textIndex := h.text_only _ (himage ▸ hlt) htext
  rw [hidx] at hbyte
  exact ⟨hidx, hbyte⟩

/-- A symbol of `.text` after `updateSymbols`. -/
theorem symbol_moved {k : Nat} (hk : isSymbol obj.toImage k)
    (ht : (sp.sym k).stShndx = sp.textIndex) :
    let g := functionForOffset funcs (sp.sym k).stValue
    ((split sp funcs relocs).sym k).stShndx = half (sliceIndex sp g) ∧
      ((split sp funcs relocs).sym k).stValue =
        (sp.sym k).stValue - (funcs.getD g ⟨0, 0, 0, 0⟩).start := by
  have hg := (h.plan.functionForOffset_spec (sp.sym k).stValue).1
  rw [h.ready.outcome.sym, if_pos ⟨h.symbol_lt hk, ht⟩]
  refine ⟨?_, ?_⟩
  · simp only [moveSymbol, functionForOffset_placed, placed_getD hg]
    rfl
  · simp only [moveSymbol, functionForOffset_placed, placed_getD_start]

/-- Functions that start together are one. -/
theorem start_inj {g g' : Nat} (hg : g < funcs.length) (hg' : g' < funcs.length)
    (heq : funcs[g].start = funcs[g'].start) : g = g' := by
  rcases Nat.lt_trichotomy g g' with hlt | hgg | hgt
  · exact absurd heq (Nat.ne_of_lt (h.plan.slices.sorted.lt hlt hg' hg))
  · exact hgg
  · exact absurd heq.symm (Nat.ne_of_lt (h.plan.slices.sorted.lt hgt hg hg'))

omit h in
theorem getD_eq {g : Nat} (hg : g < funcs.length) :
    funcs.getD g ⟨0, 0, 0, 0⟩ = funcs[g] := by
  rw [List.getD_eq_getElem?_getD, List.getElem?_eq_getElem hg, Option.getD_some]

/-- **A symbol after the split**: `a` past it is the same byte `b` as before exactly when `b` lies
in the function that holds the symbol, whose slice has a usable index. -/
theorem symbolByte?_split {k : Nat} {a b : Int} (hk : isSymbol obj.toImage k)
    (hb : symbolByte? obj.toImage k a = some b) :
    symbolByte? (split sp funcs relocs) k a = some b ↔
      let g := functionForOffset funcs (obj.sym k).stValue
      inFunction sp funcs g b ∧ indexFits sp funcs relocs g := by
  obtain ⟨htext, hbyte⟩ := h.symbolByte?_text hb
  obtain ⟨hshndx, hvalue⟩ := h.symbol_moved hk htext
  obtain ⟨hg, hstart, _⟩ := h.plan.functionForOffset_spec (sp.sym k).stValue
  have hsyms : obj.sym = sp.sym := by rw [h.image]
  simp only [hsyms]
  generalize functionForOffset funcs (sp.sym k).stValue = g at *
  rw [getD_eq hg] at hvalue
  have hslice := h.ready.outcome.slices g hg
  constructor
  · intro hsome
    obtain ⟨_, hres, hnum, hti, hlo, hhi, hpos⟩ := symbolByte?_eq_some hsome
    rw [hshndx] at hres hnum hti hhi hpos
    rw [hvalue] at hlo hhi hpos
    rw [h.ready.outcome.shnum] at hnum
    obtain ⟨g', hg', hidx⟩ := h.ready.text_header (hnum.trans_le (Nat.mod_le _ _)) hti
    rw [hidx, h.ready.outcome.slices g' hg'] at hhi hpos
    simp only [sliceOf] at hhi hpos
    -- the slice found there starts where the symbol's function starts, so it is that one
    obtain rfl : g' = g := h.start_inj hg' hg (by omega)
    rw [hidx] at hres hnum
    refine ⟨?_, hres, hnum⟩
    simp only [inFunction, getD_eq hg]
    omega
  · rintro ⟨⟨hlo, hhi⟩, hres, hnum⟩
    rw [getD_eq hg] at hlo hhi
    rw [half_of_lt (hnum.trans (half_lt _))] at hshndx
    refine symbolByte?_of (x := b - (sp.text.shOffset + funcs[g].start)) hshndx ?_ hres
      (by rw [h.ready.outcome.shnum]; exact hnum) (h.ready.slice_text hg) (by omega) ?_ ?_
    · rw [hvalue, hbyte]
      omega
    · rw [hslice]
      simp only [sliceOf]
      omega
    · rw [hslice]
      simp only [sliceOf]
      omega

/-- An entry after the split. -/
theorem denotes_split {o : Nat} {b : Int} (hk : isSymbol obj.toImage (obj.rela o).rSym)
    (hb : denotes obj.toImage (obj.rela o) = some b) :
    denotes (split sp funcs relocs) ((split sp funcs relocs).rela o) = some b ↔
      let g := functionForOffset funcs (obj.sym (obj.rela o).rSym).stValue
      inFunction sp funcs g b ∧ indexFits sp funcs relocs g := by
  obtain ⟨hsym, haddend⟩ := h.ready.outcome.rela_symbol o
  have hrela : sp.rela = obj.rela := by rw [h.image]
  rw [hrela] at hsym haddend
  rw [denotes, hsym, haddend]
  exact h.symbolByte?_split hk hb

end Checked

/-- `lui` with `%hi(.text + 4)`, by the section symbol: the target is the second function. -/
def acrossFunctions : ObjectFile :=
  smallObject 8 [⟨0, 0, 0, 0⟩, ⟨0, 0, 3, 1⟩, ⟨0, 4, sttFunc, 1⟩, ⟨4, 4, sttFunc, 1⟩] [⟨0, 1, 26, 4⟩]

/-- The same reference by the symbol of the second function. -/
def ownFunction : ObjectFile :=
  smallObject 8 [⟨0, 0, 0, 0⟩, ⟨0, 0, 3, 1⟩, ⟨0, 4, sttFunc, 1⟩, ⟨4, 4, sttFunc, 1⟩] [⟨0, 3, 26, 0⟩]

/-- **Relocations keep what they denote exactly when they stay in their symbol's function.** -/
theorem keeps_denotation_iff {im : Image} (h : Accepted obj sp funcs relocs)
    (hrun : run obj.toImage = some im) :
    KeepsDenotation obj.toImage im ↔ StaysInFunction obj sp funcs relocs := by
  rw [run_eq_some h hrun]
  refine forall_congr' fun o => forall_congr' fun _ => forall_congr' fun hk =>
    forall_congr' fun b => forall_congr' fun hb => ?_
  exact h.checked.denotes_split hk hb

theorem keeps_denotation_ownFunction :
    ∃ im, run ownFunction.toImage = some im ∧ KeepsDenotation ownFunction.toImage im := by
  have hacc : Accepted ownFunction _ _ _ := rfl
  refine ⟨_, rfl, (keeps_denotation_iff hacc rfl).mpr fun o ho _ b hb => ?_⟩
  obtain ⟨s, _, hs, k, hk, rfl⟩ := ho
  obtain rfl := smallHeader_rela hs
  obtain rfl : k = 0 := Nat.lt_one_iff.mp hk
  obtain rfl : 56 = b := Option.some.inj hb
  exact ⟨⟨by decide, by decide⟩, by decide, by decide⟩

/-- The byte `.text + 4` is lost when `.text` is split at 4. -/
theorem not_keeps_denotation_acrossFunctions :
    ∃ im, run acrossFunctions.toImage = some im ∧ ¬ KeepsDenotation acrossFunctions.toImage im := by
  refine ⟨_, rfl, fun hkeeps => ?_⟩
  have hentry : isEntry acrossFunctions.toImage 60 := ⟨2, by decide, rfl, 0, by decide, rfl⟩
  have hsym : isSymbol acrossFunctions.toImage 1 := ⟨3, by decide, rfl, by decide⟩
  exact absurd (hkeeps 60 hentry hsym 56 (by decide)) (by decide)

end RvLlvm.Lld.Csgorfe
