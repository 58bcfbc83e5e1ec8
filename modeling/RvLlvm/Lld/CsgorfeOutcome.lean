import RvLlvm.Lld.CsgorfeTables

/-!
# The image `run` writes

Everything the split does, in terms of the image it started from (`CSGORFE.h:30-69`).

* `ObjectFile`: an image whose relocation sections share no byte of the file, as the gABI asks of
  all sections.
* `Accepted`: what `accept` returned on the object, with the facts its checks establish.
* `Outcome` / `Checked.outcome`: the headers, tables, records and symbols of the image written.
* `Checked.text_header`: the executable headers of the image are the functions' slices.
-/

namespace RvLlvm.Lld.Csgorfe

open RvLlvm.Elf RvLlvm.Support Splitter

/-- The file offset `o` lies in the section. -/
def inFile (sec : Shdr) (o : Nat) : Prop := sec.shOffset ≤ o ∧ o < sec.shOffset + sec.shSize

instance (sec : Shdr) (o : Nat) : Decidable (inFile sec o) :=
  inferInstanceAs (Decidable (_ ∧ _))

/-- An object file: no byte of it lies in two relocation sections. -/
structure ObjectFile extends Image where
  apart : ∀ i < ehdr.eShnum, ∀ j < ehdr.eShnum, (shdr i).shType = shtRela →
    (shdr j).shType = shtRela → ∀ o, inFile (shdr i) o → inFile (shdr j) o → i = j

/-! ## Small objects -/

/-- The section headers of a small object: `.text`, `.rela.text` and `.symtab` at 1, 2 and 3, one
after the other behind the ELF header. -/
def smallHeader (textSize relas syms : Nat) : Nat → Shdr
  | 1 => ⟨1, shtProgbits, 6, 0, 52, textSize, 0, 0, 4, 0⟩
  | 2 => ⟨7, shtRela, 0, 0, 52 + textSize, 12 * relas, 3, 1, 4, 12⟩
  | 3 => ⟨18, shtSymtab, 0, 0, 52 + textSize + 12 * relas, 16 * syms, 1, 2, 4, 16⟩
  | _ => ⟨0, shtNull, 0, 0, 0, 0, 0, 0, 0, 0⟩

theorem smallHeader_rela {textSize relas syms i : Nat}
    (h : (smallHeader textSize relas syms i).shType = shtRela) : i = 2 := by
  unfold smallHeader at h
  split at h
  · exact absurd (show shtProgbits = shtRela from h) (by decide)
  · rfl
  · exact absurd (show shtSymtab = shtRela from h) (by decide)
  · exact absurd (show shtNull = shtRela from h) (by decide)

/-- An object with one text section, one relocation section and a symbol table, and the section
headers last. -/
def smallObject (textSize : Nat) (syms : List Sym) (relas : List Rela) : ObjectFile where
  currentSize := 52 + textSize + 12 * relas.length + 16 * syms.length + 160
  ehdr :=
    { eIdent := [0x7f, 0x45, 0x4c, 0x46, elfClass32, elfData2Lsb]
      eType := etRel
      eMachine := emRiscv
      eShoff := 52 + textSize + 12 * relas.length + 16 * syms.length
      eShentsize := sizeofShdr
      eShnum := 4 }
  shdr := smallHeader textSize relas.length syms.length
  sym := fun k => syms.getD k ⟨0, 0, 0, 0⟩
  rela := fun o => relas.getD ((o - (52 + textSize)) / 12) ⟨0, 0, 0, 0⟩
  apart := fun i _ j _ hi hj _ _ _ => by rw [smallHeader_rela hi, smallHeader_rela hj]

/-! ## What the checks establish -/

/-- `accept` took the object and returned `sp`, `funcs` and `relocs`. -/
def Accepted (obj : ObjectFile) (sp : Splitter) (funcs : List FunctionInfo) (relocs : List Nat) :
    Prop := accept obj.toImage = some (sp, funcs, relocs)

/-- What the checks of `run` establish on an accepted object. -/
structure Checked (obj : ObjectFile) (sp : Splitter) (funcs : List FunctionInfo)
    (relocs : List Nat) : Prop where
  image : sp.toImage = obj.toImage
  count : sp.sectionCount = obj.ehdr.eShnum
  text_lt : sp.textIndex < sp.sectionCount
  text : isTextHeader sp.text = true
  text_only : ∀ i < sp.sectionCount, isTextHeader (sp.shdr i) = true → i = sp.textIndex
  symtab_lt : sp.symtabIndex < sp.sectionCount
  symtab : (sp.shdr sp.symtabIndex).shType = shtSymtab
  symtab_only : ∀ i < sp.sectionCount, (sp.shdr i).shType = shtSymtab → i = sp.symtabIndex
  plan : Plan sp funcs relocs

variable {obj : ObjectFile} {sp : Splitter} {funcs : List FunctionInfo} {relocs : List Nat}

theorem Accepted.checked (h : Accepted obj sp funcs relocs) : Checked obj sp funcs relocs := by
  unfold Accepted accept at h
  split at h
  · exact absurd h (by simp)
  · rw [Option.bind_eq_some_iff] at h
    obtain ⟨sp', hcore, h⟩ := h
    rw [Option.map_eq_some_iff] at h
    obtain ⟨p, hplan, heq⟩ := h
    obtain ⟨rfl, rfl⟩ := Prod.mk.inj heq
    obtain ⟨himage, hcount, hlt, htext, honly, hslt, hsym, hsonly⟩ := findCoreSections_spec hcore
    exact ⟨himage, hcount, hlt, htext, honly, hslt, hsym, hsonly, plan_spec hplan⟩

/-! ## Functions and groups once the slices are placed -/

theorem placed_getD_start (sp : Splitter) (funcs : List FunctionInfo) (g : Nat)
    (d : FunctionInfo) : ((placed sp funcs).getD g d).start = (funcs.getD g d).start := by
  by_cases hg : g < funcs.length
  · rw [placed_getD hg, List.getD_eq_getElem?_getD, List.getElem?_eq_getElem hg, Option.getD_some]
  · rw [List.getD_eq_getElem?_getD, List.getD_eq_getElem?_getD,
      List.getElem?_eq_none (by rw [placed_length]; omega), List.getElem?_eq_none (by omega)]

theorem rebase_placed (r : Rela) : rebase (placed sp funcs) r = rebase funcs r := by
  unfold rebase
  rw [functionForOffset_placed, placed_getD_start]

theorem groupsLoop_placed (sp' : Splitter) (sec : Shdr) (n : Nat) :
    sp'.groupsLoop (placed sp funcs) sec n = sp'.groupsLoop funcs sec n := by
  induction n with
  | zero => rfl
  | succ n ih => simp only [groupsLoop, ih, functionForOffset_placed]

theorem groupOf_placed (sp' : Splitter) (s j : Nat) :
    groupOf sp' (placed sp funcs) s j = groupOf sp' funcs s j := by
  unfold groupOf groups
  rw [groupsLoop_placed]

theorem countRelocGroups_placed (sp' : Splitter) (s : Nat) :
    sp'.countRelocGroups s (placed sp funcs) = sp'.countRelocGroups s funcs := by
  unfold countRelocGroups
  simp only [groupsLoop_placed]

theorem funcOf_placed (sp' : Splitter) (s j : Nat) :
    funcOf sp' (placed sp funcs) s j = funcOf sp' funcs s j := by
  unfold funcOf
  rw [functionForOffset_placed]

theorem groupRun_placed {sp' : Splitter} {s j a b : Nat}
    (h : GroupRun sp' (placed sp funcs) s j a b) : GroupRun sp' funcs s j a b := by
  refine ⟨h.lo, h.hi, h.le, fun i hai hib => ?_⟩
  have := h.same i hai hib
  rwa [groupOf_placed, groupOf_placed] at this

namespace TextSplit

variable {sp₁ : Splitter} {s : Nat}

/-- The text split leaves the relocation tables alone. -/
theorem sameTable (h : TextSplit sp funcs sp₁) (hs : s < sp.sectionCount)
    (hne : s ≠ sp.textIndex) : SameTable sp sp₁ s where
  header := h.others s hs hne
  record := fun _ _ => by rw [h.rela]

end TextSplit

/-! ## The outcome -/

/-- The header of function `g`'s slice. -/
def sliceIndex (sp : Splitter) (g : Nat) : Nat := home sp.textIndex sp.sectionCount g

/-- The number of section headers after the split. -/
def headerCount (sp : Splitter) (funcs : List FunctionInfo) (relocs : List Nat) : Nat :=
  sp.sectionCount + sp.extraHeaders funcs relocs

/-- The header of the table that holds record `j` of section `s`. -/
def tableHome (sp : Splitter) (funcs : List FunctionInfo) (relocs : List Nat) (s j : Nat) : Nat :=
  home s (tableBase sp funcs relocs s + (funcs.length - 1)) (groupOf sp funcs s j)

/-- What the split makes of the image `sp` describes. -/
structure Outcome (sp : Splitter) (funcs : List FunctionInfo) (relocs : List Nat) (im : Image) :
    Prop where
  shnum : im.ehdr.eShnum = half (headerCount sp funcs relocs)
  slices : ∀ g (hg : g < funcs.length), im.shdr (sliceIndex sp g) = sliceOf sp.text funcs[g]
  tables : ∀ s ∈ relocs, ∀ j < records sp s, ∃ a b, GroupRun sp funcs s j a b ∧
    im.shdr (tableHome sp funcs relocs s j) =
      { sp.shdr s with
        shOffset := relaOffset (sp.shdr s) a
        shSize := (b - a) * (sp.shdr s).shEntsize
        shInfo := half (sliceIndex sp (funcOf sp funcs s j)) }
  pieces : ∀ i < headerCount sp funcs relocs,
    (i < sp.sectionCount ∧ i ≠ sp.textIndex ∧ i ∉ relocs ∧ im.shdr i = sp.shdr i) ∨
    (∃ g < funcs.length, i = sliceIndex sp g) ∨
    ∃ s ∈ relocs, (im.shdr i).shType = shtRela ∧
      ((im.shdr i).shSize = 0 ∨ ∃ j < records sp s, i = tableHome sp funcs relocs s j)
  rela : ∀ o, im.rela o =
    if ∃ s ∈ relocs, ∃ j < records sp s, o = relaOffset (sp.shdr s) j
    then rebase funcs (sp.rela o) else sp.rela o
  sym : ∀ k, im.sym k =
    if k < sp.symCount ∧ (sp.sym k).stShndx = sp.textIndex
    then moveSymbol (placed sp funcs) (sp.sym k) else sp.sym k

namespace Plan

variable (h : Plan sp funcs relocs)

include h

theorem reloc_lt {s : Nat} (hs : s ∈ relocs) : s < sp.sectionCount := (h.isReloc s hs).1

theorem reloc_type {s : Nat} (hs : s ∈ relocs) : (sp.shdr s).shType = shtRela :=
  (h.isReloc s hs).2.1

theorem records_mul {s : Nat} (hs : s ∈ relocs) :
    records sp s * (sp.shdr s).shEntsize = (sp.shdr s).shSize :=
  Nat.div_mul_cancel (Nat.dvd_of_mod_eq_zero (h.whole s hs))

/-- The bytes of records `a, …, b - 1` belong to their section. -/
theorem inFile_records {s a b o : Nat} (hs : s ∈ relocs) (hb : b ≤ records sp s)
    (hlo : relaOffset (sp.shdr s) a ≤ o)
    (hhi : o < relaOffset (sp.shdr s) a + (b - a) * (sp.shdr s).shEntsize) :
    inFile (sp.shdr s) o := by
  have hmul := h.records_mul hs
  have hle : b * (sp.shdr s).shEntsize ≤ records sp s * (sp.shdr s).shEntsize :=
    Nat.mul_le_mul_right _ hb
  unfold relaOffset at hlo hhi
  rw [Nat.sub_mul] at hhi
  refine ⟨by omega, ?_⟩
  omega

theorem inFile_record {s j : Nat} (hs : s ∈ relocs) (hj : j < records sp s) :
    inFile (sp.shdr s) (relaOffset (sp.shdr s) j) := by
  have hpos : 0 < (sp.shdr s).shEntsize := by
    rw [h.entsize s hs]
    decide
  refine h.inFile_records (a := j) (b := j + 1) hs hj (Nat.le_refl _) ?_
  rw [Nat.add_sub_cancel_left, Nat.one_mul]
  exact Nat.lt_add_of_pos_right hpos

end Plan

/-- What the split needs to know of the image: its `.text` and symbol table, the plan, and that no
record is reached through two relocation sections of `.text`. -/
structure Ready (sp : Splitter) (funcs : List FunctionInfo) (relocs : List Nat) : Prop where
  text_lt : sp.textIndex < sp.sectionCount
  text : isTextHeader sp.text = true
  text_only : ∀ i < sp.sectionCount, isTextHeader (sp.shdr i) = true → i = sp.textIndex
  symtab_lt : sp.symtabIndex < sp.sectionCount
  symtab : (sp.shdr sp.symtabIndex).shType = shtSymtab
  plan : Plan sp funcs relocs
  apart : RecordsApart sp relocs

namespace Checked

variable (h : Checked obj sp funcs relocs)

include h

/-- A byte of the file lies in one relocation section at most. -/
theorem rela_unique {i s o : Nat} (hi : i < sp.sectionCount) (hty : (sp.shdr i).shType = shtRela)
    (hs : s ∈ relocs) (ho : inFile (sp.shdr i) o) (ho' : inFile (sp.shdr s) o) : i = s := by
  have hs' := h.plan.reloc_lt hs
  have hty' := h.plan.reloc_type hs
  rw [h.count] at hi hs'
  rw [h.image] at hty ho hty' ho'
  exact obj.apart i hi s hs' hty hty' o ho ho'

theorem recordsApart : RecordsApart sp relocs := by
  intro s hs s' hs' hne j hj j' hj' heq
  have hin := h.plan.inFile_record hs hj
  rw [heq] at hin
  exact hne (h.rela_unique (h.plan.reloc_lt hs) (h.plan.reloc_type hs) hs' hin
    (h.plan.inFile_record hs' hj'))

theorem ready : Ready sp funcs relocs :=
  ⟨h.text_lt, h.text, h.text_only, h.symtab_lt, h.symtab, h.plan, h.recordsApart⟩

end Checked

namespace Ready

variable (h : Ready sp funcs relocs)

include h

theorem several : 0 < funcs.length := Nat.lt_trans Nat.zero_lt_one h.plan.several

theorem symtab_ne_text : sp.symtabIndex ≠ sp.textIndex := by
  intro heq
  have hs := h.symtab
  have ht := h.text
  rw [heq] at hs
  simp only [isTextHeader, Splitter.text, hs] at ht
  simp [shtSymtab, shtProgbits] at ht

theorem symtab_notMem : sp.symtabIndex ∉ relocs := by
  intro hmem
  have := h.plan.reloc_type hmem
  rw [h.symtab] at this
  exact absurd this (by decide)

theorem reloc_ne_text {s : Nat} (hs : s ∈ relocs) : s ≠ sp.textIndex := h.plan.ne_text h.text hs

theorem text_sameTable {s : Nat} (hs : s ∈ relocs) : SameTable sp (sp.splitText funcs).1 s :=
  (splitText_spec h.several h.text_lt).1.sameTable (h.plan.reloc_lt hs) (h.reloc_ne_text hs)

/-- What `splitRelocations` does after `splitText`. -/
theorem relocSplit : RelocSplit (sp.splitText funcs).1 (placed sp funcs) relocs
    (splitRelocations (placed sp funcs) (sp.splitText funcs).1 relocs) := by
  refine splitRelocations_spec h.plan.nodup (fun s hs s' hs' hne j hj j' hj' => ?_)
    fun s hs => ⟨?_, ?_⟩
  · rw [(h.text_sameTable hs).header, (h.text_sameTable hs').header]
    rw [(h.text_sameTable hs).records_eq] at hj
    rw [(h.text_sameTable hs').records_eq] at hj'
    exact h.apart s hs s' hs' hne j hj j' hj'
  · rw [(splitText_spec h.several h.text_lt).1.count]
    exact (h.plan.reloc_lt hs).trans_le (Nat.le_add_right _ _)
  · rw [(h.text_sameTable hs).header, h.plan.entsize _ hs]
    decide

theorem countRelocGroups_eq {s : Nat} (hs : s ∈ relocs) :
    (sp.splitText funcs).1.countRelocGroups s (placed sp funcs) =
      sp.countRelocGroups s funcs := by
  rw [countRelocGroups_placed, (h.text_sameTable hs).countRelocGroups_eq]

theorem tableIndex_eq {s j : Nat} (hs : s ∈ relocs) (hj : j < records sp s) :
    tableIndex (sp.splitText funcs).1 (placed sp funcs) relocs s j =
      tableHome sp funcs relocs s j := by
  have hmap : (relocs.takeWhile fun i => i != s).map
        (fun i => (sp.splitText funcs).1.countRelocGroups i (placed sp funcs)) =
      (relocs.takeWhile fun i => i != s).map fun i => sp.countRelocGroups i funcs :=
    List.map_congr_left fun i hi =>
      h.countRelocGroups_eq ((List.takeWhile_prefix _).subset hi)
  unfold tableIndex tableHome tableBase
  rw [hmap, (splitText_spec h.several h.text_lt).1.count, groupOf_placed,
    (h.text_sameTable hs).groupOf_eq hj]
  congr 1
  omega

/-- The header count `splitRelocations` ends with. -/
theorem sectionCount_eq :
    (splitRelocations (placed sp funcs) (sp.splitText funcs).1 relocs).sectionCount =
      headerCount sp funcs relocs := by
  have hmap : relocs.map (fun i => (sp.splitText funcs).1.countRelocGroups i (placed sp funcs)) =
      relocs.map fun i => sp.countRelocGroups i funcs :=
    List.map_congr_left fun i hi => h.countRelocGroups_eq hi
  rw [h.relocSplit.count, (splitText_spec h.several h.text_lt).1.count, hmap, headerCount,
    extraHeaders, Nat.add_assoc]

/-- An index below the count after `splitText` is an old header or a slice. -/
theorem old_or_slice {i : Nat} (hi : i < (sp.splitText funcs).1.sectionCount) :
    (i < sp.sectionCount ∧ i ≠ sp.textIndex) ∨ ∃ g < funcs.length, i = sliceIndex sp g := by
  rw [(splitText_spec h.several h.text_lt).1.count] at hi
  by_cases hold : i < sp.sectionCount ∧ i ≠ sp.textIndex
  · exact Or.inl hold
  · refine Or.inr (eq_home_of_lt hi (fun hlt => ?_) h.several)
    by_contra hne
    exact hold ⟨hlt, hne⟩

theorem slice_notMem {g : Nat} : sliceIndex sp g ∉ relocs := by
  intro hmem
  exact home_ne (h.plan.reloc_lt hmem) (h.reloc_ne_text hmem) rfl

theorem slice_lt {g : Nat} (hg : g < funcs.length) :
    sliceIndex sp g < (sp.splitText funcs).1.sectionCount := by
  rw [(splitText_spec h.several h.text_lt).1.count]
  exact home_lt h.text_lt hg

theorem split_tables {s j : Nat} (hs : s ∈ relocs) (hj : j < records sp s) :
    ∃ a b, GroupRun sp funcs s j a b ∧
      (splitRelocations (placed sp funcs) (sp.splitText funcs).1 relocs).shdr
          (tableHome sp funcs relocs s j) =
        { sp.shdr s with
          shOffset := relaOffset (sp.shdr s) a
          shSize := (b - a) * (sp.shdr s).shEntsize
          shInfo := half (sliceIndex sp (funcOf sp funcs s j)) } := by
  have hsame := h.text_sameTable hs
  obtain ⟨a, b, hrun, htable⟩ :=
    h.relocSplit.tables s hs j (by rw [hsame.records_eq]; exact hj)
  refine ⟨a, b, hsame.groupRun (groupRun_placed hrun), ?_⟩
  have hfunc : funcOf sp funcs s j < funcs.length := (h.plan.functionForOffset_spec _).1
  rw [← h.tableIndex_eq hs hj, htable, hsame.tableHeader_eq, funcOf_placed, hsame.funcOf_eq hj,
    tableHeader, placed_getD hfunc]
  rfl

theorem split_pieces {i : Nat} (hi : i < headerCount sp funcs relocs) :
    let sp₂ := splitRelocations (placed sp funcs) (sp.splitText funcs).1 relocs
    (i < sp.sectionCount ∧ i ≠ sp.textIndex ∧ i ∉ relocs ∧ sp₂.shdr i = sp.shdr i) ∨
    (∃ g < funcs.length, i = sliceIndex sp g) ∨
    ∃ s ∈ relocs, (sp₂.shdr i).shType = shtRela ∧
      ((sp₂.shdr i).shSize = 0 ∨ ∃ j < records sp s, i = tableHome sp funcs relocs s j) := by
  intro sp₂
  by_cases hold : i < (sp.splitText funcs).1.sectionCount ∧ i ∉ relocs
  · rcases h.old_or_slice hold.1 with ⟨hlt, hne⟩ | hslice
    · refine Or.inl ⟨hlt, hne, hold.2, ?_⟩
      rw [h.relocSplit.others i hold.1 hold.2,
        (splitText_spec h.several h.text_lt).1.others i hlt hne]
    · exact Or.inr (Or.inl hslice)
  · have hmem : i < (sp.splitText funcs).1.sectionCount → i ∈ relocs := fun hlt => by
      by_contra hn
      exact hold ⟨hlt, hn⟩
    obtain ⟨s, hs, htype, hpiece⟩ :=
      h.relocSplit.pieces i (by rw [h.sectionCount_eq]; exact hi) hmem
    have hsame := h.text_sameTable hs
    rw [hsame.header, h.plan.reloc_type hs] at htype
    refine Or.inr (Or.inr ⟨s, hs, htype, ?_⟩)
    rcases hpiece with ⟨hzero, hsize⟩ | ⟨j, hj, hij⟩
    · rw [hsame.records_eq] at hzero
      rw [hsame.header, ← h.plan.records_mul hs, hzero, Nat.zero_mul] at hsize
      exact Or.inl hsize
    · rw [hsame.records_eq] at hj
      exact Or.inr ⟨j, hj, by rw [hij, h.tableIndex_eq hs hj]⟩

/-- **What `split` writes.** -/
theorem outcome : Outcome sp funcs relocs (split sp funcs relocs) := by
  obtain ⟨htext, hplaced⟩ := splitText_spec h.several h.text_lt
  have hrel := h.relocSplit
  have hsplit : split sp funcs relocs =
      let sp₃ := (splitRelocations (placed sp funcs) (sp.splitText funcs).1 relocs).updateSymbols
        (placed sp funcs)
      { sp₃.toImage with ehdr := { sp₃.ehdr with eShnum := half sp₃.sectionCount } } := by
    rw [← hplaced]
    rfl
  have hsymCount :
      (splitRelocations (placed sp funcs) (sp.splitText funcs).1 relocs).symCount =
        sp.symCount := by
    unfold symCount
    rw [hrel.symtabIndex, htext.symtabIndex, hrel.others, htext.others]
    · exact h.symtab_lt
    · exact h.symtab_ne_text
    · rw [htext.count]
      exact h.symtab_lt.trans_le (Nat.le_add_right _ _)
    · exact h.symtab_notMem
  rw [hsplit]
  refine
    { shnum := ?_
      slices := fun g hg => ?_
      tables := fun s hs j hj => h.split_tables hs hj
      pieces := fun i hi => h.split_pieces hi
      rela := fun o => ?_
      sym := fun k => ?_ }
  · simp only [updateSymbols, h.sectionCount_eq]
  · simp only [updateSymbols]
    rw [hrel.others _ (h.slice_lt hg) h.slice_notMem]
    exact htext.homes g hg
  · have hiff : (∃ s ∈ relocs, ∃ j < records (sp.splitText funcs).1 s,
          o = relaOffset ((sp.splitText funcs).1.shdr s) j) ↔
        ∃ s ∈ relocs, ∃ j < records sp s, o = relaOffset (sp.shdr s) j := by
      refine exists_congr fun s => and_congr_right fun hs => ?_
      rw [(h.text_sameTable hs).records_eq, (h.text_sameTable hs).header]
    simp only [updateSymbols]
    rw [hrel.rela, htext.rela, rebase_placed]
    simp only [hiff]
  · simp only [updateSymbols, hsymCount, hrel.sym, htext.sym, hrel.textIndex, htext.textIndex]

/-- An executable header of the image written is a function's slice. -/
theorem text_header {i : Nat} (hi : i < headerCount sp funcs relocs)
    (ht : isTextHeader ((split sp funcs relocs).shdr i) = true) :
    ∃ g < funcs.length, i = sliceIndex sp g := by
  rcases h.outcome.pieces i hi with ⟨hlt, hne, _, hsame⟩ | hslice | ⟨s, _, htype, _⟩
  · rw [hsame] at ht
    exact absurd (h.text_only i hlt ht) hne
  · exact hslice
  · simp only [isTextHeader, htype] at ht
    simp [shtRela, shtProgbits] at ht

/-- A slice is executable. -/
theorem slice_text {g : Nat} (hg : g < funcs.length) :
    isTextHeader ((split sp funcs relocs).shdr (sliceIndex sp g)) = true := by
  rw [h.outcome.slices g hg]
  exact h.text

end Ready

end RvLlvm.Lld.Csgorfe
