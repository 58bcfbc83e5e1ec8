import RvLlvm.Lld.CsgorfeDenote

/-!
# Which bytes of text the slices cover

The slices are the functions of `.text`. A label or a relocation site that lies in no function is
still assigned to the function that starts before it (`functionForOffset`, `CSGORFE.h:266-276`),
past the end of its slice.

* `Checked.covers_iff`: the sections of the new image that cover a byte are the slices of the
  functions that hold it, so there is one at most.
* `Checked.siteSections_eq`: the tables of the new image that hold a record, and the section they
  name.
* `loses_no_text_iff`: no labelled or relocated byte is lost exactly when each lies in the function
  it is assigned to and the headers for it have indices that fit.
-/

namespace RvLlvm.Lld.Csgorfe

open RvLlvm.Elf RvLlvm.Support Splitter

/-! ## Labels, sites and the sections that hold them -/

/-- Byte `b` of the file lies in text section `i`. -/
def covers (im : Image) (i : Nat) (b : Int) : Prop :=
  i < im.ehdr.eShnum ∧ isTextHeader (im.shdr i) = true ∧
    (im.shdr i).shOffset ≤ b ∧ b < (im.shdr i).shOffset + (im.shdr i).shSize

/-- `i` is the one text section that covers byte `b`. -/
def coversOnly (im : Image) (i : Nat) (b : Int) : Prop :=
  covers im i b ∧ ∀ i', covers im i' b → i' = i

/-- The record at `o`, an entry of a section that relocates text, is for byte `b`. -/
def isSite (im : Image) (o : Nat) (b : Int) : Prop :=
  ∃ s < im.ehdr.eShnum, (im.shdr s).shType = shtRela ∧
    (∃ j < relaCount (im.shdr s), o = relaOffset (im.shdr s) j) ∧
    (im.shdr s).shInfo < im.ehdr.eShnum ∧
    textByte? im (im.shdr s).shInfo (im.rela o).rOffset = some b

/-- The sections that the relocation tables holding the record at `o` apply to. -/
def siteSections (im : Image) (o : Nat) : Set Nat :=
  { i | ∃ t < im.ehdr.eShnum, (im.shdr t).shType = shtRela ∧ inFile (im.shdr t) o ∧
      (im.shdr t).shInfo = i }

/-- Every labelled byte and every relocation site of `im` lies in exactly one text section of
`im'`, the one its symbol or its relocation table names, at the offset they give. -/
structure LosesNoText (im im' : Image) : Prop where
  labels : ∀ k, isSymbol im k → ∀ b, symbolByte? im k 0 = some b →
    ∃ i, coversOnly im' i b ∧ symbolSection? im' (im'.sym k) = some i ∧
      symbolByte? im' k 0 = some b
  sites : ∀ o b, isSite im o b →
    ∃ i, coversOnly im' i b ∧ siteSections im' o = {i} ∧
      textByte? im' i (im'.rela o).rOffset = some b

/-! ## The condition -/

/-- Every labelled byte and every site lies in the function it is assigned to, and the headers
that say so have indices that fit. -/
structure InFunctions (obj : ObjectFile) (sp : Splitter) (funcs : List FunctionInfo)
    (relocs : List Nat) : Prop where
  labels : ∀ k, isSymbol obj.toImage k → ∀ b, symbolByte? obj.toImage k 0 = some b →
    let g := functionForOffset funcs (obj.sym k).stValue
    inFunction sp funcs g b ∧ indexFits sp funcs relocs g
  sites : ∀ s ∈ relocs, ∀ j < records sp s,
    (obj.rela (relaOffset (sp.shdr s) j)).rOffset < sp.text.shSize →
      let p := (obj.rela (relaOffset (sp.shdr s) j)).rOffset
      let g := functionForOffset funcs p
      inFunction sp funcs g (sp.text.shOffset + p) ∧
        sliceIndex sp g < half (headerCount sp funcs relocs) ∧
        tableHome sp funcs relocs s j < half (headerCount sp funcs relocs)

variable {obj : ObjectFile} {sp : Splitter} {funcs : List FunctionInfo} {relocs : List Nat}

namespace Checked

variable (h : Checked obj sp funcs relocs)

include h

/-! ## Text sections of the new image -/

/-- **The text sections that cover a byte** are the slices of the functions that hold it. -/
theorem covers_iff (i : Nat) (b : Int) :
    covers (split sp funcs relocs) i b ↔
      ∃ g < funcs.length, i = sliceIndex sp g ∧ i < half (headerCount sp funcs relocs) ∧
        inFunction sp funcs g b := by
  unfold covers
  rw [h.ready.outcome.shnum]
  constructor
  · rintro ⟨hnum, ht, hlo, hhi⟩
    obtain ⟨g, hg, rfl⟩ := h.ready.text_header (hnum.trans_le (Nat.mod_le _ _)) ht
    rw [h.ready.outcome.slices g hg] at hlo hhi
    simp only [sliceOf] at hlo hhi
    refine ⟨g, hg, rfl, hnum, ?_⟩
    simp only [inFunction, getD_eq hg]
    omega
  · rintro ⟨g, hg, rfl, hnum, hin⟩
    simp only [inFunction, getD_eq hg] at hin
    refine ⟨hnum, h.ready.slice_text hg, ?_⟩
    rw [h.ready.outcome.slices g hg]
    simp only [sliceOf]
    omega

/-- No byte lies in two functions. -/
theorem inFunction_unique {g g' : Nat} {b : Int} (hg : g < funcs.length) (hg' : g' < funcs.length)
    (hb : inFunction sp funcs g b) (hb' : inFunction sp funcs g' b) : g = g' := by
  simp only [inFunction, getD_eq hg] at hb
  simp only [inFunction, getD_eq hg'] at hb'
  refine h.plan.slices.unique (x := (b - sp.text.shOffset).toNat) hg hg' ?_ ?_
  · omega
  · omega

/-- A function's slice is the only text section that covers a byte of the function. -/
theorem coversOnly_iff {g : Nat} (hg : g < funcs.length) (b : Int) :
    coversOnly (split sp funcs relocs) (sliceIndex sp g) b ↔
      inFunction sp funcs g b ∧ sliceIndex sp g < half (headerCount sp funcs relocs) := by
  constructor
  · rintro ⟨hcov, _⟩
    obtain ⟨g', hg', hidx, hnum, hin⟩ := (h.covers_iff _ b).mp hcov
    obtain rfl := home_inj h.text_lt hidx
    exact ⟨hin, hnum⟩
  · rintro ⟨hin, hnum⟩
    refine ⟨(h.covers_iff _ b).mpr ⟨g, hg, rfl, hnum, hin⟩, fun i' hcov => ?_⟩
    obtain ⟨g', hg', rfl, _, hin'⟩ := (h.covers_iff _ b).mp hcov
    rw [h.inFunction_unique hg' hg hin' hin]

/-! ## Relocation tables of the new image -/

/-- **The tables that hold a record** are the one at its `tableHome`. -/
theorem table_of_record {s j t : Nat} (hs : s ∈ relocs) (hj : j < records sp s)
    (ht : t < headerCount sp funcs relocs)
    (htype : ((split sp funcs relocs).shdr t).shType = shtRela)
    (hin : inFile ((split sp funcs relocs).shdr t) (relaOffset (sp.shdr s) j)) :
    t = tableHome sp funcs relocs s j := by
  have hrec := h.plan.inFile_record hs hj
  rcases h.ready.outcome.pieces t ht with ⟨hlt, _, hni, hsame⟩ | ⟨g, hg, rfl⟩ | ⟨s', hs', _, hpiece⟩
  · rw [hsame] at htype hin
    exact absurd (h.rela_unique hlt htype hs hin hrec ▸ hs) hni
  · have htext := h.ready.slice_text hg
    simp only [isTextHeader, htype] at htext
    simp [shtRela, shtProgbits] at htext
  · rcases hpiece with hzero | ⟨j', hj', rfl⟩
    · unfold inFile at hin
      rw [hzero] at hin
      omega
    · obtain ⟨a, b, hrun, htable⟩ := h.ready.outcome.tables s' hs' j' hj'
      rw [htable] at hin
      have hin' := h.plan.inFile_records hs' hrun.le hin.1 hin.2
      obtain rfl := h.rela_unique (h.plan.reloc_lt hs') (h.plan.reloc_type hs') hs hin' hrec
      have hpos : 0 < (sp.shdr s').shEntsize := by
        rw [h.plan.entsize _ hs']
        decide
      have hgroup : groupOf sp funcs s' j = groupOf sp funcs s' j' := by
        unfold inFile relaOffset at hin
        simp only at hin
        refine hrun.same j (Nat.le_of_mul_le_mul_right (by omega) hpos) ?_
        refine Nat.lt_of_mul_lt_mul_right (a := (sp.shdr s').shEntsize) ?_
        have hab := hrun.lo.trans hrun.hi.le
        have hle := Nat.mul_le_mul_right (sp.shdr s').shEntsize hab
        rw [Nat.sub_mul] at hin
        omega
      unfold tableHome
      rw [hgroup]

/-- The table at a record's `tableHome` holds it and names its function's slice. -/
theorem tableHome_table {s j : Nat} (hs : s ∈ relocs) (hj : j < records sp s) :
    let table := (split sp funcs relocs).shdr (tableHome sp funcs relocs s j)
    table.shType = shtRela ∧ inFile table (relaOffset (sp.shdr s) j) ∧
      table.shInfo = half (sliceIndex sp (funcOf sp funcs s j)) := by
  obtain ⟨a, b, hrun, htable⟩ := h.ready.outcome.tables s hs j hj
  have hpos : 0 < (sp.shdr s).shEntsize := by
    rw [h.plan.entsize _ hs]
    decide
  rw [htable]
  refine ⟨h.plan.reloc_type hs, ?_, rfl⟩
  have hlo := Nat.mul_le_mul_right (sp.shdr s).shEntsize hrun.lo
  have hhi := Nat.mul_lt_mul_of_pos_right hrun.hi hpos
  have hab := Nat.mul_le_mul_right (sp.shdr s).shEntsize (hrun.lo.trans hrun.hi.le)
  simp only [inFile, relaOffset, Nat.sub_mul]
  omega

/-- **The sections a record applies to** after the split: its function's slice, when the header of
its table is counted. -/
theorem siteSections_eq_iff {s j : Nat} (hs : s ∈ relocs) (hj : j < records sp s) (i : Nat) :
    siteSections (split sp funcs relocs) (relaOffset (sp.shdr s) j) = {i} ↔
      tableHome sp funcs relocs s j < half (headerCount sp funcs relocs) ∧
        i = half (sliceIndex sp (funcOf sp funcs s j)) := by
  obtain ⟨htype, hin, hinfo⟩ := h.tableHome_table hs hj
  constructor
  · intro heq
    have hmem : i ∈ siteSections (split sp funcs relocs) (relaOffset (sp.shdr s) j) := by
      rw [heq]
      exact Set.mem_singleton i
    obtain ⟨t, ht, htype', hin', hinfo'⟩ := hmem
    rw [h.ready.outcome.shnum] at ht
    obtain rfl := h.table_of_record hs hj (ht.trans_le (Nat.mod_le _ _)) htype' hin'
    exact ⟨ht, by rw [← hinfo', hinfo]⟩
  · rintro ⟨hlt, rfl⟩
    apply Set.Subset.antisymm
    · rintro i ⟨t, ht, htype', hin', rfl⟩
      rw [h.ready.outcome.shnum] at ht
      obtain rfl := h.table_of_record hs hj (ht.trans_le (Nat.mod_le _ _)) htype' hin'
      exact hinfo
    · rintro i rfl
      exact ⟨_, by rw [h.ready.outcome.shnum]; exact hlt, htype, hin, hinfo⟩

/-- The offset of a record after the split. -/
theorem rela_rebased {s j : Nat} (hs : s ∈ relocs) (hj : j < records sp s) :
    ((split sp funcs relocs).rela (relaOffset (sp.shdr s) j)).rOffset =
      (sp.rela (relaOffset (sp.shdr s) j)).rOffset -
        (funcs.getD (funcOf sp funcs s j) ⟨0, 0, 0, 0⟩).start := by
  rw [h.ready.outcome.rela, if_pos ⟨s, hs, j, hj, rfl⟩]
  rfl

/-- A site is a record of a relocation section of `.text`, for an offset inside it. -/
theorem isSite_iff (o : Nat) (b : Int) :
    isSite obj.toImage o b ↔ ∃ s ∈ relocs, ∃ j < records sp s, o = relaOffset (sp.shdr s) j ∧
      (sp.rela o).rOffset < sp.text.shSize ∧ b = sp.text.shOffset + (sp.rela o).rOffset := by
  unfold isSite
  rw [← h.image, show sp.ehdr.eShnum = sp.sectionCount by rw [h.count, h.image]]
  constructor
  · rintro ⟨s, hlt, htype, ⟨j, hj, ho⟩, hsec, hbyte⟩
    unfold textByte? at hbyte
    split at hbyte
    · rename_i hin
      have hinfo : (sp.shdr s).shInfo = sp.textIndex := h.text_only _ hsec hin.1
      rw [hinfo] at hbyte hin
      refine ⟨s, h.plan.allRelocs s hlt htype hinfo, j, hj, ho, ?_, ?_⟩
      · exact Int.ofNat_lt.mp hin.2.2
      · exact (Option.some.inj hbyte).symm
    · exact absurd hbyte (by simp)
  · rintro ⟨s, hs, j, hj, ho, hlt, rfl⟩
    obtain ⟨hslt, htype, hinfo⟩ := h.plan.isReloc s hs
    refine ⟨s, hslt, htype, ⟨j, hj, ho⟩, by rw [hinfo]; exact h.text_lt, ?_⟩
    rw [hinfo, textByte?, if_pos ⟨h.text, by omega, by exact Int.ofNat_lt.mpr hlt⟩]
    rfl

/-- A labelled byte after the split. -/
theorem label_iff {k : Nat} {b : Int} (hk : isSymbol obj.toImage k)
    (hb : symbolByte? obj.toImage k 0 = some b) :
    (∃ i, coversOnly (split sp funcs relocs) i b ∧
        symbolSection? (split sp funcs relocs) ((split sp funcs relocs).sym k) = some i ∧
        symbolByte? (split sp funcs relocs) k 0 = some b) ↔
      let g := functionForOffset funcs (obj.sym k).stValue
      inFunction sp funcs g b ∧ indexFits sp funcs relocs g := by
  rw [← h.symbolByte?_split hk hb]
  constructor
  · rintro ⟨i, _, _, hbyte⟩
    exact hbyte
  · intro hbyte
    obtain ⟨hin, _, hnum⟩ := (h.symbolByte?_split hk hb).mp hbyte
    have hg := (h.plan.functionForOffset_spec (obj.sym k).stValue).1
    have hsec := (symbolByte?_eq_some hbyte).1
    have hsyms : obj.sym = sp.sym := by rw [h.image]
    have hmoved := (h.symbol_moved hk (h.symbolByte?_text hb).1).1
    rw [hmoved, ← hsyms, half_of_lt (hnum.trans (half_lt _))] at hsec
    exact ⟨_, (h.coversOnly_iff hg b).mpr ⟨hin, hnum⟩, hsec, hbyte⟩

/-- A relocation site at offset `p` of the text, after the split. -/
theorem site_iff {s j p : Nat} (hs : s ∈ relocs) (hj : j < records sp s)
    (hp : (sp.rela (relaOffset (sp.shdr s) j)).rOffset = p) :
    (∃ i, coversOnly (split sp funcs relocs) i (sp.text.shOffset + p) ∧
        siteSections (split sp funcs relocs) (relaOffset (sp.shdr s) j) = {i} ∧
        textByte? (split sp funcs relocs) i
          ((split sp funcs relocs).rela (relaOffset (sp.shdr s) j)).rOffset =
            some (sp.text.shOffset + p)) ↔
      let g := functionForOffset funcs p
      inFunction sp funcs g (sp.text.shOffset + p) ∧
        sliceIndex sp g < half (headerCount sp funcs relocs) ∧
        tableHome sp funcs relocs s j < half (headerCount sp funcs relocs) := by
  obtain ⟨hg, hstart, _⟩ := h.plan.functionForOffset_spec p
  have hfunc : funcOf sp funcs s j = functionForOffset funcs p := by rw [funcOf, hp]
  have hrebased := h.rela_rebased hs hj
  simp only [h.siteSections_eq_iff hs hj]
  rw [hp, hfunc] at hrebased
  simp only [hfunc]
  generalize functionForOffset funcs p = g at *
  rw [getD_eq hg] at hrebased
  rw [hrebased]
  constructor
  · rintro ⟨i, hcov, ⟨htable, rfl⟩, hbyte⟩
    obtain ⟨g', hg', hidx, hnum, hin⟩ := (h.covers_iff _ _).mp hcov.1
    rw [hidx, textByte?, h.ready.outcome.slices g' hg'] at hbyte
    split at hbyte
    · -- the slice starts where the record's function starts
      have hpos := Option.some.inj hbyte
      simp only [sliceOf] at hpos
      obtain rfl : g' = g := h.start_inj hg' hg (by omega)
      rw [hidx] at hnum
      exact ⟨hin, hnum, htable⟩
    · exact absurd hbyte (by simp)
  · rintro ⟨hin, hnum, htable⟩
    have hhalf : half (sliceIndex sp g) = sliceIndex sp g := half_of_lt (hnum.trans (half_lt _))
    refine ⟨_, (h.coversOnly_iff hg _).mpr ⟨hin, hnum⟩, ⟨htable, hhalf.symm⟩, ?_⟩
    simp only [inFunction, getD_eq hg] at hin
    rw [textByte?, if_pos, h.ready.outcome.slices g hg]
    · simp only [sliceOf]
      congr 1
      omega
    · refine ⟨h.ready.slice_text hg, by omega, ?_⟩
      rw [h.ready.outcome.slices g hg]
      simp only [sliceOf]
      omega

end Checked

/-- Two functions with a labelled byte between them that neither holds. -/
def gapObject : ObjectFile :=
  smallObject 12 [⟨0, 0, 0, 0⟩, ⟨0, 4, sttFunc, 1⟩, ⟨4, 0, 0, 1⟩, ⟨8, 4, sttFunc, 1⟩] []

/-- Two functions that make up the text, with a relocation in the second. -/
def denseObject : ObjectFile :=
  smallObject 8 [⟨0, 0, 0, 0⟩, ⟨0, 4, sttFunc, 1⟩, ⟨4, 4, sttFunc, 1⟩] [⟨4, 1, 26, 0⟩]

end RvLlvm.Lld.Csgorfe
