import RvLlvm.Lld.CsgorfeCoverage

/-!
# The tables of the new image partition the relocation records

`splitRelocations` (`CSGORFE.h:324-357`) gives every run of records of one function a header of
its own. Nothing stops the section headers of an object from reaching the same records twice:
`validateRelocations` (`CSGORFE.h:246-264`) looks at one section at a time.

* `TableLast`: the header table stays the last thing in the file, so the headers the file holds can
  be counted from its size.
* `exists_two_tables`: a record that two sections reach is in two tables of the new image.
* `partitions_iff`: the new tables partition the records exactly when no record of `.text` is
  reached through two headers and the headers of the tables and slices have indices that fit.
-/

namespace RvLlvm.Lld.Csgorfe

open RvLlvm.Elf RvLlvm.Support Splitter

/-- An image whose relocation sections share records whole: a record either is one of another
section too, or has no byte in common with it. -/
structure RecordFile extends Image where
  whole : ∀ i < ehdr.eShnum, ∀ i' < ehdr.eShnum, i ≠ i' →
    (shdr i).shType = shtRela → (shdr i').shType = shtRela →
    ∀ k < relaCount (shdr i), ∀ k' < relaCount (shdr i'),
      relaOffset (shdr i) k = relaOffset (shdr i') k' ∨
      relaOffset (shdr i) k + sizeofRela ≤ relaOffset (shdr i') k' ∨
      relaOffset (shdr i') k' + sizeofRela ≤ relaOffset (shdr i) k

/-! ## The headers in the file -/

/-- The section headers the file has room for behind `e_shoff`; the table is the last thing in the
file. -/
def headersInFile (im : Image) : Nat := (im.currentSize - im.ehdr.eShoff) / sizeofShdr

/-- The header table ends where the file ends. -/
def TableLast (sp : Splitter) : Prop :=
  sp.currentSize = sp.ehdr.eShoff + sp.sectionCount * sizeofShdr

namespace TableLast

variable {sp : Splitter} {funcs : List FunctionInfo}

theorem headersInFile_eq (h : TableLast sp) : headersInFile sp.toImage = sp.sectionCount := by
  unfold TableLast at h
  rw [headersInFile, h, Nat.add_sub_cancel_left, Nat.mul_div_cancel _ (by decide)]

theorem setHeader (h : TableLast sp) (i : Nat) (sec : Shdr) : TableLast (sp.setHeader i sec) := h

theorem setRela (h : TableLast sp) (o : Nat) (r : Rela) : TableLast (sp.setRela o r) := h

theorem appendSectionHeader (h : TableLast sp) (sec : Shdr) :
    TableLast (sp.appendSectionHeader sec) := by
  unfold TableLast at h ⊢
  rw [appendSectionHeader_sectionCount, appendSectionHeader_ehdr, Nat.succ_mul, ← Nat.add_assoc,
    ← h]
  rfl

theorem splitTextLoop (orig : Shdr) :
    ∀ (fs : List FunctionInfo) {sp : Splitter}, TableLast sp →
      TableLast (splitTextLoop orig sp fs).1
  | [], _, h => h
  | f :: fs, _, h => splitTextLoop orig fs (h.appendSectionHeader (sliceOf orig f))

theorem splitText (h : TableLast sp) : TableLast (sp.splitText funcs).1 := by
  cases funcs with
  | nil => exact h
  | cons f fs => exact (splitTextLoop sp.text fs h).setHeader _ _

theorem openGroup {orig : Shdr} {s : Nat} {st : GroupState} (h : TableLast st.sp) :
    TableLast (openGroup orig s st).1 := by
  unfold Splitter.openGroup
  split
  · exact h.setHeader _ _
  · exact h.appendSectionHeader _

theorem groupStep {orig : Shdr} {s off : Nat} {st : GroupState} (h : TableLast st.sp) :
    TableLast (groupStep funcs orig s off st).sp := by
  unfold Splitter.groupStep
  simp only
  split
  · exact (h.setRela _ _).setHeader _ _
  · exact (((h.openGroup).setHeader _ _).setRela _ _).setHeader _ _

theorem groupLoop (h : TableLast sp) (s : Nat) :
    ∀ n : Nat, TableLast (sp.groupLoop funcs s n).sp
  | 0 => h
  | n + 1 => (groupLoop h s n).groupStep

theorem splitRelaSection (h : TableLast sp) (s : Nat) :
    TableLast (sp.splitRelaSection funcs s) := by
  unfold Splitter.splitRelaSection
  split
  · exact h.setHeader _ _
  · exact h.groupLoop s _

theorem splitRelocations :
    ∀ (relocs : List Nat) {sp : Splitter}, TableLast sp →
      TableLast (splitRelocations funcs sp relocs)
  | [], _, h => h
  | s :: rest, _, h => splitRelocations rest (h.splitRelaSection s)

end TableLast

/-! ## Tables that hold a record -/

/-- Table `t` has the record at file offset `o` as its record `k`. -/
def holdsRecord (im : Image) (t k o : Nat) : Prop :=
  (im.shdr t).shType = shtRela ∧ k < relaCount (im.shdr t) ∧ relaOffset (im.shdr t) k = o

section Reached

variable {sp : Splitter} {funcs : List FunctionInfo} {s : Nat} {relocs : List Nat}

/-- The relocation sections are in the header table and have records of some size. -/
def Valid (sp : Splitter) (relocs : List Nat) : Prop :=
  ∀ s ∈ relocs, s < sp.sectionCount ∧ (sp.shdr s).shType = shtRela ∧ 0 < (sp.shdr s).shEntsize

theorem Valid.rest {rest : List Nat} (h : Valid sp (s :: rest)) (hs : s ∉ rest) :
    Valid (sp.splitRelaSection funcs s) rest := by
  intro i hi
  obtain ⟨hlt, _, hpos⟩ := h s List.mem_cons_self
  obtain ⟨hilt, hitype, hipos⟩ := h i (List.mem_cons_of_mem s hi)
  have hsplit : TableSplit sp funcs s _ := splitRelaSection_spec hlt hpos
  have hne : i ≠ s := fun heq => hs (heq ▸ hi)
  rw [hsplit.others i hilt hne, hsplit.count]
  exact ⟨by omega, hitype, hipos⟩

/-- Splitting the relocation sections leaves every other header, and adds headers only. -/
theorem splitRelocations_frame :
    ∀ {relocs : List Nat} {sp : Splitter}, relocs.Nodup → Valid sp relocs →
      sp.sectionCount ≤ (splitRelocations funcs sp relocs).sectionCount ∧
      ∀ i < sp.sectionCount, i ∉ relocs → (splitRelocations funcs sp relocs).shdr i = sp.shdr i
  | [], _, _, _ => ⟨Nat.le_refl _, fun _ _ _ => rfl⟩
  | s :: rest, sp, hnodup, hvalid => by
    obtain ⟨hs, hnodup'⟩ := List.nodup_cons.mp hnodup
    obtain ⟨hlt, _, hpos⟩ := hvalid s List.mem_cons_self
    have hsplit : TableSplit sp funcs s _ := splitRelaSection_spec hlt hpos
    obtain ⟨hcount, hothers⟩ := splitRelocations_frame hnodup' (hvalid.rest hs)
    rw [hsplit.count] at hcount
    refine ⟨by rw [splitRelocations]; omega, fun i hi hni => ?_⟩
    obtain ⟨hne, hnr⟩ : i ≠ s ∧ i ∉ rest := by simpa using hni
    rw [splitRelocations, hothers i (by rw [hsplit.count]; omega) hnr, hsplit.others i hi hne]

/-- Splitting the relocation sections leaves the symbols, the indices kept and the ELF header. -/
theorem splitRelocations_same :
    ∀ {relocs : List Nat} {sp : Splitter}, relocs.Nodup → Valid sp relocs →
      (splitRelocations funcs sp relocs).sym = sp.sym ∧
      (splitRelocations funcs sp relocs).textIndex = sp.textIndex ∧
      (splitRelocations funcs sp relocs).symtabIndex = sp.symtabIndex ∧
      (splitRelocations funcs sp relocs).ehdr = sp.ehdr
  | [], _, _, _ => ⟨rfl, rfl, rfl, rfl⟩
  | s :: rest, sp, hnodup, hvalid => by
    obtain ⟨hs, hnodup'⟩ := List.nodup_cons.mp hnodup
    obtain ⟨hlt, _, hpos⟩ := hvalid s List.mem_cons_self
    have hsplit : TableSplit sp funcs s _ := splitRelaSection_spec hlt hpos
    obtain ⟨hsym, htext, hsymtab, hehdr⟩ := splitRelocations_same hnodup' (hvalid.rest hs)
    rw [splitRelocations]
    exact ⟨hsym.trans hsplit.sym, htext.trans hsplit.textIndex, hsymtab.trans hsplit.symtabIndex,
      hehdr.trans hsplit.ehdr⟩

/-- A record of a table with the header `tableHeader` gives it. -/
theorem holdsRecord_of_header {im : Image} {t j a b f : Nat} (htype : (sp.shdr s).shType = shtRela)
    (hpos : 0 < (sp.shdr s).shEntsize) (haj : a ≤ j) (hjb : j < b)
    (h : im.shdr t = tableHeader sp funcs s a b f) :
    holdsRecord im t (j - a) (relaOffset (sp.shdr s) j) := by
  unfold holdsRecord
  rw [h]
  refine ⟨htype, ?_, ?_⟩
  · simp only [relaCount, tableHeader, Nat.mul_div_cancel _ hpos]
    omega
  · simp only [relaOffset, tableHeader, Nat.add_assoc, ← Nat.add_mul]
    rw [Nat.add_sub_cancel' haj]

/-- The records of the section split first are in its own tables, which the rest leaves alone. -/
theorem head_table {rest : List Nat} (hnodup : (s :: rest).Nodup) (hvalid : Valid sp (s :: rest))
    {j : Nat} (hj : j < records sp s) :
    ∃ t k, (t = s ∨ sp.sectionCount ≤ t) ∧ t < (sp.splitRelaSection funcs s).sectionCount ∧
      holdsRecord (splitRelocations funcs sp (s :: rest)).toImage t k
        (relaOffset (sp.shdr s) j) := by
  obtain ⟨hs, hnodup'⟩ := List.nodup_cons.mp hnodup
  obtain ⟨hlt, htype, hpos⟩ := hvalid s List.mem_cons_self
  have hsplit : TableSplit sp funcs s _ := splitRelaSection_spec hlt hpos
  obtain ⟨_, hothers⟩ := splitRelocations_frame hnodup' (hvalid.rest hs)
  obtain ⟨a, b, hrun, htable⟩ := hsplit.tables j hj
  have hhome : home s sp.sectionCount (groupOf sp funcs s j) <
      (sp.splitRelaSection funcs s).sectionCount := by
    rw [hsplit.count, countRelocGroups]
    exact home_lt hlt (groupOf_lt_of_lt hj)
  have hplace : home s sp.sectionCount (groupOf sp funcs s j) = s ∨
      sp.sectionCount ≤ home s sp.sectionCount (groupOf sp funcs s j) := by
    unfold home
    split_ifs
    · exact Or.inl rfl
    · exact Or.inr (Nat.le_add_right _ _)
  have hnotin : home s sp.sectionCount (groupOf sp funcs s j) ∉ rest := fun hmem => by
    rcases hplace with heq | hle
    · rw [heq] at hmem
      exact hs hmem
    · exact absurd (hvalid _ (List.mem_cons_of_mem s hmem)).1 (Nat.not_lt.mpr hle)
  exact ⟨_, j - a, hplace, hhome,
    holdsRecord_of_header htype hpos hrun.lo hrun.hi ((hothers _ hhome hnotin).trans htable)⟩

/-- **Every record of a section ends up in a table of its own section**: the section's header or
one appended for it. -/
theorem exists_table :
    ∀ {relocs : List Nat} {sp : Splitter}, relocs.Nodup → Valid sp relocs → ∀ s ∈ relocs,
      ∀ j < records sp s, ∃ t k, (t = s ∨ sp.sectionCount ≤ t) ∧
        t < (splitRelocations funcs sp relocs).sectionCount ∧
        holdsRecord (splitRelocations funcs sp relocs).toImage t k (relaOffset (sp.shdr s) j)
  | [], _, _, _ => fun s hs => absurd hs List.not_mem_nil
  | s :: rest, sp, hnodup, hvalid => fun i hi j hj => by
    obtain ⟨hs, hnodup'⟩ := List.nodup_cons.mp hnodup
    obtain ⟨hlt, htype, hpos⟩ := hvalid s List.mem_cons_self
    have hsplit : TableSplit sp funcs s _ := splitRelaSection_spec hlt hpos
    rcases List.mem_cons.mp hi with rfl | hrest
    · obtain ⟨t, k, hplace, htlt, hholds⟩ := head_table hnodup hvalid hj
      exact ⟨t, k, hplace,
        htlt.trans_le (splitRelocations_frame hnodup' (hvalid.rest hs)).1, hholds⟩
    · have hne : i ≠ s := fun heq => hs (heq ▸ hrest)
      have hhead := hsplit.others i (hvalid i hi).1 hne
      have hrec : records (sp.splitRelaSection funcs s) i = records sp i := by
        rw [records, records, hhead]
      obtain ⟨t, k, hplace, htlt, hholds⟩ :=
        exists_table hnodup' (hvalid.rest hs) i hrest j (by rw [hrec]; exact hj)
      rw [hhead] at hholds
      rw [hsplit.count] at hplace
      exact ⟨t, k, hplace.imp id (by omega), htlt, hholds⟩

/-- Two different written tables, of the records at `o` and `o'`. -/
def TwoTables (sp' : Splitter) (o o' : Nat) : Prop :=
  ∃ t k t' k', t ≠ t' ∧ t < sp'.sectionCount ∧ t' < sp'.sectionCount ∧
    holdsRecord sp'.toImage t k o ∧ holdsRecord sp'.toImage t' k' o'

theorem TwoTables.symm {sp' : Splitter} {o o' : Nat} (h : TwoTables sp' o o') :
    TwoTables sp' o' o := by
  obtain ⟨t, k, t', k', hne, ht, ht', hh, hh'⟩ := h
  exact ⟨t', k', t, k, hne.symm, ht', ht, hh', hh⟩

/-- The section split first and a later one have tables of their own. -/
theorem head_two_tables {rest : List Nat} (hnodup : (s :: rest).Nodup)
    (hvalid : Valid sp (s :: rest)) {i : Nat} (hi : i ∈ rest) {j j' : Nat}
    (hj : j < records sp s) (hj' : j' < records sp i) :
    TwoTables (splitRelocations funcs sp (s :: rest)) (relaOffset (sp.shdr s) j)
      (relaOffset (sp.shdr i) j') := by
  obtain ⟨hs, hnodup'⟩ := List.nodup_cons.mp hnodup
  obtain ⟨hlt, _, hpos⟩ := hvalid s List.mem_cons_self
  obtain ⟨hilt, _, _⟩ := hvalid i (List.mem_cons_of_mem s hi)
  have hsplit : TableSplit sp funcs s _ := splitRelaSection_spec hlt hpos
  have hne : i ≠ s := fun heq => hs (heq ▸ hi)
  have hhead := hsplit.others i hilt hne
  have hrec : records (sp.splitRelaSection funcs s) i = records sp i := by
    rw [records, records, hhead]
  obtain ⟨t, k, hplace, htlt, hholds⟩ := head_table hnodup hvalid hj
  obtain ⟨t', k', hplace', htlt', hholds'⟩ :=
    exists_table hnodup' (hvalid.rest hs) i hi j' (by rw [hrec]; exact hj')
  rw [hhead] at hholds'
  have hcount := hsplit.count
  exact ⟨t, k, t', k', by omega,
    htlt.trans_le (splitRelocations_frame hnodup' (hvalid.rest hs)).1, htlt', hholds, hholds'⟩

/-- **Two relocation sections never share a table**, so a record both of them reach is in two. -/
theorem exists_two_tables :
    ∀ {relocs : List Nat} {sp : Splitter}, relocs.Nodup → Valid sp relocs →
      ∀ s ∈ relocs, ∀ s' ∈ relocs, s ≠ s' → ∀ j < records sp s, ∀ j' < records sp s',
        TwoTables (splitRelocations funcs sp relocs) (relaOffset (sp.shdr s) j)
          (relaOffset (sp.shdr s') j')
  | [], _, _, _ => fun s hs => absurd hs List.not_mem_nil
  | s :: rest, sp, hnodup, hvalid => fun i hi i' hi' hne j hj j' hj' => by
    obtain ⟨hs, hnodup'⟩ := List.nodup_cons.mp hnodup
    rcases List.mem_cons.mp hi with rfl | hir
    · exact head_two_tables hnodup hvalid ((List.mem_cons.mp hi').resolve_left hne.symm) hj hj'
    rcases List.mem_cons.mp hi' with rfl | hir'
    · exact (head_two_tables hnodup hvalid hir hj' hj).symm
    obtain ⟨hlt, _, hpos⟩ := hvalid s List.mem_cons_self
    have hsplit : TableSplit sp funcs s _ := splitRelaSection_spec hlt hpos
    have hhead : ∀ i ∈ rest, (sp.splitRelaSection funcs s).shdr i = sp.shdr i := fun i hi =>
      hsplit.others i (hvalid i (List.mem_cons_of_mem s hi)).1 fun heq => hs (heq ▸ hi)
    have htwo := exists_two_tables hnodup' (hvalid.rest hs) i hir i' hir' hne j
      (by rw [records, hhead i hir]; exact hj) j' (by rw [records, hhead i' hir']; exact hj')
    rw [hhead i hir, hhead i' hir'] at htwo
    exact htwo

end Reached

/-! ## The image written -/

/-- What the checks of `run` establish on any image they accept. -/
structure Planned (im : Image) (sp : Splitter) (funcs : List FunctionInfo) (relocs : List Nat) :
    Prop where
  image : sp.toImage = im
  count : sp.sectionCount = im.ehdr.eShnum
  text_lt : sp.textIndex < sp.sectionCount
  text : isTextHeader sp.text = true
  text_only : ∀ i < sp.sectionCount, isTextHeader (sp.shdr i) = true → i = sp.textIndex
  symtab_lt : sp.symtabIndex < sp.sectionCount
  symtab : (sp.shdr sp.symtabIndex).shType = shtSymtab
  plan : Plan sp funcs relocs
  collected : funcs = sp.collectFunctions
  last : TableLast sp

theorem plan_eq_some {sp : Splitter} {p : List FunctionInfo × List Nat} (h : plan sp = some p) :
    p.1 = sp.collectFunctions ∧ sectionTableEnd sp.toImage = sp.currentSize := by
  unfold plan at h
  simp only at h
  split at h
  · exact absurd h (by simp)
  split at h
  · exact absurd h (by simp)
  split at h
  · exact absurd h (by simp)
  · rename_i hend
    obtain rfl := Option.some.inj h
    exact ⟨rfl, by simpa using hend⟩

theorem planned_of_accept {im : Image} {sp : Splitter} {funcs : List FunctionInfo}
    {relocs : List Nat} (h : accept im = some (sp, funcs, relocs)) :
    Planned im sp funcs relocs := by
  unfold accept at h
  split at h
  · exact absurd h (by simp)
  · rename_i hheader
    rw [Option.bind_eq_some_iff] at h
    obtain ⟨sp', hcore, h⟩ := h
    rw [Option.map_eq_some_iff] at h
    obtain ⟨p, hplan, heq⟩ := h
    obtain ⟨rfl, rfl⟩ := Prod.mk.inj heq
    obtain ⟨rfl, hcount, hlt, htext, honly, hslt, hsym, _⟩ := findCoreSections_spec hcore
    obtain ⟨hcollected, hend⟩ := plan_eq_some hplan
    refine ⟨rfl, hcount, hlt, htext, honly, hslt, hsym, plan_spec hplan, hcollected, ?_⟩
    simp only [validateHeader, Bool.not_eq_true', Bool.not_eq_false, Bool.and_eq_true,
      beq_iff_eq] at hheader
    rw [TableLast, ← hend, sectionTableEnd, hcount, hheader.1.2.1]

namespace Planned

variable {im : Image} {sp : Splitter} {funcs : List FunctionInfo} {relocs : List Nat}
  (h : Planned im sp funcs relocs)

include h

theorem ready (hapart : RecordsApart sp relocs) : Ready sp funcs relocs :=
  ⟨h.text_lt, h.text, h.text_only, h.symtab_lt, h.symtab, h.plan, hapart⟩

theorem textSplit : TextSplit sp funcs (sp.splitText funcs).1 :=
  (splitText_spec (Nat.lt_trans Nat.zero_lt_one h.plan.several) h.text_lt).1

/-- Everything `split` writes but the symbols and `e_shnum`. -/
theorem split_eq : split sp funcs relocs =
    let sp₃ := (splitRelocations (placed sp funcs) (sp.splitText funcs).1 relocs).updateSymbols
      (placed sp funcs)
    { sp₃.toImage with ehdr := { sp₃.ehdr with eShnum := half sp₃.sectionCount } } := by
  rw [← (splitText_spec (Nat.lt_trans Nat.zero_lt_one h.plan.several) h.text_lt).2]
  rfl

theorem valid : Valid (sp.splitText funcs).1 relocs := by
  intro s hs
  obtain ⟨hlt, htype, _⟩ := h.plan.isReloc s hs
  rw [h.textSplit.count, h.textSplit.others s hlt (h.plan.ne_text h.text hs)]
  refine ⟨hlt.trans_le (Nat.le_add_right _ _), htype, ?_⟩
  rw [h.plan.entsize s hs]
  decide

/-- The headers in the file are the ones the split counted. -/
theorem headersInFile_split : headersInFile (split sp funcs relocs) =
    (splitRelocations (placed sp funcs) (sp.splitText funcs).1 relocs).sectionCount := by
  have hlast : TableLast (splitRelocations (placed sp funcs) (sp.splitText funcs).1 relocs) :=
    TableLast.splitRelocations relocs h.last.splitText
  rw [h.split_eq]
  exact hlast.headersInFile_eq

theorem split_shdr : (split sp funcs relocs).shdr =
    (splitRelocations (placed sp funcs) (sp.splitText funcs).1 relocs).shdr := by
  rw [h.split_eq]
  rfl

/-- Only `.text` is executable. -/
theorem ne_text {i : Nat} (htype : (sp.shdr i).shType ≠ shtProgbits) : i ≠ sp.textIndex := by
  rintro rfl
  have ht := h.text
  simp only [isTextHeader, Splitter.text, Bool.and_eq_true, beq_iff_eq] at ht
  exact htype ht.1.1

/-- A header of the object other than `.text` and its relocation sections stays. -/
theorem split_other {i : Nat} (hi : i < sp.sectionCount) (htype : (sp.shdr i).shType ≠ shtProgbits)
    (hni : i ∉ relocs) : (split sp funcs relocs).shdr i = sp.shdr i := by
  have hlt : i < (sp.splitText funcs).1.sectionCount := by
    rw [h.textSplit.count]
    omega
  rw [h.split_shdr, (splitRelocations_frame h.plan.nodup h.valid).2 i hlt hni,
    h.textSplit.others i hi (h.ne_text htype)]

/-- The symbols of the new image. -/
theorem split_sym (k : Nat) : (split sp funcs relocs).sym k =
    if k < sp.symCount ∧ (sp.sym k).stShndx = sp.textIndex
    then moveSymbol (placed sp funcs) (sp.sym k) else sp.sym k := by
  have hsymtab : sp.symtabIndex ∉ relocs := fun hmem => by
    have := h.plan.reloc_type hmem
    rw [h.symtab] at this
    exact absurd this (by decide)
  have hother : (split sp funcs relocs).shdr sp.symtabIndex = sp.shdr sp.symtabIndex :=
    h.split_other h.symtab_lt (by rw [h.symtab]; decide) hsymtab
  have hsame : let sp' := splitRelocations (placed sp funcs) (sp.splitText funcs).1 relocs
      sp'.sym = _ ∧ sp'.textIndex = _ ∧ sp'.symtabIndex = _ ∧ sp'.ehdr = _ :=
    splitRelocations_same h.plan.nodup h.valid
  obtain ⟨hsym, htext, hindex, _⟩ := hsame
  rw [h.split_shdr] at hother
  rw [h.split_eq]
  simp only [updateSymbols, symCount, hindex, h.textSplit.symtabIndex, hother, hsym,
    h.textSplit.sym, htext, h.textSplit.textIndex]
  congr

end Planned

/-! ## The partition -/

/-- **The tables of `im'` partition the records of `.text`**: no record is in two of the headers
written, every record is rebased once, a record inside a function is in a table that `e_shnum`
counts and that names the function's slice, and the tables keep the order of the records. -/
structure Partitions (sp : Splitter) (funcs : List FunctionInfo) (relocs : List Nat)
    (im' : Image) : Prop where
  once : ∀ s ∈ relocs, ∀ j < records sp s,
    ∀ t < headersInFile im', ∀ t' < headersInFile im', ∀ k k',
      holdsRecord im' t k (relaOffset (sp.shdr s) j) →
      holdsRecord im' t' k' (relaOffset (sp.shdr s) j) → t = t' ∧ k = k'
  rebased : ∀ s ∈ relocs, ∀ j < records sp s,
    (im'.rela (relaOffset (sp.shdr s) j)).rOffset +
        (funcs.getD (funcOf sp funcs s j) ⟨0, 0, 0, 0⟩).start =
      (sp.rela (relaOffset (sp.shdr s) j)).rOffset
  placed : ∀ s ∈ relocs, ∀ j < records sp s, ∀ g (hg : g < funcs.length),
    let o := relaOffset (sp.shdr s) j
    funcs[g].start ≤ (sp.rela o).rOffset →
    (sp.rela o).rOffset < funcs[g].start + funcs[g].size →
      ∃ t k, t < im'.ehdr.eShnum ∧ holdsRecord im' t k o ∧
        (im'.shdr t).shInfo < im'.ehdr.eShnum ∧
        im'.shdr (im'.shdr t).shInfo = sliceOf sp.text funcs[g] ∧
        (im'.rela o).rOffset + funcs[g].start = (sp.rela o).rOffset
  ordered : ∀ s ∈ relocs, ∀ j < records sp s, ∀ j' < records sp s, j < j' → ∀ t k k',
    holdsRecord im' t k (relaOffset (sp.shdr s) j) →
    holdsRecord im' t k' (relaOffset (sp.shdr s) j') → k < k'

/-- No record of a relocation section of `.text` is reached through another header. -/
def ReachedOnce (sp : Splitter) (relocs : List Nat) : Prop :=
  ∀ s ∈ relocs, ∀ i < sp.sectionCount, i ≠ s → (sp.shdr i).shType = shtRela →
    ∀ j < records sp s, ∀ k < relaCount (sp.shdr i),
      relaOffset (sp.shdr i) k ≠ relaOffset (sp.shdr s) j

/-- The table of a record inside a function and the function's slice have indices that the
truncated `e_shnum` counts. -/
def TablesFit (sp : Splitter) (funcs : List FunctionInfo) (relocs : List Nat) : Prop :=
  ∀ s ∈ relocs, ∀ j < records sp s, ∀ g (hg : g < funcs.length),
    funcs[g].start ≤ (sp.rela (relaOffset (sp.shdr s) j)).rOffset →
    (sp.rela (relaOffset (sp.shdr s) j)).rOffset < funcs[g].start + funcs[g].size →
      sliceIndex sp g < half (headerCount sp funcs relocs) ∧
        tableHome sp funcs relocs s j < half (headerCount sp funcs relocs)

theorem ReachedOnce.apart {sp : Splitter} {funcs : List FunctionInfo} {relocs : List Nat}
    (h : ReachedOnce sp relocs) (hplan : Plan sp funcs relocs) : RecordsApart sp relocs := by
  intro s hs s' hs' hne j hj j' hj' heq
  obtain ⟨hlt, htype, _⟩ := hplan.isReloc s hs
  exact h s' hs' s hlt hne htype j' hj' j hj heq

namespace Planned

variable {im : Image} {sp : Splitter} {funcs : List FunctionInfo} {relocs : List Nat}
  (h : Planned im sp funcs relocs)

include h

/-- A record that two headers reach is in two tables of the new image. -/
theorem reachedOnce_of_once
    (honce : ∀ s ∈ relocs, ∀ j < records sp s,
      ∀ t < headersInFile (split sp funcs relocs), ∀ t' < headersInFile (split sp funcs relocs),
        ∀ k k', holdsRecord (split sp funcs relocs) t k (relaOffset (sp.shdr s) j) →
          holdsRecord (split sp funcs relocs) t' k' (relaOffset (sp.shdr s) j) →
          t = t' ∧ k = k') : ReachedOnce sp relocs := by
  intro s hs i hi hne htype j hj k hk heq
  have hsame : ∀ s ∈ relocs, (sp.splitText funcs).1.shdr s = sp.shdr s := fun s hs =>
    h.textSplit.others s (h.plan.reloc_lt hs) (h.plan.ne_text h.text hs)
  rw [h.headersInFile_split] at honce
  by_cases hmem : i ∈ relocs
  · -- both are split: their tables differ
    obtain ⟨t, m, t', m', hdiff, htlt, htlt', hholds, hholds'⟩ :=
      exists_two_tables h.plan.nodup h.valid i hmem s hs hne k
        (by rw [records, hsame i hmem]; exact hk) j (by rw [records, hsame s hs]; exact hj)
    rw [hsame i hmem, heq] at hholds
    rw [hsame s hs] at hholds'
    simp only [holdsRecord, h.split_shdr] at honce
    exact hdiff (honce s hs j hj t htlt t' htlt' m m' hholds hholds').1
  · -- the other header is not split, and stays
    obtain ⟨t, m, hplace, htlt, hholds⟩ :=
      exists_table h.plan.nodup h.valid s hs j
        (by rw [records, hsame s hs]; exact hj)
    rw [hsame s hs] at hholds
    have hother := h.split_other hi (by rw [htype]; decide) hmem
    have hcount : (sp.splitText funcs).1.sectionCount ≤
        (splitRelocations (placed sp funcs) (sp.splitText funcs).1 relocs).sectionCount :=
      (splitRelocations_frame h.plan.nodup h.valid).1
    rw [h.textSplit.count] at hplace hcount
    simp only [holdsRecord, h.split_shdr] at honce hother
    have := (honce s hs j hj i (by omega) t htlt k m
      ⟨by rw [hother]; exact htype, by rw [hother]; exact hk, by rw [hother]; exact heq⟩
      hholds).1
    omega

end Planned

/-- A member's share and the ones before it are part of the sum. -/
theorem sum_takeWhile_add_le (f : Nat → Nat) :
    ∀ {l : List Nat} {s : Nat}, s ∈ l →
      ((l.takeWhile fun i => i != s).map f).sum + f s ≤ (l.map f).sum
  | [], _, hs => absurd hs List.not_mem_nil
  | i :: l, s, hs => by
    by_cases heq : i = s
    · subst heq
      simp
    · have ih := sum_takeWhile_add_le f ((List.mem_cons.mp hs).resolve_left (Ne.symm heq))
      rw [List.takeWhile_cons, if_pos (by simpa using heq), List.map_cons, List.sum_cons,
        List.map_cons, List.sum_cons]
      omega

namespace Ready

variable {sp : Splitter} {funcs : List FunctionInfo} {relocs : List Nat}
  (h : Ready sp funcs relocs)

include h

/-- Record `j` of section `s` is a record of the table at its `tableHome`. -/
theorem holds_tableHome {s j : Nat} (hs : s ∈ relocs) (hj : j < records sp s) :
    ∃ k, holdsRecord (split sp funcs relocs) (tableHome sp funcs relocs s j) k
      (relaOffset (sp.shdr s) j) := by
  obtain ⟨a, b, hrun, htable⟩ := h.outcome.tables s hs j hj
  have hpos : 0 < (sp.shdr s).shEntsize := by
    rw [h.plan.entsize s hs]
    decide
  have hlo := hrun.lo
  have hhi := hrun.hi
  refine ⟨j - a, ?_⟩
  unfold holdsRecord
  rw [htable]
  refine ⟨h.plan.reloc_type hs, ?_, ?_⟩
  · simp only [relaCount, Nat.mul_div_cancel _ hpos]
    omega
  · simp only [relaOffset, Nat.add_assoc, ← Nat.add_mul]
    rw [Nat.add_sub_cancel' hlo]

/-- The table of a record is one of the headers written. -/
theorem tableHome_lt {s j : Nat} (hs : s ∈ relocs) (hj : j < records sp s) :
    tableHome sp funcs relocs s j < headerCount sp funcs relocs := by
  have hsum := sum_takeWhile_add_le (fun i => sp.countRelocGroups i funcs) hs
  have hlt := h.plan.reloc_lt hs
  have hgroup : groupOf sp funcs s j < groups sp funcs s (records sp s) := groupOf_lt_of_lt hj
  have hcount : sp.countRelocGroups s funcs = groups sp funcs s (records sp s) - 1 := rfl
  unfold tableHome home tableBase headerCount extraHeaders
  split_ifs
  · omega
  · omega

/-- The table at a record's `tableHome` names the slice of its function. -/
theorem tableHome_info {s j : Nat} (hs : s ∈ relocs) (hj : j < records sp s) :
    ((split sp funcs relocs).shdr (tableHome sp funcs relocs s j)).shInfo =
      half (sliceIndex sp (funcOf sp funcs s j)) := by
  obtain ⟨a, b, _, htable⟩ := h.outcome.tables s hs j hj
  rw [htable]

/-- **The one table of a record**, when its section shares no record. -/
theorem eq_tableHome (honce : ReachedOnce sp relocs) {s j t k : Nat} (hs : s ∈ relocs)
    (hj : j < records sp s) (ht : t < headerCount sp funcs relocs)
    (hholds : holdsRecord (split sp funcs relocs) t k (relaOffset (sp.shdr s) j)) :
    t = tableHome sp funcs relocs s j := by
  obtain ⟨htype, hk, ho⟩ := hholds
  rcases h.outcome.pieces t ht with ⟨hlt, _, hni, hsame⟩ | ⟨g, hg, rfl⟩ | ⟨s', hs', _, hpiece⟩
  · rw [hsame] at htype hk ho
    have hne : t ≠ s := fun heq => hni (heq ▸ hs)
    exact absurd ho (honce s hs t hlt hne htype j hj k hk)
  · have htext := h.slice_text hg
    simp only [isTextHeader, htype] at htext
    simp [shtRela, shtProgbits] at htext
  · rcases hpiece with hzero | ⟨j', hj', rfl⟩
    · rw [relaCount, hzero, Nat.zero_div] at hk
      exact absurd hk (Nat.not_lt_zero k)
    · obtain ⟨a, b, hrun, htable⟩ := h.outcome.tables s' hs' j' hj'
      have hpos : 0 < (sp.shdr s').shEntsize := by
        rw [h.plan.entsize s' hs']
        decide
      have hle := hrun.le
      rw [htable] at hk ho
      simp only [relaCount, Nat.mul_div_cancel _ hpos] at hk
      simp only [relaOffset, Nat.add_assoc, ← Nat.add_mul] at ho
      -- the table covers records of its own section, which the record is not one of otherwise
      by_cases hss : s' = s
      · subst hss
        obtain rfl : a + k = j := relaOffset_inj hpos ho
        have hgroup : groupOf sp funcs s' (a + k) = groupOf sp funcs s' j' :=
          hrun.same _ (Nat.le_add_right _ _) (by omega)
        unfold tableHome
        rw [hgroup]
      · exact absurd ho (honce s hs s' (h.plan.reloc_lt hs') hss (h.plan.reloc_type hs') j hj
          (a + k) (show a + k < records sp s' by omega))

/-- A function that holds the record's offset is the record's function. -/
theorem funcOf_eq_of_inside {s j g : Nat} (hg : g < funcs.length)
    (hlo : funcs[g].start ≤ (sp.rela (relaOffset (sp.shdr s) j)).rOffset)
    (hhi : (sp.rela (relaOffset (sp.shdr s) j)).rOffset < funcs[g].start + funcs[g].size) :
    funcOf sp funcs s j = g :=
  h.plan.slices.floorIndex_eq hg hlo hhi

/-- An index that leads to a function's slice is the slice's own. -/
theorem eq_sliceIndex {i g : Nat} (hg : g < funcs.length) (hi : i < headerCount sp funcs relocs)
    (hslice : (split sp funcs relocs).shdr i = sliceOf sp.text funcs[g]) :
    i = sliceIndex sp g := by
  obtain ⟨g', hg', rfl⟩ := h.text_header hi (by rw [hslice]; exact h.text)
  rw [h.outcome.slices g' hg'] at hslice
  have hoff := congrArg Shdr.shOffset hslice
  simp only [sliceOf] at hoff
  rcases Nat.lt_trichotomy g g' with hlt | heq | hgt
  · exact absurd (h.plan.slices.sorted.lt hlt hg' hg) (by omega)
  · rw [heq]
  · exact absurd (h.plan.slices.sorted.lt hgt hg hg') (by omega)

end Ready

/-! ## When the tables are a partition -/

section Main

variable {sp : Splitter} {funcs : List FunctionInfo} {relocs : List Nat}

theorem run_eq_split {im im' : Image} (h : accept im = some (sp, funcs, relocs))
    (hrun : run im = some im') : im' = split sp funcs relocs := by
  rw [run, h] at hrun
  exact (Option.some.inj hrun).symm

theorem headersInFile_eq_headerCount {im : Image} (h : Planned im sp funcs relocs)
    (hready : Ready sp funcs relocs) :
    headersInFile (split sp funcs relocs) = headerCount sp funcs relocs := by
  rw [h.headersInFile_split, hready.sectionCount_eq]

theorem tablesFit_of_partitions {im : Image} (h : Planned im sp funcs relocs)
    (hready : Ready sp funcs relocs)
    (hpart : Partitions sp funcs relocs (split sp funcs relocs)) :
    TablesFit sp funcs relocs := by
  intro s hs j hj g hg hlo hhi
  have hheaders := headersInFile_eq_headerCount h hready
  obtain ⟨t, k, ht, hholds, hinfo, hslice, _⟩ := hpart.placed s hs j hj g hg hlo hhi
  obtain ⟨m, hhome⟩ := hready.holds_tableHome hs hj
  have hle : half (headerCount sp funcs relocs) ≤ headerCount sp funcs relocs := Nat.mod_le _ _
  rw [hready.outcome.shnum] at ht hinfo
  -- the table found is the record's own, as no other header holds the record
  obtain rfl := (hpart.once s hs j hj t (by rw [hheaders]; omega) _
    (by rw [hheaders]; exact hready.tableHome_lt hs hj) k m hholds hhome).1
  rw [hready.tableHome_info hs hj, hready.funcOf_eq_of_inside hg hlo hhi] at hinfo hslice
  have hidx := hready.eq_sliceIndex hg (hinfo.trans_le hle) hslice
  rw [hidx] at hinfo
  exact ⟨hinfo, ht⟩

theorem partitions_of_reachedOnce {im : Image} (h : Planned im sp funcs relocs)
    (hready : Ready sp funcs relocs) (honce : ReachedOnce sp relocs)
    (hfit : TablesFit sp funcs relocs) : Partitions sp funcs relocs (split sp funcs relocs) := by
  have hheaders := headersInFile_eq_headerCount h hready
  have hrebased : ∀ s ∈ relocs, ∀ j < records sp s,
      ((split sp funcs relocs).rela (relaOffset (sp.shdr s) j)).rOffset +
        (funcs.getD (funcOf sp funcs s j) ⟨0, 0, 0, 0⟩).start =
      (sp.rela (relaOffset (sp.shdr s) j)).rOffset := by
    intro s hs j hj
    obtain ⟨hf, hstart, _⟩ :=
      h.plan.functionForOffset_spec (sp.rela (relaOffset (sp.shdr s) j)).rOffset
    rw [hready.outcome.rela, if_pos ⟨s, hs, j, hj, rfl⟩, rebase, funcOf]
    simp only [List.getD_eq_getElem?_getD, List.getElem?_eq_getElem hf, Option.getD_some]
    omega
  refine
    { once := fun s hs j hj t ht t' ht' k k' hk hk' => ?_
      rebased := hrebased
      placed := fun s hs j hj g hg hlo hhi => ?_
      ordered := fun s hs j hj j' hj' hlt t k k' hk hk' => ?_ }
  · rw [hheaders] at ht ht'
    obtain rfl := hready.eq_tableHome honce hs hj ht hk
    obtain rfl := hready.eq_tableHome honce hs hj ht' hk'
    obtain ⟨a, b, _, htable⟩ := hready.outcome.tables s hs j hj
    refine ⟨rfl, relaOffset_inj ?_ (hk.2.2.trans hk'.2.2.symm)⟩
    rw [htable]
    simp only [h.plan.entsize s hs]
    decide
  · obtain ⟨hslice, htable⟩ := hfit s hs j hj g hg hlo hhi
    obtain ⟨k, hholds⟩ := hready.holds_tableHome hs hj
    have hfunc := hready.funcOf_eq_of_inside hg hlo hhi
    have hinfo := hready.tableHome_info hs hj
    rw [hfunc, half_of_lt (hslice.trans (half_lt _))] at hinfo
    have hoff := hrebased s hs j hj
    rw [hfunc, Checked.getD_eq hg] at hoff
    refine ⟨_, k, by rw [hready.outcome.shnum]; exact htable, hholds, ?_, ?_, hoff⟩
    · rw [hinfo, hready.outcome.shnum]
      exact hslice
    · rw [hinfo]
      exact hready.outcome.slices g hg
  · have hpos : 0 < (sp.shdr s).shEntsize := by
      rw [h.plan.entsize s hs]
      decide
    have hoff : relaOffset (sp.shdr s) j < relaOffset (sp.shdr s) j' :=
      Nat.add_lt_add_left (Nat.mul_lt_mul_of_pos_right hlt hpos) _
    by_contra hle
    have hmul := Nat.mul_le_mul_right (((split sp funcs relocs).shdr t).shEntsize)
      (Nat.not_lt.mp hle)
    have hk2 := hk.2.2
    have hk2' := hk'.2.2
    unfold relaOffset at hk2 hk2' hoff
    omega

end Main

/-- **The new tables partition the records exactly when no record is reached twice** and the
tables and slices have indices that fit. -/
theorem partitions_iff (im : RecordFile) {im' : Image} {sp : Splitter} {funcs : List FunctionInfo}
    {relocs : List Nat} (h : accept im.toImage = some (sp, funcs, relocs))
    (hrun : run im.toImage = some im') :
    Partitions sp funcs relocs im' ↔ ReachedOnce sp relocs ∧ TablesFit sp funcs relocs := by
  have hplanned := planned_of_accept h
  rw [run_eq_split h hrun]
  constructor
  · intro hpart
    have honce := hplanned.reachedOnce_of_once hpart.once
    exact ⟨honce, tablesFit_of_partitions hplanned
      (hplanned.ready (honce.apart hplanned.plan)) hpart⟩
  · rintro ⟨honce, hfit⟩
    exact partitions_of_reachedOnce hplanned (hplanned.ready (honce.apart hplanned.plan)) honce
      hfit

/-- The records of `denseObject`, which one section header reaches. -/
def denseRecords : RecordFile where
  toImage := denseObject.toImage
  whole := fun i _ i' _ hne hi hi' => by
    have h2 := smallHeader_rela hi
    rw [← smallHeader_rela hi'] at h2
    exact absurd h2 hne

theorem partitions_denseRecords :
    ∃ sp funcs relocs im', accept denseRecords.toImage = some (sp, funcs, relocs) ∧
      run denseRecords.toImage = some im' ∧ Partitions sp funcs relocs im' := by
  have hacc : accept denseRecords.toImage = some (_, _, _) := rfl
  refine ⟨_, _, _, _, hacc, rfl, (partitions_iff denseRecords hacc rfl).mpr
    ⟨fun s hs i _ hne htype => ?_, fun s hs j hj g hg hlo hhi => ?_⟩⟩
  · obtain rfl : s = 2 := List.mem_singleton.mp hs
    exact absurd (smallHeader_rela htype) hne
  · obtain rfl : s = 2 := List.mem_singleton.mp hs
    obtain rfl : j = 0 := Nat.lt_one_iff.mp hj
    have hg2 : g < 2 := hg
    rcases (by omega : g = 0 ∨ g = 1) with rfl | rfl
    · exact absurd (show 4 < 0 + 4 from hhi) (by decide)
    · exact ⟨by decide, by decide⟩

/-- The section headers of an object whose headers 2 and 3 reach the same two records. -/
def sharedHeader (textSize syms : Nat) : Nat → Shdr
  | 1 => ⟨1, shtProgbits, 6, 0, 52, textSize, 0, 0, 4, 0⟩
  | 2 => ⟨7, shtRela, 0, 0, 52 + textSize, 24, 4, 1, 4, 12⟩
  | 3 => ⟨7, shtRela, 0, 0, 52 + textSize, 24, 4, 1, 4, 12⟩
  | 4 => ⟨18, shtSymtab, 0, 0, 76 + textSize, 16 * syms, 1, 2, 4, 16⟩
  | _ => ⟨0, shtNull, 0, 0, 0, 0, 0, 0, 0, 0⟩

theorem sharedHeader_rela {textSize syms i : Nat}
    (h : (sharedHeader textSize syms i).shType = shtRela) :
    sharedHeader textSize syms i = ⟨7, shtRela, 0, 0, 52 + textSize, 24, 4, 1, 4, 12⟩ := by
  unfold sharedHeader at h ⊢
  split at h
  · exact absurd (show shtProgbits = shtRela from h) (by decide)
  · rfl
  · rfl
  · exact absurd (show shtSymtab = shtRela from h) (by decide)
  · exact absurd (show shtNull = shtRela from h) (by decide)

/-- An object with one text section, a symbol table, and two section headers for the same two
relocations. -/
def sharedObject (textSize : Nat) (syms : List Sym) (first second : Rela) : RecordFile where
  currentSize := 76 + textSize + 16 * syms.length + 200
  ehdr :=
    ⟨[0x7f, 0x45, 0x4c, 0x46, 1, 1], etRel, emRiscv, 76 + textSize + 16 * syms.length,
      sizeofShdr, 5⟩
  shdr := sharedHeader textSize syms.length
  sym := fun k => syms.getD k ⟨0, 0, 0, 0⟩
  rela := fun o => if o = 52 + textSize then first else second
  whole := fun i _ i' _ _ hi hi' k _ k' _ => by
    rw [sharedHeader_rela hi, sharedHeader_rela hi']
    simp only [relaOffset, sizeofRela]
    omega

/-- Two functions of four bytes with a relocation in each. -/
def sharedTables : RecordFile :=
  sharedObject 8 [⟨0, 0, 0, 0⟩, ⟨0, 4, sttFunc, 1⟩, ⟨4, 4, sttFunc, 1⟩] ⟨0, 1, 26, 0⟩ ⟨4, 2, 26, 0⟩

/-- The record of the second function ends up in a table of each section. -/
theorem not_partitions_sharedTables :
    ∃ sp funcs relocs im', accept sharedTables.toImage = some (sp, funcs, relocs) ∧
      run sharedTables.toImage = some im' ∧ ¬ Partitions sp funcs relocs im' := by
  have hacc : accept sharedTables.toImage = some (_, _, _) := rfl
  refine ⟨_, _, _, _, hacc, rfl, fun hpart => ?_⟩
  have hmem : 2 ∈ [2, 3] := by decide
  have honce := hpart.once 2 hmem 1 (by decide) 6 (by decide) 3 (by decide) 0 1
    ⟨by decide, by decide, by decide⟩ ⟨by decide, by decide, by decide⟩
  exact absurd honce.1 (by decide)

end RvLlvm.Lld.Csgorfe
