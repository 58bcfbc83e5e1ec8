import RvLlvm.Lld.CsgorfePartition

/-!
# The headers reserved and the headers written

`run` reserves room for the new headers from one scan of the functions and relocation sections
(`CSGORFE.h:46-49`) and appends them in another (`CSGORFE.h:298-357`). The second scan reads records
the earlier sections of the same scan have rebased, and the header indices go through 16-bit fields.

* `Untouched`: no header past the ones in use is stored to.
* `runsSeen`: the headers the second scan appends for the relocation sections, from the records as
  the input has them.
* `collectFunctions_symbol`: every function has a symbol of its own.
* `booksBalance_iff`: the reservation, the buffer, `e_shnum` and the 16-bit indices are right
  exactly when the second scan sees as many runs as the first and the counts stay below the limits.
-/

namespace RvLlvm.Lld.Csgorfe

open RvLlvm.Elf RvLlvm.Support Splitter

/-! ## Headers past the ones in use -/

/-- No header past the ones in use differs from the one in `base`. -/
def Untouched (base sp : Splitter) : Prop := ∀ i, sp.sectionCount ≤ i → sp.shdr i = base.shdr i

namespace Untouched

variable {base sp : Splitter} {funcs : List FunctionInfo}

theorem setHeader (h : Untouched base sp) {i : Nat} (hi : i < sp.sectionCount) (sec : Shdr) :
    Untouched base (sp.setHeader i sec) := by
  intro i' hi'
  rw [setHeader_sectionCount] at hi'
  rw [setHeader_shdr, Function.update_of_ne (by omega)]
  exact h i' hi'

theorem setRela (h : Untouched base sp) (o : Nat) (r : Rela) : Untouched base (sp.setRela o r) := h

theorem appendSectionHeader (h : Untouched base sp) (sec : Shdr) :
    Untouched base (sp.appendSectionHeader sec) := by
  intro i hi
  rw [appendSectionHeader_sectionCount] at hi
  rw [appendSectionHeader_shdr, Function.update_of_ne (by omega)]
  exact h i (by omega)

theorem splitTextLoop (orig : Shdr) :
    ∀ (fs : List FunctionInfo) {sp : Splitter}, Untouched base sp →
      Untouched base (splitTextLoop orig sp fs).1
  | [], _, h => h
  | f :: fs, _, h => splitTextLoop orig fs (h.appendSectionHeader (sliceOf orig f))

theorem splitText (h : Untouched base sp) (ht : sp.textIndex < sp.sectionCount) :
    Untouched base (sp.splitText funcs).1 := by
  cases funcs with
  | nil => exact h
  | cons f fs =>
    refine (splitTextLoop sp.text fs h).setHeader ?_ _
    rw [(splitTextLoop_spec sp.text fs sp).1]
    omega

/-- The headers the inner loop of `splitRelocations` may store to are in use. -/
structure InUse (base : Splitter) (s : Nat) (st : GroupState) : Prop where
  untouched : Untouched base st.sp
  own : s < st.sp.sectionCount
  cur : ∀ c, st.currentRela = some c → c < st.sp.sectionCount

theorem openGroup (orig : Shdr) {s : Nat} {st : GroupState} (h : InUse base s st) :
    Untouched base (openGroup orig s st).1 ∧ s < (Splitter.openGroup orig s st).1.sectionCount ∧
      (Splitter.openGroup orig s st).2 < (Splitter.openGroup orig s st).1.sectionCount := by
  unfold Splitter.openGroup
  have hown := h.own
  split
  · exact ⟨h.untouched.setHeader hown _, hown, hown⟩
  · refine ⟨h.untouched.appendSectionHeader _, ?_, ?_⟩
    · simp only [appendSectionHeader_sectionCount]
      omega
    · simp only [appendSectionHeader_sectionCount]
      omega

theorem groupStep {orig : Shdr} {s off : Nat} {st : GroupState} (h : InUse base s st) :
    InUse base s (groupStep funcs orig s off st) := by
  have hcur : st.currentRela.getD s < st.sp.sectionCount := by
    cases hc : st.currentRela with
    | none => exact h.own
    | some c => exact h.cur c hc
  obtain ⟨hopen, hown, hlt⟩ := openGroup orig h
  unfold Splitter.groupStep
  simp only
  split
  · refine ⟨(h.untouched.setRela _ _).setHeader hcur _, h.own, fun c hc => ?_⟩
    obtain rfl := Option.some.inj hc
    exact hcur
  · refine ⟨((hopen.setHeader hlt _).setRela _ _).setHeader hlt _, hown, fun c hc => ?_⟩
    obtain rfl := Option.some.inj hc
    exact hlt

theorem groupLoop (h : Untouched base sp) {s : Nat} (hs : s < sp.sectionCount) :
    ∀ n : Nat, InUse base s (sp.groupLoop funcs s n)
  | 0 => ⟨h, hs, fun _ hc => absurd hc (by simp [Splitter.groupLoop])⟩
  | n + 1 => groupStep (groupLoop h hs n)

theorem splitRelaSection (h : Untouched base sp) {s : Nat} (hs : s < sp.sectionCount) :
    Untouched base (sp.splitRelaSection funcs s) := by
  unfold Splitter.splitRelaSection
  split
  · exact h.setHeader hs _
  · exact (groupLoop h hs _).untouched

theorem splitRelocations :
    ∀ {relocs : List Nat} {sp : Splitter}, relocs.Nodup → Valid sp relocs → Untouched base sp →
      Untouched base (splitRelocations funcs sp relocs)
  | [], _, _, _, h => h
  | s :: rest, _, hnodup, hvalid, h => by
    obtain ⟨hs, hnodup'⟩ := List.nodup_cons.mp hnodup
    rw [Splitter.splitRelocations]
    exact splitRelocations hnodup' (hvalid.rest hs)
      (h.splitRelaSection (hvalid s List.mem_cons_self).1)

end Untouched

/-! ## The second scan -/

section Runs

variable (sp : Splitter) (funcs : List FunctionInfo)

/-- The records once those of section `s` have been rebased in `records`. -/
def rebaseSection (s : Nat) (rela : Nat → Rela) (o : Nat) : Rela :=
  if o ∈ (List.range (records sp s)).map (relaOffset (sp.shdr s)) then rebase funcs (rela o)
  else rela o

/-- The groups after the first of each section, each scanned with the records as the sections
before it leave them. -/
def runsSeen (rela : Nat → Rela) : List Nat → Nat
  | [] => 0
  | s :: rest =>
    ({ sp with rela := rela } : Splitter).countRelocGroups s funcs +
      runsSeen (rebaseSection sp funcs s rela) rest

end Runs

theorem rebaseSection_eq (sp : Splitter) (funcs : List FunctionInfo) (s : Nat) (rela : Nat → Rela)
    (o : Nat) : rebaseSection sp funcs s rela o =
      if ∃ j < records sp s, o = relaOffset (sp.shdr s) j then rebase funcs (rela o)
      else rela o := by
  have hiff : o ∈ (List.range (records sp s)).map (relaOffset (sp.shdr s)) ↔
      ∃ j < records sp s, o = relaOffset (sp.shdr s) j := by
    simp only [List.mem_map, List.mem_range, eq_comm]
  unfold rebaseSection
  simp only [hiff]

/-- The count of a section's groups reads its header and the records only. -/
theorem countRelocGroups_congr {sp sp' : Splitter} {s : Nat} (funcs : List FunctionInfo)
    (hheader : sp'.shdr s = sp.shdr s) :
    ({ sp with rela := sp'.rela } : Splitter).countRelocGroups s funcs =
      sp'.countRelocGroups s funcs := by
  have hloop : ∀ n, ({ sp with rela := sp'.rela } : Splitter).groupsLoop funcs (sp.shdr s) n =
      sp'.groupsLoop funcs (sp.shdr s) n := by
    intro n
    induction n with
    | zero => rfl
    | succ n ih => simp only [groupsLoop, ih]
  unfold countRelocGroups
  rw [hheader]
  simp only [hloop]

variable {sp : Splitter} {funcs : List FunctionInfo}

/-- **The headers `splitRelocations` appends** are the runs its own scan sees. -/
theorem splitRelocations_count :
    ∀ {relocs : List Nat} {sp' : Splitter}, relocs.Nodup → Valid sp' relocs →
      (∀ s ∈ relocs, sp'.shdr s = sp.shdr s) →
      (splitRelocations funcs sp' relocs).sectionCount =
        sp'.sectionCount + runsSeen sp funcs sp'.rela relocs
  | [], _, _, _, _ => rfl
  | s :: rest, sp', hnodup, hvalid, hsame => by
    obtain ⟨hs, hnodup'⟩ := List.nodup_cons.mp hnodup
    obtain ⟨hlt, _, hpos⟩ := hvalid s List.mem_cons_self
    have hheader := hsame s List.mem_cons_self
    have hsplit : TableSplit sp' funcs s _ := splitRelaSection_spec hlt hpos
    have hrest : ∀ i ∈ rest, (sp'.splitRelaSection funcs s).shdr i = sp.shdr i := fun i hi =>
      (hsplit.others i (hvalid i (List.mem_cons_of_mem s hi)).1 fun heq => hs (heq ▸ hi)).trans
        (hsame i (List.mem_cons_of_mem s hi))
    have hrela : (sp'.splitRelaSection funcs s).rela = rebaseSection sp funcs s sp'.rela := by
      funext o
      rw [rebaseSection_eq, hsplit.rela]
      simp only [records, hheader]
      congr
    rw [splitRelocations, splitRelocations_count hnodup' (hvalid.rest hs) hrest, hsplit.count,
      hrela, runsSeen, countRelocGroups_congr funcs hheader, Nat.add_assoc]

/-! ## Every function has a symbol -/

/-- The offset `start` is the value of a symbol of `.text`. -/
def startLabelled (sp : Splitter) (start : Nat) : Prop :=
  ∃ k < sp.symCount, (sp.sym k).stShndx = sp.textIndex ∧ (sp.sym k).stValue = start

theorem collectLoop_labelled :
    ∀ {n : Nat} {fs : List FunctionInfo}, n ≤ sp.symCount → sp.collectLoop n = some fs →
      ∀ f ∈ fs, startLabelled sp f.start
  | 0, fs, _, h => by
    obtain rfl := Option.some.inj h
    exact fun _ hf => absurd hf List.not_mem_nil
  | n + 1, fs, hn, h => by
    rw [collectLoop, Option.bind_eq_some_iff] at h
    obtain ⟨fs', hfs', h⟩ := h
    have ih := collectLoop_labelled (Nat.le_of_succ_le hn) hfs'
    simp only at h
    split at h
    · obtain rfl := Option.some.inj h
      exact ih
    · rename_i hfun
      split at h
      · exact absurd h (by simp)
      · obtain rfl := Option.some.inj h
        intro f hf
        rcases List.mem_append.mp hf with hf | hf
        · exact ih f hf
        · obtain rfl := List.mem_singleton.mp hf
          simp only [isFunction, Bool.not_eq_true', Bool.not_eq_false, Bool.and_eq_true,
            beq_iff_eq] at hfun
          exact ⟨n, hn, hfun.1.2, rfl⟩

theorem uniqueLoop_labelled :
    ∀ (last : FunctionInfo) {fs : List FunctionInfo}, startLabelled sp last.start →
      (∀ f ∈ fs, startLabelled sp f.start) →
      ∀ f ∈ uniqueLoop last fs, startLabelled sp f.start
  | last, [], hl, _ => fun f hf => by
    obtain rfl := List.mem_singleton.mp hf
    exact hl
  | last, g :: fs, hl, hfs => by
    have hg := hfs g List.mem_cons_self
    have hfs' : ∀ f ∈ fs, startLabelled sp f.start := fun f hf => hfs f (List.mem_cons_of_mem g hf)
    unfold uniqueLoop
    split
    · exact uniqueLoop_labelled { last with size := max last.size g.size } hl hfs'
    · intro f hf
      rcases List.mem_cons.mp hf with rfl | hf
      · exact hl
      · exact uniqueLoop_labelled g hg hfs' f hf

/-- **Every function starts at a symbol of `.text`.** -/
theorem collectFunctions_symbol : ∀ f ∈ sp.collectFunctions, startLabelled sp f.start := by
  unfold collectFunctions
  split
  · exact fun _ hf => absurd hf List.not_mem_nil
  · rename_i fs hfs
    have hsorted : ∀ f ∈ fs.insertionSort fun a b => !before b a, startLabelled sp f.start :=
      fun f hf => collectLoop_labelled (Nat.le_refl _) hfs f ((List.mem_insertionSort _).mp hf)
    cases hl : fs.insertionSort fun a b => !before b a with
    | nil => exact fun _ hf => absurd hf List.not_mem_nil
    | cons g gs =>
      rw [hl] at hsorted
      exact uniqueLoop_labelled g (hsorted g List.mem_cons_self)
        fun f hf => hsorted f (List.mem_cons_of_mem g hf)

/-! ## The bookkeeping -/

/-- The size of the buffer `run` makes before the split. -/
def bufferSize (sp : Splitter) (funcs : List FunctionInfo) (relocs : List Nat) : Nat :=
  sp.currentSize + sp.extraHeaders funcs relocs * sizeofShdr

/-- **The header bookkeeping is right**: as many headers were appended as reserved, all stores to
headers lie in the buffer, `e_shnum` counts the table, and the 16-bit indices denote the slices. -/
structure BooksBalance (sp : Splitter) (funcs : List FunctionInfo) (relocs : List Nat)
    (im' : Image) : Prop where
  reserved : headersInFile im' = sp.sectionCount + sp.extraHeaders funcs relocs
  inBuffer : im'.currentSize ≤ bufferSize sp funcs relocs
  stores : ∀ i, im'.shdr i ≠ sp.shdr i →
    im'.ehdr.eShoff + (i + 1) * sizeofShdr ≤ bufferSize sp funcs relocs
  shnum : im'.ehdr.eShnum = headersInFile im'
  funcIndex : ∀ g (hg : g < funcs.length),
    ((sp.splitText funcs).2.getD g ⟨0, 0, 0, 0⟩).sectionIndex = sliceIndex sp g ∧
      im'.shdr (sliceIndex sp g) = sliceOf sp.text funcs[g]
  symbols : ∀ k < sp.symCount, (sp.sym k).stShndx = sp.textIndex →
    symbolSection? im' (im'.sym k) =
      some (sliceIndex sp (functionForOffset funcs (sp.sym k).stValue))

/-- The second scan sees as many runs as the first, the headers can be counted in 16 bits, and the
slices have indices below the reserved ones. -/
structure BooksFit (sp : Splitter) (funcs : List FunctionInfo) (relocs : List Nat) : Prop where
  runs : runsSeen sp funcs sp.rela relocs = (relocs.map fun i => sp.countRelocGroups i funcs).sum
  count : headerCount sp funcs relocs < 2 ^ 16
  slices : sp.sectionCount + (funcs.length - 1) ≤ shnLoreserve

namespace Planned

variable {im : Image} {relocs : List Nat} (h : Planned im sp funcs relocs)

include h

theorem several : 0 < funcs.length := Nat.lt_trans Nat.zero_lt_one h.plan.several

/-- The headers of the new image. -/
theorem headersInFile_runs : headersInFile (split sp funcs relocs) =
    sp.sectionCount + (funcs.length - 1) + runsSeen sp funcs sp.rela relocs := by
  have hsame : ∀ s ∈ relocs, (sp.splitText funcs).1.shdr s = sp.shdr s := fun s hs =>
    h.textSplit.others s (h.plan.reloc_lt hs) (h.plan.ne_text h.text hs)
  have hruns : ∀ (rela : Nat → Rela) (l : List Nat),
      runsSeen sp (placed sp funcs) rela l = runsSeen sp funcs rela l := by
    intro rela l
    induction l generalizing rela with
    | nil => rfl
    | cons s rest ih =>
      have hrebase : rebaseSection sp (placed sp funcs) s rela = rebaseSection sp funcs s rela := by
        funext o
        simp only [rebaseSection, rebase_placed]
      rw [runsSeen, runsSeen, countRelocGroups_placed, hrebase, ih]
  rw [h.headersInFile_split, splitRelocations_count h.plan.nodup h.valid hsame,
    h.textSplit.count, h.textSplit.rela, hruns]

/-- The header table still starts at `e_shoff` and ends where the file does. -/
theorem split_tableLast : (split sp funcs relocs).ehdr.eShoff = sp.ehdr.eShoff ∧
    (split sp funcs relocs).currentSize =
      sp.ehdr.eShoff + headersInFile (split sp funcs relocs) * sizeofShdr := by
  have hlast : TableLast (splitRelocations (placed sp funcs) (sp.splitText funcs).1 relocs) :=
    TableLast.splitRelocations relocs h.last.splitText
  have hsame : let sp' := splitRelocations (placed sp funcs) (sp.splitText funcs).1 relocs
      sp'.sym = _ ∧ sp'.textIndex = _ ∧ sp'.symtabIndex = _ ∧ sp'.ehdr = _ :=
    splitRelocations_same h.plan.nodup h.valid
  obtain ⟨_, _, _, hehdr⟩ := hsame
  unfold TableLast at hlast
  rw [hehdr, h.textSplit.ehdr] at hlast
  rw [h.headersInFile_split, h.split_eq]
  refine ⟨?_, hlast⟩
  simp only [updateSymbols, hehdr, h.textSplit.ehdr]

theorem split_slice {g : Nat} (hg : g < funcs.length) :
    (split sp funcs relocs).shdr (sliceIndex sp g) = sliceOf sp.text funcs[g] := by
  have hlt : sliceIndex sp g < (sp.splitText funcs).1.sectionCount := by
    rw [h.textSplit.count]
    exact home_lt h.text_lt hg
  have hni : sliceIndex sp g ∉ relocs := fun hmem =>
    home_ne (h.plan.reloc_lt hmem) (h.plan.ne_text h.text hmem) rfl
  rw [h.split_shdr, (splitRelocations_frame h.plan.nodup h.valid).2 _ hlt hni]
  exact h.textSplit.homes g hg

/-- Only headers in use are stored to. -/
theorem split_stores {i : Nat} (hi : headersInFile (split sp funcs relocs) ≤ i) :
    (split sp funcs relocs).shdr i = sp.shdr i := by
  have hbase : Untouched sp sp := fun _ _ => rfl
  rw [h.headersInFile_split] at hi
  rw [h.split_shdr]
  exact Untouched.splitRelocations h.plan.nodup h.valid (hbase.splitText h.text_lt) i hi

/-- A symbol of `.text` in the new image. -/
theorem split_stShndx {k : Nat} (hk : k < sp.symCount) (ht : (sp.sym k).stShndx = sp.textIndex) :
    ((split sp funcs relocs).sym k).stShndx =
      half (sliceIndex sp (functionForOffset funcs (sp.sym k).stValue)) := by
  have hg := (h.plan.functionForOffset_spec (sp.sym k).stValue).1
  rw [h.split_sym, if_pos ⟨hk, ht⟩]
  simp only [moveSymbol, functionForOffset_placed, placed_getD hg]
  rfl

theorem booksBalance_of_fit (hfit : BooksFit sp funcs relocs) :
    BooksBalance sp funcs relocs (split sp funcs relocs) := by
  obtain ⟨hruns, hcount, hslices⟩ := hfit
  have hheaders : headersInFile (split sp funcs relocs) = headerCount sp funcs relocs := by
    rw [h.headersInFile_runs, hruns, headerCount, extraHeaders]
    omega
  obtain ⟨hshoff, hsize⟩ := h.split_tableLast
  have hbuffer : bufferSize sp funcs relocs =
      sp.ehdr.eShoff + headerCount sp funcs relocs * sizeofShdr := by
    rw [bufferSize, h.last, headerCount, Nat.add_mul, Nat.add_assoc]
  have hshnum : (split sp funcs relocs).ehdr.eShnum = headersInFile (split sp funcs relocs) := by
    have hhalf : (split sp funcs relocs).ehdr.eShnum =
        half (headersInFile (split sp funcs relocs)) := by
      rw [h.headersInFile_split, h.split_eq]
      rfl
    rw [hhalf, half_of_lt (by rw [hheaders]; exact hcount)]
  have hslice : ∀ g < funcs.length, sliceIndex sp g < shnLoreserve := fun g hg =>
    (home_lt h.text_lt hg).trans_le hslices
  refine
    { reserved := hheaders
      inBuffer := by rw [hbuffer, hsize, hheaders]
      stores := fun i hne => ?_
      shnum := hshnum
      funcIndex := fun g hg => ⟨?_, h.split_slice hg⟩
      symbols := fun k hk ht => ?_ }
  · have hlt : i < headerCount sp funcs relocs := by
      by_contra hge
      exact hne (h.split_stores (by rw [hheaders]; omega))
    rw [hshoff, hbuffer]
    exact Nat.add_le_add_left (Nat.mul_le_mul_right _ hlt) _
  · rw [(splitText_spec h.several h.text_lt).2, placed_getD hg]
    exact half_of_lt ((hslice g hg).trans (by decide))
  · have hg := (h.plan.functionForOffset_spec (sp.sym k).stValue).1
    have hidx := h.split_stShndx hk ht
    rw [half_of_lt ((hslice _ hg).trans (by decide))] at hidx
    have hlt : sliceIndex sp (functionForOffset funcs (sp.sym k).stValue) <
        headerCount sp funcs relocs := by
      refine (home_lt h.text_lt hg).trans_le ?_
      unfold headerCount extraHeaders
      omega
    rw [symbolSection?, hidx, hshnum, hheaders, if_pos ⟨hslice _ hg, hlt⟩]

theorem fit_of_booksBalance (hbooks : BooksBalance sp funcs relocs (split sp funcs relocs)) :
    BooksFit sp funcs relocs := by
  have hreserved := hbooks.reserved
  rw [h.headersInFile_runs, extraHeaders] at hreserved
  refine ⟨by omega, ?_, ?_⟩
  · have hshnum := hbooks.shnum
    rw [hbooks.reserved] at hshnum
    have hlt : (split sp funcs relocs).ehdr.eShnum < 2 ^ 16 := by
      rw [h.split_eq]
      exact half_lt _
    rw [headerCount]
    omega
  · -- the last function's own symbol has the last slice's index
    have hlast : funcs.length - 1 < funcs.length := Nat.sub_lt h.several Nat.one_pos
    have hlabelled : ∀ f ∈ funcs, startLabelled sp f.start := by
      rw [h.collected]
      exact collectFunctions_symbol
    obtain ⟨k, hk, ht, hval⟩ := hlabelled _ (List.getElem_mem hlast)
    have hfunc : functionForOffset funcs (sp.sym k).stValue = funcs.length - 1 :=
      floorIndex_unique h.plan.slices.sorted hlast (Nat.le_of_eq hval.symm) fun hn => by omega
    have hsym := hbooks.symbols k hk ht
    have hidx := h.split_stShndx hk ht
    rw [hfunc] at hsym hidx
    unfold symbolSection? at hsym
    split at hsym
    · rename_i hfits
      have heq := Option.some.inj hsym
      rw [heq] at hfits
      have hseveral := h.plan.several
      have hres := hfits.1
      unfold sliceIndex at hres
      rw [home, if_neg (by omega)] at hres
      omega
    · exact absurd hsym (by simp)

end Planned

/-- **The header bookkeeping is right exactly when** the second scan sees as many runs as the
first, all headers can be counted in 16 bits, and the slices come before the reserved indices. -/
theorem booksBalance_iff (im : RecordFile) {im' : Image} {relocs : List Nat}
    (h : accept im.toImage = some (sp, funcs, relocs)) (hrun : run im.toImage = some im') :
    BooksBalance sp funcs relocs im' ↔ BooksFit sp funcs relocs := by
  have hp := planned_of_accept h
  rw [run_eq_split h hrun]
  exact ⟨hp.fit_of_booksBalance, hp.booksBalance_of_fit⟩

theorem booksBalance_denseRecords :
    ∃ sp funcs relocs im', accept denseRecords.toImage = some (sp, funcs, relocs) ∧
      run denseRecords.toImage = some im' ∧ BooksBalance sp funcs relocs im' := by
  have hacc : accept denseRecords.toImage = some (_, _, _) := rfl
  exact ⟨_, _, _, _, hacc, rfl,
    (booksBalance_iff denseRecords hacc rfl).mpr ⟨by decide, by decide, by decide⟩⟩

/-- Two functions; both relocations are in the second, and two section headers reach them. -/
def rescannedTables : RecordFile :=
  sharedObject 12 [⟨0, 0, 0, 0⟩, ⟨0, 4, sttFunc, 1⟩, ⟨4, 8, sttFunc, 1⟩] ⟨4, 2, 26, 0⟩
    ⟨8, 2, 26, 0⟩

/-- The second section sees its records rebased to both functions, and appends a header that was
not reserved. -/
theorem not_booksBalance_rescannedTables :
    ∃ sp funcs relocs im', accept rescannedTables.toImage = some (sp, funcs, relocs) ∧
      run rescannedTables.toImage = some im' ∧
      bufferSize sp funcs relocs < im'.currentSize ∧ ¬ BooksBalance sp funcs relocs im' := by
  have hacc : accept rescannedTables.toImage = some (_, _, _) := rfl
  exact ⟨_, _, _, _, hacc, rfl, by decide, fun hbooks => absurd hbooks.inBuffer (by decide)⟩

end RvLlvm.Lld.Csgorfe
