import RvLlvm.Lld.CsgorfeGroups

/-!
# The section table after the split

`splitRelocations` over all the relocation sections of `.text`, and with it the whole `split`
(`CSGORFE.h:324-370`), in terms of the image it started from.

* `tableIndex`: the header record `j` of section `s` ends up under.
* `RelocSplit` / `splitRelocations_spec`: every record lies in the table `tableIndex` names, that
  table carries its function, records are rebased once, nothing else changes.
* `Outcome` / `split_spec`: the same for the image `split` returns.
-/

namespace RvLlvm.Lld.Csgorfe

open RvLlvm.Elf RvLlvm.Support Splitter

/-! ## One relocation section -/

section Tables

variable (sp : Splitter) (funcs : List FunctionInfo)

/-- The number of records of section `s`. -/
def records (s : Nat) : Nat := relaCount (sp.shdr s)

/-- The relocation sections in `relocs` keep their records apart in the file. -/
def RecordsApart (relocs : List Nat) : Prop :=
  ∀ s ∈ relocs, ∀ s' ∈ relocs, s ≠ s' → ∀ j < records sp s, ∀ j' < records sp s',
    relaOffset (sp.shdr s) j ≠ relaOffset (sp.shdr s') j'

/-- The section count when section `s` of `relocs` is split. -/
def tableBase (relocs : List Nat) (s : Nat) : Nat :=
  sp.sectionCount +
    ((relocs.takeWhile fun i => i != s).map fun i => sp.countRelocGroups i funcs).sum

/-- The header record `j` of section `s` ends up under. -/
def tableIndex (relocs : List Nat) (s j : Nat) : Nat :=
  home s (tableBase sp funcs relocs s) (groupOf sp funcs s j)

/-- Records `a, …, b - 1` of section `s` are a run around record `j`, all of its group. -/
structure GroupRun (s j a b : Nat) : Prop where
  lo : a ≤ j
  hi : j < b
  le : b ≤ records sp s
  same : ∀ i, a ≤ i → i < b → groupOf sp funcs s i = groupOf sp funcs s j

end Tables

/-- What the split of relocation section `s` leaves. -/
structure TableSplit (sp : Splitter) (funcs : List FunctionInfo) (s : Nat) (sp' : Splitter) :
    Prop where
  count : sp'.sectionCount = sp.sectionCount + sp.countRelocGroups s funcs
  tables : ∀ j < records sp s, ∃ a b, GroupRun sp funcs s j a b ∧
    sp'.shdr (home s sp.sectionCount (groupOf sp funcs s j)) =
      tableHeader sp funcs s a b (funcOf sp funcs s j)
  pieces : ∀ i < sp'.sectionCount, (i < sp.sectionCount → i = s) →
    (sp'.shdr i).shType = (sp.shdr s).shType ∧
      ((records sp s = 0 ∧ i = s ∧ (sp'.shdr i).shSize = (sp.shdr s).shSize) ∨
        ∃ j < records sp s, i = home s sp.sectionCount (groupOf sp funcs s j))
  others : ∀ i < sp.sectionCount, i ≠ s → sp'.shdr i = sp.shdr i
  rela : ∀ o, sp'.rela o =
    if ∃ j < records sp s, o = relaOffset (sp.shdr s) j then rebase funcs (sp.rela o)
    else sp.rela o
  sym : sp'.sym = sp.sym
  ehdr : sp'.ehdr = sp.ehdr
  textIndex : sp'.textIndex = sp.textIndex
  symtabIndex : sp'.symtabIndex = sp.symtabIndex

variable {sp sp₁ : Splitter} {funcs : List FunctionInfo} {s : Nat} {relocs : List Nat}

/-- A header is not a table of `s` that was left empty: its group has a first record. -/
theorem GroupInv.exists_record {n m : Nat} {st : GroupState} (h : GroupInv sp funcs s n st)
    (hm : m < groups sp funcs s n) : ∃ j < n, groupOf sp funcs s j = m := by
  obtain ⟨a, b, f, hab, hbn, _, _, hmem⟩ := h.tables m hm
  exact ⟨a, by omega, (hmem a (by omega)).1.mpr ⟨Nat.le_refl a, hab⟩⟩

/-- **One turn of the outer loop of `splitRelocations`.** -/
theorem splitRelaSection_spec (hs : s < sp.sectionCount) (he : 0 < (sp.shdr s).shEntsize) :
    TableSplit sp funcs s (sp.splitRelaSection funcs s) := by
  unfold splitRelaSection
  by_cases hzero : relaCount (sp.shdr s) = 0
  · have hrec : records sp s = 0 := hzero
    have hcount : sp.countRelocGroups s funcs = 0 := by
      simp only [countRelocGroups, hzero, groupsLoop]
    rw [if_pos hzero]
    refine ⟨by rw [hcount]; rfl, fun j hj => ?_, fun i hi hold => ?_, fun i _ hne => ?_,
      fun o => ?_, rfl, rfl, rfl, rfl⟩
    · exact absurd hj (by omega)
    · obtain rfl := hold hi
      rw [setHeader_shdr, Function.update_self]
      exact ⟨rfl, Or.inl ⟨hrec, rfl, rfl⟩⟩
    · rw [setHeader_shdr, Function.update_of_ne hne]
    · rw [if_neg (by rintro ⟨j, hj, _⟩; omega), setHeader_rela]
  · rw [if_neg hzero]
    have inv : GroupInv sp funcs s (relaCount (sp.shdr s))
        (sp.groupLoop funcs s (relaCount (sp.shdr s))) := groupInv_loop he hs _
    have hpos : 0 < groups sp funcs s (relaCount (sp.shdr s)) := by
      obtain ⟨k, hk⟩ := Nat.exists_eq_succ_of_ne_zero hzero
      rw [hk]
      exact groups_pos sp funcs s k
    refine ⟨inv.count, fun j hj => ?_, fun i hi hold => ?_, inv.others, inv.rela, inv.sym,
      inv.ehdr, inv.textIndex, inv.symtabIndex⟩
    · obtain ⟨a, b, f, hab, hbn, _, htable, hmem⟩ := inv.tables _ (groupOf_lt_of_lt hj)
      obtain ⟨hgroup, hfunc⟩ := hmem j hj
      obtain ⟨haj, hjb⟩ := hgroup.mp rfl
      have hrun : GroupRun sp funcs s j a b :=
        ⟨haj, hjb, hbn, fun i hai hib => (hmem i (by omega)).1.mpr ⟨hai, hib⟩⟩
      exact ⟨a, b, hrun, by rw [htable, hfunc haj hjb]⟩
    · rw [inv.count] at hi
      obtain ⟨m, hm, rfl⟩ := eq_home_of_lt hi hold hpos
      obtain ⟨j, hj, rfl⟩ := inv.exists_record hm
      obtain ⟨a, b, f, _, _, _, htable, _⟩ := inv.tables _ hm
      exact ⟨by rw [htable]; rfl, Or.inr ⟨j, hj, rfl⟩⟩

/-! ## Splitting one section leaves the others to be split as before -/

/-- The records and the header of section `s` are the same in both states. -/
structure SameTable (sp sp₁ : Splitter) (s : Nat) : Prop where
  header : sp₁.shdr s = sp.shdr s
  record : ∀ j < records sp s, sp₁.rela (relaOffset (sp.shdr s) j) =
    sp.rela (relaOffset (sp.shdr s) j)

namespace SameTable

theorem records_eq (h : SameTable sp sp₁ s) : records sp₁ s = records sp s := by
  unfold records
  rw [h.header]

theorem funcOf_eq (h : SameTable sp sp₁ s) {j : Nat} (hj : j < records sp s) :
    funcOf sp₁ funcs s j = funcOf sp funcs s j := by
  unfold funcOf
  rw [h.header, h.record j hj]

theorem groupsLoop_eq (h : SameTable sp sp₁ s) {n : Nat} (hn : n ≤ records sp s) :
    sp₁.groupsLoop funcs (sp₁.shdr s) n = sp.groupsLoop funcs (sp.shdr s) n := by
  induction n with
  | zero => rfl
  | succ n ih =>
    have hn' : n < records sp s := hn
    have ih' := ih (Nat.le_of_lt hn')
    rw [h.header] at ih' ⊢
    simp only [groupsLoop, ih', h.record n hn']

theorem groupOf_eq (h : SameTable sp sp₁ s) {j : Nat} (hj : j < records sp s) :
    groupOf sp₁ funcs s j = groupOf sp funcs s j := by
  unfold groupOf groups
  rw [h.groupsLoop_eq hj]

theorem countRelocGroups_eq (h : SameTable sp sp₁ s) :
    sp₁.countRelocGroups s funcs = sp.countRelocGroups s funcs := by
  unfold countRelocGroups
  have hrec : relaCount (sp₁.shdr s) = records sp s := h.records_eq
  simp only [hrec, h.groupsLoop_eq (Nat.le_refl _)]
  rfl

theorem tableHeader_eq (h : SameTable sp sp₁ s) (a b f : Nat) :
    tableHeader sp₁ funcs s a b f = tableHeader sp funcs s a b f := by
  unfold tableHeader
  rw [h.header]

theorem groupRun (h : SameTable sp sp₁ s) {j a b : Nat} (hr : GroupRun sp₁ funcs s j a b) :
    GroupRun sp funcs s j a b := by
  have hle := hr.le
  have hhi := hr.hi
  rw [h.records_eq] at hle
  refine ⟨hr.lo, hr.hi, hle, fun i hai hib => ?_⟩
  rw [← h.groupOf_eq (by omega), ← h.groupOf_eq (by omega)]
  exact hr.same i hai hib

end SameTable

/-- Splitting section `s` does not touch another section's table. -/
theorem TableSplit.sameTable (h : TableSplit sp funcs s sp₁) {s' : Nat}
    (hs' : s' < sp.sectionCount) (hne : s' ≠ s)
    (hapart : ∀ j < records sp s, ∀ j' < records sp s',
      relaOffset (sp.shdr s) j ≠ relaOffset (sp.shdr s') j') : SameTable sp sp₁ s' where
  header := h.others s' hs' hne
  record := fun j' hj' => by
    rw [h.rela, if_neg]
    rintro ⟨j, hj, heq⟩
    exact hapart j hj j' hj' heq.symm

/-! ## All the relocation sections -/

/-- What `splitRelocations` leaves. -/
structure RelocSplit (sp : Splitter) (funcs : List FunctionInfo) (relocs : List Nat)
    (sp' : Splitter) : Prop where
  count : sp'.sectionCount = sp.sectionCount +
    (relocs.map fun i => sp.countRelocGroups i funcs).sum
  tables : ∀ s ∈ relocs, ∀ j < records sp s, ∃ a b, GroupRun sp funcs s j a b ∧
    sp'.shdr (tableIndex sp funcs relocs s j) = tableHeader sp funcs s a b (funcOf sp funcs s j)
  pieces : ∀ i < sp'.sectionCount, (i < sp.sectionCount → i ∈ relocs) → ∃ s ∈ relocs,
    (sp'.shdr i).shType = (sp.shdr s).shType ∧
      ((records sp s = 0 ∧ (sp'.shdr i).shSize = (sp.shdr s).shSize) ∨
        ∃ j < records sp s, i = tableIndex sp funcs relocs s j)
  others : ∀ i < sp.sectionCount, i ∉ relocs → sp'.shdr i = sp.shdr i
  rela : ∀ o, sp'.rela o =
    if ∃ s ∈ relocs, ∃ j < records sp s, o = relaOffset (sp.shdr s) j
    then rebase funcs (sp.rela o) else sp.rela o
  sym : sp'.sym = sp.sym
  ehdr : sp'.ehdr = sp.ehdr
  textIndex : sp'.textIndex = sp.textIndex
  symtabIndex : sp'.symtabIndex = sp.symtabIndex

theorem tableBase_self (sp : Splitter) (funcs : List FunctionInfo) (s : Nat) (rest : List Nat) :
    tableBase sp funcs (s :: rest) s = sp.sectionCount := by
  simp [tableBase]

theorem tableBase_cons (hcount : sp₁.sectionCount = sp.sectionCount + sp.countRelocGroups s funcs)
    {rest : List Nat} (hsame : ∀ i ∈ rest, SameTable sp sp₁ i) {s' : Nat} (hne : s ≠ s') :
    tableBase sp₁ funcs rest s' = tableBase sp funcs (s :: rest) s' := by
  have hmap : (rest.takeWhile fun i => i != s').map (fun i => sp₁.countRelocGroups i funcs) =
      (rest.takeWhile fun i => i != s').map (fun i => sp.countRelocGroups i funcs) :=
    List.map_congr_left fun i hi =>
      (hsame i ((List.takeWhile_prefix _).subset hi)).countRelocGroups_eq
  unfold tableBase
  rw [List.takeWhile_cons, if_pos (by simpa using hne), List.map_cons, List.sum_cons, hmap, hcount]
  omega

/-- Another section of the list than the head. -/
structure AfterHead (sp sp₁ : Splitter) (funcs : List FunctionInfo) (s : Nat) (rest : List Nat) :
    Prop where
  head : TableSplit sp funcs s sp₁
  notMem : s ∉ rest
  old : ∀ i ∈ s :: rest, i < sp.sectionCount
  same : ∀ i ∈ rest, SameTable sp sp₁ i

namespace AfterHead

variable {sp' : Splitter} {rest : List Nat}

theorem ne (h : AfterHead sp sp₁ funcs s rest) {i : Nat} (hi : i ∈ rest) : i ≠ s := by
  rintro rfl
  exact h.notMem hi

theorem le (h : AfterHead sp sp₁ funcs s rest) : sp.sectionCount ≤ sp₁.sectionCount := by
  rw [h.head.count]
  exact Nat.le_add_right _ _

theorem tableIndex_head (j : Nat) : tableIndex sp funcs (s :: rest) s j =
    home s sp.sectionCount (groupOf sp funcs s j) := by
  rw [tableIndex, tableBase_self]

theorem tableIndex_rest (h : AfterHead sp sp₁ funcs s rest) {i j : Nat} (hi : i ∈ rest)
    (hj : j < records sp i) :
    tableIndex sp₁ funcs rest i j = tableIndex sp funcs (s :: rest) i j := by
  unfold tableIndex
  rw [tableBase_cons h.head.count h.same (h.ne hi).symm, (h.same i hi).groupOf_eq hj]

/-- The tables of the head are not split again. -/
theorem home_notMem (h : AfterHead sp sp₁ funcs s rest) (m : Nat) :
    home s sp.sectionCount m ∉ rest := by
  intro hmem
  rcases Nat.eq_zero_or_pos m with rfl | h0
  · exact h.notMem hmem
  · have hlt := h.old _ (List.mem_cons_of_mem s hmem)
    rw [home, if_neg (Nat.pos_iff_ne_zero.mp h0)] at hlt
    omega

variable (h : AfterHead sp sp₁ funcs s rest) (ih : RelocSplit sp₁ funcs rest sp')

include h ih

theorem tables {i : Nat} (hi : i ∈ s :: rest) {j : Nat} (hj : j < records sp i) :
    ∃ a b, GroupRun sp funcs i j a b ∧
      sp'.shdr (tableIndex sp funcs (s :: rest) i j) =
        tableHeader sp funcs i a b (funcOf sp funcs i j) := by
  rcases List.mem_cons.mp hi with rfl | hi
  · obtain ⟨a, b, hrun, htable⟩ := h.head.tables j hj
    have hlt : home i sp.sectionCount (groupOf sp funcs i j) < sp₁.sectionCount := by
      rw [h.head.count, countRelocGroups]
      exact home_lt (h.old i List.mem_cons_self) (groupOf_lt_of_lt hj)
    exact ⟨a, b, hrun, by
      rw [tableIndex_head, ih.others _ hlt (h.home_notMem _), htable]⟩
  · have hsame := h.same i hi
    obtain ⟨a, b, hrun, htable⟩ := ih.tables i hi j (by rw [hsame.records_eq]; exact hj)
    refine ⟨a, b, hsame.groupRun hrun, ?_⟩
    rw [← h.tableIndex_rest hi hj, htable, hsame.tableHeader_eq, hsame.funcOf_eq hj]

theorem pieces {i : Nat} (hi : i < sp'.sectionCount) (hold : i < sp.sectionCount → i ∈ s :: rest) :
    ∃ t ∈ s :: rest, (sp'.shdr i).shType = (sp.shdr t).shType ∧
      ((records sp t = 0 ∧ (sp'.shdr i).shSize = (sp.shdr t).shSize) ∨
        ∃ j < records sp t, i = tableIndex sp funcs (s :: rest) t j) := by
  by_cases hmine : i < sp₁.sectionCount ∧ i ∉ rest
  · obtain ⟨htype, hpiece⟩ := h.head.pieces i hmine.1 fun hlt =>
      (List.mem_cons.mp (hold hlt)).resolve_right hmine.2
    rw [ih.others i hmine.1 hmine.2]
    refine ⟨s, List.mem_cons_self, htype, hpiece.imp (fun hp => ⟨hp.1, hp.2.2⟩) ?_⟩
    rintro ⟨j, hj, hij⟩
    exact ⟨j, hj, by rw [tableIndex_head]; exact hij⟩
  · have hrest : i < sp₁.sectionCount → i ∈ rest := fun hlt => by
      by_contra hn
      exact hmine ⟨hlt, hn⟩
    obtain ⟨t, ht, htype, hpiece⟩ := ih.pieces i hi hrest
    rw [(h.same t ht).header, (h.same t ht).records_eq] at hpiece
    rw [(h.same t ht).header] at htype
    refine ⟨t, List.mem_cons_of_mem s ht, htype, hpiece.imp id ?_⟩
    rintro ⟨j, hj, hij⟩
    exact ⟨j, hj, by rw [← h.tableIndex_rest ht hj]; exact hij⟩

theorem rela (o : Nat) : sp'.rela o =
    if ∃ i ∈ s :: rest, ∃ j < records sp i, o = relaOffset (sp.shdr i) j
    then rebase funcs (sp.rela o) else sp.rela o := by
  have hiff : (∃ i ∈ rest, ∃ j < records sp₁ i, o = relaOffset (sp₁.shdr i) j) ↔
      ∃ i ∈ rest, ∃ j < records sp i, o = relaOffset (sp.shdr i) j := by
    constructor
    · rintro ⟨i, hi, j, hj, ho⟩
      rw [(h.same i hi).header] at ho
      rw [(h.same i hi).records_eq] at hj
      exact ⟨i, hi, j, hj, ho⟩
    · rintro ⟨i, hi, j, hj, ho⟩
      refine ⟨i, hi, j, by rw [(h.same i hi).records_eq]; exact hj, ?_⟩
      rw [(h.same i hi).header]
      exact ho
  rw [ih.rela]
  by_cases hrest : ∃ i ∈ rest, ∃ j < records sp i, o = relaOffset (sp.shdr i) j
  · rw [if_pos (hiff.mpr hrest)]
    obtain ⟨i, hi, j, hj, rfl⟩ := hrest
    rw [(h.same i hi).record j hj, if_pos ⟨i, List.mem_cons_of_mem s hi, j, hj, rfl⟩]
  · have hor : (∃ i ∈ s :: rest, ∃ j < records sp i, o = relaOffset (sp.shdr i) j) ↔
        ∃ j < records sp s, o = relaOffset (sp.shdr s) j := by
      constructor
      · rintro ⟨i, hi, hj⟩
        rcases List.mem_cons.mp hi with rfl | hi
        · exact hj
        · exact absurd ⟨i, hi, hj⟩ hrest
      · exact fun hj => ⟨s, List.mem_cons_self, hj⟩
    rw [if_neg fun hr => hrest (hiff.mp hr), h.head.rela]
    simp only [hor]

/-- The head split first, then the rest. -/
theorem relocSplit : RelocSplit sp funcs (s :: rest) sp' where
  count := by
    have hmap : rest.map (fun i => sp₁.countRelocGroups i funcs) =
        rest.map (fun i => sp.countRelocGroups i funcs) :=
      List.map_congr_left fun i hi => (h.same i hi).countRelocGroups_eq
    rw [ih.count, hmap, h.head.count, List.map_cons, List.sum_cons, Nat.add_assoc]
  tables := fun _ hi _ hj => h.tables ih hi hj
  pieces := fun _ hi hold => h.pieces ih hi hold
  others := fun i hi hni => by
    obtain ⟨hne, hnr⟩ : i ≠ s ∧ i ∉ rest := by simpa using hni
    rw [ih.others i (hi.trans_le h.le) hnr, h.head.others i hi hne]
  rela := h.rela ih
  sym := ih.sym.trans h.head.sym
  ehdr := ih.ehdr.trans h.head.ehdr
  textIndex := ih.textIndex.trans h.head.textIndex
  symtabIndex := ih.symtabIndex.trans h.head.symtabIndex

end AfterHead

/-- **`splitRelocations` splits every relocation section of `.text`.** -/
theorem splitRelocations_spec :
    ∀ {relocs : List Nat} {sp : Splitter}, relocs.Nodup → RecordsApart sp relocs →
      (∀ s ∈ relocs, s < sp.sectionCount ∧ 0 < (sp.shdr s).shEntsize) →
      RelocSplit sp funcs relocs (splitRelocations funcs sp relocs)
  | [], sp, _, _, _ => by
    refine ⟨rfl, fun _ h => absurd h List.not_mem_nil,
      fun i hi h => absurd (h hi) List.not_mem_nil, fun _ _ _ => rfl, fun o => ?_, rfl, rfl, rfl,
      rfl⟩
    rw [if_neg (by rintro ⟨s, hs, _⟩; exact absurd hs List.not_mem_nil)]
    rfl
  | s :: rest, sp, hnodup, hapart, hvalid => by
    obtain ⟨hnotin, hnodup'⟩ := List.nodup_cons.mp hnodup
    have hself : s ∈ s :: rest := List.mem_cons_self
    have hsub : ∀ i ∈ rest, i ∈ s :: rest := fun i hi => List.mem_cons_of_mem s hi
    have hneq : ∀ i ∈ rest, i ≠ s := fun i hi heq => hnotin (heq ▸ hi)
    have hstep : TableSplit sp funcs s (sp.splitRelaSection funcs s) :=
      splitRelaSection_spec (hvalid s hself).1 (hvalid s hself).2
    have hhead : AfterHead sp (sp.splitRelaSection funcs s) funcs s rest :=
      { head := hstep
        notMem := hnotin
        old := fun i hi => (hvalid i hi).1
        same := fun i hi => hstep.sameTable (hvalid i (hsub i hi)).1 (hneq i hi)
          (hapart s hself i (hsub i hi) (hneq i hi).symm) }
    refine hhead.relocSplit
      (splitRelocations_spec hnodup' (fun i hi i' hi' hne j hj j' hj' => ?_) fun i hi => ?_)
    · rw [(hhead.same i hi).header, (hhead.same i' hi').header]
      rw [(hhead.same i hi).records_eq] at hj
      rw [(hhead.same i' hi').records_eq] at hj'
      exact hapart i (hsub i hi) i' (hsub i' hi') hne j hj j' hj'
    · rw [(hhead.same i hi).header]
      exact ⟨(hvalid i (hsub i hi)).1.trans_le hhead.le, (hvalid i (hsub i hi)).2⟩

end RvLlvm.Lld.Csgorfe
