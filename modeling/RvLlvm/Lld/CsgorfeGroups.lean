import RvLlvm.Lld.CsgorfeSplit

/-!
# What `splitRelocations` leaves in the relocation tables

Closed form of `splitRelocations` (`CSGORFE.h:324-357`), one section at a time.

* `GroupInv` is the invariant of the inner loop after `n` records: the groups
  `countRelocGroups` counts are the headers in use, group `m` covers a run of records with one
  function (`groupOf`), and exactly the first `n` records are rebased.
* `groupInv_loop`: the loop keeps it, by `groupStep_same` and `groupStep_new`.
-/

namespace RvLlvm.Lld.Csgorfe

open RvLlvm.Elf RvLlvm.Support Splitter

/-! ## The groups of a relocation section -/

section Groups

variable (sp : Splitter) (funcs : List FunctionInfo) (s : Nat)

/-- The groups among the first `n` records. -/
def groups (n : Nat) : Nat := (sp.groupsLoop funcs (sp.shdr s) n).1

/-- The function record `j` is assigned to. -/
def funcOf (j : Nat) : Nat :=
  functionForOffset funcs (sp.rela (relaOffset (sp.shdr s) j)).rOffset

/-- The group record `j` falls in. -/
def groupOf (j : Nat) : Nat := groups sp funcs s (j + 1) - 1

/-- The header of the group that covers records `a, …, b - 1`, all of function `f`. -/
def tableHeader (a b f : Nat) : Shdr :=
  { sp.shdr s with
    shOffset := relaOffset (sp.shdr s) a
    shSize := (b - a) * (sp.shdr s).shEntsize
    shInfo := (funcs.getD f ⟨0, 0, 0, 0⟩).sectionIndex }

/-- A record rebased to its function's section. -/
def rebase (r : Rela) : Rela :=
  { r with rOffset := r.rOffset -
      (funcs.getD (functionForOffset funcs r.rOffset) ⟨0, 0, 0, 0⟩).start }

theorem groupsLoop_snd_succ (n : Nat) :
    (sp.groupsLoop funcs (sp.shdr s) (n + 1)).2 = some (funcOf sp funcs s n) := by
  simp only [groupsLoop, funcOf]
  split
  · rename_i h
    exact h.symm
  · rfl

theorem groupsLoop_snd_zero : (sp.groupsLoop funcs (sp.shdr s) 0).2 = none := rfl

/-- A record of the previous record's function stays in its group; any other opens one. -/
theorem groups_succ (n : Nat) : groups sp funcs s (n + 1) =
    if some (funcOf sp funcs s n) = (sp.groupsLoop funcs (sp.shdr s) n).2
    then groups sp funcs s n else groups sp funcs s n + 1 := by
  simp only [groups, groupsLoop]
  by_cases h : some (funcOf sp funcs s n) = (sp.groupsLoop funcs (sp.shdr s) n).2
  · rw [if_pos h]
    unfold funcOf at h
    rw [if_pos h]
  · rw [if_neg h]
    unfold funcOf at h
    rw [if_neg h]

theorem groups_pos (n : Nat) : 0 < groups sp funcs s (n + 1) := by
  induction n with
  | zero =>
    rw [groups_succ, if_neg (by rw [groupsLoop_snd_zero]; exact Option.some_ne_none _)]
    exact Nat.succ_pos _
  | succ n ih =>
    rw [groups_succ]
    split <;> omega

theorem groupOf_lt (n : Nat) : groupOf sp funcs s n < groups sp funcs s (n + 1) := by
  have := groups_pos sp funcs s n
  unfold groupOf
  omega

theorem groups_mono {j n : Nat} (h : j ≤ n) : groups sp funcs s j ≤ groups sp funcs s n := by
  induction h with
  | refl => exact Nat.le_refl _
  | step _ ih =>
    refine ih.trans ?_
    rw [groups_succ]
    split <;> omega

/-- **The inner loop of `splitRelocations` after `n` records** of section `s`. -/
structure GroupInv (n : Nat) (st : GroupState) : Prop where
  count : st.sp.sectionCount = sp.sectionCount + (groups sp funcs s n - 1)
  offset : st.groupOffset = relaOffset (sp.shdr s) n
  func : st.currentFunc = (sp.groupsLoop funcs (sp.shdr s) n).2
  cur : st.currentRela =
    if n = 0 then none else some (home s sp.sectionCount (groups sp funcs s n - 1))
  tables : ∀ m < groups sp funcs s n, ∃ a b f, a < b ∧ b ≤ n ∧
    (m + 1 = groups sp funcs s n → b = n) ∧
    st.sp.shdr (home s sp.sectionCount m) = tableHeader sp funcs s a b f ∧
    ∀ j < n, (groupOf sp funcs s j = m ↔ a ≤ j ∧ j < b) ∧
      (a ≤ j → j < b → funcOf sp funcs s j = f)
  own : n = 0 → st.sp.shdr s = sp.shdr s
  others : ∀ i < sp.sectionCount, i ≠ s → st.sp.shdr i = sp.shdr i
  rela : ∀ o, st.sp.rela o =
    if ∃ j < n, o = relaOffset (sp.shdr s) j then rebase funcs (sp.rela o) else sp.rela o
  sym : st.sp.sym = sp.sym
  ehdr : st.sp.ehdr = sp.ehdr
  textIndex : st.sp.textIndex = sp.textIndex
  symtabIndex : st.sp.symtabIndex = sp.symtabIndex

end Groups

variable {sp : Splitter} {funcs : List FunctionInfo} {s : Nat}

theorem relaOffset_inj {sec : Shdr} (he : 0 < sec.shEntsize) {i j : Nat}
    (h : relaOffset sec i = relaOffset sec j) : i = j := by
  unfold relaOffset at h
  exact Nat.eq_of_mul_eq_mul_right he (Nat.add_left_cancel h)

theorem relaOffset_succ (sec : Shdr) (i : Nat) :
    relaOffset sec (i + 1) = relaOffset sec i + sec.shEntsize := by
  unfold relaOffset
  rw [Nat.succ_mul, Nat.add_assoc]

theorem groupInv_zero : GroupInv sp funcs s 0 (sp.groupLoop funcs s 0) where
  count := rfl
  offset := by simp [groupLoop, relaOffset]
  func := rfl
  cur := rfl
  tables := fun _ h => absurd h (Nat.not_lt_zero _)
  own := fun _ => rfl
  others := fun _ _ _ => rfl
  rela := fun o => by simp [groupLoop]
  sym := rfl
  ehdr := rfl
  textIndex := rfl
  symtabIndex := rfl

variable {n : Nat} {st : GroupState}

/-- The record the next step reads has not been rebased yet. -/
theorem GroupInv.next_rela (h : GroupInv sp funcs s n st) (he : 0 < (sp.shdr s).shEntsize) :
    st.sp.rela (relaOffset (sp.shdr s) n) = sp.rela (relaOffset (sp.shdr s) n) := by
  rw [h.rela, if_neg]
  rintro ⟨j, hj, hjn⟩
  exact absurd (relaOffset_inj he hjn) (by omega)

/-- A record of the current group's function extends its table by one record. -/
theorem groupStep_same (h : GroupInv sp funcs s n st) (he : 0 < (sp.shdr s).shEntsize) (hn : n ≠ 0)
    (hsame : some (funcOf sp funcs s n) = st.currentFunc) :
    let cur := home s sp.sectionCount (groups sp funcs s n - 1)
    groupStep funcs (sp.shdr s) s (relaOffset (sp.shdr s) n) st =
      { sp := (st.sp.setRela (relaOffset (sp.shdr s) n)
          (rebase funcs (sp.rela (relaOffset (sp.shdr s) n)))).setHeader cur
            { st.sp.shdr cur with
              shSize := (st.sp.shdr cur).shSize + (sp.shdr s).shEntsize }
        groupOffset := st.groupOffset + (sp.shdr s).shEntsize
        currentFunc := some (funcOf sp funcs s n)
        currentRela := some cur } := by
  have hcur := h.cur
  rw [if_neg hn] at hcur
  unfold funcOf at hsame
  simp only [groupStep, h.next_rela he, funcOf, rebase, if_pos hsame, hcur, Option.getD_some,
    setRela_shdr]

/-- A record of another function starts a new table with it. -/
theorem groupStep_new (h : GroupInv sp funcs s n st) (he : 0 < (sp.shdr s).shEntsize)
    (hnew : some (funcOf sp funcs s n) ≠ st.currentFunc) :
    let st' := groupStep funcs (sp.shdr s) s (relaOffset (sp.shdr s) n) st
    let cur := home s sp.sectionCount (groups sp funcs s n)
    st'.sp.shdr = Function.update st.sp.shdr cur
        (tableHeader sp funcs s n (n + 1) (funcOf sp funcs s n)) ∧
      st'.sp.sectionCount = sp.sectionCount + groups sp funcs s n ∧
      st'.sp.rela = Function.update st.sp.rela (relaOffset (sp.shdr s) n)
        (rebase funcs (sp.rela (relaOffset (sp.shdr s) n))) ∧
      st'.groupOffset = st.groupOffset + (sp.shdr s).shEntsize ∧
      st'.currentFunc = some (funcOf sp funcs s n) ∧ st'.currentRela = some cur ∧
      st'.sp.sym = st.sp.sym ∧ st'.sp.ehdr = st.sp.ehdr ∧
      st'.sp.textIndex = st.sp.textIndex ∧ st'.sp.symtabIndex = st.sp.symtabIndex := by
  have hcount := h.count
  have hcur := h.cur
  unfold funcOf at hnew
  cases n with
  | zero =>
    have hz : groups sp funcs s 0 = 0 := rfl
    rw [if_pos rfl] at hcur
    have hoff : relaOffset (sp.shdr s) 0 = (sp.shdr s).shOffset := by simp [relaOffset]
    simp only [groupStep, h.next_rela he, if_neg hnew, openGroup, hcur, hz, home_zero, h.own rfl,
      setHeader_shdr, setRela_shdr, Function.update_self, Function.update_idem, tableHeader,
      funcOf, setHeader_sectionCount, setRela_sectionCount, hcount, setHeader_rela, setRela_rela,
      rebase, setHeader_sym, setRela_sym, setHeader_ehdr, setRela_ehdr, setHeader_textIndex,
      setRela_textIndex, setHeader_symtabIndex, setRela_symtabIndex]
    simp [hoff]
  | succ n =>
    have hpos := groups_pos sp funcs s n
    rw [if_neg (Nat.succ_ne_zero n)] at hcur
    have hhome : st.sp.sectionCount = home s sp.sectionCount (groups sp funcs s (n + 1)) := by
      rw [hcount, home, if_neg (by omega)]
    simp only [groupStep, h.next_rela he, if_neg hnew, openGroup, hcur, setHeader_shdr,
      setRela_shdr, appendSectionHeader_shdr, Function.update_self, Function.update_idem,
      tableHeader, funcOf, setHeader_sectionCount, setRela_sectionCount,
      appendSectionHeader_sectionCount, setHeader_rela, setRela_rela, appendSectionHeader_rela,
      rebase, setHeader_sym, setRela_sym, appendSectionHeader_sym, setHeader_ehdr, setRela_ehdr,
      appendSectionHeader_ehdr, setHeader_textIndex, setRela_textIndex,
      appendSectionHeader_textIndex, setHeader_symtabIndex, setRela_symtabIndex,
      appendSectionHeader_symtabIndex, h.offset, hhome]
    refine ⟨?_, ?_, trivial, trivial, trivial, trivial, trivial, trivial, trivial, trivial⟩
    · congr 2
      rw [show n + 1 + 1 - (n + 1) = 1 by omega, Nat.one_mul, Nat.zero_add]
    · rw [home, if_neg (by omega)]
      omega

/-! ## One record more -/

theorem groups_same (h : some (funcOf sp funcs s n) = (sp.groupsLoop funcs (sp.shdr s) n).2) :
    groups sp funcs s (n + 1) = groups sp funcs s n := by
  rw [groups_succ, if_pos h]

theorem groups_new (h : some (funcOf sp funcs s n) ≠ (sp.groupsLoop funcs (sp.shdr s) n).2) :
    groups sp funcs s (n + 1) = groups sp funcs s n + 1 := by
  rw [groups_succ, if_neg h]

/-- An earlier record falls in one of the groups counted so far. -/
theorem groupOf_lt_of_lt {j : Nat} (h : j < n) : groupOf sp funcs s j < groups sp funcs s n :=
  (groupOf_lt sp funcs s j).trans_le (groups_mono sp funcs s h)

/-- The records rebased so far, once record `n` is. -/
theorem GroupInv.rela_succ (h : GroupInv sp funcs s n st) (o : Nat) :
    Function.update st.sp.rela (relaOffset (sp.shdr s) n)
        (rebase funcs (sp.rela (relaOffset (sp.shdr s) n))) o =
      if ∃ j < n + 1, o = relaOffset (sp.shdr s) j then rebase funcs (sp.rela o)
      else sp.rela o := by
  by_cases ho : o = relaOffset (sp.shdr s) n
  · subst ho
    rw [Function.update_self, if_pos ⟨n, Nat.lt_succ_self n, rfl⟩]
  · rw [Function.update_of_ne ho, h.rela]
    have hiff : (∃ j < n, o = relaOffset (sp.shdr s) j) ↔
        ∃ j < n + 1, o = relaOffset (sp.shdr s) j := by
      constructor
      · rintro ⟨j, hj, hoj⟩
        exact ⟨j, Nat.lt_succ_of_lt hj, hoj⟩
      · rintro ⟨j, hj, hoj⟩
        rcases Nat.lt_succ_iff_lt_or_eq.mp hj with hj | rfl
        · exact ⟨j, hj, hoj⟩
        · exact absurd hoj ho
    simp only [hiff]

/-- The invariant after a record that stays in the current group. -/
theorem GroupInv.step_same (h : GroupInv sp funcs s n st) (he : 0 < (sp.shdr s).shEntsize)
    (hs : s < sp.sectionCount) (hsame : some (funcOf sp funcs s n) = st.currentFunc) :
    GroupInv sp funcs s (n + 1)
      (groupStep funcs (sp.shdr s) s (relaOffset (sp.shdr s) n) st) := by
  have hn : n ≠ 0 := by
    rintro rfl
    rw [h.func, groupsLoop_snd_zero] at hsame
    exact absurd hsame (Option.some_ne_none _)
  have hloop : some (funcOf sp funcs s n) = (sp.groupsLoop funcs (sp.shdr s) n).2 := by
    rw [hsame, h.func]
  have hgroups := groups_same hloop
  have hpos : 0 < groups sp funcs s n := by
    rw [← hgroups]
    exact groups_pos sp funcs s n
  have hlast : groupOf sp funcs s n = groups sp funcs s n - 1 := by rw [groupOf, hgroups]
  rw [groupStep_same h he hn hsame]
  refine
    { count := by rw [hgroups]; exact h.count
      offset := by rw [relaOffset_succ, h.offset]
      func := (groupsLoop_snd_succ sp funcs s n).symm
      cur := by rw [if_neg (Nat.succ_ne_zero n), hgroups]
      tables := fun m hm => ?_
      own := fun h0 => absurd h0 (Nat.succ_ne_zero n)
      others := fun i hi hne => ?_
      rela := h.rela_succ
      sym := h.sym
      ehdr := h.ehdr
      textIndex := h.textIndex
      symtabIndex := h.symtabIndex }
  · rw [hgroups] at hm
    obtain ⟨a, b, f, hab, hbn, hopen, htable, hmem⟩ := h.tables m hm
    by_cases hml : m = groups sp funcs s n - 1
    · -- the open group: its table grows by the record
      obtain rfl := hopen (by omega)
      have hf : funcOf sp funcs s b = f := by
        obtain ⟨k, rfl⟩ := Nat.exists_eq_succ_of_ne_zero hn
        rw [groupsLoop_snd_succ, Option.some_inj] at hloop
        rw [hloop]
        exact (hmem k (Nat.lt_succ_self k)).2 (by omega) (Nat.lt_succ_self k)
      refine ⟨a, b + 1, f, by omega, Nat.le_refl _, fun _ => rfl, ?_, fun j hj => ?_⟩
      · rw [setHeader_shdr, ← hml, Function.update_self, htable]
        simp only [tableHeader, Shdr.mk.injEq, true_and, and_true]
        rw [Nat.succ_sub hab.le, Nat.succ_mul]
      · rcases Nat.lt_succ_iff_lt_or_eq.mp hj with hj | rfl
        · have := hmem j hj
          exact ⟨this.1.trans (by omega), fun h1 h2 => this.2 h1 hj⟩
        · exact ⟨by omega, fun _ _ => hf⟩
    · have hne : home s sp.sectionCount m ≠ home s sp.sectionCount (groups sp funcs s n - 1) :=
        fun heq => hml (home_inj hs heq)
      refine ⟨a, b, f, hab, by omega, by omega, ?_, fun j hj => ?_⟩
      · rw [setHeader_shdr, Function.update_of_ne hne, setRela_shdr]
        exact htable
      · rcases Nat.lt_succ_iff_lt_or_eq.mp hj with hj | rfl
        · exact hmem j hj
        · exact ⟨by omega, by omega⟩
  · rw [setHeader_shdr, Function.update_of_ne (home_ne hi hne), setRela_shdr]
    exact h.others i hi hne

/-- The invariant after a record that opens a group. -/
theorem GroupInv.step_new (h : GroupInv sp funcs s n st) (he : 0 < (sp.shdr s).shEntsize)
    (hs : s < sp.sectionCount) (hnew : some (funcOf sp funcs s n) ≠ st.currentFunc) :
    GroupInv sp funcs s (n + 1)
      (groupStep funcs (sp.shdr s) s (relaOffset (sp.shdr s) n) st) := by
  have hgroups : groups sp funcs s (n + 1) = groups sp funcs s n + 1 :=
    groups_new (by rw [← h.func]; exact hnew)
  have hlast : groupOf sp funcs s n = groups sp funcs s n := by
    rw [groupOf, hgroups, Nat.add_sub_cancel]
  obtain ⟨hshdr, hcount, hrela, hoffset, hfunc, hcur, hsym, hehdr, htext, hsymtab⟩ :=
    groupStep_new h he hnew
  refine
    { count := by rw [hcount, hgroups, Nat.add_sub_cancel]
      offset := by rw [hoffset, h.offset, relaOffset_succ]
      func := by rw [hfunc, groupsLoop_snd_succ]
      cur := by rw [hcur, if_neg (Nat.succ_ne_zero n), hgroups, Nat.add_sub_cancel]
      tables := fun m hm => ?_
      own := fun h0 => absurd h0 (Nat.succ_ne_zero n)
      others := fun i hi hne => ?_
      rela := fun o => by rw [hrela]; exact h.rela_succ o
      sym := by rw [hsym, h.sym]
      ehdr := by rw [hehdr, h.ehdr]
      textIndex := by rw [htext, h.textIndex]
      symtabIndex := by rw [hsymtab, h.symtabIndex] }
  · rw [hgroups] at hm
    rcases Nat.lt_succ_iff_lt_or_eq.mp hm with hm | rfl
    · obtain ⟨a, b, f, hab, hbn, _, htable, hmem⟩ := h.tables m hm
      have hne : home s sp.sectionCount m ≠ home s sp.sectionCount (groups sp funcs s n) :=
        fun heq => absurd (home_inj hs heq) (by omega)
      refine ⟨a, b, f, hab, by omega, by omega, ?_, fun j hj => ?_⟩
      · rw [hshdr, Function.update_of_ne hne]
        exact htable
      · rcases Nat.lt_succ_iff_lt_or_eq.mp hj with hj | rfl
        · exact hmem j hj
        · exact ⟨by omega, by omega⟩
    · -- the new group holds the record alone
      refine ⟨n, n + 1, funcOf sp funcs s n, Nat.lt_succ_self n, Nat.le_refl _, fun _ => rfl, ?_,
        fun j hj => ?_⟩
      · rw [hshdr, Function.update_self]
      · rcases Nat.lt_succ_iff_lt_or_eq.mp hj with hj | rfl
        · have hlt : groupOf sp funcs s j < groups sp funcs s n := groupOf_lt_of_lt hj
          exact ⟨by omega, by omega⟩
        · exact ⟨by omega, fun _ _ => rfl⟩
  · rw [hshdr, Function.update_of_ne (home_ne hi hne)]
    exact h.others i hi hne

/-- **The inner loop of `splitRelocations` keeps the invariant.** -/
theorem groupInv_loop (he : 0 < (sp.shdr s).shEntsize) (hs : s < sp.sectionCount) (n : Nat) :
    GroupInv sp funcs s n (sp.groupLoop funcs s n) := by
  induction n with
  | zero => exact groupInv_zero
  | succ n ih =>
    rw [groupLoop]
    by_cases hsame : some (funcOf sp funcs s n) = (sp.groupLoop funcs s n).currentFunc
    · exact ih.step_same he hs hsame
    · exact ih.step_new he hs hsame

end RvLlvm.Lld.Csgorfe
