import RvLlvm.Isa.ISAInfo

/-!
# The closure under implication and combination

What `updateImplication` and `updateCombination` (`RISCVISAInfo.cpp:1071-1160`) leave behind.

* `Extends`: extensions are only added, with their default versions.
* **`closed_postProcessAndChecking`**: the result is closed under the tables.
* **`postProcessAndChecking_eq`**: a closed set is left as it is.
-/

namespace RvLlvm.Isa.RISCVISAInfo

open RvLlvm.Support

variable {I I' I'' : RISCVISAInfo} {name other : Str}

theorem count_iff : I.count name = true ↔ ∃ version, (⟨name⟩, version) ∈ I.exts.entries := by
  unfold count
  rw [Option.isSome_iff_exists]
  exact exists_congr fun version => OrderedMap.find_eq_some_iff

theorem count_of_mem {a : ExtName × Version} (h : a ∈ I.exts.entries) :
    I.count a.1.chars = true :=
  count_iff.mpr ⟨a.2, h⟩

/-- What the tables can add. -/
def addedNames : List Str :=
  "zcf".toList :: (combineIntoExts.map Prod.fst ++ impliedExts.flatMap Prod.snd)

/-- What is read off the tables. -/
theorem closure_tables :
    (∀ name ∈ addedNames, isSupportedExtension name = true ∧ name ≠ ['i'] ∧ name ≠ ['e']) ∧
    (∀ e ∈ impliedExts, impliedBy e.1 = e.2) ∧
    (∀ e ∈ combineIntoExts, impliedBy e.1 = e.2) ∧
    (∀ name ∈ impliedBy "zcf".toList, name ∈ impliedBy "zcb".toList) ∧
    "zcb".toList ∈ impliedBy "zce".toList := by decide +kernel

theorem supported_addedNames : ∀ name ∈ addedNames, isSupportedExtension name = true ∧
    name ≠ ['i'] ∧ name ≠ ['e'] := closure_tables.1

/-- Names of the tables are added, with their default versions, and nothing else changes. -/
structure Extends (I I' : RISCVISAInfo) : Prop where
  frame : I' = { I with exts := I'.exts }
  keeps : ∀ a ∈ I.exts.entries, a ∈ I'.exts.entries
  added : ∀ a ∈ I'.exts.entries, a ∈ I.exts.entries ∨
    a.1.chars ∈ addedNames ∧ findDefaultVersion a.1.chars = some a.2

namespace Extends

theorem refl (I : RISCVISAInfo) : Extends I I := ⟨rfl, fun _ h => h, fun _ h => .inl h⟩

theorem trans (h : Extends I I') (h' : Extends I' I'') : Extends I I'' where
  frame := by rw [h'.frame, h.frame]
  keeps a ha := h'.keeps a (h.keeps a ha)
  added a ha := (h'.added a ha).elim (h.added a) .inr

theorem count (h : Extends I I') (hcount : I.count name = true) : I'.count name = true := by
  obtain ⟨version, hmem⟩ := count_iff.mp hcount
  exact count_iff.mpr ⟨version, h.keeps _ hmem⟩

theorem xLen (h : Extends I I') : I'.xLen = I.xLen := by rw [h.frame]

theorem addExtension {version : Version} (hname : name ∈ addedNames)
    (hversion : findDefaultVersion name = some version) (hcount : I.count name = false) :
    Extends I (I.addExtension name version) where
  frame := rfl
  keeps a ha := (OrderedMap.mem_set _ _ _).mpr (.inr ⟨fun heq => by
    have hyes := count_of_mem ha
    rw [heq, hcount] at hyes
    exact Bool.noConfusion hyes, ha⟩)
  added a ha := by
    rcases (OrderedMap.mem_set _ _ _).mp ha with rfl | ha
    · exact .inr ⟨hname, hversion⟩
    · exact .inl ha.2

theorem addDefault (hname : name ∈ addedNames) (hcount : I.count name = false) :
    Extends I (I.addDefault name) := by
  unfold RISCVISAInfo.addDefault
  split
  · exact addExtension hname ‹_› hcount
  · exact refl I

end Extends

/-! ## Implication -/

/-- What a name implies is in the set. -/
def Satisfied (I : RISCVISAInfo) (name : Str) : Prop := ∀ other ∈ impliedBy name, I.count other = true

theorem addedNames_of_implied {names : List Str} (h : names ⊆ impliedExts.flatMap Prod.snd) :
    names ⊆ addedNames := fun _ hname =>
  List.mem_cons_of_mem _ (List.mem_append_right _ (h hname))

/-- The invariant of the work list: what is in the set and off the list is satisfied. -/
structure Working (I : RISCVISAInfo) (work : List Str) : Prop where
  present : ∀ name ∈ work, I.count name = true
  satisfied : ∀ name, I.count name = true → name ∈ work ∨ Satisfied I name

/-- What the inner loop does: a new name is put on the list. -/
structure Adds (I : RISCVISAInfo) (work names : List Str) (I' : RISCVISAInfo) (work' : List Str) :
    Prop where
  ext : Extends I I'
  listed : work ⊆ work'
  present : ∀ name ∈ work', I'.count name = true
  implied : ∀ name ∈ names, I'.count name = true
  fresh : ∀ name, I'.count name = true → I.count name = true ∨ name ∈ work'

variable {work : List Str}

theorem adds_addImplied {names : List Str} (hnames : names ⊆ impliedExts.flatMap Prod.snd)
    (hwork : ∀ name ∈ work, I.count name = true) :
    Adds I work names (addImplied I work names).1 (addImplied I work names).2 := by
  induction names generalizing I work with
  | nil => exact ⟨.refl I, List.Subset.refl _, hwork, fun _ h => absurd h List.not_mem_nil,
      fun _ => .inl⟩
  | cons name names ih =>
    have hadded := addedNames_of_implied hnames List.mem_cons_self
    obtain ⟨hname, hnames⟩ := List.cons_subset.mp hnames
    rw [addImplied]
    split
    case isTrue hold =>
      have hadds := ih hnames hwork
      refine ⟨hadds.ext, hadds.listed, hadds.present, fun other hother => ?_, hadds.fresh⟩
      rcases List.mem_cons.mp hother with rfl | hother
      · refine hadds.ext.count ?_
        rcases Bool.or_eq_true_iff.mp hold with hold | hold
        · exact hwork _ (List.contains_iff_mem.mp hold)
        · exact hold
      · exact hadds.implied other hother
    case isFalse hnew =>
      rw [Bool.or_eq_true, not_or, Bool.not_eq_true, Bool.not_eq_true] at hnew
      split
      case h_1 version hversion =>
        have hext := Extends.addExtension hadded hversion hnew.2
        have hself : (I.addExtension name version).count name = true := by
          rw [count_addExtension, decide_eq_true rfl, Bool.true_or]
        have hwork' : ∀ other ∈ work ++ [name], (I.addExtension name version).count other = true := by
          intro other hother
          rcases List.mem_append.mp hother with hother | hother
          · exact hext.count (hwork other hother)
          · exact List.mem_singleton.mp hother ▸ hself
        have hadds := ih hnames hwork'
        refine ⟨hext.trans hadds.ext, List.Subset.trans (List.subset_append_left _ _) hadds.listed,
          hadds.present, fun other hother => ?_, fun other hother => ?_⟩
        · rcases List.mem_cons.mp hother with rfl | hother
          · exact hadds.ext.count hself
          · exact hadds.implied other hother
        · rcases hadds.fresh other hother with hold | hold
          · rw [count_addExtension, Bool.or_eq_true, decide_eq_true_iff] at hold
            refine hold.symm.imp_right ?_
            rintro rfl
            exact hadds.listed (List.mem_append_right _ List.mem_cons_self)
          · exact .inr hold
      case h_2 hnone =>
        have hsupported := (supported_addedNames name hadded).1
        rw [isSupportedExtension, hnone] at hsupported
        exact absurd hsupported Bool.false_ne_true

theorem Satisfied.of_extends (h : Satisfied I name) (hext : Extends I I') : Satisfied I' name :=
  fun other hother => hext.count (h other hother)

/-- **The work list ends with everything satisfied.** -/
theorem imply_spec (h : Working I work) :
    Extends I (imply I work) ∧ ∀ name, (imply I work).count name = true →
      Satisfied (imply I work) name := by
  induction I, work using imply.induct with
  | case1 I =>
    rw [imply, dif_pos rfl]
    exact ⟨.refl I, fun name hname => (h.satisfied name hname).resolve_left List.not_mem_nil⟩
  | case2 I work hne r ih =>
    have hlast : work.dropLast ++ [work.getLast hne] = work := List.dropLast_append_getLast hne
    have hadds : Adds I work.dropLast (impliedBy (work.getLast hne)) r.1 r.2 :=
      adds_addImplied (impliedBy_subset _) fun name hname =>
        h.present name (List.dropLast_subset _ hname)
    have hworking : Working r.1 r.2 := by
      refine ⟨hadds.present, fun name hname => ?_⟩
      rcases hadds.fresh name hname with hold | hold
      · rcases h.satisfied name hold with hmem | hsat
        · rw [← hlast] at hmem
          rcases List.mem_append.mp hmem with hmem | hmem
          · exact .inl (hadds.listed hmem)
          · rw [List.mem_singleton.mp hmem]
            exact .inr hadds.implied
        · exact .inr (hsat.of_extends hadds.ext)
      · exact .inl hold
    rw [imply, dif_neg hne]
    exact ⟨hadds.ext.trans (ih hworking).1, (ih hworking).2⟩

/-- Nothing is added to a closed set. -/
theorem addImplied_eq {names : List Str} (h : ∀ name ∈ names, I.count name = true) :
    addImplied I work names = (I, work) := by
  induction names with
  | nil => rfl
  | cons name names ih =>
    rw [List.forall_mem_cons] at h
    rw [addImplied, h.1, Bool.or_true, if_pos rfl, ih h.2]

theorem imply_eq (h : ∀ name, I.count name = true → Satisfied I name)
    (hwork : ∀ name ∈ work, I.count name = true) : imply I work = I := by
  induction hn : work.length generalizing work with
  | zero => rw [imply, dif_pos (List.length_eq_zero_iff.mp hn)]
  | succ n ih =>
    have hne : work ≠ [] := List.ne_nil_of_length_eq_add_one hn
    rw [imply, dif_neg hne, addImplied_eq (h _ (hwork _ (List.getLast_mem hne)))]
    refine ih (fun name hname => hwork name (List.dropLast_subset _ hname)) ?_
    rw [List.length_dropLast, hn, Nat.add_sub_cancel]

/-! ## Closed sets -/

/-- Closed under the tables, with a base, and with `zcf` where it comes from `zce` and `f`. -/
structure Closed (I : RISCVISAInfo) : Prop where
  base : I.count ['i'] = true ∨ I.count ['e'] = true
  implied : ∀ e ∈ impliedExts, I.count e.1 = true → ∀ name ∈ e.2, I.count name = true
  combined : ∀ e ∈ combineIntoExts, (∀ name ∈ e.2, I.count name = true) → I.count e.1 = true
  zcf : I.xLen = 32 → I.count "zce".toList = true → I.count ['f'] = true →
    I.count "zcf".toList = true

theorem nodup_impliedExts : ∀ e ∈ impliedExts, impliedBy e.1 = e.2 := closure_tables.2.1

/-- The implied part of `Closed`, name by name. -/
theorem satisfied_iff : (∀ name, I.count name = true → Satisfied I name) ↔
    ∀ e ∈ impliedExts, I.count e.1 = true → ∀ name ∈ e.2, I.count name = true := by
  constructor
  · intro h e he hcount
    have hsat := h e.1 hcount
    rwa [Satisfied, nodup_impliedExts e he] at hsat
  · intro h name hcount other hother
    unfold impliedBy at hother
    cases hfind : impliedExts.find? fun e => e.1 = name with
    | none =>
      rw [hfind] at hother
      exact absurd hother List.not_mem_nil
    | some e =>
      rw [hfind] at hother
      have hname : e.1 = name := by simpa only [decide_eq_true_iff] using List.find?_some hfind
      exact h e (List.mem_of_find?_eq_some hfind) (hname ▸ hcount) other hother

/-- A name added keeps the set closed under implication, when what it implies is there. -/
theorem satisfied_addDefault (h : ∀ name, I.count name = true → Satisfied I name)
    (hname : name ∈ addedNames) (hcount : I.count name = false) (hsat : Satisfied I name) :
    ∀ other, (I.addDefault name).count other = true → Satisfied (I.addDefault name) other := by
  intro other hother
  have hext := Extends.addDefault hname hcount
  unfold addDefault at hother
  split at hother
  · rw [count_addExtension, Bool.or_eq_true, decide_eq_true_iff] at hother
    rcases hother with rfl | hother
    · exact hsat.of_extends hext
    · exact (h other hother).of_extends hext
  · exact (h other hother).of_extends hext

/-! ## `updateImplication` -/

theorem mem_work : name ∈ I.exts.entries.map (fun e => e.1.chars) ↔ I.count name = true := by
  rw [count_iff, List.mem_map]
  constructor
  · rintro ⟨a, ha, rfl⟩
    exact ⟨a.2, ha⟩
  · rintro ⟨version, h⟩
    exact ⟨_, h, rfl⟩

/-- The set with a base, which is `i` where none is given. -/
def withBase (I : RISCVISAInfo) : RISCVISAInfo :=
  if !I.count ['e'] && !I.count ['i'] then I.addDefault ['i'] else I

theorem supported_i : isSupportedExtension ['i'] = true := by decide

theorem count_withBase : I.withBase.count ['i'] = true ∨ I.withBase.count ['e'] = true := by
  unfold withBase
  split
  case isTrue => exact .inl (count_addDefault_self supported_i)
  case isFalse h =>
    rw [Bool.and_eq_true, Bool.not_eq_true', Bool.not_eq_true', not_and_or, Bool.not_eq_false,
      Bool.not_eq_false] at h
    exact h.symm

theorem withBase_eq (h : I.count ['i'] = true ∨ I.count ['e'] = true) : I.withBase = I := by
  unfold withBase
  rcases h with h | h
  · rw [h, Bool.not_true, Bool.and_false, if_neg Bool.false_ne_true]
  · rw [h, Bool.not_true, Bool.false_and, if_neg Bool.false_ne_true]

theorem zcf_added : "zcf".toList ∈ addedNames := List.mem_cons_self

theorem implied_zcf : ∀ name ∈ impliedBy "zcf".toList, name ∈ impliedBy "zcb".toList :=
  closure_tables.2.2.2.1

theorem zcb_implied : "zcb".toList ∈ impliedBy "zce".toList := closure_tables.2.2.2.2

/-- The set with `zcf`, where it comes from `zce` and `f`. -/
def withZcf (I : RISCVISAInfo) : RISCVISAInfo :=
  if I.xLen = 32 && I.count "zce".toList && I.count ['f'] && !I.count "zcf".toList then
    I.addDefault "zcf".toList
  else I

/-- What the work list leaves. -/
def implyAll (I : RISCVISAInfo) : RISCVISAInfo := imply I (I.exts.entries.map fun e => e.1.chars)

theorem updateImplication_eq (I : RISCVISAInfo) : I.updateImplication = I.withBase.implyAll.withZcf :=
  rfl

theorem implyAll_spec (I : RISCVISAInfo) : Extends I I.implyAll ∧
    ∀ name, I.implyAll.count name = true → Satisfied I.implyAll name :=
  imply_spec ⟨fun _ hname => mem_work.mp hname, fun _ hname => .inl (mem_work.mpr hname)⟩

theorem withZcf_spec (hsat : ∀ name, I.count name = true → Satisfied I name) :
    Extends I I.withZcf ∧ (∀ name, I.withZcf.count name = true → Satisfied I.withZcf name) ∧
      (I.xLen = 32 → I.withZcf.count "zce".toList = true → I.withZcf.count ['f'] = true →
        I.withZcf.count "zcf".toList = true) := by
  unfold withZcf
  split
  case isTrue hzcf =>
    rw [Bool.and_eq_true, Bool.and_eq_true, Bool.and_eq_true, Bool.not_eq_true'] at hzcf
    obtain ⟨⟨⟨-, hzce⟩, -⟩, hno⟩ := hzcf
    refine ⟨.addDefault zcf_added hno, ?_, fun _ _ _ => ?_⟩
    · refine satisfied_addDefault hsat zcf_added hno fun name hname => ?_
      exact hsat _ (hsat _ hzce _ zcb_implied) _ (implied_zcf name hname)
    · exact count_addDefault_self (supported_addedNames _ zcf_added).1
  case isFalse hzcf =>
    refine ⟨.refl I, hsat, fun hx hzce hf => ?_⟩
    rw [hzce, hf, Bool.and_true, Bool.and_true, decide_eq_true hx, Bool.true_and,
      Bool.not_eq_true', Bool.not_eq_false] at hzcf
    exact hzcf

theorem withZcf_eq (h : I.xLen = 32 → I.count "zce".toList = true → I.count ['f'] = true →
    I.count "zcf".toList = true) : I.withZcf = I := by
  unfold withZcf
  refine if_neg fun hzcf => ?_
  rw [Bool.and_eq_true, Bool.and_eq_true, Bool.and_eq_true, Bool.not_eq_true',
    decide_eq_true_iff] at hzcf
  obtain ⟨⟨⟨hx, hzce⟩, hf⟩, hno⟩ := hzcf
  rw [h hx hzce hf] at hno
  exact Bool.noConfusion hno

/-! ## `updateCombination` -/

theorem added_of_combined {e : Str × List Str} (he : e ∈ combineIntoExts) : e.1 ∈ addedNames :=
  List.mem_cons_of_mem _ (List.mem_append_left _ (List.mem_map_of_mem he))

theorem implied_combined : ∀ e ∈ combineIntoExts, impliedBy e.1 = e.2 := closure_tables.2.2.1

attribute [local grind =] updateCombination

/-- What a round of combination, or several, keeps and adds. -/
structure Combines (I I' : RISCVISAInfo) : Prop where
  ext : Extends I I'
  satisfied : ∀ name, I'.count name = true → Satisfied I' name
  fresh : ∀ name, I'.count name = true → I.count name = true ∨ name ∈ combineIntoExts.map Prod.fst

theorem Combines.trans (h : Combines I I') (h' : Combines I' I'') : Combines I I'' where
  ext := h.ext.trans h'.ext
  satisfied := h'.satisfied
  fresh name hname := (h'.fresh name hname).elim (h.fresh name) .inr

theorem hasAll_eq {e : Str × List Str} (he : e ∈ combineIntoExts) :
    e.2.all I.hasExtension = true ↔ ∀ name ∈ e.2, I.count name = true := by
  rw [List.all_eq_true]
  exact forall₂_congr fun name hname => by rw [hasExtension_eq he (List.mem_cons_of_mem _ hname)]

theorem combine_spec {table : List (Str × List Str)} (htable : table ⊆ combineIntoExts)
    (hsat : ∀ name, I.count name = true → Satisfied I name) :
    Combines I (I.combine table).1 ∧ ((I.combine table).2 = false → (I.combine table).1 = I ∧
      ∀ e ∈ table, (∀ name ∈ e.2, I.count name = true) → I.count e.1 = true) := by
  induction table generalizing I with
  | nil =>
    exact ⟨⟨.refl I, hsat, fun _ => .inl⟩, fun _ => ⟨rfl, fun _ h => absurd h List.not_mem_nil⟩⟩
  | cons e table ih =>
    obtain ⟨he, htable⟩ := List.cons_subset.mp htable
    rw [combine]
    split
    case isTrue hnew =>
      rw [Bool.and_eq_true, Bool.not_eq_true', hasExtension_eq he List.mem_cons_self,
        hasAll_eq he] at hnew
      have hreq : Satisfied I e.1 := fun other hother =>
        hnew.2 other (implied_combined e he ▸ hother)
      have hone : Combines I (I.addDefault e.1) := by
        refine ⟨.addDefault (added_of_combined he) hnew.1,
          satisfied_addDefault hsat (added_of_combined he) hnew.1 hreq, fun name hname => ?_⟩
        unfold addDefault at hname
        split at hname
        · rw [count_addExtension, Bool.or_eq_true, decide_eq_true_iff] at hname
          refine hname.symm.imp_right ?_
          rintro rfl
          exact List.mem_map_of_mem he
        · exact .inl hname
      exact ⟨hone.trans (ih htable hone.satisfied).1, fun h => absurd h Bool.noConfusion⟩
    case isFalse hnew =>
      obtain ⟨hcombines, hstop⟩ := ih htable hsat
      refine ⟨hcombines, fun h => ⟨(hstop h).1, fun e' he' => ?_⟩⟩
      rcases List.mem_cons.mp he' with rfl | he'
      · intro hreq
        rwa [(hasAll_eq he).mpr hreq, hasExtension_eq he List.mem_cons_self, Bool.and_true,
          Bool.not_eq_true', Bool.not_eq_false] at hnew
      · exact (hstop h).2 e' he'

/-- **The rounds end with everything combined.** -/
theorem updateCombination_spec (hsat : ∀ name, I.count name = true → Satisfied I name) :
    Combines I I.updateCombination ∧ ∀ e ∈ combineIntoExts,
      (∀ name ∈ e.2, I.updateCombination.count name = true) → I.updateCombination.count e.1 = true := by
  induction I using updateCombination.induct with
  | case1 I hnew ih =>
    obtain ⟨hcombines, -⟩ := combine_spec (List.Subset.refl _) hsat
    rw [updateCombination, if_pos hnew]
    exact ⟨hcombines.trans (ih hcombines.satisfied).1, (ih hcombines.satisfied).2⟩
  | case2 I hstop =>
    obtain ⟨hcombines, hend⟩ := combine_spec (List.Subset.refl _) hsat
    obtain ⟨heq, hall⟩ := hend (Bool.not_eq_true _ ▸ hstop)
    rw [updateCombination, if_neg hstop]
    exact ⟨hcombines, heq.symm ▸ hall⟩

/-- Nothing is combined in a closed set. -/
theorem updateCombination_eq
    (h : ∀ e ∈ combineIntoExts, (∀ name ∈ e.2, I.count name = true) → I.count e.1 = true) :
    I.updateCombination = I := by
  have hnone : ∀ {table : List (Str × List Str)}, table ⊆ combineIntoExts →
      I.combine table = (I, false) := by
    intro table htable
    induction table with
    | nil => rfl
    | cons e table ih =>
      obtain ⟨he, htable⟩ := List.cons_subset.mp htable
      rw [combine, if_neg fun hnew => ?_, ih htable]
      rw [Bool.and_eq_true, Bool.not_eq_true', hasExtension_eq he List.mem_cons_self,
        hasAll_eq he] at hnew
      rw [h e he hnew.2] at hnew
      exact Bool.noConfusion hnew.1
  rw [updateCombination, hnone (List.Subset.refl _), if_neg Bool.false_ne_true]

/-! ## The result -/

/-- The lengths, computed from the extensions. -/
def withLens (I : RISCVISAInfo) : RISCVISAInfo := I.updateFLen.updateMinVLen.updateMaxELen

theorem Closed.congr (h : Closed I) (hxlen : I'.xLen = I.xLen) (hexts : I'.exts = I.exts) :
    Closed I' := by
  have hcount : ∀ name, I'.count name = I.count name := fun name => by
    unfold RISCVISAInfo.count
    rw [hexts]
  refine ⟨?_, ?_, ?_, ?_⟩
  · simpa only [hcount] using h.base
  · simpa only [hcount] using h.implied
  · simpa only [hcount] using h.combined
  · simpa only [hcount, hxlen] using h.zcf

/-- The set that is checked: what is added, and that it is closed. -/
theorem closed_updates (I : RISCVISAInfo) :
    Extends I.withBase I.updateImplication.updateCombination ∧
      Closed I.updateImplication.updateCombination := by
  obtain ⟨himply, hsat⟩ := implyAll_spec I.withBase
  obtain ⟨hzcf, hsat, hrule⟩ := withZcf_spec hsat
  rw [← updateImplication_eq] at hzcf hsat hrule
  obtain ⟨hcombines, hcombined⟩ := updateCombination_spec hsat
  have hext := himply.trans (hzcf.trans hcombines.ext)
  refine ⟨hext, ⟨?_, satisfied_iff.mp hcombines.satisfied, hcombined, fun hx hzce hf => ?_⟩⟩
  · exact count_withBase.imp hext.count hext.count
  · rw [(hzcf.trans hcombines.ext).xLen] at hx
    have hold : ∀ name, name ∉ combineIntoExts.map Prod.fst →
        I.updateImplication.updateCombination.count name = true →
        I.updateImplication.count name = true := fun name hname hcount =>
      (hcombines.fresh name hcount).resolve_right hname
    exact hcombines.ext.count (hrule hx (hold _ (by decide +kernel) hzce) (hold _ (by decide +kernel) hf))

theorem updates_eq (h : Closed I) : I.updateImplication.updateCombination = I := by
  have hsat := satisfied_iff.mpr h.implied
  have himply : I.implyAll = I := imply_eq hsat fun _ hname => mem_work.mp hname
  rw [updateImplication_eq, withBase_eq h.base, himply, withZcf_eq h.zcf,
    updateCombination_eq h.combined]

/-- **What is accepted is closed**, and its lengths are those of its extensions. -/
theorem closed_postProcessAndChecking {R : RISCVISAInfo} (h : I.postProcessAndChecking = .ok R) :
    ∃ J, Extends I.withBase J ∧ Closed J ∧ R = J.withLens ∧ R.checkDependency = none := by
  obtain ⟨hext, hclosed⟩ := closed_updates I
  unfold postProcessAndChecking at h
  simp only at h
  split at h
  case h_1 => cases h
  case h_2 hnone => exact ⟨_, hext, hclosed, (Except.ok.inj h).symm, Except.ok.inj h ▸ hnone⟩

/-- **A closed set is left as it is.** -/
theorem postProcessAndChecking_eq (h : Closed I) (hcheck : I.withLens.checkDependency = none) :
    I.postProcessAndChecking = .ok I.withLens := by
  unfold postProcessAndChecking
  simp only [updates_eq h]
  split
  case h_1 hsome => exact absurd (hsome.symm.trans hcheck) (Option.some_ne_none _)
  case h_2 => rfl

end RvLlvm.Isa.RISCVISAInfo
