import RvLlvm.Lld.Csgorfe

/-!
# What the checks of `run` establish

An image `run` accepts has one `.text` header, one symbol table, and functions that are slices
of `.text` in order. This file reads that off the checks:

* `findCoreSections_spec`: `textIndex` is the only header `isTextHeader` accepts, `symtabIndex`
  the only symbol table.
* `plan_spec`: the planned functions form a `Plan`: a first function at offset 0, no empty one,
  each inside `.text` and ended before the next starts; the relocation sections of `.text` have
  12-byte records.
* `Plan.functionForOffset_spec`: the function an offset is assigned to is the last one that
  starts at or before it.
-/

namespace RvLlvm.Lld.Csgorfe

open RvLlvm.Elf RvLlvm.Support Splitter

/-! ## `findCoreSections` -/

/-- What the loop has found after `n` sections. -/
structure CoreFound (im : Image) (n : Nat) (found : Option Nat × Option Nat) : Prop where
  text : ∀ t, found.1 = some t → t < n ∧ isTextHeader (im.shdr t) = true
  text_only : ∀ i < n, isTextHeader (im.shdr i) = true → found.1 = some i
  symtab : ∀ s, found.2 = some s → s < n ∧ (im.shdr s).shType = shtSymtab
  symtab_only : ∀ i < n, (im.shdr i).shType = shtSymtab → found.2 = some i

/-- How the loop looks for a section with one property: the last match, none seen twice. -/
theorem found_step {n : Nat} {p : Nat → Bool} {old new : Option Nat}
    (hlt : ∀ u, old = some u → u < n ∧ p u = true)
    (honly : ∀ i < n, p i = true → old = some i)
    (hnew : (if p n then (if old.isSome then none else some (some n)) else some old) = some new) :
    (∀ u, new = some u → u < n + 1 ∧ p u = true) ∧ ∀ i < n + 1, p i = true → new = some i := by
  by_cases hp : p n = true
  · rw [if_pos hp] at hnew
    by_cases hold : old.isSome = true
    · rw [if_pos hold] at hnew
      exact absurd hnew (by simp)
    · rw [if_neg hold] at hnew
      obtain rfl := Option.some.inj hnew
      refine ⟨fun u hu => ?_, fun i hi hpi => ?_⟩
      · obtain rfl := Option.some.inj hu
        exact ⟨Nat.lt_succ_self _, hp⟩
      · rcases Nat.lt_succ_iff_lt_or_eq.mp hi with hi | rfl
        · exact absurd (by rw [honly i hi hpi]; rfl) hold
        · rfl
  · rw [if_neg hp] at hnew
    obtain rfl := Option.some.inj hnew
    refine ⟨fun u hu => ⟨Nat.lt_succ_of_lt (hlt u hu).1, (hlt u hu).2⟩, fun i hi hpi => ?_⟩
    rcases Nat.lt_succ_iff_lt_or_eq.mp hi with hi | rfl
    · exact honly i hi hpi
    · exact absurd hpi hp

theorem coreStep_found {im : Image} {n : Nat} {found found' : Option Nat × Option Nat}
    (h : CoreFound im n found) (hs : coreStep im n found = some found') :
    CoreFound im (n + 1) found' := by
  unfold coreStep at hs
  simp only at hs
  split at hs
  · exact absurd hs (by simp)
  split at hs
  · rename_i t s ht hsym
    obtain rfl := Option.some.inj hs
    obtain ⟨htext, htext_only⟩ := found_step (p := fun i => isTextHeader (im.shdr i)) h.text
      h.text_only ht
    obtain ⟨hsymtab, hsymtab_only⟩ := found_step (p := fun i => (im.shdr i).shType == shtSymtab)
      (fun u hu => ⟨(h.symtab u hu).1, beq_iff_eq.mpr (h.symtab u hu).2⟩)
      (fun i hi hty => h.symtab_only i hi (beq_iff_eq.mp hty)) hsym
    exact
      { text := htext
        text_only := htext_only
        symtab := fun u hu => ⟨(hsymtab u hu).1, beq_iff_eq.mp (hsymtab u hu).2⟩
        symtab_only := fun i hi hty => hsymtab_only i hi (beq_iff_eq.mpr hty) }
  · exact absurd hs (by simp)

theorem coreLoop_found {im : Image} :
    ∀ {n : Nat} {found : Option Nat × Option Nat}, coreLoop im n = some found →
      CoreFound im n found
  | 0, found, h => by
    obtain rfl := Option.some.inj h
    exact ⟨fun _ h => absurd h (by simp), fun _ h => absurd h (Nat.not_lt_zero _),
      fun _ h => absurd h (by simp), fun _ h => absurd h (Nat.not_lt_zero _)⟩
  | n + 1, found, h => by
    rw [coreLoop, Option.bind_eq_some_iff] at h
    obtain ⟨found', h', hs⟩ := h
    exact coreStep_found (coreLoop_found h') hs

/-- **`.text` and the symbol table are unique**: what `findCoreSections` returns describes `im`;
`textIndex` is the only header `isTextHeader` accepts and `symtabIndex` the only symbol table. -/
theorem findCoreSections_spec {im : Image} {sp : Splitter} (h : findCoreSections im = some sp) :
    sp.toImage = im ∧ sp.sectionCount = im.ehdr.eShnum ∧ sp.textIndex < sp.sectionCount ∧
      isTextHeader sp.text = true ∧
      (∀ i < sp.sectionCount, isTextHeader (sp.shdr i) = true → i = sp.textIndex) ∧
      sp.symtabIndex < sp.sectionCount ∧ (sp.shdr sp.symtabIndex).shType = shtSymtab ∧
      ∀ i < sp.sectionCount, (sp.shdr i).shType = shtSymtab → i = sp.symtabIndex := by
  unfold findCoreSections at h
  split at h
  · rename_i text symtab hloop
    have hf := coreLoop_found hloop
    simp only at h
    split at h
    · exact absurd h (by simp)
    split at h
    · obtain rfl := Option.some.inj h
      obtain ⟨hlt, htext⟩ := hf.text text rfl
      exact ⟨rfl, rfl, hlt, htext,
        fun i hi hti => (Option.some.inj (hf.text_only i hi hti)).symm,
        (hf.symtab symtab rfl).1, (hf.symtab symtab rfl).2,
        fun i hi hty => (Option.some.inj (hf.symtab_only i hi hty)).symm⟩
    · exact absurd h (by simp)
  · exact absurd h (by simp)

/-! ## `collectFunctions` -/

/-- Every collected function has a positive size. -/
def AllSized (fs : List FunctionInfo) : Prop := ∀ f ∈ fs, 0 < f.size

theorem collectLoop_sized (sp : Splitter) :
    ∀ {n : Nat} {fs : List FunctionInfo}, sp.collectLoop n = some fs → AllSized fs
  | 0, fs, h => by
    obtain rfl := Option.some.inj h
    exact fun _ hf => absurd hf List.not_mem_nil
  | n + 1, fs, h => by
    rw [collectLoop, Option.bind_eq_some_iff] at h
    obtain ⟨fs', hfs', h⟩ := h
    have ih := collectLoop_sized sp hfs'
    simp only at h
    split at h
    · obtain rfl := Option.some.inj h
      exact ih
    · rename_i hfun
      split at h
      · exact absurd h (by simp)
      · obtain rfl := Option.some.inj h
        intro f hf
        rcases List.mem_append.mp hf with hf | hf
        · exact ih f hf
        · obtain rfl := List.mem_singleton.mp hf
          simp only [isFunction, Bool.not_eq_true', Bool.not_eq_false, Bool.and_eq_true,
            bne_iff_ne] at hfun
          exact Nat.pos_of_ne_zero hfun.2

theorem uniqueLoop_sized :
    ∀ {last : FunctionInfo} {fs : List FunctionInfo}, 0 < last.size → AllSized fs →
      AllSized (uniqueLoop last fs)
  | last, [], hl, _ => fun f hf => by
    obtain rfl := List.mem_singleton.mp hf
    exact hl
  | last, g :: fs, hl, hfs => by
    have hg := hfs g List.mem_cons_self
    have hfs' : AllSized fs := fun f hf => hfs f (List.mem_cons_of_mem g hf)
    unfold uniqueLoop
    split
    · exact uniqueLoop_sized (Nat.lt_of_lt_of_le hl (Nat.le_max_left _ _)) hfs'
    · intro f hf
      rcases List.mem_cons.mp hf with rfl | hf
      · exact hl
      · exact uniqueLoop_sized hg hfs' f hf

theorem collectFunctions_sized (sp : Splitter) : AllSized sp.collectFunctions := by
  unfold collectFunctions
  split
  · exact fun _ hf => absurd hf List.not_mem_nil
  · rename_i fs hfs
    have hsorted : AllSized (fs.insertionSort fun a b => !before b a) := fun f hf =>
      collectLoop_sized sp hfs f ((List.mem_insertionSort _).mp hf)
    cases hl : fs.insertionSort fun a b => !before b a with
    | nil => exact fun _ hf => absurd hf List.not_mem_nil
    | cons g gs =>
      rw [hl] at hsorted
      exact uniqueLoop_sized (hsorted g List.mem_cons_self)
        fun f hf => hsorted f (List.mem_cons_of_mem g hf)

/-! ## `validateFunctions` -/

theorem validateLoop_spec {textSize : Nat} :
    ∀ {fs : List FunctionInfo}, validateLoop textSize fs = true →
      (∀ f ∈ fs, f.start + f.size ≤ textSize) ∧
      ∀ i (h : i + 1 < fs.length), fs[i].start + fs[i].size ≤ fs[i + 1].start
  | [], _ => ⟨fun _ h => absurd h List.not_mem_nil, fun i h => absurd h (Nat.not_lt_zero _)⟩
  | [f], h => by
    refine ⟨fun g hg => ?_, fun i hi => absurd hi (by simp)⟩
    obtain rfl := List.mem_singleton.mp hg
    simpa [validateLoop] using h
  | f :: g :: fs, h => by
    simp only [validateLoop, Bool.and_eq_true, decide_eq_true_eq] at h
    obtain ⟨⟨hend, hnext⟩, hrest⟩ := h
    obtain ⟨hends, hnexts⟩ := validateLoop_spec hrest
    refine ⟨fun e he => ?_, fun i hi => ?_⟩
    · rcases List.mem_cons.mp he with rfl | he
      · exact hend
      · exact hends e he
    · cases i with
      | zero => exact hnext
      | succ i => exact hnexts i (by simpa using hi)

theorem startsSorted_of_apart {fs : List FunctionInfo} (hpos : AllSized fs)
    (h : ∀ i (h : i + 1 < fs.length), fs[i].start + fs[i].size ≤ fs[i + 1].start) :
    StartsSorted FunctionInfo.start fs := by
  have hchain : fs.IsChain fun a b => a.start < b.start := by
    rw [List.isChain_iff_getElem]
    intro i hi
    have := h i hi
    have := hpos fs[i] (List.getElem_mem _)
    omega
  exact hchain.pairwise

/-! ## The plan -/

/-- What `run` knows once it starts to rewrite the image `sp` describes. -/
structure Plan (sp : Splitter) (funcs : List FunctionInfo) (relocs : List Nat) : Prop where
  several : 1 < funcs.length
  first : ∀ h : 0 < funcs.length, funcs[0].start = 0
  slices : Slices FunctionInfo.start FunctionInfo.size funcs
  sized : AllSized funcs
  inText : ∀ f ∈ funcs, f.start + f.size ≤ sp.text.shSize
  isReloc : ∀ i ∈ relocs, i < sp.sectionCount ∧ (sp.shdr i).shType = shtRela ∧
    (sp.shdr i).shInfo = sp.textIndex
  allRelocs : ∀ i < sp.sectionCount, (sp.shdr i).shType = shtRela →
    (sp.shdr i).shInfo = sp.textIndex → i ∈ relocs
  nodup : relocs.Nodup
  entsize : ∀ i ∈ relocs, (sp.shdr i).shEntsize = sizeofRela
  whole : ∀ i ∈ relocs, (sp.shdr i).shSize % (sp.shdr i).shEntsize = 0

theorem validateRelocations_spec {sp : Splitter} {relocs : List Nat}
    (h : relocs.isEmpty = false → sp.validateRelocations relocs = true) :
    ∀ i ∈ relocs, (sp.shdr i).shEntsize = sizeofRela ∧
      (sp.shdr i).shSize % (sp.shdr i).shEntsize = 0 := by
  intro i hi
  have hne : relocs.isEmpty = false := by
    cases relocs with
    | nil => exact absurd hi List.not_mem_nil
    | cons _ _ => rfl
  have hi' := List.all_eq_true.mp (h hne) i hi
  simp only [Bool.and_eq_true, beq_iff_eq] at hi'
  exact hi'.1

/-- **The checks make a plan.** -/
theorem plan_spec {sp : Splitter} {funcs : List FunctionInfo} {relocs : List Nat}
    (h : plan sp = some (funcs, relocs)) : Plan sp funcs relocs := by
  unfold plan at h
  simp only at h
  split at h
  · exact absurd h (by simp)
  rename_i hfun
  split at h
  · exact absurd h (by simp)
  rename_i hrel
  split at h
  · exact absurd h (by simp)
  simp only [Option.some.injEq, Prod.mk.injEq] at h
  obtain ⟨rfl, rfl⟩ := h
  simp only [Bool.or_eq_true, decide_eq_true_eq, Bool.not_eq_true', not_or, Nat.not_le,
    Bool.not_eq_false] at hfun
  obtain ⟨hlen, hvalid⟩ := hfun
  simp only [validateFunctions, Bool.and_eq_true, beq_iff_eq] at hvalid
  obtain ⟨hhead, hloop⟩ := hvalid
  obtain ⟨hends, hapart⟩ := validateLoop_spec hloop
  have hsized := collectFunctions_sized sp
  have hrelocs : ∀ i ∈ sp.collectTextRelaSections, (sp.shdr i).shEntsize = sizeofRela ∧
      (sp.shdr i).shSize % (sp.shdr i).shEntsize = 0 :=
    validateRelocations_spec fun hne => by simpa [hne] using hrel
  have hmem : ∀ i, i ∈ sp.collectTextRelaSections ↔ i < sp.sectionCount ∧
      (sp.shdr i).shType = shtRela ∧ (sp.shdr i).shInfo = sp.textIndex := by
    intro i
    simp [collectTextRelaSections, List.mem_filter]
  refine
    { several := hlen
      first := ?_
      slices := ⟨startsSorted_of_apart hsized hapart, hapart⟩
      sized := hsized
      inText := hends
      isReloc := fun i hi => (hmem i).mp hi
      allRelocs := fun i hi hty hinfo => (hmem i).mpr ⟨hi, hty, hinfo⟩
      nodup := List.nodup_range.filter _
      entsize := fun i hi => (hrelocs i hi).1
      whole := fun i hi => (hrelocs i hi).2 }
  intro h
  rw [List.head?_eq_getElem?, List.getElem?_eq_getElem h] at hhead
  simpa using hhead

namespace Plan

variable {sp : Splitter} {funcs : List FunctionInfo} {relocs : List Nat}

/-- **The function an offset is assigned to** is the last one that starts at or before it. -/
theorem functionForOffset_spec (h : Plan sp funcs relocs) (x : Nat) :
    ∃ hi : functionForOffset funcs x < funcs.length,
      (funcs[functionForOffset funcs x]).start ≤ x ∧
      ∀ j (hj : j < funcs.length), functionForOffset funcs x < j → x < funcs[j].start :=
  have hne : 0 < funcs.length := Nat.lt_trans Nat.zero_lt_one h.several
  floorIndex_spec h.slices.sorted hne (by rw [h.first hne]; exact Nat.zero_le x)

/-- A relocation section of `.text` is not `.text`. -/
theorem ne_text (h : Plan sp funcs relocs) (ht : isTextHeader sp.text = true) {i : Nat}
    (hi : i ∈ relocs) : i ≠ sp.textIndex := by
  rintro rfl
  have hr := (h.isReloc _ hi).2.1
  simp only [isTextHeader, text, hr] at ht
  simp [shtRela, shtProgbits] at ht

end Plan

end RvLlvm.Lld.Csgorfe
