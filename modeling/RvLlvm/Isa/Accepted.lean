import RvLlvm.Isa.NormalizedRoundTrip

/-!
# What the parsers accept

The invariants of the loops of `parseArchString` and `parseFeatures` (`RISCVISAInfo.cpp:556-892`):
what they collect can be written and read back.

* `valid_of_parseBaseline`, `valid_of_parseStdExts`, `valid_of_parseOtherExts`: the loops.
* **`accepted_of_parseArchString`**, **`accepted_of_parseFeatures`**: the set behind what is
  accepted.
-/

namespace RvLlvm.Isa

open RvLlvm.Support RISCVISAInfo

variable {check : Bool} {opts : Options} {I R : RISCVISAInfo}

/-! ## The base -/

theorem count_new (xLen : Nat) (name : Str) : (RISCVISAInfo.new xLen).count name = false := rfl

theorem eq_or_count_of_addDefault {name other : Str} (h : (I.addDefault name).count other = true) :
    other = name ∨ I.count other = true := by
  unfold addDefault at h
  split at h
  · rwa [count_addExtension, Bool.or_eq_true, decide_eq_true_iff] at h
  · exact .inr h

theorem count_foldl_addDefault {names : List Str} {other : Str} (hother : other ∉ names)
    (h : (names.foldl addDefault I).count other = true) : I.count other = true := by
  induction names generalizing I with
  | nil => exact h
  | cons name names ih =>
    rw [List.mem_cons, not_or] at hother
    exact (eq_or_count_of_addDefault (ih hother.2 h)).resolve_left hother.1

theorem valid_foldl_addDefault {names : List Str} (h : Valid check I) :
    Valid check (names.foldl addDefault I) := by
  induction names generalizing I with
  | nil => exact h
  | cons name names ih => exact ih h.addDefault

/-- One letter, alone. -/
theorem oneBase_of_single (name : Str) (h : ∀ other, I.count other = true → other = name) :
    OneBase I := fun hboth => by
  have heq := (h _ hboth.1).trans (h _ hboth.2).symm
  exact absurd heq (by decide)

theorem valid_of_parseBaseline {baseline : Char} {exts : Str} {xLen consumed : Nat}
    (hxlen : xLen = 32 ∨ xLen = 64) (hbaseline : baseline = 'e' ∨ baseline = 'i' ∨ baseline = 'g')
    (h : parseBaseline opts baseline exts (RISCVISAInfo.new xLen) = .ok (R, consumed)) :
    Valid opts.experimentalExtensionVersionCheck R ∧ OneBase R := by
  unfold parseBaseline at h
  split at h
  case isTrue =>
    obtain rfl := (Prod.mk.inj (Except.ok.inj h)).1
    refine ⟨valid_foldl_addDefault (.new hxlen), fun hboth => ?_⟩
    have hnot : ['e'] ∉ riscvGImplications := by decide
    have he := count_foldl_addDefault hnot hboth.2
    rw [count_new] at he
    cases he
  case isFalse hnotg =>
    have hsupported : isSupportedExtension [baseline] = true := by
      rcases hbaseline with rfl | rfl | rfl
      · decide
      · decide
      · exact absurd rfl hnotg
    split at h
    case h_1 version _ hversion =>
      obtain rfl := (Prod.mk.inj (Except.ok.inj h)).1
      refine ⟨(Valid.new hxlen).addExtension
        (readable_of_getExtensionVersion hsupported (congrArg Prod.fst hversion)), ?_⟩
      refine oneBase_of_single [baseline] fun other hother => ?_
      rwa [count_addExtension, count_new, Bool.or_false, decide_eq_true_iff] at hother
    case h_2 =>
      split at h
      · obtain rfl := (Prod.mk.inj (Except.ok.inj h)).1
        refine ⟨(Valid.new hxlen).addDefault, oneBase_of_single [baseline] fun other hother => ?_⟩
        refine (eq_or_count_of_addDefault hother).resolve_right fun hnew => ?_
        rw [count_new] at hnew
        cases hnew
      · cases h

/-! ## Single letters -/

theorem ne_base_of_mem {c : Char} (h : c ∈ allStdExts) : [c] ≠ ['i'] ∧ [c] ≠ ['e'] :=
  ⟨(rank_singles h).2.2.1, (rank_singles h).2.2.2.1⟩

theorem mem_of_dropWhile {itr rest : Str} {c d : Char} (h : itr.dropWhile (· ≠ c) = d :: rest) :
    c ∈ itr ∧ rest ⊆ itr := by
  constructor
  · by_contra hc
    have hnil : itr.dropWhile (· ≠ c) = [] := by
      rw [List.dropWhile_eq_nil_iff]
      exact fun e he => decide_eq_true fun heq => hc (heq ▸ he)
    rw [hnil] at h
    cases h
  · have hsub := (List.dropWhile_sublist (· ≠ c) (l := itr)).subset
    rw [h] at hsub
    exact (List.cons_subset.mp hsub).2

theorem valid_of_parseStdExts {stdExts itr s : Str} (hitr : itr ⊆ allStdExts)
    (hvalid : Valid opts.experimentalExtensionVersionCheck I) (hone : OneBase I)
    (h : parseStdExts opts stdExts itr s I = .ok R) :
    Valid opts.experimentalExtensionVersionCheck R ∧ OneBase R := by
  fun_induction parseStdExts opts stdExts itr s I
  case case1 => exact Except.ok.inj h ▸ ⟨hvalid, hone⟩
  -- an ignored letter
  case case4 hrest _ _ _ _ ih =>
    exact ih (List.Subset.trans (mem_of_dropWhile hrest).2 hitr) hvalid hone h
  case case6 hrest _ _ _ _ _ ih =>
    exact ih (List.Subset.trans (mem_of_dropWhile hrest).2 hitr) hvalid hone h
  -- a letter that is added
  case case8 hrest version _ hversion hsupported ih =>
    rw [Bool.not_eq_true', Bool.not_eq_false] at hsupported
    have hread := readable_of_getExtensionVersion hsupported (congrArg Prod.fst hversion)
    exact ih (List.Subset.trans (mem_of_dropWhile hrest).2 hitr) (hvalid.addExtension hread)
      (hone.addExtension (ne_base_of_mem (hitr (mem_of_dropWhile hrest).1))) h
  all_goals cases h

/-! ## The others -/

/-- A multi-letter extension starts with the letter of its kind, so it is no base. -/
theorem readable_of_parseOtherExt {s name : Str} {version : Version}
    (h : parseOtherExt opts s = .ok (some (name, version))) :
    (name ≠ ['i'] ∧ name ≠ ['e']) ∧ (isSupportedExtension name = true →
      Readable opts.experimentalExtensionVersionCheck name version) := by
  unfold parseOtherExt at h
  split at h
  · cases h
  · dsimp only at h
    split at h
    · split at h <;> cases h
    · split at h
      · cases h
      · rename_i hne htype _
        split at h
        · split at h <;> cases h
        · rename_i version' hversion
          obtain ⟨rfl, rfl⟩ := Prod.mk.inj (Option.some.inj (Except.ok.inj h))
          refine ⟨?_, fun hsupported => readable_of_getExtensionVersion hsupported hversion⟩
          cases s with
          | nil => exact absurd rfl hne
          | cons c s =>
            rw [List.take_succ_cons]
            constructor <;> intro heq <;> rw [(List.cons.inj heq).1] at htype <;> exact htype rfl

theorem valid_of_parseOtherExts {parts allExts allExts' : List Str}
    (h : parseOtherExts opts parts I allExts = .ok (R, allExts')) : allExts ⊆ allExts' ∧
      ((∀ name ∈ allExts', isSupportedExtension name = true) →
        Valid opts.experimentalExtensionVersionCheck I → OneBase I →
          Valid opts.experimentalExtensionVersionCheck R ∧ OneBase R) := by
  induction parts generalizing I allExts with
  | nil =>
    obtain ⟨rfl, rfl⟩ := Prod.mk.inj (Except.ok.inj h)
    exact ⟨List.Subset.refl _, fun _ hvalid hone => ⟨hvalid, hone⟩⟩
  | cons s parts ih =>
    rw [parseOtherExts] at h
    split at h
    case h_1 => cases h
    case h_2 => exact ih h
    case h_3 name version hother =>
      obtain ⟨hbase, hread⟩ := readable_of_parseOtherExt hother
      split at h
      · cases h
      · split at h
        · exact ih h
        · obtain ⟨hsub, hrest⟩ := ih h
          have hmem : name ∈ allExts' := hsub (List.mem_append_right _ List.mem_cons_self)
          exact ⟨List.Subset.trans (List.subset_append_left _ _) hsub, fun hall hvalid hone =>
            hrest hall (hvalid.addExtension (hread (hall name hmem))) (hone.addExtension hbase)⟩

/-! ## Arch strings and features -/

/-- What is accepted: the lengths of a set that can be written, closed, and checked. -/
structure Accepted (check : Bool) (J R : RISCVISAInfo) : Prop where
  valid : Valid check J
  closed : Closed J
  lens : R = J.withLens
  checked : R.checkDependency = none

theorem accepted_of_postProcessAndChecking (hvalid : Valid check I)
    (h : I.postProcessAndChecking = .ok R) : ∃ J, Accepted check J R ∧ (OneBase I → OneBase J) := by
  obtain ⟨J, hvalid, hclosed, hone, hR, hnone⟩ := valid_of_postProcessAndChecking hvalid h
  exact ⟨J, ⟨hvalid, hclosed, hR, hnone⟩, hone⟩

/-- **The set behind an accepted arch string.** -/
theorem accepted_of_parseArchString {arch : Str} (h : parseArchString opts arch = .ok R) :
    ∃ J, Accepted opts.experimentalExtensionVersionCheck J R ∧ OneBase J := by
  unfold parseArchString at h
  split at h
  · cases h
  dsimp only at h
  split at h
  · cases h
  split at h
  · cases h
  rename_i hbaseline
  split at h
  · cases h
  split at h
  · cases h
  split at h
  · cases h
  rename_i hstart
  split at h
  · cases h
  rename_i hstd
  split at h
  · cases h
  rename_i hother
  split at h
  · cases h
  rename_i hfind
  have hletter : arch.getD 4 ' ' = 'e' ∨ arch.getD 4 ' ' = 'i' ∨ arch.getD 4 ' ' = 'g' := by
    rw [Bool.and_eq_true, Bool.and_eq_true, decide_eq_true_iff, decide_eq_true_iff,
      decide_eq_true_iff, not_and_or, not_and_or, not_not, not_not, not_not, or_assoc] at hbaseline
    exact hbaseline
  have hxlen : ∀ p : Prop, ∀ [Decidable p], (if p then 64 else 32) = 32 ∨ (if p then 64 else 32) = 64 := by
    intro p _
    split
    · exact .inr rfl
    · exact .inl rfl
  have hitr : ∀ p : Prop, ∀ [Decidable p], (if p then allStdExts.drop 4 else allStdExts) ⊆ allStdExts := by
    intro p _
    split
    · exact List.drop_subset _ _
    · exact List.Subset.refl _
  have hall : ∀ name ∈ _, isSupportedExtension name = true := fun name hname => by
    have hnot := List.find?_eq_none.mp hfind name hname
    rwa [Bool.not_eq_true', Bool.not_eq_false] at hnot
  obtain ⟨hvalid, hone⟩ := valid_of_parseBaseline (hxlen _) hletter hstart
  obtain ⟨hvalid, hone⟩ := valid_of_parseStdExts (hitr _) hvalid hone hstd
  obtain ⟨hvalid, hone⟩ := (valid_of_parseOtherExts hother).2 hall hvalid hone
  obtain ⟨J, hJ, hkeep⟩ := accepted_of_postProcessAndChecking hvalid h
  exact ⟨J, hJ, hkeep hone⟩

theorem valid_applyFeature {feature : Str} (h : Valid check I) : Valid check (applyFeature I feature) := by
  unfold applyFeature
  split
  rename_i experimental name _
  split
  · exact h
  · rename_i version hfind
    split
    · refine h.addExtension (.of_mem ?_)
      cases experimental
      · exact List.mem_append_left _ (mem_of_findExtension hfind)
      · exact List.mem_append_right _ (mem_of_findExtension hfind)
    · exact h.erase _

theorem valid_foldl_applyFeature {features : List Str} (h : Valid check I) :
    Valid check (features.foldl applyFeature I) := by
  induction features generalizing I with
  | nil => exact h
  | cons feature features ih => exact ih (valid_applyFeature h)

/-- **The set behind an accepted list of features**, whether versions are checked or not. -/
theorem accepted_of_parseFeatures {xLen : Nat} {features : List Str} (hxlen : xLen = 32 ∨ xLen = 64)
    (h : parseFeatures xLen features = .ok R) : ∃ J, Accepted check J R := by
  obtain ⟨J, hJ, -⟩ := accepted_of_postProcessAndChecking (valid_foldl_applyFeature (.new hxlen)) h
  exact ⟨J, hJ⟩

end RvLlvm.Isa
