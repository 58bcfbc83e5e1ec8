import RvLlvm.Isa.ExtString

/-!
# What a normalized string makes the parser read

`parseNormalizedArchString` takes any text in front of a version for the name of an extension. This
is the parser again, with the reads of characters and numbers that are not there (`none`): the order
of the map reads the first letter of a name, and the second one after `z`; `updateMaxELen` reads the
last letter after `zve`, and a number that it does not ask to have been parsed
(`llvm/lib/Support/RISCVISAInfo.cpp:364-414` and `:1161-1189`).

* `readNormalizedArchString_eq`: where all is read, it is the parser.
* `reads_iff`: the strings for which all is read.
-/

namespace RvLlvm.Isa

open RISCVISAInfo RvLlvm.Support

/-- The letters that `getExtensionRank` reads. -/
def readRank : Str → Option Nat
  | [] => none
  | ['z'] => none
  | name => some (getExtensionRank name)

/-- A turn of `updateMaxELen`. -/
def readMaxELen (lens : Nat × Nat) (name : Str) : Option (Nat × Nat) :=
  if "zve".toList.isPrefixOf name then do
    let last ← (name.drop 3).getLast?
    let zveELen ← getAsInteger (name.drop 3).dropLast
    some (max lens.1 zveELen, max lens.2 (if last = 'f' then 32 else if last = 'd' then 64 else 0))
  else some lens

/-- A turn of `updateMinVLen`, which asks whether the number was parsed. -/
def readMinVLen (len : Nat) (name : Str) : Nat := max len ((zvlLen name).getD 0)

/-- What is updated from the map of extensions. -/
def readLens (I : RISCVISAInfo) : Option RISCVISAInfo := do
  let lens ← I.exts.entries.foldlM (fun lens e => readMaxELen lens e.1.chars) (I.maxELen, I.maxELenFp)
  some { I.updateFLen with
    minVLen := I.exts.entries.foldl (fun len e => readMinVLen len e.1.chars) I.minVLen
    maxELen := lens.1
    maxELenFp := lens.2 }

/-- The loop over the parts: a name is compared with those in the map when it is added. -/
def readNormalizedExts : List Str → RISCVISAInfo → Except String (Option RISCVISAInfo)
  | [], I => .ok (some I)
  | part :: parts, I =>
    match parseNormalizedExt part with
    | .error error => .error error
    | .ok (name, version) =>
      match readRank name with
      | none => .ok none
      | some _ => readNormalizedExts parts (I.addExtension name version)

/-- `parseNormalizedArchString`, with what it reads. -/
def readNormalizedArchString (arch : Str) : Except String (Option RISCVISAInfo) :=
  if arch.any Char.isUpper then .error "string must be lowercase"
  else
    let starts (base : String) := base.toList.isPrefixOf arch
    if !(starts "rv32i" || starts "rv32e" || starts "rv64i" || starts "rv64e") then
      .error "arch string must begin with valid base ISA"
    else
      let xLen := if starts "rv32i" || starts "rv32e" then 32 else 64
      match readNormalizedExts ((arch.drop 4).splitOn '_') (RISCVISAInfo.new xLen) with
      | .error error => .error error
      | .ok none => .ok none
      | .ok (some I) => .ok (readLens I)

/-! ## Parts -/

/-- A part of a normalized string: a name that does not end with a digit, and two numbers. -/
def NamedPart (part name : Str) : Prop :=
  ∃ major minor : Str, part = name ++ major ++ 'p' :: minor ∧
    (∀ c ∈ name.getLast?, c.isDigit = false) ∧
    (getAsInteger major).isSome = true ∧ (getAsInteger minor).isSome = true

theorem digits_of_getAsInteger {s : Str} (h : (getAsInteger s).isSome = true) :
    s ≠ [] ∧ ∀ c ∈ s, c.isDigit = true := by
  unfold getAsInteger at h
  split at h
  · cases h
  · rename_i hcond
    simp only [Bool.or_eq_true, decide_eq_true_eq, List.any_eq_true, not_or, not_exists, not_and,
      Bool.not_eq_true', Bool.not_eq_false] at hcond
    exact hcond

variable {name : Str}

theorem parseNormalizedExt_of_namedPart {part : Str} (h : NamedPart part name) :
    ∃ version, parseNormalizedExt part = .ok (name, version) := by
  obtain ⟨major, minor, rfl, hlast, hmajor, hminor⟩ := h
  obtain ⟨hmajor0, hmajorAll⟩ := digits_of_getAsInteger hmajor
  obtain ⟨hminor0, hminorAll⟩ := digits_of_getAsInteger hminor
  obtain ⟨majorVersion, hmajor⟩ := Option.isSome_iff_exists.mp hmajor
  obtain ⟨minorVersion, hminor⟩ := Option.isSome_iff_exists.mp hminor
  have hminorStr : ((name ++ major ++ 'p' :: minor).reverse.takeWhile (· ≠ 'p')).reverse = minor := by
    rw [List.reverse_append, List.reverse_cons, List.append_assoc, takeWhile_append_stop,
      List.reverse_reverse]
    · exact fun c hc => decide_eq_true (ne_of_isDigit (hminorAll c (List.mem_reverse.mp hc)) p_not_digit)
    · exact fun c hc => decide_eq_false fun hne => hne (Option.some.inj hc).symm
  have hhead : (name ++ major ++ 'p' :: minor).take
      ((name ++ major ++ 'p' :: minor).length - minor.length - 1) = name ++ major := by
    rw [List.length_append, List.length_cons, show (name ++ major).length + (minor.length + 1) -
      minor.length - 1 = (name ++ major).length by omega]
    exact List.take_left
  have hmajorStr : ((name ++ major).reverse.takeWhile Char.isDigit).reverse = major := by
    rw [List.reverse_append, takeWhile_append_stop, List.reverse_reverse]
    · exact fun c hc => hmajorAll c (List.mem_reverse.mp hc)
    · intro c hc
      rw [List.head?_reverse] at hc
      exact hlast c hc
  have hname : (name ++ major).take ((name ++ major).length - major.length) = name := by
    rw [List.length_append, Nat.add_sub_cancel]
    exact List.take_left
  have hshort : minor.length ≠ (name ++ major ++ 'p' :: minor).length := by
    rw [List.length_append, List.length_cons]
    omega
  refine ⟨⟨majorVersion, minorVersion⟩, ?_⟩
  unfold parseNormalizedExt
  simp only [hminorStr, hhead, hmajorStr, hname, hshort, hmajor0, hminor0, decide_false,
    Bool.or_false, Bool.false_eq_true, if_false, hmajor, hminor]

theorem namedPart_of_parseNormalizedExt {part : Str} {version : Version}
    (h : parseNormalizedExt part = .ok (name, version)) : NamedPart part name := by
  unfold parseNormalizedExt at h
  obtain ⟨minorRev, hminorRev⟩ : ∃ l, part.reverse.takeWhile (· ≠ 'p') = l := ⟨_, rfl⟩
  obtain ⟨rest, hrest⟩ : ∃ l, part.reverse.dropWhile (· ≠ 'p') = l := ⟨_, rfl⟩
  have hpart : part.reverse = minorRev ++ rest := by
    rw [← hminorRev, ← hrest, List.takeWhile_append_dropWhile]
  rw [hminorRev] at h
  dsimp only at h
  split at h
  · cases h
  rename_i hcond
  rw [Bool.or_eq_true, decide_eq_true_iff, decide_eq_true_iff, not_or] at hcond
  -- a `p` stands before the minor version
  obtain ⟨headRev, rfl⟩ : ∃ headRev, rest = 'p' :: headRev := by
    cases rest with
    | nil =>
      refine absurd ?_ hcond.1
      have hlen : part.length = minorRev.length := by
        rw [← List.append_nil minorRev, ← hpart, List.length_reverse]
      rw [List.length_reverse, hlen]
    | cons c headRev =>
      have hc := List.head?_dropWhile_not (fun c => decide (c ≠ 'p')) part.reverse
      rw [hrest] at hc
      have hcp : c = 'p' := by simpa using hc
      exact ⟨headRev, by rw [hcp]⟩
  have hpart' : part = headRev.reverse ++ 'p' :: minorRev.reverse := by
    rw [← List.reverse_reverse part, hpart]
    simp
  have hhead : part.take (part.length - minorRev.reverse.length - 1) = headRev.reverse := by
    rw [hpart', List.length_append, List.length_cons, show headRev.reverse.length +
      (minorRev.reverse.length + 1) - minorRev.reverse.length - 1 = headRev.reverse.length by omega]
    exact List.take_left
  rw [hhead] at h
  split at h
  · cases h
  rename_i minor hminor
  obtain ⟨majorRev, hmajorRev⟩ : ∃ l, headRev.takeWhile Char.isDigit = l := ⟨_, rfl⟩
  obtain ⟨nameRev, hnameRev⟩ : ∃ l, headRev.dropWhile Char.isDigit = l := ⟨_, rfl⟩
  have hsplit : headRev = majorRev ++ nameRev := by
    rw [← hmajorRev, ← hnameRev, List.takeWhile_append_dropWhile]
  rw [List.reverse_reverse, hmajorRev] at h
  split at h
  · cases h
  split at h
  · cases h
  rename_i major hmajor
  have hname : headRev.reverse.take (headRev.reverse.length - majorRev.reverse.length) =
      nameRev.reverse := by
    rw [hsplit, List.reverse_append, List.length_append, Nat.add_sub_cancel]
    exact List.take_left
  rw [hname] at h
  obtain ⟨rfl, -⟩ := Prod.mk.inj (Except.ok.inj h)
  refine ⟨majorRev.reverse, minorRev.reverse, ?_, fun c hc => ?_, ?_, ?_⟩
  · rw [hpart', hsplit, List.reverse_append]
  · rw [List.getLast?_reverse] at hc
    have hhead := List.head?_dropWhile_not Char.isDigit headRev
    rw [hnameRev] at hhead
    rw [Option.mem_def.mp hc] at hhead
    simpa using hhead
  · exact Option.isSome_iff_exists.mpr ⟨major, hmajor⟩
  · exact Option.isSome_iff_exists.mpr ⟨minor, hminor⟩

theorem exists_mem_addExtension {I : RISCVISAInfo} {name' : Str} {version : Version} :
    (∃ e ∈ (I.addExtension name version).exts.entries, e.1.chars = name') ↔
      name' = name ∨ ∃ e ∈ I.exts.entries, e.1.chars = name' := by
  unfold addExtension
  simp only [OrderedMap.mem_set]
  constructor
  · rintro ⟨e, rfl | ⟨-, he⟩, rfl⟩
    · exact .inl rfl
    · exact .inr ⟨e, he, rfl⟩
  · rintro (rfl | ⟨e, he, rfl⟩)
    · exact ⟨_, .inl rfl, rfl⟩
    · by_cases hkey : e.1 = ⟨name⟩
      · exact ⟨_, .inl rfl, congrArg ExtName.chars hkey.symm⟩
      · exact ⟨e, .inr ⟨hkey, he⟩, rfl⟩

/-! ## What is read -/

/-- The letters of the rank are there. -/
def RankedName (name : Str) : Prop := name ≠ [] ∧ name ≠ ['z']

/-- After `zve` stand the digits of a number and one letter. -/
def LengthName (name : Str) : Prop :=
  ∀ rest, name = 'z' :: 'v' :: 'e' :: rest →
    ∃ digits last, rest = digits ++ [last] ∧ (getAsInteger digits).isSome = true

/-- The names up to the first part that names nothing have the letters of their ranks. -/
def RanksRead : List Str → Prop
  | [] => True
  | part :: parts => ∀ name, NamedPart part name → RankedName name ∧ RanksRead parts

theorem readRank_isSome (name : Str) : (readRank name).isSome = true ↔ RankedName name := by
  unfold RankedName
  rcases name with - | ⟨c, - | ⟨d, rest⟩⟩
  · simp [readRank]
  · by_cases hc : c = 'z'
    · subst hc
      simp [readRank]
    · simp [readRank, hc]
  · simp [readRank]

theorem readMaxELen_isSome (lens : Nat × Nat) (name : Str) :
    (readMaxELen lens name).isSome = true ↔ LengthName name := by
  unfold readMaxELen LengthName
  by_cases hzve : "zve".toList.isPrefixOf name = true
  · obtain ⟨rest, rfl⟩ := List.isPrefixOf_iff_prefix.mp hzve
    rw [if_pos hzve]
    have hdrop : ("zve".toList ++ rest).drop 3 = rest := rfl
    have hname : "zve".toList ++ rest = 'z' :: 'v' :: 'e' :: rest := rfl
    rw [hdrop, hname]
    rcases List.eq_nil_or_concat rest with rfl | ⟨digits, last, rfl⟩
    · simp
    · cases hdigits : getAsInteger digits with
      | none => simp [hdigits]
      | some len => simp [hdigits]
  · rw [if_neg hzve]
    refine iff_of_true rfl fun rest hrest => absurd ?_ hzve
    rw [hrest]
    rfl

theorem foldlM_readMaxELen_isSome (names : List Str) (lens : Nat × Nat) :
    (names.foldlM readMaxELen lens).isSome = true ↔ ∀ name ∈ names, LengthName name := by
  induction names generalizing lens with
  | nil => simp
  | cons name names ih =>
    rw [List.foldlM_cons, List.forall_mem_cons, ← readMaxELen_isSome lens name]
    cases readMaxELen lens name with
    | none => simp
    | some lens' => simpa using ih lens'

theorem readLens_isSome (I : RISCVISAInfo) :
    (readLens I).isSome = true ↔ ∀ e ∈ I.exts.entries, LengthName e.1.chars := by
  have hread : (readLens I).isSome =
      ((I.exts.entries.map fun e => e.1.chars).foldlM readMaxELen (I.maxELen, I.maxELenFp)).isSome := by
    unfold readLens
    rw [List.foldlM_map]
    cases I.exts.entries.foldlM (fun lens e => readMaxELen lens e.1.chars)
      (I.maxELen, I.maxELenFp) <;> rfl
  rw [hread, foldlM_readMaxELen_isSome, List.forall_mem_map]

/-- What the loop over the parts reads and returns. -/
theorem readNormalizedExts_spec (parts : List Str) (I : RISCVISAInfo) :
    ((∃ error, readNormalizedExts parts I = .error error) ∧ RanksRead parts ∧
        ∃ part ∈ parts, ∀ name, ¬NamedPart part name) ∨
      (readNormalizedExts parts I = .ok none ∧ ¬RanksRead parts) ∨
      (∃ I', readNormalizedExts parts I = .ok (some I') ∧ parseNormalizedExts parts I = .ok I' ∧
        ∀ name, (∃ e ∈ I'.exts.entries, e.1.chars = name) ↔
          (∃ e ∈ I.exts.entries, e.1.chars = name) ∨ ∃ part ∈ parts, NamedPart part name) ∧
        RanksRead parts ∧ ∀ part ∈ parts, ∃ name, NamedPart part name := by
  induction parts generalizing I with
  | nil => exact .inr (.inr ⟨⟨I, rfl, rfl, fun name => by simp⟩, trivial, by simp⟩)
  | cons part parts ih =>
    cases hpart : parseNormalizedExt part with
    | error error =>
      have hnone : ∀ name, ¬NamedPart part name := by
        intro name hname
        obtain ⟨version, hok⟩ := parseNormalizedExt_of_namedPart hname
        rw [hpart] at hok
        cases hok
      exact .inl ⟨⟨error, by rw [readNormalizedExts, hpart]⟩, fun name hname => absurd hname (hnone name),
        part, List.mem_cons_self, hnone⟩
    | ok parsed =>
      obtain ⟨name, version⟩ := parsed
      have hnamed := namedPart_of_parseNormalizedExt hpart
      have hunique : ∀ name', NamedPart part name' ↔ name' = name := by
        refine fun name' => ⟨fun h => ?_, fun h => h ▸ hnamed⟩
        obtain ⟨version', hok⟩ := parseNormalizedExt_of_namedPart h
        rw [hpart] at hok
        exact (Prod.mk.inj (Except.ok.inj hok)).1.symm
      have hranks : RanksRead (part :: parts) ↔ RankedName name ∧ RanksRead parts := by
        refine ⟨fun h => h name hnamed, fun h name' hname' => ?_⟩
        rwa [(hunique name').mp hname']
      cases hrank : readRank name with
      | none =>
        refine .inr (.inl ⟨by rw [readNormalizedExts, hpart]; dsimp only; rw [hrank], fun h => ?_⟩)
        have hsome := (readRank_isSome name).mpr (hranks.mp h).1
        rw [hrank] at hsome
        cases hsome
      | some rank =>
        have hranked : RankedName name := (readRank_isSome name).mp (by rw [hrank]; rfl)
        have hread : readNormalizedExts (part :: parts) I =
            readNormalizedExts parts (I.addExtension name version) := by
          rw [readNormalizedExts, hpart]
          dsimp only
          rw [hrank]
        have hparse : parseNormalizedExts (part :: parts) I =
            parseNormalizedExts parts (I.addExtension name version) := by
          rw [parseNormalizedExts, hpart]
        rw [hread, hparse, hranks]
        rcases ih (I.addExtension name version) with
          ⟨herror, hrest, bad, hbad, hnone⟩ | ⟨hundef, hrest⟩ | ⟨⟨I', hok, hok', hmem⟩, hrest, hall⟩
        · exact .inl ⟨herror, ⟨hranked, hrest⟩, bad, List.mem_cons_of_mem _ hbad, hnone⟩
        · exact .inr (.inl ⟨hundef, fun h => hrest h.2⟩)
        · refine .inr (.inr ⟨⟨I', hok, hok', fun name' => ?_⟩, ⟨hranked, hrest⟩,
            List.forall_mem_cons.mpr ⟨⟨name, hnamed⟩, hall⟩⟩)
          rw [hmem, exists_mem_addExtension, List.exists_mem_cons_iff, hunique, or_assoc, or_left_comm]

/-- The base of a string is one that is read. -/
def BaseString (arch : Str) : Prop :=
  arch.any Char.isUpper = false ∧
    ("rv32i".toList.isPrefixOf arch || "rv32e".toList.isPrefixOf arch ||
      "rv64i".toList.isPrefixOf arch || "rv64e".toList.isPrefixOf arch) = true

/-! ## Where all is read -/

theorem readMaxELen_eq {lens lens' : Nat × Nat} (h : readMaxELen lens name = some lens') :
    lens' = (max lens.1 (zveLens name).1, max lens.2 (zveLens name).2) := by
  unfold readMaxELen at h
  unfold zveLens
  by_cases hzve : "zve".toList.isPrefixOf name = true
  · obtain ⟨rest, rfl⟩ := List.isPrefixOf_iff_prefix.mp hzve
    rw [if_pos hzve] at h ⊢
    have hdrop : ("zve".toList ++ rest).drop 3 = rest := rfl
    rw [hdrop] at h ⊢
    rcases List.eq_nil_or_concat' rest with rfl | ⟨digits, last, rfl⟩
    · cases h
    · cases hdigits : getAsInteger digits with
      | none => simp [hdigits] at h
      | some len =>
        have hlast : ("zve".toList ++ (digits ++ [last])).getLast? = some last := by
          rw [← List.append_assoc, List.getLast?_concat]
        rw [hlast, List.dropLast_concat, hdigits]
        rw [List.getLast?_concat, List.dropLast_concat, hdigits] at h
        simp only [Option.bind_eq_bind, Option.bind_some, Option.some.injEq] at h
        simp only [Option.getD_some, Option.some.injEq]
        exact h.symm
  · rw [if_neg hzve] at h ⊢
    rw [← Option.some.inj h, Nat.max_zero, Nat.max_zero]

theorem foldlM_readMaxELen_eq (names : List Str) {lens lens' : Nat × Nat}
    (h : names.foldlM readMaxELen lens = some lens') :
    lens' = (names.foldl (fun len name => max len (zveLens name).1) lens.1,
      names.foldl (fun len name => max len (zveLens name).2) lens.2) := by
  induction names generalizing lens with
  | nil => exact (Option.some.inj h).symm
  | cons name names ih =>
    rw [List.foldlM_cons] at h
    obtain ⟨next, hnext, hrest⟩ := Option.bind_eq_some_iff.mp h
    rw [ih hrest, readMaxELen_eq hnext]
    rfl

theorem readLens_eq {I I' : RISCVISAInfo} (h : readLens I = some I') :
    I' = I.updateFLen.updateMinVLen.updateMaxELen := by
  obtain ⟨lens, hlens, hI'⟩ := Option.bind_eq_some_iff.mp h
  have hmap : (I.exts.entries.map fun e => e.1.chars).foldlM readMaxELen (I.maxELen, I.maxELenFp) =
      some lens := by
    rw [List.foldlM_map]
    exact hlens
  have hlens' := foldlM_readMaxELen_eq _ hmap
  rw [List.foldl_map, List.foldl_map] at hlens'
  rw [← Option.some.inj hI', hlens']
  rfl

/-- A string has an error or is read through if and only if its base is none, or every name before
the first part without one has the letters of its rank and, where every part has a name, every `zve`
name has a number and a letter. -/
theorem reads_iff (arch : Str) :
    ((∃ error, readNormalizedArchString arch = .error error) ∨
        ∃ I, readNormalizedArchString arch = .ok (some I)) ↔
      ¬BaseString arch ∨
        (RanksRead ((arch.drop 4).splitOn '_') ∧
          ((∀ part ∈ (arch.drop 4).splitOn '_', ∃ name, NamedPart part name) →
            ∀ part ∈ (arch.drop 4).splitOn '_', ∀ name, NamedPart part name → LengthName name)) := by
  unfold readNormalizedArchString BaseString
  by_cases hupper : arch.any Char.isUpper = true
  · rw [if_pos hupper]
    exact iff_of_true (.inl ⟨_, rfl⟩) (.inl fun h => by rw [hupper] at h; cases h.1)
  rw [if_neg hupper, Bool.not_eq_true] at *
  rw [hupper]
  dsimp only
  obtain ⟨base, hbase⟩ : ∃ b, ("rv32i".toList.isPrefixOf arch || "rv32e".toList.isPrefixOf arch ||
      "rv64i".toList.isPrefixOf arch || "rv64e".toList.isPrefixOf arch) = b := ⟨_, rfl⟩
  rw [hbase]
  cases base with
  | false => exact iff_of_true (.inl ⟨_, rfl⟩) (.inl fun h => by cases h.2)
  | true =>
    obtain ⟨xLen, hxLen⟩ : ∃ n, (if ("rv32i".toList.isPrefixOf arch ||
      "rv32e".toList.isPrefixOf arch) = true then 32 else 64) = n := ⟨_, rfl⟩
    obtain ⟨parts, hparts⟩ : ∃ l, (arch.drop 4).splitOn '_' = l := ⟨_, rfl⟩
    rw [hxLen, hparts]
    have hthere : ¬¬(false = false ∧ true = true) := not_not.mpr ⟨rfl, rfl⟩
    rw [or_iff_right hthere, Bool.not_true, if_neg Bool.false_ne_true]
    rcases readNormalizedExts_spec parts (RISCVISAInfo.new xLen) with
      ⟨⟨error, herror⟩, hranks, bad, hbad, hnone⟩ | ⟨hundef, hranks⟩ | ⟨⟨I, hok, -, hmem⟩, hranks, hall⟩
    · rw [herror]
      refine iff_of_true (.inl ⟨error, rfl⟩) ⟨hranks, fun hnamed => ?_⟩
      obtain ⟨name, hname⟩ := hnamed bad hbad
      exact absurd hname (hnone name)
    · rw [hundef]
      refine iff_of_false ?_ fun h => hranks h.1
      rintro (⟨error, h⟩ | ⟨I, h⟩)
      · cases h
      · cases h
    · rw [hok]
      have hnew : ∀ name, ¬∃ e ∈ (RISCVISAInfo.new xLen).exts.entries, e.1.chars = name := by
        rintro name ⟨e, he, -⟩
        cases he
      have hlens : (∀ e ∈ I.exts.entries, LengthName e.1.chars) ↔
          ∀ part ∈ parts, ∀ name, NamedPart part name → LengthName name := by
        constructor
        · intro h part hpart name hname
          obtain ⟨e, he, rfl⟩ := (hmem name).mpr (.inr ⟨part, hpart, hname⟩)
          exact h e he
        · intro h e he
          obtain ⟨part, hpart, hname⟩ := ((hmem e.1.chars).mp ⟨e, he, rfl⟩).resolve_left (hnew _)
          exact h part hpart _ hname
      rw [and_iff_right hranks, forall_prop_of_true hall, ← hlens, ← readLens_isSome,
        Option.isSome_iff_exists]
      constructor
      · rintro (⟨error, h⟩ | ⟨I', h⟩)
        · cases h
        · exact ⟨I', Except.ok.inj h⟩
      · rintro ⟨I', h⟩
        exact .inr ⟨I', congrArg Except.ok h⟩

/-- An empty name between two underscores, and a `zve` name without a number. -/
theorem not_reads_empty_zve :
    readNormalizedArchString "rv64i2p1_1p0".toList = .ok none ∧
      readNormalizedArchString "rv64i2p1_zvefoo1p0".toList = .ok none ∧
      ¬∀ arch, (∃ error, readNormalizedArchString arch = .error error) ∨
        ∃ I, readNormalizedArchString arch = .ok (some I) := by
  have hzve : readNormalizedArchString "rv64i2p1_zvefoo1p0".toList = .ok none := rfl
  refine ⟨rfl, hzve, fun h => ?_⟩
  rcases h "rv64i2p1_zvefoo1p0".toList with ⟨error, h⟩ | ⟨I, h⟩
  · rw [hzve] at h
    cases h
  · rw [hzve] at h
    cases h

end RvLlvm.Isa
