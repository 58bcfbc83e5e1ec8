import Mathlib.Data.List.Lex
import Mathlib.Data.Prod.Lex
import Mathlib.Data.Char
import RvLlvm.Support.OrderedMap

/-!
# RISC-V ISA strings

Model of `llvm/lib/Support/RISCVISAInfo.cpp`: the tables (lines 44-199), the order of extensions
(`:321-390`), `getExtensionVersion` (`:448-554`), the three parsers (`:556-892`) and what follows
them (`:894-1196`). A string is the list of its characters, and the tables are searched for an equal
name, as their lower bound is in a sorted table.
-/

namespace RvLlvm.Isa

open RvLlvm.Support

/-- The characters of a `StringRef`. -/
abbrev Str := List Char

/-- `RISCVExtensionVersion`. -/
structure Version where
  major : Nat
  minor : Nat
  deriving DecidableEq

/-! ## Tables -/

def ext (name : String) (major minor : Nat) : Str × Version := (name.toList, ⟨major, minor⟩)

/-- `AllStdExts`. -/
def allStdExts : Str := "mafdqlcbkjtpvnh".toList

/-- `RISCVGImplications`. -/
def riscvGImplications : List Str :=
  ["i", "m", "a", "f", "d", "zicsr", "zifencei"].map String.toList

/-- `SupportedExtensions`. -/
def supportedExtensions : List (Str × Version) :=
  [ext "a" 2 1, ext "c" 2 0, ext "d" 2 2, ext "e" 2 0, ext "f" 2 2, ext "h" 1 0, ext "i" 2 1,
   ext "m" 2 0, ext "svinval" 1 0, ext "svnapot" 1 0, ext "svpbmt" 1 0, ext "v" 1 0,
   ext "xcvbitmanip" 1 0, ext "xcvmac" 1 0, ext "xsfcie" 1 0, ext "xsfvcp" 1 0, ext "xtheadba" 1 0,
   ext "xtheadbb" 1 0, ext "xtheadbs" 1 0, ext "xtheadcmo" 1 0, ext "xtheadcondmov" 1 0,
   ext "xtheadfmemidx" 1 0, ext "xtheadmac" 1 0, ext "xtheadmemidx" 1 0, ext "xtheadmempair" 1 0,
   ext "xtheadsync" 1 0, ext "xtheadvdot" 1 0, ext "xventanacondops" 1 0, ext "zawrs" 1 0,
   ext "zba" 1 0, ext "zbb" 1 0, ext "zbc" 1 0, ext "zbkb" 1 0, ext "zbkc" 1 0, ext "zbkx" 1 0,
   ext "zbs" 1 0, ext "zca" 1 0, ext "zcb" 1 0, ext "zcd" 1 0, ext "zce" 1 0, ext "zcf" 1 0,
   ext "zcmp" 1 0, ext "zcmt" 1 0, ext "zdinx" 1 0, ext "zfh" 1 0, ext "zfhmin" 1 0,
   ext "zfinx" 1 0, ext "zhinx" 1 0, ext "zhinxmin" 1 0, ext "zicbom" 1 0, ext "zicbop" 1 0,
   ext "zicboz" 1 0, ext "zicntr" 1 0, ext "zicond" 1 0, ext "zicsr" 2 0, ext "zifencei" 2 0,
   ext "zihintpause" 2 0, ext "zihpm" 1 0, ext "zk" 1 0, ext "zkn" 1 0, ext "zknd" 1 0,
   ext "zkne" 1 0, ext "zknh" 1 0, ext "zkr" 1 0, ext "zks" 1 0, ext "zksed" 1 0, ext "zksh" 1 0,
   ext "zkt" 1 0, ext "zmmul" 1 0, ext "zve32f" 1 0, ext "zve32x" 1 0, ext "zve64d" 1 0,
   ext "zve64f" 1 0, ext "zve64x" 1 0, ext "zvfh" 1 0, ext "zvl1024b" 1 0, ext "zvl128b" 1 0,
   ext "zvl16384b" 1 0, ext "zvl2048b" 1 0, ext "zvl256b" 1 0, ext "zvl32768b" 1 0,
   ext "zvl32b" 1 0, ext "zvl4096b" 1 0, ext "zvl512b" 1 0, ext "zvl64b" 1 0, ext "zvl65536b" 1 0,
   ext "zvl8192b" 1 0]

/-- `SupportedExperimentalExtensions`. -/
def supportedExperimentalExtensions : List (Str × Version) :=
  [ext "smaia" 1 0, ext "ssaia" 1 0, ext "zacas" 1 0, ext "zfa" 0 2, ext "zfbfmin" 0 6,
   ext "zihintntl" 0 2, ext "ztso" 0 1, ext "zvbb" 1 0, ext "zvbc" 1 0, ext "zvfbfmin" 0 6,
   ext "zvfbfwma" 0 6, ext "zvkg" 1 0, ext "zvkn" 1 0, ext "zvknc" 1 0, ext "zvkned" 1 0,
   ext "zvkng" 1 0, ext "zvknha" 1 0, ext "zvknhb" 1 0, ext "zvks" 1 0, ext "zvksc" 1 0,
   ext "zvksed" 1 0, ext "zvksg" 1 0, ext "zvksh" 1 0, ext "zvkt" 1 0]

def implies (name : String) (exts : List String) : Str × List Str :=
  (name.toList, exts.map String.toList)

/-- `ImpliedExts`. -/
def impliedExts : List (Str × List Str) :=
  [implies "d" ["f"], implies "f" ["zicsr"], implies "v" ["zvl128b", "zve64d"],
   implies "xsfvcp" ["zve32x"], implies "xtheadvdot" ["v"], implies "zacas" ["a"],
   implies "zcb" ["zca"], implies "zcd" ["zca"], implies "zce" ["zcb", "zcmp", "zcmt"],
   implies "zcf" ["zca"], implies "zcmp" ["zca"], implies "zcmt" ["zca"], implies "zdinx" ["zfinx"],
   implies "zfa" ["f"], implies "zfbfmin" ["f"], implies "zfh" ["f"], implies "zfhmin" ["f"],
   implies "zfinx" ["zicsr"], implies "zhinx" ["zfinx"], implies "zhinxmin" ["zfinx"],
   implies "zicntr" ["zicsr"], implies "zihpm" ["zicsr"], implies "zk" ["zkn", "zkt", "zkr"],
   implies "zkn" ["zbkb", "zbkc", "zbkx", "zkne", "zknd", "zknh"],
   implies "zks" ["zbkb", "zbkc", "zbkx", "zksed", "zksh"], implies "zve32f" ["zve32x", "f"],
   implies "zve32x" ["zvl32b", "zicsr"], implies "zve64d" ["zve64f", "d"],
   implies "zve64f" ["zve64x", "zve32f"], implies "zve64x" ["zve32x", "zvl64b"],
   implies "zvfbfmin" ["zve32f"], implies "zvfbfwma" ["zve32f"],
   implies "zvfh" ["zve32f", "zfhmin"], implies "zvkn" ["zvbb", "zvkned", "zvknhb", "zvkt"],
   implies "zvknc" ["zvbc", "zvkn"], implies "zvkng" ["zvkg", "zvkn"], implies "zvknhb" ["zvknha"],
   implies "zvks" ["zvbb", "zvksed", "zvksh", "zvkt"], implies "zvksc" ["zvbc", "zvks"],
   implies "zvksg" ["zvkg", "zvks"], implies "zvl1024b" ["zvl512b"], implies "zvl128b" ["zvl64b"],
   implies "zvl16384b" ["zvl8192b"], implies "zvl2048b" ["zvl1024b"], implies "zvl256b" ["zvl128b"],
   implies "zvl32768b" ["zvl16384b"], implies "zvl4096b" ["zvl2048b"],
   implies "zvl512b" ["zvl256b"], implies "zvl64b" ["zvl32b"], implies "zvl65536b" ["zvl32768b"],
   implies "zvl8192b" ["zvl4096b"]]

/-- `CombineIntoExts`. -/
def combineIntoExts : List (Str × List Str) :=
  [implies "zk" ["zkn", "zkt", "zkr"],
   implies "zkn" ["zbkb", "zbkc", "zbkx", "zkne", "zknd", "zknh"],
   implies "zks" ["zbkb", "zbkc", "zbkx", "zksed", "zksh"],
   implies "zvkn" ["zvbb", "zvkned", "zvknhb", "zvkt"], implies "zvknc" ["zvbc", "zvkn"],
   implies "zvkng" ["zvkg", "zvkn"], implies "zvks" ["zvbb", "zvksed", "zvksh", "zvkt"],
   implies "zvksc" ["zvbc", "zvks"], implies "zvksg" ["zvkg", "zvks"]]

/-- The version of a name in a table. -/
def findExtension (table : List (Str × Version)) (name : Str) : Option Version :=
  (table.find? fun e => e.1 = name).map Prod.snd

/-- `findDefaultVersion`. -/
def findDefaultVersion (name : Str) : Option Version :=
  (findExtension supportedExtensions name).or (findExtension supportedExperimentalExtensions name)

/-- `isExperimentalExtension`. -/
def isExperimentalExtension (name : Str) : Option Version :=
  findExtension supportedExperimentalExtensions name

/-- `isSupportedExtension`. -/
def isSupportedExtension (name : Str) : Bool := (findDefaultVersion name).isSome

/-- `isSupportedExtension` with a version. -/
def isSupportedVersion (name : Str) (version : Version) : Bool :=
  findExtension supportedExtensions name = some version ||
    findExtension supportedExperimentalExtensions name = some version

/-- `stripExperimentalPrefix`. -/
def stripExperimentalPrefix (name : Str) : Bool × Str :=
  if "experimental-".toList.isPrefixOf name then (true, name.drop 13) else (false, name)

/-! ## The order of extensions -/

/-- `singleLetterExtensionRank`. -/
def singleLetterExtensionRank (c : Char) : Nat :=
  if c = 'i' then 0
  else if c = 'e' then 1
  else
    match allStdExts.findIdx? (· = c) with
    | some pos => pos + 2
    | none => 2 + allStdExts.length + (c.toNat - 'a'.toNat)

/-- `getExtensionRank`. -/
def getExtensionRank : Str → Nat
  | 's' :: _ => 2 ^ 7
  | 'z' :: c :: _ => 2 ^ 6 ||| singleLetterExtensionRank c
  | 'x' :: _ => 2 ^ 8
  | c :: _ => singleLetterExtensionRank c
  | [] => 0

/-- A name of an extension, as a key of the map. -/
structure ExtName where
  chars : Str
  deriving DecidableEq

/-- The rank, then the name. -/
def ExtName.key (n : ExtName) : Nat ×ₗ Str := toLex (getExtensionRank n.chars, n.chars)

theorem ExtName.key_injective : Function.Injective ExtName.key := fun a b h => by
  have hchars : a.chars = b.chars := (Prod.mk.inj (toLex.injective h)).2
  cases a
  cases b
  exact congrArg ExtName.mk hchars

/-- `compareExtension`. -/
instance : LinearOrder ExtName := LinearOrder.lift' ExtName.key ExtName.key_injective

/-- `RISCVISAInfo`. -/
structure RISCVISAInfo where
  xLen : Nat
  exts : OrderedMap ExtName Version
  fLen : Nat
  minVLen : Nat
  maxELen : Nat
  maxELenFp : Nat
  deriving DecidableEq

namespace RISCVISAInfo

/-- The constructor. -/
def new (xLen : Nat) : RISCVISAInfo := ⟨xLen, OrderedMap.empty, 0, 0, 0, 0⟩

variable (I : RISCVISAInfo)

/-- `addExtension`. -/
def addExtension (name : Str) (version : Version) : RISCVISAInfo :=
  { I with exts := I.exts.set (⟨name⟩, version) }

/-- `Exts.count`. -/
def count (name : Str) : Bool := (I.exts.find ⟨name⟩).isSome

/-- `hasExtension`. -/
def hasExtension (name : Str) : Bool :=
  let name := (stripExperimentalPrefix name).2
  isSupportedExtension name && I.count name

/-! ## What extensions imply -/

/-- What a name implies. -/
def impliedBy (name : Str) : List Str := ((impliedExts.find? fun e => e.1 = name).map Prod.snd).getD []

/-- The loop over what an extension of the work list implies. -/
def addImplied (I : RISCVISAInfo) (work : List Str) : List Str → RISCVISAInfo × List Str
  | [] => (I, work)
  | name :: names =>
    if work.contains name || I.count name then addImplied I work names
    else
      match findDefaultVersion name with
      | some version => addImplied (I.addExtension name version) (work ++ [name]) names
      | none => addImplied I work names

/-- What the table implies and the map does not have. -/
def missing (I : RISCVISAInfo) : List Str :=
  (impliedExts.flatMap Prod.snd).filter fun name => !I.count name


theorem count_addExtension (name : Str) (version : Version) (other : Str) :
    (I.addExtension name version).count other = (decide (other = name) || I.count other) := by
  unfold count addExtension
  rw [OrderedMap.find_set]
  by_cases h : other = name
  · rw [if_pos (congrArg ExtName.mk h), decide_eq_true h]
    rfl
  · rw [if_neg fun heq => h (ExtName.mk.inj heq), decide_eq_false h, Bool.false_or]

variable {name : Str}

theorem length_missing_lt (version : Version) (hmem : name ∈ impliedExts.flatMap Prod.snd)
    (hcount : I.count name = false) :
    (I.addExtension name version).missing.length < I.missing.length := by
  have hsub : (I.addExtension name version).missing.Sublist I.missing := by
    refine List.monotone_filter_right _ fun other h => ?_
    rw [count_addExtension, Bool.not_or, Bool.and_eq_true] at h
    exact h.2
  refine lt_of_le_of_ne hsub.length_le fun hlength => ?_
  have hname : name ∈ I.missing := List.mem_filter.mpr ⟨hmem, by rw [hcount]; rfl⟩
  rw [← hsub.eq_of_length hlength] at hname
  have hnot := (List.mem_filter.mp hname).2
  rw [count_addExtension, decide_eq_true rfl] at hnot
  exact absurd hnot Bool.false_ne_true

/-- What is put on the work list was missing. -/
theorem length_addImplied_le (I : RISCVISAInfo) (work : List Str) {names : List Str}
    (hnames : names ⊆ impliedExts.flatMap Prod.snd) :
    (addImplied I work names).1.missing.length + (addImplied I work names).2.length ≤
      I.missing.length + work.length := by
  induction names generalizing I work with
  | nil => exact le_rfl
  | cons name names ih =>
    obtain ⟨hname, hnames⟩ := List.cons_subset.mp hnames
    rw [addImplied]
    split
    case isTrue => exact ih I work hnames
    case isFalse hnew =>
      split
      case h_1 version _ =>
        rw [Bool.or_eq_true, not_or, Bool.not_eq_true, Bool.not_eq_true] at hnew
        refine (ih _ _ hnames).trans ?_
        have hlt := length_missing_lt I version hname hnew.2
        rw [List.length_append, List.length_singleton]
        omega
      case h_2 => exact ih I work hnames

theorem impliedBy_subset (name : Str) : impliedBy name ⊆ impliedExts.flatMap Prod.snd := by
  unfold impliedBy
  cases h : impliedExts.find? fun e => e.1 = name with
  | none => exact List.nil_subset _
  | some e => exact fun other hother => List.mem_flatMap.mpr ⟨e, List.mem_of_find?_eq_some h, hother⟩

/-- The loop over the work list, which takes its last name first. -/
def imply (I : RISCVISAInfo) (work : List Str) : RISCVISAInfo :=
  if h : work = [] then I
  else
    let r := addImplied I work.dropLast (impliedBy (work.getLast h))
    imply r.1 r.2
termination_by I.missing.length + work.length
decreasing_by
  refine (length_addImplied_le I _ (impliedBy_subset _)).trans_lt ?_
  have hpos := List.length_pos_iff.mpr h
  rw [List.length_dropLast]
  omega

/-- Add an extension with its default version. -/
def addDefault (name : Str) : RISCVISAInfo :=
  match findDefaultVersion name with
  | some version => I.addExtension name version
  | none => I

/-- `updateImplication`. -/
def updateImplication : RISCVISAInfo :=
  let I := if !I.count ['e'] && !I.count ['i'] then I.addDefault ['i'] else I
  let I := imply I (I.exts.entries.map fun e => e.1.chars)
  if I.xLen = 32 && I.count "zce".toList && I.count ['f'] && !I.count "zcf".toList then
    I.addDefault "zcf".toList
  else I

/-- The body of the loop of `updateCombination`, and whether it has added something. -/
def combine (I : RISCVISAInfo) : List (Str × List Str) → RISCVISAInfo × Bool
  | [] => (I, false)
  | (name, required) :: table =>
    if !I.hasExtension name && required.all I.hasExtension then
      ((I.addDefault name).combine table |>.1, true)
    else I.combine table

/-- The names that extensions are combined into and that the map does not have. -/
def missingCombined : List (Str × List Str) := combineIntoExts.filter fun e => !I.count e.1

variable {I}

theorem count_addDefault {other : Str} (h : I.count other = true) :
    (I.addDefault name).count other = true := by
  unfold addDefault
  split
  · rw [count_addExtension, h, Bool.or_true]
  · exact h

/-- The names of the table have versions, and are no experimental features. -/
theorem plain_combineIntoExts : ∀ e ∈ combineIntoExts, ∀ name ∈ e.1 :: e.2,
    (stripExperimentalPrefix name).2 = name ∧ isSupportedExtension name = true := by decide +kernel

theorem hasExtension_eq {e : Str × List Str} (he : e ∈ combineIntoExts)
    (hname : name ∈ e.1 :: e.2) : I.hasExtension name = I.count name := by
  obtain ⟨hplain, hsupported⟩ := plain_combineIntoExts e he name hname
  unfold hasExtension
  simp only [hplain, hsupported, Bool.true_and]

theorem count_addDefault_self (h : isSupportedExtension name = true) :
    (I.addDefault name).count name = true := by
  obtain ⟨version, hversion⟩ := Option.isSome_iff_exists.mp h
  unfold addDefault
  rw [hversion]
  simp only
  rw [count_addExtension, decide_eq_true rfl, Bool.true_or]

theorem count_combine {table : List (Str × List Str)} (h : I.count name = true) :
    (I.combine table).1.count name = true := by
  induction table generalizing I with
  | nil => exact h
  | cons e table ih =>
    rw [combine]
    split
    · exact ih (count_addDefault h)
    · exact ih h

theorem exists_of_combine {table : List (Str × List Str)} (htable : table ⊆ combineIntoExts)
    (h : (I.combine table).2 = true) :
    ∃ e ∈ combineIntoExts, I.count e.1 = false ∧ (I.combine table).1.count e.1 = true := by
  induction table with
  | nil => exact absurd h Bool.false_ne_true
  | cons e table ih =>
    obtain ⟨he, htable⟩ := List.cons_subset.mp htable
    rw [combine] at h ⊢
    split
    case isTrue hnew =>
      rw [Bool.and_eq_true, Bool.not_eq_true', hasExtension_eq he List.mem_cons_self] at hnew
      exact ⟨e, he, hnew.1,
        count_combine (count_addDefault_self (plain_combineIntoExts e he e.1 List.mem_cons_self).2)⟩
    case isFalse hnew =>
      rw [if_neg hnew] at h
      exact ih htable h

theorem length_missingCombined_lt (h : (I.combine combineIntoExts).2 = true) :
    (I.combine combineIntoExts).1.missingCombined.length < I.missingCombined.length := by
  obtain ⟨e, he, hcount, hcombined⟩ := exists_of_combine (List.Subset.refl _) h
  have hsub : (I.combine combineIntoExts).1.missingCombined.Sublist I.missingCombined := by
    refine List.monotone_filter_right _ fun other hother => ?_
    rw [Bool.not_eq_true'] at hother ⊢
    by_contra hyes
    rw [count_combine (Bool.not_eq_false _ ▸ hyes)] at hother
    exact Bool.noConfusion hother
  refine lt_of_le_of_ne hsub.length_le fun hlength => ?_
  have hmem : e ∈ I.missingCombined := List.mem_filter.mpr ⟨he, by rw [hcount]; rfl⟩
  rw [← hsub.eq_of_length hlength] at hmem
  have hnot := (List.mem_filter.mp hmem).2
  rw [hcombined] at hnot
  exact absurd hnot Bool.false_ne_true

variable (I)

/-- `updateCombination`. -/
def updateCombination (I : RISCVISAInfo) : RISCVISAInfo :=
  if (I.combine combineIntoExts).2 = true then updateCombination (I.combine combineIntoExts).1
  else (I.combine combineIntoExts).1
termination_by I.missingCombined.length
decreasing_by exact length_missingCombined_lt ‹_›

/-- `updateFLen`. -/
def updateFLen : RISCVISAInfo :=
  { I with fLen := if I.count ['d'] then 64 else if I.count ['f'] then 32 else 0 }

/-- `getAsInteger` of an `unsigned`. -/
def getAsInteger (s : Str) : Option Nat :=
  if s = [] || s.any fun c => !c.isDigit then none
  else if Nat.ofDigitChars 10 s 0 < 2 ^ 32 then some (Nat.ofDigitChars 10 s 0) else none

/-- The length in the name of a `zvl*b` extension. -/
def zvlLen (name : Str) : Option Nat :=
  if "zvl".toList.isPrefixOf name && (name.drop 3).getLast? = some 'b' then
    getAsInteger (name.drop 3).dropLast
  else none

/-- `updateMinVLen`. -/
def updateMinVLen : RISCVISAInfo :=
  { I with
    minVLen := I.exts.entries.foldl (fun len e => max len ((zvlLen e.1.chars).getD 0)) I.minVLen }

/-- The lengths of integers and of floats in the name of a `zve*` extension. -/
def zveLens (name : Str) : Nat × Nat :=
  if "zve".toList.isPrefixOf name then
    ((getAsInteger (name.drop 3).dropLast).getD 0,
      if name.getLast? = some 'f' then 32 else if name.getLast? = some 'd' then 64 else 0)
  else (0, 0)

/-- `updateMaxELen`. -/
def updateMaxELen : RISCVISAInfo :=
  { I with
    maxELen := I.exts.entries.foldl (fun len e => max len (zveLens e.1.chars).1) I.maxELen
    maxELenFp := I.exts.entries.foldl (fun len e => max len (zveLens e.1.chars).2) I.maxELenFp }

/-- `checkDependency`: the first error, if there is one. -/
def checkDependency : Option String :=
  let has (name : String) := I.count name.toList
  let hasVector := has "zve32x"
  let hasZcmt := has "zcmt"
  let errors : List (Bool × String) :=
    [(has "f" && has "zfinx", "'f' and 'zfinx' extensions are incompatible"),
      (I.minVLen != 0 && !hasVector,
        "'zvl*b' requires 'v' or 'zve*' extension to also be specified"),
      (has "zvbb" && !hasVector, "'zvbb' requires 'v' or 'zve*' extension to also be specified"),
      (has "zvbc" && !has "zve64x",
        "'zvbc' requires 'v' or 'zve64*' extension to also be specified"),
      ((has "zvkg" || has "zvkned" || has "zvknha" || has "zvksed" || has "zvksh") && !hasVector,
        "'zvk*' requires 'v' or 'zve*' extension to also be specified"),
      (has "zvknhb" && !has "zve64x",
        "'zvknhb' requires 'v' or 'zve64*' extension to also be specified"),
      ((hasZcmt || has "zcmp") && has "d" && (has "c" || has "zcd"),
        "'" ++ (if hasZcmt then "zcmt" else "zcmp") ++ "' extension is incompatible with '" ++
          (if has "c" then "c" else "zcd") ++ "' extension when 'd' extension is enabled"),
      (I.xLen != 32 && has "zcf", "'zcf' is only supported for 'rv32'")]
  (errors.find? Prod.fst).map Prod.snd

/-- `postProcessAndChecking`. -/
def postProcessAndChecking : Except String RISCVISAInfo :=
  let I := I.updateImplication.updateCombination.updateFLen.updateMinVLen.updateMaxELen
  match I.checkDependency with
  | some error => .error error
  | none => .ok I

/-- `toString`. -/
def toString : Str :=
  "rv".toList ++ Nat.toDigits 10 I.xLen ++
    ['_'].intercalate (I.exts.entries.map fun e =>
      e.1.chars ++ Nat.toDigits 10 e.2.major ++ 'p' :: Nat.toDigits 10 e.2.minor)

end RISCVISAInfo

/-! ## Parsing -/

/-- `getAsInteger`, for a part of a version. -/
abbrev getVersionPart := RISCVISAInfo.getAsInteger

/-- How the strings are to be read. -/
structure Options where
  enableExperimentalExtension : Bool
  experimentalExtensionVersionCheck : Bool
  ignoreUnknown : Bool

/-- The checks of `getExtensionVersion`, once the version is read. -/
def checkVersion (opts : Options) (name majorStr minorStr rest : Str) (version : Version) :
    Except String Version :=
  if 1 < name.length && rest ≠ [] then
    .error "multi-character extensions must be separated by underscores"
  else
    match isExperimentalExtension name with
    | some supported =>
      if !opts.enableExperimentalExtension then
        .error ("requires '-menable-experimental-extensions' for experimental extension '" ++
          String.ofList name ++ "'")
      else if opts.experimentalExtensionVersionCheck && majorStr = [] && minorStr = [] then
        .error ("experimental extension requires explicit version number `" ++ String.ofList name ++
          "`")
      else if opts.experimentalExtensionVersionCheck && version ≠ supported then
        .error ("unsupported version number " ++ String.ofList majorStr ++
          (if minorStr = [] then "" else "." ++ String.ofList minorStr) ++
          " for experimental extension '" ++ String.ofList name ++ "' (this compiler supports " ++
          supported.major.repr ++ "." ++ supported.minor.repr ++ ")")
      else .ok version
    | none =>
      if name = ['g'] then .ok version
      else if majorStr = [] && minorStr = [] then .ok ((findDefaultVersion name).getD version)
      else if isSupportedVersion name version then .ok version
      else
        .error ("unsupported version number " ++ String.ofList majorStr ++
          (if minorStr = [] then "" else "." ++ String.ofList minorStr) ++ " for extension '" ++
          String.ofList name ++ "'")

/-- `getExtensionVersion`, with the length that it consumes. -/
def getExtensionVersion (opts : Options) (name input : Str) : Except String Version × Nat :=
  let majorStr := input.takeWhile Char.isDigit
  let rest := input.dropWhile Char.isDigit
  let hasMinor := majorStr ≠ [] && rest.head? = some 'p'
  let minorStr := if hasMinor then rest.tail.takeWhile Char.isDigit else []
  let rest := if hasMinor then rest.tail.drop (majorStr.length + minorStr.length - 1) else rest
  if hasMinor && minorStr = [] then
    (.error ("minor version number missing after 'p' for extension '" ++ String.ofList name ++ "'"), 0)
  else if majorStr ≠ [] && getVersionPart majorStr = none then
    (.error ("Failed to parse major version number for extension '" ++ String.ofList name ++ "'"), 0)
  else if minorStr ≠ [] && getVersionPart minorStr = none then
    (.error ("Failed to parse minor version number for extension '" ++ String.ofList name ++ "'"), 0)
  else
    let version := ⟨(getVersionPart majorStr).getD 0, (getVersionPart minorStr).getD 0⟩
    (checkVersion opts name majorStr minorStr rest version,
      majorStr.length + if minorStr = [] then 0 else minorStr.length + 1)

/-- `consume_front("_")`. -/
def consumeUnderscore (s : Str) : Str := if s.head? = some '_' then s.tail else s

/-- `GoToNextExt`, from behind the letter. -/
def goToNextExt (next : Str) (consumeLength : Nat) : Str := consumeUnderscore (next.drop consumeLength)

theorem length_goToNextExt_le (next : Str) (consumeLength : Nat) :
    (goToNextExt next consumeLength).length ≤ next.length := by
  unfold goToNextExt consumeUnderscore
  split
  · rw [List.length_tail, List.length_drop]
    omega
  · rw [List.length_drop]
    omega

/-- The loop over the standard extensions; `itr` is the canonical order from the iterator on. -/
def parseStdExts (opts : Options) (stdExts itr : Str) :
    Str → RISCVISAInfo → Except String RISCVISAInfo
  | [], I => .ok I
  | c :: next, I =>
    match itr.dropWhile (· ≠ c) with
    | [] =>
      if c ∈ stdExts then
        .error ("standard user-level extension not given in canonical order '" ++ c.toString ++ "'")
      else .error ("invalid standard user-level extension '" ++ c.toString ++ "'")
    | _ :: itr =>
      match getExtensionVersion opts [c] next with
      | (.error error, consumeLength) =>
        if opts.ignoreUnknown then
          parseStdExts opts stdExts itr (goToNextExt next consumeLength) I
        else .error error
      | (.ok version, consumeLength) =>
        if !isSupportedExtension [c] then
          if opts.ignoreUnknown then
            parseStdExts opts stdExts itr (goToNextExt next consumeLength) I
          else .error ("unsupported standard user-level extension '" ++ c.toString ++ "'")
        else
          parseStdExts opts stdExts itr (goToNextExt next consumeLength) (I.addExtension [c] version)
termination_by s => s.length
decreasing_by all_goals exact Nat.lt_succ_of_le (length_goToNextExt_le _ _)

/-- Back over the digits, from a place. -/
def skipDigits (s : Str) : Nat → Nat
  | 0 => 0
  | pos + 1 => if (s.getD (pos + 1) ' ').isDigit then skipDigits s pos else pos + 1

/-- `findLastNonVersionCharacter`. -/
def findLastNonVersionCharacter (s : Str) : Nat :=
  let pos := skipDigits s (s.length - 1)
  if 0 < pos && s.getD pos ' ' = 'p' && (s.getD (pos - 1) ' ').isDigit then skipDigits s (pos - 1)
  else pos

/-- `getExtensionType`. -/
def getExtensionType : Str → Str
  | 's' :: _ => ['s']
  | 'x' :: _ => ['x']
  | 'z' :: _ => ['z']
  | _ => []

/-- `getExtensionTypeDesc`. -/
def getExtensionTypeDesc : Str → String
  | 's' :: _ => "standard supervisor-level extension"
  | 'x' :: _ => "non-standard user-level extension"
  | 'z' :: _ => "standard user-level extension"
  | _ => ""

/-- The name and the version of a multi-letter extension, unless it is ignored. -/
def parseOtherExt (opts : Options) (s : Str) : Except String (Option (Str × Version)) :=
  if s = [] then .error "extension name missing after separator '_'"
  else
    let type := getExtensionType s
    let pos := findLastNonVersionCharacter s + 1
    let name := s.take pos
    if type = [] then
      if opts.ignoreUnknown then .ok none
      else .error ("invalid extension prefix '" ++ String.ofList s ++ "'")
    else if !opts.ignoreUnknown && name.length = type.length then
      .error (getExtensionTypeDesc s ++ " name missing after '" ++ String.ofList type ++ "'")
    else
      match (getExtensionVersion opts name (s.drop pos)).1 with
      | .error error => if opts.ignoreUnknown then .ok none else .error error
      | .ok version => .ok (some (name, version))

/-- The loop over the multi-letter extensions; `allExts` are the names so far. -/
def parseOtherExts (opts : Options) :
    List Str → RISCVISAInfo → List Str → Except String (RISCVISAInfo × List Str)
  | [], I, allExts => .ok (I, allExts)
  | s :: rest, I, allExts =>
    match parseOtherExt opts s with
    | .error error => .error error
    | .ok none => parseOtherExts opts rest I allExts
    | .ok (some (name, version)) =>
      if !opts.ignoreUnknown && allExts.contains name then
        .error ("duplicated " ++ getExtensionTypeDesc s ++ " '" ++ String.ofList name ++ "'")
      else if opts.ignoreUnknown && !isSupportedExtension name then
        parseOtherExts opts rest I allExts
      else parseOtherExts opts rest (I.addExtension name version) (allExts ++ [name])

/-- The first letter: the map that it starts, and the length that its version takes. -/
def parseBaseline (opts : Options) (baseline : Char) (exts : Str) (I : RISCVISAInfo) :
    Except String (RISCVISAInfo × Nat) :=
  if baseline = 'g' then .ok (riscvGImplications.foldl RISCVISAInfo.addDefault I, 0)
  else
    match getExtensionVersion opts [baseline] exts with
    | (.ok version, consumeLength) => .ok (I.addExtension [baseline] version, consumeLength)
    | (.error error, consumeLength) =>
      if opts.ignoreUnknown then .ok (I.addDefault [baseline], consumeLength) else .error error

/-- Whether a multi-letter extension can start here. -/
def isOtherStart (c : Char) : Bool := c = 'z' || c = 's' || c = 'x'

/-- `parseArchString`. -/
def parseArchString (opts : Options) (arch : Str) : Except String RISCVISAInfo :=
  if arch.any Char.isUpper then .error "string must be lowercase"
  else
    let hasRV64 := "rv64".toList.isPrefixOf arch
    if !("rv32".toList.isPrefixOf arch || hasRV64) || arch.length < 5 then
      .error "string must begin with rv32\x7bi,e,g\x7d or rv64\x7bi,e,g\x7d"
    else
      let baseline := arch.getD 4 ' '
      if baseline ≠ 'e' && baseline ≠ 'i' && baseline ≠ 'g' then
        .error "first letter should be 'e', 'i' or 'g'"
      else if baseline = 'g' && (arch.getD 5 ' ').isDigit then .error "version not supported for 'g'"
      else if arch.getLast? = some '_' then
        .error "extension name missing after separator '_'"
      else
        let stdExts := if baseline = 'g' then allStdExts.drop 4 else allStdExts
        let exts := (arch.drop 5).takeWhile fun c => !isOtherStart c
        let otherExts := (arch.drop 5).dropWhile fun c => !isOtherStart c
        match parseBaseline opts baseline exts (RISCVISAInfo.new (if hasRV64 then 64 else 32)) with
        | .error error => .error error
        | .ok (I, consumeLength) =>
          match parseStdExts opts stdExts stdExts (consumeUnderscore (exts.drop consumeLength)) I with
          | .error error => .error error
          | .ok I =>
            match parseOtherExts opts (if otherExts = [] then [] else otherExts.splitOn '_') I [] with
            | .error error => .error error
            | .ok (I, allExts) =>
              match allExts.find? fun name => !isSupportedExtension name with
              | some name =>
                .error ("unsupported " ++ getExtensionTypeDesc name ++ " '" ++ String.ofList name ++ "'")
              | none => I.postProcessAndChecking

/-- The name and the version of a part of a normalized string. -/
def parseNormalizedExt (s : Str) : Except String (Str × Version) :=
  let minorStr := (s.reverse.takeWhile (· ≠ 'p')).reverse
  let head := s.take (s.length - minorStr.length - 1)
  if minorStr.length = s.length || minorStr = [] then
    .error "extension lacks version in expected format"
  else
    match getVersionPart minorStr with
    | none => .error "failed to parse minor version number"
    | some minor =>
      let majorStr := (head.reverse.takeWhile Char.isDigit).reverse
      if majorStr = [] then .error "extension lacks version in expected format"
      else
        match getVersionPart majorStr with
        | none => .error "failed to parse major version number"
        | some major => .ok (head.take (head.length - majorStr.length), ⟨major, minor⟩)

/-- The loop of `parseNormalizedArchString`. -/
def parseNormalizedExts : List Str → RISCVISAInfo → Except String RISCVISAInfo
  | [], I => .ok I
  | s :: rest, I =>
    match parseNormalizedExt s with
    | .error error => .error error
    | .ok (name, version) => parseNormalizedExts rest (I.addExtension name version)

/-- `parseNormalizedArchString`. -/
def parseNormalizedArchString (arch : Str) : Except String RISCVISAInfo :=
  if arch.any Char.isUpper then .error "string must be lowercase"
  else
    let starts (base : String) := base.toList.isPrefixOf arch
    if !(starts "rv32i" || starts "rv32e" || starts "rv64i" || starts "rv64e") then
      .error "arch string must begin with valid base ISA"
    else
      let xLen := if starts "rv32i" || starts "rv32e" then 32 else 64
      match parseNormalizedExts ((arch.drop 4).splitOn '_') (RISCVISAInfo.new xLen) with
      | .error error => .error error
      | .ok I => .ok I.updateFLen.updateMinVLen.updateMaxELen

/-- A feature, as the loop of `parseFeatures` takes it. -/
def applyFeature (I : RISCVISAInfo) (feature : Str) : RISCVISAInfo :=
  let (experimental, name) := stripExperimentalPrefix feature.tail
  match findExtension (if experimental then supportedExperimentalExtensions else supportedExtensions)
    name with
  | none => I
  | some version =>
    if feature.head? = some '+' then I.addExtension name version
    else { I with exts := I.exts.erase ⟨name⟩ }

/-- `parseFeatures`. -/
def parseFeatures (xLen : Nat) (features : List Str) : Except String RISCVISAInfo :=
  (features.foldl applyFeature (RISCVISAInfo.new xLen)).postProcessAndChecking

end RvLlvm.Isa
