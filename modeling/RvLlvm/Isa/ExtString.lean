import Mathlib.Data.List.GetD
import Mathlib.Data.List.TakeWhile
import RvLlvm.Isa.ISAInfo

/-!
# An extension as a string

What `toString` (`RISCVISAInfo.cpp:1196-1212`) writes for an extension, and what the parsers read of
it.

* `Readable`: the versions that the parsers accept for a name.
* **`parseOtherExt_printExt`**, **`parseNormalizedExt_printExt`**: an extension is read back.
* **`readable_of_getExtensionVersion`**: what is accepted can be read back.
-/

namespace RvLlvm.Isa

open RvLlvm.Support RISCVISAInfo

/-! ## Scanning -/

theorem takeWhile_append_stop {p : Char → Bool} {a b : Str} (ha : ∀ c ∈ a, p c = true)
    (hb : ∀ c ∈ b.head?, p c = false) : (a ++ b).takeWhile p = a := by
  rw [List.takeWhile_append_of_pos ha]
  cases b with
  | nil => exact List.append_nil a
  | cons c b => rw [List.takeWhile_cons_of_neg (by rw [hb c rfl]; exact Bool.false_ne_true), List.append_nil]

theorem dropWhile_append_stop {p : Char → Bool} {a b : Str} (ha : ∀ c ∈ a, p c = true)
    (hb : ∀ c ∈ b.head?, p c = false) : (a ++ b).dropWhile p = b := by
  rw [List.dropWhile_append_of_pos ha]
  cases b with
  | nil => rfl
  | cons c b => exact List.dropWhile_cons_of_neg (by rw [hb c rfl]; exact Bool.false_ne_true)

theorem exists_of_any {p : Char → Bool} {o : Option Char} (h : o.any p = true) :
    ∃ c ∈ o, p c = true := by
  cases o with
  | none => cases h
  | some c => exact ⟨c, rfl, h⟩

/-! ## Digits -/

/-- The digits of a number. -/
abbrev digits (n : Nat) : Str := Nat.toDigits 10 n

theorem isDigit_of_mem_digits {n : Nat} {c : Char} (h : c ∈ digits n) : c.isDigit = true :=
  Nat.isDigit_of_mem_toDigits (by decide) (by decide) h

theorem digits_ne_nil (n : Nat) : digits n ≠ [] := Nat.toDigits_ne_nil

theorem getAsInteger_digits {n : Nat} (h : n < 2 ^ 32) : getAsInteger (digits n) = some n := by
  have hany : ((digits n).any fun c => !c.isDigit) = false := by
    rw [List.any_eq_false]
    intro c hc
    rw [isDigit_of_mem_digits hc]
    exact Bool.false_ne_true
  have hvalue : Nat.ofDigitChars 10 (digits n) 0 = n := Nat.ofDigitChars_toDigits (by decide) (by decide)
  unfold getAsInteger
  rw [hany, decide_eq_false (digits_ne_nil n), Bool.or_false, if_neg Bool.false_ne_true, hvalue,
    if_pos h]

theorem getAsInteger_lt {s : Str} {n : Nat} (h : getAsInteger s = some n) : n < 2 ^ 32 := by
  unfold getAsInteger at h
  split at h
  · cases h
  · split at h
    · exact Option.some.inj h ▸ ‹_›
    · cases h

theorem getAsInteger_getD_lt (s : Str) : (getAsInteger s).getD 0 < 2 ^ 32 := by
  cases h : getAsInteger s with
  | none => exact Nat.two_pow_pos 32
  | some n => exact getAsInteger_lt h

theorem p_not_digit : 'p'.isDigit = false := by decide

theorem ne_of_isDigit {c d : Char} (hc : c.isDigit = true) (hd : d.isDigit = false) : c ≠ d := by
  rintro rfl
  rw [hc] at hd
  exact Bool.noConfusion hd

/-! ## The tables -/

/-- Both tables. -/
def tables : List (Str × Version) := supportedExtensions ++ supportedExperimentalExtensions

variable {name : Str} {table : List (Str × Version)} {version : Version} {check : Bool}

theorem mem_of_findExtension (h : findExtension table name = some version) :
    (name, version) ∈ table := by
  obtain ⟨e, he, rfl⟩ := Option.map_eq_some_iff.mp h
  have hname : e.1 = name := by simpa only [decide_eq_true_iff] using List.find?_some he
  exact hname ▸ List.mem_of_find?_eq_some he

/-- The names that have versions. -/
theorem mem_tables (h : findDefaultVersion name = some version) : (name, version) ∈ tables := by
  rcases Option.or_eq_some_iff.mp h with h | ⟨-, h⟩
  · exact List.mem_append_left _ (mem_of_findExtension h)
  · exact List.mem_append_right _ (mem_of_findExtension h)

/-- A number for a name, which is quick to compare. -/
def nameKey (name : Str) : Nat :=
  name.foldl (fun key c => Nat.add (Nat.mul key 2097152) c.toNat) 0

/-- What is read off the tables: the names differ, the versions are small, and a name ends with a
letter, has neither underscores nor capitals, and is of one of three kinds by its rank. -/
theorem name_tables :
    ((tables.map fun e => nameKey e.1).Pairwise fun k l => Nat.beq k l = false) ∧
    (∀ e ∈ tables, e.2.major < 2 ^ 32 ∧ e.2.minor < 2 ^ 32) ∧
    (∀ e ∈ tables, e.1 ≠ [] ∧ (e.1.getLast?.all fun c => !c.isDigit) = true ∧
      (e.1.all fun c => c != '_' && !c.isUpper) = true) ∧
    (∀ e ∈ tables, (e.1 = ['i'] ∨ e.1 = ['e']) ∨ (allStdExts.any fun c => e.1 = [c]) = true ∨
      (1 < e.1.length ∧ getExtensionType e.1 ≠ [] ∧ e.1.head?.any isOtherStart = true ∧
        2 ^ 6 ≤ getExtensionRank e.1)) ∧
    isSupportedExtension ['g'] = false := by decide +kernel

theorem distinct_nameKeys :
    (tables.map fun e => nameKey e.1).Pairwise fun k l => Nat.beq k l = false := name_tables.1

/-- No name has two versions. -/
theorem distinct_tables : tables.Pairwise fun a b => a.1 ≠ b.1 := by
  refine (List.pairwise_map.mp distinct_nameKeys).imp fun {a b} hkey hname => ?_
  rw [hname, Nat.beq_refl] at hkey
  cases hkey

theorem findExtension_eq_some {e : Str × Version} (hdistinct : table.Pairwise fun a b => a.1 ≠ b.1)
    (he : e ∈ table) : findExtension table e.1 = some e.2 := by
  have hfind : (table.find? fun a => a.1 = e.1).isSome = true :=
    List.find?_isSome.mpr ⟨e, he, decide_eq_true rfl⟩
  obtain ⟨a, ha⟩ := Option.isSome_iff_exists.mp hfind
  have hname : a.1 = e.1 := by simpa only [decide_eq_true_iff] using List.find?_some ha
  have hae : a = e := by
    have hsymm : Std.Symm fun a b : Str × Version => a.1 ≠ b.1 := ⟨fun _ _ h => h.symm⟩
    by_contra hne
    exact hdistinct.forall (List.mem_of_find?_eq_some ha) he hne hname
  unfold findExtension
  rw [ha, hae]
  rfl

theorem findExtension_eq_none (h : ∀ a ∈ table, a.1 ≠ name) : findExtension table name = none := by
  unfold findExtension
  rw [List.find?_eq_none.mpr fun a ha => by simpa only [decide_eq_true_iff] using h a ha]
  rfl

theorem small_versions : ∀ e ∈ tables, e.2.major < 2 ^ 32 ∧ e.2.minor < 2 ^ 32 :=
  name_tables.2.1

/-- What both tables have in common: a name is in one of them, and the numbers are small. -/
theorem tables_versions : ∀ e ∈ tables, (isExperimentalExtension e.1 = none ∨
    isExperimentalExtension e.1 = some e.2) ∧ isSupportedExtension e.1 = true ∧
    isSupportedVersion e.1 e.2 = true ∧ e.2.major < 2 ^ 32 ∧ e.2.minor < 2 ^ 32 := by
  intro e he
  obtain ⟨hsupported, hexperimental, hapart⟩ := List.pairwise_append.mp distinct_tables
  refine ⟨?_, ?_, ?_, small_versions e he⟩
  all_goals rcases List.mem_append.mp he with he | he
  · exact .inl (findExtension_eq_none fun a ha => (hapart e he a ha).symm)
  · exact .inr (findExtension_eq_some hexperimental he)
  · unfold isSupportedExtension findDefaultVersion
    rw [findExtension_eq_some hsupported he]
    rfl
  · unfold isSupportedExtension findDefaultVersion
    rw [findExtension_eq_some hexperimental he, Option.isSome_or, Option.isSome_some, Bool.or_true]
  · unfold isSupportedVersion
    rw [findExtension_eq_some hsupported he, decide_eq_true rfl, Bool.true_or]
  · unfold isSupportedVersion
    rw [findExtension_eq_some hexperimental he, decide_eq_true rfl, Bool.or_true]

/-- A name of the tables ends with a letter, and has neither underscores nor capitals. -/
structure Plain (name : Str) : Prop where
  ne_nil : name ≠ []
  last : ∀ c ∈ name.getLast?, c.isDigit = false
  chars : ∀ c ∈ name, c ≠ '_' ∧ c.isUpper = false

theorem tables_plain : ∀ e ∈ tables, e.1 ≠ [] ∧
    (e.1.getLast?.all fun c => !c.isDigit) = true ∧
    (e.1.all fun c => c != '_' && !c.isUpper) = true := name_tables.2.2.1

theorem exists_mem_tables (h : isSupportedExtension name = true) :
    ∃ version, findDefaultVersion name = some version ∧ (name, version) ∈ tables := by
  obtain ⟨version, hversion⟩ := Option.isSome_iff_exists.mp h
  exact ⟨version, hversion, mem_tables hversion⟩

theorem Plain.of_supported (h : isSupportedExtension name = true) : Plain name := by
  obtain ⟨version, -, hmem⟩ := exists_mem_tables h
  obtain ⟨hne, hlast, hchars⟩ := tables_plain _ hmem
  refine ⟨hne, fun c hc => ?_, fun c hc => ?_⟩
  · rw [Option.mem_def.mp hc, Option.all_some, Bool.not_eq_true'] at hlast
    exact hlast
  · have hchar := List.all_eq_true.mp hchars c hc
    rwa [Bool.and_eq_true, bne_iff_ne, Bool.not_eq_true'] at hchar

/-- The three kinds of names, by their ranks. -/
theorem tables_kinds : ∀ e ∈ tables, (e.1 = ['i'] ∨ e.1 = ['e']) ∨
    (allStdExts.any fun c => e.1 = [c]) = true ∨
    (1 < e.1.length ∧ getExtensionType e.1 ≠ [] ∧ e.1.head?.any isOtherStart = true ∧
      2 ^ 6 ≤ getExtensionRank e.1) := name_tables.2.2.2.1

/-! ## Versions -/

/-- A version that the parsers accept: the one of a table, or any small one of an experimental
extension, unless that is checked. -/
structure Readable (check : Bool) (name : Str) (version : Version) : Prop where
  supported : isSupportedExtension name = true
  checked : check = true → ∀ v, isExperimentalExtension name = some v → version = v
  listed : isExperimentalExtension name = none → isSupportedVersion name version = true
  major : version.major < 2 ^ 32
  minor : version.minor < 2 ^ 32

theorem Readable.of_mem (h : (name, version) ∈ tables) : Readable check name version := by
  obtain ⟨hexp, hsupported, hlisted, hmajor, hminor⟩ := tables_versions _ h
  refine ⟨hsupported, fun _ v hv => ?_, fun _ => hlisted, hmajor, hminor⟩
  rcases hexp with hexp | hexp
  · cases hexp.symm.trans hv
  · exact Option.some.inj (hexp.symm.trans hv)

theorem Readable.of_default (h : findDefaultVersion name = some version) :
    Readable check name version :=
  .of_mem (mem_tables h)

/-- The version as it is written. -/
def printVersion (version : Version) : Str := digits version.major ++ 'p' :: digits version.minor

/-- An extension as it is written. -/
def printExt (e : ExtName × Version) : Str :=
  e.1.chars ++ digits e.2.major ++ 'p' :: digits e.2.minor

theorem printExt_eq (e : ExtName × Version) : printExt e = e.1.chars ++ printVersion e.2 :=
  List.append_assoc _ _ _

/-- The options under which everything readable is read. -/
def rereading (check ignore : Bool) : Options := ⟨true, check, ignore⟩

theorem checkVersion_readable {ignore : Bool} {majorStr minorStr rest : Str}
    (h : Readable check name version) (hmajor : majorStr ≠ [])
    (hrest : 1 < name.length → rest = []) :
    checkVersion (rereading check ignore) name majorStr minorStr rest version = .ok version := by
  unfold checkVersion rereading
  rw [if_neg fun hlong => ?_]
  · cases hexp : isExperimentalExtension name with
    | some v =>
      simp only [Bool.not_true, Bool.false_eq_true, if_false, hmajor, decide_false, Bool.and_false,
        Bool.false_and]
      refine if_neg fun hwrong => ?_
      rw [Bool.and_eq_true, decide_eq_true_iff] at hwrong
      exact hwrong.2 (h.checked hwrong.1 v hexp)
    | none =>
      simp only [hmajor, decide_false, Bool.false_and, Bool.false_eq_true, if_false,
        h.listed hexp, if_true]
      exact ite_self _
  · rw [Bool.and_eq_true, decide_eq_true_iff, decide_eq_true_iff] at hlong
    exact hlong.2 (hrest hlong.1)

/-- **A version is read back**, with what is behind it left. -/
theorem getExtensionVersion_printVersion (ignore : Bool) {rest : Str}
    (h : Readable check name version) (hdigit : ∀ c ∈ rest.head?, c.isDigit = false)
    (hrest : 1 < name.length → rest = []) :
    getExtensionVersion (rereading check ignore) name (printVersion version ++ rest) =
      (.ok version, (printVersion version).length) := by
  have hstr : printVersion version ++ rest =
      digits version.major ++ ('p' :: digits version.minor ++ rest) := List.append_assoc _ _ _
  have hp : ∀ c ∈ ('p' :: digits version.minor ++ rest).head?, c.isDigit = false :=
    fun c hc => Option.some.inj hc ▸ p_not_digit
  have hall : ∀ n, ∀ c ∈ digits n, c.isDigit = true := fun n c => isDigit_of_mem_digits
  have hmajor := takeWhile_append_stop (hall version.major) hp
  have hbehind := dropWhile_append_stop (hall version.major) hp
  have hminor : (('p' :: digits version.minor ++ rest).tail).takeWhile Char.isDigit =
      digits version.minor := takeWhile_append_stop (hall version.minor) hdigit
  have hhead : ('p' :: digits version.minor ++ rest).head? = some 'p' := rfl
  unfold getExtensionVersion
  rw [hstr]
  simp only [hmajor, hbehind, hhead, if_true, hminor, digits_ne_nil, decide_false, Bool.and_false,
    Bool.false_eq_true, if_false, getVersionPart, getAsInteger_digits h.major,
    getAsInteger_digits h.minor, ne_eq, not_false_eq_true, decide_true, Bool.true_and, reduceCtorEq,
    Option.getD_some]
  rw [checkVersion_readable h (digits_ne_nil _) fun hlong => ?_]
  · rw [printVersion, List.length_append, List.length_cons]
  · rw [hrest hlong, List.append_nil]
    refine List.drop_eq_nil_of_le ?_
    have hpos := List.length_pos_iff.mpr (digits_ne_nil version.major)
    rw [List.tail_cons]
    omega

/-! ## What is accepted -/

theorem unsupported_g : isSupportedExtension ['g'] = false := name_tables.2.2.2.2

/-- **What is accepted can be read back**, when the name is supported. -/
theorem readable_of_checkVersion {opts : Options} {majorStr minorStr rest : Str} {v : Version}
    (hmajor : v.major < 2 ^ 32) (hminor : v.minor < 2 ^ 32)
    (hname : isSupportedExtension name = true)
    (h : checkVersion opts name majorStr minorStr rest v = .ok version) :
    Readable opts.experimentalExtensionVersionCheck name version := by
  unfold checkVersion at h
  split at h
  · cases h
  · split at h
    case h_1 supported hexp =>
      split at h
      · cases h
      · split at h
        · cases h
        · split at h
          · cases h
          · rename_i hright
            obtain rfl := Except.ok.inj h
            refine ⟨hname, fun hcheck v' hv' => ?_, fun hnone => ?_, hmajor, hminor⟩
            · obtain rfl := Option.some.inj (hexp.symm.trans hv')
              by_contra hne
              exact hright (by rw [hcheck, decide_eq_true hne, Bool.true_and])
            · cases hexp.symm.trans hnone
    case h_2 hexp =>
      split at h
      case isTrue hg =>
        rw [hg, unsupported_g] at hname
        cases hname
      case isFalse =>
        split at h
        · obtain ⟨default, hdefault⟩ := Option.isSome_iff_exists.mp hname
          rw [hdefault, Option.getD_some] at h
          exact Except.ok.inj h ▸ .of_default hdefault
        · split at h
          · obtain rfl := Except.ok.inj h
            refine ⟨hname, fun _ v' hv' => ?_, fun _ => ‹_›, hmajor, hminor⟩
            cases hexp.symm.trans hv'
          · cases h

theorem readable_of_getExtensionVersion {opts : Options} {input : Str}
    (hname : isSupportedExtension name = true)
    (h : (getExtensionVersion opts name input).1 = .ok version) :
    Readable opts.experimentalExtensionVersionCheck name version := by
  unfold getExtensionVersion at h
  rw [apply_ite Prod.fst, apply_ite Prod.fst, apply_ite Prod.fst] at h
  rcases ite_eq_iff.mp h with ⟨-, h⟩ | ⟨-, h⟩
  · cases h
  · rcases ite_eq_iff.mp h with ⟨-, h⟩ | ⟨-, h⟩
    · cases h
    · rcases ite_eq_iff.mp h with ⟨-, h⟩ | ⟨-, h⟩
      · cases h
      · exact readable_of_checkVersion (getAsInteger_getD_lt _) (getAsInteger_getD_lt _) hname h

/-! ## Multi-letter extensions -/

theorem skipDigits_eq {s : Str} {pos count : Nat}
    (hstop : pos = 0 ∨ (s.getD pos ' ').isDigit = false)
    (hdigits : ∀ i, pos < i → i ≤ pos + count → (s.getD i ' ').isDigit = true) :
    skipDigits s (pos + count) = pos := by
  induction count with
  | zero =>
    cases pos with
    | zero => rfl
    | succ pos =>
      rw [Nat.add_zero, skipDigits, hstop.resolve_left (Nat.succ_ne_zero pos),
        if_neg Bool.false_ne_true]
  | succ count ih =>
    rw [← Nat.add_assoc, skipDigits, if_pos (hdigits _ (by omega) (by omega))]
    exact ih fun i hlt hle => hdigits i hlt (by omega)

theorem getD_digits {a b : Str} {n i : Nat} (hle : a.length ≤ i)
    (hlt : i < a.length + (digits n).length) : ((a ++ digits n ++ b).getD i ' ').isDigit = true := by
  have hi : i < (a ++ digits n).length := by rw [List.length_append]; exact hlt
  rw [List.getD_append _ _ _ _ hi, List.getD_append_right _ _ _ _ hle,
    List.getD_eq_getElem _ _ (by omega)]
  exact isDigit_of_mem_digits (List.getElem_mem _)

theorem findLastNonVersionCharacter_printExt (hname : Plain name) (version : Version) :
    findLastNonVersionCharacter (printExt (⟨name⟩, version)) + 1 = name.length := by
  obtain ⟨n, hn⟩ := Nat.exists_eq_succ_of_ne_zero (List.length_pos_iff.mpr hname.ne_nil).ne'
  have hmajor := List.length_pos_iff.mpr (digits_ne_nil version.major)
  have hminor := List.length_pos_iff.mpr (digits_ne_nil version.minor)
  have hform : printExt (⟨name⟩, version) =
      (name ++ digits version.major ++ ['p']) ++ digits version.minor ++ [] := by
    rw [List.append_nil, List.append_assoc _ ['p']]
    rfl
  have hform' : printExt (⟨name⟩, version) =
      name ++ digits version.major ++ 'p' :: digits version.minor := rfl
  have hp : (printExt (⟨name⟩, version)).getD (n + 1 + (digits version.major).length) ' ' = 'p' := by
    rw [hform', List.getD_append_right _ _ _ _ (by rw [List.length_append, hn]),
      List.length_append, hn, Nat.sub_self]
    rfl
  have hlast : ((printExt (⟨name⟩, version)).getD n ' ').isDigit = false := by
    have hsplit : printExt (⟨name⟩, version) = name ++ printVersion version := printExt_eq _
    rw [hsplit, List.getD_append _ _ _ _ (by omega)]
    refine hname.last _ ?_
    rw [List.getLast?_eq_getElem?, hn, Nat.succ_sub_one, List.getD_eq_getElem _ _ (by omega),
      List.getElem?_eq_getElem (by omega)]
    exact Option.mem_some_self _
  have hskip : skipDigits (printExt (⟨name⟩, version))
      (n + 1 + (digits version.major).length + (digits version.minor).length) =
        n + 1 + (digits version.major).length := by
    refine skipDigits_eq (.inr (hp ▸ p_not_digit)) fun i hlt hle => ?_
    rw [hform]
    refine getD_digits ?_ ?_ <;>
      simp only [List.length_append, List.length_singleton] <;> omega
  have hskip' : skipDigits (printExt (⟨name⟩, version)) (n + (digits version.major).length) = n := by
    refine skipDigits_eq (.inr hlast) fun i hlt hle => ?_
    rw [hform']
    exact getD_digits (by omega) (by omega)
  have hlength : (printExt (⟨name⟩, version)).length - 1 =
      n + 1 + (digits version.major).length + (digits version.minor).length := by
    rw [hform', List.length_append, List.length_append, List.length_cons, hn]
    omega
  have hbefore : ((printExt (⟨name⟩, version)).getD (n + 1 + (digits version.major).length - 1)
      ' ').isDigit = true := by
    rw [hform']
    exact getD_digits (by omega) (by omega)
  unfold findLastNonVersionCharacter
  simp only [hlength, hskip, hp, hbefore]
  rw [if_pos (by simp only [decide_true, Bool.and_true, decide_eq_true_iff]; omega), show n + 1 + (digits version.major).length - 1 =
    n + (digits version.major).length by omega, hskip', hn]

theorem getExtensionType_append {rest : Str} (h : getExtensionType name ≠ []) :
    getExtensionType (name ++ rest) = getExtensionType name := by
  unfold getExtensionType at h ⊢
  split at h <;> first | rfl | exact absurd rfl h

theorem length_getExtensionType_le (name : Str) : (getExtensionType name).length ≤ 1 := by
  unfold getExtensionType
  split <;> decide

/-- **A multi-letter extension is read back.** -/
theorem parseOtherExt_printExt {ignore : Bool} (h : Readable check name version)
    (htype : getExtensionType name ≠ []) (hlong : 1 < name.length) :
    parseOtherExt (rereading check ignore) (printExt (⟨name⟩, version)) = .ok (some (name, version)) := by
  have hplain := Plain.of_supported h.supported
  have hpos := findLastNonVersionCharacter_printExt hplain version
  have hne : printExt (⟨name⟩, version) ≠ [] := by
    rw [printExt_eq]
    exact List.append_ne_nil_of_left_ne_nil hplain.ne_nil _
  have htake : (printExt (⟨name⟩, version)).take name.length = name := by
    rw [printExt_eq]
    exact List.take_left
  have hdrop : (printExt (⟨name⟩, version)).drop name.length = printVersion version ++ [] := by
    rw [printExt_eq, List.append_nil]
    exact List.drop_left
  have htype' : getExtensionType (printExt (⟨name⟩, version)) = getExtensionType name := by
    rw [printExt_eq]
    exact getExtensionType_append htype
  have hlength : name.length ≠ (getExtensionType name).length :=
    ((length_getExtensionType_le name).trans_lt hlong).ne'
  unfold parseOtherExt
  rw [if_neg hne]
  simp only [hpos, htake, hdrop, htype', if_neg htype, hlength, decide_false, Bool.and_false,
    Bool.false_eq_true, if_false]
  have hnone : ∀ c ∈ ([] : Str).head?, c.isDigit = false := fun c hc => by cases hc
  rw [getExtensionVersion_printVersion ignore h hnone fun _ => rfl]

/-! ## Normalized strings -/

/-- **A part of a normalized string is read back.** -/
theorem parseNormalizedExt_printExt (hname : Plain name) (hmajor : version.major < 2 ^ 32)
    (hminor : version.minor < 2 ^ 32) :
    parseNormalizedExt (printExt (⟨name⟩, version)) = .ok (name, version) := by
  have hall : ∀ n, ∀ c ∈ (digits n).reverse, c.isDigit = true := fun n c hc =>
    isDigit_of_mem_digits (List.mem_reverse.mp hc)
  have hreverse : (printExt (⟨name⟩, version)).reverse =
      (digits version.minor).reverse ++ 'p' :: (name ++ digits version.major).reverse := by
    rw [printExt, List.reverse_append, List.reverse_cons, List.append_assoc]
    rfl
  have hminorStr : ((printExt (⟨name⟩, version)).reverse.takeWhile (· ≠ 'p')).reverse =
      digits version.minor := by
    rw [hreverse, takeWhile_append_stop, List.reverse_reverse]
    · exact fun c hc => decide_eq_true (ne_of_isDigit (hall _ c hc) p_not_digit)
    · exact fun c hc => decide_eq_false fun hne => hne (Option.some.inj hc).symm
  have hlength : (printExt (⟨name⟩, version)).length =
      (name ++ digits version.major).length + (digits version.minor).length + 1 := by
    rw [printExt, List.length_append, List.length_cons]
    rfl
  have hhead : (printExt (⟨name⟩, version)).take
      ((printExt (⟨name⟩, version)).length - (digits version.minor).length - 1) =
        name ++ digits version.major := by
    rw [hlength, show (name ++ digits version.major).length + (digits version.minor).length + 1 -
      (digits version.minor).length - 1 = (name ++ digits version.major).length by omega]
    exact List.take_left
  have hmajorStr : ((name ++ digits version.major).reverse.takeWhile Char.isDigit).reverse =
      digits version.major := by
    rw [List.reverse_append, takeWhile_append_stop (hall _), List.reverse_reverse]
    intro c hc
    rw [List.head?_reverse] at hc
    exact hname.last c hc
  have hname' : (name ++ digits version.major).take
      ((name ++ digits version.major).length - (digits version.major).length) = name := by
    rw [List.length_append, Nat.add_sub_cancel]
    exact List.take_left
  have hshort : (digits version.minor).length ≠ (printExt (⟨name⟩, version)).length := by omega
  unfold parseNormalizedExt
  simp only [hminorStr, hhead, hmajorStr, hname', hshort, digits_ne_nil, decide_false,
    Bool.or_false, Bool.false_eq_true, if_false, getVersionPart, getAsInteger_digits hmajor,
    getAsInteger_digits hminor]

end RvLlvm.Isa
