import RvLlvm.Isa.Closure
import RvLlvm.Isa.ExtString

/-!
# Normalized ISA strings read back

`parseNormalizedArchString` (`RISCVISAInfo.cpp:591-650`) on what `toString` writes.

* `Valid`, `OneBase`: the sets of extensions that can be written and read back.
* **`parseNormalizedArchString_toString`**: the round trip of normalized strings.
-/

namespace RvLlvm.Isa

open RvLlvm.Support RISCVISAInfo

variable {check : Bool} {I I' : RISCVISAInfo}

/-! ## Sets that can be written -/

/-- Readable extensions, and lengths that are not computed yet. -/
structure Valid (check : Bool) (I : RISCVISAInfo) : Prop where
  xLen : I.xLen = 32 ∨ I.xLen = 64
  frame : I = ⟨I.xLen, I.exts, 0, 0, 0, 0⟩
  readable : ∀ a ∈ I.exts.entries, Readable check a.1.chars a.2

/-- `i` and `e` are not both there. -/
def OneBase (I : RISCVISAInfo) : Prop := ¬(I.count ['i'] = true ∧ I.count ['e'] = true)

theorem Valid.new {xLen : Nat} (h : xLen = 32 ∨ xLen = 64) : Valid check (RISCVISAInfo.new xLen) :=
  ⟨h, rfl, fun _ ha => absurd ha List.not_mem_nil⟩

theorem Valid.addExtension {name : Str} {version : Version} (h : Valid check I)
    (hreadable : Readable check name version) : Valid check (I.addExtension name version) where
  xLen := h.xLen
  frame := congrArg (fun K => K.addExtension name version) h.frame
  readable a ha := by
    rcases (OrderedMap.mem_set _ _ _).mp ha with rfl | ha
    · exact hreadable
    · exact h.readable a ha.2

theorem Valid.addDefault {name : Str} (h : Valid check I) : Valid check (I.addDefault name) := by
  unfold RISCVISAInfo.addDefault
  split
  · exact h.addExtension (.of_default ‹_›)
  · exact h

theorem Valid.withBase (h : Valid check I) : Valid check I.withBase := by
  unfold RISCVISAInfo.withBase
  split
  · exact h.addDefault
  · exact h

theorem Valid.of_extends (h : Valid check I) (hext : Extends I I') : Valid check I' where
  xLen := by
    rw [hext.xLen]
    exact h.xLen
  frame := by
    rw [hext.xLen]
    exact hext.frame.trans (congrArg (fun K => { K with exts := I'.exts }) h.frame)
  readable a ha := (hext.added a ha).elim (h.readable a) fun hadded => .of_default hadded.2

theorem Valid.erase (h : Valid check I) (name : Str) :
    Valid check { I with exts := I.exts.erase ⟨name⟩ } where
  xLen := h.xLen
  frame := congrArg (fun K => { K with exts := I.exts.erase ⟨name⟩ }) h.frame
  readable a ha := h.readable a ((OrderedMap.mem_erase _ _ _).mp ha).1

theorem OneBase.addExtension {name : Str} {version : Version} (h : OneBase I)
    (hname : name ≠ ['i'] ∧ name ≠ ['e']) : OneBase (I.addExtension name version) := by
  unfold OneBase
  rw [count_addExtension, count_addExtension, decide_eq_false hname.1.symm,
    decide_eq_false hname.2.symm, Bool.false_or, Bool.false_or]
  exact h

theorem OneBase.withBase (h : OneBase I) : OneBase I.withBase := by
  unfold RISCVISAInfo.withBase
  split
  case isTrue hnone =>
    rw [Bool.and_eq_true, Bool.not_eq_true'] at hnone
    unfold RISCVISAInfo.addDefault
    split
    · unfold OneBase
      rw [count_addExtension, count_addExtension, hnone.1]
      exact fun hboth => absurd hboth.2 (by decide)
    · exact h
  case isFalse => exact h

theorem OneBase.of_extends (h : OneBase I) (hext : Extends I I') : OneBase I' := by
  have hold : ∀ name, name ∉ addedNames → I'.count name = true → I.count name = true := by
    intro name hname hcount
    obtain ⟨version, hmem⟩ := count_iff.mp hcount
    exact count_of_mem ((hext.added _ hmem).resolve_right fun hadded => hname hadded.1)
  have hnot : ∀ name, (name = ['i'] ∨ name = ['e']) → name ∉ addedNames := by
    intro name hname hmem
    obtain ⟨-, hi, he⟩ := supported_addedNames name hmem
    exact hname.elim hi he
  exact fun hboth => h ⟨hold _ (hnot _ (.inl rfl)) hboth.1, hold _ (hnot _ (.inr rfl)) hboth.2⟩

/-- **What is accepted** has its lengths from a valid and closed set. -/
theorem valid_of_postProcessAndChecking {R : RISCVISAInfo} (hvalid : Valid check I)
    (h : I.postProcessAndChecking = .ok R) : ∃ J, Valid check J ∧ Closed J ∧ (OneBase I → OneBase J) ∧
      R = J.withLens ∧ R.checkDependency = none := by
  obtain ⟨J, hext, hclosed, hR, hnone⟩ := closed_postProcessAndChecking h
  exact ⟨J, hvalid.withBase.of_extends hext, hclosed, fun hone => hone.withBase.of_extends hext, hR,
    hnone⟩

/-! ## Adding extensions one after the other -/

/-- An entry, added. -/
def addEntry (I : RISCVISAInfo) (a : ExtName × Version) : RISCVISAInfo := I.addExtension a.1.chars a.2

theorem foldl_addEntry (l : List (ExtName × Version)) (I : RISCVISAInfo) :
    l.foldl addEntry I = { I with exts := l.foldl OrderedMap.set I.exts } := by
  induction l generalizing I with
  | nil => rfl
  | cons a l ih =>
    rw [List.foldl_cons, ih]
    rfl

/-- All entries of a set, added to the empty one. -/
theorem foldl_addEntry_entries (h : Valid check I) :
    I.exts.entries.foldl addEntry (RISCVISAInfo.new I.xLen) = I := by
  rw [foldl_addEntry]
  change { RISCVISAInfo.new I.xLen with
    exts := I.exts.entries.foldl OrderedMap.set OrderedMap.empty } = I
  rw [OrderedMap.foldl_set_entries]
  exact h.frame.symm

/-! ## The string -/

/-- Extensions with an underscore before each. -/
def separated (l : List (ExtName × Version)) : Str := l.flatMap fun a => '_' :: printExt a

/-- Extensions with underscores between them. -/
def joined (l : List (ExtName × Version)) : Str := ['_'].intercalate (l.map printExt)

theorem joined_cons (a : ExtName × Version) (l : List (ExtName × Version)) :
    joined (a :: l) = printExt a ++ separated l := by
  induction l generalizing a with
  | nil => simp [joined, separated, List.intercalate]
  | cons b l ih =>
    have h : joined (a :: b :: l) = printExt a ++ '_' :: joined (b :: l) := by
      simp [joined, List.intercalate]
    rw [h, ih]
    rfl

theorem toString_eq (I : RISCVISAInfo) :
    I.toString = "rv".toList ++ digits I.xLen ++ joined I.exts.entries := rfl

theorem toString_withLens (I : RISCVISAInfo) : I.withLens.toString = I.toString := rfl

/-- The characters of a digit or of a letter of a table. -/
def Lower (s : Str) : Prop := ∀ c ∈ s, c.isUpper = false

theorem not_isUpper_of_isDigit {c : Char} (h : c.isDigit = true) : c.isUpper = false := by
  rw [Char.isDigit, Bool.and_eq_true, decide_eq_true_iff, decide_eq_true_iff] at h
  refine decide_eq_false fun hupper => ?_
  exact absurd (UInt32.le_trans hupper.1 h.2) (by decide)

theorem printVersion_chars {version : Version} {c : Char} (h : c ∈ printVersion version) :
    c.isDigit = true ∨ c = 'p' := by
  rcases List.mem_append.mp h with h | h
  · exact .inl (isDigit_of_mem_digits h)
  · exact (List.mem_cons.mp h).symm.imp_left isDigit_of_mem_digits

theorem printExt_chars {a : ExtName × Version} (h : Readable check a.1.chars a.2) :
    ∀ c ∈ printExt a, c ≠ '_' ∧ c.isUpper = false := by
  intro c hc
  rw [printExt_eq] at hc
  rcases List.mem_append.mp hc with hc | hc
  · exact (Plain.of_supported h.supported).chars c hc
  · rcases printVersion_chars hc with hdigit | rfl
    · exact ⟨ne_of_isDigit hdigit (by decide), not_isUpper_of_isDigit hdigit⟩
    · decide

variable {l : List (ExtName × Version)}

theorem joined_lower (h : ∀ a ∈ l, Readable check a.1.chars a.2) :
    ∀ c ∈ joined l, c.isUpper = false := by
  cases l with
  | nil => exact fun c hc => absurd hc List.not_mem_nil
  | cons a l =>
    rw [List.forall_mem_cons] at h
    intro c hc
    rw [joined_cons] at hc
    rcases List.mem_append.mp hc with hc | hc
    · exact (printExt_chars h.1 c hc).2
    · obtain ⟨b, hb, hc⟩ := List.mem_flatMap.mp hc
      rcases List.mem_cons.mp hc with rfl | hc
      · decide
      · exact (printExt_chars (h.2 b hb) c hc).2

theorem splitOn_joined (hne : l ≠ []) (h : ∀ a ∈ l, Readable check a.1.chars a.2) :
    (joined l).splitOn '_' = l.map printExt := by
  refine List.splitOn_intercalate '_' (fun s hs => ?_) fun hnil => hne (List.map_eq_nil_iff.mp hnil)
  obtain ⟨a, ha, rfl⟩ := List.mem_map.mp hs
  exact fun hc => (printExt_chars (h a ha) '_' hc).1 rfl

/-- The last character is a digit. -/
theorem getLast?_joined (a : ExtName × Version) (l : List (ExtName × Version)) (s : Str) :
    ∃ c, (s ++ joined (a :: l)).getLast? = some c ∧ c.isDigit = true := by
  induction l generalizing a s with
  | nil =>
    have hne := digits_ne_nil a.2.minor
    refine ⟨(digits a.2.minor).getLast hne, ?_, isDigit_of_mem_digits (List.getLast_mem hne)⟩
    rw [joined_cons, printExt, separated, List.flatMap_nil, List.append_nil, List.getLast?_append,
      List.getLast?_append, List.getLast?_cons, List.getLast?_eq_some_getLast hne]
    rfl
  | cons b l ih =>
    have h : s ++ joined (a :: b :: l) = (s ++ printExt a ++ ['_']) ++ joined (b :: l) := by
      rw [joined_cons, joined_cons, separated, List.flatMap_cons, separated]
      simp only [List.append_assoc, List.cons_append, List.nil_append]
    rw [h]
    exact ih b _

/-! ## Normalized strings -/

theorem parseNormalizedExts_printExt (h : ∀ a ∈ l, Readable check a.1.chars a.2) :
    parseNormalizedExts (l.map printExt) I = .ok (l.foldl addEntry I) := by
  induction l generalizing I with
  | nil => rfl
  | cons a l ih =>
    rw [List.forall_mem_cons] at h
    have hplain := Plain.of_supported h.1.supported
    have hext : parseNormalizedExt (printExt a) = .ok (a.1.chars, a.2) :=
      parseNormalizedExt_printExt hplain h.1.major h.1.minor
    rw [List.map_cons, parseNormalizedExts, hext]
    exact ih h.2

/-- The rank of an entry. -/
def rankOf (a : ExtName × Version) : Nat := getExtensionRank a.1.chars

theorem rankOf_le_of_lt {a b : ExtName × Version} (h : a.1 < b.1) : rankOf a ≤ rankOf b := by
  have hkey : a.1.key < b.1.key := h
  rcases (Prod.Lex.lt_iff).mp hkey with h | h
  · exact h.le
  · exact h.1.le

theorem sorted_rankOf (I : RISCVISAInfo) :
    I.exts.entries.Pairwise fun a b => rankOf a ≤ rankOf b :=
  I.exts.sorted.imp rankOf_le_of_lt

theorem rank_bases : ∀ name, name = ['i'] ∨ name = ['e'] → getExtensionRank name < 2 := by
  rintro name (rfl | rfl) <;> decide

theorem rank_singles {c : Char} (h : c ∈ allStdExts) : 2 ≤ getExtensionRank [c] ∧
    getExtensionRank [c] < 2 ^ 6 ∧ [c] ≠ ['i'] ∧ [c] ≠ ['e'] ∧ isOtherStart c = false := by
  have hall : (allStdExts.all fun c => 2 ≤ getExtensionRank [c] ∧ getExtensionRank [c] < 2 ^ 6 ∧
      [c] ≠ ['i'] ∧ [c] ≠ ['e'] ∧ isOtherStart c = false) = true := by decide +kernel
  exact of_decide_eq_true (List.all_eq_true.mp hall c h)

theorem kind_of_supported {name : Str} (h : isSupportedExtension name = true) :
    (name = ['i'] ∨ name = ['e']) ∨ (∃ c ∈ allStdExts, name = [c]) ∨
      (1 < name.length ∧ getExtensionType name ≠ [] ∧ (∃ c ∈ name.head?, isOtherStart c = true) ∧
        2 ^ 6 ≤ getExtensionRank name) := by
  obtain ⟨version, -, hmem⟩ := exists_mem_tables h
  rcases tables_kinds _ hmem with hbase | hsingle | ⟨hlong, htype, hstart, hrank⟩
  · exact .inl hbase
  · obtain ⟨c, hc, hchars⟩ := List.any_eq_true.mp hsingle
    exact .inr (.inl ⟨c, hc, of_decide_eq_true hchars⟩)
  · obtain ⟨c, hc, hletter⟩ := exists_of_any hstart
    exact .inr (.inr ⟨hlong, htype, ⟨c, hc, hletter⟩, hrank⟩)

/-- **The base comes first.** -/
theorem exists_base (hvalid : Valid check I) (hclosed : Closed I) :
    ∃ a l, I.exts.entries = a :: l ∧ (a.1.chars = ['i'] ∨ a.1.chars = ['e']) := by
  obtain ⟨b, hb, hbase⟩ : ∃ b ∈ I.exts.entries, b.1.chars = ['i'] ∨ b.1.chars = ['e'] := by
    rcases hclosed.base with h | h
    · obtain ⟨version, hmem⟩ := count_iff.mp h
      exact ⟨_, hmem, .inl rfl⟩
    · obtain ⟨version, hmem⟩ := count_iff.mp h
      exact ⟨_, hmem, .inr rfl⟩
  cases hentries : I.exts.entries with
  | nil =>
    rw [hentries] at hb
    exact absurd hb List.not_mem_nil
  | cons a l =>
    refine ⟨a, l, rfl, ?_⟩
    have hle : rankOf a ≤ rankOf b := by
      have hsorted := sorted_rankOf I
      rw [hentries] at hsorted hb
      rcases List.mem_cons.mp hb with rfl | hb
      · exact le_rfl
      · exact (List.pairwise_cons.mp hsorted).1 b hb
    have hlow : getExtensionRank a.1.chars < 2 := hle.trans_lt (rank_bases _ hbase)
    have ha := (hvalid.readable a (hentries ▸ List.mem_cons_self)).supported
    rcases kind_of_supported ha with h | ⟨c, hc, h⟩ | ⟨-, -, -, h⟩
    · exact h
    · rw [h] at hlow
      exact absurd (rank_singles hc).1 (by omega)
    · omega

/-- The digits of the two widths. -/
theorem prefix_eq (h : I.xLen = 32 ∨ I.xLen = 64) : ∃ d₁ d₂, "rv".toList ++ digits I.xLen =
    ['r', 'v', d₁, d₂] ∧ ((I.xLen = 32 ∧ d₁ = '3' ∧ d₂ = '2') ∨ (I.xLen = 64 ∧ d₁ = '6' ∧ d₂ = '4')) := by
  rcases h with h | h
  · rw [h]
    exact ⟨'3', '2', by decide, .inl ⟨rfl, rfl, rfl⟩⟩
  · rw [h]
    exact ⟨'6', '4', by decide, .inr ⟨rfl, rfl, rfl⟩⟩

theorem lower_toString (hvalid : Valid check I) : I.toString.any Char.isUpper = false := by
  rw [List.any_eq_false]
  intro c hc
  rw [toString_eq] at hc
  rw [Bool.not_eq_true]
  rcases List.mem_append.mp hc with hc | hc
  · obtain ⟨d₁, d₂, hstr, hd⟩ := prefix_eq hvalid.xLen
    rw [hstr] at hc
    have hany : ['r', 'v', d₁, d₂].any Char.isUpper = false := by
      rcases hd with ⟨-, rfl, rfl⟩ | ⟨-, rfl, rfl⟩ <;> decide
    exact Bool.not_eq_true _ ▸ List.any_eq_false.mp hany c hc
  · exact joined_lower hvalid.readable c hc

/-- **The round trip of normalized strings.** -/
theorem parseNormalizedArchString_toString (hvalid : Valid check I) (hclosed : Closed I) :
    parseNormalizedArchString I.toString = .ok I.withLens := by
  obtain ⟨a, l, hentries, hbase⟩ := exists_base hvalid hclosed
  have hsplit := splitOn_joined (l := I.exts.entries) (by rw [hentries]; exact List.cons_ne_nil _ _)
    hvalid.readable
  have hread := parseNormalizedExts_printExt (I := RISCVISAInfo.new I.xLen) hvalid.readable
  rw [foldl_addEntry_entries hvalid] at hread
  obtain ⟨d₁, d₂, hstr, hd⟩ := prefix_eq hvalid.xLen
  have hdrop : I.toString.drop 4 = joined I.exts.entries := by
    rw [toString_eq, hstr]
    rfl
  obtain ⟨b, rest, hform, hb⟩ : ∃ b rest, I.toString = 'r' :: 'v' :: d₁ :: d₂ :: b :: rest ∧
      (b = 'i' ∨ b = 'e') := by
    rw [toString_eq, hstr, hentries, joined_cons, printExt_eq]
    rcases hbase with h | h
    · exact ⟨'i', _, by rw [h]; rfl, .inl rfl⟩
    · exact ⟨'e', _, by rw [h]; rfl, .inr rfl⟩
  have hstarts : ∀ x y z, ['r', 'v', x, y, z].isPrefixOf I.toString = (x == d₁ && (y == d₂ && z == b)) := by
    intro x y z
    rw [hform]
    simp [List.isPrefixOf]
  unfold parseNormalizedArchString
  rw [lower_toString hvalid, if_neg Bool.false_ne_true, hdrop, hsplit]
  simp only [show "rv32i".toList = ['r', 'v', '3', '2', 'i'] by decide,
    show "rv32e".toList = ['r', 'v', '3', '2', 'e'] by decide,
    show "rv64i".toList = ['r', 'v', '6', '4', 'i'] by decide,
    show "rv64e".toList = ['r', 'v', '6', '4', 'e'] by decide, hstarts]
  rcases hd with ⟨hx, rfl, rfl⟩ | ⟨hx, rfl, rfl⟩ <;> rcases hb with rfl | rfl <;>
    · rw [hx] at hread
      simp [hread, withLens]

end RvLlvm.Isa
