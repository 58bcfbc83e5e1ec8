import RvLlvm.Isa.NormalizedRoundTrip

/-!
# Arch strings read back

`parseArchString` (`RISCVISAInfo.cpp:652-892`) on what `toString` writes: the base, the extensions
of one letter in their canonical order, then the others.

* `exists_split`: the three parts of the entries.
* **`parseArchString_toString`**: the round trip.
-/

namespace RvLlvm.Isa

open RvLlvm.Support RISCVISAInfo

variable {check ignore : Bool} {I I' : RISCVISAInfo}

/-! ## The parts of the entries -/

/-- A sorted list, cut at a rank. -/
theorem exists_cut {α : Type} {rank : α → Nat} {l : List α}
    (h : l.Pairwise fun a b => rank a ≤ rank b) (n : Nat) :
    ∃ low high, l = low ++ high ∧ (∀ a ∈ low, rank a < n) ∧ ∀ a ∈ high, n ≤ rank a := by
  induction l with
  | nil => exact ⟨[], [], rfl, fun _ ha => absurd ha List.not_mem_nil, fun _ ha => absurd ha List.not_mem_nil⟩
  | cons a l ih =>
    obtain ⟨ha, hl⟩ := List.pairwise_cons.mp h
    by_cases hlow : rank a < n
    · obtain ⟨low, high, rfl, hlows, hhighs⟩ := ih hl
      exact ⟨a :: low, high, rfl, List.forall_mem_cons.mpr ⟨hlow, hlows⟩, hhighs⟩
    · have hhigh : n ≤ rank a := Nat.le_of_not_lt hlow
      exact ⟨[], a :: l, rfl, fun _ hb => absurd hb List.not_mem_nil,
        List.forall_mem_cons.mpr ⟨hhigh, fun b hb => hhigh.trans (ha b hb)⟩⟩

/-- An extension of one letter. -/
def IsSingle (a : ExtName × Version) : Prop := ∃ c ∈ allStdExts, a.1.chars = [c]

/-- An extension of several letters. -/
structure IsMulti (a : ExtName × Version) : Prop where
  long : 1 < a.1.chars.length
  type : getExtensionType a.1.chars ≠ []
  start : ∃ c ∈ a.1.chars.head?, isOtherStart c = true

/-- **The base, the single letters, the others.** -/
theorem exists_split (hvalid : Valid check I) (hclosed : Closed I) (hone : OneBase I) :
    ∃ a singles multi, I.exts.entries = a :: (singles ++ multi) ∧
      (a.1.chars = ['i'] ∨ a.1.chars = ['e']) ∧ (∀ b ∈ singles, IsSingle b) ∧
      ∀ b ∈ multi, IsMulti b := by
  obtain ⟨a, l, hentries, hbase⟩ := exists_base hvalid hclosed
  have hsorted := sorted_rankOf I
  have hkeys := I.exts.sorted
  rw [hentries] at hsorted hkeys
  obtain ⟨singles, multi, hl, hlow, hhigh⟩ := exists_cut (List.pairwise_cons.mp hsorted).2 (2 ^ 6)
  have hnotbase : ∀ b ∈ l, ¬(b.1.chars = ['i'] ∨ b.1.chars = ['e']) := by
    intro b hb hbase'
    have hne : a.1.chars ≠ b.1.chars := fun heq =>
      ((List.pairwise_cons.mp hkeys).1 b hb).ne (congrArg ExtName.mk heq)
    have hcounta : I.count a.1.chars = true := count_of_mem (hentries ▸ List.mem_cons_self)
    have hcountb : I.count b.1.chars = true :=
      count_of_mem (hentries ▸ List.mem_cons_of_mem _ hb)
    rcases hbase with h | h <;> rcases hbase' with h' | h' <;> rw [h] at hcounta hne <;>
      rw [h'] at hcountb hne
    · exact hne rfl
    · exact hone ⟨hcounta, hcountb⟩
    · exact hone ⟨hcountb, hcounta⟩
    · exact hne rfl
  have hsupported : ∀ b ∈ l, isSupportedExtension b.1.chars = true := fun b hb =>
    (hvalid.readable b (hentries ▸ List.mem_cons_of_mem _ hb)).supported
  refine ⟨a, singles, multi, by rw [hentries, hl], hbase, fun b hb => ?_, fun b hb => ?_⟩
  · have hmem : b ∈ l := hl ▸ List.mem_append_left _ hb
    rcases kind_of_supported (hsupported b hmem) with h | h | ⟨-, -, -, h⟩
    · exact absurd h (hnotbase b hmem)
    · exact h
    · exact absurd (hlow b hb) (Nat.not_lt.mpr h)
  · have hmem : b ∈ l := hl ▸ List.mem_append_right _ hb
    rcases kind_of_supported (hsupported b hmem) with h | ⟨c, hc, h⟩ | ⟨hlong, htype, hstart, -⟩
    · exact absurd h (hnotbase b hmem)
    · have hrank : 2 ^ 6 ≤ getExtensionRank b.1.chars := hhigh b hb
      rw [h] at hrank
      exact absurd (rank_singles hc).2.1 (Nat.not_lt.mpr hrank)
    · exact ⟨hlong, htype, hstart⟩

/-! ## Single letters -/

theorem sorted_allStdExts :
    allStdExts.Pairwise fun c d => getExtensionRank [c] < getExtensionRank [d] := by decide +kernel

/-- What is later in the order is behind. -/
theorem mem_behind {itr rest : Str} {c d : Char}
    (h : itr.Pairwise fun c d => getExtensionRank [c] < getExtensionRank [d]) (hd : d ∈ itr)
    (hle : getExtensionRank [c] ≤ getExtensionRank [d]) (hne : c ≠ d)
    (hrest : itr.dropWhile (· ≠ c) = c :: rest) : d ∈ rest := by
  rw [← List.takeWhile_append_dropWhile (p := (· ≠ c)) (l := itr), hrest] at h hd
  rcases List.mem_append.mp hd with hd | hd
  · have hlt := (List.pairwise_append.mp h).2.2 d hd c List.mem_cons_self
    exact absurd hle (Nat.not_le.mpr hlt)
  · exact (List.mem_cons.mp hd).resolve_left hne.symm

theorem exists_dropWhile {itr : Str} {c : Char} (hc : c ∈ itr) :
    ∃ rest, itr.dropWhile (· ≠ c) = c :: rest := by
  induction itr with
  | nil => exact absurd hc List.not_mem_nil
  | cons e itr ih =>
    by_cases hec : e = c
    · exact ⟨itr, by rw [hec]; exact List.dropWhile_cons_of_neg (by simp)⟩
    · rw [List.dropWhile_cons_of_pos (by simpa using hec)]
      exact ih ((List.mem_cons.mp hc).resolve_left (Ne.symm hec))

theorem consumeUnderscore_cons (s : Str) : consumeUnderscore ('_' :: s) = s := rfl

/-- What stands behind a version: nothing, or an underscore. -/
theorem head?_separated (l : List (ExtName × Version)) {u : Str} (hu : u = [] ∨ u = ['_']) :
    ∀ c ∈ (separated l ++ u).head?, c.isDigit = false := by
  intro c hc
  cases l with
  | nil =>
    rcases hu with rfl | rfl
    · cases hc
    · exact Option.some.inj hc ▸ (by decide)
  | cons a l => exact Option.some.inj hc ▸ (by decide)

theorem readable_nil_or {name rest : Str} (h : name.length = 1) : 1 < name.length → rest = [] :=
  fun hlt => absurd hlt (by omega)

variable {l : List (ExtName × Version)}

/-- **The single letters are read back**, one after the other in the canonical order. -/
theorem parseStdExts_separated {stdExts itr u : Str} (hu : u = [] ∨ u = ['_'])
    (hitr : itr.Pairwise fun c d => getExtensionRank [c] < getExtensionRank [d])
    (hsorted : l.Pairwise fun a b => a.1 < b.1) (hread : ∀ a ∈ l, Readable check a.1.chars a.2)
    (hmem : ∀ a ∈ l, ∃ c ∈ itr, a.1.chars = [c]) :
    parseStdExts (rereading check ignore) stdExts itr (consumeUnderscore (separated l ++ u)) I =
      .ok (l.foldl addEntry I) := by
  induction l generalizing itr I with
  | nil => rcases hu with rfl | rfl <;> · rw [separated, List.flatMap_nil]; simp [consumeUnderscore, parseStdExts]
  | cons a l ih =>
    obtain ⟨halt, hsorted⟩ := List.pairwise_cons.mp hsorted
    rw [List.forall_mem_cons] at hread hmem
    obtain ⟨c, hc, hchars⟩ := hmem.1
    obtain ⟨rest, hrest⟩ := exists_dropWhile hc
    have hread' : Readable check [c] a.2 := hchars ▸ hread.1
    have hstr : separated (a :: l) ++ u = '_' :: c :: (printVersion a.2 ++ (separated l ++ u)) := by
      rw [separated, List.flatMap_cons, printExt_eq, hchars]
      simp only [List.cons_append, List.nil_append, List.append_assoc]
      rfl
    have hversion := getExtensionVersion_printVersion ignore hread' (head?_separated l hu)
      (readable_nil_or rfl)
    have hsub : rest.Sublist itr := by
      have h := List.dropWhile_sublist (· ≠ c) (l := itr)
      rw [hrest] at h
      exact (List.sublist_cons_self c rest).trans h
    rw [hstr, consumeUnderscore_cons, parseStdExts, hrest]
    simp only [hversion, hread'.supported, Bool.not_true, Bool.false_eq_true, if_false, goToNextExt,
      List.drop_left]
    have hadd : I.addExtension [c] a.2 = addEntry I a := by rw [addEntry, hchars]
    rw [hadd, List.foldl_cons]
    refine ih (hitr.sublist hsub) hsorted hread.2 fun b hb => ?_
    obtain ⟨d, hd, hdchars⟩ := hmem.2 b hb
    have hrank : getExtensionRank [c] ≤ getExtensionRank [d] := by
      have h := rankOf_le_of_lt (halt b hb)
      rwa [rankOf, rankOf, hchars, hdchars] at h
    have hne : c ≠ d := by
      rintro rfl
      exact (halt b hb).ne (congrArg ExtName.mk (hchars.trans hdchars.symm))
    exact ⟨d, mem_behind hitr hd hrank hne hrest, hdchars⟩

/-! ## The others -/

/-- **The others are read back.** -/
theorem parseOtherExts_printExt {allExts : List Str} (hread : ∀ a ∈ l, Readable check a.1.chars a.2)
    (hmulti : ∀ a ∈ l, IsMulti a) (hnodup : (allExts ++ l.map fun a => a.1.chars).Nodup) :
    parseOtherExts (rereading check ignore) (l.map printExt) I allExts =
      .ok (l.foldl addEntry I, allExts ++ l.map fun a => a.1.chars) := by
  induction l generalizing I allExts with
  | nil => rw [List.map_nil, List.map_nil, List.append_nil, parseOtherExts, List.foldl_nil]
  | cons a l ih =>
    rw [List.forall_mem_cons] at hread hmulti
    have hother : parseOtherExt (rereading check ignore) (printExt a) = .ok (some (a.1.chars, a.2)) :=
      parseOtherExt_printExt hread.1 hmulti.1.type hmulti.1.long
    have hsplit : allExts ++ (a :: l).map (fun a => a.1.chars) =
        (allExts ++ [a.1.chars]) ++ l.map fun a => a.1.chars := by
      rw [List.map_cons, List.append_assoc, List.singleton_append]
    have hnew : allExts.contains a.1.chars = false := by
      rw [List.contains_eq_mem, decide_eq_false_iff_not]
      intro hmem
      exact (List.nodup_append.mp hnodup).2.2 _ hmem _ List.mem_cons_self rfl
    rw [hsplit] at hnodup ⊢
    rw [List.map_cons, parseOtherExts, hother]
    simp only [hnew, hread.1.supported, Bool.not_true, Bool.and_false, Bool.false_eq_true, if_false]
    exact ih hread.2 hmulti.2 hnodup

/-! ## The string -/

theorem not_otherStart_of_isDigit {c : Char} (h : c.isDigit = true) : isOtherStart c = false := by
  have hz := ne_of_isDigit h (d := 'z') (by decide)
  have hs := ne_of_isDigit h (d := 's') (by decide)
  have hx := ne_of_isDigit h (d := 'x') (by decide)
  rw [isOtherStart, decide_eq_false hz, decide_eq_false hs, decide_eq_false hx]
  rfl

theorem not_otherStart_printVersion (version : Version) :
    ∀ c ∈ printVersion version, isOtherStart c = false := by
  intro c hc
  rcases printVersion_chars hc with h | rfl
  · exact not_otherStart_of_isDigit h
  · decide

theorem not_otherStart_separated (h : ∀ a ∈ l, IsSingle a) :
    ∀ c ∈ separated l, isOtherStart c = false := by
  intro c hc
  obtain ⟨a, ha, hc⟩ := List.mem_flatMap.mp hc
  obtain ⟨d, hd, hchars⟩ := h a ha
  rw [printExt_eq, hchars] at hc
  rcases List.mem_cons.mp hc with rfl | hc
  · decide
  · rcases List.mem_append.mp hc with hc | hc
    · exact List.mem_singleton.mp hc ▸ (rank_singles hd).2.2.2.2
    · exact not_otherStart_printVersion a.2 c hc

/-- The underscore before the others. -/
def separator (multi : List (ExtName × Version)) : Str := if multi = [] then [] else ['_']

theorem separated_eq (multi : List (ExtName × Version)) :
    separated multi = separator multi ++ joined multi := by
  cases multi with
  | nil => rfl
  | cons a l =>
    rw [joined_cons, separator, if_neg (List.cons_ne_nil _ _)]
    rfl

theorem separated_append (l l' : List (ExtName × Version)) :
    separated (l ++ l') = separated l ++ separated l' := List.flatMap_append

/-! ## The parts of an arch string -/

/-- What `parseArchString` does before the multi-letter extensions. -/
def parseHead (opts : Options) (head : Str) : Except String RISCVISAInfo :=
  let hasRV64 := "rv64".toList.isPrefixOf head
  if !("rv32".toList.isPrefixOf head || hasRV64) then
    .error "string must begin with rv32\x7bi,e,g\x7d or rv64\x7bi,e,g\x7d"
  else
    let baseline := head.getD 4 ' '
    if baseline ≠ 'e' && baseline ≠ 'i' && baseline ≠ 'g' then
      .error "first letter should be 'e', 'i' or 'g'"
    else if baseline = 'g' && (head.getD 5 ' ').isDigit then .error "version not supported for 'g'"
    else
      let stdExts := if baseline = 'g' then allStdExts.drop 4 else allStdExts
      match parseBaseline opts baseline (head.drop 5) (RISCVISAInfo.new (if hasRV64 then 64 else 32)) with
      | .error error => .error error
      | .ok (I, consumeLength) =>
        parseStdExts opts stdExts stdExts (consumeUnderscore ((head.drop 5).drop consumeLength)) I

/-- What it does from there on. -/
def parseTail (opts : Options) (parts : List Str) (I : RISCVISAInfo) : Except String RISCVISAInfo :=
  match parseOtherExts opts parts I [] with
  | .error error => .error error
  | .ok (I, allExts) =>
    match allExts.find? fun name => !isSupportedExtension name with
    | some name =>
      .error ("unsupported " ++ getExtensionTypeDesc name ++ " '" ++ String.ofList name ++ "'")
    | none => I.postProcessAndChecking

/-- A head, and multi-letter extensions, the first of which ends the head. -/
structure Cut (head : Str) (parts : List Str) : Prop where
  long : 5 ≤ head.length
  head : ∀ c ∈ head.drop 5, isOtherStart c = false
  start : ∀ s ∈ parts.head?, ∃ c ∈ s.head?, isOtherStart c = true
  whole : ∀ s ∈ parts, '_' ∉ s

instance (head : Str) (parts : List Str) : Decidable (Cut head parts) :=
  decidable_of_iff (5 ≤ head.length ∧ ((head.drop 5).all fun c => !isOtherStart c) = true ∧
      (parts.head?.all fun s => s.head?.any isOtherStart) = true ∧ ∀ s ∈ parts, '_' ∉ s) <| by
    constructor
    · rintro ⟨hlong, hhead, hstart, hwhole⟩
      refine ⟨hlong, fun c hc => ?_, fun s hs => ?_, hwhole⟩
      · exact Bool.not_eq_true' _ ▸ List.all_eq_true.mp hhead c hc
      · rw [Option.mem_def.mp hs, Option.all_some] at hstart
        obtain ⟨c, hc, hletter⟩ := exists_of_any hstart
        exact ⟨c, hc, hletter⟩
    · rintro ⟨hlong, hhead, hstart, hwhole⟩
      refine ⟨hlong, List.all_eq_true.mpr fun c hc => by rw [hhead c hc]; rfl, ?_, hwhole⟩
      cases hfirst : parts.head? with
      | none => rfl
      | some s =>
        obtain ⟨c, hc, hletter⟩ := hstart s hfirst
        rw [Option.all_some, Option.mem_def.mp hc, Option.any_some, hletter]

/-- The string of a head and multi-letter extensions. -/
def archString (head : Str) (parts : List Str) : Str := head ++ ['_'].intercalate parts

theorem head?_intercalate {parts : List Str}
    (h : ∀ s ∈ parts.head?, ∃ c ∈ s.head?, isOtherStart c = true) :
    ∀ c ∈ (['_'].intercalate parts).head?, isOtherStart c = true := by
  cases parts with
  | nil => exact fun c hc => by cases hc
  | cons s parts =>
    obtain ⟨d, hd, hstart⟩ := h s rfl
    have happ : ∃ t, ['_'].intercalate (s :: parts) = s ++ t := by
      cases parts with
      | nil => exact ⟨[], by simp [List.intercalate]⟩
      | cons s' parts => exact ⟨_, by simp [List.intercalate]; rfl⟩
    obtain ⟨t, ht⟩ := happ
    intro c hc
    rw [ht, List.head?_append, Option.mem_def.mp hd] at hc
    exact Option.some.inj hc ▸ hstart

theorem otherStart_not_digit {c : Char} (h : isOtherStart c = true) : c.isDigit = false := by
  by_contra hdigit
  rw [not_otherStart_of_isDigit (Bool.not_eq_false _ ▸ hdigit)] at h
  cases h

theorem isPrefixOf_append {p head : Str} (t : Str) (h : p.length ≤ head.length) :
    p.isPrefixOf (head ++ t) = p.isPrefixOf head := by
  rw [Bool.eq_iff_iff, List.isPrefixOf_iff_prefix, List.isPrefixOf_iff_prefix]
  exact ⟨fun hp => List.prefix_of_prefix_length_le hp (List.prefix_append _ _) h,
    fun hp => hp.trans (List.prefix_append _ _)⟩

/-- **An arch string is parsed in two parts.** -/
theorem parseArchString_archString {opts : Options} {head : Str} {parts : List Str}
    (h : Cut head parts) (hlower : (archString head parts).any Char.isUpper = false)
    (hlast : (archString head parts).getLast? ≠ some '_') :
    parseArchString opts (archString head parts) =
      (parseHead opts head).bind (parseTail opts parts) := by
  have hlong := h.long
  have hstart := head?_intercalate h.start
  have hstarts : ∀ p : String, p.toList.length = 4 →
      p.toList.isPrefixOf (archString head parts) = p.toList.isPrefixOf head := fun p hp =>
    isPrefixOf_append _ (by omega)
  have hlength : ¬(archString head parts).length < 5 := by
    rw [archString, List.length_append]
    omega
  have hbaseline : (archString head parts).getD 4 ' ' = head.getD 4 ' ' :=
    List.getD_append _ _ _ _ (by omega)
  have hdigit : ((archString head parts).getD 5 ' ').isDigit = (head.getD 5 ' ').isDigit := by
    by_cases hlt : 5 < head.length
    · rw [archString, List.getD_append _ _ _ _ hlt]
    · have hspace : head.getD 5 ' ' = ' ' := List.getD_eq_default _ _ (by omega)
      have hfive : 5 - head.length = 0 := by omega
      rw [archString, List.getD_append_right _ _ _ _ (by omega), hfive, hspace]
      cases hjoin : ['_'].intercalate parts with
      | nil => rfl
      | cons c t =>
        rw [hjoin] at hstart
        exact otherStart_not_digit (hstart c rfl)
  have hdrop : (archString head parts).drop 5 = head.drop 5 ++ ['_'].intercalate parts :=
    List.drop_append_of_le_length hlong
  have hlow : ∀ c ∈ head.drop 5, (!isOtherStart c) = true := fun c hc => by rw [h.head c hc]; rfl
  have hhigh : ∀ c ∈ (['_'].intercalate parts).head?, (!isOtherStart c) = false := fun c hc => by
    rw [hstart c hc]
    rfl
  have hexts := takeWhile_append_stop hlow hhigh
  have hothers := dropWhile_append_stop hlow hhigh
  rw [← hdrop] at hexts hothers
  have hparts : (if ['_'].intercalate parts = [] then [] else (['_'].intercalate parts).splitOn '_') =
      parts := by
    cases parts with
    | nil => rfl
    | cons s parts =>
      rw [if_neg, List.splitOn_intercalate '_' h.whole (List.cons_ne_nil _ _)]
      intro hnil
      rw [hnil] at hothers
      obtain ⟨d, hd, -⟩ := h.start s rfl
      have hlength := congrArg List.length hnil
      cases s with
      | nil => cases hd
      | cons c s => cases parts <;> simp [List.intercalate] at hlength
  unfold parseArchString
  rw [hlower, if_neg Bool.false_ne_true]
  simp only [hstarts "rv32" (by decide), hstarts "rv64" (by decide), hlength, hbaseline, hdigit, hexts,
    hothers, hparts, decide_false, Bool.or_false]
  unfold parseHead
  dsimp only
  split
  case isTrue => rfl
  case isFalse =>
    split
    case isTrue => rfl
    case isFalse =>
      split
      case isTrue => rfl
      case isFalse =>
        cases parseBaseline opts (head.getD 4 ' ') (head.drop 5)
          (RISCVISAInfo.new (if "rv64".toList.isPrefixOf head then 64 else 32)) with
        | error error => rfl
        | ok r =>
          simp only
          cases parseStdExts opts _ _ (consumeUnderscore ((head.drop 5).drop r.2)) r.1 with
          | error error => rfl
          | ok I => rfl

/-! ## The round trip -/

/-- What is written before the multi-letter extensions. -/
def printHead (d₁ d₂ b : Char) (version : Version) (singles multi : List (ExtName × Version)) : Str :=
  'r' :: 'v' :: d₁ :: d₂ :: b :: (printVersion version ++ (separated singles ++ separator multi))

theorem separator_cases (multi : List (ExtName × Version)) :
    separator multi = [] ∨ separator multi = ['_'] := by
  unfold separator
  split
  · exact .inl rfl
  · exact .inr rfl

theorem cut_printHead {d₁ d₂ b : Char} {version : Version} {singles multi : List (ExtName × Version)}
    (hsingles : ∀ a ∈ singles, IsSingle a) (hmulti : ∀ a ∈ multi, IsMulti a)
    (hread : ∀ a ∈ multi, Readable check a.1.chars a.2) :
    Cut (printHead d₁ d₂ b version singles multi) (multi.map printExt) where
  long := by
    rw [printHead, List.length_cons, List.length_cons, List.length_cons, List.length_cons,
      List.length_cons]
    omega
  head c hc := by
    rcases List.mem_append.mp hc with hc | hc
    · exact not_otherStart_printVersion version c hc
    · rcases List.mem_append.mp hc with hc | hc
      · exact not_otherStart_separated hsingles c hc
      · rcases separator_cases multi with h | h <;> rw [h] at hc
        · exact absurd hc List.not_mem_nil
        · exact List.mem_singleton.mp hc ▸ (by decide)
  start s hs := by
    obtain ⟨a, ha, rfl⟩ := List.mem_map.mp (List.mem_of_mem_head? hs)
    obtain ⟨c, hc, hstart⟩ := (hmulti a ha).start
    refine ⟨c, ?_, hstart⟩
    rw [printExt_eq, List.head?_append, Option.mem_def.mp hc]
    rfl
  whole s hs := by
    obtain ⟨a, ha, rfl⟩ := List.mem_map.mp hs
    exact fun hc => (printExt_chars (hread a ha) '_' hc).1 rfl

/-- The base and the single letters are read back. -/
theorem parseHead_printHead {xLen : Nat} {d₁ d₂ b : Char} {version : Version}
    {singles : List (ExtName × Version)} (multi : List (ExtName × Version))
    (hd : (xLen = 32 ∧ d₁ = '3' ∧ d₂ = '2') ∨ (xLen = 64 ∧ d₁ = '6' ∧ d₂ = '4'))
    (hb : b = 'i' ∨ b = 'e') (hversion : Readable check [b] version)
    (hsorted : singles.Pairwise fun a b => a.1 < b.1)
    (hread : ∀ a ∈ singles, Readable check a.1.chars a.2) (hsingles : ∀ a ∈ singles, IsSingle a) :
    parseHead (rereading check ignore) (printHead d₁ d₂ b version singles multi) =
      .ok (singles.foldl addEntry ((RISCVISAInfo.new xLen).addExtension [b] version)) := by
  have hsep := separator_cases multi
  have hbaseline := getExtensionVersion_printVersion ignore hversion (head?_separated singles hsep)
    (readable_nil_or rfl)
  have hstd : parseStdExts (rereading check ignore) allStdExts allStdExts
      (consumeUnderscore (separated singles ++ separator multi))
        ((RISCVISAInfo.new xLen).addExtension [b] version) =
      .ok (singles.foldl addEntry ((RISCVISAInfo.new xLen).addExtension [b] version)) :=
    parseStdExts_separated hsep sorted_allStdExts hsorted hread hsingles
  have hstarts : ∀ x y, ['r', 'v', x, y].isPrefixOf (printHead d₁ d₂ b version singles multi) =
      (x == d₁ && y == d₂) := by
    intro x y
    simp [printHead, List.isPrefixOf]
  have hletter : (printHead d₁ d₂ b version singles multi).getD 4 ' ' = b := rfl
  have hdrop : (printHead d₁ d₂ b version singles multi).drop 5 =
      printVersion version ++ (separated singles ++ separator multi) := rfl
  have hnotg : b ≠ 'g' := by rcases hb with rfl | rfl <;> decide
  have hallowed : (b ≠ 'e' && b ≠ 'i' && b ≠ 'g') = false := by
    rcases hb with rfl | rfl <;> decide
  have hwidth : (!(['r', 'v', '3', '2'].isPrefixOf (printHead d₁ d₂ b version singles multi) ||
      ['r', 'v', '6', '4'].isPrefixOf (printHead d₁ d₂ b version singles multi))) = false ∧
      (if ['r', 'v', '6', '4'].isPrefixOf (printHead d₁ d₂ b version singles multi) = true then 64
        else 32) = xLen := by
    rw [hstarts, hstarts]
    rcases hd with ⟨rfl, rfl, rfl⟩ | ⟨rfl, rfl, rfl⟩ <;> decide
  unfold parseHead
  dsimp only
  rw [show "rv32".toList = ['r', 'v', '3', '2'] by decide,
    show "rv64".toList = ['r', 'v', '6', '4'] by decide, hwidth.1, hwidth.2, hletter, hallowed, hdrop,
    if_neg Bool.false_ne_true, if_neg Bool.false_ne_true, decide_eq_false hnotg, Bool.false_and,
    if_neg Bool.false_ne_true, parseBaseline, if_neg hnotg, hbaseline]
  dsimp only
  rw [List.drop_left, if_neg hnotg]
  exact hstd

/-- The multi-letter extensions are read back, and nothing else is added. -/
theorem parseTail_printExt {multi : List (ExtName × Version)} (hclosed : Closed I')
    (hcheck : I'.withLens.checkDependency = none)
    (hread : ∀ a ∈ multi, Readable check a.1.chars a.2) (hmulti : ∀ a ∈ multi, IsMulti a)
    (hsorted : multi.Pairwise fun a b => a.1 < b.1) (hI : multi.foldl addEntry I = I') :
    parseTail (rereading check ignore) (multi.map printExt) I = .ok I'.withLens := by
  have hnodup : (multi.map fun a => a.1.chars).Nodup :=
    List.pairwise_map.mpr (hsorted.imp fun hlt heq => hlt.ne (congrArg ExtName.mk heq))
  have hother : parseOtherExts (rereading check ignore) (multi.map printExt) I [] =
      .ok (multi.foldl addEntry I, multi.map fun a => a.1.chars) :=
    parseOtherExts_printExt hread hmulti hnodup
  have hall : (multi.map fun a => a.1.chars).find? (fun name => !isSupportedExtension name) = none := by
    rw [List.find?_eq_none]
    intro name hname
    obtain ⟨a, ha, rfl⟩ := List.mem_map.mp hname
    rw [(hread a ha).supported, Bool.not_true]
    exact Bool.false_ne_true
  unfold parseTail
  rw [hother, hI]
  dsimp only
  rw [hall]
  exact postProcessAndChecking_eq hclosed hcheck

/-- **The round trip of arch strings.** -/
theorem parseArchString_toString (hvalid : Valid check I) (hclosed : Closed I) (hone : OneBase I)
    (hcheck : I.withLens.checkDependency = none) :
    parseArchString (rereading check ignore) I.toString = .ok I.withLens := by
  obtain ⟨a, singles, multi, hentries, hbase, hsingles, hmulti⟩ := exists_split hvalid hclosed hone
  have hread := hvalid.readable
  have hsorted := I.exts.sorted
  have hresult := foldl_addEntry_entries hvalid
  rw [hentries] at hread hsorted hresult
  rw [List.forall_mem_cons, List.forall_mem_append] at hread
  obtain ⟨hreada, hreads, hreadm⟩ := hread
  obtain ⟨hsorteds, hsortedm, -⟩ := List.pairwise_append.mp (List.pairwise_cons.mp hsorted).2
  obtain ⟨b, hb, hchars⟩ : ∃ b, (b = 'i' ∨ b = 'e') ∧ a.1.chars = [b] := by
    rcases hbase with h | h
    · exact ⟨'i', .inl rfl, h⟩
    · exact ⟨'e', .inr rfl, h⟩
  rw [List.foldl_cons, List.foldl_append, addEntry, hchars] at hresult
  rw [hchars] at hreada
  obtain ⟨d₁, d₂, hstr, hd⟩ := prefix_eq hvalid.xLen
  have hform : I.toString = archString (printHead d₁ d₂ b a.2 singles multi) (multi.map printExt) := by
    rw [toString_eq, hstr, hentries, joined_cons, separated_append, separated_eq multi, printExt_eq,
      hchars, archString, printHead]
    simp only [List.append_assoc, List.cons_append, List.nil_append, joined]
  have hlast : I.toString.getLast? ≠ some '_' := by
    obtain ⟨c, hc, hdigit⟩ := getLast?_joined a (singles ++ multi) ("rv".toList ++ digits I.xLen)
    rw [← hentries, ← toString_eq] at hc
    rw [hc]
    exact fun heq => ne_of_isDigit hdigit (by decide) (Option.some.inj heq)
  have hlower := lower_toString hvalid
  rw [hform] at hlast hlower ⊢
  rw [parseArchString_archString (cut_printHead hsingles hmulti hreadm) hlower hlast,
    parseHead_printHead multi hd hb hreada hsorteds hreads hsingles]
  exact parseTail_printExt hclosed hcheck hreadm hmulti hsortedm hresult

end RvLlvm.Isa
