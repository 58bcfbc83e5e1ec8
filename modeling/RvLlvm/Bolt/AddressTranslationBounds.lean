import RvLlvm.Bolt.AddressTranslation

/-!
# What the parser of address translation tables accepts

`BoltAddressTranslation::parse` (`bolt/lib/Profile/BoltAddressTranslation.cpp:131-197`) on every
byte string. A read past the end gives zero and is no error; a subtraction from the size of the
buffer wraps once the offset is past its end; a count times eight wraps from `2 ^ 29` on. The test
of the sizes of the name and the description has the offset on the side of the buffer.

Results:
* `parseTables_isSome_iff`: from inside the buffer, what is accepted is what lies in it.
* `consumesInside_iff`: `parse` keeps to the buffer exactly when the name of a note that it does not
  refuse ends there, and no function of a table that lies in the buffer has `2 ^ 29` entries.
* `not_consumesInside_longName`: a note whose name runs past the end.
-/

namespace RvLlvm.Bolt.AddressTranslation

open Support

/-! ## The layout of the tables -/

/-- The number of entries of the function at `off`. -/
def numEntries (buf : List UInt8) (off : Nat) : Nat := (getU 4 buf (off + 8)).1

/-- The end of the function at `off`. -/
def mapEnd (buf : List UInt8) (off : Nat) : Nat := off + 12 + 8 * numEntries buf off

/-- The end of `n` functions from `off` on. -/
def mapsEnd (buf : List UInt8) : Nat → Nat → Nat
  | 0, off => off
  | n + 1, off => mapsEnd buf n (mapEnd buf off)

/-- The headers of `n` functions and their entries lie in the buffer. -/
def MapsInside (buf : List UInt8) : Nat → Nat → Prop
  | 0, _ => True
  | n + 1, off => off + 12 ≤ buf.length ∧ mapEnd buf off ≤ buf.length ∧
      MapsInside buf n (mapEnd buf off)

/-- The sizes of the entries of `n` functions fit 32 bits. -/
def CountsFit (buf : List UInt8) : Nat → Nat → Prop
  | 0, _ => True
  | n + 1, off => 8 * numEntries buf off < 2 ^ 32 ∧ CountsFit buf n (mapEnd buf off)

/-- The two counts, all functions and all cold entries lie in the buffer. -/
structure TablesInside (buf : List UInt8) (off : Nat) : Prop where
  count : off + 4 ≤ buf.length
  maps : MapsInside buf (getU 4 buf off).1 (off + 4)
  coldCount : mapsEnd buf (getU 4 buf off).1 (off + 4) + 4 ≤ buf.length
  cold : mapsEnd buf (getU 4 buf off).1 (off + 4) + 4 +
    16 * (getU 4 buf (mapsEnd buf (getU 4 buf off).1 (off + 4))).1 ≤ buf.length

/-! ## Reading -/

section

variable {buf : List UInt8} {off : Nat}

theorem getU_snd {k : Nat} (h : off + k ≤ buf.length) : (getU k buf off).2 = off + k := by
  rw [getU, if_pos h]

theorem getU_of_past {k : Nat} (h : buf.length < off + k) : getU k buf off = (0, off) := by
  rw [getU, if_neg (Nat.not_le.mpr h)]

theorem remaining_of_le (h : off ≤ buf.length) : remaining buf off = buf.length - off := if_pos h

variable {n : Nat}

/-- Entries in the buffer. -/
theorem parseEntries_fst (h : off + 8 * n ≤ buf.length) (m : MapTy) :
    (parseEntries buf n off m).1 = off + 8 * n := by
  induction n generalizing off m with
  | zero => rfl
  | succ n ih =>
    rw [parseEntries]
    simp only
    rw [getU_snd (by omega : off + 4 ≤ buf.length),
      getU_snd (by omega : off + 4 + 4 ≤ buf.length), ih (by omega)]
    omega

/-- At the end of the buffer nothing moves. -/
theorem parseEntries_fst_of_past (h : buf.length < off + 4) (m : MapTy) :
    (parseEntries buf n off m).1 = off := by
  induction n generalizing m with
  | zero => rfl
  | succ n ih =>
    rw [parseEntries]
    simp only [getU_of_past h]
    exact ih _

/-- More entries than the buffer holds leave less than a count of it. -/
theorem parseEntries_fst_of_lt (hle : off ≤ buf.length) (h : buf.length < off + 8 * n) (m : MapTy) :
    (parseEntries buf n off m).1 ≤ buf.length ∧
      buf.length < (parseEntries buf n off m).1 + 4 := by
  induction n generalizing off m with
  | zero => omega
  | succ n ih =>
    by_cases hfirst : off + 4 ≤ buf.length
    · rw [parseEntries]
      simp only
      rw [getU_snd hfirst]
      by_cases hsecond : off + 4 + 4 ≤ buf.length
      · rw [getU_snd hsecond]
        exact ih hsecond (by omega) _
      · rw [getU_of_past (Nat.lt_of_not_le hsecond),
          parseEntries_fst_of_past (Nat.lt_of_not_le hsecond)]
        exact ⟨hfirst, Nat.lt_of_not_le hsecond⟩
    · rw [parseEntries_fst_of_past (Nat.lt_of_not_le hfirst)]
      exact ⟨hle, Nat.lt_of_not_le hfirst⟩

/-! ## The functions -/

/-- One turn of the loop over the functions, its header in the buffer. -/
theorem parseMaps_succ (h : off + 12 ≤ buf.length) (maps : OrderedMap U64 MapTy) :
    parseMaps buf (n + 1) off maps =
      if buf.length - (off + 12) < 8 * numEntries buf off % 2 ^ 32 then none
      else
        parseMaps buf n (parseEntries buf (numEntries buf off) (off + 12) .empty).1
          (maps.insert (Fin.ofNat _ (getU 8 buf off).1,
            (parseEntries buf (numEntries buf off) (off + 12) .empty).2)) := by
  rw [parseMaps, if_neg (by rw [remaining_of_le (by omega)]; omega)]
  simp only
  rw [getU_snd (by omega : off + 8 ≤ buf.length), getU_snd (by omega : off + 8 + 4 ≤ buf.length),
    remaining_of_le (by omega : off + 8 + 4 ≤ buf.length), ← numEntries]

/-- A header that does not fit is refused. -/
theorem parseMaps_succ_of_past (hle : off ≤ buf.length) (h : buf.length < off + 12)
    (maps : OrderedMap U64 MapTy) : parseMaps buf (n + 1) off maps = none := by
  rw [parseMaps, if_pos (by rw [remaining_of_le hle]; omega)]

theorem parseMaps_of_inside (h : MapsInside buf n off) (maps : OrderedMap U64 MapTy) :
    ∃ maps', parseMaps buf n off maps = some (mapsEnd buf n off, maps') := by
  induction n generalizing off maps with
  | zero => exact ⟨maps, rfl⟩
  | succ n ih =>
    obtain ⟨hheader, hend, hrest⟩ := h
    unfold mapEnd at hend
    have hmod := Nat.mod_le (8 * numEntries buf off) (2 ^ 32)
    rw [parseMaps_succ hheader, if_neg (by omega), parseEntries_fst hend]
    exact ih hrest _

/-- **The functions that are accepted** lie in the buffer, or leave nothing to read behind them. -/
theorem inside_of_parseMaps (hle : off ≤ buf.length) {maps maps' : OrderedMap U64 MapTy}
    {off' : Nat} (h : parseMaps buf n off maps = some (off', maps')) :
    (MapsInside buf n off ∧ mapsEnd buf n off ≤ buf.length ∧ off' = mapsEnd buf n off) ∨
      (off' ≤ buf.length ∧ buf.length < off' + 4) := by
  induction n generalizing off maps with
  | zero =>
    obtain ⟨rfl, -⟩ := Prod.mk.inj (Option.some.inj h)
    exact Or.inl ⟨trivial, hle, rfl⟩
  | succ n ih =>
    by_cases hheader : off + 12 ≤ buf.length
    · rw [parseMaps_succ hheader] at h
      split at h
      · cases h
      · by_cases hend : mapEnd buf off ≤ buf.length
        · rw [parseEntries_fst hend] at h
          rcases ih hend h with ⟨hrest, hlast, hoff⟩ | hpast
          · exact Or.inl ⟨⟨hheader, hend, hrest⟩, hlast, hoff⟩
          · exact Or.inr hpast
        · -- the product has wrapped: the entries run to the end of the buffer
          obtain ⟨hin, hpast⟩ :=
            parseEntries_fst_of_lt hheader (Nat.lt_of_not_le hend) OrderedMap.empty
          generalize (parseEntries buf (numEntries buf off) (off + 12) .empty).1 = last at h hin hpast
          cases n with
          | zero =>
            obtain ⟨rfl, -⟩ := Prod.mk.inj (Option.some.inj h)
            exact Or.inr ⟨hin, hpast⟩
          | succ n =>
            rw [parseMaps_succ_of_past hin (by omega)] at h
            cases h
    · rw [parseMaps_succ_of_past hle (Nat.lt_of_not_le hheader)] at h
      cases h

/-- The cold entries are accepted exactly when they lie in the buffer. -/
theorem parseColdEntries_isSome_iff (hle : off ≤ buf.length) (cold : OrderedMap U64 U64) :
    (parseColdEntries buf n off cold).isSome ↔ off + 16 * n ≤ buf.length := by
  induction n generalizing off cold with
  | zero => exact iff_of_true rfl hle
  | succ n ih =>
    rw [parseColdEntries, remaining_of_le hle]
    by_cases hentry : off + 16 ≤ buf.length
    · rw [if_neg (by omega)]
      simp only
      rw [getU_snd (by omega : off + 8 ≤ buf.length), getU_snd (by omega : off + 8 + 8 ≤ buf.length),
        ih (by omega)]
      omega
    · rw [if_pos (by omega)]
      refine iff_of_false Bool.false_ne_true ?_
      omega

/-! ## The tables -/

/-- **From inside the buffer** the tables that are accepted are those that lie in it. -/
theorem parseTables_isSome_iff (hle : off ≤ buf.length) :
    (parseTables buf off).isSome ↔ TablesInside buf off := by
  rw [parseTables, remaining_of_le hle]
  by_cases hcount : off + 4 ≤ buf.length
  · rw [if_neg (by omega)]
    simp only
    rw [getU_snd hcount]
    constructor
    · intro h
      obtain ⟨bat, hbat⟩ := Option.isSome_iff_exists.mp h
      obtain ⟨⟨last, maps⟩, hmaps, hrest⟩ := Option.bind_eq_some_iff.mp hbat
      simp only at hrest
      split at hrest
      · cases hrest
      next hroom =>
        rcases inside_of_parseMaps hcount hmaps with ⟨hinside, hend, rfl⟩ | ⟨hin, hpast⟩
        · rw [remaining_of_le hend] at hroom
          have hcold : mapsEnd buf (getU 4 buf off).1 (off + 4) + 4 ≤ buf.length := by omega
          rw [getU_snd hcold] at hrest
          refine ⟨hcount, hinside, hcold, (parseColdEntries_isSome_iff hcold .empty).mp ?_⟩
          obtain ⟨cold, hparse, -⟩ := Option.map_eq_some_iff.mp hrest
          rw [hparse]
          rfl
        · rw [remaining_of_le hin] at hroom
          omega
    · rintro ⟨-, hinside, hcold, hentries⟩
      obtain ⟨maps, hmaps⟩ := parseMaps_of_inside hinside .empty
      rw [hmaps]
      simp only [Option.bind_some]
      rw [remaining_of_le (by omega), if_neg (by omega), getU_snd hcold, Option.isSome_map]
      exact (parseColdEntries_isSome_iff hcold .empty).mpr hentries
  · rw [if_pos (by omega)]
    exact iff_of_false Bool.false_ne_true fun h => hcount h.count

/-- Past the end of the buffer two counts of zero are read. -/
theorem parseTables_of_past (hpast : buf.length < off) (hoff : off < 2 ^ 63) :
    parseTables buf off = some ⟨.empty, .empty⟩ := by
  have hremaining : remaining buf off = 2 ^ 64 - (off - buf.length) := if_neg (Nat.not_le.mpr hpast)
  have hroom : ¬ remaining buf off < 4 := by
    rw [hremaining]
    omega
  have hzero : getU 4 buf off = (0, off) := getU_of_past (by omega)
  unfold parseTables
  rw [if_neg hroom, hzero]
  simp only [parseMaps, Option.bind_some]
  rw [if_neg hroom, hzero]
  rfl

end

/-! ## The note -/

section

variable (buf : List UInt8)

/-- `NameSz`. -/
def nameSz : Nat := (getU 4 buf 0).1

/-- `DescSz`. -/
def descSz : Nat := (getU 4 buf 4).1

/-- Where the tables start. -/
def tablesStart : Nat := alignTo (12 + nameSz buf) 4

/-- The tests up to the name refuse the note. -/
def Refused : Prop :=
  buf.length < 12 ∨ (getU 4 buf 8).1 ≠ NT_BOLT_BAT ∨
    buf.length + 12 < alignTo (nameSz buf) 4 + descSz buf ∨
    ((buf.drop 12).take (nameSz buf)).take 4 ≠ noteName

/-- What has been consumed lies in the buffer: the header of the note, its name, and the tables; and
no length computation has wrapped. -/
structure ConsumedInside : Prop where
  header : 12 ≤ buf.length
  name : 12 + nameSz buf ≤ buf.length
  offset : tablesStart buf ≤ buf.length
  tables : TablesInside buf (tablesStart buf)
  counts : CountsFit buf (getU 4 buf (tablesStart buf)).1 (tablesStart buf + 4)

/-- `parse` gives an error or keeps to the buffer. -/
def ConsumesInside : Prop := parse buf = none ∨ ConsumedInside buf

end

variable {buf : List UInt8}

theorem parse_eq (hlen : 12 ≤ buf.length) :
    parse buf =
      if (getU 4 buf 8).1 ≠ NT_BOLT_BAT ∨ buf.length + 12 < alignTo (nameSz buf) 4 + descSz buf then none
      else if ((buf.drop 12).take (nameSz buf)).take 4 ≠ noteName then none
      else parseTables buf (tablesStart buf) := by
  rw [parse, if_neg (Nat.not_lt.mpr hlen)]
  simp only
  rw [getU_snd (by omega : 0 + 4 ≤ buf.length), Nat.zero_add,
    getU_snd (by omega : 4 + 4 ≤ buf.length), getU_snd (by omega : 8 + 4 ≤ buf.length)]
  rfl

theorem parse_of_refused (h : Refused buf) : parse buf = none := by
  by_cases hlen : buf.length < 12
  · rw [parse, if_pos hlen]
  · rw [parse_eq (Nat.le_of_not_lt hlen)]
    rcases h with h | h | h | h
    · exact absurd h hlen
    · rw [if_pos (Or.inl h)]
    · rw [if_pos (Or.inr h)]
    · rw [if_pos h, ite_self]

theorem parse_of_not_refused (h : ¬ Refused buf) : parse buf = parseTables buf (tablesStart buf) := by
  unfold Refused at h
  push Not at h
  obtain ⟨hlen, htype, hsizes, hname⟩ := h
  rw [parse_eq hlen, if_neg (not_or.mpr ⟨not_not.mpr htype, Nat.not_lt.mpr hsizes⟩),
    if_neg (not_not.mpr hname)]

theorem tablesStart_lt (buf : List UInt8) : tablesStart buf < 2 ^ 63 := by
  have hlt : nameSz buf < 256 ^ 4 := getU_lt 4 buf 0
  unfold tablesStart alignTo
  omega

theorem le_tablesStart (buf : List UInt8) : 12 + nameSz buf ≤ tablesStart buf := by
  unfold tablesStart alignTo
  omega

/-- **The parser keeps to the buffer** exactly when the name of a note that it does not refuse ends
there, and no function of tables that lie there has a count that wraps. -/
theorem consumesInside_iff (buf : List UInt8) :
    ConsumesInside buf ↔ Refused buf ∨ (tablesStart buf ≤ buf.length ∧
      (TablesInside buf (tablesStart buf) →
        CountsFit buf (getU 4 buf (tablesStart buf)).1 (tablesStart buf + 4))) := by
  by_cases hrefused : Refused buf
  · exact iff_of_true (Or.inl (parse_of_refused hrefused)) (Or.inl hrefused)
  unfold ConsumesInside
  rw [or_iff_right hrefused, parse_of_not_refused hrefused]
  have hheader : 12 ≤ buf.length := Nat.not_lt.mp fun hlt => hrefused (Or.inl hlt)
  constructor
  · rintro (hnone | hin)
    · by_cases hstart : tablesStart buf ≤ buf.length
      · refine ⟨hstart, fun htables => ?_⟩
        have hsome := (parseTables_isSome_iff hstart).mpr htables
        rw [hnone] at hsome
        exact absurd hsome Bool.false_ne_true
      · rw [parseTables_of_past (Nat.lt_of_not_le hstart) (tablesStart_lt buf)] at hnone
        cases hnone
    · exact ⟨hin.offset, fun _ => hin.counts⟩
  · rintro ⟨hstart, hcounts⟩
    by_cases htables : TablesInside buf (tablesStart buf)
    · exact Or.inr ⟨hheader, (le_tablesStart buf).trans hstart, hstart, htables, hcounts htables⟩
    · refine Or.inl (Option.not_isSome_iff_eq_none.mp fun hsome => ?_)
      exact htables ((parseTables_isSome_iff hstart).mp hsome)

/-- A note of 16 bytes whose name should have eight. -/
def longName : List UInt8 := [8, 0, 0, 0, 0, 0, 0, 0, 1, 0, 0, 0] ++ noteName

/-- **A name past the end** is accepted, and so are tables that are not there. -/
theorem not_consumesInside_longName :
    parse longName = some ⟨.empty, .empty⟩ ∧ ¬ ConsumesInside longName := by
  have hparse : parse longName = some ⟨.empty, .empty⟩ := by decide
  refine ⟨hparse, ?_⟩
  rintro (hnone | hin)
  · rw [hparse] at hnone
    cases hnone
  · exact absurd hin.name (by decide)

end RvLlvm.Bolt.AddressTranslation
