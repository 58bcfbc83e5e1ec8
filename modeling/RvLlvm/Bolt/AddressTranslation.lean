import RvLlvm.Support.Memory
import RvLlvm.Support.OrderedMap
import Mathlib.Algebra.Order.Ring.Nat
import Mathlib.Data.List.TakeDrop
import Mathlib.Data.Fin.Basic
import Mathlib.Order.Fin.Basic

/-!
# BOLT address translation

The tables that map addresses of a rewritten binary back to the input binary
(`bolt/lib/Profile/BoltAddressTranslation.cpp`), and their trip through the note section
`.note.bolt_bat` (`encodeELFNote` of `bolt/lib/Core/BinarySection.cpp`).

`write` emits each address of the cold-to-hot map as eight bytes. `parse` reads the eight bytes and
keeps them in a `uint32_t`, so an address from `2 ^ 32` on comes back shorter.

Results:
* `parse_encode`: tables whose counts and cold-to-hot addresses fit 32 bits come back as they are.
* `parseTables_fits`: whatever `parse` accepts has such counts and addresses.
* `roundTrips_iff`: so these are the tables that come back.
-/

namespace RvLlvm.Bolt.AddressTranslation

open Support

abbrev U32 := Fin (2 ^ 32)

scoped instance neZero_two_pow_32 : NeZero (2 ^ 32) := ⟨by decide⟩

abbrev U64 := Fin (2 ^ 64)

/-- `MapTy`: output offsets to input offsets, in one function. -/
abbrev MapTy := OrderedMap U32 U32

structure BoltAddressTranslation where
  maps : OrderedMap U64 MapTy
  coldPartSource : OrderedMap U64 U64
deriving DecidableEq

/-! ## Writing -/

def writeMap (m : MapTy) : List UInt8 :=
  m.entries.flatMap fun e => leBytes 4 e.1 ++ leBytes 4 e.2

/-- The counts are `uint32_t` as well: `leBytes 4` keeps their low 32 bits. -/
def write (bat : BoltAddressTranslation) : List UInt8 :=
  leBytes 4 bat.maps.entries.length ++
    (bat.maps.entries.flatMap fun e =>
      leBytes 8 e.1 ++ leBytes 4 e.2.entries.length ++ writeMap e.2) ++
    leBytes 4 bat.coldPartSource.entries.length ++
    bat.coldPartSource.entries.flatMap fun e => leBytes 8 e.1 ++ leBytes 8 e.2

def alignTo (n a : Nat) : Nat := (n + a - 1) / a * a

def NT_BOLT_BAT : Nat := 1

/-- `BinarySection::encodeELFNote`. -/
def encodeELFNote (name desc : List UInt8) (type : Nat) : List UInt8 :=
  let nameSz := name.length + 1
  leBytes 4 nameSz ++ leBytes 4 desc.length ++ leBytes 4 type ++ name ++ [0] ++
    List.replicate (alignTo nameSz 4 - nameSz) 0 ++ desc ++
    List.replicate (alignTo desc.length 4 - desc.length) 0

/-- `BOLT`. -/
def noteName : List UInt8 := [66, 79, 76, 84]

/-- `RewriteInstance::encodeBATSection`. -/
def encodeBATSection (bat : BoltAddressTranslation) : List UInt8 :=
  encodeELFNote noteName (write bat) NT_BOLT_BAT

/-! ## Parsing -/

/-- `DataExtractor::getU`: past the end it returns 0 and stays where it is. -/
def getU (k : Nat) (buf : List UInt8) (off : Nat) : Nat × Nat :=
  if off + k ≤ buf.length then (leNat ((buf.drop off).take k), off + k) else (0, off)

/-- `Buf.size() - Offset`, which wraps. -/
def remaining (buf : List UInt8) (off : Nat) : Nat :=
  if off ≤ buf.length then buf.length - off else 2 ^ 64 - (off - buf.length)

def parseEntries (buf : List UInt8) : Nat → Nat → MapTy → Nat × MapTy
  | 0, off, m => (off, m)
  | n + 1, off, m =>
    let (outputAddr, off) := getU 4 buf off
    let (inputAddr, off) := getU 4 buf off
    parseEntries buf n off (m.insert (Fin.ofNat _ outputAddr, Fin.ofNat _ inputAddr))

def parseMaps (buf : List UInt8) :
    Nat → Nat → OrderedMap U64 MapTy → Option (Nat × OrderedMap U64 MapTy)
  | 0, off, maps => some (off, maps)
  | n + 1, off, maps =>
    if remaining buf off < 12 then none
    else
      let (address, off) := getU 8 buf off
      let (numEntries, off) := getU 4 buf off
      -- the product of two 32-bit numbers
      if remaining buf off < 8 * numEntries % 2 ^ 32 then none
      else
        let (off, m) := parseEntries buf numEntries off .empty
        parseMaps buf n off (maps.insert (Fin.ofNat _ address, m))

def parseColdEntries (buf : List UInt8) :
    Nat → Nat → OrderedMap U64 U64 → Option (OrderedMap U64 U64)
  | 0, _, cold => some cold
  | n + 1, off, cold =>
    if remaining buf off < 16 then none
    else
      -- `const uint32_t ColdAddress`, `const uint32_t HotAddress`
      let (coldAddress, off) := getU 8 buf off
      let (hotAddress, off) := getU 8 buf off
      parseColdEntries buf n off
        (cold.insert (Fin.ofNat _ (coldAddress % 2 ^ 32), Fin.ofNat _ (hotAddress % 2 ^ 32)))

/-- `parse` from behind the note's name on, into tables that are empty. -/
def parseTables (buf : List UInt8) (off : Nat) : Option BoltAddressTranslation :=
  if remaining buf off < 4 then none
  else
    let (numFunctions, off) := getU 4 buf off
    (parseMaps buf numFunctions off .empty).bind fun (off, maps) =>
      if remaining buf off < 4 then none
      else
        let (numColdEntries, off) := getU 4 buf off
        (parseColdEntries buf numColdEntries off .empty).map fun cold => ⟨maps, cold⟩

def parse (buf : List UInt8) : Option BoltAddressTranslation :=
  if buf.length < 12 then none
  else
    let (nameSz, off) := getU 4 buf 0
    let (descSz, off) := getU 4 buf off
    let (type, off) := getU 4 buf off
    if type ≠ NT_BOLT_BAT ∨ buf.length + off < alignTo nameSz 4 + descSz then none
    else
      let name := (buf.drop off).take nameSz
      let off := alignTo (off + nameSz) 4
      if name.take 4 ≠ noteName then none else parseTables buf off

/-! ## The answers -/

def BRANCHENTRY : Nat := 0x80000000

/-- `upper_bound` takes a `uint32_t` key: the offset is cut to 32 bits there. -/
def translate (bat : BoltAddressTranslation) (funcAddress offset : U64) (isBranchSrc : Bool) : U64 :=
  match bat.maps.find funcAddress with
  | none => offset
  | some m =>
    match m.floor (Fin.ofNat _ offset.val) with
    | none => offset
    | some (key, value) =>
      let val : U64 := Fin.ofNat _ (value.val &&& (2 ^ 32 - 1 - BRANCHENTRY))
      if isBranchSrc then val else offset - Fin.ofNat _ key.val + val

def fetchParentAddress (bat : BoltAddressTranslation) (address : U64) : U64 :=
  (bat.coldPartSource.find address).getD 0

/-! ## Reading what was written -/

/-- What is left of the buffer at an offset. -/
structure At (buf : List UInt8) (off : Nat) (bs : List UInt8) : Prop where
  le : off ≤ buf.length
  drop : buf.drop off = bs

variable {buf bs rest : List UInt8} {off : Nat}

theorem At.zero (buf : List UInt8) : At buf 0 buf := ⟨Nat.zero_le _, List.drop_zero⟩

theorem At.length_eq (h : At buf off bs) : buf.length = off + bs.length := by
  have hle := h.le
  rw [← h.drop, List.length_drop]
  omega

theorem At.next (h : At buf off (bs ++ rest)) : At buf (off + bs.length) rest := by
  have hlen := h.length_eq
  rw [List.length_append] at hlen
  exact ⟨by omega, by rw [← List.drop_drop, h.drop, List.drop_left]⟩

theorem At.skip {k : Nat} (h : At buf off (bs ++ rest)) (hk : bs.length = k) :
    At buf (off + k) rest := hk ▸ h.next

theorem At.remaining_eq (h : At buf off bs) : remaining buf off = bs.length := by
  rw [remaining, if_pos h.le, h.length_eq, Nat.add_sub_cancel_left]

theorem At.getU_eq {k n : Nat} (h : At buf off (leBytes k n ++ rest)) :
    getU k buf off = (n % 256 ^ k, off + k) := by
  have hlen := h.length_eq
  rw [List.length_append, length_leBytes] at hlen
  rw [getU, if_pos (by omega), h.drop, List.take_left' (length_leBytes k n), leNat_leBytes_mod]

theorem At.getU_of_lt {k n : Nat} (h : At buf off (leBytes k n ++ rest)) (hn : n < 256 ^ k) :
    getU k buf off = (n, off + k) := by
  rw [h.getU_eq, Nat.mod_eq_of_lt hn]

theorem At.skipBytes {k n : Nat} (h : At buf off (leBytes k n ++ rest)) : At buf (off + k) rest :=
  h.skip (length_leBytes k n)

theorem length_writeMap (m : MapTy) : (writeMap m).length = 8 * m.entries.length := by
  rw [writeMap]
  induction m.entries with
  | nil => rfl
  | cons e es ih =>
    simp only [List.flatMap_cons, List.length_append, length_leBytes, ih, List.length_cons]
    omega

theorem parseEntries_at {es : List (U32 × U32)} (m : MapTy)
    (h : At buf off ((es.flatMap fun e => leBytes 4 e.1 ++ leBytes 4 e.2) ++ rest)) :
    ∃ off', parseEntries buf es.length off m = (off', es.foldl .insert m) ∧ At buf off' rest := by
  induction es generalizing off m with
  | nil => exact ⟨off, rfl, h⟩
  | cons e es ih =>
    simp only [List.flatMap_cons, List.append_assoc] at h
    have hin := h.skipBytes
    obtain ⟨off', hrun, hrest⟩ := ih (m.insert e) hin.skipBytes
    refine ⟨off', ?_, hrest⟩
    rw [List.length_cons, parseEntries, h.getU_of_lt e.1.isLt]
    simp only [hin.getU_of_lt e.2.isLt, Fin.ofNat_val_eq_self]
    exact hrun

theorem parseMaps_at {es : List (U64 × MapTy)} (maps : OrderedMap U64 MapTy)
    (hfit : ∀ e ∈ es, e.2.entries.length < 2 ^ 32)
    (h : At buf off ((es.flatMap fun e =>
      leBytes 8 e.1 ++ leBytes 4 e.2.entries.length ++ writeMap e.2) ++ rest)) :
    ∃ off', parseMaps buf es.length off maps = some (off', es.foldl .insert maps) ∧
      At buf off' rest := by
  induction es generalizing off maps with
  | nil => exact ⟨off, rfl, h⟩
  | cons e es ih =>
    rw [List.forall_mem_cons] at hfit
    simp only [List.flatMap_cons, List.append_assoc] at h
    have hcount := h.skipBytes
    have hmap := hcount.skipBytes
    obtain ⟨off₁, hm, hnext⟩ := parseEntries_at .empty hmap
    obtain ⟨off', hrun, hrest⟩ := ih (maps.insert e) hfit.2 hnext
    refine ⟨off', ?_, hrest⟩
    have hroom : 12 ≤ remaining buf off := by
      rw [h.remaining_eq]
      simp only [List.length_append, length_leBytes]
      omega
    have hroom' : 8 * e.2.entries.length ≤ remaining buf (off + 8 + 4) := by
      rw [hmap.remaining_eq, List.length_append, length_writeMap]
      omega
    rw [List.length_cons, parseMaps, if_neg (by omega), h.getU_of_lt e.1.isLt]
    simp only [hcount.getU_of_lt hfit.1]
    rw [if_neg (by have := Nat.mod_le (8 * e.2.entries.length) (2 ^ 32); omega)]
    simp only [hm, Fin.ofNat_val_eq_self, OrderedMap.foldl_insert_entries]
    exact hrun

theorem parseColdEntries_at {es : List (U64 × U64)} (cold : OrderedMap U64 U64)
    (hfit : ∀ e ∈ es, e.1.val < 2 ^ 32 ∧ e.2.val < 2 ^ 32)
    (h : At buf off ((es.flatMap fun e => leBytes 8 e.1 ++ leBytes 8 e.2) ++ rest)) :
    parseColdEntries buf es.length off cold = some (es.foldl .insert cold) := by
  induction es generalizing off cold with
  | nil => rfl
  | cons e es ih =>
    rw [List.forall_mem_cons] at hfit
    simp only [List.flatMap_cons, List.append_assoc] at h
    have hhot := h.skipBytes
    have hroom : 16 ≤ remaining buf off := by
      rw [h.remaining_eq]
      simp only [List.length_append, length_leBytes]
      omega
    rw [List.length_cons, parseColdEntries, if_neg (by omega), h.getU_of_lt e.1.isLt]
    simp only [hhot.getU_of_lt e.2.isLt, Nat.mod_eq_of_lt hfit.1.1, Nat.mod_eq_of_lt hfit.1.2,
      Fin.ofNat_val_eq_self]
    exact ih (cold.insert e) hfit.2 hhot.skipBytes

/-- The tables whose counts and cold-to-hot addresses fit 32 bits. -/
structure Fits (bat : BoltAddressTranslation) : Prop where
  functions : bat.maps.entries.length < 2 ^ 32
  entries : ∀ e ∈ bat.maps.entries, e.2.entries.length < 2 ^ 32
  coldEntries : bat.coldPartSource.entries.length < 2 ^ 32
  addresses : ∀ e ∈ bat.coldPartSource.entries, e.1.val < 2 ^ 32 ∧ e.2.val < 2 ^ 32

variable {bat : BoltAddressTranslation}

theorem parseTables_at (hfit : Fits bat) (h : At buf off (write bat ++ rest)) :
    parseTables buf off = some bat := by
  simp only [write, List.append_assoc] at h
  obtain ⟨off', hmaps, hcount⟩ :=
    parseMaps_at .empty hfit.entries (by simpa only [List.append_assoc] using h.skipBytes)
  have hcold := parseColdEntries_at .empty hfit.addresses hcount.skipBytes
  have hroom : ¬remaining buf off < 4 := by
    rw [h.remaining_eq, List.length_append, length_leBytes]
    exact Nat.not_lt.mpr (Nat.le_add_right 4 _)
  have hroom' : ¬remaining buf off' < 4 := by
    rw [hcount.remaining_eq, List.length_append, length_leBytes]
    exact Nat.not_lt.mpr (Nat.le_add_right 4 _)
  rw [parseTables, if_neg hroom, h.getU_of_lt hfit.functions]
  simp only [hmaps, Option.bind_some]
  rw [if_neg hroom', hcount.getU_of_lt hfit.coldEntries]
  simp only [hcold, OrderedMap.foldl_insert_entries, Option.map_some]

/-- The note's name is checked and passed over, whatever its contents. -/
theorem parse_note (desc : List UInt8) :
    ∃ pad, At (encodeELFNote noteName desc NT_BOLT_BAT) 20 (desc ++ pad) ∧
      parse (encodeELFNote noteName desc NT_BOLT_BAT) =
        parseTables (encodeELFNote noteName desc NT_BOLT_BAT) 20 := by
  let pad := List.replicate (alignTo desc.length 4 - desc.length) (0 : UInt8)
  have hnote : encodeELFNote noteName desc NT_BOLT_BAT = leBytes 4 5 ++ (leBytes 4 desc.length ++
      (leBytes 4 1 ++ (noteName ++ [0, 0, 0, 0] ++ (desc ++ pad)))) := by
    simp only [encodeELFNote, List.append_assoc]
    rfl
  generalize encodeELFNote noteName desc NT_BOLT_BAT = buf at hnote ⊢
  have hname : At buf 0 _ := ⟨Nat.zero_le _, hnote⟩
  have hdesc := hname.skipBytes
  have htype := hdesc.skipBytes
  have htext := htype.skipBytes
  have hbody : At buf 20 (desc ++ pad) := htext.skip rfl
  have hlen := hbody.length_eq
  rw [List.length_append] at hlen
  have hdescSz : ¬buf.length + 12 < alignTo 5 4 + desc.length % 256 ^ 4 := by
    have hle := Nat.mod_le desc.length (256 ^ 4)
    have h8 : alignTo 5 4 = 8 := rfl
    omega
  have hchecked : ¬(1 ≠ NT_BOLT_BAT ∨ buf.length + 12 < alignTo 5 4 + desc.length % 256 ^ 4) :=
    not_or.mpr ⟨not_not.mpr rfl, hdescSz⟩
  have hfour : ((buf.drop 12).take 5).take 4 = noteName := by
    rw [htext.drop]
    rfl
  refine ⟨pad, hbody, ?_⟩
  rw [parse, if_neg (by omega), hname.getU_of_lt (by decide)]
  simp only [hdesc.getU_eq, htype.getU_of_lt (by decide : 1 < 256 ^ 4), Nat.reduceAdd]
  rw [if_neg hchecked, if_neg (not_not.mpr hfour)]
  rfl

/-- **The tables that fit come back as they are.** -/
theorem parse_encode (h : Fits bat) : parse (encodeBATSection bat) = some bat := by
  obtain ⟨pad, hbody, hparse⟩ := parse_note (write bat)
  rw [encodeBATSection, hparse, parseTables_at h hbody]

/-! ## What comes back -/

theorem getU_lt (k : Nat) (buf : List UInt8) (off : Nat) : (getU k buf off).1 < 256 ^ k := by
  rw [getU]
  split
  · refine (leNat_lt _).trans_le (Nat.pow_le_pow_right (by decide) ?_)
    rw [List.length_take]
    exact Nat.min_le_left _ _
  · exact Nat.pow_pos (by decide)

theorem length_parseEntries_le (buf : List UInt8) (n off : Nat) (m : MapTy) :
    (parseEntries buf n off m).2.entries.length ≤ m.entries.length + n := by
  induction n generalizing off m with
  | zero => exact Nat.le_refl _
  | succ n ih =>
    rw [parseEntries]
    refine (ih _ _).trans ?_
    rw [← Nat.add_assoc, Nat.add_right_comm]
    exact Nat.add_le_add_right (OrderedMap.length_insert_le _ _) n

theorem parseMaps_fits {n : Nat} {maps maps' : OrderedMap U64 MapTy} {off' : Nat}
    (h : parseMaps buf n off maps = some (off', maps'))
    (hfit : ∀ e ∈ maps.entries, e.2.entries.length < 2 ^ 32) :
    maps'.entries.length ≤ maps.entries.length + n ∧
      ∀ e ∈ maps'.entries, e.2.entries.length < 2 ^ 32 := by
  induction n generalizing off maps with
  | zero =>
    rw [parseMaps] at h
    obtain ⟨-, rfl⟩ := Prod.mk.inj (Option.some.inj h)
    exact ⟨Nat.le_refl _, hfit⟩
  | succ n ih =>
    rw [parseMaps] at h
    split at h
    · cases h
    · simp only at h
      split at h
      · cases h
      · have hmap : ∀ off, (parseEntries buf (getU 4 buf (getU 8 buf off).2).1
            (getU 4 buf (getU 8 buf off).2).2 .empty).2.entries.length < 2 ^ 32 := fun off =>
          (length_parseEntries_le _ _ _ _).trans_lt
            (by rw [OrderedMap.empty, List.length_nil, Nat.zero_add]; exact getU_lt 4 _ _)
        obtain ⟨hlen, hall⟩ := ih h fun e he => by
          rcases OrderedMap.mem_insert he with rfl | he
          · exact hmap off
          · exact hfit e he
        refine ⟨hlen.trans ?_, hall⟩
        rw [← Nat.add_assoc, Nat.add_right_comm]
        exact Nat.add_le_add_right (OrderedMap.length_insert_le _ _) n

theorem parseColdEntries_fits {n : Nat} {cold cold' : OrderedMap U64 U64}
    (h : parseColdEntries buf n off cold = some cold')
    (hfit : ∀ e ∈ cold.entries, e.1.val < 2 ^ 32 ∧ e.2.val < 2 ^ 32) :
    cold'.entries.length ≤ cold.entries.length + n ∧
      ∀ e ∈ cold'.entries, e.1.val < 2 ^ 32 ∧ e.2.val < 2 ^ 32 := by
  induction n generalizing off cold with
  | zero =>
    rw [parseColdEntries] at h
    obtain rfl := Option.some.inj h
    exact ⟨Nat.le_refl _, hfit⟩
  | succ n ih =>
    rw [parseColdEntries] at h
    split at h
    · cases h
    · simp only at h
      have hcut : ∀ a : Nat, (Fin.ofNat (2 ^ 64) (a % 2 ^ 32)).val < 2 ^ 32 := fun a =>
        (Nat.mod_le _ _).trans_lt (Nat.mod_lt a (by decide))
      obtain ⟨hlen, hall⟩ := ih h fun e he => by
        rcases OrderedMap.mem_insert he with rfl | he
        · exact ⟨hcut _, hcut _⟩
        · exact hfit e he
      refine ⟨hlen.trans ?_, hall⟩
      rw [← Nat.add_assoc, Nat.add_right_comm]
      exact Nat.add_le_add_right (OrderedMap.length_insert_le _ _) n

/-- Whatever is read fits, well written or not. -/
theorem parseTables_fits (h : parseTables buf off = some bat) : Fits bat := by
  rw [parseTables] at h
  split at h
  · cases h
  · obtain ⟨⟨off', maps⟩, hmaps, h⟩ := Option.bind_eq_some_iff.mp h
    simp only at h
    split at h
    · cases h
    · obtain ⟨cold, hcold, rfl⟩ := Option.map_eq_some_iff.mp h
      obtain ⟨hfunctions, hentries⟩ := parseMaps_fits hmaps (List.forall_mem_nil _)
      obtain ⟨hcount, haddresses⟩ := parseColdEntries_fits hcold (List.forall_mem_nil _)
      rw [OrderedMap.empty, List.length_nil, Nat.zero_add] at hfunctions hcount
      exact ⟨hfunctions.trans_lt (getU_lt 4 _ _), hentries, hcount.trans_lt (getU_lt 4 _ _),
        haddresses⟩

/-- The tables come back, and with them the answers. -/
def RoundTrips (bat : BoltAddressTranslation) : Prop :=
  ∃ bat', parse (encodeBATSection bat) = some bat' ∧
    bat'.maps = bat.maps ∧ bat'.coldPartSource = bat.coldPartSource ∧
    (∀ funcAddress offset isBranchSrc,
      translate bat' funcAddress offset isBranchSrc = translate bat funcAddress offset isBranchSrc) ∧
    ∀ address, fetchParentAddress bat' address = fetchParentAddress bat address

/-- **The tables that come back are those whose counts and cold-to-hot addresses fit 32 bits.** -/
theorem roundTrips_iff (bat : BoltAddressTranslation) : RoundTrips bat ↔ Fits bat := by
  constructor
  · rintro ⟨bat', hparse, hmaps, hcold, -⟩
    obtain ⟨-, -, hnote⟩ := parse_note (write bat)
    have hfits : Fits bat' := parseTables_fits (hnote ▸ hparse)
    exact ⟨hmaps ▸ hfits.functions, hmaps ▸ hfits.entries, hcold ▸ hfits.coldEntries,
      hcold ▸ hfits.addresses⟩
  · intro h
    exact ⟨bat, parse_encode h, rfl, rfl, fun _ _ _ => rfl, fun _ => rfl⟩

/-- A cold part at `2 ^ 32`: it comes back at 0, and its parent is not found. -/
theorem not_roundTrips_wide :
    ¬RoundTrips ⟨.empty, OrderedMap.empty.insert (Fin.ofNat _ (2 ^ 32), 0x1000)⟩ := by
  rintro ⟨bat', hparse, -, hcold, -⟩
  have hread : parse (encodeBATSection
      ⟨.empty, OrderedMap.empty.insert (Fin.ofNat _ (2 ^ 32), 0x1000)⟩) =
      some ⟨.empty, OrderedMap.empty.insert (0, 0x1000)⟩ := by decide
  rw [hread] at hparse
  obtain rfl := Option.some.inj hparse
  exact absurd hcold (by decide)

end RvLlvm.Bolt.AddressTranslation
