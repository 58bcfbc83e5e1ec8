import RvLlvm.Mc.LineEmitter

/-!
# Line tables are read back

What the reader makes of each advance, of the registers of an entry, and of the whole program.

* `reads_encode`, `reads_relaxDwarfLineAddr`: an advance moves the line and the address and makes a
  row.
* `reads_emitRegisters`: the opcodes before the advance take over what has changed.
* `emitOne_roundTrips_iff`: which line entries are read back, each sequence closed.
-/

namespace RvLlvm.Mc.LineEmitter

open RvLlvm.Support RvLlvm.Mc.LineProgram

variable {T : Target} {s : ParsingState}

/-! ## Opcodes that move the address -/

/-- The row with its line and its address moved. -/
def moved (r : Row) (lineDelta : Int) (addrDelta : Nat) : Row :=
  { r with line := addLine r.line lineDelta, address := (r.address + addrDelta) % 2 ^ 64 }

theorem addLine_zero {line : Nat} (h : line < 2 ^ 32) : addLine line 0 = line := by
  rw [addLine]
  omega

theorem addLine_addLine (line : Nat)
    (d d' : Int) : addLine (addLine line d) d' = addLine line (d + d') := by
  rw [addLine, addLine, addLine]
  omega

theorem addLine_lt (line : Nat) (d : Int) : addLine line d < 2 ^ 32 := by
  rw [addLine]
  omega

@[simp]
theorem prologue_opcodeBase : T.prologue.opcodeBase = T.params.opcodeBase := rfl

@[simp]
theorem prologue_addressSize : T.prologue.addressSize = T.pointerSize := rfl

variable {r : Row} {label : Nat} {lastLabel : Option Nat}

theorem withAddress_eq (hop : r.opIndex = 0) (v : Nat) :
    { r with address := v, opIndex := 0 } = { r with address := v } := by
  rw [← hop]

theorem advanceAddrOpIndex_eq (hop : r.opIndex = 0) {k : Nat} (hk : k < 2 ^ 64) :
    advanceAddrOpIndex T.prologue k r = { r with address := (r.address + k) % 2 ^ 64 } := by
  have hmax : max T.prologue.maxOpsPerInst 1 = 1 := by
    rw [Target.prologue]
    split <;> rfl
  rw [advanceAddrOpIndex]
  simp only [hmax, hop, Nat.zero_add, Nat.div_one, Nat.mod_one, Nat.mod_eq_of_lt hk]
  rw [show T.prologue.minInstLength = 1 from rfl, Nat.mul_one, ← hop]

theorem adjustedOpcode_eq {opcode : Nat} (hlo : T.params.opcodeBase ≤ opcode) (hhi : opcode ≤ 255) :
    adjustedOpcode T.prologue opcode = opcode - T.params.opcodeBase := by
  have hbase : T.prologue.opcodeBase = T.params.opcodeBase := rfl
  have := T.params.opcodeBase_le
  rw [adjustedOpcode, hbase]
  omega

theorem lineRange_pos (P : MCDwarfLineTableParams) : 0 < P.lineRange := by
  have := P.lineBase_le
  have := P.zero_lt
  omega

theorem constAddPc_eq (hop : r.opIndex = 0) :
    advanceForOpcode T.prologue Opcode.constAddPc.code r =
      { r with address := (r.address + T.params.maxSpecialAddrDelta) % 2 ^ 64 } := by
  have hrange : T.prologue.lineRange = T.params.lineRange := rfl
  have hpos := lineRange_pos T.params
  have hle : (255 - T.params.opcodeBase) / T.params.lineRange ≤ 255 :=
    (Nat.div_le_self _ _).trans (Nat.sub_le _ _)
  rw [advanceForOpcode, if_pos rfl, hrange, if_neg (by omega),
    adjustedOpcode_eq T.params.opcodeBase_le le_rfl]
  exact advanceAddrOpIndex_eq hop (by omega)

theorem special_eq (hop : r.opIndex = 0) {t k : Nat} (ht : t < T.params.lineRange)
    (hhi : T.params.opcodeBase + t + k * T.params.lineRange ≤ 255) :
    handleSpecialOpcode T.prologue (T.params.opcodeBase + t + k * T.params.lineRange) r =
      moved r (T.params.lineBase + t) k := by
  have hrange : T.prologue.lineRange = T.params.lineRange := rfl
  have hbase : T.prologue.lineBase = T.params.lineBase := rfl
  have hpos := lineRange_pos T.params
  have hstd := T.params.standard_lt
  have hadjusted : adjustedOpcode T.prologue (T.params.opcodeBase + t + k * T.params.lineRange) =
      t + k * T.params.lineRange := by
    rw [adjustedOpcode_eq (by omega) hhi]
    omega
  have hdiv : (t + k * T.params.lineRange) / T.params.lineRange = k := by
    rw [Nat.add_mul_div_right _ _ hpos, Nat.div_eq_of_lt ht, Nat.zero_add]
  have hmod : (t + k * T.params.lineRange) % T.params.lineRange = t := by
    rw [Nat.add_mul_mod_self_right, Nat.mod_eq_of_lt ht]
  have hk : k < 2 ^ 64 := by
    have := Nat.le_mul_of_pos_right k hpos
    omega
  have hnot : T.params.opcodeBase + t + k * T.params.lineRange ≠ Opcode.constAddPc.code := by
    rw [Opcode.code]
    omega
  rw [handleSpecialOpcode, advanceForOpcode, if_neg hnot, hrange, if_neg (by omega),
    if_neg (by omega),
    hadjusted, hdiv, hmod, advanceAddrOpIndex_eq hop hk, hbase]
  rfl

theorem emitRow_eq (halive : s.tombstonedAddress = false) : s.emitRow = s.appendRowToMatrix := by
  rw [ParsingState.emitRow, halive]
  rfl

/-! ## `MCDwarfLineAddr::encode` -/

/-- A special opcode. -/
theorem reads_special_eq (halive : s.tombstonedAddress = false)
    (hop : s.row.opIndex = 0) {t k : Nat}
    (ht : t < T.params.lineRange) (hhi : T.params.opcodeBase + t + k * T.params.lineRange ≤ 255) :
    Reads T.prologue s [T.params.opcodeBase + t + k * T.params.lineRange]
      (s.withRow (moved s.row (T.params.lineBase + t) k)).appendRowToMatrix := by
  have hstd := T.params.standard_lt
  have hread := reads_special (P := T.prologue) (s := s)
    (show T.prologue.opcodeBase ≤ T.params.opcodeBase + t + k * T.params.lineRange by
      rw [prologue_opcodeBase]
      omega) (by omega)
  rw [step, special_eq hop ht hhi] at hread
  rwa [emitRow_eq (by exact halive)] at hread

theorem reads_copy (halive : s.tombstonedAddress = false) :
    Reads T.prologue s [Opcode.copy.code] s.appendRowToMatrix := by
  have hread := reads_absent (P := T.prologue) (s := s) T.params.standard_lt
    (show Opcode.copy.operand = .absent from rfl)
  rwa [step, emitRow_eq halive] at hread

theorem reads_advancePc (hop : s.row.opIndex = 0) {a : Nat} (ha : a < 2 ^ 64) :
    Reads T.prologue s (Opcode.advancePc.code :: Uleb128.encode a)
      (s.withRow { s.row with address := (s.row.address + a) % 2 ^ 64 }) := by
  have hread := reads_uleb (P := T.prologue) (s := s) T.params.standard_lt
    (show Opcode.advancePc.operand = .uleb from rfl) ha
  rwa [step, advanceAddrOpIndex_eq hop ha] at hread

theorem reads_constAddPc (hop : s.row.opIndex = 0) :
    Reads T.prologue s [Opcode.constAddPc.code]
      (s.withRow { s.row with address :=
        (s.row.address + T.params.maxSpecialAddrDelta) % 2 ^ 64 }) := by
  have hread := reads_absent (P := T.prologue) (s := s) T.params.standard_lt
    (show Opcode.constAddPc.operand = .absent from rfl)
  rwa [step, constAddPc_eq hop] at hread

/-- The address delta is below the skip of `DW_LNS_const_add_pc` only where one special opcode is
enough. -/
theorem near_of_lt (P : MCDwarfLineTableParams) {t a : Nat} (ht : t < P.lineRange)
    (ha : a < P.maxSpecialAddrDelta) : t + P.opcodeBase + a * P.lineRange ≤ 255 := by
  have hskip : P.maxSpecialAddrDelta * P.lineRange ≤ 255 - P.opcodeBase := Nat.div_mul_le_self _ _
  have hle : (a + 1) * P.lineRange ≤ P.maxSpecialAddrDelta * P.lineRange :=
    Nat.mul_le_mul_right _ ha
  have := P.opcodeBase_le
  rw [Nat.add_mul, Nat.one_mul] at hle
  omega

theorem moved_moved (r : Row) (d : Int) (a a' : Nat) :
    moved { r with address := (r.address + a) % 2 ^ 64 } d a' = moved r d (a + a') := by
  rw [moved, moved, Nat.mod_add_mod, Nat.add_assoc]

/-- The advance of the address, and the row; `t` is the line advance above the line base. -/
theorem reads_encodeRow (halive : s.tombstonedAddress = false) (hop : s.row.opIndex = 0)
    (hline : s.row.line < 2 ^ 32) (haddr : s.row.address < 2 ^ 64) {needCopy : Bool}
    {lineDelta : Int}
    {t a : Nat} (ht : t < T.params.lineRange) (hdelta : T.params.lineBase + t = lineDelta)
    (hcopy : needCopy = true → lineDelta = 0)
    (hspecial : needCopy = false → t + T.params.opcodeBase ≤ 255) (ha : a < 2 ^ 64) :
    Reads T.prologue s (encodeRow T.params needCopy lineDelta t a)
      (s.withRow (moved s.row lineDelta a)).appendRowToMatrix := by
  have hbase := T.params.opcodeBase_le
  have hrange := T.params.lineRange_le
  have hmax : T.params.maxSpecialAddrDelta ≤ 255 := (Nat.div_le_self _ _).trans (Nat.sub_le _ _)
  have htemp : (t + T.params.opcodeBase) % 2 ^ 64 = t + T.params.opcodeBase := by omega
  rw [encodeRow]
  split
  · next hzero =>
    obtain ⟨rfl, rfl⟩ := hzero
    have hsame : moved s.row 0 0 = s.row := by
      rw [moved, addLine_zero hline, Nat.add_zero, Nat.mod_eq_of_lt haddr]
    rw [hsame]
    exact reads_copy halive
  · simp only [htemp]
    split
    · next hnear =>
      obtain ⟨hlt, hle⟩ := hnear
      have hprod : a * T.params.lineRange ≤ 511 * 255 := Nat.mul_le_mul (by omega) hrange
      have hcomm : t + T.params.opcodeBase + a * T.params.lineRange =
          T.params.opcodeBase + t + a * T.params.lineRange := by omega
      rw [Nat.mod_eq_of_lt (by omega), hcomm] at hle ⊢
      rw [← hdelta]
      exact reads_special_eq halive hop ht hle
    · next hnear =>
      split
      · next hfar =>
        obtain ⟨hlt, hle⟩ := hfar
        -- one special opcode was not enough, so the delta is at least that of `DW_LNS_const_add_pc`
        have hge : T.params.maxSpecialAddrDelta ≤ a := by
          by_contra hless
          have hle' := near_of_lt T.params ht (Nat.lt_of_not_le hless)
          exact hnear ⟨hlt, by rwa [Nat.mod_eq_of_lt (by omega)]⟩
        obtain ⟨k, rfl⟩ := Nat.exists_eq_add_of_le hge
        have hcell : cell 64 (((T.params.maxSpecialAddrDelta + k : Nat) : Int) -
            T.params.maxSpecialAddrDelta) = k := by
          rw [cell]
          omega
        have hprod : k * T.params.lineRange ≤ 256 * 255 := Nat.mul_le_mul (by omega) hrange
        have hcomm : t + T.params.opcodeBase + k * T.params.lineRange =
            T.params.opcodeBase + t + k * T.params.lineRange := by omega
        rw [hcell, Nat.mod_eq_of_lt (by omega), hcomm] at hle ⊢
        have hfirst := reads_constAddPc (T := T) hop
        have hsecond := reads_special_eq (T := T) (s := s.withRow { s.row with
          address := (s.row.address + T.params.maxSpecialAddrDelta) % 2 ^ 64 }) halive hop ht hle
        have hboth := hfirst.trans hsecond
        rw [← hdelta, ← moved_moved]
        exact hboth
      · have hfirst := reads_advancePc (T := T) hop ha
        refine hfirst.trans ?_
        cases needCopy with
        | true =>
          obtain rfl := hcopy rfl
          have hsame : moved s.row 0 a = { s.row with address :=
            (s.row.address + a) % 2 ^ 64 } := by
            rw [moved, addLine_zero hline]
          rw [hsame, if_pos rfl]
          exact reads_copy halive
        | false =>
          have hlast := reads_special_eq (T := T) (k := 0) (s := s.withRow { s.row with
            address := (s.row.address + a) % 2 ^ 64 }) halive hop ht
              (by have := hspecial rfl; omega)
          have hcomm : T.params.opcodeBase + t + 0 * T.params.lineRange =
            t + T.params.opcodeBase := by
            omega
          rw [hcomm] at hlast
          rw [← hdelta, ← Nat.add_zero a, ← moved_moved, if_neg Bool.false_ne_true]
          exact hlast

/-- **An advance makes a row**, its line and its address moved. -/
theorem reads_encode (halive : s.tombstonedAddress = false) (hop : s.row.opIndex = 0)
    (hline : s.row.line < 2 ^ 32) (haddr : s.row.address < 2 ^ 64) {lineDelta : Int} {a : Nat}
    (hlo : -2 ^ 32 < lineDelta) (hhi : lineDelta < 2 ^ 32) (ha : a < 2 ^ 64) :
    Reads T.prologue s (encode T.params lineDelta a)
      (s.withRow (moved s.row lineDelta a)).appendRowToMatrix := by
  have hbase := T.params.opcodeBase_le
  have hrange := T.params.lineRange_le
  have hnonpos := T.params.lineBase_le
  have hzero := T.params.zero_lt
  rw [encode, if_neg (by rw [endSequenceDelta]; omega)]
  simp only
  split
  · -- the line is moved first, and the row is made with a line advance of zero
    have hcell : cell 64 (-T.params.lineBase) = (-T.params.lineBase).toNat := by
      rw [cell]
      omega
    have hfirst := reads_advanceLine (P := T.prologue) (s := s) T.params.standard_lt lineDelta
    have hmoved : moved { s.row with line := addLine s.row.line lineDelta } 0 a =
        moved s.row lineDelta a := by
      rw [moved, moved, addLine_addLine, Int.add_zero]
    have hsecond : Reads T.prologue (s.withRow { s.row with line := addLine s.row.line lineDelta })
        (encodeRow T.params true 0 (-T.params.lineBase).toNat a)
        (s.withRow (moved { s.row with line := addLine s.row.line lineDelta } 0
          a)).appendRowToMatrix := by
      have hlt : (-T.params.lineBase).toNat < T.params.lineRange := by omega
      have hsum : T.params.lineBase + ((-T.params.lineBase).toNat : Nat) = 0 := by omega
      exact reads_encodeRow (s := s.withRow
        { s.row with line := addLine s.row.line lineDelta }) halive hop
        (addLine_lt _ _) haddr hlt hsum (fun _ => rfl) (fun h => absurd h Bool.true_eq_false.mp) ha
    rw [hmoved] at hsecond
    rw [hcell]
    exact hfirst.trans hsecond
  · next hnear =>
    obtain ⟨hlt, hop255⟩ := not_or.mp hnear
    have hcast := cell_cast 64 (lineDelta - T.params.lineBase)
    exact reads_encodeRow halive hop hline haddr (by omega) (by omega) (fun h => absurd h (by simp))
      (fun _ => by omega) ha

/-- The state behind a closing row. -/
def closed (s : ParsingState) (address : Nat) : ParsingState :=
  (s.withRow (closingRow s.row address)).appendRowToMatrix.resetRowAndSequence T.prologue

theorem closed_rows (s : ParsingState) (address : Nat) :
    (closed (T := T) s address).rows = s.rows ++ [closingRow s.row address] := rfl

theorem reads_endSequence_eq (halive : s.tombstonedAddress = false) :
    Reads T.prologue s [0, 1, endSequenceCode] (closed (T := T) s s.row.address) := by
  have hread := reads_endSequence (P := T.prologue) (s := s)
  rwa [step, emitRow_eq (by exact halive)] at hread

/-- **The end of a sequence is a row** at the address that was reached. -/
theorem reads_encode_end (halive : s.tombstonedAddress = false) (hop : s.row.opIndex = 0)
    (haddr : s.row.address < 2 ^ 64) {a : Nat} (ha : a < 2 ^ 64) :
    Reads T.prologue s (encode T.params endSequenceDelta a)
      (closed (T := T) s ((s.row.address + a) % 2 ^ 64)) := by
  rw [encode, if_pos rfl]
  split
  · next hskip =>
    have hfirst := reads_constAddPc (T := T) hop
    rw [hskip]
    exact hfirst.trans (reads_endSequence_eq halive)
  · split
    · exact (reads_advancePc hop ha).trans (reads_endSequence_eq halive)
    · next hzero =>
      obtain rfl := not_not.mp hzero
      rw [Nat.add_zero, Nat.mod_eq_of_lt haddr]
      exact reads_endSequence_eq halive

/-! ## Advances between labels -/

theorem two_pow_pointer (p : Nat) : 256 ^ p = 2 ^ (8 * p) := by
  rw [pow_mul]
  rfl

theorem reads_setAddress_eq (halive : s.tombstonedAddress = false)
    (hop : s.row.opIndex = 0) {v : Nat}
    (hv : v < 2 ^ (8 * T.pointerSize) - 1) :
    Reads T.prologue s (0 :: Uleb128.encode (T.pointerSize + 1) ++
        setAddressCode :: Parsing.littleEndian T.pointerSize v)
      (s.withRow { s.row with address := v }) := by
  have hsize : T.prologue.addressSize < 2 ^ 63 := by
    have := T.pointerSize_eq
    rw [prologue_addressSize]
    omega
  have hread := reads_setAddress (P := T.prologue) (s := s) hsize v
  have hmod : v % 256 ^ T.prologue.addressSize = v := by
    rw [prologue_addressSize, two_pow_pointer, Nat.mod_eq_of_lt (by omega)]
  have hlive : (v == 2 ^ (8 * T.prologue.addressSize) - 1) = false := by
    rw [beq_eq_false_iff_ne, prologue_addressSize]
    exact hv.ne
  rw [hmod, step, hlive, ← halive, withAddress_eq hop] at hread
  exact hread

/-- The address that an advance leads to. -/
def reachedAddress (T : Target) (address : Nat) (lastLabel : Option Nat) (label : Nat) : Nat :=
  match lastLabel with
  | none => label
  | some last =>
    if T.relaxes last label then
      if 60000 < ((label : Int) - last).bmod (2 ^ 64) then cell (8 * T.pointerSize) (label - last)
      else (address + cell 16 (label - last)) % 2 ^ 64
    else (address + cell 64 (label - last)) % 2 ^ 64

/-- What `relaxDwarfLineAddr` writes between the line and the row. -/
theorem reads_relaxedAdvance (halive : s.tombstonedAddress = false) (hop : s.row.opIndex = 0)
    {last : Nat} (hrelaxes : T.relaxes last label = true) (hle : last ≤ label)
    (hlabel : label < 2 ^ (8 * T.pointerSize) - 1) :
    Reads T.prologue s
      (if 60000 < ((label : Int) - last).bmod (2 ^ 64) then
          0 :: Uleb128.encode (T.pointerSize + 1) ++ setAddressCode ::
            Parsing.littleEndian T.pointerSize (cell (8 * T.pointerSize) (label - last))
        else Opcode.fixedAdvancePc.code :: Parsing.littleEndian 2 (cell 16 (label - last)))
      (s.withRow { s.row with address := reachedAddress T s.row.address (some last) label }) := by
  rw [reachedAddress]
  simp only [hrelaxes, if_true]
  split
  · have hcell : cell (8 * T.pointerSize) ((label : Int) - last) = label - last := by
      have hcast := cell_cast (8 * T.pointerSize) ((label : Int) - last)
      rw [Int.emod_eq_of_lt (by omega) (by
        have : (label : Int) < 2 ^ (8 * T.pointerSize) := by exact_mod_cast (by omega)
        omega)] at hcast
      omega
    exact reads_setAddress_eq halive hop (by omega)
  · have hread := reads_fixedAdvancePc (P := T.prologue) (s := s) T.params.standard_lt
      (cell_lt 16 ((label : Int) - last))
    rwa [step, withAddress_eq hop] at hread

/-- The advance may be asked for: the label before is not behind, and both are addresses. -/
structure Ahead (T : Target) (lastLabel : Option Nat) (label : Nat) : Prop where
  last_le : ∀ last, lastLabel = some last → last ≤ label
  label_lt : label < 2 ^ (8 * T.pointerSize) - 1

theorem two_pow_pointer_le (T : Target) : 2 ^ (8 * T.pointerSize) ≤ 2 ^ 64 :=
  Nat.pow_le_pow_right (by decide) (by have := T.pointerSize_eq; omega)

/-- **An entry's advance makes its row.** -/
theorem reads_advance (halive : s.tombstonedAddress = false) (hop : s.row.opIndex = 0)
    (hline : s.row.line < 2 ^ 32) (haddr : s.row.address < 2 ^ 64) {lineDelta : Int}
    (hlo : -2 ^ 32 < lineDelta) (hhi : lineDelta < 2 ^ 32) (hahead : Ahead T lastLabel label) :
    Reads T.prologue s (emitDwarfAdvanceLineAddr T lineDelta lastLabel label)
      (s.withRow { s.row with
        line := addLine s.row.line lineDelta
        address := reachedAddress T s.row.address lastLabel label }).appendRowToMatrix := by
  have hpow := two_pow_pointer_le T
  obtain ⟨hle, hlabel⟩ := hahead
  cases lastLabel with
  | none =>
    have hlt : label < 2 ^ 64 := by omega
    have hfirst := reads_setAddress_eq (T := T) halive hop hlabel
    have hsecond := reads_encode (T := T) (s := s.withRow { s.row with address := label })
      (a := 0) halive
      hop hline hlt hlo hhi (by decide)
    have hmoved : moved { s.row with address := label } lineDelta 0 =
        { s.row with line := addLine s.row.line lineDelta, address := label } := by
      rw [moved, Nat.add_zero, Nat.mod_eq_of_lt hlt]
    rw [show (s.withRow { s.row with address := label }).row =
      { s.row with address := label } from rfl,
      hmoved] at hsecond
    exact hfirst.trans hsecond
  | some last =>
    rw [emitDwarfAdvanceLineAddr]
    simp only
    cases hrelaxes : T.relaxes last label with
    | true =>
      have hnot : lineDelta ≠ endSequenceDelta := by
        rw [endSequenceDelta]
        omega
      have hfirst := reads_advanceLine (P := T.prologue) (s := s) T.params.standard_lt lineDelta
      have hsecond := reads_relaxedAdvance (T := T)
        (s := s.withRow { s.row with line := addLine s.row.line lineDelta }) halive hop hrelaxes
        (hle last rfl) hlabel
      have hboth := (hfirst.trans hsecond).trans (reads_copy halive)
      rw [if_pos rfl, relaxDwarfLineAddr, if_neg hnot, if_neg hnot]
      exact hboth
    | false =>
      have hread := reads_encode (T := T) halive hop hline haddr hlo hhi
        (cell_lt 64 ((label : Int) - last))
      rw [if_neg Bool.false_ne_true, reachedAddress]
      simp only [hrelaxes]
      exact hread

/-- **The advance to the end of a sequence closes it.** -/
theorem reads_advance_end (halive : s.tombstonedAddress = false) (hop : s.row.opIndex = 0)
    (haddr : s.row.address < 2 ^ 64) (hahead : Ahead T lastLabel label) :
    Reads T.prologue s (emitDwarfAdvanceLineAddr T endSequenceDelta lastLabel label)
      (closed (T := T) s (reachedAddress T s.row.address lastLabel label)) := by
  have hpow := two_pow_pointer_le T
  obtain ⟨hle, hlabel⟩ := hahead
  cases lastLabel with
  | none =>
    have hlt : label < 2 ^ 64 := by omega
    have hfirst := reads_setAddress_eq (T := T) halive hop hlabel
    have hsecond := reads_encode_end (T := T)
      (s := s.withRow { s.row with address := label }) (a := 0)
      halive hop hlt (by decide)
    rw [show (s.withRow { s.row with address := label }).row.address = label from rfl, Nat.add_zero,
      Nat.mod_eq_of_lt hlt] at hsecond
    exact hfirst.trans hsecond
  | some last =>
    rw [emitDwarfAdvanceLineAddr]
    cases hrelaxes : T.relaxes last label with
    | true =>
      have hfirst := reads_relaxedAdvance (T := T) halive hop hrelaxes (hle last rfl) hlabel
      rw [if_pos rfl, relaxDwarfLineAddr, if_pos rfl, if_pos rfl, List.nil_append]
      exact hfirst.trans (reads_endSequence_eq halive)
    | false =>
      have hread := reads_encode_end (T := T) halive hop haddr (cell_lt 64 ((label : Int) - last))
      rw [if_neg Bool.false_ne_true, reachedAddress]
      simp only [hrelaxes]
      exact hread

/-- Where the address is in step, an advance ends at the label exactly where it `Reaches` it. -/
theorem reachedAddress_eq_iff {last : Nat} (hahead : Ahead T (some last) label) :
    reachedAddress T last (some last) label = label ↔ Reaches T last label := by
  have hpow := two_pow_pointer_le T
  have hle := hahead.last_le last rfl
  have hlabel := hahead.label_lt
  have hcell64 : cell 64 ((label : Int) - last) = label - last := by
    rw [cell]
    omega
  rw [reachedAddress, Reaches]
  cases hrelaxes : T.relaxes last label with
  | false =>
    rw [if_neg Bool.false_ne_true, hcell64]
    exact ⟨fun _ h => absurd h Bool.false_ne_true, fun _ => by omega⟩
  | true =>
    have hcell16 : cell 16 ((label : Int) - last) = (label - last) % 2 ^ 16 := by
      rw [cell]
      omega
    have hcellP : cell (8 * T.pointerSize) ((label : Int) - last) = label - last := by
      have hcast := cell_cast (8 * T.pointerSize) ((label : Int) - last)
      rw [Int.emod_eq_of_lt (by omega) (by
        have : (label : Int) < 2 ^ (8 * T.pointerSize) := by exact_mod_cast (by omega)
        omega)] at hcast
      omega
    have hvalue : ((label : Int) - last).bmod (2 ^ 64) =
        if label - last < 2 ^ 63 then (label - last : Int) else label - last - 2 ^ 64 := by
      rw [Int.bmod]
      split <;> split <;> omega
    rw [if_pos rfl, hcell16, hcellP, hvalue, forall_prop_of_true rfl]
    clear hvalue hcell16 hcellP
    by_cases hsmall : label - last < 2 ^ 63
    · rw [if_pos hsmall]
      split <;> omega
    · rw [if_neg hsmall, if_neg (by omega)]
      omega

/-! ## The registers of an entry -/

/-- The row that the writer takes the reader to have, up to the address. -/
def Registers.row (R : Registers) (address : Nat) : Row where
  address := address
  line := R.lastLine
  column := R.column
  file := R.fileNum
  discriminator := 0
  isa := R.isa
  opIndex := 0
  isStmt := hasFlag R.flags flagIsStmt
  basicBlock := false
  endSequence := false
  prologueEnd := false
  epilogueBegin := false

/-- **The writer's registers are those of the reader**, the address left aside. -/
structure InStep (R : Registers) (s : ParsingState) : Prop where
  row_eq : s.row = R.row s.row.address
  discriminator_eq : R.discriminator = 0
  line_lt : R.lastLine < 2 ^ 32
  address_lt : s.row.address < 2 ^ 64
  alive : s.tombstonedAddress = false

theorem hasFlag_isStmt (flags : BitVec 8) : hasFlag flags flagIsStmt = flags.getLsbD 0 := by
  revert flags
  decide

theorem hasFlag_xor (a b : BitVec 8) :
    hasFlag (a ^^^ b) flagIsStmt = (hasFlag a flagIsStmt ^^ hasFlag b flagIsStmt) := by
  rw [hasFlag_isStmt, hasFlag_isStmt, hasFlag_isStmt, BitVec.getLsbD_xor]

/-- Opcodes that are written only where a register changes. -/
theorem reads_change {c : Prop} [Decidable c] {r' : Row} {data : List Nat}
    (hread : c → Reads T.prologue (s.withRow r) data (s.withRow r')) (hsame : ¬c → r = r') :
    Reads T.prologue (s.withRow r) (if c then data else []) (s.withRow r') := by
  split
  · next h => exact hread h
  · next h =>
    rw [hsame h]
    exact .nil

theorem reads_setFile {v : Nat} (hv : v < 2 ^ 16) :
    Reads T.prologue (s.withRow r) (if r.file ≠
      v then Opcode.setFile.code :: Uleb128.encode v else [])
      (s.withRow { r with file := v }) := by
  refine reads_change (fun _ => ?_) fun h => ?_
  · have hread := reads_uleb (P := T.prologue) (s := s.withRow r) T.params.standard_lt
      (show Opcode.setFile.operand = .uleb from rfl) (v := v) (by omega)
    rwa [step, Nat.mod_eq_of_lt hv] at hread
  · rw [← not_not.mp h]

theorem reads_setColumn {v : Nat} (hv : v < 2 ^ 16) :
    Reads T.prologue (s.withRow r) (if r.column ≠
      v then Opcode.setColumn.code :: Uleb128.encode v else [])
      (s.withRow { r with column := v }) := by
  refine reads_change (fun _ => ?_) fun h => ?_
  · have hread := reads_uleb (P := T.prologue) (s := s.withRow r) T.params.standard_lt
      (show Opcode.setColumn.operand = .uleb from rfl) (v := v) (by omega)
    rwa [step, Nat.mod_eq_of_lt hv] at hread
  · rw [← not_not.mp h]

theorem reads_setIsa {v : Nat} (hv : v < 2 ^ 8) :
    Reads T.prologue (s.withRow r) (if r.isa ≠
      v then Opcode.setIsa.code :: Uleb128.encode v else [])
      (s.withRow { r with isa := v }) := by
  refine reads_change (fun _ => ?_) fun h => ?_
  · have hread := reads_uleb (P := T.prologue) (s := s.withRow r) T.params.standard_lt
      (show Opcode.setIsa.operand = .uleb from rfl) (v := v) (by omega)
    rwa [step, Nat.mod_eq_of_lt hv] at hread
  · rw [← not_not.mp h]

theorem length_encodeBytes_le (n v : Nat) : (Uleb128.encodeBytes n v).length ≤ n := by
  induction n generalizing v with
  | zero => exact le_rfl
  | succ n ih =>
    rw [Uleb128.encodeBytes]
    split
    · simp
    · rw [List.length_cons]
      have := ih (v / 128)
      omega

/-- A discriminator is there from version 4 on. -/
theorem reads_discriminator (hr : r.discriminator = 0) {v : Nat} (hv : v < 2 ^ 32) :
    Reads T.prologue (s.withRow r)
      (if 0 ≠ v ∧ 4 ≤ T.dwarfVersion then
        0 :: Uleb128.encode ((Uleb128.encode v).length + 1) ++
          setDiscriminatorCode :: Uleb128.encode v
      else [])
      (s.withRow { r with discriminator := if 4 ≤ T.dwarfVersion then v else 0 }) := by
  refine reads_change (fun h => ?_) fun h => ?_
  · have hlen : (Uleb128.encode v).length ≤ 10 := length_encodeBytes_le 10 v
    have hread := reads_setDiscriminator (P := T.prologue) (s := s.withRow r) (v := v) (by omega)
      (by omega)
    rw [step, Nat.mod_eq_of_lt hv] at hread
    rwa [if_pos h.2]
  · have hvalue : (if 4 ≤ T.dwarfVersion then v else 0) = r.discriminator := by
      rw [hr]
      split <;> omega
    rw [hvalue]

theorem reads_negateStmt {flags : BitVec 8} (hr : r.isStmt = hasFlag flags flagIsStmt)
    (flags' : BitVec 8) :
    Reads T.prologue (s.withRow r)
      (if hasFlag (flags' ^^^ flags) flagIsStmt = true then [Opcode.negateStmt.code] else [])
      (s.withRow { r with isStmt := hasFlag flags' flagIsStmt }) := by
  have hflip : ∀ a b : Bool, (a ^^ b) = true → (!b) = a := by decide
  have hkeep : ∀ a b : Bool, ¬(a ^^ b) = true → a = b := by decide
  rw [hasFlag_xor]
  refine reads_change (fun h => ?_) fun h => ?_
  · have hread := reads_absent (P := T.prologue) (s := s.withRow r) T.params.standard_lt
      (show Opcode.negateStmt.operand = .absent from rfl)
    rwa [step, show (s.withRow r).row = r from rfl, hr, hflip _ _ h] at hread
  · rw [hkeep _ _ h, ← hr]

/-- The three flags that hold for one row. -/
theorem reads_rowFlags (hb : r.basicBlock = false) (hp : r.prologueEnd = false)
    (he : r.epilogueBegin = false) (flags : BitVec 8) :
    Reads T.prologue (s.withRow r)
      ((if hasFlag flags flagBasicBlock = true then [Opcode.setBasicBlock.code] else []) ++
        (if hasFlag flags flagPrologueEnd = true then [Opcode.setPrologueEnd.code] else []) ++
        (if hasFlag flags flagEpilogueBegin = true then [Opcode.setEpilogueBegin.code] else []))
      (s.withRow { r with
        basicBlock := hasFlag flags flagBasicBlock
        prologueEnd := hasFlag flags flagPrologueEnd
        epilogueBegin := hasFlag flags flagEpilogueBegin }) := by
  have hfirst : Reads T.prologue (s.withRow r)
      (if hasFlag flags flagBasicBlock = true then [Opcode.setBasicBlock.code] else [])
      (s.withRow { r with basicBlock := hasFlag flags flagBasicBlock }) := by
    refine reads_change (fun h => ?_) fun h => ?_
    · rw [h]
      exact reads_absent T.params.standard_lt (show Opcode.setBasicBlock.operand = .absent from rfl)
    · rw [Bool.eq_false_iff.mpr h, ← hb]
  have hsecond : Reads T.prologue (s.withRow { r with basicBlock := hasFlag flags flagBasicBlock })
      (if hasFlag flags flagPrologueEnd = true then [Opcode.setPrologueEnd.code] else [])
      (s.withRow { r with
        basicBlock := hasFlag flags flagBasicBlock
        prologueEnd := hasFlag flags flagPrologueEnd }) := by
    refine reads_change (fun h => ?_) fun h => ?_
    · rw [h]
      exact reads_absent T.params.standard_lt
        (show Opcode.setPrologueEnd.operand = .absent from rfl)
    · rw [Bool.eq_false_iff.mpr h, ← hp]
  refine (hfirst.trans hsecond).trans (reads_change (fun h => ?_) fun h => ?_)
  · rw [h]
    exact reads_absent T.params.standard_lt
      (show Opcode.setEpilogueBegin.operand = .absent from rfl)
  · rw [Bool.eq_false_iff.mpr h, ← he]

variable {R : Registers} {e : MCDwarfLineEntry} {sectionEnd : Nat} {entries : List MCDwarfLineEntry}

/-- **The registers of an entry are taken over.** -/
theorem reads_emitRegisters (h : InStep R s) (he : e.Fits) :
    Reads T.prologue s (emitRegisters T R e)
      (s.withRow { rowOf T.dwarfVersion e with address := s.row.address, line := s.row.line }) := by
  have hrow := h.row_eq
  have hstart : s.withRow (R.row s.row.address) = s := by
    rw [← hrow]
    rfl
  have hfile := reads_setFile (T := T) (s := s) (r := R.row s.row.address) he.fileNum_lt
  have hcolumn := hfile.trans (reads_setColumn he.column_lt)
  have hdisc := hcolumn.trans (reads_discriminator rfl he.discriminator_lt)
  have hisa := hdisc.trans (reads_setIsa he.isa_lt)
  have hstmt := hisa.trans (reads_negateStmt rfl e.flags)
  have hflags := hstmt.trans (reads_rowFlags rfl rfl rfl e.flags)
  have hline : s.row.line = R.lastLine := by
    rw [hrow]
    rfl
  rw [hstart] at hflags
  rw [emitRegisters, h.discriminator_eq, hline]
  simp only [List.append_assoc] at hflags ⊢
  exact hflags

/-! ## One entry -/

theorem reachedAddress_lt (address : Nat) (hahead : Ahead T lastLabel label) :
    reachedAddress T address lastLabel label < 2 ^ 64 := by
  have hpow := two_pow_pointer_le T
  have hlabel := hahead.label_lt
  cases lastLabel with
  | none =>
    rw [reachedAddress]
    omega
  | some last =>
    have hcell := cell_lt (8 * T.pointerSize) ((label : Int) - last)
    rw [reachedAddress]
    split
    · split <;> omega
    · omega

/-- **The bytes of an entry make its row**, up to the address. -/
theorem reads_entry (h : InStep R s) (he : e.Fits) (hahead : Ahead T R.lastLabel e.label) :
    Reads T.prologue s
      (emitRegisters T R e ++ emitDwarfAdvanceLineAddr T ((e.line : Int) - R.lastLine)
        R.lastLabel e.label)
      (s.withRow { rowOf T.dwarfVersion e with
        address := reachedAddress T s.row.address R.lastLabel e.label }).appendRowToMatrix := by
  have hlast := h.line_lt
  have hline := he.line_lt
  have hsame : s.row.line = R.lastLine := by
    rw [h.row_eq]
    rfl
  have hfirst := reads_emitRegisters (T := T) h he
  have hsecond := reads_advance (T := T)
    (s := s.withRow { rowOf T.dwarfVersion e with address := s.row.address, line := s.row.line })
    h.alive rfl (by rw [← hsame] at hlast; exact hlast) h.address_lt
    (show -2 ^ 32 < (e.line : Int) - R.lastLine by omega) (by omega) hahead
  have hadd : addLine s.row.line ((e.line : Int) - R.lastLine) = e.line := by
    rw [addLine, hsame]
    omega
  have hmoved := hfirst.trans hsecond
  rw [show (s.withRow { rowOf T.dwarfVersion e with address := s.row.address, line :=
    s.row.line }).row =
    { rowOf T.dwarfVersion e with address := s.row.address, line := s.row.line } from rfl] at hmoved
  simp only [hadd] at hmoved
  exact hmoved

theorem inStep_next (h : InStep R s) (he : e.Fits) {address : Nat} (haddress : address < 2 ^ 64) :
    InStep (R.next e)
      (s.withRow { rowOf T.dwarfVersion e with address := address }).appendRowToMatrix := by
  have hflags : hasFlag (R.next e).flags flagIsStmt = hasFlag e.flags flagIsStmt := by
    have hkeep : ∀ a b : Bool, ¬(a ^^ b) = true → b = a := by decide
    rw [Registers.next]
    split
    · rfl
    · next hnot =>
      rw [hasFlag_xor] at hnot
      exact hkeep _ _ hnot
  refine ⟨?_, rfl, he.line_lt, haddress, h.alive⟩
  rw [Registers.row, hflags]
  rfl

theorem inStep_init (halive : s.tombstonedAddress = false) (address : Nat) :
    InStep init (closed (T := T) s address) :=
  ⟨rfl, rfl, by decide, show 0 < 2 ^ 64 by decide, halive⟩

/-! ## The program -/

theorem IsSection.tail {rest : List MCDwarfLineEntry} (h : IsSection T sectionEnd (e :: rest)) :
    IsSection T sectionEnd rest where
  fits x hx := h.fits x (List.mem_cons_of_mem e hx)
  ordered := (List.pairwise_cons.mp h.ordered).2
  label_le x hx := h.label_le x (List.mem_cons_of_mem e hx)
  end_lt := h.end_lt

theorem IsSection.le_following {rest : List MCDwarfLineEntry}
    (h : IsSection T sectionEnd (e :: rest)) : e.label ≤ following sectionEnd rest := by
  cases rest with
  | nil => exact h.label_le e List.mem_cons_self
  | cons x rest => exact (List.pairwise_cons.mp h.ordered).1 x List.mem_cons_self

theorem IsSection.ahead (h : IsSection T sectionEnd entries)
    (hlast : ∀ last, lastLabel = some last → last ≤ following sectionEnd entries) :
    Ahead T lastLabel (following sectionEnd entries) := by
  refine ⟨hlast, ?_⟩
  have hend := h.end_lt
  cases entries with
  | nil => exact hend
  | cons e rest =>
    have hle := h.label_le e List.mem_cons_self
    rw [following]
    omega

/-- The program of a section can be read from any state in step. -/
theorem reads_emitEntries (hsec : IsSection T sectionEnd entries) (h : InStep R s)
    (hlast : ∀ last, R.lastLabel = some last → last ≤ following sectionEnd entries)
    (endEntryEmitted : Bool) :
    ∃ s', Reads T.prologue s (emitEntries T sectionEnd R endEntryEmitted entries) s' := by
  have hop : s.row.opIndex = 0 := by
    rw [h.row_eq]
    rfl
  induction entries generalizing s R endEntryEmitted with
  | nil =>
    rw [emitEntries]
    split
    · exact ⟨s, .nil⟩
    · exact ⟨_, reads_advance_end h.alive hop h.address_lt (hsec.ahead hlast)⟩
  | cons e rest ih =>
    have hahead := hsec.ahead hlast
    rw [emitEntries]
    split
    · obtain ⟨s', hrest⟩ := ih hsec.tail (inStep_init (T := T) h.alive
        (reachedAddress T s.row.address R.lastLabel e.label))
          (fun last hnone => absurd hnone (by simp [init]))
        true rfl
      exact ⟨s', (reads_advance_end h.alive hop h.address_lt hahead).trans hrest⟩
    · obtain ⟨s', hrest⟩ := ih hsec.tail
        (inStep_next (T := T) h (hsec.fits e List.mem_cons_self) (reachedAddress_lt _ hahead))
        (fun last hsome => by
          obtain rfl := Option.some.inj hsome
          exact hsec.le_following) endEntryEmitted rfl
      exact ⟨s', (reads_entry h (hsec.fits e List.mem_cons_self) hahead).trans hrest⟩

/-- The program is read, ends no sequence early, and adds the rows. -/
def ReadsRows (T : Target) (s : ParsingState) (data : List Nat) (rows : List Row) : Prop :=
  ∃ s', Reads T.prologue s data s' ∧ s'.sequenceEmpty = true ∧ s'.rows = s.rows ++ rows

/-- A first row is the right one, and the others follow. -/
theorem readsRows_cons_iff {s' : ParsingState} {data more : List Nat} (r' : Row) (rows : List Row)
    (h : Reads T.prologue s data s') (hrows : s'.rows = s.rows ++ [r])
    (hmore : ∃ s'', Reads T.prologue s' more s'') :
    ReadsRows T s (data ++ more) (r' :: rows) ↔ r = r' ∧ ReadsRows T s' more rows := by
  obtain ⟨-, js, hjs, -⟩ := hmore
  have hsplit : ∀ s'', Reads T.prologue s (data ++ more) s'' ↔
    Reads T.prologue s' more s'' := fun s'' =>
    reads_append_iff h ⟨js, hjs⟩
  constructor
  · rintro ⟨s'', hread, hempty, hall⟩
    have hread' := (hsplit s'').mp hread
    obtain ⟨tail, htail⟩ := hread'.rows_grow
    have hcons : r :: tail = r' :: rows := by
      rw [hrows, hall, List.append_assoc] at htail
      exact List.append_cancel_left htail
    obtain ⟨hr, hrest⟩ := List.cons.inj hcons
    exact ⟨hr, s'', hread', hempty, by rw [← htail, hrest]⟩
  · rintro ⟨rfl, s'', hread, hempty, hall⟩
    exact ⟨s'', (hsplit s'').mpr hread, hempty, by rw [hall, hrows, List.append_assoc]; rfl⟩

/-- Whether the last sequence is closed by an end entry. -/
def closes : Bool → List MCDwarfLineEntry → Bool
  | closed, [] => closed
  | _, e :: rest => closes e.isEndEntry rest

/-- Whether there is an end entry at all. -/
def someCloses : Bool → List MCDwarfLineEntry → Bool
  | ended, [] => ended
  | ended, e :: rest => someCloses (ended || e.isEndEntry) rest

/-- An advance from a state in step reaches its label exactly where it `Reaches` it. -/
theorem reached_iff (hahead : Ahead T R.lastLabel label)
    (haddr : ∀ last, R.lastLabel = some last → s.row.address = last) :
    reachedAddress T s.row.address R.lastLabel label = label ↔
      ∀ last, R.lastLabel = some last → Reaches T last label := by
  cases hlabel : R.lastLabel with
  | none => exact ⟨fun _ last h => absurd h (by simp), fun _ => rfl⟩
  | some last =>
    rw [hlabel] at hahead
    rw [haddr last hlabel, reachedAddress_eq_iff hahead]
    exact ⟨fun h last' hsome => Option.some.inj hsome ▸ h, fun h => h last rfl⟩

theorem closingRow_inj {address address' : Nat} :
    closingRow r address = closingRow r address' ↔ address = address' :=
  ⟨fun h => congrArg Row.address h, fun h => by rw [h]⟩

/-- **From any state in step, the rows are those of the entries exactly where the sequences are
closed and each advance reaches its label.** -/
theorem readsRows_iff (hsec : IsSection T sectionEnd entries) (h : InStep R s)
    (hlast : ∀ last, R.lastLabel = some last → last ≤ following sectionEnd entries)
    (haddr : ∀ last, R.lastLabel = some last → s.row.address = last) (ended isClosed : Bool)
    (hclosed : isClosed = true → R.lastLabel = none ∧ ended = true ∧ s.sequenceEmpty = true) :
    ReadsRows T s (emitEntries T sectionEnd R ended entries)
        (denote T.dwarfVersion sectionEnd s.row isClosed entries) ↔
      closes isClosed entries = someCloses ended entries ∧
        (∀ last, R.lastLabel = some last → Reaches T last (following sectionEnd entries)) ∧
        ∀ p ∈ advances sectionEnd entries, Reaches T p.1 p.2 := by
  have hop : s.row.opIndex = 0 := by
    rw [h.row_eq]
    rfl
  induction entries generalizing s R ended isClosed with
  | nil =>
    have hahead : Ahead T R.lastLabel sectionEnd := hsec.ahead hlast
    have hnone : ∀ p ∈ advances sectionEnd [], Reaches T p.1 p.2 :=
      fun p hp => absurd hp (by simp [advances])
    have hreached := reached_iff hahead haddr
    cases isClosed with
    | true =>
      obtain ⟨hlabel, rfl, hempty⟩ := hclosed rfl
      refine ⟨fun _ => ⟨rfl, fun last hsome => absurd hsome (by simp [hlabel]), hnone⟩, fun _ => ?_⟩
      exact ⟨s, .nil, hempty, (List.append_nil _).symm⟩
    | false =>
      cases ended with
      | true =>
        refine ⟨fun ⟨s', hread, _, hrows⟩ => ?_,
          fun hall => absurd hall.1 (by simp [closes, someCloses])⟩
        obtain ⟨is, his, rfl⟩ := hread
        obtain rfl := Option.some.inj his
        exact absurd hrows (by simp [denote])
      | false =>
        have hread := reads_advance_end (T := T) h.alive hop h.address_lt hahead
        have hcons : ReadsRows T s
            (emitDwarfAdvanceLineAddr T endSequenceDelta R.lastLabel sectionEnd ++ [])
              [closingRow s.row sectionEnd] ↔ _ :=
          readsRows_cons_iff _ _ hread (closed_rows s _) ⟨_, .nil⟩
        have hrest : ReadsRows T
            (closed (T := T) s (reachedAddress T s.row.address R.lastLabel sectionEnd)) [] [] :=
          ⟨_, .nil, rfl, (List.append_nil _).symm⟩
        rw [List.append_nil, and_iff_left hrest, closingRow_inj] at hcons
        refine hcons.trans (hreached.trans ⟨fun hall => ⟨rfl, hall, hnone⟩, fun hall => hall.2.1⟩)
  | cons e rest ih =>
    have hahead : Ahead T R.lastLabel e.label := hsec.ahead hlast
    have hreached := reached_iff hahead haddr
    have hfits := hsec.fits e List.mem_cons_self
    rw [emitEntries, denote, closes, someCloses, advances]
    cases hend : e.isEndEntry with
    | true =>
      have hinit := inStep_init (T := T) h.alive
        (reachedAddress T s.row.address R.lastLabel e.label)
      have hvacuous : ∀ last, init.lastLabel = some last → last ≤ following sectionEnd rest :=
        fun last hnone => absurd hnone (by simp [init])
      have hcons := readsRows_cons_iff (closingRow s.row e.label)
        (denote T.dwarfVersion sectionEnd (.reset true) true rest)
        (reads_advance_end (T := T) h.alive hop h.address_lt hahead)
        (closed_rows s _) (reads_emitEntries hsec.tail hinit hvacuous true)
      have hrest := ih hsec.tail hinit hvacuous (fun last hnone => absurd hnone (by simp [init]))
        true true (fun _ => ⟨rfl, rfl, rfl⟩) rfl
      rw [if_pos rfl, if_pos rfl, if_pos rfl, Bool.or_true]
      refine (hcons.trans (and_congr (closingRow_inj.trans hreached) hrest)).trans ?_
      constructor
      · rintro ⟨hreach, hall, -, hadv⟩
        exact ⟨hall, hreach, hadv⟩
      · rintro ⟨hall, hreach, hadv⟩
        exact ⟨hreach, hall, fun last hnone => absurd hnone (by simp [init]), hadv⟩
    | false =>
      have hnext := inStep_next (T := T) h hfits (reachedAddress_lt s.row.address hahead)
      have hlast' : ∀ last, (R.next e).lastLabel = some last →
        last ≤ following sectionEnd rest := by
        intro last hsome
        obtain rfl := Option.some.inj hsome
        exact hsec.le_following
      have hcons := readsRows_cons_iff (rowOf T.dwarfVersion e)
        (denote T.dwarfVersion sectionEnd (rowOf T.dwarfVersion e).postAppend false rest)
        (reads_entry (T := T) h hfits hahead) rfl (reads_emitEntries hsec.tail hnext hlast' ended)
      have hrow : ∀ address, { rowOf T.dwarfVersion e with address := address } =
        rowOf T.dwarfVersion e ↔
          address = e.label :=
        fun address => ⟨fun heq => congrArg Row.address heq, fun heq => by rw [heq]; rfl⟩
      rw [if_neg Bool.false_ne_true, if_neg Bool.false_ne_true, if_neg Bool.false_ne_true,
        Bool.or_false]
      refine hcons.trans ?_
      rw [show (s.withRow { rowOf T.dwarfVersion e with
        address := reachedAddress T s.row.address R.lastLabel e.label }).row =
        { rowOf T.dwarfVersion e with
          address := reachedAddress T s.row.address R.lastLabel e.label } from rfl, hrow]
      constructor
      · rintro ⟨hadd, hrows⟩
        rw [hadd] at hrows hnext
        have hrest := ih hsec.tail hnext hlast' (fun last hsome => Option.some.inj hsome)
          ended false
          (fun hfalse => absurd hfalse Bool.false_ne_true) rfl
        obtain ⟨hall, hreach, hadv⟩ := hrest.mp hrows
        refine ⟨hall, hreached.mp hadd, fun p hp => ?_⟩
        obtain rfl | hp := List.mem_cons.mp hp
        · exact hreach e.label rfl
        · exact hadv p hp
      · rintro ⟨hall, hreach, hadv⟩
        have hadd := hreached.mpr hreach
        refine ⟨hadd, ?_⟩
        rw [hadd] at hnext ⊢
        have hrest := ih hsec.tail hnext hlast' (fun last hsome => Option.some.inj hsome)
          ended false
          (fun hfalse => absurd hfalse Bool.false_ne_true) rfl
        exact hrest.mpr ⟨hall, fun last hsome => by
          obtain rfl := Option.some.inj hsome
          exact hadv _ List.mem_cons_self, fun p hp => hadv p (List.mem_cons_of_mem _ hp)⟩

theorem closes_eq_true_iff (isClosed : Bool) (entries : List MCDwarfLineEntry) :
    closes isClosed entries = true ↔
      (entries = [] ∧ isClosed = true) ∨ ∃ e, entries.getLast? = some e ∧ e.isEndEntry = true := by
  induction entries generalizing isClosed with
  | nil => simp [closes]
  | cons e rest ih =>
    rw [closes, ih, List.getLast?_cons]
    cases hlast : rest.getLast? with
    | none =>
      obtain rfl := List.getLast?_eq_none_iff.mp hlast
      simp
    | some x =>
      have hne : rest ≠ [] := by
        rintro rfl
        exact absurd hlast (by simp)
      simp [hne]

theorem someCloses_eq_true_iff (ended : Bool) (entries : List MCDwarfLineEntry) :
    someCloses ended entries = true ↔ ended = true ∨ ∃ e ∈ entries, e.isEndEntry = true := by
  induction entries generalizing ended with
  | nil => simp [someCloses]
  | cons e rest ih =>
    rw [someCloses, ih, Bool.or_eq_true]
    simp only [List.mem_cons, exists_eq_or_imp, or_assoc]

theorem lastCloses_iff (entries : List MCDwarfLineEntry) :
    closes false entries = someCloses false entries ↔ LastCloses entries := by
  have hcloses := closes_eq_true_iff false entries
  have hsome := someCloses_eq_true_iff false entries
  rw [Bool.eq_iff_iff, hcloses, hsome, LastCloses]
  constructor
  · intro h hex
    obtain ⟨-, hfalse⟩ | hlast := h.mpr (Or.inr hex)
    · exact absurd hfalse Bool.false_ne_true
    · exact hlast
  · intro h
    constructor
    · rintro (⟨-, hfalse⟩ | ⟨e, hlast, hend⟩)
      · exact absurd hfalse Bool.false_ne_true
      · exact Or.inr ⟨e, List.mem_of_getLast? hlast, hend⟩
    · rintro (hfalse | hex)
      · exact absurd hfalse Bool.false_ne_true
      · exact Or.inr (h hex)

theorem readsRows_start_iff (hsec : IsSection T sectionEnd entries) :
    RoundTrips T sectionEnd entries ↔
      closes false entries = someCloses false entries ∧
        ∀ p ∈ advances sectionEnd entries, Reaches T p.1 p.2 := by
  have hinit : InStep init (start T.prologue) :=
    ⟨rfl, rfl, by decide, show 0 < 2 ^ 64 by decide, rfl⟩
  have hnone : ∀ {P : Nat → Prop} last, init.lastLabel = some last → P last :=
    fun last hsome => absurd hsome (by simp [init])
  have hiff := readsRows_iff hsec hinit hnone hnone false false
    (fun hfalse => absurd hfalse Bool.false_ne_true)
  exact hiff.trans ⟨fun ⟨hlast, _, hadv⟩ => ⟨hlast, hadv⟩,
    fun ⟨hlast, hadv⟩ => ⟨hlast, hnone, hadv⟩⟩

/-- **Line tables round trip exactly where the last entry is an end entry, if any entry is one, and
each advance of `relaxDwarfLineAddr` goes 60000 bytes at most or starts at the address 0.** -/
theorem emitOne_roundTrips_iff (T : Target) (sectionEnd : Nat) (entries : List MCDwarfLineEntry)
    (hsec : IsSection T sectionEnd entries) :
    RoundTrips T sectionEnd entries ↔
      LastCloses entries ∧ ∀ p ∈ advances sectionEnd entries, Reaches T p.1 p.2 := by
  rw [readsRows_start_iff hsec, lastCloses_iff]

/-- The parameters of the assembler, for a 64-bit target; `relaxes` as for linker relaxation. -/
def rv64Target (relaxes : Bool) : Target where
  params := ⟨13, -5, 14, by decide, by decide, by decide, by decide, by decide⟩
  dwarfVersion := 5
  pointerSize := 8
  pointerSize_eq := eight_pointerSize
  relaxes := fun _ _ => relaxes

/-- A line of the first file, or an end entry. -/
def entryAt (label line : Nat) (isEndEntry : Bool) : MCDwarfLineEntry :=
  ⟨label, isEndEntry, 1, line, 0, flagIsStmt, 0, 0⟩

theorem fits_entryAt (label : Nat) {line : Nat} (h : line < 2 ^ 32) (isEndEntry : Bool) :
    (entryAt label line isEndEntry).Fits :=
  ⟨show 1 < 2 ^ 16 by decide, h, show 0 < 2 ^ 16 by decide, show 0 < 2 ^ 8 by decide,
    show 0 < 2 ^ 32 by decide⟩

theorem emitOne_roundTrips_iff_two_lines :
    RoundTrips (rv64Target true) 8 [entryAt 0 3 false, entryAt 4 7 false] ↔
      LastCloses [entryAt 0 3 false, entryAt 4 7 false] ∧
        ∀ p ∈ advances 8 [entryAt 0 3 false, entryAt 4 7 false],
          Reaches (rv64Target true) p.1 p.2 :=
  emitOne_roundTrips_iff (rv64Target true) 8 [entryAt 0 3 false, entryAt 4 7 false]
    { fits := by simp [fits_entryAt]
      ordered := by simp [entryAt]
      label_le := by simp [entryAt]
      end_lt := by decide }

/-- A sequence behind an end entry is left open. And an advance of 61440 bytes from the address 4 is
taken for one to the address 61440. -/
theorem line_table_misread :
    ¬RoundTrips (rv64Target false) 12 [entryAt 0 3 false, entryAt 4 3 true, entryAt 4 7 false] ∧
      ¬RoundTrips (rv64Target true) 61448 [entryAt 4 3 false, entryAt 61444 7 false] := by
  have hopen : IsSection (rv64Target false) 12
      [entryAt 0 3 false, entryAt 4 3 true, entryAt 4 7 false] :=
    { fits := by simp [fits_entryAt]
      ordered := by simp [entryAt]
      label_le := by simp [entryAt]
      end_lt := by decide }
  have hfar : IsSection (rv64Target true) 61448 [entryAt 4 3 false, entryAt 61444 7 false] :=
    { fits := by simp [fits_entryAt]
      ordered := by simp [entryAt]
      label_le := by simp [entryAt]
      end_lt := by decide }
  constructor
  · intro h
    exact absurd ((readsRows_start_iff hopen).mp h).1 (by decide)
  · intro h
    have hreach : Reaches (rv64Target true) 4 61444 :=
      ((readsRows_start_iff hfar).mp h).2 (4, 61444) List.mem_cons_self
    have := hreach rfl
    omega

end RvLlvm.Mc.LineEmitter
