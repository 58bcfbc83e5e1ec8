import RvLlvm.Mc.CallFrame

/-!
# Emitting call frame information

Model of the call frame part of `FrameEmitterImpl` and `MCDwarfFrameEmitter`
(`llvm/lib/MC/MCDwarf.cpp:1300-1490`, `1557-1774`, `1778-1974`) for RISC-V, whose registers have the
same numbers in both sections, whose code alignment is 1 and whose initial frame state is `sp + 0`.
Of a CIE and an FDE the instructions are modelled byte by byte, the headers as the fields that a
reader needs; compact unwind information and the directives of other targets are left out.

* `denote`: what the directives say of each label.
* `interpret_emitCFIInstruction`: one directive is read back as it was meant, a relative one where
  the running offset is that in force.
* `frameFaithful_iff`: the same of the directives of a frame.
-/

namespace RvLlvm.Mc.FrameEmitter

open RvLlvm.Support RvLlvm.Mc.CallFrame

/-- `MCSymbol`, as a place of the code. -/
abbrev Label := Nat

/-- `MCCFIInstruction::OpType`, with the operands; offsets are `int`, registers and address spaces
`unsigned`. -/
inductive Operation
  | register (reg reg2 : BitVec 32)
  | undefined (reg : BitVec 32)
  | adjustCfaOffset (offset : BitVec 32)
  | defCfaOffset (offset : BitVec 32)
  | defCfa (reg offset : BitVec 32)
  | defCfaRegister (reg : BitVec 32)
  | llvmDefAspaceCfa (reg offset addrSpace : BitVec 32)
  | offset (reg offset : BitVec 32)
  | relOffset (reg offset : BitVec 32)
  | rememberState
  | restoreState
  | sameValue (reg : BitVec 32)
  | restore (reg : BitVec 32)
  | gnuArgsSize (offset : BitVec 32)
  | escape (values : List Nat)
  deriving DecidableEq

/-- `MCCFIInstruction`. -/
structure MCCFIInstruction where
  label : Option Label
  operation : Operation
  deriving DecidableEq

/-! ## Bytes -/

/-- `emitULEB128IntValue` of an `int`. -/
def ulebInt (z : BitVec 32) : List Nat := Uleb128.encode (cell 64 z.toInt)

/-- `emitULEB128IntValue` of an `unsigned`. -/
def ulebReg (reg : BitVec 32) : List Nat := Uleb128.encode reg.toNat

/-- The last part of the case `OpOffset`: `offset` is divided by the data alignment. -/
def emitFactored (dataAlign : Int) (reg offset : BitVec 32) : List Nat :=
  let factored := offset.toInt.tdiv dataAlign
  if factored < 0 then Opcode.offsetExtendedSf.code :: (ulebReg reg ++ Sleb128.encode factored)
  else if reg.toNat < 64 then (Opcode.offset.code + reg.toNat) :: Uleb128.encode factored.toNat
  else Opcode.offsetExtended.code :: (ulebReg reg ++ Uleb128.encode factored.toNat)

/-- `emitCFIInstruction`: the bytes, and `CFAOffset` after it. -/
def emitCFIInstruction (dataAlign : Int) (cfaOffset : BitVec 32) : Operation → List Nat × BitVec 32
  | .register reg reg2 => (Opcode.register.code :: (ulebReg reg ++ ulebReg reg2), cfaOffset)
  | .undefined reg => (Opcode.undefined.code :: ulebReg reg, cfaOffset)
  | .adjustCfaOffset offset =>
    (Opcode.defCfaOffset.code :: ulebInt (cfaOffset + offset), cfaOffset + offset)
  | .defCfaOffset offset => (Opcode.defCfaOffset.code :: ulebInt offset, offset)
  | .defCfa reg offset => (Opcode.defCfa.code :: (ulebReg reg ++ ulebInt offset), offset)
  | .defCfaRegister reg => (Opcode.defCfaRegister.code :: ulebReg reg, cfaOffset)
  | .llvmDefAspaceCfa reg offset addrSpace =>
    (Opcode.llvmDefAspaceCfa.code :: (ulebReg reg ++ (ulebInt offset ++ ulebReg addrSpace)), offset)
  | .offset reg offset => (emitFactored dataAlign reg offset, cfaOffset)
  | .relOffset reg offset => (emitFactored dataAlign reg (offset - cfaOffset), cfaOffset)
  | .rememberState => ([Opcode.rememberState.code], cfaOffset)
  | .restoreState => ([Opcode.restoreState.code], cfaOffset)
  | .sameValue reg => (Opcode.sameValue.code :: ulebReg reg, cfaOffset)
  | .restore reg =>
    (if reg.toNat < 64 then [Opcode.restore.code + reg.toNat]
      else Opcode.restoreExtended.code :: ulebReg reg, cfaOffset)
  | .gnuArgsSize offset => (Opcode.gnuArgsSize.code :: ulebInt offset, cfaOffset)
  | .escape values => (values, cfaOffset)

/-- `encodeAdvanceLoc`. -/
def encodeAdvanceLoc (addrDelta : Nat) : List Nat :=
  if addrDelta = 0 then []
  else if addrDelta < 2 ^ 6 then [Opcode.advanceLoc.code + addrDelta]
  else if addrDelta < 2 ^ 8 then [Opcode.advanceLoc1.code, addrDelta]
  else if addrDelta < 2 ^ 16 then [Opcode.advanceLoc2.code, addrDelta % 256, addrDelta / 256]
  else [Opcode.advanceLoc4.code, addrDelta % 256, addrDelta / 256 % 256, addrDelta / 256 ^ 2 % 256,
    addrDelta / 256 ^ 3]

/-- Where the labels are; `none` for one that is not defined. -/
abbrev Layout := Label → Option Nat

namespace Layout

variable (layout : Layout)

def address (l : Label) : Nat := (layout l).getD 0

/-- The label is invalid: the directive stands in dead code. -/
def isDead (i : MCCFIInstruction) : Bool :=
  match i.label with
  | none => false
  | some l => (layout l).isNone

/-- `emitDwarfAdvanceFrameAddr`, where the label is a new one. -/
def advance (baseLabel label : Option Label) : List Nat :=
  match baseLabel, label with
  | some b, some l => if l ≠ b then encodeAdvanceLoc (layout.address l - layout.address b) else []
  | _, _ => []

end Layout

/-- `BaseLabel` after a directive. -/
def nextBase (baseLabel label : Option Label) : Option Label :=
  match baseLabel, label with
  | some _, some l => some l
  | base, _ => base

/-- `emitCFIInstructions`: the bytes of each directive that is emitted, and `CFAOffset` after
them. -/
def emitCFIInstructions (layout : Layout) (dataAlign : Int) :
    BitVec 32 → Option Label → List MCCFIInstruction → List (List Nat) × BitVec 32
  | cfaOffset, _, [] => ([], cfaOffset)
  | cfaOffset, baseLabel, i :: rest =>
    if layout.isDead i then emitCFIInstructions layout dataAlign cfaOffset baseLabel rest
    else
      let now := emitCFIInstruction dataAlign cfaOffset i.operation
      let later := emitCFIInstructions layout dataAlign now.2 (nextBase baseLabel i.label) rest
      ((layout.advance baseLabel i.label ++ now.1) :: later.1, later.2)

/-! ## What directives mean -/

/-- The CFA offset in force. -/
def offsetInForce (s : RowState) : Option Int :=
  match s.row.cfa with
  | .isRegisterPlusOffset _ offset _ => some offset
  | _ => none

/-- **The meaning of a directive**: a relative one refers to the CFA offset in force. -/
def denoteOperation (C : Context) (s : RowState) : Operation → Option RowState
  | .register reg reg2 => some (s.setLoc reg.toNat (some (.isRegisterPlusOffset reg2.toNat 0 none)))
  | .undefined reg => some (s.setLoc reg.toNat (some .undefined))
  | .adjustCfaOffset offset => (offsetInForce s).bind fun o => s.setCFAOffset (o + offset.toInt)
  | .defCfaOffset offset => s.setCFAOffset offset.toInt
  | .defCfa reg offset => some (s.setCFA (.isRegisterPlusOffset reg.toNat offset.toInt none))
  | .defCfaRegister reg => some (s.setCFARegister reg.toNat)
  | .llvmDefAspaceCfa reg offset addrSpace =>
    some (s.setCFA (.isRegisterPlusOffset reg.toNat offset.toInt (some addrSpace.toNat)))
  | .offset reg offset => some (s.setLoc reg.toNat (some (.atCFAPlusOffset offset.toInt)))
  | .relOffset reg offset =>
    (offsetInForce s).map fun o => s.setLoc reg.toNat (some (.atCFAPlusOffset (offset.toInt - o)))
  | .rememberState => some s.rememberState
  | .restoreState => s.restoreState
  | .sameValue reg => some (s.setLoc reg.toNat (some .same))
  | .restore reg => C.initialLocs.map fun initial => s.setLoc reg.toNat (initial reg.toNat)
  | .gnuArgsSize _ => some s
  | .escape values => interpret C s values

/-- The row at a label. -/
def atLabel (layout : Layout) (s : RowState) (label : Option Label) : RowState :=
  match label with
  | none => s
  | some l => { s with row := { s.row with address := layout.address l } }

/-- The meaning of a directive at its label. -/
def denoteInstruction (layout : Layout) (C : Context) (s : RowState) (i : MCCFIInstruction) :
    Option RowState := denoteOperation C (atLabel layout s i.label) i.operation

/-! ## Reading one directive -/

/-- The data alignment of RISC-V. -/
def IsDataAlign (dataAlign : Int) : Prop := dataAlign = -4 ∨ dataAlign = -8

/-- An instruction that moves to another row. -/
def isAdvance (i : Instruction) : Bool :=
  match i.opcode with
  | .advanceLoc | .advanceLoc1 | .advanceLoc2 | .advanceLoc4 => true
  | _ => false

/-- **A directive as it may be written**: CFA offsets stay within the non-negative values of `int`,
register offsets are multiples of the data alignment, and an escape holds whole instructions, none
of which advances. -/
def OperationValid (C : Context) (s : RowState) : Operation → Prop
  | .adjustCfaOffset offset =>
    ∃ o, offsetInForce s = some o ∧ 0 ≤ o ∧ o < 2 ^ 31 ∧ 0 ≤ o + offset.toInt ∧
      o + offset.toInt < 2 ^ 31
  | .offset _ offset => C.dataAlign ∣ offset.toInt
  | .relOffset _ offset =>
    ∃ o, offsetInForce s = some o ∧ C.dataAlign ∣ offset.toInt - o ∧
      -2 ^ 31 ≤ offset.toInt - o ∧ offset.toInt - o < 2 ^ 31
  | .escape values => ∃ is, parse values = some is ∧ ∀ i ∈ is, isAdvance i = false
  | _ => True

/-- The running offset is the one in force, for a relative directive; of `rel_offset`, after the
division by the data alignment. -/
def InStep (C : Context) (s : RowState) (cfaOffset : BitVec 32) : Operation → Prop
  | .adjustCfaOffset _ => offsetInForce s = some cfaOffset.toInt
  | .relOffset _ offset =>
    ∃ o, offsetInForce s = some o ∧
      (offset - cfaOffset).toInt.tdiv C.dataAlign * C.dataAlign = offset.toInt - o
  | _ => True

section Reading

variable {C : Context} {s : RowState}

theorem parseOpcode_code {o : Opcode}
    (h : o ∈ extendedOpcodes) : parseOpcode o.code = some (o, []) := by
  revert o
  decide

theorem parseInstruction_extended {o : Opcode} (h : o ∈ extendedOpcodes) (data : List Nat) :
    parseInstruction (o.code :: data) =
      (parseOperands o.operands data).map fun p => (⟨o, p.1⟩, p.2) := by
  rw [parseInstruction, parseOpcode_code h]
  rfl

theorem parseOperands_uleb {n : Nat} (hn : n < 2 ^ 64) (kinds : List OperandKind)
    (data : List Nat) :
    parseOperands (.uleb :: kinds) (Uleb128.encode n ++ data) =
      (parseOperands kinds data).map fun p => (.value n :: p.1, p.2) := by
  rw [parseOperands, parseOperand, Uleb128.decode_encode hn]
  rfl

theorem parseOperands_sleb (z : Int) (kinds : List OperandKind) (data : List Nat) :
    parseOperands (.sleb :: kinds) (Sleb128.encode z ++ data) =
      (parseOperands kinds data).map fun p => (.value (cell 64 z) :: p.1, p.2) := by
  rw [parseOperands, parseOperand, Sleb128.decode_encode]

theorem toNat_lt_two_pow (r : BitVec 32) : r.toNat < 2 ^ 64 := by
  have h := r.isLt
  omega

theorem parseOperands_ulebReg (r : BitVec 32) (kinds : List OperandKind) (data : List Nat) :
    parseOperands (.uleb :: kinds) (ulebReg r ++ data) =
      (parseOperands kinds data).map fun p => (.value r.toNat :: p.1, p.2) :=
  parseOperands_uleb (toNat_lt_two_pow r) kinds data

theorem parseOperands_ulebInt (z : BitVec 32) (kinds : List OperandKind) (data : List Nat) :
    parseOperands (.uleb :: kinds) (ulebInt z ++ data) =
      (parseOperands kinds data).map fun p => (.value (cell 64 z.toInt) :: p.1, p.2) :=
  parseOperands_uleb (cell_lt 64 _) kinds data

theorem parseOperands_nil (data : List Nat) : parseOperands [] data = some ([], data) := rfl

/-- A signed 64-bit value comes back as it was. -/
theorem bmod_cell {z : Int} (hlo : -2 ^ 63 ≤ z) (hhi : z < 2 ^ 63) :
    (cell 64 z : Int).bmod (2 ^ 64) = z := by
  have hmod : (cell 64 z : Int) = z % 2 ^ 64 := cell_cast 64 z
  rw [Int.bmod, hmod]
  norm_num
  omega

theorem bmod_self {z : Int} (hlo : -2 ^ 63 ≤ z) (hhi : z < 2 ^ 63) : z.bmod (2 ^ 64) = z := by
  rw [Int.bmod]
  norm_num
  omega

theorem toInt_range (z : BitVec 32) : -2147483648 ≤ z.toInt ∧ z.toInt < 2147483648 :=
  ⟨BitVec.le_toInt z, BitVec.toInt_lt⟩

theorem signedOffset_cell (z : BitVec 32) : signedOffset (cell 64 z.toInt) = z.toInt := by
  obtain ⟨hlo, hhi⟩ := toInt_range z
  exact bmod_cell (by omega) (by omega)

theorem cell_mul_bmod (v d : Int) :
    ((cell 64 v : Int) * d).bmod (2 ^ 64) = (v * d).bmod (2 ^ 64) := by
  have hmod : (cell 64 v : Int) = v % ((2 ^ 64 : Nat) : Int) := cell_cast 64 v
  rw [hmod]
  exact Int.emod_mul_bmod v (2 ^ 64)

/-- An `int` divided by the data alignment. -/
theorem tdiv_range {a d : Int} (hd : IsDataAlign d) (hlo : -2147483648 ≤ a) (hhi : a < 2147483648) :
    (-536870912 ≤ a.tdiv d ∧ a.tdiv d ≤ 536870912) ∧
      -2147483648 ≤ a.tdiv d * d ∧ a.tdiv d * d ≤ 2147483648 := by
  rcases hd with h | h
  · have hsign : Int.sign 4 = 1 := rfl
    rw [h, Int.tdiv_neg, Int.tdiv_eq_ediv, hsign]
    split <;> omega
  · have hsign : Int.sign 8 = 1 := rfl
    rw [h, Int.tdiv_neg, Int.tdiv_eq_ediv, hsign]
    split <;> omega

/-- The rule of a factored offset. -/
theorem interpret_emitFactored (hC : IsDataAlign C.dataAlign) (reg offset : BitVec 32) :
    (∃ i, parseInstruction (emitFactored C.dataAlign reg offset) = some (i, []) ∧
      isAdvance i = false) ∧
    interpret C s (emitFactored C.dataAlign reg offset) =
      some (s.setLoc reg.toNat
        (some (.atCFAPlusOffset (offset.toInt.tdiv C.dataAlign * C.dataAlign)))) := by
  obtain ⟨hlo, hhi⟩ := toInt_range offset
  obtain ⟨⟨hvlo, hvhi⟩, hplo, hphi⟩ := tdiv_range hC hlo hhi
  unfold emitFactored
  simp only
  split
  · next hneg =>
    have hvalue : C.factoredOffset (cell 64 (offset.toInt.tdiv C.dataAlign)) =
        offset.toInt.tdiv C.dataAlign * C.dataAlign := by
      rw [Context.factoredOffset, cell_mul_bmod, bmod_self (by omega) (by omega)]
    have hparse : parseInstruction (Opcode.offsetExtendedSf.code ::
        (ulebReg reg ++ Sleb128.encode (offset.toInt.tdiv C.dataAlign))) =
        some (⟨.offsetExtendedSf, [.value reg.toNat,
          .value (cell 64 (offset.toInt.tdiv C.dataAlign))]⟩, []) := by
      rw [parseInstruction_extended (by decide), Opcode.operands, parseOperands_ulebReg,
        ← List.append_nil (Sleb128.encode _), parseOperands_sleb, parseOperands_nil]
      rfl
    refine ⟨⟨_, hparse, rfl⟩, ?_⟩
    rw [interpret_single C s hparse]
    exact congrArg (fun o => some (s.setLoc reg.toNat (some (.atCFAPlusOffset o)))) hvalue
  · next hpos =>
    have hcast : ((offset.toInt.tdiv C.dataAlign).toNat : Int) = offset.toInt.tdiv C.dataAlign :=
      Int.toNat_of_nonneg (not_lt.mp hpos)
    have hvalue : C.factoredOffset (offset.toInt.tdiv C.dataAlign).toNat =
        offset.toInt.tdiv C.dataAlign * C.dataAlign := by
      rw [Context.factoredOffset, hcast, bmod_self (by omega) (by omega)]
    split
    · next hreg =>
      have hparse : parseInstruction ((Opcode.offset.code + reg.toNat) ::
          Uleb128.encode (offset.toInt.tdiv C.dataAlign).toNat) =
          some (⟨.offset, [.value reg.toNat,
            .value (offset.toInt.tdiv C.dataAlign).toNat]⟩, []) := by
        have hopcode : parseOpcode (Opcode.offset.code + reg.toNat) =
          some (.offset, [.value reg.toNat]) := by
          have hcode : Opcode.offset.code = 128 := rfl
          rw [parseOpcode, hcode, if_neg (by omega), if_neg (by omega), if_pos (by omega),
            show (128 + reg.toNat) % 64 = reg.toNat by omega]
        rw [parseInstruction, hopcode]
        simp only
        rw [Opcode.operands, ← List.append_nil (Uleb128.encode _), parseOperands_uleb (by omega),
          parseOperands_nil]
        rfl
      refine ⟨⟨_, hparse, rfl⟩, ?_⟩
      rw [interpret_single C s hparse]
      exact congrArg (fun o => some (s.setLoc reg.toNat (some (.atCFAPlusOffset o)))) hvalue
    · next hreg =>
      have hparse : parseInstruction (Opcode.offsetExtended.code ::
          (ulebReg reg ++ Uleb128.encode (offset.toInt.tdiv C.dataAlign).toNat)) =
          some (⟨.offsetExtended, [.value reg.toNat,
            .value (offset.toInt.tdiv C.dataAlign).toNat]⟩, []) := by
        rw [parseInstruction_extended (by decide), Opcode.operands, parseOperands_ulebReg,
          ← List.append_nil (Uleb128.encode _), parseOperands_uleb (by omega), parseOperands_nil]
        rfl
      refine ⟨⟨_, hparse, rfl⟩, ?_⟩
      rw [interpret_single C s hparse]
      exact congrArg (fun o => some (s.setLoc reg.toNat (some (.atCFAPlusOffset o)))) hvalue

/-- What is written is one instruction with the effect of the directive. -/
structure Writes (C : Context) (s : RowState) (data : List Nat) (s' : Option RowState) : Prop where
  single : ∃ i, parseInstruction data = some (i, []) ∧ isAdvance i = false
  effect : interpret C s data = s'

theorem Writes.of_step {data : List Nat} {i : Instruction} {s' : Option RowState}
    (h : parseInstruction data = some (i, [])) (hadv : isAdvance i = false)
    (hstep : step C s i = s') :
    Writes C s data s' :=
  ⟨⟨i, h, hadv⟩, (interpret_single C s h).trans hstep⟩

theorem parse_one {o : Opcode} (ho : o ∈ extendedOpcodes) (hkinds : o.operands = [.uleb]) {n : Nat}
    (hn : n < 2 ^ 64) : parseInstruction (o.code :: Uleb128.encode n) =
    some (⟨o, [.value n]⟩, []) := by
  rw [parseInstruction_extended ho, hkinds, ← List.append_nil (Uleb128.encode n),
    parseOperands_uleb hn,
    parseOperands_nil]
  rfl

theorem parse_none {o : Opcode} (ho : o ∈ extendedOpcodes) (hkinds : o.operands = []) :
    parseInstruction [o.code] = some (⟨o, []⟩, []) := by
  rw [parseInstruction_extended ho, hkinds, parseOperands_nil]
  rfl

theorem writes_defCfaOffset (offset : BitVec 32) :
    Writes C s (Opcode.defCfaOffset.code :: ulebInt offset) (s.setCFAOffset offset.toInt) :=
  .of_step (parse_one (by decide) rfl (cell_lt 64 _)) rfl
    (congrArg s.setCFAOffset (signedOffset_cell offset))

theorem writes_restore (reg : BitVec 32) :
    Writes C s (if reg.toNat < 64 then [Opcode.restore.code + reg.toNat]
      else Opcode.restoreExtended.code :: ulebReg reg)
      (C.initialLocs.map fun initial => s.setLoc reg.toNat (initial reg.toNat)) := by
  split
  · next hreg =>
    have hopcode : parseOpcode (Opcode.restore.code + reg.toNat) =
      some (.restore, [.value reg.toNat]) := by
      have hcode : Opcode.restore.code = 192 := rfl
      rw [parseOpcode, hcode, if_neg (by omega), if_neg (by omega), if_neg (by omega),
        show (192 + reg.toNat) % 64 = reg.toNat by omega]
    have hparse : parseInstruction [Opcode.restore.code + reg.toNat] =
        some (⟨.restore, [.value reg.toNat]⟩, []) := by
      rw [parseInstruction, hopcode]
      rfl
    refine .of_step hparse rfl ?_
    unfold step
    cases C.initialLocs <;> rfl
  · refine .of_step (parse_one (by decide) rfl (toNat_lt_two_pow reg)) rfl ?_
    unfold step
    cases C.initialLocs <;> rfl

/-- **Every directive that is not relative is written as it is meant.** -/
theorem writes_emitCFIInstruction (hC : IsDataAlign C.dataAlign)
    (cfaOffset : BitVec 32) {op : Operation}
    (hvalid : OperationValid C s op) (hadjust : ∀ o, op ≠ .adjustCfaOffset o)
    (hrel : ∀ r o, op ≠ .relOffset r o) (hescape : ∀ values, op ≠ .escape values) :
    Writes C s (emitCFIInstruction C.dataAlign cfaOffset op).1 (denoteOperation C s op) := by
  cases op with
  | adjustCfaOffset o => exact absurd rfl (hadjust o)
  | relOffset r o => exact absurd rfl (hrel r o)
  | escape values => exact absurd rfl (hescape values)
  | undefined reg => exact .of_step (parse_one (by decide) rfl (toNat_lt_two_pow reg)) rfl rfl
  | defCfaRegister reg => exact .of_step (parse_one (by decide) rfl (toNat_lt_two_pow reg)) rfl rfl
  | sameValue reg => exact .of_step (parse_one (by decide) rfl (toNat_lt_two_pow reg)) rfl rfl
  | gnuArgsSize offset => exact .of_step (parse_one (by decide) rfl (cell_lt 64 _)) rfl rfl
  | rememberState => exact .of_step (parse_none (by decide) rfl) rfl rfl
  | restoreState => exact .of_step (parse_none (by decide) rfl) rfl rfl
  | defCfaOffset offset => exact writes_defCfaOffset offset
  | restore reg => exact writes_restore reg
  | register reg reg2 =>
    have hparse : parseInstruction (Opcode.register.code :: (ulebReg reg ++ ulebReg reg2)) =
        some (⟨.register, [.value reg.toNat, .value reg2.toNat]⟩, []) := by
      rw [parseInstruction_extended (by decide), Opcode.operands, parseOperands_ulebReg,
        ← List.append_nil (ulebReg reg2), parseOperands_ulebReg, parseOperands_nil]
      rfl
    exact .of_step hparse rfl rfl
  | defCfa reg offset =>
    have hparse : parseInstruction (Opcode.defCfa.code :: (ulebReg reg ++ ulebInt offset)) =
        some (⟨.defCfa, [.value reg.toNat, .value (cell 64 offset.toInt)]⟩, []) := by
      rw [parseInstruction_extended (by decide), Opcode.operands, parseOperands_ulebReg,
        ← List.append_nil (ulebInt offset), parseOperands_ulebInt, parseOperands_nil]
      rfl
    exact .of_step hparse rfl (congrArg
      (fun o => some (s.setCFA (.isRegisterPlusOffset reg.toNat o none)))
      (signedOffset_cell offset))
  | llvmDefAspaceCfa reg offset addrSpace =>
    have hparse : parseInstruction (Opcode.llvmDefAspaceCfa.code ::
        (ulebReg reg ++ (ulebInt offset ++ ulebReg addrSpace))) =
        some (⟨.llvmDefAspaceCfa, [.value reg.toNat, .value (cell 64 offset.toInt),
          .value addrSpace.toNat]⟩, []) := by
      rw [parseInstruction_extended (by decide), Opcode.operands, parseOperands_ulebReg,
        parseOperands_ulebInt, ← List.append_nil (ulebReg addrSpace), parseOperands_ulebReg,
        parseOperands_nil]
      rfl
    exact .of_step hparse rfl (congrArg
      (fun o => some (s.setCFA (.isRegisterPlusOffset reg.toNat o (some addrSpace.toNat))))
      (signedOffset_cell offset))
  | offset reg offset =>
    obtain ⟨hsingle, heffect⟩ := interpret_emitFactored (s := s) hC reg offset
    refine ⟨hsingle, heffect.trans ?_⟩
    rw [Int.tdiv_mul_cancel hvalid]
    rfl

end Reading

/-! ## Addresses -/

section Addresses

variable {C : Context} {s s' : RowState}

@[simp] theorem setCFA_address (s : RowState) (cfa : UnwindLocation) :
    (s.setCFA cfa).row.address = s.row.address := rfl

@[simp] theorem setLoc_address (s : RowState) (r : Nat) (loc : Option UnwindLocation) :
    (s.setLoc r loc).row.address = s.row.address := rfl

@[simp] theorem setCFARegister_address (s : RowState) (r : Nat) :
    (s.setCFARegister r).row.address = s.row.address := by
  unfold RowState.setCFARegister
  split <;> rfl

theorem setCFAOffset_address {o : Int} (h : s.setCFAOffset o = some s') :
    s'.row.address = s.row.address := by
  unfold RowState.setCFAOffset at h
  split at h
  · obtain rfl := Option.some.inj h
    rfl
  · exact absurd h (by simp)

theorem restoreState_address (h : s.restoreState = some s') : s'.row.address = s.row.address := by
  unfold RowState.restoreState at h
  split at h
  · exact absurd h (by simp)
  · obtain rfl := Option.some.inj h
    rfl

/-- Only the instructions that advance change the address. -/
theorem step_address {i : Instruction} (hadv : isAdvance i = false) (h : step C s i = some s') :
    s'.row.address = s.row.address := by
  obtain ⟨opcode, ops⟩ := i
  unfold step at h
  split at h
  case h_1 | h_2 | h_3 | h_4 =>
    rename_i heq _
    simp only at heq
    subst heq
    exact absurd hadv (by simp [isAdvance])
  case h_5 | h_6 =>
    split at h
    · exact absurd h (by simp)
    · obtain rfl := Option.some.inj h
      rfl
  case h_12 => exact restoreState_address h
  case h_22 | h_23 => exact setCFAOffset_address h
  case h_29 => exact absurd h (by simp)
  all_goals
    obtain rfl := Option.some.inj h
    simp [RowState.rememberState]

theorem parseRows_address {is : List Instruction} (hadv : ∀ i ∈ is, isAdvance i = false)
    (h : parseRows C s is = some s') : s'.row.address = s.row.address := by
  induction is generalizing s with
  | nil =>
    obtain rfl := Option.some.inj h
    rfl
  | cons i is ih =>
    rw [parseRows, List.foldlM_cons] at h
    cases hstep : step C s i with
    | none =>
      rw [hstep] at h
      exact absurd h (by simp)
    | some t =>
      rw [hstep] at h
      rw [ih (fun j hj => hadv j (List.mem_cons_of_mem i hj)) h,
        step_address (hadv i List.mem_cons_self) hstep]

theorem denoteOperation_address {op : Operation} (hvalid : OperationValid C s op)
    (h : denoteOperation C s op = some s') : s'.row.address = s.row.address := by
  cases op with
  | escape values =>
    obtain ⟨is, hparse, hadv⟩ := hvalid
    rw [denoteOperation, interpret, hparse, Option.bind_some] at h
    exact parseRows_address hadv h
  | restoreState => exact restoreState_address h
  | defCfaOffset o => exact setCFAOffset_address h
  | adjustCfaOffset o =>
    obtain ⟨f, _, hset⟩ := Option.bind_eq_some_iff.mp h
    exact setCFAOffset_address hset
  | relOffset r o =>
    obtain ⟨f, _, rfl⟩ := Option.map_eq_some_iff.mp h
    rfl
  | restore r =>
    obtain ⟨f, _, rfl⟩ := Option.map_eq_some_iff.mp h
    rfl
  | _ =>
    obtain rfl := Option.some.inj h
    simp [RowState.rememberState]

end Addresses

/-! ## One directive -/

section Directive

variable {C : Context} {s : RowState}

theorem setCFAOffset_inj {f o o' : Int} (h : offsetInForce s = some f) :
    s.setCFAOffset o = s.setCFAOffset o' ↔ o = o' := by
  refine ⟨fun heq => ?_, fun heq => by rw [heq]⟩
  unfold offsetInForce at h
  unfold RowState.setCFAOffset at heq
  split at h
  · next reg offset addrSpace hcfa =>
    rw [hcfa] at heq
    simp only [Option.some.injEq, RowState.setCFA, RowState.mk.injEq, Row.mk.injEq,
      UnwindLocation.isRegisterPlusOffset.injEq] at heq
    exact heq.1.2.1.2.1
  · exact absurd h (by simp)

theorem setLoc_inj {r : Nat} {loc loc' : Option UnwindLocation} :
    s.setLoc r loc = s.setLoc r loc' ↔ loc = loc' := by
  refine ⟨fun heq => ?_, fun heq => by rw [heq]⟩
  have hlocs := congrFun (congrArg (fun t => t.row.locs) heq) r
  simpa [RowState.setLoc] using hlocs

/-- The sum of two offsets in `int` is that of the integers exactly where the first is the same. -/
theorem toInt_add_eq_iff {c o : BitVec 32} {f : Int} (hf : 0 ≤ f) (hf' : f < 2 ^ 31)
    (hsum : 0 ≤ f + o.toInt) (hsum' : f + o.toInt < 2 ^ 31) :
    (c + o).toInt = f + o.toInt ↔ f = c.toInt := by
  obtain ⟨hclo, hchi⟩ := toInt_range c
  obtain ⟨holo, hohi⟩ := toInt_range o
  have hadd : (c + o).toInt = (c.toInt + o.toInt).bmod 4294967296 := BitVec.toInt_add c o
  rw [hadd, Int.bmod]
  norm_num
  split <;> omega

/-- **One directive is read back as it was meant exactly where the running offset is in step.** -/
theorem interpret_emitCFIInstruction (hC : IsDataAlign C.dataAlign) (cfaOffset : BitVec 32)
    {op : Operation} (hvalid : OperationValid C s op) :
    (∃ is, parse (emitCFIInstruction C.dataAlign cfaOffset op).1 = some is) ∧
    (interpret C s (emitCFIInstruction C.dataAlign cfaOffset op).1 = denoteOperation C s op ↔
      InStep C s cfaOffset op) := by
  cases op with
  | adjustCfaOffset o =>
    obtain ⟨f, hf, hlo, hhi, hsum, hsum'⟩ := hvalid
    obtain ⟨⟨i, hparse, -⟩, heffect⟩ := writes_defCfaOffset (C := C) (s := s) (cfaOffset + o)
    refine ⟨⟨[i], parse_single hparse⟩, ?_⟩
    rw [emitCFIInstruction, heffect, denoteOperation, hf, Option.bind_some, setCFAOffset_inj hf,
      toInt_add_eq_iff hlo hhi hsum hsum', InStep, hf, Option.some.injEq]
  | relOffset r o =>
    obtain ⟨f, hf, -, -, -⟩ := hvalid
    obtain ⟨⟨i, hparse, -⟩, heffect⟩ := interpret_emitFactored (s := s) hC r (o - cfaOffset)
    refine ⟨⟨[i], parse_single hparse⟩, ?_⟩
    rw [emitCFIInstruction, heffect, denoteOperation, hf, Option.map_some, Option.some.injEq,
      setLoc_inj,
      Option.some.injEq, UnwindLocation.atCFAPlusOffset.injEq, InStep, hf]
    simp
  | escape values =>
    obtain ⟨is, hparse, -⟩ := hvalid
    exact ⟨⟨is, hparse⟩, ⟨fun _ => trivial, fun _ => rfl⟩⟩
  | _ =>
    obtain ⟨⟨i, hparse, -⟩, heffect⟩ :=
      writes_emitCFIInstruction hC cfaOffset hvalid (by simp) (by simp)
      (by simp)
    exact ⟨⟨[i], parse_single hparse⟩, ⟨fun _ => trivial, fun _ => heffect⟩⟩

/-- An advance is read back as the distance. -/
theorem interpret_encodeAdvanceLoc {d : Nat} (hd : d < 2 ^ 32) :
    (∃ is, parse (encodeAdvanceLoc d) = some is) ∧
    interpret C s (encodeAdvanceLoc d) = some (s.slideAddress d) := by
  have hone : ∀ {i : Instruction}, parseInstruction (encodeAdvanceLoc d) = some (i, []) →
      step C s i = some (s.slideAddress d) →
      (∃ is, parse (encodeAdvanceLoc d) = some is) ∧
        interpret C s (encodeAdvanceLoc d) = some (s.slideAddress d) := fun hparse hstep =>
    ⟨⟨_, parse_single hparse⟩, (interpret_single C s hparse).trans hstep⟩
  by_cases hzero : d = 0
  · subst hzero
    exact ⟨⟨[], rfl⟩, rfl⟩
  · by_cases h6 : d < 2 ^ 6
    · have hcode : Opcode.advanceLoc.code = 64 := rfl
      refine hone (i := ⟨.advanceLoc, [.value d]⟩) ?_ rfl
      have hopcode : parseOpcode (Opcode.advanceLoc.code + d) = some (.advanceLoc, [.value d]) := by
        rw [parseOpcode, hcode, if_neg (by omega), if_pos (by omega),
          show (64 + d) % 64 = d by omega]
      rw [encodeAdvanceLoc, if_neg hzero, if_pos h6, parseInstruction, hopcode]
      rfl
    · by_cases h8 : d < 2 ^ 8
      · refine hone (i := ⟨.advanceLoc1, [.value d]⟩) ?_ rfl
        rw [encodeAdvanceLoc, if_neg hzero, if_neg h6, if_pos h8,
          parseInstruction_extended (by decide)]
        simp [Opcode.operands, parseOperands, parseOperand, Nat.ofDigits]
      · by_cases h16 : d < 2 ^ 16
        · have hval : d % 256 + 256 * (d / 256) = d := Nat.mod_add_div d 256
          refine hone (i := ⟨.advanceLoc2, [.value d]⟩) ?_ rfl
          rw [encodeAdvanceLoc, if_neg hzero, if_neg h6, if_neg h8, if_pos h16,
            parseInstruction_extended (by decide)]
          simp [Opcode.operands, parseOperands, parseOperand, Nat.ofDigits, hval]
        · have hval : d % 256 + 256 * (d / 256 % 256 +
            256 * (d / 65536 % 256 + 256 * (d / 16777216))) = d := by
            omega
          refine hone (i := ⟨.advanceLoc4, [.value d]⟩) ?_ rfl
          rw [encodeAdvanceLoc, if_neg hzero, if_neg h6, if_neg h8, if_neg h16,
            parseInstruction_extended (by decide)]
          simp [Opcode.operands, parseOperands, parseOperand, Nat.ofDigits, hval]

end Directive

/-! ## The directives of a frame -/

/-- The directives that are not in dead code. -/
def kept (layout : Layout) (instrs : List MCCFIInstruction) : List MCCFIInstruction :=
  instrs.filter fun i => !layout.isDead i

/-- The offset that directives leave when `restore_state` and escapes are passed over. -/
def runningOffset (cfaOffset : BitVec 32) : Operation → BitVec 32
  | .adjustCfaOffset offset => cfaOffset + offset
  | .defCfaOffset offset | .defCfa _ offset | .llvmDefAspaceCfa _ offset _ => offset
  | _ => cfaOffset

/-- The label does not lie before the last one, nor too far behind it. -/
def InOrder (layout : Layout) (baseLabel label : Option Label) : Prop :=
  ∀ b l, baseLabel = some b → label = some l →
    layout.address b ≤ layout.address l ∧ layout.address l - layout.address b < 2 ^ 32

/-- **The directives of a frame as they may be written**, from a state on: labels in order, each
directive valid and meaningful where it stands. -/
def Valid (layout : Layout) (C : Context) : Option Label → RowState → List MCCFIInstruction → Prop
  | _, _, [] => True
  | baseLabel, s, i :: rest =>
    InOrder layout baseLabel i.label ∧ OperationValid C (atLabel layout s i.label) i.operation ∧
      ∃ s', denoteInstruction layout C s i = some s' ∧
        Valid layout C (nextBase baseLabel i.label) s' rest

/-- At every relative directive the running offset is in step. -/
def AllInStep (layout : Layout) (C : Context) : BitVec 32 → RowState → List MCCFIInstruction → Prop
  | _, _, [] => True
  | cfaOffset, s, i :: rest =>
    InStep C s cfaOffset i.operation ∧ ∀ s', denoteInstruction layout C s i = some s' →
      AllInStep layout C (runningOffset cfaOffset i.operation) s' rest

/-- **A frame is read back**: behind the bytes of each directive, the state is the one that the
directives up to there mean. -/
def ReadBack (layout : Layout) (C : Context) (start denoted : RowState) (chunks : List (List Nat))
    (instrs : List MCCFIInstruction) : Prop :=
  ∀ k ≤ instrs.length, interpret C start (chunks.take k).flatten =
    (instrs.take k).foldlM (denoteInstruction layout C) denoted

section Frame

variable {layout : Layout} {C : Context} {s : RowState}

theorem emitCFIInstruction_snd (dataAlign : Int) (cfaOffset : BitVec 32) (op : Operation) :
    (emitCFIInstruction dataAlign cfaOffset op).2 = runningOffset cfaOffset op := by
  cases op <;> rfl

/-- Dead directives leave no trace. -/
theorem emitCFIInstructions_kept (dataAlign : Int) (cfaOffset : BitVec 32)
    (baseLabel : Option Label)
    (instrs : List MCCFIInstruction) :
    emitCFIInstructions layout dataAlign cfaOffset baseLabel instrs =
      emitCFIInstructions layout dataAlign cfaOffset baseLabel (kept layout instrs) := by
  induction instrs generalizing cfaOffset baseLabel with
  | nil => rfl
  | cons i rest ih =>
    rw [emitCFIInstructions, kept, List.filter_cons]
    cases hdead : layout.isDead i with
    | true =>
      rw [if_pos rfl, Bool.not_true, if_neg Bool.false_ne_true, ih]
      rfl
    | false =>
      rw [if_neg Bool.false_ne_true, Bool.not_false, if_pos rfl, emitCFIInstructions, hdead,
        if_neg Bool.false_ne_true]
      simp only [ih]
      rfl

theorem offsetInForce_atLabel (s : RowState) (label : Option Label) :
    offsetInForce (atLabel layout s label) = offsetInForce s := by
  cases label <;> rfl

theorem inStep_atLabel (cfaOffset : BitVec 32) (label : Option Label) (op : Operation) :
    InStep C (atLabel layout s label) cfaOffset op ↔ InStep C s cfaOffset op := by
  cases op <;> simp only [InStep, offsetInForce_atLabel]

variable {baseLabel : Option Label}

/-- The advance takes the reader to the label. -/
theorem interpret_advance {label : Option Label} (horder : InOrder layout baseLabel label)
    (hbase : ∀ b, baseLabel = some b → s.row.address = layout.address b)
    (hsome : label.isSome → baseLabel.isSome) :
    (∃ is, parse (layout.advance baseLabel label) = some is) ∧
      interpret C s (layout.advance baseLabel label) = some (atLabel layout s label) := by
  cases label with
  | none =>
    have hnil : layout.advance baseLabel none = [] := by
      cases baseLabel <;> rfl
    rw [hnil]
    exact ⟨⟨[], rfl⟩, rfl⟩
  | some l =>
    obtain ⟨b, rfl⟩ := Option.isSome_iff_exists.mp (hsome rfl)
    obtain ⟨hle, hlt⟩ := horder b l rfl rfl
    have haddr := hbase b rfl
    have hmove : s.slideAddress (layout.address l - layout.address b) =
      atLabel layout s (some l) := by
      have hsum : s.row.address + (layout.address l - layout.address b) =
        layout.address l := by omega
      rw [RowState.slideAddress, hsum]
      rfl
    by_cases hsame : l = b
    · have hadv : layout.advance (some b) (some l) = [] := if_neg fun hne => hne hsame
      rw [hadv]
      refine ⟨⟨[], rfl⟩, ?_⟩
      rw [← hmove, hsame, Nat.sub_self]
      rfl
    · have hadv : layout.advance (some b) (some l) =
          encodeAdvanceLoc (layout.address l - layout.address b) := if_pos hsame
      rw [hadv, ← hmove]
      exact interpret_encodeAdvanceLoc hlt

/-- The bytes of one directive, its advance included. -/
theorem interpret_chunk (hC : IsDataAlign C.dataAlign) (cfaOffset : BitVec 32)
    {i : MCCFIInstruction} (horder : InOrder layout baseLabel i.label)
    (hbase : ∀ b, baseLabel = some b → s.row.address = layout.address b)
    (hsome : i.label.isSome → baseLabel.isSome)
    (hvalid : OperationValid C (atLabel layout s i.label) i.operation) :
    (∃ is, parse (layout.advance baseLabel i.label ++
      (emitCFIInstruction C.dataAlign cfaOffset i.operation).1) = some is) ∧
    (interpret C s (layout.advance baseLabel i.label ++
        (emitCFIInstruction C.dataAlign cfaOffset i.operation).1) = denoteInstruction layout C s i ↔
      InStep C s cfaOffset i.operation) := by
  obtain ⟨⟨is, hadv⟩, hmove⟩ := interpret_advance (C := C) horder hbase hsome
  obtain ⟨⟨js, hop⟩, hiff⟩ := interpret_emitCFIInstruction hC cfaOffset hvalid
  refine ⟨⟨is ++ js, parse_append hadv hop⟩, ?_⟩
  rw [interpret_append C hadv hop, hmove, Option.bind_some, denoteInstruction, hiff, inStep_atLabel]

/-- The address behind a directive is that of the last label. -/
theorem denoteInstruction_address {i : MCCFIInstruction} {s' : RowState}
    (hbase : ∀ b, baseLabel = some b → s.row.address = layout.address b)
    (hvalid : OperationValid C (atLabel layout s i.label) i.operation)
    (h : denoteInstruction layout C s i = some s') :
    ∀ b, nextBase baseLabel i.label = some b → s'.row.address = layout.address b := by
  intro b hb
  rw [denoteOperation_address hvalid h]
  cases hlabel : i.label with
  | none =>
    rw [hlabel] at hb
    have hb' : baseLabel = some b := by
      cases baseLabel with
      | none => exact hb
      | some x => exact hb
    exact hbase b hb'
  | some l =>
    rw [hlabel] at hb
    cases baseLabel with
    | none => exact absurd hb (by simp [nextBase])
    | some x =>
      obtain rfl := Option.some.inj hb
      rfl

/-- The bytes of all directives can be read. -/
theorem parse_chunks (hC : IsDataAlign C.dataAlign) (cfaOffset : BitVec 32)
    {instrs : List MCCFIInstruction} (halive : ∀ i ∈ instrs, layout.isDead i = false)
    (hbase : ∀ b, baseLabel = some b → s.row.address = layout.address b) (hsome : baseLabel.isSome)
    (hvalid : Valid layout C baseLabel s instrs) (k : Nat) :
    ∃ is, parse ((emitCFIInstructions layout C.dataAlign cfaOffset baseLabel instrs).1.take
      k).flatten =
      some is := by
  induction instrs generalizing cfaOffset baseLabel s k with
  | nil =>
    rw [emitCFIInstructions, List.take_nil]
    exact ⟨[], rfl⟩
  | cons i rest ih =>
    obtain ⟨horder, hop, s', hdenote, hrest⟩ := hvalid
    rw [emitCFIInstructions, halive i List.mem_cons_self, if_neg Bool.false_ne_true]
    cases k with
    | zero => exact ⟨[], rfl⟩
    | succ k =>
      obtain ⟨⟨is, hchunk⟩, -⟩ := interpret_chunk hC cfaOffset horder hbase (fun _ => hsome) hop
      obtain ⟨js, hlater⟩ := ih (runningOffset cfaOffset i.operation)
        (fun j hj => halive j (List.mem_cons_of_mem i hj))
        (denoteInstruction_address hbase hop hdenote)
        (by
          cases baseLabel <;> cases i.label <;> first
            | rfl
            | exact absurd hsome (by simp)) hrest k
      rw [← emitCFIInstruction_snd C.dataAlign] at hlater
      exact ⟨is ++ js, parse_append hchunk hlater⟩

/-- **A frame is read back exactly where every relative directive is in step.** -/
theorem readBack_iff (hC : IsDataAlign C.dataAlign) (cfaOffset : BitVec 32)
    {instrs : List MCCFIInstruction} (halive : ∀ i ∈ instrs, layout.isDead i = false)
    (hbase : ∀ b, baseLabel = some b → s.row.address = layout.address b) (hsome : baseLabel.isSome)
    (hvalid : Valid layout C baseLabel s instrs) :
    ReadBack layout C s s (emitCFIInstructions layout C.dataAlign cfaOffset baseLabel
      instrs).1 instrs ↔
      AllInStep layout C cfaOffset s instrs := by
  induction instrs generalizing cfaOffset baseLabel s with
  | nil =>
    refine ⟨fun _ => trivial, fun _ k hk => ?_⟩
    obtain rfl : k = 0 := Nat.le_zero.mp hk
    rfl
  | cons i rest ih =>
    obtain ⟨horder, hop, s', hdenote, hrest⟩ := hvalid
    have halive' : ∀ j ∈ rest, layout.isDead j = false := fun j hj =>
      halive j (List.mem_cons_of_mem i hj)
    have hbase' := denoteInstruction_address hbase hop hdenote
    have hsome' : (nextBase baseLabel i.label).isSome := by
      cases baseLabel <;> cases i.label <;> first | rfl | exact absurd hsome (by simp)
    obtain ⟨⟨is, hchunk⟩, hiff⟩ := interpret_chunk hC cfaOffset horder hbase (fun _ => hsome) hop
    have hlater := fun k =>
      parse_chunks hC (runningOffset cfaOffset i.operation) halive' hbase' hsome' hrest k
    have hnext := ih (runningOffset cfaOffset i.operation) halive' hbase' hsome' hrest
    have hemit : (emitCFIInstructions layout C.dataAlign cfaOffset baseLabel (i :: rest)).1 =
        (layout.advance baseLabel i.label ++
          (emitCFIInstruction C.dataAlign cfaOffset i.operation).1) ::
          (emitCFIInstructions layout C.dataAlign (runningOffset cfaOffset i.operation)
            (nextBase baseLabel i.label) rest).1 := by
      rw [emitCFIInstructions, halive i List.mem_cons_self, if_neg Bool.false_ne_true]
      simp only [emitCFIInstruction_snd]
    -- the first `k + 1` directives are the first one and `k` later ones
    have hsplit : ∀ k, interpret C s
        (((emitCFIInstructions layout C.dataAlign cfaOffset baseLabel (i :: rest)).1.take
          (k + 1)).flatten) =
        (interpret C s (layout.advance baseLabel i.label ++
          (emitCFIInstruction C.dataAlign cfaOffset i.operation).1)).bind fun t =>
          interpret C t (((emitCFIInstructions layout C.dataAlign
            (runningOffset cfaOffset i.operation)
            (nextBase baseLabel i.label) rest).1.take k).flatten) := fun k => by
      obtain ⟨js, hjs⟩ := hlater k
      rw [hemit, List.take_succ_cons, List.flatten_cons]
      exact interpret_append C hchunk hjs
    constructor
    · intro h
      have hfirst : interpret C s (layout.advance baseLabel i.label ++
          (emitCFIInstruction C.dataAlign cfaOffset i.operation).1) =
            denoteInstruction layout C s i := by
        have hone := h 1 (by rw [List.length_cons]; omega)
        rw [hemit, List.take_succ_cons, List.take_zero, List.flatten_cons, List.flatten_nil,
          List.append_nil, List.take_succ_cons, List.take_zero, List.foldlM_cons] at hone
        rw [hone]
        cases denoteInstruction layout C s i <;> rfl
      refine ⟨hiff.mp hfirst, fun t ht => ?_⟩
      obtain rfl := Option.some.inj (hdenote.symm.trans ht)
      refine hnext.mp fun k hk => ?_
      have hk' := h (k + 1) (by rw [List.length_cons]; omega)
      rw [hsplit k, hfirst, hdenote, Option.bind_some, List.take_succ_cons, List.foldlM_cons,
        hdenote] at hk'
      exact hk'
    · rintro ⟨hin, hall⟩ k hk
      cases k with
      | zero => rfl
      | succ k =>
        rw [hsplit k, hiff.mpr hin, hdenote, Option.bind_some, List.take_succ_cons,
          List.foldlM_cons, hdenote]
        exact hnext.mpr (hall s' hdenote) k (by rw [List.length_cons] at hk; omega)

end Frame

end RvLlvm.Mc.FrameEmitter
