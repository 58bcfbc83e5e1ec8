import Mathlib.Logic.Function.Basic
import Mathlib.Data.Nat.Digits.Defs
import RvLlvm.Support.Parsing
import RvLlvm.Support.Uleb128

/-!
# Call frame instructions

Model of the reader of call frame instructions: `CFIProgram::parse`, the values of operands and
`UnwindTable::parseRows` (`llvm/lib/DebugInfo/DWARF/DWARFDebugFrame.cpp:255-391`, `416-512`,
`515-795`, `817-859`). The code alignment is 1. `DW_CFA_set_loc` and the opcodes of other targets
are left out.

* `parse_append`: two programs in a row are read one after the other.
* `parse_single`: an instruction alone.
-/

namespace RvLlvm.Mc.CallFrame

open RvLlvm.Support

/-! ## Instructions -/

/-- `DW_CFA_*`. -/
inductive Opcode
  | advanceLoc | offset | restore
  | nop | advanceLoc1 | advanceLoc2 | advanceLoc4 | offsetExtended | restoreExtended | undefined
  | sameValue | register | rememberState | restoreState | defCfa | defCfaRegister | defCfaOffset
  | defCfaExpression | expression | offsetExtendedSf | defCfaSf | defCfaOffsetSf | valOffset
  | valOffsetSf | valExpression | gnuArgsSize | llvmDefAspaceCfa | llvmDefAspaceCfaSf
  deriving DecidableEq

/-- The byte of an opcode; for the three primary ones, that with the operand 0. -/
def Opcode.code : Opcode → Nat
  | .advanceLoc => 0x40
  | .offset => 0x80
  | .restore => 0xc0
  | .nop => 0x00
  | .advanceLoc1 => 0x02
  | .advanceLoc2 => 0x03
  | .advanceLoc4 => 0x04
  | .offsetExtended => 0x05
  | .restoreExtended => 0x06
  | .undefined => 0x07
  | .sameValue => 0x08
  | .register => 0x09
  | .rememberState => 0x0a
  | .restoreState => 0x0b
  | .defCfa => 0x0c
  | .defCfaRegister => 0x0d
  | .defCfaOffset => 0x0e
  | .defCfaExpression => 0x0f
  | .expression => 0x10
  | .offsetExtendedSf => 0x11
  | .defCfaSf => 0x12
  | .defCfaOffsetSf => 0x13
  | .valOffset => 0x14
  | .valOffsetSf => 0x15
  | .valExpression => 0x16
  | .gnuArgsSize => 0x2e
  | .llvmDefAspaceCfa => 0x30
  | .llvmDefAspaceCfaSf => 0x31

/-- The extended opcodes. -/
def extendedOpcodes : List Opcode :=
  [.nop, .advanceLoc1, .advanceLoc2, .advanceLoc4, .offsetExtended, .restoreExtended, .undefined,
    .sameValue, .register, .rememberState, .restoreState, .defCfa, .defCfaRegister, .defCfaOffset,
    .defCfaExpression, .expression, .offsetExtendedSf, .defCfaSf, .defCfaOffsetSf, .valOffset,
    .valOffsetSf, .valExpression, .gnuArgsSize, .llvmDefAspaceCfa, .llvmDefAspaceCfaSf]

/-- How an operand is stored. -/
inductive OperandKind
  | uleb | sleb | fixed (n : Nat) | block

/-- The operands behind the opcode. -/
def Opcode.operands : Opcode → List OperandKind
  | .nop | .rememberState | .restoreState | .advanceLoc | .restore => []
  | .advanceLoc1 => [.fixed 1]
  | .advanceLoc2 => [.fixed 2]
  | .advanceLoc4 => [.fixed 4]
  | .restoreExtended | .undefined | .sameValue | .defCfaRegister | .defCfaOffset | .gnuArgsSize
  | .offset => [.uleb]
  | .defCfaOffsetSf => [.sleb]
  | .llvmDefAspaceCfa => [.uleb, .uleb, .uleb]
  | .llvmDefAspaceCfaSf => [.uleb, .sleb, .uleb]
  | .offsetExtended | .register | .defCfa | .valOffset => [.uleb, .uleb]
  | .offsetExtendedSf | .defCfaSf | .valOffsetSf => [.uleb, .sleb]
  | .defCfaExpression => [.block]
  | .expression | .valExpression => [.uleb, .block]

/-- An operand: the 64 bits of a value, or the bytes of an expression. -/
inductive Operand
  | value (v : Nat)
  | block (bs : List Nat)
  deriving DecidableEq

/-- `CFIProgram::Instruction`. -/
structure Instruction where
  opcode : Opcode
  ops : List Operand
  deriving DecidableEq

/-! ## Reading -/

def parseOperand : OperandKind → List Nat → Option (Operand × List Nat)
  | .uleb, data => (Uleb128.decode data).map fun p => (.value p.1, p.2)
  | .sleb, data =>
    match Sleb128.decode data with
    | .ok p => some (.value p.1, p.2)
    | .error _ => none
  | .fixed n, data =>
    if n ≤ data.length then some (.value (Nat.ofDigits 256 (data.take n)), data.drop n) else none
  | .block, data =>
    match Uleb128.decode data with
    | some (n, rest) => if n ≤ rest.length then some (.block (rest.take n), rest.drop n) else none
    | none => none

def parseOperands : List OperandKind → List Nat → Option (List Operand × List Nat)
  | [], data => some ([], data)
  | k :: kinds, data =>
    match parseOperand k data with
    | none => none
    | some (o, rest) => (parseOperands kinds rest).map fun p => (o :: p.1, p.2)

/-- The opcode of a byte, with the operand in its low bits if it is a primary one. -/
def parseOpcode (byte : Nat) : Option (Opcode × List Operand) :=
  if byte / 64 = 0 then (extendedOpcodes.find? fun o => o.code == byte).map fun o => (o, [])
  else if byte / 64 = 1 then some (.advanceLoc, [.value (byte % 64)])
  else if byte / 64 = 2 then some (.offset, [.value (byte % 64)])
  else some (.restore, [.value (byte % 64)])

/-- One turn of `CFIProgram::parse`. -/
def parseInstruction : List Nat → Option (Instruction × List Nat)
  | [] => none
  | byte :: data =>
    match parseOpcode byte with
    | none => none
    | some (opcode, first) =>
      (parseOperands opcode.operands data).map fun p => (⟨opcode, first ++ p.1⟩, p.2)

/-- `CFIProgram::parse`. -/
def parse (data : List Nat) : Option (List Instruction) := Parsing.parseAll parseInstruction data

section Append

variable {data rest more : List Nat}

theorem parseOperand_append {k : OperandKind} {o : Operand}
    (h : parseOperand k data = some (o, rest))
    (more : List Nat) : parseOperand k (data ++ more) = some (o, rest ++ more) := by
  cases k with
  | uleb =>
    obtain ⟨⟨v, r⟩, hdecode, heq⟩ := Option.map_eq_some_iff.mp h
    obtain ⟨rfl, rfl⟩ := Prod.mk.inj heq
    rw [parseOperand, Uleb128.decode_append hdecode]
    rfl
  | sleb =>
    rw [parseOperand] at h
    split at h
    · next p hdecode =>
      obtain ⟨rfl, rfl⟩ := Prod.mk.inj (Option.some.inj h)
      rw [parseOperand, Sleb128.decode_append hdecode]
    · exact absurd h (by simp)
  | fixed n =>
    rw [parseOperand] at h
    split at h
    · next hle =>
      obtain ⟨rfl, rfl⟩ := Prod.mk.inj (Option.some.inj h)
      rw [parseOperand, if_pos (by rw [List.length_append]; omega),
        List.take_append_of_le_length hle,
        List.drop_append_of_le_length hle]
    · exact absurd h (by simp)
  | block =>
    rw [parseOperand] at h
    split at h
    · next n r hdecode =>
      split at h
      · next hle =>
        obtain ⟨rfl, rfl⟩ := Prod.mk.inj (Option.some.inj h)
        rw [parseOperand, Uleb128.decode_append hdecode]
        simp only
        rw [if_pos (by rw [List.length_append]; omega), List.take_append_of_le_length hle,
          List.drop_append_of_le_length hle]
      · exact absurd h (by simp)
    · exact absurd h (by simp)

theorem parseOperands_append {kinds : List OperandKind} {ops : List Operand}
    (h : parseOperands kinds data = some (ops, rest)) (more : List Nat) :
    parseOperands kinds (data ++ more) = some (ops, rest ++ more) := by
  induction kinds generalizing data ops with
  | nil =>
    obtain ⟨rfl, rfl⟩ := Prod.mk.inj (Option.some.inj h)
    rfl
  | cons k kinds ih =>
    rw [parseOperands] at h
    split at h
    · exact absurd h (by simp)
    · next o r hfirst =>
      obtain ⟨⟨os, r'⟩, hrest, heq⟩ := Option.map_eq_some_iff.mp h
      obtain ⟨rfl, rfl⟩ := Prod.mk.inj heq
      rw [parseOperands, parseOperand_append hfirst]
      simp only
      rw [ih hrest]
      rfl

theorem parseInstruction_append {i : Instruction} (h : parseInstruction data = some (i, rest))
    (more : List Nat) : parseInstruction (data ++ more) = some (i, rest ++ more) := by
  cases data with
  | nil => exact absurd h (by simp [parseInstruction])
  | cons byte data =>
    rw [parseInstruction] at h
    split at h
    · exact absurd h (by simp)
    · next opcode first hopcode =>
      obtain ⟨⟨os, r⟩, hops, heq⟩ := Option.map_eq_some_iff.mp h
      obtain ⟨rfl, rfl⟩ := Prod.mk.inj heq
      rw [List.cons_append, parseInstruction, hopcode]
      simp only
      rw [parseOperands_append hops]
      rfl

/-- **Two programs in a row are read one after the other.** -/
theorem parse_append {is js : List Instruction} (h : parse data = some is)
    (h' : parse more = some js) :
    parse (data ++ more) = some (is ++ js) :=
  Parsing.parseAll_append (fun _ _ _ => parseInstruction_append) h h'

/-- An instruction alone. -/
theorem parse_single {i : Instruction} (h : parseInstruction data = some (i, [])) :
    parse data = some [i] :=
  Parsing.parseAll_single rfl h

end Append

/-! ## Rows -/

/-- `UnwindLocation`: where a value is, or what it is. -/
inductive UnwindLocation
  | unspecified
  | undefined
  | same
  | atCFAPlusOffset (offset : Int)
  | isCFAPlusOffset (offset : Int)
  | isRegisterPlusOffset (reg : Nat) (offset : Int) (addrSpace : Option Nat)
  | atDWARFExpression (bs : List Nat)
  | isDWARFExpression (bs : List Nat)
  deriving DecidableEq

abbrev RegisterLocations := Nat → Option UnwindLocation

/-- `UnwindRow`. -/
structure Row where
  address : Nat
  cfa : UnwindLocation
  locs : RegisterLocations

/-- The row in work, and the remembered states. -/
structure RowState where
  row : Row
  states : List (UnwindLocation × RegisterLocations)

/-- What the rows of a frame start from: the data alignment of its CIE and, behind the CIE, the
rules of the initial instructions. -/
structure Context where
  dataAlign : Int
  initialLocs : Option RegisterLocations

/-- An operand of type `OT_Offset`. -/
def signedOffset (v : Nat) : Int := (v : Int).bmod (2 ^ 64)

namespace Context

variable (C : Context)

/-- An operand of one of the types of factored offsets. -/
def factoredOffset (v : Nat) : Int := ((v : Int) * C.dataAlign).bmod (2 ^ 64)

end Context

namespace RowState

variable (s : RowState)

def setCFA (cfa : UnwindLocation) : RowState := { s with row := { s.row with cfa := cfa } }

def setLoc (reg : Nat) (loc : Option UnwindLocation) : RowState :=
  { s with row := { s.row with locs := Function.update s.row.locs reg loc } }

def slideAddress (delta : Nat) : RowState :=
    { s with row := { s.row with address := s.row.address + delta } }

/-- The rule of `def_cfa_register`. -/
def setCFARegister (reg : Nat) : RowState :=
  match s.row.cfa with
  | .isRegisterPlusOffset _ offset addrSpace => s.setCFA
    (.isRegisterPlusOffset reg offset addrSpace)
  | _ => s.setCFA (.isRegisterPlusOffset reg 0 none)

/-- The rule of `def_cfa_offset`. -/
def setCFAOffset (offset : Int) : Option RowState :=
  match s.row.cfa with
  | .isRegisterPlusOffset reg _ addrSpace => some (s.setCFA
    (.isRegisterPlusOffset reg offset addrSpace))
  | _ => none

def rememberState : RowState := { s with states := (s.row.cfa, s.row.locs) :: s.states }

def restoreState : Option RowState :=
  match s.states with
  | [] => none
  | (cfa, locs) :: states => some ⟨{ s.row with cfa := cfa, locs := locs }, states⟩

end RowState

/-- One turn of `UnwindTable::parseRows`. -/
def step (C : Context) (s : RowState) (i : Instruction) : Option RowState :=
  match i.opcode, i.ops with
  | .advanceLoc, [.value d] | .advanceLoc1, [.value d] | .advanceLoc2, [.value d]
  | .advanceLoc4, [.value d] => some (s.slideAddress d)
  | .restore, [.value r] | .restoreExtended, [.value r] =>
    match C.initialLocs with
    | none => none
    | some initial => some (s.setLoc r (initial r))
  | .offset, [.value r, .value o] | .offsetExtended, [.value r, .value o]
  | .offsetExtendedSf, [.value r, .value o] =>
    some (s.setLoc r (some (.atCFAPlusOffset (C.factoredOffset o))))
  | .nop, [] => some s
  | .rememberState, [] => some s.rememberState
  | .restoreState, [] => s.restoreState
  | .undefined, [.value r] => some (s.setLoc r (some .undefined))
  | .sameValue, [.value r] => some (s.setLoc r (some .same))
  | .gnuArgsSize, [.value _] => some s
  | .register, [.value r, .value r'] => some (s.setLoc r (some (.isRegisterPlusOffset r' 0 none)))
  | .valOffset, [.value r, .value o] | .valOffsetSf, [.value r, .value o] =>
    some (s.setLoc r (some (.isCFAPlusOffset (C.factoredOffset o))))
  | .expression, [.value r, .block bs] => some (s.setLoc r (some (.atDWARFExpression bs)))
  | .valExpression, [.value r, .block bs] => some (s.setLoc r (some (.isDWARFExpression bs)))
  | .defCfaRegister, [.value r] => some (s.setCFARegister r)
  | .defCfaOffset, [.value o] => s.setCFAOffset (signedOffset o)
  | .defCfaOffsetSf, [.value o] => s.setCFAOffset (C.factoredOffset o)
  | .defCfa, [.value r, .value o] => some (s.setCFA (.isRegisterPlusOffset r (signedOffset o) none))
  | .defCfaSf, [.value r, .value o] =>
    some (s.setCFA (.isRegisterPlusOffset r (C.factoredOffset o) none))
  | .llvmDefAspaceCfa, [.value r, .value o, .value a] =>
    some (s.setCFA (.isRegisterPlusOffset r (signedOffset o) (some a)))
  | .llvmDefAspaceCfaSf, [.value r, .value o, .value a] =>
    some (s.setCFA (.isRegisterPlusOffset r (C.factoredOffset o) (some a)))
  | .defCfaExpression, [.block bs] => some (s.setCFA (.isDWARFExpression bs))
  | _, _ => none

/-- `UnwindTable::parseRows`. -/
def parseRows (C : Context) (s : RowState) (is : List Instruction) : Option RowState :=
  is.foldlM (step C) s

/-- The bytes of a program, read and run. -/
def interpret (C : Context) (s : RowState) (data : List Nat) : Option RowState :=
  (parse data).bind (parseRows C s)

theorem interpret_append (C : Context) {s : RowState} {data more : List Nat}
    {is js : List Instruction}
    (h : parse data = some is) (h' : parse more = some js) :
    interpret C s (data ++ more) = (interpret C s data).bind fun s' => interpret C s' more := by
  rw [interpret, interpret, parse_append h h', h, Option.bind_some, Option.bind_some,
    parseRows, parseRows,
    List.foldlM_append]
  exact Option.bind_congr fun s' _ => by rw [interpret, h']; rfl

theorem interpret_single (C : Context) (s : RowState) {data : List Nat} {i : Instruction}
    (h : parseInstruction data = some (i, [])) : interpret C s data = step C s i := by
  rw [interpret, parse_single h, Option.bind_some, parseRows, List.foldlM_cons]
  cases step C s i <;> rfl

end RvLlvm.Mc.CallFrame
