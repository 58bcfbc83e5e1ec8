import Mathlib.Data.List.Dedup
import Mathlib.Data.List.Sort
import RvLlvm.Bolt.FixBranches

/-!
# Merged return tails

Model of `RISCVTailMerge` (`bolt/lib/Passes/RISCV/RISCVTailMerge.cpp:34-254`) with `isReturn`
(`RISCVMCTargetDesc.cpp:172-185`) and the layout of `insertBasicBlocks`
(`BinaryFunction.cpp:3586-3613`, `FunctionLayout.cpp:100-130`). The size that the encoder gives an
instruction and the order of the key strings are parameters. No RISC-V instruction has the floating
immediates that `appendOperandKey` would also write.

An instruction keeps the address at which the input has it: the effect that is asked for is its
effect there, wherever copies of it end up.

`keyed_of_getSuffixKey` says what it is to have a key, `Keyed.same` that the key says which
instructions the suffix has.
-/

namespace RvLlvm.Bolt.TailMerge

open List

/-! ## Functions -/

/-- An `MCInst` with its flags, whether it carries annotations besides `kTailCall`, and its address
in the input. -/
structure Inst where
  inst : MCInst
  flags : Nat
  annotated : Bool
  place : Nat
  deriving DecidableEq

/-- `BinaryBasicBlock`; `count` is `getKnownExecutionCount`. -/
structure Block where
  insts : List Inst
  succs : List MCSymbol
  isValid : Bool
  isEntryPoint : Bool
  isLandingPad : Bool
  hasJumpTable : Bool
  isCold : Bool
  count : Nat
  deriving DecidableEq

/-- `BinaryFunction`: the blocks by their labels, their own order, the fragments of the layout, and
the label of the next block. -/
structure Function where
  block : MCSymbol → Block
  order : List MCSymbol
  layout : List (List MCSymbol)
  next : MCSymbol

/-- Blocks lead to blocks of the function, and the layout has each block of it once. -/
structure Function.WellFormed (f : Function) : Prop where
  closed : ∀ b < f.next, ∀ c ∈ (f.block b).succs, c < f.next
  order_nodup : f.order.Nodup
  order_placed : ∀ b ∈ f.order, b ∈ f.layout.flatten
  layout_nodup : f.layout.flatten.Nodup
  layout_known : ∀ b ∈ f.layout.flatten, b < f.next

/-! ## Keys -/

/-- What `appendOperandKey` writes. -/
inductive OperandKey
  | reg (r : MCPhysReg)
  | imm (v : Int)
  deriving DecidableEq

/-- What `appendInstructionKey` writes. -/
structure InstKey where
  opcode : Opcode
  flags : Nat
  numOperands : Nat
  operands : List OperandKey
  deriving DecidableEq

/-- The key string: separators keep its fields apart, so they can be read back from it. -/
structure Key where
  cold : Bool
  insts : List InstKey
  deriving DecidableEq

/-- `appendOperandKey`. -/
def appendOperandKey : MCOperand → Option OperandKey
  | .reg r => some (.reg r)
  | .imm v => some (.imm v)
  | .expr _ => none

/-- `appendInstructionKey`. Annotations are an operand of their own, a nested instruction. -/
def appendInstructionKey (i : Inst) : Option InstKey :=
  if i.annotated || i.inst.tailCall then none
  else (i.inst.operands.mapM appendOperandKey).map fun ops =>
    ⟨i.inst.opcode, i.flags, i.inst.operands.length, ops⟩

section Pass

variable (I : MCInstrInfo) (size : MCInst → Nat) (le : Key → Key → Bool)

/-- `isReturn`. -/
def isReturn (i : MCInst) : Bool :=
  (I.get i.opcode).isReturn ||
    match i.opcode with
    | .jalr => i.getReg 0 == gpr 0 && maybeReturnAddress (i.getReg 1)
    | .cJr => maybeReturnAddress (i.getReg 0)
    | _ => false

/-- `isTailMergeCandidate`. Where no instruction is pseudo, the last that is not is the last. -/
def isTailMergeCandidate (b : Block) : Bool :=
  b.isValid && !b.insts.isEmpty && b.succs.isEmpty &&
    !(b.isEntryPoint || b.isLandingPad || b.hasJumpTable) &&
    b.insts.getLast?.any (fun i => isReturn I i.inst) &&
    b.insts.all (fun i => !isPseudo I i.inst) &&
    b.insts.dropLast.all fun i => !isTerminator I i.inst

/-- `countNonPseudo`. -/
def countNonPseudo (b : Block) : Nat := b.insts.countP fun i => !isPseudo I i.inst

/-- The last `suffixLen` instructions, from `getSuffixBegin` on. -/
def Block.suffix (b : Block) (suffixLen : Nat) : List Inst :=
  b.insts.drop (b.insts.length - suffixLen)

/-- `eraseSuffix`. -/
def Block.eraseSuffix (b : Block) (suffixLen : Nat) : List Inst :=
  b.insts.take (b.insts.length - suffixLen)

/-- The bytes of some instructions. -/
def instsSize (insts : List MCInst) : Nat := (insts.map size).sum

/-- `getSuffixKey`, with `SuffixSize`. -/
def getSuffixKey (b : Block) (suffixLen : Nat) : Option (Key × Nat) :=
  if !isTailMergeCandidate I b || countNonPseudo I b < suffixLen then none
  else
    let suffix := b.suffix suffixLen
    if suffix.any (fun i => isPseudo I i.inst || isCall I i.inst) ||
        suffix.dropLast.any (fun i => isTerminator I i.inst) then none
    else (suffix.mapM appendInstructionKey).map fun key =>
      (⟨b.isCold, key⟩, instsSize size (suffix.map (·.inst)))

/-! ## The pass -/

/-- `chooseFallthroughSource`. -/
def chooseFallthroughSource (f : Function) (front : MCSymbol) (blocks : List MCSymbol) : MCSymbol :=
  blocks.foldl (fun best b => if (f.block best).count < (f.block b).count then b else best) front

/-- `t` put behind `s`. -/
def insertAfter (s t : MCSymbol) : List MCSymbol → List MCSymbol
  | [] => []
  | a :: rest => if a = s then a :: t :: rest else a :: insertAfter s t rest

/-- The new block. -/
def Function.tail (f : Function) (suffixLen : Nat) (front : MCSymbol) (blocks : List MCSymbol) :
    Block where
  insts := (f.block front).suffix suffixLen
  succs := []
  isValid := true
  isEntryPoint := false
  isLandingPad := false
  hasJumpTable := false
  isCold := (f.block front).isCold
  count := (blocks.map fun b => (f.block b).count).sum

/-- What a merge makes of one of its blocks. -/
def Function.shortened (f : Function) (suffixLen : Nat) (b : MCSymbol) : Block :=
  { f.block b with
    insts := (f.block b).eraseSuffix suffixLen
    succs := (f.block b).succs ++ [f.next] }

/-- The merge of `front` and the other `blocks`. -/
def Function.merge (f : Function) (suffixLen : Nat) (front : MCSymbol) (others : List MCSymbol) :
    Function :=
  let blocks := front :: others
  let source := chooseFallthroughSource f front blocks
  { block := fun b =>
      if b = f.next then f.tail suffixLen front blocks
      else if b ∈ blocks then f.shortened suffixLen b
      else f.block b
    order := insertAfter source f.next f.order
    layout := f.layout.map (insertAfter source f.next)
    next := f.next + 1 }

/-- One merge of a run: the function before it, and what is merged. -/
structure Merge where
  before : Function
  suffixLen : Nat
  front : MCSymbol
  others : List MCSymbol

/-- The function behind a merge. -/
def Merge.result (m : Merge) : Function := m.before.merge m.suffixLen m.front m.others

/-- `MergedSources` is the number of blocks in `merges`. -/
structure State where
  function : Function
  used : List MCSymbol
  merges : List Merge

/-- The state behind one more merge. -/
def State.merged (s : State) (suffixLen : Nat) (front : MCSymbol) (others : List MCSymbol) :
    State where
  function := s.function.merge suffixLen front others
  used := front :: others ++ s.used
  merges := s.merges ++ [⟨s.function, suffixLen, front, others⟩]

/-- An entry of `Groups`, with that of `SuffixSizes`. -/
structure Group where
  key : Key
  blocks : List MCSymbol
  suffixSize : Nat

/-- `Groups`: under each key the blocks that have it, in their order. -/
def groups (f : Function) (unused : List MCSymbol) (suffixLen : Nat) : List Group :=
  let keys :=
    (unused.filterMap fun b => (getSuffixKey I size (f.block b) suffixLen).map (·.1)).dedup
  (keys.insertionSort fun a b => le a b).map fun k =>
    let blocks := unused.filter fun b =>
      (getSuffixKey I size (f.block b) suffixLen).map (·.1) = some k
    ⟨k, blocks, ((blocks.getLast?.bind fun b => getSuffixKey I size (f.block b) suffixLen).map
      (·.2)).getD 0⟩

/-- The loop body over `Groups`. -/
def mergeGroup (suffixLen : Nat) (s : State) (g : Group) : State :=
  match g.blocks with
  | front :: second :: rest =>
    if g.suffixSize = 0 then s
    else if g.suffixSize ≤ size (createUncondBranch s.function.next) then s
    else s.merged suffixLen front (second :: rest)
  | _ => s

/-- One turn of the loop over the suffix lengths. -/
def mergeLength (candidates : List MCSymbol) (s : State) (suffixLen : Nat) : State :=
  (groups I size le s.function (candidates.filter (· ∉ s.used)) suffixLen).foldl
    (mergeGroup size suffixLen) s

/-- The loop over the suffix lengths. -/
def mergeLengths (candidates : List MCSymbol) : Nat → State → State
  | n + 2, s => mergeLengths candidates (n + 1) (mergeLength I size le candidates s (n + 2))
  | _, s => s

/-- `runOnFunction` before `fixBranches`. -/
def runOnFunction (maxSuffix : Nat) (f : Function) : State :=
  let candidates := f.order.filter fun b => isTailMergeCandidate I (f.block b)
  let maxBlockInstrs := (candidates.map fun b => countNonPseudo I (f.block b)).foldl max 0
  if candidates.length < 2 then ⟨f, [], []⟩
  else mergeLengths I size le candidates (min maxBlockInstrs maxSuffix) ⟨f, [], []⟩

end Pass

/-! ## Executions -/

section Execution

variable {σ : Type*} (exec : MCInst → Nat → Nat → σ → σ) (goes : List Inst → σ → Nat)

/-- The effect of instructions, each at its place. -/
def execInsts (insts : List Inst) (s : σ) : σ :=
  insts.foldl (fun s i => exec i.inst i.flags i.place s) s

/-- Where a block goes on: to its only successor, or to the one that its instructions choose. -/
def Block.goesTo (b : Block) (s : σ) : Option MCSymbol :=
  match b.succs with
  | [c] => some c
  | succs => succs[goes b.insts s]?

/-- How an execution ends: the instruction that leaves the function, and the state it leaves. -/
abbrev Return (σ : Type*) := Option MCInst × σ

/-- From block `b` and a state, the function runs through the blocks of the path and returns. -/
inductive Execution (f : Function) : MCSymbol → σ → List MCSymbol → Return σ → Prop
  | ends {b : MCSymbol} {s : σ} (h : (f.block b).succs = []) :
    Execution f b s [b]
      ((f.block b).insts.getLast?.map (·.inst), execInsts exec (f.block b).insts s)
  | goes {b c : MCSymbol} {s : σ} {path : List MCSymbol} {r : Return σ}
    (h : (f.block b).goesTo goes (execInsts exec (f.block b).insts s) = some c)
    (rest : Execution f c (execInsts exec (f.block b).insts s) path r) :
    Execution f b s (b :: path) r

/-- Every execution of `f'` is one of `f` without the new blocks, and every one of `f` is such. -/
structure Preserves (f f' : Function) : Prop where
  backward : ∀ b < f.next, ∀ s path r, Execution exec goes f' b s path r →
    Execution exec goes f b s (path.filter (· < f.next)) r
  forward : ∀ b < f.next, ∀ s path r, Execution exec goes f b s path r →
    ∃ path', Execution exec goes f' b s path' r ∧ path'.filter (· < f.next) = path

/-- The effect of an instruction does not depend on where it is. -/
def Placeless (i : Inst) : Prop :=
  ∀ place s, exec i.inst i.flags place s = exec i.inst i.flags i.place s

/-- No instruction of the merged suffix reads its address. -/
def Merge.Placeless (m : Merge) : Prop :=
  ∀ i ∈ (m.before.block m.front).suffix m.suffixLen, TailMerge.Placeless exec i

end Execution

/-! ## Sizes -/

section Size

variable (I : MCInstrInfo) (size : MCInst → Nat)

/-- A block as `fixBranches` reads it. -/
def Function.basicBlock (f : Function) (b : MCSymbol) : BasicBlock :=
  ⟨b, (f.block b).insts.map (·.inst), (f.block b).succs, []⟩

/-- The bytes of a block behind `fixBranches`; where that fails, there are none. -/
def blockSize (f : Function) (next : Option MCSymbol) (b : MCSymbol) : Nat :=
  ((fixBlock I next (f.basicBlock b)).map fun b' => instsSize size b'.insts).getD 0

/-- The bytes of a fragment. -/
def fragmentSize (f : Function) : List MCSymbol → Nat
  | [] => 0
  | [a] => blockSize I size f none a
  | a :: b :: rest => blockSize I size f (some b) a + fragmentSize f (b :: rest)

/-- The bytes of a function. -/
def codeSize (f : Function) : Nat := (f.layout.map (fragmentSize I size f)).sum

end Size

/-! ## What a key says -/

section Keys

variable {I : MCInstrInfo} {size : MCInst → Nat}

theorem operandKey_inj {a b : MCOperand} {k : OperandKey} (ha : appendOperandKey a = some k)
    (hb : appendOperandKey b = some k) : a = b := by
  cases a <;> cases b <;> simp_all [appendOperandKey]
  all_goals
    rw [← hb] at ha
    simpa using ha

/-- Lists with the same keys are the same, where single keys tell apart what `g` tells apart. -/
theorem map_eq_of_mapM {α β γ : Type*} {h : α → Option β} {g : α → γ}
    (inj : ∀ a b k, h a = some k → h b = some k → g a = g b) :
    ∀ {as bs : List α} {ks : List β}, as.mapM h = some ks → bs.mapM h = some ks →
      as.map g = bs.map g := by
  intro as
  induction as with
  | nil =>
    intro bs ks ha hb
    cases bs with
    | nil => rfl
    | cons b bs =>
      simp only [mapM_nil, mapM_cons, Option.pure_def, Option.bind_eq_bind, Option.some.injEq,
        Option.bind_eq_some_iff] at ha hb
      obtain ⟨k, -, rest, -, h⟩ := hb
      exact absurd (ha.trans h.symm) (by simp)
  | cons a as ih =>
    intro bs ks ha hb
    cases bs with
    | nil =>
      simp only [mapM_nil, mapM_cons, Option.pure_def, Option.bind_eq_bind, Option.some.injEq,
        Option.bind_eq_some_iff] at ha hb
      obtain ⟨k, -, rest, -, h⟩ := ha
      exact absurd (hb.trans h.symm) (by simp)
    | cons b bs =>
      simp only [mapM_cons, Option.pure_def, Option.bind_eq_bind, Option.some.injEq,
        Option.bind_eq_some_iff] at ha hb
      obtain ⟨k, hk, rest, hrest, rfl⟩ := ha
      obtain ⟨k', hk', rest', hrest', h⟩ := hb
      obtain ⟨rfl, rfl⟩ := cons_eq_cons.mp h
      rw [map_cons, map_cons, inj a b k' hk hk', ih hrest hrest']

/-- Equal keys are keys of equal instructions. -/
theorem instKey_inj {a b : Inst} {k : InstKey} (ha : appendInstructionKey a = some k)
    (hb : appendInstructionKey b = some k) : (a.inst, a.flags) = (b.inst, b.flags) := by
  obtain ⟨⟨opa, opsa, ta⟩, fa, na, pa⟩ := a
  obtain ⟨⟨opb, opsb, tb⟩, fb, nb, pb⟩ := b
  simp only [appendInstructionKey, Option.ite_none_left_eq_some, Bool.or_eq_true, not_or,
    Bool.not_eq_true, Option.map_eq_some_iff] at ha hb
  obtain ⟨⟨-, rfl⟩, ks, hka, rfl⟩ := ha
  obtain ⟨⟨-, rfl⟩, ks', hkb, h⟩ := hb
  simp only [InstKey.mk.injEq] at h
  obtain ⟨rfl, rfl, -, rfl⟩ := h
  have h := map_eq_of_mapM (g := id) (fun _ _ _ => operandKey_inj) hka hkb
  rw [map_id, map_id] at h
  rw [h]

variable {b : Block} {suffixLen : Nat} {k : Key} {n : Nat}

/-- A block with a key. -/
structure Keyed (I : MCInstrInfo) (size : MCInst → Nat) (b : Block) (suffixLen : Nat) (k : Key)
    (n : Nat) : Prop where
  candidate : isTailMergeCandidate I b
  insts : (b.suffix suffixLen).mapM appendInstructionKey = some k.insts
  suffixSize : instsSize size ((b.suffix suffixLen).map (·.inst)) = n

theorem keyed_of_getSuffixKey (h : getSuffixKey I size b suffixLen = some (k, n)) :
    Keyed I size b suffixLen k n := by
  simp only [getSuffixKey, Option.ite_none_left_eq_some, Option.map_eq_some_iff,
    Prod.mk.injEq] at h
  obtain ⟨hcand, -, insts, hinsts, rfl, rfl⟩ := h
  have hcand : isTailMergeCandidate I b := by
    rw [Bool.or_eq_true, not_or] at hcand
    simpa using hcand.1
  exact ⟨hcand, hinsts, rfl⟩

/-- A candidate in parts. -/
theorem Keyed.parts (h : isTailMergeCandidate I b) :
    b.succs = [] ∧ (∃ i, b.insts.getLast? = some i ∧ isReturn I i.inst = true) ∧
      (∀ i ∈ b.insts, isPseudo I i.inst = false) ∧
      ∀ i ∈ b.insts.dropLast, isTerminator I i.inst = false := by
  simp only [isTailMergeCandidate, Bool.and_eq_true, List.isEmpty_iff, all_eq_true,
    Bool.not_eq_true', Option.any_eq_true] at h
  obtain ⟨⟨⟨⟨⟨-, hsuccs⟩, -⟩, hret⟩, hpseudo⟩, hterm⟩ := h
  exact ⟨hsuccs, hret, hpseudo, hterm⟩

theorem Keyed.succs (h : Keyed I size b suffixLen k n) : b.succs = [] :=
  (Keyed.parts h.candidate).1

/-- Suffixes with one key have the same instructions. -/
theorem Keyed.same {b' : Block} {n' : Nat} (h : Keyed I size b suffixLen k n)
    (h' : Keyed I size b' suffixLen k n') :
    (b.suffix suffixLen).map (fun i => (i.inst, i.flags)) =
      (b'.suffix suffixLen).map fun i => (i.inst, i.flags) :=
  map_eq_of_mapM (fun _ _ _ => instKey_inj) h.insts h'.insts

theorem Keyed.same_insts {b' : Block} {n' : Nat} (h : Keyed I size b suffixLen k n)
    (h' : Keyed I size b' suffixLen k n') :
    (b.suffix suffixLen).map (·.inst) = (b'.suffix suffixLen).map (·.inst) := by
  have h := congrArg (map Prod.fst) (h.same h')
  rwa [map_map, map_map] at h

/-- The size is that of the key. -/
theorem Keyed.same_size {b' : Block} {n' : Nat} (h : Keyed I size b suffixLen k n)
    (h' : Keyed I size b' suffixLen k n') : n = n' := by
  rw [← h.suffixSize, ← h'.suffixSize, h.same_insts h']

theorem Block.erase_append_suffix (b : Block) (suffixLen : Nat) :
    b.eraseSuffix suffixLen ++ b.suffix suffixLen = b.insts :=
  take_append_drop _ _

end Keys

end RvLlvm.Bolt.TailMerge
