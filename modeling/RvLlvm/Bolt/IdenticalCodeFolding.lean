import Mathlib.Data.List.Sort
import RvLlvm.Bolt.MCInst

/-!
# Identical code folding

Model of `bolt/lib/Passes/IdenticalCodeFolding.cpp` (lines 49-302 and 344-490), of
`MCPlusBuilder::equals` (`bolt/lib/Core/MCPlusBuilder.cpp`, lines 30-121, which the RISC-V builder
does not override) and of `BinaryContext::foldFunction` (`bolt/lib/Core/BinaryContext.cpp`, lines
1304-1364), with blocks in their layout order. Functions are places in the table of functions.

- `matches_of_isIdentical`: what the comparison accepts.
- `icf_run`: in every run, whatever the order of the buckets, every function that is folded is like
  the one it is folded into, and its symbols resolve to one function that is left, as long as no
  operand names the first secondary entry of a function, no two expressions of the target meet, no
  trailing jump is ignored and no function refers to another one of its bucket that calls itself.
- `not_alike_secondaryEntry`: `getEntryIDForSymbol` gives the first secondary entry the number of
  the function.
-/

namespace RvLlvm.Bolt

/-! ## Functions -/

/-- An instruction with `getEHInfo`: the landing pad, if there is one, and the action. -/
structure ICFInst where
  inst : MCInst
  ehInfo : Option (Option MCSymbol × Nat)

/-- A block; `succs` are the labels of its successors. -/
structure ICFBlock where
  label : MCSymbol
  insts : List ICFInst
  succs : List MCSymbol

/-- `JumpTable`. -/
structure JumpTable where
  address : Nat
  entrySize : Nat
  type : Nat
  entries : List MCSymbol

def JumpTable.getSize (t : JumpTable) : Nat := t.entries.length * t.entrySize

/-- The exception tables of a function: actions, types and type indices. -/
structure LSDA where
  actionTable : List Nat
  typeTable : List Nat
  typeIndexTable : List Nat
  deriving DecidableEq

/-- What the pass reads of `BinaryFunction`. The blocks are in layout order, `entries` are the
secondary entry points in the order of the blocks, and the jump tables are in the order of their
addresses. -/
structure ICFFunction where
  number : Nat
  hash : Nat
  symbols : List MCSymbol
  entries : List MCSymbol
  hasIslandsInfo : Bool
  blocks : List ICFBlock
  jumpTables : List JumpTable
  lsda : LSDA

namespace ICFFunction

variable (F : ICFFunction)

/-- `isMultiEntry`. -/
def isMultiEntry : Bool := !F.entries.isEmpty

/-- `getBasicBlockForLabel` with `getLayoutIndex`. -/
def layoutIndex (l : MCSymbol) : Option Nat := F.blocks.findIdx? (·.label == l)

/-- `getJumpTableContainingAddress`. -/
def getJumpTableContainingAddress (a : Nat) : Option JumpTable :=
  ((F.jumpTables.filter (·.address ≤ a)).getLast?).filter fun t =>
    decide (a < t.address + t.getSize) || (t.getSize == 0 && t.address == a)

end ICFFunction

/-- What does not change while functions are folded. -/
structure ICFContext where
  info : MCInstrInfo
  isTemporary : MCSymbol → Bool
  /-- `getBinaryDataByName` with `getAddress`. -/
  dataAddress : MCSymbol → Option Nat
  functions : List ICFFunction
  /-- `SymbolToFunctionMap` in front of the pass. -/
  symbolToFunction : MCSymbol → Option Nat

/-- A function that the table does not have. -/
def noFunction : ICFFunction := ⟨0, 0, [], [], false, [], [], ⟨[], [], []⟩⟩

/-- A function by its place. -/
def ICFContext.fn (ctx : ICFContext) (f : Nat) : ICFFunction := ctx.functions.getD f noFunction

/-- The state of the pass; `folded` are children with their parents, `buckets` the congruent
buckets. -/
structure ICFState where
  symbols : Nat → List MCSymbol
  symbolToFunction : MCSymbol → Option Nat
  folded : List (Nat × Nat)
  buckets : List (List Nat)

/-! ## Comparison -/

/-- `equalJumpTables`. -/
def equalJumpTables (t u : JumpTable) (A B : ICFFunction) : Bool :=
  t.entrySize == u.entrySize && t.type == u.type && t.getSize == u.getSize &&
    t.entries.map A.layoutIndex == u.entries.map B.layoutIndex

/-- The second comparison is made where the first holds. -/
def thenCompare (a b : Option Bool) : Option Bool := a.bind fun x => if x then b else some false

/-- `equals` for expressions; `none` is `llvm_unreachable`. -/
def equalsExpr (comp : MCSymbol → MCSymbol → Bool) : MCExpr → MCExpr → Option Bool
  | .constant a, .constant b => some (a == b)
  | .symbolRef k s, .symbolRef k' t => some (k == k' && comp s t)
  | .unary op e, .unary op' e' => if op = op' then equalsExpr comp e e' else some false
  | .binary op l r, .binary op' l' r' =>
    if op = op' then thenCompare (equalsExpr comp l l') (equalsExpr comp r r') else some false
  | .target _ _, .target _ _ => none
  | _, _ => some false

/-- `equals` for operands. -/
def equalsOperand (comp : MCSymbol → MCSymbol → Bool) : MCOperand → MCOperand → Option Bool
  | .reg a, .reg b => some (a == b)
  | .imm a, .imm b => some (a == b)
  | .expr a, .expr b => equalsExpr comp a b
  | _, _ => some false

/-- Two lists compared from the front, as far as both go. -/
def comparePairs {α : Type} (f : α → α → Option Bool) : List α → List α → Option Bool
  | a :: as, b :: bs => thenCompare (f a b) (comparePairs f as bs)
  | _, _ => some true

/-- `equals` for instructions. -/
def equalsInst (comp : MCSymbol → MCSymbol → Bool) (a b : MCInst) : Option Bool :=
  if a.opcode ≠ b.opcode then some false
  else if a.operands.length ≠ b.operands.length then some false
  else comparePairs (equalsOperand comp) a.operands b.operands

/-- The comparison of `getEHInfo`. -/
def equalEHInfo (A B : ICFFunction) :
    Option (Option MCSymbol × Nat) → Option (Option MCSymbol × Nat) → Bool
  | none, none => true
  | none, some (lp, action) => lp.isNone && action == 0
  | some (lp, action), none => lp.isNone && action == 0
  | some (lpA, actionA), some (lpB, actionB) =>
    actionA == actionB && lpA.isSome == lpB.isSome && lpA.bind A.layoutIndex == lpB.bind B.layoutIndex

/-- `isInstrEquivalentWith`. -/
def isInstrEquivalentWith (A B : ICFFunction) (comp : MCSymbol → MCSymbol → Bool) (a b : ICFInst) :
    Option Bool :=
  if a.inst.opcode ≠ b.inst.opcode then some false
  else if equalEHInfo A B a.ehInfo b.ehInfo then equalsInst comp a.inst b.inst
  else some false

/-- What is left of the longer block where the other one ends. -/
def trailing (a b : ICFBlock) : Option ICFInst :=
  (a.insts.drop b.insts.length ++ b.insts.drop a.insts.length).head?

section Compare

variable (ctx : ICFContext) (t : ICFState)

/-- `getEntryIDForSymbol`: the secondary entries are counted from zero. -/
def getEntryIDForSymbol (f : Nat) (s : MCSymbol) : Nat :=
  if (ctx.fn f).isMultiEntry && !(t.symbols f).contains s then (ctx.fn f).entries.idxOf s else 0

/-- `getFunctionForSymbol`, with `nullptr` for another entry than that of the function. -/
def functionForSymbol (s : MCSymbol) : Option Nat :=
  (t.symbolToFunction s).filter fun f => getEntryIDForSymbol ctx t f s == 0

/-- The jump tables that two symbols name. -/
def equalTables (A B : ICFFunction) (s s' : MCSymbol) : Bool :=
  match ctx.dataAddress s, ctx.dataAddress s' with
  | some a, some b =>
    match A.getJumpTableContainingAddress a, B.getJumpTableContainingAddress b with
    | some u, some v => a - u.address == b - v.address && equalJumpTables u v A B
    | _, _ => false
  | _, _ => false

/-- `AreSymbolsIdentical`. -/
def areSymbolsIdentical (congruent : Bool) (A B : Nat) (s s' : MCSymbol) : Bool :=
  if s = s' then true
  else if ctx.isTemporary s && ctx.isTemporary s' then true
  else
    match functionForSymbol ctx t s, functionForSymbol ctx t s' with
    | some f, some g =>
      if f = A ∧ g = B then true
      else if congruent then (ctx.fn f).hash == (ctx.fn g).hash
      else f == g
    | none, none => equalTables ctx (ctx.fn A) (ctx.fn B) s s'
    | _, _ => false

/-- The comparison of two blocks. -/
def isIdenticalBlock (congruent : Bool) (A B : Nat) (a b : ICFBlock) : Option Bool :=
  if a.succs.map (ctx.fn A).layoutIndex ≠ b.succs.map (ctx.fn B).layoutIndex then some false
  else
    thenCompare
      (comparePairs (isInstrEquivalentWith (ctx.fn A) (ctx.fn B)
        (areSymbolsIdentical ctx t congruent A B)) a.insts b.insts)
      (some ((trailing a b).all fun i => isUnconditionalBranch ctx.info i.inst))

/-- `isIdenticalWith`. -/
def isIdenticalWith (congruent : Bool) (A B : Nat) : Option Bool :=
  if (ctx.fn A).blocks.length ≠ (ctx.fn B).blocks.length then some false
  else if (ctx.fn A).isMultiEntry || (ctx.fn B).isMultiEntry then some false
  else if (ctx.fn A).hasIslandsInfo || (ctx.fn B).hasIslandsInfo then some false
  else
    thenCompare
      (comparePairs (isIdenticalBlock ctx t congruent A B) (ctx.fn A).blocks (ctx.fn B).blocks)
      (some ((ctx.fn A).lsda == (ctx.fn B).lsda))

/-! ## The pass -/

/-- A function put into the table of buckets: the bucket of a key that has its hash and equals it,
or a new one. -/
def insertFunction (congruent : Bool) (f : Nat) :
    List (Nat × List Nat) → Option (List (Nat × List Nat))
  | [] => some [(f, [f])]
  | (k, fs) :: rest =>
    if (ctx.fn f).hash = (ctx.fn k).hash then
      (if f = k then some true else isIdenticalWith ctx t congruent f k).bind fun same =>
        if same then some ((k, fs ++ [f]) :: rest)
        else (insertFunction congruent f rest).map ((k, fs) :: ·)
    else (insertFunction congruent f rest).map ((k, fs) :: ·)

/-- The table of the buckets of some functions. -/
def makeBuckets (congruent : Bool) (fs : List Nat) : Option (List (Nat × List Nat)) :=
  fs.foldlM (fun buckets f => insertFunction ctx t congruent f buckets) []

/-- The twins in the order of their numbers. -/
def sortTwins (fs : List Nat) : List Nat :=
  fs.insertionSort fun f g => (ctx.fn f).number ≤ (ctx.fn g).number

end Compare

/-- `foldFunction`. -/
def foldFunction (t : ICFState) (child parent : Nat) : ICFState :=
  { t with
    symbols := fun f =>
      if f = child then [] else if f = parent then t.symbols parent ++ t.symbols child else t.symbols f
    symbolToFunction := fun s => if s ∈ t.symbols child then some parent else t.symbolToFunction s
    folded := t.folded ++ [(child, parent)] }

/-- The twins of a bucket folded into the first of them. -/
def foldTwins (ctx : ICFContext) (t : ICFState) (fs : List Nat) : ICFState :=
  match sortTwins ctx fs with
  | [] => t
  | parent :: children => children.foldl (fun t child => foldFunction t child parent) t

/-- `processSingleBucket`, at the bucket `k`. -/
def processSingleBucket (ctx : ICFContext) (t : ICFState) (k : Nat) : Option ICFState :=
  (makeBuckets ctx t false (t.buckets.getD k [])).map fun identical =>
    let t' := identical.foldl (fun t b => foldTwins ctx t b.2) t
    { t' with
      buckets := t.buckets.set k
        ((t.buckets.getD k []).filter fun f => decide (f ∉ t'.folded.map Prod.fst)) }

/-- The buckets processed one after the other, in the order of `ks`: all the passes of
`runOnFunctions`. -/
def runBuckets (ctx : ICFContext) : List Nat → ICFState → Option ICFState
  | [], t => some t
  | k :: ks, t => (processSingleBucket ctx t k).bind (runBuckets ctx ks)

/-- The functions as they come to the pass. -/
def ICFState.start (ctx : ICFContext) (buckets : List (List Nat)) : ICFState :=
  ⟨fun f => (ctx.fn f).symbols, ctx.symbolToFunction, [], buckets⟩

/-- `createCongruentBuckets`, over the functions `fs` that may be optimized. -/
def createCongruentBuckets (ctx : ICFContext) (fs : List Nat) : Option ICFState :=
  (makeBuckets ctx (.start ctx []) true fs).map fun buckets => .start ctx (buckets.map Prod.snd)

end RvLlvm.Bolt
