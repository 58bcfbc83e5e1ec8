import Mathlib.Data.List.DropRight
import Mathlib.Data.List.Forall2
import RvLlvm.Bolt.MCInst

/-!
# Branches after a new layout

Model of `BinaryFunction::fixBranches` (`bolt/lib/Core/BinaryFunction.cpp:3225-3299`) with
`removeDuplicateConditionalSuccessor` (`BinaryBasicBlock.cpp:333-352`) and the RISC-V
`reverseBranchCondition`, `replaceBranchTarget` and `analyzeBranch`
(`RISCVMCPlusBuilder.cpp:163-185,470-490,615-689`). A failed assertion has no result.

* `analyzeBranch_shape`: what the end of a block is when `analyzeBranch` has read it.
* `fixBlock_realises`: the rewritten block goes where the control-flow graph says.
* `fixed_iff`: the whole function does, with successors and predecessors still each other's
  converse, exactly when no block ends in a register jump, has one successor twice or has branches
  behind its unconditional one that lead elsewhere (`Fixable`).
-/

namespace RvLlvm.Bolt

/-! ## The builder -/

/-- `getInvertedBranchOpcode`. -/
def getInvertedBranchOpcode : Opcode → Option Opcode
  | .beq => some .bne
  | .bne => some .beq
  | .blt => some .bge
  | .bge => some .blt
  | .bltu => some .bgeu
  | .bgeu => some .bltu
  | .cBeqz => some .cBnez
  | .cBnez => some .cBeqz
  | _ => none

/-- `replaceBranchTarget`. -/
def replaceBranchTarget (i : MCInst) (tbb : MCSymbol) : Option MCInst :=
  (getSymbolRefOperandNum i).map fun k =>
    { i with operands := i.operands.set k (.expr (.symbolRef 0 tbb)) }

/-- `reverseBranchCondition`. -/
def reverseBranchCondition (i : MCInst) (tbb : MCSymbol) : Option MCInst :=
  (getInvertedBranchOpcode i.opcode).bind fun op => replaceBranchTarget { i with opcode := op } tbb

/-- `createUncondBranch`. -/
def createUncondBranch (tbb : MCSymbol) : MCInst :=
  ⟨.jal, [.reg (gpr 0), .expr (.symbolRef 0 tbb)], false⟩

/-- What `analyzeBranch` finds; the branches are places in the block. -/
structure BranchAnalysis where
  tbb : Option MCSymbol
  fbb : Option MCSymbol
  condBranch : Option Nat
  uncondBranch : Option Nat
  deriving DecidableEq

section Analysis

variable (I : MCInstrInfo)

/-- The loop of `analyzeBranch` over the instructions in reverse: `some none` is its `false`, `none`
a failed assertion. -/
def analyzeLoop : List MCInst → BranchAnalysis → Option (Option BranchAnalysis)
  | [], a => some (some a)
  | i :: rest, a =>
    if isPseudo I i || isNoop i then analyzeLoop rest a
    else if !isTerminator I i || i.tailCall || !isBranch I i then some (some a)
    else if isUnconditionalBranch I i then
      match getTargetSymbol i with
      | none => none
      | some s => analyzeLoop rest ⟨some s, a.fbb, none, some rest.length⟩
    else if isIndirectBranch I i then some none
    else
      match a.condBranch with
      | some _ => none
      | none =>
        match getTargetSymbol i with
        | none => some none
        | some s => analyzeLoop rest ⟨some s, a.tbb, some rest.length, a.uncondBranch⟩

/-- `analyzeBranch`. -/
def analyzeBranch (insts : List MCInst) : Option (Option BranchAnalysis) :=
  analyzeLoop I insts.reverse ⟨none, none, none, none⟩

end Analysis

/-! ## The pass -/

/-- The element behind `l`. -/
def after : List MCSymbol → MCSymbol → Option MCSymbol
  | a :: b :: rest, l => if a = l then some b else after (b :: rest) l
  | _, _ => none

/-- `getBasicBlockAfter` without `IgnoreSplits`; the layout is a list of fragments. -/
def getBasicBlockAfter (layout : List (List MCSymbol)) (l : MCSymbol) : Option MCSymbol :=
  layout.findSome? fun fragment => after fragment l

/-- The element `k` taken out, if there is one. -/
def eraseAt (insts : List MCInst) : Option Nat → List MCInst
  | some k => insts.eraseIdx k
  | none => insts

section Pass

variable (I : MCInstrInfo)

/-- `fixBranches` for two successors, from `removeDuplicateConditionalSuccessor` on, which leaves
the predecessors alone. -/
def finishConditional (next : Option MCSymbol) (b : BasicBlock) (insts : List MCInst) (k : Nat)
    (tSuccessor fSuccessor : MCSymbol) : BasicBlock :=
  let b :=
    if tSuccessor = fSuccessor then { b with insts := insts.eraseIdx k, succs := [tSuccessor] }
    else { b with insts := insts, succs := [tSuccessor, fSuccessor] }
  if next = none ∨ (next ≠ some tSuccessor ∧ next ≠ some fSuccessor) then
    { b with insts := b.insts ++ [createUncondBranch fSuccessor] }
  else b

/-- The part of `fixBranches` for two successors. -/
def fixConditional (next : Option MCSymbol) (b : BasicBlock) (insts : List MCInst)
    (cond : Option Nat) (tSuccessor fSuccessor : MCSymbol) : Option BasicBlock :=
  cond.bind fun k =>
    insts[k]?.bind fun condBranch =>
      if next = some tSuccessor then
        (reverseBranchCondition condBranch fSuccessor).map fun c =>
          finishConditional next b (insts.set k c) k fSuccessor tSuccessor
      else
        (replaceBranchTarget condBranch tSuccessor).map fun c =>
          finishConditional next b (insts.set k c) k tSuccessor fSuccessor

/-- One turn of the loop of `fixBranches`. -/
def fixBlock (next : Option MCSymbol) (b : BasicBlock) : Option BasicBlock :=
  match analyzeBranch I b.insts with
  | none => none
  | some none => some b
  | some (some a) =>
    let insts := eraseAt b.insts a.uncondBranch
    match b.succs with
    | [s] =>
      let insts := eraseAt insts a.condBranch
      if next = some s then some { b with insts := insts }
      else some { b with insts := insts ++ [createUncondBranch s] }
    | [t, f] => fixConditional next b insts a.condBranch t f
    | _ => some { b with insts := insts }

/-- `fixBranches`. -/
def fixBranches (layout : List (List MCSymbol)) (blocks : List BasicBlock) :
    Option (List BasicBlock) :=
  blocks.mapM fun b => fixBlock I (getBasicBlockAfter layout b.label) b

end Pass

/-! ## Running branches -/

/-- The values of the registers. -/
abbrev RegFile := MCPhysReg → BitVec 32

/-- The condition of a branch. -/
def taken (i : MCInst) (r : RegFile) : Bool :=
  match i.opcode with
  | .beq => r (i.getReg 0) == r (i.getReg 1)
  | .bne => r (i.getReg 0) != r (i.getReg 1)
  | .blt => (r (i.getReg 0)).slt (r (i.getReg 1))
  | .bge => !(r (i.getReg 0)).slt (r (i.getReg 1))
  | .bltu => (r (i.getReg 0)).ult (r (i.getReg 1))
  | .bgeu => !(r (i.getReg 0)).ult (r (i.getReg 1))
  | .cBeqz => r (i.getReg 0) == 0
  | .cBnez => r (i.getReg 0) != 0
  | _ => false

section Exit

variable (I : MCInstrInfo)

/-- Where one instruction at the end of a block jumps to, if it does. -/
def jumps (r : RegFile) (i : MCInst) : Option MCSymbol :=
  if isUnconditionalBranch I i || taken i r then getTargetSymbol i else none

/-- Where the end of a block jumps to; nowhere is to fall through. -/
def exit (insts : List MCInst) (r : RegFile) : Option MCSymbol := insts.findSome? (jumps I r)

/-- An instruction that `analyzeBranch` reads on from. -/
def isTail (i : MCInst) : Bool :=
  isPseudo I i || isNoop i || (isTerminator I i && !i.tailCall && isBranch I i)

/-- The branches at the end of a block, and what is between them. -/
def branchTail (insts : List MCInst) : List MCInst := insts.rtakeWhile (isTail I)

/-- The conditional branch that `analyzeBranch` finds. -/
def condBranch (insts : List MCInst) : Option MCInst :=
  ((analyzeBranch I insts).join.bind (·.condBranch)).bind (insts[·]?)

/-- The last instructions of `b` transfer control as the graph says of block `a`, whose conditional
branch decides. -/
def Realises (next : Option MCSymbol) (a b : BasicBlock) : Prop :=
  match a.succs with
  | [s] => ∀ r, (exit I (branchTail I b.insts) r).or next = some s
  | [t, f] => ∃ c, condBranch I a.insts = some c ∧
      ∀ r, (exit I (branchTail I b.insts) r).or next = some (if taken c r then t else f)
  | _ => True

end Exit

/-- Successors and predecessors are each other's converse, with multiplicities. -/
def Converse (blocks : List BasicBlock) : Prop :=
  ∀ a ∈ blocks, ∀ b ∈ blocks, a.succs.count b.label = b.preds.count a.label

/-! ## Agreement with the graph -/

section Agree

variable (I : MCInstrInfo)

/-- `getLastNonPseudoInstr`. -/
def getLastNonPseudoInstr (insts : List MCInst) : Option MCInst :=
  insts.reverse.find? fun i => !isPseudo I i

/-- `validateSuccessorInvariants` (`BinaryBasicBlock.cpp:77-157`) for a block without a jump table;
`labels` are those of the blocks. -/
def validateSuccessorInvariants (labels : List MCSymbol) (b : BasicBlock) : Option Bool :=
  match getLastNonPseudoInstr I b.insts with
  | some i => if isIndirectBranch I i then some true else validateBranches
  | none => validateBranches
where
  validateBranches : Option Bool :=
    (analyzeBranch I b.insts).map fun
      | none => true
      | some a =>
        match b.succs with
        | [] => a.condBranch.isNone && a.uncondBranch.isNone
        | [_] =>
          match a.condBranch.bind (b.insts[·]?) with
          | some c => (getTargetSymbol c).all fun s => !labels.contains s
          | none => true
        | [t, f] =>
          a.condBranch.isSome && a.tbb == some t &&
            ((a.uncondBranch.isNone && a.fbb.isNone) ||
              (a.uncondBranch.isSome && a.fbb == some f))
        | _ => true

/-- The terminators of a block agree with its successors: the check passes, and every branch it has
read names its target. -/
def Agrees (labels : List MCSymbol) (b : BasicBlock) : Prop :=
  validateSuccessorInvariants I labels b = some true ∧ analyzeBranch I b.insts ≠ some none

/-- The instructions behind the unconditional branch that `analyzeBranch` finds. -/
def behind (insts : List MCInst) : List MCInst :=
  match (analyzeBranch I insts).join.bind (·.uncondBranch) with
  | some k => insts.drop (k + 1)
  | none => []

/-- The condition under which the graph survives: the block does not end in a register jump (a tail
call may be one), its two successors differ, and the branches behind its unconditional branch do not
lead elsewhere when control gets there once that branch is gone. -/
def Fixable (next : Option MCSymbol) (b : BasicBlock) : Prop :=
  (∀ i, getLastNonPseudoInstr I b.insts = some i → isIndirectBranch I i = true →
    i.tailCall = true ∧ b.succs.length ≠ 2) ∧
  match b.succs with
  | [s] => ∀ r, exit I (behind I b.insts) r = none ∨ exit I (behind I b.insts) r = some s
  | [t, f] => t ≠ f ∧ ∀ c, condBranch I b.insts = some c → ∀ r, taken c r = decide (next = some t) →
      exit I (behind I b.insts) r = none ∨
        exit I (behind I b.insts) r = some (if next = some t then t else f)
  | _ => True

end Agree

/-! ## Reading the end of a block -/

/-- The instructions that `analyzeBranch` ignores. -/
abbrev Ignored (I : MCInstrInfo) (insts : List MCInst) : Prop :=
  ∀ i ∈ insts, isPseudo I i = true ∨ isNoop i = true

/-- What `analyzeBranch` has found when it has read `S`, whose first instruction is at place `n`. -/
inductive BranchShape (I : MCInstrInfo) (n : Nat) : List MCInst → BranchAnalysis → Prop
  | none {N} : Ignored I N → BranchShape I n N ⟨none, none, none, none⟩
  | cond {N c N' t} : Ignored I N → Ignored I N' → isUnconditionalBranch I c = false →
      getTargetSymbol c = some t → isTail I c = true →
      BranchShape I n (N ++ c :: N') ⟨some t, none, some (n + N.length), none⟩
  | uncond {N u R s x} : Ignored I N → (∀ i ∈ R, isTail I i = true) →
      isUnconditionalBranch I u = true → getTargetSymbol u = some s → isTail I u = true →
      BranchShape I n (N ++ u :: R) ⟨some s, x, none, some (n + N.length)⟩
  | both {N c N' u R t s} : Ignored I N → Ignored I N' → (∀ i ∈ R, isTail I i = true) →
      isUnconditionalBranch I c = false → getTargetSymbol c = some t → isTail I c = true →
      isUnconditionalBranch I u = true → getTargetSymbol u = some s → isTail I u = true →
      BranchShape I n (N ++ c :: (N' ++ u :: R))
        ⟨some t, some s, some (n + N.length), some (n + N.length + 1 + N'.length)⟩

section BranchShape

variable {I : MCInstrInfo}

theorem ignored_nil : Ignored I [] := fun _ h => absurd h List.not_mem_nil

theorem isTail_of_ignored {i : MCInst} (h : isPseudo I i = true ∨ isNoop i = true) :
    isTail I i = true := by
  rw [isTail]
  rcases h with h | h <;> simp [h]

variable {a : BranchAnalysis}

/-- Every instruction that was read is a tail instruction. -/
theorem BranchShape.tail {n : Nat} {S : List MCInst} (h : BranchShape I n S a) :
    ∀ i ∈ S, isTail I i = true := by
  cases h with
  | none hN => exact fun i hi => isTail_of_ignored (hN i hi)
  | cond hN hN' _ _ hc =>
    intro i hi
    rcases List.mem_append.mp hi with hi | hi
    · exact isTail_of_ignored (hN i hi)
    · rcases List.mem_cons.mp hi with rfl | hi
      · exact hc
      · exact isTail_of_ignored (hN' i hi)
  | uncond hN hR _ _ hu =>
    intro i hi
    rcases List.mem_append.mp hi with hi | hi
    · exact isTail_of_ignored (hN i hi)
    · rcases List.mem_cons.mp hi with rfl | hi
      · exact hu
      · exact hR i hi
  | both hN hN' hR _ _ hc _ _ hu =>
    intro i hi
    rcases List.mem_append.mp hi with hi | hi
    · exact isTail_of_ignored (hN i hi)
    · rcases List.mem_cons.mp hi with rfl | hi
      · exact hc
      · rcases List.mem_append.mp hi with hi | hi
        · exact isTail_of_ignored (hN' i hi)
        · rcases List.mem_cons.mp hi with rfl | hi
          · exact hu
          · exact hR i hi

/-- An ignored instruction in front. -/
theorem BranchShape.ignore {n : Nat} {S : List MCInst} {i : MCInst} (h : BranchShape I (n + 1) S a)
    (hi : isPseudo I i = true ∨ isNoop i = true) : BranchShape I n (i :: S) a := by
  have hcons : ∀ {N : List MCInst}, Ignored I N → Ignored I (i :: N) := by
    intro N hN j hj
    rcases List.mem_cons.mp hj with rfl | hj
    · exact hi
    · exact hN j hj
  cases h with
  | none hN => exact .none (hcons hN)
  | @cond N c N' t hN hN' hc ht htail =>
    have := BranchShape.cond (n := n) (hcons hN) hN' hc ht htail
    rw [List.length_cons, ← Nat.add_assoc, Nat.add_right_comm] at this
    exact this
  | @uncond N u R s x hN hR hu hs htail =>
    have := BranchShape.uncond (n := n) (x := x) (hcons hN) hR hu hs htail
    rw [List.length_cons, ← Nat.add_assoc, Nat.add_right_comm] at this
    exact this
  | @both N c N' u R t s hN hN' hR hc ht hctail hu hs hutail =>
    have := BranchShape.both (n := n) (hcons hN) hN' hR hc ht hctail hu hs hutail
    rw [List.length_cons, ← Nat.add_assoc, Nat.add_right_comm] at this
    exact this

/-- The loop, by induction over what is left to read. -/
theorem analyzeLoop_shape (rest : List MCInst) {S : List MCInst} {b : BranchAnalysis}
    (hS : BranchShape I rest.length S a) (h : analyzeLoop I rest a = some (some b)) :
    ∃ pre T, rest.reverse ++ S = pre ++ T ∧ BranchShape I pre.length T b ∧
      ∀ i, pre.getLast? = some i → isTail I i = false := by
  induction rest generalizing S a with
  | nil =>
    obtain rfl : a = b := Option.some.inj (Option.some.inj h)
    exact ⟨[], S, rfl, hS, by simp⟩
  | cons i rest ih =>
    rw [List.length_cons] at hS
    have hsplit : (i :: rest).reverse ++ S = rest.reverse ++ (i :: S) := by
      rw [List.reverse_cons, List.append_assoc, List.singleton_append]
    rw [hsplit]
    rw [analyzeLoop] at h
    split at h
    next hignore =>
      exact ih (hS.ignore (by simpa using hignore)) h
    next hread =>
      split at h
      next hstop =>
        obtain rfl : a = b := Option.some.inj (Option.some.inj h)
        refine ⟨rest.reverse ++ [i], S, by rw [List.append_assoc, List.singleton_append], ?_, ?_⟩
        · rw [List.length_append, List.length_reverse]
          exact hS
        · intro j hj
          rw [List.getLast?_append, List.getLast?_singleton] at hj
          obtain rfl : i = j := by simpa using hj
          simp only [Bool.or_eq_true, Bool.not_eq_true', not_or, Bool.not_eq_true] at hread hstop
          rw [isTail, hread.1, hread.2]
          rcases hstop with (h | h) | h <;> simp [h]
      next hbranch =>
        have htail : isTail I i = true := by
          simp only [Bool.or_eq_true, Bool.not_eq_true', not_or, Bool.not_eq_true,
            Bool.not_eq_false] at hbranch
          simp [isTail, hbranch]
        split at h
        next huncond =>
          split at h
          · exact absurd h (by simp)
          next s hs =>
            exact ih (BranchShape.uncond (N := []) ignored_nil hS.tail huncond hs htail) h
        next hcond =>
          have hcond : isUnconditionalBranch I i = false := by simpa using hcond
          split at h
          · exact absurd h (by simp)
          · split at h
            · exact absurd h (by simp)
            next hnone =>
              split at h
              · exact absurd h (by simp)
              next s hs =>
                cases hS with
                | none hN => exact ih (BranchShape.cond (N := []) ignored_nil hN hcond hs htail) h
                | cond => exact absurd hnone (by simp)
                | @uncond N u R s' x hN hR hu hs' hutail =>
                  have hboth := BranchShape.both (n := rest.length) (N := []) ignored_nil hN hR hcond hs
                    htail hu hs' hutail
                  exact ih hboth h
                | both => exact absurd hnone (by simp)

/-- The whole block: what is in front of what was read does not belong to it. -/
theorem analyzeBranch_shape {insts : List MCInst} (h : analyzeBranch I insts = some (some a)) :
    ∃ pre T, insts = pre ++ T ∧ BranchShape I pre.length T a ∧
      ∀ i, pre.getLast? = some i → isTail I i = false := by
  obtain ⟨pre, T, hsplit, hT⟩ := analyzeLoop_shape insts.reverse (.none ignored_nil) h
  rw [List.reverse_reverse, List.append_nil] at hsplit
  exact ⟨pre, T, hsplit, hT⟩

/-- The place behind which `behind` begins. -/
def dropBehind (insts : List MCInst) : Option Nat → List MCInst
  | some k => insts.drop (k + 1)
  | none => []

/-- Without its unconditional branch the end is the conditional branch, if there is one, and what
was behind the unconditional one. -/
theorem shape_erase {pre T : List MCInst} (h : BranchShape I pre.length T a) :
    ∃ N M R, Ignored I N ∧ Ignored I M ∧ (∀ i ∈ R, isTail I i = true) ∧
      dropBehind (pre ++ T) a.uncondBranch = R ∧
      ((a.condBranch = none ∧ eraseAt (pre ++ T) a.uncondBranch = pre ++ (N ++ (M ++ R))) ∨
        ∃ c t, a.condBranch = some (pre.length + N.length) ∧
          eraseAt (pre ++ T) a.uncondBranch = pre ++ (N ++ c :: (M ++ R)) ∧
          (pre ++ T)[pre.length + N.length]? = some c ∧ a.tbb = some t ∧
          isUnconditionalBranch I c = false ∧ getTargetSymbol c = some t ∧ isTail I c = true) := by
  cases h with
  | none hN =>
    exact ⟨T, [], [], hN, ignored_nil, by simp, rfl, .inl ⟨rfl, by simp [eraseAt]⟩⟩
  | @cond N c N' t hN hN' hc ht htail =>
    refine ⟨N, N', [], hN, hN', by simp, rfl,
      .inr ⟨c, t, rfl, by simp [eraseAt], ?_, rfl, hc, ht, htail⟩⟩
    rw [← List.append_assoc]
    exact getElem?_middle (by simp)
  | @uncond N u R s x hN hR hu hs htail =>
    refine ⟨N, [], R, hN, ignored_nil, hR, ?_, .inl ⟨rfl, ?_⟩⟩
    · rw [← List.append_assoc]
      exact drop_middle (by simp)
    · rw [← List.append_assoc, List.nil_append, ← List.append_assoc]
      exact eraseIdx_middle (by simp)
  | @both N c N' u R t s hN hN' hR hc ht hctail hu hs hutail =>
    have hassoc : pre ++ (N ++ c :: (N' ++ u :: R)) = (pre ++ N ++ c :: N') ++ u :: R := by simp
    have hplace : pre.length + N.length + 1 + N'.length = (pre ++ N ++ c :: N').length := by
      simp only [List.length_append, List.length_cons]
      omega
    refine ⟨N, N', R, hN, hN', hR, ?_, .inr ⟨c, t, rfl, ?_, ?_, rfl, hc, ht, hctail⟩⟩
    · rw [hassoc]
      exact drop_middle hplace
    · rw [hassoc, eraseAt, eraseIdx_middle hplace]
      simp
    · rw [← List.append_assoc]
      exact getElem?_middle (by simp)

end BranchShape

/-! ## What the branches do -/

section Branches

variable {I : MCInstrInfo}

/-- A branch on a condition that names its target. -/
structure IsConditional (c : MCInst) : Prop where
  inverted : (getInvertedBranchOpcode c.opcode).isSome
  notTail : c.tailCall = false
  target : (getTargetSymbol c).isSome

attribute [local grind =] taken getInvertedBranchOpcode isUnconditionalBranch isBranchImpl
  isTerminator isTail MCInstrInfo.get isBranch

variable {c : MCInst}

theorem isConditional_of {t : MCSymbol} (hc : isUnconditionalBranch I c = false)
    (ht : getTargetSymbol c = some t) (htail : isTail I c = true) : IsConditional c := by
  obtain ⟨op, operands, tailCall⟩ := c
  refine ⟨?_, ?_, Option.isSome_of_mem ht⟩
  · cases op <;> simp_all [getInvertedBranchOpcode, getTargetSymbol, getSymbolRefOperandNum, isTail,
      isPseudo, isNoop, isTerminator, isBranch, isBranchImpl, isUnconditionalBranch, MCInstrInfo.get]
    exact hc htail.2
  · cases op <;> simp_all [getTargetSymbol, getSymbolRefOperandNum, isTail, isPseudo, isNoop,
      isTerminator, isBranch, isBranchImpl, isUnconditionalBranch, MCInstrInfo.get]

theorem IsConditional.not_unconditional (hc : IsConditional c) :
    isUnconditionalBranch I c = false := by
  obtain ⟨op, operands, tailCall⟩ := c
  have hop := hc.inverted
  cases op <;> simp [getInvertedBranchOpcode] at hop <;>
    simp [isUnconditionalBranch, isBranchImpl, MCInstrInfo.get]

theorem IsConditional.tail (hc : IsConditional c) : isTail I c = true := by
  obtain ⟨op, operands, tailCall⟩ := c
  have hop := hc.inverted
  have htc : tailCall = false := hc.notTail
  cases op <;> simp [getInvertedBranchOpcode] at hop <;>
    simp [isTail, isTerminator, isBranch, isBranchImpl, MCInstrInfo.get, htc]

/-- The place of the target, behind the registers that are compared. -/
theorem IsConditional.operand (hc : IsConditional c) :
    ∃ k, getSymbolRefOperandNum c = some k ∧ k < c.operands.length := by
  have ht := hc.target
  rw [getTargetSymbol] at ht
  cases hk : getSymbolRefOperandNum c with
  | none => rw [hk] at ht; exact absurd ht (by simp)
  | some k =>
    refine ⟨k, rfl, ?_⟩
    by_contra hlen
    rw [hk, Option.bind_some, List.getElem?_eq_none (Nat.le_of_not_lt hlen)] at ht
    exact absurd ht (by simp)

theorem taken_set (hc : IsConditional c) {k : Nat} (o : MCOperand)
    (hk : getSymbolRefOperandNum c = some k) (r : RegFile) :
    taken { c with operands := c.operands.set k o } r = taken c r := by
  obtain ⟨op, operands, tailCall⟩ := c
  have hop := hc.inverted
  cases op <;> simp [getInvertedBranchOpcode] at hop <;>
    simp only [getSymbolRefOperandNum, Option.some.injEq] at hk <;>
    subst hk <;> simp [taken, MCInst.getReg]

theorem replaceBranchTarget_spec (hc : IsConditional c) (s : MCSymbol) :
    ∃ c', replaceBranchTarget c s = some c' ∧ IsConditional c' ∧ getTargetSymbol c' = some s ∧
      ∀ r, taken c' r = taken c r := by
  obtain ⟨k, hk, hlen⟩ := hc.operand
  have htarget : getTargetSymbol { c with operands := c.operands.set k (.expr (.symbolRef 0 s)) } =
      some s := by
    have hk' : getSymbolRefOperandNum
        { c with operands := c.operands.set k (.expr (.symbolRef 0 s)) } = some k := hk
    rw [getTargetSymbol, hk', Option.bind_some, List.getElem?_set_self hlen]
    rfl
  refine ⟨{ c with operands := c.operands.set k (.expr (.symbolRef 0 s)) }, ?_,
    ⟨hc.inverted, hc.notTail, Option.isSome_of_mem htarget⟩, htarget, taken_set hc _ hk⟩
  rw [replaceBranchTarget, hk, Option.map_some]

/-- The opposite branch has its target at the same place and compares the same registers. -/
theorem inverted_spec (hc : IsConditional c) :
    ∃ op, getInvertedBranchOpcode c.opcode = some op ∧ IsConditional { c with opcode := op } ∧
      ∀ r, taken { c with opcode := op } r = !taken c r := by
  obtain ⟨op, operands, tailCall⟩ := c
  have hop := hc.inverted
  have ht := hc.target
  cases op <;> simp [getInvertedBranchOpcode] at hop <;>
    exact ⟨_, rfl, ⟨rfl, hc.notTail, ht⟩, fun r => by simp [taken, MCInst.getReg, bne]⟩

theorem reverseBranchCondition_spec (hc : IsConditional c) (s : MCSymbol) :
    ∃ c', reverseBranchCondition c s = some c' ∧ IsConditional c' ∧ getTargetSymbol c' = some s ∧
      ∀ r, taken c' r = !taken c r := by
  obtain ⟨op, hop, hinv, hnot⟩ := inverted_spec hc
  obtain ⟨c', hc', hcond, ht, htaken⟩ := replaceBranchTarget_spec hinv s
  refine ⟨c', ?_, hcond, ht, fun r => (htaken r).trans (hnot r)⟩
  rw [reverseBranchCondition, hop, Option.bind_some, hc']

/-! ## Leaving a block -/

theorem exit_append (A B : List MCInst) (r : RegFile) :
    exit I (A ++ B) r = (exit I A r).or (exit I B r) := List.findSome?_append

theorem exit_cons (i : MCInst) (B : List MCInst) (r : RegFile) :
    exit I (i :: B) r = (jumps I r i).or (exit I B r) := by
  rw [exit, List.findSome?_cons]
  cases jumps I r i <;> rfl

/-- What `analyzeBranch` ignores goes nowhere. -/
theorem exit_ignored (hI : I.BaseBranches) {N : List MCInst} (hN : Ignored I N) (r : RegFile) :
    exit I N r = none := by
  rw [exit, List.findSome?_eq_none_iff]
  intro i hi
  have hign := hN i hi
  obtain ⟨op, operands, tailCall⟩ := i
  cases op <;>
    simp_all [isPseudo, isNoop, jumps, taken, isUnconditionalBranch, isBranchImpl, MCInstrInfo.get]
  exact fun h => by simp [hI _] at h

theorem jumps_conditional (hc : IsConditional c) {s : MCSymbol} (ht : getTargetSymbol c = some s)
    (r : RegFile) : jumps I r c = if taken c r then some s else none := by
  rw [jumps, hc.not_unconditional, Bool.false_or, ht]

theorem exit_createUncondBranch (s : MCSymbol) (r : RegFile) :
    exit I [createUncondBranch s] r = some s := rfl

theorem isTail_createUncondBranch (s : MCSymbol) : isTail I (createUncondBranch s) = true := by
  simp [isTail, createUncondBranch, isTerminator, isBranch, isBranchImpl, MCInst.getReg]

/-- The branches at the end of a block are all behind an instruction that is none. -/
theorem branchTail_append {pre T : List MCInst}
    (hpre : ∀ i, pre.getLast? = some i → isTail I i = false)
    (hT : ∀ i ∈ T, isTail I i = true) : branchTail I (pre ++ T) = T := by
  have hstop : pre.reverse.takeWhile (isTail I) = [] := by
    rw [← List.head?_reverse] at hpre
    cases hrev : pre.reverse with
    | nil => rfl
    | cons i rest => rw [List.takeWhile_cons, hpre i (by rw [hrev]; rfl)]; rfl
  rw [branchTail, List.rtakeWhile, List.reverse_append, List.takeWhile_append_of_pos, hstop,
    List.append_nil, List.reverse_reverse]
  exact fun i hi => hT i (List.mem_reverse.mp hi)

end Branches

/-! ## One block -/

section Block

variable {I : MCInstrInfo} {next : Option MCSymbol} {b : BasicBlock} {a : BranchAnalysis}

theorem behind_eq (h : analyzeBranch I b.insts = some (some a)) :
    behind I b.insts = dropBehind b.insts a.uncondBranch := by
  rw [behind, h]
  cases a with
  | mk tbb fbb cond uncond => cases uncond <;> rfl

/-- A jump behind the end of a block is taken when nothing before it is. -/
theorem exit_closed {T : List MCInst} (s : MCSymbol) (r : RegFile) (next : Option MCSymbol) :
    (exit I (T ++ [createUncondBranch s]) r).or next = (exit I T r).or (some s) := by
  rw [exit_append, exit_createUncondBranch, Option.or_assoc, Option.some_or]

theorem isTail_closed {T : List MCInst} (hT : ∀ i ∈ T, isTail I i = true) (s : MCSymbol) :
    ∀ i ∈ T ++ [createUncondBranch s], isTail I i = true := by
  intro i hi
  rcases List.mem_append.mp hi with hi | hi
  · exact hT i hi
  · rw [List.mem_singleton.mp hi]
    exact isTail_createUncondBranch s

theorem or_some_eq {x : Option MCSymbol} {s : MCSymbol} :
    x.or (some s) = some s ↔ x = none ∨ x = some s := by
  cases x <;> simp

variable (next) in
/-- With one successor every branch is gone but those behind the unconditional one. -/
theorem fixBlock_one (hI : I.BaseBranches) {s : MCSymbol} (hs : b.succs = [s])
    (h : analyzeBranch I b.insts = some (some a)) :
    ∃ b', fixBlock I next b = some b' ∧
      (Realises I next b b' ↔ ∀ r, exit I (behind I b.insts) r = none ∨
        exit I (behind I b.insts) r = some s) := by
  obtain ⟨pre, T, hsplit, hshape, hpre⟩ := analyzeBranch_shape h
  obtain ⟨N, M, R, hN, hM, hR, hbehind, herase⟩ := shape_erase hshape
  rw [behind_eq h, hsplit, hbehind]
  have hinsts : eraseAt (eraseAt b.insts a.uncondBranch) a.condBranch = pre ++ (N ++ (M ++ R)) := by
    rw [hsplit]
    rcases herase with ⟨hcond, herase⟩ | ⟨c, t, hcond, herase, -⟩
    · rw [herase, hcond, eraseAt]
    · rw [herase, hcond, ← List.append_assoc, eraseAt, eraseIdx_middle (by simp), List.append_assoc]
  have htail : ∀ i ∈ N ++ (M ++ R), isTail I i = true := by
    intro i hi
    rcases List.mem_append.mp hi with hi | hi
    · exact isTail_of_ignored (hN i hi)
    · rcases List.mem_append.mp hi with hi | hi
      · exact isTail_of_ignored (hM i hi)
      · exact hR i hi
  have hexit : ∀ r, exit I (N ++ (M ++ R)) r = exit I R r := by
    intro r
    rw [exit_append, exit_append, exit_ignored hI hN, exit_ignored hI hM, Option.none_or,
      Option.none_or]
  by_cases hnext : next = some s
  · refine ⟨{ b with insts := pre ++ (N ++ (M ++ R)) }, ?_, ?_⟩
    · rw [fixBlock, h]
      simp only [hs, hinsts, if_pos hnext]
    · simp only [Realises, hs, branchTail_append hpre htail, hexit, hnext, or_some_eq]
  · refine ⟨{ b with insts := pre ++ (N ++ (M ++ R) ++ [createUncondBranch s]) }, ?_, ?_⟩
    · rw [fixBlock, h]
      simp only [hs, hinsts, if_neg hnext, List.append_assoc]
    · simp only [Realises, hs, branchTail_append hpre (isTail_closed htail s), exit_closed, hexit,
        or_some_eq]

/-- The end of a block whose branch on a condition goes to `s`. -/
theorem exit_conditional (hI : I.BaseBranches) {N M R : List MCInst} {c : MCInst} {s : MCSymbol}
    (hN : Ignored I N) (hM : Ignored I M) (hc : IsConditional c) (ht : getTargetSymbol c = some s)
    (r : RegFile) :
    exit I (N ++ c :: (M ++ R)) r = (if taken c r then some s else none).or (exit I R r) := by
  rw [exit_append, exit_ignored hI hN, Option.none_or, exit_cons, jumps_conditional hc ht,
    exit_append, exit_ignored hI hM, Option.none_or]

theorem isTail_conditional {N M R : List MCInst} {c : MCInst} (hN : Ignored I N) (hM : Ignored I M)
    (hR : ∀ i ∈ R, isTail I i = true) (hc : IsConditional c) :
    ∀ i ∈ N ++ c :: (M ++ R), isTail I i = true := by
  intro i hi
  rcases List.mem_append.mp hi with hi | hi
  · exact isTail_of_ignored (hN i hi)
  · rcases List.mem_cons.mp hi with rfl | hi
    · exact hc.tail
    · rcases List.mem_append.mp hi with hi | hi
      · exact isTail_of_ignored (hM i hi)
      · exact hR i hi

/-- A branch that goes to `s` where `q` holds, and `o` behind it, is right where `q` does not hold
and nothing in between leads elsewhere. -/
theorem branch_else {q : RegFile → Bool} {E : RegFile → Option MCSymbol} {s o : MCSymbol} :
    (∀ r, ((if q r then some s else none).or (E r)).or (some o) = some (if q r then s else o)) ↔
      ∀ r, q r = false → E r = none ∨ E r = some o := by
  refine forall_congr' fun r => ?_
  cases hq : q r with
  | true => simp
  | false =>
    rw [if_neg Bool.false_ne_true, if_neg Bool.false_ne_true, Option.none_or, or_some_eq]
    simp

/-- The block that is left: `c` goes to `t` and whatever else to `f`. -/
theorem finishConditional_realises (hI : I.BaseBranches) {pre N M R : List MCInst} {c : MCInst}
    {t f : MCSymbol} (hpre : ∀ i, pre.getLast? = some i → isTail I i = false) (hN : Ignored I N)
    (hM : Ignored I M) (hR : ∀ i ∈ R, isTail I i = true) (hc : IsConditional c)
    (ht : getTargetSymbol c = some t) (htf : t ≠ f) (hnext : next ≠ some t) (k : Nat) :
    (∀ r, (exit I (branchTail I (finishConditional next b (pre ++ (N ++ c :: (M ++ R))) k t f).insts) r).or
        next = some (if taken c r then t else f)) ↔
      ∀ r, taken c r = false → exit I R r = none ∨ exit I R r = some f := by
  have htail := isTail_conditional hN hM hR hc
  rw [← branch_else (q := taken c) (E := exit I R)]
  refine forall_congr' fun r => ?_
  rw [finishConditional, if_neg htf]
  by_cases hf : next = some f
  · rw [if_neg (by rw [hf]; simp), branchTail_append hpre htail, exit_conditional hI hN hM hc ht,
      hf]
  · rw [if_pos (.inr ⟨hnext, hf⟩), List.append_assoc,
      branchTail_append hpre (isTail_closed htail f),
      exit_closed, exit_conditional hI hN hM hc ht]

theorem realises_two {b' : BasicBlock} {t f : MCSymbol} {c : MCInst} (hs : b.succs = [t, f])
    (hc : condBranch I b.insts = some c) :
    Realises I next b b' ↔
      ∀ r, (exit I (branchTail I b'.insts) r).or next = some (if taken c r then t else f) := by
  simp only [Realises, hs, hc, Option.some.injEq, exists_eq_left']

variable (next) in
/-- With two successors the branch on the condition is kept, reversed if its target is next. -/
theorem fixBlock_two (hI : I.BaseBranches) {t f : MCSymbol} (hs : b.succs = [t, f])
    (h : analyzeBranch I b.insts = some (some a)) (hcond : a.condBranch.isSome = true)
    (htbb : a.tbb = some t) :
    ∃ b' c, fixBlock I next b = some b' ∧ condBranch I b.insts = some c ∧
      (t ≠ f → (Realises I next b b' ↔ ∀ r, taken c r = decide (next = some t) →
        exit I (behind I b.insts) r = none ∨
          exit I (behind I b.insts) r = some (if next = some t then t else f))) := by
  obtain ⟨pre, T, hsplit, hshape, hpre⟩ := analyzeBranch_shape h
  obtain ⟨N, M, R, hN, hM, hR, hbehind, herase⟩ := shape_erase hshape
  obtain ⟨hnone, -⟩ | ⟨c, t', hk, herase, hread, htbb', huncond, ht, htail⟩ := herase
  · rw [hnone] at hcond
    exact absurd hcond (by simp)
  obtain rfl : t = t' := Option.some.inj (htbb.symm.trans htbb')
  have hc : IsConditional c := isConditional_of huncond ht htail
  have hfound : condBranch I b.insts = some c := by
    rw [condBranch, h, hsplit]
    simp only [Option.join_some, Option.bind_some, hk, hread]
  have hbehind' : behind I b.insts = R := by
    rw [behind_eq h, hsplit, hbehind]
  have hplace : pre.length + N.length = (pre ++ N).length := List.length_append.symm
  have hset : ∀ c', (pre ++ (N ++ c :: (M ++ R))).set (pre.length + N.length) c' =
      pre ++ (N ++ c' :: (M ++ R)) := by
    intro c'
    rw [← List.append_assoc, set_middle hplace, List.append_assoc]
  have hfix : fixBlock I next b =
      if next = some t then
        (reverseBranchCondition c f).map fun c' =>
          finishConditional next b (pre ++ (N ++ c' :: (M ++ R))) (pre.length + N.length) f t
      else
        (replaceBranchTarget c t).map fun c' =>
          finishConditional next b (pre ++ (N ++ c' :: (M ++ R))) (pre.length + N.length) t f := by
    have hplaced : (pre ++ (N ++ c :: (M ++ R)))[pre.length + N.length]? = some c := by
      rw [← List.append_assoc, getElem?_middle hplace]
    rw [fixBlock, h]
    simp only [hs, hsplit, herase, hk, fixConditional, Option.bind_some, hplaced, hset]
  rw [hbehind', hfound, hfix]
  by_cases hnext : next = some t
  · obtain ⟨c', hrev, hc', ht', htaken⟩ := reverseBranchCondition_spec hc f
    refine ⟨_, c, by rw [if_pos hnext, hrev, Option.map_some], rfl, fun htf => ?_⟩
    have hne : next ≠ some f := fun hf => htf (Option.some.inj (hnext.symm.trans hf))
    have hend := finishConditional_realises (b := b) hI hpre hN hM hR hc' ht' (Ne.symm htf) hne
      (pre.length + N.length)
    have hswap : ∀ r, (if taken c' r then f else t) = if taken c r then t else f := by
      intro r
      rw [htaken r]
      cases taken c r <;> rfl
    simp only [hswap] at hend
    rw [realises_two hs hfound, hend]
    simp only [htaken, Bool.not_eq_false', decide_eq_true hnext, if_pos hnext]
  · obtain ⟨c', hrep, hc', ht', htaken⟩ := replaceBranchTarget_spec hc t
    refine ⟨_, c, by rw [if_neg hnext, hrep, Option.map_some], rfl, fun htf => ?_⟩
    have hend := finishConditional_realises (b := b) hI hpre hN hM hR hc' ht' htf hnext
      (pre.length + N.length)
    simp only [htaken] at hend
    rw [realises_two hs hfound, hend]
    simp only [decide_eq_false hnext, if_neg hnext]

variable (next) in
theorem finishConditional_frame (insts : List MCInst) (k : Nat) (t f : MCSymbol) :
    (finishConditional next b insts k t f).label = b.label ∧
      (finishConditional next b insts k t f).preds = b.preds ∧
        (finishConditional next b insts k t f).succs = if t = f then [t] else [t, f] := by
  rw [finishConditional]
  split <;> split <;> exact ⟨rfl, rfl, rfl⟩

/-- Labels and predecessors stay; the successors are at most exchanged, unless they are equal. -/
theorem fixBlock_frame {b' : BasicBlock} (h : fixBlock I next b = some b') :
    b'.label = b.label ∧ b'.preds = b.preds ∧
      (b'.succs.Perm b.succs ∨ ∃ t, b.succs = [t, t] ∧ b'.succs = [t]) := by
  have hsucc : ∀ {t f : MCSymbol} {insts : List MCInst} {k : Nat},
      b.succs = [t, f] → finishConditional next b insts k t f = b' ∨
        finishConditional next b insts k f t = b' →
      b'.label = b.label ∧ b'.preds = b.preds ∧
        (b'.succs.Perm b.succs ∨ ∃ t, b.succs = [t, t] ∧ b'.succs = [t]) := by
    intro t f insts k hs hb'
    rw [hs]
    rcases hb' with rfl | rfl
    · obtain ⟨hl, hp, hsuccs⟩ := finishConditional_frame (b := b) next insts k t f
      rw [hsuccs]
      refine ⟨hl, hp, ?_⟩
      by_cases htf : t = f
      · exact .inr ⟨t, by rw [htf], if_pos htf⟩
      · exact .inl (by rw [if_neg htf])
    · obtain ⟨hl, hp, hsuccs⟩ := finishConditional_frame (b := b) next insts k f t
      rw [hsuccs]
      refine ⟨hl, hp, ?_⟩
      by_cases htf : f = t
      · exact .inr ⟨f, by rw [htf], if_pos htf⟩
      · exact .inl (by rw [if_neg htf]; exact List.Perm.swap t f [])
  rw [fixBlock] at h
  split at h
  · exact absurd h (by simp)
  · obtain rfl := Option.some.inj h
    exact ⟨rfl, rfl, .inl (.refl _)⟩
  next a ha =>
    simp only at h
    split at h
    · split at h <;> obtain rfl := Option.some.inj h <;> exact ⟨rfl, rfl, .inl (.refl _)⟩
    next t f hs =>
      rw [fixConditional] at h
      obtain ⟨k, -, h⟩ := Option.bind_eq_some_iff.mp h
      obtain ⟨c, -, h⟩ := Option.bind_eq_some_iff.mp h
      split at h
      · obtain ⟨c', -, h⟩ := Option.map_eq_some_iff.mp h
        exact hsucc hs (.inr h)
      · obtain ⟨c', -, h⟩ := Option.map_eq_some_iff.mp h
        exact hsucc hs (.inl h)
    · obtain rfl := Option.some.inj h
      exact ⟨rfl, rfl, .inl (.refl _)⟩

/-- `removeDuplicateConditionalSuccessor`. -/
theorem fixBlock_duplicate {b' : BasicBlock} {t : MCSymbol} (hs : b.succs = [t, t])
    (hread : analyzeBranch I b.insts ≠ some none) (h : fixBlock I next b = some b') :
    b'.succs = [t] := by
  have hfinish : ∀ insts k, (finishConditional next b insts k t t).succs = [t] := by
    intro insts k
    rw [(finishConditional_frame next insts k t t).2.2, if_pos rfl]
  rw [fixBlock] at h
  split at h
  · exact absurd h (by simp)
  next hnone => exact absurd hnone hread
  next a ha =>
    simp only [hs, fixConditional] at h
    obtain ⟨k, -, h⟩ := Option.bind_eq_some_iff.mp h
    obtain ⟨c, -, h⟩ := Option.bind_eq_some_iff.mp h
    split at h
    · obtain ⟨c', -, rfl⟩ := Option.map_eq_some_iff.mp h
      exact hfinish _ k
    · obtain ⟨c', -, rfl⟩ := Option.map_eq_some_iff.mp h
      exact hfinish _ k

/-- A register jump at the end: a tail call stops `analyzeBranch`, any other one fails its
assertion. -/
theorem analyzeLoop_register (hI : I.BaseBranches) {i : MCInst} (hi : isIndirectBranch I i = true)
    (rev : List MCInst) (hlast : rev.find? (fun i => !isPseudo I i) = some i) (a : BranchAnalysis) :
    analyzeLoop I rev a = if i.tailCall then some (some a) else none := by
  induction rev with
  | nil => exact absurd hlast (by simp)
  | cons j rest ih =>
    rw [List.find?_cons] at hlast
    rw [analyzeLoop]
    cases hj : isPseudo I j with
    | true =>
      rw [hj] at hlast
      simpa using ih hlast
    | false =>
      rw [hj] at hlast
      obtain rfl : j = i := Option.some.inj hlast
      obtain ⟨op, operands, tailCall⟩ := j
      cases op <;> cases tailCall <;>
        simp_all [isIndirectBranch, isNoop, isTerminator, isBranch, isBranchImpl,
          isUnconditionalBranch, getTargetSymbol, getSymbolRefOperandNum, MCInstrInfo.get]
      all_goals simp [(hI _).2] at hi

theorem analyzeBranch_register (hI : I.BaseBranches) {insts : List MCInst} {i : MCInst}
    (hlast : getLastNonPseudoInstr I insts = some i) (hi : isIndirectBranch I i = true) :
    analyzeBranch I insts = if i.tailCall then some (some ⟨none, none, none, none⟩) else none :=
  analyzeLoop_register hI hi insts.reverse hlast _

/-- What the check says of a block that does not end in a register jump. -/
theorem agrees_branches {labels : List MCSymbol} (h : Agrees I labels b)
    (hlast : ∀ i, getLastNonPseudoInstr I b.insts = some i → isIndirectBranch I i = false) :
    ∃ a, analyzeBranch I b.insts = some (some a) ∧
      ∀ t f, b.succs = [t, f] → a.condBranch.isSome = true ∧ a.tbb = some t := by
  obtain ⟨hvalid, hread⟩ := h
  have hbranches : validateSuccessorInvariants.validateBranches I labels b = some true := by
    rw [validateSuccessorInvariants] at hvalid
    split at hvalid
    next i hi =>
      rwa [hlast i hi, if_neg Bool.false_ne_true] at hvalid
    · exact hvalid
  rw [validateSuccessorInvariants.validateBranches] at hbranches
  obtain ⟨x, hx, hcheck⟩ := Option.map_eq_some_iff.mp hbranches
  cases x with
  | none => exact absurd hx hread
  | some a =>
    refine ⟨a, hx, fun t f hs => ?_⟩
    simp only [hs, Bool.and_eq_true, beq_iff_eq] at hcheck
    exact hcheck.1

/-- **One block.** It is rewritten to what the graph says exactly when it is `Fixable`. -/
theorem fixBlock_realises (hI : I.BaseBranches) {labels : List MCSymbol}
    (hagree : Agrees I labels b)
    (hne : ∀ t, b.succs ≠ [t, t]) :
    (∃ b', fixBlock I next b = some b' ∧ Realises I next b b') ↔ Fixable I next b := by
  have hone : ∀ {a s}, analyzeBranch I b.insts = some (some a) → b.succs = [s] →
      ((∃ b', fixBlock I next b = some b' ∧ Realises I next b b') ↔
        ∀ r, exit I (behind I b.insts) r = none ∨ exit I (behind I b.insts) r = some s) := by
    intro a s ha hs
    obtain ⟨b', hb', hiff⟩ := fixBlock_one next hI hs ha
    rw [← hiff, hb']
    simp only [Option.some.injEq, exists_eq_left']
  have hother : ∀ {a}, analyzeBranch I b.insts = some (some a) → (∀ s, b.succs ≠ [s]) →
      (∀ t f, b.succs ≠ [t, f]) → ∃ b', fixBlock I next b = some b' ∧ Realises I next b b' := by
    intro a ha h1 h2
    rw [fixBlock, ha]
    match hs : b.succs with
    | [] => exact ⟨_, rfl, by simp only [Realises, hs]⟩
    | [s] => exact absurd hs (h1 s)
    | [t, f] => exact absurd hs (h2 t f)
    | _ :: _ :: _ :: _ => exact ⟨_, rfl, by simp only [Realises, hs]⟩
  by_cases hlast : ∃ i, getLastNonPseudoInstr I b.insts = some i ∧ isIndirectBranch I i = true
  · obtain ⟨i, hget, hi⟩ := hlast
    have ha := analyzeBranch_register hI hget hi
    cases htc : i.tailCall with
    | false =>
      rw [htc, if_neg Bool.false_ne_true] at ha
      constructor
      · rintro ⟨b', hb', -⟩
        rw [fixBlock, ha] at hb'
        exact absurd hb' (by simp)
      · intro hfix
        exact absurd ((hfix.1 i hget hi).1.symm.trans htc) (by simp)
    | true =>
      rw [htc, if_pos rfl] at ha
      have hfirst : b.succs.length ≠ 2 → ∀ j, getLastNonPseudoInstr I b.insts = some j →
          isIndirectBranch I j = true → j.tailCall = true ∧ b.succs.length ≠ 2 := by
        intro hlen j hj _
        obtain rfl : i = j := Option.some.inj (hget.symm.trans hj)
        exact ⟨htc, hlen⟩
      match hs : b.succs with
      | [] =>
        refine iff_of_true (hother ha (by simp [hs]) (by simp [hs])) ⟨hfirst (by simp [hs]), ?_⟩
        rw [hs]
        trivial
      | [s] => rw [hone ha hs, Fixable, and_iff_right (hfirst (by simp [hs])), hs]
      | [t, f] =>
        constructor
        · rintro ⟨b', hb', -⟩
          rw [fixBlock, ha] at hb'
          simp only [hs, fixConditional, Option.bind_none] at hb'
          exact absurd hb' (by simp)
        · intro hfix
          exact absurd (by rw [hs]; rfl) (hfix.1 i hget hi).2
      | _ :: _ :: _ :: _ =>
        refine iff_of_true (hother ha (by simp [hs]) (by simp [hs])) ⟨hfirst (by simp [hs]), ?_⟩
        rw [hs]
        trivial
  · have hlast' : ∀ i, getLastNonPseudoInstr I b.insts = some i → isIndirectBranch I i = false := by
      intro i hget
      exact Bool.eq_false_iff.mpr fun hi => hlast ⟨i, hget, hi⟩
    obtain ⟨a, ha, htwo⟩ := agrees_branches hagree hlast'
    have hfirst : ∀ i, getLastNonPseudoInstr I b.insts = some i → isIndirectBranch I i = true →
        i.tailCall = true ∧ b.succs.length ≠ 2 := fun i hget hi => absurd ⟨i, hget, hi⟩ hlast
    match hs : b.succs with
    | [s] => rw [hone ha hs, Fixable, and_iff_right hfirst, hs]
    | [t, f] =>
      obtain ⟨hcond, htbb⟩ := htwo t f hs
      obtain ⟨b', c, hb', hfound, hiff⟩ := fixBlock_two next hI hs ha hcond htbb
      have htf : t ≠ f := fun htf => hne t (by rw [hs, htf])
      rw [Fixable, and_iff_right hfirst, hs, hb']
      simp only [Option.some.injEq, exists_eq_left', hiff htf, hfound, forall_eq', ne_eq, htf,
        not_false_eq_true, true_and]
    | [] =>
      refine iff_of_true (hother ha (by simp [hs]) (by simp [hs])) ⟨hfirst, ?_⟩
      rw [hs]
      trivial
    | _ :: _ :: _ :: _ =>
      refine iff_of_true (hother ha (by simp [hs]) (by simp [hs])) ⟨hfirst, ?_⟩
      rw [hs]
      trivial

end Block

/-! ## The function -/

variable {blocks blocks' : List BasicBlock} {R : BasicBlock → BasicBlock → Prop}

theorem mapM_eq_some {f : BasicBlock → Option BasicBlock} :
    blocks.mapM f = some blocks' ↔ List.Forall₂ (fun b b' => f b = some b') blocks blocks' := by
  induction blocks generalizing blocks' with
  | nil =>
    rw [List.forall₂_nil_left_iff, List.mapM_nil, Option.pure_def, Option.some.injEq, eq_comm]
  | cons b rest ih =>
    simp only [List.mapM_cons, List.forall₂_cons_left_iff, Option.bind_eq_bind,
      Option.bind_eq_some_iff, ← ih, Option.pure_def, Option.some.injEq]
    constructor
    · rintro ⟨b', hb', rest', hrest', rfl⟩
      exact ⟨b', rest', hb', hrest', rfl⟩
    · rintro ⟨b', rest', hb', hrest', rfl⟩
      exact ⟨b', hb', rest', hrest', rfl⟩

theorem forall₂_and {S : BasicBlock → BasicBlock → Prop} (hR : List.Forall₂ R blocks blocks')
    (hS : List.Forall₂ S blocks blocks') :
    List.Forall₂ (fun b b' => R b b' ∧ S b b') blocks blocks' := by
  induction hR with
  | nil => exact .nil
  | cons h _ ih =>
    cases hS with
    | cons h' hrest => exact .cons ⟨h, h'⟩ (ih hrest)

theorem exists_of_forall₂ (h : List.Forall₂ R blocks blocks') :
    (∀ b ∈ blocks, ∃ b' ∈ blocks', R b b') ∧ ∀ b' ∈ blocks', ∃ b ∈ blocks, R b b' := by
  induction h with
  | nil => simp
  | cons hR _ ih =>
    simp only [List.forall_mem_cons, List.exists_mem_cons_iff]
    exact ⟨⟨.inl hR, fun b hb => .inr (ih.1 b hb)⟩, .inl hR, fun b' hb' => .inr (ih.2 b' hb')⟩

theorem forall₂_of_mem (h : ∀ b ∈ blocks, ∃ b', R b b') :
    ∃ blocks', List.Forall₂ R blocks blocks' := by
  induction blocks with
  | nil => exact ⟨[], .nil⟩
  | cons b rest ih =>
    rw [List.forall_mem_cons] at h
    obtain ⟨⟨b', hb'⟩, hrest⟩ := h
    obtain ⟨rest', hrest'⟩ := ih hrest
    exact ⟨b' :: rest', .cons hb' hrest'⟩

variable {I : MCInstrInfo}

theorem Fixable.ne {next : Option MCSymbol} {b : BasicBlock} (h : Fixable I next b) (t : MCSymbol) :
    b.succs ≠ [t, t] := by
  intro hs
  have htwo := h.2
  rw [hs] at htwo
  exact htwo.1 rfl

/-- Two equal successors: the block keeps one of them, and that one still lists it twice. -/
theorem not_converse_of_duplicate {layout : List (List MCSymbol)}
    (hfix : fixBranches I layout blocks = some blocks')
    (hread : ∀ b ∈ blocks, analyzeBranch I b.insts ≠ some none)
    (hsuccs : ∀ b ∈ blocks, ∀ s ∈ b.succs, ∃ a ∈ blocks, a.label = s) (hconverse : Converse blocks)
    {b : BasicBlock} (hb : b ∈ blocks) {t : MCSymbol} (hs : b.succs = [t, t]) :
    ¬ Converse blocks' := by
  intro hconverse'
  have hfix := (exists_of_forall₂ (mapM_eq_some.mp hfix)).1
  obtain ⟨a, ha, rfl⟩ := hsuccs b hb t (by rw [hs]; exact List.mem_cons_self)
  obtain ⟨a', ha', hfa⟩ := hfix a ha
  obtain ⟨b', hb', hfb⟩ := hfix b hb
  obtain ⟨hla, hpa, -⟩ := fixBlock_frame hfa
  obtain ⟨hlb, -, -⟩ := fixBlock_frame hfb
  have hbefore := hconverse b hb a ha
  have hafter := hconverse' b' hb' a' ha'
  rw [hs] at hbefore
  rw [fixBlock_duplicate hs (hread b hb) hfb, hla, hlb, hpa] at hafter
  rw [← hafter, List.count_cons_self, List.count_cons_self, List.count_nil] at hbefore
  exact absurd hbefore (by decide)

/-- **Branch fixing realises the graph.** Of a function that passes the check, every block goes
where the graph says, and the graph stays one, exactly when every block is `Fixable`. -/
theorem fixed_iff (hI : I.BaseBranches) (layout : List (List MCSymbol)) (blocks : List BasicBlock)
    (hagree : ∀ b ∈ blocks, Agrees I (blocks.map (·.label)) b)
    (hsuccs : ∀ b ∈ blocks, ∀ s ∈ b.succs, ∃ a ∈ blocks, a.label = s) (hconverse : Converse blocks) :
    (∃ blocks', fixBranches I layout blocks = some blocks' ∧
        List.Forall₂ (fun b b' => Realises I (getBasicBlockAfter layout b.label) b b') blocks blocks' ∧
        Converse blocks') ↔
      ∀ b ∈ blocks, Fixable I (getBasicBlockAfter layout b.label) b := by
  constructor
  · rintro ⟨blocks', hfix, hreal, hconverse'⟩ b hb
    have hall := exists_of_forall₂ (forall₂_and (mapM_eq_some.mp hfix) hreal)
    obtain ⟨b', -, hb', hreal'⟩ := hall.1 b hb
    refine (fixBlock_realises hI (hagree b hb) fun t hs => ?_).mp ⟨b', hb', hreal'⟩
    exact not_converse_of_duplicate hfix (fun b hb => (hagree b hb).2) hsuccs hconverse hb hs hconverse'
  · intro hfixable
    obtain ⟨blocks', hall⟩ := forall₂_of_mem (fun b hb =>
      (fixBlock_realises hI (hagree b hb) (hfixable b hb).ne).mpr (hfixable b hb))
    have hfix : List.Forall₂ (fun b b' => fixBlock I (getBasicBlockAfter layout b.label) b = some b')
        blocks blocks' := hall.imp fun _ _ h => h.1
    refine ⟨blocks', mapM_eq_some.mpr hfix, hall.imp fun _ _ h => h.2, ?_⟩
    intro a' ha' b' hb'
    obtain ⟨a, ha, hfa⟩ := (exists_of_forall₂ hfix).2 a' ha'
    obtain ⟨b, hb, hfb⟩ := (exists_of_forall₂ hfix).2 b' hb'
    obtain ⟨hla, -, hsa⟩ := fixBlock_frame hfa
    obtain ⟨hlb, hpb, -⟩ := fixBlock_frame hfb
    have hperm : a'.succs.Perm a.succs := by
      rcases hsa with hsa | ⟨t, hs, -⟩
      · exact hsa
      · exact absurd hs ((hfixable a ha).ne t)
    rw [hla, hlb, hpb, hperm.count_eq]
    exact hconverse a ha b hb

/-! ## Two functions -/

instance (labels : List MCSymbol) (b : BasicBlock) : Decidable (Agrees I labels b) :=
  inferInstanceAs (Decidable (_ ∧ _))

instance (blocks : List BasicBlock) : Decidable (Converse blocks) :=
  inferInstanceAs (Decidable (∀ a ∈ blocks, ∀ b ∈ blocks, _))

/-- `beq a0, a1` to the last of three blocks. -/
def diamond : List BasicBlock :=
  [⟨0, [⟨.beq, [.reg (gpr 10), .reg (gpr 11), .expr (.symbolRef 0 2)], false⟩], [2, 1], []⟩,
    ⟨1, [⟨.addi, [.reg (gpr 10), .reg (gpr 10), .imm 1], false⟩], [2], [0]⟩,
    ⟨2, [⟨.jalr, [.reg (gpr 0), .reg (gpr 1), .imm 0], false⟩], [], [0, 1]⟩]

/-- With the last block moved in front of the second: the branch is reversed and a jump is added. -/
theorem fixed_diamond :
    ∃ blocks', fixBranches noOthers [[0, 2, 1]] diamond = some blocks' ∧
      List.Forall₂ (fun b b' => Realises noOthers (getBasicBlockAfter [[0, 2, 1]] b.label) b b')
        diamond blocks' ∧ Converse blocks' := by
  refine (fixed_iff noOthers_baseBranches [[0, 2, 1]] diamond (by decide) (by decide) (by decide)).mpr ?_
  intro b hb
  have hlast : ∀ b ∈ diamond, ∀ i, getLastNonPseudoInstr noOthers b.insts = some i →
      isIndirectBranch noOthers i = false := by decide
  have hbehind : ∀ b ∈ diamond, behind noOthers b.insts = [] := by decide
  refine ⟨fun i hi hind => absurd (hlast b hb i hi) (by rw [hind]; simp), ?_⟩
  rw [hbehind b hb]
  simp only [diamond, List.mem_cons, List.not_mem_nil, or_false] at hb
  rcases hb with rfl | rfl | rfl
  · exact ⟨by decide, fun c hc r hr => .inl rfl⟩
  · exact fun r => .inl rfl
  · trivial

/-- A branch to the next block. -/
def branchToNext : List BasicBlock :=
  [⟨0, [⟨.beq, [.reg (gpr 10), .reg (gpr 11), .expr (.symbolRef 0 1)], false⟩], [1, 1], []⟩,
    ⟨1, [⟨.jalr, [.reg (gpr 0), .reg (gpr 1), .imm 0], false⟩], [], [0, 0]⟩]

/-- The branch goes, but the next block keeps its predecessor twice. -/
theorem not_fixed_branchToNext :
    (∀ b ∈ branchToNext, Agrees noOthers (branchToNext.map (·.label)) b) ∧ Converse branchToNext ∧
      ∃ blocks', fixBranches noOthers [[0, 1]] branchToNext = some blocks' ∧ ¬ Converse blocks' :=
  ⟨by decide, by decide, _, rfl, by decide⟩

end RvLlvm.Bolt
