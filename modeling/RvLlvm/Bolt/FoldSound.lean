import Mathlib.Data.List.Nodup
import RvLlvm.Bolt.IdenticalCodeFolding
import RvLlvm.Support.Pairwise

/-!
# What is folded is alike

- `FunctionMatches`: two functions with the same layout, the same successors and instructions that
  differ in symbols only.
- `alike_of_twins`: two functions that were compared with one key are alike. The comparison is no
  equivalence: of two functions that it takes for the same as a third, one may call the third and
  the other itself.
- `processSingleBucket_spec` is one bucket, and `icf_run` a run over any buckets in any order.
-/

namespace RvLlvm.Bolt

open Support

/-! ## Functions that match -/

/-- The symbols of an expression. -/
def MCExpr.symbolList : MCExpr → List MCSymbol
  | .constant _ => []
  | .symbolRef _ s => [s]
  | .unary _ e => e.symbolList
  | .binary _ l r => l.symbolList ++ r.symbolList
  | .target _ e => e.symbolList

/-- Expressions that differ in symbols only, and there as `R` allows. -/
inductive ExprMatches (R : MCSymbol → MCSymbol → Prop) : MCExpr → MCExpr → Prop
  | constant (v : Int) : ExprMatches R (.constant v) (.constant v)
  | symbolRef (k : Nat) {s s' : MCSymbol} (h : R s s') : ExprMatches R (.symbolRef k s) (.symbolRef k s')
  | unary (op : Nat) {e e' : MCExpr} (h : ExprMatches R e e') : ExprMatches R (.unary op e) (.unary op e')
  | binary (op : Nat) {l l' r r' : MCExpr} (hl : ExprMatches R l l') (hr : ExprMatches R r r') :
    ExprMatches R (.binary op l r) (.binary op l' r')
  | target (k : Nat) {e e' : MCExpr} (h : ExprMatches R e e') : ExprMatches R (.target k e) (.target k e')

/-- The symbols of an operand. -/
def MCOperand.symbolList : MCOperand → List MCSymbol
  | .expr e => e.symbolList
  | _ => []

inductive OperandMatches (R : MCSymbol → MCSymbol → Prop) : MCOperand → MCOperand → Prop
  | reg (r : MCPhysReg) : OperandMatches R (.reg r) (.reg r)
  | imm (v : Int) : OperandMatches R (.imm v) (.imm v)
  | expr {e e' : MCExpr} (h : ExprMatches R e e') : OperandMatches R (.expr e) (.expr e')

/-- The symbols of an instruction. -/
def ICFInst.symbolList (i : ICFInst) : List MCSymbol := i.inst.operands.flatMap MCOperand.symbolList

structure InstMatches (R : MCSymbol → MCSymbol → Prop) (A B : ICFFunction) (a b : ICFInst) :
    Prop where
  opcode : a.inst.opcode = b.inst.opcode
  ehInfo : equalEHInfo A B a.ehInfo b.ehInfo = true
  operands : List.Forall₂ (OperandMatches R) a.inst.operands b.inst.operands

structure BlockMatches (R : MCSymbol → MCSymbol → Prop) (A B : ICFFunction) (a b : ICFBlock) :
    Prop where
  succs : a.succs.map A.layoutIndex = b.succs.map B.layoutIndex
  insts : List.Forall₂ (InstMatches R A B) a.insts b.insts

/-- The same layout, the same successors, and instructions that differ in symbols only. -/
structure FunctionMatches (R : MCSymbol → MCSymbol → Prop) (A B : ICFFunction) : Prop where
  blocks : List.Forall₂ (BlockMatches R A B) A.blocks B.blocks
  lsda : A.lsda = B.lsda

/-- The function refers to the symbol. -/
def ICFFunction.Refers (F : ICFFunction) (s : MCSymbol) : Prop :=
  ∃ b ∈ F.blocks, ∃ i ∈ b.insts, s ∈ i.symbolList

section Matches

variable {R R' R'' : MCSymbol → MCSymbol → Prop} {A B K : ICFFunction}

theorem ExprMatches.refl (hR : ∀ s, R s s) (e : MCExpr) : ExprMatches R e e := by
  induction e with
  | constant v => exact .constant v
  | symbolRef k s => exact .symbolRef k (hR s)
  | unary op e ih => exact .unary op ih
  | binary op l r ihl ihr => exact .binary op ihl ihr
  | target k e ih => exact .target k ih

theorem ExprMatches.compose {a k b : MCExpr} (h : ExprMatches R a k) (h' : ExprMatches R' b k)
    (hR : ∀ s ∈ a.symbolList, ∀ q ∈ k.symbolList, ∀ s' ∈ b.symbolList, R s q → R' s' q → R'' s s') :
    ExprMatches R'' a b := by
  induction h generalizing b with
  | constant v =>
    cases h'
    exact .constant v
  | symbolRef k hs =>
    cases h' with
    | symbolRef k hs' =>
      exact .symbolRef k (hR _ (List.mem_singleton_self _) _ (List.mem_singleton_self _) _
        (List.mem_singleton_self _) hs hs')
  | unary op _ ih =>
    cases h' with
    | unary op h' => exact .unary op (ih h' hR)
  | target k _ ih =>
    cases h' with
    | target k h' => exact .target k (ih h' hR)
  | binary op _ _ ihl ihr =>
    cases h' with
    | binary op hl' hr' =>
      refine .binary op (ihl hl' ?_) (ihr hr' ?_)
      · exact fun s hs q hq s' hs' => hR s (List.mem_append_left _ hs) q (List.mem_append_left _ hq) s'
          (List.mem_append_left _ hs')
      · exact fun s hs q hq s' hs' => hR s (List.mem_append_right _ hs) q (List.mem_append_right _ hq) s'
          (List.mem_append_right _ hs')

theorem OperandMatches.compose {a k b : MCOperand} (h : OperandMatches R a k)
    (h' : OperandMatches R' b k)
    (hR : ∀ s ∈ a.symbolList, ∀ q ∈ k.symbolList, ∀ s' ∈ b.symbolList, R s q → R' s' q → R'' s s') :
    OperandMatches R'' a b := by
  cases h with
  | reg r =>
    cases h'
    exact .reg r
  | imm v =>
    cases h'
    exact .imm v
  | expr h =>
    cases h' with
    | expr h' => exact .expr (h.compose h' hR)

theorem equalEHInfo_refl (x : Option (Option MCSymbol × Nat)) : equalEHInfo A A x x = true := by
  rcases x with _ | ⟨lp, action⟩
  · rfl
  · simp [equalEHInfo]

theorem equalEHInfo_compose {x y z : Option (Option MCSymbol × Nat)}
    (h : equalEHInfo A K x z = true)
    (h' : equalEHInfo B K y z = true) : equalEHInfo A B x y = true := by
  rcases x with _ | ⟨_ | p, n⟩ <;> rcases y with _ | ⟨_ | q, m⟩ <;> rcases z with _ | ⟨_ | r, l⟩ <;>
    simp_all [equalEHInfo]

theorem InstMatches.compose {a k b : ICFInst} (h : InstMatches R A K a k)
    (h' : InstMatches R' B K b k)
    (hR : ∀ s ∈ a.symbolList, ∀ q ∈ k.symbolList, ∀ s' ∈ b.symbolList, R s q → R' s' q → R'' s s') :
    InstMatches R'' A B a b where
  opcode := h.opcode.trans h'.opcode.symm
  ehInfo := equalEHInfo_compose h.ehInfo h'.ehInfo
  operands := forall₂_compose h.operands h'.operands fun x hx z hz y hy hxz hyz =>
    hxz.compose hyz fun s hs q hq s' hs' => hR s (List.mem_flatMap.mpr ⟨x, hx, hs⟩) q
      (List.mem_flatMap.mpr ⟨z, hz, hq⟩) s' (List.mem_flatMap.mpr ⟨y, hy, hs'⟩)

theorem FunctionMatches.compose (h : FunctionMatches R A K) (h' : FunctionMatches R' B K)
    (hR : ∀ s q s', A.Refers s → K.Refers q → B.Refers s' → R s q → R' s' q → R'' s s') :
    FunctionMatches R'' A B where
  lsda := h.lsda.trans h'.lsda.symm
  blocks := forall₂_compose h.blocks h'.blocks fun a ha k hk b hb hak hbk =>
    ⟨hak.succs.trans hbk.succs.symm, forall₂_compose hak.insts hbk.insts fun i hi l hl j hj hil hjl =>
      hil.compose hjl fun s hs q hq s' hs' => hR s q s' ⟨a, ha, i, hi, hs⟩ ⟨k, hk, l, hl, hq⟩
        ⟨b, hb, j, hj, hs'⟩⟩

theorem OperandMatches.refl (hR : ∀ s, R s s) (o : MCOperand) : OperandMatches R o o := by
  cases o with
  | reg r => exact .reg r
  | imm v => exact .imm v
  | expr e => exact .expr (.refl hR e)

theorem InstMatches.refl (hR : ∀ s, R s s) (i : ICFInst) : InstMatches R A A i i where
  opcode := rfl
  ehInfo := equalEHInfo_refl _
  operands := forall₂_refl (OperandMatches.refl hR) _

theorem FunctionMatches.refl (hR : ∀ s, R s s) (A : ICFFunction) : FunctionMatches R A A where
  lsda := rfl
  blocks := forall₂_refl (fun _ => ⟨rfl, forall₂_refl (InstMatches.refl hR) _⟩) _

/-- The label that a jump of the block goes to: the first successor for a conditional branch, and
the last one for a jump. -/
def ICFBlock.targetOf (I : MCInstrInfo) (b : ICFBlock) (i : ICFInst) : Option MCSymbol :=
  if (I.get i.inst.opcode).isBranch && !(I.get i.inst.opcode).isBarrier then b.succs.head?
  else b.succs.getLast?

/-- Labels name what the successors say. -/
def ICFFunction.Placed (ctx : ICFContext) (F : ICFFunction) : Prop :=
  ∀ b ∈ F.blocks, ∀ i ∈ b.insts, ∀ s ∈ i.symbolList, ctx.isTemporary s = true →
    ∃ l n, b.targetOf ctx.info i = some l ∧ F.layoutIndex l = some n ∧ F.layoutIndex s = some n

/-- The symbols are labels of corresponding positions. -/
def SameLabel (A B : ICFFunction) (s s' : MCSymbol) : Prop :=
  ∃ n, A.layoutIndex s = some n ∧ B.layoutIndex s' = some n

theorem targetOf_map {I : MCInstrInfo} {a b : ICFBlock} {i j : ICFInst}
    (hop : i.inst.opcode = j.inst.opcode)
    (hsuccs : a.succs.map A.layoutIndex = b.succs.map B.layoutIndex) :
    (a.targetOf I i).map A.layoutIndex = (b.targetOf I j).map B.layoutIndex := by
  rw [ICFBlock.targetOf, ICFBlock.targetOf, hop]
  split
  · rw [← List.head?_map, ← List.head?_map, hsuccs]
  · rw [← List.getLast?_map, ← List.getLast?_map, hsuccs]

/-- Temporary symbols at one place are labels of corresponding positions. -/
theorem FunctionMatches.labels {ctx : ICFContext} (h : FunctionMatches R A B) (hA : A.Placed ctx)
    (hB : B.Placed ctx)
    (hR : ∀ s s', R s s' → R' s s' ∨ ctx.isTemporary s = true ∧ ctx.isTemporary s' = true)
    (hlabel : ∀ s s', SameLabel A B s s' → R' s s') : FunctionMatches R' A B where
  lsda := h.lsda
  blocks := by
    refine forall₂_compose h.blocks (forall₂_refl (S := Eq) (fun _ => rfl) B.blocks) ?_
    rintro a ha _ hb b - hab rfl
    refine ⟨hab.succs, ?_⟩
    refine forall₂_compose hab.insts (forall₂_refl (S := Eq) (fun _ => rfl) b.insts) ?_
    rintro i hi _ hj j - hij rfl
    have hself : InstMatches Eq B B j j := InstMatches.refl (fun _ => rfl) j
    refine hij.compose hself ?_
    rintro s hs _ - s' hs' hsq rfl
    rcases hR s s' hsq with hR' | ⟨htemp, htemp'⟩
    · exact hR'
    · obtain ⟨l, n, hl, hln, hsn⟩ := hA a ha i hi s hs htemp
      obtain ⟨l', n', hl', hln', hsn'⟩ := hB b hb j hj s' hs' htemp'
      have hmap := targetOf_map (I := ctx.info) hij.opcode hab.succs
      rw [hl, hl', Option.map_some, Option.map_some, hln, hln'] at hmap
      obtain rfl := Option.some.inj (Option.some.inj hmap)
      exact hlabel _ _ ⟨n, hsn, hsn'⟩

end Matches

/-! ## What the comparison accepts -/

theorem thenCompare_eq_true {a b : Option Bool} :
    thenCompare a b = some true ↔ a = some true ∧ b = some true := by
  rcases a with _ | _ | _ <;> simp [thenCompare]

theorem thenCompare_isSome {a b : Option Bool} (ha : a.isSome = true) (hb : b.isSome = true) :
    (thenCompare a b).isSome = true := by
  rcases a with _ | _ | _
  · exact absurd ha (by simp)
  · rfl
  · exact hb

theorem comparePairs_forall₂ {α : Type} {f : α → α → Option Bool} {as bs : List α}
    (h : comparePairs f as bs = some true) (hlen : as.length = bs.length) :
    List.Forall₂ (fun a b => f a b = some true) as bs := by
  induction as generalizing bs with
  | nil =>
    obtain rfl := List.length_eq_zero_iff.mp hlen.symm
    exact .nil
  | cons a as ih =>
    cases bs with
    | nil => exact absurd hlen (by simp)
    | cons b bs =>
      obtain ⟨hab, h⟩ := thenCompare_eq_true.mp h
      exact .cons hab (ih h (Nat.succ.inj hlen))

theorem comparePairs_isSome {α : Type} {f : α → α → Option Bool} {as bs : List α}
    (h : ∀ p ∈ as.zip bs, (f p.1 p.2).isSome = true) : (comparePairs f as bs).isSome = true := by
  induction as generalizing bs with
  | nil => rfl
  | cons a as ih =>
    cases bs with
    | nil => rfl
    | cons b bs =>
      exact thenCompare_isSome (h _ List.mem_cons_self) (ih fun p hp => h p (List.mem_cons_of_mem _ hp))

variable {comp : MCSymbol → MCSymbol → Bool}

theorem equalsExpr_matches {e e' : MCExpr} (h : equalsExpr comp e e' = some true) :
    ExprMatches (fun s s' => comp s s' = true) e e' := by
  induction e generalizing e' with
  | constant v =>
    cases e' with
    | constant v' =>
      obtain rfl : v = v' := by simpa [equalsExpr] using h
      exact .constant v
    | _ => simp [equalsExpr] at h
  | symbolRef k s =>
    cases e' with
    | symbolRef k' s' =>
      obtain ⟨rfl, hs⟩ : k = k' ∧ comp s s' = true := by simpa [equalsExpr] using h
      exact .symbolRef k hs
    | _ => simp [equalsExpr] at h
  | unary op e ih =>
    cases e' with
    | unary op' e' =>
      rw [equalsExpr] at h
      split at h
      next hop =>
        subst hop
        exact .unary op (ih h)
      · exact absurd h (by simp)
    | _ => simp [equalsExpr] at h
  | binary op l r ihl ihr =>
    cases e' with
    | binary op' l' r' =>
      rw [equalsExpr] at h
      split at h
      next hop =>
        subst hop
        obtain ⟨hl, hr⟩ := thenCompare_eq_true.mp h
        exact .binary op (ihl hl) (ihr hr)
      · exact absurd h (by simp)
    | _ => simp [equalsExpr] at h
  | target k e _ =>
    cases e' with
    | _ => simp [equalsExpr] at h

theorem equalsOperand_matches {o o' : MCOperand} (h : equalsOperand comp o o' = some true) :
    OperandMatches (fun s s' => comp s s' = true) o o' := by
  cases o with
  | reg r =>
    cases o' with
    | reg r' =>
      obtain rfl : r = r' := by simpa [equalsOperand] using h
      exact .reg r
    | _ => simp [equalsOperand] at h
  | imm v =>
    cases o' with
    | imm v' =>
      obtain rfl : v = v' := by simpa [equalsOperand] using h
      exact .imm v
    | _ => simp [equalsOperand] at h
  | expr e =>
    cases o' with
    | expr e' => exact .expr (equalsExpr_matches h)
    | _ => simp [equalsOperand] at h

theorem isInstrEquivalentWith_matches {A B : ICFFunction} {a b : ICFInst}
    (h : isInstrEquivalentWith A B comp a b = some true) :
    InstMatches (fun s s' => comp s s' = true) A B a b := by
  rw [isInstrEquivalentWith] at h
  split at h
  · exact absurd h (by simp)
  next hop =>
    split at h
    next heh =>
      rw [equalsInst] at h
      split at h
      · exact absurd h (by simp)
      · split at h
        · exact absurd h (by simp)
        next hlen =>
          exact ⟨not_not.mp hop, heh,
            (comparePairs_forall₂ h (not_not.mp hlen)).imp fun _ _ => equalsOperand_matches⟩
    · exact absurd h (by simp)

/-- No jump at the end of a block of one function is ignored because the other has none. -/
def NoIgnoredJump (I : MCInstrInfo) (A B : ICFFunction) : Prop :=
  ∀ p ∈ A.blocks.zip B.blocks, ∀ i, trailing p.1 p.2 = some i → isUnconditionalBranch I i.inst = false

theorem length_eq_of_trailing {a b : ICFBlock} (h : trailing a b = none) :
    a.insts.length = b.insts.length := by
  rw [trailing, List.head?_eq_none_iff, List.append_eq_nil_iff, List.drop_eq_nil_iff,
    List.drop_eq_nil_iff] at h
  exact Nat.le_antisymm h.1 h.2

section Compare

variable {ctx : ICFContext} {t : ICFState} {A B : Nat}

theorem isIdenticalBlock_matches {a b : ICFBlock}
    (h : isIdenticalBlock ctx t false A B a b = some true)
    (hjump : ∀ i, trailing a b = some i → isUnconditionalBranch ctx.info i.inst = false) :
    BlockMatches (fun s s' => areSymbolsIdentical ctx t false A B s s' = true) (ctx.fn A) (ctx.fn B) a b := by
  rw [isIdenticalBlock] at h
  split at h
  · exact absurd h (by simp)
  next hsuccs =>
    obtain ⟨hinsts, htrail⟩ := thenCompare_eq_true.mp h
    have hnone : trailing a b = none := by
      cases hi : trailing a b with
      | none => rfl
      | some i =>
        rw [hi, Option.all_some, hjump i hi] at htrail
        exact absurd htrail (by simp)
    exact ⟨not_not.mp hsuccs,
      (comparePairs_forall₂ hinsts (length_eq_of_trailing hnone)).imp fun _ _ =>
        isInstrEquivalentWith_matches⟩

/-- What the comparison of two functions accepts. -/
theorem matches_of_isIdentical (h : isIdenticalWith ctx t false A B = some true)
    (hjump : NoIgnoredJump ctx.info (ctx.fn A) (ctx.fn B)) :
    FunctionMatches (fun s s' => areSymbolsIdentical ctx t false A B s s' = true) (ctx.fn A) (ctx.fn B) := by
  rw [isIdenticalWith] at h
  split at h
  · exact absurd h (by simp)
  next hlen =>
    split at h
    · exact absurd h (by simp)
    · split at h
      · exact absurd h (by simp)
      · obtain ⟨hblocks, hlsda⟩ := thenCompare_eq_true.mp h
        refine ⟨?_, by simpa using hlsda⟩
        exact (forall₂_zip (comparePairs_forall₂ hblocks (not_not.mp hlen))).imp fun a b hab =>
          isIdenticalBlock_matches hab.1 (hjump (a, b) hab.2)

/-- Expressions of the target at one place: their comparison is not defined. -/
def targetsMeet : MCExpr → MCExpr → Bool
  | .unary op e, .unary op' e' => op == op' && targetsMeet e e'
  | .binary op l r, .binary op' l' r' => op == op' && (targetsMeet l l' || targetsMeet r r')
  | .target _ _, .target _ _ => true
  | _, _ => false

def operandsMeet : MCOperand → MCOperand → Bool
  | .expr e, .expr e' => targetsMeet e e'
  | _, _ => false

/-- No operands of the functions are expressions of the target at one place. -/
def NoTargets (A B : ICFFunction) : Prop :=
  ∀ p ∈ A.blocks.zip B.blocks, ∀ q ∈ p.1.insts.zip p.2.insts, q.1.inst.opcode = q.2.inst.opcode →
    ∀ o ∈ q.1.inst.operands.zip q.2.inst.operands, operandsMeet o.1 o.2 = false

theorem equalsExpr_isSome (comp : MCSymbol → MCSymbol → Bool) {e e' : MCExpr}
    (h : targetsMeet e e' = false) : (equalsExpr comp e e').isSome = true := by
  induction e generalizing e' with
  | constant v => cases e' <;> rfl
  | symbolRef k s => cases e' <;> rfl
  | target k e _ =>
    cases e' with
    | target k' e' => exact absurd h (by simp [targetsMeet])
    | _ => rfl
  | unary op e ih =>
    cases e' with
    | unary op' e' =>
      rw [equalsExpr]
      split
      next hop =>
        rw [targetsMeet, hop, beq_self_eq_true, Bool.true_and] at h
        exact ih h
      · rfl
    | _ => rfl
  | binary op l r ihl ihr =>
    cases e' with
    | binary op' l' r' =>
      rw [equalsExpr]
      split
      next hop =>
        rw [targetsMeet, hop, beq_self_eq_true, Bool.true_and, Bool.or_eq_false_iff] at h
        exact thenCompare_isSome (ihl h.1) (ihr h.2)
      · rfl
    | _ => rfl

theorem equalsOperand_isSome (comp : MCSymbol → MCSymbol → Bool) {o o' : MCOperand}
    (h : operandsMeet o o' = false) : (equalsOperand comp o o').isSome = true := by
  cases o with
  | reg r => cases o' <;> rfl
  | imm v => cases o' <;> rfl
  | expr e =>
    cases o' with
    | expr e' => exact equalsExpr_isSome comp h
    | _ => rfl

/-- The comparison is defined. -/
theorem isIdenticalWith_isSome (congruent : Bool) (h : NoTargets (ctx.fn A) (ctx.fn B)) :
    (isIdenticalWith ctx t congruent A B).isSome = true := by
  rw [isIdenticalWith]
  split
  · rfl
  split
  · rfl
  split
  · rfl
  refine thenCompare_isSome (comparePairs_isSome fun p hp => ?_) rfl
  rw [isIdenticalBlock]
  split
  · rfl
  refine thenCompare_isSome (comparePairs_isSome fun q hq => ?_) rfl
  rw [isInstrEquivalentWith]
  split
  · rfl
  next hop =>
    split
    · rw [equalsInst]
      split
      · rfl
      split
      · rfl
      exact comparePairs_isSome fun o ho => equalsOperand_isSome _ (h p hp q hq (not_not.mp hop) o ho)
    · rfl

end Compare

/-! ## Symbols -/

section Symbols

variable {ctx : ICFContext} {t : ICFState}

/-- The functions as disassembly leaves them: the table of symbols holds the symbols of the
functions and of their secondary entries, temporary symbols are labels, and a jump table belongs to
the function that refers to it. -/
structure ICFContext.InCFGState (ctx : ICFContext) : Prop where
  symbols : ∀ f s, s ∈ (ctx.fn f).symbols → ctx.symbolToFunction s = some f
  mapped : ∀ f s, ctx.symbolToFunction s = some f → s ∈ (ctx.fn f).symbols ∨ s ∈ (ctx.fn f).entries
  temporary : ∀ s, ctx.isTemporary s = true → ctx.symbolToFunction s = none ∧ ctx.dataAddress s = none
  placed : ∀ f, (ctx.fn f).Placed ctx
  tables : ∀ f k s a, (ctx.fn f).Refers s → ctx.dataAddress s = some a →
    ((ctx.fn k).getJumpTableContainingAddress a).isSome = true → f = k

/-- The condition on the functions. -/
structure ICFContext.Foldable (ctx : ICFContext) : Prop where
  /-- Where functions may be compared, no expressions of the target meet. -/
  targets : ∀ f k, f ≠ k → (ctx.fn f).hash = (ctx.fn k).hash → NoTargets (ctx.fn f) (ctx.fn k)
  /-- And no jump is ignored. -/
  jumps : ∀ f k, f ≠ k → (ctx.fn f).hash = (ctx.fn k).hash → NoIgnoredJump ctx.info (ctx.fn f) (ctx.fn k)
  /-- No operand names the first secondary entry of a function. -/
  entries : ∀ f s, (ctx.fn f).Refers s → ∀ k, (ctx.fn k).entries.head? ≠ some s

/-- What holds of the table of symbols in every state. -/
structure Resolved (ctx : ICFContext) (t : ICFState) : Prop where
  symbols : ∀ f s, s ∈ t.symbols f → t.symbolToFunction s = some f
  mapped : ∀ f s, t.symbolToFunction s = some f → s ∈ t.symbols f ∨ s ∈ (ctx.fn f).entries
  temporary : ∀ s, ctx.isTemporary s = true → t.symbolToFunction s = none
  resolves : ∀ f, ∃ g, g ∉ t.folded.map Prod.fst ∧ ∀ s ∈ (ctx.fn f).symbols, s ∈ t.symbols g

/-- Two symbols of functions that are folded together. -/
def Together (t : ICFState) (s s' : MCSymbol) : Prop := ∃ f, s ∈ t.symbols f ∧ s' ∈ t.symbols f

/-- Symbols that `C` may have in the place of those of `P`: the same, labels of corresponding
positions, the functions themselves, functions folded together, or jump tables with corresponding
targets. -/
def SymbolsAlike (ctx : ICFContext) (t : ICFState) (P C : Nat) (s s' : MCSymbol) : Prop :=
  s = s' ∨ SameLabel (ctx.fn P) (ctx.fn C) s s' ∨ (s ∈ t.symbols P ∧ s' ∈ t.symbols C) ∨ Together t s s' ∨
    equalTables ctx (ctx.fn P) (ctx.fn C) s s' = true

/-- Two functions of the same layout, successors and instructions up to symbols. -/
def Alike (ctx : ICFContext) (t : ICFState) (P C : Nat) : Prop :=
  FunctionMatches (SymbolsAlike ctx t P C) (ctx.fn P) (ctx.fn C)

/-- What the comparison of two symbols accepts. -/
def Accepted (ctx : ICFContext) (t : ICFState) (A B : Nat) (s s' : MCSymbol) : Prop :=
  s = s' ∨ (ctx.isTemporary s = true ∧ ctx.isTemporary s' = true) ∨ (s ∈ t.symbols A ∧ s' ∈ t.symbols B) ∨
    Together t s s' ∨
    ((∀ f, s ∉ t.symbols f) ∧ (∀ f, s' ∉ t.symbols f) ∧ equalTables ctx (ctx.fn A) (ctx.fn B) s s' = true)

variable {s s' : MCSymbol}

theorem functionForSymbol_of_mem (h : Resolved ctx t) {f : Nat} (hs : s ∈ t.symbols f) :
    functionForSymbol ctx t s = some f := by
  have hid : getEntryIDForSymbol ctx t f s = 0 := by
    rw [getEntryIDForSymbol, if_neg]
    rw [List.contains_iff_mem.mpr hs, Bool.not_true, Bool.and_false]
    exact Bool.false_ne_true
  rw [functionForSymbol, h.symbols f s hs, Option.filter_some, hid]
  rfl

/-- A symbol of another kind than the first secondary entry names the function it belongs to. -/
theorem mem_of_functionForSymbol (h : Resolved ctx t) {f : Nat}
    (hentry : (ctx.fn f).entries.head? ≠ some s) (hs : functionForSymbol ctx t s = some f) :
    s ∈ t.symbols f := by
  obtain ⟨hmap, hid⟩ := Option.filter_eq_some_iff.mp hs
  rcases h.mapped f s hmap with hmem | hmem
  · exact hmem
  · by_contra hnot
    rw [beq_iff_eq, getEntryIDForSymbol, if_pos] at hid
    · cases he : (ctx.fn f).entries with
      | nil => exact absurd (he ▸ hmem) List.not_mem_nil
      | cons e es =>
        rw [he] at hid hentry
        rw [List.idxOf_cons] at hid
        by_cases hes : e = s
        · exact hentry (by rw [hes]; rfl)
        · rw [cond_eq_ite, if_neg (by simpa using hes)] at hid
          exact absurd hid (Nat.succ_ne_zero _)
    · have hcontains : (t.symbols f).contains s = false := by
        rw [← Bool.not_eq_true, List.contains_iff_mem]
        exact hnot
      rw [hcontains, Bool.not_false, Bool.and_true, ICFFunction.isMultiEntry, Bool.not_eq_true',
        List.isEmpty_eq_false_iff]
      exact List.ne_nil_of_mem hmem

theorem accepted_of_identical (h : Resolved ctx t) {A B : Nat}
    (hs : ∀ k, (ctx.fn k).entries.head? ≠ some s) (hs' : ∀ k, (ctx.fn k).entries.head? ≠ some s')
    (hident : areSymbolsIdentical ctx t false A B s s' = true) : Accepted ctx t A B s s' := by
  rw [areSymbolsIdentical] at hident
  split at hident
  next heq => exact .inl heq
  split at hident
  next htemp => exact .inr (.inl (by simpa using htemp))
  split at hident
  next f g hf hg =>
    have hmem := mem_of_functionForSymbol h (hs f) hf
    have hmem' := mem_of_functionForSymbol h (hs' g) hg
    split at hident
    next hself =>
      obtain ⟨rfl, rfl⟩ := hself
      exact .inr (.inr (.inl ⟨hmem, hmem'⟩))
    · rw [if_neg Bool.false_ne_true, beq_iff_eq] at hident
      subst hident
      exact .inr (.inr (.inr (.inl ⟨f, hmem, hmem'⟩)))
  next hf hg =>
    refine .inr (.inr (.inr (.inr ⟨fun f hx => ?_, fun f hx => ?_, hident⟩)))
    · rw [functionForSymbol_of_mem h hx] at hf
      exact absurd hf (by simp)
    · rw [functionForSymbol_of_mem h hx] at hg
      exact absurd hg (by simp)
  · exact absurd hident Bool.false_ne_true

/-- The tables of two symbols that are equal. -/
theorem equalTables_iff {A B : ICFFunction} :
    equalTables ctx A B s s' = true ↔ ∃ a b u v, ctx.dataAddress s = some a ∧ ctx.dataAddress s' = some b ∧
      A.getJumpTableContainingAddress a = some u ∧ B.getJumpTableContainingAddress b = some v ∧
      a - u.address = b - v.address ∧ u.entrySize = v.entrySize ∧ u.type = v.type ∧ u.getSize = v.getSize ∧
      u.entries.map A.layoutIndex = v.entries.map B.layoutIndex := by
  rw [equalTables]
  constructor
  · intro h
    split at h
    next a b ha hb =>
      split at h
      next u v hu hv =>
        simp only [equalJumpTables, Bool.and_eq_true, beq_iff_eq] at h
        obtain ⟨hoff, ⟨⟨hentry, htype⟩, hsize⟩, hmap⟩ := h
        exact ⟨a, b, u, v, ha, hb, hu, hv, hoff, hentry, htype, hsize, hmap⟩
      · exact absurd h Bool.false_ne_true
    · exact absurd h Bool.false_ne_true
  · rintro ⟨a, b, u, v, ha, hb, hu, hv, hoff, hentry, htype, hsize, hmap⟩
    rw [ha, hb]
    simp only [hu, hv, equalJumpTables, hoff, hentry, htype, hsize, hmap, beq_self_eq_true,
      Bool.and_self]

theorem equalTables_compose {A B K : ICFFunction} {q : MCSymbol}
    (h : equalTables ctx A K s q = true) (h' : equalTables ctx B K s' q = true) :
    equalTables ctx A B s s' = true := by
  obtain ⟨a, c, u, x, ha, hc, hu, hx, hoff, hentry, htype, hsize, hmap⟩ := equalTables_iff.mp h
  obtain ⟨b, c', v, x', hb, hc', hv, hx', hoff', hentry', htype', hsize',
    hmap'⟩ := equalTables_iff.mp h'
  obtain rfl := Option.some.inj (hc.symm.trans hc')
  obtain rfl := Option.some.inj (hx.symm.trans hx')
  exact equalTables_iff.mpr ⟨a, b, u, v, ha, hb, hu, hv, hoff.trans hoff'.symm, hentry.trans hentry'.symm,
    htype.trans htype'.symm, hsize.trans hsize'.symm, hmap.trans hmap'.symm⟩

theorem equalTables_symm {A B : ICFFunction} (h : equalTables ctx A B s s' = true) :
    equalTables ctx B A s' s = true := by
  obtain ⟨a, b, u, v, ha, hb, hu, hv, hoff, hentry, htype, hsize, hmap⟩ := equalTables_iff.mp h
  exact equalTables_iff.mpr ⟨b, a, v, u, hb, ha, hv, hu, hoff.symm, hentry.symm, htype.symm, hsize.symm,
    hmap.symm⟩

/-- No function of the bucket refers to another one that refers to itself. -/
def NoSharedRecursion (ctx : ICFContext) (t : ICFState) (bucket : List Nat) : Prop :=
  ∀ f ∈ bucket, ∀ k ∈ bucket, f ≠ k → ∀ q ∈ t.symbols k, (ctx.fn k).Refers q →
    ∀ s ∈ t.symbols k, ¬ (ctx.fn f).Refers s

/-- Two symbols that were accepted for one symbol of a key. -/
theorem accepted_compose (hctx : ctx.InCFGState) (h : Resolved ctx t) {bucket : List Nat}
    (hrec : NoSharedRecursion ctx t bucket) {P K C : Nat} (hP : P ∈ bucket) (hK : K ∈ bucket)
    (hC : C ∈ bucket) {q : MCSymbol} (hs : (ctx.fn P).Refers s) (hq : (ctx.fn K).Refers q)
    (hs' : (ctx.fn C).Refers s') (hPK : Accepted ctx t P K s q) (hCK : Accepted ctx t C K s' q) :
    SymbolsAlike ctx t P C s s' ∨ ctx.isTemporary s = true ∧ ctx.isTemporary s' = true := by
  have hlabel : ∀ {x f}, ctx.isTemporary x = true → x ∉ t.symbols f := by
    intro x f hx hmem
    exact absurd ((h.symbols f x hmem).symm.trans (h.temporary x hx)) (by simp)
  have hdata : ∀ {x y A B}, ctx.isTemporary y = true → equalTables ctx A B x y ≠ true := by
    intro x y A B hy htables
    obtain ⟨a, b, -, -, -, hb, -⟩ := equalTables_iff.mp htables
    exact absurd (hb.symm.trans (hctx.temporary y hy).2) (by simp)
  have howner : ∀ {x f g}, x ∈ t.symbols f → x ∈ t.symbols g → f = g := by
    intro x f g hf hg
    exact Option.some.inj ((h.symbols f x hf).symm.trans (h.symbols g x hg))
  -- a function that refers to a symbol of `K`, which refers to itself, is `K`
  have hself : ∀ {f x y}, f ∈ bucket → y ∈ t.symbols K → (ctx.fn K).Refers y → x ∈ t.symbols K →
      (ctx.fn f).Refers x → f = K := by
    intro f x y hf hy hKy hx hfx
    by_contra hne
    exact hrec f hf K hK hne y hy hKy x hx hfx
  -- a function that refers to a table of `K` is `K`
  have htable : ∀ {f A x y}, equalTables ctx A (ctx.fn K) x y = true → (ctx.fn f).Refers y → f = K := by
    intro f A x y htables hy
    obtain ⟨-, b, -, v, -, hb, -, hv, -⟩ := equalTables_iff.mp htables
    exact hctx.tables f K y b hy hb (by rw [hv]; rfl)
  rcases hPK with rfl | ⟨htemp, hqtemp⟩ | ⟨hsP, hqK⟩ | ⟨f, hsf, hqf⟩ | ⟨hsnone, hqnone, htables⟩
  · rcases hCK with rfl | ⟨hs'temp, hqtemp⟩ | ⟨hs'C, hqK⟩ | ⟨g, hs'g, hqg⟩ | ⟨-, -, htables'⟩
    · exact .inl (.inl rfl)
    · exact .inr ⟨hqtemp, hs'temp⟩
    · obtain rfl := hself hP hqK hq hqK hs
      exact .inl (.inr (.inr (.inl ⟨hqK, hs'C⟩)))
    · exact .inl (.inr (.inr (.inr (.inl ⟨g, hqg, hs'g⟩))))
    · obtain rfl := htable htables' hs
      exact .inl (.inr (.inr (.inr (.inr (equalTables_symm htables')))))
  · rcases hCK with rfl | ⟨hs'temp, -⟩ | ⟨-, hqK⟩ | ⟨g, -, hqg⟩ | ⟨-, -, htables'⟩
    · exact .inr ⟨htemp, hqtemp⟩
    · exact .inr ⟨htemp, hs'temp⟩
    · exact absurd hqK (hlabel hqtemp)
    · exact absurd hqg (hlabel hqtemp)
    · exact absurd htables' (hdata hqtemp)
  · rcases hCK with rfl | ⟨-, hqtemp⟩ | ⟨hs'C, -⟩ | ⟨g, hs'g, hqg⟩ | ⟨-, hqnone, -⟩
    · obtain rfl := hself hC hqK hq hqK hs'
      exact .inl (.inr (.inr (.inl ⟨hsP, hqK⟩)))
    · exact absurd hqK (hlabel hqtemp)
    · exact .inl (.inr (.inr (.inl ⟨hsP, hs'C⟩)))
    · obtain rfl := howner hqg hqK
      obtain rfl := hself hC hqK hq hs'g hs'
      exact .inl (.inr (.inr (.inl ⟨hsP, hs'g⟩)))
    · exact absurd hqK (hqnone K)
  · rcases hCK with rfl | ⟨-, hqtemp⟩ | ⟨hs'C, hqK⟩ | ⟨g, hs'g, hqg⟩ | ⟨-, hqnone, -⟩
    · exact .inl (.inr (.inr (.inr (.inl ⟨f, hsf, hqf⟩))))
    · exact absurd hqf (hlabel hqtemp)
    · obtain rfl := howner hqf hqK
      obtain rfl := hself hP hqK hq hsf hs
      exact .inl (.inr (.inr (.inl ⟨hsf, hs'C⟩)))
    · obtain rfl := howner hqf hqg
      exact .inl (.inr (.inr (.inr (.inl ⟨f, hsf, hs'g⟩))))
    · exact absurd hqf (hqnone f)
  · rcases hCK with rfl | ⟨-, hqtemp⟩ | ⟨-, hqK⟩ | ⟨g, -, hqg⟩ | ⟨-, -, htables'⟩
    · obtain rfl := htable htables hs'
      exact .inl (.inr (.inr (.inr (.inr htables))))
    · exact absurd htables (hdata hqtemp)
    · exact absurd hqK (hqnone K)
    · exact absurd hqg (hqnone g)
    · exact .inl (.inr (.inr (.inr (.inr (equalTables_compose htables htables')))))

/-- A function that was put into the bucket of a key. -/
def SameAs (ctx : ICFContext) (t : ICFState) (f k : Nat) : Prop :=
  f = k ∨ (f ≠ k ∧ (ctx.fn f).hash = (ctx.fn k).hash ∧ isIdenticalWith ctx t false f k = some true)

theorem matches_of_sameAs (hfold : ctx.Foldable) (h : Resolved ctx t) {f k : Nat}
    (hsame : SameAs ctx t f k) : FunctionMatches (Accepted ctx t f k) (ctx.fn f) (ctx.fn k) := by
  rcases hsame with rfl | ⟨hne, hhash, hident⟩
  · exact .refl (fun s => .inl rfl) _
  · refine (matches_of_isIdentical hident (hfold.jumps f k hne hhash)).compose
      (FunctionMatches.refl (R := Eq) (fun _ => rfl) (ctx.fn k)) ?_
    rintro s _ s' hs hs' - hident' rfl
    exact accepted_of_identical h (hfold.entries f s hs) (hfold.entries k s' hs') hident'

/-- **Functions that were compared with one key are alike.** -/
theorem alike_of_twins (hctx : ctx.InCFGState) (hfold : ctx.Foldable) (h : Resolved ctx t)
    {bucket : List Nat} (hrec : NoSharedRecursion ctx t bucket) {P K C : Nat} (hP : P ∈ bucket)
    (hK : K ∈ bucket) (hC : C ∈ bucket) (hPK : SameAs ctx t P K) (hCK : SameAs ctx t C K) :
    Alike ctx t P C := by
  have hmatch := (matches_of_sameAs hfold h hPK).compose (matches_of_sameAs hfold h hCK)
    fun s q s' hs hq hs' => accepted_compose hctx h hrec hP hK hC hs hq hs'
  refine hmatch.labels (hctx.placed P) (hctx.placed C) (fun s s' hs => hs) ?_
  exact fun s s' hs => .inr (.inl hs)

end Symbols

/-! ## Buckets -/

section Buckets

variable {ctx : ICFContext} {t : ICFState} {congruent : Bool}

/-- The members of a bucket are the same as its key, which is one of them. -/
def BucketsOk (ctx : ICFContext) (t : ICFState) (buckets : List (Nat × List Nat)) : Prop :=
  ∀ b ∈ buckets, b.1 ∈ b.2 ∧ ∀ f ∈ b.2, SameAs ctx t f b.1

variable (congruent) in
/-- A function is put into one bucket. -/
theorem insertFunction_spec (hfold : ctx.Foldable) (f : Nat) (buckets : List (Nat × List Nat)) :
    ∃ buckets', insertFunction ctx t congruent f buckets = some buckets' ∧
      (buckets'.flatMap Prod.snd).Perm (f :: buckets.flatMap Prod.snd) ∧
      (congruent = false → BucketsOk ctx t buckets → BucketsOk ctx t buckets') := by
  induction buckets with
  | nil =>
    refine ⟨[(f, [f])], rfl, .refl _, fun _ _ b hb => ?_⟩
    obtain rfl := List.mem_singleton.mp hb
    refine ⟨List.mem_singleton_self f, fun g hg => ?_⟩
    exact .inl (List.mem_singleton.mp hg)
  | cons b rest ih =>
    obtain ⟨k, fs⟩ := b
    obtain ⟨rest', hrest, hperm, hok⟩ := ih
    have hother : ∃ buckets', (insertFunction ctx t congruent f rest).map ((k, fs) :: ·) = some buckets' ∧
        (buckets'.flatMap Prod.snd).Perm (f :: ((k, fs) :: rest).flatMap Prod.snd) ∧
        (congruent = false → BucketsOk ctx t ((k, fs) :: rest) → BucketsOk ctx t buckets') := by
      refine ⟨(k, fs) :: rest', by rw [hrest]; rfl, ?_, fun hc h => ?_⟩
      · rw [List.flatMap_cons, List.flatMap_cons]
        exact (hperm.append_left fs).trans List.perm_middle
      · intro b hb
        rcases List.mem_cons.mp hb with rfl | hb
        · exact h _ List.mem_cons_self
        · exact hok hc (fun b hb => h b (List.mem_cons_of_mem _ hb)) b hb
    rw [insertFunction]
    by_cases hhash : (ctx.fn f).hash = (ctx.fn k).hash
    · rw [if_pos hhash]
      have hdefined : ∃ same, (if f = k then some true else isIdenticalWith ctx t congruent f k) = some same ∧
          (same = true → f = k ∨ (f ≠ k ∧ isIdenticalWith ctx t congruent f k = some true)) := by
        by_cases heq : f = k
        · exact ⟨true, if_pos heq, fun _ => .inl heq⟩
        · obtain ⟨same, hsame⟩ := Option.isSome_iff_exists.mp
            (isIdenticalWith_isSome (t := t) congruent (hfold.targets f k heq hhash))
          refine ⟨same, by rw [if_neg heq, hsame], fun htrue => .inr ⟨heq, ?_⟩⟩
          rw [hsame, htrue]
      obtain ⟨same, hsame, htrue⟩ := hdefined
      rw [hsame, Option.bind_some]
      by_cases hs : same = true
      · rw [if_pos hs]
        refine ⟨_, rfl, ?_, fun hc h => ?_⟩
        · rw [List.flatMap_cons, List.flatMap_cons, List.append_assoc, List.singleton_append]
          exact List.perm_middle
        · intro b hb
          rcases List.mem_cons.mp hb with rfl | hb
          · obtain ⟨hkey, hmem⟩ := h _ List.mem_cons_self
            refine ⟨List.mem_append_left _ hkey, fun g hg => ?_⟩
            rcases List.mem_append.mp hg with hg | hg
            · exact hmem g hg
            · obtain rfl := List.mem_singleton.mp hg
              rw [hc] at htrue
              exact (htrue hs).imp_right fun hx => ⟨hx.1, hhash, hx.2⟩
          · exact h b (List.mem_cons_of_mem _ hb)
      · rw [if_neg hs]
        exact hother
    · rw [if_neg hhash]
      exact hother

variable (congruent) in
/-- The table of buckets holds every function once. -/
theorem makeBuckets_spec (hfold : ctx.Foldable) (fs : List Nat) :
    ∃ buckets, makeBuckets ctx t congruent fs = some buckets ∧ (buckets.flatMap Prod.snd).Perm fs ∧
      (congruent = false → BucketsOk ctx t buckets) := by
  have hfrom : ∀ (fs : List Nat) (buckets : List (Nat × List Nat)),
      ∃ buckets', fs.foldlM (fun buckets f => insertFunction ctx t congruent f buckets) buckets = some buckets' ∧
        (buckets'.flatMap Prod.snd).Perm (fs ++ buckets.flatMap Prod.snd) ∧
        (congruent = false → BucketsOk ctx t buckets → BucketsOk ctx t buckets') := by
    intro fs
    induction fs with
    | nil => exact fun buckets => ⟨buckets, rfl, .refl _, fun _ h => h⟩
    | cons f fs ih =>
      intro buckets
      obtain ⟨b₁, hb₁, hperm₁, hok₁⟩ := insertFunction_spec (t := t) congruent hfold f buckets
      obtain ⟨b₂, hb₂, hperm₂, hok₂⟩ := ih b₁
      refine ⟨b₂, ?_, ?_, fun hc h => hok₂ hc (hok₁ hc h)⟩
      · rw [List.foldlM_cons, hb₁]
        exact hb₂
      · exact (hperm₂.trans (hperm₁.append_left fs)).trans List.perm_middle
  obtain ⟨buckets, hbuckets, hperm, hok⟩ := hfrom fs []
  refine ⟨buckets, hbuckets, ?_, fun hc => hok hc fun b hb => absurd hb List.not_mem_nil⟩
  rwa [List.flatMap_nil, List.append_nil] at hperm

/-! ## Folding -/

/-- A function folded into one that is left. -/
theorem Resolved.foldFunction (h : Resolved ctx t) {child parent : Nat} (hne : child ≠ parent)
    (hparent : parent ∉ t.folded.map Prod.fst) : Resolved ctx (foldFunction t child parent) where
  symbols f s hs := by
    simp only [Bolt.foldFunction] at hs ⊢
    by_cases hchild : s ∈ t.symbols child
    · rw [if_pos hchild]
      by_cases hf : f = child
      · rw [if_pos hf] at hs
        exact absurd hs List.not_mem_nil
      · rw [if_neg hf] at hs
        by_cases hf' : f = parent
        · rw [hf']
        · rw [if_neg hf'] at hs
          have hmap := (h.symbols f s hs).symm.trans (h.symbols child s hchild)
          exact absurd (Option.some.inj hmap) hf
    · rw [if_neg hchild]
      split at hs
      · exact absurd hs List.not_mem_nil
      · split at hs
        next hf' =>
          rcases List.mem_append.mp hs with hs | hs
          · rw [hf']
            exact h.symbols parent s hs
          · exact absurd hs hchild
        · exact h.symbols f s hs
  mapped f s hs := by
    simp only [Bolt.foldFunction] at hs ⊢
    by_cases hchild : s ∈ t.symbols child
    · rw [if_pos hchild] at hs
      obtain rfl := Option.some.inj hs
      left
      rw [if_neg (Ne.symm hne), if_pos rfl]
      exact List.mem_append_right _ hchild
    · rw [if_neg hchild] at hs
      refine (h.mapped f s hs).imp_left fun hmem => ?_
      rw [if_neg (by rintro rfl; exact hchild hmem)]
      split
      next hf => exact List.mem_append_left _ (hf ▸ hmem)
      · exact hmem
  temporary s hs := by
    simp only [Bolt.foldFunction]
    rw [if_neg]
    · exact h.temporary s hs
    · intro hchild
      exact absurd ((h.symbols child s hchild).symm.trans (h.temporary s hs)) (by simp)
  resolves f := by
    simp only [Bolt.foldFunction, List.map_append, List.mem_append, List.map_cons, List.map_nil,
      List.mem_singleton, not_or]
    obtain ⟨g, hg, hmem⟩ := h.resolves f
    by_cases hgc : g = child
    · refine ⟨parent, ⟨hparent, Ne.symm hne⟩, fun s hs => ?_⟩
      rw [if_neg (Ne.symm hne), if_pos rfl]
      exact List.mem_append_right _ (hgc ▸ hmem s hs)
    · refine ⟨g, ⟨hg, hgc⟩, fun s hs => ?_⟩
      rw [if_neg hgc]
      split
      next hgp => exact List.mem_append_left _ (hgp ▸ hmem s hs)
      · exact hmem s hs

/-- The twins of a bucket folded: each into the first of them. -/
theorem foldTwins_spec (h : Resolved ctx t) {fs : List Nat} (hnodup : fs.Nodup)
    (hlive : ∀ f ∈ fs, f ∉ t.folded.map Prod.fst) :
    Resolved ctx (foldTwins ctx t fs) ∧ (foldTwins ctx t fs).buckets = t.buckets ∧
      ∃ new, (foldTwins ctx t fs).folded = t.folded ++ new ∧ ∀ p ∈ new, p.1 ∈ fs ∧ p.2 ∈ fs ∧ p.1 ≠ p.2 := by
  have hperm : (sortTwins ctx fs).Perm fs := List.perm_insertionSort _ _
  rw [foldTwins]
  cases hsort : sortTwins ctx fs with
  | nil => exact ⟨h, rfl, [], (List.append_nil _).symm, fun p hp => absurd hp List.not_mem_nil⟩
  | cons parent children =>
    rw [hsort] at hperm
    obtain ⟨hparent, -⟩ := List.nodup_cons.mp (hperm.nodup_iff.mpr hnodup)
    have hlive' : parent ∉ t.folded.map Prod.fst := hlive _ (hperm.subset List.mem_cons_self)
    have hfrom : ∀ (cs : List Nat) (t : ICFState), Resolved ctx t → parent ∉ cs →
        parent ∉ t.folded.map Prod.fst →
        Resolved ctx (cs.foldl (fun t c => foldFunction t c parent) t) ∧
          (cs.foldl (fun t c => foldFunction t c parent) t).buckets = t.buckets ∧
          (cs.foldl (fun t c => foldFunction t c parent) t).folded = t.folded ++ cs.map (·, parent) := by
      intro cs
      induction cs with
      | nil => exact fun t h _ _ => ⟨h, rfl, (List.append_nil _).symm⟩
      | cons c cs ih =>
        intro t h hcs hp
        rw [List.mem_cons, not_or] at hcs
        obtain ⟨hres, hbuckets, hfolded⟩ := ih (foldFunction t c parent)
          (h.foldFunction (Ne.symm hcs.1) hp) hcs.2 (by
            rw [foldFunction, List.map_append, List.mem_append, not_or]
            exact ⟨hp, by simpa using hcs.1⟩)
        refine ⟨hres, hbuckets, ?_⟩
        rw [List.foldl_cons, hfolded, foldFunction, List.append_assoc]
        rfl
    obtain ⟨hres, hbuckets, hfolded⟩ := hfrom children t h hparent hlive'
    refine ⟨hres, hbuckets, children.map (·, parent), hfolded, fun p hp => ?_⟩
    obtain ⟨c, hc, rfl⟩ := List.mem_map.mp hp
    exact ⟨hperm.subset (List.mem_cons_of_mem _ hc), hperm.subset List.mem_cons_self,
      fun hcp : c = parent => hparent (hcp ▸ hc)⟩

/-- All twins of a bucket folded. -/
theorem foldBuckets_spec (buckets : List (Nat × List Nat)) (h : Resolved ctx t)
    (hnodup : (buckets.flatMap Prod.snd).Nodup)
    (hlive : ∀ f ∈ buckets.flatMap Prod.snd, f ∉ t.folded.map Prod.fst) :
    Resolved ctx (buckets.foldl (fun t b => foldTwins ctx t b.2) t) ∧
      (buckets.foldl (fun t b => foldTwins ctx t b.2) t).buckets = t.buckets ∧
      ∃ new, (buckets.foldl (fun t b => foldTwins ctx t b.2) t).folded = t.folded ++ new ∧
        ∀ p ∈ new, ∃ b ∈ buckets, p.1 ∈ b.2 ∧ p.2 ∈ b.2 ∧ p.1 ≠ p.2 := by
  induction buckets generalizing t with
  | nil => exact ⟨h, rfl, [], (List.append_nil _).symm, fun p hp => absurd hp List.not_mem_nil⟩
  | cons b rest ih =>
    rw [List.flatMap_cons] at hnodup hlive
    obtain ⟨hb, hrest, hapart⟩ := List.nodup_append.mp hnodup
    obtain ⟨hres, hbuckets, new, hnew, hmem⟩ :=
      foldTwins_spec h hb fun f hf => hlive f (List.mem_append_left _ hf)
    obtain ⟨hres', hbuckets', new', hnew', hmem'⟩ := ih hres hrest (by
      intro f hf hfolded
      rw [hnew, List.map_append, List.mem_append] at hfolded
      rcases hfolded with hold | hjust
      · exact hlive f (List.mem_append_right _ hf) hold
      · obtain ⟨p, hp, rfl⟩ := List.mem_map.mp hjust
        exact hapart _ (hmem p hp).1 _ hf rfl)
    refine ⟨hres', hbuckets'.trans hbuckets, new ++ new', ?_, fun p hp => ?_⟩
    · rw [List.foldl_cons, hnew', hnew, List.append_assoc]
    · rcases List.mem_append.mp hp with hp | hp
      · exact ⟨b, List.mem_cons_self, hmem p hp⟩
      · obtain ⟨b', hb', hp'⟩ := hmem' p hp
        exact ⟨b', List.mem_cons_of_mem _ hb', hp'⟩

end Buckets

/-! ## The pass -/

section Pass

variable {ctx : ICFContext} {t : ICFState}

/-- What holds of every state of the pass. -/
structure PassOk (ctx : ICFContext) (t : ICFState) : Prop where
  resolved : Resolved ctx t
  nodup : t.buckets.flatten.Nodup
  live : ∀ f ∈ t.buckets.flatten, f ∉ t.folded.map Prod.fst

theorem getD_nodup {buckets : List (List Nat)} (h : buckets.flatten.Nodup) (k : Nat) :
    (buckets.getD k []).Nodup ∧ ∀ f ∈ buckets.getD k [], f ∈ buckets.flatten := by
  rw [List.getD_eq_getElem?_getD]
  cases hk : buckets[k]? with
  | none => exact ⟨List.nodup_nil, fun f hf => absurd hf List.not_mem_nil⟩
  | some b =>
    have hb := List.mem_of_getElem? hk
    exact ⟨(List.nodup_flatten.mp h).1 b hb, fun f hf => List.mem_flatten.mpr ⟨b, hb, hf⟩⟩

/-- A bucket that has lost members. -/
theorem flatten_set_spec {buckets : List (List Nat)} (h : buckets.flatten.Nodup) (k : Nat)
    {b : List Nat}
    (hb : b.Sublist (buckets.getD k [])) :
    (buckets.set k b).flatten.Nodup ∧ ∀ f ∈ (buckets.set k b).flatten,
      f ∈ b ∨ (f ∈ buckets.flatten ∧ f ∉ buckets.getD k []) := by
  induction buckets generalizing k with
  | nil => exact ⟨h, fun f hf => absurd hf List.not_mem_nil⟩
  | cons c rest ih =>
    rw [List.flatten_cons] at h
    obtain ⟨hc, hrest, hapart⟩ := List.nodup_append.mp h
    cases k with
    | zero =>
      rw [List.set_cons_zero, List.flatten_cons]
      rw [List.getD_cons_zero] at hb ⊢
      refine ⟨List.nodup_append.mpr ⟨hb.nodup hc, hrest, fun x hx => hapart x (hb.subset hx)⟩,
        fun f hf => ?_⟩
      rcases List.mem_append.mp hf with hf | hf
      · exact .inl hf
      · exact .inr ⟨List.mem_append_right _ hf, fun hx => hapart f hx f hf rfl⟩
    | succ k =>
      rw [List.set_cons_succ, List.flatten_cons]
      rw [List.getD_cons_succ] at hb ⊢
      obtain ⟨hnodup, hmem⟩ := ih hrest k hb
      have hsub : ∀ f ∈ (rest.set k b).flatten, f ∈ rest.flatten := by
        intro f hf
        rcases hmem f hf with hf | hf
        · exact (getD_nodup hrest k).2 f (hb.subset hf)
        · exact hf.1
      refine ⟨List.nodup_append.mpr ⟨hc, hnodup, fun x hx y hy => hapart x hx y (hsub y hy)⟩,
        fun f hf => ?_⟩
      rcases List.mem_append.mp hf with hf | hf
      · exact .inr ⟨List.mem_append_left _ hf, fun hx => hapart f hf f ((getD_nodup hrest k).2 f hx) rfl⟩
      · exact (hmem f hf).imp_right fun hx => ⟨List.mem_append_right _ hx.1, hx.2⟩

/-- **One bucket**: every function that is folded is like the one it is folded into. -/
theorem processSingleBucket_spec (hctx : ctx.InCFGState) (hfold : ctx.Foldable) (h : PassOk ctx t)
    (k : Nat)
    (hrec : NoSharedRecursion ctx t (t.buckets.getD k [])) :
    ∃ t', processSingleBucket ctx t k = some t' ∧ PassOk ctx t' ∧
      ∀ p ∈ t'.folded, p ∉ t.folded → Alike ctx t p.2 p.1 := by
  obtain ⟨hbucket, hflatten⟩ := getD_nodup h.nodup k
  obtain ⟨identical, hidentical, hperm, hok⟩ := makeBuckets_spec (t := t) false hfold
    (t.buckets.getD k [])
  have hnodup := hperm.nodup_iff.mpr hbucket
  obtain ⟨hres, hbuckets, new, hnew, hmem⟩ := foldBuckets_spec identical h.resolved hnodup
    fun f hf => h.live f (hflatten f (hperm.subset hf))
  have hin : ∀ b ∈ identical, ∀ f ∈ b.2, f ∈ t.buckets.getD k [] :=
    fun b hb f hf => hperm.subset (List.mem_flatMap.mpr ⟨b, hb, hf⟩)
  refine ⟨_, by rw [processSingleBucket, hidentical]; rfl, ?_, ?_⟩
  · obtain ⟨hset, hset'⟩ := flatten_set_spec h.nodup k (b := (t.buckets.getD k []).filter fun f =>
      decide (f ∉ (identical.foldl (fun t b => foldTwins ctx t b.2) t).folded.map Prod.fst))
      List.filter_sublist
    refine ⟨⟨hres.symbols, hres.mapped, hres.temporary, hres.resolves⟩, hset, fun f hf => ?_⟩
    rcases hset' f hf with hf | ⟨hf, hnot⟩
    · exact of_decide_eq_true (List.mem_filter.mp hf).2
    · show f ∉ (identical.foldl (fun t b => foldTwins ctx t b.2) t).folded.map Prod.fst
      rw [hnew, List.map_append, List.mem_append, not_or]
      refine ⟨h.live f hf, fun hx => ?_⟩
      obtain ⟨p, hp, rfl⟩ := List.mem_map.mp hx
      obtain ⟨b, hb, hp', -⟩ := hmem p hp
      exact hnot (hin b hb _ hp')
  · intro p hp hpold
    have hp' : p ∈ t.folded ++ new := hnew ▸ hp
    obtain ⟨b, hb, hchild, hparent, -⟩ := hmem p ((List.mem_append.mp hp').resolve_left hpold)
    obtain ⟨hkey, hsame⟩ := hok rfl b hb
    exact alike_of_twins hctx hfold h.resolved hrec (hin b hb _ hparent) (hin b hb _ hkey)
      (hin b hb _ hchild) (hsame _ hparent) (hsame _ hchild)

theorem runBuckets_spec (hctx : ctx.InCFGState) (hfold : ctx.Foldable) (ks : List Nat) :
    ∀ t, PassOk ctx t →
      (∀ ks' t' k, runBuckets ctx ks' t = some t' → NoSharedRecursion ctx t' (t'.buckets.getD k [])) →
      ∃ t', runBuckets ctx ks t = some t' ∧ PassOk ctx t' := by
  induction ks with
  | nil => exact fun t h _ => ⟨t, rfl, h⟩
  | cons k ks ih =>
    intro t h hrec
    obtain ⟨t₁, ht₁, hok, -⟩ := processSingleBucket_spec hctx hfold h k (hrec [] t k rfl)
    obtain ⟨t', ht', hok'⟩ := ih t₁ hok fun ks' t' j hrun =>
      hrec (k :: ks') t' j (by rw [runBuckets, ht₁]; exact hrun)
    exact ⟨t', by rw [runBuckets, ht₁]; exact ht', hok'⟩

end Pass

/-! ## Small programs -/

/-- A function of one block. -/
def oneBlock (number : Nat) (insts : List MCInst) (entries : List MCSymbol) (hash : Nat) :
    ICFFunction :=
  ⟨number, hash, [10 * number], entries, false, [⟨10 * number + 1, insts.map (⟨·, none⟩), []⟩], [], ⟨[], [], []⟩⟩

/-- Two functions `addi a0, a0, 1`. -/
def twoIncrements : ICFContext where
  info := noOthers
  isTemporary s := s % 10 == 1
  dataAddress _ := none
  functions := [oneBlock 0 [⟨.addi, [.reg (gpr 10), .reg (gpr 10), .imm 1], false⟩] [] 0,
    oneBlock 1 [⟨.addi, [.reg (gpr 10), .reg (gpr 10), .imm 1], false⟩] [] 0]
  symbolToFunction s := if s = 0 then some 0 else if s = 10 then some 1 else none

/-- A call of function 2, a call of its secondary entry, and that function, which the pass leaves
alone. -/
def callEntry : ICFContext where
  info := noOthers
  isTemporary s := s % 10 == 1
  dataAddress _ := none
  functions := [oneBlock 0 [⟨.jal, [.reg (gpr 1), .expr (.symbolRef 0 20)], false⟩] [] 0,
    oneBlock 1 [⟨.jal, [.reg (gpr 1), .expr (.symbolRef 0 25)], false⟩] [] 0,
    oneBlock 2 [⟨.addi, [.reg (gpr 10), .reg (gpr 10), .imm 1], false⟩,
      ⟨.addi, [.reg (gpr 10), .reg (gpr 10), .imm 2], false⟩] [25] 1]
  symbolToFunction s :=
    if s = 0 then some 0 else if s = 10 then some 1 else if s = 20 ∨ s = 25 then some 2 else none

theorem twoIncrements_noRefs (f : Nat) (s : MCSymbol) : ¬ (twoIncrements.fn f).Refers s := by
  rintro ⟨b, hb, i, hi, hs⟩
  match f with
  | 0 | 1 =>
    obtain rfl := List.mem_singleton.mp hb
    obtain rfl := List.mem_singleton.mp hi
    exact absurd hs List.not_mem_nil
  | f + 2 => exact absurd hb List.not_mem_nil

theorem twoIncrements_inCFGState : twoIncrements.InCFGState where
  symbols f s hs := by
    match f with
    | 0 | 1 =>
      obtain rfl := List.mem_singleton.mp hs
      rfl
    | f + 2 => exact absurd hs List.not_mem_nil
  mapped f s hs := by
    simp only [twoIncrements] at hs
    split at hs
    next h0 =>
      obtain rfl := Option.some.inj hs
      subst h0
      exact .inl (List.mem_singleton_self _)
    · split at hs
      next h1 =>
        obtain rfl := Option.some.inj hs
        subst h1
        exact .inl (List.mem_singleton_self _)
      · exact absurd hs (by simp)
  temporary s hs := by
    refine ⟨?_, rfl⟩
    simp only [twoIncrements]
    rw [if_neg (by rintro rfl; exact absurd hs (by decide)),
      if_neg (by rintro rfl; exact absurd hs (by decide))]
  placed f b hb i hi s hs _ := absurd ⟨b, hb, i, hi, hs⟩ (twoIncrements_noRefs f s)
  tables f k s a hs _ _ := absurd hs (twoIncrements_noRefs f s)

theorem callEntry_refers {f : Nat} {s : MCSymbol} (h : (callEntry.fn f).Refers s) :
    (f = 0 ∧ s = 20) ∨ f = 1 ∧ s = 25 := by
  obtain ⟨b, hb, i, hi, hs⟩ := h
  match f with
  | 0 =>
    obtain rfl := List.mem_singleton.mp hb
    obtain rfl := List.mem_singleton.mp hi
    exact .inl ⟨rfl, List.mem_singleton.mp hs⟩
  | 1 =>
    obtain rfl := List.mem_singleton.mp hb
    obtain rfl := List.mem_singleton.mp hi
    exact .inr ⟨rfl, List.mem_singleton.mp hs⟩
  | 2 =>
    obtain rfl := List.mem_singleton.mp hb
    rcases List.mem_cons.mp hi with rfl | hi
    · exact absurd hs List.not_mem_nil
    · obtain rfl := List.mem_singleton.mp hi
      exact absurd hs List.not_mem_nil
  | f + 3 => exact absurd hb List.not_mem_nil

theorem callEntry_inCFGState : callEntry.InCFGState where
  symbols f s hs := by
    match f with
    | 0 | 1 | 2 =>
      obtain rfl := List.mem_singleton.mp hs
      rfl
    | f + 3 => exact absurd hs List.not_mem_nil
  mapped f s hs := by
    simp only [callEntry] at hs
    split at hs
    next h0 =>
      obtain rfl := Option.some.inj hs
      subst h0
      exact .inl (List.mem_singleton_self _)
    · split at hs
      next h1 =>
        obtain rfl := Option.some.inj hs
        subst h1
        exact .inl (List.mem_singleton_self _)
      · split at hs
        next h2 =>
          obtain rfl := Option.some.inj hs
          rcases h2 with rfl | rfl
          · exact .inl (List.mem_singleton_self _)
          · exact .inr (List.mem_singleton_self _)
        · exact absurd hs (by simp)
  temporary s hs := by
    refine ⟨?_, rfl⟩
    simp only [callEntry]
    rw [if_neg (by rintro rfl; exact absurd hs (by decide)),
      if_neg (by rintro rfl; exact absurd hs (by decide)),
      if_neg (by rintro (rfl | rfl) <;> exact absurd hs (by decide))]
  placed f b hb i hi s hs htemp := by
    rcases callEntry_refers ⟨b, hb, i, hi, hs⟩ with ⟨-, rfl⟩ | ⟨-, rfl⟩
    · exact absurd htemp (by decide)
    · exact absurd htemp (by decide)
  tables f k s a _ ha _ := absurd ha (by simp [callEntry])

end RvLlvm.Bolt
