import Mathlib.Tactic.LinearCombination
import Mathlib.Tactic.Ring
import RvLlvm.Bolt.ConstLUIReuse

/-!
# Reused constants are the constants

What `RISCVConstLUIReuse::runOnFunction` (`bolt/lib/Passes/RISCV/RISCVConstLUIReuse.cpp`, lines
606-697) leaves of the blocks of a function.

- The invariant has three parts: the registers of the map hold the values of the map in the new code
  (`Knows`), the new code and the old one agree but for registers that lost their `lui`
  (`AgreeOff`), and each of these is set before it is used and before control may leave the block
  (`DeadOk`).
- `turn_spec` is one turn of the loop, `reuseBlock_spec` a block, and `reuseFunction_run` the
  function: where every turn is clean (`CleanTurn`) and the values carried into a block hold there,
  every block does exactly what it did.
- `not_reused_otherLUI`: after a memory access has got another base, `MemPair.Sink` points at the
  instruction behind it, which is learned before it is reached.
-/

namespace RvLlvm.Bolt

open Support

/-! ## Arithmetic -/

section Arithmetic

variable {w : Nat}

/-- Registers are words, or the number fits a word. -/
def Fits (w : Nat) (x : Int) : Prop := w = 32 ∨ (-2 ^ 31 ≤ x ∧ x < 2 ^ 31)

instance (w : Nat) (x : Int) : Decidable (Fits w x) := inferInstanceAs (Decidable (_ ∨ _))

theorem ofInt_sext32 {x : Int} (h : Fits w x) : BitVec.ofInt w (sext32 x) = BitVec.ofInt w x := by
  rcases h with rfl | ⟨hlow, hhigh⟩
  · refine BitVec.eq_of_toInt_eq ?_
    rw [BitVec.toInt_ofInt, BitVec.toInt_ofInt, sext32, Int.bmod_bmod]
  · rw [sext32, Int.bmod_eq_of_le (by omega) (by omega)]

theorem ofInt_add32 {x y : Int} (h : Fits w (x + y)) :
    BitVec.ofInt w (add32 x y) = BitVec.ofInt w x + BitVec.ofInt w y := by
  rw [add32, ofInt_sext32 h, BitVec.ofInt_add]

theorem luiValue_mod (v : Int) : luiValue w (v % 2 ^ 20) = luiValue w v := by
  have hmod : (v % 2 ^ 20 * 2 ^ 12) % ((2 ^ 32 : Nat) : Int) = (v * 2 ^ 12) % ((2 ^ 32 : Nat) : Int) := by
    omega
  rw [luiValue, luiValue, ← Int.emod_bmod, hmod, Int.emod_bmod]

theorem luiValue_eq (v : Int) : luiValue w v = BitVec.ofInt w (getLUIValue v) := by
  rw [← luiValue_mod]
  rfl

/-- `%hi` and `%lo` of an address add up to it. -/
theorem hi_add_lo {x : Int} (h : Fits w (x + 0x800)) :
    luiValue w ((x + 0x800) / 2 ^ 12 % 2 ^ 20) + BitVec.ofInt w (x.bmod (2 ^ 12)) = BitVec.ofInt w x := by
  have hfits : Fits w ((x + 0x800) / 2 ^ 12 * 2 ^ 12) := by
    rcases h with rfl | ⟨hlow, hhigh⟩
    · exact .inl rfl
    · right
      omega
  have hsum : (x + 0x800) / 2 ^ 12 * 2 ^ 12 + x.bmod (2 ^ 12) = x := by
    rw [Int.bmod_def]
    split <;> omega
  rw [luiValue_mod, luiValue]
  have hsext := ofInt_sext32 hfits
  rw [sext32] at hsext
  rw [hsext, ← BitVec.ofInt_add, hsum]

end Arithmetic

/-! ## Symbols -/

/-- The value of an expression where symbols have addresses. -/
def MCExpr.eval (addr : MCSymbol → Int) : MCExpr → Int
  | .constant v => v
  | .symbolRef _ s => addr s
  | .target _ sub => sub.eval addr
  | .binary op lhs rhs =>
    if op = opAdd then lhs.eval addr + rhs.eval addr
    else if op = opSub then lhs.eval addr - rhs.eval addr
    else 0
  | .unary _ _ => 0

/-- How often the symbols of an expression are added. -/
def MCExpr.symbols : MCExpr → Int
  | .constant _ => 0
  | .symbolRef _ _ => 1
  | .target _ sub => sub.symbols
  | .binary op lhs rhs =>
    if op = opAdd then lhs.symbols + rhs.symbols
    else if op = opSub then lhs.symbols - rhs.symbols
    else 0
  | .unary _ _ => 0

theorem not_le_zero {r : MCPhysReg} (h0 : r ≠ 0) (h1 : r ≠ gpr 0) : ¬ r ≤ gpr 0 := by
  have hnat : ∀ n : Nat, n ≠ 0 → n ≠ 1 → ¬ n ≤ 1 := by omega
  exact hnat r h0 h1

theorem extractSymbolAddend_mono {e : MCExpr} {out out' : SymbolAddend} {scale : Int} {s : MCSymbol}
    (h : extractSymbolAddend e out scale = some out') (hs : out.symbol = some s) :
    out'.symbol = some s := by
  induction e generalizing out out' scale with
  | constant v =>
    obtain rfl := Option.some.inj h
    exact hs
  | symbolRef k q =>
    rw [extractSymbolAddend, hs] at h
    simp only at h
    split at h
    · exact absurd h (by simp)
    · obtain rfl := Option.some.inj h
      exact hs
  | target k sub ih => exact ih h hs
  | unary op sub => exact absurd h (by simp [extractSymbolAddend])
  | binary op lhs rhs ihl ihr =>
    rw [extractSymbolAddend] at h
    split at h
    · obtain ⟨mid, hl, hr⟩ := Option.bind_eq_some_iff.mp h
      exact ihr hr (ihl hl hs)
    · split at h
      · obtain ⟨mid, hl, hr⟩ := Option.bind_eq_some_iff.mp h
        exact ihr hr (ihl hl hs)
      · exact absurd h (by simp)

theorem extractSymbolAddend_before {e : MCExpr} {out out' : SymbolAddend} {scale : Int}
    {s : MCSymbol}
    (h : extractSymbolAddend e out scale = some out')
    (hs : out'.symbol = none ∨ out'.symbol = some s) : out.symbol = none ∨ out.symbol = some s := by
  cases hm : out.symbol with
  | none => exact .inl rfl
  | some q =>
    have hq := extractSymbolAddend_mono h hm
    rcases hs with hs | hs
    · exact absurd (hq.symm.trans hs) (by simp)
    · exact .inr (hq.symm.trans hs)

/-- What `extractSymbolAddend` finds is the expression, up to how often the symbol is added. -/
theorem extractSymbolAddend_eval (addr : MCSymbol → Int) {e : MCExpr} {out out' : SymbolAddend}
    {scale : Int} {s : MCSymbol} (h : extractSymbolAddend e out scale = some out')
    (hs : out'.symbol = none ∨ out'.symbol = some s) :
    scale * e.eval addr = scale * e.symbols * addr s + (out'.addend - out.addend) := by
  induction e generalizing out out' scale with
  | constant v =>
    obtain rfl := Option.some.inj h
    simp only [MCExpr.eval, MCExpr.symbols]
    ring
  | symbolRef k q =>
    have hq : out'.symbol = some q ∧ out'.addend = out.addend := by
      rw [extractSymbolAddend] at h
      split at h
      next q' hq' =>
        split at h
        · exact absurd h (by simp)
        next hne =>
          obtain rfl := Option.some.inj h
          exact ⟨by rw [hq', not_not.mp hne], rfl⟩
      · obtain rfl := Option.some.inj h
        exact ⟨rfl, rfl⟩
    obtain rfl : q = s := by
      rcases hs with hs | hs
      · exact absurd (hq.1.symm.trans hs) (by simp)
      · exact Option.some.inj (hq.1.symm.trans hs)
    rw [hq.2]
    simp only [MCExpr.eval, MCExpr.symbols]
    ring
  | target k sub ih => exact ih h hs
  | unary op sub => exact absurd h (by simp [extractSymbolAddend])
  | binary op lhs rhs ihl ihr =>
    rw [extractSymbolAddend] at h
    by_cases hadd : op = opAdd
    · rw [if_pos hadd] at h
      obtain ⟨mid, hl, hr⟩ := Option.bind_eq_some_iff.mp h
      have hleft := ihl hl (extractSymbolAddend_before hr hs)
      have hright := ihr hr hs
      simp only [MCExpr.eval, MCExpr.symbols, if_pos hadd]
      linear_combination hleft + hright
    · rw [if_neg hadd] at h
      by_cases hsub : op = opSub
      · rw [if_pos hsub] at h
        obtain ⟨mid, hl, hr⟩ := Option.bind_eq_some_iff.mp h
        have hleft := ihl hl (extractSymbolAddend_before hr hs)
        have hright := ihr hr hs
        simp only [MCExpr.eval, MCExpr.symbols, if_neg hadd, if_pos hsub]
        linear_combination hleft + hright
      · rw [if_neg hsub] at h
        exact absurd h (by simp)

/-- Addresses of the output: what `%hi` and `%lo` stand for there. -/
structure Linked {w : Nat} (addr : MCSymbol → Int) (E : Env w) : Prop where
  hi : ∀ e, E.value (.target vkHi e) = (e.eval addr + 0x800) / 2 ^ 12 % 2 ^ 20
  lo : ∀ e, E.value (.target vkLo e) = (e.eval addr).bmod (2 ^ 12)

/-- `%hi` and `%lo` are of one symbol and constants. -/
def OneSymbol (i : MCInst) : Prop :=
  ∀ k e, .expr (.target k e) ∈ i.operands → k = vkHi ∨ k = vkLo → e.symbols = 1

theorem getRISCVExprSymbolAddend_eval (addr : MCSymbol → Int) {kind : Nat} {o : MCOperand}
    {ref : MCSymbol × Int} (h : getRISCVExprSymbolAddend kind o = some ref) :
    ∃ e, o = .expr (.target kind e) ∧ (e.symbols = 1 → e.eval addr = addr ref.1 + ref.2) := by
  unfold getRISCVExprSymbolAddend at h
  split at h
  next k sub =>
    split at h
    next hk =>
      obtain ⟨out, hout, hsym⟩ := Option.bind_eq_some_iff.mp h
      obtain ⟨s, hs, rfl⟩ := Option.map_eq_some_iff.mp hsym
      refine ⟨sub, by rw [hk], fun hone => ?_⟩
      have heval := extractSymbolAddend_eval addr hout (.inr hs)
      rw [hone] at heval
      linear_combination heval
    · exact absurd h (by simp)
  · exact absurd h (by simp)

/-! ## What is known -/

/-- The number that a known value is. -/
def KnownValue.at (addr : MCSymbol → Int) (v : KnownValue) : Int :=
  match v.symbol with
  | some s => addr s + v.addend
  | none => v.value

section Knows

variable {w : Nat} {addr : MCSymbol → Int} {values : RegValueMap} {s s' : State w}

/-- The registers hold what they are known to hold. -/
def Knows (addr : MCSymbol → Int) (values : RegValueMap) (s : State w) : Prop :=
  ∀ p ∈ values, s.get p.1 = BitVec.ofInt w (p.2.at addr)

variable {p : MCPhysReg × KnownValue}

theorem RegValueMap.mem_erase {r : MCPhysReg} : p ∈ values.erase r ↔ p ∈ values ∧ p.1 ≠ r := by
  rw [RegValueMap.erase, List.mem_filter, decide_eq_true_eq]

theorem RegValueMap.mem_insert {r : MCPhysReg} {v : KnownValue} :
    p ∈ values.insert r v ↔ p = (r, v) ∨ (p ∈ values ∧ p.1 ≠ r) := by
  simp only [RegValueMap.insert, List.mem_append, List.mem_cons, List.mem_filter, decide_eq_true_eq]
  constructor
  · rintro (⟨hp, hlt⟩ | rfl | ⟨hp, hlt⟩)
    · exact .inr ⟨hp, Nat.ne_of_lt hlt⟩
    · exact .inl rfl
    · exact .inr ⟨hp, Nat.ne_of_gt hlt⟩
  · rintro (rfl | ⟨hp, hne⟩)
    · exact .inr (.inl rfl)
    · rcases Nat.lt_or_gt_of_ne hne with hlt | hlt
      · exact .inl ⟨hp, hlt⟩
      · exact .inr (.inr ⟨hp, hlt⟩)

theorem Knows.subset {values' : RegValueMap} (h : Knows addr values s) (hsub : values' ⊆ values) :
    Knows addr values' s := fun p hp => h p (hsub hp)

theorem mem_forgetReg {r : MCPhysReg} (h : p ∈ forgetReg values r) :
    p ∈ values ∧ (p.1 = r → r = gpr 0) := by
  rw [forgetReg] at h
  split at h
  next hr => exact ⟨h, fun _ => hr⟩
  · obtain ⟨hp, hne⟩ := RegValueMap.mem_erase.mp h
    exact ⟨hp, fun heq => absurd heq hne⟩

theorem mem_foldl_forgetReg {rs : List MCPhysReg} (h : p ∈ rs.foldl forgetReg values) :
    p ∈ values ∧ (p.1 ∈ rs → p.1 = gpr 0) := by
  induction rs generalizing values with
  | nil => exact ⟨h, fun hp => absurd hp List.not_mem_nil⟩
  | cons r rs ih =>
    obtain ⟨hp, hrs⟩ := ih h
    obtain ⟨hp, hr⟩ := mem_forgetReg hp
    refine ⟨hp, fun hmem => ?_⟩
    rcases List.mem_cons.mp hmem with heq | hmem
    · exact heq.trans (hr heq)
    · exact hrs hmem

theorem knows_zero : s.get (gpr 0) = BitVec.ofInt w ((KnownValue.absolute 0).at addr) := by
  rw [State.get_of_le _ (Nat.le_refl _)]
  simp [KnownValue.absolute, KnownValue.at]

theorem knows_cleared : Knows addr .cleared s := by
  intro p hp
  obtain rfl := List.mem_singleton.mp hp
  exact knows_zero

/-- Registers that an instruction defines are forgotten. -/
theorem Knows.forgetDefs {I : MCInstrInfo} {i : MCInst} (h : Knows addr values s)
    (hframe : ∀ r, writesReg I i r = false → s'.get r = s.get r) :
    Knows addr (forgetDefs I values i) s' := by
  intro p hp
  rcases RegValueMap.mem_insert.mp hp with rfl | ⟨hp, hne⟩
  · exact knows_zero
  · obtain ⟨hp, hdef⟩ := mem_foldl_forgetReg hp
    rw [← h p hp]
    refine hframe p.1 ?_
    rw [← Bool.not_eq_true, ← mem_definedRegs]
    exact fun hmem => hne (hdef hmem)

/-- A register set to a known value. -/
theorem Knows.set {r : MCPhysReg}
    (h : ∀ p ∈ values, p.1 ≠ r → s.get p.1 = BitVec.ofInt w (p.2.at addr))
    (hr : r ≠ gpr 0 → ¬ r ≤ gpr 0) (v : KnownValue) (hzero : r = gpr 0 → Knows addr values s) :
    Knows addr (setKnownValue values r v) (s.set r (BitVec.ofInt w (v.at addr))) := by
  rw [setKnownValue]
  by_cases h0 : r = gpr 0
  · rw [if_pos h0, State.set, if_pos (Nat.le_of_eq h0)]
    exact hzero h0
  · rw [if_neg h0]
    intro p hp
    rcases RegValueMap.mem_insert.mp hp with rfl | ⟨hp, hne⟩
    · exact State.get_set_self s _ (hr h0)
    · rw [State.get_set_of_ne s _ hne]
      exact h p hp hne

end Knows

/-! ## Dead registers -/

section Agree

variable {w : Nat}

/-- The states agree but for the dead registers. -/
def AgreeOff (dead : List MCPhysReg) (s t : State w) : Prop :=
  s.mem = t.mem ∧ ∀ r, r ∉ dead → s.reg r = t.reg r

theorem AgreeOff.refl (dead : List MCPhysReg) (s : State w) : AgreeOff dead s s :=
  ⟨rfl, fun _ _ => rfl⟩

variable {s t : State w} {dead : List MCPhysReg}

theorem AgreeOff.eq (h : AgreeOff [] s t) : s = t := by
  obtain ⟨hmem, hreg⟩ := h
  cases s with
  | mk sreg smem =>
    cases t with
    | mk treg tmem =>
      obtain rfl : smem = tmem := hmem
      obtain rfl : sreg = treg := funext fun r => hreg r List.not_mem_nil
      rfl

theorem AgreeOff.get (h : AgreeOff dead s t) {r : MCPhysReg} (hr : r ∉ dead) :
    s.get r = t.get r := by
  rw [State.get, State.get, h.2 r hr]

theorem AgreeOff.mono {dead' : List MCPhysReg} (h : AgreeOff dead s t) (hsub : dead ⊆ dead') :
    AgreeOff dead' s t := ⟨h.1, fun r hr => h.2 r fun hmem => hr (hsub hmem)⟩

/-- A register set to one value in both states is not dead any more. -/
theorem AgreeOff.set (h : AgreeOff dead s t) (r : MCPhysReg) (v : BitVec w)
    (hdead : ∀ q ∈ dead, ¬ q ≤ gpr 0) : AgreeOff (dead.filter (· ≠ r)) (s.set r v) (t.set r v) := by
  refine ⟨by rw [State.mem_set, State.mem_set, h.1], fun q hq => ?_⟩
  have hmem : q ≠ r → q ∉ dead := by
    intro hne hmem
    exact hq (List.mem_filter.mpr ⟨hmem, decide_eq_true hne⟩)
  rw [State.set, State.set]
  split
  next hr =>
    refine h.2 q fun hmem' => ?_
    by_cases hne : q = r
    · exact hdead q hmem' (hne ▸ hr)
    · exact hmem hne hmem'
  · by_cases hne : q = r
    · simp only [if_pos hne]
    · simp only [if_neg hne]
      exact h.2 q (hmem hne)

/-- A register set in one state is dead. -/
theorem AgreeOff.set_left (h : AgreeOff dead s t) (r : MCPhysReg) (v : BitVec w) :
    AgreeOff (r :: dead) (s.set r v) t := by
  refine ⟨by rw [State.mem_set, h.1], fun q hq => ?_⟩
  rw [List.mem_cons, not_or] at hq
  rw [State.set]
  split
  · exact h.2 q hq.2
  · simp only [if_neg hq.1]
    exact h.2 q hq.2

end Agree

/-! ## The other instructions -/

/-- An instruction behind which control may be elsewhere. -/
def mayLeave (I : MCInstrInfo) (i : MCInst) : Bool :=
  isLUIBarrier I i || (I.get i.opcode).isTerminator

/-- What the tables promise of the instructions that the model leaves open: what they define and
what they use. A load or store of a floating-point register depends on its address and that
register. -/
structure Tabled (I : MCInstrInfo) {w : Nat} (E : Env w) : Prop where
  frame : ∀ i s s', isLUIBarrier I i = false → E.other i s = .ok s' →
    ∀ r, writesReg I i r = false → s'.get r = s.get r
  agree : ∀ i, mayLeave I i = false → ∀ dead s t, AgreeOff dead s t →
    (∀ r ∈ dead, ¬ r ≤ gpr 0 ∧ readsReg I i r = false) →
    ∃ s' t', E.other i s = .ok s' ∧ E.other i t = .ok t' ∧
      AgreeOff (dead.filter fun r => !writesReg I i r) s' t'
  floatFrame : ∀ op r a s q, isFloatAccess op = true → q ≠ r ∨ (I.get op).mayStore = true →
    (E.float op r a s).get q = s.get q
  floatAgree : ∀ op r a dead s t, isFloatAccess op = true → AgreeOff dead s t →
    (∀ q ∈ dead, ¬ q ≤ gpr 0) → ((I.get op).mayStore = true → r ∉ dead) →
    AgreeOff (dead.filter (· ≠ r)) (E.float op r a s) (E.float op r a t)

/-- The operands that the disassembler gives an instruction: a register that is set is one, and
`c.addi` names its register twice. -/
structure Decoded (i : MCInst) : Prop where
  reg : i.opcode = .lui ∨ i.opcode = .addi ∨ i.opcode = .add ∨ i.opcode = .cLui ∨ i.opcode = .cLi ∨
    i.opcode = .cMv → i.getReg 0 ≠ 0
  cAddi : i.opcode = .cAddi → ∀ r v rest, i.operands ≠ .reg r :: .imm v :: rest
  oneSymbol : OneSymbol i

section Instructions

variable {I : MCInstrInfo} {w : Nat} {E : Env w} {i : MCInst}

variable {r : MCPhysReg} {rest : List MCOperand} {s : State w}

/-- The instructions that set their first operand. -/
theorem writes_first (hops : i.operands = .reg r :: rest) (hdefs : (I.get i.opcode).numDefs = 1) :
    writesReg I i r = true := by
  rw [writesReg, hops, hdefs]
  simp

theorem execSum_frame (hT : Tabled I E) {s' : State w} {b : MCPhysReg} {o : MCOperand}
    (hops : i.operands = .reg r :: .reg b :: o :: rest) (a : BitVec w)
    (hbarrier : isLUIBarrier I i = false) (h : execSum E i r a s = .ok s') (q : MCPhysReg)
    (hq : writesReg I i q = false) : s'.get q = s.get q := by
  have hne : (I.get i.opcode).numDefs = 1 → q ≠ r := by
    intro hdefs heq
    exact absurd (writes_first hops hdefs) (by rw [← heq, hq]; exact Bool.false_ne_true)
  rw [execSum] at h
  split at h
  next _ k hk =>
    obtain rfl := Except.ok.inj h
    have hdefs : (I.get i.opcode).numDefs = 1 := by
      generalize i.opcode = op at hk ⊢
      cases op <;> simp [loadKind] at hk <;> rfl
    obtain ⟨n, sign⟩ := k
    cases sign <;> exact State.get_set_of_ne s _ (hne hdefs)
  · obtain rfl := Except.ok.inj h
    rfl
  · split at h
    next hop =>
      obtain rfl := Except.ok.inj h
      refine State.get_set_of_ne s _ (hne ?_)
      rcases hop with hop | hop <;> rw [hop] <;> rfl
    · split at h
      next hfloat =>
        obtain rfl := Except.ok.inj h
        refine hT.floatFrame _ r a s q hfloat ?_
        generalize i.opcode = op at hfloat hne ⊢
        cases op <;> simp [isFloatAccess] at hfloat
        · exact .inl (hne rfl)
        · exact .inl (hne rfl)
        · exact .inr rfl
        · exact .inr rfl
      · exact hT.frame i s s' hbarrier h q hq

/-- An instruction that is no barrier changes only what it defines. -/
theorem exec_defs (hT : Tabled I E) {s' : State w} (hbarrier : isLUIBarrier I i = false)
    (h : exec E i s = .ok s') (q : MCPhysReg) (hq : writesReg I i q = false) :
    s'.get q = s.get q := by
  have hother : E.other i s = .ok s' → s'.get q = s.get q := fun hx => hT.frame i s s' hbarrier hx q hq
  have hset : ∀ r v rest, .ok (s.set r v) = (.ok s' : Outcome w) → i.operands = .reg r :: rest →
      (I.get i.opcode).numDefs = 1 → s'.get q = s.get q := by
    intro r v rest hx hops hdefs
    obtain rfl := Except.ok.inj hx
    refine State.get_set_of_ne s v fun heq => ?_
    exact absurd (writes_first hops hdefs) (by rw [← heq, hq]; exact Bool.false_ne_true)
  have himm : ∀ o r (f : Int → BitVec w) rest,
      (E.imm o).elim (E.other i s) (fun v => .ok (s.set r (f v))) = .ok s' →
      i.operands = .reg r :: rest → (I.get i.opcode).numDefs = 1 → s'.get q = s.get q := by
    intro o r f rest hx hops hdefs
    cases ho : E.imm o with
    | none => rw [ho] at hx; exact hother hx
    | some v => rw [ho] at hx; exact hset r _ rest hx hops hdefs
  rw [exec] at h
  split at h
  next r o _ hop hops => exact himm o r _ _ h hops (by rw [hop]; rfl)
  next r o _ hop hops => exact himm o r _ _ h hops (by rw [hop]; rfl)
  next r o _ hop hops => exact himm o r _ _ h hops (by rw [hop]; rfl)
  next r b _ hop hops => exact hset r _ _ h hops (by rw [hop]; rfl)
  next r b c _ hop hops => exact hset r _ _ h hops (by rw [hop]; rfl)
  next r b o _ hops _ _ _ _ _ =>
    cases ho : E.imm o with
    | none => rw [ho] at h; exact hother h
    | some v => rw [ho] at h; exact execSum_frame hT hops _ hbarrier h q hq
  · exact hother h

/-- What agrees off `dead` before agrees behind off what is not defined. -/
def AgreeBehind (I : MCInstrInfo) (i : MCInst) (dead : List MCPhysReg) (x y : Outcome w) : Prop :=
  ∃ s' t', x = .ok s' ∧ y = .ok t' ∧ AgreeOff (dead.filter fun r => !writesReg I i r) s' t'

theorem agreeBehind_set {t : State w} {dead : List MCPhysReg} (h : AgreeOff dead s t)
    (hdead : ∀ r ∈ dead, ¬ r ≤ gpr 0) (hops : i.operands = .reg r :: rest)
    (hdefs : (I.get i.opcode).numDefs = 1) (himplicit : (I.get i.opcode).implicitDefs = [])
    (v : BitVec w) : AgreeBehind I i dead (.ok (s.set r v)) (.ok (t.set r v)) := by
  refine ⟨_, _, rfl, rfl, (h.set r v hdead).mono fun q hq => ?_⟩
  obtain ⟨hq, hne⟩ := List.mem_filter.mp hq
  refine List.mem_filter.mpr ⟨hq, ?_⟩
  rw [writesReg, hops, hdefs, himplicit]
  simpa using hne

theorem readsReg_of_mem (h : .reg r ∈ i.operands.drop (I.get i.opcode).numDefs) :
    readsReg I i r = true := by
  rw [readsReg, Bool.or_eq_true, List.contains_iff_mem]
  exact .inl h

/-- The tables of the loads, the stores and `addi`. -/
theorem sum_tables (I : MCInstrInfo) (op : Opcode) :
    ((loadKind op).isSome ∨ op = .addi ∨ op = .cAddi → (I.get op).numDefs = 1) ∧
      ((storeSize op).isSome → (I.get op).numDefs = 0) ∧
      (isFloatAccess op = true → (I.get op).mayStore = true → (I.get op).numDefs = 0) ∧
      (isFloatAccess op = true → (I.get op).mayStore = false → (I.get op).numDefs = 1) ∧
      ((loadKind op).isSome ∨ (storeSize op).isSome ∨ op = .addi ∨ op = .cAddi ∨ isFloatAccess op = true →
        (I.get op).implicitDefs = []) := by
  cases op <;> simp [loadKind, storeSize, isFloatAccess, MCInstrInfo.get]

/-- The instructions that use the sum of a register and an immediate. -/
def IsSum (op : Opcode) : Prop :=
  (loadKind op).isSome ∨ (storeSize op).isSome ∨ op = .addi ∨ op = .cAddi ∨ isFloatAccess op = true

theorem numDefs_of_isSum (I : MCInstrInfo) {op : Opcode} (h : IsSum op) :
    (I.get op).numDefs = 0 ∨ (I.get op).numDefs = 1 := by
  obtain ⟨hone, hstore, hfstore, hfload, -⟩ := sum_tables I op
  rcases h with h | h | h | h | h
  · exact .inr (hone (.inl h))
  · exact .inl (hstore h)
  · exact .inr (hone (.inr (.inl h)))
  · exact .inr (hone (.inr (.inr h)))
  · cases hm : (I.get op).mayStore with
    | true => exact .inl (hfstore h hm)
    | false => exact .inr (hfload h hm)

theorem execSum_of_not_isSum (r : MCPhysReg) (a : BitVec w) (s : State w) (h : ¬ IsSum i.opcode) :
    execSum E i r a s = E.other i s := by
  simp only [IsSum, not_or, Option.not_isSome_iff_eq_none] at h
  obtain ⟨hload, hstore, haddi, hcaddi, hfloat⟩ := h
  rw [execSum, hload, hstore]
  simp only [haddi, hcaddi, hfloat, or_self, if_false, Bool.false_eq_true]

theorem execSum_agree (hT : Tabled I E) {t : State w} {dead : List MCPhysReg}
    (h : AgreeOff dead s t) (hpos : ∀ r ∈ dead, ¬ r ≤ gpr 0) {b : MCPhysReg} {o : MCOperand}
    (hops : i.operands = .reg r :: .reg b :: o :: rest) (hsum : IsSum i.opcode)
    (hstored : (I.get i.opcode).numDefs = 0 → r ∉ dead) (a : BitVec w) :
    AgreeBehind I i dead (execSum E i r a s) (execSum E i r a t) := by
  have hkept : (I.get i.opcode).numDefs = 0 → (I.get i.opcode).implicitDefs = [] →
      dead ⊆ dead.filter fun r => !writesReg I i r := by
    intro hdefs himplicit q hq
    refine List.mem_filter.mpr ⟨hq, ?_⟩
    rw [writesReg, hdefs, himplicit]
    rfl
  obtain ⟨hdefs, hnodefs, hfstore, hfload, himplicit⟩ := sum_tables I i.opcode
  rw [execSum, execSum]
  cases hload : loadKind i.opcode with
  | some k =>
    rw [hload] at hdefs himplicit
    obtain ⟨n, sign⟩ := k
    have hset := agreeBehind_set h hpos hops (hdefs (.inl rfl)) (himplicit (.inl rfl))
    cases sign with
    | false =>
      show AgreeBehind I i dead (.ok (s.load r a (n, false))) (.ok (t.load r a (n, false)))
      rw [State.load, State.load, h.1]
      exact hset _
    | true =>
      show AgreeBehind I i dead (.ok (s.load r a (n, true))) (.ok (t.load r a (n, true)))
      rw [State.load, State.load, h.1]
      exact hset _
  | none =>
    cases hstore : storeSize i.opcode with
    | some n =>
      rw [hstore] at hnodefs himplicit
      have hzero := hnodefs rfl
      refine ⟨_, _, rfl, rfl, AgreeOff.mono ?_ (hkept hzero (himplicit (.inr (.inl rfl))))⟩
      refine ⟨?_, h.2⟩
      rw [State.store, State.store, h.1, h.get (hstored hzero)]
    | none =>
      by_cases haddi : i.opcode = .addi ∨ i.opcode = .cAddi
      · simp only [if_pos haddi]
        refine agreeBehind_set h hpos hops (hdefs (.inr haddi)) (himplicit (.inr (.inr ?_))) a
        rcases haddi with haddi | haddi
        · exact .inl haddi
        · exact .inr (.inl haddi)
      · simp only [if_neg haddi]
        by_cases hfloat : isFloatAccess i.opcode = true
        · simp only [if_pos hfloat]
          have himp := himplicit (.inr (.inr (.inr (.inr hfloat))))
          refine ⟨_, _, rfl, rfl, ?_⟩
          cases hms : (I.get i.opcode).mayStore with
          | true =>
            have hzero := hfstore hfloat hms
            have hr := hstored hzero
            refine (hT.floatAgree _ r a dead s t hfloat h hpos fun _ => hr).mono ?_
            exact fun q hq => hkept hzero himp (List.mem_filter.mp hq).1
          | false =>
            refine (hT.floatAgree _ r a dead s t hfloat h hpos fun hx => ?_).mono fun q hq => ?_
            · exact absurd (hms.symm.trans hx) (by simp)
            · obtain ⟨hq, hne⟩ := List.mem_filter.mp hq
              refine List.mem_filter.mpr ⟨hq, ?_⟩
              rw [writesReg, hops, hfload hfloat hms, himp]
              simpa using hne
        · simp only [IsSum, hload, hstore] at hsum
          rcases hsum with hx | hx | hx | hx | hx
          · exact absurd hx (by simp)
          · exact absurd hx (by simp)
          · exact absurd (.inl hx) haddi
          · exact absurd (.inr hx) haddi
          · exact absurd hx hfloat

/-- An instruction that uses no dead register does the same in states that agree off them. -/
theorem exec_agree (hT : Tabled I E) (hleave : mayLeave I i = false) {t : State w}
    {dead : List MCPhysReg} (h : AgreeOff dead s t)
    (hdead : ∀ r ∈ dead, ¬ r ≤ gpr 0 ∧ readsReg I i r = false) :
    AgreeBehind I i dead (exec E i s) (exec E i t) := by
  have hother : AgreeBehind I i dead (E.other i s) (E.other i t) := hT.agree i hleave dead s t h hdead
  have hpos : ∀ r ∈ dead, ¬ r ≤ gpr 0 := fun r hr => (hdead r hr).1
  have hget : ∀ b, .reg b ∈ i.operands.drop (I.get i.opcode).numDefs → s.get b = t.get b := by
    intro b hb
    refine h.get fun hmem => ?_
    exact absurd (readsReg_of_mem hb) (by rw [(hdead b hmem).2]; exact Bool.false_ne_true)
  have himm : ∀ o r rest (f : Int → BitVec w), i.operands = .reg r :: rest →
      (I.get i.opcode).numDefs = 1 → (I.get i.opcode).implicitDefs = [] →
      AgreeBehind I i dead ((E.imm o).elim (E.other i s) fun v => .ok (s.set r (f v)))
        ((E.imm o).elim (E.other i t) fun v => .ok (t.set r (f v))) := by
    intro o r rest f hops hdefs himplicit
    cases E.imm o with
    | none => exact hother
    | some v => exact agreeBehind_set h hpos hops hdefs himplicit _
  rw [exec, exec]
  split
  next r o _ hop hops => exact himm o r _ _ hops (by rw [hop]; rfl) (by rw [hop]; rfl)
  next r o _ hop hops => exact himm o r _ _ hops (by rw [hop]; rfl) (by rw [hop]; rfl)
  next r o _ hop hops => exact himm o r _ _ hops (by rw [hop]; rfl) (by rw [hop]; rfl)
  next r b _ hop hops =>
    rw [hget b (by rw [hops, hop]; simp [MCInstrInfo.get])]
    exact agreeBehind_set h hpos hops (by rw [hop]; rfl) (by rw [hop]; rfl) _
  next r b c _ hop hops =>
    rw [hget b (by rw [hops, hop]; simp [MCInstrInfo.get]),
      hget c (by rw [hops, hop]; simp [MCInstrInfo.get])]
    exact agreeBehind_set h hpos hops (by rw [hop]; rfl) (by rw [hop]; rfl) _
  next r b o _ hops _ _ _ _ _ =>
    cases E.imm o with
    | none => exact hother
    | some v =>
      rw [Option.elim_some, Option.elim_some]
      by_cases hsum : IsSum i.opcode
      · have hb : s.get b = t.get b := by
          refine hget b ?_
          rcases numDefs_of_isSum I hsum with hdefs | hdefs <;> rw [hops, hdefs] <;> simp
        rw [hb]
        refine execSum_agree hT h hpos hops hsum (fun hdefs hr => ?_) _
        have hread : readsReg I i r = true := readsReg_of_mem (by rw [hdefs, hops]; simp)
        exact absurd hread (by rw [(hdead r hr).2]; exact Bool.false_ne_true)
      · rw [execSum_of_not_isSum _ _ _ hsum, execSum_of_not_isSum _ _ _ hsum]
        exact hother
  · exact hother

end Instructions

/-! ## Learning -/

section Learning

variable {I : MCInstrInfo} {w : Nat} {E : Env w} {addr : MCSymbol → Int} {values : RegValueMap}
  {s s' : State w} {i : MCInst}

theorem knows_lookup (h : Knows addr values s) {r : MCPhysReg} {k : KnownValue}
    (hk : values.lookup r = some k) : s.get r = BitVec.ofInt w (k.at addr) := by
  induction values with
  | nil => exact absurd hk (by simp)
  | cons p rest ih =>
    rw [List.lookup_cons] at hk
    by_cases hr : r = p.1
    · rw [beq_iff_eq.mpr hr] at hk
      obtain rfl : p.2 = k := Option.some.inj hk
      rw [hr]
      exact h p List.mem_cons_self
    · rw [beq_eq_false_iff_ne.mpr hr] at hk
      exact ih (fun q hq => h q (List.mem_cons_of_mem _ hq)) hk

theorem absolute_at {k : KnownValue} (h : k.symbol.isNone = true) : k.at addr = k.value := by
  rw [KnownValue.at, Option.isNone_iff_eq_none.mp h]

/-- The sums of 32 bits that `learnSimpleValue` takes are no others in the registers. -/
def FitsSimple (w : Nat) (values : RegValueMap) (i : MCInst) : Prop :=
  match i.opcode, i.operands with
  | .cLi, .reg _ :: .imm v :: _ => Fits w v
  | .addi, .reg _ :: .reg rs1 :: .imm v :: _ => ∀ k, values.lookup rs1 = some k → Fits w (k.value + v)
  | .add, .reg _ :: .reg rs1 :: .reg rs2 :: _ =>
    ∀ k l, values.lookup rs1 = some k → values.lookup rs2 = some l → Fits w (k.value + l.value)
  | _, _ => True

/-- The value that is computed for an instruction is the one it sets. -/
theorem simpleValue_sound (hdec : Decoded i) (h : Knows addr values s)
    (hfits : FitsSimple w values i)
    {rd : MCPhysReg} {v : KnownValue} (hv : simpleValue values i = some (rd, v)) :
    exec E i s = .ok (s.set rd (BitVec.ofInt w (v.at addr))) ∧ rd ≠ 0 := by
  have hne : ∀ {r rest}, i.operands = .reg r :: rest → (i.opcode = .lui ∨ i.opcode = .addi ∨
      i.opcode = .add ∨ i.opcode = .cLui ∨ i.opcode = .cLi ∨ i.opcode = .cMv) → r ≠ 0 := by
    intro r rest hops hop
    have hreg := hdec.reg hop
    rwa [MCInst.getReg, hops] at hreg
  rw [simpleValue] at hv
  rw [FitsSimple] at hfits
  rw [exec]
  split at hv
  next r o rest hop hops =>
    obtain ⟨rfl, rfl⟩ := Prod.mk.inj (Option.some.inj hv)
    refine ⟨?_, hne hops (.inl hop)⟩
    rw [hop, hops]
    show Except.ok (s.set r (luiValue w o)) = _
    rw [luiValue_eq]
    rfl
  next r o rest hop hops =>
    obtain ⟨rfl, rfl⟩ := Prod.mk.inj (Option.some.inj hv)
    refine ⟨?_, hne hops (by simp [hop])⟩
    rw [hop, hops]
    show Except.ok (s.set r (luiValue w o)) = _
    rw [luiValue_eq]
    rfl
  next r o rest hop hops =>
    obtain ⟨rfl, rfl⟩ := Prod.mk.inj (Option.some.inj hv)
    refine ⟨?_, hne hops (by simp [hop])⟩
    rw [hop, hops] at hfits ⊢
    show Except.ok (s.set r (BitVec.ofInt w o)) = _
    rw [← ofInt_sext32 hfits]
    rfl
  next r b o rest hop hops =>
    obtain ⟨k, hk, hsome⟩ := Option.bind_eq_some_iff.mp hv
    split at hsome
    next hsym =>
      obtain ⟨rfl, rfl⟩ := Prod.mk.inj (Option.some.inj hsome)
      refine ⟨?_, hne hops (by simp [hop])⟩
      rw [hop, hops] at hfits ⊢
      show execSum E i r (s.get b + BitVec.ofInt w o) s = _
      rw [execSum, hop, knows_lookup h hk, absolute_at hsym, ← ofInt_add32 (hfits k hk)]
      rfl
    · exact absurd hsome (by simp)
  next r o rest hop hops => exact absurd hops (hdec.cAddi hop r o rest)
  next r b c rest hop hops =>
    obtain ⟨k, hk, hv⟩ := Option.bind_eq_some_iff.mp hv
    obtain ⟨l, hl, hsome⟩ := Option.bind_eq_some_iff.mp hv
    split at hsome
    next hsym =>
      obtain ⟨rfl, rfl⟩ := Prod.mk.inj (Option.some.inj hsome)
      refine ⟨?_, hne hops (by simp [hop])⟩
      rw [Bool.and_eq_true] at hsym
      rw [hop, hops] at hfits ⊢
      show Except.ok (s.set r (s.get b + s.get c)) = _
      rw [knows_lookup h hk, knows_lookup h hl, absolute_at hsym.1, absolute_at hsym.2,
        ← ofInt_add32 (hfits k l hk hl)]
      rfl
    · exact absurd hsome (by simp)
  next r b rest hop hops =>
    obtain ⟨k, hk, hsome⟩ := Option.map_eq_some_iff.mp hv
    obtain ⟨rfl, rfl⟩ := Prod.mk.inj hsome
    refine ⟨?_, hne hops (by simp [hop])⟩
    rw [hop, hops]
    show Except.ok (s.set r (s.get b)) = _
    rw [knows_lookup h hk]
  · exact absurd hv (by simp)

theorem forgetDefs_subset_insert {r : MCPhysReg} {v : KnownValue} {p : MCPhysReg × KnownValue}
    (hp : p ∈ (forgetDefs I values i).insert r v) : p = (r, v) ∨ (p ∈ forgetDefs I values i ∧ p.1 ≠ r) :=
  RegValueMap.mem_insert.mp hp

/-- What is learned from an instruction is so behind it. -/
theorem learnSimpleValue_sound (hT : Tabled I E) (hdec : Decoded i) (h : Knows addr values s)
    (hfits : FitsSimple w values i) (hs' : exec E i s = .ok s') :
    Knows addr (learnSimpleValue I values i) s' := by
  rw [learnSimpleValue]
  split
  · exact knows_cleared
  next hbarrier =>
    have hforget := h.forgetDefs (exec_defs hT (Bool.eq_false_iff.mpr hbarrier) hs')
    cases hv : simpleValue values i with
    | none => exact hforget
    | some p =>
      obtain ⟨rd, v⟩ := p
      obtain ⟨hexec, hrd⟩ := simpleValue_sound hdec h hfits hv
      obtain rfl := Except.ok.inj (hexec.symm.trans hs')
      by_cases hzero : rd = gpr 0
      · simp only [if_pos hzero]
        exact hforget
      · simp only [if_neg hzero]
        intro p hp
        rcases forgetDefs_subset_insert hp with rfl | ⟨hp, -⟩
        · exact State.get_set_self s _ (not_le_zero hrd hzero)
        · exact hforget p hp

end Learning

/-! ## Reuse -/

section Reuse

variable {w : Nat} {E : Env w} {addr : MCSymbol → Int} {values : RegValueMap} {s : State w}

variable {target : KnownValue}

theorem betterBase_cases {found : Option (MCPhysReg × Int)} {e : MCPhysReg × KnownValue}
    {b : MCPhysReg × Int} (h : betterBase target found e = some b) :
    found = some b ∨ (b.1 = e.1 ∧ fixedDiff e.2 target = some b.2) := by
  unfold betterBase at h
  split at h
  · exact .inl h
  next diff hdiff =>
    obtain rfl := Option.some.inj h
    exact .inr ⟨rfl, hdiff⟩
  next diff r best hdiff =>
    split at h
    · obtain rfl := Option.some.inj h
      exact .inr ⟨rfl, hdiff⟩
    · exact .inl h

/-- A base that is found is known, and at the offset that is found. -/
theorem findReusableBase_mem {b : MCPhysReg × Int} (h : findReusableBase values target = some b) :
    ∃ k, (b.1, k) ∈ values ∧ fixedDiff k target = some b.2 := by
  have hfold : ∀ (rest : RegValueMap) (found : Option (MCPhysReg × Int)),
      rest.foldl (betterBase target) found = some b →
        found = some b ∨ ∃ k, (b.1, k) ∈ rest ∧ fixedDiff k target = some b.2 := by
    intro rest
    induction rest with
    | nil => exact fun found hx => .inl hx
    | cons e rest ih =>
      intro found hx
      rcases ih _ hx with hx | ⟨k, hk, hdiff⟩
      · rcases betterBase_cases hx with hx | ⟨hr, hdiff⟩
        · exact .inl hx
        · exact .inr ⟨e.2, by rw [hr]; exact List.mem_cons_self, hdiff⟩
      · exact .inr ⟨k, List.mem_cons_of_mem _ hk, hdiff⟩
  rcases hfold values none h with hx | hfound
  · exact absurd hx (by simp)
  · exact hfound

/-- The sum of a base and an offset is no other in the registers. -/
def FitsReuse (w : Nat) (values : RegValueMap) (r : MCPhysReg) (diff : Int) : Prop :=
  ∀ p ∈ values, p.1 = r → p.2.symbol = none → Fits w (p.2.value + diff)

theorem fixedDiff_sound {base : KnownValue} {diff : Int} (h : fixedDiff base target = some diff)
    (hfits : base.symbol = none → Fits w (base.value + diff)) :
    BitVec.ofInt w (base.at addr) + BitVec.ofInt w diff = BitVec.ofInt w (target.at addr) := by
  rw [fixedDiff] at h
  split at h
  next hcond =>
    obtain rfl := Option.some.inj h
    simp only [Bool.and_eq_true, beq_iff_eq] at hcond
    obtain ⟨⟨huse, -⟩, hsum⟩ := hcond
    obtain ⟨bv, bs, ba⟩ := base
    obtain ⟨tv, ts, ta⟩ := target
    cases bs with
    | none =>
      cases ts with
      | some q => exact absurd huse (by simp [canUseFixedDiff])
      | none =>
        have hsum' : add32 bv (getStableDiff ⟨bv, none, ba⟩ ⟨tv, none, ta⟩) = tv := hsum
        show BitVec.ofInt w bv + BitVec.ofInt w _ = BitVec.ofInt w tv
        rw [← ofInt_add32 (hfits rfl), hsum']
    | some b =>
      cases ts with
      | none => exact absurd huse (by simp [canUseFixedDiff])
      | some q =>
        obtain rfl : b = q := by simpa [canUseFixedDiff] using huse
        rw [← BitVec.ofInt_add]
        congr 1
        simp only [KnownValue.at, getStableDiff, Option.isSome_some, Bool.true_and,
          beq_self_eq_true, if_true]
        ring
  · exact absurd h (by simp)

/-- The base and the offset make the target. -/
theorem findReusableBase_sound (h : Knows addr values s) {r : MCPhysReg} {diff : Int}
    (hfound : findReusableBase values target = some (r, diff)) (hfits : FitsReuse w values r diff) :
    s.get r + BitVec.ofInt w diff = BitVec.ofInt w (target.at addr) := by
  obtain ⟨k, hk, hdiff⟩ := findReusableBase_mem hfound
  rw [h _ hk]
  exact fixedDiff_sound hdiff (hfits _ hk rfl)

theorem exec_makeADDI (s : State w) (rd rs : MCPhysReg) (v : Int) :
    exec E (makeADDI rd rs v) s = .ok (s.set rd (s.get rs + BitVec.ofInt w v)) := rfl

/-- The sums of a pair are no others in the registers. -/
def FitsPair (w : Nat) (addr : MCSymbol → Int) (p : LUIPair) (sink : MCInst) : Prop :=
  match p.high with
  | some k => ∀ v, sink.operands[2]? = some (.imm v) → Fits w (k.value + v)
  | none => Fits w (p.target.at addr + 0x800)

/-- What a pair computes: its `lui` the high part, and its sink the target. -/
theorem getPair_sound {data : MCSymbol → Option Int} (hL : Linked addr E) {lui sink : MCInst}
    (hlui : Decoded lui) (hsink : OneSymbol sink) {r b : MCPhysReg} {o : MCOperand} {rest : List MCOperand}
    (hops : sink.operands = .reg r :: .reg b :: o :: rest) {p : LUIPair}
    (h : getPair data lui (some (r, b, o)) = some p) (hfits : FitsPair w addr p sink) :
    b = p.luiReg ∧ r = p.reg ∧ p.luiReg ≠ 0 ∧ lui.opcode = .lui ∧
      (∃ tail, lui.operands = .reg p.luiReg :: tail) ∧
      ∃ hv lv, (∀ s : State w, exec E lui s = .ok (s.set p.luiReg hv)) ∧ E.imm o = some lv ∧
        hv + BitVec.ofInt w lv = BitVec.ofInt w (p.target.at addr) ∧
        ∀ k, p.high = some k → hv = BitVec.ofInt w (k.at addr) := by
  obtain ⟨⟨l, hi⟩, hl, h⟩ := Option.bind_eq_some_iff.mp h
  rw [Option.bind_some] at h
  split at h
  next hcond =>
    rw [Bool.and_eq_true, beq_iff_eq] at hcond
    obtain ⟨⟨high, target⟩, htarget, rfl⟩ := Option.map_eq_some_iff.mp h
    simp only [isLUI] at hl
    split at hl
    next l' hi' tail hop hlops =>
      split at hl
      · obtain ⟨rfl, rfl⟩ := Prod.mk.inj (Option.some.inj hl)
        have hne : l' ≠ 0 := by
          have hreg := hlui.reg (.inl hop)
          rwa [MCInst.getReg, hlops] at hreg
        have hexec : ∀ v, E.imm hi' = some v →
            ∀ s : State w, exec E lui s = .ok (s.set l' (luiValue w v)) := by
          intro v hv s
          rw [exec, hop, hlops]
          show (E.imm hi').elim _ _ = _
          rw [hv]
          rfl
        refine ⟨hcond.2, rfl, hne, hop, ⟨_, hlops⟩, ?_⟩
        simp only [FitsPair] at hfits
        unfold getLUIHighAndTarget at htarget
        split at htarget
        next hv lv hhi hlo =>
          obtain rfl : hi' = .imm hv := hhi
          obtain rfl : o = .imm lv := hlo
          obtain ⟨rfl, rfl⟩ := Prod.mk.inj (Option.some.inj htarget)
          refine ⟨luiValue w hv, lv, hexec hv rfl, rfl, ?_, ?_⟩
          · rw [luiValue_eq]
            exact (ofInt_add32 (hfits lv (by rw [hops]; rfl))).symm
          · rintro k hk
            obtain rfl := Option.some.inj hk
            exact luiValue_eq hv
        · obtain ⟨hiRef, hhi, htarget⟩ := Option.bind_eq_some_iff.mp htarget
          obtain ⟨loRef, hlo, htarget⟩ := Option.bind_eq_some_iff.mp htarget
          split at htarget
          next href =>
            obtain ⟨address, -, heq⟩ := Option.map_eq_some_iff.mp htarget
            obtain ⟨rfl, rfl⟩ := Prod.mk.inj heq
            obtain ⟨eh, rfl, hheval⟩ := getRISCVExprSymbolAddend_eval addr hhi
            obtain ⟨el, rfl, hleval⟩ := getRISCVExprSymbolAddend_eval addr hlo
            have hh := hheval (hlui.oneSymbol vkHi eh (by rw [hlops]; simp) (.inl rfl))
            have hl := hleval (hsink vkLo el (by rw [hops]; simp) (.inr rfl))
            rw [href] at hh
            refine ⟨_, _, hexec _ rfl, rfl, ?_, fun k hk => absurd hk (by simp)⟩
            rw [hL.hi, hL.lo, hh, hl]
            exact hi_add_lo hfits
          · exact absurd htarget (by simp)
      · exact absurd hl (by simp)
    · exact absurd hl (by simp)
  · exact absurd h (by simp)

end Reuse

/-! ## One turn -/

section Turn

variable {I : MCInstrInfo} {w : Nat} {E : Env w} {addr : MCSymbol → Int} {data : MCSymbol → Option Int}

/-- The register is set before it is used, and before control may leave. -/
def redefinedSafely (I : MCInstrInfo) (r : MCPhysReg) : List MCInst → Bool
  | [] => false
  | i :: rest =>
    if mayLeave I i || readsReg I i r then false else writesReg I i r || redefinedSafely I r rest

/-- Dead registers are set before they are used. -/
def DeadOk (I : MCInstrInfo) (dead : List MCPhysReg) (rest : List MCInst) : Prop :=
  ∀ r ∈ dead, ¬ r ≤ gpr 0 ∧ redefinedSafely I r rest = true

theorem DeadOk.nil {dead : List MCPhysReg} (h : DeadOk I dead []) : dead = [] := by
  cases dead with
  | nil => rfl
  | cons r dead => exact absurd (h r List.mem_cons_self).2 Bool.false_ne_true

variable {i sink : MCInst} {rest : List MCInst} {dead : List MCPhysReg}
  {values values' : RegValueMap} {p : LUIPair}

theorem redefinedSafely_cons {r : MCPhysReg} (h : redefinedSafely I r (i :: rest) = true) :
    mayLeave I i = false ∧ readsReg I i r = false ∧
      (writesReg I i r = false → redefinedSafely I r rest = true) := by
  rw [redefinedSafely] at h
  split at h
  · exact absurd h Bool.false_ne_true
  next hcond =>
    rw [Bool.or_eq_true, not_or, Bool.not_eq_true, Bool.not_eq_true] at hcond
    refine ⟨hcond.1, hcond.2, fun hw => ?_⟩
    rwa [hw, Bool.false_or] at h

/-- Behind an instruction the registers that it sets are not dead any more. -/
theorem DeadOk.step (h : DeadOk I dead (i :: rest)) :
    DeadOk I (dead.filter fun r => !writesReg I i r) rest := by
  intro r hr
  obtain ⟨hr, hw⟩ := List.mem_filter.mp hr
  rw [Bool.not_eq_true'] at hw
  exact ⟨(h r hr).1, (redefinedSafely_cons (h r hr).2).2.2 hw⟩

/-- What an unchanged instruction does. -/
theorem same_step (hT : Tabled I E) (h : DeadOk I dead (i :: rest)) {so sn : State w}
    (hagree : AgreeOff dead so sn) :
    AgreeBehind I i dead (exec E i so) (exec E i sn) ∨
      ∃ e, exec E i so = .error e ∧ exec E i sn = .error e := by
  cases dead with
  | nil =>
    obtain rfl := hagree.eq
    cases hx : exec E i so with
    | error e => exact .inr ⟨e, rfl, rfl⟩
    | ok s' => exact .inl ⟨s', s', rfl, rfl, AgreeOff.refl _ _⟩
  | cons r dead =>
    have hleave := (redefinedSafely_cons (h r List.mem_cons_self).2).1
    exact .inl (exec_agree hT hleave hagree fun q hq =>
      ⟨(h q hq).1, (redefinedSafely_cons (h q hq).2).2.1⟩)

/-- The condition on a turn of the loop. A `lui` sets a register; one that is deleted leaves a
register that nothing uses, no call and no branch, before it is set; a memory access that gets
another base or keeps its own sets no register of which a value is known, and the instruction behind
it, which is learned instead, teaches nothing; sums of 32 bits are no others in the registers. -/
def CleanTurn (I : MCInstrInfo) (w : Nat) (addr : MCSymbol → Int) (values : RegValueMap)
    (i : MCInst)
    (rest : List MCInst) : LUITurn → Prop
  | .barrier => True
  | .reuseMaterialized p base diff =>
    p.luiReg ≠ gpr 0 ∧ (p.reg = p.luiReg ∨ redefinedSafely I p.luiReg rest.tail = true) ∧
      (∀ sink ∈ rest.head?, FitsPair w addr p sink) ∧ FitsReuse w values base diff
  | .learnMaterialized p => p.luiReg ≠ gpr 0 ∧ ∀ sink ∈ rest.head?, FitsPair w addr p sink
  | .reuseMemory p sink base diff =>
    p.luiReg ≠ gpr 0 ∧ (writesReg I sink p.luiReg = true ∨ redefinedSafely I p.luiReg rest.tail = true) ∧
      FitsPair w addr p sink ∧ FitsReuse w values base diff ∧
      (∀ q ∈ values, q.1 = gpr 0 ∨ writesReg I sink q.1 = false) ∧
      ∃ stale, rest.tail.head? = some stale ∧ learnSimpleValue I values stale ⊆ values
  | .learnMemory p sink =>
    p.luiReg ≠ gpr 0 ∧ FitsPair w addr p sink ∧
      ∀ q ∈ learnMemoryPair values p, q.1 = gpr 0 ∨ writesReg I sink q.1 = false
  | .reuseLUI _ _ base diff => FitsReuse w values base diff
  | .simple => FitsSimple w values i

/-- `news` does what `olds` does, but for the dead registers, and what is known stays so. -/
def Simulated (E : Env w) (addr : MCSymbol → Int) (dead dead' : List MCPhysReg)
    (values values' : RegValueMap) (olds news : List MCInst) : Prop :=
  ∀ so sn, AgreeOff dead so sn → Knows addr values sn →
    (∃ so' sn', run E olds so = .ok so' ∧ run E news sn = .ok sn' ∧ AgreeOff dead' so' sn' ∧
      Knows addr values' sn') ∨
    ∃ e, run E olds so = .error e ∧ run E news sn = .error e

/-- An instruction that is kept. -/
theorem simulated_same (hT : Tabled I E) (h : DeadOk I dead (i :: rest))
    (hknows : ∀ s s' : State w, Knows addr values s → exec E i s = .ok s' → Knows addr values' s') :
    Simulated E addr dead (dead.filter fun r => !writesReg I i r) values values' [i] [i] := by
  intro so sn hagree hk
  rw [run_singleton, run_singleton]
  rcases same_step hT h hagree with ⟨so', sn', hso, hsn, hagree'⟩ | ⟨e, hso, hsn⟩
  · exact .inl ⟨so', sn', hso, hsn, hagree', hknows sn sn' hk hsn⟩
  · exact .inr ⟨e, hso, hsn⟩

/-- A pair that is kept. -/
theorem simulated_pair (hT : Tabled I E) (h : DeadOk I dead (i :: sink :: rest))
    (hfirst : ∀ s s' : State w, Knows addr values s → exec E i s = .ok s' →
      ∀ s'', exec E sink s' = .ok s'' → Knows addr values' s'') :
    ∃ dead', DeadOk I dead' rest ∧ Simulated E addr dead dead' values values' [i, sink] [i, sink] := by
  refine ⟨_, h.step.step, fun so sn hagree hk => ?_⟩
  rw [run_pair, run_pair]
  rcases same_step hT h hagree with ⟨so₁, sn₁, hso, hsn, hagree₁⟩ | ⟨e, hso, hsn⟩
  · rw [hso, hsn, ok_bind, ok_bind]
    rcases same_step hT h.step hagree₁ with ⟨so₂, sn₂, hso₂, hsn₂, hagree₂⟩ | ⟨e, hso₂, hsn₂⟩
    · exact .inl ⟨so₂, sn₂, hso₂, hsn₂, hagree₂, hfirst sn sn₁ hk hsn sn₂ hsn₂⟩
    · exact .inr ⟨e, hso₂, hsn₂⟩
  · rw [hso, hsn, error_bind]
    exact .inr ⟨e, rfl, rfl⟩

/-- What the tables say of an instruction that sets its first operand. -/
theorem writesReg_first {r q : MCPhysReg} {rest : List MCOperand}
    (hops : i.operands = .reg r :: rest) (hdefs : (I.get i.opcode).numDefs = 1)
    (himplicit : (I.get i.opcode).implicitDefs = []) : writesReg I i q = decide (q = r) := by
  rw [writesReg, hops, hdefs, himplicit]
  by_cases hq : q = r <;> simp [hq]

/-- What the `lui` of a pair leaves known. -/
theorem knows_learnMemoryPair {s : State w} (h : Knows addr values s) (h0 : p.luiReg ≠ 0)
    (h1 : p.luiReg ≠ gpr 0) {hv : BitVec w}
    (hhigh : ∀ k, p.high = some k → hv = BitVec.ofInt w (k.at addr)) :
    Knows addr (learnMemoryPair values p) (s.set p.luiReg hv) := by
  rw [learnMemoryPair]
  cases hp : p.high with
  | none =>
    intro q hq
    have hne : q.1 ≠ p.luiReg := fun heq => h1 ((mem_forgetReg hq).2 heq)
    rw [State.get_set_of_ne s _ hne]
    exact h q (mem_forgetReg hq).1
  | some k =>
    rw [hhigh k hp]
    exact Knows.set (fun p hp _ => h p (mem_forgetReg hp).1) (fun _ => not_le_zero h0 h1) k
      (fun hx => absurd hx h1)

/-- The operands of the sink of a materialized pair. -/
theorem isADDI_operands {d b : MCPhysReg} {o : MCOperand} (h : isADDI i = some (d, b, o)) :
    i.opcode = .addi ∧ ∃ rest, i.operands = .reg d :: .reg b :: o :: rest := by
  unfold isADDI at h
  split at h
  next d' b' o' rest hop hops =>
    obtain ⟨rfl, heq⟩ := Prod.mk.inj (Option.some.inj h)
    obtain ⟨rfl, rfl⟩ := Prod.mk.inj heq
    exact ⟨hop, rest, hops⟩
  · exact absurd h (by simp)

/-- A materialized pair: the `lui` sets its register to the high part, and the `addi` the target. -/
structure IsMaterialized (E : Env w) (addr : MCSymbol → Int) (p : LUIPair) (i sink : MCInst) :
    Prop where
  lui : i.opcode = .lui
  addi : sink.opcode = .addi
  luiReg : p.luiReg ≠ 0
  reg : p.reg ≠ 0
  luiOps : ∃ rest, i.operands = .reg p.luiReg :: rest
  sinkOps : ∃ rest, sink.operands = .reg p.reg :: rest
  run : p.luiReg ≠ gpr 0 → ∃ hv : BitVec w, (∀ s : State w, exec E i s = .ok (s.set p.luiReg hv)) ∧
    (∀ s : State w, exec E sink (s.set p.luiReg hv) =
      .ok ((s.set p.luiReg hv).set p.reg (BitVec.ofInt w (p.target.at addr)))) ∧
    ∀ k, p.high = some k → hv = BitVec.ofInt w (k.at addr)

theorem isMaterialized (hL : Linked addr E) (hi : Decoded i) (hsink : Decoded sink)
    (h : getMaterializedPair data i sink = some p) (hfits : FitsPair w addr p sink) :
    IsMaterialized E addr p i sink := by
  rw [getMaterializedPair] at h
  cases hx : isADDI sink with
  | none =>
    rw [hx, getPair] at h
    obtain ⟨_, -, h⟩ := Option.bind_eq_some_iff.mp h
    exact absurd h (by simp)
  | some q =>
    obtain ⟨d, b, o⟩ := q
    rw [hx] at h
    obtain ⟨hop, rest, hops⟩ := isADDI_operands hx
    obtain ⟨rfl, rfl, hne, hlui, hluiops, hv, lv, hexec, himm, hsum, hhigh⟩ :=
      getPair_sound hL hi hsink.oneSymbol hops h hfits
    refine ⟨hlui, hop, hne, ?_, hluiops, ⟨_, hops⟩, fun hzero => ⟨hv, hexec, fun s => ?_, hhigh⟩⟩
    · have hreg := hsink.reg (.inr (.inl hop))
      rwa [MCInst.getReg, hops] at hreg
    · rw [exec, hop, hops]
      show (E.imm o).elim _ (fun v => execSum E sink p.reg (_ + BitVec.ofInt w v) _) = _
      rw [himm, Option.elim_some, execSum, hop, State.get_set_self s _ (not_le_zero hne hzero),
        hsum]
      rfl

/-- The pair that is deleted. -/
theorem simulated_materialized {base : MCPhysReg} {diff : Int}
    (h : DeadOk I dead (i :: sink :: rest)) (hp : IsMaterialized E addr p i sink)
    (hzero : p.luiReg ≠ gpr 0) (hsafe : p.reg = p.luiReg ∨ redefinedSafely I p.luiReg rest = true)
    (hfound : findReusableBase values p.target = some (base, diff))
    (hfits : FitsReuse w values base diff) :
    ∃ dead', DeadOk I dead' rest ∧ Simulated E addr dead dead' values
      (setKnownValue values p.reg p.target) [i, sink] [makeADDI p.reg base diff] := by
  obtain ⟨hv, hlui, hsink, -⟩ := hp.run hzero
  obtain ⟨luiRest, hluiOps⟩ := hp.luiOps
  obtain ⟨sinkRest, hsinkOps⟩ := hp.sinkOps
  have hpos : ∀ q ∈ p.luiReg :: dead, ¬ q ≤ gpr 0 := by
    intro q hq
    rcases List.mem_cons.mp hq with rfl | hq
    · exact not_le_zero hp.luiReg hzero
    · exact (h q hq).1
  refine ⟨(p.luiReg :: dead).filter (· ≠ p.reg), fun q hq => ?_, fun so sn hagree hk => .inl ?_⟩
  · obtain ⟨hq, hne⟩ := List.mem_filter.mp hq
    rw [decide_eq_true_eq] at hne
    refine ⟨hpos q hq, ?_⟩
    by_cases hl : q = p.luiReg
    · rcases hsafe with hsafe | hsafe
      · exact absurd (hl.trans hsafe.symm) hne
      · rw [hl]
        exact hsafe
    · have hq : q ∈ dead := (List.mem_cons.mp hq).resolve_left hl
      have hwlui : writesReg I i q = false := by
        rw [writesReg_first hluiOps (by rw [hp.lui]; rfl) (by rw [hp.lui]; rfl)]
        exact decide_eq_false hl
      have hwsink : writesReg I sink q = false := by
        rw [writesReg_first hsinkOps (by rw [hp.addi]; rfl) (by rw [hp.addi]; rfl)]
        exact decide_eq_false hne
      exact (redefinedSafely_cons ((redefinedSafely_cons (h q hq).2).2.2 hwlui)).2.2 hwsink
  · refine ⟨_, _, by rw [run_pair, hlui, ok_bind, hsink],
      by rw [run_singleton, exec_makeADDI], ?_, ?_⟩
    · rw [findReusableBase_sound hk hfound hfits]
      exact (hagree.set_left p.luiReg hv).set p.reg _ hpos
    · rw [findReusableBase_sound hk hfound hfits]
      exact Knows.set (fun q hq _ => hk q hq) (not_le_zero hp.reg) p.target (fun _ => hk)

/-- The pair that is learned. -/
theorem learn_materialized (hp : IsMaterialized E addr p i sink) (hzero : p.luiReg ≠ gpr 0)
    {s s' s'' : State w} (hk : Knows addr values s) (hs' : exec E i s = .ok s')
    (hs'' : exec E sink s' = .ok s'') : Knows addr (learnMaterializedPair values p) s'' := by
  obtain ⟨hv, hlui, hsink, hhigh⟩ := hp.run hzero
  obtain rfl := Except.ok.inj ((hlui s).symm.trans hs')
  obtain rfl := Except.ok.inj ((hsink s).symm.trans hs'')
  rw [learnMaterializedPair]
  split
  next heq =>
    refine Knows.set (fun q hq hne => ?_) (not_le_zero hp.reg) p.target
      (fun hx => absurd (heq.symm.trans hx) hzero)
    rw [State.get_set_of_ne s _ (heq ▸ hne)]
    exact hk q hq
  · have hmid := knows_learnMemoryPair hk hp.luiReg hzero hhigh
    exact Knows.set (fun q hq _ => hmid q hq) (not_le_zero hp.reg) p.target (fun _ => hmid)

/-- The opcodes of memory sinks. -/
def isSinkOpcode (op : Opcode) : Bool := isIFormatOpcode op || isSFormatOpcode op

/-- What the tables say of memory sinks. -/
theorem sink_tables (I : MCInstrInfo) {op : Opcode} (h : isSinkOpcode op = true) :
    IsSum op ∧ (I.get op).implicitDefs = [] ∧ isBarrierDesc (I.get op) = false ∧ op ≠ .jal ∧ op ≠ .jalr ∧
      ((I.get op).numDefs = 0 → isSFormatOpcode op = true) ∧
      ((I.get op).numDefs = 0 ∨ (I.get op).numDefs = 1) := by
  cases op <;> simp [isSinkOpcode, isIFormatOpcode, isSFormatOpcode] at h <;>
    simp [IsSum, loadKind, storeSize, isFloatAccess, MCInstrInfo.get, isBarrierDesc,
      isSFormatOpcode]

theorem exec_sink (hop : isSinkOpcode i.opcode = true) {r b : MCPhysReg} {o : MCOperand}
    {rest : List MCOperand} (hops : i.operands = .reg r :: .reg b :: o :: rest) (s : State w) :
    exec E i s =
      (E.imm o).elim (E.other i s) fun v => execSum E i r (s.get b + BitVec.ofInt w v) s := by
  rw [exec, hops]
  generalize hx : i.opcode = op at hop
  cases op <;> simp [isSinkOpcode, isIFormatOpcode, isSFormatOpcode] at hop <;> rfl

/-- Only its opcode matters for what a sum instruction does. -/
theorem execSum_congr {j : MCInst} (hop : i.opcode = j.opcode) (hsum : IsSum i.opcode)
    (r : MCPhysReg) (a : BitVec w) (s : State w) : execSum E i r a s = execSum E j r a s := by
  rw [execSum, execSum, ← hop]
  cases hload : loadKind i.opcode with
  | some k => rfl
  | none =>
    cases hstore : storeSize i.opcode with
    | some n => rfl
    | none =>
      simp only [IsSum, hload, hstore, Option.isSome_none, Bool.false_eq_true, false_or] at hsum
      by_cases haddi : i.opcode = .addi ∨ i.opcode = .cAddi
      · simp only [if_pos haddi]
      · have hfloat : isFloatAccess i.opcode = true := by
          rcases hsum with hx | hx | hx
          · exact absurd (.inl hx) haddi
          · exact absurd (.inr hx) haddi
          · exact hx
        simp only [if_neg haddi, if_pos hfloat]

theorem isMemorySink_operands {r b : MCPhysReg} {o : MCOperand}
    (h : isMemorySink i = some (r, b, o)) :
    isSinkOpcode i.opcode = true ∧ ∃ rest, i.operands = .reg r :: .reg b :: o :: rest := by
  unfold isMemorySink at h
  split at h
  next hop =>
    split at h
    next r' b' o' rest hops =>
      obtain ⟨rfl, heq⟩ := Prod.mk.inj (Option.some.inj h)
      obtain ⟨rfl, rfl⟩ := Prod.mk.inj heq
      exact ⟨hop, rest, hops⟩
    · exact absurd h (by simp)
  · exact absurd h (by simp)

/-- A memory pair: the `lui` sets its register to the high part, and the sink uses the target. -/
structure IsMemory (E : Env w) (addr : MCSymbol → Int) (p : LUIPair) (i sink : MCInst) : Prop where
  lui : i.opcode = .lui
  luiReg : p.luiReg ≠ 0
  luiOps : ∃ rest, i.operands = .reg p.luiReg :: rest
  sinkOp : isSinkOpcode sink.opcode = true
  sinkOps : ∃ o rest, sink.operands = .reg p.reg :: .reg p.luiReg :: o :: rest
  store : isSFormatOpcode sink.opcode = true → p.reg ≠ p.luiReg
  run : p.luiReg ≠ gpr 0 → ∃ hv : BitVec w, (∀ s : State w, exec E i s = .ok (s.set p.luiReg hv)) ∧
    (∀ s : State w, exec E sink (s.set p.luiReg hv) =
      execSum E sink p.reg (BitVec.ofInt w (p.target.at addr)) (s.set p.luiReg hv)) ∧
    ∀ k, p.high = some k → hv = BitVec.ofInt w (k.at addr)

theorem isMemory (hL : Linked addr E) (hi : Decoded i) (hsink : Decoded sink)
    (h : getMemoryPair data i sink = some p) (hfits : FitsPair w addr p sink) :
    IsMemory E addr p i sink := by
  obtain ⟨h, hkeep⟩ := Option.filter_eq_some_iff.mp h
  cases hx : isMemorySink sink with
  | none =>
    rw [hx, getPair] at h
    obtain ⟨_, -, h⟩ := Option.bind_eq_some_iff.mp h
    exact absurd h (by simp)
  | some q =>
    obtain ⟨r, b, o⟩ := q
    rw [hx] at h
    obtain ⟨hop, rest, hops⟩ := isMemorySink_operands hx
    obtain ⟨rfl, rfl, hne, hlui, hluiops, hv, lv, hexec, himm, hsum, hhigh⟩ :=
      getPair_sound hL hi hsink.oneSymbol hops h hfits
    refine ⟨hlui, hne, hluiops, hop, ⟨o, rest, hops⟩, fun hs heq => ?_, fun hzero =>
      ⟨hv, hexec, fun s => ?_, hhigh⟩⟩
    · rw [hs, heq] at hkeep
      exact absurd hkeep (by simp)
    · rw [exec_sink hop hops, himm, Option.elim_some,
        State.get_set_self s _ (not_le_zero hne hzero), hsum]

theorem exec_makeMemory (hp : IsMemory E addr p i sink) (base : MCPhysReg) (diff : Int)
    (s : State w) :
    exec E (makeMemoryWithBaseAndOffset sink base diff) s =
      execSum E sink p.reg (s.get base + BitVec.ofInt w diff) s := by
  obtain ⟨o, rest, hops⟩ := hp.sinkOps
  have hops' : (makeMemoryWithBaseAndOffset sink base diff).operands =
      .reg p.reg :: .reg base :: .imm diff :: rest := by
    rw [makeMemoryWithBaseAndOffset, hops]
    rfl
  rw [exec_sink (i := makeMemoryWithBaseAndOffset sink base diff) hp.sinkOp hops']
  show execSum E (makeMemoryWithBaseAndOffset sink base diff) p.reg _ s = _
  exact execSum_congr (i := makeMemoryWithBaseAndOffset sink base diff) (j := sink) rfl
    (sink_tables noOthers hp.sinkOp).1 _ _ _

/-- The memory pair that is deleted. -/
theorem simulated_memory (hT : Tabled I E) {base : MCPhysReg} {diff : Int}
    (h : DeadOk I dead (i :: sink :: rest)) (hp : IsMemory E addr p i sink)
    (hzero : p.luiReg ≠ gpr 0)
    (hsafe : writesReg I sink p.luiReg = true ∨ redefinedSafely I p.luiReg rest = true)
    (hfound : findReusableBase values p.target = some (base, diff))
    (hfits : FitsReuse w values base diff)
    (hkeep : ∀ q ∈ values, q.1 = gpr 0 ∨ writesReg I sink q.1 = false) (hsub : values' ⊆ values) :
    ∃ dead', DeadOk I dead' rest ∧ Simulated E addr dead dead' values values' [i, sink]
      [makeMemoryWithBaseAndOffset sink base diff] := by
  obtain ⟨hv, hlui, hsink, -⟩ := hp.run hzero
  obtain ⟨luiRest, hluiOps⟩ := hp.luiOps
  obtain ⟨o, sinkRest, hsinkOps⟩ := hp.sinkOps
  obtain ⟨hsum, himplicit, hbarrier, hjal, hjalr, hstored, hdefs⟩ := sink_tables I hp.sinkOp
  have hpos : ∀ q ∈ p.luiReg :: dead, ¬ q ≤ gpr 0 := by
    intro q hq
    rcases List.mem_cons.mp hq with rfl | hq
    · exact not_le_zero hp.luiReg hzero
    · exact (h q hq).1
  have hlater : ∀ q ∈ dead, q ≠ p.luiReg → redefinedSafely I q (sink :: rest) = true := by
    intro q hq hl
    refine (redefinedSafely_cons (h q hq).2).2.2 ?_
    rw [writesReg_first hluiOps (by rw [hp.lui]; rfl) (by rw [hp.lui]; rfl)]
    exact decide_eq_false hl
  have hnotdead : (I.get sink.opcode).numDefs = 0 → p.reg ∉ p.luiReg :: dead := by
    intro hzerodefs hmem
    rcases List.mem_cons.mp hmem with heq | hmem
    · exact hp.store (hstored hzerodefs) heq
    · have hread : readsReg I sink p.reg = true :=
        readsReg_of_mem (by rw [hzerodefs, hsinkOps]; simp)
      have hnot := (redefinedSafely_cons (hlater p.reg hmem (hp.store (hstored hzerodefs)))).2.1
      exact absurd (hread.symm.trans hnot) (by simp)
  refine ⟨(p.luiReg :: dead).filter fun r => !writesReg I sink r, fun q hq => ?_,
    fun so sn hagree hk => .inl ?_⟩
  · obtain ⟨hq, hw⟩ := List.mem_filter.mp hq
    rw [Bool.not_eq_true'] at hw
    refine ⟨hpos q hq, ?_⟩
    by_cases hl : q = p.luiReg
    · rcases hsafe with hsafe | hsafe
      · rw [← hl, hw] at hsafe
        exact absurd hsafe (by simp)
      · rw [hl]
        exact hsafe
    · have hq : q ∈ dead := (List.mem_cons.mp hq).resolve_left hl
      exact (redefinedSafely_cons (hlater q hq hl)).2.2 hw
  · obtain ⟨so', sn', hso, hsn, hagree'⟩ :=
      execSum_agree hT (hagree.set_left p.luiReg hv) hpos hsinkOps hsum
      hnotdead (BitVec.ofInt w (p.target.at addr))
    refine ⟨so', sn', by rw [run_pair, hlui, ok_bind, hsink, hso], ?_, hagree', ?_⟩
    · rw [run_singleton, exec_makeMemory hp, findReusableBase_sound hk hfound hfits, hsn]
    · have hnobar : isLUIBarrier I sink = false := by
        rw [isLUIBarrier, hbarrier, beq_eq_false_iff_ne.mpr hjal, beq_eq_false_iff_ne.mpr hjalr]
        rfl
      intro q hq
      rcases hkeep q (hsub hq) with hzeroreg | hw
      · have hboth := hk q (hsub hq)
        rw [hzeroreg, State.get_of_le _ (Nat.le_refl _)] at hboth ⊢
        exact hboth
      · rw [execSum_frame hT hsinkOps _ hnobar hsn q.1 hw]
        exact hk q (hsub hq)

/-- The memory pair that is learned. -/
theorem learn_memory (hT : Tabled I E) (hp : IsMemory E addr p i sink) (hzero : p.luiReg ≠ gpr 0)
    (hkeep : ∀ q ∈ learnMemoryPair values p, q.1 = gpr 0 ∨ writesReg I sink q.1 = false)
    {s s' s'' : State w} (hk : Knows addr values s) (hs' : exec E i s = .ok s')
    (hs'' : exec E sink s' = .ok s'') : Knows addr (learnMemoryPair values p) s'' := by
  obtain ⟨hv, hlui, hsink, hhigh⟩ := hp.run hzero
  obtain ⟨-, -, hbarrier, hjal, hjalr, -⟩ := sink_tables I hp.sinkOp
  obtain rfl := Except.ok.inj ((hlui s).symm.trans hs')
  have hmid := knows_learnMemoryPair hk hp.luiReg hzero hhigh
  have hnobar : isLUIBarrier I sink = false := by
    rw [isLUIBarrier, hbarrier, beq_eq_false_iff_ne.mpr hjal, beq_eq_false_iff_ne.mpr hjalr]
    rfl
  intro q hq
  rcases hkeep q hq with hzeroreg | hw
  · have hboth := hmid q hq
    rw [hzeroreg, State.get_of_le _ (Nat.le_refl _)] at hboth ⊢
    exact hboth
  · rw [exec_defs hT hnobar hs'' q.1 hw]
    exact hmid q hq

variable (I data) in
/-- What the pair turns have found. -/
theorem luiTurn_pair (values : RegValueMap) (i : MCInst) (rest : List MCInst) :
    match luiTurn I data values i rest with
    | .reuseMaterialized p base diff => ∃ sink rest', rest = sink :: rest' ∧
        getMaterializedPair data i sink = some p ∧ findReusableBase values p.target = some (base, diff)
    | .learnMaterialized p => ∃ sink rest', rest = sink :: rest' ∧ getMaterializedPair data i sink = some p
    | .reuseMemory p sink base diff => ∃ rest', rest = sink :: rest' ∧
        getMemoryPair data i sink = some p ∧ findReusableBase values p.target = some (base, diff)
    | .learnMemory p sink => ∃ rest', rest = sink :: rest' ∧ getMemoryPair data i sink = some p
    | .reuseLUI rd v base diff => standaloneLUI values i = some (rd, v, base, diff)
    | .barrier => isLUIBarrier I i = true
    | .simple => True := by
  rw [luiTurn]
  have hreuse : ∀ {sink : MCInst} {rest' : List MCInst} {p : LUIPair} {b : MCPhysReg × Int},
      reuse I values sink rest' p = some b → findReusableBase values p.target = some b := by
    intro sink rest' p b hb
    rw [reuse] at hb
    split at hb
    · exact hb
    · exact absurd hb (by simp)
  by_cases hbarrier : isLUIBarrier I i = true
  · rw [if_pos hbarrier]
    exact hbarrier
  rw [if_neg hbarrier]
  cases rest with
  | nil =>
    simp only [List.head?_nil, Option.bind_none]
    cases hs : standaloneLUI values i with
    | none => trivial
    | some q => exact rfl
  | cons sink rest' =>
    simp only [List.head?_cons, Option.bind_some, List.tail_cons]
    cases hmat : getMaterializedPair data i sink with
    | some p =>
      by_cases hzero : p.reg = gpr 0
      · simp only [if_pos hzero]
        exact ⟨sink, rest', rfl, hmat⟩
      · simp only [if_neg hzero]
        cases hb : reuse I values sink rest' p with
        | none => exact ⟨sink, rest', rfl, hmat⟩
        | some b => exact ⟨sink, rest', rfl, hmat, hreuse hb⟩
    | none =>
      cases hmem : getMemoryPair data i sink with
      | some p =>
        simp only [Option.map_some]
        cases hb : reuse I values sink rest' p with
        | none => exact ⟨rest', rfl, hmem⟩
        | some b => exact ⟨rest', rfl, hmem, hreuse hb⟩
      | none =>
        simp only [Option.map_none]
        cases hs : standaloneLUI values i with
        | none => trivial
        | some q => exact rfl

/-- The sink of a pair replaced, and its `lui` erased. -/
theorem replace_pair {t : LUIPass} {done : List MCInst} (ht : t.insts = done ++ i :: sink :: rest)
    (hpos : t.pos = done.length) (sink' : MCInst) :
    (t.insts.set (t.pos + 1) sink').eraseIdx t.pos = done ++ ([sink'] ++ rest) := by
  have hset : (done ++ i :: sink :: rest).set (done.length + 1) sink' = done ++ i :: sink' :: rest := by
    have hmid := set_middle (A := done ++ [i]) (B := rest) (x := sink) (y := sink')
      (k := done.length + 1) (by simp)
    rwa [List.append_assoc, List.append_assoc] at hmid
  rw [ht, hpos, hset, eraseIdx_middle rfl, List.singleton_append]

/-- A `lui` whose value is held. -/
theorem simulated_reuseLUI {rd base : MCPhysReg} {v : KnownValue} {diff : Int} (hi : Decoded i)
    (hdead : ∀ q ∈ dead, ¬ q ≤ gpr 0) (hs : standaloneLUI values i = some (rd, v, base, diff))
    (hfits : FitsReuse w values base diff) :
    Simulated E addr dead (dead.filter fun r => !writesReg I i r) values (setKnownValue values rd v) [i]
      [makeADDI rd base diff] := by
  unfold standaloneLUI at hs
  split at hs
  next rd' imm hl =>
    split at hs
    · exact absurd hs (by simp)
    · obtain ⟨b, hfound, hs⟩ := Option.bind_eq_some_iff.mp hs
      split at hs
      · obtain ⟨rfl, hbase⟩ := Prod.mk.inj (Option.some.inj hs)
        obtain ⟨rfl, rfl⟩ := Prod.mk.inj hbase
        simp only [isLUI] at hl
        split at hl
        next l hi' tail hop hops =>
          split at hl
          · obtain ⟨rfl, rfl⟩ := Prod.mk.inj (Option.some.inj hl)
            have hne : l ≠ 0 := by
              have hreg := hi.reg (.inl hop)
              rwa [MCInst.getReg, hops] at hreg
            have hexec : ∀ s : State w, exec E i s = .ok (s.set l
                (BitVec.ofInt w ((KnownValue.absolute (getLUIValue imm)).at addr))) := by
              intro s
              rw [exec, hop, hops]
              show Except.ok (s.set l (luiValue w imm)) = _
              rw [luiValue_eq]
              rfl
            intro so sn hagree hk
            refine .inl ⟨_, _, by rw [run_singleton, hexec], by rw [run_singleton, exec_makeADDI], ?_, ?_⟩
            · rw [findReusableBase_sound hk hfound hfits]
              refine (hagree.set l _ hdead).mono fun q hq => ?_
              obtain ⟨hq, hql⟩ := List.mem_filter.mp hq
              refine List.mem_filter.mpr ⟨hq, ?_⟩
              rw [writesReg_first hops (by rw [hop]; rfl) (by rw [hop]; rfl)]
              simpa using hql
            · rw [findReusableBase_sound hk hfound hfits]
              exact Knows.set (fun q hq _ => hk q hq) (not_le_zero hne) _ (fun _ => hk)
          · exact absurd hl (by simp)
        · exact absurd hl (by simp)
      · exact absurd hs (by simp)
  · exact absurd hs (by simp)

/-- One turn of the loop: what it reads, what it leaves, and that the one does what the other
does. -/
theorem turn_spec (hT : Tabled I E) (hL : Linked addr E) {t : LUIPass} {done : List MCInst}
    (ht : t.insts = done ++ i :: rest) (hpos : t.pos = done.length)
    (hdead : DeadOk I dead (i :: rest)) (hdec : ∀ j ∈ i :: rest, Decoded j)
    (hclean : CleanTurn I w addr t.values i rest (luiTurn I data t.values i rest)) :
    ∃ t' olds news rest' dead', t.step I data = some t' ∧ i :: rest = olds ++ rest' ∧ olds ≠ [] ∧
      t'.insts = done ++ (news ++ rest') ∧ t'.pos = done.length + news.length ∧ DeadOk I dead' rest' ∧
      Simulated E addr dead dead' t.values t'.values olds news := by
  have hget : t.insts[t.pos]? = some i := by rw [ht, hpos, getElem?_middle rfl]
  have hdrop : t.insts.drop (t.pos + 1) = rest := by rw [ht, hpos, drop_middle rfl]
  have hi := hdec i List.mem_cons_self
  have hposdead : ∀ q ∈ dead, ¬ q ≤ gpr 0 := fun q hq => (hdead q hq).1
  have hpair := luiTurn_pair I data t.values i rest
  rw [LUIPass.step, hget, Option.bind_some, hdrop]
  have hone : ∀ (values' : RegValueMap),
      (∀ s s' : State w, Knows addr t.values s → exec E i s = .ok s' → Knows addr values' s') →
      ∃ t' olds news rest' dead',
        some { t with pos := t.pos + 1, values := values' } = some t' ∧ i :: rest = olds ++ rest' ∧
        olds ≠ [] ∧ t'.insts = done ++ (news ++ rest') ∧ t'.pos = done.length + news.length ∧
        DeadOk I dead' rest' ∧ Simulated E addr dead dead' t.values t'.values olds news := by
    intro values' hknows
    exact ⟨_, [i], [i], rest, _, rfl, rfl, List.cons_ne_nil _ _,
      by rw [List.singleton_append]; exact ht,
      by rw [hpos]; rfl, hdead.step, simulated_same hT hdead hknows⟩
  cases hturn : luiTurn I data t.values i rest with
  | barrier =>
    rw [hturn] at hpair hclean
    exact hone .cleared fun s s' _ _ => knows_cleared
  | simple =>
    rw [hturn] at hpair hclean
    exact hone _ fun s s' hk hs' => learnSimpleValue_sound hT hi hk hclean hs'
  | reuseLUI rd v base diff =>
    rw [hturn] at hpair hclean
    exact ⟨_, [i], [makeADDI rd base diff], rest, _, rfl, rfl, List.cons_ne_nil _ _,
      by rw [ht, hpos, set_middle rfl, List.singleton_append], by rw [hpos]; rfl, hdead.step,
      simulated_reuseLUI hi hposdead hpair hclean⟩
  | learnMaterialized p =>
    rw [hturn] at hpair hclean
    obtain ⟨sink, rest', rfl, hmat⟩ := hpair
    obtain ⟨hzero, hfits⟩ := hclean
    have hp := isMaterialized hL hi (hdec sink (by simp)) hmat (hfits sink rfl)
    obtain ⟨dead', hdead', hsim⟩ := simulated_pair hT hdead
      (fun s s' hk hs' s'' hs'' => learn_materialized hp hzero hk hs' hs'')
    exact ⟨_, [i, sink], [i, sink], rest', dead', rfl, rfl, List.cons_ne_nil _ _, by rw [ht]; rfl,
      by rw [hpos]; rfl, hdead', hsim⟩
  | learnMemory p sink =>
    rw [hturn] at hpair hclean
    obtain ⟨rest', rfl, hmem⟩ := hpair
    obtain ⟨hzero, hfits, hkeep⟩ := hclean
    have hp := isMemory hL hi (hdec sink (by simp)) hmem hfits
    obtain ⟨dead', hdead', hsim⟩ := simulated_pair hT hdead
      (fun s s' hk hs' s'' hs'' => learn_memory hT hp hzero hkeep hk hs' hs'')
    exact ⟨_, [i, sink], [i, sink], rest', dead', rfl, rfl, List.cons_ne_nil _ _, by rw [ht]; rfl,
      by rw [hpos]; rfl, hdead', hsim⟩
  | reuseMaterialized p base diff =>
    rw [hturn] at hpair hclean
    obtain ⟨sink, rest', rfl, hmat, hfound⟩ := hpair
    obtain ⟨hzero, hsafe, hfits, hreuse⟩ := hclean
    have hp := isMaterialized hL hi (hdec sink (by simp)) hmat (hfits sink rfl)
    obtain ⟨dead', hdead', hsim⟩ := simulated_materialized hdead hp hzero hsafe hfound hreuse
    refine ⟨_, [i, sink], [makeADDI p.reg base diff], rest', dead', rfl, rfl, List.cons_ne_nil _ _,
      ?_, by rw [hpos]; rfl, hdead', hsim⟩
    exact replace_pair ht hpos _
  | reuseMemory p sink base diff =>
    rw [hturn] at hpair hclean
    obtain ⟨rest', rfl, hmem, hfound⟩ := hpair
    obtain ⟨hzero, hsafe, hfits, hreuse, hkeep, stale, hstale, hsub⟩ := hclean
    have hp := isMemory hL hi (hdec sink (by simp)) hmem hfits
    obtain ⟨dead', hdead', hsim⟩ :=
      simulated_memory hT hdead hp hzero hsafe hfound hreuse hkeep hsub
    have hinsts := replace_pair ht hpos (makeMemoryWithBaseAndOffset sink base diff)
    have hread : (done ++ ([makeMemoryWithBaseAndOffset sink base diff] ++ rest'))[done.length + 1]? =
        some stale := by
      rw [← List.append_assoc, List.getElem?_append_right (by simp)]
      simpa [List.head?_eq_getElem?] using hstale
    refine ⟨⟨_, t.pos + 1, learnSimpleValue I t.values stale⟩, [i, sink],
      [makeMemoryWithBaseAndOffset sink base diff], rest', dead', ?_, rfl, List.cons_ne_nil _ _, hinsts,
      by rw [hpos]; rfl, hdead', hsim⟩
    simp only []
    rw [hinsts, hpos, hread]
    rfl

/-- One piece behind the other. -/
theorem Simulated.append {dead' dead'' : List MCPhysReg} {values'' : RegValueMap}
    {olds news olds' news' : List MCInst} (h : Simulated E addr dead dead' values values' olds news)
    (h' : Simulated E addr dead' dead'' values' values'' olds' news') :
    Simulated E addr dead dead'' values values'' (olds ++ olds') (news ++ news') := by
  intro so sn hagree hk
  rw [run_append, run_append]
  rcases h so sn hagree hk with ⟨so₁, sn₁, hso, hsn, hagree₁, hk₁⟩ | ⟨e, hso, hsn⟩
  · rw [hso, hsn, ok_bind, ok_bind]
    exact h' so₁ sn₁ hagree₁ hk₁
  · rw [hso, hsn, error_bind]
    exact .inr ⟨e, rfl, rfl⟩

theorem simulated_nil (dead : List MCPhysReg) (values : RegValueMap) :
    Simulated E addr dead dead values values [] [] :=
  fun so sn hagree hk => .inl ⟨so, sn, rfl, rfl, hagree, hk⟩

end Turn

/-! ## The loop -/

section Loop

variable {I : MCInstrInfo} {w : Nat} {E : Env w} {addr : MCSymbol → Int} {data : MCSymbol → Option Int}

/-- The next turn of a loop that has not ended. -/
def LUIPass.Next (I : MCInstrInfo) (data : MCSymbol → Option Int) (t t' : LUIPass) : Prop :=
  t.pos ≠ t.insts.length ∧ t.step I data = some t'

/-- Every turn of the loop over a block is clean. -/
def CleanBlock (I : MCInstrInfo) (w : Nat) (addr : MCSymbol → Int) (data : MCSymbol → Option Int)
    (values : RegValueMap) (insts : List MCInst) : Prop :=
  ∀ t, Relation.ReflTransGen (LUIPass.Next I data) ⟨insts, 0, values⟩ t → ∀ i, t.insts[t.pos]? = some i →
    CleanTurn I w addr t.values i (t.insts.drop (t.pos + 1))
      (luiTurn I data t.values i (t.insts.drop (t.pos + 1)))

/-- From a turn on, the loop comes to an end, and what it leaves does what the block did. -/
theorem loop_spec (hT : Tabled I E) (hL : Linked addr E) {values₀ : RegValueMap}
    {insts : List MCInst}
    (hclean : CleanBlock I w addr data values₀ insts) (hdec : ∀ j ∈ insts, Decoded j) :
    ∀ (n : Nat) (t : LUIPass) (before done rest : List MCInst) (dead : List MCPhysReg),
      rest.length < n → insts = before ++ rest → t.insts = done ++ rest → t.pos = done.length →
      DeadOk I dead rest → Relation.ReflTransGen (LUIPass.Next I data) ⟨insts, 0, values₀⟩ t →
      Simulated E addr [] dead values₀ t.values before done →
      ∃ t', LUIPass.loop I data n t = some t' ∧
        Simulated E addr [] [] values₀ t'.values insts t'.insts := by
  intro n
  induction n with
  | zero => exact fun _ _ _ _ _ hn => absurd hn (Nat.not_lt_zero _)
  | succ n ih =>
    intro t before done rest dead hn hinsts ht hpos hdead hreach hsim
    rw [LUIPass.loop]
    cases rest with
    | nil =>
      -- nothing is left: every register that was dead is set again
      rw [List.append_nil] at hinsts ht
      obtain rfl := hdead.nil
      rw [if_pos (by rw [hpos, ht]), hinsts]
      exact ⟨t, rfl, by rwa [ht]⟩
    | cons i rest =>
      have hget : t.insts[t.pos]? = some i := by rw [ht, hpos, getElem?_middle rfl]
      have hdrop : t.insts.drop (t.pos + 1) = rest := by rw [ht, hpos, drop_middle rfl]
      have hne : t.pos ≠ t.insts.length := by
        rw [hpos, ht, List.length_append, List.length_cons]
        omega
      have hturn := hclean t hreach i hget
      rw [hdrop] at hturn
      obtain ⟨t', olds, news, rest', dead', hstep, hsplit, holds, ht', hpos', hdead', hsim'⟩ :=
        turn_spec hT hL ht hpos hdead
          (fun j hj => hdec j (by rw [hinsts]; exact List.mem_append_right _ hj)) hturn
      rw [if_neg hne, hstep, Option.bind_some]
      have hlen : rest'.length < n := by
        have hsum := congrArg List.length hsplit
        have hpositive := List.length_pos_iff.mpr holds
        rw [List.length_append] at hsum
        omega
      refine ih t' (before ++ olds) (done ++ news) rest' dead' hlen ?_ ?_ ?_ hdead'
        (hreach.tail ⟨hne, hstep⟩) (hsim.append hsim')
      · rw [hinsts, hsplit, List.append_assoc]
      · rw [ht', List.append_assoc]
      · rw [hpos', List.length_append]

/-- The pass over one block: what it leaves does the same, and what is known behind it holds. -/
theorem reuseBlock_spec (hT : Tabled I E) (hL : Linked addr E) {values : RegValueMap}
    {insts : List MCInst}
    (hclean : CleanBlock I w addr data values insts) (hdec : ∀ j ∈ insts, Decoded j) :
    ∃ out values', reuseBlock I data values insts = some (out, values') ∧ ∀ s, Knows addr values s →
      run E out s = run E insts s ∧ ∀ s', run E insts s = .ok s' → Knows addr values' s' := by
  obtain ⟨t, hloop, hsim⟩ := loop_spec hT hL hclean hdec (insts.length + 1) ⟨insts, 0, values⟩ [] []
    insts [] (Nat.lt_succ_self _) rfl rfl rfl (fun r hr => absurd hr List.not_mem_nil) .refl
    (simulated_nil _ _)
  refine ⟨t.insts, t.values, by rw [reuseBlock, hloop]; rfl, fun s hk => ?_⟩
  rcases hsim s s (AgreeOff.refl _ s) hk with ⟨so, sn, hso, hsn, hagree, hk'⟩ | ⟨e, hso, hsn⟩
  · obtain rfl := hagree.eq
    refine ⟨by rw [hsn, hso], fun s' hs' => ?_⟩
    obtain rfl := Except.ok.inj (hso.symm.trans hs')
    exact hk'
  · refine ⟨by rw [hsn, hso], fun s' hs' => ?_⟩
    rw [hso] at hs'
    exact absurd hs' (by simp)

end Loop

/-! ## The function -/

section Function

variable {I : MCInstrInfo} {w : Nat} {E : Env w} {addr : MCSymbol → Int} {data : MCSymbol → Option Int}
  {hasCFG : Bool}

/-- Every block is clean, and where values are carried into a block, it is entered from the block in
front only. -/
def CleanFunction (I : MCInstrInfo) {w : Nat} (E : Env w) (addr : MCSymbol → Int)
    (data : MCSymbol → Option Int) (hasCFG : Bool) (enters : MCSymbol → State w → Prop) :
    Option BasicBlock → RegValueMap → List BasicBlock → Prop
  | _, _, [] => True
  | prev, values, b :: rest =>
    CleanBlock I w addr data (valuesAt hasCFG prev values b) b.insts ∧
      (∀ a, prev = some a → canCarryValuesToBlock hasCFG prev b = true →
        ∀ s', enters b.label s' → ∃ s, enters a.label s ∧ run E a.insts s = .ok s') ∧
      ∀ q, reuseBlock I data (valuesAt hasCFG prev values b) b.insts = some q →
        CleanFunction I E addr data hasCFG enters (some b) q.2 rest

/-- What is known in front of a block holds where the block is entered. -/
theorem knows_valuesAt {enters : MCSymbol → State w → Prop} {prev : Option BasicBlock}
    {values : RegValueMap} {b : BasicBlock}
    (hprev : ∀ a, prev = some a → ∀ s s', enters a.label s → run E a.insts s = .ok s' →
      Knows addr values s')
    (hcarry : ∀ a, prev = some a → canCarryValuesToBlock hasCFG prev b = true →
      ∀ s', enters b.label s' → ∃ s, enters a.label s ∧ run E a.insts s = .ok s')
    {s : State w} (hs : enters b.label s) : Knows addr (valuesAt hasCFG prev values b) s := by
  rw [valuesAt]
  by_cases hc : canCarryValuesToBlock hasCFG prev b = true
  · rw [if_pos hc]
    cases prev with
    | none => exact absurd hc Bool.false_ne_true
    | some a =>
      obtain ⟨s₀, hs₀, hrun⟩ := hcarry a rfl hc s hs
      exact hprev a rfl s₀ s hs₀ hrun
  · rw [if_neg hc]
    exact knows_cleared

/-- **Every block does what it did**, from every state in which it is entered. -/
theorem reuseFunction_run (hT : Tabled I E) (hL : Linked addr E)
    {enters : MCSymbol → State w → Prop}
    {blocks : List BasicBlock} (hdec : ∀ b ∈ blocks, ∀ i ∈ b.insts, Decoded i)
    (hclean : CleanFunction I E addr data hasCFG enters none .cleared blocks) :
    ∃ outs, reuseFunction I data hasCFG none .cleared blocks = some outs ∧
      List.Forall₂ (fun b out => ∀ s, enters b.label s → run E out.insts s = run E b.insts s)
        blocks outs := by
  have hfrom : ∀ (blocks : List BasicBlock) (prev : Option BasicBlock) (values : RegValueMap),
      (∀ b ∈ blocks, ∀ i ∈ b.insts, Decoded i) →
      (∀ a, prev = some a → ∀ s s', enters a.label s → run E a.insts s = .ok s' →
        Knows addr values s') →
      CleanFunction I E addr data hasCFG enters prev values blocks →
      ∃ outs, reuseFunction I data hasCFG prev values blocks = some outs ∧
        List.Forall₂ (fun b out => ∀ s, enters b.label s → run E out.insts s = run E b.insts s)
          blocks outs := by
    intro blocks
    induction blocks with
    | nil => exact fun _ _ _ _ _ => ⟨[], rfl, .nil⟩
    | cons b rest ih =>
      intro prev values hdec hprev hclean
      obtain ⟨hblock, hcarry, hrest⟩ := hclean
      obtain ⟨out, values', hreuse, hspec⟩ :=
        reuseBlock_spec hT hL hblock (hdec b List.mem_cons_self)
      have hknows : ∀ s, enters b.label s → Knows addr (valuesAt hasCFG prev values b) s :=
        fun s hs => knows_valuesAt hprev hcarry hs
      obtain ⟨outs, houts, hall⟩ := ih (some b) values'
        (fun c hc => hdec c (List.mem_cons_of_mem _ hc))
        (by
          rintro a ha s s' hs hrun
          obtain rfl := Option.some.inj ha
          exact (hspec s (hknows s hs)).2 s' hrun)
        (hrest _ hreuse)
      refine ⟨{ b with insts := out } :: outs, ?_,
        .cons (fun s hs => (hspec s (hknows s hs)).1) hall⟩
      rw [reuseFunction, hreuse, Option.bind_some, houts]
      rfl
  exact hfrom blocks none .cleared hdec (fun a ha => absurd ha (by simp)) hclean

end Function

/-- Other instructions set what they define to zero; `%hi` and `%lo` are those of `addr`. -/
def zeroingOthers (I : MCInstrInfo) (addr : MCSymbol → Int) : Env 32 where
  value
    | .target k e => if k = vkHi then (e.eval addr + 0x800) / 2 ^ 12 % 2 ^ 20 else (e.eval addr).bmod (2 ^ 12)
    | _ => 0
  float op r _ s := if (I.get op).mayStore then s else s.set r 0
  other i s := .ok ((definedRegs I i).foldl (fun s r => s.set r 0) s)

theorem get_foldl_set (rs : List MCPhysReg) (s : State 32) {q : MCPhysReg} (hq : q ∉ rs) :
    (rs.foldl (fun s r => s.set r 0) s).get q = s.get q := by
  induction rs generalizing s with
  | nil => rfl
  | cons r rs ih =>
    rw [List.mem_cons, not_or] at hq
    rw [List.foldl_cons, ih _ hq.2, State.get_set_of_ne _ _ hq.1]

theorem agreeOff_foldl_set (rs : List MCPhysReg) {dead : List MCPhysReg} {s t : State 32}
    (h : AgreeOff dead s t) (hdead : ∀ q ∈ dead, ¬ q ≤ gpr 0) :
    AgreeOff (dead.filter (· ∉ rs)) (rs.foldl (fun s r => s.set r 0) s)
      (rs.foldl (fun s r => s.set r 0) t) := by
  induction rs generalizing dead s t with
  | nil => exact h.mono fun q hq => List.mem_filter.mpr ⟨hq, decide_eq_true List.not_mem_nil⟩
  | cons r rs ih =>
    refine (ih (h.set r 0 hdead) fun q hq => hdead q (List.mem_filter.mp hq).1).mono fun q hq => ?_
    obtain ⟨hq, hrs⟩ := List.mem_filter.mp hq
    obtain ⟨hq, hr⟩ := List.mem_filter.mp hq
    refine List.mem_filter.mpr ⟨hq, decide_eq_true fun hmem => ?_⟩
    rcases List.mem_cons.mp hmem with heq | hmem
    · exact of_decide_eq_true hr heq
    · exact of_decide_eq_true hrs hmem

theorem zeroingOthers_tabled (I : MCInstrInfo) (addr : MCSymbol → Int) :
    Tabled I (zeroingOthers I addr) where
  frame i s s' _ h r hr := by
    obtain rfl := Except.ok.inj h
    exact get_foldl_set _ s fun hmem => Bool.false_ne_true (hr.symm.trans (mem_definedRegs.mp hmem))
  agree i _ dead s t h hdead := by
    refine ⟨_, _, rfl, rfl, (agreeOff_foldl_set (definedRegs I i) h fun q hq => (hdead q hq).1).mono ?_⟩
    intro q hq
    obtain ⟨hq, hdef⟩ := List.mem_filter.mp hq
    refine List.mem_filter.mpr ⟨hq, ?_⟩
    rw [Bool.not_eq_true', ← Bool.not_eq_true, ← mem_definedRegs]
    exact of_decide_eq_true hdef
  floatFrame op r a s q _ h := by
    simp only [zeroingOthers]
    split
    · rfl
    next hstore =>
      rcases h with hne | hstore'
      · exact State.get_set_of_ne _ _ hne
      · exact absurd hstore' hstore
  floatAgree op r a dead s t _ h hpos hstore := by
    simp only [zeroingOthers]
    split
    next hmay =>
      refine h.mono fun q hq => List.mem_filter.mpr ⟨hq, decide_eq_true ?_⟩
      rintro rfl
      exact hstore hmay hq
    · exact h.set r 0 hpos

theorem zeroingOthers_linked (I : MCInstrInfo) (addr : MCSymbol → Int) :
    Linked addr (zeroingOthers I addr) where
  hi _ := rfl
  lo _ := rfl

/-- `lui a5, 1; addi a5, a5, 16; lui a1, 1; lw a1, 20(a1)`, and an instruction behind. -/
def constantThenLoad (i : MCInst) : BasicBlock :=
  ⟨0, [⟨.lui, [.reg (gpr 15), .imm 1], false⟩,
    ⟨.addi, [.reg (gpr 15), .reg (gpr 15), .imm 16], false⟩,
    ⟨.lui, [.reg (gpr 11), .imm 1], false⟩,
    ⟨.lw, [.reg (gpr 11), .reg (gpr 11), .imm 20], false⟩, i], [], []⟩

/-- `sw a1, 0(a2)`. -/
def storeLoaded : MCInst := ⟨.sw, [.reg (gpr 11), .reg (gpr 12), .imm 0], false⟩

/-- `lui a0, 18`. -/
def otherLUI : MCInst := ⟨.lui, [.reg (gpr 10), .imm 18], false⟩

theorem constantThenLoad_decoded {i : MCInst} (hi : i = storeLoaded ∨ i = otherLUI) :
    ∀ j ∈ (constantThenLoad i).insts, Decoded j := by
  intro j hj
  have hcases : j = ⟨.lui, [.reg (gpr 15), .imm 1], false⟩ ∨
      j = ⟨.addi, [.reg (gpr 15), .reg (gpr 15), .imm 16], false⟩ ∨
      j = ⟨.lui, [.reg (gpr 11), .imm 1], false⟩ ∨
      j = ⟨.lw, [.reg (gpr 11), .reg (gpr 11), .imm 20], false⟩ ∨ j = storeLoaded ∨ j = otherLUI := by
    simp only [constantThenLoad, List.mem_cons, List.not_mem_nil, or_false] at hj
    rcases hj with h | h | h | h | h
    · exact .inl h
    · exact .inr (.inl h)
    · exact .inr (.inr (.inl h))
    · exact .inr (.inr (.inr (.inl h)))
    · exact .inr (.inr (.inr (.inr (h ▸ hi))))
  rcases hcases with rfl | rfl | rfl | rfl | rfl | rfl <;>
    refine ⟨by decide, (fun h => absurd h (by decide)), fun k e he _ => ?_⟩ <;>
    simp [storeLoaded, otherLUI] at he

theorem fitsPair_word (addr : MCSymbol → Int) (p : LUIPair) (sink : MCInst) :
    FitsPair 32 addr p sink := by
  rw [FitsPair]
  split
  · exact fun v _ => .inl rfl
  · exact .inl rfl

theorem reuseFunction_constantThenLoad : ∃ outs,
    reuseFunction noOthers (fun _ => none) true none .cleared [constantThenLoad storeLoaded] = some outs ∧
      List.Forall₂ (fun b out => ∀ s, True → run (zeroingOthers noOthers fun _ => 0) out.insts s =
        run (zeroingOthers noOthers fun _ => 0) b.insts s) [constantThenLoad storeLoaded] outs := by
  have hdec : ∀ b ∈ [constantThenLoad storeLoaded], ∀ i ∈ b.insts, Decoded i := by
    intro b hb
    obtain rfl := List.mem_singleton.mp hb
    exact constantThenLoad_decoded (.inl rfl)
  have hclean : CleanFunction noOthers (zeroingOthers noOthers fun _ => 0) (fun _ => 0) (fun _ => none) true
      (fun _ _ => True) none .cleared [constantThenLoad storeLoaded] := by
    refine ⟨?_, fun a ha => absurd ha (by simp), fun _ _ => trivial⟩
    intro t ht i hi
    rcases Relation.ReflTransGen.cases_head ht with rfl | ⟨t₁, ⟨-, hstep⟩, ht⟩
    · obtain rfl := Option.some.inj hi
      exact ⟨by decide, fun sink _ => fitsPair_word _ _ _⟩
    obtain rfl := Option.some.inj hstep
    rcases Relation.ReflTransGen.cases_head ht with rfl | ⟨t₂, ⟨-, hstep⟩, ht⟩
    · obtain rfl := Option.some.inj hi
      exact ⟨by decide, .inl (by decide), fitsPair_word _ _ _, fun _ _ _ _ => .inl rfl, by decide,
        storeLoaded, rfl, by decide⟩
    obtain rfl := Option.some.inj hstep
    rcases Relation.ReflTransGen.cases_head ht with rfl | ⟨t₃, ⟨-, hstep⟩, ht⟩
    · obtain rfl := Option.some.inj hi
      exact trivial
    obtain rfl := Option.some.inj hstep
    rcases Relation.ReflTransGen.cases_head ht with rfl | ⟨t₄, ⟨hend, -⟩, -⟩
    · have hnone : none = some i := hi
      exact absurd hnone (by simp)
    · exact absurd rfl hend
  exact reuseFunction_run (zeroingOthers_tabled _ _) (zeroingOthers_linked noOthers _) hdec hclean

/-- The `lui` behind the load counts as done when the load gets another base, and becomes an `addi`
to what `a0` held. -/
theorem not_reused_otherLUI : Tabled noOthers (zeroingOthers noOthers fun _ => 0) ∧
    Linked (fun _ => 0) (zeroingOthers noOthers fun _ => 0) ∧
    (∀ i ∈ (constantThenLoad otherLUI).insts, Decoded i) ∧
    ∃ out, reuseFunction noOthers (fun _ => none) true none .cleared [constantThenLoad otherLUI] =
      some [out] ∧ ∃ s, run (zeroingOthers noOthers fun _ => 0) out.insts s ≠
        run (zeroingOthers noOthers fun _ => 0) (constantThenLoad otherLUI).insts s := by
  refine ⟨zeroingOthers_tabled _ _, zeroingOthers_linked _ _, constantThenLoad_decoded (.inr rfl),
    _, rfl, ⟨fun _ => 0, fun _ => 0⟩, fun heq => ?_⟩
  have hread := congrArg (fun r => r.toOption.map (·.get (gpr 10))) heq
  revert hread
  decide

end RvLlvm.Bolt
