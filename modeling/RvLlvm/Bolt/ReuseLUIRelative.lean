import RvLlvm.Bolt.ConstLUISound

/-!
# Reusing frame addresses

Model of `RISCVReuseLUIRelative` (`bolt/lib/Passes/RISCV/RISCVReuseLUIRelative.cpp`): a `c.lui` and
a `sub` in front of a load that form the frame address of the pair remembered last are deleted.
Nothing in front of the iterator is touched, so the loop is a recursion on what is left of the
block. The number of `SUB` among the opcodes is a parameter.

* `Idle`: a pair that computes what its register holds.
* `reuseRelative_run`: the block that is left runs as the block that was read, when no instruction
  between the remembered pair and a deleted one sets one of its two registers (`clean`).
-/

namespace RvLlvm.Bolt

open Support

/-! ## The pass -/

/-- What the loop remembers of the last pair: `LastTargetReg`, `LastLuiImm` and `LastSubLHS`. -/
structure FramePair where
  reg : MCPhysReg
  imm : Int
  lhs : MCPhysReg
  deriving DecidableEq

section Pass

variable (sub : Nat)

/-- A `c.lui`, the `sub` of its register and a load at the result. -/
def framePair (i j k : MCInst) : Option FramePair :=
  if i.opcode = .cLui ∧ j.opcode = .other sub ∧ k.opcode = .lw then
    match i.operands, j.operands, k.operands with
    | .reg r :: .imm v :: _, [.reg d, .reg a, .reg b], _ :: .reg c :: _ =>
      if d = r ∧ b = r ∧ c = r then some ⟨r, v, a⟩ else none
    | _, _, _ => none
  else none

/-- `runOnFunction` for what is left of a block; `last` is the pair remembered. -/
def reuseRelative (last : Option FramePair) : List MCInst → List MCInst
  | i :: j :: k :: rest =>
    match framePair sub i j k with
    | some p =>
      if last = some p then reuseRelative last (k :: rest)
      else i :: j :: k :: reuseRelative (some p) rest
    | none => i :: reuseRelative last (j :: k :: rest)
  | insts => insts

/-- The instruction sets neither register of the pair, and is no call. -/
def keepsPair (I : MCInstrInfo) (last : Option FramePair) (i : MCInst) : Bool :=
  match last with
  | some p => !isLUIBarrier I i && !writesReg I i p.reg && !writesReg I i p.lhs
  | none => true

/-- Between a pair that is remembered and each pair deleted for it no instruction sets one of its
registers; `kept` says so of what was read behind the pair remembered. -/
def clean (I : MCInstrInfo) (last : Option FramePair) (kept : Bool) : List MCInst → Bool
  | i :: j :: k :: rest =>
    match framePair sub i j k with
    | some p =>
      if last = some p then kept && clean I last kept (k :: rest)
      else clean I (some p) (keepsPair I (some p) k) rest
    | none => clean I last (kept && keepsPair I last i) (j :: k :: rest)
  | _ => true

end Pass

/-! ## Pairs -/

section Pairs

variable {w : Nat} (E : Env w) {I : MCInstrInfo}

/-- `SUB` subtracts. -/
def Subtracts (sub : Nat) : Prop :=
  ∀ d a b tail (s : State w), E.other ⟨.other sub, [.reg d, .reg a, .reg b], tail⟩ s =
    .ok (s.set d (s.get a - s.get b))

/-- What a pair leaves in its register. -/
def FramePair.value (p : FramePair) (s : State w) : BitVec w :=
  (s.set p.reg (luiValue w p.imm)).get p.lhs - (s.set p.reg (luiValue w p.imm)).get p.reg

/-- The register holds what the pair computes. -/
def Idle (p : FramePair) (s : State w) : Prop := s.set p.reg (p.value s) = s

variable {E}

theorem set_set (s : State w) (r : MCPhysReg)
    (u v : BitVec w) : (s.set r u).set r v = s.set r v := by
  rw [State.set, State.set, State.set]
  split
  · rfl
  · simp only [State.mk.injEq, and_true]
    funext q
    split <;> rfl

theorem value_set (p : FramePair) (s : State w) (v : BitVec w) :
    p.value (s.set p.reg v) = p.value s := by
  rw [FramePair.value, FramePair.value, set_set]

/-- Behind a pair its register holds what it computes. -/
theorem idle_set (p : FramePair) (s : State w) : Idle p (s.set p.reg (p.value s)) := by
  rw [Idle, value_set, set_set]

theorem framePair_spec {sub : Nat} (hsub : Subtracts E sub) {i j k : MCInst} {p : FramePair}
    (h : framePair sub i j k = some p) (s : State w) :
    run E [i, j] s = .ok (s.set p.reg (p.value s)) := by
  rw [framePair] at h
  split at h
  next hop =>
    split at h
    next r v rest d a b _ c _ hi hj hk =>
      split at h
      next hregs =>
        obtain ⟨rfl, rfl, -⟩ := hregs
        obtain rfl := Option.some.inj h
        obtain ⟨iop, iops, itail⟩ := i
        obtain ⟨jop, jops, jtail⟩ := j
        obtain rfl : iop = .cLui := hop.1
        obtain rfl : jop = .other sub := hop.2.1
        obtain rfl : iops = _ := hi
        obtain rfl : jops = _ := hj
        have hlui : exec E ⟨.cLui, .reg b :: .imm v :: rest, itail⟩ s =
          .ok (s.set b (luiValue w v)) := rfl
        have hother : ∀ t, exec E ⟨.other sub, [.reg b, .reg a, .reg b], jtail⟩ t =
            E.other ⟨.other sub, [.reg b, .reg a, .reg b], jtail⟩ t := fun _ => rfl
        rw [run_pair, hlui, ok_bind, hother, hsub, set_set]
        rfl
      · exact absurd h (by simp)
    · exact absurd h (by simp)
  · exact absurd h (by simp)

/-- An instruction that sets neither register keeps a pair idle. -/
theorem Idle.step (hT : Tabled I E) {p : FramePair} {s s' : State w} (h : Idle p s) {i : MCInst}
    (hkeep : keepsPair I (some p) i = true) (hexec : exec E i s = .ok s') : Idle p s' := by
  simp only [keepsPair, Bool.and_eq_true, Bool.not_eq_true'] at hkeep
  obtain ⟨⟨hbarrier, hreg⟩, hlhs⟩ := hkeep
  have hreg' := exec_defs hT hbarrier hexec p.reg hreg
  have hlhs' := exec_defs hT hbarrier hexec p.lhs hlhs
  have hvalue : p.value s' = p.value s := by
    rw [FramePair.value, FramePair.value]
    by_cases hzero : p.reg ≤ gpr 0
    · have hset : ∀ (t : State w) v, t.set p.reg v = t := fun _ _ => if_pos hzero
      rw [hset, hset, hreg', hlhs']
    · rw [State.get_set_self _ _ hzero, State.get_set_self _ _ hzero]
      by_cases hsame : p.lhs = p.reg
      · rw [hsame, State.get_set_self _ _ hzero, State.get_set_self _ _ hzero]
      · rw [State.get_set_of_ne _ _ hsame, State.get_set_of_ne _ _ hsame, hlhs']
  have hheld : p.reg ≤ gpr 0 ∨ s.get p.reg = p.value s := by
    by_cases hzero : p.reg ≤ gpr 0
    · exact .inl hzero
    · have hget := congrArg (fun t => t.get p.reg) h
      exact .inr (hget.symm.trans (State.get_set_self s _ hzero))
  rw [Idle, hvalue]
  rcases hheld with hzero | hheld
  · exact if_pos hzero
  · rw [← hheld, ← hreg', State.set_get]

end Pairs

/-! ## The loop -/

section Loop

variable {w : Nat} {E : Env w} {I : MCInstrInfo} {sub : Nat}

/-- The turns: a pair that is remembered, a pair, another instruction, and fewer than three. -/
theorem reuseRelative_rec (sub : Nat) {motive : Option FramePair → List MCInst → Prop}
    (deleted : ∀ i j k rest p, framePair sub i j k = some p → motive (some p) (k :: rest) →
      motive (some p) (i :: j :: k :: rest))
    (paired : ∀ last i j k rest p, framePair sub i j k = some p → last ≠ some p →
      motive (some p) rest → motive last (i :: j :: k :: rest))
    (other : ∀ last i j k rest, framePair sub i j k = none → motive last (j :: k :: rest) →
      motive last (i :: j :: k :: rest))
    (short : ∀ last insts, (∀ i j k rest, insts = i :: j :: k :: rest → False) →
      motive last insts) (last : Option FramePair) (insts : List MCInst) : motive last insts := by
  induction hn : insts.length using Nat.strong_induction_on generalizing last insts with
  | _ n ih =>
    subst hn
    rcases insts with _ | ⟨i, _ | ⟨j, _ | ⟨k, rest⟩⟩⟩
    · exact short last [] (by simp)
    · exact short last [i] (by simp)
    · exact short last [i, j] (by simp)
    · cases hpair : framePair sub i j k with
      | none => exact other last i j k rest hpair (ih _ (by simp) last _ rfl)
      | some p =>
        by_cases hlast : last = some p
        · subst hlast
          exact deleted i j k rest p hpair (ih _ (by simp) _ _ rfl)
        · exact paired last i j k rest p hpair hlast (ih _ (by simp; omega) _ _ rfl)

/-- **Deleted pairs**: where nothing between sets a register of the pair that is remembered, the
block that is left runs as the block that was read, from every state. -/
theorem reuseRelative_run (hT : Tabled I E) (hsub : Subtracts E sub) {last : Option FramePair}
    {kept : Bool} {insts : List MCInst} (hclean : clean sub I last kept insts = true) {s : State w}
    (hidle : kept = true → ∀ p ∈ last, Idle p s) :
    run E (reuseRelative sub last insts) s = run E insts s := by
  induction last, insts using reuseRelative_rec sub generalizing kept s with
  | deleted i j k rest p hpair ih =>
    rw [clean, hpair] at hclean
    simp only [if_true, Bool.and_eq_true] at hclean
    have hpairRun := framePair_spec hsub hpair s
    rw [hidle hclean.1 p rfl] at hpairRun
    rw [reuseRelative, hpair]
    simp only [if_true]
    rw [ih hclean.2 hidle, show i :: j :: k :: rest = [i, j] ++ k :: rest from rfl, run_append,
      hpairRun, ok_bind]
  | paired last i j k rest p hpair hne ih =>
    rw [clean, hpair] at hclean
    simp only [if_neg hne] at hclean
    rw [reuseRelative, hpair]
    simp only [if_neg hne]
    have hcut : ∀ tail : List MCInst, i :: j :: k :: tail = [i, j] ++ ([k] ++ tail) := fun _ => rfl
    rw [hcut, hcut, run_append, run_append, framePair_spec hsub hpair, ok_bind, ok_bind, run_append,
      run_append, run_singleton]
    cases hk : exec E k (s.set p.reg (p.value s)) with
    | error e => rfl
    | ok s' =>
      rw [ok_bind, ok_bind]
      exact ih hclean fun hkeep q hq => by
        obtain rfl := Option.some.inj hq
        exact (idle_set p s).step hT hkeep hk
  | other last i j k rest hpair ih =>
    rw [clean, hpair] at hclean
    rw [reuseRelative, hpair]
    have hcut : ∀ tail : List MCInst, i :: tail = [i] ++ tail := fun _ => rfl
    simp only
    rw [hcut, hcut (j :: k :: rest), run_append, run_append, run_singleton]
    cases hi : exec E i s with
    | error e => rfl
    | ok s' =>
      rw [ok_bind, ok_bind]
      refine ih hclean fun hkeep q hq => ?_
      rw [Bool.and_eq_true] at hkeep
      obtain rfl := hq
      exact (hidle hkeep.1 q rfl).step hT hkeep.2 hi
  | short last insts hshort =>
    rw [reuseRelative]
    exact fun i j k rest h => hshort i j k rest h

/-- **A block**: what the pass leaves of it runs as it did, from every state. -/
theorem reuseRelativeBlock_run (hT : Tabled I E) (hsub : Subtracts E sub) {insts : List MCInst}
    (hclean : clean sub I none false insts = true) (s : State w) :
    run E (reuseRelative sub none insts) s = run E insts s :=
  reuseRelative_run hT hsub hclean fun hkept => absurd hkept Bool.false_ne_true

end Loop

/-! ## Two blocks -/

section Examples

variable {w : Nat} {E : Env w} {I : MCInstrInfo} {n : Nat}

/-- The environment in which the instruction of number `n` subtracts. -/
def Env.withSub (E : Env w) (n : Nat) : Env w where
  value := E.value
  float := E.float
  other i s :=
    match i.opcode, i.operands with
    | .other m, [.reg d, .reg a, .reg b] =>
      if m = n then .ok (s.set d (s.get a - s.get b)) else E.other i s
    | _, _ => E.other i s

theorem withSub_subtracts : Subtracts (E.withSub n) n := fun _ _ _ _ _ => if_pos rfl

theorem withSub_other (i : MCInst) :
    (∃ d a b, i.opcode = .other n ∧ i.operands = [.reg d, .reg a, .reg b] ∧
      ∀ s, (E.withSub n).other i s = .ok (s.set d (s.get a - s.get b))) ∨
    ∀ s, (E.withSub n).other i s = E.other i s := by
  obtain ⟨op, ops, tail⟩ := i
  by_cases hsub : ∃ d a b, op = .other n ∧ ops = [.reg d, .reg a, .reg b]
  · obtain ⟨d, a, b, rfl, rfl⟩ := hsub
    exact .inl ⟨d, a, b, rfl, rfl, fun s => withSub_subtracts d a b tail s⟩
  · refine .inr fun s => ?_
    simp only [Env.withSub]
    split
    next _ _ m d a b => exact if_neg fun hm => hsub ⟨d, a, b, by rw [hm], rfl⟩
    · rfl

/-- The tables hold of `SUB` when they say that it sets one register. -/
theorem withSub_tabled (hT : Tabled I E) (hdefs : (I n).numDefs = 1)
    (himp : (I n).implicitDefs = []) : Tabled I (E.withSub n) where
  frame i s s' hbarrier h r hr := by
    rcases withSub_other (E := E) (n := n) i with ⟨d, a, b, hop, hops, hsub⟩ | hsame
    · obtain rfl := Except.ok.inj ((hsub s).symm.trans h)
      refine State.get_set_of_ne _ _ ?_
      rintro rfl
      rw [writesReg, hop, hops, show I.get (.other n) = I n from rfl, hdefs] at hr
      simp at hr
    · exact hT.frame i s s' hbarrier ((hsame s).symm.trans h) r hr
  agree i hleave dead s t h hdead := by
    rcases withSub_other (E := E) (n := n) i with ⟨d, a, b, hop, hops, hsub⟩ | hsame
    · have hread : ∀ r ∈ dead, r ≠ a ∧ r ≠ b := by
        intro r hr
        have := (hdead r hr).2
        rw [readsReg, hop, hops, show I.get (.other n) = I n from rfl, hdefs] at this
        simp only [List.drop_succ_cons, List.drop_zero, List.contains_cons, Bool.or_eq_false_iff,
          beq_eq_false_iff_ne, ne_eq, MCOperand.reg.injEq] at this
        exact ⟨this.1.1, this.1.2.1⟩
      refine ⟨_, _, hsub s, hsub t, ?_⟩
      rw [h.get fun hmem => (hread a hmem).1 rfl, h.get fun hmem => (hread b hmem).2 rfl]
      refine (h.set d _ fun q hq => (hdead q hq).1).mono fun q hq => ?_
      obtain ⟨hq, hne⟩ := List.mem_filter.mp hq
      refine List.mem_filter.mpr ⟨hq, ?_⟩
      rw [Bool.not_eq_true', writesReg, hop, hops, show I.get (.other n) = I n from rfl, hdefs]
      simp only [List.take_succ_cons, List.take_zero, List.contains_cons, List.contains_nil,
        Bool.or_false, Bool.or_eq_false_iff, beq_eq_false_iff_ne, ne_eq, MCOperand.reg.injEq]
      exact ⟨of_decide_eq_true hne, by rw [himp]; rfl⟩
    · obtain ⟨s', t', hs, ht, hagree⟩ := hT.agree i hleave dead s t h hdead
      exact ⟨s', t', (hsame s).trans hs, (hsame t).trans ht, hagree⟩
  floatFrame := hT.floatFrame
  floatAgree := hT.floatAgree

/-- `c.lui a0, 1; sub a0, s0, a0; lw r, 0(a0)`, twice. -/
def twoFrameLoads (r : MCPhysReg) : List MCInst :=
  let triple : List MCInst := [⟨.cLui, [.reg (gpr 10), .imm 1], false⟩,
    ⟨.other 0, [.reg (gpr 10), .reg (gpr 8), .reg (gpr 10)], false⟩,
    ⟨.lw, [.reg r, .reg (gpr 10), .imm 0], false⟩]
  triple ++ triple

/-- Tables in which each further instruction sets one register. -/
def oneDef : MCInstrInfo := fun _ => { numDefs := 1 }

/-- `SUB` is 0. -/
def subEnv : Env 32 := (zeroingOthers oneDef fun _ => 0).withSub 0

theorem reuseRelativeBlock_twoFrameLoads :
    run subEnv (reuseRelative 0 none (twoFrameLoads (gpr 11))) ⟨fun _ => 0, fun _ => 0⟩ =
      run subEnv (twoFrameLoads (gpr 11)) ⟨fun _ => 0, fun _ => 0⟩ :=
  reuseRelativeBlock_run (withSub_tabled (zeroingOthers_tabled oneDef _) rfl rfl) withSub_subtracts
    (by decide) _

/-- A load into `a0` itself: the second loads from the address that the first has loaded. -/
theorem not_reused_ownLoad : ∃ s, run subEnv (reuseRelative 0 none (twoFrameLoads (gpr 10))) s ≠
    run subEnv (twoFrameLoads (gpr 10)) s := by
  refine ⟨⟨fun _ => 0, fun a => if a = 0xfffff000 then 1 else 0⟩, fun heq => ?_⟩
  have hread := congrArg (fun r => r.toOption.map (·.get (gpr 10))) heq
  revert hread
  decide

end Examples

end RvLlvm.Bolt
