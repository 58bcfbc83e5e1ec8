import Mathlib.Data.List.Nodup
import Mathlib.Logic.Relation
import RvLlvm.Bolt.ConstLUISound

/-!
# The known values are so

What `ConstLUISound` says of the rewritten block is not said of the map: a `lui` that is deleted
although its register is used later makes the block wrong, and leaves the map right. This file is
about the map: along every path of the function as the pass leaves it, and at every turn of its
loop, the registers hold what they are known to hold (`values_truthful`), under a condition on the
turns that names the defects (`HonestTurn`).

A program point is a turn of the loop (`Point`): the instructions in front of it are rewritten and
stay as they are.
-/

namespace RvLlvm.Bolt

section Turn

variable {I : MCInstrInfo} {w : Nat} {E : Env w} {addr : MCSymbol → Int}
  {data : MCSymbol → Option Int} {values values' : RegValueMap} {i sink : MCInst}

/-- The condition on a turn of the loop. A pair that is kept has a `lui` that sets its register; a
memory access sets no register that stays known, also where the instruction behind it is learned
in its place; sums of 32 bits are no others in the registers. -/
def HonestTurn (I : MCInstrInfo) (w : Nat) (addr : MCSymbol → Int) (values : RegValueMap)
    (i : MCInst) (rest : List MCInst) : LUITurn → Prop
  | .barrier => True
  | .reuseMaterialized _ base diff => FitsReuse w values base diff
  | .learnMaterialized p =>
    p.reg ≠ gpr 0 → p.luiReg ≠ gpr 0 ∧ ∀ sink ∈ rest.head?, FitsPair w addr p sink
  | .reuseMemory _ sink _ _ =>
    ∃ stale, rest.tail.head? = some stale ∧ ∀ q ∈ learnSimpleValue I values stale,
      q = (gpr 0, .absolute 0) ∨ (q ∈ values ∧ writesReg I sink q.1 = false)
  | .learnMemory p sink => ∀ q ∈ learnMemoryPair values p, q.1 = gpr 0 ∨ writesReg I sink q.1 = false
  | .reuseLUI _ _ base diff => FitsReuse w values base diff
  | .simple => FitsSimple w values i

/-- Behind the instructions the map is so where it was before them. -/
def Teaches (E : Env w) (addr : MCSymbol → Int) (values values' : RegValueMap)
    (insts : List MCInst) : Prop :=
  ∀ s s', Knows addr values s → run E insts s = .ok s' → Knows addr values' s'

theorem teaches_nil (values : RegValueMap) : Teaches E addr values values [] := by
  intro s s' hk hrun
  obtain rfl := Except.ok.inj hrun
  exact hk

theorem Teaches.append {values'' : RegValueMap} {A B : List MCInst}
    (hA : Teaches E addr values values' A) (hB : Teaches E addr values' values'' B) :
    Teaches E addr values values'' (A ++ B) := by
  intro s s' hk hrun
  rw [run_append] at hrun
  cases hmid : run E A s with
  | error e =>
    rw [hmid] at hrun
    exact absurd hrun (by simp [error_bind])
  | ok s₁ =>
    rw [hmid, ok_bind] at hrun
    exact hB s₁ s' (hA s s₁ hk hmid) hrun

theorem teaches_singleton
    (h : ∀ s s' : State w, Knows addr values s → exec E i s = .ok s' → Knows addr values' s') :
    Teaches E addr values values' [i] := by
  intro s s' hk hrun
  rw [run_singleton] at hrun
  exact h s s' hk hrun

theorem teaches_pair
    (h : ∀ s s' s'' : State w, Knows addr values s → exec E i s = .ok s' → exec E sink s' = .ok s'' →
      Knows addr values' s'') :
    Teaches E addr values values' [i, sink] := by
  intro s s' hk hrun
  rw [run_pair] at hrun
  cases hmid : exec E i s with
  | error e =>
    rw [hmid] at hrun
    exact absurd hrun (by simp [error_bind])
  | ok s₁ =>
    rw [hmid, ok_bind] at hrun
    exact h s s₁ s' hk hmid hrun

/-- `x0` is zero, and a register that is not set keeps its value. -/
theorem Knows.keep {s s' : State w} (hk : Knows addr values s)
    (hframe : ∀ q ∈ values, q.1 = gpr 0 ∨ s'.get q.1 = s.get q.1) : Knows addr values s' := by
  intro q hq
  rcases hframe q hq with hzero | hsame
  · have hboth := hk q hq
    rw [hzero, State.get_of_le _ (Nat.le_refl _)] at hboth ⊢
    exact hboth
  · rw [hsame]
    exact hk q hq

/-! ## Pairs -/

/-- The `lui` of a pair, and what is known of its high part. -/
theorem getPair_lui {lui : MCInst} {operands : Option (MCPhysReg × MCPhysReg × MCOperand)}
    {p : LUIPair} (h : getPair data lui operands = some p) :
    lui.opcode = .lui ∧ ∃ hi tail, lui.operands = .reg p.luiReg :: hi :: tail ∧
      ∀ k, p.high = some k → ∃ v, hi = .imm v ∧ k = .absolute (getLUIValue v) := by
  obtain ⟨⟨l, hi⟩, hl, h⟩ := Option.bind_eq_some_iff.mp h
  obtain ⟨s, -, h⟩ := Option.bind_eq_some_iff.mp h
  split at h
  · obtain ⟨⟨high, target⟩, htarget, rfl⟩ := Option.map_eq_some_iff.mp h
    simp only [isLUI] at hl
    split at hl
    next l' hi' tail hop hops =>
      split at hl
      · obtain ⟨rfl, rfl⟩ := Prod.mk.inj (Option.some.inj hl)
        refine ⟨hop, hi', tail, hops, fun k hk => ?_⟩
        obtain rfl : high = some k := hk
        unfold getLUIHighAndTarget at htarget
        split at htarget
        next v lv hhi hlo =>
          obtain ⟨hk, -⟩ := Prod.mk.inj (Option.some.inj htarget)
          exact ⟨v, hhi, (Option.some.inj hk).symm⟩
        · obtain ⟨hiRef, -, htarget⟩ := Option.bind_eq_some_iff.mp htarget
          obtain ⟨loRef, -, htarget⟩ := Option.bind_eq_some_iff.mp htarget
          split at htarget
          · obtain ⟨address, -, heq⟩ := Option.map_eq_some_iff.mp htarget
            exact absurd (Prod.mk.inj heq).1 (by simp)
          · exact absurd htarget (by simp)
      · exact absurd hl (by simp)
    · exact absurd hl (by simp)
  · exact absurd h (by simp)

/-- The `lui` of a pair that is kept leaves its high part known. -/
theorem learnMemoryPair_lui (hT : Tabled I E)
    {operands : Option (MCPhysReg × MCPhysReg × MCOperand)} {p : LUIPair} (hi : Decoded i)
    (h : getPair data i operands = some p) {s s' : State w} (hk : Knows addr values s)
    (hs' : exec E i s = .ok s') : Knows addr (learnMemoryPair values p) s' := by
  obtain ⟨hop, o, tail, hops, hhigh⟩ := getPair_lui h
  have hne : p.luiReg ≠ 0 := by
    have hreg := hi.reg (.inl hop)
    rwa [MCInst.getReg, hops] at hreg
  have hforget : Knows addr (forgetReg values p.luiReg) s' := by
    refine (hk.subset fun q hq => (mem_forgetReg hq).1).keep fun q hq => ?_
    by_cases hq' : q.1 = p.luiReg
    · exact .inl (hq'.trans ((mem_forgetReg hq).2 hq'))
    · refine .inr (exec_defs hT ?_ hs' q.1 ?_)
      · rw [isLUIBarrier, hop]
        rfl
      · rw [writesReg_first hops (by rw [hop]; rfl) (by rw [hop]; rfl)]
        exact decide_eq_false hq'
  rw [learnMemoryPair]
  cases hp : p.high with
  | none => exact hforget
  | some k =>
    obtain ⟨v, rfl, rfl⟩ := hhigh k hp
    have hexec : exec E i s = .ok (s.set p.luiReg
        (BitVec.ofInt w ((KnownValue.absolute (getLUIValue v)).at addr))) := by
      rw [exec, hop, hops]
      show Except.ok (s.set p.luiReg (luiValue w v)) = _
      rw [luiValue_eq]
      rfl
    obtain rfl := Except.ok.inj (hexec.symm.trans hs')
    refine Knows.set (fun q hq _ => hk q (mem_forgetReg hq).1) (not_le_zero hne) _ fun _ => ?_
    exact hk.subset fun q hq => (mem_forgetReg hq).1

/-- The register of a pair is the first operand of its sink. -/
theorem getPair_sink {lui : MCInst} {operands : Option (MCPhysReg × MCPhysReg × MCOperand)}
    {p : LUIPair} (h : getPair data lui operands = some p) : ∃ b o, operands = some (p.reg, b, o) := by
  obtain ⟨l, -, h⟩ := Option.bind_eq_some_iff.mp h
  obtain ⟨⟨r, b, o⟩, hs, h⟩ := Option.bind_eq_some_iff.mp h
  split at h
  · obtain ⟨t, -, rfl⟩ := Option.map_eq_some_iff.mp h
    exact ⟨b, o, hs⟩
  · exact absurd h (by simp)

/-- A materialized pair that is kept. -/
theorem teaches_learnMaterialized (hT : Tabled I E) (hL : Linked addr E) {p : LUIPair}
    (hi : Decoded i) (hsink : Decoded sink) (h : getMaterializedPair data i sink = some p)
    (hhonest : p.reg ≠ gpr 0 → p.luiReg ≠ gpr 0 ∧ FitsPair w addr p sink) :
    Teaches E addr values (learnMaterializedPair values p) [i, sink] := by
  refine teaches_pair fun s s' s'' hk hs' hs'' => ?_
  by_cases hzero : p.reg = gpr 0
  · -- the `addi` sets nothing
    have heq : learnMaterializedPair values p = learnMemoryPair values p := by
      rw [learnMaterializedPair, learnMemoryPair]
      by_cases hsame : p.reg = p.luiReg
      · have hl : p.luiReg = gpr 0 := hsame.symm.trans hzero
        cases p.high <;> simp [hl, hzero, forgetReg, setKnownValue]
      · simp only [if_neg hsame]
        cases p.high <;> simp [hzero, setKnownValue]
    obtain ⟨b, o, hx⟩ := getPair_sink h
    obtain ⟨hop, rest, hops⟩ := isADDI_operands hx
    rw [heq]
    refine (learnMemoryPair_lui hT hi h hk hs').keep fun q _ => ?_
    by_cases hq : q.1 = gpr 0
    · exact .inl hq
    · refine .inr (exec_defs hT ?_ hs'' q.1 ?_)
      · rw [isLUIBarrier, hop]
        rfl
      · rw [writesReg_first hops (by rw [hop]; rfl) (by rw [hop]; rfl), hzero]
        exact decide_eq_false hq
  · obtain ⟨hl, hfits⟩ := hhonest hzero
    exact learn_materialized (isMaterialized hL hi hsink h hfits) hl hk hs' hs''

/-- The `addi` that is left of a materialized pair. -/
theorem teaches_reuseMaterialized {p : LUIPair} {base : MCPhysReg} {diff : Int}
    (hsink : Decoded sink) (h : getMaterializedPair data i sink = some p)
    (hfound : findReusableBase values p.target = some (base, diff))
    (hfits : FitsReuse w values base diff) :
    Teaches E addr values (setKnownValue values p.reg p.target) [makeADDI p.reg base diff] := by
  obtain ⟨b, o, hx⟩ := getPair_sink h
  obtain ⟨hop, rest, hops⟩ := isADDI_operands hx
  have hne : p.reg ≠ 0 := by
    have hreg := hsink.reg (.inr (.inl hop))
    rwa [MCInst.getReg, hops] at hreg
  refine teaches_singleton fun s s' hk hs' => ?_
  rw [exec_makeADDI, findReusableBase_sound hk hfound hfits] at hs'
  obtain rfl := Except.ok.inj hs'
  exact Knows.set (fun q hq _ => hk q hq) (not_le_zero hne) p.target fun _ => hk

/-- What a memory access does not set. -/
theorem memorySink_frame (hT : Tabled I E) {r b : MCPhysReg} {o : MCOperand}
    (hx : isMemorySink sink = some (r, b, o)) {s s' : State w} (hs' : exec E sink s = .ok s')
    {q : MCPhysReg} (hq : writesReg I sink q = false) : s'.get q = s.get q := by
  obtain ⟨hop, -⟩ := isMemorySink_operands hx
  obtain ⟨-, -, hbarrier, hjal, hjalr, -⟩ := sink_tables I hop
  refine exec_defs hT ?_ hs' q hq
  rw [isLUIBarrier, hbarrier, beq_eq_false_iff_ne.mpr hjal, beq_eq_false_iff_ne.mpr hjalr]
  rfl

/-- A memory access with another base sets what it did. -/
theorem makeMemory_sets {r b : MCPhysReg} {o : MCOperand} (hx : isMemorySink sink = some (r, b, o))
    (base : MCPhysReg) (diff : Int) :
    (∃ o', isMemorySink (makeMemoryWithBaseAndOffset sink base diff) = some (r, base, o')) ∧
      ∀ q, writesReg I (makeMemoryWithBaseAndOffset sink base diff) q = writesReg I sink q := by
  obtain ⟨hop, rest, hops⟩ := isMemorySink_operands hx
  have hops' : (makeMemoryWithBaseAndOffset sink base diff).operands =
      .reg r :: .reg base :: .imm diff :: rest := by
    rw [makeMemoryWithBaseAndOffset, hops]
    rfl
  have hop' : (makeMemoryWithBaseAndOffset sink base diff).opcode = sink.opcode := rfl
  refine ⟨⟨.imm diff, ?_⟩, fun q => ?_⟩
  · rw [isMemorySink, hop', hops']
    exact if_pos hop
  · obtain ⟨-, -, -, -, -, -, hzero | hone⟩ := sink_tables I hop
    · rw [writesReg, writesReg, hop', hzero, List.take_zero, List.take_zero]
    · rw [writesReg, writesReg, hop', hone, hops, hops']
      rfl

/-- The memory access that is left of a pair. -/
theorem teaches_reuseMemory (hT : Tabled I E) {p : LUIPair} (base : MCPhysReg) (diff : Int)
    (h : getMemoryPair data i sink = some p)
    (hkeep : ∀ q ∈ values',
      q = (gpr 0, .absolute 0) ∨ (q ∈ values ∧ writesReg I sink q.1 = false)) :
    Teaches E addr values values' [makeMemoryWithBaseAndOffset sink base diff] := by
  obtain ⟨h, -⟩ := Option.filter_eq_some_iff.mp h
  obtain ⟨b, o, hx⟩ := getPair_sink h
  obtain ⟨⟨o', hx'⟩, hwrites⟩ := @makeMemory_sets I sink p.reg b o hx base diff
  refine teaches_singleton fun s s' hk hs' q hq => ?_
  rcases hkeep q hq with rfl | ⟨hq, hw⟩
  · exact knows_zero
  · rw [memorySink_frame hT hx' hs' ((hwrites q.1).trans hw)]
    exact hk q hq

/-- A memory pair that is kept. -/
theorem teaches_learnMemory (hT : Tabled I E) {p : LUIPair} (hi : Decoded i)
    (h : getMemoryPair data i sink = some p)
    (hkeep : ∀ q ∈ learnMemoryPair values p, q.1 = gpr 0 ∨ writesReg I sink q.1 = false) :
    Teaches E addr values (learnMemoryPair values p) [i, sink] := by
  obtain ⟨h, -⟩ := Option.filter_eq_some_iff.mp h
  obtain ⟨b, o, hx⟩ := getPair_sink h
  refine teaches_pair fun s s' s'' hk hs' hs'' => ?_
  refine (learnMemoryPair_lui hT hi h hk hs').keep fun q hq => ?_
  exact (hkeep q hq).imp_right fun hw => memorySink_frame hT hx hs'' hw

/-- A `lui` whose value is held. -/
theorem teaches_reuseLUI {rd base : MCPhysReg} {v : KnownValue} {diff : Int} (hi : Decoded i)
    (hs : standaloneLUI values i = some (rd, v, base, diff)) (hfits : FitsReuse w values base diff) :
    Teaches E addr values (setKnownValue values rd v) [makeADDI rd base diff] := by
  intro s s' hk hrun
  have hsim := @simulated_reuseLUI noOthers w E addr i [] values rd base v diff hi
    (fun q hq => absurd hq List.not_mem_nil) hs hfits
  rcases hsim s s (AgreeOff.refl _ s) hk with ⟨so', sn', -, hsn, -, hk'⟩ | ⟨e, -, hsn⟩
  · obtain rfl := Except.ok.inj (hsn.symm.trans hrun)
    exact hk'
  · rw [hsn] at hrun
    exact absurd hrun (by simp)

/-- One turn of the loop: what it leaves in front of its place, and that the map is so behind
that. -/
theorem turn_teaches (hT : Tabled I E) (hL : Linked addr E) {t : LUIPass}
    {done rest : List MCInst} (ht : t.insts = done ++ i :: rest) (hpos : t.pos = done.length)
    (hdec : ∀ j ∈ i :: rest, Decoded j)
    (hhonest : HonestTurn I w addr t.values i rest (luiTurn I data t.values i rest)) :
    ∃ t' olds news rest', t.step I data = some t' ∧ i :: rest = olds ++ rest' ∧ olds ≠ [] ∧
      t'.insts = done ++ (news ++ rest') ∧ t'.pos = done.length + news.length ∧
      Teaches E addr t.values t'.values news := by
  have hget : t.insts[t.pos]? = some i := by rw [ht, hpos, getElem?_middle rfl]
  have hdrop : t.insts.drop (t.pos + 1) = rest := by rw [ht, hpos, drop_middle rfl]
  have hi := hdec i List.mem_cons_self
  have hpair := luiTurn_pair I data t.values i rest
  rw [LUIPass.step, hget, Option.bind_some, hdrop]
  have hone : ∀ values', Teaches E addr t.values values' [i] →
      ∃ t' olds news rest',
        some { t with pos := t.pos + 1, values := values' } = some t' ∧ i :: rest = olds ++ rest' ∧
        olds ≠ [] ∧ t'.insts = done ++ (news ++ rest') ∧ t'.pos = done.length + news.length ∧
        Teaches E addr t.values t'.values news := fun values' hteaches =>
    ⟨_, [i], [i], rest, rfl, rfl, List.cons_ne_nil _ _, ht, by rw [hpos]; rfl, hteaches⟩
  cases hturn : luiTurn I data t.values i rest with
  | barrier => exact hone .cleared fun s s' _ _ => knows_cleared
  | simple =>
    rw [hturn] at hhonest
    exact hone _ (teaches_singleton fun s s' hk hs' => learnSimpleValue_sound hT hi hk hhonest hs')
  | reuseLUI rd v base diff =>
    rw [hturn] at hpair hhonest
    exact ⟨_, [i], [makeADDI rd base diff], rest, rfl, rfl, List.cons_ne_nil _ _,
      by rw [ht, hpos, set_middle rfl, List.singleton_append], by rw [hpos]; rfl,
      teaches_reuseLUI hi hpair hhonest⟩
  | learnMaterialized p =>
    rw [hturn] at hpair hhonest
    obtain ⟨sink, rest', rfl, hmat⟩ := hpair
    refine ⟨_, [i, sink], [i, sink], rest', rfl, rfl, List.cons_ne_nil _ _, ht, by rw [hpos]; rfl, ?_⟩
    exact teaches_learnMaterialized hT hL hi (hdec sink (by simp)) hmat fun hzero =>
      ⟨(hhonest hzero).1, (hhonest hzero).2 sink rfl⟩
  | learnMemory p sink =>
    rw [hturn] at hpair hhonest
    obtain ⟨rest', rfl, hmem⟩ := hpair
    exact ⟨_, [i, sink], [i, sink], rest', rfl, rfl, List.cons_ne_nil _ _, ht, by rw [hpos]; rfl,
      teaches_learnMemory hT hi hmem hhonest⟩
  | reuseMaterialized p base diff =>
    rw [hturn] at hpair hhonest
    obtain ⟨sink, rest', rfl, hmat, hfound⟩ := hpair
    exact ⟨_, [i, sink], [makeADDI p.reg base diff], rest', rfl, rfl, List.cons_ne_nil _ _,
      replace_pair ht hpos _, by rw [hpos]; rfl,
      teaches_reuseMaterialized (hdec sink (by simp)) hmat hfound hhonest⟩
  | reuseMemory p sink base diff =>
    rw [hturn] at hpair hhonest
    obtain ⟨rest', rfl, hmem, hfound⟩ := hpair
    obtain ⟨stale, hstale, hkeep⟩ := hhonest
    have hinsts := replace_pair ht hpos (makeMemoryWithBaseAndOffset sink base diff)
    have hread : (done ++ ([makeMemoryWithBaseAndOffset sink base diff] ++ rest'))[done.length + 1]? =
        some stale := by
      rw [← List.append_assoc, List.getElem?_append_right (by simp)]
      simpa [List.head?_eq_getElem?] using hstale
    refine ⟨⟨_, t.pos + 1, learnSimpleValue I t.values stale⟩, [i, sink],
      [makeMemoryWithBaseAndOffset sink base diff], rest', ?_, rfl, List.cons_ne_nil _ _, hinsts,
      by rw [hpos]; rfl, teaches_reuseMemory hT base diff hmem hkeep⟩
    simp only []
    rw [hinsts, hpos, hread]
    rfl

end Turn

/-! ## The loop over a block -/

section Loop

variable {I : MCInstrInfo} {w : Nat} {E : Env w} {addr : MCSymbol → Int}
  {data : MCSymbol → Option Int} {values : RegValueMap} {insts : List MCInst} {t t' : LUIPass}

/-- Every turn of the loop over a block is honest. -/
def HonestBlock (I : MCInstrInfo) (w : Nat) (addr : MCSymbol → Int) (data : MCSymbol → Option Int)
    (values : RegValueMap) (insts : List MCInst) : Prop :=
  ∀ t, Relation.ReflTransGen (LUIPass.Next I data) ⟨insts, 0, values⟩ t →
    ∀ i, t.insts[t.pos]? = some i →
      HonestTurn I w addr t.values i (t.insts.drop (t.pos + 1))
        (luiTurn I data t.values i (t.insts.drop (t.pos + 1)))

/-- The loop over `insts` at a turn: what is behind its place is still to be read, and the map is so
behind what is in front. -/
structure InLoop (E : Env w) (addr : MCSymbol → Int) (values : RegValueMap) (insts : List MCInst)
    (t : LUIPass) : Prop where
  place : t.pos ≤ t.insts.length
  unread : ∀ j ∈ t.insts.drop t.pos, j ∈ insts
  teaches : Teaches E addr values t.values (t.insts.take t.pos)

theorem inLoop_start : InLoop E addr values insts ⟨insts, 0, values⟩ :=
  ⟨Nat.zero_le _, fun _ hj => hj, teaches_nil values⟩

/-- A turn. -/
theorem InLoop.step (hT : Tabled I E) (hL : Linked addr E) (hdec : ∀ j ∈ insts, Decoded j)
    (hhonest : HonestBlock I w addr data values insts)
    (hreach : Relation.ReflTransGen (LUIPass.Next I data) ⟨insts, 0, values⟩ t)
    (h : InLoop E addr values insts t) (hne : t.pos ≠ t.insts.length) :
    ∃ t', t.step I data = some t' ∧ InLoop E addr values insts t' ∧
      (t'.insts.drop t'.pos).length < (t.insts.drop t.pos).length ∧
      t.insts.take t.pos <+: t'.insts.take t'.pos := by
  have hlt : t.pos < t.insts.length := Nat.lt_of_le_of_ne h.place hne
  have hsplit : t.insts = t.insts.take t.pos ++ t.insts[t.pos] :: t.insts.drop (t.pos + 1) := by
    rw [← List.drop_eq_getElem_cons hlt, List.take_append_drop]
  have hpos : t.pos = (t.insts.take t.pos).length := (List.length_take_of_le h.place).symm
  have hdrop : t.insts.drop t.pos = t.insts[t.pos] :: t.insts.drop (t.pos + 1) :=
    List.drop_eq_getElem_cons hlt
  obtain ⟨t', olds, news, rest', hstep, holds, hne', hinsts, hpos', hteaches⟩ :=
    turn_teaches hT hL hsplit hpos (fun j hj => hdec j (h.unread j (hdrop ▸ hj)))
      (hhonest t hreach _ (List.getElem?_eq_getElem hlt))
  have hdone : t'.insts.take t'.pos = t.insts.take t.pos ++ news := by
    rw [hinsts, hpos', ← List.length_append, ← List.append_assoc, List.take_left']
    rfl
  have hrest : t'.insts.drop t'.pos = rest' := by
    rw [hinsts, hpos', ← List.length_append, ← List.append_assoc, List.drop_left']
    rfl
  refine ⟨t', hstep, ⟨?_, fun j hj => ?_, ?_⟩, ?_, ?_⟩
  · rw [hinsts, hpos', List.length_append, List.length_append]
    omega
  · refine h.unread j ?_
    rw [hdrop, holds]
    exact List.mem_append_right _ (hrest ▸ hj)
  · rw [hdone]
    exact h.teaches.append hteaches
  · have hpositive := List.length_pos_iff.mpr hne'
    rw [hrest, hdrop, holds, List.length_append]
    omega
  · rw [hdone]
    exact List.prefix_append _ _

/-- Every turn that is reached. -/
theorem inLoop (hT : Tabled I E) (hL : Linked addr E) (hdec : ∀ j ∈ insts, Decoded j)
    (hhonest : HonestBlock I w addr data values insts)
    (hreach : Relation.ReflTransGen (LUIPass.Next I data) ⟨insts, 0, values⟩ t) :
    InLoop E addr values insts t := by
  induction hreach with
  | refl => exact inLoop_start
  | @tail t t' hreach hnext ih =>
    obtain ⟨hne, hstep⟩ := hnext
    obtain ⟨t'', hstep', hin, -⟩ := ih.step hT hL hdec hhonest hreach hne
    rwa [Option.some.inj (hstep.symm.trans hstep')]

/-- What is in front of a turn stays as it is. -/
theorem prefix_later (hT : Tabled I E) (hL : Linked addr E) (hdec : ∀ j ∈ insts, Decoded j)
    (hhonest : HonestBlock I w addr data values insts)
    (hreach : Relation.ReflTransGen (LUIPass.Next I data) ⟨insts, 0, values⟩ t)
    (hlater : Relation.ReflTransGen (LUIPass.Next I data) t t') :
    t.insts.take t.pos <+: t'.insts.take t'.pos := by
  induction hlater with
  | refl => exact List.prefix_rfl
  | @tail u u' hu hnext ih =>
    obtain ⟨hne, hstep⟩ := hnext
    have hreach' := hreach.trans hu
    obtain ⟨u'', hstep', -, -, hfront⟩ :=
      (inLoop hT hL hdec hhonest hreach').step hT hL hdec hhonest hreach' hne
    obtain rfl := Option.some.inj (hstep.symm.trans hstep')
    exact ih.trans hfront

/-- The loop comes to the end of the block. -/
theorem loop_ends (hT : Tabled I E) (hL : Linked addr E) (hdec : ∀ j ∈ insts, Decoded j)
    (hhonest : HonestBlock I w addr data values insts) (n : Nat) :
    ∀ t, Relation.ReflTransGen (LUIPass.Next I data) ⟨insts, 0, values⟩ t →
      (t.insts.drop t.pos).length < n → ∃ t', LUIPass.loop I data n t = some t' ∧
        Relation.ReflTransGen (LUIPass.Next I data) t t' ∧ t'.pos = t'.insts.length := by
  induction n with
  | zero => exact fun _ _ hn => absurd hn (Nat.not_lt_zero _)
  | succ n ih =>
    intro t hreach hn
    rw [LUIPass.loop]
    by_cases hend : t.pos = t.insts.length
    · rw [if_pos hend]
      exact ⟨t, rfl, .refl, hend⟩
    · obtain ⟨t₁, hstep, -, hlen, -⟩ :=
        (inLoop hT hL hdec hhonest hreach).step hT hL hdec hhonest hreach hend
      obtain ⟨t', hloop, hlater, hend'⟩ := ih t₁ (hreach.tail ⟨hend, hstep⟩) (by omega)
      rw [if_neg hend, hstep, Option.bind_some]
      exact ⟨t', hloop, .head ⟨hend, hstep⟩ hlater, hend'⟩

/-- The pass over one block: every turn is so of what it leaves, and what is known behind the block
holds. -/
theorem reuseBlock_teaches (hT : Tabled I E) (hL : Linked addr E) (hdec : ∀ j ∈ insts, Decoded j)
    (hhonest : HonestBlock I w addr data values insts) :
    ∃ out values', reuseBlock I data values insts = some (out, values') ∧
      Teaches E addr values values' out ∧
      ∀ t, Relation.ReflTransGen (LUIPass.Next I data) ⟨insts, 0, values⟩ t →
        t.insts.take t.pos <+: out ∧ Teaches E addr values t.values (t.insts.take t.pos) := by
  obtain ⟨t', hloop, hreach', hend⟩ :=
    loop_ends hT hL hdec hhonest (insts.length + 1) ⟨insts, 0, values⟩ .refl (Nat.lt_succ_self _)
  have hall : t'.insts.take t'.pos = t'.insts := by rw [hend, List.take_length]
  have hteaches := (inLoop hT hL hdec hhonest hreach').teaches
  rw [hall] at hteaches
  refine ⟨t'.insts, t'.values, by rw [reuseBlock, hloop]; rfl, hteaches, fun t hreach => ?_⟩
  refine ⟨?_, (inLoop hT hL hdec hhonest hreach).teaches⟩
  -- the turns come one after the other, and the last has none behind it
  have hlater : Relation.ReflTransGen (LUIPass.Next I data) t t' := by
    have hunique : Relator.RightUnique (LUIPass.Next I data) := fun a b c hb hc =>
      Option.some.inj (hb.2.symm.trans hc.2)
    rcases Relation.ReflTransGen.total_of_right_unique hunique hreach hreach' with h | h
    · exact h
    · rcases Relation.ReflTransGen.cases_head h with rfl | ⟨u, hnext, -⟩
      · exact .refl
      · exact absurd hend hnext.1
  have hfront := prefix_later hT hL hdec hhonest hreach hlater
  rwa [hall] at hfront

end Loop

/-! ## The function -/

section Function

variable {I : MCInstrInfo} {w : Nat} {E : Env w} {addr : MCSymbol → Int}
  {data : MCSymbol → Option Int} {hasCFG : Bool}

/-- The turns of the pass over a function, each with its block. -/
inductive Point (I : MCInstrInfo) (data : MCSymbol → Option Int) (hasCFG : Bool) :
    Option BasicBlock → RegValueMap → List BasicBlock → BasicBlock → LUIPass → Prop
  | turn {prev : Option BasicBlock} {values : RegValueMap} {b : BasicBlock}
      {rest : List BasicBlock} {t : LUIPass}
      (h : Relation.ReflTransGen (LUIPass.Next I data) ⟨b.insts, 0, valuesAt hasCFG prev values b⟩ t) :
      Point I data hasCFG prev values (b :: rest) b t
  | later {prev : Option BasicBlock} {values : RegValueMap} {b c : BasicBlock}
      {rest : List BasicBlock} {q : List MCInst × RegValueMap} {t : LUIPass}
      (hq : reuseBlock I data (valuesAt hasCFG prev values b) b.insts = some q)
      (h : Point I data hasCFG (some b) q.2 rest c t) :
      Point I data hasCFG prev values (b :: rest) c t

/-- The states in which the paths of a function enter its blocks: from elsewhere (`entry`: the
function's beginning, landing pads, targets that the graph does not show), or from the end of a
predecessor. -/
inductive Entered (E : Env w) (entry : MCSymbol → State w → Prop) (blocks : List BasicBlock) :
    MCSymbol → State w → Prop
  | entry {label : MCSymbol} {s : State w} (h : entry label s) : Entered E entry blocks label s
  | behind {a : BasicBlock} {label : MCSymbol} {s s' : State w} (ha : a ∈ blocks)
      (h : Entered E entry blocks a.label s) (hrun : run E a.insts s = .ok s')
      (hsucc : label ∈ a.succs) : Entered E entry blocks label s'

/-- The graph of a function: labels are of one block, and a successor knows its predecessor. -/
structure ConsistentGraph (blocks : List BasicBlock) : Prop where
  labels : (blocks.map (·.label)).Nodup
  preds : ∀ a ∈ blocks, ∀ b ∈ blocks, b.label ∈ a.succs → a.label ∈ b.preds

/-- Every turn over a function is honest. -/
def HonestFunction (I : MCInstrInfo) (w : Nat) (addr : MCSymbol → Int) (data : MCSymbol → Option Int)
    (hasCFG : Bool) (prev : Option BasicBlock) (values : RegValueMap) (blocks : List BasicBlock) :
    Prop :=
  ∀ c t, Point I data hasCFG prev values blocks c t → ∀ i, t.insts[t.pos]? = some i →
    HonestTurn I w addr t.values i (t.insts.drop (t.pos + 1))
      (luiTurn I data t.values i (t.insts.drop (t.pos + 1)))

theorem HonestFunction.block {prev : Option BasicBlock} {values : RegValueMap} {b : BasicBlock}
    {rest : List BasicBlock} (h : HonestFunction I w addr data hasCFG prev values (b :: rest)) :
    HonestBlock I w addr data (valuesAt hasCFG prev values b) b.insts :=
  fun t ht => h b t (.turn ht)

theorem HonestFunction.rest {prev : Option BasicBlock} {values : RegValueMap} {b : BasicBlock}
    {rest : List BasicBlock} (h : HonestFunction I w addr data hasCFG prev values (b :: rest))
    {q : List MCInst × RegValueMap}
    (hq : reuseBlock I data (valuesAt hasCFG prev values b) b.insts = some q) :
    HonestFunction I w addr data hasCFG (some b) q.2 rest :=
  fun c t ht => h c t (.later hq ht)

/-- The pass comes to the end of the function, and changes instructions only. -/
theorem reuseFunction_total (hT : Tabled I E) (hL : Linked addr E) {blocks : List BasicBlock} :
    ∀ (prev : Option BasicBlock) (values : RegValueMap),
      (∀ b ∈ blocks, ∀ i ∈ b.insts, Decoded i) →
      HonestFunction I w addr data hasCFG prev values blocks →
      ∃ outs, reuseFunction I data hasCFG prev values blocks = some outs ∧
        List.Forall₂ (fun b out => out = { b with insts := out.insts }) blocks outs := by
  induction blocks with
  | nil => exact fun _ _ _ _ => ⟨[], rfl, .nil⟩
  | cons b rest ih =>
    intro prev values hdec hhonest
    obtain ⟨out, values', hreuse, -⟩ :=
      reuseBlock_teaches hT hL (hdec b List.mem_cons_self) hhonest.block
    obtain ⟨outs, houts, hall⟩ := ih (some b) values'
      (fun c hc => hdec c (List.mem_cons_of_mem _ hc)) (hhonest.rest hreuse)
    refine ⟨{ b with insts := out } :: outs, ?_, .cons rfl hall⟩
    rw [reuseFunction, hreuse, Option.bind_some, houts]
    rfl

/-- A rewritten block is one of the function's. -/
theorem mem_of_forall₂ {blocks outs : List BasicBlock}
    (h : List.Forall₂ (fun b out : BasicBlock => out = { b with insts := out.insts }) blocks outs)
    {a : BasicBlock} (ha : a ∈ outs) : ∃ b ∈ blocks, b.label = a.label ∧ b.succs = a.succs := by
  induction h with
  | nil => exact absurd ha List.not_mem_nil
  | @cons b out bs os hout _ ih =>
    rcases List.mem_cons.mp ha with rfl | ha
    · exact ⟨b, List.mem_cons_self, by rw [hout], by rw [hout]⟩
    · obtain ⟨c, hc, hcl⟩ := ih ha
      exact ⟨c, List.mem_cons_of_mem _ hc, hcl⟩

theorem labels_of_forall₂ {blocks outs : List BasicBlock}
    (h : List.Forall₂ (fun b out : BasicBlock => out = { b with insts := out.insts }) blocks outs) :
    outs.map (·.label) = blocks.map (·.label) := by
  induction h with
  | nil => rfl
  | @cons b out bs os hout _ ih => rw [List.map_cons, List.map_cons, ih, hout]

/-- The pass in front of the blocks `bs` of a function: what it leaves of them is in the function, and
`values` holds behind what it leaves of the block in front. -/
structure InFunction (I : MCInstrInfo) {w : Nat} (E : Env w) (addr : MCSymbol → Int)
    (data : MCSymbol → Option Int) (hasCFG : Bool) (entry : MCSymbol → State w → Prop)
    (blocks outs : List BasicBlock) (prev : Option BasicBlock) (values : RegValueMap)
    (bs : List BasicBlock) : Prop where
  front : ∃ pre, blocks = pre ++ bs ∧ ∀ a, prev = some a → ∃ init, pre = init ++ [a]
  left : ∃ outs', reuseFunction I data hasCFG prev values bs = some outs' ∧ outs' ⊆ outs
  known : ∀ a, prev = some a → ∃ out ∈ outs, out.label = a.label ∧
    ∀ s s', Entered E entry outs a.label s → run E out.insts s = .ok s' → Knows addr values s'
  honest : HonestFunction I w addr data hasCFG prev values bs

section Blocks

variable {entry : MCSymbol → State w → Prop} {blocks outs bs : List BasicBlock}
  {prev : Option BasicBlock} {values : RegValueMap} {b c : BasicBlock} {t : LUIPass}

/-- What is known in front of a block holds where a path enters it: one into which values are carried
is entered from the end of the block in front. -/
theorem InFunction.entered (hgraph : ConsistentGraph blocks)
    (hall : List.Forall₂ (fun b out => out = { b with insts := out.insts }) blocks outs)
    (hentry : ∀ init a b post, blocks = init ++ a :: b :: post →
      canCarryValuesToBlock hasCFG (some a) b = true → ∀ s, ¬ entry b.label s)
    (h : InFunction I E addr data hasCFG entry blocks outs prev values (b :: bs)) {s : State w}
    (hs : Entered E entry outs b.label s) : Knows addr (valuesAt hasCFG prev values b) s := by
  rw [valuesAt]
  by_cases hc : canCarryValuesToBlock hasCFG prev b = true
  · rw [if_pos hc]
    obtain ⟨pre, hblocks, hfront⟩ := h.front
    cases hp : prev with
    | none =>
      rw [hp] at hc
      exact absurd hc Bool.false_ne_true
    | some a =>
      rw [hp] at hc
      obtain ⟨init, rfl⟩ := hfront a hp
      rw [List.append_assoc, List.singleton_append] at hblocks
      obtain ⟨out, hout, hlabel, hknown⟩ := h.known a hp
      cases hs with
      | entry hs => exact absurd hs (hentry init a b bs hblocks hc s)
      | @behind a' _ s₀ _ ha' hs₀ hrun hsucc =>
        have hpreds : b.preds = [a.label] := by
          simp only [canCarryValuesToBlock, Bool.and_eq_true, beq_iff_eq] at hc
          exact hc.1.2
        obtain ⟨a₀, ha₀, hlabel₀, hsucc₀⟩ := mem_of_forall₂ hall ha'
        have hmem := hgraph.preds a₀ ha₀ b (by rw [hblocks]; simp) (hsucc₀ ▸ hsucc)
        rw [hpreds, List.mem_singleton, hlabel₀] at hmem
        have hsame : a' = out := by
          have hnodup := hgraph.labels
          rw [← labels_of_forall₂ hall] at hnodup
          exact List.inj_on_of_nodup_map hnodup ha' hout (hmem.trans hlabel.symm)
        subst hsame
        exact hknown s₀ s (hmem ▸ hs₀) hrun
  · rw [if_neg hc]
    exact knows_cleared

/-- Behind a block. -/
theorem InFunction.later (hT : Tabled I E) (hL : Linked addr E)
    (hdec : ∀ b ∈ blocks, ∀ i ∈ b.insts, Decoded i) (hgraph : ConsistentGraph blocks)
    (hall : List.Forall₂ (fun b out => out = { b with insts := out.insts }) blocks outs)
    (hentry : ∀ init a b post, blocks = init ++ a :: b :: post →
      canCarryValuesToBlock hasCFG (some a) b = true → ∀ s, ¬ entry b.label s)
    (h : InFunction I E addr data hasCFG entry blocks outs prev values (b :: bs))
    {q : List MCInst × RegValueMap}
    (hq : reuseBlock I data (valuesAt hasCFG prev values b) b.insts = some q) :
    InFunction I E addr data hasCFG entry blocks outs (some b) q.2 bs := by
  obtain ⟨pre, hblocks, -⟩ := h.front
  obtain ⟨outs', houts, hsub⟩ := h.left
  rw [reuseFunction, hq, Option.bind_some] at houts
  obtain ⟨tail, htail, rfl⟩ := Option.map_eq_some_iff.mp houts
  refine ⟨⟨pre ++ [b], by rw [hblocks, List.append_assoc]; rfl, fun a ha => ⟨pre, ?_⟩⟩,
    ⟨tail, htail, fun o ho => hsub (List.mem_cons_of_mem _ ho)⟩, fun a ha => ?_, h.honest.rest hq⟩
  · rw [Option.some.inj ha]
  · obtain rfl := Option.some.inj ha
    refine ⟨{ b with insts := q.1 }, hsub List.mem_cons_self, rfl, fun s s' hs hrun => ?_⟩
    obtain ⟨out, values', hreuse, hteaches, -⟩ :=
      reuseBlock_teaches hT hL (hdec b (by rw [hblocks]; simp)) h.honest.block
    obtain rfl := Option.some.inj (hq.symm.trans hreuse)
    exact hteaches s s' (h.entered hgraph hall hentry hs) hrun

/-- A turn of the pass over the blocks from `bs` on. -/
theorem InFunction.point (hT : Tabled I E) (hL : Linked addr E)
    (hdec : ∀ b ∈ blocks, ∀ i ∈ b.insts, Decoded i) (hgraph : ConsistentGraph blocks)
    (hall : List.Forall₂ (fun b out => out = { b with insts := out.insts }) blocks outs)
    (hentry : ∀ init a b post, blocks = init ++ a :: b :: post →
      canCarryValuesToBlock hasCFG (some a) b = true → ∀ s, ¬ entry b.label s)
    (hpoint : Point I data hasCFG prev values bs c t)
    (h : InFunction I E addr data hasCFG entry blocks outs prev values bs) :
    ∃ out ∈ outs, out.label = c.label ∧ t.insts.take t.pos <+: out.insts ∧
      ∀ s, Entered E entry outs c.label s → ∀ s', run E (t.insts.take t.pos) s = .ok s' →
        Knows addr t.values s' := by
  induction hpoint with
  | @turn prev values b bs t hreach =>
    obtain ⟨pre, hblocks, -⟩ := h.front
    obtain ⟨outs', houts, hsub⟩ := h.left
    obtain ⟨out, values', hreuse, -, hturns⟩ :=
      reuseBlock_teaches hT hL (hdec b (by rw [hblocks]; simp)) h.honest.block
    rw [reuseFunction, hreuse, Option.bind_some] at houts
    obtain ⟨tail, -, rfl⟩ := Option.map_eq_some_iff.mp houts
    obtain ⟨hfront, hteaches⟩ := hturns t hreach
    exact ⟨{ b with insts := out }, hsub List.mem_cons_self, rfl, hfront, fun s hs s' hrun =>
      hteaches s s' (h.entered hgraph hall hentry hs) hrun⟩
  | later hq _ ih => exact ih (h.later hT hL hdec hgraph hall hentry hq)

end Blocks

/-- **The known values are so**: at every turn of the pass, behind the instructions that it has left
there, along every path. -/
theorem values_truthful (hT : Tabled I E) (hL : Linked addr E) {entry : MCSymbol → State w → Prop}
    {blocks : List BasicBlock} (hdec : ∀ b ∈ blocks, ∀ i ∈ b.insts, Decoded i)
    (hgraph : ConsistentGraph blocks)
    (hentry : ∀ init a b post, blocks = init ++ a :: b :: post →
      canCarryValuesToBlock hasCFG (some a) b = true → ∀ s, ¬ entry b.label s)
    (hhonest : HonestFunction I w addr data hasCFG none .cleared blocks) :
    ∃ outs, reuseFunction I data hasCFG none .cleared blocks = some outs ∧
      ∀ c t, Point I data hasCFG none .cleared blocks c t →
        ∃ out ∈ outs, out.label = c.label ∧ t.insts.take t.pos <+: out.insts ∧
          ∀ s, Entered E entry outs c.label s → ∀ s', run E (t.insts.take t.pos) s = .ok s' →
            Knows addr t.values s' := by
  obtain ⟨outs, houts, hall⟩ := reuseFunction_total hT hL none .cleared hdec hhonest
  refine ⟨outs, houts, fun c t hpoint => ?_⟩
  refine InFunction.point hT hL hdec hgraph hall hentry hpoint ⟨⟨[], rfl, ?_⟩, ?_, ?_, hhonest⟩
  · exact fun a ha => absurd ha (by simp)
  · exact ⟨outs, houts, fun o ho => ho⟩
  · exact fun a ha => absurd ha (by simp)

end Function

theorem values_truthful_storeLoaded : ∃ outs,
    reuseFunction noOthers (fun _ => none) true none .cleared [constantThenLoad storeLoaded] = some outs ∧
      ∀ c t, Point noOthers (fun _ => none) true none .cleared [constantThenLoad storeLoaded] c t →
        ∃ out ∈ outs, out.label = c.label ∧ t.insts.take t.pos <+: out.insts ∧
          ∀ s, Entered (zeroingOthers noOthers fun _ => 0) (fun _ _ => True) outs c.label s →
            ∀ s', run (zeroingOthers noOthers fun _ => 0) (t.insts.take t.pos) s = .ok s' →
              Knows (fun _ => 0) t.values s' := by
  have hdec : ∀ b ∈ [constantThenLoad storeLoaded], ∀ i ∈ b.insts, Decoded i := by
    intro b hb
    obtain rfl := List.mem_singleton.mp hb
    exact constantThenLoad_decoded (.inl rfl)
  have hgraph : ConsistentGraph [constantThenLoad storeLoaded] := by
    refine ⟨List.nodup_singleton _, fun a ha b hb hsucc => ?_⟩
    obtain rfl := List.mem_singleton.mp ha
    exact absurd hsucc List.not_mem_nil
  refine values_truthful (zeroingOthers_tabled _ _) (zeroingOthers_linked noOthers _) hdec hgraph
    (fun init a b post hblocks _ => ?_) fun c t hpoint i hi => ?_
  · have hlen := congrArg List.length hblocks
    simp only [List.length_cons, List.length_nil, List.length_append] at hlen
    omega
  cases hpoint with
  | later hq h => cases h
  | turn ht =>
    rcases Relation.ReflTransGen.cases_head ht with rfl | ⟨t₁, ⟨-, hstep⟩, ht⟩
    · obtain rfl := Option.some.inj hi
      exact fun _ => ⟨by decide, fun sink _ => fitsPair_word _ _ _⟩
    obtain rfl := Option.some.inj hstep
    rcases Relation.ReflTransGen.cases_head ht with rfl | ⟨t₂, ⟨-, hstep⟩, ht⟩
    · obtain rfl := Option.some.inj hi
      exact ⟨storeLoaded, rfl, by decide⟩
    obtain rfl := Option.some.inj hstep
    rcases Relation.ReflTransGen.cases_head ht with rfl | ⟨t₃, ⟨-, hstep⟩, ht⟩
    · obtain rfl := Option.some.inj hi
      exact trivial
    obtain rfl := Option.some.inj hstep
    rcases Relation.ReflTransGen.cases_head ht with rfl | ⟨t₄, ⟨hend, -⟩, -⟩
    · have hnone : none = some i := hi
      exact absurd hnone (by simp)
    · exact absurd rfl hend

/-- The `lui` behind the load is learned when the load gets another base: `a0` is known to be
0x12000 before it is. -/
theorem untrue_otherLUI : Tabled noOthers (zeroingOthers noOthers fun _ => 0) ∧
    Linked (fun _ => 0) (zeroingOthers noOthers fun _ => 0) ∧
    (∀ i ∈ (constantThenLoad otherLUI).insts, Decoded i) ∧
    ConsistentGraph [constantThenLoad otherLUI] ∧
    ∃ outs, reuseFunction noOthers (fun _ => none) true none .cleared [constantThenLoad otherLUI] =
      some outs ∧ ∃ c t,
        Point noOthers (fun _ => none) true none .cleared [constantThenLoad otherLUI] c t ∧
        ∃ s, Entered (zeroingOthers noOthers fun _ => 0) (fun _ _ => True) outs c.label s ∧
          ∃ s', run (zeroingOthers noOthers fun _ => 0) (t.insts.take t.pos) s = .ok s' ∧
            ¬ Knows (fun _ => 0) t.values s' := by
  refine ⟨zeroingOthers_tabled _ _, zeroingOthers_linked _ _, constantThenLoad_decoded (.inr rfl),
    ⟨by simp, fun a ha b hb hsucc => ?_⟩, ?_⟩
  · obtain rfl := List.mem_singleton.mp ha
    exact absurd hsucc List.not_mem_nil
  · refine ⟨_, rfl, constantThenLoad otherLUI, _,
      .turn (.tail (.tail .refl ⟨by decide, rfl⟩) ⟨by decide, rfl⟩), ?_⟩
    refine ⟨⟨fun _ => 0, fun _ => 0⟩, .entry trivial, _, rfl, fun hknows => ?_⟩
    have hread := hknows (gpr 10, .absolute 0x12000) (by decide)
    revert hread
    decide

end RvLlvm.Bolt
