import Mathlib.Data.List.Forall2
import RvLlvm.Bolt.ReuseLUIAggressive
import RvLlvm.Bolt.GPRelaxSound

/-!
# What the chains leave

* `rem`: each turn of the loops passes an instruction, or ends a chain.
* `CleanFrom`: a chain stays in one block, its `lui`s make the addresses of its `addi`s, and nothing
  sets the register that it uses or reads those of the `lui`s that are erased.
* `reuseAggressive_run`: then the pass returns, and every block runs as it did, from every state.
-/

namespace RvLlvm.Bolt

/-! ## Places -/

section Places

variable {bs : List BasicBlock} {p : Place}

/-- No block is empty. -/
def NoneEmpty (bs : List BasicBlock) : Prop := ∀ b ∈ bs, b.insts ≠ []

/-- The place of an instruction. -/
def Place.Valid (bs : List BasicBlock) (p : Place) : Prop := p.ii < (instsAt bs p.bb).length

/-- The instructions from a place on. -/
def rem (bs : List BasicBlock) (p : Place) : Nat :=
  ((bs.drop p.bb).map (·.insts.length)).sum - p.ii

theorem instsAt_of_lt {k : Nat} (hk : k < bs.length) : instsAt bs k = (bs.get ⟨k, hk⟩).insts := by
  rw [instsAt, List.getElem?_eq_getElem hk]
  rfl

theorem bb_lt (hp : p.Valid bs) : p.bb < bs.length := by
  by_contra hge
  rw [Place.Valid, instsAt, List.getElem?_eq_none (not_lt.mp hge)] at hp
  exact absurd hp (Nat.not_lt_zero _)

theorem nextBlock_eq (h : NoneEmpty bs) (k : Nat) :
    nextBlock bs k = if k < bs.length then some ⟨k, 0⟩ else none := by
  rw [nextBlock]
  split
  next hk =>
    have hne : (bs.get ⟨k, hk⟩).insts ≠ [] := h _ (List.get_mem _ _)
    rw [List.drop_eq_getElem_cons hk, List.findIdx?_cons, if_pos (by simpa using hne)]
    rfl
  next hk =>
    rw [List.drop_eq_nil_of_le (not_lt.mp hk)]
    rfl

theorem rem_block (hk : p.bb < bs.length) :
    ((bs.drop p.bb).map (·.insts.length)).sum =
      (instsAt bs p.bb).length + ((bs.drop (p.bb + 1)).map (·.insts.length)).sum := by
  rw [List.drop_eq_getElem_cons hk, List.map_cons, List.sum_cons, instsAt_of_lt hk]
  rfl

/-- The next instruction. -/
theorem nextInst_spec (h : NoneEmpty bs) (hp : p.Valid bs) {q : Place}
    (hq : nextInst bs p = some q) :
    q.Valid bs ∧ rem bs q + 1 = rem bs p ∧ (q.bb = p.bb → q.ii = p.ii + 1) := by
  have hbb := bb_lt hp
  have hsum := rem_block hbb
  rw [nextInst] at hq
  split at hq
  next hend =>
    rw [nextBlock_eq h] at hq
    split at hq
    next hnext =>
      obtain rfl := Option.some.inj hq
      refine ⟨?_, ?_, fun heq => absurd heq (by simp)⟩
      · rw [Place.Valid, instsAt_of_lt hnext]
        exact List.length_pos_iff.mpr (h _ (List.get_mem _ _))
      · simp only [rem]
        omega
    · exact absurd hq (by simp)
  next hend =>
    obtain rfl := Option.some.inj hq
    rw [Place.Valid] at hp
    refine ⟨?_, ?_, fun _ => rfl⟩
    · rw [Place.Valid]
      simp only
      omega
    · simp only [rem]
      omega

end Places

/-! ## Links -/

section Links

variable {pre post : List BasicBlock} {b : BasicBlock} {P B : List MCInst} {i j new : MCInst}

theorem instsAt_middle : instsAt (pre ++ b :: post) pre.length = b.insts := by
  rw [instsAt, List.getElem?_append_right (Nat.le_refl _), Nat.sub_self]
  rfl

/-- A link in one block. -/
theorem relink_middle (h : b.insts = P ++ i :: j :: B) :
    relink (pre ++ b :: post) ⟨pre.length, P.length⟩ ⟨pre.length, P.length + 1⟩ new =
      pre ++ { b with insts := P ++ new :: B } :: post := by
  have hmodify : ∀ (c : BasicBlock) (f : BasicBlock → BasicBlock),
      (pre ++ c :: post).modify pre.length f = pre ++ f c :: post := by
    intro c f
    induction pre with
    | nil => rfl
    | cons a pre ih => exact congrArg (a :: ·) ih
  have hset : (P ++ i :: j :: B).set (P.length + 1) new = P ++ i :: new :: B := by
    rw [List.set_append_right _ _ (by omega), Nat.add_sub_cancel_left]
    rfl
  rw [relink, hmodify, hmodify]
  simp only
  rw [h, hset, eraseIdx_middle rfl]

/-- The blocks are those of one graph. -/
def shape (bs : List BasicBlock) : List (MCSymbol × List MCSymbol × List MCSymbol) :=
  bs.map fun b => (b.label, b.succs, b.preds)

variable {w : Nat} (E : Env w)

/-- The same graph, and blocks that run alike from every state. -/
def SameFunction (bs bs' : List BasicBlock) : Prop :=
  shape bs' = shape bs ∧ ∀ k s, run E (instsAt bs' k) s = run E (instsAt bs k) s

variable {E}

theorem SameFunction.trans {bs bs' bs'' : List BasicBlock} (h : SameFunction E bs bs')
    (h' : SameFunction E bs' bs'') :
    SameFunction E bs bs'' := ⟨h'.1.trans h.1, fun k s => (h'.2 k s).trans (h.2 k s)⟩

theorem sameFunction_middle {insts : List MCInst} (h : ∀ s, run E insts s = run E b.insts s) :
    SameFunction E (pre ++ b :: post) (pre ++ { b with insts := insts } :: post) := by
  refine ⟨by simp [shape], fun k s => ?_⟩
  rcases Nat.lt_trichotomy k pre.length with hk | rfl | hk
  · rw [instsAt, instsAt, List.getElem?_append_left hk, List.getElem?_append_left hk]
  · rw [instsAt_middle, instsAt_middle, h]
  · have hcons : ∀ c : BasicBlock, (c :: post)[k - pre.length]? = post[k - pre.length - 1]? := by
      intro c
      obtain ⟨n, hn⟩ : ∃ n, k - pre.length = n + 1 := ⟨k - pre.length - 1, by omega⟩
      rw [hn]
      rfl
    rw [instsAt, instsAt, List.getElem?_append_right (by omega),
      List.getElem?_append_right (by omega),
      hcons, hcons]

variable {I : MCInstrInfo} {addr : MCSymbol → Int} {r cur next : MCPhysReg} {base target : Int}

/-- Registers that are dead do not matter. -/
theorem run_agree (hT : Tabled I E) {dead : List MCPhysReg} {rest : List MCInst}
    (hdead : DeadOk I dead rest) {so sn : State w} (hagree : AgreeOff dead so sn) :
    run E rest so = run E rest sn := by
  induction rest generalizing dead so sn with
  | nil =>
    obtain rfl := hdead.nil
    rw [hagree.eq]
  | cons i rest ih =>
    rw [← List.singleton_append, run_append, run_append, run_singleton, run_singleton]
    rcases same_step hT hdead hagree with ⟨so', sn', hso, hsn, hagree'⟩ | ⟨e, hso, hsn⟩
    · rw [hso, hsn, ok_bind, ok_bind]
      exact ih hdead.step hagree'
    · rw [hso, hsn]

/-- A `lui` and an `addi` that make an address. -/
structure PairOk (w : Nat) (addr : MCSymbol → Int) (i j : MCInst) (r next : MCPhysReg)
    (target : Int) :
    Prop where
  lui : i.opcode = .lui
  addi : j.opcode = .addi
  high : ∃ e tail, i.operands = .reg r :: .expr (.target vkHi e) :: tail ∧
    highPart (e.eval addr) = highPart target
  low : ∃ k s tail, j.operands = .reg next :: .reg r :: .expr
    (.target vkLo (.symbolRef k s)) :: tail ∧
    addr s = target
  fits : Fits w (target + 0x800)
  notZero : ¬ r ≤ gpr 0 ∧ ¬ next ≤ gpr 0

theorem pair_run (hL : Linked addr E) (h : PairOk w addr i j r next target) (s : State w) :
    run E [i, j] s =
      .ok ((s.set r (luiValue w (highPart target))).set next (BitVec.ofInt w target)) := by
  obtain ⟨e, tail, hi, hhigh⟩ := h.high
  obtain ⟨k, sym, tail', hj, rfl⟩ := h.low
  have hlui : exec E i s = .ok (s.set r (luiValue w (highPart (addr sym)))) := by
    rw [exec, h.lui, hi]
    show Except.ok (s.set r (luiValue w (E.value (.target vkHi e)))) = _
    rw [hL.hi, ← highPart, hhigh]
  rw [run_pair, hlui, ok_bind, exec_gpSink (by rw [h.addi]; rfl) hj]
  show execSum E j next (_ + BitVec.ofInt w (E.value (.target vkLo (.symbolRef k sym)))) _ = _
  rw [State.get_set_self _ _ h.notZero.1, hL.lo, execSum, h.addi]
  show Except.ok ((s.set r _).set next (luiValue w (highPart (addr sym)) +
    BitVec.ofInt w ((addr sym).bmod (2 ^ 12)))) = _
  rw [highPart, hi_add_lo h.fits]

/-- **A link**: where the register holds the address in front, the `addi` makes the next one. -/
theorem link_run (hT : Tabled I E) (hL : Linked addr E) (h : PairOk w addr i j r next target)
    (hsafe : next = r ∨ redefinedSafely I r B = true) {s : State w}
    (hcur : s.get cur = BitVec.ofInt w base) :
    run E (makeADDI next cur (target - base) :: B) s = run E (i :: j :: B) s := by
  rw [← List.singleton_append, run_append, run_singleton, exec_makeADDI, hcur, ← BitVec.ofInt_add,
    add_sub_cancel, ok_bind, show i :: j :: B = [i, j] ++ B from rfl, run_append,
      pair_run hL h, ok_bind]
  refine (run_agree hT (show DeadOk I ([r].filter (· ≠ next)) B from fun q hq => ?_) ?_).symm
  · obtain ⟨hq, hne⟩ := List.mem_filter.mp hq
    obtain rfl := List.mem_singleton.mp hq
    refine ⟨h.notZero.1, hsafe.resolve_left fun heq => ?_⟩
    exact absurd heq.symm (of_decide_eq_true hne)
  · refine ((AgreeOff.refl [] s).set_left r _).set next _ fun q hq => ?_
    rw [List.mem_singleton.mp hq]
    exact h.notZero.1

end Links

/-! ## The loops -/

section Loops

variable (I : MCInstrInfo) (w : Nat) (addr : MCSymbol → Int) (symbolValue : MCSymbol → Option Int)

/-- The first pair of a chain makes the address that the chain begins with. -/
def StartOk (bs : List BasicBlock) (p a : Place) (r cur : MCPhysReg) (base : Int) : Prop :=
  a.bb = p.bb ∧ ∀ i ∈ instAt bs p, ∀ j ∈ instAt bs a, PairOk w addr i j r cur base

/-- A link stays in the block, its pair makes the address of its `addi`, the register of its `lui`
is set before control may leave, and it is not at the end of the function. -/
def LinkOk (bs : List BasicBlock) (ch l a : Place) (r next : MCPhysReg) (target : Int) : Prop :=
  l.bb = ch.bb ∧ a.bb = ch.bb ∧
    (∀ i ∈ instAt bs l, ∀ j ∈ instAt bs a, PairOk w addr i j r next target) ∧
    (next = r ∨ redefinedSafely I r ((instsAt bs a.bb).drop (a.ii + 1)) = true) ∧
    (a.ii + 1 < (instsAt bs a.bb).length ∨ a.bb + 1 < bs.length)

/-- The instruction behind a link, which the iterator passes, does not set the register. -/
def PassedOk (bs : List BasicBlock) (a : Place) (next : MCPhysReg) : Prop :=
  ∃ x, instAt bs ⟨a.bb, a.ii + 1⟩ = some x ∧ isLUIBarrier I x = false ∧ writesReg I x next = false

/-- The symbols have values, and the links of all chains are as they should be; `known` says that
the register of the chain holds its address. -/
def CleanFrom : Nat → Prop → ChainState → Prop
  | n + 1, _, .scan bs p =>
    match scanTurn symbolValue bs p with
    | none => False
    | some .advance => ∀ q ∈ nextInst bs p, CleanFrom n False (.scan bs q)
    | some (.start a r cur base) => CleanFrom n (StartOk w addr bs p a r cur base)
      (.chain bs a r cur base)
  | n + 1, known, .chain bs ch r cur base =>
    match chainTurn symbolValue bs ch r base with
    | none => False
    | some .stop => CleanFrom n False (.scan bs ch)
    | some (.link l a next target) =>
      known ∧ LinkOk I w addr bs ch l a r next target ∧
        ∀ ch' ∈ afterLink (relink bs l a (makeADDI next cur (target - base))) a,
          CleanFrom n (PassedOk I bs a next)
            (.chain (relink bs l a (makeADDI next cur (target - base))) ch' r next target)
  | _, _, _ => True

variable {I w addr symbolValue} {E : Env w}

/-- The blocks of a state. -/
def ChainState.blocks : ChainState → List BasicBlock
  | .scan bs _ | .chain bs _ _ _ _ | .done bs => bs

/-- The turns that are left at most. -/
def ChainState.left : ChainState → Nat
  | .scan bs p => 2 * rem bs p
  | .chain bs ch _ _ _ => 2 * rem bs ch + 1
  | .done _ => 0

variable (E) in
/-- The register holds the address behind the instruction where the chain is. -/
def ChainHolds (bs : List BasicBlock) (ch : Place) (cur : MCPhysReg) (base : Int) : Prop :=
  ∀ s t, run E ((instsAt bs ch.bb).take (ch.ii + 1)) s = .ok t → t.get cur = BitVec.ofInt w base

variable (E) in
/-- The iterators are at instructions, and what is known is so. -/
def ChainState.Inv (known : Prop) : ChainState → Prop
  | .scan bs p => NoneEmpty bs ∧ p.Valid bs
  | .chain bs ch _ cur base => NoneEmpty bs ∧ ch.Valid bs ∧ (known → ChainHolds E bs ch cur base)
  | .done _ => True

variable {bs : List BasicBlock} {base : Int} {cur : MCPhysReg}

theorem rem_pos {p : Place} (hp : p.Valid bs) : 0 < rem bs p := by
  rw [rem, rem_block (bb_lt hp)]
  rw [Place.Valid] at hp
  omega

theorem scanTurn_start {p a : Place} {r : MCPhysReg}
    (h : scanTurn symbolValue bs p = some (.start a r cur base)) : nextInst bs p = some a := by
  rw [scanTurn] at h
  obtain ⟨i, -, h⟩ := Option.bind_eq_some_iff.mp h
  split at h
  · exact absurd h (by simp)
  · split at h
    · exact absurd h (by simp)
    · obtain ⟨_, -, h⟩ := Option.bind_eq_some_iff.mp h
      split at h
      · exact absurd h (by simp)
      next a' ha =>
        obtain ⟨j, -, h⟩ := Option.bind_eq_some_iff.mp h
        split at h
        · split at h
          · exact absurd h (by simp)
          · obtain ⟨base', -, h⟩ := Option.map_eq_some_iff.mp h
            rw [ha, (ScanTurn.start.inj h).1]
        · exact absurd h (by simp)

theorem chainTurn_link {ch l a : Place} {r next : MCPhysReg} {target : Int}
    (h : chainTurn symbolValue bs ch r base = some (.link l a next target)) :
    nextInst bs ch = some l ∧ nextInst bs l = some a := by
  rw [chainTurn] at h
  split at h
  · exact absurd h (by simp)
  next l' hl =>
    obtain ⟨i, -, h⟩ := Option.bind_eq_some_iff.mp h
    split at h
    · exact absurd h (by simp)
    · split at h
      · exact absurd h (by simp)
      next a' ha =>
        obtain ⟨j, -, h⟩ := Option.bind_eq_some_iff.mp h
        split at h
        · obtain ⟨t, -, h⟩ := Option.map_eq_some_iff.mp h
          split at h
          · exact absurd h (by simp)
          · obtain ⟨rfl, rfl, -, -⟩ := ChainTurn.link.inj h
            exact ⟨hl, ha⟩
        · exact absurd h (by simp)

theorem split_places {l a : Place} (ha : a.Valid bs) (hbb : a.bb = l.bb) (hii : a.ii = l.ii + 1) :
    ∃ pre b post P i j B, bs = pre ++ b :: post ∧ l = ⟨pre.length, P.length⟩ ∧
      a = ⟨pre.length, P.length + 1⟩ ∧ b.insts = P ++ i :: j :: B ∧ instAt bs l = some i ∧
      instAt bs a = some j := by
  obtain ⟨k, m⟩ := l
  obtain ⟨k', m'⟩ := a
  obtain rfl : k' = k := hbb
  obtain rfl : m' = m + 1 := hii
  have hk := bb_lt ha
  have hm : m + 1 < (bs.get ⟨k', hk⟩).insts.length := by rwa [Place.Valid, instsAt_of_lt hk] at ha
  refine ⟨bs.take k', bs.get ⟨k', hk⟩, bs.drop (k' + 1), (bs.get ⟨k', hk⟩).insts.take m,
    (bs.get ⟨k', hk⟩).insts.get ⟨m, by omega⟩, (bs.get ⟨k', hk⟩).insts.get ⟨m + 1, hm⟩,
    (bs.get ⟨k', hk⟩).insts.drop (m + 2), ?_, ?_, ?_, ?_, ?_, ?_⟩
  · exact (List.take_append_drop k' bs).symm.trans (by rw [List.drop_eq_getElem_cons hk]; rfl)
  · rw [List.length_take_of_le hk.le, List.length_take_of_le (by omega)]
  · rw [List.length_take_of_le hk.le, List.length_take_of_le (by omega)]
  · refine (List.take_append_drop m _).symm.trans ?_
    rw [List.drop_eq_getElem_cons (by omega), List.drop_eq_getElem_cons hm]
    rfl
  · rw [instAt, instsAt_of_lt hk]
    exact List.getElem?_eq_getElem _
  · rw [instAt, instsAt_of_lt hk]
    exact List.getElem?_eq_getElem hm

theorem rem_middle (pre : List BasicBlock) (b : BasicBlock) (post : List BasicBlock) (m : Nat) :
    rem (pre ++ b :: post) ⟨pre.length, m⟩ =
      b.insts.length + (post.map (·.insts.length)).sum - m ∧
    rem (pre ++ b :: post) ⟨pre.length + 1, 0⟩ = (post.map (·.insts.length)).sum := by
  refine ⟨by simp [rem], ?_⟩
  have hdrop : (pre ++ b :: post).drop (pre.length + 1) = post := by
    rw [List.drop_append, List.drop_eq_nil_of_le (by omega)]
    simp
  rw [rem, hdrop, Nat.sub_zero]

/-- The register of the chain holds the next address also behind an instruction that is passed. -/
theorem holds_passed (hT : Tabled I E) {next : MCPhysReg} {target : Int} {x : MCInst}
    (hcur : ∀ s t, run E P s = .ok t → t.get cur = BitVec.ofInt w base) (hnext : ¬ next ≤ gpr 0)
    (hbarrier : isLUIBarrier I x = false) (hwrites : writesReg I x next = false) {s t : State w}
    (ht : run E (P ++ [makeADDI next cur (target - base), x]) s = .ok t) :
    t.get next = BitVec.ofInt w target := by
  rw [run_append] at ht
  cases hP : run E P s with
  | error e =>
    rw [hP, error_bind] at ht
    exact absurd ht (by simp)
  | ok u =>
    rw [hP, ok_bind, run_pair, exec_makeADDI, hcur s u hP, ok_bind, ← BitVec.ofInt_add,
      add_sub_cancel] at ht
    rw [exec_defs hT hbarrier ht next hwrites, State.get_set_self _ _ hnext]

/-- **A link of a chain**: the blocks run alike, and the iterator goes on behind it. -/
theorem link_spec (hT : Tabled I E) (hL : Linked addr E) {ch l a : Place} {r next : MCPhysReg}
    {target : Int} (hne : NoneEmpty bs) (hch : ch.Valid bs) (hl : nextInst bs ch = some l)
    (ha : nextInst bs l = some a) (hholds : ChainHolds E bs ch cur base)
    (hok : LinkOk I w addr bs ch l a r next target) :
    SameFunction E bs (relink bs l a (makeADDI next cur (target - base))) ∧
      NoneEmpty (relink bs l a (makeADDI next cur (target - base))) ∧
      ∃ ch', afterLink (relink bs l a (makeADDI next cur (target - base))) a = some ch' ∧
        ch'.Valid (relink bs l a (makeADDI next cur (target - base))) ∧
        rem (relink bs l a (makeADDI next cur (target - base))) ch' < rem bs ch ∧
        (PassedOk I bs a next →
          ChainHolds E (relink bs l a (makeADDI next cur (target - base))) ch' next target) := by
  obtain ⟨hlbb, habb, hpair, hsafe, hend⟩ := hok
  obtain ⟨hlvalid, hlrem, hlii⟩ := nextInst_spec hne hch hl
  obtain ⟨havalid, harem, haii⟩ := nextInst_spec hne hlvalid ha
  have habb' : a.bb = l.bb := habb.trans hlbb.symm
  replace hlii := hlii hlbb
  obtain ⟨pre, b, post, P, i, j, B, rfl, rfl, rfl, hinsts, hi, hj⟩ :=
    split_places havalid habb' (haii habb')
  have hpairOk := hpair i hi j hj
  generalize hnew : makeADDI next cur (target - base) = new
  have hcur : ∀ s t, run E P s = .ok t → t.get cur = BitVec.ofInt w base := by
    intro s t ht
    refine hholds s t ?_
    rw [← hlbb, instsAt_middle, ← hlii, hinsts, List.take_left]
    exact ht
  simp only [instsAt_middle, hinsts] at hsafe hend
  have hdrop : (P ++ i :: j :: B).drop (P.length + 1 + 1) = B := by
    rw [List.drop_append, List.drop_eq_nil_of_le (by omega)]
    simp [show P.length + 1 + 1 - P.length = 2 by omega]
  rw [hdrop] at hsafe
  rw [relink_middle hinsts]
  obtain ⟨hremA, -⟩ := rem_middle pre b post (P.length + 1)
  obtain ⟨hremNew, hremNext⟩ := rem_middle pre { b with insts := P ++ new :: B } post (P.length + 1)
  rw [hinsts] at hremA
  simp only [List.length_append, List.length_cons] at hremA hremNew hend
  refine ⟨sameFunction_middle fun s => ?_, fun c hc => ?_, ?_⟩
  · rw [hinsts, run_append, run_append]
    cases hP : run E P s with
    | error e => rfl
    | ok t =>
      rw [ok_bind, ok_bind, ← hnew]
      exact link_run hT hL hpairOk hsafe (hcur s t hP)
  · rcases List.mem_append.mp hc with hc | hc
    · exact hne c (List.mem_append_left _ hc)
    · rcases List.mem_cons.mp hc with rfl | hc
      · simp
      · exact hne c (List.mem_append_right _ (List.mem_cons_of_mem _ hc))
  · have hat : instsAt (pre ++ { b with insts := P ++ new :: B } :: post) pre.length =
      P ++ new :: B :=
      instsAt_middle
    rw [afterLink]
    simp only [hat, List.length_append, List.length_cons]
    cases B with
    | nil =>
      have hlast : pre.length + 1 < pre.length + (post.length + 1) := by
        rcases hend with hend | hend
        · simp at hend
        · simpa using hend
      obtain ⟨c, post, rfl⟩ := List.exists_cons_of_length_pos (show 0 < post.length by omega)
      rw [if_pos (by simp), if_pos hlast]
      refine ⟨_, rfl, ?_, ?_, fun hpassed => ?_⟩
      · rw [Place.Valid, instsAt, List.getElem?_append_right (by simp)]
        simp only [Nat.add_sub_cancel_left, List.getElem?_cons_succ, List.getElem?_cons_zero,
          Option.map_some, Option.getD_some]
        exact List.length_pos_iff.mpr (hne c (by simp))
      · rw [hremNext]
        simp only [List.length_nil] at hremA
        omega
      · obtain ⟨x, hx, -⟩ := hpassed
        rw [instAt, instsAt_middle, hinsts, List.getElem?_append_right (by simp; omega)] at hx
        simp [show P.length + 1 + 1 - P.length = 2 by omega] at hx
    | cons x B =>
      rw [if_neg (by simp)]
      refine ⟨_, rfl, ?_, ?_, fun hpassed => ?_⟩
      · rw [Place.Valid, hat]
        simp
      · rw [hremNew]
        simp only [List.length_cons] at hremA ⊢
        omega
      · obtain ⟨y, hy, hbarrier, hwrites⟩ := hpassed
        rw [instAt, instsAt_middle, hinsts, List.getElem?_append_right (by simp; omega)] at hy
        simp only [show P.length + 1 + 1 - P.length = 2 by omega, List.getElem?_cons_succ,
          List.getElem?_cons_zero, Option.some.injEq] at hy
        obtain rfl := hy
        intro s t ht
        have htake : (P ++ new :: x :: B).take (P.length + 1 + 1) = P ++ [new, x] := by
          rw [List.take_append, List.take_of_length_le (by omega)]
          simp [show P.length + 1 + 1 - P.length = 2 by omega]
        rw [hat, htake, ← hnew] at ht
        exact holds_passed hT hcur hpairOk.notZero.2 hbarrier hwrites ht

/-- Behind the first pair of a chain its register holds the address. -/
theorem holds_start (hL : Linked addr E) {p a : Place} {r : MCPhysReg} (hne : NoneEmpty bs)
    (hp : p.Valid bs) (ha : nextInst bs p = some a) (hok : StartOk w addr bs p a r cur base) :
    ChainHolds E bs a cur base := by
  obtain ⟨habb, hpair⟩ := hok
  obtain ⟨havalid, -, haii⟩ := nextInst_spec hne hp ha
  obtain ⟨pre, b, post, P, i, j, B, rfl, rfl, rfl, hinsts, hi, hj⟩ :=
    split_places havalid habb (haii habb)
  have hpairOk := hpair i hi j hj
  intro s t ht
  have htake : (P ++ i :: j :: B).take (P.length + 1 + 1) = P ++ [i, j] := by
    rw [List.take_append, List.take_of_length_le (by omega)]
    simp [show P.length + 1 + 1 - P.length = 2 by omega]
  rw [instsAt_middle, hinsts, htake, run_append] at ht
  cases hP : run E P s with
  | error e =>
    rw [hP, error_bind] at ht
    exact absurd ht (by simp)
  | ok u =>
    rw [hP, ok_bind, pair_run hL hpairOk] at ht
    obtain rfl := Except.ok.inj ht
    exact State.get_set_self _ _ hpairOk.notZero.2

theorem sameFunction_refl (bs : List BasicBlock) : SameFunction E bs bs := ⟨rfl, fun _ _ => rfl⟩

/-- **The loops**: they end, and what they leave runs as what they read. -/
theorem chainLoop_run (hT : Tabled I E)
    (hL : Linked addr E) {n : Nat} {known : Prop} {st : ChainState}
    (hclean : CleanFrom I w addr symbolValue n known st) (hinv : st.Inv E known)
    (hleft : st.left ≤ n) :
    ∃ outs, st.loop symbolValue n = some outs ∧ SameFunction E st.blocks outs := by
  induction n generalizing known st with
  | zero =>
    cases st with
    | scan bs p =>
      have := rem_pos hinv.2
      exact absurd hleft (by simp only [ChainState.left]; omega)
    | chain bs ch r cur base => exact absurd hleft (by simp [ChainState.left])
    | done bs => exact ⟨bs, rfl, sameFunction_refl bs⟩
  | succ n ih =>
    cases st with
    | done bs => exact ⟨bs, rfl, sameFunction_refl bs⟩
    | scan bs p =>
      obtain ⟨hne, hp⟩ := hinv
      rw [CleanFrom] at hclean
      show ∃ outs, ((ChainState.scan bs p).step symbolValue).bind (ChainState.loop symbolValue n) =
        some outs ∧ _
      rw [ChainState.step]
      simp only [ChainState.left] at hleft
      cases hturn : scanTurn symbolValue bs p with
      | none =>
        rw [hturn] at hclean
        exact hclean.elim
      | some turn =>
        rw [hturn] at hclean
        cases turn with
        | advance =>
          cases hnext : nextInst bs p with
          | none =>
            refine ⟨bs, ?_, sameFunction_refl bs⟩
            simp only [Option.map_some, Option.bind_some, Option.elim_none]
            cases n <;> rfl
          | some q =>
            obtain ⟨hq, hrem, -⟩ := nextInst_spec hne hp hnext
            simp only [Option.map_some, Option.bind_some, Option.elim_some]
            exact ih (hclean q hnext) ⟨hne, hq⟩ (by simp only [ChainState.left]; omega)
        | start a r cur base =>
          have ha := scanTurn_start hturn
          obtain ⟨havalid, hrem, -⟩ := nextInst_spec hne hp ha
          exact ih hclean ⟨hne, havalid, holds_start hL hne hp ha⟩
            (by simp only [ChainState.left]; omega)
    | chain bs ch r cur base =>
      obtain ⟨hne, hch, hholds⟩ := hinv
      rw [CleanFrom] at hclean
      show ∃ outs, ((ChainState.chain bs ch r cur base).step symbolValue).bind
        (ChainState.loop symbolValue n) = some outs ∧ _
      rw [ChainState.step]
      simp only [ChainState.left] at hleft
      cases hturn : chainTurn symbolValue bs ch r base with
      | none =>
        rw [hturn] at hclean
        exact hclean.elim
      | some turn =>
        rw [hturn] at hclean
        cases turn with
        | stop =>
          simp only [Option.bind_some, if_neg (Nat.ne_of_lt hch)]
          exact ih hclean ⟨hne, hch⟩ (by simp only [ChainState.left]; omega)
        | link l a next target =>
          obtain ⟨hknown, hok, hrest⟩ := hclean
          obtain ⟨hl, ha⟩ := chainTurn_link hturn
          obtain ⟨hsame, hne', ch', hafter, hvalid, hrem, hpassed⟩ :=
            link_spec hT hL hne hch hl ha (hholds hknown) hok
          simp only [Option.bind_some, hafter, Option.map_some]
          obtain ⟨outs, houts, hruns⟩ := ih (hrest ch' hafter) ⟨hne', hvalid, hpassed⟩
            (by simp only [ChainState.left]; omega)
          exact ⟨outs, houts, hsame.trans hruns⟩

/-- Where no block is empty and all links are as they should be. -/
def CleanChains (I : MCInstrInfo) (w : Nat) (addr : MCSymbol → Int)
    (symbolValue : MCSymbol → Option Int)
    (bs : List BasicBlock) : Prop :=
  NoneEmpty bs ∧ CleanFrom I w addr symbolValue (2 * (bs.map (·.insts.length)).sum + 1) False
    (.scan bs ⟨0, 0⟩)

/-- **The pass**: it returns, and every block of the function runs as it did, from every state. -/
theorem reuseAggressive_run (hT : Tabled I E) (hL : Linked addr E) {bs : List BasicBlock}
    (hclean : CleanChains I w addr symbolValue bs) :
    ∃ outs, reuseAggressive symbolValue bs = some outs ∧ SameFunction E bs outs := by
  obtain ⟨hne, hclean⟩ := hclean
  rw [reuseAggressive]
  split
  next hnil =>
    subst hnil
    exact ⟨[], rfl, sameFunction_refl []⟩
  next hcons =>
    obtain ⟨b, rest, rfl⟩ := List.exists_cons_of_ne_nil hcons
    refine chainLoop_run hT hL hclean ⟨hne, ?_⟩ ?_
    · exact List.length_pos_iff.mpr (hne b List.mem_cons_self)
    · exact Nat.le_succ_of_le (Nat.le_refl _)

end Loops

/-! ## Two chains -/

/-- `lui r, %hi(s)` and `addi d, r, %lo(s)`. -/
def addressPair (r d : MCPhysReg) (s : MCSymbol) : List MCInst :=
  [⟨.lui, [.reg r, .expr (.target vkHi (.symbolRef 0 s))], false⟩,
    ⟨.addi, [.reg d, .reg r, .expr (.target vkLo (.symbolRef 0 s))], false⟩]

/-- Two addresses, the second in `d`, and a store of `a0`. -/
def twoAddresses (d : MCPhysReg) : BasicBlock :=
  ⟨0, addressPair (gpr 10) (gpr 11) 1 ++ addressPair (gpr 10) d 2 ++
    [⟨.sw, [.reg (gpr 10), .reg (gpr 13), .imm 0], false⟩], [], []⟩

/-- Addresses with different high parts, 32 apart. -/
def aroundHalf (s : MCSymbol) : Int := if s = 1 then 0x107f0 else 0x10810

theorem addressPair_ok (r d : MCPhysReg) (s : MCSymbol) (hr : ¬ r ≤ gpr 0) (hd : ¬ d ≤ gpr 0) :
    ∀ i ∈ (addressPair r d s).head?, ∀ j ∈ (addressPair r d s)[1]?,
      PairOk 32 aroundHalf i j r d (aroundHalf s) := by
  intro i hi j hj
  obtain rfl := Option.some.inj hi
  obtain rfl := Option.some.inj hj
  exact ⟨rfl, rfl, ⟨_, _, rfl, rfl⟩, ⟨_, _, _, rfl, rfl⟩, .inl rfl, hr, hd⟩

theorem twoAddresses_clean :
    CleanChains noOthers 32 aroundHalf (fun s => some (aroundHalf s)) [twoAddresses (gpr 10)] := by
  refine ⟨fun b hb => ?_, ?_⟩
  · rw [List.mem_singleton.mp hb]
    exact List.cons_ne_nil _ _
  · have hstart : scanTurn (fun s => some (aroundHalf s)) [twoAddresses (gpr 10)] ⟨0, 0⟩ =
        some (.start ⟨0, 1⟩ (gpr 10) (gpr 11) 0x107f0) := by decide
    have hlink : chainTurn (fun s => some (aroundHalf s)) [twoAddresses (gpr 10)] ⟨0, 1⟩
      (gpr 10) 0x107f0 =
        some (.link ⟨0, 2⟩ ⟨0, 3⟩ (gpr 10) 0x10810) := by decide
    have hfirst := addressPair_ok (gpr 10) (gpr 11) 1 (by decide) (by decide)
    have hsecond := addressPair_ok (gpr 10) (gpr 10) 2 (by decide) (by decide)
    show CleanFrom noOthers 32 aroundHalf (fun s => some (aroundHalf s)) 11 False
      (.scan [twoAddresses (gpr 10)] ⟨0, 0⟩)
    rw [CleanFrom, hstart]
    show CleanFrom noOthers 32 aroundHalf (fun s => some (aroundHalf s)) 10 _
      (.chain [twoAddresses (gpr 10)] ⟨0, 1⟩ (gpr 10) (gpr 11) 0x107f0)
    rw [CleanFrom, hlink]
    refine ⟨⟨rfl, hfirst⟩, ⟨rfl, rfl, hsecond, .inl rfl, .inl (by decide)⟩, fun ch' hch' => ?_⟩
    obtain rfl : (⟨0, 3⟩ : Place) = ch' := Option.some.inj hch'
    generalize hafter : relink [twoAddresses (gpr 10)] ⟨0, 2⟩ ⟨0, 3⟩
      (makeADDI (gpr 10) (gpr 11) (0x10810 - 0x107f0)) = bs
    have hstop : chainTurn (fun s => some (aroundHalf s)) bs ⟨0, 3⟩ (gpr 10) 0x10810 =
      some .stop := by
      subst hafter
      decide
    have hadvance : scanTurn (fun s => some (aroundHalf s)) bs ⟨0, 3⟩ = some .advance := by
      subst hafter
      decide
    have hend : nextInst bs ⟨0, 3⟩ = none := by
      subst hafter
      decide
    rw [CleanFrom, hstop]
    show CleanFrom noOthers 32 aroundHalf (fun s => some (aroundHalf s)) 8 False (.scan bs ⟨0, 3⟩)
    rw [CleanFrom, hadvance]
    intro q hq
    rw [hend] at hq
    exact absurd hq (by simp)

theorem reuseAggressive_twoAddresses :
    ∃ outs, reuseAggressive (fun s => some (aroundHalf s)) [twoAddresses (gpr 10)] = some outs ∧
      SameFunction (zeroingOthers noOthers aroundHalf) [twoAddresses (gpr 10)] outs :=
  reuseAggressive_run (zeroingOthers_tabled _ _) (zeroingOthers_linked _ _) twoAddresses_clean

/-- The high part of the second address is stored behind its `addi`, and its `lui` is gone. -/
theorem not_reused_storedHigh :
    ∃ out, reuseAggressive (fun s => some (aroundHalf s)) [twoAddresses (gpr 12)] = some [out] ∧
      ∃ s, run (zeroingOthers noOthers aroundHalf) out.insts s ≠
        run (zeroingOthers noOthers aroundHalf) (twoAddresses (gpr 12)).insts s := by
  refine ⟨_, rfl, ⟨fun _ => 0, fun _ => 0⟩, fun heq => ?_⟩
  have hread := congrArg (fun r => r.toOption.map (·.get (gpr 10))) heq
  revert hread
  decide

end RvLlvm.Bolt
