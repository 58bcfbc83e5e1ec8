import Mathlib.Data.List.Forall2
import RvLlvm.Bolt.ConstLUISound
import RvLlvm.Bolt.GPRelax

/-!
# What the pass over the global pointer leaves

* `CleanGP`: each `lui` that is deleted stands where `x3` holds the global pointer, its high part is
  that of the addresses used, and its register is set before control may leave.
* `gpRelaxFunction_run`: then every block does what it did, from every state in which it is entered,
  and nothing is changed where `x3` does not hold the pointer yet.
-/

namespace RvLlvm.Bolt

/-! ## Sinks -/

section Sinks

/-- What the tables say of sinks. -/
theorem gpOpcode_tables (I : MCInstrInfo) {op : Opcode} (h : isGPOpcode op = true) :
    IsSum op ∧ (I.get op).implicitDefs = [] ∧ isBarrierDesc (I.get op) = false ∧ op ≠ .jal ∧
      op ≠ .jalr ∧
      ((I.get op).numDefs = 0 ∧ isSFormatOpcode op = true ∧ isIFormatGPOpcode op = false ∨
        (I.get op).numDefs = 1 ∧ isSFormatOpcode op = false ∧ isIFormatGPOpcode op = true) := by
  cases op <;> simp [isGPOpcode, isIFormatGPOpcode, isIFormatOpcode, isSFormatOpcode] at h <;>
    simp [IsSum, loadKind, storeSize, isFloatAccess, MCInstrInfo.get, isBarrierDesc,
      isSFormatOpcode, isIFormatGPOpcode, isIFormatOpcode]

theorem not_lui_of_gpOpcode {op : Opcode} (h : isGPOpcode op = true) : op ≠ .lui := by
  rintro rfl
  exact absurd h (by decide)

theorem isLUISink_operands {r : MCPhysReg} {i : MCInst} (h : isLUISink r i = true) :
    isGPOpcode i.opcode = true ∧ ∃ first o rest, i.operands = first :: .reg r :: o :: rest := by
  rw [isLUISink, Bool.and_eq_true] at h
  obtain ⟨hop, h⟩ := h
  split at h
  next first b o rest hops =>
    rw [Bool.and_eq_true, beq_iff_eq] at h
    exact ⟨hop, first, o, rest, by rw [hops, h.1]⟩
  · exact absurd h Bool.false_ne_true

variable {w : Nat} {E : Env w}

theorem exec_gpSink {i : MCInst}
    (hop : isGPOpcode i.opcode = true) {r b : MCPhysReg} {o : MCOperand}
    {rest : List MCOperand} (hops : i.operands = .reg r :: .reg b :: o :: rest) (s : State w) :
    exec E i s =
      (E.imm o).elim (E.other i s) fun v => execSum E i r (s.get b + BitVec.ofInt w v) s := by
  rw [exec, hops]
  generalize hx : i.opcode = op at hop
  cases op <;> simp [isGPOpcode, isIFormatGPOpcode, isIFormatOpcode, isSFormatOpcode] at hop <;> rfl

theorem relaxSink_eq {gp : Int} {symbolValue : MCSymbol → Option Int} {symbol : MCSymbol}
    {i new : MCInst}
    (h : relaxSink gp symbolValue symbol i = some new) :
    ∃ o lo value, i.operands[2]? = some o ∧ getRISCVExprSymbolAddend vkLo o = some (symbol, lo) ∧
      symbolValue symbol = some value ∧ new = makeGPRelaxedInst i (value + lo - gp) := by
  rw [relaxSink] at h
  obtain ⟨lo, hlo, h⟩ := Option.bind_eq_some_iff.mp h
  obtain ⟨o, ho, hlo⟩ := Option.bind_eq_some_iff.mp hlo
  split at h
  next hsymbol =>
    obtain ⟨value, hvalue, h⟩ := Option.bind_eq_some_iff.mp h
    split at h
    · refine ⟨o, lo.2, value, ho, by rw [hlo, hsymbol], by rw [hsymbol, hvalue], ?_⟩
      exact (Option.some.inj h).symm
    · exact absurd h (by simp)
  · exact absurd h (by simp)

/-- `definesReg` says of sinks what the tables say. -/
theorem definesReg_eq (I : MCInstrInfo) {r q : MCPhysReg} {i : MCInst} (h : isLUISink q i = true) :
    definesReg i r = writesReg I i r := by
  obtain ⟨hop, first, o, rest, hops⟩ := isLUISink_operands h
  obtain ⟨-, himplicit, -, -, -, htables⟩ := gpOpcode_tables I hop
  rw [definesReg, writesReg, himplicit, hops]
  rcases htables with ⟨hdefs, -, hi⟩ | ⟨hdefs, -, hi⟩
  · rw [hi, hdefs]
    rfl
  · rw [hi, hdefs]
    by_cases hfirst : first = .reg r
    · simp [hfirst]
    · simp [hfirst, Ne.symm hfirst]

end Sinks

/-! ## Chains -/

section Chains

variable {I : MCInstrInfo} {w : Nat} {E : Env w} {addr : MCSymbol → Int} {gp : Int}
  {symbolValue : MCSymbol → Option Int}

/-- `%hi`. -/
def highPart (x : Int) : Int := (x + 0x800) / 2 ^ 12 % 2 ^ 20

/-- The instruction leaves `x3` as it is. -/
def keepsGP (I : MCInstrInfo) (i : MCInst) : Bool := !isLUIBarrier I i && !writesReg I i (gpr 3)

/-- `x3` holds the pointer at each of the sinks; `known` says so of the first. -/
def gpHeld (I : MCInstrInfo) : Bool → List MCInst → Bool
  | _, [] => true
  | known, i :: rest => known && gpHeld I (known && keepsGP I i) rest

/-- The address that a sink uses: its symbol keeps its address, which has the high part of the
`lui`. A sink sets or stores a register, and names one symbol. -/
def SinkOk (w : Nat) (addr : MCSymbol → Int) (symbolValue : MCSymbol → Option Int)
    (hi : MCSymbol × Int)
    (i : MCInst) : Prop :=
  (∃ r, i.operands.head? = some (.reg r)) ∧ OneSymbol i ∧ symbolValue hi.1 = some (addr hi.1) ∧
    ∀ o lo, i.operands[2]? = some o → getRISCVExprSymbolAddend vkLo o = some (hi.1, lo) →
      highPart (addr hi.1 + hi.2) = highPart (addr hi.1 + lo) ∧ Fits w (addr hi.1 + lo + 0x800)

/-- Registers that are set before they are used, but for `r`. -/
def DeadBut (I : MCInstrInfo) (r : MCPhysReg) (dead : List MCPhysReg) (rest : List MCInst) : Prop :=
  ∀ q ∈ dead, ¬ q ≤ gpr 0 ∧ (q = r ∨ redefinedSafely I q rest = true)

variable {rest : List MCInst}

theorem DeadBut.step {r : MCPhysReg} {dead : List MCPhysReg} {i : MCInst}
    (h : DeadBut I r dead (i :: rest)) :
    DeadBut I r (dead.filter fun q => !writesReg I i q) rest := by
  intro q hq
  obtain ⟨hq, hw⟩ := List.mem_filter.mp hq
  rw [Bool.not_eq_true'] at hw
  exact ⟨(h q hq).1, (h q hq).2.imp_right fun hsafe => (redefinedSafely_cons hsafe).2.2 hw⟩

/-- **One sink**: it uses the same address, and agrees behind. -/
theorem sink_sim (hT : Tabled I E) (hL : Linked addr E) {r : MCPhysReg} {hi : MCSymbol × Int}
    {dead : List MCPhysReg} {i new : MCInst} (hsink : isLUISink r i = true)
    (hstore : (isSFormatOpcode i.opcode && i.operands.head? == some (.reg r)) = false)
    (hnew : relaxSink gp symbolValue hi.1 i = some new) (hok : SinkOk w addr symbolValue hi i)
    (hdead : DeadBut I r dead (i :: rest)) {so sn : State w} (hagree : AgreeOff dead so sn)
    (hlui : so.get r = luiValue w (highPart (addr hi.1 + hi.2)))
    (hgp : sn.get (gpr 3) = BitVec.ofInt w gp) :
    ∃ so' sn', exec E i so = .ok so' ∧ exec E new sn = .ok sn' ∧
      AgreeOff (dead.filter fun q => !writesReg I i q) so' sn' ∧
      (writesReg I i r = false → so'.get r = so.get r) ∧
      (keepsGP I i = true → sn'.get (gpr 3) = BitVec.ofInt w gp) := by
  obtain ⟨hop, first, o, tail, hops⟩ := isLUISink_operands hsink
  obtain ⟨hsum, himplicit, hbarrier, hjal, hjalr, htables⟩ := gpOpcode_tables I hop
  obtain ⟨⟨rd, hfirst⟩, hone, hvalue, haddress⟩ := hok
  obtain ⟨o', lo, value, ho', hlo, hvalue', rfl⟩ := relaxSink_eq hnew
  obtain rfl : o = o' := by simpa [hops] using ho'
  obtain rfl : first = .reg rd := by simpa [hops] using hfirst
  obtain rfl : value = addr hi.1 := Option.some.inj (hvalue'.symm.trans hvalue)
  obtain ⟨hhigh, hfits⟩ := haddress o lo ho' hlo
  obtain ⟨e, rfl, heval⟩ := getRISCVExprSymbolAddend_eval addr hlo
  have haddr : e.eval addr = addr hi.1 + lo := heval (hone vkLo e (by rw [hops]; simp) (.inr rfl))
  have hold : exec E i so = execSum E i rd (BitVec.ofInt w (addr hi.1 + lo)) so := by
    rw [exec_gpSink hop hops]
    show execSum E i rd (so.get r + BitVec.ofInt w (E.value (.target vkLo e))) so = _
    rw [hL.lo, haddr, hlui, hhigh, highPart, hi_add_lo hfits]
  have hnewOps : (makeGPRelaxedInst i (addr hi.1 + lo - gp)).operands =
      .reg rd :: .reg (gpr 3) :: .imm (addr hi.1 + lo - gp) :: tail := by
    rw [makeGPRelaxedInst, hops]
    rfl
  have hrun : exec E (makeGPRelaxedInst i (addr hi.1 + lo - gp)) sn =
      execSum E i rd (BitVec.ofInt w (addr hi.1 + lo)) sn := by
    rw [exec_gpSink (i := makeGPRelaxedInst i (addr hi.1 + lo - gp)) hop hnewOps]
    show execSum E (makeGPRelaxedInst i (addr hi.1 + lo - gp)) rd
      (sn.get (gpr 3) + BitVec.ofInt w (addr hi.1 + lo - gp)) sn = _
    rw [hgp, ← BitVec.ofInt_add, add_sub_cancel]
    exact execSum_congr (i := makeGPRelaxedInst i (addr hi.1 + lo - gp)) (j := i) rfl hsum _ _ _
  have hnobar : isLUIBarrier I i = false := by
    rw [isLUIBarrier, hbarrier, beq_eq_false_iff_ne.mpr hjal, beq_eq_false_iff_ne.mpr hjalr]
    rfl
  have hstored : (I.get i.opcode).numDefs = 0 → rd ∉ dead := by
    intro hzero hmem
    have hread : readsReg I i rd = true := readsReg_of_mem (by rw [hzero, hops]; simp)
    rcases (hdead rd hmem).2 with heq | hsafe
    · rcases htables with ⟨-, hs, -⟩ | ⟨hdefs, -, -⟩
      · rw [hs, hops, heq] at hstore
        simp at hstore
      · rw [hzero] at hdefs
        exact absurd hdefs (by decide)
    · exact absurd (hread.symm.trans (redefinedSafely_cons hsafe).2.1) (by simp)
  obtain ⟨so', sn', hso, hsn, hbehind⟩ :=
    execSum_agree hT hagree (fun q hq => (hdead q hq).1) hops hsum hstored
      (BitVec.ofInt w (addr hi.1 + lo))
  refine ⟨so', sn', hold.trans hso, hrun.trans hsn, hbehind, fun hw => ?_, fun hkeeps => ?_⟩
  · exact execSum_frame hT hops _ hnobar hso r hw
  · rw [keepsGP, Bool.and_eq_true, Bool.not_eq_true', Bool.not_eq_true'] at hkeeps
    exact (execSum_frame hT hops _ hnobar hsn _ hkeeps.2).trans hgp

theorem scanSinks_split {r : MCPhysReg} {symbol : MCSymbol} {scan : SinkScan}
    (h : scanSinks gp symbolValue r symbol rest = some scan) :
    scan.relaxed.length ≤ rest.length ∧ rest.drop scan.relaxed.length = scan.rest := by
  induction rest generalizing scan with
  | nil =>
    obtain rfl := Option.some.inj h
    exact ⟨Nat.le_refl _, rfl⟩
  | cons i rest ih =>
    rw [scanSinks] at h
    split at h
    · obtain rfl := Option.some.inj h
      exact ⟨Nat.zero_le _, rfl⟩
    · split at h
      · exact absurd h (by simp)
      · split at h
        · obtain rfl := Option.some.inj h
          exact ⟨Nat.zero_le _, rfl⟩
        · split at h
          · obtain rfl := Option.some.inj h
            exact ⟨Nat.succ_le_succ (Nat.zero_le _), rfl⟩
          · obtain ⟨scan', hscan, rfl⟩ := Option.map_eq_some_iff.mp h
            exact ⟨Nat.succ_le_succ (ih hscan).1, (ih hscan).2⟩

/-- **The sinks of a `lui`**: behind them the states agree off the registers that are not set. -/
theorem chain_sim (hT : Tabled I E) (hL : Linked addr E) {r : MCPhysReg} {hi : MCSymbol × Int}
    {scan : SinkScan} (hscan : scanSinks gp symbolValue r hi.1 rest = some scan) {known : Bool}
    {dead : List MCPhysReg} (hheld : gpHeld I known (rest.take scan.relaxed.length) = true)
    (hok : ∀ i ∈ rest.take scan.relaxed.length, SinkOk w addr symbolValue hi i)
    (hdead : DeadBut I r dead rest) :
    ∃ dead', DeadBut I r dead' scan.rest ∧ (scan.kills = true → r ∉ dead') ∧
      ∀ so sn : State w, AgreeOff dead so sn → so.get r = luiValue w (highPart (addr hi.1 + hi.2)) →
        (known = true → sn.get (gpr 3) = BitVec.ofInt w gp) →
        ∃ so' sn', run E (rest.take scan.relaxed.length) so = .ok so' ∧
          run E scan.relaxed sn = .ok sn' ∧
          AgreeOff dead' so' sn' ∧
          ((known && (rest.take scan.relaxed.length).all (keepsGP I)) = true →
            sn'.get (gpr 3) = BitVec.ofInt w gp) := by
  have hstop : ∀ {rest : List MCInst} {known : Bool} {dead : List MCPhysReg},
    DeadBut I r dead rest →
      ∃ dead', DeadBut I r dead' rest ∧ (false = true → r ∉ dead') ∧
        ∀ so sn : State w, AgreeOff dead so sn →
          so.get r = luiValue w (highPart (addr hi.1 + hi.2)) →
          (known = true → sn.get (gpr 3) = BitVec.ofInt w gp) →
          ∃ so' sn', run E (rest.take 0) so = .ok so' ∧ run E [] sn = .ok sn' ∧
            AgreeOff dead' so' sn' ∧
            ((known && (rest.take 0).all (keepsGP I)) = true →
              sn'.get (gpr 3) = BitVec.ofInt w gp) :=
    fun {_ _ dead} h => ⟨dead, h, fun hx => absurd hx Bool.false_ne_true, fun so sn hagree _ hgp =>
      ⟨so, sn, rfl, rfl, hagree, fun hall => hgp (Bool.and_eq_true_iff.mp hall).1⟩⟩
  induction rest generalizing scan known dead with
  | nil =>
    obtain rfl := Option.some.inj hscan
    exact hstop hdead
  | cons i rest ih =>
    rw [scanSinks] at hscan
    split at hscan
    · obtain rfl := Option.some.inj hscan
      exact hstop hdead
    next hsink =>
      rw [Bool.not_eq_true', Bool.not_eq_false] at hsink
      split at hscan
      · exact absurd hscan (by simp)
      next hstore =>
        rw [Bool.not_eq_true] at hstore
        split at hscan
        · obtain rfl := Option.some.inj hscan
          exact hstop hdead
        next new hnew =>
          have hone : scan.relaxed ≠ [] → known = true ∧ SinkOk w addr symbolValue hi i := by
            intro hne
            obtain ⟨x, xs, hx⟩ := List.exists_cons_of_ne_nil hne
            rw [hx, List.length_cons, List.take_succ_cons] at hheld hok
            rw [gpHeld, Bool.and_eq_true] at hheld
            exact ⟨hheld.1, hok i List.mem_cons_self⟩
          split at hscan
          next hdefines =>
            obtain rfl := Option.some.inj hscan
            obtain ⟨hknown, hsinkOk⟩ := hone (by simp)
            refine ⟨_, hdead.step, fun _ hr => ?_, fun so sn hagree hlui hgp => ?_⟩
            · rw [definesReg_eq I hsink] at hdefines
              have hw := (List.mem_filter.mp hr).2
              rw [hdefines] at hw
              exact absurd hw (by simp)
            · obtain ⟨so', sn', hso, hsn, hagree', -, hgp'⟩ :=
                sink_sim hT hL hsink hstore hnew hsinkOk hdead hagree hlui (hgp hknown)
              refine ⟨so', sn', (run_singleton ..).trans hso, (run_singleton ..).trans hsn,
                hagree', ?_⟩
              intro hall
              refine hgp' ?_
              simpa using (Bool.and_eq_true_iff.mp hall).2
          next hdefines =>
            rw [Bool.not_eq_true, definesReg_eq I hsink] at hdefines
            obtain ⟨scan', hscan', rfl⟩ := Option.map_eq_some_iff.mp hscan
            obtain ⟨hknown, hsinkOk⟩ := hone (by simp)
            simp only [List.length_cons, List.take_succ_cons] at hheld hok ⊢
            rw [gpHeld, Bool.and_eq_true] at hheld
            obtain ⟨dead', hdead', hkills, hsim⟩ := ih hscan' hheld.2
              (fun j hj => hok j (List.mem_cons_of_mem _ hj)) hdead.step
            refine ⟨dead', hdead', hkills, fun so sn hagree hlui hgp => ?_⟩
            obtain ⟨so₁, sn₁, hso₁, hsn₁, hagree₁, hkept, hgp₁⟩ :=
              sink_sim hT hL hsink hstore hnew hsinkOk hdead hagree hlui (hgp hknown)
            obtain ⟨so₂, sn₂, hso₂, hsn₂, hagree₂, hgp₂⟩ := hsim so₁ sn₁ hagree₁
              ((hkept hdefines).trans hlui) fun hk => hgp₁ (Bool.and_eq_true_iff.mp hk).2
            refine ⟨so₂, sn₂, ?_, ?_, hagree₂, fun hall => hgp₂ ?_⟩
            · rw [← List.singleton_append, run_append, run_singleton, hso₁, ok_bind, hso₂]
            · rw [← List.singleton_append, run_append, run_singleton, hsn₁, ok_bind, hsn₂]
            · rwa [List.all_cons, ← Bool.and_assoc] at hall

end Chains

/-! ## Blocks -/

section Blocks

variable {I : MCInstrInfo} {w : Nat} {E : Env w} {addr : MCSymbol → Int} {gp : Int}
  {symbolValue : MCSymbol → Option Int}

/-- The condition on a `lui` that is deleted: `x3` holds the pointer, the register is another one,
and it is set before control may leave. -/
structure ChainOk (I : MCInstrInfo) (w : Nat) (addr : MCSymbol → Int)
    (symbolValue : MCSymbol → Option Int) (known : Bool) (i : MCInst) (rest : List MCInst)
    (c : GPChain) : Prop where
  oneSymbol : OneSymbol i
  reg : ¬ c.reg ≤ gpr 0
  notGP : c.reg ≠ gpr 3
  held : gpHeld I known (rest.take c.scan.relaxed.length) = true
  sinks : ∀ j ∈ rest.take c.scan.relaxed.length, SinkOk w addr symbolValue c.hi j
  safe : c.scan.kills = true ∨ redefinedSafely I c.reg c.scan.rest = true

/-- Every `lui` that is deleted may be; `known` says that `x3` holds the pointer. -/
def CleanGP (I : MCInstrInfo) (w : Nat) (addr : MCSymbol → Int) (gp : Int)
    (symbolValue : MCSymbol → Option Int) : Nat → Bool → List MCInst → Prop
  | n + 1, known, i :: rest =>
    match findChain I gp symbolValue i rest with
    | some c => ChainOk I w addr symbolValue known i rest c ∧
        CleanGP I w addr gp symbolValue n
          (known && (rest.take c.scan.relaxed.length).all (keepsGP I)) c.scan.rest
    | none => CleanGP I w addr gp symbolValue n (known && keepsGP I i) rest
  | _, _, _ => True

theorem findChain_eq {i : MCInst} {rest : List MCInst} {c : GPChain}
    (h : findChain I gp symbolValue i rest = some c) :
    i.opcode = .lui ∧ (∃ o tail, i.operands = .reg c.reg :: o :: tail ∧
      getRISCVExprSymbolAddend vkHi o = some c.hi) ∧
      scanSinks gp symbolValue c.reg c.hi.1 rest = some c.scan := by
  unfold findChain at h
  split at h
  next r o tail hop hops =>
    obtain ⟨hi, hhi, h⟩ := Option.bind_eq_some_iff.mp h
    obtain ⟨scan, hscan, h⟩ := Option.bind_eq_some_iff.mp h
    split at h
    · exact absurd h (by simp)
    · obtain rfl := Option.some.inj h
      exact ⟨hop, ⟨o, tail, hops, hhi⟩, hscan⟩
  · exact absurd h (by simp)

theorem relaxed_not_lui {r : MCPhysReg} {symbol : MCSymbol} {rest : List MCInst} {scan : SinkScan}
    (h : scanSinks gp symbolValue r symbol rest = some scan) : ∀ i ∈ scan.relaxed,
    i.opcode ≠ .lui := by
  induction rest generalizing scan with
  | nil =>
    obtain rfl := Option.some.inj h
    exact fun i hi => absurd hi List.not_mem_nil
  | cons i rest ih =>
    rw [scanSinks] at h
    split at h
    · obtain rfl := Option.some.inj h
      exact fun i hi => absurd hi List.not_mem_nil
    next hsink =>
      rw [Bool.not_eq_true', Bool.not_eq_false] at hsink
      have hnew : ∀ new, relaxSink gp symbolValue symbol i = some new → new.opcode ≠ .lui := by
        intro new hnew
        obtain ⟨_, _, _, -, -, -, rfl⟩ := relaxSink_eq hnew
        exact not_lui_of_gpOpcode (isLUISink_operands hsink).1
      split at h
      · exact absurd h (by simp)
      · split at h
        · obtain rfl := Option.some.inj h
          exact fun i hi => absurd hi List.not_mem_nil
        next new hrelaxed =>
          split at h
          · obtain rfl := Option.some.inj h
            exact fun j hj => List.mem_singleton.mp hj ▸ hnew new hrelaxed
          · obtain ⟨scan', hscan', rfl⟩ := Option.map_eq_some_iff.mp h
            intro j hj
            rcases List.mem_cons.mp hj with rfl | hj
            · exact hnew j hrelaxed
            · exact ih hscan' j hj

/-- A larger count changes nothing. -/
theorem gpRelax_count {n m : Nat} {insts : List MCInst} (hn : insts.length ≤ n)
    (hm : insts.length ≤ m) :
    gpRelax I gp symbolValue n insts = gpRelax I gp symbolValue m insts := by
  induction n generalizing m insts with
  | zero =>
    obtain rfl := List.length_eq_zero_iff.mp (Nat.le_zero.mp hn)
    cases m <;> rfl
  | succ n ih =>
    cases insts with
    | nil => cases m <;> rfl
    | cons i rest =>
      obtain ⟨m, rfl⟩ : ∃ m', m = m' + 1 := ⟨m - 1, by rw [List.length_cons] at hm; omega⟩
      rw [List.length_cons] at hn hm
      rw [gpRelax, gpRelax]
      cases hc : findChain I gp symbolValue i rest with
      | none => exact congrArg (i :: ·) (ih (by omega) (by omega))
      | some c =>
        obtain ⟨hle, hdrop⟩ := scanSinks_split (findChain_eq hc).2.2
        have hlength : (c.scan.relaxed ++ c.scan.rest).length = rest.length := by
          rw [List.length_append, ← hdrop, List.length_drop]
          omega
        exact ih (by omega) (by omega)

/-- The loop passes over the sinks. -/
theorem gpRelax_append {n : Nat} {news rest : List MCInst} (hnews : ∀ i ∈ news, i.opcode ≠ .lui)
    (hn : (news ++ rest).length ≤ n) :
    gpRelax I gp symbolValue n (news ++ rest) = news ++ gpRelax I gp symbolValue n rest := by
  induction news generalizing n with
  | nil => rfl
  | cons i news ih =>
    obtain ⟨n, rfl⟩ : ∃ n', n = n' + 1 := ⟨n - 1, by simp at hn; omega⟩
    have hnone : findChain I gp symbolValue i (news ++ rest) = none := by
      unfold findChain
      split
      next hop _ => exact absurd hop (hnews i List.mem_cons_self)
      · rfl
    simp only [List.cons_append, List.length_cons, List.length_append] at hn ⊢
    rw [gpRelax, hnone]
    simp only [List.cons.injEq, true_and]
    rw [ih (fun j hj => hnews j (List.mem_cons_of_mem _ hj)) (by rw [List.length_append]; omega)]
    exact congrArg (news ++ ·) (gpRelax_count (by omega) (by omega))

/-- **A block**: what the pass leaves of it comes to the same states. -/
theorem gpRelax_run (hT : Tabled I E)
    (hL : Linked addr E) {n : Nat} {known : Bool} {insts : List MCInst}
    (hn : insts.length ≤ n) (hclean : CleanGP I w addr gp symbolValue n known insts)
    {dead : List MCPhysReg} (hdead : DeadOk I dead insts) {so sn : State w}
    (hagree : AgreeOff dead so sn)
    (hgp : known = true → sn.get (gpr 3) = BitVec.ofInt w gp) :
    run E (gpRelax I gp symbolValue n insts) sn = run E insts so := by
  induction n using Nat.strong_induction_on generalizing known insts dead so sn with
  | _ n ih =>
  cases insts with
  | nil =>
    obtain rfl := hdead.nil
    rw [hagree.eq]
    cases n <;> rfl
  | cons i rest =>
    obtain ⟨n, rfl⟩ : ∃ n', n = n' + 1 := ⟨n - 1, by rw [List.length_cons] at hn; omega⟩
    rw [List.length_cons] at hn
    rw [gpRelax]
    rw [CleanGP] at hclean
    cases hc : findChain I gp symbolValue i rest with
    | none =>
      rw [hc] at hclean
      have hcons : ∀ (l : List MCInst) s, run E (i :: l) s = (exec E i s).bind (run E l) :=
        fun l s => by
        rw [← List.singleton_append, run_append, run_singleton]
      simp only [hcons]
      rcases same_step hT hdead hagree with ⟨so', sn', hso, hsn, hagree'⟩ | ⟨e, hso, hsn⟩
      · rw [hso, hsn, ok_bind, ok_bind]
        refine ih n (Nat.lt_succ_self n) (by omega) hclean hdead.step hagree' fun hk => ?_
        rw [Bool.and_eq_true, keepsGP, Bool.and_eq_true, Bool.not_eq_true', Bool.not_eq_true'] at hk
        exact (exec_defs hT hk.2.1 hsn _ hk.2.2).trans (hgp hk.1)
      · rw [hso, hsn]
        rfl
    | some c =>
      rw [hc] at hclean
      obtain ⟨hok, hrest⟩ := hclean
      obtain ⟨hop, ⟨o, tail, hops, hhi⟩, hscan⟩ := findChain_eq hc
      obtain ⟨hle, hdrop⟩ := scanSinks_split hscan
      obtain ⟨e, rfl, heval⟩ := getRISCVExprSymbolAddend_eval addr hhi
      have hlui : ∀ s : State w, exec E i s =
          .ok (s.set c.reg (luiValue w (highPart (addr c.hi.1 + c.hi.2)))) := by
        intro s
        have haddr := heval (hok.oneSymbol vkHi e (by rw [hops]; simp) (.inl rfl))
        rw [exec, hop, hops]
        show Except.ok (s.set c.reg (luiValue w (E.value (.target vkHi e)))) = _
        rw [hL.hi, haddr, highPart]
      have hbut : DeadBut I c.reg (c.reg :: dead) rest := by
        intro q hq
        rcases List.mem_cons.mp hq with rfl | hq
        · exact ⟨hok.reg, .inl rfl⟩
        · refine ⟨(hdead q hq).1, Classical.or_iff_not_imp_left.mpr fun hne => ?_⟩
          refine (redefinedSafely_cons (hdead q hq).2).2.2 ?_
          rw [writesReg_first hops (by rw [hop]; rfl) (by rw [hop]; rfl)]
          exact decide_eq_false hne
      obtain ⟨dead', hdead', hkills, hsim⟩ := chain_sim hT hL hscan hok.held hok.sinks hbut
      obtain ⟨so', sn', hso, hsn, hagree', hgp'⟩ :=
        hsim (so.set c.reg _) sn (hagree.set_left c.reg _)
        (State.get_set_self so _ hok.reg) hgp
      have hafter : DeadOk I dead' c.scan.rest := by
        intro q hq
        refine ⟨(hdead' q hq).1, (hdead' q hq).2.elim (fun heq => ?_) id⟩
        rcases hok.safe with hk | hsafe
        · exact absurd (heq ▸ hq) (hkills hk)
        · rwa [heq]
      have hlength : (c.scan.relaxed ++ c.scan.rest).length = rest.length := by
        rw [List.length_append, ← hdrop, List.length_drop]
        omega
      have hshort : c.scan.rest.length ≤ n := by
        rw [List.length_append] at hlength
        omega
      simp only
      rw [gpRelax_append (relaxed_not_lui hscan) (by omega), run_append, hsn, ok_bind,
        show i :: rest = [i] ++ (rest.take c.scan.relaxed.length ++
          rest.drop c.scan.relaxed.length) by
          rw [List.take_append_drop]; rfl,
        run_append, run_singleton, hlui, ok_bind, run_append, hso, ok_bind, hdrop]
      exact ih n (Nat.lt_succ_self n) hshort hrest hafter hagree' hgp'

end Blocks

/-- **Every block does what it did**, from every state in which `x3` holds the pointer where the
block relies on it; where it does not hold it yet, from every state. -/
theorem gpRelaxFunction_run {I : MCInstrInfo} {w : Nat} {E : Env w} {addr : MCSymbol → Int}
    (hT : Tabled I E) (hL : Linked addr E) {data : List BinaryData}
    {symbolValue : MCSymbol → Option Int}
    {holds : MCSymbol → Bool} {blocks : List BasicBlock}
    (hclean : ∀ gp ∈ getGlobalPointerData data, ∀ b ∈ blocks,
      CleanGP I w addr gp.address symbolValue b.insts.length (holds b.label) b.insts) :
    List.Forall₂ (fun b out => out.label = b.label ∧ ∀ s : State w,
        (holds b.label = true →
          ∀ gp ∈ getGlobalPointerData data, s.get (gpr 3) = BitVec.ofInt w gp.address) →
        run E out.insts s = run E b.insts s)
      blocks (gpRelaxFunction I data symbolValue blocks) := by
  rw [gpRelaxFunction]
  cases hgp : getGlobalPointerData data with
  | none => exact List.forall₂_same.mpr fun b _ => ⟨rfl, fun s _ => rfl⟩
  | some gp =>
    rw [List.forall₂_map_right_iff]
    refine List.forall₂_same.mpr fun b hb => ⟨rfl, fun s hs => ?_⟩
    exact gpRelax_run hT hL (Nat.le_refl _) (hclean gp hgp b hb)
      (fun r hr => absurd hr List.not_mem_nil) (AgreeOff.refl [] s) fun hholds => hs hholds gp rfl

/-! ## Two functions -/

/-- `lui r, %hi(s)` and `i` with `%lo(s)(r)`. -/
def highThenLow (op : Opcode) (r : MCPhysReg) (s : MCSymbol) : BasicBlock :=
  ⟨0, [⟨.lui, [.reg r, .expr (.target vkHi (.symbolRef 0 s))], false⟩,
    ⟨op, [.reg r, .reg r, .expr (.target vkLo (.symbolRef 0 s))], false⟩], [], []⟩

/-- Symbol 0 is the global pointer, and the others lie in front of it. -/
def nearGP (s : MCSymbol) : Int := if s = 0 then 0x11800 else 0x11010

def gpData : List BinaryData := [⟨["__global_pointer$"], 0x11800⟩]

theorem highThenLow_clean : CleanGP noOthers 32 nearGP 0x11800 (fun s => some (nearGP s)) 2 true
    (highThenLow .lw (gpr 10) 1).insts := by
  have hone : ∀ i ∈ (highThenLow .lw (gpr 10) 1).insts, OneSymbol i := by
    intro i hi k e he _
    rcases List.mem_pair.mp hi with rfl | rfl <;> simp at he <;> rw [he.2] <;> rfl
  refine ⟨⟨hone _ List.mem_cons_self, by decide, by decide, rfl, fun i hi => ?_, .inl rfl⟩, trivial⟩
  obtain rfl := List.mem_singleton.mp hi
  refine ⟨⟨gpr 10, rfl⟩, hone _ (List.mem_cons_of_mem _ List.mem_cons_self), rfl,
    fun o lo ho hlo => ?_⟩
  obtain rfl := Option.some.inj ho
  obtain rfl : 0 = lo := congrArg Prod.snd (Option.some.inj hlo)
  exact ⟨rfl, .inl rfl⟩

theorem gpRelaxFunction_highThenLow :
    List.Forall₂ (fun b out => out.label = b.label ∧ ∀ s : State 32,
        (true = true → ∀ gp ∈ getGlobalPointerData gpData,
          s.get (gpr 3) = BitVec.ofInt 32 gp.address) →
        run (zeroingOthers noOthers nearGP) out.insts s =
          run (zeroingOthers noOthers nearGP) b.insts s)
      [highThenLow .lw (gpr 10) 1]
      (gpRelaxFunction noOthers gpData (fun s => some (nearGP s)) [highThenLow .lw (gpr 10) 1]) :=
  @gpRelaxFunction_run noOthers 32 (zeroingOthers noOthers nearGP) nearGP (zeroingOthers_tabled _ _)
    (zeroingOthers_linked _ _) gpData (fun s => some (nearGP s)) (fun _ => true)
    [highThenLow .lw (gpr 10) 1] fun gp hgp b hb => by
      obtain rfl : b = _ := List.mem_singleton.mp hb
      obtain rfl := Option.some.inj hgp
      exact highThenLow_clean

/-- The code that sets the global pointer itself: `x3` is not set any more. -/
theorem not_relaxed_gpInit : ∃ out, gpRelaxFunction noOthers gpData (fun s => some (nearGP s))
      [highThenLow .addi (gpr 3) 0] = [out] ∧ ∃ s, run (zeroingOthers noOthers nearGP) out.insts s ≠
    run (zeroingOthers noOthers nearGP) (highThenLow .addi (gpr 3) 0).insts s := by
  refine ⟨_, rfl, ⟨fun _ => 0, fun _ => 0⟩, fun heq => ?_⟩
  have hread := congrArg (fun r => r.toOption.map (·.get (gpr 3))) heq
  revert hread
  decide

end RvLlvm.Bolt
