import RvLlvm.Bolt.ConstLUISound

/-!
# Moves in place of `lui`

Model of `RISCVReuseLUIAbsolute` (`bolt/lib/Passes/RISCV/RISCVReuseLUIAbsolute.cpp`): of two `lui`
instructions in a row whose symbols lie in one page the second becomes a move. What binary data
there is, and the addresses of the symbols, are parameters.

* `moves_of_ne`: an instruction that is changed is the second `lui` of such a pair, and becomes its
  move.
* `moveValue_iff`: the move does what the `lui` did exactly when the high parts agree
  (`EqualHighs`), which for two `%hi` is that both symbols lie in one half of their page.
* `reuseAbsolute_iff`: so for every pair of a block.
-/

namespace RvLlvm.Bolt

open Support

/-! ## The pass -/

section Pass

variable (hasData : MCSymbol → Bool) (symbolValue : MCSymbol → Nat)

/-- The symbol of a `lui` that the binary has data for. -/
def luiSymbol (i : MCInst) : Option MCSymbol :=
  match i.opcode, (i.operands[1]? : Option MCOperand) with
  | .lui, some (.expr (.target _ (.symbolRef _ s))) => if hasData s then some s else none
  | _, _ => none

/-- `c.mv`. -/
def makeMV (dup base : MCPhysReg) : MCInst := ⟨.cMv, [.reg dup, .reg base], false⟩

/-- The second `lui` has its symbol in the page of the first one's. -/
def samePage (i j : MCInst) : Bool :=
  match luiSymbol hasData i, luiSymbol hasData j with
  | some s, some t => symbolValue s / 2 ^ 12 == symbolValue t / 2 ^ 12
  | _, _ => false

/-- `runOnFunction` for one block. Behind a move the loop goes on with the next instruction. -/
def reuseAbsolute : List MCInst → List MCInst
  | [] => []
  | [i] => [i]
  | i :: j :: rest =>
    if samePage hasData symbolValue i j then
      i :: makeMV (j.getReg 0) (i.getReg 0) :: reuseAbsolute rest
    else i :: reuseAbsolute (j :: rest)

end Pass

/-! ## Which instructions change -/

section Places

variable {hasData : MCSymbol → Bool} {symbolValue : MCSymbol → Nat}

/-- **What changes**: an instruction that is changed follows a `lui` that is not, the two have their
symbols in one page, and it becomes the move. -/
theorem moves_of_ne {insts : List MCInst} {k : Nat} {j m : MCInst} (hj : insts[k]? = some j)
    (hm : (reuseAbsolute hasData symbolValue insts)[k]? = some m) (hne : m ≠ j) :
    ∃ n i, k = n + 1 ∧ insts[n]? = some i ∧
      (reuseAbsolute hasData symbolValue insts)[n]? = some i ∧
      samePage hasData symbolValue i j = true ∧ m = makeMV (j.getReg 0) (i.getReg 0) := by
  induction insts using reuseAbsolute.induct hasData symbolValue generalizing k with
  | case1 => exact absurd hj (by simp)
  | case2 i => exact absurd (Option.some.inj (hm.symm.trans hj)) hne
  | case3 i q rest hpage ih =>
    rw [reuseAbsolute, if_pos hpage] at hm ⊢
    match k, hj, hm with
    | 0, hj, hm => exact absurd (Option.some.inj (hm.symm.trans hj)) hne
    | 1, hj, hm =>
      obtain rfl : q = j := by simpa using hj
      exact ⟨0, i, rfl, rfl, rfl, hpage, by simpa using hm.symm⟩
    | k + 2, hj, hm =>
      obtain ⟨n, p, rfl, hp, hout, hpair⟩ := ih hj hm
      exact ⟨n + 2, p, rfl, hp, hout, hpair⟩
  | case4 i q rest hpage ih =>
    rw [reuseAbsolute, if_neg hpage] at hm ⊢
    match k, hj, hm with
    | 0, hj, hm => exact absurd (Option.some.inj (hm.symm.trans hj)) hne
    | k + 1, hj, hm =>
      obtain ⟨n, p, rfl, hp, hout, hpair⟩ := ih hj hm
      exact ⟨n + 1, p, rfl, hp, hout, hpair⟩

theorem luiSymbol_eq {i : MCInst} {s : MCSymbol} (h : luiSymbol hasData i = some s) :
    i.opcode = .lui ∧ ∃ kind ref, i.operands[1]? =
      some (.expr (.target kind (.symbolRef ref s))) := by
  unfold luiSymbol at h
  split at h
  next kind ref t hop ho =>
    split at h
    · obtain rfl := Option.some.inj h
      exact ⟨hop, kind, ref, ho⟩
    · exact absurd h (by simp)
  · exact absurd h (by simp)

theorem samePage_symbols {i j : MCInst} (h : samePage hasData symbolValue i j = true) :
    ∃ s t, luiSymbol hasData i = some s ∧ luiSymbol hasData j = some t ∧
      symbolValue s / 2 ^ 12 = symbolValue t / 2 ^ 12 := by
  rw [samePage] at h
  split at h
  next s t hs ht => exact ⟨s, t, hs, ht, by simpa using h⟩
  · exact absurd h (by simp)

end Places

/-! ## What the moves do -/

section Values

variable {w : Nat} (E : Env w)

/-- The value of an operand as an immediate. -/
def upperImm (i : MCInst) : Int :=
  match (i.operands[1]? : Option MCOperand) with
  | some (.expr e) => E.value e
  | _ => 0

/-- What a `lui` of a symbol does. -/
theorem exec_luiSymbol {hasData : MCSymbol → Bool} {i : MCInst} {s : MCSymbol}
    (h : luiSymbol hasData i = some s) (hreg : i.operands[0]? = some (.reg (i.getReg 0)))
    (t : State w) :
    exec E i t = .ok (t.set (i.getReg 0) (luiValue w (upperImm E i))) := by
  obtain ⟨hop, kind, ref, ho⟩ := luiSymbol_eq h
  obtain ⟨op, ops, tail⟩ := i
  obtain rfl : op = .lui := hop
  match ops, hreg, ho with
  | a :: b :: rest, hreg, ho =>
    obtain rfl : b = .expr (.target kind (.symbolRef ref s)) := by simpa using ho
    obtain ⟨r, rfl⟩ : ∃ r, a = .reg r := ⟨_, by simpa using hreg⟩
    rfl

/-- `lui` values of twenty bits are different for different immediates. -/
theorem luiValue_inj (hw : 32 ≤ w) {a b : Int} (ha : 0 ≤ a ∧ a < 2 ^ 20) (hb : 0 ≤ b ∧ b < 2 ^ 20) :
    luiValue w a = luiValue w b ↔ a = b := by
  refine ⟨fun h => ?_, fun h => by rw [h]⟩
  have hpow : 2 ^ 32 ≤ 2 ^ w := Nat.pow_le_pow_right (by decide) hw
  have hint := congrArg BitVec.toInt h
  rw [luiValue, luiValue, BitVec.toInt_ofInt, BitVec.toInt_ofInt] at hint
  generalize 2 ^ w = k at hpow hint
  have hfit : ∀ x : Int, (x.bmod (2 ^ 32)).bmod k = x.bmod (2 ^ 32) := by
    intro x
    have hlow := Int.le_bmod (x := x) (m := 2 ^ 32) (by decide)
    have hhigh := Int.bmod_lt (x := x) (m := 2 ^ 32) (by decide)
    exact Int.bmod_eq_of_le (by omega) (by omega)
  rw [hfit, hfit, Int.bmod_def, Int.bmod_def] at hint
  split at hint <;> split at hint <;> omega

/-- The condition for a move from the register of `i` to do what `j` does, where the symbols of both
lie in one page: for two `%hi` both symbols are in one half of it. -/
def EqualHighs (symbolValue : MCSymbol → Nat) (i j : MCInst) : Prop :=
  j.getReg 0 ≤ gpr 0 ∨
    if i.getReg 0 ≤ gpr 0 then luiValue w (upperImm E j) = 0
    else
      match (i.operands[1]? : Option MCOperand), (j.operands[1]? : Option MCOperand) with
      | some (.expr (.target 2 (.symbolRef _ s))), some (.expr (.target 2 (.symbolRef _ t))) =>
        (symbolValue s % 2 ^ 12 < 2 ^ 11 ↔ symbolValue t % 2 ^ 12 < 2 ^ 11)
      | _, _ => luiValue w (upperImm E i) = luiValue w (upperImm E j)

variable {E} {symbolValue : MCSymbol → Nat} {hasData : MCSymbol → Bool} {i j : MCInst}

theorem equalHighs_iff (hw : 32 ≤ w) (hL : Linked (fun s => symbolValue s) E)
    (hpage : samePage hasData symbolValue i j = true) :
    EqualHighs E symbolValue i j ↔ j.getReg 0 ≤ gpr 0 ∨
      (if i.getReg 0 ≤ gpr 0 then 0 else luiValue w (upperImm E i)) =
        luiValue w (upperImm E j) := by
  rw [EqualHighs]
  refine or_congr_right ?_
  split
  · exact eq_comm
  · split
    next ref s ref' t hi hj =>
      obtain ⟨s', t', hs, ht, hpages⟩ := samePage_symbols hpage
      obtain ⟨-, kind, r, ho⟩ := luiSymbol_eq hs
      obtain ⟨-, kind', r', ho'⟩ := luiSymbol_eq ht
      obtain ⟨-, -, rfl⟩ : 2 = kind ∧ ref = r ∧ s = s' := by simpa [hi] using ho
      obtain ⟨-, -, rfl⟩ : 2 = kind' ∧ ref' = r' ∧ t = t' := by simpa [hj] using ho'
      have hvalue : ∀ ref s, E.value (.target 2 (.symbolRef ref s)) =
          ((symbolValue s : Int) + 0x800) / 2 ^ 12 % 2 ^ 20 := fun ref s => hL.hi (.symbolRef ref s)
      rw [upperImm, upperImm, hi, hj]
      simp only [hvalue]
      rw [luiValue_inj hw (by omega) (by omega)]
      omega
    · exact Iff.rfl

/-- **The move and the `lui`**: they do the same behind the first `lui`, whatever the state, exactly
when the high parts agree. -/
theorem moveValue_iff (hw : 32 ≤ w) (hL : Linked (fun s => symbolValue s) E)
    (hpage : samePage hasData symbolValue i j = true)
    (hi : i.operands[0]? = some (.reg (i.getReg 0)))
    (hj : j.operands[0]? = some (.reg (j.getReg 0))) :
    (∀ s : State w, run E [i, makeMV (j.getReg 0) (i.getReg 0)] s = run E [i, j] s) ↔
      EqualHighs E symbolValue i j := by
  obtain ⟨s, t, hs, ht, -⟩ := samePage_symbols hpage
  rw [equalHighs_iff hw hL hpage]
  have hmove : ∀ u : State w, exec E (makeMV (j.getReg 0) (i.getReg 0)) u =
      .ok (u.set (j.getReg 0) (u.get (i.getReg 0))) := fun _ => rfl
  have hbase : ∀ u : State w, (u.set (i.getReg 0) (luiValue w (upperImm E i))).get (i.getReg 0) =
      if i.getReg 0 ≤ gpr 0 then 0 else luiValue w (upperImm E i) := by
    intro u
    split
    next hzero => exact State.get_of_le _ hzero
    next hzero => exact State.get_set_self u _ hzero
  simp only [run_pair, exec_luiSymbol E hs hi, ok_bind, hmove, exec_luiSymbol E ht hj, hbase]
  constructor
  · intro hall
    by_cases hzero : j.getReg 0 ≤ gpr 0
    · exact .inl hzero
    · right
      have heq := congrArg (fun u => (u.get (j.getReg 0)))
        (Except.ok.inj (hall ⟨fun _ => 0, fun _ => 0⟩))
      simpa only [State.get_set_self _ _ hzero] using heq
  · rintro (hzero | heq) u
    · have hkept : ∀ (u : State w) v, u.set (j.getReg 0) v = u := fun _ _ => if_pos hzero
      rw [hkept, hkept]
    · rw [heq]

/-- Registers stand where `lui` names one. -/
def LuiRegs (insts : List MCInst) : Prop :=
  ∀ i ∈ insts, i.opcode = .lui → i.operands[0]? = some (.reg (i.getReg 0))

/-- **Reused high parts**: in every block and from every state, each move that stands for a `lui`
puts into its register what the `lui` would have put there, exactly when the high parts of each such
pair agree. -/
theorem reuseAbsolute_iff (hw : 32 ≤ w)
    (hL : Linked (fun s => symbolValue s) E) {insts : List MCInst}
    (hregs : LuiRegs insts) :
    (∀ k i j m, insts[k]? = some i → insts[k + 1]? = some j →
        (reuseAbsolute hasData symbolValue insts)[k + 1]? = some m → m ≠ j →
        (reuseAbsolute hasData symbolValue insts)[k]? = some i ∧
          ∀ s : State w, run E [i, m] s = run E [i, j] s) ↔
      ∀ k i j m, insts[k]? = some i → insts[k + 1]? = some j →
        (reuseAbsolute hasData symbolValue insts)[k + 1]? = some m → m ≠ j →
        EqualHighs E symbolValue i j := by
  have hpair : ∀ k i j m, insts[k]? = some i → insts[k + 1]? = some j →
      (reuseAbsolute hasData symbolValue insts)[k + 1]? = some m → m ≠ j →
      (reuseAbsolute hasData symbolValue insts)[k]? = some i ∧
        ((∀ s : State w, run E [i, m] s = run E [i, j] s) ↔ EqualHighs E symbolValue i j) := by
    intro k i j m hi hj hm hne
    obtain ⟨n, q, hk, hq, hout, hpage, rfl⟩ := moves_of_ne hj hm hne
    obtain rfl : k = n := Nat.succ_injective hk
    obtain rfl : i = q := Option.some.inj (hi.symm.trans hq)
    obtain ⟨s, t, hs, ht, -⟩ := samePage_symbols hpage
    exact ⟨hout, moveValue_iff hw hL hpage
      (hregs i (List.mem_of_getElem? hi) (luiSymbol_eq hs).1)
      (hregs j (List.mem_of_getElem? hj) (luiSymbol_eq ht).1)⟩
  constructor
  · intro h k i j m hi hj hm hne
    exact (hpair k i j m hi hj hm hne).2.mp (h k i j m hi hj hm hne).2
  · intro h k i j m hi hj hm hne
    obtain ⟨hout, hiff⟩ := hpair k i j m hi hj hm hne
    exact ⟨hout, hiff.mpr (h k i j m hi hj hm hne)⟩

end Values

/-! ## Two blocks -/

/-- `lui a0, %hi(0); lui a1, %hi(t)`. -/
def twoHighs (t : MCSymbol) : List MCInst :=
  [⟨.lui, [.reg (gpr 10), .expr (.target vkHi (.symbolRef 0 0))], false⟩,
    ⟨.lui, [.reg (gpr 11), .expr (.target vkHi (.symbolRef 0 t))], false⟩]

theorem twoHighs_regs (t : MCSymbol) : LuiRegs (twoHighs t) := by
  intro i hi _
  rcases List.mem_pair.mp hi with rfl | rfl <;> rfl

/-- Symbol 0 at the beginning of a page and all others in the middle of it. -/
def pageHalves (s : MCSymbol) : Nat := if s = 0 then 0x11000 else 0x11800

/-- Where addresses are those of `pageHalves` and the other instructions do as they please. -/
def halvesEnv : Env 32 := zeroingOthers noOthers fun s => (pageHalves s : Int)

theorem reuseAbsolute_sameSymbol :
    (∀ k i j m, (twoHighs 0)[k]? = some i → (twoHighs 0)[k + 1]? = some j →
        (reuseAbsolute (fun _ => true) pageHalves (twoHighs 0))[k + 1]? = some m → m ≠ j →
        (reuseAbsolute (fun _ => true) pageHalves (twoHighs 0))[k]? = some i ∧
          ∀ s, run halvesEnv [i, m] s = run halvesEnv [i, j] s) ↔
      ∀ k i j m, (twoHighs 0)[k]? = some i → (twoHighs 0)[k + 1]? = some j →
        (reuseAbsolute (fun _ => true) pageHalves (twoHighs 0))[k + 1]? = some m → m ≠ j →
        EqualHighs halvesEnv pageHalves i j :=
  reuseAbsolute_iff (by decide) (zeroingOthers_linked _ _) (twoHighs_regs 0)

/-- The symbols at 0x11000 and 0x11800 lie in one page, and their high parts are 0x11 and 0x12. -/
theorem not_reused_twoHighs : ∃ i j m, (twoHighs 1)[0]? = some i ∧ (twoHighs 1)[1]? = some j ∧
    (reuseAbsolute (fun _ => true) pageHalves (twoHighs 1))[1]? = some m ∧ m ≠ j ∧
    ∃ s, run halvesEnv [i, m] s ≠ run halvesEnv [i, j] s := by
  refine ⟨_, _, makeMV (gpr 11) (gpr 10), rfl, rfl, by decide, by decide,
    ⟨fun _ => 0, fun _ => 0⟩, fun heq => ?_⟩
  have hread := congrArg (fun r => r.toOption.map (·.get (gpr 11))) heq
  revert hread
  decide

end RvLlvm.Bolt
