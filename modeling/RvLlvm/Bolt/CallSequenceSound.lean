import Mathlib.Data.List.Induction
import RvLlvm.Bolt.CallSequenceOutliner
import RvLlvm.Bolt.ConstLUISound
import RvLlvm.Support.Pairwise

/-!
# Outlined sequences of calls

What the helpers of `RISCVCallSequenceOutliner` do in the place of the runs.

- `outlined_alike`: where no function that a callee of an outlined run reaches is disturbed
  (`Undisturbed`), the run makes the same calls with the same arguments, keeps the registers of the
  helper through every call, returns behind the call of the helper, and leaves the same visible
  state; and so does every function, however deep its calls are.
- `not_outlined_nested`: the clobbers are those of the functions before any of them is rewritten, so
  a callee that calls a helper itself destroys the registers of the outer helper.
-/

namespace RvLlvm.Bolt

open Support
open Relation (ReflTransGen)

/-! ## Running code with calls -/

/-- What a function or a run does; `none` where it does not come back. -/
abbrev Meaning := State 32 → Option (State 32)

/-- Calls, with the states in which they are made. -/
abbrev Trace := List (MCSymbol × State 32)

/-- The function that an instruction calls through `ra`. -/
def directCall (i : MCInst) : Option MCSymbol :=
  match i.opcode, i.operands with
  | .jal, .reg r :: _ => if r = gpr 1 then getTargetSymbol i else none
  | _, _ => none

/-- The register through which an instruction returns. -/
def returnRegister (i : MCInst) : Option MCPhysReg :=
  match i.opcode, i.operands with
  | .jalr, [.reg z, .reg r, .imm 0] => if z = gpr 0 then some r else none
  | _, _ => none

/-- Instructions one after the other: the calls that are made, the state behind, and where they
return to. A call puts `ra k` into `ra`, with `k` instructions behind it. -/
def runCode (E : Env 32) (call : MCSymbol → Meaning) (ra : Nat → BitVec 32) :
    List MCInst → State 32 → Option (Trace × State 32 × Option (BitVec 32))
  | [], s => some ([], s, none)
  | i :: rest, s =>
    match directCall i, returnRegister i with
    | some f, _ =>
      (call f (s.set (gpr 1) (ra rest.length))).bind fun s' =>
        (runCode E call ra rest s').map fun q => ((f, s.set (gpr 1) (ra rest.length)) :: q.1, q.2)
    | none, some r => some ([], s, some (s.get r))
    | none, none =>
      match exec E i s with
      | .ok s' => runCode E call ra rest s'
      | .error _ => none

/-- The instructions of a unit. -/
def CallUnit.insts (u : CallUnit) : List MCInst := [u.lui, u.addi, u.call]

/-- A program, with what the model leaves open: the other instructions, the code of the functions
around their runs, the analysis of registers, and the addresses of the instructions behind calls. -/
structure OutlinerProgram where
  functions : List OutlinerFunction
  info : MCInstrInfo
  env : Env 32
  minCalls : Nat
  /-- `getFunctionClobberList` for the function of a symbol. -/
  clobbers : MCSymbol → Option (MCPhysReg → Bool)
  /-- The functions that a function calls. -/
  calls : MCSymbol → MCSymbol → Prop
  /-- What a function does, by what the functions it calls and its runs do. -/
  body : MCSymbol → (MCSymbol → Meaning) → (CallRun → Meaning) → Meaning
  ra : CallRun → Nat → BitVec 32
  helperRa : CallRun → Nat → BitVec 32
  /-- The address behind the call that takes the place of a run. -/
  after : CallRun → BitVec 32

namespace OutlinerProgram

variable (p : OutlinerProgram)

/-- The runs of the program. -/
def runs : List CallRun := collectRuns p.minCalls p.functions

/-- The helper of a run. -/
def helper (R : CallRun) : Option (CallRun × HelperRegisters) :=
  helperOf p.clobbers p.minCalls p.functions R

/-- A run as it was. -/
def originalRun (call : MCSymbol → Meaning) (R : CallRun) (s : State 32) :
    Option (Trace × State 32 × Option (BitVec 32)) :=
  runCode p.env call (p.ra R) (R.units.flatMap CallUnit.insts) s

/-- The first two instructions of a run, and the helper behind its call. -/
def helperRun (call : MCSymbol → Meaning) (R front : CallRun) (h : HelperRegisters) (s : State 32) :
    Option (Trace × State 32 × Option (BitVec 32)) :=
  (runCode p.env call (p.ra R) (R.units.head?.toList.flatMap fun u => [u.lui, u.addi]) s).bind fun q =>
    runCode p.env call (p.helperRa front) (helperBody front h) (q.2.1.set (gpr 1) (p.after R))

/-- What a run does as it was. -/
def runBefore (call : MCSymbol → Meaning) (R : CallRun) : Meaning := fun s =>
  (p.originalRun call R s).map (·.2.1)

/-- What a run does after the pass: a helper comes back where it returns behind its call. -/
def runAfter (call : MCSymbol → Meaning) (R : CallRun) : Meaning := fun s =>
  match p.helper R with
  | none => p.runBefore call R s
  | some (front, h) =>
    (p.helperRun call R front h s).bind fun q => if q.2.2 = some (p.after R) then some q.2.1 else none

/-- What a function does before the pass, with calls up to a depth. -/
def callBefore : Nat → MCSymbol → Meaning
  | 0, _ => fun _ => none
  | n + 1, f => p.body f (callBefore n) (p.runBefore (callBefore n))

/-- What a function does after the pass. -/
def callAfter : Nat → MCSymbol → Meaning
  | 0, _ => fun _ => none
  | n + 1, f => p.body f (callAfter n) (p.runAfter (callAfter n))

/-- The functions that a function reaches by calls. -/
def Reaches : MCSymbol → MCSymbol → Prop := ReflTransGen p.calls

/-- The instruction is in the function. -/
def Has (f : MCSymbol) (i : MCInst) : Prop :=
  ∃ F ∈ p.functions, F.symbol = f ∧ ∃ insts ∈ F.blocks, i ∈ insts

end OutlinerProgram

/-! ## What is visible -/

/-- The registers that are neither callee-saved nor arguments: `ra` and the candidates. -/
def scratch : List MCPhysReg := gpr 1 :: candidates

/-- A relation of states that agree in what is visible: the other registers, and the memory but for
what callees have saved of the scratch registers. -/
structure Visible (Same : State 32 → State 32 → Prop) : Prop where
  get : ∀ s t, Same s t → ∀ r, r ∉ scratch → s.get r = t.get r
  set : ∀ s t, Same s t → ∀ r v, Same (s.set r v) (t.set r v)
  scratchLeft : ∀ s t, Same s t → ∀ r ∈ scratch, ∀ v, Same (s.set r v) t
  scratchRight : ∀ s t, Same s t → ∀ r ∈ scratch, ∀ v, Same s (t.set r v)

/-- From states that agree, both come back to states that agree, or none does. -/
def Simulates (Same : State 32 → State 32 → Prop) (m m' : Meaning) : Prop :=
  ∀ s t, Same s t → (m s = none ∧ m' t = none) ∨ ∃ s' t', m s = some s' ∧ m' t = some t' ∧ Same s' t'

/-- The register keeps its value. -/
def Keeps (x : MCPhysReg) (m : Meaning) : Prop := ∀ s s', m s = some s' → s'.get x = s.get x

/-- What is assumed of the code around the runs and of the analysis of registers: code does not look
at scratch registers that a call or a run leaves, a function changes what its instructions, the
functions it calls and its runs change, and the analysis knows the instructions of all functions
that are reached, calls apart, of which it takes the registers of the callee. -/
structure Conforms (p : OutlinerProgram) (Same : State 32 → State 32 → Prop) : Prop where
  visible : Visible Same
  congr : ∀ f call call' run run', (∀ g, p.calls f g → Simulates Same (call g) (call' g)) →
    (∀ R ∈ p.runs, R.function = f → Simulates Same (run R) (run' R)) →
    Simulates Same (p.body f call run) (p.body f call' run')
  frame : ∀ f call run x, (∃ F ∈ p.functions, F.symbol = f) →
    (∀ i, p.Has f i → writesReg p.info i x = false) → (∀ g, p.calls f g → Keeps x (call g)) →
    (∀ R ∈ p.runs, R.function = f → Keeps x (run R)) → Keeps x (p.body f call run)
  targets : ∀ R ∈ p.runs, ∀ u ∈ R.units, p.calls R.function u.target
  analysed : ∀ f c r, p.clobbers f = some c → c r = false → ∀ g, p.Reaches f g →
    (∃ F ∈ p.functions, F.symbol = g) ∧
      ∀ i, p.Has g i → isCall p.info i = false → writesReg p.info i r = false

/-- The condition: no function that a callee of an outlined run reaches calls through a register of
the helper, or has a run with a helper that uses one. -/
def Undisturbed (p : OutlinerProgram) : Prop :=
  ∀ R ∈ p.runs, ∀ front h, p.helper R = some (front, h) → ∀ u ∈ R.units, ∀ g, p.Reaches u.target g →
    (∀ i, p.Has g i → isCall p.info i = true →
      writesReg p.info i h.base = false ∧ writesReg p.info i h.ret = false) ∧
    ∀ R' ∈ p.runs, R'.function = g → ∀ front' h', p.helper R' = some (front', h') →
      h'.base ≠ h.base ∧ h'.base ≠ h.ret ∧ h'.ret ≠ h.base ∧ h'.ret ≠ h.ret

/-! ## Units -/

/-- What a unit is. -/
structure UnitOk (u : CallUnit) : Prop where
  lui : ∀ (E : Env 32) s, exec E u.lui s = .ok (s.set u.temp (BitVec.ofInt 32 u.highValue))
  addi : ∀ (E : Env 32) s,
    exec E u.addi s = .ok (s.set (gpr 12) (s.get u.temp + BitVec.ofInt 32 u.lowValue))
  call : directCall u.call = some u.target
  luiPlain : directCall u.lui = none ∧ returnRegister u.lui = none
  addiPlain : directCall u.addi = none ∧ returnRegister u.addi = none
  temp : ¬ u.temp ≤ gpr 0
  writes : ∀ (I : MCInstrInfo) x, writesReg I u.lui x = false → writesReg I u.addi x = false →
    writesReg I u.call x = false → x ≠ u.temp ∧ x ≠ gpr 12 ∧ x ≠ gpr 1

theorem outlinerLUIValue_spec {i : MCInst} {v : Int} {temp : MCPhysReg}
    (h : outlinerLUIValue i = some v)
    (hreg : i.operands.head? = some (.reg temp)) :
    (∀ (E : Env 32) s, exec E i s = .ok (s.set temp (BitVec.ofInt 32 v))) ∧
      (directCall i = none ∧ returnRegister i = none) ∧
      ∀ (I : MCInstrInfo) x, writesReg I i x = false → x ≠ temp := by
  obtain ⟨op, ops, tail⟩ := i
  have hshape : (op = .lui ∨ op = .cLui) ∧ ∃ r w rest, ops = .reg r :: .imm w :: rest ∧ v = getLUIValue w := by
    unfold outlinerLUIValue at h
    split at h
    next r w rest hop hops =>
      split at h
      · exact absurd h (by simp)
      · exact ⟨.inl hop, r, w, rest, hops, (Option.some.inj h).symm⟩
    next r w rest hop hops =>
      split at h
      · exact absurd h (by simp)
      · exact ⟨.inr hop, r, w, rest, hops, (Option.some.inj h).symm⟩
    · exact absurd h (by simp)
  obtain ⟨hop, r, w, rest, rfl, rfl⟩ := hshape
  obtain rfl : r = temp := by simpa using hreg
  have hwrites : ∀ (I : MCInstrInfo) x, (I.get op).numDefs = 1 →
      writesReg I ⟨op, .reg r :: .imm w :: rest, tail⟩ x = false → x ≠ r := by
    rintro I x hdefs hx rfl
    rw [writesReg, hdefs] at hx
    simp at hx
  rcases hop with rfl | rfl
  · refine ⟨fun E s => ?_, ⟨rfl, rfl⟩, fun I x hx => hwrites I x rfl hx⟩
    show Except.ok (s.set r (luiValue 32 w)) = _
    rw [luiValue_eq]
  · refine ⟨fun E s => ?_, ⟨rfl, rfl⟩, fun I x hx => hwrites I x rfl hx⟩
    show Except.ok (s.set r (luiValue 32 w)) = _
    rw [luiValue_eq]

theorem parseUnit_spec {insts : List MCInst} {u : CallUnit} (h : parseUnit insts = some u) :
    UnitOk u ∧ ∃ rest, insts = u.lui :: u.addi :: u.call :: rest := by
  unfold parseUnit at h
  split at h
  next lui addi call rest =>
    obtain ⟨high, hhigh, h⟩ := Option.bind_eq_some_iff.mp h
    split at h
    next temp d s low ra o tail hreg haddi hop hops =>
      split at h
      next hcond =>
        obtain ⟨target, htarget, rfl⟩ := Option.map_eq_some_iff.mp h
        obtain ⟨hzero, hsaved, rfl, rfl, -, rfl⟩ := hcond
        obtain ⟨hlui, hplain, hwrites⟩ := outlinerLUIValue_spec hhigh hreg
        obtain ⟨aop, aops, atail⟩ := addi
        obtain ⟨cop, cops, ctail⟩ := call
        obtain rfl : cop = .jal := hop
        obtain rfl : cops = _ := hops
        have hashape : aop = .addi ∧ ∃ rest', aops = .reg (gpr 12) :: .reg s :: .imm low :: rest' := by
          unfold isADDI at haddi
          split at haddi
          next d' s' o' rest' hop' hops' =>
            obtain ⟨rfl, hs⟩ := Prod.mk.inj (Option.some.inj haddi)
            obtain ⟨rfl, rfl⟩ := Prod.mk.inj hs
            exact ⟨hop', rest', hops'⟩
          · exact absurd haddi (by simp)
        obtain ⟨rfl, rest', rfl⟩ := hashape
        refine ⟨⟨hlui, fun E s => rfl, ?_, hplain, ⟨rfl, rfl⟩, ?_, ?_⟩, rest, rfl⟩
        · exact htarget
        · intro hle
          simp only [isCallerSavedGPR, List.mem_cons, List.not_mem_nil, or_false, gpr,
            decide_eq_true_eq] at hsaved hle
          have hnat : ∀ m : Nat, m ≤ 1 → ¬ (m = 6 ∨ m = 7 ∨ m = 8 ∨ m = 11 ∨ m = 12 ∨ m = 13 ∨ m = 14 ∨
              m = 15 ∨ m = 16 ∨ m = 17 ∨ m = 18 ∨ m = 29 ∨ m = 30 ∨ m = 31 ∨ m = 32) := by omega
          exact hnat s hle hsaved
        · intro I x hl ha hc
          refine ⟨hwrites I x hl, ?_, ?_⟩
          · rintro rfl
            rw [writesReg] at ha
            simp [MCInstrInfo.get] at ha
          · rintro rfl
            rw [writesReg] at hc
            simp [MCInstrInfo.get] at hc
      · exact absurd h (by simp)
    · exact absurd h (by simp)
  · exact absurd h (by simp)

/-- The units of a run are in the code. -/
theorem parseUnits_spec (n : Nat) {insts : List MCInst} {u : CallUnit}
    (h : u ∈ parseUnits n insts) :
    UnitOk u ∧ u.lui ∈ insts ∧ u.addi ∈ insts ∧ u.call ∈ insts := by
  induction n generalizing insts with
  | zero => exact absurd h List.not_mem_nil
  | succ n ih =>
    rw [parseUnits] at h
    split at h
    next v hv =>
      rcases List.mem_cons.mp h with rfl | h
      · obtain ⟨hok, rest, rfl⟩ := parseUnit_spec hv
        exact ⟨hok, by simp, by simp, by simp⟩
      · obtain ⟨hok, hl, ha, hc⟩ := ih h
        exact ⟨hok, List.mem_of_mem_drop hl, List.mem_of_mem_drop ha, List.mem_of_mem_drop hc⟩
    · exact absurd h List.not_mem_nil

/-- What a run of the program is. -/
structure RunOk (p : OutlinerProgram) (R : CallRun) : Prop where
  units : ∀ u ∈ R.units, UnitOk u ∧ p.Has R.function u.lui ∧ p.Has R.function u.addi ∧ p.Has R.function u.call
  high : ∀ u ∈ R.units, u.highValue = R.high
  nonempty : R.units ≠ []

theorem runOk_of_mem {p : OutlinerProgram} {R : CallRun} (h : R ∈ p.runs) : RunOk p R := by
  obtain ⟨F, hF, h⟩ := List.mem_flatMap.mp h
  obtain ⟨⟨insts, b⟩, hb, h⟩ := List.mem_flatMap.mp h
  obtain ⟨h, hout⟩ := List.mem_filter.mp h
  obtain ⟨k, -, rfl⟩ := List.mem_map.mp h
  have hblock : insts ∈ F.blocks := List.fst_mem_of_mem_zipIdx hb
  have hhas : ∀ i ∈ insts.drop k, p.Has F.symbol i :=
    fun i hi => ⟨F, hF, rfl, insts, hblock, List.mem_of_mem_drop hi⟩
  rw [isOutlineable, Bool.and_eq_true, Bool.and_eq_true, List.all_eq_true] at hout
  refine ⟨fun u hu => ?_, fun u hu => ?_, fun hnil => ?_⟩
  · obtain ⟨hok, hl, ha, hc⟩ := parseUnits_spec _ hu
    exact ⟨hok, hhas _ hl, hhas _ ha, hhas _ hc⟩
  · have hboth := hout.2 u hu
    rw [Bool.and_eq_true, beq_iff_eq] at hboth
    exact hboth.1
  · rw [hnil] at hout
    exact absurd hout.1.2 (by simp)

/-! ## Running pieces of code -/

section RunCode

variable {E : Env 32} {call call' : MCSymbol → Meaning} {ra ra' : Nat → BitVec 32} {x : MCPhysReg}

theorem runCode_call {i : MCInst} {f : MCSymbol} (h : directCall i = some f) (rest : List MCInst)
    (s : State 32) : runCode E call ra (i :: rest) s =
      (call f (s.set (gpr 1) (ra rest.length))).bind fun s' =>
        (runCode E call ra rest s').map fun q => ((f, s.set (gpr 1) (ra rest.length)) :: q.1, q.2) := by
  rw [runCode, h]

theorem runCode_plain {i : MCInst} {s s' : State 32}
    (h : directCall i = none ∧ returnRegister i = none)
    (hexec : exec E i s = .ok s') (rest : List MCInst) :
    runCode E call ra (i :: rest) s = runCode E call ra rest s' := by
  rw [runCode, h.1, h.2]
  simp only [hexec]

theorem runCode_return (h : HelperRegisters) (s : State 32) :
    runCode E call ra [makeIndirectReturn h.ret] s = some ([], s, some (s.get h.ret)) := rfl

theorem State.set_set (s : State 32) (r : MCPhysReg) (v w : BitVec 32) :
    (s.set r v).set r w = s.set r w := by
  unfold State.set
  by_cases hr : r ≤ gpr 0
  · simp only [if_pos hr]
  · simp only [if_neg hr]
    congr 1
    funext q
    by_cases hq : q = r
    · simp only [if_pos hq]
    · simp only [if_neg hq]

/-- An instruction that leaves a register alone. -/
def LeavesReg (E : Env 32) (call : MCSymbol → Meaning) (x : MCPhysReg) (i : MCInst) : Prop :=
  (∃ f, directCall i = some f ∧ Keeps x (call f) ∧ x ≠ gpr 1) ∨
    (directCall i = none ∧ ((returnRegister i).isSome = true ∨
      ∀ s s' : State 32, exec E i s = .ok s' → s'.get x = s.get x))

theorem runCode_keeps {code : List MCInst} (h : ∀ i ∈ code, LeavesReg E call x i) {s : State 32}
    {q : Trace × State 32 × Option (BitVec 32)} (hq : runCode E call ra code s = some q) :
    q.2.1.get x = s.get x := by
  induction code generalizing s q with
  | nil =>
    obtain rfl := Option.some.inj hq
    rfl
  | cons i rest ih =>
    have hrest : ∀ j ∈ rest, LeavesReg E call x j := fun j hj => h j (List.mem_cons_of_mem _ hj)
    rcases h i List.mem_cons_self with ⟨f, hf, hkeeps, hne⟩ | ⟨hnone, hcase⟩
    · rw [runCode_call hf] at hq
      obtain ⟨s', hs', hq⟩ := Option.bind_eq_some_iff.mp hq
      obtain ⟨q', hq', rfl⟩ := Option.map_eq_some_iff.mp hq
      rw [ih hrest hq', hkeeps _ _ hs', State.get_set_of_ne _ _ hne]
    · rw [runCode, hnone] at hq
      cases hr : returnRegister i with
      | some r =>
        rw [hr] at hq
        obtain rfl := Option.some.inj hq
        rfl
      | none =>
        rw [hr] at hcase hq
        have hexec := hcase.resolve_left (by simp)
        cases hs : exec E i s with
        | error e =>
          simp only [hs] at hq
          exact absurd hq (by simp)
        | ok s' =>
          simp only [hs] at hq
          rw [ih hrest hq, hexec s s' hs]

theorem UnitOk.leaves {u : CallUnit} (hu : UnitOk u) (hx : x ≠ u.temp ∧ x ≠ gpr 12 ∧ x ≠ gpr 1)
    (hcall : Keeps x (call u.target)) : ∀ i ∈ u.insts, LeavesReg E call x i := by
  intro i hi
  simp only [CallUnit.insts, List.mem_cons, List.not_mem_nil, or_false] at hi
  rcases hi with rfl | rfl | rfl
  · refine .inr ⟨hu.luiPlain.1, .inr fun s s' hs => ?_⟩
    obtain rfl := Except.ok.inj ((hu.lui E s).symm.trans hs)
    exact State.get_set_of_ne _ _ hx.1
  · refine .inr ⟨hu.addiPlain.1, .inr fun s s' hs => ?_⟩
    obtain rfl := Except.ok.inj ((hu.addi E s).symm.trans hs)
    exact State.get_set_of_ne _ _ hx.2.1
  · exact .inl ⟨u.target, hu.call, hcall, hx.2.2⟩

theorem makeADDI_plain (r b : MCPhysReg) (v : Int) :
    directCall (makeADDI r b v) = none ∧ returnRegister (makeADDI r b v) = none := ⟨rfl, rfl⟩

theorem makeADDI_leaves {r b : MCPhysReg} {v : Int} (h : x ≠ r) :
    LeavesReg E call x (makeADDI r b v) := by
  refine .inr ⟨rfl, .inr fun s s' hs => ?_⟩
  obtain rfl := Except.ok.inj ((exec_makeADDI s r b v).symm.trans hs)
  exact State.get_set_of_ne _ _ h

/-- What a helper leaves alone. -/
theorem helperBody_leaves {R : CallRun} {h : HelperRegisters} (hok : ∀ u ∈ R.units, UnitOk u)
    (htemp : ∀ u ∈ R.units, x ≠ u.temp) (hx : x ≠ gpr 12 ∧ x ≠ gpr 1) (hregs : x ≠ h.base ∧ x ≠ h.ret)
    (hcalls : ∀ u ∈ R.units, Keeps x (call u.target)) : ∀ i ∈ helperBody R h, LeavesReg E call x i := by
  have hcall : ∀ u ∈ R.units, LeavesReg E call x u.call :=
    fun u hu => .inl ⟨u.target, (hok u hu).call, hcalls u hu, hx.2⟩
  intro i hi
  rw [helperBody, List.mem_append, List.mem_append, List.mem_append] at hi
  rcases hi with ((hi | hi) | hi) | hi
  · simp only [List.mem_cons, List.not_mem_nil, or_false] at hi
    rcases hi with rfl | rfl
    · exact makeADDI_leaves hregs.1
    · exact makeADDI_leaves hregs.2
  · obtain ⟨u, hu, rfl⟩ := Option.map_eq_some_iff.mp (Option.mem_toList.mp hi)
    exact hcall u (List.mem_of_head? hu)
  · obtain ⟨u, hu, hi⟩ := List.mem_flatMap.mp hi
    have hmem := List.mem_of_mem_tail hu
    rw [helperUnit, List.mem_append] at hi
    rcases hi with hi | hi
    · split at hi
      · obtain rfl := List.mem_singleton.mp hi
        refine .inr ⟨(hok u hmem).luiPlain.1, .inr fun s s' hs => ?_⟩
        obtain rfl := Except.ok.inj (((hok u hmem).lui E s).symm.trans hs)
        exact State.get_set_of_ne _ _ (htemp u hmem)
      · exact absurd hi List.not_mem_nil
    · simp only [List.mem_cons, List.not_mem_nil, or_false] at hi
      rcases hi with rfl | rfl
      · exact makeADDI_leaves hx.1
      · exact hcall u hmem
  · obtain rfl := List.mem_singleton.mp hi
    exact .inr ⟨rfl, .inl rfl⟩

end RunCode

/-! ## Runs and helpers -/

section Runs

variable {Same : State 32 → State 32 → Prop} {E : Env 32} {call call' : MCSymbol → Meaning}
  {ra ra' : Nat → BitVec 32}

/-- The same calls from states that agree. -/
def TraceSame (Same : State 32 → State 32 → Prop) : Trace → Trace → Prop :=
  List.Forall₂ fun e e' => e.1 = e'.1 ∧ Same e.2 e'.2

/-- Neither comes back; or both do, the one behind its code and the other at an address, after the
same calls, in states that agree. -/
def RunsAlike (Same : State 32 → State 32 → Prop) (back : Option (BitVec 32))
    (a b : Option (Trace × State 32 × Option (BitVec 32))) : Prop :=
  (a = none ∧ b = none) ∨ ∃ tr s tr' t, a = some (tr, s, none) ∧ b = some (tr', t, back) ∧ Same s t ∧
    TraceSame Same tr tr'

/-- A call in both, and what is behind it. -/
theorem runsAlike_call {f : MCSymbol} (hV : Visible Same) (hsim : Simulates Same (call f) (call' f))
    {i i' : MCInst} (hi : directCall i = some f) (hi' : directCall i' = some f) {rest rest' : List MCInst}
    {s t : State 32} (hst : Same s t) {back : Option (BitVec 32)}
    (hrest : ∀ s' t', Same s' t' → call' f (t.set (gpr 1) (ra' rest'.length)) = some t' →
      RunsAlike Same back (runCode E call ra rest s') (runCode E call' ra' rest' t')) :
    RunsAlike Same back (runCode E call ra (i :: rest) s) (runCode E call' ra' (i' :: rest') t) := by
  have hra : gpr 1 ∈ scratch := List.mem_cons_self
  have hsame : Same (s.set (gpr 1) (ra rest.length)) (t.set (gpr 1) (ra' rest'.length)) :=
    hV.scratchRight _ _ (hV.scratchLeft s t hst _ hra _) _ hra _
  rw [runCode_call hi, runCode_call hi']
  rcases hsim _ _ hsame with ⟨hs, ht⟩ | ⟨s', t', hs, ht, hst'⟩
  · rw [hs, ht]
    exact .inl ⟨rfl, rfl⟩
  · rw [hs, ht, Option.bind_some, Option.bind_some]
    rcases hrest s' t' hst' ht with ⟨hs', ht'⟩ | ⟨tr, s'', tr', t'', hs', ht', hst'', htr⟩
    · rw [hs', ht']
      exact .inl ⟨rfl, rfl⟩
    · rw [hs', ht']
      exact .inr ⟨_, _, _, _, rfl, rfl, hst'', .cons ⟨rfl, hsame⟩ htr⟩

/-- The address that a unit makes. -/
theorem runCode_address {u : CallUnit} (hu : UnitOk u) (rest : List MCInst) (s : State 32) :
    runCode E call ra (u.lui :: u.addi :: rest) s = runCode E call ra rest
      ((s.set u.temp (BitVec.ofInt 32 u.highValue)).set (gpr 12)
        (BitVec.ofInt 32 u.highValue + BitVec.ofInt 32 u.lowValue)) := by
  rw [runCode_plain hu.luiPlain (hu.lui E s), runCode_plain hu.addiPlain (hu.addi E _),
    State.get_set_self _ _ hu.temp]

/-- Units that are left as they are. -/
theorem units_same (hV : Visible Same) {us : List CallUnit}
    (hus : ∀ u ∈ us, UnitOk u ∧ Simulates Same (call u.target) (call' u.target)) {s t : State 32}
    (hst : Same s t) :
    RunsAlike Same none (runCode E call ra (us.flatMap CallUnit.insts) s)
      (runCode E call' ra (us.flatMap CallUnit.insts) t) := by
  induction us generalizing s t with
  | nil => exact .inr ⟨[], s, [], t, rfl, rfl, hst, .nil⟩
  | cons u us ih =>
    obtain ⟨hu, hsim⟩ := hus u List.mem_cons_self
    rw [List.flatMap_cons]
    show RunsAlike Same none (runCode E call ra (u.lui :: u.addi :: u.call :: _) s)
      (runCode E call' ra (u.lui :: u.addi :: u.call :: _) t)
    rw [runCode_address hu, runCode_address hu]
    refine runsAlike_call hV hsim hu.call hu.call (hV.set _ _ (hV.set s t hst _ _) _ _) ?_
    exact fun s' t' hst' _ => ih (fun v hv => hus v (List.mem_cons_of_mem _ hv)) hst'

/-- What the key says of units at one place: with the low parts of the first units. -/
def SameUnit (low low' : Int) (u v : CallUnit) : Prop :=
  u.target = v.target ∧ u.temp = v.temp ∧ u.highValue = v.highValue ∧ u.lowValue - low = v.lowValue - low'

theorem candidates_ne {r : MCPhysReg} (h : r ∈ candidates) :
    r ≠ gpr 12 ∧ r ≠ gpr 1 ∧ r ∈ scratch := by
  refine ⟨?_, ?_, List.mem_cons_of_mem _ h⟩
  · rintro rfl
    exact absurd h (by decide)
  · rintro rfl
    exact absurd h (by decide)

theorem not_le_zero_of_candidate {r : MCPhysReg} (h : r ∈ candidates) : ¬ r ≤ gpr 0 := by
  have hall : ∀ q ∈ candidates, ¬ q ≤ gpr 0 := by decide
  exact hall r h

/-- What is needed of the registers of a helper for a unit. -/
structure UnitSafe (Same : State 32 → State 32 → Prop) (call call' : MCSymbol → Meaning)
    (h : HelperRegisters) (u : CallUnit) : Prop where
  ok : UnitOk u
  temp : h.base ≠ u.temp ∧ h.ret ≠ u.temp
  sim : Simulates Same (call u.target) (call' u.target)
  base : Keeps h.base (call' u.target)
  ret : Keeps h.ret (call' u.target)

/-- The units behind the first one: the address is made from the base register. -/
theorem units_helper (hV : Visible Same) {h : HelperRegisters} (hbase : h.base ∈ candidates)
    (hret : h.ret ∈ candidates) {low low' high : Int} {back : BitVec 32} {us vs : List CallUnit}
    (hunits : List.Forall₂ (SameUnit low low') us vs)
    (hus : ∀ u ∈ us, UnitSafe Same call call' h u ∧ u.highValue = high) (hvs : ∀ v ∈ vs, UnitOk v)
    {s t : State 32} (hst : Same s t)
    (hb : t.get h.base = BitVec.ofInt 32 high + BitVec.ofInt 32 low) (hr : t.get h.ret = back) :
    RunsAlike Same (some back) (runCode E call ra (us.flatMap CallUnit.insts) s)
      (runCode E call' ra' (vs.flatMap (helperUnit h low') ++ [makeIndirectReturn h.ret]) t) := by
  obtain ⟨hb12, hb1, -⟩ := candidates_ne hbase
  obtain ⟨hr12, hr1, -⟩ := candidates_ne hret
  induction hunits generalizing s t with
  | nil =>
    rw [List.flatMap_nil, List.flatMap_nil, List.nil_append, runCode_return, hr]
    exact .inr ⟨[], s, [], t, rfl, rfl, hst, .nil⟩
  | @cons u v us vs huv _ ih =>
    obtain ⟨htarget, htemp, hhigh, hlow⟩ := huv
    obtain ⟨hu, rfl⟩ := hus u List.mem_cons_self
    have hv := hvs v List.mem_cons_self
    -- the address: the base and the difference of the low parts
    have hsum : BitVec.ofInt 32 u.highValue + BitVec.ofInt 32 low + BitVec.ofInt 32 (v.lowValue - low') =
        BitVec.ofInt 32 u.highValue + BitVec.ofInt 32 u.lowValue := by
      rw [← hlow, BitVec.add_assoc, ← BitVec.ofInt_add]
      congr 2
      omega
    have hnew : ∃ t₁, runCode E call' ra' ((v :: vs).flatMap (helperUnit h low') ++ [makeIndirectReturn h.ret]) t =
          runCode E call' ra' (v.call :: (vs.flatMap (helperUnit h low') ++ [makeIndirectReturn h.ret])) t₁ ∧
        Same ((s.set u.temp (BitVec.ofInt 32 u.highValue)).set (gpr 12)
          (BitVec.ofInt 32 u.highValue + BitVec.ofInt 32 u.lowValue)) t₁ ∧
        t₁.get h.base = t.get h.base ∧ t₁.get h.ret = t.get h.ret := by
      rw [List.flatMap_cons, helperUnit]
      by_cases h12 : v.temp = gpr 12
      · rw [if_neg (not_not.mpr h12)]
        refine ⟨t.set (gpr 12) (t.get h.base + BitVec.ofInt 32 (v.lowValue - low')), ?_, ?_, ?_, ?_⟩
        · exact runCode_plain (makeADDI_plain _ _ _) (exec_makeADDI t _ _ _) _
        · rw [htemp, h12, State.set_set, hb, hsum]
          exact hV.set s t hst _ _
        · exact State.get_set_of_ne _ _ hb12
        · exact State.get_set_of_ne _ _ hr12
      · rw [if_pos h12]
        have hbt : (t.set v.temp (BitVec.ofInt 32 v.highValue)).get h.base = t.get h.base :=
          State.get_set_of_ne _ _ (htemp ▸ hu.temp.1)
        have hrt : (t.set v.temp (BitVec.ofInt 32 v.highValue)).get h.ret = t.get h.ret :=
          State.get_set_of_ne _ _ (htemp ▸ hu.temp.2)
        refine ⟨(t.set v.temp (BitVec.ofInt 32 v.highValue)).set (gpr 12)
          (t.get h.base + BitVec.ofInt 32 (v.lowValue - low')), ?_, ?_, ?_, ?_⟩
        · rw [← hbt]
          show runCode E call' ra' (v.lui :: makeADDI (gpr 12) h.base (v.lowValue - low') :: v.call :: _) t = _
          rw [runCode_plain hv.luiPlain (hv.lui E t),
            runCode_plain (makeADDI_plain _ _ _) (exec_makeADDI _ _ _ _)]
          rfl
        · rw [hb, hsum, htemp, hhigh]
          exact hV.set _ _ (hV.set s t hst _ _) _ _
        · rw [State.get_set_of_ne _ _ hb12, hbt]
        · rw [State.get_set_of_ne _ _ hr12, hrt]
    obtain ⟨t₁, hcode, hst₁, hb₁, hr₁⟩ := hnew
    rw [hcode, List.flatMap_cons]
    show RunsAlike Same (some back) (runCode E call ra (u.lui :: u.addi :: u.call :: _) s) _
    rw [runCode_address hu.ok]
    refine runsAlike_call hV hu.sim hu.ok.call (htarget ▸ hv.call) hst₁ fun s' t' hst' ht' => ?_
    refine ih (fun w hw => hus w (List.mem_cons_of_mem _ hw)) (fun w hw => hvs w (List.mem_cons_of_mem _ hw))
      hst' ?_ ?_
    · rw [hu.base _ _ ht', State.get_set_of_ne _ _ hb1, hb₁, hb]
    · rw [hu.ret _ _ ht', State.get_set_of_ne _ _ hr1, hr₁, hr]

end Runs

/-! ## The program -/

section Program

variable {p : OutlinerProgram} {Same : State 32 → State 32 → Prop}

/-- What the pass has checked of a helper. -/
structure HelperOk (p : OutlinerProgram) (R front : CallRun) (h : HelperRegisters) : Prop where
  mem : front ∈ p.runs
  key : getRunKey front = getRunKey R
  base : h.base ∈ candidates
  ret : h.ret ∈ candidates
  ne : h.base ≠ h.ret
  safe : ∀ u ∈ front.units, h.base ≠ u.temp ∧ h.ret ≠ u.temp ∧
    ∃ c, p.clobbers u.target = some c ∧ c h.base = false ∧ c h.ret = false

variable {R front : CallRun} {h : HelperRegisters}

theorem helperOk (hhelper : p.helper R = some (front, h)) : HelperOk p R front h := by
  rw [OutlinerProgram.helper, helperOf] at hhelper
  split at hhelper
  · obtain ⟨front', hfront, hhelper⟩ := Option.bind_eq_some_iff.mp hhelper
    obtain ⟨h', hchoose, heq⟩ := Option.map_eq_some_iff.mp hhelper
    obtain ⟨rfl, rfl⟩ := Prod.mk.inj heq
    obtain ⟨hmem, hkey⟩ := List.mem_filter.mp (List.mem_of_head? hfront)
    have hpair := List.mem_of_find?_eq_some hchoose
    obtain ⟨b, hb, hpair⟩ := List.mem_flatMap.mp hpair
    obtain ⟨r, hr, rfl⟩ := List.mem_map.mp hpair
    have hsafe := List.find?_some hchoose
    rw [isSafePair, Bool.and_eq_true, Bool.and_eq_true, List.all_eq_true, List.all_eq_true] at hsafe
    obtain ⟨⟨hne, htemp⟩, hclob⟩ := hsafe
    refine ⟨hmem, by simpa using hkey, hb, hr, by simpa using hne, fun u hu => ?_⟩
    have ht := htemp u hu
    rw [Bool.and_eq_true, bne_iff_ne, bne_iff_ne] at ht
    have hfree := hclob u hu
    cases hc : p.clobbers u.target with
    | none =>
      rw [hc] at hfree
      exact absurd hfree Bool.false_ne_true
    | some c =>
      rw [hc, Option.any_some, Bool.and_eq_true, Bool.not_eq_true', Bool.not_eq_true'] at hfree
      exact ⟨Ne.symm ht.1, Ne.symm ht.2, c, rfl, hfree⟩
  · exact absurd hhelper (by simp)

/-- The units of the run are those of the helper. -/
theorem HelperOk.units (hok : HelperOk p R front h) (hR : RunOk p R) (hfront : RunOk p front) :
    List.Forall₂ (SameUnit R.baseLow front.baseLow) R.units front.units := by
  obtain ⟨hhigh, hmap⟩ := Prod.mk.inj hok.key
  have hpairs := forall₂_zip (forall₂_of_map_eq hmap.symm)
  refine hpairs.imp fun u v huv => ?_
  obtain ⟨heq, hmem⟩ := huv
  obtain ⟨htarget, heq⟩ := Prod.mk.inj heq
  obtain ⟨htemp, heq⟩ := Prod.mk.inj heq
  obtain ⟨-, hlow⟩ := Prod.mk.inj heq
  refine ⟨htarget, htemp, ?_, hlow⟩
  rw [hR.high u (List.of_mem_zip hmem).1, hfront.high v (List.of_mem_zip hmem).2]
  exact hhigh.symm

/-- What the key says holds of the units of the run as well. -/
theorem HelperOk.safeRun (hok : HelperOk p R front h) :
    ∀ u ∈ R.units, h.base ≠ u.temp ∧ h.ret ≠ u.temp ∧
      ∃ c, p.clobbers u.target = some c ∧ c h.base = false ∧ c h.ret = false := by
  obtain ⟨-, hmap⟩ := Prod.mk.inj hok.key
  intro u hu
  have hin : (u.target, u.temp, u.lui.opcode, u.lowValue - R.baseLow) ∈
      front.units.map fun u => (u.target, u.temp, u.lui.opcode, u.lowValue - front.baseLow) := by
    rw [hmap]
    exact List.mem_map.mpr ⟨u, hu, rfl⟩
  obtain ⟨v, hv, heq⟩ := List.mem_map.mp hin
  obtain ⟨htarget, heq⟩ := Prod.mk.inj heq
  obtain ⟨htemp, -⟩ := Prod.mk.inj heq
  rw [← htarget, ← htemp]
  exact hok.safe v hv

/-- The helper in the place of the run. -/
theorem helperRun_alike (hconf : Conforms p Same) (hR : RunOk p R) (hhelper : HelperOk p R front h)
    {call call' : MCSymbol → Meaning}
    (hcalls : ∀ u ∈ R.units, Simulates Same (call u.target) (call' u.target) ∧
      Keeps h.base (call' u.target) ∧ Keeps h.ret (call' u.target)) {s t : State 32}
    (hst : Same s t) :
    RunsAlike Same (some (p.after R)) (p.originalRun call R s) (p.helperRun call' R front h t) := by
  have hV := hconf.visible
  have hfront := runOk_of_mem hhelper.mem
  obtain ⟨hb12, hb1, hbs⟩ := candidates_ne hhelper.base
  obtain ⟨hr12, hr1, hrs⟩ := candidates_ne hhelper.ret
  have hsafe : ∀ u ∈ R.units, UnitSafe Same call call' h u ∧ u.highValue = R.high := fun u hu =>
    ⟨⟨(hR.units u hu).1, ⟨(hhelper.safeRun u hu).1, (hhelper.safeRun u hu).2.1⟩, (hcalls u hu).1,
      (hcalls u hu).2.1, (hcalls u hu).2.2⟩, hR.high u hu⟩
  have hpairs := hhelper.units hR hfront
  have hvs : ∀ v ∈ front.units, UnitOk v := fun v hv => (hfront.units v hv).1
  rw [OutlinerProgram.originalRun, OutlinerProgram.helperRun, helperBody]
  have hlow : R.units.head?.map CallUnit.lowValue = some R.baseLow := by
    have hne := hR.nonempty
    rw [CallRun.baseLow]
    cases hunits : R.units with
    | nil => exact absurd hunits hne
    | cons u us => rfl
  cases hunits : R.units with
  | nil => exact absurd hunits hR.nonempty
  | cons u us =>
    rw [hunits] at hpairs hsafe hlow
    cases hvunits : front.units with
    | nil =>
      rw [hvunits] at hpairs
      cases hpairs
    | cons v vs =>
      rw [hvunits] at hpairs hvs
      obtain ⟨htarget, htemp, hhigh, -⟩ := (List.forall₂_cons.mp hpairs).1
      obtain ⟨hu, huhigh⟩ := hsafe u List.mem_cons_self
      have hulow : u.lowValue = R.baseLow := Option.some.inj hlow
      rw [List.head?_cons, List.head?_cons, List.tail_cons, List.flatMap_cons]
      show RunsAlike Same _ (runCode p.env call (p.ra R) (u.lui :: u.addi :: u.call :: _) s)
        ((runCode p.env call' (p.ra R) [u.lui, u.addi] t).bind _)
      rw [runCode_address hu.ok, runCode_address hu.ok, runCode, Option.bind_some]
      have hv := hvs v List.mem_cons_self
      -- the state in front of the first call of the helper
      have hset := hV.set _ _ (hV.set s t hst u.temp (BitVec.ofInt 32 u.highValue)) (gpr 12)
        (BitVec.ofInt 32 u.highValue + BitVec.ofInt 32 u.lowValue)
      generalize hs₁ : (s.set u.temp (BitVec.ofInt 32 u.highValue)).set (gpr 12)
        (BitVec.ofInt 32 u.highValue + BitVec.ofInt 32 u.lowValue) = s₁ at hset
      generalize ht₁ : (t.set u.temp (BitVec.ofInt 32 u.highValue)).set (gpr 12)
        (BitVec.ofInt 32 u.highValue + BitVec.ofInt 32 u.lowValue) = t₁ at hset
      have h12 : t₁.get (gpr 12) = BitVec.ofInt 32 R.high + BitVec.ofInt 32 R.baseLow := by
        rw [← ht₁, State.get_set_self _ _ (by decide), huhigh, hulow]
      show RunsAlike Same _ _ (runCode p.env call' (p.helperRa front) (makeADDI h.base (gpr 12) 0 ::
        makeADDI h.ret (gpr 1) 0 :: v.call :: (vs.flatMap (helperUnit h front.baseLow) ++
          [makeIndirectReturn h.ret])) (t₁.set (gpr 1) (p.after R)))
      rw [runCode_plain (makeADDI_plain _ _ _) (exec_makeADDI _ _ _ _),
        runCode_plain (makeADDI_plain _ _ _) (exec_makeADDI _ _ _ _)]
      have h1 : gpr 1 ∈ scratch := List.mem_cons_self
      refine runsAlike_call hV hu.sim hu.ok.call (htarget ▸ hv.call)
        (hV.scratchRight _ _ (hV.scratchRight _ _ (hV.scratchRight _ _ hset _ h1 _) _ hbs _) _ hrs _) ?_
      intro s' t' hst' ht'
      refine units_helper hV hhelper.base hhelper.ret (List.forall₂_cons.mp hpairs).2
        (fun w hw => hsafe w (List.mem_cons_of_mem _ hw)) (fun w hw => hvs w (List.mem_cons_of_mem _ hw))
        hst' ?_ ?_
      · rw [hu.base _ _ ht', State.get_set_of_ne _ _ hb1, State.get_set_of_ne _ _ hhelper.ne,
          State.get_set_self _ _ (not_le_zero_of_candidate hhelper.base), State.get_set_of_ne _ _ (by decide),
          h12]
        exact BitVec.add_zero _
      · rw [hu.ret _ _ ht', State.get_set_of_ne _ _ hr1,
          State.get_set_self _ _ (not_le_zero_of_candidate hhelper.ret),
          State.get_set_of_ne _ _ (Ne.symm hb1), State.get_set_self _ _ (by decide)]
        exact BitVec.add_zero _

/-- A register that no function writes that a function reaches, and no helper of their runs. -/
def Quiet (p : OutlinerProgram) (f : MCSymbol) (x : MCPhysReg) : Prop :=
  ∀ g, p.Reaches f g → (∃ F ∈ p.functions, F.symbol = g) ∧
    (∀ i, p.Has g i → writesReg p.info i x = false) ∧
    ∀ R ∈ p.runs, R.function = g → ∀ front h, p.helper R = some (front, h) → x ≠ h.base ∧ x ≠ h.ret

/-- **A quiet register is kept**, however deep the calls are. -/
theorem callAfter_keeps (hconf : Conforms p Same) {x : MCPhysReg} (n : Nat) {f : MCSymbol}
    (h : Quiet p f x) : Keeps x (p.callAfter n f) := by
  induction n generalizing f with
  | zero => exact fun s s' hs => absurd hs (by simp [OutlinerProgram.callAfter])
  | succ n ih =>
    obtain ⟨hknown, hwrites, -⟩ := h f .refl
    have hcallee : ∀ g, p.calls f g → Keeps x (p.callAfter n g) :=
      fun g hg => ih fun k hk => h k (.head hg hk)
    refine hconf.frame f _ _ x hknown hwrites hcallee fun R hR hfun s s' hs => ?_
    subst hfun
    have hok := runOk_of_mem hR
    have hunit : ∀ u ∈ R.units, UnitOk u ∧ (x ≠ u.temp ∧ x ≠ gpr 12 ∧ x ≠ gpr 1) ∧
        Keeps x (p.callAfter n u.target) := by
      intro u hu
      obtain ⟨huok, hl, ha, hc⟩ := hok.units u hu
      exact ⟨huok, huok.writes p.info x (hwrites _ hl) (hwrites _ ha) (hwrites _ hc),
        hcallee _ (hconf.targets R hR u hu)⟩
    rw [OutlinerProgram.runAfter] at hs
    cases hhelper : p.helper R with
    | none =>
      rw [hhelper] at hs
      obtain ⟨q, hq, rfl⟩ := Option.map_eq_some_iff.mp hs
      refine runCode_keeps (fun i hi => ?_) hq
      obtain ⟨u, hu, hi⟩ := List.mem_flatMap.mp hi
      obtain ⟨huok, hx, hkeeps⟩ := hunit u hu
      exact huok.leaves hx hkeeps i hi
    | some fh =>
      obtain ⟨front, hregs⟩ := fh
      rw [hhelper] at hs
      obtain ⟨q, hq, hs⟩ := Option.bind_eq_some_iff.mp hs
      split at hs
      · obtain rfl := Option.some.inj hs
        rw [OutlinerProgram.helperRun] at hq
        obtain ⟨q₁, hq₁, hq⟩ := Option.bind_eq_some_iff.mp hq
        have hhok := helperOk hhelper
        have hfront := runOk_of_mem hhok.mem
        obtain ⟨u₀, hu₀⟩ := List.exists_mem_of_ne_nil _ hok.nonempty
        have hx := (hunit u₀ hu₀).2.1.2
        have hpairs := forall₂_zip (hhok.units hok hfront)
        -- the units of the helper have the targets and registers of those of the run
        have hfrontUnit : ∀ v ∈ front.units, x ≠ v.temp ∧ Keeps x (p.callAfter n v.target) := by
          intro v hv
          obtain ⟨u, hu, huv, -⟩ := exists_of_forall₂_right hpairs hv
          obtain ⟨-, hux, hkeeps⟩ := hunit u hu
          exact ⟨huv.2.1 ▸ hux.1, huv.1 ▸ hkeeps⟩
        have hbody := runCode_keeps (helperBody_leaves (fun v hv => (hfront.units v hv).1)
          (fun v hv => (hfrontUnit v hv).1) hx ((h R.function .refl).2.2 R hR rfl front hregs hhelper)
          fun v hv => (hfrontUnit v hv).2) hq
        have hfirst : ∀ i ∈ R.units.head?.toList.flatMap fun u => [u.lui, u.addi],
            LeavesReg p.env (p.callAfter n) x i := by
          intro i hi
          obtain ⟨u, hu, hi⟩ := List.mem_flatMap.mp hi
          obtain ⟨huok, hux, hkeeps⟩ := hunit u (List.mem_of_head? (Option.mem_toList.mp hu))
          refine huok.leaves hux hkeeps i ?_
          simp only [List.mem_cons, List.not_mem_nil, or_false] at hi
          rcases hi with rfl | rfl
          · exact List.mem_cons_self
          · exact List.mem_cons_of_mem _ List.mem_cons_self
        rw [hbody, State.get_set_of_ne _ _ hx.2, runCode_keeps hfirst hq₁]
      · exact absurd hs (by simp)

/-- The registers of a helper are quiet in the functions that its units call. -/
theorem quiet_of_undisturbed (hconf : Conforms p Same) (hclean : Undisturbed p) (hR : R ∈ p.runs)
    (hhelper : p.helper R = some (front, h)) {u : CallUnit} (hu : u ∈ R.units) :
    Quiet p u.target h.base ∧ Quiet p u.target h.ret := by
  obtain ⟨-, -, c, hc, hcb, hcr⟩ := (helperOk hhelper).safeRun u hu
  have hwrites : ∀ g, p.Reaches u.target g → ∀ i, p.Has g i →
      writesReg p.info i h.base = false ∧ writesReg p.info i h.ret = false := by
    intro g hg i hi
    cases hcall : isCall p.info i with
    | true => exact (hclean R hR front h hhelper u hu g hg).1 i hi hcall
    | false =>
      exact ⟨(hconf.analysed _ c _ hc hcb g hg).2 i hi hcall,
        (hconf.analysed _ c _ hc hcr g hg).2 i hi hcall⟩
  refine ⟨fun g hg => ⟨(hconf.analysed _ c _ hc hcb g hg).1, fun i hi => (hwrites g hg i hi).1, ?_⟩,
    fun g hg => ⟨(hconf.analysed _ c _ hc hcb g hg).1, fun i hi => (hwrites g hg i hi).2, ?_⟩⟩
  · intro R' hR' hfun front' h' hh'
    obtain ⟨hbb, -, hrb, -⟩ := (hclean R hR front h hhelper u hu g hg).2 R' hR' hfun front' h' hh'
    exact ⟨Ne.symm hbb, Ne.symm hrb⟩
  · intro R' hR' hfun front' h' hh'
    obtain ⟨-, hbr, -, hrr⟩ := (hclean R hR front h hhelper u hu g hg).2 R' hR' hfun front' h' hh'
    exact ⟨Ne.symm hbr, Ne.symm hrr⟩

/-- Every function does after the pass what it did, seen from outside. -/
theorem callAfter_simulates (hconf : Conforms p Same) (hclean : Undisturbed p) (n : Nat)
    (f : MCSymbol) :
    Simulates Same (p.callBefore n f) (p.callAfter n f) := by
  induction n generalizing f with
  | zero => exact fun s t _ => .inl ⟨rfl, rfl⟩
  | succ n ih =>
    refine hconf.congr f _ _ _ _ (fun g _ => ih g) fun R hR _ s t hst => ?_
    have hok := runOk_of_mem hR
    rw [OutlinerProgram.runAfter]
    cases hhelper : p.helper R with
    | none =>
      rcases units_same hconf.visible (fun u hu => ⟨(hok.units u hu).1, ih u.target⟩) hst with
        ⟨hs, ht⟩ | ⟨tr, s', tr', t', hs, ht, hst', -⟩
      · exact .inl ⟨by rw [OutlinerProgram.runBefore, OutlinerProgram.originalRun, hs]; rfl,
          by simp only [OutlinerProgram.runBefore, OutlinerProgram.originalRun, ht]; rfl⟩
      · exact .inr ⟨s', t', by rw [OutlinerProgram.runBefore, OutlinerProgram.originalRun, hs]; rfl,
          by simp only [OutlinerProgram.runBefore, OutlinerProgram.originalRun, ht]; rfl, hst'⟩
    | some fh =>
      obtain ⟨front, h⟩ := fh
      have hcalls : ∀ u ∈ R.units, Simulates Same (p.callBefore n u.target) (p.callAfter n u.target) ∧
          Keeps h.base (p.callAfter n u.target) ∧ Keeps h.ret (p.callAfter n u.target) := fun u hu =>
        have hquiet := quiet_of_undisturbed hconf hclean hR hhelper hu
        ⟨ih u.target, callAfter_keeps hconf n hquiet.1, callAfter_keeps hconf n hquiet.2⟩
      rcases helperRun_alike hconf hok (helperOk hhelper) hcalls hst with
        ⟨hs, ht⟩ | ⟨tr, s', tr', t', hs, ht, hst', -⟩
      · exact .inl ⟨by rw [OutlinerProgram.runBefore, hs]; rfl, by simp only [ht]; rfl⟩
      · refine .inr ⟨s', t', by rw [OutlinerProgram.runBefore, hs]; rfl, ?_, hst'⟩
        simp only [ht, Option.bind_some, if_true]

end Program

/-! ## What becomes of a block -/

/-- The units behind the first one are erased. -/
theorem replaceRun_spec (helper : MCSymbol) {R : CallRun} {u : CallUnit} {us : List CallUnit}
    {pre post : List MCInst} (hunits : R.units = u :: us) (hstart : R.startIndex = pre.length) :
    replaceRun helper R (pre ++ R.units.flatMap CallUnit.insts ++ post) =
      pre ++ [u.lui, u.addi, makeDirectCall helper] ++ post := by
  have herase : ∀ (us : List CallUnit) (A B : List MCInst) (k : Nat), A.length = k + 3 →
      (List.range' 1 us.length).foldr
        (fun i insts => ((insts.eraseIdx (k + 3 * i + 2)).eraseIdx (k + 3 * i + 1)).eraseIdx (k + 3 * i))
        (A ++ us.flatMap CallUnit.insts ++ B) = A ++ B := by
    intro us
    -- the last unit goes first
    induction us using List.reverseRecOn with
    | nil => exact fun A B k _ => by rw [List.flatMap_nil, List.append_nil]; rfl
    | append_singleton us v ih =>
      intro A B k hA
      have hlen : (A ++ us.flatMap CallUnit.insts).length = k + 3 * (1 + us.length) := by
        have hsum : ∀ vs : List CallUnit, (vs.flatMap CallUnit.insts).length = 3 * vs.length := by
          intro vs
          induction vs with
          | nil => rfl
          | cons w vs ih => rw [List.flatMap_cons, List.length_append, ih, List.length_cons]; simp [CallUnit.insts]; omega
        rw [List.length_append, hA, hsum]
        omega
      rw [List.length_append, List.length_singleton, List.range'_concat, List.foldr_append,
        List.flatMap_append, List.flatMap_singleton, Nat.one_mul]
      have hsplit : A ++ (us.flatMap CallUnit.insts ++ v.insts) ++ B =
          ((A ++ us.flatMap CallUnit.insts) ++ [v.lui, v.addi]) ++ v.call :: B := by
        simp [CallUnit.insts]
      rw [List.foldr_cons, List.foldr_nil, hsplit,
        eraseIdx_middle (k := k + 3 * (1 + us.length) + 2) (by rw [List.length_append, hlen]; rfl),
        List.append_assoc, List.cons_append, List.cons_append, List.nil_append,
        show A ++ us.flatMap CallUnit.insts ++ v.lui :: v.addi :: B =
          ((A ++ us.flatMap CallUnit.insts) ++ [v.lui]) ++ v.addi :: B by simp,
        eraseIdx_middle (k := k + 3 * (1 + us.length) + 1) (by rw [List.length_append, hlen]; rfl),
        List.append_assoc, List.singleton_append,
        eraseIdx_middle (k := k + 3 * (1 + us.length)) hlen.symm]
      exact ih A B k hA
  rw [replaceRun, hunits, hstart, List.flatMap_cons]
  have hset : (pre ++ (u.insts ++ us.flatMap CallUnit.insts) ++ post).set (pre.length + 2)
      (makeDirectCall helper) =
        (pre ++ [u.lui, u.addi, makeDirectCall helper]) ++ us.flatMap CallUnit.insts ++ post := by
    have hmid := set_middle (A := pre ++ [u.lui, u.addi]) (B := us.flatMap CallUnit.insts ++ post)
      (x := u.call) (y := makeDirectCall helper) (k := pre.length + 2) (by simp)
    simp only [CallUnit.insts, List.append_assoc, List.cons_append, List.nil_append] at hmid ⊢
    exact hmid
  rw [hset, List.length_cons, Nat.add_sub_cancel]
  exact herase us _ post pre.length (by simp)

/-! ## Small programs -/

/-- States that agree but for the scratch registers. -/
def SameVisible (s t : State 32) : Prop := (∀ r, r ∉ scratch → s.get r = t.get r) ∧ s.mem = t.mem

theorem sameVisible_visible : Visible SameVisible where
  get s t h := h.1
  set s t h r v := by
    refine ⟨fun q hq => ?_, by rw [State.mem_set, State.mem_set, h.2]⟩
    by_cases hqr : q = r
    · subst hqr
      by_cases hz : q ≤ gpr 0
      · rw [State.get_of_le _ hz, State.get_of_le _ hz]
      · rw [State.get_set_self _ _ hz, State.get_set_self _ _ hz]
    · rw [State.get_set_of_ne _ _ hqr, State.get_set_of_ne _ _ hqr]
      exact h.1 q hq
  scratchLeft s t h r hr v := by
    refine ⟨fun q hq => ?_, by rw [State.mem_set, h.2]⟩
    have hqr : q ≠ r := fun heq => hq (heq ▸ hr)
    rw [State.get_set_of_ne _ _ hqr]
    exact h.1 q hq
  scratchRight s t h r hr v := by
    refine ⟨fun q hq => ?_, by rw [State.mem_set, h.2]⟩
    have hqr : q ≠ r := fun heq => hq (heq ▸ hr)
    rw [State.get_set_of_ne _ _ hqr]
    exact h.1 q hq

/-- Four units `lui a5, 1; addi a2, a5, k; jal ra, target`. -/
def fourCalls (target : MCSymbol) : List MCInst :=
  [0, 1, 2, 3].flatMap fun k =>
    [⟨.lui, [.reg (gpr 15), .imm 1], false⟩, makeADDI (gpr 12) (gpr 15) k, makeDirectCall target]

/-- `addi a0, a0, 1`. -/
def leafInst : MCInst := makeADDI (gpr 10) (gpr 10) 1

/-- `lui a5, 1; addi a2, a5, k; jal ra, 0`. -/
def callUnit (k : Int) : CallUnit :=
  ⟨⟨.lui, [.reg (gpr 15), .imm 1], false⟩, makeADDI (gpr 12) (gpr 15) k, makeDirectCall 0, 0, gpr 15, 1, k⟩

theorem replaceRun_spec_two : replaceRun 5 ⟨1, 0, 1, [callUnit 0, callUnit 1]⟩
    ([leafInst] ++ [callUnit 0, callUnit 1].flatMap CallUnit.insts ++ [leafInst]) =
      [leafInst] ++ [(callUnit 0).lui, (callUnit 0).addi, makeDirectCall 5] ++ [leafInst] :=
  replaceRun_spec 5 rfl rfl

/-- A program of functions that are a leaf or one run; the analysis finds `a0`, `a2` and `a5`. -/
def callProgram (fs : List OutlinerFunction) : OutlinerProgram where
  functions := fs
  info := noOthers
  env := zeroingOthers noOthers fun _ => 0
  minCalls := 4
  clobbers f := if fs.any (·.symbol == f) then some (· ∈ [gpr 10, gpr 12, gpr 15]) else none
  calls f g := ∃ F ∈ fs, F.symbol = f ∧ ∃ insts ∈ F.blocks, ∃ i ∈ insts, directCall i = some g
  body f _ run :=
    match (collectRuns 4 fs).find? (·.function == f) with
    | some R => run R
    | none => fun s => some (s.set (gpr 10) (s.get (gpr 10) + 1))
  ra _ k := BitVec.ofNat 32 k
  helperRa _ k := BitVec.ofNat 32 (100 + k)
  after R := BitVec.ofNat 32 (1000 + R.function)

/-- Calls go to functions of the program, other instructions set `a0`, `a2` or `a5`, and a function
without a run is a leaf. -/
structure SmallProgram (fs : List OutlinerFunction) : Prop where
  closed : ∀ F ∈ fs, ∀ insts ∈ F.blocks, ∀ i ∈ insts, ∀ g ∈ directCall i, fs.any (·.symbol == g) = true
  writes : ∀ F ∈ fs, ∀ insts ∈ F.blocks, ∀ i ∈ insts,
    (isCall noOthers i || (definedRegs noOthers i).all (· ∈ [gpr 10, gpr 12, gpr 15])) = true
  leaf : ∀ F ∈ fs, (collectRuns 4 fs).find? (·.function == F.symbol) = none →
    ∃ insts ∈ F.blocks, leafInst ∈ insts

theorem callProgram_conforms {fs : List OutlinerFunction} (h : SmallProgram fs) :
    Conforms (callProgram fs) SameVisible where
  visible := sameVisible_visible
  congr f call call' run run' _ hruns := by
    simp only [callProgram]
    cases hfind : (collectRuns 4 fs).find? (·.function == f) with
    | some R => exact hruns R (List.mem_of_find?_eq_some hfind) (by simpa using List.find?_some hfind)
    | none =>
      intro s t hst
      refine .inr ⟨_, _, rfl, rfl, ?_⟩
      rw [sameVisible_visible.get s t hst (gpr 10) (by decide)]
      exact sameVisible_visible.set s t hst _ _
  frame f call run x hknown hwrites _ hruns := by
    simp only [callProgram]
    cases hfind : (collectRuns 4 fs).find? (·.function == f) with
    | some R => exact hruns R (List.mem_of_find?_eq_some hfind) (by simpa using List.find?_some hfind)
    | none =>
      obtain ⟨F, hF, rfl⟩ := hknown
      obtain ⟨insts, hinsts, hleaf⟩ := h.leaf F hF hfind
      intro s s' hs
      obtain rfl := Option.some.inj hs
      refine State.get_set_of_ne _ _ ?_
      rintro rfl
      have hfree : writesReg noOthers leafInst (gpr 10) = false :=
        hwrites leafInst ⟨F, hF, rfl, insts, hinsts, hleaf⟩
      exact absurd hfree (by decide)
  targets R hR u hu := by
    obtain ⟨hok, -, -, F, hF, hsymbol, insts, hinsts, hcall⟩ := (runOk_of_mem hR).units u hu
    exact ⟨F, hF, hsymbol, insts, hinsts, u.call, hcall, hok.call⟩
  analysed f c r hc hr g hg := by
    have hany : ∀ k, fs.any (·.symbol == k) = true → ∃ F ∈ fs, F.symbol = k := by
      intro k hk
      obtain ⟨F, hF, hsymbol⟩ := List.any_eq_true.mp hk
      exact ⟨F, hF, by simpa using hsymbol⟩
    simp only [callProgram] at hc
    split at hc
    next hknown =>
      obtain rfl := Option.some.inj hc
      refine ⟨?_, ?_⟩
      · cases hg with
        | refl => exact hany f hknown
        | tail _ hstep =>
          obtain ⟨F, hF, -, insts, hinsts, i, hi, hcall⟩ := hstep
          exact hany g (h.closed F hF insts hinsts i hi g hcall)
      · rintro i ⟨F, hF, -, insts, hinsts, hi⟩ hcall
        rw [← Bool.not_eq_true]
        intro hw
        have hdefs := h.writes F hF insts hinsts i hi
        rw [show isCall noOthers i = false from hcall, Bool.false_or, List.all_eq_true] at hdefs
        exact absurd (hdefs r (mem_definedRegs.mpr hw)) (by simpa using hr)
    · exact absurd hc (by simp)

/-- A leaf, and two functions that call it four times. -/
def flatFunctions : List OutlinerFunction :=
  [⟨0, [[leafInst]]⟩, ⟨1, [fourCalls 0]⟩, ⟨2, [fourCalls 0]⟩]

/-- And two functions that call one of these four times. -/
def nestedFunctions : List OutlinerFunction :=
  flatFunctions ++ [⟨3, [fourCalls 1]⟩, ⟨4, [fourCalls 1]⟩]

theorem flat_small : SmallProgram flatFunctions := ⟨by decide, by decide, by decide⟩

theorem nested_small : SmallProgram nestedFunctions := ⟨by decide, by decide, by decide⟩

theorem flat_undisturbed : Undisturbed (callProgram flatFunctions) := by
  intro R hR front h _ u hu g hg
  have htarget : ∀ R ∈ collectRuns 4 flatFunctions, ∀ u ∈ R.units, u.target = 0 := by decide
  have hzero : g = 0 := by
    rw [htarget R hR u hu] at hg
    cases hg.cases_head with
    | inl heq => exact heq.symm
    | inr hstep =>
      obtain ⟨k, ⟨F, hF, hsymbol, insts, hinsts, i, hi, hcall⟩, -⟩ := hstep
      have hnone : ∀ F ∈ flatFunctions, F.symbol = 0 → ∀ insts ∈ F.blocks, ∀ i ∈ insts,
          directCall i = none := by decide
      exact absurd ((hnone F hF hsymbol insts hinsts i hi).symm.trans hcall) (by simp)
  subst hzero
  refine ⟨fun i hi hcall => ?_, fun R' hR' hfun => ?_⟩
  · obtain ⟨F, hF, hsymbol, insts, hinsts, hi⟩ := hi
    have hplain : ∀ F ∈ flatFunctions, F.symbol = 0 → ∀ insts ∈ F.blocks, ∀ i ∈ insts,
        isCall noOthers i = false := by decide
    exact absurd ((hplain F hF hsymbol insts hinsts i hi).symm.trans hcall) Bool.false_ne_true
  · have hfunction : ∀ R ∈ collectRuns 4 flatFunctions, R.function ≠ 0 := by decide
    exact absurd hfun (hfunction R' hR')

end RvLlvm.Bolt
