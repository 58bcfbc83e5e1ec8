import Mathlib.Logic.Relation
import RvLlvm.Bolt.Exec

/-!
# Forwarding stack stores

Model of `RISCVStackMemForward` (`bolt/lib/Passes/RISCV/RISCVStackMemForward.cpp`). A block is the
vector of its instructions and iterators are places in it, so that erasing an instruction moves what
is behind it under the iterators that are kept. A place outside the vector has no result.

* `step_spec`: one turn of the loop, in a state that describes the machine, replaces the instruction
  by one that does the same and describes the machine behind it.
* `forwardBlock_run`: the block that is left runs as the block that was read, when no turn deletes a
  store, passes a call that the tables do not show, forwards a word into a wider register or stores
  far from the stack pointer (`Clean`).
-/

namespace RvLlvm.Bolt

open Support

/-! ## Slots -/

/-- `StackSlot`. -/
structure StackSlot where
  offset : Int
  size : Nat
  deriving DecidableEq

/-- `StackAccess`. -/
structure StackAccess where
  slot : StackSlot
  reg : MCPhysReg
  isLoad : Bool
  canForwardWord : Bool
  isFullWordLoad : Bool
  deriving DecidableEq

/-- `PendingLoad`. -/
structure PendingLoad where
  inst : Nat
  dstReg : MCPhysReg
  deriving DecidableEq

/-- `StoredValue`. -/
structure StoredValue where
  inst : Nat
  srcReg : MCPhysReg
  srcAvailable : Bool
  loads : List PendingLoad
  deriving DecidableEq

/-- `rangesOverlap`. -/
def rangesOverlap (a b : StackSlot) : Bool :=
  decide (a.offset < b.offset + b.size ∧ b.offset < a.offset + a.size)

/-- `StackBaseMap`: registers at a known distance from the stack pointer. -/
abbrev StackBaseMap := List (MCPhysReg × Int)

/-- `std::map<StackSlot, StoredValue>`; no step depends on its order. -/
abbrev StoreMap := List (StackSlot × StoredValue)

/-- A key taken out of a map. -/
def eraseKey {α β : Type} [DecidableEq α] (m : List (α × β)) (k : α) : List (α × β) :=
  m.filter fun p => p.1 ≠ k

/-- The switch of `getStackAccess`: the size, and the flags of a load or a store. -/
def accessKind : Opcode → Option (Nat × Bool × Bool × Bool)
  | .lb | .lbu => some (1, true, false, false)
  | .lh | .lhu => some (2, true, false, false)
  | .lw => some (4, true, true, true)
  | .cLw | .cLwsp => some (4, true, true, false)
  | .sb => some (1, false, false, false)
  | .sh => some (2, false, false, false)
  | .sw | .cSw | .cSwsp => some (4, false, true, false)
  | _ => none

/-- `getStackAccess`. -/
def getStackAccess (i : MCInst) (bases : StackBaseMap) : Option StackAccess :=
  match accessKind i.opcode, i.operands with
  | some (size, isLoad, canForwardWord, isFullWordLoad), .reg r :: .reg b :: .imm v :: _ =>
    (bases.lookup b).map fun o => ⟨⟨o + v, size⟩, r, isLoad, canForwardWord, isFullWordLoad⟩
  | _, _ => none

/-- `makeMove`. -/
def makeMove (rd rs : MCPhysReg) : MCInst := ⟨.addi, [.reg rd, .reg rs, .imm 0], false⟩

/-- `getStackBaseDef`. -/
def getStackBaseDef (i : MCInst) (bases : StackBaseMap) : Option (MCPhysReg × Int) :=
  match i.opcode, i.operands with
  | .addi, .reg d :: .reg b :: .imm v :: _ =>
    (bases.lookup b).bind fun o => if d = gpr 0 then none else some (d, o + v)
  | _, _ => none

/-- `invalidateSrcReg`. -/
def invalidateSrcReg (stores : StoreMap) (r : MCPhysReg) : StoreMap :=
  if r = 0 then stores
  else stores.map fun p => if p.2.srcReg = r then (p.1, { p.2 with srcAvailable := false }) else p

/-- `removeOverlappingReads`. -/
def removeOverlappingReads (stores : StoreMap) (slot : StackSlot) : StoreMap :=
  stores.filter fun p => !rangesOverlap p.1 slot

/-- `Loads.push_back` for the value held in a slot. -/
def pushLoad (stores : StoreMap) (slot : StackSlot) (l : PendingLoad) : StoreMap :=
  stores.map fun p => if p.1 = slot then (p.1, { p.2 with loads := p.2.loads ++ [l] }) else p

/-- `forwardPendingLoads`. -/
def forwardPendingLoads (insts : List MCInst) (src : MCPhysReg) :
    List PendingLoad → Option (List MCInst)
  | [] => some insts
  | l :: rest =>
    if l.inst < insts.length then
      forwardPendingLoads
        (if l.dstReg = src then insts.eraseIdx l.inst else insts.set l.inst (makeMove l.dstReg src))
        src rest
    else none

/-! ## The loop -/

/-- `-riscv-stack-mem-forward` and `-riscv-stack-mem-dse`. -/
structure StackOpts where
  forward : Bool
  dse : Bool

/-- The state of the loop over a block; `pos` is `II`. -/
structure StackPass where
  insts : List MCInst
  pos : Nat
  stores : StoreMap
  bases : StackBaseMap

section Pass

variable (I : MCInstrInfo) (o : StackOpts)

/-- The store in `stores` is deleted by one to `slot`. -/
def deletes (slot : StackSlot) (p : StackSlot × StoredValue) : Bool :=
  o.dse && p.1 == slot && (p.2.loads.isEmpty || o.forward)

/-- The loop over the held stores at a store to `slot`. -/
def overwrite (slot : StackSlot) (insts : List MCInst) : StoreMap → Option (List MCInst × StoreMap)
  | [] => some (insts, [])
  | p :: rest =>
    if !rangesOverlap p.1 slot then (overwrite slot insts rest).map fun q => (q.1, p :: q.2)
    else if deletes o slot p then
      (forwardPendingLoads insts p.2.srcReg p.2.loads).bind fun insts =>
        if p.2.inst < insts.length then overwrite slot (insts.eraseIdx p.2.inst) rest else none
    else overwrite slot insts rest

/-- The held store whose register a load may take. -/
def reusable (stores : StoreMap) (a : StackAccess) : Option StoredValue :=
  (stores.lookup a.slot).filter fun v => o.forward && a.canForwardWord && v.srcAvailable

/-- A load from a stack slot. -/
def stepLoad (t : StackPass) (a : StackAccess) : StackPass :=
  match reusable o t.stores a with
  | some v =>
    let kept := fun stores => if a.reg = v.srcReg then stores else invalidateSrcReg stores a.reg
    if a.isFullWordLoad then
      { insts :=
          if a.reg = v.srcReg then t.insts.eraseIdx t.pos
          else t.insts.set t.pos (makeMove a.reg v.srcReg)
        pos := if a.reg = v.srcReg then t.pos else t.pos + 1
        stores := kept t.stores
        bases := eraseKey t.bases a.reg }
    else
      { insts := t.insts
        pos := t.pos + 1
        stores := kept (pushLoad t.stores a.slot ⟨t.pos, a.reg⟩)
        bases := eraseKey t.bases a.reg }
  | none =>
    { insts := t.insts
      pos := t.pos + 1
      stores := invalidateSrcReg (removeOverlappingReads t.stores a.slot) a.reg
      bases := eraseKey t.bases a.reg }

/-- One turn of the loop of `runOnFunction` over a block. -/
def step (t : StackPass) : Option StackPass :=
  t.insts[t.pos]?.bind fun i =>
    let access := getStackAccess i t.bases
    if isBarrierDesc (I.get i.opcode) ||
        (access.isNone && ((I.get i.opcode).mayLoad || (I.get i.opcode).mayStore)) ||
        writesReg I i (gpr 2) then
      some { t with pos := t.pos + 1, stores := [], bases := [(gpr 2, 0)] }
    else
      match access with
      | some a =>
        if a.isLoad then some (stepLoad o t a)
        else
          (overwrite o a.slot t.insts t.stores).map fun q =>
            { t with insts := q.1, pos := t.pos + 1, stores := (a.slot, ⟨t.pos, a.reg, true, []⟩) :: q.2 }
      | none =>
        let bases := (definedRegs I i).foldl eraseKey t.bases
        some
          { t with
            pos := t.pos + 1
            stores := (definedRegs I i).foldl invalidateSrcReg t.stores
            bases :=
              match getStackBaseDef i t.bases with
              | some (r, offset) => (r, offset) :: eraseKey bases r
              | none => bases }

/-- The loop; it ends where `II` is the end of the vector. -/
def loop : Nat → StackPass → Option (List MCInst)
  | 0, _ => none
  | n + 1, t => if t.pos = t.insts.length then some t.insts else (step I o t).bind (loop n)

/-- The loop at the beginning of a block. -/
def StackPass.start (insts : List MCInst) : StackPass := ⟨insts, 0, [], [(gpr 2, 0)]⟩

/-- `runOnFunction` for one block. -/
def forwardBlock (insts : List MCInst) : Option (List MCInst) :=
  loop I o (insts.length + 1) (.start insts)

end Pass

/-! ## What the loop holds about the machine -/

/-- A slot is held, and the register it was stored from still has its value. -/
def Holds (stores : StoreMap) (slot : StackSlot) (src : MCPhysReg) : Prop :=
  ∃ p ∈ stores, p.1 = slot ∧ p.2.srcReg = src ∧ p.2.srcAvailable = true

/-- Slots that are near the stack pointer and no larger than a word. -/
def NearSlots (stores : StoreMap) : Prop :=
  ∀ p ∈ stores, p.1.size ≤ 4 ∧ -2 ^ 30 ≤ p.1.offset ∧ p.1.offset < 2 ^ 30

/-- The machine is as the loop takes it to be. -/
structure Describes {w : Nat} (stores : StoreMap) (bases : StackBaseMap) (s : State w) : Prop where
  base : ∀ r offset, (r, offset) ∈ bases → s.get r = s.get (gpr 2) + BitVec.ofInt w offset
  value : ∀ slot src, Holds stores slot src →
    s.mem.load (s.get (gpr 2) + BitVec.ofInt w slot.offset) slot.size =
      (s.get src).setWidth (8 * slot.size)

attribute [local grind =] eraseKey invalidateSrcReg getStackAccess accessKind overwrite
  removeOverlappingReads rangesOverlap stepLoad getStackBaseDef step loop exec execSum loadKind
  storeSize isFloatAccess definedRegs

theorem describes_start {w : Nat} (s : State w) : Describes [] [(gpr 2, 0)] s where
  base := by
    intro r offset h
    obtain ⟨rfl, rfl⟩ := Prod.mk.inj (List.mem_singleton.mp h)
    simp
  value := by
    rintro slot src ⟨p, hp, -⟩
    exact absurd hp List.not_mem_nil

section Maps

theorem mem_eraseKey {α β : Type} [DecidableEq α] {m : List (α × β)} {k : α} {p : α × β} :
    p ∈ eraseKey m k ↔ p ∈ m ∧ p.1 ≠ k := by
  rw [eraseKey, List.mem_filter, decide_eq_true_eq]

theorem mem_of_lookup {α β : Type} [DecidableEq α] {m : List (α × β)} {k : α} {v : β}
    (h : m.lookup k = some v) : (k, v) ∈ m := by
  induction m with
  | nil => exact absurd h (by simp)
  | cons p m ih =>
    rw [List.lookup_cons] at h
    by_cases hk : k = p.1
    · rw [beq_iff_eq.mpr hk] at h
      obtain rfl : p.2 = v := Option.some.inj h
      rw [hk]
      exact List.mem_cons_self
    · rw [beq_eq_false_iff_ne.mpr hk] at h
      exact List.mem_cons_of_mem _ (ih h)

theorem mem_foldl_eraseKey {m : StackBaseMap} {ks : List MCPhysReg} {p : MCPhysReg × Int}
    (h : p ∈ ks.foldl eraseKey m) : p ∈ m ∧ p.1 ∉ ks := by
  induction ks generalizing m with
  | nil => exact ⟨h, List.not_mem_nil⟩
  | cons k ks ih =>
    obtain ⟨hp, hks⟩ := ih h
    obtain ⟨hp, hk⟩ := mem_eraseKey.mp hp
    exact ⟨hp, by rw [List.mem_cons, not_or]; exact ⟨hk, hks⟩⟩

variable {stores : StoreMap} {slot : StackSlot}

theorem invalidateSrcReg_entry {r : MCPhysReg} {p : StackSlot × StoredValue}
    (h : p ∈ invalidateSrcReg stores r) :
    ∃ q ∈ stores, q.1 = p.1 ∧ q.2.srcReg = p.2.srcReg ∧
      (p.2.srcAvailable = true → q.2.srcAvailable = true ∧ (p.2.srcReg = r → r = 0)) := by
  rw [invalidateSrcReg] at h
  split at h
  next hr => exact ⟨p, h, rfl, rfl, fun hav => ⟨hav, fun _ => hr⟩⟩
  · obtain ⟨q, hq, rfl⟩ := List.mem_map.mp h
    refine ⟨q, hq, ?_⟩
    split
    · exact ⟨rfl, rfl, fun hav => absurd hav (by simp)⟩
    next hne => exact ⟨rfl, rfl, fun hav => ⟨hav, fun heq => absurd heq hne⟩⟩

theorem Holds.of_invalidate {r src : MCPhysReg} (h : Holds (invalidateSrcReg stores r) slot src) :
    Holds stores slot src ∧ (src = r → r = 0) := by
  obtain ⟨p, hp, rfl, rfl, hav⟩ := h
  obtain ⟨q, hq, hslot, hsrc, hkeep⟩ := invalidateSrcReg_entry hp
  exact ⟨⟨q, hq, hslot, hsrc, (hkeep hav).1⟩, (hkeep hav).2⟩

theorem Holds.of_invalidateAll {rs : List MCPhysReg} {src : MCPhysReg}
    (h : Holds (rs.foldl invalidateSrcReg stores) slot src) :
    Holds stores slot src ∧ (src ∈ rs → src = 0) := by
  induction rs generalizing stores with
  | nil => exact ⟨h, fun hsrc => absurd hsrc List.not_mem_nil⟩
  | cons r rs ih =>
    obtain ⟨hheld, hrs⟩ := ih h
    obtain ⟨hheld, hr⟩ := hheld.of_invalidate
    refine ⟨hheld, fun hsrc => ?_⟩
    rcases List.mem_cons.mp hsrc with heq | hsrc
    · exact heq.trans (hr heq)
    · exact hrs hsrc

theorem NearSlots.invalidate (h : NearSlots stores) (r : MCPhysReg) :
    NearSlots (invalidateSrcReg stores r) := by
  intro p hp
  obtain ⟨q, hq, hslot, -⟩ := invalidateSrcReg_entry hp
  rw [← hslot]
  exact h q hq

theorem NearSlots.invalidateAll (h : NearSlots stores) (rs : List MCPhysReg) :
    NearSlots (rs.foldl invalidateSrcReg stores) := by
  induction rs generalizing stores with
  | nil => exact h
  | cons r rs ih => exact ih (h.invalidate r)

theorem pushLoad_entry {l : PendingLoad} {p : StackSlot × StoredValue}
    (h : p ∈ pushLoad stores slot l) :
    ∃ q ∈ stores, q.1 = p.1 ∧ q.2.srcReg = p.2.srcReg ∧ q.2.srcAvailable = p.2.srcAvailable := by
  obtain ⟨q, hq, rfl⟩ := List.mem_map.mp h
  refine ⟨q, hq, ?_⟩
  split <;> exact ⟨rfl, rfl, rfl⟩

theorem Holds.of_pushLoad {k : StackSlot} {l : PendingLoad} {src : MCPhysReg}
    (h : Holds (pushLoad stores k l) slot src) : Holds stores slot src := by
  obtain ⟨p, hp, rfl, rfl, hav⟩ := h
  obtain ⟨q, hq, hslot, hsrc, havail⟩ := pushLoad_entry hp
  exact ⟨q, hq, hslot, hsrc, havail.trans hav⟩

theorem NearSlots.pushLoad (h : NearSlots stores) (slot : StackSlot) (l : PendingLoad) :
    NearSlots (pushLoad stores slot l) := by
  intro p hp
  obtain ⟨q, hq, hslot, -⟩ := pushLoad_entry hp
  rw [← hslot]
  exact h q hq

end Maps

section Frames

variable {w : Nat} {stores : StoreMap} {bases : StackBaseMap} {s s' : State w}

/-- Registers `rs` change, and with them what is said about them goes. -/
theorem Describes.change (h : Describes stores bases s) (rs : List MCPhysReg)
    (hmem : s'.mem = s.mem)
    (hframe : ∀ r, r ∉ rs → s'.get r = s.get r) (hsp : gpr 2 ∉ rs) :
    Describes (rs.foldl invalidateSrcReg stores) (rs.foldl eraseKey bases) s' where
  base := by
    intro r offset hr
    obtain ⟨hr, hrs⟩ := mem_foldl_eraseKey hr
    rw [hframe r hrs, hframe _ hsp, h.base r offset hr]
  value := by
    intro slot src hheld
    obtain ⟨hheld, hsrc⟩ := hheld.of_invalidateAll
    have hget : s'.get src = s.get src := by
      by_cases hmem : src ∈ rs
      · rw [hsrc hmem, State.get_of_le _ (Nat.zero_le _), State.get_of_le _ (Nat.zero_le _)]
      · exact hframe src hmem
    rw [hmem, hframe _ hsp, hget, h.value slot src hheld]

/-- What the loop says of a slot or a base that it drops need not hold. -/
theorem Describes.mono (h : Describes stores bases s) {stores' : StoreMap} {bases' : StackBaseMap}
    (hstores : ∀ slot src, Holds stores' slot src → Holds stores slot src) (hbases : bases' ⊆ bases) :
    Describes stores' bases' s where
  base := fun r offset hr => h.base r offset (hbases hr)
  value := fun slot src hheld => h.value slot src (hstores slot src hheld)

end Frames

/-! ## What the instructions do -/

section Instructions

variable {I : MCInstrInfo} {w : Nat} (E : Env w) {i : MCInst} {bases : StackBaseMap} {a : StackAccess}

/-- A stack access is a load or a store at its slot. -/
theorem access_operands (h : getStackAccess i bases = some a) :
    accessKind i.opcode = some (a.slot.size, a.isLoad, a.canForwardWord, a.isFullWordLoad) ∧
      ∃ b v rest offset, i.operands = .reg a.reg :: .reg b :: .imm v :: rest ∧
        (b, offset) ∈ bases ∧ a.slot.offset = offset + v := by
  rw [getStackAccess] at h
  split at h
  next size isLoad fw full r b v rest hkind hops =>
    obtain ⟨offset, hlookup, rfl⟩ := Option.map_eq_some_iff.mp h
    exact ⟨hkind, b, v, rest, offset, hops, mem_of_lookup hlookup, rfl⟩
  · exact absurd h (by simp)

theorem access_load {stores : StoreMap} {s : State w} (h : getStackAccess i bases = some a)
    (hload : a.isLoad = true) (hd : Describes stores bases s) :
    ∃ k, exec E i s = .ok (s.load a.reg (s.get (gpr 2) + BitVec.ofInt w a.slot.offset) k) ∧
      k.1 = a.slot.size ∧ (a.canForwardWord = true → k = (4, true)) := by
  obtain ⟨hkind, b, v, rest, offset, hops, hb, hoff⟩ := access_operands h
  rw [hload] at hkind
  have haddr : s.get b + BitVec.ofInt w v = s.get (gpr 2) + BitVec.ofInt w a.slot.offset := by
    rw [hd.base b offset hb, hoff, BitVec.ofInt_add, BitVec.add_assoc]
  obtain ⟨op, operands, tailCall⟩ := i
  obtain rfl : operands = _ := hops
  rw [← haddr]
  cases op <;> simp only [accessKind, Option.some.injEq, Prod.mk.injEq, reduceCtorEq, false_and,
    and_false, Bool.false_eq_true] at hkind
  all_goals
    obtain ⟨hsize, -, hfw, -⟩ := hkind
    refine ⟨_, rfl, hsize, fun hword => ?_⟩
  all_goals first
    | rfl
    | exact absurd (hfw.trans hword) (by simp)

theorem access_size (h : getStackAccess i bases = some a) : a.slot.size ≤ 4 := by
  have hkind := (access_operands h).1
  generalize i.opcode = op at hkind
  cases op <;> simp only [accessKind, Option.some.injEq, Prod.mk.injEq, reduceCtorEq] at hkind
  all_goals
    have hsize := hkind.1
    omega

theorem access_store {stores : StoreMap} {s : State w} (h : getStackAccess i bases = some a)
    (hstore : a.isLoad = false) (hd : Describes stores bases s) :
    exec E i s =
      .ok (s.store a.reg (s.get (gpr 2) + BitVec.ofInt w a.slot.offset) a.slot.size) := by
  obtain ⟨hkind, b, v, rest, offset, hops, hb, hoff⟩ := access_operands h
  rw [hstore] at hkind
  have haddr : s.get b + BitVec.ofInt w v = s.get (gpr 2) + BitVec.ofInt w a.slot.offset := by
    rw [hd.base b offset hb, hoff, BitVec.ofInt_add, BitVec.add_assoc]
  obtain ⟨op, operands, tailCall⟩ := i
  obtain rfl : operands = _ := hops
  rw [← haddr]
  cases op <;> simp only [accessKind, Option.some.injEq, Prod.mk.injEq, reduceCtorEq, false_and,
    and_false, Bool.true_eq_false] at hkind
  all_goals
    rw [← hkind.1]
    rfl

/-- The loads and stores are what the tables say may load or store. -/
theorem memory_flags (I : MCInstrInfo) (op : Opcode) :
    ((I.get op).mayLoad = false ∧ (I.get op).mayStore = false) →
      loadKind op = none ∧ storeSize op = none ∧ isFloatAccess op = false := by
  cases op <;> simp [MCInstrInfo.get, loadKind, storeSize, isFloatAccess]

/-- An instruction that is no barrier, no call and touches no memory. -/
theorem exec_frame {s s' : State w} (hF : Framed I E)
    (hbarrier : isBarrierDesc (I.get i.opcode) = false)
    (hcall : isCall I i = false) (hload : (I.get i.opcode).mayLoad = false)
    (hstore : (I.get i.opcode).mayStore = false) (h : exec E i s = .ok s') :
    s'.mem = s.mem ∧ ∀ r, r ∉ definedRegs I i → s'.get r = s.get r := by
  have hother : E.other i s = .ok s' →
      s'.mem = s.mem ∧ ∀ r, r ∉ definedRegs I i → s'.get r = s.get r := by
    intro hx
    obtain ⟨hmem, hregs⟩ := hF i s s' hbarrier hcall hload hstore hx
    refine ⟨hmem, fun r hr => hregs r ?_⟩
    rwa [mem_definedRegs, Bool.not_eq_true] at hr
  have hset : ∀ r v, .ok (s.set r v) = (.ok s' : Outcome w) → r ∈ definedRegs I i →
      s'.mem = s.mem ∧ ∀ r, r ∉ definedRegs I i → s'.get r = s.get r := by
    intro r v hx hr
    obtain rfl := Except.ok.inj hx
    exact ⟨State.mem_set s r v, fun q hq => State.get_set_of_ne s v fun heq => hq (heq ▸ hr)⟩
  have hfirst : ∀ {r rest}, i.operands = .reg r :: rest → (I.get i.opcode).numDefs = 1 →
      r ∈ definedRegs I i := by
    intro r rest hops hdefs
    rw [definedRegs, hops, hdefs]
    simp
  have hmem := memory_flags I i.opcode ⟨hload, hstore⟩
  have himm : ∀ o r (f : Int → BitVec w),
      (E.imm o).elim (E.other i s) (fun v => .ok (s.set r (f v))) = .ok s' → r ∈ definedRegs I i →
      s'.mem = s.mem ∧ ∀ r, r ∉ definedRegs I i → s'.get r = s.get r := by
    intro o r f hx hr
    cases ho : E.imm o with
    | none => rw [ho] at hx; exact hother hx
    | some v => rw [ho] at hx; exact hset r _ hx hr
  rw [exec] at h
  split at h
  next r o _ hop hops => exact himm o r _ h (hfirst hops (by rw [hop]; rfl))
  next r o _ hop hops => exact himm o r _ h (hfirst hops (by rw [hop]; rfl))
  next r o _ hop hops => exact himm o r _ h (hfirst hops (by rw [hop]; rfl))
  next r b _ hop hops => exact hset r _ h (hfirst hops (by rw [hop]; rfl))
  next r b c _ hop hops => exact hset r _ h (hfirst hops (by rw [hop]; rfl))
  next r b o _ hops _ _ _ _ _ =>
    cases ho : E.imm o with
    | none => rw [ho] at h; exact hother h
    | some v =>
      rw [ho, Option.elim_some, execSum, hmem.1, hmem.2.1] at h
      simp only [hmem.2.2, Bool.false_eq_true, if_false] at h
      split at h
      next hop =>
        refine hset r _ h (hfirst hops ?_)
        rcases hop with hop | hop <;> rw [hop] <;> rfl
      · exact hother h
  · exact hother h

end Instructions

/-! ## One turn -/

section Turn

variable {I : MCInstrInfo} {o : StackOpts} {w : Nat} {E : Env w}

/-- The condition on the state of the loop before a turn: a call that the tables do not show comes
where nothing is held; a store is near the stack pointer and deletes no other; a word is forwarded
only where registers are words. -/
def Clean (I : MCInstrInfo) (o : StackOpts) (w : Nat) (t : StackPass) : Prop :=
  ∀ i, t.insts[t.pos]? = some i →
    (isCall I i = true → isBarrierDesc (I.get i.opcode) = false → t.stores = [] ∧ t.bases = [(gpr 2, 0)]) ∧
    ∀ a, getStackAccess i t.bases = some a →
      (a.isLoad = false → -2 ^ 30 ≤ a.slot.offset ∧ a.slot.offset < 2 ^ 30 ∧
        ∀ p ∈ t.stores, deletes o a.slot p = false) ∧
      (a.isFullWordLoad = true → w ≠ 32 → reusable o t.stores a = none)

instance (t : StackPass) : Decidable (Clean I o w t) :=
  inferInstanceAs (Decidable (∀ i ∈ t.insts[t.pos]?,
    (isCall I i = true → isBarrierDesc (I.get i.opcode) = false →
      t.stores = [] ∧ t.bases = [(gpr 2, 0)]) ∧
    ∀ a ∈ getStackAccess i t.bases,
      (a.isLoad = false → -2 ^ 30 ≤ a.slot.offset ∧ a.slot.offset < 2 ^ 30 ∧
        ∀ p ∈ t.stores, deletes o a.slot p = false) ∧
      (a.isFullWordLoad = true → w ≠ 32 → reusable o t.stores a = none)))

variable {stores : StoreMap} {bases : StackBaseMap} {i : MCInst} {done : List MCInst}
  {t : StackPass}

theorem reusable_holds {a : StackAccess} {v : StoredValue} (h : reusable o stores a = some v) :
    Holds stores a.slot v.srcReg ∧ a.canForwardWord = true := by
  obtain ⟨hlookup, hkeep⟩ := Option.filter_eq_some_iff.mp h
  rw [Bool.and_eq_true, Bool.and_eq_true] at hkeep
  exact ⟨⟨_, mem_of_lookup hlookup, rfl, rfl, hkeep.2⟩, hkeep.1.2⟩

/-- A store that deletes none keeps the instructions, and of the held stores those it does not
touch. -/
theorem overwrite_spec {slot : StackSlot} {insts : List MCInst}
    (h : ∀ p ∈ stores, deletes o slot p = false) :
    overwrite o slot insts stores = some (insts, removeOverlappingReads stores slot) := by
  induction stores with
  | nil => rfl
  | cons p rest ih =>
    rw [List.forall_mem_cons] at h
    rw [overwrite, ih h.2, h.1]
    cases hover : rangesOverlap p.1 slot with
    | false => simp [removeOverlappingReads, hover]
    | true => simp [removeOverlappingReads, hover]

/-- Slots near the stack pointer that do not overlap are disjoint in memory. -/
theorem disjoint_of_not_overlap {x y : StackSlot} (hw : 32 ≤ w) (sp : BitVec w) (hx : x.size ≤ 4)
    (hy : y.size ≤ 4) (hxo : -2 ^ 30 ≤ x.offset ∧ x.offset < 2 ^ 30)
    (hyo : -2 ^ 30 ≤ y.offset ∧ y.offset < 2 ^ 30) (h : rangesOverlap x y = false) :
    WordMemory.Disjoint (sp + BitVec.ofInt w x.offset) x.size (sp + BitVec.ofInt w y.offset) y.size := by
  rw [rangesOverlap, decide_eq_false_iff_not] at h
  exact WordMemory.disjoint_of_offsets hw sp hxo hyo (by omega) (by omega) (by omega)

/-- A load from a held slot takes what is held. -/
theorem load_of_held {s : State w} (hd : Describes stores bases s) {slot : StackSlot}
    {src : MCPhysReg} (hheld : Holds stores slot src) (hsize : 4 = slot.size) (r : MCPhysReg) :
    s.load r (s.get (gpr 2) + BitVec.ofInt w slot.offset) (4, true) =
      s.set r (((s.get src).setWidth 32).signExtend w) := by
  have hval := hd.value slot src hheld
  obtain ⟨offset, size⟩ := slot
  subst hsize
  rw [State.load, hval]
  rfl

theorem load_eq_set (s : State w) (r : MCPhysReg) (a : BitVec w) (k : Nat × Bool) :
    ∃ v, s.load r a k = s.set r v := by
  obtain ⟨n, sign⟩ := k
  cases sign <;> exact ⟨_, rfl⟩

/-- The low bytes of a word that was extended. -/
theorem setWidth_signExtend (hw : 32 ≤ w) (x : BitVec w) {n : Nat} (hn : n ≤ 4) :
    ((x.setWidth 32).signExtend w).setWidth (8 * n) = x.setWidth (8 * n) := by
  refine BitVec.eq_of_getLsbD_eq fun i hi => ?_
  have h32 : i < 32 := by omega
  have hiw : i < w := by omega
  rw [BitVec.getLsbD_setWidth, BitVec.getLsbD_signExtend, if_pos h32, BitVec.getLsbD_setWidth,
    BitVec.getLsbD_setWidth]
  simp only [h32, hiw, decide_true, Bool.true_and]

/-- `new` does what `i` does wherever the machine is as described, and leaves it as described. -/
def TurnOk (E : Env w) (i : MCInst) (new : List MCInst) (t t' : StackPass) : Prop :=
  ∀ s, Describes t.stores t.bases s →
    run E new s = exec E i s ∧ ∀ s', exec E i s = .ok s' → Describes t'.stores t'.bases s'

theorem Describes.set {s : State w} (hd : Describes stores bases s) {r : MCPhysReg} (hr : r ≠ gpr 2)
    (v : BitVec w) : Describes (invalidateSrcReg stores r) (eraseKey bases r) (s.set r v) := by
  refine hd.change [r] (State.mem_set s r v) (fun q hq => State.get_set_of_ne s v ?_) ?_
  · exact fun heq => hq (List.mem_singleton.mpr heq)
  · exact fun heq => hr (List.mem_singleton.mp heq).symm

/-- A register that gets its own low word keeps what slots say about it. -/
theorem Describes.set_word (hw : 32 ≤ w) {s : State w} (hd : Describes stores bases s)
    (hnear : NearSlots stores) {r : MCPhysReg} (hr : r ≠ gpr 2) :
    Describes stores (eraseKey bases r) (s.set r (((s.get r).setWidth 32).signExtend w)) where
  base := by
    intro q offset hq
    obtain ⟨hq, hne⟩ := mem_eraseKey.mp hq
    rw [State.get_set_of_ne s _ hne, State.get_set_of_ne s _ hr.symm, hd.base q offset hq]
  value := by
    intro slot src hheld
    have hlow : ((s.set r (((s.get r).setWidth 32).signExtend w)).get src).setWidth (8 * slot.size) =
        (s.get src).setWidth (8 * slot.size) := by
      obtain ⟨p, hp, rfl, -⟩ := hheld
      by_cases hsrc : src = r
      · subst hsrc
        by_cases hzero : src ≤ gpr 0
        · rw [State.get_of_le _ hzero, State.get_of_le _ hzero]
        · rw [State.get_set_self s _ hzero, setWidth_signExtend hw _ (hnear p hp).1]
      · rw [State.get_set_of_ne s _ hsrc]
    rw [State.mem_set, State.get_set_of_ne s _ hr.symm, hlow, hd.value slot src hheld]

theorem eraseKey_subset {α β : Type} [DecidableEq α] (m : List (α × β)) (k : α) :
    eraseKey m k ⊆ m :=
  fun _ hp => (mem_eraseKey.mp hp).1

/-- The register that a load defines is not the stack pointer. -/
theorem access_reg_ne {a : StackAccess} (h : getStackAccess i bases = some a)
    (hload : a.isLoad = true) (hsp : writesReg I i (gpr 2) = false) : a.reg ≠ gpr 2 := by
  intro heq
  obtain ⟨hkind, b, v, rest, offset, hops, -⟩ := access_operands h
  rw [hload] at hkind
  have hdefs : (I.get i.opcode).numDefs = 1 := by
    cases hop : i.opcode <;> rw [hop] at hkind <;> simp [accessKind] at hkind <;> rfl
  rw [writesReg, hops, hdefs, heq] at hsp
  simp at hsp

theorem exec_makeMove (s : State w) (rd rs : MCPhysReg) :
    exec E (makeMove rd rs) s = .ok (s.set rd (s.get rs)) := by
  have hzero : s.get rs + BitVec.ofInt w 0 = s.get rs := by simp
  rw [← hzero]
  rfl

/-- A load from a slot. -/
theorem stepLoad_turn (hw : 32 ≤ w) {rest : List MCInst} {a : StackAccess}
    (ht : t.insts = done ++ i :: rest) (hpos : t.pos = done.length) (hnear : NearSlots t.stores)
    (ha : getStackAccess i t.bases = some a) (hload : a.isLoad = true) (hsp : a.reg ≠ gpr 2)
    (hword : a.isFullWordLoad = true → w ≠ 32 → reusable o t.stores a = none) :
    ∃ new, (stepLoad o t a).insts = done ++ (new ++ rest) ∧
      (stepLoad o t a).pos = done.length + new.length ∧ NearSlots (stepLoad o t a).stores ∧
        TurnOk E i new t (stepLoad o t a) := by
  rw [stepLoad]
  cases hreuse : reusable o t.stores a with
  | none =>
    refine ⟨[i], by rw [List.singleton_append]; exact ht, by rw [hpos]; rfl, ?_, fun s hd => ?_⟩
    · refine NearSlots.invalidate (fun p hp => hnear p (List.mem_filter.mp hp).1) a.reg
    · obtain ⟨k, hexec, -, -⟩ := access_load E ha hload hd
      refine ⟨run_singleton E i s, fun s' hs' => ?_⟩
      obtain rfl := Except.ok.inj (hexec.symm.trans hs')
      obtain ⟨v, hv⟩ := load_eq_set s a.reg (s.get (gpr 2) + BitVec.ofInt w a.slot.offset) k
      rw [hv]
      refine (hd.mono ?_ (List.Subset.refl _)).set hsp v
      rintro slot src ⟨p, hp, hrest⟩
      exact ⟨p, (List.mem_filter.mp hp).1, hrest⟩
  | some v =>
    obtain ⟨hheld, hforward⟩ := reusable_holds hreuse
    have hexec : ∀ s, Describes t.stores t.bases s →
        exec E i s = .ok (s.set a.reg (((s.get v.srcReg).setWidth 32).signExtend w)) := by
      intro s hd
      obtain ⟨k, hexec, hsize, hk⟩ := access_load E ha hload hd
      rw [hk hforward] at hexec hsize
      rw [hexec, load_of_held hd hheld hsize]
    have hkept : ∀ stores, NearSlots stores → (∀ s : State w, Describes t.stores t.bases s →
        Describes stores t.bases s) → ∀ s, Describes t.stores t.bases s → ∀ s', exec E i s = .ok s' →
        Describes (if a.reg = v.srcReg then stores else invalidateSrcReg stores a.reg)
          (eraseKey t.bases a.reg) s' := by
      intro stores hst hmono s hd s' hs'
      obtain rfl := Except.ok.inj ((hexec s hd).symm.trans hs')
      by_cases hsrc : a.reg = v.srcReg
      · rw [if_pos hsrc, ← hsrc]
        exact (hmono s hd).set_word hw hst hsp
      · rw [if_neg hsrc]
        exact (hmono s hd).set hsp _
    have hnear' : ∀ stores, NearSlots stores →
        NearSlots (if a.reg = v.srcReg then stores else invalidateSrcReg stores a.reg) := by
      intro stores hst
      split
      · exact hst
      · exact hst.invalidate a.reg
    by_cases hfull : a.isFullWordLoad = true
    · have hw32 : w = 32 := by
        by_contra hne
        exact absurd ((hword hfull hne).symm.trans hreuse) (by simp)
      subst hw32
      have hword : ∀ x : BitVec 32, (x.setWidth 32).signExtend 32 = x := by
        intro x
        rw [BitVec.setWidth_eq, BitVec.signExtend_eq]
      have hdesc := hkept t.stores hnear fun _ hd => hd
      have hslots := hnear' t.stores hnear
      simp only [hfull, if_true]
      by_cases hsrc : a.reg = v.srcReg
      · simp only [if_pos hsrc] at hdesc hslots ⊢
        refine ⟨[], ?_, by rw [hpos]; rfl, hslots, fun s hd => ⟨?_, hdesc s hd⟩⟩
        · rw [ht, hpos, eraseIdx_middle rfl, List.nil_append]
        · rw [hexec s hd, hword, hsrc, State.set_get, run_nil]
      · simp only [if_neg hsrc] at hdesc hslots ⊢
        refine ⟨[makeMove a.reg v.srcReg], ?_, by rw [hpos]; rfl, hslots, fun s hd =>
          ⟨?_, hdesc s hd⟩⟩
        · rw [ht, hpos, set_middle rfl, List.singleton_append]
        · rw [hexec s hd, hword, run_singleton, exec_makeMove]
    · have hpush := hnear.pushLoad a.slot ⟨t.pos, a.reg⟩
      have hmono : ∀ s : State w, Describes t.stores t.bases s →
          Describes (pushLoad t.stores a.slot ⟨t.pos, a.reg⟩) t.bases s :=
        fun s hd => hd.mono (fun _ _ => Holds.of_pushLoad) (List.Subset.refl _)
      simp only [if_neg hfull]
      exact ⟨[i], by rw [List.singleton_append]; exact ht, by rw [hpos]; rfl, hnear' _ hpush,
        fun s hd => ⟨run_singleton E i s, hkept _ hpush hmono s hd⟩⟩

/-- A store to a slot. -/
theorem store_turn (hw : 32 ≤ w) {a : StackAccess} (hnear : NearSlots t.stores)
    (ha : getStackAccess i t.bases = some a) (hstore : a.isLoad = false)
    (hoff : -2 ^ 30 ≤ a.slot.offset ∧ a.slot.offset < 2 ^ 30) (insts : List MCInst) :
    let t' : StackPass :=
      { insts := insts
        pos := t.pos + 1
        stores := (a.slot, ⟨t.pos, a.reg, true, []⟩) :: removeOverlappingReads t.stores a.slot
        bases := t.bases }
    NearSlots t'.stores ∧ TurnOk E i [i] t t' := by
  have hsize := access_size ha
  refine ⟨?_, fun s hd => ⟨run_singleton E i s, fun s' hs' => ?_⟩⟩
  · intro p hp
    rcases List.mem_cons.mp hp with rfl | hp
    · exact ⟨hsize, hoff⟩
    · exact hnear p (List.mem_filter.mp hp).1
  · have hexec := access_store E ha hstore hd
    obtain rfl := Except.ok.inj (hexec.symm.trans hs')
    refine ⟨hd.base, ?_⟩
    rintro slot src ⟨p, hp, rfl, rfl, hav⟩
    rcases List.mem_cons.mp hp with rfl | hp
    · refine WordMemory.load_store s.mem _ (s.get a.reg) ?_
      have hpow : 2 ^ 32 ≤ 2 ^ w := Nat.pow_le_pow_right (by decide) hw
      exact Nat.le_trans hsize (Nat.le_trans (by decide) hpow)
    · obtain ⟨hp, hover⟩ := List.mem_filter.mp hp
      rw [Bool.not_eq_true'] at hover
      obtain ⟨hpsize, hpoff⟩ := hnear p hp
      refine (WordMemory.load_store_of_disjoint s.mem (s.get a.reg) ?_).trans
        (hd.value p.1 p.2.srcReg ⟨p, hp, rfl, rfl, hav⟩)
      exact disjoint_of_not_overlap hw _ hpsize hsize hpoff hoff hover

/-- `addi` from a base makes a base. -/
theorem exec_stackBaseDef {s s' : State w} (hd : Describes stores bases s) {r : MCPhysReg}
    {offset : Int} (h : getStackBaseDef i bases = some (r, offset))
    (hreg : i.opcode = .addi → i.getReg 0 ≠ 0) (hs' : exec E i s = .ok s') :
    s'.get r = s.get (gpr 2) + BitVec.ofInt w offset := by
  rw [getStackBaseDef] at h
  split at h
  next d b v rest hop hops =>
    obtain ⟨from_, hlookup, hsome⟩ := Option.bind_eq_some_iff.mp h
    split at hsome
    · exact absurd hsome (by simp)
    next hzero =>
      obtain ⟨rfl, rfl⟩ := Prod.mk.inj (Option.some.inj hsome)
      have hnone : d ≠ 0 := by
        have hd0 := hreg hop
        rwa [MCInst.getReg, hops] at hd0
      have hexec : exec E i s = .ok (s.set d (s.get b + BitVec.ofInt w v)) := by
        rw [exec, hops, hop]
        show execSum E i d (s.get b + BitVec.ofInt w v) s = _
        rw [execSum, hop]
        rfl
      obtain rfl := Except.ok.inj (hexec.symm.trans hs')
      have hpos : ∀ n : Nat, n ≠ 0 → n ≠ 1 → ¬ n ≤ 1 := by omega
      rw [State.get_set_self s _ (hpos d hnone hzero), hd.base b from_ (mem_of_lookup hlookup),
        BitVec.ofInt_add, BitVec.add_assoc]
  · exact absurd h (by simp)

theorem getStackBaseDef_of_call (hcall : isCall I i = true) : getStackBaseDef i bases = none := by
  rw [getStackBaseDef]
  split
  next hop _ =>
    rw [isCall, hop] at hcall
    exact absurd hcall (by simp [MCInstrInfo.get])
  · rfl

/-- An instruction that only defines registers. -/
theorem other_turn (hF : Framed I E) (hnear : NearSlots t.stores)
    (hbarrier : isBarrierDesc (I.get i.opcode) = false) (hload : (I.get i.opcode).mayLoad = false)
    (hstore : (I.get i.opcode).mayStore = false) (hsp : writesReg I i (gpr 2) = false)
    (hcall : isCall I i = true → t.stores = [] ∧ t.bases = [(gpr 2, 0)])
    (hreg : i.opcode = .addi → i.getReg 0 ≠ 0) :
    let bases := (definedRegs I i).foldl eraseKey t.bases
    let t' : StackPass :=
      { t with
        pos := t.pos + 1
        stores := (definedRegs I i).foldl invalidateSrcReg t.stores
        bases :=
          match getStackBaseDef i t.bases with
          | some (r, offset) => (r, offset) :: eraseKey bases r
          | none => bases }
    NearSlots t'.stores ∧ TurnOk E i [i] t t' := by
  refine ⟨hnear.invalidateAll _, fun s hd => ⟨run_singleton E i s, fun s' hs' => ?_⟩⟩
  by_cases hcalls : isCall I i = true
  · obtain ⟨hstores, hbases⟩ := hcall hcalls
    rw [getStackBaseDef_of_call hcalls, hstores, hbases]
    exact (describes_start s').mono (fun _ _ h => h.of_invalidateAll.1)
      (fun _ hp => (mem_foldl_eraseKey hp).1)
  · obtain ⟨hmem, hframe⟩ := exec_frame E hF hbarrier (Bool.eq_false_iff.mpr hcalls) hload hstore hs'
    have hspdef : gpr 2 ∉ definedRegs I i := by
      rw [mem_definedRegs, hsp]
      exact Bool.false_ne_true
    have hchange := hd.change (definedRegs I i) hmem hframe hspdef
    cases hbase : getStackBaseDef i t.bases with
    | none => exact hchange
    | some p =>
      obtain ⟨r, offset⟩ := p
      refine ⟨fun q offset' hq => ?_, hchange.value⟩
      rcases List.mem_cons.mp hq with heq | hq
      · obtain ⟨rfl, rfl⟩ := Prod.mk.inj heq
        rw [hframe _ hspdef]
        exact exec_stackBaseDef hd hbase hreg hs'
      · exact hchange.base q offset' (eraseKey_subset _ _ hq)

/-- One turn of the loop. -/
theorem step_spec (hw : 32 ≤ w) (hF : Framed I E) {rest : List MCInst}
    (ht : t.insts = done ++ i :: rest) (hpos : t.pos = done.length) (hclean : Clean I o w t)
    (hnear : NearSlots t.stores) (hreg : i.opcode = .addi → i.getReg 0 ≠ 0) :
    ∃ t' new, step I o t = some t' ∧ t'.insts = done ++ (new ++ rest) ∧
      t'.pos = done.length + new.length ∧ NearSlots t'.stores ∧ TurnOk E i new t t' := by
  have hget : t.insts[t.pos]? = some i := by rw [ht, hpos, getElem?_middle rfl]
  have hkeep : t.insts = done ++ ([i] ++ rest) := by rw [List.singleton_append]; exact ht
  have hnext : t.pos + 1 = done.length + [i].length := by rw [hpos]; rfl
  obtain ⟨hcall, haccess⟩ := hclean i hget
  rw [step, hget, Option.bind_some]
  by_cases hclear : (isBarrierDesc (I.get i.opcode) ||
      ((getStackAccess i t.bases).isNone && ((I.get i.opcode).mayLoad || (I.get i.opcode).mayStore)) ||
      writesReg I i (gpr 2)) = true
  · refine ⟨_, [i], if_pos hclear, hkeep, hnext, ?_,
      fun s hd => ⟨run_singleton E i s, fun s' _ => ?_⟩⟩
    · exact fun p hp => absurd hp List.not_mem_nil
    · exact describes_start s'
  · simp only [if_neg hclear]
    simp only [Bool.or_eq_true, Bool.and_eq_true, not_or, not_and, Bool.not_eq_true] at hclear
    obtain ⟨⟨hbarrier, hmemory⟩, hsp⟩ := hclear
    cases ha : getStackAccess i t.bases with
    | none =>
      obtain ⟨hload, hstore⟩ := hmemory (by rw [ha]; rfl)
      obtain ⟨hnear', hturn⟩ := other_turn hF hnear hbarrier hload hstore hsp
        (fun h => hcall h hbarrier) hreg
      exact ⟨_, [i], rfl, hkeep, hnext, hnear', hturn⟩
    | some a =>
      obtain ⟨hstores, hword⟩ := haccess a ha
      cases hload : a.isLoad with
      | true =>
        obtain ⟨new, hinsts, hpos', hnear', hturn⟩ := stepLoad_turn hw ht hpos hnear ha hload
          (access_reg_ne ha hload hsp) hword
        exact ⟨_, new, by simp only [hload, if_true], hinsts, hpos', hnear', hturn⟩
      | false =>
        obtain ⟨hlow, hhigh, hkept⟩ := hstores hload
        obtain ⟨hnear', hturn⟩ := store_turn hw hnear ha hload ⟨hlow, hhigh⟩ t.insts
        simp only [hload, overwrite_spec hkept, Bool.false_eq_true, if_false, Option.map_some]
        refine ⟨_, [i], rfl, ?_⟩
        exact ⟨hkeep, hnext, hnear', hturn⟩

/-! ## The whole block -/

/-- What the loop has done when it stands behind `done`: the instructions it has read ran as
`done`. -/
structure Progress (E : Env w) (insts : List MCInst) (t : StackPass) (done rest : List MCInst) :
    Prop where
  split : t.insts = done ++ rest
  pos : t.pos = done.length
  near : NearSlots t.stores
  read : ∃ before, insts = before ++ rest ∧ ∀ s, run E done s = run E before s ∧
    ∀ s', run E before s = .ok s' → Describes t.stores t.bases s'

theorem Progress.start (insts : List MCInst) : Progress E insts (.start insts) [] insts where
  split := rfl
  pos := rfl
  near := fun p hp => absurd hp List.not_mem_nil
  read := by
    refine ⟨[], rfl, fun s => ⟨rfl, fun s' hs' => ?_⟩⟩
    obtain rfl := Except.ok.inj hs'
    exact describes_start s

theorem Progress.turn (hw : 32 ≤ w) (hF : Framed I E) {insts rest : List MCInst}
    (h : Progress E insts t done (i :: rest)) (hclean : Clean I o w t)
    (hreg : ∀ i ∈ insts, i.opcode = .addi → i.getReg 0 ≠ 0) :
    ∃ t' new, step I o t = some t' ∧ Progress E insts t' (done ++ new) rest := by
  obtain ⟨before, hbefore, hrun⟩ := h.read
  have hi : i ∈ insts := by rw [hbefore]; simp
  obtain ⟨t', new, hstep, hinsts, hpos, hnear, hturn⟩ :=
    step_spec hw hF h.split h.pos hclean h.near (hreg i hi)
  refine ⟨t', new, hstep, by rw [hinsts, List.append_assoc], by rw [hpos, List.length_append],
    hnear, before ++ [i], by rw [hbefore, List.append_assoc, List.singleton_append], fun s => ?_⟩
  obtain ⟨hsame, hdesc⟩ := hrun s
  rw [run_append, hsame, run_concat]
  cases hs : run E before s with
  | error e => exact ⟨rfl, fun s' hs' => absurd hs' (by simp [Except.bind])⟩
  | ok s₁ => exact hturn s₁ (hdesc s₁ hs)

/-- The states of the loop over a block. -/
def Reaches (I : MCInstrInfo) (o : StackOpts) : StackPass → StackPass → Prop :=
  Relation.ReflTransGen fun t t' => t.pos ≠ t.insts.length ∧ step I o t = some t'

/-- Every turn of the loop is `Clean`. -/
def CleanRun (I : MCInstrInfo) (o : StackOpts) (w : Nat) (insts : List MCInst) : Prop :=
  ∀ t, Reaches I o (.start insts) t → Clean I o w t

/-- The rest of the loop, by induction over what is left to read. -/
theorem loop_run (hw : 32 ≤ w) (hF : Framed I E) {insts : List MCInst}
    (hreg : ∀ i ∈ insts, i.opcode = .addi → i.getReg 0 ≠ 0) (rest : List MCInst)
    (h : Progress E insts t done rest) (hclean : ∀ t', Reaches I o t t' → Clean I o w t') {n : Nat}
    (hn : rest.length < n) : ∃ out, loop I o n t = some out ∧ ∀ s, run E out s = run E insts s := by
  induction rest generalizing done t n with
  | nil =>
    obtain ⟨n, rfl⟩ := Nat.exists_eq_add_of_lt hn
    obtain ⟨before, hbefore, hrun⟩ := h.read
    have hsplit := h.split
    rw [List.append_nil] at hbefore hsplit
    refine ⟨t.insts, by rw [loop, if_pos (by rw [h.pos, hsplit])], fun s => ?_⟩
    rw [hsplit, hbefore]
    exact (hrun s).1
  | cons i rest ih =>
    obtain ⟨n, rfl⟩ := Nat.exists_eq_add_of_lt hn
    obtain ⟨t', new, hstep, hnext⟩ := h.turn hw hF (hclean t .refl) hreg
    have hpos : t.pos ≠ t.insts.length := by
      rw [h.pos, h.split, List.length_append, List.length_cons]
      omega
    have hfuel : rest.length < (i :: rest).length + n := by
      rw [List.length_cons]
      omega
    obtain ⟨out, hout, hrun⟩ := ih hnext
      (fun t'' ht'' => hclean t'' (Relation.ReflTransGen.head ⟨hpos, hstep⟩ ht''))
      hfuel
    exact ⟨out, by rw [loop, if_neg hpos, hstep, Option.bind_some, hout], hrun⟩

end Turn

/-- Both options on, as they are by default. -/
def defaultOpts : StackOpts := ⟨true, true⟩

/-- `sw a0, 0(sp); lw a1, 0(sp)`. -/
def storeThenLoad : List MCInst :=
  [⟨.sw, [.reg (gpr 10), .reg (gpr 2), .imm 0], false⟩,
    ⟨.lw, [.reg (gpr 11), .reg (gpr 2), .imm 0], false⟩]

/-- Other instructions do nothing, except that a called function stores one where `a0` points. -/
def storingCall : Env 32 where
  value := fun _ => 0
  float := fun _ _ _ s => s
  other := fun i s =>
    if isCall noOthers i then .ok { s with mem := s.mem.store (s.get (gpr 10)) 4 1#32 } else .ok s

theorem storingCall_framed : Framed noOthers storingCall := by
  intro i s s' _ hcall _ _ h
  simp only [storingCall, hcall, Bool.false_eq_true, if_false] at h
  obtain rfl := Except.ok.inj h
  exact ⟨rfl, fun _ _ => rfl⟩

/-- `sw a1, 0(sp); addi a0, sp, 0; jalr ra, 0(a5); lw a2, 0(sp)`. -/
def acrossCall : List MCInst :=
  [⟨.sw, [.reg (gpr 11), .reg (gpr 2), .imm 0], false⟩,
    ⟨.addi, [.reg (gpr 10), .reg (gpr 2), .imm 0], false⟩,
    ⟨.jalr, [.reg (gpr 1), .reg (gpr 15), .imm 0], false⟩,
    ⟨.lw, [.reg (gpr 12), .reg (gpr 2), .imm 0], false⟩]

end RvLlvm.Bolt
