import RvLlvm.Bolt.Exec

/-!
# Merging byte stores of zero

Model of `RISCVStackPushOpt` (`bolt/lib/Passes/RISCV/RISCVStackPushOpt.cpp`): four `sb x0` into one
aligned block become an `sw x0`. A block is the vector of its instructions and iterators are places
in it; a place outside the vector has no result.

* `run_zeroBytes`: byte stores of zero clear the addresses they name, in any order and any number of
  times.
* `pushTurn_spec`: a turn of the loop goes one place on and leaves a block that runs as before.
* `pushBlock_run`: the loop ends, and the block it leaves runs as the block that was read.
-/

namespace RvLlvm.Bolt

open Support

/-! ## The pass -/

/-- `sb x0` with an immediate: its base and its offset. -/
def zeroByte (i : MCInst) : Option (MCPhysReg × Int) :=
  match i.opcode, i.operands with
  | .sb, .reg r :: .reg b :: .imm v :: _ => if r = gpr 0 then some (b, v) else none
  | _, _ => none

/-- `Offset & ~0x3`. -/
def alignedBase (v : Int) : Int := v - v % 4

/-- `candidates` and `offset_mask`. -/
structure ByteScan where
  candidates : List Nat
  mask : List Int

/-- `offset_mask.all()`. -/
def ByteScan.all (c : ByteScan) : Bool := [0, 1, 2, 3].all c.mask.contains

/-- A store at place `pos`, unless its byte is marked. -/
def ByteScan.add (c : ByteScan) (pos : Nat) (offset : Int) : ByteScan :=
  if c.mask.contains offset then c else ⟨c.candidates ++ [pos], c.mask ++ [offset]⟩

/-- The scan for the bytes of one block, from place `pos` on. -/
def scanBytes (base : MCPhysReg) (aligned : Int) : List MCInst → Nat → ByteScan → ByteScan
  | [], _, c => c
  | i :: rest, pos, c =>
    if c.candidates.length < 4 then
      match zeroByte i with
      | some (b, v) =>
        if b = base ∧ alignedBase v = aligned ∧ 0 ≤ v - aligned ∧ v - aligned < 4 then
          scanBytes base aligned rest (pos + 1) (c.add pos (v - aligned))
        else c
      | none => c
    else c

/-- `sw x0`. -/
def makeSW (base : MCPhysReg) (offset : Int) : MCInst :=
  ⟨.sw, [.reg (gpr 0), .reg base, .imm offset], false⟩

/-- `BB.eraseInstruction` at several places, one after the other. -/
def erasePlaces : List Nat → List MCInst → Option (List MCInst)
  | [], insts => some insts
  | k :: ks, insts => if k < insts.length then erasePlaces ks (insts.eraseIdx k) else none

/-- The candidates become the word store. -/
def mergeBytes (insts : List MCInst) (base : MCPhysReg) (aligned : Int) :
    List Nat → Option (List MCInst × Nat)
  | [] => none
  | front :: others =>
    (erasePlaces others.reverse (insts.set front (makeSW base aligned))).map (·, front + 1)

/-- One turn of the loop, with `II` at `pos`. -/
def pushTurn (insts : List MCInst) (pos : Nat) : Option (List MCInst × Nat) :=
  insts[pos]?.bind fun i =>
    match zeroByte i with
    | none => some (insts, pos + 1)
    | some (base, v) =>
      let c := scanBytes base (alignedBase v) (insts.drop pos) pos ⟨[], []⟩
      if c.all then mergeBytes insts base (alignedBase v) c.candidates else some (insts, pos + 1)

/-- The loop; it ends where `II` is the end of the vector. -/
def pushLoop : Nat → List MCInst → Nat → Option (List MCInst)
  | 0, _, _ => none
  | n + 1, insts, pos =>
    if pos = insts.length then some insts
    else (pushTurn insts pos).bind fun q => pushLoop n q.1 q.2

/-- `runOnFunction` for one block. -/
def pushBlock (insts : List MCInst) : Option (List MCInst) := pushLoop (insts.length + 1) insts 0

/-! ## Cleared bytes -/

section Zero

variable {w : Nat} (E : Env w)

/-- The memory with the bytes at `as` cleared. -/
def zeroAt (m : WordMemory w) (as : List (BitVec w)) : WordMemory w := fun b =>
  if b ∈ as then 0 else m b

theorem zeroAt_nil (m : WordMemory w) : zeroAt m [] = m := by
  funext b
  rw [zeroAt, if_neg List.not_mem_nil]

theorem zeroAt_zeroAt (m : WordMemory w) (as bs : List (BitVec w)) :
    zeroAt (zeroAt m as) bs = zeroAt m (as ++ bs) := by
  funext b
  simp only [zeroAt, List.mem_append]
  by_cases hb : b ∈ bs <;> by_cases ha : b ∈ as <;> simp [ha, hb]

theorem zeroAt_congr (m : WordMemory w) {as bs : List (BitVec w)} (h : ∀ b, b ∈ as ↔ b ∈ bs) :
    zeroAt m as = zeroAt m bs := by
  funext b
  simp only [zeroAt, h]

/-- The addresses of `n` bytes from `a` on. -/
def addresses (a : BitVec w) (n : Nat) : List (BitVec w) :=
  (List.range n).map fun k => a + BitVec.ofNat w k

theorem mem_addresses {a b : BitVec w} {n : Nat} : b ∈ addresses a n ↔ (b - a).toNat < n := by
  rw [addresses, List.mem_map]
  constructor
  · rintro ⟨k, hk, rfl⟩
    rw [BitVec.add_comm, BitVec.add_sub_cancel, BitVec.toNat_ofNat]
    exact Nat.lt_of_le_of_lt (Nat.mod_le _ _) (List.mem_range.mp hk)
  · intro h
    refine ⟨(b - a).toNat, List.mem_range.mpr h, ?_⟩
    rw [BitVec.ofNat_toNat, BitVec.setWidth_eq, BitVec.add_comm, BitVec.sub_add_cancel]

theorem store_zero {k : Nat} (m : WordMemory w) (a : BitVec w) (n : Nat) :
    m.store a n (0 : BitVec k) = zeroAt m (addresses a n) := by
  funext b
  rw [WordMemory.store, zeroAt]
  simp only [mem_addresses]
  split
  · exact BitVec.extractLsb'_zero
  · rfl

theorem addresses_one (a : BitVec w) : addresses a 1 = [a] := by simp [addresses]

theorem exec_zeroByte {i : MCInst} {b : MCPhysReg} {v : Int} (h : zeroByte i = some (b, v))
    (s : State w) :
    exec E i s = .ok ⟨s.reg, zeroAt s.mem [s.get b + BitVec.ofInt w v]⟩ := by
  rw [zeroByte] at h
  split at h
  next r b' v' rest hop hops =>
    split at h
    next hr =>
      obtain ⟨rfl, rfl⟩ := Prod.mk.inj (Option.some.inj h)
      have hexec : exec E i s = .ok (s.store r (s.get b' + BitVec.ofInt w v') 1) := by
        simp only [exec, hop, hops, Env.imm, Option.elim_some, execSum, loadKind, storeSize]
      rw [hexec, State.store, hr, State.get_of_le _ (Nat.le_refl _), store_zero, addresses_one]
    · exact absurd h (by simp)
  · exact absurd h (by simp)

theorem exec_makeSW (base : MCPhysReg) (offset : Int) (s : State w) :
    exec E (makeSW base offset) s =
      .ok ⟨s.reg, zeroAt s.mem (addresses (s.get base + BitVec.ofInt w offset) 4)⟩ := by
  have hexec : exec E (makeSW base offset) s =
      .ok (s.store (gpr 0) (s.get base + BitVec.ofInt w offset) 4) := rfl
  rw [hexec, State.store, State.get_of_le _ (Nat.le_refl _), store_zero]

/-- The addresses that byte stores of zero name. -/
def byteAddresses (s : State w) (insts : List MCInst) : List (BitVec w) :=
  insts.filterMap fun i => (zeroByte i).map fun p => s.get p.1 + BitVec.ofInt w p.2

theorem mem_byteAddresses {s : State w} {insts : List MCInst} {a : BitVec w} :
    a ∈ byteAddresses s insts ↔
      ∃ i ∈ insts, ∃ b v, zeroByte i = some (b, v) ∧ s.get b + BitVec.ofInt w v = a := by
  simp only [byteAddresses, List.mem_filterMap, Option.map_eq_some_iff, Prod.exists]

theorem run_cons (i : MCInst) (insts : List MCInst) (s : State w) :
    run E (i :: insts) s = (exec E i s).bind (run E insts) := by
  rw [show i :: insts = [i] ++ insts from rfl, run_append, run_singleton]

/-- Byte stores of zero clear the addresses they name. -/
theorem run_zeroBytes {insts : List MCInst} (h : ∀ i ∈ insts, (zeroByte i).isSome) (s : State w) :
    run E insts s = .ok ⟨s.reg, zeroAt s.mem (byteAddresses s insts)⟩ := by
  induction insts generalizing s with
  | nil => rw [run_nil, byteAddresses, List.filterMap_nil, zeroAt_nil]
  | cons i insts ih =>
    rw [List.forall_mem_cons] at h
    obtain ⟨⟨b, v⟩, hi⟩ := Option.isSome_iff_exists.mp h.1
    -- the registers that the later stores read are those of the state before
    have hkept : ∀ m, byteAddresses (⟨s.reg, m⟩ : State w) insts = byteAddresses s insts :=
      fun _ => rfl
    have hcons : byteAddresses s (i :: insts) =
        [s.get b + BitVec.ofInt w v] ++ byteAddresses s insts := by
      rw [byteAddresses, List.filterMap_cons, hi]
      rfl
    rw [run_cons, exec_zeroByte E hi, ok_bind, ih h.2, hkept, zeroAt_zeroAt, hcons]

/-- A byte store of zero into the block at `aligned`. -/
def InBlock (base : MCPhysReg) (aligned : Int) (i : MCInst) : Prop :=
  ∃ k : Nat, k < 4 ∧ zeroByte i = some (base, aligned + k)

theorem InBlock.isSome {base : MCPhysReg} {aligned : Int} {i : MCInst}
    (h : InBlock base aligned i) :
    (zeroByte i).isSome := by
  obtain ⟨k, -, hi⟩ := h
  rw [hi]
  rfl

theorem ofInt_add_nat (a : BitVec w) (v : Int) (k : Nat) :
    a + BitVec.ofInt w (v + k) = a + BitVec.ofInt w v + BitVec.ofNat w k := by
  rw [BitVec.ofInt_add, BitVec.ofInt_natCast, BitVec.add_assoc]

/-- **Four bytes make a word**: where byte stores of one block name all of its bytes, a word store
does what they do, whichever of them are left behind it. -/
theorem run_makeSW {base : MCPhysReg} {aligned : Int} {window left : List MCInst}
    (hin : ∀ i ∈ window, InBlock base aligned i) (hleft : left ⊆ window)
    (hall : ∀ k : Nat, k < 4 → ∃ i ∈ window, zeroByte i = some (base, aligned + k)) (s : State w) :
    run E (makeSW base aligned :: left) s = run E window s := by
  rw [run_cons, exec_makeSW, ok_bind, run_zeroBytes E fun i hi => (hin i (hleft hi)).isSome,
    run_zeroBytes E fun i hi => (hin i hi).isSome, zeroAt_zeroAt]
  congr 2
  refine zeroAt_congr _ fun a => ?_
  have hkept : ∀ m, byteAddresses (⟨s.reg, m⟩ : State w) left = byteAddresses s left := fun _ => rfl
  rw [hkept, List.mem_append, mem_byteAddresses, mem_byteAddresses, addresses, List.mem_map]
  constructor
  · rintro (⟨k, hk, rfl⟩ | ⟨i, hi, named⟩)
    · obtain ⟨i, hi, hzero⟩ := hall k (List.mem_range.mp hk)
      exact ⟨i, hi, base, _, hzero, ofInt_add_nat _ _ _⟩
    · exact ⟨i, hleft hi, named⟩
  · rintro ⟨i, hi, b, v, hzero, rfl⟩
    obtain ⟨k, hk, hblock⟩ := hin i hi
    obtain ⟨rfl, rfl⟩ := Prod.mk.inj (Option.some.inj (hblock.symm.trans hzero))
    exact .inl ⟨k, List.mem_range.mpr hk, (ofInt_add_nat _ _ _).symm⟩

end Zero

/-! ## The scan -/

/-- What a scan of `window` adds to what it knew. -/
structure Scanned (base : MCPhysReg) (aligned : Int) (window : List MCInst) (pos : Nat)
    (c c' : ByteScan) : Prop where
  inBlock : ∀ i ∈ window, InBlock base aligned i
  places : ∃ new, c'.candidates = c.candidates ++ new ∧ new.Pairwise (· < ·) ∧
    ∀ k ∈ new, pos ≤ k ∧ k < pos + window.length
  marked : ∀ o ∈ c'.mask, o ∈ c.mask ∨ ∃ i ∈ window, zeroByte i = some (base, aligned + o)

theorem Scanned.refl (base : MCPhysReg) (aligned : Int) (pos : Nat) (c : ByteScan) :
    Scanned base aligned [] pos c c where
  inBlock := fun _ h => absurd h List.not_mem_nil
  places := ⟨[], (List.append_nil _).symm, .nil, fun _ h => absurd h List.not_mem_nil⟩
  marked := fun _ h => .inl h

theorem Scanned.cons {base : MCPhysReg} {aligned : Int} {window : List MCInst} {pos : Nat}
    {c c' : ByteScan} {i : MCInst} {k : Nat} (hk : k < 4)
    (hi : zeroByte i = some (base, aligned + k))
    (h : Scanned base aligned window (pos + 1) (c.add pos k) c') :
    Scanned base aligned (i :: window) pos c c' where
  inBlock := List.forall_mem_cons.mpr ⟨⟨k, hk, hi⟩, h.inBlock⟩
  places := by
    obtain ⟨new, hcands, hsorted, hnew⟩ := h.places
    rw [ByteScan.add] at hcands
    rw [List.length_cons]
    split at hcands
    · exact ⟨new, hcands, hsorted, fun q hq => by have := hnew q hq; omega⟩
    · refine ⟨pos :: new, by rw [hcands, List.append_assoc]; rfl, ?_, ?_⟩
      · exact List.pairwise_cons.mpr ⟨fun q hq => (hnew q hq).1, hsorted⟩
      · refine List.forall_mem_cons.mpr ⟨by omega, fun q hq => ?_⟩
        have := hnew q hq
        omega
  marked := by
    intro o ho
    rcases h.marked o ho with hold | ⟨j, hj, hzero⟩
    · rw [ByteScan.add] at hold
      split at hold
      · exact .inl hold
      · rcases List.mem_append.mp hold with hold | hnew
        · exact .inl hold
        · rw [List.mem_singleton.mp hnew]
          exact .inr ⟨i, List.mem_cons_self, hi⟩
    · exact .inr ⟨j, List.mem_cons_of_mem i hj, hzero⟩

theorem scanBytes_spec (base : MCPhysReg) (aligned : Int) (rest : List MCInst) (pos : Nat)
    (c : ByteScan) :
    ∃ window left, rest = window ++ left ∧
      Scanned base aligned window pos c (scanBytes base aligned rest pos c) := by
  induction rest generalizing pos c with
  | nil => exact ⟨[], [], rfl, .refl _ _ _ _⟩
  | cons i rest ih =>
    have hstop : ∃ window left, i :: rest = window ++ left ∧ Scanned base aligned window pos c c :=
      ⟨[], i :: rest, rfl, .refl _ _ _ _⟩
    rw [scanBytes]
    split
    · split
      next b v hi =>
        split
        next hblock =>
          obtain ⟨rfl, -, hnonneg, hlt⟩ := hblock
          obtain ⟨k, hk⟩ := Int.eq_ofNat_of_zero_le hnonneg
          obtain ⟨window, left, rfl, hscan⟩ := ih (pos + 1) (c.add pos (v - aligned))
          have hi' : zeroByte i = some (b, aligned + k) := by
            rw [hi, ← hk]
            congr 2
            omega
          refine ⟨i :: window, left, rfl, Scanned.cons (by omega) hi' ?_⟩
          rwa [hk] at hscan ⊢
        · exact hstop
      · exact hstop
    · exact hstop

/-- The scan at the store it begins with. -/
theorem scanBytes_first {i : MCInst} {base : MCPhysReg} {v : Int} (h : zeroByte i = some (base, v))
    (rest : List MCInst) (pos : Nat) :
    scanBytes base (alignedBase v) (i :: rest) pos ⟨[], []⟩ =
      scanBytes base (alignedBase v) rest (pos + 1) ⟨[pos], [v - alignedBase v]⟩ := by
  have hblock : 0 ≤ v - alignedBase v ∧ v - alignedBase v < 4 := by
    rw [alignedBase]
    omega
  rw [scanBytes, if_pos (by decide : ([] : List Nat).length < 4), h]
  simp only [true_and, if_pos hblock]
  rfl

/-! ## The loop -/

/-- Places in the middle part, the last one first. -/
theorem erasePlaces_spec (before middle behind : List MCInst) {ks : List Nat}
    (hsorted : ks.Pairwise (· > ·))
    (hks : ∀ k ∈ ks, before.length ≤ k ∧ k < before.length + middle.length) :
    ∃ left, left.Sublist middle ∧
      erasePlaces ks (before ++ (middle ++ behind)) = some (before ++ (left ++ behind)) := by
  induction ks generalizing middle with
  | nil => exact ⟨middle, List.Sublist.refl _, rfl⟩
  | cons k ks ih =>
    obtain ⟨hhead, hsorted⟩ := List.pairwise_cons.mp hsorted
    obtain ⟨hk, hks⟩ := List.forall_mem_cons.mp hks
    have herase : (before ++ (middle ++ behind)).eraseIdx k =
        before ++ (middle.eraseIdx (k - before.length) ++ behind) := by
      rw [List.eraseIdx_append_of_length_le hk.1, List.eraseIdx_append_of_lt_length (by omega)]
    have hlength := List.length_eraseIdx_of_lt (l := middle) (i := k - before.length) (by omega)
    obtain ⟨left, hsub, hleft⟩ := ih (middle.eraseIdx (k - before.length)) hsorted
      (fun q hq => by
        have := hhead q hq
        have := hks q hq
        omega)
    refine ⟨left, hsub.trans (List.eraseIdx_sublist _ _), ?_⟩
    rw [erasePlaces, if_pos (by simp only [List.length_append]; omega), herase, hleft]

/-- The blocks run alike, on every machine. -/
def SameRuns (a b : List MCInst) : Prop := ∀ (w : Nat) (E : Env w) s, run E a s = run E b s

theorem SameRuns.middle {a b : List MCInst} (h : SameRuns a b) (before behind : List MCInst) :
    SameRuns (before ++ (a ++ behind)) (before ++ (b ++ behind)) := by
  intro w E s
  rw [run_append, run_append]
  congr 1
  funext t
  rw [run_append, run_append, h w E t]

/-- **A turn of the loop** goes one place on and leaves a block that runs as before. -/
theorem pushTurn_spec {insts : List MCInst} {pos : Nat} (hpos : pos < insts.length) :
    ∃ out, pushTurn insts pos = some (out, pos + 1) ∧ pos + 1 ≤ out.length ∧
      out.length ≤ insts.length ∧ SameRuns out insts := by
  have hsame : ∃ out, some (insts, pos + 1) = some (out, pos + 1) ∧ pos + 1 ≤ out.length ∧
      out.length ≤ insts.length ∧ SameRuns out insts :=
    ⟨insts, rfl, hpos, Nat.le_refl _, fun _ _ _ => rfl⟩
  obtain ⟨before, i, rest, hlen, rfl⟩ : ∃ before i rest, pos = before.length ∧
      insts = before ++ i :: rest :=
    ⟨insts.take pos, insts[pos], insts.drop (pos + 1), by rw [List.length_take]; omega, by
      rw [List.getElem_cons_drop, List.take_append_drop]⟩
  rw [pushTurn, getElem?_middle hlen, Option.bind_some]
  split
  · exact hsame
  next base v hi =>
    have hdrop : (before ++ i :: rest).drop pos = i :: rest := by
      rw [hlen, List.drop_left]
    obtain ⟨window, behind, rfl, hscan⟩ := scanBytes_spec base (alignedBase v) rest (pos + 1)
      ⟨[pos], [v - alignedBase v]⟩
    simp only [hdrop, scanBytes_first hi]
    split
    next hall =>
      obtain ⟨new, hcands, hsorted, hnew⟩ := hscan.places
      rw [hcands, List.singleton_append, mergeBytes, set_middle hlen]
      have hshape : before ++ makeSW base (alignedBase v) :: (window ++ behind) =
          (before ++ [makeSW base (alignedBase v)]) ++ (window ++ behind) := by
        rw [List.append_assoc, List.singleton_append]
      have hfront : (before ++ [makeSW base (alignedBase v)]).length = pos + 1 := by
        rw [List.length_append, ← hlen, List.length_singleton]
      obtain ⟨left, hsub, hleft⟩ := erasePlaces_spec
        (before ++ [makeSW base (alignedBase v)]) window behind
        (List.pairwise_reverse.mpr hsorted)
        (fun k hk => by rw [hfront]; exact hnew k (List.mem_reverse.mp hk))
      rw [hshape, hleft, Option.map_some]
      refine ⟨_, rfl, ?_, ?_, ?_⟩
      · rw [List.length_append, hfront]
        exact Nat.le_add_right _ _
      · have := hsub.length_le
        simp only [List.length_append, List.length_cons, List.length_nil, ← hlen]
        omega
      · -- the store that the scan began with is the first of its window
        have hfirst : zeroByte i = some (base, alignedBase v + (v - alignedBase v)) := by
          rw [hi]
          congr 2
          omega
        have hwindow : ∀ j ∈ i :: window, InBlock base (alignedBase v) j := by
          refine List.forall_mem_cons.mpr ⟨⟨(v % 4).toNat, by omega, ?_⟩, hscan.inBlock⟩
          rw [hi, alignedBase]
          congr 2
          omega
        have hbytes : ∀ k : Nat, k < 4 →
            ∃ j ∈ i :: window, zeroByte j = some (base, alignedBase v + k) := by
          intro k hk
          have hmem : (k : Int) ∈ (scanBytes base (alignedBase v) (window ++ behind) (pos + 1)
              ⟨[pos], [v - alignedBase v]⟩).mask := by
            rw [ByteScan.all, List.all_eq_true] at hall
            refine List.contains_iff_mem.mp (hall k ?_)
            have : k = 0 ∨ k = 1 ∨ k = 2 ∨ k = 3 := by omega
            rcases this with rfl | rfl | rfl | rfl <;> decide
          rcases hscan.marked k hmem with hold | ⟨j, hj, hzero⟩
          · rw [List.mem_singleton.mp hold]
            exact ⟨i, List.mem_cons_self, hfirst⟩
          · exact ⟨j, List.mem_cons_of_mem i hj, hzero⟩
        have hmerged : SameRuns (makeSW base (alignedBase v) :: left) (i :: window) := fun w E s =>
          run_makeSW E hwindow (fun j hj => List.mem_cons_of_mem i (hsub.subset hj)) hbytes s
        have := hmerged.middle before behind
        simpa only [List.append_assoc, List.cons_append, List.nil_append] using this
    · exact hsame

theorem pushLoop_spec {n : Nat} {insts : List MCInst} {pos : Nat} (hpos : pos ≤ insts.length)
    (hn : insts.length - pos < n) : ∃ out, pushLoop n insts pos = some out ∧
    SameRuns out insts := by
  induction n generalizing insts pos with
  | zero => exact absurd hn (Nat.not_lt_zero _)
  | succ n ih =>
    rw [pushLoop]
    split
    · exact ⟨insts, rfl, fun _ _ _ => rfl⟩
    next hne =>
      obtain ⟨next, hturn, hpos', hlen, hsame⟩ := pushTurn_spec (Nat.lt_of_le_of_ne hpos hne)
      obtain ⟨out, hout, hruns⟩ := ih hpos' (by omega)
      refine ⟨out, ?_, fun w E s => (hruns w E s).trans (hsame w E s)⟩
      rw [hturn, Option.bind_some]
      exact hout

/-- **The scan ends for every block, and the block that is left runs as the block that was read**,
from every memory and with every value of every register. -/
theorem pushBlock_run (insts : List MCInst) :
    ∃ out, pushBlock insts = some out ∧
      ∀ (w : Nat) (E : Env w) (s : State w), run E out s = run E insts s :=
  pushLoop_spec (Nat.zero_le _) (Nat.lt_succ_self _)

/-- Negative offsets, out of order and one of them twice. -/
example : (pushBlock [⟨.sb, [.reg (gpr 0), .reg (gpr 2), .imm (-2)], false⟩,
    ⟨.sb, [.reg (gpr 0), .reg (gpr 2), .imm (-4)], false⟩,
    ⟨.sb, [.reg (gpr 0), .reg (gpr 2), .imm (-2)], false⟩,
    ⟨.sb, [.reg (gpr 0), .reg (gpr 2), .imm (-1)], false⟩,
    ⟨.sb, [.reg (gpr 0), .reg (gpr 2), .imm (-3)], false⟩]) =
    some [makeSW (gpr 2) (-4), ⟨.sb, [.reg (gpr 0), .reg (gpr 2), .imm (-2)], false⟩] := by decide

end RvLlvm.Bolt
