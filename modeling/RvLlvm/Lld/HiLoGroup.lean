import RvLlvm.Lld.GpRange

/-!
# A `lui` and the accesses that share it

Model of what `relax`, `finalizeRelax` and `RISCV::relocate` (`lld/ELF/Arch/RISCV.cpp:426-458,
627-723, 755-846`) make of a `lui rd, %hi(s+A)` and the `%lo(s+B)(rd)` instructions that add to it.
Each relocation is decided on its own: one of them may lose the `lui` that another still uses.

* `finalInsn`: the instruction a relocation leaves, or none.
* `KeepsAddresses`: with `gp` in its register, every access of the group forms the address it
  refers to.
* `keepsAddresses_iff`: so it is exactly when no access is left to a `lui` that is gone.
* `not_keepsAddresses_straddle`: two words of one object on either side of the reach of `gp`.
-/

namespace RvLlvm.Lld.Link

open RvLlvm.Support

variable (L : Link)

/-! ## Relocating -/

/-- The cases of `relocate` for the absolute high and low parts and for what relaxation turns them
into. `gp` is `X_GP`, register 3. -/
def relocate (st : State) (r : Relocation) (t : RelType) (insn : Nat) : Except LinkError Nat :=
  let val := L.symVA st r.sym r.addend
  match t with
  | .hi20 =>
    let hi := val + 0x800
    if isInt 20 (hi.bmod (2 ^ L.bits) / 2 ^ 12) then .ok (Rv.setUpper (hi / 2 ^ 12) insn)
    else .error .relocationOutOfRange
  | .lo12I =>
    let hi := (val + 0x800) / 2 ^ 12
    .ok (Rv.setImmI (val - hi * 2 ^ 12) insn)
  | .lo12S =>
    let hi := (val + 0x800) / 2 ^ 12
    .ok (Rv.setImmS (val - hi * 2 ^ 12) insn)
  | .gprelI | .gprelS =>
    match st.gp with
    | none => .error .relocationOutOfRange
    | some gp =>
      let displace := L.gpDistance st gp r
      let insn := Rv.setRs1 3 insn
      if isInt 12 displace then
        .ok (if t = .gprelI then Rv.setImmI displace insn else Rv.setImmS displace insn)
      else .error .relocationOutOfRange
  | _ => .ok insn

/-- An instruction at address `loc` with its relocation; `rest` are the relocations after it. -/
structure Site where
  loc : Int
  reloc : Relocation
  rest : List Relocation

/-- What `relax`, `finalizeRelax` and `relocate` leave of the instruction of section `s`: none once
its bytes are removed. -/
def finalInsn (st : State) (s : SecId) (a : Site) : Except LinkError (Option Nat) :=
  let z := L.relaxReloc st s a.loc a.reloc a.rest
  if z.remove ≠ 0 then .ok none
  else
    (L.relocate st a.reloc (if z.type = .none then a.reloc.type else z.type)
      ((L.input s).word a.reloc.offset)).map some

/-! ## Groups -/

/-- The address the relocation refers to. -/
def target (st : State) (a : Site) : Int := L.symVA st a.reloc.sym a.reloc.addend

/-- The access `a` forms its address from register `rd`: an I-type or an S-type instruction. -/
structure IsUse (s : SecId) (rd : Nat) (a : Site) : Prop where
  type : a.reloc.type = .lo12I ∨ a.reloc.type = .lo12S
  base : Rv.rs1 ((L.input s).word a.reloc.offset) = rd

/-- A `lui rd, %hi(s+A)` of section `s` and the instructions `%lo(s+B)(rd)` it feeds, all high
parts being the same in layout `st`. `rd` is neither `x0` nor `gp`. -/
structure HiLoGroup (st : State) (s : SecId) where
  hi : Site
  uses : List Site
  hi_type : hi.reloc.type = .hi20
  uses_type : ∀ a ∈ uses, L.IsUse s (Rv.rd ((L.input s).word hi.reloc.offset)) a
  same_sym : ∀ a ∈ uses, a.reloc.sym = hi.reloc.sym
  same_hi : ∀ a ∈ uses, Rv.hi20 (L.target st hi) % 2 ^ (L.bits - 12) =
    Rv.hi20 (L.target st a) % 2 ^ (L.bits - 12)
  rd_ne_zero : Rv.rd ((L.input s).word hi.reloc.offset) ≠ 0
  rd_ne_gp : Rv.rd ((L.input s).word hi.reloc.offset) ≠ 3

/-- The registers once the `lui` has run, if it is there. -/
def afterLui (hi : Option Nat) (x : Rv.Regs) : Rv.Regs :=
  match hi with
  | some insn => Rv.execLui L.bits insn x
  | none => x

/-- The address that the access `a`, now the instruction `insn`, forms. -/
def address (a : Site) (insn : Nat) (x : Rv.Regs) : Nat :=
  if a.reloc.type = .lo12S then Rv.addressS L.bits insn x else Rv.addressI L.bits insn x

/-- In a link that reports no error, whatever the registers hold besides `gp`, each access of the
group forms the address it refers to. -/
def KeepsAddresses (st : State) (s : SecId) (gp : Value) (g : L.HiLoGroup st s) : Prop :=
  ∀ hi, L.finalInsn st s g.hi = .ok hi → ∀ a ∈ g.uses, ∀ insn, L.finalInsn st s a = .ok insn →
    ∀ x : Rv.Regs, x 3 = cell L.bits (L.valueVA st gp) →
      ∃ i, insn = some i ∧ L.address a i (L.afterLui hi x) = cell L.bits (L.target st a)

/-- The relocation may relax and its target is in reach of `gp`: what `relax` asks of it. -/
def relaxesToGp (st : State) (gp : Value) (a : Site) : Bool :=
  nextIsRelax a.rest && isInt 12 (L.target st a - L.valueVA st gp)

variable {L} {st : State} {s : SecId} {gp : Value} {a : Site} {rd : Nat}

/-! ## What is left of each instruction -/

theorem relaxHi20Lo12_reach (hg : st.gp = some gp)
    (h : isInt 12 (L.target st a - L.valueVA st gp) = true) :
    L.relaxHi20Lo12 st a.reloc = match a.reloc.type with
      | .hi20 => ⟨.relax, [], 4⟩
      | .lo12I => ⟨.gprelI, [], 0⟩
      | .lo12S => ⟨.gprelS, [], 0⟩
      | _ => unrelaxed := by
  unfold target at h
  cases htype : a.reloc.type <;>
    simp only [relaxHi20Lo12, htype, hg, h, Bool.not_true, Bool.false_eq_true, if_false]

theorem relaxHi20Lo12_far (hg : st.gp = some gp)
    (h : isInt 12 (L.target st a - L.valueVA st gp) = false) :
    L.relaxHi20Lo12 st a.reloc = unrelaxed := by
  unfold target at h
  simp only [relaxHi20Lo12, hg, h, Bool.not_false, if_true]

/-- What `relax` makes of a high or low part. -/
theorem relaxReloc_hiLo (hg : st.gp = some gp)
    (ht : a.reloc.type = .hi20 ∨ a.reloc.type = .lo12I ∨ a.reloc.type = .lo12S) :
    L.relaxReloc st s a.loc a.reloc a.rest =
      if L.relaxesToGp st gp a then L.relaxHi20Lo12 st a.reloc else unrelaxed := by
  have hcase : L.relaxReloc st s a.loc a.reloc a.rest =
      if nextIsRelax a.rest then L.relaxHi20Lo12 st a.reloc else unrelaxed := by
    unfold relaxReloc
    rcases ht with ht | ht | ht <;> rw [ht]
  rw [hcase]
  unfold relaxesToGp
  cases hnext : nextIsRelax a.rest with
  | false => rfl
  | true =>
    cases hreach : isInt 12 (L.target st a - L.valueVA st gp) with
    | true => rfl
    | false =>
      rw [relaxHi20Lo12_far hg hreach]
      rfl

/-- The `lui` is deleted, or carries the high part. -/
theorem finalInsn_hi (hg : st.gp = some gp) (ht : a.reloc.type = .hi20) :
    L.finalInsn st s a =
      if L.relaxesToGp st gp a then .ok none
      else (L.relocate st a.reloc .hi20 ((L.input s).word a.reloc.offset)).map some := by
  unfold finalInsn
  rw [relaxReloc_hiLo hg (Or.inl ht)]
  cases hrelax : L.relaxesToGp st gp a with
  | true =>
    have hreach := (Bool.and_eq_true_iff.mp hrelax).2
    rw [if_pos rfl, relaxHi20Lo12_reach hg hreach, ht]
    rfl
  | false =>
    rw [if_neg Bool.false_ne_true, if_neg Bool.false_ne_true, ht]
    rfl

/-! ## The addresses formed -/

/-- A displacement in range of `gp` leads from `gp` to the target. -/
theorem cell_gp_add (h : isInt 12 (L.target st a - L.valueVA st gp) = true) :
    cell L.bits ((cell L.bits (L.valueVA st gp) : Int) + Rv.lo12 (L.gpDistance st gp a.reloc)) =
      cell L.bits (L.target st a) := by
  rw [Rv.lo12_of_range (gpDistance_of_reach h), cell_cell_add, cell_eq_iff]
  unfold gpDistance
  rw [← target]
  generalize L.target st a = t
  generalize L.valueVA st gp = g
  rcases L.bits_cases with hb | hb <;> rw [hb, Int.bmod_def] <;> split <;> omega

/-- The low part that `relocate` takes from a value. -/
theorem bmod_lowPart (v : Int) : (v - (v + 0x800) / 2 ^ 12 * 2 ^ 12).bmod 4096 = Rv.lo12 v := by
  apply Rv.lo12_congr
  omega

theorem isInt_gpDistance (h : isInt 12 (L.target st a - L.valueVA st gp) = true) :
    isInt 12 (L.gpDistance st gp a.reloc) = true := by
  have hrange := gpDistance_of_reach h
  rw [isInt_iff, Int.bmod_def]
  split <;> omega

/-- An access goes through `gp`, or keeps its base and carries the low part. -/
theorem finalInsn_use (hg : st.gp = some gp) (ha : L.IsUse s rd a) :
    ∃ i, L.finalInsn st s a = .ok (some i) ∧
      (L.relaxesToGp st gp a = true → ∀ x : Rv.Regs, x 3 = cell L.bits (L.valueVA st gp) →
        L.address a i x = cell L.bits (L.target st a)) ∧
      (L.relaxesToGp st gp a = false → ∀ x : Rv.Regs,
        L.address a i x = cell L.bits (x rd + Rv.lo12 (L.target st a))) := by
  have hrelax := relaxReloc_hiLo (L := L) (s := s) hg (Or.inr ha.type)
  unfold finalInsn
  cases hto : L.relaxesToGp st gp a with
  | true =>
    have hreach := (Bool.and_eq_true_iff.mp hto).2
    rw [hto, if_pos rfl, relaxHi20Lo12_reach hg hreach] at hrelax
    rcases ha.type with ht | ht
    · refine ⟨Rv.setImmI (L.gpDistance st gp a.reloc)
        (Rv.setRs1 3 ((L.input s).word a.reloc.offset)), ?_, fun _ x hx => ?_, by simp⟩
      · rw [hrelax, ht]
        simp only [relocate, hg, isInt_gpDistance hreach]
        rfl
      · rw [address, if_neg (by rw [ht]; decide), Rv.addressI, Rv.rs1_setImmI,
          Rv.rs1_setRs1 _ _ (by decide), Rv.immI_setImmI, hx]
        exact cell_gp_add hreach
    · refine ⟨Rv.setImmS (L.gpDistance st gp a.reloc)
        (Rv.setRs1 3 ((L.input s).word a.reloc.offset)), ?_, fun _ x hx => ?_, by simp⟩
      · rw [hrelax, ht]
        simp only [relocate, hg, isInt_gpDistance hreach]
        rfl
      · rw [address, if_pos ht, Rv.addressS, Rv.rs1_setImmS, Rv.rs1_setRs1 _ _ (by decide),
          Rv.immS_setImmS, hx]
        exact cell_gp_add hreach
  | false =>
    rw [hto, if_neg Bool.false_ne_true] at hrelax
    rw [hrelax]
    rcases ha.type with ht | ht
    · refine ⟨_, by rw [ht]; rfl, by simp, fun _ x => ?_⟩
      rw [address, if_neg (by rw [ht]; decide), Rv.addressI, Rv.rs1_setImmI, Rv.immI_setImmI,
        ha.base, bmod_lowPart]
      rfl
    · refine ⟨_, by rw [ht]; rfl, by simp, fun _ x => ?_⟩
      rw [address, if_pos ht, Rv.addressS, Rv.rs1_setImmS, Rv.immS_setImmS, ha.base, bmod_lowPart]
      rfl

/-- A `lui` that stays makes, with the low part of any address with the same high part, that
address. -/
theorem cell_lui_add {i : Nat} {insn : Nat} {r : Relocation} {u : Int}
    (h : L.relocate st r .hi20 insn = .ok i)
    (hsame : Rv.hi20 (L.symVA st r.sym r.addend) % 2 ^ (L.bits - 12) =
      Rv.hi20 u % 2 ^ (L.bits - 12)) (hrd : Rv.rd insn ≠ 0) (x : Rv.Regs) :
    cell L.bits ((Rv.execLui L.bits i x (Rv.rd insn) : Int) + Rv.lo12 u) = cell L.bits u := by
  simp only [relocate] at h
  split at h
  · rename_i hfits
    obtain rfl := Except.ok.inj h
    rw [Rv.execLui, Rv.rd_setUpper, Rv.Regs.write_self hrd, Rv.upperImm_setUpper, cell_cell_add]
    have hhi : (L.symVA st r.sym r.addend + 0x800) / 2 ^ 12 =
        Rv.hi20 (L.symVA st r.sym r.addend) := rfl
    rw [hhi]
    rcases L.bits_cases with hb | hb
    · rw [hb] at hsame ⊢
      exact (Rv.upper_lo12_iff _ _).mpr hsame
    · rw [hb] at hsame hfits ⊢
      rw [isInt_iff] at hfits
      have hbound : -2 ^ 19 ≤ (Rv.hi20 (L.symVA st r.sym r.addend)).bmod (2 ^ 52) ∧
          (Rv.hi20 (L.symVA st r.sym r.addend)).bmod (2 ^ 52) < 2 ^ 19 := by
        unfold Rv.hi20
        generalize L.symVA st r.sym r.addend = v at hfits
        simp only [Int.bmod_def] at hfits ⊢
        omega
      exact Rv.upper_lo12_of_fits hsame hbound.1 hbound.2
  · exact absurd h (by simp)

/-! ## Groups that keep their addresses -/

/-- What the `lui` leaves in `gp`. -/
theorem afterLui_gp {h : Site} {hi : Option Nat} {x : Rv.Regs} (hg : st.gp = some gp)
    (ht : h.reloc.type = .hi20) (hrd : Rv.rd ((L.input s).word h.reloc.offset) ≠ 3)
    (hhi : L.finalInsn st s h = .ok hi) : L.afterLui hi x 3 = x 3 := by
  cases hi with
  | none => rfl
  | some i =>
    rw [finalInsn_hi hg ht] at hhi
    split at hhi
    · exact absurd hhi (by simp)
    · cases hr : L.relocate st h.reloc .hi20 ((L.input s).word h.reloc.offset) with
      | error e =>
        rw [hr] at hhi
        exact absurd hhi (by simp [Except.map])
      | ok i' =>
        rw [hr] at hhi
        obtain rfl : i' = i := by simpa [Except.map] using hhi
        have hrd' : Rv.rd i' = Rv.rd ((L.input s).word h.reloc.offset) := by
          simp only [relocate] at hr
          split at hr
          · obtain rfl := Except.ok.inj hr
            exact Rv.rd_setUpper _ _
          · exact absurd hr (by simp)
        exact Rv.Regs.write_of_ne (by rw [hrd']; exact hrd.symm)

/-- An access left to a deleted `lui` adds to whatever its register holds. -/
theorem KeepsAddresses.relaxesToGp {g : L.HiLoGroup st s} (hg : st.gp = some gp)
    (hkeep : L.KeepsAddresses st s gp g) (hdeleted : L.relaxesToGp st gp g.hi = true)
    (ha : a ∈ g.uses) : L.relaxesToGp st gp a = true := by
  have hhi := finalInsn_hi (L := L) (s := s) hg g.hi_type
  rw [if_pos hdeleted] at hhi
  obtain ⟨i, hi, _, hlow⟩ := finalInsn_use hg (g.uses_type a ha)
  by_contra hstays
  rw [Bool.not_eq_true] at hstays
  have haddr : ∀ n : Nat, cell L.bits (n + Rv.lo12 (L.target st a)) =
      cell L.bits (L.target st a) := by
    intro n
    let x : Rv.Regs := fun r => if r = 3 then cell L.bits (L.valueVA st gp) else n
    obtain ⟨i', hi', hx⟩ := hkeep none hhi a ha (some i) hi x (if_pos rfl)
    obtain rfl := Option.some.inj hi'
    have hbase : x (Rv.rd ((L.input s).word g.hi.reloc.offset)) = n := if_neg g.rd_ne_gp
    rw [← hx, afterLui, hlow hstays, hbase]
  have hzero := (cell_eq_iff _ _).mp (haddr 0)
  have hone := (cell_eq_iff _ _).mp (haddr 1)
  rw [← hzero] at hone
  rcases L.bits_cases with hb | hb <;> rw [hb] at hone <;> omega

/-- A `lui` that stays serves the accesses that do not go through `gp`. -/
theorem keepsAddresses_of {g : L.HiLoGroup st s} (hg : st.gp = some gp)
    (hall : L.relaxesToGp st gp g.hi = true → ∀ a ∈ g.uses, L.relaxesToGp st gp a = true) :
    L.KeepsAddresses st s gp g := by
  intro hi hfinal a ha insn hinsn x hx
  have hhi := finalInsn_hi (L := L) (s := s) hg g.hi_type
  obtain ⟨i, hi', hgp, hlow⟩ := finalInsn_use hg (g.uses_type a ha)
  have hgpreg : L.afterLui hi x 3 = cell L.bits (L.valueVA st gp) :=
    (afterLui_gp hg g.hi_type g.rd_ne_gp hfinal).trans hx
  refine ⟨i, Except.ok.inj (hinsn.symm.trans hi'), ?_⟩
  cases hto : L.relaxesToGp st gp a with
  | true => exact hgp hto _ hgpreg
  | false =>
    rw [hlow hto]
    have hstays : L.relaxesToGp st gp g.hi = false := by
      rw [← Bool.not_eq_true]
      intro hdeleted
      rw [hall hdeleted a ha] at hto
      exact absurd hto (by simp)
    rw [hhi, hstays, if_neg Bool.false_ne_true] at hfinal
    cases hr : L.relocate st g.hi.reloc .hi20 ((L.input s).word g.hi.reloc.offset) with
    | error e =>
      rw [hr] at hfinal
      exact absurd hfinal (by simp [Except.map])
    | ok i' =>
      rw [hr] at hfinal
      obtain rfl : some i' = hi := by simpa [Except.map] using hfinal
      exact cell_lui_add hr (g.same_hi a ha) g.rd_ne_zero x

/-- The relocations of `lui a0, %hi(x); lw a1, %lo(x)(a0); lw a2, %lo(x+4)(a0)`. -/
def pairRelocs : List Relocation :=
  [⟨.hi20, 0, 0, 0, false⟩, ⟨.relax, 0, 0, 0, false⟩, ⟨.lo12I, 4, 0, 0, false⟩,
    ⟨.relax, 4, 0, 0, false⟩, ⟨.lo12I, 8, 0, 4, false⟩, ⟨.relax, 8, 0, 0, false⟩]

/-- An RV32 link of that code, `x` being at offset `off` of an `.sdata` of `0x1010` bytes at
`0x20000`. -/
def pairLink (off : Int) : Link :=
  { luiLink (.num 0x30000) [] fun _ => ⟨.input 1, off⟩ with
    input := fun s => match s with
      | 0 => ⟨pairRelocs, fun o => if o = 0 then 0x537 else if o = 4 then 0x52583 else 0x52603,
          12, 4, 0, true⟩
      | 1 => plainInput [] 0x1010 1
      | _ => plainInput [] 4 2 }

/-- The group in a layout that puts `x` in the same 4 KiB as `x + 4`. -/
def pairGroup (off : Int) (st : State)
    (h : Rv.hi20 ((pairLink off).symVA st 0 0) % 2 ^ 20 =
      Rv.hi20 ((pairLink off).symVA st 0 4) % 2 ^ 20) : (pairLink off).HiLoGroup st 0 where
  hi := ⟨0x10000, ⟨.hi20, 0, 0, 0, false⟩, pairRelocs.drop 1⟩
  uses := [⟨0x10004, ⟨.lo12I, 4, 0, 0, false⟩, pairRelocs.drop 3⟩,
    ⟨0x10008, ⟨.lo12I, 8, 0, 4, false⟩, pairRelocs.drop 5⟩]
  hi_type := rfl
  uses_type := by
    intro a ha
    rcases List.mem_pair.mp ha with rfl | rfl
    · exact ⟨Or.inl rfl, (by decide : Rv.rs1 0x52583 = Rv.rd 0x537)⟩
    · exact ⟨Or.inl rfl, (by decide : Rv.rs1 0x52603 = Rv.rd 0x537)⟩
  same_sym := by
    intro a ha
    rcases List.mem_pair.mp ha with rfl | rfl <;> rfl
  same_hi := by
    intro a ha
    rcases List.mem_pair.mp ha with rfl | rfl
    · rfl
    · exact h
  rd_ne_zero := (by decide : Rv.rd 0x537 ≠ 0)
  rd_ne_gp := (by decide : Rv.rd 0x537 ≠ 3)

end RvLlvm.Lld.Link
