import Mathlib.Data.List.Forall2
import RvLlvm.Bolt.MCInst

/-!
# Compressing direct jumps

Model of `compressDirectJumps` (`bolt/lib/Passes/RISCV/RISCVCompressPeephole.cpp:357-413`). The
sizes that the code emitter computes are a parameter.

* `distance_shrinks`: where the items of a function shrink by even sizes, every distance in it comes
  nearer to zero by an even number.
* `round_spec`: what a round changes, and that it counts what it changes.
* `compressDirectJumps_spec`: the rounds end; every jump that was compressed reaches its target in
  the layout that is left, and no jump that could reach it is left uncompressed.
-/

namespace RvLlvm.Bolt

/-! ## The pass -/

/-- `isCJOffset`. -/
def isCJOffset (offset : Int) : Bool := decide (-2048 ≤ offset ∧ offset ≤ 2046 ∧ offset % 2 = 0)

/-- What the loops over a function pass: the label of a block, then its instructions. -/
inductive Item
  | label (l : MCSymbol)
  | inst (i : MCInst)
  deriving DecidableEq

/-- The items of a function, in the order of its blocks. -/
def items (blocks : List BasicBlock) : List Item :=
  blocks.flatMap fun b => .label b.label :: b.insts.map .inst

section Pass

variable (size : MCInst → Nat)

/-- `computeInstructionSize`; a label takes no room. -/
def Item.bytes : Item → Nat
  | .label _ => 0
  | .inst i => size i

/-- `Offset` after these items. -/
def codeSize (its : List Item) : Nat := (its.map (Item.bytes size)).sum

/-- `LabelOffsets`; a later label of one name replaces an earlier one. -/
def labelOffset (offset : Nat) : List Item → MCSymbol → Option Nat
  | [], _ => none
  | .label l :: rest, t =>
    match labelOffset offset rest t with
    | some o => some o
    | none => if l = t then some offset else none
  | .inst i :: rest, t => labelOffset (offset + size i) rest t

/-- A `JAL` that writes `X0` and jumps to a symbol. -/
def directJump (i : MCInst) : Option MCSymbol :=
  if i.opcode = .jal ∧ 2 ≤ i.operands.length ∧ i.operands[0]? = some (.reg (gpr 0)) then
    getTargetSymbol i
  else none

/-- The `C_J` for a jump. -/
def makeCJ (i : MCInst) : MCInst := ⟨.cJ, i.operands[1]?.toList, false⟩

/-- The jump at `offset` reaches its target as `C_J`. -/
def reaches (labels : MCSymbol → Option Nat) (offset : Nat) (i : MCInst) : Bool :=
  match (directJump i).bind labels with
  | some target => isCJOffset ((target : Int) - offset)
  | none => false

/-- The second loop in one block. -/
def roundInsts (labels : MCSymbol → Option Nat) : Nat → List MCInst → List MCInst
  | _, [] => []
  | offset, i :: rest =>
    (if reaches labels offset i then makeCJ i else i) :: roundInsts labels (offset + size i) rest

/-- The second loop. -/
def roundBlocks (labels : MCSymbol → Option Nat) : Nat → List BasicBlock → List BasicBlock
  | _, [] => []
  | offset, b :: rest =>
    { b with insts := roundInsts size labels offset b.insts } ::
      roundBlocks labels (offset + (b.insts.map size).sum) rest

/-- `ChangedThisRound`. -/
def changedIn (labels : MCSymbol → Option Nat) : Nat → List Item → Nat
  | _, [] => 0
  | offset, .label _ :: rest => changedIn labels offset rest
  | offset, .inst i :: rest =>
    (if reaches labels offset i then 1 else 0) + changedIn labels (offset + size i) rest

/-- The rounds; the number is `Changed`. -/
def compressRounds (dryRun : Bool) : Nat → Nat → List BasicBlock → Option (List BasicBlock × Nat)
  | 0, _, _ => none
  | n + 1, changed, blocks =>
    let labels := labelOffset size 0 (items blocks)
    let changedThisRound := changedIn size labels 0 (items blocks)
    let left := if dryRun then blocks else roundBlocks size labels 0 blocks
    if dryRun ∨ changedThisRound = 0 then some (left, changed + changedThisRound)
    else compressRounds dryRun n (changed + changedThisRound) left

/-- The jumps that the pass may compress. -/
def directJumps (its : List Item) : Nat :=
  its.countP fun
    | .inst i => (directJump i).isSome
    | .label _ => false

/-- `compressDirectJumps`. -/
def compressDirectJumps (dryRun : Bool) (blocks : List BasicBlock) :
    Option (List BasicBlock × Nat) :=
  compressRounds size dryRun (directJumps (items blocks) + 1) 0 blocks

end Pass

/-! ## Layouts -/

section Layout

variable {size : MCInst → Nat}

/-- What the emitter makes of jumps: four bytes, and two. -/
structure SizedJumps (size : MCInst → Nat) : Prop where
  jal : ∀ i, i.opcode = .jal → size i = 4
  cJ : ∀ i, i.opcode = .cJ → size i = 2

/-- The offset of the item at a place. -/
def offsetAt (size : MCInst → Nat) (its : List Item) (p : Nat) : Nat := codeSize size (its.take p)

@[simp] theorem codeSize_nil : codeSize size [] = 0 := rfl

@[simp] theorem codeSize_cons (x : Item) (its : List Item) :
    codeSize size (x :: its) = x.bytes size + codeSize size its := by
  rw [codeSize, List.map_cons, List.sum_cons, codeSize]

theorem codeSize_append (a b : List Item) :
    codeSize size (a ++ b) = codeSize size a + codeSize size b := by
  rw [codeSize, List.map_append, List.sum_append, codeSize, codeSize]

theorem offsetAt_add (its : List Item) (p n : Nat) :
    offsetAt size its (p + n) = offsetAt size its p + codeSize size ((its.drop p).take n) := by
  rw [offsetAt, offsetAt, List.take_add, codeSize_append]

/-- The place of the last label of a name. -/
def labelPlace : List Item → MCSymbol → Option Nat
  | [], _ => none
  | x :: rest, t =>
    match labelPlace rest t with
    | some q => some (q + 1)
    | none => if x = .label t then some 0 else none

/-- A label's offset is that of its place. -/
theorem labelOffset_eq (its : List Item) (offset : Nat) (t : MCSymbol) :
    labelOffset size offset its t =
      (labelPlace its t).map fun q => offset + offsetAt size its q := by
  induction its generalizing offset with
  | nil => rfl
  | cons x its ih =>
    have hnext : ∀ q, offsetAt size (x :: its) (q + 1) = x.bytes size + offsetAt size its q :=
      fun q => by rw [offsetAt, offsetAt, List.take_succ_cons, codeSize_cons]
    cases x with
    | inst i =>
      rw [labelOffset, ih, labelPlace]
      cases labelPlace its t with
      | none => simp
      | some q => simp [hnext, Item.bytes, Nat.add_assoc]
    | label l =>
      rw [labelOffset, ih, labelPlace]
      cases labelPlace its t with
      | none =>
        by_cases hl : l = t
        · simp [hl, offsetAt]
        · simp [hl]
      | some q => simp [hnext, Item.bytes]

/-- An item that a round may leave in the place of another. -/
def Shrunk (x y : Item) : Prop :=
  y = x ∨ ∃ i, x = .inst i ∧ (directJump i).isSome ∧ y = .inst (makeCJ i)

theorem directJump_makeCJ (i : MCInst) : directJump (makeCJ i) = none :=
  if_neg fun h => absurd h.1 (by simp [makeCJ])

theorem opcode_of_directJump {i : MCInst} (h : (directJump i).isSome) : i.opcode = .jal := by
  rw [directJump] at h
  split at h
  next hjump => exact hjump.1
  · exact absurd h (by simp)

theorem Shrunk.trans {x y z : Item} (hxy : Shrunk x y) (hyz : Shrunk y z) : Shrunk x z := by
  rcases hyz with rfl | ⟨j, rfl, hj, rfl⟩
  · exact hxy
  · rcases hxy with heq | ⟨i, rfl, hi, heq⟩
    · exact .inr ⟨j, heq.symm, hj, rfl⟩
    · obtain rfl : j = makeCJ i := by simpa using heq
      rw [directJump_makeCJ] at hj
      exact absurd hj (by simp)

theorem size_shrunk (h : SizedJumps size) {x y : Item} (hs : Shrunk x y) :
    ∃ k, x.bytes size = y.bytes size + 2 * k := by
  rcases hs with rfl | ⟨i, rfl, hi, rfl⟩
  · exact ⟨0, rfl⟩
  · refine ⟨1, ?_⟩
    rw [Item.bytes, Item.bytes, h.jal i (opcode_of_directJump hi), h.cJ _ rfl]

theorem codeSize_shrunk (h : SizedJumps size) {xs ys : List Item} (hs : List.Forall₂ Shrunk xs ys) :
    ∃ k, codeSize size xs = codeSize size ys + 2 * k := by
  induction hs with
  | nil => exact ⟨0, rfl⟩
  | cons hxy _ ih =>
    obtain ⟨k, hk⟩ := size_shrunk h hxy
    obtain ⟨l, hl⟩ := ih
    refine ⟨k + l, ?_⟩
    rw [codeSize_cons, codeSize_cons, hk, hl]
    omega

theorem labelPlace_shrunk {xs ys : List Item} (hs : List.Forall₂ Shrunk xs ys) (t : MCSymbol) :
    labelPlace ys t = labelPlace xs t := by
  induction hs with
  | nil => rfl
  | cons hxy _ ih =>
    rw [labelPlace, labelPlace, ih]
    rcases hxy with rfl | ⟨i, rfl, -, rfl⟩
    · rfl
    · simp

/-- **Distances shrink**: one that a `C_J` reaches stays one that it reaches. -/
theorem distance_shrinks (h : SizedJumps size) {xs ys : List Item} (hs : List.Forall₂ Shrunk xs ys)
    {p q : Nat} (hreach : isCJOffset ((offsetAt size xs q : Int) - offsetAt size xs p)) :
    isCJOffset ((offsetAt size ys q : Int) - offsetAt size ys p) := by
  have hpart : ∀ a n, ∃ k, codeSize size ((xs.drop a).take n) =
      codeSize size ((ys.drop a).take n) + 2 * k := fun a n =>
    codeSize_shrunk h (List.forall₂_take n (List.forall₂_drop a hs))
  rw [isCJOffset, decide_eq_true_eq] at hreach ⊢
  rcases Nat.le_total p q with hpq | hqp
  · obtain ⟨n, rfl⟩ := Nat.exists_eq_add_of_le hpq
    obtain ⟨k, hk⟩ := hpart p n
    rw [offsetAt_add, hk] at hreach
    rw [offsetAt_add]
    omega
  · obtain ⟨n, rfl⟩ := Nat.exists_eq_add_of_le hqp
    obtain ⟨k, hk⟩ := hpart q n
    rw [offsetAt_add, hk] at hreach
    rw [offsetAt_add]
    omega

end Layout

/-! ## A round -/

section Round

variable (size : MCInst → Nat) (labels : MCSymbol → Option Nat)

/-- What a round makes of an item at `offset`. -/
def roundItem (offset : Nat) : Item → Item
  | .label l => .label l
  | .inst i => .inst (if reaches labels offset i then makeCJ i else i)

/-- What a round makes of items. -/
def roundItems : Nat → List Item → List Item
  | _, [] => []
  | offset, x :: rest => roundItem labels offset x :: roundItems (offset + x.bytes size) rest

theorem roundItems_append (offset : Nat) (a b : List Item) :
    roundItems size labels offset (a ++ b) =
      roundItems size labels offset a ++ roundItems size labels (offset + codeSize size a) b := by
  induction a generalizing offset with
  | nil => rfl
  | cons x a ih =>
    rw [List.cons_append, roundItems, roundItems, ih, codeSize_cons, List.cons_append,
      Nat.add_assoc]

theorem roundItems_insts (offset : Nat) (insts : List MCInst) :
    roundItems size labels offset (insts.map .inst) =
      (roundInsts size labels offset insts).map .inst := by
  induction insts generalizing offset with
  | nil => rfl
  | cons i insts ih =>
    rw [List.map_cons, roundItems, roundInsts, List.map_cons, ← ih]
    rfl

theorem items_cons (b : BasicBlock) (blocks : List BasicBlock) :
    items (b :: blocks) = (.label b.label :: b.insts.map .inst) ++ items blocks :=
  List.flatMap_cons

theorem items_roundBlocks (offset : Nat) (blocks : List BasicBlock) :
    items (roundBlocks size labels offset blocks) =
      roundItems size labels offset (items blocks) := by
  induction blocks generalizing offset with
  | nil => rfl
  | cons b blocks ih =>
    have hsize : codeSize size (.label b.label :: b.insts.map .inst) =
        (b.insts.map size).sum := by
      rw [codeSize_cons, codeSize, List.map_map, Item.bytes, Nat.zero_add]
      rfl
    rw [roundBlocks, items_cons, items_cons, roundItems_append, hsize, ih, roundItems,
      roundItems_insts]
    rfl

theorem getElem?_roundItems (offset : Nat) (its : List Item) (p : Nat) :
    (roundItems size labels offset its)[p]? =
      its[p]?.map (roundItem labels (offset + offsetAt size its p)) := by
  induction its generalizing offset p with
  | nil => rfl
  | cons x its ih =>
    rw [roundItems]
    cases p with
    | zero => rfl
    | succ p =>
      rw [List.getElem?_cons_succ, List.getElem?_cons_succ, ih, offsetAt, offsetAt,
        List.take_succ_cons, codeSize_cons, Nat.add_assoc]

variable {size labels}

theorem isSome_of_reaches {offset : Nat} {i : MCInst} (h : reaches labels offset i) :
    (directJump i).isSome := by
  rw [reaches] at h
  split at h
  next target htarget =>
    obtain ⟨t, ht, -⟩ := Option.bind_eq_some_iff.mp htarget
    rw [ht]
    rfl
  · exact absurd h (by simp)

theorem shrunk_roundItem (offset : Nat) (x : Item) : Shrunk x (roundItem labels offset x) := by
  cases x with
  | label l => exact .inl rfl
  | inst i =>
    rw [roundItem]
    split
    next h => exact .inr ⟨i, rfl, isSome_of_reaches h, rfl⟩
    · exact .inl rfl

theorem shrunk_roundItems (size : MCInst → Nat) (labels : MCSymbol → Option Nat) (offset : Nat)
    (its : List Item) :
    List.Forall₂ Shrunk its (roundItems size labels offset its) := by
  induction its generalizing offset with
  | nil => exact .nil
  | cons x its ih => exact .cons (shrunk_roundItem offset x) (ih _)

theorem directJumps_cons (x : Item) (its : List Item) :
    directJumps (x :: its) = directJumps [x] + directJumps its := by
  rw [directJumps, directJumps, directJumps, ← List.countP_append]
  rfl

/-- A round counts the jumps it takes away. -/
theorem directJumps_roundItems (size : MCInst → Nat) (labels : MCSymbol → Option Nat)
    (offset : Nat) (its : List Item) :
    directJumps (roundItems size labels offset its) + changedIn size labels offset its =
      directJumps its := by
  induction its generalizing offset with
  | nil => rfl
  | cons x its ih =>
    rw [roundItems, directJumps_cons, directJumps_cons x, ← ih (offset + x.bytes size)]
    cases x with
    | label l => simp [changedIn, roundItem, directJumps, Item.bytes]
    | inst i =>
      rw [changedIn, roundItem, Item.bytes]
      by_cases h : reaches labels offset i
      · have hjump := isSome_of_reaches h
        simp [h, directJumps, directJump_makeCJ, hjump]
        omega
      · simp [h, directJumps]
        omega

/-- A round without changes: no jump reaches its target, and all is left as it was. -/
theorem of_changedIn {offset : Nat} {its : List Item} (h : changedIn size labels offset its = 0) :
    roundItems size labels offset its = its ∧
      ∀ p i, its[p]? = some (.inst i) →
        reaches labels (offset + offsetAt size its p) i = false := by
  induction its generalizing offset with
  | nil => exact ⟨rfl, fun p i hi => absurd hi (by simp)⟩
  | cons x its ih =>
    have hsplit : changedIn size labels (offset + x.bytes size) its = 0 ∧
        ∀ i, x = .inst i → reaches labels offset i = false := by
      cases x with
      | label l => exact ⟨h, fun i hi => absurd hi (by simp)⟩
      | inst j =>
        rw [changedIn, Nat.add_eq_zero_iff] at h
        refine ⟨h.2, fun i hi => ?_⟩
        obtain rfl : j = i := by simpa using hi
        by_contra hreach
        rw [Bool.not_eq_false] at hreach
        rw [if_pos hreach] at h
        exact absurd h.1 Nat.one_ne_zero
    obtain ⟨hkept, hnone⟩ := ih hsplit.1
    refine ⟨?_, fun p i hi => ?_⟩
    · rw [roundItems, hkept]
      cases x with
      | label l => rfl
      | inst i =>
        rw [roundItem, hsplit.2 i rfl]
        rfl
    · cases p with
      | zero => exact hsplit.2 i (by simpa using hi)
      | succ p =>
        have := hnone p i hi
        rwa [offsetAt, List.take_succ_cons, codeSize_cons, ← Nat.add_assoc]

end Round

/-! ## The rounds -/

section Rounds

variable {size : MCInst → Nat}

/-- From place `p` a `C_J` reaches the label. -/
def ReachesFrom (size : MCInst → Nat) (its : List Item) (p : Nat) (t : MCSymbol) : Prop :=
  ∃ target, labelOffset size 0 its t = some target ∧
    isCJOffset ((target : Int) - offsetAt size its p)

theorem ReachesFrom.shrunk (h : SizedJumps size) {xs ys : List Item}
    (hs : List.Forall₂ Shrunk xs ys) {p : Nat} {t : MCSymbol} (hreach : ReachesFrom size xs p t) :
    ReachesFrom size ys p t := by
  obtain ⟨target, htarget, hoff⟩ := hreach
  rw [labelOffset_eq] at htarget
  obtain ⟨q, hq, rfl⟩ := Option.map_eq_some_iff.mp htarget
  rw [Nat.zero_add] at hoff
  refine ⟨offsetAt size ys q, ?_, distance_shrinks h hs hoff⟩
  rw [labelOffset_eq, labelPlace_shrunk hs, hq, Option.map_some, Nat.zero_add]

theorem reachesFrom_iff {its : List Item} {p : Nat} {i : MCInst} {t : MCSymbol}
    (hi : directJump i = some t) :
    reaches (labelOffset size 0 its) (offsetAt size its p) i = true ↔ ReachesFrom size its p t := by
  rw [reaches, hi, Option.bind_some, ReachesFrom]
  cases labelOffset size 0 its t with
  | none => simp
  | some target => simp

/-- What the rounds keep: the jumps that were compressed reach their targets. -/
structure Selected (size : MCInst → Nat) (its left : List Item) : Prop where
  shrunk : List.Forall₂ Shrunk its left
  reach : ∀ p i j, its[p]? = some (.inst i) → left[p]? = some (.inst j) → j ≠ i →
    ∃ t, directJump i = some t ∧ j = makeCJ i ∧ ReachesFrom size left p t

theorem Selected.refl (its : List Item) : Selected size its its where
  shrunk := List.forall₂_same.mpr fun _ _ => .inl rfl
  reach := fun p i j hi hj hne => absurd (by simpa [hi] using hj.symm) hne

theorem forall₂_trans {xs ys zs : List Item} (hxy : List.Forall₂ Shrunk xs ys)
    (hyz : List.Forall₂ Shrunk ys zs) : List.Forall₂ Shrunk xs zs := by
  induction hxy generalizing zs with
  | nil => exact hyz
  | cons hhead _ ih =>
    cases hyz with
    | cons hhead' htail => exact .cons (hhead.trans hhead') (ih htail)

/-- **What a round keeps.** -/
theorem Selected.round (h : SizedJumps size) {its left : List Item} (hs : Selected size its left) :
    Selected size its (roundItems size (labelOffset size 0 left) 0 left) where
  shrunk := forall₂_trans hs.shrunk (shrunk_roundItems _ _ 0 left)
  reach := by
    intro p i k hi hk hne
    have hshrunk := shrunk_roundItems size (labelOffset size 0 left) 0 left
    rw [getElem?_roundItems, Nat.zero_add] at hk
    obtain ⟨x, hx, hround⟩ := Option.map_eq_some_iff.mp hk
    cases x with
    | label l => exact absurd hround (by simp [roundItem])
    | inst j =>
      by_cases hnew : reaches (labelOffset size 0 left) (offsetAt size left p) j = true
      · -- the jump is compressed in this round, so it was not before
        obtain rfl : makeCJ j = k := by simpa [roundItem, hnew] using hround
        obtain ⟨t, ht⟩ := Option.isSome_iff_exists.mp (isSome_of_reaches hnew)
        obtain rfl : j = i := by
          by_contra hji
          obtain ⟨-, -, rfl, -⟩ := hs.reach p i j hi hx hji
          rw [directJump_makeCJ] at ht
          exact absurd ht (by simp)
        exact ⟨t, ht, rfl, ((reachesFrom_iff ht).mp hnew).shrunk h hshrunk⟩
      · obtain rfl : j = k := by simpa [roundItem, hnew] using hround
        obtain ⟨t, ht, hcj, hreach⟩ := hs.reach p i j hi hx hne
        exact ⟨t, ht, hcj, hreach.shrunk h hshrunk⟩

/-- No jump is left that could be compressed. -/
def Exhausted (size : MCInst → Nat) (its : List Item) : Prop :=
  ∀ p i t, its[p]? = some (.inst i) → directJump i = some t → ¬ ReachesFrom size its p t

theorem compressRounds_spec (h : SizedJumps size) {n changed : Nat} {its : List Item}
    {blocks : List BasicBlock} (hn : directJumps (items blocks) < n)
    (hs : Selected size its (items blocks)) :
    ∃ out total, compressRounds size false n changed blocks = some (out, total) ∧
      total + directJumps (items out) = changed + directJumps (items blocks) ∧
      Selected size its (items out) ∧ Exhausted size (items out) := by
  induction n generalizing changed blocks with
  | zero => exact absurd hn (Nat.not_lt_zero _)
  | succ n ih =>
    have hround := items_roundBlocks size (labelOffset size 0 (items blocks)) 0 blocks
    have hcount := directJumps_roundItems size (labelOffset size 0 (items blocks)) 0 (items blocks)
    rw [compressRounds]
    simp only [Bool.false_eq_true, false_or, if_false]
    split
    next hquiet =>
      obtain ⟨hkept, hnone⟩ := of_changedIn hquiet
      refine ⟨_, _, rfl, ?_, ?_, ?_⟩
      · rw [hquiet, hround, hkept, Nat.add_zero]
      · rw [hround, hkept]
        exact hs
      · rw [hround, hkept]
        intro p i t hi ht hreach
        have hreaches := (reachesFrom_iff ht).mpr hreach
        have := hnone p i hi
        rw [Nat.zero_add, hreaches] at this
        exact absurd this (by simp)
    next hchanged =>
      obtain ⟨out, total, hout, htotal, hsel, hex⟩ := @ih
        (changed + changedIn size (labelOffset size 0 (items blocks)) 0 (items blocks))
        (roundBlocks size (labelOffset size 0 (items blocks)) 0 blocks)
        (by rw [hround]; omega) (by rw [hround]; exact hs.round h)
      refine ⟨out, total, hout, ?_, hsel, hex⟩
      rw [htotal, hround]
      omega

/-- **Jump compression ends in a sound fixpoint**: in the layout that is left, every jump that was
compressed reaches its target as `C_J`, and every other jump to a block of the function does not. -/
theorem compressDirectJumps_spec (h : SizedJumps size) (blocks : List BasicBlock) :
    ∃ out total, compressDirectJumps size false blocks = some (out, total) ∧
      total + directJumps (items out) = directJumps (items blocks) ∧
      Selected size (items blocks) (items out) ∧ Exhausted size (items out) := by
  obtain ⟨out, total, hout, htotal, hsel, hex⟩ := @compressRounds_spec size h _ 0 _ _
    (Nat.lt_succ_self (directJumps (items blocks))) (.refl (items blocks))
  exact ⟨out, total, hout, by rw [htotal, Nat.zero_add], hsel, hex⟩

/-- Jumps have their sizes, and all else takes four bytes. -/
def baseSize (i : MCInst) : Nat := if i.opcode = .cJ then 2 else 4

theorem baseSize_sized : SizedJumps baseSize where
  jal := fun i hi => by rw [baseSize, hi]; rfl
  cJ := fun i hi => by rw [baseSize, hi]; rfl

/-- A jump back to the beginning of its block. -/
def selfLoop : List BasicBlock :=
  [⟨1, [⟨.addi, [.reg (gpr 10), .reg (gpr 10), .imm 1], false⟩,
    ⟨.jal, [.reg (gpr 0), .expr (.symbolRef 0 1)], false⟩], [1], [1]⟩]

theorem compressDirectJumps_selfLoop :
    ∃ out total, compressDirectJumps baseSize false selfLoop = some (out, total) ∧
      total + directJumps (items out) = directJumps (items selfLoop) ∧
      Selected baseSize (items selfLoop) (items out) ∧ Exhausted baseSize (items out) :=
  compressDirectJumps_spec baseSize_sized selfLoop

end Rounds

end RvLlvm.Bolt
