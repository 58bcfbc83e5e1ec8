import RvLlvm.Lld.SymbolAnchors
import RvLlvm.Support.Splice

/-!
# Rewriting a relaxed section

Model of `RISCV::finalizeRelax` for one section (`lld/ELF/Arch/RISCV.cpp:751-853`).

* `finalizeSection` is the body of its loop over the sections: `none` is a copy or a write outside
  the section or its new contents, or a failed assertion. `Rewriter` is its locals, `shiftLoop` its
  second loop.
* `decisions`: what `relax` decided for each relocation; `relaxLoop_records` reads its deltas,
  types and writes off them.
* `patches`: the ranges of the section that the decisions replace, and by what.
-/

namespace RvLlvm.Lld

open RvLlvm.Support

/-- The bytes `write16le` puts. -/
def le16 (w : Nat) : List UInt8 := [UInt8.ofNat w, UInt8.ofNat (w / 2 ^ 8)]

/-- The bytes `write32le` puts. -/
def le32 (w : Nat) : List UInt8 :=
  [UInt8.ofNat w, UInt8.ofNat (w / 2 ^ 8), UInt8.ofNat (w / 2 ^ 16), UInt8.ofNat (w / 2 ^ 24)]

/-- The padding left of an `R_RISCV_ALIGN`: `nop`s, and a `c.nop` where two bytes remain. Any other
rest fails the assertion. -/
def nops (skip : Int) : Option (List UInt8) :=
  let n := skip.toNat
  let words := (List.replicate (n / 4) (le32 0x00000013)).flatten
  if skip < 0 then none
  else if n % 4 = 0 then some words
  else if n % 4 = 2 then some (words ++ le16 0x0001)
  else none

/-- The bytes that stand for a relaxed relocation, the writes left and its `relocTypes[i]`. -/
def rewrite (r : Relocation) (t : RelType) (remove : Nat) (writes : List Nat) :
    Option (List UInt8 × List Nat × RelType) :=
  match r.type with
  | .align =>
    if remove % 4 ≠ 0 ∨ r.addend % 4 ≠ 0 then
      (nops (r.addend - remove)).map fun bytes => (bytes, writes, t)
    else some ([], writes, t)
  | _ =>
    match t, writes with
    | .none, _ => some ([], writes, t)
    | .gprelI, _ | .gprelS, _ | .relax, _ => some ([], writes, t)
    | .rvcJump, w :: rest => some (le16 w, rest, t)
    | .jal, w :: rest => some (le32 w, rest, t)
    | .abs32, w :: rest => some (le32 w, rest, .none)
    | _, _ => none

/-- The locals of `finalizeRelax` for a section: `out` is what lies before `p`, `writes` what is
left from `writesIdx` on. -/
structure Rewriter where
  out : List UInt8
  offset : Nat
  delta : Nat
  writes : List Nat
  types : List RelType

/-- A copy or write at `p`, which has to end within the new contents. -/
def Rewriter.put (x : Rewriter) (newSize : Nat) (bytes : List UInt8) : Option Rewriter :=
  if x.out.length + bytes.length ≤ newSize then some { x with out := x.out ++ bytes } else none

/-- `memcpy` of `old[from, to)`. -/
def copyRange (old : List UInt8) (start stop : Nat) : Option (List UInt8) :=
  if start ≤ stop ∧ stop ≤ old.length then some ((old.drop start).take (stop - start)) else none

/-- One turn of the first loop. -/
def rewriteStep (old : List UInt8) (newSize : Nat) (r : Relocation) (d : Nat) (t : RelType)
    (x : Rewriter) : Option Rewriter :=
  let remove := d - x.delta
  if remove = 0 ∧ t = .none then some { x with delta := d, types := x.types ++ [t] }
  else
    (copyRange old x.offset r.offset).bind fun kept =>
    (x.put newSize kept).bind fun y =>
    (rewrite r t remove x.writes).bind fun (bytes, writes, t') =>
    (y.put newSize bytes).map fun z =>
      { z with
        offset := r.offset + bytes.length + remove
        delta := d
        writes := writes
        types := x.types ++ [t'] }

/-- The first loop, over the relocations left with their deltas and types. -/
def rewriteLoop (old : List UInt8) (newSize : Nat) :
    List Relocation → List Nat → List RelType → Rewriter → Option Rewriter
  | r :: rest, d :: ds, t :: ts, x =>
    (rewriteStep old newSize r d t x).bind (rewriteLoop old newSize rest ds ts)
  | _, _, _, x => some x

/-- The second loop: `delta` is for the relocations at offset `cur`, `last` the delta of the one
visited last. -/
def shiftLoop : Nat → Nat → Nat → List Relocation → List Nat → List RelType → List Relocation
  | delta, cur, last, r :: rest, d :: ds, t :: ts =>
    let r' := if t = .none then r else { r with type := t }
    if r.offset = cur then
      { r' with offset := r.offset - delta } :: shiftLoop delta cur d rest ds ts
    else { r' with offset := r.offset - last } :: shiftLoop last r.offset d rest ds ts
  | _, _, _, _, _, _ => []

/-- A rewritten section: its contents, its relocations and the writes nothing took. -/
structure Rewritten where
  content : List UInt8
  rels : List Relocation
  unused : List Nat

/-- The body of `finalizeRelax` for a section with relocations. -/
def finalizeSection (old : List UInt8) (rels : List Relocation) (deltas : List Nat)
    (types : List RelType) (writes : List Nat) : Option Rewritten :=
  let last := deltas.getLastD 0
  if old.length < last then none
  else
    (rewriteLoop old (old.length - last) rels deltas types ⟨[], 0, 0, writes, []⟩).bind fun x =>
    (copyRange old x.offset old.length).bind fun rest =>
    (x.put (old.length - last) rest).map fun y =>
      ⟨y.out, shiftLoop 0 ((rels.map Relocation.offset).headD 0) 0 rels deltas x.types, x.writes⟩

namespace Link

variable {L : Link}

/-! ## What `relax` decided -/

/-- The decisions of the loop of `relax`, one for each relocation left. -/
def decisionsLoop (L : Link) (s : SecId) (secAddr : Int) :
    List Relocation → List Nat → RelaxState → List Relaxed
  | [], _, _ => []
  | r :: rest, olds, x =>
    L.relaxReloc x.st s (secAddr + r.offset - x.delta) r rest ::
      decisionsLoop L s secAddr rest olds.tail (L.relaxStep s secAddr r rest (olds.headD 0) x)

/-- The decisions of `relax` for section `s`. -/
def decisions (L : Link) (st : State) (s : SecId) : List Relaxed :=
  decisionsLoop L s (L.secVA st s) (L.input s).relocs (st.deltas s)
    ⟨st, 0, st.anchors s, [], [], [], false⟩

/-- The deltas that record decisions, `acc` bytes being gone before them. -/
def recordDeltas : Nat → List Relaxed → List Nat
  | _, [] => []
  | acc, z :: zs => (acc + z.remove) :: recordDeltas (acc + z.remove) zs

/-- **The loop of `relax` records its decisions.** -/
theorem relaxLoop_records (s : SecId) (secAddr : Int) :
    ∀ (rs : List Relocation) (olds : List Nat) (x : RelaxState),
      let zs := decisionsLoop L s secAddr rs olds x
      let y := L.relaxLoop s secAddr rs olds x
      zs.length = rs.length ∧ y.deltas = x.deltas ++ recordDeltas x.delta zs ∧
        y.types = x.types ++ zs.map Relaxed.type ∧ y.writes = x.writes ++ zs.flatMap Relaxed.writes
  | [], _, x => by simp [relaxLoop, decisionsLoop, recordDeltas]
  | r :: rest, olds, x => by
    obtain ⟨hlen, hdeltas, htypes, hwrites⟩ := relaxLoop_records s secAddr rest olds.tail
      (L.relaxStep s secAddr r rest (olds.headD 0) x)
    simp only [relaxLoop, decisionsLoop, List.length_cons, hlen, hdeltas, htypes, hwrites,
      List.map_cons, List.flatMap_cons, recordDeltas]
    simp only [relaxStep, List.append_assoc, List.singleton_append]
    exact ⟨trivial, trivial, trivial, trivial⟩

theorem relax_records (st : State) (s : SecId) :
    let st' := (L.relax st s).1
    (decisions L st s).length = (L.input s).relocs.length ∧
      st'.deltas s = recordDeltas 0 (decisions L st s) ∧
      st'.types s = (decisions L st s).map Relaxed.type ∧
      st'.writes s = (decisions L st s).flatMap Relaxed.writes := by
  obtain ⟨hlen, hdeltas, htypes, hwrites⟩ := relaxLoop_records (L := L) s (L.secVA st s)
    (L.input s).relocs (st.deltas s) ⟨st, 0, st.anchors s, [], [], [], false⟩
  simp only [relax_eq, Function.update_self]
  exact ⟨hlen, hdeltas, htypes, hwrites⟩

/-- The kinds of decision `relax` takes for a relocation. -/
inductive Decision (r : Relocation) : Relaxed → Prop
  | padding (n : Nat) : r.type = .align → Decision r ⟨.none, [], n⟩
  | stays : r.type ≠ .align → Decision r unrelaxed
  | short (w : Nat) : r.type ≠ .align → Decision r ⟨.rvcJump, [w], 6⟩
  | jal (w : Nat) : r.type ≠ .align → Decision r ⟨.jal, [w], 4⟩
  | deleted : r.type ≠ .align → Decision r ⟨.relax, [], 4⟩
  | patched (w : Nat) : r.type ≠ .align → Decision r ⟨.abs32, [w], 0⟩
  | gprelI : r.type ≠ .align → Decision r ⟨.gprelI, [], 0⟩
  | gprelS : r.type ≠ .align → Decision r ⟨.gprelS, [], 0⟩

theorem relaxReloc_decision (st : State) (s : SecId) (loc : Int) (r : Relocation)
    (rest : List Relocation) : Decision r (L.relaxReloc st s loc r rest) := by
  have hcall : r.type ≠ .align → Decision r (L.relaxCall st s loc r) := fun h => by
    simp only [relaxCall]
    generalize (if r.pltPc = true then L.pltVA st r.sym else L.symVA st r.sym 0) = dest
    split_ifs
    · exact .short _ h
    · exact .short _ h
    · exact .jal _ h
    · exact .stays h
  have htls : r.type ≠ .align → Decision r (L.relaxTlsLe st s r) := fun h => by
    simp only [relaxTlsLe]
    split
    · exact .stays h
    · split
      · exact .deleted h
      · exact .deleted h
      · exact .patched _ h
      · exact .patched _ h
      · exact .stays h
  have hgp : r.type ≠ .align → Decision r (L.relaxHi20Lo12 st r) := fun h => by
    unfold relaxHi20Lo12
    split
    · exact .stays h
    · split
      · exact .stays h
      · split
        · exact .deleted h
        · exact .gprelI h
        · exact .gprelS h
        · exact .stays h
  unfold relaxReloc
  split
  · rename_i hty
    exact .padding _ hty
  iterate 9
    rename_i hty
    have hne : r.type ≠ .align := by rw [hty]; decide
    split
    · first
        | exact hcall hne
        | exact htls hne
        | exact hgp hne
    · exact .stays hne
  · rename_i hty _ _ _ _ _ _ _ _ _
    exact .stays hty

/-! ## The patches of a section -/

/-- The bytes that stand for a relocation after decision `z`. -/
def encoding (r : Relocation) (z : Relaxed) : List UInt8 :=
  match r.type with
  | .align =>
    if z.remove % 4 ≠ 0 ∨ r.addend % 4 ≠ 0 then (nops (r.addend - z.remove)).getD [] else []
  | _ =>
    match z.type, z.writes with
    | .rvcJump, w :: _ => le16 w
    | .jal, w :: _ => le32 w
    | .abs32, w :: _ => le32 w
    | _, _ => []

/-- The padding left of an `R_RISCV_ALIGN` that is rewritten is made of whole `nop`s. -/
def paddingFits (r : Relocation) (z : Relaxed) : Bool :=
  match r.type with
  | .align =>
    if z.remove % 4 ≠ 0 ∨ r.addend % 4 ≠ 0 then (nops (r.addend - z.remove)).isSome else true
  | _ => true

/-- `finalizeRelax` passes the relocation by. -/
def untouched (z : Relaxed) : Prop := z.remove = 0 ∧ z.type = .none

instance (z : Relaxed) : Decidable (untouched z) := inferInstanceAs (Decidable (_ ∧ _))

/-- The range of the section that decision `z` replaces: the bytes that stand for it and the ones
given up. -/
def patchOf (r : Relocation) (z : Relaxed) : Patch UInt8 :=
  ⟨r.offset, (encoding r z).length + z.remove, encoding r z⟩

/-- The patches of a section. -/
def patches : List Relocation → List Relaxed → List (Patch UInt8)
  | r :: rs, z :: zs => if untouched z then patches rs zs else patchOf r z :: patches rs zs
  | _, _ => []

/-- The ranges the decisions replace lie in the section, one after the other, and the padding that
is rewritten is whole. -/
structure RangesFit (size : Nat) (rs : List Relocation) (zs : List Relaxed) : Prop where
  ranges : PatchesFit size 0 (patches rs zs)
  padding : ∀ p ∈ rs.zip zs, ¬ untouched p.2 → paddingFits p.1 p.2 = true

@[simp] theorem patchOf_lost (r : Relocation) (z : Relaxed) : (patchOf r z).lost = z.remove := by
  simp [Patch.lost, patchOf]

/-- What the patches lose before an offset is what the relocations before it gave up. -/
theorem gone_patches (o : Nat) :
    ∀ (rs : List Relocation) (zs : List Relaxed) (acc : Nat), rs.length = zs.length →
      gone o (patches rs zs) = removedBy (before o) rs (recordDeltas acc zs) acc
  | [], [], _, _ => rfl
  | r :: rs, z :: zs, acc, hlen => by
    have ih := gone_patches o rs zs (acc + z.remove) (by simpa using hlen)
    have hbefore : before o r = decide (r.offset < o) := by
      simp [before]
    rw [patches, recordDeltas, removedBy, hbefore, ← ih]
    by_cases hz : untouched z
    · rw [if_pos hz, hz.1]
      simp
    · rw [if_neg hz, gone_cons, patchOf_lost]
      by_cases hlt : r.offset < o <;> simp [patchOf, hlt]

theorem lost_patches :
    ∀ (rs : List Relocation) (zs : List Relaxed) (acc : Nat), rs.length = zs.length →
      ((patches rs zs).map Patch.lost).sum + acc = (recordDeltas acc zs).getLastD acc
  | [], [], _, _ => by simp [patches, recordDeltas]
  | r :: rs, z :: zs, acc, hlen => by
    have ih := lost_patches rs zs (acc + z.remove) (by simpa using hlen)
    have hlast : (recordDeltas acc (z :: zs)).getLastD acc =
        (recordDeltas (acc + z.remove) zs).getLastD (acc + z.remove) := by
      rw [recordDeltas]
      cases recordDeltas (acc + z.remove) zs <;> rfl
    rw [hlast, ← ih, patches]
    by_cases hz : untouched z
    · rw [if_pos hz, hz.1, Nat.add_zero]
    · rw [if_neg hz, List.map_cons, List.sum_cons, patchOf_lost]
      omega

/-! ## The first loop -/

/-- `relocTypes[i]` after the first loop. -/
def finalType (z : Relaxed) : RelType := if z.type = .abs32 then .none else z.type

variable {r : Relocation} {z : Relaxed} {old : List UInt8} {rs : List Relocation}

/-- Rewriting takes the writes of its own decision. -/
theorem rewrite_decision (h : Decision r z) (writes : List Nat) :
    rewrite r z.type z.remove (z.writes ++ writes) =
      if paddingFits r z then some (encoding r z, writes, finalType z) else none := by
  cases h with
  | padding n hty =>
    simp only [rewrite, hty, paddingFits, encoding, List.nil_append, finalType]
    by_cases hcond : n % 4 ≠ 0 ∨ r.addend % 4 ≠ 0
    · rw [if_pos hcond, if_pos hcond, if_pos hcond]
      cases nops (r.addend - n) <;> simp
    · rw [if_neg hcond, if_neg hcond, if_neg hcond]
      simp
  | _ hty =>
    unfold rewrite paddingFits encoding
    split
    · rename_i halign
      exact absurd halign (by assumption)
    · rfl

/-- Every relocation has its decision. -/
def AllDecided : List Relocation → List Relaxed → Prop
  | r :: rs, z :: zs => Decision r z ∧ AllDecided rs zs
  | [], [] => True
  | _, _ => False

theorem decisionsLoop_decided (s : SecId) (secAddr : Int) :
    ∀ (rs : List Relocation) (olds : List Nat) (x : RelaxState),
      AllDecided rs (decisionsLoop L s secAddr rs olds x)
  | [], _, _ => trivial
  | r :: rest, olds, x =>
    ⟨relaxReloc_decision _ _ _ _ _, decisionsLoop_decided s secAddr rest olds.tail _⟩

theorem AllDecided.length : ∀ {rs : List Relocation} {zs : List Relaxed}, AllDecided rs zs →
    rs.length = zs.length
  | [], [], _ => rfl
  | _ :: _, _ :: _, h => by rw [List.length_cons, List.length_cons, h.2.length]

theorem Decision.writes_nil (h : Decision r z) (hz : untouched z) : z.writes = [] := by
  cases h with
  | short w _ => exact absurd hz.2 (by simp)
  | jal w _ => exact absurd hz.2 (by simp)
  | patched w _ => exact absurd hz.2 (by simp)
  | _ => rfl

theorem finalType_untouched (hz : untouched z) : finalType z = z.type := by
  rw [finalType, hz.2]
  rfl

/-- One turn of the loop on a relocation it passes by. -/
theorem rewriteStep_untouched {newSize acc : Nat} {x : Rewriter} (hx : x.delta = acc)
    (hz : untouched z) :
    rewriteStep old newSize r (acc + z.remove) z.type x =
      some { x with delta := acc + z.remove, types := x.types ++ [finalType z] } := by
  have hsub : acc + z.remove - acc = z.remove := Nat.add_sub_cancel_left _ _
  have hz' : z.remove = 0 ∧ z.type = .none := hz
  simp only [rewriteStep, hx, hsub]
  rw [if_pos hz', finalType_untouched hz]

/-- One turn of the loop on a relaxed relocation. -/
theorem rewriteStep_relaxed {newSize acc : Nat} {x : Rewriter} {writes : List Nat}
    (hdec : Decision r z) (hx : x.delta = acc) (hw : x.writes = z.writes ++ writes)
    (hz : ¬ untouched z) :
    rewriteStep old newSize r (acc + z.remove) z.type x =
      if x.offset ≤ r.offset ∧ r.offset ≤ old.length ∧ paddingFits r z = true ∧
        x.out.length + (r.offset - x.offset) + (encoding r z).length ≤ newSize
      then some
        { out := x.out ++ ((old.drop x.offset).take (r.offset - x.offset) ++ encoding r z)
          offset := r.offset + ((encoding r z).length + z.remove)
          delta := acc + z.remove
          writes := writes
          types := x.types ++ [finalType z] }
      else none := by
  have hsub : acc + z.remove - acc = z.remove := Nat.add_sub_cancel_left _ _
  have hz' : ¬ (z.remove = 0 ∧ z.type = .none) := hz
  simp only [rewriteStep, hx, hsub, if_neg hz', hw, rewrite_decision hdec, copyRange]
  generalize hn : x.out.length + (r.offset - x.offset) + (encoding r z).length = n
  by_cases hcopy : x.offset ≤ r.offset ∧ r.offset ≤ old.length
  · have htake : ((old.drop x.offset).take (r.offset - x.offset)).length =
        r.offset - x.offset := by
      rw [List.length_take, List.length_drop]
      omega
    rw [if_pos hcopy, Option.bind_some, Rewriter.put, htake]
    by_cases hkept : x.out.length + (r.offset - x.offset) ≤ newSize
    · rw [if_pos hkept, Option.bind_some]
      by_cases hpad : paddingFits r z = true
      · rw [if_pos hpad, Option.bind_some, Rewriter.put, List.length_append, htake, hn]
        by_cases hfit : n ≤ newSize
        · rw [if_pos hfit, if_pos ⟨hcopy.1, hcopy.2, hpad, hfit⟩]
          simp [Nat.add_assoc]
        · have hno : ¬ (x.offset ≤ r.offset ∧ r.offset ≤ old.length ∧ paddingFits r z = true ∧
              n ≤ newSize) := fun h => hfit h.2.2.2
          rw [if_neg hfit, if_neg hno]
          rfl
      · have hno : ¬ (x.offset ≤ r.offset ∧ r.offset ≤ old.length ∧ paddingFits r z = true ∧
            n ≤ newSize) := fun h => hpad h.2.2.1
        rw [if_neg hpad, if_neg hno]
        rfl
    · have hno : ¬ (x.offset ≤ r.offset ∧ r.offset ≤ old.length ∧ paddingFits r z = true ∧
          n ≤ newSize) := fun h => by
        have := h.2.2.2
        omega
      rw [if_neg hkept, if_neg hno]
      rfl
  · have hno : ¬ (x.offset ≤ r.offset ∧ r.offset ≤ old.length ∧ paddingFits r z = true ∧
        n ≤ newSize) := fun h => hcopy ⟨h.1, h.2.1⟩
    rw [if_neg hcopy, if_neg hno]
    rfl

/-- **The first loop builds the spliced contents** when the ranges fit, and takes every write. -/
theorem rewriteLoop_fits {old : List UInt8} {newSize : Nat} {writes : List Nat} :
    ∀ {rs : List Relocation} {zs : List Relaxed} {acc : Nat} {x : Rewriter}, AllDecided rs zs →
      x.delta = acc → x.writes = zs.flatMap Relaxed.writes ++ writes →
      PatchesFit old.length x.offset (patches rs zs) →
      (∀ p ∈ rs.zip zs, ¬ untouched p.2 → paddingFits p.1 p.2 = true) →
      x.out.length + (splice old x.offset (patches rs zs)).length ≤ newSize →
      ∃ y, rewriteLoop old newSize rs (recordDeltas acc zs) (zs.map Relaxed.type) x = some y ∧
        y.offset ≤ old.length ∧
        y.out ++ old.drop y.offset = x.out ++ splice old x.offset (patches rs zs) ∧
        y.writes = writes ∧ y.types = x.types ++ zs.map finalType
  | [], [], acc, x, _, _, hw, hfit, _, _ =>
    ⟨x, rfl, hfit, rfl, by simpa using hw, (List.append_nil _).symm⟩
  | r :: rs, z :: zs, acc, x, hdec, hx, hw, hfit, hpad, hsize => by
    obtain ⟨hd, hdec'⟩ := hdec
    have hpad' : ∀ p ∈ rs.zip zs, ¬ untouched p.2 → paddingFits p.1 p.2 = true := fun p hp =>
      hpad p (List.mem_cons_of_mem _ hp)
    rw [List.flatMap_cons, List.append_assoc] at hw
    rw [patches] at hfit hsize ⊢
    rw [recordDeltas, List.map_cons, rewriteLoop]
    by_cases hz : untouched z
    · rw [if_pos hz] at hfit hsize ⊢
      rw [hd.writes_nil hz, List.nil_append] at hw
      rw [rewriteStep_untouched hx hz, Option.bind_some]
      obtain ⟨y, hy, hoff, hout, hwrites, htypes⟩ := rewriteLoop_fits
        (x := { x with delta := acc + z.remove, types := x.types ++ [finalType z] })
        hdec' rfl hw hfit hpad' hsize
      exact ⟨y, hy, hoff, hout, hwrites, by rw [htypes, List.map_cons]; simp⟩
    · rw [if_neg hz] at hfit hsize ⊢
      obtain ⟨hle, _, hrest⟩ := hfit
      have hin := hrest.le_size
      have hlen : r.offset ≤ old.length := (Nat.le_add_right _ _).trans hin
      have htake : ((old.drop x.offset).take (r.offset - x.offset)).length =
          r.offset - x.offset := by
        rw [List.length_take, List.length_drop]
        omega
      have hsplice : splice old x.offset (patchOf r z :: patches rs zs) =
          (old.drop x.offset).take (r.offset - x.offset) ++ (encoding r z ++
            splice old (r.offset + ((encoding r z).length + z.remove)) (patches rs zs)) := rfl
      rw [hsplice] at hsize ⊢
      rw [List.length_append, htake, List.length_append] at hsize
      have hbudget : (x.out ++ ((old.drop x.offset).take (r.offset - x.offset) ++
          encoding r z)).length +
            (splice old (r.offset + ((encoding r z).length + z.remove)) (patches rs zs)).length ≤
              newSize := by
        rw [List.length_append, List.length_append, htake]
        omega
      rw [rewriteStep_relaxed hd hx hw hz, if_pos
        ⟨hle, hlen, hpad (r, z) List.mem_cons_self hz, by omega⟩, Option.bind_some]
      obtain ⟨y, hy, hoff, hout, hwrites, htypes⟩ := rewriteLoop_fits
        (x := { out := x.out ++ ((old.drop x.offset).take (r.offset - x.offset) ++ encoding r z)
                offset := r.offset + ((encoding r z).length + z.remove)
                delta := acc + z.remove
                writes := zs.flatMap Relaxed.writes ++ writes
                types := x.types ++ [finalType z] })
        hdec' rfl rfl hrest hpad' hbudget
      refine ⟨y, hy, hoff, ?_, hwrites, by rw [htypes, List.map_cons]; simp⟩
      rw [hout]
      simp only [List.append_assoc]

/-- A first loop that ends within the section found ranges that fit. -/
theorem fits_of_rewriteLoop {old : List UInt8} {newSize : Nat} {writes : List Nat} {y : Rewriter}
    (hoff : y.offset ≤ old.length) :
    ∀ {rs : List Relocation} {zs : List Relaxed} {acc : Nat} {x : Rewriter}, AllDecided rs zs →
      x.delta = acc → x.writes = zs.flatMap Relaxed.writes ++ writes →
      rewriteLoop old newSize rs (recordDeltas acc zs) (zs.map Relaxed.type) x = some y →
      PatchesFit old.length x.offset (patches rs zs) ∧
        ∀ p ∈ rs.zip zs, ¬ untouched p.2 → paddingFits p.1 p.2 = true
  | [], [], acc, x, _, _, _, hy => by
    obtain rfl := Option.some.inj hy
    exact ⟨hoff, fun _ hp => absurd hp List.not_mem_nil⟩
  | r :: rs, z :: zs, acc, x, hdec, hx, hw, hy => by
    obtain ⟨hd, hdec'⟩ := hdec
    rw [List.flatMap_cons, List.append_assoc] at hw
    rw [recordDeltas, List.map_cons, rewriteLoop] at hy
    rw [patches]
    by_cases hz : untouched z
    · rw [hd.writes_nil hz, List.nil_append] at hw
      rw [rewriteStep_untouched hx hz, Option.bind_some] at hy
      obtain ⟨hfit, hpad⟩ := fits_of_rewriteLoop hoff hdec' (by rfl) (by exact hw) hy
      rw [if_pos hz]
      refine ⟨hfit, fun p hp hp' => ?_⟩
      rcases List.mem_cons.mp hp with rfl | hp
      · exact absurd hz hp'
      · exact hpad p hp hp'
    · rw [rewriteStep_relaxed hd hx hw hz] at hy
      split at hy
      · rename_i hcond
        rw [Option.bind_some] at hy
        obtain ⟨hfit, hpad⟩ := fits_of_rewriteLoop hoff hdec' (by rfl) (by rfl) hy
        rw [if_neg hz]
        refine ⟨⟨hcond.1, Nat.le_add_right _ _, hfit⟩, fun p hp hp' => ?_⟩
        rcases List.mem_cons.mp hp with rfl | hp
        · exact hcond.2.2.1
        · exact hpad p hp hp'
      · exact absurd hy (by simp)

/-! ## The second loop -/

/-- The bytes removed before the relocations of a group at one offset. -/
theorem removedBy_before_self {o : Nat} {ds : List Nat} {acc : Nat} (h : ∀ r ∈ rs, o ≤ r.offset) :
    removedBy (before o) rs ds acc = 0 :=
  removedBy_none fun r hr => by
    have := h r hr
    simp only [before, decide_eq_false_iff_not]
    omega

/-- A relocation behind the first one sees the bytes that the first one gave up. -/
theorem removedBy_before_cons {r' : Relocation} {ds : List Nat} {last remove : Nat}
    (hle : r.offset ≤ r'.offset) (hne : r'.offset ≠ r.offset) :
    last + removedBy (before r'.offset) (r :: rs) ((last + remove) :: ds) last =
      last + remove + removedBy (before r'.offset) rs ds (last + remove) := by
  have hself : before r'.offset r = true := by
    simp only [before, decide_eq_true_eq]
    omega
  rw [removedBy, hself, if_pos rfl]
  omega

/-- **The second loop moves every relocation** by the bytes removed strictly before it. -/
theorem shiftLoop_spec :
    ∀ {rs : List Relocation} {zs : List Relaxed} {ts : List RelType} (delta cur last : Nat),
      rs.length = zs.length → ts.length = rs.length →
      rs.Pairwise (fun r r' => r.offset ≤ r'.offset) → (∀ r ∈ rs, cur ≤ r.offset) →
      let out := shiftLoop delta cur last rs (recordDeltas last zs) ts
      out.length = rs.length ∧ ∀ i (hi : i < rs.length) (hi' : i < out.length),
        out[i].offset = rs[i].offset -
          (if rs[i].offset = cur then delta
          else last + removedBy (before rs[i].offset) rs (recordDeltas last zs) last)
  | [], [], [], _, _, _, _, _, _, _ => ⟨rfl, fun _ hi => absurd hi (Nat.not_lt_zero _)⟩
  | r :: rs, z :: zs, t :: ts, delta, cur, last, hlen, htlen, hsorted, hcur => by
    obtain ⟨hr, hsorted'⟩ := List.pairwise_cons.mp hsorted
    have hlen' : rs.length = zs.length := by simpa using hlen
    have htlen' : ts.length = rs.length := by simpa using htlen
    have hoffset : (if t = RelType.none then r else { r with type := t }).offset = r.offset := by
      split <;> rfl
    have hhead : removedBy (before r.offset) (r :: rs)
        ((last + z.remove) :: recordDeltas (last + z.remove) zs) last = 0 :=
      removedBy_before_self fun r' hr' => by
        rcases List.mem_cons.mp hr' with rfl | hr'
        · exact Nat.le_refl _
        · exact hr r' hr'
    by_cases heq : r.offset = cur
    · obtain ⟨hout, hrest⟩ := shiftLoop_spec delta cur (last + z.remove) hlen' htlen' hsorted'
        fun r' hr' => hcur r' (List.mem_cons_of_mem r hr')
      simp only [recordDeltas, shiftLoop, if_pos heq]
      refine ⟨by rw [List.length_cons, hout, List.length_cons], fun i hi hi' => ?_⟩
      cases i with
      | zero => simp [heq, hoffset]
      | succ i =>
        have hi₁ : i < rs.length := by simpa using hi
        have hmem : rs[i] ∈ rs := List.getElem_mem hi₁
        simp only [List.getElem_cons_succ]
        rw [hrest i hi₁ (by rw [hout]; exact hi₁)]
        -- the first one's bytes are seen unless it stands at the same offset
        by_cases hsame : rs[i].offset = cur
        · rw [if_pos hsame, if_pos hsame]
        · rw [if_neg hsame, if_neg hsame,
            removedBy_before_cons (hr _ hmem) fun h => hsame (h.trans heq)]
    · obtain ⟨hout, hrest⟩ := shiftLoop_spec last r.offset (last + z.remove) hlen' htlen'
        hsorted' hr
      simp only [recordDeltas, shiftLoop, if_neg heq]
      refine ⟨by rw [List.length_cons, hout, List.length_cons], fun i hi hi' => ?_⟩
      have hlt : cur < r.offset := by
        have := hcur r List.mem_cons_self
        omega
      cases i with
      | zero => simp [heq, hoffset, hhead]
      | succ i =>
        have hi₁ : i < rs.length := by simpa using hi
        have hmem : rs[i] ∈ rs := List.getElem_mem hi₁
        have hle := hr _ hmem
        simp only [List.getElem_cons_succ]
        rw [hrest i hi₁ (by rw [hout]; exact hi₁), if_neg (show rs[i].offset ≠ cur by omega)]
        by_cases hsame : rs[i].offset = r.offset
        · rw [if_pos hsame, hsame, hhead, Nat.add_zero]
        · rw [if_neg hsame, removedBy_before_cons hle hsame]

/-! ## The whole section -/

/-- **A section is rewritten exactly as decided**: it loses the bytes given up, every byte outside
the replaced ranges is kept, every decision's bytes stand in its place, every write is taken, and
every relocation moves by the bytes removed strictly before it. -/
structure RewrittenAs (old : List UInt8) (rs : List Relocation) (zs : List Relaxed)
    (res : Rewritten) : Prop where
  length : res.content.length + (recordDeltas 0 zs).getLastD 0 = old.length
  kept : ∀ x < old.length, Outside x (patches rs zs) →
    res.content[x - removedBy (before x) rs (recordDeltas 0 zs) 0]? = old[x]?
  replaced : ∀ p ∈ patches rs zs, ∀ k < p.bytes.length,
    res.content[p.start - removedBy (before p.start) rs (recordDeltas 0 zs) 0 + k]? = p.bytes[k]?
  writes : res.unused = []
  count : res.rels.length = rs.length
  offsets : ∀ i (hi : i < rs.length) (hi' : i < res.rels.length),
    res.rels[i].offset =
      rs[i].offset - removedBy (before rs[i].offset) rs (recordDeltas 0 zs) 0

/-- The first relocation is at the lowest offset. -/
theorem headD_le (hsorted : rs.Pairwise fun r r' => r.offset ≤ r'.offset) :
    ∀ r ∈ rs, (rs.map Relocation.offset).headD 0 ≤ r.offset := by
  cases rs with
  | nil => exact fun r hr => absurd hr List.not_mem_nil
  | cons r₀ rest =>
    intro r hr
    rcases List.mem_cons.mp hr with rfl | hr
    · exact Nat.le_refl _
    · exact (List.pairwise_cons.mp hsorted).1 r hr

theorem finalizeSection_fits {zs : List Relaxed} (hdec : AllDecided rs zs)
    (hsorted : rs.Pairwise fun r r' => r.offset ≤ r'.offset) (hfit : RangesFit old.length rs zs) :
    ∃ res, finalizeSection old rs (recordDeltas 0 zs) (zs.map Relaxed.type)
        (zs.flatMap Relaxed.writes) = some res ∧ RewrittenAs old rs zs res := by
  have hlen := hdec.length
  have hlost := lost_patches rs zs 0 hlen
  have hsplice := length_splice hfit.ranges
  rw [Nat.add_zero] at hlost
  rw [hlost, Nat.sub_zero] at hsplice
  have hlast : ¬ old.length < (recordDeltas 0 zs).getLastD 0 := by omega
  have hbudget : 0 + (splice old 0 (patches rs zs)).length ≤
      old.length - (recordDeltas 0 zs).getLastD 0 := by omega
  have hloop : ∃ y, rewriteLoop old (old.length - (recordDeltas 0 zs).getLastD 0) rs
      (recordDeltas 0 zs) (zs.map Relaxed.type) ⟨[], 0, 0, zs.flatMap Relaxed.writes, []⟩ = some y ∧
      y.offset ≤ old.length ∧ y.out ++ old.drop y.offset = [] ++ splice old 0 (patches rs zs) ∧
      y.writes = [] ∧ y.types = [] ++ zs.map finalType :=
    rewriteLoop_fits hdec rfl (List.append_nil _).symm hfit.ranges hfit.padding hbudget
  obtain ⟨y, hy, hoff, hout, hwrites, htypes⟩ := hloop
  rw [List.nil_append] at hout htypes
  have hrest : copyRange old y.offset old.length = some (old.drop y.offset) := by
    rw [copyRange, if_pos ⟨hoff, Nat.le_refl _⟩, List.take_of_length_le]
    rw [List.length_drop]
  have hput : (y.put (old.length - (recordDeltas 0 zs).getLastD 0) (old.drop y.offset)) =
      some { y with out := y.out ++ old.drop y.offset } := by
    have := congrArg List.length hout
    rw [List.length_append] at this
    rw [Rewriter.put, if_pos (by omega)]
  have htl : y.types.length = rs.length := by rw [htypes, List.length_map, hlen]
  obtain ⟨hcount, hshift⟩ := shiftLoop_spec 0 ((rs.map Relocation.offset).headD 0) 0 hlen htl
    hsorted (headD_le hsorted)
  refine ⟨⟨y.out ++ old.drop y.offset,
    shiftLoop 0 ((rs.map Relocation.offset).headD 0) 0 rs (recordDeltas 0 zs) y.types, y.writes⟩,
    ?_, ?_⟩
  · rw [finalizeSection, if_neg hlast, hy, Option.bind_some, hrest, Option.bind_some, hput]
    rfl
  · refine
      { length := by simp only [hout]; omega
        kept := fun x _ hx => ?_
        replaced := fun p hp k hk => ?_
        writes := hwrites
        count := hcount
        offsets := fun i hi hi' => ?_ }
    · have hkept := splice_kept hfit.ranges (Nat.zero_le x) hx
      rw [gone_patches x rs zs 0 hlen] at hkept
      simp only [hout]
      exact hkept
    · have hpatched := splice_patched hfit.ranges p hp k hk
      rw [gone_patches p.start rs zs 0 hlen] at hpatched
      simp only [hout]
      exact hpatched
    · rw [hshift i hi hi', Nat.zero_add]
      split
      · rename_i hfirst
        -- the first group has nothing before it
        have hzero : removedBy (before rs[i].offset) rs (recordDeltas 0 zs) 0 = 0 := by
          rw [hfirst]
          exact removedBy_before_self (headD_le hsorted)
        rw [hzero]
      · rfl

theorem fits_of_finalizeSection {zs : List Relaxed} {res : Rewritten} (hdec : AllDecided rs zs)
    (h : finalizeSection old rs (recordDeltas 0 zs) (zs.map Relaxed.type)
      (zs.flatMap Relaxed.writes) = some res) : RangesFit old.length rs zs := by
  unfold finalizeSection at h
  simp only at h
  split at h
  · exact absurd h (by simp)
  · rw [Option.bind_eq_some_iff] at h
    obtain ⟨y, hy, h⟩ := h
    rw [Option.bind_eq_some_iff] at h
    obtain ⟨rest, hrest, _⟩ := h
    have hoff : y.offset ≤ old.length := by
      unfold copyRange at hrest
      split at hrest
      · rename_i hcopy
        exact hcopy.1
      · exact absurd hrest (by simp)
    have hfits : PatchesFit old.length 0 (patches rs zs) ∧ _ :=
      fits_of_rewriteLoop (x := ⟨[], 0, 0, zs.flatMap Relaxed.writes, []⟩) hoff hdec rfl
        (List.append_nil _).symm hy
    exact ⟨hfits.1, hfits.2⟩

/-- **`finalizeRelax` rewrites a section exactly as the last pass decided** if and only if the
ranges decided on lie in the section without overlap and the padding kept is whole. -/
theorem finalizeSection_iff (st : State) (s : SecId) (old : List UInt8)
    (hsorted : (L.input s).relocs.Pairwise fun r r' => r.offset ≤ r'.offset) :
    let st' := (L.relax st s).1
    let zs := decisions L st s
    (∃ res, finalizeSection old (L.input s).relocs (st'.deltas s) (st'.types s) (st'.writes s) =
        some res ∧ RewrittenAs old (L.input s).relocs zs res) ↔
      RangesFit old.length (L.input s).relocs zs := by
  obtain ⟨_, hdeltas, htypes, hwrites⟩ := relax_records (L := L) st s
  have hdec : AllDecided (L.input s).relocs (decisions L st s) := decisionsLoop_decided _ _ _ _ _
  simp only [hdeltas, htypes, hwrites]
  constructor
  · rintro ⟨res, hres, _⟩
    exact fits_of_finalizeSection hdec hres
  · exact finalizeSection_fits hdec hsorted

/-- The section of `fixedLink` loses its `lui`. -/
theorem finalizeSection_fixedLink :
    let st := (fixedLink.assignAddresses fixedLink.initialState).1
    let st' := (fixedLink.relax (fixedLink.initSymbolAnchors st) 0).1
    ∃ res, finalizeSection (List.replicate 8 0) (fixedLink.input 0).relocs (st'.deltas 0)
        (st'.types 0) (st'.writes 0) = some res ∧ res.content.length = 4 ∧
      RewrittenAs (List.replicate 8 0) (fixedLink.input 0).relocs
        (decisions fixedLink (fixedLink.initSymbolAnchors st) 0) res := by
  intro st st'
  obtain ⟨res, hres, hrewritten⟩ := (finalizeSection_iff (L := fixedLink)
    (fixedLink.initSymbolAnchors st) 0 (List.replicate 8 0) (by decide)).mpr
    ⟨by decide, by decide⟩
  have hlength : res.content.length + 4 = 8 := hrewritten.length
  exact ⟨res, hres, by omega, hrewritten⟩

/-- Two calls whose eight-byte ranges overlap. -/
def overlappingCalls : Link :=
  { fixedLink with
    input := fun s => if s = 0 then
        plainInput [⟨.call, 0, 0, 0, false⟩, ⟨.relax, 0, 0, 0, false⟩, ⟨.call, 4, 0, 0, false⟩,
          ⟨.relax, 4, 0, 0, false⟩] 12 0
      else fixedLink.input s }

/-- The second call's range starts within the first one's, and the copy between them is of a
negative length. -/
theorem not_finalizeSection_overlappingCalls :
    let st := (overlappingCalls.assignAddresses overlappingCalls.initialState).1
    let st' := (overlappingCalls.relax (overlappingCalls.initSymbolAnchors st) 0).1
    ¬ ∃ res, finalizeSection (List.replicate 12 0) (overlappingCalls.input 0).relocs
        (st'.deltas 0) (st'.types 0) (st'.writes 0) = some res ∧
      RewrittenAs (List.replicate 12 0) (overlappingCalls.input 0).relocs
        (decisions overlappingCalls (overlappingCalls.initSymbolAnchors st) 0) res := by
  intro st st'
  rintro ⟨res, hres, _⟩
  have hnone : (finalizeSection (List.replicate 12 0) (overlappingCalls.input 0).relocs
      (st'.deltas 0) (st'.types 0) (st'.writes 0)).isNone = true := by decide
  rw [hres] at hnone
  exact absurd hnone (by simp)

end Link

end RvLlvm.Lld
