import RvLlvm.JitLink.Relax

/-!
# Rewriting a block as decided

`finalizeBlockRelax` on the records of one pass
(`llvm/lib/ExecutionEngine/JITLink/ELF_riscv.cpp:703-796`), for a block whose relaxable edges keep
apart.

* `relaxEdge_decided`: what is decided for an edge fits into the bytes that the edge is about.
* `cuts`: the ranges that the decisions replace, and by what.
* `finalizeBlockRelax_spec`: the block holds its old bytes with the cuts made, and its edges have
  moved by what is cut before them.
-/

namespace RvLlvm.JitLink.Relax

open RvLlvm.Support
open RvLlvm.Lld (le16 le32 nops alignTo)

/-! ## Edges that keep apart -/

/-- The bytes that a relaxable edge is about. -/
def Edge.width (e : Edge) : Nat :=
  match e.kind with
  | .callRelaxable => 8
  | .alignRelaxable => e.addend.toNat
  | _ => 0

/-- The padding of an edge and the place where it stands are of whole halfwords. -/
def Edge.Even (address : Nat) (e : Edge) : Prop :=
  e.kind = .alignRelaxable →
    0 ≤ e.addend ∧ e.addend % 2 = 0 ∧ ((address : Int) + e.offset) % 2 = 0

instance (address : Nat) (e : Edge) : Decidable (e.Even address) :=
  inferInstanceAs (Decidable (_ → _))

/-- The edges of a block are in order, and what the relaxable ones are about lies in the block and
ends before the next edge. -/
structure Block.WellFormed (b : Block) : Prop where
  size : b.content.length < 2 ^ 32
  inside : ∀ e ∈ b.edges, isRelaxable e = true → e.offset + e.width ≤ b.content.length
  apart : b.edges.Pairwise fun e e' => e.offset + e.width ≤ e'.offset
  even : ∀ e ∈ b.edges, e.Even b.address

/-! ## One decision -/

/-- The bytes that stand for an edge after decision `z`. -/
def encoding (e : Edge) (z : Decision) : List UInt8 :=
  ((replacement e z.kind z.remove z.writes).map Prod.fst).getD []

/-- The decision fits the edge: its bytes are made of its own writes, and together with what is
given up they are not more than the edge is about. -/
structure Decided (e : Edge) (z : Decision) : Prop where
  bytes : ∀ writes, replacement e z.kind z.remove (z.writes ++ writes) = some (encoding e z, writes)
  span : (encoding e z).length + z.remove ≤ e.width
  even : z.remove % 2 = 0
  kind : z.kind ≠ .invalid

/-- The forms of a call with displacement `d` that links in `rd`. -/
inductive CallForm (G : LinkGraph) (d : Int) (rd : Nat) : Decision → Prop
  | cj : G.hasRVC = true → Lld.isInt 12 d = true → rd = 0 →
      CallForm G d rd ⟨.rvcJump, [0xa001], 6⟩
  | cjal : G.hasRVC = true → G.isRV32 = true → Lld.isInt 12 d = true → rd = 1 →
      CallForm G d rd ⟨.rvcJump, [0x2001], 6⟩
  | jal : Lld.isInt 21 d = true → CallForm G d rd ⟨.jal, [0x6f + rd * 2 ^ 7], 4⟩
  | stays : CallForm G d rd ⟨.callPlt, [], 0⟩

/-- The padding before an address is cut to the least that aligns it. -/
structure PaddingForm (loc : Int) (e : Edge) (z : Decision) : Prop where
  kind : z.kind = .alignRelaxable
  writes : z.writes = []
  remove : (z.remove : Int) ≤ e.addend
  aligns : (nextPowerOf2 e.addend : Int) ∣ loc + (e.addend - z.remove)
  least : e.addend - z.remove < nextPowerOf2 e.addend

variable {e : Edge} {z : Decision}

theorem relaxCall_form {G : LinkGraph} {b : Block} {loc : Int} (h : G.relaxCall b loc e = some z) :
    ∃ jalr, readAt b.content (e.offset + 4) 4 = some jalr ∧
      CallForm G (G.displace loc e) (Rv.rd jalr) z := by
  obtain ⟨jalr, hread, rfl⟩ := Option.map_eq_some_iff.mp h
  refine ⟨jalr, hread, ?_⟩
  simp only
  split_ifs with hcj hcjal hjal
  · simp only [Bool.and_eq_true, beq_iff_eq] at hcj
    exact .cj hcj.1.1 hcj.1.2 hcj.2
  · simp only [Bool.and_eq_true, beq_iff_eq] at hcjal
    exact .cjal hcjal.1.1.1 hcjal.1.1.2 hcjal.1.2 hcjal.2
  · exact .jal hjal
  · exact .stays

/-- `alignTo` goes up to a multiple, and less than one of them. -/
theorem alignTo_spec (loc : Int) {n : Nat} (hn : 0 < n) :
    loc ≤ alignTo loc n ∧ alignTo loc n < loc + n ∧ (n : Int) ∣ alignTo loc n := by
  have hpos : (0 : Int) < n := by exact_mod_cast hn
  have hdiv := Int.emod_add_mul_ediv (loc + n - 1) n
  have hlt := Int.emod_lt_of_pos (loc + n - 1) hpos
  have hnonneg := Int.emod_nonneg (loc + n - 1) hpos.ne'
  rw [Int.mul_comm] at hdiv
  unfold alignTo
  exact ⟨by omega, by omega, Dvd.intro_left _ rfl⟩

theorem nextPowerOf2_pos (a : Int) : 0 < nextPowerOf2 a := by
  unfold nextPowerOf2
  split
  · exact Nat.one_pos
  · exact Nat.two_pow_pos _

/-- A padding that is not empty aligns to halfwords at least. -/
theorem two_dvd_nextPowerOf2 {a : Int} (h : 0 < a) : (2 : Int) ∣ nextPowerOf2 a := by
  rw [nextPowerOf2, if_neg (by omega), pow_succ]
  exact ⟨(2 : Int) ^ a.toNat.log2, by push_cast; ring⟩

theorem relaxAlign_form {loc : Int} (h : relaxAlign loc e = some z) :
    PaddingForm loc e z ∧ ((z.remove : Int) =
      loc + e.addend - alignTo loc (nextPowerOf2 e.addend)) := by
  obtain ⟨hle, hlt, hdvd⟩ := alignTo_spec loc (nextPowerOf2_pos e.addend)
  unfold relaxAlign at h
  simp only at h
  split at h
  · rename_i hfits
    obtain rfl := Option.some.inj h
    have hremove : ((loc + e.addend - alignTo loc (nextPowerOf2 e.addend)).toNat : Int) =
        loc + e.addend - alignTo loc (nextPowerOf2 e.addend) := Int.toNat_of_nonneg (by omega)
    refine ⟨⟨rfl, rfl, by simp only [hremove]; omega, ?_, by simp only [hremove]; omega⟩, hremove⟩
    have heq : loc + (e.addend - (loc + e.addend - alignTo loc (nextPowerOf2 e.addend))) =
        alignTo loc (nextPowerOf2 e.addend) := by omega
    simp only [hremove, heq]
    exact hdvd
  · exact absurd h (by simp)

/-- Whole halfwords are filled with `nop`s. -/
theorem nops_even {n : Int} (h : 0 ≤ n) (heven : n % 2 = 0) :
    ∃ bytes, nops n = some bytes ∧ (bytes.length : Int) = n := by
  have hwords : ∀ k, (List.replicate k (le32 0x00000013)).flatten.length = k * 4 := fun k => by
    rw [List.length_flatten, List.map_replicate, List.sum_replicate]
    rfl
  obtain ⟨m, rfl⟩ := Int.eq_ofNat_of_zero_le h
  have hcases : m % 4 = 0 ∨ m % 4 = 2 := by omega
  unfold nops
  simp only [Int.toNat_natCast]
  rw [if_neg (by omega)]
  rcases hcases with hm | hm
  · rw [if_pos hm]
    exact ⟨_, rfl, by rw [hwords]; omega⟩
  · rw [if_neg (by omega), if_pos hm]
    refine ⟨_, rfl, ?_⟩
    rw [List.length_append, hwords]
    simp only [le16, List.length_cons, List.length_nil]
    omega

theorem relaxAlign_decided {loc : Int} (h : relaxAlign loc e = some z)
    (hkind : e.kind = .alignRelaxable) (hadd : 0 ≤ e.addend) (heven : e.addend % 2 = 0)
    (hloc : loc % 2 = 0) : Decided e z := by
  obtain ⟨hform, hremove⟩ := relaxAlign_form h
  obtain ⟨kind, writes, remove⟩ := z
  obtain ⟨hk, hw, hle, _, _⟩ := hform
  simp only at hk hw hle hremove
  subst hk hw
  have hwidth : e.width = e.addend.toNat := by rw [Edge.width, hkind]
  have hspec := alignTo_spec loc (nextPowerOf2_pos e.addend)
  -- what is left of the padding is of whole halfwords
  have hdest : alignTo loc (nextPowerOf2 e.addend) % 2 = 0 := by
    by_cases hzero : e.addend = 0
    · have hone : nextPowerOf2 e.addend = 1 := by rw [hzero]; rfl
      rw [hone] at hspec ⊢
      have : alignTo loc 1 = loc := by omega
      rw [this, hloc]
    · exact Int.emod_eq_zero_of_dvd ((two_dvd_nextPowerOf2 (by omega)).trans hspec.2.2)
  obtain ⟨bytes, hbytes, hlen⟩ := nops_even (n := e.addend - remove) (by omega) (by omega)
  by_cases hcond : remove % 4 ≠ 0 ∨ e.addend % 4 ≠ 0
  · have hrep : ∀ writes, replacement e .alignRelaxable remove writes = some (bytes, writes) :=
      fun writes => by rw [replacement, if_pos hcond, hbytes, Option.map_some]
    have henc : encoding e ⟨.alignRelaxable, [], remove⟩ = bytes := by
      simp only [encoding, hrep, Option.map_some, Option.getD_some]
    refine ⟨fun writes => ?_, ?_, by simp only; omega, by simp⟩
    · rw [henc]
      exact hrep writes
    · rw [henc, hwidth]
      simp only
      omega
  · have hrep : ∀ writes, replacement e .alignRelaxable remove writes = some ([], writes) :=
      fun writes => by rw [replacement, if_neg hcond]
    have henc : encoding e ⟨.alignRelaxable, [], remove⟩ = [] := by
      simp only [encoding, hrep, Option.map_some, Option.getD_some]
    refine ⟨fun writes => ?_, ?_, by simp only; omega, by simp⟩
    · rw [henc]
      exact hrep writes
    · rw [henc, hwidth]
      simp only [List.length_nil]
      omega

theorem CallForm.decided {G : LinkGraph} {d : Int} {rd : Nat} (h : CallForm G d rd z)
    (hkind : e.kind = .callRelaxable) : Decided e z := by
  have hwidth : e.width = 8 := by rw [Edge.width, hkind]
  cases h with
  | cj => exact ⟨fun _ => rfl, hwidth.ge, rfl, by simp⟩
  | cjal => exact ⟨fun _ => rfl, hwidth.ge, rfl, by simp⟩
  | jal => exact ⟨fun _ => rfl, hwidth.ge, by simp, by simp⟩
  | stays =>
    refine ⟨fun writes => ?_, Nat.zero_le _, rfl, by simp⟩
    cases writes <;> rfl

/-- **A decision fits its edge**, which stands at a whole halfword if it is a padding. -/
theorem relaxEdge_decided {G : LinkGraph} {b : Block} {loc : Int} (h : G.relaxEdge b loc e = some z)
    (heven : e.kind = .alignRelaxable → 0 ≤ e.addend ∧ e.addend % 2 = 0 ∧ loc % 2 = 0) :
    Decided e z := by
  unfold LinkGraph.relaxEdge at h
  split at h
  · rename_i hkind
    obtain ⟨hadd, hmod, hloc⟩ := heven hkind
    exact relaxAlign_decided h hkind hadd hmod hloc
  · rename_i hkind
    obtain ⟨jalr, _, hform⟩ := relaxCall_form h
    exact hform.decided hkind
  · exact absurd h (by simp)

/-! ## The cuts of a block -/

/-- The range that decision `z` replaces: the bytes that stand for it and those given up. -/
def cut (e : Edge) (z : Decision) : Patch UInt8 :=
  ⟨e.offset, (encoding e z).length + z.remove, encoding e z⟩

def cuts (es : List Edge) (zs : List Decision) : List (Patch UInt8) := List.zipWith cut es zs

@[simp] theorem cut_lost (e : Edge) (z : Decision) : (cut e z).lost = z.remove := by
  simp [Patch.lost, cut]

@[simp] theorem cuts_cons (e : Edge) (es : List Edge) (z : Decision) (zs : List Decision) :
    cuts (e :: es) (z :: zs) = cut e z :: cuts es zs := rfl

/-- The deltas that record decisions, `acc` bytes being gone before them. -/
def recordDeltas : Nat → List Decision → List Nat
  | _, [] => []
  | acc, z :: zs => (acc + z.remove) :: recordDeltas (acc + z.remove) zs

theorem length_recordDeltas : ∀ (acc : Nat) (zs : List Decision),
    (recordDeltas acc zs).length = zs.length
  | _, [] => rfl
  | acc, z :: zs => by
    rw [recordDeltas, List.length_cons, List.length_cons, length_recordDeltas]

/-- The relaxable edges lie between `pos` and `size`, one after the other. -/
structure Apart (size pos : Nat) (es : List Edge) : Prop where
  start : pos ≤ size
  inside : ∀ e ∈ es, pos ≤ e.offset ∧ e.offset + e.width ≤ size
  apart : es.Pairwise fun e e' => e.offset + e.width ≤ e'.offset

theorem Apart.tail {size pos : Nat} {es : List Edge} (h : Apart size pos (e :: es)) {n : Nat}
    (hn : n ≤ e.width) : Apart size (e.offset + n) es where
  start := by
    have := (h.inside e List.mem_cons_self).2
    omega
  inside := fun e' he' => by
    have hin := h.inside e' (List.mem_cons_of_mem e he')
    have hnext := (List.pairwise_cons.mp h.apart).1 e' he'
    exact ⟨by omega, hin.2⟩
  apart := (List.pairwise_cons.mp h.apart).2

theorem cuts_fit {size : Nat} {es : List Edge} {zs : List Decision}
    (hdec : List.Forall₂ Decided es zs) :
    ∀ {pos : Nat}, Apart size pos es → PatchesFit size pos (cuts es zs) := by
  induction hdec with
  | nil => exact fun h => h.start
  | @cons e z es zs hz _ ih =>
    intro pos h
    exact ⟨(h.inside e List.mem_cons_self).1, Nat.le_add_right _ _, ih (h.tail hz.span)⟩

/-- Behind the bytes that an edge is about, what it gives up is lost. -/
theorem gone_cut_cons (hz : Decided e z) {o : Nat} (ho : e.offset + e.width ≤ o)
    (ps : List (Patch UInt8)) : gone o (cut e z :: ps) = z.remove + gone o ps := by
  have hspan := hz.span
  rw [gone_cons, cut_lost]
  split
  · rfl
  · -- at the edge's own place: it is about no bytes
    rename_i hsame
    have : ¬ e.offset < o := hsame
    omega

/-! ## The bytes -/

theorem rewriteStep_decided {old out : List UInt8} {x : Rewriter} {writes : List Nat}
    (hz : Decided e z) (hbuf : Behind old out x.buf) (hdest : x.dest = out.length)
    (hout : out.length ≤ x.offset) (hoff : x.offset ≤ e.offset)
    (hin : e.offset + ((encoding e z).length + z.remove) ≤ old.length)
    (hwrites : x.writes = z.writes ++ writes) :
    ∃ buf, Behind old
        (out ++ ((old.drop x.offset).take (e.offset - x.offset) ++ encoding e z)) buf ∧
      rewriteStep e (x.delta + z.remove) z.kind x =
        some ⟨buf, x.dest + (e.offset - x.offset) + (encoding e z).length,
          e.offset + (encoding e z).length + z.remove, x.delta + z.remove, writes⟩ := by
  have hlen := hbuf.length (by omega)
  have htake : ((old.drop x.offset).take (e.offset - x.offset)).length = e.offset - x.offset := by
    rw [List.length_take, List.length_drop]
    omega
  obtain ⟨moved, hmoved, hbehind⟩ :=
    hbuf.overwrite ((old.drop x.offset).take (e.offset - x.offset)) (by omega)
  obtain ⟨buf, hput, hbehind'⟩ := hbehind.overwrite (encoding e z) (by
    rw [List.length_append, htake]
    omega)
  rw [List.length_append, htake, ← hdest] at hput
  rw [List.append_assoc] at hbehind'
  refine ⟨buf, hbehind', ?_⟩
  have hmove : memmove x.buf x.dest x.offset (e.offset - x.offset) = some moved := by
    rw [memmove, if_pos (by omega), hbuf.drop hout, hdest]
    exact hmoved
  unfold rewriteStep
  simp only [Nat.add_sub_cancel_left]
  rw [if_neg fun h => hz.kind h.2, if_neg (by omega), hmove, Option.bind_some, hwrites, hz.bytes,
    Option.bind_some, hput, Option.map_some]

/-- **The first loop makes the cuts**, in the block's own buffer. -/
theorem rewriteLoop_decided {old : List UInt8} {es : List Edge} {zs : List Decision}
    (hdec : List.Forall₂ Decided es zs) :
    ∀ {out : List UInt8} {x : Rewriter}, Apart old.length x.offset es → Behind old out x.buf →
      x.dest = out.length → out.length ≤ x.offset → x.writes = zs.flatMap Decision.writes →
      ∃ y out', rewriteLoop es (recordDeltas x.delta zs) (zs.map Decision.kind) x = some y ∧
        Behind old out' y.buf ∧ y.dest = out'.length ∧ out'.length ≤ y.offset ∧
        y.offset ≤ old.length ∧
        out' ++ old.drop y.offset = out ++ splice old x.offset (cuts es zs) := by
  induction hdec with
  | nil =>
    intro out x hapart hbuf hdest hout _
    exact ⟨x, out, rfl, hbuf, hdest, hout, hapart.start, rfl⟩
  | @cons e z es zs hz _ ih =>
    intro out x hapart hbuf hdest hout hwrites
    obtain ⟨hoff, hin⟩ := hapart.inside e List.mem_cons_self
    have hspan := hz.span
    obtain ⟨buf, hbuf', hstep⟩ := rewriteStep_decided hz hbuf hdest hout hoff (by omega)
      (by rw [hwrites, List.flatMap_cons])
    have htake : ((old.drop x.offset).take (e.offset - x.offset)).length = e.offset - x.offset := by
      rw [List.length_take, List.length_drop]
      omega
    have htail := hapart.tail hspan
    rw [← Nat.add_assoc] at htail
    obtain ⟨y, out', hy, hrest⟩ := ih
      (x := ⟨buf, x.dest + (e.offset - x.offset) + (encoding e z).length,
        e.offset + (encoding e z).length + z.remove, x.delta + z.remove,
          zs.flatMap Decision.writes⟩)
      htail hbuf'
      (by simp only [List.length_append, htake]; omega)
      (by simp only [List.length_append, htake]; omega) rfl
    refine ⟨y, out', ?_, ?_⟩
    · rw [recordDeltas, List.map_cons, rewriteLoop, hstep, Option.bind_some]
      exact hy
    · rw [cuts_cons, splice]
      simpa only [List.append_assoc, cut, Nat.add_assoc] using hrest

/-! ## The edges -/

/-- The kind that each edge of a block is left with. -/
def finalKinds : List Edge → List Decision → List Kind
  | [], _ => []
  | e :: es, zs =>
    match isRelaxable e, zs with
    | true, z :: zs' => z.kind :: finalKinds es zs'
    | _, _ => e.kind :: finalKinds es zs

/-- The edge in its place after what `gone` says is lost before it. -/
def settled (gone : Nat → Nat) (e : Edge) (kind : Kind) : Edge :=
  { e with offset := e.offset - gone e.offset, kind := kind }

theorem shiftLoop_relaxable {delta d : Nat} {k : Kind} (h : isRelaxable e = true)
    (hk : k ≠ .invalid) (es : List Edge) (ds : List Nat) (ks : List Kind) :
    shiftLoop delta (e :: es) (d :: ds) (k :: ks) =
      { e with offset := e.offset - delta, kind := k } :: shiftLoop d es ds ks := by
  conv_lhs => unfold shiftLoop
  rw [h]
  simp only
  rw [if_neg hk]

theorem finalKinds_relaxable (h : isRelaxable e = true) (es : List Edge) (z : Decision)
    (zs : List Decision) : finalKinds (e :: es) (z :: zs) = z.kind :: finalKinds es zs := by
  conv_lhs => unfold finalKinds
  rw [h]

theorem shiftLoop_other {delta : Nat} (h : isRelaxable e = false) (es : List Edge) (ds : List Nat)
    (ks : List Kind) : shiftLoop delta (e :: es) ds ks =
      { e with offset := e.offset - delta } :: shiftLoop delta es ds ks := by
  conv_lhs => unfold shiftLoop
  rw [h]

theorem finalKinds_other (h : isRelaxable e = false) (es : List Edge) (zs : List Decision) :
    finalKinds (e :: es) zs = e.kind :: finalKinds es zs := by
  conv_lhs => unfold finalKinds
  rw [h]

/-- **The second loop moves every edge** by the bytes given up before it. -/
theorem shiftLoop_decided {before : Nat → Nat} {size : Nat} :
    ∀ {es : List Edge} {zs : List Decision} {acc : Nat},
      List.Forall₂ Decided (es.filter isRelaxable) zs →
      es.Pairwise (fun e e' => e.offset + e.width ≤ e'.offset) →
      (∀ e ∈ es, isRelaxable e = true → e.offset + e.width ≤ size) →
      (∀ e ∈ es, before e.offset = acc + gone e.offset (cuts (es.filter isRelaxable) zs)) →
      shiftLoop acc es (recordDeltas acc zs) (zs.map Decision.kind) =
        List.zipWith (settled before) es (finalKinds es zs)
  | [], _, _, _, _, _, _ => rfl
  | e :: es, zs, acc, hdec, happ, hin, hgone => by
    obtain ⟨hhead, happ'⟩ := List.pairwise_cons.mp happ
    have hin' : ∀ e' ∈ es, isRelaxable e' = true → e'.offset + e'.width ≤ size :=
      fun e' he' => hin e' (List.mem_cons_of_mem e he')
    -- nothing is cut before the first edge
    have hfit : ∀ {zs' : List Decision} {pos : Nat},
      List.Forall₂ Decided (es.filter isRelaxable) zs' →
        (∀ e' ∈ es, pos ≤ e'.offset) → gone pos (cuts (es.filter isRelaxable) zs') = 0 :=
      fun {zs' pos} hdec' hpos => by
        have hapart : Apart (max pos size) pos (es.filter isRelaxable) :=
          { start := Nat.le_max_left _ _
            inside := fun e' he' => by
              obtain ⟨hmem, hrel⟩ := List.mem_filter.mp he'
              exact ⟨hpos e' hmem, (hin' e' hmem hrel).trans (Nat.le_max_right _ _)⟩
            apart := happ'.sublist List.filter_sublist }
        exact (cuts_fit hdec' hapart).gone_eq_zero (Nat.le_refl _)
    by_cases hrel : isRelaxable e = true
    · rw [List.filter_cons_of_pos hrel] at hdec hgone
      cases hdec with
      | @cons _ z _ zs hz hdec' =>
        have hself := hgone e List.mem_cons_self
        have hstart : ¬ (cut e z).start < e.offset := Nat.lt_irrefl _
        rw [cuts_cons, gone_cons, if_neg hstart,
          hfit hdec' fun e' he' => (Nat.le_add_right _ _).trans (hhead e' he')] at hself
        have ih : shiftLoop (acc + z.remove) es (recordDeltas (acc + z.remove) zs)
            (zs.map Decision.kind) = List.zipWith (settled before) es (finalKinds es zs) := by
          refine shiftLoop_decided hdec' happ' hin' fun e' he' => ?_
          rw [hgone e' (List.mem_cons_of_mem e he'), cuts_cons, gone_cut_cons hz (hhead e' he'),
            Nat.add_assoc]
        rw [recordDeltas, List.map_cons, shiftLoop_relaxable hrel hz.kind,
          finalKinds_relaxable hrel,
          ih, List.zipWith_cons_cons, settled, hself]
        rfl
    · rw [List.filter_cons_of_neg hrel] at hdec hgone
      have hself := hgone e List.mem_cons_self
      rw [hfit hdec fun e' he' => (Nat.le_add_right _ _).trans (hhead e' he')] at hself
      have ih := shiftLoop_decided hdec happ' hin' fun e' he' =>
        hgone e' (List.mem_cons_of_mem e he')
      rw [shiftLoop_other (Bool.eq_false_iff.mpr hrel),
        finalKinds_other (Bool.eq_false_iff.mpr hrel),
        ih, List.zipWith_cons_cons, settled, hself]
      rfl

/-! ## The whole block -/

/-- The relaxable edges of a block. -/
def Block.relaxEdges (b : Block) : List Edge := b.edges.filter isRelaxable

/-- The cuts that decisions make in a block. -/
def Block.cuts (b : Block) (zs : List Decision) : List (Patch UInt8) := Relax.cuts b.relaxEdges zs

/-- What decisions `zs` leave of a block: its old bytes with the cuts made, and behind them what the
buffer held there; the edges but those of paddings, each with its decided kind. -/
def Block.relaxed (b : Block) (zs : List Decision) : Block :=
  { b with
    content := splice b.content 0 (b.cuts zs) ++
      b.content.drop (splice b.content 0 (b.cuts zs)).length
    edges := (List.zipWith (settled fun o => gone o (b.cuts zs)) b.edges
      (finalKinds b.edges zs)).filter
      fun e => decide (e.kind ≠ .alignRelaxable) }

theorem Block.WellFormed.relaxEdges_apart {b : Block} (h : b.WellFormed) :
    Apart b.content.length 0 b.relaxEdges where
  start := Nat.zero_le _
  inside := fun e he => by
    obtain ⟨hmem, hrel⟩ := List.mem_filter.mp he
    exact ⟨Nat.zero_le _, h.inside e hmem hrel⟩
  apart := h.apart.sublist List.filter_sublist

/-- **`finalizeBlockRelax` rewrites a block as decided.** -/
theorem finalizeBlockRelax_spec {b : Block} {zs : List Decision} {aux : BlockRelaxAux}
    (hwf : b.WellFormed) (hdec : List.Forall₂ Decided b.relaxEdges zs)
    (hedges : aux.relaxEdges = b.relaxEdges) (hdeltas : aux.relocDeltas = recordDeltas 0 zs)
    (hkinds : aux.edgeKinds = zs.map Decision.kind)
    (hwrites : aux.writes = zs.flatMap Decision.writes) :
    finalizeBlockRelax b aux = some (b.relaxed zs) := by
  have hloop := rewriteLoop_decided hdec (x := ⟨b.content, 0, 0, 0, aux.writes⟩)
    hwf.relaxEdges_apart (Behind.start _) rfl (Nat.le_refl _) hwrites
  obtain ⟨y, out, hy, hbuf, hdest, hout, hoff, hsplice⟩ := hloop
  rw [List.nil_append] at hsplice
  obtain ⟨buf, hput, hbehind⟩ := hbuf.overwrite (b.content.drop y.offset) (by
    rw [List.length_drop]
    omega)
  have hmove : memmove y.buf y.dest y.offset (b.content.length - y.offset) = some buf := by
    rw [memmove, if_pos (by rw [hbuf.length (by omega)]; omega), hbuf.drop hout,
      List.take_of_length_le (by rw [List.length_drop]), hdest]
    exact hput
  rw [Behind, hsplice] at hbehind
  have hshift : shiftLoop 0 b.edges (recordDeltas 0 zs) (zs.map Decision.kind) =
      List.zipWith (settled fun o => gone o (b.cuts zs)) b.edges (finalKinds b.edges zs) :=
    shiftLoop_decided hdec hwf.apart hwf.inside fun e _ => (Nat.zero_add _).symm
  unfold finalizeBlockRelax
  rw [hedges, hdeltas, hkinds]
  have hy' : rewriteLoop b.relaxEdges (recordDeltas 0 zs) (zs.map Decision.kind)
      ⟨b.content, 0, 0, 0, aux.writes⟩ = some y := hy
  rw [hy', Option.bind_some, if_neg (by omega), hmove, Option.map_some, hshift, hbehind]
  rfl

end RvLlvm.JitLink.Relax
