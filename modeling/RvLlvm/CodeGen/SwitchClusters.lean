import RvLlvm.CodeGen.SwitchLowering
import Mathlib.Algebra.Order.Ring.Int
import Mathlib.Tactic.Linarith

/-!
# Switch clusters keep the switch's meaning
-/

namespace RvLlvm.CodeGen.Switch

open Support

variable {w : Nat}

/-! ## Distances -/

theorem toNat_sub_eq (a b : BitVec w) : ((b - a).toNat : Int) = (b.toInt - a.toInt) % 2 ^ w := by
  have h : b - a = BitVec.ofInt w (b.toInt - a.toInt) := by
    rw [← BitVec.toInt_inj, BitVec.toInt_sub, BitVec.toInt_ofInt]
  rw [h, BitVec.toNat_ofInt]
  exact (Int.toNat_of_nonneg (Int.emod_nonneg _ (by positivity))).trans (by norm_cast)

theorem toInt_sub_lt (a b : BitVec w) : b.toInt - a.toInt < 2 ^ w := by
  have h := BitVec.two_mul_toInt_lt (x := b)
  have h' := BitVec.le_two_mul_toInt (x := a)
  omega

theorem toNat_sub_of_le {a b : BitVec w} (h : a.toInt ≤ b.toInt) :
    ((b - a).toNat : Int) = b.toInt - a.toInt := by
  rw [toNat_sub_eq, Int.emod_eq_of_lt (by omega) (toInt_sub_lt a b)]

theorem toNat_sub_of_lt {a b : BitVec w} (h : b.toInt < a.toInt) :
    ((b - a).toNat : Int) = b.toInt - a.toInt + 2 ^ w := by
  have hlt := toInt_sub_lt b a
  rw [toNat_sub_eq, ← Int.add_emod_right, Int.emod_eq_of_lt (by omega) (by omega)]

variable {v : BitVec w} {c first last : CaseCluster w} {sl sl' : SwitchLowering w}
  {f : BitVec w → Nat} {seg cl cs : List (CaseCluster w)} {defaultMBB i : Nat}

/-- One comparison without sign tests both ends of a range. -/
theorem toNat_sub_le_iff {low high : BitVec w} (h : low.toInt ≤ high.toInt) :
    (v - low).toNat ≤ (high - low).toNat ↔ low.toInt ≤ v.toInt ∧ v.toInt ≤ high.toInt := by
  have hh := toNat_sub_of_le h
  by_cases hv : low.toInt ≤ v.toInt
  · have hv' := toNat_sub_of_le hv
    omega
  · have hv' := toNat_sub_of_lt (Int.not_le.mp hv)
    have h₁ := toInt_sub_lt v high
    omega

/-! ## What a cluster stands for -/

/-- The tables that are there keep their place. -/
structure Extends (sl sl' : SwitchLowering w) : Prop where
  jt : sl.jtCases <+: sl'.jtCases
  bt : sl.bitTestCases <+: sl'.bitTestCases

theorem Extends.refl (sl : SwitchLowering w) : Extends sl sl :=
  ⟨List.prefix_refl _, List.prefix_refl _⟩

theorem Extends.trans {a b c : SwitchLowering w} (h : Extends a b) (h' : Extends b c) :
    Extends a c := ⟨h.jt.trans h'.jt, h.bt.trans h'.bt⟩

/-- The cluster's table exists. -/
def Valid (sl : SwitchLowering w) (c : CaseCluster w) : Prop :=
  match c.kind with
  | .CC_Range _ => True
  | .CC_JumpTable i => i < sl.jtCases.length
  | .CC_BitTests i => i < sl.bitTestCases.length

theorem Valid.mono (h : Valid sl c) (hext : Extends sl sl') : Valid sl' c := by
  obtain ⟨kind, low, high, prob⟩ := c
  cases kind with
  | CC_Range => trivial
  | CC_JumpTable i => exact Nat.lt_of_lt_of_le h hext.jt.length_le
  | CC_BitTests i => exact Nat.lt_of_lt_of_le h hext.bt.length_le

theorem dest_mono (h : Valid sl c) (hext : Extends sl sl') (v : BitVec w) :
    c.dest sl' v = c.dest sl v := by
  obtain ⟨kind, low, high, prob⟩ := c
  cases kind with
  | CC_Range => rfl
  | CC_JumpTable i =>
    have hget : sl'.jtCases[i]? = sl.jtCases[i]? := by
      obtain ⟨rest, hrest⟩ := hext.jt
      rw [← hrest, List.getElem?_append_left h]
    simp only [CaseCluster.dest, hget]
  | CC_BitTests i =>
    have hget : sl'.bitTestCases[i]? = sl.bitTestCases[i]? := by
      obtain ⟨rest, hrest⟩ := hext.bt
      rw [← hrest, List.getElem?_append_left h]
    simp only [CaseCluster.dest, hget]

/-- `c` stands for the clusters `seg` of a switch that means `f`. -/
structure Covers (f : BitVec w → Nat) (sl : SwitchLowering w) (seg : List (CaseCluster w))
    (c : CaseCluster w) : Prop where
  ends : ∃ first last, seg.head? = some first ∧ seg.getLast? = some last ∧
    c.low = first.low ∧ c.high = last.high
  valid : Valid sl c
  validSeg : ∀ r ∈ seg, Valid sl r
  sound : ∀ v d, c.dest sl v = some d → d = f v
  complete : ∀ r ∈ seg, ∀ v d, r.dest sl v = some d → c.dest sl v = some d

theorem Covers.mono (hext : Extends sl sl') (h : Covers f sl seg c) : Covers f sl' seg c where
  ends := h.ends
  valid := h.valid.mono hext
  validSeg := fun r hr => (h.validSeg r hr).mono hext
  sound := fun v d hd => h.sound v d (by rw [← hd, dest_mono h.valid hext])
  complete := fun r hr v d hd => by
    rw [dest_mono h.valid hext]
    exact h.complete r hr v d (by rw [← hd, dest_mono (h.validSeg r hr) hext])

/-- A vector of clusters means `f`: in order, each sends values where `f` does, and a value that no
cluster takes goes to the default. -/
structure Means (f : BitVec w → Nat) (defaultMBB : Nat) (sl : SwitchLowering w)
    (cl : List (CaseCluster w)) : Prop where
  sorted : cl.Pairwise fun a b => a.high.toInt < b.low.toInt
  nonempty : ∀ c ∈ cl, c.low.toInt ≤ c.high.toInt
  valid : ∀ c ∈ cl, Valid sl c
  sound : ∀ c ∈ cl, ∀ v d, c.dest sl v = some d → d = f v
  complete : ∀ v, f v ≠ defaultMBB → ∃ c ∈ cl, ∃ d, c.dest sl v = some d

/-- In whatever order the clusters are tested. -/
theorem Means.select_eq {cl' : List (CaseCluster w)} (h : Means f defaultMBB sl cl)
    (hperm : cl'.Perm cl) (v : BitVec w) : select sl cl' defaultMBB v = f v := by
  rw [select]
  cases hfind : cl'.findSome? fun c => c.dest sl v with
  | some d =>
    obtain ⟨c, hc, hd⟩ := List.exists_of_findSome?_eq_some hfind
    exact h.sound c (hperm.mem_iff.mp hc) v d hd
  | none =>
    by_contra hne
    obtain ⟨c, hc, d, hd⟩ := h.complete v (Ne.symm hne)
    rw [List.findSome?_eq_none_iff.mp hfind c (hperm.mem_iff.mpr hc)] at hd
    cases hd

theorem exists_of_forall₂ {α β : Type} {R : α → β → Prop} {as : List α} {bs : List β}
    (h : List.Forall₂ R as bs) : (∀ b ∈ bs, ∃ a ∈ as, R a b) ∧ ∀ a ∈ as, ∃ b ∈ bs, R a b := by
  induction h with
  | nil => exact ⟨List.forall_mem_nil _, List.forall_mem_nil _⟩
  | @cons a b as bs hab _ ih =>
    refine ⟨List.forall_mem_cons.mpr ⟨⟨a, List.mem_cons_self, hab⟩, fun b' hb' => ?_⟩,
      List.forall_mem_cons.mpr ⟨⟨b, List.mem_cons_self, hab⟩, fun a' ha' => ?_⟩⟩
    · obtain ⟨a', ha', hR⟩ := ih.1 b' hb'
      exact ⟨a', List.mem_cons_of_mem _ ha', hR⟩
    · obtain ⟨b', hb', hR⟩ := ih.2 a' ha'
      exact ⟨b', List.mem_cons_of_mem _ hb', hR⟩

theorem Covers.low_mem (h : Covers f sl seg c) : ∃ r ∈ seg, c.low = r.low := by
  obtain ⟨first, _, hfirst, _, hlow, _⟩ := h.ends
  exact ⟨first, List.mem_of_head? hfirst, hlow⟩

theorem Covers.high_mem (h : Covers f sl seg c) : ∃ r ∈ seg, c.high = r.high := by
  obtain ⟨_, last, _, hlast, _, hhigh⟩ := h.ends
  exact ⟨last, List.mem_of_getLast? hlast, hhigh⟩

theorem sorted_of_forall₂ {out : List (CaseCluster w)} {segs : List (List (CaseCluster w))}
    (hcov : List.Forall₂ (Covers f sl) segs out)
    (hsegs : segs.Pairwise fun l l' => ∀ a ∈ l, ∀ b ∈ l', a.high.toInt < b.low.toInt) :
    out.Pairwise fun a b => a.high.toInt < b.low.toInt := by
  induction hcov with
  | nil => exact .nil
  | @cons seg c segs out hc hrest ih =>
    obtain ⟨hhead, htail⟩ := List.pairwise_cons.mp hsegs
    refine List.pairwise_cons.mpr ⟨fun c' hc' => ?_, ih htail⟩
    obtain ⟨seg', hseg', hcov'⟩ := (exists_of_forall₂ hrest).1 c' hc'
    obtain ⟨last, hlast, hhigh⟩ := hc.high_mem
    obtain ⟨first, hfirst, hlow⟩ := hcov'.low_mem
    rw [hhigh, hlow]
    exact hhead seg' hseg' last hlast first hfirst

/-- In a sorted segment the ends are in order. -/
theorem low_le_high (hsorted : seg.Pairwise fun a b => a.high.toInt < b.low.toInt)
    (hne : ∀ c ∈ seg, c.low.toInt ≤ c.high.toInt) (hfirst : seg.head? = some first)
    (hlast : seg.getLast? = some last) : first.low.toInt ≤ last.high.toInt := by
  cases seg with
  | nil => cases hfirst
  | cons c cs =>
    obtain rfl := Option.some.inj hfirst
    have hc := hne c List.mem_cons_self
    have hmem := List.mem_of_getLast? hlast
    rcases List.mem_cons.mp hmem with rfl | hmem
    · exact hc
    · have hlt := (List.pairwise_cons.mp hsorted).1 last hmem
      have hl := hne last (List.mem_cons_of_mem _ hmem)
      omega

/-- **Clusters that stand for a vector piece by piece mean what it means.** -/
theorem Means.of_forall₂ {out : List (CaseCluster w)} {segs : List (List (CaseCluster w))}
    (h : Means f defaultMBB sl cl) (hext : Extends sl sl') (hflat : segs.flatten = cl)
    (hcov : List.Forall₂ (Covers f sl') segs out) : Means f defaultMBB sl' out := by
  subst hflat
  obtain ⟨hmem, hmem'⟩ := exists_of_forall₂ hcov
  obtain ⟨hin, hacross⟩ := List.pairwise_flatten.mp h.sorted
  refine ⟨sorted_of_forall₂ hcov hacross, fun c hc => ?_, fun c hc => ?_, fun c hc => ?_, ?_⟩
  · obtain ⟨seg, hseg, hcover⟩ := hmem c hc
    obtain ⟨first, last, hfirst, hlast, hlow, hhigh⟩ := hcover.ends
    rw [hlow, hhigh]
    exact low_le_high (hin seg hseg)
      (fun r hr => h.nonempty r (List.mem_flatten_of_mem hseg hr)) hfirst hlast
  · obtain ⟨seg, _, hcover⟩ := hmem c hc
    exact hcover.valid
  · obtain ⟨seg, _, hcover⟩ := hmem c hc
    exact hcover.sound
  · intro v hv
    obtain ⟨r, hr, d, hd⟩ := h.complete v hv
    obtain ⟨seg, hseg, hrseg⟩ := List.mem_flatten.mp hr
    obtain ⟨c, hc, hcover⟩ := hmem' seg hseg
    exact ⟨c, hc, d, hcover.complete r hrseg v d (by rw [dest_mono (h.valid r hr) hext, hd])⟩

theorem Means.covers_self (h : Means f defaultMBB sl cl) (hext : Extends sl sl') (hc : c ∈ cl) :
    Covers f sl' [c] c where
  ends := ⟨c, c, rfl, rfl, rfl, rfl⟩
  valid := (h.valid c hc).mono hext
  validSeg := fun r hr => by
    rw [List.mem_singleton.mp hr]
    exact (h.valid c hc).mono hext
  sound := fun v d hd => h.sound c hc v d (by rw [← hd, dest_mono (h.valid c hc) hext])
  complete := fun r hr v d hd => by rwa [List.mem_singleton.mp hr] at hd

/-! ## The partitions -/

/-- What the dynamic programs leave in `LastElement`: a partition of one, or one that was tried and
found good. -/
theorem partitions_spec {n : Nat} (hn : 0 < n)
    {search : Nat → List Partition → Partition → Partition} {Ok : Nat → Nat → Prop}
    (hsearch : ∀ i rest best, i < n → best.lastElement = i →
      let p := search i rest best
      p.lastElement = i ∨ i < p.lastElement ∧ p.lastElement < n ∧ Ok i p.lastElement)
    {k : Nat} (hk : k < n) :
    (partitions n search k).length = k + 1 ∧ ∀ j ≤ k, ∃ p,
      (partitions n search k)[k - j]? = some p ∧
      (p.lastElement = n - 1 - j ∨
        n - 1 - j < p.lastElement ∧ p.lastElement < n ∧ Ok (n - 1 - j) p.lastElement) := by
  induction k with
  | zero =>
    refine ⟨rfl, fun j hj => ?_⟩
    obtain rfl := Nat.le_zero.mp hj
    exact ⟨⟨1, n - 1, 2⟩, rfl, .inl rfl⟩
  | succ k ih =>
    obtain ⟨hlen, hall⟩ := ih (by omega)
    rw [partitions]
    refine ⟨by rw [List.length_cons, hlen], fun j hj => ?_⟩
    rcases Nat.eq_or_lt_of_le hj with rfl | hlt
    · refine ⟨_, by rw [Nat.sub_self]; rfl, ?_⟩
      rw [show n - 1 - (k + 1) = n - 2 - k by omega]
      exact hsearch _ _ _ (by omega) rfl
    · obtain ⟨p, hp, hlast⟩ := hall j (by omega)
      refine ⟨p, ?_, hlast⟩
      rw [show k + 1 - j = k - j + 1 by omega, List.getElem?_cons_succ, hp]

theorem lastElement_spec {n : Nat} (hn : 0 < n)
    {search : Nat → List Partition → Partition → Partition} (Ok : Nat → Nat → Prop)
    (hsearch : ∀ i rest best, i < n → best.lastElement = i →
      let p := search i rest best
      p.lastElement = i ∨ i < p.lastElement ∧ p.lastElement < n ∧ Ok i p.lastElement) (hi : i < n) :
    ∃ l,
      ((partitions n search (n - 1)).map (·.lastElement))[i]? = some l ∧ i ≤ l ∧ l < n ∧
        (l = i ∨ Ok i l) := by
  obtain ⟨_, hall⟩ := partitions_spec hn hsearch (k := n - 1) (by omega)
  obtain ⟨p, hp, hlast⟩ := hall (n - 1 - i) (by omega)
  rw [show n - 1 - (n - 1 - i) = i by omega] at hp hlast
  refine ⟨p.lastElement, by rw [List.getElem?_map, hp]; rfl, ?_⟩
  rcases hlast with h | ⟨h₁, h₂, hok⟩
  · exact ⟨h.ge, by omega, .inl h⟩
  · exact ⟨h₁.le, h₂, .inr hok⟩

theorem searchTables_spec (t : Target) (clusters : List (CaseCluster w)) (i : Nat)
    (rest : List Partition) (k : Nat) (best : Partition) :
    (searchTables t clusters i rest k best).lastElement = best.lastElement ∨
      ∃ j, i < j ∧ j ≤ i + k ∧ suitsJumpTable t clusters i j ∧
        (searchTables t clusters i rest k best).lastElement = j := by
  induction k generalizing best with
  | zero => exact .inl rfl
  | succ k ih =>
    have hskip : ∀ best', best'.lastElement = best.lastElement →
        (searchTables t clusters i rest k best').lastElement = best.lastElement ∨
          ∃ j, i < j ∧ j ≤ i + (k + 1) ∧ suitsJumpTable t clusters i j ∧
            (searchTables t clusters i rest k best').lastElement = j := fun best' hb => by
      rcases ih best' with h | ⟨j, h₁, h₂, hj⟩
      · exact .inl (h.trans hb)
      · exact .inr ⟨j, h₁, by omega, hj⟩
    rw [searchTables]
    dsimp only
    split
    · rename_i hsuit
      split
      · rcases ih ⟨numPartitions rest i (i + (k + 1)), i + (k + 1),
          (rest[i + (k + 1) - i]?).elim 0 (·.score) + tableScore t (i + (k + 1) - i + 1)⟩ with
          h | ⟨j, h₁, h₂, hj⟩
        · exact .inr ⟨_, by omega, Nat.le_refl _, hsuit, h⟩
        · exact .inr ⟨j, h₁, by omega, hj⟩
      · exact hskip best rfl
    · exact hskip best rfl

theorem tablePartitions_spec (t : Target) {clusters : List (CaseCluster w)}
    (hi : i < clusters.length) : ∃ l,
      ((tablePartitions t clusters).map (·.lastElement))[i]? = some l ∧ i ≤ l ∧
        l < clusters.length ∧ (l = i ∨ suitsJumpTable t clusters i l = true) :=
  lastElement_spec (by omega) (fun i l => suitsJumpTable t clusters i l = true)
    (fun i rest best hi' hb => by
      rcases searchTables_spec t clusters i rest (clusters.length - 1 - i) best with
        h | ⟨j, h₁, h₂, h₃, h₄⟩
      · exact .inl (h.trans hb)
      · dsimp only
        rw [h₄]
        exact .inr ⟨h₁, by omega, h₃⟩) hi

/-- What the search for bit tests asks of a partition. -/
def BitsOk (t : Target) (clusters : List (CaseCluster w)) (i j : Nat) : Prop :=
  rangeFitsInWord t (lowAt clusters i) (highAt clusters j) ∧ rangesOnly (piece clusters i j)

theorem searchBits_spec (t : Target) (clusters : List (CaseCluster w)) (i : Nat)
    (rest : List Partition) (k : Nat) (best : Partition) :
    (searchBits t clusters i rest k best).lastElement = best.lastElement ∨
      ∃ j, i < j ∧ j ≤ i + k ∧ BitsOk t clusters i j ∧
        (searchBits t clusters i rest k best).lastElement = j := by
  induction k generalizing best with
  | zero => exact .inl rfl
  | succ k ih =>
    have hskip : (searchBits t clusters i rest k best).lastElement = best.lastElement ∨
          ∃ j, i < j ∧ j ≤ i + (k + 1) ∧ BitsOk t clusters i j ∧
            (searchBits t clusters i rest k best).lastElement = j := by
      rcases ih best with h | ⟨j, h₁, h₂, hj⟩
      · exact .inl h
      · exact .inr ⟨j, h₁, by omega, hj⟩
    rw [searchBits]
    split
    · exact hskip
    · rename_i hfits
      split
      · exact .inl rfl
      · rename_i hranges
        split
        · rcases ih ⟨numPartitions rest i (i + (k + 1)), i + (k + 1), 0⟩ with h | ⟨j, h₁, h₂, hj⟩
          · exact .inr ⟨_, by omega, Nat.le_refl _,
              ⟨not_not.mp hfits, not_not.mp (not_or.mp hranges).1⟩, h⟩
          · exact .inr ⟨j, h₁, by omega, hj⟩
        · exact hskip

/-! ## Jump tables -/

/-- Range clusters in order, not longer than a table can hold. -/
structure Ranges (cs : List (CaseCluster w)) : Prop where
  kind : ∀ c ∈ cs, ∃ mbb, c.kind = .CC_Range mbb
  nonempty : ∀ c ∈ cs, c.low.toInt ≤ c.high.toInt
  sorted : cs.Pairwise fun a b => a.high.toInt < b.low.toInt
  size : ∀ c ∈ cs, c.high.toInt - c.low.toInt < 2 ^ 32

theorem Ranges.tail (h : Ranges (c :: cs)) :
    Ranges cs where
  kind := fun d hd => h.kind d (List.mem_cons_of_mem _ hd)
  nonempty := fun d hd => h.nonempty d (List.mem_cons_of_mem _ hd)
  sorted := (List.pairwise_cons.mp h.sorted).2
  size := fun d hd => h.size d (List.mem_cons_of_mem _ hd)

theorem dest_range (hc : ∃ mbb, c.kind = .CC_Range mbb) (sl : SwitchLowering w) (v : BitVec w) :
    c.dest sl v =
      if c.low.toInt ≤ v.toInt ∧ v.toInt ≤ c.high.toInt then some c.mbb else none := by
  obtain ⟨mbb, hk⟩ := hc
  rw [CaseCluster.dest, CaseCluster.mbb, hk]

theorem getLimitedValue_of_lt {x : BitVec w} {limit : Nat} (h : x.toNat ≤ limit) :
    getLimitedValue x limit = x.toNat := if_neg (Nat.not_lt.mpr h)

theorem lt_of_getLimitedValue {x : BitVec w} {limit : Nat} (h : getLimitedValue x limit < limit) :
    x.toNat < limit := by
  rw [getLimitedValue] at h
  split at h <;> omega

theorem clusterSize (hne : c.low.toInt ≤ c.high.toInt)
    (hsize : c.high.toInt - c.low.toInt < 2 ^ 32) :
    (((getLimitedValue (c.high - c.low) (2 ^ 64 - 1) + 1) % 2 ^ 64 : Nat) : Int) =
      c.high.toInt - c.low.toInt + 1 := by
  have h := toNat_sub_of_le hne
  rw [getLimitedValue_of_lt (by omega)]
  omega

theorem findSome?_dest_of_lt (h : Ranges cs) (sl : SwitchLowering w)
    (hv : ∀ c ∈ cs, v.toInt < c.low.toInt) : (cs.findSome? fun c => c.dest sl v) = none := by
  refine List.findSome?_eq_none_iff.mpr fun c hc => ?_
  rw [dest_range (h.kind c hc), if_neg]
  have hlt := hv c hc
  omega

/-- The entry for each value between the ends. -/
theorem getElem?_tableOf (h : Ranges cs)
    (hgap : ∀ a ∈ cs, ∀ b ∈ cs, b.low.toInt - a.high.toInt < 2 ^ 64) (sl : SwitchLowering w)
    (defaultMBB : Nat) (hfirst : cs.head? = some first) (hlast : cs.getLast? = some last)
    (hlo : first.low.toInt ≤ v.toInt) (hhi : v.toInt ≤ last.high.toInt) :
    (tableOf defaultMBB cs)[(v.toInt - first.low.toInt).toNat]? =
      some ((cs.findSome? fun c => c.dest sl v).getD defaultMBB) := by
  induction cs generalizing first with
  | nil => cases hfirst
  | cons c cs ih =>
    obtain rfl := Option.some.inj hfirst
    have hc := dest_range (h.kind c List.mem_cons_self) sl v
    have hne := h.nonempty c List.mem_cons_self
    have hsize := clusterSize hne (h.size c List.mem_cons_self)
    cases cs with
    | nil =>
      have hl : c = last := Option.some.inj hlast
      subst hl
      rw [tableOf, List.getElem?_replicate, if_pos (by omega), List.findSome?_cons, hc,
        if_pos ⟨hlo, hhi⟩]
      rfl
    | cons d cs =>
      have hcd := (List.pairwise_cons.mp h.sorted).1 d List.mem_cons_self
      have hd := h.nonempty d (List.mem_cons_of_mem _ List.mem_cons_self)
      have hgapcd := hgap c List.mem_cons_self d (List.mem_cons_of_mem _ List.mem_cons_self)
      have hgapNat := toNat_sub_of_le hcd.le
      rw [tableOf, getLimitedValue_of_lt (x := d.low - c.high) (by omega), List.append_assoc]
      by_cases hin : v.toInt ≤ c.high.toInt
      · rw [List.getElem?_append_left (by rw [List.length_replicate]; omega),
          List.getElem?_replicate, if_pos (by omega), List.findSome?_cons, hc, if_pos ⟨hlo, hin⟩]
        rfl
      · rw [List.getElem?_append_right (by rw [List.length_replicate]; omega),
          List.length_replicate, List.findSome?_cons, hc, if_neg (fun hv => hin hv.2)]
        by_cases hbefore : v.toInt < d.low.toInt
        · have hnone := findSome?_dest_of_lt h.tail sl fun b hb => by
            rcases List.mem_cons.mp hb with rfl | hb
            · exact hbefore
            · have hlt := (List.pairwise_cons.mp h.tail.sorted).1 b hb
              omega
          rw [List.getElem?_append_left (by rw [List.length_replicate]; omega),
            List.getElem?_replicate, if_pos (by omega), hnone]
          rfl
        · rw [List.getElem?_append_right (by rw [List.length_replicate]; omega),
            List.length_replicate]
          have hrest := ih h.tail
            (fun a ha b hb => hgap a (List.mem_cons_of_mem _ ha) b (List.mem_cons_of_mem _ hb))
            rfl (by rwa [List.getLast?_cons_cons] at hlast) (Int.not_lt.mp hbefore)
          rw [← hrest]
          congr 1
          omega

/-- The values between the ends of a segment are those of its clusters, or the default's. -/
def Owns (f : BitVec w → Nat) (defaultMBB : Nat) (seg : List (CaseCluster w)) : Prop :=
  ∀ first last, seg.head? = some first → seg.getLast? = some last → ∀ v : BitVec w,
    first.low.toInt ≤ v.toInt → v.toInt ≤ last.high.toInt → f v ≠ defaultMBB →
    ∃ c ∈ seg, c.low.toInt ≤ v.toInt ∧ v.toInt ≤ c.high.toInt

theorem head_le_of_mem (h : Ranges seg) {r : CaseCluster w} (hfirst : seg.head? = some first)
    (hr : r ∈ seg) : first.low.toInt ≤ r.low.toInt := by
  cases seg with
  | nil => cases hfirst
  | cons c cs =>
    obtain rfl := Option.some.inj hfirst
    rcases List.mem_cons.mp hr with rfl | hr
    · exact le_refl _
    · have hlt := (List.pairwise_cons.mp h.sorted).1 r hr
      have hne := h.nonempty c List.mem_cons_self
      omega

theorem le_last_of_mem (h : Ranges seg) {r : CaseCluster w} (hlast : seg.getLast? = some last)
    (hr : r ∈ seg) : r.high.toInt ≤ last.high.toInt := by
  induction seg with
  | nil => cases hr
  | cons c cs ih =>
    cases cs with
    | nil =>
      obtain rfl := Option.some.inj hlast
      obtain rfl := List.mem_singleton.mp hr
      exact le_refl _
    | cons d cs =>
      rw [List.getLast?_cons_cons] at hlast
      rcases List.mem_cons.mp hr with rfl | hr
      · have hmem := List.mem_of_getLast? hlast
        have hlt := (List.pairwise_cons.mp h.sorted).1 last hmem
        have hne := h.nonempty last (List.mem_cons_of_mem _ hmem)
        omega
      · exact ih h.tail hlast hr

/-- Range clusters do not overlap, so the first that takes a value is the one that has it. -/
theorem findSome?_dest (h : Ranges seg) (sl : SwitchLowering w) {r : CaseCluster w} (hr : r ∈ seg)
    {d : Nat} (hd : r.dest sl v = some d) : (seg.findSome? fun c => c.dest sl v) = some d := by
  induction seg with
  | nil => cases hr
  | cons c cs ih =>
    rcases List.mem_cons.mp hr with rfl | hr
    · rw [List.findSome?_cons, hd]
    · have hrk := h.kind r (List.mem_cons_of_mem _ hr)
      have hlt := (List.pairwise_cons.mp h.sorted).1 r hr
      rw [dest_range hrk] at hd
      have hin : r.low.toInt ≤ v.toInt ∧ v.toInt ≤ r.high.toInt := by
        by_contra hnot
        rw [if_neg hnot] at hd
        cases hd
      rw [List.findSome?_cons, dest_range (h.kind c List.mem_cons_self), if_neg (by omega)]
      exact ih h.tail hr

theorem buildJumpTable_covers {t : Target} (h : Ranges seg)
    (hgap : ∀ a ∈ seg, ∀ b ∈ seg, b.low.toInt - a.high.toInt < 2 ^ 64)
    (hsound : ∀ r ∈ seg, ∀ v d, r.dest sl v = some d → d = f v) (howns : Owns f defaultMBB seg)
    (hbuild : buildJumpTable t defaultMBB sl seg = some (sl', c)) :
    Extends sl sl' ∧ Covers f sl' seg c := by
  rw [buildJumpTable] at hbuild
  split at hbuild
  · rename_i first last hfirst hlast
    split at hbuild
    · cases hbuild
    · obtain ⟨rfl, rfl⟩ := Prod.mk.inj (Option.some.inj hbuild)
      have hvalid : ∀ (sl : SwitchLowering w), ∀ r ∈ seg, Valid sl r := fun sl r hr => by
        obtain ⟨mbb, hk⟩ := h.kind r hr
        rw [Valid, hk]
        trivial
      have hle := low_le_high h.sorted h.nonempty hfirst hlast
      have hdest : ∀ v : BitVec w, CaseCluster.dest
          { sl with jtCases := sl.jtCases ++ [⟨first.low, last.high, tableOf defaultMBB seg⟩] }
          ⟨.CC_JumpTable sl.jtCases.length, first.low, last.high, totalProb seg⟩ v =
          if first.low.toInt ≤ v.toInt ∧ v.toInt ≤ last.high.toInt then
            some ((seg.findSome? fun c => c.dest sl v).getD defaultMBB) else none := fun v => by
        simp only [CaseCluster.dest, List.getElem?_concat_length, Option.bind_some,
          toNat_sub_le_iff hle]
        split
        · rename_i hv
          have hidx : (v - first.low).toNat = (v.toInt - first.low.toInt).toNat := by
            have hsub := toNat_sub_of_le hv.1
            omega
          rw [hidx, getElem?_tableOf h hgap sl defaultMBB hfirst hlast hv.1 hv.2]
          rfl
        · rfl
      refine ⟨⟨List.prefix_append _ _, List.prefix_refl _⟩,
        ⟨first, last, hfirst, hlast, rfl, rfl⟩, ?_, hvalid _, fun v d hd => ?_, fun r hr v d hd => ?_⟩
      · show sl.jtCases.length < (sl.jtCases ++ [_]).length
        rw [List.length_append]
        exact Nat.lt_succ_self _
      · rw [hdest] at hd
        split at hd
        · rename_i hv
          obtain rfl := Option.some.inj hd
          cases hfind : seg.findSome? fun c => c.dest sl v with
          | some d =>
            obtain ⟨r, hr, hrd⟩ := List.exists_of_findSome?_eq_some hfind
            exact hsound r hr v d hrd
          | none =>
            by_contra hne
            obtain ⟨r, hr, hin⟩ := howns first last hfirst hlast v hv.1 hv.2 (Ne.symm hne)
            have hrd := List.findSome?_eq_none_iff.mp hfind r hr
            rw [dest_range (h.kind r hr), if_pos hin] at hrd
            cases hrd
        · cases hd
      · have hrd : r.dest sl v = some d := by
          rw [← hd, dest_range (h.kind r hr), dest_range (h.kind r hr)]
        have hin : r.low.toInt ≤ v.toInt ∧ v.toInt ≤ r.high.toInt := by
          by_contra hnot
          rw [dest_range (h.kind r hr), if_neg hnot] at hrd
          cases hrd
        have hfst := head_le_of_mem h hfirst hr
        have hlst := le_last_of_mem h hlast hr
        rw [hdest, if_pos (by omega), findSome?_dest h sl hr hrd]
        rfl
  · cases hbuild

/-! ## Bit tests -/

/-- The bits of one cluster. -/
theorem getLsbD_caseMask {lo hi k : Nat} (hle : lo ≤ hi) (h64 : hi < 64) :
    ((BitVec.allOnes 64 >>> (63 - (hi - lo))) <<< lo).getLsbD k = decide (lo ≤ k ∧ k ≤ hi) := by
  rw [BitVec.getLsbD_shiftLeft, BitVec.getLsbD_ushiftRight, BitVec.getLsbD_allOnes]
  rw [Bool.eq_iff_iff]
  simp only [Bool.and_eq_true, Bool.not_eq_true', decide_eq_true_eq, decide_eq_false_iff_not]
  omega

section
variable {lowBound : BitVec w}

/-- The bits of the cluster fit the mask. -/
def FitsMask (lowBound : BitVec w) (c : CaseCluster w) : Prop :=
  (c.low - lowBound).toNat ≤ (c.high - lowBound).toNat ∧ (c.high - lowBound).toNat < 64

def BitOf (lowBound : BitVec w) (c : CaseCluster w) (k : Nat) : Prop :=
  (c.low - lowBound).toNat ≤ k ∧ k ≤ (c.high - lowBound).toNat

variable {c : CaseCluster w} {cbv : List CaseBits}

theorem getLsbD_add (h : FitsMask lowBound c) (b : CaseBits) (k : Nat) :
    (b.add lowBound c).mask.getLsbD k = true ↔ b.mask.getLsbD k = true ∨ BitOf lowBound c k := by
  show (b.mask ||| _ <<< _).getLsbD k = true ↔ _
  rw [BitVec.getLsbD_or, getLsbD_caseMask h.1 h.2, Bool.or_eq_true, decide_eq_true_eq]
  rfl

/-- No mask has a bit that no cluster gave it. -/
theorem addCaseBits_sound {Q : Nat → Nat → Prop} (h : FitsMask lowBound c)
    (hc : ∀ k, BitOf lowBound c k → Q c.mbb k)
    (hcbv : ∀ b ∈ cbv, ∀ k, b.mask.getLsbD k = true → Q b.bb k) :
    ∀ b ∈ addCaseBits lowBound cbv c, ∀ k, b.mask.getLsbD k = true → Q b.bb k := by
  induction cbv with
  | nil =>
    intro b hb k hk
    rw [addCaseBits, List.mem_singleton] at hb
    subst hb
    rcases (getLsbD_add h _ k).mp hk with h0 | hbit
    · simp at h0
    · exact hc k hbit
  | cons a cbv ih =>
    rw [List.forall_mem_cons] at hcbv
    rw [addCaseBits]
    split
    · rename_i heq
      refine List.forall_mem_cons.mpr ⟨fun k hk => ?_, hcbv.2⟩
      rcases (getLsbD_add h a k).mp hk with ha | hbit
      · exact hcbv.1 k ha
      · show Q a.bb k
        rw [heq]
        exact hc k hbit
    · exact List.forall_mem_cons.mpr ⟨hcbv.1, ih hcbv.2⟩

/-- Some mask of the destination has the bit. -/
def HasBit (cbv : List CaseBits) (m k : Nat) : Prop :=
  ∃ b ∈ cbv, b.bb = m ∧ b.mask.getLsbD k = true

theorem HasBit.cons {a : CaseBits} {m k : Nat} (h : HasBit cbv m k) : HasBit (a :: cbv) m k := by
  obtain ⟨b, hb, hm⟩ := h
  exact ⟨b, List.mem_cons_of_mem _ hb, hm⟩

theorem addCaseBits_keeps (h : FitsMask lowBound c) {m k : Nat} (hbit : HasBit cbv m k) :
    HasBit (addCaseBits lowBound cbv c) m k := by
  induction cbv with
  | nil =>
    obtain ⟨_, hb, _⟩ := hbit
    cases hb
  | cons a cbv ih =>
    rw [addCaseBits]
    obtain ⟨b, hb, hm, hk⟩ := hbit
    split
    · rcases List.mem_cons.mp hb with rfl | hb
      · exact ⟨_, List.mem_cons_self, hm, (getLsbD_add h b k).mpr (.inl hk)⟩
      · exact HasBit.cons ⟨b, hb, hm, hk⟩
    · rcases List.mem_cons.mp hb with rfl | hb
      · exact ⟨b, List.mem_cons_self, hm, hk⟩
      · exact (ih ⟨b, hb, hm, hk⟩).cons

theorem addCaseBits_sets (h : FitsMask lowBound c) (cbv : List CaseBits) {k : Nat}
    (hk : BitOf lowBound c k) : HasBit (addCaseBits lowBound cbv c) c.mbb k := by
  induction cbv with
  | nil => exact ⟨_, List.mem_singleton_self _, rfl, (getLsbD_add h _ k).mpr (.inr hk)⟩
  | cons a cbv ih =>
    rw [addCaseBits]
    split
    · rename_i heq
      exact ⟨_, List.mem_cons_self, heq, (getLsbD_add h a k).mpr (.inr hk)⟩
    · exact ih.cons

theorem foldl_addCaseBits_sound {Q : Nat → Nat → Prop} {cs : List (CaseCluster w)}
    (h : ∀ c ∈ cs, FitsMask lowBound c) (hc : ∀ c ∈ cs, ∀ k, BitOf lowBound c k → Q c.mbb k)
    (hcbv : ∀ b ∈ cbv, ∀ k, b.mask.getLsbD k = true → Q b.bb k) :
    ∀ b ∈ cs.foldl (addCaseBits lowBound) cbv, ∀ k, b.mask.getLsbD k = true → Q b.bb k := by
  induction cs generalizing cbv with
  | nil => exact hcbv
  | cons c cs ih =>
    rw [List.forall_mem_cons] at h hc
    exact ih h.2 hc.2 (addCaseBits_sound h.1 hc.1 hcbv)

theorem foldl_addCaseBits_sets {cs : List (CaseCluster w)} (h : ∀ c ∈ cs, FitsMask lowBound c)
    {m k : Nat} (hbit : HasBit cbv m k ∨ ∃ c ∈ cs, c.mbb = m ∧ BitOf lowBound c k) :
    HasBit (cs.foldl (addCaseBits lowBound) cbv) m k := by
  induction cs generalizing cbv with
  | nil =>
    rcases hbit with hbit | ⟨_, hc, _⟩
    · exact hbit
    · cases hc
  | cons c cs ih =>
    rw [List.forall_mem_cons] at h
    refine ih h.2 ?_
    rcases hbit with hbit | ⟨d, hd, rfl, hk⟩
    · exact .inl (addCaseBits_keeps h.1 hbit)
    · rcases List.mem_cons.mp hd with rfl | hd
      · exact .inl (addCaseBits_sets h.1 cbv hk)
      · exact .inr ⟨d, hd, rfl, hk⟩

end

/-- The values of a cluster, as bits above the bound. -/
theorem bitOf_iff {lowBound : BitVec w} (hc : lowBound.toInt ≤ c.low.toInt)
    (hne : c.low.toInt ≤ c.high.toInt) (hv : lowBound.toInt ≤ v.toInt) :
    BitOf lowBound c (v - lowBound).toNat ↔
      c.low.toInt ≤ v.toInt ∧ v.toInt ≤ c.high.toInt := by
  have h₁ := toNat_sub_of_le hc
  have h₂ := toNat_sub_of_le (hc.trans hne)
  have h₃ := toNat_sub_of_le hv
  rw [BitOf]
  omega

theorem bitTests_covers {lowBound : BitVec w} (h : Ranges seg)
    (hsound : ∀ r ∈ seg, ∀ v d, r.dest sl v = some d → d = f v) (hfirst : seg.head? = some first)
    (hlast : seg.getLast? = some last) (hbound : lowBound.toInt ≤ first.low.toInt)
    (hword : last.high.toInt - lowBound.toInt < 64) (prob : Nat) :
    Extends sl { sl with bitTestCases := sl.bitTestCases ++ [⟨lowBound, last.high - lowBound,
      (seg.foldl (addCaseBits lowBound) []).mergeSort caseBitsLe, prob⟩] } ∧
    Covers f { sl with bitTestCases := sl.bitTestCases ++ [⟨lowBound, last.high - lowBound,
      (seg.foldl (addCaseBits lowBound) []).mergeSort caseBitsLe, prob⟩] } seg
      ⟨.CC_BitTests sl.bitTestCases.length, first.low, last.high, prob⟩ := by
  have hle := low_le_high h.sorted h.nonempty hfirst hlast
  have hlow : ∀ c ∈ seg, lowBound.toInt ≤ c.low.toInt := fun c hc =>
    hbound.trans (head_le_of_mem h hfirst hc)
  have hmask : ∀ c ∈ seg, FitsMask lowBound c := fun c hc => by
    have h₁ := toNat_sub_of_le (hlow c hc)
    have h₂ := toNat_sub_of_le ((hlow c hc).trans (h.nonempty c hc))
    have h₃ := h.nonempty c hc
    have h₄ := le_last_of_mem h hlast hc
    exact ⟨by omega, by omega⟩
  have hbits : ∀ b ∈ seg.foldl (addCaseBits lowBound) [], ∀ k, b.mask.getLsbD k = true →
      ∃ c ∈ seg, c.mbb = b.bb ∧ BitOf lowBound c k :=
    foldl_addCaseBits_sound (Q := fun m k => ∃ c ∈ seg, c.mbb = m ∧ BitOf lowBound c k) hmask
      (fun c hc k hk => ⟨c, hc, rfl, hk⟩) (List.forall_mem_nil _)
  have hvalid : ∀ (sl : SwitchLowering w), ∀ r ∈ seg, Valid sl r := fun sl r hr => by
    obtain ⟨mbb, hk⟩ := h.kind r hr
    rw [Valid, hk]
    trivial
  -- a bit that is found belongs to a cluster with the value
  have hfound : ∀ v : BitVec w, lowBound.toInt ≤ v.toInt → ∀ b,
      (((seg.foldl (addCaseBits lowBound) []).mergeSort caseBitsLe).find? fun b =>
        b.mask.getLsbD (v - lowBound).toNat) = some b → b.bb = f v := fun v hv b hb => by
    obtain ⟨c, hc, hcb, hbit⟩ := hbits b (List.mem_mergeSort.mp (List.mem_of_find?_eq_some hb)) _
      (List.find?_some (p := fun b : CaseBits => b.mask.getLsbD (v - lowBound).toNat) hb)
    refine hsound c hc v b.bb ?_
    rw [dest_range (h.kind c hc),
      if_pos ((bitOf_iff (hlow c hc) (h.nonempty c hc) hv).mp hbit), hcb]
  refine ⟨⟨List.prefix_refl _, List.prefix_append _ _⟩,
    ⟨first, last, hfirst, hlast, rfl, rfl⟩, ?_, hvalid _, fun v d hd => ?_, fun r hr v d hd => ?_⟩
  · show sl.bitTestCases.length < (sl.bitTestCases ++ [_]).length
    rw [List.length_append]
    exact Nat.lt_succ_self _
  · simp only [CaseCluster.dest, List.getElem?_concat_length, Option.bind_some,
      toNat_sub_le_iff (hbound.trans hle)] at hd
    split at hd
    · rename_i hv
      obtain ⟨b, hb, rfl⟩ := Option.map_eq_some_iff.mp hd
      exact hfound v hv.1 b hb
    · cases hd
  · have hrd : r.dest sl v = some d := by
      rw [← hd, dest_range (h.kind r hr), dest_range (h.kind r hr)]
    have hin : r.low.toInt ≤ v.toInt ∧ v.toInt ≤ r.high.toInt := by
      by_contra hnot
      rw [dest_range (h.kind r hr), if_neg hnot] at hrd
      cases hrd
    have hlst := le_last_of_mem h hlast hr
    have hv := (hlow r hr).trans hin.1
    obtain ⟨b, hb, _, hbit⟩ : HasBit (seg.foldl (addCaseBits lowBound) []) r.mbb
        (v - lowBound).toNat := foldl_addCaseBits_sets hmask
      (.inr ⟨r, hr, rfl, (bitOf_iff (hlow r hr) (h.nonempty r hr) hv).mpr hin⟩)
    simp only [CaseCluster.dest, List.getElem?_concat_length, Option.bind_some,
      toNat_sub_le_iff (hbound.trans hle)]
    rw [if_pos ⟨hv, hin.2.trans hlst⟩]
    cases hfind : ((seg.foldl (addCaseBits lowBound) []).mergeSort caseBitsLe).find? fun b =>
        b.mask.getLsbD (v - lowBound).toNat with
    | some b' => exact congrArg some ((hfound v hv b' hfind).trans (hsound r hr v d hrd).symm)
    | none => exact absurd hbit (List.find?_eq_none.mp hfind b (List.mem_mergeSort.mpr hb))

theorem buildBitTests_covers {t : Target} (h : Ranges seg)
    (hsound : ∀ r ∈ seg, ∀ v d, r.dest sl v = some d → d = f v)
    (hbuild : buildBitTests t sl seg = some (sl', c)) : Extends sl sl' ∧ Covers f sl' seg c := by
  rw [buildBitTests] at hbuild
  split at hbuild
  · rename_i first last hfirst hlast
    split at hbuild
    · cases hbuild
    · dsimp only at hbuild
      split at hbuild
      · cases hbuild
      · rename_i hsuit
        have hfits := (not_not.mp hsuit).1
        have hle := low_le_high h.sorted h.nonempty hfirst hlast
        -- either way the range is what is left of `high` above the bound
        obtain ⟨lowBound, hlb, hrange, hbound, hword⟩ : ∃ lowBound : BitVec w,
            (if 0 < first.low.toInt ∧ last.high.toInt < t.pointerBits then 0 else first.low) =
              lowBound ∧
            (if 0 < first.low.toInt ∧ last.high.toInt < t.pointerBits then last.high
              else last.high - first.low) = last.high - lowBound ∧
            lowBound.toInt ≤ first.low.toInt ∧ last.high.toInt - lowBound.toInt < 64 := by
          have hp := t.pointerBits_le
          have h0 : (0 : BitVec w).toInt = 0 := BitVec.toInt_zero
          split
          · rename_i hw
            exact ⟨0, rfl, (BitVec.sub_zero _).symm, by omega, by omega⟩
          · refine ⟨first.low, rfl, rfl, le_refl _, ?_⟩
            have hsub := toNat_sub_of_le hle
            have hi := t.indexBits_le
            rw [rangeFitsInWord, getLimitedValue] at hfits
            split at hfits <;> omega
        rw [hlb, hrange] at hbuild
        obtain ⟨rfl, rfl⟩ := Prod.mk.inj (Option.some.inj hbuild)
        exact bitTests_covers h hsound hfirst hlast hbound hword _
  · cases hbuild

/-! ## The two passes -/

theorem split_piece {α : Type} (arr : List α) {l : Nat} (h : i ≤ l) :
    arr.take i ++ (piece arr i l ++ arr.drop (l + 1)) = arr := by
  have hdrop : arr.drop (l + 1) = (arr.drop i).drop (l + 1 - i) := by
    rw [List.drop_drop, Nat.add_sub_cancel' (by omega)]
  rw [piece, hdrop, List.take_append_drop, List.take_append_drop]

theorem Ranges.of_sublist (h : Ranges cs) (hsub : seg.Sublist cs) :
    Ranges seg where
  kind := fun c hc => h.kind c (hsub.subset hc)
  nonempty := fun c hc => h.nonempty c (hsub.subset hc)
  sorted := h.sorted.sublist hsub
  size := fun c hc => h.size c (hsub.subset hc)

theorem piece_sublist {α : Type} (arr : List α) (i l : Nat) : (piece arr i l).Sublist arr :=
  (List.take_sublist _ _).trans (List.drop_sublist _ _)

/-- A value between the ends of a segment is in no cluster before or behind it. -/
theorem Means.owns (h : Means f defaultMBB sl cl) (hr : Ranges cl) {l : Nat} (hil : i ≤ l) :
    Owns f defaultMBB (piece cl i l) := by
  intro first last hfirst hlast v hlo hhi hne
  obtain ⟨c, hc, d, hd⟩ := h.complete v hne
  rw [dest_range (hr.kind c hc)] at hd
  have hin : c.low.toInt ≤ v.toInt ∧ v.toInt ≤ c.high.toInt := by
    by_contra hnot
    rw [if_neg hnot] at hd
    cases hd
  have hsorted := hr.sorted
  rw [← split_piece cl hil] at hc hsorted
  obtain ⟨_, hrest, hbefore⟩ := List.pairwise_append.mp hsorted
  have hbehind := (List.pairwise_append.mp hrest).2.2
  have hfm := List.mem_of_head? hfirst
  have hlm := List.mem_of_getLast? hlast
  rcases List.mem_append.mp hc with hc | hc
  · have hlt := hbefore c hc first (List.mem_append_left _ hfm)
    omega
  · rcases List.mem_append.mp hc with hc | hc
    · exact ⟨c, hc, hin⟩
    · have hlt := hbehind last hlm c hc
      omega

/-- No accepted range is longer than a table can be. -/
def SmallTables (w : Nat) (t : Target) : Prop :=
  w ≤ 64 ∨ ∀ n r, t.isSuitableForJumpTable n r = true → r ≤ (2 ^ 64 - 2) / 100

theorem piece_head? {α : Type} (arr : List α) {l : Nat} (h : i ≤ l) :
    (piece arr i l).head? = arr[i]? := by
  rw [piece, List.head?_take, if_neg (by omega), List.head?_drop]

theorem piece_getLast? {α : Type} (arr : List α) {l : Nat} (h : i ≤ l) (hl : l < arr.length) :
    (piece arr i l).getLast? = arr[l]? := by
  rw [piece, List.getLast?_eq_getElem?, List.length_take, List.length_drop, List.getElem?_take,
    if_pos (by omega), List.getElem?_drop]
  congr 1
  omega

theorem gap_lt {t : Target} (ht : SmallTables w t) (hr : Ranges cl) {l : Nat} (hil : i ≤ l)
    (hl : l < cl.length) (hsuit : l = i ∨ suitsJumpTable t cl i l = true) :
    ∀ a ∈ piece cl i l, ∀ b ∈ piece cl i l, b.low.toInt - a.high.toInt < 2 ^ 64 := by
  intro a ha b hb
  have hseg := hr.of_sublist (piece_sublist cl i l)
  have hna := hseg.nonempty a ha
  have hnb := hseg.nonempty b hb
  rcases ht with hw | hrefuse
  · have hlt := toInt_sub_lt a.high b.low
    have hpow : (2 : Int) ^ w ≤ 2 ^ 64 := by exact_mod_cast Nat.pow_le_pow_right (by decide) hw
    omega
  · have hi : i < cl.length := by omega
    have hfirst : (piece cl i l).head? = some cl[i] :=
      (piece_head? cl hil).trans (List.getElem?_eq_getElem hi)
    have hlast : (piece cl i l).getLast? = some cl[l] :=
      (piece_getLast? cl hil hl).trans (List.getElem?_eq_getElem hl)
    have hfst := head_le_of_mem hseg hfirst ha
    have hlst := le_last_of_mem hseg hlast hb
    rcases hsuit with rfl | hsuit
    · have hsize := hr.size cl[l] (List.getElem_mem hl)
      omega
    · have hrange := hrefuse _ _ hsuit
      have hle := low_le_high hseg.sorted hseg.nonempty hfirst hlast
      have hsub := toNat_sub_of_le hle
      rw [getJumpTableRange, highAt, lowAt, List.getElem?_eq_getElem hi,
        List.getElem?_eq_getElem hl] at hrange
      have hlt := lt_of_getLimitedValue hrange
      simp only [Option.elim_some] at hlt
      omega

/-- A range cluster after the first pass is one from before it. -/
def FewCases (cl : List (CaseCluster w)) : Prop :=
  ∀ c ∈ cl, (∃ mbb, c.kind = .CC_Range mbb) → c.high.toInt - c.low.toInt < 2 ^ 32

theorem findJumpTables_means {t : Target} (ht : SmallTables w t) (h : Means f defaultMBB sl cl)
    (hr : Ranges cl) :
    ∃ sl' out, findJumpTables t cl defaultMBB sl = some (sl', out) ∧ Means f defaultMBB sl' out ∧
      FewCases out := by
  have hsame : ∃ sl' out, some (sl, cl) = some (sl', out) ∧ Means f defaultMBB sl' out ∧
      FewCases out := ⟨sl, cl, rfl, h, fun c hc _ => hr.size c hc⟩
  -- what building a table for a partition gives
  have hcovers : ∀ s i l s' c, Extends sl s → i ≤ l → l < cl.length →
      (l = i ∨ suitsJumpTable t cl i l = true) →
      buildJumpTable t defaultMBB s (piece cl i l) = some (s', c) →
      Extends s s' ∧ Covers f s' (piece cl i l) c := fun s i l s' c hext hil hl hsuit hb => by
    refine buildJumpTable_covers (hr.of_sublist (piece_sublist cl i l))
      (gap_lt ht hr hil hl hsuit) (fun r hr' v d hd => ?_) (h.owns hr hil) hb
    have hmem := (piece_sublist cl i l).subset hr'
    exact h.sound r hmem v d (by rw [← hd, dest_mono (h.valid r hmem) hext])
  have hkind : ∀ {s s' : SwitchLowering w} {seg : List (CaseCluster w)} {c : CaseCluster w},
      buildJumpTable t defaultMBB s seg = some (s', c) → ∃ i, c.kind = .CC_JumpTable i :=
    fun {s s' seg c} hb => by
    rw [buildJumpTable] at hb
    split at hb
    · split at hb
      · cases hb
      · obtain ⟨-, rfl⟩ := Prod.mk.inj (Option.some.inj hb)
        exact ⟨_, rfl⟩
    · cases hb
  rw [findJumpTables]
  split
  · exact hsame
  · split
    · exact hsame
    · rename_i hn
      have hwhole : piece cl 0 (cl.length - 1) = cl := by
        rw [piece, List.drop_zero, List.take_of_length_le (by omega)]
      split
      · rename_i s' c hb
        split at hb
        · rename_i hsuit
          rw [← hwhole] at hb
          obtain ⟨hext, hcov⟩ := hcovers sl 0 _ s' c (.refl sl) (Nat.zero_le _) (by omega)
            (.inr hsuit) hb
          rw [hwhole] at hcov
          refine ⟨s', [c], rfl, h.of_forall₂ hext (List.flatten_singleton)
            (.cons hcov .nil), fun c' hc' hk => ?_⟩
          obtain ⟨i, hi⟩ := hkind hb
          obtain ⟨mbb, hm⟩ := hk
          rw [List.mem_singleton.mp hc', hi] at hm
          cases hm
        · cases hb
      · split
        · exact hsame
        · have hrun : ∃ s' out segs, compact moveEach cl.length
              ((tablePartitions t cl).map (·.lastElement)) (fun s cs =>
                if t.minimumJumpTableEntries ≤ cs.length then buildJumpTable t defaultMBB s cs
                else none) 0 0 cl sl = some (s', out) ∧ Extends sl s' ∧ segs.flatten = cl ∧
              List.Forall₂ (fun seg c =>
                Covers f s' seg c ∧ (c ∈ seg ∨ ∃ i, c.kind = .CC_JumpTable i)) segs out := by
            refine compact_spec
              (R := fun s seg c => Covers f s seg c ∧ (c ∈ seg ∨ ∃ i, c.kind = .CC_JumpTable i))
              (fun arr dst first len h₁ h₂ => moveEach_eq h₁ h₂) Extends.refl
              (fun _ _ _ => Extends.trans) (fun _ _ _ _ hx hc => ⟨hc.1.mono hx, hc.2⟩)
              (fun i hi => ?_)
              (fun s hx c hc => ⟨h.covers_self hx hc, .inl (List.mem_singleton_self c)⟩)
              (fun s i l s' c hi hx hl hb => ?_)
            · obtain ⟨l, h₁, h₂, h₃, _⟩ := tablePartitions_spec t hi
              exact ⟨l, h₁, h₂, h₃⟩
            · split at hb
              · obtain ⟨l', h₁, h₂, h₃, h₄⟩ := tablePartitions_spec t hi
                obtain rfl := Option.some.inj (hl.symm.trans h₁)
                obtain ⟨he, hc⟩ := hcovers s i l s' c hx h₂ h₃ h₄ hb
                exact ⟨he, hc, .inr (hkind hb)⟩
              · cases hb
          obtain ⟨s', out, segs, hrun, hext, hflat, hcov⟩ := hrun
          refine ⟨s', out, hrun, h.of_forall₂ hext hflat (hcov.imp fun _ _ hc => hc.1), ?_⟩
          rintro c hc ⟨mbb, hm⟩
          obtain ⟨seg, hseg, hcc⟩ := (exists_of_forall₂ hcov).1 c hc
          rcases hcc.2 with hin | ⟨i, hi⟩
          · exact hr.size c (hflat ▸ List.mem_flatten_of_mem hseg hin)
          · rw [hm] at hi
            cases hi

theorem bitPartitions_spec (t : Target) {clusters : List (CaseCluster w)}
    (hi : i < clusters.length) : ∃ l,
      ((bitPartitions t clusters).map (·.lastElement))[i]? = some l ∧ i ≤ l ∧
        l < clusters.length ∧ (l = i ∨ BitsOk t clusters i l) :=
  lastElement_spec (by omega) (BitsOk t clusters) (fun i rest best hi' hb => by
    rcases searchBits_spec t clusters i rest (min (clusters.length - 1 - i) (t.pointerBits - 1))
      best with h | ⟨j, h₁, h₂, h₃, h₄⟩
    · exact .inl (h.trans hb)
    · dsimp only
      rw [h₄]
      exact .inr ⟨h₁, by omega, h₃⟩) hi

theorem kind_of_rangesOnly (h : rangesOnly cs = true) :
    ∀ c ∈ cs, ∃ mbb, c.kind = .CC_Range mbb := by
  intro c hc
  have hk := List.all_eq_true.mp h c hc
  split at hk
  · rename_i mbb hm
    exact ⟨mbb, hm⟩
  · cases hk

theorem findBitTestClusters_means {t : Target} (h : Means f defaultMBB sl cl) (hfew : FewCases cl) :
    ∃ sl' out, findBitTestClusters t cl sl = some (sl', out) ∧ Means f defaultMBB sl' out := by
  rw [findBitTestClusters]
  split
  · exact ⟨sl, cl, rfl, h⟩
  · split
    · exact ⟨sl, cl, rfl, h⟩
    · have hrun : ∃ s' out segs, compact moveDown cl.length
          ((bitPartitions t cl).map (·.lastElement)) (buildBitTests t) 0 0 cl sl = some (s', out) ∧
          Extends sl s' ∧ segs.flatten = cl ∧ List.Forall₂ (Covers f s') segs out := by
        refine compact_spec (R := fun s seg c => Covers f s seg c)
          (fun arr dst first len _ _ => rfl) Extends.refl (fun _ _ _ => Extends.trans)
          (fun _ _ _ _ hx hc => hc.mono hx) (fun i hi => ?_)
          (fun s hx c hc => h.covers_self hx hc) (fun s i l s' c hi hx hl hb => ?_)
        · obtain ⟨l, h₁, h₂, h₃, _⟩ := bitPartitions_spec t hi
          exact ⟨l, h₁, h₂, h₃⟩
        · obtain ⟨l', h₁, h₂, h₃, h₄⟩ := bitPartitions_spec t hi
          obtain rfl := Option.some.inj (hl.symm.trans h₁)
          have hsub := piece_sublist cl i l
          rcases h₄ with rfl | hok
          · -- a partition of one is left alone
            have hone : (piece cl l l).length = 1 := by
              rw [piece, List.length_take, List.length_drop]
              omega
            rw [buildBitTests] at hb
            split at hb
            · rw [if_pos hone] at hb
              cases hb
            · cases hb
          · have hk := kind_of_rangesOnly hok.2
            exact buildBitTests_covers ⟨hk, fun r hr => h.nonempty r (hsub.subset hr),
              h.sorted.sublist hsub, fun r hr => hfew r (hsub.subset hr) (hk r hr)⟩
              (fun r hr v d hd => h.sound r (hsub.subset hr) v d (by
                rw [← hd, dest_mono (h.valid r (hsub.subset hr)) hx])) hb
      obtain ⟨s', out, segs, hrun, hext, hflat, hcov⟩ := hrun
      exact ⟨s', out, hrun, h.of_forall₂ hext hflat hcov⟩

end RvLlvm.CodeGen.Switch
