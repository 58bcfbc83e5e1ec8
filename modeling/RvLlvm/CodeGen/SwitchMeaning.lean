import RvLlvm.CodeGen.SwitchClusters

/-!
# The whole switch

From the cases to the clusters: sorted and merged ranges first, then the two passes over them.

Results:
* `sortAndRangeify_ranges`: the merged ranges are in order and take exactly the case values.
* `switchClusters_means`: the clusters are sorted and disjoint, and in whatever order they are
  tested every value goes where the switch sends it.
* `not_means_wide`: the tables of wider switches, when the target accepts a range that no table
  holds.
-/

namespace RvLlvm.CodeGen.Switch

open Support

variable {w : Nat}

/-! ## `sortAndRangeify` -/

/-- The ranges made of the cases so far. -/
structure Merged (out pre : List (CaseCluster w)) : Prop where
  kind : ∀ c ∈ out, ∃ mbb, c.kind = .CC_Range mbb
  nonempty : ∀ c ∈ out, c.low.toInt ≤ c.high.toInt
  sorted : out.Pairwise fun a b => a.high.toInt < b.low.toInt
  size : ∀ c ∈ out, c.high.toInt - c.low.toInt < pre.length
  last : ∀ c ∈ out, ∃ p ∈ pre, c.high = p.low
  takes : ∀ (v : BitVec w) k, (∃ c ∈ out, c.kind = k ∧ c.low.toInt ≤ v.toInt ∧
    v.toInt ≤ c.high.toInt) ↔ ∃ p ∈ pre, p.kind = k ∧ p.low = v

/-- A case of its own. -/
structure SingleCase (c : CaseCluster w) : Prop where
  kind : ∃ mbb, c.kind = .CC_Range mbb
  eq : c.low = c.high

theorem Merged.append {out pre : List (CaseCluster w)} (h : Merged out pre) {cc : CaseCluster w}
    (hcc : SingleCase cc) (hlt : ∀ p ∈ pre, p.low.toInt < cc.low.toInt) :
    Merged (out ++ [cc]) (pre ++ [cc]) where
  kind := List.forall_mem_append.mpr ⟨h.kind, List.forall_mem_singleton.mpr hcc.kind⟩
  nonempty := List.forall_mem_append.mpr
    ⟨h.nonempty, List.forall_mem_singleton.mpr (by rw [hcc.eq])⟩
  sorted := List.pairwise_append.mpr ⟨h.sorted, List.pairwise_singleton _ _, fun a ha b hb => by
    obtain ⟨p, hp, heq⟩ := h.last a ha
    rw [List.mem_singleton.mp hb, heq]
    exact hlt p hp⟩
  size := fun c hc => by
    rw [List.length_append, List.length_singleton]
    rcases List.mem_append.mp hc with hc | hc
    · have hs := h.size c hc
      omega
    · rw [List.mem_singleton.mp hc, hcc.eq]
      omega
  last := fun c hc => by
    rcases List.mem_append.mp hc with hc | hc
    · obtain ⟨p, hp, heq⟩ := h.last c hc
      exact ⟨p, List.mem_append_left _ hp, heq⟩
    · rw [List.mem_singleton.mp hc]
      exact ⟨cc, List.mem_append_right _ (List.mem_singleton_self cc), hcc.eq.symm⟩
  takes := fun v k => by
    have hone : (cc.low.toInt ≤ v.toInt ∧ v.toInt ≤ cc.high.toInt) ↔ cc.low = v := by
      rw [← hcc.eq, ← BitVec.toInt_inj]
      exact ⟨fun hv => Int.le_antisymm hv.1 hv.2, fun hv => by omega⟩
    have hold := h.takes v k
    constructor
    · rintro ⟨c, hc, hk, hv⟩
      rcases List.mem_append.mp hc with hc | hc
      · obtain ⟨p, hp, hpk⟩ := hold.mp ⟨c, hc, hk, hv⟩
        exact ⟨p, List.mem_append_left _ hp, hpk⟩
      · rw [List.mem_singleton.mp hc] at hk hv
        exact ⟨cc, List.mem_append_right _ (List.mem_singleton_self cc), hk, hone.mp hv⟩
    · rintro ⟨p, hp, hk, hv⟩
      rcases List.mem_append.mp hp with hp | hp
      · obtain ⟨c, hc, hck⟩ := hold.mpr ⟨p, hp, hk, hv⟩
        exact ⟨c, List.mem_append_left _ hc, hck⟩
      · rw [List.mem_singleton.mp hp] at hk hv
        exact ⟨cc, List.mem_append_right _ (List.mem_singleton_self cc), hk, hone.mpr hv⟩

theorem Merged.extend {init pre : List (CaseCluster w)} {prev cc : CaseCluster w}
    (h : Merged (init ++ [prev]) pre) (hkind : prev.kind = cc.kind)
    (hnext : cc.low.toInt = prev.high.toInt + 1) (prob : Nat) :
    Merged (init ++ [{ prev with high := cc.low, prob := prob }]) (pre ++ [cc]) := by
  have hprev : prev ∈ init ++ [prev] := List.mem_append_right _ (List.mem_singleton_self prev)
  have hne := h.nonempty prev hprev
  have hsize := h.size prev hprev
  refine ⟨?_, ?_, ?_, ?_, ?_, fun v k => ?_⟩
  · exact List.forall_mem_append.mpr ⟨fun c hc => h.kind c (List.mem_append_left _ hc),
      List.forall_mem_singleton.mpr (h.kind prev hprev)⟩
  · refine List.forall_mem_append.mpr ⟨fun c hc => h.nonempty c (List.mem_append_left _ hc),
      List.forall_mem_singleton.mpr ?_⟩
    show prev.low.toInt ≤ cc.low.toInt
    omega
  · obtain ⟨hinit, _, hacross⟩ := List.pairwise_append.mp h.sorted
    refine List.pairwise_append.mpr ⟨hinit, List.pairwise_singleton _ _, fun a ha b hb => ?_⟩
    rw [List.mem_singleton.mp hb]
    exact hacross a ha prev (List.mem_singleton_self prev)
  · intro c hc
    rw [List.length_append, List.length_singleton]
    rcases List.mem_append.mp hc with hc | hc
    · have hs := h.size c (List.mem_append_left _ hc)
      omega
    · rw [List.mem_singleton.mp hc]
      show cc.low.toInt - prev.low.toInt < _
      omega
  · intro c hc
    rcases List.mem_append.mp hc with hc | hc
    · obtain ⟨p, hp, heq⟩ := h.last c (List.mem_append_left _ hc)
      exact ⟨p, List.mem_append_left _ hp, heq⟩
    · rw [List.mem_singleton.mp hc]
      exact ⟨cc, List.mem_append_right _ (List.mem_singleton_self cc), rfl⟩
  · have hold := h.takes v k
    constructor
    · rintro ⟨c, hc, hk, hv⟩
      rcases List.mem_append.mp hc with hc | hc
      · obtain ⟨p, hp, hpk⟩ := hold.mp ⟨c, List.mem_append_left _ hc, hk, hv⟩
        exact ⟨p, List.mem_append_left _ hp, hpk⟩
      · rw [List.mem_singleton.mp hc] at hk hv
        by_cases hin : v.toInt ≤ prev.high.toInt
        · obtain ⟨p, hp, hpk⟩ := hold.mp ⟨prev, hprev, hk, hv.1, hin⟩
          exact ⟨p, List.mem_append_left _ hp, hpk⟩
        · have hv₂ : v.toInt ≤ cc.low.toInt := hv.2
          refine ⟨cc, List.mem_append_right _ (List.mem_singleton_self cc), hkind ▸ hk, ?_⟩
          exact BitVec.toInt_inj.mp (by omega)
    · rintro ⟨p, hp, hk, hv⟩
      rcases List.mem_append.mp hp with hp | hp
      · obtain ⟨c, hc, hck, hcv⟩ := hold.mpr ⟨p, hp, hk, hv⟩
        rcases List.mem_append.mp hc with hc | hc
        · exact ⟨c, List.mem_append_left _ hc, hck, hcv⟩
        · rw [List.mem_singleton.mp hc] at hck hcv
          refine ⟨_, List.mem_append_right _ (List.mem_singleton_self _), hck, hcv.1, ?_⟩
          show v.toInt ≤ cc.low.toInt
          omega
      · rw [List.mem_singleton.mp hp] at hk hv
        refine ⟨_, List.mem_append_right _ (List.mem_singleton_self _), hkind.trans hk, ?_, ?_⟩
        · show prev.low.toInt ≤ v.toInt
          rw [← hv]
          omega
        · show v.toInt ≤ cc.low.toInt
          rw [hv]

/-- The cases in order. -/
structure SortedCases (cs : List (CaseCluster w)) : Prop where
  single : ∀ c ∈ cs, SingleCase c
  sorted : cs.Pairwise fun a b => a.low.toInt < b.low.toInt

/-- The loop: what is written is behind what is read. -/
theorem rangeify_run {sorted : List (CaseCluster w)} (h : SortedCases sorted) {k : Nat}
    (hk : k ≤ sorted.length) :
    let s := (List.range k).foldl rangeifyStep (sorted, 0)
    s.2 ≤ k ∧ s.1.length = sorted.length ∧ s.1.drop k = sorted.drop k ∧
      Merged (s.1.take s.2) (sorted.take k) := by
  induction k with
  | zero =>
    refine ⟨Nat.le_refl 0, rfl, rfl, List.forall_mem_nil _, List.forall_mem_nil _, .nil,
      List.forall_mem_nil _, List.forall_mem_nil _, fun v k => ?_⟩
    constructor <;> rintro ⟨c, hc, _⟩ <;> cases hc
  | succ k ih =>
    obtain ⟨hdst, hlen, hdrop, hmerged⟩ := ih (by omega)
    rw [List.range_succ, List.foldl_append, List.foldl_cons, List.foldl_nil]
    generalize (List.range k).foldl rangeifyStep (sorted, 0) = s at hdst hlen hdrop hmerged ⊢
    obtain ⟨arr, dst⟩ := s
    simp only at hdst hlen hdrop hmerged
    have hget : arr[k]? = some sorted[k] := by
      have hhead := congrArg (fun l => l[0]?) hdrop
      simp only [List.getElem?_drop, Nat.add_zero] at hhead
      rw [hhead, List.getElem?_eq_getElem (by omega)]
    have hcc := h.single _ (List.getElem_mem (show k < sorted.length by omega))
    have htake : sorted.take (k + 1) = sorted.take k ++ [sorted[k]] :=
      List.take_succ_eq_append_getElem (by omega)
    have hbelow : ∀ p ∈ sorted.take k, p.low.toInt < sorted[k].low.toInt := fun p hp => by
      have hpair := h.sorted
      rw [← List.take_append_drop (k + 1) sorted, htake] at hpair
      exact (List.pairwise_append.mp (List.pairwise_append.mp hpair).1).2.2 p hp _
        (List.mem_singleton_self _)
    have hdropk : arr.drop (k + 1) = sorted.drop (k + 1) := by
      rw [← List.drop_drop, hdrop, List.drop_drop]
    have happend : dst + 1 ≤ k + 1 ∧ (arr.set dst sorted[k]).length = sorted.length ∧
        (arr.set dst sorted[k]).drop (k + 1) = sorted.drop (k + 1) ∧
        Merged ((arr.set dst sorted[k]).take (dst + 1)) (sorted.take (k + 1)) := by
      refine ⟨by omega, by rw [List.length_set, hlen], ?_, ?_⟩
      · rw [List.drop_set_of_lt (by omega), hdropk]
      · rw [take_succ_set (by omega), htake]
        exact hmerged.append hcc hbelow
    rw [rangeifyStep]
    simp only [hget]
    split
    · rename_i prev hprev
      split at hprev
      · cases hprev
      · rename_i hpos
        have hout : arr.take dst = arr.take (dst - 1) ++ [prev] := by
          conv => lhs; rw [← Nat.sub_add_cancel (Nat.pos_of_ne_zero hpos)]
          rw [List.take_add_one, hprev]
          rfl
        split
        · rename_i hcond
          refine ⟨by simp only; omega, by simp only [List.length_set, hlen], ?_, ?_⟩
          · simp only
            rw [List.drop_set_of_lt (by omega), hdropk]
          · simp only
            have hset := take_succ_set (i := dst - 1)
              (c := { prev with high := sorted[k].low, prob := addProb prev.prob sorted[k].prob })
              (show dst - 1 < arr.length by omega)
            rw [Nat.sub_add_cancel (Nat.pos_of_ne_zero hpos)] at hset
            rw [hset, htake]
            rw [hout] at hmerged
            refine hmerged.extend hcond.1 ?_ _
            obtain ⟨p, hp, heq⟩ := hmerged.last prev
              (List.mem_append_right _ (List.mem_singleton_self prev))
            have hlt := hbelow p hp
            rw [← heq] at hlt
            have hsub := toNat_sub_of_le hlt.le
            have hone : (1 : BitVec w).toNat ≤ 1 := Nat.mod_le 1 _
            rw [hcond.2] at hsub
            omega
        · exact happend
    · exact happend

theorem sortedCases_mergeSort {cs : List (CaseCluster w)} (hsingle : ∀ c ∈ cs, SingleCase c)
    (hnodup : (cs.map CaseCluster.low).Nodup) :
    SortedCases (cs.mergeSort fun a b => decide (a.low.toInt ≤ b.low.toInt)) := by
  have hperm := List.mergeSort_perm cs fun a b => decide (a.low.toInt ≤ b.low.toInt)
  refine ⟨fun c hc => hsingle c (hperm.mem_iff.mp hc), ?_⟩
  have hle : (cs.mergeSort fun a b => decide (a.low.toInt ≤ b.low.toInt)).Pairwise fun a b =>
      decide (a.low.toInt ≤ b.low.toInt) = true := List.pairwise_mergeSort
    (fun a b c hab hbc => by simp only [decide_eq_true_eq] at *; omega)
    (fun a b => by simp only [Bool.or_eq_true, decide_eq_true_eq]; omega) cs
  have hne := List.pairwise_map.mp ((hperm.map CaseCluster.low).nodup_iff.mpr hnodup)
  refine (hle.and hne).imp fun {a b} h => ?_
  have hab := of_decide_eq_true h.1
  have hneq : a.low.toInt ≠ b.low.toInt := fun heq => h.2 (BitVec.toInt_inj.mp heq)
  omega

section
variable (si : SwitchInst w)

def SwitchInst.clusters : List (CaseCluster w) :=
  si.cases.map fun c => ⟨.CC_Range c.2.1, c.1, c.1, c.2.2⟩

theorem SwitchInst.sortedCases : SortedCases
    (si.clusters.mergeSort fun a b => decide (a.low.toInt ≤ b.low.toInt)) := by
  refine sortedCases_mergeSort (fun c hc => ?_) ?_
  · obtain ⟨x, _, rfl⟩ := List.mem_map.mp hc
    exact ⟨⟨_, rfl⟩, rfl⟩
  · rw [SwitchInst.clusters, List.map_map]
    exact si.nodup

theorem SwitchInst.merged :
    Merged (sortAndRangeify si.clusters)
      (si.clusters.mergeSort fun a b => decide (a.low.toInt ≤ b.low.toInt)) := by
  have hrun := (rangeify_run si.sortedCases (Nat.le_refl _)).2.2.2
  rwa [List.take_length] at hrun

theorem SwitchInst.dest_of_mem {x : BitVec w × Nat × Nat} (hx : x ∈ si.cases) :
    si.dest x.1 = x.2.1 := by
  rw [SwitchInst.dest]
  cases hfind : si.cases.find? fun c => decide (c.1 = x.1) with
  | none => exact absurd (decide_eq_true rfl) (List.find?_eq_none.mp hfind x hx)
  | some y =>
    have hkey : y.1 = x.1 := by simpa using List.find?_some hfind
    have heq := List.inj_on_of_nodup_map si.nodup (List.mem_of_find?_eq_some hfind) hx hkey
    rw [heq]
    rfl

/-- Where a case sends its value. -/
theorem SwitchInst.mem_clusters {v : BitVec w} {mbb : Nat}
    (h : ∃ p ∈ si.clusters, p.kind = .CC_Range mbb ∧ p.low = v) : si.dest v = mbb := by
  obtain ⟨p, hp, hk, hv⟩ := h
  obtain ⟨x, hx, rfl⟩ := List.mem_map.mp hp
  rw [← hv]
  exact (si.dest_of_mem hx).trans (CaseClusterKind.CC_Range.inj hk)

theorem SwitchInst.takes (v : BitVec w) (mbb : Nat) :
    (∃ c ∈ sortAndRangeify si.clusters, c.kind = .CC_Range mbb ∧ c.low.toInt ≤ v.toInt ∧
      v.toInt ≤ c.high.toInt) ↔ ∃ p ∈ si.clusters, p.kind = .CC_Range mbb ∧ p.low = v := by
  have h := si.merged.takes v (.CC_Range mbb)
  simp only [List.mem_mergeSort] at h
  exact h

/-- **The merged ranges are in order and take exactly the case values.** -/
theorem SwitchInst.ranges (sl : SwitchLowering w) :
    Ranges (sortAndRangeify si.clusters) ∧
      Means si.dest si.defaultMBB sl (sortAndRangeify si.clusters) := by
  have h := si.merged
  have hlen : (si.clusters.mergeSort fun a b => decide (a.low.toInt ≤ b.low.toInt)).length < 2 ^ 32 := by
    rw [List.length_mergeSort, SwitchInst.clusters, List.length_map]
    exact si.numCases
  refine ⟨⟨h.kind, h.nonempty, h.sorted, fun c hc => ?_⟩,
    ⟨h.sorted, h.nonempty, fun c hc => ?_, fun c hc v d hd => ?_, fun v hv => ?_⟩⟩
  · have hs := h.size c hc
    omega
  · obtain ⟨mbb, hk⟩ := h.kind c hc
    rw [Valid, hk]
    trivial
  · obtain ⟨mbb, hk⟩ := h.kind c hc
    rw [CaseCluster.dest, hk] at hd
    simp only at hd
    split at hd
    · rename_i hin
      obtain rfl := Option.some.inj hd
      exact (si.mem_clusters ((si.takes v mbb).mp ⟨c, hc, hk, hin⟩)).symm
    · cases hd
  · rw [SwitchInst.dest] at hv
    cases hfind : si.cases.find? fun c => decide (c.1 = v) with
    | none => exact absurd (by rw [hfind]; rfl) hv
    | some x =>
      have hkey : x.1 = v := by simpa using List.find?_some hfind
      obtain ⟨c, hc, hk, hin⟩ := (si.takes v x.2.1).mpr
        ⟨_, List.mem_map.mpr ⟨x, List.mem_of_find?_eq_some hfind, rfl⟩, rfl, hkey⟩
      refine ⟨c, hc, x.2.1, ?_⟩
      rw [CaseCluster.dest, hk]
      exact if_pos hin

end

/-! ## The clusters -/

/-- **The clusters are sorted and disjoint and send every value where the switch does**, in whatever
order they are tested. -/
theorem switchClusters_means (t : Target) (si : SwitchInst w) (ht : SmallTables w t) :
    ∃ sl cl, switchClusters t si = some (sl, cl) ∧
      (cl.Pairwise fun a b => a.high.toInt < b.low.toInt) ∧
      (∀ c ∈ cl, c.low.toInt ≤ c.high.toInt) ∧
      ∀ cl', cl'.Perm cl → ∀ v, select sl cl' si.defaultMBB v = si.dest v := by
  obtain ⟨hranges, hmeans⟩ := si.ranges ⟨[], []⟩
  suffices hall : ∃ sl cl, switchClusters t si = some (sl, cl) ∧
      Means si.dest si.defaultMBB sl cl by
    obtain ⟨sl, cl, hrun, h⟩ := hall
    exact ⟨sl, cl, hrun, h.sorted, h.nonempty, fun cl' hperm v => h.select_eq hperm v⟩
  rw [switchClusters]
  dsimp only
  rw [← SwitchInst.clusters]
  split
  · rename_i hnil
    exact ⟨_, [], rfl, hnil ▸ hmeans⟩
  · obtain ⟨sl, cl, hrun, hm, hfew⟩ := findJumpTables_means ht hmeans hranges
    obtain ⟨sl', cl', hrun', hm'⟩ := findBitTestClusters_means (t := t) hm hfew
    exact ⟨sl', cl', by rw [hrun]; exact hrun', hm'⟩

/-- Two cases of one destination and a gap that fits a mask. -/
def smallSwitch : SwitchInst 8 where
  cases := [(5, 1, 0), (250, 2, 0), (6, 1, 0)]
  nodup := by decide
  numCases := by decide
  defaultMBB := 0

def anyTarget : Target where
  areJTsAllowed := true
  minimumJumpTableEntries := 2
  isSuitableForJumpTable := fun _ _ => true
  optNone := true
  shlLegal := true
  pointerBits := 64
  indexBits := 64
  pointerBits_le := Nat.le_refl 64
  indexBits_le := Nat.le_refl 64

theorem switchClusters_means_small : ∃ sl cl, switchClusters anyTarget smallSwitch = some (sl, cl) ∧
    (cl.Pairwise fun a b => a.high.toInt < b.low.toInt) ∧ (∀ c ∈ cl, c.low.toInt ≤ c.high.toInt) ∧
    ∀ cl', cl'.Perm cl → ∀ v, select sl cl' 0 v = smallSwitch.dest v :=
  switchClusters_means anyTarget smallSwitch (.inl (by decide))

/-! ## Wider switches -/

theorem switchClusters_eq (t : Target) (si : SwitchInst w) : switchClusters t si =
    if sortAndRangeify si.clusters = [] then some (⟨[], []⟩, [])
    else (findJumpTables t (sortAndRangeify si.clusters) si.defaultMBB ⟨[], []⟩).bind
      fun (sl, clusters) => findBitTestClusters t clusters sl := rfl

/-- Two cases with more than `2 ^ 64` values between them. -/
def wideSwitch : SwitchInst 128 where
  cases := [(0, 1, 0), (0x20000000000000000, 2, 0)]
  nodup := by decide
  numCases := by decide
  defaultMBB := 0

theorem length_wideTable : (tableOf 0 wideSwitch.clusters).length = 2 ^ 64 := by
  simp only [SwitchInst.clusters, wideSwitch, List.map_cons, List.map_nil, tableOf,
    List.length_append, List.length_replicate]
  decide

theorem sortAndRangeify_wide : sortAndRangeify wideSwitch.clusters = wideSwitch.clusters := by
  have hsorted : wideSwitch.clusters.mergeSort (fun a b => decide (a.low.toInt ≤ b.low.toInt)) =
      wideSwitch.clusters := List.mergeSort_of_pairwise (by decide)
  rw [sortAndRangeify, hsorted]
  decide

theorem dest_wide (table : List Nat) :
    CaseCluster.dest (w := 128) ⟨[⟨0, 0x20000000000000000, table⟩], []⟩
      ⟨.CC_JumpTable 0, 0, 0x20000000000000000, 0⟩ 0x20000000000000000 = table[2 ^ 65]? := by
  have hidx : ((0x20000000000000000 : BitVec 128) - 0).toNat = 2 ^ 65 := by decide
  simp only [CaseCluster.dest, List.getElem?_cons_zero, Option.bind_some, hidx, Nat.le_refl, if_true]

theorem buildJumpTable_wide : buildJumpTable anyTarget 0 ⟨[], []⟩ wideSwitch.clusters =
    some (⟨[⟨0, 0x20000000000000000, tableOf 0 wideSwitch.clusters⟩], []⟩,
      ⟨.CC_JumpTable 0, 0, 0x20000000000000000, 0⟩) := by
  have hhead : wideSwitch.clusters.head? = some ⟨.CC_Range 1, 0, 0, 0⟩ := rfl
  have hlast : wideSwitch.clusters.getLast? =
      some ⟨.CC_Range 2, 0x20000000000000000, 0x20000000000000000, 0⟩ := rfl
  have hsuit : ¬isSuitableForBitTests anyTarget (numDests wideSwitch.clusters)
      (numCmps wideSwitch.clusters) (0 : BitVec 128) 0x20000000000000000 := by
    rintro ⟨hfits, -⟩
    exact absurd hfits (by decide)
  have hprob : totalProb wideSwitch.clusters = 0 := by decide
  rw [buildJumpTable, hhead, hlast]
  dsimp only
  rw [if_neg hsuit, hprob]
  rfl

theorem switchClusters_wide : switchClusters anyTarget wideSwitch =
    some (⟨[⟨0, 0x20000000000000000, tableOf 0 wideSwitch.clusters⟩], []⟩,
      [⟨.CC_JumpTable 0, 0, 0x20000000000000000, 0⟩]) := by
  have hne : wideSwitch.clusters ≠ [] := List.cons_ne_nil _ _
  have hjt : findJumpTables anyTarget wideSwitch.clusters 0 ⟨[], []⟩ =
      some (⟨[⟨0, 0x20000000000000000, tableOf 0 wideSwitch.clusters⟩], []⟩,
        [⟨.CC_JumpTable 0, 0, 0x20000000000000000, 0⟩]) := by
    have hjts : ¬¬anyTarget.areJTsAllowed = true := not_not.mpr rfl
    have hsuit : suitsJumpTable anyTarget wideSwitch.clusters 0 (wideSwitch.clusters.length - 1) =
        true := rfl
    rw [findJumpTables, if_neg hjts, if_neg (by decide), if_pos hsuit, buildJumpTable_wide]
  have hbits : ∀ cl (sl : SwitchLowering 128), findBitTestClusters anyTarget cl sl = some (sl, cl) :=
    fun cl sl => if_pos rfl
  rw [switchClusters_eq, sortAndRangeify_wide, if_neg hne,
    show wideSwitch.defaultMBB = 0 from rfl, hjt, Option.bind_some]
  exact hbits _ _

theorem select_wide {table : List Nat} (hnone : table[2 ^ 65]? = none) :
    select (w := 128) ⟨[⟨0, 0x20000000000000000, table⟩], []⟩
      [⟨.CC_JumpTable 0, 0, 0x20000000000000000, 0⟩] 0 0x20000000000000000 = 0 := by
  rw [select, List.findSome?_cons, dest_wide, hnone]
  rfl

theorem wideSwitch_dest : wideSwitch.dest 0x20000000000000000 = 2 := by
  have hcase : ((0x20000000000000000 : BitVec 128), 2, 0) ∈ wideSwitch.cases :=
    List.mem_cons_of_mem _ List.mem_cons_self
  exact wideSwitch.dest_of_mem hcase

/-- Nothing asks whether the gap fits a `uint64_t`: the entry of `2 ^ 65` is not where it is
read. -/
theorem not_means_wide : ¬∃ sl cl, switchClusters anyTarget wideSwitch = some (sl, cl) ∧
    ∀ v, select sl cl 0 v = wideSwitch.dest v := by
  rintro ⟨sl, cl, hrun, hall⟩
  have hnone : (tableOf 0 wideSwitch.clusters)[2 ^ 65]? = none :=
    List.getElem?_eq_none (by rw [length_wideTable]; exact Nat.pow_le_pow_right (by decide) (by decide))
  rw [switchClusters_wide] at hrun
  generalize tableOf 0 wideSwitch.clusters = table at hrun hnone
  obtain ⟨hsl, hcl⟩ := Prod.mk.inj (Option.some.inj hrun)
  subst hsl hcl
  have hv := hall 0x20000000000000000
  rw [select_wide hnone, wideSwitch_dest] at hv
  cases hv

end RvLlvm.CodeGen.Switch
