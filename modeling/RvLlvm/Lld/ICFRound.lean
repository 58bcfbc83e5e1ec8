import RvLlvm.Lld.ICF

/-!
# The rounds of folding

What a round does to the groups of the vector, whether it reads the classes that it writes or not.

* `Refined`: the groups after a round, against those before it.
* `segregate_spec`, `forEachClassRange_spec`: for one group and for a range of groups.
-/

namespace RvLlvm.Lld.ICF

open RvLlvm.Support

/-! ## Relations that the splitting keeps -/

/-- Classes that are the same for related sections; a section outside keeps its own. -/
structure Admissible (V : List Nat) (ext : Nat → Nat) (r : Nat → Nat → Prop) (κ : Nat → Nat) : Prop where
  nonzero : ∀ x ∈ V, κ x ≠ 0
  outside : ∀ x ∉ V, κ x = ext x
  respects : ∀ x y, r x y → κ x = κ y

/-- Related sections are in the same groups, and no comparison there tells them apart. -/
def Indistinct (equal : (Nat → Nat) → Nat → Nat → Bool) (V : List Nat) (ext : Nat → Nat)
    (r : Nat → Nat → Prop) (gs : List (List Nat)) : Prop :=
  ∀ x y, r x y → ∀ g ∈ gs, (x ∈ g ↔ y ∈ g) ∧
    (x ∈ g → ∀ p ∈ g, ∀ κ, Admissible V ext r κ → equal κ p x = equal κ p y)

/-- The groups after a round that has read `κ` and left `κ'`. -/
structure Refined (P : Pass) (V : List Nat) (ext : Nat → Nat) (κ κ' : Nat → Nat) (b : Nat)
    (gs gs' : List (List Nat)) : Prop where
  perm : gs'.flatten.Perm gs.flatten
  labelled : Labelled κ' b gs'
  subset : ∀ h ∈ gs', ∃ g ∈ gs, h ⊆ g
  length_le : gs.length ≤ gs'.length
  still : P.current ≠ P.next ∨ Labelled κ b gs → gs'.length = gs.length →
    gs' = gs ∧ ∀ g ∈ gs, ∃ p ∈ g, ∀ x ∈ g, P.equal κ p x = true
  closed : ∀ r, Indistinct P.equal V ext r gs → Admissible V ext r κ →
    ∀ x y, r x y → ∀ h ∈ gs', x ∈ h ↔ y ∈ h
  const : ∀ E, (∀ κ, P.equal κ = E) → gs' = gs.flatMap (splits E)

namespace Pass

variable {P : Pass} {V : List Nat} {ext : Nat → Nat}

theorem segregate_nil (start : Nat) (σ : Classes) : P.segregate start [] σ = ([], σ) := by
  rw [segregate]

theorem forEachClassRange_nil (start : Nat) (σ : Classes) :
    P.forEachClassRange start [] σ = ([], σ) := by
  rw [forEachClassRange]

/-- Only the sections of the group change, and only in the slot that is written. -/
theorem segregate_frame (start : Nat) (g : List Nat) (σ : Classes) {i x : Nat}
    (h : i ≠ P.next ∨ x ∉ g) : (P.segregate start g σ).2.slot i x = σ.slot i x := by
  induction hn : g.length using Nat.strong_induction_on generalizing start g σ with
  | _ n ih =>
    cases g with
    | nil => rw [segregate_nil]
    | cons pivot rest =>
      rw [segregate]
      have hlt : (rest.filter fun s => !P.equal (σ.slot P.current) pivot s).length < n := by
        rw [← hn]
        exact Nat.lt_succ_of_le (List.length_filter_le _ _)
      have hothers : i ≠ P.next ∨ x ∉ rest.filter fun s => !P.equal (σ.slot P.current) pivot s :=
        h.imp_right fun hx hmem => hx (List.mem_cons_of_mem _ (List.mem_filter.mp hmem).1)
      refine (ih _ hlt _ _ _ hothers rfl).trans ?_
      refine if_neg fun hset => ?_
      rcases h with hi | hx
      · exact hi hset.1
      · refine hx ?_
        rcases List.mem_cons.mp hset.2 with rfl | hmem
        · exact List.mem_cons_self
        · exact List.mem_cons_of_mem _ (List.mem_filter.mp hmem).1

theorem set_slot (σ : Classes) (next c : Nat) (ids : List Nat) (again : Bool) (i x : Nat) :
    (σ.set next ids c again).slot i x = if i = next ∧ x ∈ ids then c else σ.slot i x := rfl

/-- Classes stay admissible when a whole set of related sections gets a new one. -/
theorem admissible_set {r : Nat → Nat → Prop} {σ : Classes} {i next c : Nat} {ids : List Nat}
    {again : Bool} (h : Admissible V ext r (σ.slot i)) (hV : ids ⊆ V) (hc : c ≠ 0)
    (hids : ∀ x y, r x y → (x ∈ ids ↔ y ∈ ids)) :
    Admissible V ext r ((σ.set next ids c again).slot i) := by
  refine ⟨fun x hx => ?_, fun x hx => ?_, fun x y hxy => ?_⟩
  · rw [set_slot]
    split
    · exact hc
    · exact h.nonzero x hx
  · rw [set_slot, if_neg fun hset => hx (hV hset.2)]
    exact h.outside x hx
  · simp only [set_slot, hids x y hxy, h.respects x y hxy]

/-- **One group** is split by its pivots. -/
theorem segregate_spec (ext : Nat → Nat) (hrefl : ∀ κ x, P.equal κ x x = true) (start : Nat)
    {g : List Nat} (hne : g ≠ []) (hV : g ⊆ V) (hnodup : g.Nodup) (hfits : P.base + start + g.length < 2 ^ 32)
    (σ : Classes) :
    ∃ hs, (P.segregate start g σ).1 = hs.flatten ∧
      Refined P V ext (σ.slot P.current) ((P.segregate start g σ).2.slot P.next) (P.base + start) [g] hs ∧
      (P.segregate start g σ).2.again = (σ.again || decide (1 < hs.length)) := by
  induction hn : g.length using Nat.strong_induction_on generalizing start g σ with
  | _ n ih =>
    cases g with
    | nil => exact absurd rfl hne
    | cons pivot rest =>
      have hsegregate := segregate.eq_2 P start σ pivot rest
      set E := P.equal (σ.slot P.current) pivot with hE
      set same := pivot :: rest.filter E with hsame
      set others := rest.filter fun s => !E s with hothers
      set mid := start + 1 + (rest.filter E).length with hmid
      set σ' := σ.set P.next same ((P.base + mid) % 2 ^ 32) (decide (others ≠ [])) with hσ'
      have hlen : (rest.filter E).length + others.length = rest.length := by
        have hperm := (List.filter_append_perm E rest).length_eq
        rwa [List.length_append] at hperm
      rw [List.length_cons] at hfits
      have hmod : (P.base + mid) % 2 ^ 32 = P.base + mid := Nat.mod_eq_of_lt (by omega)
      have hperm : (same ++ others).Perm (pivot :: rest) :=
        (List.filter_append_perm E rest).cons pivot
      have hnot : ∀ x ∈ same, x ∉ others :=
        List.disjoint_of_nodup_append (hperm.nodup_iff.mpr hnodup)
      have hmem : ∀ x, x ∈ same ↔ x ∈ pivot :: rest ∧ E x = true := by
        intro x
        rw [hsame, List.mem_cons, List.mem_cons, List.mem_filter]
        refine ⟨fun h => ?_, fun h => h.1.imp_right fun hx => ⟨hx, h.2⟩⟩
        rcases h with rfl | h
        · exact ⟨Or.inl rfl, hrefl _ _⟩
        · exact ⟨Or.inr h.1, h.2⟩
      have hlabel : ∀ x ∈ same, σ'.slot P.next x = P.base + start + same.length := by
        intro x hx
        rw [hσ', set_slot, if_pos ⟨rfl, hx⟩, hmod, hsame, List.length_cons]
        omega
      have hsub : ∀ h, h ⊆ pivot :: rest → ∃ g ∈ [pivot :: rest], h ⊆ g := fun h hh =>
        ⟨_, List.mem_singleton_self _, hh⟩
      have hin : ∀ r, Indistinct P.equal V ext r [pivot :: rest] →
          Admissible V ext r (σ.slot P.current) → ∀ x y, r x y → (x ∈ same ↔ y ∈ same) := by
        intro r hr hadm x y hxy
        obtain ⟨hiff, hequal⟩ := hr x y hxy _ (List.mem_singleton_self _)
        rw [hmem, hmem, hiff]
        refine and_congr_right fun hy => ?_
        rw [hE, hequal (hiff.mpr hy) pivot List.mem_cons_self _ hadm]
      by_cases hlast : others = []
      · -- all are like the pivot
        have hall : same = pivot :: rest := by
          have hnil : (rest.filter E).length = rest.length := by
            rw [hlast] at hlen
            exact hlen
          rw [hsame, List.filter_eq_self.mpr (List.length_filter_eq_length_iff.mp hnil)]
        have hresult : P.segregate start (pivot :: rest) σ = (same, σ') := by
          rw [hsegregate, hlast, segregate_nil, List.append_nil]
        rw [hresult]
        refine ⟨[same], (List.append_nil _).symm, ?_, ?_⟩
        · refine ⟨?_, ⟨List.cons_ne_nil _ _, hlabel, trivial⟩, ?_, le_rfl, ?_, ?_, ?_⟩
          · rw [hall]
          · intro h hh
            rw [List.mem_singleton.mp hh, hall]
            exact hsub _ (List.Subset.refl _)
          · intro _ _
            rw [hall]
            refine ⟨rfl, fun g hg => ?_⟩
            rw [List.mem_singleton.mp hg]
            refine ⟨pivot, List.mem_cons_self, fun x hx => ?_⟩
            rw [← hall] at hx
            exact ((hmem x).mp hx).2
          · intro r hr hadm x y hxy h hh
            rw [List.mem_singleton.mp hh]
            exact hin r hr hadm x y hxy
          · intro F hF
            rw [List.flatMap_cons, List.flatMap_nil, List.append_nil, splits, ← hF (σ.slot P.current),
              ← hE, ← hothers, hlast, splits]
        · rw [hσ', Classes.set, hlast]
          rfl
      · have hlt : others.length < n := by
          rw [← hn, List.length_cons]
          omega
        have hsubset : others ⊆ pivot :: rest := fun x hx =>
          List.mem_cons_of_mem _ (List.mem_filter.mp hx).1
        have hsameV : same ⊆ V := fun x hx => hV ((hmem x).mp hx).1
        obtain ⟨hs, hflatten, hrefined, hagain⟩ := ih _ hlt mid hlast
          (fun x hx => hV (hsubset hx)) ((List.nodup_cons.mp hnodup).2.filter _) (by omega) σ' rfl
        have hpos : 1 ≤ hs.length := hrefined.length_le
        refine ⟨same :: hs, ?_, ⟨?_, ⟨List.cons_ne_nil _ _, ?_, ?_⟩, ?_, ?_, ?_, ?_, ?_⟩, ?_⟩
        · rw [hsegregate, List.flatten_cons, ← hflatten]
        · rw [List.flatten_cons, List.flatten_cons, List.flatten_nil, List.append_nil]
          refine List.Perm.trans (List.Perm.append_left _ ?_) hperm
          rw [← List.append_nil others]
          exact hrefined.perm
        · intro x hx
          rw [hsegregate]
          exact (segregate_frame mid others σ' (Or.inr (hnot x hx))).trans (hlabel x hx)
        · have hend : P.base + start + same.length = P.base + mid := by
            rw [hsame, List.length_cons]
            omega
          rw [hsegregate, hend]
          exact hrefined.labelled
        · intro h hh
          rcases List.mem_cons.mp hh with rfl | hh
          · exact hsub _ fun x hx => ((hmem x).mp hx).1
          · obtain ⟨g, hg, hhg⟩ := hrefined.subset h hh
            rw [List.mem_singleton.mp hg] at hhg
            exact hsub _ (List.Subset.trans hhg hsubset)
        · exact Nat.le_add_left _ _
        · intro _ hlength
          rw [List.length_cons, List.length_singleton] at hlength
          omega
        · intro r hr hadm x y hxy h hh
          have hsame_iff := hin r hr hadm
          rcases List.mem_cons.mp hh with rfl | hh
          · exact hsame_iff x y hxy
          · refine hrefined.closed r ?_ ?_ x y hxy h hh
            · intro x y hxy g hg
              rw [List.mem_singleton.mp hg]
              obtain ⟨hiff, hequal⟩ := hr x y hxy _ (List.mem_singleton_self _)
              have hothers_iff : ∀ z, z ∈ others ↔ z ∈ pivot :: rest ∧ z ∉ same := by
                intro z
                rw [← hperm.mem_iff, List.mem_append]
                exact ⟨fun hz => ⟨Or.inr hz, fun hz' => hnot z hz' hz⟩, fun hz => hz.1.resolve_left hz.2⟩
              refine ⟨?_, fun hx p hp => hequal (hsubset hx) p (hsubset hp)⟩
              rw [hothers_iff, hothers_iff, hiff, hsame_iff x y hxy]
            · exact admissible_set hadm hsameV (by omega) hsame_iff
        · intro F hF
          have hrest := hrefined.const F hF
          rw [List.flatMap_cons, List.flatMap_nil, List.append_nil] at hrest ⊢
          rw [splits, ← hF (σ.slot P.current), ← hE, ← hsame, ← hothers, hrest, hF]
        · rw [hsegregate]
          refine hagain.trans ?_
          have hagain' : σ'.again = true := by
            rw [hσ', Classes.set, decide_eq_true hlast, Bool.or_true]
          rw [hagain', Bool.true_or, decide_eq_true (by rw [List.length_cons]; omega), Bool.or_true]

/-- Only the sections of the range change, and only in the slot that is written. -/
theorem forEachClassRange_frame (start : Nat) (l : List Nat) (σ : Classes) {i x : Nat}
    (h : i ≠ P.next ∨ x ∉ l) : (P.forEachClassRange start l σ).2.slot i x = σ.slot i x := by
  induction hn : l.length using Nat.strong_induction_on generalizing start l σ with
  | _ n ih =>
    cases l with
    | nil => rw [forEachClassRange_nil]
    | cons s rest =>
      rw [forEachClassRange]
      set inClass := fun t => decide (σ.slot P.current t = σ.slot P.current s)
      have hlt : (rest.dropWhile inClass).length < n := by
        rw [← hn]
        exact Nat.lt_succ_of_le (List.dropWhile_suffix _).length_le
      refine (ih _ hlt _ _ _ (h.imp_right fun hx hmem => hx ?_) rfl).trans
        (segregate_frame _ _ _ (h.imp_right fun hx hmem => hx ?_))
      · exact List.mem_cons_of_mem _ ((List.dropWhile_suffix _).subset hmem)
      · exact List.cons_subset_cons _ (List.takeWhile_prefix _).subset hmem

/-- The range takes one whole group after the other. -/
theorem forEachClassRange_cons (start : Nat) {g : List Nat} {gs : List (List Nat)} {σ : Classes}
    (h : Grouped (σ.slot P.current) (g :: gs)) :
    P.forEachClassRange start (g :: gs).flatten σ =
      ((P.segregate start g σ).1 ++
          (P.forEachClassRange (start + g.length) gs.flatten (P.segregate start g σ).2).1,
        (P.forEachClassRange (start + g.length) gs.flatten (P.segregate start g σ).2).2) := by
  cases g with
  | nil => exact absurd rfl h.1
  | cons s rest =>
    obtain ⟨htake, hdrop⟩ := h.takeWhile List.mem_cons_self (List.subset_cons_self s rest)
    rw [List.flatten_cons, List.cons_append, forEachClassRange, htake, hdrop,
      List.length_cons, Nat.add_assoc start 1, Nat.add_comm 1]

/-- **A range of groups**, each split in turn. -/
theorem forEachClassRange_spec (ext : Nat → Nat) (hrefl : ∀ κ x, P.equal κ x x = true) (start : Nat)
    {gs : List (List Nat)} {σ : Classes} (hgrouped : Grouped (σ.slot P.current) gs)
    (hV : gs.flatten ⊆ V) (hnodup : gs.flatten.Nodup)
    (hfits : P.base + start + gs.flatten.length < 2 ^ 32) :
    ∃ gs', (P.forEachClassRange start gs.flatten σ).1 = gs'.flatten ∧
      Refined P V ext (σ.slot P.current) ((P.forEachClassRange start gs.flatten σ).2.slot P.next)
        (P.base + start) gs gs' ∧
      (P.forEachClassRange start gs.flatten σ).2.again =
        (σ.again || decide (gs.length < gs'.length)) := by
  induction gs generalizing start σ with
  | nil =>
    rw [List.flatten_nil, forEachClassRange_nil]
    refine ⟨[], rfl, ⟨List.Perm.refl _, trivial, ?_, le_rfl, ?_, ?_, fun _ _ => rfl⟩, ?_⟩
    · exact fun h hh => absurd hh List.not_mem_nil
    · exact fun _ _ => ⟨rfl, fun g hg => absurd hg List.not_mem_nil⟩
    · exact fun _ _ _ _ _ _ h hh => absurd hh List.not_mem_nil
    · exact (Bool.or_false _).symm
  | cons g gs ih =>
    rw [forEachClassRange_cons start hgrouped]
    obtain ⟨hne, hsame, hdiff, hrest⟩ := hgrouped
    rw [List.flatten_cons] at hV hnodup hfits
    rw [List.length_append] at hfits
    obtain ⟨hgV, hgsV⟩ := List.append_subset.mp hV
    obtain ⟨hgnodup, hgsnodup, hdisjoint⟩ := List.nodup_append'.mp hnodup
    obtain ⟨hs, hflatten, hhead, hagain⟩ := segregate_spec ext hrefl start hne hgV hgnodup (by omega) σ
    set σ₁ := (P.segregate start g σ).2 with hσ₁
    have hframe : ∀ i x, i ≠ P.next ∨ x ∉ g → σ₁.slot i x = σ.slot i x := fun i x =>
      segregate_frame start g σ
    have hrest₁ : Grouped (σ₁.slot P.current) gs :=
      hrest.congr fun x hx => hframe _ _ (Or.inr fun hxg => hdisjoint hxg hx)
    obtain ⟨gs', hflatten', htail, hagain'⟩ := ih (start + g.length) hrest₁ hgsV hgsnodup (by omega)
    set σ₂ := (P.forEachClassRange (start + g.length) gs.flatten σ₁).2 with hσ₂
    have hframe' : ∀ i x, i ≠ P.next ∨ x ∉ gs.flatten → σ₂.slot i x = σ₁.slot i x := fun i x =>
      forEachClassRange_frame _ _ _
    have hperm : hs.flatten.Perm g := by
      have hperm := hhead.perm
      rwa [List.flatten_cons, List.flatten_nil, List.append_nil] at hperm
    have hlen : 1 ≤ hs.length := hhead.length_le
    refine ⟨hs ++ gs', ?_, ⟨?_, ?_, ?_, ?_, ?_, ?_, ?_⟩, ?_⟩
    · rw [hflatten, hflatten', List.flatten_append]
    · rw [List.flatten_append, List.flatten_cons]
      exact hperm.append htail.perm
    · rw [labelled_append, hperm.length_eq, Nat.add_assoc]
      refine ⟨hhead.labelled.congr fun x hx => ?_, htail.labelled⟩
      exact hframe' _ _ (Or.inr fun hxgs => hdisjoint (hperm.mem_iff.mp hx) hxgs)
    · intro h hh
      rcases List.mem_append.mp hh with hh | hh
      · obtain ⟨g', hg', hsub⟩ := hhead.subset h hh
        exact ⟨g, List.mem_cons_self, List.mem_singleton.mp hg' ▸ hsub⟩
      · obtain ⟨g', hg', hsub⟩ := htail.subset h hh
        exact ⟨g', List.mem_cons_of_mem _ hg', hsub⟩
    · rw [List.length_append, List.length_cons]
      have hle := htail.length_le
      omega
    · intro hsteady hlength
      rw [List.length_append, List.length_cons] at hlength
      have hle := htail.length_le
      have hhs : hs.length = [g].length := by
        rw [List.length_singleton]
        omega
      -- the group has the label that it gets
      have hread : σ₁.slot P.current = σ.slot P.current := by
        rcases hsteady with hslots | hlabelled
        · exact funext fun x => hframe _ _ (Or.inl hslots)
        · by_cases hslots : P.current = P.next
          · funext x
            by_cases hx : x ∈ g
            · have hlabel := hhead.labelled
              have hstill : hs = [g] :=
                (hhead.still (Or.inr ⟨hne, hlabelled.2.1, trivial⟩) hhs).1
              rw [hstill] at hlabel
              rw [hslots, hlabel.2.1 x hx, ← hslots, hlabelled.2.1 x hx]
            · exact hframe _ _ (Or.inr hx)
          · exact funext fun x => hframe _ _ (Or.inl hslots)
      have hsteady₁ : P.current ≠ P.next ∨ Labelled (σ.slot P.current) (P.base + start) [g] :=
        hsteady.imp_right fun hlabelled => ⟨hne, hlabelled.2.1, trivial⟩
      have hsteady₂ : P.current ≠ P.next ∨
          Labelled (σ₁.slot P.current) (P.base + (start + g.length)) gs := by
        rw [hread, ← Nat.add_assoc]
        exact hsteady.imp_right fun hlabelled => hlabelled.2.2
      obtain ⟨rfl, huniform⟩ := hhead.still hsteady₁ hhs
      obtain ⟨rfl, huniform'⟩ := htail.still hsteady₂ (by omega)
      refine ⟨rfl, fun g' hg' => ?_⟩
      rcases List.mem_cons.mp hg' with rfl | hg'
      · exact huniform _ (List.mem_singleton_self _)
      · have huniform' := huniform' g' hg'
        rwa [hread] at huniform'
    · intro r hr hadm x y hxy h hh
      have hr₁ : Indistinct P.equal V ext r [g] := fun x y hxy g' hg' => by
        rw [List.mem_singleton.mp hg']
        exact hr x y hxy g List.mem_cons_self
      have hr₂ : Indistinct P.equal V ext r gs := fun x y hxy g' hg' =>
        hr x y hxy g' (List.mem_cons_of_mem _ hg')
      have hclosed := hhead.closed r hr₁ hadm
      rcases List.mem_append.mp hh with hh | hh
      · exact hclosed x y hxy h hh
      · refine htail.closed r hr₂ ?_ x y hxy h hh
        by_cases hslots : P.current = P.next
        · refine ⟨fun x hx => ?_, fun x hx => ?_, fun x y hxy => ?_⟩
          · by_cases hxg : x ∈ g
            · rw [hslots]
              exact Nat.ne_of_gt (Nat.zero_lt_of_lt (hhead.labelled.bounds x (hperm.mem_iff.mpr hxg)).1)
            · rw [hframe _ _ (Or.inr hxg)]
              exact hadm.nonzero x hx
          · rw [hframe _ _ (Or.inr fun hxg => hx (hgV hxg))]
            exact hadm.outside x hx
          · have hiff : x ∈ g ↔ y ∈ g := (hr x y hxy g List.mem_cons_self).1
            by_cases hxg : x ∈ g
            · obtain ⟨h', hh', hxh⟩ := List.mem_flatten.mp (hperm.mem_iff.mpr hxg)
              rw [hslots]
              exact hhead.labelled.grouped.eq_of_mem hh' hxh ((hclosed x y hxy h' hh').mp hxh)
            · rw [hframe _ _ (Or.inr hxg), hframe _ _ (Or.inr fun hyg => hxg (hiff.mpr hyg))]
              exact hadm.respects x y hxy
        · have hread : σ₁.slot P.current = σ.slot P.current :=
            funext fun x => hframe _ _ (Or.inl hslots)
          rwa [hread]
    · intro E hE
      have hhead' := hhead.const E hE
      rw [List.flatMap_cons, List.flatMap_nil, List.append_nil] at hhead'
      rw [List.flatMap_cons, hhead', htail.const E hE]
    · rw [hagain', hagain, List.length_append, List.length_cons, Bool.or_assoc]
      congr 1
      have hle := htail.length_le
      rw [← Bool.decide_or]
      exact decide_eq_decide.mpr ⟨by omega, by omega⟩

end Pass

/-! ## Shards -/

section

variable {P : Pass} {V : List Nat} {ext κ κ' : Nat → Nat} {b : Nat}

theorem Refined.congr {κ'' : Nat → Nat} {gs gs' : List (List Nat)} (h : Refined P V ext κ κ' b gs gs')
    (heq : ∀ x ∈ gs.flatten, κ'' x = κ' x) : Refined P V ext κ κ'' b gs gs' :=
  { h with labelled := h.labelled.congr fun x hx => heq x (h.perm.mem_iff.mp hx) }

/-- Ranges that have read the same classes, one behind the other. -/
theorem Refined.append (hslots : P.current ≠ P.next) {gs gs' hs hs' : List (List Nat)}
    (hg : Refined P V ext κ κ' b gs gs') (hh : Refined P V ext κ κ' (b + gs.flatten.length) hs hs') :
    Refined P V ext κ κ' b (gs ++ hs) (gs' ++ hs') := by
  refine ⟨?_, ?_, ?_, ?_, ?_, ?_, ?_⟩
  · rw [List.flatten_append, List.flatten_append]
    exact hg.perm.append hh.perm
  · rw [labelled_append, hg.perm.length_eq]
    exact ⟨hg.labelled, hh.labelled⟩
  · intro h hmem
    rcases List.mem_append.mp hmem with hmem | hmem
    · obtain ⟨g, hg', hsub⟩ := hg.subset h hmem
      exact ⟨g, List.mem_append_left _ hg', hsub⟩
    · obtain ⟨g, hg', hsub⟩ := hh.subset h hmem
      exact ⟨g, List.mem_append_right _ hg', hsub⟩
  · rw [List.length_append, List.length_append]
    exact Nat.add_le_add hg.length_le hh.length_le
  · intro _ hlength
    rw [List.length_append, List.length_append] at hlength
    have hgle := hg.length_le
    have hhle := hh.length_le
    obtain ⟨rfl, hguniform⟩ := hg.still (Or.inl hslots) (by omega)
    obtain ⟨rfl, hhuniform⟩ := hh.still (Or.inl hslots) (by omega)
    exact ⟨rfl, fun g hmem => (List.mem_append.mp hmem).elim (hguniform g) (hhuniform g)⟩
  · intro r hr hadm x y hxy h hmem
    rcases List.mem_append.mp hmem with hmem | hmem
    · exact hg.closed r (fun x y hxy g hg' => hr x y hxy g (List.mem_append_left _ hg')) hadm x y hxy h hmem
    · exact hh.closed r (fun x y hxy g hg' => hr x y hxy g (List.mem_append_right _ hg')) hadm x y hxy h
        hmem
  · intro E hE
    rw [List.flatMap_append, hg.const E hE, hh.const E hE]

/-- The ranges of several indices. -/
theorem Refined.flatMap (hslots : P.current ≠ P.next) {chunk chunk' : Nat → List (List Nat)}
    {start : Nat → Nat} {n : Nat}
    (hstart : ∀ i < n, start (i + 1) = ((List.range' 1 i).flatMap chunk).flatten.length)
    (h : ∀ i ∈ List.range' 1 n, Refined P V ext κ κ' (b + start i) (chunk i) (chunk' i)) :
    Refined P V ext κ κ' b ((List.range' 1 n).flatMap chunk) ((List.range' 1 n).flatMap chunk') := by
  induction n with
  | zero =>
    refine ⟨List.Perm.refl _, trivial, ?_, le_rfl, ?_, ?_, fun _ _ => rfl⟩
    · exact fun h hh => absurd hh List.not_mem_nil
    · exact fun _ _ => ⟨rfl, fun g hg => absurd hg List.not_mem_nil⟩
    · exact fun _ _ _ _ _ _ h hh => absurd hh List.not_mem_nil
  | succ n ih =>
    rw [List.range'_concat, Nat.one_mul, Nat.add_comm 1 n] at h ⊢
    have hinit := ih (fun i hi => hstart i (Nat.lt_succ_of_lt hi)) fun i hi =>
      h i (List.mem_append_left _ hi)
    have hlast := h (n + 1) (List.mem_append_right _ (List.mem_singleton_self _))
    rw [hstart n (Nat.lt_succ_self n)] at hlast
    rw [List.flatMap_append, List.flatMap_append, List.flatMap_singleton, List.flatMap_singleton]
    exact hinit.append hslots hlast

namespace Pass

variable {shard : Nat → Nat × List Nat} {chunk : Nat → List (List Nat)}

theorem runShards_frame (order : List Nat) (out : Nat → List Nat) (σ : Classes) {i x : Nat}
    (h : i ≠ P.next ∨ ∀ j ∈ order, x ∉ (shard j).2) :
    (P.runShards shard order out σ).2.slot i x = σ.slot i x := by
  induction order generalizing out σ with
  | nil => rfl
  | cons j order ih =>
    rw [runShards]
    refine (ih _ _ (h.imp_right fun hx k hk => hx k (List.mem_cons_of_mem _ hk))).trans ?_
    exact forEachClassRange_frame _ _ _ (h.imp_right fun hx => hx j List.mem_cons_self)

theorem runShards_out (order : List Nat) (out : Nat → List Nat) (σ : Classes) {i : Nat}
    (h : i ∉ order) : (P.runShards shard order out σ).1 i = out i := by
  induction order generalizing out σ with
  | nil => rfl
  | cons j order ih =>
    rw [runShards, ih _ _ fun hi => h (List.mem_cons_of_mem _ hi),
      Function.update_of_ne fun hij => h (by rw [hij]; exact List.mem_cons_self)]

/-- **The shards**, in any order: each does what it does alone. -/
theorem runShards_spec (ext : Nat → Nat) (hrefl : ∀ κ x, P.equal κ x x = true) (hslots : P.current ≠ P.next)
    {order : List Nat} (horder : order.Nodup) (hshard : ∀ i ∈ order, (shard i).2 = (chunk i).flatten)
    (hgrouped : ∀ i ∈ order, Grouped κ (chunk i)) (hV : ∀ i ∈ order, (chunk i).flatten ⊆ V)
    (hnodup : ∀ i ∈ order, (chunk i).flatten.Nodup)
    (hdisjoint : ∀ i ∈ order, ∀ j ∈ order, i ≠ j → (chunk i).flatten.Disjoint (chunk j).flatten)
    (hfits : ∀ i ∈ order, P.base + (shard i).1 + (chunk i).flatten.length < 2 ^ 32)
    (out : Nat → List Nat) (σ : Classes) (hκ : σ.slot P.current = κ) :
    ∃ chunk' : Nat → List (List Nat),
      (∀ i ∈ order, (P.runShards shard order out σ).1 i = (chunk' i).flatten ∧
        Refined P V ext κ ((P.runShards shard order out σ).2.slot P.next) (P.base + (shard i).1)
          (chunk i) (chunk' i)) ∧
      (P.runShards shard order out σ).2.again =
        (σ.again || decide (∃ i ∈ order, (chunk i).length < (chunk' i).length)) := by
  induction order generalizing out σ with
  | nil =>
    refine ⟨chunk, fun i hi => absurd hi List.not_mem_nil, ?_⟩
    rw [decide_eq_false (fun ⟨i, hi, _⟩ => List.not_mem_nil hi), Bool.or_false]
    rfl
  | cons i order ih =>
    obtain ⟨hi, horder⟩ := List.nodup_cons.mp horder
    have hmem : i ∈ i :: order := List.mem_cons_self
    have htail : ∀ j ∈ order, j ∈ i :: order := fun j => List.mem_cons_of_mem _
    have hgi : Grouped (σ.slot P.current) (chunk i) := hκ ▸ hgrouped i hmem
    obtain ⟨gs', hout, hrefined, hagain⟩ := forEachClassRange_spec ext hrefl (shard i).1 hgi
      (hV i hmem) (hnodup i hmem) (hfits i hmem)
    rw [← hshard i hmem] at hout hrefined hagain
    rw [runShards]
    set r := P.forEachClassRange (shard i).1 (shard i).2 σ with hr
    have hκ' : r.2.slot P.current = κ := by
      rw [← hκ]
      exact funext fun x => forEachClassRange_frame _ _ _ (Or.inl hslots)
    obtain ⟨chunk', hchunk', hagain'⟩ := ih horder (fun j hj => hshard j (htail j hj))
      (fun j hj => hgrouped j (htail j hj)) (fun j hj => hV j (htail j hj))
      (fun j hj => hnodup j (htail j hj))
      (fun j hj k hk => hdisjoint j (htail j hj) k (htail k hk))
      (fun j hj => hfits j (htail j hj)) (Function.update out i r.1) r.2 hκ'
    have hother : ∀ j ∈ order, Function.update chunk' i gs' j = chunk' j := fun j hj =>
      Function.update_of_ne (fun hji : j = i => hi (hji ▸ hj)) _ _
    refine ⟨Function.update chunk' i gs', fun j hj => ?_, ?_⟩
    · rcases List.mem_cons.mp hj with rfl | hj
      · rw [runShards_out _ _ _ hi, Function.update_self, Function.update_self]
        refine ⟨hout, ?_⟩
        rw [← hκ]
        refine hrefined.congr fun x hx => runShards_frame _ _ _ (Or.inr fun k hk hxk => ?_)
        rw [hshard k (htail k hk)] at hxk
        exact hdisjoint _ hmem k (htail k hk) (fun hik => hi (hik ▸ hk)) hx hxk
      · rw [hother j hj]
        exact hchunk' j hj
    · rw [hagain', hagain, Bool.or_assoc, ← Bool.decide_or]
      refine congrArg (σ.again || ·) (decide_eq_decide.mpr ?_)
      rw [List.exists_mem_cons_iff, Function.update_self]
      refine or_congr_right (exists_congr fun j => and_congr_right fun hj => ?_)
      rw [hother j hj]

end Pass

end

/-- A boundary lies between two groups. -/
theorem findBoundary_eq {κ : Nat → Nat} {gs : List (List Nat)} (h : Grouped κ gs) (i : Nat) :
    findBoundary κ i gs.flatten = (gs.take (cut gs i)).flatten.length := by
  induction gs generalizing i with
  | nil =>
    rw [List.flatten_nil, findBoundary, List.drop_nil]
    rfl
  | cons g gs ih =>
    rw [cut, List.flatten_cons, findBoundary]
    by_cases hi : i < g.length
    · have hdrop : (g ++ gs.flatten).drop i = g[i] :: (g.drop (i + 1) ++ gs.flatten) := by
        rw [List.drop_append_of_le_length hi.le, List.drop_eq_getElem_cons hi, List.cons_append]
      rw [if_pos hi, hdrop]
      simp only
      rw [(h.takeWhile (List.getElem_mem hi) (List.drop_subset _ _)).1, List.length_drop]
      rw [List.take_succ_cons, List.take_zero, List.flatten_singleton]
      omega
    · have hdrop : (g ++ gs.flatten).drop i = gs.flatten.drop (i - g.length) := by
        rw [List.drop_append, List.drop_eq_nil_of_le (by omega), List.nil_append]
      have ih := ih h.2.2.2 (i - g.length)
      rw [findBoundary] at ih
      rw [if_neg hi, hdrop, List.take_succ_cons, List.flatten_cons]
      refine Eq.trans ?_ List.length_append.symm
      rw [← ih]
      cases gs.flatten.drop (i - g.length) with
      | nil => exact List.length_append
      | cons s rest =>
        simp only
        omega

/-! ## A round -/

/-- The number of groups in front of a boundary. -/
def cutIndex (gs : List (List Nat)) (i : Nat) : Nat :=
  if i = 0 then 0
  else if i < numShards then cut gs ((i - 1) * (gs.flatten.length / numShards))
  else gs.length

theorem cutIndex_mono (gs : List (List Nat)) (i : Nat) : cutIndex gs i ≤ cutIndex gs (i + 1) := by
  unfold cutIndex
  rw [if_neg (Nat.succ_ne_zero i), Nat.add_sub_cancel]
  split
  · exact Nat.zero_le _
  · split
    · split
      · exact cut_mono gs (Nat.mul_le_mul_right _ (Nat.sub_le i 1))
      · exact cut_le _ _
    · rw [if_neg (by omega)]

theorem boundary_eq {κ : Nat → Nat} {gs : List (List Nat)} (h : Grouped κ gs) {i : Nat}
    (hi : i ≤ numShards) : boundary κ gs.flatten i = (gs.take (cutIndex gs i)).flatten.length := by
  unfold boundary cutIndex
  split
  · rfl
  · split
    case isTrue hend => rw [if_neg (by omega), List.take_length]
    case isFalse hend => rw [if_pos (by omega), findBoundary_eq h]

/-- The groups of a shard. -/
def chunk (gs : List (List Nat)) (i : Nat) : List (List Nat) :=
  (gs.take (cutIndex gs i)).drop (cutIndex gs (i - 1))

theorem flatMap_chunk (gs : List (List Nat)) (n : Nat) :
    (List.range' 1 n).flatMap (chunk gs) = gs.take (cutIndex gs n) :=
  flatMap_slices (cutIndex_mono gs) (if_pos rfl) n

theorem chunk_sublist (gs : List (List Nat)) (i : Nat) : (chunk gs i).Sublist gs :=
  (List.drop_sublist _ _).trans (List.take_sublist _ _)

theorem shard_eq {κ : Nat → Nat} {gs : List (List Nat)} (h : Grouped κ gs) {i : Nat}
    (hi : i ∈ List.range' 1 numShards) :
    shard κ gs.flatten i = ((gs.take (cutIndex gs (i - 1))).flatten.length, (chunk gs i).flatten) := by
  obtain ⟨hpos, hle⟩ := List.mem_range'_1.mp hi
  have hmono := cutIndex_mono gs (i - 1)
  rw [Nat.sub_add_cancel hpos] at hmono
  refine Prod.ext (boundary_eq h (by omega)) ?_
  unfold shard
  rw [boundary_eq h (i := i - 1) (by omega), boundary_eq h (i := i) (by omega)]
  exact flatten_slice gs hmono

/-- A shard ends where the next one starts. -/
theorem chunk_end (gs : List (List Nat)) {i : Nat} (hi : 1 ≤ i) :
    (gs.take (cutIndex gs (i - 1))).flatten.length + (chunk gs i).flatten.length =
      (gs.take (cutIndex gs i)).flatten.length := by
  obtain ⟨n, rfl⟩ := Nat.exists_eq_add_of_le hi
  have hslices := flatMap_chunk gs (n + 1)
  rw [List.range'_concat, List.flatMap_append, flatMap_chunk, List.flatMap_singleton, Nat.one_mul,
    Nat.add_comm n 1] at hslices
  rw [← hslices, Nat.add_sub_cancel_left, List.flatten_append, List.length_append]

variable (I : Input) (sch : Schedule)

/-- The slot that the next round reads. -/
def State.readSlot (σ : State) : Nat :=
  if sch.threadsRequested = 1 ∨ I.sections.length < 1024 then 0 else σ.cnt % 2

/-- A state between two rounds, with its groups. -/
structure Ready (σ : State) (gs : List (List Nat)) : Prop where
  sections : σ.sections = gs.flatten
  perm : gs.flatten.Perm I.sections
  slots : sch.threadsRequested = 1 ∨ I.sections.length < 1024 → σ.current = 0 ∧ σ.next = 0
  outside : ∀ i, ∀ x ∉ I.sections, σ.classes.slot i x = I.unique x

variable {I sch} {σ : State} {gs : List (List Nat)} {equal : (Nat → Nat) → Nat → Nat → Bool}

/-- **A round**, sequential or with shards. -/
theorem forEachClass_spec (hrefl : ∀ κ x, equal κ x x = true) (h : Ready I sch σ gs)
    (hgrouped : Grouped (σ.classes.slot (σ.readSlot I sch)) gs) :
    ∃ gs' P, P.equal = equal ∧ Ready I sch (forEachClass sch I.eqClassBase equal σ) gs' ∧
      Refined P I.sections I.unique (σ.classes.slot (σ.readSlot I sch))
        ((forEachClass sch I.eqClassBase equal σ).classes.slot
          ((forEachClass sch I.eqClassBase equal σ).readSlot I sch)) I.eqClassBase gs gs' ∧
      (forEachClass sch I.eqClassBase equal σ).classes.again =
        (σ.classes.again || decide (gs.length < gs'.length)) ∧
      (Labelled (σ.classes.slot (σ.readSlot I sch)) I.eqClassBase gs → gs' = gs →
        (forEachClass sch I.eqClassBase equal σ).eqClass = σ.classes.slot (σ.readSlot I sch)) := by
  have hV : gs.flatten ⊆ I.sections := h.perm.subset
  have hnodup : gs.flatten.Nodup := h.perm.nodup_iff.mpr I.nodup
  have hlength : σ.sections.length = I.sections.length := by rw [h.sections, h.perm.length_eq]
  have hfits : I.eqClassBase + gs.flatten.length < 2 ^ 32 := by
    rw [h.perm.length_eq]
    exact I.fits
  by_cases hmode : sch.threadsRequested = 1 ∨ I.sections.length < 1024
  · obtain ⟨hcurrent, hnext⟩ := h.slots hmode
    have hread : ∀ τ : State, τ.readSlot I sch = 0 := fun _ => if_pos hmode
    rw [hread] at hgrouped
    have hround : forEachClass sch I.eqClassBase equal σ =
        { σ with
          sections := (Pass.forEachClassRange ⟨equal, 0, 0, I.eqClassBase⟩ 0 gs.flatten σ.classes).1
          classes := (Pass.forEachClassRange ⟨equal, 0, 0, I.eqClassBase⟩ 0 gs.flatten σ.classes).2
          cnt := σ.cnt + 1 } := by
      unfold forEachClass
      rw [if_pos (hlength ▸ hmode), hcurrent, hnext, h.sections]
    obtain ⟨gs', hout, hrefined, hagain⟩ := Pass.forEachClassRange_spec (P := ⟨equal, 0, 0, I.eqClassBase⟩)
      I.unique hrefl 0 hgrouped hV hnodup hfits
    have hframe : ∀ i x, x ∉ gs.flatten → _ = σ.classes.slot i x := fun i x hx =>
      Pass.forEachClassRange_frame (P := ⟨equal, 0, 0, I.eqClassBase⟩) 0 gs.flatten σ.classes (Or.inr hx)
    refine ⟨gs', ⟨equal, 0, 0, I.eqClassBase⟩, rfl, ?_, ?_, ?_, ?_⟩
    · rw [hround]
      refine ⟨hout, hrefined.perm.trans h.perm, fun _ => ⟨hcurrent, hnext⟩, fun i x hx => ?_⟩
      exact (hframe i x fun hmem => hx (hV hmem)).trans (h.outside i x hx)
    · rw [hread, hread, hround]
      exact hrefined
    · rw [hround]
      exact hagain
    · intro hlabelled hgs
      rw [hread] at hlabelled ⊢
      have hlabelled' := hrefined.labelled
      rw [hgs] at hlabelled'
      funext x
      unfold State.eqClass
      rw [hround, hcurrent]
      by_cases hx : x ∈ gs.flatten
      · exact hlabelled'.eq_of_labelled hlabelled x hx
      · exact hframe 0 x hx
  · set cur := σ.cnt % 2 with hcur
    set nxt := (σ.cnt + 1) % 2 with hnxt
    have hslots : cur ≠ nxt := by omega
    have hread : σ.readSlot I sch = cur := if_neg hmode
    rw [hread] at hgrouped ⊢
    set P : Pass := ⟨equal, cur, nxt, I.eqClassBase⟩ with hP
    set shards := shard (σ.classes.slot cur) σ.sections with hshards
    set r := P.runShards shards (sch.order σ.cnt) (fun i => (shards i).2) σ.classes with hr
    have hround : forEachClass sch I.eqClassBase equal σ =
        ⟨(List.range' 1 numShards).flatMap r.1, r.2, σ.cnt + 1, cur, nxt⟩ := by
      unfold forEachClass
      rw [if_neg (hlength ▸ hmode)]
    have hread' : (forEachClass sch I.eqClassBase equal σ).readSlot I sch = nxt := by
      rw [hround]
      exact if_neg hmode
    have hmem : ∀ {i}, i ∈ sch.order σ.cnt ↔ i ∈ List.range' 1 numShards := (sch.perm σ.cnt).mem_iff
    have hshard : ∀ i ∈ sch.order σ.cnt, shards i =
        ((gs.take (cutIndex gs (i - 1))).flatten.length, (chunk gs i).flatten) := by
      intro i hi
      rw [hshards, h.sections]
      exact shard_eq hgrouped (hmem.mp hi)
    have hsub : ∀ i, (chunk gs i).flatten.Sublist gs.flatten := fun i => (chunk_sublist gs i).flatten
    have hall : (List.range' 1 numShards).flatMap (chunk gs) = gs := by
      rw [flatMap_chunk]
      exact List.take_length
    have hdisjoint : ∀ i ∈ sch.order σ.cnt, ∀ j ∈ sch.order σ.cnt, i ≠ j →
        (chunk gs i).flatten.Disjoint (chunk gs j).flatten := fun i hi j hj =>
      disjoint_of_flatMap (hall.symm ▸ hnodup) i (hmem.mp hi) j (hmem.mp hj)
    have hchunkfits : ∀ i ∈ sch.order σ.cnt,
        P.base + (shards i).1 + (chunk gs i).flatten.length < 2 ^ 32 := by
      intro i hi
      have hend := chunk_end gs (List.mem_range'_1.mp (hmem.mp hi)).1
      have hle := (List.take_sublist (cutIndex gs i) gs).flatten.length_le
      rw [hshard i hi]
      change I.eqClassBase + _ + _ < _
      omega
    have hshard₂ : ∀ i ∈ sch.order σ.cnt, (shards i).2 = (chunk gs i).flatten := fun i hi => by
      rw [hshard i hi]
    obtain ⟨chunk', hchunk', hagain⟩ := Pass.runShards_spec (P := P) (V := I.sections) I.unique hrefl
      hslots ((sch.perm σ.cnt).nodup_iff.mpr List.nodup_range') hshard₂
      (fun i _ => hgrouped.sublist (chunk_sublist gs i))
      (fun i _ => List.Subset.trans (hsub i).subset hV) (fun i _ => hnodup.sublist (hsub i)) hdisjoint
      hchunkfits (fun i => (shards i).2) σ.classes rfl
    have hrefined : Refined P I.sections I.unique (σ.classes.slot cur) (r.2.slot nxt) I.eqClassBase gs
        ((List.range' 1 numShards).flatMap chunk') := by
      have hchunks : ∀ i ∈ List.range' 1 numShards, Refined P I.sections I.unique
          (σ.classes.slot cur) (r.2.slot nxt)
          (I.eqClassBase + (gs.take (cutIndex gs (i - 1))).flatten.length) (chunk gs i) (chunk' i) := by
        intro i hi
        have hchunk := (hchunk' i (hmem.mpr hi)).2
        rwa [hshard i (hmem.mpr hi)] at hchunk
      have hchunks := Refined.flatMap hslots
        (fun i _ => by rw [flatMap_chunk, Nat.add_sub_cancel]) hchunks
      rwa [hall] at hchunks
    have hframe : ∀ i x, i ≠ nxt ∨ x ∉ gs.flatten → r.2.slot i x = σ.classes.slot i x := by
      intro i x hx
      refine Pass.runShards_frame _ _ _ (hx.imp_right fun hx j hj hxj => hx ?_)
      rw [hshard j hj] at hxj
      exact (hsub j).subset hxj
    refine ⟨(List.range' 1 numShards).flatMap chunk', P, rfl, ?_, ?_, ?_, ?_⟩
    · rw [hround]
      refine ⟨?_, hrefined.perm.trans h.perm, fun hsequential => absurd hsequential hmode,
        fun i x hx => (hframe i x (Or.inr fun hmem => hx (hV hmem))).trans (h.outside i x hx)⟩
      rw [List.flatten_eq_flatMap, List.flatMap_assoc]
      refine List.flatMap_congr fun i hi => ?_
      rw [(hchunk' i (hmem.mpr hi)).1, List.flatten_eq_flatMap]
    · rw [hread', hround]
      exact hrefined
    · rw [hround]
      refine hagain.trans (congrArg (σ.classes.again || ·) (decide_eq_decide.mpr ?_))
      conv_rhs => rw [← hall]
      rw [length_flatMap_lt fun i hi => (hchunk' i (hmem.mpr hi)).2.length_le]
      exact exists_congr fun i => and_congr_left fun _ => hmem
    · intro _ _
      rw [hround]
      exact funext fun x => hframe cur x (Or.inl hslots)

end RvLlvm.Lld.ICF
