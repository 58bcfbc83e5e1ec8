import RvLlvm.Lld.ICFKeys
import RvLlvm.Lld.ICFRound

/-!
# The partition that folding computes

* `run_spec`: the loop of `ICF::run` ends, with classes that the variable comparison does not split
  and that are no finer than they have to be.
* `run_congruence`: sequential or with shards in any order, the loop ends in one partition; its
  classes agree in all that is compared. It is the coarsest such refinement of the hash classes as
  long as no section symbol of a mergeable section is used with two addends that lead to one place.
-/

namespace RvLlvm.Lld.ICF

open RvLlvm.Support

variable (I : Input)

/-! ## What the classes should be -/

/-- Two input sections in one class: related ones, or ones outside that have the same class, not
0. -/
def SameSection (r : Nat → Nat → Prop) (x y : Nat) : Prop :=
  x ∈ I.sections ∧ y ∈ I.sections ∧ r x y ∨
    x ∉ I.sections ∧ y ∉ I.sections ∧ I.unique x = I.unique y ∧ I.unique x ≠ 0

/-- Two relocations that agree: the same symbol, or input sections in one class. -/
structure SameTarget (r : Nat → Nat → Prop) (ra rb : Reloc) : Prop where
  offset : ra.offset = rb.offset
  type : ra.type = rb.type
  target : target I.objects ra = target I.objects rb
  moving : ra.sym = rb.sym ∨
    ∀ x y, inputOf I.objects ra = some x → inputOf I.objects rb = some y → SameSection I r x y

/-- A relation that refines the hash classes and agrees with all that is compared. -/
structure Refines (r : Nat → Nat → Prop) : Prop where
  mem : ∀ a b, r a b → a ∈ I.sections ∧ b ∈ I.sections
  hash : ∀ a b, r a b → I.initial.slot 0 a = I.initial.slot 0 b
  contents : ∀ a b, r a b →
    ((I.objects.isec a).flags, (I.objects.isec a).size, (I.objects.isec a).content,
        (I.objects.isec a).parent) =
      ((I.objects.isec b).flags, (I.objects.isec b).size, (I.objects.isec b).content,
        (I.objects.isec b).parent)
  relType : ∀ a b, r a b → (I.objects.isec a).rels.isEmpty = (I.objects.isec b).rels.isEmpty
  relocs : ∀ a b, r a b →
    List.Forall₂ (SameTarget I r) (relsOrRelas I.objects a) (relsOrRelas I.objects b)

/-- No symbol is used with two addends that lead to one place; only the section symbol of a
mergeable section can be, as `exact_of_merge` says. -/
def Exact : Prop :=
  ∀ a ∈ I.sections, ∀ b ∈ I.sections, ∀ ra ∈ relsOrRelas I.objects a, ∀ rb ∈ relsOrRelas I.objects b,
    ra.sym = rb.sym → target I.objects ra = target I.objects rb → ra.addend = rb.addend

/-- Sections that have the same class when the loop has ended. -/
def SameClass (σ : State) (a b : Nat) : Prop :=
  a ∈ I.sections ∧ b ∈ I.sections ∧ σ.eqClass a = σ.eqClass b

variable {I}

/-- Only section symbols of mergeable sections are in question. -/
theorem exact_of_merge
    (h : ∀ a ∈ I.sections, ∀ b ∈ I.sections, ∀ ra ∈ relsOrRelas I.objects a,
      ∀ rb ∈ relsOrRelas I.objects b, ∀ d x, ra.sym = rb.sym → I.objects.defined ra.sym = some d →
        d.isSection = true → d.sec = some (.merge x) →
        (I.objects.merge x).getOffset ra.addend = (I.objects.merge x).getOffset rb.addend →
        ra.addend = rb.addend) : Exact I := by
  intro a ha b hb ra hra rb hrb hsym htarget
  unfold target at htarget
  rw [← hsym] at htarget
  unfold targetOf at htarget
  cases hd : I.objects.defined ra.sym with
  | none =>
    rw [hd] at htarget
    exact (Target.symbol.inj htarget).2
  | some d =>
    rw [hd] at htarget
    simp only at htarget
    by_cases hfixed : (d.scriptDefined || d.isPreemptible) = true
    · rw [if_pos hfixed, if_pos hfixed] at htarget
      exact (Target.symbol.inj htarget).2
    · rw [if_neg hfixed, if_neg hfixed] at htarget
      cases hsec : d.sec with
      | none =>
        rw [hsec] at htarget
        exact (UInt64.add_right_inj d.value).mp (Target.absolute.inj htarget)
      | some s =>
        rw [hsec] at htarget
        cases s with
        | input x => exact (UInt64.add_right_inj d.value).mp (Target.input.inj htarget).2
        | other x => exact (Target.symbol.inj htarget).2
        | merge x =>
          have hoffset := (Target.merged.inj htarget).2
          unfold mergeOffset at hoffset
          by_cases hsection : d.isSection = true
          · rw [if_pos hsection, if_pos hsection] at hoffset
            exact h a ha b hb ra hra rb hrb d x hsym hd hsection hsec hoffset
          · rw [if_neg hsection, if_neg hsection] at hoffset
            exact (UInt64.add_right_inj _).mp hoffset

section

variable {r : Nat → Nat → Prop} {κ : Nat → Nat} {a b : Nat}

/-- Relocations that agree have one key in all classes that keep the relation. -/
theorem movingKey_of_sameTarget {ra rb : Reloc} (h : SameTarget I r ra rb)
    (hκ : Admissible I.sections I.unique r κ) :
    movingKey I.objects κ ra = movingKey I.objects κ rb := by
  rcases h.moving with hsym | hmoving
  · unfold movingKey inputOf
    rw [hsym]
  by_cases hsym : ra.sym = rb.sym
  · unfold movingKey inputOf
    rw [hsym]
  obtain ⟨da, db, hda, hdb, -, hsec⟩ := sections_of_target h.target hsym
  unfold movingKey inputOf
  unfold inputOf at hmoving
  rw [hda, hdb] at hmoving ⊢
  rcases hsec with ⟨ha, hb, -⟩ | ⟨x, y, ha, hb, -⟩ | ⟨x, y, ha, hb, -⟩
  · simp only [ha, hb]
    rfl
  · simp only [ha, hb] at hmoving ⊢
    have hxy : κ x = κ y ∧ κ x ≠ 0 := by
      rcases hmoving x y rfl rfl with ⟨hx, -, hr⟩ | ⟨hx, hy, heq, hne⟩
      · exact ⟨hκ.respects x y hr, hκ.nonzero x hx⟩
      · rw [hκ.outside x hx, hκ.outside y hy]
        exact ⟨heq, hne⟩
    rw [Option.map_some, Option.map_some, if_neg hxy.2, if_neg (hxy.1 ▸ hxy.2), hxy.1]
  · simp only [ha, hb]
    rfl

theorem Refines.movingKeys (h : Refines I r) (hr : r a b) (hκ : Admissible I.sections I.unique r κ) :
    movingKeys I.objects κ a = movingKeys I.objects κ b := by
  unfold ICF.movingKeys
  rw [← List.forall₂_eq_eq_eq, List.forall₂_map_left_iff, List.forall₂_map_right_iff]
  exact (h.relocs a b hr).imp fun _ _ hrel => movingKey_of_sameTarget hrel hκ

theorem Refines.sectionKey (h : Refines I r) (hr : r a b) :
    sectionKey I.objects a = sectionKey I.objects b :=
  sectionKey_eq_iff.mpr ⟨h.contents a b hr, h.relType a b hr,
    (h.relocs a b hr).imp fun _ _ hrel => ⟨hrel.offset, hrel.type, hrel.target⟩⟩

end

/-! ## The rounds -/

section

variable (I) in
/-- The groups after the first round. -/
def constantGroups (gs : List (List Nat)) : List (List Nat) :=
  gs.flatMap (splits (equalsConstant I.objects))

theorem sectionKey_of_mem {gs : List (List Nat)} {g : List Nat} (hg : g ∈ constantGroups I gs)
    {x y : Nat} (hx : x ∈ g) (hy : y ∈ g) : sectionKey I.objects x = sectionKey I.objects y := by
  obtain ⟨g₀, -, hsplit⟩ := List.mem_flatMap.mp hg
  obtain ⟨p, -, hpivot⟩ := splits_pivot equalsConstant_self g₀ g hsplit
  exact (sectionKey_of_equalsConstant (hpivot x hx)).symm.trans
    (sectionKey_of_equalsConstant (hpivot y hy))

/-- A relation that no variable comparison breaks. -/
structure Moving (gs₁ : List (List Nat)) (r : Nat → Nat → Prop) : Prop where
  mem : ∀ x y, r x y → x ∈ I.sections
  group : ∀ x y, r x y → ∀ g ∈ gs₁, x ∈ g ↔ y ∈ g
  keys : ∀ x y, r x y → ∀ κ, Admissible I.sections I.unique r κ →
    movingKeys I.objects κ x = movingKeys I.objects κ y

variable {sch : Schedule} {gs₀ gs : List (List Nat)} {σ : State}

/-- A state after a round of the loop, or in front of it. -/
structure Settling (I : Input) (sch : Schedule) (gs₀ : List (List Nat)) (σ : State)
    (gs : List (List Nat)) : Prop where
  ready : Ready I sch σ gs
  labelled : Labelled (σ.classes.slot (σ.readSlot I sch)) I.eqClassBase gs
  subset : ∀ h ∈ gs, ∃ g ∈ constantGroups I gs₀, h ⊆ g
  closed : ∀ r, Moving (I := I) (constantGroups I gs₀) r → ∀ x y, r x y → ∀ h ∈ gs, x ∈ h ↔ y ∈ h

/-- A state where the loop can end. -/
structure Settled (I : Input) (σ : State) (gs : List (List Nat)) : Prop where
  labelled : Labelled σ.eqClass I.eqClassBase gs
  outside : ∀ x ∉ I.sections, σ.eqClass x = I.unique x
  uniform : ∀ g ∈ gs, ∃ p ∈ g, ∀ x ∈ g, equalsVariable I.objects σ.eqClass p x = true

variable {r : Nat → Nat → Prop}

theorem Settling.admissible (h : Settling I sch gs₀ σ gs)
    (hr : Moving (I := I) (constantGroups I gs₀) r) :
    Admissible I.sections I.unique r (σ.classes.slot (σ.readSlot I sch)) := by
  refine ⟨fun x hx => ?_, fun x hx => h.ready.outside _ x hx, fun x y hxy => ?_⟩
  · have hlabel := h.labelled.bounds x (h.ready.perm.mem_iff.mpr hx)
    omega
  · obtain ⟨g, hg, hxg⟩ := List.mem_flatten.mp (h.ready.perm.mem_iff.mpr (hr.mem x y hxy))
    exact h.labelled.grouped.eq_of_mem hg hxg ((h.closed r hr x y hxy g hg).mp hxg)

theorem Settling.indistinct (h : Settling I sch gs₀ σ gs)
    (hr : Moving (I := I) (constantGroups I gs₀) r) :
    Indistinct (equalsVariable I.objects) I.sections I.unique r gs := by
  intro x y hxy g hg
  have hiff := h.closed r hr x y hxy g hg
  refine ⟨hiff, fun hx p hp κ hκ => ?_⟩
  obtain ⟨g₁, hg₁, hsub⟩ := h.subset g hg
  rw [Bool.eq_iff_iff, equalsVariable_iff (sectionKey_of_mem hg₁ (hsub hp) (hsub hx)),
    equalsVariable_iff (sectionKey_of_mem hg₁ (hsub hp) (hsub (hiff.mp hx))), hr.keys x y hxy κ hκ]

/-- **A round of the loop.** -/
theorem variableRound_spec (h : Settling I sch gs₀ σ gs) :
    ∃ gs', Settling I sch gs₀ (I.variableRound sch σ) gs' ∧ gs.length ≤ gs'.length ∧
      (I.variableRound sch σ).classes.again = decide (gs.length < gs'.length) ∧
      ((I.variableRound sch σ).classes.again = false → Settled I (I.variableRound sch σ) gs') := by
  set τ : State := { σ with classes := { σ.classes with again := false } } with hτ
  have hready : Ready I sch τ gs :=
    ⟨h.ready.sections, h.ready.perm, h.ready.slots, fun i x hx => h.ready.outside i x hx⟩
  have hlabelled : Labelled (τ.classes.slot (τ.readSlot I sch)) I.eqClassBase gs := h.labelled
  obtain ⟨gs', P, hP, hready', hrefined, hagain, hclass⟩ := forEachClass_spec
    (equalsVariable_self (O := I.objects)) hready hlabelled.grouped
  have hround : forEachClass sch I.eqClassBase (equalsVariable I.objects) τ = I.variableRound sch σ := rfl
  rw [hround] at hready' hrefined hagain hclass
  have hagain' : (I.variableRound sch σ).classes.again = decide (gs.length < gs'.length) :=
    hagain.trans (Bool.false_or _)
  refine ⟨gs', ⟨hready', hrefined.labelled, fun g hg => ?_, fun r hr x y hxy g hg => ?_⟩,
    hrefined.length_le, hagain', fun hend => ?_⟩
  · obtain ⟨g', hg', hsub⟩ := hrefined.subset g hg
    obtain ⟨g₁, hg₁, hsub'⟩ := h.subset g' hg'
    exact ⟨g₁, hg₁, List.Subset.trans hsub hsub'⟩
  · exact hrefined.closed r (hP ▸ h.indistinct hr) (h.admissible hr) x y hxy g hg
  · rw [hagain'] at hend
    have hle := hrefined.length_le
    have hlt := of_decide_eq_false hend
    obtain ⟨hgs, huniform⟩ := hrefined.still (Or.inr hlabelled) (by omega)
    have hread := hclass hlabelled hgs
    rw [hP] at huniform
    refine ⟨?_, ?_, ?_⟩
    · rw [hread, hgs]
      exact hlabelled
    · rw [hread]
      exact fun x hx => h.ready.outside _ x hx
    · rw [hread, hgs]
      exact huniform

theorem sorted_perm (I : Input) : I.sorted.Perm I.sections := List.mergeSort_perm _ _

theorem sorted_pairwise (I : Input) :
    I.sorted.Pairwise fun x y => I.initial.slot 0 x ≤ I.initial.slot 0 y := by
  have htrans : ∀ a b c : Nat, decide (I.initial.slot 0 a ≤ I.initial.slot 0 b) = true →
      decide (I.initial.slot 0 b ≤ I.initial.slot 0 c) = true →
      decide (I.initial.slot 0 a ≤ I.initial.slot 0 c) = true := fun a b c hab hbc =>
    decide_eq_true ((of_decide_eq_true hab).trans (of_decide_eq_true hbc))
  have htotal : ∀ a b : Nat, (decide (I.initial.slot 0 a ≤ I.initial.slot 0 b) ||
      decide (I.initial.slot 0 b ≤ I.initial.slot 0 a)) = true := by
    intro a b
    rw [← Bool.decide_or, decide_eq_true_iff]
    exact Nat.le_total _ _
  exact (List.pairwise_mergeSort htrans htotal I.sections).imp fun h => of_decide_eq_true h

theorem initial_ne_zero {x : Nat} (hx : x ∈ I.sections) : I.initial.slot 0 x ≠ 0 := by
  have hslot : ∃ n, I.initial.slot 0 x = n ||| 2 ^ 31 := ⟨_, if_pos ⟨rfl, hx⟩⟩
  obtain ⟨n, hn⟩ := hslot
  have hle : 2 ^ 31 ≤ n ||| 2 ^ 31 := Nat.right_le_or
  omega

theorem initial_outside (i : Nat) {x : Nat} (hx : x ∉ I.sections) : I.initial.slot i x = I.unique x := by
  unfold Input.initial Input.combineRelocHashes Input.hashes
  simp only [hx, and_false, if_false]

/-- **The first round**, the same with every schedule. -/
theorem constantRound_spec (sch : Schedule) (hsorted : I.sorted = gs₀.flatten)
    (hgrouped : Grouped (I.initial.slot 0) gs₀) :
    Settling I sch gs₀ (I.constantRound sch) (constantGroups I gs₀) ∧
      Grouped ((I.constantRound sch).classes.slot ((I.constantRound sch).readSlot I sch))
        (constantGroups I gs₀) ∧
      (∀ h ∈ constantGroups I gs₀, ∃ g ∈ gs₀, h ⊆ g) ∧
      ∀ r, Indistinct (fun _ => equalsConstant I.objects) I.sections I.unique r gs₀ →
        Admissible I.sections I.unique r (I.initial.slot 0) →
        ∀ x y, r x y → ∀ h ∈ constantGroups I gs₀, x ∈ h ↔ y ∈ h := by
  set σ₀ : State := ⟨I.sorted, I.initial, 0, 0, 0⟩ with hσ₀
  have hready : Ready I sch σ₀ gs₀ :=
    ⟨hsorted, hsorted ▸ sorted_perm I, fun _ => ⟨rfl, rfl⟩, fun i x hx => initial_outside i hx⟩
  have hread : σ₀.readSlot I sch = 0 := by
    unfold State.readSlot
    split <;> rfl
  obtain ⟨gs', P, hP, hready', hrefined, -, -⟩ := forEachClass_spec
    (fun _ s => equalsConstant_self (O := I.objects) s) hready (hread ▸ hgrouped)
  have hround : forEachClass sch I.eqClassBase (fun _ => equalsConstant I.objects) σ₀ =
    I.constantRound sch := rfl
  rw [hround] at hready' hrefined
  rw [hread] at hrefined
  obtain rfl : gs' = constantGroups I gs₀ := hrefined.const _ fun κ => by rw [hP]
  refine ⟨⟨hready', hrefined.labelled, fun h hh => ⟨h, hh, List.Subset.refl h⟩, ?_⟩,
    hrefined.labelled.grouped, hrefined.subset, ?_⟩
  · exact fun r hr x y hxy h hh => hr.group x y hxy h hh
  · exact fun r hr hadm => hrefined.closed r (hP ▸ hr) hadm

variable (I sch gs₀) in
/-- What holds after a round of the loop. -/
def Settles (σ : State) : Prop :=
  ∃ gs, Settling I sch gs₀ σ gs ∧ (σ.classes.again = false → Settled I σ gs)

variable (I sch) in
/-- A bound for the rounds that are left: the classes that there may still be. -/
def roundsLeft (σ : State) : Nat :=
  I.sections.length - (I.sections.map (σ.classes.slot (σ.readSlot I sch))).toFinset.card +
    σ.classes.again.toNat

theorem Settling.roundsLeft (h : Settling I sch gs₀ σ gs) :
    gs.length ≤ I.sections.length ∧
      ICF.roundsLeft I sch σ = I.sections.length - gs.length + σ.classes.again.toNat := by
  have hcard : (I.sections.map (σ.classes.slot (σ.readSlot I sch))).toFinset.card = gs.length := by
    rw [← h.labelled.card]
    exact congrArg Finset.card (List.toFinset_eq_of_perm _ _ (h.ready.perm.symm.map _))
  refine ⟨?_, by rw [ICF.roundsLeft, hcard]⟩
  rw [← hcard]
  exact (List.toFinset_card_le _).trans_eq (List.length_map _)

/-- A round after one that has split a group: either it splits one, or it is the last. -/
theorem variableRound_settles (h : Settles I sch gs₀ σ) (hagain : σ.classes.again = true) :
    Settles I sch gs₀ (I.variableRound sch σ) ∧
      roundsLeft I sch (I.variableRound sch σ) < roundsLeft I sch σ := by
  obtain ⟨gs, hσ, -⟩ := h
  obtain ⟨gs', hσ', hle, hagain', hsettled⟩ := variableRound_spec hσ
  refine ⟨⟨gs', hσ', hsettled⟩, ?_⟩
  obtain ⟨hgs', hleft'⟩ := hσ'.roundsLeft
  rw [hσ.roundsLeft.2, hleft', hagain', hagain]
  by_cases hlt : gs.length < gs'.length
  · rw [decide_eq_true hlt]
    omega
  · rw [decide_eq_false hlt, Bool.toNat_true, Bool.toNat_false]
    omega

/-- **The loop ends**, in classes that the variable comparison does not split. -/
theorem run_spec (sch : Schedule) (hsorted : I.sorted = gs₀.flatten)
    (hgrouped : Grouped (I.initial.slot 0) gs₀) :
    ∃ σ gs, I.run sch = some σ ∧ Settling I sch gs₀ σ gs ∧ Settled I σ gs := by
  obtain ⟨hstart, -, -, -⟩ := constantRound_spec sch hsorted hgrouped
  obtain ⟨gs₁, hfirst, -, -, hsettled₁⟩ := variableRound_spec hstart
  have hbound : roundsLeft I sch (I.variableRound sch (I.constantRound sch)) < I.sections.length + 2 := by
    have hbool := Bool.toNat_le (I.variableRound sch (I.constantRound sch)).classes.again
    rw [hfirst.roundsLeft.2]
    omega
  obtain ⟨σ, hrun, ⟨gs, hσ, hsettled⟩, hend⟩ := doWhile_spec (Settles I sch gs₀) (roundsLeft I sch)
    (fun _ => variableRound_settles) ⟨gs₁, hfirst, hsettled₁⟩ hbound
  exact ⟨σ, gs, hrun, hσ, hsettled hend⟩

/-! ## The partition -/

/-- The classes are the groups. -/
theorem sameClass_iff (h : Settling I sch gs₀ σ gs) (hσ : Settled I σ gs) {a b : Nat} :
    SameClass I σ a b ↔ ∃ g ∈ gs, a ∈ g ∧ b ∈ g := by
  constructor
  · rintro ⟨ha, hb, heq⟩
    obtain ⟨g, hg, hag⟩ := List.mem_flatten.mp (h.ready.perm.mem_iff.mpr ha)
    exact ⟨g, hg, hag, hσ.labelled.grouped.mem_of_eq hg hag (h.ready.perm.mem_iff.mpr hb) heq⟩
  · rintro ⟨g, hg, ha, hb⟩
    exact ⟨h.ready.perm.subset (List.mem_flatten.mpr ⟨g, hg, ha⟩),
      h.ready.perm.subset (List.mem_flatten.mpr ⟨g, hg, hb⟩), hσ.labelled.grouped.eq_of_mem hg ha hb⟩

/-- Sections in one class when the loop has ended: with one class that is not 0. -/
theorem sameSection_iff (h : Settling I sch gs₀ σ gs) (hσ : Settled I σ gs) (x y : Nat) :
    SameSection I (SameClass I σ) x y ↔ σ.eqClass x = σ.eqClass y ∧ σ.eqClass x ≠ 0 := by
  have hin : ∀ z ∈ I.sections, I.eqClassBase < σ.eqClass z := fun z hz =>
    (hσ.labelled.bounds z (h.ready.perm.mem_iff.mpr hz)).1
  have hout : ∀ z ∉ I.sections, σ.eqClass z < I.eqClassBase := fun z hz => by
    rw [hσ.outside z hz]
    exact Nat.lt_succ_of_le (I.unique_le z)
  constructor
  · rintro (⟨hx, -, -, -, heq⟩ | ⟨hx, hy, heq, hne⟩)
    · exact ⟨heq, Nat.ne_of_gt (Nat.zero_lt_of_lt (hin x hx))⟩
    · rw [hσ.outside x hx, hσ.outside y hy]
      exact ⟨heq, hne⟩
  · rintro ⟨heq, hne⟩
    by_cases hx : x ∈ I.sections
    · by_cases hy : y ∈ I.sections
      · exact Or.inl ⟨hx, hy, hx, hy, heq⟩
      · have hlt := (hin x hx).trans_eq heq
        exact absurd hlt (Nat.not_lt.mpr (hout y hy).le)
    · by_cases hy : y ∈ I.sections
      · have hlt := (hin y hy).trans_eq heq.symm
        exact absurd hlt (Nat.not_lt.mpr (hout x hx).le)
      · rw [hσ.outside x hx, hσ.outside y hy] at heq
        rw [hσ.outside x hx] at hne
        exact Or.inr ⟨hx, hy, heq, hne⟩

/-- Sections in one group of the end agree. -/
theorem refines_sameClass (hgrouped : Grouped (I.initial.slot 0) gs₀)
    (hsubset : ∀ h ∈ constantGroups I gs₀, ∃ g ∈ gs₀, h ⊆ g) (h : Settling I sch gs₀ σ gs)
    (hσ : Settled I σ gs) : Refines I (SameClass I σ) := by
  have hkey : ∀ a b, SameClass I σ a b → sectionKey I.objects a = sectionKey I.objects b ∧
      movingKeys I.objects σ.eqClass a = movingKeys I.objects σ.eqClass b := by
    intro a b hab
    obtain ⟨g, hg, ha, hb⟩ := (sameClass_iff h hσ).mp hab
    obtain ⟨g₁, hg₁, hsub⟩ := h.subset g hg
    obtain ⟨p, hp, huniform⟩ := hσ.uniform g hg
    have hpa := (equalsVariable_iff (sectionKey_of_mem hg₁ (hsub hp) (hsub ha))).mp (huniform a ha)
    have hpb := (equalsVariable_iff (sectionKey_of_mem hg₁ (hsub hp) (hsub hb))).mp (huniform b hb)
    exact ⟨sectionKey_of_mem hg₁ (hsub ha) (hsub hb), hpa.symm.trans hpb⟩
  refine ⟨fun a b hab => ⟨hab.1, hab.2.1⟩, fun a b hab => ?_, fun a b hab => ?_, fun a b hab => ?_,
    fun a b hab => ?_⟩
  · obtain ⟨g, hg, ha, hb⟩ := (sameClass_iff h hσ).mp hab
    obtain ⟨g₁, hg₁, hsub⟩ := h.subset g hg
    obtain ⟨g₂, hg₂, hsub'⟩ := hsubset g₁ hg₁
    exact hgrouped.eq_of_mem hg₂ (hsub' (hsub ha)) (hsub' (hsub hb))
  · exact (sectionKey_eq_iff.mp (hkey a b hab).1).1
  · exact (sectionKey_eq_iff.mp (hkey a b hab).1).2.1
  · have hrelocs := (sectionKey_eq_iff.mp (hkey a b hab).1).2.2
    have hmoving := (hkey a b hab).2
    unfold movingKeys at hmoving
    rw [← List.forall₂_eq_eq_eq, List.forall₂_map_left_iff, List.forall₂_map_right_iff] at hmoving
    rw [List.forall₂_iff_zip] at hrelocs hmoving ⊢
    refine ⟨hrelocs.1, fun {ra rb} hmem => ?_⟩
    obtain ⟨hoffset, htype, htarget⟩ := hrelocs.2 hmem
    refine ⟨hoffset, htype, htarget, or_iff_not_imp_left.mpr fun hsym x y hx hy => ?_⟩
    have hkeys := hmoving.2 hmem
    unfold movingKey at hkeys
    rw [hx, hy, Option.map_some, Option.map_some, Option.some_inj] at hkeys
    rw [sameSection_iff h hσ]
    split at hkeys
    case isTrue =>
      split at hkeys
      case isTrue => exact absurd (Prod.mk.inj hkeys).2 hsym
      case isFalse => exact absurd (Prod.mk.inj hkeys).1 (by decide)
    case isFalse hne =>
      split at hkeys
      case isTrue => exact absurd (Prod.mk.inj hkeys).1 (by decide)
      case isFalse => exact ⟨(Prod.mk.inj hkeys).2, hne⟩

/-- A refinement within the groups of the first round lies in the classes. -/
theorem sameClass_of_refines (h : Settling I sch gs₀ σ gs) (hσ : Settled I σ gs) (hr : Refines I r)
    (hgroup : ∀ x y, r x y → ∀ g ∈ constantGroups I gs₀, x ∈ g ↔ y ∈ g) {a b : Nat} (hab : r a b) :
    SameClass I σ a b := by
  have hmoving : Moving (I := I) (constantGroups I gs₀) r :=
    ⟨fun x y hxy => (hr.mem x y hxy).1, hgroup, fun x y hxy κ hκ => hr.movingKeys hxy hκ⟩
  obtain ⟨g, hg, hag⟩ := List.mem_flatten.mp (h.ready.perm.mem_iff.mpr (hr.mem a b hab).1)
  exact (sameClass_iff h hσ).mpr ⟨g, hg, hag, (h.closed r hmoving a b hab g hg).mp hag⟩

/-- A class of the end lies in one group of the first round. -/
theorem constantGroups_of_sameClass {κ : Nat → Nat} (hgrouped : Grouped κ (constantGroups I gs₀))
    (h : Settling I sch gs₀ σ gs) (hσ : Settled I σ gs) {a b : Nat} (hab : SameClass I σ a b) :
    ∀ g ∈ constantGroups I gs₀, a ∈ g ↔ b ∈ g := by
  intro g hg
  obtain ⟨g', hg', ha, hb⟩ := (sameClass_iff h hσ).mp hab
  obtain ⟨g₁, hg₁, hsub⟩ := h.subset g' hg'
  exact hgrouped.mem_iff (List.mem_flatten.mpr ⟨g₁, hg₁, hsub ha⟩)
    (List.mem_flatten.mpr ⟨g₁, hg₁, hsub hb⟩) (hgrouped.eq_of_mem hg₁ (hsub ha) (hsub hb)) hg

/-- Where no symbol leads to one place with two addends, no constant comparison breaks a
refinement. -/
theorem indistinct_of_exact (hexact : Exact I) (hsorted : I.sorted = gs₀.flatten)
    (hgrouped : Grouped (I.initial.slot 0) gs₀) (hr : Refines I r) :
    Indistinct (fun _ => equalsConstant I.objects) I.sections I.unique r gs₀ := by
  have hmem : ∀ x, x ∈ gs₀.flatten ↔ x ∈ I.sections := fun x => by
    rw [← hsorted]
    exact (sorted_perm I).mem_iff
  intro x y hxy g hg
  obtain ⟨hx, hy⟩ := hr.mem x y hxy
  refine ⟨hgrouped.mem_iff ((hmem x).mpr hx) ((hmem y).mpr hy) (hr.hash x y hxy) hg,
    fun _ p hp κ _ => ?_⟩
  have hpV : p ∈ I.sections := (hmem p).mp (List.mem_flatten.mpr ⟨g, hg, hp⟩)
  have hkey := hr.sectionKey hxy
  rw [Bool.eq_iff_iff]
  constructor
  · intro hpx
    exact equalsConstant_of_sectionKey ((sectionKey_of_equalsConstant hpx).trans hkey) (hexact p hpV y hy)
  · intro hpy
    exact equalsConstant_of_sectionKey ((sectionKey_of_equalsConstant hpy).trans hkey.symm)
      (hexact p hpV x hx)

/-- **The partition** is one for all schedules, a refinement of the hash classes, and the
coarsest. -/
theorem run_congruence (I : Input) (sch sch' : Schedule) :
    ∃ σ σ', I.run sch = some σ ∧ I.run sch' = some σ' ∧
      Refines I (SameClass I σ) ∧
      (∀ x y, SameSection I (SameClass I σ) x y ↔ σ.eqClass x = σ.eqClass y ∧ σ.eqClass x ≠ 0) ∧
      (∀ a b, SameClass I σ a b ↔ SameClass I σ' a b) ∧
      (Exact I → ∀ r, Refines I r → ∀ a b, r a b → SameClass I σ a b) := by
  obtain ⟨gs₀, hsorted, hgrouped⟩ := exists_grouped (sorted_pairwise I)
  obtain ⟨-, hgrouped₁, hsubset, hclosed⟩ := constantRound_spec sch hsorted hgrouped
  obtain ⟨σ, gs, hrun, h, hσ⟩ := run_spec sch hsorted hgrouped
  obtain ⟨σ', gs', hrun', h', hσ'⟩ := run_spec sch' hsorted hgrouped
  have hrefines := refines_sameClass hgrouped hsubset h hσ
  have hrefines' := refines_sameClass hgrouped hsubset h' hσ'
  refine ⟨σ, σ', hrun, hrun', hrefines, sameSection_iff h hσ, fun a b => ⟨fun hab => ?_, fun hab => ?_⟩,
    fun hexact r hr a b hab => ?_⟩
  · exact sameClass_of_refines h' hσ' hrefines
      (fun x y hxy => constantGroups_of_sameClass hgrouped₁ h hσ hxy) hab
  · exact sameClass_of_refines h hσ hrefines'
      (fun x y hxy => constantGroups_of_sameClass hgrouped₁ h' hσ' hxy) hab
  · have hadm : Admissible I.sections I.unique r (I.initial.slot 0) :=
      ⟨fun x hx => initial_ne_zero hx, fun x hx => initial_outside 0 hx, hr.hash⟩
    exact sameClass_of_refines h hσ hr
      (hclosed r (indistinct_of_exact hexact hsorted hgrouped hr) hadm) hab

end

/-! ## Symbols of no input section -/

/-- One thread. -/
def oneThread : Schedule := ⟨1, fun _ => List.range' 1 numShards, fun _ => List.Perm.refl _⟩

/-- Two sections with a relocation each, to absolute symbols of one value. -/
def absoluteInput : Input where
  objects :=
    { isec := fun s => ⟨0, 0, [], 0, false, [], [⟨0, 0, 0, s⟩]⟩
      merge := fun _ => ⟨0, id⟩
      defined := fun _ => some ⟨none, 5, false, false, false⟩ }
  sections := [0, 1]
  nodup := by decide
  unique _ := 0
  uniqueId := 0
  unique_le _ := le_rfl
  fits := by decide
  xxh3_64bits _ := 0

/-- Three sections with a relocation each, to section symbols of mergeable sections: the first and
the last have two addends of one symbol, and all lead to one string. -/
def mergeInput : Input where
  objects :=
    { isec := fun s => ⟨0, 0, [], 0, false, [], [⟨0, 0, if s = 2 then 4 else 0, if s = 1 then 1 else 0⟩]⟩
      merge := fun _ => ⟨0, fun _ => 0⟩
      defined := fun s => some ⟨some (.merge s), 0, true, false, false⟩ }
  sections := [0, 1, 2]
  nodup := by decide
  unique _ := 0
  uniqueId := 0
  unique_le _ := le_rfl
  fits := by decide
  xxh3_64bits _ := 0

/-- Sections of one hash stay in their order. -/
theorem sorted_of_le (I : Input)
    (h : ∀ a ∈ I.sections, ∀ b ∈ I.sections, I.initial.slot 0 a ≤ I.initial.slot 0 b) :
    I.sorted = I.sections :=
  List.mergeSort_of_pairwise (List.pairwise_of_forall_mem_list fun a ha b hb =>
    decide_eq_true (h a ha b hb))

/-- The classes that the two inputs end with. -/
theorem run_absoluteInput :
    (absoluteInput.run oneThread).map (fun σ => (σ.eqClass 0, σ.eqClass 1)) = some (3, 3) := by
  unfold Input.run Input.constantRound
  rw [sorted_of_le absoluteInput (by decide)]
  decide +kernel

theorem run_mergeInput :
    (mergeInput.run oneThread).map (fun σ => (σ.eqClass 0, σ.eqClass 2)) = some (3, 4) := by
  unfold Input.run Input.constantRound
  rw [sorted_of_le mergeInput (by decide)]
  decide +kernel

/-- All the sections of the second input agree. -/
theorem refines_mergeInput :
    Refines mergeInput fun a b => a ∈ mergeInput.sections ∧ b ∈ mergeInput.sections := by
  have hhash : ∀ a ∈ mergeInput.sections, ∀ b ∈ mergeInput.sections,
      mergeInput.initial.slot 0 a = mergeInput.initial.slot 0 b := by decide
  have htarget : ∀ a ∈ mergeInput.sections, ∀ b ∈ mergeInput.sections,
      targetOf mergeInput.objects (if a = 1 then 1 else 0) (if a = 2 then 4 else 0) =
        targetOf mergeInput.objects (if b = 1 then 1 else 0) (if b = 2 then 4 else 0) := by
    decide
  refine ⟨fun a b hab => hab, fun a b hab => hhash a hab.1 b hab.2, fun _ _ _ => rfl, fun _ _ _ => rfl,
    fun a b hab => ?_⟩
  refine List.Forall₂.cons ⟨rfl, rfl, htarget a hab.1 b hab.2, Or.inr fun x y hx _ => ?_⟩ .nil
  exact absurd hx.symm (Option.some_ne_none x)

/-- Sections in one class whose relocations have two symbols and no section; and sections in two
classes that agree in all that is compared. -/
theorem not_congruence :
    (∃ σ, absoluteInput.run oneThread = some σ ∧ SameClass absoluteInput σ 0 1 ∧
      ∃ ra rb, relsOrRelas absoluteInput.objects 0 = [ra] ∧ relsOrRelas absoluteInput.objects 1 = [rb] ∧
        ra.sym ≠ rb.sym ∧ inputOf absoluteInput.objects ra = none) ∧
      ∃ σ r, mergeInput.run oneThread = some σ ∧ Refines mergeInput r ∧ r 0 2 ∧
        ¬ SameClass mergeInput σ 0 2 := by
  constructor
  · obtain ⟨σ, hrun, hclass⟩ := Option.map_eq_some_iff.mp run_absoluteInput
    obtain ⟨h0, h1⟩ := Prod.mk.inj hclass
    exact ⟨σ, hrun, ⟨by decide, by decide, h0.trans h1.symm⟩, _, _, rfl, rfl, by decide, rfl⟩
  · obtain ⟨σ, hrun, hclass⟩ := Option.map_eq_some_iff.mp run_mergeInput
    obtain ⟨h0, h2⟩ := Prod.mk.inj hclass
    refine ⟨σ, _, hrun, refines_mergeInput, ⟨by decide, by decide⟩, fun hsame => ?_⟩
    rw [hsame.2.2, h2] at h0
    exact absurd h0 (by decide)

end RvLlvm.Lld.ICF
