import Mathlib.Data.List.Forall2
import RvLlvm.Lld.ICF

/-!
# What the comparisons of folding compare

A comparison of two sections is an equation between what they are compared by: `sectionKey` for what
does not move, and `movingKeys` for the classes of the sections that are referred to.

* `equalsVariable_iff`: the variable comparison, between sections that have one key.
* `sectionKey_of_equalsConstant`, `equalsConstant_of_sectionKey`: the constant comparison. It takes
  less where one symbol has two addends that lead to one place.
-/

namespace RvLlvm.Lld.ICF

open RvLlvm.Support

variable (O : Objects)

/-- Where a relocation leads, but for which input section it is. -/
inductive Target
  | symbol (sym : Nat) (addend : UInt64)
  | absolute (value : UInt64)
  | input (isSynthetic : Bool) (offset : UInt64)
  | merged (parent : Nat) (offset : UInt64)
  deriving DecidableEq

/-- The target of a symbol and an addend. -/
def targetOf (sym : Nat) (addend : UInt64) : Target :=
  match O.defined sym with
  | none => .symbol sym addend
  | some d =>
    if d.scriptDefined || d.isPreemptible then .symbol sym addend
    else
      match d.sec with
      | none => .absolute (d.value + addend)
      | some (.input x) => .input (O.isec x).isSynthetic (d.value + addend)
      | some (.merge x) => .merged (O.merge x).parent (mergeOffset O x d addend)
      | some (.other _) => .symbol sym addend

/-- The target of a relocation. -/
def target (r : Reloc) : Target := targetOf O r.sym r.addend

/-- The input section that a relocation refers to. -/
def inputOf (r : Reloc) : Option Nat :=
  match O.defined r.sym with
  | some d => match d.sec with
    | some (.input x) => some x
    | _ => none
  | none => none

/-- What `equalsConstant` compares. -/
def sectionKey (s : Nat) : (Nat × Nat × List Nat × Nat) × Bool × List (Nat × Nat × Target) :=
  (((O.isec s).flags, (O.isec s).size, (O.isec s).content, (O.isec s).parent), (O.isec s).rels.isEmpty,
    (relsOrRelas O s).map fun r => (r.offset, r.type, target O r))

/-- What `variableEq` compares: the class, or the symbol where there is no class. -/
def movingKey (κ : Nat → Nat) (r : Reloc) : Option (Nat × Nat) :=
  (inputOf O r).map fun x => if κ x = 0 then (0, r.sym) else (1, κ x)

/-- What `equalsVariable` compares. -/
def movingKeys (κ : Nat → Nat) (s : Nat) : List (Option (Nat × Nat)) :=
  (relsOrRelas O s).map (movingKey O κ)

variable {O} {ra rb : Reloc} {κ : Nat → Nat}

/-! ## One relocation -/

attribute [local grind =] constantEq variableEq relocConstantEq relocVariableEq equalsConstant
  equalsVariable target targetOf

theorem relocConstantEq_target (h : relocConstantEq O ra rb = true) :
    ra.offset = rb.offset ∧ ra.type = rb.type ∧ target O ra = target O rb := by
  unfold relocConstantEq at h
  split at h
  case isTrue => exact absurd h Bool.false_ne_true
  case isFalse hplace =>
    obtain ⟨hoffset, htype⟩ := not_or.mp hplace
    refine ⟨not_not.mp hoffset, not_not.mp htype, ?_⟩
    split at h
    case isTrue hsym =>
      rw [target, target, hsym, of_decide_eq_true h]
    case isFalse hsym =>
      unfold target targetOf
      split at h
      case h_2 => exact absurd h Bool.false_ne_true
      case h_1 da db hda hdb =>
        split at h
        case isTrue => exact absurd h Bool.false_ne_true
        case isFalse hfixed =>
          simp only [Bool.or_eq_true, not_or, Bool.not_eq_true] at hfixed
          obtain ⟨⟨⟨hsa, hsb⟩, hpa⟩, hpb⟩ := hfixed
          rw [hda, hdb]
          simp only [hsa, hsb, hpa, hpb, Bool.or_self, Bool.false_eq_true, if_false]
          split at h
          case h_1 ha hb => rw [ha, hb, of_decide_eq_true h]
          case h_2 ha hb =>
            obtain ⟨hkind, hvalue⟩ := Bool.and_eq_true_iff.mp h
            rw [ha, hb]
            simp only
            rw [of_decide_eq_true hkind, of_decide_eq_true hvalue]
          case h_3 ha hb =>
            obtain ⟨hparent, hvalue⟩ := Bool.and_eq_true_iff.mp h
            rw [ha, hb]
            simp only
            rw [of_decide_eq_true hparent, of_decide_eq_true hvalue]
          case h_4 => exact absurd h Bool.false_ne_true

/-- The kinds of targets. -/
theorem targetOf_cases (sym : Nat) (addend : UInt64) :
    targetOf O sym addend = .symbol sym addend ∨
      ∃ d, O.defined sym = some d ∧ d.scriptDefined = false ∧ d.isPreemptible = false ∧
        (d.sec = none ∧ targetOf O sym addend = .absolute (d.value + addend) ∨
          (∃ x, d.sec = some (.input x) ∧
            targetOf O sym addend = .input (O.isec x).isSynthetic (d.value + addend)) ∨
          ∃ x, d.sec = some (.merge x) ∧
            targetOf O sym addend = .merged (O.merge x).parent (mergeOffset O x d addend)) := by
  unfold targetOf
  split
  case h_1 => exact Or.inl rfl
  case h_2 d hd =>
    split
    case isTrue => exact Or.inl rfl
    case isFalse hfixed =>
      rw [Bool.or_eq_true, not_or, Bool.not_eq_true, Bool.not_eq_true] at hfixed
      obtain ⟨hscript, hpreemptible⟩ := hfixed
      split
      case h_1 hsec => exact Or.inr ⟨d, hd, hscript, hpreemptible, Or.inl ⟨hsec, rfl⟩⟩
      case h_2 x hsec =>
        exact Or.inr ⟨d, hd, hscript, hpreemptible, Or.inr (Or.inl ⟨x, hsec, rfl⟩)⟩
      case h_3 x hsec =>
        exact Or.inr ⟨d, hd, hscript, hpreemptible, Or.inr (Or.inr ⟨x, hsec, rfl⟩)⟩
      case h_4 => exact Or.inl rfl

/-- Two symbols with one target: defined and fixed, absolute or in sections of one kind. -/
theorem sections_of_target (h : target O ra = target O rb) (hsym : ra.sym ≠ rb.sym) :
    ∃ da db, O.defined ra.sym = some da ∧ O.defined rb.sym = some db ∧
      (da.scriptDefined = false ∧ da.isPreemptible = false ∧ db.scriptDefined = false ∧
        db.isPreemptible = false) ∧
      (da.sec = none ∧ db.sec = none ∧ da.value + ra.addend = db.value + rb.addend ∨
        (∃ x y, da.sec = some (.input x) ∧ db.sec = some (.input y) ∧
          (O.isec x).isSynthetic = (O.isec y).isSynthetic ∧
          da.value + ra.addend = db.value + rb.addend) ∨
        ∃ x y, da.sec = some (.merge x) ∧ db.sec = some (.merge y) ∧
          (O.merge x).parent = (O.merge y).parent ∧
          mergeOffset O x da ra.addend = mergeOffset O y db rb.addend) := by
  unfold target at h
  rcases targetOf_cases (O := O) ra.sym ra.addend with ha | ⟨da, hda, hsa, hpa, ha⟩
  · rw [ha] at h
    rcases targetOf_cases (O := O) rb.sym rb.addend with hb | ⟨db, -, -, -, hb⟩
    · rw [hb] at h
      exact absurd (Target.symbol.inj h).1 hsym
    · rcases hb with ⟨-, hb⟩ | ⟨y, -, hb⟩ | ⟨y, -, hb⟩ <;> rw [hb] at h <;> cases h
  · rcases targetOf_cases (O := O) rb.sym rb.addend with hb | ⟨db, hdb, hsb, hpb, hb⟩
    · rcases ha with ⟨-, ha⟩ | ⟨x, -, ha⟩ | ⟨x, -, ha⟩ <;> rw [ha, hb] at h <;> cases h
    · refine ⟨da, db, hda, hdb, ⟨hsa, hpa, hsb, hpb⟩, ?_⟩
      rcases ha with ⟨ha, hta⟩ | ⟨x, ha, hta⟩ | ⟨x, ha, hta⟩
      · rcases hb with ⟨hb, htb⟩ | ⟨y, hb, htb⟩ | ⟨y, hb, htb⟩ <;> rw [hta, htb] at h
        · exact Or.inl ⟨ha, hb, Target.absolute.inj h⟩
        · cases h
        · cases h
      · rcases hb with ⟨hb, htb⟩ | ⟨y, hb, htb⟩ | ⟨y, hb, htb⟩ <;> rw [hta, htb] at h
        · cases h
        · exact Or.inr (Or.inl ⟨x, y, ha, hb, Target.input.inj h⟩)
        · cases h
      · rcases hb with ⟨hb, htb⟩ | ⟨y, hb, htb⟩ | ⟨y, hb, htb⟩ <;> rw [hta, htb] at h
        · cases h
        · cases h
        · exact Or.inr (Or.inr ⟨x, y, ha, hb, Target.merged.inj h⟩)

/-- The constant comparison of two relocations with one target fails only for one symbol with two
addends. -/
theorem relocConstantEq_of_target (hoffset : ra.offset = rb.offset) (htype : ra.type = rb.type)
    (h : target O ra = target O rb) (haddend : ra.sym = rb.sym → ra.addend = rb.addend) :
    relocConstantEq O ra rb = true := by
  unfold relocConstantEq
  rw [if_neg (not_or.mpr ⟨not_not.mpr hoffset, not_not.mpr htype⟩)]
  split
  case isTrue hsym => exact decide_eq_true (haddend hsym)
  case isFalse hsym =>
    obtain ⟨da, db, hda, hdb, ⟨hsa, hpa, hsb, hpb⟩, hsec⟩ := sections_of_target h hsym
    rw [hda, hdb]
    simp only [hsa, hpa, hsb, hpb, Bool.or_self, Bool.false_eq_true, if_false]
    rcases hsec with ⟨ha, hb, hvalue⟩ | ⟨x, y, ha, hb, hkind, hvalue⟩ | ⟨x, y, ha, hb, hparent, hvalue⟩
    · rw [ha, hb]
      exact decide_eq_true hvalue
    · rw [ha, hb]
      exact Bool.and_eq_true_iff.mpr ⟨decide_eq_true hkind, decide_eq_true hvalue⟩
    · rw [ha, hb]
      exact Bool.and_eq_true_iff.mpr ⟨decide_eq_true hparent, decide_eq_true hvalue⟩

/-- **The variable comparison** of two relocations with one target. -/
theorem relocVariableEq_iff (h : target O ra = target O rb) :
    relocVariableEq O κ ra rb = true ↔ movingKey O κ ra = movingKey O κ rb := by
  unfold relocVariableEq
  split
  case isTrue hsym =>
    refine iff_of_true rfl ?_
    unfold movingKey inputOf
    rw [hsym]
  case isFalse hsym =>
    obtain ⟨da, db, hda, hdb, -, hsec⟩ := sections_of_target h hsym
    unfold movingKey inputOf
    rw [hda, hdb]
    rcases hsec with ⟨ha, hb, -⟩ | ⟨x, y, ha, hb, -⟩ | ⟨x, y, ha, hb, -⟩
    · simp only [ha, hb]
      exact iff_of_true trivial rfl
    · simp only [ha, hb, Option.map_some, Option.some_inj, Bool.and_eq_true, decide_eq_true_iff]
      constructor
      · rintro ⟨hx, hxy⟩
        rw [if_neg hx, if_neg (hxy ▸ hx), hxy]
      · intro hkey
        split at hkey
        case isTrue hx =>
          split at hkey
          case isTrue => exact absurd (Prod.mk.inj hkey).2 hsym
          case isFalse => exact absurd (Prod.mk.inj hkey).1 (by decide)
        case isFalse hx =>
          split at hkey
          case isTrue => exact absurd (Prod.mk.inj hkey).1 (by decide)
          case isFalse => exact ⟨hx, (Prod.mk.inj hkey).2⟩
    · simp only [ha, hb]
      exact iff_of_true trivial rfl

/-! ## Sections -/

variable {a b : Nat}

theorem all_zip_iff {α : Type} {f : α → α → Bool} {l l' : List α} (h : l.length = l'.length) :
    ((l.zip l').all fun p => f p.1 p.2) = true ↔ List.Forall₂ (fun x y => f x y = true) l l' := by
  rw [List.all_eq_true, List.forall₂_iff_zip]
  exact ⟨fun hall => ⟨h, fun hmem => hall _ hmem⟩, fun hall p hmem => hall.2 hmem⟩

/-- The constant comparison, as conditions. -/
theorem equalsConstant_iff :
    equalsConstant O a b = true ↔
      ((O.isec a).flags, (O.isec a).size, (O.isec a).content, (O.isec a).parent) =
          ((O.isec b).flags, (O.isec b).size, (O.isec b).content, (O.isec b).parent) ∧
        (O.isec a).rels.isEmpty = (O.isec b).rels.isEmpty ∧
        List.Forall₂ (fun ra rb => relocConstantEq O ra rb = true) (relsOrRelas O a) (relsOrRelas O b) := by
  have hlists : ∀ l l' : List Reloc, constantEq O l l' = true ↔
      List.Forall₂ (fun ra rb => relocConstantEq O ra rb = true) l l' := by
    intro l l'
    rw [constantEq, Bool.and_eq_true, decide_eq_true_iff]
    refine ⟨fun h => (all_zip_iff h.1).mp h.2, fun h => ⟨h.length_eq, (all_zip_iff h.length_eq).mpr h⟩⟩
  have hrels : (if (O.isec a).rels ≠ [] ∨ (O.isec b).rels ≠ [] then
        constantEq O (O.isec a).rels (O.isec b).rels
      else constantEq O (O.isec a).relas (O.isec b).relas) = true ↔
      (O.isec a).rels.isEmpty = (O.isec b).rels.isEmpty ∧
        List.Forall₂ (fun ra rb => relocConstantEq O ra rb = true) (relsOrRelas O a) (relsOrRelas O b) := by
    unfold relsOrRelas
    cases ha : (O.isec a).rels with
    | nil =>
      cases hb : (O.isec b).rels with
      | nil => simp [hlists]
      | cons rb l => simp [hlists]
    | cons ra l =>
      cases hb : (O.isec b).rels with
      | nil => simp [hlists]
      | cons rb l' => simp [hlists]
  unfold equalsConstant
  simp only [Bool.and_eq_true, decide_eq_true_iff, hrels, Prod.mk.injEq, and_assoc]

/-- The parts of a key. -/
theorem sectionKey_eq_iff :
    sectionKey O a = sectionKey O b ↔
      ((O.isec a).flags, (O.isec a).size, (O.isec a).content, (O.isec a).parent) =
          ((O.isec b).flags, (O.isec b).size, (O.isec b).content, (O.isec b).parent) ∧
        (O.isec a).rels.isEmpty = (O.isec b).rels.isEmpty ∧
        List.Forall₂ (fun ra rb => ra.offset = rb.offset ∧ ra.type = rb.type ∧ target O ra = target O rb)
          (relsOrRelas O a) (relsOrRelas O b) := by
  have hlist : ∀ l l' : List Reloc, (l.map fun r => (r.offset, r.type, target O r)) =
      (l'.map fun r => (r.offset, r.type, target O r)) ↔
      List.Forall₂ (fun ra rb => ra.offset = rb.offset ∧ ra.type = rb.type ∧ target O ra = target O rb)
        l l' := by
    intro l l'
    rw [← List.forall₂_eq_eq_eq, List.forall₂_map_left_iff, List.forall₂_map_right_iff]
    simp only [Prod.mk.injEq]
  exact Prod.mk_inj.trans (and_congr_right fun _ => Prod.mk_inj.trans (and_congr_right fun _ => hlist _ _))

/-- **What is constant-equal** has one key. -/
theorem sectionKey_of_equalsConstant (h : equalsConstant O a b = true) :
    sectionKey O a = sectionKey O b := by
  obtain ⟨hfixed, hempty, hrelocs⟩ := equalsConstant_iff.mp h
  exact sectionKey_eq_iff.mpr ⟨hfixed, hempty, hrelocs.imp fun _ _ => relocConstantEq_target⟩

/-- **One key** makes sections constant-equal, when no symbol has two addends that lead to one
place. -/
theorem equalsConstant_of_sectionKey (h : sectionKey O a = sectionKey O b)
    (hexact : ∀ ra ∈ relsOrRelas O a, ∀ rb ∈ relsOrRelas O b, ra.sym = rb.sym →
      target O ra = target O rb → ra.addend = rb.addend) : equalsConstant O a b = true := by
  obtain ⟨hfixed, hempty, hrelocs⟩ := sectionKey_eq_iff.mp h
  refine equalsConstant_iff.mpr ⟨hfixed, hempty, ?_⟩
  rw [List.forall₂_iff_zip] at hrelocs ⊢
  refine ⟨hrelocs.1, fun {ra rb} hmem => ?_⟩
  obtain ⟨hoffset, htype, htarget⟩ := hrelocs.2 hmem
  obtain ⟨ha, hb⟩ := List.of_mem_zip hmem
  exact relocConstantEq_of_target hoffset htype htarget fun hsym => hexact ra ha rb hb hsym htarget

/-- **The variable comparison** of two sections with one key. -/
theorem equalsVariable_iff (h : sectionKey O a = sectionKey O b) :
    equalsVariable O κ a b = true ↔ movingKeys O κ a = movingKeys O κ b := by
  obtain ⟨-, hempty, hrelocs⟩ := sectionKey_eq_iff.mp h
  have hvariable : equalsVariable O κ a b = variableEq O κ (relsOrRelas O a) (relsOrRelas O b) := by
    unfold equalsVariable relsOrRelas
    cases ha : (O.isec a).rels with
    | nil =>
      cases hb : (O.isec b).rels with
      | nil => simp [ha, hb]
      | cons rb l => rw [ha, hb] at hempty; exact absurd hempty (by simp)
    | cons ra l =>
      cases hb : (O.isec b).rels with
      | nil => rw [ha, hb] at hempty; exact absurd hempty (by simp)
      | cons rb l' => simp [ha, hb]
  rw [hvariable, variableEq, all_zip_iff hrelocs.length_eq]
  unfold movingKeys
  rw [← List.forall₂_eq_eq_eq, List.forall₂_map_left_iff, List.forall₂_map_right_iff,
    List.forall₂_iff_zip, List.forall₂_iff_zip]
  refine and_congr_right fun _ => ?_
  refine ⟨fun hall ra rb hmem => ?_, fun hall ra rb hmem => ?_⟩
  · exact (relocVariableEq_iff ((List.forall₂_iff_zip.mp hrelocs).2 hmem).2.2).mp (hall hmem)
  · exact (relocVariableEq_iff ((List.forall₂_iff_zip.mp hrelocs).2 hmem).2.2).mpr (hall hmem)

theorem relocConstantEq_self (r : Reloc) : relocConstantEq O r r = true :=
  relocConstantEq_of_target rfl rfl rfl fun _ => rfl

theorem equalsConstant_self (s : Nat) : equalsConstant O s s = true := by
  refine equalsConstant_iff.mpr ⟨rfl, rfl, ?_⟩
  exact List.forall₂_same.mpr fun r _ => relocConstantEq_self r

theorem equalsVariable_self (κ : Nat → Nat) (s : Nat) : equalsVariable O κ s s = true :=
  (equalsVariable_iff rfl).mpr rfl

end RvLlvm.Lld.ICF
