import RvLlvm.Mc.AsmBackend

/-!
# Resolving pc-relative pairs

Model of `RISCVAsmBackend::evaluateTargetFixup`
(`llvm/lib/Target/RISCV/MCTargetDesc/RISCVAsmBackend.cpp:537-596`) with `getPCRelHiFixup`
(`RISCVMCExpr.cpp:49-92`) and the writer's `isSymbolRefDifferenceFullyResolvedImpl`
(`llvm/lib/MC/ELFObjectWriter.cpp:1523-1535`). A fragment and a symbol are numbers, and a fixup
carries what its expressions evaluate to.

* `Layout`: the offsets of a layout, with the two facts that the pairs rest on.
* `getPCRelHiFixup_address`: the `auipc` that is found stands at the label.
* `denotes_iff`: a resolved value is the distance to the symbol exactly when the search for the
  `auipc` succeeds and the distance fits the pair.
-/

namespace RvLlvm.Mc

open RvLlvm.Support RvLlvm.Support.Rv

/-- The fixup kinds that the pairs involve. -/
inductive PcrelKind
  | pcrelHi20
  | gotHi20
  | tlsGotHi20
  | tlsGdHi20
  | pcrelLo12I
  | pcrelLo12S
  | other
  deriving DecidableEq

/-- The kinds of an `auipc`. -/
def PcrelKind.isHi : PcrelKind → Bool
  | pcrelHi20 | gotHi20 | tlsGotHi20 | tlsGdHi20 => true
  | _ => false

/-- The kinds that name the label of an `auipc`. -/
def PcrelKind.isLo : PcrelKind → Bool
  | pcrelLo12I | pcrelLo12S => true
  | _ => false

/-- `MCSymbolRefExpr`. `plain` is `VK_None`. -/
structure SymbolRef where
  symbol : Nat
  plain : Bool

/-- `MCValue`. -/
structure MCValue where
  symA : Option SymbolRef
  symB : Option SymbolRef
  constant : Int

/-- `MCFixup`. -/
structure Fixup where
  kind : PcrelKind
  offset : Nat
  /-- `evaluateAsRelocatable` of its expression. -/
  value : Option MCValue
  /-- `evaluateAsRelocatable` of the operand of its expression. -/
  subExpr : Option MCValue

/-- `MCFragment`; a data fragment has contents and fixups. -/
structure Fragment where
  parent : Nat
  isData : Bool
  size : Nat
  fixups : List Fixup
  nextNode : Option Nat

/-- `MCSymbolELF`. -/
structure Symbol where
  fragment : Option Nat
  isVariable : Bool
  offset : Nat
  isLocal : Bool
  isIFunc : Bool

/-- `MCAssembler` with the options of its backend. -/
structure Assembler where
  fragment : Nat → Fragment
  symbol : Nat → Symbol
  hasWriter : Bool
  relax : Bool
  forceRelocs : Bool
  is64Bit : Bool

/-- `MCAsmLayout`. -/
structure Layout (A : Assembler) where
  fragmentOffset : Nat → Nat
  symbolOffset : Nat → Nat
  /-- `layoutFragment`. -/
  next_offset : ∀ {i j}, (A.fragment i).isData = true → (A.fragment i).nextNode = some j →
    fragmentOffset j = fragmentOffset i + (A.fragment i).size
  /-- `getLabelOffset`. -/
  label_offset : ∀ {s i}, (A.symbol s).isVariable = false → (A.symbol s).fragment = some i →
    symbolOffset s = fragmentOffset i + (A.symbol s).offset

/-- What `evaluateTargetFixup` returns and sets. -/
structure Evaluation where
  resolved : Bool
  value : Nat
  wasForced : Bool
  deriving DecidableEq

namespace Assembler

variable (A : Assembler)

/-- `dyn_cast_or_null<MCDataFragment>`. -/
def dataFragment? (i : Option Nat) : Option Nat := i.filter fun i => (A.fragment i).isData

/-- Where the `auipc` of a label is looked for: a label at the end of a fragment is at the start of
the next. -/
def auipcPlace (symbol : Symbol) : Option (Nat × Nat) := do
  let df ← A.dataFragment? symbol.fragment
  if (A.fragment df).size = symbol.offset then
    let next ← A.dataFragment? (A.fragment df).nextNode
    return (next, 0)
  else
    return (df, symbol.offset)

/-- `getPCRelHiFixup`. -/
def getPCRelHiFixup (F : Fixup) : Option (Fixup × Nat) := do
  let auipcLoc ← F.subExpr
  let auipcSRE ← auipcLoc.symA
  let (df, offset) ← A.auipcPlace (A.symbol auipcSRE.symbol)
  let g ← (A.fragment df).fixups.find? fun g => g.offset = offset && g.kind.isHi
  return (g, df)

/-- `shouldForceRelocation` on the fixup of an `auipc`. -/
def shouldForceRelocation (g : Fixup) : Bool :=
  match g.kind with
  | .gotHi20 | .tlsGotHi20 | .tlsGdHi20 => true
  | _ => A.relax || A.forceRelocs

/-- `isSymbolRefDifferenceFullyResolvedImpl` for a pc-relative reference; the second fragment is
that of the symbol. -/
def fullyResolved (symbol : Symbol) (df sf : Nat) : Bool :=
  symbol.isLocal && !symbol.isIFunc && (A.fragment sf).parent = (A.fragment df).parent

variable {A}

/-- The symbol and the constant, from the `auipc`. -/
def distance (L : Layout A) (g : Fixup) (df s : Nat) (constant : Int) : Int :=
  L.symbolOffset s + constant - (L.fragmentOffset df + g.offset)

/-- The value of a distance, an `uint64_t`. -/
def wrap (d : Int) : Nat := (d % 2 ^ 64).toNat

/-- `evaluateTargetFixup`, once the `auipc` is known. -/
def evaluateAUIPC (L : Layout A) (g : Fixup) (df : Nat) (target : MCValue) : Evaluation :=
  match target.symA, target.symB with
  | some a, none =>
    match (A.symbol a.symbol).fragment with
    | none => ⟨false, 0, false⟩
    | some sf =>
      if !a.plain || !A.hasWriter || !A.fullyResolved (A.symbol a.symbol) df sf then ⟨false, 0, false⟩
      else
        let value := wrap (distance L g df a.symbol target.constant)
        if A.shouldForceRelocation g then ⟨false, value, true⟩ else ⟨true, value, false⟩
  | _, _ => ⟨false, 0, false⟩

/-- `evaluateTargetFixup`. The value and the flag have been cleared. -/
def evaluateTargetFixup (L : Layout A) (F : Fixup) (df : Nat) (target : MCValue) : Evaluation :=
  match F.kind with
  | .pcrelLo12I | .pcrelLo12S =>
    match A.getPCRelHiFixup F with
    -- the report of this error is commented out
    | none => ⟨true, 0, false⟩
    | some (g, df) =>
      match g.value with
      | none => ⟨true, 0, false⟩
      | some target => evaluateAUIPC L g df target
  | _ => evaluateAUIPC L F df target

/-! ## The `auipc` of a fixup -/

section

variable {F g : Fixup} {df dg : Nat} {t : MCValue} {a : SymbolRef}

theorem dataFragment?_some {o : Option Nat} {i : Nat} (h : A.dataFragment? o = some i) :
    o = some i ∧ (A.fragment i).isData = true := by
  unfold dataFragment? at h
  exact Option.filter_eq_some_iff.mp h

/-- The place of the `auipc` is that of its label. -/
theorem auipcPlace_address (L : Layout A) {s offset : Nat}
    (h : A.auipcPlace (A.symbol s) = some (dg, offset)) (hvar : (A.symbol s).isVariable = false) :
    L.symbolOffset s = L.fragmentOffset dg + offset := by
  unfold auipcPlace at h
  obtain ⟨i, hi, h⟩ := Option.bind_eq_some_iff.mp h
  obtain ⟨hfragment, hdata⟩ := dataFragment?_some hi
  have hlabel := L.label_offset hvar hfragment
  split at h
  case isTrue hend =>
    obtain ⟨j, hj, h⟩ := Option.bind_eq_some_iff.mp h
    obtain ⟨rfl, rfl⟩ := Prod.mk.inj (Option.some.inj h)
    rw [hlabel, L.next_offset hdata (dataFragment?_some hj).1, hend, Nat.add_zero]
  case isFalse =>
    obtain ⟨rfl, rfl⟩ := Prod.mk.inj (Option.some.inj h)
    exact hlabel

/-- What the search finds. -/
theorem getPCRelHiFixup_some (h : A.getPCRelHiFixup F = some (g, dg)) :
    ∃ loc a, F.subExpr = some loc ∧ loc.symA = some a ∧
      A.auipcPlace (A.symbol a.symbol) = some (dg, g.offset) ∧ g ∈ (A.fragment dg).fixups ∧
      g.kind.isHi = true := by
  unfold getPCRelHiFixup at h
  obtain ⟨loc, hloc, h⟩ := Option.bind_eq_some_iff.mp h
  obtain ⟨a, ha, h⟩ := Option.bind_eq_some_iff.mp h
  obtain ⟨⟨i, offset⟩, hplace, h⟩ := Option.bind_eq_some_iff.mp h
  obtain ⟨g', hfind, h⟩ := Option.bind_eq_some_iff.mp h
  obtain ⟨rfl, rfl⟩ := Prod.mk.inj (Option.some.inj h)
  have hg := List.find?_some hfind
  rw [Bool.and_eq_true, decide_eq_true_iff] at hg
  exact ⟨loc, a, hloc, ha, hg.1 ▸ hplace, List.mem_of_find?_eq_some hfind, hg.2⟩

/-- **The `auipc` that is found** stands at the label. -/
theorem getPCRelHiFixup_address (L : Layout A) (h : A.getPCRelHiFixup F = some (g, dg))
    {loc : MCValue} (hloc : F.subExpr = some loc) (ha : loc.symA = some a)
    (hvar : (A.symbol a.symbol).isVariable = false) :
    L.symbolOffset a.symbol = L.fragmentOffset dg + g.offset := by
  obtain ⟨loc', a', hloc', ha', hplace, -, -⟩ := getPCRelHiFixup_some h
  obtain rfl := Option.some.inj (hloc.symm.trans hloc')
  obtain rfl := Option.some.inj (ha.symm.trans ha')
  exact auipcPlace_address L hplace hvar

/-! ## When a value is resolved -/

/-- A target that the `auipc` resolves. -/
structure Resolvable (A : Assembler) (g : Fixup) (dg : Nat) (t : MCValue) (a : SymbolRef) : Prop where
  symA : t.symA = some a
  symB : t.symB = none
  plain : a.plain = true
  writer : A.hasWriter = true
  section_eq : ∃ sf, (A.symbol a.symbol).fragment = some sf ∧
    A.fullyResolved (A.symbol a.symbol) dg sf = true
  unforced : A.shouldForceRelocation g = false

theorem Resolvable.evaluateAUIPC (L : Layout A) (h : Resolvable A g dg t a) :
    Assembler.evaluateAUIPC L g dg t = ⟨true, wrap (distance L g dg a.symbol t.constant), false⟩ := by
  obtain ⟨sf, hsf, hresolved⟩ := h.section_eq
  unfold Assembler.evaluateAUIPC
  rw [h.symA, h.symB]
  simp only [hsf, h.plain, h.writer, hresolved, h.unforced]
  rfl

theorem resolvable_of_resolved {L : Layout A} (h : (evaluateAUIPC L g dg t).resolved = true) :
    ∃ a, Resolvable A g dg t a := by
  unfold evaluateAUIPC at h
  split at h
  case h_2 => exact absurd h Bool.false_ne_true
  case h_1 a hA hB =>
    split at h
    case h_1 => exact absurd h Bool.false_ne_true
    case h_2 sf hsf =>
      split at h
      case isTrue => exact absurd h Bool.false_ne_true
      case isFalse hchecks =>
        rw [Bool.or_eq_true, Bool.or_eq_true, not_or, not_or, Bool.not_eq_true', Bool.not_eq_true',
          Bool.not_eq_true', Bool.not_eq_false, Bool.not_eq_false, Bool.not_eq_false] at hchecks
        obtain ⟨⟨hplain, hwriter⟩, hresolved⟩ := hchecks
        simp only at h
        split at h
        case isTrue => exact absurd h Bool.false_ne_true
        case isFalse hforce =>
          exact ⟨a, hA, hB, hplain, hwriter, ⟨sf, hsf, hresolved⟩, Bool.eq_false_iff.mpr hforce⟩

/-- Only the pc-relative kind is ever resolved. -/
theorem Resolvable.kind (h : Resolvable A g dg t a) (hhi : g.kind.isHi = true) :
    g.kind = .pcrelHi20 := by
  have hforce := h.unforced
  unfold shouldForceRelocation at hforce
  cases hkind : g.kind with
  | pcrelHi20 => rfl
  | gotHi20 | tlsGotHi20 | tlsGdHi20 => rw [hkind] at hforce; exact absurd hforce.symm Bool.false_ne_true
  | pcrelLo12I | pcrelLo12S | other => rw [hkind] at hhi; exact absurd hhi Bool.false_ne_true

end

/-! ## What the pair reaches -/

/-- What a pair of instructions adds to its address: `hi20(Value) << 12 + sext(lo12(Value))`. -/
def reached (value : Nat) : Int :=
  signExtend 32 (adjustFixupValue .pcrelHi20 value * 2 ^ 12) +
    signExtend 12 (adjustFixupValue .pcrelLo12I value)

/-- The distances that a pair covers in 64 bits. -/
def FitsPair (d : Int) : Prop := -2 ^ 31 - 2 ^ 11 ≤ d.bmod (2 ^ 64) ∧ d.bmod (2 ^ 64) < 2 ^ 31 - 2 ^ 11

theorem reached_eq (value : Nat) : reached value = ((value : Int) + 0x800).bmod (2 ^ 32) - 0x800 := by
  have hhi : adjustFixupValue .pcrelHi20 value * 2 ^ 12 =
      round value % 2 ^ 32 - round value % 2 ^ 12 := by
    rw [← Nat.shiftLeft_eq, ← scatter_span (by decide)]
    exact adjustFixupValue_shift (show ¬ FixupKind.IsCall .pcrelHi20 by decide) value
  have hlo : adjustFixupValue .pcrelLo12I value = value % 2 ^ 12 - value % 2 ^ 0 :=
    (scatter_span (show 0 < 12 by decide) value :)
  unfold reached
  rw [hhi, hlo, signExtend, signExtend, cast_mod_sub_mod (by decide), cast_mod_sub_mod (by decide)]
  unfold Rv.round
  push_cast
  simp only [Int.bmod_def]
  omega

/-- The width of an address. -/
def xlen (A : Assembler) : Nat := if A.is64Bit then 64 else 32

theorem cast_wrap (d : Int) : (wrap d : Int) = d % 2 ^ 64 :=
  Int.toNat_of_nonneg (Int.emod_nonneg d (by decide))

/-- A pair adds the distance, up to the width of an address. -/
theorem reached_wrap (A : Assembler) (d : Int) :
    (2 : Int) ^ A.xlen ∣ reached (wrap d) - d ↔ (A.is64Bit = true → FitsPair d) := by
  rw [reached_eq, cast_wrap]
  -- the sum without its rounding, in 32 bits
  have hsum : (2 : Int) ^ 32 ∣ (d % 2 ^ 64 + 0x800).bmod (2 ^ 32) - 0x800 - d := by
    rw [Int.bmod_def]
    split <;> omega
  have hlow : -2 ^ 31 ≤ (d % 2 ^ 64 + 0x800).bmod (2 ^ 32) := Int.le_bmod (by decide)
  have hhigh : (d % 2 ^ 64 + 0x800).bmod (2 ^ 32) < 2 ^ 31 := Int.bmod_lt (by decide)
  have hd : (2 : Int) ^ 64 ∣ d.bmod (2 ^ 64) - d := Int.dvd_bmod_sub_self
  unfold xlen FitsPair
  cases A.is64Bit with
  | true =>
    rw [if_pos rfl]
    refine ⟨fun h _ => ?_, fun h => ?_⟩
    · have hbmod : -2 ^ 63 ≤ d.bmod (2 ^ 64) := Int.le_bmod (by decide)
      have hbmod' : d.bmod (2 ^ 64) < 2 ^ 63 := Int.bmod_lt (by decide)
      omega
    · have hfits := h rfl
      omega
  | false =>
    rw [if_neg Bool.false_ne_true]
    exact iff_of_true hsum (fun h => absurd h Bool.false_ne_true)

/-! ## Which resolved fixups denote their symbol -/

section

variable {F g : Fixup} {df dg : Nat} {t target : MCValue} {a : SymbolRef}

/-- The `auipc` of a fixup: itself, or that of the label. -/
def Pairs (A : Assembler) (F : Fixup) (df : Nat) (g : Fixup) (dg : Nat) : Prop :=
  if F.kind.isLo then A.getPCRelHiFixup F = some (g, dg) else (g, dg) = (F, df)

/-- An `auipc` whose label the operand of the fixup is. -/
def AtLabel (L : Layout A) (F g : Fixup) (dg : Nat) : Prop :=
  ∀ loc a, F.subExpr = some loc → loc.symA = some a → (A.symbol a.symbol).isVariable = false →
    L.symbolOffset a.symbol = L.fragmentOffset dg + g.offset

/-- The value is that of the `auipc`, the distance from there to the symbol, and the pair reaches
it. -/
structure DenotesSymbol (L : Layout A) (E : Evaluation) (g : Fixup) (dg : Nat) (t : MCValue)
    (a : SymbolRef) : Prop where
  kind : g.kind = .pcrelHi20
  target : g.value = some t
  symA : t.symA = some a
  section_eq : ∃ sf, (A.symbol a.symbol).fragment = some sf ∧
    (A.fragment sf).parent = (A.fragment dg).parent
  value : (E.value : Int) = distance L g dg a.symbol t.constant % 2 ^ 64
  same : evaluateTargetFixup L g dg t = E
  reaches : (2 : Int) ^ A.xlen ∣
    (L.fragmentOffset dg + g.offset + reached E.value) - (L.symbolOffset a.symbol + t.constant)

/-- A fixup that is resolved has an `auipc` with a `%pcrel_hi`, and denotes its symbol. -/
def Denotes (L : Layout A) (F : Fixup) (df : Nat) (target : MCValue) : Prop :=
  (evaluateTargetFixup L F df target).resolved = true →
    ∃ g dg t a, Pairs A F df g dg ∧ (F.kind.isLo = true → AtLabel L F g dg) ∧
      DenotesSymbol L (evaluateTargetFixup L F df target) g dg t a

/-- The search of a `%pcrel_lo` finds an `auipc` with a target, and what is resolved is in reach. -/
structure Meets (L : Layout A) (F : Fixup) (df : Nat) : Prop where
  found : F.kind.isLo = true → ∃ p, A.getPCRelHiFixup F = some p ∧ p.1.value.isSome = true
  fits : A.is64Bit = true → ∀ g dg t a, Pairs A F df g dg → g.value = some t → Resolvable A g dg t a →
    FitsPair (distance L g dg a.symbol t.constant)

theorem evaluateTargetFixup_hi (L : Layout A) (h : F.kind.isLo = false) :
    evaluateTargetFixup L F df target = evaluateAUIPC L F df target := by
  unfold evaluateTargetFixup
  split
  case h_1 hkind => rw [hkind] at h; exact absurd h.symm Bool.false_ne_true
  case h_2 hkind => rw [hkind] at h; exact absurd h.symm Bool.false_ne_true
  case h_3 => rfl

theorem evaluateTargetFixup_isLo (L : Layout A) (h : F.kind.isLo = true) :
    evaluateTargetFixup L F df target =
      match A.getPCRelHiFixup F with
      | none => ⟨true, 0, false⟩
      | some (g, dg) =>
        match g.value with
        | none => ⟨true, 0, false⟩
        | some t => evaluateAUIPC L g dg t := by
  unfold evaluateTargetFixup
  split
  case h_1 => rfl
  case h_2 => rfl
  case h_3 hI hS =>
    cases hkind : F.kind with
    | pcrelLo12I => exact absurd hkind hI
    | pcrelLo12S => exact absurd hkind hS
    | pcrelHi20 | gotHi20 | tlsGotHi20 | tlsGdHi20 | other =>
      rw [hkind] at h
      exact absurd h Bool.false_ne_true

theorem evaluateTargetFixup_found (L : Layout A) (h : F.kind.isLo = true)
    (hfound : A.getPCRelHiFixup F = some (g, dg)) (ht : g.value = some t) :
    evaluateTargetFixup L F df target = evaluateAUIPC L g dg t := by
  rw [evaluateTargetFixup_isLo L h, hfound]
  simp only [ht]

/-- A `%pcrel_lo` without the `auipc` that it needs is resolved, with the value 0. -/
theorem evaluateTargetFixup_missing (L : Layout A) (h : F.kind.isLo = true)
    (hmissing : ∀ g dg, A.getPCRelHiFixup F = some (g, dg) → g.value = none) :
    evaluateTargetFixup L F df target = ⟨true, 0, false⟩ := by
  rw [evaluateTargetFixup_isLo L h]
  split
  case h_1 => rfl
  case h_2 g dg hfound => rw [hmissing g dg hfound]

/-- The evaluation of a fixup is that of its `auipc`. -/
theorem Pairs.evaluate (L : Layout A) (h : Pairs A F df g dg) (ht : g.value = some t)
    (htarget : F.value = some target) :
    evaluateTargetFixup L F df target = evaluateAUIPC L g dg t := by
  unfold Pairs at h
  split at h
  case isTrue hlo => exact evaluateTargetFixup_found L hlo h ht
  case isFalse hhi =>
    obtain ⟨rfl, rfl⟩ := Prod.mk.inj h
    obtain rfl := Option.some.inj (ht.symm.trans htarget)
    exact evaluateTargetFixup_hi L (Bool.eq_false_iff.mpr hhi)

theorem Pairs.unique {g' : Fixup} {dg' : Nat} (h : Pairs A F df g dg) (h' : Pairs A F df g' dg') :
    g = g' ∧ dg = dg' := by
  unfold Pairs at h h'
  split at h
  case isTrue hlo =>
    rw [if_pos hlo] at h'
    exact Prod.mk.inj (Option.some.inj (h.symm.trans h'))
  case isFalse hlo =>
    rw [if_neg hlo] at h'
    exact Prod.mk.inj (h.trans h'.symm)

/-- The `auipc` has one of its kinds. -/
theorem Pairs.isHi (h : Pairs A F df g dg) (hF : F.kind.isHi = true ∨ F.kind.isLo = true) :
    g.kind.isHi = true := by
  unfold Pairs at h
  split at h
  case isTrue =>
    obtain ⟨-, -, -, -, -, -, hhi⟩ := getPCRelHiFixup_some h
    exact hhi
  case isFalse hlo =>
    obtain ⟨rfl, rfl⟩ := Prod.mk.inj h
    exact hF.resolve_right hlo

theorem Pairs.atLabel (L : Layout A) (h : Pairs A F df g dg) (hlo : F.kind.isLo = true) :
    AtLabel L F g dg := by
  rw [Pairs, if_pos hlo] at h
  exact fun loc a hloc ha hvar => getPCRelHiFixup_address L h hloc ha hvar

/-- Once the `auipc` is resolved, the value is the distance from there. -/
theorem Resolvable.reaches_iff (L : Layout A) (h : Resolvable A g dg t a) :
    (2 : Int) ^ A.xlen ∣
        (L.fragmentOffset dg + g.offset + reached (Assembler.evaluateAUIPC L g dg t).value) -
          (L.symbolOffset a.symbol + t.constant) ↔
      (A.is64Bit = true → FitsPair (distance L g dg a.symbol t.constant)) := by
  rw [h.evaluateAUIPC, ← reached_wrap]
  have hdistance : (L.fragmentOffset dg + g.offset : Int) = L.symbolOffset a.symbol + t.constant -
      distance L g dg a.symbol t.constant := by
    unfold distance
    omega
  rw [hdistance]
  simp only
  rw [show ∀ x y r : Int, x - y + r - x = r - y by omega]

/-- **A resolved fixup denotes its symbol** exactly when the search of a `%pcrel_lo` succeeds and
the distance is in the reach of a pair. -/
theorem denotes_iff (L : Layout A) (hF : F.kind = .pcrelHi20 ∨ F.kind.isLo = true)
    (htarget : F.value = some target) : Denotes L F df target ↔ Meets L F df := by
  have hkinds : F.kind.isHi = true ∨ F.kind.isLo = true := hF.imp_left fun h => by rw [h]; rfl
  constructor
  · intro h
    refine ⟨fun hlo => ?_, fun h64 g dg t a hpairs ht hres => ?_⟩
    · by_contra hmissing
      have hnone : ∀ g dg, A.getPCRelHiFixup F = some (g, dg) → g.value = none := fun g dg hg =>
        Option.not_isSome_iff_eq_none.mp fun hv => hmissing ⟨(g, dg), hg, hv⟩
      have heval : evaluateTargetFixup L F df target = ⟨true, 0, false⟩ :=
        evaluateTargetFixup_missing L hlo hnone
      obtain ⟨g, dg, t, a, hpairs, -, hdenotes⟩ := h (by rw [heval])
      rw [Pairs, if_pos hlo] at hpairs
      exact absurd ((hnone g dg hpairs).symm.trans hdenotes.target) (by simp)
    · have heval := hpairs.evaluate L ht htarget
      obtain ⟨g', dg', t', a', hpairs', -, hdenotes⟩ := h (by rw [heval, hres.evaluateAUIPC])
      obtain ⟨rfl, rfl⟩ := hpairs.unique hpairs'
      obtain rfl := Option.some.inj (ht.symm.trans hdenotes.target)
      obtain rfl := Option.some.inj (hres.symA.symm.trans hdenotes.symA)
      have hreaches := hdenotes.reaches
      rw [heval] at hreaches
      exact (hres.reaches_iff L).mp hreaches h64
  · intro h hresolved
    -- the `auipc` and its target
    obtain ⟨g, dg, t, hpairs, ht⟩ : ∃ g dg t, Pairs A F df g dg ∧ g.value = some t := by
      by_cases hlo : F.kind.isLo = true
      · obtain ⟨⟨g, dg⟩, hfound, hv⟩ := h.found hlo
        obtain ⟨t, ht⟩ := Option.isSome_iff_exists.mp hv
        exact ⟨g, dg, t, by rwa [Pairs, if_pos hlo], ht⟩
      · exact ⟨F, df, target, by rw [Pairs, if_neg hlo], htarget⟩
    have heval := hpairs.evaluate L ht htarget
    rw [heval] at hresolved
    obtain ⟨a, hres⟩ := resolvable_of_resolved hresolved
    have hkind := hres.kind (hpairs.isHi hkinds)
    refine ⟨g, dg, t, a, hpairs, hpairs.atLabel L, ?_⟩
    rw [heval]
    obtain ⟨sf, hsf, hfully⟩ := hres.section_eq
    refine ⟨hkind, ht, hres.symA, ⟨sf, hsf, ?_⟩, ?_, ?_, ?_⟩
    · unfold fullyResolved at hfully
      exact of_decide_eq_true (Bool.and_eq_true_iff.mp hfully).2
    · rw [hres.evaluateAUIPC]
      exact cast_wrap _
    · exact evaluateTargetFixup_hi L (by rw [hkind]; rfl)
    · exact (hres.reaches_iff L).mpr fun h64 => h.fits h64 g dg t a hpairs ht hres

end

/-- A reference to a symbol. -/
def refTo (s : Nat) : MCValue := ⟨some ⟨s, true⟩, none, 0⟩

/-- An `auipc` at the symbol 0 for the symbol 1, which is 12 bytes on. -/
def storedHi : Fixup := ⟨.pcrelHi20, 0, some (refTo 1), none⟩

/-- A `%pcrel_lo` of the instruction behind the `auipc`, for a label. -/
def storedLo (label : Nat) : Fixup := ⟨.pcrelLo12I, 4, some (refTo label), some (refTo label)⟩

/-- Two data fragments of 8 bytes; the symbol 2 is at the second instruction. -/
def storedAssembler : Assembler where
  fragment
    | 0 => ⟨0, true, 8, [storedHi, storedLo 0], some 1⟩
    | _ => ⟨0, true, 8, [], none⟩
  symbol
    | 0 => ⟨some 0, false, 0, true, false⟩
    | 1 => ⟨some 1, false, 4, true, false⟩
    | 2 => ⟨some 0, false, 4, true, false⟩
    | _ => ⟨none, false, 0, false, false⟩
  hasWriter := true
  relax := false
  forceRelocs := false
  is64Bit := true

/-- The layout of the fragments, one behind the other. -/
def storedLayout : Layout storedAssembler where
  fragmentOffset i := 8 * i
  symbolOffset
    | 1 => 12
    | 2 => 4
    | _ => 0
  next_offset {i j} _ hnext := by
    match i with
    | 0 => obtain rfl := Option.some.inj hnext; rfl
    | _ + 1 => exact absurd hnext.symm (Option.some_ne_none j)
  label_offset {s i} _ hfragment := by
    match s with
    | 0 => obtain rfl := Option.some.inj hfragment; rfl
    | 1 => obtain rfl := Option.some.inj hfragment; rfl
    | 2 => obtain rfl := Option.some.inj hfragment; rfl
    | _ + 3 => exact absurd hfragment.symm (Option.some_ne_none i)

/-- A stored pair: the fixup of the second instruction is resolved with the value 12. -/
theorem denotes_storedLo :
    evaluateTargetFixup storedLayout (storedLo 0) 0 (refTo 0) = ⟨true, 12, false⟩ ∧
      (Denotes storedLayout (storedLo 0) 0 (refTo 0) ↔ Meets storedLayout (storedLo 0) 0) :=
  ⟨by decide, denotes_iff storedLayout (Or.inr rfl) rfl⟩

/-- The label of an instruction without a `%pcrel_hi`: the fixup is resolved. -/
theorem not_denotes_missing : ¬ Denotes storedLayout (storedLo 2) 0 (refTo 2) := by
  intro h
  obtain ⟨g, dg, t, a, hpairs, -, -⟩ := h (by decide)
  rw [Pairs, if_pos (by decide)] at hpairs
  exact absurd hpairs.symm (Option.some_ne_none _)

end Assembler
end RvLlvm.Mc
