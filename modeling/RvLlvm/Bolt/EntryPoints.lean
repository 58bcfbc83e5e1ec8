import Mathlib.Data.List.Basic

/-!
# Secondary entry points

Model of `getSymbolForEntryID` and `getEntryIDForSymbol`
(`bolt/lib/Core/BinaryFunction.cpp:3422-3482`). Labels and symbols are numbers; `Labels` is the list
of its labels in the order of their offsets.

* `symbolLoop_eq`, `entryLoop_eq`: both loops count the secondary entry points of the labels they
  see.
* `entryIDs_succ`: behind the first one, an entry point has its own id.
* `entryIDs_iff`: the first secondary entry point shares the id of the primary one, so the two
  functions are inverse exactly where there is none.
-/

namespace RvLlvm.Bolt.EntryPoints

abbrev SymId := Nat

/-- The members of `BinaryFunction` that number entry points; `symbols` begins with
`getSymbol()`. -/
structure BinaryFunction where
  symbol : SymId
  aliases : List SymId
  hasCFG : Bool
  basicBlocks : List SymId
  labels : List SymId
  secondaryEntryPoints : List (SymId × SymId)
  deriving DecidableEq

/-- What the loops run into: `llvm_unreachable`. -/
inductive Unreachable
  | symbolNotFound
  deriving DecidableEq

namespace BinaryFunction

variable (F : BinaryFunction)

/-- `isMultiEntry`. -/
def isMultiEntry : Bool := !F.secondaryEntryPoints.isEmpty

/-- `getSecondaryEntryPointSymbol`. -/
def getSecondaryEntryPointSymbol (label : SymId) : Option SymId :=
  (F.secondaryEntryPoints.find? fun kv => kv.1 == label).map Prod.snd

/-- `getSymbols`. -/
def getSymbols : List SymId := F.symbol :: F.aliases

/-- The loops of `getSymbolForEntryID`, over the labels left. -/
def symbolLoop (entryID : Nat) : Nat → List SymId → Option SymId
  | _, [] => none
  | numEntries, label :: rest =>
    match F.getSecondaryEntryPointSymbol label with
    | none => symbolLoop entryID numEntries rest
    | some entrySymbol =>
      if numEntries = entryID then some entrySymbol else symbolLoop entryID (numEntries + 1) rest

/-- `getSymbolForEntryID`. -/
def getSymbolForEntryID (entryID : Nat) : Option SymId :=
  if entryID = 0 then some F.symbol
  else if !F.isMultiEntry then none
  else if F.hasCFG then F.symbolLoop entryID 0 F.basicBlocks
  else F.symbolLoop entryID 0 F.labels

/-- The loops of `getEntryIDForSymbol`, over the labels left. -/
def entryLoop (symbol : SymId) : Nat → List SymId → Option Nat
  | _, [] => none
  | numEntries, label :: rest =>
    match F.getSecondaryEntryPointSymbol label with
    | none => entryLoop symbol numEntries rest
    | some entrySymbol =>
      if entrySymbol = symbol then some numEntries else entryLoop symbol (numEntries + 1) rest

/-- `getEntryIDForSymbol`. -/
def getEntryIDForSymbol (symbol : SymId) : Except Unreachable Nat :=
  if !F.isMultiEntry then .ok 0
  else if symbol ∈ F.getSymbols then .ok 0
  else
    match F.entryLoop symbol 0 F.basicBlocks with
    | some entryID => .ok entryID
    | none =>
      match F.entryLoop symbol 0 F.labels with
      | some entryID => .ok entryID
      | none => .error .symbolNotFound

/-! ## What the loops count -/

/-- The secondary entry points of some labels, in order. -/
def entriesOf (labels : List SymId) : List SymId := labels.filterMap F.getSecondaryEntryPointSymbol

/-- The secondary entry points of the function in its state. -/
def secondaryEntries : List SymId := F.entriesOf (if F.hasCFG then F.basicBlocks else F.labels)

variable {F}

theorem symbolLoop_eq (entryID : Nat) : ∀ (n : Nat) (labels : List SymId), n ≤ entryID →
    F.symbolLoop entryID n labels = (F.entriesOf labels)[entryID - n]?
  | _, [], _ => rfl
  | n, label :: rest, hn => by
    rw [symbolLoop, entriesOf, List.filterMap_cons]
    cases F.getSecondaryEntryPointSymbol label with
    | none => exact symbolLoop_eq entryID n rest hn
    | some entrySymbol =>
      simp only
      split
      · next heq => rw [heq, Nat.sub_self, List.getElem?_cons_zero]
      · next hne =>
        obtain ⟨k, hk⟩ := Nat.exists_eq_add_of_lt (Nat.lt_of_le_of_ne hn hne)
        rw [symbolLoop_eq entryID (n + 1) rest (by omega), show entryID - n = k + 1 by omega,
          show entryID - (n + 1) = k by omega, List.getElem?_cons_succ]
        rfl

theorem entryLoop_eq (symbol : SymId) : ∀ (n : Nat) (labels : List SymId),
    F.entryLoop symbol n labels = ((F.entriesOf labels).idxOf? symbol).map (n + ·)
  | _, [] => rfl
  | n, label :: rest => by
    rw [entryLoop, entriesOf, List.filterMap_cons]
    cases F.getSecondaryEntryPointSymbol label with
    | none => exact entryLoop_eq symbol n rest
    | some entrySymbol =>
      simp only [List.idxOf?_cons]
      split
      · next heq => simp [heq]
      · next hne =>
        rw [if_neg (by simpa using hne), entryLoop_eq symbol (n + 1) rest, Option.map_map]
        refine Option.map_congr fun k _ => ?_
        simp only [Function.comp]
        omega

/-- A function as it is before and with a CFG: blocks come with the CFG, and the symbols of
secondary entry points are their own. -/
structure WellFormed (F : BinaryFunction) : Prop where
  blocks : F.hasCFG = false → F.basicBlocks = []
  own : ∀ s ∈ F.secondaryEntries, s ∉ F.getSymbols
  distinct : F.secondaryEntries.Nodup

theorem isMultiEntry_of_mem {s : SymId} {labels : List SymId} (h : s ∈ F.entriesOf labels) :
    F.isMultiEntry = true := by
  obtain ⟨label, _, hlabel⟩ := List.mem_filterMap.mp h
  unfold getSecondaryEntryPointSymbol at hlabel
  rw [isMultiEntry]
  cases hlist : F.secondaryEntryPoints with
  | nil =>
    rw [hlist] at hlabel
    exact absurd hlabel (by simp)
  | cons kv rest => rfl

/-- The id of a secondary entry point is its place among them. -/
theorem getEntryIDForSymbol_entry (hwf : F.WellFormed) {s : SymId} (hs : s ∈ F.secondaryEntries) :
    F.getEntryIDForSymbol s = .ok (F.secondaryEntries.idxOf s) := by
  have hidx : ∀ labels, s ∈ F.entriesOf labels →
      F.entryLoop s 0 labels = some ((F.entriesOf labels).idxOf s) := fun labels h => by
    obtain ⟨i, hi⟩ := Option.isSome_iff_exists.mp (List.isSome_idxOf?.mpr h)
    rw [entryLoop_eq, List.idxOf_eq_getD_idxOf?, hi]
    simp
  rw [getEntryIDForSymbol, isMultiEntry_of_mem hs, if_neg (by simp), if_neg (hwf.own s hs)]
  unfold secondaryEntries at hs ⊢
  cases hcfg : F.hasCFG with
  | true =>
    rw [hcfg, if_pos rfl] at hs
    rw [hidx _ hs]
    rfl
  | false =>
    rw [hcfg, if_neg Bool.false_ne_true] at hs
    rw [hwf.blocks hcfg, hidx _ hs]
    rfl

theorem getEntryIDForSymbol_primary {s : SymId} (hs : s ∈ F.getSymbols) :
    F.getEntryIDForSymbol s = .ok 0 := by
  rw [getEntryIDForSymbol, if_pos hs, ite_self]

/-- The symbol of an id but the primary one. -/
theorem getSymbolForEntryID_succ (F : BinaryFunction) (n : Nat) :
    F.getSymbolForEntryID (n + 1) = F.secondaryEntries[n + 1]? := by
  rw [getSymbolForEntryID, if_neg (Nat.succ_ne_zero n), secondaryEntries]
  cases hmulti : F.isMultiEntry with
  | false =>
    have hnone : ∀ labels, F.entriesOf labels = [] := fun labels =>
      List.eq_nil_iff_forall_not_mem.mpr fun s hs => by
        rw [isMultiEntry_of_mem hs] at hmulti
        exact absurd hmulti (by simp)
    rw [hnone]
    rfl
  | true =>
    rw [Bool.not_true, if_neg Bool.false_ne_true]
    cases F.hasCFG <;> exact symbolLoop_eq (n + 1) 0 _ (Nat.zero_le _)

/-! ## Ids and symbols -/

/-- **Entry ids and entry symbols are inverse**: each secondary symbol comes back from its id, each
primary one as the primary symbol, and distinct entries have distinct ids. -/
structure Inverse (F : BinaryFunction) : Prop where
  secondary : ∀ s ∈ F.secondaryEntries, ∃ entryID, F.getEntryIDForSymbol s = .ok entryID ∧
    F.getSymbolForEntryID entryID = some s
  primary : ∀ s ∈ F.getSymbols, ∃ entryID, F.getEntryIDForSymbol s = .ok entryID ∧
    F.getSymbolForEntryID entryID = some F.symbol
  distinct : ∀ s ∈ F.symbol :: F.secondaryEntries, ∀ t ∈ F.symbol :: F.secondaryEntries,
    F.getEntryIDForSymbol s = F.getEntryIDForSymbol t → s = t

/-- Behind the first one, a secondary entry point comes back from its id. -/
theorem entryIDs_succ (hwf : F.WellFormed) {n : Nat} (hn : n + 1 < F.secondaryEntries.length) :
    F.getEntryIDForSymbol (F.secondaryEntries.get ⟨n + 1, hn⟩) = .ok (n + 1) ∧
      F.getSymbolForEntryID (n + 1) = some (F.secondaryEntries.get ⟨n + 1, hn⟩) := by
  constructor
  · rw [getEntryIDForSymbol_entry hwf (List.get_mem _ _), List.get_eq_getElem,
      List.Nodup.idxOf_getElem hwf.distinct]
  · rw [getSymbolForEntryID_succ]
    exact List.getElem?_eq_getElem hn

/-- The first secondary entry point has the id of the primary one. -/
theorem entryIDs_first (hwf : F.WellFormed) {s : SymId} {rest : List SymId}
    (h : F.secondaryEntries = s :: rest) :
    F.getEntryIDForSymbol s = .ok 0 ∧ F.getSymbolForEntryID 0 = some F.symbol ∧ s ≠ F.symbol := by
  have hs : s ∈ F.secondaryEntries := by
    rw [h]
    exact List.mem_cons_self
  refine ⟨?_, rfl, fun heq => hwf.own s hs ?_⟩
  · rw [getEntryIDForSymbol_entry hwf hs, h, List.idxOf_cons_self]
  · rw [heq]
    exact List.mem_cons_self

/-- **Ids and symbols are inverse exactly where there is no secondary entry point.** -/
theorem entryIDs_iff (F : BinaryFunction) (hwf : F.WellFormed) :
    F.Inverse ↔ F.secondaryEntries = [] := by
  constructor
  · intro hinv
    cases h : F.secondaryEntries with
    | nil => rfl
    | cons s rest =>
      obtain ⟨hid, hsymbol, hne⟩ := entryIDs_first hwf h
      obtain ⟨entryID, hid', hback⟩ := hinv.secondary s (by
        rw [h]
        exact List.mem_cons_self)
      obtain rfl := Except.ok.inj (hid.symm.trans hid')
      rw [hsymbol] at hback
      exact absurd (Option.some.inj hback).symm hne
  · intro hnone
    refine ⟨fun s hs => ?_, fun s hs => ⟨0, getEntryIDForSymbol_primary hs, rfl⟩,
      fun s hs t ht _ => ?_⟩
    · rw [hnone] at hs
      exact absurd hs List.not_mem_nil
    · rw [hnone] at hs ht
      rw [List.mem_singleton.mp hs, List.mem_singleton.mp ht]

/-- A function of one block, with one symbol. -/
def oneEntry : BinaryFunction := ⟨7, [], true, [1], [1], []⟩

theorem entryIDs_oneEntry : oneEntry.Inverse ↔ oneEntry.secondaryEntries = [] :=
  entryIDs_iff oneEntry ⟨by decide, by decide, by decide⟩

/-- Its second block is an entry point as well. -/
def twoEntries : BinaryFunction := ⟨7, [], true, [1, 2], [1, 2], [(2, 8)]⟩

/-- And its third. -/
def threeEntries : BinaryFunction := ⟨7, [], true, [1, 2, 3], [1, 2, 3], [(2, 8), (3, 9)]⟩

theorem entryIDs_succ_threeEntries :
    threeEntries.getEntryIDForSymbol 9 = .ok 1 ∧ threeEntries.getSymbolForEntryID 1 = some 9 :=
  entryIDs_succ (F := threeEntries) (n := 0) ⟨by decide, by decide, by decide⟩ (by decide)

/-- The secondary entry point has id 0, which is the primary one's. -/
theorem not_inverse_twoEntries : ¬ twoEntries.Inverse := by
  intro hinv
  have hmem : (8 : SymId) ∈ twoEntries.secondaryEntries := by decide
  obtain ⟨entryID, hid, hback⟩ := hinv.secondary 8 hmem
  have hzero : twoEntries.getEntryIDForSymbol 8 = .ok 0 := rfl
  obtain rfl := Except.ok.inj (hzero.symm.trans hid)
  exact absurd hback (by decide)

end BinaryFunction

end RvLlvm.Bolt.EntryPoints
