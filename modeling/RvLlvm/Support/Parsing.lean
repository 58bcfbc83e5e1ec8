import Mathlib.Data.Nat.Digits.Defs
import Mathlib.Logic.Function.Basic

/-!
# Programs as bytes

A program is a row of instructions, and a parser reads one of them and gives back what is left.
Nothing here names an instruction set.

* `parseAll`: the parser is used until nothing is left.
* `parseAll_append`: two programs in a row are read one after the other, where the parser looks at
  no byte behind the instruction.
* `parseAll_single`: an instruction alone.
* `ofDigits_littleEndian`: an operand of a fixed width is read back modulo its width.
-/

namespace RvLlvm.Support.Parsing

variable {α β : Type*}

/-- `parse` until nothing is left, for at most `turns` turns. -/
def parseLoop (parse : List α → Option (β × List α)) : Nat → List α → Option (List β)
  | _, [] => some []
  | 0, _ :: _ => none
  | turns + 1, byte :: data =>
    match parse (byte :: data) with
    | none => none
    | some (i, rest) => (parseLoop parse turns rest).map (i :: ·)

/-- All instructions of a program; each takes a byte at least. -/
def parseAll (parse : List α → Option (β × List α)) (data : List α) : Option (List β) :=
  parseLoop parse data.length data

/-- What is behind an instruction does not change how it is read. -/
def LooksNoFurther (parse : List α → Option (β × List α)) : Prop :=
  ∀ ⦃data rest : List α⦄ ⦃i : β⦄, parse data = some (i, rest) →
    ∀ more, parse (data ++ more) = some (i, rest ++ more)

section Append

variable {parse : List α → Option (β × List α)} {data more : List α}

theorem parseLoop_mono {turns turns' : Nat} {is : List β} (h : parseLoop parse turns data = some is)
    (hle : turns ≤ turns') : parseLoop parse turns' data = some is := by
  induction turns generalizing turns' data is with
  | zero =>
    cases data with
    | nil =>
      obtain rfl := Option.some.inj h
      cases turns' <;> rfl
    | cons byte data => exact absurd h (by simp [parseLoop])
  | succ turns ih =>
    obtain ⟨t, rfl⟩ := Nat.exists_eq_add_of_le' (Nat.le_trans (Nat.succ_pos turns) hle)
    cases data with
    | nil => exact h
    | cons byte data =>
      rw [parseLoop] at h ⊢
      split at h
      · exact absurd h (by simp)
      · next i r hfirst =>
        obtain ⟨tail, htail, rfl⟩ := Option.map_eq_some_iff.mp h
        rw [ih htail (by omega)]
        rfl

theorem parseLoop_append (hparse : LooksNoFurther parse) {turns turns' : Nat} {is js : List β}
    (h : parseLoop parse turns data = some is) (h' : parseLoop parse turns' more = some js) :
    parseLoop parse (turns + turns') (data ++ more) = some (is ++ js) := by
  induction turns generalizing data is with
  | zero =>
    cases data with
    | nil =>
      obtain rfl := Option.some.inj h
      rwa [Nat.zero_add]
    | cons byte data => exact absurd h (by simp [parseLoop])
  | succ turns ih =>
    cases data with
    | nil =>
      obtain rfl := Option.some.inj h
      exact parseLoop_mono h' (Nat.le_add_left _ _)
    | cons byte data =>
      rw [parseLoop] at h
      split at h
      · exact absurd h (by simp)
      · next i r hfirst =>
        obtain ⟨tail, htail, rfl⟩ := Option.map_eq_some_iff.mp h
        have hfirst' := hparse hfirst more
        rw [List.cons_append] at hfirst' ⊢
        rw [Nat.succ_add, parseLoop, hfirst']
        simp only
        rw [ih htail]
        rfl

/-- **Two programs in a row are read one after the other.** -/
theorem parseAll_append (hparse : LooksNoFurther parse) {is js : List β}
    (h : parseAll parse data = some is) (h' : parseAll parse more = some js) :
    parseAll parse (data ++ more) = some (is ++ js) := by
  rw [parseAll, List.length_append]
  exact parseLoop_append hparse h h'

/-- An instruction alone. -/
theorem parseAll_single (hnil : parse [] = none) {i : β} (h : parse data = some (i, [])) :
    parseAll parse data = some [i] := by
  cases data with
  | nil => exact absurd h (by simp [hnil])
  | cons byte data =>
    rw [parseAll, List.length_cons, parseLoop, h]
    cases data <;> rfl

end Append

/-! ## Operands of a fixed width -/

/-- The `n` bytes of a value, lowest first. -/
def littleEndian : Nat → Nat → List Nat
  | 0, _ => []
  | n + 1, v => v % 256 :: littleEndian n (v / 256)

@[simp]
theorem length_littleEndian (n v : Nat) : (littleEndian n v).length = n := by
  induction n generalizing v with
  | zero => rfl
  | succ n ih => rw [littleEndian, List.length_cons, ih]

theorem ofDigits_littleEndian (n v : Nat) : Nat.ofDigits 256 (littleEndian n v) = v % 256 ^ n := by
  induction n generalizing v with
  | zero => rw [pow_zero, Nat.mod_one]; rfl
  | succ n ih =>
    rw [littleEndian, Nat.ofDigits_cons, ih, pow_succ', Nat.mod_mul]

end RvLlvm.Support.Parsing
