import Mathlib.Data.Nat.Bitwise
import Mathlib.Tactic.Ring

/-!
# Scattered immediates

Instruction words keep the bits of a value in pieces that lie in no order. A list of pieces says
which bits go where, and the same kind of list reads them back. Nothing here names a program.

* `scatter ps v`: the pieces of `v`, each at its place; `sources ps i` is where bit `i` comes from.
* `Gathers`: what pieces read from a word into which others have written, a decidable property of
  the lists; `scatter_written` is what follows for every word and every value.
-/

namespace RvLlvm.Support

/-- Bits `hi, …, lo` of a value, put from bit `pos` on. -/
structure Piece where
  hi : Nat
  lo : Nat
  pos : Nat
  deriving DecidableEq

namespace Piece

variable (p : Piece)

def width : Nat := p.hi + 1 - p.lo

/-- The piece of `v`, at its place. -/
def put (v : Nat) : Nat := (v >>> p.lo % 2 ^ p.width) <<< p.pos

/-- The bits of the value that go to bit `i`. -/
def sources (i : Nat) : List Nat :=
  if p.pos ≤ i ∧ i < p.pos + p.width then [p.lo + (i - p.pos)] else []

theorem testBit_put (v i : Nat) : (p.put v).testBit i = (p.sources i).any v.testBit := by
  rw [put, sources, Nat.testBit_shiftLeft, Nat.testBit_mod_two_pow, Nat.testBit_shiftRight]
  by_cases hpos : p.pos ≤ i
  · by_cases hwidth : i < p.pos + p.width
    · rw [if_pos ⟨hpos, hwidth⟩, List.any_cons, List.any_nil, Bool.or_false, decide_eq_true hpos,
        decide_eq_true (by omega : i - p.pos < p.width), Bool.true_and, Bool.true_and]
    · rw [if_neg (fun h => hwidth h.2), List.any_nil,
        decide_eq_false (by omega : ¬ i - p.pos < p.width), Bool.false_and, Bool.and_false]
  · rw [if_neg (fun h => hpos h.1), List.any_nil, decide_eq_false hpos, Bool.false_and]

/-- The piece `k` bits further up. -/
def up (k : Nat) : Piece := { p with pos := p.pos + k }

theorem put_up (k v : Nat) : (p.up k).put v = p.put v <<< k := by
  rw [put, put, ← Nat.shiftLeft_add]
  rfl

theorem put_congr {n a b : Nat} (hhi : p.hi < n) (h : a % 2 ^ n = b % 2 ^ n) : p.put a = p.put b := by
  have hfield : ∀ v, v >>> p.lo % 2 ^ p.width = (v % 2 ^ n) >>> p.lo % 2 ^ p.width := by
    intro v
    refine Nat.eq_of_testBit_eq fun i => ?_
    rw [Nat.testBit_mod_two_pow, Nat.testBit_mod_two_pow, Nat.testBit_shiftRight,
      Nat.testBit_shiftRight, Nat.testBit_mod_two_pow (v : Nat)]
    by_cases hi : i < p.width
    · have hn : p.lo + i < n := by
        unfold width at hi
        omega
      rw [decide_eq_true hn, Bool.true_and]
    · rw [decide_eq_false hi, Bool.false_and, Bool.false_and]
  rw [put, put, hfield a, hfield b, h]

end Piece

/-- All pieces of `v`. -/
def scatter (ps : List Piece) (v : Nat) : Nat := ps.foldr (fun p n => p.put v ||| n) 0

/-- The bits of the value that go to bit `i`. -/
def sources (ps : List Piece) (i : Nat) : List Nat := ps.flatMap (·.sources i)

/-- No piece ends above bit `n`. -/
def Below (ps : List Piece) (n : Nat) : Prop := ∀ p ∈ ps, p.pos + p.width ≤ n

instance (ps : List Piece) (n : Nat) : Decidable (Below ps n) :=
  inferInstanceAs (Decidable (∀ p ∈ ps, _))

variable {ps qs : List Piece} {n : Nat}

theorem testBit_scatter (ps : List Piece) (v i : Nat) :
    (scatter ps v).testBit i = (sources ps i).any v.testBit := by
  induction ps with
  | nil => exact Nat.zero_testBit i
  | cons p ps ih =>
    have hcons : sources (p :: ps) i = p.sources i ++ sources ps i := List.flatMap_cons
    rw [scatter, List.foldr_cons, Nat.testBit_or, p.testBit_put, ← scatter, ih, hcons,
      List.any_append]

theorem sources_of_le (h : Below ps n) {i : Nat} (hi : n ≤ i) : sources ps i = [] := by
  rw [sources, List.flatMap_eq_nil_iff]
  intro p hp
  have hend := h p hp
  exact if_neg (by omega)

theorem scatter_lt (h : Below ps n) (v : Nat) : scatter ps v < 2 ^ n := by
  refine Nat.lt_pow_two_of_testBit _ fun i hi => ?_
  rw [testBit_scatter, sources_of_le h hi, List.any_nil]

theorem scatter_map_up (ps : List Piece) (k v : Nat) :
    scatter (ps.map (·.up k)) v = scatter ps v <<< k := by
  induction ps with
  | nil => exact (Nat.zero_shiftLeft k).symm
  | cons p ps ih =>
    rw [List.map_cons, scatter, List.foldr_cons, ← scatter, ih, p.put_up, ← Nat.shiftLeft_or_distrib]
    rfl

/-- Pieces below bit `n` of a value depend on these bits only. -/
theorem scatter_congr (hhi : ∀ p ∈ ps, p.hi < n) {a b : Nat} (h : a % 2 ^ n = b % 2 ^ n) :
    scatter ps a = scatter ps b := by
  induction ps with
  | nil => rfl
  | cons p ps ih =>
    rw [scatter, List.foldr_cons, p.put_congr (hhi p List.mem_cons_self) h, ← scatter,
      ih fun q hq => hhi q (List.mem_cons_of_mem p hq)]
    rfl

/-! ## Writing into a word and reading back -/

/-- From a word that keeps the bits of `mask` and has a value written into it by `ps`, the pieces
`qs` read what the pieces `rs` are of the value. -/
def Gathers (ps qs rs : List Piece) (mask n : Nat) : Prop :=
  Below qs n ∧ Below rs n ∧ ∀ i < n, ((sources qs i).all fun j => !mask.testBit j) = true ∧
    (sources qs i).flatMap (sources ps) = sources rs i

instance (ps qs rs : List Piece) (mask n : Nat) : Decidable (Gathers ps qs rs mask n) :=
  inferInstanceAs (Decidable (_ ∧ _ ∧ ∀ i < n, _ ∧ _))

theorem any_congr_mem {l : List Nat} {f g : Nat → Bool} (h : ∀ j ∈ l, f j = g j) : l.any f = l.any g := by
  induction l with
  | nil => rfl
  | cons a l ih =>
    rw [List.any_cons, List.any_cons, h a List.mem_cons_self,
      ih fun j hj => h j (List.mem_cons_of_mem a hj)]

/-- **What is written is read back.** -/
theorem scatter_written {rs : List Piece} {mask : Nat} (h : Gathers ps qs rs mask n) (w v : Nat) :
    scatter qs ((w &&& mask) ||| scatter ps v) = scatter rs v := by
  obtain ⟨hqs, hrs, hread⟩ := h
  refine Nat.eq_of_testBit_eq fun i => ?_
  rw [testBit_scatter, testBit_scatter]
  rcases Nat.lt_or_ge i n with hi | hi
  · obtain ⟨hmask, hsource⟩ := hread i hi
    rw [← hsource, List.any_flatMap]
    refine any_congr_mem fun j hj => ?_
    have hout := List.all_eq_true.mp hmask j hj
    rw [Bool.not_eq_true'] at hout
    rw [Nat.testBit_or, Nat.testBit_and, hout, Bool.and_false, Bool.false_or, testBit_scatter]
  · rw [sources_of_le hqs hi, sources_of_le hrs hi]
    rfl

/-- Bits `lo, …, n - 1` of a value, where they are. -/
def span (lo n : Nat) : List Piece := [⟨n - 1, lo, lo⟩]

/-- The bits from `lo` to `n`, as a number. -/
theorem scatter_span {lo : Nat} (hlo : lo < n) (v : Nat) :
    scatter (span lo n) v = v % 2 ^ n - v % 2 ^ lo := by
  have hwidth : n - 1 + 1 - lo = n - lo := by omega
  have hsplit : v % 2 ^ n = v % 2 ^ lo + 2 ^ lo * (v / 2 ^ lo % 2 ^ (n - lo)) := by
    rw [← Nat.mod_mul, ← pow_add, Nat.add_sub_of_le hlo.le]
  rw [scatter, span, List.foldr_cons, List.foldr_nil, Nat.or_zero, Piece.put, Piece.width,
    Nat.shiftLeft_eq, Nat.shiftRight_eq_div_pow, hwidth, hsplit, Nat.add_sub_cancel_left, Nat.mul_comm]

end RvLlvm.Support
