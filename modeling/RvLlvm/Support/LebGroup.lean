import Mathlib.Algebra.Order.Ring.Int
import Mathlib.Tactic.Ring

/-!
# Groups of continued bytes

Bytes that carry seven bits each, lowest first, where every byte but the last has its high bit set:
what LEB128 numbers are made of, with padding of any length. Nothing here names a program.

* `LebGroup`: the bytes of one number; `LebGroup.append`: continued bytes before it.
* `unsignedValue`, `signedValue`: the number that they denote, and what continued bytes before them
  add.
-/

namespace RvLlvm.Support.Leb

/-- The seven bits that a byte carries. -/
def payload (b : BitVec 8) : Nat := b.toNat % 128

/-- Another byte follows. -/
def Continues (b : BitVec 8) : Prop := 128 ≤ b.toNat

instance (b : BitVec 8) : Decidable (Continues b) := inferInstanceAs (Decidable (_ ≤ _))

/-- The bytes of one number. -/
inductive LebGroup : List (BitVec 8) → Prop
  | last {b} : ¬Continues b → LebGroup [b]
  | more {b g} : Continues b → LebGroup g → LebGroup (b :: g)

/-- The number of a group, without a sign. -/
def unsignedValue : List (BitVec 8) → Nat
  | [] => 0
  | b :: g => payload b + 128 * unsignedValue g

/-- The seven bits of a last byte, with a sign. -/
def signedPayload (b : BitVec 8) : Int := if payload b < 64 then payload b else payload b - 128

/-- The number of a group, with the sign of its last byte. -/
def signedValue : List (BitVec 8) → Int
  | [] => 0
  | [b] => signedPayload b
  | b :: c :: g => payload b + 128 * signedValue (c :: g)

theorem payload_lt (b : BitVec 8) : payload b < 128 := Nat.mod_lt _ (by decide)

variable {g : List (BitVec 8)}

theorem LebGroup.ne_nil (h : LebGroup g) : g ≠ [] := by
  cases h with
  | last => exact List.cons_ne_nil _ _
  | more => exact List.cons_ne_nil _ _

theorem signedValue_cons (b : BitVec 8) (hg : g ≠ []) :
    signedValue (b :: g) = payload b + 128 * signedValue g := by
  cases g with
  | nil => exact absurd rfl hg
  | cons c g => rfl

/-- Continued bytes before a group belong to it. -/
theorem LebGroup.append {xs : List (BitVec 8)} (hxs : ∀ b ∈ xs, Continues b) (hg : LebGroup g) :
    LebGroup (xs ++ g) := by
  induction xs with
  | nil => exact hg
  | cons b xs ih =>
    exact .more (hxs b List.mem_cons_self) (ih fun c hc => hxs c (List.mem_cons_of_mem b hc))

theorem unsignedValue_append (xs g : List (BitVec 8)) :
    unsignedValue (xs ++ g) = unsignedValue xs + 128 ^ xs.length * unsignedValue g := by
  induction xs with
  | nil => simp [unsignedValue]
  | cons b xs ih =>
    rw [List.cons_append, unsignedValue, ih, unsignedValue, List.length_cons, pow_succ]
    ring

theorem signedValue_append (xs : List (BitVec 8)) (hg : g ≠ []) :
    signedValue (xs ++ g) = unsignedValue xs + 128 ^ xs.length * signedValue g := by
  induction xs with
  | nil => simp [unsignedValue]
  | cons b xs ih =>
    rw [List.cons_append, signedValue_cons b (List.append_ne_nil_of_right_ne_nil xs hg), ih,
      unsignedValue, List.length_cons, pow_succ]
    push_cast
    ring

end RvLlvm.Support.Leb
