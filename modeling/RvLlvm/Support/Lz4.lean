import RvLlvm.Support.Memory

/-!
# LZ4 blocks

The block format: sequences of a token, literals and a match, each length beyond 14 continued in
further bytes, and a last sequence of literals only. Nothing here names a program.

* `Sequence`, `Block`: the syntax; `bytes` its encoding, `decode` its meaning.
* `copyMatch`: a match copies byte by byte, so that it may read what it writes.
* `push_match`, `push_literals`: the two copies as byte loops on memory.
-/

namespace RvLlvm.Support.Lz4

/-- Literals and the match that follows them. -/
structure Sequence where
  literals : List UInt8
  offset : Nat
  matchLength : Nat
  deriving DecidableEq

/-- A block; `lastNibble` is the half of the last token that means nothing. -/
structure Block where
  sequences : List Sequence
  last : List UInt8
  lastNibble : Nat
  deriving DecidableEq

/-! ## Encoding -/

/-- The half of a token for a length. -/
def nibble (n : Nat) : Nat := min n 15

/-- The bytes that continue a length. -/
def extension (n : Nat) : List UInt8 :=
  if n < 15 then []
  else List.replicate ((n - 15) / 255) 255 ++ [UInt8.ofNat ((n - 15) % 255)]

/-- The token of two nibbles. -/
def token (high low : Nat) : UInt8 := UInt8.ofNat (high * 16 + low)

/-- The start of a sequence: token, length and literals. -/
def literalBytes (literals : List UInt8) (low : Nat) : List UInt8 :=
  token (nibble literals.length) low :: (extension literals.length ++ literals)

namespace Sequence

variable (q : Sequence)

/-- The end of a sequence: offset and length of the match. -/
def matchBytes : List UInt8 := leBytes 2 q.offset ++ extension (q.matchLength - 4)

def bytes : List UInt8 := literalBytes q.literals (nibble (q.matchLength - 4)) ++ q.matchBytes

end Sequence

/-- The encoding of a block. -/
def Block.bytes (b : Block) : List UInt8 :=
  b.sequences.flatMap Sequence.bytes ++ literalBytes b.last b.lastNibble

/-! ## Decoding -/

/-- `n` bytes copied from `offset` back. -/
def copyMatch (out : List UInt8) (offset : Nat) : Nat → List UInt8
  | 0 => out
  | n + 1 => copyMatch (out ++ [out.getD (out.length - offset) 0]) offset n

/-- The output after a sequence. -/
def Sequence.decode (out : List UInt8) (q : Sequence) : List UInt8 :=
  copyMatch (out ++ q.literals) q.offset q.matchLength

/-- The output of a block. -/
def Block.decode (b : Block) : List UInt8 := b.sequences.foldl Sequence.decode [] ++ b.last

theorem length_copyMatch (out : List UInt8) (offset n : Nat) :
    (copyMatch out offset n).length = out.length + n := by
  induction n generalizing out with
  | zero => rfl
  | succ n ih =>
    rw [copyMatch, ih, List.length_append, List.length_singleton]
    omega

theorem length_decode (out : List UInt8) (q : Sequence) :
    (q.decode out).length = out.length + q.literals.length + q.matchLength := by
  rw [Sequence.decode, length_copyMatch, List.length_append]

/-- A sequence that may follow the output `out`. -/
structure Sequence.Follows (out : List UInt8) (q : Sequence) : Prop where
  length : 4 ≤ q.matchLength
  pos : 0 < q.offset
  word : q.offset < 2 ^ 16
  reach : q.offset ≤ out.length + q.literals.length

/-- Every sequence may follow the output so far. -/
def Follow : List UInt8 → List Sequence → Prop
  | _, [] => True
  | out, q :: qs => q.Follows out ∧ Follow (q.decode out) qs

/-- A well-formed block. -/
structure Block.WellFormed (b : Block) : Prop where
  follow : Follow [] b.sequences
  nibble : b.lastNibble < 16

theorem length_le_foldl (qs : List Sequence) (out : List UInt8) :
    out.length ≤ (qs.foldl Sequence.decode out).length := by
  induction qs generalizing out with
  | nil => exact Nat.le_refl _
  | cons q qs ih =>
    have hlen := length_decode out q
    have := ih (q.decode out)
    rw [List.foldl_cons]
    omega

theorem Block.length_decode (b : Block) :
    b.decode.length = (b.sequences.foldl Sequence.decode []).length + b.last.length := by
  rw [Block.decode, List.length_append]

theorem prefix_copyMatch (out : List UInt8) (offset n : Nat) : out <+: copyMatch out offset n := by
  induction n generalizing out with
  | zero => exact List.prefix_refl out
  | succ n ih => exact (List.prefix_append out _).trans (ih _)

theorem prefix_foldl (qs : List Sequence) (out : List UInt8) :
    out <+: qs.foldl Sequence.decode out := by
  induction qs generalizing out with
  | nil => exact List.prefix_refl out
  | cons q qs ih =>
    exact ((List.prefix_append out q.literals).trans (prefix_copyMatch _ _ _)).trans (ih _)

theorem Follow.append {out : List UInt8} {pre post : List Sequence} (h : Follow out (pre ++ post)) :
    Follow out pre ∧ Follow (pre.foldl Sequence.decode out) post := by
  induction pre generalizing out with
  | nil => exact ⟨trivial, h⟩
  | cons q pre ih =>
    obtain ⟨hpre, hpost⟩ := ih h.2
    exact ⟨⟨h.1, hpre⟩, hpost⟩

/-! ## The copies on memory -/

/-- One byte appended to the output in memory. -/
theorem write_concat (m : Memory) (d : Nat) (out : List UInt8) (c : UInt8) :
    Function.update (m.write d out) (d + out.length) c = m.write d (out ++ [c]) := by
  funext a
  by_cases ha : a = d + out.length
  · rw [ha, Function.update_self, Memory.write, if_pos (Nat.le_add_right _ _),
      Nat.add_sub_cancel_left, List.getElem?_concat_length]
    rfl
  · rw [Function.update_of_ne ha, Memory.write, Memory.write]
    split
    next hle =>
      have hget : (out ++ [c])[a - d]? = out[a - d]? := by
        rcases Nat.lt_or_ge (a - d) out.length with hlt | hge
        · exact List.getElem?_append_left hlt
        · rw [List.getElem?_eq_none hge, List.getElem?_eq_none]
          rw [List.length_append, List.length_singleton]
          omega
      rw [hget]
    next => rfl

theorem write_getD (m : Memory) {d i : Nat} {out : List UInt8} (h : i < out.length) :
    m.write d out (d + i) = out.getD i 0 := by
  rw [Memory.write_of_lt m h, List.getD_eq_getElem?_getD, List.getElem?_eq_getElem h]
  rfl

/-- **A match** is copied by the byte loop. -/
theorem push_match (m : Memory) (d : Nat) (out : List UInt8) {offset : Nat} (hpos : 0 < offset)
    (hreach : offset ≤ out.length) (n : Nat) :
    (m.write d out).copy (d + out.length) (d + out.length - offset) n =
      m.write d (copyMatch out offset n) := by
  induction n generalizing out with
  | zero => rfl
  | succ n ih =>
    have hsrc : m.write d out (d + out.length - offset) = out.getD (out.length - offset) 0 := by
      rw [Nat.add_sub_assoc hreach]
      exact write_getD m (by omega)
    have hlen : (out ++ [out.getD (out.length - offset) 0]).length = out.length + 1 := by
      rw [List.length_append, List.length_singleton]
    have hnext := ih (out ++ [out.getD (out.length - offset) 0]) (by omega)
    rw [hlen] at hnext
    rw [Memory.copy, hsrc, write_concat, copyMatch, ← hnext]
    congr 1
    omega

/-- **Literals** that lie outside the output are copied by the byte loop. -/
theorem push_literals (m : Memory) (d : Nat) {s : Nat} {literals : List UInt8} (out : List UInt8)
    (hsrc : ∀ i < literals.length, m (s + i) = literals.getD i 0)
    (hout : d + out.length + literals.length ≤ s ∨ s + literals.length ≤ d) :
    (m.write d out).copy (d + out.length) s literals.length = m.write d (out ++ literals) := by
  induction literals generalizing out s with
  | nil => rw [List.append_nil]; rfl
  | cons c cs ih =>
    rw [List.length_cons] at hsrc hout
    have hc : m.write d out s = c := by
      have h0 : m s = c := hsrc 0 (Nat.succ_pos _)
      rw [Memory.write]
      split
      · rw [List.getElem?_eq_none (by omega)]
        exact h0
      · exact h0
    have hlen : (out ++ [c]).length = out.length + 1 := by
      rw [List.length_append, List.length_singleton]
    have hnext := ih (s := s + 1) (out ++ [c])
      (fun i hi => by
        have := hsrc (i + 1) (Nat.succ_lt_succ hi)
        rw [Nat.add_assoc, Nat.add_comm 1 i]
        exact this)
      (by omega)
    rw [hlen, ← Nat.add_assoc] at hnext
    rw [List.length_cons, Memory.copy, hc, write_concat, hnext, List.append_assoc,
      List.singleton_append]

end RvLlvm.Support.Lz4
