import RvLlvm.Support.Leb128
import RvLlvm.Support.LebGroup

/-!
# The LEB128 codecs

Model of `encodeULEB128`, `encodeSLEB128`, `decodeULEB128` and `decodeSLEB128`
(`llvm/include/llvm/Support/LEB128.h:23-198`). The two overloads of an encoder, to a stream and to a
buffer, write the same bytes and return their number. A decoder is given the bytes up to `end`; its
result is what it returns and stores through `n` and `error`, and none where it shifts by 64 or
more.

* `encoded_encodeULEB128`, `encoded_encodeSLEB128`: what is written is the group of the value, with
  more than ten bytes only by padding.
* `decodeULEB128Loop_group`, `decodeULEB128Loop_sound`, `decodeULEB128Loop_none_iff` and their signed
  fellows: which groups are read, what a returned value is, and where a shift is too wide.
* `codecs_right_iff`: all of it.
-/

namespace RvLlvm.Codec.Leb128

open Support.Leb

/-! ## Encoders -/

/-- A byte, with the mark that more bytes follow. -/
def mark (more : Prop) [Decidable more] (Byte : Nat) : BitVec 8 :=
  BitVec.ofNat 8 (if more then Byte + 0x80 else Byte)

/-- The loop of `encodeULEB128`: the bytes, and `Count`. -/
def encodeULEB128Loop (PadTo Value Count : Nat) : List (BitVec 8) × Nat :=
  let Byte := Value % 128
  let Value' := Value / 128
  let b := mark (Value' ≠ 0 ∨ Count + 1 < PadTo) Byte
  if Value' ≠ 0 then
    let rest := encodeULEB128Loop PadTo Value' (Count + 1)
    (b :: rest.1, rest.2)
  else ([b], Count + 1)
termination_by Value
decreasing_by omega

/-- The padding and the byte that ends it: nothing, unless `Count < PadTo`. -/
def pad (PadTo Count : Nat) (PadValue : BitVec 8) : List (BitVec 8) :=
  if Count < PadTo then List.replicate (PadTo - 1 - Count) (PadValue ||| 0x80) ++ [PadValue] else []

def encodeULEB128 (Value : BitVec 64) (PadTo : Nat) : List (BitVec 8) × Nat :=
  let (bytes, Count) := encodeULEB128Loop PadTo Value.toNat 0
  (bytes ++ pad PadTo Count 0, if Count < PadTo then PadTo else Count)

/-- `More`: the sign of the byte does not tell the rest. -/
def More (Value : Int) (Byte : Nat) : Prop := ¬(Value = 0 ∧ Byte < 64 ∨ Value = -1 ∧ 64 ≤ Byte)

instance (Value : Int) (Byte : Nat) : Decidable (More Value Byte) :=
  inferInstanceAs (Decidable (¬_))

/-- The loop of `encodeSLEB128`: the bytes, what is left of the value, and `Count`. -/
def encodeSLEB128Loop (PadTo : Nat) (Value : Int) (Count : Nat) : List (BitVec 8) × Int × Nat :=
  let Byte := (Value % 128).toNat
  let Value' := Value / 128
  let b := mark (More Value' Byte ∨ Count + 1 < PadTo) Byte
  if More Value' Byte then
    let rest := encodeSLEB128Loop PadTo Value' (Count + 1)
    (b :: rest.1, rest.2)
  else ([b], Value', Count + 1)
termination_by Value.natAbs
decreasing_by
  rename_i h
  unfold More at h
  omega

def encodeSLEB128 (Value : BitVec 64) (PadTo : Nat) : List (BitVec 8) × Nat :=
  let (bytes, rest, Count) := encodeSLEB128Loop PadTo Value.toInt 0
  (bytes ++ pad PadTo Count (if rest < 0 then 0x7f else 0), if Count < PadTo then PadTo else Count)

/-! ## Decoders -/

/-- What a decoder returns, and stores through `n` and `error`. -/
structure Decoded where
  value : BitVec 64
  n : Nat
  error : Option String
deriving DecidableEq, Repr

def fail (msg : String) (p : Nat) : Option Decoded := some ⟨0, p, some msg⟩

/-- The loop of `decodeULEB128` at `p`. -/
def decodeULEB128Loop : List (BitVec 8) → (p : Nat) → (Value : BitVec 64) → (Shift : Nat) →
    Option Decoded
  | [], p, _, _ => fail "malformed uleb128, extends past end" p
  | b :: data, p, Value, Shift =>
    let Slice := BitVec.ofNat 64 (payload b)
    if 64 ≤ Shift ∧ Slice ≠ 0 then fail "uleb128 too big for uint64" p
    -- `Slice << Shift`
    else if 64 ≤ Shift then none
    else if Slice <<< Shift >>> Shift ≠ Slice then fail "uleb128 too big for uint64" p
    else
      let Value := Value + Slice <<< Shift
      if 128 ≤ b.toNat then decodeULEB128Loop data (p + 1) Value (Shift + 7)
      else some ⟨Value, p + 1, none⟩

def decodeULEB128 (data : List (BitVec 8)) : Option Decoded := decodeULEB128Loop data 0 0 0

/-- The loop of `decodeSLEB128` at `p`, and the sign extension after it. -/
def decodeSLEB128Loop : List (BitVec 8) → (p : Nat) → (Value : BitVec 64) → (Shift : Nat) →
    Option Decoded
  | [], p, _, _ => fail "malformed sleb128, extends past end" p
  | b :: data, p, Value, Shift =>
    let Slice := BitVec.ofNat 64 (payload b)
    if 64 ≤ Shift ∧ Slice ≠ (if Value.toInt < 0 then 0x7f else 0) ∨
        Shift = 63 ∧ Slice ≠ 0 ∧ Slice ≠ 0x7f then
      fail "sleb128 too big for int64" p
    -- `Slice << Shift`
    else if 64 ≤ Shift then none
    else
      let Value := Value ||| Slice <<< Shift
      if 128 ≤ b.toNat then decodeSLEB128Loop data (p + 1) Value (Shift + 7)
      else if Shift + 7 < 64 ∧ b.toNat &&& 0x40 ≠ 0 then
        some ⟨Value ||| BitVec.allOnes 64 <<< (Shift + 7), p + 1, none⟩
      else some ⟨Value, p + 1, none⟩

def decodeSLEB128 (data : List (BitVec 8)) : Option Decoded := decodeSLEB128Loop data 0 0 0

/-! ## What the encoders write -/

theorem payload_mark (more : Prop) [Decidable more] {Byte : Nat} (h : Byte < 128) :
    payload (mark more Byte) = Byte := by
  unfold payload mark
  rw [BitVec.toNat_ofNat]
  split <;> omega

theorem continues_mark (more : Prop) [Decidable more] {Byte : Nat} (h : Byte < 128) :
    Continues (mark more Byte) ↔ more := by
  unfold Continues mark
  rw [BitVec.toNat_ofNat]
  split
  · rename_i hmore
    exact iff_of_true (by omega) hmore
  · rename_i hmore
    exact iff_of_false (by omega) hmore

/-- The bytes of a loop that ends with `Count`: a number of their own, unless padding follows. -/
structure Written (PadTo Count₀ : Nat) (bytes : List (BitVec 8)) (Count : Nat) : Prop where
  count : Count = Count₀ + bytes.length
  padded : Count < PadTo → ∀ b ∈ bytes, Continues b
  whole : PadTo ≤ Count → LebGroup bytes

variable {Count PadTo : Nat} {bytes : List (BitVec 8)}

theorem Written.singleton {b : BitVec 8} (h : Continues b ↔ Count + 1 < PadTo) :
    Written PadTo Count [b] (Count + 1) where
  count := rfl
  padded := fun hpad c hc => by
    rw [List.mem_singleton.mp hc]
    exact h.mpr hpad
  whole := fun hpad => .last (mt h.mp (Nat.not_lt.mpr hpad))

theorem Written.cons {Count₀ : Nat} {b : BitVec 8} (hb : Continues b)
    (h : Written PadTo (Count₀ + 1) bytes Count) :
    Written PadTo Count₀ (b :: bytes) Count where
  count := by
    rw [h.count, List.length_cons]
    omega
  padded := fun hpad c hc => by
    rcases List.mem_cons.mp hc with rfl | hc
    · exact hb
    · exact h.padded hpad c hc
  whole := fun hpad => .more hb (h.whole hpad)

theorem written_encodeULEB128Loop (PadTo Value Count : Nat) :
    Written PadTo Count (encodeULEB128Loop PadTo Value Count).1
      (encodeULEB128Loop PadTo Value Count).2 := by
  fun_induction encodeULEB128Loop PadTo Value Count with
  | case1 Value Count Byte Value' b hmore rest ih =>
    exact .cons ((continues_mark _ (Nat.mod_lt _ (by decide))).mpr (.inl hmore)) ih
  | case2 Value Count Byte Value' b hlast =>
    refine .singleton ((continues_mark _ (Nat.mod_lt _ (by decide))).trans ?_)
    exact or_iff_right hlast

theorem unsignedValue_encodeULEB128Loop (PadTo Value Count : Nat) :
    unsignedValue (encodeULEB128Loop PadTo Value Count).1 = Value := by
  fun_induction encodeULEB128Loop PadTo Value Count with
  | case1 Value Count Byte Value' b hmore rest ih =>
    have hb : payload b = Value % 128 := payload_mark _ (Nat.mod_lt _ (by decide))
    rw [unsignedValue, ih, hb]
    omega
  | case2 Value Count Byte Value' b hlast =>
    have hb : payload b = Value % 128 := payload_mark _ (Nat.mod_lt _ (by decide))
    rw [unsignedValue, unsignedValue, hb]
    omega

theorem length_encodeULEB128Loop {n : Nat} (PadTo Value Count : Nat) (hn : 0 < n)
    (h : Value < 128 ^ n) : (encodeULEB128Loop PadTo Value Count).1.length ≤ n := by
  fun_induction encodeULEB128Loop PadTo Value Count generalizing n with
  | case1 Value Count Byte Value' b hmore rest =>
    rename_i ih
    obtain ⟨k, rfl⟩ : ∃ k, n = k + 1 := ⟨n - 1, by omega⟩
    have hk : 0 < k := by
      by_contra hzero
      obtain rfl : k = 0 := by omega
      omega
    rw [pow_succ] at h
    exact Nat.succ_le_succ (ih hk (by omega))
  | case2 => exact hn

theorem written_encodeSLEB128Loop (PadTo : Nat) (Value : Int) (Count : Nat) :
    Written PadTo Count (encodeSLEB128Loop PadTo Value Count).1
      (encodeSLEB128Loop PadTo Value Count).2.2 := by
  fun_induction encodeSLEB128Loop PadTo Value Count with
  | case1 Value Count Byte Value' b hmore rest ih =>
    exact .cons ((continues_mark _ (by omega)).mpr (.inl hmore)) ih
  | case2 Value Count Byte Value' b hlast =>
    refine .singleton ((continues_mark _ (by omega)).trans ?_)
    exact or_iff_right hlast

/-- What the bytes hold, and what is left of the value: its sign. -/
theorem signedValue_encodeSLEB128Loop (PadTo : Nat) (Value : Int) (Count : Nat) :
    (encodeSLEB128Loop PadTo Value Count).1 ≠ [] ∧
      signedValue (encodeSLEB128Loop PadTo Value Count).1 = Value ∧
      unsignedValue (encodeSLEB128Loop PadTo Value Count).1 +
        128 ^ (encodeSLEB128Loop PadTo Value Count).1.length *
          (encodeSLEB128Loop PadTo Value Count).2.1 = Value ∧
      ((encodeSLEB128Loop PadTo Value Count).2.1 = 0 ∨
        (encodeSLEB128Loop PadTo Value Count).2.1 = -1) := by
  fun_induction encodeSLEB128Loop PadTo Value Count with
  | case1 Value Count Byte Value' b hmore rest ih =>
    obtain ⟨hne, hsigned, hunsigned, hsign⟩ := ih
    have hb : payload b = (Value % 128).toNat := payload_mark _ (by omega)
    refine ⟨List.cons_ne_nil _ _, ?_, ?_, hsign⟩
    · rw [signedValue_cons b hne, hsigned, hb]
      omega
    · have hrest : unsignedValue rest.1 + 128 ^ rest.1.length * rest.2.1 = Value' := hunsigned
      rw [unsignedValue, List.length_cons, pow_succ, hb]
      push_cast
      rw [Int.mul_comm (128 ^ _) 128, Int.mul_assoc]
      omega
  | case2 Value Count Byte Value' b hlast =>
    have hb : payload b = (Value % 128).toNat := payload_mark _ (by omega)
    unfold More at hlast
    rw [not_not] at hlast
    refine ⟨List.cons_ne_nil _ _, ?_, ?_, show Value' = 0 ∨ Value' = -1 by omega⟩
    · rw [signedValue, signedPayload, hb]
      split <;> omega
    · dsimp only
      rw [unsignedValue, unsignedValue, List.length_singleton, hb]
      omega

theorem length_encodeSLEB128Loop {n : Nat} (PadTo : Nat) (Value : Int) (Count : Nat)
    (hlo : -(64 * 128 ^ n : Nat) ≤ Value) (hhi : Value < (64 * 128 ^ n : Nat)) :
    (encodeSLEB128Loop PadTo Value Count).1.length ≤ n + 1 := by
  fun_induction encodeSLEB128Loop PadTo Value Count generalizing n with
  | case1 Value Count Byte Value' b hmore rest =>
    rename_i ih
    unfold More at hmore
    cases n with
    | zero => omega
    | succ n =>
      rw [pow_succ] at hlo hhi
      refine Nat.succ_le_succ (ih (n := n) ?_ ?_)
      · omega
      · omega
  | case2 => exact Nat.succ_le_succ (Nat.zero_le n)

/-! ### The padding -/

theorem length_pad {P : BitVec 8} (h : Count < PadTo) :
    (pad PadTo Count P).length = PadTo - Count := by
  rw [pad, if_pos h, List.length_append, List.length_replicate, List.length_singleton]
  omega

theorem group_pad {P : BitVec 8} (h : Count < PadTo) (hP : P = 0 ∨ P = 0x7f) :
    LebGroup (pad PadTo Count P) := by
  rw [pad, if_pos h]
  refine .append (fun b hb => ?_) (.last ?_)
  · rw [List.eq_of_mem_replicate hb]
    rcases hP with rfl | rfl <;> decide
  · rcases hP with rfl | rfl <;> decide

theorem unsignedValue_replicate_zeros (n : Nat) :
    unsignedValue (List.replicate n (0x80 : BitVec 8)) = 0 := by
  induction n with
  | zero => rfl
  | succ n ih =>
    rw [List.replicate_succ, unsignedValue, ih]
    rfl

theorem unsignedValue_replicate_ones (n : Nat) :
    unsignedValue (List.replicate n (0xff : BitVec 8)) + 1 = 128 ^ n := by
  induction n with
  | zero => rfl
  | succ n ih =>
    rw [List.replicate_succ, unsignedValue, pow_succ, ← ih, show payload 0xff = 127 by decide]
    ring

theorem unsignedValue_pad (PadTo Count : Nat) : unsignedValue (pad PadTo Count 0) = 0 := by
  rw [pad]
  split
  · rw [unsignedValue_append, show (0 : BitVec 8) ||| 0x80 = 0x80 by decide,
      unsignedValue_replicate_zeros]
    simp [unsignedValue, payload]
  · rfl

/-- The padding denotes the sign. -/
theorem signedValue_pad {sign : Int} (h : Count < PadTo) (hsign : sign = 0 ∨ sign = -1) :
    signedValue (pad PadTo Count (if sign < 0 then 0x7f else 0)) = sign := by
  rw [pad, if_pos h, signedValue_append _ (List.cons_ne_nil _ _)]
  rcases hsign with rfl | rfl
  · rw [if_neg (by decide), show (0 : BitVec 8) ||| 0x80 = 0x80 by decide,
      unsignedValue_replicate_zeros, show signedValue [0] = 0 by decide]
    simp
  · have hones : (unsignedValue (List.replicate (PadTo - 1 - Count) (0xff : BitVec 8)) : Int) + 1 =
        128 ^ (PadTo - 1 - Count) := by
      exact_mod_cast unsignedValue_replicate_ones (PadTo - 1 - Count)
    rw [if_pos (by decide), show (0x7f : BitVec 8) ||| 0x80 = 0xff by decide,
      List.length_replicate, show signedValue [0x7f] = -1 by decide]
    omega

theorem Written.group {P : BitVec 8} (h : Written PadTo 0 bytes Count) (hP : P = 0 ∨ P = 0x7f) :
    LebGroup (bytes ++ pad PadTo Count P) := by
  rcases Nat.lt_or_ge Count PadTo with hpad | hpad
  · exact .append (h.padded hpad) (group_pad hpad hP)
  · rw [pad, if_neg (Nat.not_lt.mpr hpad), List.append_nil]
    exact h.whole hpad

theorem Written.length {P : BitVec 8} (h : Written PadTo 0 bytes Count) :
    (bytes ++ pad PadTo Count P).length = if Count < PadTo then PadTo else Count := by
  have hcount := h.count
  rw [List.length_append]
  split
  · rename_i hpad
    rw [length_pad hpad]
    omega
  · rename_i hpad
    rw [pad, if_neg hpad, List.length_nil]
    omega

theorem isInt64 (v : BitVec 64) : -2 ^ 63 ≤ v.toInt ∧ v.toInt < 2 ^ 63 :=
  ⟨BitVec.le_toInt v, BitVec.toInt_lt⟩

/-- What an encoder wrote: a group, whose length it returned, longer than ten only by padding. -/
structure Encoded (result : List (BitVec 8) × Nat) (PadTo : Nat) : Prop where
  group : LebGroup result.1
  count : result.2 = result.1.length
  short : result.1.length ≤ 10 ↔ PadTo ≤ 10

theorem encoded_encodeULEB128 (v : BitVec 64) (PadTo : Nat) :
    Encoded (encodeULEB128 v PadTo) PadTo := by
  have hwritten := written_encodeULEB128Loop PadTo v.toNat 0
  have hlen := length_encodeULEB128Loop (n := 10) PadTo v.toNat 0 (by decide)
    (v.isLt.trans (by decide))
  refine ⟨hwritten.group (.inl rfl), hwritten.length.symm, ?_⟩
  have hcount := hwritten.count
  have hlength := hwritten.length (P := 0)
  unfold encodeULEB128
  dsimp only
  rw [hlength]
  split <;> omega

theorem encoded_encodeSLEB128 (v : BitVec 64) (PadTo : Nat) :
    Encoded (encodeSLEB128 v PadTo) PadTo := by
  have hwritten := written_encodeSLEB128Loop PadTo v.toInt 0
  have hv := isInt64 v
  have hlen := length_encodeSLEB128Loop (n := 9) PadTo v.toInt 0 (by omega) (by omega)
  have hP : (if (encodeSLEB128Loop PadTo v.toInt 0).2.1 < 0 then 0x7f else 0 : BitVec 8) = 0 ∨
      (if (encodeSLEB128Loop PadTo v.toInt 0).2.1 < 0 then 0x7f else 0 : BitVec 8) = 0x7f := by
    split
    · exact .inr rfl
    · exact .inl rfl
  refine ⟨hwritten.group hP, hwritten.length.symm, ?_⟩
  have hcount := hwritten.count
  have hlength := hwritten.length
    (P := if (encodeSLEB128Loop PadTo v.toInt 0).2.1 < 0 then 0x7f else 0)
  unfold encodeSLEB128
  dsimp only
  rw [hlength]
  split <;> omega

theorem unsignedValue_encodeULEB128 (v : BitVec 64) (PadTo : Nat) :
    unsignedValue (encodeULEB128 v PadTo).1 = v.toNat := by
  unfold encodeULEB128
  dsimp only
  rw [unsignedValue_append, unsignedValue_pad, Nat.mul_zero, Nat.add_zero,
    unsignedValue_encodeULEB128Loop]

theorem signedValue_encodeSLEB128 (v : BitVec 64) (PadTo : Nat) :
    signedValue (encodeSLEB128 v PadTo).1 = v.toInt := by
  obtain ⟨hne, hsigned, hunsigned, hsign⟩ := signedValue_encodeSLEB128Loop PadTo v.toInt 0
  unfold encodeSLEB128
  dsimp only
  rcases Nat.lt_or_ge (encodeSLEB128Loop PadTo v.toInt 0).2.2 PadTo with hpad | hpad
  · have hgroup := group_pad (P := if (encodeSLEB128Loop PadTo v.toInt 0).2.1 < 0 then 0x7f else 0)
      hpad (by split <;> simp)
    rw [signedValue_append _ hgroup.ne_nil, signedValue_pad hpad hsign]
    exact hunsigned
  · rw [pad, if_neg (Nat.not_lt.mpr hpad), List.append_nil]
    exact hsigned

/-! ## What `decodeULEB128` reads -/

section decode

variable {b : BitVec 8} {data g rest : List (BitVec 8)} {p : Nat} {Value : BitVec 64} {r : Decoded}

/-- The `Slice` of a byte. -/
theorem toNat_slice (b : BitVec 8) : (BitVec.ofNat 64 (payload b)).toNat = payload b := by
  have hb := payload_lt b
  rw [BitVec.toNat_ofNat, Nat.mod_eq_of_lt (by omega)]

theorem slice_eq_zero_iff (b : BitVec 8) : BitVec.ofNat 64 (payload b) = 0 ↔ payload b = 0 := by
  rw [← BitVec.toNat_inj, toNat_slice]
  rfl

/-- The bits of a slice stay when it is shifted to its place and back. -/
theorem slice_kept_iff (s : Nat) (b : BitVec 8) :
    BitVec.ofNat 64 (payload b) <<< s >>> s = BitVec.ofNat 64 (payload b) ↔
      payload b * 2 ^ s < 2 ^ 64 := by
  have hpos : 0 < 2 ^ s := Nat.two_pow_pos s
  rw [← BitVec.toNat_inj, BitVec.toNat_ushiftRight, BitVec.toNat_shiftLeft, toNat_slice,
    Nat.shiftLeft_eq, Nat.shiftRight_eq_div_pow]
  constructor
  · intro h
    by_contra hlarge
    have hlt : payload b * 2 ^ s % 2 ^ 64 < payload b * 2 ^ s :=
      (Nat.mod_lt _ (by decide)).trans_le (Nat.not_lt.mp hlarge)
    have hdiv : payload b * 2 ^ s % 2 ^ 64 / 2 ^ s < payload b := by
      rw [Nat.div_lt_iff_lt_mul hpos]
      exact hlt
    omega
  · intro h
    rw [Nat.mod_eq_of_lt h, Nat.mul_div_cancel _ hpos]

/-- A byte whose bits fit. -/
theorem decodeULEB128Loop_fits (hp : p ≤ 9) (h : Value.toNat + payload b * 2 ^ (7 * p) < 2 ^ 64) :
    decodeULEB128Loop (b :: data) p Value (7 * p) =
      if Continues b then
        decodeULEB128Loop data (p + 1) (BitVec.ofNat 64 (Value.toNat + payload b * 2 ^ (7 * p)))
          (7 * (p + 1))
      else some ⟨BitVec.ofNat 64 (Value.toNat + payload b * 2 ^ (7 * p)), p + 1, none⟩ := by
  have hsum : Value + BitVec.ofNat 64 (payload b) <<< (7 * p) =
      BitVec.ofNat 64 (Value.toNat + payload b * 2 ^ (7 * p)) := by
    rw [← BitVec.toNat_inj, BitVec.toNat_add, BitVec.toNat_shiftLeft, toNat_slice, Nat.shiftLeft_eq,
      BitVec.toNat_ofNat, Nat.mod_eq_of_lt (show payload b * 2 ^ (7 * p) < 2 ^ 64 by omega)]
  have hkept := (slice_kept_iff (7 * p) b).mpr (by omega)
  rw [decodeULEB128Loop]
  dsimp only
  rw [if_neg (by omega), if_neg (by omega), if_neg (not_not.mpr hkept), hsum]
  rfl

/-- A byte whose bits do not fit. -/
theorem decodeULEB128Loop_large (hp : p ≤ 9) (h : 2 ^ 64 ≤ payload b * 2 ^ (7 * p)) :
    decodeULEB128Loop (b :: data) p Value (7 * p) = fail "uleb128 too big for uint64" p := by
  have hkept := mt (slice_kept_iff (7 * p) b).mp (Nat.not_lt.mpr h)
  rw [decodeULEB128Loop]
  dsimp only
  rw [if_neg (by omega), if_neg (by omega), if_pos hkept]

/-- The eleventh byte. -/
theorem decodeULEB128Loop_eleventh :
    decodeULEB128Loop (b :: data) 10 Value (7 * 10) =
      if payload b = 0 then none else fail "uleb128 too big for uint64" 10 := by
  rw [decodeULEB128Loop]
  dsimp only
  by_cases h : payload b = 0
  · rw [if_neg fun hne => hne.2 ((slice_eq_zero_iff b).mpr h), if_pos (by decide), if_pos h]
  · rw [if_pos ⟨by decide, mt (slice_eq_zero_iff b).mp h⟩, if_neg h]

theorem two_pow_seven_mul_succ (p : Nat) : 2 ^ (7 * (p + 1)) = 2 ^ (7 * p) * 128 := by
  rw [Nat.mul_add, pow_add]
  rfl

/-- **A group whose number fits is read**, unless it has more than ten bytes. -/
theorem decodeULEB128Loop_group (hg : LebGroup g) (hp : p ≤ 10)
    (hfits : Value.toNat + unsignedValue g * 2 ^ (7 * p) < 2 ^ 64) :
    decodeULEB128Loop (g ++ rest) p Value (7 * p) =
      if p + g.length ≤ 10 then
        some ⟨BitVec.ofNat 64 (Value.toNat + unsignedValue g * 2 ^ (7 * p)), p + g.length, none⟩
      else none := by
  induction hg generalizing p Value with
  | @last b hlast =>
    rw [unsignedValue, unsignedValue, Nat.mul_zero, Nat.add_zero] at hfits ⊢
    rw [List.singleton_append, List.length_singleton]
    rcases Nat.lt_or_ge p 10 with hlt | hge
    · rw [decodeULEB128Loop_fits (by omega) hfits, if_neg hlast, if_pos (by omega)]
    · obtain rfl : p = 10 := by omega
      rw [decodeULEB128Loop_eleventh, if_pos (by omega), if_neg (by decide)]
  | @more b g hmore hg ih =>
    have hsplit : unsignedValue (b :: g) * 2 ^ (7 * p) =
        payload b * 2 ^ (7 * p) + unsignedValue g * 2 ^ (7 * (p + 1)) := by
      rw [unsignedValue, two_pow_seven_mul_succ]
      ring
    rw [hsplit] at hfits ⊢
    rw [List.cons_append, List.length_cons]
    rcases Nat.lt_or_ge p 10 with hlt | hge
    · have hvalue : (BitVec.ofNat 64 (Value.toNat + payload b * 2 ^ (7 * p))).toNat =
          Value.toNat + payload b * 2 ^ (7 * p) := by
        rw [BitVec.toNat_ofNat, Nat.mod_eq_of_lt (by omega)]
      rw [decodeULEB128Loop_fits (by omega) (by omega), if_pos hmore, ih (by omega) (by omega),
        hvalue, Nat.add_assoc p, Nat.add_comm 1, Nat.add_assoc Value.toNat]
    · obtain rfl : p = 10 := by omega
      rw [decodeULEB128Loop_eleventh, if_pos (by omega), if_neg (by omega)]

/-- The first bytes of a number leave room for seven bits more. -/
theorem sum_lt_next (hV : Value.toNat < 2 ^ (7 * p)) :
    Value.toNat + payload b * 2 ^ (7 * p) < 2 ^ (7 * (p + 1)) := by
  rw [Nat.mul_add]
  exact Support.Sleb128.sum_lt hV (payload_lt b)

theorem toNat_first_bytes (hp : p ≤ 8) (hV : Value.toNat < 2 ^ (7 * p)) :
    Value.toNat + payload b * 2 ^ (7 * p) < 2 ^ 64 :=
  (sum_lt_next hV).trans_le (Nat.pow_le_pow_right (by decide) (by omega))

/-- **A value that is returned is that of the group at the head of the bytes.** -/
theorem decodeULEB128Loop_sound (hp : p ≤ 10) (hV : Value.toNat < 2 ^ (7 * p))
    (h : decodeULEB128Loop data p Value (7 * p) = some r) (hok : r.error = none) :
    ∃ g rest, data = g ++ rest ∧ LebGroup g ∧ r.n = p + g.length ∧
      r.value.toNat = Value.toNat + unsignedValue g * 2 ^ (7 * p) := by
  induction data generalizing p Value with
  | nil =>
    obtain rfl := Option.some.inj h
    cases hok
  | cons b data ih =>
    rcases Nat.lt_or_ge p 10 with hlt | hge
    · by_cases hfits : Value.toNat + payload b * 2 ^ (7 * p) < 2 ^ 64
      · have hvalue : (BitVec.ofNat 64 (Value.toNat + payload b * 2 ^ (7 * p))).toNat =
            Value.toNat + payload b * 2 ^ (7 * p) := by
          rw [BitVec.toNat_ofNat, Nat.mod_eq_of_lt hfits]
        rw [decodeULEB128Loop_fits (by omega) hfits] at h
        split at h
        · rename_i hmore
          obtain ⟨g, rest, rfl, hg, hn, hr⟩ := ih (by omega) (hvalue.trans_lt (sum_lt_next hV)) h
          refine ⟨b :: g, rest, rfl, .more hmore hg, ?_, ?_⟩
          · rw [hn, List.length_cons]
            omega
          · rw [hr, hvalue, unsignedValue, two_pow_seven_mul_succ]
            ring
        · rename_i hlast
          obtain rfl := Option.some.inj h
          refine ⟨[b], data, rfl, .last hlast, rfl, ?_⟩
          rw [hvalue, unsignedValue, unsignedValue, Nat.mul_zero, Nat.add_zero]
      · -- only the tenth byte has bits beyond the 64th
        have hp9 : p = 9 := by
          by_contra hne
          exact hfits (toNat_first_bytes (by omega) hV)
        subst hp9
        have hlarge : 2 ^ 64 ≤ payload b * 2 ^ (7 * 9) := by omega
        rw [decodeULEB128Loop_large (by decide) hlarge] at h
        obtain rfl := Option.some.inj h
        cases hok
    · obtain rfl : p = 10 := by omega
      rw [decodeULEB128Loop_eleventh] at h
      split at h
      · cases h
      · obtain rfl := Option.some.inj h
        cases hok

/-! ### Overlong numbers -/

/-- Ten continued bytes of which the tenth is not refused, and an eleventh byte that goes with it.
Bytes before them are read already. -/
def OverlongAfter (goes : Nat → Nat → Prop) (k : Nat) (data : List (BitVec 8)) : Prop :=
  ∃ first tenth next rest, data = first ++ tenth :: next :: rest ∧ first.length = k ∧
    (∀ b ∈ first, Continues b) ∧ Continues tenth ∧ goes (payload tenth) (payload next)

/-- The bytes of an unsigned number that goes on after 64 bits, with no bit set there. -/
def OverlongULEB (data : List (BitVec 8)) : Prop :=
  OverlongAfter (fun tenth next => tenth ≤ 1 ∧ next = 0) 9 data

/-- The bytes of a signed number that goes on after 64 bits, with its sign. -/
def OverlongSLEB (data : List (BitVec 8)) : Prop :=
  OverlongAfter (fun tenth next => (tenth = 0 ∨ tenth = 0x7f) ∧ next = tenth) 9 data

variable {goes : Nat → Nat → Prop}

theorem overlongAfter_nil {k : Nat} : ¬OverlongAfter goes k [] := by
  rintro ⟨first, tenth, next, rest, heq, -⟩
  exact absurd heq (by simp)

theorem overlongAfter_zero_cons :
    OverlongAfter goes 0 (b :: data) ↔
      Continues b ∧ ∃ next rest, data = next :: rest ∧ goes (payload b) (payload next) := by
  constructor
  · rintro ⟨first, tenth, next, rest, heq, hlen, -, htenth, hgoes⟩
    obtain rfl := List.length_eq_zero_iff.mp hlen
    obtain ⟨rfl, rfl⟩ := List.cons.inj heq
    exact ⟨htenth, next, rest, rfl, hgoes⟩
  · rintro ⟨htenth, next, rest, rfl, hgoes⟩
    exact ⟨[], b, next, rest, rfl, rfl, by simp, htenth, hgoes⟩

theorem overlongAfter_succ_cons {k : Nat} :
    OverlongAfter goes (k + 1) (b :: data) ↔ Continues b ∧ OverlongAfter goes k data := by
  constructor
  · rintro ⟨first, tenth, next, rest, heq, hlen, hfirst, htenth⟩
    obtain ⟨c, first, rfl⟩ := List.exists_cons_of_length_eq_add_one hlen
    obtain ⟨rfl, rfl⟩ := List.cons.inj heq
    refine ⟨hfirst b List.mem_cons_self, first, tenth, next, rest, rfl, by simpa using hlen,
      fun c hc => hfirst c (List.mem_cons_of_mem b hc), htenth⟩
  · rintro ⟨hb, first, tenth, next, rest, rfl, hlen, hfirst, htenth⟩
    refine ⟨b :: first, tenth, next, rest, rfl, by simpa using hlen, fun c hc => ?_, htenth⟩
    rcases List.mem_cons.mp hc with rfl | hc
    · exact hb
    · exact hfirst c hc

theorem decodeULEB128Loop_none_iff {k : Nat} (hp : p + k = 9) (hV : Value.toNat < 2 ^ (7 * p)) :
    decodeULEB128Loop data p Value (7 * p) = none ↔
      OverlongAfter (fun tenth next => tenth ≤ 1 ∧ next = 0) k data := by
  induction k generalizing data p Value with
  | zero =>
    obtain rfl : p = 9 := hp
    cases data with
    | nil => exact iff_of_false (Option.some_ne_none _) overlongAfter_nil
    | cons b data =>
      rw [overlongAfter_zero_cons]
      by_cases hone : payload b ≤ 1
      · rw [decodeULEB128Loop_fits (by decide) (by omega)]
        split
        · rename_i hmore
          rw [and_iff_right hmore]
          cases data with
          | nil => exact iff_of_false (Option.some_ne_none _) (by simp)
          | cons next data =>
            rw [decodeULEB128Loop_eleventh]
            split
            · rename_i hzero
              exact iff_of_true rfl ⟨next, data, rfl, hone, hzero⟩
            · rename_i hne
              refine iff_of_false (Option.some_ne_none _) ?_
              rintro ⟨_, _, heq, -, hzero⟩
              obtain ⟨rfl, rfl⟩ := List.cons.inj heq
              exact hne hzero
        · rename_i hlast
          exact iff_of_false (Option.some_ne_none _) fun h => hlast h.1
      · rw [decodeULEB128Loop_large (by decide) (by omega)]
        refine iff_of_false (Option.some_ne_none _) ?_
        rintro ⟨-, _, _, -, hle, -⟩
        exact hone hle
  | succ k ih =>
    cases data with
    | nil => exact iff_of_false (Option.some_ne_none _) overlongAfter_nil
    | cons b data =>
      have hfits := toNat_first_bytes (b := b) (by omega) hV
      have hnext := sum_lt_next (b := b) hV
      rw [overlongAfter_succ_cons, decodeULEB128Loop_fits (by omega) hfits]
      split
      · rename_i hmore
        rw [and_iff_right hmore]
        refine ih (by omega) ?_
        rw [BitVec.toNat_ofNat, Nat.mod_eq_of_lt hfits]
        exact hnext
      · rename_i hlast
        exact iff_of_false (Option.some_ne_none _) fun h => hlast h.1

/-! ## What `decodeSLEB128` reads -/

theorem sign_bit_iff (b : BitVec 8) : b.toNat &&& 0x40 ≠ 0 ↔ 64 ≤ payload b := by
  have hall : ∀ n : Fin 256, n.val &&& 0x40 ≠ 0 ↔ 64 ≤ n.val % 128 := by
    decide +kernel
  exact hall ⟨b.toNat, b.isLt⟩

theorem ofInt_eq_of_cell {x : BitVec 64} {v : Int} (h : Support.cell 64 v = x.toNat) :
    x = BitVec.ofInt 64 v := by
  rw [← BitVec.toNat_inj, BitVec.toNat_ofInt, ← h]
  rfl

theorem toNat_or_slice (hp : p ≤ 8) (hV : Value.toNat < 2 ^ (7 * p)) :
    (Value ||| BitVec.ofNat 64 (payload b) <<< (7 * p)).toNat =
      Value.toNat + payload b * 2 ^ (7 * p) := by
  have hfits := toNat_first_bytes (b := b) hp hV
  rw [BitVec.toNat_or, BitVec.toNat_shiftLeft, toNat_slice, Nat.shiftLeft_eq,
    Nat.mod_eq_of_lt (by omega), Support.Sleb128.or_shifted hV]

/-- The value after a last byte: the sign of the byte is that of the number. -/
theorem sign_extended (hp : p ≤ 8) (hV : Value.toNat < 2 ^ (7 * p)) :
    (if 7 * p + 7 < 64 ∧ b.toNat &&& 0x40 ≠ 0 then
      Value ||| BitVec.ofNat 64 (payload b) <<< (7 * p) ||| BitVec.allOnes 64 <<< (7 * p + 7)
      else Value ||| BitVec.ofNat 64 (payload b) <<< (7 * p)) =
    BitVec.ofInt 64 (Value.toNat + signedPayload b * 2 ^ (7 * p)) := by
  have hb := payload_lt b
  have hor := toNat_or_slice (b := b) hp hV
  have hnext : Value.toNat + payload b * 2 ^ (7 * p) < 2 ^ (7 * p + 7) := sum_lt_next hV
  simp only [sign_bit_iff]
  unfold signedPayload
  split_ifs with hneg hsmall hsmall
  · omega
  · refine ofInt_eq_of_cell ?_
    rw [Support.Sleb128.cell_last_neg hV hb (by omega) rfl, BitVec.toNat_or, BitVec.toNat_shiftLeft,
      BitVec.toNat_allOnes, Nat.shiftLeft_eq, hor, Support.Sleb128.extension (by omega),
      Support.Sleb128.or_shifted hnext, show 64 - (7 * p + 7) = 57 - 7 * p by omega]
  · refine ofInt_eq_of_cell ?_
    rw [Support.Sleb128.cell_last_pos hV hb (by omega) rfl, hor]
  · omega

/-- One of the first nine bytes. -/
theorem decodeSLEB128Loop_first (hp : p ≤ 8) (hV : Value.toNat < 2 ^ (7 * p)) :
    decodeSLEB128Loop (b :: data) p Value (7 * p) =
      if Continues b then
        decodeSLEB128Loop data (p + 1) (BitVec.ofNat 64 (Value.toNat + payload b * 2 ^ (7 * p)))
          (7 * (p + 1))
      else some ⟨BitVec.ofInt 64 (Value.toNat + signedPayload b * 2 ^ (7 * p)), p + 1, none⟩ := by
  have hvalue : Value ||| BitVec.ofNat 64 (payload b) <<< (7 * p) =
      BitVec.ofNat 64 (Value.toNat + payload b * 2 ^ (7 * p)) := by
    rw [← BitVec.toNat_inj, BitVec.toNat_ofNat, toNat_or_slice hp hV,
      Nat.mod_eq_of_lt (toNat_first_bytes hp hV)]
  have hsign := sign_extended (b := b) hp hV
  rw [decodeSLEB128Loop]
  dsimp only
  rw [if_neg (by omega), if_neg (by omega)]
  by_cases hmore : Continues b
  · rw [if_pos (show 128 ≤ b.toNat from hmore), if_pos hmore, hvalue]
    rfl
  · rw [if_neg (show ¬128 ≤ b.toNat from hmore), if_neg hmore, ← hsign]
    split <;> rfl

/-- The tenth byte holds the sign alone. -/
theorem decodeSLEB128Loop_tenth (hV : Value.toNat < 2 ^ 63)
    (hb : payload b = 0 ∨ payload b = 0x7f) :
    decodeSLEB128Loop (b :: data) 9 Value (7 * 9) =
      if Continues b then
        decodeSLEB128Loop data 10 (BitVec.ofInt 64 (Value.toNat + signedPayload b * 2 ^ 63)) (7 * 10)
      else some ⟨BitVec.ofInt 64 (Value.toNat + signedPayload b * 2 ^ 63), 10, none⟩ := by
  have hvalue : Value ||| BitVec.ofNat 64 (payload b) <<< (7 * 9) =
      BitVec.ofInt 64 (Value.toNat + signedPayload b * 2 ^ 63) := by
    refine ofInt_eq_of_cell ?_
    unfold Support.cell
    rcases hb with hb | hb
    · have hsign : signedPayload b = 0 := by
        rw [signedPayload, hb]
        rfl
      have hzero : ((BitVec.ofNat 64 0) <<< (7 * 9)).toNat = 0 * 2 ^ 63 := by decide
      rw [hsign, hb, BitVec.toNat_or, hzero, Support.Sleb128.or_shifted hV]
      omega
    · have hsign : signedPayload b = -1 := by
        rw [signedPayload, hb]
        rfl
      have hones : ((BitVec.ofNat 64 0x7f) <<< (7 * 9)).toNat = 1 * 2 ^ 63 := by decide
      rw [hsign, hb, BitVec.toNat_or, hones, Support.Sleb128.or_shifted hV]
      omega
  have hkept : ¬(7 * 9 = 63 ∧ BitVec.ofNat 64 (payload b) ≠ 0 ∧
      BitVec.ofNat 64 (payload b) ≠ 0x7f) := by
    rcases hb with hb | hb
    · rw [hb]
      decide
    · rw [hb]
      decide
  rw [decodeSLEB128Loop]
  dsimp only
  rw [if_neg fun h => h.elim (fun h => absurd h.1 (by decide)) hkept, if_neg (by decide), hvalue]
  by_cases hmore : Continues b
  · rw [if_pos (show 128 ≤ b.toNat from hmore), if_pos hmore]
  · rw [if_neg (show ¬128 ≤ b.toNat from hmore), if_neg hmore, if_neg (by omega)]

/-- A tenth byte that holds more than the sign. -/
theorem decodeSLEB128Loop_tenth_large (hb : ¬(payload b = 0 ∨ payload b = 0x7f)) :
    decodeSLEB128Loop (b :: data) 9 Value (7 * 9) = fail "sleb128 too big for int64" 9 := by
  have hones : BitVec.ofNat 64 (payload b) = 0x7f ↔ payload b = 0x7f := by
    rw [← BitVec.toNat_inj, toNat_slice]
    rfl
  rw [not_or] at hb
  rw [decodeSLEB128Loop]
  dsimp only
  exact if_pos (.inr ⟨by decide, mt (slice_eq_zero_iff b).mp hb.1, mt hones.mp hb.2⟩)

/-- The eleventh byte. -/
theorem decodeSLEB128Loop_eleventh :
    decodeSLEB128Loop (b :: data) 10 Value (7 * 10) =
      if payload b = (if Value.toInt < 0 then 0x7f else 0) then none
      else fail "sleb128 too big for int64" 10 := by
  have hslice : BitVec.ofNat 64 (payload b) = (if Value.toInt < 0 then 0x7f else 0) ↔
      payload b = (if Value.toInt < 0 then 0x7f else 0) := by
    rw [← BitVec.toNat_inj, toNat_slice]
    split <;> rfl
  rw [decodeSLEB128Loop]
  dsimp only
  by_cases h : payload b = (if Value.toInt < 0 then 0x7f else 0)
  · rw [if_neg, if_pos (by decide), if_pos h]
    rintro (⟨-, hne⟩ | ⟨heq, -⟩)
    · exact hne (hslice.mpr h)
    · exact absurd heq (by decide)
  · rw [if_pos (.inl ⟨by decide, mt hslice.mp h⟩), if_neg h]

theorem signedPayload_bounds (b : BitVec 8) : -64 ≤ signedPayload b ∧ signedPayload b < 64 := by
  have hb := payload_lt b
  unfold signedPayload
  split <;> omega

/-- A group that denotes a sign starts with it. -/
theorem payload_of_sign {c : BitVec 8} (h : signedValue (c :: g) = 0 ∨ signedValue (c :: g) = -1) :
    signedValue (c :: g) = 0 ∧ payload c = 0 ∨ signedValue (c :: g) = -1 ∧ payload c = 0x7f := by
  have hc := payload_lt c
  cases g with
  | nil =>
    rw [signedValue] at h ⊢
    unfold signedPayload at h ⊢
    rcases Nat.lt_or_ge (payload c) 64 with hsmall | hlarge
    · rw [if_pos hsmall] at h ⊢
      omega
    · rw [if_neg (Nat.not_lt.mpr hlarge)] at h ⊢
      omega
  | cons d g =>
    rw [signedValue_cons c (List.cons_ne_nil d g)] at h ⊢
    omega

/-- The number of a group from its first byte on. -/
theorem signedValue_split (hg : g ≠ []) (p : Nat) :
    signedValue (b :: g) * 2 ^ (7 * p) =
      (payload b * 2 ^ (7 * p) : Nat) + signedValue g * 2 ^ (7 * (p + 1)) := by
  rw [signedValue_cons b hg, show 7 * (p + 1) = 7 * p + 7 from rfl, pow_add]
  push_cast
  ring

theorem toInt_ofInt64 {v : Int} (hlo : -2 ^ 63 ≤ v) (hhi : v < 2 ^ 63) :
    (BitVec.ofInt 64 v).toInt = v := BitVec.toInt_ofInt_eq_self (by decide) hlo hhi

/-- The number that ends in one of the first nine bytes. -/
theorem toInt_last (hp : p ≤ 8) (hV : Value.toNat < 2 ^ (7 * p)) :
    (BitVec.ofInt 64 (Value.toNat + signedPayload b * 2 ^ (7 * p))).toInt =
      Value.toNat + signedPayload b * 2 ^ (7 * p) := by
  have hsign := signedPayload_bounds b
  have hpow : (2 ^ (7 * p) : Int) ≤ 2 ^ 56 := by
    exact_mod_cast Nat.pow_le_pow_right (show 0 < 2 by decide) (show 7 * p ≤ 56 by omega)
  have hV' : (Value.toNat : Int) < 2 ^ (7 * p) := by exact_mod_cast hV
  have hpos : (0 : Int) < 2 ^ (7 * p) := by positivity
  have hlo := Int.mul_le_mul_of_nonneg_right hsign.1 hpos.le
  have hhi := Int.mul_le_mul_of_nonneg_right (show signedPayload b ≤ 63 by omega) hpos.le
  refine toInt_ofInt64 ?_ ?_
  · omega
  · omega

/-- The number that ends in the tenth byte. -/
theorem toInt_tenth (hV : Value.toNat < 2 ^ 63) (hb : payload b = 0 ∨ payload b = 0x7f) :
    (BitVec.ofInt 64 (Value.toNat + signedPayload b * 2 ^ 63)).toInt =
      Value.toNat + signedPayload b * 2 ^ 63 := by
  have hsign : signedPayload b = 0 ∨ signedPayload b = -1 := by
    unfold signedPayload
    split <;> omega
  refine toInt_ofInt64 ?_ ?_
  · omega
  · omega

/-- The byte that goes with the tenth. -/
theorem tenth_sign (hV : Value.toNat < 2 ^ 63) (hb : payload b = 0 ∨ payload b = 0x7f) :
    (if (BitVec.ofInt 64 (Value.toNat + signedPayload b * 2 ^ 63)).toInt < 0 then 0x7f else 0) =
      payload b := by
  rw [toInt_tenth hV hb]
  unfold signedPayload
  rcases hb with hb | hb
  · rw [hb, if_neg (by simp)]
  · rw [hb, if_pos (by simp; omega)]

/-- **A group whose number fits is read**, unless it has more than ten bytes. -/
theorem decodeSLEB128Loop_group (hg : LebGroup g) (hp : p ≤ 9) (hV : Value.toNat < 2 ^ (7 * p))
    (hlo : -2 ^ 63 ≤ Value.toNat + signedValue g * 2 ^ (7 * p))
    (hhi : Value.toNat + signedValue g * 2 ^ (7 * p) < 2 ^ 63) :
    decodeSLEB128Loop (g ++ rest) p Value (7 * p) =
      if p + g.length ≤ 10 then
        some ⟨BitVec.ofInt 64 (Value.toNat + signedValue g * 2 ^ (7 * p)), p + g.length, none⟩
      else none := by
  induction hg generalizing p Value with
  | @last b hlast =>
    rw [signedValue] at hlo hhi ⊢
    rw [List.singleton_append, List.length_singleton, if_pos (by omega)]
    rcases Nat.lt_or_ge p 9 with hlt | hge
    · rw [decodeSLEB128Loop_first (by omega) hV, if_neg hlast]
    · obtain rfl : p = 9 := by omega
      have hsign := payload_of_sign (c := b) (g := []) (by
        rw [signedValue]
        omega)
      rw [decodeSLEB128Loop_tenth hV (hsign.imp And.right And.right), if_neg hlast]
  | @more b g hmore hg ih =>
    rw [List.cons_append, List.length_cons]
    rcases Nat.lt_or_ge p 9 with hlt | hge
    · have hfits := toNat_first_bytes (b := b) (by omega) hV
      have hvalue : (BitVec.ofNat 64 (Value.toNat + payload b * 2 ^ (7 * p))).toNat =
          Value.toNat + payload b * 2 ^ (7 * p) := by
        rw [BitVec.toNat_ofNat, Nat.mod_eq_of_lt hfits]
      have hsplit : (Value.toNat + signedValue (b :: g) * 2 ^ (7 * p) : Int) =
          (Value.toNat + payload b * 2 ^ (7 * p) : Nat) + signedValue g * 2 ^ (7 * (p + 1)) := by
        rw [signedValue_split hg.ne_nil]
        push_cast
        ring
      rw [hsplit] at hlo hhi ⊢
      rw [decodeSLEB128Loop_first (by omega) hV, if_pos hmore,
        ih (by omega) (hvalue.trans_lt (sum_lt_next hV)) (by rwa [hvalue]) (by rwa [hvalue]), hvalue,
        Nat.add_assoc p, Nat.add_comm 1]
    · obtain rfl : p = 9 := by omega
      have hsign := payload_of_sign (c := b) (g := g) (by omega)
      obtain ⟨c, g, rfl⟩ := List.exists_cons_of_ne_nil hg.ne_nil
      rw [decodeSLEB128Loop_tenth hV (hsign.imp And.right And.right), if_pos hmore,
        List.cons_append, decodeSLEB128Loop_eleventh, if_pos, if_neg]
      · rw [List.length_cons]
        omega
      · rw [tenth_sign hV (hsign.imp And.right And.right)]
        rw [signedValue_cons b (List.cons_ne_nil c g)] at hsign
        have hnext := payload_of_sign (c := c) (g := g) (by omega)
        omega

/-- **A value that is returned is that of the group at the head of the bytes.** -/
theorem decodeSLEB128Loop_sound (hp : p ≤ 9) (hV : Value.toNat < 2 ^ (7 * p))
    (h : decodeSLEB128Loop data p Value (7 * p) = some r) (hok : r.error = none) :
    ∃ g rest, data = g ++ rest ∧ LebGroup g ∧ r.n = p + g.length ∧
      r.value.toInt = Value.toNat + signedValue g * 2 ^ (7 * p) := by
  induction data generalizing p Value with
  | nil =>
    obtain rfl := Option.some.inj h
    cases hok
  | cons b data ih =>
    rcases Nat.lt_or_ge p 9 with hlt | hge
    · have hfits := toNat_first_bytes (b := b) (by omega) hV
      have hvalue : (BitVec.ofNat 64 (Value.toNat + payload b * 2 ^ (7 * p))).toNat =
          Value.toNat + payload b * 2 ^ (7 * p) := by
        rw [BitVec.toNat_ofNat, Nat.mod_eq_of_lt hfits]
      rw [decodeSLEB128Loop_first (by omega) hV] at h
      split at h
      · rename_i hmore
        obtain ⟨g, rest, rfl, hg, hn, hr⟩ :=
          ih (by omega) (hvalue.trans_lt (sum_lt_next hV)) h
        refine ⟨b :: g, rest, rfl, .more hmore hg, ?_, ?_⟩
        · rw [hn, List.length_cons]
          omega
        · rw [hr, hvalue, signedValue_split hg.ne_nil]
          push_cast
          ring
      · rename_i hlast
        obtain rfl := Option.some.inj h
        exact ⟨[b], data, rfl, .last hlast, rfl, toInt_last (by omega) hV⟩
    · obtain rfl : p = 9 := by omega
      by_cases hb : payload b = 0 ∨ payload b = 0x7f
      · rw [decodeSLEB128Loop_tenth hV hb] at h
        split at h
        · cases data with
          | nil =>
            obtain rfl := Option.some.inj h
            cases hok
          | cons next data =>
            rw [decodeSLEB128Loop_eleventh, tenth_sign hV hb] at h
            split at h
            · cases h
            · obtain rfl := Option.some.inj h
              cases hok
        · rename_i hlast
          obtain rfl := Option.some.inj h
          exact ⟨[b], data, rfl, .last hlast, rfl, toInt_tenth hV hb⟩
      · rw [decodeSLEB128Loop_tenth_large hb] at h
        obtain rfl := Option.some.inj h
        cases hok

theorem decodeSLEB128Loop_none_iff {k : Nat} (hp : p + k = 9) (hV : Value.toNat < 2 ^ (7 * p)) :
    decodeSLEB128Loop data p Value (7 * p) = none ↔
      OverlongAfter (fun tenth next => (tenth = 0 ∨ tenth = 0x7f) ∧ next = tenth) k data := by
  induction k generalizing data p Value with
  | zero =>
    obtain rfl : p = 9 := hp
    cases data with
    | nil => exact iff_of_false (Option.some_ne_none _) overlongAfter_nil
    | cons b data =>
      rw [overlongAfter_zero_cons]
      by_cases hb : payload b = 0 ∨ payload b = 0x7f
      · rw [decodeSLEB128Loop_tenth hV hb]
        split
        · rename_i hmore
          rw [and_iff_right hmore]
          cases data with
          | nil => exact iff_of_false (Option.some_ne_none _) (by simp)
          | cons next data =>
            rw [decodeSLEB128Loop_eleventh, tenth_sign hV hb]
            split
            · rename_i hsame
              exact iff_of_true rfl ⟨next, data, rfl, hb, hsame⟩
            · rename_i hne
              refine iff_of_false (Option.some_ne_none _) ?_
              rintro ⟨_, _, heq, -, hsame⟩
              obtain ⟨rfl, rfl⟩ := List.cons.inj heq
              exact hne hsame
        · rename_i hlast
          exact iff_of_false (Option.some_ne_none _) fun h => hlast h.1
      · rw [decodeSLEB128Loop_tenth_large hb]
        refine iff_of_false (Option.some_ne_none _) ?_
        rintro ⟨-, _, _, -, htenth, -⟩
        exact hb htenth
  | succ k ih =>
    cases data with
    | nil => exact iff_of_false (Option.some_ne_none _) overlongAfter_nil
    | cons b data =>
      have hfits := toNat_first_bytes (b := b) (by omega) hV
      have hnext := sum_lt_next (b := b) hV
      rw [overlongAfter_succ_cons, decodeSLEB128Loop_first (by omega) hV]
      split
      · rename_i hmore
        rw [and_iff_right hmore]
        refine ih (by omega) ?_
        rw [BitVec.toNat_ofNat, Nat.mod_eq_of_lt hfits]
        exact hnext
      · rename_i hlast
        exact iff_of_false (Option.some_ne_none _) fun h => hlast h.1

end decode

/-! ## The codecs -/

/-- A decoder is right on a byte string: it shifts by less than 64, the value and the length that it
returns are those of the number at the head of the bytes, and it reports an error only where no
number is there that fits. -/
structure Right (data : List (BitVec 8)) (denotes : BitVec 64 → List (BitVec 8) → Prop)
    (result : Option Decoded) : Prop where
  defined : result ≠ none
  value : ∀ r, result = some r → r.error = none →
    ∃ g rest, data = g ++ rest ∧ LebGroup g ∧ r.n = g.length ∧ denotes r.value g
  error : ∀ r, result = some r → r.error ≠ none →
    ∀ g rest v, data = g ++ rest → LebGroup g → ¬denotes v g

/-- A value comes back from its encoding, with the number of the bytes written, whatever follows. -/
def RoundTrips (encode : BitVec 64 → Nat → List (BitVec 8) × Nat)
    (decode : List (BitVec 8) → Option Decoded) (v : BitVec 64) (PadTo : Nat)
    (rest : List (BitVec 8)) : Prop :=
  decode ((encode v PadTo).1 ++ rest) = some ⟨v, (encode v PadTo).1.length, none⟩ ∧
    (encode v PadTo).2 = (encode v PadTo).1.length

theorem toNat_zero_lt : (0 : BitVec 64).toNat < 2 ^ (7 * 0) := by decide

theorem decodeULEB128_group {g rest : List (BitVec 8)} {v : BitVec 64} (hg : LebGroup g)
    (hv : v.toNat = unsignedValue g) :
    decodeULEB128 (g ++ rest) = if g.length ≤ 10 then some ⟨v, g.length, none⟩ else none := by
  have hfits : (0 : BitVec 64).toNat + unsignedValue g * 2 ^ (7 * 0) = v.toNat := by
    rw [hv]
    simp
  have h : decodeULEB128Loop (g ++ rest) 0 0 (7 * 0) = _ :=
    decodeULEB128Loop_group hg (Nat.zero_le 10) (hfits ▸ v.isLt)
  rw [hfits, Nat.zero_add, BitVec.ofNat_toNat, BitVec.setWidth_eq] at h
  exact h

theorem decodeSLEB128_group {g rest : List (BitVec 8)} {v : BitVec 64} (hg : LebGroup g)
    (hv : v.toInt = signedValue g) :
    decodeSLEB128 (g ++ rest) = if g.length ≤ 10 then some ⟨v, g.length, none⟩ else none := by
  have hfits : ((0 : BitVec 64).toNat : Int) + signedValue g * 2 ^ (7 * 0) = v.toInt := by
    rw [hv]
    simp
  have hv64 := isInt64 v
  have h : decodeSLEB128Loop (g ++ rest) 0 0 (7 * 0) = _ :=
    decodeSLEB128Loop_group hg (Nat.zero_le 9) toNat_zero_lt (hfits ▸ hv64.1) (hfits ▸ hv64.2)
  rw [hfits, Nat.zero_add, BitVec.ofInt_toInt] at h
  exact h

theorem roundTrips_iff_short {encode : BitVec 64 → Nat → List (BitVec 8) × Nat}
    {decode : List (BitVec 8) → Option Decoded} {v : BitVec 64} {rest : List (BitVec 8)}
    (hencoded : Encoded (encode v PadTo) PadTo) (hdecode : decode ((encode v PadTo).1 ++ rest) =
      if (encode v PadTo).1.length ≤ 10 then some ⟨v, (encode v PadTo).1.length, none⟩ else none) :
    RoundTrips encode decode v PadTo rest ↔ PadTo ≤ 10 := by
  unfold RoundTrips
  rw [hdecode, ← hencoded.short, and_iff_left hencoded.count]
  split
  · rename_i hshort
    exact iff_of_true rfl hshort
  · rename_i hlong
    exact iff_of_false (by simp) hlong

/-- A decoder that reads every group which fits, of ten bytes at most. -/
theorem right_iff {data : List (BitVec 8)} {denotes : BitVec 64 → List (BitVec 8) → Prop}
    {decode : List (BitVec 8) → Option Decoded} {Overlong : Prop}
    (hnone : decode data = none ↔ Overlong)
    (hsound : ∀ r, decode data = some r → r.error = none →
      ∃ g rest, data = g ++ rest ∧ LebGroup g ∧ r.n = g.length ∧ denotes r.value g)
    (hgroup : ∀ g rest v, LebGroup g → denotes v g →
      decode (g ++ rest) = if g.length ≤ 10 then some ⟨v, g.length, none⟩ else none) :
    Right data denotes (decode data) ↔ ¬Overlong := by
  rw [← hnone]
  refine ⟨Right.defined, fun hdefined => ⟨hdefined, hsound, ?_⟩⟩
  rintro r hr herror g rest v rfl hg hv
  rw [hgroup g rest v hg hv] at hr hdefined
  split at hr
  · obtain rfl := Option.some.inj hr
    exact herror rfl
  · cases hr

/-- **When the LEB128 codecs are right.** A round trip is, for every value, up to ten bytes of
padding. On a byte string a decoder is, unless ten continued bytes hold a 64-bit value and the
eleventh byte only pads it: there it shifts by 70. -/
theorem codecs_right_iff (v : BitVec 64) (PadTo : Nat) (rest data : List (BitVec 8)) :
    (RoundTrips encodeULEB128 decodeULEB128 v PadTo rest ↔ PadTo ≤ 10) ∧
      (RoundTrips encodeSLEB128 decodeSLEB128 v PadTo rest ↔ PadTo ≤ 10) ∧
      (Right data (fun v g => v.toNat = unsignedValue g) (decodeULEB128 data) ↔
        ¬OverlongULEB data) ∧
      (Right data (fun v g => v.toInt = signedValue g) (decodeSLEB128 data) ↔
        ¬OverlongSLEB data) := by
  refine ⟨?_, ?_, ?_, ?_⟩
  · have hencoded := encoded_encodeULEB128 v PadTo
    exact roundTrips_iff_short hencoded
      (decodeULEB128_group hencoded.group (unsignedValue_encodeULEB128 v PadTo).symm)
  · have hencoded := encoded_encodeSLEB128 v PadTo
    exact roundTrips_iff_short hencoded
      (decodeSLEB128_group hencoded.group (signedValue_encodeSLEB128 v PadTo).symm)
  · refine right_iff (decodeULEB128Loop_none_iff (Nat.zero_add 9) toNat_zero_lt)
      (fun r hr hok => ?_) fun g rest v => decodeULEB128_group
    obtain ⟨g, rest, heq, hg, hn, hv⟩ :=
      decodeULEB128Loop_sound (Nat.zero_le 10) toNat_zero_lt hr hok
    refine ⟨g, rest, heq, hg, by omega, ?_⟩
    rw [hv]
    simp
  · refine right_iff (decodeSLEB128Loop_none_iff (Nat.zero_add 9) toNat_zero_lt)
      (fun r hr hok => ?_) fun g rest v => decodeSLEB128_group
    obtain ⟨g, rest, heq, hg, hn, hv⟩ :=
      decodeSLEB128Loop_sound (Nat.zero_le 9) toNat_zero_lt hr hok
    refine ⟨g, rest, heq, hg, by omega, ?_⟩
    rw [hv]
    simp

/-- Zero, padded to eleven bytes, and the eleven bytes as they are. -/
theorem padded_zero_shifts_by_70 :
    ¬((∀ v PadTo rest, RoundTrips encodeULEB128 decodeULEB128 v PadTo rest) ∧
      ∀ data, Right data (fun v g => v.toNat = unsignedValue g) (decodeULEB128 data)) := by
  rintro ⟨-, hright⟩
  refine (hright (List.replicate 10 0x80 ++ [0])).defined ?_
  decide

end RvLlvm.Codec.Leb128
