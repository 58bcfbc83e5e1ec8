import Mathlib.Data.Nat.Digits.Lemmas
import Mathlib.Data.Nat.Size
import Mathlib.Tactic.Linarith
import Mathlib.Tactic.Ring
import RvLlvm.APInt.Divide
import RvLlvm.Support.WordOrder

/-!
# Words as text

Model of `APInt::fromString`, `toString`, `getSufficientBitsNeeded` and `getBitsNeeded`
(`llvm/lib/Support/APInt.cpp:49-73, 513-584, 2112-2276`). A failed assertion has no result. Sizes are
taken modulo `2 ^ 64` and the returned widths modulo `2 ^ 32`, as `size_t` and `unsigned` are.

* `fromString_text`: what a number's digits are read as.
* `toString_eq`: what a word is printed as.
* `fits_iff`: where the width found without parsing is wide enough.
* `text_right_iff`: the round trip fails for the width zero in radix 2 only, and the widths are
  right except for two digits in radix 36 that ten bits do not hold, and for digits that are too
  many for 32-bit widths.
-/

namespace RvLlvm.APInt.Text

open Support.WordOrder

/-- The radices. -/
inductive Radix
  | two | eight | ten | sixteen | thirtySix
  deriving DecidableEq

def Radix.toNat : Radix → Nat
  | two => 2
  | eight => 8
  | ten => 10
  | sixteen => 16
  | thirtySix => 36

/-- How far a digit shifts the value, or zero where the value is multiplied. -/
def Radix.shift : Radix → Nat
  | two => 1
  | eight => 3
  | ten => 0
  | sixteen => 4
  | thirtySix => 0

/-! ## Digits -/

/-- The difference of two characters as an `unsigned`. -/
def charDiff (c d : Char) : Nat := (c.toNat + 2 ^ 32 - d.toNat) % 2 ^ 32

/-- The last lines of `getDigit`; the largest `unsigned` is no digit. -/
def decimalDigit (cdigit : Char) (radix : Nat) : Nat :=
  if charDiff cdigit '0' < radix then charDiff cdigit '0' else 2 ^ 32 - 1

def getDigit (cdigit : Char) (radix : Radix) : Nat :=
  if radix = .sixteen ∨ radix = .thirtySix then
    if charDiff cdigit '0' ≤ 9 then charDiff cdigit '0'
    else if charDiff cdigit 'A' ≤ radix.toNat - 11 then charDiff cdigit 'A' + 10
    else if charDiff cdigit 'a' ≤ radix.toNat - 11 then charDiff cdigit 'a' + 10
    else decimalDigit cdigit 10
  else decimalDigit cdigit radix.toNat

def BothDigits : List Char :=
  ['0', '1', '2', '3', '4', '5', '6', '7', '8', '9', 'a', 'b', 'c', 'd', 'e', 'f', 'g', 'h',
    'i', 'j', 'k', 'l', 'm', 'n', 'o', 'p', 'q', 'r', 's', 't', 'u', 'v', 'w', 'x', 'y', 'z',
    '0', '1', '2', '3', '4', '5', '6', '7', '8', '9', 'A', 'B', 'C', 'D', 'E', 'F', 'G', 'H',
    'I', 'J', 'K', 'L', 'M', 'N', 'O', 'P', 'Q', 'R', 'S', 'T', 'U', 'V', 'W', 'X', 'Y', 'Z']

/-- `Digits[d]`. -/
def Digits (UpperCase : Bool) (d : Nat) : Char :=
  BothDigits.getD ((if UpperCase then 36 else 0) + d) '0'

/-- A printed digit is read back. -/
theorem getDigit_Digits {radix : Radix} {d : Nat} (UpperCase : Bool) (h : d < radix.toNat) :
    getDigit (Digits UpperCase d) radix = d := by
  have hall : ∀ upper : Bool, ∀ d < radix.toNat, getDigit (Digits upper d) radix = d := by
    cases radix <;> decide
  exact hall UpperCase d h

/-- The signs are no digits. -/
theorem ne_sign {radix : Radix} {c : Char} (h : getDigit c radix < radix.toNat) :
    c ≠ '-' ∧ c ≠ '+' := by
  constructor <;> rintro rfl <;> cases radix <;> exact absurd h (by decide)

theorem Radix.one_lt (radix : Radix) : 1 < radix.toNat := by cases radix <;> decide

theorem Radix.le (radix : Radix) : radix.toNat ≤ 36 := by cases radix <;> decide

/-- Where the value is shifted, it is multiplied as well. -/
theorem Radix.two_pow_shift {radix : Radix} (h : radix.shift ≠ 0) :
    2 ^ radix.shift = radix.toNat := by
  cases radix <;> first | rfl | exact absurd rfl h

/-! ## `fromString` -/

/-- Whether there is a minus sign, and what is behind the sign. -/
def skipSign : List Char → Bool × List Char
  | '-' :: cs => (true, cs)
  | '+' :: cs => (false, cs)
  | cs => (false, cs)

/-- The assertions on the width. -/
def Sufficient (numbits slen : Nat) : Radix → Prop
  | .two => slen ≤ numbits
  | .eight => (slen - 1) * 3 % 2 ^ 64 ≤ numbits
  | .sixteen => (slen - 1) * 4 % 2 ^ 64 ≤ numbits
  | .ten => (slen - 1) * 64 % 2 ^ 64 / 22 ≤ numbits
  | .thirtySix => True

instance (numbits slen : Nat) (radix : Radix) : Decidable (Sufficient numbits slen radix) := by
  cases radix <;> unfold Sufficient <;> infer_instance

variable {W : Nat}

/-- The value shifted or multiplied by the radix. -/
def scale (radix : Radix) (slen : Nat) (x : BitVec W) : Option (BitVec W) :=
  if 1 < slen then
    if radix.shift ≠ 0 then
      if W < radix.shift then none else some (x <<< radix.shift)
    else some (x * BitVec.ofNat W radix.toNat)
  else some x

/-- The digit traversal loop. -/
def enterDigits (radix : Radix) (slen : Nat) (x : BitVec W) : List Char → Option (BitVec W)
  | [] => some x
  | c :: cs =>
    if radix.toNat ≤ getDigit c radix then none
    else (scale radix slen x).bind fun x =>
      enterDigits radix slen (x + BitVec.ofNat W (getDigit c radix)) cs

def fromString (numbits : Nat) (str : List Char) (radix : Radix) : Option (BitVec numbits) :=
  let digits := (skipSign str).2
  if digits = [] ∨ ¬Sufficient numbits digits.length radix then none
  else (enterDigits radix digits.length 0 digits).map fun x =>
    if (skipSign str).1 then -x else x

/-! ## `toString` -/

/-- The prefix of a literal. -/
def literalPrefix (formatAsCLiteral : Bool) (Radix : Radix) : Option (List Char) :=
  if formatAsCLiteral then
    match Radix with
    | .two => some ['0', 'b']
    | .eight => some ['0']
    | .ten => some []
    | .sixteen => some ['0', 'x']
    | .thirtySix => none
  else some []

/-- The digits of one word, written from the end of the buffer on. -/
def wordDigits (UpperCase : Bool) (Radix : Radix) (N : Nat) (Buffer : List Char) : List Char :=
  if N = 0 then Buffer
  else wordDigits UpperCase Radix (N / Radix.toNat) (Digits UpperCase (N % Radix.toNat) :: Buffer)
termination_by N
decreasing_by exact Nat.div_lt_self (Nat.pos_of_ne_zero ‹_›) Radix.one_lt

/-- The lowest digit, and what is left. -/
def nextDigit (Radix : Radix) (Tmp : BitVec W) : Nat × BitVec W :=
  if Radix.shift ≠ 0 then
    (Tmp.toNat % 2 ^ 64 &&& (Radix.toNat - 1), Tmp >>> Radix.shift)
  else (Tmp.toNat % Radix.toNat, Tmp / BitVec.ofNat W Radix.toNat)

theorem nextDigit_lt (Radix : Radix) {Tmp : BitVec W} (h : Tmp ≠ 0) :
    (nextDigit Radix Tmp).2.toNat < Tmp.toNat := by
  have hpos : 0 < Tmp.toNat := Nat.pos_of_ne_zero fun h0 => h (BitVec.eq_of_toNat_eq h0)
  unfold nextDigit
  split
  · next hshift =>
    rw [BitVec.toNat_ushiftRight, Nat.shiftRight_eq_div_pow, Radix.two_pow_shift hshift]
    exact Nat.div_lt_self hpos Radix.one_lt
  · rw [BitVec.toNat_udiv]
    have heven : (BitVec.ofNat W Radix.toNat).toNat % 2 = 0 := by
      rw [BitVec.toNat_ofNat]
      cases W with
      | zero => rw [Nat.pow_zero, Nat.mod_one]
      | succ W =>
        rw [Nat.mod_mod_of_dvd _ (Dvd.intro_left _ (Nat.pow_succ 2 W).symm)]
        cases Radix <;> rfl
    rcases Nat.eq_zero_or_pos (BitVec.ofNat W Radix.toNat).toNat with h0 | hd
    · rw [h0, Nat.div_zero]
      exact hpos
    · exact Nat.div_lt_self hpos (by omega)

/-- The digits of many words, the lowest first. -/
def tmpDigits (UpperCase : Bool) (Radix : Radix) (Tmp : BitVec W) : List Char :=
  if Tmp = 0 then []
  else
    Digits UpperCase (nextDigit Radix Tmp).1 :: tmpDigits UpperCase Radix (nextDigit Radix Tmp).2
termination_by Tmp.toNat
decreasing_by exact nextDigit_lt Radix ‹_›

def toString (x : BitVec W) (Radix : Radix) (Signed formatAsCLiteral UpperCase : Bool) :
    Option (List Char) :=
  (literalPrefix formatAsCLiteral Radix).map fun Prefix =>
    if x = 0 then Prefix ++ ['0']
    else if W ≤ 64 then
      if Signed = false then Prefix ++ wordDigits UpperCase Radix x.toNat []
      else if 0 ≤ x.toInt then Prefix ++ wordDigits UpperCase Radix x.toInt.toNat []
      else '-' :: (Prefix ++ wordDigits UpperCase Radix (-x.toInt % 2 ^ 64).toNat [])
    else if Signed = true ∧ x.msb = true then
      '-' :: (Prefix ++ (tmpDigits UpperCase Radix (-x)).reverse)
    else Prefix ++ (tmpDigits UpperCase Radix x).reverse

/-! ## The widths -/

/-- The width for a number of digits, and one more for a minus sign. -/
def sufficientBits (Radix : Radix) (StrLen IsNegative : Nat) : Nat :=
  match Radix with
  | .two => (StrLen + IsNegative) % 2 ^ 32
  | .eight => (StrLen * 3 + IsNegative) % 2 ^ 32
  | .sixteen => (StrLen * 4 + IsNegative) % 2 ^ 32
  | .ten => ((if StrLen = 1 then 4 else StrLen * 64 % 2 ^ 64 / 18) + IsNegative) % 2 ^ 32
  | .thirtySix => ((if StrLen = 1 then 7 else StrLen * 16 % 2 ^ 64 / 3) + IsNegative) % 2 ^ 32

def getSufficientBitsNeeded (Str : List Char) (Radix : Radix) : Option Nat :=
  let StrLen := (skipSign Str).2.length
  if StrLen = 0 then none else some (sufficientBits Radix StrLen (skipSign Str).1.toNat)

/-- Exactly one bit is set. -/
def isPowerOf2 (x : BitVec W) : Bool := (List.range W).any fun i => x.toNat = 2 ^ i

/-- `logBase2`, of an `unsigned`. -/
def logBase2 (x : BitVec W) : Nat := (getActiveBits x + 2 ^ 32 - 1) % 2 ^ 32

/-- The bits of the parsed value. -/
def bitsOf (isNegative : Bool) (tmp : BitVec W) : Nat :=
  if logBase2 tmp = 2 ^ 32 - 1 then isNegative.toNat + 1
  else if isNegative && isPowerOf2 tmp then (isNegative.toNat + logBase2 tmp) % 2 ^ 32
  else (isNegative.toNat + logBase2 tmp + 1) % 2 ^ 32

def getBitsNeeded (str : List Char) (radix : Radix) : Option Nat :=
  (getSufficientBitsNeeded str radix).bind fun sufficient =>
    if radix = .two ∨ radix = .eight ∨ radix = .sixteen then some sufficient
    else (fromString sufficient (skipSign str).2 radix).map (bitsOf (skipSign str).1)

/-! ## What the digits say -/

/-- The value of digits behind a value. -/
def valueFrom (radix : Radix) (v : Nat) (cs : List Char) : Nat :=
  cs.foldl (fun v c => v * radix.toNat + getDigit c radix) v

/-- The sign of a number. -/
inductive Sign
  | none | plus | minus
  deriving DecidableEq

def Sign.chars : Sign → List Char
  | none => []
  | plus => ['+']
  | minus => ['-']

/-- A digit string. -/
structure Numeral (radix : Radix) where
  sign : Sign
  digits : List Char
  ne_nil : digits ≠ []
  valid : ∀ c ∈ digits, getDigit c radix < radix.toNat

section Numeral

variable {radix : Radix}

def Numeral.text (n : Numeral radix) : List Char := n.sign.chars ++ n.digits

/-- The value without its sign. -/
def Numeral.value (n : Numeral radix) : Nat := valueFrom radix 0 n.digits

def Numeral.negative (n : Numeral radix) : Bool := decide (n.sign = .minus)

theorem valueFrom_lt : ∀ {cs : List Char} (v : Nat), (∀ c ∈ cs, getDigit c radix < radix.toNat) →
    valueFrom radix v cs < (v + 1) * radix.toNat ^ cs.length := by
  intro cs
  induction cs with
  | nil =>
    intro v _
    simp [valueFrom]
  | cons c cs ih =>
    intro v h
    have hc := h c List.mem_cons_self
    have hle : v * radix.toNat + getDigit c radix + 1 ≤ v * radix.toNat + radix.toNat := by omega
    refine (ih (v * radix.toNat + getDigit c radix) fun d hd =>
      h d (List.mem_cons_of_mem c hd)).trans_le ?_
    rw [List.length_cons, Nat.pow_succ', ← Nat.mul_assoc, Nat.succ_mul v]
    exact Nat.mul_le_mul_right _ hle

theorem Numeral.value_lt (n : Numeral radix) : n.value < radix.toNat ^ n.digits.length := by
  have h := valueFrom_lt 0 n.valid
  rwa [Nat.zero_add, Nat.one_mul] at h

theorem skipSign_digits {cs : List Char} (hne : cs ≠ [])
    (h : ∀ c ∈ cs, getDigit c radix < radix.toNat) : skipSign cs = (false, cs) := by
  cases cs with
  | nil => exact absurd rfl hne
  | cons c cs =>
    obtain ⟨hminus, hplus⟩ := ne_sign (h c List.mem_cons_self)
    unfold skipSign
    split
    · next heq => exact absurd (List.cons.inj heq).1 hminus
    · next heq => exact absurd (List.cons.inj heq).1 hplus
    · rfl

theorem Numeral.skipSign_text (n : Numeral radix) : skipSign n.text = (n.negative, n.digits) := by
  unfold text negative
  cases n.sign with
  | none => exact skipSign_digits n.ne_nil n.valid
  | plus => rfl
  | minus => rfl

end Numeral

/-! ## Reading -/

section Reading

variable {radix : Radix} {cs : List Char}

theorem scale_eq {slen : Nat} (v : Nat) (hslen : 1 < slen) (hshift : radix.shift ≤ W) :
    scale radix slen (BitVec.ofNat W v) = some (BitVec.ofNat W (v * radix.toNat)) := by
  rw [scale, if_pos hslen]
  split
  · next h =>
    rw [if_neg (Nat.not_lt.mpr hshift), ← Radix.two_pow_shift h]
    congr 1
    apply BitVec.eq_of_toNat_eq
    rw [BitVec.toNat_shiftLeft, BitVec.toNat_ofNat, BitVec.toNat_ofNat, Nat.shiftLeft_eq,
      Nat.mod_mul_mod]
  · rw [BitVec.ofNat_mul]

theorem enterDigits_eq {slen : Nat} (hslen : 1 < slen) (hshift : radix.shift ≤ W) :
    ∀ {cs : List Char} (v : Nat), (∀ c ∈ cs, getDigit c radix < radix.toNat) →
      enterDigits radix slen (BitVec.ofNat W v) cs = some (BitVec.ofNat W (valueFrom radix v cs)) := by
  intro cs
  induction cs with
  | nil => exact fun _ _ => rfl
  | cons c cs ih =>
    intro v h
    have hc := h c List.mem_cons_self
    rw [enterDigits, if_neg (Nat.not_le.mpr hc), scale_eq v hslen hshift, Option.bind_some,
      ← BitVec.ofNat_add]
    exact ih _ fun d hd => h d (List.mem_cons_of_mem c hd)

/-- The digits alone. -/
theorem enterDigits_all (hne : cs ≠ []) (h : ∀ c ∈ cs, getDigit c radix < radix.toNat)
    (hshift : 1 < cs.length → radix.shift ≤ W) :
    enterDigits radix cs.length 0 cs = some (BitVec.ofNat W (valueFrom radix 0 cs)) := by
  rcases Nat.lt_or_ge 1 cs.length with hlen | hlen
  · exact enterDigits_eq hlen (hshift hlen) 0 h
  · obtain ⟨c, rfl⟩ : ∃ c, cs = [c] :=
      List.length_eq_one_iff.mp (Nat.le_antisymm hlen (List.length_pos_iff.mpr hne))
    rw [enterDigits, if_neg (Nat.not_le.mpr (h c List.mem_cons_self)), scale,
      if_neg (Nat.not_lt.mpr hlen), Option.bind_some, enterDigits]
    simp [valueFrom]

/-- **What digits behind a sign are read as**. -/
theorem fromString_eq {str : List Char} {negative : Bool} (hskip : skipSign str = (negative, cs))
    (hne : cs ≠ []) (h : ∀ c ∈ cs, getDigit c radix < radix.toNat)
    (hsuff : Sufficient W cs.length radix) (hshift : 1 < cs.length → radix.shift ≤ W) :
    fromString W str radix = some (if negative then -BitVec.ofNat W (valueFrom radix 0 cs)
      else BitVec.ofNat W (valueFrom radix 0 cs)) := by
  simp only [fromString, hskip]
  rw [if_neg (by rw [not_or, not_not]; exact ⟨hne, hsuff⟩), enterDigits_all hne h hshift,
    Option.map_some]

end Reading

/-! ## Writing -/

section Writing

variable {x : BitVec W} {Radix : Radix} {UpperCase Signed : Bool}

theorem digits_pos {N : Nat} (h : N ≠ 0) : Nat.digits Radix.toNat N =
    N % Radix.toNat :: Nat.digits Radix.toNat (N / Radix.toNat) :=
  Nat.digits_def' Radix.one_lt (Nat.pos_of_ne_zero h)

theorem wordDigits_eq (N : Nat) (Buffer : List Char) : wordDigits UpperCase Radix N Buffer =
    (Nat.digits Radix.toNat N).reverse.map (Digits UpperCase) ++ Buffer := by
  induction N, Buffer using wordDigits.induct UpperCase Radix with
  | case1 Buffer => simp [wordDigits]
  | case2 N Buffer h ih =>
    rw [wordDigits, if_neg h, ih, digits_pos h, List.reverse_cons, List.map_append,
      List.append_assoc]
    rfl

theorem nextDigit_eq (Radix : Text.Radix) (hW : 64 < W) (Tmp : BitVec W) :
    (nextDigit Radix Tmp).1 = Tmp.toNat % Radix.toNat ∧
      (nextDigit Radix Tmp).2.toNat = Tmp.toNat / Radix.toNat := by
  unfold nextDigit
  split
  · next h =>
    have hle : Radix.shift ≤ 64 := by cases Radix <;> decide
    rw [← Radix.two_pow_shift h, BitVec.toNat_ushiftRight, Nat.shiftRight_eq_div_pow,
      Nat.and_two_pow_sub_one_eq_mod]
    exact ⟨Nat.mod_mod_of_dvd _ (Nat.pow_dvd_pow 2 hle), rfl⟩
  · have hlt : Radix.toNat < 2 ^ W :=
      Radix.le.trans_lt ((by decide : 36 < 2 ^ 64).trans (Nat.pow_lt_pow_right Nat.one_lt_two hW))
    rw [BitVec.toNat_udiv, BitVec.toNat_ofNat, Nat.mod_eq_of_lt hlt]
    exact ⟨rfl, rfl⟩

theorem tmpDigits_eq (hW : 64 < W) (Tmp : BitVec W) : tmpDigits UpperCase Radix Tmp =
    (Nat.digits Radix.toNat Tmp.toNat).map (Digits UpperCase) := by
  induction Tmp using tmpDigits.induct Radix with
  | case1 =>
    rw [tmpDigits, if_pos rfl]
    simp
  | case2 Tmp h ih =>
    obtain ⟨hdigit, hrest⟩ := nextDigit_eq Radix hW Tmp
    rw [tmpDigits, if_neg h, ih, hdigit, hrest, digits_pos fun h0 => h (BitVec.eq_of_toNat_eq h0)]
    rfl

/-- Whether a minus sign is printed. -/
def printsMinus (x : BitVec W) (Signed : Bool) : Bool := Signed && x.msb

/-- The number behind the sign. -/
def magnitude (x : BitVec W) (Signed : Bool) : Nat :=
  if printsMinus x Signed then (-x).toNat else x.toNat

/-- **What a word is printed as**. -/
theorem toString_eq (h : x ≠ 0) : toString x Radix Signed false UpperCase =
    some ((if printsMinus x Signed then ['-'] else []) ++
      (Nat.digits Radix.toNat (magnitude x Signed)).reverse.map (Digits UpperCase)) := by
  have hmsb : x.msb = decide (x.toInt < 0) := BitVec.msb_eq_toInt
  have hint : x.toInt = if 2 * x.toNat < 2 ^ W then (x.toNat : Int)
      else x.toNat - ((2 ^ W : Nat) : Int) := BitVec.toInt_eq_toNat_cond x
  have hneg := toNat_neg_cases x
  have hlt := x.isLt
  simp only [toString, literalPrefix, Bool.false_eq_true, if_false, Option.map_some, List.nil_append]
  congr 1
  rw [if_neg h]
  unfold magnitude printsMinus
  split
  · next hW =>
    have hpow : 2 ^ W ≤ 2 ^ 64 := Nat.pow_le_pow_right Nat.two_pos hW
    cases Signed with
    | false =>
      rw [if_pos rfl, Bool.false_and, if_neg Bool.false_ne_true, if_neg Bool.false_ne_true,
        wordDigits_eq, List.append_nil, List.nil_append]
    | true =>
      rw [if_neg (by decide), Bool.true_and, hmsb]
      split
      · next hnn =>
        have hval : x.toInt.toNat = x.toNat := by
          rw [hint] at hnn ⊢
          split at hnn <;> rename_i hsmall
          · rw [if_pos hsmall, Int.toNat_natCast]
          · omega
        rw [if_neg (by simp only [decide_eq_true_eq]; omega),
          if_neg (by simp only [decide_eq_true_eq]; omega), hval, wordDigits_eq, List.append_nil,
          List.nil_append]
      · next hnn =>
        have hval : (-x.toInt % 2 ^ 64).toNat = (-x).toNat := by
          rw [hint] at hnn ⊢
          split at hnn <;> rename_i hsmall
          · omega
          · rw [if_neg hsmall]
            omega
        rw [if_pos (by simp only [decide_eq_true_eq]; omega),
          if_pos (by simp only [decide_eq_true_eq]; omega), hval, wordDigits_eq, List.append_nil]
        rfl
  · next hW =>
    by_cases hminus : Signed = true ∧ x.msb = true
    · rw [if_pos hminus, hminus.1, hminus.2, tmpDigits_eq (by omega), List.map_reverse]
      rfl
    · have hplain : (Signed && x.msb) = false := by
        rw [← Bool.not_eq_true, Bool.and_eq_true]
        exact hminus
      rw [if_neg hminus, hplain, tmpDigits_eq (by omega), List.map_reverse]
      rfl

end Writing

/-! ## The round trip -/

section RoundTrip

variable {radix : Radix}

/-- The digits that are printed have the value that was divided. -/
theorem valueFrom_printed (UpperCase : Bool) : ∀ {ds : List Nat}, (∀ d ∈ ds, d < radix.toNat) →
    valueFrom radix 0 (ds.reverse.map (Digits UpperCase)) = Nat.ofDigits radix.toNat ds := by
  intro ds
  induction ds with
  | nil => exact fun _ => rfl
  | cons d ds ih =>
    intro h
    have hrest := ih fun e he => h e (List.mem_cons_of_mem d he)
    unfold valueFrom at hrest ⊢
    rw [List.reverse_cons, List.map_append, List.foldl_append, hrest, Nat.ofDigits_cons]
    simp only [List.map_cons, List.map_nil, List.foldl_cons, List.foldl_nil]
    rw [getDigit_Digits UpperCase (h d List.mem_cons_self), Nat.mul_comm, Nat.add_comm]

/-- A digit has at least so many bits. -/
def Radix.leastBits : Radix → Nat
  | two => 1
  | eight => 3
  | ten => 3
  | sixteen => 4
  | thirtySix => 5

theorem Radix.two_pow_leastBits (radix : Radix) : 2 ^ radix.leastBits ≤ radix.toNat := by
  cases radix <;> decide

/-- Every digit behind the first takes its bits. -/
theorem bits_of_digits (radix : Radix) {N : Nat} (h0 : N ≠ 0) (hN : N < 2 ^ W) :
    radix.leastBits * ((Nat.digits radix.toNat N).length - 1) < W := by
  have hlen : 0 < (Nat.digits radix.toNat N).length :=
    List.length_pos_iff.mpr (Nat.digits_ne_nil_iff_ne_zero.mpr h0)
  have hpow := Nat.base_pow_length_digits_le radix.toNat N radix.one_lt h0
  obtain ⟨k, hk⟩ := Nat.exists_eq_add_of_lt hlen
  rw [Nat.zero_add] at hk
  rw [hk, Nat.pow_succ'] at hpow
  rw [hk, Nat.add_sub_cancel, ← Nat.pow_lt_pow_iff_right Nat.one_lt_two, Nat.pow_mul]
  calc (2 ^ radix.leastBits) ^ k ≤ radix.toNat ^ k :=
        Nat.pow_le_pow_left radix.two_pow_leastBits k
    _ ≤ N := Nat.le_of_mul_le_mul_left hpow (Nat.zero_lt_of_lt radix.one_lt)
    _ < 2 ^ W := hN

/-- A printed number passes the assertions of the parser. -/
theorem sufficient_of_bits {slen : Nat} (h : radix.leastBits * (slen - 1) < W) :
    Sufficient W slen radix ∧ (1 < slen → radix.shift ≤ W) := by
  cases radix <;> simp only [Radix.leastBits, Radix.shift, Sufficient, true_and] at h ⊢ <;> omega

theorem magnitude_lt (x : BitVec W) (Signed : Bool) : magnitude x Signed < 2 ^ W := by
  unfold magnitude
  split
  · exact (-x).isLt
  · exact x.isLt

theorem magnitude_ne_zero {x : BitVec W} (h : x ≠ 0) (Signed : Bool) : magnitude x Signed ≠ 0 := by
  unfold magnitude
  split
  · intro h0
    have hneg : -x = 0 := BitVec.eq_of_toNat_eq h0
    have hx := BitVec.neg_neg (x := x)
    rw [hneg] at hx
    exact h (hx.symm.trans (BitVec.neg_zero W))
  · exact fun h0 => h (BitVec.eq_of_toNat_eq h0)

/-- The sign is put back. -/
theorem signed_magnitude (x : BitVec W) (Signed : Bool) :
    (if printsMinus x Signed then -BitVec.ofNat W (magnitude x Signed)
      else BitVec.ofNat W (magnitude x Signed)) = x := by
  unfold magnitude
  split
  · rw [BitVec.ofNat_toNat, BitVec.setWidth_eq, BitVec.neg_neg]
  · rw [BitVec.ofNat_toNat, BitVec.setWidth_eq]

/-- A word printed and parsed again. -/
def RoundTrips (x : BitVec W) (radix : Radix) (Signed UpperCase : Bool) : Prop :=
  ∃ s, toString x radix Signed false UpperCase = some s ∧ fromString W s radix = some x

theorem roundTrips_of_ne_zero {x : BitVec W} (h : x ≠ 0) (Signed UpperCase : Bool) :
    RoundTrips x radix Signed UpperCase := by
  refine ⟨_, toString_eq h, ?_⟩
  have hlt : ∀ d ∈ Nat.digits radix.toNat (magnitude x Signed), d < radix.toNat := fun d hd =>
    Nat.digits_lt_base radix.one_lt hd
  have hvalue := valueFrom_printed UpperCase hlt
  rw [Nat.ofDigits_digits] at hvalue
  obtain ⟨hsuff, hshift⟩ := sufficient_of_bits
    (bits_of_digits radix (magnitude_ne_zero h Signed) (magnitude_lt x Signed))
  have hne : (Nat.digits radix.toNat (magnitude x Signed)).reverse.map (Digits UpperCase) ≠ [] := by
    rw [Ne, List.map_eq_nil_iff, List.reverse_eq_nil_iff]
    exact Nat.digits_ne_nil_iff_ne_zero.mpr (magnitude_ne_zero h Signed)
  have hvalid : ∀ c ∈ (Nat.digits radix.toNat (magnitude x Signed)).reverse.map (Digits UpperCase),
      getDigit c radix < radix.toNat := by
    intro c hc
    obtain ⟨d, hd, rfl⟩ := List.mem_map.mp hc
    have hd' := hlt d (List.mem_reverse.mp hd)
    rw [getDigit_Digits UpperCase hd']
    exact hd'
  have hskip : skipSign ((if printsMinus x Signed then ['-'] else []) ++
      (Nat.digits radix.toNat (magnitude x Signed)).reverse.map (Digits UpperCase)) =
      (printsMinus x Signed,
        (Nat.digits radix.toNat (magnitude x Signed)).reverse.map (Digits UpperCase)) := by
    cases printsMinus x Signed with
    | false => exact skipSign_digits hne hvalid
    | true => rfl
  rw [fromString_eq hskip hne hvalid (by rwa [List.length_map, List.length_reverse])
    (by rwa [List.length_map, List.length_reverse]), hvalue, signed_magnitude]

/-- **The round trip**: only the word of no bits is not read back, and only in radix 2. -/
theorem readBack_iff (x : BitVec W) (radix : Radix) (Signed UpperCase : Bool) :
    RoundTrips x radix Signed UpperCase ↔ 0 < W ∨ radix ≠ .two := by
  by_cases hx : x = 0
  · subst hx
    have hprint : toString (0 : BitVec W) radix Signed false UpperCase = some ['0'] := by
      simp [toString, literalPrefix]
    have hvalid : ∀ c ∈ ['0'], getDigit c radix < radix.toNat := by
      intro c hc
      rw [List.mem_singleton.mp hc]
      cases radix <;> decide
    constructor
    · rintro ⟨s, hs, hread⟩
      obtain rfl : ['0'] = s := Option.some.inj (hprint.symm.trans hs)
      by_contra hno
      rw [not_or, not_not, Nat.not_lt] at hno
      obtain ⟨hW, rfl⟩ := hno
      have hbad : ¬Sufficient W ['0'].length .two := Nat.not_le.mpr (Nat.lt_succ_of_le hW)
      rw [fromString] at hread
      exact absurd ((if_pos (Or.inr hbad)).symm.trans hread) (by simp)
    · intro hor
      have hsuff : Sufficient W ['0'].length radix := by
        cases radix <;> simp [Sufficient] at hor ⊢
        omega
      refine ⟨['0'], hprint, ?_⟩
      rw [fromString_eq (skipSign_digits (by simp) hvalid) (by simp) hvalid hsuff
        (fun h => absurd h (by simp))]
      cases radix <;> rfl
  · refine iff_of_true (roundTrips_of_ne_zero hx Signed UpperCase) (Or.inl ?_)
    rcases Nat.eq_zero_or_pos W with rfl | hW
    · exact absurd (Subsingleton.elim x 0) hx
    · exact hW

end RoundTrip

/-! ## Wide enough -/

section Widths

variable {radix : Radix}

/-- A power is at most the power of two of a linear exponent, where it is so for the first `k`
exponents and `k` more are no more bits than the exponent grows. -/
theorem pow_le_two_pow {b k e num den lo : Nat} (hk : 0 < k) (hden : 0 < den)
    (hstep : b ^ k ≤ 2 ^ e) (he : k * num = e * den)
    (hbase : ∀ len, lo ≤ len → len < lo + k → b ^ len ≤ 2 ^ (len * num / den)) :
    ∀ len, lo ≤ len → b ^ len ≤ 2 ^ (len * num / den) := by
  intro len
  induction len using Nat.strong_induction_on with
  | _ len ih =>
    intro hlo
    rcases Nat.lt_or_ge len (lo + k) with hlt | hge
    · exact hbase len hlo hlt
    · obtain ⟨m, rfl⟩ := Nat.exists_eq_add_of_le' (Nat.le_trans (Nat.le_add_left k lo) hge)
      rw [Nat.add_mul, he, Nat.add_mul_div_right _ _ hden, Nat.pow_add, Nat.pow_add]
      exact Nat.mul_le_mul (ih m (by omega) (by omega)) hstep

/-- The width before it is cut to 32 bits. -/
def exactBits (radix : Radix) (StrLen IsNegative : Nat) : Nat :=
  match radix with
  | .two => StrLen + IsNegative
  | .eight => StrLen * 3 + IsNegative
  | .sixteen => StrLen * 4 + IsNegative
  | .ten => (if StrLen = 1 then 4 else StrLen * 64 / 18) + IsNegative
  | .thirtySix => (if StrLen = 1 then 7 else StrLen * 16 / 3) + IsNegative

theorem sufficientBits_eq {StrLen IsNegative : Nat}
    (h : exactBits radix StrLen IsNegative < 2 ^ 32) :
    sufficientBits radix StrLen IsNegative = exactBits radix StrLen IsNegative := by
  cases radix <;> simp only [sufficientBits, exactBits] at h ⊢
  case ten =>
    by_cases h1 : StrLen = 1
    · rw [if_pos h1] at h ⊢
      rw [if_pos h1]
      exact Nat.mod_eq_of_lt h
    · rw [if_neg h1] at h ⊢
      rw [if_neg h1, Nat.mod_eq_of_lt (by omega : StrLen * 64 < 2 ^ 64)]
      exact Nat.mod_eq_of_lt h
  case thirtySix =>
    by_cases h1 : StrLen = 1
    · rw [if_pos h1] at h ⊢
      rw [if_pos h1]
      exact Nat.mod_eq_of_lt h
    · rw [if_neg h1] at h ⊢
      rw [if_neg h1, Nat.mod_eq_of_lt (by omega : StrLen * 16 < 2 ^ 64)]
      exact Nat.mod_eq_of_lt h
  all_goals exact Nat.mod_eq_of_lt h

theorem exactBits_add (StrLen IsNegative : Nat) :
    exactBits radix StrLen IsNegative = exactBits radix StrLen 0 + IsNegative := by
  cases radix <;> rfl

/-- The width is enough for every number of digits but two in radix 36. -/
theorem pow_le_exactBits {StrLen : Nat} (hpos : 0 < StrLen)
    (h : ¬(radix = .thirtySix ∧ StrLen = 2)) :
    radix.toNat ^ StrLen ≤ 2 ^ exactBits radix StrLen 0 := by
  cases radix <;> simp only [exactBits, Radix.toNat, Nat.add_zero]
  case two => exact Nat.le_refl _
  case eight => rw [Nat.mul_comm, Nat.pow_mul]
  case sixteen => rw [Nat.mul_comm, Nat.pow_mul]
  case ten =>
    split
    · next h1 => subst h1; decide
    · refine pow_le_two_pow (k := 9) (e := 32) (by decide) (by decide) (by decide) rfl ?_ StrLen
        (by omega : 2 ≤ StrLen)
      decide
  case thirtySix =>
    split
    · next h1 => subst h1; decide
    · have h2 : StrLen ≠ 2 := fun h2 => h ⟨rfl, h2⟩
      refine pow_le_two_pow (k := 3) (e := 16) (by decide) (by decide) (by decide) rfl ?_ StrLen
        (by omega : 3 ≤ StrLen)
      decide

/-- A width in which a value and its sign are represented. -/
def Fits (negative : Bool) (value w : Nat) : Prop :=
  if negative then 0 < w ∧ value ≤ 2 ^ (w - 1) else value < 2 ^ w

instance (negative : Bool) (value w : Nat) : Decidable (Fits negative value w) := by
  unfold Fits
  infer_instance

theorem Fits.lt {negative : Bool} {value w : Nat} (h : Fits negative value w) : value < 2 ^ w := by
  unfold Fits at h
  split at h
  · exact h.2.trans_lt (Nat.pow_lt_pow_right Nat.one_lt_two (by omega))
  · exact h

/-- Two digits in radix 36 that ten bits do not hold. -/
def TooShort (n : Numeral radix) : Prop :=
  radix = .thirtySix ∧ n.digits.length = 2 ∧
    if n.negative then 2 ^ 10 < n.value else 2 ^ 10 ≤ n.value

/-- **Where the width found without parsing is wide enough**. -/
theorem fits_iff (n : Numeral radix) :
    Fits n.negative n.value (exactBits radix n.digits.length n.negative.toNat) ↔ ¬TooShort n := by
  have hpos : 0 < n.digits.length := List.length_pos_iff.mpr n.ne_nil
  rw [exactBits_add]
  by_cases h2 : radix = .thirtySix ∧ n.digits.length = 2
  · obtain ⟨rfl, hlen⟩ := h2
    rw [TooShort, hlen]
    cases n.negative with
    | false => simp [Fits, exactBits]
    | true => simp [Fits, exactBits]
  · have hlt := n.value_lt.trans_le (pow_le_exactBits hpos h2)
    refine iff_of_true ?_ fun h => h2 ⟨h.1, h.2.1⟩
    unfold Fits
    cases n.negative with
    | false => exact hlt
    | true => exact ⟨Nat.succ_pos _, hlt.le⟩

end Widths

/-! ## The least width -/

section Least

theorem isPowerOf2_iff {x : BitVec W} : isPowerOf2 x = true ↔ ∃ i, x.toNat = 2 ^ i := by
  simp only [isPowerOf2, List.any_eq_true, List.mem_range, decide_eq_true_eq]
  constructor
  · rintro ⟨i, -, hi⟩
    exact ⟨i, hi⟩
  · rintro ⟨i, hi⟩
    exact ⟨i, (Nat.pow_lt_pow_iff_right Nat.one_lt_two).mp (hi ▸ x.isLt), hi⟩

/-- What is asked of the width that is found by parsing. -/
structure Needed (negative : Bool) (value b : Nat) : Prop where
  fits : Fits negative value b
  least : ¬(negative = true ∧ value = 0) → ∀ w, 0 < w → Fits negative value w → b ≤ w

/-- A value that is no power of two is below the power that bounds it. -/
theorem lt_of_not_pow {v i : Nat} (h : v ≤ 2 ^ i) (hv : ¬∃ j, v = 2 ^ j) : v < 2 ^ i :=
  lt_of_le_of_ne h fun heq => hv ⟨i, heq⟩

/-- **The width of the value**, where the parsed width holds it. -/
theorem bitsOf_needed {negative : Bool} {tmp : BitVec W} (hW : W < 2 ^ 32)
    (h : Fits negative tmp.toNat W) : Needed negative tmp.toNat (bitsOf negative tmp) := by
  have hsize : tmp.toNat.size ≤ W := Nat.size_le.mpr h.lt
  have hself : tmp.toNat < 2 ^ tmp.toNat.size := Nat.lt_size_self _
  unfold bitsOf logBase2
  rw [getActiveBits_eq]
  rcases Nat.eq_zero_or_pos tmp.toNat with h0 | hpos
  · rw [if_pos (by rw [h0, Nat.size_zero]; rfl), h0]
    cases negative with
    | false => exact ⟨by decide, fun _ w hw _ => hw⟩
    | true => exact ⟨by decide, fun hno => absurd ⟨rfl, rfl⟩ hno⟩
  · have hsize0 : 0 < tmp.toNat.size := Nat.size_pos.mpr hpos
    have hlog : (tmp.toNat.size + 2 ^ 32 - 1) % 2 ^ 32 = tmp.toNat.size - 1 := by omega
    rw [hlog, if_neg (by omega)]
    cases negative with
    | false =>
      have hbits : (false.toNat + (tmp.toNat.size - 1) + 1) % 2 ^ 32 = tmp.toNat.size := by
        rw [Bool.toNat_false]
        omega
      rw [Bool.false_and, if_neg Bool.false_ne_true, hbits]
      exact ⟨hself, fun _ w _ hw => Nat.size_le.mpr hw⟩
    | true =>
      obtain ⟨hpos', hle⟩ := h
      rw [Bool.true_and, Bool.toNat_true]
      split
      · next hpow =>
        obtain ⟨i, hi⟩ := isPowerOf2_iff.mp hpow
        rw [hi, Nat.size_pow] at hsize ⊢
        rw [show (1 + (i + 1 - 1)) % 2 ^ 32 = i + 1 by omega]
        refine ⟨⟨Nat.succ_pos i, Nat.le_refl _⟩, fun _ w hw hfits => ?_⟩
        have hexp := (Nat.pow_le_pow_iff_right Nat.one_lt_two).mp hfits.2
        omega
      · next hpow =>
        rw [isPowerOf2_iff] at hpow
        have hsize' := Nat.size_le.mpr (lt_of_not_pow hle hpow)
        rw [show (1 + (tmp.toNat.size - 1) + 1) % 2 ^ 32 = tmp.toNat.size + 1 by omega]
        refine ⟨⟨Nat.succ_pos _, hself.le⟩, fun _ w hw hfits => ?_⟩
        have hexp := Nat.size_le.mpr (lt_of_not_pow hfits.2 hpow)
        omega

end Least

/-! ## Sized right -/

section SizedRight

variable {radix : Radix}

/-- What is asked of the two widths of a number: it is represented in both, and in radix 10 and 36
the second is the least, of at least one bit, unless the number is a negative zero. -/
structure Sized (n : Numeral radix) (w b : Nat) : Prop where
  sufficient : getSufficientBitsNeeded n.text radix = some w
  fits : Fits n.negative n.value w
  needed : getBitsNeeded n.text radix = some b
  needed_fits : Fits n.negative n.value b
  least : radix = .ten ∨ radix = .thirtySix → ¬(n.negative = true ∧ n.value = 0) →
    ∀ w, 0 < w → Fits n.negative n.value w → b ≤ w

def SizedRight (n : Numeral radix) : Prop := ∃ w b, Sized n w b

theorem getSufficientBitsNeeded_text (n : Numeral radix) :
    getSufficientBitsNeeded n.text radix =
      some (sufficientBits radix n.digits.length n.negative.toNat) := by
  have hpos : 0 < n.digits.length := List.length_pos_iff.mpr n.ne_nil
  rw [getSufficientBitsNeeded, n.skipSign_text]
  exact if_neg (Nat.ne_of_gt hpos)

theorem sufficientBits_lt (radix : Radix) (StrLen IsNegative : Nat) :
    sufficientBits radix StrLen IsNegative < 2 ^ 32 := by
  cases radix <;> exact Nat.mod_lt _ (Nat.two_pow_pos 32)

/-- Where the width found without parsing is right, both are. -/
theorem sizedRight_of_fits (n : Numeral radix)
    (hfits : Fits n.negative n.value (sufficientBits radix n.digits.length n.negative.toNat))
    (hsuff : radix = .ten →
      Sufficient (sufficientBits radix n.digits.length n.negative.toNat) n.digits.length .ten) :
    SizedRight n := by
  have htext := getSufficientBitsNeeded_text n
  by_cases hpow : radix = .two ∨ radix = .eight ∨ radix = .sixteen
  · refine ⟨_, _, htext, hfits, ?_, hfits, fun hor => ?_⟩
    · rw [getBitsNeeded, htext, Option.bind_some, if_pos hpow]
    · rcases hor with rfl | rfl <;> exact absurd hpow (by decide)
  · generalize hw : sufficientBits radix n.digits.length n.negative.toNat = w at *
    have hread : fromString w n.digits radix = some (BitVec.ofNat w n.value) := by
      refine fromString_eq (skipSign_digits n.ne_nil n.valid) n.ne_nil n.valid ?_ fun _ => ?_
      · cases radix with
        | ten => exact hsuff rfl
        | thirtySix => trivial
        | _ => exact absurd hpow (by decide)
      · cases radix with
        | ten => exact Nat.zero_le _
        | thirtySix => exact Nat.zero_le _
        | _ => exact absurd hpow (by decide)
    have hval : (BitVec.ofNat w n.value).toNat = n.value := by
      rw [BitVec.toNat_ofNat, Nat.mod_eq_of_lt hfits.lt]
    have hneeded : Needed n.negative (BitVec.ofNat w n.value).toNat
        (bitsOf n.negative (BitVec.ofNat w n.value)) :=
      bitsOf_needed (hw ▸ sufficientBits_lt radix n.digits.length n.negative.toNat) (by rwa [hval])
    rw [hval] at hneeded
    refine ⟨w, _, htext, hfits, ?_, hneeded.fits, fun _ => hneeded.least⟩
    rw [getBitsNeeded, htext, Option.bind_some, if_neg hpow, n.skipSign_text, hread,
      Option.map_some]

/-- A number too long for a 32-bit width that is right all the same. -/
structure WrappedRight (n : Numeral radix) : Prop where
  fits : Fits n.negative n.value (sufficientBits radix n.digits.length n.negative.toNat)
  assertion : radix = .ten →
    Sufficient (sufficientBits radix n.digits.length n.negative.toNat) n.digits.length .ten

theorem wrappedRight_of_sizedRight {n : Numeral radix} (h : SizedRight n) : WrappedRight n := by
  obtain ⟨w, b, h⟩ := h
  obtain rfl := Option.some.inj ((getSufficientBitsNeeded_text n).symm.trans h.sufficient)
  refine ⟨h.fits, ?_⟩
  rintro rfl
  have hneeded := h.needed
  rw [getBitsNeeded, h.sufficient, Option.bind_some, if_neg (by decide), n.skipSign_text,
    Option.map_eq_some_iff] at hneeded
  obtain ⟨tmp, htmp, -⟩ := hneeded
  by_contra hno
  rw [fromString, skipSign_digits n.ne_nil n.valid] at htmp
  exact absurd ((if_pos (Or.inr hno)).symm.trans htmp) (by simp)

/-- The parser's assertion holds for a width that is not cut. -/
theorem sufficient_ten {len IsNegative : Nat} (h : exactBits .ten len IsNegative < 2 ^ 32) :
    Sufficient (exactBits .ten len IsNegative) len .ten := by
  simp only [exactBits, Sufficient] at h ⊢
  split at h <;> rename_i h1
  · rw [if_pos h1, h1]
    exact Nat.zero_le _
  · have hmod : (len - 1) * 64 % 2 ^ 64 = (len - 1) * 64 := Nat.mod_eq_of_lt (by omega)
    rw [if_neg h1, hmod]
    omega

theorem sizedRight_iff (n : Numeral radix) : SizedRight n ↔
    if exactBits radix n.digits.length n.negative.toNat < 2 ^ 32 then ¬TooShort n
    else WrappedRight n := by
  split
  · next hlt =>
    have hbits := sufficientBits_eq hlt
    rw [← fits_iff]
    constructor
    · intro h
      exact hbits ▸ (wrappedRight_of_sizedRight h).fits
    · intro h
      refine sizedRight_of_fits n (hbits.symm ▸ h) ?_
      rintro rfl
      rw [hbits]
      exact sufficient_ten hlt
  · exact ⟨wrappedRight_of_sizedRight, fun h => sizedRight_of_fits n h.fits h.assertion⟩

/-- **Words and their text**: a printed word is read back except for the word of no bits in radix 2,
and the widths of a number are right except for two digits in radix 36 that ten bits do not hold,
and for numbers whose length takes the width past 32 bits. -/
theorem text_right_iff (W : Nat) (x : BitVec W) (radix : Radix) (Signed UpperCase : Bool)
    (n : Numeral radix) :
    (RoundTrips x radix Signed UpperCase ↔ 0 < W ∨ radix ≠ .two) ∧
    (SizedRight n ↔
      if exactBits radix n.digits.length n.negative.toNat < 2 ^ 32 then ¬TooShort n
      else WrappedRight n) :=
  ⟨readBack_iff x radix Signed UpperCase, sizedRight_iff n⟩

/-- The largest two digits. -/
def zz : Numeral .thirtySix where
  sign := .none
  digits := ['z', 'z']
  ne_nil := by simp
  valid := by
    intro c hc
    rw [List.mem_pair, or_self] at hc
    rw [hc]
    decide

theorem not_sizedRight_zz : ¬SizedRight zz := by
  intro h
  have hfits := (wrappedRight_of_sizedRight h).fits
  exact absurd hfits (by decide)

end SizedRight

end RvLlvm.APInt.Text
