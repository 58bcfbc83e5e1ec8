import Mathlib.Data.Nat.Digits.Defs
import Mathlib.Data.Nat.Size

/-!
# Division of long numbers

`APInt::divide`, `KnuthDiv` and the four divisions of `llvm/lib/Support/APInt.cpp:1296-1762`.

A number of many words is an array of 64-bit words, lowest first, that `divide` cuts into 32-bit
digits: lists of naturals here. A result is `none` where the code goes wrong: an assertion fails, an
index leaves its array, or a 64-bit intermediate leaves its type. Where the code means a word to
wrap (the borrow's difference, the top digit, the sum of the add-back, the product of the short
division) the model takes it modulo `2 ^ 32`.

Both results are always computed; the code leaves out the one whose pointer is null.
-/

namespace RvLlvm.APInt

/-- The base of the digits. -/
def base : Nat := 2 ^ 32

def Make_64 (hi lo : Nat) : Nat := hi * 2 ^ 32 + lo

def Lo_32 (x : Int) : Nat := (x % 2 ^ 32).toNat

def Hi_32 (x : Int) : Nat := (x / 2 ^ 32 % 2 ^ 32).toNat

/-- A `uint64_t` that has not wrapped. -/
def uint64 (x : Nat) : Option Nat := if x < 2 ^ 64 then some x else none

/-- An `int64_t` that has not overflowed. -/
def int64 (x : Int) : Option Int := if -2 ^ 63 ≤ x ∧ x < 2 ^ 63 then some x else none

/-! ## `KnuthDiv` -/

def countl_zero (x : Nat) : Nat := if x = 0 then 32 else 31 - x.log2

/-- The digits shifted to the left, and the bits that are left over. -/
def shiftLeft (shift : Nat) : Nat → List Nat → List Nat × Nat
  | carry, [] => ([], carry)
  | carry, d :: ds =>
    let rest := shiftLeft shift (d >>> (32 - shift)) ds
    (((d <<< shift % 2 ^ 32) ||| carry) :: rest.1, rest.2)

/-- The digits shifted to the right from the highest on, and the carry to the digit below. -/
def shiftRight (shift : Nat) : List Nat → List Nat × Nat
  | [] => ([], 0)
  | d :: ds =>
    let rest := shiftRight shift ds
    ((d >>> shift ||| rest.2) :: rest.1, d <<< (32 - shift) % 2 ^ 32)

/-- D1, for the digits of the dividend and those of the divisor. -/
def normalize (shift : Nat) (ds : List Nat) : List Nat × Nat :=
  if shift = 0 then (ds, 0) else shiftLeft shift 0 ds

/-- D8. -/
def unnormalize (shift : Nat) (ds : List Nat) : List Nat :=
  if shift = 0 then ds else (shiftRight shift ds).1

/-- `qp == b || qp*v[n-2] > b*rp + u[j+n-2]`. -/
def tooLarge (v2 u3 qp rp : Nat) : Option Bool :=
  if qp = base then some true
  else (uint64 (qp * v2)).bind fun l => (uint64 (base * rp + u3)).map fun r => decide (r < l)

/-- D3: the trial digit. -/
def trialDigit (v1 v2 u1 u2 u3 : Nat) : Option Nat :=
  let dividend := Make_64 u1 u2
  let qp := dividend / v1
  let rp := dividend % v1
  (tooLarge v2 u3 qp rp).bind fun first =>
    if first = false then some qp
    else if base ≤ rp + v1 then some (qp - 1)
    else (tooLarge v2 u3 (qp - 1) (rp + v1)).map fun second =>
      if second then qp - 1 - 1 else qp - 1

/-- D4: `qp` times the divisor is subtracted, with the borrow to the left. -/
def subMul (qp : Nat) : Int → List Nat → List Nat → Option (List Nat × Int)
  | borrow, u :: us, v :: vs =>
    (uint64 (qp * v)).bind fun p =>
      (int64 (u - borrow - Lo_32 p)).bind fun subres =>
        (subMul qp ((Hi_32 p - Hi_32 subres : Int) % 2 ^ 32) us vs).map fun rest =>
          (Lo_32 subres :: rest.1, rest.2)
  | borrow, us, _ => some (us, borrow)

/-- D6: the divisor is added back. -/
def addBack : Bool → List Nat → List Nat → List Nat × Bool
  | carry, u :: us, v :: vs =>
    let limit := min u v
    let sum := (u + v + carry.toNat) % 2 ^ 32
    let rest := addBack (decide (sum < limit) || carry && decide (sum = limit)) us vs
    (sum :: rest.1, rest.2)
  | carry, us, _ => (us, carry)

/-- D5 and D6: the top digit takes the borrow, and a negative result is corrected. -/
def testRemainder (v us : List Nat) (top qp : Nat) (borrow : Int) : List Nat × Nat × Nat :=
  let isNeg := decide ((top : Int) < borrow)
  let top := Lo_32 (top - Lo_32 borrow)
  if isNeg then
    let sum := addBack false us v
    (sum.1, (top + sum.2.toNat) % 2 ^ 32, Lo_32 ((Lo_32 qp : Int) - 1))
  else (us, top, Lo_32 qp)

/-- D3 to D6 on `u[j] ... u[j+n]`: the digits left there, the top one, and `q[j]`. -/
def quotientDigit (v us : List Nat) (top : Nat) : Option (List Nat × Nat × Nat) :=
  v[v.length - 1]?.bind fun v1 => v[v.length - 2]?.bind fun v2 =>
    us[v.length - 1]?.bind fun u2 => us[v.length - 2]?.bind fun u3 =>
      (trialDigit v1 v2 top u2 u3).bind fun qp =>
        (subMul qp 0 us v).map fun r => testRemainder v r.1 top qp r.2

/-- One round at `j`: the digits `u[j] ... u[j+n]` and `q[j]`. -/
def digitStep (v : List Nat) (j : Nat) (u q : List Nat) : Option (List Nat × List Nat) :=
  u[j + v.length]?.bind fun top =>
    (quotientDigit v ((u.drop j).take v.length) top).bind fun (us, top, digit) =>
      if q.length ≤ j then none
      else some (u.take j ++ (us ++ top :: u.drop (j + v.length + 1)), q.set j digit)

/-- D2 and D7: the digits of the quotient from `q[j]` down. -/
def digitLoop (v : List Nat) : Nat → List Nat → List Nat → Option (List Nat × List Nat)
  | 0, u, q => digitStep v 0 u q
  | j + 1, u, q => (digitStep v (j + 1) u q).bind fun (u, q) => digitLoop v j u q

/-- The quotient in `q` and the remainder in `r`; `v` holds the digits of the divisor. -/
def KnuthDiv (u v q r : List Nat) (m : Int) : Option (List Nat × List Nat) :=
  match m with
  -- `u[j]` at `j = int(m)` is in front of the array
  | .negSucc _ => none
  | .ofNat m =>
    v[v.length - 1]?.bind fun top =>
      let shift := countl_zero top
      let normal := normalize shift (u.take (m + v.length))
      if u.length ≤ m + v.length then none
      else
        (digitLoop (normalize shift v).1 m (normal.1 ++ normal.2 :: u.drop (m + v.length + 1)) q).map
          fun (u, q) => (q, unnormalize shift (u.take v.length) ++ r.drop v.length)

/-! ## `divide` -/

/-- The words of a number as digits. -/
def digits : List Nat → List Nat
  | [] => []
  | w :: ws => Lo_32 w :: Hi_32 w :: digits ws

/-- The digits of a number as words. -/
def joined : List Nat → List Nat
  | lo :: hi :: ds => Make_64 hi lo :: joined ds
  | _ => []

/-- How many of the first `i` digits are left without the zeros on top. -/
def significant (ds : List Nat) : Nat → Nat
  | 0 => 0
  | i + 1 => if ds[i]? = some 0 then significant ds i else i + 1

/-- One digit of the short division and the remainder behind it. -/
def shortDigit (divisor remainder u : Nat) : Nat × Nat :=
  let partial_dividend := Make_64 remainder u
  if partial_dividend = 0 then (0, 0)
  else if partial_dividend < divisor then (0, Lo_32 partial_dividend)
  else if partial_dividend = divisor then (1, 0)
  else
    let q := Lo_32 (partial_dividend / divisor : Nat)
    (q, Lo_32 (partial_dividend - (q * divisor % 2 ^ 32 : Nat)))

/-- The short division from the highest digit on. -/
def shortDiv (divisor : Nat) : List Nat → List Nat × Nat
  | [] => ([], 0)
  | u :: us =>
    let rest := shortDiv divisor us
    let digit := shortDigit divisor rest.2 u
    (digit.1 :: rest.1, digit.2)

/-- `LHS` divided by `RHS`: the words of the quotient and of the remainder. -/
def divide (LHS RHS : List Nat) : Option (List Nat × List Nat) :=
  if LHS.length < RHS.length then none
  else
    let U := digits LHS ++ [0]
    let V := digits RHS
    let Q := List.replicate (2 * LHS.length) 0
    let R := List.replicate (2 * RHS.length) 0
    let n := significant V (2 * RHS.length)
    let k := significant U (2 * LHS.length)
    let results :=
      if n = 0 then none
      else if n = 1 then
        let short := shortDiv (V.headD 0) (U.take k)
        some (short.1 ++ Q.drop k, short.2 :: R.drop 1)
      else KnuthDiv U (V.take n) Q R (k - n)
    results.map fun r => (joined r.1, joined r.2)

/-! ## The divisions -/

variable {W : Nat}

def getNumWords (bits : Nat) : Nat := (bits + 63) / 64

def getActiveBits (x : BitVec W) : Nat := if x = 0 then 0 else x.toNat.log2 + 1

theorem getActiveBits_eq (x : BitVec W) : getActiveBits x = x.toNat.size := by
  unfold getActiveBits
  split
  · next h => rw [h]; simp
  · next h =>
    have h0 : x.toNat ≠ 0 := fun h0 => h (BitVec.eq_of_toNat_eq h0)
    refine Nat.le_antisymm (Nat.lt_size.mpr (Nat.log2_self_le h0)) (Nat.size_le.mpr ?_)
    exact Nat.lt_log2_self

/-- `U.pVal[i]`. -/
def word (x : BitVec W) (i : Nat) : Nat := x.toNat / 2 ^ (64 * i) % 2 ^ 64

/-- The first words of the number. -/
def words (x : BitVec W) (count : Nat) : List Nat := (List.range count).map (word x)

/-- The number whose low words are `ws`. -/
def ofWords (W : Nat) (ws : List Nat) : BitVec W := BitVec.ofNat W (Nat.ofDigits (2 ^ 64) ws)

end RvLlvm.APInt
