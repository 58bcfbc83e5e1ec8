import RvLlvm.CodeGen.DivisionByConstant

/-!
# Magic numbers for signed division by a constant

Model of `SignedDivisionByConstantInfo::get` (`llvm/lib/Support/DivisionByConstantInfo.cpp:21-65`).

* `Turn.step`, `search_spec`: the loop stops before `p` reaches `2 * w`, and no register has
  overflowed on the way.
* `get_spec`: the multiplier fits the word and is precise for every dividend.
-/

namespace RvLlvm.CodeGen.Signed

open RvLlvm.Support RvLlvm.Support.MagicDiv

variable {w : Nat}

structure SignedDivisionByConstantInfo (w : Nat) where
  magic : BitVec w
  shiftAmount : Nat

/-- One turn of the loop. -/
def step (anc ad : BitVec w) (s : Search w) : Search w :=
  let q1 := s.q1 <<< 1
  let r1 := s.r1 <<< 1
  let (q1, r1) := if anc ≤ r1 then (q1 + 1, r1 - anc) else (q1, r1)
  let q2 := s.q2 <<< 1
  let r2 := s.r2 <<< 1
  let (q2, r2) := if ad ≤ r2 then (q2 + 1, r2 - ad) else (q2, r2)
  { s with p := s.p + 1, q1, r1, q2, r2 }

def delta (ad : BitVec w) (s : Search w) : BitVec w := ad - s.r2

/-- The condition of the loop. -/
def again (ad : BitVec w) (s : Search w) : Bool :=
  decide (s.q1 < delta ad s) || s.q1 == delta ad s && s.r1 == 0

def start (anc ad : BitVec w) : Search w :=
  ⟨w - 1, BitVec.intMin w / anc, BitVec.intMin w % anc, BitVec.intMin w / ad,
    BitVec.intMin w % ad, false⟩

/-- `ANC`, the absolute value of the critical dividend. -/
def anc (d : BitVec w) : BitVec w :=
  let t := BitVec.intMin w + (d >>> (w - 1))
  t - 1 - t % d.abs

/-- The loop. It has no bound of its own; `w` turns are enough. -/
def search (d : BitVec w) : Option (Search w) :=
  doWhile (step (anc d) d.abs) (again d.abs) (w + 1) (start (anc d) d.abs)

/-- `SignedDivisionByConstantInfo::get`; nothing where an assertion fails. -/
def get (d : BitVec w) : Option (SignedDivisionByConstantInfo w) :=
  if d = 0 ∨ w < 3 then none
  else do
    let s ← search d
    let magic := s.q2 + 1
    some ⟨if d.msb then -magic else magic, s.p - w⟩

/-! ## A turn -/

/-- **One bit more**, for a divisor that leaves a bit free. -/
theorem advance {x c : Nat} (hc : 0 < c) (hcw : 2 * c ≤ 2 ^ w) :
    (if BitVec.ofNat w c ≤ BitVec.ofNat w (x % c) <<< 1 then
      (BitVec.ofNat w (x / c) <<< 1 + 1, BitVec.ofNat w (x % c) <<< 1 - BitVec.ofNat w c)
    else (BitVec.ofNat w (x / c) <<< 1, BitVec.ofNat w (x % c) <<< 1)) =
      (BitVec.ofNat w (2 * x / c), BitVec.ofNat w (2 * x % c)) := by
  have hlt := Nat.mod_lt x hc
  have hdiv := double_div x hc (Nat.zero_le 1)
  have hmod := double_mod x hc (Nat.zero_le 1)
  simp only [Nat.add_zero] at hdiv hmod
  rw [hdiv, hmod, ofNat_shiftLeft_one, ofNat_shiftLeft_one]
  by_cases hle : c ≤ 2 * (x % c)
  · rw [if_pos ((ofNat_le (by omega) (by omega)).mpr hle), if_pos hle, if_pos hle,
      BitVec.ofNat_sub_ofNat_of_le _ _ (by omega) hle, BitVec.ofNat_add _ 1]
    rfl
  · rw [if_neg (fun h => hle ((ofNat_le (by omega) (by omega)).mp h)), if_neg hle, if_neg hle,
      Nat.add_zero]

/-- The registers hold quotient and remainder of `2 ^ p` by `c` and by `d`. -/
structure Tracks (c d : Nat) (s : Search w) : Prop where
  q1 : s.q1 = .ofNat w (2 ^ s.p / c)
  r1 : s.r1 = .ofNat w (2 ^ s.p % c)
  q2 : s.q2 = .ofNat w (2 ^ s.p / d)
  r2 : s.r2 = .ofNat w (2 ^ s.p % d)

theorem Tracks.step {c d : Nat} {s : Search w} (h : Tracks c d s) (hc : 0 < c)
    (hcw : 2 * c ≤ 2 ^ w) (hd : 0 < d) (hdw : 2 * d ≤ 2 ^ w) :
    (step (.ofNat w c) (.ofNat w d) s).p = s.p + 1 ∧
      Tracks c d (step (.ofNat w c) (.ofNat w d) s) := by
  have hfirst := advance (x := 2 ^ s.p) hc hcw
  have hsecond := advance (x := 2 ^ s.p) hd hdw
  rw [← h.q1, ← h.r1, ← Nat.pow_succ'] at hfirst
  rw [← h.q2, ← h.r2, ← Nat.pow_succ'] at hsecond
  unfold Signed.step
  dsimp only
  rw [hfirst, hsecond]
  exact ⟨rfl, rfl, rfl, rfl, rfl⟩

/-- What the multiplier `2 ^ p / d + 1` is above `2 ^ p / d`. -/
def error (d p : Nat) : Nat := d - 2 ^ p % d

theorem error_pos {d p : Nat} (hd : 0 < d) : 0 < error d p := Nat.sub_pos_of_lt (Nat.mod_lt _ hd)

theorem error_le (d p : Nat) : error d p ≤ d := Nat.sub_le _ _

theorem multiplier_mul {d p : Nat} (hd : 0 < d) : (2 ^ p / d + 1) * d = 2 ^ p + error d p := by
  have hsplit := Nat.div_add_mod (2 ^ p) d
  have hlt := Nat.mod_lt (2 ^ p) hd
  rw [Nat.mul_comm d] at hsplit
  rw [Nat.add_mul, Nat.one_mul, error]
  omega

/-- A turn at most doubles the error. -/
theorem error_succ {d : Nat} (hd : 0 < d) (p : Nat) : error d (p + 1) ≤ 2 * error d p := by
  have hlt := Nat.mod_lt (2 ^ p) hd
  have hmod := double_mod (2 ^ p) hd (Nat.zero_le 1)
  simp only [Nat.add_zero] at hmod
  unfold error
  rw [Nat.pow_succ', hmod]
  split <;> omega

/-! ## The loop -/

/-- A divisor with the absolute value `d` and the bound `t` of its dividends. -/
structure Setting (w d t : Nat) : Prop where
  width : 3 ≤ w
  pos : 0 < d
  half : d ≤ 2 ^ (w - 1)
  bound : t = 2 ^ (w - 1) ∧ d < 2 ^ (w - 1) ∨ t = 2 ^ (w - 1) + 1

namespace Setting

variable {d t : Nat} (S : Setting w d t)
include S

theorem le : d ≤ t := by
  have hhalf := S.half
  rcases S.bound with ⟨rfl, hlt⟩ | rfl
  · exact hhalf
  · omega

theorem four_le : 4 ≤ 2 ^ (w - 1) := by
  have hw := S.width
  have hle : 2 ^ 2 ≤ 2 ^ (w - 1) := Nat.pow_le_pow_right (by decide) (by omega)
  exact hle

theorem pow_eq : 2 ^ w = 2 * 2 ^ (w - 1) := two_pow_pred (by have := S.width; omega)

theorem critical_bounds : 2 ≤ critical (t - 1) d ∧ critical (t - 1) d ≤ 2 ^ (w - 1) := by
  have hle := S.le
  have hpos := S.pos
  have hfour := S.four_le
  have hsucc := le_critical_succ (n := t - 1) (d := d) hpos (by omega)
  have hadd := lt_critical_add (n := t - 1) (d := d) hpos
  have hupper := critical_le (n := t - 1) (d := d)
  rcases S.bound with ⟨rfl, _⟩ | rfl
  · omega
  · omega

/-- The critical dividend of the lowest number as a divisor. -/
theorem critical_half (hd : d = 2 ^ (w - 1)) : critical (t - 1) d = 2 ^ (w - 1) - 1 := by
  have hfour := S.four_le
  have ht : t = 2 ^ (w - 1) + 1 := by
    rcases S.bound with ⟨_, hlt⟩ | ht
    · omega
    · exact ht
  have hmod : (2 ^ (w - 1) + 1) % 2 ^ (w - 1) = 1 := by
    rw [Nat.add_mod_left, Nat.mod_eq_of_lt (by omega)]
  rw [ht, hd, critical, Nat.add_sub_cancel, hmod]

/-- Precision is never missing far out. -/
theorem lt_of_imprecise {p : Nat} (hle : 2 ^ p ≤ critical (t - 1) d * error d p) :
    p < 2 * (w - 1) := by
  have hw := S.width
  have hpos := Nat.two_pow_pos (w - 1)
  have herr := error_le d p
  have hhalf := S.half
  have hlt : critical (t - 1) d * error d p < 2 ^ (w - 1) * 2 ^ (w - 1) := by
    by_cases hd : d = 2 ^ (w - 1)
    · rw [S.critical_half hd]
      exact Nat.mul_lt_mul_of_lt_of_le (by omega) (by omega) hpos
    · exact Nat.mul_lt_mul_of_le_of_lt S.critical_bounds.2 (by omega) hpos
  rw [← Nat.pow_add] at hlt
  have hexp := (Nat.pow_lt_pow_iff_right (by decide)).mp (hle.trans_lt hlt)
  omega

/-- Where precision is missing, `Q1` of the next turn does not overflow. -/
theorem next_exact {p : Nat} (hle : 2 ^ p ≤ critical (t - 1) d * error d p) :
    2 ^ (p + 1) / critical (t - 1) d < 2 ^ w := by
  obtain ⟨hc, hcw⟩ := S.critical_bounds
  have hpow := S.pow_eq
  have herr := error_le d p
  have hhalf := S.half
  rw [Nat.div_lt_iff_lt_mul (by omega), Nat.pow_succ]
  have hbound : 2 ^ p * 2 ≤ 2 ^ w * critical (t - 1) d := by
    calc 2 ^ p * 2 ≤ critical (t - 1) d * error d p * 2 := Nat.mul_le_mul_right 2 hle
      _ ≤ critical (t - 1) d * 2 ^ (w - 1) * 2 :=
        Nat.mul_le_mul_right 2 (Nat.mul_le_mul_left _ (herr.trans hhalf))
      _ = 2 ^ w * critical (t - 1) d := by
        rw [hpow]
        ring
  refine Nat.lt_of_le_of_ne hbound fun heq => ?_
  -- equality would make the critical dividend a power of two, and it is odd
  have hd : d = 2 ^ (w - 1) := by
    by_contra hne
    have hlt : error d p < 2 ^ (w - 1) := herr.trans_lt (Nat.lt_of_le_of_ne hhalf hne)
    have hstrict := Nat.mul_lt_mul_of_pos_left hlt (show 0 < critical (t - 1) d by omega)
    have hexpand : 2 ^ w * critical (t - 1) d = critical (t - 1) d * 2 ^ (w - 1) * 2 := by
      rw [hpow]
      ring
    omega
  have hfour := S.four_le
  have hcrit := S.critical_half hd
  have hdvd : critical (t - 1) d ∣ 2 ^ (p + 1) := by
    rw [Nat.pow_succ, heq]
    exact Nat.dvd_mul_left _ _
  obtain ⟨k, _, hk⟩ := (Nat.dvd_prime_pow Nat.prime_two).mp hdvd
  have hhalfeven : 2 ^ (w - 1) = 2 * 2 ^ (w - 2) := by
    rw [← Nat.pow_succ']
    congr 1
    have hw := S.width
    omega
  cases k with
  | zero =>
    rw [Nat.pow_zero] at hk
    omega
  | succ k =>
    rw [Nat.pow_succ] at hk
    omega

end Setting

/-- The loop invariant. -/
structure Turn (d t : Nat) (s : Search w) : Prop where
  tracks : Tracks (critical (t - 1) d) d s
  lower : w ≤ s.p
  upper : s.p ≤ 2 * (w - 1)
  caused : s.p = w ∨ 2 ^ (s.p - 1) ≤ critical (t - 1) d * error d (s.p - 1)
  exact : 2 ^ s.p / critical (t - 1) d < 2 ^ w

section Loop

variable {d t : Nat} {s : Search w}

theorem delta_eq {c : Nat} (h : Tracks c d s) (hd : 0 < d) (hdw : d < 2 ^ w) :
    delta (.ofNat w d) s = BitVec.ofNat w (error d s.p) := by
  have hlt := Nat.mod_lt (2 ^ s.p) hd
  rw [delta, h.r2, BitVec.ofNat_sub_ofNat_of_le _ _ (by omega) hlt.le, error]

/-- **What the condition of the loop says.** -/
theorem again_iff {c : Nat} (h : Tracks c d s) (hc : 0 < c) (hcw : c < 2 ^ w) (hd : 0 < d)
    (hdw : d < 2 ^ w) (hexact : 2 ^ s.p / c < 2 ^ w) :
    again (.ofNat w d) s = true ↔ 2 ^ s.p ≤ c * error d s.p := by
  have hsplit := Nat.div_add_mod (2 ^ s.p) c
  have hmod := Nat.mod_lt (2 ^ s.p) hc
  have herr : error d s.p < 2 ^ w := (error_le d s.p).trans_lt hdw
  have hzero : (BitVec.ofNat w (2 ^ s.p % c) = 0) ↔ 2 ^ s.p % c = 0 :=
    ofNat_inj (by omega) (Nat.two_pow_pos w)
  rw [again, delta_eq h hd hdw, h.q1, h.r1, Bool.or_eq_true, decide_eq_true_eq, Bool.and_eq_true,
    beq_iff_eq, beq_iff_eq, ofNat_lt hexact herr, ofNat_inj hexact herr, hzero]
  constructor
  · rintro (hlt | ⟨heq, hr⟩)
    · have hmul := Nat.mul_le_mul_left c (Nat.succ_le_of_lt hlt)
      rw [Nat.mul_succ] at hmul
      omega
    · rw [← heq]
      omega
  · intro hle
    rcases Nat.lt_trichotomy (2 ^ s.p / c) (error d s.p) with hlt | heq | hgt
    · exact Or.inl hlt
    · refine Or.inr ⟨heq, ?_⟩
      rw [← heq] at hle
      omega
    · have hmul := Nat.mul_le_mul_left c (Nat.succ_le_of_lt hgt)
      rw [Nat.mul_succ] at hmul
      omega

/-- **One turn keeps the invariant.** -/
theorem Turn.step (h : Turn d t s) (S : Setting w d t)
    (hagain : again (.ofNat w d) s = true) :
    Turn d t (step (.ofNat w (critical (t - 1) d)) (.ofNat w d) s) ∧
      (Signed.step (.ofNat w (critical (t - 1) d)) (.ofNat w d) s).p = s.p + 1 := by
  obtain ⟨hc, hcw⟩ := S.critical_bounds
  have hpow := S.pow_eq
  have hd := S.pos
  have hhalf := S.half
  have hlower := h.lower
  have hw := S.width
  have hle := (again_iff h.tracks (by omega) (by omega) hd (by omega) h.exact).mp hagain
  have hupper := S.lt_of_imprecise hle
  obtain ⟨hp, htracks⟩ := h.tracks.step (by omega) (by omega) hd (by omega)
  refine ⟨⟨htracks, by omega, by omega, Or.inr ?_, ?_⟩, hp⟩
  · rwa [hp, Nat.add_sub_cancel]
  · rw [hp]
    exact S.next_exact hle

theorem tracks_start {c : Nat} (hw : 0 < w) (hcw : c < 2 ^ w) (hdw : d < 2 ^ w) :
    Tracks c d (start (.ofNat w c) (.ofNat w d)) := by
  have hpow := two_pow_pred hw
  have hpos := Nat.two_pow_pos (w - 1)
  unfold start
  rw [intMin_eq hw, ofNat_div_ofNat (by omega) hcw,
    ofNat_mod_ofNat (by omega) hcw, ofNat_div_ofNat (by omega) hdw,
    ofNat_mod_ofNat (by omega) hdw]
  exact ⟨rfl, rfl, rfl, rfl⟩

/-- **The loop stops**, and the multiplier is precise where it does. -/
theorem loop_spec (S : Setting w d t) :
    ∃ s, doWhile (step (.ofNat w (critical (t - 1) d)) (.ofNat w d)) (again (.ofNat w d)) (w + 1)
        (start (.ofNat w (critical (t - 1) d)) (.ofNat w d)) = some s ∧
      Turn d t s ∧ critical (t - 1) d * error d s.p < 2 ^ s.p := by
  obtain ⟨hc, hcw⟩ := S.critical_bounds
  have hpow := S.pow_eq
  have hd := S.pos
  have hhalf := S.half
  have hw := S.width
  obtain ⟨hp, htracks⟩ := (tracks_start (d := d) (by omega) (show critical (t - 1) d < 2 ^ w by omega)
    (by omega)).step (by omega) (by omega) hd (by omega)
  have hpw : w - 1 + 1 = w := by omega
  have hstart : (start (BitVec.ofNat w (critical (t - 1) d)) (BitVec.ofNat w d)).p = w - 1 := rfl
  rw [hstart, hpw] at hp
  have hfirst : Turn d t (step (.ofNat w (critical (t - 1) d)) (.ofNat w d)
      (start (.ofNat w (critical (t - 1) d)) (.ofNat w d))) :=
    ⟨htracks, by omega, by omega, Or.inl hp, by
      rw [hp]
      exact Nat.div_lt_self (Nat.two_pow_pos w) hc⟩
  obtain ⟨s, hs, hturn, hagain⟩ := doWhile_spec (n := w + 1) (Turn d t) (fun s => 2 * w - s.p)
    (fun s hQ hagain => by
      obtain ⟨hQ', hp'⟩ := hQ.step S hagain
      have hlt := hQ'.upper
      exact ⟨hQ', by omega⟩) hfirst (by omega)
  refine ⟨s, hs, hturn, ?_⟩
  have hiff := again_iff hturn.tracks (by omega) (by omega) hd (by omega) hturn.exact
  by_contra hge
  rw [hiff.mpr (by omega)] at hagain
  exact absurd hagain (by decide)

end Loop

/-! ## The multiplier -/

section Multiplier

variable {d t : Nat} {s : Search w}

/-- The multiplier of a divisor above one fits the word. -/
theorem Turn.multiplier_lt (h : Turn d t s) (S : Setting w d t) (hd : 1 < d) :
    2 ^ s.p / d + 1 < 2 ^ w := by
  have hpow := S.pow_eq
  have hfour := S.four_le
  have hhalf := S.half
  have hlower := h.lower
  have hw := S.width
  suffices hlt : 2 ^ s.p / d < 2 ^ w - 1 by omega
  rw [Nat.div_lt_iff_lt_mul (by omega)]
  rcases h.caused with hp | hle
  · rw [hp]
    calc 2 ^ w < (2 ^ w - 1) * 2 := by omega
      _ ≤ (2 ^ w - 1) * d := Nat.mul_le_mul_left _ hd
  · have herr := error_le d (s.p - 1)
    have hsucc : 2 ^ s.p = 2 * 2 ^ (s.p - 1) := two_pow_pred (by omega)
    have hcw := S.critical_bounds.2
    rcases Nat.lt_or_eq_of_le hcw with hlt | heq
    · have hmul := Nat.mul_le_mul (show 2 * critical (t - 1) d ≤ 2 ^ w - 2 by omega) herr
      rw [Nat.mul_assoc] at hmul
      have hstrict : (2 ^ w - 2) * d < (2 ^ w - 1) * d :=
        Nat.mul_lt_mul_of_pos_right (by omega) (by omega)
      omega
    · -- then `d` divides an odd number, and the error cannot be all of `d`
      have ht : t = 2 ^ (w - 1) + 1 := by
        have hupper := critical_le (n := t - 1) (d := d)
        rcases S.bound with ⟨rfl, _⟩ | ht
        · omega
        · exact ht
      have hdvd : d ∣ 2 ^ (w - 1) + 1 := by
        have hd' := dvd_critical_succ (n := t - 1) S.pos (by have := S.le; omega)
        rwa [heq] at hd'
      have hne : error d (s.p - 1) ≠ d := by
        intro hall
        have hzero : d ∣ 2 ^ (s.p - 1) := by
          refine Nat.dvd_of_mod_eq_zero ?_
          unfold error at hall
          omega
        obtain ⟨k, _, hk⟩ := (Nat.dvd_prime_pow Nat.prime_two).mp hzero
        have heven : 2 ∣ d := by
          rw [hk]
          refine dvd_pow_self 2 fun hk0 => ?_
          rw [hk0] at hk
          omega
        have hodd := heven.trans hdvd
        have hhalfeven : 2 ^ (w - 1) = 2 * 2 ^ (w - 2) := by
          rw [← Nat.pow_succ']
          congr 1
          omega
        omega
      have hmul := Nat.mul_le_mul_left (2 ^ w) (show error d (s.p - 1) ≤ d - 1 by omega)
      rw [heq] at hle
      have hexpand : 2 ^ s.p ≤ 2 ^ w * error d (s.p - 1) := by
        rw [hsucc, hpow, Nat.mul_assoc]
        exact Nat.mul_le_mul_left 2 hle
      rw [Nat.mul_sub, Nat.mul_one] at hmul
      rw [Nat.sub_mul, Nat.one_mul]
      have hbig := Nat.mul_le_mul_left (2 ^ w) (show 1 ≤ d by omega)
      omega

/-- The error for the lowest dividend of all, when it lies just before a multiple of `d`. -/
theorem lowest_error (hd : 1 < d) (hmod : 2 ^ (w - 1) % d = d - 1) (hw : 0 < w) {p : Nat}
    (hp : w ≤ p) : 2 ^ (w - 1) * error d p ≤ 2 ^ p := by
  induction p, hp using Nat.le_induction with
  | base =>
    have hpow := two_pow_pred hw
    have hdouble := double_mod (2 ^ (w - 1)) (show 0 < d by omega) (Nat.zero_le 1)
    rw [hmod, Nat.add_zero, Nat.add_zero, if_pos (by omega), ← hpow] at hdouble
    have herr : error d w = 2 := by
      unfold error
      omega
    rw [herr, hpow, Nat.mul_comm]
  | succ p _ ih =>
    have herr := error_succ (show 0 < d by omega) p
    calc 2 ^ (w - 1) * error d (p + 1) ≤ 2 ^ (w - 1) * (2 * error d p) :=
          Nat.mul_le_mul_left _ herr
      _ = 2 * (2 ^ (w - 1) * error d p) := by ring
      _ ≤ 2 * 2 ^ p := Nat.mul_le_mul_left 2 ih
      _ = 2 ^ (p + 1) := (Nat.pow_succ').symm

/-- The dividends below the bound, and the bound itself where it is the lowest number. -/
theorem error_bound (S : Setting w d t) (hd : 1 < d) {p : Nat} (hp : w ≤ p)
    (hprecise : critical (t - 1) d * error d p < 2 ^ p) {a : Nat}
    (ha : a < t ∨ a = t ∧ t = 2 ^ (w - 1)) : a * error d p ≤ 2 ^ p * (d - a % d) := by
  have hle := S.le
  have hc := dvd_critical_succ (n := t - 1) S.pos (by omega)
  have hadd := lt_critical_add (n := t - 1) (d := d) S.pos
  by_cases hnear : a < critical (t - 1) d + d
  · exact (lt_of_critical S.pos hc hprecise hnear).le
  · have hw := S.width
    have hlow : a = t ∧ t = 2 ^ (w - 1) := by
      rcases ha with hlt | hlow
      · omega
      · exact hlow
    have hsub : t - 1 + 1 = t := by omega
    have hmod : t % d = d - 1 := by
      have hlt := Nat.mod_lt t S.pos
      unfold critical at hnear
      rw [hsub] at hnear
      omega
    rw [hlow.1, hmod]
    rw [hlow.2] at hmod ⊢
    have herr := lowest_error hd hmod (by omega) hp
    have hone : d - (d - 1) = 1 := by omega
    rwa [hone, Nat.mul_one]

/-- **Truncated division by multiplication**: the product rounded down, and one more where it is
negative. -/
theorem mul_ediv_add (S : Setting w d t) (hd : 1 < d) {p : Nat} (hp : w ≤ p)
    (hprecise : critical (t - 1) d * error d p < 2 ^ p) {x : Int} (hx : x < t)
    (hx' : -x < t ∨ -x = t ∧ t = 2 ^ (w - 1)) :
    x * (2 ^ p / d + 1 : Nat) / (2 ^ p : Nat) + (if x < 0 then 1 else 0) = x.tdiv d := by
  have hm := multiplier_mul (p := p) S.pos
  have hle := S.le
  rcases Int.lt_or_le x 0 with hneg | hpos
  · obtain ⟨a, rfl⟩ := Int.exists_eq_neg_ofNat hneg.le
    have ha : 0 < a := by omega
    have hlower := mul_lt S.pos hm ha (error_pos S.pos)
    have hupper := mul_le_succ_mul S.pos hm
      (error_bound S hd hp hprecise (a := a) (by omega))
    have hdiv := neg_ediv (Nat.two_pow_pos p) hlower hupper
    rw [if_pos hneg, Int.neg_mul, ← Int.natCast_mul, hdiv, Int.neg_tdiv, Int.sub_add_cancel,
      ← Int.ofNat_tdiv]
  · obtain ⟨a, rfl⟩ := Int.eq_ofNat_of_zero_le hpos
    have hlt := lt_of_critical S.pos (dvd_critical_succ (n := t - 1) S.pos (by omega)) hprecise
      (show a < critical (t - 1) d + d by
        have hadd := lt_critical_add (n := t - 1) (d := d) S.pos
        omega)
    rw [if_neg (by omega), Int.add_zero]
    have hdiv := mul_div_eq_div S.pos hm hlt
    rw [← Int.natCast_mul, ← Int.natCast_ediv, hdiv]
    rfl

end Multiplier

/-! ## The result -/

section Get

variable {d : BitVec w}

/-- The bound of the dividends, for the sign of the divisor. -/
def bound (d : BitVec w) : Nat := 2 ^ (w - 1) + if d.msb then 1 else 0

theorem setting (hw : 3 ≤ w) (h0 : d ≠ 0) : Setting w d.abs.toNat (bound d) := by
  have hpow := two_pow_pred (w := w) (by omega)
  have hlt := d.isLt
  have hne : d.toNat ≠ 0 := fun h => h0 (BitVec.eq_of_toNat_eq (by simpa using h))
  have habs := BitVec.toNat_abs (x := d)
  have hmsb := BitVec.msb_eq_decide d
  unfold bound
  cases hsign : d.msb with
  | false =>
    rw [hsign, if_neg (by decide)] at habs
    rw [hsign, eq_comm, decide_eq_false_iff_not] at hmsb
    exact ⟨hw, by omega, by omega, Or.inl ⟨by rw [if_neg (by decide), Nat.add_zero], by omega⟩⟩
  | true =>
    rw [hsign, if_pos rfl] at habs
    rw [hsign, eq_comm, decide_eq_true_eq] at hmsb
    exact ⟨hw, by omega, by omega, Or.inr rfl⟩

/-- `ANC` is the critical number below the bound. -/
theorem anc_eq (hw : 3 ≤ w) (h0 : d ≠ 0) :
    anc d = BitVec.ofNat w (critical (bound d - 1) d.abs.toNat) := by
  have S := setting hw h0
  have hpow := S.pow_eq
  have hfour := S.four_le
  have hle := S.le
  have hpos := S.pos
  have hshift : d >>> (w - 1) = BitVec.ofNat w (if d.msb then 1 else 0) := by
    have hmsb := BitVec.msb_eq_decide d
    have hlt := d.isLt
    apply BitVec.eq_of_toNat_eq
    rw [BitVec.toNat_ushiftRight, Nat.shiftRight_eq_div_pow, BitVec.toNat_ofNat]
    cases hsign : d.msb with
    | false =>
      rw [hsign, eq_comm, decide_eq_false_iff_not] at hmsb
      rw [if_neg (by decide), Nat.zero_mod]
      exact Nat.div_eq_of_lt (by omega)
    | true =>
      rw [hsign, eq_comm, decide_eq_true_eq] at hmsb
      rw [if_pos rfl, Nat.mod_eq_of_lt (by omega)]
      exact Nat.div_eq_of_lt_le (by omega) (by omega)
  have ht : BitVec.intMin w + d >>> (w - 1) = BitVec.ofNat w (bound d) := by
    rw [hshift, intMin_eq (by omega), ← BitVec.ofNat_add, bound]
  have hbound : bound d < 2 ^ w := by
    unfold bound
    split <;> omega
  have hpred : BitVec.ofNat w (bound d) - 1 = BitVec.ofNat w (bound d - 1) :=
    BitVec.ofNat_sub_ofNat_of_le (bound d) 1 (by omega) (by omega)
  have hself : BitVec.ofNat w d.abs.toNat = d.abs := by
    rw [BitVec.ofNat_toNat, BitVec.setWidth_eq]
  have hmod := Nat.mod_lt (bound d) hpos
  have hrem : BitVec.ofNat w (bound d) % d.abs = BitVec.ofNat w (bound d % d.abs.toNat) := by
    rw [← ofNat_mod_ofNat hbound d.abs.isLt, hself]
  unfold anc critical
  dsimp only
  rw [ht, hpred, hrem, BitVec.ofNat_sub_ofNat_of_le _ _ (by omega) (by omega),
    Nat.sub_add_cancel (by omega)]

/-- `2 ^ p` is precise enough for the dividends of `d`. -/
def Precise (d : BitVec w) (p : Nat) : Prop :=
  critical (bound d - 1) d.abs.toNat * error d.abs.toNat p < 2 ^ p

theorem Precise.succ {p : Nat} (h : Precise d p) (h0 : 0 < d.abs.toNat) : Precise d (p + 1) := by
  have herr := error_succ h0 p
  unfold Precise at h ⊢
  calc critical (bound d - 1) d.abs.toNat * error d.abs.toNat (p + 1)
      ≤ critical (bound d - 1) d.abs.toNat * (2 * error d.abs.toNat p) :=
        Nat.mul_le_mul_left _ herr
    _ = 2 * (critical (bound d - 1) d.abs.toNat * error d.abs.toNat p) := by ring
    _ < 2 * 2 ^ p := by omega
    _ = 2 ^ (p + 1) := (Nat.pow_succ').symm

theorem Precise.mono {k p : Nat} (h : Precise d k) (h0 : 0 < d.abs.toNat) (hle : k ≤ p) :
    Precise d p := by
  induction p, hle using Nat.le_induction with
  | base => exact h
  | succ p _ ih => exact ih.succ h0

/-- `p` is the least exponent, from `w` on, that is precise enough. -/
structure Least (d : BitVec w) (p : Nat) : Prop where
  lower : w ≤ p
  precise : Precise d p
  least : ∀ k, w ≤ k → k < p → ¬ Precise d k

theorem Least.unique {p p' : Nat} (h : Least d p) (h' : Least d p') : p = p' := by
  rcases Nat.lt_trichotomy p p' with hlt | heq | hgt
  · exact absurd h.precise (h'.least p h.lower hlt)
  · exact heq
  · exact absurd h'.precise (h.least p' h'.lower hgt)

/-- **`get` returns**, with a shift inside the word and a multiplier that fits it and is precise. -/
theorem get_spec (hw : 3 ≤ w) (h0 : d ≠ 0) :
    ∃ p, Least d p ∧ p - w < w - 1 ∧
      get d = some ⟨if d.msb then -BitVec.ofNat w (2 ^ p / d.abs.toNat + 1)
        else BitVec.ofNat w (2 ^ p / d.abs.toNat + 1), p - w⟩ ∧
      (1 < d.abs.toNat → 2 ^ p / d.abs.toNat + 1 < 2 ^ w) := by
  have S := setting hw h0
  obtain ⟨s, hs, hturn, hprecise⟩ := loop_spec S
  have hlower := hturn.lower
  have hupper := hturn.upper
  have hself : BitVec.ofNat w d.abs.toNat = d.abs := by
    rw [BitVec.ofNat_toNat, BitVec.setWidth_eq]
  rw [hself, ← anc_eq hw h0] at hs
  have hmagic : s.q2 + 1 = BitVec.ofNat w (2 ^ s.p / d.abs.toNat + 1) := by
    rw [hturn.tracks.q2, BitVec.ofNat_add]
    rfl
  have hleast : Least d s.p := by
    refine ⟨hlower, hprecise, fun k hk hlt hprec => ?_⟩
    rcases hturn.caused with hp | hle
    · omega
    · exact absurd (hprec.mono S.pos (show k ≤ s.p - 1 by omega)) (Nat.not_lt.mpr hle)
  refine ⟨s.p, hleast, by omega, ?_, hturn.multiplier_lt S⟩
  have hguard : ¬ (d = 0 ∨ w < 3) := by
    rintro (h | h)
    · exact h0 h
    · omega
  rw [get, if_neg hguard, search, hs]
  dsimp only [Option.bind_eq_bind, Option.bind_some]
  rw [hmagic]

end Get

end RvLlvm.CodeGen.Signed
