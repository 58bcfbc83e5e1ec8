import Mathlib.Data.Nat.Log
import RvLlvm.APInt.KnuthDiv

/-!
# Division of words

What `divide` of `APInt/Divide.lean` gives: the words of the quotient and of the remainder.

* `digits_spec`, `joined_spec`: words are cut into digits and joined again.
* `shortDiv_spec`: the short division by one digit.
* `divide_spec`: the long one, for a dividend that is not the smaller number.
-/

namespace RvLlvm.APInt

/-- The base of the words. -/
def wordBase : Nat := 2 ^ 64

def IsWords (ws : List Nat) : Prop := ∀ w ∈ ws, w < wordBase

theorem wordBase_eq : wordBase = base * base := rfl

/-! ## Digits and words -/

theorem digits_spec : ∀ {ws : List Nat}, IsWords ws → IsDigits (digits ws) ∧
    (digits ws).length = 2 * ws.length ∧ Nat.ofDigits base (digits ws) = Nat.ofDigits wordBase ws := by
  intro ws
  induction ws with
  | nil => exact fun _ => ⟨(fun _ h => nomatch h), rfl, rfl⟩
  | cons w ws ih =>
    intro h
    obtain ⟨hdigits, hlen, hval⟩ := ih fun x hx => h x (List.mem_cons_of_mem w hx)
    have hw : w < 2 ^ 64 := h w List.mem_cons_self
    have hlo : Lo_32 w = w % 2 ^ 32 := Lo_32_natCast w
    have hhi : Hi_32 w = w / 2 ^ 32 := by
      unfold Hi_32
      omega
    refine ⟨?_, ?_, ?_⟩
    · refine IsDigits.cons (Lo_32_lt w) (IsDigits.cons ?_ hdigits)
      rw [hhi]
      exact Nat.div_lt_of_lt_mul hw
    · rw [digits, List.length_cons, List.length_cons, hlen, List.length_cons]
      omega
    · rw [digits, Nat.ofDigits_cons, Nat.ofDigits_cons, Nat.ofDigits_cons, hval, hlo, hhi,
        wordBase_eq, Nat.mul_add, ← Nat.add_assoc, ← Nat.mul_assoc]
      exact congrArg (· + _) (Nat.mod_add_div w (2 ^ 32))

theorem joined_spec : ∀ {m : Nat} {ds : List Nat}, ds.length = 2 * m →
    (joined ds).length = m ∧ Nat.ofDigits wordBase (joined ds) = Nat.ofDigits base ds := by
  intro m
  induction m with
  | zero =>
    intro ds h
    obtain rfl := List.eq_nil_of_length_eq_zero h
    exact ⟨rfl, rfl⟩
  | succ m ih =>
    intro ds h
    match ds, h with
    | lo :: hi :: ds, h =>
      obtain ⟨hlen, hval⟩ := ih (by simpa [Nat.mul_succ] using h : ds.length = 2 * m)
      refine ⟨by rw [joined, List.length_cons, hlen], ?_⟩
      rw [joined, Nat.ofDigits_cons, Nat.ofDigits_cons, Nat.ofDigits_cons, hval, wordBase_eq,
        Nat.mul_add, ← Nat.add_assoc, ← Nat.mul_assoc, Make_64]
      show hi * base + lo + _ = lo + base * hi + _
      ring

/-- The zeros on top do not count. -/
theorem significant_spec (ds : List Nat) : ∀ {i : Nat}, i ≤ ds.length →
    significant ds i ≤ i ∧
      ds.take i = ds.take (significant ds i) ++ List.replicate (i - significant ds i) 0 ∧
      (0 < significant ds i → ds[significant ds i - 1]? ≠ some 0) := by
  intro i
  induction i with
  | zero => exact fun _ => ⟨Nat.le_refl _, by simp [significant], fun h => absurd h (by simp [significant])⟩
  | succ i ih =>
    intro hi
    rw [significant]
    split
    · next hzero =>
      obtain ⟨hle, htake, hne⟩ := ih (Nat.le_of_succ_le hi)
      refine ⟨Nat.le_succ_of_le hle, ?_, hne⟩
      rw [List.take_add_one, hzero, htake, Nat.succ_sub hle, List.replicate_succ', Option.toList_some,
        List.append_assoc]
    · next hzero =>
      exact ⟨Nat.le_refl _, by simp, fun _ => hzero⟩

theorem ofDigits_zeros (b n : Nat) : Nat.ofDigits b (List.replicate n 0) = 0 :=
  Nat.ofDigits_replicate_zero

theorem ofDigits_append_zeros (b : Nat) (ds : List Nat) (n : Nat) :
    Nat.ofDigits b (ds ++ List.replicate n 0) = Nat.ofDigits b ds := by
  rw [Nat.ofDigits_append, ofDigits_zeros, Nat.mul_zero, Nat.add_zero]

/-! ## The short division -/

theorem shortDigit_eq {divisor remainder u : Nat} (hd : divisor < base) (hr : remainder < divisor)
    (hu : u < base) : shortDigit divisor remainder u =
      ((remainder * base + u) / divisor, (remainder * base + u) % divisor) := by
  have hpos : 0 < divisor := Nat.zero_lt_of_lt hr
  have hquot : (remainder * base + u) / divisor < base := by
    rw [Nat.div_lt_iff_lt_mul hpos, Nat.mul_comm base]
    calc remainder * base + u < remainder * base + base := Nat.add_lt_add_left hu _
      _ = (remainder + 1) * base := (Nat.succ_mul _ _).symm
      _ ≤ divisor * base := Nat.mul_le_mul_right _ hr
  have hrem : (remainder * base + u) % divisor < base := (Nat.mod_lt _ hpos).trans hd
  have hmake : Make_64 remainder u = remainder * base + u := rfl
  simp only [shortDigit, hmake]
  generalize hp : remainder * base + u = p at *
  split
  · next h => rw [h, Nat.zero_div, Nat.zero_mod]
  · split
    · next h =>
      rw [Nat.div_eq_of_lt h, Nat.mod_eq_of_lt h, Lo_32_natCast]
      exact congrArg _ (Nat.mod_eq_of_lt (h.trans hd))
    · split
      · next h => rw [h, Nat.div_self hpos, Nat.mod_self]
      · have hlo : Lo_32 (p / divisor : Nat) = p / divisor := by
          rw [Lo_32_natCast]
          exact Nat.mod_eq_of_lt hquot
        have hle : p / divisor * divisor ≤ p := Nat.div_mul_le_self p divisor
        have hsub : p - p / divisor * divisor = p % divisor := by
          rw [Nat.mul_comm]
          exact Nat.sub_eq_of_eq_add (by rw [Nat.add_comm]; exact (Nat.div_add_mod p divisor).symm)
        rw [hlo]
        refine congrArg _ ?_
        rw [← hsub]
        rw [← hsub] at hrem
        unfold Lo_32 base at *
        generalize p / divisor * divisor = t at *
        omega

/-- **The short division** by a digit. -/
theorem shortDiv_spec {divisor : Nat} (hd : divisor < base) (hpos : 0 < divisor) :
    ∀ {ds : List Nat}, IsDigits ds →
      (shortDiv divisor ds).1.length = ds.length ∧
      Nat.ofDigits base (shortDiv divisor ds).1 = Nat.ofDigits base ds / divisor ∧
      (shortDiv divisor ds).2 = Nat.ofDigits base ds % divisor := by
  intro ds
  induction ds with
  | nil => exact fun _ => ⟨rfl, (Nat.zero_div _).symm, (Nat.zero_mod _).symm⟩
  | cons u us ih =>
    intro h
    obtain ⟨hlen, hquot, hrem⟩ := ih h.tail
    have hr : (shortDiv divisor us).2 < divisor := by
      rw [hrem]
      exact Nat.mod_lt _ hpos
    rw [shortDiv, shortDigit_eq hd hr h.head, Nat.ofDigits_cons, Nat.ofDigits_cons, hquot, hrem,
      List.length_cons, List.length_cons, hlen]
    have hsplit : u + base * Nat.ofDigits base us =
        Nat.ofDigits base us % divisor * base + u + divisor * (base * (Nat.ofDigits base us / divisor)) := by
      conv_lhs => rw [← Nat.mod_add_div (Nat.ofDigits base us) divisor]
      ring
    refine ⟨rfl, ?_, ?_⟩
    · rw [hsplit, Nat.add_mul_div_left _ _ hpos]
    · rw [hsplit, Nat.add_mul_mod_self_left]

/-! ## `divide` -/

section Divide

variable {LHS RHS : List Nat}

/-- The digits of the divisor without the zeros on top. -/
theorem exists_divisor (hR : IsWords RHS) (h0 : Nat.ofDigits wordBase RHS ≠ 0) :
    ∃ v top, (digits RHS).take (significant (digits RHS) (2 * RHS.length)) = v ++ [top] ∧
      significant (digits RHS) (2 * RHS.length) = v.length + 1 ∧ top ≠ 0 ∧ IsDigits (v ++ [top]) ∧
      Nat.ofDigits base (v ++ [top]) = Nat.ofDigits wordBase RHS := by
  obtain ⟨hdig, hlen, hval⟩ := digits_spec hR
  obtain ⟨hle, htake, hne⟩ := significant_spec (digits RHS) hlen.ge
  generalize significant (digits RHS) (2 * RHS.length) = n at *
  rw [List.take_of_length_le hlen.le] at htake
  have hvalue : Nat.ofDigits base ((digits RHS).take n) = Nat.ofDigits wordBase RHS := by
    rw [← hval]
    conv_rhs => rw [htake]
    exact (ofDigits_append_zeros base _ _).symm
  have hpos : 0 < n := by
    rcases Nat.eq_zero_or_pos n with rfl | hpos
    · rw [List.take_zero] at hvalue
      exact absurd hvalue.symm h0
    · exact hpos
  have hlt : n - 1 < (digits RHS).length := by omega
  have hsplit : (digits RHS).take n = (digits RHS).take (n - 1) ++ [(digits RHS)[n - 1]] := by
    conv_lhs => rw [← Nat.sub_add_cancel hpos]
    exact List.take_succ_eq_append_getElem hlt
  refine ⟨(digits RHS).take (n - 1), (digits RHS)[n - 1], hsplit, ?_, fun h => ?_, ?_, ?_⟩
  · rw [List.length_take_of_le hlt.le, Nat.sub_add_cancel hpos]
  · exact hne hpos (by rw [List.getElem?_eq_getElem hlt, h])
  · rw [← hsplit]
    exact fun d hd => hdig d (List.mem_of_mem_take hd)
  · rw [← hsplit, hvalue]

/-- The digits of the dividend without the zeros on top. -/
theorem exists_dividend (hL : IsWords LHS) :
    significant (digits LHS ++ [0]) (2 * LHS.length) ≤ 2 * LHS.length ∧
      IsDigits ((digits LHS ++ [0]).take (significant (digits LHS ++ [0]) (2 * LHS.length))) ∧
      Nat.ofDigits base ((digits LHS ++ [0]).take (significant (digits LHS ++ [0]) (2 * LHS.length))) =
        Nat.ofDigits wordBase LHS := by
  obtain ⟨hdig, hlen, hval⟩ := digits_spec hL
  have hlen' : 2 * LHS.length ≤ (digits LHS ++ [0]).length := by
    rw [List.length_append, hlen]
    exact Nat.le_add_right _ _
  obtain ⟨hle, htake, -⟩ := significant_spec (digits LHS ++ [0]) hlen'
  have hall : (digits LHS ++ [0]).take (2 * LHS.length) = digits LHS := by
    rw [← hlen, List.take_left]
  rw [hall] at htake
  generalize significant (digits LHS ++ [0]) (2 * LHS.length) = k at *
  refine ⟨hle, fun d hd => hdig d ?_, ?_⟩
  · rw [htake]
    exact List.mem_append_left _ hd
  · rw [← hval]
    conv_rhs => rw [htake]
    exact (ofDigits_append_zeros base _ _).symm

/-- A number is not below the power of its highest digit. -/
theorem pow_le_ofDigits {v : List Nat} {top : Nat} (h0 : top ≠ 0) :
    base ^ v.length ≤ Nat.ofDigits base (v ++ [top]) := by
  rw [ofDigits_concat]
  exact (Nat.le_mul_of_pos_right _ (Nat.pos_of_ne_zero h0)).trans (Nat.le_add_left _ _)

/-- **`divide` divides**, a number that is not below the divisor. -/
theorem divide_spec (hL : IsWords LHS) (hR : IsWords RHS) (hlen : RHS.length ≤ LHS.length)
    (h0 : Nat.ofDigits wordBase RHS ≠ 0)
    (hle : Nat.ofDigits wordBase RHS ≤ Nat.ofDigits wordBase LHS) :
    ∃ q r, divide LHS RHS = some (q, r) ∧ r.length = RHS.length ∧
      Nat.ofDigits wordBase q = Nat.ofDigits wordBase LHS / Nat.ofDigits wordBase RHS ∧
      Nat.ofDigits wordBase r = Nat.ofDigits wordBase LHS % Nat.ofDigits wordBase RHS := by
  obtain ⟨v, top, hv, hn, htop, hvdig, hvval⟩ := exists_divisor hR h0
  obtain ⟨hkle, hudig, huval⟩ := exists_dividend hL
  obtain ⟨-, hRlen, -⟩ := digits_spec hR
  obtain ⟨-, hLlen, -⟩ := digits_spec hL
  have hnle : v.length + 1 ≤ 2 * RHS.length := hn ▸ (significant_spec _ hRlen.ge).1
  simp only [divide]
  rw [if_neg (Nat.not_lt.mpr hlen)]
  generalize hk : significant (digits LHS ++ [0]) (2 * LHS.length) = k at *
  generalize hU : digits LHS ++ [0] = U at *
  have hUlen : U.length = 2 * LHS.length + 1 := by
    rw [← hU, List.length_append, hLlen, List.length_singleton]
  rw [hn, if_neg (Nat.succ_ne_zero _)]
  split
  · next h1 =>
    obtain rfl := List.eq_nil_of_length_eq_zero (Nat.succ.inj h1)
    rw [hn] at hv
    obtain ⟨tail, htail⟩ : ∃ tail, digits RHS = top :: tail :=
      ⟨_, (List.take_append_drop 1 (digits RHS)).symm.trans (congrArg (· ++ _) hv)⟩
    have hone : Nat.ofDigits base ([] ++ [top]) = top := Nat.ofDigits_singleton
    rw [hone] at hvval
    obtain ⟨hslen, hquot, hrem⟩ := shortDiv_spec (hvdig top (List.mem_singleton_self top))
      (Nat.pos_of_ne_zero htop) hudig
    rw [List.length_take_of_le (by omega)] at hslen
    rw [htail, List.headD_cons, Option.map_some]
    refine ⟨_, _, rfl, (joined_spec ?_).1, ?_, ?_⟩
    · rw [List.length_cons, List.length_drop, List.length_replicate]
      omega
    · rw [(joined_spec (m := LHS.length) ?_).2, List.drop_replicate, ofDigits_append_zeros, hquot, huval,
        hvval]
      rw [List.length_append, List.length_drop, List.length_replicate, hslen]
      omega
    · rw [(joined_spec (m := RHS.length) ?_).2, Nat.ofDigits_cons, List.drop_replicate, ofDigits_zeros,
        Nat.mul_zero, Nat.add_zero, hrem, huval, hvval]
      rw [List.length_cons, List.length_drop, List.length_replicate]
      omega
  · next h1 =>
    have hvk : v.length + 1 ≤ k := by
      by_contra hlt
      have hpow := pow_le_ofDigits (v := v) htop
      have hsmall := Nat.ofDigits_lt_base_pow_length one_lt_base hudig
      rw [List.length_take_of_le (by omega), huval] at hsmall
      have hexp : base ^ k ≤ base ^ v.length := Nat.pow_le_pow_right (by decide) (by omega)
      rw [hvval] at hpow
      omega
    have hm : k - (v.length + 1) + (v.length + 1) = k := Nat.sub_add_cancel hvk
    obtain ⟨q, r, hrun, hqlen, -, hqdrop, hquot, hrlen, -, hrem⟩ :=
      KnuthDiv_spec (u := U) (v := v) (q := List.replicate (2 * LHS.length) 0)
        (r := List.replicate (2 * RHS.length) 0) (m := k - (v.length + 1)) hvdig (by omega) htop
        (by rwa [hm]) (by omega) (by rw [List.length_replicate]; omega)
    rw [hm, huval, hvval] at hquot hrem
    rw [hn] at hv
    rw [hv, show ((k : Int) - (v.length + 1 : Nat)) = ((k - (v.length + 1) : Nat) : Int) by omega, hrun,
      Option.map_some]
    rw [List.length_replicate] at hqlen
    refine ⟨_, _, rfl, (joined_spec ?_).1, ?_, ?_⟩
    · rw [List.length_append, hrlen, List.length_drop, List.length_replicate]
      omega
    · rw [(joined_spec hqlen).2, ← List.take_append_drop (k - (v.length + 1) + 1) q, hqdrop,
        List.drop_replicate, ofDigits_append_zeros, hquot]
    · rw [(joined_spec (m := RHS.length) ?_).2, List.drop_replicate, ofDigits_append_zeros, hrem]
      rw [List.length_append, hrlen, List.length_drop, List.length_replicate]
      omega

/-- There is no division by zero. -/
theorem divide_zero (w : List Nat) : divide w [0] = none := by
  simp only [divide]
  split
  · rfl
  · rfl

end Divide

end RvLlvm.APInt
