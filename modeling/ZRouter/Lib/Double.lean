import Mathlib

/-!
# Doubles

The result of an operation on doubles is the exact one, rounded to 53 bits; between two doubles that
are equally near, the one with an even mantissa is taken.  Doubles are rational numbers here, and no
number is out of range.

* `roundEven`, `fl`: rounding to an integer, and to a double;
* `fl_exact`: what fits into 53 bits is not rounded; `fl_natCast`, `fl_tie`: natural numbers up to
  `2 ^ 53`, and the next one;
* `div`, `mod`: the operations, with `div_pow_two` and `mod_pow_two`, which are exact on dyadic
  fractions.
-/

namespace ZRouter.Double

/-- The nearest integer, or of two the even one. -/
def roundEven (x : ℚ) : ℤ :=
  let k := ⌊x⌋
  if x - k < 1 / 2 then k
  else if 1 / 2 < x - k then k + 1
  else if k % 2 = 0 then k
  else k + 1

/-- The exponent of the last bit of a double near `x`. -/
def lastBit (x : ℚ) : ℤ := Int.log 2 |x| - 52

/-- The nearest double. -/
def fl (x : ℚ) : ℚ := roundEven (x / 2 ^ lastBit x) * 2 ^ lastBit x

@[simp] theorem roundEven_intCast (k : ℤ) : roundEven k = k := by
  simp [roundEven]

/-- A number that is a multiple of the last bit is not rounded. -/
theorem fl_of_multiple {x : ℚ} {k : ℤ} (h : x / 2 ^ lastBit x = k) : fl x = x := by
  have hpow : (2 : ℚ) ^ lastBit x ≠ 0 := zpow_ne_zero _ two_ne_zero
  rw [fl, h, roundEven_intCast, ← h, div_mul_cancel₀ _ hpow]

/-- The last bit of `m * 2 ^ e` is not much above `e`. -/
theorem lastBit_le {m e : ℤ} (hm : m ≠ 0) (h : |m| ≤ 2 ^ 53) :
    lastBit (m * 2 ^ e) ≤ e ∨ (lastBit (m * 2 ^ e) = e + 1 ∧ |m| = 2 ^ 53) := by
  have htwo : (0 : ℚ) < 2 ^ e := zpow_pos two_pos e
  have habs : |((m : ℚ) * 2 ^ e)| = |(m : ℚ)| * 2 ^ e := by
    rw [abs_mul, abs_of_pos htwo]
  have hpos : 0 < |((m : ℚ) * 2 ^ e)| := by
    rw [habs]
    exact mul_pos (abs_pos.2 (Int.cast_ne_zero.2 hm)) htwo
  have hlog := Int.zpow_log_le_self (b := 2) (by norm_num) hpos
  rw [habs] at hlog
  rw [lastBit, habs]
  obtain ⟨l, hl⟩ : ∃ l, l = Int.log 2 (|(m : ℚ)| * 2 ^ e) := ⟨_, rfl⟩
  rw [← hl] at hlog ⊢
  have hm' : |(m : ℚ)| ≤ 2 ^ 53 := by exact_mod_cast h
  have hle : l ≤ 53 + e := by
    have hpow : ((2 : ℕ) : ℚ) ^ l ≤ 2 ^ (53 + e) := by
      refine hlog.trans ?_
      rw [zpow_add₀ two_ne_zero]
      exact mul_le_mul_of_nonneg_right (by exact_mod_cast hm') htwo.le
    exact (zpow_le_zpow_iff_right₀ (by norm_num : (1 : ℚ) < 2)).1 (by exact_mod_cast hpow)
  rcases hle.lt_or_eq with hlt | heq
  · left
    omega
  · refine Or.inr ⟨by omega, le_antisymm h ?_⟩
    -- the logarithm is as large as it can be
    have hge : (2 : ℚ) ^ (53 : ℤ) * 2 ^ e ≤ |(m : ℚ)| * 2 ^ e := by
      rw [← zpow_add₀ two_ne_zero, ← heq]
      exact_mod_cast hlog
    have hcancel := le_of_mul_le_mul_right hge htwo
    exact_mod_cast hcancel

/-- **What fits into 53 bits is not rounded.** -/
theorem fl_exact {m e : ℤ} (h : |m| ≤ 2 ^ 53) : fl (m * 2 ^ e) = m * 2 ^ e := by
  by_cases hm : m = 0
  · subst hm
    exact fl_of_multiple (k := 0) (by simp)
  have hsplit : ∀ j : ℤ, (m : ℚ) * 2 ^ e / 2 ^ j = m * 2 ^ (e - j) := by
    intro j
    rw [zpow_sub₀ two_ne_zero, mul_div_assoc]
  rcases lastBit_le (e := e) hm h with hle | ⟨heq, hmax⟩
  · obtain ⟨d, hd⟩ : ∃ d : ℕ, e - lastBit ((m : ℚ) * 2 ^ e) = d :=
      ⟨(e - lastBit ((m : ℚ) * 2 ^ e)).toNat, (Int.toNat_of_nonneg (by omega)).symm⟩
    refine fl_of_multiple (k := m * 2 ^ d) ?_
    rw [hsplit, hd, zpow_natCast]
    push_cast
    rfl
  · have hhalf : (m : ℚ) * 2 ^ (e - (e + 1)) = m / 2 := by
      rw [show e - (e + 1) = -1 by omega, zpow_neg_one, div_eq_mul_inv]
    obtain ⟨k, hk⟩ : ∃ k : ℤ, m = k * 2 := by
      rcases abs_choice m with ha | ha
      · exact ⟨2 ^ 52, by rw [← ha, hmax]; norm_num⟩
      · exact ⟨-2 ^ 52, by rw [show m = -|m| by rw [ha, neg_neg], hmax]; norm_num⟩
    refine fl_of_multiple (k := k) ?_
    rw [hsplit, heq, hhalf, hk]
    push_cast
    exact mul_div_cancel_right₀ _ two_ne_zero

theorem fl_natCast {n : ℕ} (h : n ≤ 2 ^ 53) : fl n = n := by
  have hexact := fl_exact (m := n) (e := 0) (by rw [Nat.abs_cast]; exact_mod_cast h)
  simpa using hexact

/-- The first natural number that is no double. -/
theorem fl_tie : fl (2 ^ 53 + 1) = 2 ^ 53 := by
  have hlog : Int.log 2 |(2 : ℚ) ^ 53 + 1| = 53 := by
    have hcast : |(2 : ℚ) ^ 53 + 1| = ((2 ^ 53 + 1 : ℕ) : ℚ) := by
      rw [abs_of_pos (by norm_num)]
      norm_num
    rw [hcast, Int.log_natCast]
    have hnat : Nat.log 2 (2 ^ 53 + 1) = 53 := by
      rw [Nat.log_eq_iff (by norm_num)]
      norm_num
    rw [hnat]
    rfl
  have hlast : lastBit (2 ^ 53 + 1) = 1 := by
    rw [lastBit, hlog]
    norm_num
  have hround : roundEven ((2 ^ 53 + 1) / 2 ^ (1 : ℤ)) = 2 ^ 52 := by
    have hfloor : ⌊((2 : ℚ) ^ 53 + 1) / 2 ^ (1 : ℤ)⌋ = 2 ^ 52 := by
      rw [Int.floor_eq_iff]
      norm_num
    rw [roundEven, hfloor]
    norm_num
  rw [fl, hlast, hround]
  norm_num

/-! ### Division and remainder -/

/-- `a / b`. -/
def div (a b : ℚ) : ℚ := fl (a / b)

/-- `a - floor(a / b) * b`. -/
def mod (a b : ℚ) : ℚ := fl (a - fl (⌊div a b⌋ * b))

/-- A number below `2 ^ 53`, divided by a power of two. -/
theorem div_pow_two {n : ℕ} (h : n ≤ 2 ^ 53) (k : ℕ) : div n (2 ^ k) = n / 2 ^ k := by
  have hexact := fl_exact (m := n) (e := -k) (by rw [Nat.abs_cast]; exact_mod_cast h)
  have hform : (n : ℚ) / 2 ^ k = ((n : ℤ) : ℚ) * 2 ^ (-(k : ℤ)) := by
    rw [zpow_neg, zpow_natCast, div_eq_mul_inv]
    norm_cast
  rw [div, hform, hexact]

/-- The remainder of a fraction with `k` bits behind the point, by a power of two. -/
theorem mod_pow_two {n : ℕ} (h : n ≤ 2 ^ 53) (k j : ℕ) :
    mod (n / 2 ^ k) (2 ^ j) = ((n % 2 ^ (k + j) : ℕ) : ℚ) / 2 ^ k := by
  have hk : (0 : ℚ) < 2 ^ k := by positivity
  have hdiv : div (n / 2 ^ k) (2 ^ j) = n / 2 ^ (k + j) := by
    rw [div, div_div, ← pow_add]
    exact div_pow_two h (k + j)
  have hfloor : ⌊(n : ℚ) / 2 ^ (k + j)⌋ = ((n / 2 ^ (k + j) : ℕ) : ℤ) := by
    have hcast : (n : ℚ) / 2 ^ (k + j) = (n : ℚ) / ((2 ^ (k + j) : ℕ) : ℚ) := by push_cast; rfl
    rw [hcast, Rat.floor_natCast_div_natCast]
    norm_cast
  have hq : n / 2 ^ (k + j) ≤ 2 ^ 53 := (Nat.div_le_self _ _).trans h
  have hmul : fl ((((n / 2 ^ (k + j) : ℕ) : ℤ) : ℚ) * 2 ^ j) = ((n / 2 ^ (k + j) : ℕ) : ℚ) * 2 ^ j := by
    have hexact := fl_exact (m := ((n / 2 ^ (k + j) : ℕ) : ℤ)) (e := j)
      (by rw [Nat.abs_cast]; exact_mod_cast hq)
    rw [zpow_natCast] at hexact
    rw [hexact]
    norm_cast
  have hrest : (n : ℚ) / 2 ^ k - ((n / 2 ^ (k + j) : ℕ) : ℚ) * 2 ^ j =
      ((n % 2 ^ (k + j) : ℕ) : ℚ) / 2 ^ k := by
    have hsplit := Nat.div_add_mod n (2 ^ (k + j))
    have hsplit' : (n : ℚ) = 2 ^ (k + j) * ((n / 2 ^ (k + j) : ℕ) : ℚ) + ((n % 2 ^ (k + j) : ℕ) : ℚ) := by
      exact_mod_cast hsplit.symm
    rw [eq_div_iff hk.ne', sub_mul, div_mul_cancel₀ _ hk.ne']
    conv_lhs => rw [hsplit', pow_add]
    ring
  have hmod : n % 2 ^ (k + j) ≤ 2 ^ 53 := (Nat.mod_le _ _).trans h
  rw [mod, hdiv, hfloor, hmul, hrest]
  exact (div_pow_two hmod k)

end ZRouter.Double
