import Mathlib

/-!
# Prefixes of bit vectors

The vectors that share their first `len` bits are an interval.

* `hostmask`, `netmask`: the mask of the bits behind the first `len`, and of the first `len`;
* `and_netmask_toNat`, `and_hostmask_toNat`: both parts of a vector, as numbers;
* `mem_interval_iff`: the interval of a prefix.
-/

namespace ZRouter.Prefix

/-- The bits behind the first `len`. -/
def hostmask (w len : ℕ) : BitVec w := BitVec.ofNat w (2 ^ (w - len) - 1)

/-- The first `len` bits. -/
def netmask (w len : ℕ) : BitVec w := ~~~hostmask w len

variable {w len : ℕ}

theorem hostmask_toNat (w len : ℕ) : (hostmask w len).toNat = 2 ^ (w - len) - 1 := by
  have hle : 2 ^ (w - len) ≤ 2 ^ w := Nat.pow_le_pow_right (by norm_num) (Nat.sub_le w len)
  have hpos : 0 < 2 ^ (w - len) := Nat.two_pow_pos _
  rw [hostmask, BitVec.toNat_ofNat, Nat.mod_eq_of_lt (by omega)]

theorem netmask_toNat (w len : ℕ) : (netmask w len).toNat = 2 ^ w - 2 ^ (w - len) := by
  have hpos : 0 < 2 ^ (w - len) := Nat.two_pow_pos _
  rw [netmask, BitVec.toNat_not, hostmask_toNat]
  omega

theorem getMsbD_hostmask (w len i : ℕ) : (hostmask w len).getMsbD i = decide (len ≤ i ∧ i < w) := by
  rw [BitVec.getMsbD_eq_getLsbD, BitVec.getLsbD, hostmask_toNat, Nat.testBit_two_pow_sub_one,
    ← Bool.decide_and, decide_eq_decide]
  omega

/-- A mask has its first `len` bits, and no others. -/
theorem getMsbD_netmask (h : len ≤ w) (i : ℕ) : (netmask w len).getMsbD i = decide (i < len) := by
  rw [netmask, BitVec.getMsbD_not, getMsbD_hostmask, ← decide_not, ← Bool.decide_and, decide_eq_decide]
  omega

/-- The part behind the prefix. -/
theorem and_hostmask_toNat (a : BitVec w) (len : ℕ) :
    (a &&& hostmask w len).toNat = a.toNat % 2 ^ (w - len) := by
  rw [BitVec.toNat_and, hostmask_toNat, Nat.and_two_pow_sub_one_eq_mod]

/-- The two parts of a vector. -/
theorem parts_toNat (a : BitVec w) (len : ℕ) :
    (a &&& netmask w len).toNat + (a &&& hostmask w len).toNat = a.toNat := by
  have hdisjoint : (a &&& netmask w len) &&& (a &&& hostmask w len) = 0#w := by
    ext i hi
    simp only [netmask, BitVec.getElem_and, BitVec.getElem_not, BitVec.getElem_zero]
    cases (hostmask w len)[i] <;> simp
  have hunion : (a &&& netmask w len) ||| (a &&& hostmask w len) = a := by
    ext i hi
    simp only [netmask, BitVec.getElem_and, BitVec.getElem_not, BitVec.getElem_or]
    cases (hostmask w len)[i] <;> simp
  rw [← BitVec.toNat_add_of_and_eq_zero hdisjoint, BitVec.add_eq_or_of_and_eq_zero _ _ hdisjoint, hunion]

/-- The prefix. -/
theorem and_netmask_toNat (a : BitVec w) (len : ℕ) :
    (a &&& netmask w len).toNat = a.toNat / 2 ^ (w - len) * 2 ^ (w - len) := by
  have hparts := parts_toNat a len
  have hdivmod := Nat.div_add_mod' a.toNat (2 ^ (w - len))
  rw [and_hostmask_toNat] at hparts
  omega

/-- Two vectors share their first bits if and only if the numbers of these bits are the same. -/
theorem same_prefix_iff (h : len ≤ w) (x a : BitVec w) :
    (∀ i < len, x.getMsbD i = a.getMsbD i) ↔ x.toNat / 2 ^ (w - len) = a.toNat / 2 ^ (w - len) := by
  have hbit : ∀ (y : BitVec w) (i : ℕ), i < len →
      y.getMsbD i = (y.toNat / 2 ^ (w - len)).testBit (len - 1 - i) := by
    intro y i hi
    have hpos : w - 1 - i = len - 1 - i + (w - len) := by omega
    rw [BitVec.getMsbD_eq_getLsbD, decide_eq_true (by omega : i < w), Bool.true_and, BitVec.getLsbD,
      Nat.testBit_div_two_pow, hpos]
  have hlt : ∀ y : BitVec w, y.toNat / 2 ^ (w - len) < 2 ^ len := by
    intro y
    rw [Nat.div_lt_iff_lt_mul (Nat.two_pow_pos _), ← pow_add, Nat.add_sub_of_le h]
    exact y.isLt
  constructor
  · intro hall
    refine Nat.eq_of_testBit_eq fun j => ?_
    by_cases hj : j < len
    · have hi := hall (len - 1 - j) (by omega)
      rw [hbit x _ (by omega), hbit a _ (by omega)] at hi
      rwa [show len - 1 - (len - 1 - j) = j by omega] at hi
    · have hpow : 2 ^ len ≤ 2 ^ j := Nat.pow_le_pow_right (by norm_num) (by omega)
      rw [Nat.testBit_lt_two_pow ((hlt x).trans_le hpow), Nat.testBit_lt_two_pow ((hlt a).trans_le hpow)]
  · intro heq i hi
    rw [hbit x i hi, hbit a i hi, heq]

/-- **The vectors of a prefix are an interval.** -/
theorem mem_interval_iff (h : len ≤ w) (x a : BitVec w) :
    ((a &&& netmask w len).toNat ≤ x.toNat ∧
        x.toNat ≤ (a &&& netmask w len).toNat + 2 ^ (w - len) - 1) ↔
      ∀ i < len, x.getMsbD i = a.getMsbD i := by
  rw [same_prefix_iff h, and_netmask_toNat, Nat.div_eq_iff (Nat.two_pow_pos _)]

end ZRouter.Prefix
