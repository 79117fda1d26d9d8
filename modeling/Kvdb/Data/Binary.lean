import Mathlib.Data.EReal.Operations
import Mathlib.Tactic

/-!
# Binary floating-point numbers

The bits of a number below its sign are an exponent and a fraction. Read together as
one binary number they grow with the size of the number: the exponent is in front, and the
step from the greatest fraction to the next exponent is as wide as the one before it.

Patterns are read over a fraction of any width, a bound at which the patterns stand for
infinity, and a unit for the least positive number.
-/

namespace Kvdb.Data

section Sizes

variable (p : ℕ)

/-- The size of a number with a fraction of `p` bits, in units of the least positive one.
Below the first exponent there is no implicit leading bit. -/
def scaled (m : ℕ) : ℕ :=
  if m < 2 ^ p then m else (2 ^ p + m % 2 ^ p) * 2 ^ (m / 2 ^ p - 1)

variable {p}

theorem scaled_of_lt {m : ℕ} (subnormal : m < 2 ^ p) : scaled p m = m := if_pos subnormal

/-- A number with an exponent. -/
theorem scaled_mul_add (e : ℕ) {f : ℕ} (fraction : f < 2 ^ p) :
    scaled p (2 ^ p * (e + 1) + f) = (2 ^ p + f) * 2 ^ e := by
  have wide : ¬ 2 ^ p * (e + 1) + f < 2 ^ p := by
    rw [Nat.mul_succ]
    omega
  rw [scaled, if_neg wide, Nat.mul_add_mod, Nat.mod_eq_of_lt fraction,
    Nat.mul_add_div (by positivity), Nat.div_eq_of_lt fraction, Nat.add_zero, Nat.add_sub_cancel]

theorem scaled_lt_succ (m : ℕ) : scaled p m < scaled p (m + 1) := by
  rcases Nat.lt_or_ge (m + 1) (2 ^ p) with below | above
  · rw [scaled_of_lt below, scaled_of_lt (by omega)]
    exact Nat.lt_succ_self m
  rcases Nat.lt_or_ge m (2 ^ p) with last | normal
  · -- The first number with an exponent comes after the last one without.
    have first : m + 1 = 2 ^ p * (0 + 1) + 0 := by omega
    rw [scaled_of_lt last, first, scaled_mul_add 0 (by positivity), pow_zero]
    omega
  obtain ⟨e, f, fraction, rfl⟩ : ∃ e f, f < 2 ^ p ∧ m = 2 ^ p * (e + 1) + f := by
    refine ⟨m / 2 ^ p - 1, m % 2 ^ p, Nat.mod_lt _ (by positivity), ?_⟩
    have whole : 1 ≤ m / 2 ^ p := Nat.div_pos normal (by positivity)
    rw [Nat.sub_add_cancel whole, Nat.div_add_mod]
  rw [scaled_mul_add e fraction]
  rcases Nat.lt_or_ge (f + 1) (2 ^ p) with within | carry
  · rw [Nat.add_assoc, scaled_mul_add e within]
    exact Nat.mul_lt_mul_of_pos_right (by omega) (by positivity)
  · have next : 2 ^ p * (e + 1) + f + 1 = 2 ^ p * (e + 1 + 1) + 0 := by
      rw [Nat.mul_succ _ (e + 1)]
      omega
    rw [next, scaled_mul_add (e + 1) (by positivity)]
    calc (2 ^ p + f) * 2 ^ e < (2 ^ p + 2 ^ p) * 2 ^ e :=
          Nat.mul_lt_mul_of_pos_right (by omega) (by positivity)
      _ = (2 ^ p + 0) * 2 ^ (e + 1) := by ring

theorem scaled_strictMono : StrictMono (scaled p) := strictMono_nat_of_lt_succ scaled_lt_succ

end Sizes

section Values

variable (p limit : ℕ) (unit : ℝ)

/-- The size of the number with a pattern. -/
noncomputable def sizeAt (m : ℕ) : EReal :=
  if m < limit then ((scaled p m * unit : ℝ) : EReal) else ⊤

/-- The number at a place of the order: the pattern of its size, negated for negative
numbers. -/
noncomputable def valueAt (r : ℤ) : EReal :=
  if r < 0 then -sizeAt p limit unit r.natAbs else sizeAt p limit unit r.natAbs

variable {p limit unit}

theorem sizeAt_zero (some : 0 < limit) : sizeAt p limit unit 0 = 0 := by
  rw [sizeAt, if_pos some, scaled_of_lt (by positivity)]
  simp

theorem sizeAt_lt (positive : 0 < unit) {m n : ℕ} (less : m < n) (bound : n ≤ limit) :
    sizeAt p limit unit m < sizeAt p limit unit n := by
  rw [sizeAt, sizeAt, if_pos (by omega)]
  split_ifs with finite
  · have sizes : (scaled p m : ℝ) < scaled p n := by exact_mod_cast scaled_strictMono less
    exact_mod_cast mul_lt_mul_of_pos_right sizes positive
  · exact EReal.coe_lt_top _

theorem sizeAt_pos (positive : 0 < unit) {m : ℕ} (some : 0 < m) (bound : m ≤ limit) :
    0 < sizeAt p limit unit m := by
  rw [← @sizeAt_zero p limit unit (by omega)]
  exact sizeAt_lt positive some bound

/-- The numbers are in the order of their places. -/
theorem valueAt_lt (positive : 0 < unit) {r s : ℤ} (less : r < s) (bound : r.natAbs ≤ limit)
    (bound' : s.natAbs ≤ limit) : valueAt p limit unit r < valueAt p limit unit s := by
  rw [valueAt, valueAt]
  split_ifs with low high
  · rw [EReal.neg_lt_neg_iff]
    exact sizeAt_lt positive (by omega) bound
  · have below : -sizeAt p limit unit r.natAbs < 0 := by
      rw [EReal.neg_lt_comm, neg_zero]
      exact sizeAt_pos positive (by omega) bound
    refine below.trans_le ?_
    rcases Nat.eq_zero_or_pos s.natAbs with zero | some
    · rw [zero, sizeAt_zero (by omega)]
    · exact (sizeAt_pos positive some bound').le
  · omega
  · exact sizeAt_lt positive (by omega) bound'

theorem valueAt_lt_iff (positive : 0 < unit) {r s : ℤ} (bound : r.natAbs ≤ limit)
    (bound' : s.natAbs ≤ limit) : valueAt p limit unit r < valueAt p limit unit s ↔ r < s := by
  refine ⟨fun less => ?_, fun less => valueAt_lt positive less bound bound'⟩
  by_contra other
  rcases (not_lt.mp other).eq_or_lt with rfl | above
  · exact lt_irrefl _ less
  · exact lt_asymm less (valueAt_lt positive above bound' bound)

end Values

end Kvdb.Data
