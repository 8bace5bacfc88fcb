import Mathlib.Tactic

/-!
# Signed machine integers

The `int64_t` values of the source are integers. `i64` is what an arithmetic result becomes in
64 bits. A signed result outside the range is undefined in the source and wraps in the code that
compilers make of it.
-/

set_option autoImplicit false

namespace PulseForge

/-- The value of an `int64_t` that an arithmetic result becomes. -/
def i64 (x : ℤ) : ℤ := Int.bmod x (2 ^ 64)

/-- A value in range is not wrapped. -/
theorem i64_eq {x : ℤ} (hlo : -2 ^ 63 ≤ x) (hhi : x < 2 ^ 63) : i64 x = x := by
  unfold i64
  apply Int.bmod_eq_of_le
  · omega
  · omega

/-- Every value is in the range. -/
theorem i64_range (x : ℤ) : -2 ^ 63 ≤ i64 x ∧ i64 x < 2 ^ 63 := by
  have hlo := @Int.le_bmod x (2 ^ 64) (by decide)
  have hhi := @Int.bmod_lt x (2 ^ 64) (by decide)
  unfold i64
  constructor <;> omega

/-- A result that does not overflow below only gets smaller. -/
theorem i64_le_self {x : ℤ} (h : -2 ^ 63 ≤ x) : i64 x ≤ x := by
  by_cases hhi : x < 2 ^ 63
  · exact (i64_eq h hhi).le
  · exact (i64_range x).2.le.trans (not_lt.mp hhi)

/-- A result that does not overflow above only gets larger. -/
theorem self_le_i64 {x : ℤ} (h : x < 2 ^ 63) : x ≤ i64 x := by
  by_cases hlo : -2 ^ 63 ≤ x
  · exact (i64_eq hlo h).ge
  · exact (not_le.mp hlo).le.trans (i64_range x).1

/-- A wrapped summand wraps the same. -/
theorem i64_i64_add (x y : ℤ) : i64 (i64 x + y) = i64 (x + y) :=
  Int.bmod_add_bmod

/-- A wrapped minuend wraps the same. -/
theorem i64_i64_sub (x y : ℤ) : i64 (i64 x - y) = i64 (x - y) :=
  Int.bmod_sub_bmod

end PulseForge
