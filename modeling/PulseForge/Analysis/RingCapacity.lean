import PulseForge.Model.SpscRing

/-!
# The capacity of a ring

`next_pow2` doubles until it is large enough: it answers a power of two up to `2^63`, and does
not return when more is asked for.
-/

set_option autoImplicit false

namespace PulseForge

/-- Doubling a power of two. -/
theorem ofNat_pow_shiftLeft (j : ℕ) : UInt64.ofNat (2 ^ j) <<< 1 = UInt64.ofNat (2 ^ (j + 1)) := by
  have hone : UInt64.toNat 1 % 64 = 1 := rfl
  apply UInt64.toNat_inj.mp
  rw [UInt64.toNat_shiftLeft, UInt64.toNat_ofNat', UInt64.toNat_ofNat', hone, Nat.shiftLeft_eq,
    Nat.pow_succ 2 j, Nat.pow_one, Nat.mod_mul_mod]

/-- A power of two up to `2 ^ 63` fits. -/
theorem toNat_ofNat_pow {j : ℕ} (hj : j ≤ 63) : (UInt64.ofNat (2 ^ j)).toNat = 2 ^ j := by
  rw [UInt64.toNat_ofNat']
  exact Nat.mod_eq_of_lt (Nat.pow_lt_pow_right (by decide) (by omega))

/-- Comparing with a power of two that fits. -/
theorem ofNat_pow_lt_iff {n : UInt64} {j : ℕ} (hj : j ≤ 63) :
    UInt64.ofNat (2 ^ j) < n ↔ 2 ^ j < n.toNat := by
  rw [UInt64.lt_iff_toNat_lt, toNat_ofNat_pow hj]

/-- The loop ends at the first power that is large enough. -/
theorem nextPow2Loop_eq_some {n : UInt64} (hn : n.toNat ≤ 2 ^ 63) :
    ∀ fuel j, j ≤ 63 → 63 < fuel + j →
      ∃ b ≤ 63, nextPow2Loop n fuel (UInt64.ofNat (2 ^ j)) = some (UInt64.ofNat (2 ^ b)) ∧
        n.toNat ≤ 2 ^ b := by
  intro fuel
  induction fuel with
  | zero =>
    intro j hj hfuel
    omega
  | succ fuel ih =>
    intro j hj hfuel
    rw [nextPow2Loop, ofNat_pow_shiftLeft]
    split
    · next hlt =>
      rw [ofNat_pow_lt_iff hj] at hlt
      have hj63 : j ≠ 63 := by
        rintro rfl
        omega
      exact ih (j + 1) (by omega) (by omega)
    · next hge =>
      rw [ofNat_pow_lt_iff hj] at hge
      exact ⟨j, hj, rfl, by omega⟩

/-- Beyond `2 ^ 63` no power of two fits, and the loop does not end. -/
theorem nextPow2Loop_eq_none {n : UInt64} (hn : 2 ^ 63 < n.toNat) :
    ∀ fuel j, j ≤ 64 → nextPow2Loop n fuel (UInt64.ofNat (2 ^ j)) = none := by
  have hzero : UInt64.ofNat (2 ^ 64) = 0 := rfl
  intro fuel
  induction fuel with
  | zero => exact fun _ _ => rfl
  | succ fuel ih =>
    intro j hj
    rcases Nat.lt_or_eq_of_le hj with hlt | rfl
    · have hpow : 2 ^ j ≤ 2 ^ 63 := Nat.pow_le_pow_right (by decide) (by omega)
      rw [nextPow2Loop, if_pos ((ofNat_pow_lt_iff (by omega)).mpr (by omega)), ofNat_pow_shiftLeft]
      exact ih (j + 1) (by omega)
    · have hstay : UInt64.ofNat (2 ^ 64) <<< 1 = UInt64.ofNat (2 ^ 64) := rfl
      rw [nextPow2Loop, hstay, if_pos, ih 64 le_rfl]
      rw [UInt64.lt_iff_toNat_lt, hzero, UInt64.toNat_zero]
      omega

/-- **`next_pow2`** answers a power of two that is large enough, and answers up to `2^63`. -/
theorem nextPow2_spec (n : UInt64) :
    (n.toNat ≤ 2 ^ 63 → ∃ b ≤ 63, nextPow2 n = some (UInt64.ofNat (2 ^ b)) ∧ n.toNat ≤ 2 ^ b) ∧
      (2 ^ 63 < n.toNat → nextPow2 n = none) :=
  ⟨fun hn => nextPow2Loop_eq_some hn 65 0 (by omega) (by omega),
    fun hn => nextPow2Loop_eq_none hn 65 0 (by omega)⟩

/-- The mask that goes with a power of two. -/
theorem ofNat_pow_sub_one (j : ℕ) : UInt64.ofNat (2 ^ j) - 1 = UInt64.ofNat (2 ^ j - 1) := by
  rw [UInt64.ofNat_sub Nat.one_le_two_pow]
  rfl

end PulseForge
