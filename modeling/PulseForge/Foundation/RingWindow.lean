import Mathlib.Tactic

/-!
# Windows of a ring

A stream of entries runs through an array: entry number `i` stands in slot `i % length`. The
entries from `k` up to `n` that are in the array are a window on the stream. Cursors count the
entries in 64 bits and may come round.
-/

set_option autoImplicit false

namespace PulseForge.Foundation

/-! ## Cursors -/

/-- Two cursors less than a round apart tell how far. -/
theorem toNat_cursor_sub {k n : ℕ} (hle : k ≤ n) (hlt : n - k < 2 ^ 64) :
    (UInt64.ofNat n - UInt64.ofNat k).toNat = n - k := by
  rw [UInt64.toNat_sub, UInt64.toNat_ofNat', UInt64.toNat_ofNat']
  omega

/-- Cursors less than `2 ^ 64` apart are told apart. -/
theorem cursor_eq_iff {k n : ℕ} (hle : k ≤ n) (hlt : n - k < 2 ^ 64) :
    UInt64.ofNat k = UInt64.ofNat n ↔ k = n := by
  constructor
  · intro heq
    have hsub := toNat_cursor_sub hle hlt
    rw [heq, UInt64.sub_self, UInt64.toNat_zero] at hsub
    omega
  · exact fun heq => heq ▸ rfl

/-- The cursor of the next position. -/
theorem cursor_succ (n : ℕ) : UInt64.ofNat n + 1 = UInt64.ofNat (n + 1) := by
  rw [UInt64.ofNat_add]
  rfl

/-- The mask of a power of two cuts a cursor to the slot of its entry. -/
theorem toNat_cursor_and {j : ℕ} (hj : j ≤ 63) (n : ℕ) :
    (UInt64.ofNat n &&& UInt64.ofNat (2 ^ j - 1)).toNat = n % 2 ^ j := by
  have hpow : 2 ^ j ≤ 2 ^ 63 := Nat.pow_le_pow_right (by decide) hj
  have hmask : (2 ^ j - 1) % 2 ^ 64 = 2 ^ j - 1 := Nat.mod_eq_of_lt (by omega)
  have hdvd : 2 ^ j ∣ 2 ^ 64 := pow_dvd_pow 2 (by omega)
  rw [UInt64.toNat_and, UInt64.toNat_ofNat', UInt64.toNat_ofNat', hmask,
    Nat.and_two_pow_sub_one_eq_mod, Nat.mod_mod_of_dvd n hdvd]

/-! ## Windows -/

variable {α : Type} {buf xs : List α} {k n : ℕ}

/-- Entries less than a round apart have slots of their own. -/
theorem slot_ne {i len : ℕ} (hlt : i < n) (hround : n < i + len) : n % len ≠ i % len := by
  intro heq
  have hdvd : len ∣ n - i := (Nat.modEq_iff_dvd' hlt.le).mp heq.symm
  have hle := Nat.le_of_dvd (by omega) hdvd
  omega

/-- **The entries from `k` up to `n`** stand in their slots. -/
def Window (buf xs : List α) (k n : ℕ) : Prop :=
  ∀ i, k ≤ i → i < n → buf[i % buf.length]? = xs[i]?

/-- The window between equal positions. -/
theorem window_empty (buf xs : List α) (k : ℕ) : Window buf xs k k :=
  fun _ hle hlt => absurd hlt (not_lt.mpr hle)

namespace Window

/-- A window that begins later. -/
theorem mono {k' : ℕ} (h : Window buf xs k n) (hle : k ≤ k') : Window buf xs k' n :=
  fun i hi hlt => h i (hle.trans hi) hlt

/-- **Writing the next slot** leaves the window alone when there is room. -/
theorem set (h : Window buf xs k n) (hroom : n < k + buf.length) (x : α) :
    Window (buf.set (n % buf.length) x) xs k n := by
  intro i hi hlt
  rw [List.length_set, List.getElem?_set_ne (slot_ne hlt (by omega))]
  exact h i hi hlt

/-- **The next entry** has been written and joins the window. -/
theorem push {x : α} (h : Window buf xs k n) (hn : xs.length = n)
    (hx : buf[n % buf.length]? = some x) : Window buf (xs ++ [x]) k (n + 1) := by
  intro i hi hlt
  rcases Nat.lt_or_ge i n with hin | hin
  · rw [List.getElem?_append_left (by omega)]
    exact h i hi hin
  · obtain rfl : i = n := by omega
    rw [hx, ← hn, List.getElem?_concat_length]

end Window

end PulseForge.Foundation
