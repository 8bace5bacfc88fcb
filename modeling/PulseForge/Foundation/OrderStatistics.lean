import Mathlib.Tactic
import Mathlib.Data.Multiset.Sort

/-!
# The sample of a rank

The sample of rank `k` of a multiset is the `k`-th smallest. It is below a bound exactly when at
least `k` samples are.
-/

set_option autoImplicit false

namespace PulseForge.Foundation

variable {α : Type} [LinearOrder α]

/-- `x` is the sample of rank `k`, counted from one. -/
def IsRanked (s : Multiset α) (k : ℕ) (x : α) : Prop :=
  0 < k ∧ (s.sort (· ≤ ·))[k - 1]? = some x

/-- Every rank within the count is someone's. -/
theorem exists_isRanked {s : Multiset α} {k : ℕ} (hpos : 0 < k) (hle : k ≤ s.card) :
    ∃ x, IsRanked s k x := by
  have hlt : k - 1 < (s.sort (· ≤ ·)).length := by
    rw [Multiset.length_sort]
    omega
  exact ⟨_, hpos, List.getElem?_eq_getElem hlt⟩

/-- A ranked value is one of the values. -/
theorem IsRanked.mem {s : Multiset α} {k : ℕ} {x : α} (h : IsRanked s k x) : x ∈ s := by
  have hmem := List.mem_of_getElem? h.2
  rwa [Multiset.mem_sort] at hmem

/-- Higher ranks, larger samples. -/
theorem IsRanked.mono {s : Multiset α} {j k : ℕ} {x y : α} (hx : IsRanked s j x)
    (hy : IsRanked s k y) (hjk : j ≤ k) : x ≤ y := by
  obtain ⟨hj, hx⟩ := List.getElem?_eq_some_iff.mp hx.2
  obtain ⟨hk, hy⟩ := List.getElem?_eq_some_iff.mp hy.2
  rw [← hx, ← hy]
  exact (Multiset.pairwise_sort s (· ≤ ·)).rel_get_of_le
    (a := ⟨j - 1, hj⟩) (b := ⟨k - 1, hk⟩) (Nat.sub_le_sub_right hjk 1)

/-- **A rank and a bound.** -/
theorem IsRanked.lt_iff {s : Multiset α} {k : ℕ} {x : α} (h : IsRanked s k x) (b : α) :
    x < b ↔ k ≤ s.countP (· < b) := by
  obtain ⟨hpos, hx⟩ := h
  obtain ⟨hlt, hx⟩ := List.getElem?_eq_some_iff.mp hx
  have hcount : s.countP (· < b) = (s.sort (· ≤ ·)).countP fun y => decide (y < b) := by
    conv_lhs => rw [← Multiset.sort_eq s (· ≤ ·)]
    exact Multiset.coe_countP _ _
  have hsorted := Multiset.pairwise_sort s (· ≤ ·)
  rw [hcount]
  generalize s.sort (· ≤ ·) = l at hlt hx hsorted
  constructor
  · intro hb
    have hall : (l.take k).countP (fun y => decide (y < b)) = (l.take k).length := by
      rw [List.countP_eq_length]
      intro y hy
      obtain ⟨i, hi, rfl⟩ := List.mem_take_iff_getElem.mp hy
      apply decide_eq_true
      refine lt_of_le_of_lt ?_ hb
      rw [← hx]
      exact hsorted.rel_get_of_le (a := ⟨i, by omega⟩) (b := ⟨k - 1, hlt⟩)
        (Fin.mk_le_mk.mpr (by omega))
    calc k = (l.take k).length := by
          rw [List.length_take]
          omega
      _ = (l.take k).countP fun y => decide (y < b) := hall.symm
      _ ≤ l.countP fun y => decide (y < b) := (List.take_sublist k l).countP_le
  · intro hk
    by_contra hb
    have hnone : (l.drop (k - 1)).countP (fun y => decide (y < b)) = 0 := by
      rw [List.countP_eq_zero]
      intro y hy
      obtain ⟨i, hi, rfl⟩ := List.mem_drop_iff_getElem.mp hy
      rw [decide_eq_true_eq, not_lt]
      refine le_trans (not_lt.mp hb) ?_
      rw [← hx]
      exact hsorted.rel_get_of_le (a := ⟨k - 1, hlt⟩) (b := ⟨k - 1 + i, by omega⟩)
        (Fin.mk_le_mk.mpr (by omega))
    have hsplit : l.countP (fun y => decide (y < b)) ≤ k - 1 :=
      calc l.countP (fun y => decide (y < b))
          = (l.take (k - 1) ++ l.drop (k - 1)).countP fun y => decide (y < b) := by
            rw [List.take_append_drop]
        _ = (l.take (k - 1)).countP fun y => decide (y < b) := by
            rw [List.countP_append, hnone, Nat.add_zero]
        _ ≤ (l.take (k - 1)).length := List.countP_le_length
        _ ≤ k - 1 := List.length_take_le _ _
    omega

end PulseForge.Foundation
