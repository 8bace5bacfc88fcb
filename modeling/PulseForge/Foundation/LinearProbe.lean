import Mathlib.Data.List.Sort
import Mathlib.Tactic

/-!
# Open addressing on a ring of slots

A table of `n` slots is a function `tab` from positions to optional entries, and every
entry has a home position. Probing starts at the home and walks forward round the ring.
The invariant `NoHoles` says that no empty slot lies between the home of an entry and
the slot it is stored in, so that a probe that stops at the first empty slot cannot miss
an entry.

Deletion without tombstones is the hard case. The slot of the erased entry becomes a
hole; the scan walks forward from it and moves back every entry whose probe path crosses
the hole, which opens a new hole where that entry was. `Shifting` is what holds between
two iterations of that scan: the only hole any probe path may cross is the current one,
and the entries already scanned do not cross it. When the scan meets an empty slot,
`Shifting.noHoles` gives the invariant back.

The distance `dist n a b` counts steps forward from `a` to `b`; all arguments about the
wrap-around are case splits on it.
-/

set_option autoImplicit false

namespace PulseForge.Foundation

/-! ## A loop that stops -/

/-- Iterate `next` from `i` until `stop` holds; `none` when it has not stopped after
`fuel` tests. -/
def firstStop {ι : Type} (next : ι → ι) (stop : ι → Bool) : ℕ → ι → Option ι
  | 0, _ => none
  | fuel + 1, i => if stop i then some i else firstStop next stop fuel (next i)

namespace LinearProbe

/-! ## Distances round the ring -/

/-- Steps forward from `a` to `b` on a ring of `n` positions. -/
def dist (n a b : ℕ) : ℕ := if a ≤ b then b - a else b + n - a

/-- The position after `i`. -/
def succ (n i : ℕ) : ℕ := if i + 1 = n then 0 else i + 1

/-- The next position is on the ring. -/
theorem succ_lt {n i : ℕ} (hi : i < n) : succ n i < n := by
  unfold succ
  split <;> omega

/-- The next position, by the remainder. -/
theorem succ_eq_mod {n i : ℕ} (hi : i < n) : succ n i = (i + 1) % n := by
  unfold succ
  split
  · next h => rw [h, Nat.mod_self]
  · rw [Nat.mod_eq_of_lt (by omega)]

/-- A distance is less than the size of the ring. -/
theorem dist_lt {n a b : ℕ} (ha : a < n) (hb : b < n) : dist n a b < n := by
  unfold dist
  split <;> omega

/-- A position is no distance from itself. -/
@[simp] theorem dist_self (n a : ℕ) : dist n a a = 0 := by simp [dist]

theorem eq_of_dist_le_zero {n a b : ℕ} (ha : a < n) (h : dist n a b ≤ 0) : b = a := by
  unfold dist at h
  split at h <;> omega

/-- The cyclic distance is the truncated difference modulo the ring size. -/
theorem dist_eq_mod {n a b : ℕ} (ha : a < n) (hb : b < n) :
    dist n a b = (b + n - a) % n := by
  unfold dist
  split
  · rw [show b + n - a = (b - a) + n by omega, Nat.add_mod_right, Nat.mod_eq_of_lt (by omega)]
  · rw [Nat.mod_eq_of_lt (by omega)]

/-- One step forward brings every position other than the start one step closer. -/
theorem dist_succ {n a b : ℕ} (ha : a < n) (hb : b < n) (hne : a ≠ b) :
    dist n (succ n a) b + 1 = dist n a b := by
  unfold dist succ
  split_ifs <;> omega

/-- One position further, unless that comes round. -/
theorem dist_succ_right {n a b : ℕ} (ha : a < n) (hne : succ n b ≠ a) :
    dist n a (succ n b) = dist n a b + 1 := by
  unfold dist succ at *
  split_ifs at * <;> omega

/-- The position before `a` is the farthest from it. -/
theorem dist_of_succ_eq {n a b : ℕ} (ha : a < n) (h : succ n b = a) :
    dist n a b = n - 1 := by
  unfold dist succ at *
  split_ifs at * <;> omega

/-- From one position, different positions are at different distances. -/
theorem dist_inj {n a b c : ℕ} (ha : a < n) (hb : b < n) (hc : c < n)
    (h : dist n a b = dist n a c) : b = c := by
  unfold dist at h
  split_ifs at h <;> omega

/-- Distances add up along a path that does not run past its end. -/
theorem dist_add {n a b c : ℕ} (ha : a < n) (hb : b < n) (hc : c < n)
    (h : dist n a b ≤ dist n a c) : dist n a c = dist n a b + dist n b c := by
  unfold dist at *
  split_ifs at * <;> omega

/-- Distances add up while the sum stays below a full turn. -/
theorem dist_add_of_lt {n a b c : ℕ} (ha : a < n) (hb : b < n)
    (h : dist n a b + dist n b c < n) : dist n a c = dist n a b + dist n b c := by
  unfold dist at *
  split_ifs at * <;> omega

/-! ## Probing -/

/-- **A probe stops.** When some position satisfies `stop`, `n` tests are enough to reach
the first one, and no position passed on the way satisfies it. -/
theorem firstStop_spec {n : ℕ} (next : ℕ → ℕ) (stop : ℕ → Bool) {i e : ℕ}
    (hnext : ∀ p < n, next p = succ n p) (hi : i < n) (he : e < n) (hstop : stop e = true) :
    ∃ j < n, firstStop next stop n i = some j ∧ stop j = true ∧
      ∀ p < n, dist n i p < dist n i j → stop p = false := by
  -- the fuel only has to exceed the distance to a stopping position
  suffices h : ∀ d fuel i, i < n → dist n i e = d → d < fuel →
      ∃ j < n, firstStop next stop fuel i = some j ∧ stop j = true ∧
        ∀ p < n, dist n i p < dist n i j → stop p = false from
    h (dist n i e) n i hi rfl (dist_lt hi he)
  intro d
  induction d with
  | zero =>
    intro fuel i hi hd hf
    have hie : i = e := (eq_of_dist_le_zero hi (Nat.le_of_eq hd)).symm
    obtain ⟨f, rfl⟩ : ∃ f, fuel = f + 1 := ⟨fuel - 1, by omega⟩
    subst hie
    exact ⟨i, hi, by simp [firstStop, hstop], hstop, fun p _ hlt => by simp at hlt⟩
  | succ d ih =>
    intro fuel i hi hd hf
    obtain ⟨f, rfl⟩ : ∃ f, fuel = f + 1 := ⟨fuel - 1, by omega⟩
    cases hsi : stop i with
    | true => exact ⟨i, hi, by simp [firstStop, hsi], hsi, fun p _ hlt => by simp at hlt⟩
    | false =>
      have hne : i ≠ e := by
        rintro rfl
        rw [hsi] at hstop
        cases hstop
      have hstep := dist_succ hi he hne
      obtain ⟨j, hj, hrun, hstopj, hbefore⟩ :=
        ih f (succ n i) (succ_lt hi) (by omega) (by omega)
      refine ⟨j, hj, by simp [firstStop, hsi, hnext i hi, hrun], hstopj, ?_⟩
      intro p hp hlt
      by_cases hpi : p = i
      · rw [hpi, hsi]
      · apply hbefore p hp
        have hij : i ≠ j := by
          rintro rfl
          simp at hlt
        have h1 := dist_succ hi hp (fun h => hpi h.symm)
        have h2 := dist_succ hi hj hij
        omega

/-! ## The probe-path invariant -/

section Table

variable {E : Type} (n : ℕ) (home : E → ℕ)

/-- Position `p` lies on the probe path of an entry with home `h` stored at `j`. -/
def OnPath (h j p : ℕ) : Prop := dist n h p < dist n h j

/-- No empty slot between an entry's home and its slot. -/
def NoHoles (tab : ℕ → Option E) : Prop :=
  ∀ j < n, ∀ e, tab j = some e → ∀ p < n, OnPath n (home e) j p → tab p ≠ none

/-- The scan of a deletion, between two iterations: `i` is the hole (its slot still holds
a stale entry) and every slot after it up to and including `j` has been scanned. -/
structure Shifting (tab : ℕ → Option E) (i j : ℕ) : Prop where
  hole_lt : i < n
  scan_lt : j < n
  path : ∀ p < n, p ≠ i → ∀ e, tab p = some e →
    ∀ r < n, r ≠ i → OnPath n (home e) p r → tab r ≠ none
  scanned : ∀ p < n, p ≠ i → dist n i p ≤ dist n i j →
    ∃ e, tab p = some e ∧ ¬ OnPath n (home e) p i

variable {n home}

/-- The comparison the deletion scan makes: a slot is on the path of an entry exactly when
the entry is at least as far from its home as from that slot. -/
theorem onPath_iff_dist_le {h i j : ℕ} (hh : h < n) (hi : i < n) (hj : j < n) (hne : j ≠ i) :
    OnPath n h j i ↔ dist n i j ≤ dist n h j := by
  unfold OnPath dist
  split_ifs <;> omega

/-- Filling an empty slot reached by probing from the entry's home keeps the invariant. -/
theorem NoHoles.fill {tab : ℕ → Option E} {i : ℕ} {e : E} (h : NoHoles n home tab)
    (hpath : ∀ p < n, OnPath n (home e) i p → tab p ≠ none) :
    NoHoles n home (Function.update tab i (some e)) := by
  intro j hj e' he' p hp hon
  by_cases hpi : p = i
  · simp [hpi]
  rw [Function.update_of_ne hpi]
  by_cases hji : j = i
  · subst hji
    rw [Function.update_self, Option.some.injEq] at he'
    subst he'
    exact hpath p hp hon
  · rw [Function.update_of_ne hji] at he'
    exact h j hj e' he' p hp hon

/-- The scan starts at the erased slot with nothing scanned. -/
theorem NoHoles.shifting {tab : ℕ → Option E} {i : ℕ} (h : NoHoles n home tab) (hi : i < n) :
    Shifting n home tab i i where
  hole_lt := hi
  scan_lt := hi
  path p hp _ e he r hr _ hon := h p hp e he r hr hon
  scanned p _ hpi hd := by
    rw [dist_self] at hd
    exact absurd (eq_of_dist_le_zero hi hd) hpi

/-- The scan meets an occupied slot whose entry does not cross the hole: it stays. -/
theorem Shifting.keep {tab : ℕ → Option E} {i j : ℕ} {e : E} (h : Shifting n home tab i j)
    (hne : succ n j ≠ i) (he : tab (succ n j) = some e)
    (hoff : ¬ OnPath n (home e) (succ n j) i) :
    Shifting n home tab i (succ n j) where
  hole_lt := h.hole_lt
  scan_lt := succ_lt h.scan_lt
  path := h.path
  scanned p hp hpi hd := by
    by_cases hpj : p = succ n j
    · exact ⟨e, hpj ▸ he, hpj ▸ hoff⟩
    · apply h.scanned p hp hpi
      have hstep := dist_succ_right h.hole_lt hne
      have hother : dist n i p ≠ dist n i (succ n j) :=
        fun heq => hpj (dist_inj h.hole_lt hp (succ_lt h.scan_lt) heq)
      omega

/-- The scan meets an entry whose probe path crosses the hole: it moves into the hole and
its old slot becomes the new hole. -/
theorem Shifting.move {tab : ℕ → Option E} {i j : ℕ} {e : E} (h : Shifting n home tab i j)
    (hne : succ n j ≠ i) (he : tab (succ n j) = some e)
    (hon : OnPath n (home e) (succ n j) i) :
    Shifting n home (Function.update tab i (some e)) (succ n j) (succ n j) where
  hole_lt := succ_lt h.scan_lt
  scan_lt := succ_lt h.scan_lt
  path p hp hpj e' he' r hr hrj honr := by
    by_cases hri : r = i
    · simp [hri]
    rw [Function.update_of_ne hri]
    by_cases hpi : p = i
    · subst hpi
      rw [Function.update_self, Option.some.injEq] at he'
      subst he'
      -- the path to the hole is the first part of the path to the old slot
      refine h.path (succ n j) (succ_lt h.scan_lt) hne e he r hr hri ?_
      unfold OnPath at *
      omega
    · rw [Function.update_of_ne hpi] at he'
      exact h.path p hp hpi e' he' r hr hri honr
  scanned p _ hpj hd := by
    rw [dist_self] at hd
    exact absurd (eq_of_dist_le_zero (succ_lt h.scan_lt) hd) hpj

/-- **The scan ends.** At an empty slot no remaining entry can cross the hole, so emptying
the hole restores the invariant. -/
theorem Shifting.noHoles {tab : ℕ → Option E} {i j : ℕ} (h : Shifting n home tab i j)
    (hhome : ∀ e, home e < n) (hend : tab (succ n j) = none) :
    NoHoles n home (Function.update tab i none) := by
  intro p hp e he r hr hon
  by_cases hpi : p = i
  · subst hpi
    simp at he
  rw [Function.update_of_ne hpi] at he
  have hcross : ¬ OnPath n (home e) p i := by
    intro hcross
    by_cases hd : dist n i p ≤ dist n i j
    · obtain ⟨e', he', hoff⟩ := h.scanned p hp hpi hd
      rw [he, Option.some.injEq] at he'
      exact hoff (he' ▸ hcross)
    · -- the path runs over the hole and past the end of the scan, an empty slot
      have hi := h.hole_lt
      have hj := h.scan_lt
      have hh := hhome e
      have hpe : p ≠ succ n j := by
        rintro rfl
        rw [he] at hend
        cases hend
      have hfar := dist_lt hi hp
      have hei : succ n j ≠ i := fun hei => by
        have := dist_of_succ_eq hi hei
        omega
      refine h.path p hp hpi e he (succ n j) (succ_lt hj) hei ?_ hend
      have hstep := dist_succ_right hi hei
      have hother : dist n i p ≠ dist n i (succ n j) :=
        fun heq => hpe (dist_inj hi hp (succ_lt hj) heq)
      have hsum := dist_add hh hi hp (Nat.le_of_lt hcross)
      have hlt := dist_lt hh hp
      have hsum' := dist_add_of_lt hh hi (c := succ n j) (by omega)
      unfold OnPath
      omega
  have hri : r ≠ i := fun hri => hcross (hri ▸ hon)
  rw [Function.update_of_ne hri]
  exact h.path p hp hpi e he r hr hri hon

end Table

end LinearProbe

end PulseForge.Foundation
