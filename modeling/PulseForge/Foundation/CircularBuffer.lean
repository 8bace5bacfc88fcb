import Mathlib.Tactic

/-!
# Circular buffers

The `count` elements of a buffer from the slot `head` on, going round at the end of the buffer.
Writing the slot behind them appends an element; moving the head by one drops the first.
-/

set_option autoImplicit false

namespace PulseForge.Foundation

variable {α : Type} [Inhabited α]

/-- The elements in `count` slots from `head` on. -/
def window (buf : List α) (head count : ℕ) : List α :=
  (List.range count).map fun i => buf.getD ((head + i) % buf.length) default

@[simp] theorem window_zero (buf : List α) (head : ℕ) : window buf head 0 = [] := rfl

@[simp] theorem length_window (buf : List α) (head count : ℕ) :
    (window buf head count).length = count := by
  unfold window
  rw [List.length_map, List.length_range]

/-- Two slots of a window shorter than the buffer are different. -/
theorem window_slot_ne {size i j : ℕ} (head : ℕ) (hlt : i < j) (hroom : j < size) :
    (head + j) % size ≠ (head + i) % size := by
  intro heq
  have hmod : j ≡ i [MOD size] := Nat.ModEq.add_left_cancel' head heq
  have hij : j = i := hmod.eq_of_lt_of_lt hroom (hlt.trans hroom)
  exact absurd hij (Nat.ne_of_gt hlt)

/-- **Writing the slot behind the window** appends to it. -/
theorem window_set (buf : List α) (head count : ℕ) (a : α) (hroom : count < buf.length) :
    window (buf.set ((head + count) % buf.length) a) head (count + 1) =
      window buf head count ++ [a] := by
  have hslot : (head + count) % buf.length < buf.length :=
    Nat.mod_lt _ (Nat.zero_lt_of_lt hroom)
  unfold window
  rw [List.range_succ, List.map_append, List.length_set]
  congr 1
  · apply List.map_congr_left
    intro i hi
    have hne := window_slot_ne head (List.mem_range.mp hi) hroom
    rw [List.getD_eq_getElem?_getD, List.getElem?_set_ne hne, ← List.getD_eq_getElem?_getD]
  · rw [List.map_singleton, List.getD_eq_getElem?_getD, List.getElem?_set_self hslot]
    rfl

/-- **Moving the head** drops the first element of the window. -/
theorem window_succ (buf : List α) (head count : ℕ) :
    window buf head (count + 1) =
      buf.getD (head % buf.length) default :: window buf (head + 1) count := by
  unfold window
  rw [List.range_succ_eq_map, List.map_cons, List.map_map, Nat.add_zero]
  congr 1
  apply List.map_congr_left
  intro i _
  rw [Function.comp_apply, Nat.succ_eq_add_one, Nat.add_assoc, Nat.add_comm 1 i]

/-- The head is only read modulo the size of the buffer. -/
theorem window_mod (buf : List α) (head count : ℕ) :
    window buf (head % buf.length) count = window buf head count := by
  unfold window
  apply List.map_congr_left
  intro i _
  rw [Nat.mod_add_mod]

end PulseForge.Foundation
