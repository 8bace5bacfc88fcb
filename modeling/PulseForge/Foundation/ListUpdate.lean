import Mathlib.Data.List.Perm.Basic
import Mathlib.Data.List.Sort
import Mathlib.Tactic

/-!
# Arrays as lists

Reads with a default and in-place writes, the way a program uses an array it knows the
bounds of, the insertion of an element behind everything that is not strictly behind it, and
the removal of an element by the last one.
-/

set_option autoImplicit false

namespace PulseForge.Foundation

variable {α : Type}

/-- The element that was modified, and the others. -/
theorem getD_modify (l : List α) (i : ℕ) (f : α → α) (j : ℕ) (d : α) :
    (l.modify i f).getD j d = if i = j ∧ j < l.length then f (l.getD j d) else l.getD j d := by
  rw [List.getD_eq_getElem?_getD, List.getD_eq_getElem?_getD, List.getElem?_modify]
  by_cases hj : j < l.length
  · by_cases hij : i = j <;> simp [hij, hj]
  · simp [hj]

/-- Copies of the default are the default everywhere. -/
theorem getD_replicate (n : ℕ) (a : α) (i : ℕ) : (List.replicate n a).getD i a = a := by
  rw [List.getD_eq_getElem?_getD, List.getElem?_replicate]
  split <;> rfl

/-- `orderedInsert` puts an element behind a block it does not precede and in front of a
block it precedes. -/
theorem orderedInsert_append {r : α → α → Prop} [DecidableRel r] {a : α} {l₁ l₂ : List α}
    (h₁ : ∀ x ∈ l₁, ¬ r a x) (h₂ : ∀ x ∈ l₂, r a x) :
    (l₁ ++ l₂).orderedInsert r a = l₁ ++ a :: l₂ := by
  induction l₁ with
  | nil =>
    cases l₂ with
    | nil => rfl
    | cons b l₂ => simp [h₂ b (by simp)]
  | cons b l₁ ih =>
    rw [List.cons_append, List.orderedInsert_cons, if_neg (h₁ b (by simp)),
      ih (fun x hx => h₁ x (List.mem_cons_of_mem b hx)), List.cons_append]

/-- Looking an element up by a key that no two elements share. -/
theorem find?_key_eq_some_iff {κ : Type} [DecidableEq κ] {key : α → κ} {l : List α}
    (hnd : (l.map key).Nodup) {k : κ} {a : α} :
    l.find? (fun x => key x = k) = some a ↔ a ∈ l ∧ key a = k := by
  constructor
  · intro hf
    exact ⟨List.mem_of_find?_eq_some hf, by simpa using List.find?_some hf⟩
  · rintro ⟨ha, rfl⟩
    induction l with
    | nil => exact absurd ha (by simp)
    | cons b l ih =>
      rw [List.map_cons, List.nodup_cons] at hnd
      rcases List.mem_cons.mp ha with rfl | ha
      · exact List.find?_cons_of_pos (by simp)
      · have hne : key b ≠ key a := fun hc => hnd.1 (hc ▸ List.mem_map_of_mem ha)
        rw [List.find?_cons_of_neg (by simpa using hne), ih hnd.2 ha]

/-- **Swap and pop**: the last element takes the place of element `i`, and `i` is all that goes. -/
theorem perm_swap_pop {l : List α} {i : ℕ} {a : α} (h : l[i]? = some a) :
    l.Perm (a :: (l.set i (l.getLastD a)).dropLast) := by
  rcases List.eq_nil_or_concat l with rfl | ⟨l, x, rfl⟩
  · exact nomatch h
  · rw [List.concat_eq_append] at h ⊢
    have hlast : (l ++ [x]).getLastD a = x := by simp
    rw [hlast]
    rcases Nat.lt_or_ge i l.length with hlt | hge
    · rw [List.getElem?_append_left hlt, List.getElem?_eq_getElem hlt, Option.some.injEq] at h
      rw [List.set_append_left _ _ hlt, List.dropLast_concat]
      calc
        (l ++ [x]).Perm (x :: l) := List.perm_append_singleton x l
        List.Perm _ (x :: a :: l.eraseIdx i) := by
          rw [← h]
          exact (List.getElem_cons_eraseIdx_perm hlt).symm.cons x
        List.Perm _ (a :: x :: l.eraseIdx i) := List.Perm.swap a x _
        List.Perm _ (a :: l.set i x) := (List.set_perm_cons_eraseIdx hlt x).symm.cons a
    · obtain ⟨hi, -⟩ := List.getElem?_eq_some_iff.mp h
      rw [List.length_append, List.length_singleton] at hi
      obtain rfl : i = l.length := by omega
      rw [List.getElem?_concat_length, Option.some.injEq] at h
      rw [List.set_append_right _ _ le_rfl, Nat.sub_self, h, List.set_cons_zero, List.dropLast_concat]
      exact List.perm_append_singleton a l

end PulseForge.Foundation
