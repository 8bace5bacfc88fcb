import Mathlib.Tactic

/-!
# Splitting a text at a delimiter

`takeWhile` and `dropWhile` of "is not `d`" cut a list in front of the first `d`.
-/

set_option autoImplicit false

namespace PulseForge.Foundation

variable {α : Type} [DecidableEq α] {d : α}

/-- **The cut** is in front of the first delimiter. -/
theorem cut_append {front rest : List α} (h : d ∉ front) :
    ((front ++ d :: rest).takeWhile fun c => decide (c ≠ d)) = front ∧
      ((front ++ d :: rest).dropWhile fun c => decide (c ≠ d)) = d :: rest := by
  have hall : ∀ c ∈ front, decide (c ≠ d) = true := by
    intro c hc
    refine decide_eq_true ?_
    rintro rfl
    exact h hc
  rw [List.takeWhile_append_of_pos hall, List.dropWhile_append_of_pos hall]
  simp

/-- A text has one cut. -/
theorem cut_inj {front front' rest rest' : List α} (h : d ∉ front) (h' : d ∉ front')
    (heq : front ++ d :: rest = front' ++ d :: rest') : front = front' ∧ rest = rest' := by
  have hfront : front = front' := by
    rw [← (@cut_append _ _ d front rest h).1, heq, (cut_append h').1]
  subst hfront
  exact ⟨rfl, (List.cons.inj (List.append_cancel_left heq)).2⟩

/-- What is behind a cut starts with the delimiter. -/
theorem of_dropWhile_eq_cons {l rest : List α} {c : α}
    (h : (l.dropWhile fun c => decide (c ≠ d)) = c :: rest) :
    c = d ∧ d ∉ (l.takeWhile fun c => decide (c ≠ d)) ∧
      l = (l.takeWhile fun c => decide (c ≠ d)) ++ d :: rest := by
  have hhead := List.head?_dropWhile_not (fun c => decide (c ≠ d)) l
  rw [h] at hhead
  have hc : c = d := by simpa using hhead
  refine ⟨hc, fun hmem => ?_, ?_⟩
  · have htrue := List.all_eq_true.mp List.all_takeWhile d hmem
    exact of_decide_eq_true htrue rfl
  · subst hc
    rw [← h]
    exact List.takeWhile_append_dropWhile.symm

end PulseForge.Foundation
