import Mathlib.Tactic

/-!
# Machines that answer

A machine takes an operation in a state and answers; `run` feeds it a list of operations
and collects the answers. Two machines that stay related and answer alike at every step
answer alike over whole runs (`run_sim`), and what one step keeps a run keeps
(`foldl_inv`). Machines without answers are left folds.
-/

set_option autoImplicit false

namespace PulseForge.Foundation

variable {S T Op Ans : Type}

/-- Feed a list of operations to a machine, collecting its answers in order. -/
def run (step : S → Op → S × Ans) : S → List Op → S × List Ans
  | s, [] => (s, [])
  | s, op :: ops =>
    let (s', a) := step s op
    let (s'', as) := run step s' ops
    (s'', a :: as)

@[simp] theorem run_nil (step : S → Op → S × Ans) (s : S) : run step s [] = (s, []) := rfl

@[simp] theorem run_cons (step : S → Op → S × Ans) (s : S) (op : Op) (ops : List Op) :
    run step s (op :: ops) =
      ((run step (step s op).1 ops).1, (step s op).2 :: (run step (step s op).1 ops).2) := rfl

/-- Some operations, then others. -/
theorem run_append (step : S → Op → S × Ans) (s : S) (ops ops' : List Op) :
    run step s (ops ++ ops') =
      ((run step (run step s ops).1 ops').1,
        (run step s ops).2 ++ (run step (run step s ops).1 ops').2) := by
  induction ops generalizing s with
  | nil => rfl
  | cons op ops ih => simp [ih]

/-- **Simulation.** Related machines that answer alike in one step do so in every run, and
end related. -/
theorem run_sim {step : S → Op → S × Ans} {step' : T → Op → T × Ans} (Rel : S → T → Prop)
    (hstep : ∀ s t op, Rel s t →
      (step s op).2 = (step' t op).2 ∧ Rel (step s op).1 (step' t op).1)
    (ops : List Op) {s : S} {t : T} (h : Rel s t) :
    (run step s ops).2 = (run step' t ops).2 ∧ Rel (run step s ops).1 (run step' t ops).1 := by
  induction ops generalizing s t with
  | nil => exact ⟨rfl, h⟩
  | cons op ops ih =>
    obtain ⟨hans, hrel⟩ := hstep s t op h
    obtain ⟨hans', hrel'⟩ := ih hrel
    exact ⟨by rw [run_cons, run_cons, hans, hans'], hrel'⟩

/-- A machine without answers keeps over a run what it keeps in one step. -/
theorem foldl_inv {step : S → Op → S} {I : S → Prop} (hstep : ∀ s op, I s → I (step s op))
    (ops : List Op) {s : S} (h : I s) : I (ops.foldl step s) := by
  induction ops generalizing s with
  | nil => exact h
  | cons op ops ih => exact ih (hstep s op h)

end PulseForge.Foundation
