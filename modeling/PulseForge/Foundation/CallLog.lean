import Mathlib.Tactic

/-!
# Calls and answers

Threads that call functions, each one call at a time: the call that a thread is in, and the calls
that have returned, with their answers, in the order in which they returned. The log is kept from
the outside, of calls and answers alone.
-/

set_option autoImplicit false

namespace PulseForge.Foundation

variable {T C A : Type}

/-- The calls of some threads. -/
structure CallLog (T C A : Type) where
  calling : T → Option C := fun _ => none
  returned : List (T × C × A) := []

namespace CallLog

variable [DecidableEq T]

/-- A thread makes a call; in a call it makes no other. -/
def call (l : CallLog T C A) (t : T) (c : C) : CallLog T C A :=
  { l with calling := Function.update l.calling t ((l.calling t).or (some c)) }

/-- The call of a thread returns, if there is an answer. -/
def answer (l : CallLog T C A) (t : T) : Option A → CallLog T C A
  | none => l
  | some a =>
    { calling := Function.update l.calling t none
      returned := l.returned ++ ((l.calling t).map fun c => (t, c, a)).toList }

/-- The calls of one thread that have returned. -/
def history (l : CallLog T C A) (t : T) : List (C × A) :=
  (l.returned.filter fun e => e.1 = t).map Prod.snd

variable {l : CallLog T C A} {t u : T} {c c' : C} {a : A}

/-- A thread that is in no call enters the one it makes. -/
theorem calling_call_self (h : l.calling t = none) : (l.call t c).calling t = some c := by
  unfold call
  dsimp only
  rw [h, Function.update_self]
  rfl

/-- The other threads stay where they are. -/
theorem calling_call_of_ne (hne : u ≠ t) : (l.call t c).calling u = l.calling u :=
  Function.update_of_ne hne _ _

/-- A thread that is in a call stays in it. -/
theorem call_of_calling (h : l.calling t = some c') : l.call t c = l := by
  unfold call
  rw [h, Option.some_or, ← h, Function.update_eq_self]

/-- Behind its answer a thread is in no call. -/
theorem calling_answer_self : (l.answer t (some a)).calling t = none :=
  Function.update_self _ _ _

/-- An answer ends no call of another thread. -/
theorem calling_answer_of_ne (hne : u ≠ t) (o : Option A) :
    (l.answer t o).calling u = l.calling u := by
  cases o with
  | none => rfl
  | some a => exact Function.update_of_ne hne _ _

/-- What a call that returns adds to the log. -/
theorem returned_answer (h : l.calling t = some c) :
    (l.answer t (some a)).returned = l.returned ++ [(t, c, a)] := by
  unfold answer
  rw [h]
  rfl

/-- An answer puts the call behind the history of its thread. -/
theorem history_answer (h : l.calling t = some c) :
    (l.answer t (some a)).history t = l.history t ++ [(c, a)] := by
  unfold history
  rw [returned_answer h, List.filter_append, List.map_append]
  simp

/-- The other threads have made the same calls. -/
theorem history_answer_of_ne (hne : u ≠ t) (o : Option A) :
    (l.answer t o).history u = l.history u := by
  cases o with
  | none => rfl
  | some a =>
    unfold history answer
    rw [List.filter_append, List.map_append]
    cases l.calling t with
    | none => simp
    | some c => simp [Ne.symm hne]

end CallLog

end PulseForge.Foundation
