import Mathlib.Tactic

/-!
# Bounded queues that are closed

A queue of at most `capacity` elements that can be closed: what a call answers, or that it has to
wait. A history of calls and answers that the queue gives is a FIFO: what was taken out is the front
of what was put in, and the queue holds the rest.
-/

set_option autoImplicit false

namespace PulseForge.Foundation

variable {α : Type}

inductive QueueCall (α : Type) where
  | push (a : α)
  | tryPush (a : α)
  | pop
  | close
deriving Repr, DecidableEq

inductive QueueAnswer (α : Type) where
  | ok
  | full
  | closed
  | got (a : α)
  | done
deriving Repr, DecidableEq

/-- What a queue holds, the oldest first, and whether it was closed. -/
structure BoundedQueue (α : Type) where
  contents : List α := []
  closed : Bool := false
deriving Repr, DecidableEq

/-- A history: calls with their answers. -/
abbrev QueueHistory (α : Type) := List (QueueCall α × QueueAnswer α)

namespace BoundedQueue

/-- **What a call does** and answers; `none` when it waits. -/
def call (capacity : ℕ) (q : BoundedQueue α) : QueueCall α → Option (BoundedQueue α × QueueAnswer α)
  | .push a =>
    if q.closed then some (q, .closed)
    else if q.contents.length < capacity then some ({ q with contents := q.contents ++ [a] }, .ok)
    else none
  | .tryPush a =>
    if q.closed then some (q, .closed)
    else if q.contents.length < capacity then some ({ q with contents := q.contents ++ [a] }, .ok)
    else some (q, .full)
  | .pop =>
    match q.contents with
    | a :: rest => some ({ q with contents := rest }, .got a)
    | [] => if q.closed then some (q, .closed) else none
  | .close => some ({ q with closed := true }, .done)

/-- The history takes an empty, open queue to `q`. -/
inductive Gives (capacity : ℕ) : QueueHistory α → BoundedQueue α → Prop
  | start : Gives capacity [] {}
  | call {log : QueueHistory α} {q q' : BoundedQueue α} {c : QueueCall α} {a : QueueAnswer α}
    (h : Gives capacity log q) (hcall : q.call capacity c = some (q', a)) :
    Gives capacity (log ++ [(c, a)]) q'

end BoundedQueue

namespace QueueHistory

/-- The element a call put in. -/
def put : QueueCall α × QueueAnswer α → Option α
  | (.push a, .ok) | (.tryPush a, .ok) => some a
  | _ => none

/-- The element a call took out. -/
def taken : QueueCall α × QueueAnswer α → Option α
  | (.pop, .got a) => some a
  | _ => none

/-- The elements that were put in, in order. -/
def pushed (log : QueueHistory α) : List α := log.filterMap put

/-- The elements that were taken out, in order. -/
def popped (log : QueueHistory α) : List α := log.filterMap taken

/-- The queue was closed. -/
def WasClosed (log : QueueHistory α) : Prop := (QueueCall.close, QueueAnswer.done) ∈ log

theorem pushed_concat (log : QueueHistory α) (e : QueueCall α × QueueAnswer α) :
    pushed (log ++ [e]) = pushed log ++ (put e).toList := by
  unfold pushed
  rw [List.filterMap_append]
  cases h : put e <;> simp [h]

theorem popped_concat (log : QueueHistory α) (e : QueueCall α × QueueAnswer α) :
    popped (log ++ [e]) = popped log ++ (taken e).toList := by
  unfold popped
  rw [List.filterMap_append]
  cases h : taken e <;> simp [h]

end QueueHistory

namespace BoundedQueue

open QueueHistory

variable {capacity : ℕ} {log : QueueHistory α} {q : BoundedQueue α}

/-- **A history of a bounded queue**: first in, first out, within the capacity, open until it is
closed. -/
structure Gives.Fifo (capacity : ℕ) (log : QueueHistory α) (q : BoundedQueue α) : Prop where
  fifo : pushed log = popped log ++ q.contents
  room : q.contents.length ≤ capacity
  closed : q.closed = true ↔ WasClosed log

namespace Gives.Fifo

variable {c : QueueCall α} {a : QueueAnswer α}

theorem closed_concat (ih : Gives.Fifo capacity log q) (hne : (c, a) ≠ (.close, .done)) :
    q.closed = true ↔ WasClosed (log ++ [(c, a)]) := by
  rw [ih.closed]
  unfold WasClosed
  rw [List.mem_append, List.mem_singleton, or_iff_left (Ne.symm hne)]

/-- A call that leaves the queue as it is. -/
theorem same (ih : Gives.Fifo capacity log q) (hput : put (c, a) = none)
    (htaken : taken (c, a) = none) (hne : (c, a) ≠ (.close, .done)) :
    Gives.Fifo capacity (log ++ [(c, a)]) q := by
  refine ⟨?_, ih.room, ih.closed_concat hne⟩
  rw [pushed_concat, popped_concat, hput, htaken, ih.fifo]
  simp only [Option.toList_none, List.append_nil]

/-- A call that puts an element in. -/
theorem append (ih : Gives.Fifo capacity log q) {x : α} (hput : put (c, a) = some x)
    (htaken : taken (c, a) = none) (hroom : q.contents.length < capacity) :
    Gives.Fifo capacity (log ++ [(c, a)]) { q with contents := q.contents ++ [x] } := by
  have hne : (c, a) ≠ (.close, .done) := by
    intro h
    rw [h] at hput
    exact nomatch hput
  refine ⟨?_, ?_, ih.closed_concat hne⟩
  · rw [pushed_concat, popped_concat, hput, htaken, ih.fifo]
    simp only [Option.toList_none, Option.toList_some, List.append_nil, List.append_assoc]
  · rw [List.length_append, List.length_singleton]
    exact hroom

end Gives.Fifo

/-- Every history of the queue is that of a FIFO. -/
theorem Gives.fifo (h : Gives capacity log q) : Gives.Fifo capacity log q := by
  induction h with
  | start =>
    constructor
    · rfl
    · exact Nat.zero_le capacity
    · constructor
      · intro hclosed
        exact nomatch hclosed
      · intro hclosed
        exact absurd hclosed List.not_mem_nil
  | @call log q q' c a _ hcall ih =>
    cases c with
    | push x =>
      unfold BoundedQueue.call at hcall
      split_ifs at hcall with hclosed hroom
      · cases hcall
        exact ih.same rfl rfl (by simp)
      · cases hcall
        exact ih.append rfl rfl hroom
    | tryPush x =>
      unfold BoundedQueue.call at hcall
      split_ifs at hcall with hclosed hroom
      · cases hcall
        exact ih.same rfl rfl (by simp)
      · cases hcall
        exact ih.append rfl rfl hroom
      · cases hcall
        exact ih.same rfl rfl (by simp)
    | pop =>
      unfold BoundedQueue.call at hcall
      have hfifo := ih.fifo
      have hroom := ih.room
      cases hcontents : q.contents with
      | nil =>
        rw [hcontents] at hcall
        dsimp only at hcall
        split_ifs at hcall with hclosed
        cases hcall
        exact ih.same rfl rfl (by simp)
      | cons x rest =>
        rw [hcontents] at hcall hfifo hroom
        cases hcall
        refine ⟨?_, ?_, ih.closed_concat (by simp)⟩
        · rw [pushed_concat, popped_concat, hfifo]
          simp [put, taken]
        · rw [List.length_cons] at hroom
          exact (Nat.le_succ _).trans hroom
    | close =>
      cases hcall
      refine ⟨?_, ih.room, ?_⟩
      · rw [pushed_concat, popped_concat, ih.fifo]
        simp [put, taken]
      · apply iff_of_true rfl
        exact List.mem_append_right _ List.mem_cons_self

/-- Every call of a history was made on the queue that the calls before it gave. -/
theorem Gives.split {before : QueueHistory α} {e : QueueCall α × QueueAnswer α} :
    ∀ {after : QueueHistory α} {q : BoundedQueue α}, Gives capacity (before ++ e :: after) q →
      ∃ q₀ q₁, Gives capacity before q₀ ∧ q₀.call capacity e.1 = some (q₁, e.2) := by
  intro after
  induction after using List.reverseRecOn with
  | nil =>
    intro q h
    generalize hlog : before ++ [e] = log at h
    cases h with
    | start => exact absurd hlog (by simp)
    | call h hcall =>
      obtain ⟨rfl, heq⟩ := List.append_inj' hlog rfl
      cases heq
      exact ⟨_, _, h, hcall⟩
  | append_singleton after last ih =>
    intro q h
    rw [← List.cons_append, ← List.append_assoc] at h
    generalize hlog : before ++ e :: after ++ [last] = log at h
    cases h with
    | start => exact absurd hlog (by simp)
    | call h hcall =>
      obtain ⟨rfl, -⟩ := List.append_inj' hlog rfl
      exact ih h

/-! ## What the answers say -/

section

variable {before : QueueHistory α} {c : QueueCall α} {a : QueueAnswer α}
  {after : QueueHistory α}

/-- `tryPush` answers `full` exactly when the queue is open and full. -/
theorem Gives.full_iff {x : α} (h : Gives capacity (before ++ (.tryPush x, a) :: after) q) :
    a = .full ↔ ¬ WasClosed before ∧
      (pushed before).length = (popped before).length + capacity := by
  obtain ⟨q₀, q₁, hbefore, hcall⟩ := h.split
  have hfifo := hbefore.fifo
  rw [← hfifo.closed, hfifo.fifo, List.length_append]
  have hroom := hfifo.room
  unfold BoundedQueue.call at hcall
  dsimp only at hcall
  split_ifs at hcall with hclosed hlt
  · cases hcall
    apply iff_of_false (by simp)
    exact fun hboth => hboth.1 hclosed
  · cases hcall
    apply iff_of_false (by simp)
    omega
  · cases hcall
    apply iff_of_true rfl
    exact ⟨hclosed, by omega⟩

/-- Once closed, the queue takes nothing in. -/
theorem Gives.refused (h : Gives capacity (before ++ (c, a) :: after) q)
    (hclosed : WasClosed before) : a ≠ .ok := by
  obtain ⟨q₀, q₁, hbefore, hcall⟩ := h.split
  rw [← hbefore.fifo.closed] at hclosed
  unfold BoundedQueue.call at hcall
  dsimp only at hcall
  split at hcall
  · rw [if_pos hclosed] at hcall
    cases hcall
    simp
  · rw [if_pos hclosed] at hcall
    cases hcall
    simp
  · split at hcall
    · cases hcall
      simp
    · rw [if_pos hclosed] at hcall
      cases hcall
      simp
  · cases hcall
    simp

/-- `pop` answers `closed` only when the queue is closed and everything was taken out. -/
theorem Gives.drained (h : Gives capacity (before ++ (.pop, .closed) :: after) q) :
    WasClosed before ∧ popped before = pushed before := by
  obtain ⟨q₀, q₁, hbefore, hcall⟩ := h.split
  have hfifo := hbefore.fifo
  rw [← hfifo.closed, hfifo.fifo]
  unfold BoundedQueue.call at hcall
  dsimp only at hcall
  split at hcall
  · cases hcall
  · rename_i hcontents
    split_ifs at hcall with hclosed
    rw [hcontents, List.append_nil]
    exact ⟨hclosed, rfl⟩

end

/-! ## A queue that is drained -/

/-- Closed, and nothing left. -/
structure Drained (q : BoundedQueue α) : Prop where
  closed : q.closed = true
  contents : q.contents = []

/-- **No call changes a drained queue.** -/
theorem Drained.call_eq {q' : BoundedQueue α} {c : QueueCall α} {a : QueueAnswer α} (h : q.Drained)
    (hcall : q.call capacity c = some (q', a)) : q' = q := by
  obtain ⟨contents, closed⟩ := q
  obtain ⟨rfl, rfl⟩ : closed = true ∧ contents = [] := ⟨h.closed, h.contents⟩
  cases c with
  | push x | tryPush x | pop | close =>
    cases hcall
    rfl

/-- A pop finds a queue drained when it answers `closed`. -/
theorem drained_of_pop {q' : BoundedQueue α} (hcall : q.call capacity .pop = some (q', .closed)) :
    q'.Drained := by
  unfold BoundedQueue.call at hcall
  dsimp only at hcall
  split at hcall
  · cases hcall
  · rename_i hcontents
    split_ifs at hcall with hclosed
    cases hcall
    exact ⟨hclosed, hcontents⟩

end BoundedQueue

end PulseForge.Foundation
