import PulseForge.Analysis.OrderBookRefinement

/-!
# What a call does to the levels of a book

One list for all calls: an order joins a level at the back, an order is dropped or loses shares,
every level is emptied, or nothing changes. What is known of the levels of every reachable book
follows from it by one case each (`run_levels`).
-/

set_option autoImplicit false

namespace PulseForge.OrderBook

open Foundation

variable {b b' : OrderBook}

/-- **What a call does** to the levels, with its answer. -/
inductive CallMoves (b : OrderBook) : BookOp → OrderBook × BookAnswer → Prop
  | pushes {b' : OrderBook} {id qty owner userRef i : ℕ} {side : Side} {price : ℤ}
    (hnew : b.find id = none)
    (hfifo : b'.fifo = pushFifo b.fifo side i ⟨id, price, qty, owner, userRef, side⟩) :
    CallMoves b (.add id side price qty owner userRef) (b', .added .ok)
  | keeps {op : BookOp} {b' : OrderBook} {answer : BookAnswer} (hans : answer ≠ .added .ok)
    (hfifo : ∀ s i, b'.fifo s i = b.fifo s i) : CallMoves b op (b', answer)
  | drops {op : BookOp} {b' : OrderBook} {answer : BookAnswer} (hans : answer ≠ .added .ok) (id : ℕ)
    (hfifo : ∀ s i, b'.fifo s i = dropId id (b.fifo s i)) : CallMoves b op (b', answer)
  | reduces {op : BookOp} {b' : OrderBook} {answer : BookAnswer} (hans : answer ≠ .added .ok)
    (id by' : ℕ) (hfifo : ∀ s i, b'.fifo s i = reduceId id by' (b.fifo s i)) :
    CallMoves b op (b', answer)
  | clears {op : BookOp} {b' : OrderBook} {answer : BookAnswer} (hans : answer ≠ .added .ok)
    (hfifo : ∀ s i, b'.fifo s i = []) : CallMoves b op (b', answer)

/-- A call that only looks. -/
theorem CallMoves.look {op : BookOp} {answer : BookAnswer} (hans : answer ≠ .added .ok) :
    CallMoves b op (b, answer) :=
  .keeps hans fun _ _ => rfl

/-- What `add` does, and when it refuses. -/
theorem add_moves (h : WF b) (id : ℕ) (side : Side) (price : ℤ) (qty owner userRef : ℕ) :
    CallMoves b (.add id side price qty owner userRef)
      (b.call (.add id side price qty owner userRef)) := by
  change CallMoves b _
    ((b.add id side price qty owner userRef).1, .added (b.add id side price qty owner userRef).2)
  by_cases hok : b.addAnswer id price qty = .ok
  · have hnew : b.find id = none := by
      by_contra hfound
      unfold addAnswer at hok
      split_ifs at hok with _ _ _ hdup
      exact hdup (.inr hfound)
    obtain ⟨b', i, hadd, -, -, -, -, hfifo⟩ := add_of_ok h side owner userRef hok
    rw [hadd]
    exact .pushes hnew hfifo
  · rw [add_of_refused h hok]
    exact .look fun hans => hok (BookAnswer.added.inj hans)

/-- Taking shares off an order, whichever call does it. -/
theorem reduce_moves (h : WF b) (op : BookOp) (id by' : ℕ) {answer : BookAnswer}
    (hans : answer ≠ .added .ok) : CallMoves b op ((b.reduce id by').1, answer) := by
  cases hf : b.find id with
  | none =>
    rw [reduce_of_unknown by' hf]
    exact .look hans
  | some o =>
    rcases Nat.lt_trichotomy o.qty by' with hlt | heq | hgt
    · rw [reduce_of_lt hf hlt]
      exact .look hans
    · obtain ⟨b', hred, -, -, hfifo⟩ := reduce_of_eq h hf heq.symm
      rw [hred]
      exact .drops hans id hfifo
    · obtain ⟨b', hred, -, -, hfifo⟩ := reduce_of_gt h hf hgt
      rw [hred]
      exact .reduces hans id by' hfifo

/-- What `remove` does, and when it finds nothing. -/
theorem remove_moves (h : WF b) (id : ℕ) : CallMoves b (.remove id) (b.call (.remove id)) := by
  change CallMoves b _ ((b.remove id).1, .done (b.remove id).2)
  cases hf : b.find id with
  | none =>
    rw [remove_of_unknown hf]
    exact .look BookAnswer.noConfusion
  | some o =>
    obtain ⟨b', hrem, -, -, hfifo⟩ := remove_of_found h hf
    rw [hrem]
    exact .drops BookAnswer.noConfusion id hfifo

/-- **Every call** makes one of the moves. -/
theorem call_moves (h : WF b) (op : BookOp) : CallMoves b op (b.call op) := by
  cases op with
  | add id side price qty owner userRef => exact add_moves h id side price qty owner userRef
  | reduce id by' => exact reduce_moves h _ id by' BookAnswer.noConfusion
  | remove id => exact remove_moves h id
  | reduceFront side by' =>
    unfold OrderBook.call
    dsimp only
    split
    · exact .look BookAnswer.noConfusion
    · rename_i o hfront
      split_ifs with hle
      · rw [(reduceFront_eq_reduce h hfront hle).1]
        exact reduce_moves h _ o.id by' BookAnswer.noConfusion
      · exact .look BookAnswer.noConfusion
  | clear => exact .clears BookAnswer.noConfusion (clear_wf h).2.2
  | bestPrice side =>
    unfold OrderBook.call
    dsimp only
    split_ifs
    · exact .look BookAnswer.noConfusion
    · exact .look BookAnswer.noConfusion
  | find | front | empty | bestQty | bestCount | levelAt | forEachLevel | forEachOrder
  | orderCount => exact .look BookAnswer.noConfusion

/-- **A fact of the levels** that holds of empty ones and that every move of an allowed call keeps
holds of every reachable book. -/
theorem run_levels {cfg : BookConfig} (hnew : OrderBook.new cfg = .ok b)
    {P : List (BookOp × BookAnswer) → OrderBook → Prop} {allowed : BookOp → Prop}
    (hempty : ∀ b : OrderBook, (∀ s i, b.fifo s i = []) → P [] b)
    (hstep : ∀ log b op b' answer, WF b → P log b → allowed op → CallMoves b op (b', answer) →
      P (log ++ [(op, answer)]) b')
    (ops : List BookOp) (hops : ∀ op ∈ ops, allowed op) :
    P (ops.zip (run OrderBook.call b ops).2) (run OrderBook.call b ops).1 := by
  have hrun : ∀ (ops : List BookOp) {log : List (BookOp × BookAnswer)} {b : OrderBook}
      {r : RefBook}, Refines b r → P log b → (∀ op ∈ ops, allowed op) →
      P (log ++ ops.zip (run OrderBook.call b ops).2) (run OrderBook.call b ops).1 := by
    intro ops
    induction ops with
    | nil =>
      intro log b r _ h _
      rw [run_nil, List.zip_nil_left, List.append_nil]
      exact h
    | cons op ops ih =>
      intro log b r href h hops
      rw [run_cons, List.zip_cons_cons, List.append_cons]
      refine ih (href.call_step op).2 ?_ fun op' hop' => hops op' (List.mem_cons_of_mem _ hop')
      exact hstep log b op _ _ href.wf h (hops op List.mem_cons_self) (call_moves href.wf op)
  exact hrun ops (refines_new hnew) (hempty b (new_wf hnew).2.2) hops

end PulseForge.OrderBook
