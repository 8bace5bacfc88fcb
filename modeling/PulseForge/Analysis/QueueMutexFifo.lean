import PulseForge.Foundation.CircularBuffer
import PulseForge.Model.QueueMutex

/-!
# The queue behind a mutex is a bounded FIFO

`head`, `tail` and `count` are three views of one window of the buffer. Each critical section does
to that window what the same call does to a bounded queue, or waits with it; so the calls that
return, in the order of their critical sections, are a history of a bounded queue.
-/

set_option autoImplicit false

namespace PulseForge

namespace QueueMutex

open Foundation QueueHistory

variable {α : Type} [Inhabited α]

/-- The bounded queue that the buffer holds. -/
def toQueue (q : QueueMutex α) : BoundedQueue α where
  contents := window q.buf q.head.toNat q.count.toNat
  closed := q.closed

/-- **The three views agree.** -/
structure Wf (q : QueueMutex α) : Prop where
  pos : 0 < q.capacity.toNat
  length : q.buf.length = q.capacity.toNat
  head : q.head.toNat < q.capacity.toNat
  tail : q.tail.toNat = (q.head.toNat + q.count.toNat) % q.capacity.toNat
  count : q.count.toNat ≤ q.capacity.toNat

/-- A new queue is empty. -/
theorem new_wf {capacity : UInt64} (hcap : 1 ≤ capacity) : (new (α := α) capacity).Wf where
  pos := UInt64.le_iff_toNat_le.mp hcap
  length := List.length_replicate
  head := UInt64.le_iff_toNat_le.mp hcap
  tail := (Nat.zero_mod _).symm
  count := Nat.zero_le _

/-- An index below the capacity moves on without overflow. -/
theorem toNat_advance {index capacity : UInt64} (h : index.toNat < capacity.toNat) :
    ((index + 1) % capacity).toNat = (index.toNat + 1) % capacity.toNat := by
  have hcap := capacity.toNat_lt
  have hno : index.toNat + 1 < 2 ^ 64 := by omega
  rw [UInt64.toNat_mod, UInt64.toNat_add, UInt64.toNat_one, Nat.mod_eq_of_lt hno]

variable {q : QueueMutex α}

/-- **Storing a message** appends it. -/
theorem Wf.store (h : q.Wf) (hroom : q.count.toNat < q.capacity.toNat) (msg : α) :
    (q.store msg).Wf ∧
      (q.store msg).toQueue = { q.toQueue with contents := q.toQueue.contents ++ [msg] } := by
  have hcap := q.capacity.toNat_lt
  have htail : q.tail.toNat < q.capacity.toNat := by
    rw [h.tail]
    exact Nat.mod_lt _ h.pos
  have hcount : (q.count + 1).toNat = q.count.toNat + 1 := by
    rw [UInt64.toNat_add, UInt64.toNat_one, Nat.mod_eq_of_lt (by omega)]
  constructor
  · constructor
    · exact h.pos
    · exact List.length_set.trans h.length
    · exact h.head
    · change ((q.tail + 1) % q.capacity).toNat = (q.head.toNat + (q.count + 1).toNat) % _
      rw [toNat_advance htail, hcount, h.tail, Nat.mod_add_mod, Nat.add_assoc]
      rfl
    · exact hcount.trans_le hroom
  · unfold toQueue QueueMutex.store
    dsimp only
    rw [hcount, h.tail, ← h.length, window_set _ _ _ _ (hroom.trans_eq h.length.symm)]

/-- **Taking a message out** drops the first. -/
theorem Wf.take (h : q.Wf) (hsome : 0 < q.count.toNat) :
    let taken := { q with head := (q.head + 1) % q.capacity, count := q.count - 1 }
    taken.Wf ∧ q.toQueue.contents =
      q.buf.getD q.head.toNat default :: taken.toQueue.contents := by
  have hcount : (q.count - 1).toNat = q.count.toNat - 1 := by
    apply UInt64.toNat_sub_of_le
    exact UInt64.le_iff_toNat_le.mpr hsome
  have hhead := toNat_advance h.head
  constructor
  · constructor
    · exact h.pos
    · exact h.length
    · change ((q.head + 1) % q.capacity).toNat < _
      rw [hhead]
      exact Nat.mod_lt _ h.pos
    · change q.tail.toNat = (((q.head + 1) % q.capacity).toNat + (q.count - 1).toNat) % _
      rw [hhead, hcount, h.tail, Nat.mod_add_mod]
      congr 1
      omega
    · change (q.count - 1).toNat ≤ _
      rw [hcount]
      exact (Nat.sub_le _ _).trans h.count
  · unfold toQueue
    dsimp only
    obtain ⟨rest, hrest⟩ := Nat.exists_eq_succ_of_ne_zero (Nat.pos_iff_ne_zero.mp hsome)
    rw [hhead, hcount, hrest, Nat.succ_sub_one, window_succ, h.length,
      Nat.mod_eq_of_lt h.head, ← h.length, window_mod]

/-! ## Each call is that of a bounded queue -/

/-- The queue has `count` messages. -/
theorem toQueue_length : q.toQueue.contents.length = q.count.toNat :=
  length_window _ _ _

/-- A call that returns `answer` and leaves `q'`, as a call of the bounded queue. -/
structure Serves (q : QueueMutex α) (c : QueueCall α) (q' : QueueMutex α)
    (answer : QueueAnswer α) : Prop where
  wf : q'.Wf
  capacity : q'.capacity = q.capacity
  call : q.toQueue.call q.capacity.toNat c = some (q'.toQueue, answer)

/-- A push that does not wait is that of a bounded queue. -/
theorem Wf.push (h : q.Wf) {q' : QueueMutex α} {msg : α} {status : Status}
    (hpush : q.push msg = some (q', status)) : q.Serves (.push msg) q' status.answer := by
  unfold QueueMutex.push at hpush
  split_ifs at hpush with hgo hclosed
  · cases hpush
    exact ⟨h, rfl, if_pos hclosed⟩
  · cases hpush
    have hroom : q.count.toNat < q.capacity.toNat := by
      simpa [hclosed, UInt64.lt_iff_toNat_lt] using hgo
    obtain ⟨hwf, hstore⟩ := h.store hroom msg
    refine ⟨hwf, rfl, (if_neg hclosed).trans ?_⟩
    rw [if_pos (toQueue_length.trans_lt hroom), hstore]
    rfl

/-- `try_push` is that of a bounded queue. -/
theorem Wf.tryPush (h : q.Wf) (msg : α) :
    q.Serves (.tryPush msg) (q.tryPush msg).1 (q.tryPush msg).2.answer := by
  have hle := h.count
  unfold QueueMutex.tryPush
  split_ifs with hclosed hfull
  · exact ⟨h, rfl, if_pos hclosed⟩
  · refine ⟨h, rfl, (if_neg hclosed).trans (if_neg ?_)⟩
    rw [toQueue_length, hfull]
    exact Nat.lt_irrefl _
  · have hroom : q.count.toNat < q.capacity.toNat := by
      apply Nat.lt_of_le_of_ne hle
      exact fun heq => hfull (UInt64.toNat_inj.mp heq)
    obtain ⟨hwf, hstore⟩ := h.store hroom msg
    refine ⟨hwf, rfl, (if_neg hclosed).trans ?_⟩
    rw [if_pos (toQueue_length.trans_lt hroom), hstore]
    rfl

/-- `pop` leaves a message exactly when it answers `Ok`. -/
theorem Wf.pop (h : q.Wf) {q' : QueueMutex α} {status : Status} {msg : Option α}
    (hpop : q.pop = some (q', status, msg)) :
    (∃ m, status = .ok ∧ msg = some m ∧ q.Serves .pop q' (.got m)) ∨
      (status = .closed ∧ msg = none ∧ q.Serves .pop q' .closed) := by
  unfold QueueMutex.pop at hpop
  split_ifs at hpop with hgo hempty
  · cases hpop
    rw [Bool.and_eq_true, decide_eq_true_eq] at hempty
    obtain ⟨hzero, hclosed⟩ := hempty
    have hnil : q.toQueue.contents = [] := by
      apply List.eq_nil_of_length_eq_zero
      rw [toQueue_length, hzero]
      rfl
    refine .inr ⟨rfl, rfl, h, rfl, ?_⟩
    unfold BoundedQueue.call
    dsimp only
    rw [hnil]
    exact if_pos hclosed
  · cases hpop
    have hsome : 0 < q.count.toNat := by
      apply Nat.pos_of_ne_zero
      intro hzero
      have hzero : q.count = 0 := UInt64.toNat_inj.mp hzero
      simp [hzero] at hgo hempty
      exact absurd hgo (by simp [hempty])
    obtain ⟨hwf, hcontents⟩ := h.take hsome
    refine .inl ⟨_, rfl, rfl, hwf, rfl, ?_⟩
    unfold BoundedQueue.call
    dsimp only
    rw [hcontents]
    rfl

/-- **A critical section** is a call of the bounded queue. -/
theorem critical_serves (h : q.Wf) {c : QueueCall α} {q' : QueueMutex α} {answer : QueueAnswer α}
    (hcritical : q.critical c = some (q', answer)) : q.Serves c q' answer := by
  cases c with
  | push msg =>
    obtain ⟨⟨q₁, status⟩, hpush, heq⟩ := Option.map_eq_some_iff.mp hcritical
    cases heq
    exact h.push hpush
  | tryPush msg =>
    cases hcritical
    exact h.tryPush msg
  | pop =>
    obtain ⟨⟨q₁, status, written⟩, hpop, heq⟩ := Option.map_eq_some_iff.mp hcritical
    rcases h.pop hpop with ⟨m, rfl, rfl, hserves⟩ | ⟨rfl, rfl, hserves⟩
    · cases heq
      exact hserves
    · cases heq
      exact hserves
  | close =>
    cases hcritical
    exact ⟨⟨h.pos, h.length, h.head, h.tail, h.count⟩, rfl, rfl⟩

/-! ## Every schedule -/

namespace System

/-- The calls that returned are a history of a bounded queue, which the buffer holds now. -/
structure Inv (capacity : UInt64) (s : System α) : Prop where
  wf : s.queue.Wf
  size : s.queue.capacity = capacity
  gives : BoundedQueue.Gives capacity.toNat s.history s.queue.toQueue

variable {capacity : UInt64} {s : System α}

/-- A new queue has no history. -/
theorem new_inv (hcap : 1 ≤ capacity) : (new (α := α) capacity).Inv capacity where
  wf := new_wf hcap
  size := rfl
  gives := .start

/-- A call that returns is the next one of the history. -/
theorem Inv.enter (h : s.Inv capacity) (thread : ℕ) (c : QueueCall α) :
    (s.enter thread c).Inv capacity := by
  unfold System.enter
  split
  · rename_i queue answer hcritical
    have hserves := critical_serves h.wf hcritical
    constructor
    · exact hserves.wf
    · exact hserves.capacity.trans h.size
    · have hcall := hserves.call
      rw [h.size] at hcall
      unfold history
      rw [List.map_append]
      exact h.gives.call hcall
  · exact ⟨h.wf, h.size, h.gives⟩

/-- **Any step** of any thread. -/
theorem Inv.step (h : s.Inv capacity) (act : Act α) : (s.step act).Inv capacity := by
  cases act with
  | call thread c =>
    unfold System.step
    dsimp only
    split_ifs
    · exact h.enter thread c
    · exact h
  | wake thread =>
    unfold System.step
    dsimp only
    split
    · exact h.enter thread _
    · exact h

/-- Every schedule is a history of a bounded queue. -/
theorem Inv.run (h : s.Inv capacity) (acts : List (Act α)) : (s.run acts).Inv capacity := by
  induction acts generalizing s with
  | nil => exact h
  | cons act acts ih => exact ih (h.step act)

/-! ## The queue -/

/-- **A bounded FIFO that drains when closed**: for every capacity and every order of the critical
sections. -/
theorem fifo_drains (capacity : UInt64) (hcap : 1 ≤ capacity) (acts : List (Act α)) :
    let s := (new (α := α) capacity).run acts
    popped s.history <+: pushed s.history ∧
      (pushed s.history).length = (popped s.history).length + s.queue.depth.toNat ∧
      s.queue.depth ≤ capacity ∧
      ∀ before thread call answer after, s.log = before ++ (thread, call, answer) :: after →
        let earlier : QueueHistory α := before.map Prod.snd
        (∀ msg, call = .tryPush msg → (answer = .full ↔
          ¬ WasClosed earlier ∧
            (pushed earlier).length = (popped earlier).length + capacity.toNat)) ∧
        (WasClosed earlier → answer ≠ .ok) ∧
        (call = .pop → answer = .closed →
          WasClosed earlier ∧ popped earlier = pushed earlier) := by
  intro s
  have hinv : s.Inv capacity := (new_inv hcap).run acts
  have hfifo := hinv.gives.fifo
  refine ⟨?_, ?_, ?_, ?_⟩
  · rw [hfifo.fifo]
    exact List.prefix_append _ _
  · rw [hfifo.fifo, List.length_append, toQueue_length]
    rfl
  · apply UInt64.le_iff_toNat_le.mpr
    exact (toQueue_length (q := s.queue)).symm.trans_le hfifo.room
  · intro before thread call answer after hlog earlier
    have hgives := hinv.gives
    unfold history at hgives
    rw [hlog, List.map_append, List.map_cons] at hgives
    refine ⟨?_, hgives.refused, ?_⟩
    · rintro msg rfl
      exact hgives.full_iff
    · rintro rfl rfl
      exact hgives.drained

/-- One slot; the second `try_push` finds it taken, the third call waits until the queue is closed,
and the consumer drains. -/
theorem fifo_drains_one :
    let s := (new (α := ℕ) 1).run [.call 0 (.push 7), .call 1 (.tryPush 8), .call 1 (.push 8),
      .call 2 .close, .wake 1, .call 3 .pop, .call 4 .pop]
    (s.history = [(.push 7, .ok), (.tryPush 8, .full), (.close, .done), (.push 8, .closed),
      (.pop, .got 7), (.pop, .closed)]) ∧ popped s.history <+: pushed s.history :=
  ⟨by decide, (fifo_drains 1 (by decide) _).1⟩

end System

end QueueMutex

end PulseForge
