import PulseForge.Analysis.SpscDelivery

/-!
# What the callers of the ring are answered

The log of a run has the calls of the two threads with their answers, in the order in which they
returned. It is a history of a bounded queue of `capacity()` messages, and the ring holds what is
in that queue.
-/

set_option autoImplicit false

namespace PulseForge

open Foundation

namespace SpscRing

variable {α : Type}

/-! ## The calls -/

/-- The call that the producer is in. -/
def Producer.call : Producer α → Option (QueueCall α)
  | .idle => none
  | .loadClosed msg | .loadTail msg | .loadHead msg _ | .writeSlot msg _ | .storeTail msg _ =>
    some (.tryPush msg)
  | .storeClosed => some .close

/-- The call that the consumer is in. -/
def Consumer.call : Consumer α → Option (QueueCall α)
  | .idle => none
  | .loadHead | .loadTail _ | .readSlot _ | .storeHead _ _ | .loadClosed | .loadHeadAgain
  | .loadTailAgain _ => some .pop

/-- What the ring holds. -/
def System.toQueue (s : System α) : BoundedQueue α :=
  ⟨s.pushed.drop s.popped.length, s.ring.closed⟩

/-- **What a step answers**: nothing, and the queue is as it was, or what a queue of `2^j` messages
answers to the call. -/
inductive Serves (j : ℕ) (s s' : System α) (c c' : Option (QueueCall α)) :
    Option (QueueAnswer α) → Prop
  | goes (hcall : c' = c) (hqueue : s'.toQueue = s.toQueue) (hpushed : s'.pushed = s.pushed)
    (hpopped : s'.popped = s.popped) : Serves j s s' c c' none
  | returns {call : QueueCall α} {a : QueueAnswer α} (hc : c = some call) (hc' : c' = none)
    (hqueue : s.toQueue.call (2 ^ j) call = some (s'.toQueue, a))
    (hpushed : s'.pushed = s.pushed ++ (QueueHistory.put (call, a)).toList)
    (hpopped : s'.popped = s.popped ++ (QueueHistory.taken (call, a)).toList) :
    Serves j s s' c c' (some a)

/-- The queue has what was pushed and not popped. -/
theorem System.toQueue_length (s : System α) :
    s.toQueue.contents.length = s.pushed.length - s.popped.length := List.length_drop

namespace System.Inv

variable {j : ℕ} {s : System α}

/-- **The producer** answers as a bounded queue does. -/
theorem producer_serves (h : s.Inv j) :
    Serves j s s.stepProducer.1 s.producer.call s.stepProducer.1.producer.call
      (s.stepProducer.2.bind Event.answer) := by
  have hk := h.producer
  have hlen := s.toQueue_length
  have hle := h.popped_le
  have hsize := h.size
  unfold System.stepProducer
  cases hpc : s.producer with
  | idle =>
    dsimp only
    rw [hpc]
    exact .goes rfl rfl rfl rfl
  | loadClosed msg =>
    dsimp only
    split
    · next hclosed =>
      refine .returns rfl rfl ?_ (List.append_nil _).symm (List.append_nil _).symm
      exact if_pos hclosed
    · exact .goes rfl rfl rfl rfl
  | loadTail msg => exact .goes rfl rfl rfl rfl
  | loadHead msg tail =>
    rw [hpc] at hk
    obtain ⟨hopen, rfl⟩ := hk
    dsimp only
    split
    · next hfull =>
      rw [h.distance] at hfull
      refine .returns rfl rfl ?_ (List.append_nil _).symm (List.append_nil _).symm
      unfold BoundedQueue.call
      dsimp only
      rw [if_neg (show ¬ s.toQueue.closed = true by simp [toQueue, hopen]), if_neg (by omega)]
      rfl
    · exact .goes rfl rfl rfl rfl
  | writeSlot msg tail => exact .goes rfl rfl rfl rfl
  | storeTail msg tail =>
    rw [hpc] at hk
    obtain ⟨hopen, rfl, hfree, -⟩ := hk
    refine .returns rfl rfl ?_ rfl (List.append_nil _).symm
    unfold BoundedQueue.call
    dsimp only
    rw [if_neg (show ¬ s.toQueue.closed = true by simp [toQueue, hopen]), if_pos (by omega)]
    unfold toQueue
    dsimp only
    rw [List.drop_append_of_le_length hle]
  | storeClosed => exact .returns rfl rfl rfl (List.append_nil _).symm (List.append_nil _).symm

/-- **The consumer** answers as a bounded queue does. -/
theorem consumer_serves [Inhabited α] (h : s.Inv j) :
    Serves j s s.stepConsumer.1 s.consumer.call s.stepConsumer.1.consumer.call
      (s.stepConsumer.2.bind Event.answer) := by
  have hk := h.consumer
  unfold System.stepConsumer
  cases hpc : s.consumer with
  | idle =>
    dsimp only
    rw [hpc]
    exact .goes rfl rfl rfl rfl
  | loadHead | readSlot head | loadHeadAgain => exact .goes rfl rfl rfl rfl
  | loadTail head | loadClosed =>
    dsimp only
    split <;> exact .goes rfl rfl rfl rfl
  | storeHead head msg =>
    rw [hpc] at hk
    obtain ⟨rfl, hmsg⟩ := hk
    refine .returns rfl rfl ?_ (List.append_nil _).symm rfl
    obtain ⟨hlt, hget⟩ := List.getElem?_eq_some_iff.mp hmsg
    unfold BoundedQueue.call toQueue
    dsimp only
    rw [List.drop_eq_getElem_cons hlt, hget, List.length_append]
    rfl
  | loadTailAgain head =>
    rw [hpc] at hk
    obtain ⟨hclosed, rfl⟩ := hk
    dsimp only
    split
    · next heq =>
      refine .returns rfl rfl ?_ (List.append_nil _).symm (List.append_nil _).symm
      rw [h.meet_iff] at heq
      unfold BoundedQueue.call toQueue
      dsimp only
      rw [List.drop_of_length_le heq.ge, hclosed]
      rfl
    · exact .goes rfl rfl rfl rfl

end System.Inv

/-- The producer does not move the consumer. -/
theorem System.stepProducer_consumer (s : System α) : s.stepProducer.1.consumer = s.consumer := by
  unfold stepProducer
  split
  all_goals try split
  all_goals rfl

/-- The consumer does not move the producer. -/
theorem System.stepConsumer_producer [Inhabited α] (s : System α) :
    s.stepConsumer.1.producer = s.producer := by
  unfold stepConsumer
  split
  all_goals try split
  all_goals rfl

/-- **The log of a run** is a history of a bounded queue, which the ring holds. -/
structure Run.Inv (j : ℕ) (r : Run α) : Prop where
  system : r.system.Inv j
  producer : r.calls.calling .producer = r.system.producer.call
  consumer : r.calls.calling .consumer = r.system.consumer.call
  pushed : QueueHistory.pushed r.history = r.system.pushed
  popped : QueueHistory.popped r.history = r.system.popped
  gives : BoundedQueue.Gives (2 ^ j) r.history r.system.toQueue

namespace Run.Inv

variable {j : ℕ} {r : Run α}

/-- The producer makes a call. -/
theorem producerCalls {pc : Producer α} {c : QueueCall α} (h : r.Inv j)
    (hidle : r.system.producer = .idle)
    (hk : pc.Knows r.system.ring r.system.pushed r.system.popped) (hpc : pc.call = some c) :
    Run.Inv j
      { system := { r.system with producer := pc }, calls := r.calls.call .producer c } := by
  have hnone : r.calls.calling .producer = none := by
    rw [h.producer, hidle]
    rfl
  refine ⟨h.system.producerAt hk, ?_, ?_, h.pushed, h.popped, h.gives⟩
  · exact (CallLog.calling_call_self hnone).trans hpc.symm
  · exact (CallLog.calling_call_of_ne (by decide)).trans h.consumer

/-- A producer that is in a call makes no other. -/
theorem producerBusy (h : r.Inv j) (hbusy : r.system.producer ≠ .idle) (c : QueueCall α) :
    r.calls.call .producer c = r.calls := by
  have hcalling := h.producer
  cases hpc : r.system.producer with
  | idle => exact absurd hpc hbusy
  | loadClosed msg | loadTail msg | loadHead msg tail | writeSlot msg tail | storeTail msg tail
  | storeClosed =>
    rw [hpc] at hcalling
    exact CallLog.call_of_calling hcalling

/-- The consumer makes a call. -/
theorem consumerCalls (h : r.Inv j) (hidle : r.system.consumer = .idle) :
    Run.Inv j
      { system := { r.system with consumer := .loadHead }, calls := r.calls.call .consumer .pop } := by
  have hnone : r.calls.calling .consumer = none := by
    rw [h.consumer, hidle]
    rfl
  refine ⟨h.system.consumerAt trivial, ?_, ?_, h.pushed, h.popped, h.gives⟩
  · exact (CallLog.calling_call_of_ne (by decide)).trans h.producer
  · exact CallLog.calling_call_self hnone

/-- A consumer that is in a call makes no other. -/
theorem consumerBusy (h : r.Inv j) (hbusy : r.system.consumer ≠ .idle) :
    r.calls.call .consumer .pop = r.calls := by
  have hcalling := h.consumer
  cases hpc : r.system.consumer with
  | idle => exact absurd hpc hbusy
  | loadHead | loadTail head | readSlot head | storeHead head msg | loadClosed | loadHeadAgain
  | loadTailAgain head =>
    rw [hpc] at hcalling
    exact CallLog.call_of_calling hcalling

/-- **An answer** goes into the log. -/
theorem answers {s' : System α} {thread : Thread} {c : Option (QueueCall α)}
    {o : Option (QueueAnswer α)} (h : r.Inv j)
    (hserves : Serves j r.system s' (r.calls.calling thread) c o) :
    let r' : Run α := { system := s', calls := r.calls.answer thread o }
    r'.calls.calling thread = c ∧
      QueueHistory.pushed r'.history = s'.pushed ∧ QueueHistory.popped r'.history = s'.popped ∧
      BoundedQueue.Gives (2 ^ j) r'.history s'.toQueue := by
  cases hserves with
  | goes hcall hqueue hpushed hpopped =>
    refine ⟨?_, h.pushed.trans hpushed.symm, h.popped.trans hpopped.symm, ?_⟩
    · exact hcall.symm
    · rw [hqueue]
      exact h.gives
  | @returns call a hc hc' hqueue hpushed hpopped =>
    have hhistory : (⟨s', r.calls.answer thread (some a)⟩ : Run α).history =
        r.history ++ [(call, a)] := by
      unfold history
      rw [CallLog.returned_answer hc, List.map_append]
      rfl
    refine ⟨CallLog.calling_answer_self.trans hc'.symm, ?_, ?_, ?_⟩
    · rw [hhistory, QueueHistory.pushed_concat, h.pushed, hpushed]
    · rw [hhistory, QueueHistory.popped_concat, h.popped, hpopped]
    · rw [hhistory]
      exact h.gives.call hqueue

/-- Every act keeps the calls logged. -/
theorem step [Inhabited α] (h : r.Inv j) (act : Act α) : (r.step act).Inv j := by
  have hsystem := h.system.step act
  unfold Run.step
  cases act with
  | push msg =>
    unfold System.step
    dsimp only
    split
    · next hidle => exact h.producerCalls hidle trivial rfl
    · next hbusy =>
      rw [h.producerBusy hbusy]
      exact h
  | close =>
    unfold System.step
    dsimp only
    split
    · next hidle => exact h.producerCalls hidle trivial rfl
    · next hbusy =>
      rw [h.producerBusy hbusy]
      exact h
  | producer =>
    have hserves := h.system.producer_serves
    rw [← h.producer] at hserves
    obtain ⟨hcalling, hpushed, hpopped, hgives⟩ := h.answers hserves
    refine ⟨hsystem, hcalling, ?_, hpushed, hpopped, hgives⟩
    refine (CallLog.calling_answer_of_ne (by decide) _).trans (h.consumer.trans ?_)
    exact congrArg Consumer.call r.system.stepProducer_consumer.symm
  | pop =>
    unfold System.step
    dsimp only
    split
    · next hidle => exact h.consumerCalls hidle
    · next hbusy =>
      rw [h.consumerBusy hbusy]
      exact h
  | consumer =>
    have hserves := h.system.consumer_serves
    rw [← h.consumer] at hserves
    obtain ⟨hcalling, hpushed, hpopped, hgives⟩ := h.answers hserves
    refine ⟨hsystem, ?_, hcalling, hpushed, hpopped, hgives⟩
    refine (CallLog.calling_answer_of_ne (by decide) _).trans (h.producer.trans ?_)
    exact congrArg Producer.call r.system.stepConsumer_producer.symm

/-- Every schedule keeps the calls logged. -/
theorem after [Inhabited α] (h : r.Inv j) (acts : List (Act α)) : (r.after acts).Inv j :=
  foldl_inv (fun _ act hr => hr.step act) acts h

end Run.Inv

/-! ## Delivery -/

namespace Run

open QueueHistory

/-- An entry of the log is an answer. -/
theorem answer_of_history [Inhabited α] {r : Run α} {act : Act α} {c : QueueCall α}
    {a : QueueAnswer α} (h : (r.step act).history = r.history ++ [(c, a)]) :
    (r.system.step act).2.bind Event.answer = some a := by
  have hanswer : ∀ thread, ((r.calls.answer thread
      ((r.system.step act).2.bind Event.answer)).returned.map Prod.snd) = r.history ++ [(c, a)] →
      (r.system.step act).2.bind Event.answer = some a := by
    intro thread h
    generalize (r.system.step act).2.bind Event.answer = o at h ⊢
    cases o with
    | none => exact absurd (congrArg List.length h) (by simp [history, CallLog.answer])
    | some a' =>
      unfold CallLog.answer history at h
      rw [List.map_append, List.append_cancel_left_eq] at h
      cases hcalling : r.calls.calling thread with
      | none =>
        rw [hcalling] at h
        exact absurd (congrArg List.length h) (by simp)
      | some c' =>
        rw [hcalling] at h
        cases h
        rfl
  cases act with
  | push msg | close | pop => exact absurd (congrArg List.length h) (by simp [history, step, CallLog.call])
  | producer => exact hanswer .producer h
  | consumer => exact hanswer .consumer h

/-- The log is on the side. -/
theorem after_system [Inhabited α] (r : Run α) (acts : List (Act α)) :
    (r.after acts).system = r.system.after acts := by
  induction acts generalizing r with
  | nil => rfl
  | cons act acts ih =>
    refine (ih (r.step act)).trans ?_
    cases act with
    | push msg | close | producer | pop | consumer => rfl

/-- **What the threads see** of the ring in a state, by the calls that returned, and of the step
`act` from it. -/
structure Delivers [Inhabited α] (r : Run α) (act : Act α) : Prop where
  queue : ∃ q, BoundedQueue.Gives r.system.ring.capacity r.history q
  fifo : popped r.history <+: pushed r.history
  bounded : (pushed r.history).length ≤ (popped r.history).length + r.system.ring.capacity
  stored : ∀ i, (popped r.history).length ≤ i → i < (pushed r.history).length →
    r.system.ring.buf[i % r.system.ring.capacity]? = (pushed r.history)[i]?
  untouched : ∀ slot, (r.system.step act).2 = some (.wrote slot) →
    ∀ i, (popped r.history).length ≤ i → i < (pushed r.history).length →
      slot ≠ i % r.system.ring.capacity
  full : ∀ msg, (r.step act).history = r.history ++ [(.tryPush msg, .full)] →
    (∃ msg tail, r.system.producer = .loadHead msg tail) ∧
      (pushed r.history).length = (popped r.history).length + r.system.ring.capacity
  drained : (r.step act).history = r.history ++ [(.pop, .closed)] →
    WasClosed r.history ∧ popped r.history = pushed r.history ∧
      ∀ acts, pushed ((r.step act).after acts).history = pushed r.history

/-- What the answers of one act say. -/
theorem Inv.delivers [Inhabited α] {j : ℕ} {r : Run α} (h : r.Inv j) (act : Act α) :
    r.Delivers act := by
  have hcap : r.system.ring.capacity = 2 ^ j := h.system.capacity_eq.trans h.system.size
  have hfifo := h.gives.fifo
  refine ⟨⟨r.system.toQueue, ?_⟩, ?_, ?_, ?_, ?_, ?_, ?_⟩
  · rw [hcap]
    exact h.gives
  · rw [hfifo.fifo]
    exact List.prefix_append _ _
  · rw [hfifo.fifo, List.length_append, hcap]
    exact Nat.add_le_add_left hfifo.room _
  · rw [h.pushed, h.popped, h.system.capacity_eq]
    intro i hle hlt
    exact h.system.window i hle hlt
  · rw [h.pushed, h.popped, h.system.capacity_eq]
    intro slot hev
    exact h.system.wrote hev
  · intro msg hlog
    have hanswer := answer_of_history hlog
    rw [h.pushed, h.popped, h.system.capacity_eq]
    obtain ⟨ev, hev, hfull⟩ := Option.bind_eq_some_iff.mp hanswer
    have hevent : (r.system.step act).2 = some .pushFull := by
      rw [hev]
      cases ev with
      | pushFull => rfl
      | wrote slot | pushOk | pushClosed | closed | popOk msg | popClosed => cases hfull
    exact h.system.pushFull hevent
  · intro hlog
    have hstep := h.step act
    have hgives := hstep.gives
    rw [hlog] at hgives
    obtain ⟨hclosed, hall⟩ := hgives.drained
    refine ⟨hclosed, hall, fun acts => ?_⟩
    have hshut : (r.step act).system.ring.closed = true := by
      apply hstep.gives.fifo.closed.mpr
      rw [hlog]
      exact List.mem_append_left _ hclosed
    rw [(hstep.after acts).pushed, after_system, hstep.system.after_of_closed hshut, ← hstep.pushed,
      hlog, pushed_concat]
    exact List.append_nil _

end Run

/-- **Exactly once, in order.** Up to a capacity of `2^63` there is a ring, and it delivers in
every state of every schedule; above, the constructor does not return. -/
theorem spsc_delivers [Inhabited α] (capacity : UInt64) :
    ((∃ r : SpscRing α, SpscRing.new capacity = some r) ↔ capacity.toNat ≤ 2 ^ 63) ∧
    ∀ ring : SpscRing α, SpscRing.new capacity = some ring → ∀ (acts : List (Act α)) (act : Act α),
      let r := ({ system := { ring } } : Run α).after acts
      capacity.toNat ≤ r.system.ring.capacity ∧ r.Delivers act := by
  refine ⟨new_isSome_iff capacity, fun ring hnew acts act => ?_⟩
  obtain ⟨j, hinv, hcap, hopen⟩ := inv_new hnew
  have hstart : Run.Inv j { system := { ring } } := by
    refine ⟨hinv, rfl, rfl, rfl, rfl, ?_⟩
    unfold System.toQueue
    dsimp only
    rw [hopen]
    exact .start
  have hafter := hstart.after acts
  refine ⟨?_, hafter.delivers act⟩
  rw [hafter.system.capacity_eq, hafter.system.size, ← hinv.size]
  exact hcap

/-- The ring of one slot that the constructor makes. -/
def oneSlot : SpscRing ℕ := { buf := [0], mask := 0 }

/-- A message, a second one that finds the ring full, `close`, and two calls of `pop` up to the last
access of the second. -/
def oneSlotActs : List (Act ℕ) :=
  [.push 7, .producer, .producer, .producer, .producer, .producer,
    .push 8, .producer, .producer, .producer, .close, .producer,
    .pop, .consumer, .consumer, .consumer, .consumer,
    .pop, .consumer, .consumer, .consumer, .consumer]

/-- The last access is about to answer `Closed`. -/
theorem spsc_delivers_one :
    (SpscRing.new 1 = some oneSlot) ∧
    (({ system := { ring := oneSlot } } : Run ℕ).after oneSlotActs).history =
      [(.tryPush 7, .ok), (.tryPush 8, .full), (.close, .done), (.pop, .got 7)] ∧
    (({ system := { ring := oneSlot } } : Run ℕ).after (oneSlotActs ++ [.consumer])).history =
      [(.tryPush 7, .ok), (.tryPush 8, .full), (.close, .done), (.pop, .got 7), (.pop, .closed)] ∧
    (({ system := { ring := oneSlot } } : Run ℕ).after oneSlotActs).Delivers .consumer := by
  have hnew : SpscRing.new 1 = some oneSlot := by decide +kernel
  exact ⟨hnew, by decide +kernel, by decide +kernel,
    ((spsc_delivers 1).2 oneSlot hnew oneSlotActs .consumer).2⟩

end SpscRing

end PulseForge
