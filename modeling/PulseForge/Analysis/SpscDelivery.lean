import PulseForge.Foundation.Machine
import PulseForge.Foundation.RingWindow
import PulseForge.Analysis.RingCapacity

/-!
# The ring delivers once and in order

The cursors count the messages pushed and popped, and the messages between them stand in the
buffer. Each thread holds a copy of the other's cursor that may be old; it is old on the safe
side, since the consumer only makes room and the producer only adds messages.
-/

set_option autoImplicit false

namespace PulseForge

open Foundation

namespace SpscRing

variable {α : Type}

/-! ## The invariant -/

/-- What the producer knows where it is. -/
def Producer.Knows (r : SpscRing α) (pushed popped : List α) : Producer α → Prop
  | .idle | .loadClosed _ | .storeClosed => True
  | .loadTail _ => r.closed = false
  | .loadHead _ tail => r.closed = false ∧ tail = r.tail
  | .writeSlot _ tail =>
    r.closed = false ∧ tail = r.tail ∧ pushed.length < popped.length + r.buf.length
  | .storeTail msg tail =>
    r.closed = false ∧ tail = r.tail ∧ pushed.length < popped.length + r.buf.length ∧
      r.buf[pushed.length % r.buf.length]? = some msg

/-- What the consumer knows where it is. -/
def Consumer.Knows (r : SpscRing α) (pushed popped : List α) : Consumer α → Prop
  | .idle | .loadHead | .loadClosed => True
  | .loadTail head => head = r.head
  | .readSlot head => head = r.head ∧ popped.length < pushed.length
  | .storeHead head msg => head = r.head ∧ pushed[popped.length]? = some msg
  | .loadHeadAgain => r.closed = true
  | .loadTailAgain head => r.closed = true ∧ head = r.head

/-- **The invariant** of a ring of `2^j` slots. -/
structure System.Inv (j : ℕ) (s : System α) : Prop where
  bits : j ≤ 63
  size : s.ring.buf.length = 2 ^ j
  mask : s.ring.mask = UInt64.ofNat (2 ^ j - 1)
  head : s.ring.head = UInt64.ofNat s.popped.length
  tail : s.ring.tail = UInt64.ofNat s.pushed.length
  fifo : s.popped <+: s.pushed
  room : s.pushed.length ≤ s.popped.length + s.ring.buf.length
  window : Window s.ring.buf s.pushed s.popped.length s.pushed.length
  producer : s.producer.Knows s.ring s.pushed s.popped
  consumer : s.consumer.Knows s.ring s.pushed s.popped

namespace System.Inv

variable {j : ℕ} {s : System α}

/-- No more is popped than was pushed. -/
theorem popped_le (h : s.Inv j) : s.popped.length ≤ s.pushed.length := h.fifo.length_le

/-- The messages in the ring are fewer than a round of the cursors. -/
theorem outstanding_lt (h : s.Inv j) : s.pushed.length - s.popped.length < 2 ^ 64 := by
  have hroom := h.room
  have hpow : 2 ^ j ≤ 2 ^ 63 := Nat.pow_le_pow_right (by decide) h.bits
  rw [h.size] at hroom
  omega

/-- The capacity is the size of the buffer. -/
theorem capacity_eq (h : s.Inv j) : s.ring.capacity = s.ring.buf.length := by
  have hpow : 2 ^ j ≤ 2 ^ 63 := Nat.pow_le_pow_right (by decide) h.bits
  have hpos : 0 < 2 ^ j := Nat.two_pow_pos j
  rw [capacity, h.mask, cursor_succ, h.size, UInt64.toNat_ofNat']
  omega

/-- The distance of the cursors is the number of messages in the ring. -/
theorem distance (h : s.Inv j) :
    (s.ring.tail - s.ring.head).toNat = s.pushed.length - s.popped.length := by
  rw [h.head, h.tail]
  exact toNat_cursor_sub h.popped_le h.outstanding_lt

/-- The cursors meet exactly when the ring is empty. -/
theorem meet_iff (h : s.Inv j) : s.ring.head = s.ring.tail ↔ s.popped.length = s.pushed.length := by
  rw [h.head, h.tail]
  exact cursor_eq_iff h.popped_le h.outstanding_lt

/-- The slot that is written next. -/
theorem tail_slot (h : s.Inv j) :
    (s.ring.tail &&& s.ring.mask).toNat = s.pushed.length % s.ring.buf.length := by
  rw [h.tail, h.mask, h.size]
  exact toNat_cursor_and h.bits _

/-- The slot that is read next. -/
theorem head_slot (h : s.Inv j) :
    (s.ring.head &&& s.ring.mask).toNat = s.popped.length % s.ring.buf.length := by
  rw [h.head, h.mask, h.size]
  exact toNat_cursor_and h.bits _

/-! ## The steps -/

/-- The producer goes on to a place and knows what it must there. -/
theorem producerAt {pc : Producer α} (h : s.Inv j) (hk : pc.Knows s.ring s.pushed s.popped) :
    ({ s with producer := pc } : System α).Inv j :=
  ⟨h.bits, h.size, h.mask, h.head, h.tail, h.fifo, h.room, h.window, hk, h.consumer⟩

/-- A consumer that knows what it read keeps the invariant. -/
theorem consumerAt {pc : Consumer α} (h : s.Inv j) (hk : pc.Knows s.ring s.pushed s.popped) :
    ({ s with consumer := pc } : System α).Inv j :=
  ⟨h.bits, h.size, h.mask, h.head, h.tail, h.fifo, h.room, h.window, h.producer, hk⟩

/-- **A slot is written**: one that holds no message of the ring. -/
theorem writeSlot {msg : α} {tail : UInt64} (h : s.Inv j) (hpc : s.producer = .writeSlot msg tail) :
    (s.stepProducer).1.Inv j := by
  have hk := h.producer
  rw [hpc] at hk
  obtain ⟨hopen, rfl, hfree⟩ := hk
  have hpos : 0 < s.ring.buf.length := by
    rw [h.size]
    exact Nat.two_pow_pos j
  unfold stepProducer
  rw [hpc]
  dsimp only
  rw [h.tail_slot]
  refine ⟨h.bits, ?_, h.mask, h.head, h.tail, h.fifo, ?_, h.window.set hfree msg,
    ⟨hopen, rfl, ?_, ?_⟩, ?_⟩
  · rw [List.length_set]
    exact h.size
  · rw [List.length_set]
    exact h.room
  · rw [List.length_set]
    exact hfree
  · rw [List.length_set, List.getElem?_set_self (Nat.mod_lt _ hpos)]
  · -- the consumer knows nothing of the buffer
    have hc := h.consumer
    cases hcons : s.consumer <;> rw [hcons] at hc <;> exact hc

/-- **A message is published.** -/
theorem storeTail {msg : α} {tail : UInt64} (h : s.Inv j) (hpc : s.producer = .storeTail msg tail) :
    (s.stepProducer).1.Inv j := by
  have hk := h.producer
  rw [hpc] at hk
  obtain ⟨hopen, rfl, hfree, hslot⟩ := hk
  unfold stepProducer
  rw [hpc]
  refine ⟨h.bits, h.size, h.mask, h.head, ?_, h.fifo.trans (List.prefix_append _ _), ?_, ?_, trivial,
    ?_⟩
  · rw [List.length_append, h.tail]
    exact cursor_succ _
  · rw [List.length_append]
    exact hfree
  · rw [List.length_append]
    exact h.window.push rfl hslot
  · have hc := h.consumer
    cases hcons : s.consumer with
    | idle | loadHead | loadClosed => trivial
    | loadTail head =>
      rw [hcons] at hc
      exact hc
    | readSlot head =>
      rw [hcons] at hc
      refine ⟨hc.1, ?_⟩
      rw [List.length_append]
      exact Nat.lt_add_right _ hc.2
    | storeHead head m =>
      rw [hcons] at hc
      refine ⟨hc.1, ?_⟩
      rw [List.getElem?_append_left (List.getElem?_eq_some_iff.mp hc.2).1]
      exact hc.2
    | loadHeadAgain =>
      rw [hcons] at hc
      exact hc
    | loadTailAgain head =>
      rw [hcons] at hc
      exact hc

/-- **The ring is closed.** -/
theorem storeClosed (h : s.Inv j) (hpc : s.producer = .storeClosed) : (s.stepProducer).1.Inv j := by
  unfold stepProducer
  rw [hpc]
  refine ⟨h.bits, h.size, h.mask, h.head, h.tail, h.fifo, h.room, h.window, trivial, ?_⟩
  have hc := h.consumer
  cases hcons : s.consumer with
  | idle | loadHead | loadClosed => trivial
  | loadTail head =>
    rw [hcons] at hc
    exact hc
  | readSlot head =>
    rw [hcons] at hc
    exact hc
  | storeHead head m =>
    rw [hcons] at hc
    exact hc
  | loadHeadAgain => rfl
  | loadTailAgain head =>
    rw [hcons] at hc
    exact ⟨rfl, hc.2⟩

/-- A step of the producer keeps the invariant. -/
theorem stepProducer (h : s.Inv j) : (s.stepProducer).1.Inv j := by
  cases hpc : s.producer with
  | writeSlot msg tail => exact h.writeSlot hpc
  | storeTail msg tail => exact h.storeTail hpc
  | storeClosed => exact h.storeClosed hpc
  | idle =>
    unfold System.stepProducer
    rw [hpc]
    exact h
  | loadClosed msg =>
    unfold System.stepProducer
    rw [hpc]
    dsimp only
    split
    · exact h.producerAt trivial
    · next hopen => exact h.producerAt (eq_false_of_ne_true hopen)
  | loadTail msg =>
    have hk := h.producer
    rw [hpc] at hk
    unfold System.stepProducer
    rw [hpc]
    exact h.producerAt ⟨hk, rfl⟩
  | loadHead msg tail =>
    have hk := h.producer
    rw [hpc] at hk
    obtain ⟨hopen, rfl⟩ := hk
    unfold System.stepProducer
    rw [hpc]
    dsimp only
    split
    · exact h.producerAt trivial
    · next hfree =>
      rw [h.distance] at hfree
      exact h.producerAt ⟨hopen, rfl, by omega⟩

/-- **A message is popped**: its slot is free for the producer. -/
theorem storeHead [Inhabited α] {msg : α} {head : UInt64} (h : s.Inv j)
    (hpc : s.consumer = .storeHead head msg) : (s.stepConsumer).1.Inv j := by
  have hk := h.consumer
  rw [hpc] at hk
  obtain ⟨rfl, hmsg⟩ := hk
  have hlt : s.popped.length < s.pushed.length := (List.getElem?_eq_some_iff.mp hmsg).1
  have hroom := h.room
  unfold stepConsumer
  rw [hpc]
  have hlen : (s.popped ++ [msg]).length = s.popped.length + 1 := List.length_append
  refine ⟨h.bits, h.size, h.mask, ?_, h.tail, ?_, ?_, ?_, ?_, trivial⟩
  · rw [hlen, h.head]
    exact cursor_succ _
  · rw [List.prefix_iff_eq_take, hlen, List.take_add_one, ← List.prefix_iff_eq_take.mp h.fifo, hmsg]
    rfl
  · show s.pushed.length ≤ (s.popped ++ [msg]).length + s.ring.buf.length
    omega
  · rw [hlen]
    exact h.window.mono (Nat.le_succ _)
  · have hp := h.producer
    cases hprod : s.producer with
    | idle | loadClosed m | storeClosed => trivial
    | loadTail m =>
      rw [hprod] at hp
      exact hp
    | loadHead m tail =>
      rw [hprod] at hp
      exact hp
    | writeSlot m tail =>
      rw [hprod] at hp
      refine ⟨hp.1, hp.2.1, ?_⟩
      show s.pushed.length < (s.popped ++ [msg]).length + s.ring.buf.length
      omega
    | storeTail m tail =>
      rw [hprod] at hp
      refine ⟨hp.1, hp.2.1, ?_, hp.2.2.2⟩
      show s.pushed.length < (s.popped ++ [msg]).length + s.ring.buf.length
      omega

/-- A step of the consumer keeps the invariant. -/
theorem stepConsumer [Inhabited α] (h : s.Inv j) : (s.stepConsumer).1.Inv j := by
  cases hpc : s.consumer with
  | storeHead head msg => exact h.storeHead hpc
  | idle =>
    unfold System.stepConsumer
    rw [hpc]
    exact h
  | loadHead =>
    unfold System.stepConsumer
    rw [hpc]
    exact h.consumerAt rfl
  | loadTail head =>
    have hk := h.consumer
    rw [hpc] at hk
    obtain rfl : head = s.ring.head := hk
    unfold System.stepConsumer
    rw [hpc]
    dsimp only
    split
    · exact h.consumerAt trivial
    · next hne =>
      have hle := h.popped_le
      rw [h.meet_iff] at hne
      exact h.consumerAt ⟨rfl, by omega⟩
  | readSlot head =>
    have hk := h.consumer
    rw [hpc] at hk
    obtain ⟨rfl, hlt⟩ := hk
    unfold System.stepConsumer
    rw [hpc]
    dsimp only
    refine h.consumerAt ⟨rfl, ?_⟩
    rw [h.head_slot, List.getD_eq_getElem?_getD, h.window _ le_rfl hlt, List.getElem?_eq_getElem hlt]
    rfl
  | loadClosed =>
    unfold System.stepConsumer
    rw [hpc]
    dsimp only
    split
    · next hclosed => exact h.consumerAt hclosed
    · exact h.consumerAt trivial
  | loadHeadAgain =>
    have hk := h.consumer
    rw [hpc] at hk
    unfold System.stepConsumer
    rw [hpc]
    exact h.consumerAt ⟨hk, rfl⟩
  | loadTailAgain head =>
    unfold System.stepConsumer
    rw [hpc]
    dsimp only
    split
    · exact h.consumerAt trivial
    · exact h.consumerAt trivial

/-- Every act keeps the invariant. -/
theorem step [Inhabited α] (h : s.Inv j) (act : Act α) : (s.step act).1.Inv j := by
  cases act with
  | push msg =>
    unfold System.step
    dsimp only
    split
    · exact h.producerAt trivial
    · exact h
  | close =>
    unfold System.step
    dsimp only
    split
    · exact h.producerAt trivial
    · exact h
  | producer => exact h.stepProducer
  | pop =>
    unfold System.step
    dsimp only
    split
    · exact h.consumerAt trivial
    · exact h
  | consumer => exact h.stepConsumer

end System.Inv

/-! ## The answers -/

namespace System

variable {s : System α}

/-- Where the producer is when its step says something. -/
def ProducerSays (s : System α) : Event α → Prop
  | .wrote slot =>
    ∃ msg tail, s.producer = .writeSlot msg tail ∧ slot = (tail &&& s.ring.mask).toNat
  | .pushFull =>
    ∃ msg tail, s.producer = .loadHead msg tail ∧ s.ring.buf.length ≤ (tail - s.ring.head).toNat
  | .pushOk | .pushClosed | .closed => True
  | .popOk _ | .popClosed => False

/-- What a step of the consumer can say. -/
def ConsumerSays : Event α → Prop
  | .popOk _ | .popClosed => True
  | .wrote _ | .pushOk | .pushFull | .pushClosed | .closed => False

/-- What the answers of the producer say. -/
theorem stepProducer_event {ev : Event α} (hev : s.stepProducer.2 = some ev) : s.ProducerSays ev := by
  unfold stepProducer at hev
  cases hpc : s.producer with
  | idle | loadTail msg =>
    rw [hpc] at hev
    exact nomatch hev
  | loadClosed msg =>
    rw [hpc] at hev
    dsimp only at hev
    split at hev
    · rw [← Option.some.inj hev]
      trivial
    · exact nomatch hev
  | loadHead msg tail =>
    rw [hpc] at hev
    dsimp only at hev
    split at hev
    · next hfull =>
      rw [← Option.some.inj hev]
      exact ⟨msg, tail, hpc, hfull⟩
    · exact nomatch hev
  | writeSlot msg tail =>
    rw [hpc] at hev
    rw [← Option.some.inj hev]
    exact ⟨msg, tail, hpc, rfl⟩
  | storeTail msg tail | storeClosed =>
    rw [hpc] at hev
    rw [← Option.some.inj hev]
    trivial

/-- What the answers of the consumer say. -/
theorem stepConsumer_event [Inhabited α] {ev : Event α} (hev : s.stepConsumer.2 = some ev) :
    ConsumerSays ev := by
  unfold stepConsumer at hev
  cases hpc : s.consumer with
  | idle | loadHead | readSlot head | loadHeadAgain =>
    rw [hpc] at hev
    exact nomatch hev
  | loadTail head | loadClosed =>
    rw [hpc] at hev
    dsimp only at hev
    split at hev <;> exact nomatch hev
  | storeHead head msg =>
    rw [hpc] at hev
    rw [← Option.some.inj hev]
    trivial
  | loadTailAgain head =>
    rw [hpc] at hev
    dsimp only at hev
    split at hev
    · rw [← Option.some.inj hev]
      trivial
    · exact nomatch hev

/-- A call says nothing. -/
theorem step_event [Inhabited α] {act : Act α} {ev : Event α} (hev : (s.step act).2 = some ev) :
    s.stepProducer.2 = some ev ∨ s.stepConsumer.2 = some ev := by
  cases act with
  | push msg | close | pop =>
    unfold step at hev
    dsimp only at hev
    split at hev <;> exact nomatch hev
  | producer => exact .inl hev
  | consumer => exact .inr hev

end System

namespace System.Inv

variable [Inhabited α] {j : ℕ} {s : System α} {act : Act α}

/-- **A slot that is written** holds no message of the ring. -/
theorem wrote {slot : ℕ} (h : s.Inv j) (hev : (s.step act).2 = some (.wrote slot)) :
    ∀ i, s.popped.length ≤ i → i < s.pushed.length → slot ≠ i % s.ring.buf.length := by
  rcases step_event hev with hprod | hcons
  · obtain ⟨msg, tail, hpc, rfl⟩ := stepProducer_event hprod
    have hk := h.producer
    rw [hpc] at hk
    obtain ⟨-, rfl, hfree⟩ := hk
    intro i hle hlt
    rw [h.tail_slot]
    exact slot_ne hlt (by omega)
  · exact (stepConsumer_event hcons).elim

/-- **`Full`** is answered when the ring is full, as `head_` is loaded. -/
theorem pushFull (h : s.Inv j) (hev : (s.step act).2 = some .pushFull) :
    (∃ msg tail, s.producer = .loadHead msg tail) ∧
      s.pushed.length = s.popped.length + s.ring.buf.length := by
  rcases step_event hev with hprod | hcons
  · obtain ⟨msg, tail, hpc, hfull⟩ := stepProducer_event hprod
    refine ⟨⟨msg, tail, hpc⟩, ?_⟩
    have hk := h.producer
    rw [hpc] at hk
    obtain ⟨-, rfl⟩ := hk
    have hroom := h.room
    rw [h.distance] at hfull
    have hpos : 0 < s.ring.buf.length := by
      rw [h.size]
      exact Nat.two_pow_pos j
    omega
  · exact (stepConsumer_event hcons).elim

/-- Nothing is pushed into a ring that is closed. -/
theorem step_of_closed (h : s.Inv j) (hclosed : s.ring.closed = true) (act : Act α) :
    (s.step act).1.ring.closed = true ∧ (s.step act).1.pushed = s.pushed := by
  cases act with
  | push msg | close | pop =>
    unfold System.step
    dsimp only
    split <;> exact ⟨hclosed, rfl⟩
  | producer =>
    have hk := h.producer
    show s.stepProducer.1.ring.closed = true ∧ s.stepProducer.1.pushed = s.pushed
    unfold System.stepProducer
    cases hpc : s.producer with
    | idle => exact ⟨hclosed, rfl⟩
    | storeClosed => exact ⟨rfl, rfl⟩
    | loadClosed msg =>
      dsimp only
      rw [if_pos hclosed]
      exact ⟨hclosed, rfl⟩
    | loadTail msg =>
      rw [hpc] at hk
      exact absurd (hclosed.symm.trans hk) (by decide)
    | loadHead msg tail | writeSlot msg tail | storeTail msg tail =>
      rw [hpc] at hk
      exact absurd (hclosed.symm.trans hk.1) (by decide)
  | consumer =>
    show s.stepConsumer.1.ring.closed = true ∧ s.stepConsumer.1.pushed = s.pushed
    unfold System.stepConsumer
    split
    all_goals try split
    all_goals exact ⟨hclosed, rfl⟩

/-- Nothing is pushed behind `close`. -/
theorem after_of_closed (h : s.Inv j) (hclosed : s.ring.closed = true) (acts : List (Act α)) :
    (s.after acts).pushed = s.pushed := by
  unfold System.after
  induction acts generalizing s with
  | nil => rfl
  | cons act acts ih =>
    obtain ⟨hstill, hsame⟩ := h.step_of_closed hclosed act
    rw [List.foldl_cons, ih (h.step act) hstill, hsame]

end System.Inv

/-! ## Delivery -/

/-- **A new ring** has a power of two of slots, at least as many as were asked for. -/
theorem inv_new [Inhabited α] {capacity : UInt64} {r : SpscRing α}
    (hnew : SpscRing.new capacity = some r) :
    ∃ j, System.Inv j { ring := r } ∧ capacity.toNat ≤ r.buf.length ∧ r.closed = false := by
  obtain ⟨hfits, hloops⟩ := nextPow2_spec capacity
  unfold SpscRing.new at hnew
  by_cases hle : capacity.toNat ≤ 2 ^ 63
  · obtain ⟨b, hb, hpow, hcap⟩ := hfits hle
    rw [hpow, Option.map_some] at hnew
    rw [← Option.some.inj hnew, toNat_ofNat_pow hb]
    have hlen : (List.replicate (2 ^ b) (default : α)).length = 2 ^ b := List.length_replicate
    refine ⟨b, ⟨hb, hlen, ofNat_pow_sub_one b, rfl, rfl, List.nil_prefix, Nat.zero_le _, ?_, trivial, trivial⟩, ?_⟩
    · exact window_empty _ _ _
    · rw [hlen]
      exact ⟨hcap, rfl⟩
  · rw [hloops (by omega)] at hnew
    exact nomatch hnew

/-- The constructor returns for every capacity up to `2 ^ 63`. -/
theorem new_isSome_iff [Inhabited α] (capacity : UInt64) :
    (∃ r : SpscRing α, SpscRing.new capacity = some r) ↔ capacity.toNat ≤ 2 ^ 63 := by
  obtain ⟨hfits, hloops⟩ := nextPow2_spec capacity
  unfold SpscRing.new
  constructor
  · rintro ⟨r, hnew⟩
    by_contra hgt
    rw [hloops (by omega)] at hnew
    exact nomatch hnew
  · intro hle
    obtain ⟨b, -, hpow, -⟩ := hfits hle
    rw [hpow]
    exact ⟨_, rfl⟩

end SpscRing

end PulseForge
