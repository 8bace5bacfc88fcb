import Mathlib.Data.UInt
import PulseForge.Analysis.QueueMutexFifo
import PulseForge.Foundation.SharedTotal
import PulseForge.Model.Worker

/-!
# The shared totals of the workers

Each shared counter holds, together with what the workers have still to fold into it, the fold of
everything that was popped: a worker owes a message from the pop to the access that folds it in.
The maximum is folded in by a compare-exchange loop, which gives up only when the counter is at
least the latency: a counter that never falls is no smaller than what was once read of it. When the
workers are gone nothing is owed, and the queue was closed and is drained.
-/

set_option autoImplicit false

namespace PulseForge

open Foundation QueueHistory

/-! ## What a worker owes -/

def Worker.owesCount (w : Worker) : Option UInt64 :=
  match w.next with
  | .count _ => some 1
  | _ => none

def Worker.owesTotal (w : Worker) : Option UInt64 :=
  match w.next with
  | .count lat | .total lat => some lat
  | _ => none

def Worker.owesMax (w : Worker) : Option ℕ :=
  match w.next with
  | .count lat | .total lat | .loadMax lat | .raiseMax lat _ => some lat.toNat
  | _ => none

/-- What an event says: its type, the worker, the number of the message and the latency. -/
abbrev EventKey : Type := UInt8 × UInt32 × UInt64 × UInt64

def TickEvent.key (e : TickEvent) : EventKey := (e.type, e.workerId, e.sequence, e.latencyNs)

/-- What the event of a sample has to say. -/
def Sample.key (x : Sample) : EventKey :=
  (EventType.processed.code, UInt32.ofNat x.worker, x.msg.sequence, x.latency)

/-- Worker `id` owes the event of its message. -/
def Worker.owesEvent (id : ℕ) (w : Worker) : Option (Multiset EventKey) :=
  match w.next with
  | .count lat | .total lat | .loadMax lat | .raiseMax lat _ | .depth lat | .gauge lat _
  | .event lat => some {Sample.key ⟨id, w.msg, lat⟩}
  | .pop | .done => none

/-- **Three counters that sum up** what was measured. -/
structure Measured (count total most : UInt64) (samples : List Sample) : Prop where
  count : count = (samples.map fun _ => 1).sum
  total : total = (samples.map Sample.latency).sum
  most : most.toNat = (samples.map fun x => x.latency.toNat).foldr max 0

/-- **A message is measured.** -/
theorem Measured.measure {w : Worker} {id : ℕ} {samples : List Sample}
    (h : Measured w.processed w.latTotal w.latMax samples) (msg : TickMessage) (lat : UInt64) :
    Measured (w.measure msg lat).processed (w.measure msg lat).latTotal (w.measure msg lat).latMax
      (samples ++ [⟨id, msg, lat⟩]) := by
  constructor
  · simp only [Worker.measure, h.count, List.map_append, List.sum_append, List.map_singleton,
      List.sum_singleton]
  · simp only [Worker.measure, h.total, List.map_append, List.sum_append, List.map_singleton,
      List.sum_singleton]
  · have hmost := h.most
    rw [List.map_append, List.map_singleton, List.foldr_append, List.foldr_cons, List.foldr_nil]
    have hfold : ∀ l : List ℕ, l.foldr max (max lat.toNat 0) = max (l.foldr max 0) lat.toNat := by
      intro l
      induction l with
      | nil => simp
      | cons a l ih => rw [List.foldr_cons, List.foldr_cons, ih, max_assoc]
    rw [hfold, ← hmost]
    unfold Worker.measure
    dsimp only
    split_ifs with hlt
    · exact (max_eq_right (UInt64.lt_iff_toNat_lt.mp hlt).le).symm
    · rw [UInt64.lt_iff_toNat_lt] at hlt
      exact (max_eq_left (Nat.le_of_not_lt hlt)).symm

namespace WorkerPool

/-- What the events of the workers say. -/
def reported (s : WorkerPool) : Multiset EventKey :=
  ((s.recorded.map TickEvent.key : List _) : Multiset _)

/-- **The events and what is owed to them**: a worker owes under its id. -/
def Told (workers : List Worker) (events : Multiset EventKey) (samples : List Sample) : Prop :=
  Settles (M := Multiset EventKey) (· + ·) 0 (fun owes => owes)
    (workers.mapIdx Worker.owesEvent) events (samples.map fun x => {x.key})

/-- **The counters and what is owed to them.** -/
structure Accounts (s : WorkerPool) : Prop where
  counted : Settles (M := UInt64) (· + ·) 0 Worker.owesCount s.workers s.stats.processed
    (s.samples.map fun _ => 1)
  summed : Settles (M := UInt64) (· + ·) 0 Worker.owesTotal s.workers s.stats.latencyTotalNs
    (s.samples.map Sample.latency)
  raised : Settles (M := ℕ) max 0 Worker.owesMax s.workers s.stats.latencyMaxNs.toNat
    (s.samples.map fun x => x.latency.toNat)
  seen : ∀ w ∈ s.workers, ∀ lat cur, w.next = .raiseMax lat cur → cur ≤ s.stats.latencyMaxNs
  told : s.events.isSome → Told s.workers s.reported s.samples

variable {s : WorkerPool} {id : ℕ} {w : Worker}

section Told

variable {workers : List Worker} {w' : Worker} {events : Multiset EventKey}
  {samples : List Sample}

/-- What worker `id` owes stands at its place. -/
theorem owesEvent_getElem? (hi : workers[id]? = some w) :
    (workers.mapIdx Worker.owesEvent)[id]? = some (w.owesEvent id) := by
  rw [List.getElem?_mapIdx, hi, Option.map_some]

/-- A worker that owes the same event as before. -/
theorem Told.keep (h : Told workers events samples) (hi : workers[id]? = some w)
    (howes : w'.owesEvent id = w.owesEvent id) : Told (workers.set id w') events samples := by
  unfold Told
  rw [List.mapIdx_set]
  exact Settles.keep h (owesEvent_getElem? hi) howes

/-- A worker owes the event of the message that it popped. -/
theorem Told.take (h : Told workers events samples) (hi : workers[id]? = some w) {x : Sample}
    (hnone : w.owesEvent id = none) (hsome : w'.owesEvent id = some {x.key}) :
    Told (workers.set id w') events (samples ++ [x]) := by
  unfold Told
  rw [List.mapIdx_set, List.map_append]
  exact Settles.take h (owesEvent_getElem? hi) hnone hsome

/-- A worker records the event that it owes. -/
theorem Told.pay (h : Told workers events samples) (hi : workers[id]? = some w) {key : EventKey}
    (hsome : w.owesEvent id = some {key}) (hnone : w'.owesEvent id = none) :
    Told (workers.set id w') (events + {key}) samples := by
  unfold Told
  rw [List.mapIdx_set]
  exact Settles.pay h (owesEvent_getElem? hi) hsome hnone

end Told

/-- A new pool has nothing to account for. -/
theorem new_accounts (capacity : UInt64) (n : ℕ) (events : Option SharedEventRing) :
    (new capacity n events).Accounts := by
  have hidle : ∀ w ∈ (new capacity n events).workers, w = {} :=
    fun w hw => List.eq_of_mem_replicate hw
  constructor
  · exact Settles.start fun w hw => by rw [hidle w hw]; rfl
  · exact Settles.start fun w hw => by rw [hidle w hw]; rfl
  · exact Settles.start fun w hw => by rw [hidle w hw]; rfl
  · intro w hw lat cur hnext
    rw [hidle w hw] at hnext
    cases hnext
  · intro _
    refine Settles.start fun owes howes => ?_
    obtain ⟨i, hlt, rfl⟩ := List.mem_mapIdx.mp howes
    rw [hidle _ (List.getElem_mem hlt)]
    rfl

/-- What the others have read stays below a counter that does not fall. -/
theorem Accounts.seen_set (h : s.Accounts) {w' : Worker} {most : UInt64}
    (hmost : s.stats.latencyMaxNs ≤ most)
    (hseen : ∀ lat cur, w'.next = .raiseMax lat cur → cur ≤ most) :
    ∀ v ∈ s.workers.set id w', ∀ lat cur, v.next = .raiseMax lat cur → cur ≤ most := by
  intro v hv lat cur hnext
  rcases List.mem_or_eq_of_mem_set hv with hv | rfl
  · exact UInt64.le_trans (h.seen v hv lat cur hnext) hmost
  · exact hseen lat cur hnext

/-- **A worker that goes on without touching a counter.** -/
theorem Accounts.put (h : s.Accounts) (hi : s.workers[id]? = some w) {next : WorkerAt}
    (hcount : ({ w with next } : Worker).owesCount = w.owesCount)
    (htotal : ({ w with next } : Worker).owesTotal = w.owesTotal)
    (hmax : ({ w with next } : Worker).owesMax = w.owesMax)
    (hevent : s.events.isSome → ({ w with next } : Worker).owesEvent id = w.owesEvent id)
    (hseen : ∀ lat cur, next = .raiseMax lat cur → cur ≤ s.stats.latencyMaxNs) :
    (s.put id w next).Accounts := by
  constructor
  · exact h.counted.keep hi hcount
  · exact h.summed.keep hi htotal
  · exact h.raised.keep hi hmax
  · exact h.seen_set (UInt64.le_refl _) hseen
  · exact fun hon => (h.told hon).keep hi (hevent hon)

/-- **A message is popped**: the worker owes it to every counter. -/
theorem Accounts.stepPop (h : s.Accounts) (hi : s.workers[id]? = some w) (hpop : w.next = .pop)
    (now : UInt64) : (s.stepPop id w now).Accounts := by
  unfold WorkerPool.stepPop
  split
  · exact h
  · rename_i queue _ _
    have hq : ({ s with queue, log := s.log ++ [(.pop, .closed)] } : WorkerPool).Accounts :=
      ⟨h.counted, h.summed, h.raised, h.seen, h.told⟩
    apply hq.put hi
    · simp [Worker.owesCount, hpop]
    · simp [Worker.owesTotal, hpop]
    · simp [Worker.owesMax, hpop]
    · simp [Worker.owesEvent, hpop]
    · simp
  · rename_i queue written _
    dsimp only
    generalize written.getD w.msg = msg
    constructor
    · rw [List.map_append]
      exact h.counted.take hi (by simp [Worker.owesCount, hpop]) rfl
    · rw [List.map_append]
      exact h.summed.take hi (by simp [Worker.owesTotal, hpop]) rfl
    · rw [List.map_append]
      exact h.raised.take hi (by simp [Worker.owesMax, hpop]) rfl
    · exact h.seen_set (UInt64.le_refl _) (by simp [Worker.measure])
    · intro hon
      exact (h.told hon).take hi (by simp [Worker.owesEvent, hpop]) rfl

/-- **The latency is folded into the maximum.** -/
theorem Accounts.raise (h : s.Accounts) (hi : s.workers[id]? = some w) {lat cur most : UInt64}
    (hnext : w.next = .raiseMax lat cur)
    (hmost : most.toNat = max s.stats.latencyMaxNs.toNat lat.toNat) :
    (({ s with stats.latencyMaxNs := most } : WorkerPool).put id w (.depth lat)).Accounts := by
  constructor
  · exact h.counted.keep hi (by simp [Worker.owesCount, hnext])
  · exact h.summed.keep hi (by simp [Worker.owesTotal, hnext])
  · have howes : w.owesMax = some lat.toNat := by simp [Worker.owesMax, hnext]
    have hnone : Worker.owesMax { w with next := .depth lat } = none := rfl
    have hpay := h.raised.pay hi howes hnone
    rw [← hmost] at hpay
    exact hpay
  · have hle : s.stats.latencyMaxNs ≤ most := by
      rw [UInt64.le_iff_toNat_le]
      omega
    exact h.seen_set hle (by simp)
  · exact fun hon => (h.told hon).keep hi (by simp [Worker.owesEvent, hnext])

/-- **The loop of the maximum**: the exchange succeeds, fails, or is not needed. -/
theorem Accounts.stepRaise (h : s.Accounts) (hi : s.workers[id]? = some w) {lat cur : UInt64}
    (hnext : w.next = .raiseMax lat cur) (now : UInt64) (spurious : Bool) :
    (s.stepWorker id w now spurious).Accounts := by
  have hread := h.seen w (List.mem_of_getElem? hi) lat cur hnext
  unfold WorkerPool.stepWorker
  rw [hnext]
  dsimp only
  split_ifs with hgo hswap
  · -- the exchange succeeds: the counter was below the latency
    rw [UInt64.lt_iff_toNat_lt] at hgo
    have hmost : lat.toNat = max s.stats.latencyMaxNs.toNat lat.toNat := by
      rw [hswap.1]
      omega
    exact h.raise hi hnext hmost
  · apply h.put hi
    · simp [Worker.owesCount, hnext]
    · simp [Worker.owesTotal, hnext]
    · simp [Worker.owesMax, hnext]
    · simp [Worker.owesEvent, hnext]
    · rintro lat' cur' hread
      cases hread
      exact UInt64.le_refl _
  · -- the loop ends: what was read, and so the counter, is at least the latency
    rw [UInt64.lt_iff_toNat_lt] at hgo
    rw [UInt64.le_iff_toNat_le] at hread
    have hmost : s.stats.latencyMaxNs.toNat = max s.stats.latencyMaxNs.toNat lat.toNat := by
      omega
    exact h.raise hi hnext hmost

/-- **The event is recorded.** -/
theorem Accounts.stepEvent (h : s.Accounts) (hi : s.workers[id]? = some w) {lat : UInt64}
    (hnext : w.next = .event lat) (now : UInt64) (spurious : Bool) :
    (s.stepWorker id w now spurious).Accounts := by
  unfold WorkerPool.stepWorker
  rw [hnext]
  constructor
  · exact h.counted.keep hi (by simp [Worker.owesCount, hnext])
  · exact h.summed.keep hi (by simp [Worker.owesTotal, hnext])
  · exact h.raised.keep hi (by simp [Worker.owesMax, hnext])
  · exact h.seen_set (UInt64.le_refl _) (by simp)
  · intro hon
    have htold : reported (({ s with
        events := s.events.map fun ring => ring.record (w.event id now lat)
        recorded := s.recorded ++ [w.event id now lat] } : WorkerPool).put id w .pop) =
        s.reported + {Sample.key ⟨id, w.msg, lat⟩} := by
      simp [reported, WorkerPool.put, Worker.event, TickEvent.key, Sample.key, ← Multiset.coe_add]
    dsimp only at hon ⊢
    rw [htold]
    refine (h.told ?_).pay hi (by simp [Worker.owesEvent, hnext]) rfl
    rw [WorkerPool.put, Option.isSome_map] at hon
    exact hon

/-- **Any step of a worker.** -/
theorem Accounts.stepWorker (h : s.Accounts) (hi : s.workers[id]? = some w) (now : UInt64)
    (spurious : Bool) : (s.stepWorker id w now spurious).Accounts := by
  cases hnext : w.next with
  | raiseMax lat cur => exact h.stepRaise hi hnext now spurious
  | event lat => exact h.stepEvent hi hnext now spurious
  | pop =>
    rw [WorkerPool.stepWorker, hnext]
    exact h.stepPop hi hnext now
  | count lat =>
    rw [WorkerPool.stepWorker, hnext]
    constructor
    · exact h.counted.pay hi (by simp [Worker.owesCount, hnext]) rfl
    · exact h.summed.keep hi (by simp [Worker.owesTotal, hnext])
    · exact h.raised.keep hi (by simp [Worker.owesMax, hnext])
    · exact h.seen_set (UInt64.le_refl _) (by simp)
    · exact fun hon => (h.told hon).keep hi (by simp [Worker.owesEvent, hnext])
  | total lat =>
    rw [WorkerPool.stepWorker, hnext]
    constructor
    · exact h.counted.keep hi (by simp [Worker.owesCount, hnext])
    · exact h.summed.pay hi (by simp [Worker.owesTotal, hnext]) rfl
    · exact h.raised.keep hi (by simp [Worker.owesMax, hnext])
    · exact h.seen_set (UInt64.le_refl _) (by simp)
    · exact fun hon => (h.told hon).keep hi (by simp [Worker.owesEvent, hnext])
  | loadMax lat =>
    rw [WorkerPool.stepWorker, hnext]
    apply h.put hi
    · simp [Worker.owesCount, hnext]
    · simp [Worker.owesTotal, hnext]
    · simp [Worker.owesMax, hnext]
    · simp [Worker.owesEvent, hnext]
    · rintro lat' cur hread
      cases hread
      exact UInt64.le_refl _
  | depth lat =>
    rw [WorkerPool.stepWorker, hnext]
    apply h.put hi
    · simp [Worker.owesCount, hnext]
    · simp [Worker.owesTotal, hnext]
    · simp [Worker.owesMax, hnext]
    · simp [Worker.owesEvent, hnext]
    · simp
  | gauge lat depth =>
    have hset : ({ s with stats.queueDepth := depth } : WorkerPool).Accounts :=
      ⟨h.counted, h.summed, h.raised, h.seen, h.told⟩
    rw [WorkerPool.stepWorker, hnext]
    apply hset.put hi
    · split <;> simp [Worker.owesCount, hnext]
    · split <;> simp [Worker.owesTotal, hnext]
    · split <;> simp [Worker.owesMax, hnext]
    · intro hon
      rw [if_pos hon]
      simp [Worker.owesEvent, hnext]
    · intro lat' cur
      split <;> simp
  | done =>
    rw [WorkerPool.stepWorker, hnext]
    exact h

/-! ## The queue and the totals of a worker -/

/-- The samples of one worker. -/
def mine (s : WorkerPool) (id : ℕ) : List Sample := s.samples.filter fun x => x.worker = id

theorem mine_concat (s : WorkerPool) (x : Sample) (j : ℕ) :
    ((s.samples ++ [x]).filter fun y => y.worker = j) =
      if x.worker = j then s.mine j ++ [x] else s.mine j := by
  unfold mine
  by_cases hj : x.worker = j <;> simp [hj]

/-- **The pool**: its queue is a bounded queue, the workers have what was popped of it, and one
that is gone left it drained. -/
structure Inv (capacity : UInt64) (n : ℕ) (s : WorkerPool) : Prop where
  wf : s.queue.Wf
  size : s.queue.capacity = capacity
  gives : BoundedQueue.Gives capacity.toNat s.log s.queue.toQueue
  threads : s.workers.length = n
  got : s.samples.map Sample.msg = popped s.log
  accounts : s.Accounts
  gone : ∀ w ∈ s.workers, w.next = .done → s.queue.toQueue.Drained
  own : ∀ (id : ℕ) w, s.workers[id]? = some w →
    Measured w.processed w.latTotal w.latMax (s.mine id)

variable {capacity : UInt64} {n : ℕ}

/-- A new pool has an empty queue. -/
theorem new_inv (hcap : 1 ≤ capacity) (n : ℕ) (events : Option SharedEventRing) :
    (new capacity n events).Inv capacity n where
  wf := QueueMutex.new_wf hcap
  size := rfl
  gives := .start
  threads := List.length_replicate
  got := rfl
  accounts := new_accounts capacity n events
  gone := by
    intro w hw hdone
    rw [List.eq_of_mem_replicate hw] at hdone
    cases hdone
  own := by
    intro id w hw
    rw [List.eq_of_mem_replicate (List.mem_of_getElem? hw)]
    exact ⟨rfl, rfl, rfl⟩

/-- Behind a pop, the access is to no queue. -/
theorem stepWorker_eq (s : WorkerPool) (id : ℕ) {w : Worker} (hpop : w.next ≠ .pop)
    (hdone : w.next ≠ .done) (now : UInt64) (spurious : Bool) :
    ∃ stats events recorded next, next ≠ .done ∧ s.stepWorker id w now spurious =
      { s with stats, events, recorded, workers := s.workers.set id { w with next } } := by
  unfold WorkerPool.stepWorker
  split
  next hnext => exact absurd hnext hpop
  next => exact ⟨_, _, _, _, by simp, rfl⟩
  next => exact ⟨_, _, _, _, by simp, rfl⟩
  next => exact ⟨_, _, _, _, by simp, rfl⟩
  next =>
    split_ifs
    · exact ⟨_, _, _, _, by simp, rfl⟩
    · exact ⟨_, _, _, _, by simp, rfl⟩
    · exact ⟨_, _, _, _, by simp, rfl⟩
  next => exact ⟨_, _, _, _, by simp, rfl⟩
  next => exact ⟨_, _, _, _, by split <;> simp, rfl⟩
  next => exact ⟨_, _, _, _, by simp, rfl⟩
  next hnext => exact absurd hnext hdone

/-- The totals of every worker, when one of them goes on and nothing was popped. -/
theorem Inv.own_set (h : s.Inv capacity n) (hi : s.workers[id]? = some w) (next : WorkerAt) :
    ∀ (j : ℕ) v, (s.workers.set id { w with next })[j]? = some v →
      Measured v.processed v.latTotal v.latMax (s.mine j) := by
  intro j v hv
  rw [List.getElem?_set] at hv
  split_ifs at hv with hj hlt
  · obtain rfl := Option.some.inj hv
    rw [← hj]
    exact h.own id w hi
  · exact h.own j v hv

/-- A drained queue stays drained. -/
theorem Inv.drained (h : s.Inv capacity n) {queue : QueueMutex TickMessage}
    {c : QueueCall TickMessage} {answer : QueueAnswer TickMessage}
    (hserves : s.queue.Serves c queue answer) (hgone : s.queue.toQueue.Drained) :
    queue.toQueue.Drained := by
  have hcall := hserves.call
  rw [h.size] at hcall
  rw [hgone.call_eq hcall]
  exact hgone

/-- A pop keeps the account of the queue. -/
theorem Inv.stepPop (h : s.Inv capacity n) (hi : s.workers[id]? = some w) (hpop : w.next = .pop)
    (now : UInt64) : (s.stepPop id w now).Inv capacity n := by
  have haccounts := h.accounts.stepPop hi hpop now
  unfold WorkerPool.stepPop at haccounts ⊢
  cases hconsumer : s.queue.consumerPop with
  | none => exact h
  | some answer =>
    obtain ⟨queue, status, written⟩ := answer
    obtain ⟨⟨q₁, answered, msg⟩, hinner, heq⟩ := Option.map_eq_some_iff.mp hconsumer
    rcases h.wf.pop hinner with ⟨m, rfl, rfl, hserves⟩ | ⟨rfl, rfl, hserves⟩
    · cases heq
      rw [hconsumer] at haccounts
      have hcall := hserves.call
      rw [h.size] at hcall
      constructor
      · exact hserves.wf
      · exact hserves.capacity.trans h.size
      · exact h.gives.call hcall
      · exact List.length_set.trans h.threads
      · change (s.samples ++ [_]).map Sample.msg = popped (s.log ++ [_])
        rw [List.map_append, popped_concat, h.got]
        rfl
      · exact haccounts
      · intro v hv hdone
        rcases List.mem_or_eq_of_mem_set hv with hv | rfl
        · exact h.drained hserves (h.gone v hv hdone)
        · cases hdone
      · intro j v hv
        change (s.workers.set id _)[j]? = some v at hv
        change Measured _ _ _ ((s.samples ++ [_]).filter _)
        rw [List.getElem?_set] at hv
        rw [mine_concat]
        split_ifs at hv with hj hlt
        · obtain rfl := Option.some.inj hv
          rw [if_pos hj, ← hj]
          exact (h.own id w hi).measure m _
        · rw [if_neg hj]
          exact h.own j v hv
    · cases heq
      rw [hconsumer] at haccounts
      have hcall := hserves.call
      rw [h.size] at hcall
      constructor
      · exact hserves.wf
      · exact hserves.capacity.trans h.size
      · exact h.gives.call hcall
      · exact List.length_set.trans h.threads
      · change s.samples.map Sample.msg = popped (s.log ++ [_])
        rw [popped_concat, h.got]
        simp [QueueHistory.taken]
      · exact haccounts
      · intro v hv hdone
        rcases List.mem_or_eq_of_mem_set hv with hv | rfl
        · exact h.drained hserves (h.gone v hv hdone)
        · exact BoundedQueue.drained_of_pop hcall
      · exact h.own_set hi .done

/-- Every step of a worker keeps the account. -/
theorem Inv.stepWorker (h : s.Inv capacity n) (hi : s.workers[id]? = some w) (now : UInt64)
    (spurious : Bool) : (s.stepWorker id w now spurious).Inv capacity n := by
  by_cases hpop : w.next = .pop
  · unfold WorkerPool.stepWorker
    rw [hpop]
    exact h.stepPop hi hpop now
  by_cases hdone : w.next = .done
  · unfold WorkerPool.stepWorker
    rw [hdone]
    exact h
  have haccounts := h.accounts.stepWorker hi now spurious
  obtain ⟨stats, events, recorded, next, hnext, heq⟩ := stepWorker_eq s id hpop hdone now spurious
  rw [heq] at haccounts ⊢
  refine ⟨h.wf, h.size, h.gives, List.length_set.trans h.threads, h.got, haccounts, ?_, ?_⟩
  · intro v hv hgone
    rcases List.mem_or_eq_of_mem_set hv with hv | rfl
    · exact h.gone v hv hgone
    · exact absurd hgone hnext
  · exact h.own_set hi next

/-- A call of the receive loop. -/
theorem Inv.call (h : s.Inv capacity n) {queue : QueueMutex TickMessage}
    {c : QueueCall TickMessage} {answer : QueueAnswer TickMessage}
    (hserves : s.queue.Serves c queue answer) (htaken : QueueHistory.taken (c, answer) = none) :
    ({ s with queue, log := s.log ++ [(c, answer)] } : WorkerPool).Inv capacity n := by
  have hcall := hserves.call
  rw [h.size] at hcall
  constructor
  · exact hserves.wf
  · exact hserves.capacity.trans h.size
  · exact h.gives.call hcall
  · exact h.threads
  · rw [popped_concat, htaken, Option.toList_none, List.append_nil]
    exact h.got
  · have haccounts := h.accounts
    exact ⟨haccounts.counted, haccounts.summed, haccounts.raised, haccounts.seen, haccounts.told⟩
  · exact fun w hw hdone => h.drained hserves (h.gone w hw hdone)
  · exact h.own

/-- **Any step** of any thread. -/
theorem Inv.step (h : s.Inv capacity n) (act : Act) : (s.step act).Inv capacity n := by
  have haccounts := h.accounts
  cases act with
  | tryPush msg =>
    apply h.call (h.wf.tryPush msg)
    cases (s.queue.tryPush msg).2 with
    | ok | full | closed => rfl
  | record e =>
    refine ⟨h.wf, h.size, h.gives, h.threads, h.got, ?_, h.gone, h.own⟩
    refine ⟨haccounts.counted, haccounts.summed, haccounts.raised, haccounts.seen, fun hon => ?_⟩
    exact haccounts.told (Option.isSome_map.symm.trans hon)
  | gauge depth =>
    refine ⟨h.wf, h.size, h.gives, h.threads, h.got, ?_, h.gone, h.own⟩
    exact ⟨haccounts.counted, haccounts.summed, haccounts.raised, haccounts.seen, haccounts.told⟩
  | close =>
    exact h.call (QueueMutex.critical_serves h.wf (c := .close) rfl) rfl
  | worker id now spurious =>
    unfold WorkerPool.step
    dsimp only
    split
    · rename_i w hi
      exact h.stepWorker hi now spurious
    · exact h

/-- Every schedule keeps the account. -/
theorem Inv.run (h : s.Inv capacity n) (acts : List Act) : (s.run acts).Inv capacity n := by
  induction acts generalizing s with
  | nil => exact h
  | cons act acts ih => exact ih (h.step act)

/-! ## The totals -/

/-- A sum of ones counts. -/
theorem sum_ones {α : Type} (l : List α) : (l.map fun _ => (1 : UInt64)).sum = UInt64.ofNat l.length := by
  induction l with
  | nil => rfl
  | cons a l ih =>
    rw [List.map_cons, List.sum_cons, ih, List.length_cons, UInt64.ofNat_add, UInt64.add_comm]
    rfl

/-- The counter is behind by the workers that are about to raise it. -/
theorem Accounts.behind (h : s.Accounts) :
    ∃ k ≤ s.workers.length,
      s.stats.processed + UInt64.ofNat k = UInt64.ofNat s.samples.length := by
  refine ⟨(s.workers.filterMap Worker.owesCount).length, List.length_filterMap_le _ _, ?_⟩
  have hones : ∀ a ∈ s.workers.filterMap Worker.owesCount, a = 1 := by
    intro a ha
    obtain ⟨w, -, howes⟩ := List.mem_filterMap.mp ha
    unfold Worker.owesCount at howes
    split at howes
    · exact (Option.some.inj howes).symm
    · cases howes
  have hcounted := h.counted
  unfold Settles at hcounted
  rw [List.eq_replicate_of_mem hones] at hcounted
  rw [← sum_ones s.samples]
  refine Eq.trans ?_ hcounted
  generalize (s.workers.filterMap Worker.owesCount).length = k
  induction k with
  | zero => exact UInt64.add_zero _
  | succ k ih =>
    rw [List.replicate_succ, ← Multiset.cons_coe, Multiset.fold_cons_left, ← ih, UInt64.ofNat_add,
      UInt64.add_comm 1, UInt64.add_assoc]
    rfl

end WorkerPool

end PulseForge
