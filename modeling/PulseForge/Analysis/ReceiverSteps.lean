import PulseForge.Foundation.ListUpdate
import PulseForge.Model.Receiver

/-!
# What a step of the tick receiver does

A datagram is tracked and goes to the queue; a request goes on or is harvested. An invariant of
the receiver is proved step by step from these.
-/

set_option autoImplicit false

namespace PulseForge

open Foundation Relation

namespace Receiver

variable {r : Receiver} {msg : TickMessage}

/-! ## Datagrams -/

/-- A tick that the receiver takes. -/
def Takes (msg : TickMessage) (whole : Bool) : Prop := whole = true ∧ messageIsValid msg = true

instance (msg : TickMessage) (whole : Bool) : Decidable (Takes msg whole) :=
  inferInstanceAs (Decidable (_ ∧ _))

/-- **The loop around `try_push`** puts the tick into the queue when it ends with `Ok`. -/
theorem pushLoop_eq (msg : TickMessage) (ends : PushEnd) (fulls : ℕ) (reported : Bool)
    (r : Receiver) : ∃ queueFull stop, pushLoop msg ends fulls reported r =
      { r with
        queueFull := queueFull, stop := stop
        enqueued := r.enqueued ++ if ends = .ok then [(.live, msg)] else [] } := by
  induction fulls generalizing reported r with
  | zero =>
    cases ends with
    | ok => exact ⟨_, _, rfl⟩
    | closed => exact ⟨r.queueFull, true, by simp [pushLoop]⟩
    | stopped =>
      cases reported with
      | true => exact ⟨r.queueFull, r.stop, by simp [pushLoop]⟩
      | false => exact ⟨r.queueFull + 1, r.stop, by simp [pushLoop]⟩
  | succ fulls ih =>
    rw [pushLoop]
    obtain ⟨queueFull, stop, heq⟩ :=
      ih true (if reported then r else { r with queueFull := r.queueFull + 1 })
    refine ⟨queueFull, stop, ?_⟩
    rw [heq]
    cases reported <;> rfl

/-- **A tick is taken**: it is the last one now, and the gap in front of it, when there is one, is
declared and asked for. -/
structure Took (r : Receiver) (msg : TickMessage) (sent : List (Origin × TickMessage))
    (r' : Receiver) : Prop where
  lastSeq : r'.lastSeq = msg.sequence
  haveLast : r'.haveLast = true
  live : r'.live = r.live ++ [msg]
  enabled : r'.snapshotEnabled = r.snapshotEnabled
  answered : r'.answered = r.answered
  enqueued : r'.enqueued = r.enqueued ++ sent
  noGap : r.gapOf msg = none →
    r'.gaps = r.gaps ∧ r'.declared = r.declared ∧ r'.pending = r.pending
  gap : ∀ start count, r.gapOf msg = some (start, count) →
    ∃ dispatched,
      dispatched = (r.snapshotEnabled && decide (r.pending.length < kMaxPendingRecoveries)) ∧
      r'.gaps = r.gaps + count ∧ r'.declared = r.declared ++ [⟨start, count, dispatched⟩] ∧
      r'.pending = if dispatched then r.pending ++ [⟨start, count, .asked⟩] else r.pending

/-- Tracking a tick puts nothing into the queue. -/
theorem track_took (r : Receiver) (msg : TickMessage) : Took r msg [] (r.track msg) := by
  unfold track
  cases hgap : r.gapOf msg with
  | none =>
    dsimp only
    split
    · exact ⟨rfl, rfl, rfl, rfl, rfl, (List.append_nil _).symm, fun _ => ⟨rfl, rfl, rfl⟩,
        fun _ _ hc => nomatch hgap.symm.trans hc⟩
    · exact ⟨rfl, rfl, rfl, rfl, rfl, (List.append_nil _).symm, fun _ => ⟨rfl, rfl, rfl⟩,
        fun _ _ hc => nomatch hgap.symm.trans hc⟩
  | some gap =>
    refine ⟨rfl, rfl, rfl, rfl, rfl, (List.append_nil _).symm,
      fun hc => (nomatch hgap.symm.trans hc), fun start count hc => ?_⟩
    obtain rfl : gap = (start, count) := Option.some.inj (hgap.symm.trans hc)
    exact ⟨_, rfl, rfl, rfl, rfl⟩

/-- **A datagram** that is no tick is counted. -/
theorem processOne_of_not_takes {whole : Bool} (h : ¬ Takes msg whole) (fulls : ℕ) (ends : PushEnd) :
    r.processOne msg whole fulls ends = { r with invalid := r.invalid + 1 } := by
  unfold processOne
  rw [if_pos]
  unfold Takes at h
  cases whole with
  | false => rfl
  | true =>
    cases hv : messageIsValid msg with
    | false => rfl
    | true => exact absurd ⟨rfl, hv⟩ h

/-- **A datagram** that is a tick is taken, and goes to the queue when the loop around `try_push`
ends with `Ok`. -/
theorem processOne_took {whole : Bool} (h : Takes msg whole) (fulls : ℕ) (ends : PushEnd) :
    Took r msg (if ends = .ok then [(.live, msg)] else []) (r.processOne msg whole fulls ends) := by
  obtain ⟨hwhole, hvalid⟩ := h
  have htook := track_took { r with received := r.received + 1 } msg
  have hgo : ¬ (!whole || !messageIsValid msg) = true := by
    rw [hwhole, hvalid]
    decide
  unfold processOne
  rw [if_neg hgo]
  obtain ⟨queueFull, stop, heq⟩ :=
    pushLoop_eq msg ends fulls false (({ r with received := r.received + 1 } : Receiver).track msg)
  generalize ({ r with received := r.received + 1 } : Receiver).track msg = t at htook heq
  have hsame : t.enqueued = r.enqueued := htook.enqueued.trans (List.append_nil _)
  rw [heq]
  refine ⟨htook.lastSeq, htook.haveLast, htook.live, htook.enabled, htook.answered, ?_, htook.noGap,
    htook.gap⟩
  show t.enqueued ++ _ = _
  rw [hsame]

/-! ## Requests -/

/-- The ticks of an answer that the queue takes, from its `k`-th answer on. -/
def accepted (queue : ℕ → PushStatus) : ℕ → List TickMessage → List TickMessage
  | _, [] => []
  | k, m :: msgs =>
    if queue k = .ok then m :: accepted queue (k + 1) msgs else accepted queue (k + 1) msgs

/-- The queue takes some of the ticks, in order. -/
theorem accepted_sublist (queue : ℕ → PushStatus) (k : ℕ) (msgs : List TickMessage) :
    (accepted queue k msgs).Sublist msgs := by
  induction msgs generalizing k with
  | nil => exact .slnil
  | cons m msgs ih =>
    rw [accepted]
    split
    · exact (ih (k + 1)).cons_cons m
    · exact (ih (k + 1)).cons m

/-- A queue with room takes all of them. -/
theorem accepted_of_room {queue : ℕ → PushStatus} (h : ∀ k, queue k = .ok) (k : ℕ)
    (msgs : List TickMessage) : accepted queue k msgs = msgs := by
  induction msgs generalizing k with
  | nil => rfl
  | cons m msgs ih => rw [accepted, if_pos (h k), ih]

/-- What pushing the recovered ticks changes. -/
theorem pushRecovered_eq (queue : ℕ → PushStatus) (msgs : List TickMessage) (k : ℕ) (r : Receiver) :
    ∃ recovered, pushRecovered queue msgs k r =
      { r with
        recovered := recovered
        enqueued := r.enqueued ++ (accepted queue k msgs).map (Prod.mk .recovered) } := by
  induction msgs generalizing k r with
  | nil => exact ⟨r.recovered, by simp [pushRecovered, accepted]⟩
  | cons m msgs ih =>
    rw [pushRecovered, accepted]
    by_cases hok : queue k = .ok
    · rw [if_pos hok, if_pos hok]
      obtain ⟨recovered, heq⟩ := ih (k + 1)
        (({ r with recovered := r.recovered + 1 } : Receiver).enqueue .recovered m)
      exact ⟨recovered, by rw [heq]; simp [enqueue]⟩
    · rw [if_neg hok, if_neg hok]
      exact ih (k + 1) r

/-- **One answer is harvested**: its ticks go to the queue, and it is no longer under way. -/
structure Harvest (queue : ℕ → PushStatus) (p : Recovery) (msgs : List TickMessage) (k : ℕ)
    (r r' : Receiver) : Prop where
  ready : p.progress = .ready msgs
  pending : r.pending.Perm (p :: r'.pending)
  rest : r' =
    { r with
      recovered := r'.recovered, pending := r'.pending
      enqueued := r.enqueued ++ (accepted queue k msgs).map (Prod.mk .recovered) }

/-- Answers are harvested one after the other. -/
def Harvests (queue : ℕ → PushStatus) : Receiver → Receiver → Prop :=
  ReflTransGen fun r r' => ∃ p msgs k, Harvest queue p msgs k r r'

/-- The loop harvests the requests that are ready. -/
theorem drainLoop_harvests (queue : ℕ → PushStatus) (fuel i k : ℕ) (r : Receiver) :
    Harvests queue r (drainLoop queue fuel i k r) := by
  induction fuel generalizing i k r with
  | zero => exact .refl
  | succ fuel ih =>
    rw [drainLoop]
    cases hp : r.pending[i]? with
    | none => exact .refl
    | some p =>
      dsimp only
      cases hprogress : p.progress with
      | asked => exact ih _ _ _
      | served srv => exact ih _ _ _
      | ready msgs =>
        dsimp only
        obtain ⟨recovered, heq⟩ := pushRecovered_eq queue msgs k r
        refine ReflTransGen.head ⟨p, msgs, k, hprogress, ?_, ?_⟩ (ih _ _ _)
        · rw [heq]
          exact perm_swap_pop hp
        · rw [heq]

/-- `drain_recoveries` harvests the requests that are ready. -/
theorem drainRecoveries_harvests (r : Receiver) (queue : ℕ → PushStatus) :
    Harvests queue r (r.drainRecoveries queue) :=
  drainLoop_harvests queue _ _ _ r

/-- **A request goes on**: one of those under way is replaced. -/
structure Advance (p p' : Recovery) (answers : List Answered) (r r' : Receiver) : Prop where
  request : p'.fromSeq = p.fromSeq ∧ p'.count = p.count
  pending : ∃ i, r.pending[i]? = some p ∧ r'.pending = r.pending.set i p'
  rest : r' = { r with pending := r'.pending, answered := r.answered ++ answers }

/-- An answer of the server reaches the request that asked. -/
theorem serve_cases (r : Receiver) (i : ℕ) (srv : SnapshotServer) :
    r.serve i srv = r ∨ ∃ p, r.pending[i]? = some p ∧ p.progress = .asked ∧
      Advance p { p with progress := .served srv } [] r (r.serve i srv) := by
  unfold serve
  cases hp : r.pending[i]? with
  | none => exact .inl rfl
  | some p =>
    obtain ⟨fromSeq, count, progress⟩ := p
    cases progress with
    | asked => exact .inr ⟨_, rfl, rfl, ⟨rfl, rfl⟩, ⟨i, hp, rfl⟩, by simp⟩
    | served srv' => exact .inl rfl
    | ready msgs => exact .inl rfl

/-- A request ends with what it was answered. -/
theorem finish_cases (r : Receiver) (i : ℕ) (success : Bool) :
    r.finish i success = r ∨ ∃ (p : Recovery) (srv : Option SnapshotServer),
      (∀ s, srv = some s → p.progress = .served s) ∧ (∀ msgs, p.progress ≠ .ready msgs) ∧
      Advance p { p with progress := .ready (Answered.mk p.fromSeq p.count srv).msgs }
        [⟨p.fromSeq, p.count, srv⟩] r (r.finish i success) := by
  unfold finish
  cases hp : r.pending[i]? with
  | none => exact .inl rfl
  | some p =>
    obtain ⟨fromSeq, count, progress⟩ := p
    cases progress with
    | asked =>
      cases success with
      | true => exact .inl rfl
      | false =>
        exact .inr ⟨⟨fromSeq, count, .asked⟩, none, fun s hs => (nomatch hs),
          fun msgs hc => (nomatch hc), ⟨rfl, rfl⟩, ⟨i, hp, rfl⟩, rfl⟩
    | served srv =>
      cases success with
      | true =>
        refine .inr ⟨⟨fromSeq, count, .served srv⟩, some srv, fun s hs => ?_,
          fun msgs hc => (nomatch hc), ⟨rfl, rfl⟩, ⟨i, hp, rfl⟩, rfl⟩
        rw [Option.some.inj hs]
      | false =>
        exact .inr ⟨⟨fromSeq, count, .served srv⟩, none, fun s hs => (nomatch hs),
          fun msgs hc => (nomatch hc), ⟨rfl, rfl⟩, ⟨i, hp, rfl⟩, rfl⟩
    | ready msgs => cases success <;> exact .inl rfl

end Receiver

end PulseForge
