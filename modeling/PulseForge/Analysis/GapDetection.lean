import PulseForge.Analysis.ReceiverSteps
import PulseForge.Analysis.SnapshotRing

/-!
# Gaps in the ticks

The receiver keeps the last number it received and takes everything between it and the next
one for missing. That is right as long as the last number is also the greatest: a tick that
comes late takes the receiver back, and the numbers above it are asked for again.
-/

set_option autoImplicit false

namespace PulseForge

open Relation

/-- The numbers of a gap. -/
def Gap.numbers (g : Gap) : List ℕ := List.range' g.start.toNat g.count.toNat

/-- The rings and the ticks of a request are as they should be. -/
def Recovery.Sound (p : Recovery) : Prop :=
  match p.progress with
  | .asked => True
  | .served srv => srv.WF
  | .ready msgs =>
    (msgs.map fun m => m.sequence.toNat).Sublist (List.range' p.fromSeq.toNat p.count.toNat)

namespace Receiver

variable {r r' : Receiver} {msg : TickMessage}

/-- The numbers of the ticks received, in the order in which they came. -/
def seqs (r : Receiver) : List ℕ := r.live.map fun m => m.sequence.toNat

/-- The numbers declared missing, gap by gap. -/
def missing (r : Receiver) : List ℕ := r.declared.flatMap Gap.numbers

/-! ## The invariant -/

/-- **The receiver has not been taken back**: what it declared missing is below the last number,
each number once, and none of them was received. -/
structure Tracked (r : Receiver) : Prop where
  none : r.haveLast = false → r.live = [] ∧ r.declared = []
  last : r.haveLast = true → r.lastSeq ∈ r.live.map TickMessage.sequence
  greatest : ∀ q ∈ r.seqs, q ≤ r.lastSeq.toNat
  below : ∀ q ∈ r.missing, q < r.lastSeq.toNat
  apart : ∀ q ∈ r.missing, q ∉ r.seqs
  nodup : r.missing.Nodup
  count : r.gaps = UInt64.ofNat r.missing.length
  fits : ∀ g ∈ r.declared, g.start.toNat + g.count.toNat < 2 ^ 64
  asked : ∀ p ∈ r.pending, ∃ g ∈ r.declared, g.start = p.fromSeq ∧ g.count = p.count
  sound : ∀ p ∈ r.pending, p.Sound
  live : ∀ m, (.live, m) ∈ r.enqueued → m ∈ r.live
  recovered : ∀ m, (.recovered, m) ∈ r.enqueued → m.sequence.toNat ∈ r.missing

/-- The tick is not behind the last one, and the number behind the last one exists. -/
def NotLate (r : Receiver) (msg : TickMessage) : Prop :=
  r.haveLast = true → r.lastSeq ≤ msg.sequence ∧ r.lastSeq ≠ 0 - 1

/-- The number behind the last one. -/
theorem NotLate.toNat_next (h : r.NotLate msg) (hhave : r.haveLast = true) :
    (r.lastSeq + 1).toNat = r.lastSeq.toNat + 1 := by
  have hne : r.lastSeq.toNat ≠ 2 ^ 64 - 1 := fun heq => (h hhave).2 (UInt64.toNat_inj.mp heq)
  have hbound := r.lastSeq.toNat_lt
  rw [UInt64.toNat_add]
  exact Nat.mod_eq_of_lt (by simp only [UInt64.toNat_one]; omega)

/-- The gap in front of a tick that is not late: all numbers between the last one and its own. -/
theorem gapOf_eq_some {start count : UInt64} (hnot : r.NotLate msg)
    (hgap : r.gapOf msg = some (start, count)) :
    r.haveLast = true ∧ start.toNat = r.lastSeq.toNat + 1 ∧
      start.toNat + count.toNat = msg.sequence.toNat := by
  unfold gapOf at hgap
  split at hgap
  · next hc =>
    rw [Bool.and_eq_true, decide_eq_true_iff] at hc
    obtain ⟨hhave, hlt⟩ := hc
    obtain ⟨rfl, rfl⟩ := Prod.mk.inj (Option.some.inj hgap)
    refine ⟨hhave, hnot.toNat_next hhave, ?_⟩
    rw [UInt64.toNat_sub_of_le _ _ (UInt64.le_of_lt hlt)]
    exact Nat.add_sub_cancel' (UInt64.le_iff_toNat_le.mp (UInt64.le_of_lt hlt))
  · exact nomatch hgap

/-! ## What a tick adds -/

/-- The numbers between the last tick and this one. -/
def missedOf (r : Receiver) (msg : TickMessage) : List ℕ :=
  if r.haveLast then
    List.range' (r.lastSeq.toNat + 1) (msg.sequence.toNat - (r.lastSeq.toNat + 1))
  else []

/-- A tick misses the numbers between the last one and its own. -/
theorem mem_missedOf {q : ℕ} : q ∈ r.missedOf msg ↔
    r.haveLast = true ∧ r.lastSeq.toNat < q ∧ q < msg.sequence.toNat := by
  unfold missedOf
  split
  · next hhave =>
    rw [List.mem_range'_1]
    constructor
    · intro hq
      exact ⟨hhave, by omega, by omega⟩
    · rintro ⟨-, hlt, hgt⟩
      exact ⟨by omega, by omega⟩
  · next hhave => simp [hhave]

/-- A tick misses a number once. -/
theorem nodup_missedOf (r : Receiver) (msg : TickMessage) : (r.missedOf msg).Nodup := by
  unfold missedOf
  split
  · exact List.nodup_range'
  · exact List.nodup_nil

/-- **What a tick adds**: the gap in front of it, when there is one, and the request for it, when
it is made. -/
structure Uncovers (r r' : Receiver) (msg : TickMessage) (opened : List Gap)
    (requests : List Recovery) : Prop where
  declared : r'.declared = r.declared ++ opened
  pending : r'.pending = r.pending ++ requests
  count : r'.gaps = r.gaps + UInt64.ofNat (r.missedOf msg).length
  numbers : opened.flatMap Gap.numbers = r.missedOf msg
  fits : ∀ g ∈ opened, g.start.toNat + g.count.toNat = msg.sequence.toNat
  asked : requests = (opened.filter fun g => g.dispatched).map fun g => ⟨g.start, g.count, .asked⟩

/-- No gap is in front of a tick that is not late: no number is between it and the last one. -/
theorem missedOf_of_noGap (hnot : r.NotLate msg) (hgap : r.gapOf msg = none) :
    r.missedOf msg = [] := by
  rw [List.eq_nil_iff_forall_not_mem]
  intro q hq
  obtain ⟨hhave, hlt, hgt⟩ := mem_missedOf.mp hq
  unfold gapOf at hgap
  split at hgap
  · exact nomatch hgap
  · next hc =>
    rw [Bool.and_eq_true, decide_eq_true_iff, not_and, UInt64.lt_iff_toNat_lt,
      hnot.toNat_next hhave] at hc
    exact absurd (hc hhave) (by omega)

/-- A tick that is not late uncovers what it missed. -/
theorem Took.uncovers {sent : List (Origin × TickMessage)} (htook : Took r msg sent r')
    (hnot : r.NotLate msg) : ∃ opened requests, Uncovers r r' msg opened requests := by
  cases hgap : r.gapOf msg with
  | none =>
    obtain ⟨hgaps, hdeclared, hpending⟩ := htook.noGap hgap
    have hmissed := missedOf_of_noGap hnot hgap
    refine ⟨[], [], ?_, ?_, ?_, hmissed.symm, fun g hg => absurd hg List.not_mem_nil, rfl⟩
    · rw [hdeclared, List.append_nil]
    · rw [hpending, List.append_nil]
    · rw [hgaps, hmissed]
      exact (UInt64.add_zero _).symm
  | some gap =>
    obtain ⟨start, count⟩ := gap
    obtain ⟨dispatched, -, hgaps, hdeclared, hpending⟩ := htook.gap start count hgap
    obtain ⟨hhave, hstart, hend⟩ := gapOf_eq_some hnot hgap
    have hmissed : r.missedOf msg = List.range' start.toNat count.toNat := by
      unfold missedOf
      rw [if_pos hhave, hstart]
      congr 1
      omega
    refine ⟨[⟨start, count, dispatched⟩], if dispatched then [⟨start, count, .asked⟩] else [],
      hdeclared, ?_, ?_, ?_, fun g hg => ?_, ?_⟩
    · rw [hpending]
      split
      · rfl
      · rw [List.append_nil]
    · rw [hgaps, hmissed, List.length_range', UInt64.ofNat_toNat]
    · rw [hmissed, List.flatMap_singleton]
      rfl
    · rw [List.mem_singleton.mp hg]
      exact hend
    · cases dispatched <;> rfl

/-- What was uncovered is missing. -/
theorem Uncovers.missing {opened : List Gap} {requests : List Recovery}
    (hu : Uncovers r r' msg opened requests) : r'.missing = r.missing ++ r.missedOf msg := by
  unfold Receiver.missing
  rw [hu.declared, List.flatMap_append, hu.numbers]

/-- A request that a tick adds is for a gap that it adds. -/
theorem Uncovers.mem_asked {opened : List Gap} {requests : List Recovery} {p : Recovery}
    (hu : Uncovers r r' msg opened requests) (hp : p ∈ requests) :
    p.progress = .asked ∧ ∃ g ∈ opened, g.start = p.fromSeq ∧ g.count = p.count := by
  rw [hu.asked] at hp
  obtain ⟨g, hg, rfl⟩ := List.mem_map.mp hp
  exact ⟨rfl, g, (List.mem_filter.mp hg).1, rfl, rfl⟩

/-- The number of the tick is one of those received. -/
theorem seqs_took {sent : List (Origin × TickMessage)} (htook : Took r msg sent r') :
    r'.seqs = r.seqs ++ [msg.sequence.toNat] := by
  unfold seqs
  rw [htook.live, List.map_append]
  rfl

namespace Tracked

/-- Everything so far is below a tick that is not late. -/
theorem below_next (h : r.Tracked) (hnot : r.NotLate msg) :
    (∀ q ∈ r.seqs, q ≤ msg.sequence.toNat) ∧ ∀ q ∈ r.missing, q < msg.sequence.toNat := by
  cases hhave : r.haveLast with
  | false =>
    obtain ⟨hlive, hdeclared⟩ := h.none hhave
    unfold seqs missing
    rw [hlive, hdeclared]
    exact ⟨fun q hq => absurd hq List.not_mem_nil, fun q hq => absurd hq List.not_mem_nil⟩
  | true =>
    have hle := UInt64.le_iff_toNat_le.mp (hnot hhave).1
    exact ⟨fun q hq => (h.greatest q hq).trans hle, fun q hq => (h.below q hq).trans_le hle⟩

/-- What the queue holds is accounted for when more is received and more is missing. -/
theorem enqueued_took {ends : PushEnd} (h : r.Tracked)
    (htook : Took r msg (if ends = .ok then [(.live, msg)] else []) r')
    (hmore : ∀ q ∈ r.missing, q ∈ r'.missing) :
    (∀ m, (.live, m) ∈ r'.enqueued → m ∈ r'.live) ∧
      ∀ m, (.recovered, m) ∈ r'.enqueued → m.sequence.toNat ∈ r'.missing := by
  rw [htook.enqueued, htook.live]
  have hsent : ∀ e ∈ (if ends = .ok then [(Origin.live, msg)] else []), e = (.live, msg) := by
    intro e he
    split at he
    · exact List.mem_singleton.mp he
    · exact absurd he List.not_mem_nil
  refine ⟨fun m hm => ?_, fun m hm => ?_⟩
  · rcases List.mem_append.mp hm with hm | hm
    · exact List.mem_append_left _ (h.live m hm)
    · rw [(Prod.mk.inj (hsent _ hm)).2]
      exact List.mem_append_right _ (List.mem_singleton.mpr rfl)
  · rcases List.mem_append.mp hm with hm | hm
    · exact hmore _ (h.recovered m hm)
    · exact nomatch (Prod.mk.inj (hsent _ hm)).1

/-- **A tick that is not late.** -/
theorem took {ends : PushEnd} (h : r.Tracked) (hnot : r.NotLate msg)
    (htook : Took r msg (if ends = .ok then [(.live, msg)] else []) r') : r'.Tracked := by
  obtain ⟨hseqs, hmissing⟩ := h.below_next hnot
  obtain ⟨opened, requests, hu⟩ := htook.uncovers hnot
  have hnew : ∀ q ∈ r.missedOf msg, r.lastSeq.toNat < q ∧ q < msg.sequence.toNat :=
    fun q hq => (mem_missedOf.mp hq).2
  obtain ⟨hlive, hrecovered⟩ := h.enqueued_took htook fun q hq => by
    rw [hu.missing]
    exact List.mem_append_left _ hq
  refine ⟨fun hc => ?_, fun _ => ?_, fun q hq => ?_, fun q hq => ?_, fun q hq hc => ?_, ?_, ?_,
    fun g hg => ?_, fun p hp => ?_, fun p hp => ?_, hlive, hrecovered⟩
  · exact nomatch htook.haveLast.symm.trans hc
  · rw [htook.lastSeq, htook.live, List.map_append]
    exact List.mem_append_right _ (List.mem_singleton.mpr rfl)
  · rw [htook.lastSeq]
    rw [seqs_took htook] at hq
    rcases List.mem_append.mp hq with hq | hq
    · exact hseqs q hq
    · exact (List.mem_singleton.mp hq).le
  · rw [htook.lastSeq]
    rw [hu.missing] at hq
    rcases List.mem_append.mp hq with hq | hq
    · exact hmissing q hq
    · exact (hnew q hq).2
  · rw [hu.missing] at hq
    rw [seqs_took htook] at hc
    rcases List.mem_append.mp hc with hc | hc
    · rcases List.mem_append.mp hq with hq | hq
      · exact h.apart q hq hc
      · exact absurd (h.greatest q hc) (not_le.mpr (hnew q hq).1)
    · rw [List.mem_singleton.mp hc] at hq
      rcases List.mem_append.mp hq with hq | hq
      · exact (hmissing _ hq).false
      · exact (hnew _ hq).2.false
  · rw [hu.missing]
    refine List.nodup_append'.mpr ⟨h.nodup, nodup_missedOf r msg, fun q hq hc => ?_⟩
    exact absurd (h.below q hq) (not_lt.mpr (hnew q hc).1.le)
  · rw [hu.missing, List.length_append, hu.count, h.count, UInt64.ofNat_add]
  · rw [hu.declared] at hg
    rcases List.mem_append.mp hg with hg | hg
    · exact h.fits g hg
    · rw [hu.fits g hg]
      exact msg.sequence.toNat_lt
  · rw [hu.declared]
    rw [hu.pending] at hp
    rcases List.mem_append.mp hp with hp | hp
    · obtain ⟨g, hg, heq⟩ := h.asked p hp
      exact ⟨g, List.mem_append_left _ hg, heq⟩
    · obtain ⟨-, g, hg, heq⟩ := hu.mem_asked hp
      exact ⟨g, List.mem_append_right _ hg, heq⟩
  · rw [hu.pending] at hp
    rcases List.mem_append.mp hp with hp | hp
    · exact h.sound p hp
    · unfold Recovery.Sound
      rw [(hu.mem_asked hp).1]
      trivial

/-- **A datagram that is no tick** leaves everything but its counter. -/
theorem invalid (h : r.Tracked) {invalid : UInt64} : { r with invalid := invalid }.Tracked :=
  ⟨h.none, h.last, h.greatest, h.below, h.apart, h.nodup, h.count, h.fits, h.asked, h.sound, h.live,
    h.recovered⟩

/-- **An answer is harvested.** -/
theorem harvest {queue : ℕ → PushStatus} {p : Recovery} {msgs : List TickMessage} {k : ℕ}
    (h : r.Tracked) (hh : Harvest queue p msgs k r r') : r'.Tracked := by
  have hp : p ∈ r.pending := hh.pending.mem_iff.mpr List.mem_cons_self
  have hless : ∀ p' ∈ r'.pending, p' ∈ r.pending :=
    fun p' hp' => hh.pending.mem_iff.mpr (List.mem_cons_of_mem _ hp')
  have hmsgs : ∀ m ∈ msgs, m.sequence.toNat ∈ r.missing := by
    intro m hm
    obtain ⟨g, hg, hstart, hcount⟩ := h.asked p hp
    have hsound := h.sound p hp
    unfold Recovery.Sound at hsound
    rw [hh.ready] at hsound
    refine List.mem_flatMap.mpr ⟨g, hg, ?_⟩
    unfold Gap.numbers
    rw [hstart, hcount]
    exact hsound.subset (List.mem_map_of_mem hm)
  rw [hh.rest]
  refine ⟨h.none, h.last, h.greatest, h.below, h.apart, h.nodup, h.count, h.fits,
    fun p' hp' => h.asked p' (hless p' hp'), fun p' hp' => h.sound p' (hless p' hp'),
    fun m hm => ?_, fun m hm => ?_⟩
  · rcases List.mem_append.mp hm with hm | hm
    · exact h.live m hm
    · obtain ⟨m', -, heq⟩ := List.mem_map.mp hm
      exact nomatch (Prod.mk.inj heq).1
  · rcases List.mem_append.mp hm with hm | hm
    · exact h.recovered m hm
    · obtain ⟨m', hm', heq⟩ := List.mem_map.mp hm
      rw [← (Prod.mk.inj heq).2]
      exact hmsgs m' ((accepted_sublist queue k msgs).subset hm')

/-- Harvesting keeps the gaps tracked. -/
theorem harvests {queue : ℕ → PushStatus} (h : r.Tracked) (hh : Harvests queue r r') :
    r'.Tracked := by
  induction hh with
  | refl => exact h
  | tail _ hstep ih =>
    obtain ⟨p, msgs, k, hone⟩ := hstep
    exact ih.harvest hone

/-- **A request goes on.** -/
theorem advance {p p' : Recovery} {answers : List Answered} (h : r.Tracked)
    (ha : Advance p p' answers r r') (hsound : p ∈ r.pending → p'.Sound) : r'.Tracked := by
  obtain ⟨i, hi, hset⟩ := ha.pending
  have hp : p ∈ r.pending := List.mem_of_getElem? hi
  have hmem : ∀ q ∈ r'.pending, q ∈ r.pending ∨ q = p' := by
    intro q hq
    rw [hset] at hq
    exact List.mem_or_eq_of_mem_set hq
  rw [ha.rest]
  refine ⟨h.none, h.last, h.greatest, h.below, h.apart, h.nodup, h.count, h.fits, fun q hq => ?_,
    fun q hq => ?_, h.live, h.recovered⟩
  · rcases hmem q hq with hq | rfl
    · exact h.asked q hq
    · rw [ha.request.1, ha.request.2]
      exact h.asked p hp
  · rcases hmem q hq with hq | rfl
    · exact h.sound q hq
    · exact hsound hp

/-- An answer of the server keeps the gaps tracked. -/
theorem serve {srv : SnapshotServer} (h : r.Tracked) (hsrv : srv.WF) (i : ℕ) :
    (r.serve i srv).Tracked := by
  rcases r.serve_cases i srv with heq | ⟨p, -, -, ha⟩
  · rw [heq]
    exact h
  · exact h.advance ha fun _ => hsrv

/-- What an answer holds. -/
theorem msgs_sublist {p : Recovery} {srv : Option SnapshotServer} (h : r.Tracked)
    (hp : p ∈ r.pending) (hsrv : ∀ s, srv = some s → p.progress = .served s) :
    ((Answered.mk p.fromSeq p.count srv).msgs.map fun m => m.sequence.toNat).Sublist
      (List.range' p.fromSeq.toNat p.count.toNat) := by
  cases srv with
  | none => exact List.nil_sublist _
  | some s =>
    have hsound := h.sound p hp
    unfold Recovery.Sound at hsound
    rw [hsrv s rfl] at hsound
    obtain ⟨g, hg, hstart, hcount⟩ := h.asked p hp
    have hfits := h.fits g hg
    rw [hstart, hcount] at hfits
    exact SnapshotServer.handleClient_sublist hsound hfits

/-- The end of a request keeps the gaps tracked. -/
theorem finish (h : r.Tracked) (i : ℕ) (success : Bool) : (r.finish i success).Tracked := by
  rcases r.finish_cases i success with heq | ⟨p, srv, hsrv, -, ha⟩
  · rw [heq]
    exact h
  · exact h.advance ha fun hp => h.msgs_sublist hp hsrv

end Tracked

end Receiver

namespace TickSystem

open Receiver

variable {s : TickSystem}

/-! ## Runs -/

/-- The numbers of the ticks that arrive. -/
def arrivals (acts : List Act) : List UInt64 :=
  acts.filterMap fun
    | .arrive msg whole _ _ => if Takes msg whole then some msg.sequence else none
    | _ => none

/-- **Ticks in order**: none arrives behind one of a greater number, and none behind number
`UINT64_MAX`. -/
def InOrder (seqs : List UInt64) : Prop := seqs.Pairwise fun a b => a ≤ b ∧ a ≠ 0 - 1

instance (seqs : List UInt64) : Decidable (InOrder seqs) :=
  inferInstanceAs (Decidable (seqs.Pairwise _))

/-- The gap that a step declares. -/
def declares (s : TickSystem) : Act → Option (UInt64 × UInt64)
  | .arrive msg whole _ _ => if Takes msg whole then s.receiver.gapOf msg else none
  | _ => none

/-- The state of the receiver and of the ring. -/
structure Inv (s : TickSystem) : Prop where
  srv : s.srv.WF
  tracked : s.receiver.Tracked

/-- An act brings the tick that arrives. -/
theorem live_step (s : TickSystem) (act : Act) :
    (s.step act).receiver.live.map TickMessage.sequence =
      s.receiver.live.map TickMessage.sequence ++ arrivals [act] := by
  have hsame : ∀ l : List UInt64, l = l ++ [] := fun l => (List.append_nil l).symm
  cases act with
  | record msg => exact hsame _
  | arrive msg whole fulls ends =>
    show (s.receiver.processOne msg whole fulls ends).live.map _ = _
    by_cases htakes : Takes msg whole
    · rw [(processOne_took htakes fulls ends).live, List.map_append]
      simp [arrivals, htakes]
    · rw [processOne_of_not_takes htakes]
      simp [arrivals, htakes]
  | serve i =>
    rcases s.receiver.serve_cases i s.srv with heq | ⟨p, -, -, ha⟩
    · show (s.receiver.serve i s.srv).live.map _ = _
      rw [heq]
      exact hsame _
    · show (s.receiver.serve i s.srv).live.map _ = _
      rw [ha.rest]
      exact hsame _
  | finish i success =>
    rcases s.receiver.finish_cases i success with heq | ⟨p, srv, -, -, ha⟩
    · show (s.receiver.finish i success).live.map _ = _
      rw [heq]
      exact hsame _
    · show (s.receiver.finish i success).live.map _ = _
      rw [ha.rest]
      exact hsame _
  | drain queue =>
    have hharvests := s.receiver.drainRecoveries_harvests queue
    show (s.receiver.drainRecoveries queue).live.map _ = _
    generalize s.receiver.drainRecoveries queue = r at hharvests
    induction hharvests with
    | refl => exact hsame _
    | tail _ hstep ih =>
      obtain ⟨p, msgs, k, hone⟩ := hstep
      rw [hone.rest]
      exact ih

/-- A tick that arrives in order is not late. -/
theorem notLate_of_inOrder {msg : TickMessage} (h : s.Inv)
    (hord : InOrder (s.receiver.live.map TickMessage.sequence ++ [msg.sequence])) :
    s.receiver.NotLate msg := by
  intro hhave
  exact (List.pairwise_append.mp hord).2.2 _ (h.tracked.last hhave) _ List.mem_cons_self

/-- Every act keeps the gaps tracked while ticks arrive in order. -/
theorem Inv.step (h : s.Inv) (act : Act)
    (hord : InOrder (s.receiver.live.map TickMessage.sequence ++ arrivals [act])) :
    (s.step act).Inv := by
  cases act with
  | record msg => exact ⟨h.srv.record msg, h.tracked⟩
  | arrive msg whole fulls ends =>
    refine ⟨h.srv, ?_⟩
    show (s.receiver.processOne msg whole fulls ends).Tracked
    by_cases htakes : Takes msg whole
    · have hnot : s.receiver.NotLate msg := by
        refine notLate_of_inOrder h ?_
        simpa [arrivals, htakes] using hord
      exact h.tracked.took hnot (processOne_took htakes fulls ends)
    · rw [processOne_of_not_takes htakes]
      exact h.tracked.invalid
  | serve i => exact ⟨h.srv, h.tracked.serve h.srv i⟩
  | finish i success => exact ⟨h.srv, h.tracked.finish i success⟩
  | drain queue => exact ⟨h.srv, h.tracked.harvests (s.receiver.drainRecoveries_harvests queue)⟩

theorem arrivals_cons (act : Act) (acts : List Act) :
    arrivals (act :: acts) = arrivals [act] ++ arrivals acts :=
  @List.filterMap_append _ _ [act] acts _

/-- A run with ticks in order keeps the gaps tracked. -/
theorem Inv.after (h : s.Inv) (acts : List Act)
    (hord : InOrder (s.receiver.live.map TickMessage.sequence ++ arrivals acts)) :
    (s.after acts).Inv ∧
      (s.after acts).receiver.live.map TickMessage.sequence =
        s.receiver.live.map TickMessage.sequence ++ arrivals acts := by
  induction acts generalizing s with
  | nil => exact ⟨h, (List.append_nil _).symm⟩
  | cons act acts ih =>
    rw [arrivals_cons, ← List.append_assoc] at hord ⊢
    have hstep := h.step act (List.pairwise_append.mp hord).1
    rw [← s.live_step act] at hord ⊢
    exact ih hstep hord

/-! ## Asking once -/

/-- **The receiver asks for nothing that it has**, in a state and with the step `act` from it: a
gap that the step declares holds no number received or declared before; the numbers declared are
as many as `sequence_gaps` counts, each once; and no tick is in the queue as received and, behind
that, as recovered. -/
structure NeverAsksAgain (s : TickSystem) (act : Act) : Prop where
  fresh : ∀ start count, s.declares act = some (start, count) →
    ∀ q ∈ List.range' start.toNat count.toNat, q ∉ s.receiver.seqs ∧ q ∉ s.receiver.missing
  once : s.receiver.missing.Nodup
  counted : s.receiver.gaps = UInt64.ofNat s.receiver.missing.length
  separate : ∀ (i j : ℕ) (m m' : TickMessage), i < j → s.receiver.enqueued[i]? = some (.live, m) →
    s.receiver.enqueued[j]? = some (.recovered, m') → m.sequence ≠ m'.sequence

/-- No number is asked for twice. -/
theorem Inv.neverAsksAgain (h : s.Inv) (act : Act)
    (hord : InOrder (s.receiver.live.map TickMessage.sequence ++ arrivals [act])) :
    s.NeverAsksAgain act := by
  have ht := h.tracked
  refine ⟨fun start count hdeclares q hq => ?_, ht.nodup, ht.count, fun i j m m' _ hi hj heq => ?_⟩
  · cases act with
    | arrive msg whole fulls ends =>
      unfold declares at hdeclares
      dsimp only at hdeclares
      split at hdeclares
      · next htakes =>
        have hnot : s.receiver.NotLate msg := by
          refine notLate_of_inOrder h ?_
          simpa [arrivals, htakes] using hord
        obtain ⟨-, hstart, -⟩ := gapOf_eq_some hnot hdeclares
        have hge := (List.mem_range'_1.mp hq).1
        refine ⟨fun hc => ?_, fun hc => ?_⟩
        · have hle := ht.greatest q hc
          omega
        · have hlt := ht.below q hc
          omega
      · exact nomatch hdeclares
    | record msg | serve i | finish i success | drain queue => exact nomatch hdeclares
  · have hlive := ht.live m (List.mem_of_getElem? hi)
    have hmissing := ht.recovered m' (List.mem_of_getElem? hj)
    rw [← heq] at hmissing
    exact ht.apart _ hmissing (List.mem_map_of_mem hlive)

/-- A new receiver has no gaps. -/
theorem inv_new (snapshotEnabled : Bool) : Inv (new snapshotEnabled) := by
  refine ⟨SnapshotServer.wf_new, fun _ => ⟨rfl, rfl⟩, fun hc => (nomatch hc), ?_, ?_, ?_,
    List.nodup_nil, rfl, ?_, ?_, ?_, ?_, ?_⟩
  all_goals exact fun _ hm => absurd hm List.not_mem_nil

/-- **Ticks in order are asked for once.** In every run whose ticks arrive in order, whatever the
queue and the recovery service do. -/
theorem neverAsksAgain_of_inOrder (snapshotEnabled : Bool) (acts : List Act) (act : Act)
    (hord : InOrder (arrivals (acts ++ [act]))) :
    NeverAsksAgain ((new snapshotEnabled).after acts) act := by
  unfold arrivals at hord
  rw [List.filterMap_append] at hord
  obtain ⟨hinv, hlive⟩ := (inv_new snapshotEnabled).after acts (List.pairwise_append.mp hord).1
  apply hinv.neverAsksAgain
  rw [hlive]
  exact hord

/-- A tick of a number. -/
def tick (sequence : UInt64) : TickMessage := ⟨sequence, 0, 0, 0, 1, 1⟩

/-- The tick arrives, and the queue takes it. -/
def arrives (sequence : UInt64) : Act := .arrive (tick sequence) true 0 .ok

/-- Tick 2 is lost: it is asked for once. -/
theorem neverAsksAgain_of_lost :
    NeverAsksAgain ((new true).after [arrives 1, arrives 3]) (arrives 4) :=
  neverAsksAgain_of_inOrder true [arrives 1, arrives 3] (arrives 4) (by decide)

/-- **Tick 2 comes late**: it takes the receiver back, and with tick 4 it asks for tick 3, which
it has. -/
theorem late_tick_asked_again :
    ∃ (acts : List Act) (act : Act), ¬ NeverAsksAgain ((new true).after acts) act := by
  refine ⟨[arrives 1, arrives 3, arrives 2], arrives 4, fun h => ?_⟩
  have hfresh := h.fresh 3 1 (by decide) 3 (by decide)
  exact hfresh.1 (by decide)

end TickSystem

end PulseForge
