import PulseForge.Foundation.RingWindow
import PulseForge.Model.EventRing

/-!
# What the telemetry reader reports

The events are numbered in the order in which they were recorded. A poll reports the numbers that
are new to it, or the last ones when more are new than the ring holds. The number of new events is
counted in 64 bits: a backlog that comes round and leaves less than a ring behind is not seen.
-/

set_option autoImplicit false

namespace PulseForge.Telemetry

open Foundation

/-- The event a call records. -/
def Action.event : Action → Option TickEvent
  | .record type sequence tsNs latencyNs workerId =>
    some ⟨type.code, workerId, sequence, tsNs, latencyNs⟩
  | .poll => none

/-- The events of a run, in record order. -/
def recorded (actions : List Action) : List TickEvent := actions.filterMap Action.event

/-- How many events there are at each poll, when there are `n` at the start. -/
def pollCounts : ℕ → List Action → List ℕ
  | _, [] => []
  | n, .record .. :: actions => pollCounts (n + 1) actions
  | n, .poll :: actions => n :: pollCounts n actions

/-- How many events there are at the first poll behind event number `k`. -/
def firstPoll (actions : List Action) (k : ℕ) : Option ℕ :=
  (pollCounts 0 actions).find? fun n => k < n

/-- How many events are new at each poll: `n` events, of which the first `p` were polled. -/
def backlogs : ℕ → ℕ → List Action → List ℕ
  | _, _, [] => []
  | p, n, .record .. :: actions => backlogs p (n + 1) actions
  | p, n, .poll :: actions => (n - p) :: backlogs n n actions

/-- **Every event is reported at most once, and only what was overwritten is lost**: the reports
are the events of increasing numbers, and of the events behind which there is a poll those are
missing from which on more than a ring of events had been recorded at the first of them. -/
def ReportsOnce (ring : SharedEventRing) (actions : List Action) : Prop :=
  ∃ numbers : List ℕ, numbers.Pairwise (· < ·) ∧
    (reports ring actions).map some = numbers.map (fun k => (recorded actions)[k]?) ∧
    (∀ k ∈ numbers, (firstPoll actions k).isSome) ∧
    ∀ k n, firstPoll actions k = some n → (k ∉ numbers ↔ kEventRingCapacity < n - k)

/-- A backlog that the counter tells from a shorter one. -/
def Told (backlog : ℕ) : Prop := backlog < 2 ^ 64 ∨ kEventRingCapacity ≤ backlog % 2 ^ 64

/-! ## One poll -/

/-- The ring holds the last of the events `xs`, and the first `p` were polled. -/
structure Tracks (t : Telemetry) (xs : List TickEvent) (p : ℕ) : Prop where
  writeIndex : t.ring.writeIndex = UInt64.ofNat xs.length
  length : t.ring.events.length = kEventRingCapacity
  window : Window t.ring.events xs (xs.length - kEventRingCapacity) xs.length
  lastSeen : t.lastSeen = UInt64.ofNat p
  polled : p ≤ xs.length

variable {t : Telemetry} {xs : List TickEvent} {p : ℕ}

/-- An empty ring tracks no events. -/
theorem tracks_start {ring : SharedEventRing} (h : ring.events.length = kEventRingCapacity) :
    Tracks { ring := ring.reset } [] 0 := by
  constructor
  · rfl
  · exact h
  · exact window_empty _ _ _
  · rfl
  · exact le_rfl

/-- The ring tracks one event more. -/
theorem Tracks.record (h : Tracks t xs p) (e : TickEvent) :
    Tracks { t with ring := t.ring.record e } (xs ++ [e]) p := by
  have hlen : (xs ++ [e]).length = xs.length + 1 := List.length_append
  have hslot : t.ring.writeIndex.toNat % kEventRingCapacity =
      xs.length % t.ring.events.length := by
    have hdvd : kEventRingCapacity ∣ 2 ^ 64 := by decide
    rw [h.writeIndex, h.length, UInt64.toNat_ofNat', Nat.mod_mod_of_dvd _ hdvd]
  have hpos : 0 < kEventRingCapacity := by decide
  constructor
  · change t.ring.writeIndex + 1 = _
    rw [hlen, h.writeIndex, cursor_succ]
  · change (t.ring.events.set _ e).length = _
    rw [List.length_set, h.length]
  · change Window (t.ring.events.set _ e) _ _ _
    rw [hslot, hlen]
    have hlower : xs.length - kEventRingCapacity ≤ xs.length + 1 - kEventRingCapacity := by omega
    have hset := (h.window.mono hlower).set (by rw [h.length]; omega) e
    apply hset.push rfl
    have hlt : xs.length % t.ring.events.length < t.ring.events.length :=
      Nat.mod_lt _ (by rw [h.length]; exact hpos)
    rw [List.length_set, List.getElem?_set_self hlt]
  · exact h.lastSeen
  · rw [hlen]
    exact h.polled.trans (Nat.le_succ _)

/-- The loop reads the events from number `n - k` on, given as many rounds as there are. -/
theorem readLoop_eq {ring : SharedEventRing} {n : ℕ} (hlen : ring.events.length = kEventRingCapacity)
    (hwindow : Window ring.events xs (n - kEventRingCapacity) n) (hn : n = xs.length) (k : ℕ)
    (hk : k ≤ n) (hcap : k ≤ kEventRingCapacity) (fuel : ℕ) (hfuel : k ≤ fuel) :
    (ring.readLoop (UInt64.ofNat n) fuel (UInt64.ofNat (n - k))).map some =
      (List.range' (n - k) k).map (fun i => xs[i]?) := by
  have hsmall : kEventRingCapacity < 2 ^ 64 := by decide
  induction k generalizing fuel with
  | zero =>
    cases fuel with
    | zero => rfl
    | succ fuel =>
      rw [SharedEventRing.readLoop, Nat.sub_zero, if_pos rfl]
      rfl
  | succ k ih =>
    obtain ⟨fuel, rfl⟩ : ∃ f, fuel = f + 1 := ⟨fuel - 1, by omega⟩
    have hgo : ¬ UInt64.ofNat (n - (k + 1)) = UInt64.ofNat n := by
      rw [cursor_eq_iff (by omega) (by omega)]
      omega
    have hnext : n - (k + 1) + 1 = n - k := by omega
    have hslot : (UInt64.ofNat (n - (k + 1))).toNat % kEventRingCapacity =
        (n - (k + 1)) % ring.events.length := by
      have hdvd : kEventRingCapacity ∣ 2 ^ 64 := by decide
      rw [hlen, UInt64.toNat_ofNat', Nat.mod_mod_of_dvd _ hdvd]
    have hread : some (ring.events.getD ((UInt64.ofNat (n - (k + 1))).toNat % kEventRingCapacity)
        default) = xs[n - (k + 1)]? := by
      have hentry := hwindow (n - (k + 1)) (by omega) (by omega)
      rw [hslot, List.getD_eq_getElem?_getD, hentry, List.getElem?_eq_getElem (by omega)]
      rfl
    rw [SharedEventRing.readLoop, if_neg hgo, List.map_cons, hread, cursor_succ, hnext,
      ih (by omega) (by omega) fuel (by omega), List.range'_succ, List.map_cons, hnext]

/-- **One poll** reports the events that the counter says are new, or a ring of them. -/
theorem Tracks.poll (h : Tracks t xs p) :
    ((t.ring.poll t.lastSeen).1).map some =
      (List.range' (xs.length - min ((xs.length - p) % 2 ^ 64) kEventRingCapacity)
        (min ((xs.length - p) % 2 ^ 64) kEventRingCapacity)).map (fun i => xs[i]?) ∧
    (t.ring.poll t.lastSeen).2 = UInt64.ofNat xs.length := by
  have hpolled := h.polled
  have hmod := Nat.mod_le (xs.length - p) (2 ^ 64)
  have hcount : (t.ring.writeIndex - t.lastSeen).toNat = (xs.length - p) % 2 ^ 64 := by
    rw [h.writeIndex, h.lastSeen, UInt64.toNat_sub, UInt64.toNat_ofNat', UInt64.toNat_ofNat']
    omega
  unfold SharedEventRing.poll
  dsimp only
  rw [hcount]
  split_ifs with hbehind
  · refine ⟨?_, h.writeIndex⟩
    have hstart : t.ring.writeIndex - UInt64.ofNat kEventRingCapacity =
        UInt64.ofNat (xs.length - kEventRingCapacity) := by
      apply UInt64.toNat_inj.mp
      have hsmall : kEventRingCapacity < 2 ^ 64 := by decide
      rw [h.writeIndex, UInt64.toNat_sub, UInt64.toNat_ofNat', UInt64.toNat_ofNat',
        UInt64.toNat_ofNat']
      omega
    rw [hstart, h.writeIndex, Nat.min_eq_right hbehind.le]
    dsimp only
    exact readLoop_eq h.length h.window rfl kEventRingCapacity (by omega) (Nat.le_refl _)
      kEventRingCapacity (Nat.le_refl _)
  · refine ⟨?_, h.writeIndex⟩
    have hstart : t.lastSeen = UInt64.ofNat (xs.length - (xs.length - p) % 2 ^ 64) := by
      apply UInt64.toNat_inj.mp
      rw [h.lastSeen, UInt64.toNat_ofNat', UInt64.toNat_ofNat']
      omega
    rw [hstart, h.writeIndex, Nat.min_eq_left (by omega)]
    dsimp only
    exact readLoop_eq h.length h.window rfl ((xs.length - p) % 2 ^ 64) (by omega) (by omega)
      ((xs.length - p) % 2 ^ 64) (Nat.le_refl _)

/-! ## Runs -/

/-- A later poll is the first one behind. -/
theorem find?_poll_of_lt {k n : ℕ} (h : k < n) (ns : List ℕ) :
    (n :: ns).find? (fun n => k < n) = some n :=
  List.find?_cons_of_pos (decide_eq_true h)

/-- An earlier poll is passed over. -/
theorem find?_poll_of_ge {k n : ℕ} (h : n ≤ k) (ns : List ℕ) :
    (n :: ns).find? (fun n => k < n) = ns.find? fun n => k < n :=
  List.find?_cons_of_neg (by simpa using h)

/-- A backlog that the counter tells is not cut. -/
theorem Told.min_eq {backlog : ℕ} (h : Told backlog) :
    min (backlog % 2 ^ 64) kEventRingCapacity = min backlog kEventRingCapacity := by
  have hmod := Nat.mod_le backlog (2 ^ 64)
  rcases h with hlt | hle
  · rw [Nat.mod_eq_of_lt hlt]
  · rw [Nat.min_eq_right hle, Nat.min_eq_right (hle.trans hmod)]

/-- What is reported from now on, `xs` being the events so far and `p` the number of those that
the reader has seen: `numbers` are the places of the events reported. -/
structure Reported (xs : List TickEvent) (p : ℕ) (actions : List Action) (reports : List TickEvent)
    (numbers : List ℕ) : Prop where
  increasing : numbers.Pairwise (· < ·)
  unseen : ∀ k ∈ numbers, p ≤ k
  reports : reports.map some = numbers.map fun k => (xs ++ recorded actions)[k]?
  polled : ∀ k ∈ numbers, ((pollCounts xs.length actions).find? fun n => k < n).isSome
  lost : ∀ k n, p ≤ k → ((pollCounts xs.length actions).find? fun n => k < n) = some n →
    (k ∉ numbers ↔ kEventRingCapacity < n - k)

/-- An event is recorded in front of the other actions. -/
theorem Reported.record {actions : List Action} {reports : List TickEvent} {numbers : List ℕ}
    {e : TickEvent} {type : EventType} {sequence tsNs latencyNs : UInt64} {workerId : UInt32}
    (he : e = ⟨type.code, workerId, sequence, tsNs, latencyNs⟩)
    (h : Reported (xs ++ [e]) p actions reports numbers) :
    Reported xs p (.record type sequence tsNs latencyNs workerId :: actions) reports numbers := by
  have hpolled := h.polled
  have hlost := h.lost
  rw [List.length_append, List.length_singleton] at hpolled hlost
  refine ⟨h.increasing, h.unseen, ?_, hpolled, hlost⟩
  rw [h.reports, List.append_assoc, he]
  rfl

/-- A poll in front of the other actions reports the last events, a ring of them at most. -/
theorem Reported.poll {actions : List Action} {reports now : List TickEvent} {numbers : List ℕ}
    (h : Reported xs xs.length actions reports numbers) (hp : p ≤ xs.length) {r : ℕ}
    (hr : r = min (xs.length - p) kEventRingCapacity)
    (hnow : now.map some = (List.range' (xs.length - r) r).map fun i => xs[i]?) :
    Reported xs p (.poll :: actions) (now ++ reports)
      (List.range' (xs.length - r) r ++ numbers) := by
  have hnew : ∀ k ∈ List.range' (xs.length - r) r, xs.length - r ≤ k ∧ k < xs.length := by
    intro k hk
    have hrange := List.mem_range'_1.mp hk
    omega
  constructor
  · apply List.pairwise_append.mpr
    refine ⟨List.pairwise_lt_range', h.increasing, ?_⟩
    intro k hk k' hk'
    exact (hnew k hk).2.trans_le (h.unseen k' hk')
  · intro k hk
    rcases List.mem_append.mp hk with hk | hk
    · have hk' := hnew k hk
      omega
    · exact hp.trans (h.unseen k hk)
  · have hevents : recorded (.poll :: actions) = recorded actions := rfl
    rw [List.map_append, hnow, h.reports, List.map_append, hevents]
    congr 1
    apply List.map_congr_left
    intro k hk
    rw [List.getElem?_append_left (hnew k hk).2]
  · intro k hk
    rcases List.mem_append.mp hk with hk | hk
    · rw [pollCounts, find?_poll_of_lt (hnew k hk).2]
      rfl
    · rw [pollCounts, find?_poll_of_ge (h.unseen k hk)]
      exact h.polled k hk
  · intro k n hk hn
    rw [pollCounts] at hn
    by_cases hlt : k < xs.length
    · -- the poll is the first one behind the event
      rw [find?_poll_of_lt hlt, Option.some.injEq] at hn
      subst hn
      have hold : k ∉ numbers := fun hmem => absurd (h.unseen k hmem) (not_le.mpr hlt)
      rw [List.mem_append, or_iff_left hold, List.mem_range'_1]
      omega
    · rw [find?_poll_of_ge (not_lt.mp hlt)] at hn
      have hnot : k ∉ List.range' (xs.length - r) r := fun hmem => hlt (hnew k hmem).2
      rw [List.mem_append, or_iff_right hnot]
      exact h.lost k n (not_lt.mp hlt) hn

/-- **A run** from any state of the ring and the reader. -/
theorem Tracks.run (h : Tracks t xs p) (actions : List Action)
    (htold : ∀ backlog ∈ backlogs p xs.length actions, Told backlog) :
    ∃ numbers : List ℕ,
      Reported xs p actions (Foundation.run step t actions).2.flatten numbers := by
  induction actions generalizing t xs p with
  | nil => exact ⟨[], .nil, by simp, rfl, by simp, by simp [pollCounts]⟩
  | cons a actions ih =>
    cases a with
    | record type sequence tsNs latencyNs workerId =>
      have hrest := ih (h.record ⟨type.code, workerId, sequence, tsNs, latencyNs⟩)
      rw [List.length_append] at hrest
      obtain ⟨numbers, hreported⟩ := hrest htold
      exact ⟨numbers, hreported.record rfl⟩
    | poll =>
      obtain ⟨hreport, hseen⟩ := h.poll
      have hbacklog : Told (xs.length - p) := htold _ List.mem_cons_self
      rw [hbacklog.min_eq] at hreport
      have hnext : Tracks { t with lastSeen := (t.ring.poll t.lastSeen).2 } xs xs.length :=
        ⟨h.writeIndex, h.length, h.window, hseen, le_rfl⟩
      obtain ⟨numbers, hreported⟩ := ih hnext fun b hb => htold b (List.mem_cons_of_mem _ hb)
      exact ⟨_, hreported.poll h.polled rfl hreport⟩

/-- **The reader reports each event at most once and loses only overwritten ones**, in every run in
which the counter tells the backlog of every poll. -/
theorem reports_once (ring : SharedEventRing) (hring : ring.events.length = kEventRingCapacity)
    (actions : List Action) (htold : ∀ backlog ∈ backlogs 0 0 actions, Told backlog) :
    ReportsOnce ring actions := by
  obtain ⟨numbers, h⟩ := (tracks_start hring).run actions htold
  exact ⟨numbers, h.increasing, h.reports, h.polled, fun k n hn => h.lost k n (Nat.zero_le k) hn⟩

/-! ## A backlog that comes round -/

/-- A ring in which nothing was recorded yet. -/
def emptyRing : SharedEventRing := ⟨0, List.replicate kEventRingCapacity default⟩

/-- A received tick. -/
def received : Action := .record .received 1 0 0 0

/-- The counts at the polls, with events in front. -/
theorem pollCounts_replicate (m n : ℕ) (rest : List Action) :
    pollCounts n (List.replicate m received ++ rest) = pollCounts (n + m) rest := by
  induction m generalizing n with
  | zero => rfl
  | succ m ih =>
    have hnext : n + (m + 1) = n + 1 + m := by omega
    rw [hnext, ← ih (n + 1)]
    rfl

/-- The backlogs at the polls, with events in front. -/
theorem backlogs_replicate (m p n : ℕ) (rest : List Action) :
    backlogs p n (List.replicate m received ++ rest) = backlogs p (n + m) rest := by
  induction m generalizing n with
  | zero => rfl
  | succ m ih =>
    have hnext : n + (m + 1) = n + 1 + m := by omega
    rw [hnext, ← ih (n + 1)]
    rfl

/-- One event more than the ring holds before the first poll, and one before the second. -/
def overwriting : List Action :=
  List.replicate (kEventRingCapacity + 1) received ++ [.poll, received, .poll]

/-- Event number 0 is overwritten before the poll that would have seen it. -/
theorem reports_once_overwritten :
    firstPoll overwriting 0 = some (kEventRingCapacity + 1) ∧ ReportsOnce emptyRing overwriting := by
  have hbacklogs : ∀ backlog ∈ backlogs 0 0 overwriting, Told backlog := by
    intro backlog hbacklog
    rw [overwriting, backlogs_replicate] at hbacklog
    apply Or.inl
    have hcases : backlog = kEventRingCapacity + 1 ∨ backlog = 1 := by
      simpa [backlogs, received] using hbacklog
    rcases hcases with rfl | rfl
    · decide
    · decide
  refine ⟨?_, reports_once emptyRing List.length_replicate overwriting hbacklogs⟩
  rw [firstPoll, overwriting, pollCounts_replicate]
  rfl

/-- Events that come in before a poll. -/
theorem tracks_replicate {t : Telemetry} {xs : List TickEvent} {p : ℕ} (h : Tracks t xs p) (m : ℕ) :
    ∃ t' xs', Tracks t' xs' p ∧ xs'.length = xs.length + m ∧
      (Foundation.run step t (List.replicate m received ++ [.poll])).2.flatten =
        (Foundation.run step t' [.poll]).2.flatten := by
  induction m generalizing t xs with
  | zero => exact ⟨t, xs, h, rfl, rfl⟩
  | succ m ih =>
    obtain ⟨t', xs', ht', hlen, hrun⟩ := ih (h.record ⟨0, 0, 1, 0, 0⟩)
    refine ⟨t', xs', ht', ?_, ?_⟩
    · rw [hlen, List.length_append, List.length_singleton]
      omega
    · rw [← hrun]
      rfl

/-- A backlog that comes round reports nothing. -/
theorem reports_round {n : ℕ} (hn : n % 2 ^ 64 = 0) :
    reports emptyRing (List.replicate n received ++ [.poll]) = [] := by
  have hstart : Tracks { ring := emptyRing.reset } [] 0 := tracks_start List.length_replicate
  obtain ⟨t, xs, ht, hlen, hrun⟩ := tracks_replicate hstart n
  rw [List.length_nil, Nat.zero_add] at hlen
  have hone : (Foundation.run step t [.poll]).2.flatten = (t.ring.poll t.lastSeen).1 :=
    List.append_nil _
  obtain ⟨hpoll, -⟩ := ht.poll
  rw [Nat.sub_zero, hlen, hn, Nat.zero_min] at hpoll
  unfold reports
  rw [hrun, hone]
  exact List.map_eq_nil_iff.mp hpoll

/-- **A backlog of `2 ^ 64` events** is not seen, and the events that are still in the ring are not
reported. -/
theorem whole_round_unseen :
    ¬ ReportsOnce emptyRing (List.replicate (2 ^ 64) received ++ [.poll]) := by
  rintro ⟨numbers, -, hreports, -, hmissing⟩
  have hround : (2 ^ 64 : ℕ) % 2 ^ 64 = 0 := Nat.mod_self _
  rw [reports_round hround] at hreports
  have hnone : numbers = [] := List.map_eq_nil_iff.mp hreports.symm
  have hfirst : firstPoll (List.replicate (2 ^ 64) received ++ [.poll]) (2 ^ 64 - 1) =
      some (2 ^ 64) := by
    unfold firstPoll
    rw [pollCounts_replicate, Nat.zero_add]
    apply find?_poll_of_lt
    norm_num
  have hlost := (hmissing _ _ hfirst).mp (by rw [hnone]; exact List.not_mem_nil)
  revert hlost
  norm_num [kEventRingCapacity]

end PulseForge.Telemetry
