import PulseForge.Analysis.SnapshotRing

/-!
# The longest run the recovery ring can serve

A history of `record` calls leaves in every slot the tick recorded into it last. A request is
served the numbers asked for, up to the first one whose slot was last taken by another number.
-/

set_option autoImplicit false

namespace PulseForge.SnapshotServer

/-- The server behind a history of `record` calls. -/
def recorded (history : List TickMessage) : SnapshotServer := history.foldl record {}

/-- The tick recorded last into the slot of number `s`. -/
def lastInto (history : List TickMessage) (s : ℕ) : Option TickMessage :=
  history.reverse.find? fun m =>
    m.sequence.toNat % kSnapshotRingCapacity = s % kSnapshotRingCapacity

/-- The tick recorded last under number `s`. -/
def lastUnder (history : List TickMessage) (s : ℕ) : Option TickMessage :=
  history.reverse.find? fun m => m.sequence.toNat = s

/-- The slot of number `s` was last taken by `s`. -/
def Retained (history : List TickMessage) (s : ℕ) : Prop :=
  ∃ m, lastInto history s = some m ∧ m.sequence.toNat = s

instance (history : List TickMessage) (s : ℕ) : Decidable (Retained history s) :=
  match h : lastInto history s with
  | none => isFalse fun ⟨_, hm, _⟩ => nomatch h.symm.trans hm
  | some m =>
    if hs : m.sequence.toNat = s then isTrue ⟨m, h, hs⟩
    else isFalse fun ⟨_, hm, hs'⟩ => hs (Option.some.inj (h.symm.trans hm) ▸ hs')

variable {history : List TickMessage} {s : ℕ}

theorem recorded_concat (history : List TickMessage) (m : TickMessage) :
    recorded (history ++ [m]) = (recorded history).record m := by
  rw [recorded, List.foldl_append]
  rfl

/-- The ring has its size. -/
theorem wf_recorded (history : List TickMessage) : WF (recorded history) := by
  induction history using List.reverseRecOn with
  | nil => exact wf_new
  | append_singleton history m ih =>
    rw [recorded_concat]
    exact ih.record m

theorem lastInto_concat (history : List TickMessage) (m : TickMessage) (s : ℕ) :
    lastInto (history ++ [m]) s =
      if m.sequence.toNat % kSnapshotRingCapacity = s % kSnapshotRingCapacity then some m
      else lastInto history s := by
  unfold lastInto
  rw [List.reverse_append, List.reverse_singleton, List.singleton_append, List.find?_cons]
  split_ifs with hslot
  · simp [hslot]
  · simp [hslot]

/-- **What a slot holds**: the tick recorded last into it, or nothing. -/
theorem holds_lastInto (hs : s < 2 ^ 64 - 1) :
    (lastInto history s = none → (recorded history).keepsAt s = false) ∧
      ∀ m, lastInto history s = some m →
        (recorded history).tickAt s = m ∧
          ((recorded history).keepsAt s = true ↔ m.sequence.toNat = s) := by
  have hnat : (UInt64.ofNat s).toNat = s := by
    rw [UInt64.toNat_ofNat', Nat.mod_eq_of_lt (by omega)]
  induction history using List.reverseRecOn with
  | nil =>
    constructor
    · intro _
      apply eq_false_of_ne_true
      intro hkeeps
      have hmax : (List.replicate kSnapshotRingCapacity (0 - 1 : UInt64)).getD
          (slot (UInt64.ofNat s)) 0 = 0 - 1 := by
        rw [List.getD_eq_getElem?_getD, List.getElem?_replicate, if_pos (slot_lt _)]
        rfl
      have hseq : (0 - 1 : UInt64) = UInt64.ofNat s := by
        rw [← hmax]
        exact beq_iff_eq.mp hkeeps
      have hlast : (2 ^ 64 - 1 : ℕ) = s := by
        rw [← hnat, ← hseq]
        rfl
      omega
    · intro m hm
      exact nomatch hm
  | append_singleton history m ih =>
    have hwf := wf_recorded history
    have hslot : slot (UInt64.ofNat s) = slot m.sequence ↔
        m.sequence.toNat % kSnapshotRingCapacity = s % kSnapshotRingCapacity := by
      unfold slot
      rw [hnat]
      exact eq_comm
    rw [recorded_concat, lastInto_concat]
    unfold keepsAt tickAt at ih ⊢
    rw [keeps_record hwf, ring_record hwf]
    by_cases hsame : m.sequence.toNat % kSnapshotRingCapacity = s % kSnapshotRingCapacity
    · rw [if_pos hsame, if_pos (hslot.mpr hsame), if_pos (hslot.mpr hsame)]
      constructor
      · intro hnone
        exact nomatch hnone
      · intro m' hm'
        obtain rfl := Option.some.inj hm'
        refine ⟨rfl, ?_⟩
        rw [beq_iff_eq, ← UInt64.toNat_inj, hnat]
    · rw [if_neg hsame, if_neg (mt hslot.mp hsame), if_neg (mt hslot.mp hsame)]
      exact ih

/-- The ring has a number exactly when it was the last of its slot. -/
theorem keepsAt_iff (hs : s < 2 ^ 64 - 1) :
    (recorded history).keepsAt s = true ↔ Retained history s := by
  obtain ⟨hnone, hsome⟩ := @holds_lastInto history s hs
  cases hlast : lastInto history s with
  | none =>
    rw [hnone hlast]
    constructor
    · intro h
      exact nomatch h
    · rintro ⟨m, hm, -⟩
      exact nomatch hlast.symm.trans hm
  | some m =>
    rw [(hsome m hlast).2]
    constructor
    · intro hm
      exact ⟨m, hlast, hm⟩
    · rintro ⟨m', hm', hseq⟩
      obtain rfl := Option.some.inj (hlast.symm.trans hm')
      exact hseq

/-- A number that is retained was recorded last under itself. -/
theorem lastUnder_of_lastInto {m : TickMessage} (hm : lastInto history s = some m)
    (hseq : m.sequence.toNat = s) : lastUnder history s = some m := by
  unfold lastInto at hm
  obtain ⟨-, front, back, hsplit, hfront⟩ := List.find?_eq_some_iff_append.mp hm
  apply List.find?_eq_some_iff_append.mpr
  refine ⟨by simpa using hseq, front, back, hsplit, ?_⟩
  intro a ha
  have hother := hfront a ha
  simp only [Bool.not_eq_eq_eq_not, Bool.not_true, decide_eq_false_iff_not] at hother ⊢
  intro heq
  exact hother (by rw [heq])

/-- The tick in the ring is the last one under its number. -/
theorem tickAt_eq (hs : s < 2 ^ 64 - 1) (hret : Retained history s) :
    some ((recorded history).tickAt s) = lastUnder history s := by
  obtain ⟨m, hm, hseq⟩ := hret
  rw [((@holds_lastInto history s hs).2 m hm).1, lastUnder_of_lastInto hm hseq]

/-! ## The publisher's history -/

/-- The publisher records 1, 2, .., n: the last ones are retained. -/
theorem retained_iff {n : ℕ} (hpub : history.map (fun m => m.sequence.toNat) = List.range' 1 n) :
    Retained history s ↔ 1 ≤ s ∧ s ≤ n ∧ n < s + kSnapshotRingCapacity := by
  have hcap : kSnapshotRingCapacity = 8192 := rfl
  induction n generalizing history with
  | zero =>
    obtain rfl : history = [] := List.map_eq_nil_iff.mp hpub
    constructor
    · rintro ⟨m, hm, -⟩
      exact nomatch hm
    · omega
  | succ n ih =>
    rw [List.range'_1_concat] at hpub
    obtain ⟨front, last, rfl, hfront, hlast⟩ := List.map_eq_append_iff.mp hpub
    obtain ⟨m, rfl, hm⟩ := List.map_eq_singleton_iff.mp hlast
    have hseq : m.sequence.toNat = n + 1 := by omega
    have hlast := lastInto_concat front m s
    rw [hseq, hcap] at hlast
    rw [hcap] at ih ⊢
    by_cases hslot : (n + 1) % 8192 = s % 8192
    · rw [if_pos hslot] at hlast
      constructor
      · rintro ⟨m', hm', hs⟩
        obtain rfl := Option.some.inj (hlast.symm.trans hm')
        omega
      · intro hs
        exact ⟨m, hlast, by omega⟩
    · rw [if_neg hslot] at hlast
      have hsame : Retained (front ++ [m]) s ↔ Retained front s := by
        unfold Retained
        rw [hlast]
      exact hsame.trans ((ih hfront).trans (by omega))

/-- A publisher's tick is found by its number. -/
theorem lastUnder_publisher {n : ℕ}
    (hpub : history.map (fun m => m.sequence.toNat) = List.range' 1 n) (hs : 1 ≤ s) :
    lastUnder history s = history[s - 1]? := by
  induction n generalizing history with
  | zero =>
    obtain rfl : history = [] := List.map_eq_nil_iff.mp hpub
    rfl
  | succ n ih =>
    rw [List.range'_1_concat] at hpub
    obtain ⟨front, last, rfl, hfront, hlast⟩ := List.map_eq_append_iff.mp hpub
    obtain ⟨m, rfl, hm⟩ := List.map_eq_singleton_iff.mp hlast
    have hlen : front.length = n := by
      rw [← List.length_map (fun m : TickMessage => m.sequence.toNat), hfront, List.length_range']
    have hih := ih hfront
    unfold lastUnder at hih ⊢
    rw [List.reverse_append, List.reverse_singleton, List.singleton_append, List.find?_cons, hih]
    by_cases hlt : s - 1 < front.length
    · rw [List.getElem?_append_left hlt]
      have hne : ¬ m.sequence.toNat = s := by omega
      simp [hne]
    · rw [List.getElem?_append_right (by omega), List.getElem?_eq_none (by omega)]
      by_cases heq : m.sequence.toNat = s
      · have hzero : s - 1 - front.length = 0 := by omega
        simp [heq, hzero]
      · have hpos : s - 1 - front.length ≠ 0 := by omega
        obtain ⟨k, hk⟩ := Nat.exists_eq_succ_of_ne_zero hpos
        simp [heq, hk]

/-- How far a scan goes depends on the list. -/
theorem takeWhile_congr {p q : ℕ → Bool} {l : List ℕ} (h : ∀ a ∈ l, p a = q a) :
    l.takeWhile p = l.takeWhile q := by
  induction l with
  | nil => rfl
  | cons a l ih =>
    have hrest := ih fun b hb => h b (List.mem_cons_of_mem a hb)
    rw [List.takeWhile_cons, List.takeWhile_cons, h a List.mem_cons_self, hrest]

/-- The numbers up to `last` at the front of a range. -/
theorem takeWhile_range' {p : ℕ → Bool} {last : ℕ} (k q : ℕ)
    (hp : ∀ i, q ≤ i → (p i = true ↔ i ≤ last)) :
    (List.range' q k).takeWhile p = List.range' q (min k (last + 1 - q)) := by
  induction k generalizing q with
  | zero => simp
  | succ k ih =>
    have hrest := ih (q + 1) fun i hi => hp i (by omega)
    rw [List.range'_succ]
    by_cases hq : q ≤ last
    · have hlen : min (k + 1) (last + 1 - q) = min k (last + 1 - (q + 1)) + 1 := by omega
      rw [List.takeWhile_cons_of_pos ((hp q le_rfl).mpr hq), hrest, hlen, List.range'_succ]
    · have hlen : min (k + 1) (last + 1 - q) = 0 := by omega
      rw [List.takeWhile_cons_of_neg (mt (hp q le_rfl).mp hq), hlen, List.range'_zero]

/-- **The numbers served**: the longest run of them that is retained. -/
theorem serveRequest_retained (history : List TickMessage) {fromSeq count : UInt64}
    (hfits : fromSeq.toNat + count.toNat < 2 ^ 64) :
    ((recorded history).serveRequest fromSeq count).map some =
      ((List.range' fromSeq.toNat count.toNat).takeWhile fun s => Retained history s).map
        (lastUnder history) := by
  have hkept : (List.range' fromSeq.toNat count.toNat).takeWhile (recorded history).keepsAt =
      (List.range' fromSeq.toNat count.toNat).takeWhile fun s => Retained history s := by
    apply takeWhile_congr
    intro s hs
    have hrange := List.mem_range'_1.mp hs
    rw [Bool.eq_iff_iff, keepsAt_iff (by omega), decide_eq_true_iff]
  rw [serveRequest_eq _ hfits, hkept, List.map_map]
  apply List.map_congr_left
  intro s hs
  have hrange := List.mem_range'_1.mp (List.takeWhile_subset _ hs)
  have hall := List.all_eq_true.mp List.all_takeWhile s hs
  exact tickAt_eq (by omega) (of_decide_eq_true hall)

/-- The ticks that the publisher numbered from `first` on. -/
theorem map_lastUnder_publisher {history : List TickMessage} {n first count : ℕ}
    (hpub : history.map (fun m => m.sequence.toNat) = List.range' 1 n) (hfirst : 1 ≤ first)
    (hn : first ≤ n) :
    (List.range' first (min count (n + 1 - first))).map (lastUnder history) =
      ((history.drop (first - 1)).take count).map some := by
  have hlen : history.length = n := by
    rw [← List.length_map (fun m : TickMessage => m.sequence.toNat), hpub, List.length_range']
  apply List.ext_getElem?
  intro i
  rw [List.getElem?_map, List.getElem?_map, List.getElem?_take, List.getElem?_drop]
  by_cases hi : i < min count (n + 1 - first)
  · rw [List.getElem?_range' hi, if_pos (by omega), Option.map_some,
      lastUnder_publisher hpub (by omega)]
    have hindex : first + 1 * i - 1 = first - 1 + i := by omega
    rw [hindex, List.getElem?_eq_getElem (by omega)]
    rfl
  · rw [List.getElem?_eq_none (by rw [List.length_range']; omega)]
    split_ifs with hcount
    · rw [List.getElem?_eq_none (by omega)]
      rfl
    · rfl

/-- **The recovery ring serves the longest available run.** Any history of ticks below the number
that marks an empty slot: a request is answered with the tick recorded last under each number asked
for, up to the first number whose slot was last taken by another one. For the history of the
publisher that is the part of the last 8192 ticks that was asked for, when the first of it is still
there. -/
theorem serves_longest_run (history : List TickMessage) (fromSeq count : UInt64)
    (hfits : fromSeq.toNat + count.toNat < 2 ^ 64) :
    ((recorded history).serveRequest fromSeq count).map some =
      ((List.range' fromSeq.toNat count.toNat).takeWhile fun s => Retained history s).map
        (lastUnder history) ∧
    ∀ n, history.map (fun m => m.sequence.toNat) = List.range' 1 n →
      (recorded history).serveRequest fromSeq count =
        if 1 ≤ fromSeq.toNat ∧ fromSeq.toNat ≤ n ∧ n < fromSeq.toNat + kSnapshotRingCapacity then
          (history.drop (fromSeq.toNat - 1)).take count.toNat
        else [] := by
  refine ⟨serveRequest_retained history hfits, ?_⟩
  intro n hpub
  apply List.map_injective_iff.mpr (Option.some_injective TickMessage)
  rw [serveRequest_retained history hfits]
  split_ifs with hstart
  · have hnumbers : (List.range' fromSeq.toNat count.toNat).takeWhile
        (fun s => decide (Retained history s)) =
        List.range' fromSeq.toNat (min count.toNat (n + 1 - fromSeq.toNat)) := by
      apply takeWhile_range'
      intro i hi
      rw [decide_eq_true_iff, retained_iff hpub]
      omega
    rw [hnumbers]
    exact map_lastUnder_publisher hpub hstart.1 hstart.2.1
  · have hnone : (List.range' fromSeq.toNat count.toNat).takeWhile
        (fun s => decide (Retained history s)) = [] := by
      cases hcount : count.toNat with
      | zero => rfl
      | succ k =>
        rw [List.range'_succ]
        apply List.takeWhile_cons_of_neg
        rw [decide_eq_true_iff, retained_iff hpub]
        exact hstart
    rw [hnone]
    rfl

/-- A tick of the publisher. -/
def tick (s : UInt64) : TickMessage := ⟨s, 0, 1, 10000, 100, 1⟩

/-- Two ticks were published, and more were asked for. -/
theorem two_ticks_served :
    (recorded [tick 1, tick 2]).serveRequest 1 5 = [tick 1, tick 2] :=
  ((serves_longest_run [tick 1, tick 2] 1 5 (by decide)).2 2 (by decide)).trans (by decide)

end PulseForge.SnapshotServer
