import PulseForge.Model.SnapshotServer

/-!
# What the recovery service answers

A slot that keeps a number holds the tick of that number. The answer to a request is the ticks
of the numbers asked for, up to the first one that its slot does not keep.
-/

set_option autoImplicit false

namespace PulseForge.SnapshotServer

variable {srv : SnapshotServer}

/-- **The ring**: a slot that keeps a number below `UINT64_MAX` holds its tick. -/
structure WF (srv : SnapshotServer) : Prop where
  ring_length : srv.ring.length = kSnapshotRingCapacity
  slot_length : srv.slotSeq.length = kSnapshotRingCapacity
  tick : ∀ s, s ≠ 0 - 1 → srv.keeps s = true → (srv.ring.getD (slot s) default).sequence = s

/-- A slot is in the ring. -/
theorem slot_lt (s : UInt64) : slot s < kSnapshotRingCapacity := Nat.mod_lt _ (by decide)

/-- An empty ring is well-formed. -/
theorem wf_new : WF {} := by
  refine ⟨List.length_replicate, List.length_replicate, fun s hs hkeeps => ?_⟩
  have hmax : (List.replicate kSnapshotRingCapacity (0 - 1 : UInt64)).getD (slot s) 0 = 0 - 1 := by
    rw [List.getD_eq_getElem?_getD, List.getElem?_replicate, if_pos (slot_lt s)]
    rfl
  unfold keeps at hkeeps
  rw [hmax] at hkeeps
  exact absurd (beq_iff_eq.mp hkeeps).symm hs

/-- What a slot keeps once a tick is recorded. -/
theorem keeps_record (h : WF srv) (msg : TickMessage) (s : UInt64) :
    (srv.record msg).keeps s =
      if slot s = slot msg.sequence then msg.sequence == s else srv.keeps s := by
  unfold keeps record
  rw [List.getD_eq_getElem?_getD, List.getD_eq_getElem?_getD]
  split
  · next heq =>
    rw [heq, List.getElem?_set_self (by rw [h.slot_length]; exact slot_lt _)]
    rfl
  · next hne => rw [List.getElem?_set_ne (Ne.symm hne)]

/-- `record` writes the slot of its number. -/
theorem ring_record (h : WF srv) (msg : TickMessage) (s : UInt64) :
    (srv.record msg).ring.getD (slot s) default =
      if slot s = slot msg.sequence then msg else srv.ring.getD (slot s) default := by
  unfold record
  rw [List.getD_eq_getElem?_getD, List.getD_eq_getElem?_getD]
  split
  · next heq =>
    rw [heq, List.getElem?_set_self (by rw [h.ring_length]; exact slot_lt _)]
    rfl
  · next hne => rw [List.getElem?_set_ne (Ne.symm hne)]

/-- **A tick is recorded.** -/
theorem WF.record (h : WF srv) (msg : TickMessage) : WF (srv.record msg) := by
  refine ⟨List.length_set.trans h.ring_length, List.length_set.trans h.slot_length,
    fun s hs hkeeps => ?_⟩
  rw [keeps_record h] at hkeeps
  rw [ring_record h]
  split at hkeeps
  · next heq =>
    rw [if_pos heq]
    exact beq_iff_eq.mp hkeeps
  · next hne =>
    rw [if_neg hne]
    exact h.tick s hs hkeeps

/-! ## Requests -/

/-- The tick in the slot of number `q`. -/
def tickAt (srv : SnapshotServer) (q : ℕ) : TickMessage :=
  srv.ring.getD (slot (UInt64.ofNat q)) default

/-- The slot of number `q` keeps it. -/
def keepsAt (srv : SnapshotServer) (q : ℕ) : Bool := srv.keeps (UInt64.ofNat q)

/-- The loop answers up to the first hole. -/
theorem serveLoop_eq (srv : SnapshotServer) {bound : UInt64} (k : ℕ) :
    ∀ (fuel q : ℕ), k ≤ fuel → q + k = bound.toNat →
      srv.serveLoop bound fuel (UInt64.ofNat q) =
        ((List.range' q k).takeWhile srv.keepsAt).map srv.tickAt := by
  induction k with
  | zero =>
    intro fuel q _ hq
    have hstop : ¬ UInt64.ofNat q < bound := by
      rw [UInt64.lt_iff_toNat_lt, UInt64.toNat_ofNat']
      have hle := Nat.mod_le q (2 ^ 64)
      have hlt := bound.toNat_lt
      rw [Nat.mod_eq_of_lt (by omega)]
      omega
    cases fuel with
    | zero => rfl
    | succ fuel => rw [serveLoop, if_neg hstop, List.range'_zero, List.takeWhile_nil, List.map_nil]
  | succ k ih =>
    intro fuel q hfuel hq
    obtain ⟨fuel, rfl⟩ : ∃ n, fuel = n + 1 := ⟨fuel - 1, by omega⟩
    have hgo : UInt64.ofNat q < bound := by
      have hlt := bound.toNat_lt
      rw [UInt64.lt_iff_toNat_lt, UInt64.toNat_ofNat', Nat.mod_eq_of_lt (by omega)]
      omega
    have hnext : UInt64.ofNat q + 1 = UInt64.ofNat (q + 1) := by
      rw [UInt64.ofNat_add]
      rfl
    rw [serveLoop, if_pos hgo, hnext, ih fuel (q + 1) (by omega) (by omega), List.range'_succ]
    by_cases hkeeps : srv.keeps (UInt64.ofNat q) = true
    · have hpos : srv.keepsAt q = true := hkeeps
      rw [List.takeWhile_cons_of_pos hpos, List.map_cons, if_pos hkeeps]
      rfl
    · have hneg : ¬ srv.keepsAt q = true := hkeeps
      rw [List.takeWhile_cons_of_neg hneg, List.map_nil, if_neg hkeeps]

/-- **The answer to a request** that stays below `2^64`. -/
theorem serveRequest_eq (srv : SnapshotServer) {fromSeq count : UInt64}
    (hfits : fromSeq.toNat + count.toNat < 2 ^ 64) :
    srv.serveRequest fromSeq count =
      ((List.range' fromSeq.toNat count.toNat).takeWhile srv.keepsAt).map srv.tickAt := by
  have hbound : (fromSeq + count).toNat = fromSeq.toNat + count.toNat := by
    rw [UInt64.toNat_add, Nat.mod_eq_of_lt hfits]
  have hloop := serveLoop_eq srv count.toNat count.toNat fromSeq.toNat le_rfl hbound.symm
  rw [UInt64.ofNat_toNat] at hloop
  exact hloop

/-- The numbers that a request is served: as many as are asked for, 4096 at most. -/
theorem handleClient_eq (srv : SnapshotServer) {fromSeq count : UInt64}
    (hfits : fromSeq.toNat + count.toNat < 2 ^ 64) :
    srv.handleClient fromSeq count =
      ((List.range' fromSeq.toNat (min count.toNat kMaxSnapshotRequestLen.toNat)).takeWhile
        srv.keepsAt).map srv.tickAt := by
  unfold handleClient
  split
  · next hlt =>
    rw [UInt64.lt_iff_toNat_lt] at hlt
    rw [serveRequest_eq srv (by omega), Nat.min_eq_right hlt.le]
  · next hge =>
    rw [UInt64.lt_iff_toNat_lt] at hge
    rw [serveRequest_eq srv hfits, Nat.min_eq_left (by omega)]

/-- The tick that is kept has the number asked for. -/
theorem tickAt_sequence {q : ℕ} (h : WF srv) (hq : q < 2 ^ 64 - 1) (hkeeps : srv.keepsAt q = true) :
    (srv.tickAt q).sequence.toNat = q := by
  have hnat : (UInt64.ofNat q).toNat = q := by
    rw [UInt64.toNat_ofNat', Nat.mod_eq_of_lt (by omega)]
  have hne : UInt64.ofNat q ≠ 0 - 1 := by
    intro heq
    have hmax : (0 - 1 : UInt64).toNat = 2 ^ 64 - 1 := rfl
    rw [← heq, hnat] at hmax
    omega
  have hseq : (srv.tickAt q).sequence = UInt64.ofNat q := h.tick _ hne hkeeps
  rw [hseq, hnat]

/-- **The ticks of an answer** have the numbers asked for, in order. -/
theorem handleClient_sequences {fromSeq count : UInt64} (h : WF srv)
    (hfits : fromSeq.toNat + count.toNat < 2 ^ 64) :
    (srv.handleClient fromSeq count).map (fun m => m.sequence.toNat) =
      (List.range' fromSeq.toNat (min count.toNat kMaxSnapshotRequestLen.toNat)).takeWhile
        srv.keepsAt := by
  rw [handleClient_eq srv hfits, List.map_map]
  refine Eq.trans (List.map_congr_left fun q hq => ?_) (List.map_id _)
  have hall := List.all_takeWhile (p := srv.keepsAt)
    (l := List.range' fromSeq.toNat (min count.toNat kMaxSnapshotRequestLen.toNat))
  have hrange := List.mem_range'_1.mp ((List.takeWhile_subset _) hq)
  exact tickAt_sequence h (by omega) (List.all_eq_true.mp hall q hq)

/-- Each number of an answer was asked for, and is there once. -/
theorem handleClient_sublist {fromSeq count : UInt64} (h : WF srv)
    (hfits : fromSeq.toNat + count.toNat < 2 ^ 64) :
    ((srv.handleClient fromSeq count).map fun m => m.sequence.toNat).Sublist
      (List.range' fromSeq.toNat count.toNat) := by
  rw [handleClient_sequences h hfits]
  refine (List.takeWhile_prefix _).sublist.trans ?_
  exact List.range'_sublist_right.mpr (Nat.min_le_left _ _)

end PulseForge.SnapshotServer
