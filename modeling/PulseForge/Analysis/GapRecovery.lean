import Mathlib.Data.List.TakeWhile
import PulseForge.Analysis.GapDetection

/-!
# What gap recovery delivers

The publisher numbers its ticks and keeps the last ones; the network drops some. A gap that is
asked for is under way until the answer is harvested, and then its ticks are in the queue, as far
as the queue takes them: `drain_recoveries` does not try again when it is full.
-/

set_option autoImplicit false

namespace PulseForge

open Relation

/-- The number of an entry of the queue. -/
def entrySeq (e : Origin × TickMessage) : ℕ := e.2.sequence.toNat

namespace Receiver

variable {r r' : Receiver} {msg : TickMessage}

/-- The numbers of the requests under way. -/
def owed (r : Receiver) : List ℕ :=
  r.pending.flatMap fun p => List.range' p.fromSeq.toNat p.count.toNat

/-! ## The account of the receiver -/

/-- **Nothing is lost on the way**: every number is received or missing; a tick received is in the
queue, a gap asked for is under way or answered, and the ticks of an answer are in the queue or
wait to be harvested; no number is there twice. -/
structure Accounts (r : Receiver) : Prop where
  positive : ∀ q ∈ r.missing, 1 ≤ q
  queued : ∀ m ∈ r.live, (.live, m) ∈ r.enqueued
  covered : ∀ q, (∃ a ∈ r.seqs, a ≤ q) → q ≤ r.lastSeq.toNat → q ∈ r.seqs ∨ q ∈ r.missing
  requested : ∀ g ∈ r.declared, g.dispatched = true →
    (∃ p ∈ r.pending, p.fromSeq = g.start ∧ p.count = g.count ∧
      ∀ msgs, p.progress ≠ .ready msgs) ∨
    ∃ a ∈ r.answered, a.fromSeq = g.start ∧ a.count = g.count
  fetched : ∀ a ∈ r.answered, ∀ m ∈ a.msgs,
    (.recovered, m) ∈ r.enqueued ∨ ∃ p ∈ r.pending, ∃ msgs, p.progress = .ready msgs ∧ m ∈ msgs
  once : (r.owed ++ r.enqueued.map entrySeq).Nodup

/-- Where the numbers that are owed or enqueued lie. -/
theorem Tracked.mem_owed {q : ℕ} (ht : r.Tracked) (hq : q ∈ r.owed) : q ∈ r.missing := by
  obtain ⟨p, hp, hq⟩ := List.mem_flatMap.mp hq
  obtain ⟨g, hg, hstart, hcount⟩ := ht.asked p hp
  refine List.mem_flatMap.mpr ⟨g, hg, ?_⟩
  unfold Gap.numbers
  rw [hstart, hcount]
  exact hq

/-- What was queued was received or found missing. -/
theorem Tracked.mem_enqueued {q : ℕ} (ht : r.Tracked) (hq : q ∈ r.enqueued.map entrySeq) :
    q ∈ r.seqs ∨ q ∈ r.missing := by
  obtain ⟨⟨origin, m⟩, hm, rfl⟩ := List.mem_map.mp hq
  cases origin with
  | live => exact .inl (List.mem_map_of_mem (ht.live m hm))
  | recovered => exact .inr (ht.recovered m hm)

/-- The tick is ahead of the last one. -/
def Ahead (r : Receiver) (msg : TickMessage) : Prop :=
  r.haveLast = true → r.lastSeq.toNat < msg.sequence.toNat

/-- A tick ahead of the others is not late. -/
theorem Ahead.notLate (h : r.Ahead msg) : r.NotLate msg := by
  intro hhave
  have hlt := h hhave
  have hmax := msg.sequence.toNat_lt
  refine ⟨UInt64.le_iff_toNat_le.mpr hlt.le, fun heq => ?_⟩
  have hnat : (0 - 1 : UInt64).toNat = 2 ^ 64 - 1 := rfl
  rw [heq, hnat] at hlt
  omega

/-- Everything so far is strictly below a tick that is ahead. -/
theorem Tracked.below_ahead (ht : r.Tracked) (h : r.Ahead msg) :
    (∀ q ∈ r.seqs, q < msg.sequence.toNat) ∧ ∀ q ∈ r.missing, q < msg.sequence.toNat := by
  refine ⟨fun q hq => ?_, (ht.below_next h.notLate).2⟩
  cases hhave : r.haveLast with
  | false =>
    obtain ⟨hlive, -⟩ := ht.none hhave
    unfold seqs at hq
    rw [hlive] at hq
    exact absurd hq List.not_mem_nil
  | true => exact (ht.greatest q hq).trans_lt (h hhave)

namespace Accounts

/-- New numbers, each once and none of them there before, are added to what is owed and to what
is enqueued. -/
theorem once_append {owed new enq : List ℕ} {n : ℕ} (h : (owed ++ enq).Nodup)
    (hnew : (new ++ [n]).Nodup) (hapart : ∀ q ∈ new ++ [n], q ∉ owed ∧ q ∉ enq) :
    ((owed ++ new) ++ (enq ++ [n])).Nodup := by
  have hperm : ((owed ++ new) ++ (enq ++ [n])).Perm ((owed ++ enq) ++ (new ++ [n])) := by
    rw [List.append_assoc, List.append_assoc]
    refine List.Perm.append_left owed ?_
    rw [← List.append_assoc, ← List.append_assoc]
    exact List.perm_append_comm.append_right _
  rw [hperm.nodup_iff, List.nodup_append']
  refine ⟨h, hnew, fun q hq hc => ?_⟩
  rcases List.mem_append.mp hq with hq | hq
  · exact (hapart q hc).1 hq
  · exact (hapart q hc).2 hq

/-- The numbers that a tick adds to what is owed are numbers it adds to what is missing. -/
theorem owed_took {opened : List Gap} {requests : List Recovery}
    (hu : Uncovers r r' msg opened requests) :
    ∃ new, r'.owed = r.owed ++ new ∧ new.Sublist (r.missedOf msg) := by
  refine ⟨requests.flatMap fun p => List.range' p.fromSeq.toNat p.count.toNat, ?_, ?_⟩
  · unfold owed
    rw [hu.pending, List.flatMap_append]
  · rw [hu.asked, List.flatMap_map, ← hu.numbers]
    exact List.filter_sublist.flatMap _

/-- What is owed or enqueued is below a tick that is ahead, and not above the last one. -/
theorem below_took (ht : r.Tracked) (hahead : r.Ahead msg) {q : ℕ}
    (hq : q ∈ r.owed ∨ q ∈ r.enqueued.map entrySeq) :
    q < msg.sequence.toNat ∧ q ≤ r.lastSeq.toNat := by
  obtain ⟨hseqs, hmissing⟩ := ht.below_ahead hahead
  have hmem : q ∈ r.seqs ∨ q ∈ r.missing :=
    hq.elim (fun hq => .inr (ht.mem_owed hq)) ht.mem_enqueued
  rcases hmem with hmem | hmem
  · exact ⟨hseqs q hmem, ht.greatest q hmem⟩
  · exact ⟨hmissing q hmem, (ht.below q hmem).le⟩

/-- Every number up to the tick is received or missing. -/
theorem covered_took (h : r.Accounts) (ht : r.Tracked)
    (htook : Took r msg [(.live, msg)] r') {opened : List Gap} {requests : List Recovery}
    (hu : Uncovers r r' msg opened requests) {q : ℕ} (hq : ∃ a ∈ r'.seqs, a ≤ q)
    (hle : q ≤ r'.lastSeq.toNat) : q ∈ r'.seqs ∨ q ∈ r'.missing := by
  rw [htook.lastSeq] at hle
  rw [seqs_took htook] at hq ⊢
  rw [hu.missing]
  obtain ⟨a, ha, haq⟩ := hq
  rcases hle.eq_or_lt with rfl | hlt
  · exact .inl (List.mem_append_right _ (List.mem_singleton.mpr rfl))
  have haold : a ∈ r.seqs := by
    refine (List.mem_append.mp ha).resolve_right fun hc => ?_
    rw [List.mem_singleton.mp hc] at haq
    omega
  rcases Nat.lt_or_ge r.lastSeq.toNat q with hgt | hge
  · have hhave : r.haveLast = true := by
      by_contra hc
      obtain ⟨hlive, -⟩ := ht.none (eq_false_of_ne_true hc)
      unfold seqs at haold
      rw [hlive] at haold
      exact absurd haold List.not_mem_nil
    exact .inr (List.mem_append_right _ (mem_missedOf.mpr ⟨hhave, hgt, hlt⟩))
  · exact (h.covered q ⟨a, haold, haq⟩ hge).imp (List.mem_append_left _) (List.mem_append_left _)

/-- **A tick that is ahead** goes into the queue, and the gap in front of it is asked for. -/
theorem took (h : r.Accounts) (ht : r.Tracked) (hahead : r.Ahead msg)
    (htook : Took r msg [(.live, msg)] r') : r'.Accounts := by
  obtain ⟨opened, requests, hu⟩ := htook.uncovers hahead.notLate
  have hnew : ∀ q ∈ r.missedOf msg, r.lastSeq.toNat < q ∧ q < msg.sequence.toNat :=
    fun q hq => (mem_missedOf.mp hq).2
  refine ⟨fun q hq => ?_, fun m hm => ?_, fun q hq hle => h.covered_took ht htook hu hq hle,
    fun g hg hd => ?_, fun a ha m hm => ?_, ?_⟩
  · rw [hu.missing] at hq
    rcases List.mem_append.mp hq with hq | hq
    · exact h.positive q hq
    · exact Nat.one_le_of_lt (hnew q hq).1
  · rw [htook.live] at hm
    rw [htook.enqueued]
    rcases List.mem_append.mp hm with hm | hm
    · exact List.mem_append_left _ (h.queued m hm)
    · rw [List.mem_singleton.mp hm]
      exact List.mem_append_right _ (List.mem_singleton.mpr rfl)
  · rw [hu.declared] at hg
    rw [htook.answered, hu.pending]
    rcases List.mem_append.mp hg with hg | hg
    · refine (h.requested g hg hd).imp_left fun hp => ?_
      obtain ⟨p, hp, hreq⟩ := hp
      exact ⟨p, List.mem_append_left _ hp, hreq⟩
    · refine .inl ⟨⟨g.start, g.count, .asked⟩, List.mem_append_right _ ?_, rfl, rfl,
        fun msgs hc => (nomatch hc)⟩
      rw [hu.asked]
      exact List.mem_map.mpr ⟨g, List.mem_filter.mpr ⟨hg, hd⟩, rfl⟩
  · rw [htook.answered] at ha
    rw [htook.enqueued, hu.pending]
    refine (h.fetched a ha m hm).imp (List.mem_append_left _) fun hp => ?_
    obtain ⟨p, hp, hready⟩ := hp
    exact ⟨p, List.mem_append_left _ hp, hready⟩
  · obtain ⟨new, howed, hsub⟩ := owed_took hu
    rw [howed, htook.enqueued, List.map_append]
    refine once_append (n := msg.sequence.toNat) h.once ?_ fun q hq => ?_
    · refine List.nodup_append'.mpr ⟨(nodup_missedOf r msg).sublist hsub, List.nodup_singleton _,
        fun q hq hc => ?_⟩
      exact (hnew q (hsub.subset hq)).2.ne (List.mem_singleton.mp hc)
    · -- a new number is between the last tick and this one, or is this one
      have habove : ∀ {q' : ℕ}, q' < msg.sequence.toNat ∧ q' ≤ r.lastSeq.toNat → q ≠ q' := by
        rintro q' ⟨hlt, hle⟩ rfl
        rcases List.mem_append.mp hq with hq | hq
        · exact absurd (hnew q (hsub.subset hq)).1 (not_lt.mpr hle)
        · exact hlt.ne (List.mem_singleton.mp hq)
      exact ⟨fun hc => habove (below_took ht hahead (.inl hc)) rfl,
        fun hc => habove (below_took ht hahead (.inr hc)) rfl⟩

/-- **An answer is harvested** and the queue takes all of it. -/
theorem harvest {queue : ℕ → PushStatus} {p : Recovery} {msgs : List TickMessage} {k : ℕ}
    (h : r.Accounts) (ht : r.Tracked) (hroom : ∀ k, queue k = .ok)
    (hh : Harvest queue p msgs k r r') : r'.Accounts := by
  have hp : p ∈ r.pending := hh.pending.mem_iff.mpr List.mem_cons_self
  have hmem : ∀ p₀ ∈ r.pending, p₀ = p ∨ p₀ ∈ r'.pending :=
    fun p₀ hp₀ => List.mem_cons.mp (hh.pending.mem_iff.mp hp₀)
  have henq : r'.enqueued = r.enqueued ++ msgs.map (Prod.mk .recovered) := by
    rw [hh.rest, accepted_of_room hroom]
  have hlive : r'.live = r.live := by rw [hh.rest]
  have hdeclared : r'.declared = r.declared := by rw [hh.rest]
  have hanswered : r'.answered = r.answered := by rw [hh.rest]
  have hlast : r'.lastSeq = r.lastSeq := by rw [hh.rest]
  have hseqs : r'.seqs = r.seqs := by
    unfold seqs
    rw [hlive]
  have hmissing : r'.missing = r.missing := by
    unfold missing
    rw [hdeclared]
  refine ⟨?_, ?_, ?_, ?_, ?_, ?_⟩
  · rw [hmissing]
    exact h.positive
  · rw [hlive, henq]
    exact fun m hm => List.mem_append_left _ (h.queued m hm)
  · rw [hseqs, hmissing, hlast]
    exact h.covered
  · rw [hdeclared, hanswered]
    intro g hg hd
    refine (h.requested g hg hd).imp_left fun hreq => ?_
    obtain ⟨p₀, hp₀, hfrom, hcount, hnot⟩ := hreq
    refine ⟨p₀, (hmem p₀ hp₀).resolve_left fun heq => ?_, hfrom, hcount, hnot⟩
    rw [heq] at hnot
    exact hnot msgs hh.ready
  · rw [hanswered, henq]
    intro a ha m hm
    rcases h.fetched a ha m hm with hin | ⟨p₀, hp₀, msgs₀, hready, hm₀⟩
    · exact .inl (List.mem_append_left _ hin)
    · rcases hmem p₀ hp₀ with rfl | hp₀
      · obtain rfl : msgs = msgs₀ := by
          have heq := hh.ready.symm.trans hready
          injection heq
        exact .inl (List.mem_append_right _ (List.mem_map_of_mem hm₀))
      · exact .inr ⟨p₀, hp₀, msgs₀, hready, hm₀⟩
  · have hsound := ht.sound p hp
    unfold Recovery.Sound at hsound
    rw [hh.ready] at hsound
    have howed : r.owed.Perm (List.range' p.fromSeq.toNat p.count.toNat ++ r'.owed) :=
      hh.pending.flatMap_right _
    have hmap : (msgs.map (Prod.mk Origin.recovered)).map entrySeq =
        msgs.map fun m => m.sequence.toNat := by
      rw [List.map_map]
      rfl
    have hperm : (r.owed ++ r.enqueued.map entrySeq).Perm
        (r'.owed ++ (r.enqueued.map entrySeq ++ List.range' p.fromSeq.toNat p.count.toNat)) := by
      refine (howed.append_right _).trans ?_
      rw [List.append_assoc]
      refine List.perm_append_comm.trans ?_
      rw [List.append_assoc]
    rw [henq, List.map_append, hmap]
    refine List.Nodup.sublist ?_ (hperm.nodup_iff.mp h.once)
    exact ((List.Sublist.refl _).append hsound).append_left _

/-- Harvesting keeps the account while the queue has room. -/
theorem harvests {queue : ℕ → PushStatus} (h : r.Accounts) (ht : r.Tracked)
    (hroom : ∀ k, queue k = .ok) (hh : Harvests queue r r') : r'.Accounts ∧ r'.Tracked := by
  induction hh with
  | refl => exact ⟨h, ht⟩
  | tail _ hstep ih =>
    obtain ⟨p, msgs, k, hone⟩ := hstep
    exact ⟨ih.1.harvest ih.2 hroom hone, ih.2.harvest hone⟩

/-- **A request goes on** towards its answer. -/
theorem advance {p p' : Recovery} {answers : List Answered} (h : r.Accounts)
    (ha : Advance p p' answers r r') (hnot : ∀ msgs, p.progress ≠ .ready msgs)
    (hanswers : ∀ a ∈ answers, p'.progress = .ready a.msgs)
    (hdone : (∀ msgs, p'.progress ≠ .ready msgs) ∨
      ∃ a ∈ answers, a.fromSeq = p.fromSeq ∧ a.count = p.count) : r'.Accounts := by
  obtain ⟨i, hi, hset⟩ := ha.pending
  have hilt := (List.getElem?_eq_some_iff.mp hi).1
  have hp' : p' ∈ r'.pending := by
    rw [hset]
    exact List.mem_set hilt p'
  have hmem : ∀ p₀ ∈ r.pending, p₀ = p ∨ p₀ ∈ r'.pending := by
    intro p₀ hp₀
    obtain ⟨k, hk⟩ := List.mem_iff_getElem?.mp hp₀
    rcases eq_or_ne i k with rfl | hne
    · exact .inl (Option.some.inj (hk.symm.trans hi))
    · right
      rw [hset]
      refine List.mem_iff_getElem?.mpr ⟨k, ?_⟩
      rw [List.getElem?_set_ne hne]
      exact hk
  have howed : r'.owed = r.owed := by
    unfold owed
    rw [hset, List.flatMap_def, List.flatMap_def, List.map_set, ha.request.1, ha.request.2]
    congr 1
    refine List.ext_getElem? fun k => ?_
    rcases eq_or_ne i k with rfl | hne
    · rw [List.getElem?_set_self (by rw [List.length_map]; exact hilt), List.getElem?_map, hi]
      rfl
    · rw [List.getElem?_set_ne hne]
  have hanswered : r'.answered = r.answered ++ answers := by rw [ha.rest]
  have hrest : r' = { r with pending := r'.pending, answered := r.answered ++ answers } := ha.rest
  have hdeclared : r'.declared = r.declared := by rw [hrest]
  have henq : r'.enqueued = r.enqueued := by rw [hrest]
  refine ⟨?_, ?_, ?_, ?_, ?_, ?_⟩
  · rw [hrest]
    exact h.positive
  · rw [hrest]
    exact h.queued
  · rw [hrest]
    exact h.covered
  · rw [hdeclared, hanswered]
    intro g hg hd
    rcases h.requested g hg hd with ⟨p₀, hp₀, hfrom, hcount, hnot₀⟩ | ⟨a, ha', heq⟩
    · rcases hmem p₀ hp₀ with rfl | hp₀
      · rcases hdone with hnot' | ⟨a, ha', hafrom, hacount⟩
        · exact .inl ⟨p', hp', ha.request.1.trans hfrom, ha.request.2.trans hcount, hnot'⟩
        · exact .inr ⟨a, List.mem_append_right _ ha', hafrom.trans hfrom, hacount.trans hcount⟩
      · exact .inl ⟨p₀, hp₀, hfrom, hcount, hnot₀⟩
    · exact .inr ⟨a, List.mem_append_left _ ha', heq⟩
  · rw [hanswered, henq]
    intro a ha' m hm
    rcases List.mem_append.mp ha' with ha' | ha'
    · rcases h.fetched a ha' m hm with hin | ⟨p₀, hp₀, msgs, hready, hm₀⟩
      · exact .inl hin
      · refine .inr ⟨p₀, (hmem p₀ hp₀).resolve_left fun heq => ?_, msgs, hready, hm₀⟩
        rw [heq] at hready
        exact hnot msgs hready
    · exact .inr ⟨p', hp', _, hanswers a ha', hm⟩
  · rw [howed, henq]
    exact h.once

/-- An answer of the server keeps the account. -/
theorem serve (h : r.Accounts) (i : ℕ) (srv : SnapshotServer) : (r.serve i srv).Accounts := by
  rcases r.serve_cases i srv with heq | ⟨p, -, hasked, ha⟩
  · rw [heq]
    exact h
  · refine h.advance ha (fun msgs hc => ?_) (fun a ha' => absurd ha' List.not_mem_nil)
      (.inl fun msgs hc => (nomatch hc))
    rw [hasked] at hc
    exact nomatch hc

/-- The end of a request keeps the account. -/
theorem finish (h : r.Accounts) (i : ℕ) (success : Bool) : (r.finish i success).Accounts := by
  rcases r.finish_cases i success with heq | ⟨p, srv, -, hnot, ha⟩
  · rw [heq]
    exact h
  · refine h.advance ha hnot (fun a ha' => ?_) (.inr ⟨_, List.mem_singleton.mpr rfl, rfl, rfl⟩)
    rw [List.mem_singleton.mp ha']

end Accounts

/-- Harvesting does not move the last number. -/
theorem Harvests.lastSeq {queue : ℕ → PushStatus} (h : Harvests queue r r') :
    r'.lastSeq = r.lastSeq := by
  induction h with
  | refl => rfl
  | tail _ hstep ih =>
    obtain ⟨p, msgs, k, hone⟩ := hstep
    rw [hone.rest]
    exact ih

end Receiver

/-! ## What the ring answers -/

namespace SnapshotServer

/-- The numbers that a request may be served. -/
def capped (fromSeq count : UInt64) : List ℕ :=
  List.range' fromSeq.toNat (min count.toNat kMaxSnapshotRequestLen.toNat)

/-- **A full answer**: every number in reach of the request that the ring keeps is in it. -/
def Full (srv : SnapshotServer) (fromSeq count : UInt64) : Prop :=
  ∀ q ∈ capped fromSeq count, srv.keepsAt q = true →
    q ∈ (srv.handleClient fromSeq count).map fun m => m.sequence.toNat

/-- The ring keeps the first number of the request, or nothing in reach of it. -/
def Uncut (srv : SnapshotServer) (fromSeq count : UInt64) : Prop :=
  srv.keepsAt fromSeq.toNat = false → ∀ q ∈ capped fromSeq count, srv.keepsAt q = false

/-- The ring keeps the last numbers up to `n`. -/
def KeepsLast (srv : SnapshotServer) (n : ℕ) : Prop :=
  ∀ q, 1 ≤ q → q ≤ n → (srv.keepsAt q = true ↔ n < q + kSnapshotRingCapacity)

/-- **The next tick is recorded**: it takes the slot of the one that is a whole ring behind. -/
theorem KeepsLast.record {srv : SnapshotServer} {n : ℕ} {msg : TickMessage} (h : srv.KeepsLast n)
    (hwf : srv.WF) (hseq : msg.sequence.toNat = n + 1) : (srv.record msg).KeepsLast (n + 1) := by
  intro q hq hle
  have hbound := msg.sequence.toNat_lt
  have hnat : (UInt64.ofNat q).toNat = q := by
    rw [UInt64.toNat_ofNat', Nat.mod_eq_of_lt (by omega)]
  have hslot : slot (UInt64.ofNat q) = slot msg.sequence ↔
      q % kSnapshotRingCapacity = (n + 1) % kSnapshotRingCapacity := by
    unfold slot
    rw [hnat, hseq]
  have hcap : kSnapshotRingCapacity = 8192 := rfl
  unfold keepsAt
  rw [keeps_record hwf]
  split
  · next heq =>
    rw [hslot, hcap] at heq
    rw [beq_iff_eq, ← UInt64.toNat_inj, hnat, hseq, hcap]
    constructor
    · intro hsame
      omega
    · intro hlt
      omega
  · next hne =>
    rw [hslot, hcap] at hne
    have hold := h q hq (by by_contra hc; apply hne; congr 1; omega)
    unfold keepsAt at hold
    rw [hold, hcap]
    constructor
    · intro hlt
      by_contra hge
      apply hne
      have hback : n + 1 = q + 8192 := by omega
      rw [hback, Nat.add_mod_right]
    · intro hlt
      omega

/-- **The answer is full** when all numbers of the request were recorded and the ring was not cut
within its reach. -/
theorem Full.of_uncut {srv : SnapshotServer} {n : ℕ} {fromSeq count : UInt64} (hwf : srv.WF)
    (hkeeps : srv.KeepsLast n) (hfits : fromSeq.toNat + count.toNat < 2 ^ 64)
    (hpos : 1 ≤ fromSeq.toNat) (hgen : ∀ q ∈ capped fromSeq count, q ≤ n)
    (huncut : srv.Uncut fromSeq count) : srv.Full fromSeq count := by
  intro q hq hkept
  rw [handleClient_sequences hwf hfits]
  have hfirst : srv.keepsAt fromSeq.toNat = true := by
    by_contra hc
    rw [huncut (eq_false_of_ne_true hc) q hq] at hkept
    exact nomatch hkept
  have hall : ∀ q' ∈ capped fromSeq count, srv.keepsAt q' = true := by
    intro q' hq'
    have hge := (List.mem_range'_1.mp hq').1
    have hqge := (List.mem_range'_1.mp hq).1
    have hlt := (hkeeps _ hpos (hqge.trans (hgen q hq))).mp hfirst
    exact (hkeeps q' (hpos.trans hge) (hgen q' hq')).mpr (by omega)
  show q ∈ (capped fromSeq count).takeWhile srv.keepsAt
  rw [List.takeWhile_eq_self_iff.mpr hall]
  exact hq

end SnapshotServer

namespace Receiver

variable {r r' : Receiver} {msg : TickMessage}

/-- The rings that answered the requests answered them in full. -/
structure FullAnswers (r : Receiver) : Prop where
  served : ∀ p ∈ r.pending, ∀ srv, p.progress = .served srv → srv.Full p.fromSeq p.count
  answered : ∀ a ∈ r.answered, ∀ srv, a.srv = some srv → srv.Full a.fromSeq a.count

namespace FullAnswers

/-- A tick does not change the answers. -/
theorem took {sent : List (Origin × TickMessage)} (h : r.FullAnswers) (htook : Took r msg sent r') :
    r'.FullAnswers := by
  refine ⟨fun p hp srv hsrv => ?_, ?_⟩
  · cases hgap : r.gapOf msg with
    | none =>
      obtain ⟨-, -, hpending⟩ := htook.noGap hgap
      rw [hpending] at hp
      exact h.served p hp srv hsrv
    | some gap =>
      obtain ⟨start, count⟩ := gap
      obtain ⟨dispatched, -, -, -, hpending⟩ := htook.gap start count hgap
      rw [hpending] at hp
      split at hp
      · rcases List.mem_append.mp hp with hp | hp
        · exact h.served p hp srv hsrv
        · rw [List.mem_singleton.mp hp] at hsrv
          exact nomatch hsrv
      · exact h.served p hp srv hsrv
  · rw [htook.answered]
    exact h.answered

/-- Harvesting does not change the answers that are left. -/
theorem harvests {queue : ℕ → PushStatus} (h : r.FullAnswers) (hh : Harvests queue r r') :
    r'.FullAnswers := by
  induction hh with
  | refl => exact h
  | tail _ hstep ih =>
    obtain ⟨p, msgs, k, hone⟩ := hstep
    refine ⟨fun p' hp' => ih.served p' (hone.pending.mem_iff.mpr (List.mem_cons_of_mem _ hp')), ?_⟩
    rw [hone.rest]
    exact ih.answered

/-- **A request goes on.** -/
theorem advance {p p' : Recovery} {answers : List Answered} (h : r.FullAnswers)
    (ha : Advance p p' answers r r')
    (hserved : p ∈ r.pending → ∀ srv, p'.progress = .served srv → srv.Full p.fromSeq p.count)
    (hanswers : p ∈ r.pending → ∀ a ∈ answers, ∀ srv, a.srv = some srv →
      srv.Full a.fromSeq a.count) : r'.FullAnswers := by
  obtain ⟨i, hi, hset⟩ := ha.pending
  have hp : p ∈ r.pending := List.mem_of_getElem? hi
  refine ⟨fun p₀ hp₀ srv hsrv => ?_, fun a ha' => ?_⟩
  · rw [hset] at hp₀
    rcases List.mem_or_eq_of_mem_set hp₀ with hp₀ | rfl
    · exact h.served p₀ hp₀ srv hsrv
    · rw [ha.request.1, ha.request.2]
      exact hserved hp srv hsrv
  · rw [ha.rest] at ha'
    rcases List.mem_append.mp ha' with ha' | ha'
    · exact h.answered a ha'
    · exact hanswers hp a ha'

/-- A server that has the whole range answers in full. -/
theorem serve {srv : SnapshotServer} (h : r.FullAnswers) (i : ℕ)
    (hfull : ∀ p, r.pending[i]? = some p → srv.Full p.fromSeq p.count) :
    (r.serve i srv).FullAnswers := by
  rcases r.serve_cases i srv with heq | ⟨p, hi, -, ha⟩
  · rw [heq]
    exact h
  · refine h.advance ha (fun _ srv' hsrv => ?_) (fun _ a ha' => absurd ha' List.not_mem_nil)
    injection hsrv with hsrv
    rw [← hsrv]
    exact hfull p hi

/-- The end of a request does not change the answers. -/
theorem finish (h : r.FullAnswers) (i : ℕ) (success : Bool) :
    (r.finish i success).FullAnswers := by
  rcases r.finish_cases i success with heq | ⟨p, srv, hsrv, -, ha⟩
  · rw [heq]
    exact h
  · refine h.advance ha (fun _ srv' hc => (nomatch hc)) fun hp a ha' srv' hsome => ?_
    rw [List.mem_singleton.mp ha'] at hsome ⊢
    exact h.served p hp srv' (hsrv srv' hsome)

end FullAnswers

end Receiver

namespace TickSystem

open Receiver

variable {s : TickSystem} {gen : List TickMessage} {d : ℕ}

/-! ## Runs of the publisher -/

/-- **The publisher numbers its ticks** from 1 and keeps each before it sends it, and the network
delivers some of them in order; the queue is open. `gen` are the ticks generated so far, and `d`
is the last number that the network delivered. -/
def Publishes : List TickMessage → ℕ → List Act → Prop
  | _, _, [] => True
  | gen, d, .record msg :: acts =>
    msg.sequence.toNat = gen.length + 1 ∧ Publishes (gen ++ [msg]) d acts
  | gen, d, .arrive msg whole _ ends :: acts =>
    (msg ∈ gen ∧ d < msg.sequence.toNat ∧ whole = true ∧ ends = .ok) ∧
      Publishes gen msg.sequence.toNat acts
  | gen, d, .drain queue :: acts => (∀ k, queue k ≠ .closed) ∧ Publishes gen d acts
  | gen, d, .serve _ :: acts => Publishes gen d acts
  | gen, d, .finish _ _ :: acts => Publishes gen d acts

/-- **A step that loses nothing**: `try_push` takes each recovered tick, and a request is answered
while the ring keeps its first number or when it keeps nothing in its reach. -/
def Spares (s : TickSystem) : Act → Prop
  | .drain queue => ∀ k, queue k = .ok
  | .serve i => ∀ p, s.receiver.pending[i]? = some p → s.srv.Uncut p.fromSeq p.count
  | _ => True

/-- All steps of a run lose nothing. -/
def SparesAll (s : TickSystem) : List Act → Prop
  | [] => True
  | act :: acts => s.Spares act ∧ (s.step act).SparesAll acts

/-- The receiver and the publisher between two steps. -/
structure Feed (s : TickSystem) (gen : List TickMessage) (d : ℕ) : Prop where
  inv : s.Inv
  accounts : s.receiver.Accounts
  full : s.receiver.FullAnswers
  ring : s.srv.KeepsLast gen.length
  numbered : ∀ m ∈ gen, m.sequence.toNat ≤ gen.length
  last : s.receiver.lastSeq.toNat ≤ d
  sent : d ≤ gen.length

namespace Feed

/-- The numbers of a request were generated. -/
theorem generated {p : Recovery} (h : s.Feed gen d) (hp : p ∈ s.receiver.pending) :
    p.fromSeq.toNat + p.count.toNat < 2 ^ 64 ∧
      ∀ q ∈ List.range' p.fromSeq.toNat p.count.toNat, 1 ≤ q ∧ q ≤ gen.length := by
  obtain ⟨g, hg, hstart, hcount⟩ := h.inv.tracked.asked p hp
  have hfits := h.inv.tracked.fits g hg
  rw [hstart, hcount] at hfits
  refine ⟨hfits, fun q hq => ?_⟩
  have hmissing : q ∈ s.receiver.missing :=
    h.inv.tracked.mem_owed (List.mem_flatMap.mpr ⟨p, hp, hq⟩)
  have hbelow := h.inv.tracked.below q hmissing
  have hlast := h.last
  have hsent := h.sent
  exact ⟨h.accounts.positive q hmissing, by omega⟩

/-- A request that the ring answers is answered in full. -/
theorem full_answer {p : Recovery} (h : s.Feed gen d) (hp : p ∈ s.receiver.pending)
    (huncut : s.srv.Uncut p.fromSeq p.count) : s.srv.Full p.fromSeq p.count := by
  obtain ⟨hfits, hgen⟩ := h.generated hp
  have hsub : ∀ q ∈ SnapshotServer.capped p.fromSeq p.count,
      q ∈ List.range' p.fromSeq.toNat p.count.toNat := by
    intro q hq
    obtain ⟨hge, hlt⟩ := List.mem_range'_1.mp hq
    exact List.mem_range'_1.mpr ⟨hge, by omega⟩
  intro q hq
  have hfirst := hsub q hq
  have hcount := List.mem_range'_1.mp hfirst
  have hpos := (hgen p.fromSeq.toNat (List.mem_range'_1.mpr ⟨le_rfl, by omega⟩)).1
  exact SnapshotServer.Full.of_uncut h.inv.srv h.ring hfits hpos
    (fun q' hq' => (hgen q' (hsub q' hq')).2) huncut q hq

/-- **The publisher generates a tick.** -/
theorem record {msg : TickMessage} (h : s.Feed gen d) (hseq : msg.sequence.toNat = gen.length + 1) :
    (s.step (.record msg)).Feed (gen ++ [msg]) d := by
  have hlen : (gen ++ [msg]).length = gen.length + 1 := by simp
  refine ⟨⟨h.inv.srv.record msg, h.inv.tracked⟩, h.accounts, h.full, ?_, fun m hm => ?_, h.last, ?_⟩
  · rw [hlen]
    exact h.ring.record h.inv.srv hseq
  · rw [hlen]
    rcases List.mem_append.mp hm with hm | hm
    · exact (h.numbered m hm).trans (Nat.le_succ _)
    · rw [List.mem_singleton.mp hm]
      exact hseq.le
  · rw [hlen]
    exact h.sent.trans (Nat.le_succ _)

/-- **The network delivers a tick.** -/
theorem arrive {msg : TickMessage} (h : s.Feed gen d) (hgen : msg ∈ gen)
    (hnext : d < msg.sequence.toNat) (fulls : ℕ) :
    (s.step (.arrive msg true fulls .ok)).Feed gen msg.sequence.toNat := by
  have hlast := h.last
  have hahead : s.receiver.Ahead msg := fun _ => by omega
  by_cases htakes : Takes msg true
  · have htook := processOne_took (r := s.receiver) htakes fulls .ok
    rw [if_pos rfl] at htook
    refine ⟨⟨h.inv.srv, ?_⟩, h.accounts.took h.inv.tracked hahead htook, h.full.took htook, h.ring,
      h.numbered, ?_, h.numbered msg hgen⟩
    · exact h.inv.tracked.took hahead.notLate (processOne_took htakes fulls .ok)
    · show (s.receiver.processOne msg true fulls .ok).lastSeq.toNat ≤ _
      rw [htook.lastSeq]
  · have hsame := processOne_of_not_takes (r := s.receiver) htakes fulls .ok
    have hinv : (s.step (.arrive msg true fulls .ok)).Inv := by
      refine ⟨h.inv.srv, ?_⟩
      show (s.receiver.processOne msg true fulls .ok).Tracked
      rw [hsame]
      exact h.inv.tracked.invalid
    refine ⟨hinv, ?_, ?_, h.ring, h.numbered, ?_, h.numbered msg hgen⟩
    · show (s.receiver.processOne msg true fulls .ok).Accounts
      rw [hsame]
      have ha := h.accounts
      exact ⟨ha.positive, ha.queued, ha.covered, ha.requested, ha.fetched, ha.once⟩
    · show (s.receiver.processOne msg true fulls .ok).FullAnswers
      rw [hsame]
      exact ⟨h.full.served, h.full.answered⟩
    · show (s.receiver.processOne msg true fulls .ok).lastSeq.toNat ≤ _
      rw [hsame]
      exact hlast.trans hnext.le

/-- **A request is answered, or ends.** -/
theorem serve (h : s.Feed gen d) (i : ℕ) (hspares : s.Spares (.serve i)) :
    (s.step (.serve i)).Feed gen d := by
  have hlast : (s.receiver.serve i s.srv).lastSeq = s.receiver.lastSeq := by
    rcases s.receiver.serve_cases i s.srv with heq | ⟨p, -, -, ha⟩
    · rw [heq]
    · rw [ha.rest]
  refine ⟨⟨h.inv.srv, h.inv.tracked.serve h.inv.srv i⟩, h.accounts.serve i s.srv, ?_, h.ring,
    h.numbered, hlast ▸ h.last, h.sent⟩
  exact h.full.serve i fun p hp => h.full_answer (List.mem_of_getElem? hp) (hspares p hp)

/-- The end of a request keeps the feed. -/
theorem finish (h : s.Feed gen d) (i : ℕ) (success : Bool) :
    (s.step (.finish i success)).Feed gen d := by
  have hlast : (s.receiver.finish i success).lastSeq = s.receiver.lastSeq := by
    rcases s.receiver.finish_cases i success with heq | ⟨p, srv, -, -, ha⟩
    · rw [heq]
    · rw [ha.rest]
  exact ⟨⟨h.inv.srv, h.inv.tracked.finish i success⟩, h.accounts.finish i success,
    h.full.finish i success, h.ring, h.numbered, hlast ▸ h.last, h.sent⟩

/-- **The receiver looks at its requests.** -/
theorem drain {queue : ℕ → PushStatus} (h : s.Feed gen d) (hroom : ∀ k, queue k = .ok) :
    (s.step (.drain queue)).Feed gen d := by
  have hh := s.receiver.drainRecoveries_harvests queue
  obtain ⟨haccounts, htracked⟩ := h.accounts.harvests h.inv.tracked hroom hh
  exact ⟨⟨h.inv.srv, htracked⟩, haccounts, h.full.harvests hh, h.ring, h.numbered,
    hh.lastSeq ▸ h.last, h.sent⟩

end Feed

/-- **Runs**: the account is kept by every run whose steps lose nothing. -/
theorem Feed.after (h : s.Feed gen d) (acts : List Act) (hpub : Publishes gen d acts)
    (hspares : s.SparesAll acts) : ∃ gen' d', (s.after acts).Feed gen' d' := by
  induction acts generalizing s gen d with
  | nil => exact ⟨gen, d, h⟩
  | cons act acts ih =>
    obtain ⟨hstep, hrest⟩ := hspares
    cases act with
    | record msg => exact ih (h.record hpub.1) hpub.2 hrest
    | arrive msg whole fulls ends =>
      obtain ⟨⟨hgen, hnext, rfl, rfl⟩, hpub⟩ := hpub
      exact ih (h.arrive hgen hnext fulls) hpub hrest
    | serve i => exact ih (h.serve i hstep) hpub hrest
    | finish i success => exact ih (h.finish i success) hpub hrest
    | drain queue => exact ih (h.drain hstep) hpub.2 hrest

/-! ## Nothing is lost -/

/-- Why a number may stay away from the queue: its gap was not asked for, since enough requests
were under way; the request failed; the number is out of reach of its request; or the ring had
lost it when the request was answered. -/
def Excused (r : Receiver) (q : ℕ) : Prop :=
  (∃ g ∈ r.declared, q ∈ g.numbers ∧ g.dispatched = false) ∨
    ∃ a ∈ r.answered, q ∈ List.range' a.fromSeq.toNat a.count.toNat ∧
      (a.srv = none ∨ a.fromSeq.toNat + kMaxSnapshotRequestLen.toNat ≤ q ∨
        ∃ srv, a.srv = some srv ∧ srv.keepsAt q = false)

/-- The ticks of an answer are in the queue, once nothing is under way. -/
theorem Feed.fetched (h : s.Feed gen d) (hdone : s.receiver.pending = []) {a : Answered}
    {m : TickMessage} (ha : a ∈ s.receiver.answered) (hm : m ∈ a.msgs) :
    (.recovered, m) ∈ s.receiver.enqueued := by
  refine (h.accounts.fetched a ha m hm).resolve_right fun hwait => ?_
  obtain ⟨p, hp, -⟩ := hwait
  rw [hdone] at hp
  exact absurd hp List.not_mem_nil

/-- A number that is missing was recovered or has an excuse, once nothing is under way. -/
theorem Feed.recovered (h : s.Feed gen d) (hdone : s.receiver.pending = []) {q : ℕ}
    (hq : q ∈ s.receiver.missing) :
    q ∈ s.receiver.enqueued.map entrySeq ∨ Excused s.receiver q := by
  obtain ⟨g, hg, hnumbers⟩ := List.mem_flatMap.mp hq
  cases hdispatched : g.dispatched with
  | false => exact .inr (.inl ⟨g, hg, hnumbers, hdispatched⟩)
  | true =>
    rcases h.accounts.requested g hg hdispatched with ⟨p, hp, -⟩ | ⟨a, ha, hfrom, hcount⟩
    · rw [hdone] at hp
      exact absurd hp List.not_mem_nil
    · have hrange : q ∈ List.range' a.fromSeq.toNat a.count.toNat := by
        rw [hfrom, hcount]
        exact hnumbers
      have hexcuse : (a.srv = none ∨ a.fromSeq.toNat + kMaxSnapshotRequestLen.toNat ≤ q ∨
          ∃ srv, a.srv = some srv ∧ srv.keepsAt q = false) → Excused s.receiver q :=
        fun hwhy => .inr ⟨a, ha, hrange, hwhy⟩
      cases hsrv : a.srv with
      | none => exact .inr (hexcuse (.inl hsrv))
      | some srv =>
        rcases Nat.lt_or_ge q (a.fromSeq.toNat + kMaxSnapshotRequestLen.toNat) with hlt | hge
        · cases hkeeps : srv.keepsAt q with
          | false => exact .inr (hexcuse (.inr (.inr ⟨srv, hsrv, hkeeps⟩)))
          | true =>
            obtain ⟨hlow, hhigh⟩ := List.mem_range'_1.mp hrange
            have hreach : q ∈ SnapshotServer.capped a.fromSeq a.count :=
              List.mem_range'_1.mpr ⟨hlow, by omega⟩
            obtain ⟨m, hm, hseq⟩ :=
              List.mem_map.mp (h.full.answered a ha srv hsrv q hreach hkeeps)
            have hmsgs : m ∈ a.msgs := by
              unfold Answered.msgs
              rw [hsrv]
              exact hm
            exact .inl (List.mem_map.mpr ⟨_, h.fetched hdone ha hmsgs, hseq⟩)
        · exact .inr (hexcuse (.inr (.inl hge)))

end TickSystem

end PulseForge
