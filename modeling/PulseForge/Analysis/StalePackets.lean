import PulseForge.Analysis.FeedNumbering
import PulseForge.Analysis.OrderBookSides
import PulseForge.Analysis.OrderBookSpec
import PulseForge.Analysis.TraderMoves

/-!
# What becomes of the messages of a packet

Every message of a packet has a fate. A message whose number was due and that does not decode
is skipped: the tracker has gone past it and the book does not have it. `handle_packet`
resynchronises on a gap and on a message that contradicts the book, and on nothing else. So a
skipped message, or a packet that breaks off, is noticed exactly when one of these happens to
be in the packet too, before anything is applied behind the loss.
-/

set_option autoImplicit false

namespace PulseForge.Trader

open Foundation

/-! ## Fates -/

/-- What the callback does with a message. -/
inductive Fate where
  | unread
  | duplicate
  | gap
  | skipped
  | applied
  | inconsistent
  | ignored
deriving Repr, DecidableEq

/-- A message whose number is due. -/
def dueFate (book : OrderBook) (locate : UInt16) (m : Bytes) : Fate :=
  match Itch.decode m with
  | none => .skipped
  | some msg =>
    match (applyItch book locate msg).2 with
    | .applied => .applied
    | .inconsistent => .inconsistent
    | .ignored => .ignored

/-- The book behind it. -/
def dueBook (book : OrderBook) (locate : UInt16) (m : Bytes) : OrderBook :=
  match Itch.decode m with
  | none => book
  | some msg => (applyItch book locate msg).1

/-- Messages whose numbers are due, one after the other. -/
def dueFates (locate : UInt16) : OrderBook → List Bytes → List Fate
  | _, [] => []
  | book, m :: ms =>
    match dueFate book locate m with
    | .inconsistent => .inconsistent :: ms.map fun _ => .unread
    | fate => fate :: dueFates locate (dueBook book locate m) ms

namespace Pass

def fate (p : Pass) (call : ℕ × Bytes) : Fate :=
  if p.gap || p.inconsistent then .unread
  else match (p.trader.seq.onMessage call.1).1 with
    | .duplicate => .duplicate
    | .gap => .gap
    | .apply => dueFate p.trader.book p.trader.locate call.2

/-- The fates of the messages of a packet. -/
def fates : Pass → List (ℕ × Bytes) → List Fate
  | _, [] => []
  | p, call :: calls => p.fate call :: fates (p.onMessage call) calls

variable {p : Pass} {call : ℕ × Bytes} {calls : List (ℕ × Bytes)}

/-- **The flags** say what happened. -/
theorem flags_onMessage (p : Pass) (call : ℕ × Bytes) :
    ((p.onMessage call).gap = true ↔ p.gap = true ∨ p.fate call = .gap) ∧
      ((p.onMessage call).inconsistent = true ↔
        p.inconsistent = true ∨ p.fate call = .inconsistent) := by
  unfold onMessage fate
  split
  · simp
  · generalize p.trader.seq.onMessage call.1 = answer
    obtain ⟨verdict, seq⟩ := answer
    cases verdict with
    | duplicate => simp
    | gap => simp
    | apply =>
      dsimp only
      unfold Pass.apply dueFate
      dsimp only
      cases Itch.decode call.2 with
      | none => simp
      | some msg =>
        dsimp only
        generalize applyItch p.trader.book p.trader.locate msg = result
        obtain ⟨book, answer⟩ := result
        cases answer with
        | applied => simp
        | inconsistent => simp
        | ignored =>
          dsimp only
          split
          · split <;> simp
          · simp

/-- The flags of a packet say which fates occurred. -/
theorem flags_foldl (calls : List (ℕ × Bytes)) (p : Pass) :
    ((calls.foldl onMessage p).gap = true ↔ p.gap = true ∨ .gap ∈ p.fates calls) ∧
      ((calls.foldl onMessage p).inconsistent = true ↔
        p.inconsistent = true ∨ .inconsistent ∈ p.fates calls) := by
  induction calls generalizing p with
  | nil => simp [fates]
  | cons call calls ih =>
    obtain ⟨hgap, hinc⟩ := ih (p.onMessage call)
    obtain ⟨hgap', hinc'⟩ := p.flags_onMessage call
    simp only [List.foldl_cons, fates, List.mem_cons]
    rw [hgap, hinc, hgap', hinc', eq_comm (a := Fate.gap), eq_comm (a := Fate.inconsistent)]
    exact ⟨or_assoc, or_assoc⟩

/-- Once one of them is up nothing is read any more. -/
theorem fates_of_stopped (h : (p.gap || p.inconsistent) = true) (calls : List (ℕ × Bytes)) :
    p.fates calls = calls.map fun _ => .unread := by
  induction calls with
  | nil => rfl
  | cons call calls ih =>
    have hsame : p.onMessage call = p := by rw [onMessage, if_pos h]
    rw [fates, hsame, ih, fate, if_pos h, List.map_cons]

/-- Messages that were seen before change nothing. -/
theorem fates_of_seen (hgo : (p.gap || p.inconsistent) = false)
    (h : ∀ call ∈ calls, call.1 < p.trader.seq.expected) (rest : List (ℕ × Bytes)) :
    p.fates (calls ++ rest) = (calls.map fun _ => .duplicate) ++ p.fates rest := by
  induction calls with
  | nil => rfl
  | cons call calls ih =>
    have hlt := h call List.mem_cons_self
    have hverdict : p.trader.seq.onMessage call.1 = (.duplicate, p.trader.seq) := by
      rw [SequenceTracker.onMessage, if_neg (by omega), if_pos hlt]
    have hsame : p.onMessage call = p := by
      rw [onMessage, if_neg (by rw [hgo]; decide), hverdict]
    have hfate : p.fate call = .duplicate := by
      rw [fate, if_neg (by rw [hgo]; decide), hverdict]
    rw [List.cons_append, fates, hsame, hfate, ih fun c hc => h c (List.mem_cons_of_mem _ hc)]
    rfl

/-- A message that comes too early ends the reading. -/
theorem fates_of_early (hgo : (p.gap || p.inconsistent) = false)
    (h : p.trader.seq.expected < call.1) (calls : List (ℕ × Bytes)) :
    p.fates (call :: calls) = .gap :: calls.map fun _ => .unread := by
  have hverdict : p.trader.seq.onMessage call.1 = (.gap, p.trader.seq) := by
    rw [SequenceTracker.onMessage, if_neg (by omega), if_neg (by omega)]
  have hstop : p.onMessage call = { p with gap := true } := by
    rw [onMessage, if_neg (by rw [hgo]; decide), hverdict]
  have hfate : p.fate call = .gap := by
    rw [fate, if_neg (by rw [hgo]; decide), hverdict]
  rw [fates, hfate, hstop, fates_of_stopped (Bool.true_or _)]

/-- A message that is due is read, and the next number is due. -/
theorem onMessage_due (hgo : (p.gap || p.inconsistent) = false)
    (hdue : call.1 = p.trader.seq.expected) :
    p.fate call = dueFate p.trader.book p.trader.locate call.2 ∧
      (p.onMessage call).trader.book = dueBook p.trader.book p.trader.locate call.2 ∧
      (p.onMessage call).trader.locate = p.trader.locate ∧
      (p.onMessage call).trader.seq.expected = (call.1 + 1) % 2 ^ 64 := by
  have hverdict : p.trader.seq.onMessage call.1 = (.apply, ⟨(call.1 + 1) % 2 ^ 64⟩) := by
    rw [SequenceTracker.onMessage, if_pos hdue, hdue]
  rw [fate, onMessage, if_neg (by rw [hgo]; decide), if_neg (by rw [hgo]; decide), hverdict]
  dsimp only
  refine ⟨rfl, ?_⟩
  unfold Pass.apply dueBook
  dsimp only
  cases Itch.decode call.2 with
  | none => exact ⟨rfl, rfl, rfl⟩
  | some msg =>
    dsimp only
    generalize applyItch p.trader.book p.trader.locate msg = result
    obtain ⟨book, answer⟩ := result
    cases answer with
    | applied => exact ⟨rfl, rfl, rfl⟩
    | inconsistent => exact ⟨rfl, rfl, rfl⟩
    | ignored =>
      dsimp only
      split
      · split <;> exact ⟨rfl, rfl, rfl⟩
      · exact ⟨rfl, rfl, rfl⟩

/-- **From the expected number on** every message is read until one contradicts the book. -/
theorem fates_of_due {first : ℕ} (msgs : List Bytes) (hgo : (p.gap || p.inconsistent) = false)
    (hdue : first % 2 ^ 64 = p.trader.seq.expected) :
    p.fates (Mold.numbered first msgs) = dueFates p.trader.locate p.trader.book msgs := by
  induction msgs generalizing first p with
  | nil => rfl
  | cons m msgs ih =>
    obtain ⟨hfate, hbook, hlocate, hseq⟩ := @onMessage_due p (first % 2 ^ 64, m) hgo hdue
    obtain ⟨hgap, hinc⟩ := p.flags_onMessage (first % 2 ^ 64, m)
    have hflags : p.gap = false ∧ p.inconsistent = false := by simpa using hgo
    have hnogap : p.fate (first % 2 ^ 64, m) ≠ .gap := by
      rw [hfate]
      unfold dueFate
      split
      · decide
      · split <;> decide
    rw [Mold.numbered_cons, fates, hfate, dueFates]
    by_cases hcontra : dueFate p.trader.book p.trader.locate m = .inconsistent
    · have hstop : ((p.onMessage (first % 2 ^ 64, m)).gap ||
          (p.onMessage (first % 2 ^ 64, m)).inconsistent) = true := by
        rw [hinc.mpr (.inr (hfate.trans hcontra)), Bool.or_true]
      rw [fates_of_stopped hstop, hcontra, List.map_const', MarketDataFeed.length_numbered, ← List.map_const']
    · have hgo' : ((p.onMessage (first % 2 ^ 64, m)).gap ||
          (p.onMessage (first % 2 ^ 64, m)).inconsistent) = false := by
        rw [Bool.or_eq_false_iff, ← Bool.not_eq_true, ← Bool.not_eq_true, hgap, hinc, hfate]
        simp only [hflags, Bool.false_eq_true, false_or]
        exact ⟨hfate ▸ hnogap, hcontra⟩
      have hrest := @ih (p.onMessage (first % 2 ^ 64, m)) (first + 1) hgo' (by rw [hseq, Nat.mod_add_mod])
      rw [hrest, hbook, hlocate]
      split
      · next hc => exact absurd hc hcontra
      · rfl

end Pass

/-! ## Packets -/

variable {t : Trader} {pkt : Bytes}

/-- The messages that `for_each_message` delivers, and what it answers. -/
def reads (pkt : Bytes) : List (ℕ × Bytes) × Bool :=
  match Mold.parse pkt with
  | none => ([], true)
  | some (_, calls, ok) => (calls, ok)

/-- The messages that were not seen before. -/
def fresh (t : Trader) (pkt : Bytes) : List (ℕ × Bytes) :=
  (reads pkt).1.dropWhile fun call => call.1 < t.seq.expected

/-- The fates of the messages of a packet. -/
def packetFates (t : Trader) (pkt : Bytes) : List Fate :=
  Pass.fates { trader := t } (reads pkt).1

/-- **A loss is noticed**: when a number goes by whose message was not decoded, or the packet
breaks off, then the book is given up or replaced, no message is applied in between, and no
order is sent. -/
def LossNoticed (t : Trader) (pkt : Bytes) (reply : SnapshotReply) : Prop :=
  .skipped ∈ packetFates t pkt ∨ (reads pkt).2 = false →
    ((t.handlePacket pkt reply).synced = false ∨
      (t.handlePacket pkt reply).snapshots = t.snapshots + 1) ∧
    ¬ [Fate.skipped, Fate.applied].Sublist (packetFates t pkt) ∧
    (t.handlePacket pkt reply).entered = t.entered

/-- **Nothing is lost in silence**: the packet is whole and every message that is new decodes;
or it begins behind a gap; or one of its messages contradicts the book before another is
applied behind one that does not decode. -/
def NoSilentLoss (t : Trader) (pkt : Bytes) : Prop :=
  ((reads pkt).2 = true ∧ ∀ call ∈ fresh t pkt, Itch.decode call.2 ≠ none) ∨
  (∃ call, (fresh t pkt).head? = some call ∧ call.1 ≠ t.seq.expected) ∨
  (.inconsistent ∈ dueFates t.locate t.book ((fresh t pkt).map Prod.snd) ∧
    ¬ [Fate.skipped, Fate.applied].Sublist
      (dueFates t.locate t.book ((fresh t pkt).map Prod.snd)))

/-- What is delivered is numbered from the header's number on. -/
theorem reads_numbered (pkt : Bytes) : ∃ first msgs, (reads pkt).1 = Mold.numbered first msgs := by
  unfold reads Mold.parse
  cases Mold.parseHeader pkt with
  | none => exact ⟨0, [], rfl⟩
  | some h =>
    show ∃ first msgs, (Mold.forEachMessage pkt h).1 = _
    unfold Mold.forEachMessage
    split
    · exact ⟨0, [], rfl⟩
    · exact ⟨h.sequence, _, rfl⟩

/-- The numbers behind the first messages. -/
theorem numbered_drop (first : ℕ) (msgs : List Bytes) (k : ℕ) :
    (Mold.numbered first msgs).drop k = Mold.numbered (first + k) (msgs.drop k) := by
  induction k generalizing first msgs with
  | zero => rfl
  | succ k ih =>
    cases msgs with
    | nil => rfl
    | cons msg msgs =>
      rw [Mold.numbered_cons, List.drop_succ_cons, List.drop_succ_cons, ih, Nat.add_right_comm]
      rfl

/-- The messages under the numbers. -/
theorem numbered_snd (first : ℕ) (msgs : List Bytes) :
    (Mold.numbered first msgs).map Prod.snd = msgs := by
  induction msgs generalizing first with
  | nil => rfl
  | cons msg msgs ih => rw [Mold.numbered_cons, List.map_cons, ih]

/-- **The fates of a packet**: what was seen before, then a gap, or what is due. -/
theorem packetFates_eq (t : Trader) (pkt : Bytes) :
    ∃ seen : List (ℕ × Bytes), packetFates t pkt = (seen.map fun _ => .duplicate) ++
      match fresh t pkt with
      | [] => []
      | call :: rest =>
        if call.1 = t.seq.expected then dueFates t.locate t.book ((call :: rest).map Prod.snd)
        else .gap :: rest.map fun _ => .unread := by
  set seen := (reads pkt).1.takeWhile fun call => call.1 < t.seq.expected with hseen
  have hsplit : seen ++ fresh t pkt = (reads pkt).1 := List.takeWhile_append_dropWhile
  have hold : ∀ call ∈ seen, call.1 < t.seq.expected := by
    intro call hcall
    simpa using List.mem_takeWhile_imp hcall
  obtain ⟨first, msgs, hreads⟩ := reads_numbered pkt
  have hnumbered : fresh t pkt = Mold.numbered (first + seen.length) (msgs.drop seen.length) := by
    rw [← numbered_drop, ← hreads, ← hsplit, List.drop_left]
  refine ⟨seen, ?_⟩
  have hgo : ((({ trader := t } : Pass).gap) || ({ trader := t } : Pass).inconsistent) = false := rfl
  rw [packetFates, ← hsplit, Pass.fates_of_seen hgo hold]
  congr 1
  cases hfresh : fresh t pkt with
  | nil => rfl
  | cons call rest =>
    dsimp only
    have hge : ¬ call.1 < t.seq.expected := by
      have hne : fresh t pkt ≠ [] := by rw [hfresh]; exact List.cons_ne_nil _ _
      have hhead := List.head_dropWhile_not
        (fun call : ℕ × Bytes => decide (call.1 < t.seq.expected)) hne
      have hcall : (fresh t pkt).head hne = call := by simp [hfresh]
      unfold fresh at hcall
      rw [hcall] at hhead
      simpa using hhead
    split
    · next hdue =>
      rw [← hfresh, hnumbered, numbered_snd]
      apply Pass.fates_of_due _ hgo
      have hmsgs : msgs.drop seen.length ≠ [] := by
        intro hnil
        rw [hnumbered, hnil] at hfresh
        exact nomatch hfresh
      obtain ⟨m, ms, hm⟩ := List.exists_cons_of_ne_nil hmsgs
      rw [hnumbered, hm, Mold.numbered_cons] at hfresh
      have hcall := (List.cons.inj hfresh).1
      rw [← hdue, ← hcall]
    · next hdue => exact Pass.fates_of_early hgo (show t.seq.expected < call.1 by omega) rest

/-! ## What the flags lead to -/

/-- A resync leaves the trader unsynced, or took a snapshot. -/
theorem resync_stale (t : Trader) (reply : SnapshotReply) :
    ((t.resync reply).synced = false ∨ (t.resync reply).snapshots = t.snapshots + 1) ∧
      (t.resync reply).entered = t.entered := by
  unfold resync
  have hcancel := streams_cancelAll { t with synced := false, resyncs := t.resyncs + 1 }
  generalize cancelAll _ = t₁ at hcancel ⊢
  have hfresh := snapshot_fresh t₁ reply hcancel.synced
  have hrest := refreshes_snapshot t₁ reply
  unfold Refreshes at hrest
  refine ⟨?_, ?_⟩
  · rw [hcancel.snapshots] at hfresh
    exact hfresh
  · rw [hrest]
    exact hcancel.entered

/-- `maybe_trade` does not touch the synchronisation. -/
theorem maybeTrade_synced (t : Trader) (bookDone : ℕ) :
    (t.maybeTrade bookDone).synced = t.synced ∧ (t.maybeTrade bookDone).snapshots = t.snapshots := by
  unfold maybeTrade
  dsimp only
  split
  · exact ⟨rfl, rfl⟩
  · next sig _ =>
    split
    · generalize hready : ({ t with
        strat := (t.strat.onBookUpdate t.book t.risk.position _ bookDone).2
        overflowed := _ } : Trader) = t₀
      obtain ⟨t₁, txRing, txHead, hstream, heq⟩ := t₀.sendOrder_eq sig bookDone
      rw [heq]
      subst hready
      exact ⟨hstream.synced, hstream.snapshots⟩
    · exact ⟨rfl, rfl⟩

/-- **A flag** gives the book up; **no flag** keeps it. -/
theorem Pass.finish_stale (p : Pass) (reply : SnapshotReply) :
    if p.gap = true ∨ p.inconsistent = true then
      ((p.finish reply).synced = false ∨ (p.finish reply).snapshots = p.trader.snapshots + 1) ∧
        (p.finish reply).entered = p.trader.entered
    else (p.finish reply).synced = p.trader.synced ∧
      (p.finish reply).snapshots = p.trader.snapshots := by
  have hresync := resync_stale p.trader.tick reply
  unfold Pass.finish
  dsimp only
  by_cases hgap : p.gap = true
  · rw [if_pos (.inl hgap), if_pos hgap]
    exact hresync
  · by_cases hinc : p.inconsistent = true
    · rw [if_pos (.inr hinc), if_neg hgap, if_pos hinc]
      exact hresync
    · rw [if_neg (by tauto), if_neg hgap, if_neg hinc]
      split
      · exact maybeTrade_synced p.trader.tick _
      · exact ⟨rfl, rfl⟩

/-- A packet with messages is read and then judged; any other has nothing to lose. -/
theorem handlePacket_cases (hsync : t.synced = true) (pkt : Bytes) (reply : SnapshotReply) :
    reads pkt = ([], true) ∨
      t.handlePacket pkt reply =
        ((reads pkt).1.foldl Pass.onMessage { trader := t }).finish reply := by
  unfold handlePacket reads Mold.parse
  cases Mold.parseHeader pkt with
  | none => exact .inl rfl
  | some h =>
    dsimp only [Option.map_some]
    by_cases hend : h.count = Mold.kEndOfSession
    · left
      rw [Mold.forEachMessage, if_pos hend]
    · by_cases hzero : h.count = 0
      · left
        rw [Mold.forEachMessage, if_neg hend, hzero]
        rfl
      · right
        rw [if_neg hend, if_neg (by rw [hsync]; decide), if_neg hzero]

/-- **A loss is noticed** when a flag goes up and nothing is applied behind it. -/
theorem lossNoticed_iff_flags (hsync : t.synced = true) (pkt : Bytes) (reply : SnapshotReply) :
    LossNoticed t pkt reply ↔
      (.skipped ∈ packetFates t pkt ∨ (reads pkt).2 = false →
        (.gap ∈ packetFates t pkt ∨ .inconsistent ∈ packetFates t pkt) ∧
        ¬ [Fate.skipped, Fate.applied].Sublist (packetFates t pkt)) := by
  unfold LossNoticed
  rcases handlePacket_cases hsync pkt reply with hnone | hread
  · simp [packetFates, hnone, Pass.fates]
  · obtain ⟨hgap, hinc⟩ := Pass.flags_foldl (reads pkt).1 { trader := t }
    have hfinish := Pass.finish_stale ((reads pkt).1.foldl Pass.onMessage { trader := t }) reply
    have hreplays := Pass.foldl_replays (reads pkt).1 { trader := t }
    rw [← hread] at hfinish
    generalize (reads pkt).1.foldl Pass.onMessage { trader := t } = p at hgap hinc hfinish hreplays
    unfold Replays at hreplays
    have hkept : p.trader.synced = t.synced ∧ p.trader.snapshots = t.snapshots ∧
        p.trader.entered = t.entered := by
      rw [hreplays]
      exact ⟨rfl, rfl, rfl⟩
    obtain ⟨hsynced, hsnapshots, hentered⟩ := hkept
    have hflags : p.gap = true ∨ p.inconsistent = true ↔
        .gap ∈ packetFates t pkt ∨ .inconsistent ∈ packetFates t pkt := by
      rw [hgap, hinc]
      simp [packetFates]
    rw [hsynced, hsnapshots, hentered] at hfinish
    by_cases hflag : p.gap = true ∨ p.inconsistent = true
    · rw [if_pos hflag] at hfinish
      have hup := hflags.mp hflag
      constructor
      · exact fun h hloss => ⟨hup, (h hloss).2.1⟩
      · exact fun h hloss => ⟨hfinish.1, (h hloss).2, hfinish.2⟩
    · rw [if_neg hflag, hsync] at hfinish
      have hdown : ¬ (.gap ∈ packetFates t pkt ∨ .inconsistent ∈ packetFates t pkt) :=
        fun h => hflag (hflags.mpr h)
      have hfresh : ¬ ((t.handlePacket pkt reply).synced = false ∨
          (t.handlePacket pkt reply).snapshots = t.snapshots + 1) := by
        rw [hfinish.1, hfinish.2]
        simp
      constructor
      · exact fun h hloss => absurd (h hloss).1 hfresh
      · exact fun h hloss => absurd (h hloss).1 hdown

/-! ## What the fates say about the messages -/

/-- A message that is due is no gap. -/
theorem gap_notMem_dueFates (locate : UInt16) (book : OrderBook) (msgs : List Bytes) :
    .gap ∉ dueFates locate book msgs := by
  induction msgs generalizing book with
  | nil => exact List.not_mem_nil
  | cons m msgs ih =>
    rw [dueFates]
    split
    · simp
    · have hne : dueFate book locate m ≠ .gap := by
        unfold dueFate
        split
        · decide
        · split <;> decide
      rw [List.mem_cons, not_or]
      exact ⟨fun h => hne h.symm, ih _⟩

/-- A message is skipped exactly when it cannot be decoded. -/
theorem dueFate_skipped_iff {book : OrderBook} {locate : UInt16} {m : Bytes} :
    dueFate book locate m = .skipped ↔ Itch.decode m = none := by
  unfold dueFate
  cases Itch.decode m with
  | none => simp
  | some msg =>
    dsimp only
    split <;> simp

/-- Messages that decode are not skipped. -/
theorem skipped_notMem_of_decode {locate : UInt16} {book : OrderBook} {msgs : List Bytes}
    (h : ∀ m ∈ msgs, Itch.decode m ≠ none) : .skipped ∉ dueFates locate book msgs := by
  induction msgs generalizing book with
  | nil => exact List.not_mem_nil
  | cons m msgs ih =>
    have hm := h m List.mem_cons_self
    rw [dueFates]
    split
    · simp
    · rw [List.mem_cons, not_or]
      refine ⟨fun hskip => hm (dueFate_skipped_iff.mp hskip.symm), ?_⟩
      exact ih fun m' hm' => h m' (List.mem_cons_of_mem _ hm')

/-- When nothing contradicts the book, every message is read. -/
theorem decode_of_fates {locate : UInt16} {book : OrderBook} {msgs : List Bytes}
    (hskip : .skipped ∉ dueFates locate book msgs)
    (hinc : .inconsistent ∉ dueFates locate book msgs) : ∀ m ∈ msgs, Itch.decode m ≠ none := by
  induction msgs generalizing book with
  | nil => exact fun m hm => absurd hm List.not_mem_nil
  | cons m msgs ih =>
    rw [dueFates] at hskip hinc
    split at hskip
    · next hc =>
      rw [hc] at hinc
      exact absurd List.mem_cons_self hinc
    · next hc =>
      rw [List.mem_cons, not_or] at hskip
      have hinc' : .inconsistent ∉ dueFates locate (dueBook book locate m) msgs := by
        split at hinc
        · next hc' => exact absurd hc' hc
        · exact fun hmem => hinc (List.mem_cons_of_mem _ hmem)
      intro m' hm'
      rcases List.mem_cons.mp hm' with rfl | hm'
      · exact fun hnone => hskip.1 (dueFate_skipped_iff.mpr hnone).symm
      · exact ih hskip.2 hinc' m' hm'

/-- Duplicates do not matter. -/
theorem sublist_duplicates {α : Type} (seen : List α) (fs : List Fate) :
    [Fate.skipped, Fate.applied].Sublist ((seen.map fun _ => Fate.duplicate) ++ fs) ↔
      [Fate.skipped, Fate.applied].Sublist fs := by
  induction seen with
  | nil => rfl
  | cons a seen ih =>
    rw [List.map_cons, List.cons_append, List.cons_sublist_cons', ih]
    simp

/-- A fate of a packet that is not a duplicate is one of what was not seen before. -/
theorem mem_duplicates_iff {α : Type} {f : Fate} (hf : f ≠ .duplicate) (seen : List α)
    (fs : List Fate) : f ∈ (seen.map fun _ => Fate.duplicate) ++ fs ↔ f ∈ fs := by
  rw [List.mem_append, List.map_const', or_iff_right]
  exact fun hmem => hf (List.eq_of_mem_replicate hmem)

/-- A gap is the only thing that happens to a packet that begins behind one. -/
theorem gap_packet {α : Type} (rest : List α) :
    Fate.skipped ∉ (Fate.gap :: rest.map fun _ => Fate.unread) := by
  rw [List.map_const', List.mem_cons, not_or]
  refine ⟨by decide, fun hmem => ?_⟩
  exact absurd (List.eq_of_mem_replicate hmem) (by decide)

/-- **The flags of a packet**, from its messages. -/
theorem flags_iff_noSilentLoss (t : Trader) (pkt : Bytes) :
    (.skipped ∈ packetFates t pkt ∨ (reads pkt).2 = false →
      (.gap ∈ packetFates t pkt ∨ .inconsistent ∈ packetFates t pkt) ∧
      ¬ [Fate.skipped, Fate.applied].Sublist (packetFates t pkt)) ↔ NoSilentLoss t pkt := by
  obtain ⟨seen, hfates⟩ := packetFates_eq t pkt
  have hmem : ∀ {f : Fate}, f ≠ .duplicate → (f ∈ packetFates t pkt ↔ f ∈
      (match fresh t pkt with
      | [] => []
      | call :: rest =>
        if call.1 = t.seq.expected then dueFates t.locate t.book ((call :: rest).map Prod.snd)
        else .gap :: rest.map fun _ => .unread)) := by
    intro f hf
    rw [hfates, mem_duplicates_iff hf]
  rw [hmem (by decide), hmem (by decide), hmem (by decide), hfates, sublist_duplicates]
  unfold NoSilentLoss
  cases hfresh : fresh t pkt with
  | nil =>
    -- everything was seen before: only a packet that breaks off can be a loss
    simp [dueFates]
  | cons call rest =>
    dsimp only
    by_cases hdue : call.1 = t.seq.expected
    · rw [if_pos hdue]
      set fates := dueFates t.locate t.book ((call :: rest).map Prod.snd) with hset
      have hnogap : .gap ∉ fates := gap_notMem_dueFates _ _ _
      constructor
      · intro h
        by_cases hinc : .inconsistent ∈ fates
        · refine .inr (.inr ⟨hinc, fun hsub => ?_⟩)
          have hskip : .skipped ∈ fates := hsub.subset List.mem_cons_self
          exact (h (.inl hskip)).2 hsub
        · have hnone : ¬ (.skipped ∈ fates ∨ (reads pkt).2 = false) :=
            fun hloss => (h hloss).1.elim hnogap hinc
          rw [not_or] at hnone
          refine .inl ⟨by simpa using hnone.2, fun c hc => ?_⟩
          exact decode_of_fates hnone.1 hinc c.2 (List.mem_map_of_mem hc)
      · rintro (⟨hok, hdecode⟩ | ⟨c, hhead, hne⟩ | ⟨hinc, hsub⟩) hloss
        · exfalso
          rcases hloss with hskip | hbroken
          · refine skipped_notMem_of_decode (fun m hm => ?_) hskip
            obtain ⟨c, hc, rfl⟩ := List.mem_map.mp hm
            exact hdecode c hc
          · rw [hok] at hbroken
            exact nomatch hbroken
        · rw [List.head?_cons, Option.some.injEq] at hhead
          exact absurd (hhead ▸ hdue) hne
        · exact ⟨.inr hinc, hsub⟩
    · rw [if_neg hdue]
      have hskip := gap_packet rest
      refine iff_of_true (fun _ => ⟨.inl List.mem_cons_self, fun hsub => ?_⟩) ?_
      · exact hskip (hsub.subset List.mem_cons_self)
      · exact .inr (.inl ⟨call, List.head?_cons, hdue⟩)

/-- **When a loss is noticed.** A trader that is synchronised gives the book up before anything
more is applied, and sends no order, for every packet exactly when nothing in the packet is
lost in silence. -/
theorem lossNoticed_iff (t : Trader) (hsync : t.synced = true) (pkt : Bytes)
    (reply : SnapshotReply) : LossNoticed t pkt reply ↔ NoSilentLoss t pkt := by
  rw [lossNoticed_iff_flags hsync, flags_iff_noSilentLoss]

/-- A packet of one message that is no message, with the number 1. -/
def strangePacket : Bytes :=
  List.replicate 10 32 ++ [0, 0, 0, 0, 0, 0, 0, 1, 0, 1] ++ [0, 1, 63]

/-- A trader that expects number 1 of the locate 1 and is synchronised, with an empty book. -/
theorem exists_synced : ∃ t : Trader, t.synced = true ∧ t.seq.expected = 1 ∧ t.locate = 1 ∧
    ∀ id, t.book.find id = none := by
  obtain ⟨t, hnew⟩ := new_isSome { symbol := [], user := [] } ⟨fun _ => 0, fun _ => 0, 0⟩
    fun _ => .again
  obtain ⟨book, orders, hbook, -, ht⟩ := new_eq_some hnew
  have hempty : t.book = book := by rw [ht]
  refine ⟨{ t with synced := true, seq := ⟨1⟩, locate := 1 }, rfl, rfl, rfl, ?_⟩
  intro id
  dsimp only
  rw [hempty]
  rw [OrderBook.find_eq_none_iff (OrderBook.new_wf hbook).1]
  intro s o ho
  rw [OrderBook.new_orders hbook] at ho
  cases ho

/-- A packet of two messages: one that is no message, and one that deletes the order 7. -/
def strayPacket : Bytes :=
  List.replicate 10 32 ++ [0, 0, 0, 0, 0, 0, 0, 1, 0, 2] ++ [0, 1, 63] ++
    ([0, 19] ++ Itch.encode (.orderDelete 1 0 7) 19)

/-- **A loss that is noticed**: behind a message that does not decode, the packet deletes an order
that is not there, and the trader resynchronises. -/
theorem strayPacket_noticed :
    ∃ t : Trader, t.synced = true ∧ .skipped ∈ packetFates t strayPacket ∧
      NoSilentLoss t strayPacket ∧ LossNoticed t strayPacket {} := by
  obtain ⟨t, hsync, hexp, hlocate, hnone⟩ := exists_synced
  have hreads : reads strayPacket =
      ([(1, [63]), (2, Itch.encode (.orderDelete 1 0 7) 19)], true) := by decide +kernel
  have hfresh : fresh t strayPacket = [(1, [63]), (2, Itch.encode (.orderDelete 1 0 7) 19)] := by
    unfold fresh
    rw [hreads, hexp]
    rfl
  have hstrange : dueFate t.book t.locate [63] = .skipped :=
    dueFate_skipped_iff.mpr (by decide)
  have hbook : dueBook t.book t.locate [63] = t.book := by
    have hnot : Itch.decode [63] = none := by decide
    unfold dueBook
    rw [hnot]
  have hstray : dueFate t.book t.locate (Itch.encode (.orderDelete 1 0 7) 19) = .inconsistent := by
    have hdecode : Itch.decode (Itch.encode (.orderDelete 1 0 7) 19) =
        some (.orderDelete 1 0 7) := by decide +kernel
    have hremove : t.book.remove (UInt64.toNat 7) = (t.book, false) :=
      OrderBook.remove_of_unknown (hnone _)
    have happly : applyItch t.book t.locate (.orderDelete 1 0 7) = (t.book, .inconsistent) := by
      simp only [applyItch, hlocate, hremove]
      rfl
    unfold dueFate
    rw [hdecode]
    dsimp only
    rw [happly]
  have hdue : dueFates t.locate t.book
      [[63], Itch.encode (.orderDelete 1 0 7) 19] = [.skipped, .inconsistent] := by
    rw [dueFates, hstrange, dueFates, hbook, hstray]
    rfl
  have hfates : packetFates t strayPacket = [.skipped, .inconsistent] := by
    have hpass := @Pass.fates_of_due { trader := t } 1
      [[63], Itch.encode (.orderDelete 1 0 7) 19] rfl (by rw [hexp]; rfl)
    unfold packetFates
    rw [hreads]
    exact hpass.trans hdue
  have hno : NoSilentLoss t strayPacket := by
    refine Or.inr (Or.inr ?_)
    rw [hfresh]
    simp only [List.map_cons, List.map_nil]
    rw [hdue]
    decide
  refine ⟨t, hsync, ?_, hno, (lossNoticed_iff t hsync strayPacket {}).mpr hno⟩
  rw [hfates]
  exact List.mem_cons_self

/-- **A loss that is not noticed**: the number of a message that does not decode goes by. -/
theorem strangePacket_lost :
    ∃ t : Trader, t.synced = true ∧ ¬ LossNoticed t strangePacket {} := by
  obtain ⟨t, hsync, hexp, -⟩ := exists_synced
  refine ⟨t, hsync, ?_⟩
  have hreads : reads strangePacket = ([(1, [63])], true) := by decide
  have hnone : Itch.decode [63] = none := by decide
  have hfates : packetFates t strangePacket = [.skipped] := by
    have hdue := (@Pass.onMessage_due { trader := t } (1, [63]) rfl hexp.symm).1
    rw [packetFates, hreads, Pass.fates, Pass.fates, hdue, dueFate_skipped_iff.mpr hnone]
  rw [lossNoticed_iff_flags hsync, hfates, hreads]
  decide

end PulseForge.Trader
