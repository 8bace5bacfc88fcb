import PulseForge.Analysis.OrderEntryStream
import PulseForge.Analysis.ReplicaInStep
import PulseForge.Analysis.SessionOutput
import PulseForge.Interface.FeedSystem

/-!
# The trader is synchronised with the exchange

In every state of the system a trader that calls itself synchronised holds the book that the
exchange had when it published the last message counted. It orders in such a state only, and no
packet on the network contradicts it.
-/

set_option autoImplicit false

namespace PulseForge

open Foundation

/-! ## The exchange -/

namespace Exchange

variable {cfg : Config} {clock : Clock} {actions done : List Action}

/-- The number of the next message counts the public events. -/
theorem OnAir.upcoming {r₀ : RefEngine} {symbols : List Symbol} {n : ℕ} {x : Exchange}
    (h : OnAir r₀ symbols n x) :
    x.md.upcoming = openingCount symbols + (publicEvents x.log).length + 1 := by
  obtain ⟨packets, msgs, haired⟩ := h.aired
  rw [haired.numbered.upcoming, List.length_map, haired.count]

/-- **The counters have not wrapped.** -/
structure Unwrapped (cfg : Config) (clock : Clock) (actions : List Action) : Prop where
  symbols : cfg.symbols.length < 2 ^ 16
  sessions : accepts actions < 2 ^ 32
  orders : (after cfg clock actions).nextOrderId ≤ 2 ^ 64
  messages : (after cfg clock actions).md.upcoming < 2 ^ 64

/-- The markets of the start of day. -/
def openingEngine (cfg : Config) (clock : Clock) : RefEngine := (new cfg clock).engine.abs

/-- A run whose counters did not wrap is on air. -/
theorem Unwrapped.onAir (h : Unwrapped cfg clock actions) :
    OnAir (openingEngine cfg clock) cfg.symbols (accepts actions) (after cfg clock actions) :=
  onAir_after cfg clock h.symbols actions h.sessions h.orders

/-- **Earlier** they had not wrapped either, and the history has grown since. -/
theorem Unwrapped.before (h : Unwrapped cfg clock actions) (hdone : done <+: actions) :
    Unwrapped cfg clock done ∧ (after cfg clock done).log <+: (after cfg clock actions).log := by
  obtain ⟨more, rfl⟩ := hdone
  obtain ⟨hlog, hids⟩ := log_after cfg clock h.symbols done more h.sessions h.orders
  have hsessions : accepts done < 2 ^ 32 := by
    have hall := h.sessions
    unfold accepts at hall ⊢
    rw [List.map_append, List.sum_append] at hall
    omega
  have horders := hids.trans h.orders
  have honair := onAir_after cfg clock h.symbols done hsessions horders
  refine ⟨⟨h.symbols, hsessions, horders, ?_⟩, hlog⟩
  have hall := h.messages
  obtain ⟨tail, htail⟩ := hlog
  rw [h.onAir.upcoming, ← htail, publicEvents_append, List.length_append] at hall
  rw [honair.upcoming]
  omega

end Exchange

/-! ## The network -/

namespace Trader

open Exchange

variable {cfg : Config} {clock : Clock} {actions : List Action} {t t' : Trader}

/-- **A served connection** gives the front of a snapshot. -/
theorem Served.genuine {reply : SnapshotReply} (h : Served cfg clock actions reply)
    (hu : Unwrapped cfg clock actions) :
    Genuine (openingEngine cfg clock) cfg.symbols (Exchange.after cfg clock actions).log reply := by
  intro hconnected hlogin t
  obtain ⟨done, id, s, hdone, hs, hkind, hlogins, hread⟩ := h hconnected hlogin
  obtain ⟨hu', more, hlog⟩ := hu.before hdone
  have hfifo := ((queues_after cfg clock done).each id s hs).fifo
  have hsent : s.sent <+: Soup.wire s.queued := ⟨_, hfifo.bytes⟩
  have hfront := (hread t).trans hsent
  rcases hu'.onAir.shown id s hs hkind with ⟨-, hnone⟩ | ⟨-, e, k, now, hsnapshot, hqueued⟩ | hmany
  · left
    rw [hnone] at hfront
    exact List.prefix_nil.mp hfront
  · right
    rw [hqueued] at hfront
    rw [← hlog]
    exact ⟨e, k, now, hsnapshot.append more, hfront⟩
  · omega

/-- The other calls do not touch the view. -/
theorem Elsewhere.view (h : Elsewhere t t') : SameView t t' := by
  cases h with
  | connects login hconnect =>
    unfold connectOrderEntry at hconnect
    obtain ⟨reader, rfl⟩ := awaitLogin_rest login hconnect
    generalize loginFrame t.cfg.user = frame
    exact ⟨rfl, rfl, rfl, rfl, rfl⟩
  | oe stamps error out recvs => exact onOeEvent_view t stamps error out recvs
  | deadline ns => exact ⟨rfl, rfl, rfl, rfl, rfl⟩
  | stops b => exact ⟨rfl, rfl, rfl, rfl, rfl⟩
  | ticks => exact (streams_tick t).view
  | cancels => exact (streams_cancelAll t).view
  | sends bs => exact (streams_oeSend t bs).view

/-- **Every state of the system** has the trader in step. -/
theorem Joined.inStep (h : Joined cfg clock actions t) (hu : Unwrapped cfg clock actions) :
    InStep (openingEngine cfg clock) cfg.symbols (Exchange.after cfg clock actions).log t := by
  have hroom : ∀ {actions}, Unwrapped cfg clock actions → openingCount cfg.symbols +
      (publicEvents (Exchange.after cfg clock actions).log).length + 1 < 2 ^ 64 := by
    intro actions hu
    rw [← hu.onAir.upcoming]
    exact hu.messages
  induction h with
  | start actions hnew hreply =>
    obtain ⟨book, orders, hbook, -, rfl⟩ := new_eq_some hnew
    obtain ⟨hwf, hcfg, -⟩ := OrderBook.new_wf hbook
    refine InStep.snapshot ⟨⟨hwf, hcfg⟩, fun hc => absurd hc Bool.false_ne_true⟩ rfl hu.symbols
      (hroom hu) (hreply.genuine hu)
  | @exchange actions t a _ ih =>
    obtain ⟨hu', more, hlog⟩ := hu.before (List.prefix_append actions [a])
    rw [← hlog]
    exact (ih hu').append more
  | packet _ hpkt hreply ih =>
    obtain ⟨packets, msgs, haired⟩ := hu.onAir.aired
    exact (ih hu).handlePacket hu.symbols haired hu.messages hpkt (hreply.genuine hu)
  | timer _ hreply ih => exact (ih hu).onTimer hu.symbols (hroom hu) (hreply.genuine hu)
  | elsewhere _ helse ih => exact (ih hu).view helse.view

/-! ## What the trader makes of a packet -/

/-- A message of the feed is decoded, and does not contradict the book. -/
theorem Pass.Following.fate {r₀ : RefEngine} {symbols : List Symbol} {log : List Event} {x : Flow}
    {md : MarketDataFeed} {packets : List Bytes} {msgs : List Itch.Message} {p : Pass}
    (h : p.Following r₀ symbols log)
    (haired : Aired r₀ (openingCount symbols) x md log packets msgs)
    (hroom : md.upcoming < 2 ^ 64) {i : ℕ} {m : Itch.Message} (hm : msgs[i]? = some m) :
    p.fate ((1 + i) % 2 ^ 64, wireOf m) ≠ .skipped ∧
      p.fate ((1 + i) % 2 ^ 64, wireOf m) ≠ .inconsistent := by
  have hnext := (h.message haired hroom hm).consistent
  have hflag := (p.flags_onMessage ((1 + i) % 2 ^ 64, wireOf m)).2
  rw [hnext, h.consistent] at hflag
  refine ⟨?_, fun hc => Bool.false_ne_true (hflag.mpr (.inr hc))⟩
  unfold Pass.fate
  split
  · exact Fate.noConfusion
  · split
    · exact Fate.noConfusion
    · exact Fate.noConfusion
    · unfold dueFate
      rw [decode_wireOf (haired.stamped m (List.mem_of_getElem? hm))]
      dsimp only
      split
      · exact Fate.noConfusion
      · exact Fate.noConfusion
      · exact Fate.noConfusion

/-- **The fates of a packet** on the network. -/
theorem Pass.Following.fates {r₀ : RefEngine} {symbols : List Symbol} {log : List Event} {x : Flow}
    {md : MarketDataFeed} {packets : List Bytes} {msgs : List Itch.Message} {p : Pass}
    (h : p.Following r₀ symbols log)
    (haired : Aired r₀ (openingCount symbols) x md log packets msgs)
    (hroom : md.upcoming < 2 ^ 64) {pre slice post : List Bytes}
    (hmsgs : msgs.map wireOf = pre ++ (slice ++ post)) :
    .skipped ∉ p.fates (Mold.numbered (1 + pre.length) slice) ∧
      .inconsistent ∉ p.fates (Mold.numbered (1 + pre.length) slice) := by
  induction slice generalizing p pre with
  | nil => exact ⟨List.not_mem_nil, List.not_mem_nil⟩
  | cons bytes slice ih =>
    obtain ⟨m, hm, rfl, hmsgs'⟩ := slice_cons hmsgs
    obtain ⟨hskipped, hinc⟩ := h.fate haired hroom hm
    obtain ⟨hskipped', hinc'⟩ := ih (h.message haired hroom hm) hmsgs'
    rw [List.length_append, List.length_singleton, ← Nat.add_assoc] at hskipped' hinc'
    rw [Mold.numbered_cons, Pass.fates, List.mem_cons, List.mem_cons, not_or, not_or]
    exact ⟨⟨hskipped.symm, hskipped'⟩, hinc.symm, hinc'⟩

/-- **An order is entered** by a packet that leaves the trader synchronised, and only then. -/
theorem synced_of_entered {pkt : Bytes} {reply : SnapshotReply}
    (h : (t.handlePacket pkt reply).entered ≠ t.entered) :
    t.synced = true ∧ (t.handlePacket pkt reply).synced = true := by
  unfold Trader.handlePacket at h ⊢
  cases hheader : Mold.parseHeader pkt with
  | none =>
    rw [hheader] at h
    exact absurd rfl h
  | some header =>
    rw [hheader] at h
    dsimp only at h ⊢
    by_cases hend : header.count = Mold.kEndOfSession
    · rw [if_pos hend] at h
      exact absurd rfl h
    · rw [if_neg hend] at h ⊢
      by_cases hstale : t.synced = false
      · rw [if_pos hstale] at h
        exact absurd rfl h
      · rw [if_neg hstale] at h ⊢
        by_cases hzero : header.count = 0
        · rw [if_pos hzero] at h
          split at h
          · exact absurd (resync_stale t reply).2 h
          · exact absurd rfl h
        · rw [if_neg hzero] at h ⊢
          have hreplays := Pass.foldl_replays (Mold.forEachMessage pkt header).1 { trader := t }
          generalize List.foldl Pass.onMessage { trader := t } _ = p at h hreplays ⊢
          unfold Replays at hreplays
          have hfinish := p.finish_stale reply
          have hsynced : p.trader.synced = t.synced := by rw [hreplays]
          have hentered : p.trader.entered = t.entered := by rw [hreplays]
          split at hfinish
          · exact absurd (hfinish.2.trans hentered) h
          · have htrue := eq_true_of_ne_false hstale
            exact ⟨htrue, (hfinish.1.trans hsynced).trans htrue⟩

/-! ## Synchronised -/

/-- **What it means to be synchronised**: the replica is the market of the symbol behind the public
events up to the last message counted; it is the book that the exchange had at any moment when
this was its last message; and no packet on the network is unreadable or contradicts it. -/
structure Synchronised (cfg : Config) (clock : Clock) (actions : List Action) (t : Trader) :
    Prop where
  place : t.locate.toNat = lastPlace t.symbol cfg.symbols
  counted : t.seq.expected ≤ (Exchange.after cfg clock actions).md.upcoming
  follows : ∃ k m, t.seq.expected = openingCount cfg.symbols + k + 1 ∧
    ((openingEngine cfg clock).behind (Exchange.after cfg clock actions).log k).market?
      t.locate.toNat = some m ∧ Mirrors t.book m
  live : ∀ done, done <+: actions →
    (Exchange.after cfg clock done).md.upcoming = t.seq.expected → ∃ m,
      (Exchange.after cfg clock done).engine.abs.market? t.locate.toNat = some m ∧
        Mirrors t.book m
  consistent : ∀ pkt ∈ (Exchange.after cfg clock actions).md.sent,
    .skipped ∉ packetFates t pkt ∧ .inconsistent ∉ packetFates t pkt

/-- A trader in step that calls itself synchronised is. -/
theorem Joined.synchronised (h : Joined cfg clock actions t) (hu : Unwrapped cfg clock actions)
    (hsynced : t.synced = true) : Synchronised cfg clock actions t := by
  have hstep := h.inStep hu
  obtain ⟨k, hk⟩ := hstep.follows hsynced
  obtain ⟨m, hmarket, hmirrors⟩ := hk.replica
  refine ⟨hk.place, ?_, ⟨k, m, hk.expected, hmarket, hmirrors⟩, fun done hdone hnow => ?_,
    fun pkt hpkt => ?_⟩
  · rw [hk.expected, hu.onAir.upcoming]
    have := hk.heard
    omega
  · obtain ⟨hu', more, hlog⟩ := hu.before hdone
    rw [hu'.onAir.upcoming, hk.expected] at hnow
    obtain rfl : (publicEvents (Exchange.after cfg clock done).log).length = k := by omega
    rw [← hlog, (openingEngine cfg clock).behind_append _ more le_rfl] at hmarket
    obtain ⟨packets, msgs, haired⟩ := hu'.onAir.aired
    exact ⟨m, (RefEngine.market?_congr haired.now _).trans hmarket, hmirrors⟩
  · obtain ⟨packets, msgs, haired⟩ := hu.onAir.aired
    obtain ⟨pre, slice, post, hmsgs, hdelivered⟩ := haired.numbered.slice hpkt
    have hstart : Pass.Following (openingEngine cfg clock) cfg.symbols
        (Exchange.after cfg clock actions).log { trader := t } := ⟨hstep.fillable, ⟨k, hk⟩, rfl⟩
    have hreads : (reads pkt).1 = Mold.delivered pkt := by
      unfold reads Mold.delivered
      cases Mold.parse pkt with
      | none => rfl
      | some entry => rfl
    unfold packetFates
    rw [hreads, hdelivered]
    exact hstart.fates haired hu.messages hmsgs

/-- **An order is entered** between two states in which the trader is synchronised. -/
theorem Joined.entered (h : Joined cfg clock actions t) (hu : Unwrapped cfg clock actions)
    {pkt : Bytes} {reply : SnapshotReply} (hpkt : pkt ∈ (Exchange.after cfg clock actions).md.sent)
    (hreply : Served cfg clock actions reply)
    (hentered : (t.handlePacket pkt reply).entered ≠ t.entered) :
    Synchronised cfg clock actions t ∧
      Synchronised cfg clock actions (t.handlePacket pkt reply) := by
  obtain ⟨hsynced, hsynced'⟩ := synced_of_entered hentered
  exact ⟨h.synchronised hu hsynced, (h.packet hpkt hreply).synchronised hu hsynced'⟩

/-- **Feed synchronisation.** The exchange does any actions, the network loses, repeats and reorders
what it has sent, snapshots are served at any moment, and the trader's calls come in any order
between. Whenever the trader calls itself synchronised it is; and it enters orders in such a state
only. -/
theorem feed_synchronised (h : Joined cfg clock actions t) (hu : Unwrapped cfg clock actions) :
    (t.synced = true → Synchronised cfg clock actions t) ∧
      ∀ pkt reply, pkt ∈ (Exchange.after cfg clock actions).md.sent →
        Served cfg clock actions reply → (t.handlePacket pkt reply).entered ≠ t.entered →
        Synchronised cfg clock actions t ∧
          Synchronised cfg clock actions (t.handlePacket pkt reply) :=
  ⟨h.synchronised hu, fun _ _ hpkt hreply hentered => h.entered hu hpkt hreply hentered⟩

/-- **The process next to the exchange**: between any two batches of its event loop the trader is
synchronised when it calls itself so. -/
theorem Runs.synchronised {p : Process} (h : Runs cfg clock actions p)
    (hu : Unwrapped cfg clock actions) (hsynced : p.trader.synced = true) :
    Synchronised cfg clock actions p.trader :=
  h.joined.synchronised hu hsynced

/-- **A trader that is behind catches up**: when nothing was dropped and nothing is pending, some
datagram on the network takes it further. -/
theorem Joined.catches_up (h : Joined cfg clock actions t) (hu : Unwrapped cfg clock actions)
    (hsynced : t.synced = true) (hall : (Exchange.after cfg clock actions).md.dropEvery = 0)
    (hflushed : (Exchange.after cfg clock actions).md.pkt.count = 0)
    (hbehind : t.seq.expected < (Exchange.after cfg clock actions).md.upcoming) :
    ∃ pkt ∈ (Exchange.after cfg clock actions).md.sent, ∀ reply,
      (t.handlePacket pkt reply).synced = true ∧
        t.seq.expected < (t.handlePacket pkt reply).seq.expected := by
  have hstep := h.inStep hu
  obtain ⟨k, hk⟩ := hstep.follows hsynced
  have hexpected := hk.expected
  obtain ⟨packets, msgs, haired⟩ := hu.onAir.aired
  have hdue : t.seq.expected - 1 < (msgs.map wireOf).length := by
    rw [haired.numbered.upcoming] at hbehind
    omega
  obtain ⟨pkt, hpkt, pre, slice, post, hmsgs, hdelivered, hle, hlt⟩ :=
    haired.numbered.reaches hall hflushed hdue
  have hne : slice ≠ [] := by
    rintro rfl
    exact absurd hlt (by simpa using hle)
  refine ⟨pkt, hpkt, fun reply => ?_⟩
  obtain ⟨hstays, hcount⟩ := hstep.handlePacket_counts hsynced haired hu.messages reply hmsgs
    hdelivered hne (by omega)
  refine ⟨hstays, ?_⟩
  omega

/-- A client takes a snapshot of the markets. -/
def snapshotTaken : List Action :=
  [.accept .snapshot,
    .session 1 (some [.data (Soup.appendFrame [] ⟨Soup.kLoginRequest, []⟩)]) none false,
    .flushDirty fun _ => [.accepted 1000]]

/-- Behind the snapshot an order of the synthetic flow rests, and the feed says so. -/
def orderPublished : List Action := snapshotTaken ++ [.synth 1] ++ [.flushFeed]

/-- No counter wraps in this run. -/
theorem snapshotTaken_unwrapped : Unwrapped oneSymbol steadyClock snapshotTaken :=
  ⟨by decide, by decide, by decide +kernel, by decide +kernel⟩

/-- **A snapshot read** leaves the trader synchronised. -/
theorem snapshotTaken_joined : ∃ t, Joined oneSymbol steadyClock snapshotTaken t ∧
    t.synced = true := by
  have hu := snapshotTaken_unwrapped
  have hsession : ((Exchange.after oneSymbol steadyClock snapshotTaken).session? 1).map
      (fun s => (s.kind, s.logins, s.out, decide (s.sent.length ≤ Soup.FrameReader.kBufSize))) =
        some (.snapshot, 1, [], true) := by
    decide +kernel
  obtain ⟨s, hs, hfields⟩ := Option.map_eq_some_iff.mp hsession
  simp only [Prod.mk.injEq] at hfields
  obtain ⟨hkind, hlogins, hout, hlength⟩ := hfields
  rcases hu.onAir.shown 1 s hs hkind with ⟨hnone, -⟩ | ⟨-, e, k, now, hsnapshot, hqueued⟩ | hmany
  · omega
  · have hbytes := ((queues_after oneSymbol steadyClock snapshotTaken).each 1 s hs).fifo.bytes
    rw [hout, List.drop_nil, List.append_nil, hqueued] at hbytes
    have hroom : (Soup.wire (snapshotFrames e now (openingCount oneSymbol.symbols + k + 1))).length ≤
        Soup.FrameReader.kBufSize := by
      rw [← hbytes]
      exact of_decide_eq_true hlength
    obtain ⟨t, hnew⟩ := new_isSome { symbol := List.replicate 8 65, user := [65] } steadyClock
      fun _ => .accepted 1
    have hsymbol : t.symbol = fun _ => 65 := by
      obtain ⟨book, orders, -, -, rfl⟩ := new_eq_some hnew
      rw [symbol_eq]
      show makeSymbol (List.replicate 8 65) = fun _ => 65
      decide
    have hmem : t.symbol ∈ e.symbols := by
      rw [hsnapshot.listed, hsymbol]
      exact List.mem_singleton.mpr rfl
    have hfew : e.symbols.length < 2 ^ 16 := by
      rw [hsnapshot.listed]
      exact hu.symbols
    obtain ⟨recvs, hread, hcomplete⟩ :=
      snapshot_whole (by rw [hsnapshot.books, hsnapshot.listed]) hroom hmem hfew
    have hserved : Served oneSymbol steadyClock snapshotTaken { recvs := recvs } := by
      refine fun _ _ => ⟨snapshotTaken, 1, s, List.prefix_refl _, hs, hkind, by omega, fun t' => ?_⟩
      have hsame : t.pullStart.Abreast t'.pullStart := ⟨rfl, rfl, rfl⟩
      rw [hsame.received, hbytes]
      exact hread
    refine ⟨_, .start snapshotTaken hnew hserved, ?_⟩
    rw [(completed_eq hcomplete).2.2]
  · omega

/-- A flush of the feed. -/
theorem step_flushFeed (x : Exchange) :
    (x.step .flushFeed).engine = x.engine ∧ (x.step .flushFeed).log = x.log ∧
      (x.step .flushFeed).md.dropEvery = x.md.dropEvery ∧ (x.step .flushFeed).md.pkt.count = 0 :=
  ⟨rfl, rfl, MarketDataFeed.dropEvery_flush _ _, MarketDataFeed.count_flush _ _⟩

/-- What the order leaves in the exchange. -/
theorem orderPublished_exchange :
    (Exchange.after oneSymbol steadyClock orderPublished).engine.abs =
        ⟨.cancelResting, 1000000, [⟨{}, [], [⟨1, 1000100, 300, 0, 0, .sell⟩]⟩], [fun _ => 65], 1⟩ ∧
      (Exchange.after oneSymbol steadyClock orderPublished).log = firstEvents ∧
      (Exchange.after oneSymbol steadyClock orderPublished).md.dropEvery = 0 ∧
      (Exchange.after oneSymbol steadyClock orderPublished).md.pkt.count = 0 := by
  have huntraded : (Exchange.after oneSymbol steadyClock snapshotTaken).Untraded :=
    ⟨by decide +kernel, by decide +kernel, by decide +kernel⟩
  have hvalid : (Exchange.after oneSymbol steadyClock snapshotTaken).engine.validLocate 1 := by
    decide +kernel
  have hquiet : (Exchange.after oneSymbol steadyClock snapshotTaken).log = [] ∧
      (Exchange.after oneSymbol steadyClock snapshotTaken).md.dropEvery = 0 := by
    decide +kernel
  have hsound := (sound_after oneSymbol steadyClock snapshotTaken (by decide)).1
  obtain ⟨haside, hbook, -⟩ := synthStep_oneSymbol hsound.engine huntraded
  obtain ⟨hengine, hlog, hdrop, hcount⟩ := step_flushFeed
    ((Exchange.after oneSymbol steadyClock snapshotTaken).synthStep 1)
  rw [orderPublished, after_append, after_append, step_synth hvalid, hengine, hlog, hdrop]
  refine ⟨hbook, ?_, haside.dropEvery.trans hquiet.2, hcount⟩
  rw [haside.log, hquiet.1, List.nil_append]

/-- No counter wraps in this run either. -/
theorem orderPublished_unwrapped : Unwrapped oneSymbol steadyClock orderPublished := by
  have hids : accepts orderPublished < 2 ^ 32 := by decide
  have hfew : (orderPublished.map Action.orderIds).sum < 2 ^ 18 := by
    simp [orderPublished, snapshotTaken, Action.orderIds, Soup.FrameReader.kBufSize]
  have hle := nextOrderId_after oneSymbol steadyClock orderPublished
  have horders : (Exchange.after oneSymbol steadyClock orderPublished).nextOrderId ≤ 2 ^ 64 := by
    omega
  have honair := onAir_after oneSymbol steadyClock (by decide) orderPublished hids horders
  refine ⟨by decide, hids, horders, ?_⟩
  have hone : (publicEvents firstEvents).length = 1 := rfl
  rw [honair.upcoming, orderPublished_exchange.2.1, hone]
  decide

/-- **A snapshot and a packet**: the trader holds the order that came behind the snapshot. -/
theorem feed_synchronised_one_packet : ∃ (t : Trader) (pkt : Bytes) (reply : SnapshotReply),
    pkt ∈ (Exchange.after oneSymbol steadyClock orderPublished).md.sent ∧
      (t.handlePacket pkt reply).synced = true ∧
      (t.handlePacket pkt reply).book.forEachOrder.map BookOrder.visible =
        [(⟨1, 1000100, 300, 0, 0, .sell⟩ : BookOrder).visible] ∧
      Synchronised oneSymbol steadyClock orderPublished (t.handlePacket pkt reply) := by
  obtain ⟨t, hjoined, hsynced⟩ := snapshotTaken_joined
  obtain ⟨hbook, hlog, hall, hflushed⟩ := orderPublished_exchange
  have hu := orderPublished_unwrapped
  have hlater : Joined oneSymbol steadyClock orderPublished t :=
    (hjoined.exchange (.synth 1)).exchange .flushFeed
  -- the snapshot is of the markets before the order
  obtain ⟨k, hk⟩ := (hjoined.inStep snapshotTaken_unwrapped).follows hsynced
  have hexpected := hk.expected
  have hheard := hk.heard
  have hbefore : (Exchange.after oneSymbol steadyClock snapshotTaken).log = [] := by
    decide +kernel
  rw [hbefore] at hheard
  obtain rfl : k = 0 := Nat.le_zero.mp hheard
  have hupcoming := hu.onAir.upcoming
  have hnews : (publicEvents firstEvents).length = 1 := rfl
  rw [hlog, hnews] at hupcoming
  obtain ⟨pkt, hpkt, hgoes⟩ := hlater.catches_up hu hsynced hall hflushed (by omega)
  obtain ⟨hstays, hlt⟩ := hgoes { connected := false }
  have hserved : Served oneSymbol steadyClock orderPublished { connected := false } :=
    fun hconnected => absurd hconnected Bool.false_ne_true
  have hsync := (feed_synchronised (hlater.packet hpkt hserved) hu).1 hstays
  have hcounted := hsync.counted
  obtain ⟨m, hmarket, hmirrors⟩ := hsync.live orderPublished (List.prefix_refl _) (by omega)
  rw [hbook] at hmarket
  refine ⟨t, pkt, { connected := false }, hpkt, hstays, ?_, hsync⟩
  have hone : m = ⟨{}, [], [⟨1, 1000100, 300, 0, 0, .sell⟩]⟩ :=
    List.mem_singleton.mp (RefEngine.mem_markets hmarket)
  rw [hmirrors.visible, hone]
  rfl

end Trader

end PulseForge
