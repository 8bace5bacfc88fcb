import PulseForge.Analysis.OrderBookRefinement
import PulseForge.Analysis.OrderEntryStream
import PulseForge.Analysis.OuchCodec
import PulseForge.Analysis.SnapshotLocate
import PulseForge.Analysis.StalePackets
import PulseForge.Analysis.TraderLedger

/-!
# A round of trading

A trader without an open order gets one message of the feed, sends the order that the strategy
wants, and is told that the order was filled whole. It has no open order again, and its position
is further by the quantity. A process whose snapshot and login go through starts where a round can
begin.
-/

set_option autoImplicit false

namespace PulseForge

open Foundation

namespace OrderBook

/-! ## A side of one order -/

variable {b : OrderBook} {s : Side} {o : BookOrder}

/-- **The first order** of a side. -/
theorem add_first (h : b.WF) (hs : b.orders s = []) (hgrid : b.cfg.onGrid o.price)
    (hqty : o.qty ≠ 0) (hroom : b.forEachOrder.length < b.cfg.maxOrders)
    (hid : o.id ≠ FlatIdMap.kEmpty) (hnew : ∀ t, ∀ x ∈ b.orders t, x.id ≠ o.id)
    (hside : o.side = s) :
    ∃ b', b.add o.id s o.price o.qty o.owner o.userRef = (b', .ok) ∧ b'.WF ∧ b'.cfg = b.cfg ∧
      b'.orders s = [o] ∧ ∀ t, t ≠ s → b'.orders t = b.orders t := by
  have hok : b.addAnswer o.id o.price o.qty = .ok := by
    have hfull : b.orderCount ≠ b.cfg.maxOrders := by
      rw [(orderCount_eq h).1]
      omega
    rw [addAnswer, if_neg (by simp [(onGrid_iff b o.price).mp hgrid]), if_neg hqty, if_neg hfull,
      if_neg]
    rintro (hzero | hold)
    · exact hid hzero
    · exact hold ((find_eq_none_iff h).mpr hnew)
  obtain ⟨b', hadd, h', hcfg, hord⟩ := add_orders h s o.owner o.userRef hok
  refine ⟨b', hadd, h', hcfg, ?_, fun t hts => ?_⟩
  · subst hside
    rw [hord, if_pos rfl, hs]
    rfl
  · rw [hord, if_neg hts]

/-- **Some shares of the first order** of a side go. -/
theorem reduce_first (h : b.WF) {by' : ℕ} {rest : List BookOrder} (hs : b.orders s = o :: rest)
    (hlt : by' < o.qty) :
    ∃ b', b.reduce o.id by' = (b', true) ∧ b'.WF ∧
      b'.orders s = { o with qty := o.qty - by' } :: rest ∧
      ∀ t, t ≠ s → b'.orders t = b.orders t := by
  have hfront : b.front s = some o := by
    rw [front_eq_head? h, hs]
    rfl
  obtain ⟨hred, hfind⟩ := reduceFront_eq_reduce h hfront hlt.le
  obtain ⟨b', hb', -⟩ := reduce_orders h hfind hlt.le
  obtain ⟨h', -, hself, hother⟩ := reduceFront_orders h hs hlt.le
  rw [hred, hb'] at h' hself hother
  rw [if_neg hlt.ne] at hself
  exact ⟨b', hb', h', hself, hother⟩

/-- A side with one order shows that order. -/
theorem top_of_single (h : b.WF) (hs : b.orders s = [o]) :
    b.empty s = false ∧ b.bestPrice s = o.price ∧ b.bestQty s = o.qty := by
  rcases best_cases h s with ⟨-, hnil, -⟩ | ⟨i, hi, hne, -, rest, horders, -⟩
  · rw [hs] at hnil
    cases hnil
  have hfifo : b.fifo s i = [o] := by
    rw [hs] at horders
    cases hf : b.fifo s i with
    | nil => exact absurd hf hne
    | cons o' os =>
      rw [hf, List.cons_append, List.cons.injEq] at horders
      obtain ⟨rfl, hnil⟩ := horders
      rw [(List.append_eq_nil_iff.mp hnil.symm).1]
  have hmem : o ∈ b.fifo s i := by
    rw [hfifo]
    exact List.mem_singleton.mpr rfl
  refine ⟨?_, ?_, ?_⟩
  · rw [empty, hi, decide_eq_false_iff_not]
    omega
  · rw [bestPrice, hi, (resting_of_mem h hmem).price_eq]
  · rw [bestQty, hi, if_neg (by omega), Int.toNat_natCast, (level_totals h s i).1, hfifo]
    exact List.sum_singleton

end OrderBook

namespace Trader

open Soup

variable {t : Trader}

/-! ## One message of the feed -/

/-- **A packet with the message that is due**, which changes the book. -/
theorem handlePacket_due {p : Mold.PacketBuilder} {bs : Bytes} {m : Itch.Message} {b : OrderBook}
    (hsync : t.synced = true) (hhold : p.Holds t.seq.expected [bs])
    (hlt : t.seq.expected < 2 ^ 64) (hdec : Itch.decode bs = some m)
    (happ : applyItch t.book t.locate m = (b, .applied)) (reply : SnapshotReply) :
    t.handlePacket p.finish.data reply =
      ({ trader := { t with book := b, seq := ⟨(t.seq.expected + 1) % 2 ^ 64⟩ }
         touched := true } : Pass).finish reply := by
  have hreads : reads p.finish.data = ([(t.seq.expected, bs)], true) := by
    rw [reads, hhold.parse_data.1]
    simp only [Mold.numbered, List.zipIdx_cons, List.zipIdx_nil, List.map_cons, List.map_nil,
      Nat.add_zero, Nat.mod_eq_of_lt hlt]
  rcases handlePacket_cases hsync p.finish.data reply with hnone | hread
  · rw [hreads] at hnone
    cases hnone
  have hseq : t.seq.onMessage t.seq.expected = (.apply, ⟨(t.seq.expected + 1) % 2 ^ 64⟩) :=
    if_pos rfl
  rw [hread, hreads, List.foldl_cons, List.foldl_nil, Pass.onMessage]
  dsimp only
  rw [hseq]
  dsimp only [Bool.or_self, Bool.false_eq_true, if_false]
  rw [Pass.apply, hdec]
  dsimp only
  rw [happ]
  rfl

/-- **The order** that the strategy wants and the gate lets through. -/
theorem maybeTrade_of_pass {sig : Signal} {strat : ImbalanceStrategy} {bookDone : ℕ}
    (hsig : t.strat.onBookUpdate t.book t.risk.position (decide (0 < t.orders.size)) bookDone =
      (some sig, strat))
    (hpass : t.risk.check sig.side sig.price sig.qty t.midPrice bookDone = .pass) :
    t.maybeTrade bookDone =
      ({ t with
          strat := strat
          overflowed := t.overflowed || t.risk.overflows sig.side sig.qty } : Trader).sendOrder
        sig bookDone := by
  have hpass' : ({ t with strat := strat } : Trader).risk.check sig.side sig.price sig.qty
      ({ t with strat := strat } : Trader).midPrice bookDone = .pass := hpass
  unfold maybeTrade
  rw [hsig]
  dsimp only
  rw [hpass']

/-- A frame that the kernel takes whole leaves nothing pending. -/
theorem sendOrder_whole (hup : t.oeUp = true) (hpending : t.oePending = [])
    (hkernel : t.kernel = fun _ => .accepted 64) (sig : Signal) (bookDone : ℕ) :
    (t.sendOrder sig bookDone).oeUp = true ∧ (t.sendOrder sig bookDone).oePending = [] := by
  set m := t.enterOrder (t.liveOrder sig) with hm
  set t₀ : Trader :=
    { t with nextUserRef := (t.nextUserRef + 1) % 2 ^ 32, entered := t.entered ++ [m] } with ht₀
  have hlen : (orderFrame m).length ≤ 64 := by
    unfold orderFrame
    have hfits : (Ouch.Inbound.enterOrder m).len ≤ 64 - kFrameHeaderLen :=
      show 41 ≤ 61 by decide
    rw [Ouch.encodeInbound_eq hfits, List.length_append, length_beBytes, List.length_cons,
      Ouch.Inbound.length_layout]
    exact show 2 + (41 + 1) ≤ 64 by decide
  have hsend := oeSend_whole (t := t₀) hup hpending hkernel hlen
  unfold sendOrder
  unfold liveOrder at hm
  dsimp only
  rw [← hm]
  split
  · exact ⟨hsend.1, hsend.2.1⟩
  · exact ⟨hsend.1, hsend.2.1⟩

/-- What `send_order` does besides sending. -/
structure Orders (t t' : Trader) (sig : Signal) (bookDone : ℕ) : Prop where
  cfg : t'.cfg = t.cfg
  locate : t'.locate = t.locate
  book : t'.book = t.book
  seq : t'.seq = t.seq
  strat : t'.strat = t.strat
  oeReader : t'.oeReader = t.oeReader
  synced : t'.synced = t.synced
  stop : t'.stop = t.stop
  kernel : t'.kernel = t.kernel
  nextUserRef : t'.nextUserRef = (t.nextUserRef + 1) % 2 ^ 32
  entered : t'.entered.length = t.entered.length + 1
  overflowed : t'.overflowed = t.overflowed
  risk : t'.risk = t.risk.onOrderSent sig.side sig.qty bookDone

/-- `send_order` puts the order of the signal on its way. -/
theorem orders_sendOrder (t : Trader) (sig : Signal) (bookDone : ℕ) :
    Orders t (t.sendOrder sig bookDone) sig bookDone := by
  obtain ⟨t₁, txRing, txHead, h, heq⟩ := t.sendOrder_eq sig bookDone
  have hentered : t₁.entered.length = t.entered.length + 1 := by
    rw [h.entered]
    exact List.length_append
  rw [heq]
  exact ⟨h.cfg, h.locate, h.book, h.seq, h.strat, h.oeReader, h.synced, h.stop, h.kernel,
    h.nextUserRef, hentered, h.overflowed, congrArg (·.onOrderSent sig.side sig.qty bookDone) h.risk⟩

/-! ## One report -/

/-- **A frame in one piece**, and nothing behind it. -/
theorem readOe_frame {f : Frame} (hlegal : f.Legal) (hreader : t.oeReader = {}) :
    readOe [(.ptrFirst, .data f.bytes)] t =
      ({ t with recvs := t.recvs ++ [⟨.ptrFirst, {}, FrameReader.kBufSize⟩] } : Trader).handleOeFrame
        f := by
  obtain ⟨b, chunk, hcons⟩ : ∃ b chunk, f.bytes = b :: chunk :=
    List.exists_cons_of_ne_nil (List.append_ne_nil_of_right_ne_nil _ (List.cons_ne_nil _ _))
  have hroom : ArgOrder.ptrFirst.len t.oeReader = FrameReader.kBufSize := by
    rw [hreader]
    decide
  have hlen : f.bytes.length ≤ FrameReader.kBufSize := by
    rw [f.length_bytes]
    exact (Nat.add_le_add_right hlegal kFrameHeaderLen).trans (by decide)
  have htake : f.bytes.take (ArgOrder.ptrFirst.len t.oeReader) = b :: chunk := by
    rw [hroom, List.take_of_length_le hlen, hcons]
  have hcommit : t.oeReader.writePtr.commit (b :: chunk) = ⟨0, f.bytes⟩ := by
    rw [hreader, hcons]
    rfl
  have hfront : frontFrame (b :: chunk) = .item f [] := by
    rw [← hcons]
    simpa using frontFrame_bytes hlegal []
  rw [readOe]
  dsimp only
  rw [htake]
  dsimp only
  rw [hcommit, hcons, List.length_cons, drainOe, FrameReader.next_eq, hfront]
  dsimp only
  rw [if_pos rfl]
  have hsame : { t with
      oeReader := { rd := 0, data := [] }
      recvs := t.recvs ++ [⟨.ptrFirst, t.oeReader, ArgOrder.ptrFirst.len t.oeReader⟩] } =
      ({ t with recvs := t.recvs ++ [⟨.ptrFirst, {}, FrameReader.kBufSize⟩] } : Trader) := by
    rw [hroom, hreader]
  rw [hsame]
  set t₀ : Trader := { t with recvs := t.recvs ++ [⟨.ptrFirst, {}, FrameReader.kBufSize⟩] } with ht₀
  set t' := t₀.handleOeFrame f with ht'
  have hempty : t'.oeReader = {} := (handleOeFrame_reads t₀ f).1.trans hreader
  have hend : drainOe chunk.length t' = (t', .needMore) := by
    cases chunk with
    | nil => rfl
    | cons c chunk =>
      rw [List.length_cons, drainOe, hempty]
      rfl
  rw [hend]
  rfl

/-- The frame of a report. -/
def reportFrame (m : Ouch.Outbound) : Frame := ⟨kSequencedData, m.layout⟩

/-- The frame of a report is legal. -/
theorem legal_reportFrame (m : Ouch.Outbound) : (reportFrame m).Legal := by
  unfold reportFrame Frame.Legal
  rw [Ouch.Outbound.length_layout]
  exact m.len_le_max.trans (by decide)

/-- The frame of a report is handled as the report. -/
theorem handleOeFrame_report (m : Ouch.Outbound) :
    t.handleOeFrame (reportFrame m) = t.onReport m := by
  unfold handleOeFrame reportFrame
  rw [if_pos rfl]
  dsimp only
  rw [Ouch.decodeOutbound_layout]

/-- **The order is filled whole**, by a report of at least what it has left. -/
theorem Ledger.filled {k : ℕ} {o : LiveOrder} (h : Ledger t (some (k, o))) {ts : UInt64}
    {userRef qty : UInt32} (href : userRef.toNat = k) (hqty : o.leaves ≤ qty.toNat) (price : Int64)
    (liquidity : UInt8) (matchNumber : UInt64) :
    Ledger (t.onReport (.executed ts userRef qty price liquidity matchNumber)) none ∧
      (t.onReport (.executed ts userRef qty price liquidity matchNumber)).risk =
        (t.risk.onFill o.side o.leaves).onOrderClosed := by
  have hfind : t.orders.find userRef.toNat = some o := by
    rw [href]
    exact h.table.find_self
  have hcut : (if o.leaves < qty.toNat then o.leaves else qty.toNat) = o.leaves := by
    split <;> omega
  have hone : t.risk.openOrders = 1 := h.openOrders
  obtain ⟨hsafe, -, horders, hopen⟩ := h.gate.onFill h.open_self.ge
  obtain ⟨htable, hroom⟩ := h.table.modify fun o' => { o' with leaves := o'.leaves - o.leaves }
  rw [Trader.onReport, onExecuted, hfind, href]
  dsimp only
  rw [hcut, if_pos (Nat.sub_self _)]
  refine ⟨.close htable (hroom.trans h.room) hsafe (horders.trans hone) fun side => ?_, rfl⟩
  show (t.risk.onFill o.side o.leaves).openQty side = 0
  rw [hopen]
  split
  · rw [h.open_self, sub_self]
  · next hside => rw [h.openQty, Option.toList_some, leavesOf_one, if_neg hside]

/-- **Some shares of the order are cancelled.** -/
theorem Ledger.cancelled {k : ℕ} {o : LiveOrder} (h : Ledger t (some (k, o))) {ts : UInt64}
    {userRef qty : UInt32} (href : userRef.toNat = k) (hqty : qty.toNat < o.leaves)
    (reason : UInt8) :
    (t.onReport (.canceled ts userRef qty reason)).risk = t.risk.onCancelled o.side qty.toNat := by
  have hfind : t.orders.find userRef.toNat = some o := by
    rw [href]
    exact h.table.find_self
  rw [Trader.onReport, onCanceled, hfind]
  dsimp only
  rw [if_neg (not_lt.mpr hqty.le), if_neg (by omega)]

/-- The report that fills an order, as it comes in. -/
theorem Ledger.readOe_filled {k : ℕ} {o : LiveOrder} (h : Ledger t (some (k, o)))
    (hreader : t.oeReader = {}) {ts : UInt64} {userRef qty : UInt32} (href : userRef.toNat = k)
    (hqty : o.leaves ≤ qty.toNat) (price : Int64) (liquidity : UInt8) (matchNumber : UInt64) :
    ∃ (orders : FlatIdMap LiveOrder) (recvs : List RecvCall),
      let t' : Trader :=
        { t with
          orders := orders
          recvs := recvs
          risk := (t.risk.onFill o.side o.leaves).onOrderClosed }
      readOe [(.ptrFirst, .data (reportFrame
        (.executed ts userRef qty price liquidity matchNumber)).bytes)] t = t' ∧
        Ledger t' none := by
  set report : Ouch.Outbound := .executed ts userRef qty price liquidity matchNumber with hreport
  set t₁ : Trader := { t with recvs := t.recvs ++ [⟨.ptrFirst, {}, FrameReader.kBufSize⟩] } with ht₁
  have hledger : Ledger t₁ (some (k, o)) :=
    ⟨h.table, h.room, h.leaves, h.gate, h.openOrders, h.openQty⟩
  obtain ⟨hflat, hrisk⟩ := @Ledger.filled t₁ k o hledger ts _ _ href hqty price liquidity matchNumber
  have hread : readOe [(.ptrFirst, .data (reportFrame report).bytes)] t = t₁.onReport report := by
    rw [readOe_frame (legal_reportFrame report) hreader, handleOeFrame_report]
  have hrest := t₁.onReport_rest report
  rw [hrisk] at hrest
  refine ⟨(t₁.onReport report).orders, t₁.recvs, hread.trans hrest, ?_⟩
  rw [hrest] at hflat
  exact hflat

/-! ## The round -/

/-- **Between two orders**: the replica is in step, the session is up, every byte that came in was
read and every byte that went out was taken, and no order is open. -/
structure Idle (t : Trader) : Prop where
  running : t.stop = false
  synced : t.synced = true
  trades : t.cfg.trade = true
  up : t.oeUp = true
  pending : t.oePending = []
  reader : t.oeReader = {}
  kernel : t.kernel = fun _ => .accepted 64
  ledger : Ledger t none

/-- What a message and a report are to the loop: one batch. -/
def round (p : Mold.PacketBuilder) (m : Ouch.Outbound) : Batch where
  events := [.md [(p.finish.data, {})],
    .oe [] false false (some [(.ptrFirst, .data (reportFrame m).bytes)])]
  nodup := show ([1, 2] : List ℕ).Nodup by decide

/-- A batch with a packet and a report. -/
theorem pump_round (t : Trader) (p : Mold.PacketBuilder) (m : Ouch.Outbound) :
    t.pump (round p m) =
      readOe [(.ptrFirst, .data (reportFrame m).bytes)] (t.handlePacket p.finish.data {}) := by
  simp only [pump, round, List.foldl_cons, List.foldl_nil, handle, onOeEvent, and_false,
    Bool.false_eq_true, if_false]

/-- A message alone. -/
def messageBatch (p : Mold.PacketBuilder) : Batch where
  events := [.md [(p.finish.data, {})]]
  nodup := show ([1] : List ℕ).Nodup by decide

/-- A batch with a packet. -/
theorem pump_message (t : Trader) (p : Mold.PacketBuilder) :
    t.pump (messageBatch p) = t.handlePacket p.finish.data {} := rfl

theorem Process.after_concat (p : Process) (batches : List Batch) (batch : Batch) :
    p.after (batches ++ [batch]) = (p.after batches).step batch :=
  List.foldl_concat _ _ _ _

/-- A batch of a process that runs. -/
theorem Process.step_running {p : Process} (hphase : p.phase = .running)
    (hstop : p.trader.stop = false) (batch : Batch) :
    p.step batch = { p with trader := p.trader.pump batch } := by
  unfold Process.step
  rw [hphase, hstop]
  rfl

/-- **One round further**: the book is another, and an order was bought. -/
structure Bought (t t' : Trader) (b : OrderBook) (sig : Signal) : Prop where
  idle : Idle t'
  cfg : t'.cfg = t.cfg
  locate : t'.locate = t.locate
  book : t'.book = b
  seq : t'.seq = ⟨(t.seq.expected + 1) % 2 ^ 64⟩
  params : t'.strat.p = t.strat.p
  nextUserRef : t'.nextUserRef = (t.nextUserRef + 1) % 2 ^ 32
  entered : t'.entered.length = t.entered.length + 1
  overflowed : t'.overflowed = t.overflowed
  position : t'.risk.position = t.risk.position + sig.qty
  lim : t'.risk.lim = t.risk.lim
  alive : t'.risk.killed = t.risk.killed
  slots : t'.risk.sentTimes.length = t.risk.sentTimes.length
  sentCount : t'.risk.sentCount = (t.risk.sentCount + 1) % 2 ^ 64

section Round

variable {p : Mold.PacketBuilder} {bs : Bytes} {m : Itch.Message} {b : OrderBook} {sig : Signal}
  {strat : ImbalanceStrategy}

/-- **The first half**: the message is applied and the order goes out. -/
theorem handlePacket_orders (h : Idle t) (hhold : p.Holds t.seq.expected [bs])
    (hlt : t.seq.expected < 2 ^ 64) (hdec : Itch.decode bs = some m)
    (happ : applyItch t.book t.locate m = (b, .applied))
    (hsig : t.strat.onBookUpdate b t.risk.position false t.nowRealtimeNs = (some sig, strat))
    (hpass : t.risk.check sig.side sig.price sig.qty ({ t with book := b } : Trader).midPrice
      t.nowRealtimeNs = .pass) (reply : SnapshotReply) :
    t.handlePacket p.finish.data reply =
      ({ t with
          book := b
          seq := ⟨(t.seq.expected + 1) % 2 ^ 64⟩
          strat := strat
          overflowed := t.overflowed || t.risk.overflows sig.side sig.qty } : Trader).tick.sendOrder
        sig t.nowRealtimeNs := by
  have hnone : decide (0 < t.orders.size) = false := by
    rw [h.ledger.table.size]
    rfl
  have hgo : (true && t.cfg.trade && t.oeUp) = true := by
    rw [h.trades, h.up]
    rfl
  rw [handlePacket_due h.synced hhold hlt hdec happ reply]
  unfold Pass.finish
  dsimp only [Bool.false_eq_true, if_false]
  refine (if_pos hgo).trans ?_
  apply maybeTrade_of_pass
  · refine Eq.trans ?_ hsig
    show t.strat.onBookUpdate b t.risk.position (decide (0 < t.orders.size)) t.nowRealtimeNs = _
    rw [hnone]
  · exact hpass

/-- **The order is open**, and the frame of it was taken whole. -/
theorem Idle.sends (h : Idle t) (hhold : p.Holds t.seq.expected [bs])
    (hlt : t.seq.expected < 2 ^ 64) (hdec : Itch.decode bs = some m)
    (happ : applyItch t.book t.locate m = (b, .applied))
    (hsig : t.strat.onBookUpdate b t.risk.position false t.nowRealtimeNs = (some sig, strat))
    (hqty : sig.qty < 2 ^ 32)
    (hpass : t.risk.check sig.side sig.price sig.qty ({ t with book := b } : Trader).midPrice
      t.nowRealtimeNs = .pass)
    (hfits : t.risk.overflows sig.side sig.qty = false) (href : t.nextUserRef ≠ 0) :
    ∃ t₂, t.handlePacket p.finish.data {} = t₂ ∧
      Ledger t₂ (some (t.nextUserRef, t.liveOrder sig)) ∧ t₂.oeUp = true ∧ t₂.oePending = [] ∧
      Orders ({ t with
        book := b
        seq := ⟨(t.seq.expected + 1) % 2 ^ 64⟩
        strat := strat } : Trader) t₂ sig t.nowRealtimeNs := by
  set t₁ : Trader := ({ t with
    book := b
    seq := ⟨(t.seq.expected + 1) % 2 ^ 64⟩
    strat := strat
    overflowed := t.overflowed || t.risk.overflows sig.side sig.qty } : Trader).tick with ht₁
  obtain ⟨hpos, hlimit⟩ := RiskGate.of_check_pass hpass
  have hledger : Ledger t₁ none :=
    ⟨h.ledger.table, h.ledger.room, h.ledger.leaves, h.ledger.gate, h.ledger.openOrders,
      h.ledger.openQty⟩
  have hsent : Ledger (t₁.sendOrder sig t.nowRealtimeNs) (some (t₁.nextUserRef, t₁.liveOrder sig)) :=
    hledger.sendOrder h.ledger.table.size ⟨hpos, hqty⟩ href hlimit hfits
  obtain ⟨hup, hpending⟩ := sendOrder_whole (t := t₁) h.up h.pending h.kernel sig t.nowRealtimeNs
  have hord := t₁.orders_sendOrder sig t.nowRealtimeNs
  have hsame : t₁.overflowed = t.overflowed := by
    rw [ht₁, hfits]
    exact Bool.or_false _
  exact ⟨_, handlePacket_orders h hhold hlt hdec happ hsig hpass {}, hsent, hup, hpending, hord.cfg,
    hord.locate, hord.book, hord.seq, hord.strat, hord.oeReader, hord.synced, hord.stop, hord.kernel,
    hord.nextUserRef, hord.entered, hord.overflowed.trans hsame, hord.risk⟩

/-- **A round**: the message, the order and its fill. -/
theorem bought_pump (h : Idle t) (hhold : p.Holds t.seq.expected [bs])
    (hlt : t.seq.expected < 2 ^ 64) (hdec : Itch.decode bs = some m)
    (happ : applyItch t.book t.locate m = (b, .applied))
    (hsig : t.strat.onBookUpdate b t.risk.position false t.nowRealtimeNs = (some sig, strat))
    (hparams : strat.p = t.strat.p) (hbuy : sig.side = .buy) (hqty : sig.qty < 2 ^ 32)
    (hpass : t.risk.check sig.side sig.price sig.qty ({ t with book := b } : Trader).midPrice
      t.nowRealtimeNs = .pass)
    (hfits : t.risk.overflows sig.side sig.qty = false) (href : t.nextUserRef ≠ 0) {ts : UInt64}
    {userRef qty : UInt32} (huser : userRef.toNat = t.nextUserRef) (hfill : sig.qty ≤ qty.toNat)
    (price : Int64) (liquidity : UInt8) (matchNumber : UInt64) :
    Bought t (t.pump (round p (.executed ts userRef qty price liquidity matchNumber))) b sig := by
  obtain ⟨t₂, hfirst, hsent, hup, hpending, hord⟩ :=
    h.sends hhold hlt hdec happ hsig hqty hpass hfits href
  have hreader : t₂.oeReader = {} := hord.oeReader.trans h.reader
  obtain ⟨orders, recvs, hread, hflat⟩ :=
    @Ledger.readOe_filled t₂ _ _ hsent hreader ts _ _ huser hfill price liquidity matchNumber
  have hposition : i64 (t.risk.position + sig.qty) = t.risk.position + sig.qty := by
    have hself := hsent.open_self
    have hbuys := hsent.gate.buy
    have hmax := hsent.gate.max_lt
    have hmin := abs_le.mp h.ledger.gate.position_le
    have hlim := h.ledger.gate.max_lt
    rw [hord.risk] at hself hbuys hmax
    change (t.risk.onOrderSent sig.side sig.qty t.nowRealtimeNs).openQty sig.side = sig.qty at hself
    change t.risk.position + (t.risk.onOrderSent sig.side sig.qty t.nowRealtimeNs).openBuy ≤
      t.risk.lim.maxPosition at hbuys
    rw [hbuy] at hself hbuys
    simp only [RiskGate.openQty] at hself
    rw [hself] at hbuys
    exact i64_eq (by omega) (by omega)
  rw [pump_round, hfirst, hread]
  have hrisk : t₂.risk.onFill sig.side sig.qty =
      (t.risk.onOrderSent sig.side sig.qty t.nowRealtimeNs).onFill .buy sig.qty := by
    rw [hord.risk, hbuy]
  refine ⟨⟨hord.stop.trans h.running, hord.synced.trans h.synced,
    (congrArg TraderConfig.trade hord.cfg).trans h.trades, hup, hpending, hreader,
    hord.kernel.trans h.kernel, hflat⟩, hord.cfg, hord.locate, hord.book, hord.seq,
    (congrArg ImbalanceStrategy.p hord.strat).trans hparams, hord.nextUserRef, hord.entered,
    hord.overflowed, ?_, ?_, ?_, ?_, ?_⟩
  · show (t₂.risk.onFill sig.side sig.qty).position = _
    rw [hrisk]
    exact hposition
  · show (t₂.risk.onFill sig.side sig.qty).lim = _
    rw [hrisk]
    rfl
  · show (t₂.risk.onFill sig.side sig.qty).killed = _
    rw [hrisk]
    rfl
  · show (t₂.risk.onFill sig.side sig.qty).sentTimes.length = _
    rw [hrisk]
    exact List.length_set
  · show (t₂.risk.onFill sig.side sig.qty).sentCount = _
    rw [hrisk]
    rfl

end Round

/-! ## The start -/

/-- The frames that say `ms`. -/
def feedFrames (ms : List Itch.Message) : List Frame :=
  ms.map fun m => ⟨kSequencedData, Itch.encode m Itch.kMaxMessageLen⟩

/-- A message that lists the symbol. -/
theorem Pull.onMessage_listed {p : Pull} {stock : Symbol} (h : stock = p.trader.symbol)
    (locate : UInt16) (ts : UInt64) (lot : UInt32) :
    p.onMessage (.stockDirectory locate ts stock lot) =
      { p with trader := { p.trader with locate := locate } } :=
  if_pos h

/-- A message that adds an order. -/
theorem Pull.onMessage_added {p : Pull} {locate : UInt16} {orderRef ts : UInt64} {side : Side}
    {shares price : UInt32} {stock : Symbol} {b : OrderBook} {answer : AddResult}
    (h : p.trader.locate = locate) (hlisted : locate ≠ 0)
    (hadd : p.trader.book.add orderRef.toNat side price.toNat shares.toNat 0 0 = (b, answer)) :
    p.onMessage (.addOrder locate ts orderRef side shares stock price) =
      { p with trader := { p.trader with book := b } } := by
  unfold Pull.onMessage
  dsimp only
  rw [h, if_pos ⟨hlisted, rfl⟩, hadd]

/-- A snapshot of `ms` in one piece. -/
def oneChunk (ms : List Itch.Message) : SnapshotReply where
  recvs := [(.ptrFirst, .data (Soup.wire (feedFrames ms)))]

section Start

variable {ms : List Itch.Message} {q : Pull}

/-- **The snapshot** goes through. -/
theorem snapshot_oneChunk (hts : ∀ m ∈ ms, m.timestamp.toNat < 2 ^ 48) (hne : ms ≠ [])
    (hroom : 42 * ms.length ≤ FrameReader.kBufSize)
    (hpull : ms.foldl Pull.onMessage t.pullStart.bare = q) (hdone : q.done = true)
    (hlocate : q.trader.locate ≠ 0) :
    ∃ recvs, t.snapshot (oneChunk ms) =
      { t with
        book := q.trader.book
        locate := q.trader.locate
        seq := ⟨q.nextSeq⟩
        synced := true
        snapshots := t.snapshots + 1
        recvs := recvs } := by
  have hlegal : ∀ f ∈ feedFrames ms, f.Legal ∧ f.type ≠ kLoginRejected ∧ f.bytes.length ≤ 42 := by
    intro f hf
    obtain ⟨m, -, hm⟩ := List.mem_map.mp hf
    exact Exchange.legal_encode m hm.symm
  have hparse : parseFrames (Soup.wire (feedFrames ms)) = ⟨feedFrames ms, [], false⟩ := by
    rw [Exchange.wire_eq fun f hf => (hlegal f hf).1]
    exact parseFrames_bytes _ fun f hf => (hlegal f hf).1
  have hlen : (Soup.wire (feedFrames ms)).length ≤ FrameReader.kBufSize := by
    refine (Exchange.length_wire_le fun f hf => ⟨(hlegal f hf).1, (hlegal f hf).2.2⟩).trans ?_
    unfold feedFrames
    rw [List.length_map]
    exact hroom
  have hsome : Soup.wire (feedFrames ms) ≠ [] := by
    intro hnil
    rw [hnil] at hparse
    have hitems : [] = feedFrames ms := congrArg Parsed.items hparse
    exact hne (List.map_eq_nil_iff.mp hitems.symm)
  have hfold : (feedFrames ms).foldl Pull.onFrame t.pullStart.bare = q :=
    (Pull.foldl_onFrame_encode _ hts).trans hpull
  have hchunk := @Pull.loop_chunk t.pullStart _ _ rfl rfl rfl hparse
    (fun f hf => (hlegal f hf).2.1) hlen hsome (by rw [hfold]; exact hdone)
  rw [hfold] at hchunk
  obtain ⟨hbare, hok, -⟩ := hchunk
  have hpulls := Pull.pulls_loop (oneChunk ms).recvs t.pullStart
  unfold Pulls at hpulls
  change (Pull.loop (oneChunk ms).recvs t.pullStart).bare = q at hbare
  change (Pull.loop (oneChunk ms).recvs t.pullStart).refused = false at hok
  unfold snapshot
  rw [if_neg (by simp [oneChunk])]
  unfold pullStart at hbare hok hpulls
  dsimp only
  generalize Pull.loop (oneChunk ms).recvs _ = p at hbare hok hpulls ⊢
  subst hbare
  rw [if_neg, hpulls]
  · exact ⟨_, rfl⟩
  · rintro (hrefused | hnone)
    · rw [hok] at hrefused
      cases hrefused
    · exact hlocate hnone

/-- **A process that has just started.** -/
structure Started (cfg : TraderConfig) (q : Pull) (p : Process) : Prop where
  phase : p.phase = .running
  idle : Idle p.trader
  locate : p.trader.locate = q.trader.locate
  book : p.trader.book = q.trader.book
  seq : p.trader.seq = ⟨q.nextSeq⟩
  strat : p.trader.strat = { p := cfg.strat }
  risk : p.trader.risk = .new cfg.risk
  nextUserRef : p.trader.nextUserRef = 1
  entered : p.trader.entered = []
  fits : p.trader.overflowed = false
  cfg : p.trader.cfg = cfg

/-- **The start** of a process that trades, on a connection that takes every frame whole. -/
theorem exists_started {cfg : TraderConfig} {clock : Clock}
    (hnew : Trader.new cfg clock (fun _ => .accepted 64) = some t) (htrades : cfg.trade = true)
    (h0 : 0 ≤ cfg.risk.maxPosition) (hwidth : cfg.risk.maxPosition < 2 ^ 63)
    (hts : ∀ m ∈ ms, m.timestamp.toNat < 2 ^ 48) (hne : ms ≠ [])
    (hroom : 42 * ms.length ≤ FrameReader.kBufSize)
    (hpull : ms.foldl Pull.onMessage t.pullStart.bare = q) (hdone : q.done = true)
    (hlocate : q.trader.locate ≠ 0) :
    ∃ p, start cfg clock (fun _ => .accepted 64) (oneChunk ms) accepted = some p ∧
      Started cfg q p := by
  have hledger := ledger_new h0 hwidth hnew
  obtain ⟨recvs, hsnap⟩ := snapshot_oneChunk hts hne hroom hpull hdone hlocate
  obtain ⟨book, orders, -, -, heq⟩ := new_eq_some hnew
  unfold start
  rw [hnew]
  dsimp only
  rw [hsnap, if_neg (by simp), connect_accepted (by rw [heq])]
  refine ⟨_, rfl, ?_⟩
  subst heq
  exact ⟨rfl, ⟨rfl, rfl, htrades, rfl, rfl, rfl, rfl, hledger.table, hledger.room, hledger.leaves,
    hledger.gate, hledger.openOrders, hledger.openQty⟩, rfl, rfl, rfl, rfl, rfl, rfl, rfl, rfl, rfl⟩

end Start

end Trader

end PulseForge
