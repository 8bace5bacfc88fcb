import PulseForge.Analysis.TradingRound
import PulseForge.Model.ExchangeArgs

/-!
# Trading under loose limits

Limits at the ends of their types hold nothing back: a trader of the largest orders buys one in
every round, as long as the other side takes them, and its position goes on towards the end of
`int64_t`.
-/

set_option autoImplicit false

namespace PulseForge

open Foundation

namespace Trader

variable {t : Trader}

/-! ## The trader and its book -/

/-- A trader of the largest orders, under limits at the ends of their types. -/
def looseConfig : TraderConfig where
  symbol := ascii "ACME"
  user := ascii "PULSE"
  strat := { orderQty := 2 ^ 32 - 1, cooldownNs := 0, maxPosition := 2 ^ 63 - 1 }
  risk :=
    { maxOrderQty := 2 ^ 32 - 1, maxNotional := 2 ^ 63 - 1, maxPosition := 2 ^ 63 - 1
      maxOrdersPerSec := 2 ^ 32 - 1 }

/-- A bid of `qty` shares and an ask of 100. -/
structure Quoted (b : OrderBook) (qty : ℕ) : Prop where
  wf : b.WF
  bid : b.orders .buy = [⟨1, 999900, qty, 0, 0, .buy⟩]
  ask : b.orders .sell = [⟨2, 1000000, 100, 0, 0, .sell⟩]

namespace Quoted

variable {b : OrderBook} {qty : ℕ}

/-- The mid price of the quotes. -/
theorem midPrice (h : Quoted t.book qty) : t.midPrice = 999950 := by
  obtain ⟨hbuy, hbid, -⟩ := OrderBook.top_of_single h.wf h.bid
  obtain ⟨hsell, hask, -⟩ := OrderBook.top_of_single h.wf h.ask
  rw [Trader.midPrice, hbuy, hsell, hbid, hask]
  rfl

/-- The bid is much the larger side. -/
theorem imbalance (hqty : 1000 ≤ qty) (hlt : qty < 2 ^ 32) :
    ¬ (i64 (i64 qty + i64 (100 : ℕ)) % 2 ^ 64).toNat < 200 ∧
      i64 (60 * i64 (i64 qty + i64 (100 : ℕ))) < i64 (i64 (i64 qty - i64 (100 : ℕ)) * 100) := by
  have hbid : i64 (qty : ℤ) = qty := i64_eq (by omega) (by omega)
  have hask : i64 ((100 : ℕ) : ℤ) = 100 := by decide
  have htotal : i64 ((qty : ℤ) + 100) = qty + 100 := i64_eq (by omega) (by omega)
  have hdiff : i64 ((qty : ℤ) - 100) = qty - 100 := i64_eq (by omega) (by omega)
  have hleft : i64 (60 * ((qty : ℤ) + 100)) = 60 * (qty + 100) := i64_eq (by omega) (by omega)
  have hright : i64 (((qty : ℤ) - 100) * 100) = (qty - 100) * 100 := i64_eq (by omega) (by omega)
  rw [hbid, hask, htotal, hdiff, hleft, hright]
  constructor
  · omega
  · omega

/-- **The signal.** -/
theorem signal (h : Quoted b qty) (hqty : 1000 ≤ qty) (hlt : qty < 2 ^ 32)
    {strat : ImbalanceStrategy} (hparams : strat.p = looseConfig.strat) (position : ℤ) (now : ℕ) :
    ∃ pct, strat.onBookUpdate b position false now =
      (some ⟨.buy, 1000000, 2 ^ 32 - 1, pct⟩, { strat with lastSignalNs := now }) := by
  obtain ⟨hbuy, -, hbidQty⟩ := OrderBook.top_of_single h.wf h.bid
  obtain ⟨hsell, hask, haskQty⟩ := OrderBook.top_of_single h.wf h.ask
  obtain ⟨hsize, hratio⟩ := imbalance hqty hlt
  have hroom : i64 (position + (looseConfig.strat.orderQty : ℤ)) ≤ 2 ^ 63 - 1 :=
    Int.le_sub_one_of_lt (i64_range _).2
  have hgo : ¬ (false || b.empty .buy || b.empty .sell) = true := by
    rw [hbuy, hsell]
    decide
  have hwarm : ¬ (now + 2 ^ 64 - strat.lastSignalNs) % 2 ^ 64 < strat.p.cooldownNs := by
    rw [hparams]
    exact Nat.not_lt_zero _
  unfold ImbalanceStrategy.onBookUpdate
  dsimp only
  rw [if_neg hgo, if_neg hwarm, hparams, hbidQty, haskQty, hask]
  refine ⟨_, (if_neg hsize).trans (if_pos ⟨hratio, hroom⟩)⟩

end Quoted

/-- **Nothing is too much** for these limits: the sum of the position and the order may even wrap. -/
theorem pass_loose {g : RiskGate} (hlim : g.lim = looseConfig.risk) (halive : g.killed = false)
    (hopen : g.openOrders = 0) (hrate : g.sentCount < g.sentTimes.length) (now : ℕ) :
    g.check .buy 1000000 (2 ^ 32 - 1) 999950 now = .pass := by
  have hlimit : g.overLimit .buy (2 ^ 32 - 1) = false := by
    have hrange := (i64_range (i64 (g.position + g.openBuy) + (2 ^ 32 - 1 : ℕ))).2
    unfold RiskGate.overLimit RiskGate.worstCase
    rw [hlim, decide_eq_false_iff_not, not_lt]
    exact Int.le_sub_one_of_lt hrange
  rw [RiskGate.check_eq_pass, hlim, hopen]
  refine ⟨halive, by decide, by decide, by decide, by decide, by decide, hlimit, ?_⟩
  rintro ⟨hslots, -⟩
  omega

/-! ## The rounds -/

/-- One share of the bid is cancelled. -/
def shareCancelled : Itch.Message := .orderCancel 1 0 1 1

/-- The packet that says so, under the next number. -/
def sharePacket (k : ℕ) : Mold.PacketBuilder where
  session := List.replicate 10 32
  firstSeq := k + 1
  count := 1
  body := [shareCancelled.layout].flatMap Mold.block

/-- The report that fills the order of round `k`. -/
def filledReport (k : ℕ) : Ouch.Outbound :=
  .executed 0 (UInt32.ofNat (k + 1)) (UInt32.ofNat (2 ^ 32 - 1)) 1000000 82 (UInt64.ofNat (k + 1))

/-- **After `k` rounds** the trader has bought `k` orders whole. -/
structure Rounds (k : ℕ) (t : Trader) : Prop where
  idle : Idle t
  locate : t.locate = 1
  book : Quoted t.book (2 ^ 32 - 1 - k)
  seq : t.seq = ⟨k + 1⟩
  params : t.strat.p = looseConfig.strat
  nextUserRef : t.nextUserRef = k + 1
  entered : t.entered.length = k
  fits : t.overflowed = false
  position : t.risk.position = k * (2 ^ 32 - 1)
  lim : t.risk.lim = looseConfig.risk
  alive : t.risk.killed = false
  slots : t.risk.sentTimes.length = 2 ^ 32 - 1
  sentCount : t.risk.sentCount = k

/-- Each packet holds the cancel of one share. -/
theorem holds_sharePacket (k : ℕ) : (sharePacket k).Holds (k + 1) [shareCancelled.layout] :=
  ⟨rfl, rfl, rfl, rfl, show Mold.kHeaderLen + ([shareCancelled.layout].flatMap Mold.block).length ≤
    Mold.kMaxPacketLen by decide⟩

namespace Rounds

variable {k : ℕ}

/-- **The share goes**, and the strategy wants to buy. -/
theorem next (h : Rounds k t) (hk : k ≤ 2 ^ 31) :
    ∃ b sig, applyItch t.book t.locate shareCancelled = (b, .applied) ∧
      Quoted b (2 ^ 32 - 1 - (k + 1)) ∧ sig.side = .buy ∧ sig.qty = 2 ^ 32 - 1 ∧
      t.strat.onBookUpdate b t.risk.position false t.nowRealtimeNs =
        (some sig, { t.strat with lastSignalNs := t.nowRealtimeNs }) ∧
      t.risk.check sig.side sig.price sig.qty ({ t with book := b } : Trader).midPrice
        t.nowRealtimeNs = .pass := by
  have hlt : 1 < 2 ^ 32 - 1 - k := by omega
  obtain ⟨b, hreduce, hwf, hbid, hother⟩ := OrderBook.reduce_first h.book.wf h.book.bid hlt
  have hquoted : Quoted b (2 ^ 32 - 1 - (k + 1)) :=
    ⟨hwf, hbid, (hother .sell (by decide)).trans h.book.ask⟩
  obtain ⟨pct, hsig⟩ := hquoted.signal (by omega) (by omega) h.params t.risk.position
    t.nowRealtimeNs
  have hmid : ({ t with book := b } : Trader).midPrice = 999950 := Quoted.midPrice hquoted
  refine ⟨b, _, ?_, hquoted, rfl, rfl, hsig, ?_⟩
  · rw [h.locate]
    unfold applyItch shareCancelled
    dsimp only
    rw [if_neg (not_not.mpr rfl)]
    change (t.book.reduce 1 1).map id ApplyResult.ofBool = _
    rw [hreduce]
    rfl
  · rw [hmid]
    refine pass_loose h.lim h.alive h.idle.ledger.openOrders ?_ _
    rw [h.sentCount, h.slots]
    omega

/-- **The sum of the check fits** in every round but the last. -/
theorem sum_fits (h : Rounds k t) (hk : k < 2 ^ 31) :
    t.risk.overflows .buy (2 ^ 32 - 1) = false := by
  have hflat : t.risk.openBuy = 0 := h.idle.ledger.openQty .buy
  rw [RiskGate.overflows, hflat, h.position, decide_eq_false_iff_not]
  push_cast
  omega

/-- **One round.** -/
theorem step (h : Rounds k t) (hk : k < 2 ^ 31) :
    Rounds (k + 1) (t.pump (round (sharePacket k) (filledReport k))) := by
  obtain ⟨b, sig, happ, hquoted, hbuy, hqty, hsig, hpass⟩ := h.next hk.le
  have hexp : t.seq.expected = k + 1 := congrArg SequenceTracker.expected h.seq
  have hhold := holds_sharePacket k
  rw [← hexp] at hhold
  have hdec : Itch.decode shareCancelled.layout = some shareCancelled :=
    Itch.decode_layout (by decide)
  have hfits : t.risk.overflows sig.side sig.qty = false := by
    rw [hbuy, hqty]
    exact h.sum_fits hk
  have hnew : t.seq.expected < 2 ^ 64 := by
    rw [hexp]
    omega
  have hsmall : sig.qty < 2 ^ 32 := by
    rw [hqty]
    decide
  have href : t.nextUserRef ≠ 0 := by
    rw [h.nextUserRef]
    exact Nat.succ_ne_zero k
  have huser : (UInt32.ofNat (k + 1)).toNat = t.nextUserRef := by
    rw [h.nextUserRef, UInt32.toNat_ofNat', Nat.mod_eq_of_lt (by omega)]
  have hfill : sig.qty ≤ (UInt32.ofNat (2 ^ 32 - 1)).toNat := by
    rw [hqty]
    decide
  have hround : Bought t (t.pump (round (sharePacket k) (filledReport k))) b sig :=
    bought_pump h.idle hhold hnew hdec happ hsig rfl hbuy hsmall hpass hfits href huser hfill 1000000
      82 (UInt64.ofNat (k + 1))
  generalize t.pump (round (sharePacket k) (filledReport k)) = t' at hround ⊢
  refine ⟨hround.idle, hround.locate.trans h.locate, hround.book.symm ▸ hquoted, ?_,
    hround.params.trans h.params, ?_, ?_, hround.overflowed.trans h.fits, ?_, hround.lim.trans h.lim, hround.alive.trans h.alive,
    hround.slots.trans h.slots, ?_⟩
  · rw [hround.seq, hexp, Nat.mod_eq_of_lt (by omega)]
  · rw [hround.nextUserRef, h.nextUserRef, Nat.mod_eq_of_lt (by omega)]
  · rw [hround.entered, h.entered]
  · rw [hround.position, h.position, hqty]
    push_cast
    ring
  · rw [hround.sentCount, h.sentCount, Nat.mod_eq_of_lt (by omega)]

end Rounds

/-! ## The run -/

/-- The batches of the first `n` rounds. -/
def roundBatches (n : ℕ) : List Batch :=
  (List.range n).map fun k => round (sharePacket k) (filledReport k)

/-- **All rounds.** -/
theorem Rounds.run {p : Process} (hphase : p.phase = .running) (h : Rounds 0 p.trader) {n : ℕ}
    (hn : n ≤ 2 ^ 31) :
    (p.after (roundBatches n)).phase = .running ∧ Rounds n (p.after (roundBatches n)).trader := by
  induction n with
  | zero => exact ⟨hphase, h⟩
  | succ n ih =>
    obtain ⟨hrunning, hrounds⟩ := ih (by omega)
    have hnext := hrounds.step (Nat.lt_of_succ_le hn)
    have hsucc : roundBatches (n + 1) =
        roundBatches n ++ [round (sharePacket n) (filledReport n)] := by
      unfold roundBatches
      rw [List.range_succ, List.map_append]
      rfl
    rw [hsucc, Process.after_concat, Process.step_running hrunning hrounds.idle.running]
    refine ⟨hrunning, ?_⟩
    dsimp only
    exact hnext

/-! ## The start of the run -/

/-- What the snapshot says. -/
def openingMessages : List Itch.Message :=
  [.stockDirectory 1 0 (makeSymbol (ascii "ACME")) 100,
    .addOrder 1 0 1 .buy (UInt32.ofNat (2 ^ 32 - 1)) (makeSymbol (ascii "ACME")) 999900,
    .addOrder 1 0 2 .sell 100 (makeSymbol (ascii "ACME")) 1000000,
    .endOfSnapshot 1]

/-- The two orders of the snapshot. -/
theorem exists_quoted {b : OrderBook} (hwf : b.WF) (hcfg : b.cfg = {})
    (hnone : ∀ s, b.orders s = []) :
    ∃ b₁ b₂, b.add 1 .buy 999900 (2 ^ 32 - 1) 0 0 = (b₁, .ok) ∧
      b₁.add 2 .sell 1000000 100 0 0 = (b₂, .ok) ∧ Quoted b₂ (2 ^ 32 - 1) := by
  have hcount : b.forEachOrder = [] := by
    rw [OrderBook.forEachOrder, hnone, hnone]
    rfl
  have hfresh : ∀ s, ∀ o ∈ b.orders s, o.id ≠ 1 := by
    intro s o ho
    rw [hnone] at ho
    cases ho
  obtain ⟨b₁, hadd₁, hwf₁, hcfg₁, hbid₁, hother₁⟩ :=
    @OrderBook.add_first b .buy ⟨1, 999900, 2 ^ 32 - 1, 0, 0, .buy⟩ hwf (hnone .buy)
      (by rw [hcfg]; decide) (by decide) (by rw [hcount, hcfg]; decide) (by decide) hfresh rfl
  have hask₁ : b₁.orders .sell = [] := (hother₁ .sell (by decide)).trans (hnone .sell)
  have hcount₁ : b₁.forEachOrder.length = 1 := by
    rw [OrderBook.forEachOrder, hbid₁, hask₁]
    rfl
  have hfresh₁ : ∀ s, ∀ o ∈ b₁.orders s, o.id ≠ 2 := by
    intro s o ho
    cases s with
    | buy =>
      rw [hbid₁, List.mem_singleton] at ho
      rw [ho]
      decide
    | sell =>
      rw [hask₁] at ho
      cases ho
  obtain ⟨b₂, hadd₂, hwf₂, -, hask₂, hother₂⟩ :=
    @OrderBook.add_first b₁ .sell ⟨2, 1000000, 100, 0, 0, .sell⟩ hwf₁ hask₁
      (by rw [hcfg₁, hcfg]; decide) (by decide) (by rw [hcount₁, hcfg₁, hcfg]; decide) (by decide)
      hfresh₁ rfl
  exact ⟨b₁, b₂, hadd₁, hadd₂, hwf₂, (hother₂ .buy (by decide)).trans hbid₁, hask₂⟩

/-- **The book opens** with one bid and one ask. -/
theorem opening {cfg : TraderConfig} (hacme : cfg.symbol = ascii "ACME") {clock : Clock}
    {kernel : ℕ → Session.Send} (h : Trader.new cfg clock kernel = some t) :
    ∃ q, openingMessages.foldl Pull.onMessage t.pullStart.bare = q ∧ q.done = true ∧
      q.trader.locate = 1 ∧ q.nextSeq = 1 ∧ Quoted q.trader.book (2 ^ 32 - 1) := by
  have hsymbol : makeSymbol (ascii "ACME") = t.pullStart.bare.trader.symbol := by
    obtain ⟨book, orders, -, -, rfl⟩ := new_eq_some h
    rw [symbol_eq, ← hacme]
    rfl
  obtain ⟨b₁, b₂, hbid, hask, hquoted⟩ : ∃ b₁ b₂,
      t.pullStart.bare.trader.book.add 1 .buy 999900 (2 ^ 32 - 1) 0 0 = (b₁, .ok) ∧
        b₁.add 2 .sell 1000000 100 0 0 = (b₂, .ok) ∧ Quoted b₂ (2 ^ 32 - 1) := by
    obtain ⟨book, orders, hbook, -, rfl⟩ := new_eq_some h
    obtain ⟨hwf, hcfg, -⟩ := OrderBook.new_wf hbook
    exact exists_quoted (OrderBook.clear_wf hwf).1 ((OrderBook.clear_wf hwf).2.1.trans hcfg)
      (OrderBook.clear_orders hwf)
  generalize t.pullStart.bare = p at hsymbol hbid ⊢
  let p₁ : Pull := { p with trader := { p.trader with locate := 1 } }
  let p₂ : Pull := { p₁ with trader := { p₁.trader with book := b₁ } }
  let p₃ : Pull := { p₂ with trader := { p₂.trader with book := b₂ } }
  have h₁ : p.onMessage (.stockDirectory 1 0 (makeSymbol (ascii "ACME")) 100) = p₁ :=
    Pull.onMessage_listed hsymbol 1 0 100
  have h₂ : p₁.onMessage (.addOrder 1 0 1 .buy (UInt32.ofNat (2 ^ 32 - 1))
      (makeSymbol (ascii "ACME")) 999900) = p₂ := Pull.onMessage_added rfl (by decide) hbid
  have h₃ : p₂.onMessage (.addOrder 1 0 2 .sell 100 (makeSymbol (ascii "ACME")) 1000000) = p₃ :=
    Pull.onMessage_added rfl (by decide) hask
  refine ⟨{ p₃ with nextSeq := 1, done := true }, ?_, rfl, rfl, rfl, hquoted⟩
  unfold openingMessages
  rw [List.foldl_cons, h₁, List.foldl_cons, h₂, List.foldl_cons, h₃]
  rfl

/-- A clock that goes on by a microsecond from reading to reading. -/
def looseClock : Clock := ⟨fun k => 1000 * k, fun k => 1000 * k, 0⟩

/-- **The process starts.** -/
theorem exists_opened {cfg : TraderConfig} (hacme : cfg.symbol = ascii "ACME")
    (htrades : cfg.trade = true) (h0 : 0 ≤ cfg.risk.maxPosition)
    (hwidth : cfg.risk.maxPosition < 2 ^ 63) :
    ∃ q p, start cfg looseClock (fun _ => .accepted 64) (oneChunk openingMessages) accepted = some p ∧
      Started cfg q p ∧ q.trader.locate = 1 ∧ q.nextSeq = 1 ∧
      Quoted q.trader.book (2 ^ 32 - 1) := by
  obtain ⟨t, hnew⟩ := new_isSome cfg looseClock fun _ => .accepted 64
  obtain ⟨q, hpull, hdone, hlocate, hnext, hbook⟩ := opening hacme hnew
  have hlisted : q.trader.locate ≠ 0 := by
    rw [hlocate]
    decide
  have hts : ∀ m ∈ openingMessages, m.timestamp.toNat < 2 ^ 48 := by
    unfold openingMessages
    decide
  obtain ⟨p, hstart, hstarted⟩ := exists_started hnew htrades h0 hwidth hts (List.cons_ne_nil _ _)
    (by decide) hpull hdone hlisted
  exact ⟨q, p, hstart, hstarted, hlocate, hnext, hbook⟩

/-- No round yet. -/
theorem Started.rounds {q : Pull} {p : Process} (h : Started looseConfig q p)
    (hlocate : q.trader.locate = 1) (hnext : q.nextSeq = 1)
    (hbook : Quoted q.trader.book (2 ^ 32 - 1)) : Rounds 0 p.trader := by
  have hslots : p.trader.risk.sentTimes.length = 2 ^ 32 - 1 := by
    rw [h.risk]
    exact List.length_replicate
  refine ⟨h.idle, h.locate.trans hlocate, h.book.symm ▸ hbook, ?_, ?_, h.nextUserRef, ?_, h.fits, ?_,
    ?_, ?_, hslots, ?_⟩
  · rw [h.seq, hnext]
  · rw [h.strat]
  · rw [h.entered]
    rfl
  · rw [h.risk]
    rfl
  · rw [h.risk]
    rfl
  · rw [h.risk]
    rfl
  · rw [h.risk]
    rfl

end Trader

end PulseForge
