import PulseForge.Analysis.LooseLimits

/-!
# The position limit

The books of the trader are right in every state of a run, as long as no sum of the check has
left its type: then the worst case on either side is within the limit. Under a limit close
enough to the end of the type the sum leaves it in the end, and the limit is passed.
-/

set_option autoImplicit false

namespace PulseForge

open Foundation

namespace Trader

variable {t t' : Trader} {live : Option (ℕ × LiveOrder)}

/-! ## The account of a run -/

/-- **Only what the account does not need differs.** -/
structure SameAccount (t t' : Trader) : Prop where
  orders : t'.orders = t.orders
  risk : t'.risk = t.risk
  params : t'.strat.p = t.strat.p
  nextUserRef : t'.nextUserRef = t.nextUserRef
  entered : t'.entered = t.entered
  overflowed : t'.overflowed = t.overflowed

/-- A trader has its own account. -/
theorem SameAccount.refl (t : Trader) : SameAccount t t := by
  constructor <;> rfl

/-- The same account twice. -/
theorem SameAccount.trans {t'' : Trader} (h : SameAccount t t') (h' : SameAccount t' t'') :
    SameAccount t t'' :=
  ⟨h'.orders.trans h.orders, h'.risk.trans h.risk, h'.params.trans h.params,
    h'.nextUserRef.trans h.nextUserRef, h'.entered.trans h.entered,
    h'.overflowed.trans h.overflowed⟩

/-- Bytes that move leave the account. -/
theorem Streams.sameAccount (h : Streams t t') : SameAccount t t' := by
  rw [h.rest]
  constructor <;> rfl

/-- Market data leaves the account. -/
theorem Fed.sameAccount (h : Fed t t') : SameAccount t t' := by
  have hrest := h.rest
  refine ⟨?_, ?_, h.params, ?_, ?_, ?_⟩
  all_goals rw [hrest]

/-- A snapshot leaves the account. -/
theorem sameAccount_snapshot (t : Trader) (reply : SnapshotReply) :
    SameAccount t (t.snapshot reply) := by
  have hrest : Refreshes t (t.snapshot reply) := refreshes_snapshot t reply
  unfold Refreshes at hrest
  rw [hrest]
  constructor <;> rfl

/-- A report leaves the limits alone. -/
theorem onReport_lim (t : Trader) (m : Ouch.Outbound) : (t.onReport m).risk.lim = t.risk.lim := by
  have hclose : ∀ (c : Prop) [Decidable c] (t : Trader) (k : ℕ),
      (if c then t.closeOrder k else t).risk.lim = t.risk.lim := by
    intro c _ t k
    split <;> rfl
  have hfill : ∀ (side : Side) (q : ℕ), (t.risk.onFill side q).lim = t.risk.lim := by
    intro side q
    cases side <;> rfl
  have hcancel : ∀ (side : Side) (q : ℕ), (t.risk.onCancelled side q).lim = t.risk.lim := by
    intro side q
    cases side <;> rfl
  cases m with
  | accepted ts userRef side qty symbol price tif orderRef clordid state =>
    simp only [onReport, onAccepted]
    split <;> rfl
  | executed ts userRef qty price liquidity matchNumber =>
    simp only [onReport, onExecuted]
    split
    · rfl
    · exact (hclose _ _ _).trans (hfill _ _)
  | canceled ts userRef qty reason =>
    simp only [onReport, onCanceled]
    split
    · rfl
    · exact (hclose _ _ _).trans (hcancel _ _)
  | rejected ts userRef reason clordid =>
    simp only [onReport, onRejected]
    split
    · rfl
    · exact hcancel _ _

/-- **The account**: while the numbers of the orders have not come round, the sums of the check
either have left their type or the books are right. -/
structure Account (cfg : TraderConfig) (t : Trader) : Prop where
  small : cfg.strat.orderQty < 2 ^ 32
  limit : t.risk.lim = cfg.risk
  params : t.strat.p = cfg.strat
  nextUserRef : t.nextUserRef = (t.entered.length + 1) % 2 ^ 32
  books : t.entered.length < 2 ^ 32 - 1 → t.overflowed = false → ∃ live, Ledger t live
  fits : t.entered.length < 2 ^ 32 - 1 → cfg.risk.maxPosition + 2 ^ 32 ≤ 2 ^ 63 →
    t.overflowed = false

namespace Account

variable {cfg : TraderConfig}

/-- The account of a trader with the same fields. -/
theorem same (h : Account cfg t) (hsame : SameAccount t t') : Account cfg t' := by
  refine ⟨h.small, hsame.risk ▸ h.limit, hsame.params.trans h.params, ?_, fun hlen hover => ?_,
    fun hlen hroom => ?_⟩
  · rw [hsame.nextUserRef, hsame.entered]
    exact h.nextUserRef
  · rw [hsame.entered] at hlen
    rw [hsame.overflowed] at hover
    obtain ⟨live, hlive⟩ := h.books hlen hover
    refine ⟨live, ?_, ?_, hlive.leaves, ?_, ?_, ?_⟩
    · rw [hsame.orders]
      exact hlive.table
    · rw [hsame.orders]
      exact hlive.room
    · rw [hsame.risk]
      exact hlive.gate
    · rw [hsame.risk]
      exact hlive.openOrders
    · rw [hsame.risk]
      exact hlive.openQty
  · rw [hsame.entered] at hlen
    rw [hsame.overflowed]
    exact h.fits hlen hroom

/-- **A trade.** -/
theorem traded {sig : Signal} {bookDone : ℕ} (h : Account cfg t)
    (hnone : t.orders.size = 0) (hqty : sig.qty = t.strat.p.orderQty)
    (hpass : t.risk.check sig.side sig.price sig.qty t.midPrice bookDone = .pass) :
    Account cfg
      (({ t with overflowed := t.overflowed || t.risk.overflows sig.side sig.qty } : Trader).sendOrder
        sig bookDone) := by
  obtain ⟨hpos, hlimit⟩ := RiskGate.of_check_pass hpass
  have hlt : sig.qty < 2 ^ 32 := by
    rw [hqty, h.params]
    exact h.small
  obtain ⟨t₁, txRing, txHead, hstream, heq⟩ :=
    ({ t with overflowed := t.overflowed || t.risk.overflows sig.side sig.qty } : Trader).sendOrder_eq
      sig bookDone
  have hlen : t₁.entered.length = t.entered.length + 1 := by
    rw [hstream.entered]
    exact List.length_append
  have hover : t₁.overflowed = (t.overflowed || t.risk.overflows sig.side sig.qty) := hstream.overflowed
  have hrisk : t₁.risk = t.risk := hstream.risk
  have hstrat : t₁.strat = t.strat := hstream.strat
  have hnext : t₁.nextUserRef = (t.nextUserRef + 1) % 2 ^ 32 := hstream.nextUserRef
  refine ⟨h.small, ?_, ?_, ?_, fun hfew hfits => ?_, fun hfew hroom => ?_⟩
  · rw [heq]
    show t₁.risk.lim = cfg.risk
    rw [hrisk]
    exact h.limit
  · rw [heq]
    show t₁.strat.p = cfg.strat
    rw [hstrat]
    exact h.params
  · rw [heq]
    show t₁.nextUserRef = (t₁.entered.length + 1) % 2 ^ 32
    rw [hnext, hlen, h.nextUserRef, Nat.mod_add_mod]
  · rw [heq] at hfew hfits
    change t₁.entered.length < 2 ^ 32 - 1 at hfew
    change t₁.overflowed = false at hfits
    rw [hlen] at hfew
    rw [hover, Bool.or_eq_false_iff] at hfits
    obtain ⟨live, hlive⟩ := h.books (by omega) hfits.1
    have href : t.nextUserRef ≠ 0 := by
      rw [h.nextUserRef, Nat.mod_eq_of_lt (by omega)]
      omega
    have hbooks : Ledger { t with overflowed := t.overflowed || t.risk.overflows sig.side sig.qty } live :=
      ⟨hlive.table, hlive.room, hlive.leaves, hlive.gate, hlive.openOrders, hlive.openQty⟩
    exact ⟨_, hbooks.sendOrder hnone ⟨hpos, hlt⟩ href hlimit hfits.2⟩
  · rw [heq] at hfew ⊢
    change t₁.entered.length < 2 ^ 32 - 1 at hfew
    show t₁.overflowed = false
    rw [hlen] at hfew
    have hbefore := h.fits (by omega) hroom
    obtain ⟨live, hlive⟩ := h.books (by omega) hbefore
    rw [hover, hbefore, Bool.false_or]
    apply RiskGate.not_overflows hlive.gate hlt
    rw [h.limit]
    exact hroom

/-- **A report.** -/
theorem report (h : Account cfg t) (m : Ouch.Outbound) : Account cfg (t.onReport m) := by
  have hrest := onReport_rest t m
  have hlim := onReport_lim t m
  refine ⟨h.small, hlim.trans h.limit, ?_, ?_, fun hfew hfits => ?_, fun hfew hroom => ?_⟩
  · rw [hrest]
    exact h.params
  · rw [hrest]
    exact h.nextUserRef
  · rw [hrest] at hfew hfits
    obtain ⟨live, hlive⟩ := h.books hfew hfits
    exact hlive.onReport m
  · rw [hrest] at hfew ⊢
    exact h.fits hfew hroom

/-- A move keeps the account. -/
theorem move (h : Account cfg t) (hmove : Move t t') : Account cfg t' := by
  cases hmove with
  | streams hstream => exact h.same hstream.sameAccount
  | fed hfed => exact h.same hfed.sameAccount
  | snapshot reply => exact h.same (sameAccount_snapshot t reply)
  | stopped => exact h.same (by constructor <;> rfl)
  | traded hnone hqty hpass => exact h.traded hnone hqty hpass

/-- A move of the order-entry session keeps the account. -/
theorem oeMove (h : Account cfg t) (hmove : OeMove t t') : Account cfg t' := by
  cases hmove with
  | read => exact h.same (by constructor <;> rfl)
  | report m => exact h.report m
  | stopped => exact h.same (by constructor <;> rfl)
  | lost => exact h.same (by constructor <;> rfl)

/-- Moves keep the account. -/
theorem moves (h : Account cfg t) (hmoves : Moves t t') : Account cfg t' := by
  induction hmoves with
  | refl => exact h
  | tail _ hmove ih => exact ih.move hmove

/-- Moves of the order-entry session keep the account. -/
theorem oeMoves (h : Account cfg t) (hmoves : OeMoves t t') : Account cfg t' := by
  induction hmoves with
  | refl => exact h
  | tail _ hmove ih => exact ih.oeMove hmove

/-- **One event of a batch.** -/
theorem handle (h : Account cfg t) (ready : Ready) : Account cfg (t.handle ready) := by
  cases ready with
  | md packets =>
    exact h.moves (moves_foldl (fun t (packet : Bytes × SnapshotReply) =>
      handlePacket_moves t packet.1 packet.2) packets t)
  | oe stamps error out recvs =>
    have hstamps : Streams t (stamps.foldl onTxStamp t) := .foldl streams_onTxStamp stamps t
    simp only [Trader.handle, onOeEvent]
    generalize stamps.foldl onTxStamp t = t₀ at hstamps ⊢
    have h₀ : Account cfg t₀ := h.same hstamps.sameAccount
    split
    · exact h₀.oeMove .lost
    · have hflush : Streams t₀ (if out then flushOePending t₀.oePending.length t₀ else t₀) := by
        split
        · exact streams_flushOePending _ t₀
        · exact .refl t₀
      generalize (if out then flushOePending t₀.oePending.length t₀ else t₀) = t₁ at hflush ⊢
      have h₁ : Account cfg t₁ := h₀.same hflush.sameAccount
      cases recvs with
      | none => exact h₁
      | some recvs => exact h₁.oeMoves (readOe_moves recvs t₁)
  | timer reply => exact h.moves (onTimer_moves t reply)
  | signal => exact h.move .stopped

/-- A batch keeps the account. -/
theorem pump (h : Account cfg t) (batch : Batch) : Account cfg (t.pump batch) := by
  unfold Trader.pump
  generalize batch.events = events
  induction events generalizing t with
  | nil => exact h
  | cons ready events ih => exact ih (h.handle ready)

/-- **One round of the process.** -/
theorem step {p : Process} (h : Account cfg p.trader) (batch : Batch) :
    Account cfg (p.step batch).trader := by
  unfold Process.step
  split
  · split
    · have hcancel : Account cfg p.trader.cancelAll := h.same (streams_cancelAll p.trader).sameAccount
      exact hcancel.same (by constructor <;> rfl)
    · exact h.pump batch
  · split
    · have htick : Account cfg p.trader.tick := h.same (streams_tick p.trader).sameAccount
      exact htick.pump batch
    · unfold Process.finish
      dsimp only
      split
      · exact h.same (streams_oeSend p.trader _).sameAccount
      · exact h
  · exact h

/-- Batches keep the account. -/
theorem after {p : Process} (h : Account cfg p.trader) (batches : List Batch) :
    Account cfg (p.after batches).trader := by
  unfold Process.after
  induction batches generalizing p with
  | nil => exact h
  | cons batch batches ih => exact ih (h.step batch)

end Account

/-! ## The start -/

/-- **The constructor.** -/
theorem account_new {cfg : TraderConfig} {clock : Clock} {kernel : ℕ → Session.Send}
    (hmax : 0 ≤ cfg.risk.maxPosition ∧ cfg.risk.maxPosition < 2 ^ 63)
    (hsmall : cfg.strat.orderQty < 2 ^ 32) (h : Trader.new cfg clock kernel = some t) :
    Account cfg t := by
  have hledger := ledger_new hmax.1 hmax.2 h
  obtain ⟨book, orders, -, -, rfl⟩ := new_eq_some h
  exact ⟨hsmall, rfl, rfl, rfl, fun _ _ => ⟨none, hledger⟩, fun _ _ => rfl⟩

/-- Waiting for the login leaves the account. -/
theorem awaitLogin_sameAccount {recvs : List (ArgOrder × RecvAnswer)}
    (h : awaitLogin recvs t = some t') : SameAccount t t' := by
  induction recvs generalizing t with
  | nil => cases h
  | cons recv recvs ih =>
    obtain ⟨order, answer⟩ := recv
    cases answer with
    | data bs =>
      unfold awaitLogin at h
      dsimp only at h
      split at h
      · cases h
      · split at h
        · split at h
          · rw [← Option.some.inj h]
            constructor <;> rfl
          · cases h
        · have hrest := ih h
          exact ⟨hrest.orders, hrest.risk, hrest.params, hrest.nextUserRef, hrest.entered,
            hrest.overflowed⟩
    | closed | again | interrupted | failed => cases h

/-- Connecting leaves the account. -/
theorem connectOrderEntry_sameAccount {login : List (ArgOrder × RecvAnswer)} {t' : Trader}
    (h : t.connectOrderEntry login = some t') : SameAccount t t' := by
  unfold connectOrderEntry at h
  generalize loginFrame t.cfg.user = frame at h
  refine SameAccount.trans ?_ (awaitLogin_sameAccount h)
  constructor <;> rfl

/-- **The process starts** with a clean account. -/
theorem account_start {cfg : TraderConfig} {clock : Clock} {kernel : ℕ → Session.Send}
    {reply : SnapshotReply} {login : List (ArgOrder × RecvAnswer)} {p : Process}
    (hmax : 0 ≤ cfg.risk.maxPosition ∧ cfg.risk.maxPosition < 2 ^ 63)
    (hsmall : cfg.strat.orderQty < 2 ^ 32)
    (h : Trader.start cfg clock kernel reply login = some p) : Account cfg p.trader := by
  unfold Trader.start at h
  cases hnew : Trader.new cfg clock kernel with
  | none =>
    rw [hnew] at h
    exact nomatch h
  | some t =>
    have hsnap := (account_new hmax hsmall hnew).same (sameAccount_snapshot t reply)
    rw [hnew] at h
    dsimp only at h
    generalize t.snapshot reply = t₁ at hsnap h
    split at h
    · exact nomatch h
    · obtain ⟨t', hlogin, hp⟩ := Option.map_eq_some_iff.mp h
      have hend : Account cfg t' := hsnap.same (connectOrderEntry_sameAccount hlogin)
      rw [← hp]
      exact hend.same (by constructor <;> rfl)

/-! ## The limit -/

/-- **The exposure**: the gate counts the live orders and what they have left, and the worst case
on either side is within the limit. -/
structure Exposure (max : ℤ) (t : Trader) : Prop where
  openOrders : t.risk.openOrders = t.orders.forEach.length
  size : t.orders.size = t.orders.forEach.length
  openBuy : t.risk.openBuy = leavesOf .buy t.orders.forEach
  openSell : t.risk.openSell = leavesOf .sell t.orders.forEach
  leaves : ∀ e ∈ t.orders.forEach, 0 < e.2.leaves ∧ e.2.leaves ≤ e.2.qty
  long : t.risk.position + t.risk.openBuy ≤ max
  short : -max ≤ t.risk.position - t.risk.openSell
  position : |t.risk.position| ≤ max

/-- The exposure, read off the ledger. -/
theorem Ledger.exposure (h : Ledger t live) : Exposure t.risk.lim.maxPosition t := by
  have hentries := h.table.entries
  refine ⟨?_, ?_, ?_, ?_, fun e he => ?_, h.gate.buy, h.gate.sell, h.gate.position_le⟩
  · rw [hentries]
    exact h.openOrders
  · rw [hentries]
    exact h.table.size
  · rw [hentries]
    exact h.openQty .buy
  · rw [hentries]
    exact h.openQty .sell
  · rw [hentries] at he
    exact h.leaves e (Option.mem_toList.mp he)

/-- **The position limit.** In every run of fewer than 2^32 - 1 orders in which no sum of the
check left `int64_t`, whatever the exchange reports; under a limit of at most 2^63 - 2^32 no sum
does. -/
theorem position_limit {cfg : TraderConfig} {clock : Clock} {kernel : ℕ → Session.Send}
    {reply : SnapshotReply} {login : List (ArgOrder × RecvAnswer)} {p : Process}
    (hmax : 0 ≤ cfg.risk.maxPosition) (hwidth : cfg.risk.maxPosition < 2 ^ 63)
    (hqty : cfg.strat.orderQty < 2 ^ 32)
    (hstart : Trader.start cfg clock kernel reply login = some p) (batches : List Batch)
    (hfew : (p.after batches).trader.entered.length < 2 ^ 32 - 1) :
    ((p.after batches).trader.overflowed = false →
      Exposure cfg.risk.maxPosition (p.after batches).trader) ∧
    (cfg.risk.maxPosition + 2 ^ 32 ≤ 2 ^ 63 → (p.after batches).trader.overflowed = false) := by
  have haccount := (account_start ⟨hmax, hwidth⟩ hqty hstart).after batches
  refine ⟨fun hfits => ?_, haccount.fits hfew⟩
  obtain ⟨live, hlive⟩ := haccount.books hfew hfits
  rw [← haccount.limit]
  exact hlive.exposure

/-- The report that cancels five shares of the second order. -/
def canceledReport : Ouch.Outbound := .canceled 0 2 5 85

/-- **The second order** stays open, with five shares less. -/
theorem Rounds.cancelled (h : Rounds 1 t) :
    (t.pump (round (sharePacket 1) canceledReport)).entered.length = 2 ∧
      (t.pump (round (sharePacket 1) canceledReport)).overflowed = false ∧
      (t.pump (round (sharePacket 1) canceledReport)).risk.position = 2 ^ 32 - 1 ∧
      (t.pump (round (sharePacket 1) canceledReport)).risk.openBuy = 2 ^ 32 - 6 := by
  obtain ⟨b, sig, happ, -, hbuy, hqty, hsig, hpass⟩ := h.next (by decide)
  have hexp : t.seq.expected = 1 + 1 := congrArg SequenceTracker.expected h.seq
  have hhold := holds_sharePacket 1
  rw [← hexp] at hhold
  have hnew : t.seq.expected < 2 ^ 64 := by
    rw [hexp]
    decide
  have hsmall : sig.qty < 2 ^ 32 := by
    rw [hqty]
    decide
  have hfits : t.risk.overflows sig.side sig.qty = false := by
    rw [hbuy, hqty]
    exact h.sum_fits (by decide)
  have href : t.nextUserRef ≠ 0 := by
    rw [h.nextUserRef]
    decide
  obtain ⟨t₂, hfirst, hledger, -, -, hord⟩ :=
    h.idle.sends hhold hnew (Itch.decode_layout (by decide)) happ hsig hsmall hpass hfits href
  have hreader : t₂.oeReader = {} := hord.oeReader.trans h.idle.reader
  rw [pump_round, hfirst, readOe_frame (legal_reportFrame canceledReport) hreader,
    handleOeFrame_report]
  set t₃ : Trader := { t₂ with
    recvs := t₂.recvs ++ [⟨.ptrFirst, {}, Soup.FrameReader.kBufSize⟩] } with ht₃
  have hopen : Ledger t₃ (some (t.nextUserRef, t.liveOrder sig)) :=
    ⟨hledger.table, hledger.room, hledger.leaves, hledger.gate, hledger.openOrders, hledger.openQty⟩
  have hfew : (5 : UInt32).toNat < (t.liveOrder sig).leaves := by
    show 5 < sig.qty
    rw [hqty]
    decide
  have hrisk : (t₃.onReport canceledReport).risk = t₃.risk.onCancelled .buy 5 := by
    rw [← hbuy]
    exact hopen.cancelled (by rw [h.nextUserRef]; rfl) hfew 85
  have hflat : t.risk.openBuy = 0 := h.idle.ledger.openQty .buy
  have hsent : t₃.risk = t.risk.onOrderSent .buy (2 ^ 32 - 1) t.nowRealtimeNs := by
    rw [← hbuy, ← hqty]
    exact hord.risk
  rw [t₃.onReport_rest canceledReport, hrisk, hsent]
  refine ⟨?_, hord.overflowed.trans h.fits, ?_, ?_⟩
  · exact hord.entered.trans (congrArg (· + 1) h.entered)
  · exact h.position.trans (by norm_num)
  · have hsum : i64 (0 + (2 ^ 32 - 1 : ℕ)) = 2 ^ 32 - 1 := i64_eq (by norm_num) (by norm_num)
    have hrest : i64 (2 ^ 32 - 1 - (5 : ℕ)) = 2 ^ 32 - 6 := by
      rw [i64_eq (by norm_num) (by norm_num)]
      norm_num
    simp only [RiskGate.onCancelled, RiskGate.onOrderSent, hflat, if_true]
    rw [hsum, hrest]

/-- An order that is filled, and an order of which five shares are cancelled. -/
def twoOrders : List Batch := roundBatches 1 ++ [round (sharePacket 1) canceledReport]

/-- Within the limit, with a position and an open order. -/
theorem position_limit_two_orders :
    ∃ p, start looseConfig looseClock (fun _ => .accepted 64) (oneChunk openingMessages) accepted =
        some p ∧
      (p.after twoOrders).trader.entered.length = 2 ∧
      (p.after twoOrders).trader.risk.position = 2 ^ 32 - 1 ∧
      (p.after twoOrders).trader.risk.openBuy = 2 ^ 32 - 6 ∧
      Exposure (2 ^ 63 - 1) (p.after twoOrders).trader := by
  obtain ⟨q, p, hstart, hstarted, hlocate, hnext, hbook⟩ :=
    exists_opened rfl rfl (show 0 ≤ looseConfig.risk.maxPosition by decide) (by decide)
  obtain ⟨hphase, hrounds⟩ :=
    Rounds.run hstarted.phase (hstarted.rounds hlocate hnext hbook) (show 1 ≤ 2 ^ 31 by decide)
  have hafter : (p.after twoOrders).trader =
      (p.after (roundBatches 1)).trader.pump (round (sharePacket 1) canceledReport) := by
    rw [twoOrders, Process.after_concat, Process.step_running hphase hrounds.idle.running]
  obtain ⟨hentered, hoverflowed, hposition, hopen⟩ := hrounds.cancelled
  rw [← hafter] at hentered hoverflowed hposition hopen
  have hfew : (p.after twoOrders).trader.entered.length < 2 ^ 32 - 1 := by
    rw [hentered]
    decide
  have hlimit := position_limit (by decide) (by decide) (by decide) hstart twoOrders hfew
  exact ⟨p, hstart, hentered, hposition, hopen, hlimit.1 hoverflowed⟩

/-! ## Beyond the limit -/

/-- **One more order**, over the limit. -/
theorem Rounds.exceeds (h : Rounds (2 ^ 31) t) :
    (t.handlePacket (sharePacket (2 ^ 31)).finish.data {}).entered.length = 2 ^ 31 + 1 ∧
      ¬ Exposure (2 ^ 63 - 1) (t.handlePacket (sharePacket (2 ^ 31)).finish.data {}) := by
  obtain ⟨b, sig, happ, -, hbuy, hqty, hsig, hpass⟩ := h.next le_rfl
  have hexp : t.seq.expected = 2 ^ 31 + 1 := congrArg SequenceTracker.expected h.seq
  have hhold := holds_sharePacket (2 ^ 31)
  rw [← hexp] at hhold
  have hnew : t.seq.expected < 2 ^ 64 := by
    rw [hexp]
    decide
  have hflat : t.risk.openBuy = 0 := h.idle.ledger.openQty .buy
  rw [handlePacket_orders h.idle hhold hnew (Itch.decode_layout (by decide)) happ hsig hpass {}]
  have hord := orders_sendOrder ({ t with
    book := b
    seq := ⟨(t.seq.expected + 1) % 2 ^ 64⟩
    strat := { t.strat with lastSignalNs := t.nowRealtimeNs }
    overflowed := t.overflowed || t.risk.overflows sig.side sig.qty } : Trader).tick sig
    t.nowRealtimeNs
  generalize Trader.sendOrder _ sig t.nowRealtimeNs = t' at hord ⊢
  have hrisk : t'.risk = t.risk.onOrderSent sig.side sig.qty t.nowRealtimeNs := hord.risk
  have hposition : t'.risk.position = 2 ^ 31 * (2 ^ 32 - 1) := by
    rw [hrisk]
    exact h.position
  have hopen : t'.risk.openBuy = 2 ^ 32 - 1 := by
    rw [hrisk, hbuy, hqty, RiskGate.onOrderSent, hflat]
    dsimp only
    rw [if_pos rfl]
    decide
  refine ⟨?_, fun hexposure => ?_⟩
  · rw [hord.entered]
    exact congrArg (· + 1) h.entered
  · have hlong := hexposure.long
    rw [hposition, hopen] at hlong
    exact absurd hlong (by decide)

/-- Every round that the limit allows, and a message. -/
def looseRun : List Batch := roundBatches (2 ^ 31) ++ [messageBatch (sharePacket (2 ^ 31))]

/-- **The limit is passed** with order 2^31 + 1, when the sum of the check wraps. -/
theorem position_limit_exceeded :
    ∃ p, start looseConfig looseClock (fun _ => .accepted 64) (oneChunk openingMessages) accepted =
        some p ∧
      (p.after looseRun).trader.entered.length = 2 ^ 31 + 1 ∧
      ¬ Exposure looseConfig.risk.maxPosition (p.after looseRun).trader := by
  obtain ⟨q, p, hstart, hstarted, hlocate, hnext, hbook⟩ :=
    exists_opened rfl rfl (show 0 ≤ looseConfig.risk.maxPosition by decide) (by decide)
  obtain ⟨hphase, hrounds⟩ := Rounds.run hstarted.phase (hstarted.rounds hlocate hnext hbook) le_rfl
  refine ⟨p, hstart, ?_⟩
  rw [looseRun, Process.after_concat, Process.step_running hphase hrounds.idle.running]
  dsimp only
  rw [pump_message]
  exact hrounds.exceeds

end Trader

end PulseForge
