import PulseForge.Analysis.OrderBookClear
import PulseForge.Analysis.TraderFrames

/-!
# What a step of the trader can do

`Move` lists the ways in which the callbacks that do not read the order-entry socket change
the trader, `OeMove` those of `read_oe`. An invariant of the trader is proved move by move.
-/

set_option autoImplicit false

namespace PulseForge.Trader

open Foundation Relation

/-- **Only the replica, the tracker and the strategy's clock differ.** -/
structure Fed (t t' : Trader) : Prop where
  rest : t' =
    { t with
      book := t'.book, seq := t'.seq, strat := t'.strat, synced := t'.synced
      exchangeClosed := t'.exchangeClosed, resyncs := t'.resyncs
      lastResyncTry := t'.lastResyncTry }
  params : t'.strat.p = t.strat.p

/-- **One move** of a packet, a timer or a signal. -/
inductive Move : Trader → Trader → Prop
  | streams {t t' : Trader} : Streams t t' → Move t t'
  | fed {t t' : Trader} : Fed t t' → Move t t'
  | snapshot {t : Trader} (reply : SnapshotReply) : Move t (t.snapshot reply)
  | stopped {t : Trader} : Move t { t with stop := true }
  | traded {t : Trader} {sig : Signal} {bookDone : ℕ} :
      t.orders.size = 0 → sig.qty = t.strat.p.orderQty →
      t.risk.check sig.side sig.price sig.qty t.midPrice bookDone = .pass →
      Move t
        (({ t with overflowed := t.overflowed || t.risk.overflows sig.side sig.qty } : Trader).sendOrder
          sig bookDone)

/-- **One move** of `read_oe`. -/
inductive OeMove : Trader → Trader → Prop
  | read {t : Trader} {oeReader recvs} : OeMove t { t with oeReader := oeReader, recvs := recvs }
  | report {t : Trader} (m : Ouch.Outbound) : OeMove t (t.onReport m)
  | stopped {t : Trader} : OeMove t { t with stop := true }
  | lost {t : Trader} : OeMove t t.oeLost

/-- Moves, one after the other. -/
abbrev Moves : Trader → Trader → Prop := ReflTransGen Move

abbrev OeMoves : Trader → Trader → Prop := ReflTransGen OeMove

variable {t t' : Trader}

/-- A loop of moves. -/
theorem moves_foldl {α : Type} {f : Trader → α → Trader} (hf : ∀ t a, Moves t (f t a)) (l : List α)
    (t : Trader) : Moves t (l.foldl f t) := by
  induction l generalizing t with
  | nil => exact .refl
  | cons a l ih => exact (hf t a).trans (ih (f t a))

/-! ## Packets -/

theorem resync_moves (t : Trader) (reply : SnapshotReply) : Moves t (t.resync reply) := by
  unfold resync
  have hstale : Fed t { t with synced := false, resyncs := t.resyncs + 1 } := ⟨rfl, rfl⟩
  refine ReflTransGen.tail (ReflTransGen.tail (.single (.fed hstale)) ?_) (.snapshot reply)
  exact .streams (streams_cancelAll _)

/-- What the strategy answers: an order of its size, when none is open. -/
theorem onBookUpdate_some {s : ImbalanceStrategy} {book : OrderBook} {position : ℤ}
    {inFlight : Bool} {nowNs : ℕ} {sig : Signal}
    (h : (s.onBookUpdate book position inFlight nowNs).1 = some sig) :
    inFlight = false ∧ sig.qty = s.p.orderQty := by
  have hflight : ∀ {b c : Bool}, ¬ (inFlight || b || c) = true → inFlight = false := by
    intro b c hgo
    cases inFlight with
    | false => rfl
    | true => exact absurd (by rw [Bool.true_or, Bool.true_or]) hgo
  unfold ImbalanceStrategy.onBookUpdate at h
  dsimp only at h
  split_ifs at h with hidle hcool hthin hbuy hsell
  · exact ⟨hflight hidle, by rw [← Option.some.inj h]⟩
  · exact ⟨hflight hidle, by rw [← Option.some.inj h]⟩

/-- The strategy keeps its parameters. -/
theorem onBookUpdate_params (s : ImbalanceStrategy) (book : OrderBook) (position : ℤ)
    (inFlight : Bool) (nowNs : ℕ) :
    (s.onBookUpdate book position inFlight nowNs).2.p = s.p := by
  unfold ImbalanceStrategy.onBookUpdate
  dsimp only
  split_ifs <;> rfl

theorem maybeTrade_moves (t : Trader) (bookDone : ℕ) : Moves t (t.maybeTrade bookDone) := by
  have hsig := @onBookUpdate_some t.strat t.book t.risk.position (decide (0 < t.orders.size)) bookDone
  have hparams := onBookUpdate_params t.strat t.book t.risk.position (decide (0 < t.orders.size))
    bookDone
  unfold maybeTrade
  generalize t.strat.onBookUpdate t.book t.risk.position _ bookDone = answer at hsig hparams ⊢
  obtain ⟨sig, strat⟩ := answer
  have hfed : Move t { t with strat := strat } := .fed ⟨rfl, hparams⟩
  dsimp only
  cases sig with
  | none => exact .single hfed
  | some sig =>
    obtain ⟨hnone, hqty⟩ := hsig rfl
    dsimp only
    split
    · next hpass =>
      refine ReflTransGen.tail (.single hfed) (.traded ?_ ?_ hpass)
      · simpa using hnone
      · rw [hqty, ← hparams]
    · exact .single hfed

/-- The callback touches the book, the tracker and the end of the day. -/
def Replays (t t' : Trader) : Prop :=
  t' = { t with book := t'.book, seq := t'.seq, exchangeClosed := t'.exchangeClosed }

/-- A message of the feed only replays. -/
theorem Pass.onMessage_replays (p : Pass) (call : ℕ × Bytes) :
    Replays p.trader (p.onMessage call).trader := by
  unfold Pass.onMessage
  split
  · rfl
  · split
    · rfl
    · rfl
    · unfold Pass.apply
      split
      · rfl
      · dsimp only
        split
        · rfl
        · rfl
        · split
          · split <;> rfl
          · rfl

/-- So do the messages of a packet. -/
theorem Pass.foldl_replays (calls : List (ℕ × Bytes)) (p : Pass) :
    Replays p.trader (calls.foldl Pass.onMessage p).trader := by
  induction calls generalizing p with
  | nil => rfl
  | cons call calls ih =>
    have hone := p.onMessage_replays call
    have hrest := ih (p.onMessage call)
    unfold Replays at hone hrest ⊢
    rw [hone] at hrest
    exact hrest

/-- Replaying is market data. -/
theorem Replays.fed (h : Replays t t') : Fed t t' := by
  unfold Replays at h
  exact ⟨by rw [h], by rw [h]⟩

theorem Pass.finish_moves (p : Pass) (reply : SnapshotReply) : Moves p.trader (p.finish reply) := by
  unfold Pass.finish
  dsimp only
  refine ReflTransGen.head (.streams (streams_tick _)) ?_
  split
  · exact resync_moves _ reply
  · split
    · exact resync_moves _ reply
    · split
      · exact maybeTrade_moves _ _
      · exact .refl

theorem handlePacket_moves (t : Trader) (pkt : Bytes) (reply : SnapshotReply) :
    Moves t (t.handlePacket pkt reply) := by
  unfold handlePacket
  split
  · exact .refl
  · next h _ =>
    split
    · exact .refl
    · split
      · exact .refl
      · split
        · split
          · exact resync_moves t reply
          · exact .refl
        · have hreplays := Pass.foldl_replays (Mold.forEachMessage pkt h).1 { trader := t }
          exact .head (.fed hreplays.fed) (Pass.finish_moves _ reply)

/-! ## The timer -/

theorem stop_if_moves (c : Prop) [Decidable c] (t : Trader) :
    Moves t (if c then { t with stop := true } else t) := by
  split
  · exact .single .stopped
  · exact .refl

theorem onTimer_moves (t : Trader) (reply : SnapshotReply) : Moves t (t.onTimer reply) := by
  have hbeat : ∀ (c : Prop) [Decidable c] (t : Trader) (bs : Bytes),
      Moves t (if c then (t.oeSend bs).1 else t) := by
    intro c _ t bs
    split
    · exact .single (.streams (streams_oeSend t bs))
    · exact .refl
  have hretry : ∀ (c : Prop) [Decidable c] (t : Trader) (now : ℕ),
      Moves t (if c then ({ t with lastResyncTry := now } : Trader).snapshot reply else t) := by
    intro c _ t now
    split
    · have hfed : Fed t { t with lastResyncTry := now } := ⟨rfl, rfl⟩
      exact .tail (.single (.fed hfed)) (.snapshot reply)
    · exact .refl
  unfold onTimer
  dsimp only
  refine ReflTransGen.trans ?_ (stop_if_moves _ _)
  refine ReflTransGen.trans ?_ (stop_if_moves _ _)
  refine ReflTransGen.trans ?_ (hretry _ _ _)
  exact ReflTransGen.head (.streams (streams_tick t)) (hbeat _ _ _)

/-! ## The order-entry socket -/

theorem handleOeFrame_moves (t : Trader) (f : Soup.Frame) : OeMoves t (t.handleOeFrame f) := by
  unfold handleOeFrame
  split
  · split
    · exact .refl
    · next m _ => exact .single (.report m)
  · split
    · exact .single .stopped
    · exact .refl

theorem drainOe_moves (fuel : ℕ) (t : Trader) : OeMoves t (drainOe fuel t).1 := by
  induction fuel generalizing t with
  | zero => exact .refl
  | succ fuel ih =>
    rw [drainOe]
    split
    · next f reader _ =>
      have hread : OeMove t { t with oeReader := reader } := .read
      exact .head hread ((handleOeFrame_moves _ f).trans (ih _))
    · exact .refl

theorem readOe_moves (recvs : List (ArgOrder × RecvAnswer)) (t : Trader) :
    OeMoves t (readOe recvs t) := by
  induction recvs generalizing t with
  | nil => exact .refl
  | cons recv recvs ih =>
    obtain ⟨order, answer⟩ := recv
    have hcall : OeMove t
        { t with
          recvs := t.recvs ++ [⟨order, t.oeReader, order.len t.oeReader⟩]
          oeReader := t.oeReader.writePtr } := .read
    cases answer with
    | data bs =>
      unfold readOe
      dsimp only
      split
      · exact .tail (.single hcall) .lost
      · next b chunk _ =>
        have hread : OeMove t
            { t with
              recvs := t.recvs ++ [⟨order, t.oeReader, order.len t.oeReader⟩]
              oeReader := t.oeReader.writePtr.commit (b :: chunk) } := .read
        generalize ({ t with
          recvs := t.recvs ++ [⟨order, t.oeReader, order.len t.oeReader⟩]
          oeReader := t.oeReader.writePtr.commit (b :: chunk) } : Trader) = t₀ at hread ⊢
        have hdrain := drainOe_moves (t.oeReader.writePtr.commit (b :: chunk)).data.length t₀
        split
        · next t₁ heq =>
          rw [heq] at hdrain
          exact (ReflTransGen.head hread hdrain).tail .lost
        · next t₁ st _ heq =>
          rw [heq] at hdrain
          exact (ReflTransGen.head hread hdrain).trans (ih t₁)
    | interrupted => exact .head hcall (ih _)
    | again => exact .single hcall
    | closed => exact .tail (.single hcall) .lost
    | failed => exact .tail (.single hcall) .lost

/-! ## The constructor -/

/-- **The constructor** makes a trader without orders. -/
theorem new_isSome (cfg : TraderConfig) (clock : Clock) (kernel : ℕ → Session.Send) :
    ∃ t, Trader.new cfg clock kernel = some t := by
  have hcfg : BookConfig.Accepted {} := by constructor <;> decide
  obtain ⟨book, hbook⟩ := OrderBook.new_isOk hcfg
  obtain ⟨orders, horders, -⟩ := FlatIdMap.new_spec (V := LiveOrder) (show 1024 ≤ 2 ^ 62 by norm_num)
  unfold Trader.new
  rw [hbook, horders]
  exact ⟨_, rfl⟩

/-- What it makes. -/
theorem new_eq_some {cfg : TraderConfig} {clock : Clock} {kernel : ℕ → Session.Send}
    (h : Trader.new cfg clock kernel = some t) :
    ∃ book orders, OrderBook.new {} = .ok book ∧ FlatIdMap.new 1024 = some orders ∧
      t = { cfg := cfg, book := book, orders := orders, risk := .new cfg.risk,
            strat := { p := cfg.strat }, clock := clock, kernel := kernel } := by
  unfold Trader.new at h
  cases hbook : OrderBook.new {} with
  | error e =>
    rw [hbook] at h
    cases h
  | ok book =>
    cases horders : (FlatIdMap.new 1024 : Option (FlatIdMap LiveOrder)) with
    | none =>
      rw [hbook, horders] at h
      cases h
    | some orders =>
      rw [hbook, horders] at h
      exact ⟨book, orders, rfl, rfl, (Option.some.inj h).symm⟩

end PulseForge.Trader
