import PulseForge.Model.TraderLoop

/-!
# What a step of the trader leaves alone

Sending touches only the order-entry stream, a snapshot only the book and its place in the
feed. The invariants of the analysis need no more than this of either.
-/

set_option autoImplicit false

namespace PulseForge.Trader

open Foundation

variable {t t' t'' : Trader}

/-! ## Sending -/

/-- **Only the order-entry stream differs**, and it may have gone down. -/
structure Streams (t t' : Trader) : Prop where
  rest : t' =
    { t with
      oePending := t'.oePending, wantWrite := t'.wantWrite, streamBytes := t'.streamBytes
      sends := t'.sends, wire := t'.wire, oeUp := t'.oeUp, lastOeTx := t'.lastOeTx
      clock := t'.clock, txRing := t'.txRing }
  down : t'.oeUp = true → t.oeUp = true

namespace Streams

/-- Nothing is sent. -/
theorem refl (t : Trader) : Streams t t := ⟨rfl, id⟩

/-- Something is sent, and then more. -/
theorem trans (h : Streams t t') (h' : Streams t' t'') : Streams t t'' := by
  refine ⟨?_, fun hup => h.down (h'.down hup)⟩
  have hrest := h'.rest
  rw [h.rest] at hrest
  exact hrest

/-- A loop that only sends. -/
theorem foldl {α : Type} {f : Trader → α → Trader} (hf : ∀ t a, Streams t (f t a)) (l : List α)
    (t : Trader) : Streams t (l.foldl f t) := by
  induction l generalizing t with
  | nil => exact refl t
  | cons a l ih => exact (hf t a).trans (ih (f t a))

variable (h : Streams t t')

include h

/-- Sending leaves the configuration. -/
theorem cfg : t'.cfg = t.cfg := by rw [h.rest]

/-- Sending leaves the locate. -/
theorem locate : t'.locate = t.locate := by rw [h.rest]

/-- Sending leaves the book. -/
theorem book : t'.book = t.book := by rw [h.rest]

/-- Sending leaves the sequence number. -/
theorem seq : t'.seq = t.seq := by rw [h.rest]

/-- Sending leaves the table of orders. -/
theorem orders : t'.orders = t.orders := by rw [h.rest]

/-- Sending leaves the risk gate. -/
theorem risk : t'.risk = t.risk := by rw [h.rest]

/-- Sending leaves the strategy. -/
theorem strat : t'.strat = t.strat := by rw [h.rest]

/-- Sending leaves the reader. -/
theorem oeReader : t'.oeReader = t.oeReader := by rw [h.rest]

/-- Sending leaves the next reference. -/
theorem nextUserRef : t'.nextUserRef = t.nextUserRef := by rw [h.rest]

/-- Sending leaves the kernel. -/
theorem kernel : t'.kernel = t.kernel := by rw [h.rest]

/-- Sending leaves the synchronisation. -/
theorem synced : t'.synced = t.synced := by rw [h.rest]

/-- Sending leaves the stop flag. -/
theorem stop : t'.stop = t.stop := by rw [h.rest]

/-- Sending leaves the count of snapshots. -/
theorem snapshots : t'.snapshots = t.snapshots := by rw [h.rest]

/-- Sending leaves what was entered. -/
theorem entered : t'.entered = t.entered := by rw [h.rest]

/-- Sending leaves the calls of `recv`. -/
theorem recvs : t'.recvs = t.recvs := by rw [h.rest]

/-- Sending leaves the overflow flag. -/
theorem overflowed : t'.overflowed = t.overflowed := by rw [h.rest]

end Streams

/-- A tick of the clock sends nothing. -/
theorem streams_tick (t : Trader) : Streams t t.tick := ⟨rfl, id⟩

/-- `oe_send` only sends. -/
theorem streams_oeSend (t : Trader) (bs : Bytes) : Streams t (t.oeSend bs).1 := by
  unfold oeSend
  by_cases hup : t.oeUp = false
  · rw [if_pos hup]
    exact .refl t
  · rw [if_neg hup]
    have hup' : t.oeUp = true := by simpa using hup
    split
    · exact ⟨rfl, fun _ => hup'⟩
    · dsimp only
      split
      · split
        · exact ⟨rfl, fun _ => hup'⟩
        · exact ⟨rfl, fun _ => hup'⟩
      · exact ⟨rfl, fun _ => hup'⟩
      · exact ⟨rfl, fun _ => hup'⟩
      · exact ⟨rfl, fun _ => hup'⟩

/-- `send_cancel` only sends. -/
theorem streams_sendCancel (t : Trader) (userRef : ℕ) : Streams t (t.sendCancel userRef) :=
  streams_oeSend t _

/-- `cancel_all` only sends. -/
theorem streams_cancelAll (t : Trader) : Streams t t.cancelAll := by
  unfold cancelAll
  split
  · exact .refl t
  · exact .foldl streams_sendCancel _ t

/-- `flush_oe_pending` only sends. -/
theorem streams_flushOePending (fuel : ℕ) (t : Trader) : Streams t (flushOePending fuel t) := by
  induction fuel generalizing t with
  | zero =>
    rw [flushOePending]
    split
    · exact ⟨rfl, id⟩
    · exact .refl t
  | succ fuel ih =>
    rw [flushOePending]
    split
    · exact ⟨rfl, id⟩
    · dsimp only
      split
      · refine Streams.trans ?_ (ih _)
        exact ⟨rfl, id⟩
      · exact ⟨rfl, id⟩
      · exact ⟨rfl, fun h => absurd h Bool.false_ne_true⟩
      · exact ⟨rfl, fun h => absurd h Bool.false_ne_true⟩

/-- A stamp of the socket sends nothing. -/
theorem streams_onTxStamp (t : Trader) (id : ℕ) : Streams t (t.onTxStamp id) := ⟨rfl, fun h => h⟩

/-- The order that a signal becomes. -/
def liveOrder (t : Trader) (sig : Signal) : LiveOrder :=
  { userRef := t.nextUserRef, side := sig.side, price := sig.price, qty := sig.qty
    leaves := sig.qty }

/-- **`send_order`** sends a frame, and then the table, the gate and the ring of stamps know of
the order. -/
theorem sendOrder_eq (t : Trader) (sig : Signal) (bookDone : ℕ) :
    ∃ (t₁ : Trader) (txRing : List TxPending) (txHead : ℕ),
      Streams
        { t with
          nextUserRef := (t.nextUserRef + 1) % 2 ^ 32
          entered := t.entered ++ [t.enterOrder (t.liveOrder sig)] } t₁ ∧
      t.sendOrder sig bookDone =
        { t₁ with
          orders := (t₁.orders.insert t.nextUserRef (t.liveOrder sig)).1
          risk := t₁.risk.onOrderSent sig.side sig.qty bookDone
          txRing := txRing
          txHead := txHead } := by
  have hstream := streams_oeSend
    { t with
      nextUserRef := (t.nextUserRef + 1) % 2 ^ 32
      entered := t.entered ++ [t.enterOrder (t.liveOrder sig)] }
    (orderFrame (t.enterOrder (t.liveOrder sig)))
  unfold sendOrder
  unfold liveOrder at hstream ⊢
  dsimp only
  generalize oeSend _ _ = p at hstream ⊢
  split
  · exact ⟨p.1, _, _, hstream, rfl⟩
  · exact ⟨p.1, _, _, hstream, rfl⟩

/-! ## Reports -/

/-- **A report** touches the table and the gate. -/
theorem onReport_rest (t : Trader) (m : Ouch.Outbound) :
    t.onReport m =
      { t with orders := (t.onReport m).orders, risk := (t.onReport m).risk } := by
  have hclose : ∀ (c : Prop) [Decidable c] (t : Trader) (k : ℕ),
      (if c then t.closeOrder k else t) =
        { t with
          orders := (if c then t.closeOrder k else t).orders
          risk := (if c then t.closeOrder k else t).risk } := by
    intro c _ t k
    split <;> rfl
  cases m with
  | accepted ts userRef side qty symbol price tif orderRef clordid state =>
    simp only [onReport, onAccepted]
    split <;> rfl
  | executed ts userRef qty price liquidity matchNumber =>
    simp only [onReport, onExecuted]
    cases t.orders.find userRef.toNat with
    | none => rfl
    | some o =>
      dsimp only
      rw [hclose]
  | canceled ts userRef qty reason =>
    simp only [onReport, onCanceled]
    cases t.orders.find userRef.toNat with
    | none => rfl
    | some o =>
      dsimp only
      rw [hclose]
  | rejected ts userRef reason clordid =>
    simp only [onReport, onRejected]
    split <;> rfl

/-! ## Pulling a snapshot -/

/-- **Only the book and the calls of `recv` differ.** -/
def Pulls (t t' : Trader) : Prop :=
  t' = { t with book := t'.book, locate := t'.locate, recvs := t'.recvs }

/-- Nothing is pulled. -/
theorem Pulls.refl (t : Trader) : Pulls t t := rfl

/-- Something is pulled, and then more. -/
theorem Pulls.trans (h : Pulls t t') (h' : Pulls t' t'') : Pulls t t'' := by
  unfold Pulls at h h' ⊢
  rw [h] at h'
  exact h'

/-- A frame of the snapshot pulls. -/
theorem Pull.pulls_onFrame (p : Pull) (f : Soup.Frame) : Pulls p.trader (p.onFrame f).trader := by
  unfold Pull.onFrame
  split
  · exact .refl _
  · split
    · exact .refl _
    · split
      · exact .refl _
      · next msg _ =>
        unfold Pull.onMessage
        cases msg with
        | stockDirectory locate ts stock lot =>
          dsimp only
          split
          · rfl
          · exact .refl _
        | addOrder locate ts orderRef side shares stock price =>
          dsimp only
          split
          · rfl
          · exact .refl _
        | endOfSnapshot next => exact .refl _
        | systemEvent | orderExecuted | orderCancel | orderDelete => exact .refl _

/-- The complete frames pull. -/
theorem Pull.pulls_drain (fuel : ℕ) (p : Pull) : Pulls p.trader (Pull.drain fuel p).trader := by
  induction fuel generalizing p with
  | zero => exact .refl _
  | succ fuel ih =>
    rw [Pull.drain]
    split
    · next f reader _ =>
      have hframe := Pull.pulls_onFrame { p with reader := reader } f
      dsimp only
      split
      · exact hframe
      · exact hframe.trans (ih _)
    · exact .refl _

/-- The loop pulls. -/
theorem Pull.pulls_loop (recvs : List (ArgOrder × RecvAnswer)) (p : Pull) :
    Pulls p.trader (Pull.loop recvs p).trader := by
  induction recvs generalizing p with
  | nil =>
    rw [Pull.loop]
    split <;> exact .refl _
  | cons recv recvs ih =>
    obtain ⟨order, answer⟩ := recv
    rw [Pull.loop]
    split
    · exact .refl _
    · dsimp only
      split
      · split
        · rfl
        · refine Pulls.trans ?_ (ih _)
          refine Pulls.trans ?_ (Pull.pulls_drain _ _)
          rfl
      all_goals rfl

/-- **Only the book and its place in the feed differ.** -/
def Refreshes (t t' : Trader) : Prop :=
  t' =
    { t with
      book := t'.book, locate := t'.locate, recvs := t'.recvs, seq := t'.seq, synced := t'.synced
      snapshots := t'.snapshots }

/-- A snapshot refreshes the view of the market only. -/
theorem refreshes_snapshot (t : Trader) (reply : SnapshotReply) :
    Refreshes t (t.snapshot reply) := by
  unfold snapshot
  split
  · rfl
  · have hloop := Pull.pulls_loop reply.recvs
      { trader := { t with book := t.book.clear, locate := 0 } }
    dsimp only
    generalize Pull.loop reply.recvs _ = p at hloop ⊢
    unfold Pulls at hloop
    split
    · unfold Refreshes
      rw [hloop]
    · unfold Refreshes
      rw [hloop]

/-- A snapshot leaves a trader that was not synchronised so, or gives it a new book. -/
theorem snapshot_fresh (t : Trader) (reply : SnapshotReply) (h : t.synced = false) :
    (t.snapshot reply).synced = false ∨ (t.snapshot reply).snapshots = t.snapshots + 1 := by
  unfold snapshot
  split
  · exact .inl h
  · have hloop := Pull.pulls_loop reply.recvs
      { trader := { t with book := t.book.clear, locate := 0 } }
    dsimp only
    generalize Pull.loop reply.recvs _ = p at hloop ⊢
    unfold Pulls at hloop
    split
    · left
      rw [hloop]
      exact h
    · right
      rw [hloop]

end PulseForge.Trader
