import PulseForge.Model.ExchangeLoop

/-!
# How fast the order ids go

The order ids are one `uint64_t` counter, and what is proved of a run holds until it wraps. Only
`handle_enter` and the synthetic flow take an id: at most one for each frame that a read handles
and at most one for each step of the flow. `nextOrderId_after` adds this up over a run, so that
the answers of the kernel bound the ids.
-/

set_option autoImplicit false

namespace PulseForge

open Foundation

namespace Exchange

variable {x : Exchange}

/-! ## What takes no order id -/

/-- A frame takes no order id. -/
theorem orderId_queueFrame (x : Exchange) (id : ℕ) (f : Soup.Frame) :
    (x.queueFrame id f).nextOrderId = x.nextOrderId := by
  unfold queueFrame markDirty
  split
  · rfl
  · split <;> rfl

/-- A report takes no order id. -/
theorem orderId_queueOuch (x : Exchange) (id : ℕ) (m : Ouch.Outbound) :
    (x.queueOuch id m).nextOrderId = x.nextOrderId := by
  unfold queueOuch
  dsimp only
  split
  · exact orderId_queueFrame x id _
  · rfl

/-- `send_exec` takes no order id. -/
theorem orderId_sendExec (x : Exchange) (id : ℕ) (ts : UInt64) (userRef : ℕ) (f : Fill)
    (liquidity : UInt8) : (x.sendExec id ts userRef f liquidity).nextOrderId = x.nextOrderId :=
  orderId_queueOuch x id _

theorem orderId_sendCanceled (x : Exchange) (id : ℕ) (ts : UInt64) (userRef qty : ℕ)
    (reason : UInt8) : (x.sendCanceled id ts userRef qty reason).nextOrderId = x.nextOrderId :=
  orderId_queueOuch x id _

theorem orderId_report (x : Exchange) (id : ℕ) (m : Ouch.Outbound) :
    (x.tick.queueOuch id m).nextOrderId = x.nextOrderId :=
  orderId_queueOuch x.tick id m

theorem orderId_modify (x : Exchange) (id : ℕ) (f : Session → Session) :
    (x.modify id f).nextOrderId = x.nextOrderId :=
  rfl

theorem orderId_publish (x : Exchange) (m : Itch.Message) :
    (x.tick.publish m).nextOrderId = x.nextOrderId := by
  unfold publish
  dsimp only
  split
  · rfl
  · rfl

/-- What an owner is told, if it is connected. -/
theorem orderId_told (x : Exchange) (owner : ℕ) {g : Session → Exchange}
    (hg : ∀ s, (g s).nextOrderId = x.nextOrderId) :
    (match x.sessionFor owner with
      | none => x
      | some s => g s).nextOrderId = x.nextOrderId := by
  cases x.sessionFor owner with
  | none => rfl
  | some s => exact hg s

theorem orderId_onFill (x : Exchange) (locate : ℕ) (f : Fill) :
    (x.onFill locate f).nextOrderId = x.nextOrderId := by
  unfold onFill
  dsimp only
  refine (orderId_told _ f.takerOwner fun s => orderId_sendExec _ _ _ _ _ _).trans ?_
  refine (orderId_told _ f.makerOwner fun s => ?_).trans (orderId_publish _ _)
  split
  · rw [orderId_modify, orderId_sendExec]
  · rw [orderId_sendExec]

theorem orderId_onRestingCancelled (x : Exchange) (locate : ℕ) (before : BookOrder)
    (cancelled : ℕ) (why : CancelReason) :
    (x.onRestingCancelled locate before cancelled why).nextOrderId = x.nextOrderId := by
  unfold onRestingCancelled
  dsimp only
  refine (orderId_told _ before.owner fun s => ?_).trans (orderId_publish _ _)
  split
  · rw [orderId_modify, orderId_sendCanceled]
  · rw [orderId_sendCanceled]

/-- A callback takes no order id. -/
theorem orderId_on (x : Exchange) (cb : Callback) : (x.on cb).nextOrderId = x.nextOrderId := by
  unfold on
  dsimp only
  split
  · exact orderId_told { x with log := x.log ++ [cb.event] } _ fun s => orderId_report _ _ _
  · exact orderId_told { x with log := x.log ++ [cb.event] } _ fun s => orderId_report _ _ _
  · exact orderId_onFill _ _ _
  · exact orderId_publish _ _
  · exact orderId_onRestingCancelled _ _ _ _ _
  · refine orderId_told { x with log := x.log ++ [cb.event] } _ fun s => ?_
    rw [orderId_sendCanceled]
    rfl

/-- No callback takes an order id. -/
theorem orderId_foldl_on (cbs : List Callback) (x : Exchange) :
    (cbs.foldl on x).nextOrderId = x.nextOrderId := by
  induction cbs generalizing x with
  | nil => rfl
  | cons cb cbs ih => exact (ih _).trans (orderId_on x cb)

/-- A call of `engine_.submit` takes no order id: its caller did. -/
theorem orderId_submit (x : Exchange) (locate : ℕ) (req : OrderRequest) :
    (x.submit locate req).nextOrderId = x.nextOrderId := by
  unfold submit
  split
  · rfl
  · exact orderId_foldl_on _ x

theorem orderId_cancel (x : Exchange) (locate id newQty owner : ℕ) (why : CancelReason) :
    (x.cancel locate id newQty owner why).nextOrderId = x.nextOrderId :=
  orderId_foldl_on _ x

theorem orderId_closeSession (x : Exchange) (id : ℕ) :
    (x.closeSession id).nextOrderId = x.nextOrderId := by
  unfold closeSession
  split
  · rfl
  · next s _ =>
    have hlive : ∀ (live : List OrderHandle) (y : Exchange), (live.foldl (fun x h =>
        x.cancel h.locate h.id 0 id .supervisory) y).nextOrderId = y.nextOrderId := by
      intro live
      induction live with
      | nil => exact fun _ => rfl
      | cons h live ih => exact fun y => (ih _).trans (orderId_cancel y _ _ _ _ _)
    exact hlive _ x

/-! ## Frames -/

/-- A rejection takes no order id. -/
theorem orderId_sendReject (x : Exchange) (id : ℕ) (userRef : UInt32) (reason : UInt8) :
    (x.sendReject id userRef reason).nextOrderId = x.nextOrderId :=
  orderId_report x id _

/-- **`handle_enter` takes at most one order id.** -/
theorem orderId_handleEnter (x : Exchange) (s : Session) (m : Ouch.EnterOrder) :
    (x.handleEnter s m).nextOrderId ≤ x.nextOrderId + 1 := by
  unfold handleEnter
  dsimp only
  split
  · rw [orderId_sendReject]
    exact Nat.le_succ _
  · split
    · rw [orderId_sendReject, orderId_modify]
      exact Nat.le_succ _
    · split
      · rw [orderId_sendReject]
        exact le_rfl
      · split
        · rw [orderId_modify, orderId_submit]
          exact le_rfl
        · rw [orderId_submit]
          exact le_rfl

theorem orderId_handleLogin (x : Exchange) (s : Session) (p : Bytes) :
    (x.handleLogin s p).nextOrderId = x.nextOrderId := by
  unfold handleLogin
  dsimp only
  split
  · exact orderId_queueFrame x _ _
  · split
    · exact orderId_queueFrame x _ _
    · split
      · exact orderId_queueFrame x _ _
      · exact orderId_queueFrame _ _ _

theorem orderId_handleCancel (x : Exchange) (s : Session) (m : Ouch.CancelOrder) :
    (x.handleCancel s m).nextOrderId = x.nextOrderId := by
  unfold handleCancel
  split
  · rfl
  · exact orderId_cancel x _ _ _ _ _

theorem orderId_sendSnapshot (x : Exchange) (id : ℕ) :
    (x.sendSnapshot id).nextOrderId = x.nextOrderId := by
  have hframes : ∀ (msgs : List Itch.Message) (y : Exchange), (msgs.foldl (fun x m =>
      x.queueFrame id ⟨Soup.kSequencedData, Itch.encode m Itch.kMaxMessageLen⟩) y).nextOrderId =
        y.nextOrderId := by
    intro msgs
    induction msgs with
    | nil => exact fun _ => rfl
    | cons m msgs ih => exact fun y => (ih _).trans (orderId_queueFrame y _ _)
  unfold sendSnapshot
  dsimp only
  rw [orderId_modify, orderId_queueFrame, hframes]
  rfl

/-- **A frame takes at most one order id.** -/
theorem orderId_handleFrame (x : Exchange) (s : Session) (f : Soup.Frame) :
    (x.handleFrame s f).nextOrderId ≤ x.nextOrderId + 1 := by
  unfold handleFrame
  split
  · split
    · rw [orderId_sendSnapshot]
      exact Nat.le_succ _
    · exact Nat.le_succ _
  · split
    · rw [orderId_handleLogin]
      exact Nat.le_succ _
    · split
      · split
        · exact Nat.le_succ _
        · split
          · exact Nat.le_succ _
          · exact orderId_handleEnter x s _
          · rw [orderId_handleCancel]
            exact Nat.le_succ _
      · split
        · rw [orderId_modify, orderId_queueFrame]
          exact Nat.le_succ _
        · exact Nat.le_succ _

/-- A drain takes at most one order id for each frame. -/
theorem orderId_drainFrames (id fuel : ℕ) (x : Exchange) :
    (drainFrames id fuel x).1.nextOrderId ≤ x.nextOrderId + fuel := by
  induction fuel generalizing x with
  | zero => exact le_rfl
  | succ fuel ih =>
    unfold drainFrames
    split
    · exact Nat.le_add_right _ _
    · next s _ =>
      split
      · exact Nat.le_add_right _ _
      · exact Nat.le_add_right _ _
      · next f reader _ =>
        have hframe := orderId_handleFrame
          (x.modify id fun s => { s with reader := reader, taken := s.taken ++ [f] }) s f
        rw [orderId_modify] at hframe
        dsimp only
        split
        · dsimp only
          omega
        · have hrest := ih ((x.modify id fun s =>
            { s with reader := reader, taken := s.taken ++ [f] }).handleFrame s f)
          omega

/-! ## Reads -/

/-- What is behind a receive fits the buffer. -/
theorem length_commit (r : Soup.FrameReader) (bs : Bytes) (hspace : r.writeSpace ≠ 0) :
    (r.commit (bs.take r.writeSpace)).data.length ≤ Soup.FrameReader.kBufSize := by
  have hchunk := List.length_take_le r.writeSpace bs
  unfold Soup.FrameReader.commit
  unfold Soup.FrameReader.writeSpace Soup.FrameReader.wr at hspace hchunk ⊢
  rw [List.length_append]
  omega

/-- **A read takes at most one order id** for each byte of the buffer and each answer of `recv`. -/
theorem orderId_readSession (id : ℕ) (recvs : List Recv) (x : Exchange) :
    (readSession id recvs x).nextOrderId ≤
      x.nextOrderId + recvs.length * Soup.FrameReader.kBufSize := by
  induction recvs generalizing x with
  | nil =>
    unfold readSession
    split
    · exact Nat.le_add_right _ _
    · dsimp only
      split <;> exact Nat.le_add_right _ _
  | cons r recvs ih =>
    unfold readSession
    split
    · exact Nat.le_add_right _ _
    · next s _ =>
      dsimp only
      split
      · exact Nat.le_add_right _ _
      · next hspace =>
        cases r with
        | interrupted =>
          have hrest := ih (x.modify id fun s' => { s' with reader := s.reader.writePtr })
          rw [orderId_modify] at hrest
          rw [List.length_cons, Nat.succ_mul]
          dsimp only
          omega
        | closed => exact Nat.le_add_right _ _
        | failed => exact Nat.le_add_right _ _
        | data bs =>
          cases bs with
          | nil => exact Nat.le_add_right _ _
          | cons b bs =>
            have hbytes := length_commit s.reader.writePtr (b :: bs) hspace
            dsimp only
            generalize s.reader.writePtr.commit ((b :: bs).take s.reader.writePtr.writeSpace) =
              reader at hbytes ⊢
            set y := x.modify id fun s' => { s' with reader := s.reader.writePtr } with hy
            have hdrain := orderId_drainFrames id reader.data.length
              (y.tick.modify id fun s' => { s' with reader := reader, lastRxNs := y.nowNs })
            rw [show (y.tick.modify id fun s' =>
              { s' with reader := reader, lastRxNs := y.nowNs }).nextOrderId = x.nextOrderId
              from rfl] at hdrain
            rw [List.length_cons, Nat.succ_mul]
            split
            · next z hz =>
              rw [hz] at hdrain
              have hrest := ih z
              dsimp only at hdrain
              omega
            · next z hz =>
              rw [hz] at hdrain
              dsimp only at hdrain
              omega

/-! ## Synthetic flow -/

/-- An order of nobody takes one order id. -/
theorem orderId_synthSubmit (x : Exchange) (locate : ℕ) (req : OrderRequest) :
    (({ x with nextOrderId := x.nextOrderId + 1 } : Exchange).submit locate req).nextOrderId =
      x.nextOrderId + 1 :=
  orderId_submit _ locate req

theorem orderId_walkFair (x : Exchange) (bc : BookConfig) (fair : ℤ) :
    (x.walkFair bc fair).2.nextOrderId = x.nextOrderId := by
  unfold walkFair
  dsimp only
  split <;> rfl

theorem orderId_synthCancel (x : Exchange) (locate : ℕ) :
    (x.synthCancel locate).nextOrderId = x.nextOrderId := by
  unfold synthCancel
  dsimp only
  split
  · rfl
  · next o _ =>
    have hhalve : (if 200 ≤ o.qty then
        ((x.below (UInt64.ofNat (x.synthOf locate).live.length)).2.below 3).map
          (fun r => decide (r = 0)) id
      else (false, (x.below (UInt64.ofNat (x.synthOf locate).live.length)).2)).2.nextOrderId =
        x.nextOrderId := by
      split <;> rfl
    generalize (if 200 ≤ o.qty then
        ((x.below (UInt64.ofNat (x.synthOf locate).live.length)).2.below 3).map
          (fun r => decide (r = 0)) id
      else (false, (x.below (UInt64.ofNat (x.synthOf locate).live.length)).2)) = p at hhalve ⊢
    split
    · exact (orderId_cancel p.2 _ _ _ _ _).trans hhalve
    · exact (orderId_cancel _ _ _ _ _ _).trans hhalve

/-- A passive synthetic order takes one. -/
theorem orderId_synthPassive (x : Exchange) (locate : ℕ) (tick fair : ℤ) :
    (x.synthPassive locate tick fair).nextOrderId = x.nextOrderId + 1 := by
  unfold synthPassive
  dsimp only
  generalize (if x.coin.1 = true then Side.buy else Side.sell) = side
  generalize (if side = Side.buy then fair - ↑(1 + (x.coin.2.below 8).1) * tick
    else fair + ↑(1 + (x.coin.2.below 8).1) * tick) = price
  split
  · exact orderId_synthSubmit _ _ _
  · exact orderId_synthSubmit _ _ _

theorem orderId_synthAggressive (x : Exchange) (locate : ℕ) (tick fair : ℤ) :
    (x.synthAggressive locate tick fair).nextOrderId = x.nextOrderId + 1 :=
  orderId_synthSubmit _ _ _

/-- **A step of the synthetic flow takes at most one order id.** -/
theorem orderId_synthStep (x : Exchange) (locate : ℕ) :
    (x.synthStep locate).nextOrderId ≤ x.nextOrderId + 1 := by
  unfold synthStep
  dsimp only
  set y := ((x.walkFair (x.engine.book locate).cfg (x.synthOf locate).fair).2.setSynth locate
    { (x.synthOf locate) with
      fair := (x.walkFair (x.engine.book locate).cfg (x.synthOf locate).fair).1 }).below 100
  have hy : y.2.nextOrderId = x.nextOrderId :=
    orderId_walkFair x (x.engine.book locate).cfg (x.synthOf locate).fair
  split
  · exact (orderId_synthPassive y.2 _ _ _).trans_le (congrArg (· + 1) hy).le
  · split
    · rw [orderId_synthCancel, hy]
      exact Nat.le_succ _
    · exact (orderId_synthAggressive y.2 _ _ _).trans_le (congrArg (· + 1) hy).le

/-! ## Runs -/

/-- The order ids that an action can take. -/
def Action.orderIds : Action → ℕ
  | .session _ (some recvs) _ _ => recvs.length * Soup.FrameReader.kBufSize
  | .synth _ => 1
  | _ => 0

/-- An event of a session takes at most the ids of the frames it brings. -/
theorem orderId_onSessionEvent (x : Exchange) (id : ℕ) (recvs : Option (List Recv))
    (sends : Option (List Session.Send)) (hup : Bool) :
    (x.onSessionEvent id recvs sends hup).nextOrderId ≤
      x.nextOrderId + (Action.session id recvs sends hup).orderIds := by
  have hrest : ∀ y : Exchange, (onSessionEvent y id none sends hup).nextOrderId = y.nextOrderId := by
    intro y
    cases sends <;> cases hup <;> rfl
  cases recvs with
  | none => exact (hrest x).le
  | some recvs => exact (hrest (readSession id recvs x)).trans_le (orderId_readSession id recvs x)

/-- **One action.** -/
theorem orderId_step_le (x : Exchange) (a : Action) :
    (x.step a).nextOrderId ≤ x.nextOrderId + a.orderIds := by
  cases a with
  | accept kind =>
    show (x.accept kind).nextOrderId ≤ x.nextOrderId
    unfold accept
    dsimp only
    split
    · exact le_rfl
    · split <;> exact le_rfl
  | session id recvs sends hup => exact orderId_onSessionEvent x id recvs sends hup
  | synth locate =>
    show (if x.engine.validLocate locate then x.synthStep locate else x).nextOrderId ≤ _
    split
    · exact orderId_synthStep x locate
    · exact Nat.le_add_right _ _
  | heartbeat => exact le_rfl
  | watchdog now id =>
    show (x.watchdog now id).nextOrderId ≤ x.nextOrderId
    unfold watchdog
    split
    · exact le_rfl
    · split
      · exact le_rfl
      · split
        · exact le_rfl
        · split
          · exact (orderId_queueFrame x _ _).le
          · exact le_rfl
  | reap id =>
    show (match x.session? id with
      | none => x
      | some s => if s.dead then x.closeSession id else x).nextOrderId ≤ x.nextOrderId
    split
    · exact le_rfl
    · split
      · exact (orderId_closeSession x id).le
      · exact le_rfl
  | flushDirty sends =>
    have hflush : ∀ (ids : List ℕ) (y : Exchange), (ids.foldl (fun x id =>
        x.tick.modify id fun s =>
          ({ s with dirty := false } : Session).flush x.nowNs (sends id)) y).nextOrderId =
          y.nextOrderId := by
      intro ids
      induction ids with
      | nil => exact fun _ => rfl
      | cons id ids ih => exact fun y => ih _
    exact (hflush x.dirty x).le
  | flushFeed => exact le_rfl

/-- The start of day takes no order id. -/
theorem nextOrderId_new (cfg : Config) (clock : Clock) : (new cfg clock).nextOrderId = 1 := by
  have hpublish : ∀ (y : Exchange) (m : Itch.Message), (y.publish m).nextOrderId = y.nextOrderId := by
    intro y m
    unfold publish
    dsimp only
    split <;> rfl
  have hlist : ∀ (is : List ℕ) (ts : UInt64) (e : MatchingEngine) (y : Exchange),
      (is.foldl (fun x i => x.publish
        (.stockDirectory (UInt16.ofNat (i + 1)) ts (e.symbol (i + 1)) 100)) y).nextOrderId =
          y.nextOrderId := by
    intro is ts e
    induction is with
    | nil => exact fun _ => rfl
    | cons i is ih =>
      intro y
      rw [List.foldl_cons, ih, hpublish]
  have hflush : ∀ (y : Exchange) (md : MarketDataFeed),
      ({ y with md := md } : Exchange).tick.nextOrderId = y.nextOrderId :=
    fun _ _ => rfl
  unfold new
  dsimp only
  generalize cfg.symbols.foldl listSymbol { stp := cfg.stp } = engine
  set x₀ : Exchange :=
    { engine := engine
      md := .new kSessionName cfg.dropEvery
      synth := cfg.symbols.map fun _ => { fair := 100 * kPriceScale }
      rng := if cfg.seed ≠ 0 then cfg.seed else 0x9E3779B97F4A7C15
      clock := clock } with hx₀
  rw [hflush, hpublish, hlist, hpublish]
  rfl

/-- **How many order ids a run can take.** -/
theorem nextOrderId_after (cfg : Config) (clock : Clock) (actions : List Action) :
    (after cfg clock actions).nextOrderId ≤ 1 + (actions.map Action.orderIds).sum := by
  induction actions using List.reverseRecOn with
  | nil => exact (nextOrderId_new cfg clock).le
  | append_singleton actions a ih =>
    have hstep := orderId_step_le (after cfg clock actions) a
    rw [after, List.foldl_append]
    rw [List.map_append, List.sum_append]
    refine hstep.trans ?_
    rw [List.map_singleton, List.sum_singleton]
    omega

end Exchange

end PulseForge
