import PulseForge.Analysis.ClosingSessions
import PulseForge.Analysis.FeedHistory

/-!
# What happens to the feed

One lemma per function of the exchange says what it does to the engine, to the feed and to the
clients that ask for snapshots. The engine's callbacks publish at most one message each and tell
a snapshot client nothing; every action of the event loop, apart from opening a connection, is a
run of the moves below.
-/

set_option autoImplicit false

namespace PulseForge

open Foundation

/-! ## Snapshot clients -/

namespace Session

variable {s s' s'' : Session}

/-- The login frames of the session that were handled. -/
def logins (s : Session) : ℕ := s.taken.countP fun f => f.type = Soup.kLoginRequest

/-- What a snapshot client sees of its session is the same. -/
structure SameClient (s s' : Session) : Prop where
  kind : s'.kind = s.kind
  logins : s.kind = .snapshot → s'.logins = s.logins
  queued : s.kind = .snapshot → s'.queued = s.queued

theorem SameClient.refl (s : Session) : SameClient s s := ⟨rfl, fun _ => rfl, fun _ => rfl⟩

theorem SameClient.trans (h : SameClient s s') (h' : SameClient s' s'') : SameClient s s'' :=
  ⟨h'.kind.trans h.kind, fun hk => (h'.logins (h.kind.trans hk)).trans (h.logins hk),
    fun hk => (h'.queued (h.kind.trans hk)).trans (h.queued hk)⟩

/-- An order-entry session is no snapshot client. -/
theorem SameClient.of_entry (hs : s.kind = .orderEntry) (hkind : s'.kind = s.kind) :
    SameClient s s' := by
  have hno : s.kind ≠ .snapshot := by
    rw [hs]
    exact SessionKind.noConfusion
  exact ⟨hkind, fun h => absurd h hno, fun h => absurd h hno⟩

end Session

/-- The connections whose orders an event is about. -/
def Event.owners : Event → List ℕ
  | .accepted _ req | .rejected _ req _ | .takerCancelled _ req _ _ => [req.owner]
  | .fill _ f => [f.makerOwner, f.takerOwner]
  | .restingCancelled _ o _ _ => [o.owner]
  | .rested _ _ => []

namespace Exchange

variable {x y z : Exchange}

/-- No snapshot client is connected under the id. -/
def Entry (x : Exchange) (k : ℕ) : Prop := ∀ s, x.session? k = some s → s.kind = .orderEntry

/-- **Nothing for the snapshot clients**: no session is new, and what they see is the same. -/
def KeepsClients (x y : Exchange) : Prop :=
  ∀ k s', y.session? k = some s' → ∃ s, x.session? k = some s ∧ s.SameClient s'

theorem KeepsClients.refl (x : Exchange) : KeepsClients x x := fun _ s hs => ⟨s, hs, .refl s⟩

theorem KeepsClients.trans (h : KeepsClients x y) (h' : KeepsClients y z) : KeepsClients x z := by
  intro k s'' hs''
  obtain ⟨s', hs', hsame'⟩ := h' k s'' hs''
  obtain ⟨s, hs, hsame⟩ := h k s' hs'
  exact ⟨s, hs, hsame.trans hsame'⟩

/-- The same sessions are the same clients. -/
theorem KeepsClients.of_eq (h : y.sessions = x.sessions) : KeepsClients x y := by
  intro k s' hs'
  rw [session?, h] at hs'
  exact ⟨s', hs', .refl s'⟩

/-- An order-entry session stays one. -/
theorem Entry.keeps {k : ℕ} (h : x.Entry k) (hxy : KeepsClients x y) : y.Entry k := by
  intro s' hs'
  obtain ⟨s, hs, hsame⟩ := hxy k s' hs'
  exact hsame.kind.trans (h s hs)

/-- A change of one session that leaves it the same client. -/
theorem keepsClients_modify {id : ℕ} {f : Session → Session} (hid : ∀ s, (f s).id = s.id)
    (hf : ∀ s, x.session? id = some s → s.SameClient (f s)) : KeepsClients x (x.modify id f) := by
  intro k s' hs'
  rw [session?_modify hid] at hs'
  split_ifs at hs' with hk
  · subst hk
    obtain ⟨s, hs, rfl⟩ := Option.map_eq_some_iff.mp hs'
    exact ⟨s, hs, hf s hs⟩
  · exact ⟨s', hs', .refl s'⟩

/-- A frame for an order-entry session is not seen by snapshot clients. -/
theorem keepsClients_queueFrame {id : ℕ} (h : x.Entry id) (f : Soup.Frame) :
    KeepsClients x (x.queueFrame id f) := by
  intro k s' hs'
  rw [queueFrame_session?] at hs'
  split_ifs at hs' with hk
  · subst hk
    obtain ⟨s, hs, rfl⟩ := Option.map_eq_some_iff.mp hs'
    exact ⟨s, hs, .of_entry (h s hs) rfl⟩
  · exact ⟨s', hs', .refl s'⟩

/-! ## Silent functions -/

/-- **The feed did not notice.** -/
structure Silent (x y : Exchange) : Prop where
  engine : y.engine = x.engine
  md : y.md = x.md
  log : y.log = x.log
  orderIds : x.nextOrderId ≤ y.nextOrderId
  sessionIds : y.nextSessionId = x.nextSessionId
  clients : KeepsClients x y

theorem Silent.refl (x : Exchange) : Silent x x := ⟨rfl, rfl, rfl, le_rfl, rfl, .refl x⟩

theorem Silent.trans (h : Silent x y) (h' : Silent y z) : Silent x z :=
  ⟨h'.engine.trans h.engine, h'.md.trans h.md, h'.log.trans h.log, h.orderIds.trans h'.orderIds,
    h'.sessionIds.trans h.sessionIds, h.clients.trans h'.clients⟩

/-- A change that leaves every session the same client is silent. -/
theorem silent_modify {id : ℕ} {f : Session → Session} (hid : ∀ s, (f s).id = s.id)
    (hf : ∀ s : Session, s.SameClient (f s)) : Silent x (x.modify id f) :=
  ⟨rfl, rfl, rfl, le_rfl, rfl, keepsClients_modify hid fun s _ => hf s⟩

theorem silent_tick (x : Exchange) : Silent x x.tick := ⟨rfl, rfl, rfl, le_rfl, rfl, .of_eq rfl⟩

/-- Marking a session touches neither the engine nor the feed. -/
theorem silent_markDirty (x : Exchange) (id : ℕ) :
    (x.markDirty id).engine = x.engine ∧ (x.markDirty id).md = x.md ∧
      (x.markDirty id).log = x.log ∧ (x.markDirty id).nextOrderId = x.nextOrderId ∧
      (x.markDirty id).nextSessionId = x.nextSessionId := by
  unfold markDirty
  split
  · exact ⟨rfl, rfl, rfl, rfl, rfl⟩
  · split
    · exact ⟨rfl, rfl, rfl, rfl, rfl⟩
    · exact ⟨rfl, rfl, rfl, rfl, rfl⟩

/-- A frame for an order-entry session is silent. -/
theorem silent_queueFrame {id : ℕ} (h : x.Entry id) (f : Soup.Frame) :
    Silent x (x.queueFrame id f) := by
  obtain ⟨hengine, hmd, hlog, horder, hsession⟩ :=
    silent_markDirty (x.modify id fun s => s.queueFrame f) id
  exact ⟨hengine, hmd, hlog, horder.ge, hsession, keepsClients_queueFrame h f⟩

theorem silent_queueOuch {id : ℕ} (h : x.Entry id) (m : Ouch.Outbound) :
    Silent x (x.queueOuch id m) := by
  unfold queueOuch
  dsimp only
  split
  · refine (silent_queueFrame h _).trans (silent_modify (fun _ => rfl) fun _ => ?_)
    exact ⟨rfl, fun _ => rfl, fun _ => rfl⟩
  · exact .refl x

/-- A report with the time of the day. -/
theorem silent_report {id : ℕ} (h : x.Entry id) (m : Ouch.Outbound) :
    Silent x (x.tick.queueOuch id m) :=
  (silent_tick x).trans (silent_queueOuch (x := x.tick) h m)

theorem silent_sendReject {id : ℕ} (h : x.Entry id) (userRef : UInt32) (reason : UInt8) :
    Silent x (x.sendReject id userRef reason) :=
  silent_report h _

theorem silent_sendExec {id : ℕ} (h : x.Entry id) (ts : UInt64) (userRef : ℕ) (f : Fill)
    (liquidity : UInt8) : Silent x (x.sendExec id ts userRef f liquidity) :=
  silent_queueOuch h _

theorem silent_orders (x : Exchange) (id : ℕ) (g : Session → FlatIdMap OrderHandle) :
    Silent x (x.modify id fun s => { s with orders := g s }) :=
  silent_modify (fun _ => rfl) fun _ => ⟨rfl, fun _ => rfl, fun _ => rfl⟩

/-! ## The engine's listener -/

/-- What a callback of the engine does to the feed: its message is published. -/
structure Hears (cb : Callback) (x y : Exchange) : Prop where
  engine : y.engine = x.engine
  md : ∃ now now', y.md = Aired.heard x.md now' (publicMessage cb.engine now cb.event)
  log : y.log = x.log ++ [cb.event]
  orderIds : x.nextOrderId ≤ y.nextOrderId
  sessionIds : y.nextSessionId = x.nextSessionId
  clients : KeepsClients x y

/-- A callback, and silence behind it. -/
theorem Hears.silent {cb : Callback} (h : Hears cb x y) (h' : Silent y z) : Hears cb x z := by
  obtain ⟨now, now', hmd⟩ := h.md
  exact ⟨h'.engine.trans h.engine, ⟨now, now', h'.md.trans hmd⟩, h'.log.trans h.log,
    h.orderIds.trans h'.orderIds, h'.sessionIds.trans h.sessionIds, h.clients.trans h'.clients⟩

/-- A callback without a message. -/
theorem hears_private {cb : Callback} (hcb : cb.event.isPublic = false) :
    Hears cb x { x with log := x.log ++ [cb.event] } := by
  have hnone : publicMessage cb.engine 0 cb.event = none := by
    rw [← Option.not_isSome_iff_eq_none, isSome_publicMessage, hcb]
    exact Bool.false_ne_true
  exact ⟨rfl, ⟨0, 0, by rw [hnone]; rfl⟩, rfl, le_rfl, rfl, .of_eq rfl⟩

/-- A callback that publishes before anything else. -/
theorem hears_publish {cb : Callback} {m : Itch.Message}
    (hm : publicMessage cb.engine (x.clock.realtime x.clock.readings) cb.event = some m) :
    Hears cb x (({ x with log := x.log ++ [cb.event] } : Exchange).tick.publish m) := by
  obtain ⟨hpos, -⟩ := MarketDataFeed.encode_length m
  unfold publish
  dsimp only
  rw [if_pos hpos]
  exact ⟨rfl, ⟨_, _, by rw [hm]; rfl⟩, rfl, le_rfl, rfl, .of_eq rfl⟩

/-- What a connection is told of its own order. -/
theorem silent_told {owner : ℕ} {g : Session → Exchange} (h : x.Entry owner)
    (hg : ∀ s, x.Entry s.id → Silent x (g s)) :
    Silent x (match x.sessionFor owner with
      | none => x
      | some s => g s) := by
  cases hs : x.sessionFor owner with
  | none => exact .refl x
  | some s =>
    apply hg s
    unfold sessionFor at hs
    split_ifs at hs
    rw [session?_id hs]
    exact h

/-- What the maker of a fill is told. -/
theorem silent_maker (ts : UInt64) {f : Fill} (h : x.Entry f.makerOwner) :
    Silent x (match x.sessionFor f.makerOwner with
      | none => x
      | some s =>
        let x := x.sendExec s.id ts f.makerUserRef f Ouch.kAddedLiquidity
        if f.makerRemaining = 0 then
          x.modify s.id fun s => { s with orders := (s.orders.erase f.makerUserRef).1 }
        else x) := by
  refine silent_told h fun s hs => ?_
  have hexec : Silent x (x.sendExec s.id ts f.makerUserRef f Ouch.kAddedLiquidity) :=
    silent_queueOuch hs _
  dsimp only
  split
  · exact hexec.trans (silent_orders _ _ _)
  · exact hexec

/-- `on_fill` publishes the execution. -/
theorem hears_onFill {e : MatchingEngine} {locate : ℕ} {f : Fill} (hmaker : x.Entry f.makerOwner)
    (htaker : x.Entry f.takerOwner) :
    Hears ⟨.fill locate f, e⟩ x (x.on ⟨.fill locate f, e⟩) := by
  have hfirst := @hears_publish x ⟨.fill locate f, e⟩ _ rfl
  have hsecond := hfirst.silent (silent_maker x.midNow (hmaker.keeps hfirst.clients))
  refine hsecond.silent ?_
  exact silent_told (htaker.keeps hsecond.clients) fun s hs => silent_sendExec hs _ _ _ _

/-- `on_resting_cancelled` publishes the cancel. -/
theorem hears_onRestingCancelled {e : MatchingEngine} {locate : ℕ} {before : BookOrder}
    {cancelled : ℕ} {why : CancelReason} (hentry : x.Entry before.owner) :
    Hears ⟨.restingCancelled locate before cancelled why, e⟩ x
      (x.on ⟨.restingCancelled locate before cancelled why, e⟩) := by
  have hfirst := @hears_publish x ⟨.restingCancelled locate before cancelled why, e⟩ _ rfl
  refine hfirst.silent ?_
  refine silent_told (hentry.keeps hfirst.clients) fun s hs => ?_
  have htold := silent_queueOuch hs (.canceled x.midNow (UInt32.ofNat before.userRef)
    (UInt32.ofNat cancelled) (cancelCode why))
  dsimp only
  split
  · exact htold.trans (silent_orders _ _ _)
  · exact htold

/-- **A callback of the engine** publishes its message, if it has one. -/
theorem on_hears (cb : Callback) (h : ∀ k ∈ cb.event.owners, x.Entry k) :
    Hears cb x (x.on cb) := by
  obtain ⟨ev, e⟩ := cb
  cases ev with
  | accepted locate req =>
    have hentry : x.Entry req.owner := h _ (List.mem_singleton_self _)
    refine (hears_private rfl).silent ?_
    exact silent_told hentry fun s hs => silent_report hs _
  | rejected locate req why =>
    have hentry : x.Entry req.owner := h _ (List.mem_singleton_self _)
    refine (hears_private rfl).silent ?_
    exact silent_told hentry fun s hs => silent_sendReject hs _ _
  | fill locate f =>
    exact hears_onFill (h _ List.mem_cons_self)
      (h _ (List.mem_cons_of_mem _ (List.mem_singleton_self _)))
  | rested locate o =>
    have hfirst := @hears_publish x ⟨.rested locate o, e⟩ _ rfl
    exact hfirst
  | restingCancelled locate before cancelled why =>
    exact hears_onRestingCancelled (h _ (List.mem_singleton_self _))
  | takerCancelled locate req cancelled why =>
    have hentry : x.Entry req.owner := h _ (List.mem_singleton_self _)
    refine (hears_private rfl).silent ?_
    exact silent_told hentry fun s hs => silent_report hs _

/-! ## Moves -/

/-- **What can happen to the feed**: nothing that it notices, what the feed does by itself, a
call of the engine, a snapshot. -/
inductive FeedMove : Exchange → Exchange → Prop where
  | silent {x y : Exchange} (h : Silent x y) : FeedMove x y
  | flushes (x : Exchange) (now : ℕ) : FeedMove x { x with md := x.md.flush now }
  | beats (x : Exchange) (nowMono now : ℕ) :
    FeedMove x { x with md := x.md.heartbeatIfIdle nowMono now }
  | submits {x : Exchange} {locate : ℕ} {req : OrderRequest}
    (hlocate : locate < 2 ^ 16 ∨ x.engine.validLocate locate) (hid : req.id < x.nextOrderId)
    (hqty : req.qty < 2 ^ 32)
    (howner : req.owner = 0 ∨ ∃ s, x.session? req.owner = some s ∧ s.kind = .orderEntry) :
    FeedMove x (x.submit locate req)
  | cancels (x : Exchange) (locate id newQty owner : ℕ) (why : CancelReason) :
    FeedMove x (x.cancel locate id newQty owner why)
  | serves {x : Exchange} {id : ℕ} {s : Session} {f : Soup.Frame} (reader : Soup.FrameReader)
    (hs : x.session? id = some s) (hkind : s.kind = .snapshot)
    (hlogin : f.type = Soup.kLoginRequest) : FeedMove x ((x.takes id f reader).sendSnapshot id)

/-- Some moves. -/
def FeedMoves : Exchange → Exchange → Prop := Relation.ReflTransGen FeedMove

theorem FeedMoves.refl (x : Exchange) : FeedMoves x x := Relation.ReflTransGen.refl

theorem FeedMoves.trans (h : FeedMoves x y) (h' : FeedMoves y z) : FeedMoves x z :=
  Relation.ReflTransGen.trans h h'

/-- One move. -/
theorem FeedMoves.move (h : FeedMove x y) : FeedMoves x y := Relation.ReflTransGen.single h

theorem Silent.moves (h : Silent x y) : FeedMoves x y := .move (.silent h)

/-- A session that dies is a move. -/
theorem feedMoves_dies (x : Exchange) (id : ℕ) :
    FeedMoves x (x.modify id fun s => { s with dead := true }) := by
  apply Silent.moves
  exact silent_modify (fun _ => rfl) fun _ => ⟨rfl, fun _ => rfl, fun _ => rfl⟩

/-! ## Frames of order-entry sessions -/

section Entry

variable {s : Session}

/-- The last frame of an order-entry session is silent. -/
theorem silent_queueLast {id : ℕ} (h : x.Entry id) (f : Soup.Frame) :
    Silent x (x.queueLast id f) := by
  refine (silent_queueFrame h f).trans ?_
  exact silent_modify (fun _ => rfl) fun _ => ⟨rfl, fun _ => rfl, fun _ => rfl⟩

/-- A login is silent. -/
theorem silent_handleLogin (h : x.Entry s.id) (p : Bytes) : Silent x (x.handleLogin s p) := by
  have hrefuse := silent_queueLast h ⟨Soup.kLoginRejected, [65]⟩
  unfold handleLogin
  dsimp only
  split
  · exact hrefuse
  · split
    · exact hrefuse
    · split
      · exact hrefuse
      · next req _ _ =>
        have hmark : Silent x (x.modify s.id fun s =>
            { s with loggedIn := true, user := req.username }) :=
          silent_modify (fun _ => rfl) fun _ => ⟨rfl, fun _ => rfl, fun _ => rfl⟩
        exact hmark.trans (silent_queueFrame (h.keeps hmark.clients) _)

/-- The session of an order is still there when the order is submitted. -/
theorem session_modify {k : ℕ} {f : Session → Session} (hid : ∀ s, (f s).id = s.id)
    (hkind : ∀ s, (f s).kind = s.kind)
    (h : ∃ s, x.session? k = some s ∧ s.kind = .orderEntry) (id : ℕ) :
    ∃ s, (x.modify id f).session? k = some s ∧ s.kind = .orderEntry := by
  obtain ⟨s, hs, hentry⟩ := h
  rw [session?_modify hid, hs]
  split
  · exact ⟨f s, rfl, (hkind s).trans hentry⟩
  · exact ⟨s, rfl, hentry⟩

/-- **`handle_enter`**: the order is rejected, or submitted under a new id. -/
theorem handleEnter_feed (h : ∃ s', x.session? s.id = some s' ∧ s'.kind = .orderEntry)
    (m : Ouch.EnterOrder) : FeedMoves x (x.handleEnter s m) := by
  have hentry : ∀ {y : Exchange},
      (∃ s', y.session? s.id = some s' ∧ s'.kind = .orderEntry) → y.Entry s.id := by
    rintro y ⟨s', hs', hkind⟩ s'' hs''
    rw [← Option.some.inj (hs'.symm.trans hs'')]
    exact hkind
  unfold handleEnter
  dsimp only
  have hpending : Silent x { x with pendingClordid := m.clordid } :=
    ⟨rfl, rfl, rfl, le_rfl, rfl, .of_eq rfl⟩
  refine hpending.moves.trans ?_
  set x₀ : Exchange := { x with pendingClordid := m.clordid } with hx₀
  have h₀ : ∃ s', x₀.session? s.id = some s' ∧ s'.kind = .orderEntry := h
  split
  · exact (silent_sendReject (hentry h₀) _ _).moves
  · set x₁ := x₀.modify s.id fun s => { s with lastUserRef := m.userRef.toNat } with hx₁
    have href : Silent x₀ x₁ :=
      silent_modify (fun _ => rfl) fun _ => ⟨rfl, fun _ => rfl, fun _ => rfl⟩
    have h₁ : ∃ s', x₁.session? s.id = some s' ∧ s'.kind = .orderEntry :=
      session_modify (f := fun s : Session => { s with lastUserRef := m.userRef.toNat })
        (fun _ => rfl) (fun _ => rfl) h₀ s.id
    refine href.moves.trans ?_
    split
    · exact (silent_sendReject (hentry h₁) _ _).moves
    · set x₂ : Exchange := { x₁ with nextOrderId := x₁.nextOrderId + 1 } with hx₂
      have hnext : Silent x₁ x₂ := ⟨rfl, rfl, rfl, Nat.le_succ _, rfl, .of_eq rfl⟩
      have h₂ : ∃ s', x₂.session? s.id = some s' ∧ s'.kind = .orderEntry := h₁
      refine hnext.moves.trans ?_
      split
      · exact (silent_sendReject (hentry h₂) _ _).moves
      · next orders _ =>
        have hwrite := silent_orders x₂ s.id fun _ => orders
        have h₃ := session_modify (f := fun s : Session => { s with orders := orders })
          (fun _ => rfl) (fun _ => rfl) h₂ s.id
        refine hwrite.moves.trans ?_
        have hlocate : x₁.engine.findSymbol m.symbol < 2 ^ 16 := by
          unfold MatchingEngine.findSymbol
          split
          · exact Nat.two_pow_pos 16
          · exact Nat.mod_lt _ (Nat.two_pow_pos 16)
        have hsubmit := FeedMoves.move (@FeedMove.submits
          (x₂.modify s.id fun s => { s with orders := orders }) (x₁.engine.findSymbol m.symbol)
          (m.request s.id (x₁.nextOrderId % 2 ^ 64)) (.inl hlocate)
          (Nat.lt_succ_of_le (Nat.mod_le x₁.nextOrderId _)) m.qty.toNat_lt (.inr h₃))
        split
        · exact hsubmit.trans (silent_orders _ _ _).moves
        · exact hsubmit

theorem handleCancel_feed (x : Exchange) (s : Session) (m : Ouch.CancelOrder) :
    FeedMoves x (x.handleCancel s m) := by
  unfold handleCancel
  split
  · exact .refl x
  · exact .move (.cancels ..)

end Entry

/-! ## Reading -/

/-- A frame comes off the reader, and is nothing to a snapshot client. -/
theorem silent_takes {id : ℕ} {f : Soup.Frame} {s : Session} (reader : Soup.FrameReader)
    (hs : x.session? id = some s) (h : s.kind = .orderEntry ∨ f.type ≠ Soup.kLoginRequest) :
    Silent x (x.takes id f reader) := by
  refine ⟨rfl, rfl, rfl, le_rfl, rfl, keepsClients_modify (fun _ => rfl) fun s' hs' => ?_⟩
  obtain rfl := Option.some.inj (hs.symm.trans hs')
  rcases h with hentry | htype
  · exact .of_entry hentry rfl
  · refine ⟨rfl, fun _ => ?_, fun _ => rfl⟩
    unfold Session.logins
    dsimp only
    rw [List.countP_append, List.countP_singleton, if_neg (by simpa using htype), Nat.add_zero]

/-- **`handle_frame`**, by the kind of the session. -/
theorem handleFrame_feed {id : ℕ} {s : Session} (hs : x.session? id = some s) (f : Soup.Frame)
    (reader : Soup.FrameReader) : FeedMoves x ((x.takes id f reader).handleFrame s f) := by
  have hid := session?_id hs
  subst hid
  unfold handleFrame
  cases hkind : s.kind with
  | snapshot =>
    dsimp only
    split
    · next hlogin => exact .move (.serves reader hs hkind hlogin)
    · next hlogin => exact (silent_takes reader hs (.inr hlogin)).moves
  | orderEntry =>
    dsimp only
    have htakes : Silent x (x.takes s.id f reader) := silent_takes reader hs (.inl hkind)
    have hthere : ∃ s', (x.takes s.id f reader).session? s.id = some s' ∧
        s'.kind = .orderEntry :=
      session_modify (f := fun s : Session => { s with reader := reader, taken := s.taken ++ [f] })
        (fun _ => rfl) (fun _ => rfl) ⟨s, hs, hkind⟩ s.id
    have hentry : (x.takes s.id f reader).Entry s.id := by
      refine Entry.keeps (fun s' hs' => ?_) htakes.clients
      rw [← Option.some.inj (hs.symm.trans hs')]
      exact hkind
    refine htakes.moves.trans ?_
    split
    · exact (silent_handleLogin hentry f.payload).moves
    · split
      · split
        · exact feedMoves_dies _ _
        · split
          · exact .refl _
          · exact handleEnter_feed hthere _
          · exact handleCancel_feed _ s _
      · split
        · exact (silent_queueLast hentry _).moves
        · exact .refl _

theorem drainFrames_feed (id fuel : ℕ) (x : Exchange) : FeedMoves x (drainFrames id fuel x).1 := by
  induction fuel generalizing x with
  | zero => exact .refl x
  | succ fuel ih =>
    rw [drainFrames]
    cases hs : x.session? id with
    | none => exact .refl x
    | some s =>
      dsimp only
      split
      · exact .refl x
      · exact feedMoves_dies x id
      · next f reader hnext =>
        have hframe := handleFrame_feed hs f reader
        split
        · exact hframe
        · exact hframe.trans (ih _)

/-- New bytes in the reader. -/
theorem silent_reader (x : Exchange) (id : ℕ) (reader : Soup.FrameReader) (now : Session → ℕ) :
    Silent x (x.modify id fun s => { s with reader := reader, lastRxNs := now s }) :=
  silent_modify (fun _ => rfl) fun _ => ⟨rfl, fun _ => rfl, fun _ => rfl⟩

theorem readSession_feed (id : ℕ) (recvs : List Recv) (x : Exchange) :
    FeedMoves x (readSession id recvs x) := by
  induction recvs generalizing x with
  | nil =>
    rw [readSession]
    split
    · exact .refl x
    · next s hs =>
      dsimp only
      have hroom := (silent_reader x id s.reader.writePtr fun s => s.lastRxNs).moves
      split
      · exact hroom.trans (feedMoves_dies _ id)
      · exact hroom
  | cons r recvs ih =>
    rw [readSession]
    split
    · exact .refl x
    · next s hs =>
      dsimp only
      have hroom := (silent_reader x id s.reader.writePtr fun s => s.lastRxNs).moves
      split
      · exact hroom.trans (feedMoves_dies _ id)
      · cases r with
        | interrupted => exact hroom.trans (ih _)
        | closed => exact hroom.trans (feedMoves_dies _ id)
        | failed => exact hroom.trans (feedMoves_dies _ id)
        | data bs =>
          cases bs with
          | nil => exact hroom.trans (feedMoves_dies _ id)
          | cons b bs =>
            dsimp only
            set y := x.modify id fun s' => { s' with reader := s.reader.writePtr } with hy
            set reader := s.reader.writePtr.commit ((b :: bs).take s.reader.writePtr.writeSpace)
              with hreader
            have hrecv : Silent y
                (y.tick.modify id fun s' => { s' with reader := reader, lastRxNs := y.nowNs }) :=
              (silent_tick y).trans (silent_reader _ id reader fun _ => y.nowNs)
            have hdrain :=
              (hroom.trans hrecv.moves).trans (drainFrames_feed id reader.data.length _)
            split
            · next z hz =>
              rw [hz] at hdrain
              exact hdrain.trans (ih _)
            · next z hz =>
              rw [hz] at hdrain
              exact hdrain

/-! ## Closing -/

theorem closeSession_feed (x : Exchange) (id : ℕ) : FeedMoves x (x.closeSession id) := by
  have hcancel : ∀ (live : List OrderHandle) (y : Exchange),
      FeedMoves y (live.foldl (fun x h => x.cancel h.locate h.id 0 id .supervisory) y) := by
    intro live
    induction live with
    | nil => exact FeedMoves.refl
    | cons h live ih => exact fun y => (FeedMoves.move (.cancels ..)).trans (ih _)
  unfold closeSession
  split
  · exact .refl x
  · refine (hcancel _ x).trans (Silent.moves ⟨rfl, rfl, rfl, le_rfl, rfl, fun k s' hs' => ?_⟩)
    rw [session?_filter] at hs'
    split_ifs at hs'
    exact ⟨s', hs', .refl s'⟩

/-! ## Synthetic flow -/

theorem silent_below (x : Exchange) (n : UInt64) : Silent x (x.below n).2 :=
  ⟨rfl, rfl, rfl, le_rfl, rfl, .of_eq rfl⟩

theorem silent_coin (x : Exchange) : Silent x x.coin.2 := ⟨rfl, rfl, rfl, le_rfl, rfl, .of_eq rfl⟩

theorem silent_setSynth (x : Exchange) (locate : ℕ) (st : Synth) :
    Silent x (x.setSynth locate st) :=
  ⟨rfl, rfl, rfl, le_rfl, rfl, .of_eq rfl⟩

theorem silent_walkFair (x : Exchange) (bc : BookConfig) (fair : ℤ) :
    Silent x (x.walkFair bc fair).2 := by
  unfold walkFair
  dsimp only
  split
  · exact (silent_below x 100).trans (silent_coin _)
  · exact silent_below x 100

/-- An order of nobody. -/
theorem synthSubmit_feed {locate : ℕ} {req : OrderRequest} (hlocate : x.engine.validLocate locate)
    (howner : req.owner = 0) (hid : req.id = x.nextOrderId % 2 ^ 64) (hqty : req.qty < 2 ^ 32) :
    FeedMoves x (({ x with nextOrderId := x.nextOrderId + 1 } : Exchange).submit locate req) := by
  have hnext : Silent x { x with nextOrderId := x.nextOrderId + 1 } :=
    ⟨rfl, rfl, rfl, Nat.le_succ _, rfl, .of_eq rfl⟩
  refine hnext.moves.trans (.move (.submits (.inr hlocate) ?_ hqty (.inl howner)))
  rw [hid]
  exact Nat.lt_succ_of_le (Nat.mod_le x.nextOrderId _)

theorem synthPassive_feed {locate : ℕ} (hlocate : x.engine.validLocate locate) (tick fair : ℤ) :
    FeedMoves x (x.synthPassive locate tick fair) := by
  unfold synthPassive
  dsimp only
  have hlots : (((x.coin.2).below 8).2.below 5).1 < 5 := below_lt _ (by decide)
  set x₁ := (((x.coin.2).below 8).2.below 5).2 with hx₁
  have hrandom : Silent x x₁ := ((silent_coin x).trans (silent_below _ 8)).trans (silent_below _ 5)
  generalize (if x.coin.1 = true then Side.buy else Side.sell) = side
  set price := if side = Side.buy then fair - ↑(1 + (x.coin.2.below 8).1) * tick
    else fair + ↑(1 + (x.coin.2.below 8).1) * tick
  set req : OrderRequest :=
    { id := x₁.nextOrderId % 2 ^ 64
      side := side
      price := price
      qty := 100 * (1 + ((x.coin.2.below 8).2.below 5).1)
      tif := .day } with hreq
  have hqty : req.qty < 2 ^ 32 := by
    show 100 * (1 + _) < 2 ^ 32
    omega
  have hlocate' : x₁.engine.validLocate locate := by
    rw [hrandom.engine]
    exact hlocate
  have hid : req.id = x₁.nextOrderId % 2 ^ 64 := rfl
  have hsub := hrandom.moves.trans (synthSubmit_feed hlocate' rfl hid hqty)
  split
  · exact hsub.trans (silent_setSynth _ _ _).moves
  · exact hsub

theorem synthCancel_feed (x : Exchange) (locate : ℕ) : FeedMoves x (x.synthCancel locate) := by
  unfold synthCancel
  dsimp only
  set live := (x.synthOf locate).live with hlive
  set x₁ := (x.below (UInt64.ofNat live.length)).2 with hx₁
  have hfirst : FeedMoves x x₁ := (silent_below x _).moves
  split
  · exact hfirst.trans (silent_setSynth _ _ _).moves
  · next o ho =>
    have hhalve : FeedMoves x₁ (if 200 ≤ o.qty then
        (x₁.below 3).map (fun r => decide (r = 0)) id else (false, x₁)).2 := by
      split
      · exact (silent_below x₁ 3).moves
      · exact .refl x₁
    generalize (if 200 ≤ o.qty then
      (x₁.below 3).map (fun r => decide (r = 0)) id else (false, x₁)) = p at hhalve ⊢
    split
    · exact (hfirst.trans hhalve).trans (.move (.cancels ..))
    · exact ((hfirst.trans hhalve).trans (silent_setSynth _ _ _).moves).trans (.move (.cancels ..))

theorem synthAggressive_feed {locate : ℕ} (hlocate : x.engine.validLocate locate)
    (tick fair : ℤ) : FeedMoves x (x.synthAggressive locate tick fair) := by
  unfold synthAggressive
  dsimp only
  have hlots : ((x.coin.2).below 3).1 < 3 := below_lt _ (by decide)
  set x₁ := ((x.coin.2).below 3).2 with hx₁
  have hrandom : Silent x x₁ := (silent_coin x).trans (silent_below _ 3)
  have hlocate' : x₁.engine.validLocate locate := by
    rw [hrandom.engine]
    exact hlocate
  refine hrandom.moves.trans (synthSubmit_feed hlocate' rfl rfl ?_)
  show 100 * (1 + _) < 2 ^ 32
  omega

/-- **`synth_step`** enters or cancels orders of nobody. -/
theorem synthStep_feed {locate : ℕ} (hlocate : x.engine.validLocate locate) :
    FeedMoves x (x.synthStep locate) := by
  unfold synthStep
  dsimp only
  set bc := (x.engine.book locate).cfg with hbc
  set w := x.walkFair bc (x.synthOf locate).fair with hw
  set x₁ := ((w.2.setSynth locate { x.synthOf locate with fair := w.1 }).below 100).2 with hx₁
  have hfirst : Silent x x₁ :=
    ((silent_walkFair x bc _).trans (silent_setSynth w.2 locate _)).trans (silent_below _ 100)
  have hlocate' : x₁.engine.validLocate locate := by
    rw [hfirst.engine]
    exact hlocate
  split
  · exact hfirst.moves.trans (synthPassive_feed hlocate' _ _)
  · split
    · exact hfirst.moves.trans (synthCancel_feed _ locate)
    · exact hfirst.moves.trans (synthAggressive_feed hlocate' _ _)

/-! ## The event loop -/

/-- `flush_session` leaves a session the same client. -/
theorem sameClient_flush (now : ℕ) (s : Session) (sends : List Session.Send) :
    s.SameClient (s.flush now sends) := by
  have hlife := Session.sameLife_flush now s sends
  refine ⟨hlife.kind, fun _ => ?_, fun _ => hlife.queued⟩
  unfold Session.logins
  rw [hlife.taken]

/-- Flushing a session is silent. -/
theorem silent_flushes (x : Exchange) (id : ℕ) (sends : List Session.Send) :
    Silent x (x.tick.modify id fun s => if s.dead then s else s.flush x.nowNs sends) := by
  refine (silent_tick x).trans (silent_modify (fun s => ?_) fun s => ?_)
  · split
    · rfl
    · exact (Session.sameLife_flush _ s sends).id
  · split
    · exact .refl s
    · exact sameClient_flush _ s sends

theorem onSessionEvent_feed (x : Exchange) (id : ℕ) (recvs : Option (List Recv))
    (sends : Option (List Session.Send)) (hup : Bool) :
    FeedMoves x (x.onSessionEvent id recvs sends hup) := by
  have hhup : ∀ y : Exchange,
      FeedMoves y (if hup then y.modify id fun s => { s with dead := true } else y) := by
    intro y
    split
    · exact feedMoves_dies y id
    · exact .refl y
  -- behind the read
  have htail : ∀ y : Exchange, FeedMoves y (y.onSessionEvent id none sends hup) := by
    intro y
    cases sends with
    | none => exact hhup y
    | some sends => exact (silent_flushes y id sends).moves.trans (hhup _)
  cases recvs with
  | none => exact htail x
  | some recvs => exact (readSession_feed id recvs x).trans (htail _)

theorem silent_flushDirtySessions (x : Exchange) (sends : ℕ → List Session.Send) :
    Silent x (x.flushDirtySessions sends) := by
  have hfold : ∀ (ids : List ℕ) (y : Exchange), Silent y (ids.foldl (fun x id => x.tick.modify id
      fun s => ({ s with dirty := false } : Session).flush x.nowNs (sends id)) y) := by
    intro ids
    induction ids with
    | nil => exact Silent.refl
    | cons id ids ih =>
      intro y
      refine Silent.trans ?_ (ih _)
      refine (silent_tick y).trans (silent_modify (fun s => ?_) fun s => ?_)
      · exact (Session.sameLife_flush _ { s with dirty := false } _).id
      · have hclean : s.SameClient { s with dirty := false } := ⟨rfl, fun _ => rfl, fun _ => rfl⟩
        exact hclean.trans (sameClient_flush _ _ _)
  have h := hfold x.dirty x
  exact ⟨h.engine, h.md, h.log, h.orderIds, h.sessionIds, h.clients⟩

theorem watchdog_feed (x : Exchange) (now id : ℕ) : FeedMoves x (x.watchdog now id) := by
  unfold watchdog
  split
  · exact .refl x
  · next s hs =>
    split
    · exact .refl x
    · next hkind =>
      have hentry : x.Entry id := by
        intro s' hs'
        obtain rfl := Option.some.inj (hs.symm.trans hs')
        exact not_not.mp fun hne => hkind (.inl hne)
      split
      · exact feedMoves_dies x id
      · split
        · exact (silent_queueFrame hentry _).moves
        · exact .refl x

/-- **Every action but the opening of a connection is a run of moves.** -/
theorem step_feed (x : Exchange) {a : Action} (ha : a.accepts = 0) : FeedMoves x (x.step a) := by
  cases a with
  | accept kind => cases ha
  | session id recvs sends hup => exact onSessionEvent_feed x id recvs sends hup
  | synth locate =>
    simp only [step]
    split
    · next hlocate => exact synthStep_feed hlocate
    · exact .refl x
  | heartbeat now => exact (FeedMoves.move (.beats x now x.nowNs)).trans (silent_tick _).moves
  | watchdog now id => exact watchdog_feed x now id
  | reap id =>
    simp only [step]
    split
    · exact .refl x
    · split
      · exact closeSession_feed x id
      · exact .refl x
  | flushDirty sends => exact (silent_flushDirtySessions x sends).moves
  | flushFeed => exact (FeedMoves.move (.flushes x x.nowNs)).trans (silent_tick _).moves

end Exchange

end PulseForge
