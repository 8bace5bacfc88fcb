import PulseForge.Analysis.SessionTables

/-!
# What happens to a session

One lemma per function of the exchange says what it does to the flags and the output of the
sessions. Everything that the engine reports is `Tells`: sequenced frames join the queues and
nothing else changes. What is left are the moves of the event loop, and every action is a run of
them.
-/

set_option autoImplicit false

namespace PulseForge

/-! ## Told -/

namespace Soup

/-- A frame is appended behind what is there. -/
theorem appendFrame_append (out : Bytes) (f : Frame) : appendFrame out f = out ++ appendFrame [] f := by
  simp [appendFrame]

/-- The bytes of some frames. -/
def wire (fs : List Frame) : Bytes := (fs.map (appendFrame [])).flatten

/-- The bytes of two lists of frames. -/
@[simp] theorem wire_append (fs gs : List Frame) : wire (fs ++ gs) = wire fs ++ wire gs := by
  simp [wire]

@[simp] theorem wire_singleton (f : Frame) : wire [f] = appendFrame [] f := by
  simp [wire]

end Soup

namespace Session

/-- **The session was told something**: sequenced frames were queued behind the others, and it is
dirty if there are any. -/
structure Told (s s' : Session) : Prop where
  id : s'.id = s.id
  kind : s'.kind = s.kind
  loggedIn : s'.loggedIn = s.loggedIn
  closeAfterFlush : s'.closeAfterFlush = s.closeAfterFlush
  dead : s'.dead = s.dead
  wantWrite : s'.wantWrite = s.wantWrite
  outOff : s'.outOff = s.outOff
  taken : s'.taken = s.taken
  sent : s'.sent = s.sent
  reader : s'.reader = s.reader
  dirty : s.dirty = true → s'.dirty = true
  queued : ∃ fs : List Soup.Frame, (∀ f ∈ fs, f.type = Soup.kSequencedData) ∧
    s'.queued = s.queued ++ fs ∧ s'.out = s.out ++ Soup.wire fs ∧ (fs ≠ [] → s'.dirty = true)

theorem Told.refl (s : Session) : Told s s :=
  ⟨rfl, rfl, rfl, rfl, rfl, rfl, rfl, rfl, rfl, rfl, fun h => h,
    [], fun _ hf => absurd hf List.not_mem_nil, by simp, by simp [Soup.wire], fun h => absurd rfl h⟩

theorem Told.trans {s s' s'' : Session} (h : Told s s') (h' : Told s' s'') : Told s s'' := by
  obtain ⟨fs, htype, hqueued, hout, hdirty⟩ := h.queued
  obtain ⟨gs, htype', hqueued', hout', hdirty'⟩ := h'.queued
  refine ⟨h'.id.trans h.id, h'.kind.trans h.kind, h'.loggedIn.trans h.loggedIn,
    h'.closeAfterFlush.trans h.closeAfterFlush, h'.dead.trans h.dead,
    h'.wantWrite.trans h.wantWrite, h'.outOff.trans h.outOff, h'.taken.trans h.taken,
    h'.sent.trans h.sent, h'.reader.trans h.reader, fun hd => h'.dirty (h.dirty hd), fs ++ gs,
    fun f hf => ?_, ?_, ?_, fun hne => ?_⟩
  · rcases List.mem_append.mp hf with hf | hf
    · exact htype f hf
    · exact htype' f hf
  · rw [hqueued', hqueued, List.append_assoc]
  · rw [hout', hout, Soup.wire_append, List.append_assoc]
  · rcases eq_or_ne gs [] with rfl | hgs
    · exact h'.dirty (hdirty (by simpa using hne))
    · exact hdirty' hgs

end Session

namespace Exchange

variable {x y z : Exchange}

/-- Every dirty session is on the list. -/
def Listed (x : Exchange) : Prop := ∀ k s, x.session? k = some s → s.dirty = true → k ∈ x.dirty

/-- **The sessions were told something.** -/
structure Tells (x y : Exchange) : Prop where
  each : ∀ k, Option.Rel Session.Told (x.session? k) (y.session? k)
  listed : x.Listed → y.Listed

/-- A session is related to itself. -/
theorem rel_refl (o : Option Session) : Option.Rel Session.Told o o := by
  cases o with
  | none => exact .none
  | some s => exact .some (.refl s)

/-- Nothing that the sessions see. -/
theorem Tells.of_eq (hsessions : y.sessions = x.sessions) (hdirty : y.dirty = x.dirty) :
    Tells x y := by
  have hsame : ∀ k, y.session? k = x.session? k := fun k => by rw [session?, hsessions, session?]
  refine ⟨fun k => ?_, fun h k s hs hd => ?_⟩
  · rw [hsame]
    exact rel_refl _
  · rw [hdirty]
    exact h k s (hsame k ▸ hs) hd

theorem Tells.refl (x : Exchange) : Tells x x := .of_eq rfl rfl

theorem Tells.trans (h : Tells x y) (h' : Tells y z) : Tells x z := by
  refine ⟨fun k => ?_, fun hl => h'.listed (h.listed hl)⟩
  have hone := h.each k
  have htwo := h'.each k
  generalize x.session? k = ox at hone
  generalize y.session? k = oy at hone htwo
  generalize z.session? k = oz at htwo
  cases hone with
  | none =>
    cases htwo with
    | none => exact .none
  | some hs =>
    cases htwo with
    | some hs' => exact .some (hs.trans hs')

/-- A change of one session that only tells it something. -/
theorem tells_modify {id : ℕ} {f : Session → Session} (hf : ∀ s, Session.Told s (f s))
    (hdirty : ∀ s, (f s).dirty = s.dirty) : Tells x (x.modify id f) := by
  have hfind := fun k => @session?_modify x id f (fun s => (hf s).id) k
  refine ⟨fun k => ?_, fun h k s hs hd => ?_⟩
  · rw [hfind]
    split
    · cases x.session? k with
      | none => exact .none
      | some s => exact .some (hf s)
    · exact rel_refl _
  · rw [hfind] at hs
    split_ifs at hs
    · obtain ⟨s₀, hs₀, rfl⟩ := Option.map_eq_some_iff.mp hs
      exact h k s₀ hs₀ ((hdirty s₀).symm.trans hd)
    · exact h k s hs hd

/-- Told, by `rfl` in everything that it mentions. -/
theorem told_of_eq {s s' : Session} (hid : s'.id = s.id) (hkind : s'.kind = s.kind)
    (hlogged : s'.loggedIn = s.loggedIn) (hclose : s'.closeAfterFlush = s.closeAfterFlush)
    (hdead : s'.dead = s.dead) (hwant : s'.wantWrite = s.wantWrite) (hoff : s'.outOff = s.outOff)
    (htaken : s'.taken = s.taken) (hsent : s'.sent = s.sent) (hreader : s'.reader = s.reader)
    (hdirty : s'.dirty = s.dirty) (hqueued : s'.queued = s.queued) (hout : s'.out = s.out) :
    Session.Told s s' :=
  ⟨hid, hkind, hlogged, hclose, hdead, hwant, hoff, htaken, hsent, hreader,
    fun h => hdirty.trans h, [], fun _ hf => absurd hf List.not_mem_nil, by simp [hqueued], by simp [hout, Soup.wire],
    fun h => absurd rfl h⟩

/-! ## Queueing -/

/-- **`queue_frame`** queues a frame for one session and marks it. -/
theorem queueFrame_session? (x : Exchange) (id : ℕ) (f : Soup.Frame) (k : ℕ) :
    (x.queueFrame id f).session? k = if k = id then
      (x.session? k).map fun s => { s.queueFrame f with dirty := true } else x.session? k := by
  have hmod := fun k => @session?_modify x id (fun s => s.queueFrame f) (fun _ => rfl) k
  unfold queueFrame markDirty
  rw [hmod, if_pos rfl]
  cases hs : x.session? id with
  | none =>
    dsimp only [Option.map_none]
    rw [hmod]
    split
    · next hk => rw [hk, hs]; rfl
    · rfl
  | some s =>
    dsimp only [Option.map_some]
    split
    · next hd =>
      rw [hmod]
      split
      · next hk =>
        rw [hk, hs, Option.map_some, Option.map_some, ← hd]
      · rfl
    · have hmark := @session?_modify (x.modify id fun s => s.queueFrame f) id
        (fun s => { s with dirty := true }) (fun _ => rfl) k
      refine hmark.trans ?_
      rw [hmod]
      split
      · rw [Option.map_map]
        rfl
      · rfl

/-- A session that waits for the loop keeps waiting. -/
theorem mem_dirty_queueFrame (x : Exchange) (id : ℕ) (f : Soup.Frame) {j : ℕ} (h : j ∈ x.dirty) :
    j ∈ (x.queueFrame id f).dirty := by
  unfold queueFrame markDirty
  split
  · exact h
  · split
    · exact h
    · exact List.mem_append_left _ h

/-- `queue_frame` lists the session it marks. -/
theorem listed_queueFrame (h : x.Listed) (id : ℕ) (f : Soup.Frame) :
    (x.queueFrame id f).Listed := by
  intro k s hs hd
  by_cases hk : k = id
  · subst hk
    rw [queueFrame_session?, if_pos rfl] at hs
    obtain ⟨s₀, hs₀, rfl⟩ := Option.map_eq_some_iff.mp hs
    have hmod : (x.modify k fun s => s.queueFrame f).session? k = some (s₀.queueFrame f) := by
      rw [@session?_modify_self x k (fun s => s.queueFrame f) fun _ => rfl, hs₀]
      rfl
    unfold queueFrame markDirty
    rw [hmod]
    dsimp only
    split
    · next hdirty => exact h k s₀ hs₀ hdirty
    · exact List.mem_append_right _ (List.mem_singleton.mpr rfl)
  · rw [queueFrame_session?, if_neg hk] at hs
    exact mem_dirty_queueFrame x id f (h k s hs hd)

/-- A sequenced frame. -/
theorem tells_queueFrame (x : Exchange) (id : ℕ) (p : Bytes) :
    Tells x (x.queueFrame id ⟨Soup.kSequencedData, p⟩) := by
  refine ⟨fun k => ?_, fun h => listed_queueFrame h id _⟩
  rw [queueFrame_session?]
  split
  · cases x.session? k with
    | none => exact .none
    | some s =>
      refine .some ⟨rfl, rfl, rfl, rfl, rfl, rfl, rfl, rfl, rfl, rfl, fun _ => rfl,
        [⟨Soup.kSequencedData, p⟩], fun f hf => ?_, rfl, ?_, fun _ => rfl⟩
      · rw [List.mem_singleton.mp hf]
      · rw [Soup.wire_singleton]
        exact Soup.appendFrame_append _ _
  · exact rel_refl _

theorem tells_tick (x : Exchange) : Tells x x.tick := .of_eq rfl rfl

/-- A message is told. -/
theorem tells_queueOuch (x : Exchange) (id : ℕ) (m : Ouch.Outbound) : Tells x (x.queueOuch id m) := by
  unfold queueOuch
  dsimp only
  split
  · refine (tells_queueFrame x id _).trans (tells_modify (fun s => ?_) fun _ => rfl)
    exact told_of_eq rfl rfl rfl rfl rfl rfl rfl rfl rfl rfl rfl rfl rfl
  · exact .refl x

theorem tells_sendReject (x : Exchange) (id : ℕ) (userRef : UInt32) (reason : UInt8) :
    Tells x (x.sendReject id userRef reason) :=
  (tells_tick x).trans (tells_queueOuch _ _ _)

theorem tells_publish (x : Exchange) (m : Itch.Message) : Tells x (x.publish m) := by
  unfold publish
  dsimp only
  split
  · exact .of_eq rfl rfl
  · exact .refl x

/-! ## The engine's listener -/

/-- An order leaves the table of its session. -/
theorem tells_orders (x : Exchange) (id : ℕ) (g : Session → FlatIdMap OrderHandle) :
    Tells x (x.modify id fun s => { s with orders := g s }) :=
  tells_modify (fun _ => told_of_eq rfl rfl rfl rfl rfl rfl rfl rfl rfl rfl rfl rfl rfl) fun _ => rfl

/-- What the maker of a fill is told. -/
theorem tells_maker (x : Exchange) (ts : UInt64) (f : Fill) :
    Tells x (match x.sessionFor f.makerOwner with
      | none => x
      | some s =>
        let x := x.sendExec s.id ts f.makerUserRef f Ouch.kAddedLiquidity
        if f.makerRemaining = 0 then
          x.modify s.id fun s => { s with orders := (s.orders.erase f.makerUserRef).1 }
        else x) := by
  split
  · exact .refl x
  · next s hs =>
    dsimp only
    split
    · exact (tells_queueOuch _ _ _).trans (tells_orders _ _ _)
    · exact tells_queueOuch _ _ _

/-- `on_fill` tells both owners. -/
theorem tells_onFill (x : Exchange) (locate : ℕ) (f : Fill) : Tells x (x.onFill locate f) := by
  unfold onFill
  dsimp only
  have hfirst : Tells x (x.tick.publish (executedMessage locate x.midNow f)) :=
    (tells_tick x).trans (tells_publish _ _)
  have hsecond := hfirst.trans (tells_maker _ x.midNow f)
  split
  · exact hsecond
  · exact hsecond.trans (tells_queueOuch _ _ _)

theorem tells_onRestingCancelled (x : Exchange) (locate : ℕ) (before : BookOrder) (cancelled : ℕ)
    (why : CancelReason) : Tells x (x.onRestingCancelled locate before cancelled why) := by
  unfold onRestingCancelled
  dsimp only
  have hfirst : Tells x (x.tick.publish (cancelMessage locate x.midNow before cancelled)) :=
    (tells_tick x).trans (tells_publish _ _)
  split
  · exact hfirst
  · split
    · exact (hfirst.trans (tells_queueOuch _ _ _)).trans (tells_orders _ _ _)
    · exact hfirst.trans (tells_queueOuch _ _ _)

/-- **A callback of the engine** only tells. -/
theorem tells_on (x : Exchange) (cb : Callback) : Tells x (x.on cb) := by
  unfold on
  dsimp only
  have hlog : Tells x { x with log := x.log ++ [cb.event] } := .of_eq rfl rfl
  refine hlog.trans ?_
  split
  · unfold onAccepted
    split
    · exact .refl _
    · exact (tells_tick _).trans (tells_queueOuch _ _ _)
  · unfold onRejected
    split
    · exact .refl _
    · exact tells_sendReject _ _ _ _
  · exact tells_onFill _ _ _
  · exact (tells_tick _).trans (tells_publish _ _)
  · exact tells_onRestingCancelled _ _ _ _ _
  · unfold onTakerCancelled
    split
    · exact .refl _
    · exact (tells_tick _).trans (tells_queueOuch _ _ _)

theorem tells_foldl_on (cbs : List Callback) (x : Exchange) : Tells x (cbs.foldl on x) := by
  induction cbs generalizing x with
  | nil => exact .refl x
  | cons cb cbs ih => exact (tells_on x cb).trans (ih _)

/-- A submit tells the owners. -/
theorem tells_submit (x : Exchange) (locate : ℕ) (req : OrderRequest) :
    Tells x (x.submit locate req) := by
  unfold submit
  split
  · exact .refl x
  · exact (tells_foldl_on _ x).trans (.of_eq rfl rfl)

theorem tells_cancel (x : Exchange) (locate id newQty owner : ℕ) (why : CancelReason) :
    Tells x (x.cancel locate id newQty owner why) := by
  unfold cancel
  dsimp only
  exact (tells_foldl_on _ x).trans (.of_eq rfl rfl)

/-! ## Orders -/

theorem tells_handleEnter (x : Exchange) (s : Session) (m : Ouch.EnterOrder) :
    Tells x (x.handleEnter s m) := by
  unfold handleEnter
  dsimp only
  have hpending : Tells x { x with pendingClordid := m.clordid } := .of_eq rfl rfl
  refine hpending.trans ?_
  split
  · exact tells_sendReject _ _ _ _
  · set x₁ := ({ x with pendingClordid := m.clordid } : Exchange).modify s.id
      fun s => { s with lastUserRef := m.userRef.toNat } with hx₁
    have href : Tells { x with pendingClordid := m.clordid } x₁ :=
      tells_modify (fun _ => told_of_eq rfl rfl rfl rfl rfl rfl rfl rfl rfl rfl rfl rfl rfl) fun _ => rfl
    refine href.trans ?_
    split
    · exact tells_sendReject _ _ _ _
    · have hnext : Tells x₁ { x₁ with nextOrderId := x₁.nextOrderId + 1 } := .of_eq rfl rfl
      refine hnext.trans ?_
      split
      · exact tells_sendReject _ _ _ _
      · next orders _ =>
        refine (tells_orders _ s.id fun _ => orders).trans ?_
        split
        · exact (tells_submit _ _ _).trans (tells_orders _ _ _)
        · exact tells_submit _ _ _

theorem tells_handleCancel (x : Exchange) (s : Session) (m : Ouch.CancelOrder) :
    Tells x (x.handleCancel s m) := by
  unfold handleCancel
  split
  · exact .refl x
  · exact tells_cancel _ _ _ _ _ _

/-! ## Synthetic flow -/

theorem tells_below (x : Exchange) (n : UInt64) : Tells x (x.below n).2 := .of_eq rfl rfl

theorem tells_coin (x : Exchange) : Tells x x.coin.2 := .of_eq rfl rfl

theorem tells_setSynth (x : Exchange) (locate : ℕ) (st : Synth) : Tells x (x.setSynth locate st) :=
  .of_eq rfl rfl

theorem tells_walkFair (x : Exchange) (bc : BookConfig) (fair : ℤ) :
    Tells x (x.walkFair bc fair).2 := by
  unfold walkFair
  dsimp only
  split
  · exact (tells_below x 100).trans (tells_coin _)
  · exact tells_below x 100

theorem tells_synthPassive (x : Exchange) (locate : ℕ) (tick fair : ℤ) :
    Tells x (x.synthPassive locate tick fair) := by
  unfold synthPassive
  dsimp only
  have hrandom : Tells x ((x.coin.2.below 8).2.below 5).2 :=
    ((tells_coin x).trans (tells_below _ 8)).trans (tells_below _ 5)
  have hnext : ∀ y : Exchange, Tells y { y with nextOrderId := y.nextOrderId + 1 } :=
    fun _ => .of_eq rfl rfl
  generalize (if x.coin.1 = true then Side.buy else Side.sell) = side
  generalize (if side = Side.buy then fair - ↑(1 + (x.coin.2.below 8).1) * tick
    else fair + ↑(1 + (x.coin.2.below 8).1) * tick) = price
  split
  · exact ((hrandom.trans (hnext _)).trans (tells_submit _ _ _)).trans (tells_setSynth _ _ _)
  · exact (hrandom.trans (hnext _)).trans (tells_submit _ _ _)

theorem tells_synthCancel (x : Exchange) (locate : ℕ) : Tells x (x.synthCancel locate) := by
  unfold synthCancel
  dsimp only
  set x₁ := (x.below (UInt64.ofNat (x.synthOf locate).live.length)).2 with hx₁
  have hfirst : Tells x x₁ := tells_below x _
  split
  · exact hfirst.trans (tells_setSynth _ _ _)
  · next o ho =>
    have hhalve : Tells x₁ (if 200 ≤ o.qty then
        (x₁.below 3).map (fun r => decide (r = 0)) id else (false, x₁)).2 := by
      split
      · exact tells_below x₁ 3
      · exact .refl x₁
    generalize (if 200 ≤ o.qty then
      (x₁.below 3).map (fun r => decide (r = 0)) id else (false, x₁)) = p at hhalve ⊢
    split
    · exact (hfirst.trans hhalve).trans (tells_cancel _ _ _ _ _ _)
    · exact ((hfirst.trans hhalve).trans (tells_setSynth _ _ _)).trans (tells_cancel _ _ _ _ _ _)

theorem tells_synthAggressive (x : Exchange) (locate : ℕ) (tick fair : ℤ) :
    Tells x (x.synthAggressive locate tick fair) := by
  unfold synthAggressive
  dsimp only
  have hrandom : Tells x (x.coin.2.below 3).2 := (tells_coin x).trans (tells_below _ 3)
  have hnext : ∀ y : Exchange, Tells y { y with nextOrderId := y.nextOrderId + 1 } :=
    fun _ => .of_eq rfl rfl
  exact (hrandom.trans (hnext _)).trans (tells_submit _ _ _)

/-- **`synth_step`** only tells. -/
theorem tells_synthStep (x : Exchange) (locate : ℕ) : Tells x (x.synthStep locate) := by
  unfold synthStep
  dsimp only
  set w := x.walkFair (x.engine.book locate).cfg (x.synthOf locate).fair with hw
  have hfirst : Tells x
      ((w.2.setSynth locate { x.synthOf locate with fair := w.1 }).below 100).2 :=
    ((tells_walkFair x _ _).trans (tells_setSynth _ _ _)).trans (tells_below _ 100)
  split
  · exact hfirst.trans (tells_synthPassive _ _ _ _)
  · split
    · exact hfirst.trans (tells_synthCancel _ _)
    · exact hfirst.trans (tells_synthAggressive _ _ _ _)

/-! ## Moves -/

/-- The state in which a frame is handled: it is off the reader. -/
def takes (x : Exchange) (id : ℕ) (f : Soup.Frame) (reader : Soup.FrameReader) : Exchange :=
  x.modify id fun s => { s with reader := reader, taken := s.taken ++ [f] }

/-- **What can happen to the sessions.** -/
inductive SessionMove : Exchange → Exchange → Prop where
  | tells {x y : Exchange} (h : Tells x y) : SessionMove x y
  | reads (x : Exchange) (id : ℕ) (reader : Soup.FrameReader) (now : Session → ℕ) :
    SessionMove x (x.modify id fun s => { s with reader := reader, lastRxNs := now s })
  | dies (x : Exchange) (id : ℕ) : SessionMove x (x.modify id fun s => { s with dead := true })
  | handles {x : Exchange} {id : ℕ} {s : Session} {f : Soup.Frame} {reader : Soup.FrameReader}
    (hs : x.session? id = some s) : SessionMove x ((x.takes id f reader).handleFrame s f)
  | flushes (x : Exchange) (id now : ℕ) (sends : List Session.Send) :
    SessionMove x (x.modify id fun s => if s.dead then s else s.flush now sends)
  | flushesDirty (x : Exchange) (sends : ℕ → List Session.Send) :
    SessionMove x (x.flushDirtySessions sends)
  | beats (x : Exchange) (id : ℕ) : SessionMove x (x.queueFrame id ⟨Soup.kServerHeartbeat, []⟩)
  | drops (x : Exchange) (id : ℕ) :
    SessionMove x { x with sessions := x.sessions.filter fun s => s.id ≠ id }
  | accepts (x : Exchange) (kind : SessionKind) : SessionMove x (x.accept kind)

/-- Some moves. -/
def SessionMoves : Exchange → Exchange → Prop := Relation.ReflTransGen SessionMove

/-- Telling is a move. -/
theorem SessionMoves.tells (h : Tells x y) : SessionMoves x y := .single (.tells h)

theorem SessionMoves.trans (h : SessionMoves x y) (h' : SessionMoves y z) : SessionMoves x z :=
  Relation.ReflTransGen.trans h h'

theorem SessionMoves.refl (x : Exchange) : SessionMoves x x := Relation.ReflTransGen.refl

/-- A session that dies is a move. -/
theorem SessionMoves.dies (x : Exchange) (id : ℕ) :
    SessionMoves x (x.modify id fun s => { s with dead := true }) :=
  .single (.dies x id)

theorem drainFrames_moves (id fuel : ℕ) (x : Exchange) : SessionMoves x (drainFrames id fuel x).1 := by
  induction fuel generalizing x with
  | zero => exact .refl x
  | succ fuel ih =>
    rw [drainFrames]
    cases hs : x.session? id with
    | none => exact .refl x
    | some s =>
      dsimp only
      split
      · exact .refl x
      · exact .dies x id
      · next f reader hnext =>
        have hhandles : SessionMoves x ((x.takes id f reader).handleFrame s f) :=
          .single (.handles hs)
        split
        · exact hhandles
        · exact hhandles.trans (ih _)

theorem readSession_moves (id : ℕ) (recvs : List Recv) (x : Exchange) :
    SessionMoves x (readSession id recvs x) := by
  induction recvs generalizing x with
  | nil =>
    rw [readSession]
    split
    · exact .refl x
    · next s hs =>
      dsimp only
      have hroom : SessionMoves x (x.modify id fun s' => { s' with reader := s.reader.writePtr }) :=
        .single (.reads x id _ fun s => s.lastRxNs)
      split
      · exact hroom.trans (.dies _ id)
      · exact hroom
  | cons r recvs ih =>
    rw [readSession]
    split
    · exact .refl x
    · next s hs =>
      dsimp only
      have hroom : SessionMoves x (x.modify id fun s' => { s' with reader := s.reader.writePtr }) :=
        .single (.reads x id _ fun s => s.lastRxNs)
      split
      · exact hroom.trans (.dies _ id)
      · cases r with
        | interrupted => exact hroom.trans (ih _)
        | closed => exact hroom.trans (.dies _ id)
        | failed => exact hroom.trans (.dies _ id)
        | data bs =>
          cases bs with
          | nil => exact hroom.trans (.dies _ id)
          | cons b bs =>
            dsimp only
            set y := x.modify id fun s' => { s' with reader := s.reader.writePtr } with hy
            set reader := s.reader.writePtr.commit ((b :: bs).take s.reader.writePtr.writeSpace)
              with hreader
            have hrecv : SessionMoves y
                (y.tick.modify id fun s' => { s' with reader := reader, lastRxNs := y.nowNs }) :=
              (SessionMoves.tells (tells_tick y)).trans
                (.single (.reads _ id reader fun _ => y.nowNs))
            have hdrain := (hroom.trans hrecv).trans (drainFrames_moves id reader.data.length _)
            split
            · next z hz =>
              rw [hz] at hdrain
              exact hdrain.trans (ih _)
            · next z hz =>
              rw [hz] at hdrain
              exact hdrain

theorem closeSession_moves (x : Exchange) (id : ℕ) : SessionMoves x (x.closeSession id) := by
  have hcancel : ∀ (live : List OrderHandle) (y : Exchange),
      Tells y (live.foldl (fun x h => x.cancel h.locate h.id 0 id .supervisory) y) := by
    intro live
    induction live with
    | nil => exact Tells.refl
    | cons h live ih => exact fun y => (tells_cancel y _ _ _ _ _).trans (ih _)
  unfold closeSession
  split
  · exact .refl x
  · exact (SessionMoves.tells (hcancel _ x)).trans (.single (.drops _ id))

theorem onSessionEvent_moves (x : Exchange) (id : ℕ) (recvs : Option (List Recv))
    (sends : Option (List Session.Send)) (hup : Bool) :
    SessionMoves x (x.onSessionEvent id recvs sends hup) := by
  have hhup : ∀ y : Exchange,
      SessionMoves y (if hup then y.modify id fun s => { s with dead := true } else y) := by
    intro y
    split
    · exact .dies y id
    · exact .refl y
  -- behind the read
  have htail : ∀ y : Exchange, SessionMoves y (y.onSessionEvent id none sends hup) := by
    intro y
    cases sends with
    | none => exact hhup y
    | some sends =>
      have hwrite : SessionMoves y
          (y.tick.modify id fun s => if s.dead then s else s.flush y.nowNs sends) :=
        (SessionMoves.tells (tells_tick y)).trans (.single (.flushes _ _ _ _))
      exact hwrite.trans (hhup _)
  cases recvs with
  | none => exact htail x
  | some recvs => exact (readSession_moves id recvs x).trans (htail _)

theorem watchdog_moves (x : Exchange) (now id : ℕ) : SessionMoves x (x.watchdog now id) := by
  unfold watchdog
  split
  · exact .refl x
  · split
    · exact .refl x
    · split
      · exact .dies x id
      · split
        · exact .single (.beats x id)
        · exact .refl x

/-- **Every action is a run of moves.** -/
theorem step_moves (x : Exchange) (a : Action) : SessionMoves x (x.step a) := by
  cases a with
  | accept kind => exact .single (.accepts x kind)
  | session id recvs sends hup => exact onSessionEvent_moves x id recvs sends hup
  | synth locate =>
    simp only [step]
    split
    · exact .tells (tells_synthStep x locate)
    · exact .refl x
  | heartbeat now => exact .tells (.of_eq rfl rfl)
  | watchdog now id => exact watchdog_moves x now id
  | reap id =>
    simp only [step]
    split
    · exact .refl x
    · split
      · exact closeSession_moves x id
      · exact .refl x
  | flushDirty sends => exact .single (.flushesDirty x sends)
  | flushFeed => exact .tells (.of_eq rfl rfl)

/-- **Induction over moves.** -/
theorem SessionMoves.keeps {I : Exchange → Prop}
    (hmove : ∀ x y, I x → SessionMove x y → I y) (h : SessionMoves x y) (hx : I x) : I y := by
  induction h with
  | refl => exact hx
  | tail _ hm ih => exact hmove _ _ ih hm

/-- A run of actions is a run of moves. -/
theorem after_moves (cfg : Config) (clock : Clock) (actions : List Action) :
    SessionMoves (new cfg clock) (after cfg clock actions) := by
  have hfold : ∀ (actions : List Action) (x : Exchange), SessionMoves x (actions.foldl step x) := by
    intro actions
    induction actions with
    | nil => exact SessionMoves.refl
    | cons a actions ih => exact fun x => (step_moves x a).trans (ih _)
  exact hfold actions _

/-- There is no session at the start. -/
theorem session?_new (cfg : Config) (clock : Clock) (k : ℕ) :
    (new cfg clock).session? k = none := by
  obtain ⟨-, -, -, hnone, -⟩ := new_spec cfg clock
  cases hs : (new cfg clock).session? k with
  | none => rfl
  | some s =>
    have hsome := account_eq hs
    rw [hnone k] at hsome
    exact nomatch hsome

/-! ## Frames -/

/-- The last frame of a session: it is closed when the frame is sent. -/
def queueLast (x : Exchange) (id : ℕ) (f : Soup.Frame) : Exchange :=
  (x.queueFrame id f).modify id fun s => { s with closeAfterFlush := true }

/-- **The last frame** is queued, and the session closes behind it. -/
theorem queueLast_session? (x : Exchange) (id : ℕ) (f : Soup.Frame) (k : ℕ) :
    (x.queueLast id f).session? k = if k = id then
      (x.session? k).map fun s => { s.queueFrame f with dirty := true, closeAfterFlush := true }
    else x.session? k := by
  unfold queueLast
  rw [@session?_modify (x.queueFrame id f) id (fun s => { s with closeAfterFlush := true })
    (fun _ => rfl), queueFrame_session?]
  split
  · rw [Option.map_map]
    rfl
  · rfl

/-- A change that marks no session keeps the list. -/
theorem listed_modify {id : ℕ} {f : Session → Session} (h : x.Listed) (hid : ∀ s, (f s).id = s.id)
    (hdirty : ∀ s, (f s).dirty = true → s.dirty = true) : (x.modify id f).Listed := by
  intro k s hs hd
  rw [session?_modify hid] at hs
  split_ifs at hs
  · obtain ⟨s₀, hs₀, rfl⟩ := Option.map_eq_some_iff.mp hs
    exact h k s₀ hs₀ (hdirty s₀ hd)
  · exact h k s hs hd

/-- The last frame lists the session it marks. -/
theorem listed_queueLast (h : x.Listed) (id : ℕ) (f : Soup.Frame) : (x.queueLast id f).Listed :=
  listed_modify (listed_queueFrame h id f) (fun _ => rfl) fun _ hd => hd

/-- A login that is accepted. -/
def acceptLogin (x : Exchange) (id : ℕ) (user p : Bytes) : Exchange :=
  (x.modify id fun s => { s with loggedIn := true, user := user }).queueFrame id
    ⟨Soup.kLoginAccepted, p⟩

/-- **A login that is accepted** is answered, and the session knows its user. -/
theorem acceptLogin_session? (x : Exchange) (id : ℕ) (user p : Bytes) (k : ℕ) :
    (x.acceptLogin id user p).session? k = if k = id then
      (x.session? k).map fun s =>
        { s.queueFrame ⟨Soup.kLoginAccepted, p⟩ with dirty := true, loggedIn := true, user := user }
    else x.session? k := by
  unfold acceptLogin
  rw [queueFrame_session?, @session?_modify x id
    (fun s => { s with loggedIn := true, user := user }) fun _ => rfl]
  split
  · rw [Option.map_map]
    rfl
  · rfl

/-- **A snapshot**: sequenced frames, and the last one. -/
theorem sendSnapshot_eq (x : Exchange) (id : ℕ) :
    ∃ y, Tells x y ∧ x.sendSnapshot id = y.queueLast id ⟨Soup.kEndOfSession, []⟩ := by
  have hfold : ∀ (msgs : List Itch.Message) (y : Exchange), Tells y (msgs.foldl (fun x m =>
      x.queueFrame id ⟨Soup.kSequencedData, Itch.encode m Itch.kMaxMessageLen⟩) y) := by
    intro msgs
    induction msgs with
    | nil => exact Tells.refl
    | cons m msgs ih =>
      intro y
      rw [List.foldl_cons]
      exact (tells_queueFrame y id _).trans (ih _)
  unfold sendSnapshot
  dsimp only
  refine ⟨_, ?_, rfl⟩
  have hfirst : Tells x ({ x with md := x.md.flush x.nowNs } : Exchange).tick.tick := .of_eq rfl rfl
  exact hfirst.trans (hfold _ _)

/-- **What a frame does**, by its type. -/
inductive Handled (x : Exchange) (s : Session) (f : Soup.Frame) : Exchange → Prop where
  | order {y : Exchange} {m : Ouch.Inbound} (hkind : s.kind = .orderEntry)
    (htype : f.type = Soup.kUnsequencedData) (hlogged : s.loggedIn = true)
    (hm : Ouch.decodeInbound f.payload = some m) (htells : Tells x y) : Handled x s f y
  | ignored (hkind : s.kind = .orderEntry →
      f.type ≠ Soup.kLoginRequest ∧ f.type ≠ Soup.kLogoutRequest) : Handled x s f x
  | violated (hkind : s.kind = .orderEntry) (htype : f.type = Soup.kUnsequencedData)
    (hlogged : s.loggedIn = false) : Handled x s f (x.modify s.id fun s => { s with dead := true })
  | refused (hkind : s.kind = .orderEntry) (htype : f.type = Soup.kLoginRequest) :
    Handled x s f (x.queueLast s.id ⟨Soup.kLoginRejected, [65]⟩)
  | login (user p : Bytes) (hkind : s.kind = .orderEntry) (htype : f.type = Soup.kLoginRequest) :
    Handled x s f (x.acceptLogin s.id user p)
  | logout (hkind : s.kind = .orderEntry) (htype : f.type = Soup.kLogoutRequest) :
    Handled x s f (x.queueLast s.id ⟨Soup.kEndOfSession, []⟩)
  | snapshot {y : Exchange} (hkind : s.kind = .snapshot) (htells : Tells x y) :
    Handled x s f (y.queueLast s.id ⟨Soup.kEndOfSession, []⟩)

/-- What a login request comes to. -/
theorem handled_login (x : Exchange) {s : Session} {f : Soup.Frame} (hkind : s.kind = .orderEntry)
    (htype : f.type = Soup.kLoginRequest) : Handled x s f (x.handleLogin s f.payload) := by
  unfold handleLogin
  dsimp only
  split
  · exact .refused hkind htype
  · split
    · exact .refused hkind htype
    · split
      · exact .refused hkind htype
      · exact .login _ _ hkind htype

/-- **`handle_frame`**, case by case. -/
theorem handleFrame_handled (x : Exchange) (s : Session) (f : Soup.Frame) :
    Handled x s f (x.handleFrame s f) := by
  unfold handleFrame
  split
  · next hkind =>
    split
    · obtain ⟨y, htells, heq⟩ := sendSnapshot_eq x s.id
      rw [heq]
      exact .snapshot hkind htells
    · exact .ignored fun h => nomatch hkind.symm.trans h
  · next hkind =>
    split
    · next hlogin => exact handled_login x hkind hlogin
    · next hlogin =>
      split
      · next hdata =>
        split
        · next hlogged => exact .violated hkind hdata hlogged
        · next hlogged =>
          have hlogged : s.loggedIn = true := Bool.eq_true_of_not_eq_false hlogged
          split
          · exact .ignored fun _ => ⟨hlogin, by rw [hdata]; decide⟩
          · next m hm => exact .order hkind hdata hlogged hm (tells_handleEnter x s m)
          · next m hm => exact .order hkind hdata hlogged hm (tells_handleCancel x s m)
      · split
        · next hlogout => exact .logout hkind hlogout
        · next hlogout => exact .ignored fun _ => ⟨hlogin, hlogout⟩

/-- **`accept_all`** opens a session with nothing in it, or does nothing that the sessions see. -/
theorem accept_session? {kind : SessionKind} {k : ℕ} {s : Session}
    (hs : (x.accept kind).session? k = some s) :
    x.session? k = some s ∨
      ∃ orders, s = { id := k, kind := kind, lastRxNs := x.nowNs, orders := orders } := by
  unfold accept at hs
  dsimp only at hs
  split at hs
  · exact .inl hs
  · next orders _ =>
    split at hs
    · exact .inl hs
    · next hfree =>
      set s₀ : Session :=
        { id := x.nextSessionId, kind := kind, lastRxNs := x.nowNs, orders := orders } with hs₀
      have hfind : (x.session? k).or ([s₀].find? fun s => s.id = k) = some s :=
        List.find?_append.symm.trans hs
      rcases Option.or_eq_some_iff.mp hfind with hold | ⟨-, hnew⟩
      · exact .inl hold
      · obtain rfl : s = s₀ := List.mem_singleton.mp (List.mem_of_find?_eq_some hnew)
        have hid := List.find?_some hnew
        simp only [hs₀, decide_eq_true_eq] at hid
        subst hid
        exact .inr ⟨orders, hs₀⟩

/-- A new connection has nothing to be flushed. -/
theorem dirty_accept (x : Exchange) (kind : SessionKind) : (x.accept kind).dirty = x.dirty := by
  unfold accept
  dsimp only
  split
  · rfl
  · split <;> rfl

end Exchange

end PulseForge
