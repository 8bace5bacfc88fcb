import PulseForge.Analysis.DeskTables
import PulseForge.Analysis.EngineRuns
import PulseForge.Analysis.OuchCodec
import PulseForge.Model.ExchangeLoop

/-!
# The exchange follows the desk

`Exchange.desk` forgets sockets, buffers, clocks and the market data feed. Each function of
the exchange changes the desk in a way this module names; the engine's callbacks are heard
one by one.
-/

set_option autoImplicit false

namespace PulseForge

open Foundation

namespace Exchange

variable {x : Exchange}

/-- What the exchange keeps for its clients. -/
def desk (x : Exchange) : Desk where
  engine := x.engine.abs
  account k := (x.session? k).map Session.account
  nextOrderId := x.nextOrderId
  nextSessionId := x.nextSessionId
  log := x.log
  answers := x.answers

/-! ## Looking sessions up -/

/-- A session is found by its id. -/
theorem session?_id {k : ℕ} {s : Session} (h : x.session? k = some s) : s.id = k := by
  have := List.find?_some h
  simpa using this

/-- Looking a session up after one was written. -/
theorem session?_modify {id : ℕ} {f : Session → Session} (hf : ∀ s, (f s).id = s.id) (k : ℕ) :
    (x.modify id f).session? k = if k = id then (x.session? k).map f else x.session? k := by
  have hp : ((fun s : Session => decide (s.id = k)) ∘ fun s => if s.id = id then f s else s) =
      fun s => decide (s.id = k) := by
    funext s
    simp only [Function.comp_apply]
    split
    · rw [hf]
    · rfl
  rw [session?, modify, List.find?_map, hp]
  cases hfind : x.sessions.find? fun s => decide (s.id = k) with
  | none => simp [session?, hfind]
  | some s =>
    have hs : s.id = k := by simpa using List.find?_some hfind
    simp only [session?, hfind, Option.map_some, hs]
    split <;> rfl

/-- The session that was modified. -/
theorem session?_modify_self {id : ℕ} {f : Session → Session} (hf : ∀ s, (f s).id = s.id) :
    (x.modify id f).session? id = (x.session? id).map f := by
  rw [session?_modify hf, if_pos rfl]

/-- Every table of a session is in order. -/
def TablesWF (x : Exchange) : Prop := ∀ k s, x.session? k = some s → s.orders.WF

/-- A change of one session that keeps its table in order. -/
theorem TablesWF.modify (h : x.TablesWF) {id : ℕ} {f : Session → Session}
    (hf : ∀ s, (f s).id = s.id) (horders : ∀ s, s.orders.WF → (f s).orders.WF) :
    (x.modify id f).TablesWF := by
  intro k s hs
  rw [session?_modify hf] at hs
  split_ifs at hs
  · obtain ⟨s₀, hs₀, rfl⟩ := Option.map_eq_some_iff.mp hs
    exact horders s₀ (h k s₀ hs₀)
  · exact h k s hs

/-- A write that changes the account by `g`. -/
theorem desk_modify {id : ℕ} {f : Session → Session} {g : Account → Account}
    (hf : ∀ s, (f s).id = s.id) (hg : ∀ s, x.session? id = some s → (f s).account = g s.account) :
    (x.modify id f).desk = x.desk.update id g := by
  have hacc : (fun k => ((x.modify id f).session? k).map Session.account) =
      fun k => if k = id then ((x.session? k).map Session.account).map g
        else (x.session? k).map Session.account := by
    funext k
    rw [session?_modify hf]
    split
    · next hk =>
      subst hk
      cases hs : x.session? k with
      | none => rfl
      | some s => simp [hg s hs]
    · rfl
  show Desk.mk _ _ _ _ _ _ = Desk.mk _ _ _ _ _ _
  rw [hacc]
  rfl

/-- An update that changes nothing. -/
theorem update_id (d : Desk) (id : ℕ) : d.update id (fun a => a) = d := by
  cases d
  simp [Desk.update]

/-- A write that the client's account does not show. -/
theorem desk_modify_same {id : ℕ} {f : Session → Session} (hf : ∀ s, (f s).id = s.id)
    (hg : ∀ s, x.session? id = some s → (f s).account = s.account) :
    (x.modify id f).desk = x.desk := by
  rw [desk_modify (g := fun a => a) hf hg, update_id]

/-! ## Output -/

/-- Time passes and the desk stays. -/
@[simp] theorem desk_tick (x : Exchange) : x.tick.desk = x.desk := rfl

/-- A step that the desk and the engine do not show. -/
structure Quiet (x y : Exchange) : Prop where
  desk : y.desk = x.desk
  engine : y.engine = x.engine
  tables : x.TablesWF → y.TablesWF

theorem Quiet.refl (x : Exchange) : Quiet x x := ⟨rfl, rfl, id⟩

theorem Quiet.trans {y z : Exchange} (h : Quiet x y) (h' : Quiet y z) : Quiet x z :=
  ⟨h'.desk.trans h.desk, h'.engine.trans h.engine, fun ht => h'.tables (h.tables ht)⟩

theorem quiet_tick (x : Exchange) : Quiet x x.tick := ⟨rfl, rfl, id⟩

/-- A change of one session that its account does not show. -/
theorem quiet_modify {id : ℕ} {f : Session → Session} (hf : ∀ s, (f s).id = s.id)
    (hg : ∀ s, (f s).account = s.account) (horders : ∀ s, (f s).orders = s.orders) :
    Quiet x (x.modify id f) :=
  ⟨desk_modify_same hf fun s _ => hg s, rfl,
    fun ht => ht.modify hf fun s hs => by rw [horders]; exact hs⟩

theorem quiet_markDirty (x : Exchange) (id : ℕ) : Quiet x (x.markDirty id) := by
  unfold markDirty
  split
  · exact .refl x
  · split
    · exact .refl x
    · have h : Quiet x (x.modify id fun s => { s with dirty := true }) :=
        quiet_modify (fun _ => rfl) (fun _ => rfl) fun _ => rfl
      exact ⟨h.desk, h.engine, h.tables⟩

theorem quiet_publish (x : Exchange) (m : Itch.Message) : Quiet x (x.publish m) := by
  unfold publish
  dsimp only
  split
  · exact ⟨rfl, rfl, id⟩
  · exact .refl x

/-- What a frame says to an order-entry client. -/
def frameReports (f : Soup.Frame) : List Report :=
  ((if f.type = Soup.kSequencedData then Ouch.decodeOutbound f.payload else none).map
    Ouch.Outbound.digest).toList

/-- A frame adds the report it carries. -/
theorem account_queueFrame (s : Session) (f : Soup.Frame) :
    (s.queueFrame f).account = s.account.report (frameReports f) := by
  simp only [Session.account, Session.queueFrame, Session.ouch, Account.report, frameReports,
    List.filterMap_append, List.map_append]
  congr 2
  cases h : (if f.type = Soup.kSequencedData then Ouch.decodeOutbound f.payload else none) with
  | none => simp [h]
  | some m => simp [h]

/-- A change of the desk that leaves the engine alone and the tables in order. -/
structure Changes (x y : Exchange) (d : Desk) : Prop where
  desk : y.desk = d
  engine : y.engine = x.engine
  tables : x.TablesWF → y.TablesWF

/-- A quiet step leaves the desk as it is. -/
theorem Quiet.changes {y : Exchange} (h : Quiet x y) : Changes x y x.desk :=
  ⟨h.desk, h.engine, h.tables⟩

/-- `queue_frame` reports to one session. -/
theorem queueFrame_changes (x : Exchange) (id : ℕ) (f : Soup.Frame) :
    Changes x (x.queueFrame id f) (x.desk.update id fun a => a.report (frameReports f)) := by
  have hmod : (x.modify id fun s => s.queueFrame f).desk =
      x.desk.update id fun a => a.report (frameReports f) :=
    desk_modify (fun _ => rfl) fun s _ => account_queueFrame s f
  have htab : x.TablesWF → (x.modify id fun s => s.queueFrame f).TablesWF :=
    fun ht => ht.modify (fun _ => rfl) fun _ hs => hs
  have hq := quiet_markDirty (x.modify id fun s => s.queueFrame f) id
  exact ⟨hq.desk.trans hmod, hq.engine, fun ht => hq.tables (htab ht)⟩

/-- **A report** reaches the account of its session. -/
theorem queueOuch_changes (x : Exchange) (id : ℕ) (m : Ouch.Outbound) :
    Changes x (x.queueOuch id m) (x.desk.update id fun a => a.report [m.digest]) := by
  have hbytes := Ouch.encodeOutbound_eq m.len_le_max
  have hpos : 0 < (Ouch.encodeOutbound m Ouch.kMaxMessageLen).length := by
    rw [hbytes, m.length_layout]
    cases m <;> simp [Ouch.Outbound.len]
  have hreports : frameReports ⟨Soup.kSequencedData, Ouch.encodeOutbound m Ouch.kMaxMessageLen⟩ =
      [m.digest] := by
    simp [frameReports, hbytes, Ouch.decodeOutbound_layout]
  have hq := queueFrame_changes x id ⟨Soup.kSequencedData, Ouch.encodeOutbound m Ouch.kMaxMessageLen⟩
  rw [hreports] at hq
  rw [queueOuch, if_pos hpos]
  set y := x.queueFrame id ⟨Soup.kSequencedData, Ouch.encodeOutbound m Ouch.kMaxMessageLen⟩
  have hseq : Quiet y (y.modify id fun s => { s with outSeq := s.outSeq + 1 }) :=
    quiet_modify (fun _ => rfl) (fun _ => rfl) fun _ => rfl
  exact ⟨hseq.desk.trans hq.desk, hseq.engine.trans hq.engine, fun ht => hseq.tables (hq.tables ht)⟩

/-- `send_reject` reports a rejection. -/
theorem sendReject_changes (x : Exchange) (id : ℕ) (userRef : UInt32) (reason : UInt8) :
    Changes x (x.sendReject id userRef reason)
      (x.desk.update id fun a => a.report [.rejected userRef.toNat]) := by
  have h := queueOuch_changes x.tick id (.rejected x.midNow userRef reason x.pendingClordid)
  exact ⟨h.desk, h.engine, h.tables⟩

/-! ## The engine's callbacks -/

/-- An event that is not about the session `k`. -/
theorem hear_silent {k : ℕ} {ev : Event} (hr : ev.reportsTo k = []) (hg : ev.gone k = none)
    (a : Account) : a.hear k ev = a := by
  simp [Account.hear, hr, hg, Account.report]

/-- Erasing an id from a table. -/
theorem FlatIdMap_erase {m : FlatIdMap OrderHandle} (h : m.WF) (key : ℕ) :
    (m.erase key).1.WF ∧ ∀ k, (m.erase key).1.find k = if k = key then none else m.find k := by
  cases hf : m.find key with
  | none =>
    rw [FlatIdMap.erase_of_absent h hf]
    refine ⟨h, fun k => ?_⟩
    split
    · next hk => rw [hk, hf]
    · rfl
  | some v =>
    obtain ⟨m', her, hwf, -, -, hfind⟩ := FlatIdMap.erase_of_mem h hf
    rw [her]
    exact ⟨hwf, hfind⟩

/-- Dropping an entry of a table. -/
theorem erase_changes (ht : x.TablesWF) (id ref : ℕ) :
    Changes x (x.modify id fun s => { s with orders := (s.orders.erase ref).1 })
      (x.desk.update id fun a => a.set ref none) := by
  refine ⟨desk_modify (fun _ => rfl) fun s hs => ?_, rfl, fun ht => ht.modify (fun _ => rfl) fun s hs => ?_⟩
  · simp only [Session.account, Account.set]
    congr 1
    funext r
    exact (FlatIdMap_erase (ht id s hs) ref).2 r
  · exact (FlatIdMap_erase hs ref).1

/-- The desk hears an event that is about at most one session. -/
theorem hear_eq_update {d : Desk} {ev : Event} (k : ℕ)
    (hother : ∀ j, j ≠ k → (d.account j).isSome → ev.reportsTo j = [] ∧ ev.gone j = none) :
    d.hear ev = { d.update k fun a => a.hear k ev with log := d.log ++ [ev] } := by
  have hacc : (fun j => (d.account j).map fun a => a.hear j ev) =
      fun j => if j = k then (d.account j).map (fun a => a.hear k ev) else d.account j := by
    funext j
    split
    · next hj => rw [hj]
    · next hj =>
      cases ha : d.account j with
      | none => rfl
      | some a =>
        obtain ⟨hr, hg⟩ := hother j hj (by rw [ha]; rfl)
        rw [Option.map_some, hear_silent hr hg]
  show Desk.mk _ _ _ _ _ _ = Desk.mk _ _ _ _ _ _
  rw [hacc]
  rfl

/-- There is no account to update. -/
theorem update_none {d : Desk} {k : ℕ} (h : d.account k = none) (f : Account → Account) :
    d.update k f = d := by
  have hacc : (fun j => if j = k then (d.account j).map f else d.account j) = d.account := by
    funext j
    split
    · next hj => rw [hj, h]; rfl
    · rfl
  cases d
  simp only [Desk.update] at *
  rw [hacc]

theorem Changes.trans {y z : Exchange} {d d' : Desk} (h : Changes x y d) (h' : Changes y z d') :
    Changes x z d' :=
  ⟨h'.desk, h'.engine.trans h.engine, fun ht => h'.tables (h.tables ht)⟩

/-- What is done for the session of an owner, if there is one. -/
theorem forOwner_changes (h0 : x.session? 0 = none) (owner : ℕ) {f : Session → Exchange}
    {g : Account → Account} (hf : ∀ s, s.id = owner → Changes x (f s) (x.desk.update owner g)) :
    Changes x (match x.sessionFor owner with
      | none => x
      | some s => f s) (x.desk.update owner g) := by
  unfold sessionFor
  by_cases hz : owner = 0
  · rw [if_pos hz]
    have : x.desk.account owner = none := by simp [desk, hz, h0]
    rw [update_none this]
    exact (Quiet.refl x).changes
  · rw [if_neg hz]
    cases hs : x.session? owner with
    | none =>
      have : x.desk.account owner = none := by simp [desk, hs]
      rw [update_none this]
      exact (Quiet.refl x).changes
    | some s => exact hf s (session?_id hs)

/-- A number in a field of 32 bits. -/
theorem toNat_ofNat32 (n : ℕ) : (UInt32.ofNat n).toNat = n % 2 ^ 32 := UInt32.toNat_ofNat'

/-- A number in a field of 64 bits. -/
theorem toNat_ofNat64 (n : ℕ) : (UInt64.ofNat n).toNat = n % 2 ^ 64 := UInt64.toNat_ofNat'

/-- Two updates of one account. -/
theorem update_update (d : Desk) (k : ℕ) (f g : Account → Account) :
    (d.update k f).update k g = d.update k fun a => g (f a) := by
  simp only [Desk.update]
  congr 1
  funext j
  split
  · rw [Option.map_map]
    rfl
  · rfl

/-- `send_exec` reports an execution. -/
theorem sendExec_changes (x : Exchange) (id : ℕ) (ts : UInt64) (userRef : ℕ) (f : Fill)
    (liquidity : UInt8) : Changes x (x.sendExec id ts userRef f liquidity)
      (x.desk.update id fun a => a.report
        [.executed (userRef % 2 ^ 32) (f.qty % 2 ^ 32) (f.matchNumber % 2 ^ 64)]) := by
  have h := queueOuch_changes x id (.executed ts (UInt32.ofNat userRef) (UInt32.ofNat f.qty)
    (Int64.ofInt f.price) liquidity (UInt64.ofNat f.matchNumber))
  simp only [Ouch.Outbound.digest, toNat_ofNat32, toNat_ofNat64] at h
  exact h

/-- `send_canceled` reports a cancellation. -/
theorem sendCanceled_changes (x : Exchange) (id : ℕ) (ts : UInt64) (userRef qty : ℕ)
    (reason : UInt8) : Changes x (x.sendCanceled id ts userRef qty reason)
      (x.desk.update id fun a => a.report [.canceled (userRef % 2 ^ 32) (qty % 2 ^ 32)]) := by
  have h := queueOuch_changes x id (.canceled ts (UInt32.ofNat userRef) (UInt32.ofNat qty) reason)
  simp only [Ouch.Outbound.digest, toNat_ofNat32] at h
  exact h

/-- Dropping the entry of an order that goes, after its report. -/
theorem dropIf_changes {y : Exchange} {id : ℕ} (ref : ℕ) {g : Account → Account}
    (h : Changes x y (x.desk.update id g)) (ht : x.TablesWF) (gone : Prop) [Decidable gone] :
    Changes x (if gone then y.modify id fun s => { s with orders := (s.orders.erase ref).1 } else y)
      (x.desk.update id fun a => if gone then (g a).set ref none else g a) := by
  split
  · have her := erase_changes (h.tables ht) id ref
    rw [h.desk, update_update] at her
    exact h.trans her
  · exact h

/-- `on_accepted` reports to the owner. -/
theorem onAccepted_changes (h0 : x.session? 0 = none) (e : MatchingEngine) (locate : ℕ)
    (req : OrderRequest) : Changes x (x.onAccepted e locate req)
      (x.desk.update req.owner fun a => a.report ((Event.accepted locate req).reportsTo req.owner)) := by
  refine forOwner_changes h0 req.owner fun s hs => ?_
  have h := queueOuch_changes x.tick s.id (.accepted x.midNow (UInt32.ofNat req.userRef) req.side
      (UInt32.ofNat req.qty) (e.symbol locate) (Int64.ofInt req.price) req.tif
      (UInt64.ofNat req.id) x.pendingClordid 76)
  rw [hs] at h ⊢
  simp only [Event.reportsTo, if_true, Ouch.Outbound.digest, toNat_ofNat32] at h ⊢
  exact ⟨h.desk, h.engine, h.tables⟩

/-- `on_rejected` reports to the owner. -/
theorem onRejected_changes (h0 : x.session? 0 = none) (locate : ℕ) (req : OrderRequest)
    (why : RejectReason) : Changes x (x.onRejected req why)
      (x.desk.update req.owner fun a =>
        a.report ((Event.rejected locate req why).reportsTo req.owner)) := by
  refine forOwner_changes h0 req.owner fun s hs => ?_
  have h := sendReject_changes x s.id (UInt32.ofNat req.userRef) (rejectCode why)
  rw [hs] at h ⊢
  simp only [Event.reportsTo, if_true, toNat_ofNat32] at h ⊢
  exact h

/-- `on_taker_cancelled` reports to the owner. -/
theorem onTakerCancelled_changes (h0 : x.session? 0 = none) (locate : ℕ) (req : OrderRequest)
    (cancelled : ℕ) (why : CancelReason) : Changes x (x.onTakerCancelled req cancelled why)
      (x.desk.update req.owner fun a =>
        a.report ((Event.takerCancelled locate req cancelled why).reportsTo req.owner)) := by
  refine forOwner_changes h0 req.owner fun s hs => ?_
  have h := sendCanceled_changes x.tick s.id x.midNow req.userRef cancelled (cancelCode why)
  rw [hs] at h ⊢
  simp only [Event.reportsTo, if_true]
  exact ⟨h.desk, h.engine, h.tables⟩

/-- The synthetic flow has no session. -/
theorem session?_zero_of_desk {y : Exchange} (h0 : x.session? 0 = none) (hd : y.desk.account 0 = none ↔
    x.desk.account 0 = none) : y.session? 0 = none := by
  have hx : x.desk.account 0 = none := by simp [desk, h0]
  simpa [desk] using hd.mpr hx

/-- `on_resting_cancelled` reports to the owner and drops its entry. -/
theorem onRestingCancelled_changes (h0 : x.session? 0 = none) (ht : x.TablesWF) (locate : ℕ)
    (before : BookOrder) (cancelled : ℕ) (why : CancelReason) :
    Changes x (x.onRestingCancelled locate before cancelled why)
      (x.desk.update before.owner fun a =>
        a.hear before.owner (.restingCancelled locate before cancelled why)) := by
  have hq : Quiet x (x.tick.publish (cancelMessage locate x.midNow before cancelled)) :=
    (quiet_tick x).trans (quiet_publish x.tick _)
  unfold onRestingCancelled
  dsimp only
  set y := x.tick.publish (cancelMessage locate x.midNow before cancelled) with hy
  have hy0 : y.session? 0 = none := session?_zero_of_desk h0 (by rw [hq.desk])
  have hhear : (fun a : Account => a.hear before.owner
      (.restingCancelled locate before cancelled why)) = fun a =>
      if cancelled = before.qty then
        (a.report [.canceled (before.userRef % 2 ^ 32) (cancelled % 2 ^ 32)]).set before.userRef none
      else a.report [.canceled (before.userRef % 2 ^ 32) (cancelled % 2 ^ 32)] := by
    funext a
    by_cases hall : cancelled = before.qty <;>
      simp [Account.hear, Event.reportsTo, Event.gone, hall]
  rw [hhear, ← hq.desk]
  refine hq.changes.trans (forOwner_changes hy0 before.owner fun s hs => ?_)
  have h := sendCanceled_changes y s.id x.midNow before.userRef cancelled (cancelCode why)
  rw [hs] at h ⊢
  exact dropIf_changes before.userRef h (hq.tables ht) _

/-- An update opens no account. -/
theorem update_account_none (d : Desk) (k : ℕ) (f : Account → Account) (j : ℕ) :
    (d.update k f).account j = none ↔ d.account j = none := by
  rw [← Option.not_isSome_iff_eq_none, Desk.update_isSome, Option.not_isSome_iff_eq_none]

/-- `on_fill` reports to both owners and drops the entry of an order that is done. -/
theorem onFill_changes (h0 : x.session? 0 = none) (ht : x.TablesWF) (locate : ℕ) (f : Fill) :
    Changes x (x.onFill locate f)
      ((x.desk.update f.makerOwner fun a =>
        if f.makerRemaining = 0 then
          (a.report [.executed (f.makerUserRef % 2 ^ 32) (f.qty % 2 ^ 32)
            (f.matchNumber % 2 ^ 64)]).set f.makerUserRef none
        else a.report [.executed (f.makerUserRef % 2 ^ 32) (f.qty % 2 ^ 32)
          (f.matchNumber % 2 ^ 64)]).update f.takerOwner fun a =>
        a.report [.executed (f.takerUserRef % 2 ^ 32) (f.qty % 2 ^ 32) (f.matchNumber % 2 ^ 64)]) := by
  have hq : Quiet x (x.tick.publish (executedMessage locate x.midNow f)) :=
    (quiet_tick x).trans (quiet_publish x.tick _)
  unfold onFill
  dsimp only
  set y := x.tick.publish (executedMessage locate x.midNow f) with hy
  have hy0 : y.session? 0 = none := session?_zero_of_desk h0 (by rw [hq.desk])
  have hmaker := forOwner_changes hy0 f.makerOwner (f := fun s =>
      if f.makerRemaining = 0 then
        (y.sendExec s.id x.midNow f.makerUserRef f Ouch.kAddedLiquidity).modify s.id
          fun s => { s with orders := (s.orders.erase f.makerUserRef).1 }
      else y.sendExec s.id x.midNow f.makerUserRef f Ouch.kAddedLiquidity) fun s hs => by
    have h := sendExec_changes y s.id x.midNow f.makerUserRef f Ouch.kAddedLiquidity
    rw [hs] at h ⊢
    exact dropIf_changes f.makerUserRef h (hq.tables ht) (f.makerRemaining = 0)
  rw [hq.desk] at hmaker
  set z := (match y.sessionFor f.makerOwner with
    | none => y
    | some s =>
      if f.makerRemaining = 0 then
        (y.sendExec s.id x.midNow f.makerUserRef f Ouch.kAddedLiquidity).modify s.id
          fun s => { s with orders := (s.orders.erase f.makerUserRef).1 }
      else y.sendExec s.id x.midNow f.makerUserRef f Ouch.kAddedLiquidity) with hz
  have hz0 : z.session? 0 = none := by
    refine session?_zero_of_desk h0 ?_
    rw [hmaker.desk, update_account_none]
  rw [← hmaker.desk]
  refine (hq.changes.trans hmaker).trans (forOwner_changes hz0 f.takerOwner fun s hs => ?_)
  have h := sendExec_changes z s.id x.midNow f.takerUserRef f Ouch.kRemovedLiquidity
  rw [hs] at h ⊢
  exact h

/-- The two sides of a fill hear of it. -/
theorem hear_fill (d : Desk) (locate : ℕ) (f : Fill) :
    d.hear (.fill locate f) = { (d.update f.makerOwner fun a =>
        if f.makerRemaining = 0 then
          (a.report [.executed (f.makerUserRef % 2 ^ 32) (f.qty % 2 ^ 32)
            (f.matchNumber % 2 ^ 64)]).set f.makerUserRef none
        else a.report [.executed (f.makerUserRef % 2 ^ 32) (f.qty % 2 ^ 32)
          (f.matchNumber % 2 ^ 64)]).update f.takerOwner fun a =>
        a.report [.executed (f.takerUserRef % 2 ^ 32) (f.qty % 2 ^ 32)
          (f.matchNumber % 2 ^ 64)] with log := d.log ++ [.fill locate f] } := by
  simp only [Desk.update, Desk.hear]
  congr 1
  funext j
  cases d.account j with
  | none => simp
  | some a =>
    simp only [Account.hear, Event.reportsTo, Event.gone, eq_comm (a := j)]
    by_cases hm : f.makerOwner = j <;> by_cases ht : f.takerOwner = j <;>
      by_cases hz : f.makerRemaining = 0 <;>
      simp only [if_pos, if_neg, hm, ht, hz, Account.report, Account.set, Option.map_some,
        not_false_eq_true, and_self, and_false, false_and, List.append_nil, List.append_assoc,
        List.nil_append]

/-- **A callback** is heard at the desk. -/
theorem on_changes (h0 : x.session? 0 = none) (ht : x.TablesWF) (cb : Callback) :
    Changes x (x.on cb) (x.desk.hear cb.event) := by
  set y : Exchange := { x with log := x.log ++ [cb.event] } with hy
  have hy0 : y.session? 0 = none := h0
  have hyt : y.TablesWF := ht
  -- a change of the account of the only session that the event is about
  have hone : ∀ {z : Exchange} (k : ℕ) (g : Account → Account),
      Changes y z (y.desk.update k g) → (∀ a, a.hear k cb.event = g a) →
      (∀ j, j ≠ k → cb.event.reportsTo j = [] ∧ cb.event.gone j = none) →
      Changes x z (x.desk.hear cb.event) := by
    intro z k g hz hg hother
    have hhear : x.desk.hear cb.event = y.desk.update k g := by
      rw [hear_eq_update k fun j hj _ => hother j hj]
      simp only [hg]
      rfl
    rw [hhear]
    exact ⟨hz.desk, hz.engine, hz.tables⟩
  unfold on
  dsimp only
  rw [← hy]
  cases hev : cb.event with
  | accepted locate req =>
    rw [hev] at hone
    refine hone req.owner _ (onAccepted_changes hy0 cb.engine locate req) (fun _ => rfl) ?_
    intro j hj
    exact ⟨if_neg (Ne.symm hj), rfl⟩
  | rejected locate req why =>
    rw [hev] at hone
    refine hone req.owner _ (onRejected_changes hy0 locate req why) (fun _ => rfl) ?_
    intro j hj
    exact ⟨if_neg (Ne.symm hj), rfl⟩
  | fill locate f =>
    have hz := onFill_changes hy0 hyt locate f
    have hhear : x.desk.hear (.fill locate f) = (y.onFill locate f).desk := by
      rw [hz.desk, hear_fill, ← hev]
      rfl
    rw [hhear]
    exact ⟨rfl, hz.engine, hz.tables⟩
  | rested locate o =>
    have hz := (quiet_tick y).trans (quiet_publish y.tick (addMessage locate y.midNow
      (cb.engine.symbol locate) o))
    rw [hev] at hone
    refine hone 0 (fun a => a) ?_ (fun a => hear_silent rfl rfl a) fun j _ => ⟨rfl, rfl⟩
    rw [update_id]
    exact hz.changes
  | restingCancelled locate before cancelled why =>
    rw [hev] at hone
    refine hone before.owner _ (onRestingCancelled_changes hy0 hyt locate before cancelled why)
      (fun _ => rfl) ?_
    intro j hj
    exact ⟨if_neg (Ne.symm hj), if_neg fun h => hj h.1.symm⟩
  | takerCancelled locate req cancelled why =>
    rw [hev] at hone
    refine hone req.owner _ (onTakerCancelled_changes hy0 locate req cancelled why)
      (fun _ => rfl) ?_
    intro j hj
    exact ⟨if_neg (Ne.symm hj), rfl⟩

end Exchange

end PulseForge
