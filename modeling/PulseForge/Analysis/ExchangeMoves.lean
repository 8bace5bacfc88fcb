import PulseForge.Analysis.ExchangeDesk

/-!
# Every action of the exchange is a run of desk moves

One lemma per function of the exchange, from the calls of the engine up to the actions of
the event loop. An action that the clients' accounts do not show is the empty run.
-/

set_option autoImplicit false

namespace PulseForge

open Foundation

namespace MatchingEngine

/-- Callbacks that follow the protocol are steps of the flow. -/
theorem Traced.steps {x y : Flow} {cbs : List Callback} (h : Traced x cbs y) :
    Flow.Steps x (cbs.map Callback.event) y := by
  induction h with
  | nil x => exact .nil x
  | cons hstep habs hwf hbusy _ ih =>
    refine .cons hstep (habs ▸ hwf.abs) (fun hnone => ?_) ih
    rw [hbusy hnone]
    rfl

theorem submit_events_ne_nil (r : RefEngine) (locate : ℕ) (req : OrderRequest) :
    (r.submit locate req).2 ≠ [] := by
  unfold RefEngine.submit
  cases hwhy : r.refusal locate req with
  | some why => simp
  | none =>
    obtain ⟨m, hm, -⟩ := RefEngine.of_accepted hwhy
    rw [hm]
    dsimp only
    split <;> simp

end MatchingEngine

namespace Exchange

variable {x y z : Exchange}

/-- What every function of the exchange keeps. -/
structure Sound (x : Exchange) : Prop where
  engine : x.engine.WF
  zero : x.session? 0 = none
  tables : x.TablesWF

/-- A change that keeps the accounts open keeps the exchange sound. -/
theorem Changes.sound {d : Desk} (h : Changes x y d) (hx : x.Sound)
    (hd : ∀ k, (d.account k).isSome = (x.desk.account k).isSome) : y.Sound := by
  refine ⟨h.engine ▸ hx.engine, ?_, h.tables hx.tables⟩
  refine session?_zero_of_desk hx.zero ?_
  rw [h.desk, ← Option.not_isSome_iff_eq_none, ← Option.not_isSome_iff_eq_none, hd]

/-! ## Calls of the engine -/

/-- The callbacks of a call, heard one after the other. -/
theorem foldl_on_changes (hx : x.Sound) (cbs : List Callback) :
    (cbs.foldl on x).Sound ∧
      Changes x (cbs.foldl on x) ((cbs.map Callback.event).foldl Desk.hear x.desk) := by
  induction cbs generalizing x with
  | nil => exact ⟨hx, (Quiet.refl x).changes⟩
  | cons cb cbs ih =>
    have hon := on_changes hx.zero hx.tables cb
    have hy : (x.on cb).Sound := hon.sound hx (Desk.hear_isSome x.desk cb.event)
    obtain ⟨hsound, hrest⟩ := ih hy
    rw [hon.desk] at hrest
    exact ⟨hsound, hon.trans hrest⟩

/-- **`engine_.submit`** is the desk's submit. -/
theorem submit_desk (hx : x.Sound) (locate : ℕ) (req : OrderRequest) :
    (x.submit locate req).Sound ∧ (x.submit locate req).desk = x.desk.submit locate req ∧
      Desk.Submits x.desk.engine locate req := by
  obtain ⟨e', cbs, hsub, hwf, habs, htr⟩ := MatchingEngine.submit_spec hx.engine locate req
  obtain ⟨hsound, hch⟩ := foldl_on_changes hx cbs
  have habs' : x.engine.abs.submit locate req = (e'.abs, cbs.map Callback.event) := habs.symm
  have hsteps := htr.steps
  refine ⟨?_, ?_, ?_, ?_, ?_⟩
  · rw [submit, hsub]
    exact ⟨hwf, hsound.zero, hsound.tables⟩
  · have hd := hch.desk
    rw [submit, hsub, Desk.submit]
    show ({ (cbs.foldl on x).desk with engine := e'.abs } : Desk) = _
    rw [hd]
    show _ = ({ (x.engine.abs.submit locate req).2.foldl Desk.hear x.desk with
      engine := (x.engine.abs.submit locate req).1 } : Desk)
    rw [habs']
  · show Flow.Steps ⟨x.engine.abs, none⟩ (x.engine.abs.submit locate req).2
      ⟨(x.engine.abs.submit locate req).1, none⟩
    rw [habs']
    exact hsteps
  · exact MatchingEngine.submit_events_ne_nil _ _ _
  · exact MatchingEngine.submit_during _ _ _

/-- **`engine_.cancel`** is the desk's cancel. -/
theorem cancel_desk (hx : x.Sound) (locate id newQty owner : ℕ) (why : CancelReason) :
    (x.cancel locate id newQty owner why).Sound ∧
      (x.cancel locate id newQty owner why).desk = x.desk.cancel locate id newQty owner why := by
  obtain ⟨e', code, cbs, hcan, hwf, habs, -⟩ :=
    MatchingEngine.cancel_spec hx.engine locate id newQty owner why
  obtain ⟨hsound, hch⟩ := foldl_on_changes hx cbs
  have habs' : x.engine.abs.cancel locate id newQty owner why =
      (e'.abs, code, cbs.map Callback.event) := habs.symm
  refine ⟨?_, ?_⟩
  · rw [cancel, hcan]
    exact ⟨hwf, hsound.zero, hsound.tables⟩
  · have hd := hch.desk
    rw [cancel, hcan, Desk.cancel]
    show ({ (cbs.foldl on x).desk with
        engine := e'.abs
        answers := (cbs.foldl on x).desk.answers ++ [(owner, code)] } : Desk) = _
    rw [hd]
    show _ = ({ (x.engine.abs.cancel locate id newQty owner why).2.2.foldl Desk.hear x.desk with
      engine := (x.engine.abs.cancel locate id newQty owner why).1
      answers := ((x.engine.abs.cancel locate id newQty owner why).2.2.foldl Desk.hear
        x.desk).answers ++ [(owner, (x.engine.abs.cancel locate id newQty owner why).2.1)] } : Desk)
    rw [habs']

/-! ## Runs of moves -/

/-- The exchange went from `x` to `y` by moves of the session `k`. -/
structure Follows (k : ℕ) (x y : Exchange) : Prop where
  sound : y.Sound
  moves : Relation.ReflTransGen (Desk.Move k) x.desk y.desk

variable {k : ℕ}

theorem Follows.refl (hx : x.Sound) : Follows k x x := ⟨hx, .refl⟩

theorem Follows.trans (h : Follows k x y) (h' : Follows k y z) : Follows k x z :=
  ⟨h'.sound, h.moves.trans h'.moves⟩

theorem Quiet.follows (h : Quiet x y) (hx : x.Sound) : Follows k x y := by
  refine ⟨h.changes.sound hx fun _ => rfl, ?_⟩
  rw [h.desk]

/-- One move. -/
theorem Follows.of_move (hy : y.Sound) {d : Desk} (hdesk : y.desk = d)
    (hmove : Desk.Move k x.desk d) : Follows k x y :=
  ⟨hy, .single (hdesk ▸ hmove)⟩

theorem report_nil (a : Account) : a.report [] = a := by
  simp [Account.report]

/-- A frame that is no report. -/
theorem quiet_queueFrame (x : Exchange) (id : ℕ) {f : Soup.Frame} (hf : frameReports f = []) :
    Quiet x (x.queueFrame id f) := by
  have h := queueFrame_changes x id f
  have hnil : (fun a : Account => a.report (frameReports f)) = fun a => a := by
    funext a
    rw [hf, report_nil]
  rw [hnil, update_id] at h
  exact ⟨h.desk, h.engine, h.tables⟩

/-- Only sequenced data reports anything. -/
theorem frameReports_of_type {type : UInt8} (hf : type ≠ Soup.kSequencedData) (p : Bytes) :
    frameReports ⟨type, p⟩ = [] := by
  simp [frameReports, hf]

/-! ## Frames of order-entry sessions -/

/-- A login is quiet. -/
theorem quiet_handleLogin (x : Exchange) (s : Session) (p : Bytes) :
    Quiet x (x.handleLogin s p) := by
  have hrefuse : Quiet x ((x.queueFrame s.id ⟨Soup.kLoginRejected, [65]⟩).modify s.id
      fun s => { s with closeAfterFlush := true }) := by
    have htype : Soup.kLoginRejected ≠ Soup.kSequencedData := by decide
    refine (quiet_queueFrame x s.id (frameReports_of_type htype [65])).trans ?_
    exact quiet_modify (fun _ => rfl) (fun _ => rfl) fun _ => rfl
  unfold handleLogin
  dsimp only
  split
  · exact hrefuse
  · split
    · exact hrefuse
    · split
      · exact hrefuse
      · refine Quiet.trans (y := x.modify s.id _) ?_
          (quiet_queueFrame _ s.id (frameReports_of_type (by decide) _))
        exact quiet_modify (fun _ => rfl) (fun _ => rfl) fun _ => rfl

/-- An insertion that succeeded wrote the key. -/
theorem insert_true {m m' : FlatIdMap OrderHandle} (h : m.WF) {key : ℕ} {v : OrderHandle}
    (hins : m.insert key v = (m', true)) :
    m'.WF ∧ ∀ k, m'.find k = if k = key then some v else m.find k := by
  have hfail : ∀ {m₀ : FlatIdMap OrderHandle}, m.insert key v ≠ (m₀, false) := by
    intro m₀ hc
    rw [hins] at hc
    simp at hc
  by_cases hkey : key = FlatIdMap.kEmpty
  · rw [hkey] at hfail
    exact absurd (FlatIdMap.insert_zero v) hfail
  by_cases hfull : m.maxEntries ≤ m.size
  · exact absurd (FlatIdMap.insert_of_full key v hfull) hfail
  cases hf : m.find key with
  | some w => exact absurd (FlatIdMap.insert_of_mem h v hf) hfail
  | none =>
    obtain ⟨m₁, hins', hwf, -, -, hfind⟩ :=
      FlatIdMap.insert_of_new h v hkey (not_le.mp hfull) hf
    obtain rfl : m₁ = m' := (Prod.mk.inj (hins'.symm.trans hins)).1
    exact ⟨hwf, hfind⟩

/-- A book of no symbol holds nothing. -/
theorem find_book_eq_none {e : MatchingEngine} {locate : ℕ} (h0 : locate ≠ 0)
    (hv : ¬ e.validLocate locate) (id : ℕ) : (e.book locate).find id = none := by
  have hbook : e.book locate = MatchingEngine.noBook := by
    rw [MatchingEngine.book, List.getD_eq_getElem?_getD, List.getElem?_eq_none, Option.getD_none]
    unfold MatchingEngine.validLocate at hv
    omega
  rw [hbook, OrderBook.find, Option.map_eq_none_iff]
  show (⟨[], 0, 0, 0, 0⟩ : FlatIdMap ℕ).find id = none
  by_cases hid : id = FlatIdMap.kEmpty
  · simp [FlatIdMap.find, hid]
  · simp [FlatIdMap.find, hid, FlatIdMap.probe, Foundation.firstStop]

/-- `find` in a book tells whether the order is in the market. -/
theorem find_book_iff {e : MatchingEngine} (h : e.WF) {locate : ℕ} (h0 : locate ≠ 0) (id : ℕ) :
    (e.book locate).find id = none ↔
      ∀ m, e.abs.market? locate = some m → m.find id = none := by
  rw [MatchingEngine.market?_abs]
  by_cases hv : e.validLocate locate
  · rw [if_pos hv, ← OrderBook.market_find (h.book hv)]
    simp
  · rw [if_neg hv]
    simp [find_book_eq_none h0 hv]

/-- The account of a session. -/
theorem account_eq {s : Session} (hs : x.session? k = some s) :
    x.desk.account k = some s.account := by
  simp only [desk, hs]
  rfl

/-- The session behind a frame: its reader has moved on, the rest is as `s` shows it. -/
def Current (x : Exchange) (s : Session) : Prop :=
  ∃ reader taken, x.session? s.id = some { s with reader := reader, taken := taken }

/-- The account of the session behind a frame. -/
theorem Current.account {s : Session} (hs : x.Current s) :
    x.desk.account s.id = some s.account := by
  obtain ⟨reader, taken, hs⟩ := hs
  rw [account_eq hs]
  rfl

/-- A session takes the reference of an order. -/
def takeRef (x : Exchange) (s : Session) (m : Ouch.EnterOrder) : Exchange :=
  ({ x with pendingClordid := m.clordid } : Exchange).modify s.id fun s =>
    { s with lastUserRef := m.userRef.toNat }

/-- Taking a reference changes the last one of the account. -/
theorem takeRef_changes (x : Exchange) (s : Session) (m : Ouch.EnterOrder) :
    Changes x (x.takeRef s m)
      (x.desk.update s.id fun a => { a with lastUserRef := m.userRef.toNat }) :=
  ⟨desk_modify (x := { x with pendingClordid := m.clordid }) (fun _ => rfl) fun _ _ => rfl, rfl,
    fun ht => TablesWF.modify (x := { x with pendingClordid := m.clordid }) ht (fun _ => rfl)
      fun _ h => h⟩

/-- A rejection after the reference is taken. -/
theorem refuse_enters (hx : x.Sound) {s : Session} {m : Ouch.EnterOrder}
    (hacc : x.desk.account s.id = some s.account) (hnew : s.lastUserRef < m.userRef.toNat)
    {used : ℕ} (hused : used ≤ 1) (reason : UInt8) :
    (({ x.takeRef s m with nextOrderId := x.nextOrderId + used } : Exchange).sendReject s.id
      m.userRef reason).Sound ∧ x.desk.Enters s.id m
      (({ x.takeRef s m with nextOrderId := x.nextOrderId + used } : Exchange).sendReject s.id
        m.userRef reason).desk := by
  have hch := takeRef_changes x s m
  have htook : (x.takeRef s m).Sound := hch.sound hx (Desk.update_isSome _ _ _)
  set y : Exchange := { x.takeRef s m with nextOrderId := x.nextOrderId + used } with hy
  have hys : y.Sound := ⟨htook.engine, htook.zero, htook.tables⟩
  have hrej := sendReject_changes y s.id m.userRef reason
  have hdesk : (y.sendReject s.id m.userRef reason).desk =
      { x.desk.update s.id fun a =>
          { a with lastUserRef := m.userRef.toNat }.report [.rejected m.userRef.toNat] with
        nextOrderId := x.desk.nextOrderId + used } := by
    have hdy : y.desk =
        { (x.takeRef s m).desk with nextOrderId := x.desk.nextOrderId + used } := rfl
    rw [hrej.desk, hdy, hch.desk]
    exact congrArg (fun d : Desk => ({ d with nextOrderId := x.desk.nextOrderId + used } : Desk))
      (update_update x.desk s.id (fun a => { a with lastUserRef := m.userRef.toNat }) _)
  refine ⟨hrej.sound hys (Desk.update_isSome _ _ _), ?_⟩
  rw [hdesk]
  exact .refused hacc hnew hused

/-- The handle of an order is written, and an order id used up. -/
def writeHandle (x : Exchange) (s : Session) (m : Ouch.EnterOrder)
    (orders : FlatIdMap OrderHandle) : Exchange :=
  ({ x.takeRef s m with nextOrderId := x.nextOrderId + 1 } : Exchange).modify s.id fun s =>
    { s with orders := orders }

/-- **The desk at the call** of `engine_.submit`. -/
theorem writeHandle_desk (hx : x.Sound) {s : Session} (hs : x.Current s) {m : Ouch.EnterOrder}
    {handle : OrderHandle} {orders : FlatIdMap OrderHandle}
    (hins : s.orders.insert m.userRef.toNat handle = (orders, true)) :
    (x.writeHandle s m orders).Sound ∧ (x.writeHandle s m orders).desk =
      { x.desk.update s.id fun a =>
          { a with lastUserRef := m.userRef.toNat }.set m.userRef.toNat (some handle) with
        nextOrderId := x.desk.nextOrderId + 1 } := by
  obtain ⟨reader, taken, hs⟩ := hs
  have horders : s.orders.WF := hx.tables s.id { s with reader := reader, taken := taken } hs
  obtain ⟨hwf, hfind⟩ := insert_true horders hins
  have hch := takeRef_changes x s m
  have htook : (x.takeRef s m).Sound := hch.sound hx (Desk.update_isSome _ _ _)
  have hs' : (x.takeRef s m).session? s.id = (x.session? s.id).map fun s =>
      { s with lastUserRef := m.userRef.toNat } :=
    session?_modify_self (x := { x with pendingClordid := m.clordid }) fun _ => rfl
  set y : Exchange := { x.takeRef s m with nextOrderId := x.nextOrderId + 1 } with hy
  have hys : y.Sound := ⟨htook.engine, htook.zero, htook.tables⟩
  have hwrite : Changes y (x.writeHandle s m orders)
      (y.desk.update s.id fun a => a.set m.userRef.toNat (some handle)) := by
    refine ⟨desk_modify (fun _ => rfl) fun t ht => ?_, rfl,
      fun ht => ht.modify (fun _ => rfl) fun _ _ => hwf⟩
    obtain rfl : ({ s with reader := reader, taken := taken
                           lastUserRef := m.userRef.toNat } : Session) = t := by
      have ht' : (x.takeRef s m).session? s.id = some t := ht
      rw [hs', hs] at ht'
      exact Option.some.inj ht'
    simp only [Session.account, Account.set]
    congr 1
    funext r
    exact hfind r
  refine ⟨hwrite.sound hys (Desk.update_isSome _ _ _), ?_⟩
  have hdy : y.desk = { (x.takeRef s m).desk with nextOrderId := x.desk.nextOrderId + 1 } := rfl
  rw [hwrite.desk, hdy, hch.desk]
  exact congrArg (fun d : Desk => ({ d with nextOrderId := x.desk.nextOrderId + 1 } : Desk))
    (update_update x.desk s.id (fun a => { a with lastUserRef := m.userRef.toNat }) _)

/-- **An order that passes the checks of `handle_enter`** is submitted, and its handle dropped
unless it rests. -/
theorem handleEnter_submits {s : Session} {m : Ouch.EnterOrder} {orders : FlatIdMap OrderHandle}
    (hnew : s.lastUserRef < m.userRef.toNat) (hlocate : x.engine.findSymbol m.symbol ≠ 0)
    (hins : s.orders.insert m.userRef.toNat ⟨x.engine.findSymbol m.symbol, x.nextOrderId % 2 ^ 64⟩ =
      (orders, true)) {y : Exchange} (hy : y = (x.writeHandle s m orders).submit
        (x.engine.findSymbol m.symbol) (m.request s.id (x.nextOrderId % 2 ^ 64))) :
    x.handleEnter s m =
      if (y.engine.book (x.engine.findSymbol m.symbol)).find (x.nextOrderId % 2 ^ 64) = none then
        y.modify s.id fun s => { s with orders := (s.orders.erase m.userRef.toNat).1 }
      else y := by
  subst hy
  unfold handleEnter
  dsimp only
  rw [if_neg (not_le.mpr hnew)]
  refine (if_neg hlocate).trans ?_
  have hmatch : s.orders.insert m.userRef.toNat
      ⟨(x.takeRef s m).engine.findSymbol m.symbol, (x.takeRef s m).nextOrderId % 2 ^ 64⟩ =
        (orders, true) := hins
  split
  · next hfail => exact nomatch (Prod.mk.inj (hmatch.symm.trans hfail)).2
  · next orders' hok =>
    obtain rfl : orders = orders' := (Prod.mk.inj (hmatch.symm.trans hok)).1
    rfl

/-- **`handle_enter`**: the order is rejected or entered. -/
theorem handleEnter_enters (hx : x.Sound) {s : Session} (hs : x.Current s)
    (hkind : s.kind = .orderEntry) (m : Ouch.EnterOrder) :
    (x.handleEnter s m).Sound ∧ x.desk.Enters s.id m (x.handleEnter s m).desk := by
  have hacc := hs.account
  by_cases hold : m.userRef.toNat ≤ s.lastUserRef
  · rw [handleEnter, if_pos hold]
    set x₁ : Exchange := { x with pendingClordid := m.clordid } with hx₁
    have hx₁s : x₁.Sound := ⟨hx.engine, hx.zero, hx.tables⟩
    have h := sendReject_changes x₁ s.id m.userRef Ouch.kRejectInvalidUserRef
    refine ⟨h.sound hx₁s (Desk.update_isSome _ _ _), ?_⟩
    rw [h.desk]
    exact .rejected hacc hold
  have hnew : s.lastUserRef < m.userRef.toNat := not_le.mp hold
  by_cases hlocate : x.engine.findSymbol m.symbol = 0
  · have heq : x.handleEnter s m =
        (x.takeRef s m).sendReject s.id m.userRef Ouch.kRejectInvalidSymbol := by
      rw [handleEnter, if_neg hold]
      exact if_pos hlocate
    rw [heq]
    exact @refuse_enters x hx s m hacc hnew 0 (by omega) Ouch.kRejectInvalidSymbol
  obtain ⟨⟨orders, ok⟩, hins⟩ : ∃ r, s.orders.insert m.userRef.toNat
      ⟨x.engine.findSymbol m.symbol, x.nextOrderId % 2 ^ 64⟩ = r := ⟨_, rfl⟩
  cases ok with
  | false =>
    have heq : x.handleEnter s m = ({ x.takeRef s m with nextOrderId := x.nextOrderId + 1 } :
        Exchange).sendReject s.id m.userRef Ouch.kRejectOther := by
      rw [handleEnter, if_neg hold]
      refine (if_neg hlocate).trans ?_
      dsimp only
      split
      · rfl
      · next hok => exact nomatch (Prod.mk.inj (hok.symm.trans hins)).2
    rw [heq]
    exact @refuse_enters x hx s m hacc hnew 1 le_rfl Ouch.kRejectOther
  | true =>
    obtain ⟨hys, hdesk⟩ := writeHandle_desk hx hs hins
    obtain ⟨hsubs, hdesk', hcall⟩ :=
      submit_desk hys (x.engine.findSymbol m.symbol) (m.request s.id (x.nextOrderId % 2 ^ 64))
    obtain ⟨y, hy⟩ : ∃ y, y = (x.writeHandle s m orders).submit (x.engine.findSymbol m.symbol)
      (m.request s.id (x.nextOrderId % 2 ^ 64)) := ⟨_, rfl⟩
    rw [handleEnter_submits hnew hlocate hins hy]
    rw [← hy] at hsubs hdesk'
    rw [hdesk] at hdesk' hcall
    have hgone := find_book_iff hsubs.engine hlocate (x.nextOrderId % 2 ^ 64)
    have hentry : s.account.orderEntry = true := by simp [Session.account, hkind]
    have henters := Desk.Enters.submitted hacc hentry hnew rfl hcall hdesk' hgone
    split
    · next hnone =>
      have her := erase_changes hsubs.tables s.id m.userRef.toNat
      rw [if_pos hnone] at henters
      refine ⟨her.sound hsubs (Desk.update_isSome _ _ _), ?_⟩
      rw [her.desk]
      exact henters
    · next hsome =>
      rw [if_neg hsome] at henters
      exact ⟨hsubs, henters⟩

/-- `handle_enter` makes moves of its session. -/
theorem handleEnter_follows (hx : x.Sound) {s : Session} (hs : x.Current s)
    (hkind : s.kind = .orderEntry) (m : Ouch.EnterOrder) :
    Follows s.id x (x.handleEnter s m) := by
  obtain ⟨hsound, henters⟩ := handleEnter_enters hx hs hkind m
  exact .of_move hsound rfl (.enters m henters)

/-- A cancel is a move. -/
theorem cancel_follows (hx : x.Sound) (locate id newQty owner : ℕ) (why : CancelReason)
    (hmove : Desk.Move k x.desk (x.desk.cancel locate id newQty owner why)) :
    Follows k x (x.cancel locate id newQty owner why) := by
  obtain ⟨hsound, hdesk⟩ := cancel_desk hx locate id newQty owner why
  exact .of_move hsound hdesk hmove

/-- **`handle_cancel`** cancels an order of the session's table. -/
theorem handleCancel_follows (hx : x.Sound) {s : Session} (hs : x.Current s)
    (m : Ouch.CancelOrder) : Follows s.id x (x.handleCancel s m) := by
  have hacc := hs.account
  unfold handleCancel
  split
  · exact .refl hx
  · next h hfind => exact cancel_follows hx _ _ _ _ _ (.cancelled _ hacc hfind)

/-! ## Snapshot sessions -/

/-- Frames queued for a session that enters no orders. -/
theorem queueFrames_follows (hx : x.Sound) {s : Session} (hs : x.session? k = some s)
    (hkind : s.kind = .snapshot) (fs : List Soup.Frame) :
    Follows k x (fs.foldl (fun x f => x.queueFrame k f) x) ∧
      ∃ s', (fs.foldl (fun x f => x.queueFrame k f) x).session? k = some s' ∧
        s'.kind = .snapshot := by
  induction fs generalizing x s with
  | nil => exact ⟨.refl hx, s, hs, hkind⟩
  | cons f fs ih =>
    have hacc := account_eq hs
    have hq := queueFrame_changes x k f
    have hentry : s.account.orderEntry = false := by simp [Session.account, hkind]
    have hfollows : Follows k x (x.queueFrame k f) :=
      .of_move (hq.sound hx (Desk.update_isSome _ _ _)) hq.desk (.told hacc hentry _)
    have hs' : ∃ s', (x.queueFrame k f).session? k = some s' ∧ s'.kind = .snapshot := by
      have hacc' : (x.queueFrame k f).desk.account k =
          some (s.account.report (frameReports f)) := by
        rw [hq.desk]
        simp only [Desk.update, if_true, hacc]
        rfl
      obtain ⟨s', hs', heq⟩ := Option.map_eq_some_iff.mp hacc'
      refine ⟨s', hs', ?_⟩
      have hentry := congrArg Account.orderEntry heq
      simp only [Session.account, Account.report, hkind] at hentry
      cases hk' : s'.kind with
      | snapshot => rfl
      | orderEntry => simp [hk'] at hentry
    obtain ⟨s', hs', hkind'⟩ := hs'
    obtain ⟨hrest, hend⟩ := ih hfollows.sound hs' hkind'
    exact ⟨hfollows.trans hrest, hend⟩

/-- **`send_snapshot`** only sends. -/
theorem sendSnapshot_follows (hx : x.Sound) {s : Session} (hs : x.session? k = some s)
    (hkind : s.kind = .snapshot) : Follows k x (x.sendSnapshot k) := by
  unfold sendSnapshot
  dsimp only
  set x₁ : Exchange := (({ x with md := x.md.flush x.nowNs } : Exchange).tick).tick with hx₁
  have hq₁ : Quiet x x₁ := ⟨rfl, rfl, id⟩
  set fs := (snapshotMessages x.engine ({ x with md := x.md.flush x.nowNs } : Exchange).tick.midNow
    (x.md.flush x.nowNs).nextSeq).map
    fun m => (⟨Soup.kSequencedData, Itch.encode m Itch.kMaxMessageLen⟩ : Soup.Frame) with hfs
  obtain ⟨hf, -⟩ := queueFrames_follows (hq₁.follows (k := k) hx).sound (s := s) hs hkind fs
  rw [hfs, List.foldl_map] at hf
  refine ((hq₁.follows hx).trans hf).trans ?_
  have htype : Soup.kEndOfSession ≠ Soup.kSequencedData := by decide
  refine Quiet.follows ?_ hf.sound
  refine (quiet_queueFrame _ k (frameReports_of_type htype [])).trans ?_
  exact quiet_modify (fun _ => rfl) (fun _ => rfl) fun _ => rfl

/-! ## Reading -/

/-- `handle_frame` makes moves of its session. -/
theorem handleFrame_follows (hx : x.Sound) {s : Session} (hs : x.Current s) (f : Soup.Frame) :
    Follows s.id x (x.handleFrame s f) := by
  unfold handleFrame
  split
  · next hkind =>
    split
    · obtain ⟨reader, taken, hs'⟩ := hs
      exact sendSnapshot_follows hx hs' hkind
    · exact .refl hx
  · next hkind =>
    split
    · exact (quiet_handleLogin x s f.payload).follows hx
    · split
      · split
        · refine Quiet.follows ?_ hx
          exact quiet_modify (fun _ => rfl) (fun _ => rfl) fun _ => rfl
        · split
          · exact .refl hx
          · exact handleEnter_follows hx hs hkind _
          · exact handleCancel_follows hx hs _
      · split
        · have htype : Soup.kEndOfSession ≠ Soup.kSequencedData := by decide
          refine Quiet.follows ?_ hx
          refine (quiet_queueFrame x s.id (frameReports_of_type htype [])).trans ?_
          exact quiet_modify (fun _ => rfl) (fun _ => rfl) fun _ => rfl
        · exact .refl hx

/-- The frames that are complete, one after the other. -/
theorem drainFrames_follows (hx : x.Sound) (fuel : ℕ) : Follows k x (drainFrames k fuel x).1 := by
  induction fuel generalizing x with
  | zero => exact .refl hx
  | succ fuel ih =>
    rw [drainFrames]
    cases hs : x.session? k with
    | none => exact .refl hx
    | some s =>
      dsimp only
      split
      · exact .refl hx
      · refine Quiet.follows ?_ hx
        exact quiet_modify (fun _ => rfl) (fun _ => rfl) fun _ => rfl
      · next f reader hnext =>
        have hid : s.id = k := session?_id hs
        set y := x.modify k fun s => { s with reader := reader, taken := s.taken ++ [f] } with hy
        have hq : Quiet x y := quiet_modify (fun _ => rfl) (fun _ => rfl) fun _ => rfl
        have hf : Follows k x y := hq.follows hx
        have hcur : y.Current s := by
          have hmod : y.session? k =
              (x.session? k).map fun s => { s with reader := reader, taken := s.taken ++ [f] } :=
            session?_modify_self fun _ => rfl
          subst hid
          exact ⟨reader, s.taken ++ [f], by rw [hmod, hs]; rfl⟩
        have hframe := handleFrame_follows hf.sound hcur f
        rw [hid] at hframe
        split
        · exact hf.trans hframe
        · exact (hf.trans hframe).trans (ih hframe.sound)

/-- **`read_session`**, on any answers of `recv`. -/
theorem readSession_follows (hx : x.Sound) (recvs : List Recv) :
    Follows k x (readSession k recvs x) := by
  have hdead : ∀ {y : Exchange}, y.Sound →
      Follows k y (y.modify k fun s => { s with dead := true }) := by
    intro y hy
    refine Quiet.follows ?_ hy
    exact quiet_modify (fun _ => rfl) (fun _ => rfl) fun _ => rfl
  induction recvs generalizing x with
  | nil =>
    rw [readSession]
    split
    · exact .refl hx
    · next s hs =>
      dsimp only
      have hq : Quiet x (x.modify k fun s' => { s' with reader := s.reader.writePtr }) :=
        quiet_modify (fun _ => rfl) (fun _ => rfl) fun _ => rfl
      have hf : Follows k x _ := hq.follows hx
      split
      · exact hf.trans (hdead hf.sound)
      · exact hf
  | cons r recvs ih =>
    rw [readSession]
    split
    · exact .refl hx
    · next s hs =>
      dsimp only
      have hq : Quiet x (x.modify k fun s' => { s' with reader := s.reader.writePtr }) :=
        quiet_modify (fun _ => rfl) (fun _ => rfl) fun _ => rfl
      have hf : Follows k x _ := hq.follows hx
      split
      · exact hf.trans (hdead hf.sound)
      · cases r with
        | interrupted => exact hf.trans (ih hf.sound)
        | closed => exact hf.trans (hdead hf.sound)
        | failed => exact hf.trans (hdead hf.sound)
        | data bs =>
          cases bs with
          | nil => exact hf.trans (hdead hf.sound)
          | cons b bs =>
            dsimp only
            set y := x.modify k fun s' => { s' with reader := s.reader.writePtr } with hy
            set chunk := (b :: bs).take s.reader.writePtr.writeSpace with hchunk
            have hq' : Quiet y (y.tick.modify k fun s' =>
                { s' with reader := s.reader.writePtr.commit chunk, lastRxNs := y.nowNs }) :=
              (quiet_tick y).trans (quiet_modify (fun _ => rfl) (fun _ => rfl) fun _ => rfl)
            have hf' := hf.trans (hq'.follows hf.sound)
            have hdrain := drainFrames_follows (k := k) hf'.sound
              (s.reader.writePtr.commit chunk).data.length
            split
            · next z hz =>
              rw [hz] at hdrain
              exact (hf'.trans hdrain).trans (ih hdrain.sound)
            · next z hz =>
              rw [hz] at hdrain
              exact hf'.trans hdrain

/-! ## Closing and opening -/

/-- Cancelling the orders of a session does to the desk what the desk's rule says. -/
theorem cancelAll_desk (hx : x.Sound) (live : List (ℕ × OrderHandle)) :
    ((live.map Prod.snd).foldl (fun x h => x.cancel h.locate h.id 0 k .supervisory) x).Sound ∧
      ((live.map Prod.snd).foldl (fun x h => x.cancel h.locate h.id 0 k .supervisory) x).desk =
        x.desk.cancelAll k live := by
  induction live generalizing x with
  | nil => exact ⟨hx, rfl⟩
  | cons p live ih =>
    obtain ⟨hsound, hdesk⟩ := cancel_desk hx p.2.locate p.2.id 0 k .supervisory
    obtain ⟨hsound', hdesk'⟩ := ih hsound
    refine ⟨hsound', ?_⟩
    rw [hdesk] at hdesk'
    exact hdesk'

/-- Forgetting a session. -/
theorem session?_filter (x : Exchange) (id j : ℕ) :
    ({ x with sessions := x.sessions.filter fun s => s.id ≠ id } : Exchange).session? j =
      if j = id then none else x.session? j := by
  simp only [session?, List.find?_filter]
  split
  · next hj =>
    rw [List.find?_eq_none]
    intro s _
    simp [hj]
  · next hj =>
    congr 1
    funext s
    by_cases hs : s.id = j
    · simp [hs, hj]
    · simp [hs]

/-- **`close_session`** cancels the orders of the table and forgets the session. -/
theorem closeSession_desk (hx : x.Sound) {s : Session} (hs : x.session? k = some s) :
    (x.closeSession k).Sound ∧
      (x.closeSession k).desk = (x.desk.cancelAll k s.orders.forEach).drop k := by
  obtain ⟨hsound, hdesk⟩ := cancelAll_desk (k := k) hx s.orders.forEach
  unfold closeSession
  rw [hs]
  dsimp only
  set y := (s.orders.forEach.map Prod.snd).foldl
    (fun x h => x.cancel h.locate h.id 0 k .supervisory) x with hy
  refine ⟨⟨hsound.engine, ?_, ?_⟩, ?_⟩
  · rw [session?_filter]
    split
    · rfl
    · exact hsound.zero
  · intro j s' hs'
    rw [session?_filter] at hs'
    split_ifs at hs'
    exact hsound.tables j s' hs'
  · rw [← hdesk]
    show Desk.mk _ _ _ _ _ _ = Desk.mk _ _ _ _ _ _
    congr 1
    funext j
    rw [session?_filter]
    split <;> rfl

/-- `close_session` makes moves of its session. -/
theorem closeSession_follows (hx : x.Sound) : Follows k x (x.closeSession k) := by
  cases hs : x.session? k with
  | none =>
    rw [closeSession, hs]
    exact .refl hx
  | some s =>
    obtain ⟨hsound, hdesk⟩ := closeSession_desk hx hs
    have horders : s.orders.WF := hx.tables k s hs
    have hacc := account_eq hs
    exact .of_move hsound hdesk
      (.closed hacc (fun p => FlatIdMap.mem_forEach_iff horders) (FlatIdMap.nodup_forEach horders))

/-- The sessions with one more, under an id that was free. -/
theorem session?_append {s : Session} (hfree : x.session? s.id = none) (j : ℕ) :
    ({ x with sessions := x.sessions ++ [s] } : Exchange).session? j =
      if j = s.id then some s else x.session? j := by
  have happ : ({ x with sessions := x.sessions ++ [s] } : Exchange).session? j =
      (x.session? j).or ([s].find? fun s => s.id = j) := List.find?_append
  rw [happ]
  split
  · next hj =>
    rw [hj, hfree]
    simp
  · next hj =>
    have hne : ¬ s.id = j := fun h => hj h.symm
    simp [hne]

/-- Nothing has been said to a new session. -/
theorem account_opened (id : ℕ) (kind : SessionKind) (now : ℕ) {orders : FlatIdMap OrderHandle}
    (hempty : ∀ r, orders.find r = none) :
    ({ id := id, kind := kind, lastRxNs := now, orders := orders } : Session).account =
      ⟨decide (kind = .orderEntry), 0, fun _ => none, []⟩ := by
  simp only [Session.account, Session.ouch, List.filterMap_nil, List.map_nil]
  congr 1
  funext r
  exact hempty r

/-- **`accept_all`** opens a session under the next id, or drops the connection if that id is
taken. -/
theorem accept_opens (hx : x.Sound) (hid : x.nextSessionId ≠ 0) (kind : SessionKind) :
    (x.accept kind).Sound ∧ x.desk.Opens (x.accept kind).desk := by
  have hcap : kind.capacity ≤ 2 ^ 62 := by
    cases kind <;> decide
  obtain ⟨orders, hnew, hwf, -, -, hempty⟩ := FlatIdMap.new_spec (V := OrderHandle) hcap
  unfold accept
  dsimp only
  rw [hnew]
  dsimp only
  set x₁ : Exchange := { x.tick with nextSessionId := (x.nextSessionId + 1) % 2 ^ 32 } with hx₁
  cases hs : x₁.session? x.nextSessionId with
  | some s =>
    have htaken : x.desk.account x.desk.nextSessionId ≠ none := by
      have hs' : x.session? x.nextSessionId = some s := hs
      simp [desk, hs']
    exact ⟨⟨hx.engine, hx.zero, hx.tables⟩, .dropped htaken⟩
  | none =>
    have hfree : x.desk.account x.desk.nextSessionId = none := by
      have hs' : x.session? x.nextSessionId = none := hs
      simp [desk, hs']
    set s : Session :=
      { id := x.nextSessionId, kind := kind, lastRxNs := x.nowNs, orders := orders } with hsess
    have hfind : ∀ j, ({ x₁ with sessions := x₁.sessions ++ [s] } : Exchange).session? j =
        if j = x.nextSessionId then some s else x.session? j :=
      session?_append (x := x₁) (s := s) hs
    have hacc : s.account = ⟨decide (kind = .orderEntry), 0, fun _ => none, []⟩ :=
      account_opened _ kind x.nowNs hempty
    refine ⟨⟨hx.engine, ?_, ?_⟩, ?_⟩
    · rw [hfind, if_neg (Ne.symm hid)]
      exact hx.zero
    · intro j s' hs'
      rw [hfind] at hs'
      split_ifs at hs'
      · obtain rfl := Option.some.inj hs'
        exact hwf
      · exact hx.tables j s' hs'
    · have hopened := Desk.Opens.opened (decide (kind = .orderEntry)) hfree
      have hdesk : ({ x₁ with sessions := x₁.sessions ++ [s] } : Exchange).desk =
          { x.desk with
            account := fun j => if j = x.desk.nextSessionId then
              some ⟨decide (kind = .orderEntry), 0, fun _ => none, []⟩ else x.desk.account j
            nextSessionId := (x.desk.nextSessionId + 1) % 2 ^ 32 } := by
        show Desk.mk _ _ _ _ _ _ = Desk.mk _ _ _ _ _ _
        congr 1
        funext j
        rw [hfind]
        split
        · next hj =>
          rw [Option.map_some, hacc]
          exact (if_pos hj).symm
        · next hj => exact (if_neg hj).symm
      rw [hdesk]
      exact hopened

/-! ## Synthetic flow -/

theorem quiet_setSynth (x : Exchange) (locate : ℕ) (st : Synth) : Quiet x (x.setSynth locate st) :=
  ⟨rfl, rfl, id⟩

theorem quiet_below (x : Exchange) (n : UInt64) : Quiet x (x.below n).2 := ⟨rfl, rfl, id⟩

theorem quiet_coin (x : Exchange) : Quiet x x.coin.2 := ⟨rfl, rfl, id⟩

theorem quiet_walkFair (x : Exchange) (bc : BookConfig) (fair : ℤ) :
    Quiet x (x.walkFair bc fair).2 := by
  unfold walkFair
  dsimp only
  split
  · exact (quiet_below x 100).trans (quiet_coin _)
  · exact quiet_below x 100

/-- An order of nobody. -/
theorem synthSubmit_follows (hx : x.Sound) (locate : ℕ) {req : OrderRequest}
    (howner : req.owner = 0) (hid : req.id = x.nextOrderId % 2 ^ 64) (hfits : req.qty < 2 ^ 32) :
    Follows k x (({ x with nextOrderId := x.nextOrderId + 1 } : Exchange).submit locate req) := by
  set x₁ : Exchange := { x with nextOrderId := x.nextOrderId + 1 } with hx₁
  have hx₁s : x₁.Sound := ⟨hx.engine, hx.zero, hx.tables⟩
  obtain ⟨hsound, hdesk, hcall⟩ := submit_desk hx₁s locate req
  exact .of_move hsound hdesk (.synthetic howner hid hfits hcall)

/-- A number is drawn below the bound. -/
theorem below_lt (x : Exchange) {n : UInt64} (hn : 0 < n.toNat) : (x.below n).1 < n.toNat := by
  show (_ % n : UInt64).toNat < n.toNat
  rw [UInt64.toNat_mod]
  exact Nat.mod_lt _ hn

/-- A passive synthetic order. -/
theorem synthPassive_follows (hx : x.Sound) (locate : ℕ) (tick fair : ℤ) :
    Follows k x (x.synthPassive locate tick fair) := by
  unfold synthPassive
  dsimp only
  have hlots : (((x.coin.2).below 8).2.below 5).1 < 5 := below_lt _ (by decide)
  set x₁ := (((x.coin.2).below 8).2.below 5).2 with hx₁
  have hq : Quiet x x₁ := ((quiet_coin x).trans (quiet_below _ 8)).trans (quiet_below _ 5)
  have hf : Follows k x x₁ := hq.follows hx
  generalize (if x.coin.1 = true then Side.buy else Side.sell) = side
  set price := if side = Side.buy then fair - ↑(1 + (x.coin.2.below 8).1) * tick
    else fair + ↑(1 + (x.coin.2.below 8).1) * tick
  set req : OrderRequest :=
    { id := x₁.nextOrderId % 2 ^ 64
      side := side
      price := price
      qty := 100 * (1 + ((x.coin.2.below 8).2.below 5).1)
      tif := .day } with hreq
  have hqty : req.qty < 2 ^ 32 := by
    show 100 * (1 + _) < 2 ^ 32
    omega
  have hid : req.id = x₁.nextOrderId % 2 ^ 64 := rfl
  have hsub := hf.trans (synthSubmit_follows (k := k) hf.sound locate rfl hid hqty)
  split
  · exact hsub.trans ((quiet_setSynth _ _ _).follows hsub.sound)
  · exact hsub

/-- A synthetic cancel. -/
theorem synthCancel_follows (hx : x.Sound) (locate : ℕ) : Follows k x (x.synthCancel locate) := by
  have hcancel : ∀ {y : Exchange} (id newQty : ℕ), y.Sound →
      Follows k y (y.cancel locate id newQty 0 .userRequested) :=
    fun id newQty hy => cancel_follows hy _ _ _ _ _ (.syntheticCancel _ _ _ _)
  unfold synthCancel
  dsimp only
  set live := (x.synthOf locate).live with hlive
  set x₁ := (x.below (UInt64.ofNat live.length)).2 with hx₁
  have hf : Follows k x x₁ := (quiet_below x _).follows hx
  have hdrop : ∀ {y : Exchange} (st : Synth), y.Sound → Follows k y (y.setSynth locate st) :=
    fun st hy => (quiet_setSynth _ locate st).follows hy
  split
  · exact hf.trans (hdrop _ hf.sound)
  · next o ho =>
    have hhalve : Follows k x₁ (if 200 ≤ o.qty then
        (x₁.below 3).map (fun r => decide (r = 0)) id else (false, x₁)).2 := by
      split
      · exact (quiet_below x₁ 3).follows hf.sound
      · exact .refl hf.sound
    generalize (if 200 ≤ o.qty then
      (x₁.below 3).map (fun r => decide (r = 0)) id else (false, x₁)) = p at hhalve ⊢
    have hf' := hf.trans hhalve
    split
    · exact hf'.trans (hcancel _ _ hf'.sound)
    · have hd := hf'.trans (hdrop { p.2.synthOf locate with
          live := (live.set (x.below (UInt64.ofNat live.length)).1 (live.getLastD 0)).dropLast }
        hf'.sound)
      exact hd.trans (hcancel _ _ hd.sound)

/-- An aggressive synthetic order. -/
theorem synthAggressive_follows (hx : x.Sound) (locate : ℕ) (tick fair : ℤ) :
    Follows k x (x.synthAggressive locate tick fair) := by
  unfold synthAggressive
  dsimp only
  have hlots : ((x.coin.2).below 3).1 < 3 := below_lt _ (by decide)
  set x₁ := ((x.coin.2).below 3).2 with hx₁
  have hf : Follows k x x₁ := ((quiet_coin x).trans (quiet_below _ 3)).follows hx
  refine hf.trans (synthSubmit_follows hf.sound locate rfl rfl ?_)
  show 100 * (1 + _) < 2 ^ 32
  omega

/-- **`synth_step`** enters or cancels orders of nobody. -/
theorem synthStep_follows (hx : x.Sound) (locate : ℕ) : Follows k x (x.synthStep locate) := by
  unfold synthStep
  dsimp only
  set bc := (x.engine.book locate).cfg with hbc
  set w := x.walkFair bc (x.synthOf locate).fair with hw
  set x₁ := ((w.2.setSynth locate { x.synthOf locate with fair := w.1 }).below 100).2 with hx₁
  have hq : Quiet x x₁ :=
    ((quiet_walkFair x bc _).trans (quiet_setSynth w.2 locate _)).trans (quiet_below _ 100)
  have hf : Follows k x x₁ := hq.follows hx
  split
  · exact hf.trans (synthPassive_follows hf.sound locate _ _)
  · split
    · exact hf.trans (synthCancel_follows hf.sound locate)
    · exact hf.trans (synthAggressive_follows hf.sound locate _ _)

/-! ## The event loop -/

/-- `flush_session` keeps the id, the account and the table. -/
theorem flush_frame (now : ℕ) (s : Session) (sends : List Session.Send) :
    (s.flush now sends).id = s.id ∧ (s.flush now sends).account = s.account ∧
      (s.flush now sends).orders = s.orders := by
  induction sends generalizing s with
  | nil =>
    rw [Session.flush]
    split <;> exact ⟨rfl, rfl, rfl⟩
  | cons answer sends ih =>
    cases answer with
    | again =>
      rw [Session.flush]
      split <;> exact ⟨rfl, rfl, rfl⟩
    | interrupted =>
      rw [Session.flush]
      split
      · exact ih s
      · exact ⟨rfl, rfl, rfl⟩
    | failed =>
      rw [Session.flush]
      split <;> exact ⟨rfl, rfl, rfl⟩
    | accepted n =>
      rw [Session.flush]
      split
      · exact ih _
      · exact ⟨rfl, rfl, rfl⟩

/-- A session that can be written to again. -/
theorem quiet_flushed (x : Exchange) (id : ℕ) (sends : List Session.Send) :
    Quiet x (x.tick.modify id fun s => if s.dead then s else s.flush x.nowNs sends) := by
  refine (quiet_tick x).trans (quiet_modify (fun s => ?_) (fun s => ?_) fun s => ?_) <;> split
  · rfl
  · exact (flush_frame _ s sends).1
  · rfl
  · exact (flush_frame _ s sends).2.1
  · rfl
  · exact (flush_frame _ s sends).2.2

/-- An event of a session without input is quiet. -/
theorem quiet_onSessionEvent_tail (x : Exchange) (id : ℕ) (sends : Option (List Session.Send))
    (hup : Bool) : Quiet x (onSessionEvent x id none sends hup) := by
  have hdead : ∀ y : Exchange, Quiet y (y.modify id fun s => { s with dead := true }) :=
    fun y => quiet_modify (fun _ => rfl) (fun _ => rfl) fun _ => rfl
  unfold onSessionEvent
  cases sends with
  | none =>
    dsimp only
    split
    · exact hdead x
    · exact .refl x
  | some sends =>
    dsimp only
    split
    · exact (quiet_flushed x id sends).trans (hdead _)
    · exact quiet_flushed x id sends

theorem quiet_flushDirtySessions (x : Exchange) (sends : ℕ → List Session.Send) :
    Quiet x (x.flushDirtySessions sends) := by
  have hfold : ∀ (ids : List ℕ) (y : Exchange), Quiet y (ids.foldl (fun x id =>
      x.tick.modify id fun s => ({ s with dirty := false } : Session).flush x.nowNs (sends id)) y) := by
    intro ids
    induction ids with
    | nil => exact Quiet.refl
    | cons id ids ih =>
      intro y
      refine Quiet.trans ?_ (ih _)
      refine (quiet_tick y).trans (quiet_modify (fun s => ?_) (fun s => ?_) fun s => ?_)
      · exact (flush_frame _ { s with dirty := false } _).1
      · exact (flush_frame _ { s with dirty := false } _).2.1
      · exact (flush_frame _ { s with dirty := false } _).2.2
  have h := hfold x.dirty x
  exact ⟨h.desk, h.engine, h.tables⟩

theorem quiet_watchdog (x : Exchange) (now id : ℕ) : Quiet x (x.watchdog now id) := by
  unfold watchdog
  split
  · exact .refl x
  · split
    · exact .refl x
    · split
      · exact quiet_modify (fun _ => rfl) (fun _ => rfl) fun _ => rfl
      · split
        · have htype : Soup.kServerHeartbeat ≠ Soup.kSequencedData := by decide
          exact quiet_queueFrame x id (frameReports_of_type htype [])
        · exact .refl x

/-- The connections that an action accepts. -/
def Action.accepts : Action → ℕ
  | .accept _ => 1
  | _ => 0

/-- The session that acts. -/
def Action.actor : Action → ℕ
  | .session id .. | .reap id => id
  | _ => 0

/-- **Every other action** is a run of moves of the session that acts. -/
theorem step_follows (hx : x.Sound) {a : Action} (ha : a.accepts = 0) :
    Follows a.actor x (x.step a) := by
  cases a with
  | accept kind => cases ha
  | session id recvs sends hup =>
    cases recvs with
    | none => exact (quiet_onSessionEvent_tail x id sends hup).follows hx
    | some recvs =>
      have hread := readSession_follows (k := id) hx recvs
      exact hread.trans ((quiet_onSessionEvent_tail _ id sends hup).follows hread.sound)
  | synth locate =>
    simp only [step]
    split
    · exact synthStep_follows hx locate
    · exact .refl hx
  | heartbeat now => exact Quiet.follows ⟨rfl, rfl, id⟩ hx
  | watchdog now id => exact (quiet_watchdog x now id).follows hx
  | reap id =>
    simp only [step]
    split
    · exact .refl hx
    · split
      · exact closeSession_follows hx
      · exact .refl hx
  | flushDirty sends => exact (quiet_flushDirtySessions x sends).follows hx
  | flushFeed => exact Quiet.follows ⟨rfl, rfl, id⟩ hx

end Exchange

end PulseForge
