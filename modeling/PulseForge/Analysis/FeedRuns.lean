import PulseForge.Analysis.FeedMoves
import PulseForge.Analysis.ListedSymbols
import PulseForge.Analysis.SnapshotStream

/-!
# The feed over a run of the exchange

`OnAir` says of the exchange what a listener relies on: the feed carries the history of the
markets since the start of day, and a client that logged in once for a snapshot was sent one of
the markets behind some message, with the number of the next. Every move keeps it.
-/

set_option autoImplicit false

namespace PulseForge

open Foundation

/-! ## Who owns what is open -/

section Owners

variable {x y : Flow} {ev : Event} {P : ℕ → Prop}

/-- Whoever owns an open order is known. -/
structure Flow.OwnedBy (P : ℕ → Prop) (x : Flow) : Prop where
  resting : ∀ l m, x.engine.market? l = some m → ∀ o ∈ m.orders, P o.owner
  taker : ∀ l req remaining, x.taker = some (l, req, remaining) → P req.owner

/-- Orders that lost shares have their owners. -/
theorem Flow.OwnedBy.take {r : RefEngine} {t t' : Option (ℕ × OrderRequest × ℕ)}
    (h : OwnedBy P ⟨r, t⟩) (hr : r.WF) {l : ℕ} {m : Market} (hm : r.market? l = some m)
    {o : BookOrder} (ho : o ∈ m.orders) (q n : ℕ)
    (ht : ∀ l req remaining, t' = some (l, req, remaining) → P req.owner) :
    OwnedBy P ⟨{ r.setMarket l (m.take o q) with nextMatch := n }, t'⟩ := by
  refine ⟨fun l' m' hm' x hx => ?_, ht⟩
  have hmarket : (r.setMarket l (m.take o q)).market? l' = some m' := hm'
  rw [RefEngine.market?_setMarket_eq hm] at hmarket
  split at hmarket
  · obtain rfl := Option.some.inj hmarket
    rcases ((hr.market hm).mem_take_iff ho).mp hx with ⟨hx, -⟩ | hleft
    · exact h.resting l m hm x hx
    · unfold Market.leftOf at hleft
      split at hleft
      · exact absurd hleft (by simp)
      · obtain rfl := Option.some.inj hleft
        exact h.resting l m hm o ho
  · exact h.resting l' m' hmarket x hx

/-- **Every rule** keeps the owners known, and is about known ones. -/
theorem Flow.OwnedBy.step (h : x.OwnedBy P) (hx : x.engine.WF) (hstep : x.Step ev y)
    (hreq : ∀ l req, (ev = .accepted l req ∨ ∃ why, ev = .rejected l req why) → P req.owner) :
    y.OwnedBy P ∧ ∀ k ∈ ev.owners, P k := by
  cases hstep with
  | @rejected r l req why _ =>
    refine ⟨h, fun k hk => ?_⟩
    rw [List.mem_singleton.mp hk]
    exact hreq l req (.inr ⟨why, rfl⟩)
  | @accepted r l req _ =>
    have howner := hreq l req (.inl rfl)
    refine ⟨⟨h.resting, fun l' req' remaining' ht => ?_⟩, fun k hk => ?_⟩
    · obtain ⟨-, rfl, -⟩ : l = l' ∧ req = req' ∧ req.qty = remaining' := by simpa using ht
      exact howner
    · rw [List.mem_singleton.mp hk]
      exact howner
  | @fill r l m req remaining maker rest hmarket hfront hremaining hcross hother =>
    have hmem : maker ∈ m.orders := (m.mem_orders_iff).mpr ⟨_, by rw [hfront]; simp⟩
    have htaker := h.taker l req remaining rfl
    refine ⟨h.take hx hmarket hmem _ _ fun l' req' remaining' ht => ?_, fun k hk => ?_⟩
    · unfold Flow.taking at ht
      split at ht
      · exact absurd ht (by simp)
      · obtain ⟨-, rfl, -⟩ : l = l' ∧ req = req' ∧ _ = remaining' := by simpa using ht
        exact htaker
    · rcases List.mem_cons.mp hk with rfl | hk
      · exact h.resting l m hmarket maker hmem
      · rw [List.mem_singleton.mp hk]
        exact htaker
  | @selfMatch r l m req remaining maker rest hmarket hfront hremaining hown hstp =>
    have hmem : maker ∈ m.orders := (m.mem_orders_iff).mpr ⟨_, by rw [hfront]; simp⟩
    refine ⟨h.take hx hmarket hmem _ _ h.taker, fun k hk => ?_⟩
    rw [List.mem_singleton.mp hk]
    exact h.resting l m hmarket maker hmem
  | @takerCancelled r l req remaining why _ =>
    refine ⟨⟨h.resting, by simp⟩, fun k hk => ?_⟩
    rw [List.mem_singleton.mp hk]
    exact h.taker l req remaining rfl
  | @rested r l m req remaining hmarket hremaining hday hgrid hroom hclear =>
    refine ⟨⟨fun l' m' hm' o ho => ?_, by simp⟩, fun k hk => absurd hk List.not_mem_nil⟩
    simp only at hm'
    rw [RefEngine.market?_setMarket_eq hmarket] at hm'
    split at hm'
    · obtain rfl := Option.some.inj hm'
      rcases Market.mem_rest_iff.mp ho with rfl | ho
      · exact h.taker l req remaining rfl
      · exact h.resting l m hmarket o ho
    · exact h.resting l' m' hm' o ho
  | @cancelled r l m o shares why hmarket hfind hpos hle =>
    have hmem := ((hx.market hmarket).find_eq_some_iff.mp hfind).1
    refine ⟨h.take hx hmarket hmem _ _ h.taker, fun k hk => ?_⟩
    rw [List.mem_singleton.mp hk]
    exact h.resting l m hmarket o hmem

end Owners

/-! ## Snapshots -/

/-- **The engine of a snapshot** behind the first `k` public events of a log. -/
structure Snapshot (r₀ : RefEngine) (symbols : List Symbol) (log : List Event)
    (e : MatchingEngine) (k : ℕ) : Prop where
  wf : e.WF
  listed : e.symbols = symbols
  books : e.books.length = symbols.length
  count : k ≤ (publicEvents log).length
  markets : e.abs.markets = (r₀.behind log k).markets
  plain : ∀ l m, e.abs.market? l = some m → m.cfg = {}
  fits : ∀ l, (⟨e.abs, none⟩ : Flow).Fits l

/-- What was is not changed. -/
theorem Snapshot.append {r₀ : RefEngine} {symbols : List Symbol} {log : List Event}
    {e : MatchingEngine} {k : ℕ} (h : Snapshot r₀ symbols log e k) (log' : List Event) :
    Snapshot r₀ symbols (log ++ log') e k := by
  have hcount : k ≤ (publicEvents (log ++ log')).length := by
    rw [publicEvents_append, List.length_append]
    exact h.count.trans (Nat.le_add_right _ _)
  refine ⟨h.wf, h.listed, h.books, hcount, ?_, h.plain, h.fits⟩
  rw [r₀.behind_append log log' h.count]
  exact h.markets

/-- The messages before the first event: the day begins, the directory, trading begins. -/
def openingCount (symbols : List Symbol) : ℕ := symbols.length + 2

/-- **What a snapshot client was sent**: nothing before its login, and one snapshot behind one. -/
def Session.Shown (r₀ : RefEngine) (symbols : List Symbol) (log : List Event) (s : Session) :
    Prop :=
  s.logins = 0 ∧ s.queued = [] ∨
    s.logins = 1 ∧ (∃ e k now, Snapshot r₀ symbols log e k ∧
      s.queued = Exchange.snapshotFrames e now (openingCount symbols + k + 1)) ∨
    2 ≤ s.logins

namespace Exchange

variable {x y : Exchange} {r₀ : RefEngine} {symbols : List Symbol} {n : ℕ}

/-! ## The invariant -/

/-- **The exchange is on air**, with `n` connections accepted so far. -/
structure OnAir (r₀ : RefEngine) (symbols : List Symbol) (n : ℕ) (x : Exchange) : Prop where
  wf : x.engine.WF
  listed : x.engine.symbols = symbols
  books : x.engine.books.length = symbols.length
  aired : ∃ packets msgs, Aired r₀ (openingCount symbols) ⟨x.engine.abs, none⟩ x.md x.log
    packets msgs
  sessions : ∀ k s, x.session? k = some s → 0 < k ∧ k ≤ n
  owners : (⟨x.engine.abs, none⟩ : Flow).OwnedBy fun k => x.Entry k ∧ k ≤ n
  shown : ∀ k s, x.session? k = some s → s.kind = .snapshot → s.Shown r₀ symbols x.log

namespace OnAir

/-- Nothing that the feed notices. -/
theorem silent (h : OnAir r₀ symbols n x) (hs : Silent x y) : OnAir r₀ symbols n y := by
  refine ⟨?_, ?_, ?_, ?_, fun k s' hs' => ?_, ?_, fun k s' hs' hkind => ?_⟩
  · rw [hs.engine]
    exact h.wf
  · rw [hs.engine]
    exact h.listed
  · rw [hs.engine]
    exact h.books
  · rw [hs.engine, hs.md, hs.log]
    exact h.aired
  · obtain ⟨s, hs, -⟩ := hs.clients k s' hs'
    exact h.sessions k s hs
  · rw [hs.engine]
    refine ⟨fun l m hm o ho => ?_, fun l req remaining ht => absurd ht (by simp)⟩
    obtain ⟨hentry, hle⟩ := h.owners.resting l m hm o ho
    exact ⟨hentry.keeps hs.clients, hle⟩
  · obtain ⟨s, hold, hsame⟩ := hs.clients k s' hs'
    have hkind' := hsame.kind.symm.trans hkind
    have hshown := h.shown k s hold hkind'
    unfold Session.Shown at hshown ⊢
    rw [hsame.logins hkind', hsame.queued hkind', hs.log]
    exact hshown

/-- The feed by itself. -/
theorem feed (h : OnAir r₀ symbols n x) {md : MarketDataFeed}
    (hmd : ∀ packets published, x.md.Numbered packets published →
      ∃ packets', md.Numbered packets' published) :
    OnAir r₀ symbols n { x with md := md } := by
  obtain ⟨packets, msgs, haired⟩ := h.aired
  obtain ⟨packets', hnumbered⟩ := hmd packets _ haired.numbered
  exact ⟨h.wf, h.listed, h.books, ⟨packets', msgs, hnumbered, haired.stamped, haired.count,
    haired.first, haired.carried, haired.now, haired.fits, haired.plain⟩, h.sessions, h.owners,
    h.shown⟩

end OnAir

/-! ## Calls of the engine -/

/-- What holds between two callbacks of a call that began at `x`. -/
structure Heard (r₀ : RefEngine) (symbols : List Symbol) (n : ℕ) (x : Exchange) (flow : Flow)
    (z : Exchange) : Prop where
  aired : ∃ packets msgs, Aired r₀ (openingCount symbols) flow z.md z.log packets msgs
  owners : flow.OwnedBy fun k => x.Entry k ∧ k ≤ n
  clients : KeepsClients x z
  log : x.log <+: z.log
  orderIds : x.nextOrderId ≤ z.nextOrderId
  sessionIds : z.nextSessionId = x.nextSessionId

/-- **One callback.** -/
theorem Heard.step {flow flow' : Flow} {z : Exchange} {cb : Callback}
    (h : Heard r₀ symbols n x flow z) (hflow : flow.engine.WF) (hstep : flow.Step cb.event flow')
    (hfits : cb.event.Fits)
    (hreq : ∀ l req, (cb.event = .accepted l req ∨ ∃ why, cb.event = .rejected l req why) →
      x.Entry req.owner ∧ req.owner ≤ n) : Heard r₀ symbols n x flow' (z.on cb) := by
  obtain ⟨packets, msgs, haired⟩ := h.aired
  obtain ⟨howners, hknown⟩ := h.owners.step hflow hstep hreq
  have hears : Hears cb z (z.on cb) :=
    on_hears cb fun k hk => (hknown k hk).1.keeps h.clients
  obtain ⟨now, now', hmd⟩ := hears.md
  obtain ⟨packets', haired'⟩ := haired.step hflow hfits hstep cb.engine now now'
  refine ⟨⟨packets', msgs ++ (publicMessage cb.engine now cb.event).toList, ?_⟩, howners,
    h.clients.trans hears.clients, ?_, h.orderIds.trans hears.orderIds,
    hears.sessionIds.trans h.sessionIds⟩
  · rw [hmd, hears.log]
    exact haired'
  · rw [hears.log]
    exact h.log.trans (List.prefix_append _ _)

/-- The clients were shown what they were shown. -/
theorem OnAir.shown_of (h : OnAir r₀ symbols n x) (hclients : KeepsClients x y)
    (hlog : x.log <+: y.log) (k : ℕ) (s' : Session) (hs' : y.session? k = some s')
    (hkind : s'.kind = .snapshot) : s'.Shown r₀ symbols y.log := by
  obtain ⟨s, hs, hsame⟩ := hclients k s' hs'
  have hkind' := hsame.kind.symm.trans hkind
  obtain ⟨more, hmore⟩ := hlog
  have hshown := h.shown k s hs hkind'
  unfold Session.Shown at hshown ⊢
  rw [hsame.logins hkind', hsame.queued hkind', ← hmore]
  rcases hshown with hnone | ⟨hone, e, j, now, hsnapshot, hqueued⟩ | hmany
  · exact .inl hnone
  · exact .inr (.inl ⟨hone, e, j, now, hsnapshot.append more, hqueued⟩)
  · exact .inr (.inr hmany)

/-- **A call of the engine**, heard to its end. -/
theorem OnAir.called (h : OnAir r₀ symbols n x) {e : MatchingEngine} {cbs : List Callback}
    (hwf : e.WF) (hlisting : MatchingEngine.SameListing x.engine e)
    (htraced : MatchingEngine.Traced ⟨x.engine.abs, none⟩ cbs ⟨e.abs, none⟩)
    (hfits : ∀ cb ∈ cbs, cb.event.Fits)
    (hreq : ∀ cb ∈ cbs, ∀ l req,
      (cb.event = .accepted l req ∨ ∃ why, cb.event = .rejected l req why) →
        x.Entry req.owner ∧ req.owner ≤ n)
    (hy : y.engine = e ∧ y.md = (cbs.foldl on x).md ∧ y.log = (cbs.foldl on x).log ∧
      y.sessions = (cbs.foldl on x).sessions) : OnAir r₀ symbols n y ∧ x.log <+: y.log := by
  obtain ⟨rfl, hmd, hlog, hsessions⟩ := hy
  have hstart : Heard r₀ symbols n x ⟨x.engine.abs, none⟩ x :=
    ⟨h.aired, h.owners, .refl x, List.prefix_refl _, le_rfl, rfl⟩
  have hheard : Heard r₀ symbols n x ⟨y.engine.abs, none⟩ (cbs.foldl on x) :=
    htraced.listen (R := Heard r₀ symbols n x)
      (fun flow cb flow' z hcb hflow _ _ hstep hz =>
        hz.step hflow hstep (hfits cb hcb) (hreq cb hcb)) h.wf.abs hstart
  have hclients : KeepsClients x y := hheard.clients.trans (.of_eq hsessions)
  have hprefix : x.log <+: y.log := by
    rw [hlog]
    exact hheard.log
  obtain ⟨hsymbols, hbooks⟩ := hlisting
  refine ⟨⟨hwf, hsymbols.trans h.listed, hbooks.trans h.books, ?_, fun k s' hs' => ?_,
    ⟨fun l m hm o ho => ?_, fun l req remaining ht => absurd ht (by simp)⟩,
    h.shown_of hclients hprefix⟩, hprefix⟩
  · rw [hmd, hlog]
    exact hheard.aired
  · obtain ⟨s, hs, -⟩ := hclients k s' hs'
    exact h.sessions k s hs
  · obtain ⟨hentry, hle⟩ := hheard.owners.resting l m hm o ho
    exact ⟨hentry.keeps hclients, hle⟩

/-- What a submit can say. -/
theorem submit_events {e e' : MatchingEngine} (h : e.WF) {locate : ℕ} {req : OrderRequest}
    {cbs : List Callback} (hsub : e.submit locate req = some (e', cbs))
    (hfits : (EngineOp.submit locate req).Fits) : ∀ cb ∈ cbs, cb.event.Fits ∧ ∀ l r,
      (cb.event = .accepted l r ∨ ∃ why, cb.event = .rejected l r why) → r = req := by
  intro cb hcb
  have hemits := MatchingEngine.call_emits h (.submit locate req) cb (by
    simp only [MatchingEngine.call, hsub]
    exact hcb)
  refine ⟨hfits.event hemits, fun l r hev => ?_⟩
  rcases hev with hev | ⟨why, hev⟩
  · rw [hev] at hemits
    exact hemits.2
  · rw [hev] at hemits
    exact hemits.2

/-- What a cancel can say. -/
theorem cancel_events {e : MatchingEngine} (h : e.WF) (hfew : e.books.length < 2 ^ 16)
    (locate id newQty owner : ℕ) (why : CancelReason) :
    ∀ cb ∈ (e.cancel locate id newQty owner why).2.2, cb.event.Fits ∧ ∀ l r,
      ¬ (cb.event = .accepted l r ∨ ∃ why, cb.event = .rejected l r why) := by
  intro cb hcb
  by_cases hv : e.validLocate locate
  · obtain ⟨o, shares, hev⟩ :=
      MatchingEngine.call_emits h (.cancel locate id newQty owner why) cb hcb
    have hlt : locate < 2 ^ 16 := hv.2.trans_lt hfew
    rw [hev]
    refine ⟨hlt, fun l r hc => ?_⟩
    rcases hc with hc | ⟨why', hc⟩
    · cases hc
    · cases hc
  · unfold MatchingEngine.cancel at hcb
    rw [if_pos hv] at hcb
    exact absurd hcb List.not_mem_nil

/-- A submit airs its events. -/
theorem OnAir.submits (h : OnAir r₀ symbols n x) (hfew : symbols.length < 2 ^ 16) {locate : ℕ}
    {req : OrderRequest} (hlocate : locate < 2 ^ 16 ∨ x.engine.validLocate locate)
    (hid : req.id < 2 ^ 64) (hqty : req.qty < 2 ^ 32)
    (howner : req.owner = 0 ∨ ∃ s, x.session? req.owner = some s ∧ s.kind = .orderEntry) :
    OnAir r₀ symbols n (x.submit locate req) ∧ x.log <+: (x.submit locate req).log := by
  obtain ⟨e', cbs, hsub, hwf, -, htraced⟩ := MatchingEngine.submit_spec h.wf locate req
  have hlt : locate < 2 ^ 16 := by
    rcases hlocate with hlt | hv
    · exact hlt
    · exact hv.2.trans_lt (h.books ▸ hfew)
  have hevents := submit_events h.wf hsub ⟨hlt, hid, hqty⟩
  have hknown : x.Entry req.owner ∧ req.owner ≤ n := by
    rcases howner with hzero | ⟨s, hs, hkind⟩
    · rw [hzero]
      exact ⟨fun s hs => absurd (h.sessions 0 s hs).1 (Nat.lt_irrefl 0), Nat.zero_le n⟩
    · refine ⟨fun s' hs' => ?_, (h.sessions _ s hs).2⟩
      rw [← Option.some.inj (hs.symm.trans hs')]
      exact hkind
  have hlisting := MatchingEngine.sameListing_submit hsub
  refine h.called hwf hlisting htraced (fun cb hcb => (hevents cb hcb).1)
    (fun cb hcb l r hev => ?_) ?_
  · rw [(hevents cb hcb).2 l r hev]
    exact hknown
  · unfold submit
    rw [hsub]
    exact ⟨rfl, rfl, rfl, rfl⟩

/-- A cancel airs its events. -/
theorem OnAir.cancels (h : OnAir r₀ symbols n x) (hfew : symbols.length < 2 ^ 16)
    (locate id newQty owner : ℕ) (why : CancelReason) :
    OnAir r₀ symbols n (x.cancel locate id newQty owner why) ∧
      x.log <+: (x.cancel locate id newQty owner why).log := by
  obtain ⟨e', code, cbs, hcan, hwf, -, htraced⟩ :=
    MatchingEngine.cancel_spec h.wf locate id newQty owner why
  have hevents := cancel_events h.wf (h.books ▸ hfew) locate id newQty owner why
  rw [hcan] at hevents
  have hlisting := MatchingEngine.sameListing_cancel x.engine locate id newQty owner why
  rw [hcan] at hlisting
  refine h.called hwf hlisting htraced (fun cb hcb => (hevents cb hcb).1)
    (fun cb hcb l r hev => absurd hev ((hevents cb hcb).2 l r)) ?_
  unfold cancel
  rw [hcan]
  exact ⟨rfl, rfl, rfl, rfl⟩

/-! ## A snapshot -/

/-- **The session `id` was sent `fs`**, and nothing else happened. -/
structure Sends (id : ℕ) (fs : List Soup.Frame) (x y : Exchange) : Prop where
  engine : y.engine = x.engine
  md : y.md = x.md
  log : y.log = x.log
  orderIds : y.nextOrderId = x.nextOrderId
  sessionIds : y.nextSessionId = x.nextSessionId
  session : ∀ k s', y.session? k = some s' → ∃ s, x.session? k = some s ∧ s'.kind = s.kind ∧
    s'.taken = s.taken ∧ s'.queued = s.queued ++ if k = id then fs else []

theorem Sends.trans {id : ℕ} {fs gs : List Soup.Frame} {z : Exchange} (h : Sends id fs x y)
    (h' : Sends id gs y z) : Sends id (fs ++ gs) x z := by
  refine ⟨h'.engine.trans h.engine, h'.md.trans h.md, h'.log.trans h.log,
    h'.orderIds.trans h.orderIds, h'.sessionIds.trans h.sessionIds, fun k s'' hs'' => ?_⟩
  obtain ⟨s', hs', hkind', htaken', hqueued'⟩ := h'.session k s'' hs''
  obtain ⟨s, hs, hkind, htaken, hqueued⟩ := h.session k s' hs'
  refine ⟨s, hs, hkind'.trans hkind, htaken'.trans htaken, ?_⟩
  rw [hqueued', hqueued, List.append_assoc]
  split
  · rfl
  · rfl

/-- `queue_frame` sends one frame. -/
theorem sends_queueFrame (x : Exchange) (id : ℕ) (f : Soup.Frame) :
    Sends id [f] x (x.queueFrame id f) := by
  obtain ⟨hengine, hmd, hlog, horder, hsession⟩ :=
    silent_markDirty (x.modify id fun s => s.queueFrame f) id
  refine ⟨hengine, hmd, hlog, horder, hsession, fun k s' hs' => ?_⟩
  rw [queueFrame_session?] at hs'
  split_ifs at hs' ⊢ with hk
  · obtain ⟨s, hs, rfl⟩ := Option.map_eq_some_iff.mp hs'
    exact ⟨s, hs, rfl, rfl, rfl⟩
  · exact ⟨s', hs', rfl, rfl, (List.append_nil _).symm⟩

/-- Frames that are queued one after the other. -/
theorem sends_queueFrames (id : ℕ) (fs : List Soup.Frame) (x : Exchange) :
    Sends id fs x (fs.foldl (fun x f => x.queueFrame id f) x) := by
  induction fs generalizing x with
  | nil =>
    refine ⟨rfl, rfl, rfl, rfl, rfl, fun k s' hs' => ⟨s', hs', rfl, rfl, ?_⟩⟩
    rw [ite_self, List.append_nil]
  | cons f fs ih => exact (sends_queueFrame x id f).trans (ih _)

/-- A session that closes when it is flushed was sent the same. -/
theorem Sends.closing {id : ℕ} {fs : List Soup.Frame} {z : Exchange} (h : Sends id fs x z) :
    Sends id fs x (z.modify id fun s => { s with closeAfterFlush := true }) := by
  refine ⟨h.engine, h.md, h.log, h.orderIds, h.sessionIds, fun k s'' hs'' => ?_⟩
  rw [@session?_modify z id (fun s => { s with closeAfterFlush := true }) (fun _ => rfl) k] at hs''
  split_ifs at hs'' with hk
  · obtain ⟨s', hs', rfl⟩ := Option.map_eq_some_iff.mp hs''
    exact h.session k s' hs'
  · exact h.session k s'' hs''

/-- **`send_snapshot`** flushes the feed and sends the snapshot behind it. -/
theorem sendSnapshot_sends (x : Exchange) (id : ℕ) : ∃ now,
    Sends id (snapshotFrames x.engine now (x.md.flush x.nowNs).nextSeq)
      ({ x with md := x.md.flush x.nowNs } : Exchange) (x.sendSnapshot id) := by
  set y : Exchange := (({ x with md := x.md.flush x.nowNs } : Exchange).tick).tick with hy
  have hall := sends_queueFrames id (snapshotFrames x.engine
    (x.clock.realtime (x.clock.readings + 1)) (x.md.flush x.nowNs).nextSeq) y
  unfold snapshotFrames at hall
  rw [List.foldl_append, List.foldl_map, List.foldl_cons, List.foldl_nil] at hall
  refine ⟨x.clock.realtime (x.clock.readings + 1), ?_⟩
  unfold sendSnapshot
  apply Sends.closing
  exact ⟨hall.engine, hall.md, hall.log, hall.orderIds, hall.sessionIds, hall.session⟩

/-- **A login of a snapshot client** is answered with a snapshot of the markets behind everything
that was published, and the number of the next message. -/
theorem OnAir.serves (h : OnAir r₀ symbols n x) (id : ℕ) {f : Soup.Frame}
    (reader : Soup.FrameReader) (hlogin : f.type = Soup.kLoginRequest) :
    OnAir r₀ symbols n ((x.takes id f reader).sendSnapshot id) ∧
      x.log <+: ((x.takes id f reader).sendSnapshot id).log := by
  obtain ⟨packets, msgs, haired⟩ := h.aired
  obtain ⟨now, hsends⟩ := sendSnapshot_sends (x.takes id f reader) id
  obtain ⟨hflushed, hnext, -⟩ := haired.numbered.flush (x.takes id f reader).nowNs
  rw [List.length_map, haired.count] at hnext
  have hsnapshot : Snapshot r₀ symbols x.log x.engine (publicEvents x.log).length :=
    ⟨h.wf, h.listed, h.books, le_rfl, haired.now, haired.plain, haired.fits⟩
  -- every session, before the frames were queued
  have hback : ∀ k s'', ((x.takes id f reader).sendSnapshot id).session? k = some s'' →
      ∃ s', x.session? k = some s' ∧ s''.kind = s'.kind ∧
        s''.taken = s'.taken ++ (if k = id then [f] else []) ∧
        s''.queued = s'.queued ++ if k = id then snapshotFrames x.engine now
          (openingCount symbols + (publicEvents x.log).length + 1) else [] := by
    intro k s'' hs''
    obtain ⟨s', hs', hkind', htaken, hqueued⟩ := hsends.session k s'' hs''
    have hnext' : ((x.takes id f reader).md.flush (x.takes id f reader).nowNs).nextSeq =
        openingCount symbols + (publicEvents x.log).length + 1 := hnext
    rw [hnext'] at hqueued
    have htook : (x.takes id f reader).session? k = some s' := hs'
    unfold takes at htook
    rw [@session?_modify x id (fun s => { s with reader := reader, taken := s.taken ++ [f] })
      fun _ => rfl] at htook
    split_ifs at htook hqueued ⊢
    · obtain ⟨s₀, hs₀, rfl⟩ := Option.map_eq_some_iff.mp htook
      exact ⟨s₀, hs₀, hkind', htaken, hqueued⟩
    · exact ⟨s', htook, hkind', htaken.trans (List.append_nil _).symm, hqueued⟩
  have hclients : ∀ {k : ℕ}, x.Entry k → ((x.takes id f reader).sendSnapshot id).Entry k := by
    intro k hentry s'' hs''
    obtain ⟨s', hs', hkind', -⟩ := hback k s'' hs''
    exact hkind'.trans (hentry s' hs')
  have hengine : ((x.takes id f reader).sendSnapshot id).engine = x.engine := hsends.engine
  have hlog : ((x.takes id f reader).sendSnapshot id).log = x.log := hsends.log
  refine ⟨⟨hengine ▸ h.wf, hengine ▸ h.listed, hengine ▸ h.books, ?_, fun k s'' hs'' => ?_, ?_,
    fun k s'' hs'' hkind'' => ?_⟩, hlog ▸ List.prefix_refl x.log⟩
  · rw [hengine, hlog, hsends.md]
    exact ⟨_, msgs, hflushed, haired.stamped, haired.count, haired.first, haired.carried,
      haired.now, haired.fits, haired.plain⟩
  · obtain ⟨s', hs', -⟩ := hback k s'' hs''
    exact h.sessions k s' hs'
  · rw [hengine]
    refine ⟨fun l m hm o ho => ?_, fun l req remaining ht => absurd ht (by simp)⟩
    obtain ⟨hentry, hle⟩ := h.owners.resting l m hm o ho
    exact ⟨hclients hentry, hle⟩
  · obtain ⟨s', hs', hkind', htaken, hqueued⟩ := hback k s'' hs''
    have hshown := h.shown k s' hs' (hkind'.symm.trans hkind'')
    rw [hlog]
    unfold Session.Shown Session.logins at hshown ⊢
    rw [htaken, hqueued, List.countP_append]
    split_ifs with hk
    · have hone : [f].countP (fun g => g.type = Soup.kLoginRequest) = 1 := by
        rw [List.countP_singleton, if_pos (decide_eq_true hlogin)]
      rw [hone]
      rcases hshown with ⟨hzero, hnil⟩ | ⟨hlogins, -⟩ | hmany
      · rw [hzero, hnil, List.nil_append]
        exact .inr (.inl ⟨rfl, x.engine, _, now, hsnapshot, rfl⟩)
      · exact .inr (.inr (by omega))
      · exact .inr (.inr (by omega))
    · rw [List.countP_nil, Nat.add_zero, List.append_nil]
      exact hshown

/-! ## Runs -/

/-- **Every move** leaves the exchange on air, with its history. -/
theorem OnAir.move (h : OnAir r₀ symbols n x) (hfew : symbols.length < 2 ^ 16)
    (hids : x.nextOrderId ≤ 2 ^ 64) (hmove : FeedMove x y) :
    OnAir r₀ symbols n y ∧ x.log <+: y.log := by
  cases hmove with
  | silent hs => exact ⟨h.silent hs, hs.log ▸ List.prefix_refl x.log⟩
  | flushes now =>
    have hfeed : OnAir r₀ symbols n { x with md := x.md.flush now } :=
      h.feed fun packets published hnumbered => ⟨_, (hnumbered.flush now).1⟩
    exact ⟨hfeed, List.prefix_refl x.log⟩
  | beats nowMono now =>
    have hfeed : OnAir r₀ symbols n { x with md := x.md.heartbeatIfIdle nowMono now } :=
      h.feed fun packets published hnumbered => ⟨_, (hnumbered.heartbeat nowMono now).1⟩
    exact ⟨hfeed, List.prefix_refl x.log⟩
  | submits hlocate hid hqty howner =>
    exact h.submits hfew hlocate (hid.trans_le hids) hqty howner
  | cancels locate id newQty owner why => exact h.cancels hfew locate id newQty owner why
  | serves reader _ _ hlogin => exact h.serves _ reader hlogin

/-- Order ids only grow. -/
theorem FeedMove.orderIds (h : FeedMove x y) : x.nextOrderId ≤ y.nextOrderId := by
  cases h with
  | silent hs => exact hs.orderIds
  | flushes | beats => exact le_rfl
  | submits =>
    unfold submit
    split
    · exact le_rfl
    · exact (orderId_foldl_on _ x).ge
  | cancels =>
    unfold cancel
    exact (orderId_foldl_on _ x).ge
  | serves reader =>
    obtain ⟨now, hsends⟩ := sendSnapshot_sends (x.takes _ _ reader) _
    exact hsends.orderIds.ge

/-- The id of a new session. -/
theorem accept_id {kind : SessionKind} {k : ℕ} {s : Session}
    (hs : (x.accept kind).session? k = some s) :
    x.session? k = some s ∨ k = x.nextSessionId := by
  unfold accept at hs
  dsimp only at hs
  split at hs
  · exact .inl hs
  · split at hs
    · exact .inl hs
    · next orders _ _ hfree =>
      have hfind := session?_append (x := { x.tick with
        nextSessionId := (x.nextSessionId + 1) % 2 ^ 32 }) (s :=
          { id := x.nextSessionId, kind := kind, lastRxNs := x.nowNs, orders := orders }) hfree k
      have hnew := hfind.symm.trans hs
      split_ifs at hnew with hk
      · exact .inr hk
      · exact .inl hnew

/-- A connection is opened under a new id. -/
theorem OnAir.opens (h : OnAir r₀ symbols n x) (hid : x.nextSessionId = n + 1)
    (kind : SessionKind) : OnAir r₀ symbols (n + 1) (x.accept kind) := by
  have hsame : (x.accept kind).engine = x.engine ∧ (x.accept kind).md = x.md ∧
      (x.accept kind).log = x.log := by
    unfold accept
    dsimp only
    split
    · exact ⟨rfl, rfl, rfl⟩
    · split
      · exact ⟨rfl, rfl, rfl⟩
      · exact ⟨rfl, rfl, rfl⟩
  obtain ⟨hengine, hmd, hlog⟩ := hsame
  -- a session of the new state is an old one, or the new one
  have hback : ∀ k s, (x.accept kind).session? k = some s → x.session? k = some s ∨
      k = n + 1 ∧ s.logins = 0 ∧ s.queued = [] := by
    intro k s hs
    rcases accept_session? hs with hold | ⟨orders, hnew⟩
    · exact .inl hold
    · rcases accept_id hs with hold | hk
      · exact .inl hold
      · rw [hnew]
        exact .inr ⟨hk.trans hid, rfl, rfl⟩
  refine ⟨hengine ▸ h.wf, hengine ▸ h.listed, hengine ▸ h.books, ?_, fun k s hs => ?_, ?_,
    fun k s hs hkind => ?_⟩
  · rw [hengine, hmd, hlog]
    exact h.aired
  · rcases hback k s hs with hold | ⟨rfl, -, -⟩
    · obtain ⟨hpos, hle⟩ := h.sessions k s hold
      exact ⟨hpos, Nat.le_succ_of_le hle⟩
    · exact ⟨Nat.succ_pos n, le_rfl⟩
  · rw [hengine]
    refine ⟨fun l m hm o ho => ?_, fun l req remaining ht => absurd ht (by simp)⟩
    obtain ⟨hentry, hle⟩ := h.owners.resting l m hm o ho
    refine ⟨fun s hs => ?_, Nat.le_succ_of_le hle⟩
    rcases hback _ s hs with hold | ⟨heq, -, -⟩
    · exact hentry s hold
    · omega
  · rw [hlog]
    rcases hback k s hs with hold | ⟨-, hzero, hnil⟩
    · exact h.shown k s hold hkind
    · exact .inl ⟨hzero, hnil⟩

/-! ## The start of day -/

/-- The feed has published `msgs`. -/
def Announced (x : Exchange) (msgs : List Itch.Message) : Prop :=
  ∃ packets, x.md.Numbered packets (msgs.map wireOf)

/-- One message more is announced. -/
theorem Announced.publish {msgs : List Itch.Message} (h : x.Announced msgs) (m : Itch.Message) :
    (x.publish m).Announced (msgs ++ [m]) := by
  obtain ⟨packets, hnumbered⟩ := h
  obtain ⟨hpos, hlen⟩ := MarketDataFeed.encode_length m
  have hmore := hnumbered.publish x.nowNs hlen
  unfold Announced Exchange.publish
  dsimp only
  rw [if_pos hpos, List.map_append, List.map_singleton]
  exact ⟨_, hmore⟩

/-- A flush announces nothing new. -/
theorem Announced.flush {msgs : List Itch.Message} (h : x.Announced msgs) (now : ℕ) :
    ({ x with md := x.md.flush now } : Exchange).tick.Announced msgs := by
  obtain ⟨packets, hnumbered⟩ := h
  exact ⟨_, (hnumbered.flush now).1⟩

/-- The directory announces every symbol. -/
theorem Announced.directory {msgs : List Itch.Message} (h : x.Announced msgs) (ts : UInt64)
    (e : MatchingEngine) (is : List ℕ) :
    (is.foldl (fun x i => x.publish
      (.stockDirectory (UInt16.ofNat (i + 1)) ts (e.symbol (i + 1)) 100)) x).Announced
      (msgs ++ is.map fun i =>
        .stockDirectory (UInt16.ofNat (i + 1)) ts (e.symbol (i + 1)) 100) := by
  induction is generalizing x msgs with
  | nil =>
    rw [List.map_nil, List.append_nil]
    exact h
  | cons i is ih =>
    rw [List.foldl_cons, List.map_cons, List.append_cons]
    exact ih (h.publish _)

/-- The day begins, the directory, trading begins. -/
def openingOf (ts : UInt64) (e : MatchingEngine) : List Itch.Message :=
  [.systemEvent 0 ts 79] ++ (List.range e.books.length).map (fun i =>
    .stockDirectory (UInt16.ofNat (i + 1)) ts (e.symbol (i + 1)) 100) ++ [.systemEvent 0 ts 81]

/-- The messages of the opening have its time and no locate. -/
theorem mem_openingOf {ts : UInt64} {e : MatchingEngine} {m : Itch.Message}
    (hm : m ∈ openingOf ts e) : m.timestamp = ts ∧ m.locate? = none := by
  unfold openingOf at hm
  rw [List.mem_append, List.mem_append] at hm
  rcases hm with (hm | hm) | hm
  · rw [List.mem_singleton.mp hm]
    exact ⟨rfl, rfl⟩
  · obtain ⟨i, -, rfl⟩ := List.mem_map.mp hm
    exact ⟨rfl, rfl⟩
  · rw [List.mem_singleton.mp hm]
    exact ⟨rfl, rfl⟩

/-- **The opening** is on the feed when the loop begins. -/
theorem new_announced (cfg : Config) (clock : Clock) : ∃ msgs, (new cfg clock).Announced msgs ∧
    msgs.length = openingCount cfg.symbols ∧
      ∀ m ∈ msgs, m.timestamp.toNat < 2 ^ 48 ∧ m.locate? = none := by
  obtain ⟨-, hcount⟩ := foldl_listSymbol cfg.symbols { stp := cfg.stp }
  unfold new
  dsimp only
  generalize cfg.symbols.foldl listSymbol { stp := cfg.stp } = engine at hcount ⊢
  set x₀ : Exchange :=
    { engine := engine
      md := .new kSessionName cfg.dropEvery
      synth := cfg.symbols.map fun _ => { fair := 100 * kPriceScale }
      rng := if cfg.seed ≠ 0 then cfg.seed else 0x9E3779B97F4A7C15
      clock := clock } with hx₀
  have hnone : x₀.tick.Announced [] := ⟨[], MarketDataFeed.numbered_new _ _⟩
  have hopen := hnone.publish (.systemEvent 0 x₀.midNow 79)
  have hlist := hopen.directory x₀.midNow engine (List.range engine.books.length)
  have hquote := (hlist.publish (.systemEvent 0 x₀.midNow 81)).flush
  refine ⟨openingOf x₀.midNow engine, hquote _, ?_, fun m hm => ?_⟩
  · unfold openingOf openingCount
    rw [List.length_append, List.length_append, List.length_map, List.length_range, hcount]
    change 1 + (0 + cfg.symbols.length) + 1 = _
    omega
  · obtain ⟨hts, hnone⟩ := mem_openingOf hm
    rw [hts]
    exact ⟨MatchingEngine.midNow_lt _, hnone⟩

/-- Listing opens the books that the exchange opens. -/
theorem list_plain (symbols : List Symbol) (e : MatchingEngine)
    (h : ∀ m ∈ e.abs.markets, m.cfg = {}) :
    ∀ m ∈ (symbols.foldl listSymbol e).abs.markets, m.cfg = {} := by
  induction symbols generalizing e with
  | nil => exact h
  | cons s symbols ih =>
    rw [List.foldl_cons]
    refine ih _ ?_
    unfold listSymbol
    rcases MatchingEngine.addSymbol_cases e s {} with ⟨why, hadd⟩ | ⟨b, hnew, hadd⟩
    · rw [hadd]
      exact h
    · rw [hadd]
      intro m hm
      simp only [MatchingEngine.abs, List.map_append, List.map_cons, List.map_nil,
        List.mem_append, List.mem_singleton] at hm
      rcases hm with hm | rfl
      · exact h m hm
      · exact (OrderBook.new_wf hnew).2.1

/-- **A new exchange** is on air. -/
theorem onAir_new (cfg : Config) (clock : Clock) :
    OnAir (new cfg clock).engine.abs cfg.symbols 0 (new cfg clock) := by
  obtain ⟨hsound, -, -, -, hlog⟩ := new_spec cfg clock
  obtain ⟨hsymbols, hcount⟩ := listing_after cfg clock []
  obtain ⟨x₀, hquiet, -, -, -, -, hengine⟩ := new_quiet cfg clock
  obtain ⟨-, hempty⟩ := list_fresh cfg.symbols { stp := cfg.stp }
    (MatchingEngine.wf_start cfg.stp 1000000) (by simp [MatchingEngine.abs])
  have hplain := list_plain cfg.symbols { stp := cfg.stp } (by simp [MatchingEngine.abs])
  rw [← hengine, ← hquiet.engine] at hempty hplain
  obtain ⟨msgs, ⟨packets, hnumbered⟩, hlen, hmsgs⟩ := new_announced cfg clock
  have hnil : (new cfg clock).log = [] := hlog
  have hmarket : ∀ {l : ℕ} {m : Market}, (new cfg clock).engine.abs.market? l = some m →
      m ∈ (new cfg clock).engine.abs.markets := fun hm => RefEngine.mem_markets hm
  have hnone : ∀ k s, ¬ (new cfg clock).session? k = some s := by
    intro k s hs
    rw [session?_new] at hs
    cases hs
  refine ⟨hsound.engine, hsymbols, hcount, ⟨packets, msgs, hnumbered, fun m hm => (hmsgs m hm).1,
    ?_, ?_, ?_, ?_, fun l => ⟨fun m hm o ho => ?_, fun l req remaining ht => absurd ht (by simp)⟩,
    fun l m hm => hplain m (hmarket hm)⟩, fun k s hs => absurd hs (hnone k s),
    ⟨fun l m hm o ho => ?_, fun l req remaining ht => absurd ht (by simp)⟩,
    fun k s hs => absurd hs (hnone k s)⟩
  · rw [hlen, hnil]
    rfl
  · intro k m hk hm
    exact (hmsgs m (List.mem_of_getElem? hm)).2
  · intro k m hm
    have hlt := (List.getElem?_eq_some_iff.mp hm).1
    omega
  · rw [hnil]
    rfl
  · rw [hempty m (hmarket hm)] at ho
    exact absurd ho List.not_mem_nil
  · rw [hempty m (hmarket hm)] at ho
    exact absurd ho List.not_mem_nil

/-! ## Every run -/

/-- The moves between two connections. -/
theorem OnAir.moves (h : OnAir r₀ symbols n x) (hfew : symbols.length < 2 ^ 16)
    (hmoves : FeedMoves x y) (hids : y.nextOrderId ≤ 2 ^ 64) :
    OnAir r₀ symbols n y ∧ x.log <+: y.log := by
  induction hmoves with
  | refl => exact ⟨h, List.prefix_refl x.log⟩
  | tail _ hmove ih =>
    have hle := hmove.orderIds.trans hids
    obtain ⟨hon, hlog⟩ := ih hle
    obtain ⟨hon', hlog'⟩ := hon.move hfew hle hmove
    exact ⟨hon', hlog.trans hlog'⟩

/-- An action never lowers the next order id. -/
theorem orderId_step (x : Exchange) (a : Action) : x.nextOrderId ≤ (x.step a).nextOrderId := by
  by_cases ha : a.accepts = 0
  · have hmoves := step_feed x ha
    generalize x.step a = y at hmoves ⊢
    induction hmoves with
    | refl => exact le_rfl
    | tail _ hmove ih => exact ih.trans hmove.orderIds
  · cases a with
    | accept kind =>
      show _ ≤ (x.accept kind).nextOrderId
      unfold accept
      dsimp only
      split
      · exact le_rfl
      · split
        · exact le_rfl
        · exact le_rfl
    | session | synth | heartbeat | watchdog | reap | flushDirty | flushFeed => exact absurd rfl ha

/-- A connection is no event of a market. -/
theorem log_accept (x : Exchange) (kind : SessionKind) : (x.accept kind).log = x.log := by
  unfold accept
  dsimp only
  split
  · rfl
  · split
    · rfl
    · rfl

/-- **One action.** -/
theorem OnAir.step (h : OnAir r₀ symbols n x) (hfew : symbols.length < 2 ^ 16) (a : Action)
    (hid : a.accepts = 1 → x.nextSessionId = n + 1) (hids : (x.step a).nextOrderId ≤ 2 ^ 64) :
    OnAir r₀ symbols (n + a.accepts) (x.step a) ∧ x.log <+: (x.step a).log := by
  by_cases ha : a.accepts = 0
  · rw [ha, Nat.add_zero]
    exact h.moves hfew (step_feed _ ha) hids
  · cases a with
    | accept kind =>
      have hlog : (x.step (.accept kind)).log = x.log := log_accept x kind
      exact ⟨h.opens (hid rfl) kind, hlog ▸ List.prefix_refl x.log⟩
    | session | synth | heartbeat | watchdog | reap | flushDirty | flushFeed =>
      exact absurd rfl ha

/-- The id of the next session counts the connections. -/
theorem nextSessionId_after (cfg : Config) (clock : Clock) (actions : List Action)
    (hids : accepts actions + 1 < 2 ^ 32) :
    (after cfg clock actions).nextSessionId = accepts actions + 1 := by
  have hid := (sound_after cfg clock actions (by omega)).2
  rw [Nat.mod_eq_of_lt hids] at hid
  exact hid

/-- **The feed over a run**: the exchange is on air in every state reached, as long as the session
ids and the order ids have not wrapped. -/
theorem onAir_after (cfg : Config) (clock : Clock) (hfew : cfg.symbols.length < 2 ^ 16)
    (actions : List Action) (hsessions : accepts actions < 2 ^ 32)
    (horders : (after cfg clock actions).nextOrderId ≤ 2 ^ 64) :
    OnAir (new cfg clock).engine.abs cfg.symbols (accepts actions) (after cfg clock actions) := by
  induction actions using List.reverseRecOn with
  | nil => exact onAir_new cfg clock
  | append_singleton actions a ih =>
    have hsum : accepts (actions ++ [a]) = accepts actions + a.accepts := by simp [accepts]
    have hafter : after cfg clock (actions ++ [a]) = (after cfg clock actions).step a := by
      simp [after]
    rw [hafter] at horders ⊢
    rw [hsum] at hsessions ⊢
    have hbefore := ih (by omega) ((orderId_step _ a).trans horders)
    exact (hbefore.step hfew a (fun hone => nextSessionId_after cfg clock actions (by omega))
      horders).1

/-- **The history only grows.** -/
theorem log_after (cfg : Config) (clock : Clock) (hfew : cfg.symbols.length < 2 ^ 16)
    (actions more : List Action) (hsessions : accepts (actions ++ more) < 2 ^ 32)
    (horders : (after cfg clock (actions ++ more)).nextOrderId ≤ 2 ^ 64) :
    (after cfg clock actions).log <+: (after cfg clock (actions ++ more)).log ∧
      (after cfg clock actions).nextOrderId ≤ (after cfg clock (actions ++ more)).nextOrderId := by
  induction more using List.reverseRecOn with
  | nil =>
    rw [List.append_nil]
    exact ⟨List.prefix_refl _, le_rfl⟩
  | append_singleton more a ih =>
    have hsum : accepts (actions ++ more ++ [a]) = accepts (actions ++ more) + a.accepts := by
      simp [accepts, Nat.add_assoc]
    have hafter : after cfg clock (actions ++ more ++ [a]) =
        (after cfg clock (actions ++ more)).step a := by
      simp [after]
    rw [← List.append_assoc] at hsessions horders ⊢
    rw [hsum] at hsessions
    rw [hafter] at horders ⊢
    have hle := orderId_step (after cfg clock (actions ++ more)) a
    obtain ⟨hlog, hids⟩ := ih (by omega) (hle.trans horders)
    have hon := onAir_after cfg clock hfew (actions ++ more) (by omega) (hle.trans horders)
    have hstep := hon.step hfew a
      (fun hone => nextSessionId_after cfg clock (actions ++ more) (by omega)) horders
    exact ⟨hlog.trans hstep.2, hids.trans hle⟩

end Exchange

end PulseForge
