import PulseForge.Foundation.Machine
import PulseForge.Analysis.MarketFacts
import PulseForge.Analysis.MatchingEngineSpec

/-!
# Runs of the engine

A run is any list of calls on a new engine: symbols listed at any time, orders submitted and
cancelled with any arguments. Every engine reached is well-formed, so every call of every
run follows the reference matcher and the event protocol.
-/

set_option autoImplicit false

namespace PulseForge

open Foundation

/-- A call on the engine. -/
inductive EngineOp where
  | addSymbol (symbol : Symbol) (cfg : BookConfig)
  | submit (locate : ℕ) (req : OrderRequest)
  | cancel (locate id newQty owner : ℕ) (why : CancelReason)

namespace MatchingEngine

variable {e : MatchingEngine}

/-- One call, with its callbacks. A constructor that throws leaves the engine as it is; a
loop that did not end would leave none, and `submit_isSome` says that it ends. -/
def call (e : MatchingEngine) : EngineOp → MatchingEngine × List Callback
  | .addSymbol symbol cfg =>
    match e.addSymbol symbol cfg with
    | .ok (e', _) => (e', [])
    | .error _ => (e, [])
  | .submit locate req => (e.submit locate req).getD (e, [])
  | .cancel locate id newQty owner why =>
    let (e', _, cbs) := e.cancel locate id newQty owner why
    (e', cbs)

/-- A new engine: no symbol is listed. -/
def start (stp : SelfMatchPolicy) (maxOrderQty : ℕ) : MatchingEngine :=
  { stp := stp, maxOrderQty := maxOrderQty }

/-- The engine after a run of calls. -/
def after (stp : SelfMatchPolicy) (maxOrderQty : ℕ) (ops : List EngineOp) : MatchingEngine :=
  (run call (start stp maxOrderQty) ops).1

/-- A symbol is refused or its book stands behind the others. -/
theorem addSymbol_cases (e : MatchingEngine) (symbol : Symbol) (cfg : BookConfig) :
    (∃ why, e.addSymbol symbol cfg = .error why) ∨
      ∃ b, OrderBook.new cfg = .ok b ∧ e.addSymbol symbol cfg =
        .ok ({ e with books := e.books ++ [b], symbols := e.symbols ++ [symbol] },
          (e.books.length + 1) % 2 ^ 16) := by
  unfold addSymbol
  cases hnew : OrderBook.new cfg with
  | error why => exact .inl ⟨why, rfl⟩
  | ok b =>
    refine .inr ⟨b, rfl, ?_⟩
    show Except.ok _ = _
    simp

/-- What a call can do: list a symbol with an empty book, or follow the event protocol. -/
theorem call_cases (h : e.WF) (op : EngineOp) :
    (e.call op).1.WF ∧
      ((∃ b symbol, b.WF ∧ (∀ s, b.orders s = []) ∧
          e.call op = ({ e with books := e.books ++ [b], symbols := e.symbols ++ [symbol] }, [])) ∨
        Traced ⟨e.abs, none⟩ (e.call op).2 ⟨(e.call op).1.abs, none⟩) := by
  cases op with
  | addSymbol symbol cfg =>
    rcases addSymbol_cases e symbol cfg with ⟨why, hadd⟩ | ⟨b, hnew, hadd⟩
    · simp only [call, hadd]
      exact ⟨h, .inr (.nil _)⟩
    · have hb := (OrderBook.new_wf hnew).1
      simp only [call, hadd]
      refine ⟨⟨?_, by simp [h.symbols_len]⟩,
        .inl ⟨b, symbol, hb, OrderBook.new_orders hnew, rfl⟩⟩
      intro x hx
      rcases List.mem_append.mp hx with hx | hx
      · exact h.books x hx
      · rw [List.mem_singleton.mp hx]
        exact hb
  | submit locate req =>
    obtain ⟨e', cbs, hsub, hwf, -, htr⟩ := submit_spec h locate req
    simp only [call, hsub, Option.getD_some]
    exact ⟨hwf, .inr htr⟩
  | cancel locate id newQty owner why =>
    obtain ⟨e', code, cbs, hcan, hwf, -, htr⟩ := cancel_spec h locate id newQty owner why
    simp only [call, hcan]
    exact ⟨hwf, .inr htr⟩

/-- A new engine is well-formed. -/
theorem wf_start (stp : SelfMatchPolicy) (maxOrderQty : ℕ) : (start stp maxOrderQty).WF :=
  ⟨by simp [start], rfl⟩

/-- **Every engine reached is well-formed.** -/
theorem wf_after (stp : SelfMatchPolicy) (maxOrderQty : ℕ) (ops : List EngineOp) :
    (after stp maxOrderQty ops).WF := by
  have hrun : ∀ (ops : List EngineOp) (e : MatchingEngine), e.WF → (run call e ops).1.WF := by
    intro ops
    induction ops with
    | nil => exact fun _ h => h
    | cons op ops ih => exact fun e h => ih _ (call_cases h op).1
  exact hrun ops _ (wf_start stp maxOrderQty)

/-! ## Which call an event comes from -/

/-- The events of a walk belong to the request that walks. -/
theorem walk_during (stp : SelfMatchPolicy) (locate : ℕ) (req : OrderRequest)
    (nextMatch remaining : ℕ) (contra : List BookOrder) :
    ∀ ev ∈ (walk stp locate req nextMatch remaining contra).events, ev.During locate req := by
  induction contra generalizing nextMatch remaining with
  | nil => simp [walk]
  | cons maker rest ih =>
    have hcons : ∀ {w : Walk} {first : Event}, first.During locate req →
        (∀ ev ∈ w.events, ev.During locate req) →
        ∀ ev ∈ (w.after first).events, ev.During locate req := by
      intro w first hfirst hw ev hev
      rcases List.mem_cons.mp hev with rfl | hev
      · exact hfirst
      · exact hw ev hev
    by_cases h0 : remaining = 0
    · rw [h0, walk_zero]
      simp
    by_cases hcross : req.side.crosses maker.price req.price
    swap
    · rw [walk_beyond hcross]
      simp
    by_cases hown : req.owner ≠ 0 ∧ maker.owner = req.owner
    · rw [walk_selfMatch h0 hcross hown]
      cases stp with
      | cancelResting => exact hcons rfl (ih _ _)
      | cancelIncoming => simp [Event.During]
    · rw [walk_fill h0 hcross hown rfl]
      refine hcons rfl ?_
      split
      · exact ih _ _
      · next hq =>
        -- the maker was not used up, so nothing remains of the order
        have hle : remaining ≤ maker.qty := by
          by_contra hc
          exact hq (min_eq_right (by omega))
        rw [min_eq_left hle, Nat.sub_self, walk_zero]
        simp

/-- So do the events that end the request. -/
theorem settle_during (r : RefEngine) (locate : ℕ) (m : Market) (req : OrderRequest)
    (remaining : ℕ) : ∀ ev ∈ (r.settle locate m req remaining).2, ev.During locate req := by
  unfold RefEngine.settle
  split_ifs
  · simp
  · simp [Event.During]
  · simp [Event.During]
  · simp only [List.mem_singleton, forall_eq]
    exact ⟨rfl, remaining, rfl⟩

/-- **The events of a submit** are about its order and its symbol. -/
theorem submit_during (r : RefEngine) (locate : ℕ) (req : OrderRequest) :
    ∀ ev ∈ (r.submit locate req).2, ev.During locate req := by
  unfold RefEngine.submit
  cases r.refusal locate req with
  | some why => simp [Event.During]
  | none =>
    cases r.market? locate with
    | none => simp
    | some m =>
      have hwalk := walk_during r.stp locate req r.nextMatch req.qty (m.side req.side.opposite)
      dsimp only
      split
      · intro ev hev
        rcases List.mem_cons.mp hev with rfl | hev
        · exact ⟨rfl, rfl⟩
        · exact hwalk ev hev
      · intro ev hev
        rcases List.mem_cons.mp hev with rfl | hev
        · exact ⟨rfl, rfl⟩
        · rcases List.mem_append.mp hev with hev | hev
          · exact hwalk ev hev
          · exact settle_during _ _ _ _ _ ev hev

/-- **The event of a cancel** is about the order that was asked for. -/
theorem cancel_event (r : RefEngine) (locate id newQty owner : ℕ) (why : CancelReason) :
    ∀ ev ∈ (r.cancel locate id newQty owner why).2.2, ∃ o, o.owner = owner ∧ newQty < o.qty ∧
      ev = .restingCancelled locate o (o.qty - newQty) why := by
  unfold RefEngine.cancel
  cases r.market? locate with
  | none => simp
  | some m =>
    cases hfind : m.find id with
    | none => simp [hfind]
    | some o =>
      simp only [hfind]
      split_ifs with howner hqty
      · simp
      · simp
      · intro ev hev
        exact ⟨o, not_not.mp howner, not_le.mp hqty, List.mem_singleton.mp hev⟩

/-- An event that a call can cause. -/
def EngineOp.Emits : EngineOp → Event → Prop
  | .addSymbol _ _, _ => False
  | .submit locate req, ev => ev.During locate req
  | .cancel locate _ _ _ why, ev => ∃ o shares, ev = .restingCancelled locate o shares why

/-- Every event of a call belongs to that call. -/
theorem call_emits (h : e.WF) (op : EngineOp) : ∀ cb ∈ (e.call op).2, EngineOp.Emits op cb.event := by
  intro cb hcb
  cases op with
  | addSymbol symbol cfg =>
    simp only [call] at hcb
    split at hcb <;> exact absurd hcb (by simp)
  | submit locate req =>
    obtain ⟨e', cbs, hsub, -, habs, -⟩ := submit_spec h locate req
    simp only [call, hsub, Option.getD_some] at hcb
    have hmem : cb.event ∈ (e.abs.submit locate req).2 := by
      rw [← habs]
      exact List.mem_map_of_mem hcb
    exact submit_during _ _ _ _ hmem
  | cancel locate id newQty owner why =>
    obtain ⟨e', code, cbs, hcan, -, habs, -⟩ := cancel_spec h locate id newQty owner why
    simp only [call, hcan] at hcb
    have hmem : cb.event ∈ (e.abs.cancel locate id newQty owner why).2.2 := by
      rw [← habs]
      exact List.mem_map_of_mem hcb
    obtain ⟨o, -, -, hev⟩ := cancel_event _ _ _ _ _ _ _ hmem
    exact ⟨o, _, hev⟩

/-! ## Listeners -/

/-- What every rule of the event protocol keeps between the markets and a listener holds
after the callbacks. -/
theorem Traced.listen {σ : Type} {f : σ → Callback → σ} {R : Flow → σ → Prop} {x y : Flow}
    {cbs : List Callback}
    (hstep : ∀ x cb y s, cb ∈ cbs → x.engine.WF → y.engine.WF → cb.engine.abs = y.engine →
      x.Step cb.event y → R x s → R y (f s cb))
    (h : Traced x cbs y) (hx : x.engine.WF) {s : σ} (hR : R x s) : R y (cbs.foldl f s) := by
  induction h generalizing s with
  | nil => exact hR
  | cons hs habs hwf _ _ ih =>
    have hy := habs ▸ hwf.abs
    refine ih (fun x cb y s hcb => hstep x cb y s (List.mem_cons_of_mem _ hcb)) hy ?_
    exact hstep _ _ _ s List.mem_cons_self hx hy habs hs hR

/-- A symbol listed with an empty market. -/
def list (r : RefEngine) (symbol : Symbol) (cfg : BookConfig) : RefEngine :=
  { r with markets := r.markets ++ [⟨cfg, [], []⟩], symbols := r.symbols ++ [symbol] }

/-- **Listeners over runs.** A relation between the markets and a listener that holds before
the run, that listing a symbol keeps and that every rule of the event protocol keeps holds
after the run. -/
theorem run_listen {σ : Type} {f : σ → Callback → σ} {R : Flow → σ → Prop} {s : σ}
    (ops : List EngineOp) (h : e.WF) (hR : R ⟨e.abs, none⟩ s)
    (hlist : ∀ r symbol cfg s, R ⟨r, none⟩ s → R ⟨list r symbol cfg, none⟩ s)
    (hstep : ∀ x cb y s, (∃ op ∈ ops, EngineOp.Emits op cb.event) → x.engine.WF → y.engine.WF →
      cb.engine.abs = y.engine → x.Step cb.event y → R x s → R y (f s cb)) :
    R ⟨(run call e ops).1.abs, none⟩ ((run call e ops).2.flatten.foldl f s) := by
  have hrun : ∀ (ops' : List EngineOp) (e : MatchingEngine) (s : σ), (∀ op ∈ ops', op ∈ ops) →
      e.WF → R ⟨e.abs, none⟩ s →
      R ⟨(run call e ops').1.abs, none⟩ ((run call e ops').2.flatten.foldl f s) := by
    intro ops'
    induction ops' with
    | nil => exact fun e s _ _ hR => hR
    | cons op ops' ih =>
      intro e s hops hwf hR
      obtain ⟨hwf', hcases⟩ := call_cases hwf op
      have hnext : R ⟨(e.call op).1.abs, none⟩ ((e.call op).2.foldl f s) := by
        rcases hcases with ⟨b, symbol, -, hempty, hcall⟩ | htr
        · have habs : (e.call op).1.abs = list e.abs symbol b.cfg := by
            rw [hcall]
            simp [abs, list, OrderBook.market, hempty]
          rw [habs, hcall]
          exact hlist _ _ _ _ hR
        · refine htr.listen (fun x cb y s hcb => hstep x cb y s ?_) hwf.abs hR
          exact ⟨op, hops op List.mem_cons_self, call_emits hwf op cb hcb⟩
      have hrest := ih _ _ (fun o ho => hops o (List.mem_cons_of_mem _ ho)) hwf' hnext
      rw [run_cons]
      simpa using hrest
  exact hrun ops e s (fun _ h => h) h hR

/-! ## Invariants of runs -/

/-- All events of a run, in the order the listener saw them. -/
def eventLog (stp : SelfMatchPolicy) (maxOrderQty : ℕ) (ops : List EngineOp) : List Event :=
  (run call (start stp maxOrderQty) ops).2.flatten.map Callback.event

/-- **Invariants over runs.** A property of the event log and the state that holds of a new
engine, that listing a symbol keeps and that every rule of the event protocol keeps holds
after every run. -/
theorem runs_invariant (stp : SelfMatchPolicy) (maxOrderQty : ℕ) {P : List Event → Flow → Prop}
    (hstart : P [] ⟨(start stp maxOrderQty).abs, none⟩)
    (hlist : ∀ log r symbol cfg, P log ⟨r, none⟩ → P log ⟨list r symbol cfg, none⟩)
    (hstep : ∀ log x ev y, x.engine.WF → y.engine.WF → P log x → x.Step ev y → P (log ++ [ev]) y)
    (ops : List EngineOp) :
    P (eventLog stp maxOrderQty ops) ⟨(after stp maxOrderQty ops).abs, none⟩ := by
  -- the log is a listener that appends
  have hlog : ∀ (cbs : List Callback) (log : List Event),
      cbs.foldl (fun log cb => log ++ [cb.event]) log = log ++ cbs.map Callback.event := by
    intro cbs
    induction cbs with
    | nil => simp
    | cons cb cbs ih => simp [ih]
  have h := run_listen (f := fun log (cb : Callback) => log ++ [cb.event])
    (R := fun x log => P log x) ops (wf_start stp maxOrderQty) hstart
    (fun r symbol cfg log => hlist log r symbol cfg)
    (fun x cb y log _ hx hy _ hs hP => hstep log x cb.event y hx hy hP hs)
  rw [hlog] at h
  exact h

end MatchingEngine

end PulseForge
