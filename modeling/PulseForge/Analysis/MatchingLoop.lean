import PulseForge.Interface.EventFlow
import PulseForge.Analysis.Markets

/-!
# The matching loop

The loop is analysed once, in `matchLoop_spec`: on well-formed books it ends, its events and
the book it leaves are those of `walk`, and its callbacks follow the event protocol.
-/

set_option autoImplicit false

namespace PulseForge.MatchingEngine

variable {e : MatchingEngine} {locate : ℕ} {req : OrderRequest}

/-! ## Callbacks that follow the event protocol -/

/-- The callbacks of one call lead from `x` to `y` by the rules of the event protocol, and
each shows the listener the engine that the protocol says. Between two of them an order is
being matched. -/
inductive Traced : Flow → List Callback → Flow → Prop
  | nil (x : Flow) : Traced x [] x
  | cons {x y z : Flow} {cb : Callback} {cbs : List Callback} (hstep : x.Step cb.event y)
      (habs : cb.engine.abs = y.engine) (hwf : cb.engine.WF) (hbusy : y.taker = none → cbs = [])
      (htail : Traced y cbs z) : Traced x (cb :: cbs) z

/-- One callback list after another; nothing follows the end of a taker. -/
theorem Traced.append {x y z : Flow} {cbs cbs' : List Callback} (h : Traced x cbs y)
    (h' : Traced y cbs' z) (hbusy' : y.taker = none → cbs' = []) : Traced x (cbs ++ cbs') z := by
  induction h with
  | nil => exact h'
  | cons hstep habs hwf hbusy htail ih =>
    refine .cons hstep habs hwf (fun hnone => ?_) (ih h' hbusy')
    obtain rfl := hbusy hnone
    cases htail with
    | nil => exact hbusy' hnone

/-! ## The matching loop -/

theorem walk_zero (stp : SelfMatchPolicy) (locate : ℕ) (req : OrderRequest) (nextMatch : ℕ)
    (contra : List BookOrder) :
    walk stp locate req nextMatch 0 contra = ⟨contra, some 0, nextMatch, []⟩ := by
  cases contra with
  | nil => rfl
  | cons maker rest => simp [walk]

section Walk

variable {stp : SelfMatchPolicy} {nextMatch remaining : ℕ} {maker : BookOrder}
  {rest : List BookOrder}

/-- The walk ends at the first price that does not cross. -/
theorem walk_beyond (hcross : ¬ req.side.crosses maker.price req.price) :
    walk stp locate req nextMatch remaining (maker :: rest) =
      ⟨maker :: rest, some remaining, nextMatch, []⟩ := by
  cases stp <;> simp [walk, hcross]

/-- The policy decides at an order of the same owner. -/
theorem walk_selfMatch (h0 : remaining ≠ 0) (hcross : req.side.crosses maker.price req.price)
    (hown : req.owner ≠ 0 ∧ maker.owner = req.owner) :
    walk stp locate req nextMatch remaining (maker :: rest) =
      match stp with
      | .cancelResting =>
        (walk stp locate req nextMatch remaining rest).after
          (.restingCancelled locate maker maker.qty .selfMatch)
      | .cancelIncoming =>
        ⟨maker :: rest, none, nextMatch, [.takerCancelled locate req remaining .selfMatch]⟩ := by
  cases stp <;> simp only [walk, h0, hcross, not_true_eq_false, or_self, if_false, if_pos hown]

/-- Any other crossing order is filled as far as the shares reach. -/
theorem walk_fill (h0 : remaining ≠ 0) (hcross : req.side.crosses maker.price req.price)
    (hother : ¬ (req.owner ≠ 0 ∧ maker.owner = req.owner)) {q : ℕ}
    (hq : q = min remaining maker.qty) :
    walk stp locate req nextMatch remaining (maker :: rest) =
      (walk stp locate req ((nextMatch + 1) % 2 ^ 64) (remaining - q)
        (if q = maker.qty then rest else { maker with qty := maker.qty - q } :: rest)).after
          (.fill locate (makeFill nextMatch req maker q remaining)) := by
  subst hq
  have hsplit : walk stp locate req nextMatch remaining (maker :: rest) =
      if min remaining maker.qty = maker.qty then
        (walk stp locate req ((nextMatch + 1) % 2 ^ 64) (remaining - min remaining maker.qty)
          rest).after
          (.fill locate (makeFill nextMatch req maker (min remaining maker.qty) remaining))
      else
        ⟨{ maker with qty := maker.qty - min remaining maker.qty } :: rest,
          some (remaining - min remaining maker.qty), (nextMatch + 1) % 2 ^ 64,
          [.fill locate (makeFill nextMatch req maker (min remaining maker.qty) remaining)]⟩ := by
    cases stp <;> simp only [walk, h0, hcross, not_true_eq_false, or_self, if_false, if_neg hother]
  rw [hsplit]
  split
  · rfl
  · next hne =>
    -- the maker outlasts the order
    have hzero : remaining - min remaining maker.qty = 0 := by omega
    rw [hzero, walk_zero]
    rfl

end Walk

/-- Of two writes to a side the second counts. -/
theorem setSide_setSide (m : Market) (s : Side) (l l' : List BookOrder) :
    (m.setSide s l).setSide s l' = m.setSide s l' := by
  cases s <;> rfl

/-- Writing back a side changes nothing. -/
theorem setSide_self (m : Market) (s : Side) : m.setSide s (m.side s) = m := by
  cases s <;> rfl

/-- The engine whose book of `locate` is as in the walk. -/
def walked (r : RefEngine) (locate : ℕ) (m : Market) (s : Side) (w : Walk) : RefEngine :=
  { r.setMarket locate (m.setSide s w.contra) with nextMatch := w.nextMatch }

/-- The book of the locate is the one the walk left. -/
theorem market_of_walked {e₁ : MatchingEngine} {m : Market} {s : Side} {w : Walk}
    (hv : e.validLocate locate) (habs : e₁.abs = walked e.abs locate m s w) :
    e₁.validLocate locate ∧ (e₁.book locate).market = m.setSide s w.contra := by
  have hmarket : e.abs.market? locate = some (e.book locate).market := by
    rw [market?_abs, if_pos hv]
  have hwalked : e₁.abs.market? locate = some (m.setSide s w.contra) := by
    rw [habs]
    exact RefEngine.market?_setMarket hmarket _
  exact validLocate_of_market? hwalked

/-- A walk that took nothing leaves the engine as it was. -/
theorem walked_unchanged (hv : e.validLocate locate) (s : Side) (left : Option ℕ)
    (evs : List Event) :
    walked e.abs locate (e.book locate).market s
      ⟨(e.book locate).orders s, left, e.nextMatch, evs⟩ = e.abs := by
  rw [walked, ← OrderBook.market_side, setSide_self, ← abs_setBook, setBook_self hv]
  rfl

/-- Taking shares off the front order leaves the rest of its side. -/
theorem take_front {b : OrderBook} (h : b.WF) {s : Side} {maker : BookOrder}
    {rest : List BookOrder} (hs : b.orders s = maker :: rest) (q : ℕ) :
    b.market.take maker q = b.market.setSide s
      (if q = maker.qty then rest else { maker with qty := maker.qty - q } :: rest) := by
  obtain rfl : maker.side = s := OrderBook.side_of_mem h (by rw [hs]; exact List.mem_cons_self)
  obtain ⟨hne, -⟩ := OrderBook.id_ne_of_head h hs
  rw [Market.take, OrderBook.market_side, hs]
  congr 1
  split
  · exact OrderBook.dropId_cons_self hne
  · exact OrderBook.reduceId_cons_self hne

/-- The state of a loop that goes on after a maker was used up or cut down. -/
theorem walked_after {e' : MatchingEngine} {m : Market} {s : Side} {l : List BookOrder} {nm : ℕ}
    (habs : e'.abs = { e.abs.setMarket locate (m.setSide s l) with nextMatch := nm })
    (w : Walk) (ev : Event) :
    walked e'.abs locate (m.setSide s l) s w = walked e.abs locate m s (w.after ev) := by
  rw [walked, walked, setSide_setSide, habs]
  simp [RefEngine.setMarket, Walk.after]

/-! ## The turns of the loop -/

section Turn

variable {fuel remaining nm : ℕ} {maker : BookOrder} {rest : List BookOrder}

/-- The turn that cancels a resting order of the same owner. -/
theorem matchLoop_selfMatch (hb : (e.book locate).WF) (h0 : remaining ≠ 0)
    (hs : (e.book locate).orders req.side.opposite = maker :: rest)
    (hcross : req.side.crosses maker.price req.price)
    (hown : req.owner ≠ 0 ∧ maker.owner = req.owner) (hstp : e.stp = .cancelResting) :
    matchLoop locate req (fuel + 1) e remaining =
      (matchLoop locate req fuel (e.setBook locate ((e.book locate).remove maker.id).1)
        remaining).map fun (e', left, cbs) =>
          (e', left, ⟨.restingCancelled locate maker maker.qty .selfMatch,
            e.setBook locate ((e.book locate).remove maker.id).1⟩ :: cbs) := by
  rw [matchLoop, if_neg h0, OrderBook.front_eq_head? hb, hs]
  simp only [List.head?_cons]
  rw [if_neg (not_not.mpr hcross), if_pos hown, hstp]

/-- The turn that fills the front order of the other side. -/
theorem matchLoop_fill (hb : (e.book locate).WF) (h0 : remaining ≠ 0)
    (hs : (e.book locate).orders req.side.opposite = maker :: rest)
    (hcross : req.side.crosses maker.price req.price)
    (hown : ¬ (req.owner ≠ 0 ∧ maker.owner = req.owner)) {e₁ : MatchingEngine}
    (he₁ : e₁ = { e.setBook locate ((e.book locate).reduceFront req.side.opposite
      (min remaining maker.qty)) with nextMatch := (e.nextMatch + 1) % 2 ^ 64 }) :
    matchLoop locate req (fuel + 1) e remaining =
      (matchLoop locate req fuel e₁ (remaining - min remaining maker.qty)).map
        fun (e', left, cbs) =>
          (e', left, ⟨.fill locate (makeFill e.nextMatch req maker (min remaining maker.qty)
            remaining), e₁⟩ :: cbs) := by
  subst he₁
  rw [matchLoop, if_neg h0, OrderBook.front_eq_head? hb, hs]
  simp only [List.head?_cons]
  rw [if_neg (not_not.mpr hcross), if_neg hown]

/-- The loop ends as `w` says: the engine it leaves, the events, and the protocol. -/
def Walks (locate : ℕ) (req : OrderRequest) (fuel : ℕ) (e : MatchingEngine) (remaining : ℕ)
    (w : Walk) : Prop :=
  ∃ e' cbs, matchLoop locate req fuel e remaining = some (e', w.remaining, cbs) ∧ e'.WF ∧
    e'.abs = walked e.abs locate (e.book locate).market req.side.opposite w ∧
    cbs.map Callback.event = w.events ∧
    Traced ⟨e.abs, Flow.taking locate req remaining⟩ cbs
      ⟨e'.abs, w.remaining.bind (Flow.taking locate req)⟩

/-- The loop ends here, with nothing called. -/
theorem Walks.here (h : e.WF) (hv : e.validLocate locate)
    (hloop : matchLoop locate req fuel e remaining = some (e, some remaining, [])) :
    Walks locate req fuel e remaining
      ⟨(e.book locate).orders req.side.opposite, some remaining, e.nextMatch, []⟩ :=
  ⟨e, [], hloop, h, (walked_unchanged hv _ _ _).symm, rfl, .nil _⟩

/-- **A turn that goes on**: one callback, then the turns that follow. -/
theorem Walks.turn {e₁ : MatchingEngine} {remaining₁ : ℕ} {ev : Event} {l : List BookOrder}
    {w : Walk}
    (hloop : matchLoop locate req (fuel + 1) e remaining =
      (matchLoop locate req fuel e₁ remaining₁).map fun (e', left, cbs) =>
        (e', left, ⟨ev, e₁⟩ :: cbs))
    (hwf : e₁.WF)
    (hmarket : (e₁.book locate).market = (e.book locate).market.setSide req.side.opposite l)
    (habs : e₁.abs = { e.abs.setMarket locate
      ((e.book locate).market.setSide req.side.opposite l) with nextMatch := nm })
    (hstep : Flow.Step ⟨e.abs, Flow.taking locate req remaining⟩ ev
      ⟨e₁.abs, Flow.taking locate req remaining₁⟩)
    (hdone : remaining₁ = 0 → w.events = [])
    (hrest : Walks locate req fuel e₁ remaining₁ w) :
    Walks locate req (fuel + 1) e remaining (w.after ev) := by
  obtain ⟨e', cbs, hrun, hwf', habs', hevs, htr⟩ := hrest
  refine ⟨e', ⟨ev, e₁⟩ :: cbs, ?_, hwf', ?_, ?_, .cons hstep rfl hwf (fun hnone => ?_) htr⟩
  · rw [hloop, hrun]
    rfl
  · rw [habs', hmarket]
    exact walked_after habs w ev
  · rw [List.map_cons, hevs]
    rfl
  · -- nothing remains of the order, so the walk has no more events
    have hzero : remaining₁ = 0 := by
      by_contra hne
      exact absurd hnone (by simp [Flow.taking, hne])
    exact List.map_eq_nil_iff.mp (hevs.trans (hdone hzero))

/-- The front maker is taken out. -/
theorem walks_selfMatch (h : e.WF) (hv : e.validLocate locate) (h0 : remaining ≠ 0)
    (hs : (e.book locate).orders req.side.opposite = maker :: rest)
    (hcross : req.side.crosses maker.price req.price)
    (hown : req.owner ≠ 0 ∧ maker.owner = req.owner) (hstp : e.stp = .cancelResting) {w : Walk}
    (ih : ∀ e₁ : MatchingEngine, e₁.WF → e₁.validLocate locate → e₁.stp = e.stp →
      e₁.nextMatch = e.nextMatch → (e₁.book locate).orders req.side.opposite = rest →
      Walks locate req fuel e₁ remaining w) :
    Walks locate req (fuel + 1) e remaining
      (w.after (.restingCancelled locate maker maker.qty .selfMatch)) := by
  have hb := h.book hv
  have hfind := (OrderBook.find_eq_some_iff hb).mpr ⟨_, hs ▸ List.mem_cons_self, rfl⟩
  obtain ⟨hb', -, hmkt⟩ := OrderBook.remove_market hb hfind
  set b' := ((e.book locate).remove maker.id).1
  have hmkt' : b'.market = (e.book locate).market.setSide req.side.opposite rest := by
    rw [hmkt, take_front hb hs, if_pos rfl]
  have hbook : (e.setBook locate b').book locate = b' := book_setBook hv b'
  have hord : ((e.setBook locate b').book locate).orders req.side.opposite = rest := by
    rw [hbook, ← OrderBook.market_side, hmkt', OrderBook.side_setSide, if_pos rfl]
  have habs : (e.setBook locate b').abs = { e.abs.setMarket locate
      ((e.book locate).market.setSide req.side.opposite rest) with nextMatch := e.nextMatch } := by
    rw [abs_setBook, hmkt']
    rfl
  have hstep : Flow.Step ⟨e.abs, Flow.taking locate req remaining⟩
      (.restingCancelled locate maker maker.qty .selfMatch)
      ⟨(e.setBook locate b').abs, Flow.taking locate req remaining⟩ := by
    have hmarket : e.abs.market? locate = some (e.book locate).market := by
      rw [market?_abs, if_pos hv]
    have hfront : (e.book locate).market.side req.side.opposite = maker :: rest := by
      rw [OrderBook.market_side, hs]
    rw [abs_setBook, hmkt, show Flow.taking locate req remaining = some (locate, req, remaining)
      from if_neg h0]
    exact .selfMatch hmarket hfront (Nat.pos_of_ne_zero h0) hown hstp
  refine Walks.turn (matchLoop_selfMatch hb h0 hs hcross hown hstp) (h.setBook hb')
    (by rw [hbook, hmkt']) habs hstep (fun hc => absurd hc h0) ?_
  exact ih _ (h.setBook hb') (validLocate_setBook.mpr hv) rfl rfl hord

/-- The front maker is filled, as far as the order reaches. -/
theorem walks_fill (h : e.WF) (hv : e.validLocate locate) (h0 : remaining ≠ 0)
    (hs : (e.book locate).orders req.side.opposite = maker :: rest)
    (hcross : req.side.crosses maker.price req.price)
    (hown : ¬ (req.owner ≠ 0 ∧ maker.owner = req.owner)) {q : ℕ}
    (hq : q = min remaining maker.qty) {left : List BookOrder}
    (hleft : left = if q = maker.qty then rest else { maker with qty := maker.qty - q } :: rest)
    {w : Walk} (hdone : remaining - q = 0 → w.events = [])
    (ih : ∀ e₁ : MatchingEngine, e₁.WF → e₁.validLocate locate → e₁.stp = e.stp →
      e₁.nextMatch = (e.nextMatch + 1) % 2 ^ 64 → (e₁.book locate).orders req.side.opposite = left →
      Walks locate req fuel e₁ (remaining - q) w) :
    Walks locate req (fuel + 1) e remaining
      (w.after (.fill locate (makeFill e.nextMatch req maker q remaining))) := by
  subst hq
  have hb := h.book hv
  obtain ⟨hb', -, hmkt⟩ := OrderBook.reduceFront_market hb hs (min_le_right remaining maker.qty)
  set b' := (e.book locate).reduceFront req.side.opposite (min remaining maker.qty)
  have hmkt' : b'.market = (e.book locate).market.setSide req.side.opposite left := by
    rw [hmkt, take_front hb hs, hleft]
  set e₁ : MatchingEngine :=
    { e.setBook locate b' with nextMatch := (e.nextMatch + 1) % 2 ^ 64 } with he₁
  have hwf' : (e.setBook locate b').WF := h.setBook hb'
  have hwf₁ : e₁.WF := ⟨hwf'.books, hwf'.symbols_len⟩
  have hbook : e₁.book locate = b' := book_setBook hv b'
  have hord : (e₁.book locate).orders req.side.opposite = left := by
    rw [hbook, ← OrderBook.market_side, hmkt', OrderBook.side_setSide, if_pos rfl]
  have habs : e₁.abs =
      { e.abs.setMarket locate b'.market with nextMatch := (e.nextMatch + 1) % 2 ^ 64 } := by
    rw [← abs_setBook]
    rfl
  have hstep : Flow.Step ⟨e.abs, Flow.taking locate req remaining⟩
      (.fill locate (makeFill e.nextMatch req maker (min remaining maker.qty) remaining))
      ⟨e₁.abs, Flow.taking locate req (remaining - min remaining maker.qty)⟩ := by
    have hmarket : e.abs.market? locate = some (e.book locate).market := by
      rw [market?_abs, if_pos hv]
    have hfront : (e.book locate).market.side req.side.opposite = maker :: rest := by
      rw [OrderBook.market_side, hs]
    rw [habs, hmkt, show Flow.taking locate req remaining = some (locate, req, remaining)
      from if_neg h0]
    exact .fill hmarket hfront (Nat.pos_of_ne_zero h0) hcross hown
  refine Walks.turn (matchLoop_fill hb h0 hs hcross hown he₁) hwf₁ (by rw [hbook, hmkt'])
    (hmkt' ▸ habs) hstep hdone ?_
  exact ih e₁ hwf₁ (validLocate_setBook.mpr hv) rfl rfl hord

end Turn

/-- **The matching loop ends**, does what `walk` does, and its callbacks follow the event
protocol. The induction is on the fuel; a turn that goes on shortens the contra side or
uses up the order. -/
theorem matchLoop_spec (h : e.WF) (hv : e.validLocate locate) {fuel remaining : ℕ}
    (hpos : 0 < fuel)
    (hfuel : remaining ≠ 0 → ((e.book locate).orders req.side.opposite).length < fuel) {w : Walk}
    (hw : walk e.stp locate req e.nextMatch remaining
      ((e.book locate).orders req.side.opposite) = w) :
    Walks locate req fuel e remaining w := by
  induction fuel generalizing e remaining w with
  | zero => omega
  | succ fuel ih =>
    have hb := h.book hv
    by_cases h0 : remaining = 0
    · subst h0
      rw [walk_zero] at hw
      subst hw
      exact .here h hv (by rw [matchLoop, if_pos rfl])
    have hfuel := hfuel h0
    cases hs : (e.book locate).orders req.side.opposite with
    | nil =>
      rw [hs] at hw
      obtain rfl : ⟨[], some remaining, e.nextMatch, []⟩ = w := hw
      rw [← hs]
      refine .here h hv ?_
      rw [matchLoop, if_neg h0, OrderBook.front_eq_head? hb, hs]
      rfl
    | cons maker rest =>
      rw [hs] at hfuel hw
      rw [List.length_cons] at hfuel
      by_cases hcross : req.side.crosses maker.price req.price
      swap
      · -- the best contra price is beyond the limit
        rw [walk_beyond hcross, ← hs] at hw
        subst hw
        refine .here h hv ?_
        rw [matchLoop, if_neg h0, OrderBook.front_eq_head? hb, hs]
        exact if_pos hcross
      by_cases hown : req.owner ≠ 0 ∧ maker.owner = req.owner
      · rw [walk_selfMatch h0 hcross hown] at hw
        subst hw
        cases hstp : e.stp with
        | cancelResting =>
          refine walks_selfMatch h hv h0 hs hcross hown hstp fun e₁ hwf₁ hv₁ hstp₁ hnm hord => ?_
          refine ih hwf₁ hv₁ (by omega) (fun _ => by rw [hord]; omega) ?_
          rw [hstp₁, hnm, hord, hstp]
        | cancelIncoming =>
          refine ⟨e, [⟨.takerCancelled locate req remaining .selfMatch, e⟩], ?_, h, ?_, rfl, ?_⟩
          · rw [matchLoop, if_neg h0, OrderBook.front_eq_head? hb, hs]
            simp only [List.head?_cons]
            rw [if_neg (not_not.mpr hcross), if_pos hown, hstp]
          · rw [← hs]
            exact (walked_unchanged hv _ _ _).symm
          · rw [show Flow.taking locate req remaining = some (locate, req, remaining) from if_neg h0]
            exact .cons (.takerCancelled (Nat.pos_of_ne_zero h0)) rfl h (fun _ => rfl) (.nil _)
      · rw [walk_fill h0 hcross hown rfl] at hw
        subst hw
        have hmin := min_le_right remaining maker.qty
        refine walks_fill h hv h0 hs hcross hown rfl rfl (fun hzero => ?_)
          fun e₁ hwf₁ hv₁ hstp₁ hnm hord => ?_
        · rw [hzero, walk_zero]
        · refine ih hwf₁ hv₁ (by omega) (fun hne => ?_) ?_
          · rw [hord, if_pos (by omega)]
            omega
          · rw [hstp₁, hnm, hord]

end PulseForge.MatchingEngine
