import PulseForge.Analysis.EngineRuns

/-!
# Matching is exactly price-time priority

In every engine a run reaches, `submit` and `cancel` are those of the reference matcher.
From the walk along the contra side follow the three rules the matcher is for: no fill is
worse than the limit, none is between orders of one owner, and none skips an order ahead of
its maker: the makers used are the first of the contra side, in order, and all but the
last are gone.
-/

set_option autoImplicit false

namespace PulseForge

/-- The resting order an event used up or cut down while an order was matched. -/
def Event.maker? : Event → Option ℕ
  | .fill _ f => some f.makerId
  | .restingCancelled _ before _ _ => some before.id
  | _ => none

/-- The makers a list of events used, in order, are the front of `contra`; `left` is what
remains of `contra`, where only the last maker can be left, with fewer shares. -/
def FrontFirst (contra : List BookOrder) (evs : List Event) (left : List BookOrder) : Prop :=
  ∃ used rest, contra = used ++ rest ∧ evs.filterMap Event.maker? = used.map BookOrder.id ∧
    (left = rest ∨ ∃ front last q, used = front ++ [last] ∧ q < last.qty ∧
      left = { last with qty := last.qty - q } :: rest)

/-- A fill that respects the limit of the request and the rule against self-matches. -/
def FairFill (req : OrderRequest) (f : Fill) : Prop :=
  req.side.crosses f.price req.price ∧ f.takerOwner = req.owner ∧ 0 < f.qty ∧
    ¬ (f.makerOwner = f.takerOwner ∧ f.takerOwner ≠ 0)

namespace MatchingEngine

variable {locate : ℕ}

/-- The walk uses makers from the front. -/
theorem walk_frontFirst (stp : SelfMatchPolicy) (locate : ℕ) (req : OrderRequest)
    (nextMatch remaining : ℕ) (contra : List BookOrder) :
    FrontFirst contra (walk stp locate req nextMatch remaining contra).events
      (walk stp locate req nextMatch remaining contra).contra := by
  induction contra generalizing nextMatch remaining with
  | nil => exact ⟨[], [], rfl, rfl, .inl rfl⟩
  | cons maker rest ih =>
    have hnone : FrontFirst (maker :: rest) [] (maker :: rest) := ⟨[], _, rfl, rfl, .inl rfl⟩
    -- a maker used up, then the walk along the rest
    have hcons : ∀ (w : Walk) (ev : Event), ev.maker? = some maker.id →
        FrontFirst rest w.events w.contra →
        FrontFirst (maker :: rest) (w.after ev).events (w.after ev).contra := by
      rintro w ev hev ⟨used, rest', hsplit, hevs, hleft⟩
      refine ⟨maker :: used, rest', by rw [hsplit, List.cons_append], ?_, ?_⟩
      · rw [Walk.after, List.filterMap_cons_some hev, hevs, List.map_cons]
      · rcases hleft with hleft | ⟨front, last, q, hused, hq, hleft⟩
        · exact .inl hleft
        · exact .inr ⟨maker :: front, last, q, by rw [hused, List.cons_append], hq, hleft⟩
    by_cases h0 : remaining = 0
    · rw [h0, walk_zero]
      exact hnone
    by_cases hcross : req.side.crosses maker.price req.price
    swap
    · rw [walk_beyond hcross]
      exact hnone
    by_cases hown : req.owner ≠ 0 ∧ maker.owner = req.owner
    · rw [walk_selfMatch h0 hcross hown]
      cases stp with
      | cancelResting => exact hcons _ _ rfl (ih nextMatch remaining)
      | cancelIncoming => exact ⟨[], _, rfl, rfl, .inl rfl⟩
    · rw [walk_fill h0 hcross hown rfl]
      by_cases hall : min remaining maker.qty = maker.qty
      · rw [if_pos hall]
        exact hcons _ _ rfl (ih ((nextMatch + 1) % 2 ^ 64) _)
      · -- the maker outlasts the order
        have hzero : remaining - min remaining maker.qty = 0 := by omega
        rw [if_neg hall, hzero, walk_zero]
        exact ⟨[maker], rest, rfl, rfl,
          .inr ⟨[], maker, min remaining maker.qty, rfl, by omega, rfl⟩⟩

/-- Every fill of the walk is fair. -/
theorem walk_fairFill (stp : SelfMatchPolicy) (locate : ℕ) (req : OrderRequest)
    (nextMatch remaining : ℕ) {contra : List BookOrder} (hpos : ∀ m ∈ contra, 0 < m.qty) :
    ∀ f, .fill locate f ∈ (walk stp locate req nextMatch remaining contra).events →
      FairFill req f := by
  induction contra generalizing nextMatch remaining with
  | nil => simp [walk]
  | cons maker rest ih =>
    have hrest : ∀ m ∈ rest, 0 < m.qty := fun m hm => hpos m (List.mem_cons_of_mem _ hm)
    intro f
    by_cases h0 : remaining = 0
    · simp [h0, walk_zero]
    by_cases hcross : req.side.crosses maker.price req.price
    swap
    · simp [walk_beyond hcross]
    by_cases hown : req.owner ≠ 0 ∧ maker.owner = req.owner
    · rw [walk_selfMatch h0 hcross hown]
      cases stp with
      | cancelResting =>
        intro hf
        rcases List.mem_cons.mp hf with hf | hf
        · exact absurd hf (by simp)
        · exact ih _ _ hrest f hf
      | cancelIncoming => simp
    · have hmaker := hpos maker List.mem_cons_self
      have hfair : FairFill req
          (makeFill nextMatch req maker (min remaining maker.qty) remaining) :=
        ⟨hcross, rfl, by simp only [makeFill]; omega, fun hc => hown ⟨hc.2, hc.1⟩⟩
      rw [walk_fill h0 hcross hown rfl]
      intro hf
      rcases List.mem_cons.mp hf with hf | hf
      · rw [(Event.fill.inj hf).2]
        exact hfair
      · by_cases hall : min remaining maker.qty = maker.qty
        · rw [if_pos hall] at hf
          exact ih _ _ hrest f hf
        · have hzero : remaining - min remaining maker.qty = 0 := by omega
          rw [hzero, walk_zero] at hf
          exact absurd hf (by simp)

/-- What the reference `submit` does to the contra side. -/
theorem refSubmit_priority (req : OrderRequest) {r : RefEngine} {m : Market} (hm : r.market? locate = some m)
    (hpos : ∀ o ∈ m.side req.side.opposite, 0 < o.qty) :
    ∃ m', (r.submit locate req).1.market? locate = some m' ∧
      FrontFirst (m.side req.side.opposite) (r.submit locate req).2 (m'.side req.side.opposite) ∧
      ∀ f, .fill locate f ∈ (r.submit locate req).2 → FairFill req f := by
  unfold RefEngine.submit
  cases hwhy : r.refusal locate req with
  | some why => exact ⟨m, hm, ⟨[], _, rfl, rfl, .inl rfl⟩, by simp⟩
  | none =>
    simp only [hm]
    set w := walk r.stp locate req r.nextMatch req.qty (m.side req.side.opposite) with hw
    have hfront := walk_frontFirst r.stp locate req r.nextMatch req.qty (m.side req.side.opposite)
    have hfair := walk_fairFill r.stp locate req r.nextMatch req.qty hpos
    rw [← hw] at hfront hfair
    -- events after the walk use no maker and are no fills
    have hmore : ∀ evs : List Event, evs.filterMap Event.maker? = [] → (∀ f, .fill locate f ∉ evs) →
        FrontFirst (m.side req.side.opposite) (.accepted locate req :: w.events ++ evs) w.contra ∧
          ∀ f, .fill locate f ∈ (.accepted locate req :: w.events ++ evs : List Event) →
            FairFill req f := by
      intro evs hnone hno
      constructor
      · obtain ⟨used, rest, hsplit, hevs, hleft⟩ := hfront
        refine ⟨used, rest, hsplit, ?_, hleft⟩
        rw [List.cons_append, List.filterMap_cons_none rfl, List.filterMap_append, hnone,
          List.append_nil, hevs]
      · intro f hf
        rw [List.cons_append, List.mem_cons, List.mem_append] at hf
        rcases hf with hf | hf | hf
        · exact absurd hf (by simp)
        · exact hfair f hf
        · exact absurd hf (hno f)
    have hside : ∀ m' : Market, m' = m.setSide req.side.opposite w.contra →
        m'.side req.side.opposite = w.contra := by
      rintro m' rfl
      rw [OrderBook.side_setSide, if_pos rfl]
    have hset := RefEngine.market?_setMarket hm (m.setSide req.side.opposite w.contra)
    cases w.remaining with
    | none =>
      have := hmore [] rfl (by simp)
      rw [List.append_nil] at this
      refine ⟨_, hset, ?_⟩
      rw [hside _ rfl]
      exact this
    | some remaining =>
      simp only [RefEngine.settle]
      split_ifs
      · refine ⟨_, hset, ?_⟩
        rw [hside _ rfl]
        exact hmore [] rfl (by simp)
      · refine ⟨_, hset, ?_⟩
        rw [hside _ rfl]
        exact hmore _ rfl (by simp)
      · refine ⟨_, hset, ?_⟩
        rw [hside _ rfl]
        exact hmore _ rfl (by simp)
      · refine ⟨_, RefEngine.market?_setMarket (r := { r.setMarket locate _ with
          nextMatch := w.nextMatch }) hset _, ?_⟩
        have hother : req.side.opposite ≠ (req.resting remaining).side := by
          show req.side.opposite ≠ req.side
          cases req.side <;> decide
        rw [OrderBook.side_rest_other _ hother, hside _ rfl]
        exact hmore _ rfl (by simp)

/-- **Matching is exactly price-time priority.** In every engine reached by any run of calls
under either self-match policy, every `submit` ends, with the events and the books of the
reference matcher; on a listed symbol its fills are at prices within the limit and never
between orders of one owner, and the makers used are the front of the contra side. Every
`cancel` answers and acts as the reference. -/
theorem submit_is_price_time_priority (stp : SelfMatchPolicy) (maxOrderQty : ℕ)
    (ops : List EngineOp) :
    (∀ locate req, ∃ e' cbs,
      (after stp maxOrderQty ops).submit locate req = some (e', cbs) ∧
      (e'.abs, cbs.map Callback.event) = (after stp maxOrderQty ops).abs.submit locate req ∧
      ((after stp maxOrderQty ops).validLocate locate →
        FrontFirst (((after stp maxOrderQty ops).book locate).orders req.side.opposite)
          (cbs.map Callback.event) ((e'.book locate).orders req.side.opposite) ∧
        ∀ f, .fill locate f ∈ cbs.map Callback.event → FairFill req f)) ∧
    ∀ locate id newQty owner why, ∃ e' code cbs,
      (after stp maxOrderQty ops).cancel locate id newQty owner why = (e', code, cbs) ∧
      (e'.abs, code, cbs.map Callback.event) =
        (after stp maxOrderQty ops).abs.cancel locate id newQty owner why := by
  have hwf := wf_after stp maxOrderQty ops
  refine ⟨fun locate req => ?_, fun locate id newQty owner why => ?_⟩
  · obtain ⟨e', cbs, hsub, hwf', habs, -⟩ := submit_spec hwf locate req
    refine ⟨e', cbs, hsub, habs, fun hv => ?_⟩
    have hm : (after stp maxOrderQty ops).abs.market? locate =
        some ((after stp maxOrderQty ops).book locate).market := by
      rw [market?_abs, if_pos hv]
    obtain ⟨m', hm', hfront, hfair⟩ := refSubmit_priority req hm (by
      intro o ho
      rw [OrderBook.market_side] at ho
      exact OrderBook.qty_pos_of_mem (hwf.book hv) ho)
    rw [← habs] at hm' hfront hfair
    rw [market?_abs] at hm'
    split_ifs at hm'
    obtain rfl := Option.some.inj hm'
    rw [OrderBook.market_side, OrderBook.market_side] at hfront
    exact ⟨hfront, hfair⟩
  · obtain ⟨e', code, cbs, hcan, -, habs, -⟩ := cancel_spec hwf locate id newQty owner why
    exact ⟨e', code, cbs, hcan, habs⟩

end MatchingEngine

end PulseForge
