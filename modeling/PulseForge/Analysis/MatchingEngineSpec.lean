import PulseForge.Analysis.MatchingLoop

/-!
# `submit` and `cancel`

Both calls on well-formed books: they end, their events and the engine they leave are those
of the reference matcher, and their callbacks follow the event protocol from a state in
which no order is being matched to another such state.
-/

set_option autoImplicit false

namespace PulseForge.MatchingEngine

variable {e : MatchingEngine} {locate : ℕ} {req : OrderRequest}

/-! ## What is left of the order -/

/-- A price no better than one beyond the limit is beyond the limit. -/
theorem not_crosses_of_worse {s : Side} {p p' limit : ℤ} (h : ¬ s.crosses p limit)
    (hle : ¬ s.opposite.better p' p) : ¬ s.crosses p' limit := by
  cases s <;> simp only [Side.crosses, Side.opposite, Side.better] at * <;> omega

/-- When shares remain after the walk, no order left on the contra side is eligible. -/
theorem walk_clear {stp : SelfMatchPolicy} {nextMatch remaining : ℕ} {contra : List BookOrder}
    (hsort : contra.Pairwise fun o o' => ¬ req.side.opposite.better o'.price o.price) {r : ℕ}
    (hr : (walk stp locate req nextMatch remaining contra).remaining = some r) (hpos : 0 < r) :
    ∀ m ∈ (walk stp locate req nextMatch remaining contra).contra,
      ¬ req.side.crosses m.price req.price := by
  induction contra generalizing nextMatch remaining with
  | nil => simp [walk]
  | cons maker rest ih =>
    rw [List.pairwise_cons] at hsort
    by_cases h0 : remaining = 0
    · rw [h0, walk_zero] at hr
      obtain rfl := Option.some.inj hr
      exact absurd hpos (by omega)
    by_cases hcross : req.side.crosses maker.price req.price
    swap
    · rw [walk_beyond hcross]
      intro m hm
      rcases List.mem_cons.mp hm with rfl | hm
      · exact hcross
      · exact not_crosses_of_worse hcross (hsort.1 m hm)
    by_cases hown : req.owner ≠ 0 ∧ maker.owner = req.owner
    · rw [walk_selfMatch h0 hcross hown] at hr ⊢
      cases stp with
      | cancelResting => exact ih hsort.2 hr
      | cancelIncoming => exact absurd hr (by simp)
    · rw [walk_fill h0 hcross hown rfl] at hr ⊢
      by_cases hall : min remaining maker.qty = maker.qty
      · rw [if_pos hall] at hr ⊢
        exact ih hsort.2 hr
      · have hzero : remaining - min remaining maker.qty = 0 := by omega
        rw [hzero, walk_zero] at hr
        obtain rfl := Option.some.inj hr
        exact absurd hpos (by omega)

/-- The remainder, by the rules of the event protocol. -/
theorem restOrCancel_spec (req : OrderRequest) (remaining : ℕ) (h : e.WF)
    (hv : e.validLocate locate)
    (hgrid : (e.book locate).cfg.onGrid req.price)
    (hclear : 0 < remaining → ∀ m ∈ (e.book locate).orders req.side.opposite,
      ¬ req.side.crosses m.price req.price) :
    ∃ e' cbs, restOrCancel e locate req remaining = (e', cbs) ∧ e'.WF ∧
      (e'.abs, cbs.map Callback.event) =
        e.abs.settle locate (e.book locate).market req remaining ∧
      Traced ⟨e.abs, Flow.taking locate req remaining⟩ cbs ⟨e'.abs, none⟩ := by
  unfold restOrCancel RefEngine.settle
  by_cases h0 : remaining = 0
  · subst h0
    rw [if_pos rfl, if_pos rfl]
    exact ⟨e, [], rfl, h, rfl, .nil _⟩
  have hpos : 0 < remaining := Nat.pos_of_ne_zero h0
  have htaking : Flow.taking locate req remaining = some (locate, req, remaining) := if_neg h0
  rw [if_neg h0, if_neg h0, htaking]
  by_cases hioc : req.tif = .ioc
  · rw [if_pos hioc, if_pos hioc]
    exact ⟨e, _, rfl, h, rfl, .cons (.takerCancelled hpos) rfl h (fun _ => rfl) (.nil _)⟩
  have hday : req.tif = .day := by
    cases htif : req.tif
    · rfl
    · exact absurd htif hioc
  have hmarket : e.abs.market? locate = some (e.book locate).market := by
    rw [market?_abs, if_pos hv]
  rw [if_neg hioc, if_neg hioc]
  rcases OrderBook.add_market (h.book hv) req.id req.side req.owner req.userRef hgrid h0 with
    ⟨hrefuse, hsame, hcode⟩ | ⟨hroom, hcode, hwf, hcfg, hmkt, hfind⟩
  · -- the book refuses the order and is as before
    have hself : e.setBook locate ((e.book locate).add req.id req.side req.price remaining req.owner
        req.userRef).1 = e := by rw [hsame, setBook_self hv]
    refine ⟨e, [⟨.takerCancelled locate req remaining .supervisory, e⟩], ?_, h, ?_,
      .cons (.takerCancelled hpos) rfl h (fun _ => rfl) (.nil _)⟩
    · split
      · next b hadd => rw [hadd] at hcode; exact absurd rfl hcode
      · next b code _ hadd =>
        rw [hadd] at hself
        rw [hself]
    · rw [if_pos hrefuse]
      rfl
  · have hadd : (e.book locate).add req.id req.side req.price remaining req.owner req.userRef =
        (((e.book locate).add req.id req.side req.price remaining req.owner req.userRef).1, .ok) := by
      rw [← hcode]
    set b' := ((e.book locate).add req.id req.side req.price remaining req.owner req.userRef).1
    rw [hadd]
    have habs : (e.setBook locate b').abs =
        e.abs.setMarket locate ((e.book locate).market.rest (req.resting remaining)) := by
      rw [abs_setBook, hmkt]
      rfl
    refine ⟨e.setBook locate b', _, rfl, h.setBook hwf, ?_, ?_⟩
    · rw [if_neg hroom, habs]
      simp only [List.map_cons, List.map_nil, hfind, Option.getD_some]
      rfl
    · rw [habs]
      refine .cons ?_ habs (h.setBook hwf) (fun _ => rfl) (.nil _)
      rw [hfind]
      refine .rested hmarket hpos hday hgrid hroom ?_
      rw [OrderBook.market_side]
      exact hclear hpos

/-! ## `submit` and `cancel` -/

/-- **`submit`** ends; its events and the engine it leaves are those of the reference
matcher, and its callbacks follow the event protocol. -/
theorem submit_spec (h : e.WF) (locate : ℕ) (req : OrderRequest) :
    ∃ e' cbs, e.submit locate req = some (e', cbs) ∧ e'.WF ∧
      (e'.abs, cbs.map Callback.event) = e.abs.submit locate req ∧
      Traced ⟨e.abs, none⟩ cbs ⟨e'.abs, none⟩ := by
  have hval := validate_eq h locate req
  unfold submit RefEngine.submit
  cases hwhy : e.abs.refusal locate req with
  | some why =>
    rw [hwhy] at hval
    rw [hval]
    exact ⟨e, _, rfl, h, rfl, .cons (.rejected hwhy) rfl h (fun _ => rfl) (.nil _)⟩
  | none =>
    rw [hwhy] at hval
    obtain ⟨m, hmarket, hqty, hgrid, -⟩ := RefEngine.of_accepted hwhy
    obtain ⟨hv, rfl⟩ := validLocate_of_market? hmarket
    have hb := h.book hv
    have hlen : ((e.book locate).orders req.side.opposite).length <
        (e.book locate).orderCount + 1 := by
      rw [(OrderBook.orderCount_eq hb).1, OrderBook.forEachOrder, List.length_append]
      cases req.side <;> simp only [Side.opposite] <;> omega
    obtain ⟨e₁, cbs, hloop, hwf₁, habs₁, hevs, htr⟩ :=
      matchLoop_spec h hv (by omega) (fun _ : req.qty ≠ 0 => hlen) rfl
    set w := walk e.stp locate req e.nextMatch req.qty
      ((e.book locate).orders req.side.opposite) with hw
    have hacc : Flow.taking locate req req.qty = some (locate, req, req.qty) :=
      if_neg (by omega)
    rw [hacc] at htr
    have hw' : walk e.abs.stp locate req e.abs.nextMatch req.qty
        ((e.book locate).market.side req.side.opposite) = w := by
      rw [OrderBook.market_side]
      rfl
    simp only [hval, hmarket, hloop, hw']
    cases hleft : w.remaining with
    | none =>
      rw [hleft] at htr
      refine ⟨e₁, _, rfl, hwf₁, ?_, .cons (.accepted hwhy) rfl h (by simp) htr⟩
      rw [List.map_cons, hevs, habs₁]
      rfl
    | some remaining =>
      rw [hleft] at htr
      obtain ⟨hv₁, hbook₁⟩ := market_of_walked hv habs₁
      have hgrid₁ : (e₁.book locate).cfg.onGrid req.price := by
        rw [← OrderBook.market_cfg, hbook₁, OrderBook.cfg_setSide]
        exact hgrid
      have hclear : 0 < remaining → ∀ m ∈ (e₁.book locate).orders req.side.opposite,
          ¬ req.side.crosses m.price req.price := by
        intro hpos m hm
        rw [← OrderBook.market_side, hbook₁, OrderBook.side_setSide, if_pos rfl] at hm
        exact walk_clear (OrderBook.pairwise_orders hb _) hleft hpos m hm
      obtain ⟨e₂, cbs', hrest, hwf₂, habs₂, htr₂⟩ :=
        restOrCancel_spec req remaining hwf₁ hv₁ hgrid₁ hclear
      simp only [Option.map_some, hrest]
      refine ⟨e₂, _, rfl, hwf₂, ?_, ?_⟩
      · rw [hbook₁, habs₁] at habs₂
        have hpair := Prod.mk.inj habs₂
        rw [List.cons_append, List.map_cons, List.map_append, hevs, hpair.1, hpair.2]
        rfl
      · refine .cons (.accepted hwhy) rfl h (by simp) (htr.append htr₂ fun hnone => ?_)
        have hzero : remaining = 0 := by
          by_contra hne
          exact absurd hnone (by simp [Flow.taking, hne])
        rw [hzero, restOrCancel, if_pos rfl] at hrest
        exact (Prod.mk.inj hrest).2.symm

/-- **`cancel`** does what the reference does, and its callback follows the event
protocol. -/
theorem cancel_spec (h : e.WF) (locate id newQty owner : ℕ) (why : CancelReason) :
    ∃ e' code cbs, e.cancel locate id newQty owner why = (e', code, cbs) ∧ e'.WF ∧
      (e'.abs, code, cbs.map Callback.event) = e.abs.cancel locate id newQty owner why ∧
      Traced ⟨e.abs, none⟩ cbs ⟨e'.abs, none⟩ := by
  unfold cancel RefEngine.cancel
  rw [market?_abs]
  by_cases hv : e.validLocate locate
  swap
  · rw [if_pos hv, if_neg hv]
    exact ⟨e, _, _, rfl, h, rfl, .nil _⟩
  have hb := h.book hv
  have hmarket : e.abs.market? locate = some (e.book locate).market := by
    rw [market?_abs, if_pos hv]
  rw [if_neg (not_not.mpr hv), if_pos hv]
  simp only [OrderBook.market_find hb]
  cases hf : (e.book locate).find id with
  | none => exact ⟨e, _, _, rfl, h, rfl, .nil _⟩
  | some o =>
    by_cases hown : o.owner ≠ owner
    · simp only [if_pos hown]
      exact ⟨e, _, _, rfl, h, rfl, .nil _⟩
    by_cases hqty : o.qty ≤ newQty
    · simp only [if_neg hown, if_pos hqty]
      exact ⟨e, _, _, rfl, h, rfl, .nil _⟩
    simp only [if_neg hown, if_neg hqty]
    obtain ⟨s, ho, rfl⟩ := (OrderBook.find_eq_some_iff hb).mp hf
    set b' := if newQty = 0 then ((e.book locate).remove o.id).1
      else ((e.book locate).reduce o.id (o.qty - newQty)).1 with hb'
    -- removing the order is reducing it by all it has
    have hspec : b'.WF ∧ b'.market = (e.book locate).market.take o (o.qty - newQty) := by
      rw [hb']
      split
      · next hzero =>
        obtain ⟨hwf, -, hmkt⟩ := OrderBook.remove_market hb hf
        rw [hzero, Nat.sub_zero]
        exact ⟨hwf, hmkt⟩
      · obtain ⟨hwf, -, hmkt⟩ := OrderBook.reduce_market hb hf (Nat.sub_le _ newQty)
        exact ⟨hwf, hmkt⟩
    have habs : (e.setBook locate b').abs =
        e.abs.setMarket locate ((e.book locate).market.take o (o.qty - newQty)) := by
      rw [abs_setBook, hspec.2]
    refine ⟨e.setBook locate b', _, _, rfl, h.setBook hspec.1, by rw [habs]; rfl, ?_⟩
    rw [habs]
    refine .cons (.cancelled hmarket ?_ (by omega) (Nat.sub_le _ _)) habs (h.setBook hspec.1)
      (fun _ => rfl) (.nil _)
    rw [OrderBook.market_find hb, hf]

/-- **`submit` always ends.** -/
theorem submit_isSome (h : e.WF) (locate : ℕ) (req : OrderRequest) :
    (e.submit locate req).isSome := by
  obtain ⟨e', cbs, hsub, -⟩ := submit_spec h locate req
  rw [hsub]
  rfl

end PulseForge.MatchingEngine
