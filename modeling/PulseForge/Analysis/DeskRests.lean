import PulseForge.Analysis.MarketFacts
import PulseForge.Interface.OrderDesk

/-!
# Which orders rest, event by event

`Desk.Rests` says who an order of the books belongs to and under which reference. An event
takes at most one order out of the books, and `rested` puts one in.
-/

set_option autoImplicit false

namespace PulseForge

/-! ## A market stays well-formed when an order loses shares -/

namespace Market

variable {m : Market} {o : BookOrder} {q : ℕ}

/-- The ids, sides and prices that are left were there before. -/
theorem side_take_cases (m : Market) (o : BookOrder) (q : ℕ) (s : Side) :
    (m.take o q).side s = m.side s ∨
      (s = o.side ∧ q = o.qty ∧ (m.take o q).side s = (m.side s).filter fun x => x.id ≠ o.id) ∨
      (s = o.side ∧ q ≠ o.qty ∧ (m.take o q).side s =
        (m.side s).map fun x => if x.id = o.id then { x with qty := x.qty - q } else x) := by
  rw [take, OrderBook.side_setSide]
  by_cases hs : s = o.side
  · subst hs
    rw [if_pos rfl]
    by_cases hq : q = o.qty
    · rw [if_pos hq]
      exact .inr (.inl ⟨rfl, hq, rfl⟩)
    · rw [if_neg hq]
      exact .inr (.inr ⟨rfl, hq, rfl⟩)
  · rw [if_neg hs]
    exact .inl rfl

/-- Taking shares brings no id. -/
theorem ids_side_take (m : Market) (o : BookOrder) (q : ℕ) (s : Side) :
    (((m.take o q).side s).map BookOrder.id).Sublist ((m.side s).map BookOrder.id) := by
  rcases side_take_cases m o q s with h | ⟨-, -, h⟩ | ⟨-, -, h⟩
  · rw [h]
  · rw [h]
    exact (List.filter_sublist).map _
  · rw [h, List.map_map]
    have : ((BookOrder.id ∘ fun x => if x.id = o.id then { x with qty := x.qty - q } else x) :
        BookOrder → ℕ) = BookOrder.id := by
      funext x
      simp only [Function.comp_apply]
      split <;> rfl
    rw [this]

/-- Taking shares brings no price. -/
theorem prices_side_take (m : Market) (o : BookOrder) (q : ℕ) (s : Side) :
    (((m.take o q).side s).map BookOrder.price).Sublist ((m.side s).map BookOrder.price) := by
  rcases side_take_cases m o q s with h | ⟨-, -, h⟩ | ⟨-, -, h⟩
  · rw [h]
  · rw [h]
    exact (List.filter_sublist).map _
  · rw [h, List.map_map]
    have : ((BookOrder.price ∘ fun x => if x.id = o.id then { x with qty := x.qty - q } else x) :
        BookOrder → ℤ) = BookOrder.price := by
      funext x
      simp only [Function.comp_apply]
      split <;> rfl
    rw [this]

/-- **Taking shares keeps a market well-formed.** -/
theorem WF.take (h : m.WF) (ho : o ∈ m.orders) (hle : q ≤ o.qty) : (m.take o q).WF := by
  have hold : ∀ x ∈ (m.take o q).orders, ∃ y ∈ m.orders, y.id = x.id ∧ y.side = x.side ∧
      y.price = x.price ∧ 0 < x.qty := by
    intro x hx
    rcases (h.mem_take_iff ho).mp hx with ⟨hx, -⟩ | hleft
    · exact ⟨x, hx, rfl, rfl, rfl, h.qty_pos x hx⟩
    · unfold leftOf at hleft
      split at hleft
      · exact absurd hleft (by simp)
      · obtain rfl := Option.some.inj hleft
        exact ⟨o, ho, rfl, rfl, rfl, by simp only; omega⟩
  have hcfg : (m.take o q).cfg = m.cfg := OrderBook.cfg_setSide ..
  refine ⟨hcfg ▸ h.cfg, ?_, fun s => ?_, fun s x hx => ?_, fun x hx => ?_, fun x hx => ?_,
    fun x hx => ?_, ?_⟩
  · have hsub : ((m.take o q).orders.map BookOrder.id).Sublist (m.orders.map BookOrder.id) := by
      rw [orders, orders, List.map_append, List.map_append]
      exact (ids_side_take m o q .buy).append (ids_side_take m o q .sell)
    exact h.nodup.sublist hsub
  · have := h.sorted s
    rw [← List.pairwise_map (f := BookOrder.price) (R := fun p p' => ¬ s.better p' p)] at this ⊢
    exact this.sublist (prices_side_take m o q s)
  · rcases side_take_cases m o q s with hs | ⟨-, -, hs⟩ | ⟨-, -, hs⟩
    · rw [hs] at hx
      exact h.side_eq s x hx
    · rw [hs] at hx
      exact h.side_eq s x (List.mem_filter.mp hx).1
    · rw [hs] at hx
      obtain ⟨y, hy, rfl⟩ := List.mem_map.mp hx
      have := h.side_eq s y hy
      split <;> exact this
  · exact (hold x hx).choose_spec.2.2.2.2
  · obtain ⟨y, hy, -, -, hp, -⟩ := hold x hx
    rw [hcfg, ← hp]
    exact h.onGrid y hy
  · obtain ⟨y, hy, hid, -⟩ := hold x hx
    rw [← hid]
    exact h.id_ne_zero y hy
  · have hlen : ∀ s, ((m.take o q).side s).length ≤ (m.side s).length := by
      intro s
      simpa using (ids_side_take m o q s).length_le
    have h1 := hlen .buy
    have h2 := hlen .sell
    have hroom := h.room
    rw [hcfg]
    simp only [orders, List.length_append, side] at h1 h2 hroom ⊢
    omega

end Market

/-- An engine with a well-formed market in place of another. -/
theorem RefEngine.WF.setMarket {r : RefEngine} (h : r.WF) {m' : Market} (hm' : m'.WF) (l : ℕ) :
    (r.setMarket l m').WF := by
  intro m hm
  rcases List.mem_or_eq_of_mem_set hm with hm | rfl
  · exact h m hm
  · exact hm'

/-! ## Resting orders -/

/-- The order an event takes out of the books. -/
def Event.Removes (h : OrderHandle) : Event → Prop
  | .fill l f => f.makerRemaining = 0 ∧ h = ⟨l, f.makerId⟩
  | .restingCancelled l o cancelled _ => cancelled = o.qty ∧ h = ⟨l, o.id⟩
  | .accepted .. | .rejected .. | .rested .. | .takerCancelled .. => False

/-- The order an event puts into the books. -/
def Event.Adds (k ref : ℕ) (h : OrderHandle) : Event → Prop
  | .rested l o => k = o.owner ∧ ref = o.userRef ∧ h = ⟨l, o.id⟩
  | .accepted .. | .rejected .. | .fill .. | .restingCancelled .. | .takerCancelled .. => False

namespace Desk

variable {r : RefEngine} {k ref : ℕ} {h : OrderHandle}

/-- An order has one owner and one reference. -/
theorem Rests.unique (hr : r.WF) {k' ref' : ℕ} (h₁ : Rests r k ref h) (h₂ : Rests r k' ref' h) :
    k = k' ∧ ref = ref' := by
  obtain ⟨m, hm, o, ho, rfl, rfl, hid⟩ := h₁
  obtain ⟨m', hm', o', ho', rfl, rfl, hid'⟩ := h₂
  obtain rfl := Option.some.inj (hm.symm.trans hm')
  obtain rfl := (hr.market hm).eq_of_id_eq ho ho' (hid.trans hid'.symm)
  exact ⟨rfl, rfl⟩

/-- An order that lost shares rests on unless it lost all. -/
theorem rests_take (hr : r.WF) {l q : ℕ} {m : Market} {o : BookOrder}
    (hm : r.market? l = some m) (ho : o ∈ m.orders) (k ref : ℕ) (h : OrderHandle) :
    Rests (r.setMarket l (m.take o q)) k ref h ↔
      Rests r k ref h ∧ ¬ (q = o.qty ∧ h = ⟨l, o.id⟩) := by
  unfold Rests
  rw [RefEngine.market?_setMarket_eq hm]
  by_cases hl : h.locate = l
  swap
  · rw [if_neg hl]
    refine ⟨fun hx => ⟨hx, fun ⟨_, hc⟩ => hl (by rw [hc])⟩, fun hx => hx.1⟩
  rw [if_pos hl, hl]
  have hh : ∀ id, h.id = id → h = ⟨l, id⟩ := by
    rintro id rfl
    rw [← hl]
  have hmem : ∀ x, x ∈ (m.take o q).orders ↔
      (x ∈ m.orders ∧ x.id ≠ o.id) ∨ Market.leftOf o q = some x :=
    fun x => (hr.market hm).mem_take_iff ho
  constructor
  · rintro ⟨m', hm', x, hx, hk, href, hid⟩
    obtain rfl := Option.some.inj hm'
    rcases (hmem x).mp hx with ⟨hx, hne⟩ | hleft
    · refine ⟨⟨m, hm, x, hx, hk, href, hid⟩, fun ⟨_, hc⟩ => hne ?_⟩
      rw [hid, hc]
    · unfold Market.leftOf at hleft
      split at hleft
      · exact absurd hleft (by simp)
      · next hq =>
        obtain rfl := Option.some.inj hleft
        exact ⟨⟨m, hm, o, ho, hk, href, hid⟩, fun ⟨hc, _⟩ => hq hc⟩
  · rintro ⟨⟨m', hm', x, hx, hk, href, hid⟩, hnot⟩
    obtain rfl := Option.some.inj (hm.symm.trans hm')
    refine ⟨_, rfl, ?_⟩
    by_cases hxo : x.id = o.id
    · obtain rfl := (hr.market hm).eq_of_id_eq hx ho hxo
      have hq : q ≠ x.qty := fun hc => hnot ⟨hc, hh _ hid.symm⟩
      exact ⟨{ x with qty := x.qty - q }, (hmem _).mpr (.inr (by rw [Market.leftOf, if_neg hq])),
        hk, href, hid⟩
    · exact ⟨x, (hmem x).mpr (.inl ⟨hx, hxo⟩), hk, href, hid⟩

/-- An order that comes to rest, rests. -/
theorem rests_rest {l : ℕ} {m : Market} {o : BookOrder} (hm : r.market? l = some m) (k ref : ℕ)
    (h : OrderHandle) :
    Rests (r.setMarket l (m.rest o)) k ref h ↔
      Rests r k ref h ∨ (k = o.owner ∧ ref = o.userRef ∧ h = ⟨l, o.id⟩) := by
  unfold Rests
  rw [RefEngine.market?_setMarket_eq hm]
  by_cases hl : h.locate = l
  swap
  · rw [if_neg hl]
    refine ⟨fun hx => .inl hx, ?_⟩
    rintro (hx | ⟨-, -, hc⟩)
    · exact hx
    · exact absurd (by rw [hc]) hl
  rw [if_pos hl, hl]
  constructor
  · rintro ⟨m', hm', x, hx, hk, href, hid⟩
    obtain rfl := Option.some.inj hm'
    rcases Market.mem_rest_iff.mp hx with rfl | hx
    · refine .inr ⟨hk.symm, href.symm, ?_⟩
      rw [hid, ← hl]
    · exact .inl ⟨m, hm, x, hx, hk, href, hid⟩
  · rintro (⟨m', hm', x, hx, hk, href, hid⟩ | ⟨rfl, rfl, rfl⟩)
    · obtain rfl := Option.some.inj (hm.symm.trans hm')
      exact ⟨_, rfl, x, Market.mem_rest_iff.mpr (.inr hx), hk, href, hid⟩
    · exact ⟨_, rfl, o, Market.mem_rest_iff.mpr (.inl rfl), rfl, rfl, rfl⟩

end Desk

namespace Flow.Step

open Desk

variable {x y : Flow} {ev : Event}

/-- **One event** takes out the order it removes and puts in the one it adds. -/
theorem rests_iff (hstep : x.Step ev y) (hx : x.engine.WF) (k ref : ℕ) (h : OrderHandle) :
    Rests y.engine k ref h ↔ (Rests x.engine k ref h ∧ ¬ ev.Removes h) ∨ ev.Adds k ref h := by
  cases hstep with
  | rejected _ => simp [Event.Removes, Event.Adds]
  | accepted _ => simp [Event.Removes, Event.Adds]
  | @fill r l m req remaining maker rest hmarket hfront hremaining hcross hother =>
    have hmem : maker ∈ m.orders := m.mem_orders_iff.mpr ⟨_, by rw [hfront]; simp⟩
    have htake := rests_take (q := min remaining maker.qty) hx hmarket hmem k ref h
    have hzero : (maker.qty - min remaining maker.qty = 0) ↔ min remaining maker.qty = maker.qty := by
      omega
    simp only [Event.Removes, Event.Adds, or_false, MatchingEngine.makeFill, hzero]
    exact htake
  | @selfMatch r l m req remaining maker rest hmarket hfront hremaining hown hstp =>
    have hmem : maker ∈ m.orders := m.mem_orders_iff.mpr ⟨_, by rw [hfront]; simp⟩
    have htake := rests_take (q := maker.qty) hx hmarket hmem k ref h
    simpa [Event.Removes, Event.Adds] using htake
  | takerCancelled _ => simp [Event.Removes, Event.Adds]
  | @rested r l m req remaining hmarket hremaining hday hgrid hroom hclear =>
    have hrest := rests_rest (o := req.resting remaining) hmarket k ref h
    simpa [Event.Removes, Event.Adds] using hrest
  | @cancelled r l m o shares why hmarket hfind hpos hle =>
    have hmem := ((hx.market hmarket).find_eq_some_iff.mp hfind).1
    have htake := rests_take (q := shares) hx hmarket hmem k ref h
    simpa [Event.Removes, Event.Adds] using htake

/-- The order that goes was resting, under the owner and the reference that the event names. -/
theorem rests_of_gone (hstep : x.Step ev y) (hx : x.engine.WF) {k ref : ℕ}
    (hgone : ev.gone k = some ref) : ∃ h, Rests x.engine k ref h ∧ ev.Removes h := by
  cases hstep with
  | rejected _ => exact absurd hgone (by simp [Event.gone])
  | accepted _ => exact absurd hgone (by simp [Event.gone])
  | @fill r l m req remaining maker rest hmarket hfront hremaining hcross hother =>
    have hmem : maker ∈ m.orders := m.mem_orders_iff.mpr ⟨_, by rw [hfront]; simp⟩
    simp only [Event.gone] at hgone
    split_ifs at hgone with hc
    obtain ⟨rfl, hzero⟩ := hc
    obtain rfl := Option.some.inj hgone
    exact ⟨⟨l, maker.id⟩, ⟨m, hmarket, maker, hmem, rfl, rfl, rfl⟩, hzero, rfl⟩
  | @selfMatch r l m req remaining maker rest hmarket hfront hremaining hown hstp =>
    have hmem : maker ∈ m.orders := m.mem_orders_iff.mpr ⟨_, by rw [hfront]; simp⟩
    simp only [Event.gone] at hgone
    split_ifs at hgone with hc
    obtain ⟨rfl, -⟩ := hc
    obtain rfl := Option.some.inj hgone
    exact ⟨⟨l, maker.id⟩, ⟨m, hmarket, maker, hmem, rfl, rfl, rfl⟩, rfl, rfl⟩
  | takerCancelled _ => exact absurd hgone (by simp [Event.gone])
  | rested _ _ _ _ _ _ => exact absurd hgone (by simp [Event.gone])
  | @cancelled r l m o shares why hmarket hfind hpos hle =>
    have hmem := ((hx.market hmarket).find_eq_some_iff.mp hfind).1
    simp only [Event.gone] at hgone
    split_ifs at hgone with hc
    obtain ⟨rfl, hall⟩ := hc
    obtain rfl := Option.some.inj hgone
    exact ⟨⟨l, o.id⟩, ⟨m, hmarket, o, hmem, rfl, rfl, rfl⟩, hall, rfl⟩

/-- The event names the owner and the reference of the order it removes. -/
theorem gone_of_removes (hstep : x.Step ev y) (hx : x.engine.WF) {k ref : ℕ} {h : OrderHandle}
    (hrem : ev.Removes h) (hrests : Rests x.engine k ref h) : ev.gone k = some ref := by
  cases hstep with
  | rejected _ => exact absurd hrem id
  | accepted _ => exact absurd hrem id
  | @fill r l m req remaining maker rest hmarket hfront hremaining hcross hother =>
    have hmem : maker ∈ m.orders := m.mem_orders_iff.mpr ⟨_, by rw [hfront]; simp⟩
    obtain ⟨hzero, rfl⟩ := hrem
    obtain ⟨rfl, rfl⟩ := Rests.unique hx hrests ⟨m, hmarket, maker, hmem, rfl, rfl, rfl⟩
    exact if_pos ⟨rfl, hzero⟩
  | @selfMatch r l m req remaining maker rest hmarket hfront hremaining hown hstp =>
    have hmem : maker ∈ m.orders := m.mem_orders_iff.mpr ⟨_, by rw [hfront]; simp⟩
    obtain ⟨-, rfl⟩ := hrem
    obtain ⟨rfl, rfl⟩ := Rests.unique hx hrests ⟨m, hmarket, maker, hmem, rfl, rfl, rfl⟩
    exact if_pos ⟨rfl, rfl⟩
  | takerCancelled _ => exact absurd hrem id
  | rested _ _ _ _ _ _ => exact absurd hrem id
  | @cancelled r l m o shares why hmarket hfind hpos hle =>
    have hmem := ((hx.market hmarket).find_eq_some_iff.mp hfind).1
    obtain ⟨hall, rfl⟩ := hrem
    obtain ⟨rfl, rfl⟩ := Rests.unique hx hrests ⟨m, hmarket, o, hmem, rfl, rfl, rfl⟩
    exact if_pos ⟨rfl, hall⟩

end Flow.Step

end PulseForge
