import PulseForge.Analysis.Markets

/-!
# Well-formed markets

What the markets of a well-formed engine have in common, in terms of the lists alone: unique
ids, sorted sides, positive quantities, prices on the grid and no more orders than the pool
holds. `find` is determined by membership there, and the lemmas below say what it gives
after an order lost shares or came to rest.
-/

set_option autoImplicit false

namespace PulseForge

/-- `for_each_order` shows the orders of both sides. -/
theorem OrderBook.mem_forEachOrder {b : OrderBook} {o : BookOrder} :
    o ∈ b.forEachOrder ↔ ∃ s, o ∈ b.orders s := by
  rw [OrderBook.forEachOrder, List.mem_append]
  constructor
  · rintro (ho | ho)
    · exact ⟨.buy, ho⟩
    · exact ⟨.sell, ho⟩
  · rintro ⟨s, ho⟩
    cases s
    · exact .inl ho
    · exact .inr ho

/-- The market of a well-formed book is well-formed. -/
theorem OrderBook.market_wf {b : OrderBook} (h : b.WF) : b.market.WF where
  cfg := OrderBook.accepted h
  nodup := OrderBook.nodup_orders h
  sorted s := by
    rw [OrderBook.market_side]
    exact OrderBook.pairwise_orders h s
  side_eq s o ho := by
    rw [OrderBook.market_side] at ho
    exact OrderBook.side_of_mem h ho
  qty_pos o ho := by
    obtain ⟨s, ho⟩ := OrderBook.mem_forEachOrder.mp ho
    exact OrderBook.qty_pos_of_mem h ho
  onGrid o ho := by
    obtain ⟨s, ho⟩ := OrderBook.mem_forEachOrder.mp ho
    obtain ⟨i, ho⟩ := (OrderBook.mem_orders_iff h).mp ho
    have hr := OrderBook.resting_of_mem h ho
    rw [OrderBook.market_cfg, OrderBook.onGrid_iff, hr.price_eq,
      OrderBook.validPrice_iff (OrderBook.accepted h), ← OrderBook.levelsPerSide_eq h]
    exact ⟨i, hr.level_lt, rfl⟩
  id_ne_zero o ho := by
    obtain ⟨s, ho⟩ := OrderBook.mem_forEachOrder.mp ho
    obtain ⟨i, ho⟩ := (OrderBook.mem_orders_iff h).mp ho
    exact (OrderBook.resting_of_mem h ho).id_ne
  room := by
    rw [OrderBook.market_orders, ← (OrderBook.orderCount_eq h).1]
    exact (OrderBook.orderCount_eq h).2

/-- The markets of a well-formed engine are well-formed. -/
theorem MatchingEngine.WF.abs {e : MatchingEngine} (h : e.WF) : e.abs.WF := by
  intro m hm
  obtain ⟨b, hb, rfl⟩ := List.mem_map.mp hm
  exact OrderBook.market_wf (h.books b hb)

/-- The market of a locate is listed. -/
theorem RefEngine.mem_markets {r : RefEngine} {locate : ℕ} {m : Market}
    (hm : r.market? locate = some m) : m ∈ r.markets := by
  unfold RefEngine.market? at hm
  split_ifs at hm
  exact List.mem_of_getElem? hm

/-- The market of a locate is well-formed. -/
theorem RefEngine.WF.market {r : RefEngine} (h : r.WF) {locate : ℕ} {m : Market}
    (hm : r.market? locate = some m) : m.WF :=
  h m (RefEngine.mem_markets hm)

theorem RefEngine.locate_ne_zero {r : RefEngine} {locate : ℕ} {m : Market}
    (hm : r.market? locate = some m) : locate ≠ 0 := by
  rintro rfl
  simp [RefEngine.market?] at hm

/-- The market of any locate after one is replaced. -/
theorem RefEngine.market?_setMarket_eq {r : RefEngine} {locate : ℕ} {m : Market}
    (hm : r.market? locate = some m) (m' : Market) (l : ℕ) :
    (r.setMarket locate m').market? l = if l = locate then some m' else r.market? l := by
  split
  · next hl => rw [hl, RefEngine.market?_setMarket hm]
  · next hl => exact RefEngine.market?_setMarket_of_ne hl (RefEngine.locate_ne_zero hm) m'

namespace Market

variable {m : Market} {o : BookOrder} {by' : ℕ}

/-- The orders of a market are those of its sides. -/
theorem mem_orders_iff (m : Market) : o ∈ m.orders ↔ ∃ s, o ∈ m.side s := by
  rw [Market.orders, List.mem_append]
  constructor
  · rintro (ho | ho)
    · exact ⟨.buy, ho⟩
    · exact ⟨.sell, ho⟩
  · rintro ⟨s, ho⟩
    cases s
    · exact .inl ho
    · exact .inr ho

/-- An order rests at its own side. -/
theorem WF.mem_side (h : m.WF) (ho : o ∈ m.orders) : o ∈ m.side o.side := by
  obtain ⟨s, ho⟩ := (mem_orders_iff m).mp ho
  have hs := h.side_eq s o ho
  rw [hs]
  exact ho

/-- Two orders of a market have different ids. -/
theorem WF.eq_of_id_eq (h : m.WF) {x : BookOrder} (hx : x ∈ m.orders) (ho : o ∈ m.orders)
    (hid : x.id = o.id) : x = o :=
  List.inj_on_of_nodup_map h.nodup hx ho hid

/-- **`find`** gives the resting order with that id. -/
theorem WF.find_eq_some_iff (h : m.WF) {id : ℕ} :
    m.find id = some o ↔ o ∈ m.orders ∧ o.id = id :=
  Foundation.find?_key_eq_some_iff h.nodup

/-- An id is unknown when no order has it. -/
theorem find_eq_none_iff {id : ℕ} : m.find id = none ↔ ∀ o ∈ m.orders, o.id ≠ id := by
  simp [Market.find]

/-- What is left of the order `o` after it lost `by'` shares. -/
def leftOf (o : BookOrder) (by' : ℕ) : Option BookOrder :=
  if by' = o.qty then none else some { o with qty := o.qty - by' }

/-- The orders after `o` lost `by'` shares. -/
theorem WF.mem_take_iff (h : m.WF) (ho : o ∈ m.orders) {x : BookOrder} :
    x ∈ (m.take o by').orders ↔ (x ∈ m.orders ∧ x.id ≠ o.id) ∨ leftOf o by' = some x := by
  have hside : ∀ t, x ∈ (m.take o by').side t ↔
      (x ∈ m.side t ∧ x.id ≠ o.id) ∨ (t = o.side ∧ leftOf o by' = some x) := by
    intro t
    rw [Market.take, OrderBook.side_setSide]
    by_cases ht : t = o.side
    · subst ht
      rw [if_pos rfl]
      unfold leftOf
      split
      · simp
      · rw [List.mem_map]
        constructor
        · rintro ⟨y, hy, rfl⟩
          split
          · next hid =>
            have hyo := h.eq_of_id_eq ((mem_orders_iff m).mpr ⟨_, hy⟩) ho hid
            subst hyo
            exact .inr ⟨rfl, rfl⟩
          · next hid => exact .inl ⟨hy, hid⟩
        · rintro (⟨hx, hid⟩ | ⟨-, hx⟩)
          · exact ⟨x, hx, if_neg hid⟩
          · obtain rfl := Option.some.inj hx
            exact ⟨o, h.mem_side ho, if_pos rfl⟩
    · rw [if_neg ht]
      constructor
      · intro hx
        refine .inl ⟨hx, fun hid => ht ?_⟩
        have hxo := h.eq_of_id_eq ((mem_orders_iff m).mpr ⟨_, hx⟩) ho hid
        rw [← h.side_eq t x hx, hxo]
      · rintro (⟨hx, -⟩ | ⟨hc, -⟩)
        · exact hx
        · exact absurd hc ht
  rw [mem_orders_iff, mem_orders_iff]
  simp only [hside]
  constructor
  · rintro ⟨t, ⟨hx, hid⟩ | ⟨-, hx⟩⟩
    · exact .inl ⟨⟨t, hx⟩, hid⟩
    · exact .inr hx
  · rintro (⟨⟨t, hx⟩, hid⟩ | hx)
    · exact ⟨t, .inl ⟨hx, hid⟩⟩
    · exact ⟨o.side, .inr ⟨rfl, hx⟩⟩

/-- What is left of an order has its id. -/
theorem id_of_leftOf {x : BookOrder} (hx : leftOf o by' = some x) : x.id = o.id := by
  unfold leftOf at hx
  split at hx
  · exact absurd hx (by simp)
  · rw [← Option.some.inj hx]

/-- The orders after `o` came to rest. -/
theorem mem_rest_iff {x : BookOrder} : x ∈ (m.rest o).orders ↔ x = o ∨ x ∈ m.orders := by
  rw [mem_orders_iff, mem_orders_iff]
  have hside : ∀ t, x ∈ (m.rest o).side t ↔ (t = o.side ∧ x = o) ∨ x ∈ m.side t := by
    intro t
    rw [Market.rest, OrderBook.side_setSide]
    by_cases ht : t = o.side
    · subst ht
      rw [if_pos rfl, List.mem_orderedInsert]
      simp
    · rw [if_neg ht]
      simp [ht]
  simp only [hside]
  constructor
  · rintro ⟨t, ⟨-, hx⟩ | hx⟩
    · exact .inl hx
    · exact .inr ⟨t, hx⟩
  · rintro (hx | ⟨t, hx⟩)
    · exact ⟨o.side, .inl ⟨rfl, hx⟩⟩
    · exact ⟨t, .inr hx⟩

/-- **`find` after an order lost shares.** -/
theorem WF.find_take (h : m.WF) (h' : (m.take o by').WF) (ho : o ∈ m.orders) (id : ℕ) :
    (m.take o by').find id = if id = o.id then leftOf o by' else m.find id := by
  apply Option.ext
  intro x
  rw [h'.find_eq_some_iff, h.mem_take_iff ho]
  by_cases hid : id = o.id
  · subst hid
    rw [if_pos rfl]
    constructor
    · rintro ⟨⟨-, hne⟩ | hx, hxid⟩
      · exact absurd hxid hne
      · exact hx
    · intro hx
      exact ⟨.inr hx, id_of_leftOf hx⟩
  · rw [if_neg hid, h.find_eq_some_iff]
    constructor
    · rintro ⟨⟨hx, -⟩ | hx, hxid⟩
      · exact ⟨hx, hxid⟩
      · exact absurd (hxid.symm.trans (id_of_leftOf hx)) hid
    · rintro ⟨hx, rfl⟩
      exact ⟨.inl ⟨hx, hid⟩, rfl⟩

/-- **`find` after an order came to rest.** -/
theorem WF.find_rest (h : m.WF) (h' : (m.rest o).WF) (hfresh : m.find o.id = none) (id : ℕ) :
    (m.rest o).find id = if id = o.id then some o else m.find id := by
  apply Option.ext
  intro x
  rw [h'.find_eq_some_iff, mem_rest_iff]
  by_cases hid : id = o.id
  · subst hid
    rw [if_pos rfl]
    constructor
    · rintro ⟨rfl | hx, hxid⟩
      · rfl
      · exact absurd hxid (find_eq_none_iff.mp hfresh x hx)
    · intro hx
      obtain rfl := Option.some.inj hx
      exact ⟨.inl rfl, rfl⟩
  · rw [if_neg hid, h.find_eq_some_iff]
    constructor
    · rintro ⟨rfl | hx, hxid⟩
      · exact absurd hxid.symm hid
      · exact ⟨hx, hxid⟩
    · rintro ⟨hx, hxid⟩
      exact ⟨.inr hx, hxid⟩

end Market

end PulseForge
