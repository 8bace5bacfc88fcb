import PulseForge.Analysis.EngineRuns

/-!
# The book is never crossed

Shares taken off resting orders keep every price, and an order comes to rest only when no
order of the other side is within its limit; so in every market of every run every bid is
below every ask.
-/

set_option autoImplicit false

namespace PulseForge

/-- Every bid is below every ask. -/
def Market.Uncrossed (m : Market) : Prop := ∀ o ∈ m.bids, ∀ o' ∈ m.asks, o.price < o'.price

namespace MatchingEngine

/-- Taking shares off an order leaves orders of the same price, with no more shares. -/
theorem mem_side_take {m : Market} {o x : BookOrder} {by' : ℕ} {s : Side}
    (hx : x ∈ (m.take o by').side s) :
    ∃ y ∈ m.side s, y.id = x.id ∧ y.price = x.price := by
  rw [Market.take, OrderBook.side_setSide] at hx
  split_ifs at hx with hs hq
  · rw [hs]
    exact ⟨x, (List.mem_filter.mp hx).1, rfl, rfl⟩
  · rw [hs]
    obtain ⟨y, hy, rfl⟩ := List.mem_map.mp hx
    refine ⟨y, hy, ?_, ?_⟩ <;> split <;> rfl
  · exact ⟨x, hx, rfl, rfl⟩

/-- Taking shares does not cross a market. -/
theorem uncrossed_take {m : Market} (h : m.Uncrossed) (o : BookOrder) (by' : ℕ) :
    (m.take o by').Uncrossed := by
  intro x hx x' hx'
  obtain ⟨y, hy, -, hpy⟩ := mem_side_take (s := .buy) hx
  obtain ⟨y', hy', -, hpy'⟩ := mem_side_take (s := .sell) hx'
  rw [← hpy, ← hpy']
  exact h y hy y' hy'

/-- An order that crosses nothing may rest. -/
theorem uncrossed_rest {m : Market} (h : m.Uncrossed) {o : BookOrder}
    (hclear : ∀ x ∈ m.side o.side.opposite, ¬ o.side.crosses x.price o.price) :
    (m.rest o).Uncrossed := by
  intro x hx x' hx'
  cases hs : o.side with
  | buy =>
    simp only [Market.rest, hs, Market.setSide, List.mem_orderedInsert] at hx hx'
    rcases hx with rfl | hx
    · have := hclear x' (by rw [hs]; exact hx')
      rw [hs] at this
      exact not_le.mp this
    · exact h x hx x' hx'
  | sell =>
    simp only [Market.rest, hs, Market.setSide, List.mem_orderedInsert] at hx hx'
    rcases hx' with rfl | hx'
    · have := hclear x (by rw [hs]; exact hx)
      rw [hs] at this
      exact not_le.mp this
    · exact h x hx x' hx'

/-- Every rule of the event protocol keeps every market uncrossed. -/
theorem uncrossed_step {x y : Flow} {ev : Event} (hstep : x.Step ev y)
    (h : ∀ m ∈ x.engine.markets, m.Uncrossed) : ∀ m ∈ y.engine.markets, m.Uncrossed := by
  have hset : ∀ {r : RefEngine} {locate : ℕ} {m' : Market}, (∀ m ∈ r.markets, m.Uncrossed) →
      m'.Uncrossed → ∀ m ∈ (r.setMarket locate m').markets, m.Uncrossed := by
    intro r locate m' hr hm' m hm
    rcases List.mem_or_eq_of_mem_set hm with hm | rfl
    · exact hr m hm
    · exact hm'
  cases hstep with
  | rejected _ => exact h
  | accepted _ => exact h
  | fill hmarket _ _ _ _ => exact hset h (uncrossed_take (h _ (RefEngine.mem_markets hmarket)) _ _)
  | selfMatch hmarket _ _ _ _ => exact hset h (uncrossed_take (h _ (RefEngine.mem_markets hmarket)) _ _)
  | takerCancelled _ => exact h
  | rested hmarket _ _ _ _ hclear =>
    exact hset h (uncrossed_rest (h _ (RefEngine.mem_markets hmarket)) hclear)
  | cancelled hmarket _ _ _ => exact hset h (uncrossed_take (h _ (RefEngine.mem_markets hmarket)) _ _)

/-- A well-formed book without crossed orders, seen through its best prices. -/
theorem bestPrice_lt {b : OrderBook} (hb : b.WF) (h : b.market.Uncrossed) :
    b.empty .buy = true ∨ b.empty .sell = true ∨ b.bestPrice .buy < b.bestPrice .sell := by
  -- the best price of a side is the price of its first order
  have hbest : ∀ s, b.empty s = true ∨ ∃ o ∈ b.orders s, b.bestPrice s = o.price := by
    intro s
    rcases OrderBook.best_cases hb s with ⟨hneg, -⟩ | ⟨i, hi, hne, -, rest, hsplit, -⟩
    · exact .inl (by simpa [OrderBook.empty] using hneg)
    · obtain ⟨o, ho⟩ := List.exists_mem_of_ne_nil _ hne
      refine .inr ⟨o, by simp [hsplit, ho], ?_⟩
      rw [OrderBook.bestPrice, hi, (OrderBook.resting_of_mem hb ho).price_eq]
  rcases hbest .buy with hbuy | ⟨o, ho, hprice⟩
  · exact .inl hbuy
  · rcases hbest .sell with hsell | ⟨o', ho', hprice'⟩
    · exact .inr (.inl hsell)
    · rw [hprice, hprice']
      exact .inr (.inr (h o ho o' ho'))

/-- **The book is never crossed.** After every run of calls, under either self-match policy,
every symbol has an empty side or its best bid is below its best ask. -/
theorem never_crossed (stp : SelfMatchPolicy) (maxOrderQty : ℕ) (ops : List EngineOp)
    (locate : ℕ) :
    ((after stp maxOrderQty ops).book locate).empty .buy = true ∨
      ((after stp maxOrderQty ops).book locate).empty .sell = true ∨
      ((after stp maxOrderQty ops).book locate).bestPrice .buy <
        ((after stp maxOrderQty ops).book locate).bestPrice .sell := by
  have hinv := runs_invariant stp maxOrderQty
    (P := fun _ x => ∀ m ∈ x.engine.markets, m.Uncrossed) (by simp [start, abs])
    (by
      intro _ r symbol cfg h m hm
      rcases List.mem_append.mp hm with hm | hm
      · exact h m hm
      · rw [List.mem_singleton.mp hm]
        intro o ho
        exact absurd ho (by simp))
    (fun _ x ev y _ _ h hstep => uncrossed_step hstep h) ops
  have hwf := wf_after stp maxOrderQty ops
  rcases lt_or_ge (locate - 1) (after stp maxOrderQty ops).books.length with hlt | hge
  · have hmem : (after stp maxOrderQty ops).book locate ∈ (after stp maxOrderQty ops).books := by
      rw [book, List.getD_eq_getElem?_getD, List.getElem?_eq_getElem hlt, Option.getD_some]
      exact List.getElem_mem _
    exact bestPrice_lt (hwf.books _ hmem) (hinv _ (List.mem_map_of_mem hmem))
  · -- no symbol is listed there
    rw [book, List.getD_eq_getElem?_getD, List.getElem?_eq_none hge]
    exact .inl rfl

end MatchingEngine

end PulseForge
