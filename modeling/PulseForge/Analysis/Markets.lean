import PulseForge.Interface.RefMatcher
import PulseForge.Analysis.OrderBookRefinement

/-!
# Books as markets, engines as reference engines

`OrderBook.market` is what a book holds, seen as a market of the reference matcher, and
`MatchingEngine.abs` maps a whole engine. The mutations the engine makes are restated as
changes of the market: every one takes shares off an order or lets one rest.
-/

set_option autoImplicit false

namespace PulseForge

open Foundation

/-! ## A book as a market -/

namespace OrderBook

variable {b b' : OrderBook} {s : Side} {o : BookOrder}

/-- What a book holds. -/
def market (b : OrderBook) : Market := ⟨b.cfg, b.orders .buy, b.orders .sell⟩

/-- The sides of the market of a book. -/
@[simp] theorem market_side (b : OrderBook) (s : Side) : b.market.side s = b.orders s := by
  cases s <;> rfl

/-- The orders of the market of a book, in the order of the walk. -/
@[simp] theorem market_orders (b : OrderBook) : b.market.orders = b.forEachOrder := rfl

/-- The grid of the market of a book. -/
@[simp] theorem market_cfg (b : OrderBook) : b.market.cfg = b.cfg := rfl

/-- A book is a market when it has its grid and its sides. -/
theorem market_ext (hcfg : b'.cfg = b.cfg) {m : Market} (hm : m.cfg = b.cfg)
    (hside : ∀ s, b'.orders s = m.side s) : b'.market = m := by
  cases m
  simp only [Market.side] at hside
  simp only [market, Market.mk.injEq]
  exact ⟨hcfg.trans hm.symm, hside .buy, hside .sell⟩

/-- Writing a side leaves the other alone. -/
theorem side_setSide (m : Market) (s t : Side) (l : List BookOrder) :
    (m.setSide s l).side t = if t = s then l else m.side t := by
  cases s <;> cases t <;> rfl

/-- Writing a side keeps the grid. -/
theorem cfg_setSide (m : Market) (s : Side) (l : List BookOrder) : (m.setSide s l).cfg = m.cfg := by
  cases s <;> rfl

/-- An order that rests does not touch the other side. -/
theorem side_rest_other (m : Market) {o : BookOrder} {t : Side} (ht : t ≠ o.side) :
    (m.rest o).side t = m.side t := by
  rw [Market.rest, side_setSide, if_neg ht]

/-- The market of a book finds what the book finds. -/
theorem market_find (h : WF b) (id : ℕ) : b.market.find id = b.find id := by
  symm
  apply find_ext h
  intro x
  rw [Market.find, market_orders, find?_key_eq_some_iff (nodup_orders h), forEachOrder,
    List.mem_append]
  constructor
  · rintro ⟨hx | hx, hid⟩
    · exact ⟨.buy, hx, hid⟩
    · exact ⟨.sell, hx, hid⟩
  · rintro ⟨s, hx, hid⟩
    refine ⟨?_, hid⟩
    cases s
    · exact .inl hx
    · exact .inr hx

/-- The side of a resting order. -/
theorem side_of_mem (h : WF b) (ho : o ∈ b.orders s) : o.side = s := by
  obtain ⟨i, ho⟩ := (mem_orders_iff h).mp ho
  exact (resting_of_mem h ho).side_eq

/-- An order that rests has shares. -/
theorem qty_pos_of_mem (h : WF b) (ho : o ∈ b.orders s) : 0 < o.qty := by
  obtain ⟨i, ho⟩ := (mem_orders_iff h).mp ho
  exact (resting_of_mem h ho).qty_pos

/-- An id rests at one side only. -/
theorem notMem_other (h : WF b) (ho : o ∈ b.orders s) {t : Side} (hts : t ≠ s) :
    ∀ x ∈ b.orders t, x.id ≠ o.id := by
  intro x hx hid
  obtain ⟨i, ho'⟩ := (mem_orders_iff h).mp ho
  obtain ⟨j, hx'⟩ := (mem_orders_iff h).mp hx
  exact hts (eq_of_id_eq h hx' ho' hid).2.1

/-- Taking shares off a resting order, as a change of the market. -/
theorem market_take (h : WF b) (hcfg : b'.cfg = b.cfg) (ho : o ∈ b.orders s) {by' : ℕ}
    (hord : ∀ t, b'.orders t = takeId o.id by' o (b.orders t)) :
    b'.market = b.market.take o by' := by
  refine market_ext hcfg (cfg_setSide ..) fun t => ?_
  have hside := side_of_mem h ho
  rw [Market.take, side_setSide, market_side, market_side, hside, hord]
  by_cases hts : t = s
  · rw [if_pos hts, hts]
    rfl
  · rw [if_neg hts, takeId_of_notMem (notMem_other h ho hts)]

/-- **`remove`**, as a change of the market. -/
theorem remove_market (h : WF b) {id : ℕ} (hf : b.find id = some o) :
    WF (b.remove id).1 ∧ (b.remove id).1.cfg = b.cfg ∧
      (b.remove id).1.market = b.market.take o o.qty := by
  obtain ⟨s, ho, rfl⟩ := (find_eq_some_iff h).mp hf
  obtain ⟨b', hb', h', hcfg, hord⟩ := remove_orders h hf
  rw [hb']
  refine ⟨h', hcfg, market_take h hcfg ho fun t => ?_⟩
  rw [hord, takeId, if_pos rfl]

/-- **`reduce`**, as a change of the market. -/
theorem reduce_market (h : WF b) {id by' : ℕ} (hf : b.find id = some o) (hle : by' ≤ o.qty) :
    WF (b.reduce id by').1 ∧ (b.reduce id by').1.cfg = b.cfg ∧
      (b.reduce id by').1.market = b.market.take o by' := by
  obtain ⟨s, ho, rfl⟩ := (find_eq_some_iff h).mp hf
  obtain ⟨b', hb', h', hcfg, hord⟩ := reduce_orders h hf hle
  rw [hb']
  exact ⟨h', hcfg, market_take h hcfg ho hord⟩

/-- **`reduce_front`**, as a change of the market. -/
theorem reduceFront_market (h : WF b) {by' : ℕ} {rest : List BookOrder}
    (hs : b.orders s = o :: rest) (hle : by' ≤ o.qty) :
    WF (b.reduceFront s by') ∧ (b.reduceFront s by').cfg = b.cfg ∧
      (b.reduceFront s by').market = b.market.take o by' := by
  have hfront : b.front s = some o := by rw [front_eq_head? h, hs]; rfl
  obtain ⟨hred, hfind⟩ := reduceFront_eq_reduce h hfront hle
  rw [hred]
  exact reduce_market h hfind hle

/-- The market refuses to let an order rest exactly when `add` does. -/
theorem refuses_iff (h : WF b) {id qty : ℕ} {price : ℤ} (hgrid : b.cfg.onGrid price)
    (hqty : qty ≠ 0) : b.market.refuses id ↔ b.addAnswer id price qty ≠ .ok := by
  have hcount := (orderCount_eq h).1
  rw [Market.refuses, market_orders, market_cfg, market_find h, ← hcount, addAnswer,
    if_neg (by simp [(onGrid_iff b price).mp hgrid]), if_neg hqty, FlatIdMap.kEmpty,
    Option.isSome_iff_ne_none]
  split_ifs with h1 h2
  · simp [h1]
  · simpa [h1] using h2
  · simpa [h1] using h2

/-- **`add`**, as a change of the market. -/
theorem add_market (h : WF b) (id : ℕ) (s : Side) (owner userRef : ℕ) {qty : ℕ} {price : ℤ}
    (hgrid : b.cfg.onGrid price)
    (hqty : qty ≠ 0) :
    (b.market.refuses id ∧ (b.add id s price qty owner userRef).1 = b ∧
        (b.add id s price qty owner userRef).2 ≠ .ok) ∨
      (¬ b.market.refuses id ∧ (b.add id s price qty owner userRef).2 = .ok ∧
        WF (b.add id s price qty owner userRef).1 ∧
        (b.add id s price qty owner userRef).1.cfg = b.cfg ∧
        (b.add id s price qty owner userRef).1.market =
          b.market.rest ⟨id, price, qty, owner, userRef, s⟩ ∧
        (b.add id s price qty owner userRef).1.find id =
          some ⟨id, price, qty, owner, userRef, s⟩) := by
  by_cases hok : b.addAnswer id price qty = .ok
  · right
    obtain ⟨b', hadd, h', hcfg, hord⟩ :=
      add_orders h s owner userRef hok
    have hrest : b'.market = b.market.rest ⟨id, price, qty, owner, userRef, s⟩ := by
      refine market_ext hcfg (cfg_setSide ..) fun t => ?_
      rw [Market.rest, side_setSide, market_side, market_side, hord]
      rfl
    have hfind : b'.find id = some ⟨id, price, qty, owner, userRef, s⟩ := by
      refine (find_eq_some_iff h').mpr ⟨s, ?_, rfl⟩
      rw [hord, if_pos rfl, mem_insertIn]
      exact .inl rfl
    rw [hadd]
    exact ⟨fun hc => (refuses_iff h hgrid hqty).mp hc hok, rfl, h', hcfg, hrest, hfind⟩
  · left
    rw [add_of_refused h hok]
    exact ⟨(refuses_iff h hgrid hqty).mpr hok, rfl, hok⟩

end OrderBook

/-! ## An engine as a reference engine -/

/-- The market of a listed locate after it is replaced. -/
theorem RefEngine.market?_setMarket {r : RefEngine} {locate : ℕ} {m : Market}
    (hm : r.market? locate = some m) (m' : Market) :
    (r.setMarket locate m').market? locate = some m' := by
  unfold RefEngine.market? at hm ⊢
  split_ifs at hm ⊢ with h0
  have hlt : locate - 1 < r.markets.length := by
    by_contra hc
    rw [List.getElem?_eq_none (by omega)] at hm
    exact absurd hm (by simp)
  rw [RefEngine.setMarket, List.getElem?_set_self hlt]

/-- Another locate keeps its market. -/
theorem RefEngine.market?_setMarket_of_ne {r : RefEngine} {locate l : ℕ} (hl : l ≠ locate)
    (h0 : locate ≠ 0) (m' : Market) : (r.setMarket locate m').market? l = r.market? l := by
  unfold RefEngine.market?
  split_ifs with hl0
  · rfl
  · rw [RefEngine.setMarket, List.getElem?_set_ne (by omega)]

/-- What acceptance says of a request. -/
theorem RefEngine.of_accepted {r : RefEngine} {locate : ℕ} {req : OrderRequest}
    (hok : r.refusal locate req = none) :
    ∃ m, r.market? locate = some m ∧ 0 < req.qty ∧ m.cfg.onGrid req.price ∧
      m.find req.id = none := by
  unfold RefEngine.refusal at hok
  cases hm : r.market? locate with
  | none =>
    rw [hm] at hok
    cases hok
  | some m =>
    rw [hm] at hok
    dsimp only at hok
    split_ifs at hok with hqty hgrid hfind
    rw [Bool.not_eq_true, Option.isSome_eq_false_iff, Option.isNone_iff_eq_none] at hfind
    exact ⟨m, rfl, hqty.1, hgrid, hfind⟩

namespace MatchingEngine

variable {e : MatchingEngine} {locate : ℕ} {req : OrderRequest}

/-- Every book is well-formed. -/
structure WF (e : MatchingEngine) : Prop where
  books : ∀ b ∈ e.books, b.WF
  symbols_len : e.symbols.length = e.books.length

/-- What an engine holds. -/
def abs (e : MatchingEngine) : RefEngine :=
  ⟨e.stp, e.maxOrderQty, e.books.map OrderBook.market, e.symbols, e.nextMatch⟩

/-- The book of a listed symbol is one of the books. -/
theorem book_mem (hv : e.validLocate locate) : e.book locate ∈ e.books := by
  obtain ⟨h1, h2⟩ := hv
  rw [book, List.getD_eq_getElem?_getD, List.getElem?_eq_getElem (by omega), Option.getD_some]
  exact List.getElem_mem _

/-- The book of a listed symbol is well-formed. -/
theorem WF.book (h : e.WF) (hv : e.validLocate locate) : (e.book locate).WF :=
  h.books _ (book_mem hv)

/-- The markets of the engine are those of its listed symbols. -/
theorem market?_abs (e : MatchingEngine) (locate : ℕ) :
    e.abs.market? locate = if e.validLocate locate then some (e.book locate).market else none := by
  by_cases hv : e.validLocate locate
  · obtain ⟨h1, h2⟩ := id hv
    have hlt : locate - 1 < e.books.length := by omega
    rw [if_pos hv, RefEngine.market?, if_neg (by omega), MatchingEngine.book,
      List.getD_eq_getElem?_getD, List.getElem?_eq_getElem hlt]
    simp [abs, hlt]
  · rw [if_neg hv, RefEngine.market?]
    split
    · rfl
    · next h0 =>
      have hge : e.books.length ≤ locate - 1 := by
        by_contra hc
        exact hv ⟨by omega, by omega⟩
      simp [abs, hge]

/-- A locate with a market is that of a listed symbol. -/
theorem validLocate_of_market? {m : Market} (hm : e.abs.market? locate = some m) :
    e.validLocate locate ∧ (e.book locate).market = m := by
  rw [market?_abs] at hm
  split_ifs at hm with hv
  exact ⟨hv, Option.some.inj hm⟩

/-- Writing a book writes its market. -/
theorem abs_setBook (e : MatchingEngine) (locate : ℕ) (b : OrderBook) :
    (e.setBook locate b).abs = e.abs.setMarket locate b.market := by
  simp [abs, setBook, RefEngine.setMarket, List.map_set]

/-- An engine with a well-formed book in place of another. -/
theorem WF.setBook (h : e.WF) {b : OrderBook} (hb : b.WF) : (e.setBook locate b).WF where
  books := by
    intro x hx
    rcases List.mem_or_eq_of_mem_set hx with hx | rfl
    · exact h.books x hx
    · exact hb
  symbols_len := by simp [MatchingEngine.setBook, h.symbols_len]

/-- Writing a book lists no symbol. -/
theorem validLocate_setBook {b : OrderBook} {l : ℕ} :
    (e.setBook locate b).validLocate l ↔ e.validLocate l := by
  simp [validLocate, MatchingEngine.setBook]

/-- The book that was written. -/
theorem book_setBook (hv : e.validLocate locate) (b : OrderBook) :
    (e.setBook locate b).book locate = b := by
  obtain ⟨h1, h2⟩ := hv
  simp [MatchingEngine.book, MatchingEngine.setBook, List.getD_eq_getElem?_getD,
    List.getElem?_set_self (show locate - 1 < e.books.length by omega)]

/-- Writing back a book changes nothing. -/
theorem setBook_self (hv : e.validLocate locate) : e.setBook locate (e.book locate) = e := by
  obtain ⟨h1, h2⟩ := hv
  have hlt : locate - 1 < e.books.length := by omega
  have : e.books.set (locate - 1) (e.book locate) = e.books := by
    rw [MatchingEngine.book, List.getD_eq_getElem?_getD, List.getElem?_eq_getElem hlt,
      Option.getD_some, List.set_getElem_self]
  rw [MatchingEngine.setBook, this]

/-- The engine and the reference refuse alike. -/
theorem validate_eq (h : e.WF) (locate : ℕ) (req : OrderRequest) :
    e.validate locate req = e.abs.refusal locate req := by
  unfold validate RefEngine.refusal
  rw [market?_abs]
  by_cases hv : e.validLocate locate
  · rw [if_neg (not_not.mpr hv), if_pos hv]
    have hq : (req.qty = 0 ∨ e.maxOrderQty < req.qty) ↔
        ¬ (0 < req.qty ∧ req.qty ≤ e.abs.maxOrderQty) := by
      simp only [abs]
      omega
    simp only [hq, OrderBook.market_cfg, OrderBook.market_find (h.book hv), OrderBook.onGrid_iff]
  · rw [if_pos hv, if_neg hv]

end MatchingEngine

end PulseForge
