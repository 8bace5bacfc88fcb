import PulseForge.Foundation.ListUpdate
import PulseForge.Analysis.OrderBookSpec

/-!
# The sides of the book as sorted lists

What each mutation does to the list of orders of a side, best price first and oldest first
within a price: `add` inserts behind every order that is not strictly worse, the others
drop an order or take shares off it in place.
-/

set_option autoImplicit false

namespace PulseForge

open Foundation

/-- The order `o` put at the back of its price level in a side sorted by price. -/
def BookOrder.insertIn (o : BookOrder) (l : List BookOrder) : List BookOrder :=
  l.orderedInsert (fun x y => o.side.better x.price y.price) o

namespace OrderBook

variable {b b' : OrderBook} {s t : Side} {o : BookOrder}

/-- The ladder is as long as the band. -/
theorem levelsPerSide_eq (h : WF b) : b.levelsPerSide = b.cfg.levels := by
  obtain ⟨q, free, h⟩ := h
  exact h.levels_eq

/-- A change that acts on every level alike acts so on the side. -/
theorem orders_of_fifo (h : WF b) (h' : WF b') (hcfg : b'.cfg = b.cfg)
    {f : List BookOrder → List BookOrder} (hnil : f [] = []) (happ : ∀ l r, f (l ++ r) = f l ++ f r)
    (hfifo : ∀ t j, b'.fifo t j = f (b.fifo t j)) (t : Side) : b'.orders t = f (b.orders t) := by
  rw [orders_eq_fifo h', orders_eq_fifo h, levelsPerSide_eq h', levelsPerSide_eq h, hcfg]
  induction ladderOrder t b.cfg.levels with
  | nil => exact hnil.symm
  | cons i L ih => rw [List.flatMap_cons, List.flatMap_cons, happ, ih, hfifo]

/-- A side whose queues lost one id lost that id. -/
theorem orders_of_dropId (h : WF b) (h' : WF b') (hcfg : b'.cfg = b.cfg) {id : ℕ}
    (hfifo : ∀ t j, b'.fifo t j = dropId id (b.fifo t j)) (t : Side) :
    b'.orders t = dropId id (b.orders t) :=
  orders_of_fifo h h' hcfg rfl (fun _ _ => List.filter_append _ _) hfifo t

/-- A side whose queues had one order reduced had that order reduced. -/
theorem orders_of_reduceId (h : WF b) (h' : WF b') (hcfg : b'.cfg = b.cfg) {id by' : ℕ}
    (hfifo : ∀ t j, b'.fifo t j = reduceId id by' (b.fifo t j)) (t : Side) :
    b'.orders t = reduceId id by' (b.orders t) :=
  orders_of_fifo h h' hcfg rfl (fun _ _ => List.map_append) hfifo t

/-- **A successful `add`** inserts the order at the back of its price level. -/
theorem add_orders (h : WF b) (s : Side) (owner userRef : ℕ) {id qty : ℕ} {price : ℤ}
    (hok : b.addAnswer id price qty = .ok) :
    ∃ b', b.add id s price qty owner userRef = (b', .ok) ∧ WF b' ∧ b'.cfg = b.cfg ∧
      ∀ t, b'.orders t = if t = s then
        BookOrder.insertIn ⟨id, price, qty, owner, userRef, s⟩ (b.orders s) else b.orders t := by
  obtain ⟨b', i, hadd, h', hcfg, hi, hprice, hfifo⟩ :=
    add_of_ok h s owner userRef hok
  refine ⟨b', hadd, h', hcfg, fun t => ?_⟩
  have hlev : b'.levelsPerSide = b.levelsPerSide := by
    rw [levelsPerSide_eq h', levelsPerSide_eq h, hcfg]
  rw [orders_eq_fifo h', hlev, hfifo]
  by_cases hts : t = s
  · subst hts
    obtain ⟨A, B, hsplit, hA, hB⟩ := ladderOrder_split (s := t) hi
    have hkeep : ∀ L : List ℕ, i ∉ L →
        L.flatMap (pushFifo b.fifo t i ⟨id, price, qty, owner, userRef, t⟩ t) =
          L.flatMap (b.fifo t) := by
      intro L hL
      apply List.flatMap_congr
      intro j hj
      rw [pushFifo, if_neg]
      rintro ⟨-, rfl⟩
      exact hL hj
    have hiA : i ∉ A := fun hm => Side.better_irrefl t _ (hA i hm)
    have hiB : i ∉ B := fun hm => Side.better_irrefl t _ (hB i hm)
    -- nothing ahead of the level or at it is worse, everything behind it is
    have hahead : ∀ x ∈ A.flatMap (b.fifo t) ++ b.fifo t i, ¬ t.better price x.price := by
      intro x hx
      rw [hprice]
      rcases List.mem_append.mp hx with hx | hx
      · obtain ⟨j, hj, hx⟩ := List.mem_flatMap.mp hx
        rw [(resting_of_mem h hx).price_eq, better_priceOf_iff (accepted h)]
        exact Side.better_asymm (hA j hj)
      · rw [(resting_of_mem h hx).price_eq]
        exact Side.better_irrefl t _
    have hbehind : ∀ x ∈ B.flatMap (b.fifo t), t.better price x.price := by
      intro x hx
      obtain ⟨j, hj, hx⟩ := List.mem_flatMap.mp hx
      rw [hprice, (resting_of_mem h hx).price_eq, better_priceOf_iff (accepted h)]
      exact hB j hj
    have hins := orderedInsert_append (r := fun x y : BookOrder => t.better x.price y.price)
      (a := ⟨id, price, qty, owner, userRef, t⟩) hahead hbehind
    rw [if_pos rfl, orders_eq_fifo h, hsplit, List.flatMap_append, List.flatMap_cons,
      List.flatMap_append, List.flatMap_cons, hkeep A hiA, hkeep B hiB, pushFifo,
      if_pos ⟨rfl, rfl⟩, BookOrder.insertIn, ← List.append_assoc (A.flatMap (b.fifo t)) (b.fifo t i),
      hins]
    simp
  · rw [if_neg hts, orders_eq_fifo h]
    apply List.flatMap_congr
    intro j _
    rw [pushFifo, if_neg (fun hc => hts hc.1)]

/-- **`remove`** of a resting order. -/
theorem remove_orders (h : WF b) {id : ℕ} (hf : b.find id = some o) :
    ∃ b', b.remove id = (b', true) ∧ WF b' ∧ b'.cfg = b.cfg ∧
      ∀ t, b'.orders t = dropId id (b.orders t) := by
  obtain ⟨b', hb', h', hcfg, hfifo⟩ := remove_of_found h hf
  exact ⟨b', hb', h', hcfg, orders_of_dropId h h' hcfg hfifo⟩

/-- Taking `by'` shares off an order, which goes when it has no more. -/
def takeId (id by' : ℕ) (o : BookOrder) (l : List BookOrder) : List BookOrder :=
  if by' = o.qty then dropId id l else reduceId id by' l

/-- **`reduce`** of a resting order by no more than it has. -/
theorem reduce_orders (h : WF b) {id by' : ℕ} (hf : b.find id = some o) (hle : by' ≤ o.qty) :
    ∃ b', b.reduce id by' = (b', true) ∧ WF b' ∧ b'.cfg = b.cfg ∧
      ∀ t, b'.orders t = takeId id by' o (b.orders t) := by
  unfold takeId
  by_cases heq : by' = o.qty
  · obtain ⟨b', hb', h', hcfg, hfifo⟩ := reduce_of_eq h hf heq
    refine ⟨b', hb', h', hcfg, fun t => ?_⟩
    rw [if_pos heq]
    exact orders_of_dropId h h' hcfg hfifo t
  · obtain ⟨b', hb', h', hcfg, hfifo⟩ := reduce_of_gt h hf (lt_of_le_of_ne hle heq)
    refine ⟨b', hb', h', hcfg, fun t => ?_⟩
    rw [if_neg heq]
    exact orders_of_reduceId h h' hcfg hfifo t

/-! ## Lists without the id -/

/-- Dropping an id that is not there does nothing. -/
theorem dropId_of_notMem {id : ℕ} {l : List BookOrder} (h : ∀ o ∈ l, o.id ≠ id) :
    dropId id l = l :=
  List.filter_eq_self.mpr fun o ho => by simpa using h o ho

/-- Reducing an id that is not there does nothing. -/
theorem reduceId_of_notMem {id by' : ℕ} {l : List BookOrder} (h : ∀ o ∈ l, o.id ≠ id) :
    reduceId id by' l = l :=
  List.map_congr_left (fun o ho => if_neg (h o ho)) |>.trans (List.map_id _)

/-- Taking from an id that is not there does nothing. -/
theorem takeId_of_notMem {id by' : ℕ} {l : List BookOrder} (h : ∀ x ∈ l, x.id ≠ id) :
    takeId id by' o l = l := by
  unfold takeId
  split
  · exact dropId_of_notMem h
  · exact reduceId_of_notMem h

/-- Dropping the id in front. -/
theorem dropId_cons_self {l : List BookOrder} (h : ∀ x ∈ l, x.id ≠ o.id) :
    dropId o.id (o :: l) = l := by
  rw [dropId, List.filter_cons_of_neg (by simp)]
  exact dropId_of_notMem h

/-- Reducing the order in front. -/
theorem reduceId_cons_self {by' : ℕ} {l : List BookOrder} (h : ∀ x ∈ l, x.id ≠ o.id) :
    reduceId o.id by' (o :: l) = { o with qty := o.qty - by' } :: l := by
  rw [reduceId, List.map_cons, if_pos rfl]
  congr 1
  exact reduceId_of_notMem h

/-- The other orders of the side, and all of the other side, have other ids. -/
theorem id_ne_of_head (h : WF b) {rest : List BookOrder} (hs : b.orders s = o :: rest) :
    (∀ x ∈ rest, x.id ≠ o.id) ∧ ∀ t, t ≠ s → ∀ x ∈ b.orders t, x.id ≠ o.id := by
  have hnd := nodup_orders h
  rw [forEachOrder, List.map_append, List.nodup_append] at hnd
  obtain ⟨hbuy, hsell, hdisj⟩ := hnd
  have hside : ((b.orders s).map BookOrder.id).Nodup := by cases s <;> assumption
  rw [hs, List.map_cons, List.nodup_cons] at hside
  constructor
  · intro x hx hc
    exact hside.1 (hc ▸ List.mem_map_of_mem hx)
  · intro t hts x hx hc
    have ho : o.id ∈ (b.orders s).map BookOrder.id := by simp [hs]
    have hx' : x.id ∈ (b.orders t).map BookOrder.id := List.mem_map_of_mem hx
    cases s <;> cases t
    · exact hts rfl
    · exact hdisj _ ho _ hx' hc.symm
    · exact hdisj _ hx' _ ho hc
    · exact hts rfl

/-- **`reduce_front`** acts on the first order of the side. -/
theorem reduceFront_orders (h : WF b) {by' : ℕ} {rest : List BookOrder}
    (hs : b.orders s = o :: rest) (hle : by' ≤ o.qty) :
    WF (b.reduceFront s by') ∧ (b.reduceFront s by').cfg = b.cfg ∧
      (b.reduceFront s by').orders s =
        (if by' = o.qty then rest else { o with qty := o.qty - by' } :: rest) ∧
      ∀ t, t ≠ s → (b.reduceFront s by').orders t = b.orders t := by
  have hfront : b.front s = some o := by rw [front_eq_head? h, hs]; rfl
  obtain ⟨hred, hfind⟩ := reduceFront_eq_reduce h hfront hle
  obtain ⟨b', hb', h', hcfg, hord⟩ := reduce_orders h hfind hle
  obtain ⟨hne, hother⟩ := id_ne_of_head h hs
  rw [hred, hb']
  refine ⟨h', hcfg, ?_, fun t hts => ?_⟩
  · rw [hord, hs, takeId]
    split
    · exact dropId_cons_self hne
    · exact reduceId_cons_self hne
  · rw [hord, takeId_of_notMem (hother t hts)]

/-- A side whose levels are all empty. -/
theorem orders_eq_nil (h : WF b) (s : Side) (hfifo : ∀ i, b.fifo s i = []) : b.orders s = [] := by
  rw [orders_eq_fifo h, List.flatMap_eq_nil_iff]
  exact fun i _ => hfifo i

/-- A cleared book has no orders. -/
theorem clear_orders (h : WF b) (s : Side) : b.clear.orders s = [] := by
  obtain ⟨h', -, hfifo⟩ := clear_wf h
  exact orders_eq_nil h' s (hfifo s)

/-- A new book has no orders. -/
theorem new_orders {cfg : BookConfig} (h : OrderBook.new cfg = .ok b) (s : Side) :
    b.orders s = [] := by
  obtain ⟨h', -, hfifo⟩ := new_wf h
  exact orders_eq_nil h' s (hfifo s)

/-! ## `find` after a mutation -/

/-- An order that is inserted joins the others. -/
theorem mem_insertIn {x : BookOrder} {l : List BookOrder} : x ∈ o.insertIn l ↔ x = o ∨ x ∈ l :=
  List.mem_orderedInsert _

/-- A lookup is decided by membership. -/
theorem find_ext (h : WF b) {id : ℕ} {r : Option BookOrder}
    (hr : ∀ x, r = some x ↔ ∃ s, x ∈ b.orders s ∧ x.id = id) : b.find id = r := by
  apply Option.ext
  intro x
  rw [find_eq_some_iff h, hr]

/-- After an insertion, the new order is found as well. -/
theorem find_of_insertIn (h : WF b) (h' : WF b')
    (hord : ∀ t, b'.orders t = if t = o.side then o.insertIn (b.orders t) else b.orders t)
    (hfresh : b.find o.id = none) (id : ℕ) :
    b'.find id = if id = o.id then some o else b.find id := by
  have hmem : ∀ t x, x ∈ b'.orders t ↔ (t = o.side ∧ x = o) ∨ x ∈ b.orders t := by
    intro t x
    rw [hord]
    split
    · rw [mem_insertIn]
      simp [*]
    · simp [*]
  have hno := (find_eq_none_iff h).mp hfresh
  apply find_ext h'
  intro x
  simp only [hmem]
  by_cases hid : id = o.id
  · subst hid
    rw [if_pos rfl]
    constructor
    · intro hx
      obtain rfl := Option.some.inj hx
      exact ⟨_, .inl ⟨rfl, rfl⟩, rfl⟩
    · rintro ⟨t, ⟨-, rfl⟩ | hx, hxid⟩
      · rfl
      · exact absurd hxid (hno t x hx)
  · rw [if_neg hid, find_eq_some_iff h]
    constructor
    · rintro ⟨t, hx, hxid⟩
      exact ⟨t, .inr hx, hxid⟩
    · rintro ⟨t, ⟨-, rfl⟩ | hx, hxid⟩
      · exact absurd hxid.symm hid
      · exact ⟨t, hx, hxid⟩

/-- After a removal, everything else is found. -/
theorem find_of_dropId (h : WF b) (h' : WF b') {id : ℕ}
    (hord : ∀ t, b'.orders t = dropId id (b.orders t)) (k : ℕ) :
    b'.find k = if k = id then none else b.find k := by
  apply find_ext h'
  intro x
  simp only [hord, dropId, List.mem_filter, decide_eq_true_eq]
  by_cases hk : k = id
  · rw [if_pos hk]
    constructor
    · intro hx
      exact absurd hx (by simp)
    · rintro ⟨t, ⟨-, hne⟩, hx⟩
      exact absurd (hx.trans hk) hne
  · rw [if_neg hk, find_eq_some_iff h]
    constructor
    · rintro ⟨t, hx, rfl⟩
      exact ⟨t, ⟨hx, hk⟩, rfl⟩
    · rintro ⟨t, ⟨hx, -⟩, hxk⟩
      exact ⟨t, hx, hxk⟩

/-- After a reduction, the order is found with fewer shares. -/
theorem find_of_reduceId (h : WF b) (h' : WF b') {id by' : ℕ}
    (hord : ∀ t, b'.orders t = reduceId id by' (b.orders t)) (k : ℕ) :
    b'.find k = (b.find k).map fun o => if o.id = id then { o with qty := o.qty - by' } else o := by
  apply find_ext h'
  intro x
  simp only [hord, reduceId, List.mem_map, Option.map_eq_some_iff, find_eq_some_iff h]
  have hid : ∀ o : BookOrder,
      (if o.id = id then { o with qty := o.qty - by' } else o).id = o.id := fun o => by
    split <;> rfl
  constructor
  · rintro ⟨o, ⟨s, ho, rfl⟩, rfl⟩
    exact ⟨s, ⟨o, ho, rfl⟩, hid o⟩
  · rintro ⟨s, ⟨o, ho, rfl⟩, hk⟩
    exact ⟨o, ⟨s, ho, by rw [← hk, hid]⟩, rfl⟩

end OrderBook

end PulseForge
