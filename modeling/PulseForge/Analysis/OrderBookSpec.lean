import PulseForge.Analysis.OrderBookClear
import PulseForge.Analysis.OrderBookRemove

/-!
# What the book does, seen from outside

`fifo s i` is the list of orders at level `i` of side `s`. Every operation is specified by
what it does to these lists and to the orders of a side (`orders`), under the single
assumption `WF`; pools, links and free lists do not show any more.
-/

set_option autoImplicit false

namespace PulseForge.OrderBook

open Foundation

variable {b : OrderBook} {q : Side → ℕ → List ℕ} {free : List ℕ} {s t : Side} {i j n : ℕ}

/-- The orders at level `i`, oldest first. -/
def fifo (b : OrderBook) (s : Side) (i : ℕ) : List BookOrder :=
  (b.walkNodes (b.nodes.length + 1) (b.level s i).head).map fun n => (b.node n).order

/-- The queue of a level, read off the nodes. -/
theorem Inv.fifo_eq (h : Inv b q free) (s : Side) (i : ℕ) :
    b.fifo s i = (q s i).map fun n => (b.node n).order := by
  rw [fifo, h.walkNodes_queue]

/-- A level without nodes has no orders. -/
theorem Inv.fifo_eq_nil_iff (h : Inv b q free) (s : Side) (i : ℕ) : b.fifo s i = [] ↔ q s i = [] := by
  rw [h.fifo_eq, List.map_eq_nil_iff]

/-- The front order of a side that is not empty stands at the best level. -/
theorem Inv.frontNode_mem (h : Inv b q free) (hbest : ¬ (b.ladder s).best < 0) :
    ∃ i : ℕ, (b.ladder s).best = i ∧ b.frontNode s ∈ q s i := by
  obtain ⟨i, hi, hne, -⟩ := (h.best s).exists_of_nonneg hbest
  refine ⟨i, hi, ?_⟩
  rw [frontNode, hi, Int.toNat_natCast, (h.queue s i).head_eq]
  cases hq : q s i with
  | nil => exact absurd hq hne
  | cons n rest => exact List.mem_cons_self

/-! ## Reading a well-formed book -/

section Read

variable {o o' : BookOrder}

/-- **The orders of a side** are its levels, best first. -/
theorem orders_eq_fifo (h : WF b) (s : Side) :
    b.orders s = (ladderOrder s b.levelsPerSide).flatMap (b.fifo s) := by
  obtain ⟨q, free, h⟩ := h
  rw [h.orders_eq, flatNodes, List.map_flatMap]
  apply List.flatMap_congr
  intro i _
  rw [h.fifo_eq]

/-- The configuration of a well-formed book was accepted. -/
theorem accepted (h : WF b) : b.cfg.Accepted := by
  obtain ⟨q, free, h⟩ := h
  exact h.cfg

/-- What is known of an order at level `i` of side `s`. -/
structure Resting (b : OrderBook) (s : Side) (i : ℕ) (o : BookOrder) : Prop where
  level_lt : i < b.levelsPerSide
  side_eq : o.side = s
  price_eq : o.price = b.priceOf i
  qty_pos : 0 < o.qty
  id_ne : o.id ≠ FlatIdMap.kEmpty

/-- A queued order rests at its level. -/
theorem resting_of_mem (h : WF b) (ho : o ∈ b.fifo s i) : Resting b s i o := by
  obtain ⟨q, free, h⟩ := h
  rw [h.fifo_eq, List.mem_map] at ho
  obtain ⟨n, hn, rfl⟩ := ho
  have hp := h.placed s i n hn
  refine ⟨hp.level_lt, hp.side_eq, hp.price_eq, hp.qty_pos, fun hc => ?_⟩
  have := (h.ids_iff _ n).mpr ⟨s, i, hn, rfl⟩
  rw [hc] at this
  simp at this

/-- **Ids are unique**: an id names one order, at one level. -/
theorem eq_of_id_eq (h : WF b) (ho : o ∈ b.fifo s i) (ho' : o' ∈ b.fifo t j)
    (hid : o.id = o'.id) : o = o' ∧ s = t ∧ i = j := by
  obtain ⟨q, free, h⟩ := h
  rw [h.fifo_eq, List.mem_map] at ho ho'
  obtain ⟨n, hn, rfl⟩ := ho
  obtain ⟨m, hm, rfl⟩ := ho'
  have h1 := (h.ids_iff _ n).mpr ⟨s, i, hn, rfl⟩
  have h2 := (h.ids_iff _ m).mpr ⟨t, j, hm, rfl⟩
  rw [hid, h2] at h1
  obtain rfl : m = n := Option.some.inj h1
  exact ⟨rfl, h.unique hm hn⟩

/-- No id stands twice in a queue. -/
theorem nodup_fifo (h : WF b) (s : Side) (i : ℕ) : ((b.fifo s i).map BookOrder.id).Nodup := by
  obtain ⟨q, free, h⟩ := h
  rw [h.fifo_eq, List.map_map]
  refine List.Nodup.map_on (fun n hn m hm hid => ?_) (h.queue s i).nodup
  have h1 := (h.ids_iff _ n).mpr ⟨s, i, hn, rfl⟩
  have h2 := (h.ids_iff _ m).mpr ⟨s, i, hm, rfl⟩
  simp only [Function.comp_apply] at hid
  rw [hid, h2] at h1
  exact (Option.some.inj h1).symm

/-- The orders of a side are those of its levels. -/
theorem mem_orders_iff (h : WF b) : o ∈ b.orders s ↔ ∃ i, o ∈ b.fifo s i := by
  rw [orders_eq_fifo h, List.mem_flatMap]
  constructor
  · rintro ⟨i, -, ho⟩
    exact ⟨i, ho⟩
  · rintro ⟨i, ho⟩
    exact ⟨i, mem_ladderOrder.mpr (resting_of_mem h ho).level_lt, ho⟩

/-- **`find`** gives the resting order with that id. -/
theorem find_eq_some_iff (h : WF b) {id : ℕ} :
    b.find id = some o ↔ ∃ s, o ∈ b.orders s ∧ o.id = id := by
  have hwf := h
  obtain ⟨q, free, h⟩ := h
  simp only [mem_orders_iff hwf, find, Option.map_eq_some_iff, h.ids_iff, h.fifo_eq, List.mem_map]
  constructor
  · rintro ⟨n, ⟨s, i, hn, hid⟩, rfl⟩
    exact ⟨s, ⟨i, n, hn, rfl⟩, hid⟩
  · rintro ⟨s, ⟨i, n, hn, rfl⟩, hid⟩
    exact ⟨n, ⟨s, i, hn, hid⟩, rfl⟩

/-- An id is unknown when no order of either side has it. -/
theorem find_eq_none_iff (h : WF b) {id : ℕ} :
    b.find id = none ↔ ∀ s, ∀ o ∈ b.orders s, o.id ≠ id := by
  rw [Option.eq_none_iff_forall_ne_some]
  constructor
  · intro hno s o ho hid
    exact hno o ((find_eq_some_iff h).mpr ⟨s, ho, hid⟩)
  · intro hno o ho
    obtain ⟨s, ho, hid⟩ := (find_eq_some_iff h).mp ho
    exact hno s o ho hid

/-- The best level holds the first orders of the side; a side without one is empty. -/
theorem best_cases (h : WF b) (s : Side) :
    ((b.ladder s).best < 0 ∧ b.orders s = [] ∧ ∀ i, b.fifo s i = []) ∨
      ∃ i : ℕ, (b.ladder s).best = i ∧ b.fifo s i ≠ [] ∧
        (∀ j, b.fifo s j ≠ [] → ¬ s.better j i) ∧
        ∃ rest, b.orders s = b.fifo s i ++ rest ∧ ∀ o ∈ rest, s.better (b.priceOf i) o.price := by
  have hwf := h
  obtain ⟨q, free, h⟩ := h
  rcases h.best s with ⟨hneg, hno⟩ | ⟨i, hi, hne, hbest⟩
  · left
    have hnil : ∀ i, b.fifo s i = [] := fun i =>
      (h.fifo_eq_nil_iff s i).mpr (not_not.mp (hno i))
    refine ⟨by omega, ?_, hnil⟩
    rw [orders_eq_fifo hwf, List.flatMap_eq_nil_iff]
    exact fun i _ => hnil i
  · right
    have hne' : b.fifo s i ≠ [] := fun hc => hne ((h.fifo_eq_nil_iff s i).mp hc)
    have hbest' : ∀ j, b.fifo s j ≠ [] → ¬ s.better j i := fun j hj =>
      hbest j fun hc => hj ((h.fifo_eq_nil_iff s j).mpr hc)
    refine ⟨i, hi, hne', hbest', ?_⟩
    obtain ⟨A, B, hsplit, hA, hB⟩ := ladderOrder_split (s := s) (h.lt_of_ne_nil hne)
    have hAnil : A.flatMap (b.fifo s) = [] := by
      rw [List.flatMap_eq_nil_iff]
      intro j hj
      by_contra hc
      exact hbest' j hc (hA j hj)
    refine ⟨B.flatMap (b.fifo s), ?_, ?_⟩
    · rw [orders_eq_fifo hwf, hsplit, List.flatMap_append, List.flatMap_cons, hAnil,
        List.nil_append]
    · intro o ho
      obtain ⟨j, hj, ho⟩ := List.mem_flatMap.mp ho
      rw [(resting_of_mem hwf ho).price_eq, better_priceOf_iff h.cfg]
      exact hB j hj

/-- **`front`** is the first order of the side. -/
theorem front_eq_head? (h : WF b) (s : Side) : b.front s = (b.orders s).head? := by
  rcases best_cases h s with ⟨hneg, hnil, -⟩ | ⟨i, hi, hne, -, rest, hsplit, -⟩
  · rw [front, if_pos hneg, hnil]
    rfl
  · obtain ⟨q, free, h⟩ := h
    rw [h.fifo_eq] at hne hsplit
    have hq := (h.queue s i).head_eq
    rw [front, if_neg (by omega), frontNode, hi, Int.toNat_natCast, hsplit]
    cases hqi : q s i with
    | nil => simp [hqi] at hne
    | cons n r =>
      rw [hqi] at hq
      simp [hq]

/-- A side is empty when it has no orders. -/
theorem empty_iff (h : WF b) (s : Side) : b.empty s = true ↔ b.orders s = [] := by
  rw [empty, decide_eq_true_eq]
  rcases best_cases h s with ⟨hneg, hnil, -⟩ | ⟨i, hi, hne, -, rest, hsplit, -⟩
  · exact ⟨fun _ => hnil, fun _ => hneg⟩
  · rw [hsplit]
    constructor
    · intro hneg
      omega
    · intro hnil
      exact absurd (List.append_eq_nil_iff.mp hnil).1 hne

/-- The orders of a side come in price order. -/
theorem pairwise_orders (h : WF b) (s : Side) :
    (b.orders s).Pairwise fun o o' => ¬ s.better o'.price o.price := by
  rw [orders_eq_fifo h, List.pairwise_flatMap]
  constructor
  · intro i _
    rw [List.pairwise_iff_forall_sublist]
    intro o o' hsub
    have ho := resting_of_mem h (hsub.mem List.mem_cons_self)
    have ho' := resting_of_mem h (hsub.mem (List.mem_cons_of_mem _ List.mem_cons_self))
    rw [ho.price_eq, ho'.price_eq]
    exact Side.better_irrefl s _
  · refine (pairwise_ladderOrder s b.levelsPerSide).imp fun hij o ho o' ho' => ?_
    rw [(resting_of_mem h ho).price_eq, (resting_of_mem h ho').price_eq,
      better_priceOf_iff (accepted h)]
    exact Side.better_asymm hij

/-- No two resting orders share an id. -/
theorem nodup_orders (h : WF b) : (b.forEachOrder.map BookOrder.id).Nodup := by
  have hside : ∀ s, ((b.orders s).map BookOrder.id).Nodup := by
    intro s
    rw [orders_eq_fifo h, List.map_flatMap, List.nodup_flatMap]
    refine ⟨fun i _ => nodup_fifo h s i, (pairwise_ladderOrder s _).imp fun hij => ?_⟩
    intro id h1 h2
    obtain ⟨o, ho, rfl⟩ := List.mem_map.mp h1
    obtain ⟨o', ho', hid⟩ := List.mem_map.mp h2
    obtain ⟨-, -, rfl⟩ := eq_of_id_eq h ho' ho hid
    exact Side.better_irrefl s _ hij
  rw [forEachOrder, List.map_append, List.nodup_append]
  refine ⟨hside .buy, hside .sell, ?_⟩
  rintro _ h1 _ h2 rfl
  obtain ⟨o, ho, hid⟩ := List.mem_map.mp h1
  obtain ⟨o', ho', hid'⟩ := List.mem_map.mp h2
  obtain ⟨i, ho⟩ := (mem_orders_iff h).mp ho
  obtain ⟨j, ho'⟩ := (mem_orders_iff h).mp ho'
  have := (eq_of_id_eq h ho ho' (hid.trans hid'.symm)).2.1
  exact absurd this (by decide)

/-- **`order_count`** counts the resting orders, and the pool bounds it. -/
theorem orderCount_eq (h : WF b) :
    b.orderCount = b.forEachOrder.length ∧ b.orderCount ≤ b.cfg.maxOrders := by
  obtain ⟨q, free, h⟩ := h
  have hroom := h.room
  refine ⟨?_, by rw [orderCount]; omega⟩
  rw [orderCount, h.live_eq, forEachOrder, h.orders_eq, h.orders_eq]
  simp

end Read

/-! ## The mutations, level by level -/

section Write

/-- What `add` makes of a level: the order joins level `i` of side `s` at the back. -/
def pushFifo (f : Side → ℕ → List BookOrder) (s : Side) (i : ℕ) (o : BookOrder) :
    Side → ℕ → List BookOrder :=
  fun t j => if t = s ∧ j = i then f t j ++ [o] else f t j

/-- The answer of `add`, before it touches the book. -/
def addAnswer (b : OrderBook) (id : ℕ) (price : ℤ) (qty : ℕ) : AddResult :=
  if b.validPrice price = false then .badPrice
  else if qty = 0 then .badQty
  else if b.orderCount = b.cfg.maxOrders then .full
  else if id = FlatIdMap.kEmpty ∨ b.find id ≠ none then .duplicateId
  else .ok

/-- A refused `add` changes nothing. -/
theorem add_of_refused (h : WF b) {id qty owner userRef : ℕ} {price : ℤ}
    (hr : b.addAnswer id price qty ≠ .ok) :
    b.add id s price qty owner userRef = (b, b.addAnswer id price qty) := by
  obtain ⟨q, free, h⟩ := h
  have hfull : b.freeHead = kNil ↔ b.orderCount = b.cfg.maxOrders := by
    rw [h.freeHead_eq_iff, orderCount, ← List.length_eq_zero_iff]
    have := h.room
    omega
  unfold add
  unfold addAnswer at hr ⊢
  by_cases hv : b.validPrice price = false
  · rw [if_pos (by simp [hv]), if_pos hv]
  · rw [if_neg (by simpa using hv), if_neg hv] at *
    by_cases hq : qty = 0
    · rw [if_pos hq, if_pos hq]
    · rw [if_neg hq, if_neg hq] at *
      by_cases hf : b.freeHead = kNil
      · rw [if_pos hf, if_pos (hfull.mp hf)]
      · rw [if_neg hf, if_neg (fun hc => hf (hfull.mpr hc))] at *
        by_cases hd : id = FlatIdMap.kEmpty ∨ b.find id ≠ none
        · have hins : b.ids.insert id b.freeHead = (b.ids, false) := by
            rcases hd with rfl | hd
            · exact FlatIdMap.insert_zero _
            · obtain ⟨n, hn⟩ : ∃ n, b.ids.find id = some n := by
                rw [find, ne_eq, Option.map_eq_none_iff] at hd
                exact Option.ne_none_iff_exists'.mp hd
              exact FlatIdMap.insert_of_mem h.ids_wf _ hn
          rw [if_pos hd]
          simp only [hins]
        · exact absurd (if_neg hd) hr

/-- **A successful `add`** appends the order to the level of its price. -/
theorem add_of_ok (h : WF b) (s : Side) (owner userRef : ℕ) {id qty : ℕ} {price : ℤ}
    (hok : b.addAnswer id price qty = .ok) :
    ∃ b' i, b.add id s price qty owner userRef = (b', .ok) ∧ WF b' ∧ b'.cfg = b.cfg ∧
      i < b.levelsPerSide ∧ price = b.priceOf i ∧
      b'.fifo = pushFifo b.fifo s i ⟨id, price, qty, owner, userRef, s⟩ := by
  obtain ⟨q, free, h⟩ := h
  have hv : b.validPrice price = true := by
    by_contra hc
    rw [addAnswer, if_pos (by simpa using hc)] at hok
    exact absurd hok (by simp)
  have hq : qty ≠ 0 := by
    rintro rfl
    simp [addAnswer, hv] at hok
  have hf : b.orderCount ≠ b.cfg.maxOrders := by
    intro hc
    simp [addAnswer, hv, hq, hc] at hok
  have hd : ¬ (id = FlatIdMap.kEmpty ∨ b.find id ≠ none) := by
    intro hc
    simp [addAnswer, hv, hq, hf, hc] at hok
  rw [not_or, not_not] at hd
  have hfresh : b.ids.find id = none := by
    have := hd.2
    rwa [find, Option.map_eq_none_iff] at this
  cases free with
  | nil =>
    have := h.room
    simp only [List.length_nil, Nat.add_zero] at this
    exact absurd this hf
  | cons n free =>
    obtain ⟨i, hi, hprice, hcode, hinv, ha⟩ :=
      h.add_ok s owner userRef hv hq hd.1 hfresh
    refine ⟨(b.add id s price qty owner userRef).1, i, ?_, ⟨_, _, hinv⟩, ha.shape.cfg, hi, hprice,
      ?_⟩
    · rw [← hcode]
    · funext t j
      have hnotq : ∀ t j, n ∉ q t j := fun t j hm => h.free_disj t j n hm (by simp)
      have hkeep : (q t j).map (fun m => ((b.add id s price qty owner userRef).1.node m).order) =
          (q t j).map fun m => (b.node m).order := by
        apply List.map_congr_left
        intro m hm
        apply ha.order_of_ne
        rintro rfl
        exact hnotq t j hm
      rw [hinv.fifo_eq, pushFifo, h.fifo_eq]
      by_cases hts : t = s ∧ j = i
      · obtain ⟨rfl, rfl⟩ := hts
        rw [if_pos ⟨rfl, rfl⟩, setQueue_self, List.map_append, hkeep]
        simp [ha.node_self]
      · rw [if_neg hts, setQueue_of_ne q _ hts, hkeep]

/-- Dropping one order from a list by its id. -/
def dropId (id : ℕ) (l : List BookOrder) : List BookOrder := l.filter fun o => o.id ≠ id

/-- Taking `by'` shares off one order of a list. -/
def reduceId (id by' : ℕ) (l : List BookOrder) : List BookOrder :=
  l.map fun o => if o.id = id then { o with qty := o.qty - by' } else o

/-- **Unlinking the node of an order** drops the order. -/
theorem unlinkAndFree_spec (h : Inv b q free) (hn : n ∈ q s i) :
    WF (b.unlinkAndFree n) ∧ (b.unlinkAndFree n).cfg = b.cfg ∧
      ∀ t j, (b.unlinkAndFree n).fifo t j = dropId (b.node n).order.id (b.fifo t j) := by
  have hwf : WF b := ⟨q, free, h⟩
  obtain ⟨l, r, hq⟩ := List.append_of_mem hn
  have hinv := h.unlinkAndFree hq
  have hu := h.unlinked hn
  refine ⟨⟨_, _, hinv⟩, hu.shape.cfg, fun t j => ?_⟩
  have horder : (fun m => ((b.unlinkAndFree n).node m).order) = fun m => (b.node m).order :=
    funext hu.order
  have hid : ∀ {t j m}, m ∈ q t j → m ≠ n → (b.node m).order.id ≠ (b.node n).order.id := by
    intro t j m hm hne hc
    have h1 := (h.ids_iff _ m).mpr ⟨t, j, hm, rfl⟩
    rw [hc, (h.ids_iff _ n).mpr ⟨s, i, hn, rfl⟩] at h1
    exact hne (Option.some.inj h1).symm
  have hkeep : ∀ xs : List ℕ, (∀ m ∈ xs, ∃ t j, m ∈ q t j ∧ m ≠ n) →
      dropId (b.node n).order.id (xs.map fun m => (b.node m).order) =
        xs.map fun m => (b.node m).order := by
    intro xs hxs
    apply List.filter_eq_self.mpr
    intro o ho
    obtain ⟨m, hm, rfl⟩ := List.mem_map.mp ho
    obtain ⟨t, j, hmq, hne⟩ := hxs m hm
    simpa using hid hmq hne
  rw [hinv.fifo_eq, horder, h.fifo_eq]
  by_cases hts : t = s ∧ j = i
  · obtain ⟨rfl, rfl⟩ := hts
    have hnd := (h.queue t j).nodup
    rw [hq, List.nodup_middle, List.nodup_cons, List.mem_append, not_or] at hnd
    have hl := hkeep l fun m hm => ⟨t, j, by simp [hq, hm], fun hc => hnd.1.1 (hc ▸ hm)⟩
    have hr := hkeep r fun m hm => ⟨t, j, by simp [hq, hm], fun hc => hnd.1.2 (hc ▸ hm)⟩
    unfold dropId at hl hr ⊢
    rw [setQueue_self, hq, List.map_append, List.map_append, List.map_cons, List.filter_append,
      hl, List.filter_cons_of_neg (by simp), hr]
  · rw [setQueue_of_ne q _ hts, hkeep]
    intro m hm
    refine ⟨t, j, hm, ?_⟩
    rintro rfl
    exact hts (h.unique hn hm)

/-- **Reducing the node of an order** takes the shares off that order. -/
theorem reduceNode_spec (h : Inv b q free) (hn : n ∈ q s i) {by' : ℕ}
    (hlt : by' < (b.node n).order.qty) :
    WF (b.reduceNode n by') ∧ (b.reduceNode n by').cfg = b.cfg ∧
      ∀ t j, (b.reduceNode n by').fifo t j = reduceId (b.node n).order.id by' (b.fifo t j) := by
  have hinv := h.reduceNode hn hlt
  refine ⟨⟨_, _, hinv⟩, sameShape_reduceNode.cfg, fun t j => ?_⟩
  rw [hinv.fifo_eq, h.fifo_eq, reduceId, List.map_map]
  apply List.map_congr_left
  intro m hm
  rw [node_reduceNode by' (h.nodes_lt hn), Function.comp_apply]
  by_cases hmn : m = n
  · simp [hmn]
  · rw [if_neg hmn, if_neg]
    intro hc
    have h1 := (h.ids_iff _ m).mpr ⟨t, j, hm, rfl⟩
    rw [hc, (h.ids_iff _ n).mpr ⟨s, i, hn, rfl⟩] at h1
    exact hmn (Option.some.inj h1).symm

/-- `reduce` and `remove` of an unknown id. -/
theorem remove_of_unknown {id : ℕ} (hf : b.find id = none) : b.remove id = (b, false) := by
  rw [find, Option.map_eq_none_iff] at hf
  rw [remove, hf]

/-- `reduce` refuses an id that it does not know. -/
theorem reduce_of_unknown {id : ℕ} (by' : ℕ) (hf : b.find id = none) :
    b.reduce id by' = (b, false) := by
  rw [find, Option.map_eq_none_iff] at hf
  rw [reduce, hf]

/-- The order that is found is that of a queued node. -/
theorem exists_node (h : Inv b q free) {id : ℕ} {o : BookOrder} (hf : b.find id = some o) :
    ∃ n s i, b.ids.find id = some n ∧ n ∈ q s i ∧ (b.node n).order = o ∧ o.id = id := by
  rw [find, Option.map_eq_some_iff] at hf
  obtain ⟨n, hn, rfl⟩ := hf
  obtain ⟨s, i, hmem, hid⟩ := (h.ids_iff id n).mp hn
  exact ⟨n, s, i, hn, hmem, rfl, hid⟩

/-- **`remove`** of a resting order drops it. -/
theorem remove_of_found (h : WF b) {id : ℕ} {o : BookOrder} (hf : b.find id = some o) :
    ∃ b', b.remove id = (b', true) ∧ WF b' ∧ b'.cfg = b.cfg ∧
      ∀ t j, b'.fifo t j = dropId id (b.fifo t j) := by
  obtain ⟨q, free, h⟩ := h
  obtain ⟨n, s, i, hn, hmem, rfl, rfl⟩ := exists_node h hf
  refine ⟨b.unlinkAndFree n, ?_, unlinkAndFree_spec h hmem⟩
  rw [remove, hn]

/-- **`reduce`** by more than the open quantity is refused. -/
theorem reduce_of_lt {id by' : ℕ} {o : BookOrder} (hf : b.find id = some o)
    (hlt : o.qty < by') : b.reduce id by' = (b, false) := by
  rw [find, Option.map_eq_some_iff] at hf
  obtain ⟨n, hn, rfl⟩ := hf
  simp only [reduce, hn]
  rw [if_pos hlt]

/-- **`reduce`** by the open quantity removes the order. -/
theorem reduce_of_eq (h : WF b) {id by' : ℕ} {o : BookOrder} (hf : b.find id = some o)
    (heq : by' = o.qty) :
    ∃ b', b.reduce id by' = (b', true) ∧ WF b' ∧ b'.cfg = b.cfg ∧
      ∀ t j, b'.fifo t j = dropId id (b.fifo t j) := by
  obtain ⟨q, free, h⟩ := h
  obtain ⟨n, s, i, hn, hmem, rfl, rfl⟩ := exists_node h hf
  refine ⟨b.unlinkAndFree n, ?_, unlinkAndFree_spec h hmem⟩
  simp only [reduce, hn]
  rw [if_neg (by omega), if_pos heq]

/-- **`reduce`** by less than the open quantity keeps the order in its place. -/
theorem reduce_of_gt (h : WF b) {id by' : ℕ} {o : BookOrder} (hf : b.find id = some o)
    (hgt : by' < o.qty) :
    ∃ b', b.reduce id by' = (b', true) ∧ WF b' ∧ b'.cfg = b.cfg ∧
      ∀ t j, b'.fifo t j = reduceId id by' (b.fifo t j) := by
  obtain ⟨q, free, h⟩ := h
  obtain ⟨n, s, i, hn, hmem, rfl, rfl⟩ := exists_node h hf
  refine ⟨b.reduceNode n by', ?_, reduceNode_spec h hmem hgt⟩
  simp only [reduce, hn]
  rw [if_neg (by omega), if_neg (by omega)]

/-- **`reduce_front`** does to the front order what `reduce` does to it by id. -/
theorem reduceFront_eq_reduce (h : WF b) {by' : ℕ} {o : BookOrder} (hf : b.front s = some o)
    (hle : by' ≤ o.qty) :
    b.reduceFront s by' = (b.reduce o.id by').1 ∧ b.find o.id = some o := by
  have hmem : o ∈ b.orders s := by
    rw [front_eq_head? h] at hf
    exact List.mem_of_mem_head? hf
  have hfind := (find_eq_some_iff h).mpr ⟨s, hmem, rfl⟩
  refine ⟨?_, hfind⟩
  obtain ⟨q, free, h⟩ := h
  unfold front at hf
  split at hf
  · exact absurd hf (by simp)
  · next hneg =>
    obtain rfl := Option.some.inj hf
    obtain ⟨i, hi, hmemq⟩ := h.frontNode_mem hneg
    set n := b.frontNode s with hn
    have hids : b.ids.find (b.node n).order.id = some n :=
      (h.ids_iff _ n).mpr ⟨s, i, hmemq, rfl⟩
    simp only [reduceFront, ← hn, reduce, hids]
    rw [if_neg (not_lt.mpr hle)]
    by_cases heq : by' = (b.node n).order.qty
    · rw [if_pos heq.ge, if_pos heq]
    · rw [if_neg (by omega), if_neg heq]
      simp only [reduceNode]
      rw [(h.placed s i n hmemq).side_eq, h.indexOf_price hmemq, hi]

/-- **`clear`** empties every level. -/
theorem clear_wf (h : WF b) : WF b.clear ∧ b.clear.cfg = b.cfg ∧ ∀ t j, b.clear.fifo t j = [] := by
  obtain ⟨q, free, h⟩ := h
  exact ⟨⟨_, _, h.clear⟩, rfl, fun t j => (h.clear.fifo_eq_nil_iff t j).mpr rfl⟩

/-- **A new book** is well-formed and empty. -/
theorem new_wf {cfg : BookConfig} (h : OrderBook.new cfg = .ok b) :
    WF b ∧ b.cfg = cfg ∧ ∀ t j, b.fifo t j = [] := by
  obtain ⟨hcfg, hinv⟩ := inv_new h
  exact ⟨⟨_, _, hinv⟩, hcfg, fun t j => (hinv.fifo_eq_nil_iff t j).mpr rfl⟩

end Write

end PulseForge.OrderBook
