import PulseForge.Analysis.OrderBookMoves
import PulseForge.Analysis.ReplicaBook

/-!
# Replaying a snapshot

A snapshot lists the orders of a book side by side, level by level and oldest first. Added in that
order to an empty book they join the same levels in the same order, and everything a book shows is
read off its levels.
-/

set_option autoImplicit false

namespace PulseForge.OrderBook

open Foundation

variable {b c : OrderBook}

/-! ## What a book shows is read off its levels -/

/-- Two books of one configuration whose levels show the same. -/
structure Alike (b c : OrderBook) : Prop where
  wf : WF b
  wf' : WF c
  cfg : c.cfg = b.cfg
  fifo : ∀ s i, (c.fifo s i).map BookOrder.visible = (b.fifo s i).map BookOrder.visible

/-- The total of a level is read off what it shows. -/
theorem totalQty_eq (os : List BookOrder) :
    LevelMap.totalQty os = ((os.map BookOrder.visible).map fun v => v.2.2.2).sum := by
  unfold LevelMap.totalQty
  rw [List.map_map]
  rfl

/-- A view counts what its orders show. -/
theorem view_congr {p : ℤ} {os os' : List BookOrder}
    (h : os'.map BookOrder.visible = os.map BookOrder.visible) :
    LevelMap.view (p, os') = LevelMap.view (p, os) := by
  have hlen := congrArg List.length h
  rw [List.length_map, List.length_map] at hlen
  unfold LevelMap.view
  dsimp only
  rw [totalQty_eq, h, ← totalQty_eq, hlen]

theorem map_visible_ne_nil {os os' : List BookOrder}
    (h : os'.map BookOrder.visible = os.map BookOrder.visible) : os' ≠ [] ↔ os ≠ [] := by
  rw [ne_eq, ne_eq, ← @List.map_eq_nil_iff _ _ BookOrder.visible os', h, List.map_eq_nil_iff]

/-- An empty side has no best index. -/
theorem best_of_empty (h : WF b) {s : Side} (hempty : b.empty s = true) :
    (b.ladder s).best = -1 := by
  obtain ⟨q, free, h⟩ := h
  rcases h.best s with ⟨hbest, -⟩ | ⟨k, hbest, -⟩
  · exact hbest
  · have hlt := of_decide_eq_true hempty
    omega

namespace Alike

variable (h : Alike b c)

include h

theorem levels : c.levelsPerSide = b.levelsPerSide := by
  rw [levelsPerSide_eq h.wf', levelsPerSide_eq h.wf, h.cfg]

theorem priceOf (i : ℤ) : c.priceOf i = b.priceOf i := by
  unfold OrderBook.priceOf
  rw [h.cfg]

theorem orders (s : Side) :
    (c.orders s).map BookOrder.visible = (b.orders s).map BookOrder.visible := by
  rw [orders_eq_fifo h.wf', orders_eq_fifo h.wf, List.map_flatMap, List.map_flatMap, h.levels]
  apply List.flatMap_congr
  intro i _
  exact h.fifo s i

theorem forEachOrder :
    c.forEachOrder.map BookOrder.visible = b.forEachOrder.map BookOrder.visible := by
  unfold OrderBook.forEachOrder
  rw [List.map_append, List.map_append, h.orders, h.orders]

theorem views (s : Side) :
    (c.levelLists s).map LevelMap.view = (b.levelLists s).map LevelMap.view := by
  rw [levelLists_eq h.wf', levelLists_eq h.wf]
  unfold LevelMap.levelsOf
  rw [h.levels, List.map_map, List.map_map]
  simp only [map_visible_ne_nil (h.fifo s _)]
  apply List.map_congr_left
  intro i _
  rw [Function.comp_apply, Function.comp_apply, h.priceOf]
  exact view_congr (h.fifo s i)

theorem forEachLevel (s : Side) (k : ℕ) : c.forEachLevel s k = b.forEachLevel s k := by
  rw [forEachLevel_eq h.wf', forEachLevel_eq h.wf, List.map_take, List.map_take, h.views]

theorem levelAt (s : Side) (p : ℤ) : c.levelAt s p = b.levelAt s p := by
  have hvalid : c.validPrice p = b.validPrice p := by
    unfold validPrice
    rw [h.cfg]
  have hindex : c.indexOf p = b.indexOf p := by
    unfold indexOf
    rw [h.cfg]
  have hfifo := h.fifo s (b.indexOf p).toNat
  obtain ⟨hqty, hcount⟩ := level_totals h.wf' s (b.indexOf p).toNat
  obtain ⟨hqty', hcount'⟩ := level_totals h.wf s (b.indexOf p).toNat
  have hview := @view_congr p _ _ hfifo
  unfold LevelMap.view at hview
  dsimp only at hview
  unfold OrderBook.levelAt
  dsimp only
  rw [hvalid, hindex, hqty, hcount, hqty', hcount', hview]

theorem empty (s : Side) : c.empty s = b.empty s := by
  rw [Bool.eq_iff_iff, empty_iff h.wf', empty_iff h.wf,
    ← @List.map_eq_nil_iff _ _ BookOrder.visible (c.orders s), h.orders, List.map_eq_nil_iff]

theorem front (s : Side) :
    (c.front s).map BookOrder.visible = (b.front s).map BookOrder.visible := by
  rw [front_eq_head? h.wf', front_eq_head? h.wf, ← List.head?_map, ← List.head?_map, h.orders]

theorem bestPrice (s : Side) : c.bestPrice s = b.bestPrice s := by
  have hsame := h.empty s
  cases hside : b.empty s with
  | true =>
    rw [hside] at hsame
    unfold OrderBook.bestPrice
    rw [best_of_empty h.wf hside, best_of_empty h.wf' hsame, h.priceOf]
  | false =>
    rw [hside] at hsame
    have hhead := congrArg List.head? (h.views s)
    unfold OrderBook.empty at hside hsame
    rw [List.head?_map, List.head?_map, head?_levelLists, head?_levelLists,
      if_neg (of_decide_eq_false hside), if_neg (of_decide_eq_false hsame)] at hhead
    exact congrArg LevelView.price (Option.some.inj hhead)

end Alike

/-! ## The orders of one level -/

/-- The order is of level `i` of side `s`. -/
def At (b : OrderBook) (s : Side) (i : ℕ) (o : BookOrder) : Prop :=
  o.side = s ∧ o.price = b.priceOf i

instance (b : OrderBook) (s : Side) (i : ℕ) : DecidablePred (b.At s i) :=
  fun _ => inferInstanceAs (Decidable (_ ∧ _))

/-- The orders of one level, picked out of a queue. -/
theorem filter_fifo (h : WF b) (s t : Side) (i j : ℕ) :
    (b.fifo t j).filter (b.At s i) = if t = s ∧ j = i then b.fifo s i else [] := by
  split_ifs with hsame
  · obtain ⟨rfl, rfl⟩ := hsame
    rw [List.filter_eq_self]
    intro o ho
    have hrest := resting_of_mem h ho
    exact decide_eq_true ⟨hrest.side_eq, hrest.price_eq⟩
  · rw [List.filter_eq_nil_iff]
    intro o ho hat
    have hrest := resting_of_mem h ho
    obtain ⟨hside, hprice⟩ := of_decide_eq_true hat
    apply hsame
    constructor
    · exact hrest.side_eq.symm.trans hside
    · exact priceOf_natCast_inj h j i (hrest.price_eq.symm.trans hprice)

/-- The orders of one level, picked out of a side. -/
theorem filter_orders (h : WF b) (s t : Side) (i : ℕ) :
    (b.orders t).filter (b.At s i) = if t = s then b.fifo s i else [] := by
  rw [orders_eq_fifo h, List.filter_flatMap]
  simp only [filter_fifo h]
  split_ifs with hts
  · by_cases hi : i < b.levelsPerSide
    · obtain ⟨A, B, hsplit, hA, hB⟩ := ladderOrder_split (s := t) hi
      have hnil : ∀ L : List ℕ, (∀ j ∈ L, j ≠ i) →
          L.flatMap (fun j => if t = s ∧ j = i then b.fifo s i else []) = [] := by
        intro L hL
        rw [List.flatMap_eq_nil_iff]
        exact fun j hj => if_neg fun hsame => hL j hj hsame.2
      have hneA : ∀ j ∈ A, j ≠ i := by
        rintro j hj rfl
        exact Side.better_irrefl t _ (hA j hj)
      have hneB : ∀ j ∈ B, j ≠ i := by
        rintro j hj rfl
        exact Side.better_irrefl t _ (hB j hj)
      rw [hsplit, List.flatMap_append, List.flatMap_cons, hnil A hneA, hnil B hneB,
        if_pos ⟨hts, rfl⟩, List.nil_append, List.append_nil]
    · have hempty : b.fifo s i = [] := by
        rw [List.eq_nil_iff_forall_not_mem]
        exact fun o ho => hi (resting_of_mem h ho).level_lt
      rw [hempty, List.flatMap_eq_nil_iff]
      exact fun j _ => ite_self _
  · rw [List.flatMap_eq_nil_iff]
    exact fun j _ => if_neg fun hsame => hts hsame.1

/-- **A snapshot** has the orders of a level in their order. -/
theorem filter_forEachOrder (h : WF b) (s : Side) (i : ℕ) :
    b.forEachOrder.filter (b.At s i) = b.fifo s i := by
  unfold forEachOrder
  rw [List.filter_append, filter_orders h, filter_orders h]
  cases s with
  | buy => exact List.append_nil _
  | sell => rfl

/-- The orders of a book are those of its levels. -/
theorem mem_forEachOrder_iff_fifo (h : WF b) {o : BookOrder} :
    o ∈ b.forEachOrder ↔ ∃ s i, o ∈ b.fifo s i := by
  rw [mem_forEachOrder]
  exact exists_congr fun s => mem_orders_iff h

/-! ## Replay -/

/-- One order of a snapshot is added (trader.cpp:355-360), for the account the reader gives it. -/
def feed (account : BookOrder → ℕ × ℕ) (c : OrderBook) (o : BookOrder) : OrderBook × AddResult :=
  c.add o.id o.side o.price o.qty (account o).1 (account o).2

/-- The orders of a snapshot are added one after another. -/
def replay (account : BookOrder → ℕ × ℕ) (c : OrderBook) (os : List BookOrder) :
    OrderBook × List AddResult :=
  run (feed account) c os

/-- The orders `pre` of a snapshot of `b` were added. -/
structure Fed (b c : OrderBook) (pre : List BookOrder) : Prop where
  wf : WF c
  cfg : c.cfg = b.cfg
  fifo : ∀ s i, (c.fifo s i).map BookOrder.visible =
    (pre.filter (b.At s i)).map BookOrder.visible

/-- What was added shows an order of the snapshot. -/
theorem Fed.mem {pre : List BookOrder} (h : Fed b c pre) {o : BookOrder}
    (ho : o ∈ c.forEachOrder) : ∃ o' ∈ pre, o'.id = o.id := by
  obtain ⟨s, i, ho⟩ := (mem_forEachOrder_iff_fifo h.wf).mp ho
  have hmem := List.mem_map_of_mem (f := BookOrder.visible) ho
  rw [h.fifo] at hmem
  obtain ⟨o', ho', hshow⟩ := List.mem_map.mp hmem
  exact ⟨o', List.mem_of_mem_filter ho', congrArg Prod.fst hshow⟩

/-- A book that is filled has the prices of the other. -/
theorem Fed.priceOf {pre : List BookOrder} (h : Fed b c pre) (j : ℤ) :
    c.priceOf j = b.priceOf j := by
  unfold OrderBook.priceOf
  rw [h.cfg]

/-- Its identifier is still free. -/
theorem Fed.find_eq_none {pre post : List BookOrder} {o : BookOrder} (h : Fed b c pre) (hwf : WF b)
    (hsnapshot : pre ++ o :: post = b.forEachOrder) : c.find o.id = none := by
  have hnodup := nodup_orders hwf
  rw [← hsnapshot, List.map_append, List.nodup_append] at hnodup
  rw [find_eq_none_iff h.wf]
  intro t o' ho' hid
  obtain ⟨o'', ho'', hid'⟩ := h.mem (mem_forEachOrder.mpr ⟨t, ho'⟩)
  exact hnodup.2.2 _ (List.mem_map_of_mem ho'') _ List.mem_cons_self (hid'.trans hid)

/-- The pool still has room: the book the snapshot is of held all its orders. -/
theorem Fed.orderCount_ne {pre post : List BookOrder} {o : BookOrder} (h : Fed b c pre) (hwf : WF b)
    (hsnapshot : pre ++ o :: post = b.forEachOrder) : c.orderCount ≠ c.cfg.maxOrders := by
  have hsub : c.forEachOrder.map BookOrder.id ⊆ pre.map BookOrder.id := by
    intro id hid
    obtain ⟨o', ho', rfl⟩ := List.mem_map.mp hid
    obtain ⟨o'', ho'', hid'⟩ := h.mem ho'
    exact List.mem_map.mpr ⟨o'', ho'', hid'⟩
  have hle := ((nodup_orders h.wf).subperm hsub).length_le
  rw [List.length_map, List.length_map, ← (orderCount_eq h.wf).1] at hle
  have hcount := orderCount_eq hwf
  have hlt := congrArg List.length hsnapshot
  rw [List.length_append, List.length_cons, ← hcount.1] at hlt
  rw [h.cfg]
  omega

/-- The next order of the snapshot is accepted. -/
theorem Fed.addAnswer {pre post : List BookOrder} {o : BookOrder} (h : Fed b c pre) (hwf : WF b)
    (hsnapshot : pre ++ o :: post = b.forEachOrder) : c.addAnswer o.id o.price o.qty = .ok := by
  have ho : o ∈ b.forEachOrder := by
    rw [← hsnapshot]
    exact List.mem_append_right _ List.mem_cons_self
  obtain ⟨s, i, ho⟩ := (mem_forEachOrder_iff_fifo hwf).mp ho
  have hrest := resting_of_mem hwf ho
  have hvalid : c.validPrice o.price = true := by
    have hvalid := (validPrice_iff (accepted hwf)).mpr
      ⟨i, levelsPerSide_eq hwf ▸ hrest.level_lt, hrest.price_eq⟩
    unfold validPrice at hvalid ⊢
    rw [h.cfg]
    exact hvalid
  unfold OrderBook.addAnswer
  rw [if_neg (by simp [hvalid]), if_neg hrest.qty_pos.ne', if_neg (h.orderCount_ne hwf hsnapshot),
    if_neg]
  rintro (hid | hfound)
  · exact hrest.id_ne hid
  · exact hfound (h.find_eq_none hwf hsnapshot)

/-- **The next order** of the snapshot is taken. -/
theorem Fed.next {pre post : List BookOrder} {o : BookOrder} (h : Fed b c pre) (hwf : WF b)
    (hsnapshot : pre ++ o :: post = b.forEachOrder) (account : BookOrder → ℕ × ℕ) :
    (feed account c o).2 = .ok ∧ Fed b (feed account c o).1 (pre ++ [o]) := by
  obtain ⟨c', k, hadd, hwf', hcfg', -, hprice, hfifo⟩ :=
    add_of_ok h.wf o.side (account o).1 (account o).2 (h.addAnswer hwf hsnapshot)
  rw [h.priceOf] at hprice
  have hat : ∀ t j, b.At t j o ↔ t = o.side ∧ j = k := by
    intro t j
    constructor
    · rintro ⟨hside, hprice'⟩
      exact ⟨hside.symm, priceOf_natCast_inj hwf j k (hprice'.symm.trans hprice)⟩
    · rintro ⟨rfl, rfl⟩
      exact ⟨rfl, hprice⟩
  unfold feed
  rw [hadd]
  refine ⟨rfl, hwf', hcfg'.trans h.cfg, fun t j => ?_⟩
  change (c'.fifo t j).map _ = _
  rw [hfifo, List.filter_append, List.map_append, ← h.fifo, List.filter_cons, List.filter_nil]
  unfold pushFifo
  by_cases hhere : t = o.side ∧ j = k
  · rw [if_pos hhere, if_pos (decide_eq_true ((hat t j).mpr hhere)), List.map_append]
    rfl
  · rw [if_neg hhere, if_neg (by simpa using fun h => hhere ((hat t j).mp h))]
    exact (List.append_nil _).symm

/-- **A whole snapshot** is taken, from any point of it on. -/
theorem Fed.replay {pre post : List BookOrder} (h : Fed b c pre) (hwf : WF b)
    (hsnapshot : pre ++ post = b.forEachOrder) (account : BookOrder → ℕ × ℕ) :
    (∀ r ∈ (OrderBook.replay account c post).2, r = .ok) ∧
      Fed b (OrderBook.replay account c post).1 b.forEachOrder := by
  induction post generalizing pre c with
  | nil =>
    rw [List.append_nil] at hsnapshot
    rw [← hsnapshot]
    exact ⟨fun r hr => absurd hr List.not_mem_nil, h⟩
  | cons o post ih =>
    obtain ⟨hok, hfed⟩ := h.next hwf hsnapshot account
    rw [List.append_cons] at hsnapshot
    obtain ⟨hoks, hend⟩ := ih hfed hsnapshot
    refine ⟨?_, hend⟩
    rintro r (_ | hr)
    · exact hok
    · exact hoks r ‹_›

/-- A book without orders has empty levels. -/
theorem fifo_of_orderCount (h : WF b) (hempty : b.orderCount = 0) (s : Side) (i : ℕ) :
    b.fifo s i = [] := by
  have hnil : b.forEachOrder = [] := by
    rw [← List.length_eq_zero_iff, ← (orderCount_eq h).1, hempty]
  rw [List.eq_nil_iff_forall_not_mem]
  intro o ho
  have hmem := (mem_forEachOrder_iff_fifo h).mpr ⟨s, i, ho⟩
  rw [hnil] at hmem
  exact List.not_mem_nil hmem

/-- **An empty book** of the configuration becomes alike. -/
theorem replay_alike {e : OrderBook} (hwf : WF b) (hwf' : WF e) (hcfg : e.cfg = b.cfg)
    (hempty : e.orderCount = 0) (account : BookOrder → ℕ × ℕ) :
    (∀ r ∈ (replay account e b.forEachOrder).2, r = .ok) ∧
      Alike b (replay account e b.forEachOrder).1 := by
  have hstart : Fed b e [] := by
    refine ⟨hwf', hcfg, fun s i => ?_⟩
    rw [fifo_of_orderCount hwf' hempty]
    rfl
  obtain ⟨hoks, hfed⟩ :=
    @Fed.replay b e [] b.forEachOrder hstart hwf (List.nil_append _) account
  refine ⟨hoks, hwf, hfed.wf, hfed.cfg, fun s i => ?_⟩
  rw [hfed.fifo, filter_forEachOrder hwf]

/-! ## Order of arrival -/

/-- The identifiers in the order in which they last joined the book. -/
def arrive (ids : List ℕ) : BookOp × BookAnswer → List ℕ
  | (.add id .., .added .ok) => ids.filter (· ≠ id) ++ [id]
  | _ => ids

def arrivals (log : List (BookOp × BookAnswer)) : List ℕ := log.foldl arrive []

/-- The arrivals of one call more. -/
theorem arrivals_append (log : List (BookOp × BookAnswer)) (e : BookOp × BookAnswer) :
    arrivals (log ++ [e]) = arrive (arrivals log) e := by
  unfold arrivals
  rw [List.foldl_append]
  rfl

/-- Only an order that was added arrives. -/
theorem arrive_of_ne {ids : List ℕ} {op : BookOp} {answer : BookAnswer}
    (hans : answer ≠ .added .ok) : arrive ids (op, answer) = ids := by
  unfold arrive
  split
  · rename_i heq
    exact absurd (congrArg Prod.snd heq) hans
  · rfl

/-- The levels queue in the order of arrival. -/
structure Queued (log : List (BookOp × BookAnswer)) (b : OrderBook) : Prop where
  nodup : (arrivals log).Nodup
  sub : ∀ s i, ((b.fifo s i).map BookOrder.id).Sublist (arrivals log)

/-- **One call** keeps the levels queued. -/
theorem Queued.call {log : List (BookOp × BookAnswer)} {b' : OrderBook} (h : Queued log b)
    (hwf : WF b) {op : BookOp} {answer : BookAnswer} (hmoves : CallMoves b op (b', answer)) :
    Queued (log ++ [(op, answer)]) b' := by
  cases hmoves with
  | @pushes _ id qty owner userRef i side price hnew hfifo =>
    have hfresh : ∀ s j, ((b.fifo s j).map BookOrder.id).Sublist
        ((arrivals log).filter (· ≠ id)) := by
      intro s j
      have hne : ∀ x ∈ (b.fifo s j).map BookOrder.id, decide (x ≠ id) = true := by
        intro x hx
        obtain ⟨o, ho, rfl⟩ := List.mem_map.mp hx
        apply decide_eq_true
        exact (find_eq_none_iff hwf).mp hnew s o ((mem_orders_iff hwf).mpr ⟨j, ho⟩)
      rw [← List.filter_eq_self.mpr hne]
      exact (h.sub s j).filter _
    have harrive : arrivals (log ++ [(.add id side price qty owner userRef, .added .ok)]) =
        (arrivals log).filter (· ≠ id) ++ [id] := arrivals_append log _
    constructor
    · rw [harrive, List.nodup_append]
      refine ⟨h.nodup.filter _, List.nodup_singleton _, ?_⟩
      rintro x hx y hy rfl
      rw [List.mem_singleton.mp hy, List.mem_filter] at hx
      exact absurd rfl (of_decide_eq_true hx.2)
    · intro s j
      rw [harrive, hfifo]
      unfold pushFifo
      split_ifs with hhere
      · obtain ⟨rfl, rfl⟩ := hhere
        rw [List.map_append]
        exact (hfresh s j).append (List.Sublist.refl _)
      · exact (hfresh s j).trans (List.sublist_append_left _ _)
  | keeps hans hfifo =>
    have harrive := (arrivals_append log (op, answer)).trans (arrive_of_ne hans)
    exact ⟨harrive ▸ h.nodup, fun s i => by rw [harrive, hfifo]; exact h.sub s i⟩
  | drops hans id hfifo =>
    have harrive := (arrivals_append log (op, answer)).trans (arrive_of_ne hans)
    refine ⟨harrive ▸ h.nodup, fun s i => ?_⟩
    rw [harrive, hfifo]
    exact (List.filter_sublist.map _).trans (h.sub s i)
  | reduces hans id by' hfifo =>
    have harrive := (arrivals_append log (op, answer)).trans (arrive_of_ne hans)
    refine ⟨harrive ▸ h.nodup, fun s i => ?_⟩
    have hids : (reduceId id by' (b.fifo s i)).map BookOrder.id =
        (b.fifo s i).map BookOrder.id := by
      unfold reduceId
      rw [List.map_map]
      apply List.map_congr_left
      intro o _
      rw [Function.comp_apply]
      split_ifs
      · rfl
      · rfl
    rw [harrive, hfifo, hids]
    exact h.sub s i
  | clears hans hfifo =>
    have harrive := (arrivals_append log (op, answer)).trans (arrive_of_ne hans)
    refine ⟨harrive ▸ h.nodup, fun s i => ?_⟩
    rw [hfifo]
    exact List.nil_sublist _

/-- **Best price first**, and oldest first within a price. -/
theorem Queued.pairwise_orders {log : List (BookOp × BookAnswer)} (h : Queued log b) (hwf : WF b)
    (s : Side) : (b.orders s).Pairwise fun o o' =>
      s.better o.price o'.price ∨
        o.price = o'.price ∧ [o.id, o'.id].Sublist (arrivals log) := by
  rw [orders_eq_fifo hwf, List.pairwise_flatMap]
  constructor
  · intro i _
    rw [List.pairwise_iff_forall_sublist]
    intro o o' hsub
    have ho := resting_of_mem hwf (hsub.mem List.mem_cons_self)
    have ho' := resting_of_mem hwf (hsub.mem (List.mem_cons_of_mem _ List.mem_cons_self))
    right
    constructor
    · exact ho.price_eq.trans ho'.price_eq.symm
    · exact (hsub.map BookOrder.id).trans (h.sub s i)
  · refine (pairwise_ladderOrder s b.levelsPerSide).imp fun hij o ho o' ho' => ?_
    left
    rw [(resting_of_mem hwf ho).price_eq, (resting_of_mem hwf ho').price_eq,
      better_priceOf_iff (accepted hwf)]
    exact hij

/-! ## The walk ends -/

/-- The walk of `orders` with other bounds on the rounds of its two loops. -/
def ordersWith (b : OrderBook) (s : Side) (levels nodes : ℕ) : List BookOrder :=
  (b.walkLevels s levels (b.ladder s).best).flatMap fun idx =>
    (b.walkNodes nodes (b.level s idx).head).map fun n => (b.node n).order

/-- More rounds than a side has levels and the pool has nodes are never used. -/
theorem ordersWith_eq (h : WF b) (s : Side) {levels nodes : ℕ} (hlevels : b.levelsPerSide < levels)
    (hnodes : b.nodes.length < nodes) : b.ordersWith s levels nodes = b.orders s := by
  unfold ordersWith orders
  rw [walkLevels_fifo h s hlevels, walkLevels_fifo h s (Nat.lt_succ_self _)]
  obtain ⟨q, free, h⟩ := h
  apply List.flatMap_congr
  intro i _
  have hq := h.queue s i
  have hchain := hq.seg.chain
  rw [← hq.head_eq] at hchain
  rw [h.walkNodes_queue,
    Inv.walkNodes_eq rfl hchain hq.nil_notMem ((h.length_queue_le s i).trans_lt hnodes)]

/-- **A snapshot** of any book reached, added order by order to any empty book of its configuration,
is taken whole and gives a book that shows the same: the same orders in the same sequence, the same
levels, best prices and fronts. It has every resting order once, each side best price first and
oldest first within a price, and the walk over the book ends. -/
theorem replay_reproduces {cfg : BookConfig} (hnew : OrderBook.new cfg = .ok b)
    (ops ops' : List BookOp) (hempty : (run OrderBook.call b ops').1.orderCount = 0)
    (account : BookOrder → ℕ × ℕ) :
    let source := (run OrderBook.call b ops).1
    let replica := replay account (run OrderBook.call b ops').1 source.forEachOrder
    ((∀ r ∈ replica.2, r = .ok) ∧
      replica.1.forEachOrder.map BookOrder.visible = source.forEachOrder.map BookOrder.visible ∧
      (∀ s k, replica.1.forEachLevel s k = source.forEachLevel s k) ∧
      (∀ s p, replica.1.levelAt s p = source.levelAt s p) ∧
      (∀ s, replica.1.empty s = source.empty s ∧ replica.1.bestPrice s = source.bestPrice s) ∧
      ∀ s, (replica.1.front s).map BookOrder.visible = (source.front s).map BookOrder.visible) ∧
    ((source.forEachOrder.map BookOrder.id).Nodup ∧
      (∀ o, o ∈ source.forEachOrder ↔ source.find o.id = some o) ∧
      (∀ s, (source.orders s).Pairwise fun o o' => s.better o.price o'.price ∨
        o.price = o'.price ∧
          [o.id, o'.id].Sublist (arrivals (ops.zip (run OrderBook.call b ops).2))) ∧
      ∀ s levels nodes, source.levelsPerSide < levels → source.nodes.length < nodes →
        source.ordersWith s levels nodes = source.orders s) := by
  intro source replica
  obtain ⟨hwf, hcfg⟩ := wf_run hnew ops
  obtain ⟨hwf', hcfg'⟩ := wf_run hnew ops'
  obtain ⟨hoks, halike⟩ := replay_alike hwf hwf' (hcfg'.trans hcfg.symm) hempty account
  have hqueued : Queued (ops.zip (run OrderBook.call b ops).2) source := by
    refine @run_levels b cfg hnew Queued (fun _ => True) ?_ ?_ ops fun _ _ => trivial
    · intro b hnil
      refine ⟨List.nodup_nil, fun s i => ?_⟩
      rw [hnil]
      exact List.nil_sublist _
    · intro log b op b' answer hwf h _ hmoves
      exact h.call hwf hmoves
  constructor
  · exact ⟨hoks, halike.forEachOrder, halike.forEachLevel, halike.levelAt,
      fun s => ⟨halike.empty s, halike.bestPrice s⟩, halike.front⟩
  · refine ⟨nodup_orders hwf, fun o => ?_, hqueued.pairwise_orders hwf, ?_⟩
    · rw [mem_forEachOrder, find_eq_some_iff hwf]
      exact exists_congr fun s => (and_iff_left rfl).symm
    · intro s levels nodes hlevels hnodes
      exact ordersWith_eq hwf s hlevels hnodes

/-- Two orders share a price and one is gone again: the snapshot is taken whole. -/
theorem replay_reproduces_three :
    ∃ b, OrderBook.new ⟨0, 2, 1, 4⟩ = .ok b ∧
      let source := (run OrderBook.call b [.add 7 .buy 1 5 0 0, .add 8 .buy 1 6 0 0,
        .add 9 .sell 2 1 0 0, .remove 7, .add 7 .buy 1 4 0 0]).1
      let replica := replay (fun _ => (0, 0)) b source.forEachOrder
      (∀ r ∈ replica.2, r = .ok) ∧
        replica.1.forEachOrder.map BookOrder.visible =
          source.forEachOrder.map BookOrder.visible := by
  have hacc : (⟨0, 2, 1, 4⟩ : BookConfig).Accepted := by
    refine ⟨by decide, by decide, by decide, by decide, by decide, by decide, by decide⟩
  obtain ⟨b, hb⟩ := new_isOk hacc
  obtain ⟨hwf, -, hnil⟩ := new_wf hb
  have hempty : (run OrderBook.call b []).1.orderCount = 0 := by
    rw [run_nil, (orderCount_eq hwf).1, List.length_eq_zero_iff, List.eq_nil_iff_forall_not_mem]
    intro o ho
    obtain ⟨s, i, ho⟩ := (mem_forEachOrder_iff_fifo hwf).mp ho
    rw [hnil] at ho
    exact List.not_mem_nil ho
  obtain ⟨⟨hoks, horders, -⟩, -⟩ := replay_reproduces hb [.add 7 .buy 1 5 0 0, .add 8 .buy 1 6 0 0,
    .add 9 .sell 2 1 0 0, .remove 7, .add 7 .buy 1 4 0 0] [] hempty fun _ => (0, 0)
  exact ⟨b, hb, hoks, horders⟩

end PulseForge.OrderBook
