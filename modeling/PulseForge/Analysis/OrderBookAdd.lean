import PulseForge.Analysis.OrderBookInvariant

/-!
# A successful `add` keeps the representation invariant

`Appended` says what every read gives after `add` took a node off the free list and put it
at the tail of a level; `Inv.appended` shows that such a book has the invariant again, with
that one queue longer and the free list shorter.
-/

set_option autoImplicit false

namespace PulseForge.OrderBook

open Foundation

variable {b b' : OrderBook} {q : Side → ℕ → List ℕ} {free : List ℕ} {s t : Side} {i j n m : ℕ}

/-! ## Shapes -/

/-- The two books have arrays of the same sizes and the same configuration. -/
structure SameShape (b b' : OrderBook) : Prop where
  cfg : b'.cfg = b.cfg
  levelsPerSide : b'.levelsPerSide = b.levelsPerSide
  nodes_len : b'.nodes.length = b.nodes.length
  levels_len : ∀ s, (b'.ladder s).levels.length = (b.ladder s).levels.length
  bits_len : ∀ s, (b'.ladder s).bits.length = (b.ladder s).bits.length

theorem SameShape.trans {b₁ b₂ b₃ : OrderBook} (h : SameShape b₁ b₂) (h' : SameShape b₂ b₃) :
    SameShape b₁ b₃ :=
  ⟨h'.cfg.trans h.cfg, h'.levelsPerSide.trans h.levelsPerSide, h'.nodes_len.trans h.nodes_len,
    fun s => (h'.levels_len s).trans (h.levels_len s),
    fun s => (h'.bits_len s).trans (h.bits_len s)⟩

/-- A write to a node keeps the sizes. -/
theorem sameShape_modifyNode (f : Node → Node) : SameShape b (b.modifyNode n f) :=
  ⟨by simp, by simp, by simp, by simp, by simp⟩

/-- A write to a level keeps the sizes. -/
theorem sameShape_modifyLevel (f : Level → Level) : SameShape b (b.modifyLevel s i f) :=
  ⟨by simp, by simp, by simp, by simp, by simp⟩

/-- A write that does not resize the bitmap keeps the sizes. -/
theorem sameShape_modifyBits {f : List (BitVec 64) → List (BitVec 64)}
    (hf : ∀ l, (f l).length = l.length) : SameShape b (b.modifyBits s f) := by
  refine ⟨by simp, by simp, by simp, by simp, fun t => ?_⟩
  rw [bits_modifyBits]
  split
  · next h => rw [hf, h]
  · rfl

/-- A new best index keeps the sizes. -/
theorem sameShape_setBest (best : ℤ) : SameShape b (b.setBest s best) :=
  ⟨by simp, by simp, by simp, by simp, by simp⟩

/-- Writes to the id index, the free head and the live count. -/
theorem sameShape_scalars (ids : FlatIdMap ℕ) (freeHead live : ℕ) :
    SameShape b { b with ids := ids, freeHead := freeHead, live := live } :=
  ⟨rfl, rfl, rfl, fun s => by cases s <;> rfl, fun s => by cases s <;> rfl⟩

@[simp] theorem length_bitmapSet (bits : List (BitVec 64)) (i : ℕ) :
    (bitmapSet bits i).length = bits.length := by simp [bitmapSet]

@[simp] theorem length_bitmapReset (bits : List (BitVec 64)) (i : ℕ) :
    (bitmapReset bits i).length = bits.length := by simp [bitmapReset]

/-- Sizes that are kept stay right. -/
theorem Sized.of_sameShape (h : Sized b) (hs : SameShape b b') : Sized b' where
  cfg := hs.cfg ▸ h.cfg
  levels_eq := by rw [hs.levelsPerSide, hs.cfg, h.levels_eq]
  nodes_len := by rw [hs.nodes_len, hs.cfg, h.nodes_len]
  levels_len s := by rw [hs.levels_len, hs.levelsPerSide, h.levels_len]
  bits_len s := by rw [hs.bits_len, hs.levelsPerSide, h.bits_len]

/-- A node whose order is kept stays in its place. -/
theorem Placed.of_sameShape (h : Placed b s i n) (hs : SameShape b b')
    (ho : (b'.node n).order = (b.node n).order) : Placed b' s i n where
  level_lt := hs.levelsPerSide ▸ h.level_lt
  node_lt := hs.cfg ▸ h.node_lt
  side_eq := ho ▸ h.side_eq
  price_eq := by rw [ho, h.price_eq, priceOf, priceOf, hs.cfg]
  qty_pos := ho ▸ h.qty_pos

/-- The total of a queue is that of its orders. -/
theorem queueQty_congr {xs : List ℕ} (h : ∀ n ∈ xs, (b'.node n).order = (b.node n).order) :
    b'.queueQty xs = b.queueQty xs := by
  unfold queueQty
  congr 1
  apply List.map_congr_left
  intro n hn
  rw [h n hn]

/-- The total of two queues. -/
@[simp] theorem queueQty_append (xs ys : List ℕ) :
    b.queueQty (xs ++ ys) = b.queueQty xs + b.queueQty ys := by
  simp [queueQty]

@[simp] theorem queueQty_cons (n : ℕ) (xs : List ℕ) :
    b.queueQty (n :: xs) = (b.node n).order.qty + b.queueQty xs := by
  simp [queueQty]

/-! ## `append` -/

section Append

variable (order : BookOrder)

/-- `append` keeps the sizes. -/
theorem sameShape_append : SameShape b (b.append s i n order) := by
  unfold append
  refine SameShape.trans ?_ (sameShape_modifyLevel _)
  split
  · exact (sameShape_modifyNode _).trans (sameShape_modifyNode _)
  · exact ((sameShape_modifyNode _).trans (sameShape_modifyLevel _)).trans
      (sameShape_modifyBits fun l => length_bitmapSet l i)

/-- The node that was appended, the old tail that now points at it, and the others. -/
theorem node_append (hn : n < b.nodes.length) (htail : (b.level s i).tail ≠ n)
    (hlt : (b.level s i).tail ≠ kNil → (b.level s i).tail < b.nodes.length) (m : ℕ) :
    (b.append s i n order).node m =
      if m = n then ⟨order, (b.level s i).tail, kNil⟩
      else if m = (b.level s i).tail ∧ m ≠ kNil then { b.node m with next := n }
      else b.node m := by
  unfold append
  rw [node_modifyLevel]
  split
  · next ht =>
    rw [node_modifyNode, node_modifyNode, length_nodes_modifyNode]
    grind
  · next ht =>
    rw [node_modifyBits, node_modifyLevel, node_modifyNode]
    grind

/-- `append` moves the tail of its level, and the head of an empty one. -/
theorem level_append (hi : i < (b.ladder s).levels.length) (t : Side) (j : ℕ) :
    (b.append s i n order).level t j =
      if t = s ∧ j = i then
        { head := if (b.level s i).tail = kNil then n else (b.level s i).head
          tail := n
          qty := (b.level s i).qty + order.qty
          count := (b.level s i).count + 1 }
      else b.level t j := by
  unfold append
  rw [level_modifyLevel]
  split
  · next ht =>
    simp only [level_modifyNode, ladder_modifyNode]
    grind
  · next ht =>
    simp only [level_modifyBits, length_levels_modifyBits, level_modifyLevel,
      length_levels_modifyLevel, level_modifyNode, ladder_modifyNode]
    grind

/-- `append` sets the bit of a level that was empty. -/
theorem testBit_append (hi : i / 64 < (b.ladder s).bits.length) (t : Side) (j : ℕ) :
    testBit ((b.append s i n order).ladder t).bits j =
      (testBit (b.ladder t).bits j ||
        (decide (t = s ∧ j = i) && decide ((b.level s i).tail = kNil))) := by
  unfold append
  rw [bits_modifyLevel]
  split
  · next ht => simp [ht]
  · next ht =>
    rw [bits_modifyBits]
    by_cases hts : t = s
    · subst hts
      rw [if_pos rfl, bits_modifyLevel, ladder_modifyNode, testBit_bitmapSet hi]
      grind
    · simp [hts]

/-- `append` leaves the best index to `add`. -/
theorem best_append (t : Side) :
    ((b.append s i n order).ladder t).best = (b.ladder t).best := by
  unfold append
  rw [best_modifyLevel]
  split <;> simp

/-- `append` does not touch the free list. -/
@[simp] theorem freeHead_append : (b.append s i n order).freeHead = b.freeHead := by
  unfold append
  dsimp only
  split <;> simp

/-- `append` does not count. -/
@[simp] theorem live_append : (b.append s i n order).live = b.live := by
  unfold append
  dsimp only
  split <;> simp

/-- `append` does not touch the map of the ids. -/
@[simp] theorem ids_append : (b.append s i n order).ids = b.ids := by
  unfold append
  dsimp only
  split <;> simp

end Append

/-! ## `add` -/

/-- The better of the old best and a level that is now occupied is the new best. -/
theorem improveBest_spec {P P' : ℕ → Prop} {best : ℤ} (h : IsBest s P best)
    (hP : ∀ j, P' j ↔ P j ∨ j = i) : IsBest s P' (improveBest s best i) := by
  unfold improveBest
  rcases h with ⟨rfl, hno⟩ | ⟨k, rfl, hk, hbest⟩
  · rw [if_pos (.inl (by omega))]
    refine .inr ⟨i, rfl, (hP i).mpr (.inr rfl), fun j hj => ?_⟩
    rcases (hP j).mp hj with hj | rfl
    · exact absurd hj (hno j)
    · exact Side.better_irrefl s _
  · by_cases hb : s.better i k
    · rw [if_pos (.inr hb)]
      refine .inr ⟨i, rfl, (hP i).mpr (.inr rfl), fun j hj hji => ?_⟩
      rcases (hP j).mp hj with hj | rfl
      · exact hbest j hj (Side.better_trans hji hb)
      · exact Side.better_irrefl s _ hji
    · rw [if_neg (not_or.mpr ⟨by omega, hb⟩)]
      refine .inr ⟨k, rfl, (hP k).mpr (.inl hk), fun j hj hjk => ?_⟩
      rcases (hP j).mp hj with hj | rfl
      · exact hbest j hj hjk
      · exact hb hjk

namespace Inv

/-- The tail of a level that has one is in its queue. -/
theorem tail_mem (h : Inv b q free) (ht : (b.level s i).tail ≠ kNil) :
    (b.level s i).tail ∈ q s i := by
  have hq := h.queue s i
  rcases List.eq_nil_or_concat (q s i) with hnil | ⟨ys, a, ha⟩
  · exact absurd (hq.tail_eq_nil_iff.mpr hnil) ht
  · rw [hq.tail_eq, ha, List.concat_eq_append]
    simp

/-- A queued node is in the pool. -/
theorem nodes_lt (h : Inv b q free) (hn : n ∈ q s i) : n < b.nodes.length := by
  rw [h.nodes_len]
  exact (h.placed s i n hn).node_lt

/-- The ladder has an entry for every level. -/
theorem levels_lt (h : Inv b q free) (hi : i < b.levelsPerSide) :
    i < (b.ladder s).levels.length := by
  rw [h.levels_len]
  exact hi

/-- The bitmap has a word for every level. -/
theorem bits_lt (h : Inv b q free) (hi : i < b.levelsPerSide) :
    i / 64 < (b.ladder s).bits.length := by
  rw [h.bits_len]
  omega

end Inv

/-- The length of both sides together, with one queue replaced. -/
theorem length_flatNodes_setQueue {k : ℕ} (hi : i < k) (q : Side → ℕ → List ℕ) (s : Side)
    (xs : List ℕ) :
    (flatNodes (setQueue q s i xs) .buy k).length + (flatNodes (setQueue q s i xs) .sell k).length +
        (q s i).length =
      (flatNodes q .buy k).length + (flatNodes q .sell k).length + xs.length := by
  obtain ⟨A, B, hset, hold, -, -⟩ := flatNodes_split (s := s) hi q
  have hlen := congrArg List.length (hset xs)
  have hlen' := congrArg List.length hold
  simp only [List.length_append] at hlen hlen'
  cases s
  · rw [flatNodes_setQueue_other q _ (show Side.sell ≠ Side.buy by decide)]
    omega
  · rw [flatNodes_setQueue_other q _ (show Side.buy ≠ Side.sell by decide)]
    omega

/-! ## A queue that a node joins -/

/-- The new node is in its own queue only. -/
theorem mem_setQueue_append : m ∈ setQueue q s i (q s i ++ [n]) t j ↔
    m ∈ q t j ∨ (m = n ∧ t = s ∧ j = i) := by
  by_cases hts : t = s ∧ j = i
  · obtain ⟨rfl, rfl⟩ := hts
    simp
  · rw [setQueue_of_ne q _ hts]
    simp [hts]

theorem setQueue_append_ne_nil : setQueue q s i (q s i ++ [n]) t j ≠ [] ↔
    q t j ≠ [] ∨ (t = s ∧ j = i) := by
  by_cases hts : t = s ∧ j = i
  · obtain ⟨rfl, rfl⟩ := hts
    simp
  · rw [setQueue_of_ne q _ hts]
    simp [hts]

/-- What a successful `add` leaves: node `n`, the head of the free list, holds the order at
the tail of level `i`, and `ids` is the new index. -/
structure Appended (b b' : OrderBook) (s : Side) (i n : ℕ) (order : BookOrder) : Prop where
  shape : SameShape b b'
  node : ∀ m, b'.node m =
    if m = n then ⟨order, (b.level s i).tail, kNil⟩
    else if m = (b.level s i).tail ∧ m ≠ kNil then { b.node m with next := n }
    else b.node m
  level : ∀ t j, b'.level t j =
    if t = s ∧ j = i then
      { head := if (b.level s i).tail = kNil then n else (b.level s i).head
        tail := n
        qty := (b.level s i).qty + order.qty
        count := (b.level s i).count + 1 }
    else b.level t j
  bits : ∀ t j, testBit (b'.ladder t).bits j =
    (testBit (b.ladder t).bits j ||
      (decide (t = s ∧ j = i) && decide ((b.level s i).tail = kNil)))
  best : ∀ t, (b'.ladder t).best =
    if t = s then improveBest s (b.ladder s).best i else (b.ladder t).best
  freeHead : b'.freeHead = b.nextOf n
  live : b'.live = b.live + 1

namespace Appended

variable {order : BookOrder}

/-- The other nodes keep their orders. -/
theorem order_of_ne (h : Appended b b' s i n order) (hm : m ≠ n) :
    (b'.node m).order = (b.node m).order := by
  rw [h.node, if_neg hm]
  split <;> rfl

/-- The other nodes keep their predecessors. -/
theorem prevOf_of_ne (h : Appended b b' s i n order) (hm : m ≠ n) :
    b'.prevOf m = b.prevOf m := by
  rw [prevOf, h.node, if_neg hm]
  split <;> rfl

/-- The other nodes keep their successors, except the old tail. -/
theorem nextOf_of_ne (h : Appended b b' s i n order) (hm : m ≠ n)
    (htail : m ≠ (b.level s i).tail) : b'.nextOf m = b.nextOf m := by
  rw [nextOf, h.node, if_neg hm, if_neg (fun hc => htail hc.1)]
  rfl

/-- The new node is behind the old tail. -/
theorem node_self (h : Appended b b' s i n order) :
    b'.node n = ⟨order, (b.level s i).tail, kNil⟩ := by
  rw [h.node, if_pos rfl]

/-- The old tail points to the new node. -/
theorem nextOf_tail (h : Appended b b' s i n order) (hne : (b.level s i).tail ≠ n)
    (ht : (b.level s i).tail ≠ kNil) : b'.nextOf (b.level s i).tail = n := by
  rw [nextOf, h.node, if_neg hne, if_pos ⟨rfl, ht⟩]

end Appended

namespace Inv

/-! ## The node that joins was free -/

/-- A free node is not nil. -/
theorem head_ne_kNil (h : Inv b q (n :: free)) : n ≠ kNil :=
  fun hc => h.kNil_notMem_free (by simp [hc])

/-- A free node is in no queue. -/
theorem head_notMem (h : Inv b q (n :: free)) (t : Side) (j : ℕ) : n ∉ q t j :=
  fun hm => h.free_disj t j n hm List.mem_cons_self

/-- A queued node is not the first free one. -/
theorem ne_head (h : Inv b q (n :: free)) (hm : m ∈ q t j) : m ≠ n :=
  fun hc => h.head_notMem t j (hc ▸ hm)

/-- The tail of a level is not the first free node. -/
theorem tail_ne_head (h : Inv b q (n :: free)) : (b.level s i).tail ≠ n := by
  intro hc
  exact h.head_notMem s i (hc ▸ h.tail_mem (hc ▸ h.head_ne_kNil))

/-- A node of another level is not the tail of this one. -/
theorem ne_tail (h : Inv b q free) (hm : m ∈ q t j) (hts : ¬ (t = s ∧ j = i)) :
    m ≠ (b.level s i).tail := by
  rintro rfl
  exact hts (h.unique (h.tail_mem (h.ne_kNil hm)) hm)

/-! ## Field by field -/

section Appended

variable {order : BookOrder} (h : Inv b q (n :: free)) (ha : Appended b b' s i n order)

include h ha

/-- The links of every level follow its queue. -/
theorem appended_queue (t : Side) (j : ℕ) :
    Queue b'.prevOf b'.nextOf kNil (b'.level t j).head (b'.level t j).tail
      (setQueue q s i (q s i ++ [n]) t j) := by
  rw [ha.level]
  by_cases hts : t = s ∧ j = i
  · obtain ⟨rfl, rfl⟩ := hts
    rw [if_pos ⟨rfl, rfl⟩, setQueue_self]
    refine (h.queue t j).pushBack (h.head_notMem t j) h.head_ne_kNil
      (fun a hm => ha.prevOf_of_ne (h.ne_head hm)) ?_
      (fun a hm htl => ha.nextOf_of_ne (h.ne_head hm) htl) ?_ ?_
    · rw [prevOf, ha.node_self]
    · rw [nextOf, ha.node_self]
    · intro hq
      exact ha.nextOf_tail h.tail_ne_head fun hc => hq ((h.queue t j).tail_eq_nil_iff.mp hc)
  · rw [if_neg hts, setQueue_of_ne q _ hts]
    exact (h.queue t j).congr (fun a hm => ha.prevOf_of_ne (h.ne_head hm))
      (fun a hm => ha.nextOf_of_ne (h.ne_head hm) (h.ne_tail hm hts))

/-- Every queued node is at the level of its price. -/
theorem appended_placed (hi : i < b.levelsPerSide) (hside : order.side = s)
    (hprice : order.price = b.priceOf i) (hqty : 0 < order.qty) (t : Side) (j : ℕ) :
    ∀ m ∈ setQueue q s i (q s i ++ [n]) t j, Placed b' t j m := by
  intro m hm
  rcases mem_setQueue_append.mp hm with hm | ⟨rfl, rfl, rfl⟩
  · exact (h.placed t j m hm).of_sameShape ha.shape (ha.order_of_ne (h.ne_head hm))
  · have hshape := ha.shape
    refine ⟨hshape.levelsPerSide ▸ hi, hshape.cfg ▸ h.free_lt m List.mem_cons_self, ?_, ?_, ?_⟩ <;>
      rw [ha.node_self]
    · exact hside
    · rw [hprice, priceOf, priceOf, hshape.cfg]
    · exact hqty

/-- The totals of every level. -/
theorem appended_totals (t : Side) (j : ℕ) :
    (b'.level t j).count = (setQueue q s i (q s i ++ [n]) t j).length ∧
      (b'.level t j).qty = b'.queueQty (setQueue q s i (q s i ++ [n]) t j) := by
  have hold : b'.queueQty (q t j) = b.queueQty (q t j) :=
    queueQty_congr fun m hm => ha.order_of_ne (h.ne_head hm)
  rw [ha.level]
  by_cases hts : t = s ∧ j = i
  · obtain ⟨rfl, rfl⟩ := hts
    rw [if_pos ⟨rfl, rfl⟩, setQueue_self]
    constructor
    · rw [List.length_append, h.count_eq]
      rfl
    · rw [queueQty_append, hold, queueQty_cons, ha.node_self, ← h.qty_eq]
      simp [queueQty]
  · rw [if_neg hts, setQueue_of_ne q _ hts, hold, h.count_eq, h.qty_eq]
    exact ⟨rfl, rfl⟩

/-- The bits say which levels have orders. -/
theorem appended_bits (t : Side) (j : ℕ) :
    testBit (b'.ladder t).bits j = true ↔ setQueue q s i (q s i ++ [n]) t j ≠ [] := by
  rw [ha.bits, setQueue_append_ne_nil, Bool.or_eq_true, h.bit_iff]
  refine or_congr_right' fun hq => ?_
  rw [Bool.and_eq_true, decide_eq_true_eq, decide_eq_true_eq, and_iff_left_iff_imp]
  rintro ⟨rfl, rfl⟩
  exact (h.queue t j).tail_eq_nil_iff.mpr (not_not.mp hq)

/-- The best index is the best level with orders. -/
theorem appended_best (t : Side) :
    IsBest t (fun j => setQueue q s i (q s i ++ [n]) t j ≠ []) (b'.ladder t).best := by
  rw [ha.best]
  by_cases hts : t = s
  · subst hts
    rw [if_pos rfl]
    refine improveBest_spec (h.best t) fun j => ?_
    rw [setQueue_append_ne_nil, eq_self, true_and]
  · rw [if_neg hts]
    refine (h.best t).congr fun j => ?_
    rw [setQueue_of_ne q _ (fun hc => hts hc.1)]

/-- The free list, without its head. -/
theorem appended_chain : Chain b'.nextOf kNil b'.freeHead free := by
  have hnd := h.free_nodup
  rw [List.nodup_cons] at hnd
  rw [ha.freeHead]
  obtain ⟨-, hrest⟩ := h.chain
  refine hrest.congr fun a hm => ha.nextOf_of_ne ?_ ?_
  · rintro rfl
    exact hnd.1 hm
  · rintro rfl
    by_cases hk : (b.level s i).tail = kNil
    · exact h.kNil_notMem_free (by simp [← hk, hm])
    · exact h.free_disj s i _ (h.tail_mem hk) (List.mem_cons_of_mem _ hm)

/-- The id index: the new order, and the others. -/
theorem appended_ids
    (hfind : ∀ k v, b'.ids.find k = some v ↔
      (k = order.id ∧ v = n) ∨ (k ≠ order.id ∧ b.ids.find k = some v))
    (hfresh : b.ids.find order.id = none) (k v : ℕ) :
    b'.ids.find k = some v ↔
      ∃ t j, v ∈ setQueue q s i (q s i ++ [n]) t j ∧ (b'.node v).order.id = k := by
  rw [hfind, h.ids_iff]
  constructor
  · rintro (⟨rfl, rfl⟩ | ⟨hk, t, j, hv, rfl⟩)
    · exact ⟨s, i, by simp, by rw [ha.node_self]⟩
    · exact ⟨t, j, mem_setQueue_append.mpr (.inl hv), by rw [ha.order_of_ne (h.ne_head hv)]⟩
  · rintro ⟨t, j, hv, rfl⟩
    rcases mem_setQueue_append.mp hv with hv | ⟨rfl, -, -⟩
    · rw [ha.order_of_ne (h.ne_head hv)]
      refine .inr ⟨fun hc => ?_, t, j, hv, rfl⟩
      have hold := (h.ids_iff _ v).mpr ⟨t, j, hv, rfl⟩
      rw [hc, hfresh] at hold
      exact absurd hold (by simp)
    · exact .inl ⟨by rw [ha.node_self], rfl⟩

/-- **A successful `add`.** The free node `n` joins the tail of level `i`. -/
theorem appended (hi : i < b.levelsPerSide) (hside : order.side = s)
    (hprice : order.price = b.priceOf i) (hqty : 0 < order.qty) (hwf : b'.ids.WF)
    (hmax : b'.ids.maxEntries = b.ids.maxEntries) (hsize : b'.ids.size = b.ids.size + 1)
    (hfind : ∀ k v, b'.ids.find k = some v ↔
      (k = order.id ∧ v = n) ∨ (k ≠ order.id ∧ b.ids.find k = some v))
    (hfresh : b.ids.find order.id = none) :
    Inv b' (setQueue q s i (q s i ++ [n])) free := by
  have hnd := h.free_nodup
  rw [List.nodup_cons] at hnd
  exact
    { h.toSized.of_sameShape ha.shape with
      queue := h.appended_queue ha
      placed := h.appended_placed ha hi hside hprice hqty
      count_eq t j := (h.appended_totals ha t j).1
      qty_eq t j := (h.appended_totals ha t j).2
      bit_iff := h.appended_bits ha
      best := h.appended_best ha
      chain := h.appended_chain ha
      free_nodup := hnd.2
      free_lt := by
        intro m hm
        rw [ha.shape.cfg]
        exact h.free_lt m (List.mem_cons_of_mem _ hm)
      free_disj := by
        intro t j m hm hmf
        rcases mem_setQueue_append.mp hm with hm | ⟨rfl, -, -⟩
        · exact h.free_disj t j m hm (List.mem_cons_of_mem _ hmf)
        · exact hnd.1 hmf
      ids_wf := hwf
      ids_max := by rw [hmax, h.ids_max, ha.shape.cfg]
      ids_iff := h.appended_ids ha hfind hfresh
      ids_size := by rw [hsize, h.ids_size, ha.live]
      room := by
        have hroom := h.room
        rw [ha.live, ha.shape.cfg]
        simp only [List.length_cons] at hroom
        omega
      live_eq := by
        have hlen := length_flatNodes_setQueue hi q s (q s i ++ [n])
        have hlive := h.live_eq
        rw [ha.live, ha.shape.levelsPerSide]
        simp only [List.length_append, List.length_cons, List.length_nil] at hlen
        omega }

end Appended

/-- The stages of a successful `add`, put together. -/
theorem appended_add (h : Inv b q (n :: free)) (hi : i < b.levelsPerSide) (order : BookOrder)
    (ids : FlatIdMap ℕ) {b₁ b₂ b₃ : OrderBook}
    (hb₁ : b₁ = { b with ids := ids, freeHead := b.nextOf n })
    (hb₂ : b₂ = b₁.append s i n order)
    (hb₃ : b₃ = b₂.setBest s (improveBest s (b₂.ladder s).best i)) :
    Appended b { b₃ with live := b₃.live + 1 } s i n order := by
  have hlad : ∀ t, b₁.ladder t = b.ladder t := fun t => by subst hb₁; cases t <;> rfl
  have hlev : ∀ t j, b₁.level t j = b.level t j := fun t j => by rw [level, level, hlad]
  have hnode : ∀ m, b₁.node m = b.node m := fun m => by subst hb₁; rfl
  have hnodes : b₁.nodes = b.nodes := by subst hb₁; rfl
  have hnb : n < b₁.nodes.length := by
    rw [hnodes, h.nodes_len]
    exact h.free_lt n (by simp)
  have htail : (b₁.level s i).tail ≠ kNil → (b₁.level s i).tail ∈ q s i := by
    rw [hlev]
    exact h.tail_mem
  have htn : (b₁.level s i).tail ≠ n := by
    rw [hlev]
    exact h.tail_ne_head
  have hshape : SameShape b b₁ := by
    subst hb₁
    exact sameShape_scalars _ _ _
  have hladder : ∀ (c : OrderBook) (l : ℕ) t, ({ c with live := l } : OrderBook).ladder t =
    c.ladder t := fun c l t => by cases t <;> rfl
  have hlevel : ∀ (c : OrderBook) (l : ℕ) t j, ({ c with live := l } : OrderBook).level t j =
    c.level t j := fun c l t j => by rw [level, level, hladder]
  have hnode' : ∀ (c : OrderBook) (l m : ℕ), ({ c with live := l } : OrderBook).node m =
    c.node m := fun _ _ _ => rfl
  refine ⟨?_, fun m => ?_, fun t j => ?_, fun t j => ?_, fun t => ?_, ?_, ?_⟩
  · refine (hshape.trans ?_).trans (sameShape_scalars _ _ _)
    subst hb₃ hb₂
    exact (sameShape_append order).trans (sameShape_setBest _)
  · rw [hnode', hb₃, node_setBest, hb₂,
      node_append order hnb htn (fun hk => hnodes ▸ h.nodes_lt (htail hk)), hlev, hnode]
  · rw [hlevel, hb₃, level_setBest, hb₂, level_append order (by rw [hlad]; exact h.levels_lt hi), hlev,
      hlev]
  · rw [hladder, hb₃, bits_setBest, hb₂, testBit_append order (by rw [hlad]; exact h.bits_lt hi), hlev,
      hlad]
  · rw [hladder, hb₃, best_setBest, hb₂, best_append, best_append, hlad, hlad]
  · show b₃.freeHead = _
    rw [hb₃, freeHead_setBest, hb₂, freeHead_append, hb₁]
  · show b₃.live + 1 = _
    rw [hb₃, live_setBest, hb₂, live_append, hb₁]

/-- **`add` accepts** a valid, new order while a node is free. -/
theorem add_ok (h : Inv b q (n :: free)) (s : Side) (owner userRef : ℕ) {id qty : ℕ} {price : ℤ}
    (hvalid : b.validPrice price = true) (hqty : qty ≠ 0) (hid : id ≠ FlatIdMap.kEmpty)
    (hfresh : b.ids.find id = none) :
    ∃ i < b.levelsPerSide, price = b.priceOf i ∧
      (b.add id s price qty owner userRef).2 = .ok ∧
      Inv (b.add id s price qty owner userRef).1 (setQueue q s i (q s i ++ [n])) free ∧
      Appended b (b.add id s price qty owner userRef).1 s i n
        ⟨id, price, qty, owner, userRef, s⟩ := by
  obtain ⟨i, hi, hprice⟩ := (validPrice_iff h.cfg).mp hvalid
  rw [← h.levels_eq] at hi
  have hidx : b.indexOf price = i := by rw [hprice, indexOf_priceOf h.cfg]
  have hroom : b.ids.size < b.ids.maxEntries := by
    have := h.room
    rw [h.ids_size, h.ids_max]
    simp only [List.length_cons] at this
    omega
  have hhead : b.freeHead = n := h.chain.1
  have hnil : b.freeHead ≠ kNil := fun hc => by simpa using h.freeHead_eq_iff.mp hc
  obtain ⟨ids, hins, hwf, hmax, hsize, hfind⟩ := FlatIdMap.insert_of_new h.ids_wf n hid hroom hfresh
  have ha := h.appended_add (s := s) hi ⟨id, price, qty, owner, userRef, s⟩ ids rfl rfl rfl
  have hadd : b.add id s price qty owner userRef =
      (let b₁ := { b with ids := ids, freeHead := b.nextOf n }
       let b₂ := b₁.append s i n ⟨id, price, qty, owner, userRef, s⟩
       let b₃ := b₂.setBest s (improveBest s (b₂.ladder s).best i)
       ({ b₃ with live := b₃.live + 1 }, .ok)) := by
    rw [add, if_neg (by simp [hvalid]), if_neg hqty, if_neg hnil]
    simp only [hhead, hins, hidx, Int.toNat_natCast]
    rfl
  rw [hadd]
  refine ⟨i, hi, hprice, rfl, ?_, ha⟩
  refine h.appended ha hi rfl hprice (Nat.pos_of_ne_zero hqty) ?_ ?_ ?_ ?_ hfresh
  all_goals simp only [ids_setBest, ids_append]
  · exact hwf
  · exact hmax
  · exact hsize
  · intro k v
    rw [hfind]
    by_cases hk : k = id
    · simp [hk, eq_comm]
    · simp [hk]

end Inv

end PulseForge.OrderBook
