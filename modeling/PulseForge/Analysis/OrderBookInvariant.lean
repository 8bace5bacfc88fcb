import PulseForge.Analysis.OrderBookWrites
import PulseForge.Interface.RefBook

/-!
# The representation invariant of the book

`Inv b q free` ties the six structures of the book to one description: `q s i` is the FIFO
of pool indices at level `i` of side `s`, and `free` is the free list. The links of every
level are the queue `q s i`, its record holds the totals of that queue, the bitmap marks
the non-empty ones, `best` is the best of those, the id index finds exactly the queued
nodes, and the free list accounts for all the others.

`orders_eq` is what the invariant is for: what `for_each_order` visits on a side is the
queues of that side, best level first.
-/

set_option autoImplicit false

namespace PulseForge

open Foundation

/-! ## Better prices -/

/-- No index is better than itself. -/
theorem Side.better_irrefl (s : Side) (i : ℤ) : ¬ s.better i i := by
  cases s <;> simp [Side.better]

/-- Of two indices at most one is better. -/
theorem Side.better_asymm {s : Side} {i j : ℤ} (h : s.better i j) : ¬ s.better j i := by
  cases s <;> simp only [Side.better] at * <;> omega

/-- Better than a better index is better. -/
theorem Side.better_trans {s : Side} {i j k : ℤ} (h : s.better i j) (h' : s.better j k) :
    s.better i k := by
  cases s <;> simp only [Side.better] at * <;> omega

/-- Of two different indices one is better. -/
theorem Side.better_trichotomy (s : Side) (i j : ℤ) : s.better i j ∨ i = j ∨ s.better j i := by
  cases s <;> simp only [Side.better] <;> omega

/-! ## The price grid -/

namespace OrderBook

variable {b : OrderBook}

/-- The index of the price of an index is that index. -/
theorem indexOf_priceOf (hc : b.cfg.Accepted) (i : ℤ) : b.indexOf (b.priceOf i) = i := by
  have := hc.tick
  rw [indexOf, priceOf, show b.cfg.minPrice + i * b.cfg.tickSize - b.cfg.minPrice =
    i * b.cfg.tickSize by ring, Int.mul_ediv_cancel _ (by omega)]

/-- Levels have different prices. -/
theorem priceOf_inj (hc : b.cfg.Accepted) {i j : ℤ} (h : b.priceOf i = b.priceOf j) : i = j := by
  rw [← indexOf_priceOf hc i, h, indexOf_priceOf hc]

/-- Level order is price order. -/
theorem better_priceOf_iff (hc : b.cfg.Accepted) (s : Side) (i j : ℤ) :
    s.better (b.priceOf i) (b.priceOf j) ↔ s.better i j := by
  have ht := hc.tick
  have hmono : ∀ x y : ℤ, b.priceOf x < b.priceOf y ↔ x < y := by
    intro x y
    unfold priceOf
    rw [add_lt_add_iff_left]
    exact mul_lt_mul_iff_of_pos_right ht
  cases s
  · exact hmono j i
  · exact hmono i j

/-- The valid prices are those of the levels. -/
theorem validPrice_iff (hc : b.cfg.Accepted) {p : ℤ} :
    b.validPrice p = true ↔ ∃ i < b.cfg.levels, p = b.priceOf i := by
  have ht := hc.tick
  have hb := hc.band
  have hg := hc.grid
  set d := (b.cfg.maxPrice - b.cfg.minPrice) / b.cfg.tickSize with hd
  have hmax : b.cfg.maxPrice = b.cfg.minPrice + d * b.cfg.tickSize := by
    have h1 := Int.mul_ediv_add_emod (b.cfg.maxPrice - b.cfg.minPrice) b.cfg.tickSize
    have h2 := mul_comm b.cfg.tickSize d
    rw [← hd] at h1
    omega
  have hd0 : 0 ≤ d := Int.ediv_nonneg (by omega) (by omega)
  have hlv : (b.cfg.levels : ℤ) = d + 1 := by
    rw [BookConfig.levels, ← hd]
    omega
  simp only [validPrice, Bool.and_eq_true, decide_eq_true_eq, beq_iff_eq]
  constructor
  · rintro ⟨⟨hlo, hhi⟩, hmod⟩
    have h1 := Int.mul_ediv_add_emod (p - b.cfg.minPrice) b.cfg.tickSize
    set e := (p - b.cfg.minPrice) / b.cfg.tickSize with he
    have he0 : 0 ≤ e := Int.ediv_nonneg (by omega) (by omega)
    have hcomm := mul_comm b.cfg.tickSize e
    have hp : p = b.cfg.minPrice + e * b.cfg.tickSize := by omega
    have hle : e ≤ d := by
      apply le_of_mul_le_mul_right _ ht
      omega
    refine ⟨e.toNat, by omega, ?_⟩
    rw [priceOf, Int.toNat_of_nonneg he0]
    exact hp
  · rintro ⟨i, hi, rfl⟩
    unfold priceOf
    have hle : (i : ℤ) * b.cfg.tickSize ≤ d * b.cfg.tickSize :=
      mul_le_mul_of_nonneg_right (by omega) (by omega)
    have hpos : 0 ≤ (i : ℤ) * b.cfg.tickSize := mul_nonneg (by omega) (by omega)
    refine ⟨⟨by omega, by omega⟩, ?_⟩
    rw [show b.cfg.minPrice + (i : ℤ) * b.cfg.tickSize - b.cfg.minPrice =
      (i : ℤ) * b.cfg.tickSize by ring, Int.mul_emod_left]

/-! ## The queues of a side -/

/-- Replace the queue of one level. -/
def setQueue (q : Side → ℕ → List ℕ) (s : Side) (i : ℕ) (xs : List ℕ) : Side → ℕ → List ℕ :=
  fun t j => if t = s ∧ j = i then xs else q t j

/-- The queue that was written. -/
@[simp] theorem setQueue_self (q : Side → ℕ → List ℕ) (s : Side) (i : ℕ) (xs : List ℕ) :
    setQueue q s i xs s i = xs := by simp [setQueue]

/-- The other queues. -/
theorem setQueue_of_ne (q : Side → ℕ → List ℕ) {s t : Side} {i j : ℕ} (xs : List ℕ)
    (h : ¬ (t = s ∧ j = i)) : setQueue q s i xs t j = q t j := by
  simp only [setQueue, if_neg h]

/-- The levels of a side, best first. -/
def ladderOrder (s : Side) (n : ℕ) : List ℕ :=
  match s with
  | .buy => (List.range n).reverse
  | .sell => List.range n

/-- The order of the walk has every level of the ladder. -/
theorem mem_ladderOrder {s : Side} {n i : ℕ} : i ∈ ladderOrder s n ↔ i < n := by
  cases s <;> simp [ladderOrder]

@[simp] theorem length_ladderOrder (s : Side) (n : ℕ) : (ladderOrder s n).length = n := by
  cases s <;> simp [ladderOrder]

/-- The walk goes from better prices to worse ones. -/
theorem pairwise_ladderOrder (s : Side) (n : ℕ) :
    (ladderOrder s n).Pairwise fun (i j : ℕ) => s.better i j := by
  cases s
  · rw [ladderOrder, List.pairwise_reverse]
    exact List.pairwise_lt_range.imp fun h => by simpa [Side.better] using h
  · exact List.pairwise_lt_range.imp fun h => by simpa [Side.better] using h

/-- The pool indices of a side, best level first. -/
def flatNodes (q : Side → ℕ → List ℕ) (s : Side) (n : ℕ) : List ℕ :=
  (ladderOrder s n).flatMap (q s)

/-- One level splits a side into the better levels, itself and the worse levels. -/
theorem ladderOrder_split {s : Side} {n i : ℕ} (hi : i < n) :
    ∃ A B, ladderOrder s n = A ++ i :: B ∧ (∀ j ∈ A, s.better j i) ∧ ∀ j ∈ B, s.better i j := by
  obtain ⟨A, B, hsplit⟩ := List.append_of_mem (mem_ladderOrder.mpr hi : i ∈ ladderOrder s n)
  have hpair := pairwise_ladderOrder s n
  rw [hsplit, List.pairwise_append, List.pairwise_cons] at hpair
  exact ⟨A, B, hsplit, fun j hj => hpair.2.2 j hj i (by simp), hpair.2.1.1⟩

/-- A side with one queue replaced: the better levels, the new queue, the worse levels. -/
theorem flatNodes_split {s : Side} {n i : ℕ} (hi : i < n) (q : Side → ℕ → List ℕ) :
    ∃ A B : List ℕ, (∀ xs, flatNodes (setQueue q s i xs) s n = A ++ xs ++ B) ∧
      flatNodes q s n = A ++ q s i ++ B ∧
      (∀ m ∈ A, ∃ j < n, m ∈ q s j ∧ s.better j i) ∧
      ∀ m ∈ B, ∃ j < n, m ∈ q s j ∧ s.better i j := by
  obtain ⟨A, B, hsplit, hA, hB⟩ := ladderOrder_split (s := s) hi
  have hlt : ∀ j, j ∈ A ∨ j ∈ B → j < n := fun j hj => by
    rw [← mem_ladderOrder (s := s), hsplit]
    rcases hj with hj | hj <;> simp [hj]
  have hne : ∀ j, j ∈ A ∨ j ∈ B → j ≠ i := by
    rintro j (hj | hj) rfl
    · exact Side.better_irrefl s j (hA j hj)
    · exact Side.better_irrefl s j (hB j hj)
  refine ⟨A.flatMap (q s), B.flatMap (q s), fun xs => ?_, ?_, ?_, ?_⟩
  · have hcongr : ∀ L : List ℕ, (∀ j ∈ L, j ≠ i) →
        L.flatMap (setQueue q s i xs s) = L.flatMap (q s) := by
      intro L hL
      apply List.flatMap_congr
      intro j hj
      exact setQueue_of_ne q xs (fun h => hL j hj h.2)
    rw [flatNodes, hsplit, List.flatMap_append, List.flatMap_cons, setQueue_self,
      hcongr A (fun j hj => hne j (.inl hj)), hcongr B (fun j hj => hne j (.inr hj)),
      List.append_assoc]
  · rw [flatNodes, hsplit, List.flatMap_append, List.flatMap_cons, List.append_assoc]
  · intro m hm
    obtain ⟨j, hj, hmj⟩ := List.mem_flatMap.mp hm
    exact ⟨j, hlt j (.inl hj), hmj, hA j hj⟩
  · intro m hm
    obtain ⟨j, hj, hmj⟩ := List.mem_flatMap.mp hm
    exact ⟨j, hlt j (.inr hj), hmj, hB j hj⟩

/-- A queue of one side is none of the other's. -/
theorem flatNodes_setQueue_other {s t : Side} {n i : ℕ} (q : Side → ℕ → List ℕ) (xs : List ℕ)
    (h : t ≠ s) : flatNodes (setQueue q s i xs) t n = flatNodes q t n := by
  apply List.flatMap_congr
  intro j _
  exact setQueue_of_ne q xs (fun hc => h hc.1)

/-! ## The invariant -/

/-- The links of the pool. -/
def prevOf (b : OrderBook) (n : ℕ) : ℕ := (b.node n).prev

/-- The links of the pool. -/
def nextOf (b : OrderBook) (n : ℕ) : ℕ := (b.node n).next

/-- The total open shares of a queue. -/
def queueQty (b : OrderBook) (xs : List ℕ) : ℕ := (xs.map fun n => (b.node n).order.qty).sum

/-- Node `n` rests at level `i` of side `s`. -/
structure Placed (b : OrderBook) (s : Side) (i n : ℕ) : Prop where
  level_lt : i < b.levelsPerSide
  node_lt : n < b.cfg.maxOrders
  side_eq : (b.node n).order.side = s
  price_eq : (b.node n).order.price = b.priceOf i
  qty_pos : 0 < (b.node n).order.qty

/-- The sizes that no operation changes. -/
structure Sized (b : OrderBook) : Prop where
  cfg : b.cfg.Accepted
  levels_eq : b.levelsPerSide = b.cfg.levels
  nodes_len : b.nodes.length = b.cfg.maxOrders
  levels_len : ∀ s, (b.ladder s).levels.length = b.levelsPerSide
  bits_len : ∀ s, (b.ladder s).bits.length = (b.levelsPerSide + 63) / 64

/-- **The representation invariant.** -/
structure Inv (b : OrderBook) (q : Side → ℕ → List ℕ) (free : List ℕ) : Prop extends Sized b where
  queue : ∀ s i, Queue b.prevOf b.nextOf kNil (b.level s i).head (b.level s i).tail (q s i)
  placed : ∀ s i, ∀ n ∈ q s i, Placed b s i n
  count_eq : ∀ s i, (b.level s i).count = (q s i).length
  qty_eq : ∀ s i, (b.level s i).qty = b.queueQty (q s i)
  bit_iff : ∀ s i, testBit (b.ladder s).bits i = true ↔ q s i ≠ []
  best : ∀ s, IsBest s (fun i => q s i ≠ []) (b.ladder s).best
  chain : Chain b.nextOf kNil b.freeHead free
  free_nodup : free.Nodup
  free_lt : ∀ n ∈ free, n < b.cfg.maxOrders
  free_disj : ∀ s i, ∀ n ∈ q s i, n ∉ free
  ids_wf : b.ids.WF
  ids_max : b.ids.maxEntries = b.cfg.maxOrders
  ids_iff : ∀ id n, b.ids.find id = some n ↔ ∃ s i, n ∈ q s i ∧ (b.node n).order.id = id
  ids_size : b.ids.size = b.live
  room : b.live + free.length = b.cfg.maxOrders
  live_eq : b.live =
    (flatNodes q .buy b.levelsPerSide).length + (flatNodes q .sell b.levelsPerSide).length

/-- A book some description fits. -/
def WF (b : OrderBook) : Prop := ∃ q free, Inv b q free

namespace Inv

variable {q : Side → ℕ → List ℕ} {free : List ℕ}

/-- The nil index is not a free node. -/
theorem kNil_notMem_free (h : Inv b q free) : kNil ∉ free := fun hmem =>
  absurd (h.free_lt kNil hmem) (by have := h.cfg.orders_lt; omega)

/-- The nil index is not a queued node. -/
theorem ne_kNil (h : Inv b q free) {s : Side} {i n : ℕ} (hn : n ∈ q s i) : n ≠ kNil := by
  have h1 := (h.placed s i n hn).node_lt
  have h2 := h.cfg.orders_lt
  omega

/-- A node is queued at one level only. -/
theorem unique (h : Inv b q free) {s t : Side} {i j n : ℕ} (hi : n ∈ q s i) (hj : n ∈ q t j) :
    t = s ∧ j = i := by
  have h1 := h.placed s i n hi
  have h2 := h.placed t j n hj
  refine ⟨h2.side_eq.symm.trans h1.side_eq, ?_⟩
  have := priceOf_inj h.cfg (h2.price_eq.symm.trans h1.price_eq)
  omega

/-- The free list is empty exactly when its head is nil. -/
theorem freeHead_eq_iff (h : Inv b q free) : b.freeHead = kNil ↔ free = [] :=
  h.chain.eq_nil_iff h.kNil_notMem_free

/-- The price of a queued order belongs to its level. -/
theorem indexOf_price (h : Inv b q free) {s : Side} {i n : ℕ} (hn : n ∈ q s i) :
    b.indexOf (b.node n).order.price = i := by
  rw [(h.placed s i n hn).price_eq, indexOf_priceOf h.cfg]

/-! ## Walking the queues -/

/-- Following `next` from the head of a chain visits the chain. -/
theorem walkNodes_eq {next : ℕ → ℕ} (hnext : b.nextOf = next) {head : ℕ} {xs : List ℕ}
    (hc : Chain next kNil head xs) (hnil : kNil ∉ xs) {fuel : ℕ} (hf : xs.length < fuel) :
    b.walkNodes fuel head = xs := by
  induction xs generalizing head fuel with
  | nil =>
    obtain ⟨f, rfl⟩ : ∃ f, fuel = f + 1 := ⟨fuel - 1, by simp at hf; omega⟩
    rw [walkNodes, if_pos (show head = kNil from hc)]
  | cons a xs ih =>
    obtain ⟨f, rfl⟩ : ∃ f, fuel = f + 1 := ⟨fuel - 1, by omega⟩
    obtain ⟨rfl, hrest⟩ := hc
    rw [List.mem_cons, not_or] at hnil
    rw [walkNodes, if_neg (Ne.symm hnil.1)]
    have hn : (b.node head).next = next head := by rw [← hnext]; rfl
    rw [hn, ih hrest hnil.2 (by simp at hf; omega)]

/-- A queue holds each pool index at most once, so it is shorter than the pool. -/
theorem length_queue_le (h : Inv b q free) (s : Side) (i : ℕ) :
    (q s i).length ≤ b.nodes.length := by
  have hsub : (q s i) ⊆ List.range b.nodes.length := fun n hn => by
    rw [List.mem_range, h.nodes_len]
    exact (h.placed s i n hn).node_lt
  have := ((h.queue s i).nodup.subperm hsub).length_le
  simpa using this

/-- Following `next` from the head of a level visits its queue. -/
theorem walkNodes_queue (h : Inv b q free) (s : Side) (i : ℕ) :
    b.walkNodes (b.nodes.length + 1) (b.level s i).head = q s i := by
  have hq := h.queue s i
  have hc := hq.seg.chain
  rw [← hq.head_eq] at hc
  exact walkNodes_eq rfl hc hq.nil_notMem (Nat.lt_succ_of_le (h.length_queue_le s i))

/-- The walk from a best index over what remains of the ladder: the non-empty levels, in
ladder order. -/
theorem walkLevels_eq (h : Inv b q free) (s : Side) {L : List ℕ}
    (hsort : L.Pairwise fun (i j : ℕ) => s.better i j) {idx : ℤ}
    (hbest : IsBest s (fun i => i ∈ L ∧ q s i ≠ []) idx)
    (hrest : ∀ i ∈ L, ∀ j, q s j ≠ [] → s.better i j → j ∈ L) {fuel : ℕ}
    (hf : L.length < fuel) :
    b.walkLevels s fuel idx = L.filter fun i => q s i ≠ [] := by
  induction L generalizing idx fuel with
  | nil =>
    obtain ⟨f, rfl⟩ : ∃ f, fuel = f + 1 := ⟨fuel - 1, by simp at hf; omega⟩
    rw [walkLevels, if_pos (hbest.lt_zero_iff.mpr (by simp))]
    rfl
  | cons a L ih =>
    obtain ⟨f, rfl⟩ : ∃ f, fuel = f + 1 := ⟨fuel - 1, by omega⟩
    rw [List.pairwise_cons] at hsort
    have hrest' : ∀ i ∈ L, ∀ j, q s j ≠ [] → s.better i j → j ∈ L := by
      intro i hi j hj hij
      have := hrest i (by simp [hi]) j hj hij
      rw [List.mem_cons] at this
      rcases this with rfl | hmem
      · exact absurd hij (Side.better_asymm (hsort.1 i hi))
      · exact hmem
    by_cases ha : q s a = []
    · -- an empty level is skipped without a step
      rw [List.filter_cons_of_neg (by simp [ha])]
      have hbest' : IsBest s (fun i => i ∈ L ∧ q s i ≠ []) idx := by
        refine hbest.congr fun i => and_congr_left fun hi => ?_
        rw [List.mem_cons, or_iff_right]
        rintro rfl
        exact hi ha
      exact ih hsort.2 hbest' hrest' (by simp at hf; omega)
    · rw [List.filter_cons_of_pos (by simp [ha])]
      have hidx : idx = a := by
        have hneg : ¬ idx < 0 := fun hlt =>
          hbest.lt_zero_iff.mp hlt a ⟨by simp, ha⟩
        obtain ⟨k, rfl, ⟨hk, hqk⟩, hno⟩ := hbest.exists_of_nonneg hneg
        rw [List.mem_cons] at hk
        rcases hk with rfl | hk
        · rfl
        · exact absurd (hsort.1 k hk) (hno a ⟨by simp, ha⟩)
      subst hidx
      rw [walkLevels, if_neg (by omega), Int.toNat_natCast]
      congr 1
      refine ih hsort.2 ?_ hrest' (by simp at hf; omega)
      refine (nextWorse_spec b s a).congr fun i => ?_
      rw [h.bit_iff]
      constructor
      · rintro ⟨hqi, hai⟩
        refine ⟨?_, hqi⟩
        have := hrest a (by simp) i hqi hai
        rw [List.mem_cons] at this
        rcases this with rfl | hmem
        · exact absurd hai (Side.better_irrefl s i)
        · exact hmem
      · rintro ⟨hi, hqi⟩
        exact ⟨hqi, hsort.1 i hi⟩

theorem lt_of_ne_nil (h : Inv b q free) {s : Side} {i : ℕ} (hq : q s i ≠ []) :
    i < b.levelsPerSide := by
  obtain ⟨n, hn⟩ := List.exists_mem_of_ne_nil _ hq
  exact (h.placed s i n hn).level_lt

/-- Following the bitmap from the best level visits the levels with orders, best first. -/
theorem walkLevels_best (h : Inv b q free) (s : Side) :
    b.walkLevels s (b.levelsPerSide + 1) (b.ladder s).best =
      (ladderOrder s b.levelsPerSide).filter fun i => q s i ≠ [] := by
  refine h.walkLevels_eq s (pairwise_ladderOrder s _) ?_ ?_ ?_
  · refine (h.best s).congr fun i => ?_
    rw [mem_ladderOrder]
    exact ⟨fun hi => ⟨h.lt_of_ne_nil hi, hi⟩, fun hi => hi.2⟩
  · intro i _ j hj _
    exact mem_ladderOrder.mpr (h.lt_of_ne_nil hj)
  · rw [length_ladderOrder]
    exact Nat.lt_succ_self _

/-- **The orders of a side** are its queues, best level first. -/
theorem orders_eq (h : Inv b q free) (s : Side) :
    b.orders s = (flatNodes q s b.levelsPerSide).map fun n => (b.node n).order := by
  rw [orders, h.walkLevels_best, flatNodes, List.map_flatMap]
  -- dropping the empty levels does not change the concatenation
  induction ladderOrder s b.levelsPerSide with
  | nil => rfl
  | cons i L ih =>
    by_cases hi : q s i = []
    · rw [List.filter_cons_of_neg (by simp [hi]), List.flatMap_cons, hi, ih]
      rfl
    · rw [List.filter_cons_of_pos (by simp [hi]), List.flatMap_cons, List.flatMap_cons, ih,
        h.walkNodes_queue]

end Inv

end OrderBook

end PulseForge
