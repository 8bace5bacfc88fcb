import PulseForge.Analysis.OrderBookAdd

/-!
# Removing and reducing keep the representation invariant

`unlinkAndFree` is described stage by stage (`detach` joins the neighbours, `shrinkLevel`
fixes the totals, the bitmap and the best level, `release` frees the node); together they
take a node out of its queue and put it on the free list. `reduceNode` changes the quantity
of one order and of its level.
-/

set_option autoImplicit false

namespace PulseForge.OrderBook

open Foundation

variable {b b' : OrderBook} {q : Side → ℕ → List ℕ} {free : List ℕ} {s t : Side} {i j n m : ℕ}

/-! ## `detach` -/

/-- `detach` keeps the sizes. -/
theorem sameShape_detach : SameShape b (b.detach s i n) := by
  unfold detach
  dsimp only
  split <;> split
  · exact (sameShape_modifyNode _).trans (sameShape_modifyNode _)
  · exact (sameShape_modifyLevel _).trans (sameShape_modifyNode _)
  · exact (sameShape_modifyNode _).trans (sameShape_modifyLevel _)
  · exact (sameShape_modifyLevel _).trans (sameShape_modifyLevel _)

/-- `detach` does not change an order. -/
@[simp] theorem order_detach (m : ℕ) :
    ((b.detach s i n).node m).order = (b.node m).order := by
  unfold detach
  dsimp only
  split <;> split <;> simp only [node_modifyNode, node_modifyLevel, length_nodes_modifyNode,
    nodes_modifyLevel] <;> grind

/-- `detach` makes the successor of the node point behind it. -/
theorem prevOf_detach (m : ℕ) :
    (b.detach s i n).prevOf m =
      if m = b.nextOf n ∧ m ≠ kNil ∧ m < b.nodes.length then b.prevOf n else b.prevOf m := by
  unfold detach prevOf nextOf
  dsimp only
  split <;> split <;> simp only [node_modifyNode, node_modifyLevel, length_nodes_modifyNode,
    nodes_modifyLevel] <;> grind

/-- `detach` makes the predecessor of the node point beyond it. -/
theorem nextOf_detach (m : ℕ) :
    (b.detach s i n).nextOf m =
      if m = b.prevOf n ∧ m ≠ kNil ∧ m < b.nodes.length then b.nextOf n else b.nextOf m := by
  unfold detach prevOf nextOf
  dsimp only
  split <;> split <;> simp only [node_modifyNode, node_modifyLevel, length_nodes_modifyNode,
    nodes_modifyLevel] <;> grind

/-- `detach` moves the head or the tail of the level when the node was one. -/
theorem level_detach (hi : i < (b.ladder s).levels.length) (t : Side) (j : ℕ) :
    (b.detach s i n).level t j =
      if t = s ∧ j = i then
        { b.level s i with
          head := if b.prevOf n = kNil then b.nextOf n else (b.level s i).head
          tail := if b.nextOf n = kNil then b.prevOf n else (b.level s i).tail }
      else b.level t j := by
  unfold detach prevOf nextOf
  dsimp only
  by_cases hts : t = s ∧ j = i
  · obtain ⟨rfl, rfl⟩ := hts
    split <;> split <;> simp_all [level_modifyLevel]
  · have hts' : ¬ (t = s ∧ i = j ∧ j < (b.ladder s).levels.length) := fun hc =>
      hts ⟨hc.1, hc.2.1.symm⟩
    split <;> split <;> simp [level_modifyLevel, hts']

/-- `detach` keeps the bitmaps. -/
@[simp] theorem bits_detach : ((b.detach s i n).ladder t).bits = (b.ladder t).bits := by
  unfold detach
  dsimp only
  split <;> split <;> simp

/-- `detach` keeps the best indices. -/
@[simp] theorem best_detach : ((b.detach s i n).ladder t).best = (b.ladder t).best := by
  unfold detach
  dsimp only
  split <;> split <;> simp

/-- `detach` keeps the map of the ids. -/
@[simp] theorem ids_detach : (b.detach s i n).ids = b.ids := by
  unfold detach
  dsimp only
  split <;> split <;> simp

/-- `detach` keeps the free list. -/
@[simp] theorem freeHead_detach : (b.detach s i n).freeHead = b.freeHead := by
  unfold detach
  dsimp only
  split <;> split <;> simp

/-- `detach` does not count. -/
@[simp] theorem live_detach : (b.detach s i n).live = b.live := by
  unfold detach
  dsimp only
  split <;> split <;> simp

/-! ## `shrinkLevel` -/

section ShrinkLevel

variable {qty : ℕ}

/-- The shares and the order that left, taken off the totals of the level. -/
def takeOff (b : OrderBook) (s : Side) (i qty : ℕ) : OrderBook :=
  b.modifyLevel s i fun lv => { lv with qty := lv.qty - qty, count := lv.count - 1 }

/-- The level cleared and its bit reset, before the best level is handed on. -/
def vacate (b : OrderBook) (s : Side) (i : ℕ) : OrderBook :=
  (b.modifyLevel s i fun _ => Level.empty).modifyBits s fun bits => bitmapReset bits i

/-- A level that keeps orders keeps its bit and its place. -/
theorem shrinkLevel_of_remaining (hi : i < (b.ladder s).levels.length)
    (hc : (b.level s i).count - 1 ≠ 0) : b.shrinkLevel s i qty = b.takeOff s i qty := by
  have hcount : ((b.takeOff s i qty).level s i).count = (b.level s i).count - 1 := by
    rw [takeOff, level_modifyLevel, if_pos ⟨rfl, rfl, hi⟩]
  exact if_neg (show ¬ ((b.takeOff s i qty).level s i).count = 0 by rwa [hcount])

/-- A level that loses its last order leaves the bitmap. -/
theorem shrinkLevel_of_last (hi : i < (b.ladder s).levels.length)
    (hc : (b.level s i).count - 1 = 0) :
    b.shrinkLevel s i qty =
      let b₁ := (b.takeOff s i qty).vacate s i
      if (i : ℤ) = (b₁.ladder s).best then b₁.setBest s (b₁.nextWorse s i) else b₁ := by
  have hcount : ((b.takeOff s i qty).level s i).count = (b.level s i).count - 1 := by
    rw [takeOff, level_modifyLevel, if_pos ⟨rfl, rfl, hi⟩]
  exact if_pos (show ((b.takeOff s i qty).level s i).count = 0 by rwa [hcount])

/-- A level that runs empty keeps the sizes. -/
theorem sameShape_vacate : SameShape b ((b.takeOff s i qty).vacate s i) :=
  ((sameShape_modifyLevel _).trans (sameShape_modifyLevel _)).trans
    (sameShape_modifyBits fun l => length_bitmapReset l i)

/-- `shrinkLevel` keeps the sizes. -/
theorem sameShape_shrinkLevel : SameShape b (b.shrinkLevel s i qty) := by
  unfold shrinkLevel
  dsimp only
  split
  · split
    · exact sameShape_vacate.trans (sameShape_setBest _)
    · exact sameShape_vacate
  · exact sameShape_modifyLevel _

/-- `shrinkLevel` keeps the nodes. -/
@[simp] theorem node_shrinkLevel : (b.shrinkLevel s i qty).node n = b.node n := by
  unfold shrinkLevel
  dsimp only
  split
  · split <;> simp
  · simp

/-- `shrinkLevel` keeps the map of the ids. -/
@[simp] theorem ids_shrinkLevel : (b.shrinkLevel s i qty).ids = b.ids := by
  unfold shrinkLevel
  dsimp only
  split
  · split <;> simp
  · simp

/-- `shrinkLevel` keeps the free list. -/
@[simp] theorem freeHead_shrinkLevel : (b.shrinkLevel s i qty).freeHead = b.freeHead := by
  unfold shrinkLevel
  dsimp only
  split
  · split <;> simp
  · simp

/-- `shrinkLevel` does not count. -/
@[simp] theorem live_shrinkLevel : (b.shrinkLevel s i qty).live = b.live := by
  unfold shrinkLevel
  dsimp only
  split
  · split <;> simp
  · simp

/-- The other side keeps its best index. -/
theorem best_shrinkLevel_other (hts : t ≠ s) :
    ((b.shrinkLevel s i qty).ladder t).best = (b.ladder t).best := by
  unfold shrinkLevel
  dsimp only
  split
  · split <;> simp [best_setBest, hts]
  · simp

/-- `shrinkLevel` takes one order and its shares off the level; an empty level is reset. -/
theorem level_shrinkLevel (hi : i < (b.ladder s).levels.length) (t : Side) (j : ℕ) :
    (b.shrinkLevel s i qty).level t j =
      if t = s ∧ j = i then
        if (b.level s i).count - 1 = 0 then Level.empty
        else { b.level s i with
          qty := (b.level s i).qty - qty
          count := (b.level s i).count - 1 }
      else b.level t j := by
  by_cases hc : (b.level s i).count - 1 = 0
  · have hvac : ((b.takeOff s i qty).vacate s i).level t j =
        if t = s ∧ j = i then Level.empty else b.level t j := by
      simp only [vacate, takeOff, level_modifyBits, level_modifyLevel, length_levels_modifyLevel]
      grind
    rw [shrinkLevel_of_last hi hc, if_pos hc]
    dsimp only
    split
    · rw [level_setBest, hvac]
    · exact hvac
  · rw [shrinkLevel_of_remaining hi hc, if_neg hc, takeOff, level_modifyLevel]
    grind

/-- When the last order of a level goes, so does its bit. -/
theorem testBit_shrinkLevel_of_last (hi : i < (b.ladder s).levels.length)
    (hc : (b.level s i).count - 1 = 0) (t : Side) (j : ℕ) :
    testBit ((b.shrinkLevel s i qty).ladder t).bits j =
      (testBit (b.ladder t).bits j && !decide (t = s ∧ j = i)) := by
  have hvac : testBit (((b.takeOff s i qty).vacate s i).ladder t).bits j =
      (testBit (b.ladder t).bits j && !decide (t = s ∧ j = i)) := by
    rw [vacate, takeOff, bits_modifyBits]
    by_cases hts : t = s
    · subst hts
      rw [if_pos rfl, bits_modifyLevel, bits_modifyLevel, testBit_bitmapReset]
      simp
    · simp [hts]
  rw [shrinkLevel_of_last hi hc]
  dsimp only
  split
  · rw [bits_setBest, hvac]
  · exact hvac

/-- A level that loses its last order hands the best level on to the best of the others. -/
theorem isBest_shrinkLevel_of_last (hi : i < (b.ladder s).levels.length)
    (hc : (b.level s i).count - 1 = 0) {P : ℕ → Prop}
    (hbits : ∀ j, testBit (b.ladder s).bits j = true ↔ P j) (hbest : IsBest s P (b.ladder s).best)
    (hPi : P i) :
    IsBest s (fun j => P j ∧ j ≠ i) ((b.shrinkLevel s i qty).ladder s).best := by
  rw [shrinkLevel_of_last hi hc]
  dsimp only
  set b₁ := (b.takeOff s i qty).vacate s i with hb₁
  have hbit₁ : ∀ j, testBit (b₁.ladder s).bits j = true ↔ P j ∧ j ≠ i := by
    intro j
    rw [hb₁, vacate, takeOff, bits_modifyBits, if_pos rfl, bits_modifyLevel, bits_modifyLevel,
      testBit_bitmapReset, Bool.and_eq_true, hbits, decide_eq_true_eq]
  have hbest₁ : (b₁.ladder s).best = (b.ladder s).best := by simp [hb₁, vacate, takeOff]
  rw [hbest₁]
  rcases hbest with ⟨-, hno⟩ | ⟨k, hk, hPk, hkbest⟩
  · exact absurd hPi (hno i)
  · by_cases hik : i = k
    · -- the best level went: the next set bit takes its place
      subst hik
      rw [if_pos hk.symm, best_setBest, if_pos rfl]
      refine (b₁.nextWorse_spec s i).congr fun j => ?_
      rw [hbit₁]
      refine ⟨fun hj => hj.1, fun hj => ⟨hj, ?_⟩⟩
      rcases Side.better_trichotomy s i j with hb | hb | hb
      · exact hb
      · exact absurd (Int.ofNat_inj.mp hb).symm hj.2
      · exact absurd hb (hkbest j hj.1)
    · rw [if_neg (by rw [hk]; exact fun hc => hik (Int.ofNat_inj.mp hc)), hbest₁, hk]
      exact .inr ⟨k, rfl, ⟨hPk, Ne.symm hik⟩, fun j hj => hkbest j hj.1⟩

end ShrinkLevel

/-! ## `release` -/

section Release

variable {id : ℕ}

/-- `release` keeps the sizes. -/
theorem sameShape_release : SameShape b (b.release n id) := by
  unfold release
  exact ((sameShape_scalars (b := b) _ b.freeHead b.live).trans (sameShape_modifyNode _)).trans
    (sameShape_scalars _ _ _)

/-- `release` keeps the ladders. -/
@[simp] theorem ladder_release : (b.release n id).ladder t = b.ladder t := by cases t <;> rfl

/-- `release` keeps the levels. -/
@[simp] theorem level_release : (b.release n id).level t j = b.level t j := by
  rw [level, level, ladder_release]

/-- `release` links the node to the free list. -/
theorem node_release (m : ℕ) :
    (b.release n id).node m =
      if n = m ∧ m < b.nodes.length then { b.node m with next := b.freeHead } else b.node m :=
  node_modifyNode ..

end Release

/-! ## `unlinkAndFree` -/

namespace Inv

variable {l r : List ℕ}

/-- The neighbours of a queued node are queued at the same level. -/
theorem prevOf_mem (h : Inv b q free) (hq : q s i = l ++ n :: r) (hp : b.prevOf n ≠ kNil) :
    b.prevOf n ∈ l := by
  have hl := ((hq ▸ h.queue s i).links).1
  rcases List.eq_nil_or_concat l with rfl | ⟨ys, a, rfl⟩
  · exact absurd hl hp
  · rw [hl, List.concat_eq_append]
    simp

/-- The successor of a node is behind it in the queue. -/
theorem nextOf_mem (h : Inv b q free) (hq : q s i = l ++ n :: r) (hn : b.nextOf n ≠ kNil) :
    b.nextOf n ∈ r := by
  have hr := ((hq ▸ h.queue s i).links).2
  cases r with
  | nil => exact absurd hr hn
  | cons a r => simp [hr]

/-- What `unlinkAndFree` does to a node that is queued at level `i`. -/
theorem unlinkAndFree_eq (h : Inv b q free) (hn : n ∈ q s i) :
    b.unlinkAndFree n =
      ((b.detach s i n).shrinkLevel s i (b.node n).order.qty).release n (b.node n).order.id := by
  unfold unlinkAndFree
  dsimp only
  rw [h.indexOf_price hn, (h.placed s i n hn).side_eq, Int.toNat_natCast]

end Inv

/-- What `unlinkAndFree` leaves of the pool and the scalars: the neighbours of `n` are
joined and `n` heads the free list. -/
structure Unlinked (b b' : OrderBook) (n : ℕ) : Prop where
  shape : SameShape b b'
  order : ∀ m, (b'.node m).order = (b.node m).order
  prevOf : ∀ m, m ≠ n → b'.prevOf m =
    if m = b.nextOf n ∧ m ≠ kNil ∧ m < b.nodes.length then b.prevOf n else b.prevOf m
  nextOf : ∀ m, m ≠ n → b'.nextOf m =
    if m = b.prevOf n ∧ m ≠ kNil ∧ m < b.nodes.length then b.nextOf n else b.nextOf m
  nextOf_self : b'.nextOf n = b.freeHead
  freeHead : b'.freeHead = n
  live : b'.live = b.live - 1
  ids : b'.ids = (b.ids.erase (b.node n).order.id).1

namespace Inv

variable {l r : List ℕ}

/-- What removing a queued node does. -/
theorem unlinked (h : Inv b q free) (hn : n ∈ q s i) : Unlinked b (b.unlinkAndFree n) n := by
  have hlen : n < b.nodes.length := h.nodes_lt hn
  have hlen' : ((b.detach s i n).shrinkLevel s i (b.node n).order.qty).nodes.length =
      b.nodes.length :=
    (sameShape_detach.trans sameShape_shrinkLevel).nodes_len
  have hne : ∀ m, m ≠ n → (b.unlinkAndFree n).node m = (b.detach s i n).node m := by
    intro m hm
    rw [h.unlinkAndFree_eq hn, node_release, if_neg (fun hc => hm hc.1.symm), node_shrinkLevel]
  have hself : (b.unlinkAndFree n).node n =
      { (b.detach s i n).node n with next := b.freeHead } := by
    rw [h.unlinkAndFree_eq hn, node_release, if_pos ⟨rfl, hlen' ▸ hlen⟩, node_shrinkLevel,
      freeHead_shrinkLevel, freeHead_detach]
  refine ⟨?_, fun m => ?_, fun m hm => ?_, fun m hm => ?_, ?_, ?_, ?_, ?_⟩
  · rw [h.unlinkAndFree_eq hn]
    exact (sameShape_detach.trans sameShape_shrinkLevel).trans sameShape_release
  · by_cases hm : m = n
    · rw [hm, hself]
      exact order_detach n
    · rw [hne m hm, order_detach]
  · rw [OrderBook.prevOf, hne m hm]
    exact prevOf_detach m
  · rw [OrderBook.nextOf, hne m hm]
    exact nextOf_detach m
  · rw [OrderBook.nextOf, hself]
  · rw [h.unlinkAndFree_eq hn]
    rfl
  · rw [h.unlinkAndFree_eq hn]
    show ((b.detach s i n).shrinkLevel s i _).live - 1 = _
    rw [live_shrinkLevel, live_detach]
  · rw [h.unlinkAndFree_eq hn]
    show (((b.detach s i n).shrinkLevel s i _).ids.erase _).1 = _
    rw [ids_shrinkLevel, ids_detach]

/-- The level records after `unlinkAndFree`. -/
theorem level_unlinkAndFree (h : Inv b q free) (hn : n ∈ q s i) (t : Side) (j : ℕ) :
    (b.unlinkAndFree n).level t j =
      if t = s ∧ j = i then
        if (q s i).length - 1 = 0 then Level.empty
        else
          { head := if b.prevOf n = kNil then b.nextOf n else (b.level s i).head
            tail := if b.nextOf n = kNil then b.prevOf n else (b.level s i).tail
            qty := (b.level s i).qty - (b.node n).order.qty
            count := (b.level s i).count - 1 }
      else b.level t j := by
  have hi : i < (b.ladder s).levels.length := h.levels_lt (h.placed s i n hn).level_lt
  have hi' : i < ((b.detach s i n).ladder s).levels.length := by
    rw [sameShape_detach.levels_len]
    exact hi
  rw [h.unlinkAndFree_eq hn, level_release, level_shrinkLevel hi', level_detach hi s i,
    level_detach hi t j]
  by_cases hts : t = s ∧ j = i
  · simp [hts, h.count_eq s i]
  · simp [hts]

/-- The bitmap and the best level after `unlinkAndFree`. -/
theorem bits_unlinkAndFree (h : Inv b q free) (hq : q s i = l ++ n :: r) :
    (∀ t j, testBit ((b.unlinkAndFree n).ladder t).bits j = true ↔
      setQueue q s i (l ++ r) t j ≠ []) ∧
    ∀ t, IsBest t (fun j => setQueue q s i (l ++ r) t j ≠ [])
      ((b.unlinkAndFree n).ladder t).best := by
  have hn : n ∈ q s i := by simp [hq]
  have hi : i < (b.ladder s).levels.length := h.levels_lt (h.placed s i n hn).level_lt
  have hi' : i < ((b.detach s i n).ladder s).levels.length := by
    rw [sameShape_detach.levels_len]
    exact hi
  have hcount : ((b.detach s i n).level s i).count = (l ++ r).length + 1 := by
    rw [level_detach hi, if_pos ⟨rfl, rfl⟩]
    show (b.level s i).count = _
    rw [h.count_eq, hq]
    simp only [List.length_append, List.length_cons]
    omega
  have hne : q s i ≠ [] := by simp [hq]
  rw [h.unlinkAndFree_eq hn]
  simp only [ladder_release]
  by_cases hlr : l ++ r = []
  · -- the level is empty now
    have hset : ∀ t j, setQueue q s i (l ++ r) t j ≠ [] ↔ q t j ≠ [] ∧ ¬ (t = s ∧ j = i) := by
      intro t j
      by_cases hts : t = s ∧ j = i
      · obtain ⟨rfl, rfl⟩ := hts
        simp [hlr]
      · rw [setQueue_of_ne q _ hts]
        simp [hts]
    have hc : ((b.detach s i n).level s i).count - 1 = 0 := by rw [hcount, hlr]; rfl
    constructor
    · intro t j
      rw [testBit_shrinkLevel_of_last hi' hc, bits_detach, hset, Bool.and_eq_true, h.bit_iff,
        Bool.not_eq_true', decide_eq_false_iff_not]
    · intro t
      by_cases hts : t = s
      · subst hts
        refine (isBest_shrinkLevel_of_last hi' hc (P := fun j => q t j ≠ []) ?_ ?_ hne).congr ?_
        · intro j
          rw [bits_detach, h.bit_iff]
        · rw [best_detach]
          exact h.best t
        · intro j
          rw [hset]
          simp
      · rw [best_shrinkLevel_other hts, best_detach]
        refine (h.best t).congr fun j => ?_
        rw [hset]
        simp [hts]
  · have hset : ∀ t j, setQueue q s i (l ++ r) t j ≠ [] ↔ q t j ≠ [] := by
      intro t j
      by_cases hts : t = s ∧ j = i
      · obtain ⟨rfl, rfl⟩ := hts
        rw [setQueue_self]
        exact ⟨fun _ => hne, fun _ => hlr⟩
      · rw [setQueue_of_ne q _ hts]
    have hc : ((b.detach s i n).level s i).count - 1 ≠ 0 := by
      have := List.length_pos_of_ne_nil hlr
      omega
    rw [shrinkLevel_of_remaining hi' hc]
    constructor
    · intro t j
      rw [takeOff, bits_modifyLevel, bits_detach, hset, h.bit_iff]
    · intro t
      rw [takeOff, best_modifyLevel, best_detach]
      exact (h.best t).congr fun j => (hset t j).symm

/-- The queues after `unlinkAndFree`. -/
theorem queue_unlinkAndFree (h : Inv b q free) (hq : q s i = l ++ n :: r) (t : Side) (j : ℕ) :
    Queue (b.unlinkAndFree n).prevOf (b.unlinkAndFree n).nextOf kNil
      ((b.unlinkAndFree n).level t j).head ((b.unlinkAndFree n).level t j).tail
      (setQueue q s i (l ++ r) t j) := by
  have hn : n ∈ q s i := by simp [hq]
  have hu := h.unlinked hn
  have hqueue := h.queue s i
  rw [hq] at hqueue
  have hnd := hqueue.nodup
  have hnlr : n ∉ l ++ r := by
    rw [List.nodup_middle, List.nodup_cons] at hnd
    exact hnd.1
  have hmemlr : ∀ {m}, m ∈ l ++ r → m ∈ q s i := by
    intro m hm
    rw [hq]
    simp only [List.mem_append, List.mem_cons] at hm ⊢
    tauto
  rw [h.level_unlinkAndFree hn]
  by_cases hts : t = s ∧ j = i
  · obtain ⟨rfl, rfl⟩ := hts
    rw [if_pos ⟨rfl, rfl⟩, setQueue_self]
    by_cases hlr : l ++ r = []
    · obtain ⟨rfl, rfl⟩ := List.append_eq_nil_iff.mp hlr
      rw [if_pos (by rw [hq]; rfl)]
      exact Queue.empty
    · have hlen : (q t j).length - 1 ≠ 0 := by
        have := List.length_pos_of_ne_nil hlr
        rw [hq]
        simp only [List.length_append, List.length_cons] at this ⊢
        omega
      rw [if_neg hlen]
      refine hqueue.unlink ?_ ?_ ?_ ?_
      · intro a ha hne
        rw [hu.prevOf a (fun hc => hnlr (hc ▸ ha)), if_neg (fun hc => hne hc.1)]
      · intro a ha hne
        rw [hu.nextOf a (fun hc => hnlr (hc ▸ ha)), if_neg (fun hc => hne hc.1)]
      · intro hne
        have hmem : b.nextOf n ∈ l ++ r := by simp [h.nextOf_mem hq hne]
        rw [hu.prevOf _ (fun hc => hnlr (hc ▸ hmem)), if_pos ⟨rfl, hne, h.nodes_lt (hmemlr hmem)⟩]
      · intro hne
        have hmem : b.prevOf n ∈ l ++ r := by simp [h.prevOf_mem hq hne]
        rw [hu.nextOf _ (fun hc => hnlr (hc ▸ hmem)), if_pos ⟨rfl, hne, h.nodes_lt (hmemlr hmem)⟩]
  · -- the links written belong to nodes of level `i`
    rw [if_neg hts, setQueue_of_ne q _ hts]
    have hother : ∀ {a m}, a ∈ q t j → m ∈ q s i → a ≠ m := by
      rintro a m ha hm rfl
      exact hts (h.unique hm ha)
    refine (h.queue t j).congr ?_ ?_
    · intro a ha
      rw [hu.prevOf a (hother ha hn), if_neg]
      rintro ⟨hc, hk, -⟩
      exact hother ha (hmemlr (by simp [h.nextOf_mem hq (hc ▸ hk)])) hc
    · intro a ha
      rw [hu.nextOf a (hother ha hn), if_neg]
      rintro ⟨hc, hk, -⟩
      exact hother ha (hmemlr (by simp [h.prevOf_mem hq (hc ▸ hk)])) hc

/-- The nodes that are still queued. -/
theorem mem_setQueue_unlink (h : Inv b q free) (hq : q s i = l ++ n :: r) :
    m ∈ setQueue q s i (l ++ r) t j ↔ m ∈ q t j ∧ m ≠ n := by
  have hn : n ∈ q s i := by simp [hq]
  have hnd := (h.queue s i).nodup
  rw [hq, List.nodup_middle, List.nodup_cons] at hnd
  by_cases hts : t = s ∧ j = i
  · obtain ⟨rfl, rfl⟩ := hts
    rw [setQueue_self, hq]
    simp only [List.mem_append, List.mem_cons]
    constructor
    · intro hm
      refine ⟨by tauto, ?_⟩
      rintro rfl
      exact hnd.1 (by simpa using hm)
    · tauto
  · rw [setQueue_of_ne q _ hts]
    refine ⟨fun hm => ⟨hm, ?_⟩, fun hm => hm.1⟩
    rintro rfl
    exact hts (h.unique hn hm)

/-- The totals of every level after `unlinkAndFree`. -/
theorem totals_unlinkAndFree (h : Inv b q free) (hq : q s i = l ++ n :: r) (t : Side) (j : ℕ) :
    ((b.unlinkAndFree n).level t j).count = (setQueue q s i (l ++ r) t j).length ∧
      ((b.unlinkAndFree n).level t j).qty =
        (b.unlinkAndFree n).queueQty (setQueue q s i (l ++ r) t j) := by
  have hn : n ∈ q s i := by simp [hq]
  have hu := h.unlinked hn
  rw [h.level_unlinkAndFree hn, queueQty_congr (b := b) fun m _ => hu.order m]
  by_cases hts : t = s ∧ j = i
  · obtain ⟨rfl, rfl⟩ := hts
    rw [if_pos ⟨rfl, rfl⟩, setQueue_self]
    have hlen : (q t j).length = (l ++ r).length + 1 := by
      rw [hq]
      simp only [List.length_append, List.length_cons]
      omega
    have hsum : (b.level t j).qty = b.queueQty (l ++ r) + (b.node n).order.qty := by
      rw [h.qty_eq, hq]
      simp only [queueQty_append, queueQty_cons]
      omega
    split
    · next hlast =>
      have hlr : l ++ r = [] := by
        apply List.eq_nil_of_length_eq_zero
        omega
      rw [hlr]
      exact ⟨rfl, rfl⟩
    · constructor
      · show (b.level t j).count - 1 = _
        rw [h.count_eq]
        omega
      · show (b.level t j).qty - _ = _
        omega
  · rw [if_neg hts, setQueue_of_ne q _ hts, h.count_eq, h.qty_eq]
    exact ⟨rfl, rfl⟩

/-- The freed node heads the free list. -/
theorem chain_unlinkAndFree (h : Inv b q free) (hq : q s i = l ++ n :: r) :
    Chain (b.unlinkAndFree n).nextOf kNil (b.unlinkAndFree n).freeHead (n :: free) := by
  have hn : n ∈ q s i := by simp [hq]
  have hu := h.unlinked hn
  refine ⟨hu.freeHead, ?_⟩
  rw [hu.nextOf_self]
  refine h.chain.congr fun a ha => ?_
  have hqa : ∀ {m}, m ∈ q s i → a ≠ m := by
    rintro m hm rfl
    exact h.free_disj s i _ hm ha
  rw [hu.nextOf a (hqa hn), if_neg]
  rintro ⟨hc, hk, -⟩
  refine hqa (m := b.prevOf n) ?_ hc
  rw [hq]
  simp [h.prevOf_mem hq (hc ▸ hk)]

/-- The id index after `unlinkAndFree`. -/
theorem ids_unlinkAndFree (h : Inv b q free) (hq : q s i = l ++ n :: r) :
    (b.unlinkAndFree n).ids.WF ∧ (b.unlinkAndFree n).ids.maxEntries = b.ids.maxEntries ∧
      (b.unlinkAndFree n).ids.size + 1 = b.ids.size ∧
      ∀ k v, (b.unlinkAndFree n).ids.find k = some v ↔ ∃ t j,
        v ∈ setQueue q s i (l ++ r) t j ∧ ((b.unlinkAndFree n).node v).order.id = k := by
  have hn : n ∈ q s i := by simp [hq]
  have hu := h.unlinked hn
  have hfound : b.ids.find (b.node n).order.id = some n :=
    (h.ids_iff _ n).mpr ⟨s, i, hn, rfl⟩
  obtain ⟨ids, hids, hwf, hmax, hsize, hfind⟩ := FlatIdMap.erase_of_mem h.ids_wf hfound
  have hids' : (b.unlinkAndFree n).ids = ids := by rw [hu.ids, hids]
  rw [hids']
  refine ⟨hwf, hmax, hsize, fun k v => ?_⟩
  rw [hfind]
  constructor
  · intro hk
    split at hk
    · exact absurd hk (by simp)
    · next hne =>
      obtain ⟨t, j, hv, hid⟩ := (h.ids_iff k v).mp hk
      refine ⟨t, j, (h.mem_setQueue_unlink hq).mpr ⟨hv, ?_⟩, by rw [hu.order, hid]⟩
      rintro rfl
      exact hne hid.symm
  · rintro ⟨t, j, hv, rfl⟩
    obtain ⟨hvq, hne⟩ := (h.mem_setQueue_unlink hq).mp hv
    rw [hu.order]
    have hk := (h.ids_iff _ v).mpr ⟨t, j, hvq, rfl⟩
    rw [if_neg, hk]
    intro hc
    rw [hc, hfound] at hk
    exact hne (Option.some.inj hk).symm

/-- **`unlinkAndFree`** takes a queued node out of its queue and frees it. -/
theorem unlinkAndFree (h : Inv b q free) (hq : q s i = l ++ n :: r) :
    Inv (b.unlinkAndFree n) (setQueue q s i (l ++ r)) (n :: free) := by
  have hn : n ∈ q s i := by simp [hq]
  have hu := h.unlinked hn
  have hi := (h.placed s i n hn).level_lt
  obtain ⟨hbits, hbest⟩ := h.bits_unlinkAndFree hq
  obtain ⟨hwf, hmax, hsize, hfind⟩ := h.ids_unlinkAndFree hq
  have hold := h.ids_size
  exact
    { h.toSized.of_sameShape hu.shape with
      queue := h.queue_unlinkAndFree hq
      placed := by
        intro t j m hm
        exact (h.placed t j m ((h.mem_setQueue_unlink hq).mp hm).1).of_sameShape hu.shape (hu.order m)
      count_eq t j := (h.totals_unlinkAndFree hq t j).1
      qty_eq t j := (h.totals_unlinkAndFree hq t j).2
      bit_iff := hbits
      best := hbest
      chain := h.chain_unlinkAndFree hq
      free_nodup := List.nodup_cons.mpr ⟨h.free_disj s i n hn, h.free_nodup⟩
      free_lt := by
        intro m hm
        rw [hu.shape.cfg]
        rcases List.mem_cons.mp hm with rfl | hm
        · exact (h.placed s i m hn).node_lt
        · exact h.free_lt m hm
      free_disj := by
        intro t j m hm hmf
        obtain ⟨hmq, hne⟩ := (h.mem_setQueue_unlink hq).mp hm
        rcases List.mem_cons.mp hmf with rfl | hmf
        · exact hne rfl
        · exact h.free_disj t j m hmq hmf
      ids_wf := hwf
      ids_max := by rw [hmax, h.ids_max, hu.shape.cfg]
      ids_iff := hfind
      ids_size := by
        rw [hu.live]
        omega
      room := by
        have hroom := h.room
        rw [hu.live, hu.shape.cfg, List.length_cons]
        omega
      live_eq := by
        have hlen := length_flatNodes_setQueue hi q s (l ++ r)
        have hlive := h.live_eq
        rw [hu.live, hu.shape.levelsPerSide]
        rw [hq] at hlen
        simp only [List.length_append, List.length_cons] at hlen
        omega }

end Inv

/-! ## `reduceNode` -/

section ReduceNode

variable {by' : ℕ}

/-- `reduceNode` keeps the sizes. -/
theorem sameShape_reduceNode : SameShape b (b.reduceNode n by') :=
  (sameShape_modifyNode _).trans (sameShape_modifyLevel _)

/-- `reduceNode` takes shares off one order. -/
theorem node_reduceNode (by' : ℕ) (hn : n < b.nodes.length) (m : ℕ) :
    (b.reduceNode n by').node m =
      if m = n then
        { b.node n with order := { (b.node n).order with qty := (b.node n).order.qty - by' } }
      else b.node m := by
  unfold reduceNode
  dsimp only
  rw [node_modifyLevel, node_modifyNode]
  by_cases hm : m = n
  · subst hm
    rw [if_pos ⟨rfl, hn⟩, if_pos rfl]
  · rw [if_neg (fun hc => hm hc.1.symm), if_neg hm]

/-- `reduceNode` takes the shares off the level of the order too. -/
theorem Inv.level_reduceNode (h : Inv b q free) (hn : n ∈ q s i) (t : Side) (j : ℕ) :
    (b.reduceNode n by').level t j =
      if t = s ∧ j = i then { b.level s i with qty := (b.level s i).qty - by' }
      else b.level t j := by
  have hi : i < (b.ladder s).levels.length := h.levels_lt (h.placed s i n hn).level_lt
  unfold reduceNode
  dsimp only
  rw [h.indexOf_price hn, (h.placed s i n hn).side_eq, Int.toNat_natCast, level_modifyLevel,
    ladder_modifyNode, level_modifyNode, level_modifyNode]
  grind

/-- The links and ids stay. -/
theorem links_reduceNode (by' : ℕ) (hn : n < b.nodes.length) :
    (b.reduceNode n by').prevOf = b.prevOf ∧ (b.reduceNode n by').nextOf = b.nextOf ∧
      ∀ m, ((b.reduceNode n by').node m).order.id = (b.node m).order.id := by
  have hnode := node_reduceNode by' hn
  refine ⟨?_, ?_, fun m => ?_⟩
  · funext m
    rw [prevOf, prevOf, hnode]
    split <;> simp_all
  · funext m
    rw [nextOf, nextOf, hnode]
    split <;> simp_all
  · rw [hnode]
    split <;> simp_all

/-- The other queues keep their totals. -/
theorem queueQty_reduceNode_of_notMem (hn : n < b.nodes.length) {xs : List ℕ} (hxs : n ∉ xs) :
    (b.reduceNode n by').queueQty xs = b.queueQty xs := by
  refine queueQty_congr fun m hm => ?_
  rw [node_reduceNode by' hn, if_neg]
  rintro rfl
  exact hxs hm

/-- The level loses what its order loses. -/
theorem Inv.qty_reduceNode (h : Inv b q free) (hn : n ∈ q s i)
    (hlt : by' < (b.node n).order.qty) (t : Side) (j : ℕ) :
    ((b.reduceNode n by').level t j).qty = (b.reduceNode n by').queueQty (q t j) := by
  have hlen := h.nodes_lt hn
  rw [h.level_reduceNode hn]
  by_cases hts : t = s ∧ j = i
  · obtain ⟨rfl, rfl⟩ := hts
    rw [if_pos ⟨rfl, rfl⟩]
    show (b.level t j).qty - by' = _
    obtain ⟨l, r, hq⟩ := List.append_of_mem hn
    have hnd := (h.queue t j).nodup
    rw [hq, List.nodup_middle, List.nodup_cons, List.mem_append, not_or] at hnd
    rw [h.qty_eq, hq, queueQty_append, queueQty_cons, queueQty_append, queueQty_cons,
      queueQty_reduceNode_of_notMem hlen hnd.1.1, queueQty_reduceNode_of_notMem hlen hnd.1.2,
      node_reduceNode by' hlen, if_pos rfl]
    simp only
    omega
  · rw [if_neg hts, h.qty_eq]
    refine (queueQty_reduceNode_of_notMem hlen fun hm => ?_).symm
    exact hts (h.unique hn hm)

/-- **`reduceNode`** on an order that keeps some shares. -/
theorem Inv.reduceNode (h : Inv b q free) (hn : n ∈ q s i)
    (hlt : by' < (b.node n).order.qty) : Inv (b.reduceNode n by') q free := by
  have hlen := h.nodes_lt hn
  have hshape : SameShape b (b.reduceNode n by') := sameShape_reduceNode
  have hnode := node_reduceNode by' hlen
  obtain ⟨hprev, hnext, hid⟩ := links_reduceNode by' hlen
  have hladder : ∀ t, ((b.reduceNode n by').ladder t).bits = (b.ladder t).bits ∧
      ((b.reduceNode n by').ladder t).best = (b.ladder t).best := fun t => by
    unfold OrderBook.reduceNode
    simp
  have hids : (b.reduceNode n by').ids = b.ids := by simp [OrderBook.reduceNode]
  have hlive : (b.reduceNode n by').live = b.live := by simp [OrderBook.reduceNode]
  have hfree : (b.reduceNode n by').freeHead = b.freeHead := by simp [OrderBook.reduceNode]
  exact
    { h.toSized.of_sameShape hshape with
      queue := by
        intro t j
        rw [hprev, hnext, h.level_reduceNode hn]
        have hold := h.queue t j
        split
        · next hts => rw [hts.1, hts.2] at hold ⊢; exact hold
        · exact hold
      placed := by
        intro t j m hm
        by_cases hmn : m = n
        · subst hmn
          have hp := h.placed t j m hm
          refine ⟨hshape.levelsPerSide ▸ hp.level_lt, hshape.cfg ▸ hp.node_lt, ?_, ?_, ?_⟩ <;>
            rw [hnode, if_pos rfl]
          · exact hp.side_eq
          · rw [priceOf, hshape.cfg]
            exact hp.price_eq
          · show 0 < (b.node m).order.qty - by'
            omega
        · exact (h.placed t j m hm).of_sameShape hshape (by rw [hnode, if_neg hmn])
      count_eq := by
        intro t j
        rw [h.level_reduceNode hn, ← h.count_eq]
        split
        · next hts => rw [hts.1, hts.2]
        · rfl
      qty_eq := h.qty_reduceNode hn hlt
      bit_iff := by
        intro t j
        rw [(hladder t).1]
        exact h.bit_iff t j
      best := by
        intro t
        rw [(hladder t).2]
        exact h.best t
      chain := by
        rw [hnext, hfree]
        exact h.chain
      free_nodup := h.free_nodup
      free_lt := by
        rw [hshape.cfg]
        exact h.free_lt
      free_disj := h.free_disj
      ids_wf := hids ▸ h.ids_wf
      ids_max := by rw [hids, h.ids_max, hshape.cfg]
      ids_iff := by
        intro k v
        rw [hids, h.ids_iff]
        simp only [hid]
      ids_size := by rw [hids, hlive, h.ids_size]
      room := by rw [hlive, hshape.cfg, h.room]
      live_eq := by rw [hlive, hshape.levelsPerSide, h.live_eq] }

end ReduceNode

end PulseForge.OrderBook
