import PulseForge.Foundation.Machine
import PulseForge.Interface.RefBook
import PulseForge.Analysis.OrderBookSides

/-!
# The book refines the textbook book

`levelLists` reads the price levels of a side off the ladder, and `Refines` says that a
textbook book holds exactly these, with the index of the resting ids. Every call keeps the
two related and answers alike, so every run of calls on a constructed book is answered as
the textbook book answers it.
-/

set_option autoImplicit false

namespace PulseForge

open Foundation

/-! ## Levels listed by an index -/

namespace LevelMap

variable {s : Side} {p : ℤ} {F F' : ℕ → List BookOrder} {pr : ℕ → ℤ} {L : List ℕ} {i : ℕ}

/-- The non-empty levels among `L`. -/
def levelsOf (F : ℕ → List BookOrder) (pr : ℕ → ℤ) (L : List ℕ) : LevelMap :=
  (L.filter fun i => F i ≠ []).map fun i => (pr i, F i)

theorem levelsOf_cons (a : ℕ) :
    levelsOf F pr (a :: L) = consLevel (pr a) (F a) (levelsOf F pr L) := by
  unfold consLevel levelsOf
  by_cases ha : F a = []
  · rw [if_pos ha, List.filter_cons_of_neg (by simpa using ha)]
  · rw [if_neg ha, List.filter_cons_of_pos (by simpa using ha), List.map_cons]

/-- The levels depend on the queues of the indices in the list. -/
theorem levelsOf_congr (h : ∀ j ∈ L, F' j = F j) : levelsOf F' pr L = levelsOf F pr L := by
  induction L with
  | nil => rfl
  | cons a L ih =>
    rw [levelsOf_cons, levelsOf_cons, h a (by simp), ih (fun j hj => h j (by simp [hj]))]

/-- A level is listed exactly when its queue has orders. -/
theorem mem_levelsOf {lv : ℤ × List BookOrder} :
    lv ∈ levelsOf F pr L ↔ ∃ j ∈ L, F j ≠ [] ∧ lv = (pr j, F j) := by
  simp only [levelsOf, List.mem_map, List.mem_filter, decide_eq_true_eq]
  constructor
  · rintro ⟨j, ⟨hj, hne⟩, rfl⟩
    exact ⟨j, hj, hne, rfl⟩
  · rintro ⟨j, hj, hne, rfl⟩
    exact ⟨j, ⟨hj, hne⟩, rfl⟩

/-- A price better than every level starts a level in front. -/
theorem alter_of_better {f : List BookOrder → List BookOrder} {m : LevelMap}
    (h : ∀ lv ∈ m, s.better p lv.1) : alter s p f m = consLevel p (f []) m := by
  cases m with
  | nil => rfl
  | cons lv m =>
    obtain ⟨p', os⟩ := lv
    have hb : s.better p p' := h _ List.mem_cons_self
    have hne : p' ≠ p := by
      rintro rfl
      exact Side.better_irrefl s _ hb
    rw [alter, if_neg hne, if_pos hb]

/-- Changing one FIFO changes the map at its price. -/
theorem levelsOf_alter (pr : ℕ → ℤ) {f : List BookOrder → List BookOrder}
    (hsort : L.Pairwise fun i j : ℕ => s.better i j)
    (hpr : ∀ i j : ℕ, s.better (pr i) (pr j) ↔ s.better i j) (hi : i ∈ L)
    (hFi : F' i = f (F i)) (hF : ∀ j ∈ L, j ≠ i → F' j = F j) :
    levelsOf F' pr L = alter s (pr i) f (levelsOf F pr L) := by
  induction L with
  | nil => exact absurd hi (by simp)
  | cons a L ih =>
    rw [List.pairwise_cons] at hsort
    rw [levelsOf_cons, levelsOf_cons]
    by_cases hai : a = i
    · subst hai
      have hnot : ∀ j ∈ L, j ≠ a := by
        rintro j hj rfl
        exact Side.better_irrefl s _ (hsort.1 j hj)
      have hworse : ∀ lv ∈ levelsOf F pr L, s.better (pr a) lv.1 := by
        intro lv hlv
        obtain ⟨j, hj, -, rfl⟩ := mem_levelsOf.mp hlv
        exact (hpr a j).mpr (hsort.1 j hj)
      rw [levelsOf_congr fun j hj => hF j (by simp [hj]) (hnot j hj), hFi]
      by_cases hnil : F a = []
      · rw [hnil, consLevel, consLevel, if_pos rfl, alter_of_better hworse, consLevel]
      · rw [consLevel.eq_def _ (F a), if_neg hnil, alter, if_pos rfl]
    · have hmem : i ∈ L := by
        rcases List.mem_cons.mp hi with h | h
        · exact absurd h.symm hai
        · exact h
      have hb : s.better (pr a) (pr i) := (hpr a i).mpr (hsort.1 i hmem)
      have hne : pr a ≠ pr i := by
        intro hc
        rw [hc] at hb
        exact Side.better_irrefl s _ hb
      rw [ih hsort.2 hmem (fun j hj => hF j (by simp [hj])), hF a (by simp) hai]
      by_cases hnil : F a = []
      · rw [hnil, consLevel, consLevel, if_pos rfl, if_pos rfl]
      · rw [consLevel, consLevel, if_neg hnil, if_neg hnil, alter, if_neg hne,
          if_neg (Side.better_asymm hb)]

/-- A price of no level has no orders. -/
theorem fifoAt_eq_nil {m : LevelMap} (h : ∀ lv ∈ m, lv.1 ≠ p) : fifoAt p m = [] := by
  induction m with
  | nil => rfl
  | cons lv m ih =>
    rw [fifoAt, if_neg (h lv List.mem_cons_self), ih fun lv hlv => h lv (List.mem_cons_of_mem _ hlv)]

/-- The queue found at a price is that of its index. -/
theorem fifoAt_levelsOf (pr : ℕ → ℤ) (hinj : ∀ i j : ℕ, pr i = pr j → i = j) (hi : i ∈ L) :
    fifoAt (pr i) (levelsOf F pr L) = F i := by
  induction L with
  | nil => exact absurd hi (by simp)
  | cons a L ih =>
    rw [levelsOf_cons]
    by_cases hai : a = i
    · subst hai
      unfold consLevel
      split
      · next hnil =>
        by_cases hmem : a ∈ L
        · exact ih hmem
        · rw [hnil]
          apply fifoAt_eq_nil
          intro lv hlv hc
          obtain ⟨j, hj, -, rfl⟩ := mem_levelsOf.mp hlv
          exact hmem (hinj j a hc ▸ hj)
      · rw [fifoAt, if_pos rfl]
    · have hmem : i ∈ L := by
        rcases List.mem_cons.mp hi with h | h
        · exact absurd h.symm hai
        · exact h
      unfold consLevel
      split
      · exact ih hmem
      · rw [fifoAt, if_neg (fun hc => hai (hinj a i hc)), ih hmem]

end LevelMap

/-! ## The levels of a book -/

namespace OrderBook

variable {b b' : OrderBook} {s t : Side} {o : BookOrder}

/-- The price levels of a side, best first. -/
def levelLists (b : OrderBook) (s : Side) : LevelMap :=
  (b.walkLevels s (b.levelsPerSide + 1) (b.ladder s).best).map fun i : ℕ =>
    (b.priceOf i, b.fifo s i)

/-- The walk visits the levels with orders, best first. -/
theorem walkLevels_fifo (h : WF b) (s : Side) {fuel : ℕ} (hf : b.levelsPerSide < fuel) :
    b.walkLevels s fuel (b.ladder s).best =
      (ladderOrder s b.levelsPerSide).filter fun i => b.fifo s i ≠ [] := by
  obtain ⟨q, free, h⟩ := h
  have hq : ∀ i, (q s i ≠ []) = (b.fifo s i ≠ []) := fun i => by
    rw [ne_eq, ne_eq, h.fifo_eq_nil_iff]
  simp only [← hq]
  refine h.walkLevels_eq s (pairwise_ladderOrder s _) ?_ ?_ (by rwa [length_ladderOrder])
  · refine (h.best s).congr fun i => ?_
    rw [mem_ladderOrder]
    exact ⟨fun hi => ⟨h.lt_of_ne_nil hi, hi⟩, fun hi => hi.2⟩
  · intro i _ j hj _
    exact mem_ladderOrder.mpr (h.lt_of_ne_nil hj)

/-- The levels of a book, read off the queues. -/
theorem levelLists_eq (h : WF b) (s : Side) :
    b.levelLists s =
      LevelMap.levelsOf (b.fifo s) (fun i => b.priceOf i) (ladderOrder s b.levelsPerSide) := by
  rw [levelLists, walkLevels_fifo h s (Nat.lt_succ_self _), LevelMap.levelsOf]

/-- Levels of the ladder have different prices. -/
theorem priceOf_natCast_inj (h : WF b) (i j : ℕ) (hp : b.priceOf i = b.priceOf j) : i = j := by
  have := priceOf_inj (accepted h) hp
  omega

/-- The orders of the levels are the orders of the side. -/
theorem orders_levelLists (h : WF b) (s : Side) :
    LevelMap.orders (b.levelLists s) = b.orders s := by
  rw [levelLists_eq h, orders_eq_fifo h]
  induction ladderOrder s b.levelsPerSide with
  | nil => rfl
  | cons i L ih =>
    rw [LevelMap.levelsOf_cons, List.flatMap_cons, ← ih, LevelMap.consLevel]
    split
    · next hnil => rw [hnil, List.nil_append]
    · rfl

/-- The level at an order's price is the one the order rests at. -/
theorem fifoAt_of_mem (h : WF b) {i : ℕ} (ho : o ∈ b.fifo s i) :
    LevelMap.fifoAt o.price (b.levelLists s) = b.fifo s i := by
  have hr := resting_of_mem h ho
  rw [levelLists_eq h, hr.price_eq]
  exact LevelMap.fifoAt_levelsOf (fun i => b.priceOf i) (priceOf_natCast_inj h)
    (mem_ladderOrder.mpr hr.level_lt)

/-- The record of a level holds the totals of its orders. -/
theorem level_totals (h : WF b) (s : Side) (i : ℕ) :
    (b.level s i).qty = LevelMap.totalQty (b.fifo s i) ∧
      (b.level s i).count = (b.fifo s i).length := by
  obtain ⟨q, free, h⟩ := h
  rw [h.qty_eq, h.count_eq, h.fifo_eq, LevelMap.totalQty, List.map_map, List.length_map]
  exact ⟨rfl, rfl⟩

/-- The level totals fit the source's `uint64_t` when every quantity fits 32 bits. -/
theorem levelQty_lt (h : WF b) (hq : ∀ s, ∀ o ∈ b.orders s, o.qty < 2 ^ 32) (s : Side) (i : ℕ) :
    (b.level s i).qty < 2 ^ 64 := by
  have hlen : (b.fifo s i).length ≤ 2 ^ 32 - 1 := by
    obtain ⟨q, free, h⟩ := h
    have h1 := h.length_queue_le s i
    have h2 := h.cfg.orders_lt
    rw [h.nodes_len] at h1
    rw [h.fifo_eq, List.length_map]
    simp only [kNil] at h2
    omega
  have hsum : ∀ l : List BookOrder, (∀ o ∈ l, o.qty < 2 ^ 32) →
      LevelMap.totalQty l ≤ l.length * (2 ^ 32 - 1) := by
    intro l hl
    have := List.sum_le_card_nsmul (l.map BookOrder.qty) (2 ^ 32 - 1) (by
      intro x hx
      obtain ⟨o, ho, rfl⟩ := List.mem_map.mp hx
      have := hl o ho
      omega)
    simpa [LevelMap.totalQty] using this
  have hle := hsum (b.fifo s i) fun o ho => hq s o ((mem_orders_iff h).mpr ⟨i, ho⟩)
  rw [(level_totals h s i).1]
  calc LevelMap.totalQty (b.fifo s i) ≤ (b.fifo s i).length * (2 ^ 32 - 1) := hle
    _ ≤ (2 ^ 32 - 1) * (2 ^ 32 - 1) := Nat.mul_le_mul_right _ hlen
    _ < 2 ^ 64 := by norm_num

/-- A walk of fewer levels is the front of a longer one. -/
theorem walkLevels_take (b : OrderBook) (s : Side) (k m : ℕ) (idx : ℤ) :
    b.walkLevels s (min k m) idx = (b.walkLevels s m idx).take k := by
  induction k generalizing m idx with
  | zero => simp [walkLevels]
  | succ k ih =>
    cases m with
    | zero => simp [walkLevels]
    | succ m =>
      rw [Nat.succ_min_succ, walkLevels, walkLevels]
      split
      · rfl
      · rw [List.take_succ_cons, ih]

/-- `for_each_level` shows the levels that the walk visits. -/
theorem forEachLevelFrom_eq (h : WF b) (s : Side) (k : ℕ) (idx : ℤ) :
    b.forEachLevelFrom s k idx =
      (b.walkLevels s k idx).map fun i : ℕ => LevelMap.view (b.priceOf i, b.fifo s i) := by
  induction k generalizing idx with
  | zero => rfl
  | succ k ih =>
    rw [forEachLevelFrom, walkLevels]
    split
    · rfl
    · next hneg =>
      obtain ⟨hqty, hcount⟩ := level_totals h s idx.toNat
      rw [List.map_cons, ih]
      simp only [LevelMap.view, hqty, hcount, Int.toNat_of_nonneg (not_lt.mp hneg)]

/-- **`for_each_level`** visits the first levels. -/
theorem forEachLevel_eq (h : WF b) (s : Side) (k : ℕ) :
    b.forEachLevel s k = ((b.levelLists s).take k).map LevelMap.view := by
  rw [forEachLevel, forEachLevelFrom_eq h, levelLists, ← List.map_take, List.map_map]
  congr 1
  by_cases hk : k ≤ b.levelsPerSide + 1
  · rw [← walkLevels_take, Nat.min_eq_left hk]
  · -- more levels are asked for than the ladder has
    rw [walkLevels_fifo h s (by omega), walkLevels_fifo h s (by omega), List.take_of_length_le]
    refine (List.length_filter_le _ _).trans ?_
    rw [length_ladderOrder]
    omega

/-- **The best level** heads the list. -/
theorem head?_levelLists (b : OrderBook) (s : Side) :
    (b.levelLists s).head? =
      if (b.ladder s).best < 0 then none
      else some (b.bestPrice s, b.fifo s (b.ladder s).best.toNat) := by
  rw [levelLists, walkLevels]
  split
  · rfl
  · next hneg =>
    rw [List.map_cons, List.head?_cons, bestPrice, Int.toNat_of_nonneg (not_lt.mp hneg)]

/-- **`level_at`**. -/
theorem levelAt_eq (h : WF b) (s : Side) (p : ℤ) :
    b.levelAt s p = LevelMap.view (p, LevelMap.fifoAt p (b.levelLists s)) := by
  rw [levelAt]
  by_cases hv : b.validPrice p = true
  · obtain ⟨i, hi, rfl⟩ := (validPrice_iff (accepted h)).mp hv
    rw [if_neg (by simp [hv]), indexOf_priceOf (accepted h), Int.toNat_natCast, levelLists_eq h,
      LevelMap.fifoAt_levelsOf (fun i => b.priceOf i) (priceOf_natCast_inj h)
        (mem_ladderOrder.mpr (levelsPerSide_eq h ▸ hi))]
    obtain ⟨hqty, hcount⟩ := level_totals h s i
    simp only [LevelMap.view, hqty, hcount]
  · have hnil : LevelMap.fifoAt p (b.levelLists s) = [] := by
      apply LevelMap.fifoAt_eq_nil
      rw [levelLists_eq h]
      intro lv hlv hc
      obtain ⟨j, hj, -, rfl⟩ := LevelMap.mem_levelsOf.mp hlv
      apply hv
      rw [← hc, validPrice_iff (accepted h), ← levelsPerSide_eq h]
      exact ⟨j, mem_ladderOrder.mp hj, rfl⟩
    rw [if_pos (by simpa using hv), hnil]
    rfl

/-! ## The relation -/

/-- The textbook book `r` holds what the book `b` holds. -/
structure Refines (b : OrderBook) (r : RefBook) : Prop where
  wf : WF b
  cfg_eq : r.cfg = b.cfg
  side_eq : ∀ s, r.side s = b.levelLists s
  index_eq : ∀ id, r.index.lookup id = (b.find id).map fun o => (o.side, o.price)

/-- The reference checks a price as the book does. -/
theorem onGrid_iff (b : OrderBook) (p : ℤ) : b.cfg.onGrid p ↔ b.validPrice p = true := by
  simp only [BookConfig.onGrid, validPrice, Bool.and_eq_true, decide_eq_true_eq, beq_iff_eq,
    Int.dvd_iff_emod_eq_zero, and_assoc]

namespace Refines

variable {r : RefBook}

/-- Both books find the same order. -/
theorem find_eq (h : Refines b r) (id : ℕ) : r.find id = b.find id := by
  rw [RefBook.find, h.index_eq]
  cases hf : b.find id with
  | none => rfl
  | some o =>
    obtain ⟨s, ho, rfl⟩ := (find_eq_some_iff h.wf).mp hf
    obtain ⟨i, ho⟩ := (mem_orders_iff h.wf).mp ho
    have hside := (resting_of_mem h.wf ho).side_eq
    simp only [Option.map_some]
    rw [h.side_eq, hside, fifoAt_of_mem h.wf ho]
    exact (find?_key_eq_some_iff (nodup_fifo h.wf s i)).mpr ⟨ho, rfl⟩

/-- Both books list the same orders. -/
theorem orders_eq (h : Refines b r) (s : Side) : LevelMap.orders (r.side s) = b.orders s := by
  rw [h.side_eq, orders_levelLists h.wf]

/-- Both books have the same order in front. -/
theorem front_eq (h : Refines b r) (s : Side) : r.front s = b.front s := by
  rw [RefBook.front, h.orders_eq, front_eq_head? h.wf]

/-- The index of the reference has the ids that the book finds. -/
theorem mem_index_iff (h : Refines b r) (id : ℕ) : id ∈ r.index ↔ b.find id ≠ none := by
  rw [← Finmap.lookup_isSome, h.index_eq, Option.isSome_map, Option.isSome_iff_ne_none]

/-- Both books count the same orders. -/
theorem orderCount_eq (h : Refines b r) : r.orderCount = b.orderCount := by
  have hkeys : r.index.keys = (b.forEachOrder.map BookOrder.id).toFinset := by
    ext id
    rw [Finmap.mem_keys, h.mem_index_iff, List.mem_toFinset, List.mem_map, ne_eq,
      find_eq_none_iff h.wf, forEachOrder]
    push Not
    simp only [List.mem_append]
    constructor
    · rintro ⟨s, o, ho, hid⟩
      refine ⟨o, ?_, hid⟩
      cases s
      · exact .inl ho
      · exact .inr ho
    · rintro ⟨o, ho | ho, hid⟩
      · exact ⟨.buy, o, ho, hid⟩
      · exact ⟨.sell, o, ho, hid⟩
  rw [RefBook.orderCount, hkeys, List.toFinset_card_of_nodup (nodup_orders h.wf), List.length_map,
    (OrderBook.orderCount_eq h.wf).1]

/-- Both books refuse alike. -/
theorem add_answer (h : Refines b r) (id : ℕ) (s : Side) (price : ℤ) (qty owner userRef : ℕ) :
    (r.add id s price qty owner userRef).2 = b.addAnswer id price qty := by
  simp only [RefBook.add, addAnswer, h.cfg_eq, onGrid_iff b, h.orderCount_eq, h.mem_index_iff,
    FlatIdMap.kEmpty, Bool.not_eq_true]
  split_ifs <;> simp_all

/-- A change of one side leaves the other alone. -/
theorem side_alter (s t : Side) (p : ℤ) (f : List BookOrder → List BookOrder)
    (index : Finmap fun _ : ℕ => Side × ℤ) :
    ({ r.alter s p f with index := index } : RefBook).side t =
      if t = s then LevelMap.alter s p f (r.side s) else r.side t := by
  cases s <;> cases t <;> rfl

/-- A change of a level keeps the configuration. -/
theorem cfg_alter (s : Side) (p : ℤ) (f : List BookOrder → List BookOrder) :
    (r.alter s p f).cfg = r.cfg := by
  cases s <;> rfl

/-- The levels of a book after a change to the FIFO of one price. -/
theorem levelLists_alter (h : WF b) (h' : WF b') (hcfg : b'.cfg = b.cfg) {i : ℕ}
    (hi : i < b.levelsPerSide) {f : List BookOrder → List BookOrder}
    (hfi : b'.fifo s i = f (b.fifo s i))
    (hf : ∀ t j, ¬ (t = s ∧ j = i) → b'.fifo t j = b.fifo t j) (t : Side) :
    b'.levelLists t =
      if t = s then LevelMap.alter s (b.priceOf i) f (b.levelLists s) else b.levelLists t := by
  have hlev : b'.levelsPerSide = b.levelsPerSide := by
    rw [levelsPerSide_eq h', levelsPerSide_eq h, hcfg]
  have hpr : (fun i : ℕ => b'.priceOf i) = fun i : ℕ => b.priceOf i := by
    funext i
    rw [priceOf, priceOf, hcfg]
  rw [levelLists_eq h', levelLists_eq h, levelLists_eq h, hlev, hpr]
  by_cases hts : t = s
  · subst hts
    rw [if_pos rfl]
    exact LevelMap.levelsOf_alter (fun i : ℕ => b.priceOf i) (pairwise_ladderOrder t _)
      (fun i j => better_priceOf_iff (accepted h) t i j) (mem_ladderOrder.mpr hi) hfi
      (fun j _ hj => hf t j fun hc => hj hc.2)
  · rw [if_neg hts]
    exact LevelMap.levelsOf_congr fun j _ => hf t j fun hc => hts hc.1

/-- **`add`**, step by step. -/
theorem add_step (h : Refines b r) (id : ℕ) (s : Side) (price : ℤ) (qty owner userRef : ℕ) :
    (b.add id s price qty owner userRef).2 = (r.add id s price qty owner userRef).2 ∧
      Refines (b.add id s price qty owner userRef).1 (r.add id s price qty owner userRef).1 := by
  rw [h.add_answer]
  by_cases hok : b.addAnswer id price qty = .ok
  · obtain ⟨b', i, hadd, h', hcfg, hi, hprice, hfifo⟩ :=
      add_of_ok h.wf s owner userRef hok
    obtain ⟨b'', hadd', -, -, hord⟩ :=
      add_orders h.wf s owner userRef hok
    obtain rfl : b' = b'' := by rw [hadd] at hadd'; exact (Prod.mk.inj hadd').1
    have hr : r.add id s price qty owner userRef =
        ({ r.alter s price (· ++ [⟨id, price, qty, owner, userRef, s⟩]) with
            index := r.index.insert id (s, price) }, .ok) := by
      have hans := h.add_answer id s price qty owner userRef
      rw [hok] at hans
      unfold RefBook.add at hans ⊢
      split_ifs at hans ⊢
      rfl
    have hfresh : b.find id = none := by
      unfold addAnswer at hok
      split_ifs at hok with h1 h2 h3 h4
      exact not_not.mp (not_or.mp h4).2
    rw [hadd, hr, hok]
    refine ⟨rfl, h', ?_, fun t => ?_, fun k => ?_⟩
    · rw [cfg_alter, h.cfg_eq, hcfg]
    · have hlists := levelLists_alter (s := s) h.wf h' hcfg hi
        (f := (· ++ [⟨id, price, qty, owner, userRef, s⟩]))
        (by rw [hfifo, pushFifo, if_pos ⟨rfl, rfl⟩])
        (fun t j hts => by rw [hfifo, pushFifo, if_neg hts]) t
      rw [side_alter, h.side_eq, h.side_eq, hlists, hprice]
    · rw [find_of_insertIn h.wf h' (o := ⟨id, price, qty, owner, userRef, s⟩) ?_ hfresh]
      · by_cases hk : k = id
        · subst hk
          simp [Finmap.lookup_insert]
        · simp only [if_neg hk]
          rw [Finmap.lookup_insert_of_ne _ hk, h.index_eq]
      · intro t
        rw [hord]
        split
        · next hts => rw [hts]
        · rfl
  · rw [add_of_refused h.wf hok]
    refine ⟨rfl, ?_⟩
    have hr : (r.add id s price qty owner userRef).1 = r := by
      have hans := h.add_answer id s price qty owner userRef
      rw [← hans] at hok
      unfold RefBook.add at hok ⊢
      split_ifs at hok ⊢ <;> first | rfl | exact absurd rfl hok
    rw [hr]
    exact h

/-- **Dropping a resting order.** -/
theorem drop_step (h : Refines b r) (h' : WF b') (hcfg : b'.cfg = b.cfg) {id : ℕ}
    (hf : b.find id = some o) (hfifo : ∀ t j, b'.fifo t j = dropId id (b.fifo t j)) :
    Refines b' (r.drop o) := by
  obtain ⟨s, ho, rfl⟩ := (find_eq_some_iff h.wf).mp hf
  obtain ⟨i, ho⟩ := (mem_orders_iff h.wf).mp ho
  have hr := resting_of_mem h.wf ho
  refine ⟨h', ?_, fun t => ?_, fun k => ?_⟩
  · rw [RefBook.drop, cfg_alter, h.cfg_eq, hcfg]
  · rw [RefBook.drop, side_alter, h.side_eq, h.side_eq,
      levelLists_alter (s := s) h.wf h' hcfg hr.level_lt (f := dropId o.id) (hfifo s i), hr.side_eq,
      hr.price_eq]
    · rfl
    · intro t j hts
      rw [hfifo]
      apply dropId_of_notMem
      intro x hx hid
      obtain ⟨-, rfl, rfl⟩ := eq_of_id_eq h.wf hx ho hid
      exact hts ⟨rfl, rfl⟩
  · rw [find_of_dropId h.wf h' (orders_of_dropId h.wf h' hcfg hfifo)]
    show (r.index.erase o.id).lookup k = _
    by_cases hk : k = o.id
    · subst hk
      simp [Finmap.lookup_erase]
    · rw [Finmap.lookup_erase_ne hk, h.index_eq, if_neg hk]

/-- **Taking shares off a resting order.** -/
theorem take_step (h : Refines b r) {id by' : ℕ} (hf : b.find id = some o) (hle : by' ≤ o.qty) :
    Refines (b.reduce id by').1 (r.take o by') ∧ (b.reduce id by').2 = true := by
  unfold RefBook.take
  by_cases heq : by' = o.qty
  · obtain ⟨b', hb', h', hcfg, hfifo⟩ := reduce_of_eq h.wf hf heq
    rw [if_pos heq, hb']
    exact ⟨h.drop_step h' hcfg hf hfifo, rfl⟩
  · obtain ⟨b', hb', h', hcfg, hfifo⟩ := reduce_of_gt h.wf hf (lt_of_le_of_ne hle heq)
    obtain ⟨s, ho, rfl⟩ := (find_eq_some_iff h.wf).mp hf
    obtain ⟨i, ho⟩ := (mem_orders_iff h.wf).mp ho
    have hr := resting_of_mem h.wf ho
    rw [if_neg heq, hb']
    refine ⟨⟨h', ?_, fun t => ?_, fun k => ?_⟩, rfl⟩
    · rw [cfg_alter, h.cfg_eq, hcfg]
    · have halter := side_alter (r := r) o.side t o.price (reduceId o.id by')
        (r.alter o.side o.price (reduceId o.id by')).index
      refine halter.trans ?_
      rw [h.side_eq, h.side_eq,
        levelLists_alter (s := s) h.wf h' hcfg hr.level_lt (f := reduceId o.id by') (hfifo s i),
        hr.side_eq, hr.price_eq]
      intro t j hts
      rw [hfifo]
      apply reduceId_of_notMem
      intro x hx hid
      obtain ⟨-, rfl, rfl⟩ := eq_of_id_eq h.wf hx ho hid
      exact hts ⟨rfl, rfl⟩
    · rw [find_of_reduceId h.wf h' (orders_of_reduceId h.wf h' hcfg hfifo), Option.map_map]
      have hindex : (r.alter o.side o.price fun os => os.map fun x =>
          if x.id = o.id then { x with qty := x.qty - by' } else x).index = r.index := by
        cases o.side <;> rfl
      rw [hindex, h.index_eq]
      congr 1
      funext x
      simp only [Function.comp_apply]
      split <;> rfl

/-- A side is empty in both books or in none. -/
theorem isEmpty_side (h : Refines b r) (s : Side) : (r.side s).isEmpty = b.empty s := by
  have hhead := head?_levelLists b s
  rw [← h.side_eq] at hhead
  unfold empty
  cases hs : r.side s with
  | nil =>
    rw [hs] at hhead
    split at hhead
    · next hneg => simp [hneg]
    · exact absurd hhead (by simp)
  | cons lv m =>
    rw [hs] at hhead
    split at hhead
    · exact absurd hhead (by simp)
    · next hneg => simp [hneg]

/-- Both books show the same best level. -/
theorem best_eq (h : Refines b r) (s : Side) :
    r.best s = if b.empty s then none else some ⟨b.bestPrice s, b.bestQty s, b.bestCount s⟩ := by
  obtain ⟨hqty, hcount⟩ := level_totals h.wf s (b.ladder s).best.toNat
  rw [RefBook.best, h.side_eq, head?_levelLists, empty, bestQty, bestCount]
  by_cases hneg : (b.ladder s).best < 0
  · simp [hneg]
  · simp only [hneg, decide_false, if_false, Option.map_some, LevelMap.view, hqty, hcount,
      Bool.false_eq_true]

/-- **`reduce`.** -/
theorem reduce_step (h : Refines b r) (id by' : ℕ) :
    (b.reduce id by').2 = (r.reduce id by').2 ∧ Refines (b.reduce id by').1 (r.reduce id by').1 := by
  rw [RefBook.reduce, h.find_eq]
  cases hf : b.find id with
  | none =>
    rw [reduce_of_unknown by' hf]
    exact ⟨rfl, h⟩
  | some o =>
    by_cases hlt : o.qty < by'
    · rw [reduce_of_lt hf hlt]
      simp only [if_pos hlt]
      exact ⟨trivial, h⟩
    · obtain ⟨href, hans⟩ := h.take_step hf (not_lt.mp hlt)
      simp only [if_neg hlt]
      exact ⟨hans, href⟩

/-- **`remove`.** -/
theorem remove_step (h : Refines b r) (id : ℕ) :
    (b.remove id).2 = (r.remove id).2 ∧ Refines (b.remove id).1 (r.remove id).1 := by
  rw [RefBook.remove, h.find_eq]
  cases hf : b.find id with
  | none =>
    rw [remove_of_unknown hf]
    exact ⟨rfl, h⟩
  | some o =>
    obtain ⟨b', hb', h', hcfg, hfifo⟩ := remove_of_found h.wf hf
    rw [hb']
    exact ⟨rfl, h.drop_step h' hcfg hf hfifo⟩

/-- An empty book and a new textbook book. -/
theorem of_empty (h : WF b) (hfifo : ∀ t j, b.fifo t j = []) : Refines b (RefBook.new b.cfg) := by
  refine ⟨h, rfl, fun s => ?_, fun id => ?_⟩
  · rw [levelLists_eq h, LevelMap.levelsOf, List.filter_eq_nil_iff.mpr]
    · cases s <;> rfl
    · intro i _
      simp [hfifo]
  · have hnone : b.find id = none := by
      rw [find_eq_none_iff h]
      intro s o ho
      obtain ⟨i, ho⟩ := (mem_orders_iff h).mp ho
      rw [hfifo] at ho
      exact absurd ho (by simp)
    rw [hnone]
    rfl

/-- Taking shares keeps the configuration. -/
theorem cfg_take (r : RefBook) (o : BookOrder) (by' : ℕ) : (r.take o by').cfg = r.cfg := by
  unfold RefBook.take RefBook.drop
  split_ifs
  · exact cfg_alter ..
  · exact cfg_alter ..

/-- No call changes the configuration. -/
theorem cfg_call (r : RefBook) (op : BookOp) : (r.call op).1.cfg = r.cfg := by
  cases op with
  | add id side price qty owner userRef =>
    simp only [RefBook.call, RefBook.add]
    split_ifs <;> simp [cfg_alter]
  | reduce id by' =>
    simp only [RefBook.call, RefBook.reduce]
    split
    · rfl
    · split_ifs
      · rfl
      · exact cfg_take ..
  | remove id =>
    simp only [RefBook.call, RefBook.remove]
    split
    · rfl
    · exact cfg_alter ..
  | reduceFront side by' =>
    simp only [RefBook.call]
    split
    · rfl
    · split_ifs
      · exact cfg_take ..
      · rfl
  | _ => rfl

/-- **One call**: the answers agree and the books stay related. -/
theorem call_step (h : Refines b r) (op : BookOp) :
    (b.call op).2 = (r.call op).2 ∧ Refines (b.call op).1 (r.call op).1 := by
  cases op with
  | add id side price qty owner userRef =>
    obtain ⟨hans, href⟩ := h.add_step id side price qty owner userRef
    exact ⟨congrArg BookAnswer.added hans, href⟩
  | reduce id by' =>
    obtain ⟨hans, href⟩ := h.reduce_step id by'
    exact ⟨congrArg BookAnswer.done hans, href⟩
  | remove id =>
    obtain ⟨hans, href⟩ := h.remove_step id
    exact ⟨congrArg BookAnswer.done hans, href⟩
  | reduceFront side by' =>
    simp only [OrderBook.call, RefBook.call, h.front_eq]
    cases hf : b.front side with
    | none => exact ⟨rfl, h⟩
    | some o =>
      by_cases hle : by' ≤ o.qty
      · obtain ⟨hred, hfind⟩ := reduceFront_eq_reduce h.wf hf hle
        simp only [if_pos hle, hred]
        exact ⟨trivial, (h.take_step hfind hle).1⟩
      · simp only [if_neg hle]
        exact ⟨trivial, h⟩
  | clear =>
    obtain ⟨h', hcfg, hfifo⟩ := clear_wf h.wf
    refine ⟨rfl, ?_⟩
    show Refines b.clear (RefBook.new r.cfg)
    rw [h.cfg_eq, ← hcfg]
    exact of_empty h' hfifo
  | find id => exact ⟨congrArg BookAnswer.order (h.find_eq id).symm, h⟩
  | front side => exact ⟨congrArg BookAnswer.order (h.front_eq side).symm, h⟩
  | empty side => exact ⟨congrArg BookAnswer.done (h.isEmpty_side side).symm, h⟩
  | bestPrice side =>
    refine ⟨?_, h⟩
    simp only [OrderBook.call, RefBook.call, h.best_eq]
    split <;> rfl
  | bestQty side =>
    refine ⟨?_, h⟩
    simp only [OrderBook.call, RefBook.call, h.best_eq, empty, bestQty]
    by_cases hneg : (b.ladder side).best < 0 <;> simp [hneg]
  | bestCount side =>
    refine ⟨?_, h⟩
    simp only [OrderBook.call, RefBook.call, h.best_eq, empty, bestCount]
    by_cases hneg : (b.ladder side).best < 0 <;> simp [hneg]
  | levelAt side price =>
    refine ⟨?_, h⟩
    simp only [OrderBook.call, RefBook.call, RefBook.levelAt, h.side_eq, levelAt_eq h.wf]
  | forEachLevel side maxLevels =>
    refine ⟨?_, h⟩
    simp only [OrderBook.call, RefBook.call, h.side_eq, forEachLevel_eq h.wf]
  | forEachOrder =>
    refine ⟨congrArg BookAnswer.orders ?_, h⟩
    rw [forEachOrder, ← h.orders_eq, ← h.orders_eq]
    rfl
  | orderCount => exact ⟨congrArg BookAnswer.count h.orderCount_eq.symm, h⟩

end Refines

/-- A new book refines a new textbook book. -/
theorem refines_new {cfg : BookConfig} (h : OrderBook.new cfg = .ok b) :
    Refines b (RefBook.new cfg) := by
  obtain ⟨hwf, rfl, hfifo⟩ := new_wf h
  exact Refines.of_empty hwf hfifo

/-- Every reachable book is well-formed. -/
theorem wf_run {cfg : BookConfig} (h : OrderBook.new cfg = .ok b) (ops : List BookOp) :
    WF (run OrderBook.call b ops).1 ∧ (run OrderBook.call b ops).1.cfg = cfg := by
  obtain ⟨-, href⟩ := run_sim Refines (fun s t op hst => Refines.call_step hst op) ops
    (refines_new h)
  refine ⟨href.wf, href.cfg_eq.symm.trans ?_⟩
  have hrun : ∀ (ops : List BookOp) (r : RefBook), (run RefBook.call r ops).1.cfg = r.cfg := by
    intro ops
    induction ops with
    | nil => exact fun _ => rfl
    | cons op ops ih =>
      intro r
      rw [run_cons, ih, Refines.cfg_call]
  exact hrun ops _

/-- What `add` answers to a valid order while there is room (`max_orders` bounds the id map
too, so it is never the map that refuses). -/
theorem add_answer_of_room (h : WF b) {id qty owner userRef : ℕ} {price : ℤ}
    (hprice : b.cfg.onGrid price) (hqty : qty ≠ 0) (hroom : b.orderCount < b.cfg.maxOrders) :
    (b.add id s price qty owner userRef).2 =
      if id = 0 ∨ b.find id ≠ none then .duplicateId else .ok := by
  have hans : b.addAnswer id price qty =
      if id = 0 ∨ b.find id ≠ none then .duplicateId else .ok := by
    rw [addAnswer, if_neg (by simp [(onGrid_iff b price).mp hprice]), if_neg hqty,
      if_neg (by omega)]
    rfl
  rw [← hans]
  by_cases hok : b.addAnswer id price qty = .ok
  · obtain ⟨b', hadd, -⟩ := add_orders h s owner userRef hok
    rw [hadd, hok]
  · rw [add_of_refused h hok]

/-- A call that fails leaves the book as it is. -/
theorem failed_unchanged (h : WF b) :
    (∀ id s price qty owner userRef, (b.add id s price qty owner userRef).2 ≠ .ok →
      (b.add id s price qty owner userRef).1 = b) ∧
    (∀ id by', (b.reduce id by').2 = false → (b.reduce id by').1 = b) ∧
    ∀ id, (b.remove id).2 = false → (b.remove id).1 = b := by
  refine ⟨fun id s price qty owner userRef hne => ?_, fun id by' hfail => ?_, fun id hfail => ?_⟩
  · by_cases hok : b.addAnswer id price qty = .ok
    · obtain ⟨b', hadd, -⟩ := add_orders h s owner userRef hok
      rw [hadd] at hne
      exact absurd rfl hne
    · rw [add_of_refused h hok]
  · unfold reduce at hfail ⊢
    split at hfail
    · rfl
    · split_ifs at hfail ⊢
      rfl
  · unfold remove at hfail ⊢
    split at hfail
    · rfl
    · exact absurd hfail (by simp)

/-- **The book refines the textbook book.** On every book the constructor returns, every run
of calls is answered as the textbook book answers it. In every book reached, `add` of a
valid order while there is room answers `DuplicateId` exactly for id `0` and the resting
ids, a call that fails changes nothing, and after `clear` every run is answered as on the
new book. -/
theorem run_refines_refBook {cfg : BookConfig} (hnew : OrderBook.new cfg = .ok b)
    (ops : List BookOp) :
    (run OrderBook.call b ops).2 = (run RefBook.call (RefBook.new cfg) ops).2 ∧
    (∀ id s price qty owner userRef, cfg.onGrid price → qty ≠ 0 →
      (run OrderBook.call b ops).1.orderCount < cfg.maxOrders →
      ((run OrderBook.call b ops).1.add id s price qty owner userRef).2 =
        if id = 0 ∨ (run OrderBook.call b ops).1.find id ≠ none then .duplicateId else .ok) ∧
    ((∀ id s price qty owner userRef,
        ((run OrderBook.call b ops).1.add id s price qty owner userRef).2 ≠ .ok →
        ((run OrderBook.call b ops).1.add id s price qty owner userRef).1 =
          (run OrderBook.call b ops).1) ∧
      (∀ id by', ((run OrderBook.call b ops).1.reduce id by').2 = false →
        ((run OrderBook.call b ops).1.reduce id by').1 = (run OrderBook.call b ops).1) ∧
      ∀ id, ((run OrderBook.call b ops).1.remove id).2 = false →
        ((run OrderBook.call b ops).1.remove id).1 = (run OrderBook.call b ops).1) ∧
    ∀ later, (run OrderBook.call (run OrderBook.call b ops).1.clear later).2 =
      (run OrderBook.call b later).2 := by
  have hstep := fun s t op (hst : Refines s t) => Refines.call_step hst op
  obtain ⟨hwf, hcfg⟩ := wf_run hnew ops
  refine ⟨(run_sim Refines hstep ops (refines_new hnew)).1, ?_, failed_unchanged hwf, ?_⟩
  · intro id s price qty owner userRef hprice hqty hroom
    exact add_answer_of_room hwf (hcfg ▸ hprice) hqty (hcfg ▸ hroom)
  · intro later
    obtain ⟨hwf', hcfg', hfifo⟩ := clear_wf hwf
    have href := Refines.of_empty hwf' hfifo
    rw [hcfg', hcfg] at href
    rw [(run_sim Refines hstep later href).1, (run_sim Refines hstep later (refines_new hnew)).1]

/-- Three levels and two orders: a run in which both orders share a level, the pool is full,
the front is consumed and its node is used again. -/
theorem run_refines_refBook_three :
    ∃ b, OrderBook.new ⟨0, 2, 1, 2⟩ = .ok b ∧
      (run OrderBook.call b [.add 7 .buy 1 5 0 0, .add 8 .buy 1 6 0 0, .add 9 .sell 2 1 0 0,
          .reduceFront .buy 5, .add 9 .buy 2 1 0 0, .forEachLevel .buy 9, .bestPrice .buy]).2 =
        [.added .ok, .added .ok, .added .full, .nothing, .added .ok,
          .levels [⟨2, 1, 1⟩, ⟨1, 6, 1⟩], .price 2] := by
  have hacc : (⟨0, 2, 1, 2⟩ : BookConfig).Accepted := by
    refine ⟨by decide, by decide, by decide, by decide, by decide, by decide, by decide⟩
  obtain ⟨b, hb⟩ := new_isOk hacc
  refine ⟨b, hb, ?_⟩
  rw [(run_refines_refBook hb _).1]
  decide

end OrderBook

end PulseForge
