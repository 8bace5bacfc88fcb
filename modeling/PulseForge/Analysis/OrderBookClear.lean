import PulseForge.Analysis.OrderBookAdd

/-!
# `clear` and the constructor

`clear` resets only the levels its bitmap scan visits; `mem_setBits` shows that the scan
visits every marked level, so the book it leaves has every queue empty and every node free.
The constructor is `clear` on blank arrays.
-/

set_option autoImplicit false

namespace PulseForge.OrderBook

open Foundation

variable {b : OrderBook} {q : Side → ℕ → List ℕ} {free : List ℕ}

/-! ## The scan -/

/-- `clear` visits every set bit. -/
theorem mem_setBits {bits : List (BitVec 64)} {fuel : ℕ} {idx : ℤ} (h0 : 0 ≤ idx)
    (hf : 64 * bits.length < fuel + idx) {i : ℕ} (hi : idx ≤ i)
    (hbit : testBit bits i = true) : i ∈ setBits bits fuel idx := by
  have hlt : i < 64 * bits.length := by
    by_contra hge
    rw [testBit_eq_false_of_le (by omega)] at hbit
    exact absurd hbit (by simp)
  induction fuel generalizing idx with
  | zero => omega
  | succ fuel ih =>
    have hspec := bitmapFindNext_spec bits idx
    have hneg : ¬ bitmapFindNext bits idx < 0 := fun hc =>
      hspec.lt_zero_iff.mp hc i ⟨hbit, hi⟩
    obtain ⟨k, hk, ⟨-, hkge⟩, hkbest⟩ := hspec.exists_of_nonneg hneg
    rw [setBits, if_neg hneg, hk, Int.toNat_natCast, List.mem_cons]
    by_cases hik : i = k
    · exact .inl hik
    · right
      have := hkbest i ⟨hbit, hi⟩
      simp only [Side.better] at this
      exact ih (by omega) (by omega) (by omega)

/-- The levels that were reset are empty, the others as they were. -/
theorem getD_foldl_set (is : List ℕ) (levels : List Level) (i : ℕ) :
    (is.foldl (fun ls k => ls.set k Level.empty) levels).getD i Level.empty =
      if i ∈ is then Level.empty else levels.getD i Level.empty := by
  induction is generalizing levels with
  | nil => simp
  | cons k is ih =>
    rw [List.foldl_cons, ih]
    by_cases hik : i = k
    · subst hik
      have : (levels.set i Level.empty).getD i Level.empty = Level.empty := by
        rw [List.getD_eq_getElem?_getD, List.getElem?_set]
        split
        · split <;> rfl
        · simp_all
      rw [this, ite_self, if_pos List.mem_cons_self]
    · have : (levels.set k Level.empty).getD i Level.empty = levels.getD i Level.empty := by
        rw [List.getD_eq_getElem?_getD, List.getD_eq_getElem?_getD,
          List.getElem?_set_ne (Ne.symm hik)]
      simp only [this, List.mem_cons, hik, false_or]

theorem length_foldl_set (is : List ℕ) (levels : List Level) :
    (is.foldl (fun ls k => ls.set k Level.empty) levels).length = levels.length := by
  induction is generalizing levels with
  | nil => rfl
  | cons k is ih => rw [List.foldl_cons, ih, List.length_set]

/-- `clear` clears both ladders. -/
theorem ladder_clear (b : OrderBook) (s : Side) :
    b.clear.ladder s = Ladder.clear (b.ladder s) := by
  cases s <;> rfl

/-- The free list `clear` threads through the pool. -/
theorem chain_range (next : ℕ → ℕ) (len k head : ℕ)
    (hnext : ∀ i < len, next i = if i + 1 < len then i + 1 else kNil) (hk : k ≤ len)
    (hhead : head = if k < len then k else kNil) :
    Chain next kNil head (List.range' k (len - k)) := by
  induction hd : len - k generalizing k head with
  | zero =>
    rw [if_neg (by omega)] at hhead
    exact hhead
  | succ d ih =>
    rw [List.range'_succ]
    rw [if_pos (by omega)] at hhead
    refine ⟨hhead, ih (k + 1) _ (by omega) ?_ (by omega)⟩
    rw [hnext k (by omega)]

/-! ## The cleared book -/

/-- **`clear`** leaves every level empty and every node free. -/
theorem inv_clear (h : Sized b)
    (hlev : ∀ s i, testBit (b.ladder s).bits i = false → b.level s i = Level.empty)
    (hwf : b.ids.WF) (hmax : b.ids.maxEntries = b.cfg.maxOrders) :
    Inv b.clear (fun _ _ => []) (List.range' 0 b.cfg.maxOrders) := by
  obtain ⟨hwf', hmax', hsize', hfind'⟩ := FlatIdMap.clear_spec hwf
  have hlevel : ∀ s i, b.clear.level s i = Level.empty := by
    intro s i
    rw [level, ladder_clear, Ladder.clear, getD_foldl_set]
    by_cases hbit : testBit (b.ladder s).bits i = true
    · rw [if_pos (mem_setBits (le_refl 0) (by simp) (by omega) hbit)]
    · rw [Bool.not_eq_true] at hbit
      split
      · rfl
      · exact hlev s i hbit
  have hbits : ∀ s i, testBit (b.clear.ladder s).bits i = false := by
    intro s i
    rw [ladder_clear, Ladder.clear, List.map_const', testBit_replicate]
  have hsized : Sized b.clear :=
    { cfg := h.cfg
      levels_eq := h.levels_eq
      nodes_len := (by simp [clear] : b.clear.nodes.length = b.nodes.length).trans h.nodes_len
      levels_len := fun s => by
        rw [ladder_clear, Ladder.clear, length_foldl_set]
        exact h.levels_len s
      bits_len := fun s => by
        rw [ladder_clear, Ladder.clear, List.length_map]
        exact h.bits_len s }
  have hflat : ∀ s k, flatNodes (fun _ _ => []) s k = [] := fun s k => by simp [flatNodes]
  exact
    { hsized with
      queue := fun s i => by rw [hlevel]; exact Queue.empty
      placed := by simp
      count_eq := fun s i => by rw [hlevel]; rfl
      qty_eq := fun s i => by rw [hlevel]; rfl
      bit_iff := fun s i => by simp [hbits]
      best := fun s => by
        rw [ladder_clear]
        exact .inl ⟨rfl, by simp⟩
      chain := by
        have := chain_range b.clear.nextOf b.cfg.maxOrders 0 b.clear.freeHead ?_ (by omega) ?_
        · rwa [Nat.sub_zero] at this
        · intro i hi
          rw [← h.nodes_len] at hi ⊢
          rw [nextOf, node, List.getD_eq_getElem?_getD, clear]
          simp [hi]
        · rw [if_pos h.cfg.orders_pos]
          have hne : b.nodes.isEmpty = false := by
            rw [List.isEmpty_eq_false_iff, ← List.length_pos_iff, h.nodes_len]
            exact h.cfg.orders_pos
          simp [clear, hne]
      free_nodup := List.nodup_range'
      free_lt := fun n hn => by
        have := List.mem_range'_1.mp hn
        show n < b.cfg.maxOrders
        omega
      free_disj := by simp
      ids_wf := hwf'
      ids_max := hmax'.trans hmax
      ids_iff := fun id n => by
        rw [show b.clear.ids = b.ids.clear from rfl, hfind']
        simp
      ids_size := hsize'
      room := by
        show 0 + (List.range' 0 b.cfg.maxOrders).length = b.cfg.maxOrders
        simp
      live_eq := by rw [hflat, hflat]; rfl }

/-- `clear` on a well-formed book. -/
theorem Inv.clear (h : Inv b q free) :
    Inv b.clear (fun _ _ => []) (List.range' 0 b.cfg.maxOrders) := by
  refine inv_clear h.toSized ?_ h.ids_wf h.ids_max
  intro s i hbit
  have hnil : q s i = [] := by
    by_contra hne
    rw [(h.bit_iff s i).mpr hne] at hbit
    exact absurd hbit (by simp)
  have hq := h.queue s i
  have hcount := h.count_eq s i
  have hqty := h.qty_eq s i
  rw [hnil] at hq hcount hqty
  have hhead := hq.head_eq
  have htail := hq.tail_eq
  revert hcount hqty hhead htail
  cases b.level s i
  simp only [Level.empty, queueQty, List.length_nil, List.map_nil, List.sum_nil, List.headD_nil,
    List.getLastD_nil, Level.mk.injEq]
  tauto

/-! ## The constructor -/

/-- What the constructor accepts. -/
theorem accepted_of_new {cfg : BookConfig} (h : OrderBook.new cfg = .ok b) : cfg.Accepted := by
  unfold OrderBook.new at h
  split at h
  · exact absurd h (by simp)
  · next hno =>
    simp only [not_or, not_le, not_lt, not_not] at hno
    obtain ⟨htick, hband, hspan, hgrid, hpos, hlt, hlevels⟩ := hno
    exact ⟨htick, hband, hspan, hgrid, Nat.pos_of_ne_zero hpos, hlt, hlevels⟩

/-- **The constructor** gives an empty book. -/
theorem inv_new {cfg : BookConfig} (h : OrderBook.new cfg = .ok b) :
    b.cfg = cfg ∧ Inv b (fun _ _ => []) (List.range' 0 cfg.maxOrders) := by
  have hacc := accepted_of_new h
  have hbound : cfg.maxOrders ≤ 2 ^ 62 := by
    have := hacc.orders_lt
    simp only [kNil] at this
    omega
  obtain ⟨ids, hids, hwf, hmax, -, -⟩ := FlatIdMap.new_spec (V := ℕ) hbound
  unfold OrderBook.new at h
  split at h
  · exact absurd h (by simp)
  · rw [hids] at h
    simp only [Except.ok.injEq] at h
    subst h
    refine ⟨rfl, inv_clear ?_ ?_ hwf hmax⟩
    · exact
        { cfg := hacc
          levels_eq := rfl
          nodes_len := by simp
          levels_len := fun s => by cases s <;> simp [ladder]
          bits_len := fun s => by cases s <;> simp [ladder] }
    · intro s i _
      cases s <;> exact getD_replicate _ _ _

/-- The constructor succeeds on what it accepts. -/
theorem new_isOk {cfg : BookConfig} (h : cfg.Accepted) : ∃ b, OrderBook.new cfg = .ok b := by
  have hbound : cfg.maxOrders ≤ 2 ^ 62 := by
    have := h.orders_lt
    simp only [kNil] at this
    omega
  obtain ⟨ids, hids, -⟩ := FlatIdMap.new_spec (V := ℕ) hbound
  have hno : ¬ (cfg.tickSize ≤ 0 ∨ cfg.maxPrice < cfg.minPrice ∨
      2 ^ 63 ≤ cfg.maxPrice - cfg.minPrice ∨
      (cfg.maxPrice - cfg.minPrice) % cfg.tickSize ≠ 0 ∨ cfg.maxOrders = 0 ∨
      kNil ≤ cfg.maxOrders ∨ 2 ^ 31 ≤ cfg.levels) := by
    have hpos := h.orders_pos
    simp only [not_or, not_le, not_lt, not_not]
    exact ⟨h.tick, h.band, h.span, h.grid, by omega, h.orders_lt, h.levels_lt⟩
  rw [OrderBook.new, if_neg hno, hids]
  exact ⟨_, rfl⟩

end PulseForge.OrderBook
