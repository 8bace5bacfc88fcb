import PulseForge.Analysis.OrderBookMoves
import PulseForge.Model.Strategy

/-!
# The decision of the imbalance strategy

The quantities at the top of a reachable book are positive and far from the ends of `int64_t`, so
the integer arithmetic of the strategy is exact, and its rearranged comparison is the comparison of
the ratios. A signal starts the cooldown, so signals keep their distance.
-/

set_option autoImplicit false

namespace PulseForge

open Foundation

/-! ## Quantities of a reachable book -/

/-- The quantity that a call brings in fits `Qty`. -/
def BookOp.QtyFits : BookOp → Prop
  | .add _ _ _ qty _ _ => qty < 2 ^ 32
  | _ => True

namespace OrderBook

variable {b b' : OrderBook}

/-- Every resting quantity fits `Qty`. -/
def SmallQty (b : OrderBook) : Prop := ∀ s i, ∀ o ∈ b.fifo s i, o.qty < 2 ^ 32

/-- **One call** keeps the quantities small. -/
theorem SmallQty.call (h : SmallQty b) {op : BookOp} {answer : BookAnswer} (hop : op.QtyFits)
    (hmoves : CallMoves b op (b', answer)) : SmallQty b' := by
  cases hmoves with
  | pushes _ hfifo =>
    intro s i o ho
    rw [hfifo] at ho
    unfold pushFifo at ho
    split_ifs at ho
    · rcases List.mem_append.mp ho with ho | ho
      · exact h s i o ho
      · rw [List.mem_singleton.mp ho]
        exact hop
    · exact h s i o ho
  | keeps _ hfifo =>
    intro s i o ho
    rw [hfifo] at ho
    exact h s i o ho
  | drops _ id hfifo =>
    intro s i o ho
    rw [hfifo] at ho
    exact h s i o (List.mem_of_mem_filter ho)
  | reduces _ id by' hfifo =>
    intro s i o ho
    rw [hfifo] at ho
    obtain ⟨o', ho', rfl⟩ := List.mem_map.mp ho
    have hlt := h s i o' ho'
    split_ifs
    · exact (Nat.sub_le _ _).trans_lt hlt
    · exact hlt
  | clears _ hfifo =>
    intro s i o ho
    rw [hfifo] at ho
    exact absurd ho List.not_mem_nil

/-- **Every reachable book.** -/
theorem smallQty_run {cfg : BookConfig} (hnew : OrderBook.new cfg = .ok b) (ops : List BookOp)
    (hops : ∀ op ∈ ops, op.QtyFits) : SmallQty (run OrderBook.call b ops).1 := by
  apply run_levels hnew (P := fun _ b => SmallQty b) ?_ ?_ ops hops
  · intro b hnil s i o ho
    rw [hnil] at ho
    exact absurd ho List.not_mem_nil
  · intro log b op b' answer _ h hop hmoves
    exact h.call hop hmoves

/-- **The top of a side** holds at least one share, and fewer than `2 ^ 32` for each order. -/
theorem bestQty_bounds (hwf : WF b) (h : SmallQty b) {s : Side} (hside : b.empty s = false) :
    1 ≤ b.bestQty s ∧ b.bestQty s ≤ b.orderCount * (2 ^ 32 - 1) := by
  rcases best_cases hwf s with ⟨hneg, -⟩ | ⟨i, hi, hne, -, rest, horders, -⟩
  · unfold empty at hside
    exact absurd hneg (of_decide_eq_false hside)
  have hqty : b.bestQty s = LevelMap.totalQty (b.fifo s i) := by
    unfold bestQty
    rw [hi, if_neg (by omega), Int.toNat_natCast]
    exact (level_totals hwf s i).1
  have hlen : (b.fifo s i).length ≤ b.orderCount := by
    calc (b.fifo s i).length ≤ (b.orders s).length := by
          rw [horders, List.length_append]
          exact Nat.le_add_right _ _
      _ ≤ b.forEachOrder.length := by
          unfold forEachOrder
          rw [List.length_append]
          cases s with
          | buy => exact Nat.le_add_right _ _
          | sell => exact Nat.le_add_left _ _
      _ = b.orderCount := (orderCount_eq hwf).1.symm
  rw [hqty]
  unfold LevelMap.totalQty
  constructor
  · obtain ⟨o, os, hfifo⟩ := List.exists_cons_of_ne_nil hne
    have hpos := (resting_of_mem hwf (hfifo ▸ List.mem_cons_self : o ∈ b.fifo s i)).qty_pos
    rw [hfifo, List.map_cons, List.sum_cons]
    exact hpos.trans_le (Nat.le_add_right _ _)
  · have hsum := List.sum_le_card_nsmul ((b.fifo s i).map BookOrder.qty) (2 ^ 32 - 1) (by
      intro x hx
      obtain ⟨o, ho, rfl⟩ := List.mem_map.mp hx
      exact Nat.le_sub_one_of_lt (h s i o ho))
    rw [List.length_map, smul_eq_mul] at hsum
    exact hsum.trans (Nat.mul_le_mul_right _ hlen)

end OrderBook

namespace ImbalanceStrategy

/-! ## The conditions -/

/-- Parameters in their ranges; `orderQty` is a `Qty`. -/
structure Sensible (p : StrategyParams) : Prop where
  pct : 1 ≤ p.imbalancePct ∧ p.imbalancePct ≤ 99
  qty : 0 < p.orderQty ∧ p.orderQty < 2 ^ 32
  position : 0 ≤ p.maxPosition ∧ p.maxPosition < 2 ^ 63

/-- The cooldown is over: a difference of two `uint64_t`. -/
def Elapsed (s : ImbalanceStrategy) (nowNs : ℕ) : Prop :=
  s.p.cooldownNs ≤ (nowNs + 2 ^ 64 - s.lastSignalNs) % 2 ^ 64

/-- Behind the last signal the difference does not wrap. -/
theorem elapsed_iff {s : ImbalanceStrategy} {nowNs : ℕ} (hle : s.lastSignalNs ≤ nowNs)
    (hlt : nowNs < 2 ^ 64) : s.Elapsed nowNs ↔ s.lastSignalNs + s.p.cooldownNs ≤ nowNs := by
  unfold Elapsed
  omega

/-- The imbalance towards a side, as a rational. -/
def imbalance (book : OrderBook) (s : Side) : ℚ :=
  ((book.bestQty s : ℚ) - book.bestQty s.opposite) / (book.bestQty s + book.bestQty s.opposite)

/-- No order is in flight, both sides have a best level, the cooldown is over, and the top of the
book is thick enough. -/
structure Open (s : ImbalanceStrategy) (book : OrderBook) (inFlight : Bool) (nowNs : ℕ) :
    Prop where
  idle : inFlight = false
  bids : book.empty .buy = false
  asks : book.empty .sell = false
  cool : s.Elapsed nowNs
  thick : s.p.minTopQty ≤ book.bestQty .buy + book.bestQty .sell

/-- The conditions of a buy. -/
structure Buys (s : ImbalanceStrategy) (book : OrderBook) (position : ℤ) (inFlight : Bool)
    (nowNs : ℕ) : Prop extends s.Open book inFlight nowNs where
  heavy : (s.p.imbalancePct : ℚ) / 100 < imbalance book .buy
  limit : position + s.p.orderQty ≤ s.p.maxPosition

/-- The conditions of a sell, mirrored. -/
structure Sells (s : ImbalanceStrategy) (book : OrderBook) (position : ℤ) (inFlight : Bool)
    (nowNs : ℕ) : Prop extends s.Open book inFlight nowNs where
  heavy : (s.p.imbalancePct : ℚ) / 100 < imbalance book .sell
  limit : -s.p.maxPosition ≤ position - s.p.orderQty

/-- The total that is divided by. -/
def total (book : OrderBook) : ℤ := book.bestQty .buy + book.bestQty .sell

/-- The exact result of every operation on `int64_t` in `on_book_update`. -/
def results (s : ImbalanceStrategy) (book : OrderBook) (position : ℤ) : List ℤ :=
  let bid : ℤ := book.bestQty .buy
  let ask : ℤ := book.bestQty .sell
  [bid, ask, bid + ask, bid - ask, (bid - ask) * 100, ((bid - ask) * 100).tdiv (bid + ask),
    s.p.imbalancePct * (bid + ask), position + s.p.orderQty, -(bid - ask), -(bid - ask) * 100,
    position - s.p.orderQty, -s.p.maxPosition]

/-- The percentage that is reported. -/
def reported (book : OrderBook) : ℤ :=
  (((book.bestQty .buy : ℤ) - book.bestQty .sell) * 100).tdiv (total book)

/-- The tops of the two sides, far from the ends of the range. -/
structure Tops (book : OrderBook) : Prop where
  bid : 1 ≤ book.bestQty .buy ∧ book.bestQty .buy < 2 ^ 48
  ask : 1 ≤ book.bestQty .sell ∧ book.bestQty .sell < 2 ^ 48

variable {s : ImbalanceStrategy} {book : OrderBook} {position : ℤ} {inFlight : Bool} {nowNs : ℕ}

/-- The best levels of a book that a run reaches. -/
theorem tops_of_reached (hwf : OrderBook.WF book) (hsmall : OrderBook.SmallQty book)
    (hcount : book.orderCount ≤ 2 ^ 16) (hbids : book.empty .buy = false)
    (hasks : book.empty .sell = false) : Tops book := by
  obtain ⟨hbid, hbid'⟩ := OrderBook.bestQty_bounds hwf hsmall hbids
  obtain ⟨hask, hask'⟩ := OrderBook.bestQty_bounds hwf hsmall hasks
  have hlt : book.orderCount * (2 ^ 32 - 1) < 2 ^ 48 :=
    calc book.orderCount * (2 ^ 32 - 1) ≤ 2 ^ 16 * (2 ^ 32 - 1) := Nat.mul_le_mul_right _ hcount
      _ < 2 ^ 48 := by norm_num
  exact ⟨⟨hbid, hbid'.trans_lt hlt⟩, ⟨hask, hask'.trans_lt hlt⟩⟩

/-! ## Arithmetic -/

/-- **The percentage** of a book with two sides is in `-99..99`. -/
theorem Tops.reported_range (h : Tops book) : -99 ≤ reported book ∧ reported book ≤ 99 := by
  obtain ⟨⟨hbid, -⟩, ⟨hask, -⟩⟩ := h
  unfold ImbalanceStrategy.reported total
  have hdiv : ((((book.bestQty .buy : ℤ) - book.bestQty .sell) * 100).tdiv
      (book.bestQty .buy + book.bestQty .sell)).natAbs < 100 := by
    rw [Int.natAbs_tdiv]
    apply Nat.div_lt_of_lt_mul
    omega
  omega

/-- **No result overflows.** -/
theorem Tops.results_range (h : Tops book) (hp : Sensible s.p) (hpos : |position| ≤ 2 ^ 62) :
    ∀ x ∈ s.results book position, -2 ^ 63 ≤ x ∧ x < 2 ^ 63 := by
  have hreported := h.reported_range
  obtain ⟨⟨hbid, hbid'⟩, ⟨hask, hask'⟩⟩ := h
  obtain ⟨⟨hpct, hpct'⟩, ⟨hqty, hqty'⟩, ⟨hmax, hmax'⟩⟩ := hp
  rw [abs_le] at hpos
  have hprod : s.p.imbalancePct * ((book.bestQty .buy : ℤ) + book.bestQty .sell) ≤
      99 * ((book.bestQty .buy : ℤ) + book.bestQty .sell) :=
    mul_le_mul_of_nonneg_right hpct' (by omega)
  have hprod' : 0 ≤ s.p.imbalancePct * ((book.bestQty .buy : ℤ) + book.bestQty .sell) :=
    mul_nonneg (by omega) (by omega)
  unfold ImbalanceStrategy.reported total at hreported
  unfold ImbalanceStrategy.results
  simp only [List.forall_mem_cons, List.not_mem_nil, false_implies, implies_true, and_true]
  omega

/-- The rearranged comparison is that of the ratios. -/
theorem ratio_iff {x y : ℕ} (hx : 1 ≤ x) (pct : ℤ) :
    pct * ((x : ℤ) + y) < ((x : ℤ) - y) * 100 ↔
      (pct : ℚ) / 100 < ((x : ℚ) - y) / ((x : ℚ) + y) := by
  have hpos : (0 : ℚ) < (x : ℚ) + y := by positivity
  rw [div_lt_div_iff₀ (by norm_num) hpos]
  constructor
  · intro h
    exact_mod_cast h
  · intro h
    exact_mod_cast h

/-! ## One update -/

/-- **The exact arithmetic** of an update of a book with two sides. -/
theorem Tops.onBookUpdate_eq (h : Tops book) (hp : Sensible s.p) (hpos : |position| ≤ 2 ^ 62)
    (hbids : book.empty .buy = false) (hasks : book.empty .sell = false) :
    s.onBookUpdate book position inFlight nowNs =
      if inFlight = true then (none, s)
      else if (nowNs + 2 ^ 64 - s.lastSignalNs) % 2 ^ 64 < s.p.cooldownNs then (none, s)
      else if book.bestQty .buy + book.bestQty .sell < s.p.minTopQty then (none, s)
      else if s.p.imbalancePct * total book <
          ((book.bestQty .buy : ℤ) - book.bestQty .sell) * 100 ∧
          position + s.p.orderQty ≤ s.p.maxPosition then
        (some ⟨.buy, book.bestPrice .sell, s.p.orderQty, reported book⟩,
          { s with lastSignalNs := nowNs })
      else if s.p.imbalancePct * total book <
          -((book.bestQty .buy : ℤ) - book.bestQty .sell) * 100 ∧
          -s.p.maxPosition ≤ position - s.p.orderQty then
        (some ⟨.sell, book.bestPrice .buy, s.p.orderQty, reported book⟩,
          { s with lastSignalNs := nowNs })
      else (none, s) := by
  have hresults := h.results_range hp hpos
  unfold ImbalanceStrategy.results at hresults
  simp only [List.forall_mem_cons, List.not_mem_nil, false_implies, implies_true, and_true]
    at hresults
  obtain ⟨hbid, hask, htotal, hdiff, hscaled, -, hprod, hlong, hneg, hnegscaled, hshort, hmax⟩ :=
    hresults
  have hthin : ((((book.bestQty .buy : ℤ) + book.bestQty .sell) % 2 ^ 64).toNat < s.p.minTopQty) ↔
      book.bestQty .buy + book.bestQty .sell < s.p.minTopQty := by
    rw [Int.emod_eq_of_lt (by omega) (by omega)]
    omega
  unfold ImbalanceStrategy.onBookUpdate reported total
  simp only [i64_eq hbid.1 hbid.2, i64_eq hask.1 hask.2, i64_eq htotal.1 htotal.2,
    i64_eq hdiff.1 hdiff.2, i64_eq hscaled.1 hscaled.2, i64_eq hprod.1 hprod.2,
    i64_eq hlong.1 hlong.2, i64_eq hneg.1 hneg.2, i64_eq hnegscaled.1 hnegscaled.2,
    i64_eq hshort.1 hshort.2, i64_eq hmax.1 hmax.2, hthin, hbids, hasks, Bool.or_false]

/-- The comparison of a buy. -/
theorem Tops.heavy_buy_iff (h : Tops book) (pct : ℤ) :
    pct * total book < ((book.bestQty .buy : ℤ) - book.bestQty .sell) * 100 ↔
      (pct : ℚ) / 100 < imbalance book .buy :=
  ratio_iff h.bid.1 pct

/-- The comparison of a sell. -/
theorem Tops.heavy_sell_iff (h : Tops book) (pct : ℤ) :
    pct * total book < -((book.bestQty .buy : ℤ) - book.bestQty .sell) * 100 ↔
      (pct : ℚ) / 100 < imbalance book .sell := by
  rw [neg_sub]
  unfold total
  rw [add_comm]
  exact ratio_iff h.ask.1 pct

/-- **The order of the checks** does not matter: an update buys, sells or does nothing as the
conditions say. -/
theorem Tops.update (h : Tops book) (hp : Sensible s.p) (hpos : |position| ≤ 2 ^ 62)
    (hbids : book.empty .buy = false) (hasks : book.empty .sell = false) :
    (s.Buys book position inFlight nowNs →
      s.onBookUpdate book position inFlight nowNs =
        (some ⟨.buy, book.bestPrice .sell, s.p.orderQty, reported book⟩,
          { s with lastSignalNs := nowNs })) ∧
      (s.Sells book position inFlight nowNs → ¬ s.Buys book position inFlight nowNs →
        s.onBookUpdate book position inFlight nowNs =
          (some ⟨.sell, book.bestPrice .buy, s.p.orderQty, reported book⟩,
            { s with lastSignalNs := nowNs })) ∧
      (¬ s.Sells book position inFlight nowNs → ¬ s.Buys book position inFlight nowNs →
        s.onBookUpdate book position inFlight nowNs = (none, s)) := by
  rw [h.onBookUpdate_eq hp hpos hbids hasks]
  simp only [h.heavy_buy_iff, h.heavy_sell_iff]
  split_ifs with hflight hcool hthin hbuy hsell
  · have hshut : ¬ s.Open book inFlight nowNs := by
      rintro ⟨rfl, -⟩
      exact nomatch hflight
    exact ⟨fun h => absurd h.toOpen hshut, fun h => absurd h.toOpen hshut, fun _ _ => rfl⟩
  · have hshut : ¬ s.Open book inFlight nowNs := fun h => absurd h.cool (Nat.not_le.mpr hcool)
    exact ⟨fun h => absurd h.toOpen hshut, fun h => absurd h.toOpen hshut, fun _ _ => rfl⟩
  · have hshut : ¬ s.Open book inFlight nowNs := fun h => absurd h.thick (Nat.not_le.mpr hthin)
    exact ⟨fun h => absurd h.toOpen hshut, fun h => absurd h.toOpen hshut, fun _ _ => rfl⟩
  all_goals
    have hopen : s.Open book inFlight nowNs :=
      ⟨by simpa using hflight, hbids, hasks, Nat.not_lt.mp hcool, Nat.not_lt.mp hthin⟩
  · have hb : s.Buys book position inFlight nowNs := ⟨hopen, hbuy.1, hbuy.2⟩
    exact ⟨fun _ => rfl, fun _ hnot => absurd hb hnot, fun _ hnot => absurd hb hnot⟩
  · have hs : s.Sells book position inFlight nowNs := ⟨hopen, hsell.1, hsell.2⟩
    exact ⟨fun hb => absurd ⟨hb.heavy, hb.limit⟩ hbuy, fun _ _ => rfl, fun hnot => absurd hs hnot⟩
  · exact ⟨fun hb => absurd ⟨hb.heavy, hb.limit⟩ hbuy, fun hs => absurd ⟨hs.heavy, hs.limit⟩ hsell,
      fun _ _ => rfl⟩

/-- An update in which a side is empty does nothing. -/
theorem onBookUpdate_empty (h : book.empty .buy = true ∨ book.empty .sell = true) :
    s.onBookUpdate book position inFlight nowNs = (none, s) := by
  unfold onBookUpdate
  apply if_pos
  rcases h with h | h <;> simp [h]

/-! ## Cooldown -/

/-- One update: its arguments. -/
structure Update where
  book : OrderBook
  position : ℤ
  inFlight : Bool
  nowNs : ℕ

/-- The times of the signals of a run. -/
def signalTimes (s : ImbalanceStrategy) : List Update → List ℕ
  | [] => []
  | u :: us =>
    let (sig, s) := s.onBookUpdate u.book u.position u.inFlight u.nowNs
    if sig.isSome then u.nowNs :: s.signalTimes us else s.signalTimes us

/-- **A signal** comes when the cooldown is over, and starts it anew. -/
theorem onBookUpdate_signal :
    (s.onBookUpdate book position inFlight nowNs).2 = s ∧
        (s.onBookUpdate book position inFlight nowNs).1 = none ∨
      s.Elapsed nowNs ∧
        (s.onBookUpdate book position inFlight nowNs).2 = { s with lastSignalNs := nowNs } ∧
        (s.onBookUpdate book position inFlight nowNs).1.isSome := by
  unfold onBookUpdate
  dsimp only
  split_ifs with hidle hcool hthin hbuy hsell
  · exact .inl ⟨rfl, rfl⟩
  · exact .inl ⟨rfl, rfl⟩
  · exact .inl ⟨rfl, rfl⟩
  · exact .inr ⟨Nat.not_lt.mp hcool, rfl, rfl⟩
  · exact .inr ⟨Nat.not_lt.mp hcool, rfl, rfl⟩
  · exact .inl ⟨rfl, rfl⟩

/-- **Signals keep their distance**, from the last one on. -/
theorem signalTimes_chain (us : List Update) (hmono : (us.map Update.nowNs).Pairwise (· ≤ ·))
    (hlt : ∀ u ∈ us, u.nowNs < 2 ^ 64) (hlast : ∀ u ∈ us, s.lastSignalNs ≤ u.nowNs) :
    (s.lastSignalNs :: s.signalTimes us).IsChain fun t t' => t + s.p.cooldownNs ≤ t' := by
  induction us generalizing s with
  | nil => exact .singleton _
  | cons u us ih =>
    rw [List.map_cons, List.pairwise_cons] at hmono
    have hlt' : ∀ v ∈ us, v.nowNs < 2 ^ 64 := fun v hv => hlt v (List.mem_cons_of_mem _ hv)
    have hle : s.lastSignalNs ≤ u.nowNs := hlast u List.mem_cons_self
    have hnow : u.nowNs < 2 ^ 64 := hlt u List.mem_cons_self
    unfold signalTimes
    dsimp only
    rcases @onBookUpdate_signal s u.book u.position u.inFlight u.nowNs with
      ⟨hsame, hnone⟩ | ⟨helapsed, hnext, hsome⟩
    · rw [hsame, hnone, if_neg (by simp)]
      exact ih hmono.2 hlt' fun v hv => hlast v (List.mem_cons_of_mem _ hv)
    · rw [hnext, if_pos hsome]
      have hrest := @ih { s with lastSignalNs := u.nowNs } hmono.2 hlt'
        fun v hv => hmono.1 _ (List.mem_map_of_mem hv)
      exact .cons_cons ((elapsed_iff hle hnow).mp helapsed) hrest

/-! ## The decision -/

/-- **The strategy on a reachable book**: its arithmetic is exact, it decides by the ratios, and its
signals keep their distance. -/
theorem decision_exact {cfg : BookConfig} {b : OrderBook} (hnew : OrderBook.new cfg = .ok b)
    (ops : List BookOp) (hops : ∀ op ∈ ops, op.QtyFits)
    (hcount : (run OrderBook.call b ops).1.orderCount ≤ 2 ^ 16) (s : ImbalanceStrategy)
    (hp : Sensible s.p) (position : ℤ) (hpos : |position| ≤ 2 ^ 62) (inFlight : Bool)
    (nowNs : ℕ) :
    let book := (run OrderBook.call b ops).1
    let sig := (s.onBookUpdate book position inFlight nowNs).1
    (book.empty .buy = false → book.empty .sell = false →
      total book ≠ 0 ∧ ∀ x ∈ s.results book position, -2 ^ 63 ≤ x ∧ x < 2 ^ 63) ∧
    (sig = some ⟨.buy, book.bestPrice .sell, s.p.orderQty, reported book⟩ ↔
      s.Buys book position inFlight nowNs) ∧
    (sig = some ⟨.sell, book.bestPrice .buy, s.p.orderQty, reported book⟩ ↔
      s.Sells book position inFlight nowNs ∧ ¬ s.Buys book position inFlight nowNs) ∧
    (sig = none ↔ ¬ s.Buys book position inFlight nowNs ∧
      ¬ s.Sells book position inFlight nowNs) ∧
    (∀ out, sig = some out → -99 ≤ out.imbalancePct ∧ out.imbalancePct ≤ 99) ∧
    ∀ us : List Update, (us.map Update.nowNs).Pairwise (· ≤ ·) → (∀ u ∈ us, u.nowNs < 2 ^ 64) →
      (({ p := s.p } : ImbalanceStrategy).signalTimes us).IsChain
        fun t t' => t + s.p.cooldownNs ≤ t' := by
  intro book sig
  have hwf : OrderBook.WF book := (OrderBook.wf_run hnew ops).1
  have hsmall : OrderBook.SmallQty book := OrderBook.smallQty_run hnew ops hops
  have hspacing : ∀ us : List Update, (us.map Update.nowNs).Pairwise (· ≤ ·) →
      (∀ u ∈ us, u.nowNs < 2 ^ 64) → (({ p := s.p } : ImbalanceStrategy).signalTimes us).IsChain
        fun t t' => t + s.p.cooldownNs ≤ t' :=
    fun us hmono hlt => (@signalTimes_chain { p := s.p } us hmono hlt fun _ _ => Nat.zero_le _).tail
  by_cases hboth : book.empty .buy = false ∧ book.empty .sell = false
  · have htops := tops_of_reached hwf hsmall hcount hboth.1 hboth.2
    have hreported := htops.reported_range
    obtain ⟨hbuy, hsell, hnone⟩ :=
      @Tops.update s book position inFlight nowNs htops hp hpos hboth.1 hboth.2
    have hsafe : total book ≠ 0 ∧ ∀ x ∈ s.results book position, -2 ^ 63 ≤ x ∧ x < 2 ^ 63 := by
      refine ⟨?_, htops.results_range hp hpos⟩
      have hbid := htops.bid.1
      unfold total
      omega
    by_cases hb : s.Buys book position inFlight nowNs
    · have hsig : sig = _ := congrArg Prod.fst (hbuy hb)
      rw [hsig]
      refine ⟨fun _ _ => hsafe, iff_of_true rfl hb, iff_of_false (by simp) fun h => h.2 hb,
        iff_of_false (by simp) fun h => h.1 hb, ?_, hspacing⟩
      intro out hout
      rw [← Option.some.inj hout]
      exact hreported
    by_cases hs : s.Sells book position inFlight nowNs
    · have hsig : sig = _ := congrArg Prod.fst (hsell hs hb)
      rw [hsig]
      refine ⟨fun _ _ => hsafe, iff_of_false (by simp) hb, iff_of_true rfl ⟨hs, hb⟩,
        iff_of_false (by simp) fun h => h.2 hs, ?_, hspacing⟩
      intro out hout
      rw [← Option.some.inj hout]
      exact hreported
    · have hsig : sig = none := congrArg Prod.fst (hnone hs hb)
      rw [hsig]
      exact ⟨fun _ _ => hsafe, iff_of_false (by simp) hb, iff_of_false (by simp) fun h => hs h.1,
        iff_of_true rfl ⟨hb, hs⟩, fun out hout => (nomatch hout), hspacing⟩
  · -- a side is empty: nothing is computed
    have hshut : ¬ s.Open book inFlight nowNs := fun h => hboth ⟨h.bids, h.asks⟩
    have hsig : sig = none := by
      apply congrArg Prod.fst (onBookUpdate_empty ?_)
      rw [not_and_or, Bool.not_eq_false, Bool.not_eq_false] at hboth
      exact hboth
    rw [hsig]
    exact ⟨fun hbids hasks => absurd ⟨hbids, hasks⟩ hboth,
      iff_of_false (by simp) fun h => hshut h.toOpen,
      iff_of_false (by simp) fun h => hshut h.1.toOpen,
      iff_of_true rfl ⟨fun h => hshut h.toOpen, fun h => hshut h.toOpen⟩,
      fun out hout => (nomatch hout), hspacing⟩

/-- A book with an order on each side. -/
theorem decision_exact_two : ∃ b, OrderBook.new ⟨0, 2, 1, 2⟩ = .ok b ∧
    ((({ p := {} } : ImbalanceStrategy).onBookUpdate
      (run OrderBook.call b [.add 1 .buy 0 900 0 0, .add 2 .sell 2 100 0 0]).1 0 false
        1000000).1 = none ↔
      ¬ ({ p := {} } : ImbalanceStrategy).Buys
        (run OrderBook.call b [.add 1 .buy 0 900 0 0, .add 2 .sell 2 100 0 0]).1 0 false 1000000 ∧
      ¬ ({ p := {} } : ImbalanceStrategy).Sells
        (run OrderBook.call b [.add 1 .buy 0 900 0 0, .add 2 .sell 2 100 0 0]).1 0 false
          1000000) := by
  have hacc : (⟨0, 2, 1, 2⟩ : BookConfig).Accepted := by
    refine ⟨by decide, by decide, by decide, by decide, by decide, by decide, by decide⟩
  obtain ⟨b, hnew⟩ := OrderBook.new_isOk hacc
  have hops : ∀ op ∈ [BookOp.add 1 .buy 0 900 0 0, .add 2 .sell 2 100 0 0], op.QtyFits := by
    simp [BookOp.QtyFits]
  obtain ⟨hwf, hcfg⟩ := OrderBook.wf_run hnew [.add 1 .buy 0 900 0 0, .add 2 .sell 2 100 0 0]
  have hcount := (OrderBook.orderCount_eq hwf).2
  rw [hcfg] at hcount
  have hp : Sensible {} := by
    refine ⟨⟨by decide, by decide⟩, ⟨by decide, by decide⟩, ⟨by decide, by decide⟩⟩
  exact ⟨b, hnew, (decision_exact hnew _ hops (hcount.trans (by norm_num)) { p := {} } hp 0
    (by norm_num) false 1000000).2.2.2.1⟩

end ImbalanceStrategy

end PulseForge
