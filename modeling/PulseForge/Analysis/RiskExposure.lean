import PulseForge.Model.RiskGate

/-!
# The exposure of the risk gate

`Safe` is the worst case within the limit on both sides. What the gate is told of an order
keeps it, as long as no more is reported filled or cancelled than is open. An order that
passes the check keeps it too, unless the sum of the check itself does not fit `int64_t`.
-/

set_option autoImplicit false

namespace PulseForge

namespace RiskGate

variable {g : RiskGate} {side side' : Side} {q : ℕ}

/-- The quantity open on a side. -/
def openQty (g : RiskGate) : Side → ℤ
  | .buy => g.openBuy
  | .sell => g.openSell

/-- **The worst case is within the limit**, whatever of the open orders is filled. -/
structure Safe (g : RiskGate) : Prop where
  max_nonneg : 0 ≤ g.lim.maxPosition
  max_lt : g.lim.maxPosition < 2 ^ 63
  nonneg : ∀ side, 0 ≤ g.openQty side
  small : ∀ side, g.openQty side < 2 ^ 32
  buy : g.position + g.openBuy ≤ g.lim.maxPosition
  sell : -g.lim.maxPosition ≤ g.position - g.openSell

/-- A new gate is safe. -/
theorem safe_new {lim : RiskLimits} (h0 : 0 ≤ lim.maxPosition) (h : lim.maxPosition < 2 ^ 63) :
    (RiskGate.new lim).Safe := by
  refine ⟨h0, h, fun side => ?_, fun side => ?_, ?_, ?_⟩
  · cases side <;> exact le_rfl
  · cases side <;> exact (by decide : (0 : ℤ) < 2 ^ 32)
  · simpa [RiskGate.new] using h0
  · simpa [RiskGate.new] using h0

namespace Safe

/-- The position itself is within the limit. -/
theorem position_le (h : g.Safe) : |g.position| ≤ g.lim.maxPosition := by
  have hb := h.nonneg .buy
  have hs := h.nonneg .sell
  have hbuy := h.buy
  have hsell := h.sell
  simp only [openQty] at hb hs
  rw [abs_le]
  constructor <;> omega

/-- Safety from the four quantities. -/
theorem of_bounds (h0 : 0 ≤ g.lim.maxPosition) (h : g.lim.maxPosition < 2 ^ 63)
    (hb : 0 ≤ g.openBuy ∧ g.openBuy < 2 ^ 32) (hs : 0 ≤ g.openSell ∧ g.openSell < 2 ^ 32)
    (hbuy : g.position + g.openBuy ≤ g.lim.maxPosition)
    (hsell : -g.lim.maxPosition ≤ g.position - g.openSell) : g.Safe := by
  refine ⟨h0, h, fun side => ?_, fun side => ?_, hbuy, hsell⟩
  · cases side with
    | buy => exact hb.1
    | sell => exact hs.1
  · cases side with
    | buy => exact hb.2
    | sell => exact hs.2

/-- **A fill** moves shares from what is open to the position. -/
theorem onFill (h : g.Safe) (hq : (q : ℤ) ≤ g.openQty side) :
    (g.onFill side q).Safe ∧ (g.onFill side q).lim = g.lim ∧
      (g.onFill side q).openOrders = g.openOrders ∧
      ∀ side', (g.onFill side q).openQty side' =
        if side' = side then g.openQty side - q else g.openQty side' := by
  have hmax0 := h.max_nonneg
  have hmax := h.max_lt
  have hb : 0 ≤ g.openBuy ∧ g.openBuy < 2 ^ 32 := ⟨h.nonneg .buy, h.small .buy⟩
  have hs : 0 ≤ g.openSell ∧ g.openSell < 2 ^ 32 := ⟨h.nonneg .sell, h.small .sell⟩
  have hbuy := h.buy
  have hsell := h.sell
  cases side with
  | buy =>
    simp only [openQty] at hq
    have hpos : i64 (g.position + q) = g.position + q := i64_eq (by omega) (by omega)
    have hopen : i64 (g.openBuy - q) = g.openBuy - q := i64_eq (by omega) (by omega)
    simp only [RiskGate.onFill, hpos, hopen]
    refine ⟨of_bounds hmax0 hmax ?_ hs ?_ ?_, trivial, trivial, fun side' => ?_⟩
    · simp only
      omega
    · simp only
      omega
    · simp only
      omega
    · cases side' <;> simp [openQty]
  | sell =>
    simp only [openQty] at hq
    have hpos : i64 (g.position - q) = g.position - q := i64_eq (by omega) (by omega)
    have hopen : i64 (g.openSell - q) = g.openSell - q := i64_eq (by omega) (by omega)
    simp only [RiskGate.onFill, hpos, hopen]
    refine ⟨of_bounds hmax0 hmax hb ?_ ?_ ?_, trivial, trivial, fun side' => ?_⟩
    · simp only
      omega
    · simp only
      omega
    · simp only
      omega
    · cases side' <;> simp [openQty]

/-- **A cancel** takes shares from what is open. -/
theorem onCancelled (h : g.Safe) (hq : (q : ℤ) ≤ g.openQty side) :
    (g.onCancelled side q).Safe ∧ (g.onCancelled side q).lim = g.lim ∧
      (g.onCancelled side q).openOrders = g.openOrders ∧
      ∀ side', (g.onCancelled side q).openQty side' =
        if side' = side then g.openQty side - q else g.openQty side' := by
  have hmax0 := h.max_nonneg
  have hmax := h.max_lt
  have hb : 0 ≤ g.openBuy ∧ g.openBuy < 2 ^ 32 := ⟨h.nonneg .buy, h.small .buy⟩
  have hs : 0 ≤ g.openSell ∧ g.openSell < 2 ^ 32 := ⟨h.nonneg .sell, h.small .sell⟩
  have hbuy := h.buy
  have hsell := h.sell
  cases side with
  | buy =>
    simp only [openQty] at hq
    have hopen : i64 (g.openBuy - q) = g.openBuy - q := i64_eq (by omega) (by omega)
    simp only [RiskGate.onCancelled, hopen]
    refine ⟨of_bounds hmax0 hmax ?_ hs ?_ hsell, trivial, trivial, fun side' => ?_⟩
    · simp only
      omega
    · simp only
      omega
    · cases side' <;> simp [openQty]
  | sell =>
    simp only [openQty] at hq
    have hopen : i64 (g.openSell - q) = g.openSell - q := i64_eq (by omega) (by omega)
    simp only [RiskGate.onCancelled, hopen]
    refine ⟨of_bounds hmax0 hmax hb ?_ hbuy ?_, trivial, trivial, fun side' => ?_⟩
    · simp only
      omega
    · simp only
      omega
    · cases side' <;> simp [openQty]

end Safe

/-! ## A new order -/

/-- The distance of the price from the reference, as the check computes it. -/
def deviation (price reference : ℤ) : ℤ :=
  if reference < price then i64 (price - reference) else i64 (reference - price)

/-- The test of the rate. -/
def throttles (g : RiskGate) (nowNs : ℕ) : Prop :=
  g.sentTimes.length ≤ g.sentCount ∧
    (nowNs + 2 ^ 64 - g.sentTimes.getD g.nextSlot 0) % 2 ^ 64 < 1000000000

/-- **The tests behind a `Pass`.** -/
theorem check_eq_pass {price reference : ℤ} {now : ℕ} :
    g.check side price q reference now = .pass ↔
      g.killed = false ∧ (0 < q ∧ q ≤ g.lim.maxOrderQty) ∧ i64 (price * q) ≤ g.lim.maxNotional ∧
      0 < reference ∧
      i64 (deviation price reference * 10000) ≤ i64 (g.lim.priceCollarBps * reference) ∧
      g.openOrders < g.lim.maxOpenOrders ∧ g.overLimit side q = false ∧ ¬ g.throttles now := by
  unfold check throttles
  dsimp only
  rw [← deviation]
  split_ifs with hkill hqty hnotional href hcollar hopen hlimit hrate
  · simp [hkill]
  · refine ⟨fun h => (nomatch h), fun h => ?_⟩
    have hfits := h.2.1
    omega
  · simp [hnotional.not_ge]
  · simp [href.not_gt]
  · simp [hcollar.not_ge]
  · simp [hopen.not_gt]
  · simp [hlimit]
  · exact ⟨fun h => (nomatch h), fun h => absurd hrate h.2.2.2.2.2.2.2⟩
  · refine ⟨fun _ => ⟨eq_false_of_ne_true hkill, ?_, not_lt.mp hnotional, not_le.mp href,
      not_lt.mp hcollar, not_le.mp hopen, eq_false_of_ne_true hlimit, hrate⟩, fun _ => rfl⟩
    omega

/-- The tests behind a `Pass` that matter to the exposure. -/
theorem of_check_pass {price reference : ℤ} {now : ℕ}
    (hpass : g.check side price q reference now = .pass) : 0 < q ∧ g.overLimit side q = false := by
  obtain ⟨-, ⟨hq, -⟩, -, -, -, -, hlimit, -⟩ := check_eq_pass.mp hpass
  exact ⟨hq, hlimit⟩

/-- **What the check lets through** keeps the worst case within the limit, when the sum that it
tests fits its type. -/
theorem worstCase_of_pass (h : g.Safe) (hq : q < 2 ^ 32) (hlimit : g.overLimit side q = false)
    (hfits : g.overflows side q = false) :
    (side = .buy → g.position + g.openBuy + q ≤ g.lim.maxPosition) ∧
      (side = .sell → -g.lim.maxPosition ≤ g.position - g.openSell - q) := by
  have hmax0 := h.max_nonneg
  have hmax := h.max_lt
  have hb : 0 ≤ g.openBuy ∧ g.openBuy < 2 ^ 32 := ⟨h.nonneg .buy, h.small .buy⟩
  have hs : 0 ≤ g.openSell ∧ g.openSell < 2 ^ 32 := ⟨h.nonneg .sell, h.small .sell⟩
  have hbuy := h.buy
  have hsell := h.sell
  cases side with
  | buy =>
    refine ⟨fun _ => ?_, fun hside => (nomatch hside)⟩
    simp only [overflows, decide_eq_false_iff_not, not_le] at hfits
    have hle : g.worstCase .buy q ≤ g.lim.maxPosition := not_lt.mp (of_decide_eq_false hlimit)
    rwa [worstCase, i64_eq (show -2 ^ 63 ≤ g.position + g.openBuy by omega) (by omega),
      i64_eq (by omega) hfits] at hle
  | sell =>
    refine ⟨fun hside => (nomatch hside), fun _ => ?_⟩
    simp only [overflows, decide_eq_false_iff_not, not_lt] at hfits
    have hle : i64 (-g.lim.maxPosition) ≤ g.worstCase .sell q := not_lt.mp (of_decide_eq_false hlimit)
    rwa [worstCase, i64_eq (show -2 ^ 63 ≤ g.position - g.openSell by omega) (by omega),
      i64_eq hfits (by omega), i64_eq (show -2 ^ 63 ≤ -g.lim.maxPosition by omega) (by omega)] at hle

/-- Under a limit that leaves room for one order, the sum always fits. -/
theorem not_overflows (h : g.Safe) (hq : q < 2 ^ 32) (hroom : g.lim.maxPosition + 2 ^ 32 ≤ 2 ^ 63) :
    g.overflows side q = false := by
  have hbuy := h.buy
  have hsell := h.sell
  cases side with
  | buy =>
    simp only [overflows, decide_eq_false_iff_not, not_le]
    omega
  | sell =>
    simp only [overflows, decide_eq_false_iff_not, not_lt]
    omega

/-- **An order sent** when none is open. -/
theorem Safe.onOrderSent (h : g.Safe) (hq : q < 2 ^ 32) (hnone : ∀ side, g.openQty side = 0)
    (horders : g.openOrders = 0) (hlimit : g.overLimit side q = false)
    (hfits : g.overflows side q = false) (now : ℕ) :
    (g.onOrderSent side q now).Safe ∧ (g.onOrderSent side q now).lim = g.lim ∧
      (g.onOrderSent side q now).openOrders = 1 ∧
      ∀ side', (g.onOrderSent side q now).openQty side' = if side' = side then (q : ℤ) else 0 := by
  obtain ⟨hworst, hworst'⟩ := worstCase_of_pass h hq hlimit hfits
  have hmax0 := h.max_nonneg
  have hmax := h.max_lt
  have hb : g.openBuy = 0 := hnone .buy
  have hs : g.openSell = 0 := hnone .sell
  have hbuy := h.buy
  have hsell := h.sell
  have hsum : i64 (0 + q) = q := by
    rw [Int.zero_add]
    exact i64_eq (by omega) (by omega)
  rw [hb] at hworst hbuy
  rw [hs] at hworst' hsell
  cases side with
  | buy =>
    specialize hworst rfl
    simp only [RiskGate.onOrderSent, hb, hs, hsum, horders, reduceCtorEq, if_true, if_false]
    refine ⟨of_bounds hmax0 hmax ?_ ?_ ?_ ?_, trivial, by norm_num, fun side' => ?_⟩
    · simp only
      omega
    · simp
    · simp only
      omega
    · simp only
      omega
    · cases side' <;> simp [openQty]
  | sell =>
    specialize hworst' rfl
    simp only [RiskGate.onOrderSent, hb, hs, hsum, horders, reduceCtorEq, if_true, if_false]
    refine ⟨of_bounds hmax0 hmax ?_ ?_ ?_ ?_, trivial, by norm_num, fun side' => ?_⟩
    · simp
    · simp only
      omega
    · simp only
      omega
    · simp only
      omega
    · cases side' <;> simp [openQty]

end RiskGate

end PulseForge
