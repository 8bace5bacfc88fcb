import PulseForge.Analysis.RiskExposure

/-!
# The limits in exact arithmetic

The products and sums of `RiskGate::check` are computed in 64 bits. A result that wraps below
makes the check only stricter; one that wraps above can let an order through. When no result is
`2 ^ 63` or more, a `Pass` means that the limits hold of the numbers themselves.
-/

set_option autoImplicit false

namespace PulseForge

/-- The limits are `int64_t` values that are not negative. -/
structure RiskLimits.Nonneg (lim : RiskLimits) : Prop where
  maxNotional : 0 ≤ lim.maxNotional ∧ lim.maxNotional < 2 ^ 63
  maxPosition : 0 ≤ lim.maxPosition ∧ lim.maxPosition < 2 ^ 63
  priceCollarBps : 0 ≤ lim.priceCollarBps ∧ lim.priceCollarBps < 2 ^ 63

namespace RiskGate

variable {g : RiskGate} {side : Side} {price reference : ℤ} {qty now : ℕ}

/-- **The limits**, in integers without bound. -/
structure Within (g : RiskGate) (side : Side) (price : ℤ) (qty : ℕ) (reference : ℤ) : Prop where
  qty_pos : 0 < qty
  qty_le : qty ≤ g.lim.maxOrderQty
  notional : price * qty ≤ g.lim.maxNotional
  reference_pos : 0 < reference
  collar : |price - reference| * 10000 ≤ g.lim.priceCollarBps * reference
  openOrders : g.openOrders < g.lim.maxOpenOrders
  buy : side = .buy → g.position + g.openBuy + qty ≤ g.lim.maxPosition
  sell : side = .sell → -g.lim.maxPosition ≤ g.position - g.openSell - qty

/-- No result of the check wraps in the direction that lets an order through. -/
structure Fits (g : RiskGate) (side : Side) (price : ℤ) (qty : ℕ) (reference : ℤ) : Prop where
  notional : price * qty < 2 ^ 63
  collar : |price - reference| * 10000 < 2 ^ 63
  position : g.overflows side qty = false

/-- The deviation when nothing wraps. -/
theorem deviation_eq (h : |price - reference| * 10000 < 2 ^ 63) :
    deviation price reference = |price - reference| := by
  unfold deviation
  split
  · next hlt =>
    rw [abs_of_pos (by omega)] at h ⊢
    exact i64_eq (by omega) (by omega)
  · next hle =>
    rw [abs_of_nonpos (by omega)] at h ⊢
    rw [neg_sub] at h ⊢
    exact i64_eq (by omega) (by omega)

/-- The worst case of a buy. -/
theorem buy_within (hfits : g.overflows .buy qty = false) (h : g.overLimit .buy qty = false) :
    g.position + g.openBuy + qty ≤ g.lim.maxPosition := by
  have hle : g.worstCase .buy qty ≤ g.lim.maxPosition := not_lt.mp (of_decide_eq_false h)
  rw [worstCase, i64_i64_add] at hle
  exact (self_le_i64 (not_le.mp (of_decide_eq_false hfits))).trans hle

/-- The worst case of a sell. -/
theorem sell_within (hlim : g.lim.Nonneg) (hfits : g.overflows .sell qty = false)
    (h : g.overLimit .sell qty = false) :
    -g.lim.maxPosition ≤ g.position - g.openSell - qty := by
  have hle : i64 (-g.lim.maxPosition) ≤ g.worstCase .sell qty := not_lt.mp (of_decide_eq_false h)
  have hmax := hlim.maxPosition
  rw [worstCase, i64_i64_sub] at hle
  calc -g.lim.maxPosition ≤ i64 (-g.lim.maxPosition) := self_le_i64 (by omega)
    _ ≤ i64 (g.position - g.openSell - qty) := hle
    _ ≤ g.position - g.openSell - qty := i64_le_self (not_lt.mp (of_decide_eq_false hfits))

/-- **A `Pass` without a wrap** is a `Pass` in exact arithmetic. -/
theorem within_of_pass (hlim : g.lim.Nonneg) (hfits : g.Fits side price qty reference)
    (hpass : g.check side price qty reference now = .pass) : g.Within side price qty reference := by
  obtain ⟨-, ⟨hpos, hle⟩, hnotional, href, hcollar, hopen, hlimit, -⟩ := check_eq_pass.mp hpass
  refine ⟨hpos, hle, (self_le_i64 hfits.notional).trans hnotional, href, ?_, hopen, ?_, ?_⟩
  · have hbps : 0 ≤ g.lim.priceCollarBps * reference :=
      mul_nonneg hlim.priceCollarBps.1 href.le
    rw [deviation_eq hfits.collar] at hcollar
    calc |price - reference| * 10000 ≤ i64 (|price - reference| * 10000) :=
          self_le_i64 hfits.collar
      _ ≤ i64 (g.lim.priceCollarBps * reference) := hcollar
      _ ≤ g.lim.priceCollarBps * reference := i64_le_self (by omega)
  · rintro rfl
    exact buy_within hfits.position hlimit
  · rintro rfl
    exact sell_within hlim hfits.position hlimit

/-- **An order within the limits** makes no result wrap above. -/
theorem Within.fits (h : g.Within side price qty reference) (hlim : g.lim.Nonneg)
    (hbound : g.lim.priceCollarBps * reference < 2 ^ 63) : g.Fits side price qty reference := by
  have hmax := hlim.maxPosition
  refine ⟨h.notional.trans_lt hlim.maxNotional.2, h.collar.trans_lt hbound, ?_⟩
  cases side with
  | buy =>
    have hle := h.buy rfl
    simp only [overflows, decide_eq_false_iff_not, not_le]
    omega
  | sell =>
    have hle := h.sell rfl
    simp only [overflows, decide_eq_false_iff_not, not_lt]
    omega

/-! ## Runs -/

/-- The calls never change the limits. -/
theorem lim_run (lim : RiskLimits) (calls : List Call) : (run lim calls).lim = lim := by
  have hfold : ∀ (calls : List Call) (g : RiskGate), (calls.foldl apply g).lim = g.lim := by
    intro calls
    induction calls with
    | nil => exact fun _ => rfl
    | cons call calls ih =>
      intro g
      rw [List.foldl_cons, ih]
      cases call with
      | sent side qty now => rfl
      | fill side qty => cases side <;> rfl
      | cancelled side qty => cases side <;> rfl
      | closed => rfl
      | killSwitch on => rfl
  exact hfold calls (new lim)

/-- **The limits are enforced in exact arithmetic** on every order that `check` passes after any
calls, when no product or sum of the check is `2 ^ 63` or more. An order that passes with one that
is violates a limit, unless the bound of the collar is as large itself. -/
theorem check_exact_of_fits (lim : RiskLimits) (hlim : lim.Nonneg) (calls : List Call)
    (side : Side) (price : ℤ) (qty : ℕ) (reference : ℤ) (now : ℕ)
    (hpass : (run lim calls).check side price qty reference now = .pass) :
    ((run lim calls).Fits side price qty reference →
      (run lim calls).Within side price qty reference) ∧
    (lim.priceCollarBps * reference < 2 ^ 63 →
      (run lim calls).Within side price qty reference →
      (run lim calls).Fits side price qty reference) := by
  have hsame := lim_run lim calls
  have hlim' : (run lim calls).lim.Nonneg := by
    rw [hsame]
    exact hlim
  refine ⟨fun hfits => within_of_pass hlim' hfits hpass, fun hbound h => h.fits hlim' ?_⟩
  rw [hsame]
  exact hbound

/-- An order of 100 shares under the default limits. -/
theorem check_exact_default :
    (run {} []).check .buy 1000000 100 1000000 0 = .pass ∧
      (run {} []).Within .buy 1000000 100 1000000 := by
  have hpass : (run {} []).check .buy 1000000 100 1000000 0 = .pass := by decide +kernel
  have hlim : RiskLimits.Nonneg {} := ⟨by decide, by decide, by decide⟩
  refine ⟨hpass, (check_exact_of_fits {} hlim [] .buy 1000000 100 1000000 0 hpass).1 ?_⟩
  exact ⟨by decide, by decide, by decide⟩

/-- **A price of 115 trillion** passes the default limits at a reference of 100: the notional and
the collar both wrap. -/
theorem wrapped_order_passes :
    (run {} []).check .buy (2 ^ 60 + 1000000) 96 1000000 0 = .pass ∧
      ¬ (run {} []).Within .buy (2 ^ 60 + 1000000) 96 1000000 := by
  refine ⟨by decide +kernel, fun h => ?_⟩
  exact absurd h.notional (by decide)

end RiskGate

end PulseForge
