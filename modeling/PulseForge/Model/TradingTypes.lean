import Mathlib.Tactic

/-!
# The vocabulary of the trading loop (`trading_types.hpp`)

A `Price` is a fixed-point integer with four implied decimals, in `ℤ`. An `OrderId`, a
`Qty`, an owner and a user reference are in `ℕ`: every operation on them in the book and
the engine is a comparison, a minimum or a difference that cannot go below zero, so the
machine widths show only on the wire, where the codecs truncate to them.
-/

set_option autoImplicit false

namespace PulseForge

/-- `$1.00`. -/
def kPriceScale : ℤ := 10000

/-- `$0.01`. -/
def kCent : ℤ := kPriceScale / 100

inductive Side where
  | buy
  | sell
deriving Repr, DecidableEq, Inhabited

/-- The other side. -/
def Side.opposite : Side → Side
  | .buy => .sell
  | .sell => .buy

/-- The wire value of a side: `'B'` or `'S'`. -/
def Side.code : Side → UInt8
  | .buy => 66
  | .sell => 83

/-- The side of a wire value; `none` unless `is_valid_side`. -/
def Side.ofCode (c : UInt8) : Option Side :=
  if c = 66 then some .buy else if c = 83 then some .sell else none

/-- How long an order may rest. -/
inductive TimeInForce where
  | day
  | ioc
deriving Repr, DecidableEq, Inhabited

/-- The wire value of a time in force: `'0'` or `'3'`. -/
def TimeInForce.code : TimeInForce → UInt8
  | .day => 48
  | .ioc => 51

/-- The time in force of a wire value; `none` unless `is_valid_tif`. -/
def TimeInForce.ofCode (c : UInt8) : Option TimeInForce :=
  if c = 48 then some .day else if c = 51 then some .ioc else none

/-- `a` is a strictly better price than `b` on side `s`: higher for bids, lower for asks. -/
def Side.better (s : Side) (a b : ℤ) : Prop :=
  match s with
  | .buy => b < a
  | .sell => a < b

instance (s : Side) (a b : ℤ) : Decidable (s.better a b) := by
  unfold Side.better
  cases s <;> infer_instance

/-- An incoming order of side `s` with limit `limit` may trade at the resting price `p`
(matching_engine.cpp:59-60). -/
def Side.crosses (s : Side) (p limit : ℤ) : Prop :=
  match s with
  | .buy => p ≤ limit
  | .sell => limit ≤ p

instance (s : Side) (p limit : ℤ) : Decidable (s.crosses p limit) := by
  unfold Side.crosses
  cases s <;> infer_instance

/-- Nanoseconds in a day. -/
def kNanosPerDay : ℕ := 86400 * 1000000000

/-- Nanoseconds since midnight of a real-time reading. -/
def nsSinceMidnight (realtimeNs : ℕ) : ℕ := realtimeNs % kNanosPerDay

/-- A fixed-width character field. -/
abbrev Alpha (width : ℕ) := Fin width → UInt8

/-- Eight bytes, left-justified, space-padded. -/
abbrev Symbol := Alpha 8

end PulseForge
