import PulseForge.Analysis.FlatIdMapUpdates
import PulseForge.Analysis.RiskExposure
import PulseForge.Analysis.TraderMoves

/-!
# The books of the trader

The strategy sends an order only when none is open, so the table holds at most one. Whatever
reports arrive, the gate's open quantity is what that order has left: a report is cut to the
leaves of the order it names, and the order is closed once, when nothing is left.
-/

set_option autoImplicit false

namespace PulseForge

open Foundation

/-! ## A table of at most one entry -/

namespace FlatIdMap

variable {V : Type} [Inhabited V] {m : FlatIdMap V} {key : ℕ} {v : V}

/-- The map holds `live` and nothing else. -/
structure Holds (m : FlatIdMap V) (live : Option (ℕ × V)) : Prop where
  wf : WF m
  entries : m.forEach = live.toList

/-- A table of size 0 holds nothing. -/
theorem holds_none (h : WF m) (hsize : m.size = 0) : Holds m none :=
  ⟨h, List.eq_nil_of_length_eq_zero ((length_forEach h).trans hsize)⟩

/-- A table of size 1 holds the entry that is found. -/
theorem holds_some (h : WF m) (hsize : m.size = 1) (hfind : m.find key = some v) :
    Holds m (some (key, v)) := by
  refine ⟨h, ?_⟩
  obtain ⟨e, he⟩ := List.length_eq_one_iff.mp ((length_forEach h).trans hsize)
  have hmem := (mem_forEach_iff h).mpr hfind
  rw [he, List.mem_singleton] at hmem
  rw [he, ← hmem]
  rfl

namespace Holds

/-- The size of a table of at most one entry. -/
theorem size {live : Option (ℕ × V)} (h : Holds m live) : m.size = live.toList.length := by
  rw [← length_forEach h.wf, h.entries]

/-- The one entry is found. -/
theorem find_self (h : Holds m (some (key, v))) : m.find key = some v := by
  rw [← mem_forEach_iff h.wf, h.entries]
  exact List.mem_singleton.mpr rfl

/-- What is found is the one entry. -/
theorem find_eq_some {live : Option (ℕ × V)} (h : Holds m live) (hf : m.find key = some v) :
    live = some (key, v) := by
  rw [← mem_forEach_iff h.wf, h.entries] at hf
  exact Option.mem_toList.mp hf

/-- **The first entry.** -/
theorem insert (h : Holds m none) (hkey : key ≠ kEmpty) (hroom : 0 < m.maxEntries) (v : V) :
    Holds (m.insert key v).1 (some (key, v)) ∧ (m.insert key v).1.maxEntries = m.maxEntries := by
  have hsize : m.size = 0 := h.size
  have hnone : m.find key = none := by
    cases hf : m.find key with
    | none => rfl
    | some w => exact nomatch h.find_eq_some hf
  obtain ⟨m', hins, hwf, hmax, hsize', hfind⟩ := insert_of_new h.wf v hkey (by omega) hnone
  rw [hins]
  have hone : m'.size = 1 := by omega
  refine ⟨holds_some hwf hone ?_, hmax⟩
  rw [hfind, if_pos rfl]

/-- Modifying the one entry. -/
theorem modify (h : Holds m (some (key, v))) (f : V → V) :
    Holds (m.modify key f) (some (key, f v)) ∧ (m.modify key f).maxEntries = m.maxEntries := by
  obtain ⟨hwf, hmax, hsize, hfind⟩ := modify_spec h.wf key f
  refine ⟨holds_some hwf (hsize.trans h.size) ?_, hmax⟩
  rw [hfind, if_pos rfl, h.find_self, Option.map_some]

/-- Erasing the one entry. -/
theorem erase (h : Holds m (some (key, v))) :
    Holds (m.erase key).1 none ∧ (m.erase key).1.maxEntries = m.maxEntries := by
  obtain ⟨m', her, hwf, hmax, hsize, -⟩ := erase_of_mem h.wf h.find_self
  have hone : m.size = 1 := h.size
  have hnone : m'.size = 0 := by omega
  rw [her]
  exact ⟨holds_none hwf hnone, hmax⟩

end Holds

end FlatIdMap

namespace Trader

variable {t t' : Trader} {live : Option (ℕ × LiveOrder)}

/-! ## The ledger -/

/-- The shares that the entries of a side have left. -/
def leavesOf (side : Side) (entries : List (ℕ × LiveOrder)) : ℤ :=
  ((entries.filter fun e => e.2.side = side).map fun e => (e.2.leaves : ℤ)).sum

/-- The open shares of one order. -/
theorem leavesOf_one (side : Side) (k : ℕ) (o : LiveOrder) :
    leavesOf side [(k, o)] = if side = o.side then (o.leaves : ℤ) else 0 := by
  unfold leavesOf
  by_cases hside : side = o.side
  · simp [hside]
  · simp [hside, Ne.symm hside]

/-- **The books of the trader**: the one order that may be open, and what the gate knows of it. -/
structure Ledger (t : Trader) (live : Option (ℕ × LiveOrder)) : Prop where
  table : t.orders.Holds live
  room : t.orders.maxEntries = 1024
  leaves : ∀ e ∈ live, 0 < e.2.leaves ∧ e.2.leaves ≤ e.2.qty
  gate : t.risk.Safe
  openOrders : t.risk.openOrders = live.toList.length
  openQty : ∀ side, t.risk.openQty side = leavesOf side live.toList

/-- **The constructor** opens empty books. -/
theorem ledger_new {cfg : TraderConfig} {clock : Clock} {kernel : ℕ → Session.Send}
    (h0 : 0 ≤ cfg.risk.maxPosition) (hwidth : cfg.risk.maxPosition < 2 ^ 63)
    (h : Trader.new cfg clock kernel = some t) : Ledger t none := by
  obtain ⟨orders', horders', hwf, hroom, hsize, -⟩ :=
    @FlatIdMap.new_spec LiveOrder _ _ (show 1024 ≤ 2 ^ 62 by norm_num)
  obtain ⟨book, orders, -, horders, rfl⟩ := new_eq_some h
  obtain rfl : orders' = orders := Option.some.inj (horders'.symm.trans horders)
  refine ⟨FlatIdMap.holds_none hwf hsize, hroom, fun e he => (by cases he), ?_, rfl, fun side => ?_⟩
  · exact RiskGate.safe_new h0 hwidth
  · cases side with
    | buy => rfl
    | sell => rfl

/-- **The order is closed** when nothing of it is open. -/
theorem Ledger.close {k : ℕ} {o : LiveOrder} (htable : t.orders.Holds (some (k, o)))
    (hroom : t.orders.maxEntries = 1024) (hsafe : t.risk.Safe) (hone : t.risk.openOrders = 1)
    (hflat : ∀ side, t.risk.openQty side = 0) : Ledger (t.closeOrder k) none := by
  obtain ⟨hnone, hroom'⟩ := htable.erase
  refine ⟨hnone, hroom'.trans hroom, fun e he => (by cases he), ?_, ?_, hflat⟩
  · exact ⟨hsafe.max_nonneg, hsafe.max_lt, hsafe.nonneg, hsafe.small, hsafe.buy, hsafe.sell⟩
  · show t.risk.openOrders - 1 = 0
    omega

/-- The shares a report is about are cut to the leaves of the order: **a fill or a cancel** of
`q` shares, and the order is closed when nothing is left. -/
theorem Ledger.reduce {k : ℕ} {o : LiveOrder} {q : ℕ} {risk : RiskGate}
    (h : Ledger t (some (k, o))) (hq : q ≤ o.leaves) (hsafe : risk.Safe)
    (horders : risk.openOrders = t.risk.openOrders)
    (hopen : ∀ side, risk.openQty side =
      if side = o.side then t.risk.openQty o.side - q else t.risk.openQty side) :
    ∃ live, Ledger
      (if o.leaves - q = 0 then
        ({ t with
            orders := t.orders.modify k fun o => { o with leaves := o.leaves - q }
            risk := risk } : Trader).closeOrder k
      else
        { t with
          orders := t.orders.modify k fun o => { o with leaves := o.leaves - q }
          risk := risk }) live := by
  obtain ⟨hpos, hle⟩ : 0 < o.leaves ∧ o.leaves ≤ o.qty := h.leaves (k, o) rfl
  obtain ⟨htable, hroom⟩ := h.table.modify fun o => { o with leaves := o.leaves - q }
  have hself := h.openQty o.side
  rw [Option.toList_some, leavesOf_one, if_pos rfl] at hself
  have hone : t.risk.openOrders = 1 := h.openOrders
  by_cases hdone : o.leaves - q = 0
  · rw [if_pos hdone]
    refine ⟨none, .close htable (hroom.trans h.room) hsafe (horders.trans hone) fun side => ?_⟩
    show risk.openQty side = 0
    rw [hopen]
    split
    · omega
    · next hside => rw [h.openQty, Option.toList_some, leavesOf_one, if_neg hside]
  · rw [if_neg hdone]
    refine ⟨_, htable, hroom.trans h.room, fun e he => ?_, hsafe, horders.trans hone, fun side => ?_⟩
    · rw [← Option.mem_some.mp he]
      exact ⟨by simp only; omega, by simp only; omega⟩
    · show risk.openQty side = _
      rw [hopen, Option.toList_some, leavesOf_one]
      split
      · simp only
        omega
      · next hside => rw [h.openQty, Option.toList_some, leavesOf_one, if_neg hside]

/-- The gate knows the open shares of the one order. -/
theorem Ledger.open_self {k : ℕ} {o : LiveOrder} (h : Ledger t (some (k, o))) :
    t.risk.openQty o.side = o.leaves := by
  rw [h.openQty, Option.toList_some, leavesOf_one, if_pos rfl]

/-- The shares of a report, cut to what the order has left. -/
theorem Ledger.cut {k : ℕ} {o : LiveOrder} (h : Ledger t (some (k, o))) (qty : ℕ) :
    ∃ q : ℕ, (if o.leaves < qty then o.leaves else qty) = q ∧ q ≤ o.leaves ∧
      (q : ℤ) ≤ t.risk.openQty o.side := by
  rw [h.open_self]
  refine ⟨_, rfl, ?_, ?_⟩
  · split <;> omega
  · split <;> omega

/-- **Any report.** -/
theorem Ledger.onReport (h : Ledger t live) (m : Ouch.Outbound) : ∃ live, Ledger (t.onReport m) live := by
  cases m with
  | accepted ts userRef side qty symbol price tif orderRef clordid state =>
    simp only [Trader.onReport, onAccepted]
    cases hf : t.orders.find userRef.toNat with
    | none => exact ⟨live, h⟩
    | some o =>
      obtain rfl := h.table.find_eq_some hf
      obtain ⟨htable, hroom⟩ := h.table.modify fun o =>
        { o with accepted := true, exchId := orderRef.toNat }
      refine ⟨_, htable, hroom.trans h.room, fun e he => ?_, h.gate, h.openOrders, fun side => ?_⟩
      · rw [← Option.mem_some.mp he]
        exact h.leaves (_, o) rfl
      · show t.risk.openQty side = _
        rw [h.openQty, Option.toList_some, Option.toList_some, leavesOf_one, leavesOf_one]
  | executed ts userRef qty price liquidity matchNumber =>
    simp only [Trader.onReport, onExecuted]
    cases hf : t.orders.find userRef.toNat with
    | none => exact ⟨live, h⟩
    | some o =>
      obtain rfl := h.table.find_eq_some hf
      dsimp only
      obtain ⟨q, hq, hle, hopen⟩ := h.cut qty.toNat
      rw [hq]
      obtain ⟨hsafe, -, horders, hqty⟩ := h.gate.onFill hopen
      exact h.reduce hle hsafe horders hqty
  | canceled ts userRef qty reason =>
    simp only [Trader.onReport, onCanceled]
    cases hf : t.orders.find userRef.toNat with
    | none => exact ⟨live, h⟩
    | some o =>
      obtain rfl := h.table.find_eq_some hf
      dsimp only
      obtain ⟨q, hq, hle, hopen⟩ := h.cut qty.toNat
      rw [hq]
      obtain ⟨hsafe, -, horders, hqty⟩ := h.gate.onCancelled hopen
      exact h.reduce hle hsafe horders hqty
  | rejected ts userRef reason clordid =>
    simp only [Trader.onReport, onRejected]
    cases hf : t.orders.find userRef.toNat with
    | none => exact ⟨live, h⟩
    | some o =>
      obtain rfl := h.table.find_eq_some hf
      obtain ⟨hsafe, -, horders, hqty⟩ := h.gate.onCancelled h.open_self.ge
      obtain ⟨htable, hroom⟩ := h.table.modify fun o => { o with leaves := 0 }
      have hone : t.risk.openOrders = 1 := h.openOrders
      refine ⟨none, .close htable (hroom.trans h.room) hsafe (horders.trans hone) fun side => ?_⟩
      show (t.risk.onCancelled o.side o.leaves).openQty side = 0
      rw [hqty]
      split
      · rw [h.open_self, sub_self]
      · next hside => rw [h.openQty, Option.toList_some, leavesOf_one, if_neg hside]

/-- **An order is sent**, with a number that is not zero. -/
theorem Ledger.sendOrder {sig : Signal} {bookDone : ℕ} (h : Ledger t live) (hnone : t.orders.size = 0)
    (hqty : 0 < sig.qty ∧ sig.qty < 2 ^ 32) (href : t.nextUserRef ≠ 0)
    (hlimit : t.risk.overLimit sig.side sig.qty = false)
    (hfits : t.risk.overflows sig.side sig.qty = false) :
    Ledger (t.sendOrder sig bookDone) (some (t.nextUserRef, t.liveOrder sig)) := by
  have hlive : live = none := by
    have hsize := h.table.size
    rw [hnone] at hsize
    cases live with
    | none => rfl
    | some e => exact nomatch hsize
  subst hlive
  have hflat : ∀ side, t.risk.openQty side = 0 := fun side => h.openQty side
  obtain ⟨hsafe, -, horders, hopen⟩ :=
    h.gate.onOrderSent hqty.2 hflat h.openOrders hlimit hfits bookDone
  obtain ⟨htable, hroom⟩ := h.table.insert href (by rw [h.room]; decide) (t.liveOrder sig)
  obtain ⟨t₁, txRing, txHead, hstream, heq⟩ := t.sendOrder_eq sig bookDone
  have hsame : t₁.orders = t.orders := hstream.orders
  have hgate : t₁.risk = t.risk := hstream.risk
  rw [heq, hsame, hgate]
  refine ⟨htable, hroom.trans h.room, fun e he => ?_, hsafe, horders, fun side => ?_⟩
  · rw [← Option.mem_some.mp he]
    exact ⟨hqty.1, le_rfl⟩
  · rw [Option.toList_some, leavesOf_one]
    exact hopen side

end Trader

end PulseForge
