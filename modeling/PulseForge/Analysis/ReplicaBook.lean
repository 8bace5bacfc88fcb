import PulseForge.Analysis.EngineRuns
import PulseForge.Analysis.ItchCodec
import PulseForge.Model.FeedHandler
import PulseForge.Model.PublicFeed

/-!
# A replica book follows the venue

The public messages name no owner, so a replica holds the anonymous orders of the market.
One callback changes one market, and the message published in it changes the replica of that
market in the same way (`Mirrors.step`); a callback without a message changes no market.
-/

set_option autoImplicit false

namespace PulseForge

open Foundation

/-! ## Anonymous markets -/

/-- The order as the public feed shows it. -/
def BookOrder.anonymous (o : BookOrder) : BookOrder := { o with owner := 0, userRef := 0 }

/-- What the public feed shows of an order: id, side, price and remaining quantity. -/
def BookOrder.visible (o : BookOrder) : ℕ × Side × ℤ × ℕ := (o.id, o.side, o.price, o.qty)

namespace Market

variable {m : Market} {o : BookOrder}

/-- The market as the public feed shows it. -/
def anonymous (m : Market) : Market :=
  ⟨m.cfg, m.bids.map BookOrder.anonymous, m.asks.map BookOrder.anonymous⟩

/-- A market without its owners has the same grid. -/
@[simp] theorem anonymous_cfg (m : Market) : m.anonymous.cfg = m.cfg := rfl

/-- The sides of a market without its owners. -/
theorem anonymous_side (m : Market) (s : Side) :
    m.anonymous.side s = (m.side s).map BookOrder.anonymous := by
  cases s <;> rfl

/-- The orders of a market without its owners. -/
theorem anonymous_orders (m : Market) : m.anonymous.orders = m.orders.map BookOrder.anonymous := by
  simp [orders, anonymous]

/-- Forgetting the owners after writing a side. -/
theorem anonymous_setSide (m : Market) (s : Side) (l : List BookOrder) :
    (m.setSide s l).anonymous = m.anonymous.setSide s (l.map BookOrder.anonymous) := by
  cases s <;> rfl

/-- An order is found without its owner. -/
theorem anonymous_find (m : Market) (id : ℕ) :
    m.anonymous.find id = (m.find id).map BookOrder.anonymous := by
  rw [find, anonymous_orders, List.find?_map]
  rfl

/-- Taking shares is the same with and without names. -/
theorem anonymous_take (m : Market) (o : BookOrder) (q : ℕ) :
    (m.take o q).anonymous = m.anonymous.take o.anonymous q := by
  rw [take, take, anonymous_setSide, anonymous_side]
  congr 1
  have hq : o.anonymous.qty = o.qty := rfl
  rw [hq]
  split
  · rw [List.filter_map]
    rfl
  · rw [List.map_map, List.map_map]
    apply List.map_congr_left
    intro x _
    rw [Function.comp_apply, Function.comp_apply]
    by_cases hid : x.id = o.id
    · rw [if_pos hid, if_pos (show x.anonymous.id = o.anonymous.id from hid)]
      rfl
    · rw [if_neg hid, if_neg (show ¬ x.anonymous.id = o.anonymous.id from hid)]

/-- So is coming to rest. -/
theorem anonymous_rest (m : Market) (o : BookOrder) :
    (m.rest o).anonymous = m.anonymous.rest o.anonymous := by
  rw [rest, rest, anonymous_setSide, anonymous_side]
  congr 1
  apply List.map_orderedInsert
  · intro x y
    rfl
  · intro x y
    rfl

/-- Whether an order fits does not depend on the owners. -/
theorem anonymous_refuses (m : Market) (id : ℕ) : m.anonymous.refuses id ↔ m.refuses id := by
  simp [refuses, anonymous_orders, anonymous_find]

end Market

/-! ## Values that fit the fields of the messages -/

/-- The arguments of a request are values of their machine types: a locate of 16 bits, an id
of 64 bits and a quantity of 32 bits. -/
def EngineOp.Fits : EngineOp → Prop
  | .addSymbol _ _ => True
  | .submit locate req => locate < 2 ^ 16 ∧ req.id < 2 ^ 64 ∧ req.qty < 2 ^ 32
  | .cancel locate _ _ _ _ => locate < 2 ^ 16

instance (op : EngineOp) : Decidable op.Fits := by
  cases op <;> unfold EngineOp.Fits <;> infer_instance

/-- The prices of the band fit in 32 bits. -/
def BookConfig.Fits (cfg : BookConfig) : Prop := 0 ≤ cfg.minPrice ∧ cfg.maxPrice < 2 ^ 32

instance (cfg : BookConfig) : Decidable cfg.Fits := inferInstanceAs (Decidable (_ ∧ _))

/-- The locate of an event. -/
def Event.locate : Event → ℕ
  | .accepted l _ | .rejected l _ _ | .fill l _ | .rested l _ | .restingCancelled l _ _ _
  | .takerCancelled l _ _ _ => l

/-- The locate and the accepted order of an event fit. -/
def Event.Fits : Event → Prop
  | .accepted l req => l < 2 ^ 16 ∧ req.id < 2 ^ 64 ∧ req.qty < 2 ^ 32
  | ev => ev.locate < 2 ^ 16

/-- The locate of an event fits its field. -/
theorem Event.Fits.locate_lt {ev : Event} (h : ev.Fits) : ev.locate < 2 ^ 16 := by
  cases ev with
  | accepted l req => exact h.1
  | _ => exact h

/-- The events of a call whose values fit have values that fit. -/
theorem EngineOp.Fits.event {op : EngineOp} {ev : Event} (h : op.Fits)
    (hev : MatchingEngine.EngineOp.Emits op ev) : ev.Fits := by
  cases op with
  | addSymbol _ _ => exact absurd hev id
  | submit locate req =>
    cases ev with
    | accepted l r =>
      obtain ⟨rfl, rfl⟩ := hev
      exact h
    | rejected _ _ _ => exact hev.1 ▸ h.1
    | takerCancelled _ _ _ _ => exact hev.1 ▸ h.1
    | fill l _ =>
      obtain rfl : l = locate := hev
      exact h.1
    | restingCancelled l _ _ _ =>
      obtain rfl : l = locate := hev
      exact h.1
    | rested _ _ => exact hev.1 ▸ h.1
  | cancel locate id newQty owner why =>
    obtain ⟨o, shares, rfl⟩ := hev
    exact h

/-- What is open at a locate fits. -/
structure Flow.Fits (locate : ℕ) (x : Flow) : Prop where
  orders : ∀ m, x.engine.market? locate = some m → ∀ o ∈ m.orders, o.id < 2 ^ 64 ∧ o.qty < 2 ^ 32
  taker : ∀ l req remaining, x.taker = some (l, req, remaining) →
    req.id < 2 ^ 64 ∧ remaining < 2 ^ 32

namespace Flow.Fits

variable {x y : Flow} {locate : ℕ} {ev : Event}

/-- Orders that lost shares still fit. -/
theorem take {r : RefEngine} {t t' : Option (ℕ × OrderRequest × ℕ)} (h : Fits locate ⟨r, t⟩)
    (hr : r.WF) {l : ℕ} {m : Market} (hm : r.market? l = some m) {o : BookOrder}
    (ho : o ∈ m.orders) (q n : ℕ)
    (ht : ∀ l req remaining, t' = some (l, req, remaining) → req.id < 2 ^ 64 ∧ remaining < 2 ^ 32) :
    Fits locate ⟨{ r.setMarket l (m.take o q) with nextMatch := n }, t'⟩ where
  orders m' hm' x hx := by
    have hmarket : (r.setMarket l (m.take o q)).market? locate = some m' := hm'
    rw [RefEngine.market?_setMarket_eq hm] at hmarket
    split at hmarket
    · next hl =>
      obtain rfl := Option.some.inj hmarket
      have hold := h.orders m (by rw [hl]; exact hm)
      rcases ((hr.market hm).mem_take_iff ho).mp hx with ⟨hx, -⟩ | hleft
      · exact hold x hx
      · unfold Market.leftOf at hleft
        split at hleft
        · exact absurd hleft (by simp)
        · obtain rfl := Option.some.inj hleft
          have := hold o ho
          exact ⟨this.1, lt_of_le_of_lt (Nat.sub_le _ _) this.2⟩
    · exact h.orders m' hmarket x hx
  taker := ht

/-- **Every rule of the event protocol keeps what is open within its width.** -/
theorem step (h : x.Fits locate) (hx : x.engine.WF) (hev : ev.Fits) (hstep : x.Step ev y) :
    y.Fits locate := by
  cases hstep with
  | rejected _ => exact h
  | @accepted r l req hok =>
    refine ⟨h.orders, fun l' req' remaining' ht => ?_⟩
    obtain ⟨-, rfl, rfl⟩ : l = l' ∧ req = req' ∧ req.qty = remaining' := by simpa using ht
    exact hev.2
  | @fill r l m req remaining maker rest hmarket hfront hremaining hcross hother =>
    have hmem : maker ∈ m.orders := (m.mem_orders_iff).mpr ⟨_, by rw [hfront]; simp⟩
    refine h.take hx hmarket hmem _ _ fun l' req' remaining' ht => ?_
    have htaker := h.taker l req remaining rfl
    unfold Flow.taking at ht
    split at ht
    · exact absurd ht (by simp)
    · obtain ⟨-, rfl, rfl⟩ : l = l' ∧ req = req' ∧ _ = remaining' := by simpa using ht
      exact ⟨htaker.1, lt_of_le_of_lt (Nat.sub_le _ _) htaker.2⟩
  | @selfMatch r l m req remaining maker rest hmarket hfront hremaining hown hstp =>
    have hmem : maker ∈ m.orders := (m.mem_orders_iff).mpr ⟨_, by rw [hfront]; simp⟩
    exact h.take hx hmarket hmem _ _ h.taker
  | takerCancelled _ => exact ⟨h.orders, by simp⟩
  | @rested r l m req remaining hmarket hremaining hday hgrid hroom hclear =>
    refine ⟨fun m' hm' o ho => ?_, by simp⟩
    simp only at hm'
    rw [RefEngine.market?_setMarket_eq hmarket] at hm'
    split at hm'
    · next hl =>
      obtain rfl := Option.some.inj hm'
      rcases Market.mem_rest_iff.mp ho with rfl | ho
      · exact h.taker l req remaining rfl
      · exact h.orders m (by rw [hl]; exact hmarket) o ho
    · exact h.orders m' hm' o ho
  | @cancelled r l m o shares why hmarket hfind hpos hle =>
    have hmem := ((hx.market hmarket).find_eq_some_iff.mp hfind).1
    exact h.take hx hmarket hmem _ _ h.taker

end Flow.Fits

/-! ## The replica of one market -/

/-- The locate of a public message; the other messages are not about one book. -/
def Itch.Message.locate? : Itch.Message → Option UInt16
  | .addOrder l _ _ _ _ _ _ | .orderExecuted l _ _ _ _ | .orderCancel l _ _ _
  | .orderDelete l _ _ => some l
  | .systemEvent .. | .stockDirectory .. | .endOfSnapshot .. => none

/-- The book is a replica of the market. -/
structure Mirrors (b : OrderBook) (m : Market) : Prop where
  wf : b.WF
  market_eq : b.market = m.anonymous

namespace Mirrors

variable {b : OrderBook} {m : Market} {o : BookOrder}

/-- A replica finds the orders of its market. -/
theorem find (h : Mirrors b m) (id : ℕ) : b.find id = (m.find id).map BookOrder.anonymous := by
  rw [← OrderBook.market_find h.wf, h.market_eq, Market.anonymous_find]

/-- **The replica shows what the market shows.** -/
theorem visible (h : Mirrors b m) :
    b.forEachOrder.map BookOrder.visible = m.orders.map BookOrder.visible := by
  rw [← OrderBook.market_orders, h.market_eq, Market.anonymous_orders, List.map_map]
  rfl

/-- Reducing an order of the replica takes the shares off the market's order. -/
theorem reduce (h : Mirrors b m) {id q : ℕ} (hfind : m.find id = some o) (hle : q ≤ o.qty) :
    ∃ b', b.reduce id q = (b', true) ∧ Mirrors b' (m.take o q) := by
  have hf : b.find id = some o.anonymous := by rw [h.find, hfind]; rfl
  obtain ⟨b', hb', -⟩ := OrderBook.reduce_orders h.wf hf hle
  obtain ⟨hwf, -, hmarket⟩ := OrderBook.reduce_market h.wf hf hle
  rw [hb'] at hwf hmarket
  exact ⟨b', hb', hwf, by rw [hmarket, h.market_eq, Market.anonymous_take]⟩

/-- Removing it takes all of them. -/
theorem remove (h : Mirrors b m) {id : ℕ} (hfind : m.find id = some o) :
    ∃ b', b.remove id = (b', true) ∧ Mirrors b' (m.take o o.qty) := by
  have hf : b.find id = some o.anonymous := by rw [h.find, hfind]; rfl
  obtain ⟨b', hb', -⟩ := OrderBook.remove_orders h.wf hf
  obtain ⟨hwf, -, hmarket⟩ := OrderBook.remove_market h.wf hf
  rw [hb'] at hwf hmarket
  refine ⟨b', hb', hwf, ?_⟩
  rw [hmarket, h.market_eq, Market.anonymous_take]
  rfl

/-- Adding an order to the replica lets it rest in the market. -/
theorem add (h : Mirrors b m) (hgrid : m.cfg.onGrid o.price) (hqty : o.qty ≠ 0)
    (hroom : ¬ m.refuses o.id) :
    ∃ b', b.add o.id o.side o.price o.qty 0 0 = (b', .ok) ∧ Mirrors b' (m.rest o) := by
  have hcfg : b.cfg = m.cfg := congrArg Market.cfg h.market_eq
  rcases OrderBook.add_market h.wf o.id o.side 0 0 (by rw [hcfg]; exact hgrid) hqty with
    ⟨hrefused, -⟩ | ⟨-, hok, hwf, -, hmarket, -⟩
  · rw [h.market_eq, Market.anonymous_refuses] at hrefused
    exact absurd hrefused hroom
  · refine ⟨_, Prod.ext rfl hok, hwf, ?_⟩
    rw [hmarket, h.market_eq, Market.anonymous_rest]
    rfl

end Mirrors

/-! ## One message -/

section Apply

variable {b : OrderBook} {m : Market} {o : BookOrder} {locate : UInt16}

/-- The answer to a message that the replica follows. -/
def expectedAnswer (locate : UInt16) (msg : Itch.Message) : ApplyResult :=
  if msg.locate? = some locate then .applied else .ignored

/-- A public message of another symbol is ignored. -/
theorem applyItch_other {msg : Itch.Message} (h : msg.locate? ≠ some locate) (b : OrderBook) :
    applyItch b locate msg = (b, expectedAnswer locate msg) := by
  rw [expectedAnswer, if_neg h]
  cases msg <;> simp_all [applyItch, Itch.Message.locate?]

/-- A price of the grid survives its field. -/
theorem toNat_price {p : ℤ} (h0 : 0 ≤ p) (hlt : p < 2 ^ 32) : ((UInt32.ofInt p).toNat : ℤ) = p := by
  obtain ⟨n, rfl⟩ := Int.eq_ofNat_of_zero_le h0
  rw [UInt32.ofInt]
  simp only [UInt32.toNat_ofNat']
  omega

/-- An execution takes the shares off the replica too. -/
theorem applyItch_executed (locate : UInt16) (h : Mirrors b m) {f : Fill} (hfind : m.find f.makerId = some o)
    (hle : f.qty ≤ o.qty) (hid : o.id = f.makerId) (hfits : o.id < 2 ^ 64 ∧ o.qty < 2 ^ 32)
    (ts : UInt64) :
    ∃ b', applyItch b locate (executedMessage locate.toNat ts f) = (b', .applied) ∧
      Mirrors b' (m.take o f.qty) := by
  obtain ⟨b', hb', hmir⟩ := h.reduce hfind hle
  have h1 : (UInt64.ofNat f.makerId).toNat = f.makerId := by
    rw [UInt64.toNat_ofNat']
    omega
  have h2 : (UInt32.ofNat f.qty).toNat = f.qty := by
    rw [UInt32.toNat_ofNat']
    omega
  refine ⟨b', ?_, hmir⟩
  simp [applyItch, executedMessage, h1, h2, hb', ApplyResult.ofBool]

/-- A cancel takes the shares off the replica too. -/
theorem applyItch_cancel (locate : UInt16) (h : Mirrors b m) {q : ℕ} (hfind : m.find o.id = some o)
    (hle : q ≤ o.qty) (hfits : o.id < 2 ^ 64 ∧ o.qty < 2 ^ 32) (ts : UInt64) :
    ∃ b', applyItch b locate (cancelMessage locate.toNat ts o q) = (b', .applied) ∧
      Mirrors b' (m.take o q) := by
  have h1 : (UInt64.ofNat o.id).toNat = o.id := by
    rw [UInt64.toNat_ofNat']
    omega
  have h2 : (UInt32.ofNat q).toNat = q := by
    rw [UInt32.toNat_ofNat']
    omega
  unfold cancelMessage
  split
  · next hq =>
    obtain ⟨b', hb', hmir⟩ := h.remove hfind
    refine ⟨b', ?_, hq ▸ hmir⟩
    simp [applyItch, h1, hb', ApplyResult.ofBool]
  · obtain ⟨b', hb', hmir⟩ := h.reduce hfind hle
    refine ⟨b', ?_, hmir⟩
    simp [applyItch, h1, h2, hb', ApplyResult.ofBool]

/-- A new order rests in the replica too. -/
theorem applyItch_add (locate : UInt16) (h : Mirrors b m) (hband : m.cfg.Fits)
    (hgrid : m.cfg.onGrid o.price) (hqty : o.qty ≠ 0) (hroom : ¬ m.refuses o.id) (hfits : o.id < 2 ^ 64 ∧ o.qty < 2 ^ 32)
    (ts : UInt64) (stock : Symbol) :
    ∃ b', applyItch b locate (addMessage locate.toNat ts stock o) = (b', .applied) ∧
      Mirrors b' (m.rest o) := by
  obtain ⟨b', hb', hmir⟩ := h.add hgrid hqty hroom
  have h1 : (UInt64.ofNat o.id).toNat = o.id := by
    rw [UInt64.toNat_ofNat']
    omega
  have h2 : (UInt32.ofNat o.qty).toNat = o.qty := by
    rw [UInt32.toNat_ofNat']
    omega
  have h3 : ((UInt32.ofInt o.price).toNat : ℤ) = o.price :=
    toNat_price (hband.1.trans hgrid.1) (lt_of_le_of_lt hgrid.2.1 hband.2)
  refine ⟨b', ?_, hmir⟩
  simp [applyItch, addMessage, h1, h2, h3, hb', ApplyResult.ofBool]

/-- A message carries the locate of its event. -/
theorem publicMessage_locate {e : MatchingEngine} {now : ℕ} {ev : Event} {msg : Itch.Message}
    (h : publicMessage e now ev = some msg) : msg.locate? = some (UInt16.ofNat ev.locate) := by
  cases ev <;> simp only [publicMessage, Option.some.injEq, reduceCtorEq] at h
  · rw [← h]
    rfl
  · rw [← h]
    rfl
  · rw [← h, cancelMessage]
    split <;> rfl

/-- The message of an event at another locate is not for this replica. -/
theorem publicMessage_other {e : MatchingEngine} {now : ℕ} {ev : Event} {msg : Itch.Message}
    (h : publicMessage e now ev = some msg) (hlt : ev.locate < 2 ^ 16)
    (hne : ev.locate ≠ locate.toNat) : msg.locate? ≠ some locate := by
  rw [publicMessage_locate h]
  intro hc
  apply hne
  rw [← Option.some.inj hc, UInt16.toNat_ofNat']
  omega

/-- Outside the locate of the event no market changes. -/
theorem Flow.Step.market?_other {x y : Flow} {ev : Event} (hstep : x.Step ev y) {l : ℕ}
    (hl : l ≠ ev.locate) : y.engine.market? l = x.engine.market? l := by
  cases hstep with
  | rejected _ => rfl
  | accepted _ => rfl
  | fill hmarket _ _ _ _ =>
    exact RefEngine.market?_setMarket_of_ne hl (RefEngine.locate_ne_zero hmarket) _
  | selfMatch hmarket _ _ _ _ =>
    exact RefEngine.market?_setMarket_of_ne hl (RefEngine.locate_ne_zero hmarket) _
  | takerCancelled _ => rfl
  | rested hmarket _ _ _ _ _ =>
    exact RefEngine.market?_setMarket_of_ne hl (RefEngine.locate_ne_zero hmarket) _
  | cancelled hmarket _ _ _ =>
    exact RefEngine.market?_setMarket_of_ne hl (RefEngine.locate_ne_zero hmarket) _

/-- **One callback.** The message published in a callback does to the replica what the
callback did to the market; a callback without a message did nothing to it. -/
theorem Mirrors.step {x y : Flow} {ev : Event} (hstep : x.Step ev y) (hx : x.engine.WF)
    (hfits : x.Fits locate.toNat) (hev : ev.Fits) (hm : x.engine.market? locate.toNat = some m)
    (hband : m.cfg.Fits) (h : Mirrors b m) (e : MatchingEngine) (now : ℕ) :
    ∃ m', y.engine.market? locate.toNat = some m' ∧ m'.cfg = m.cfg ∧
      match publicMessage e now ev with
      | none => m' = m
      | some msg => ∃ b', applyItch b locate msg = (b', expectedAnswer locate msg) ∧
          Mirrors b' m' := by
  have hlt := hev.locate_lt
  by_cases hl : ev.locate = locate.toNat
  swap
  · -- another symbol: the market stays and the message is ignored
    refine ⟨m, by rw [hstep.market?_other (Ne.symm hl), hm], rfl, ?_⟩
    split
    · rfl
    · next msg hmsg =>
      exact ⟨b, applyItch_other (publicMessage_other hmsg hlt hl) b, h⟩
  have hanswer : ∀ {msg : Itch.Message}, publicMessage e now ev = some msg →
      expectedAnswer locate msg = .applied := by
    intro msg hmsg
    rw [expectedAnswer, publicMessage_locate hmsg, hl, UInt16.ofNat_toNat, if_pos rfl]
  cases hstep with
  | rejected _ => exact ⟨m, hm, rfl, rfl⟩
  | accepted _ => exact ⟨m, hm, rfl, rfl⟩
  | @fill r l m₁ req remaining maker rest hmarket hfront hremaining hcross hother =>
    obtain rfl : l = locate.toNat := hl
    obtain rfl : m₁ = m := Option.some.inj (hmarket.symm.trans hm)
    have hmem : maker ∈ m₁.orders := m₁.mem_orders_iff.mpr ⟨_, by rw [hfront]; simp⟩
    have hfind := (hx.market hm).find_eq_some_iff.mpr ⟨hmem, rfl⟩
    obtain ⟨b', hb', hmir⟩ := applyItch_executed locate
      (f := MatchingEngine.makeFill r.nextMatch req maker (min remaining maker.qty) remaining) h hfind
      (min_le_right _ _) rfl (hfits.orders m₁ hm maker hmem) (midNow now)
    refine ⟨_, RefEngine.market?_setMarket hm _, OrderBook.cfg_setSide .., b', ?_, hmir⟩
    rw [hanswer rfl, hb']
  | @selfMatch r l m₁ req remaining maker rest hmarket hfront hremaining hown hstp =>
    obtain rfl : l = locate.toNat := hl
    obtain rfl : m₁ = m := Option.some.inj (hmarket.symm.trans hm)
    have hmem : maker ∈ m₁.orders := m₁.mem_orders_iff.mpr ⟨_, by rw [hfront]; simp⟩
    have hfind := (hx.market hm).find_eq_some_iff.mpr ⟨hmem, rfl⟩
    obtain ⟨b', hb', hmir⟩ := applyItch_cancel locate h hfind le_rfl
      (hfits.orders m₁ hm maker hmem) (midNow now)
    refine ⟨_, RefEngine.market?_setMarket hm _, OrderBook.cfg_setSide .., b', ?_, hmir⟩
    rw [hanswer rfl, hb']
  | takerCancelled _ => exact ⟨m, hm, rfl, rfl⟩
  | @rested r l m₁ req remaining hmarket hremaining hday hgrid hroom hclear =>
    obtain rfl : l = locate.toNat := hl
    obtain rfl : m₁ = m := Option.some.inj (hmarket.symm.trans hm)
    obtain ⟨b', hb', hmir⟩ := applyItch_add locate (o := req.resting remaining) h hband
      hgrid hremaining.ne' hroom (hfits.taker _ _ _ rfl) (midNow now) (e.symbol locate.toNat)
    refine ⟨_, RefEngine.market?_setMarket hm _, OrderBook.cfg_setSide .., b', ?_, hmir⟩
    rw [hanswer rfl, hb']
  | @cancelled r l m₁ o shares why hmarket hfind hpos hle =>
    obtain rfl : l = locate.toNat := hl
    obtain rfl : m₁ = m := Option.some.inj (hmarket.symm.trans hm)
    have hmem := ((hx.market hm).find_eq_some_iff.mp hfind).1
    obtain ⟨b', hb', hmir⟩ := applyItch_cancel locate h hfind hle
      (hfits.orders m₁ hm o hmem) (midNow now)
    refine ⟨_, RefEngine.market?_setMarket hm _, OrderBook.cfg_setSide .., b', ?_, hmir⟩
    rw [hanswer rfl, hb']

end Apply

end PulseForge
