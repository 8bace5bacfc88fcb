import PulseForge.Analysis.FixGrammar

/-!
# What `to_order` takes over

Each part of the order is the value of the first field with its tag. The quantity is read as a
64-bit number and then cut to 32 bits without a test, so it is that of the message unless the
message has a quantity that does not fit.
-/

set_option autoImplicit false

namespace PulseForge.Fix

open Foundation

variable {fields : List Field}

/-! ## The first field with a tag -/

/-- The value of the first field with the tag `t`. -/
def First (fields : List Field) (t : ℕ) (v : Bytes) : Prop :=
  ∃ pre post, fields = pre ++ ⟨t, v⟩ :: post ∧ ∀ f ∈ pre, f.tag ≠ t

/-- `find` gives the first field with the tag. -/
theorem find_eq_some {t : ℕ} {v : Bytes} : find fields t = some v ↔ First fields t v := by
  unfold find
  rw [Option.map_eq_some_iff]
  constructor
  · rintro ⟨f, hfind, rfl⟩
    obtain ⟨htag, pre, post, hsplit, hpre⟩ := List.find?_eq_some_iff_append.mp hfind
    obtain rfl : f.tag = t := by simpa using htag
    exact ⟨pre, post, hsplit, fun g hg => by simpa using hpre g hg⟩
  · rintro ⟨pre, post, hsplit, hpre⟩
    refine ⟨⟨t, v⟩, List.find?_eq_some_iff_append.mpr ⟨by simp, pre, post, hsplit, ?_⟩, rfl⟩
    exact fun g hg => by simpa using hpre g hg

/-- `get_uint` reads a numeral that fits. -/
theorem getUint_eq_some {t n : ℕ} :
    getUint fields t = some n ↔
      ∃ v, First fields t v ∧ IsNumeral v ∧ digitsVal v = n ∧ n < 2 ^ 64 := by
  unfold getUint
  constructor
  · intro h
    split at h
    · exact nomatch h
    · next v hfind =>
      split at h
      · next n' hchars =>
        obtain rfl : n' = n := Option.some.inj h
        obtain ⟨hnum, hval, hlt⟩ := fromChars_eq_some_nil.mp hchars
        exact ⟨v, find_eq_some.mp hfind, hnum, hval, hlt⟩
      · exact nomatch h
  · rintro ⟨v, hfirst, hnum, hval, hlt⟩
    rw [find_eq_some.mpr hfirst]
    simp only [fromChars_eq_some_nil.mpr ⟨hnum, hval, hlt⟩]

/-! ## The order -/

/-- The side of an order from its text. -/
def SideText (v : Bytes) (side : Side) : Prop :=
  v = [49] ∧ side = .buy ∨ v = [50] ∧ side = .sell

/-- **The order of a message**, field by field. -/
theorem toOrder_eq_some {o : ParsedOrder} :
    toOrder fields = some o ↔
      First fields Tag.msgType [68] ∧ First fields Tag.clOrdID o.clordid ∧
      First fields Tag.symbol o.symbol ∧ (∃ v, First fields Tag.side v ∧ SideText v o.side) ∧
      (∃ n, getUint fields Tag.orderQty = some n ∧ o.qty = UInt32.ofNat n) ∧
      getPrice fields Tag.price = some o.price ∧
      o.tif = if find fields Tag.timeInForce = some [51] then .ioc else .day := by
  simp only [← find_eq_some]
  unfold toOrder SideText
  constructor
  · intro h
    split at h
    · next type cl sym side qty price htype hcl hsym hside hqty hprice =>
      by_cases htag : type = [68]
      · subst htag
        rw [if_neg (not_not.mpr rfl)] at h
        by_cases hbuy : side = [49]
        · subst hbuy
          rw [if_pos rfl] at h
          obtain rfl := Option.some.inj h
          exact ⟨htype, hcl, hsym, ⟨_, hside, .inl ⟨rfl, rfl⟩⟩, ⟨qty, hqty, rfl⟩, hprice, rfl⟩
        · rw [if_neg hbuy] at h
          by_cases hsell : side = [50]
          · subst hsell
            rw [if_pos rfl] at h
            obtain rfl := Option.some.inj h
            exact ⟨htype, hcl, hsym, ⟨_, hside, .inr ⟨rfl, rfl⟩⟩, ⟨qty, hqty, rfl⟩, hprice, rfl⟩
          · rw [if_neg hsell] at h
            exact nomatch h
      · rw [if_pos htag] at h
        exact nomatch h
    · exact nomatch h
  · rintro ⟨htype, hcl, hsym, ⟨v, hside, hv⟩, ⟨n, hqty, hn⟩, hprice, htif⟩
    cases o with
    | mk cl sym side qty price tif =>
      subst hn htif
      rw [htype, hcl, hsym, hside, hqty, hprice]
      rcases hv with ⟨rfl, rfl⟩ | ⟨rfl, rfl⟩
      · rfl
      · rfl

/-! ## The statement -/

/-- `to_order` takes the message over as it is, or refuses it. -/
structure Faithful (fields : List Field) : Prop where
  qty : ∀ o, toOrder fields = some o →
    ∃ v, First fields Tag.orderQty v ∧ IsNumeral v ∧ digitsVal v = o.qty.toNat
  refused : ∀ v, First fields Tag.orderQty v → IsNumeral v → 2 ^ 32 ≤ digitsVal v →
    toOrder fields = none
  clordid : ∀ o, toOrder fields = some o → First fields Tag.clOrdID o.clordid
  symbol : ∀ o, toOrder fields = some o → First fields Tag.symbol o.symbol
  side : ∀ o, toOrder fields = some o → ∃ v, First fields Tag.side v ∧ SideText v o.side
  msgType : ∀ o, toOrder fields = some o → First fields Tag.msgType [68]

/-- A new order with all its fields whose quantity needs more than 32 bits and at most 64. -/
structure Narrows (fields : List Field) : Prop where
  msgType : First fields Tag.msgType [68]
  clordid : ∃ v, First fields Tag.clOrdID v
  symbol : ∃ v, First fields Tag.symbol v
  side : First fields Tag.side [49] ∨ First fields Tag.side [50]
  price : ∃ v p, First fields Tag.price v ∧ parsePrice v = some p
  qty : ∃ v, First fields Tag.orderQty v ∧ IsNumeral v ∧ 2 ^ 32 ≤ digitsVal v ∧
    digitsVal v < 2 ^ 64

/-- There is one first field with a tag. -/
theorem First.unique {t : ℕ} {v v' : Bytes} (h : First fields t v) (h' : First fields t v') :
    v = v' :=
  Option.some.inj ((find_eq_some.mpr h).symm.trans (find_eq_some.mpr h'))

/-- Such an order is accepted. -/
theorem Narrows.accepted (h : Narrows fields) :
    ∃ o v, toOrder fields = some o ∧ First fields Tag.orderQty v ∧ IsNumeral v ∧
      2 ^ 32 ≤ digitsVal v := by
  obtain ⟨cl, hcl⟩ := h.clordid
  obtain ⟨sym, hsym⟩ := h.symbol
  obtain ⟨text, price, htext, hprice⟩ := h.price
  obtain ⟨v, hv, hnum, hlo, hhi⟩ := h.qty
  obtain ⟨side, hside⟩ : ∃ side, ∃ w, First fields Tag.side w ∧ SideText w side := by
    rcases h.side with hside | hside
    · exact ⟨.buy, _, hside, .inl ⟨rfl, rfl⟩⟩
    · exact ⟨.sell, _, hside, .inr ⟨rfl, rfl⟩⟩
  have hget : getPrice fields Tag.price = some price := by
    rw [getPrice, find_eq_some.mpr htext]
    exact hprice
  refine ⟨⟨cl, sym, side, UInt32.ofNat (digitsVal v), price, _⟩, v,
    toOrder_eq_some.mpr ⟨h.msgType, hcl, hsym, hside, ⟨digitsVal v, ?_, rfl⟩, hget, rfl⟩, hv, hnum,
    hlo⟩
  exact getUint_eq_some.mpr ⟨v, hv, hnum, rfl, hhi⟩

/-- An order with a quantity that does not fit, when it is accepted. -/
theorem narrows_of_accepted {o : ParsedOrder} {v : Bytes} (h : toOrder fields = some o)
    (hv : First fields Tag.orderQty v) (hlarge : 2 ^ 32 ≤ digitsVal v) : Narrows fields := by
  obtain ⟨htype, hcl, hsym, ⟨w, hside, hw⟩, ⟨n, hqty, -⟩, hprice, -⟩ := toOrder_eq_some.mp h
  obtain ⟨v', hv', hnum, hval, hlt⟩ := getUint_eq_some.mp hqty
  obtain rfl := hv.unique hv'
  obtain ⟨text, hfind, htext⟩ := Option.bind_eq_some_iff.mp hprice
  refine ⟨htype, ⟨_, hcl⟩, ⟨_, hsym⟩, ?_, ⟨text, _, find_eq_some.mp hfind, htext⟩,
    ⟨v, hv, hnum, hlarge, by omega⟩⟩
  rcases hw with ⟨rfl, -⟩ | ⟨rfl, -⟩
  · exact .inl hside
  · exact .inr hside

/-- **The quantity is kept** if and only if the message is no order whose quantity needs more
than 32 bits. -/
theorem faithful_iff (fields : List Field) : Faithful fields ↔ ¬ Narrows fields := by
  constructor
  · intro h hnarrow
    obtain ⟨o, v, horder, hv, hnum, hlarge⟩ := hnarrow.accepted
    exact nomatch (h.refused v hv hnum hlarge).symm.trans horder
  · intro hno
    have hsmall : ∀ o v, toOrder fields = some o → First fields Tag.orderQty v →
        digitsVal v < 2 ^ 32 := by
      intro o v horder hv
      by_contra hlarge
      exact hno (narrows_of_accepted horder hv (not_lt.mp hlarge))
    refine ⟨fun o ho => ?_, fun v hv _ hlarge => ?_, fun o ho => (toOrder_eq_some.mp ho).2.1,
      fun o ho => (toOrder_eq_some.mp ho).2.2.1, fun o ho => (toOrder_eq_some.mp ho).2.2.2.1,
      fun o ho => (toOrder_eq_some.mp ho).1⟩
    · obtain ⟨-, -, -, -, ⟨n, hqty, hn⟩, -⟩ := toOrder_eq_some.mp ho
      obtain ⟨v, hv, hnum, rfl, -⟩ := getUint_eq_some.mp hqty
      refine ⟨v, hv, hnum, ?_⟩
      rw [hn, UInt32.toNat_ofNat', Nat.mod_eq_of_lt (hsmall o v ho hv)]
    · cases horder : toOrder fields with
      | none => rfl
      | some o => exact absurd (hsmall o v horder hv) (not_lt.mpr hlarge)

/-- **No quantity is altered** in a buffer that `parse` accepts, if and only if it does not hold
an order whose quantity needs more than 32 bits. -/
theorem toOrder_faithful_iff (buf : Bytes) :
    (∀ fields, parse buf = .ok fields → Faithful fields) ↔
      ¬ ∃ fields, parse buf = .ok fields ∧ Narrows fields := by
  constructor
  · rintro h ⟨fields, hparse, hnarrow⟩
    exact (faithful_iff fields).mp (h fields hparse) hnarrow
  · intro h fields hparse
    exact (faithful_iff fields).mpr fun hnarrow => h ⟨fields, hparse, hnarrow⟩

/-- `8=FIX.4.4|9=39|35=D|11=A|55=P|54=1|38=4294967297|44=1|10=058|`. -/
def hugeOrder : Bytes :=
  [56, 61, 70, 73, 88, 46, 52, 46, 52, 1, 57, 61, 51, 57, 1, 51, 53, 61, 68, 1, 49, 49, 61,
    65, 1, 53, 53, 61, 80, 1, 53, 52, 61, 49, 1, 51, 56, 61, 52, 50, 57, 52, 57, 54, 55, 50, 57,
    55, 1, 52, 52, 61, 49, 1, 49, 48, 61, 48, 53, 56, 1]

def hugeFields : List Field :=
  [⟨8, [70, 73, 88, 46, 52, 46, 52]⟩, ⟨9, [51, 57]⟩, ⟨35, [68]⟩, ⟨11, [65]⟩, ⟨55, [80]⟩,
    ⟨54, [49]⟩, ⟨38, [52, 50, 57, 52, 57, 54, 55, 50, 57, 55]⟩, ⟨44, [49]⟩, ⟨10, [48, 53, 56]⟩]

/-- **A huge order becomes a small one**: an order for `2 ^ 32 + 1` is taken over as one for 1. -/
theorem huge_order_for_one :
    parse hugeOrder = .ok hugeFields ∧
      toOrder hugeFields = some ⟨[65], [80], .buy, 1, 10000, .day⟩ ∧ ¬ Faithful hugeFields := by
  have horder : toOrder hugeFields = some ⟨[65], [80], .buy, 1, 10000, .day⟩ := by
    decide +kernel
  refine ⟨by decide +kernel, horder, fun h => ?_⟩
  obtain ⟨v, hv, -, hval⟩ := h.qty _ horder
  obtain rfl : v = [52, 50, 57, 52, 57, 54, 55, 50, 57, 55] :=
    hv.unique (find_eq_some.mp (by decide))
  exact absurd hval (by decide)

end PulseForge.Fix
