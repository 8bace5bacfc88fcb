import PulseForge.Analysis.FixGrammar
import PulseForge.Analysis.FixPrice

/-!
# What the encoder writes

`encode_new_order_single` is a sequence of texts put behind each other, so that its result is
known from their lengths: it is the message with the fields of the order, or nothing. The
message has the layout the parser looks for, and the order comes back from its fields.
-/

set_option autoImplicit false

namespace PulseForge.Fix

open Foundation

/-! ## The texts of a message -/

/-- The fields of the body, in the order of the encoder. -/
def bodyFields (m : NewOrderSingle) : List Field :=
  [⟨Tag.msgType, [68]⟩, ⟨Tag.senderCompID, m.senderCompId⟩, ⟨Tag.targetCompID, m.targetCompId⟩,
    ⟨Tag.msgSeqNum, toChars m.msgSeqNum.toNat⟩, ⟨Tag.sendingTime, m.sendingTime⟩,
    ⟨Tag.clOrdID, m.clordid⟩, ⟨Tag.symbol, m.symbol⟩,
    ⟨Tag.side, if m.side = .buy then [49] else [50]⟩, ⟨Tag.orderQty, toChars m.qty.toNat⟩,
    ⟨Tag.ordType, [50]⟩, ⟨Tag.price, (pricePieces m.price.toInt).flatten⟩,
    ⟨Tag.timeInForce, if m.tif = .ioc then [51] else [48]⟩]

/-- A field on the wire. -/
def wireText (f : Field) : Bytes := toChars f.tag ++ kEquals :: (f.value ++ [kSOH])

/-- The bytes of the body. -/
def body (m : NewOrderSingle) : Bytes := ((bodyFields m).map wireText).flatten

/-- The bytes in front of the body. -/
def header (len : ℕ) : Bytes := kBegin ++ toChars len ++ [kSOH]

/-- The bytes behind the body. -/
def trailer (cs : ℕ) : Bytes :=
  [49, 48, 61, UInt8.ofNat (48 + cs / 100), UInt8.ofNat (48 + cs / 10 % 10),
    UInt8.ofNat (48 + cs % 10), kSOH]

/-- The calls of a field. -/
def fieldPieces (t : ℕ) (value : List Bytes) : List Bytes :=
  toChars t :: [kEquals] :: (value ++ [[kSOH]])

/-- The calls of the body. -/
def bodyPieces (m : NewOrderSingle) : List Bytes :=
  fieldPieces Tag.msgType [[68]] ++ (fieldPieces Tag.senderCompID [m.senderCompId] ++
    (fieldPieces Tag.targetCompID [m.targetCompId] ++
    (fieldPieces Tag.msgSeqNum [toChars m.msgSeqNum.toNat] ++
    (fieldPieces Tag.sendingTime [m.sendingTime] ++ (fieldPieces Tag.clOrdID [m.clordid] ++
    (fieldPieces Tag.symbol [m.symbol] ++
    (fieldPieces Tag.side [if m.side = .buy then [49] else [50]] ++
    (fieldPieces Tag.orderQty [toChars m.qty.toNat] ++ (fieldPieces Tag.ordType [[50]] ++
    (fieldPieces Tag.price (pricePieces m.price.toInt) ++
    fieldPieces Tag.timeInForce [if m.tif = .ioc then [51] else [48]]))))))))))

/-- The calls of the trailer. -/
def trailerPieces (cs : ℕ) : List Bytes :=
  [[49, 48, 61], [UInt8.ofNat (48 + cs / 100)], [UInt8.ofNat (48 + cs / 10 % 10)],
    [UInt8.ofNat (48 + cs % 10)], [kSOH]]

/-- A field is put piece by piece. -/
theorem field_eq (o : Out) (t : ℕ) (v : Bytes) :
    o.field t v = (fieldPieces t [v]).foldl Out.puts o := rfl

/-- A number is put as its digits. -/
theorem fieldUint_eq (o : Out) (t v : ℕ) :
    o.fieldUint t v = o.field t (toChars v) := rfl

/-- A price is put piece by piece. -/
theorem priceField_eq (o : Out) (v : ℤ) :
    (((o.putUint Tag.price).put kEquals).putPrice v).put kSOH =
      (fieldPieces Tag.price (pricePieces v)).foldl Out.puts o := by
  rw [putPrice_eq, fieldPieces, List.foldl_cons, List.foldl_cons, List.foldl_append]
  rfl

/-- The body is put piece by piece. -/
theorem putBody_eq (o : Out) (m : NewOrderSingle) :
    putBody o m = (bodyPieces m).foldl Out.puts o := by
  unfold putBody bodyPieces
  simp only [List.foldl_append, ← field_eq, fieldUint_eq, ← priceField_eq]

/-- The trailer is put piece by piece. -/
theorem putTrailer_eq (o : Out) (cs : ℕ) :
    putTrailer o cs = (trailerPieces cs).foldl Out.puts o := by
  simp only [putTrailer, trailerPieces, Out.put, List.foldl_cons, List.foldl_nil]

/-- The pieces of the trailer are the trailer. -/
theorem flatten_trailerPieces (cs : ℕ) : (trailerPieces cs).flatten = trailer cs := rfl

/-- The pieces of a field are the field. -/
theorem flatten_fieldPieces (t : ℕ) (value : List Bytes) :
    (fieldPieces t value).flatten = wireText ⟨t, value.flatten⟩ := by
  simp [fieldPieces, wireText]

/-- The pieces of the body are the body. -/
theorem flatten_bodyPieces (m : NewOrderSingle) : (bodyPieces m).flatten = body m := by
  unfold bodyPieces body bodyFields
  simp only [List.flatten_append, flatten_fieldPieces, List.map_cons,
    List.map_nil, List.flatten_cons, List.flatten_nil, List.append_nil]

/-! ## The result of the encoder -/

theorem length_toChars_le_eight {n : ℕ} : (toChars n).length ≤ 8 ↔ n < 10 ^ 8 := by
  refine ⟨fun h => ?_, fun h => length_toChars_le (by decide) h⟩
  have hlt := digitsVal_lt (isNumeral_toChars n).2
  rw [digitsVal_toChars] at hlt
  exact hlt.trans_le (Nat.pow_le_pow_right (by decide) h)

/-- The header fits the reserve. -/
theorem length_header_le {len : ℕ} (h : (toChars len).length ≤ 8) :
    (header len).length ≤ kHeaderReserve := by
  simp only [header, List.length_append, List.length_singleton]
  have hbegin : kBegin.length = 12 := rfl
  have hreserve : kHeaderReserve = 24 := rfl
  omega

theorem length_body_pos (m : NewOrderSingle) : 2 ≤ (body m).length := by
  simp only [body, bodyFields, List.map_cons, List.flatten_cons, wireText, List.length_append,
    List.length_cons]
  omega

/-- The trailer fits exactly when seven bytes are left. -/
theorem putTrailer_ok {room : ℕ} {out : Bytes} (cs : ℕ) (h : out.length ≤ room) :
    ((putTrailer { cap := room, out := out } cs).ok = true ↔ out.length + 7 ≤ room) ∧
      (out.length + 7 ≤ room → putTrailer { cap := room, out := out } cs =
        { cap := room, out := out ++ trailer cs }) := by
  obtain ⟨hok, hfits⟩ := @Out.foldl_puts_ok { cap := room, out := out } (trailerPieces cs) h
  rw [← putTrailer_eq, flatten_trailerPieces] at hok hfits
  exact ⟨hok.trans ⟨fun hc => hc.2, fun hc => ⟨rfl, hc⟩⟩, hfits⟩

/-- The message of an order. -/
def message (m : NewOrderSingle) : Bytes :=
  header (body m).length ++
    (body m ++ trailer (checksum (header (body m).length ++ body m)))

/-- **The encoder writes the message** when it fits, and nothing otherwise. -/
theorem encode_eq_some {m : NewOrderSingle} {cap : ℕ} {v : View} :
    encodeNewOrderSingle m cap = some v ↔
      kHeaderReserve + (body m).length + 7 ≤ cap ∧ (body m).length < 10 ^ 8 ∧
        v = ⟨kHeaderReserve - (header (body m).length).length, message m⟩ := by
  have hreserve : kHeaderReserve = 24 := rfl
  have hpos := length_body_pos m
  obtain ⟨hok, hfits⟩ :=
    @Out.foldl_puts_ok { cap := cap - kHeaderReserve } (bodyPieces m) (Nat.zero_le _)
  rw [← putBody_eq, flatten_bodyPieces] at hok hfits
  simp only [List.length_nil, Nat.zero_add, List.nil_append, true_and] at hok hfits
  unfold encodeNewOrderSingle
  by_cases hcap : cap ≤ kHeaderReserve + 8
  · rw [if_pos hcap]
    refine ⟨fun h => (nomatch h), fun h => ?_⟩
    have hroom := h.1
    omega
  rw [if_neg hcap]
  dsimp only
  by_cases hbody : (body m).length ≤ cap - kHeaderReserve
  · rw [hfits hbody, if_neg (fun h => nomatch h)]
    dsimp only
    by_cases hdigits : 8 < (toChars (body m).length).length
    · rw [if_pos hdigits]
      refine ⟨fun h => (nomatch h), fun h => ?_⟩
      exact absurd (length_toChars_le_eight.mpr h.2.1) (not_le.mpr hdigits)
    have hlen : (body m).length < 10 ^ 8 := length_toChars_le_eight.mp (not_lt.mp hdigits)
    have hheader : kBegin ++ toChars (body m).length ++ [kSOH] = header (body m).length := rfl
    rw [if_neg hdigits, hheader]
    obtain ⟨hok', hfits'⟩ := putTrailer_ok (checksum (header (body m).length ++ body m)) hbody
    by_cases hroom : kHeaderReserve + (body m).length + 7 ≤ cap
    · rw [hfits' (by omega), if_neg (fun h => nomatch h), Option.some_inj]
      exact ⟨fun h => ⟨hroom, hlen, h.symm⟩, fun h => h.2.2.symm⟩
    · rw [if_pos (eq_false_of_ne_true fun h => hroom (by have hfit := hok'.mp h; omega))]
      exact ⟨fun h => (nomatch h), fun h => absurd h.1 hroom⟩
  · have hnok : (putBody { cap := cap - kHeaderReserve } m).ok = false :=
      eq_false_of_ne_true fun h => hbody (hok.mp h)
    rw [if_pos hnok]
    refine ⟨fun h => (nomatch h), fun h => ?_⟩
    have hroom := h.1
    omega

/-! ## The buffer -/

/-- The parts of the buffer that a call writes, as offsets from its start: the body, and behind
the tests the header in front of it and the trailer (fix.hpp:174-229). -/
def touched (m : NewOrderSingle) (cap : ℕ) : List (ℤ × ℤ) :=
  if cap ≤ kHeaderReserve + 8 then []
  else
    let o := putBody { cap := cap - kHeaderReserve } m
    (kHeaderReserve, kHeaderReserve + o.out.length) ::
      if o.ok = false ∨ 8 < (toChars o.out.length).length then []
      else
        let o' := putTrailer o (checksum (header o.out.length ++ o.out))
        [(kHeaderReserve - (header o.out.length).length, kHeaderReserve),
          (kHeaderReserve, kHeaderReserve + o'.out.length)]

/-- **The encoder stays inside its buffer.** -/
theorem touched_inside (m : NewOrderSingle) (cap : ℕ) :
    ∀ r ∈ touched m cap, 0 ≤ r.1 ∧ r.2 ≤ cap := by
  have hreserve : kHeaderReserve = 24 := rfl
  intro r hr
  unfold touched at hr
  split at hr
  · exact absurd hr List.not_mem_nil
  next hcap =>
  obtain ⟨hbody, hsame⟩ :=
    @Out.length_foldl_puts_le { cap := cap - kHeaderReserve } (bodyPieces m) (Nat.zero_le _)
  rw [← putBody_eq] at hbody hsame
  dsimp only at hr hbody hsame
  generalize putBody { cap := cap - kHeaderReserve } m = o at hr hbody hsame
  rcases List.mem_cons.mp hr with rfl | hr
  · dsimp only
    omega
  split at hr
  · exact absurd hr List.not_mem_nil
  next hdigits =>
  have hheader := length_header_le (not_lt.mp (not_or.mp hdigits).2)
  obtain ⟨htrailer, -⟩ := @Out.length_foldl_puts_le o
    (trailerPieces (checksum (header o.out.length ++ o.out))) (by omega)
  rw [← putTrailer_eq] at htrailer
  rcases List.mem_cons.mp hr with rfl | hr
  · dsimp only
    omega
  · rw [List.mem_singleton.mp hr]
    dsimp only
    omega

/-! ## The layout of the message -/

/-- A field and its text, as the encoder writes it. -/
def Item.ofField (t : ℕ) (value : Bytes) (hpos : 1 ≤ t) (hle : t ≤ 2 ^ 31 - 1)
    (hsoh : kSOH ∉ value) : Item :=
  ⟨wireText ⟨t, value⟩, ⟨t, value⟩, toChars t, rfl, isNumeral_toChars _, digitsVal_toChars _, hpos,
    hle, hsoh⟩

/-- Fields with tags and values in range are items. -/
theorem exists_items {fs : List Field}
    (h : ∀ f ∈ fs, 1 ≤ f.tag ∧ f.tag ≤ 2 ^ 31 - 1 ∧ kSOH ∉ f.value) :
    ∃ items, items.map Item.field = fs ∧ textOf items = (fs.map wireText).flatten := by
  induction fs with
  | nil => exact ⟨[], rfl, rfl⟩
  | cons f fs ih =>
    obtain ⟨hpos, hle, hsoh⟩ := h f List.mem_cons_self
    obtain ⟨items, hfields, htext⟩ := ih fun g hg => h g (List.mem_cons_of_mem _ hg)
    refine ⟨Item.ofField f.tag f.value hpos hle hsoh :: items, ?_, ?_⟩
    · rw [List.map_cons, hfields]
      rfl
    · rw [textOf_cons, htext, List.map_cons, List.flatten_cons]
      rfl

/-- The strings of the order have no end-of-field byte. -/
structure Plain (m : NewOrderSingle) : Prop where
  senderCompId : kSOH ∉ m.senderCompId
  targetCompId : kSOH ∉ m.targetCompId
  sendingTime : kSOH ∉ m.sendingTime
  clordid : kSOH ∉ m.clordid
  symbol : kSOH ∉ m.symbol

/-- A price has no separator. -/
theorem soh_notMem_price {v : ℤ} (hlo : -2 ^ 63 < v) (hhi : v < 2 ^ 63) :
    kSOH ∉ (pricePieces v).flatten := by
  obtain ⟨neg, whole, frac, hspells, -⟩ := parsePrice_eq_some.mp (parsePrice_pricePieces hlo hhi)
  have hfrac : kSOH ∉ if frac = [] then [] else 46 :: frac := by
    split
    · exact List.not_mem_nil
    · rw [List.mem_cons, not_or]
      exact ⟨by decide, fun hc => absurd (hspells.digits _ hc) (by decide)⟩
  have hsign : kSOH ∉ if neg then [45] else [] := by
    cases neg <;> decide
  rw [hspells.text, List.mem_append, List.mem_append, not_or, not_or]
  exact ⟨hsign, soh_notMem hspells.numeral, hfrac⟩

/-- The tags of the body lie behind that of the CheckSum. -/
theorem bodyFields_tag {m : NewOrderSingle} :
    ∀ f ∈ bodyFields m, Tag.checkSum < f.tag ∧ f.tag ≤ Tag.timeInForce := by
  have htags : ∀ t ∈ (bodyFields m).map Field.tag, Tag.checkSum < t ∧ t ≤ Tag.timeInForce := by
    change ∀ t ∈ [35, 49, 56, 34, 52, 11, 55, 54, 38, 40, 44, 59],
      Tag.checkSum < t ∧ t ≤ Tag.timeInForce
    decide
  exact fun f hf => htags f.tag (List.mem_map_of_mem hf)

/-- The values of the body have no separator. -/
theorem bodyFields_value {m : NewOrderSingle} (h : Plain m) (hprice : -2 ^ 63 < m.price.toInt) :
    ∀ f ∈ bodyFields m, kSOH ∉ f.value := by
  have hnum : ∀ n, kSOH ∉ toChars n := fun n => soh_notMem (isNumeral_toChars n)
  have hside : kSOH ∉ if m.side = .buy then [49] else [50] := by
    split <;> decide
  have htif : kSOH ∉ if m.tif = .ioc then [51] else [48] := by
    split <;> decide
  have hpieces := soh_notMem_price hprice (Int64.toInt_lt m.price)
  intro f hf
  simp only [bodyFields, List.mem_cons, List.not_mem_nil, or_false] at hf
  rcases hf with rfl | rfl | rfl | rfl | rfl | rfl | rfl | rfl | rfl | rfl | rfl | rfl
  · decide
  · exact h.senderCompId
  · exact h.targetCompId
  · exact hnum _
  · exact h.sendingTime
  · exact h.clordid
  · exact h.symbol
  · exact hside
  · exact hnum _
  · decide
  · exact hpieces
  · exact htif

/-- The three digits of a sum. -/
def sumDigits (cs : ℕ) : Bytes :=
  [UInt8.ofNat (48 + cs / 100), UInt8.ofNat (48 + cs / 10 % 10), UInt8.ofNat (48 + cs % 10)]

/-- The CheckSum is written in three digits. -/
theorem sumDigits_strict {cs : ℕ} (h : cs < 256) : StrictSum (sumDigits cs) cs := by
  refine ⟨rfl, fun c hc => ?_, ?_⟩
  · simp only [sumDigits, List.mem_cons, List.not_mem_nil, or_false] at hc
    unfold isDigit
    rcases hc with rfl | rfl | rfl <;> rw [UInt8.toNat_ofNat'] <;> omega
  · simp only [digitsVal, sumDigits, List.foldl_cons, List.foldl_nil, UInt8.toNat_ofNat']
    omega

/-- `FIX.4.4`. -/
def beginValue : Bytes := [70, 73, 88, 46, 52, 46, 52]

/-- The header is two fields. -/
theorem header_eq (len : ℕ) :
    header len =
      wireText ⟨Tag.beginString, beginValue⟩ ++ wireText ⟨Tag.bodyLength, toChars len⟩ := by
  simp [header, wireText, kBegin, beginValue, toChars, Tag.beginString, Tag.bodyLength, kEquals,
    kSOH]

/-- The trailer is one field. -/
theorem trailer_eq (cs : ℕ) : trailer cs = wireText ⟨Tag.checkSum, sumDigits cs⟩ := by
  simp [trailer, wireText, sumDigits, toChars, Tag.checkSum, kEquals, kSOH]

/-- The fields of the message. -/
def messageFields (m : NewOrderSingle) : List Field :=
  ⟨Tag.beginString, beginValue⟩ :: ⟨Tag.bodyLength, toChars (body m).length⟩ ::
    (bodyFields m ++
      [⟨Tag.checkSum, sumDigits (checksum (header (body m).length ++ body m))⟩])

/-- **The message of an order is parsed** into its fields. -/
theorem parse_message {m : NewOrderSingle} (h : Plain m) (hprice : -2 ^ 63 < m.price.toInt)
    (hlen : (body m).length < 10 ^ 8) : parse (message m) = .ok (messageFields m) := by
  obtain ⟨items, hfields, htext⟩ := @exists_items (bodyFields m) fun f hf => by
    obtain ⟨hlo, hhi⟩ := bodyFields_tag f hf
    have hsum : Tag.checkSum = 10 := rfl
    have htif : Tag.timeInForce = 59 := rfl
    exact ⟨by omega, by omega, bodyFields_value h hprice f hf⟩
  have hbody : textOf items = body m := htext
  let cs := checksum (header (body m).length ++ body m)
  have hcs : cs < 256 := Nat.mod_lt _ (by decide)
  have hstrict := sumDigits_strict hcs
  let first := Item.ofField Tag.beginString beginValue (by decide) (by decide) (by decide)
  let second := Item.ofField Tag.bodyLength (toChars (body m).length) (by decide) (by decide)
    (soh_notMem (isNumeral_toChars _))
  let sum := Item.ofField Tag.checkSum (sumDigits cs) (by decide) (by decide)
    fun hc => absurd (hstrict.2.1 _ hc) (by decide)
  have hlength : second.field.value = toChars (body m).length := rfl
  have hmessage : message m = first.text ++ (second.text ++ (textOf items ++ (sum.text ++ []))) := by
    rw [message, header_eq, trailer_eq, hbody, List.append_nil, List.append_assoc]
    rfl
  let l : Layout (message m) :=
    { first := first
      second := second
      body := items
      sum := sum
      rest := []
      first_tag := rfl
      second_tag := rfl
      sum_tag := rfl
      body_tag := fun i hi => by
        have hmem : i.field ∈ bodyFields m := by
          rw [← hfields]
          exact List.mem_map_of_mem hi
        exact (bodyFields_tag _ hmem).1.ne'
      few := by
        have hcount := congrArg List.length hfields
        rw [List.length_map] at hcount
        rw [hcount]
        change 12 + 3 ≤ kMaxFields
        decide
      numeral := by
        rw [hlength]
        exact isNumeral_toChars _
      declared := by
        rw [hlength, digitsVal_toChars, hbody]
      buf_eq := hmessage }
  have hcovered : l.covered = header (body m).length ++ body m := by
    rw [header_eq, List.append_assoc]
    change first.text ++ (second.text ++ textOf items) = _
    rw [hbody]
    rfl
  have hfits : (message m).length < 2 ^ 64 := by
    have hheader := length_header_le (length_toChars_le_eight.mpr hlen)
    have hreserve : kHeaderReserve = 24 := rfl
    rw [message, List.length_append, List.length_append]
    change _ + (_ + 7) < _
    omega
  refine (parse_eq_ok ⟨message m, hfits⟩ _).mpr ⟨l, ?_, looseSum_iff.mpr (.inl ?_)⟩
  · change first.field :: second.field :: (items.map Item.field ++ [sum.field]) = messageFields m
    rw [hfields]
    rfl
  · change StrictSum (sumDigits cs) _
    rw [hcovered, ← checksum_eq]
    exact hstrict

/-! ## The statement -/

/-- What `to_order` makes of an order. -/
def orderOf (m : NewOrderSingle) : ParsedOrder :=
  ⟨m.clordid, m.symbol, m.side, m.qty, m.price.toInt, m.tif⟩

/-- The fields of the message give back the order. -/
theorem toOrder_messageFields {m : NewOrderSingle} (hprice : -2 ^ 63 < m.price.toInt) :
    toOrder (messageFields m) = some (orderOf m) := by
  have hqty : getUint (messageFields m) Tag.orderQty = some m.qty.toNat := by
    have hfind : find (messageFields m) Tag.orderQty = some (toChars m.qty.toNat) := rfl
    have hlt := m.qty.toNat_lt
    rw [getUint, hfind]
    simp only [@fromChars_toChars (2 ^ 64) m.qty.toNat (by omega)]
  have hpriceAt : getPrice (messageFields m) Tag.price = some m.price.toInt :=
    parsePrice_pricePieces hprice (Int64.toInt_lt m.price)
  have htype : find (messageFields m) Tag.msgType = some [68] := rfl
  have hcl : find (messageFields m) Tag.clOrdID = some m.clordid := rfl
  have hsym : find (messageFields m) Tag.symbol = some m.symbol := rfl
  have hside : find (messageFields m) Tag.side =
      some (if m.side = .buy then [49] else [50]) := rfl
  have htif : find (messageFields m) Tag.timeInForce =
      some (if m.tif = .ioc then [51] else [48]) := rfl
  rw [toOrder, htype, hcl, hsym, hside, hqty, hpriceAt, htif, orderOf]
  cases m.side <;> cases m.tif <;> simp

/-- **The order comes back.** The encoder returns a message if and only if the body with the
reserve and the trailer fits the buffer and its length has at most eight digits; it writes
nothing outside the buffer; and the order that the parser reads from the message is the order
that was encoded. -/
theorem encode_round_trip (m : NewOrderSingle) (cap : ℕ) (hplain : Plain m)
    (hprice : -2 ^ 63 < m.price.toInt) :
    ((encodeNewOrderSingle m cap).isSome ↔
      kHeaderReserve + (body m).length + 7 ≤ cap ∧ (body m).length < 10 ^ 8) ∧
    (∀ r ∈ touched m cap, 0 ≤ r.1 ∧ r.2 ≤ cap) ∧
    ∀ v, encodeNewOrderSingle m cap = some v →
      v.bytes ≠ [] ∧ v.start + v.bytes.length ≤ cap ∧
      ∃ fields, parse v.bytes = .ok fields ∧ toOrder fields = some (orderOf m) ∧
        getUint fields Tag.msgSeqNum = some m.msgSeqNum.toNat := by
  refine ⟨?_, touched_inside m cap, fun v hv => ?_⟩
  · rw [Option.isSome_iff_exists]
    constructor
    · rintro ⟨v, hv⟩
      obtain ⟨hroom, hlen, -⟩ := encode_eq_some.mp hv
      exact ⟨hroom, hlen⟩
    · rintro ⟨hroom, hlen⟩
      exact ⟨_, encode_eq_some.mpr ⟨hroom, hlen, rfl⟩⟩
  · obtain ⟨hroom, hlen, rfl⟩ := encode_eq_some.mp hv
    have hheader := length_header_le (length_toChars_le_eight.mpr hlen)
    have hsize : (message m).length =
        (header (body m).length).length + ((body m).length + 7) := by
      rw [message, List.length_append, List.length_append]
      rfl
    refine ⟨?_, ?_, messageFields m, parse_message hplain hprice hlen,
      toOrder_messageFields hprice, ?_⟩
    · intro hnil
      have hempty := congrArg List.length hnil
      simp only [hsize, List.length_nil] at hempty
      omega
    · simp only [hsize]
      omega
    · have hfind : find (messageFields m) Tag.msgSeqNum = some (toChars m.msgSeqNum.toNat) := rfl
      rw [getUint, hfind]
      simp only [@fromChars_toChars (2 ^ 64) m.msgSeqNum.toNat m.msgSeqNum.toNat_lt]

/-- The order of the tests (test_wire_protocols.cpp:305-315). -/
def testOrder : NewOrderSingle where
  senderCompId := [80, 70, 84, 82, 65, 68, 69, 82]
  targetCompId := [80, 70, 88]
  msgSeqNum := 7
  sendingTime := [50, 48, 50, 54, 49, 48, 49, 55, 45, 49, 52, 58, 51, 48, 58, 48, 48, 46, 49, 50, 51]
  clordid := [80, 70, 55]
  symbol := [80, 70, 82, 71]
  side := .sell
  qty := 100
  price := 1002500
  tif := .ioc

/-- The order of the tests, there and back. -/
theorem testOrder_round_trip :
    Plain testOrder ∧ -2 ^ 63 < testOrder.price.toInt ∧
      ∃ v fields, encodeNewOrderSingle testOrder 256 = some v ∧ parse v.bytes = .ok fields ∧
        toOrder fields = some (orderOf testOrder) := by
  have hplain : Plain testOrder := ⟨by decide, by decide, by decide, by decide, by decide⟩
  have hprice : -2 ^ 63 < testOrder.price.toInt := by decide
  obtain ⟨hiff, -, hback⟩ := encode_round_trip testOrder 256 hplain hprice
  obtain ⟨v, hv⟩ := Option.isSome_iff_exists.mp (hiff.mpr ⟨by decide +kernel, by decide +kernel⟩)
  obtain ⟨-, -, fields, hparse, horder, -⟩ := hback v hv
  exact ⟨hplain, hprice, v, fields, hv, hparse, horder⟩

end PulseForge.Fix
