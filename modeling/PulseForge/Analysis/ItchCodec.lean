import PulseForge.Model.Itch
import PulseForge.Analysis.WireCursors

/-!
# ITCH messages survive the wire

`Message.layout` is the byte string of a message, field by field. Encoding into a buffer
that is large enough gives it, and decoding it gives the message back.
-/

set_option autoImplicit false

namespace PulseForge.Itch

open Foundation

/-- The header, and what follows it. -/
def headerLayout (type : UInt8) (locate : UInt16) (ts : UInt64) (body : Bytes) : Bytes :=
  type :: (beBytes 2 locate.toNat ++ (beBytes 2 0 ++ (beBytes 6 ts.toNat ++ body)))

/-- The bytes of a message. -/
def Message.layout : Message → Bytes
  | .systemEvent locate ts eventCode => headerLayout 83 locate ts [eventCode]
  | .stockDirectory locate ts stock roundLotSize =>
    headerLayout 82 locate ts (stock.bytes ++ ([81, 78] ++ (beBytes 4 roundLotSize.toNat ++
      ([78, 67] ++ (putAlpha 2 [90] ++ ([80, 32, 32, 49, 78] ++ (beBytes 4 0 ++ [78])))))))
  | .addOrder locate ts orderRef side shares stock price =>
    headerLayout 65 locate ts (beBytes 8 orderRef.toNat ++ (side.code ::
      (beBytes 4 shares.toNat ++ (stock.bytes ++ (beBytes 4 price.toNat ++ [])))))
  | .orderExecuted locate ts orderRef executedShares matchNumber =>
    headerLayout 69 locate ts (beBytes 8 orderRef.toNat ++ (beBytes 4 executedShares.toNat ++
      (beBytes 8 matchNumber.toNat ++ [])))
  | .orderCancel locate ts orderRef cancelledShares =>
    headerLayout 88 locate ts (beBytes 8 orderRef.toNat ++ (beBytes 4 cancelledShares.toNat ++ []))
  | .orderDelete locate ts orderRef => headerLayout 68 locate ts (beBytes 8 orderRef.toNat ++ [])
  | .endOfSnapshot nextSequence => 71 :: sequenceField nextSequence

/-- The timestamp of a message; an end of snapshot has none (feed_handler.hpp:122-128). -/
def Message.timestamp : Message → UInt64
  | .systemEvent _ ts _ | .stockDirectory _ ts _ _ | .addOrder _ ts _ _ _ _ _
  | .orderExecuted _ ts _ _ _ | .orderCancel _ ts _ _ | .orderDelete _ ts _ => ts
  | .endOfSnapshot _ => 0

theorem length_headerLayout (type : UInt8) (locate : UInt16) (ts : UInt64) (body : Bytes) :
    (headerLayout type locate ts body).length = 11 + body.length := by
  simp only [headerLayout, List.length_cons, List.length_append, length_beBytes]
  omega

theorem length_sequenceField (n : UInt64) : (sequenceField n).length = 20 := by
  have hlen : (toChars n.toNat).length ≤ 20 :=
    length_toChars_le (by norm_num) (n.toNat_lt.trans (by norm_num))
  simp only [sequenceField, List.length_append, List.length_replicate]
  omega

/-- **Each type has its length.** -/
theorem Message.length_layout (m : Message) : m.layout.length = m.len := by
  cases m <;> simp [Message.layout, Message.len, length_headerLayout, length_sequenceField]

/-! ## Encoding -/

/-- The fields of the header, in the order they are written. -/
def headerFields (type : UInt8) (locate : UInt16) (ts : UInt64) : List Bytes :=
  [[type], beBytes 2 locate.toNat, beBytes 2 0, beBytes 6 ts.toNat]

/-- The fields of a message, in the order they are written. -/
def Message.fields : Message → List Bytes
  | .systemEvent locate ts eventCode => headerFields 83 locate ts ++ [[eventCode]]
  | .stockDirectory locate ts stock roundLotSize =>
    headerFields 82 locate ts ++ [stock.bytes, [81], [78], beBytes 4 roundLotSize.toNat, [78], [67],
      putAlpha 2 [90], [80], [32], [32], [49], [78], beBytes 4 0, [78]]
  | .addOrder locate ts orderRef side shares stock price =>
    headerFields 65 locate ts ++ [beBytes 8 orderRef.toNat, [side.code], beBytes 4 shares.toNat,
      stock.bytes, beBytes 4 price.toNat]
  | .orderExecuted locate ts orderRef executedShares matchNumber =>
    headerFields 69 locate ts ++ [beBytes 8 orderRef.toNat, beBytes 4 executedShares.toNat,
      beBytes 8 matchNumber.toNat]
  | .orderCancel locate ts orderRef cancelledShares =>
    headerFields 88 locate ts ++ [beBytes 8 orderRef.toNat, beBytes 4 cancelledShares.toNat]
  | .orderDelete locate ts orderRef => headerFields 68 locate ts ++ [beBytes 8 orderRef.toNat]
  | .endOfSnapshot nextSequence => [71 :: sequenceField nextSequence]

/-- The fields of a message are its layout. -/
theorem Message.flatten_fields (m : Message) : m.fields.flatten = m.layout := by
  cases m <;> simp [Message.fields, Message.layout, headerFields, headerLayout]

/-- Writing a message writes its fields. -/
theorem write_eq (w : Writer) (m : Message) : write w m = m.fields.foldl Writer.bytes w := by
  cases m <;> rfl

/-- **What an encoder leaves**: the layout, or nothing when it does not fit. -/
theorem encode_cases (m : Message) (cap : ℕ) :
    (write { cap := cap } m).out.length ≤ cap ∧
      encode m cap = if m.len ≤ cap then m.layout else [] := by
  obtain ⟨hin, hdone⟩ := Writer.foldl_bytes_cases m.fields cap
  rw [m.flatten_fields, m.length_layout] at hdone
  unfold encode
  rw [write_eq]
  exact ⟨hin, hdone⟩

/-- Encoding gives the layout when there is room. -/
theorem encode_eq {cap : ℕ} {m : Message} (h : m.len ≤ cap) : encode m cap = m.layout := by
  rw [(encode_cases m cap).2, if_pos h]

/-! ## Decoding -/

/-- The common fields are read back. -/
theorem common_layout {ts : UInt64} (hts : ts.toNat < 2 ^ 48) (locate : UInt16) (body : Bytes) :
    common ⟨beBytes 2 locate.toNat ++ (beBytes 2 0 ++ (beBytes 6 ts.toNat ++ body)), true⟩ =
      (locate, ts, ⟨body, true⟩) := by
  simp only [common, Reader.u16_beBytes, Reader.skip_append (length_beBytes 2 0),
    Reader.u48_beBytes hts]

/-- Spaces in front of a numeral are skipped. -/
theorem dropWhile_spaces (k : ℕ) {ds : Bytes} (h : IsNumeral ds) :
    (List.replicate k (32 : UInt8) ++ ds).dropWhile (fun c => decide (c = 32)) = ds := by
  induction k with
  | zero =>
    obtain ⟨c, cs, rfl⟩ := List.exists_cons_of_ne_nil h.1
    have hdigit : isDigit c := h.2 c List.mem_cons_self
    rw [List.replicate_zero, List.nil_append, List.dropWhile_cons_of_neg]
    simp only [decide_eq_true_eq]
    rintro rfl
    exact absurd hdigit (by decide)
  | succ k ih => simpa [List.replicate_succ] using ih

/-- Without its padding, the sequence field is a numeral. -/
theorem dropWhile_sequenceField (n : UInt64) :
    (sequenceField n).dropWhile (fun c => decide (c = 32)) = toChars n.toNat :=
  dropWhile_spaces _ (isNumeral_toChars n.toNat)

/-- **Decoding what was encoded.** -/
theorem decode_layout {m : Message} (hts : m.timestamp.toNat < 2 ^ 48) :
    decode m.layout = some m := by
  have hlen := m.length_layout
  rw [decode, if_neg (by rw [hlen]; cases m <;> simp [Message.len]), hlen]
  cases m with
  | endOfSnapshot next =>
    simp only [Message.layout, Reader.u8_cons, Message.len, decodeBody, dropWhile_sequenceField,
      fromChars_toChars next.toNat_lt]
    simp
  | _ =>
    simp only [Message.timestamp] at hts
    simp only [Message.layout, headerLayout, Reader.u8_cons, Message.len, decodeBody,
      common_layout hts, Reader.field_bytes, Reader.u64_beBytes, Reader.u32_beBytes,
      Side.ofCode_code, Reader.skip_append (show ([81, 78] : Bytes).length = 2 from rfl)]
    simp [checked]

/-! ## What the decoder accepts -/

/-- The length of a message, by its type byte. -/
def typeLens : List (UInt8 × ℕ) :=
  [(83, 12), (82, 39), (65, 36), (69, 31), (88, 23), (68, 19), (71, 21)]

/-- Spaces and then a decimal number below `2 ^ 64`. -/
def PaddedNumber (field : Bytes) : Prop :=
  ∃ k ds, field = List.replicate k 32 ++ ds ∧ IsNumeral ds ∧ digitsVal ds < 2 ^ 64

/-- **A well-formed string**: the length of its type, a side in an added order and a number in an
end of snapshot. The other bytes are free. -/
def WellFormed (bs : Bytes) : Prop :=
  ∃ type t, bs = type :: t ∧ (type, bs.length) ∈ typeLens ∧
    (type = 65 → bs.getD 19 0 = Side.buy.code ∨ bs.getD 19 0 = Side.sell.code) ∧
    (type = 71 → PaddedNumber t)

/-- The head of every message but the end of snapshot. -/
theorem common_of_length {t : Bytes} (h : 10 ≤ t.length) :
    ∃ locate ts rest, ts.toNat < 2 ^ 48 ∧ rest.length = t.length - 10 ∧ rest = t.drop 10 ∧
      common ⟨t, true⟩ = (locate, ts, ⟨rest, true⟩) := by
  obtain ⟨locate, t₁, rfl, h₁⟩ := Reader.exists_u16 (show 2 ≤ t.length by omega)
  obtain ⟨tracking, t₂, -, rfl, h₂⟩ := Reader.exists_beBytes (show 2 ≤ t₁.length by omega)
  obtain ⟨ts, t₃, hts, rfl, h₃⟩ := Reader.exists_beBytes (show 6 ≤ t₂.length by omega)
  have hnat : (UInt64.ofNat ts).toNat = ts := UInt64.toNat_ofNat_of_lt' (hts.trans (by decide))
  have hdrop : (beBytes 2 locate.toNat ++ (beBytes 2 tracking ++ (beBytes 6 ts ++ t₃))).drop 10 =
      t₃ := by
    rw [← List.append_assoc, ← List.append_assoc]
    exact List.drop_left' (by simp)
  refine ⟨locate, UInt64.ofNat ts, t₃, by rw [hnat]; omega, ?_, hdrop.symm, ?_⟩
  · simp only [List.length_append, length_beBytes]
    omega
  · rw [← hnat]
    simp only [common, Reader.u16_beBytes, Reader.skip_append (length_beBytes 2 tracking)]
    rw [Reader.u48_beBytes (by rw [hnat]; omega), hnat]

/-- The field of an end of snapshot. -/
theorem paddedNumber_iff {field : Bytes} :
    PaddedNumber field ↔
      ∃ n, fromChars (2 ^ 64) (field.dropWhile fun c => decide (c = 32)) = some (n, []) := by
  constructor
  · rintro ⟨k, ds, rfl, hnum, hlt⟩
    rw [dropWhile_spaces k hnum]
    exact ⟨digitsVal ds, fromChars_eq_some_nil.mpr ⟨hnum, rfl, hlt⟩⟩
  · rintro ⟨n, hn⟩
    obtain ⟨hnum, rfl, hlt⟩ := fromChars_eq_some_nil.mp hn
    have hspaces : field.takeWhile (fun c => decide (c = 32)) =
        List.replicate (field.takeWhile fun c => decide (c = 32)).length 32 := by
      apply List.eq_replicate_of_mem
      intro c hc
      exact of_decide_eq_true (List.all_eq_true.mp List.all_takeWhile c hc)
    refine ⟨(field.takeWhile fun c => decide (c = 32)).length, _, ?_, hnum, hlt⟩
    rw [← hspaces]
    exact List.takeWhile_append_dropWhile.symm

/-- A message that the decoder of its type gets through to. -/
def Decodes (type : UInt8) (n : ℕ) (t : Bytes) : Prop :=
  ∃ m, decodeBody type n ⟨t, true⟩ = some m ∧ m.timestamp.toNat < 2 ^ 48

theorem decodes_systemEvent {t : Bytes} (h : t.length = 11) : Decodes 83 12 t := by
  obtain ⟨locate, ts, rest, hts, hrest, -, hcommon⟩ := common_of_length (show 10 ≤ t.length by omega)
  obtain ⟨eventCode, rest, rfl, -⟩ := Reader.exists_u8 (show 1 ≤ rest.length by omega)
  exact ⟨.systemEvent locate ts eventCode, by simp [decodeBody, hcommon, checked], hts⟩

theorem decodes_stockDirectory {t : Bytes} (h : t.length = 38) : Decodes 82 39 t := by
  obtain ⟨locate, ts, rest, hts, hrest, -, hcommon⟩ := common_of_length (show 10 ≤ t.length by omega)
  obtain ⟨stock, rest, rfl, hrest⟩ := Reader.exists_field 8 (show 8 ≤ rest.length by omega)
  obtain ⟨filler, rest, -, rfl, hrest⟩ := Reader.exists_beBytes (show 2 ≤ rest.length by omega)
  obtain ⟨roundLotSize, rest, rfl, -⟩ := Reader.exists_u32 (show 4 ≤ rest.length by omega)
  refine ⟨.stockDirectory locate ts stock roundLotSize, ?_, hts⟩
  simp [decodeBody, hcommon, checked, Reader.skip_append (length_beBytes 2 filler)]

theorem decodes_orderExecuted {t : Bytes} (h : t.length = 30) : Decodes 69 31 t := by
  obtain ⟨locate, ts, rest, hts, hrest, -, hcommon⟩ := common_of_length (show 10 ≤ t.length by omega)
  obtain ⟨orderRef, rest, rfl, hrest⟩ := Reader.exists_u64 (show 8 ≤ rest.length by omega)
  obtain ⟨executedShares, rest, rfl, hrest⟩ := Reader.exists_u32 (show 4 ≤ rest.length by omega)
  obtain ⟨matchNumber, rest, rfl, -⟩ := Reader.exists_u64 (show 8 ≤ rest.length by omega)
  refine ⟨.orderExecuted locate ts orderRef executedShares matchNumber, ?_, hts⟩
  simp [decodeBody, hcommon, checked]

theorem decodes_orderCancel {t : Bytes} (h : t.length = 22) : Decodes 88 23 t := by
  obtain ⟨locate, ts, rest, hts, hrest, -, hcommon⟩ := common_of_length (show 10 ≤ t.length by omega)
  obtain ⟨orderRef, rest, rfl, hrest⟩ := Reader.exists_u64 (show 8 ≤ rest.length by omega)
  obtain ⟨cancelledShares, rest, rfl, -⟩ := Reader.exists_u32 (show 4 ≤ rest.length by omega)
  refine ⟨.orderCancel locate ts orderRef cancelledShares, ?_, hts⟩
  simp [decodeBody, hcommon, checked]

theorem decodes_orderDelete {t : Bytes} (h : t.length = 18) : Decodes 68 19 t := by
  obtain ⟨locate, ts, rest, hts, hrest, -, hcommon⟩ := common_of_length (show 10 ≤ t.length by omega)
  obtain ⟨orderRef, rest, rfl, -⟩ := Reader.exists_u64 (show 8 ≤ rest.length by omega)
  refine ⟨.orderDelete locate ts orderRef, ?_, hts⟩
  simp [decodeBody, hcommon, checked]

/-- The decoder of an added order also looks at the side. -/
theorem decodes_addOrder {t : Bytes} (h : t.length = 35) :
    (t.getD 18 0 = Side.buy.code ∨ t.getD 18 0 = Side.sell.code → Decodes 65 36 t) ∧
      (¬ (t.getD 18 0 = Side.buy.code ∨ t.getD 18 0 = Side.sell.code) →
        decodeBody 65 36 ⟨t, true⟩ = none) := by
  obtain ⟨locate, ts, rest, hts, hrest, hdrop, hcommon⟩ :=
    common_of_length (show 10 ≤ t.length by omega)
  have hget : t.getD 18 0 = rest.getD 8 0 := by
    rw [hdrop, List.getD_eq_getElem?_getD, List.getD_eq_getElem?_getD, List.getElem?_drop]
  rw [hget]
  clear hget hdrop
  obtain ⟨orderRef, rest, rfl, hrest⟩ := Reader.exists_u64 (show 8 ≤ rest.length by omega)
  obtain ⟨code, rest, rfl, hrest⟩ := Reader.exists_u8 (show 1 ≤ rest.length by omega)
  obtain ⟨shares, rest, rfl, hrest⟩ := Reader.exists_u32 (show 4 ≤ rest.length by omega)
  obtain ⟨stock, rest, rfl, hrest⟩ := Reader.exists_field 8 (show 8 ≤ rest.length by omega)
  obtain ⟨price, rest, rfl, -⟩ := Reader.exists_u32 (show 4 ≤ rest.length by omega)
  have hcode : ∀ more : Bytes, (beBytes 8 orderRef.toNat ++ code :: more).getD 8 0 = code := by
    intro more
    rw [List.getD_eq_getElem?_getD, List.getElem?_append_right (by simp)]
    simp
  rw [hcode]
  refine ⟨fun hside => ?_, fun hside => ?_⟩
  · obtain ⟨side, hside⟩ : ∃ side, Side.ofCode code = some side := by
      rcases hside with rfl | rfl
      · exact ⟨_, Side.ofCode_code .buy⟩
      · exact ⟨_, Side.ofCode_code .sell⟩
    refine ⟨.addOrder locate ts orderRef side shares stock price, ?_, hts⟩
    simp [decodeBody, hcommon, checked, hside]
  · have hnone : Side.ofCode code = none := by
      cases hsome : Side.ofCode code with
      | none => rfl
      | some side =>
        refine absurd ?_ hside
        rw [← Side.code_of_ofCode hsome]
        cases side
        · exact .inl rfl
        · exact .inr rfl
    simp [decodeBody, hcommon, hnone]

/-- The decoder of an end of snapshot reads a number. -/
theorem decodeBody_endOfSnapshot (t : Bytes) :
    decodeBody 71 21 ⟨t, true⟩ =
      match fromChars (2 ^ 64) (t.dropWhile fun c => decide (c = 32)) with
      | some (next, []) => some (.endOfSnapshot (UInt64.ofNat next))
      | _ => none := rfl

/-- Twenty-one bytes of the end of a snapshot, if they spell a number. -/
theorem decodes_endOfSnapshot (t : Bytes) :
    (PaddedNumber t → Decodes 71 21 t) ∧
      (¬ PaddedNumber t → decodeBody 71 21 ⟨t, true⟩ = none) := by
  rw [paddedNumber_iff]
  refine ⟨fun ⟨n, hn⟩ => ⟨.endOfSnapshot (UInt64.ofNat n), ?_, ?_⟩, fun hnone => ?_⟩
  · rw [decodeBody_endOfSnapshot, hn]
  · exact Nat.two_pow_pos 48
  · rw [decodeBody_endOfSnapshot]
    split
    · next next heq => exact absurd ⟨next, heq⟩ hnone
    · rfl

theorem decode_cons (type : UInt8) (t : Bytes) :
    decode (type :: t) = decodeBody type (t.length + 1) ⟨t, true⟩ := by
  simp [decode]

/-- **The decoder accepts the well-formed strings**, and a timestamp that it reads has 48 bits. -/
theorem decode_of_wellFormed {bs : Bytes} (h : WellFormed bs) :
    ∃ m, decode bs = some m ∧ m.timestamp.toNat < 2 ^ 48 := by
  obtain ⟨type, t, rfl, htype, hside, hnumber⟩ := h
  rw [decode_cons]
  rw [List.length_cons] at htype
  simp only [typeLens, List.mem_cons, Prod.mk.injEq, List.not_mem_nil, or_false] at htype
  rcases htype with ⟨rfl, hlen⟩ | ⟨rfl, hlen⟩ | ⟨rfl, hlen⟩ | ⟨rfl, hlen⟩ | ⟨rfl, hlen⟩ | ⟨rfl, hlen⟩ |
    ⟨rfl, hlen⟩ <;> rw [hlen]
  · exact decodes_systemEvent (by omega)
  · exact decodes_stockDirectory (by omega)
  · exact (decodes_addOrder (by omega)).1 (hside rfl)
  · exact decodes_orderExecuted (by omega)
  · exact decodes_orderCancel (by omega)
  · exact decodes_orderDelete (by omega)
  · exact (decodes_endOfSnapshot t).1 (hnumber rfl)

/-- A type behind its length check. -/
theorem guarded_eq_none {type code : UInt8} {n len : ℕ} {x y : Option Message}
    (h : type = code → n ≠ len) (hy : y = none) :
    (if type = code then if n ≠ len then none else x else y) = none := by
  split
  · next htype => exact if_pos (h htype)
  · exact hy

/-- A type that is unknown, or has another length. -/
theorem decodeBody_eq_none {type : UInt8} {n : ℕ} {r : Reader} (h : (type, n) ∉ typeLens) :
    decodeBody type n r = none := by
  simp only [typeLens, List.mem_cons, Prod.mk.injEq, List.not_mem_nil, or_false, not_or,
    not_and] at h
  obtain ⟨h83, h82, h65, h69, h88, h68, h71⟩ := h
  unfold decodeBody
  apply guarded_eq_none h83
  apply guarded_eq_none h82
  apply guarded_eq_none h65
  apply guarded_eq_none h69
  apply guarded_eq_none h88
  apply guarded_eq_none h68
  exact guarded_eq_none h71 rfl

/-- **The decoder accepts nothing else.** -/
theorem wellFormed_of_decode {bs : Bytes} {m : Message} (h : decode bs = some m) :
    WellFormed bs := by
  cases bs with
  | nil => exact nomatch h
  | cons type t =>
    rw [decode_cons] at h
    have hmem : (type, t.length + 1) ∈ typeLens := by
      by_contra hc
      exact nomatch (decodeBody_eq_none hc).symm.trans h
    refine ⟨type, t, rfl, hmem, ?_, ?_⟩
    · rintro rfl
      have hlen : t.length = 35 := by simpa [typeLens] using hmem
      by_contra hside
      rw [show t.length + 1 = 36 by omega, (decodes_addOrder hlen).2 hside] at h
      exact nomatch h
    · rintro rfl
      have hlen : t.length = 20 := by simpa [typeLens] using hmem
      by_contra hnumber
      rw [show t.length + 1 = 21 by omega, (decodes_endOfSnapshot t).2 hnumber] at h
      exact nomatch h

/-- **The ITCH codec.** For every message of a 48-bit timestamp and every capacity the encoder
stays inside its buffer and leaves the length of the type when that fits and nothing otherwise,
and what it leaves decodes to the message. The decoder accepts exactly the well-formed strings,
and the message it reads from one survives the way through the encoder. -/
theorem codec_exact :
    (∀ (m : Message) (cap : ℕ), m.timestamp.toNat < 2 ^ 48 →
      (write { cap := cap } m).out.length ≤ cap ∧
      (encode m cap).length = (if m.len ≤ cap then m.len else 0) ∧
      (m.len ≤ cap → decode (encode m cap) = some m)) ∧
    (∀ bs : Bytes, (∃ m, decode bs = some m) ↔ WellFormed bs) ∧
    (∀ (bs : Bytes) (m : Message) (cap : ℕ), decode bs = some m → m.len ≤ cap →
      decode (encode m cap) = some m) := by
  have hround : ∀ (m : Message) (cap : ℕ), m.timestamp.toNat < 2 ^ 48 → m.len ≤ cap →
      decode (encode m cap) = some m := by
    intro m cap hts hfit
    rw [encode_eq hfit, decode_layout hts]
  refine ⟨fun m cap hts => ?_, fun bs => ⟨fun ⟨m, h⟩ => wellFormed_of_decode h, fun h => ?_⟩,
    fun bs m cap h hfit => ?_⟩
  · obtain ⟨hin, hencode⟩ := encode_cases m cap
    refine ⟨hin, ?_, hround m cap hts⟩
    rw [hencode]
    split
    · exact m.length_layout
    · rfl
  · obtain ⟨m, hm, -⟩ := decode_of_wellFormed h
    exact ⟨m, hm⟩
  · obtain ⟨m', hm', hts⟩ := decode_of_wellFormed (wellFormed_of_decode h)
    obtain rfl : m' = m := Option.some.inj (hm'.symm.trans h)
    exact hround m' cap hts hfit

end PulseForge.Itch
