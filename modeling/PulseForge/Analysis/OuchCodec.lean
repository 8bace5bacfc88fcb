import PulseForge.Analysis.WireCursors
import PulseForge.Model.Ouch

/-!
# OUCH messages survive the wire

Encoding a message into a buffer that is large enough gives its layout, and decoding the
layout gives the message back, in both directions. The decoders accept nothing but layouts,
so that each codec is a bijection between its messages and the strings it accepts.
-/

set_option autoImplicit false

namespace PulseForge.Ouch

open Foundation

/-- `len::…`, the length of each type of message. -/
def Inbound.len : Inbound → ℕ
  | .enterOrder _ => 41
  | .cancelOrder _ => 9

def Outbound.len : Outbound → ℕ
  | .accepted .. => 58
  | .executed .. => 34
  | .canceled .. => 18
  | .rejected .. => 28

/-- The bytes of a client's message. -/
def Inbound.layout : Inbound → Bytes
  | .enterOrder m =>
    79 :: (beBytes 4 m.userRef.toNat ++ (m.side.code :: (beBytes 4 m.qty.toNat ++
      (m.symbol.bytes ++ (beBytes 8 m.price.toUInt64.toNat ++ (m.tif.code ::
        (m.clordid.bytes ++ [])))))))
  | .cancelOrder m => 88 :: (beBytes 4 m.userRef.toNat ++ (beBytes 4 m.qty.toNat ++ []))

/-- The bytes of a report. -/
def Outbound.layout : Outbound → Bytes
  | .accepted ts userRef side qty symbol price tif orderRef clordid state =>
    65 :: (beBytes 8 ts.toNat ++ (beBytes 4 userRef.toNat ++ (side.code :: (beBytes 4 qty.toNat ++
      (symbol.bytes ++ (beBytes 8 price.toUInt64.toNat ++ (tif.code ::
        (beBytes 8 orderRef.toNat ++ (clordid.bytes ++ [state])))))))))
  | .executed ts userRef qty price liquidity matchNumber =>
    69 :: (beBytes 8 ts.toNat ++ (beBytes 4 userRef.toNat ++ (beBytes 4 qty.toNat ++
      (beBytes 8 price.toUInt64.toNat ++ (liquidity :: (beBytes 8 matchNumber.toNat ++ []))))))
  | .canceled ts userRef qty reason =>
    67 :: (beBytes 8 ts.toNat ++ (beBytes 4 userRef.toNat ++ (beBytes 4 qty.toNat ++ [reason])))
  | .rejected ts userRef reason clordid =>
    74 :: (beBytes 8 ts.toNat ++ (beBytes 4 userRef.toNat ++ (reason :: (clordid.bytes ++ []))))

/-- An inbound message is as long as its type says. -/
theorem Inbound.length_layout (m : Inbound) : m.layout.length = m.len := by
  cases m <;> simp [Inbound.layout, Inbound.len]

/-- An outbound message is as long as its type says. -/
theorem Outbound.length_layout (m : Outbound) : m.layout.length = m.len := by
  cases m <;> simp [Outbound.layout, Outbound.len]

/-! ## Encoding -/

/-- The fields of a client's message, in the order they are written. -/
def Inbound.fields : Inbound → List Bytes
  | .enterOrder m =>
    [[79], beBytes 4 m.userRef.toNat, [m.side.code], beBytes 4 m.qty.toNat, m.symbol.bytes,
      beBytes 8 m.price.toUInt64.toNat, [m.tif.code], m.clordid.bytes]
  | .cancelOrder m => [[88], beBytes 4 m.userRef.toNat, beBytes 4 m.qty.toNat]

def Outbound.fields : Outbound → List Bytes
  | .accepted ts userRef side qty symbol price tif orderRef clordid state =>
    [[65], beBytes 8 ts.toNat, beBytes 4 userRef.toNat, [side.code], beBytes 4 qty.toNat,
      symbol.bytes, beBytes 8 price.toUInt64.toNat, [tif.code], beBytes 8 orderRef.toNat,
      clordid.bytes, [state]]
  | .executed ts userRef qty price liquidity matchNumber =>
    [[69], beBytes 8 ts.toNat, beBytes 4 userRef.toNat, beBytes 4 qty.toNat,
      beBytes 8 price.toUInt64.toNat, [liquidity], beBytes 8 matchNumber.toNat]
  | .canceled ts userRef qty reason =>
    [[67], beBytes 8 ts.toNat, beBytes 4 userRef.toNat, beBytes 4 qty.toNat, [reason]]
  | .rejected ts userRef reason clordid =>
    [[74], beBytes 8 ts.toNat, beBytes 4 userRef.toNat, [reason], clordid.bytes]

/-- The fields of an inbound message are its layout. -/
theorem Inbound.flatten_fields (m : Inbound) : m.fields.flatten = m.layout := by
  cases m <;> simp [Inbound.fields, Inbound.layout]

/-- The fields of an outbound message are its layout. -/
theorem Outbound.flatten_fields (m : Outbound) : m.fields.flatten = m.layout := by
  cases m <;> simp [Outbound.fields, Outbound.layout]

/-- Writing an inbound message writes its fields. -/
theorem writeInbound_eq (w : Writer) (m : Inbound) :
    writeInbound w m = m.fields.foldl Writer.bytes w := by
  cases m <;> rfl

/-- Writing an outbound message writes its fields. -/
theorem writeOutbound_eq (w : Writer) (m : Outbound) :
    writeOutbound w m = m.fields.foldl Writer.bytes w := by
  cases m <;> rfl

/-- **A buffer that is large enough** holds the layout. -/
theorem encodeInbound_eq {cap : ℕ} {m : Inbound} (h : m.len ≤ cap) :
    encodeInbound m cap = m.layout := by
  rw [encodeInbound, writeInbound_eq, (Writer.foldl_bytes_cases m.fields cap).2, m.flatten_fields,
    if_pos (by rw [m.length_layout]; exact h)]

/-- Encoding gives the layout when there is room. -/
theorem encodeOutbound_eq {cap : ℕ} {m : Outbound} (h : m.len ≤ cap) :
    encodeOutbound m cap = m.layout := by
  rw [encodeOutbound, writeOutbound_eq, (Writer.foldl_bytes_cases m.fields cap).2, m.flatten_fields,
    if_pos (by rw [m.length_layout]; exact h)]

/-! ## Decoding -/

/-- **Decoding what a client encoded.** -/
theorem decodeInbound_layout (m : Inbound) : decodeInbound m.layout = some m := by
  have hlen := m.length_layout
  rw [decodeInbound, if_neg (by rw [hlen]; cases m <;> simp [Inbound.len]), hlen]
  cases m <;>
  · simp only [Inbound.layout, Reader.u8_cons, Inbound.len, decodeInboundBody, Reader.u32_beBytes,
      Reader.field_bytes, Reader.i64_beBytes, Side.ofCode_code, TimeInForce.ofCode_code]
    simp [checked]

/-- **Decoding what the exchange encoded.** -/
theorem decodeOutbound_layout (m : Outbound) : decodeOutbound m.layout = some m := by
  have hlen := m.length_layout
  rw [decodeOutbound, if_neg (by rw [hlen]; cases m <;> simp [Outbound.len]), hlen]
  cases m <;>
  · simp only [Outbound.layout, Reader.u8_cons, Outbound.len, decodeOutboundBody,
      Reader.u64_beBytes, Reader.u32_beBytes, Reader.field_bytes, Reader.i64_beBytes,
      Side.ofCode_code, TimeInForce.ofCode_code]
    simp [checked]

/-- Every report fits the exchange's buffer. -/
theorem Outbound.len_le_max (m : Outbound) : m.len ≤ kMaxMessageLen := by
  cases m <;> simp [Outbound.len, kMaxMessageLen]

/-! ## Decoders accept only layouts -/

/-- **What a client's decoder accepts** is the layout of the message. -/
theorem layout_of_decodeInbound {bs : Bytes} {m : Inbound} (h : decodeInbound bs = some m) :
    bs = m.layout := by
  rw [decodeInbound] at h
  split_ifs at h with h0
  obtain ⟨type, t, rfl, ht⟩ := Reader.exists_u8 (Nat.one_le_iff_ne_zero.mpr h0)
  simp only [Reader.u8_cons, decodeInboundBody] at h
  split_ifs at h with ho hlen hx hlen
  · subst ho
    have hlen : t.length = 40 := by simpa using hlen
    obtain ⟨userRef, t, rfl, ht⟩ := Reader.exists_u32 (show 4 ≤ t.length by omega)
    obtain ⟨side, t, rfl, ht⟩ := Reader.exists_u8 (show 1 ≤ t.length by omega)
    obtain ⟨qty, t, rfl, ht⟩ := Reader.exists_u32 (show 4 ≤ t.length by omega)
    obtain ⟨symbol, t, rfl, ht⟩ := Reader.exists_field 8 (show 8 ≤ t.length by omega)
    obtain ⟨price, t, rfl, ht⟩ := Reader.exists_i64 (show 8 ≤ t.length by omega)
    obtain ⟨tif, t, rfl, ht⟩ := Reader.exists_u8 (show 1 ≤ t.length by omega)
    obtain ⟨clordid, t, rfl, ht⟩ := Reader.exists_field 14 (show 14 ≤ t.length by omega)
    obtain rfl : t = [] := List.eq_nil_of_length_eq_zero (by omega)
    simp only [Reader.u32_beBytes, Reader.u8_cons, Reader.field_bytes, Reader.i64_beBytes] at h
    cases hside : Side.ofCode side with
    | none => simp [hside] at h
    | some s =>
      cases htif : TimeInForce.ofCode tif with
      | none => simp [hside, htif] at h
      | some f =>
        simp only [hside, htif, checked, if_true, Option.some.injEq] at h
        rw [← h, ← Side.code_of_ofCode hside, ← TimeInForce.code_of_ofCode htif]
        rfl
  · subst hx
    have hlen : t.length = 8 := by simpa using hlen
    obtain ⟨userRef, t, rfl, ht⟩ := Reader.exists_u32 (show 4 ≤ t.length by omega)
    obtain ⟨qty, t, rfl, ht⟩ := Reader.exists_u32 (show 4 ≤ t.length by omega)
    obtain rfl : t = [] := List.eq_nil_of_length_eq_zero (by omega)
    simp only [Reader.u32_beBytes, checked, if_true, Option.some.injEq] at h
    rw [← h]
    rfl

/-- **What the client's reports decoder accepts** is the layout of the report. -/
theorem layout_of_decodeOutbound {bs : Bytes} {m : Outbound} (h : decodeOutbound bs = some m) :
    bs = m.layout := by
  rw [decodeOutbound] at h
  split_ifs at h with h0
  obtain ⟨type, t, rfl, ht⟩ := Reader.exists_u8 (Nat.one_le_iff_ne_zero.mpr h0)
  simp only [Reader.u8_cons, decodeOutboundBody] at h
  split_ifs at h with htype hlen htype hlen htype hlen htype hlen <;> subst htype <;>
    simp only [ne_eq, not_not, List.length_cons] at hlen <;>
    obtain ⟨ts, t, rfl, ht⟩ := Reader.exists_u64 (show 8 ≤ t.length by omega) <;>
    obtain ⟨userRef, t, rfl, ht⟩ := Reader.exists_u32 (show 4 ≤ t.length by
      simp only [List.length_append, length_beBytes] at hlen; omega) <;>
    simp only [List.length_append, length_beBytes] at hlen
  · obtain ⟨side, t, rfl, ht⟩ := Reader.exists_u8 (show 1 ≤ t.length by omega)
    obtain ⟨qty, t, rfl, ht⟩ := Reader.exists_u32 (show 4 ≤ t.length by omega)
    obtain ⟨symbol, t, rfl, ht⟩ := Reader.exists_field 8 (show 8 ≤ t.length by omega)
    obtain ⟨price, t, rfl, ht⟩ := Reader.exists_i64 (show 8 ≤ t.length by omega)
    obtain ⟨tif, t, rfl, ht⟩ := Reader.exists_u8 (show 1 ≤ t.length by omega)
    obtain ⟨orderRef, t, rfl, ht⟩ := Reader.exists_u64 (show 8 ≤ t.length by omega)
    obtain ⟨clordid, t, rfl, ht⟩ := Reader.exists_field 14 (show 14 ≤ t.length by omega)
    obtain ⟨state, t, rfl, ht⟩ := Reader.exists_u8 (show 1 ≤ t.length by omega)
    obtain rfl : t = [] := List.eq_nil_of_length_eq_zero (by omega)
    simp only [Reader.u64_beBytes, Reader.u32_beBytes, Reader.u8_cons, Reader.field_bytes,
      Reader.i64_beBytes] at h
    cases hside : Side.ofCode side with
    | none => simp [hside] at h
    | some s =>
      cases htif : TimeInForce.ofCode tif with
      | none => simp [hside, htif] at h
      | some f =>
        simp only [hside, htif, checked, if_true, Option.some.injEq] at h
        rw [← h, ← Side.code_of_ofCode hside, ← TimeInForce.code_of_ofCode htif]
        rfl
  · obtain ⟨qty, t, rfl, ht⟩ := Reader.exists_u32 (show 4 ≤ t.length by omega)
    obtain ⟨price, t, rfl, ht⟩ := Reader.exists_i64 (show 8 ≤ t.length by omega)
    obtain ⟨liquidity, t, rfl, ht⟩ := Reader.exists_u8 (show 1 ≤ t.length by omega)
    obtain ⟨matchNumber, t, rfl, ht⟩ := Reader.exists_u64 (show 8 ≤ t.length by omega)
    obtain rfl : t = [] := List.eq_nil_of_length_eq_zero (by omega)
    simp only [Reader.u64_beBytes, Reader.u32_beBytes, Reader.u8_cons, Reader.i64_beBytes, checked,
      if_true, Option.some.injEq] at h
    rw [← h]
    rfl
  · obtain ⟨qty, t, rfl, ht⟩ := Reader.exists_u32 (show 4 ≤ t.length by omega)
    obtain ⟨reason, t, rfl, ht⟩ := Reader.exists_u8 (show 1 ≤ t.length by omega)
    obtain rfl : t = [] := List.eq_nil_of_length_eq_zero (by omega)
    simp only [Reader.u64_beBytes, Reader.u32_beBytes, Reader.u8_cons, checked, if_true,
      Option.some.injEq] at h
    rw [← h]
    rfl
  · obtain ⟨reason, t, rfl, ht⟩ := Reader.exists_u8 (show 1 ≤ t.length by omega)
    obtain ⟨clordid, t, rfl, ht⟩ := Reader.exists_field 14 (show 14 ≤ t.length by omega)
    obtain rfl : t = [] := List.eq_nil_of_length_eq_zero (by omega)
    simp only [Reader.u64_beBytes, Reader.u32_beBytes, Reader.u8_cons, Reader.field_bytes, checked,
      if_true, Option.some.injEq] at h
    rw [← h]
    rfl

/-- **The OUCH codec is a bijection**, in both directions of the session. For every message
and every capacity the encoder stays inside its buffer, and it leaves the fixed length of the
type when that fits and nothing otherwise; what it leaves decodes to the message. A string
that a decoder accepts is what the encoder writes for the message it decodes to. -/
theorem codec_bijective :
    (∀ (m : Inbound) (cap : ℕ), (writeInbound { cap := cap } m).out.length ≤ cap ∧
      (encodeInbound m cap).length = (if m.len ≤ cap then m.len else 0) ∧
      (m.len ≤ cap → decodeInbound (encodeInbound m cap) = some m)) ∧
    (∀ (m : Outbound) (cap : ℕ), (writeOutbound { cap := cap } m).out.length ≤ cap ∧
      (encodeOutbound m cap).length = (if m.len ≤ cap then m.len else 0) ∧
      (m.len ≤ cap → decodeOutbound (encodeOutbound m cap) = some m)) ∧
    (∀ (bs : Bytes) (m : Inbound), decodeInbound bs = some m →
      bs.length = m.len ∧ ∀ cap, m.len ≤ cap → encodeInbound m cap = bs) ∧
    (∀ (bs : Bytes) (m : Outbound), decodeOutbound bs = some m →
      bs.length = m.len ∧ ∀ cap, m.len ≤ cap → encodeOutbound m cap = bs) := by
  refine ⟨fun m cap => ?_, fun m cap => ?_, fun bs m h => ?_, fun bs m h => ?_⟩
  · obtain ⟨hin, hdone⟩ := Writer.foldl_bytes_cases m.fields cap
    rw [m.flatten_fields, m.length_layout] at hdone
    refine ⟨by rw [writeInbound_eq]; exact hin, ?_, fun hfit => ?_⟩
    · rw [encodeInbound, writeInbound_eq, hdone]
      split
      · exact m.length_layout
      · rfl
    · rw [encodeInbound_eq hfit, decodeInbound_layout]
  · obtain ⟨hin, hdone⟩ := Writer.foldl_bytes_cases m.fields cap
    rw [m.flatten_fields, m.length_layout] at hdone
    refine ⟨by rw [writeOutbound_eq]; exact hin, ?_, fun hfit => ?_⟩
    · rw [encodeOutbound, writeOutbound_eq, hdone]
      split
      · exact m.length_layout
      · rfl
    · rw [encodeOutbound_eq hfit, decodeOutbound_layout]
  · obtain rfl := layout_of_decodeInbound h
    exact ⟨m.length_layout, fun cap hfit => encodeInbound_eq hfit⟩
  · obtain rfl := layout_of_decodeOutbound h
    exact ⟨m.length_layout, fun cap hfit => encodeOutbound_eq hfit⟩

end PulseForge.Ouch
