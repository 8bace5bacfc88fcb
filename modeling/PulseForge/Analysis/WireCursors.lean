import PulseForge.Model.Wire

/-!
# What the cursors write and read

A write that fits appends its bytes; a read of a field that is there gives the field and the
bytes behind it. Every field reads back as it was written.
-/

set_option autoImplicit false

namespace PulseForge

open Foundation

/-! ## Fields -/

/-- A text field has its width. -/
@[simp] theorem Alpha.length_bytes {width : ℕ} (a : Alpha width) : a.bytes.length = width := by
  simp [Alpha.bytes]

/-- A text field comes back. -/
@[simp] theorem Alpha.ofBytes_bytes {width : ℕ} (a : Alpha width) : Alpha.ofBytes a.bytes = a := by
  funext i
  simp [Alpha.ofBytes, Alpha.bytes, List.getD_eq_getElem?_getD]

@[simp] theorem length_putAlpha (width : ℕ) (s : Bytes) : (putAlpha width s).length = width := by
  simp only [putAlpha, List.length_append, List.length_take, List.length_replicate]
  omega

/-- The code of a side is read as the side. -/
@[simp] theorem Side.ofCode_code (s : Side) : Side.ofCode s.code = some s := by
  cases s <;> rfl

/-- The code of a time in force is read back. -/
@[simp] theorem TimeInForce.ofCode_code (t : TimeInForce) : TimeInForce.ofCode t.code = some t := by
  cases t <;> rfl

/-- A side is written as the code it was read from. -/
theorem Side.code_of_ofCode {c : UInt8} {s : Side} (h : Side.ofCode c = some s) : s.code = c := by
  unfold Side.ofCode at h
  split_ifs at h with hb hs
  · obtain rfl := Option.some.inj h
    exact hb.symm
  · obtain rfl := Option.some.inj h
    exact hs.symm

/-- A time in force is written as the code it was read from. -/
theorem TimeInForce.code_of_ofCode {c : UInt8} {t : TimeInForce}
    (h : TimeInForce.ofCode c = some t) : t.code = c := by
  unfold TimeInForce.ofCode at h
  split_ifs at h with hd hi
  · obtain rfl := Option.some.inj h
    exact hd.symm
  · obtain rfl := Option.some.inj h
    exact hi.symm

/-! ## Writing -/

namespace Writer

/-- **A write that fits.** -/
theorem bytes_mk {cap : ℕ} {out bs : Bytes} (h : out.length + bs.length ≤ cap) :
    (⟨cap, out, true⟩ : Writer).bytes bs = ⟨cap, out ++ bs, true⟩ := by
  rw [bytes, if_neg]
  simp only [Bool.true_eq_false, false_or, not_lt]
  omega

/-- A cursor that failed stays failed. -/
theorem bytes_of_not_ok {w : Writer} (h : w.ok = false) (bs : Bytes) : (w.bytes bs).ok = false := by
  rw [bytes, if_pos (.inl h)]

/-- What was written stays inside the buffer. -/
theorem length_bytes_le {w : Writer} (h : w.out.length ≤ w.cap) (bs : Bytes) :
    (w.bytes bs).out.length ≤ w.cap ∧ (w.bytes bs).cap = w.cap := by
  unfold bytes
  split
  · exact ⟨h, rfl⟩
  · next hfit =>
    push Not at hfit
    simp only [List.length_append]
    exact ⟨by omega, trivial⟩

/-- **Several writes** never leave the buffer. -/
theorem length_foldl_le (fields : List Bytes) {w : Writer} (h : w.out.length ≤ w.cap) :
    (fields.foldl bytes w).out.length ≤ w.cap := by
  induction fields generalizing w with
  | nil => exact h
  | cons bs fields ih =>
    obtain ⟨hle, hcap⟩ := length_bytes_le h bs
    have hrest := ih (w := w.bytes bs) (by rw [hcap]; exact hle)
    rw [hcap] at hrest
    exact hrest

/-- **Several writes that fit.** -/
theorem foldl_bytes_mk {cap : ℕ} (fields : List Bytes) {out : Bytes}
    (h : out.length + fields.flatten.length ≤ cap) :
    fields.foldl bytes ⟨cap, out, true⟩ = ⟨cap, out ++ fields.flatten, true⟩ := by
  induction fields generalizing out with
  | nil => simp
  | cons bs fields ih =>
    rw [List.flatten_cons, List.length_append] at h
    rw [List.foldl_cons, bytes_mk (by omega), ih (by rw [List.length_append]; omega),
      List.flatten_cons, List.append_assoc]

/-- A writer without room stays without. -/
theorem foldl_bytes_of_not_ok (fields : List Bytes) {w : Writer} (h : w.ok = false) :
    (fields.foldl bytes w).ok = false := by
  induction fields generalizing w with
  | nil => exact h
  | cons bs fields ih => exact ih (bytes_of_not_ok h bs)

/-- **Several writes that do not fit** fail. -/
theorem foldl_bytes_full {cap : ℕ} (fields : List Bytes) {out : Bytes} (hout : out.length ≤ cap)
    (h : cap < out.length + fields.flatten.length) :
    (fields.foldl bytes ⟨cap, out, true⟩).ok = false := by
  induction fields generalizing out with
  | nil => simp at h; omega
  | cons bs fields ih =>
    rw [List.flatten_cons, List.length_append] at h
    rw [List.foldl_cons]
    by_cases hfit : out.length + bs.length ≤ cap
    · rw [bytes_mk hfit]
      exact ih (by rw [List.length_append]; omega) (by rw [List.length_append]; omega)
    · apply foldl_bytes_of_not_ok
      rw [bytes, if_pos (.inr (by simp only; omega))]

/-- What an encoder that writes `fields` into `cap` bytes leaves. -/
theorem foldl_bytes_cases (fields : List Bytes) (cap : ℕ) :
    (fields.foldl bytes { cap := cap }).out.length ≤ cap ∧
      (fields.foldl bytes { cap := cap }).done =
        if fields.flatten.length ≤ cap then fields.flatten else [] := by
  refine ⟨length_foldl_le fields (Nat.zero_le _), ?_⟩
  split
  · next hfit =>
    rw [foldl_bytes_mk fields (by simpa using hfit)]
    rfl
  · next hfull =>
    have hok : (fields.foldl bytes { cap := cap }).ok = false :=
      foldl_bytes_full fields (Nat.zero_le _) (by simpa using hfull)
    rw [done, hok]
    rfl

end Writer

/-! ## Reading -/

namespace Reader

variable {t bs : Bytes} {n : ℕ}

/-- **A read of what is there.** -/
theorem take_append (h : bs.length = n) :
    (⟨bs ++ t, true⟩ : Reader).take n = (some bs, ⟨t, true⟩) := by
  subst h
  simp [take]

/-- Skipping a field. -/
theorem skip_append (h : bs.length = n) : (⟨bs ++ t, true⟩ : Reader).skip n = ⟨t, true⟩ := by
  rw [skip, take_append h]

/-- Reading a number in front of the rest. -/
theorem number_append (h : bs.length = n) :
    (⟨bs ++ t, true⟩ : Reader).number n = (beVal bs, ⟨t, true⟩) := by
  rw [number, take_append h]

@[simp] theorem u8_cons (v : UInt8) (t : Bytes) : (⟨v :: t, true⟩ : Reader).u8 = (v, ⟨t, true⟩) := by
  have h : (⟨v :: t, true⟩ : Reader).number 1 = (beVal [v], ⟨t, true⟩) :=
    number_append (show ([v] : Bytes).length = 1 from rfl)
  rw [u8, h]
  simp [beVal]

@[simp] theorem u16_beBytes (v : UInt16) (t : Bytes) :
    (⟨beBytes 2 v.toNat ++ t, true⟩ : Reader).u16 = (v, ⟨t, true⟩) := by
  rw [u16, number_append (by simp), beVal_beBytes_of_lt v.toNat_lt]
  simp

@[simp] theorem u32_beBytes (v : UInt32) (t : Bytes) :
    (⟨beBytes 4 v.toNat ++ t, true⟩ : Reader).u32 = (v, ⟨t, true⟩) := by
  rw [u32, number_append (by simp), beVal_beBytes_of_lt v.toNat_lt]
  simp

@[simp] theorem u64_beBytes (v : UInt64) (t : Bytes) :
    (⟨beBytes 8 v.toNat ++ t, true⟩ : Reader).u64 = (v, ⟨t, true⟩) := by
  rw [u64, number_append (by simp), beVal_beBytes_of_lt v.toNat_lt]
  simp

/-- Six bytes hold a number below `2 ^ 48`. -/
theorem u48_beBytes {v : UInt64} (h : v.toNat < 2 ^ 48) (t : Bytes) :
    (⟨beBytes 6 v.toNat ++ t, true⟩ : Reader).u48 = (v, ⟨t, true⟩) := by
  rw [u48, number_append (by simp), beVal_beBytes_of_lt (by omega)]
  simp

@[simp] theorem i64_beBytes (v : Int64) (t : Bytes) :
    (⟨beBytes 8 v.toUInt64.toNat ++ t, true⟩ : Reader).i64 = (v, ⟨t, true⟩) := by
  rw [i64, u64_beBytes]
  simp

/-- Reading a text field. -/
@[simp] theorem field_bytes {width : ℕ} (a : Alpha width) (t : Bytes) :
    (⟨a.bytes ++ t, true⟩ : Reader).field width = (a, ⟨t, true⟩) := by
  rw [field, take_append (by simp)]
  simp

/-! ## Every string starts with a field -/

/-- A string that is long enough starts with a number. -/
theorem exists_beBytes {n : ℕ} {bs : Bytes} (h : n ≤ bs.length) :
    ∃ v t, v < 256 ^ n ∧ bs = beBytes n v ++ t ∧ t.length = bs.length - n := by
  have hlen : (bs.take n).length = n := List.length_take_of_le h
  refine ⟨beVal (bs.take n), bs.drop n, ?_, ?_, List.length_drop⟩
  · have hlt := beVal_lt (bs.take n)
    rw [hlen] at hlt
    exact hlt
  · rw [beBytes_beVal _ hlen, List.take_append_drop]

theorem exists_u8 {bs : Bytes} (h : 1 ≤ bs.length) :
    ∃ (v : UInt8) (t : Bytes), bs = v :: t ∧ t.length = bs.length - 1 := by
  cases bs with
  | nil => simp at h
  | cons v t => exact ⟨v, t, rfl, by simp⟩

theorem exists_u16 {bs : Bytes} (h : 2 ≤ bs.length) :
    ∃ (v : UInt16) (t : Bytes), bs = beBytes 2 v.toNat ++ t ∧ t.length = bs.length - 2 := by
  obtain ⟨v, t, hv, hbs, ht⟩ := exists_beBytes h
  refine ⟨UInt16.ofNat v, t, ?_, ht⟩
  rw [UInt16.toNat_ofNat_of_lt' hv]
  exact hbs

theorem exists_u32 {bs : Bytes} (h : 4 ≤ bs.length) :
    ∃ (v : UInt32) (t : Bytes), bs = beBytes 4 v.toNat ++ t ∧ t.length = bs.length - 4 := by
  obtain ⟨v, t, hv, hbs, ht⟩ := exists_beBytes h
  refine ⟨UInt32.ofNat v, t, ?_, ht⟩
  rw [UInt32.toNat_ofNat_of_lt' hv]
  exact hbs

theorem exists_u64 {bs : Bytes} (h : 8 ≤ bs.length) :
    ∃ (v : UInt64) (t : Bytes), bs = beBytes 8 v.toNat ++ t ∧ t.length = bs.length - 8 := by
  obtain ⟨v, t, hv, hbs, ht⟩ := exists_beBytes h
  refine ⟨UInt64.ofNat v, t, ?_, ht⟩
  rw [UInt64.toNat_ofNat_of_lt' hv]
  exact hbs

theorem exists_i64 {bs : Bytes} (h : 8 ≤ bs.length) :
    ∃ (v : Int64) (t : Bytes), bs = beBytes 8 v.toUInt64.toNat ++ t ∧ t.length = bs.length - 8 := by
  obtain ⟨v, t, hbs, ht⟩ := exists_u64 h
  exact ⟨v.toInt64, t, by simpa using hbs, ht⟩

/-- Such a string starts with a text field. -/
theorem exists_field (width : ℕ) {bs : Bytes} (h : width ≤ bs.length) :
    ∃ (a : Alpha width) (t : Bytes), bs = a.bytes ++ t ∧ t.length = bs.length - width := by
  refine ⟨Alpha.ofBytes bs, bs.drop width, ?_, List.length_drop⟩
  have hbytes : (Alpha.ofBytes bs : Alpha width).bytes = bs.take width := by
    apply List.ext_getElem
    · simp [h]
    · intro i hi _
      have hiw : i < width := by simpa using hi
      simp [Alpha.bytes, Alpha.ofBytes, List.getD_eq_getElem?_getD,
        List.getElem?_eq_getElem (show i < bs.length by omega)]
  rw [hbytes, List.take_append_drop]

end Reader

end PulseForge
