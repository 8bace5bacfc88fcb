import PulseForge.Foundation.CheckedRun
import PulseForge.Model.PacketMemory

/-!
# A message decoded where it lies

The reader over a message inside a datagram loads only bytes of the message, and `itch::decode`
answers what it answers on a copy of these bytes. The cursor never passes the end of the message,
so the unsigned difference of length and position is what is left.
-/

set_option autoImplicit false

namespace PulseForge.Datagram

open Foundation

variable {d : Datagram} {p n k : ℕ}

/-! ## Slices -/

/-- A difference of sizes that does not wrap. -/
theorem subSize_eq {a b : ℕ} (hba : b ≤ a) (ha : a < 2 ^ 64) : subSize a b = a - b := by
  unfold subSize
  rw [Nat.sub_add_comm hba, Nat.add_mod_right]
  apply Nat.mod_eq_of_lt
  omega

theorem length_slice (h : p + n ≤ d.bytes.length) : (d.slice p n).length = n := by
  unfold slice
  rw [List.length_take, List.length_drop]
  omega

/-- The rest of a slice. -/
theorem drop_slice (k : ℕ) : (d.slice p n).drop k = d.slice (p + k) (n - k) := by
  unfold slice
  rw [List.drop_take, List.drop_drop]

/-- The front of a slice. -/
theorem take_slice (h : k ≤ n) : (d.slice p n).take k = d.slice p k := by
  unfold slice
  rw [List.take_take, Nat.min_eq_left h]

/-- A load inside the datagram gives its bytes. -/
theorem load_eq (h : p + n ≤ d.bytes.length) : d.load p n = some (d.slice p n) := by
  unfold load
  rw [if_pos h]

/-! ## The reader -/

/-- The cursor over the `n` bytes at `p` and the reader of a copy are at the same place. -/
structure At (d : Datagram) (p n : ℕ) (c : Cursor) (r : Reader) : Prop where
  buf : c.buf = p
  len : c.len = n
  ok : c.ok = r.ok
  pos : c.pos ≤ n
  rest : r.rest = (d.slice p n).drop c.pos

/-- What the reader has left is the rest of its slice. -/
theorem At.rest_length {c : Cursor} {r : Reader} (h : At d p n c r)
    (hin : p + n ≤ d.bytes.length) : r.rest.length = n - c.pos := by
  rw [h.rest, List.length_drop, length_slice hin]

/-- **One `take`**: the pointer is null for both, or the bytes behind it are inside the message. -/
theorem At.take {c : Cursor} {r : Reader} (h : At d p n c r) (hin : p + n ≤ d.bytes.length)
    (k : ℕ) :
    At d p n (c.take k).2 (r.take k).2 ∧
      ((c.take k).1 = none ∧ (r.take k).1 = none ∨
        (c.take k).1 = some (p + c.pos) ∧ p + c.pos + k ≤ d.bytes.length ∧
          (r.take k).1 = some (d.slice (p + c.pos) k)) := by
  have hfits := d.fits
  have hpos := h.pos
  have hleft : subSize c.len c.pos = r.rest.length := by
    rw [h.rest_length hin, h.len]
    exact subSize_eq hpos (by omega)
  unfold Cursor.take Reader.take
  rw [hleft, h.ok]
  by_cases hshort : r.ok = false ∨ r.rest.length < k
  · rw [if_pos hshort, if_pos hshort]
    exact ⟨⟨h.buf, h.len, rfl, hpos, h.rest⟩, .inl ⟨rfl, rfl⟩⟩
  · rw [if_neg hshort, if_neg hshort]
    push Not at hshort
    have hk : k ≤ n - c.pos := by
      rw [← h.rest_length hin]
      exact hshort.2
    have hnext : (c.pos + k) % 2 ^ 64 = c.pos + k := Nat.mod_eq_of_lt (by omega)
    constructor
    · refine ⟨h.buf, h.len, rfl, ?_, ?_⟩
      · show (c.pos + k) % 2 ^ 64 ≤ n
        omega
      · show r.rest.drop k = (d.slice p n).drop ((c.pos + k) % 2 ^ 64)
        rw [hnext, h.rest, List.drop_drop]
    · refine .inr ⟨by rw [h.buf], by omega, ?_⟩
      rw [h.rest, drop_slice, take_slice hk]

/-- The bytes behind the pointer are loaded. -/
theorem readsAs_fetch (hin : p + n ≤ d.bytes.length) (k : ℕ) :
    ReadsAs (At d p n) (d.fetch k) fun r => r.take k := by
  intro c r h
  obtain ⟨hat, ⟨hc, hr⟩ | ⟨hc, hload, hr⟩⟩ := h.take hin k
  · refine ⟨(c.take k).2, ?_, hat⟩
    unfold fetch
    rw [hr, show c.take k = (none, (c.take k).2) from Prod.ext hc rfl]
  · refine ⟨(c.take k).2, ?_, hat⟩
    unfold fetch
    rw [hr, show c.take k = (some (p + c.pos), (c.take k).2) from Prod.ext hc rfl]
    show (d.load (p + c.pos) k).map _ = _
    rw [load_eq hload]
    rfl

/-- A number is read from its bytes. -/
theorem number_eq (r : Reader) (k : ℕ) :
    r.number k = (((r.take k).1.map beVal).getD 0, (r.take k).2) := by
  unfold Reader.number
  rcases r.take k with ⟨_ | bs, r'⟩ <;> rfl

/-- A text field is read from its bytes. -/
theorem field_eq (r : Reader) (width : ℕ) :
    r.field width = (((r.take width).1.map Alpha.ofBytes).getD fun _ => 0, (r.take width).2) := by
  unfold Reader.field
  rcases r.take width with ⟨_ | bs, r'⟩ <;> rfl

/-- Reading a number stays in the slice. -/
theorem readsAs_number (hin : p + n ≤ d.bytes.length) (k : ℕ) :
    ReadsAs (At d p n) (d.number k) fun r => r.number k := by
  simp only [number_eq]
  exact (readsAs_fetch hin k).map fun bs => (bs.map beVal).getD 0

/-- Reading a text field stays in the slice. -/
theorem readsAs_field (hin : p + n ≤ d.bytes.length) (width : ℕ) :
    ReadsAs (At d p n) (d.field width) fun r => r.field width := by
  simp only [field_eq]
  exact (readsAs_fetch hin width).map fun bs => (bs.map Alpha.ofBytes).getD fun _ => 0

theorem readsAs_u8 (hin : p + n ≤ d.bytes.length) : ReadsAs (At d p n) d.u8 Reader.u8 :=
  (readsAs_number hin 1).map UInt8.ofNat

theorem readsAs_u16 (hin : p + n ≤ d.bytes.length) : ReadsAs (At d p n) d.u16 Reader.u16 :=
  (readsAs_number hin 2).map UInt16.ofNat

theorem readsAs_u32 (hin : p + n ≤ d.bytes.length) : ReadsAs (At d p n) d.u32 Reader.u32 :=
  (readsAs_number hin 4).map UInt32.ofNat

theorem readsAs_u48 (hin : p + n ≤ d.bytes.length) : ReadsAs (At d p n) d.u48 Reader.u48 :=
  (readsAs_number hin 6).map UInt64.ofNat

theorem readsAs_u64 (hin : p + n ≤ d.bytes.length) : ReadsAs (At d p n) d.u64 Reader.u64 :=
  (readsAs_number hin 8).map UInt64.ofNat

/-- Skipping loads nothing. -/
theorem readsAs_skip (hin : p + n ≤ d.bytes.length) (k : ℕ) :
    ReadsAs (At d p n) (skip k) fun r => ((), r.skip k) := by
  intro c r h
  exact ⟨(c.take k).2, rfl, (h.take hin k).1⟩

/-- The common fields stay in the slice. -/
theorem readsAs_common (hin : p + n ≤ d.bytes.length) :
    ReadsAs (At d p n) d.common fun r =>
      (((Itch.common r).1, (Itch.common r).2.1), (Itch.common r).2.2) := by
  have h := (readsAs_u16 hin).bind fun locate => (readsAs_skip hin 2).bind fun _ =>
    (readsAs_u48 hin).bind fun ts => readsAs_pure (locate, ts)
  exact h

/-- The check at the end loads nothing. -/
theorem endsAs_checked (m : Itch.Message) :
    EndsAs (At d p n) (checked m) fun r => Itch.checked r m := by
  intro c r h
  refine ⟨c, ?_⟩
  unfold checked Itch.checked
  rw [h.ok]

/-! ## The end of a snapshot -/

/-- The loop over the padding stays in front of `e`, and stops where the text begins. -/
theorem skipSpaces_eq {fuel s e : ℕ} (hse : s ≤ e) (he : e ≤ d.bytes.length)
    (hfuel : e - s < fuel) : ∃ s', d.skipSpaces fuel s e = some s' ∧ s ≤ s' ∧ s' ≤ e ∧
      ((d.slice s (e - s)).dropWhile fun c => c = 32) = d.slice s' (e - s') := by
  induction fuel generalizing s with
  | zero => omega
  | succ fuel ih =>
    unfold skipSpaces
    by_cases hlt : s < e
    · have hcons : d.slice s (e - s) = d.bytes[s] :: d.slice (s + 1) (e - (s + 1)) := by
        unfold slice
        rw [List.drop_eq_getElem_cons (by omega), ← List.take_succ_cons]
        congr 1
        omega
      have hone : d.slice s 1 = [d.bytes[s]] := by
        rw [← take_slice (show 1 ≤ e - s by omega), hcons]
        rfl
      rw [if_pos hlt, load_eq (by omega), hone, hcons]
      by_cases hspace : d.bytes[s] = 32
      · obtain ⟨s', hs', hle, hle', hdrop⟩ := ih (s := s + 1) (by omega) (by omega)
        refine ⟨s', ?_, by omega, hle', ?_⟩
        · rw [Option.bind_some, if_pos (by rw [hspace]), hs']
        · rw [List.dropWhile_cons_of_pos (by simpa using hspace), hdrop]
      · refine ⟨s, ?_, le_rfl, hse, ?_⟩
        · rw [Option.bind_some, if_neg (by simpa using hspace)]
        · rw [List.dropWhile_cons_of_neg (by simpa using hspace), hcons]
    · obtain rfl : s = e := by omega
      refine ⟨s, if_neg hlt, le_rfl, le_rfl, ?_⟩
      rw [Nat.sub_self]
      unfold slice
      rw [List.take_zero]
      rfl

/-- The end of a snapshot is read inside its twenty-one bytes. -/
theorem endOfSnapshot_eq (hin : p + 21 ≤ d.bytes.length) :
    d.endOfSnapshot p = some
      (match fromChars (2 ^ 64) ((d.slice (p + 1) 20).dropWhile fun c => c = 32) with
      | some (next, []) => some (.endOfSnapshot (UInt64.ofNat next))
      | _ => none) := by
  obtain ⟨s, hs, hle, hle', hdrop⟩ := skipSpaces_eq (show p + 1 ≤ p + 21 by omega) hin
    (show p + 21 - (p + 1) < 21 by omega)
  rw [show p + 21 - (p + 1) = 20 by omega] at hdrop
  unfold endOfSnapshot
  dsimp only
  rw [hs, hdrop]
  rw [Option.bind_eq_bind, Option.bind_some, Option.bind_eq_bind, load_eq (by omega),
    Option.bind_some]
  rfl

/-! ## `decode` -/

/-- The rest of an add order behind its side. -/
theorem endsAs_side (hin : p + n ≤ d.bytes.length) (head : UInt16 × UInt64) (orderRef : UInt64)
    (o : Option Side) :
    EndsAs (At d p n)
      (match o with
      | none => pure none
      | some side => do
        let shares ← d.u32
        let stock ← d.field 8
        let price ← d.u32
        checked (.addOrder head.1 head.2 orderRef side shares stock price))
      fun r =>
        match o with
        | none => none
        | some side =>
          let (shares, r) := r.u32
          let (stock, r) := r.field 8
          let (price, r) := r.u32
          Itch.checked r (.addOrder head.1 head.2 orderRef side shares stock price) := by
  cases o with
  | none => exact endsAs_pure none
  | some side =>
    have h := (readsAs_u32 hin).ends fun shares => (readsAs_field hin 8).ends fun stock =>
      (readsAs_u32 hin).ends fun price =>
        endsAs_checked (.addOrder head.1 head.2 orderRef side shares stock price)
    exact h

/-- The cursor is behind the type byte. -/
def Typed (d : Datagram) (p n : ℕ) (c : Cursor) (r : Reader) : Prop := At d p n c r ∧ c.pos = 1

/-- **Every layout.** -/
theorem endsAs_decodeBody (hin : p + n ≤ d.bytes.length) (type : UInt8) :
    EndsAs (Typed d p n) (d.decodeBody type p n) (Itch.decodeBody type n) := by
  have hnone : EndsAs (Typed d p n) (pure none : Load (Option Itch.Message)) fun _ => none :=
    endsAs_pure none
  have hat : ∀ c r, Typed d p n c r → At d p n c r := fun c r h => h.1
  have hcommon := readsAs_common hin
  have hu64 := readsAs_u64 hin
  have hu32 := readsAs_u32 hin
  have hu8 := readsAs_u8 hin
  unfold decodeBody Itch.decodeBody
  refine .ite (.ite hnone fun _ => ?_) fun _ => .ite (.ite hnone fun _ => ?_) fun _ =>
    .ite (.ite hnone fun _ => ?_) fun _ => .ite (.ite hnone fun _ => ?_) fun _ =>
    .ite (.ite hnone fun _ => ?_) fun _ => .ite (.ite hnone fun _ => ?_) fun _ =>
    .ite (.ite hnone fun hlen => ?_) fun _ => hnone
  · have h := hcommon.ends fun head => hu8.ends fun eventCode =>
      endsAs_checked (.systemEvent head.1 head.2 eventCode)
    exact h.mono hat
  · have h := hcommon.ends fun head => (readsAs_field hin 8).ends fun stock =>
      (readsAs_skip hin 2).ends fun _ => hu32.ends fun roundLotSize =>
        endsAs_checked (.stockDirectory head.1 head.2 stock roundLotSize)
    exact h.mono hat
  · have h := hcommon.ends fun head => hu64.ends fun orderRef => hu8.ends fun code =>
      endsAs_side hin head orderRef (Side.ofCode code)
    exact h.mono hat
  · have h := hcommon.ends fun head => hu64.ends fun orderRef => hu32.ends fun executedShares =>
      hu64.ends fun matchNumber =>
        endsAs_checked (.orderExecuted head.1 head.2 orderRef executedShares matchNumber)
    exact h.mono hat
  · have h := hcommon.ends fun head => hu64.ends fun orderRef => hu32.ends fun cancelledShares =>
      endsAs_checked (.orderCancel head.1 head.2 orderRef cancelledShares)
    exact h.mono hat
  · have h := hcommon.ends fun head => hu64.ends fun orderRef =>
      endsAs_checked (.orderDelete head.1 head.2 orderRef)
    exact h.mono hat
  · intro c r h
    obtain rfl : n = 21 := not_not.mp hlen
    refine ⟨c, ?_⟩
    dsimp only
    rw [h.1.rest, h.2, drop_slice, endOfSnapshot_eq hin]
    rfl

/-- **`itch::decode` stays inside the message**, and answers as on a copy of its bytes. -/
theorem decode_eq (hin : p + n ≤ d.bytes.length) :
    d.decode p n = some (Itch.decode (d.slice p n)) := by
  unfold decode Itch.decode
  rw [length_slice hin]
  split_ifs with hn
  · rfl
  · have hstart : At d p n { buf := p, len := n } { rest := d.slice p n } :=
      ⟨rfl, rfl, rfl, Nat.zero_le _, rfl⟩
    obtain ⟨c, hc, hat⟩ := readsAs_u8 hin _ _ hstart
    -- the case `'G'` does not use the reader: it relies on the type byte being one byte long
    have hpos : c.pos = 1 := by
      have hrest : (({ rest := d.slice p n } : Reader).u8.2).rest = (d.slice p n).drop 1 := by
        show (Reader.number _ 1).2.rest = _
        rw [number_eq, Reader.take, if_neg]
        simp only [length_slice hin, Bool.true_eq_false, false_or, not_lt]
        omega
      have hleft := congrArg List.length (hat.rest.symm.trans hrest)
      simp only [List.length_drop, length_slice hin] at hleft
      have := hat.pos
      omega
    obtain ⟨c', hc'⟩ := endsAs_decodeBody hin _ _ _ ⟨hat, hpos⟩
    rw [bind_some hc, hc', Option.map_some]

end PulseForge.Datagram
