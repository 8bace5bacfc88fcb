import PulseForge.Analysis.WireCursors
import PulseForge.Model.Soup

/-!
# The login packets

Text fields are padded on the right and numbers on the left. A packet of the right length is read
when its last twenty bytes are blank or a number below `2^64` behind spaces, and a value that fits
its fields comes back as it was written.
-/

set_option autoImplicit false

namespace PulseForge.Soup

open Foundation

/-- Spaces in front of something else. -/
theorem dropWhile_spaces (k : ℕ) {bs : Bytes} (h : ∀ c ∈ bs.head?, c ≠ 32) :
    (List.replicate k (32 : UInt8) ++ bs).dropWhile (fun c => c = 32) = bs := by
  induction k with
  | zero =>
    cases bs with
    | nil => rfl
    | cons c t =>
      apply List.dropWhile_cons_of_neg
      simpa using h c rfl
  | succ k ih =>
    rw [List.replicate_succ, List.cons_append, List.dropWhile_cons_of_pos (by simp), ih]

/-- What is dropped are spaces, and what is left starts with something else. -/
theorem exists_spaces (bs : Bytes) :
    ∃ k, bs = List.replicate k 32 ++ bs.dropWhile (fun c => c = 32) ∧
      ∀ c ∈ (bs.dropWhile fun c => c = 32).head?, c ≠ 32 := by
  refine ⟨(bs.takeWhile fun c => c = 32).length, ?_, ?_⟩
  · have hspaces : bs.takeWhile (fun c => c = 32) =
        List.replicate (bs.takeWhile fun c => c = 32).length 32 := by
      apply List.eq_replicate_of_mem
      intro c hc
      simpa using List.all_eq_true.mp List.all_takeWhile c hc
    rw [← hspaces, List.takeWhile_append_dropWhile]
  · intro c hc
    have hhead := List.head?_dropWhile_not (fun c : UInt8 => decide (c = 32)) bs
    rw [Option.mem_def.mp hc] at hhead
    simpa using hhead

/-! ## Text fields -/

/-- A text that fits a field of the width: it does not end in a space. -/
structure FitsAlpha (width : ℕ) (s : Bytes) : Prop where
  length : s.length ≤ width
  trimmed : s.getLast? ≠ some 32

/-- **A text comes back** as it was written. -/
theorem getAlpha_putAlpha {width : ℕ} {s : Bytes} (h : FitsAlpha width s) :
    getAlpha (putAlpha width s) = s := by
  have hlast : ∀ c ∈ s.reverse.head?, c ≠ 32 := by
    intro c hc heq
    apply h.trimmed
    rw [← List.head?_reverse, Option.mem_def.mp hc, heq]
  unfold getAlpha putAlpha
  rw [List.take_of_length_le h.length, List.reverse_append, List.reverse_replicate,
    dropWhile_spaces _ hlast, List.reverse_reverse]

/-- A field is read without its padding. -/
theorem fitsAlpha_getAlpha {width : ℕ} {bs : Bytes} (h : bs.length ≤ width) :
    FitsAlpha width (getAlpha bs) := by
  obtain ⟨k, hsplit, hhead⟩ := exists_spaces bs.reverse
  constructor
  · have hlen := congrArg List.length hsplit
    rw [List.length_append, List.length_reverse] at hlen
    unfold getAlpha
    rw [List.length_reverse]
    omega
  · intro hlast
    unfold getAlpha at hlast
    rw [List.getLast?_reverse] at hlast
    exact hhead 32 hlast rfl

/-! ## Numeric fields -/

/-- The field spells the number: blank for zero, or digits behind spaces. -/
def Numeric (bs : Bytes) (v : ℕ) : Prop :=
  ∃ k ds, bs = List.replicate k 32 ++ ds ∧
    ((ds = [] ∧ v = 0) ∨ (IsNumeral ds ∧ digitsVal ds = v ∧ v < 2 ^ 64))

/-- A text that is a number as a whole. -/
theorem wholeNumber_eq_some {ds : Bytes} {v : ℕ} :
    (match fromChars (2 ^ 64) ds with | some (v, []) => some v | _ => none) = some v ↔
      IsNumeral ds ∧ digitsVal ds = v ∧ v < 2 ^ 64 := by
  rw [← fromChars_eq_some_nil]
  split
  · next w heq => rw [heq, Option.some.injEq, Option.some.injEq, Prod.mk.injEq, and_iff_left rfl]
  · next hother =>
    constructor
    · intro h
      cases h
    · intro h
      exact absurd h (hother v)

/-- **Numbers are read** exactly from the fields that spell one. -/
theorem getNumeric20_eq_some {bs : Bytes} {v : ℕ} : getNumeric20 bs = some v ↔ Numeric bs v := by
  unfold getNumeric20
  dsimp only
  constructor
  · intro h
    obtain ⟨k, hsplit, -⟩ := exists_spaces bs
    refine ⟨k, _, hsplit, ?_⟩
    split_ifs at h with hblank
    · exact .inl ⟨hblank, (Option.some.inj h).symm⟩
    · exact .inr (wholeNumber_eq_some.mp h)
  · rintro ⟨k, ds, rfl, hds⟩
    have hhead : ∀ c ∈ ds.head?, c ≠ 32 := by
      rintro c hc rfl
      rcases hds with ⟨rfl, -⟩ | ⟨hnum, -⟩
      · cases hc
      · have hdigit := hnum.2 32 (List.mem_of_mem_head? hc)
        exact absurd hdigit (by decide)
    rw [dropWhile_spaces k hhead]
    rcases hds with ⟨rfl, rfl⟩ | hnum
    · rfl
    · rw [if_neg hnum.1.1]
      exact wholeNumber_eq_some.mpr hnum

/-- **A number comes back** as it was written. -/
theorem getNumeric20_putNumeric20 {v : ℕ} (hv : v < 2 ^ 64) :
    getNumeric20 (putNumeric20 v) = some v :=
  getNumeric20_eq_some.mpr
    ⟨_, toChars v, rfl, .inr ⟨isNumeral_toChars v, digitsVal_toChars v, hv⟩⟩

theorem length_putNumeric20 {v : ℕ} (hv : v < 2 ^ 64) : (putNumeric20 v).length = 20 := by
  have hlen : (toChars v).length ≤ 20 := length_toChars_le (by norm_num) (hv.trans (by norm_num))
  unfold putNumeric20
  rw [List.length_append, List.length_replicate]
  omega

/-- A numeric field is a number of 64 bits. -/
theorem Numeric.lt {bs : Bytes} {v : ℕ} (h : Numeric bs v) : v < 2 ^ 64 := by
  obtain ⟨k, ds, -, ⟨-, rfl⟩ | ⟨-, -, hlt⟩⟩ := h
  · norm_num
  · exact hlt

/-! ## Packets -/

/-- A request that fits its fields. -/
structure LoginRequest.Fits (m : LoginRequest) : Prop where
  username : FitsAlpha 6 m.username
  password : FitsAlpha 10 m.password
  requestedSession : FitsAlpha 10 m.requestedSession
  requestedSequence : m.requestedSequence < 2 ^ 64

/-- An answer that fits its fields. -/
structure LoginAccepted.Fits (m : LoginAccepted) : Prop where
  session : FitsAlpha 10 m.session
  sequence : m.sequence < 2 ^ 64

/-- A login request comes back. -/
theorem decode_encode_request {m : LoginRequest} (h : m.Fits) :
    decodeLoginRequest (encodeLoginRequest m) = some m := by
  have huser := length_putAlpha 6 m.username
  have hpass := length_putAlpha 10 m.password
  have hsession := length_putAlpha 10 m.requestedSession
  have hnum := length_putNumeric20 h.requestedSequence
  unfold decodeLoginRequest encodeLoginRequest
  rw [if_neg (by simp [huser, hpass, hsession, hnum])]
  have h26 : ((putAlpha 6 m.username ++ putAlpha 10 m.password ++
      putAlpha 10 m.requestedSession).length) = 26 := by simp [huser, hpass, hsession]
  have h6 : (putAlpha 6 m.username ++ putAlpha 10 m.password ++ putAlpha 10 m.requestedSession ++
      putNumeric20 m.requestedSequence).take 6 = putAlpha 6 m.username := by
    rw [List.append_assoc, List.append_assoc, List.take_left' huser]
  have h16 : ((putAlpha 6 m.username ++ putAlpha 10 m.password ++ putAlpha 10 m.requestedSession ++
      putNumeric20 m.requestedSequence).drop 6).take 10 = putAlpha 10 m.password := by
    rw [List.append_assoc, List.append_assoc, List.drop_left' huser, List.take_left' hpass]
  have h16' : ((putAlpha 6 m.username ++ putAlpha 10 m.password ++
      putAlpha 10 m.requestedSession ++ putNumeric20 m.requestedSequence).drop 16).take 10 =
      putAlpha 10 m.requestedSession := by
    rw [List.append_assoc, List.drop_left' (by simp [huser, hpass]), List.take_left' hsession]
  rw [List.drop_left' h26, getNumeric20_putNumeric20 h.requestedSequence, h6, h16, h16',
    getAlpha_putAlpha h.username, getAlpha_putAlpha h.password,
    getAlpha_putAlpha h.requestedSession]
  rfl

/-- A login answer comes back. -/
theorem decode_encode_accepted {m : LoginAccepted} (h : m.Fits) :
    decodeLoginAccepted (encodeLoginAccepted m) = some m := by
  have hsession := length_putAlpha 10 m.session
  have hnum := length_putNumeric20 h.sequence
  unfold decodeLoginAccepted encodeLoginAccepted
  rw [if_neg (by simp [hsession, hnum]), List.drop_left' hsession, List.take_left' hsession,
    getNumeric20_putNumeric20 h.sequence, getAlpha_putAlpha h.session]
  rfl

/-- What is read fits. -/
theorem fits_of_decode_request {bs : Bytes} {m : LoginRequest}
    (h : decodeLoginRequest bs = some m) : m.Fits := by
  unfold decodeLoginRequest at h
  split_ifs at h
  obtain ⟨v, hv, rfl⟩ := Option.map_eq_some_iff.mp h
  have htake : ∀ (cs : Bytes) (k : ℕ), (cs.take k).length ≤ k := fun cs k => List.length_take_le k cs
  constructor
  · exact fitsAlpha_getAlpha (htake _ _)
  · exact fitsAlpha_getAlpha (htake _ _)
  · exact fitsAlpha_getAlpha (htake _ _)
  · exact (getNumeric20_eq_some.mp hv).lt

/-- What is decoded fits its fields. -/
theorem fits_of_decode_accepted {bs : Bytes} {m : LoginAccepted}
    (h : decodeLoginAccepted bs = some m) : m.Fits := by
  unfold decodeLoginAccepted at h
  split_ifs at h
  obtain ⟨v, hv, rfl⟩ := Option.map_eq_some_iff.mp h
  constructor
  · exact fitsAlpha_getAlpha (List.length_take_le _ _)
  · exact (getNumeric20_eq_some.mp hv).lt

/-- A login request has 46 bytes, the last twenty of them a number. -/
theorem decode_request_isSome {bs : Bytes} :
    (decodeLoginRequest bs).isSome ↔ bs.length = 46 ∧ ∃ v, Numeric (bs.drop 26) v := by
  unfold decodeLoginRequest
  split_ifs with hlen
  · simp [hlen]
  · rw [Option.isSome_map, Option.isSome_iff_exists]
    simp only [getNumeric20_eq_some, not_not.mp hlen, true_and]

/-- A login answer has 30 bytes, the last twenty of them a number. -/
theorem decode_accepted_isSome {bs : Bytes} :
    (decodeLoginAccepted bs).isSome ↔ bs.length = 30 ∧ ∃ v, Numeric (bs.drop 10) v := by
  unfold decodeLoginAccepted
  split_ifs with hlen
  · simp [hlen]
  · rw [Option.isSome_map, Option.isSome_iff_exists]
    simp only [getNumeric20_eq_some, not_not.mp hlen, true_and]

/-- **The login codecs.** A packet that fits its fields is read back; a string is read exactly when
it has the length of the packet and its numeric field is blank or a number below `2^64` behind
spaces; and what was read is read again from its own encoding. -/
theorem login_codecs (bs : Bytes) :
    (∀ m : LoginRequest, m.Fits → decodeLoginRequest (encodeLoginRequest m) = some m) ∧
    (∀ m : LoginAccepted, m.Fits → decodeLoginAccepted (encodeLoginAccepted m) = some m) ∧
    ((decodeLoginRequest bs).isSome ↔ bs.length = 46 ∧ ∃ v, Numeric (bs.drop 26) v) ∧
    ((decodeLoginAccepted bs).isSome ↔ bs.length = 30 ∧ ∃ v, Numeric (bs.drop 10) v) ∧
    (∀ m, decodeLoginRequest bs = some m → decodeLoginRequest (encodeLoginRequest m) = some m) ∧
    ∀ m, decodeLoginAccepted bs = some m → decodeLoginAccepted (encodeLoginAccepted m) = some m :=
  ⟨fun _ => decode_encode_request, fun _ => decode_encode_accepted, decode_request_isSome,
    decode_accepted_isSome, fun _ h => decode_encode_request (fits_of_decode_request h),
    fun _ h => decode_encode_accepted (fits_of_decode_accepted h)⟩

end PulseForge.Soup
