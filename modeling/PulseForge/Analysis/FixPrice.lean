import PulseForge.Model.Fix

/-!
# Prices as text

A price is a sign, digits and up to four digits behind a point. The parser reads the price that
the text spells, unless the scaling to units of 0.0001 leaves `int64_t`: it does not test for
that, and the price it returns has wrapped.
-/

set_option autoImplicit false

namespace PulseForge.Fix

open Foundation

/-! ## What a text spells -/

/-- The text of a price: a sign, digits and, behind a point, one to four digits. -/
structure Spells (s : Bytes) (neg : Bool) (whole frac : Bytes) : Prop where
  numeral : IsNumeral whole
  short : frac.length ≤ 4
  digits : ∀ c ∈ frac, isDigit c
  text : s = (if neg then [45] else []) ++ (whole ++ if frac = [] then [] else 46 :: frac)

/-- The value in units of 0.0001. -/
def units (neg : Bool) (whole frac : Bytes) : ℤ :=
  (if neg then -1 else 1) * (digitsVal (whole ++ frac) * 10 ^ (4 - frac.length) : ℕ)

/-- The text spells the price `v`. -/
def Denotes (s : Bytes) (v : ℤ) : Prop :=
  ∃ neg whole frac, Spells s neg whole frac ∧ v = units neg whole frac

/-- The units that a price spells. -/
theorem units_eq {whole frac : Bytes} (neg : Bool) (h : frac.length ≤ 4) :
    units neg whole frac = (if neg then -1 else 1) *
      ((digitsVal whole * 10000 + digitsVal frac * 10 ^ (4 - frac.length) : ℕ) : ℤ) := by
  have hpow : 10 ^ frac.length * 10 ^ (4 - frac.length) = 10000 := by
    rw [← pow_add, Nat.add_sub_cancel' h]
    norm_num
  unfold units
  rw [digitsVal_append, Nat.add_mul, Nat.mul_assoc, hpow]

/-- The fraction is less than one. -/
theorem frac_lt {frac : Bytes} (h : frac.length ≤ 4) (hdigits : ∀ c ∈ frac, isDigit c) :
    digitsVal frac * 10 ^ (4 - frac.length) < 10000 := by
  have hlt := digitsVal_lt hdigits
  have hpow : 10 ^ frac.length * 10 ^ (4 - frac.length) = 10000 := by
    rw [← pow_add, Nat.add_sub_cancel' h]
    norm_num
  calc digitsVal frac * 10 ^ (4 - frac.length)
      < 10 ^ frac.length * 10 ^ (4 - frac.length) :=
        Nat.mul_lt_mul_of_pos_right hlt (by positivity)
    _ = 10000 := hpow

/-! ## The parser -/

/-- The fraction has one to four digits. -/
theorem parseFrac_eq_some {f : Bytes} {frac : ℕ} :
    parseFrac f = some frac ↔ f ≠ [] ∧ f.length ≤ 4 ∧ (∀ c ∈ f, isDigit c) ∧
      frac = digitsVal f * 10 ^ (4 - f.length) := by
  unfold parseFrac
  split_ifs with hlen hdigits
  · refine ⟨fun h => (nomatch h), fun h => ?_⟩
    obtain ⟨hne, hshort, -⟩ := h
    rcases hlen with hnil | hlong
    · exact absurd (List.length_eq_zero_iff.mp hnil) hne
    · omega
  · push Not at hlen
    rw [Option.some.injEq]
    refine ⟨fun h => ⟨?_, hlen.2, hdigits, h.symm⟩, fun h => h.2.2.2.symm⟩
    rintro rfl
    exact hlen.1 rfl
  · exact ⟨fun h => (nomatch h), fun h => absurd h.2.2.1 hdigits⟩

/-- **Behind the sign** the parser reads digits and a fraction. -/
theorem parseMagnitude_eq_some {neg : Bool} {s : Bytes} {v : ℤ} :
    parseMagnitude neg s = some v ↔
      ∃ whole frac, Spells s false whole frac ∧ digitsVal whole < 2 ^ 64 ∧
        v = scaled neg (digitsVal whole) (digitsVal frac * 10 ^ (4 - frac.length)) := by
  unfold parseMagnitude
  constructor
  · intro h
    split at h
    · exact nomatch h
    · next whole hchars =>
      obtain ⟨hnum, rfl, hlt⟩ := fromChars_eq_some_nil.mp hchars
      refine ⟨s, [], ⟨hnum, by simp, fun c hc => absurd hc List.not_mem_nil, by simp⟩, hlt, ?_⟩
      rw [← Option.some.inj h]
      rfl
    · next whole c f hchars =>
      obtain ⟨ds, rfl, hnum, -, rfl, hlt⟩ := fromChars_eq_some.mp hchars
      split_ifs at h with hpoint
      obtain rfl : c = 46 := not_not.mp hpoint
      obtain ⟨frac, hfrac, rfl⟩ := Option.map_eq_some_iff.mp h
      obtain ⟨hne, hshort, hdigits, rfl⟩ := parseFrac_eq_some.mp hfrac
      exact ⟨ds, f, ⟨hnum, hshort, hdigits, by simp [hne]⟩, hlt, rfl⟩
  · rintro ⟨whole, frac, ⟨hnum, hshort, hdigits, rfl⟩, hlt, rfl⟩
    rw [if_neg (by decide), List.nil_append]
    by_cases hnil : frac = []
    · subst hnil
      rw [if_pos rfl, List.append_nil, fromChars_eq_some_nil.mpr ⟨hnum, rfl, hlt⟩]
      simp [digitsVal]
    · have hchars : fromChars (2 ^ 64) (whole ++ 46 :: frac) =
          some (digitsVal whole, 46 :: frac) := by
        refine fromChars_eq_some.mpr ⟨whole, rfl, hnum, fun c hc => ?_, rfl, hlt⟩
        obtain rfl : (46 : UInt8) = c := Option.some.inj hc
        decide
      rw [if_neg hnil, hchars]
      simp [parseFrac_eq_some.mpr ⟨hnil, hshort, hdigits, rfl⟩]

/-- Without a sign the magnitude is parsed. -/
theorem parsePrice_of_head_ne {s : Bytes} (h : s.head? ≠ some 45) :
    parsePrice s = parseMagnitude false s := by
  unfold parsePrice
  split
  · exact absurd rfl h
  · rfl

/-- **The parser** takes exactly the texts of prices whose whole part fits `uint64_t`. -/
theorem parsePrice_eq_some {s : Bytes} {v : ℤ} :
    parsePrice s = some v ↔
      ∃ neg whole frac, Spells s neg whole frac ∧ digitsVal whole < 2 ^ 64 ∧
        v = scaled neg (digitsVal whole) (digitsVal frac * 10 ^ (4 - frac.length)) := by
  have hhead : ∀ {whole frac : Bytes}, Spells s false whole frac → s.head? ≠ some 45 := by
    rintro whole frac ⟨hnum, -, -, htext⟩ hc
    obtain ⟨c, cs, rfl⟩ := List.exists_cons_of_ne_nil hnum.1
    have hdigit := hnum.2 c List.mem_cons_self
    rw [htext] at hc
    obtain rfl : c = 45 := by simpa using hc
    exact absurd hdigit (by decide)
  constructor
  · intro h
    by_cases hminus : s.head? = some 45
    · obtain ⟨t, rfl⟩ : ∃ t, s = 45 :: t := List.head?_eq_some_iff.mp hminus
      obtain ⟨whole, frac, hspells, hlt, hv⟩ := parseMagnitude_eq_some.mp h
      refine ⟨true, whole, frac, ⟨hspells.numeral, hspells.short, hspells.digits, ?_⟩, hlt, hv⟩
      rw [hspells.text]
      simp
    · rw [parsePrice_of_head_ne hminus] at h
      obtain ⟨whole, frac, hrest⟩ := parseMagnitude_eq_some.mp h
      exact ⟨false, whole, frac, hrest⟩
  · rintro ⟨neg, whole, frac, hspells, hlt, hv⟩
    cases neg with
    | false =>
      rw [parsePrice_of_head_ne (hhead hspells)]
      exact parseMagnitude_eq_some.mpr ⟨whole, frac, hspells, hlt, hv⟩
    | true =>
      rw [hspells.text]
      refine parseMagnitude_eq_some.mpr ⟨whole, frac, ?_, hlt, hv⟩
      exact ⟨hspells.numeral, hspells.short, hspells.digits, by simp⟩

/-! ## Exactness -/

/-- The digits in front of the point are determined by the text. -/
theorem whole_unique {whole whole' frac frac' : Bytes} (h : IsNumeral whole) (h' : IsNumeral whole')
    (heq : (whole ++ if frac = [] then [] else 46 :: frac) =
      whole' ++ if frac' = [] then [] else 46 :: frac') :
    whole = whole' ∧ (if frac = [] then [] else 46 :: frac) =
      if frac' = [] then [] else 46 :: frac' := by
  have hpoint : ∀ f : Bytes, ∀ c ∈ (if f = [] then [] else 46 :: f).head?, ¬ isDigit c := by
    intro f c hc
    split at hc
    · exact nomatch hc
    · obtain rfl : (46 : UInt8) = c := Option.some.inj hc
      decide
  have hone := fromChars_eq_some.mpr
    ⟨whole, rfl, h, hpoint frac, rfl, Nat.lt_of_le_of_lt (Nat.le_add_right _ (digitsVal whole'))
      (Nat.lt_succ_self _)⟩
  have htwo := fromChars_eq_some.mpr
    ⟨whole', rfl, h', hpoint frac', rfl, Nat.lt_of_le_of_lt (Nat.le_add_left _ (digitsVal whole))
      (Nat.lt_succ_self _)⟩
  rw [heq] at hone
  have htails := (Prod.mk.inj (Option.some.inj (hone.symm.trans htwo))).2
  rw [htails] at heq
  exact ⟨List.append_cancel_right heq, htails⟩

/-- A text spells one price. -/
theorem Spells.unique {s : Bytes} {neg neg' : Bool} {whole whole' frac frac' : Bytes}
    (h : Spells s neg whole frac) (h' : Spells s neg' whole' frac') :
    neg = neg' ∧ whole = whole' ∧ frac = frac' := by
  have hsign : ∀ {neg : Bool} {whole frac : Bytes}, Spells s neg whole frac →
      neg = decide (s.head? = some 45) := by
    intro neg whole frac hspells
    obtain ⟨c, cs, rfl⟩ := List.exists_cons_of_ne_nil hspells.numeral.1
    have hdigit := hspells.numeral.2 c List.mem_cons_self
    rw [hspells.text]
    cases neg with
    | true => simp
    | false =>
      have hne : c ≠ 45 := by
        rintro rfl
        exact absurd hdigit (by decide)
      simp [hne]
  obtain rfl : neg = neg' := (hsign h).trans (hsign h').symm
  obtain ⟨hwhole, hfrac⟩ :=
    whole_unique h.numeral h'.numeral (List.append_cancel_left (h.text.symm.trans h'.text))
  refine ⟨rfl, hwhole, ?_⟩
  split_ifs at hfrac with hnil hnil'
  · rw [hnil, hnil']
  · exact (List.cons.inj hfrac).2

/-- The scaling of a price that fits. -/
theorem scaled_eq {neg : Bool} {whole frac : ℕ} (hfrac : frac < 10000)
    (hlo : -2 ^ 63 ≤ (if neg then -1 else 1 : ℤ) * ((whole * 10000 + frac : ℕ) : ℤ))
    (hhi : (if neg then -1 else 1 : ℤ) * ((whole * 10000 + frac : ℕ) : ℤ) < 2 ^ 63) :
    scaled neg whole frac = (if neg then -1 else 1 : ℤ) * ((whole * 10000 + frac : ℕ) : ℤ) := by
  have hscale : kPriceScale = 10000 := rfl
  unfold scaled
  rw [hscale]
  push_cast at hlo hhi ⊢
  cases neg with
  | false =>
    simp only [Bool.false_eq_true, if_false] at hlo hhi ⊢
    rw [i64_eq (x := (whole : ℤ)) (by omega) (by omega),
      i64_eq (x := (whole : ℤ) * 10000) (by omega) (by omega), i64_eq (by omega) (by omega)]
    ring
  | true =>
    simp only [if_true] at hlo hhi ⊢
    rw [i64_eq (x := (whole : ℤ)) (by omega) (by omega),
      i64_eq (x := (whole : ℤ) * 10000) (by omega) (by omega)]
    rcases lt_or_eq_of_le (show (whole : ℤ) * 10000 + frac ≤ 2 ^ 63 by omega) with hlt | hmin
    · rw [i64_eq (x := (whole : ℤ) * 10000 + frac) (by omega) hlt, i64_eq (by omega) (by omega)]
      ring
    · rw [hmin]
      decide

/-- **An exact text**: the parser returns `v` if and only if the text spells `v` and `v` is an
`int64_t`. -/
def Exact (s : Bytes) : Prop :=
  ∀ v, parsePrice s = some v ↔ Denotes s v ∧ -2 ^ 63 ≤ v ∧ v < 2 ^ 63

/-- The text spells a price outside `int64_t` whose whole part is a `uint64_t`. -/
def Wraps (s : Bytes) : Prop :=
  ∃ neg whole frac, Spells s neg whole frac ∧ digitsVal whole < 2 ^ 64 ∧
    (units neg whole frac < -2 ^ 63 ∨ 2 ^ 63 ≤ units neg whole frac)

/-- **The parser is exact** on the texts that do not wrap, and on no other. -/
theorem exact_iff (s : Bytes) : Exact s ↔ ¬ Wraps s := by
  constructor
  · rintro hexact ⟨neg, whole, frac, hspells, hlt, hout⟩
    obtain ⟨⟨neg', whole', frac', hspells', hv⟩, hlo, hhi⟩ :=
      (hexact _).mp (parsePrice_eq_some.mpr ⟨neg, whole, frac, hspells, hlt, rfl⟩)
    obtain ⟨rfl, rfl, rfl⟩ := hspells.unique hspells'
    rw [hv] at hlo hhi
    rcases hout with hout | hout <;> omega
  · intro hfits v
    have hscaled : ∀ {neg : Bool} {whole frac : Bytes}, Spells s neg whole frac →
        -2 ^ 63 ≤ units neg whole frac → units neg whole frac < 2 ^ 63 →
        scaled neg (digitsVal whole) (digitsVal frac * 10 ^ (4 - frac.length)) =
          units neg whole frac := by
      intro neg whole frac hspells hlo hhi
      rw [units_eq neg hspells.short] at hlo hhi ⊢
      exact scaled_eq (frac_lt hspells.short hspells.digits) hlo hhi
    rw [parsePrice_eq_some]
    constructor
    · rintro ⟨neg, whole, frac, hspells, hlt, rfl⟩
      have hlo : -2 ^ 63 ≤ units neg whole frac := by
        by_contra hc
        exact hfits ⟨neg, whole, frac, hspells, hlt, .inl (not_le.mp hc)⟩
      have hhi : units neg whole frac < 2 ^ 63 := by
        by_contra hc
        exact hfits ⟨neg, whole, frac, hspells, hlt, .inr (not_lt.mp hc)⟩
      rw [hscaled hspells hlo hhi]
      exact ⟨⟨neg, whole, frac, hspells, rfl⟩, hlo, hhi⟩
    · rintro ⟨⟨neg, whole, frac, hspells, rfl⟩, hlo, hhi⟩
      refine ⟨neg, whole, frac, hspells, ?_, (hscaled hspells hlo hhi).symm⟩
      rw [units_eq neg hspells.short] at hlo hhi
      cases neg with
      | false => simp only [Bool.false_eq_true, if_false] at hlo hhi; omega
      | true => simp only [if_true] at hlo hhi; omega

/-! ## The output cursor -/

namespace Out

variable {o : Out}

/-- Several calls never leave the buffer. -/
theorem length_foldl_puts_le (pieces : List Bytes) (h : o.out.length ≤ o.cap) :
    (pieces.foldl puts o).out.length ≤ o.cap ∧ (pieces.foldl puts o).cap = o.cap := by
  induction pieces generalizing o with
  | nil => exact ⟨h, rfl⟩
  | cons s pieces ih =>
    have hone : (o.puts s).out.length ≤ o.cap ∧ (o.puts s).cap = o.cap := by
      unfold puts
      split
      · next hfit =>
        simp only [List.length_append]
        exact ⟨by omega, trivial⟩
      · exact ⟨h, rfl⟩
    obtain ⟨hle, hcap⟩ := ih (o := o.puts s) (by rw [hone.2]; exact hone.1)
    rw [hone.2] at hle hcap
    exact ⟨hle, hcap⟩

/-- **Several calls** succeed if and only if everything fits, and then everything is written. -/
theorem foldl_puts_ok (pieces : List Bytes) (h : o.out.length ≤ o.cap) :
    ((pieces.foldl puts o).ok = true ↔
      o.ok = true ∧ o.out.length + pieces.flatten.length ≤ o.cap) ∧
    (o.out.length + pieces.flatten.length ≤ o.cap →
      pieces.foldl puts o = { o with out := o.out ++ pieces.flatten }) := by
  induction pieces generalizing o with
  | nil => simp [h]
  | cons s pieces ih =>
    rw [List.foldl_cons, List.flatten_cons, List.length_append]
    by_cases hfit : s.length ≤ o.cap - o.out.length
    · have hput : o.puts s = { o with out := o.out ++ s } := if_pos hfit
      have hlen : (o.puts s).out.length = o.out.length + s.length := by
        rw [hput]
        exact List.length_append
      have hcap : (o.puts s).cap = o.cap := by rw [hput]
      have hok : (o.puts s).ok = o.ok := by rw [hput]
      obtain ⟨hiff, heq⟩ := ih (o := o.puts s) (by rw [hlen, hcap]; omega)
      rw [hlen, hcap, hok, Nat.add_assoc] at hiff
      rw [hlen, hcap, Nat.add_assoc] at heq
      refine ⟨hiff, fun hall => ?_⟩
      rw [heq hall, hput]
      simp
    · have hput : o.puts s = { o with ok := false } := if_neg hfit
      obtain ⟨hiff, -⟩ := ih (o := o.puts s) (by rw [hput]; exact h)
      rw [hiff, hput]
      refine ⟨⟨fun hc => (nomatch hc.1), fun hc => ?_⟩, fun hc => ?_⟩
      · omega
      · omega

end Out

/-! ## Printing a price -/

/-- The pieces of a price that is not negative. -/
def magnitudePieces (v : ℤ) : List Bytes :=
  let frac := (v.tmod kPriceScale).toNat
  toChars (v.tdiv kPriceScale % 2 ^ 64).toNat ::
    if frac ≠ 0 then [[46], trimZeros (fracDigits frac)] else []

/-- The pieces that `put_price` writes. -/
def pricePieces (v : ℤ) : List Bytes :=
  if v < 0 then [45] :: magnitudePieces (i64 (-v)) else magnitudePieces v

/-- A magnitude is put piece by piece. -/
theorem putMagnitude_eq (o : Out) (v : ℤ) :
    o.putMagnitude v = (magnitudePieces v).foldl Out.puts o := by
  unfold Out.putMagnitude magnitudePieces
  dsimp only
  split <;> rfl

/-- A price is put piece by piece. -/
theorem putPrice_eq (o : Out) (v : ℤ) : o.putPrice v = (pricePieces v).foldl Out.puts o := by
  unfold Out.putPrice pricePieces
  split
  · exact putMagnitude_eq _ _
  · exact putMagnitude_eq _ _

/-- The four digits of a fraction. -/
theorem digitsVal_fracDigits {frac : ℕ} (h : frac < 10000) : digitsVal (fracDigits frac) = frac := by
  simp only [digitsVal, fracDigits, List.foldl_cons, List.foldl_nil, UInt8.toNat_ofNat']
  omega

/-- A fraction is written in digits. -/
theorem isDigit_fracDigits (frac : ℕ) : ∀ c ∈ fracDigits frac, isDigit c := by
  intro c hc
  simp only [fracDigits, List.mem_cons, List.not_mem_nil, or_false] at hc
  unfold isDigit
  rcases hc with rfl | rfl | rfl | rfl <;> rw [UInt8.toNat_ofNat'] <;> omega

/-- What is trimmed are zeros at the end. -/
theorem trimZeros_append (ds : Bytes) :
    ∃ k, ds = trimZeros ds ++ List.replicate k 48 := by
  have hsplit := @List.takeWhile_append_dropWhile _ (fun c : UInt8 => decide (c = 48)) ds.reverse
  have hzeros : ds.reverse.takeWhile (fun c => decide (c = 48)) =
      List.replicate (ds.reverse.takeWhile fun c => decide (c = 48)).length 48 := by
    apply List.eq_replicate_of_mem
    intro c hc
    exact of_decide_eq_true (List.all_eq_true.mp List.all_takeWhile c hc)
  refine ⟨(ds.reverse.takeWhile fun c => decide (c = 48)).length, ?_⟩
  unfold trimZeros
  rw [← List.reverse_replicate, ← hzeros, ← List.reverse_append, hsplit, List.reverse_reverse]

/-- Zeros are worth nothing. -/
theorem digitsVal_zeros (k : ℕ) : digitsVal (List.replicate k 48) = 0 := by
  induction k with
  | zero => rfl
  | succ k ih => rw [List.replicate_succ', digitsVal_concat, ih]; rfl

/-- **The trimmed fraction** has the value of the whole one. -/
theorem trimmed_frac {frac : ℕ} (h : frac < 10000) :
    (trimZeros (fracDigits frac)).length ≤ 4 ∧
      (∀ c ∈ trimZeros (fracDigits frac), isDigit c) ∧
      digitsVal (trimZeros (fracDigits frac)) * 10 ^ (4 - (trimZeros (fracDigits frac)).length) =
        frac := by
  obtain ⟨k, hk⟩ := trimZeros_append (fracDigits frac)
  have hval := digitsVal_fracDigits h
  have hdigits := isDigit_fracDigits frac
  have hlen : (fracDigits frac).length = 4 := rfl
  rw [hk] at hval hdigits hlen
  rw [digitsVal_append, digitsVal_zeros, List.length_replicate, Nat.add_zero] at hval
  rw [List.length_append, List.length_replicate] at hlen
  refine ⟨by omega, fun c hc => hdigits c (List.mem_append_left _ hc), ?_⟩
  rw [show 4 - (trimZeros (fracDigits frac)).length = k by omega]
  exact hval

/-- The pieces of `w` units of 1 and `frac` of 0.0001. -/
theorem magnitude_spells {v : ℤ} (h0 : 0 ≤ v) (h : v < 2 ^ 63) :
    ∃ whole frac, IsNumeral whole ∧ frac.length ≤ 4 ∧ (∀ c ∈ frac, isDigit c) ∧
      (magnitudePieces v).flatten = (whole ++ if frac = [] then [] else 46 :: frac) ∧
      ((digitsVal whole * 10000 + digitsVal frac * 10 ^ (4 - frac.length) : ℕ) : ℤ) = v := by
  have hscale : kPriceScale = 10000 := rfl
  obtain ⟨n, rfl⟩ := Int.eq_ofNat_of_zero_le h0
  have hwhole : ((n : ℤ).tdiv kPriceScale % 2 ^ 64).toNat = n / 10000 := by
    rw [hscale, Int.tdiv_eq_ediv_of_nonneg (by omega)]
    omega
  have hfrac : ((n : ℤ).tmod kPriceScale).toNat = n % 10000 := by
    rw [hscale, Int.tmod_eq_emod_of_nonneg (by omega)]
    omega
  obtain ⟨hshort, hdigits, hval⟩ := trimmed_frac (Nat.mod_lt n (show 0 < 10000 by decide))
  unfold magnitudePieces
  dsimp only
  rw [hwhole, hfrac]
  by_cases hzero : n % 10000 = 0
  · refine ⟨toChars (n / 10000), [], isNumeral_toChars _, by simp, fun c hc => (nomatch hc), ?_, ?_⟩
    · simp [hzero]
    · rw [digitsVal_toChars]
      simp only [digitsVal, List.foldl_nil]
      omega
  · have hne : trimZeros (fracDigits (n % 10000)) ≠ [] := by
      intro hnil
      rw [hnil] at hval
      simp only [digitsVal, List.foldl_nil] at hval
      omega
    refine ⟨toChars (n / 10000), _, isNumeral_toChars _, hshort, hdigits, ?_, ?_⟩
    · simp [hzero, hne]
    · rw [digitsVal_toChars, hval]
      omega

/-- **Parsing what was printed**: every price but the least. -/
theorem parsePrice_pricePieces {v : ℤ} (hlo : -2 ^ 63 < v) (hhi : v < 2 ^ 63) :
    parsePrice (pricePieces v).flatten = some v := by
  have hparse : ∀ {neg : Bool} {whole frac : Bytes}, Spells (pricePieces v).flatten neg whole frac →
      units neg whole frac = v → parsePrice (pricePieces v).flatten = some v := by
    intro neg whole frac hspells hunits
    refine ((exact_iff _).mpr ?_ v).mpr ⟨⟨neg, whole, frac, hspells, hunits.symm⟩, hlo.le, hhi⟩
    rintro ⟨neg', whole', frac', hspells', -, hout⟩
    obtain ⟨rfl, rfl, rfl⟩ := hspells.unique hspells'
    rw [hunits] at hout
    omega
  unfold pricePieces at hparse ⊢
  split at hparse
  · next hneg =>
    rw [if_pos hneg]
    have hflip : i64 (-v) = -v := i64_eq (by omega) (by omega)
    rw [hflip] at hparse ⊢
    obtain ⟨whole, frac, hnum, hshort, hdigits, htext, hval⟩ :=
      magnitude_spells (show 0 ≤ -v by omega) (by omega)
    refine @hparse true whole frac ⟨hnum, hshort, hdigits, ?_⟩ ?_
    · rw [List.flatten_cons, htext]
      rfl
    · rw [units_eq true hshort, hval]
      simp
  · next hpos =>
    rw [if_neg hpos]
    obtain ⟨whole, frac, hnum, hshort, hdigits, htext, hval⟩ :=
      magnitude_spells (not_lt.mp hpos) hhi
    refine @hparse false whole frac ⟨hnum, hshort, hdigits, ?_⟩ ?_
    · rw [htext]
      rfl
    · rw [units_eq false hshort, hval]
      simp

/-- **Prices as text.** The parser is exact on a text if and only if the text does not wrap, and
it reads back every price but the least that `put_price` prints. -/
theorem parsePrice_exact (s : Bytes) :
    (Exact s ↔ ¬ Wraps s) ∧
      ∀ (v : ℤ) (cap : ℕ), -2 ^ 63 < v → v < 2 ^ 63 → (Out.putPrice { cap := cap } v).ok = true →
        parsePrice (Out.putPrice { cap := cap } v).out = some v := by
  refine ⟨exact_iff s, fun v cap hlo hhi hok => ?_⟩
  rw [putPrice_eq] at hok ⊢
  obtain ⟨hiff, heq⟩ := @Out.foldl_puts_ok { cap := cap } (pricePieces v) (Nat.zero_le _)
  rw [heq (hiff.mp hok).2, List.nil_append]
  exact parsePrice_pricePieces hlo hhi

/-- The text `922337203685478`. -/
def hugePrice : Bytes := [57, 50, 50, 51, 51, 55, 50, 48, 51, 54, 56, 53, 52, 55, 56]

/-- **A price out of range**: the text spells `2 ^ 63 + 4192` units of 0.0001, and the parser
returns a negative price. -/
theorem wrapped_price_accepted :
    parsePrice hugePrice = some (-9223372036854771616) ∧ ¬ Exact hugePrice := by
  refine ⟨by decide +kernel, fun h => (exact_iff _).mp h ?_⟩
  exact ⟨false, hugePrice, [], ⟨by decide +kernel, by decide +kernel, by decide +kernel, rfl⟩,
    by decide +kernel, .inr (by decide +kernel)⟩

end PulseForge.Fix
