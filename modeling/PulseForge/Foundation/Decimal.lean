import Mathlib.Tactic
import Mathlib.Data.List.TakeWhile

/-!
# Decimal numerals

`toChars` prints an unsigned number and `fromChars` parses the longest run of digits at the
front of a text, refusing an empty run and a number out of range.
-/

set_option autoImplicit false

namespace PulseForge.Foundation

/-- An ASCII decimal digit. -/
def isDigit (c : UInt8) : Prop := 48 ≤ c.toNat ∧ c.toNat ≤ 57

instance (c : UInt8) : Decidable (isDigit c) := inferInstanceAs (Decidable (_ ∧ _))

/-- A scan of the text, not of every byte there is. -/
instance (text : List UInt8) : Decidable (∀ c ∈ text, isDigit c) :=
  List.decidableBAll isDigit text

/-- The digits of a number, most significant first; zero has one digit. -/
def toChars (n : ℕ) : List UInt8 :=
  if n = 0 then [48] else (Nat.digits 10 n).reverse.map fun d => UInt8.ofNat (48 + d)

/-- The number that digits spell. -/
def digitsVal (ds : List UInt8) : ℕ := ds.foldl (fun v c => v * 10 + (c.toNat - 48)) 0

/-- The number at the front of a text and what follows it. -/
def fromChars (bound : ℕ) (text : List UInt8) : Option (ℕ × List UInt8) :=
  let ds := text.takeWhile fun c => isDigit c
  if ds = [] ∨ bound ≤ digitsVal ds then none
  else some (digitsVal ds, text.dropWhile fun c => isDigit c)

/-- A numeral is written in digits. -/
theorem isDigit_of_mem_toChars {n : ℕ} {c : UInt8} (hc : c ∈ toChars n) : isDigit c := by
  unfold toChars at hc
  split at hc
  · rw [List.mem_singleton.mp hc]
    decide
  · obtain ⟨d, hd, rfl⟩ := List.mem_map.mp hc
    have hlt : d < 10 := Nat.digits_lt_base (by norm_num) (List.mem_reverse.mp hd)
    unfold isDigit
    rw [UInt8.toNat_ofNat']
    omega

theorem toChars_ne_nil (n : ℕ) : toChars n ≠ [] := by
  unfold toChars
  split
  · simp
  · simpa [Nat.digits_ne_nil_iff_ne_zero]

theorem digitsVal_concat (ds : List UInt8) (c : UInt8) :
    digitsVal (ds ++ [c]) = digitsVal ds * 10 + (c.toNat - 48) := by
  simp [digitsVal]

/-- Two runs of digits. -/
theorem digitsVal_append (ds es : List UInt8) :
    digitsVal (ds ++ es) = digitsVal ds * 10 ^ es.length + digitsVal es := by
  induction es using List.reverseRecOn with
  | nil => simp [digitsVal]
  | append_singleton es c ih =>
    rw [← List.append_assoc, digitsVal_concat, digitsVal_concat, ih, List.length_append,
      List.length_singleton, pow_succ]
    ring

/-- The number of digits bounds the value. -/
theorem digitsVal_lt {ds : List UInt8} (h : ∀ c ∈ ds, isDigit c) :
    digitsVal ds < 10 ^ ds.length := by
  induction ds using List.reverseRecOn with
  | nil => exact Nat.one_pos
  | append_singleton ds c ih =>
    have hds := ih fun c' hc' => h c' (List.mem_append_left _ hc')
    have hc := h c (List.mem_append_right _ List.mem_cons_self)
    unfold isDigit at hc
    rw [digitsVal_concat, List.length_append, List.length_singleton, pow_succ]
    omega

/-- **Printed digits spell the number.** -/
theorem digitsVal_toChars (n : ℕ) : digitsVal (toChars n) = n := by
  have hrev : ∀ ds : List ℕ, (∀ d ∈ ds, d < 10) →
      digitsVal (ds.reverse.map fun d => UInt8.ofNat (48 + d)) = Nat.ofDigits 10 ds := by
    intro ds
    induction ds with
    | nil => intro _; rfl
    | cons d ds ih =>
      intro h
      have hd : d < 10 := h d (by simp)
      rw [List.reverse_cons, List.map_append, List.map_singleton, digitsVal_concat,
        ih fun x hx => h x (by simp [hx]), Nat.ofDigits_cons, UInt8.toNat_ofNat']
      omega
  unfold toChars
  split
  · next h0 => rw [h0]; rfl
  · rw [hrev _ fun d hd => Nat.digits_lt_base (by norm_num) hd, Nat.ofDigits_digits]

/-- A number below `10 ^ k` has at most `k` digits. -/
theorem length_toChars_le {n k : ℕ} (hk : 0 < k) (h : n < 10 ^ k) : (toChars n).length ≤ k := by
  unfold toChars
  split
  · simpa
  · simp only [List.length_map, List.length_reverse]
    exact (Nat.digits_length_le_iff (by norm_num) n).mpr h

/-! ## Numerals -/

/-- One digit or more. -/
def IsNumeral (ds : List UInt8) : Prop := ds ≠ [] ∧ ∀ c ∈ ds, isDigit c

instance (ds : List UInt8) : Decidable (IsNumeral ds) := inferInstanceAs (Decidable (_ ∧ _))

/-- A number is written as a numeral. -/
theorem isNumeral_toChars (n : ℕ) : IsNumeral (toChars n) :=
  ⟨toChars_ne_nil n, fun _ hc => isDigit_of_mem_toChars hc⟩

/-- **The front of a text**: the longest run of digits, when it is not empty and in range. -/
theorem fromChars_eq_some {bound n : ℕ} {text rest : List UInt8} :
    fromChars bound text = some (n, rest) ↔
      ∃ ds, text = ds ++ rest ∧ IsNumeral ds ∧ (∀ c ∈ rest.head?, ¬ isDigit c) ∧
        digitsVal ds = n ∧ n < bound := by
  have hsplit : text.takeWhile (fun c => decide (isDigit c)) ++
      text.dropWhile (fun c => decide (isDigit c)) = text := List.takeWhile_append_dropWhile
  constructor
  · intro h
    unfold fromChars at h
    dsimp only at h
    split_ifs at h with hbad
    push Not at hbad
    obtain ⟨rfl, rfl⟩ := Prod.mk.inj (Option.some.inj h)
    refine ⟨_, hsplit.symm, ⟨hbad.1, fun c hc => ?_⟩, fun c hc => ?_, rfl, hbad.2⟩
    · exact of_decide_eq_true (List.all_eq_true.mp List.all_takeWhile c hc)
    · have hhead := List.head?_dropWhile_not (fun c => decide (isDigit c)) text
      rw [Option.mem_def.mp hc] at hhead
      simpa using hhead
  · rintro ⟨ds, rfl, ⟨hne, hdigits⟩, hrest, rfl, hlt⟩
    have hall : ∀ c ∈ ds, decide (isDigit c) = true := fun c hc => decide_eq_true (hdigits c hc)
    have htake : (ds ++ rest).takeWhile (fun c => decide (isDigit c)) = ds := by
      rw [List.takeWhile_append_of_pos hall]
      cases rest with
      | nil => simp
      | cons c rest => simp [List.takeWhile_cons_of_neg, hrest c rfl]
    have hdrop : (ds ++ rest).dropWhile (fun c => decide (isDigit c)) = rest := by
      rw [List.dropWhile_append_of_pos hall]
      cases rest with
      | nil => rfl
      | cons c rest => simp [List.dropWhile_cons_of_neg, hrest c rfl]
    simp only [fromChars, htake, hdrop]
    rw [if_neg]
    rintro (hnil | hle)
    · exact hne hnil
    · omega

/-- **A whole text that is a number.** -/
theorem fromChars_eq_some_nil {bound n : ℕ} {text : List UInt8} :
    fromChars bound text = some (n, []) ↔ IsNumeral text ∧ digitsVal text = n ∧ n < bound := by
  rw [fromChars_eq_some]
  constructor
  · rintro ⟨ds, rfl, hnum, -, hval, hlt⟩
    rw [List.append_nil]
    exact ⟨hnum, hval, hlt⟩
  · rintro ⟨hnum, hval, hlt⟩
    exact ⟨text, (List.append_nil _).symm, hnum, fun c hc => (nomatch hc), hval, hlt⟩

/-- **Parsing what was printed.** -/
theorem fromChars_toChars {bound n : ℕ} (h : n < bound) :
    fromChars bound (toChars n) = some (n, []) :=
  fromChars_eq_some_nil.mpr ⟨isNumeral_toChars n, digitsVal_toChars n, h⟩

end PulseForge.Foundation
