import PulseForge.Foundation.Delimiter
import PulseForge.Model.CpuList

/-!
# What the CPU-list parser accepts

The grammar of CPU lists, and the texts for which the parser does what the grammar says. The parser
also takes a list that ends in a comma; and it runs into undefined behaviour when it comes to a
number that does not fit an `int`, or to a range that ends at the largest one.
-/

set_option autoImplicit false

namespace PulseForge.CpuList

open Foundation

/-! ## The grammar -/

/-- A decimal number that an `int` can hold. -/
def IsInt (ds : List UInt8) : Prop := IsNumeral ds ∧ digitsVal ds ≤ kIntMax

/-- An item, and its numbers. -/
inductive Item : List UInt8 → List ℕ → Prop
  | number {ds : List UInt8} (h : IsInt ds) : Item ds [digitsVal ds]
  | range {lo hi : List UInt8} (hlo : IsInt lo) (hhi : IsInt hi)
    (hle : digitsVal lo ≤ digitsVal hi) :
    Item (lo ++ 45 :: hi) (List.range' (digitsVal lo) (digitsVal hi + 1 - digitsVal lo))

/-- Items separated by single commas, and their numbers in order. -/
inductive Items : List UInt8 → List ℕ → Prop
  | last {s : List UInt8} {vs : List ℕ} (h : Item s vs) : Items s vs
  | more {s rest : List UInt8} {vs ws : List ℕ} (h : Item s vs) (hrest : Items rest ws) :
    Items (s ++ 44 :: rest) (vs ++ ws)

/-- **The grammar**: nothing, or items. -/
def Listed (text : List UInt8) (cpus : List ℕ) : Prop :=
  (text = [] ∧ cpus = []) ∨ Items text cpus

/-! ## Where the parser goes astray -/

/-- The digits at the front of a text. -/
def leading (s : List UInt8) : List UInt8 := s.takeWhile fun c => decide (isDigit c)

/-- The digits at the front of a text spell a number that an `int` cannot hold. -/
def Overflows (s : List UInt8) : Prop :=
  kIntMax < digitsVal (leading s)

/-- A piece between commas on which an `int` overflows: in a number, or in counting a range up to
the largest `int`. -/
inductive Strays : List UInt8 → Prop
  | number {p : List UInt8} (hdash : 45 ∉ p) (h : Overflows p) : Strays p
  | lo {lo hi : List UInt8} (hdash : 45 ∉ lo) (h : Overflows lo) : Strays (lo ++ 45 :: hi)
  | hi {lo hi : List UInt8} (hdash : 45 ∉ lo) (h : Overflows hi) : Strays (lo ++ 45 :: hi)
  | top {lo hi : List UInt8} (hlo : IsInt lo) (hhi : IsInt hi) (htop : digitsVal hi = kIntMax) :
    Strays (lo ++ 45 :: hi)

/-- The text has the piece `p` between commas, with only items in front of it. -/
inductive Reaches : List UInt8 → List UInt8 → Prop
  | last {p : List UInt8} (hcomma : 44 ∉ p) (hne : p ≠ []) : Reaches p p
  | here {p rest : List UInt8} (hcomma : 44 ∉ p) : Reaches (p ++ 44 :: rest) p
  | later {s rest p : List UInt8} {vs : List ℕ} (h : Item s vs) (hrest : Reaches rest p) :
    Reaches (s ++ 44 :: rest) p

/-- What the parser takes: as the grammar, but the piece behind the last comma may be empty. -/
inductive Taken : List UInt8 → List ℕ → Prop
  | nil : Taken [] []
  | last {s : List UInt8} {vs : List ℕ} (h : Item s vs) : Taken s vs
  | more {s rest : List UInt8} {vs ws : List ℕ} (h : Item s vs) (hrest : Taken rest ws) :
    Taken (s ++ 44 :: rest) (vs ++ ws)

/-! ## Numbers -/

/-- The value after more digits. -/
def digitsFrom (value : ℕ) (ds : List UInt8) : ℕ :=
  ds.foldl (fun v c => v * 10 + (c.toNat - 48)) value

/-- More digits only make the value larger. -/
theorem le_digitsFrom (value : ℕ) (ds : List UInt8) : value ≤ digitsFrom value ds := by
  induction ds generalizing value with
  | nil => exact Nat.le_refl value
  | cons c ds ih =>
    calc value ≤ value * 10 + (c.toNat - 48) := by omega
      _ ≤ digitsFrom (value * 10 + (c.toNat - 48)) ds := ih _

theorem leading_cons {c : UInt8} (s : List UInt8) (hc : isDigit c) :
    leading (c :: s) = c :: leading s :=
  List.takeWhile_cons_of_pos (decide_eq_true hc)

/-- Anything else ends the leading digits. -/
theorem leading_stop {c : UInt8} (s : List UInt8) (hc : ¬ isDigit c) : leading (c :: s) = [] :=
  List.takeWhile_cons_of_neg (by simpa using hc)

/-- Every digit of a numeral is leading. -/
theorem leading_numeral {s : List UInt8} (h : ∀ c ∈ s, isDigit c) : leading s = s := by
  unfold leading
  rw [List.takeWhile_eq_self_iff]
  exact fun c hc => decide_eq_true (h c hc)

/-- **The loop over the digits** stops at the first overflow, or at the first other character. -/
theorem parseIntLoop_eq {s : List UInt8} {value : ℕ} (hvalue : value ≤ kIntMax) :
    parseIntLoop s value =
      if kIntMax < digitsFrom value (leading s) then .overflow
      else if ∀ c ∈ s, isDigit c then .value (digitsFrom value s)
      else .nullopt := by
  induction s generalizing value with
  | nil =>
    refine Eq.symm ((if_neg (Nat.not_lt.mpr hvalue)).trans (if_pos ?_))
    exact fun c hc => absurd hc List.not_mem_nil
  | cons c s ih =>
    unfold parseIntLoop
    by_cases hc : isDigit c
    · rw [if_neg (not_not_intro hc), leading_cons s hc]
      change (if kIntMax < value * 10 + (c.toNat - 48) then _ else _) =
        if kIntMax < digitsFrom (value * 10 + (c.toNat - 48)) _ then _ else _
      by_cases hlt : kIntMax < value * 10 + (c.toNat - 48)
      · rw [if_pos hlt, if_pos (hlt.trans_le (le_digitsFrom _ _))]
      · rw [if_neg hlt, ih (Nat.not_lt.mp hlt)]
        simp only [List.forall_mem_cons, hc, true_and]
        rfl
    · rw [if_pos hc, leading_stop s hc]
      refine Eq.symm ((if_neg (Nat.not_lt.mpr hvalue)).trans (if_neg ?_))
      exact fun hall => hc (hall c List.mem_cons_self)

/-- A number that an `int` holds does not overflow. -/
theorem IsInt.not_overflows {s : List UInt8} (h : IsInt s) : ¬ Overflows s := by
  unfold Overflows
  rw [leading_numeral h.1.2]
  exact Nat.not_lt.mpr h.2

/-- The parser reads such a number. -/
theorem IsInt.parse {s : List UInt8} (h : IsInt s) :
    parseNonNegativeInt s = .value (digitsVal s) := by
  have hover := h.not_overflows
  unfold parseNonNegativeInt
  rw [if_neg h.1.1, parseIntLoop_eq (Nat.zero_le _)]
  exact (if_neg hover).trans (if_pos h.1.2)

/-- The parser overflows on the others. -/
theorem Overflows.parse {s : List UInt8} (h : Overflows s) :
    parseNonNegativeInt s = .overflow := by
  have hne : s ≠ [] := by
    rintro rfl
    exact absurd h (Nat.not_lt.mpr (Nat.zero_le _))
  unfold parseNonNegativeInt
  rw [if_neg hne, parseIntLoop_eq (Nat.zero_le _)]
  exact if_pos h

/-- **Any other text** is no number, and the parser says so. -/
theorem parse_nullopt {s : List UInt8} (hint : ¬ IsInt s) (hover : ¬ Overflows s) :
    parseNonNegativeInt s = .nullopt := by
  unfold parseNonNegativeInt
  split_ifs with hnil
  · rfl
  rw [parseIntLoop_eq (Nat.zero_le _)]
  refine (if_neg hover).trans (if_neg fun hall => hint ⟨⟨hnil, hall⟩, ?_⟩)
  unfold Overflows at hover
  rw [leading_numeral hall] at hover
  exact Nat.not_lt.mp hover

/-! ## Items -/

/-- **Counting a range** that ends below the largest `int` appends its numbers. -/
theorem pushRange_eq {hi c : ℕ} (cpus : List ℕ) (hhi : hi < kIntMax) :
    pushRange hi c cpus = .value (cpus ++ List.range' c (hi + 1 - c)) := by
  induction hn : hi + 1 - c generalizing c cpus with
  | zero =>
    unfold pushRange
    rw [if_neg (by omega), List.range'_zero, List.append_nil]
  | succ n ih =>
    unfold pushRange
    rw [if_pos (by omega), if_neg (by omega), ih _ (by omega), List.range'_succ, List.append_assoc,
      List.singleton_append]

/-- A range that ends at the largest `int` is never counted to its end. -/
theorem pushRange_top {c : ℕ} (cpus : List ℕ) (hc : c ≤ kIntMax) :
    pushRange kIntMax c cpus = .overflow := by
  induction hn : kIntMax - c generalizing c cpus with
  | zero =>
    unfold pushRange
    rw [if_pos hc, if_pos (by omega)]
  | succ n ih =>
    unfold pushRange
    rw [if_pos hc, if_neg (by omega), ih _ (by omega) (by omega)]

/-- A number has only digits. -/
theorem IsInt.not_mem {s : List UInt8} (h : IsInt s) {c : UInt8} (hc : ¬ isDigit c) : c ∉ s :=
  fun hmem => hc (h.1.2 c hmem)

/-- The dash is not a digit. -/
theorem dash_not_digit : ¬ isDigit 45 := by decide

/-- When a range is stray. -/
theorem strays_dash_iff {lo hi : List UInt8} (hdash : 45 ∉ lo) :
    Strays (lo ++ 45 :: hi) ↔
      Overflows lo ∨ Overflows hi ∨ (IsInt lo ∧ IsInt hi ∧ digitsVal hi = kIntMax) := by
  constructor
  · intro h
    generalize hp : lo ++ 45 :: hi = p at h
    cases h with
    | number hnone h =>
      rw [← hp] at hnone
      exact absurd (List.mem_append_right _ List.mem_cons_self) hnone
    | lo hdash' h =>
      obtain ⟨rfl, rfl⟩ := cut_inj hdash hdash' hp
      exact .inl h
    | hi hdash' h =>
      obtain ⟨rfl, rfl⟩ := cut_inj hdash hdash' hp
      exact .inr (.inl h)
    | top hlo hhi htop =>
      obtain ⟨rfl, rfl⟩ := cut_inj hdash (hlo.not_mem dash_not_digit) hp
      exact .inr (.inr ⟨hlo, hhi, htop⟩)
  · rintro (h | h | ⟨hlo, hhi, htop⟩)
    · exact .lo hdash h
    · exact .hi hdash h
    · exact .top hlo hhi htop

/-- When a piece without a dash is stray. -/
theorem strays_plain_iff {p : List UInt8} (hdash : 45 ∉ p) : Strays p ↔ Overflows p := by
  constructor
  · intro h
    cases h with
    | number _ h => exact h
    | lo _ _ => exact absurd (List.mem_append_right _ List.mem_cons_self) hdash
    | hi _ _ => exact absurd (List.mem_append_right _ List.mem_cons_self) hdash
    | top _ _ _ => exact absurd (List.mem_append_right _ List.mem_cons_self) hdash
  · exact .number hdash

/-- When a range is an item, and which numbers it lists. -/
theorem item_dash_iff {lo hi : List UInt8} {vs : List ℕ} (hdash : 45 ∉ lo) :
    Item (lo ++ 45 :: hi) vs ↔ IsInt lo ∧ IsInt hi ∧ digitsVal lo ≤ digitsVal hi ∧
      vs = List.range' (digitsVal lo) (digitsVal hi + 1 - digitsVal lo) := by
  constructor
  · intro h
    generalize hp : lo ++ 45 :: hi = p at h
    cases h with
    | number h =>
      rw [← hp] at h
      exact absurd (List.mem_append_right _ List.mem_cons_self) (h.not_mem dash_not_digit)
    | range hlo hhi hle =>
      obtain ⟨rfl, rfl⟩ := cut_inj hdash (hlo.not_mem dash_not_digit) hp
      exact ⟨hlo, hhi, hle, rfl⟩
  · rintro ⟨hlo, hhi, hle, rfl⟩
    exact .range hlo hhi hle

/-- When a piece without a dash is an item. -/
theorem item_plain_iff {p : List UInt8} {vs : List ℕ} (hdash : 45 ∉ p) :
    Item p vs ↔ IsInt p ∧ vs = [digitsVal p] := by
  constructor
  · intro h
    cases h with
    | number h => exact ⟨h, rfl⟩
    | range _ _ _ => exact absurd (List.mem_append_right _ List.mem_cons_self) hdash
  · rintro ⟨h, rfl⟩
    exact .number h

/-- An item has no comma. -/
theorem Item.comma {p : List UInt8} {vs : List ℕ} (h : Item p vs) : 44 ∉ p := by
  cases h with
  | number h => exact h.not_mem (by decide)
  | range hlo hhi _ =>
    rw [List.mem_append, List.mem_cons]
    rintro (h | h | h)
    · exact hlo.not_mem (by decide) h
    · exact absurd h (by decide)
    · exact hhi.not_mem (by decide) h

theorem Item.ne_nil {p : List UInt8} {vs : List ℕ} (h : Item p vs) : p ≠ [] := by
  cases h with
  | number h => exact h.1.1
  | range _ _ _ => simp

/-- An item has one list of numbers. -/
theorem Item.unique {p : List UInt8} {vs ws : List ℕ} (h : Item p vs) (h' : Item p ws) :
    vs = ws := by
  by_cases hdash : 45 ∈ p
  · obtain ⟨lo, hi, rfl, hlo⟩ := List.eq_append_cons_of_mem hdash
    rw [((item_dash_iff hlo).mp h).2.2.2, ((item_dash_iff hlo).mp h').2.2.2]
  · rw [((item_plain_iff hdash).mp h).2, ((item_plain_iff hdash).mp h').2]

/-- What an item comes to: an overflow on a stray piece, its numbers, or `nullopt`. -/
inductive ItemRan (p : List UInt8) (cpus : List ℕ) : Prop
  | overflow (hstray : Strays p) (h : parseItem p cpus = .overflow)
  | value (hstray : ¬ Strays p) (vs : List ℕ) (hitem : Item p vs)
    (h : parseItem p cpus = .value (cpus ++ vs))
  | nullopt (hstray : ¬ Strays p) (hitem : ∀ vs, ¬ Item p vs) (h : parseItem p cpus = .nullopt)

/-- A piece without a dash is parsed as a number. -/
theorem parseItem_plain {p : List UInt8} (cpus : List ℕ) (hdash : 45 ∉ p) :
    parseItem p cpus = match parseNonNegativeInt p with
      | .value cpu => .value (cpus ++ [cpu])
      | .nullopt => .nullopt
      | .overflow => .overflow :=
  if_neg hdash

/-- What a piece without a dash comes to. -/
theorem itemRan_plain {p : List UInt8} (cpus : List ℕ) (hdash : 45 ∉ p) : ItemRan p cpus := by
  have heq := parseItem_plain cpus hdash
  by_cases hover : Overflows p
  · rw [hover.parse] at heq
    exact .overflow (.number hdash hover) heq
  have hstray : ¬ Strays p := fun h => hover ((strays_plain_iff hdash).mp h)
  by_cases hint : IsInt p
  · rw [hint.parse] at heq
    exact .value hstray _ (.number hint) heq
  · rw [parse_nullopt hint hover] at heq
    exact .nullopt hstray (fun vs hitem => hint ((item_plain_iff hdash).mp hitem).1) heq

/-- A piece with a dash is parsed as a range. -/
theorem parseItem_dash {lo hi : List UInt8} (cpus : List ℕ) (hdash : 45 ∉ lo) :
    parseItem (lo ++ 45 :: hi) cpus =
      parseRange (parseNonNegativeInt lo) (parseNonNegativeInt hi) cpus := by
  obtain ⟨htake, hdrop⟩ := @cut_append _ _ 45 lo hi hdash
  unfold parseItem
  rw [if_pos (List.mem_append_right _ List.mem_cons_self), htake, hdrop, List.tail_cons]

/-- Two numbers with a dash between them. -/
theorem itemRan_range {lo hi : List UInt8} (cpus : List ℕ) (hlo : IsInt lo) (hhi : IsInt hi) :
    ItemRan (lo ++ 45 :: hi) cpus := by
  have hdash : 45 ∉ lo := hlo.not_mem dash_not_digit
  have hran : parseItem (lo ++ 45 :: hi) cpus =
      if digitsVal hi < digitsVal lo then .nullopt
      else pushRange (digitsVal hi) (digitsVal lo) cpus := by
    rw [parseItem_dash cpus hdash, hlo.parse, hhi.parse]
    rfl
  by_cases htop : digitsVal hi = kIntMax
  · refine .overflow (.top hlo hhi htop) ?_
    rw [hran, htop, if_neg (Nat.not_lt.mpr hlo.2), pushRange_top _ hlo.2]
  have hstray : ¬ Strays (lo ++ 45 :: hi) := by
    rw [strays_dash_iff hdash]
    rintro (h | h | ⟨-, -, h⟩)
    · exact hlo.not_overflows h
    · exact hhi.not_overflows h
    · exact htop h
  by_cases hlt : digitsVal hi < digitsVal lo
  · refine .nullopt hstray (fun vs hitem => ?_) (hran.trans (if_pos hlt))
    exact absurd ((item_dash_iff hdash).mp hitem).2.2.1 (Nat.not_le.mpr hlt)
  · refine .value hstray _ (.range hlo hhi (Nat.not_lt.mp hlt)) ?_
    rw [hran, if_neg hlt, pushRange_eq _ (Nat.lt_of_le_of_ne hhi.2 htop)]

/-- What a piece with a dash comes to. -/
theorem itemRan_dash {lo hi : List UInt8} (cpus : List ℕ) (hdash : 45 ∉ lo) :
    ItemRan (lo ++ 45 :: hi) cpus := by
  have heq := @parseItem_dash lo hi cpus hdash
  by_cases hover : Overflows lo
  · refine .overflow (.lo hdash hover) ?_
    rw [heq, hover.parse]
    rfl
  by_cases hover' : Overflows hi
  · refine .overflow (.hi hdash hover') ?_
    rw [heq, hover'.parse]
    cases parseNonNegativeInt lo <;> rfl
  by_cases hint : IsInt lo ∧ IsInt hi
  · exact itemRan_range cpus hint.1 hint.2
  refine .nullopt ?_ ?_ ?_
  · rw [strays_dash_iff hdash]
    rintro (h | h | ⟨hlo, hhi, -⟩)
    · exact hover h
    · exact hover' h
    · exact hint ⟨hlo, hhi⟩
  · intro vs hitem
    obtain ⟨hlo, hhi, -⟩ := (item_dash_iff hdash).mp hitem
    exact hint ⟨hlo, hhi⟩
  · rw [heq]
    by_cases hlo : IsInt lo
    · rw [hlo.parse, parse_nullopt (fun hhi => hint ⟨hlo, hhi⟩) hover']
      rfl
    · rw [parse_nullopt hlo hover]
      by_cases hhi : IsInt hi
      · rw [hhi.parse]
        rfl
      · rw [parse_nullopt hhi hover']
        rfl

/-- **One item** of the text. -/
theorem itemRan (p : List UInt8) (cpus : List ℕ) : ItemRan p cpus := by
  by_cases hdash : 45 ∈ p
  · obtain ⟨lo, hi, rfl, hlo⟩ := List.eq_append_cons_of_mem hdash
    exact itemRan_dash cpus hlo
  · exact itemRan_plain cpus hdash

/-! ## The text -/

theorem Reaches.ne_nil {text p : List UInt8} (h : Reaches text p) : text ≠ [] := by
  cases h with
  | last _ hne => exact hne
  | here _ => simp
  | later _ _ => simp

/-- A text without a comma is one piece. -/
theorem reaches_plain {text p : List UInt8} (hcomma : 44 ∉ text) (h : Reaches text p) : p = text := by
  cases h with
  | last _ _ => rfl
  | here _ => exact absurd (List.mem_append_right _ List.mem_cons_self) hcomma
  | later _ _ => exact absurd (List.mem_append_right _ List.mem_cons_self) hcomma

/-- The pieces of a text with a comma: the first, and behind an item those of the rest. -/
theorem reaches_comma {s rest p : List UInt8} (hcomma : 44 ∉ s) (h : Reaches (s ++ 44 :: rest) p) :
    p = s ∨ ((∃ vs, Item s vs) ∧ Reaches rest p) := by
  generalize ht : s ++ 44 :: rest = t at h
  cases h with
  | last hnone _ =>
    rw [← ht] at hnone
    exact absurd (List.mem_append_right _ List.mem_cons_self) hnone
  | here hcomma' => exact .inl (cut_inj hcomma hcomma' ht).1.symm
  | later hitem hrest =>
    obtain ⟨rfl, rfl⟩ := cut_inj hcomma hitem.comma ht
    exact .inr ⟨⟨_, hitem⟩, hrest⟩

/-- Without a comma, what is taken is an item. -/
theorem taken_plain {text : List UInt8} {vs : List ℕ} (hcomma : 44 ∉ text) (hne : text ≠ [])
    (h : Taken text vs) : Item text vs := by
  cases h with
  | nil => exact absurd rfl hne
  | last h => exact h
  | more _ _ => exact absurd (List.mem_append_right _ List.mem_cons_self) hcomma

/-- What is taken from a text with a comma, piece by piece. -/
theorem taken_comma {s rest : List UInt8} {us : List ℕ} (hcomma : 44 ∉ s)
    (h : Taken (s ++ 44 :: rest) us) : ∃ vs ws, Item s vs ∧ Taken rest ws ∧ us = vs ++ ws := by
  generalize ht : s ++ 44 :: rest = t at h
  cases h with
  | nil => exact absurd ht (by simp)
  | last hitem =>
    have hnone := hitem.comma
    rw [← ht] at hnone
    exact absurd (List.mem_append_right _ List.mem_cons_self) hnone
  | more hitem hrest =>
    obtain ⟨rfl, rfl⟩ := cut_inj hcomma hitem.comma ht
    exact ⟨_, _, hitem, hrest, rfl⟩

/-- A stray piece is reached. -/
def Strayed (text : List UInt8) : Prop := ∃ p, Reaches text p ∧ Strays p

/-- What the text comes to. -/
inductive TextRan (text : List UInt8) (cpus : List ℕ) : Prop
  | overflow (hstray : Strayed text) (h : parseItems text cpus = .overflow)
  | value (hstray : ¬ Strayed text) (vs : List ℕ) (htaken : Taken text vs)
    (h : parseItems text cpus = .value (cpus ++ vs))
  | nullopt (hstray : ¬ Strayed text) (htaken : ∀ vs, ¬ Taken text vs)
    (h : parseItems text cpus = .nullopt)

/-- One turn of the loop. -/
theorem parseItems_step {text p rest : List UInt8} (cpus : List ℕ) (hne : text ≠ [])
    (htake : (text.takeWhile fun c => decide (c ≠ 44)) = p)
    (hdrop : (text.dropWhile fun c => decide (c ≠ 44)).tail = rest) :
    parseItems text cpus = match parseItem p cpus with
      | .value cpus => parseItems rest cpus
      | .nullopt => .nullopt
      | .overflow => .overflow := by
  have hstep := (parseItems.eq_1 text cpus).trans (if_neg hne)
  rw [htake, hdrop] at hstep
  exact hstep

theorem parseItems_nil (cpus : List ℕ) : parseItems [] cpus = .value cpus := by
  rw [parseItems, if_pos rfl]

/-- One piece, without a comma behind it. -/
theorem textRan_plain {text : List UInt8} (cpus : List ℕ) (hcomma : 44 ∉ text) (hne : text ≠ []) :
    TextRan text cpus := by
  have hall : ∀ c ∈ text, decide (c ≠ 44) = true := by
    intro c hc
    apply decide_eq_true
    rintro rfl
    exact hcomma hc
  have hdrop : (text.dropWhile fun c => decide (c ≠ 44)).tail = [] := by
    rw [List.dropWhile_eq_nil_iff.mpr hall, List.tail_nil]
  have hstep := parseItems_step cpus hne (List.takeWhile_eq_self_iff.mpr hall) hdrop
  have hstrayed : Strayed text ↔ Strays text := by
    constructor
    · rintro ⟨p, hreach, hstray⟩
      exact reaches_plain hcomma hreach ▸ hstray
    · intro hstray
      exact ⟨text, .last hcomma hne, hstray⟩
  cases itemRan text cpus with
  | overflow hstray h =>
    rw [h] at hstep
    exact .overflow (hstrayed.mpr hstray) hstep
  | value hstray vs hitem h =>
    rw [h] at hstep
    refine .value (fun hs => hstray (hstrayed.mp hs)) vs (.last hitem) ?_
    exact hstep.trans (parseItems_nil _)
  | nullopt hstray hitem h =>
    rw [h] at hstep
    refine .nullopt (fun hs => hstray (hstrayed.mp hs)) ?_ hstep
    exact fun vs htaken => hitem vs (taken_plain hcomma hne htaken)

/-- **The loop over the items**, by the first comma. -/
theorem textRan (text : List UInt8) (cpus : List ℕ) : TextRan text cpus := by
  induction hn : text.length using Nat.strong_induction_on generalizing text cpus with
  | h n ih =>
    subst hn
    by_cases hne : text = []
    · subst hne
      refine .value ?_ [] .nil ?_
      · rintro ⟨p, hreach, -⟩
        exact hreach.ne_nil rfl
      · rw [parseItems_nil, List.append_nil]
    by_cases hmem : 44 ∈ text
    · obtain ⟨s, rest, rfl, hcomma⟩ := List.eq_append_cons_of_mem hmem
      obtain ⟨htake, hdrop⟩ := @cut_append _ _ 44 s rest hcomma
      have hstep := parseItems_step cpus hne htake (congrArg List.tail hdrop)
      have hfirst : Strays s → Strayed (s ++ 44 :: rest) := fun h => ⟨s, .here hcomma, h⟩
      have hreach : ∀ {vs}, Item s vs → Strayed rest → Strayed (s ++ 44 :: rest) := by
        rintro vs hitem ⟨p, hreach, hstray⟩
        exact ⟨p, .later hitem hreach, hstray⟩
      cases itemRan s cpus with
      | overflow hstray h =>
        rw [h] at hstep
        exact .overflow (hfirst hstray) hstep
      | nullopt hstray hitem h =>
        rw [h] at hstep
        refine .nullopt ?_ ?_ hstep
        · rintro ⟨p, hreach, hp⟩
          rcases reaches_comma hcomma hreach with rfl | ⟨⟨vs, hs⟩, -⟩
          · exact hstray hp
          · exact hitem vs hs
        · intro us htaken
          obtain ⟨vs, -, hs, -⟩ := taken_comma hcomma htaken
          exact hitem vs hs
      | value hstray vs hitem h =>
        rw [h] at hstep
        have hback : Strayed (s ++ 44 :: rest) → Strayed rest := by
          rintro ⟨p, hreach, hp⟩
          rcases reaches_comma hcomma hreach with rfl | ⟨-, hrest⟩
          · exact absurd hp hstray
          · exact ⟨p, hrest, hp⟩
        have hlt : rest.length < (s ++ 44 :: rest).length := by
          rw [List.length_append, List.length_cons]
          omega
        cases ih rest.length hlt rest (cpus ++ vs) rfl with
        | overflow hs h => exact .overflow (hreach hitem hs) (hstep.trans h)
        | value hs ws htaken h =>
          refine .value (fun hall => hs (hback hall)) (vs ++ ws) (.more hitem htaken) ?_
          exact (hstep.trans h).trans (by rw [List.append_assoc])
        | nullopt hs htaken h =>
          refine .nullopt (fun hall => hs (hback hall)) ?_ (hstep.trans h)
          intro us hus
          obtain ⟨-, ws, -, hws, -⟩ := taken_comma hcomma hus
          exact htaken ws hws
    · exact textRan_plain cpus hmem hne

/-! ## Against the grammar -/

/-- What the grammar lists, the parser takes. -/
theorem Items.taken {text : List UInt8} {vs : List ℕ} (h : Items text vs) : Taken text vs := by
  induction h with
  | last h => exact .last h
  | more h _ ih => exact .more h ih

/-- A text is taken in one way. -/
theorem Taken.unique {text : List UInt8} {vs ws : List ℕ} (h : Taken text vs)
    (h' : Taken text ws) : vs = ws := by
  induction h generalizing ws with
  | nil =>
    generalize ht : ([] : List UInt8) = t at h'
    cases h' with
    | nil => rfl
    | last h => exact absurd ht.symm h.ne_nil
    | more _ _ => exact absurd ht (by simp)
  | last h => exact h.unique (taken_plain h.comma h.ne_nil h')
  | more h _ ih =>
    obtain ⟨vs', ws', hs, hrest, rfl⟩ := taken_comma h.comma h'
    rw [h.unique hs, ih hrest]

/-- The parser takes the texts of the grammar, and those with a comma behind them. -/
theorem taken_iff {text : List UInt8} {vs : List ℕ} :
    Taken text vs ↔ Listed text vs ∨ ∃ body, text = body ++ [44] ∧ Items body vs := by
  constructor
  · intro h
    induction h with
    | nil => exact .inl (.inl ⟨rfl, rfl⟩)
    | last h => exact .inl (.inr (.last h))
    | @more s rest vs ws h _ ih =>
      rcases ih with (⟨rfl, rfl⟩ | hrest) | ⟨body, rfl, hbody⟩
      · rw [List.append_nil]
        exact .inr ⟨s, rfl, .last h⟩
      · exact .inl (.inr (.more h hrest))
      · refine .inr ⟨s ++ 44 :: body, ?_, .more h hbody⟩
        rw [List.append_assoc, List.cons_append]
  · rintro ((⟨rfl, rfl⟩ | h) | ⟨body, rfl, h⟩)
    · exact .nil
    · exact h.taken
    · induction h with
      | @last s vs h =>
        have htaken := Taken.more h .nil
        rwa [List.append_nil] at htaken
      | more h _ ih =>
        rw [List.append_assoc, List.cons_append]
        exact .more h ih

/-- A list of the grammar does not end in a comma. -/
theorem Items.not_concat {text : List UInt8} {vs : List ℕ} (h : Items text vs) :
    ∀ body, text ≠ body ++ [44] := by
  induction h with
  | last h =>
    rintro body rfl
    exact h.comma (List.mem_append_right _ List.mem_cons_self)
  | @more s rest vs ws h hrest ih =>
    intro body heq
    have hne : rest ≠ [] := by
      cases hrest with
      | last h => exact h.ne_nil
      | more _ _ => simp
    obtain ⟨front, last, rfl⟩ := (List.eq_nil_or_concat rest).resolve_left hne
    rw [List.concat_eq_append] at heq ih
    rw [← List.cons_append, ← List.append_assoc] at heq
    obtain ⟨-, hlast⟩ := List.append_inj' heq rfl
    exact ih front (congrArg (front ++ ·) hlast)

/-- The text is a list of the grammar with one more comma. -/
def EndsInComma (text : List UInt8) : Prop := ∃ body vs, text = body ++ [44] ∧ Items body vs

/-- The grammar has no comma at the end. -/
theorem EndsInComma.not_listed {text : List UInt8} (h : EndsInComma text) (cpus : List ℕ) :
    ¬ Listed text cpus := by
  obtain ⟨body, vs, rfl, -⟩ := h
  rintro (⟨hnil, -⟩ | hitems)
  · exact absurd hnil (by simp)
  · exact hitems.not_concat body rfl

/-- **The parser keeps to the grammar on one text**: it is defined, and gives exactly what the
grammar gives. -/
def Meets (text : List UInt8) : Prop :=
  parseCpuList text ≠ .overflow ∧
    ∀ cpus, parseCpuList text = .value cpus ↔ Listed (trim text) cpus

/-- **The parser follows the grammar** exactly on the texts that reach no overflow and do not end in
a comma behind a list. -/
theorem meets_iff (text : List UInt8) :
    Meets text ↔ ¬ Strayed (trim text) ∧ ¬ EndsInComma (trim text) := by
  unfold Meets parseCpuList
  cases textRan (trim text) [] with
  | overflow hstray h =>
    apply iff_of_false
    · exact fun hmeets => hmeets.1 h
    · exact fun hboth => hboth.1 hstray
  | value hstray vs htaken h =>
    rw [h, List.nil_append]
    constructor
    · rintro ⟨-, hmeets⟩
      refine ⟨hstray, fun hends => ?_⟩
      exact hends.not_listed vs ((hmeets vs).mp rfl)
    · rintro ⟨-, hends⟩
      refine ⟨by simp, fun cpus => ?_⟩
      constructor
      · intro heq
        rw [← Parsed.value.inj heq]
        apply (taken_iff.mp htaken).resolve_right
        rintro ⟨body, hbody, hitems⟩
        exact hends ⟨body, vs, hbody, hitems⟩
      · intro hlisted
        rw [htaken.unique (taken_iff.mpr (.inl hlisted))]
  | nullopt hstray htaken h =>
    rw [h]
    apply iff_of_true
    · refine ⟨by simp, fun cpus => iff_of_false (by simp) ?_⟩
      exact fun hlisted => htaken cpus (taken_iff.mpr (.inl hlisted))
    · refine ⟨hstray, ?_⟩
      rintro ⟨body, vs, hbody, hitems⟩
      exact htaken vs (taken_iff.mpr (.inr ⟨body, hbody, hitems⟩))

/-- `"1,"`: the parser takes it. -/
theorem takes_trailing_comma : ¬ Meets [49, 44] := by
  rintro ⟨-, hmeets⟩
  have htrim : trim [49, 44] = [49, 44] := by decide
  have hone : parseItem [49] [] = .value [1] := by decide
  have hparse : parseCpuList [49, 44] = .value [1] := by
    unfold parseCpuList
    rw [htrim, parseItems_step [] (by simp) rfl rfl]
    change (match parseItem [49] [] with
      | .value cpus => parseItems [] cpus
      | .nullopt => .nullopt
      | .overflow => .overflow) = _
    rw [hone]
    exact parseItems_nil [1]
  have hlisted := (hmeets [1]).mp hparse
  rw [htrim] at hlisted
  refine EndsInComma.not_listed ⟨[49], [1], rfl, .last ?_⟩ [1] hlisted
  exact @Item.number [49] ⟨⟨by simp, by simp [isDigit]⟩, by decide +kernel⟩

end PulseForge.CpuList
