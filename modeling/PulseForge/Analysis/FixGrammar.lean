import PulseForge.Foundation.Delimiter
import PulseForge.Model.Fix

/-!
# The grammar of FIX messages

`Layout` is a message as the wire format has it: BeginString, BodyLength, a body of the declared
length and CheckSum. `parse` accepts exactly the buffers that start with one whose sum is right,
except that it reads the digits at the front of the CheckSum and does not look at what follows
them.
-/

set_option autoImplicit false

namespace PulseForge.Fix

open Foundation

/-! ## Fields -/

/-- The text of a field: a tag, `'='`, a value and the end of the field. -/
def IsField (text : Bytes) (f : Field) : Prop :=
  ∃ tagText, text = tagText ++ kEquals :: (f.value ++ [kSOH]) ∧ IsNumeral tagText ∧
    digitsVal tagText = f.tag ∧ 1 ≤ f.tag ∧ f.tag ≤ 2 ^ 31 - 1 ∧ kSOH ∉ f.value

/-- A tag has no equals sign. -/
theorem equals_notMem {tagText : Bytes} (h : IsNumeral tagText) : kEquals ∉ tagText := by
  intro hmem
  exact absurd (h.2 _ hmem) (by decide)

/-- A tag has no separator. -/
theorem soh_notMem {tagText : Bytes} (h : IsNumeral tagText) : kSOH ∉ tagText := by
  intro hmem
  exact absurd (h.2 _ hmem) (by decide)

/-- The numeral of a number that is not negative. -/
theorem fromChars_int {text : Bytes} {t : ℤ} :
    (fromChars (2 ^ 31) text).map (fun (n, rest) => ((n : ℤ), rest)) = some (t, []) ↔
      IsNumeral text ∧ (digitsVal text : ℤ) = t ∧ t < 2 ^ 31 := by
  rw [Option.map_eq_some_iff]
  constructor
  · rintro ⟨⟨n, rest⟩, hn, heq⟩
    obtain ⟨rfl, rfl⟩ := Prod.mk.inj heq
    obtain ⟨hnum, rfl, hlt⟩ := fromChars_eq_some_nil.mp hn
    exact ⟨hnum, rfl, by exact_mod_cast hlt⟩
  · rintro ⟨hnum, rfl, hlt⟩
    exact ⟨_, fromChars_eq_some_nil.mpr ⟨hnum, rfl, by exact_mod_cast hlt⟩, rfl⟩

/-- The tag in front of the `'='`. -/
theorem fromCharsInt_pos {text : Bytes} {t : ℤ} (hpos : 0 < t) :
    fromCharsInt text = some (t, []) ↔
      IsNumeral text ∧ (digitsVal text : ℤ) = t ∧ t < 2 ^ 31 := by
  unfold fromCharsInt
  split
  · next text =>
    constructor
    · intro h
      obtain ⟨⟨n, rest⟩, -, heq⟩ := Option.map_eq_some_iff.mp h
      have hneg := (Prod.mk.inj heq).1
      omega
    · rintro ⟨hnum, -⟩
      exact absurd (hnum.2 45 List.mem_cons_self) (by decide)
  · exact fromChars_int

/-- **One field** is scanned if and only if it is there. -/
theorem scanField_eq_some {rest rest' : Bytes} {f : Field} :
    scanField rest = some (f, rest') ↔ ∃ text, rest = text ++ rest' ∧ IsField text f := by
  constructor
  · intro h
    unfold scanField at h
    split at h
    · exact nomatch h
    · next c afterEq hcut =>
      obtain ⟨-, -, hrest⟩ := of_dropWhile_eq_cons hcut
      split at h
      · next t htag =>
        split at h
        · exact nomatch h
        · next hpos =>
          obtain ⟨hnum, hval, hlt⟩ := (fromCharsInt_pos (not_le.mp hpos)).mp htag
          split at h
          · exact nomatch h
          · next c' rest'' hcut' =>
            obtain ⟨-, hsoh, hafter⟩ := of_dropWhile_eq_cons hcut'
            obtain ⟨rfl, rfl⟩ := Prod.mk.inj (Option.some.inj h)
            refine ⟨_, ?_, _, rfl, hnum, ?_, ?_, ?_, hsoh⟩
            · nth_rewrite 1 [hrest, hafter]
              simp
            · simp only
              omega
            · simp only
              omega
            · simp only
              omega
      · exact nomatch h
  · rintro ⟨text, rfl, tagText, rfl, hnum, hval, hpos, hle, hsoh⟩
    have htext : (tagText ++ kEquals :: (f.value ++ [kSOH])) ++ rest' =
        tagText ++ kEquals :: (f.value ++ kSOH :: rest') := by simp
    obtain ⟨htake, hdrop⟩ := @cut_append _ _ kEquals _ (f.value ++ kSOH :: rest') (equals_notMem hnum)
    obtain ⟨htake', hdrop'⟩ := @cut_append _ _ kSOH _ rest' hsoh
    have htag : fromCharsInt tagText = some ((f.tag : ℤ), []) :=
      (fromCharsInt_pos (by omega)).mpr ⟨hnum, by exact_mod_cast hval, by omega⟩
    rw [htext, scanField, hdrop, htake]
    simp only [htag, hdrop', htake']
    rw [if_neg (by omega)]
    simp

/-! ## The loop -/

/-- A field and its text. -/
structure Item where
  text : Bytes
  field : Field
  isField : IsField text field

/-- The bytes of some fields. -/
def textOf (items : List Item) : Bytes := (items.map Item.text).flatten

@[simp] theorem textOf_nil : textOf [] = [] := rfl

@[simp] theorem textOf_cons (i : Item) (items : List Item) :
    textOf (i :: items) = i.text ++ textOf items := by
  simp [textOf]

/-- The texts of two lists. -/
@[simp] theorem textOf_append (items items' : List Item) :
    textOf (items ++ items') = textOf items ++ textOf items' := by
  simp [textOf]

/-- An item is not empty. -/
theorem Item.text_pos (i : Item) : 0 < i.text.length := by
  obtain ⟨tagText, htext, -⟩ := i.isField
  rw [htext]
  simp

/-- Every field takes a byte. -/
theorem length_le_textOf (items : List Item) : items.length ≤ (textOf items).length := by
  induction items with
  | nil => exact le_rfl
  | cons i items ih =>
    have hpos := i.text_pos
    rw [textOf_cons, List.length_append, List.length_cons]
    omega

/-- Fields are recorded one after the other. -/
def recordAll : List Item → Scan → Except Error Scan
  | [], st => .ok st
  | i :: items, st =>
    match st.record i.field (st.pos + i.text.length) with
    | .error e => .error e
    | .ok st => recordAll items st

/-- The first item is recorded, then the others. -/
theorem recordAll_cons_ok {i : Item} {items : List Item} {st st' : Scan}
    (h : recordAll (i :: items) st = .ok st') :
    ∃ st₁, st.record i.field (st.pos + i.text.length) = .ok st₁ ∧ recordAll items st₁ = .ok st' := by
  rw [recordAll] at h
  split at h
  · exact nomatch h
  · next st₁ hst₁ => exact ⟨st₁, hst₁, h⟩

/-- Some items are recorded, then others. -/
theorem recordAll_append {items items' : List Item} {st st' : Scan} :
    recordAll (items ++ items') st = .ok st' ↔
      ∃ st₁, recordAll items st = .ok st₁ ∧ recordAll items' st₁ = .ok st' := by
  induction items generalizing st with
  | nil => simp [recordAll]
  | cons i items ih =>
    rw [List.cons_append, recordAll, recordAll]
    split
    · simp
    · exact ih

/-- The field is noted, without the tests. -/
def Scan.noted (st : Scan) (f : Field) (next : ℕ) : Scan :=
  { st with
    fields := st.fields ++ [f]
    pos := next
    checksumAt := if f.tag = Tag.checkSum then st.pos else st.checksumAt
    haveChecksum := st.haveChecksum || decide (f.tag = Tag.checkSum) }

/-- What `record` does, in the order of its checks. -/
theorem Scan.record_eq (st : Scan) (f : Field) (next : ℕ) :
    st.record f next =
      if st.fields.length = kMaxFields then .error .tooManyFields
      else if st.fields.length = 0 ∧ f.tag ≠ Tag.beginString then .error .badBeginString
      else if st.fields.length = 1 then
        if f.tag ≠ Tag.bodyLength then .error .badBodyLength
        else match fromChars (2 ^ 64) f.value with
          | some (len, []) =>
            .ok { st.noted f next with declaredLen := len, haveLen := true, bodyStart := next }
          | _ => .error .badBodyLength
      else .ok (st.noted f next) :=
  rfl

/-- **A field is recorded.** -/
theorem Scan.record_eq_ok {st st' : Scan} {f : Field} {next : ℕ} :
    st.record f next = .ok st' ↔
      st.fields.length ≠ kMaxFields ∧ (st.fields.length = 0 → f.tag = Tag.beginString) ∧
      (st.fields.length ≠ 1 → st' = st.noted f next) ∧
      (st.fields.length = 1 → f.tag = Tag.bodyLength ∧ ∃ len,
        fromChars (2 ^ 64) f.value = some (len, []) ∧
        st' = { st.noted f next with declaredLen := len, haveLen := true, bodyStart := next }) := by
  rw [Scan.record_eq]
  generalize st.noted f next = st₁
  split
  · next hmax => exact ⟨fun h => (by cases h), fun h => absurd hmax h.1⟩
  · next hmax =>
    split
    · next hbegin =>
      exact ⟨fun h => (by cases h), fun h => absurd (h.2.1 hbegin.1) hbegin.2⟩
    · next hbegin =>
      have hfirst : st.fields.length = 0 → f.tag = Tag.beginString := by
        intro h0
        by_contra hc
        exact hbegin ⟨h0, hc⟩
      split
      · next hone =>
        split
        · next hlen =>
          exact ⟨fun h => (by cases h), fun h => absurd (h.2.2.2 hone).1 hlen⟩
        · next hlen =>
          split
          · next len hchars =>
            refine ⟨fun h => ?_, fun h => ?_⟩
            · obtain rfl := Except.ok.inj h
              exact ⟨hmax, hfirst, fun hc => absurd hone hc, fun _ => ⟨not_not.mp hlen, len, hchars, rfl⟩⟩
            · obtain ⟨-, len', hchars', rfl⟩ := h.2.2.2 hone
              obtain ⟨rfl, -⟩ := Prod.mk.inj (Option.some.inj (hchars.symm.trans hchars'))
              rfl
          · next hnone =>
            refine ⟨fun h => (by cases h), fun h => ?_⟩
            obtain ⟨-, len, hchars, -⟩ := h.2.2.2 hone
            exact absurd hchars (hnone len)
      · next hone =>
        refine ⟨fun h => ⟨hmax, hfirst, fun _ => (Except.ok.inj h).symm, fun hc => absurd hc hone⟩,
          fun h => ?_⟩
        rw [h.2.2.1 hone]

/-- Whether the CheckSum was seen. -/
theorem Scan.record_haveChecksum {st st' : Scan} {f : Field} {next : ℕ}
    (h : st.record f next = .ok st') :
    st'.haveChecksum = (st.haveChecksum || decide (f.tag = Tag.checkSum)) := by
  obtain ⟨-, -, hplain, hlen⟩ := Scan.record_eq_ok.mp h
  by_cases hone : st.fields.length = 1
  · obtain ⟨-, len, -, rfl⟩ := hlen hone
    rfl
  · rw [hplain hone]
    rfl

/-- **What the loop read**, when it saw a CheckSum: some fields, and then the CheckSum. -/
theorem scanLoop_sound {fuel : ℕ} {rest : Bytes} {st st' : Scan}
    (h : scanLoop fuel rest st = .ok st') (hbefore : st.haveChecksum = false)
    (hseen : st'.haveChecksum = true) :
    ∃ (items : List Item) (last : Item) (rest' : Bytes),
      rest = textOf items ++ (last.text ++ rest') ∧ last.field.tag = Tag.checkSum ∧
      (∀ i ∈ items, i.field.tag ≠ Tag.checkSum) ∧ recordAll (items ++ [last]) st = .ok st' := by
  induction fuel generalizing rest st with
  | zero =>
    rw [scanLoop] at h
    obtain rfl := Except.ok.inj h
    rw [hbefore] at hseen
    exact nomatch hseen
  | succ fuel ih =>
    rw [scanLoop] at h
    split_ifs at h with hnil
    · obtain rfl := Except.ok.inj h
      rw [hbefore] at hseen
      exact nomatch hseen
    · split at h
      · exact nomatch h
      · next f rest' hscan =>
        obtain ⟨text, rfl, hfield⟩ := scanField_eq_some.mp hscan
        have hlen : (text ++ rest').length - rest'.length = text.length := by
          rw [List.length_append]
          omega
        rw [hlen] at h
        split at h
        · exact nomatch h
        · next st₁ hst₁ =>
          have hsum := Scan.record_haveChecksum hst₁
          rw [hbefore, Bool.false_or] at hsum
          split_ifs at h with hdone
          · obtain rfl := Except.ok.inj h
            rw [hdone] at hsum
            refine ⟨[], ⟨text, f, hfield⟩, rest', rfl, of_decide_eq_true hsum.symm,
              fun i hi => (nomatch hi), ?_⟩
            simp only [List.nil_append, recordAll, hst₁]
          · have hnot := eq_false_of_ne_true hdone
            rw [hnot] at hsum
            obtain ⟨items, last, rest'', hrest, htag, hother, hall⟩ := ih h hnot
            refine ⟨⟨text, f, hfield⟩ :: items, last, rest'', ?_, htag, ?_, ?_⟩
            · rw [hrest, textOf_cons, List.append_assoc]
            · intro i hi
              rcases List.mem_cons.mp hi with rfl | hi
              · exact of_decide_eq_false hsum.symm
              · exact hother i hi
            · simp only [List.cons_append, recordAll, hst₁, hall]

/-- **What the loop reads**: all fields up to the first CheckSum. -/
theorem scanLoop_complete {fuel : ℕ} {items : List Item} {last : Item} {rest' : Bytes}
    {st st' : Scan} (hfuel : items.length < fuel) (hbefore : st.haveChecksum = false)
    (htag : last.field.tag = Tag.checkSum) (hother : ∀ i ∈ items, i.field.tag ≠ Tag.checkSum)
    (hall : recordAll (items ++ [last]) st = .ok st') :
    scanLoop fuel (textOf items ++ (last.text ++ rest')) st = .ok st' := by
  have hstep : ∀ {fuel : ℕ} {i : Item} {rest : Bytes} {st st₁ : Scan},
      st.record i.field (st.pos + i.text.length) = .ok st₁ →
      scanLoop (fuel + 1) (i.text ++ rest) st =
        if st₁.haveChecksum then .ok st₁ else scanLoop fuel rest st₁ := by
    intro fuel i rest st st₁ hst₁
    have hne : i.text ++ rest ≠ [] :=
      List.append_ne_nil_of_left_ne_nil (List.ne_nil_of_length_pos i.text_pos) _
    have hlen : (i.text ++ rest).length - rest.length = i.text.length := by
      rw [List.length_append]
      omega
    rw [scanLoop, if_neg hne, scanField_eq_some.mpr ⟨i.text, rfl, i.isField⟩]
    simp only [hlen, hst₁]
  induction items generalizing fuel st with
  | nil =>
    obtain ⟨fuel, rfl⟩ : ∃ n, fuel = n + 1 := ⟨fuel - 1, by omega⟩
    obtain ⟨st₁, hst₁, heq⟩ := recordAll_cons_ok hall
    obtain rfl := Except.ok.inj heq
    rw [textOf_nil, List.nil_append, hstep hst₁, Scan.record_haveChecksum hst₁, htag]
    simp
  | cons i items ih =>
    obtain ⟨fuel, rfl⟩ : ∃ n, fuel = n + 1 := ⟨fuel - 1, by simp only [List.length_cons] at hfuel; omega⟩
    obtain ⟨st₁, hst₁, hrest⟩ := recordAll_cons_ok hall
    have hsum := Scan.record_haveChecksum hst₁
    rw [hbefore, decide_eq_false (hother i List.mem_cons_self), Bool.false_or] at hsum
    rw [textOf_cons, List.append_assoc, hstep hst₁, hsum, if_neg (by decide)]
    exact ih (by simp only [List.length_cons] at hfuel; omega) hsum
      (fun j hj => hother j (List.mem_cons_of_mem _ hj)) hrest

/-! ## The recorded fields -/

/-- **The body** is recorded as long as there is room. -/
theorem recordAll_body {items : List Item} {st st' : Scan} (hlen : 2 ≤ st.fields.length)
    (hmax : st.fields.length ≤ kMaxFields) (hother : ∀ i ∈ items, i.field.tag ≠ Tag.checkSum) :
    recordAll items st = .ok st' ↔
      st.fields.length + items.length ≤ kMaxFields ∧
      st' = { st with
        fields := st.fields ++ items.map Item.field
        pos := st.pos + (textOf items).length } := by
  induction items generalizing st with
  | nil => simp [recordAll, hmax, eq_comm]
  | cons i items ih =>
    have hone : st.fields.length ≠ 1 := by omega
    have hzero : st.fields.length ≠ 0 := by omega
    have hnoted : st.noted i.field (st.pos + i.text.length) =
        { st with fields := st.fields ++ [i.field], pos := st.pos + i.text.length } := by
      simp [Scan.noted, hother i List.mem_cons_self]
    have hlen₁ : (st.fields ++ [i.field]).length = st.fields.length + 1 := by simp
    by_cases hfull : st.fields.length = kMaxFields
    · refine ⟨fun h => ?_, fun h => ?_⟩
      · obtain ⟨st₁, hst₁, -⟩ := recordAll_cons_ok h
        exact absurd hfull (Scan.record_eq_ok.mp hst₁).1
      · have hroom := h.1
        simp only [List.length_cons] at hroom
        omega
    · have hst₁ : st.record i.field (st.pos + i.text.length) =
          .ok { st with fields := st.fields ++ [i.field], pos := st.pos + i.text.length } :=
        Scan.record_eq_ok.mpr ⟨hfull, fun hc => absurd hc hzero, fun _ => hnoted.symm,
          fun hc => absurd hc hone⟩
      have hrest := @ih { st with fields := st.fields ++ [i.field], pos := st.pos + i.text.length }
        (by simp only [hlen₁]; omega) (by simp only [hlen₁]; omega)
        (fun j hj => hother j (List.mem_cons_of_mem _ hj))
      rw [recordAll, hst₁]
      simp only [hrest, hlen₁]
      simp only [List.length_cons, List.map_cons, textOf_cons, List.length_append, List.append_assoc,
        List.cons_append, List.nil_append, Nat.add_assoc, Nat.add_comm 1]

/-- What the loop leaves behind a whole message. -/
def scanned (first second : Item) (body : List Item) (sum : Item) (len : ℕ) : Scan where
  fields := first.field :: second.field :: (body.map Item.field ++ [sum.field])
  pos := first.text.length + second.text.length + (textOf body).length + sum.text.length
  bodyStart := first.text.length + second.text.length
  checksumAt := first.text.length + second.text.length + (textOf body).length
  declaredLen := len
  haveLen := true
  haveChecksum := true

/-- BeginString and BodyLength come first. -/
theorem recordAll_header {first second : Item} {items : List Item} {st' : Scan} :
    recordAll (first :: second :: items) {} = .ok st' ↔
      first.field.tag = Tag.beginString ∧ second.field.tag = Tag.bodyLength ∧
      ∃ len, fromChars (2 ^ 64) second.field.value = some (len, []) ∧
        recordAll items
          { fields := [first.field, second.field]
            pos := first.text.length + second.text.length
            bodyStart := first.text.length + second.text.length
            declaredLen := len
            haveLen := true } = .ok st' := by
  have hfirst : ∀ st, ({} : Scan).record first.field (({} : Scan).pos + first.text.length) = .ok st ↔
      first.field.tag = Tag.beginString ∧
        st = { fields := [first.field], pos := first.text.length } := by
    intro st
    rw [Scan.record_eq_ok]
    constructor
    · rintro ⟨-, htag, hst, -⟩
      refine ⟨htag rfl, ?_⟩
      rw [hst (by decide)]
      simp [Scan.noted, htag rfl, Tag.beginString, Tag.checkSum]
    · rintro ⟨htag, rfl⟩
      refine ⟨by decide, fun _ => htag, fun _ => ?_, fun hc => (nomatch hc)⟩
      simp [Scan.noted, htag, Tag.beginString, Tag.checkSum]
  have hsecond : ∀ st, ({ fields := [first.field], pos := first.text.length } : Scan).record
      second.field (first.text.length + second.text.length) = .ok st ↔
      second.field.tag = Tag.bodyLength ∧ ∃ len,
        fromChars (2 ^ 64) second.field.value = some (len, []) ∧
        st = { fields := [first.field, second.field]
               pos := first.text.length + second.text.length
               bodyStart := first.text.length + second.text.length
               declaredLen := len
               haveLen := true } := by
    intro st
    rw [Scan.record_eq_ok]
    constructor
    · rintro ⟨-, -, -, hst⟩
      obtain ⟨htag, len, hchars, rfl⟩ := hst rfl
      refine ⟨htag, len, hchars, ?_⟩
      simp [Scan.noted, htag, Tag.bodyLength, Tag.checkSum]
    · rintro ⟨htag, len, hchars, rfl⟩
      refine ⟨show 1 ≠ 64 by decide, fun hc => (nomatch hc), fun hc => absurd rfl hc,
        fun _ => ⟨htag, len, hchars, ?_⟩⟩
      simp [Scan.noted, htag, Tag.bodyLength, Tag.checkSum]
  constructor
  · intro h
    obtain ⟨st₁, hst₁, h⟩ := recordAll_cons_ok h
    obtain ⟨htag, rfl⟩ := (hfirst st₁).mp hst₁
    obtain ⟨st₂, hst₂, h⟩ := recordAll_cons_ok h
    obtain ⟨htag', len, hchars, rfl⟩ := (hsecond st₂).mp hst₂
    exact ⟨htag, htag', len, hchars, h⟩
  · rintro ⟨htag, htag', len, hchars, h⟩
    rw [recordAll, (hfirst _).mpr ⟨htag, rfl⟩]
    simp only [recordAll, (hsecond _).mpr ⟨htag', len, hchars, rfl⟩]
    exact h

/-- The CheckSum ends the message. -/
theorem recordAll_last {last : Item} {st st' : Scan} (htag : last.field.tag = Tag.checkSum)
    (hlen : 2 ≤ st.fields.length) :
    recordAll [last] st = .ok st' ↔ st.fields.length ≠ kMaxFields ∧
      st' = { st with
        fields := st.fields ++ [last.field]
        pos := st.pos + last.text.length
        checksumAt := st.pos
        haveChecksum := true } := by
  have hnoted : st.noted last.field (st.pos + last.text.length) = { st with
      fields := st.fields ++ [last.field]
      pos := st.pos + last.text.length
      checksumAt := st.pos
      haveChecksum := true } := by
    simp [Scan.noted, htag]
  rw [← hnoted]
  constructor
  · intro h
    obtain ⟨st₁, hst₁, heq⟩ := recordAll_cons_ok h
    obtain rfl := Except.ok.inj heq
    obtain ⟨hmax, -, hst, -⟩ := Scan.record_eq_ok.mp hst₁
    exact ⟨hmax, hst (by omega)⟩
  · rintro ⟨hmax, rfl⟩
    rw [recordAll, Scan.record_eq_ok.mpr
      ⟨hmax, fun hc => by omega, fun _ => rfl, fun hc => by omega⟩]
    rfl

/-- **A whole message** is recorded. -/
theorem recordAll_message {items : List Item} {last : Item} {st' : Scan}
    (htag : last.field.tag = Tag.checkSum) (hother : ∀ i ∈ items, i.field.tag ≠ Tag.checkSum) :
    recordAll (items ++ [last]) {} = .ok st' ↔
      ∃ first second body len, items = first :: second :: body ∧
        first.field.tag = Tag.beginString ∧ second.field.tag = Tag.bodyLength ∧
        fromChars (2 ^ 64) second.field.value = some (len, []) ∧ body.length + 3 ≤ kMaxFields ∧
        st' = scanned first second body last len := by
  have hlast : ∀ {first second : Item} {body : List Item} {len : ℕ},
      (∀ i ∈ body, i.field.tag ≠ Tag.checkSum) →
      (recordAll (body ++ [last])
        { fields := [first.field, second.field]
          pos := first.text.length + second.text.length
          bodyStart := first.text.length + second.text.length
          declaredLen := len
          haveLen := true } = .ok st' ↔
        body.length + 3 ≤ kMaxFields ∧ st' = scanned first second body last len) := by
    intro first second body len hbody
    rw [recordAll_append]
    constructor
    · rintro ⟨st₁, hst₁, hst'⟩
      obtain ⟨hroom, rfl⟩ := (recordAll_body (by simp) (by simp [kMaxFields]) hbody).mp hst₁
      obtain ⟨hfull, rfl⟩ := (recordAll_last htag (by simp)).mp hst'
      simp only [List.length_append, List.length_cons, List.length_nil, List.length_map] at hroom hfull
      exact ⟨by omega, by simp [scanned]⟩
    · rintro ⟨hfew, rfl⟩
      refine ⟨_, (recordAll_body (by simp) (by simp [kMaxFields]) hbody).mpr ⟨?_, rfl⟩, ?_⟩
      · simp only [List.length_cons, List.length_nil]
        omega
      · refine (recordAll_last htag (by simp)).mpr ⟨?_, by simp [scanned]⟩
        simp only [List.length_append, List.length_cons, List.length_nil, List.length_map]
        omega
  constructor
  · intro h
    match items with
    | [] =>
      obtain ⟨st₁, hst₁, -⟩ := recordAll_cons_ok h
      have hbegin := (Scan.record_eq_ok.mp hst₁).2.1 rfl
      rw [htag] at hbegin
      exact nomatch hbegin
    | [first] =>
      obtain ⟨-, hlen, -⟩ := recordAll_header.mp h
      rw [htag] at hlen
      exact nomatch hlen
    | first :: second :: body =>
      obtain ⟨hbegin, hlen, len, hchars, h⟩ := recordAll_header.mp h
      obtain ⟨hfew, hst⟩ := (hlast fun i hi =>
        hother i (List.mem_cons_of_mem _ (List.mem_cons_of_mem _ hi))).mp h
      exact ⟨first, second, body, len, rfl, hbegin, hlen, hchars, hfew, hst⟩
  · rintro ⟨first, second, body, len, rfl, hbegin, hlen, hchars, hfew, hst⟩
    refine recordAll_header.mpr ⟨hbegin, hlen, len, hchars, (hlast fun i hi => ?_).mpr ⟨hfew, hst⟩⟩
    exact hother i (List.mem_cons_of_mem _ (List.mem_cons_of_mem _ hi))

/-! ## Messages -/

/-- A buffer whose size a `size_t` holds. -/
structure Buffer where
  bytes : Bytes
  fits : bytes.length < 2 ^ 64

/-- The sum of some bytes. -/
def byteSum (bs : Bytes) : ℕ := (bs.map UInt8.toNat).sum

/-- `checksum` is the sum of the bytes modulo 256. -/
theorem checksum_eq (bs : Bytes) : checksum bs = byteSum bs % 256 := by
  have hfold : ∀ (bs : Bytes) (n : ℕ),
      bs.foldl (fun sum b => (sum + b.toNat) % 2 ^ 32) n % 256 = (n + byteSum bs) % 256 := by
    intro bs
    induction bs with
    | nil => intro n; rfl
    | cons b bs ih =>
      intro n
      rw [List.foldl_cons, ih]
      simp only [byteSum, List.map_cons, List.sum_cons]
      omega
  rw [checksum, hfold, Nat.zero_add]

/-- **The layout of a message** at the front of a buffer: BeginString, BodyLength, a body of the
declared length, CheckSum, and what follows it. -/
structure Layout (buf : Bytes) where
  first : Item
  second : Item
  body : List Item
  sum : Item
  rest : Bytes
  first_tag : first.field.tag = Tag.beginString
  second_tag : second.field.tag = Tag.bodyLength
  sum_tag : sum.field.tag = Tag.checkSum
  body_tag : ∀ i ∈ body, i.field.tag ≠ Tag.checkSum
  few : body.length + 3 ≤ kMaxFields
  numeral : IsNumeral second.field.value
  declared : digitsVal second.field.value = (textOf body).length
  buf_eq : buf = first.text ++ (second.text ++ (textOf body ++ (sum.text ++ rest)))

namespace Layout

variable {buf : Bytes}

/-- The fields of the message, in order. -/
def fields (l : Layout buf) : List Field :=
  l.first.field :: l.second.field :: (l.body.map Item.field ++ [l.sum.field])

/-- The bytes in front of the CheckSum. -/
def covered (l : Layout buf) : Bytes := l.first.text ++ (l.second.text ++ textOf l.body)

/-- The covered bytes, the CheckSum and the rest are the buffer. -/
theorem covered_append (l : Layout buf) : buf = l.covered ++ (l.sum.text ++ l.rest) := by
  rw [covered, List.append_assoc, List.append_assoc]
  exact l.buf_eq

end Layout

/-- The number at the front of the three bytes of a CheckSum. -/
def LooseSum (value : Bytes) (sum : ℕ) : Prop :=
  value.length = 3 ∧ ∃ rest, fromChars (2 ^ 32) value = some (sum, rest)

/-- `verify` once both fields were recorded. -/
theorem verify_eq {st : Scan} {buf : Bytes} (hlen : st.haveLen = true)
    (hsum : st.haveChecksum = true) :
    st.verify buf =
      if (st.checksumAt + 2 ^ 64 - st.bodyStart) % 2 ^ 64 ≠ st.declaredLen then
        .error .badBodyLength
      else if (st.fields.getLastD ⟨0, []⟩).value.length ≠ 3 then .error .badChecksum
      else match fromChars (2 ^ 32) (st.fields.getLastD ⟨0, []⟩).value with
        | none => .error .badChecksum
        | some (declared, _) =>
          if declared ≠ checksum (buf.take st.checksumAt) then .error .badChecksum
          else .ok st.fields := by
  unfold Scan.verify
  refine (if_neg (by simp [hlen])).trans ((if_neg (by simp [hsum])).trans ?_)
  refine if_congr Iff.rfl rfl (if_congr Iff.rfl rfl ?_)
  cases fromChars (2 ^ 32) (st.fields.getLastD ⟨0, []⟩).value with
  | none => rfl
  | some found => rfl

/-- The tests behind the loop. -/
theorem verify_scanned {buf : Bytes} {first second sum : Item} {body : List Item} {len : ℕ}
    {rest : Bytes} {fields : List Field} (hlen : (textOf body).length < 2 ^ 64)
    (hbuf : buf = first.text ++ (second.text ++ (textOf body ++ (sum.text ++ rest)))) :
    (scanned first second body sum len).verify buf = .ok fields ↔
      (textOf body).length = len ∧
      LooseSum sum.field.value (byteSum (first.text ++ (second.text ++ textOf body)) % 256) ∧
      fields = first.field :: second.field :: (body.map Item.field ++ [sum.field]) := by
  have hdiff : (first.text.length + second.text.length + (textOf body).length + 2 ^ 64 -
      (first.text.length + second.text.length)) % 2 ^ 64 = (textOf body).length := by
    omega
  have htake : buf.take (first.text.length + second.text.length + (textOf body).length) =
      first.text ++ (second.text ++ textOf body) := by
    have hsplit : buf = (first.text ++ (second.text ++ textOf body)) ++ (sum.text ++ rest) := by
      rw [hbuf]
      simp
    rw [hsplit]
    refine List.take_left' ?_
    simp only [List.length_append]
    omega
  have hlast : (first.field :: second.field :: (body.map Item.field ++ [sum.field])).getLastD ⟨0, []⟩ =
      sum.field := by
    rw [← List.cons_append, ← List.cons_append, List.getLastD_concat]
  rw [verify_eq rfl rfl]
  simp only [scanned, hdiff, hlast, htake, checksum_eq]
  clear hdiff hlast htake
  unfold LooseSum
  split
  · next hne => exact ⟨fun h => (nomatch h), fun h => absurd h.1 hne⟩
  · next hlength =>
    rw [not_not] at hlength
    split
    · next hthree => exact ⟨fun h => (nomatch h), fun h => absurd h.2.1.1 hthree⟩
    · next hthree =>
      rw [not_not] at hthree
      split
      · next hnone =>
        refine ⟨fun h => (nomatch h), fun h => ?_⟩
        obtain ⟨-, ⟨-, rest', hchars⟩, -⟩ := h
        exact nomatch hnone.symm.trans hchars
      · next declared rest' hchars =>
        split
        · next hsum =>
          refine ⟨fun h => (nomatch h), fun h => ?_⟩
          obtain ⟨-, ⟨-, rest'', hchars'⟩, -⟩ := h
          exact absurd (Prod.mk.inj (Option.some.inj (hchars.symm.trans hchars'))).1 hsum
        · next hsum =>
          rw [not_not] at hsum
          refine ⟨fun h => ⟨hlength, ⟨hthree, rest', ?_⟩, (Except.ok.inj h).symm⟩, fun h => ?_⟩
          · rw [hchars, hsum]
          · rw [h.2.2]

/-- **The parser accepts** a buffer if and only if a message with a loose sum is at its front. -/
theorem parse_eq_ok (buf : Buffer) (fields : List Field) :
    parse buf.bytes = .ok fields ↔
      ∃ l : Layout buf.bytes, l.fields = fields ∧
        LooseSum l.sum.field.value (byteSum l.covered % 256) := by
  have hshort : ∀ {first second sum : Item} {body : List Item} {rest : Bytes},
      buf.bytes = first.text ++ (second.text ++ (textOf body ++ (sum.text ++ rest))) →
      (textOf body).length < 2 ^ 64 := by
    intro first second sum body rest hbuf
    have hfits := buf.fits
    rw [hbuf] at hfits
    simp only [List.length_append] at hfits
    omega
  unfold parse
  constructor
  · intro h
    split at h
    · exact nomatch h
    · next st hloop =>
      have hseen : st.haveChecksum = true := by
        by_contra hc
        rw [Scan.verify, eq_false_of_ne_true hc] at h
        split at h
        · exact nomatch h
        · rw [if_pos rfl] at h
          exact nomatch h
      obtain ⟨items, sum, rest, hbuf, hsum, hother, hall⟩ := scanLoop_sound hloop rfl hseen
      obtain ⟨first, second, body, len, rfl, hfirst, hsecond, hchars, hfew, rfl⟩ :=
        (recordAll_message hsum hother).mp hall
      obtain ⟨hnum, hval, -⟩ := fromChars_eq_some_nil.mp hchars
      rw [textOf_cons, textOf_cons, List.append_assoc, List.append_assoc] at hbuf
      obtain ⟨hlen, hloose, rfl⟩ := (verify_scanned (hshort hbuf) hbuf).mp h
      refine ⟨⟨first, second, body, sum, rest, hfirst, hsecond, hsum, fun i hi => ?_, hfew, hnum,
        hval.trans hlen.symm, hbuf⟩, rfl, hloose⟩
      exact hother i (List.mem_cons_of_mem _ (List.mem_cons_of_mem _ hi))
  · rintro ⟨l, rfl, hloose⟩
    have hother : ∀ i ∈ l.first :: l.second :: l.body, i.field.tag ≠ Tag.checkSum := by
      intro i hi
      rcases List.mem_cons.mp hi with rfl | hi
      · rw [l.first_tag]
        decide
      · rcases List.mem_cons.mp hi with rfl | hi
        · rw [l.second_tag]
          decide
        · exact l.body_tag i hi
    have hchars : fromChars (2 ^ 64) l.second.field.value = some ((textOf l.body).length, []) :=
      fromChars_eq_some_nil.mpr ⟨l.numeral, l.declared, hshort l.buf_eq⟩
    have hall := (recordAll_message l.sum_tag hother).mpr
      ⟨l.first, l.second, l.body, (textOf l.body).length, rfl, l.first_tag, l.second_tag, hchars,
        l.few, rfl⟩
    have hbuf : buf.bytes = textOf (l.first :: l.second :: l.body) ++ (l.sum.text ++ l.rest) := by
      rw [textOf_cons, textOf_cons, List.append_assoc, List.append_assoc]
      exact l.buf_eq
    have hfuel : (l.first :: l.second :: l.body).length < buf.bytes.length := by
      have hle := length_le_textOf (l.first :: l.second :: l.body)
      have hpos := l.sum.text_pos
      have hlen := congrArg List.length hbuf
      rw [List.length_append, List.length_append] at hlen
      omega
    have hloop := @scanLoop_complete _ _ _ l.rest _ _ hfuel rfl l.sum_tag hother hall
    rw [← hbuf] at hloop
    rw [hloop]
    exact (verify_scanned (hshort l.buf_eq) l.buf_eq).mpr ⟨rfl, hloose, rfl⟩

/-! ## The CheckSum -/

/-- Three digits that spell the sum. -/
def StrictSum (value : Bytes) (sum : ℕ) : Prop :=
  value.length = 3 ∧ (∀ c ∈ value, isDigit c) ∧ digitsVal value = sum

/-- One or two digits that spell the sum, filled up to three bytes with something else. -/
def JunkSum (value : Bytes) (sum : ℕ) : Prop :=
  value.length = 3 ∧ ∃ ds c junk, value = ds ++ c :: junk ∧ IsNumeral ds ∧ ¬ isDigit c ∧
    digitsVal ds = sum

/-- What passes for the sum: three digits, or digits and junk. -/
theorem looseSum_iff {value : Bytes} {sum : ℕ} :
    LooseSum value sum ↔ StrictSum value sum ∨ JunkSum value sum := by
  constructor
  · rintro ⟨hlen, rest, hchars⟩
    obtain ⟨ds, hvalue, hnum, hrest, hval, -⟩ := fromChars_eq_some.mp hchars
    cases rest with
    | nil =>
      rw [List.append_nil] at hvalue
      subst hvalue
      exact .inl ⟨hlen, hnum.2, hval⟩
    | cons c junk => exact .inr ⟨hlen, ds, c, junk, hvalue, hnum, hrest c rfl, hval⟩
  · have hsmall : ∀ {ds : Bytes}, ds.length ≤ 3 → (∀ c ∈ ds, isDigit c) → digitsVal ds < 2 ^ 32 := by
      intro ds hle hdigits
      have hlt := digitsVal_lt hdigits
      have hpow : 10 ^ ds.length ≤ 10 ^ 3 := Nat.pow_le_pow_right (by decide) hle
      omega
    rintro (⟨hlen, hdigits, hval⟩ | ⟨hlen, ds, c, junk, rfl, hnum, hc, hval⟩)
    · refine ⟨hlen, [], fromChars_eq_some_nil.mpr ⟨⟨?_, hdigits⟩, hval, ?_⟩⟩
      · rintro rfl
        exact nomatch hlen
      · rw [← hval]
        exact hsmall hlen.le hdigits
    · refine ⟨hlen, c :: junk, fromChars_eq_some.mpr ⟨ds, rfl, hnum, ?_, hval, ?_⟩⟩
      · intro c' hc'
        obtain rfl : c = c' := Option.some.inj hc'
        exact hc
      · rw [List.length_append] at hlen
        rw [← hval]
        exact hsmall (by omega) hnum.2

/-- A message at the front of the buffer, with its sum in three digits. -/
def Grammar (buf : Bytes) (fields : List Field) : Prop :=
  ∃ l : Layout buf, l.fields = fields ∧ StrictSum l.sum.field.value (byteSum l.covered % 256)

/-- The last field is the CheckSum. -/
theorem Layout.getLast?_fields {buf : Bytes} (l : Layout buf) :
    l.fields.getLast? = some l.sum.field := by
  unfold Layout.fields
  rw [← List.cons_append, ← List.cons_append, List.getLast?_concat]

/-- **The parser accepts exactly its grammar** on a buffer if and only if the buffer is not a
message whose CheckSum has junk behind the digits of the right sum. -/
theorem parse_iff_grammar_iff (buf : Buffer) :
    (∀ fields, parse buf.bytes = .ok fields ↔ Grammar buf.bytes fields) ↔
      ¬ ∃ l : Layout buf.bytes, JunkSum l.sum.field.value (byteSum l.covered % 256) := by
  constructor
  · rintro hexact ⟨l, hjunk⟩
    have hparse := (parse_eq_ok buf l.fields).mpr ⟨l, rfl, looseSum_iff.mpr (.inr hjunk)⟩
    obtain ⟨l', hfields, -, hdigits, -⟩ := (hexact l.fields).mp hparse
    have hlast := l'.getLast?_fields
    rw [hfields, l.getLast?_fields] at hlast
    obtain ⟨-, ds, c, junk, hvalue, -, hc, -⟩ := hjunk
    rw [← Option.some.inj hlast, hvalue] at hdigits
    exact hc (hdigits c (List.mem_append_right _ List.mem_cons_self))
  · intro hno fields
    rw [parse_eq_ok]
    constructor
    · rintro ⟨l, hfields, hloose⟩
      refine ⟨l, hfields, (looseSum_iff.mp hloose).resolve_right fun hjunk => hno ⟨l, hjunk⟩⟩
    · rintro ⟨l, hfields, hstrict⟩
      exact ⟨l, hfields, looseSum_iff.mpr (.inl hstrict)⟩

/-- `8=|9=0|10=29x|` with the end of a field for `|`: the sum of its first two fields is 29. -/
def junkBuffer : Buffer where
  bytes := [56, 61, 1, 57, 61, 48, 1, 49, 48, 61, 50, 57, 120, 1]
  fits := by decide

/-- **Junk in the CheckSum** is accepted. -/
theorem junk_checksum_accepted :
    ¬ ∀ fields, parse junkBuffer.bytes = .ok fields ↔ Grammar junkBuffer.bytes fields := by
  intro h
  have hparse : parse junkBuffer.bytes = .ok [⟨8, []⟩, ⟨9, [48]⟩, ⟨10, [50, 57, 120]⟩] := by
    decide +kernel
  obtain ⟨l, hfields, -, hdigits, -⟩ := (h _).mp hparse
  have hlast := l.getLast?_fields
  rw [hfields] at hlast
  rw [← Option.some.inj hlast] at hdigits
  exact absurd (hdigits 120 (by decide)) (by decide)

end PulseForge.Fix
