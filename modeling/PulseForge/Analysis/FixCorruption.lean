import PulseForge.Analysis.FixGrammar

/-!
# One changed byte

A field ends at the first end-of-field byte behind it, so the fields of a message are the pieces
between these bytes. Changing one byte changes one piece, cuts one in two or joins two of them;
the pieces in front of it and behind it stay. The message is then refused by the tests of the
tags, of the BodyLength or of the CheckSum.
-/

set_option autoImplicit false

namespace PulseForge.Fix

open Foundation

/-! ## Pieces -/

/-- The text of a field is a piece, and there is a `'='` in it. -/
theorem Item.piece (i : Item) :
    ∃ w, i.text = w ++ [kSOH] ∧ kSOH ∉ w ∧ kEquals ∈ w := by
  obtain ⟨tagText, htext, hnum, -, -, -, hsoh⟩ := i.isField
  refine ⟨tagText ++ kEquals :: i.field.value, ?_, fun hc => ?_, by simp⟩
  · rw [htext]
    simp
  · rcases List.mem_append.mp hc with hc | hc
    · exact soh_notMem hnum hc
    · rcases List.mem_cons.mp hc with hc | hc
      · exact absurd hc (by decide)
      · exact hsoh hc

/-- The text of an item determines it. -/
theorem Item.ext_text {i j : Item} (h : i.text = j.text) : i = j := by
  have hi := scanField_eq_some.mpr ⟨i.text, (List.append_nil _).symm, i.isField⟩
  have hj := scanField_eq_some.mpr ⟨j.text, (List.append_nil _).symm, j.isField⟩
  rw [h] at hi
  have hfield := (Prod.mk.inj (Option.some.inj (hi.symm.trans hj))).1
  cases i
  cases j
  simp only at h hfield
  subst h hfield
  rfl

/-- **The first piece** of a text is determined. -/
theorem piece_unique {w w' t t' : Bytes} (hw : kSOH ∉ w) (hw' : kSOH ∉ w')
    (h : (w ++ [kSOH]) ++ t = (w' ++ [kSOH]) ++ t') : w = w' ∧ t = t' := by
  rw [List.append_assoc, List.append_assoc] at h
  have hw₁ := (@cut_append _ _ kSOH w t hw).1
  have hw₂ := (@cut_append _ _ kSOH w' t' hw').1
  obtain rfl : w = w' := by
    rw [← hw₁, ← hw₂]
    exact congrArg _ h
  exact ⟨rfl, List.cons.inj (List.append_cancel_left h) |>.2⟩

/-- A text begins with one item only. -/
theorem Item.text_unique {i : Item} {w t t' : Bytes} (hw : kSOH ∉ w)
    (h : i.text ++ t = (w ++ [kSOH]) ++ t') : i.text = w ++ [kSOH] ∧ t = t' := by
  obtain ⟨w₀, htext, hw₀, -⟩ := i.piece
  rw [htext] at h ⊢
  obtain ⟨rfl, rfl⟩ := piece_unique hw₀ hw h
  exact ⟨rfl, rfl⟩

/-- An item has an equals sign. -/
theorem count_equals_pos {i : Item} {w : Bytes} (h : i.text = w ++ [kSOH]) :
    0 < w.count kEquals := by
  obtain ⟨w', hw', -, hmem⟩ := i.piece
  obtain rfl : w' = w := List.append_cancel_right (hw'.symm.trans h)
  exact List.count_pos_iff.mpr hmem

/-- Fields up to the first CheckSum. -/
inductive Ends : List Item → Prop where
  | last (i : Item) (h : i.field.tag = Tag.checkSum) : Ends [i]
  | cons (i : Item) {items : List Item} (h : i.field.tag ≠ Tag.checkSum) (hrest : Ends items) :
    Ends (i :: items)

/-- The message ends with its CheckSum. -/
theorem Ends.of_append {items : List Item} {last : Item}
    (hother : ∀ i ∈ items, i.field.tag ≠ Tag.checkSum) (htag : last.field.tag = Tag.checkSum) :
    Ends (items ++ [last]) := by
  induction items with
  | nil => exact .last last htag
  | cons i items ih =>
    exact .cons i (hother i List.mem_cons_self) (ih fun j hj => hother j (List.mem_cons_of_mem _ hj))

/-- A message that ends has a last item. -/
theorem Ends.eq_append {items : List Item} (h : Ends items) :
    ∃ init last, items = init ++ [last] := by
  induction h with
  | last i _ => exact ⟨[], i, rfl⟩
  | cons i _ _ ih =>
    obtain ⟨init, last, rfl⟩ := ih
    exact ⟨i :: init, last, rfl⟩

/-- **The same bytes have the same fields.** -/
theorem Ends.unique {items items' : List Item} {rest rest' : Bytes} (h : Ends items)
    (h' : Ends items') (heq : textOf items ++ rest = textOf items' ++ rest') :
    items = items' ∧ rest = rest' := by
  have hhead : ∀ {i i' : Item} {t t' : Bytes}, i.text ++ t = i'.text ++ t' → i = i' ∧ t = t' := by
    intro i i' t t' htext
    obtain ⟨w', hw', hsoh', -⟩ := i'.piece
    rw [hw'] at htext
    obtain ⟨hi, ht⟩ := Item.text_unique hsoh' htext
    exact ⟨Item.ext_text (hi.trans hw'.symm), ht⟩
  induction h generalizing items' with
  | last i htag =>
    cases h' with
    | last i' htag' =>
      simp only [textOf_cons, textOf_nil, List.append_nil] at heq
      obtain ⟨rfl, rfl⟩ := hhead heq
      exact ⟨rfl, rfl⟩
    | cons i' htag' hrest' =>
      simp only [textOf_cons, textOf_nil, List.append_nil, List.append_assoc] at heq
      obtain ⟨rfl, -⟩ := hhead heq
      exact absurd htag htag'
  | cons i htag hrest ih =>
    cases h' with
    | last i' htag' =>
      simp only [textOf_cons, textOf_nil, List.append_nil, List.append_assoc] at heq
      obtain ⟨rfl, -⟩ := hhead heq
      exact absurd htag' htag
    | cons i' htag' hrest' =>
      simp only [textOf_cons, List.append_assoc] at heq
      obtain ⟨rfl, hmore⟩ := hhead heq
      obtain ⟨rfl, rfl⟩ := ih hrest' hmore
      exact ⟨rfl, rfl⟩

/-- **The fields in front of a change** are read again. -/
theorem Ends.split {pre items : List Item} {rest tail : Bytes} (h : Ends items)
    (hpre : ∀ i ∈ pre, i.field.tag ≠ Tag.checkSum) (heq : textOf items ++ rest = textOf pre ++ tail) :
    ∃ items', items = pre ++ items' ∧ Ends items' ∧ textOf items' ++ rest = tail := by
  induction pre generalizing items with
  | nil => exact ⟨items, rfl, h, by simpa using heq⟩
  | cons p pre ih =>
    have hp := hpre p List.mem_cons_self
    obtain ⟨w, hw, hsoh, -⟩ := p.piece
    cases h with
    | last i htag =>
      simp only [textOf_cons, textOf_nil, List.append_nil, List.append_assoc] at heq
      rw [hw] at heq
      obtain ⟨hi, -⟩ := Item.text_unique hsoh heq
      obtain rfl : i = p := Item.ext_text (hi.trans hw.symm)
      exact absurd htag hp
    | cons i htag hrest =>
      simp only [textOf_cons, List.append_assoc] at heq
      rw [hw] at heq
      obtain ⟨hi, hmore⟩ := Item.text_unique hsoh heq
      obtain rfl : i = p := Item.ext_text (hi.trans hw.symm)
      obtain ⟨items', rfl, hends, htail⟩ :=
        ih hrest (fun j hj => hpre j (List.mem_cons_of_mem _ hj)) hmore
      exact ⟨items', rfl, hends, htail⟩

/-- **One byte of a piece is changed**: it is another piece, it is cut in two, or it lost its
end. -/
theorem set_piece {w : Bytes} {j : ℕ} {b : UInt8} (hw : kSOH ∉ w) (hj : j < (w ++ [kSOH]).length)
    (hne : (w ++ [kSOH]).getD j 0 ≠ b) :
    (∃ w', kSOH ∉ w' ∧ (w ++ [kSOH]).set j b = w' ++ [kSOH]) ∨
    (∃ u c v, w = u ++ c :: v ∧ (w ++ [kSOH]).set j b = (u ++ [kSOH]) ++ (v ++ [kSOH])) ∨
    (b ≠ kSOH ∧ (w ++ [kSOH]).set j b = w ++ [b]) := by
  rw [List.length_append, List.length_singleton] at hj
  rcases Nat.lt_succ_iff_lt_or_eq.mp hj with hlt | rfl
  · have hset : (w ++ [kSOH]).set j b = w.set j b ++ [kSOH] := List.set_append_left j b hlt
    by_cases hb : b = kSOH
    · subst hb
      refine .inr (.inl ⟨w.take j, w[j], w.drop (j + 1), ?_, ?_⟩)
      · rw [List.getElem_cons_drop, List.take_append_drop]
      · rw [hset, List.set_eq_take_append_cons_drop, if_pos hlt]
        simp
    · refine .inl ⟨w.set j b, fun hc => ?_, hset⟩
      rcases List.mem_or_eq_of_mem_set hc with hc | hc
      · exact hw hc
      · exact hb hc.symm
  · have hset : (w ++ [kSOH]).set w.length b = w ++ [b] := by simp
    refine .inr (.inr ⟨?_, hset⟩)
    rintro rfl
    simp at hne

/-! ## Two messages -/

namespace Layout

variable {buf buf' : Bytes}

/-- All fields of the message. -/
def items (l : Layout buf) : List Item := (l.first :: l.second :: l.body) ++ [l.sum]

/-- No item in front of the last is a CheckSum. -/
theorem front_tag (l : Layout buf) :
    ∀ i ∈ l.first :: l.second :: l.body, i.field.tag ≠ Tag.checkSum := by
  intro i hi
  rcases List.mem_cons.mp hi with rfl | hi
  · rw [l.first_tag]
    decide
  · rcases List.mem_cons.mp hi with rfl | hi
    · rw [l.second_tag]
      decide
    · exact l.body_tag i hi

/-- The items of a message end with its CheckSum. -/
theorem ends (l : Layout buf) : Ends l.items :=
  Ends.of_append l.front_tag l.sum_tag

/-- The bytes that the CheckSum covers. -/
theorem covered_eq (l : Layout buf) : l.covered = textOf (l.first :: l.second :: l.body) := by
  rw [textOf_cons, textOf_cons]
  rfl

/-- The items and the rest are the buffer. -/
theorem textOf_items (l : Layout buf) : textOf l.items ++ l.rest = buf := by
  rw [items, textOf_append, textOf_cons l.sum, textOf_nil, List.append_nil, List.append_assoc,
    ← l.covered_eq]
  exact l.covered_append.symm

/-- A message has at least three items. -/
theorem three_le (l : Layout buf) : 3 ≤ l.items.length := by
  simp only [items, List.length_append, List.length_cons, List.length_nil]
  omega

/-- What is in front of the last field. -/
theorem covered_of_items (l : Layout buf) {init : List Item} {last : Item}
    (h : l.items = init ++ [last]) : l.covered = textOf init := by
  rw [l.covered_eq]
  exact congrArg textOf (List.append_inj' h rfl).1

/-- **The same BodyLength** gives the same place to the CheckSum. -/
theorem covered_length_eq (l : Layout buf) (l' : Layout buf') {pre more more' : List Item}
    (hpre : 2 ≤ pre.length) (h : l.items = pre ++ more) (h' : l'.items = pre ++ more') :
    l'.covered.length = l.covered.length := by
  match pre with
  | first :: second :: pre =>
    have hone : l.first = first := (List.cons.inj h).1
    have htwo : l.second = second := (List.cons.inj (List.cons.inj h).2).1
    have hone' : l'.first = first := (List.cons.inj h').1
    have htwo' : l'.second = second := (List.cons.inj (List.cons.inj h').2).1
    have hlen := l.declared
    have hlen' := l'.declared
    rw [htwo] at hlen
    rw [htwo'] at hlen'
    unfold covered
    rw [hone, htwo, hone', htwo']
    simp only [List.length_append]
    omega

/-- There is one `'='` in the BodyLength. -/
theorem count_second (l : Layout buf) {w : Bytes} (h : l.second.text = w ++ [kSOH]) :
    w.count kEquals = 1 := by
  obtain ⟨tagText, htext, hnum, -⟩ := l.second.isField
  obtain rfl : w = tagText ++ kEquals :: l.second.field.value := by
    refine @List.append_cancel_right _ w [kSOH] _ ?_
    rw [← h, htext]
    simp
  rw [List.count_append, List.count_cons_self, List.count_eq_zero.mpr (equals_notMem hnum),
    List.count_eq_zero.mpr (equals_notMem l.numeral)]

/-- The sum after one byte changed. -/
theorem byteSum_set {bs : Bytes} {i : ℕ} (hi : i < bs.length) (b : UInt8) :
    byteSum (bs.set i b) + (bs.getD i 0).toNat = byteSum bs + b.toNat := by
  induction bs generalizing i with
  | nil => exact absurd hi (Nat.not_lt_zero _)
  | cons c bs ih =>
    cases i with
    | zero =>
      simp only [List.set_cons_zero, byteSum, List.map_cons, List.sum_cons, List.getD_cons_zero]
      omega
    | succ i =>
      have hrest := ih (Nat.lt_of_succ_lt_succ hi)
      simp only [byteSum] at hrest
      simp only [List.set_cons_succ, byteSum, List.map_cons, List.sum_cons, List.getD_cons_succ]
      omega

/-- **The same fields behind the change**: then the sum is wrong. -/
theorem false_of_resync {i : ℕ} {b : UInt8} (l : Layout buf) (l' : Layout buf')
    (hset : buf' = buf.set i b) (hloose : LooseSum l.sum.field.value (byteSum l.covered % 256))
    (hloose' : LooseSum l'.sum.field.value (byteSum l'.covered % 256)) (hi : i < l.covered.length)
    (hne : buf.getD i 0 ≠ b) {front front' post post' : List Item} (hitems : l.items = front ++ post)
    (hitems' : l'.items = front' ++ post') (hends : Ends post) (hends' : Ends post')
    (heq : textOf post' ++ l'.rest = textOf post ++ l.rest) : False := by
  obtain ⟨rfl, hrest⟩ := hends'.unique hends heq
  have hlast : ∀ {buf₀ : Bytes} (l₀ : Layout buf₀) {front₀ : List Item},
      l₀.items = front₀ ++ post' → post'.getLast? = some l₀.sum := by
    intro buf₀ l₀ front₀ hitems₀
    have hget : l₀.items.getLast? = some l₀.sum := List.getLast?_concat
    rw [hitems₀, List.getLast?_append_of_ne_nil _ (by rintro rfl; cases hends)] at hget
    exact hget
  have hsum : l'.sum = l.sum := Option.some.inj ((hlast l' hitems').symm.trans (hlast l hitems))
  have hbuf := l.covered_append
  have hcovered : l'.covered = l.covered.set i b := by
    have hbuf' := l'.covered_append
    rw [hsum, hrest] at hbuf'
    refine @List.append_cancel_right _ _ (l.sum.text ++ l.rest) _ ?_
    calc l'.covered ++ (l.sum.text ++ l.rest) = buf.set i b := hbuf'.symm.trans hset
      _ = (l.covered ++ (l.sum.text ++ l.rest)).set i b := congrArg (fun t => t.set i b) hbuf
      _ = l.covered.set i b ++ (l.sum.text ++ l.rest) := List.set_append_left i b hi
  have hbyte : buf.getD i 0 = l.covered.getD i 0 := by
    refine (congrArg (fun t => t.getD i 0) hbuf).trans ?_
    simp only [List.getD_eq_getElem?_getD, List.getElem?_append_left hi]
  obtain ⟨-, r, hchars⟩ := hloose
  obtain ⟨-, r', hchars'⟩ := hloose'
  rw [hsum, hcovered] at hchars'
  have hsame := (Prod.mk.inj (Option.some.inj (hchars.symm.trans hchars'))).1
  have hsums := byteSum_set hi b
  have hb := b.toNat_lt
  have hc := (l.covered.getD i 0).toNat_lt
  refine hne (UInt8.toNat_inj.mp ?_)
  rw [hbyte]
  omega

end Layout

/-- The field in which a byte is. -/
theorem exists_item {items : List Item} {i : ℕ} (h : i < (textOf items).length) :
    ∃ pre it post j, items = pre ++ it :: post ∧ i = (textOf pre).length + j ∧
      j < it.text.length := by
  induction items generalizing i with
  | nil => exact absurd h (Nat.not_lt_zero _)
  | cons it items ih =>
    by_cases hhere : i < it.text.length
    · exact ⟨[], it, items, i, rfl, by simp, hhere⟩
    · rw [textOf_cons, List.length_append] at h
      obtain ⟨pre, it', post, j, rfl, hij, hj⟩ := ih (i := i - it.text.length) (by omega)
      refine ⟨it :: pre, it', post, j, rfl, ?_, hj⟩
      rw [textOf_cons, List.length_append]
      omega

namespace Layout

variable {buf buf' : Bytes}

/-- What is in front of the CheckSum, when the change is in `it`. -/
theorem covered_length_of_items (l : Layout buf) {pre post : List Item} {it last : Item}
    (hitems : l.items = pre ++ it :: (post ++ [last])) :
    l.covered.length = (textOf pre).length + (it.text.length + (textOf post).length) := by
  have hsplit : l.items = (pre ++ it :: post) ++ [last] := by
    rw [hitems]
    simp
  rw [l.covered_of_items hsplit, textOf_append, textOf_cons, List.length_append,
    List.length_append]

/-- A message that ends in the field of the change is too short. -/
theorem false_of_short (l : Layout buf) (l' : Layout buf') {pre post : List Item}
    {it last it' : Item} (hitems : l.items = pre ++ it :: (post ++ [last]))
    (hitems' : l'.items = pre ++ [it']) : False := by
  have hlen := l'.three_le
  rw [hitems', List.length_append, List.length_singleton] at hlen
  have hsame := l.covered_length_eq l' (by omega) hitems hitems'
  have hpos := it.text_pos
  rw [l'.covered_of_items hitems', l.covered_length_of_items hitems] at hsame
  omega

/-- A field that is cut in two ends the message too early. -/
theorem false_of_cut (l : Layout buf) (l' : Layout buf') {pre post : List Item}
    {it last it₁ it₂ : Item} {u v : Bytes} {c : UInt8}
    (hitems : l.items = pre ++ it :: (post ++ [last]))
    (hit : it.text = (u ++ c :: v) ++ [kSOH]) (hitems' : l'.items = pre ++ [it₁, it₂])
    (hit₁ : it₁.text = u ++ [kSOH]) (hit₂ : it₂.text = v ++ [kSOH]) : False := by
  have hlen := l'.three_le
  rw [hitems', List.length_append] at hlen
  simp only [List.length_cons, List.length_nil] at hlen
  by_cases hpre : 2 ≤ pre.length
  · have hsame := l.covered_length_eq l' hpre hitems hitems'
    have hsplit' : l'.items = (pre ++ [it₁]) ++ [it₂] := by
      rw [hitems']
      simp
    rw [l'.covered_of_items hsplit', l.covered_length_of_items hitems, textOf_append, textOf_cons,
      textOf_nil, hit₁, hit] at hsame
    simp only [List.length_append, List.length_cons, List.length_nil] at hsame
    omega
  · -- the field is the BodyLength, which has one '=' only
    obtain ⟨first, rfl⟩ := List.length_eq_one_iff.mp (show pre.length = 1 by omega)
    have hsecond : l.second = it := (List.cons.inj (List.cons.inj hitems).2).1
    have hcount := l.count_second (hsecond ▸ hit)
    have hone := count_equals_pos hit₁
    have htwo := count_equals_pos hit₂
    rw [List.count_append, List.count_cons] at hcount
    omega

/-- A field that lost its end swallows the CheckSum. -/
theorem false_of_join (l : Layout buf) (l' : Layout buf') {pre post' : List Item} {it last it' : Item}
    {w w' : Bytes} {b : UInt8} (hitems : l.items = pre ++ [it, last])
    (hit : it.text = w ++ [kSOH]) (hlast : last.text = w' ++ [kSOH])
    (hitems' : l'.items = pre ++ it' :: post') (hends' : Ends post')
    (hit' : it'.text = (w ++ b :: w') ++ [kSOH]) : False := by
  have hlen := l.three_le
  rw [hitems, List.length_append] at hlen
  simp only [List.length_cons, List.length_nil] at hlen
  by_cases hpre : 2 ≤ pre.length
  · have hsame := l.covered_length_eq l' hpre hitems hitems'
    obtain ⟨init, last', rfl⟩ := hends'.eq_append
    rw [l'.covered_length_of_items hitems', @covered_length_of_items _ l _ [] _ _ hitems, hit,
      hit'] at hsame
    simp only [List.length_append, List.length_cons, List.length_nil, textOf_nil] at hsame
    omega
  · obtain ⟨first, rfl⟩ := List.length_eq_one_iff.mp (show pre.length = 1 by omega)
    have hsecond : l'.second = it' := (List.cons.inj (List.cons.inj hitems').2).1
    have hcount := l'.count_second (hsecond ▸ hit')
    have hone := count_equals_pos hit
    have htwo := count_equals_pos hlast
    rw [List.count_append, List.count_cons] at hcount
    omega

/-- The message with one byte of the field `it` changed. -/
theorem set_eq (l : Layout buf) {pre post : List Item} {it : Item} {j : ℕ} {b : UInt8}
    (hitems : l.items = pre ++ it :: post) (hj : j < it.text.length) :
    buf.set ((textOf pre).length + j) b =
      textOf pre ++ (it.text.set j b ++ (textOf post ++ l.rest)) := by
  have hbuf : buf = textOf pre ++ (it.text ++ (textOf post ++ l.rest)) := by
    refine l.textOf_items.symm.trans ?_
    rw [hitems, textOf_append, textOf_cons, List.append_assoc, List.append_assoc]
  refine (congrArg (fun t => t.set ((textOf pre).length + j) b) hbuf).trans ?_
  rw [List.set_append_right _ _ (Nat.le_add_right _ _), Nat.add_sub_cancel_left,
    List.set_append_left _ _ hj]

/-- A byte of an item, in the buffer. -/
theorem getD_eq (l : Layout buf) {pre post : List Item} {it : Item} {j : ℕ}
    (hitems : l.items = pre ++ it :: post) (hj : j < it.text.length) :
    buf.getD ((textOf pre).length + j) 0 = it.text.getD j 0 := by
  have hbuf : buf = textOf pre ++ (it.text ++ (textOf post ++ l.rest)) := by
    refine l.textOf_items.symm.trans ?_
    rw [hitems, textOf_append, textOf_cons, List.append_assoc, List.append_assoc]
  refine (congrArg (fun t => t.getD ((textOf pre).length + j) 0) hbuf).trans ?_
  simp only [List.getD_eq_getElem?_getD]
  rw [List.getElem?_append_right (Nat.le_add_right _ _), Nat.add_sub_cancel_left,
    List.getElem?_append_left hj]

/-- **No message is left** when one byte in front of the CheckSum is changed. -/
theorem false_of_set {i : ℕ} {b : UInt8} (l : Layout buf) (l' : Layout buf')
    (hset : buf' = buf.set i b) (hloose : LooseSum l.sum.field.value (byteSum l.covered % 256))
    (hloose' : LooseSum l'.sum.field.value (byteSum l'.covered % 256)) (hi : i < l.covered.length)
    (hne : buf.getD i 0 ≠ b) : False := by
  have hplace := hi
  rw [l.covered_eq] at hplace
  obtain ⟨pre, it, post, j, hfront, rfl, hj⟩ := exists_item hplace
  have hitems : l.items = pre ++ it :: (post ++ [l.sum]) := by
    rw [items, hfront]
    simp
  have hother : ∀ k ∈ pre ++ it :: post, k.field.tag ≠ Tag.checkSum := by
    rw [← hfront]
    exact l.front_tag
  have hpost : Ends (post ++ [l.sum]) :=
    Ends.of_append (fun k hk => hother k (by simp [hk])) l.sum_tag
  -- the fields in front of the change are read again
  obtain ⟨items', hitems', hends', htail⟩ := l'.ends.split (fun k hk => hother k (by simp [hk]))
    (l'.textOf_items.trans (hset.trans (l.set_eq hitems hj)))
  have hsync : ∀ (front front' : List Item) {more more' : List Item}, l.items = front ++ more →
      l'.items = front' ++ more' → Ends more → Ends more' →
      textOf more' ++ l'.rest = textOf more ++ l.rest → False := fun _ _ =>
    l.false_of_resync l' hset hloose hloose' hi hne
  obtain ⟨w, hw, hsoh, -⟩ := it.piece
  have hnew := hj
  have hbyte := (l.getD_eq hitems hj).symm.trans_ne hne
  rw [hw] at hnew hbyte htail
  rcases set_piece hsoh hnew hbyte with ⟨w', hsoh', hpiece⟩ | ⟨u, c, v, rfl, hpiece⟩ | ⟨hb, hpiece⟩
  · -- the field is another one
    rw [hpiece] at htail
    cases hends' with
    | last it' _ => exact l.false_of_short l' hitems hitems'
    | cons it' _ hmore =>
      rw [textOf_cons, List.append_assoc] at htail
      have heq := (Item.text_unique hsoh' htail).2
      exact hsync (pre ++ [it]) (pre ++ [it']) (by simp [hitems]) (by simp [hitems']) hpost hmore
        heq
  · -- the field is cut in two
    have hsohu : kSOH ∉ u := fun hc => hsoh (List.mem_append_left _ hc)
    have hsohv : kSOH ∉ v := fun hc => hsoh (by simp [hc])
    rw [hpiece, List.append_assoc] at htail
    cases hends' with
    | last it' _ => exact l.false_of_short l' hitems hitems'
    | cons it₁ _ hmore =>
      rw [textOf_cons, List.append_assoc] at htail
      obtain ⟨hit₁, heq⟩ := Item.text_unique hsohu htail
      cases hmore with
      | last it₂ _ =>
        rw [textOf_cons, textOf_nil, List.append_nil] at heq
        exact l.false_of_cut l' hitems hw hitems' hit₁ (Item.text_unique hsohv heq).1
      | cons it₂ _ hmore =>
        rw [textOf_cons, List.append_assoc] at heq
        exact hsync (pre ++ [it]) (pre ++ [it₁, it₂]) (by simp [hitems]) (by simp [hitems']) hpost
          hmore (Item.text_unique hsohv heq).2
  · -- the field is joined with the next one
    obtain ⟨next, more, hnext⟩ := List.exists_cons_of_ne_nil
      (show post ++ [l.sum] ≠ [] by simp)
    obtain ⟨w', hw', hsoh', -⟩ := next.piece
    have hjoined : kSOH ∉ w ++ b :: w' := by
      intro hc
      rcases List.mem_append.mp hc with hc | hc
      · exact hsoh hc
      · rcases List.mem_cons.mp hc with hc | hc
        · exact hb hc.symm
        · exact hsoh' hc
    rw [hpiece, hnext, textOf_cons, hw'] at htail
    have hjoin : textOf items' ++ l'.rest =
        ((w ++ b :: w') ++ [kSOH]) ++ (textOf more ++ l.rest) := by
      rw [htail]
      simp
    cases hends' with
    | last it' _ => exact l.false_of_short l' hitems hitems'
    | cons it' _ hmore =>
      rw [textOf_cons, List.append_assoc] at hjoin
      obtain ⟨hit', heq⟩ := Item.text_unique hjoined hjoin
      rw [hnext] at hitems hpost
      cases hpost with
      | last _ _ => exact l.false_of_join l' hitems hw hw' hitems' hmore hit'
      | cons _ _ hends =>
        exact hsync (pre ++ [it, next]) (pre ++ [it']) (by simp [hitems]) (by simp [hitems']) hends
          hmore heq

end Layout

/-! ## The statement -/

/-- **One changed byte is noticed.** In a buffer that `parse` accepts there is the message it
read; change one byte in front of its CheckSum to any other byte, and `parse` refuses the
buffer. -/
theorem parse_set_eq_error (buf : Buffer) (fields : List Field)
    (haccepted : parse buf.bytes = .ok fields) :
    ∃ l : Layout buf.bytes, l.fields = fields ∧
      ∀ i < l.covered.length, ∀ b, buf.bytes.getD i 0 ≠ b →
        ∃ e, parse (buf.bytes.set i b) = .error e := by
  obtain ⟨l, hfields, hloose⟩ := (parse_eq_ok buf fields).mp haccepted
  refine ⟨l, hfields, fun i hi b hne => ?_⟩
  cases hparse : parse (buf.bytes.set i b) with
  | error e => exact ⟨e, rfl⟩
  | ok fields' =>
    let changed : Buffer := ⟨buf.bytes.set i b, by rw [List.length_set]; exact buf.fits⟩
    obtain ⟨l', -, hloose'⟩ := (parse_eq_ok changed fields').mp hparse
    exact (l.false_of_set l' rfl hloose hloose' hi hne).elim

/-- The message `8=|9=0|10=029|`. -/
def shortestBuffer : Buffer where
  bytes := [56, 61, 1, 57, 61, 48, 1, 49, 48, 61, 48, 50, 57, 1]
  fits := by decide

/-- The shortest message, with any covered byte changed. -/
theorem shortestBuffer_set_eq_error :
    parse shortestBuffer.bytes = .ok [⟨8, []⟩, ⟨9, [48]⟩, ⟨10, [48, 50, 57]⟩] ∧
      ∃ l : Layout shortestBuffer.bytes, l.fields = [⟨8, []⟩, ⟨9, [48]⟩, ⟨10, [48, 50, 57]⟩] ∧
        ∀ i < l.covered.length, ∀ b, shortestBuffer.bytes.getD i 0 ≠ b →
          ∃ e, parse (shortestBuffer.bytes.set i b) = .error e :=
  ⟨by decide +kernel, parse_set_eq_error shortestBuffer _ (by decide +kernel)⟩

end PulseForge.Fix
