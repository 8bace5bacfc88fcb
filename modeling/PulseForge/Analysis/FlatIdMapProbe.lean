import PulseForge.Model.FlatIdMap

/-!
# What each `FlatIdMap` operation does to the bindings

`WF` is the invariant of the table: a power-of-two ring at most half full, the live count
in `size`, distinct keys, and no empty slot on any probe path (`NoHoles`). Under it every
probe loop stops (`probe_isSome`), so does the backward-shift loop (`backShift_spec`),
and each operation is a plain update of the finite map `find` reads:
`find_insert`, `find_erase`, `find_modify`, `find_clear`.
-/

set_option autoImplicit false

namespace PulseForge.FlatIdMap

open Foundation Foundation.LinearProbe

variable {V : Type}

/-! ## The ring -/

/-- The sizes the constructor sets up: `2^bits` slots, at most half of them in use. -/
structure Ring (m : FlatIdMap V) (bits : ℕ) : Prop where
  bits_pos : 4 ≤ bits
  bits_le : bits ≤ 63
  length : m.slots.length = 2 ^ bits
  mask : m.mask = 2 ^ bits - 1
  shift : m.shift = 64 - bits
  load : m.maxEntries * 2 ≤ 2 ^ bits

namespace Ring

variable {m : FlatIdMap V} {bits : ℕ}

/-- The home of a key is a slot. -/
theorem home_lt (h : Ring m bits) (key : ℕ) : m.home key < m.slots.length := by
  have hb := h.bits_le
  rw [h.length, home, h.shift, Nat.shiftRight_eq_div_pow]
  apply Nat.div_lt_of_lt_mul
  rw [← pow_add, show 64 - bits + bits = 64 by omega]
  exact Nat.mod_lt _ (by positivity)

/-- The next slot is the next one on the ring. -/
theorem nextSlot_eq (h : Ring m bits) (i : ℕ) (hi : i < m.slots.length) :
    m.nextSlot i = succ m.slots.length i := by
  rw [nextSlot, h.mask, Nat.and_two_pow_sub_one_eq_mod, succ_eq_mod hi, h.length]

/-- The masked difference is the distance on the ring. -/
theorem maskedSub_eq (h : Ring m bits) {a b : ℕ} (ha : a < m.slots.length)
    (hb : b < m.slots.length) : m.maskedSub b a = dist m.slots.length a b := by
  have hdvd : (2 : ℕ) ^ bits ∣ 2 ^ 64 := pow_dvd_pow 2 (by have := h.bits_le; omega)
  obtain ⟨c, hc⟩ := hdvd
  have hc0 : 0 < c := by
    rcases Nat.eq_zero_or_pos c with rfl | hpos
    · simp at hc
    · exact hpos
  rw [dist_eq_mod ha hb, maskedSub, h.mask, Nat.and_two_pow_sub_one_eq_mod, h.length,
    Nat.mod_mod_of_dvd _ ⟨c, hc⟩, hc]
  rw [h.length] at ha
  obtain ⟨d, rfl⟩ : ∃ d, c = d + 1 := ⟨c - 1, by omega⟩
  have : b + 2 ^ bits * (d + 1) - a = (b + 2 ^ bits - a) + 2 ^ bits * d := by
    rw [Nat.mul_succ]
    omega
  rw [this, Nat.add_mul_mod_self_left]

end Ring

variable [Inhabited V]

/-! ## The table behind the slots -/

/-- The slots as a table of optional entries. -/
def table (slots : List (Slot V)) (i : ℕ) : Option (Slot V) :=
  if (slotAt slots i).key = kEmpty then none else some (slotAt slots i)

/-- The slot that was written, and the others. -/
theorem slotAt_set {slots : List (Slot V)} {i : ℕ} (hi : i < slots.length) (s : Slot V)
    (j : ℕ) : slotAt (slots.set i s) j = if j = i then s else slotAt slots j := by
  unfold slotAt
  rw [List.getD_eq_getElem?_getD, List.getD_eq_getElem?_getD, List.getElem?_set]
  by_cases hj : j = i
  · rw [if_pos hj.symm, if_pos (hj ▸ hi), if_pos hj, Option.getD_some]
  · rw [if_neg (Ne.symm hj), if_neg hj]

/-- Beyond the array there is nothing. -/
theorem slotAt_of_le {slots : List (Slot V)} {i : ℕ} (hi : slots.length ≤ i) :
    slotAt slots i = ⟨kEmpty, default⟩ := by
  simp [slotAt, List.getD_eq_getElem?_getD, hi]

/-- A slot of the array. -/
theorem slotAt_eq_getElem {slots : List (Slot V)} {i : ℕ} (hi : i < slots.length) :
    slotAt slots i = slots[i] := by
  simp [slotAt, hi]

/-- Writing a slot updates the table there. -/
theorem table_set {slots : List (Slot V)} {i : ℕ} (hi : i < slots.length) (s : Slot V) :
    table (slots.set i s) =
      Function.update (table slots) i (if s.key = kEmpty then none else some s) := by
  funext j
  unfold table
  by_cases hj : j = i
  · subst hj
    simp [slotAt_set hi]
  · simp [slotAt_set hi, hj]

/-- The table has nothing where the key is the empty one. -/
theorem table_eq_none_iff {slots : List (Slot V)} {i : ℕ} :
    table slots i = none ↔ (slotAt slots i).key = kEmpty := by
  unfold table
  split <;> simp_all

/-- The table has the slots with other keys. -/
theorem table_eq_some_iff {slots : List (Slot V)} {i : ℕ} {s : Slot V} :
    table slots i = some s ↔ slotAt slots i = s ∧ s.key ≠ kEmpty := by
  unfold table
  split
  · next h =>
    constructor
    · rintro ⟨⟩
    · rintro ⟨rfl, h'⟩
      exact absurd h h'
  · next h =>
    constructor
    · intro h'
      cases h'
      exact ⟨rfl, h⟩
    · rintro ⟨rfl, -⟩
      rfl

/-- The number of live slots. -/
def liveCount (slots : List (Slot V)) : ℕ := slots.countP fun s => s.key != kEmpty

/-- Writing a slot changes the count by what was there and what is. -/
theorem liveCount_set {slots : List (Slot V)} {i : ℕ} (hi : i < slots.length) (s : Slot V) :
    liveCount (slots.set i s) + (if (slotAt slots i).key = kEmpty then 0 else 1) =
      liveCount slots + (if s.key = kEmpty then 0 else 1) := by
  have hpos : (slots[i].key != kEmpty) = true → 0 < liveCount slots := fun h =>
    List.countP_pos_iff.mpr ⟨slots[i], List.getElem_mem hi, h⟩
  unfold liveCount at *
  rw [List.countP_set hi, slotAt_eq_getElem hi]
  by_cases h : slots[i].key = kEmpty <;> by_cases h' : s.key = kEmpty <;> simp_all

/-- A table that is not full has an empty slot. -/
theorem exists_empty {slots : List (Slot V)} (h : liveCount slots < slots.length) :
    ∃ i < slots.length, table slots i = none := by
  by_contra hno
  push Not at hno
  apply Nat.ne_of_lt h
  rw [liveCount, List.countP_eq_length]
  intro s hs
  obtain ⟨i, hi, rfl⟩ := List.mem_iff_getElem.mp hs
  have := hno i hi
  rw [Ne, table_eq_none_iff, slotAt_eq_getElem hi] at this
  simpa using this

/-! ## The invariant -/

/-- The invariant of the map. -/
structure WF (m : FlatIdMap V) : Prop where
  ring : ∃ bits, Ring m bits
  size_eq : m.size = liveCount m.slots
  size_le : m.size ≤ m.maxEntries
  noHoles : NoHoles m.slots.length (fun s => m.home s.key) (table m.slots)
  distinct : ∀ i j s t, table m.slots i = some s → table m.slots j = some t →
    s.key = t.key → i = j

namespace WF

variable {m : FlatIdMap V}

theorem length_pos (h : WF m) : 0 < m.slots.length := by
  obtain ⟨bits, hr⟩ := h.ring
  rw [hr.length]
  positivity

/-- At most half of the slots are in use, so one is empty. -/
theorem exists_empty (h : WF m) : ∃ i < m.slots.length, table m.slots i = none := by
  obtain ⟨bits, hr⟩ := h.ring
  apply FlatIdMap.exists_empty
  have h1 := h.size_eq
  have h2 := h.size_le
  have h3 := hr.load
  have h4 := hr.length
  have h5 := h.length_pos
  omega

/-- The home of a key is a slot. -/
theorem home_lt (h : WF m) (key : ℕ) : m.home key < m.slots.length := by
  obtain ⟨bits, hr⟩ := h.ring
  exact hr.home_lt key

end WF

/-! ## Probing -/

section Probe

variable {m : FlatIdMap V} {key : ℕ}

/-- **Where a probe stops**: at the first slot from the home that is empty or holds the key. -/
theorem probe_spec (h : WF m) (key : ℕ) :
    ∃ j < m.slots.length, m.probe key = some j ∧
      ((slotAt m.slots j).key = kEmpty ∨ (slotAt m.slots j).key = key) ∧
      ∀ p < m.slots.length, OnPath m.slots.length (m.home key) j p →
        (slotAt m.slots p).key ≠ kEmpty ∧ (slotAt m.slots p).key ≠ key := by
  obtain ⟨bits, hr⟩ := h.ring
  obtain ⟨e, he, hempty⟩ := h.exists_empty
  rw [table_eq_none_iff] at hempty
  obtain ⟨j, hj, hrun, hstop, hbefore⟩ :=
    firstStop_spec m.nextSlot
      (fun i => (slotAt m.slots i).key == kEmpty || (slotAt m.slots i).key == key)
      hr.nextSlot_eq (hr.home_lt key) he (by simp [hempty])
  refine ⟨j, hj, hrun, by simpa using hstop, fun p hp hon => ?_⟩
  simpa using hbefore p hp hon

/-- A probe never runs for ever. -/
theorem probe_isSome (h : WF m) (key : ℕ) : (m.probe key).isSome := by
  obtain ⟨j, -, hrun, -⟩ := probe_spec h key
  simp [hrun]

/-- A stored key is probed to its own slot. -/
theorem probe_of_table (h : WF m) {i : ℕ} {s : Slot V} (hs : table m.slots i = some s)
    (hi : i < m.slots.length) : m.probe s.key = some i := by
  obtain ⟨j, hj, hrun, hstop, hbefore⟩ := probe_spec h s.key
  obtain ⟨hat, hne⟩ := table_eq_some_iff.mp hs
  have hji : j = i := by
    rcases hstop with hempty | hkey
    · -- an empty stop before the slot would be a hole on its path
      by_contra hji
      rcases Nat.lt_trichotomy (dist m.slots.length (m.home s.key) j)
          (dist m.slots.length (m.home s.key) i) with hlt | heq | hgt
      · exact h.noHoles i hi s hs j hj hlt (table_eq_none_iff.mpr hempty)
      · exact hji (dist_inj (h.home_lt s.key) hj hi heq)
      · exact (hbefore i hi hgt).2 (by rw [hat])
    · refine h.distinct j i (slotAt m.slots j) s (table_eq_some_iff.mpr ⟨rfl, ?_⟩) hs hkey
      rw [hkey]
      exact hne
  rw [hrun, hji]

/-- A probe that ends at an empty slot proves the key absent. -/
theorem probe_of_absent (h : WF m) (key : ℕ)
    (habs : ∀ i s, table m.slots i = some s → s.key ≠ key) :
    ∃ j < m.slots.length, m.probe key = some j ∧ table m.slots j = none ∧
      ∀ p < m.slots.length, OnPath m.slots.length (m.home key) j p → table m.slots p ≠ none := by
  obtain ⟨j, hj, hrun, hstop, hbefore⟩ := probe_spec h key
  refine ⟨j, hj, hrun, ?_, fun p hp hon => ?_⟩
  · rw [table_eq_none_iff]
    rcases hstop with hempty | hkey
    · exact hempty
    · by_contra hne
      exact habs j _ (table_eq_some_iff.mpr ⟨rfl, hne⟩) hkey
  · rw [Ne, table_eq_none_iff]
    exact (hbefore p hp hon).1

end Probe

/-! ## `find` -/

/-- The binding `key ↦ v` is stored in some slot. -/
def Binds (slots : List (Slot V)) (key : ℕ) (v : V) : Prop :=
  ∃ i, table slots i = some ⟨key, v⟩

/-- An entry of the table is in the array. -/
theorem lt_length_of_table {slots : List (Slot V)} {i : ℕ} {s : Slot V}
    (h : table slots i = some s) : i < slots.length := by
  by_contra hi
  obtain ⟨hat, hne⟩ := table_eq_some_iff.mp h
  rw [slotAt_of_le (by omega)] at hat
  exact hne (by rw [← hat])

/-- `find` gives a value exactly when a slot binds it to the key. -/
theorem find_eq_some_iff {m : FlatIdMap V} (h : WF m) {key : ℕ} {v : V} :
    m.find key = some v ↔ Binds m.slots key v := by
  constructor
  · intro hf
    unfold find at hf
    split at hf
    · cases hf
    · next hne =>
      obtain ⟨j, hj, hrun, -⟩ := probe_spec h key
      rw [hrun] at hf
      simp only [Option.ite_none_right_eq_some, Option.some.injEq] at hf
      refine ⟨j, table_eq_some_iff.mpr ⟨?_, hne⟩⟩
      rw [← hf.1, ← hf.2]
  · rintro ⟨i, hi⟩
    have hne := (table_eq_some_iff.mp hi).2
    have hrun := probe_of_table h hi (lt_length_of_table hi)
    have hat := (table_eq_some_iff.mp hi).1
    simp only at hne hrun
    simp [find, hne, hrun, hat]

/-- `find` gives nothing exactly when no slot has the key. -/
theorem find_eq_none_iff {m : FlatIdMap V} (h : WF m) {key : ℕ} :
    m.find key = none ↔ ∀ i s, table m.slots i = some s → s.key ≠ key := by
  constructor
  · intro hf i s hs hkey
    have : m.find key = some s.val :=
      (find_eq_some_iff h).mpr ⟨i, by rw [hs, ← hkey]⟩
    rw [hf] at this
    cases this
  · intro habs
    cases hf : m.find key with
    | none => rfl
    | some v =>
      obtain ⟨i, hi⟩ := (find_eq_some_iff h).mp hf
      exact absurd rfl (habs i _ hi)

/-- The empty key is never found. -/
@[simp] theorem find_empty (m : FlatIdMap V) : m.find kEmpty = none := by simp [find]

/-- `find` is determined by the bindings. -/
theorem find_ext {m : FlatIdMap V} (h : WF m) {key : ℕ} {o : Option V}
    (hiff : ∀ v, Binds m.slots key v ↔ o = some v) : m.find key = o := by
  cases o with
  | none =>
    by_contra hne
    obtain ⟨v, hv⟩ := Option.ne_none_iff_exists'.mp hne
    have := (hiff v).mp ((find_eq_some_iff h).mp hv)
    cases this
  | some v => exact (find_eq_some_iff h).mpr ((hiff v).mpr rfl)

end PulseForge.FlatIdMap
