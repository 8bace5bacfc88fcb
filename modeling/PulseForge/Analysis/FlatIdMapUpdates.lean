import PulseForge.Analysis.FlatIdMapProbe

/-!
# The updates of `FlatIdMap`

`insert`, `modify`, `erase` and `clear` keep the invariant `WF`, and `find` afterwards is
the finite map with that one update. The scan of `erase` carries `Scan` through its loop:
the library's `Shifting` for the probe paths, the bindings outside the hole unchanged, and
the live count unchanged until the last hole is emptied.
-/

set_option autoImplicit false

namespace PulseForge.FlatIdMap

open Foundation Foundation.LinearProbe

variable {V : Type} {m : FlatIdMap V}

/-! ## Changing one slot -/

/-- The fields a slot update leaves alone. -/
theorem Ring.set {bits : ℕ} (hr : Ring m bits) (slots : List (Slot V)) (size : ℕ)
    (hlen : slots.length = m.slots.length) :
    Ring { m with slots := slots, size := size } bits :=
  ⟨hr.bits_pos, hr.bits_le, hlen.trans hr.length, hr.mask, hr.shift, hr.load⟩

variable [Inhabited V]

/-- What the slots bind after one was written. -/
theorem binds_set_iff {slots : List (Slot V)} {i : ℕ} (hi : i < slots.length) {s : Slot V}
    {key : ℕ} {v : V} :
    Binds (slots.set i s) key v ↔
      (s = ⟨key, v⟩ ∧ s.key ≠ kEmpty) ∨ ∃ j, j ≠ i ∧ table slots j = some ⟨key, v⟩ := by
  unfold Binds
  rw [table_set hi]
  constructor
  · rintro ⟨j, hj⟩
    by_cases hji : j = i
    · subst hji
      rw [Function.update_self] at hj
      split at hj
      · cases hj
      · next hne =>
        rw [Option.some.injEq] at hj
        exact .inl ⟨hj, hne⟩
    · rw [Function.update_of_ne hji] at hj
      exact .inr ⟨j, hji, hj⟩
  · rintro (⟨rfl, hne⟩ | ⟨j, hji, hj⟩)
    · exact ⟨i, by simpa using hne⟩
    · exact ⟨j, by rw [Function.update_of_ne hji, hj]⟩

/-- A probe for an absent key ends at a slot of another key. -/
theorem probe_of_find_eq_none (h : WF m) {key : ℕ} (hne : key ≠ kEmpty)
    (hf : m.find key = none) :
    ∃ j, m.probe key = some j ∧ (slotAt m.slots j).key ≠ key := by
  obtain ⟨j, -, hrun, hempty, -⟩ := probe_of_absent h key ((find_eq_none_iff h).mp hf)
  refine ⟨j, hrun, ?_⟩
  rw [table_eq_none_iff.mp hempty]
  exact Ne.symm hne

/-! ## Writing an entry into a slot

`insert` and `modify` both write an entry whose key stands in no other slot. -/

section Write

variable {i : ℕ} {s : Slot V}

/-- Keys stay distinct when a new key is written. -/
theorem distinct_write (h : WF m) (hi : i < m.slots.length)
    (hother : ∀ j t, j ≠ i → table m.slots j = some t → t.key ≠ s.key) (a b : ℕ) (t u : Slot V)
    (ht : table (m.slots.set i s) a = some t) (hu : table (m.slots.set i s) b = some u)
    (htu : t.key = u.key) : a = b := by
  -- what the written slot holds, if anything, is the new entry
  have hat : ∀ v, table (m.slots.set i s) i = some v → v = s := by
    intro v hv
    obtain ⟨hslot, -⟩ := table_eq_some_iff.mp hv
    rw [slotAt_set hi, if_pos rfl] at hslot
    exact hslot.symm
  have hoff : ∀ j, j ≠ i → table (m.slots.set i s) j = table m.slots j := by
    intro j hj
    rw [table_set hi, Function.update_of_ne hj]
  by_cases ha : a = i <;> by_cases hb : b = i
  · rw [ha, hb]
  · subst ha
    rw [hoff b hb] at hu
    rw [hat t ht] at htu
    exact absurd htu.symm (hother b u hb hu)
  · subst hb
    rw [hoff a ha] at ht
    rw [hat u hu] at htu
    exact absurd htu (hother a t ha ht)
  · rw [hoff a ha] at ht
    rw [hoff b hb] at hu
    exact h.distinct a b t u ht hu htu

/-- The invariant after the write, when the probe path of the key has no empty slot. -/
theorem wf_write (h : WF m) (hi : i < m.slots.length) (hne : s.key ≠ kEmpty)
    (hother : ∀ j t, j ≠ i → table m.slots j = some t → t.key ≠ s.key)
    (hpath : ∀ p < m.slots.length, OnPath m.slots.length (m.home s.key) i p →
      table m.slots p ≠ none) {size : ℕ} (hsize : size = liveCount (m.slots.set i s))
    (hle : size ≤ m.maxEntries) :
    WF { m with slots := m.slots.set i s, size := size } := by
  obtain ⟨bits, hr⟩ := h.ring
  refine ⟨⟨bits, hr.set _ _ List.length_set⟩, hsize, hle, ?_, distinct_write h hi hother⟩
  simp only [List.length_set]
  rw [table_set hi, if_neg hne]
  exact h.noHoles.fill hpath

/-- `find` after the write, when the slot was empty or held the same key. -/
theorem find_write (h : WF m) (hi : i < m.slots.length) (hne : s.key ≠ kEmpty)
    (hother : ∀ j t, j ≠ i → table m.slots j = some t → t.key ≠ s.key)
    (hold : ∀ t, table m.slots i = some t → t.key = s.key) {m' : FlatIdMap V} (h' : WF m')
    (hslots : m'.slots = m.slots.set i s) (k : ℕ) :
    m'.find k = if k = s.key then some s.val else m.find k := by
  refine find_ext h' fun w => ?_
  rw [hslots, binds_set_iff hi]
  by_cases hk : k = s.key
  · rw [if_pos hk, Option.some.injEq]
    constructor
    · rintro (⟨hs, -⟩ | ⟨j, hji, hj⟩)
      · rw [hs]
      · exact absurd hk (hother j _ hji hj)
    · intro hw
      exact .inl ⟨by rw [hk, ← hw], hne⟩
  · rw [if_neg hk, find_eq_some_iff h]
    constructor
    · rintro (⟨hs, -⟩ | ⟨j, -, hj⟩)
      · rw [hs] at hk
        exact absurd rfl hk
      · exact ⟨j, hj⟩
    · rintro ⟨j, hj⟩
      refine .inr ⟨j, ?_, hj⟩
      rintro rfl
      exact hk (hold _ hj)

end Write

/-! ## `insert` -/

/-- `insert` refuses at the limit. -/
theorem insert_of_full (key : ℕ) (v : V) (h : m.maxEntries ≤ m.size) :
    m.insert key v = (m, false) := by
  simp [insert, h]

theorem insert_zero (v : V) : m.insert kEmpty v = (m, false) := by
  simp [insert]

/-- `insert` refuses a key that is there. -/
theorem insert_of_mem (h : WF m) {key : ℕ} {w : V} (v : V) (hf : m.find key = some w) :
    m.insert key v = (m, false) := by
  obtain ⟨i, hi⟩ := (find_eq_some_iff h).mp hf
  have hrun := probe_of_table h hi (lt_length_of_table hi)
  obtain ⟨hat, hne⟩ := table_eq_some_iff.mp hi
  simp only at hrun hne
  simp [insert, hrun, hat]

/-- An empty map holds no key. -/
theorem find_of_size_eq_zero (h : WF m) (hsize : m.size = 0) (key : ℕ) : m.find key = none := by
  refine (find_eq_none_iff h).mpr fun i s hs _ => ?_
  have hi := lt_length_of_table hs
  obtain ⟨hat, hne⟩ := table_eq_some_iff.mp hs
  have hnone : liveCount m.slots = 0 := h.size_eq.symm.trans hsize
  have hempty := List.countP_eq_zero.mp hnone m.slots[i] (List.getElem_mem hi)
  rw [slotAt_eq_getElem hi] at hat
  rw [hat] at hempty
  simp [hne] at hempty

/-- **Insertion of a new key** into a map that is not full. -/
theorem insert_of_new (h : WF m) {key : ℕ} (v : V) (hne : key ≠ kEmpty)
    (hsize : m.size < m.maxEntries) (hf : m.find key = none) :
    ∃ m', m.insert key v = (m', true) ∧ WF m' ∧ m'.maxEntries = m.maxEntries ∧
      m'.size = m.size + 1 ∧
      ∀ k, m'.find k = if k = key then some v else m.find k := by
  have habs := (find_eq_none_iff h).mp hf
  obtain ⟨j, hj, hrun, hempty, hpath⟩ := probe_of_absent h key habs
  have hkey : (slotAt m.slots j).key = kEmpty := table_eq_none_iff.mp hempty
  have hins : m.insert key v =
      ({ m with slots := m.slots.set j ⟨key, v⟩, size := m.size + 1 }, true) := by
    have : ¬ m.maxEntries ≤ m.size := by omega
    have hne' : (slotAt m.slots j).key ≠ key := by
      rw [hkey]
      exact Ne.symm hne
    simp [insert, hne, this, hrun, hne']
  have hlive : m.size + 1 = liveCount (m.slots.set j ⟨key, v⟩) := by
    have hset := liveCount_set hj ⟨key, v⟩
    rw [if_pos hkey, if_neg hne] at hset
    rw [h.size_eq]
    exact hset.symm
  have hother : ∀ p t, p ≠ j → table m.slots p = some t → t.key ≠ key :=
    fun p t _ ht => habs p t ht
  have hwf := wf_write (s := ⟨key, v⟩) h hj hne hother hpath hlive hsize
  refine ⟨_, hins, hwf, rfl, rfl,
    find_write (s := ⟨key, v⟩) h hj hne hother (fun t ht => ?_) hwf rfl⟩
  rw [hempty] at ht
  cases ht

/-! ## `modify` -/

/-- Modifying an unknown key does nothing. -/
theorem modify_of_absent (h : WF m) {key : ℕ} (f : V → V) (hf : m.find key = none) :
    m.modify key f = m := by
  unfold modify
  split
  · rfl
  · next hne =>
    obtain ⟨j, hrun, hkey⟩ := probe_of_find_eq_none h hne hf
    simp [hrun, hkey]

/-- Modifying a key writes the slot that has it. -/
theorem modify_of_table (h : WF m) {key : ℕ} {w : V} (f : V → V) {i : ℕ}
    (hi : table m.slots i = some ⟨key, w⟩) :
    m.modify key f = { m with slots := m.slots.set i ⟨key, f w⟩ } := by
  have hrun := probe_of_table h hi (lt_length_of_table hi)
  obtain ⟨hat, hne⟩ := table_eq_some_iff.mp hi
  simp only at hrun hne
  simp [modify, hne, hrun, hat]

/-- **A write through a found pointer** changes that value only. -/
theorem modify_spec (h : WF m) (key : ℕ) (f : V → V) :
    WF (m.modify key f) ∧ (m.modify key f).maxEntries = m.maxEntries ∧
      (m.modify key f).size = m.size ∧
      ∀ k, (m.modify key f).find k = if k = key then (m.find k).map f else m.find k := by
  cases hf : m.find key with
  | none =>
    rw [modify_of_absent h f hf]
    refine ⟨h, rfl, rfl, fun k => ?_⟩
    split
    · next hk => rw [hk, hf, Option.map_none]
    · rfl
  | some w =>
    obtain ⟨i, hi⟩ := (find_eq_some_iff h).mp hf
    have hil := lt_length_of_table hi
    obtain ⟨hat, hne⟩ := table_eq_some_iff.mp hi
    have hlive : m.size = liveCount (m.slots.set i ⟨key, f w⟩) := by
      have hset := liveCount_set hil ⟨key, f w⟩
      rw [hat] at hset
      simp only [if_neg hne] at hset
      rw [h.size_eq]
      exact (Nat.add_right_cancel hset).symm
    have hother : ∀ j t, j ≠ i → table m.slots j = some t → t.key ≠ key :=
      fun j t hji ht hk => hji (h.distinct j i t _ ht hi hk)
    have hpath : ∀ p < m.slots.length, OnPath m.slots.length (m.home key) i p →
        table m.slots p ≠ none := fun p hp hon => h.noHoles i hil _ hi p hp hon
    have hwf := wf_write (s := ⟨key, f w⟩) h hil hne hother hpath hlive h.size_le
    rw [modify_of_table h f hi]
    refine ⟨hwf, rfl, rfl, fun k => ?_⟩
    rw [find_write (s := ⟨key, f w⟩) h hil hne hother (fun t ht => ?_) hwf rfl]
    · by_cases hk : k = key
      · rw [if_pos hk, if_pos hk, hk, hf, Option.map_some]
      · rw [if_neg hk, if_neg hk]
    · rw [hi] at ht
      cases ht
      rfl

/-! ## `erase` -/

/-- The scan of `erase` between two iterations, against the slots `old` it started from
with the erased entry in slot `i₀`. -/
structure Scan (m : FlatIdMap V) (old : List (Slot V)) (i₀ : ℕ) (slots : List (Slot V))
    (i j : ℕ) : Prop where
  length : slots.length = m.slots.length
  shifting : Shifting m.slots.length (fun s => m.home s.key) (table slots) i j
  stale : table slots i ≠ none
  empties : ∀ p, table old p = none → table slots p = none
  bindings : ∀ s, (∃ p, p ≠ i ∧ table slots p = some s) ↔ ∃ p, p ≠ i₀ ∧ table old p = some s
  distinct : ∀ p q s t, p ≠ i → q ≠ i → table slots p = some s → table slots q = some t →
    s.key = t.key → p = q
  live : liveCount slots = liveCount old

namespace Scan

variable {old slots : List (Slot V)} {i₀ i j : ℕ}

/-- The scan passes an entry that is found without the hole. -/
theorem keep (hs : Scan m old i₀ slots i j) {s : Slot V}
    (hne : succ m.slots.length j ≠ i) (hat : table slots (succ m.slots.length j) = some s)
    (hoff : ¬ OnPath m.slots.length (m.home s.key) (succ m.slots.length j) i) :
    Scan m old i₀ slots i (succ m.slots.length j) :=
  { hs with shifting := hs.shifting.keep hne hat hoff }

/-- The scan moves an entry into the hole, which is now where the entry was. -/
theorem move (hs : Scan m old i₀ slots i j) {s : Slot V}
    (hne : succ m.slots.length j ≠ i) (hat : table slots (succ m.slots.length j) = some s)
    (hon : OnPath m.slots.length (m.home s.key) (succ m.slots.length j) i) :
    Scan m old i₀ (slots.set i s) (succ m.slots.length j) (succ m.slots.length j) := by
  have hskey := (table_eq_some_iff.mp hat).2
  have hil : i < slots.length := by
    rw [hs.length]
    exact hs.shifting.hole_lt
  have htab : table (slots.set i s) = Function.update (table slots) i (some s) := by
    rw [table_set hil, if_neg hskey]
  refine ⟨by simp [hs.length], ?_, ?_, ?_, ?_, ?_, ?_⟩
  · rw [htab]
    exact hs.shifting.move hne hat hon
  · rw [htab, Function.update_of_ne hne, hat]
    simp
  · intro p hp
    have hpi : p ≠ i := fun hpi => hs.stale (hpi ▸ hs.empties p hp)
    rw [htab, Function.update_of_ne hpi]
    exact hs.empties p hp
  · intro t
    rw [← hs.bindings t, htab]
    constructor
    · rintro ⟨p, hp, ht⟩
      by_cases hpi : p = i
      · subst hpi
        rw [Function.update_self, Option.some.injEq] at ht
        exact ⟨_, hne, by rw [hat, ht]⟩
      · rw [Function.update_of_ne hpi] at ht
        exact ⟨p, hpi, ht⟩
    · rintro ⟨p, hpi, ht⟩
      by_cases hp : p = succ m.slots.length j
      · refine ⟨i, Ne.symm hne, ?_⟩
        rw [Function.update_self, ← hat, ← hp, ht]
      · exact ⟨p, hp, by rw [Function.update_of_ne hpi, ht]⟩
  · -- the moved entry keeps its key, the other slots are as before
    intro p q a b hp hq ha hb hab
    rw [htab] at ha hb
    by_cases hpi : p = i <;> by_cases hqi : q = i
    · rw [hpi, hqi]
    · subst hpi
      rw [Function.update_self, Option.some.injEq] at ha
      rw [Function.update_of_ne hqi] at hb
      subst ha
      exact absurd (hs.distinct _ q _ _ hne hqi hat hb hab).symm hq
    · subst hqi
      rw [Function.update_self, Option.some.injEq] at hb
      rw [Function.update_of_ne hpi] at ha
      subst hb
      exact absurd (hs.distinct p _ _ _ hpi hne ha hat hab) hp
    · rw [Function.update_of_ne hpi] at ha
      rw [Function.update_of_ne hqi] at hb
      exact hs.distinct p q a b hpi hqi ha hb hab
  · have := liveCount_set hil s
    have hstale : (slotAt slots i).key ≠ kEmpty := fun h => hs.stale (table_eq_none_iff.mpr h)
    rw [if_neg hstale, if_neg hskey] at this
    have := hs.live
    omega

/-- The hole is a slot. -/
theorem hole_lt (hs : Scan m old i₀ slots i j) : i < slots.length := by
  rw [hs.length]
  exact hs.shifting.hole_lt

/-- The hole still holds a stale entry, which the last write of `erase` empties. -/
theorem liveCount_erase (hs : Scan m old i₀ slots i j) :
    liveCount (slots.set i { slotAt slots i with key := kEmpty }) + 1 = liveCount old := by
  have hlive := liveCount_set hs.hole_lt { slotAt slots i with key := kEmpty }
  have hstale : (slotAt slots i).key ≠ kEmpty := fun hk => hs.stale (table_eq_none_iff.mpr hk)
  rw [if_neg hstale, if_pos rfl] at hlive
  exact hlive.trans hs.live

/-- The invariant once the hole is emptied, when the scan ended at an empty slot. -/
theorem wf_erase (hs : Scan m m.slots i₀ slots i j) (h : WF m)
    (hend : table slots (succ m.slots.length j) = none) :
    WF { m with
      slots := slots.set i { slotAt slots i with key := kEmpty }, size := m.size - 1 } := by
  obtain ⟨bits, hr⟩ := h.ring
  have htab : table (slots.set i { slotAt slots i with key := kEmpty }) =
      Function.update (table slots) i none := by
    rw [table_set hs.hole_lt, if_pos rfl]
  refine ⟨⟨bits, hr.set _ _ (by simp [hs.length])⟩, ?_, ?_, ?_, ?_⟩
  · exact Nat.sub_eq_of_eq_add (h.size_eq.trans hs.liveCount_erase.symm)
  · exact Nat.le_trans (Nat.sub_le _ _) h.size_le
  · simp only [List.length_set, hs.length]
    rw [htab]
    exact hs.shifting.noHoles (fun s => hr.home_lt s.key) hend
  · intro a b s t hs' ht hst
    simp only [htab] at hs' ht
    have ha : a ≠ i := fun ha => by
      subst ha
      simp at hs'
    have hb : b ≠ i := fun hb => by
      subst hb
      simp at ht
    rw [Function.update_of_ne ha] at hs'
    rw [Function.update_of_ne hb] at ht
    exact hs.distinct a b s t ha hb hs' ht hst

end Scan

/-- **The backward-shift loop ends** within the distance to an empty slot, with the scan
invariant and the slot after the scan empty. -/
theorem backShift_spec {bits : ℕ} (hr : Ring m bits) {old : List (Slot V)} {i₀ e : ℕ}
    (he : e < m.slots.length) (hempty : table old e = none) :
    ∀ fuel (slots : List (Slot V)) (i j : ℕ), Scan m old i₀ slots i j → j ≠ e →
      dist m.slots.length j e ≤ fuel →
      ∃ slots' i' j', m.backShift fuel slots i j = some (slots', i') ∧
        Scan m old i₀ slots' i' j' ∧ table slots' (succ m.slots.length j') = none := by
  intro fuel
  induction fuel with
  | zero =>
    intro slots i j hs hje hd
    exact absurd (eq_of_dist_le_zero hs.shifting.scan_lt hd).symm hje
  | succ fuel ih =>
    intro slots i j hs hje hd
    have hj := hs.shifting.scan_lt
    have hnext := hr.nextSlot_eq j hj
    have hstep := dist_succ hj he hje
    simp only [backShift, hnext]
    by_cases hkey : (slotAt slots (succ m.slots.length j)).key = kEmpty
    · rw [if_pos hkey]
      exact ⟨slots, i, j, rfl, hs, table_eq_none_iff.mpr hkey⟩
    · rw [if_neg hkey]
      have hat := table_eq_some_iff.mpr ⟨rfl, hkey⟩
      have hje' : succ m.slots.length j ≠ e := fun h => by
        rw [h, hs.empties e hempty] at hat
        cases hat
      -- a full turn back to the hole would have passed the empty slot
      have hne : succ m.slots.length j ≠ i := by
        intro hji
        have hfar := dist_of_succ_eq hs.shifting.hole_lt hji
        have hei : e ≠ i := fun h => hs.stale (h ▸ hs.empties e hempty)
        have hle := dist_lt hs.shifting.hole_lt he
        obtain ⟨s, hs', -⟩ := hs.shifting.scanned e he hei (by omega)
        rw [hs.empties e hempty] at hs'
        cases hs'
      rw [hr.maskedSub_eq hs.shifting.hole_lt (succ_lt hj), hr.maskedSub_eq (hr.home_lt _) (succ_lt hj)]
      set s := slotAt slots (succ m.slots.length j) with hsdef
      have hpath := onPath_iff_dist_le (hr.home_lt s.key) hs.shifting.hole_lt (succ_lt hj) hne
      split
      · next hle => exact ih _ _ _ (hs.move hne hat (hpath.mpr hle)) hje' (by omega)
      · next hgt =>
        exact ih _ _ _ (hs.keep hne hat (fun hon => hgt (hpath.mp hon))) hje' (by omega)

/-- The scan that starts at a stored entry. -/
theorem Scan.start (h : WF m) {i₀ : ℕ} {s : Slot V} (hi₀ : table m.slots i₀ = some s) :
    Scan m m.slots i₀ m.slots i₀ i₀ where
  length := rfl
  shifting := h.noHoles.shifting (lt_length_of_table hi₀)
  stale := by simp [hi₀]
  empties _ hp := hp
  bindings _ := Iff.rfl
  distinct p q a b _ _ ha hb hab := h.distinct p q a b ha hb hab
  live := rfl

/-- The backward-shift loop from a stored entry ends within one turn. -/
theorem backShift_of_table (h : WF m) {i₀ : ℕ} {s : Slot V} (hi₀ : table m.slots i₀ = some s) :
    ∃ slots' i' j', m.backShift m.slots.length m.slots i₀ i₀ = some (slots', i') ∧
      Scan m m.slots i₀ slots' i' j' ∧ table slots' (succ m.slots.length j') = none := by
  obtain ⟨bits, hr⟩ := h.ring
  obtain ⟨e, he, hempty⟩ := h.exists_empty
  have hie : i₀ ≠ e := by
    rintro rfl
    rw [hi₀] at hempty
    cases hempty
  exact backShift_spec hr he hempty m.slots.length m.slots i₀ i₀ (Scan.start h hi₀) hie
    (Nat.le_of_lt (dist_lt (lt_length_of_table hi₀) he))

/-- The scan ends at an empty slot. -/
theorem backShift_isSome (h : WF m) {i₀ : ℕ} {s : Slot V} (hi₀ : table m.slots i₀ = some s) :
    (m.backShift m.slots.length m.slots i₀ i₀).isSome := by
  obtain ⟨slots', i', j', hrun, -⟩ := backShift_of_table h hi₀
  simp [hrun]

/-- `erase` finds nothing to erase. -/
theorem erase_of_absent (h : WF m) {key : ℕ} (hf : m.find key = none) :
    m.erase key = (m, false) := by
  unfold erase
  split
  · rfl
  · next hne =>
    obtain ⟨j, hrun, hkey⟩ := probe_of_find_eq_none h hne hf
    simp [hrun, hkey]

/-- **Erasing a stored key** removes that binding and no other. -/
theorem erase_of_mem (h : WF m) {key : ℕ} {v : V} (hf : m.find key = some v) :
    ∃ m', m.erase key = (m', true) ∧ WF m' ∧ m'.maxEntries = m.maxEntries ∧
      m'.size + 1 = m.size ∧
      ∀ k, m'.find k = if k = key then none else m.find k := by
  obtain ⟨i₀, hi₀⟩ := (find_eq_some_iff h).mp hf
  have hrun := probe_of_table h hi₀ (lt_length_of_table hi₀)
  obtain ⟨hat, hne⟩ := table_eq_some_iff.mp hi₀
  simp only at hrun hne
  obtain ⟨slots, i, j, hshift, hscan, hend⟩ := backShift_of_table h hi₀
  have her : m.erase key =
      ({ m with
          slots := slots.set i { slotAt slots i with key := kEmpty }, size := m.size - 1 },
        true) := by
    simp [erase, hne, hrun, hat, hshift]
  have hi := hscan.hole_lt
  have hcount := hscan.liveCount_erase
  have hsize := h.size_eq
  have hwf := hscan.wf_erase h hend
  have hpos : m.size - 1 + 1 = m.size := by omega
  refine ⟨_, her, hwf, rfl, hpos, fun k => find_ext hwf fun w => ?_⟩
  -- the bindings left are those of the old slots outside the erased one
  have hleft : Binds (slots.set i { slotAt slots i with key := kEmpty }) k w ↔
      ∃ p, p ≠ i₀ ∧ table m.slots p = some ⟨k, w⟩ := by
    rw [binds_set_iff hi, ← hscan.bindings]
    simp
  rw [hleft]
  constructor
  · rintro ⟨p, hp, ht⟩
    have hk : k ≠ key := fun hk => hp (h.distinct p i₀ _ _ ht hi₀ hk)
    rw [if_neg hk]
    exact (find_eq_some_iff h).mpr ⟨p, ht⟩
  · intro hw
    split at hw
    · cases hw
    · next hk =>
      obtain ⟨p, hp⟩ := (find_eq_some_iff h).mp hw
      refine ⟨p, ?_, hp⟩
      rintro rfl
      rw [hi₀] at hp
      cases hp
      exact hk rfl

/-! ## `clear`, the constructor and `for_each` -/

/-- Slots with empty keys bind nothing. -/
theorem table_eq_none_of_all {slots : List (Slot V)} (h : ∀ s ∈ slots, s.key = kEmpty) (i : ℕ) :
    table slots i = none := by
  rw [table_eq_none_iff]
  by_cases hi : i < slots.length
  · rw [slotAt_eq_getElem hi]
    exact h _ (List.getElem_mem hi)
  · rw [slotAt_of_le (by omega)]

/-- A table whose slots are all empty satisfies the invariant. -/
theorem wf_of_all_empty {bits : ℕ} (hr : Ring m bits) (hsize : m.size = 0)
    (h : ∀ s ∈ m.slots, s.key = kEmpty) : WF m ∧ ∀ k, m.find k = none := by
  have htab := table_eq_none_of_all h
  have hwf : WF m := by
    refine ⟨⟨bits, hr⟩, ?_, by omega, ?_, ?_⟩
    · rw [hsize, eq_comm, liveCount, List.countP_eq_zero]
      intro s hs
      simp [h s hs]
    · intro j _ s hs
      rw [htab j] at hs
      cases hs
    · intro i j s t hs
      rw [htab i] at hs
      cases hs
  refine ⟨hwf, fun k => find_ext hwf fun v => ?_⟩
  simp [Binds, htab]

/-- **`clear`** leaves the empty map. -/
theorem clear_spec (h : WF m) :
    WF m.clear ∧ m.clear.maxEntries = m.maxEntries ∧ m.clear.size = 0 ∧
      ∀ k, m.clear.find k = none := by
  obtain ⟨bits, hr⟩ := h.ring
  have hring : Ring m.clear bits := hr.set _ _ (by simp)
  obtain ⟨hwf, hfind⟩ := wf_of_all_empty hring rfl (by simp [clear])
  exact ⟨hwf, rfl, rfl, hfind⟩

/-- The doubling loop, from `2^bits` slots: the first power of two that is large enough. -/
theorem growCap_eq (need : ℕ) (hneed : need ≤ 2 ^ 63) :
    ∀ fuel bits, 4 ≤ bits → bits ≤ 63 → 63 < fuel + bits →
      ∃ b, growCap need fuel (2 ^ bits) bits = some (2 ^ b, b) ∧ 4 ≤ b ∧ b ≤ 63 ∧
        need ≤ 2 ^ b := by
  intro fuel
  induction fuel with
  | zero => intro bits _ hle hf; omega
  | succ fuel ih =>
    intro bits hge hle hf
    rw [growCap]
    split
    · next hlt =>
      have hlt63 : bits < 63 := by
        by_contra hge63
        have : bits = 63 := by omega
        subst this
        omega
      have hpow : (2 ^ bits <<< 1 % 2 ^ 64 : ℕ) = 2 ^ (bits + 1) := by
        rw [Nat.shiftLeft_eq, pow_one, ← pow_succ]
        exact Nat.mod_eq_of_lt (Nat.pow_lt_pow_right (by omega) (by omega))
      rw [hpow]
      exact ih (bits + 1) (by omega) (by omega) (by omega)
    · exact ⟨bits, rfl, hge, hle, by omega⟩

/-- **The constructor** returns the empty map for every capacity up to `2^62`. -/
theorem new_spec {maxEntries : ℕ} (hle : maxEntries ≤ 2 ^ 62) :
    ∃ m : FlatIdMap V, new maxEntries = some m ∧ WF m ∧ m.maxEntries = maxEntries ∧
      m.size = 0 ∧ ∀ k, m.find k = none := by
  have hmod : maxEntries * 2 % 2 ^ 64 = maxEntries * 2 := Nat.mod_eq_of_lt (by omega)
  obtain ⟨b, hgrow, hb4, hb63, hneed⟩ :=
    growCap_eq (maxEntries * 2) (by omega) 64 4 (by omega) (by omega) (by omega)
  let m : FlatIdMap V :=
    { slots := List.replicate (2 ^ b) ⟨kEmpty, default⟩
      mask := 2 ^ b - 1
      shift := 64 - b
      size := 0
      maxEntries := maxEntries }
  have hnew : new maxEntries = some m := by
    rw [new, hmod, show (16 : ℕ) = 2 ^ 4 by norm_num, hgrow, Option.map_some]
  have hring : Ring m b := ⟨hb4, hb63, List.length_replicate, rfl, rfl, hneed⟩
  obtain ⟨hwf, hfind⟩ := wf_of_all_empty hring rfl
    (fun s hs => by rw [List.eq_of_mem_replicate hs])
  exact ⟨m, hnew, hwf, rfl, rfl, hfind⟩

/-- Once `cap` has wrapped to `0` the doubling loop never ends. -/
theorem growCap_zero {need : ℕ} (hneed : 0 < need) :
    ∀ fuel bits, growCap need fuel 0 bits = none := by
  intro fuel
  induction fuel with
  | zero => intro bits; rfl
  | succ fuel ih =>
    intro bits
    rw [growCap, if_pos hneed]
    exact ih (bits + 1)

/-- The doubling loop does not end when the bound is above `2^63`. -/
theorem growCap_eq_none {need : ℕ} (hneed : 2 ^ 63 < need) :
    ∀ fuel bits, bits ≤ 63 → growCap need fuel (2 ^ bits) bits = none := by
  intro fuel
  induction fuel with
  | zero => intro bits _; rfl
  | succ fuel ih =>
    intro bits hle
    have hpow : (2 : ℕ) ^ bits ≤ 2 ^ 63 := Nat.pow_le_pow_right (by omega) hle
    rw [growCap, if_pos (by omega), Nat.shiftLeft_eq, pow_one, ← pow_succ]
    by_cases hb : bits = 63
    · subst hb
      rw [Nat.mod_self]
      exact growCap_zero (by omega) fuel _
    · rw [Nat.mod_eq_of_lt (Nat.pow_lt_pow_right (by omega) (by omega))]
      exact ih (bits + 1) (by omega)

/-- The constructor returns exactly for capacities up to `2^62`, among those whose double
is representable. -/
theorem new_isSome_iff {maxEntries : ℕ} (hrep : maxEntries * 2 < 2 ^ 64) :
    (new maxEntries : Option (FlatIdMap V)).isSome ↔ maxEntries ≤ 2 ^ 62 := by
  constructor
  · intro hsome
    by_contra hgt
    rw [new, Nat.mod_eq_of_lt hrep, show (16 : ℕ) = 2 ^ 4 by norm_num,
      growCap_eq_none (by omega) 64 4 (by omega)] at hsome
    cases hsome
  · intro hle
    obtain ⟨m, hm, -⟩ := new_spec (V := V) hle
    rw [hm]
    rfl

/-- `for_each` shows what `find` finds. -/
theorem mem_forEach_iff (h : WF m) {key : ℕ} {v : V} :
    (key, v) ∈ m.forEach ↔ m.find key = some v := by
  rw [find_eq_some_iff h, forEach, List.mem_map]
  constructor
  · rintro ⟨s, hs, heq⟩
    rw [List.mem_filter] at hs
    obtain ⟨i, hi, rfl⟩ := List.mem_iff_getElem.mp hs.1
    cases heq
    refine ⟨i, table_eq_some_iff.mpr ⟨slotAt_eq_getElem hi, ?_⟩⟩
    simpa using hs.2
  · rintro ⟨i, hi⟩
    have hil := lt_length_of_table hi
    obtain ⟨hat, hne⟩ := table_eq_some_iff.mp hi
    rw [slotAt_eq_getElem hil] at hat
    refine ⟨⟨key, v⟩, List.mem_filter.mpr ⟨hat ▸ List.getElem_mem hil, ?_⟩, rfl⟩
    simpa using hne

/-- `for_each` visits as many bindings as `size` counts. -/
theorem length_forEach (h : WF m) : m.forEach.length = m.size := by
  rw [forEach, List.length_map, h.size_eq, liveCount, List.countP_eq_length_filter]

/-- `for_each` visits each key once. -/
theorem nodup_forEach (h : WF m) : (m.forEach.map Prod.fst).Nodup := by
  have hpair : m.slots.Pairwise fun s t => s.key ≠ kEmpty → t.key ≠ kEmpty → s.key ≠ t.key := by
    rw [List.pairwise_iff_getElem]
    intro i j hi hj hij hs ht hst
    have hti := table_eq_some_iff.mpr ⟨slotAt_eq_getElem hi, hs⟩
    have htj := table_eq_some_iff.mpr ⟨slotAt_eq_getElem hj, ht⟩
    have := h.distinct i j _ _ hti htj hst
    omega
  rw [forEach, List.map_map, List.Nodup, List.pairwise_map, List.pairwise_filter]
  refine hpair.imp ?_
  intro s t hst hs ht
  exact hst (by simpa using hs) (by simpa using ht)

end PulseForge.FlatIdMap
