import Mathlib.Data.Finmap
import PulseForge.Foundation.Machine
import PulseForge.Analysis.FlatIdMapUpdates

/-!
# `FlatIdMap` is a bounded finite map

The reference is a mathematical finite map (`Finmap`) of at most `max_entries` keys that
refuses key `0`, a key it holds and any key when it is full. Every run of `insert`,
`find`, `erase` and `clear` on a map the constructor returns is answered as the reference
answers it, and after the run `find` and `for_each` show exactly the reference's bindings.
-/

set_option autoImplicit false

namespace PulseForge

open Foundation

/-- A call on the map. -/
inductive MapOp (V : Type) where
  | insert (key : ℕ) (value : V)
  | find (key : ℕ)
  | erase (key : ℕ)
  | clear
deriving Repr

/-- What a call returns. -/
inductive MapAnswer (V : Type) where
  | done (ok : Bool)
  | found (value : Option V)
  | none
deriving Repr, DecidableEq

variable {V : Type} [Inhabited V]

/-- One call on the source's map. -/
def FlatIdMap.call (m : FlatIdMap V) : MapOp V → FlatIdMap V × MapAnswer V
  | .insert key value => let (m', ok) := m.insert key value; (m', .done ok)
  | .find key => (m, .found (m.find key))
  | .erase key => let (m', ok) := m.erase key; (m', .done ok)
  | .clear => (m.clear, .none)

/-- The reference: a finite map bounded by `maxEntries`. -/
abbrev RefMap (V : Type) := Finmap fun _ : ℕ => V

omit [Inhabited V] in
/-- One call on the reference map. -/
def RefMap.call (maxEntries : ℕ) (f : RefMap V) : MapOp V → RefMap V × MapAnswer V
  | .insert key value =>
    if key = 0 ∨ key ∈ f ∨ maxEntries ≤ f.keys.card then (f, .done false)
    else (Finmap.insert key value f, .done true)
  | .find key => (f, .found (f.lookup key))
  | .erase key => if key ∈ f then (f.erase key, .done true) else (f, .done false)
  | .clear => (∅, .none)

namespace FlatIdMap

/-- The map holds the bindings of the reference. -/
structure Represents (maxEntries : ℕ) (m : FlatIdMap V) (f : RefMap V) : Prop where
  wf : WF m
  maxEntries_eq : m.maxEntries = maxEntries
  find_eq : ∀ k, m.find k = f.lookup k

namespace Represents

variable {maxEntries : ℕ} {m : FlatIdMap V} {f : RefMap V}

/-- The reference has the keys that the map finds. -/
theorem mem_iff (h : Represents maxEntries m f) (k : ℕ) : k ∈ f ↔ (m.find k).isSome := by
  rw [h.find_eq, Finmap.lookup_isSome]

/-- `size` counts the reference's keys. -/
theorem size_eq (h : Represents maxEntries m f) : m.size = f.keys.card := by
  have hkeys : f.keys = (m.forEach.map Prod.fst).toFinset := by
    ext k
    rw [Finmap.mem_keys, h.mem_iff, List.mem_toFinset, List.mem_map, Option.isSome_iff_exists]
    constructor
    · rintro ⟨v, hv⟩
      exact ⟨(k, v), (mem_forEach_iff h.wf).mpr hv, rfl⟩
    · rintro ⟨⟨k', v⟩, hmem, rfl⟩
      exact ⟨v, (mem_forEach_iff h.wf).mp hmem⟩
  rw [hkeys, List.toFinset_card_of_nodup (nodup_forEach h.wf), List.length_map,
    length_forEach h.wf]

/-- `insert` answers and does what the reference answers and does. -/
theorem insert_step (h : Represents maxEntries m f) (k : ℕ) (v : V) :
    (m.call (.insert k v)).2 = (f.call maxEntries (.insert k v)).2 ∧
      Represents maxEntries (m.call (.insert k v)).1 (f.call maxEntries (.insert k v)).1 := by
  by_cases hrefuse : k = 0 ∨ k ∈ f ∨ maxEntries ≤ f.keys.card
  · have hins : m.insert k v = (m, false) := by
      rcases hrefuse with rfl | hmem | hfull
      · exact insert_zero v
      · obtain ⟨w, hw⟩ := Option.isSome_iff_exists.mp ((h.mem_iff k).mp hmem)
        exact insert_of_mem h.wf v hw
      · exact insert_of_full k v (by rw [h.maxEntries_eq, h.size_eq]; exact hfull)
    simp only [call, hins, RefMap.call, if_pos hrefuse]
    exact ⟨trivial, h⟩
  · push Not at hrefuse
    obtain ⟨hk, hmem, hroom⟩ := hrefuse
    have hf : m.find k = none := by
      rw [← Option.not_isSome_iff_eq_none, ← h.mem_iff]
      exact hmem
    obtain ⟨m', hins, hwf, hmax, -, hfind⟩ :=
      insert_of_new h.wf v hk (by rw [h.maxEntries_eq, h.size_eq]; exact hroom) hf
    have hnot : ¬ (k = 0 ∨ k ∈ f ∨ maxEntries ≤ f.keys.card) := by
      push Not
      exact ⟨hk, hmem, hroom⟩
    simp only [call, hins, RefMap.call, if_neg hnot]
    refine ⟨trivial, hwf, hmax.trans h.maxEntries_eq, fun k' => ?_⟩
    rw [hfind k']
    by_cases hkk : k' = k
    · rw [if_pos hkk, hkk, Finmap.lookup_insert]
    · rw [if_neg hkk, Finmap.lookup_insert_of_ne _ hkk, h.find_eq]

/-- `erase` answers and does what the reference answers and does. -/
theorem erase_step (h : Represents maxEntries m f) (k : ℕ) :
    (m.call (.erase k)).2 = (f.call maxEntries (.erase k)).2 ∧
      Represents maxEntries (m.call (.erase k)).1 (f.call maxEntries (.erase k)).1 := by
  by_cases hmem : k ∈ f
  · obtain ⟨v, hv⟩ := Option.isSome_iff_exists.mp ((h.mem_iff k).mp hmem)
    obtain ⟨m', her, hwf, hmax, -, hfind⟩ := erase_of_mem h.wf hv
    simp only [call, her, RefMap.call, if_pos hmem]
    refine ⟨trivial, hwf, hmax.trans h.maxEntries_eq, fun k' => ?_⟩
    rw [hfind k']
    by_cases hkk : k' = k
    · rw [if_pos hkk, hkk, Finmap.lookup_erase]
    · rw [if_neg hkk, Finmap.lookup_erase_ne hkk, h.find_eq]
  · have hf : m.find k = none := by
      rw [← Option.not_isSome_iff_eq_none, ← h.mem_iff]
      exact hmem
    simp only [call, erase_of_absent h.wf hf, RefMap.call, if_neg hmem]
    exact ⟨trivial, h⟩

/-- Every call is answered as the reference answers it. -/
theorem step (h : Represents maxEntries m f) (op : MapOp V) :
    (m.call op).2 = (f.call maxEntries op).2 ∧
      Represents maxEntries (m.call op).1 (f.call maxEntries op).1 := by
  cases op with
  | insert k v => exact h.insert_step k v
  | find k => exact ⟨by simp only [call, RefMap.call, h.find_eq], h⟩
  | erase k => exact h.erase_step k
  | clear =>
    obtain ⟨hwf, hmax, -, hfind⟩ := clear_spec h.wf
    refine ⟨rfl, hwf, hmax.trans h.maxEntries_eq, fun k => ?_⟩
    rw [RefMap.call, Finmap.lookup_empty]
    exact hfind k

end Represents

/-- **`FlatIdMap` refines the bounded finite map.** The constructor returns for up to `2 ^ 62`
entries, and its doubling loop goes round for ever above. Every run of calls on a map it returned
gives the reference's answers; afterwards `find` and `for_each` see exactly the reference's
bindings, `for_each` each of them once, a slot is empty, and the probe loops and the
backward-shift loop of the next call end. -/
theorem run_refines_refMap {maxEntries : ℕ} (hrep : maxEntries * 2 < 2 ^ 64) :
    ((new maxEntries : Option (FlatIdMap V)).isSome ↔ maxEntries ≤ 2 ^ 62) ∧
    ∀ m : FlatIdMap V, new maxEntries = some m → ∀ ops : List (MapOp V),
      let (m', answers) := Foundation.run FlatIdMap.call m ops
      let (f', answers') := Foundation.run (RefMap.call maxEntries) (∅ : RefMap V) ops
      answers = answers' ∧
        (∀ k, m'.find k = f'.lookup k) ∧
        (∀ k v, (k, v) ∈ m'.forEach ↔ f'.lookup k = some v) ∧
        (m'.forEach.map Prod.fst).Nodup ∧
        m'.size = f'.keys.card ∧
        (∃ i < m'.slots.length, (slotAt m'.slots i).key = kEmpty) ∧
        (∀ k, (m'.probe k).isSome) ∧
        ∀ k i, k ≠ kEmpty → m'.probe k = some i → (slotAt m'.slots i).key = k →
          (m'.backShift m'.slots.length m'.slots i i).isSome := by
  refine ⟨new_isSome_iff hrep, fun m hnew ops => ?_⟩
  have hle : maxEntries ≤ 2 ^ 62 := (new_isSome_iff (V := V) hrep).mp (by rw [hnew]; rfl)
  obtain ⟨m₀, hm₀, hwf₀, hmax₀, -, hfind₀⟩ := new_spec (V := V) hle
  obtain rfl : m₀ = m := by
    rw [hnew, Option.some.injEq] at hm₀
    exact hm₀.symm
  have hinit : Represents maxEntries m₀ (∅ : RefMap V) :=
    ⟨hwf₀, hmax₀, fun k => by rw [hfind₀, Finmap.lookup_empty]⟩
  obtain ⟨hans, hrel⟩ :=
    run_sim (Represents maxEntries) (fun _ _ op h => Represents.step h op) ops hinit
  refine ⟨hans, hrel.find_eq, fun k v => ?_, nodup_forEach hrel.wf, hrel.size_eq, ?_,
    probe_isSome hrel.wf, fun k i hk hprobe hat => ?_⟩
  · rw [mem_forEach_iff hrel.wf, hrel.find_eq]
  · obtain ⟨i, hi, hempty⟩ := hrel.wf.exists_empty
    exact ⟨i, hi, table_eq_none_iff.mp hempty⟩
  · exact backShift_isSome hrel.wf (table_eq_some_iff.mpr ⟨rfl, hat ▸ hk⟩)

/-- A map of three entries: a fourth key is refused until one of the three is erased. -/
theorem run_refines_refMap_three :
    ∃ m : FlatIdMap ℕ, new 3 = some m ∧
      (Foundation.run FlatIdMap.call m
        [.insert 7 70, .insert 8 80, .insert 9 90, .insert 4 40, .erase 8, .insert 4 40]).2 =
      (Foundation.run (RefMap.call 3) (∅ : RefMap ℕ)
        [.insert 7 70, .insert 8 80, .insert 9 90, .insert 4 40, .erase 8, .insert 4 40]).2 := by
  obtain ⟨m, hnew⟩ := Option.isSome_iff_exists.mp
    ((@run_refines_refMap ℕ _ 3 (by norm_num)).1.mpr (by norm_num))
  exact ⟨m, hnew, ((@run_refines_refMap ℕ _ 3 (by norm_num)).2 m hnew _).1⟩

end FlatIdMap

end PulseForge
