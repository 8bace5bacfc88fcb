import PulseForge.Foundation.LinearProbe

/-!
# `FlatIdMap`: the open-addressing map of `flat_id_map.hpp`

One flat array of `{key, value}` slots, a power of two at least twice `max_entries`,
Fibonacci hashing, linear probing, backward-shift deletion, key `0` for an empty slot.

Keys are natural numbers; on keys below `2^64` the product in `home` is the `uint64_t`
product of the source. The three probe loops of `insert`, `find` and `erase` stop at the
same slot, the first one that is empty or holds the key, and are one definition here.
A loop that has tested every slot without stopping would go round for ever; that outcome
is `none`, and `probe_isSome` and `backShift_spec` of the analysis say it never happens.
-/

set_option autoImplicit false

namespace PulseForge

open Foundation

/-- One slot of the table (flat_id_map.hpp:169-172). -/
structure Slot (V : Type) where
  key : ℕ
  val : V
deriving Repr, DecidableEq, Inhabited

/-- The map (flat_id_map.hpp:178-182). -/
structure FlatIdMap (V : Type) where
  slots : List (Slot V)
  mask : ℕ
  shift : ℕ
  size : ℕ
  maxEntries : ℕ
deriving Repr, DecidableEq

namespace FlatIdMap

variable {V : Type}

/-- The sentinel key of an empty slot. -/
def kEmpty : ℕ := 0

/-- The doubling loop of the constructor, on `size_t`: `none` when it does not reach
`need` within 64 doublings, because `cap` has wrapped to `0` and stays there. -/
def growCap (need : ℕ) : ℕ → ℕ → ℕ → Option (ℕ × ℕ)
  | 0, _, _ => none
  | fuel + 1, cap, bits =>
    if cap < need then growCap need fuel (cap <<< 1 % 2 ^ 64) (bits + 1) else some (cap, bits)

/-- The constructor (flat_id_map.hpp:59-69). -/
def new [Inhabited V] (maxEntries : ℕ) : Option (FlatIdMap V) :=
  (growCap (maxEntries * 2 % 2 ^ 64) 64 16 4).map fun (cap, bits) =>
    { slots := List.replicate cap ⟨kEmpty, default⟩
      mask := cap - 1
      shift := 64 - bits
      size := 0
      maxEntries := maxEntries }

/-- The slot a key hashes to (flat_id_map.hpp:174-176). -/
def home (m : FlatIdMap V) (key : ℕ) : ℕ := (key * 0x9E3779B97F4A7C15 % 2 ^ 64) >>> m.shift

/-- The slot after `i`, wrapping round. -/
def nextSlot (m : FlatIdMap V) (i : ℕ) : ℕ := (i + 1) &&& m.mask

/-- The cyclic distance `(b - a) & mask_`, on `size_t`. -/
def maskedSub (m : FlatIdMap V) (b a : ℕ) : ℕ := (b + 2 ^ 64 - a) % 2 ^ 64 &&& m.mask

variable [Inhabited V]

/-- The content of slot `i`. -/
def slotAt (slots : List (Slot V)) (i : ℕ) : Slot V := slots.getD i ⟨kEmpty, default⟩

/-- The probe loop: from the key's home to the first slot that is empty or holds it. -/
def probe (m : FlatIdMap V) (key : ℕ) : Option ℕ :=
  firstStop m.nextSlot
    (fun i => (slotAt m.slots i).key == kEmpty || (slotAt m.slots i).key == key)
    m.slots.length (m.home key)

/-- `insert` (flat_id_map.hpp:72-87). -/
def insert (m : FlatIdMap V) (key : ℕ) (value : V) : FlatIdMap V × Bool :=
  if key = kEmpty ∨ m.maxEntries ≤ m.size then (m, false)
  else match m.probe key with
    | none => (m, false)
    | some i =>
      if (slotAt m.slots i).key = key then (m, false)
      else ({ m with slots := m.slots.set i ⟨key, value⟩, size := m.size + 1 }, true)

/-- `find` (flat_id_map.hpp:89-101). -/
def find (m : FlatIdMap V) (key : ℕ) : Option V :=
  if key = kEmpty then none
  else match m.probe key with
    | none => none
    | some i => if (slotAt m.slots i).key = key then some (slotAt m.slots i).val else none

/-- A write through the pointer `find` returns. -/
def modify (m : FlatIdMap V) (key : ℕ) (f : V → V) : FlatIdMap V :=
  if key = kEmpty then m
  else match m.probe key with
    | none => m
    | some i =>
      if (slotAt m.slots i).key = key then
        { m with slots := m.slots.set i ⟨key, f (slotAt m.slots i).val⟩ }
      else m

/-- The backward-shift loop of `erase` (flat_id_map.hpp:127-137) with the hole at `i` and
the scan at `j`; it returns the shifted slots and the last hole. -/
def backShift (m : FlatIdMap V) : ℕ → List (Slot V) → ℕ → ℕ → Option (List (Slot V) × ℕ)
  | 0, _, _, _ => none
  | fuel + 1, slots, i, j =>
    let j := m.nextSlot j
    if (slotAt slots j).key = kEmpty then some (slots, i)
    else
      let h := m.home (slotAt slots j).key
      if m.maskedSub j i ≤ m.maskedSub j h then
        m.backShift fuel (slots.set i (slotAt slots j)) j j
      else m.backShift fuel slots i j

/-- `erase` (flat_id_map.hpp:107-141). -/
def erase (m : FlatIdMap V) (key : ℕ) : FlatIdMap V × Bool :=
  if key = kEmpty then (m, false)
  else match m.probe key with
    | none => (m, false)
    | some i =>
      if (slotAt m.slots i).key = key then
        match m.backShift m.slots.length m.slots i i with
        | none => (m, false)
        | some (slots, hole) =>
          ({ m with
              slots := slots.set hole { slotAt slots hole with key := kEmpty }
              size := m.size - 1 }, true)
      else (m, false)

/-- `clear` (flat_id_map.hpp:143-148): the values stay behind. -/
def clear (m : FlatIdMap V) : FlatIdMap V :=
  { m with slots := m.slots.map fun s => { s with key := kEmpty }, size := 0 }

/-- What `for_each` visits, in its order (flat_id_map.hpp:152-159). -/
def forEach (m : FlatIdMap V) : List (ℕ × V) :=
  (m.slots.filter fun s => s.key != kEmpty).map fun s => (s.key, s.val)

end FlatIdMap

end PulseForge
