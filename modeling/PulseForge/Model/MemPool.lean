import PulseForge.Interface.SlotAllocator

/-!
# The object pool (`mem_pool.hpp`)

A slot is a union of the storage of an object and the link of the free list. The model carries
which member was last written: reading the other one is undefined, and so are pointers that are no
slot. An undefined call has no result. A pointer is the index of its slot, `none` is `nullptr`.
-/

set_option autoImplicit false

namespace PulseForge

/-- mem_pool.hpp:82-88; the constructor of the union writes no member. -/
inductive MemPool.Slot (T : Type) where
  | unset
  | storage (value : T)
  | nextFree (next : Option ℕ)
deriving Repr, DecidableEq

/-- mem_pool.hpp:90-92. -/
structure MemPool (T : Type) where
  slots : List (MemPool.Slot T)
  freeHead : Option ℕ := none
  available : UInt64
deriving Repr, DecidableEq

namespace MemPool

variable {T : Type}

/-- The loop of the constructor (mem_pool.hpp:44-46), from `i` on. -/
def thread (capacity : ℕ) (slots : List (Slot T)) (i : ℕ) : List (Slot T) :=
  if i + 1 < capacity then thread capacity (slots.set i (.nextFree (some (i + 1)))) (i + 1)
  else slots
termination_by capacity - i

/-- The constructor (mem_pool.hpp:41-51). -/
def new (capacity : UInt64) : MemPool T :=
  let slots := thread capacity.toNat (List.replicate capacity.toNat .unset) 0
  { slots := if capacity > 0 then slots.set (capacity.toNat - 1) (.nextFree none) else slots
    freeHead := if capacity > 0 then some 0 else none
    available := capacity }

/-- mem_pool.hpp:59-67. -/
def acquire (pool : MemPool T) : Option (MemPool T × Option ℕ) :=
  match pool.freeHead with
  | none => some (pool, none)
  | some slot =>
    match pool.slots[slot]? with
    | some (.nextFree next) =>
      some ({ pool with freeHead := next, available := pool.available - 1 }, some slot)
    | _ => none

/-- mem_pool.hpp:71-76. -/
def release (pool : MemPool T) (ptr : ℕ) : Option (MemPool T) :=
  if ptr < pool.slots.length then
    some { slots := pool.slots.set ptr (.nextFree pool.freeHead)
           freeHead := some ptr
           available := pool.available + 1 }
  else none

/-- The client stores an object in a slot. -/
def write (pool : MemPool T) (ptr : ℕ) (value : T) : Option (MemPool T) :=
  if ptr < pool.slots.length then some { pool with slots := pool.slots.set ptr (.storage value) }
  else none

/-- The client loads the object of a slot; the inner `none` is a slot without an object. -/
def read (pool : MemPool T) (ptr : ℕ) : Option (Option T) :=
  match pool.slots[ptr]? with
  | none => none
  | some (.storage value) => some (some value)
  | some _ => some none

def perform (pool : MemPool T) : SlotOp T → Option (MemPool T × SlotAnswer T)
  | .acquire => pool.acquire.map fun r => (r.1, .pointer r.2)
  | .release p => (pool.release p).map fun pool => (pool, .done)
  | .write p v => (pool.write p v).map fun pool => (pool, .done)
  | .read p => (pool.read p).map fun v => (pool, .value v)

def run (pool : MemPool T) : List (SlotOp T) → Option (MemPool T × List (SlotAnswer T))
  | [] => some (pool, [])
  | op :: ops =>
    (pool.perform op).bind fun r => (r.1.run ops).map fun q => (q.1, r.2 :: q.2)

end MemPool

end PulseForge
