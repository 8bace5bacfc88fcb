import Mathlib.Data.List.Basic
import Mathlib.Tactic

/-!
# What a slot allocator is for

A client asks for slots, hands them back, and writes and reads the slots it holds. The allocator
keeps a stack of free slots, and remembers for its client what was last written in each slot since
it was handed out. A client may use a slot, or hand it back, only while it holds it; `Allows` says
this of a whole list of calls.
-/

set_option autoImplicit false

namespace PulseForge

/-- A call of the client. -/
inductive SlotOp (T : Type) where
  | acquire
  | release (p : ℕ)
  | write (p : ℕ) (value : T)
  | read (p : ℕ)
deriving Repr, DecidableEq

/-- What the client is told. -/
inductive SlotAnswer (T : Type) where
  | pointer (p : Option ℕ)
  | done
  | value (v : Option T)
deriving Repr, DecidableEq

structure SlotAllocator (T : Type) where
  free : List ℕ
  held : List ℕ := []
  value : ℕ → Option T := fun _ => none

namespace SlotAllocator

variable {T : Type}

def new (capacity : ℕ) : SlotAllocator T where
  free := List.range capacity

/-- The slot on top of the stack goes to the client; nothing is known of its object. -/
def take (s : SlotAllocator T) : SlotAllocator T :=
  match s.free with
  | [] => s
  | p :: free => { free := free, held := p :: s.held, value := Function.update s.value p none }

def step (s : SlotAllocator T) : SlotOp T → SlotAllocator T × SlotAnswer T
  | .acquire => (s.take, .pointer s.free.head?)
  | .release p => ({ s with free := p :: s.free, held := s.held.erase p }, .done)
  | .write p v => ({ s with value := Function.update s.value p (some v) }, .done)
  | .read p => (s, .value (s.value p))

/-- The client holds the slot it uses. -/
def Allowed (s : SlotAllocator T) : SlotOp T → Prop
  | .acquire => True
  | .release p | .write p _ | .read p => p ∈ s.held

instance (s : SlotAllocator T) : DecidablePred s.Allowed
  | .acquire => isTrue trivial
  | .release p | .write p _ | .read p => inferInstanceAs (Decidable (p ∈ s.held))

def run (s : SlotAllocator T) : List (SlotOp T) → SlotAllocator T × List (SlotAnswer T)
  | [] => (s, [])
  | op :: ops => (((s.step op).1.run ops).1, (s.step op).2 :: ((s.step op).1.run ops).2)

/-- Every call of the list is allowed when it is made. -/
def Allows (s : SlotAllocator T) : List (SlotOp T) → Prop
  | [] => True
  | op :: ops => s.Allowed op ∧ (s.step op).1.Allows ops

instance decidableAllows : (s : SlotAllocator T) → (ops : List (SlotOp T)) →
    Decidable (s.Allows ops)
  | _, [] => isTrue trivial
  | s, op :: ops => @instDecidableAnd _ _ _ (decidableAllows (s.step op).1 ops)

/-- Every slot is free or held, and no slot is twice. -/
def Sound (capacity : ℕ) (s : SlotAllocator T) : Prop :=
  (s.free ++ s.held).Perm (List.range capacity)

variable {capacity : ℕ} {s : SlotAllocator T}

/-- A new allocator is sound. -/
theorem sound_new : (new capacity : SlotAllocator T).Sound capacity := by
  unfold Sound new
  rw [List.append_nil]

/-- Nothing is taken when nothing is free. -/
theorem take_nil (h : s.free = []) : s.take = s := by
  unfold take
  rw [h]

/-- The first free slot is taken, without a value. -/
theorem take_cons {p : ℕ} {free : List ℕ} (h : s.free = p :: free) :
    s.take = { free := free, held := p :: s.held, value := Function.update s.value p none } := by
  unfold take
  rw [h]

/-- Taking keeps the allocator sound. -/
theorem Sound.take (h : s.Sound capacity) : s.take.Sound capacity := by
  cases hfree : s.free with
  | nil =>
    rw [take_nil hfree]
    exact h
  | cons p free =>
    rw [take_cons hfree]
    unfold Sound at h ⊢
    rw [hfree] at h
    exact List.perm_middle.trans h

/-- So does every call that the client may make. -/
theorem Sound.step (h : s.Sound capacity) {op : SlotOp T} (hop : s.Allowed op) :
    (s.step op).1.Sound capacity := by
  cases op with
  | acquire => exact h.take
  | release p =>
    have hheld : s.held.Perm (p :: s.held.erase p) := List.perm_cons_erase hop
    apply List.Perm.trans _ h
    apply List.Perm.trans _ (hheld.symm.append_left s.free)
    exact List.perm_middle.symm
  | write p v => exact h
  | read p => exact h

/-- A slot is free or held, and only once. -/
theorem Sound.nodup (h : s.Sound capacity) : (s.free ++ s.held).Nodup :=
  h.nodup_iff.mpr List.nodup_range

/-- Every slot is below the capacity. -/
theorem Sound.lt (h : s.Sound capacity) {p : ℕ} (hp : p ∈ s.free ∨ p ∈ s.held) : p < capacity := by
  have hmem : p ∈ s.free ++ s.held := List.mem_append.mpr hp
  rw [h.mem_iff] at hmem
  exact List.mem_range.mp hmem

/-- A free slot is not held. -/
theorem Sound.not_held (h : s.Sound capacity) {p : ℕ} (hp : p ∈ s.free) : p ∉ s.held := by
  intro hheld
  exact (List.nodup_append.mp h.nodup).2.2 p hp p hheld rfl

/-- No slot is lost. -/
theorem Sound.length_add (h : s.Sound capacity) : s.free.length + s.held.length = capacity := by
  rw [← List.length_append, h.length_eq, List.length_range]

/-- Nothing is free exactly when every slot is held. -/
theorem Sound.exhausted_iff (h : s.Sound capacity) : s.free = [] ↔ s.held.length = capacity := by
  have hlen := h.length_add
  rw [← List.length_eq_zero_iff]
  omega

end SlotAllocator

end PulseForge
