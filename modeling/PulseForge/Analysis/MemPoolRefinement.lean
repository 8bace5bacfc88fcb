import PulseForge.Foundation.LinkedQueue
import PulseForge.Model.MemPool

/-!
# The object pool is a slot allocator

The free slots are a chain from `free_head_`, in the order of the allocator's stack, and each of
them holds a link: the pool reads the link of the union only where a link was written last. A slot
that is held is on no chain, so that what its holder writes stays until it is handed back. Every
allowed call keeps this, and is answered as the allocator answers it.
-/

set_option autoImplicit false

namespace PulseForge

open Foundation

namespace MemPool

variable {T : Type}

/-! ## The free list -/

/-- The link of a slot; `nil` for a slot that holds none. -/
def Slot.link (nil : ℕ) : Slot T → ℕ
  | .nextFree (some n) => n
  | _ => nil

/-- The object of a slot, if it holds one. -/
def Slot.object : Slot T → Option T
  | .storage v => some v
  | _ => none

variable {pool : MemPool T} {s : SlotAllocator T} {capacity : UInt64}

def linkOf (slots : List (Slot T)) (nil p : ℕ) : ℕ := (slots[p]?.getD .unset).link nil

/-- Writing a slot keeps the links of the others. -/
theorem linkOf_set_ne {slots : List (Slot T)} {nil p q : ℕ} (c : Slot T) (h : p ≠ q) :
    linkOf (slots.set p c) nil q = linkOf slots nil q := by
  unfold linkOf
  rw [List.getElem?_set_ne h]

/-- The link of the slot that was written. -/
theorem linkOf_set {slots : List (Slot T)} {nil p : ℕ} (c : Slot T) (h : p < slots.length) :
    linkOf (slots.set p c) nil p = c.link nil := by
  unfold linkOf
  rw [List.getElem?_set_self h]
  rfl

/-- **The pool is the allocator `s`.** -/
structure Serves (capacity : UInt64) (pool : MemPool T) (s : SlotAllocator T) : Prop where
  size : pool.slots.length = capacity.toNat
  sound : s.Sound capacity.toNat
  chain : Chain (linkOf pool.slots capacity.toNat) capacity.toNat
    (pool.freeHead.getD capacity.toNat) s.free
  head : ∀ p, pool.freeHead = some p → p < capacity.toNat
  linked : ∀ p ∈ s.free, ∃ next, pool.slots[p]? = some (.nextFree next) ∧
    ∀ q, next = some q → q < capacity.toNat
  stored : ∀ p ∈ s.held, (pool.slots[p]?.getD .unset).object = s.value p
  available : pool.available = UInt64.ofNat s.free.length

/-! ## The constructor -/

theorem length_thread (slots : List (Slot T)) (c i : ℕ) :
    (thread c slots i).length = slots.length := by
  induction slots, i using thread.induct c with
  | case1 slots i h ih =>
    rw [thread, if_pos h, ih, List.length_set]
  | case2 slots i h => rw [thread, if_neg h]

/-- The loop links every slot but the last to the one behind it. -/
theorem getElem?_thread (slots : List (Slot T)) (c i j : ℕ) (hlen : slots.length = c) :
    (thread c slots i)[j]? =
      if i ≤ j ∧ j + 1 < c then some (.nextFree (some (j + 1))) else slots[j]? := by
  induction slots, i using thread.induct c with
  | case1 slots i h ih =>
    rw [thread, if_pos h, ih (by rw [List.length_set, hlen])]
    by_cases hij : i = j
    · subst hij
      rw [if_neg (by omega), if_pos ⟨le_refl i, h⟩, List.getElem?_set_self (by omega)]
    · rw [List.getElem?_set_ne hij]
      have hiff : (i + 1 ≤ j ∧ j + 1 < c) ↔ (i ≤ j ∧ j + 1 < c) := by omega
      simp only [hiff]
  | case2 slots i h =>
    rw [thread, if_neg h, if_neg (by omega)]

/-- The slots of a new pool, each linked to the next one and the last one to none. -/
theorem getElem?_new {j : ℕ} (hj : j < capacity.toNat) :
    (new capacity : MemPool T).slots[j]? =
      some (.nextFree (if j + 1 < capacity.toNat then some (j + 1) else none)) := by
  have hpos : capacity > 0 := by
    rw [gt_iff_lt, UInt64.lt_iff_toNat_lt, UInt64.toNat_zero]
    omega
  simp only [new, if_pos hpos]
  by_cases hlast : j + 1 < capacity.toNat
  · rw [List.getElem?_set_ne (by omega), getElem?_thread _ _ _ _ List.length_replicate,
      if_pos ⟨Nat.zero_le j, hlast⟩, if_pos hlast]
  · have hj' : capacity.toNat - 1 = j := by omega
    rw [hj', List.getElem?_set_self, if_neg hlast]
    rw [length_thread, List.length_replicate]
    exact hj

theorem length_new : (new capacity : MemPool T).slots.length = capacity.toNat := by
  unfold new
  dsimp only
  split
  · rw [List.length_set, length_thread, List.length_replicate]
  · rw [length_thread, List.length_replicate]

/-- Nodes that are linked to their successors are a chain. -/
theorem chain_range' {next : ℕ → ℕ} (nil : ℕ) (k i : ℕ) (h : i + k = nil)
    (hnext : ∀ j, i ≤ j → j < nil → next j = j + 1) : Chain next nil i (List.range' i k) := by
  induction k generalizing i with
  | zero => exact h
  | succ k ih =>
    rw [List.range'_succ]
    refine ⟨rfl, ?_⟩
    rw [hnext i (le_refl i) (by omega)]
    apply ih (i + 1) (by omega)
    intro j hij hj
    exact hnext j (by omega) hj

/-- A new pool serves a new allocator. -/
theorem serves_new : (new capacity : MemPool T).Serves capacity (.new capacity.toNat) := by
  have hhead : (new capacity : MemPool T).freeHead.getD capacity.toNat = 0 := by
    unfold new
    dsimp only
    split
    next => rfl
    next h =>
      rw [gt_iff_lt, UInt64.lt_iff_toNat_lt, UInt64.toNat_zero] at h
      simp only [Option.getD_none]
      omega
  constructor
  · exact length_new
  · exact SlotAllocator.sound_new
  · rw [hhead]
    unfold SlotAllocator.new
    rw [List.range_eq_range']
    apply chain_range' _ _ _ (Nat.zero_add _)
    intro j _ hj
    unfold linkOf
    rw [getElem?_new hj]
    split
    next => rfl
    next h =>
      simp only [Option.getD_some, Slot.link]
      omega
  · intro p hp
    unfold new at hp
    dsimp only at hp
    split at hp
    next h =>
      rw [gt_iff_lt, UInt64.lt_iff_toNat_lt, UInt64.toNat_zero] at h
      rw [← Option.some.inj hp]
      exact h
    next => cases hp
  · intro p hp
    have hlt : p < capacity.toNat := List.mem_range.mp hp
    refine ⟨_, getElem?_new hlt, ?_⟩
    intro q hq
    split at hq
    next h =>
      rw [← Option.some.inj hq]
      exact h
    next => cases hq
  · intro p hp
    cases hp
  · unfold new SlotAllocator.new
    rw [List.length_range, UInt64.ofNat_toNat]

/-! ## The calls -/

/-- A link that is no longer followed may be written over. -/
theorem chain_set {slots : List (Slot T)} {nil head p : ℕ} {free : List ℕ} (c : Slot T)
    (hchain : Chain (linkOf slots nil) nil head free) (hp : p ∉ free) :
    Chain (linkOf (slots.set p c) nil) nil head free := by
  apply hchain.congr
  intro a ha
  apply linkOf_set_ne
  rintro rfl
  exact hp ha

/-- The head of the free list is the slot to be taken next. -/
theorem Serves.freeHead_eq (h : pool.Serves capacity s) : pool.freeHead = s.free.head? := by
  have hchain := h.chain
  cases hfree : s.free with
  | nil =>
    rw [hfree] at hchain
    cases hhead : pool.freeHead with
    | none => rfl
    | some p =>
      have hlt := h.head p hhead
      rw [hhead] at hchain
      exact absurd hchain (Nat.ne_of_lt hlt)
  | cons p free =>
    rw [hfree] at hchain
    have hlt : p < capacity.toNat := h.sound.lt (Or.inl (by rw [hfree]; exact List.mem_cons_self))
    have heq : pool.freeHead.getD capacity.toNat = p := hchain.1
    cases hhead : pool.freeHead with
    | none =>
      rw [hhead] at heq
      exact absurd heq.symm (Nat.ne_of_lt hlt)
    | some q =>
      rw [hhead] at heq
      rw [List.head?_cons, ← heq]
      rfl

/-- `acquire` takes the slot that the allocator takes. -/
theorem Serves.acquire (h : pool.Serves capacity s) :
    ∃ pool', pool.acquire = some (pool', s.free.head?) ∧ pool'.Serves capacity s.take := by
  have hhead := h.freeHead_eq
  cases hfree : s.free with
  | nil =>
    rw [hfree] at hhead
    refine ⟨pool, ?_, ?_⟩
    · unfold MemPool.acquire
      rw [hhead]
      rfl
    · rw [SlotAllocator.take_nil hfree]
      exact h
  | cons p free =>
    rw [hfree] at hhead
    have hmem : p ∈ s.free := by
      rw [hfree]
      exact List.mem_cons_self
    have hnodup := h.sound.nodup
    rw [hfree, List.cons_append, List.nodup_cons, List.mem_append, not_or] at hnodup
    obtain ⟨next, hslot, hnext⟩ := h.linked p hmem
    refine ⟨{ pool with freeHead := next, available := pool.available - 1 }, ?_, ?_⟩
    · unfold MemPool.acquire
      rw [hhead]
      simp only [List.head?_cons, hslot]
    · have hsound := h.sound.take
      rw [SlotAllocator.take_cons hfree] at hsound ⊢
      have hchain := h.chain
      rw [hfree] at hchain
      have hlink : linkOf pool.slots capacity.toNat p = next.getD capacity.toNat := by
        unfold linkOf
        rw [hslot]
        cases next <;> rfl
      constructor
      · exact h.size
      · exact hsound
      · rw [← hlink]
        exact hchain.2
      · exact hnext
      · intro q hq
        apply h.linked
        rw [hfree]
        exact List.mem_cons_of_mem p hq
      · intro q hq
        dsimp only
        rw [List.mem_cons] at hq
        by_cases hqp : q = p
        · subst hqp
          rw [Function.update_self, hslot]
          rfl
        · rw [Function.update_of_ne hqp]
          exact h.stored q (hq.resolve_left hqp)
      · dsimp only
        rw [h.available, hfree, List.length_cons, UInt64.ofNat_add]
        exact UInt64.add_sub_cancel _ _

/-- `release` puts a slot of the client back in front. -/
theorem Serves.release (h : pool.Serves capacity s) {p : ℕ} (hp : p ∈ s.held) :
    ∃ pool', pool.release p = some pool' ∧ pool'.Serves capacity (s.step (.release p)).1 := by
  have hlt : p < capacity.toNat := h.sound.lt (Or.inr hp)
  have hlen : p < pool.slots.length := by
    rw [h.size]
    exact hlt
  have hfree : p ∉ s.free := fun hmem => h.sound.not_held hmem hp
  have hheld : s.held.Nodup := (List.nodup_append.mp h.sound.nodup).2.1
  refine ⟨_, if_pos hlen, ?_⟩
  constructor
  · exact (List.length_set ..).trans h.size
  · have hop : s.Allowed (.release p) := hp
    exact h.sound.step hop
  · refine ⟨rfl, ?_⟩
    dsimp only
    rw [linkOf_set _ hlen]
    have hlink : (Slot.nextFree pool.freeHead : Slot T).link capacity.toNat =
        pool.freeHead.getD capacity.toNat := by
      cases pool.freeHead <;> rfl
    rw [hlink]
    exact chain_set _ h.chain hfree
  · intro q hq
    rw [← Option.some.inj hq]
    exact hlt
  · intro q hq
    dsimp only [SlotAllocator.step] at hq ⊢
    rw [List.mem_cons] at hq
    by_cases hqp : q = p
    · subst hqp
      exact ⟨pool.freeHead, List.getElem?_set_self hlen, h.head⟩
    · rw [List.getElem?_set_ne (Ne.symm hqp)]
      exact h.linked q (hq.resolve_left hqp)
  · intro q hq
    dsimp only [SlotAllocator.step] at hq ⊢
    rw [hheld.mem_erase_iff] at hq
    rw [List.getElem?_set_ne (Ne.symm hq.1)]
    exact h.stored q hq.2
  · dsimp only [SlotAllocator.step]
    rw [h.available, List.length_cons, UInt64.ofNat_add]
    rfl

/-- The client writes to a slot it holds. -/
theorem Serves.write (h : pool.Serves capacity s) {p : ℕ} (hp : p ∈ s.held) (v : T) :
    ∃ pool', pool.write p v = some pool' ∧ pool'.Serves capacity (s.step (.write p v)).1 := by
  have hlen : p < pool.slots.length := by
    rw [h.size]
    exact h.sound.lt (Or.inr hp)
  have hfree : p ∉ s.free := fun hmem => h.sound.not_held hmem hp
  refine ⟨_, if_pos hlen, ?_⟩
  constructor
  · exact (List.length_set ..).trans h.size
  · exact h.sound
  · exact chain_set _ h.chain hfree
  · exact h.head
  · intro q hq
    dsimp only
    have hqp : p ≠ q := fun hpq => hfree (hpq ▸ hq)
    rw [List.getElem?_set_ne hqp]
    exact h.linked q hq
  · intro q hq
    dsimp only [SlotAllocator.step] at hq ⊢
    by_cases hqp : q = p
    · subst hqp
      rw [Function.update_self, List.getElem?_set_self hlen]
      rfl
    · rw [Function.update_of_ne hqp, List.getElem?_set_ne (Ne.symm hqp)]
      exact h.stored q hq
  · exact h.available

/-- The client reads what it wrote. -/
theorem Serves.read (h : pool.Serves capacity s) {p : ℕ} (hp : p ∈ s.held) :
    pool.read p = some (s.value p) := by
  have hlen : p < pool.slots.length := by
    rw [h.size]
    exact h.sound.lt (Or.inr hp)
  have hstored := h.stored p hp
  rw [List.getElem?_eq_getElem hlen, Option.getD_some] at hstored
  unfold MemPool.read
  rw [List.getElem?_eq_getElem hlen, ← hstored]
  cases pool.slots[p] <;> rfl

/-- **Any allowed call** is defined, is answered as the allocator answers it, and leaves the pool
the allocator behind it. -/
theorem Serves.perform (h : pool.Serves capacity s) {op : SlotOp T} (hop : s.Allowed op) :
    ∃ pool', pool.perform op = some (pool', (s.step op).2) ∧
      pool'.Serves capacity (s.step op).1 := by
  cases op with
  | acquire =>
    obtain ⟨pool', hcall, hserves⟩ := h.acquire
    refine ⟨pool', ?_, hserves⟩
    simp only [MemPool.perform, hcall, Option.map_some]
    rfl
  | release p =>
    obtain ⟨pool', hcall, hserves⟩ := h.release hop
    refine ⟨pool', ?_, hserves⟩
    simp only [MemPool.perform, hcall, Option.map_some]
    rfl
  | write p v =>
    obtain ⟨pool', hcall, hserves⟩ := h.write hop v
    refine ⟨pool', ?_, hserves⟩
    simp only [MemPool.perform, hcall, Option.map_some]
    rfl
  | read p =>
    refine ⟨pool, ?_, h⟩
    simp only [MemPool.perform, h.read hop, Option.map_some]
    rfl

/-! ## Whole runs -/

/-- **A run of allowed calls** is a run of the allocator. -/
theorem Serves.run (h : pool.Serves capacity s) {ops : List (SlotOp T)} (hops : s.Allows ops) :
    ∃ pool', pool.run ops = some (pool', (s.run ops).2) ∧
      pool'.Serves capacity (s.run ops).1 := by
  induction ops generalizing pool s with
  | nil => exact ⟨pool, rfl, h⟩
  | cons op ops ih =>
    obtain ⟨pool', hcall, hserves⟩ := h.perform hops.1
    obtain ⟨last, hrun, hlast⟩ := ih hserves hops.2
    refine ⟨last, ?_, hlast⟩
    unfold MemPool.run
    rw [hcall]
    dsimp only [Option.bind_some]
    rw [hrun]
    rfl

/-- **The pool hands out every slot once.** However its client uses it, as long as it uses and
hands back only slots it holds: no call reads a link that was written over, and every call is
answered as by the stack of free slots; `available()` and the slots held make up the capacity; what
the client wrote in a slot it holds is there; and the next `acquire()` fails exactly when all slots
are held, gives otherwise a slot that is not held, and leaves every held slot as it was. -/
theorem pool_serves (capacity : UInt64) {ops : List (SlotOp T)}
    (hops : (SlotAllocator.new capacity.toNat : SlotAllocator T).Allows ops) :
    ∃ s answers pool, (SlotAllocator.new capacity.toNat : SlotAllocator T).run ops = (s, answers) ∧
      (new capacity).run ops = some (pool, answers) ∧
      s.held.Nodup ∧ pool.available.toNat + s.held.length = capacity.toNat ∧
      (∀ p ∈ s.held, p < capacity.toNat ∧ pool.read p = some (s.value p)) ∧
      ∃ pool' ptr, pool.acquire = some (pool', ptr) ∧
        (ptr = none ↔ s.held.length = capacity.toNat) ∧
        ∀ p, ptr = some p → p < capacity.toNat ∧ p ∉ s.held ∧
          ∀ q ∈ s.held, pool'.read q = some (s.value q) := by
  obtain ⟨pool, hrun, h⟩ := serves_new.run hops
  refine ⟨_, _, pool, rfl, hrun, ?_⟩
  generalize ((SlotAllocator.new capacity.toNat : SlotAllocator T).run ops).1 = s at h
  obtain ⟨pool', hacquire, h'⟩ := h.acquire
  have hlen := h.sound.length_add
  have havailable : pool.available.toNat = s.free.length := by
    rw [h.available, UInt64.toNat_ofNat']
    have hlt := capacity.toNat_lt
    exact Nat.mod_eq_of_lt (by omega)
  refine ⟨?_, ?_, ?_, pool', s.free.head?, hacquire, ?_, ?_⟩
  · exact (List.nodup_append.mp h.sound.nodup).2.1
  · rw [havailable]
    exact hlen
  · intro p hp
    exact ⟨h.sound.lt (Or.inr hp), h.read hp⟩
  · rw [List.head?_eq_none_iff]
    exact h.sound.exhausted_iff
  · intro p hp
    obtain ⟨free, hfree⟩ := List.head?_eq_some_iff.mp hp
    have hmem : p ∈ s.free := by
      rw [hfree]
      exact List.mem_cons_self
    refine ⟨h.sound.lt (Or.inl hmem), h.sound.not_held hmem, ?_⟩
    intro q hq
    have hqp : q ≠ p := fun hqp => h.sound.not_held hmem (hqp ▸ hq)
    rw [SlotAllocator.take_cons hfree] at h'
    rw [h'.read (List.mem_cons_of_mem p hq)]
    dsimp only
    rw [Function.update_of_ne hqp]

/-- Two slots, both taken; the first is written, handed back and taken again. -/
theorem pool_serves_two :
    ∃ s answers pool, (SlotAllocator.new 2 : SlotAllocator ℕ).run
        [.acquire, .acquire, .write 0 7, .write 1 8, .release 0, .acquire] = (s, answers) ∧
      (new 2).run [.acquire, .acquire, .write 0 7, .write 1 8, .release 0, .acquire] =
        some (pool, answers) ∧
      s.held.Nodup ∧ pool.available.toNat + s.held.length = 2 ∧
      (∀ p ∈ s.held, p < 2 ∧ pool.read p = some (s.value p)) ∧
      ∃ pool' ptr, pool.acquire = some (pool', ptr) ∧
        (ptr = none ↔ s.held.length = 2) ∧
        ∀ p, ptr = some p → p < 2 ∧ p ∉ s.held ∧
          ∀ q ∈ s.held, pool'.read q = some (s.value q) := by
  apply pool_serves 2
  decide +kernel

end MemPool

end PulseForge
