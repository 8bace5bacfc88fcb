import PulseForge.Foundation.LinkedQueue
import PulseForge.Analysis.BitmapScans
import PulseForge.Analysis.FlatIdMapUpdates

/-!
# What each write to the book changes

The book is read through `node`, `level`, the bitmap and the best index of a ladder, and
a few scalar fields; it is written through `modifyNode`, `modifyLevel`, `modifyBits` and
`setBest`. The lemmas below say what every read gives after every write, so that the
proofs about the operations never unfold the record.
-/

set_option autoImplicit false

namespace PulseForge.OrderBook

open Foundation

variable (b : OrderBook) (s t : Side) (i j n m : ℕ)

/-! ## Writes to a ladder -/

section Ladder

variable (f : Ladder → Ladder)

/-- A write to a ladder reaches the ladder of that side. -/
theorem ladder_modifyLadder :
    (b.modifyLadder s f).ladder t = if t = s then f (b.ladder s) else b.ladder t := by
  cases s <;> cases t <;> rfl

/-- A write to a ladder keeps the configuration. -/
@[simp] theorem cfg_modifyLadder : (b.modifyLadder s f).cfg = b.cfg := by cases s <;> rfl

/-- A write to a ladder keeps the number of levels. -/
@[simp] theorem levelsPerSide_modifyLadder :
    (b.modifyLadder s f).levelsPerSide = b.levelsPerSide := by cases s <;> rfl

/-- A write to a ladder keeps the pool. -/
@[simp] theorem nodes_modifyLadder : (b.modifyLadder s f).nodes = b.nodes := by cases s <;> rfl

/-- A write to a ladder keeps the head of the free list. -/
@[simp] theorem freeHead_modifyLadder : (b.modifyLadder s f).freeHead = b.freeHead := by
  cases s <;> rfl

/-- A write to a ladder keeps the count of live orders. -/
@[simp] theorem live_modifyLadder : (b.modifyLadder s f).live = b.live := by cases s <;> rfl

/-- A write to a ladder keeps the map of the ids. -/
@[simp] theorem ids_modifyLadder : (b.modifyLadder s f).ids = b.ids := by cases s <;> rfl

/-- A write to a ladder keeps every node. -/
@[simp] theorem node_modifyLadder : (b.modifyLadder s f).node n = b.node n := by cases s <;> rfl

end Ladder

/-! ## Writes to a node -/

section Node

variable (f : Node → Node)

/-- A write to a node reaches that node, if the pool has it. -/
theorem node_modifyNode :
    (b.modifyNode n f).node m = if n = m ∧ m < b.nodes.length then f (b.node m) else b.node m :=
  getD_modify b.nodes n f m default

/-- A write to a node keeps every level. -/
@[simp] theorem level_modifyNode : (b.modifyNode n f).level s i = b.level s i := by
  cases s <;> rfl

/-- A write to a node keeps the ladders. -/
@[simp] theorem ladder_modifyNode : (b.modifyNode n f).ladder s = b.ladder s := by
  cases s <;> rfl

@[simp] theorem length_nodes_modifyNode : (b.modifyNode n f).nodes.length = b.nodes.length := by
  simp [modifyNode]

/-- A write to a node keeps the configuration. -/
@[simp] theorem cfg_modifyNode : (b.modifyNode n f).cfg = b.cfg := rfl

/-- A write to a node keeps the number of levels. -/
@[simp] theorem levelsPerSide_modifyNode :
    (b.modifyNode n f).levelsPerSide = b.levelsPerSide := rfl

/-- A write to a node keeps the head of the free list. -/
@[simp] theorem freeHead_modifyNode : (b.modifyNode n f).freeHead = b.freeHead := rfl

/-- A write to a node keeps the count of live orders. -/
@[simp] theorem live_modifyNode : (b.modifyNode n f).live = b.live := rfl

/-- A write to a node keeps the map of the ids. -/
@[simp] theorem ids_modifyNode : (b.modifyNode n f).ids = b.ids := rfl

end Node

/-! ## Writes to a level, to the bitmap and to the best index -/

section Level

variable (f : Level → Level)

/-- A write to a level reaches that level of that side, if the ladder has it. -/
theorem level_modifyLevel :
    (b.modifyLevel s i f).level t j =
      if t = s ∧ i = j ∧ j < (b.ladder s).levels.length then f (b.level s j) else b.level t j := by
  unfold level modifyLevel
  rw [ladder_modifyLadder]
  by_cases ht : t = s
  · subst ht
    simp only [if_true, true_and]
    exact getD_modify _ i f j Level.empty
  · simp [ht]

/-- A write to a level keeps the bitmaps. -/
@[simp] theorem bits_modifyLevel : ((b.modifyLevel s i f).ladder t).bits = (b.ladder t).bits := by
  rw [modifyLevel, ladder_modifyLadder]
  split <;> simp_all

/-- A write to a level keeps the best indices. -/
@[simp] theorem best_modifyLevel : ((b.modifyLevel s i f).ladder t).best = (b.ladder t).best := by
  rw [modifyLevel, ladder_modifyLadder]
  split <;> simp_all

@[simp] theorem length_levels_modifyLevel :
    ((b.modifyLevel s i f).ladder t).levels.length = (b.ladder t).levels.length := by
  rw [modifyLevel, ladder_modifyLadder]
  split <;> simp_all

@[simp] theorem cfg_modifyLevel : (b.modifyLevel s i f).cfg = b.cfg := cfg_modifyLadder ..

@[simp] theorem levelsPerSide_modifyLevel :
    (b.modifyLevel s i f).levelsPerSide = b.levelsPerSide := levelsPerSide_modifyLadder ..

@[simp] theorem nodes_modifyLevel : (b.modifyLevel s i f).nodes = b.nodes :=
  nodes_modifyLadder ..

@[simp] theorem freeHead_modifyLevel : (b.modifyLevel s i f).freeHead = b.freeHead :=
  freeHead_modifyLadder ..

@[simp] theorem live_modifyLevel : (b.modifyLevel s i f).live = b.live := live_modifyLadder ..

@[simp] theorem ids_modifyLevel : (b.modifyLevel s i f).ids = b.ids := ids_modifyLadder ..

@[simp] theorem node_modifyLevel : (b.modifyLevel s i f).node n = b.node n :=
  node_modifyLadder ..

end Level

section Bits

variable (f : List (BitVec 64) → List (BitVec 64))

/-- A write to a bitmap reaches the bitmap of that side. -/
theorem bits_modifyBits :
    ((b.modifyBits s f).ladder t).bits =
      if t = s then f (b.ladder s).bits else (b.ladder t).bits := by
  rw [modifyBits, ladder_modifyLadder]
  split <;> rfl

/-- A write to a bitmap keeps every level. -/
@[simp] theorem level_modifyBits : (b.modifyBits s f).level t i = b.level t i := by
  rw [level, level, modifyBits, ladder_modifyLadder]
  split <;> simp_all

/-- A write to a bitmap keeps the best indices. -/
@[simp] theorem best_modifyBits : ((b.modifyBits s f).ladder t).best = (b.ladder t).best := by
  rw [modifyBits, ladder_modifyLadder]
  split <;> simp_all

@[simp] theorem length_levels_modifyBits :
    ((b.modifyBits s f).ladder t).levels.length = (b.ladder t).levels.length := by
  rw [modifyBits, ladder_modifyLadder]
  split <;> simp_all

@[simp] theorem cfg_modifyBits : (b.modifyBits s f).cfg = b.cfg := cfg_modifyLadder ..

@[simp] theorem levelsPerSide_modifyBits :
    (b.modifyBits s f).levelsPerSide = b.levelsPerSide := levelsPerSide_modifyLadder ..

@[simp] theorem nodes_modifyBits : (b.modifyBits s f).nodes = b.nodes := nodes_modifyLadder ..

@[simp] theorem freeHead_modifyBits : (b.modifyBits s f).freeHead = b.freeHead :=
  freeHead_modifyLadder ..

@[simp] theorem live_modifyBits : (b.modifyBits s f).live = b.live := live_modifyLadder ..

@[simp] theorem ids_modifyBits : (b.modifyBits s f).ids = b.ids := ids_modifyLadder ..

@[simp] theorem node_modifyBits : (b.modifyBits s f).node n = b.node n := node_modifyLadder ..

end Bits

section Best

variable (best : ℤ)

/-- A new best index is that of one side. -/
theorem best_setBest :
    ((b.setBest s best).ladder t).best = if t = s then best else (b.ladder t).best := by
  rw [setBest, ladder_modifyLadder]
  split <;> rfl

/-- A new best index keeps every level. -/
@[simp] theorem level_setBest : (b.setBest s best).level t i = b.level t i := by
  rw [level, level, setBest, ladder_modifyLadder]
  split <;> simp_all

/-- A new best index keeps the bitmaps. -/
@[simp] theorem bits_setBest : ((b.setBest s best).ladder t).bits = (b.ladder t).bits := by
  rw [setBest, ladder_modifyLadder]
  split <;> simp_all

@[simp] theorem length_levels_setBest :
    ((b.setBest s best).ladder t).levels.length = (b.ladder t).levels.length := by
  rw [setBest, ladder_modifyLadder]
  split <;> simp_all

@[simp] theorem cfg_setBest : (b.setBest s best).cfg = b.cfg := cfg_modifyLadder ..

@[simp] theorem levelsPerSide_setBest :
    (b.setBest s best).levelsPerSide = b.levelsPerSide := levelsPerSide_modifyLadder ..

@[simp] theorem nodes_setBest : (b.setBest s best).nodes = b.nodes := nodes_modifyLadder ..

@[simp] theorem freeHead_setBest : (b.setBest s best).freeHead = b.freeHead :=
  freeHead_modifyLadder ..

@[simp] theorem live_setBest : (b.setBest s best).live = b.live := live_modifyLadder ..

@[simp] theorem ids_setBest : (b.setBest s best).ids = b.ids := ids_modifyLadder ..

@[simp] theorem node_setBest : (b.setBest s best).node n = b.node n := node_modifyLadder ..

end Best

/-- The next worse level is the best set bit strictly worse than `idx`. -/
theorem nextWorse_spec (idx : ℤ) :
    IsBest s (fun i => testBit (b.ladder s).bits i = true ∧ s.better idx i)
      (b.nextWorse s idx) := by
  cases s with
  | buy =>
    refine (bitmapFindPrev_spec b.bids.bits (idx - 1)).congr fun i => ?_
    simp only [ladder, Side.better]
    exact and_congr_right fun _ => by omega
  | sell =>
    refine (bitmapFindNext_spec b.asks.bits (idx + 1)).congr fun i => ?_
    simp only [ladder, Side.better]
    exact and_congr_right fun _ => by omega

end PulseForge.OrderBook
