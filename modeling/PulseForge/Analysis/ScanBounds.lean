import PulseForge.Analysis.OrderBookRefinement
import PulseForge.Model.CheckedScans

/-!
# The scans stay inside the bitmap

While the bitmap has fewer than `2 ^ 31` bits, `bitmap_find_next` from any index and
`bitmap_find_prev` from an index of the bitmap end, read no word outside it, shift by less than
64, hand no zero to a builtin, and stay inside `int32_t`; what they find is what a scan bit by
bit finds. On a reachable book every scan of every call starts from such an index.
-/

set_option autoImplicit false

namespace PulseForge

open Foundation OrderBook

namespace Checked

variable {bits : List (BitVec 64)} {fuel : ℕ}

/-! ## The two loops -/

/-- A number in range is not truncated. -/
theorem int32_eq {x : ℤ} (hlow : -2 ^ 31 ≤ x) (hhigh : x < 2 ^ 31) : int32 x = some x := by
  unfold int32
  rw [if_pos ⟨hlow, hhigh⟩]

/-- A shift of less than 64 is defined. -/
theorem shl_eq {n : ℕ} (hn : n < 64) (x : BitVec 64) : shl x n = some (x <<< n) := by
  unfold shl
  rw [if_pos hn]

/-- `clzll` is defined on a word that is not zero. -/
theorem builtinClzll_eq {x : BitVec 64} (hx : x ≠ 0) : builtinClzll x = some (clzll x) := by
  unfold builtinClzll
  rw [if_neg hx]

/-- `ctzll` is defined on a word that is not zero. -/
theorem builtinCtzll_eq {x : BitVec 64} (hx : x ≠ 0) : builtinCtzll x = some (ctzll x) := by
  unfold builtinCtzll
  rw [if_neg hx]

/-- A load inside the bitmap gives its word. -/
theorem word_eq {w : ℕ} (hw : w < bits.length) : bits[w]? = some (bits.getD w 0) := by
  rw [List.getD_eq_getElem?_getD, List.getElem?_eq_getElem hw]
  rfl

/-- The answer of `bitmap_find_prev` at a word with a bit set. -/
theorem prevFound_eq (hbits : 64 * bits.length < 2 ^ 31) {w : ℕ} (hw : w < bits.length)
    {word : BitVec 64} (hword : word ≠ 0) :
    (do
      let high ← int32 (w * 64)
      let zeros ← builtinClzll word
      int32 (high + (63 - zeros))) = some ((w <<< 6 : ℕ) + (63 - clzll word : ℕ) : ℤ) := by
  have hzeros := (clzll_spec hword).1
  have hhigh : int32 (w * 64) = some ((w : ℤ) * 64) := int32_eq (by omega) (by omega)
  rw [hhigh, Option.bind_eq_bind, Option.bind_some, builtinClzll_eq hword, Option.bind_eq_bind,
    Option.bind_some, int32_eq (by omega) (by omega), Nat.shiftLeft_eq]
  apply congrArg some
  omega

/-- **Down the words**: from a word of the bitmap the loop takes at most `w + 1` rounds. -/
theorem findPrevLoop_eq (hbits : 64 * bits.length < 2 ^ 31) {w : ℕ} (hw : w < bits.length)
    (hfuel : w < fuel) (word : BitVec 64) :
    findPrevLoop bits fuel w word = some (PulseForge.findPrevLoop bits w word) := by
  induction w generalizing fuel word with
  | zero =>
    obtain ⟨fuel, rfl⟩ : ∃ k, fuel = k + 1 := ⟨fuel - 1, by omega⟩
    unfold findPrevLoop PulseForge.findPrevLoop
    by_cases hword : word ≠ 0
    · rw [if_pos hword, if_pos hword]
      exact prevFound_eq hbits hw hword
    · rw [if_neg hword, if_neg hword]
      rfl
  | succ w ih =>
    obtain ⟨fuel, rfl⟩ : ∃ k, fuel = k + 1 := ⟨fuel - 1, by omega⟩
    unfold findPrevLoop PulseForge.findPrevLoop
    by_cases hword : word ≠ 0
    · rw [if_pos hword, if_pos hword]
      exact prevFound_eq hbits hw hword
    · have hdown : int32 (((w + 1 : ℕ) : ℤ) - 1) = some (w : ℤ) := by
        rw [int32_eq (by omega) (by omega)]
        congr 1
        omega
      have hrest := ih (by omega) (show w < fuel by omega) (bits.getD w 0)
      rw [if_neg hword, if_neg hword, hdown, Option.bind_eq_bind, Option.bind_some,
        if_neg (by omega), Int.toNat_natCast, word_eq (by omega), Option.bind_eq_bind,
        Option.bind_some, hrest]

/-- **Up the words**: from a word of the bitmap the loop ends at the last one. -/
theorem findNextLoop_eq (hbits : 64 * bits.length < 2 ^ 31) {w fuel' : ℕ} (hw : w < bits.length)
    (hfuel : bits.length ≤ w + fuel) (hfuel' : bits.length ≤ w + fuel') (word : BitVec 64) :
    findNextLoop bits fuel w word = some (PulseForge.findNextLoop bits fuel' w word) := by
  induction fuel generalizing w fuel' word with
  | zero => omega
  | succ fuel ih =>
    obtain ⟨fuel', rfl⟩ : ∃ k, fuel' = k + 1 := ⟨fuel' - 1, by omega⟩
    unfold findNextLoop PulseForge.findNextLoop
    by_cases hword : word ≠ 0
    · have hzeros := (ctzll_spec hword).1
      rw [if_pos hword, if_pos hword, builtinCtzll_eq hword, Option.bind_eq_bind, Option.bind_some,
        Nat.shiftLeft_eq, int32_eq (by omega) (by omega), Nat.cast_add]
    · rw [if_neg hword, if_neg hword]
      by_cases hend : bits.length ≤ w + 1
      · rw [if_pos hend, if_pos hend]
      · rw [if_neg hend, if_neg hend, word_eq (by omega), Option.bind_eq_bind, Option.bind_some]
        exact ih (by omega) (by omega) (by omega) _

/-! ## The scans -/

/-- The hazard of a shift by 64 is only at the last bit, which has a mask of its own. -/
theorem prevMask_eq {b : ℕ} (hb : b < 64) :
    prevMask b = some (if b = 63 then BitVec.allOnes 64 else (1#64 <<< (b + 1)) - 1) := by
  unfold prevMask
  split_ifs with hlast
  · rfl
  · rw [shl_eq (by omega)]
    rfl

/-- **`bitmap_find_prev`** from an index of the bitmap, or from a negative one. -/
theorem bitmapFindPrev_eq (hbits : 64 * bits.length < 2 ^ 31) {idx : ℤ}
    (hidx : idx < 64 * bits.length) (hfuel : bits.length ≤ fuel) :
    bitmapFindPrev bits fuel idx = some (PulseForge.bitmapFindPrev bits idx) := by
  unfold bitmapFindPrev PulseForge.bitmapFindPrev
  by_cases hneg : idx < 0
  · rw [if_pos hneg, if_pos hneg]
  · have hw : idx.toNat >>> 6 < bits.length := by
      rw [shiftRight_six]
      omega
    have hb : idx.toNat &&& 63 < 64 := by
      rw [and_sixty_three]
      omega
    rw [if_neg hneg, if_neg hneg]
    dsimp only
    rw [prevMask_eq hb, Option.bind_eq_bind, Option.bind_some, word_eq hw, Option.bind_some]
    exact findPrevLoop_eq hbits hw (by omega) _

/-- The last bit of a word, from the word behind it. -/
example : bitmapFindPrev [1#64 <<< 63, 0] 2 70 = some 63 := by decide

/-- **`bitmap_find_next`** from any index. -/
theorem bitmapFindNext_eq (hbits : 64 * bits.length < 2 ^ 31) (hfuel : bits.length ≤ fuel)
    (idx : ℤ) : bitmapFindNext bits fuel idx = some (PulseForge.bitmapFindNext bits idx) := by
  unfold bitmapFindNext PulseForge.bitmapFindNext
  dsimp only
  generalize (if idx < 0 then 0 else idx.toNat) = i
  have hb : i &&& 63 < 64 := by
    rw [and_sixty_three]
    omega
  by_cases hend : bits.length ≤ i >>> 6
  · rw [if_pos hend, if_pos hend]
  · rw [if_neg hend, if_neg hend, word_eq (not_le.mp hend), Option.bind_eq_bind, Option.bind_some,
      shl_eq hb, Option.bind_some]
    exact findNextLoop_eq hbits (not_le.mp hend) (by omega) (by omega) _

/-! ## What calls them -/

variable {b : OrderBook} {s : Side} {q : Side → ℕ → List ℕ} {free : List ℕ}

/-- The bitmaps of both sides are small enough, and no loop runs out of fuel. -/
structure Fits (b : OrderBook) (fuel : ℕ) : Prop where
  bits : ∀ s, 64 * (b.ladder s).bits.length < 2 ^ 31
  fuel : ∀ s, 64 * (b.ladder s).bits.length < fuel

/-- Bitmaps of the same size fit the same. -/
theorem Fits.of_length {b' : OrderBook} (h : Fits b fuel)
    (hlen : ∀ s, (b'.ladder s).bits.length = (b.ladder s).bits.length) : Fits b' fuel := by
  constructor <;> intro s <;> rw [hlen s]
  · exact h.bits s
  · exact h.fuel s

/-- **`next_worse`** from a level of the ladder. -/
theorem nextWorse_eq (h : Fits b fuel) {idx : ℤ} (h0 : 0 ≤ idx)
    (hidx : idx < 64 * (b.ladder s).bits.length) :
    nextWorse fuel b s idx = some (b.nextWorse s idx) := by
  have hbits := h.bits s
  have hfuel := h.fuel s
  unfold nextWorse OrderBook.nextWorse
  cases s with
  | buy =>
    simp only [ladder] at hbits hfuel hidx
    dsimp only
    rw [int32_eq (by omega) (by omega), Option.bind_eq_bind, Option.bind_some]
    exact bitmapFindPrev_eq hbits (by omega) (by omega)
  | sell =>
    simp only [ladder] at hbits hfuel hidx
    dsimp only
    rw [int32_eq (by omega) (by omega), Option.bind_eq_bind, Option.bind_some]
    exact bitmapFindNext_eq hbits (by omega) _

/-- Where a scan that starts at a level can end: at a worse level of the ladder. -/
theorem nextWorse_lt (b : OrderBook) (s : Side) (idx : ℤ) (hnext : ¬ b.nextWorse s idx < 0) :
    s.better idx (b.nextWorse s idx) ∧ b.nextWorse s idx < 64 * (b.ladder s).bits.length := by
  obtain ⟨k, hk, ⟨hbit, hworse⟩, -⟩ := (nextWorse_spec b s idx).exists_of_nonneg hnext
  rw [hk]
  refine ⟨hworse, ?_⟩
  by_contra hge
  rw [testBit_eq_false_of_le (by omega)] at hbit
  cases hbit

/-- The scan of `shrinkLevel` is in bounds. -/
theorem shrinkLevel_eq (h : Fits b fuel) {i qty : ℕ}
    (hi : i < 64 * (b.ladder s).bits.length) :
    shrinkLevel fuel b s i qty = some (b.shrinkLevel s i qty) := by
  unfold shrinkLevel OrderBook.shrinkLevel
  dsimp only
  split_ifs with hempty hbest
  · have hlen : ∀ t, (((b.takeOff s i qty).vacate s i).ladder t).bits.length =
        (b.ladder t).bits.length := sameShape_vacate.bits_len
    have hnext : nextWorse fuel ((b.takeOff s i qty).vacate s i) s i =
        some (((b.takeOff s i qty).vacate s i).nextWorse s i) := by
      apply nextWorse_eq (h.of_length hlen) (Int.natCast_nonneg i)
      rw [hlen]
      exact_mod_cast hi
    unfold vacate takeOff at hnext
    rw [hnext]
    rfl
  · rfl
  · rfl

/-- **`unlink_and_free`** of a resting order. -/
theorem unlinkAndFree_eq (h : Fits b fuel) (hinv : Inv b q free) {i n : ℕ} (hn : n ∈ q s i) :
    unlinkAndFree fuel b n = some (b.unlinkAndFree n) := by
  have hplaced := hinv.placed s i n hn
  have hidx : (b.indexOf (b.node n).order.price).toNat = i := by
    rw [hplaced.price_eq, indexOf_priceOf hinv.cfg, Int.toNat_natCast]
  have hlen : ∀ t, ((b.detach s i n).ladder t).bits.length = (b.ladder t).bits.length :=
    sameShape_detach.bits_len
  have hlt : i < 64 * ((b.detach s i n).ladder s).bits.length := by
    rw [hlen, hinv.bits_len]
    have := hplaced.level_lt
    omega
  unfold unlinkAndFree OrderBook.unlinkAndFree
  dsimp only
  rw [hidx, hplaced.side_eq, shrinkLevel_eq (h.of_length hlen) hlt]
  rfl

/-! ## `clear` -/

/-- The loop of `clear` ends, and resets the levels that the bitmap marks. -/
theorem clearLoop_eq (hbits : 64 * bits.length < 2 ^ 31) (hfuel : bits.length ≤ fuel)
    {steps steps' : ℕ} {idx : ℤ} (h0 : 0 ≤ idx) (hidx : idx ≤ 64 * bits.length)
    (hsteps : 64 * bits.length < steps + idx) (hsteps' : 64 * bits.length < steps' + idx)
    {levels : List Level} (hlevels : ∀ i, testBit bits i = true → i < levels.length) :
    clearLoop fuel bits steps (PulseForge.bitmapFindNext bits idx) levels =
      some ((setBits bits steps' idx).foldl (fun ls i => ls.set i Level.empty) levels) := by
  induction steps generalizing steps' idx levels with
  | zero => omega
  | succ steps ih =>
    obtain ⟨steps', rfl⟩ : ∃ k, steps' = k + 1 := ⟨steps' - 1, by omega⟩
    unfold clearLoop setBits
    dsimp only
    by_cases hend : PulseForge.bitmapFindNext bits idx < 0
    · rw [if_pos hend, if_pos hend]
      rfl
    · obtain ⟨k, hk, ⟨hbit, hge⟩, -⟩ := (bitmapFindNext_spec bits idx).exists_of_nonneg hend
      have hlt : k < 64 * bits.length := by
        by_contra hout
        rw [testBit_eq_false_of_le (not_lt.mp hout)] at hbit
        cases hbit
      rw [if_neg hend, if_neg hend, hk, Int.toNat_natCast, if_neg (not_le.mpr (hlevels k hbit)),
        int32_eq (by omega) (by omega), Option.bind_eq_bind, Option.bind_some,
        bitmapFindNext_eq hbits hfuel, Option.bind_some, List.foldl_cons]
      apply ih (by omega) (by omega) (by omega) (by omega)
      intro i hi
      rw [List.length_set]
      exact hlevels i hi

/-- **`clear` on one ladder**, when only levels that exist are marked. -/
theorem clearLadder_eq {l : Ladder} (hbits : 64 * l.bits.length < 2 ^ 31)
    (hfuel : 64 * l.bits.length < fuel)
    (hlevels : ∀ i, testBit l.bits i = true → i < l.levels.length) :
    clearLadder fuel l = some (Ladder.clear l) := by
  have hloop : clearLoop fuel l.bits fuel (PulseForge.bitmapFindNext l.bits 0) l.levels =
      some ((setBits l.bits (64 * l.bits.length + 1) 0).foldl
        (fun ls i => ls.set i Level.empty) l.levels) :=
    clearLoop_eq hbits (by omega) le_rfl (by omega) (by omega) (by omega) hlevels
  unfold clearLadder Ladder.clear
  rw [bitmapFindNext_eq hbits (by omega), Option.bind_eq_bind, Option.bind_some, hloop]
  rfl

/-- The scan of `clear` is in bounds. -/
theorem clear_eq (h : Fits b fuel) (hinv : Inv b q free) : clear fuel b = some b.clear := by
  have hladder : ∀ s, clearLadder fuel (b.ladder s) = some (Ladder.clear (b.ladder s)) := by
    intro s
    apply clearLadder_eq (h.bits s) (h.fuel s)
    intro i hi
    rw [hinv.levels_len]
    exact hinv.lt_of_ne_nil ((hinv.bit_iff s i).mp hi)
  unfold clear
  rw [show clearLadder fuel b.bids = some (Ladder.clear b.bids) from hladder .buy,
    show clearLadder fuel b.asks = some (Ladder.clear b.asks) from hladder .sell]
  rfl

/-! ## The walks -/

/-- The scans of a walk are in bounds. -/
theorem forEachLevelFrom_eq (h : Fits b fuel) (maxLevels : ℕ) {idx : ℤ}
    (hidx : idx < 64 * (b.ladder s).bits.length) :
    forEachLevelFrom fuel b s maxLevels idx = some (b.forEachLevelFrom s maxLevels idx) := by
  induction maxLevels generalizing idx with
  | zero => rfl
  | succ maxLevels ih =>
    unfold forEachLevelFrom OrderBook.forEachLevelFrom
    by_cases hend : idx < 0
    · rw [if_pos hend, if_pos hend]
    · have hnext : b.nextWorse s idx < 64 * (b.ladder s).bits.length := by
        by_cases hneg : b.nextWorse s idx < 0
        · omega
        · exact (nextWorse_lt b s idx hneg).2
      rw [if_neg hend, if_neg hend, nextWorse_eq h (not_lt.mp hend) hidx, Option.bind_eq_bind,
        Option.bind_some, ih hnext]
      rfl

/-- How many levels a walk from `idx` may still visit, when there are `n`. -/
def remaining (n : ℕ) : Side → ℤ → ℤ
  | .buy, idx => idx + 1
  | .sell, idx => if idx < 0 then 0 else n - idx

/-- A step of the walk leaves fewer. -/
theorem remaining_lt {n : ℕ} {idx next : ℤ} (h0 : 0 ≤ idx) (hidx : idx < n)
    (hnext : next = -1 ∨ 0 ≤ next ∧ s.better idx next) :
    remaining n s next < remaining n s idx := by
  cases s with
  | buy =>
    simp only [remaining, Side.better] at hnext ⊢
    omega
  | sell =>
    simp only [remaining, Side.better] at hnext ⊢
    rw [if_neg (not_lt.mpr h0)]
    split_ifs <;> omega

/-- The walk has levels left. -/
theorem remaining_nonneg {n : ℕ} {idx : ℤ} (h0 : -1 ≤ idx) (hidx : idx < n) :
    0 ≤ remaining n s idx := by
  cases s with
  | buy =>
    simp only [remaining]
    omega
  | sell =>
    simp only [remaining]
    split_ifs <;> omega

/-- The loop over the levels ends, because every level is worse than the one before. -/
theorem walkLevels_eq (h : Fits b fuel) {n steps steps' : ℕ} {idx : ℤ}
    (hmarked : ∀ i, testBit (b.ladder s).bits i = true → i < n)
    (hn : n ≤ 64 * (b.ladder s).bits.length) (h0 : -1 ≤ idx) (hidx : idx < n)
    (hsteps : remaining n s idx < steps) (hsteps' : remaining n s idx < steps') :
    walkLevels fuel b s steps idx = some (b.walkLevels s steps' idx) := by
  have hpos := remaining_nonneg (s := s) h0 hidx
  induction steps generalizing steps' idx with
  | zero => omega
  | succ steps ih =>
    obtain ⟨steps', rfl⟩ : ∃ k, steps' = k + 1 := ⟨steps' - 1, by omega⟩
    unfold walkLevels OrderBook.walkLevels
    by_cases hend : idx < 0
    · rw [if_pos hend, if_pos hend]
    · have hnext : b.nextWorse s idx = -1 ∨
          0 ≤ b.nextWorse s idx ∧ s.better idx (b.nextWorse s idx) ∧ b.nextWorse s idx < n := by
        rcases nextWorse_spec b s idx with ⟨hnone, -⟩ | ⟨k, hk, ⟨hbit, hworse⟩, -⟩
        · exact .inl hnone
        · refine .inr ?_
          rw [hk]
          have := hmarked k hbit
          exact ⟨by omega, hworse, by omega⟩
      have hless : remaining n s (b.nextWorse s idx) < remaining n s idx := by
        apply remaining_lt (not_lt.mp hend) hidx
        exact hnext.imp_right fun hne => ⟨hne.1, hne.2.1⟩
      have hlow : -1 ≤ b.nextWorse s idx := by omega
      have hhigh : b.nextWorse s idx < n := by omega
      have hrest : walkLevels fuel b s steps (b.nextWorse s idx) =
          some (b.walkLevels s steps' (b.nextWorse s idx)) :=
        ih hlow hhigh (by omega) (by omega) (remaining_nonneg hlow hhigh)
      rw [if_neg hend, if_neg hend, nextWorse_eq h (not_lt.mp hend) (by omega),
        Option.bind_eq_bind, Option.bind_some, hrest]
      rfl

/-- The cached best level is a level, or `-1`. -/
theorem best_lt (hinv : Inv b q free) (s : Side) :
    -1 ≤ (b.ladder s).best ∧ (b.ladder s).best < b.levelsPerSide := by
  rcases hinv.best s with ⟨hbest, -⟩ | ⟨k, hbest, hk, -⟩
  · omega
  · have := hinv.lt_of_ne_nil hk
    omega

/-- **`for_each_order`** on one side. -/
theorem orders_eq (h : Fits b fuel) (hinv : Inv b q free) (s : Side) :
    orders fuel b s = some (b.orders s) := by
  have hlen := hinv.bits_len s
  have hfuel := h.fuel s
  have hbest := best_lt hinv s
  have hmarked : ∀ i, testBit (b.ladder s).bits i = true → i < b.levelsPerSide :=
    fun i hi => hinv.lt_of_ne_nil ((hinv.bit_iff s i).mp hi)
  have hrem : remaining b.levelsPerSide s (b.ladder s).best ≤ b.levelsPerSide := by
    cases s with
    | buy =>
      simp only [remaining]
      omega
    | sell =>
      simp only [remaining]
      split_ifs <;> omega
  have hwalk : walkLevels fuel b s fuel (b.ladder s).best =
      some (b.walkLevels s (b.levelsPerSide + 1) (b.ladder s).best) :=
    walkLevels_eq h hmarked (by omega) hbest.1 hbest.2 (by omega) (by omega)
  unfold orders OrderBook.orders
  rw [hwalk]
  rfl

/-! ## Every call on every reachable book -/

/-- One call of the public interface; those that do not scan are what they are in the model
without checks. -/
def call (fuel : ℕ) (b : OrderBook) : BookOp → Option (OrderBook × BookAnswer)
  | .reduce id by' => (reduce fuel b id by').map fun (b', ok) => (b', .done ok)
  | .remove id => (remove fuel b id).map fun (b', ok) => (b', .done ok)
  | .reduceFront side by' =>
    match b.front side with
    | none => some (b, .skipped)
    | some o =>
      if by' ≤ o.qty then (reduceFront fuel b side by').map fun b' => (b', .nothing)
      else some (b, .skipped)
  | .clear => (clear fuel b).map fun b' => (b', .nothing)
  | .forEachLevel side maxLevels =>
    (forEachLevelFrom fuel b side maxLevels (b.ladder side).best).map fun vs => (b, .levels vs)
  | .forEachOrder => (forEachOrder fuel b).map fun os => (b, .orders os)
  | op => some (b.call op)

/-- The scan of `reduce` is in bounds. -/
theorem reduce_eq (h : Fits b fuel) (hinv : Inv b q free) (id by' : ℕ) :
    reduce fuel b id by' = some (b.reduce id by') := by
  unfold reduce OrderBook.reduce
  cases hfind : b.ids.find id with
  | none => rfl
  | some n =>
    obtain ⟨s, i, hn, -⟩ := (hinv.ids_iff id n).mp hfind
    dsimp only
    split_ifs with hmore hall
    · rfl
    · rw [unlinkAndFree_eq h hinv hn]
      rfl
    · rfl

/-- The scan of `remove` is in bounds. -/
theorem remove_eq (h : Fits b fuel) (hinv : Inv b q free) (id : ℕ) :
    remove fuel b id = some (b.remove id) := by
  unfold remove OrderBook.remove
  cases hfind : b.ids.find id with
  | none => rfl
  | some n =>
    obtain ⟨s, i, hn, -⟩ := (hinv.ids_iff id n).mp hfind
    dsimp only
    rw [unlinkAndFree_eq h hinv hn]
    rfl

/-- The scan of `reduceFront` is in bounds. -/
theorem reduceFront_eq (h : Fits b fuel) (hinv : Inv b q free) (hbest : ¬ (b.ladder s).best < 0)
    (by' : ℕ) : reduceFront fuel b s by' = some (b.reduceFront s by') := by
  obtain ⟨i, -, hn⟩ := hinv.frontNode_mem hbest
  unfold reduceFront
  dsimp only
  split_ifs with hall
  · rw [unlinkAndFree_eq h hinv hn, OrderBook.reduceFront, if_pos hall]
  · rfl

/-- **One call** scans inside the bitmaps. -/
theorem call_eq (h : Fits b fuel) (hinv : Inv b q free) (op : BookOp) :
    call fuel b op = some (b.call op) := by
  cases op with
  | reduce id by' =>
    simp only [call, reduce_eq h hinv]
    rfl
  | remove id =>
    simp only [call, remove_eq h hinv]
    rfl
  | reduceFront side by' =>
    unfold call OrderBook.call
    dsimp only
    cases hfront : b.front side with
    | none => rfl
    | some o =>
      have hbest : ¬ (b.ladder side).best < 0 := by
        intro hneg
        rw [front, if_pos hneg] at hfront
        cases hfront
      dsimp only
      split_ifs with hle
      · rw [reduceFront_eq h hinv hbest]
        rfl
      · rfl
  | clear =>
    simp only [call, clear_eq h hinv]
    rfl
  | forEachLevel side maxLevels =>
    have hlen := hinv.bits_len side
    have hbest := best_lt hinv side
    simp only [call, forEachLevelFrom_eq h maxLevels (show (b.ladder side).best <
      64 * (b.ladder side).bits.length by omega)]
    rfl
  | forEachOrder =>
    simp only [call, forEachOrder, orders_eq h hinv]
    rfl
  | _ => rfl

end Checked

/-- What `bitmap_find_next` looks for: a set bit from `max (idx, 0)` on. -/
def bitsFrom (bits : List (BitVec 64)) (idx : ℤ) : Set ℕ :=
  {i | testBit bits i = true ∧ max idx 0 ≤ i}

/-- What `bitmap_find_prev` looks for: a set bit up to `idx`. -/
def bitsUpTo (bits : List (BitVec 64)) (idx : ℤ) : Set ℕ :=
  {i | testBit bits i = true ∧ (i : ℤ) ≤ idx}

/-- The best sell index is the least one. -/
theorem isLeast_of_isBest {P : ℕ → Prop} {r : ℤ} (h : IsBest .sell P r) :
    r = -1 ∧ {i | P i} = ∅ ∨ ∃ k : ℕ, r = k ∧ IsLeast {i | P i} k := by
  rcases h with ⟨hr, hno⟩ | ⟨k, hr, hk, hbest⟩
  · exact .inl ⟨hr, Set.eq_empty_of_forall_notMem hno⟩
  · refine .inr ⟨k, hr, hk, fun i hi => ?_⟩
    have := hbest i hi
    simp only [Side.better] at this
    omega

/-- The best buy index is the greatest one. -/
theorem isGreatest_of_isBest {P : ℕ → Prop} {r : ℤ} (h : IsBest .buy P r) :
    r = -1 ∧ {i | P i} = ∅ ∨ ∃ k : ℕ, r = k ∧ IsGreatest {i | P i} k := by
  rcases h with ⟨hr, hno⟩ | ⟨k, hr, hk, hbest⟩
  · exact .inl ⟨hr, Set.eq_empty_of_forall_notMem hno⟩
  · refine .inr ⟨k, hr, hk, fun i hi => ?_⟩
    have := hbest i hi
    simp only [Side.better] at this
    omega

/-- **The scans are exact and stay inside.** On every vector of fewer than `2 ^ 31` bits
`bitmap_find_next` from any index ends without a forbidden step at the least set bit from
`max (idx, 0)` on, and `bitmap_find_prev` from any index of the vector, or a negative one, at
the greatest set bit up to `idx`; both say `-1` when there is none. On every ladder of fewer
than `2 ^ 31` bits the constructor's `clear` makes no forbidden step, and after any run of calls
no call makes one: `next_worse` and `clear` scan inside the vector. -/
theorem scans_in_bounds :
    (∀ bits : List (BitVec 64), 64 * bits.length < 2 ^ 31 → ∀ fuel, bits.length ≤ fuel →
      (∀ idx : ℤ, ∃ r, Checked.bitmapFindNext bits fuel idx = some r ∧
        (r = -1 ∧ bitsFrom bits idx = ∅ ∨ ∃ k : ℕ, r = k ∧ IsLeast (bitsFrom bits idx) k)) ∧
      ∀ idx : ℤ, idx < 64 * bits.length → ∃ r, Checked.bitmapFindPrev bits fuel idx = some r ∧
        (r = -1 ∧ bitsUpTo bits idx = ∅ ∨ ∃ k : ℕ, r = k ∧ IsGreatest (bitsUpTo bits idx) k)) ∧
    ∀ cfg : BookConfig, 64 * ((cfg.levels + 63) / 64) < 2 ^ 31 →
      ∀ fuel, 64 * ((cfg.levels + 63) / 64) < fuel →
        (let l : Ladder := ⟨List.replicate cfg.levels Level.empty,
          List.replicate ((cfg.levels + 63) / 64) 0, -1⟩
        Checked.clearLadder fuel l = some (Ladder.clear l)) ∧
        ∀ b, OrderBook.new cfg = .ok b → ∀ ops op,
          Checked.call fuel (run OrderBook.call b ops).1 op =
            some ((run OrderBook.call b ops).1.call op) := by
  refine ⟨fun bits hbits fuel hfuel => ⟨fun idx => ?_, fun idx hidx => ?_⟩,
    fun cfg hbits fuel hfuel => ⟨?_, fun b hnew ops op => ?_⟩⟩
  · refine ⟨_, Checked.bitmapFindNext_eq hbits hfuel idx, ?_⟩
    apply isLeast_of_isBest
    refine (bitmapFindNext_spec bits idx).congr fun i => and_congr_right fun _ => ?_
    omega
  · exact ⟨_, Checked.bitmapFindPrev_eq hbits hidx hfuel,
      isGreatest_of_isBest (bitmapFindPrev_spec bits idx)⟩
  · apply Checked.clearLadder_eq
    · simpa using hbits
    · simpa using hfuel
    · intro i hi
      rw [testBit_replicate] at hi
      cases hi
  · obtain ⟨⟨q, free, hinv⟩, hcfg⟩ := wf_run hnew ops
    have hlen : ∀ s, ((run OrderBook.call b ops).1.ladder s).bits.length =
        (cfg.levels + 63) / 64 := by
      intro s
      rw [hinv.bits_len, hinv.levels_eq, hcfg]
    apply Checked.call_eq ⟨fun s => ?_, fun s => ?_⟩ hinv
    · rw [hlen]
      exact hbits
    · rw [hlen]
      exact hfuel

end PulseForge
