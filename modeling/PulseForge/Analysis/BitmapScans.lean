import PulseForge.Foundation.ListUpdate
import PulseForge.Model.OrderBook

/-!
# The bitmap scans find the best set bit

`testBit bits i` is bit `i` of the bitmap. `IsBest s P r` says that `r` is the best index
satisfying `P` on side `s` (the greatest for bids, the least for asks), or `-1` when there
is none. `bitmap_find_prev` and `bitmap_find_next` are best-index searches in this sense,
and setting or clearing a bit changes that bit only.
-/

set_option autoImplicit false

namespace PulseForge

open Foundation

/-- `r` is the best index with `P` on side `s`, or `-1` if no index has it. -/
def IsBest (s : Side) (P : ℕ → Prop) (r : ℤ) : Prop :=
  (r = -1 ∧ ∀ i, ¬ P i) ∨ ∃ k : ℕ, r = k ∧ P k ∧ ∀ i, P i → ¬ s.better i k

/-- The best index depends on which indices count. -/
theorem IsBest.congr {s : Side} {P Q : ℕ → Prop} {r : ℤ} (h : IsBest s P r)
    (hPQ : ∀ i, P i ↔ Q i) : IsBest s Q r := by
  rcases h with ⟨hr, hno⟩ | ⟨k, hr, hk, hbest⟩
  · exact .inl ⟨hr, fun i hi => hno i ((hPQ i).mpr hi)⟩
  · exact .inr ⟨k, hr, (hPQ k).mp hk, fun i hi => hbest i ((hPQ i).mpr hi)⟩

/-- There is no best index exactly when no index counts. -/
theorem IsBest.lt_zero_iff {s : Side} {P : ℕ → Prop} {r : ℤ} (h : IsBest s P r) :
    r < 0 ↔ ∀ i, ¬ P i := by
  rcases h with ⟨hr, hno⟩ | ⟨k, hr, hk, -⟩
  · exact ⟨fun _ => hno, fun _ => by omega⟩
  · exact ⟨fun hlt => by omega, fun hno => absurd hk (hno k)⟩

/-- A best index that is not `-1`. -/
theorem IsBest.exists_of_nonneg {s : Side} {P : ℕ → Prop} {r : ℤ} (h : IsBest s P r)
    (hr : ¬ r < 0) : ∃ k : ℕ, r = k ∧ P k ∧ ∀ i, P i → ¬ s.better i k := by
  rcases h with ⟨rfl, -⟩ | hk
  · omega
  · exact hk

/-! ## Leading and trailing zeros -/

theorem exists_getLsbD_of_ne_zero {x : BitVec 64} (hx : x ≠ 0) : ∃ i < 64, x.getLsbD i = true := by
  by_contra hno
  push Not at hno
  apply hx
  apply BitVec.eq_of_getLsbD_eq
  intro i hi
  simpa using hno i hi

/-- The first index below 64 satisfying `p`, as the two builtins count it. -/
theorem findIdx_range_spec {p : ℕ → Bool} (h : ∃ i < 64, p i = true) :
    (List.range 64).findIdx p < 64 ∧ p ((List.range 64).findIdx p) = true ∧
      ∀ i < (List.range 64).findIdx p, p i = false := by
  obtain ⟨i, hi, hpi⟩ := h
  have hlt : (List.range 64).findIdx p < (List.range 64).length :=
    List.findIdx_lt_length.mpr ⟨i, List.mem_range.mpr hi, hpi⟩
  have hat := List.findIdx_getElem (w := hlt)
  rw [List.getElem_range] at hat
  rw [List.length_range] at hlt
  refine ⟨hlt, hat, fun j hj => ?_⟩
  have := List.not_of_lt_findIdx hj
  simpa using this

/-- `ctzll` is the lowest bit of the word. -/
theorem ctzll_spec {x : BitVec 64} (hx : x ≠ 0) :
    ctzll x < 64 ∧ x.getLsbD (ctzll x) = true ∧ ∀ i < ctzll x, x.getLsbD i = false :=
  findIdx_range_spec (exists_getLsbD_of_ne_zero hx)

/-- `clzll` counts down from the highest bit of the word. -/
theorem clzll_spec {x : BitVec 64} (hx : x ≠ 0) :
    clzll x < 64 ∧ x.getLsbD (63 - clzll x) = true ∧
      ∀ i, 63 - clzll x < i → i < 64 → x.getLsbD i = false := by
  obtain ⟨i, hi, hxi⟩ := exists_getLsbD_of_ne_zero hx
  obtain ⟨hlt, hat, hbefore⟩ := findIdx_range_spec (p := fun j => x.getLsbD (63 - j))
    ⟨63 - i, by omega, by rwa [show 63 - (63 - i) = i by omega]⟩
  refine ⟨hlt, hat, fun j hj hj64 => ?_⟩
  have := hbefore (63 - j) (by unfold clzll at hj; omega)
  rwa [show 63 - (63 - j) = j by omega] at this

/-! ## Bits of the bitmap -/

/-- Bit `i` of the bitmap. -/
def testBit (bits : List (BitVec 64)) (i : ℕ) : Bool := (bits.getD (i / 64) 0).getLsbD (i % 64)

/-- Shifting by six divides by 64. -/
theorem shiftRight_six (i : ℕ) : i >>> 6 = i / 64 := Nat.shiftRight_eq_div_pow i 6

/-- The low six bits are the remainder by 64. -/
theorem and_sixty_three (i : ℕ) : i &&& 63 = i % 64 := Nat.and_two_pow_sub_one_eq_mod i 6

/-- The one bit of a mask. -/
theorem getLsbD_one_shiftLeft (k j : ℕ) (hj : j < 64) :
    (1#64 <<< k).getLsbD j = decide (j = k) := by
  rw [BitVec.getLsbD_shiftLeft, BitVec.getLsbD_one]
  by_cases h : j = k
  · subst h
    simp [hj]
  · have : ¬ (j - k = 0 ∧ k ≤ j) := by omega
    by_cases hlt : j < k
    · simp [h, hlt]
    · have hne : j - k ≠ 0 := by omega
      simp [h, hne]

/-- `bitmapSet` sets one bit. -/
theorem testBit_bitmapSet {bits : List (BitVec 64)} {i : ℕ} (hi : i / 64 < bits.length) (j : ℕ) :
    testBit (bitmapSet bits i) j = (testBit bits j || decide (j = i)) := by
  unfold testBit bitmapSet
  rw [shiftRight_six, and_sixty_three, getD_modify]
  have hmod : j % 64 < 64 := Nat.mod_lt _ (by omega)
  by_cases hw : i / 64 = j / 64
  · rw [if_pos ⟨hw, hw ▸ hi⟩, BitVec.getLsbD_or, getLsbD_one_shiftLeft _ _ hmod]
    congr 1
    apply decide_eq_decide.mpr
    omega
  · rw [if_neg (fun h => hw h.1)]
    have : j ≠ i := fun h => hw (by rw [h])
    simp [this]

/-- `bitmapReset` clears one bit. -/
theorem testBit_bitmapReset (bits : List (BitVec 64)) (i j : ℕ) :
    testBit (bitmapReset bits i) j = (testBit bits j && decide (j ≠ i)) := by
  unfold testBit bitmapReset
  rw [shiftRight_six, and_sixty_three, getD_modify]
  have hmod : j % 64 < 64 := Nat.mod_lt _ (by omega)
  by_cases hw : i / 64 = j / 64 ∧ j / 64 < bits.length
  · rw [if_pos hw, BitVec.getLsbD_and, BitVec.getLsbD_not, getLsbD_one_shiftLeft _ _ hmod]
    by_cases hji : j = i
    · subst hji
      simp
    · have : ¬ j % 64 = i % 64 := by omega
      simp [hji, this, hmod]
  · rw [if_neg hw]
    by_cases hji : j = i
    · subst hji
      have hge : bits.length ≤ j / 64 := by omega
      simp [hge]
    · simp [hji]

/-- A bitmap of zeros has no bit set. -/
@[simp] theorem testBit_replicate (n i : ℕ) : testBit (List.replicate n 0) i = false := by
  unfold testBit
  rw [getD_replicate]
  simp

/-- Beyond the words no bit is set. -/
theorem testBit_eq_false_of_le {bits : List (BitVec 64)} {i : ℕ} (hi : 64 * bits.length ≤ i) :
    testBit bits i = false := by
  have : bits.length ≤ i / 64 := by omega
  simp [testBit, this]

/-! ## The scans -/

/-- The downward word loop, with `word` standing for the part of word `w` still searched. -/
theorem findPrevLoop_spec (bits : List (BitVec 64)) (w : ℕ) (word : BitVec 64) :
    IsBest .buy
      (fun i => (i / 64 = w ∧ word.getLsbD (i % 64) = true) ∨ (i / 64 < w ∧ testBit bits i = true))
      (findPrevLoop bits w word) := by
  induction w generalizing word with
  | zero =>
    unfold findPrevLoop
    split
    · next hne =>
      obtain ⟨hlt, hat, hafter⟩ := clzll_spec hne
      refine .inr ⟨63 - clzll word, by simp, .inl ⟨by omega, ?_⟩, ?_⟩
      · rwa [Nat.mod_eq_of_lt (by omega)]
      · rintro i (⟨hw, hi⟩ | ⟨hw, -⟩) hbetter
        · have := hafter i (by simp only [Side.better] at hbetter; omega) (by omega)
          rw [Nat.mod_eq_of_lt (by omega), this] at hi
          cases hi
        · omega
    · next heq =>
      refine .inl ⟨rfl, ?_⟩
      simp only [ne_eq, not_not] at heq
      rintro i (⟨-, hi⟩ | ⟨hw, -⟩)
      · simp [heq] at hi
      · omega
  | succ w ih =>
    unfold findPrevLoop
    split
    · next hne =>
      obtain ⟨hlt, hat, hafter⟩ := clzll_spec hne
      refine .inr ⟨64 * (w + 1) + (63 - clzll word), ?_, .inl ⟨by omega, ?_⟩, ?_⟩
      · rw [Nat.shiftLeft_eq]
        push_cast
        omega
      · rwa [show (64 * (w + 1) + (63 - clzll word)) % 64 = 63 - clzll word by omega]
      · rintro i (⟨hw, hi⟩ | ⟨hw, -⟩) hbetter
        · have := hafter (i % 64) (by simp only [Side.better] at hbetter; omega) (by omega)
          rw [this] at hi
          cases hi
        · simp only [Side.better] at hbetter
          omega
    · next heq =>
      simp only [ne_eq, not_not] at heq
      refine (ih (bits.getD w 0)).congr fun i => ?_
      subst heq
      constructor
      · rintro (⟨hw, hi⟩ | ⟨hw, hi⟩)
        · refine .inr ⟨by omega, ?_⟩
          rw [testBit, hw]
          exact hi
        · exact .inr ⟨by omega, hi⟩
      · rintro (⟨-, hi⟩ | ⟨hw, hi⟩)
        · simp at hi
        · by_cases hiw : i / 64 = w
          · refine .inl ⟨hiw, ?_⟩
            rw [testBit, hiw] at hi
            exact hi
          · exact .inr ⟨by omega, hi⟩

/-- The mask of `bitmap_find_prev` keeps bits `0..b`. -/
theorem getLsbD_prevMask {b j : ℕ} (hb : b < 64) (hj : j < 64) :
    (if b = 63 then BitVec.allOnes 64 else (1#64 <<< (b + 1)) - 1).getLsbD j = decide (j ≤ b) := by
  split
  · next h =>
    rw [BitVec.getLsbD_allOnes, decide_eq_decide]
    omega
  · next h =>
    rw [show (1#64 <<< (b + 1)) - 1 = BitVec.ofNat 64 (2 ^ (b + 1) - 1) from ?_]
    · rw [BitVec.getLsbD_ofNat, Nat.testBit_two_pow_sub_one, decide_eq_true hj, Bool.true_and,
        decide_eq_decide]
      omega
    · apply BitVec.eq_of_toNat_eq
      have hpow : (2 : ℕ) ^ (b + 1) < 2 ^ 64 := Nat.pow_lt_pow_right (by omega) (by omega)
      have hpos : 0 < (2 : ℕ) ^ (b + 1) := by positivity
      rw [BitVec.toNat_sub, BitVec.toNat_shiftLeft, BitVec.toNat_ofNat, Nat.shiftLeft_eq,
        BitVec.toNat_ofNat, show 1 % 2 ^ 64 * 2 ^ (b + 1) = 2 ^ (b + 1) by simp,
        Nat.mod_eq_of_lt hpow, show (1 : BitVec 64).toNat = 1 from rfl]
      omega

/-- The mask of `bitmap_find_next` drops the bits below `b`. -/
theorem getLsbD_nextMask {b j : ℕ} (hj : j < 64) :
    (BitVec.allOnes 64 <<< b).getLsbD j = decide (b ≤ j) := by
  rw [BitVec.getLsbD_shiftLeft, BitVec.getLsbD_allOnes, decide_eq_true hj, Bool.true_and]
  by_cases hbj : b ≤ j
  · have : j - b < 64 := by omega
    simp [hbj, this]
  · have : j < b := by omega
    simp [hbj, this]

/-- **`bitmap_find_prev`** is the greatest set bit index `≤ idx`, or `-1`. -/
theorem bitmapFindPrev_spec (bits : List (BitVec 64)) (idx : ℤ) :
    IsBest .buy (fun i => testBit bits i = true ∧ (i : ℤ) ≤ idx) (bitmapFindPrev bits idx) := by
  unfold bitmapFindPrev
  split
  · exact .inl ⟨rfl, fun i hi => by omega⟩
  · next hneg =>
    obtain ⟨n, rfl⟩ : ∃ n : ℕ, idx = n := ⟨idx.toNat, by omega⟩
    simp only [Int.toNat_natCast, shiftRight_six, and_sixty_three]
    refine (findPrevLoop_spec bits (n / 64) _).congr fun i => ?_
    have hmask := getLsbD_prevMask (b := n % 64) (j := i % 64) (Nat.mod_lt _ (by omega))
      (Nat.mod_lt _ (by omega))
    rw [BitVec.getLsbD_and, hmask]
    constructor
    · rintro (⟨hw, hi⟩ | ⟨hw, hi⟩)
      · rw [Bool.and_eq_true, decide_eq_true_eq] at hi
        refine ⟨?_, by omega⟩
        rw [testBit, hw]
        exact hi.1
      · exact ⟨hi, by omega⟩
    · rintro ⟨hi, hle⟩
      by_cases hw : i / 64 = n / 64
      · refine .inl ⟨hw, ?_⟩
        rw [Bool.and_eq_true, decide_eq_true_eq]
        rw [testBit, hw] at hi
        exact ⟨hi, by omega⟩
      · exact .inr ⟨by omega, hi⟩

/-- The upward word loop, with `word` standing for the part of word `w` still searched. -/
theorem findNextLoop_spec (bits : List (BitVec 64)) :
    ∀ fuel w (word : BitVec 64), w < bits.length → bits.length ≤ w + fuel →
      IsBest .sell
        (fun i => (i / 64 = w ∧ word.getLsbD (i % 64) = true) ∨
          (w < i / 64 ∧ testBit bits i = true))
        (findNextLoop bits fuel w word) := by
  intro fuel
  induction fuel with
  | zero => intro w word hw hf; omega
  | succ fuel ih =>
    intro w word hw hf
    rw [findNextLoop]
    split
    · next hne =>
      obtain ⟨hlt, hat, hbefore⟩ := ctzll_spec hne
      refine .inr ⟨64 * w + ctzll word, ?_, .inl ⟨by omega, ?_⟩, ?_⟩
      · rw [Nat.shiftLeft_eq]
        push_cast
        omega
      · rwa [show (64 * w + ctzll word) % 64 = ctzll word by omega]
      · rintro i (⟨hiw, hi⟩ | ⟨hiw, -⟩) hbetter
        · have := hbefore (i % 64) (by simp only [Side.better] at hbetter; omega)
          rw [this] at hi
          cases hi
        · simp only [Side.better] at hbetter
          omega
    · next heq =>
      simp only [ne_eq, not_not] at heq
      subst heq
      split
      · next hend =>
        refine .inl ⟨rfl, ?_⟩
        rintro i (⟨-, hi⟩ | ⟨hiw, hi⟩)
        · simp at hi
        · rw [testBit_eq_false_of_le (by omega)] at hi
          cases hi
      · refine (ih (w + 1) (bits.getD (w + 1) 0) (by omega) (by omega)).congr fun i => ?_
        constructor
        · rintro (⟨hiw, hi⟩ | ⟨hiw, hi⟩)
          · refine .inr ⟨by omega, ?_⟩
            rw [testBit, hiw]
            exact hi
          · exact .inr ⟨by omega, hi⟩
        · rintro (⟨-, hi⟩ | ⟨hiw, hi⟩)
          · simp at hi
          · by_cases hi1 : i / 64 = w + 1
            · refine .inl ⟨hi1, ?_⟩
              rw [testBit, hi1] at hi
              exact hi
            · exact .inr ⟨by omega, hi⟩

/-- **`bitmap_find_next`** is the least set bit index `≥ idx`, or `-1`. -/
theorem bitmapFindNext_spec (bits : List (BitVec 64)) (idx : ℤ) :
    IsBest .sell (fun i => testBit bits i = true ∧ idx ≤ (i : ℤ)) (bitmapFindNext bits idx) := by
  unfold bitmapFindNext
  simp only [shiftRight_six, and_sixty_three]
  obtain ⟨n, hn, hle⟩ : ∃ n : ℕ, (if idx < 0 then 0 else idx.toNat) = n ∧
      ∀ i : ℕ, idx ≤ i ↔ n ≤ i := by
    split
    · exact ⟨0, rfl, fun i => by omega⟩
    · exact ⟨idx.toNat, rfl, fun i => by omega⟩
  rw [hn]
  split
  · next hend =>
    refine .inl ⟨rfl, ?_⟩
    rintro i ⟨hi, hge⟩
    rw [hle] at hge
    rw [testBit_eq_false_of_le (by omega)] at hi
    cases hi
  · next hlt =>
    refine (findNextLoop_spec bits _ _ _ (by omega) (by omega)).congr fun i => ?_
    rw [hle, BitVec.getLsbD_and, getLsbD_nextMask (Nat.mod_lt _ (by omega)), Bool.and_eq_true,
      decide_eq_true_eq]
    constructor
    · rintro (⟨hw, hi, hmod⟩ | ⟨hw, hi⟩)
      · refine ⟨?_, by omega⟩
        rw [testBit, hw]
        exact hi
      · exact ⟨hi, by omega⟩
    · rintro ⟨hi, hge⟩
      by_cases hw : i / 64 = n / 64
      · rw [testBit, hw] at hi
        exact .inl ⟨hw, hi, by omega⟩
      · exact .inr ⟨by omega, hi⟩

end PulseForge
