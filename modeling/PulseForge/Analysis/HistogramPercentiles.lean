import Mathlib.Algebra.Order.Floor.Div
import Mathlib.Data.List.GetD
import PulseForge.Foundation.OrderStatistics
import PulseForge.Model.LatencyHistogram

/-!
# Percentiles of split samples

A histogram of a plan counts, in each bucket, the samples between two bounds; the running total of
the scan is then the number of samples below a bound, and it reaches the target of a percentile at
the first bound above the sample of that rank.
-/

set_option autoImplicit false

namespace PulseForge.LatencyHistogram

open Foundation

/-! ## The bounds -/

/-- The bounds as numbers. -/
def bnd (i : ℕ) : ℕ := (bucketBound i).toNat

/-- The top bound. -/
def top : ℕ := bnd kLatencyHistogramBuckets

/-- The bounds double from 128 on. -/
theorem bnd_succ {i : ℕ} (hi : i < kLatencyHistogramBuckets) : bnd (i + 1) = 2 ^ (i + 7) := by
  have hall : ∀ i : Fin kLatencyHistogramBuckets, bnd (i + 1) = 2 ^ (i.val + 7) := by decide
  exact hall ⟨i, hi⟩

theorem bnd_zero : bnd 0 = 0 := rfl

/-- The bounds rise. -/
theorem bnd_le {i : ℕ} (hi : i < kLatencyHistogramBuckets) : bnd i ≤ bnd (i + 1) := by
  cases i with
  | zero => exact Nat.zero_le _
  | succ i =>
    rw [bnd_succ hi, bnd_succ (Nat.lt_of_succ_lt hi)]
    exact Nat.pow_le_pow_right (by decide) (Nat.le_succ _)

/-- Every bound is in the table. -/
theorem mem_bounds {i : ℕ} (hi : i ≤ kLatencyHistogramBuckets) :
    bnd i ∈ kLatencyBucketBounds.map UInt64.toNat := by
  have hlen : i < kLatencyBucketBounds.length := Nat.lt_succ_of_le hi
  unfold bnd bucketBound
  rw [List.getD_eq_getElem _ _ hlen]
  exact List.mem_map_of_mem (List.getElem_mem hlen)

/-- The table has no other bounds. -/
theorem exists_bnd {b : ℕ} (hb : b ∈ kLatencyBucketBounds.map UInt64.toNat) :
    ∃ i ≤ kLatencyHistogramBuckets, b = bnd i := by
  obtain ⟨v, hv, rfl⟩ := List.mem_map.mp hb
  obtain ⟨i, hi, rfl⟩ := List.getElem_of_mem hv
  refine ⟨i, Nat.le_of_lt_succ hi, ?_⟩
  unfold bnd bucketBound
  rw [List.getD_eq_getElem _ _ hi]

/-! ## The bucket of a sample -/

/-- The first bound above a number, by the bucket below it. -/
def firstAbove (x : ℕ) : Option ℕ :=
  (List.range kLatencyHistogramBuckets).find? fun i => decide (x < bnd (i + 1))

/-- The bucket found for a sample has it between its bounds. -/
theorem firstAbove_some {x i : ℕ} (h : firstAbove x = some i) :
    i < kLatencyHistogramBuckets ∧ bnd i ≤ x ∧ x < bnd (i + 1) := by
  obtain ⟨hlt, hmem, hbelow⟩ := List.find?_range_eq_some.mp h
  have hi := List.mem_range.mp hmem
  refine ⟨hi, ?_, of_decide_eq_true hlt⟩
  cases i with
  | zero => exact Nat.zero_le _
  | succ i => simpa using hbelow i (Nat.lt_succ_self i)

/-- A sample without a bucket is beyond the top. -/
theorem firstAbove_none {x : ℕ} (h : firstAbove x = none) : top ≤ x := by
  have hall := List.find?_eq_none.mp h (kLatencyHistogramBuckets - 1) (by decide)
  rw [decide_eq_true_eq, Nat.not_lt] at hall
  exact hall

/-- The bounds rise along the table. -/
theorem bnd_mono {i j : ℕ} (hij : i ≤ j) (hj : j ≤ kLatencyHistogramBuckets) : bnd i ≤ bnd j := by
  induction j, hij using Nat.le_induction with
  | base => exact Nat.le_refl _
  | succ j _ ih => exact (ih (Nat.le_of_succ_le hj)).trans (bnd_le hj)

/-- **The buckets** split the numbers below the top bound. -/
theorem firstAbove_eq_some_iff {x i : ℕ} :
    firstAbove x = some i ↔ i < kLatencyHistogramBuckets ∧ bnd i ≤ x ∧ x < bnd (i + 1) := by
  constructor
  · exact firstAbove_some
  · rintro ⟨hi, hle, hlt⟩
    cases h : firstAbove x with
    | none =>
      have htop := (bnd_mono hi (Nat.le_refl _)).trans (firstAbove_none h)
      exact absurd hlt (Nat.not_lt.mpr htop)
    | some j =>
      obtain ⟨hj, hle', hlt'⟩ := firstAbove_some h
      congr 1
      rcases Nat.lt_trichotomy j i with hji | rfl | hij
      · have hmono := bnd_mono (Nat.succ_le_of_lt hji) hi.le
        exact absurd (hlt'.trans_le hmono) (Nat.not_lt.mpr hle)
      · rfl
      · have hmono := bnd_mono (Nat.succ_le_of_lt hij) hj.le
        exact absurd (hlt.trans_le hmono) (Nat.not_lt.mpr hle')

/-- The samples without a bucket are those beyond the top. -/
theorem firstAbove_eq_none_iff {x : ℕ} : firstAbove x = none ↔ top ≤ x := by
  constructor
  · exact firstAbove_none
  · intro hle
    cases h : firstAbove x with
    | none => rfl
    | some i =>
      obtain ⟨hi, -, hlt⟩ := firstAbove_some h
      exact absurd (hlt.trans_le (bnd_mono hi (Nat.le_refl _))) (Nat.not_lt.mpr hle)

/-- `bucket_index` is the first bound above the sample. -/
theorem bucketIndex_eq (x : UInt64) :
    bucketIndex x = (firstAbove x.toNat).getD kLatencyHistogramBuckets := by
  unfold bucketIndex firstAbove
  simp only [UInt64.lt_iff_toNat_lt]
  rfl

/-- A sample is in a bucket exactly when it is between its bounds. -/
theorem bucketIndex_eq_iff {x : UInt64} {i : ℕ} (hi : i < kLatencyHistogramBuckets) :
    bucketIndex x = i ↔ bnd i ≤ x.toNat ∧ x.toNat < bnd (i + 1) := by
  rw [bucketIndex_eq]
  cases h : firstAbove x.toNat with
  | none =>
    apply iff_of_false
    · exact (Nat.ne_of_lt hi).symm
    · intro hboth
      rw [firstAbove_eq_some_iff.mpr ⟨hi, hboth⟩] at h
      exact nomatch h
  | some j =>
    rw [Option.getD_some]
    constructor
    · rintro rfl
      exact (firstAbove_some h).2
    · intro hboth
      rw [firstAbove_eq_some_iff.mpr ⟨hi, hboth⟩] at h
      exact (Option.some.inj h).symm

/-! ## What a histogram holds -/

/-- **The histogram of some samples.** -/
structure Holds (h : LatencyHistogram) (s : Multiset ℕ) : Prop where
  buckets : ∀ i, h.buckets i = .ofNat (s.countP fun x => bnd i ≤ x ∧ x < bnd (i + 1))
  overflow : h.overflow = .ofNat (s.countP fun x => top ≤ x)
  count : h.count = .ofNat s.card
  max : h.maxNs.toNat = s.sup

/-- Raising a maximum. -/
theorem toNat_raise (cur value : UInt64) : (raise cur value).toNat = max cur.toNat value.toNat := by
  unfold raise
  split_ifs with hlt
  · exact (max_eq_right (UInt64.lt_iff_toNat_lt.mp hlt).le).symm
  · exact (max_eq_left (Nat.not_lt.mp (mt UInt64.lt_iff_toNat_lt.mpr hlt))).symm

/-- An empty histogram holds no samples. -/
theorem reset_holds : reset.Holds 0 where
  buckets _ := rfl
  overflow := rfl
  count := rfl
  max := rfl

theorem ofNat_countP_cons (p : ℕ → Prop) [DecidablePred p] (x : ℕ) (s : Multiset ℕ) :
    UInt64.ofNat ((x ::ₘ s).countP p) = .ofNat (s.countP p) + if p x then 1 else 0 := by
  rw [Multiset.countP_cons, UInt64.ofNat_add]
  split_ifs <;> rfl

variable {h : LatencyHistogram} {s : Multiset ℕ}

/-- `record` counts the sample. -/
theorem record_count (x : UInt64) : (h.record x).count = h.count + 1 := by
  unfold LatencyHistogram.record
  dsimp only
  split_ifs <;> rfl

/-- `record` raises the maximum. -/
theorem record_maxNs (x : UInt64) : (h.record x).maxNs = raise h.maxNs x := by
  unfold LatencyHistogram.record
  dsimp only
  split_ifs <;> rfl

/-- `record` counts the sample in its bucket. -/
theorem record_buckets (x : UInt64) (i : Fin kLatencyHistogramBuckets) :
    (h.record x).buckets i = h.buckets i + if bucketIndex x = i then 1 else 0 := by
  unfold LatencyHistogram.record
  dsimp only
  by_cases hidx : bucketIndex x < kLatencyHistogramBuckets
  · rw [dif_pos hidx]
    by_cases heq : bucketIndex x = i
    · obtain rfl : i = ⟨bucketIndex x, hidx⟩ := Fin.ext heq.symm
      rw [if_pos rfl]
      exact Function.update_self _ _ _
    · have hne : i ≠ ⟨bucketIndex x, hidx⟩ := fun h => heq (congrArg Fin.val h).symm
      rw [if_neg heq, UInt64.add_zero]
      exact Function.update_of_ne hne _ _
  · have hne : bucketIndex x ≠ i := fun heq => hidx (heq ▸ i.isLt)
    rw [dif_neg hidx, if_neg hne, UInt64.add_zero]

/-- `record` counts a sample beyond the top. -/
theorem record_overflow (x : UInt64) :
    (h.record x).overflow = h.overflow + if top ≤ x.toNat then 1 else 0 := by
  have hiff : top ≤ x.toNat ↔ ¬ bucketIndex x < kLatencyHistogramBuckets := by
    rw [bucketIndex_eq, ← firstAbove_eq_none_iff]
    cases hfirst : firstAbove x.toNat with
    | none => exact iff_of_true rfl (Nat.lt_irrefl _)
    | some i => exact iff_of_false (by simp) (not_not_intro (firstAbove_some hfirst).1)
  unfold LatencyHistogram.record
  dsimp only
  by_cases hidx : bucketIndex x < kLatencyHistogramBuckets
  · rw [dif_pos hidx, if_neg fun hle => hiff.mp hle hidx, UInt64.add_zero]
  · rw [dif_neg hidx, if_pos (hiff.mpr hidx)]

/-- A histogram holds what was recorded. -/
theorem Holds.record (hs : h.Holds s) (x : UInt64) : (h.record x).Holds (x.toNat ::ₘ s) := by
  constructor
  · intro i
    rw [record_buckets, ofNat_countP_cons, ← hs.buckets i]
    simp only [bucketIndex_eq_iff i.isLt]
  · rw [record_overflow, ofNat_countP_cons, ← hs.overflow]
  · rw [record_count, Multiset.card_cons, UInt64.ofNat_add, hs.count]
    rfl
  · rw [record_maxNs, toNat_raise, hs.max, Multiset.sup_cons, max_comm]

/-- A merged histogram holds the samples of both. -/
theorem Holds.merge {h' : LatencyHistogram} {s' : Multiset ℕ} (hs : h.Holds s) (hs' : h'.Holds s') :
    (h.merge h').Holds (s + s') := by
  constructor
  · intro i
    change h.buckets i + h'.buckets i = _
    rw [Multiset.countP_add, UInt64.ofNat_add, hs.buckets, hs'.buckets]
  · change h.overflow + h'.overflow = _
    rw [Multiset.countP_add, UInt64.ofNat_add, hs.overflow, hs'.overflow]
  · change h.count + h'.count = _
    rw [Multiset.card_add, UInt64.ofNat_add, hs.count, hs'.count]
  · change (raise h.maxNs h'.maxNs).toNat = _
    rw [toNat_raise, hs.max, hs'.max, Multiset.sup_add]

/-- **Every plan.** -/
theorem Plan.holds (p : Plan) : p.run.Holds p.samples := by
  induction p with
  | reset => exact reset_holds
  | record p x ih => exact ih.record x
  | merge into source ih ih' => exact ih.merge ih'

/-! ## The scan -/

/-- The number of samples below the bound `i`. -/
def below (s : Multiset ℕ) (i : ℕ) : ℕ := s.countP fun x => x < bnd i

/-- No more samples are below a bound than there are. -/
theorem below_le (s : Multiset ℕ) (i : ℕ) : below s i ≤ s.card := Multiset.countP_le_card _ _

/-- The samples below the next bound are those of one bucket more. -/
theorem below_succ (s : Multiset ℕ) {i : ℕ} (hi : i < kLatencyHistogramBuckets) :
    below s (i + 1) = below s i + s.countP fun x => bnd i ≤ x ∧ x < bnd (i + 1) := by
  have hle := bnd_le hi
  unfold below
  induction s using Multiset.induction_on with
  | empty => rfl
  | cons x s ih =>
    rw [Multiset.countP_cons, Multiset.countP_cons, Multiset.countP_cons, ih]
    split_ifs <;> omega

/-- The latch of the target `t` after `k` buckets. -/
def latched (s : Multiset ℕ) (t k : ℕ) : Option UInt64 :=
  ((List.range k).find? fun i => decide (t ≤ below s (i + 1))).map fun i => bucketBound (i + 1)

/-- **One bucket** moves a latch on. -/
theorem latch_latched (s : Multiset ℕ) {running target : UInt64} {k : ℕ}
    (hrunning : running.toNat = below s (k + 1)) :
    latch running target (bucketBound (k + 1)) (latched s target.toNat k) =
      latched s target.toNat (k + 1) := by
  have hiff : target ≤ running ↔ target.toNat ≤ below s (k + 1) := by
    rw [UInt64.le_iff_toNat_le, hrunning]
  unfold latch latched
  rw [List.range_succ, List.find?_append]
  cases (List.range k).find? fun i => decide (target.toNat ≤ below s (i + 1)) with
  | some i => exact if_neg (by simp)
  | none =>
    by_cases hle : target.toNat ≤ below s (k + 1)
    · simp [hiff, hle]
    · simp [hiff, hle]

/-- What the scan has after `k` buckets. -/
def scanned (s : Multiset ℕ) (t50 t99 t999 : UInt64) (k : ℕ) : Scan where
  running := .ofNat (below s k)
  p50 := latched s t50.toNat k
  p99 := latched s t99.toNat k
  p999 := latched s t999.toNat k

/-- One turn of the scan. -/
theorem Holds.scanBucket (hs : h.Holds s) (hcard : s.card < 2 ^ 64) (t50 t99 t999 : UInt64)
    (i : Fin kLatencyHistogramBuckets) :
    h.scanBucket t50 t99 t999 (scanned s t50 t99 t999 i) i = scanned s t50 t99 t999 (i + 1) := by
  have hrunning : UInt64.ofNat (below s i) + h.buckets i = .ofNat (below s (i + 1)) := by
    rw [hs.buckets, ← UInt64.ofNat_add, below_succ s i.isLt]
  have htoNat : (UInt64.ofNat (below s (i + 1))).toNat = below s (i + 1) :=
    UInt64.toNat_ofNat_of_lt' ((below_le s _).trans_lt hcard)
  unfold LatencyHistogram.scanBucket scanned
  dsimp only
  rw [hrunning, latch_latched s htoNat, latch_latched s htoNat, latch_latched s htoNat]

/-- **The scan** of all buckets. -/
theorem Holds.scan (hs : h.Holds s) (hcard : s.card < 2 ^ 64) (t50 t99 t999 : UInt64) :
    (List.finRange kLatencyHistogramBuckets).foldl (h.scanBucket t50 t99 t999) {} =
      scanned s t50 t99 t999 kLatencyHistogramBuckets := by
  have hprefix : ∀ k ≤ kLatencyHistogramBuckets,
      ((List.finRange kLatencyHistogramBuckets).take k).foldl (h.scanBucket t50 t99 t999) {} =
        scanned s t50 t99 t999 k := by
    intro k hk
    induction k with
    | zero =>
      have hzero : below s 0 = 0 := by
        unfold below
        rw [bnd_zero, Multiset.countP_eq_zero]
        exact fun x _ => Nat.not_lt_zero x
      unfold scanned
      rw [hzero]
      rfl
    | succ k ih =>
      have hlen : k < (List.finRange kLatencyHistogramBuckets).length := by
        rw [List.length_finRange]
        exact hk
      rw [List.take_succ_eq_append_getElem hlen, List.foldl_append, ih (Nat.le_of_succ_le hk),
        List.getElem_finRange]
      exact hs.scanBucket hcard t50 t99 t999 ⟨k, hk⟩
  have hall := hprefix kLatencyHistogramBuckets (Nat.le_refl _)
  rwa [List.take_of_length_le (by rw [List.length_finRange])] at hall

/-! ## The estimates -/

/-- An estimate of the sample `x`, in samples of which `greatest` is the greatest: the smallest bound
above `x`, or `greatest` when there is none. -/
structure Estimates (greatest x est : ℕ) : Prop where
  above : x < top → IsLeast {b | b ∈ kLatencyBucketBounds.map UInt64.toNat ∧ x < b} est
  double : x < top → 128 ≤ x → est ≤ 2 * x
  overflow : top ≤ x → est = greatest

/-- **A latch** estimates the sample of the rank that is its target. -/
theorem latched_estimates {x t : ℕ} (hx : IsRanked s t x) (maxNs : UInt64) :
    Estimates maxNs.toNat x ((latched s t kLatencyHistogramBuckets).getD maxNs).toNat := by
  have hfirst : latched s t kLatencyHistogramBuckets =
      (firstAbove x).map fun i => bucketBound (i + 1) := by
    unfold latched firstAbove below
    simp only [hx.lt_iff]
  rw [hfirst]
  cases h : firstAbove x with
  | none =>
    have htop := firstAbove_none h
    constructor
    · exact fun hlt => absurd hlt (Nat.not_lt.mpr htop)
    · exact fun hlt => absurd hlt (Nat.not_lt.mpr htop)
    · exact fun _ => rfl
  | some i =>
    obtain ⟨hi, hle, hlt⟩ := firstAbove_some h
    change Estimates _ x (bnd (i + 1))
    constructor
    · intro _
      refine ⟨⟨mem_bounds hi, hlt⟩, ?_⟩
      rintro b ⟨hb, hxb⟩
      obtain ⟨j, hj, rfl⟩ := exists_bnd hb
      apply bnd_mono _ hj
      by_contra hji
      have hmono := bnd_mono (Nat.le_of_lt_succ (Nat.not_le.mp hji)) hi.le
      exact absurd (hxb.trans_le hmono) (Nat.not_lt.mpr hle)
    · intro _ hlarge
      cases i with
      | zero => exact absurd hlt (Nat.not_lt.mpr hlarge)
      | succ i =>
        rw [bnd_succ (Nat.lt_of_succ_lt hi)] at hle
        rw [bnd_succ hi]
        calc 2 ^ (i + 1 + 7) = 2 * 2 ^ (i + 7) := by ring
          _ ≤ 2 * x := Nat.mul_le_mul_left 2 hle
    · exact fun htop => absurd (hlt.trans_le (bnd_mono hi (Nat.le_refl _))) (Nat.not_lt.mpr htop)

/-- Larger samples, larger estimates. -/
theorem Estimates.mono {greatest x y ex ey : ℕ} (hx : Estimates greatest x ex)
    (hy : Estimates greatest y ey) (hxy : x ≤ y) (hgreatest : y ≤ greatest) : ex ≤ ey := by
  by_cases hxtop : x < top
  · obtain ⟨-, hleast⟩ := hx.above hxtop
    by_cases hytop : y < top
    · obtain ⟨⟨hmem, hlt⟩, -⟩ := hy.above hytop
      exact hleast ⟨hmem, hxy.trans_lt hlt⟩
    · have htop := Nat.not_lt.mp hytop
      rw [hy.overflow htop]
      exact (hleast ⟨mem_bounds (Nat.le_refl _), hxtop⟩).trans (htop.trans hgreatest)
  · have htop := Nat.not_lt.mp hxtop
    rw [hx.overflow htop, hy.overflow (htop.trans hxy)]

/-! ## Merging -/

/-- The maximum of two, either way. -/
theorem raise_comm (a b : UInt64) : raise a b = raise b a := by
  apply UInt64.toNat_inj.mp
  rw [toNat_raise, toNat_raise, max_comm]

/-- The maximum of three. -/
theorem raise_assoc (a b c : UInt64) : raise (raise a b) c = raise a (raise b c) := by
  apply UInt64.toNat_inj.mp
  rw [toNat_raise, toNat_raise, toNat_raise, toNat_raise, max_assoc]

/-- Merging does not depend on the order of two histograms. -/
theorem merge_comm (a b : LatencyHistogram) : a.merge b = b.merge a := by
  ext
  · exact UInt64.toNat_inj.mpr (UInt64.add_comm _ _)
  · exact UInt64.toNat_inj.mpr (UInt64.add_comm _ _)
  · exact UInt64.toNat_inj.mpr (UInt64.add_comm _ _)
  · exact UInt64.toNat_inj.mpr (raise_comm _ _)

/-- Merging does not depend on how three are grouped. -/
theorem merge_assoc (a b c : LatencyHistogram) : (a.merge b).merge c = a.merge (b.merge c) := by
  ext
  · exact UInt64.toNat_inj.mpr (UInt64.add_assoc _ _ _)
  · exact UInt64.toNat_inj.mpr (UInt64.add_assoc _ _ _)
  · exact UInt64.toNat_inj.mpr (UInt64.add_assoc _ _ _)
  · exact UInt64.toNat_inj.mpr (raise_assoc _ _ _)

/-! ## The percentiles -/

/-- The greatest of some samples is one of them. -/
theorem sup_mem (hne : s ≠ 0) : s.sup ∈ s := by
  induction s using Multiset.induction_on with
  | empty => exact absurd rfl hne
  | cons x s ih =>
    rw [Multiset.sup_cons, Multiset.mem_cons]
    by_cases hs : s = 0
    · rw [hs]
      exact .inl (max_eq_left (Nat.zero_le _))
    · rcases max_choice x s.sup with h | h
      · exact .inl h
      · refine .inr ?_
        rw [show x ⊔ s.sup = s.sup from h]
        exact ih hs

/-- The ranks of the three percentiles of `n` samples. -/
theorem ranks {n : ℕ} (hn : 0 < n) :
    0 < n * 50 ⌈/⌉ 100 ∧ n * 50 ⌈/⌉ 100 ≤ n * 99 ⌈/⌉ 100 ∧
      n * 99 ⌈/⌉ 100 ≤ n * 999 ⌈/⌉ 1000 ∧ n * 999 ⌈/⌉ 1000 ≤ n := by
  simp only [Nat.ceilDiv_eq_add_pred_div]
  omega

/-- The targets are the ranks. -/
theorem toNat_targets {count : UInt64} (hcount : 999 * count.toNat + 999 < 2 ^ 64) :
    ((count * 50 + 99) / 100).toNat = count.toNat * 50 ⌈/⌉ 100 ∧
      ((count * 99 + 99) / 100).toNat = count.toNat * 99 ⌈/⌉ 100 ∧
      ((count * 999 + 999) / 1000).toNat = count.toNat * 999 ⌈/⌉ 1000 := by
  simp only [Nat.ceilDiv_eq_add_pred_div, UInt64.toNat_div, UInt64.toNat_add, UInt64.toNat_mul,
    UInt64.toNat_ofNat, Nat.reducePow, Nat.reduceMod]
  omega

/-- **The percentiles** are the latches of their ranks. -/
theorem Holds.percentiles (hs : h.Holds s) (hne : s ≠ 0) (hcard : 999 * s.card + 999 < 2 ^ 64) :
    h.percentiles =
      { p50 := (latched s (s.card * 50 ⌈/⌉ 100) kLatencyHistogramBuckets).getD h.maxNs
        p99 := (latched s (s.card * 99 ⌈/⌉ 100) kLatencyHistogramBuckets).getD h.maxNs
        p999 := (latched s (s.card * 999 ⌈/⌉ 1000) kLatencyHistogramBuckets).getD h.maxNs
        maxNs := h.maxNs
        count := h.count } := by
  have hcount : h.count.toNat = s.card := by
    rw [hs.count]
    exact UInt64.toNat_ofNat_of_lt' (show s.card < 2 ^ 64 by omega)
  have hzero : h.count ≠ 0 := by
    intro hzero
    rw [hzero] at hcount
    exact hne (Multiset.card_eq_zero.mp hcount.symm)
  obtain ⟨h50, h99, h999⟩ := @toNat_targets h.count (by rw [hcount]; exact hcard)
  rw [hcount] at h50 h99 h999
  unfold LatencyHistogram.percentiles
  rw [if_neg hzero, hs.scan (by omega)]
  unfold scanned
  rw [h50, h99, h999]

/-- **Percentiles of split samples**: for every way to record them into histograms that were reset
and to merge these. -/
theorem percentiles_bracket (p : Plan) (hne : p.samples ≠ 0)
    (hcard : 999 * p.samples.card + 999 < 2 ^ 64) :
    let s := p.samples
    let n := s.card
    let out := p.run.percentiles
    out.count.toNat = n ∧ IsGreatest {x | x ∈ s} out.maxNs.toNat ∧
      (∃ x, IsRanked s (n * 50 ⌈/⌉ 100) x ∧ Estimates out.maxNs.toNat x out.p50.toNat) ∧
      (∃ x, IsRanked s (n * 99 ⌈/⌉ 100) x ∧ Estimates out.maxNs.toNat x out.p99.toNat) ∧
      (∃ x, IsRanked s (n * 999 ⌈/⌉ 1000) x ∧ Estimates out.maxNs.toNat x out.p999.toNat) ∧
      out.p50 ≤ out.p99 ∧ out.p99 ≤ out.p999 ∧
      (∀ a b c : LatencyHistogram,
        a.merge b = b.merge a ∧ (a.merge b).merge c = a.merge (b.merge c)) := by
  have hs := p.holds
  have hn : 0 < p.samples.card := Multiset.card_pos.mpr hne
  obtain ⟨hpos, h50, h99, h999⟩ := ranks hn
  obtain ⟨x50, hx50⟩ := exists_isRanked hpos (h50.trans (h99.trans h999))
  obtain ⟨x99, hx99⟩ := exists_isRanked (hpos.trans_le h50) (h99.trans h999)
  obtain ⟨x999, hx999⟩ := exists_isRanked (hpos.trans_le (h50.trans h99)) h999
  have he50 := latched_estimates hx50 p.run.maxNs
  have he99 := latched_estimates hx99 p.run.maxNs
  have he999 := latched_estimates hx999 p.run.maxNs
  have hgreatest : ∀ x ∈ p.samples, x ≤ p.run.maxNs.toNat := by
    intro x hx
    rw [hs.max]
    exact Multiset.le_sup hx
  intro s n out
  have hout : out = _ := hs.percentiles hne hcard
  rw [hout]
  refine ⟨?_, ⟨?_, fun x hx => hgreatest x hx⟩, ⟨x50, hx50, he50⟩, ⟨x99, hx99, he99⟩,
    ⟨x999, hx999, he999⟩, ?_, ?_, fun a b c => ⟨merge_comm a b, merge_assoc a b c⟩⟩
  · dsimp only
    rw [hs.count]
    exact UInt64.toNat_ofNat_of_lt' (show p.samples.card < 2 ^ 64 by omega)
  · change p.run.maxNs.toNat ∈ p.samples
    rw [hs.max]
    exact sup_mem hne
  · apply UInt64.le_iff_toNat_le.mpr
    exact he50.mono he99 (hx50.mono hx99 h50) (hgreatest x99 hx99.mem)
  · apply UInt64.le_iff_toNat_le.mpr
    exact he99.mono he999 (hx99.mono hx999 h99) (hgreatest x999 hx999.mem)

/-- Two histograms with one sample each. -/
theorem percentiles_bracket_two :
    let p : Plan := .merge (.record .reset 500) (.record .reset 5000)
    p.samples ≠ 0 ∧ p.run.percentiles.count.toNat = 2 :=
  ⟨by decide, (percentiles_bracket (.merge (.record .reset 500) (.record .reset 5000)) (by decide)
    (by decide)).1⟩

end PulseForge.LatencyHistogram
