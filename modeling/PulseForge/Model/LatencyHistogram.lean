import Mathlib.Tactic

/-!
# Latency histograms (`latency_histogram.hpp`)

One thread at a time: a compare-and-exchange of `max_ns` is tried again until it succeeds, so that
the larger value stays.
-/

set_option autoImplicit false

namespace PulseForge

/-- latency_histogram.hpp:43. -/
def kLatencyHistogramBuckets : ℕ := 48

/-- latency_histogram.hpp:44. -/
def kLatencyHistogramMinNs : UInt64 := 128

/-- The loop of `make_latency_bucket_bounds` (latency_histogram.hpp:53-56). -/
def bucketBoundsLoop : ℕ → UInt64 → List UInt64
  | 0, _ => []
  | n + 1, v => v :: bucketBoundsLoop n (v * 2)

/-- `kLatencyBucketBounds` (latency_histogram.hpp:48-60). -/
def kLatencyBucketBounds : List UInt64 :=
  0 :: bucketBoundsLoop kLatencyHistogramBuckets kLatencyHistogramMinNs

/-- `kLatencyBucketBounds[i]`. -/
def bucketBound (i : ℕ) : UInt64 := kLatencyBucketBounds.getD i 0

/-- latency_histogram.hpp:62-67. -/
@[ext] structure LatencyHistogram where
  buckets : Fin kLatencyHistogramBuckets → UInt64
  overflow : UInt64
  count : UInt64
  maxNs : UInt64
deriving DecidableEq

namespace LatencyHistogram

/-- `latency_histogram_reset` (latency_histogram.hpp:69-77). -/
def reset : LatencyHistogram := { buckets := fun _ => 0, overflow := 0, count := 0, maxNs := 0 }

/-- `latency_bucket_index` (latency_histogram.hpp:84-91). -/
def bucketIndex (latencyNs : UInt64) : ℕ :=
  ((List.range kLatencyHistogramBuckets).find? fun i => latencyNs < bucketBound (i + 1)).getD
    kLatencyHistogramBuckets

/-- The loop that raises `max_ns` (latency_histogram.hpp:103-108 and 125-130). -/
def raise (cur value : UInt64) : UInt64 := if cur < value then value else cur

/-- `latency_histogram_record` (latency_histogram.hpp:93-109). -/
def record (h : LatencyHistogram) (latencyNs : UInt64) : LatencyHistogram :=
  let idx := bucketIndex latencyNs
  let h :=
    if hidx : idx < kLatencyHistogramBuckets then
      { h with buckets := Function.update h.buckets ⟨idx, hidx⟩ (h.buckets ⟨idx, hidx⟩ + 1) }
    else { h with overflow := h.overflow + 1 }
  { h with count := h.count + 1, maxNs := raise h.maxNs latencyNs }

/-- `latency_histogram_merge` (latency_histogram.hpp:114-131). -/
def merge (into source : LatencyHistogram) : LatencyHistogram where
  buckets i := into.buckets i + source.buckets i
  overflow := into.overflow + source.overflow
  count := into.count + source.count
  maxNs := raise into.maxNs source.maxNs

/-- latency_histogram.hpp:133-139. -/
structure Percentiles where
  p50 : UInt64 := 0
  p99 : UInt64 := 0
  p999 : UInt64 := 0
  maxNs : UInt64 := 0
  count : UInt64 := 0
deriving Repr, DecidableEq

/-- The running total and the three latches of the scan (latency_histogram.hpp:159-160); a latch is
`none` while its flag is down. -/
structure Scan where
  running : UInt64 := 0
  p50 : Option UInt64 := none
  p99 : Option UInt64 := none
  p999 : Option UInt64 := none
deriving Repr, DecidableEq

/-- One latch (latency_histogram.hpp:164-167, 168-171 and 172-175). -/
def latch (running target bound : UInt64) (latched : Option UInt64) : Option UInt64 :=
  if latched = none ∧ target ≤ running then some bound else latched

/-- The scan of one bucket (latency_histogram.hpp:161-176). -/
def scanBucket (h : LatencyHistogram) (p50Target p99Target p999Target : UInt64) (s : Scan)
    (i : Fin kLatencyHistogramBuckets) : Scan :=
  let running := s.running + h.buckets i
  let bound := bucketBound (i + 1)
  { running
    p50 := latch running p50Target bound s.p50
    p99 := latch running p99Target bound s.p99
    p999 := latch running p999Target bound s.p999 }

/-- `latency_histogram_percentiles` (latency_histogram.hpp:145-189). -/
def percentiles (h : LatencyHistogram) : Percentiles :=
  if h.count = 0 then { maxNs := h.maxNs, count := h.count }
  else
    let s := (List.finRange kLatencyHistogramBuckets).foldl
      (h.scanBucket ((h.count * 50 + 99) / 100) ((h.count * 99 + 99) / 100)
        ((h.count * 999 + 999) / 1000)) {}
    { p50 := s.p50.getD h.maxNs
      p99 := s.p99.getD h.maxNs
      p999 := s.p999.getD h.maxNs
      maxNs := h.maxNs
      count := h.count }

/-! ## Samples split over histograms -/

/-- How samples are recorded and merged: into histograms that were reset, in any order. -/
inductive Plan where
  | reset
  | record (p : Plan) (latencyNs : UInt64)
  | merge (into source : Plan)
deriving Repr, DecidableEq

/-- The histogram of a plan. -/
def Plan.run : Plan → LatencyHistogram
  | .reset => LatencyHistogram.reset
  | .record p latencyNs => p.run.record latencyNs
  | .merge into source => into.run.merge source.run

/-- The samples of a plan. -/
def Plan.samples : Plan → Multiset ℕ
  | .reset => 0
  | .record p latencyNs => latencyNs.toNat ::ₘ p.samples
  | .merge into source => into.samples + source.samples

end LatencyHistogram

end PulseForge
