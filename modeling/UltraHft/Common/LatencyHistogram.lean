import Mathlib.Logic.Function.Basic
import UltraHft.Lib.Binary64

/-!
# The latency histogram

`latency_histogram.hpp`: counts in 64 power-of-two buckets, with the sum and the
extremes of what was recorded.
-/

namespace UltraHft.Common

open UltraHft.Lib

structure LatencyHistogram where
  buckets_ : Nat → UInt64
  total_ : UInt64
  sum_ns_ : UInt64
  min_ns_ : UInt64
  max_ns_ : UInt64

namespace LatencyHistogram

def kBuckets : Nat := 64

/-- `reset()`, which assigns every member. -/
def reset : LatencyHistogram where
  buckets_ := fun _ => 0
  total_ := 0
  sum_ns_ := 0
  min_ns_ := 18446744073709551615
  max_ns_ := 0

def new : LatencyHistogram := reset

/-- The position of the most significant set bit. -/
def bucketIndex (ns : UInt64) : Nat :=
  if ns = 0 then 0
  else
    let idx := 63 - ns.toBitVec.clz.toNat
    if idx < kBuckets then idx else kBuckets - 1

def recordNs (h : LatencyHistogram) (ns : UInt64) : LatencyHistogram where
  total_ := h.total_ + 1
  sum_ns_ := h.sum_ns_ + ns
  min_ns_ := if ns < h.min_ns_ then ns else h.min_ns_
  max_ns_ := if ns > h.max_ns_ then ns else h.max_ns_
  buckets_ := Function.update h.buckets_ (bucketIndex ns) (h.buckets_ (bucketIndex ns) + 1)

/-- The nanoseconds of a TSC delta, from a 128-bit product. -/
def cyclesToNs (cycles tsc_hz : UInt64) : UInt64 :=
  UInt64.ofNat (cycles.toNat * 1000000000 % 2 ^ 128 / tsc_hz.toNat)

def recordCycles (h : LatencyHistogram) (cycles tsc_hz : UInt64) : LatencyHistogram :=
  if tsc_hz = 0 then h else h.recordNs (cyclesToNs cycles tsc_hz)

/-- The loop of `percentile` over the buckets that are left. -/
def scan (h : LatencyHistogram) (target : UInt64) : List Nat → UInt64 → UInt64
  | [], _ => h.max_ns_
  | b :: bs, cumulative =>
      let cumulative := cumulative + h.buckets_ b
      if cumulative > target then
        if b = 0 then 1 else 1 <<< UInt64.ofNat b
      else scan h target bs cumulative

/-- `none` where the conversion of the target to an integer is not defined. -/
def percentile (h : LatencyHistogram) (pct : Binary64) : Option UInt64 :=
  if h.total_ = 0 then some 0
  else do
    let target ← (pct / 100.0 * (h.total_.toNat : Binary64)).toUInt64
    return scan h target (List.range kBuckets) 0

def minNs (h : LatencyHistogram) : UInt64 := if h.total_ > 0 then h.min_ns_ else 0

def maxNs (h : LatencyHistogram) : UInt64 := h.max_ns_

def meanNs (h : LatencyHistogram) : UInt64 := if h.total_ > 0 then h.sum_ns_ / h.total_ else 0

def total (h : LatencyHistogram) : UInt64 := h.total_

inductive Call where
  | recordNs (ns : UInt64)
  | recordCycles (cycles tsc_hz : UInt64)
  | reset

def exec (h : LatencyHistogram) : Call → LatencyHistogram
  | .recordNs ns => h.recordNs ns
  | .recordCycles cycles tsc_hz => h.recordCycles cycles tsc_hz
  | .reset => reset

def run (calls : List Call) : LatencyHistogram := calls.foldl exec new

end LatencyHistogram

end UltraHft.Common
