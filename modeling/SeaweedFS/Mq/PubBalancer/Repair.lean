import SeaweedFS.Lib.SortFunc

/-!
# `weed/mq/pub_balancer/repair.go`: missing partitions

One watermark is moved through the partitions in the order of their starts, and the gaps are filled in steps of
the average size. The sizes are numbers: no sum of them overflows an `int32`.
-/

namespace Mq.PubBalancer

open Lib

/-- `topic.Partition`. -/
structure Partition where
  rangeStart : Int
  rangeStop : Int
  ringSize : Int
  unixTimeNs : Int := 0
deriving DecidableEq

/-- The loops of `findMissingPartitions`: what is missing from the watermark on, before the partitions that are
left. -/
def missingLoop (averagePartitionSize ringSize : Int) : Nat → List Partition → Int → Option (List Partition)
  | 0, _, _ => none
  | fuel + 1, p :: ps, coveredWatermark =>
    if p.rangeStart > coveredWatermark then
      let upperBound := min (coveredWatermark + averagePartitionSize) p.rangeStart
      (missingLoop averagePartitionSize ringSize fuel (if upperBound = p.rangeStop then ps else p :: ps)
        upperBound).map (⟨coveredWatermark, upperBound, ringSize, 0⟩ :: ·)
    else missingLoop averagePartitionSize ringSize fuel ps p.rangeStop
  | fuel + 1, [], coveredWatermark =>
    if coveredWatermark < ringSize then
      let upperBound := min (coveredWatermark + averagePartitionSize) ringSize
      (missingLoop averagePartitionSize ringSize fuel [] upperBound).map
        (⟨coveredWatermark, upperBound, ringSize, 0⟩ :: ·)
    else some []

/-- The partitions by their starts; the order of equal ones is the sort's. -/
def byStart (S : SortFunc Partition) (partitions : List Partition) : List Partition :=
  S.sort (fun a b => a.rangeStart - b.rangeStart) partitions

/-- `findMissingPartitions`. -/
def findMissingPartitions (S : SortFunc Partition) (fuel : Nat) (partitions : List Partition) (ringSize : Int) :
    Option (List Partition) :=
  let partitions := byStart S partitions
  let covered := (partitions.map fun p => p.rangeStop - p.rangeStart).sum
  missingLoop (covered.tdiv partitions.length) ringSize fuel partitions 0

end Mq.PubBalancer
