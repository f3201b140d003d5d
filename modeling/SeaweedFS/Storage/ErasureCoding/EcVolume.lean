import SeaweedFS.Lib.PdqSort
import SeaweedFS.Storage.ErasureCoding.Index
import SeaweedFS.Storage.ErasureCoding.Locate
import SeaweedFS.Storage.Needle

/-!
# `weed/storage/erasure_coding/ec_volume.go`: a volume of mounted shards

`NewEcVolume` takes the shard counts and the size of the `.dat` file from the `.vif` file.
`AddEcVolumeShard` and `DeleteEcVolumeShard` keep the list of mounted shards, and
`LocateEcShardNeedleInterval` finds a needle in the shards. The `.ecx` and `.ecj` files are in
`Index`.
-/

namespace ErasureCoding

open Lib Storage

abbrev ShardId := UInt8
abbrev VolumeId := UInt32

/-- `EcVolumeShard`. -/
structure EcVolumeShard where
  volumeId : VolumeId
  shardId : ShardId
  ecdFileSize : Int
deriving DecidableEq, Repr

/-- What a `.vif` file says about the shards (`VolumeInfo`, `EcShardConfig`). -/
structure VolumeInfo where
  datFileSize : Int
  ecShardConfig : Option (UInt32 × UInt32)
deriving DecidableEq, Repr

/-- `EcVolume`. -/
structure EcVolume where
  shards : List EcVolumeShard
  datFileSize : Int
  ecContext : ECContext
deriving DecidableEq, Repr

/-- The context of `NewEcVolume`: that of the `.vif` file when it is valid. -/
def ecContextOf : Option (UInt32 × UInt32) → ECContext
  | some (dataShards, parityShards) =>
    let ds := dataShards.toNat
    let ps := parityShards.toNat
    if ds ≤ 0 ∨ ps ≤ 0 ∨ ds + ps > maxShardCount then newDefaultECContext
    else { dataShards := ds, parityShards := ps }
  | none => newDefaultECContext

/-- `NewEcVolume`, with the `.vif` file if there is one. -/
def newEcVolume : Option VolumeInfo → EcVolume
  | some volumeInfo =>
    { shards := [], datFileSize := volumeInfo.datFileSize,
      ecContext := ecContextOf volumeInfo.ecShardConfig }
  | none => { shards := [], datFileSize := 0, ecContext := newDefaultECContext }

/-- The comparison of `AddEcVolumeShard`: differences of unsigned numbers. -/
def compareShards (a b : EcVolumeShard) : Int :=
  if a.volumeId ≠ b.volumeId then ((a.volumeId - b.volumeId).toNat : Int)
  else ((a.shardId - b.shardId).toNat : Int)

/-- A sort of shards by a comparison. -/
abbrev ShardSort := (EcVolumeShard → EcVolumeShard → Int) → List EcVolumeShard → List EcVolumeShard

namespace EcVolume

/-- `AddEcVolumeShard`; `sort` is what the sort does with a list that does not look sorted. -/
def addEcVolumeShard (sort : ShardSort) (ev : EcVolume) (ecVolumeShard : EcVolumeShard) :
    EcVolume × Bool :=
  if ev.shards.any (·.shardId == ecVolumeShard.shardId) then (ev, false)
  else
    ({ ev with shards := pdqsort compareShards sort (ev.shards ++ [ecVolumeShard]) }, true)

/-- The position that the loop of `DeleteEcVolumeShard` ends with: that of the last match. -/
def foundPosition (shardId : ShardId) (shards : List EcVolumeShard) : Option Nat :=
  shards.zipIdx.foldl (fun found (s, i) => if s.shardId == shardId then some i else found) none

/-- `DeleteEcVolumeShard`. -/
def deleteEcVolumeShard (ev : EcVolume) (shardId : ShardId) : EcVolume × Option EcVolumeShard :=
  match foundPosition shardId ev.shards with
  | none => (ev, none)
  | some i => ({ ev with shards := ev.shards.eraseIdx i }, ev.shards[i]?)

/-- The size of a shard that `LocateEcShardNeedleInterval` goes by. -/
def shardSize (ev : EcVolume) : Except EcError Int :=
  match ev.shards with
  | [] => .error .indexOutOfRange
  | shard :: _ =>
    .ok (if ev.datFileSize > 0 then ev.datFileSize.tdiv ev.ecContext.dataShards
      else shard.ecdFileSize - 1)

/-- `LocateEcShardNeedleInterval`. -/
def locateEcShardNeedleInterval (ev : EcVolume) (version : Version) (offset : Int) (size : Size) :
    Except EcError (List Interval) := do
  let shardSize ← ev.shardSize
  match locateData erasureCodingLargeBlockSize erasureCodingSmallBlockSize shardSize offset
      (Int32.ofInt (getActualSize size version)).toInt with
  | none => .error .endless
  | some intervals => return intervals

/-- `LocateEcShardNeedle`; the first kind of error is "FindNeedleFromEcx: %w". -/
def locateEcShardNeedle (ev : EcVolume) (index : EcIndex) (needleId : NeedleId) (version : Version) :
    Except (EcxError ⊕ EcError) (Offset × Size × List Interval) := do
  let (offset, size) ← (index.findNeedleFromEcx needleId).mapError .inl
  let intervals ← (ev.locateEcShardNeedleInterval version offset.toActualOffset
    (Int32.ofInt (getActualSize size version))).mapError .inr
  return (offset, size, intervals)

end EcVolume

end ErasureCoding
