import SeaweedFS.Lib.Search
import SeaweedFS.Storage.ErasureCoding.EcVolume

/-!
# `weed/storage/erasure_coding/ec_shards_info.go`: the shards of a volume

`ShardsInfo` has a bitmap of the shard ids and a slice of their sizes, in the order of the ids; a size is
found by binary search.
-/

namespace ErasureCoding

open Lib

/-- `ShardBits`. -/
abbrev ShardBits := UInt32

namespace ShardBits

/-- `Has`. -/
def has (sb : ShardBits) (id : ShardId) : Bool :=
  decide (id.toNat < maxShardCount) && sb &&& (1 <<< id.toUInt32) != 0

/-- `Set`. -/
def set (sb : ShardBits) (id : ShardId) : ShardBits :=
  if id.toNat ≥ maxShardCount then sb else sb ||| (1 <<< id.toUInt32)

/-- `Clear`. -/
def clear (sb : ShardBits) (id : ShardId) : ShardBits :=
  if id.toNat ≥ maxShardCount then sb else sb &&& ~~~(1 <<< id.toUInt32)

end ShardBits

/-- `ShardInfo`. -/
structure ShardInfo where
  id : ShardId
  size : Int
deriving DecidableEq, Repr

/-- `ShardsInfo`. -/
structure ShardsInfo where
  shards : List ShardInfo
  shardBits : ShardBits
deriving DecidableEq, Repr

/-- `ShardsInfoFromVolume`. -/
def shardsInfoFromVolume (ev : EcVolume) : ShardsInfo where
  shards := ev.shards.map fun s => ⟨s.shardId, s.ecdFileSize⟩
  shardBits := ev.shards.foldl (fun sb s => ShardBits.set sb s.shardId) 0

namespace ShardsInfo

/-- `findIndex`; the index is below the length of the slice. -/
def findIndex (si : ShardsInfo) (id : ShardId) : Option Nat :=
  let idx := search si.shards.length fun i => si.shards[i]?.any (·.id ≥ id)
  if idx < si.shards.length ∧ si.shards[idx]?.any (·.id == id) then some idx else none

/-- `Has`. -/
def has (si : ShardsInfo) (id : ShardId) : Bool := si.shardBits.has id

/-- `Size`. -/
def size (si : ShardsInfo) (id : ShardId) : Int :=
  if id.toNat ≥ maxShardCount then 0
  else if !si.shardBits.has id then 0
  else
    match si.findIndex id with
    | some idx => (si.shards[idx]?.map (·.size)).getD 0
    | none => 0

/-- `Set`. -/
def set (si : ShardsInfo) (shard : ShardInfo) : ShardsInfo :=
  if shard.id.toNat ≥ maxShardCount then si
  else if si.shardBits.has shard.id then
    match si.findIndex shard.id with
    | some idx => { si with shards := si.shards.set idx shard }
    | none => si
  else
    let idx := search si.shards.length fun i => si.shards[i]?.any (·.id > shard.id)
    { shards := si.shards.take idx ++ shard :: si.shards.drop idx,
      shardBits := si.shardBits.set shard.id }

/-- `Delete`. -/
def delete (si : ShardsInfo) (id : ShardId) : ShardsInfo :=
  if id.toNat ≥ maxShardCount then si
  else if !si.shardBits.has id then si
  else
    let si := { si with shardBits := si.shardBits.clear id }
    match si.findIndex id with
    | some idx => { si with shards := si.shards.eraseIdx idx }
    | none => si

/-- `Add`. -/
def add (si other : ShardsInfo) : ShardsInfo := other.shards.foldl set si

/-- `Subtract`. -/
def subtract (si other : ShardsInfo) : ShardsInfo := other.shards.foldl (fun si s => si.delete s.id) si

/-- `Plus`, on a copy. -/
def plus (si other : ShardsInfo) : ShardsInfo := si.add other

/-- `Minus`, on a copy. -/
def minus (si other : ShardsInfo) : ShardsInfo := si.subtract other

/-- `Bitmap`. -/
def bitmap (si : ShardsInfo) : UInt32 := si.shardBits

/-- `SizesInt64`. -/
def sizesInt64 (si : ShardsInfo) : List Int := si.shards.map (·.size)

end ShardsInfo

/-- `NewShardsInfo`. -/
def newShardsInfo : ShardsInfo := ⟨[], 0⟩

/-- What a `VolumeEcShardInformationMessage` says about the shards. -/
structure VolumeEcShardInformationMessage where
  ecIndexBits : UInt32
  shardSizes : List Int

/-- The loop over the bits from that of `id` on, and over the sizes that are left. -/
def shardsFromBits : Nat → UInt32 → ShardId → List Int → List ShardInfo
  | 0, _, _, _ => []
  | fuel + 1, bitmap, id, sizes =>
    if bitmap = 0 then []
    else if bitmap &&& 1 ≠ 0 then
      ⟨id, sizes.headD 0⟩ :: shardsFromBits fuel (bitmap >>> 1) (id + 1) sizes.tail
    else shardsFromBits fuel (bitmap >>> 1) (id + 1) sizes

/-- `ShardsInfoFromVolumeEcShardInformationMessage`; no bit is left after 32 rounds. -/
def shardsInfoFromVolumeEcShardInformationMessage :
    Option VolumeEcShardInformationMessage → ShardsInfo
  | none => newShardsInfo
  | some vi => ⟨shardsFromBits 32 vi.ecIndexBits 0 vi.shardSizes, vi.ecIndexBits⟩

/-- A `ShardsInfo` that the calls make. -/
inductive InfoExpr
  | new
  | set (e : InfoExpr) (shard : ShardInfo)
  | delete (e : InfoExpr) (id : ShardId)
  | add (e other : InfoExpr)
  | subtract (e other : InfoExpr)
  | plus (e other : InfoExpr)
  | minus (e other : InfoExpr)

/-- The calls in turn. -/
def InfoExpr.eval : InfoExpr → ShardsInfo
  | .new => newShardsInfo
  | .set e shard => e.eval.set shard
  | .delete e id => e.eval.delete id
  | .add e other => e.eval.add other.eval
  | .subtract e other => e.eval.subtract other.eval
  | .plus e other => e.eval.plus other.eval
  | .minus e other => e.eval.minus other.eval

/-- What is done with a `ShardsInfo`. -/
inductive InfoOp
  | set (shard : ShardInfo)
  | delete (id : ShardId)
deriving DecidableEq, Repr

/-- One call. -/
def InfoOp.apply (si : ShardsInfo) : InfoOp → ShardsInfo
  | .set shard => si.set shard
  | .delete id => si.delete id

/-- What is done with the mounted shards of a volume. -/
inductive ShardOp
  | add (shard : EcVolumeShard)
  | delete (shardId : ShardId)
deriving DecidableEq, Repr

/-- One call; `sort` is what the sort does with a list that does not look sorted. -/
def ShardOp.apply (sort : ShardSort) (ev : EcVolume) : ShardOp → EcVolume
  | .add shard => (ev.addEcVolumeShard sort shard).1
  | .delete shardId => (ev.deleteEcVolumeShard shardId).1

/-- The calls in turn. -/
def ShardOp.run (sort : ShardSort) (ops : List ShardOp) (ev : EcVolume) : EcVolume :=
  ops.foldl (ShardOp.apply sort) ev

end ErasureCoding
