import SeaweedFS.Storage.ErasureCoding.Decoder
import SeaweedFS.Storage.ErasureCoding.Index
import SeaweedFS.Storage.Volume

/-!
# `VolumeEcShardsToVolume`: a volume made of shards

The size of the `.dat` file is found from the live entries of the `.ecx` file (`FindDatFileSize` of
`ec_decoder.go`), the file is written from the shards, and the `.idx` file from the `.ecx` and `.ecj`
files (`weed/server/volume_grpc_erasure_coding.go`). All shards are there.
-/

namespace ErasureCoding

open Lib Storage

section
variable {σ : Type} (fn : σ → NeedleId → Offset → Size → σ)

/-- The loop of `iterateEcxFile`; an incomplete entry ends it. -/
def iterateEcxRows : Nat → File → σ → σ
  | 0, _, s => s
  | rows + 1, bytes, s =>
    let (key, offset, size) := idxFileEntry (bytes.take needleMapEntrySize)
    iterateEcxRows rows (bytes.drop needleMapEntrySize) (fn s key offset size)

/-- `iterateEcxFile`, for a function that changes a state. -/
def iterateEcxFile (ecxFile : File) (s : σ) : σ :=
  iterateEcxRows fn (ecxFile.length / needleMapEntrySize) ecxFile s

end

/-- `HasLiveNeedles`. -/
def hasLiveNeedles (ecxFile : File) : Bool :=
  iterateEcxFile (fun hasLive _ _ size => hasLive || !size.isDeleted) ecxFile false

/-- `FindDatFileSize`, of the first shard and the `.ecx` file. -/
def findDatFileSize (shard ecxFile : File) : Except EcError Int :=
  match readSuperBlock shard with
  | none => .error .readSuperBlock
  | some superBlock =>
    .ok (iterateEcxFile (fun datSize _ offset size =>
      if size.isDeleted then datSize
      else
        let entryStopOffset := offset.toActualOffset + getActualSize size superBlock.version
        if datSize < entryStopOffset then entryStopOffset else datSize) ecxFile superBlockSize)

/-- `VolumeEcShardsToVolume`: the `.dat` and the `.idx` file. -/
def volumeEcShardsToVolume (ctx : ECContext) (shards : List File) (ev : EcIndex) :
    Except EcError (File × File) := do
  if !hasLiveNeedles ev.ecxFile then .error .noLiveEntries
  else
    let datFileSize ← findDatFileSize (shards.getD 0 []) ev.ecxFile
    let datFile ← writeDatFile datFileSize.toNat (shards.take ctx.dataShards)
    return (datFile, ev.writeIdxFileFromEcIndex)

end ErasureCoding
