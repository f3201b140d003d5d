import SeaweedFS.Storage.MemDb

/-!
# The `.ecx` and `.ecj` files: `ec_encoder.go`, `ec_volume.go`, `ec_volume_delete.go`, `ec_decoder.go`

The `.ecx` file has the entries of the needle map in ascending order of their keys. A needle is deleted by a
tombstone in the place of its size; the `.ecj` file is a journal of the deleted keys. `RebuildEcxFile` marks
these, and `WriteIdxFileFromEcIndex` makes an index file of both. File operations succeed.
-/

namespace ErasureCoding

open Lib Util Storage

/-- `readNeedleMap`. -/
def readNeedleMap {ε : Type} (idxFile : File) : Except ε MemDb :=
  walkIndexFile (fun cm key offset size =>
    if !offset.isZero && !size.isDeleted then .ok (MemDb.set cm key offset size)
    else .ok (MemDb.delete cm key)) idxFile 0 MemDb.new

/-- `WriteSortedFileFromIdx`: the `.ecx` file. -/
def writeSortedFileFromIdx {ε : Type} (idxFile : File) : Except ε File := do
  let nm ← readNeedleMap idxFile
  nm.ascendingVisit (fun ecxFile value =>
    .ok (ecxFile ++ toBytes value.key value.offset value.size)) []

/-- The errors of a search. -/
inductive EcxError
  /-- `NotFoundError`. -/
  | notFound
  /-- "ecx file %d read at %d: %v". -/
  | readAt (ecxFileSize offset : Nat)
deriving DecidableEq, Repr

/-- The loop of `SearchNeedleFromSortedIndex`: the entry, and where it is. -/
def searchNeedleLoop (ecxFile : File) (ecxFileSize : Nat) (needleId : NeedleId) :
    Nat → Nat → Nat → Except EcxError (Offset × Size × Nat)
  | 0, _, _ => .error .notFound
  | fuel + 1, l, h =>
    if l < h then
      let m := (l + h) / 2
      let (buf, eof) := ecxFile.readAt needleMapEntrySize (m * needleMapEntrySize)
      if eof then .error (.readAt ecxFileSize (m * needleMapEntrySize))
      else
        let (key, offset, size) := idxFileEntry buf
        if key = needleId then .ok (offset, size, m * needleMapEntrySize)
        else if key < needleId then searchNeedleLoop ecxFile ecxFileSize needleId fuel (m + 1) h
        else searchNeedleLoop ecxFile ecxFileSize needleId fuel l m
    else .error .notFound

/-- `SearchNeedleFromSortedIndex`. The loop takes fewer rounds than there are entries. -/
def searchNeedleFromSortedIndex (ecxFile : File) (needleId : NeedleId) :
    Except EcxError (Offset × Size × Nat) :=
  searchNeedleLoop ecxFile ecxFile.length needleId (ecxFile.length / needleMapEntrySize) 0
    (ecxFile.length / needleMapEntrySize)

/-- `MarkNeedleDeleted`. -/
def markNeedleDeleted (file : File) (offset : Nat) : File :=
  file.writeAt (sizeToBytes tombstoneFileSize) (offset + needleIdSize + offsetSize)

/-- The index of a volume of shards: the `.ecx` file, and the `.ecj` file if there is one. -/
structure EcIndex where
  ecxFile : File
  ecjFile : Option File
deriving DecidableEq, Repr

/-- The keys of a journal; what is left of it at the end is no key. -/
def journalKeys : Nat → File → List NeedleId
  | 0, _ => []
  | n + 1, bytes =>
    bytesToNeedleId (bytes.take needleIdSize) :: journalKeys n (bytes.drop needleIdSize)

/-- The keys that `iterateEcjFile` visits. -/
def keysOf (ecjFile : File) : List NeedleId := journalKeys (ecjFile.length / needleIdSize) ecjFile

namespace EcIndex

/-- `FindNeedleFromEcx`. -/
def findNeedleFromEcx (ev : EcIndex) (needleId : NeedleId) : Except EcxError (Offset × Size) :=
  (searchNeedleFromSortedIndex ev.ecxFile needleId).map fun found => (found.1, found.2.1)

/-- `NewEcVolume` opens the journal, and makes one if there is none. -/
def mount (ev : EcIndex) : EcIndex := { ev with ecjFile := some (ev.ecjFile.getD []) }

/-- `DeleteNeedleFromEcx`. A journal that was removed since the volume was mounted gets its key where
nobody reads it. -/
def deleteNeedleFromEcx (ev : EcIndex) (needleId : NeedleId) : Except EcxError EcIndex :=
  match searchNeedleFromSortedIndex ev.ecxFile needleId with
  | .error .notFound => .ok ev
  | .error err => .error err
  | .ok (_, _, offset) =>
    .ok { ecxFile := markNeedleDeleted ev.ecxFile offset,
          ecjFile := ev.ecjFile.map (· ++ needleIdToBytes needleId) }

/-- The loop of `RebuildEcxFile`. -/
def rebuildEcx (ecxFile : File) (keys : List NeedleId) : Except EcxError File :=
  keys.foldlM (fun ecxFile needleId =>
    match searchNeedleFromSortedIndex ecxFile needleId with
    | .error .notFound => .ok ecxFile
    | .error err => .error err
    | .ok (_, _, offset) => .ok (markNeedleDeleted ecxFile offset)) ecxFile

/-- `RebuildEcxFile`. -/
def rebuildEcxFile (ev : EcIndex) : Except EcxError EcIndex :=
  match ev.ecjFile with
  | none => .ok ev
  | some ecjFile => do
    let ecxFile ← rebuildEcx ev.ecxFile (keysOf ecjFile)
    return { ecxFile, ecjFile := none }

/-- `WriteIdxFileFromEcIndex`. -/
def writeIdxFileFromEcIndex (ev : EcIndex) : File :=
  ev.ecxFile ++ (keysOf (ev.ecjFile.getD [])).flatMap fun key => toBytes key {} tombstoneFileSize

end EcIndex

/-- What is done with the index of a volume of shards. -/
inductive EcOp
  | mount
  | delete (needleId : NeedleId)
  | rebuild
deriving DecidableEq, Repr

/-- One operation. -/
def EcOp.apply (ev : EcIndex) : EcOp → Except EcxError EcIndex
  | .mount => .ok ev.mount
  | .delete needleId => ev.deleteNeedleFromEcx needleId
  | .rebuild => ev.rebuildEcxFile

/-- The operations in turn. -/
def EcOp.run (ops : List EcOp) (ev : EcIndex) : Except EcxError EcIndex := ops.foldlM EcOp.apply ev

end ErasureCoding
