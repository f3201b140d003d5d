import SeaweedFS.Storage.Volume

/-!
# `weed/storage/volume_checking.go`: the end of the two files

When a volume is loaded, `CheckVolumeDataIntegrity` looks at the last entries of its index file: an entry
must name the record that ends the `.dat` file.
-/

namespace Storage

open Lib Util

/-- The errors of the checks. -/
inductive CheckError
  /-- `io.EOF`. -/
  | eof
  /-- `ErrorSizeMismatch`. -/
  | sizeMismatch
  /-- "index file's size is %d bytes, maybe corrupted". -/
  | indexFileSize (size : Nat)
  /-- "offset %d for index file is invalid". -/
  | indexOffset (offset : Int)
  /-- "index size %d differs from healthy size %d". -/
  | unhealthy (indexSize healthyIndexSize : Nat)
  /-- "read %s at %d" or "read data [%d,%d) : %v". -/
  | read (err : NeedleError)
  /-- "read data [%d,%d) : %v", before the start of the file. -/
  | negativeOffset (offset : Int)
  /-- "data file %s actual %d bytes expected %d bytes". -/
  | dataFileSize (actual : Nat) (expected : Int)
  /-- "index key %v does not match needle's Id %v". -/
  | wrongId (key id : NeedleId)
deriving DecidableEq

/-- `verifyIndexFileIntegrity`. -/
def verifyIndexFileIntegrity (indexFile : File) : Except CheckError Nat :=
  let indexSize := indexFile.length
  if indexSize % needleMapEntrySize ≠ 0 then .error (.indexFileSize indexSize) else .ok indexSize

/-- `readIndexEntryAtOffset`. -/
def readIndexEntryAtOffset (indexFile : File) (offset : Int) : Except CheckError (List UInt8) :=
  if offset < 0 then .error (.indexOffset offset)
  else
    let (bytes, eof) := indexFile.readAt needleMapEntrySize offset.toNat
    if eof then .error .eof else .ok bytes

/-- The part of `verifyNeedleIntegrity` that reads the needle. -/
def verifyNeedleData (datFile : File) (v : Version) (offset : Nat) (key : NeedleId) (size : Size)
    (n : Needle) : Except CheckError UInt64 :=
  match n.readData datFile offset size v with
  | .error (_, err) => .error (.read err)
  | .ok n => if n.id ≠ key then .error (.wrongId key n.id) else .ok n.appendAtNs

/-- `verifyNeedleIntegrity`: the time of the append. -/
def verifyNeedleIntegrity (datFile : File) (v : Version) (offset : Nat) (key : NeedleId)
    (size : Size) : Except CheckError UInt64 :=
  match readNeedleHeader datFile v offset with
  | .error .eof => .error .eof
  | .error err => .error (.read err)
  | .ok (n, _) =>
    if n.size ≠ size then .error .sizeMismatch
    else if v = .v3 then
      let (bytes, eof) := datFile.readAt timestampSize
        (offset + needleHeaderSize + size.toInt.toNat + needleChecksumSize)
      if eof then .error .eof
      else
        let n := { n with appendAtNs := bytesToUint64 bytes }
        let fileTailOffset := offset + getActualSize size v
        let fileSize := datFile.length
        if fileSize = fileTailOffset then .ok n.appendAtNs
        else if fileSize > fileTailOffset then .error (.dataFileSize fileSize fileTailOffset)
        else verifyNeedleData datFile v offset key size n
    else verifyNeedleData datFile v offset key size n

/-- `verifyDeletedNeedleIntegrity`: the file ends with a record without data. -/
def verifyDeletedNeedleIntegrity (datFile : File) (v : Version) (key : NeedleId) :
    Except CheckError UInt64 :=
  let n : Needle := {}
  let offset : Int := datFile.length - n.diskSize v
  if offset < 0 then .error (.negativeOffset offset)
  else verifyNeedleData datFile v offset.toNat key 0 n

/-- The part of `doCheckAndFixVolumeData` that checks an entry. -/
def checkEntry (datFile : File) (v : Version) (e : NeedleId × Offset × Size) :
    Except CheckError UInt64 :=
  let (key, offset, size) := e
  if offset.isZero then .ok 0
  else if size < 0 then verifyDeletedNeedleIntegrity datFile v key
  else
    match verifyNeedleIntegrity datFile v offset.toActualOffset key size with
    | .error .sizeMismatch =>
      verifyNeedleIntegrity datFile v (offset.toActualOffset + maxPossibleVolumeSize) key size
    | result => result

/-- `doCheckAndFixVolumeData`. -/
def doCheckAndFixVolumeData (datFile : File) (v : Version) (indexFile : File) (indexOffset : Nat) :
    Except CheckError UInt64 := do
  let lastIdxEntry ← readIndexEntryAtOffset indexFile indexOffset
  checkEntry datFile v (idxFileEntry lastIdxEntry)

/-- The loop of `CheckVolumeDataIntegrity`, with `rounds` left: it ends with the first entry that is
checked, or found wrong for another reason than its end or its size. -/
def checkLastEntries (datFile : File) (v : Version) (indexFile : File) :
    Nat → Nat → Nat → Except CheckError UInt64 → Nat × Except CheckError UInt64
  | 0, _, healthyIndexSize, last => (healthyIndexSize, last)
  | rounds + 1, i, healthyIndexSize, last =>
    let indexSize := indexFile.length
    if indexSize ≥ i * needleMapEntrySize then
      let indexOffset := indexSize - i * needleMapEntrySize
      match doCheckAndFixVolumeData datFile v indexFile indexOffset with
      | .error .eof => checkLastEntries datFile v indexFile rounds (i + 1) indexOffset (.error .eof)
      | .error .sizeMismatch =>
        checkLastEntries datFile v indexFile rounds (i + 1) healthyIndexSize (.error .sizeMismatch)
      | result => (healthyIndexSize, result)
    else (healthyIndexSize, last)

/-- `CheckVolumeDataIntegrity`: the time of the last append. -/
def checkVolumeDataIntegrity (datFile : File) (v : Version) (indexFile : File) :
    Except CheckError UInt64 := do
  let indexSize ← verifyIndexFileIntegrity indexFile
  if indexSize = 0 then return 0
  else
    let (healthyIndexSize, last) := checkLastEntries datFile v indexFile 10 1 indexSize (.ok 0)
    if healthyIndexSize < indexSize then throw (.unhealthy indexSize healthyIndexSize) else last

end Storage
