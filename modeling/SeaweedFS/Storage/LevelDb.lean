import SeaweedFS.Storage.NeedleMap

/-!
# `weed/storage/needle_map_leveldb.go`: the needle map in leveldb

The database is a map from byte strings to byte strings. It holds the offset and the size of every key,
and a watermark: up to which entry of the index file it is complete. Operations of the database
succeed, and it stays open (`ldbTimeout` is 0).
-/

namespace Storage

open Lib Util

/-- `leveldb.DB`. -/
abbrev LevelDb := List UInt8 → Option (List UInt8)

/-- `db.Put`. -/
def LevelDb.put (db : LevelDb) (key value : List UInt8) : LevelDb := Function.update db key (some value)

/-- `db.Delete`. -/
def LevelDb.delete (db : LevelDb) (key : List UInt8) : LevelDb := Function.update db key none

/-- `watermarkBatchSize`. -/
def watermarkBatchSize : UInt64 := 10000

/-- `watermarkKey`: the bytes of `idx_entry_watermark`. -/
def watermarkKey : List UInt8 :=
  [105, 100, 120, 95, 101, 110, 116, 114, 121, 95, 119, 97, 116, 101, 114, 109, 97, 114, 107]

/-- `setWatermark`. -/
def setWatermark (db : LevelDb) (watermark : UInt64) : LevelDb :=
  db.put watermarkKey (uint64toBytes watermark)

/-- `levelDbWrite`. -/
def levelDbWrite (db : LevelDb) (key : NeedleId) (offset : Offset) (size : Size)
    (updateWatermark : Bool) (watermark : UInt64) : LevelDb :=
  let bytes := toBytes key offset size
  let db := db.put (bytes.take needleIdSize) ((bytes.drop needleIdSize).take (offsetSize + sizeSize))
  if updateWatermark then setWatermark db watermark else db

/-- `levelDbDelete`. -/
def levelDbDelete (db : LevelDb) (key : NeedleId) : LevelDb := db.delete (needleIdToBytes key)

/-- `LevelDbNeedleMap`. -/
structure LevelDbNeedleMap where
  db : LevelDb
  metric : MapMetric := {}
  indexFile : File
  indexFileOffset : Nat
  recordCount : UInt64

/-- `NewLevelDbNeedleMap` on an empty index file. -/
def newLevelDbNeedleMap : LevelDbNeedleMap where
  db := setWatermark (fun _ => none) 0
  indexFile := []
  indexFileOffset := 0
  recordCount := 0

namespace LevelDbNeedleMap

/-- `getFromDb`. -/
def getFromDb (m : LevelDbNeedleMap) (key : NeedleId) : Option NeedleValue :=
  match m.db (needleIdToBytes key) with
  | none => none
  | some data =>
    if data.length ≠ offsetSize + sizeSize then none
    else some
      { key := key
        offset := bytesToOffset (data.take offsetSize)
        size := bytesToSize ((data.drop offsetSize).take sizeSize) }

/-- `Get`. -/
def get (m : LevelDbNeedleMap) (key : NeedleId) : Option NeedleValue := m.getFromDb key

/-- `appendToIndexFile`. -/
def appendToIndexFile (m : LevelDbNeedleMap) (key : NeedleId) (offset : Offset) (size : Size) :
    LevelDbNeedleMap :=
  let bytes := toBytes key offset size
  { m with
    indexFile := File.writeAt m.indexFile bytes m.indexFileOffset
    indexFileOffset := m.indexFileOffset + bytes.length }

/-- The watermark of a record count. -/
def watermarkOf (recordCount : UInt64) : UInt64 :=
  if recordCount % watermarkBatchSize ≠ 0 then 0
  else recordCount / watermarkBatchSize * watermarkBatchSize

/-- `Put`. -/
def put (m : LevelDbNeedleMap) (key : NeedleId) (offset : Offset) (size : Size) : LevelDbNeedleMap :=
  let oldSize := match m.getFromDb key with
    | some oldNeedle => oldNeedle.size
    | none => 0
  let m := { m with metric := m.metric.logPut key oldSize size }
  let m := m.appendToIndexFile key offset size
  let m := { m with recordCount := m.recordCount + 1 }
  let watermark := watermarkOf m.recordCount
  { m with db := levelDbWrite m.db key offset size (watermark == 0) watermark }

/-- `Delete`: the size of a live entry is negated. -/
def delete (m : LevelDbNeedleMap) (key : NeedleId) (offset : Offset) : LevelDbNeedleMap :=
  match m.getFromDb key with
  | none => m
  | some oldNeedle =>
    if oldNeedle.size.isDeleted then m
    else
      let m := { m with metric := m.metric.logDelete oldNeedle.size }
      let m := m.appendToIndexFile key offset tombstoneFileSize
      let m := { m with recordCount := m.recordCount + 1 }
      let watermark := watermarkOf m.recordCount
      { m with
        db := levelDbWrite m.db key oldNeedle.offset (-oldNeedle.size) (watermark == 0) watermark }

/-- An entry of `DoOffsetLoading` that is written as it is. -/
def loadNew (m : LevelDbNeedleMap) (key : NeedleId) (offset : Offset) (size : Size) :
    LevelDbNeedleMap :=
  { m with
    metric := { m.metric.countFile with
      fileByteCounter := m.metric.fileByteCounter + size.uint64 }
    db := levelDbWrite m.db key offset size false 0 }

/-- What `DoOffsetLoading` does with an entry; `fresh` says that the file is loaded from its start. -/
def offsetLoadEntry (fresh : Bool) (m : LevelDbNeedleMap) (key : NeedleId) (offset : Offset)
    (size : Size) : LevelDbNeedleMap :=
  if fresh then m.loadNew key offset size
  else
    match m.db (needleIdToBytes key) with
    | none => m.loadNew key offset size
    | some data =>
      let oldSize := bytesToSize ((data.drop offsetSize).take sizeSize)
      let oldOffset := bytesToOffset (data.take offsetSize)
      if offset.isZero = false ∧ size.isDeleted = false then
        { m with
          metric := m.metric.loadSet size oldOffset oldSize
          db := levelDbWrite m.db key offset size false 0 }
      else
        { m with
          metric := m.metric.countFile.loadDelete oldSize
          db := levelDbDelete m.db key }

/-- `DoOffsetLoading`, with the database in `.cpldb`. -/
def doOffsetLoading (m : LevelDbNeedleMap) (indexFile : File) (startFrom : Nat) :
    Except Panic LevelDbNeedleMap :=
  walkIndexFile (fun m key offset size => .ok (offsetLoadEntry (startFrom == 0) m key offset size))
    indexFile startFrom m

/-- `UpdateNeedleMap`: the map gets its index file. -/
def updateNeedleMap (m : LevelDbNeedleMap) (indexFile : File) : LevelDbNeedleMap :=
  let recordCount := UInt64.ofNat (indexFile.length / needleMapEntrySize)
  { m with
    indexFile := indexFile
    indexFileOffset := indexFile.length
    recordCount := recordCount
    db := setWatermark m.db (recordCount / watermarkBatchSize * watermarkBatchSize) }

end LevelDbNeedleMap

end Storage
