import SeaweedFS.Storage.LevelDb

/-!
# `weed/storage/needle_map.go`: the needle map of a writable volume

The interface `NeedleMapper` with its two implementations that can be written.
-/

namespace Storage

open Lib

/-- `NeedleMapKind`; the three sizes of leveldb differ in their buffers only. -/
inductive NeedleMapKind
  | inMemory | levelDb
deriving DecidableEq, Repr

/-- `NeedleMapper`. -/
inductive NeedleMapper
  | inMemory (nm : NeedleMap)
  | levelDb (m : LevelDbNeedleMap)

namespace NeedleMapper

/-- An empty map with an empty index file. -/
def new : NeedleMapKind → NeedleMapper
  | .inMemory => inMemory (newCompactNeedleMap [])
  | .levelDb => levelDb newLevelDbNeedleMap

def kind : NeedleMapper → NeedleMapKind
  | inMemory _ => .inMemory
  | levelDb _ => .levelDb

/-- `Put`. -/
def put (key : NeedleId) (offset : Offset) (size : Size) : NeedleMapper → Except Panic NeedleMapper
  | inMemory nm => return inMemory (← nm.put key offset size)
  | levelDb m => return levelDb (m.put key offset size)

/-- `Get`. -/
def get (key : NeedleId) : NeedleMapper → Except Panic (Option NeedleValue)
  | inMemory nm => nm.get key
  | levelDb m => return m.get key

/-- `Delete`. -/
def delete (key : NeedleId) (offset : Offset) : NeedleMapper → Except Panic NeedleMapper
  | inMemory nm => return inMemory (← nm.delete key offset)
  | levelDb m => return levelDb (m.delete key offset)

/-- The index file. -/
def indexFile : NeedleMapper → File
  | inMemory nm => nm.indexFile
  | levelDb m => m.indexFile

def metric : NeedleMapper → MapMetric
  | inMemory nm => nm.metric
  | levelDb m => m.metric

/-- `ContentSize`. -/
def contentSize (nm : NeedleMapper) : UInt64 := nm.metric.fileByteCounter

/-- `DeletedSize`. -/
def deletedSize (nm : NeedleMapper) : UInt64 := nm.metric.deletionByteCounter

/-- `IndexFileSize`. -/
def indexFileSize (nm : NeedleMapper) : Nat := nm.indexFile.length

/-- The map that a compaction fills (`v.tmpNm`), before it has an index file. Nothing is left of an
earlier `.cpldb`. -/
def newTmpNm : NeedleMapKind → NeedleMapper
  | .inMemory => inMemory { m := newCompactMap, indexFile := [], indexFileOffset := 0 }
  | .levelDb => levelDb { db := fun _ => none, indexFile := [], indexFileOffset := 0, recordCount := 0 }

/-- `DoOffsetLoading`. -/
def doOffsetLoading (nm : NeedleMapper) (indexFile : File) (startFrom : Nat) :
    Except Panic NeedleMapper :=
  match nm with
  | inMemory nm => return inMemory (← nm.doOffsetLoading indexFile startFrom)
  | levelDb m => return levelDb (← m.doOffsetLoading indexFile startFrom)

/-- `UpdateNeedleMap`. -/
def updateNeedleMap (indexFile : File) : NeedleMapper → NeedleMapper
  | inMemory nm => inMemory (nm.updateNeedleMap indexFile)
  | levelDb m => levelDb (m.updateNeedleMap indexFile)

end NeedleMapper

end Storage
