import SeaweedFS.Storage.Idx

/-!
# `weed/storage/needle_map_memory.go`: the needle map of a volume

`NeedleMap` keeps a `CompactMap` and logs every change in the index file, from which
`LoadCompactNeedleMap` builds it again. Writes to the index file succeed.
-/

namespace Storage

open Lib

/-- `mapMetric`. -/
structure MapMetric where
  deletionCounter : UInt32 := 0
  fileCounter : UInt32 := 0
  deletionByteCounter : UInt64 := 0
  fileByteCounter : UInt64 := 0
  maximumFileKey : UInt64 := 0

namespace MapMetric

/-- `MaybeSetMaxFileKey`. -/
def maybeSetMaxFileKey (mm : MapMetric) (key : NeedleId) : MapMetric :=
  if key > mm.maximumFileKey then { mm with maximumFileKey := key } else mm

/-- `LogFileCounter`. -/
def logFileCounter (mm : MapMetric) (newSize : Size) : MapMetric :=
  { mm with
    fileCounter := mm.fileCounter + 1
    fileByteCounter := mm.fileByteCounter + newSize.uint64 }

/-- `LogDeletionCounter`. -/
def logDeletionCounter (mm : MapMetric) (oldSize : Size) : MapMetric :=
  if oldSize > 0 then
    { mm with
      deletionCounter := mm.deletionCounter + 1
      deletionByteCounter := mm.deletionByteCounter + oldSize.uint64 }
  else mm

/-- `logDelete`. -/
def logDelete (mm : MapMetric) (deletedByteCount : Size) : MapMetric :=
  mm.logDeletionCounter deletedByteCount

/-- `logPut`. -/
def logPut (mm : MapMetric) (key : NeedleId) (oldSize newSize : Size) : MapMetric :=
  let mm := (mm.maybeSetMaxFileKey key).logFileCounter newSize
  if oldSize > 0 ∧ oldSize.isValid = true then mm.logDeletionCounter oldSize else mm

/-- What an entry that sets a key adds while loading. -/
def loadSet (mm : MapMetric) (size : Size) (oldOffset : Offset) (oldSize : Size) : MapMetric :=
  let mm :=
    { mm with
      fileCounter := mm.fileCounter + 1
      fileByteCounter := mm.fileByteCounter + size.uint64 }
  if oldOffset.isZero = false ∧ oldSize.isDeleted = false then
    { mm with
      deletionCounter := mm.deletionCounter + 1
      deletionByteCounter := mm.deletionByteCounter + oldSize.uint64 }
  else mm

/-- A file more, of whatever kind its entry is. -/
def countFile (mm : MapMetric) : MapMetric := { mm with fileCounter := mm.fileCounter + 1 }

/-- What an entry that deletes a key adds while loading. -/
def loadDelete (mm : MapMetric) (oldSize : Size) : MapMetric :=
  { mm with
    deletionCounter := mm.deletionCounter + 1
    deletionByteCounter := mm.deletionByteCounter + oldSize.uint64 }

end MapMetric

/-- `NeedleMap`. -/
structure NeedleMap where
  m : CompactMap
  metric : MapMetric := {}
  indexFile : File
  indexFileOffset : Nat

/-- `NewCompactNeedleMap`. -/
def newCompactNeedleMap (file : File) : NeedleMap where
  m := newCompactMap
  indexFile := file
  indexFileOffset := file.length

namespace NeedleMap

/-- `appendToIndexFile`. -/
def appendToIndexFile (nm : NeedleMap) (key : NeedleId) (offset : Offset) (size : Size) : NeedleMap :=
  let bytes := toBytes key offset size
  { nm with
    indexFile := File.writeAt nm.indexFile bytes nm.indexFileOffset
    indexFileOffset := nm.indexFileOffset + bytes.length }

/-- `Put`. -/
def put (nm : NeedleMap) (key : NeedleId) (offset : Offset) (size : Size) : Except Panic NeedleMap := do
  let (m, _, oldSize) ← nm.m.set key offset size
  let nm := { nm with m := m, metric := nm.metric.logPut key oldSize size }
  return nm.appendToIndexFile key offset size

/-- `Get`. -/
def get (nm : NeedleMap) (key : NeedleId) : Except Panic (Option NeedleValue) := nm.m.get key

/-- `Delete`. -/
def delete (nm : NeedleMap) (key : NeedleId) (offset : Offset) : Except Panic NeedleMap := do
  let (m, deletedBytes) ← nm.m.delete key
  let nm := { nm with m := m, metric := nm.metric.logDelete deletedBytes }
  return nm.appendToIndexFile key offset tombstoneFileSize

/-- What `doLoading` does with an entry. -/
def loadEntry (nm : NeedleMap) (key : NeedleId) (offset : Offset) (size : Size) :
    Except Panic NeedleMap := do
  let metric := nm.metric.maybeSetMaxFileKey key
  if offset.isZero = false ∧ size.isDeleted = false then
    let (m, oldOffset, oldSize) ← nm.m.set key offset size
    return { nm with m := m, metric := metric.loadSet size oldOffset oldSize }
  else
    let (m, oldSize) ← nm.m.delete key
    return { nm with m := m, metric := metric.loadDelete oldSize }

/-- What `DoOffsetLoading` does with an entry. -/
def offsetLoadEntry (nm : NeedleMap) (key : NeedleId) (offset : Offset) (size : Size) :
    Except Panic NeedleMap := do
  let metric := nm.metric.maybeSetMaxFileKey key
  if offset.isZero = false ∧ size.isDeleted = false then
    let (m, oldOffset, oldSize) ← nm.m.set key offset size
    return { nm with m := m, metric := metric.loadSet size oldOffset oldSize }
  else
    let (m, oldSize) ← nm.m.delete key
    return { nm with m := m, metric := metric.countFile.loadDelete oldSize }

/-- `DoOffsetLoading`. -/
def doOffsetLoading (nm : NeedleMap) (indexFile : File) (startFrom : Nat) : Except Panic NeedleMap :=
  walkIndexFile offsetLoadEntry indexFile startFrom nm

/-- `UpdateNeedleMap`: the map gets its index file. -/
def updateNeedleMap (nm : NeedleMap) (indexFile : File) : NeedleMap :=
  { nm with indexFile := indexFile, indexFileOffset := indexFile.length }

end NeedleMap

/-- `doLoading`. -/
def doLoading (file : File) (nm : NeedleMap) : Except Panic NeedleMap :=
  walkIndexFile NeedleMap.loadEntry file 0 nm

/-- `LoadCompactNeedleMap`. -/
def loadCompactNeedleMap (file : File) : Except Panic NeedleMap :=
  doLoading file (newCompactNeedleMap file)

end Storage
