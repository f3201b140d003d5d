import SeaweedFS.Storage.MemDb
import SeaweedFS.Storage.VolumeScan

/-!
# `weed/storage/volume_vacuum.go`: compacting a volume

A compaction copies the live needles of a volume to a `.cpd` file and writes an index `.cpx` for it,
either along the records of the `.dat` file (`CompactByVolumeData`) or along its index
(`CompactByIndex`). The clock `now` is in seconds here. Nothing interrupts the copy, and the files can
be read and written.
-/

namespace Storage

open Lib Util

/-- The vacuum leaves out a needle with a time to live once that of the volume has passed since it was modified. The
product is one of `uint32`. -/
def Needle.isVacuumed (n : Needle) (ttl : TTL) (now : UInt64) : Bool :=
  n.hasTtl && decide (now ≥ n.lastModified + (ttl.minutes * 60).toUInt64)

/-- The super block of the copy. -/
def SuperBlock.compacted (s : SuperBlock) : SuperBlock :=
  { s with compactionRevision := s.compactionRevision + 1 }

/-- A copy that is being made: the new `.dat` file, its entries, and the offset of the next record. -/
structure Compaction where
  dst : File
  nm : MemDb := MemDb.new
  newOffset : Int

/-- The copy begins with the super block. -/
def startCompaction (s : SuperBlock) : Compaction where
  dst := File.writeAt [] s.compacted.bytes 0
  newOffset := superBlockSize

/-- The needle is copied. Its entry is set with the size it has in the `.dat` file, before the append
sets the size again. -/
def Compaction.save (c : Compaction) (n : Needle) (version : Version) :
    Except VolumeError Compaction := do
  let nm := c.nm.set n.id (toOffset c.newOffset.toNat) n.size
  let (dst, _, written) ← (n.append c.dst version).mapError .cannotAppendNeedle
  return { dst := dst, nm := nm, newOffset := c.newOffset + written.needle.diskSize version }

/-- The files of a copy. -/
structure Compacted where
  /-- The `.cpd` file. -/
  dat : File
  /-- The `.cpx` file. -/
  idx : File

/-! ## Along the `.dat` file -/

/-- The entry `nv` has data, and its record begins at `offset`. -/
def isCurrent (nv : NeedleValue) (offset : Nat) : Bool :=
  nv.offset.toActualOffset == offset && nv.size > 0 && nv.size.isValid

/-- `VolumeFileScanner4Vacuum`. -/
def volumeFileScanner4Vacuum (v : Volume) (now : UInt64) : VolumeFileScanner Compaction where
  readNeedleBody := true
  visitNeedle c n offset :=
    if n.isVacuumed v.superBlock.ttl now then .ok c
    else do
      let nv? ← v.get n.id
      if nv?.any fun nv => isCurrent nv offset then c.save n v.version else return c

/-- `CompactByVolumeData`, with `copyDataAndGenerateIndexFile`. -/
def Volume.compactByVolumeData (v : Volume) (now : UInt64) : Except VolumeError Compacted := do
  let c ← scanVolumeFileFrom v.version v.dat superBlockSize (volumeFileScanner4Vacuum v now)
    (startCompaction v.superBlock)
  return { dat := c.dst, idx := ← c.nm.saveToIdx }

/-! ## Along the index -/

/-- What `copyDataBasedOnIndexFile` does with an entry. -/
def Volume.copyValue (v : Volume) (now : UInt64) (c : Compaction) (value : NeedleValue) :
    Except VolumeError Compaction :=
  if value.offset.isZero || value.size.isDeleted then .ok c
  else do
    let n ← (v.readEntry value value.size).mapError fun e => .cannotHydrateNeedle e.2
    if n.isVacuumed v.superBlock.ttl now then return c else c.save n v.version

/-- In a volume without a time to live, the copy is not smaller than what is live. -/
def Volume.checkNewDataSize (v : Volume) (dstDatSize : Nat) : Except VolumeError Unit :=
  if v.superBlock.ttl.string = "" ∧ v.nm.contentSize > v.nm.deletedSize ∧
      v.nm.contentSize - v.nm.deletedSize > UInt64.ofNat dstDatSize then
    throw (.unexpectedNewDataSize dstDatSize (v.nm.contentSize - v.nm.deletedSize))
  else return ()

/-- `CompactByIndex`, with `copyDataBasedOnIndexFile` up to the two files. -/
def Volume.compactByIndex (v : Volume) (now : UInt64) : Except VolumeError Compacted := do
  let oldNm ← MemDb.new.loadFromIdx v.nm.indexFile
  let c ← oldNm.ascendingVisit (v.copyValue now) (startCompaction v.superBlock)
  v.checkNewDataSize c.dst.length
  return { dat := c.dst, idx := ← c.nm.saveToIdx }

end Storage
