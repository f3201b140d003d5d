import SeaweedFS.Storage.Vacuum
import SeaweedFS.Storage.VolumeChecking

/-!
# `weed/storage/volume_vacuum.go`: committing a compaction

`CompactByIndex` leaves a `.cpd` and a `.cpx` file and a needle map for them (`tmpNm`). Writes go on to the
old files until `CommitCompact`: `makeupDiff` brings what was logged since then to the new files, which
replace the old ones, and the volume is loaded with the map. File operations succeed.
-/

namespace Storage

open Lib Util

/-- The errors of a commit. -/
inductive CommitError
  /-- A check of `volume_checking.go` that makes a loaded volume read-only, with a needle map in a sorted file. -/
  | check (err : CheckError)
  /-- "cannot read volume %s super block: %v". -/
  | superBlock
  /-- "current old dat file's compact revision %d is not the expected one %d". -/
  | oldRevision (revision expected : UInt16)
  /-- "oldDatFile %s 's compact revision is %d while newDatFile %s 's compact revision is %d". -/
  | newRevision (old new : UInt16)
  /-- "ReadNeedleBlob %s key %d offset %d size %d failed: %w" or "append deleted %d failed: %v". -/
  | needle (err : NeedleError)
  /-- A panic of the needle map. -/
  | panic (p : Panic)
deriving DecidableEq

/-- What a compaction leaves for its commit. -/
structure Compacting extends Compacted where
  tmpNm : NeedleMapper
  lastCompactIndexOffset : Nat
  lastCompactRevision : UInt16

/-- `CompactByIndex`, with the needle map of the new files. -/
def Volume.compact2 (v : Volume) (now : UInt64) : Except VolumeError Compacting := do
  let c ← v.compactByIndex now
  let tmpNm ← ((NeedleMapper.newTmpNm v.nm.kind).doOffsetLoading c.idx 0).mapError .panic
  return { toCompacted := c, tmpNm := tmpNm
           lastCompactIndexOffset := v.nm.indexFileSize
           lastCompactRevision := v.superBlock.compactionRevision }

/-- `fetchCompactRevisionFromDatFile`. -/
def fetchCompactRevisionFromDatFile (datBackend : File) : Except CommitError UInt16 :=
  match readSuperBlock datBackend with
  | some superBlock => .ok superBlock.compactionRevision
  | none => .error .superBlock

/-- An entry of `incrementedHasUpdatedIndexEntry`. -/
abbrev UpdatedEntry := NeedleId × Offset × Size

/-- The first loop of `makeupDiff`, backwards over the index file with `k` entries left: the last entry of each key.
The offset before the first entry is as a `uint64` above every offset, so that the loop does not end there. -/
def updatedEntries (oldIdxFile : File) (lastCompactIndexOffset : Nat) :
    Nat → List UpdatedEntry → Except CommitError (List UpdatedEntry)
  | 0, _ => .error (.check (.indexOffset (-needleMapEntrySize)))
  | k + 1, entries =>
    let idxOffset := k * needleMapEntrySize
    if idxOffset ≥ lastCompactIndexOffset then do
      let idxEntry ← (readIndexEntryAtOffset oldIdxFile idxOffset).mapError .check
      let entry := idxFileEntry idxEntry
      updatedEntries oldIdxFile lastCompactIndexOffset k
        (if entries.any (·.1 == entry.1) then entries else entries ++ [entry])
    else return entries

/-- A file that ends at an aligned position. -/
def alignFile (file : File) : File :=
  file ++ List.replicate ((needlePaddingSize - file.length % needlePaddingSize) % needlePaddingSize) 0

/-- The second loop of `makeupDiff`: a needle is copied with its record; a deletion gets a record of its own, at the
time `now`. -/
def Volume.makeupEntry (v : Volume) (clock : NeedleId → UInt64) (c : Compacted) (e : UpdatedEntry) :
    Except CommitError Compacted := do
  let (key, offset, size) := e
  let dst := alignFile c.dat
  if offset.isZero = false ∧ size ≠ 0 ∧ size.isValid = true then
    let needleBytes ← (readNeedleBlob v.dat offset.toActualOffset size v.version).mapError .needle
    return { dat := dst ++ needleBytes, idx := c.idx ++ toBytes key (toOffset dst.length) size }
  else
    let fakeDelNeedle : Needle := { id := key, cookie := 0x12345678, appendAtNs := clock key }
    let (dst, _, _) ← (fakeDelNeedle.append dst v.version).mapError .needle
    return { dat := dst, idx := c.idx ++ toBytes key {} size }

/-- `makeupDiff`; `order` is the order in which the entries of the Go map are visited. -/
def Volume.makeupDiff (v : Volume) (c : Compacting) (order : List UpdatedEntry → List UpdatedEntry)
    (clock : NeedleId → UInt64) : Except CommitError Compacting := do
  let indexSize ← (verifyIndexFileIntegrity v.nm.indexFile).mapError .check
  if indexSize = 0 ∨ indexSize ≤ c.lastCompactIndexOffset then return c
  let oldDatCompactRevision ← fetchCompactRevisionFromDatFile v.dat
  if oldDatCompactRevision ≠ c.lastCompactRevision then
    throw (.oldRevision oldDatCompactRevision c.lastCompactRevision)
  let entries ← updatedEntries v.nm.indexFile c.lastCompactIndexOffset
    (indexSize / needleMapEntrySize) []
  if entries.length = 0 then return c
  let idxSize := c.idx.length
  let newDatCompactRevision ← fetchCompactRevisionFromDatFile c.dat
  if oldDatCompactRevision + 1 ≠ newDatCompactRevision then
    throw (.newRevision oldDatCompactRevision newDatCompactRevision)
  let files ← (order entries).foldlM (v.makeupEntry clock) c.toCompacted
  let tmpNm ← (c.tmpNm.doOffsetLoading files.idx (idxSize / needleMapEntrySize)).mapError .panic
  return { c with toCompacted := files, tmpNm := tmpNm }

/-- `load`, of a volume whose needle map is there already; `modified` is the time of the file's last
change. -/
def loadCompacted (c : Compacted) (tmpNm : NeedleMapper) (modified : UInt64) :
    Except CommitError Volume := do
  match readSuperBlock c.dat with
  | none => throw .superBlock
  | some superBlock =>
    let lastAppendAtNs ← (checkVolumeDataIntegrity c.dat superBlock.version c.idx).mapError .check
    return { superBlock := superBlock, dat := c.dat, nm := tmpNm.updateNeedleMap c.idx
             lastAppendAtNs := lastAppendAtNs, lastModifiedTsSeconds := modified }

/-- `CommitCompact`: when the difference cannot be made up, the old files stay, but the map is the one of
the new files. -/
def Volume.commitCompact (v : Volume) (c : Compacting) (order : List UpdatedEntry → List UpdatedEntry)
    (clock : NeedleId → UInt64) (modified : UInt64) : Except CommitError Volume :=
  match v.makeupDiff c order clock with
  | .ok c => loadCompacted c.toCompacted c.tmpNm modified
  | .error _ => loadCompacted ⟨v.dat, v.nm.indexFile⟩ c.tmpNm modified

end Storage
