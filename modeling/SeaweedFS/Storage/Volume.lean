import SeaweedFS.Storage.NeedleMapper
import SeaweedFS.Storage.NeedleRead
import SeaweedFS.Storage.NeedleWrite

/-!
# `weed/storage/volume*.go`: a volume

A local volume is a `.dat` file, to which records are appended, and a needle map with its `.idx` file.
Reads and writes of the files succeed; `now` is the clock, in nanoseconds. The functions run under the
volume's lock, so that each is one step.
-/

namespace Storage

open Lib Util

/-- `SuperBlock`, without `Extra`. The replica placement is its byte. -/
structure SuperBlock where
  version : Version
  replicaPlacement : UInt8 := 0
  ttl : TTL := {}
  compactionRevision : UInt16 := 0
deriving DecidableEq, Repr

def superBlockSize : Nat := 8

/-- `byte(s.Version)`. -/
def Version.byte : Version → UInt8
  | .v1 => 1
  | .v2 => 2
  | .v3 => 3

/-- `SuperBlock.Bytes`. -/
def SuperBlock.bytes (s : SuperBlock) : List UInt8 :=
  [s.version.byte, s.replicaPlacement] ++ s.ttl.toBytes ++ uint16toBytes s.compactionRevision ++ [0, 0]

/-- The version of a byte; a volume has one of the three. -/
def Version.ofByte (b : UInt8) : Option Version :=
  if b = 1 then some .v1 else if b = 2 then some .v2 else if b = 3 then some .v3 else none

/-- `ReadSuperBlock`. Every byte is a replica placement. -/
def readSuperBlock (file : File) : Option SuperBlock := do
  let (header, _) := file.readAt superBlockSize 0
  if header.length ≠ superBlockSize then none
  else
    let version ← Version.ofByte (header.getD 0 0)
    return { version, replicaPlacement := header.getD 1 0,
             ttl := loadTTLFromBytes ((header.drop 2).take 2),
             compactionRevision := bytesToUint16 ((header.drop 4).take 2) }

/-- The errors of a volume. -/
inductive VolumeError
  /-- An error of reading or writing a needle, as it is. -/
  | needle (err : NeedleError)
  /-- "reading existing needle: %w". -/
  | readingExistingNeedle (err : NeedleError)
  /-- "mismatching cookie %x". -/
  | mismatchingCookie (cookie : Cookie)
  /-- "append to volume %d size %d actualSize %d: %v". -/
  | append (err : NeedleError)
  /-- "volume size limit %d exceeded! current size is %d". -/
  | sizeLimitExceeded (limit : Nat) (current : UInt64)
  /-- `ErrorNotFound`: "not found". -/
  | notFound
  /-- `ErrorDeleted`: "already deleted". -/
  | deleted
  /-- A panic of the needle map. -/
  | panic (p : Panic)
  /-- A nil pointer. -/
  | nilPointer
  /-- "cannot read %s at offset %d: %w". -/
  | readFirst (offset : Int) (err : NeedleError)
  /-- "cannot read needle header at offset %d: %w". -/
  | readNeedleHeader (offset : Int) (err : NeedleError)
  /-- "visit needle error: %w". -/
  | visitNeedle (err : VolumeError)
  /-- A scan of the file that never ends. -/
  | endless
  /-- An error of `Sync`, with the number of the system call's error. -/
  | sync (errno : Nat)
  /-- "cannot append needle: %s". -/
  | cannotAppendNeedle (err : NeedleError)
  /-- "cannot hydrate needle from file: %w". -/
  | cannotHydrateNeedle (err : NeedleError)
  /-- "volume %s unexpected new data size: %d does not match size of content minus deleted: %d". -/
  | unexpectedNewDataSize (dstDatSize : Nat) (expectedContentSize : UInt64)
deriving DecidableEq

/-- `Volume`. -/
structure Volume where
  superBlock : SuperBlock
  dat : File
  nm : NeedleMapper
  lastAppendAtNs : UInt64 := 0
  lastModifiedTsSeconds : UInt64 := 0

/-- `NewVolume`, for a volume that does not exist yet. -/
def newVolume (superBlock : SuperBlock) (kind : NeedleMapKind) : Volume where
  superBlock := superBlock
  dat := superBlock.bytes
  nm := .new kind

namespace Volume

def version (v : Volume) : Version := v.superBlock.version

/-- `v.nm.Get`. -/
def get (v : Volume) (key : NeedleId) : Except VolumeError (Option NeedleValue) :=
  (v.nm.get key).mapError .panic

/-- `v.nm.Put`. -/
def putEntry (v : Volume) (key : NeedleId) (offset : Offset) (size : Size) :
    Except VolumeError Volume := do
  return { v with nm := ← (v.nm.put key offset size).mapError .panic }

/-- `v.nm.Delete`. -/
def deleteEntry (v : Volume) (key : NeedleId) (offset : Offset) : Except VolumeError Volume := do
  return { v with nm := ← (v.nm.delete key offset).mapError .panic }

/-- `ReadData` of the record that an entry names. -/
def readEntry (v : Volume) (nv : NeedleValue) (size : Size) : ReadResult Needle :=
  ({} : Needle).readData v.dat nv.offset.toActualOffset size v.version

/-- The needle `n` is what the old needle is. -/
def sameContent (old n : Needle) : Bool :=
  old.cookie == n.cookie && old.checksum == n.checksum && old.data == n.data

/-- `isFileUnchanged`: the old `DataSize` if so. -/
def isFileUnchanged (v : Volume) (n : Needle) : Except VolumeError (Option UInt32) := do
  if v.superBlock.ttl.string ≠ "" then return none
  match ← v.get n.id with
  | none => return none
  | some nv =>
    if nv.offset.isZero = false ∧ nv.size.isValid = true then
      match v.readEntry nv nv.size with
      | .error (_, .outOfBounds) => throw (.needle .outOfBounds)
      | .error _ => return none
      | .ok old => return if sameContent old n then some old.dataSize else none
    else return none

/-- What `doWriteRequest` returns. -/
structure WriteResult where
  offset : Nat := 0
  size : Size := 0
  isUnchanged : Bool := false
deriving DecidableEq, Repr

/-- A needle without a cookie, from a batch deletion or a tailed volume, gets the existing one. -/
def adoptCookie (n : Needle) (checkCookie : Bool) (cookie : Cookie) : Needle :=
  if n.cookie == 0 && !checkCookie then { n with cookie := cookie } else n

/-- The check of the cookie in `doWriteRequest` against the record at `existing`, if there is one: the
needle to write. -/
def checkCookieOf (v : Volume) (n : Needle) (checkCookie : Bool) :
    Option Nat → Except VolumeError Needle
  | none => .ok n
  | some existing =>
    match readNeedleHeader v.dat v.version existing with
    | .error err => .error (.readingExistingNeedle err)
    | .ok (existingNeedle, _) =>
      let n := adoptCookie n checkCookie existingNeedle.cookie
      if existingNeedle.cookie ≠ n.cookie then .error (.mismatchingCookie n.cookie) else .ok n

/-- The needle is appended, and the time of the append kept. -/
def appendNeedle (v : Volume) (n : Needle) (now : UInt64) :
    Except NeedleError (Volume × Nat × Written) := do
  let n := n.updateAppendAtNs now v.lastAppendAtNs
  let (dat, offset, written) ← n.append v.dat v.version
  return ({ v with dat := dat, lastAppendAtNs := n.appendAtNs }, offset, written)

/-- The new entry, unless there is one with a higher offset. -/
def putNewer (v : Volume) (nv? : Option NeedleValue) (key : NeedleId) (offset : Nat) (size : Size) :
    Except VolumeError Volume :=
  if nv?.all fun nv => nv.offset.toActualOffset < offset then v.putEntry key (toOffset offset) size
  else return v

/-- `doWriteRequest`. -/
def doWriteRequest (v : Volume) (n : Needle) (checkCookie : Bool) (now : UInt64) :
    Except VolumeError (Volume × WriteResult) := do
  match ← v.isFileUnchanged n with
  | some dataSize => return (v, { size := dataSize.toInt32, isUnchanged := true })
  | none =>
    let nv? ← v.get n.id
    let n ← v.checkCookieOf n checkCookie (nv?.map fun nv => nv.offset.toActualOffset)
    let (v, offset, written) ← (v.appendNeedle n now).mapError .append
    let v ← v.putNewer nv? n.id offset written.needle.size
    return ({ v with lastModifiedTsSeconds := max v.lastModifiedTsSeconds n.lastModified },
      { offset := offset, size := written.size })

/-- `doDeleteRequest`. -/
def doDeleteRequest (v : Volume) (n : Needle) (now : UInt64) :
    Except VolumeError (Volume × Size) := do
  match ← v.get n.id with
  | some nv =>
    if nv.size.isDeleted then return (v, 0)
    else
      let (v, offset, _) ← (v.appendNeedle { n with data := [] } now).mapError .needle
      return (← v.deleteEntry n.id (toOffset offset), nv.size)
  | none => return (v, 0)

/-- The blob holds what the volume holds already. -/
def alreadyExists (v : Volume) (nv? : Option NeedleValue) (needleBlob : List UInt8) (size : Size) :
    Except VolumeError Bool :=
  match nv? with
  | none => return false
  | some nv =>
    if nv.size = size then
      match v.readEntry nv nv.size with
      | .error (_, .outOfBounds) => throw (.needle .outOfBounds)
      | .error _ => return false
      | .ok old =>
        match ({} : Needle).readBytes needleBlob nv.offset.toActualOffset size v.version with
        | .error (_, .outOfBounds) => throw (.needle .outOfBounds)
        | .error _ => return false
        | .ok new => return sameContent old new
    else return false

/-- `Volume.WriteNeedleBlob`. -/
def writeBlob (v : Volume) (needleId : NeedleId) (needleBlob : List UInt8) (size : Size)
    (now : UInt64) : Except VolumeError Volume := do
  if maxPossibleVolumeSize < (v.nm.contentSize + UInt64.ofNat needleBlob.length).toNat then
    throw (.sizeLimitExceeded maxPossibleVolumeSize v.nm.contentSize)
  let nv? ← v.get needleId
  if ← v.alreadyExists nv? needleBlob size then return v
  let appendAtNs := Needle.getAppendAtNs now v.lastAppendAtNs
  let (dat, offset) ← (writeNeedleBlob v.dat needleBlob size appendAtNs v.version).mapError .needle
  ({ v with dat := dat, lastAppendAtNs := appendAtNs }).putEntry needleId (toOffset offset) size

/-- The size to read: of a deleted entry only on request, and only if it is still known. -/
def readSizeOf (size : Size) (readDeleted : Bool) : Except VolumeError Size :=
  if size.isDeleted then
    if readDeleted ∧ size ≠ tombstoneFileSize then return -size else throw .deleted
  else return size

/-- The time to live of a needle that was read has not passed. -/
def isAlive (n : Needle) (now : UInt64) : Except VolumeError Bool :=
  if n.hasTtl then
    match n.ttl with
    | none => throw .nilPointer
    | some ttl => return ttl.minutes = 0 || !n.hasLastModifiedDate ||
        (now.toNat : Int) < n.appendAtNs.toInt64.toInt + ttl.minutes.toNat * 60000000000
  else return true

/-- `readNeedle`, without paging: the needle and the count that is returned. -/
def readNeedle (v : Volume) (n : Needle) (readDeleted : Bool) (now : UInt64) :
    Except VolumeError (Needle × Int) := do
  match ← v.get n.id with
  | none => throw .notFound
  | some nv =>
    if nv.offset.isZero then throw .notFound
    let readSize ← readSizeOf nv.size readDeleted
    if readSize = 0 then return (n, 0)
    let n ← (n.readData v.dat nv.offset.toActualOffset readSize v.version).mapError
      fun e => .needle e.2
    if ← isAlive n now then return (n, n.dataSize.toNat) else throw .notFound

end Volume

end Storage
