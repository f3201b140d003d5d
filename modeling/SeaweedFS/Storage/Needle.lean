import SeaweedFS.Storage.Types

/-!
# `weed/storage/needle`: needles, their flags and sizes on disk

A needle is one stored file. On disk it is a record: a header of 16 bytes (cookie, id, size), a
body of `size` bytes, the checksum, in version 3 the time of the append, and 1 to 8 bytes that fill
up to a multiple of eight. The sizes are `int32`, and so is the arithmetic of `paddingLength`.
-/

namespace Storage

/-- `Version`: the supported ones. -/
inductive Version
  | v1 | v2 | v3
deriving DecidableEq, Repr

/-! ## Checksums -/

/-- `CRC`. -/
abbrev CRC := UInt32

/-- The reversed Castagnoli polynomial. -/
def castagnoli : UInt32 := 0x82f63b78

/-- The remainder after one more bit. -/
def crcShift (crc : UInt32) : UInt32 :=
  if crc &&& 1 == 1 then (crc >>> 1) ^^^ castagnoli else crc >>> 1

/-- An entry of `crc32.MakeTable(crc32.Castagnoli)`. -/
def crcTable (b : UInt8) : UInt32 := crcShift^[8] b.toUInt32

/-- `CRC.Update`, that is `crc32.Update`. -/
def CRC.update (c : CRC) (b : List UInt8) : CRC :=
  ~~~ b.foldl (fun crc v => crcTable (crc.toUInt8 ^^^ v) ^^^ (crc >>> 8)) (~~~ c)

/-- `NewCRC`. -/
def newCRC (b : List UInt8) : CRC := CRC.update 0 b

/-! ## Time to live -/

/-- `TTL`. -/
structure TTL where
  count : UInt8 := 0
  unit : UInt8 := 0
deriving DecidableEq, Repr

/-- `LoadTTLFromBytes`. -/
def loadTTLFromBytes (input : List UInt8) : TTL where
  count := input.getD 0 0
  unit := input.getD 1 0

namespace TTL

/-- `TTL.ToBytes`. -/
def toBytes (t : TTL) : List UInt8 := [t.count, t.unit]

/-- `TTL.Minutes`; the units are `Empty`, `Minute`, `Hour`, `Day`, `Week`, `Month` and `Year`. -/
def minutes (t : TTL) : UInt32 :=
  match t.unit with
  | 1 => t.count.toUInt32
  | 2 => t.count.toUInt32 * 60
  | 3 => t.count.toUInt32 * 60 * 24
  | 4 => t.count.toUInt32 * 60 * 24 * 7
  | 5 => t.count.toUInt32 * 60 * 24 * 30
  | 6 => t.count.toUInt32 * 60 * 24 * 365
  | _ => 0

/-- `TTL.String`. -/
def string (t : TTL) : String :=
  if t.count == 0 then "" else
  match t.unit with
  | 1 => toString t.count.toNat ++ "m"
  | 2 => toString t.count.toNat ++ "h"
  | 3 => toString t.count.toNat ++ "d"
  | 4 => toString t.count.toNat ++ "w"
  | 5 => toString t.count.toNat ++ "M"
  | 6 => toString t.count.toNat ++ "y"
  | _ => ""

end TTL

/-! ## Needles -/

/-- `Needle`. -/
structure Needle where
  cookie : Cookie := 0
  id : NeedleId := 0
  size : Size := 0
  dataSize : UInt32 := 0
  data : List UInt8 := []
  flags : UInt8 := 0
  nameSize : UInt8 := 0
  name : List UInt8 := []
  mimeSize : UInt8 := 0
  mime : List UInt8 := []
  pairsSize : UInt16 := 0
  pairs : List UInt8 := []
  lastModified : UInt64 := 0
  ttl : Option TTL := none
  checksum : CRC := 0
  appendAtNs : UInt64 := 0
deriving DecidableEq, Repr

def flagHasName : UInt8 := 0x02
def flagHasMime : UInt8 := 0x04
def flagHasLastModifiedDate : UInt8 := 0x08
def flagHasTtl : UInt8 := 0x10
def flagHasPairs : UInt8 := 0x20

def lastModifiedBytesLength : Nat := 5
def ttlBytesLength : Nat := 2
def needleChecksumSize : Nat := 4

namespace Needle

/-- `HasName`. -/
def hasName (n : Needle) : Bool := n.flags &&& flagHasName > 0

/-- `HasMime`. -/
def hasMime (n : Needle) : Bool := n.flags &&& flagHasMime > 0

/-- `HasLastModifiedDate`. -/
def hasLastModifiedDate (n : Needle) : Bool := n.flags &&& flagHasLastModifiedDate > 0

/-- `HasTtl`. -/
def hasTtl (n : Needle) : Bool := n.flags &&& flagHasTtl > 0

/-- `HasPairs`. -/
def hasPairs (n : Needle) : Bool := n.flags &&& flagHasPairs != 0

/-- `GetAppendAtNs`; `now` is the clock. -/
def getAppendAtNs (now volumeLastAppendAtNs : UInt64) : UInt64 := max now (volumeLastAppendAtNs + 1)

/-- `UpdateAppendAtNs`. -/
def updateAppendAtNs (n : Needle) (now volumeLastAppendAtNs : UInt64) : Needle :=
  { n with appendAtNs := getAppendAtNs now volumeLastAppendAtNs }

end Needle

/-! ## Sizes on disk -/

/-- What follows the body before the padding. -/
def tailSize : Version → Nat
  | .v3 => needleChecksumSize + timestampSize
  | _ => needleChecksumSize

/-- `PaddingLength`. -/
def paddingLength (needleSize : Size) (version : Version) : Size :=
  if version = .v3 then 8 - ((16 + needleSize + 4 + 8) % 8) else 8 - ((16 + needleSize + 4) % 8)

/-- `NeedleBodyLength`. -/
def needleBodyLength (needleSize : Size) (version : Version) : Int :=
  needleSize.toInt + tailSize version + (paddingLength needleSize version).toInt

/-- `GetActualSize`. -/
def getActualSize (size : Size) (version : Version) : Int :=
  needleHeaderSize + needleBodyLength size version

/-- `DiskSize`. -/
def Needle.diskSize (n : Needle) (version : Version) : Int := getActualSize n.size version

/-! ## Errors -/

/-- The errors of reading and writing needles. -/
inductive NeedleError
  /-- `io.EOF`. -/
  | eof
  /-- `ErrorSizeMismatch`: "size mismatch". -/
  | sizeMismatch
  /-- "entry not found: offset %d found id %x size %d, expected size %d". -/
  | entryNotFound (offset : Nat) (id : NeedleId) (size expected : Size)
  /-- "index out of range %d". -/
  | indexOutOfRange (place : Nat)
  /-- "invalid CRC for needle %v (got %08x, want %08x), data on disk corrupted". -/
  | invalidCRC (id : NeedleId) (got want : CRC)
  /-- "Volume Size %d Exceeded %d". -/
  | volumeSizeExceeded (offset max : Nat)
  /-- "invalid needle size %d results in negative timestamp offset %d". -/
  | negativeTimestampOffset (size : Size) (tsOffset : Int)
  /-- "needle blob buffer too small: need %d bytes, have %d". -/
  | blobTooSmall (need have_ : Int)
  /-- A slice or an index out of bounds: the runtime panics. -/
  | outOfBounds
deriving DecidableEq, Repr

end Storage
