import SeaweedFS.Lib.Buffer
import SeaweedFS.Lib.File
import SeaweedFS.Storage.Needle

/-!
# `weed/storage/needle/needle_read*.go`: reading a needle

The readers fill a needle field by field. An error carries the needle as it was filled by then.
-/

namespace Storage

open Lib Util

/-- The outcome of a reader: an error comes with what was read before it. -/
abbrev ReadResult (α : Type) := Except (Needle × NeedleError) α

/-- `bytes[start:stop]`. -/
def sliceOf (n : Needle) (bytes : List UInt8) (start stop : Int) : ReadResult (List UInt8) :=
  if 0 ≤ start ∧ start ≤ stop ∧ stop ≤ bytes.length then .ok (slice bytes start.toNat stop.toNat)
  else .error (n, .outOfBounds)

/-- `ParseNeedleHeader`. -/
def Needle.parseNeedleHeader (n : Needle) (bytes : List UInt8) : ReadResult Needle :=
  if needleHeaderSize ≤ bytes.length then
    .ok { n with
      cookie := bytesToCookie (slice bytes 0 cookieSize)
      id := bytesToNeedleId (slice bytes cookieSize (cookieSize + needleIdSize))
      size := bytesToSize (slice bytes (cookieSize + needleIdSize) needleHeaderSize) }
  else .error (n, .outOfBounds)

/-! ## The fields after the data -/

/-- A field behind one byte that holds its length. -/
def readShort (has : Needle → Bool) (place : Nat) (setSize : Needle → UInt8 → Needle)
    (set : Needle → List UInt8 → Needle) (bytes : List UInt8) (n : Needle) (index : Nat) :
    ReadResult (Needle × Nat) :=
  if index < bytes.length ∧ has n then
    let size := bytes.getD index 0
    let n := setSize n size
    let index := index + 1
    if size.toNat + index > bytes.length then .error (n, .indexOutOfRange place)
    else .ok (set n (slice bytes index (index + size.toNat)), index + size.toNat)
  else .ok (n, index)

/-- A field of a fixed length. -/
def readFixed (has : Needle → Bool) (place len : Nat) (set : Needle → List UInt8 → Needle)
    (bytes : List UInt8) (n : Needle) (index : Nat) : ReadResult (Needle × Nat) :=
  if index < bytes.length ∧ has n then
    if len + index > bytes.length then .error (n, .indexOutOfRange place)
    else .ok (set n (slice bytes index (index + len)), index + len)
  else .ok (n, index)

def readFlags (bytes : List UInt8) (n : Needle) (index : Nat) : Needle × Nat :=
  if index < bytes.length then ({ n with flags := bytes.getD index 0 }, index + 1) else (n, index)

def readName : List UInt8 → Needle → Nat → ReadResult (Needle × Nat) :=
  readShort Needle.hasName 2 (fun n size => { n with nameSize := size })
    fun n name => { n with name := name }

def readMime : List UInt8 → Needle → Nat → ReadResult (Needle × Nat) :=
  readShort Needle.hasMime 3 (fun n size => { n with mimeSize := size })
    fun n mime => { n with mime := mime }

def readLastModified : List UInt8 → Needle → Nat → ReadResult (Needle × Nat) :=
  readFixed Needle.hasLastModifiedDate 4 lastModifiedBytesLength
    fun n bs => { n with lastModified := bytesToUint64 bs }

def readTtl : List UInt8 → Needle → Nat → ReadResult (Needle × Nat) :=
  readFixed Needle.hasTtl 5 ttlBytesLength fun n bs => { n with ttl := some (loadTTLFromBytes bs) }

/-- The pairs stand behind two bytes that hold their length. -/
def readPairs (bytes : List UInt8) (n : Needle) (index : Nat) : ReadResult (Needle × Nat) :=
  if index < bytes.length ∧ n.hasPairs then
    if 2 + index > bytes.length then .error (n, .indexOutOfRange 6)
    else
      let n := { n with pairsSize := bytesToUint16 (slice bytes index (index + 2)) }
      let index := index + 2
      if n.pairsSize.toNat + index > bytes.length then .error (n, .indexOutOfRange 7)
      else
        let stop := index + n.pairsSize.toNat
        .ok ({ n with pairs := slice bytes index stop }, stop)
  else .ok (n, index)

/-- `readNeedleDataVersion2NonData`. -/
def Needle.readNeedleDataVersion2NonData (n : Needle) (bytes : List UInt8) :
    ReadResult (Needle × Nat) := do
  let (n, index) := readFlags bytes n 0
  let (n, index) ← readName bytes n index
  let (n, index) ← readMime bytes n index
  let (n, index) ← readLastModified bytes n index
  let (n, index) ← readTtl bytes n index
  readPairs bytes n index

/-- `readNeedleDataVersion2`. The slice has the length `lenBytes`; `bytes` is its capacity, which bounds
`bytes[index:index+4]`. -/
def Needle.readNeedleDataVersion2 (n : Needle) (bytes : List UInt8) (lenBytes : Nat) :
    ReadResult Needle := do
  let (n, index) ←
    if 0 < lenBytes then do
      let sizeBytes ← sliceOf n bytes 0 4
      let n := { n with dataSize := bytesToUint32 sizeBytes }
      if n.dataSize.toNat + 4 > lenBytes then throw (n, .indexOutOfRange 1)
      let stop := 4 + n.dataSize.toNat
      pure ({ n with data := slice bytes 4 stop }, stop)
    else pure (n, 0)
  let (n, _) ← n.readNeedleDataVersion2NonData (slice bytes index lenBytes)
  return n

/-- `readNeedleTail`. -/
def Needle.readNeedleTail (n : Needle) (needleBody : List UInt8) (version : Version) :
    ReadResult Needle := do
  let checksumBytes ← sliceOf n needleBody 0 needleChecksumSize
  let expectedChecksum : CRC := bytesToUint32 checksumBytes
  let dataChecksum := newCRC n.data
  if n.data.length > 0 ∧ expectedChecksum ≠ dataChecksum then
    throw (n, .invalidCRC n.id dataChecksum expectedChecksum)
  let n := { n with checksum := expectedChecksum }
  if version = .v3 then
    let stamp ← sliceOf n needleBody needleChecksumSize (needleChecksumSize + timestampSize : Nat)
    return { n with appendAtNs := bytesToUint64 stamp }
  else return n

/-- The part of `ReadBytes` that reads the body. -/
def Needle.readBodyOf (n : Needle) (bytes : List UInt8) (size : Size) (version : Version) :
    ReadResult Needle :=
  if version = .v1 then do
    let data ← sliceOf n bytes needleHeaderSize (16 + size : Size).toInt
    return { n with data := data }
  else do
    let _ ← sliceOf n bytes needleHeaderSize (needleHeaderSize + size.toInt)
    n.readNeedleDataVersion2 (bytes.drop needleHeaderSize) size.toInt.toNat

/-- `ReadBytes`. -/
def Needle.readBytes (n : Needle) (bytes : List UInt8) (offset : Nat) (size : Size)
    (version : Version) : ReadResult Needle := do
  let n ← n.parseNeedleHeader bytes
  if n.size ≠ size then
    if offset < maxPossibleVolumeSize then throw (n, .sizeMismatch)
    else throw (n, .entryNotFound offset n.id n.size size)
  let n ← n.readBodyOf bytes size version
  let tail ← sliceOf n bytes (16 + size : Size).toInt bytes.length
  n.readNeedleTail tail version

/-! ## Reading from a file -/

/-- `ReadNeedleBlob`. -/
def readNeedleBlob (r : File) (offset : Nat) (size : Size) (version : Version) :
    Except NeedleError (List UInt8) :=
  let dataSize := getActualSize size version
  if dataSize < 0 then .error .outOfBounds
  else
    let (bytes, eof) := r.readAt dataSize.toNat offset
    if eof then .error .eof else .ok bytes

/-- `ReadData`: if the size does not match, the record is looked for 32 GiB further on. -/
def Needle.readData (n : Needle) (r : File) (offset : Nat) (size : Size) (version : Version) :
    ReadResult Needle := do
  let bytes ← (readNeedleBlob r offset size version).mapError (n, ·)
  match n.readBytes bytes offset size version with
  | .error (n, .sizeMismatch) =>
    let offset := offset + maxPossibleVolumeSize
    let bytes ← (readNeedleBlob r offset size version).mapError (n, ·)
    n.readBytes bytes offset size version
  | result => result

/-- `ReadNeedleHeader`: the needle and the length of its body. -/
def readNeedleHeader (r : File) (version : Version) (offset : Nat) :
    Except NeedleError (Needle × Int) :=
  let (bytes, eof) := r.readAt needleHeaderSize offset
  if eof then .error .eof
  else
    match ({} : Needle).parseNeedleHeader bytes with
    | .ok n => .ok (n, needleBodyLength n.size version)
    | .error (_, err) => .error err

/-- The part of `ReadNeedleBodyBytes` that reads what is before the tail. -/
def Needle.readBodyBefore (n : Needle) (needleBody : List UInt8) (version : Version) :
    ReadResult Needle := do
  let data ← sliceOf n needleBody 0 n.size.toInt
  if version = .v1 then return { n with data := data }
  else n.readNeedleDataVersion2 needleBody n.size.toInt.toNat

/-- `ReadNeedleBodyBytes`, of a needle whose header was read. -/
def Needle.readNeedleBodyBytes (n : Needle) (needleBody : List UInt8) (version : Version) :
    ReadResult Needle :=
  if needleBody.length = 0 then .ok n
  else do
    let n ← n.readBodyBefore needleBody version
    let tail ← sliceOf n needleBody n.size.toInt needleBody.length
    n.readNeedleTail tail version

/-- `ReadNeedleBody`. -/
def Needle.readNeedleBody (n : Needle) (r : File) (version : Version) (offset : Nat)
    (bodyLength : Int) : ReadResult Needle :=
  if bodyLength ≤ 0 then .ok n
  else
    let (bytes, eof) := r.readAt bodyLength.toNat offset
    if eof then .error (n, .eof) else n.readNeedleBodyBytes bytes version

end Storage
