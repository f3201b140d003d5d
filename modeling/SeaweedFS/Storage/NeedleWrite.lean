import SeaweedFS.Lib.Buffer
import SeaweedFS.Lib.File
import SeaweedFS.Storage.Needle

/-!
# `weed/storage/needle/needle_write*.go`: writing a needle

The writers fill a scratch slice `header` again and again and write parts of it to a buffer; the
padding is whatever the scratch slice still holds. `WriteBuffer` is the two of them.
-/

namespace Storage

open Lib Util

/-- The scratch slice and the bytes written so far. -/
structure WriteBuffer where
  header : List UInt8
  out : List UInt8 := []

namespace WriteBuffer

/-- `bs` is put into `header[0:len(bs)]`, and `header[start:len(bs)]` is written. -/
def field (b : WriteBuffer) (bs : List UInt8) (start : Nat := 0) : WriteBuffer :=
  let header := Lib.writeAt b.header 0 bs
  { header := header, out := b.out ++ slice header start bs.length }

/-- `bytesBuffer.Write`. -/
def write (b : WriteBuffer) (bs : List UInt8) : WriteBuffer := { b with out := b.out ++ bs }

/-- `bs` is put into `header[0:len(bs)]`, and `header[0:len(bs)+padding]` is written. -/
def footer (b : WriteBuffer) (bs : List UInt8) (padding : Size) : Except NeedleError WriteBuffer :=
  let header := Lib.writeAt b.header 0 bs
  let stop : Int := bs.length + padding.toInt
  if 0 ≤ stop ∧ stop ≤ header.length then
    .ok { header := header, out := b.out ++ slice header 0 stop.toNat }
  else .error .outOfBounds

end WriteBuffer

/-- The result of a writer: the needle with its sizes set, the bytes, the returned sizes. -/
structure Written where
  needle : Needle
  bytes : List UInt8
  size : Size
  actualSize : Int
deriving DecidableEq, Repr

/-- The header of a needle. -/
def Needle.header (n : Needle) : List UInt8 :=
  cookieToBytes n.cookie ++ needleIdToBytes n.id ++ sizeToBytes n.size

/-- The `Size` that `writeNeedleCommon` computes, once the sizes of the fields are set. -/
def Needle.commonSize (n : Needle) : Size :=
  if n.dataSize > 0 then
    let size : Size := 4 + n.dataSize.toInt32 + 1
    let size := if n.hasName then size + 1 + n.nameSize.toUInt32.toInt32 else size
    let size := if n.hasMime then size + 1 + n.mimeSize.toUInt32.toInt32 else size
    let size := if n.hasLastModifiedDate then size + 5 else size
    let size := if n.hasTtl then size + 2 else size
    if n.hasPairs then size + (2 + n.pairsSize.toUInt32.toInt32) else size
  else 0

/-- What `writeNeedleCommon` sets in the needle. -/
def Needle.sized (n : Needle) : Needle :=
  let n := { n with
    nameSize := if n.name.length ≥ 255 then 255 else UInt8.ofNat n.name.length
    dataSize := UInt32.ofNat n.data.length
    mimeSize := UInt8.ofNat n.mime.length }
  { n with size := n.commonSize }

/-- The body, written if there is data. -/
def writeNeedleBody (n : Needle) (b : WriteBuffer) : WriteBuffer :=
  let b := (b.field (uint32toBytes n.dataSize)).write n.data
  let b := b.field [n.flags]
  let b := if n.hasName then (b.field [n.nameSize]).write (n.name.take n.nameSize.toNat) else b
  let b := if n.hasMime then (b.field [n.mimeSize]).write n.mime else b
  let b := if n.hasLastModifiedDate then
      b.field (uint64toBytes n.lastModified) (8 - lastModifiedBytesLength)
    else b
  let b := match n.ttl with
    | some ttl => if n.hasTtl then b.field ttl.toBytes else b
    | none => b
  if n.hasPairs then (b.field (uint16toBytes n.pairsSize)).write n.pairs else b

/-- `writeNeedleCommon`. -/
def writeNeedleCommon (n : Needle) (version : Version)
    (writeFooter : Needle → WriteBuffer → Size → Except NeedleError WriteBuffer) :
    Except NeedleError Written := do
  let n := n.sized
  let b : WriteBuffer := { header := List.replicate (needleHeaderSize + timestampSize) 0 }
  let b := b.field n.header
  let b := if n.dataSize > 0 then writeNeedleBody n b else b
  let b ← writeFooter n b (paddingLength n.size version)
  return { needle := n, bytes := b.out, size := n.dataSize.toInt32,
           actualSize := getActualSize n.size version }

/-- `writeNeedleV1`. -/
def writeNeedleV1 (n : Needle) : Except NeedleError Written := do
  let n := { n with size := Int32.ofNat n.data.length }
  let b : WriteBuffer := { header := List.replicate needleHeaderSize 0 }
  let b := (b.field n.header).write n.data
  let b ← b.footer (uint32toBytes n.checksum) (paddingLength n.size .v1)
  return { needle := n, bytes := b.out, size := n.size,
           actualSize := needleHeaderSize + n.size.toInt }

/-- `writeNeedleV2`. -/
def writeNeedleV2 (n : Needle) : Except NeedleError Written :=
  writeNeedleCommon n .v2 fun n b padding => b.footer (uint32toBytes n.checksum) padding

/-- `writeNeedleV3`. -/
def writeNeedleV3 (n : Needle) : Except NeedleError Written :=
  writeNeedleCommon n .v3 fun n b padding =>
    b.footer (uint32toBytes n.checksum ++ uint64toBytes n.appendAtNs) padding

/-- `writeNeedleByVersion`. -/
def writeNeedleByVersion (version : Version) (n : Needle) : Except NeedleError Written :=
  match version with
  | .v1 => writeNeedleV1 n
  | .v2 => writeNeedleV2 n
  | .v3 => writeNeedleV3 n

/-- `Needle.Append`: the new file, the offset of the record, and what was written. On an error the
file is as before. -/
def Needle.append (n : Needle) (w : File) (version : Version) :
    Except NeedleError (File × Nat × Written) := do
  let offset := List.length w
  if offset ≥ maxPossibleVolumeSize ∧ n.data.length ≠ 0 then
    throw (.volumeSizeExceeded offset maxPossibleVolumeSize)
  let written ← writeNeedleByVersion version n
  return (w.writeAt written.bytes offset, offset, written)

/-- The blob as `WriteNeedleBlob` writes it: in version 3 the time of the append is put in. -/
def stampBlob (dataSlice : List UInt8) (size : Size) (appendAtNs : UInt64) (version : Version) :
    Except NeedleError (List UInt8) :=
  if version = .v3 then
    let tsOffset : Int := needleHeaderSize + size.toInt + needleChecksumSize
    if tsOffset < 0 then .error (.negativeTimestampOffset size tsOffset)
    else if tsOffset + timestampSize > dataSlice.length then
      .error (.blobTooSmall (tsOffset + timestampSize) dataSlice.length)
    else .ok (Lib.writeAt dataSlice tsOffset.toNat (uint64toBytes appendAtNs))
  else .ok dataSlice

/-- `needle.WriteNeedleBlob`: the new file and the offset of the blob. -/
def writeNeedleBlob (w : File) (dataSlice : List UInt8) (size : Size) (appendAtNs : UInt64)
    (version : Version) : Except NeedleError (File × Nat) := do
  let offset := List.length w
  let dataSlice ← stampBlob dataSlice size appendAtNs version
  return (w.writeAt dataSlice offset, offset)

end Storage
