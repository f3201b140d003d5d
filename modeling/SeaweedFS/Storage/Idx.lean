import SeaweedFS.Lib.File
import SeaweedFS.Storage.CompactMap

/-!
# `weed/storage/idx/walk.go`: the index file

The `.idx` file is a log of entries of 16 bytes. `WalkIndexFile` reads it in blocks of 1024 entries.
-/

namespace Storage

open Lib Util

/-- `ToBytes` of `needle_value.go`: an entry of the index file. -/
def toBytes (key : NeedleId) (offset : Offset) (size : Size) : List UInt8 :=
  needleIdToBytes key ++ offsetToBytes offset ++ uint32toBytes size.toUInt32

/-- `IdxFileEntry`. -/
def idxFileEntry (bytes : List UInt8) : NeedleId × Offset × Size :=
  (bytesToNeedleId (bytes.take needleIdSize),
    bytesToOffset ((bytes.drop needleIdSize).take offsetSize),
    bytesToSize ((bytes.drop (needleIdSize + offsetSize)).take sizeSize))

/-- `RowsToRead`. -/
def rowsToRead : Nat := 1024

section
variable {σ ε : Type} (fn : σ → NeedleId → Offset → Size → Except ε σ)

/-- The inner loop: `rows` entries of `bytes`. -/
def walkRows : Nat → List UInt8 → σ → Except ε σ
  | 0, _, s => .ok s
  | rows + 1, bytes, s => do
    let (key, offset, size) := idxFileEntry (bytes.take needleMapEntrySize)
    let s ← fn s key offset size
    walkRows rows (bytes.drop needleMapEntrySize) s

/-- The outer loop, with what the last `ReadAt` returned. A block takes at least one round less than
the fuel has left. -/
def walkLoop (r : File) : Nat → Nat → List UInt8 → Bool → σ → Except ε σ
  | 0, _, _, _, s => .ok s
  | fuel + 1, readerOffset, bytes, eof, s =>
    if bytes.length > 0 ∧ eof = false ∨ eof = true then do
      let rows := bytes.length / needleMapEntrySize
      let s ← walkRows fn rows bytes s
      -- the error of `fn`, which is `nil` here, has replaced `io.EOF` when there was an entry
      let eof := eof && rows == 0
      if eof then return s
      else
        let (bytes, eof) := File.readAt r (needleMapEntrySize * rowsToRead) readerOffset
        walkLoop r fuel (readerOffset + bytes.length) bytes eof s
    else return s

/-- `WalkIndexFile`, for a function that changes a state. -/
def walkIndexFile (r : File) (startFrom : Nat) (s : σ) : Except ε σ :=
  let readerOffset := startFrom * needleMapEntrySize
  let (bytes, eof) := File.readAt r (needleMapEntrySize * rowsToRead) readerOffset
  if bytes.length = 0 ∧ eof = true then .ok s
  else walkLoop fn r (r.length + 2) (readerOffset + bytes.length) bytes eof s

end

end Storage
