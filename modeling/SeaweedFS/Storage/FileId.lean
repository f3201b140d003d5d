import SeaweedFS.Util.Bytes

/-!
# `weed/storage/needle/file_id.go`: the printed form of a file id

`"<volume id>,<needle id><cookie>"`, the id and the cookie in hexadecimal without the leading zero
bytes of the id.
-/

namespace Storage

open Util

/-- A file id: the volume, the needle's key in it and its cookie. -/
structure FileId where
  volumeId : UInt32
  key : UInt64
  cookie : UInt32
deriving DecidableEq, Repr

/-- A lower case hexadecimal digit. -/
def hexDigit (n : Nat) : Char := (['0', '1', '2', '3', '4', '5', '6', '7', '8', '9',
  'a', 'b', 'c', 'd', 'e', 'f'].getD n '0')

/-- `hex.EncodeToString`. -/
def hexEncodeToString (bytes : List UInt8) : String :=
  String.ofList (bytes.flatMap fun b => [hexDigit (b.toNat / 16), hexDigit (b.toNat % 16)])

/-- `formatNeedleIdCookie`: at most the eight bytes of the id are skipped. -/
def formatNeedleIdCookie (key : UInt64) (cookie : UInt32) : String :=
  let bytes := uint64toBytes key ++ uint32toBytes cookie
  let nonzeroIndex := ((bytes.take 8).takeWhile (· == 0)).length
  hexEncodeToString (bytes.drop nonzeroIndex)

/-- `FileId.String`. -/
def FileId.string (n : FileId) : String :=
  toString n.volumeId.toNat ++ "," ++ formatNeedleIdCookie n.key n.cookie

end Storage
