import Mathlib.Data.UInt

/-!
# `weed/mq/kafka/protocol/flexible_versions.go`: compact strings

The length of a compact string is an unsigned varint of at most ten bytes, one more than the number of bytes
that follow it. It is converted to a Go `int` before it is compared with the bytes that there are.
-/

namespace Mq.Kafka

/-- A slice expression is out of range. -/
inductive Panic where
  | sliceBounds
deriving DecidableEq

/-- The loop of `decodeUnsignedVarint` from the byte `i` on, where the shift is `7 * i`. -/
def decodeLoop (i : Nat) (result : UInt64) : List UInt8 → UInt64 × Nat
  | [] => (0, 0)
  | b :: data =>
    if i > 9 then (0, 0)
    else
      let result := result ||| (b &&& 0x7f).toUInt64 <<< (7 * i).toUInt64
      if b &&& 0x80 = 0 then (result, i + 1) else decodeLoop (i + 1) result data

/-- `decodeUnsignedVarint`: the value and the number of its bytes, `0` for none. -/
def decodeUnsignedVarint (data : List UInt8) : UInt64 × Nat := decodeLoop 0 0 data

/-- `data[low:high]`, of a `high` that is at most the length. -/
def sliceOf (data : List UInt8) (low high : Int64) : Except Panic (List UInt8) :=
  if 0 ≤ low ∧ low ≤ high then .ok ((data.take high.toNatClampNeg).drop low.toNatClampNeg)
  else .error .sliceBounds

/-- `parseCompactString`: the bytes, `none` for nil, and how many bytes were consumed. -/
def parseCompactString (data : List UInt8) : Except Panic (Option (List UInt8) × Int64) :=
  if data = [] then .ok (none, 0)
  else
  let (length, read) := decodeUnsignedVarint data
  let consumed := Int64.ofNat read
  if consumed = 0 then .ok (none, 0)
  else if length = 0 then .ok (none, consumed)
  else
    let actualLength := (length - 1).toInt64
    if actualLength < 0 then .ok (none, 0)
    else if actualLength = 0 then .ok (some [], consumed)
    else if consumed + actualLength > Int64.ofNat data.length then .ok (none, 0)
    else do
      let result ← sliceOf data consumed (consumed + actualLength)
      return (some result, consumed + actualLength)

end Mq.Kafka
