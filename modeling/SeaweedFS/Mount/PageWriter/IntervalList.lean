import SeaweedFS.Lib.LinkedList

/-!
# `weed/mount/page_writer/chunk_interval_list.go`: what was written of a page chunk

A doubly linked list of intervals between two sentinels. The intervals that were allocated are cells of a
heap, with the links `prev` and `next`; `none` stands for the panic of a nil link.
-/

namespace PageWriter

open Lib

/-- `ChunkWrittenInterval`, without its links. -/
structure ChunkWrittenInterval where
  startOffset : Int64
  stopOffset : Int64
  tsNs : Int64 := 0
deriving DecidableEq, Repr

namespace ChunkWrittenInterval

/-- `Size`. -/
def size (interval : ChunkWrittenInterval) : Int64 := interval.stopOffset - interval.startOffset

/-- `isComplete`. -/
def isComplete (interval : ChunkWrittenInterval) (chunkSize : Int64) : Bool :=
  interval.stopOffset - interval.startOffset == chunkSize

end ChunkWrittenInterval

/-- `ChunkWrittenIntervalList`. -/
structure ChunkWrittenIntervalList where
  heap : Heap ChunkWrittenInterval
  head : Nat
  tail : Nat
deriving DecidableEq

/-- `newChunkWrittenIntervalList`. -/
def newChunkWrittenIntervalList : ChunkWrittenIntervalList where
  heap := Heap.link [{ val := { startOffset := -1, stopOffset := -1 } },
    { val := { startOffset := Int64.maxValue, stopOffset := Int64.maxValue } }] 0 1
  head := 0
  tail := 1

namespace ChunkWrittenIntervalList

/-- The first loop of `addInterval`: forward from `p`, over the intervals that end by `startOffset`. -/
def skipBefore (heap : Heap ChunkWrittenInterval) (startOffset : Int64) : Nat → Nat → Option Nat
  | 0, _ => none
  | fuel + 1, p =>
    match heap.next p with
    | none => some p
    | some next => do
      if (← heap.val next).stopOffset ≤ startOffset then skipBefore heap startOffset fuel next
      else return p

/-- The second loop: backward from `q`, over the intervals that begin from `stopOffset` on. -/
def skipBehind (heap : Heap ChunkWrittenInterval) (stopOffset : Int64) : Nat → Nat → Option Nat
  | 0, _ => none
  | fuel + 1, q =>
    match heap.prev q with
    | none => some q
    | some prev => do
      if (← heap.val prev).startOffset ≥ stopOffset then skipBehind heap stopOffset fuel prev
      else return q

/-- The left side: `interval` is linked behind `p`, or behind what stays of `pNext`. -/
def linkLeft (heap : Heap ChunkWrittenInterval) (p interval : Nat)
    (pNext new : ChunkWrittenInterval) : Heap ChunkWrittenInterval :=
  if pNext.startOffset < new.startOffset then
    let t := heap.length
    let heap := heap.alloc
      { startOffset := pNext.startOffset, stopOffset := new.startOffset, tsNs := pNext.tsNs }
    (heap.link p t).link t interval
  else heap.link p interval

/-- The right side: `interval` is linked before `q`, or before what stays of `qPrev`. -/
def linkRight (heap : Heap ChunkWrittenInterval) (q interval : Nat)
    (qPrev new : ChunkWrittenInterval) : Heap ChunkWrittenInterval :=
  if new.stopOffset < qPrev.stopOffset then
    let t := heap.length
    let heap := heap.alloc
      { startOffset := new.stopOffset, stopOffset := qPrev.stopOffset, tsNs := qPrev.tsNs }
    (heap.link t q).link interval t
  else heap.link interval q

/-- `addInterval`, of an interval at the address `interval`. -/
def addInterval (list : ChunkWrittenIntervalList) (interval : Nat) :
    Option ChunkWrittenIntervalList := do
  let new ← list.heap.val interval
  let p ← skipBefore list.heap new.startOffset list.heap.length list.head
  let q ← skipBehind list.heap new.stopOffset list.heap.length list.tail
  let heap := linkLeft list.heap p interval (← list.heap.val (← list.heap.next p)) new
  let heap := linkRight heap q interval (← heap.val (← heap.prev q)) new
  return { list with heap := heap }

/-- `MarkWritten`. -/
def markWritten (list : ChunkWrittenIntervalList) (startOffset stopOffset tsNs : Int64) :
    Option ChunkWrittenIntervalList :=
  if startOffset ≥ stopOffset then some list
  else
    let heap := list.heap.alloc { startOffset := startOffset, stopOffset := stopOffset, tsNs := tsNs }
    addInterval { list with heap := heap } list.heap.length

/-- The intervals from the cell `t` on. -/
def walk (heap : Heap ChunkWrittenInterval) : Nat → Option Nat → List ChunkWrittenInterval
  | 0, _ | _, none => []
  | fuel + 1, some t => (heap.val t).toList ++ walk heap fuel (heap.next t)

/-- The intervals of the list, with the sentinels. -/
def all (list : ChunkWrittenIntervalList) : List ChunkWrittenInterval :=
  walk list.heap list.heap.length (some list.head)

/-- The intervals of a loop from `head.next` to `tail`. -/
def written (list : ChunkWrittenIntervalList) : List ChunkWrittenInterval := list.all.tail.dropLast

/-- `size`. -/
def size (list : ChunkWrittenIntervalList) : Int := list.all.length - 2

/-- `IsComplete`. -/
def isComplete (list : ChunkWrittenIntervalList) (chunkSize : Int64) : Bool :=
  list.size == 1 && list.all.tail.head?.any fun interval => interval.isComplete chunkSize

/-- `WrittenSize`. -/
def writtenSize (list : ChunkWrittenIntervalList) : Int64 :=
  list.all.foldl (fun writtenByteCount t => writtenByteCount + t.size) 0

end ChunkWrittenIntervalList

end PageWriter
