import SeaweedFS.Lib.Buffer
import SeaweedFS.Filer.FileChunk

/-!
# `weed/filer/reader_at.go`: reading a range through chunk views

`doReadAt` first walks along the views and notes which parts of the buffer are gaps and which come from a chunk,
then fills them. Fetching is a parameter. Tasks write to their own parts of the buffer in an order a `Schedule`
chooses. Prefetching into the reader cache changes nothing that is read and is left out.
-/

namespace Filer

open Lib

/-- The errors of a read: `io.EOF`, or the error of a fetch. -/
inductive ReadError where
  | eof
  | fetch (msg : String)
deriving DecidableEq

/-- `readChunkSliceAt` for a view, an offset within the chunk and the length of the buffer: the
bytes copied, and an error. -/
abbrev Fetch := ChunkView → Nat → Nat → List UInt8 × Option String

/-- The order in which things that run in parallel finish. -/
structure Schedule where
  run : {α : Type} → List α → List α
  perm : ∀ {α : Type} (l : List α), (run l).Perm l

/-- The order in which they were started. -/
def Schedule.inOrder : Schedule := ⟨fun l => l, fun _ => .refl _⟩

/-- `ReaderPattern`. -/
structure ReaderPattern where
  isSequentialCounter : Int := 0
  lastReadStopOffset : Int := 0

/-- `ModeChangeLimit`. -/
def modeChangeLimit : Int := 3

/-- `MonitorReadAt`. -/
def ReaderPattern.monitorReadAt (rp : ReaderPattern) (offset size : Int) : ReaderPattern :=
  let counter := rp.isSequentialCounter
  { lastReadStopOffset := offset + size
    isSequentialCounter :=
      if rp.lastReadStopOffset = offset then
        if counter < modeChangeLimit then counter + 1 else counter
      else if counter > -modeChangeLimit then counter - 1 else counter }

/-- `IsRandomMode`. -/
def ReaderPattern.isRandomMode (rp : ReaderPattern) : Bool := rp.isSequentialCounter < 0

/-- What a read leaves in the buffer, and what it returns. -/
structure ReadResult where
  buff : List UInt8
  n : Int := 0
  tsNs : Int := 0
  err : Option ReadError := none

/-- `chunkReadTask`. -/
structure ChunkReadTask where
  chunk : ChunkView
  bufferStart : Int
  bufferEnd : Int
  chunkOffset : Nat

/-- A gap of `doReadAt`. -/
structure Gap where
  start : Int
  length : Int

/-- The variables of the loop over the views. -/
structure Scan where
  tasks : List ChunkReadTask
  gaps : List Gap
  startOffset : Int
  remaining : Int

/-- The gap before a view, if there is one. -/
def Scan.gapBefore (s : Scan) (offset : Int) (chunk : ChunkView) : Scan :=
  if s.startOffset < chunk.viewOffset then
    let gap := chunk.viewOffset - s.startOffset
    { s with
      gaps := s.gaps ++ [⟨s.startOffset - offset, gap⟩]
      startOffset := chunk.viewOffset
      remaining := s.remaining - gap }
  else s

/-- The loop over the views. -/
def scanViews (offset : Int) : IntervalList ChunkView → Scan → Scan
  | [], s => s
  | x :: rest, s =>
    let chunk := x.value
    if s.remaining ≤ 0 then s
    else
      let s := s.gapBefore offset chunk
      if s.remaining ≤ 0 then s
      else
        let chunkStart := max chunk.viewOffset s.startOffset
        let chunkStop := min (chunk.viewOffset + int64 chunk.viewSize) (s.startOffset + s.remaining)
        if chunkStart ≥ chunkStop then scanViews offset rest s
        else
          let bufferOffset := chunkStart - chunk.viewOffset + chunk.offsetInChunk
          scanViews offset rest
            { s with
              tasks := s.tasks ++
                [{ chunk := chunk
                   bufferStart := s.startOffset - offset
                   bufferEnd := chunkStop - chunkStart + s.startOffset - offset
                   chunkOffset := uint64 bufferOffset }]
              startOffset := chunkStop
              remaining := s.remaining - (chunkStop - chunkStart) }

/-- `zero`: the buffer, and how many bytes were zeroed. -/
def zero (buffer : List UInt8) (start length : Int) : List UInt8 × Int :=
  if length ≤ 0 then (buffer, 0)
  else
    let stop := min (start + length) buffer.length
    let start := max start 0
    (writeAt buffer start.toNat (List.replicate (stop - start).toNat 0), stop - start)

/-- Zero-fills the gaps. -/
def zeroGaps : List Gap → ReadResult → ReadResult
  | [], r => r
  | gap :: gaps, r =>
    let z := zero r.buff gap.start gap.length
    zeroGaps gaps { r with buff := z.1, n := r.n + z.2 }

/-- The fetch of a task. -/
def ChunkReadTask.fetch (fetch : Fetch) (task : ChunkReadTask) : List UInt8 × Option String :=
  fetch task.chunk task.chunkOffset (task.bufferEnd - task.bufferStart).toNat

/-- One task after the other, up to the first error. -/
def readTasks (fetch : Fetch) : List ChunkReadTask → ReadResult → ReadResult
  | [], r => r
  | task :: tasks, r =>
    let (copied, readErr) := task.fetch fetch
    let r :=
      { r with
        buff := writeAt r.buff task.bufferStart.toNat copied
        n := r.n + copied.length
        tsNs := max r.tsNs task.chunk.modifiedTsNs }
    match readErr with
    | some msg => { r with err := some (.fetch msg) }
    | none => readTasks fetch tasks r

/-- All tasks in parallel. The error is the one of the first task that fails. -/
def readTasksParallel (sched : Schedule) (fetch : Fetch) (tasks : List ChunkReadTask)
    (r : ReadResult) : ReadResult :=
  let done := sched.run tasks
  { buff := writes r.buff (done.map fun task => (task.bufferStart.toNat, (task.fetch fetch).1))
    n := tasks.foldl (fun n task => n + (task.fetch fetch).1.length) r.n
    tsNs := tasks.foldl (fun ts task => max ts task.chunk.modifiedTsNs) r.tsNs
    err := (done.findSome? fun task => (task.fetch fetch).2).map .fetch }

/-- Zeroes the remaining bytes if a gap exists at the end. -/
def Scan.zeroTail (s : Scan) (offset fileSize : Int) (r : ReadResult) : ReadResult :=
  if s.remaining > 0 ∧ fileSize ≥ s.startOffset then
    let delta := min s.remaining (fileSize - s.startOffset)
    if delta > 0 then
      let z := zero r.buff (s.startOffset - offset) delta
      { r with buff := z.1, n := r.n + z.2 }
    else r
  else r

/-- `ChunkReadAt`. -/
structure ChunkReadAt where
  chunkViews : IntervalList ChunkView
  fileSize : Int
  readerPattern : ReaderPattern := {}

/-- `doReadAt`. -/
def ChunkReadAt.doReadAt (c : ChunkReadAt) (sched : Schedule) (fetch : Fetch) (p : List UInt8)
    (offset : Int) : ReadResult :=
  let s := scanViews offset c.chunkViews ⟨[], [], offset, p.length⟩
  let r := zeroGaps s.gaps { buff := p }
  let r :=
    if s.tasks.length ≤ 1 ∨ c.readerPattern.isRandomMode then readTasks fetch s.tasks r
    else readTasksParallel sched fetch s.tasks r
  match r.err with
  | some _ => r
  | none =>
    let r := s.zeroTail offset c.fileSize r
    if offset + p.length ≥ c.fileSize then { r with err := some .eof } else r

/-- `ReadAtWithTime`. -/
def ChunkReadAt.readAtWithTime (c : ChunkReadAt) (sched : Schedule) (fetch : Fetch)
    (p : List UInt8) (offset : Int) : ChunkReadAt × ReadResult :=
  let c := { c with readerPattern := c.readerPattern.monitorReadAt offset p.length }
  (c, c.doReadAt sched fetch p offset)

end Filer
