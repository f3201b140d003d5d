import SeaweedFS.Lib.SortFunc
import SeaweedFS.Filer.FileChunk

/-!
# `weed/filer/filechunks_read.go`: resolving chunks by a sweep

Every chunk gives a start and a stop point. The points are sorted by position, then time stamp, then stops
before starts, and swept from the left. `queue` holds the start points of chunks the sweep is in, newer ones to
the back; `prevX` is where the part shown by the back begins.
-/

namespace Filer

open Lib

/-- `Point`. -/
structure Point where
  x : Int
  ts : Int
  chunk : FileChunk
  isStart : Bool
deriving DecidableEq

/-- The start point of a chunk. -/
@[simps x ts isStart] def startPoint (chunk : FileChunk) : Point := ⟨chunk.offset, chunk.modifiedTsNs, chunk, true⟩

/-- The stop point of a chunk. -/
@[simps x ts isStart] def stopPoint (chunk : FileChunk) : Point := ⟨chunk.stop, chunk.modifiedTsNs, chunk, false⟩

/-- The points of the chunks that have a byte in `[startOffset, stopOffset)`. -/
def pointsOf (chunks : List FileChunk) (startOffset stopOffset : Int) : List Point :=
  chunks.flatMap fun chunk =>
    if max chunk.offset startOffset ≥ min chunk.stop stopOffset then []
    else [startPoint chunk, stopPoint chunk]

/-- The comparison given to `slices.SortFunc`. -/
def pointCmp (a b : Point) : Int :=
  if a.x ≠ b.x then int64 (a.x - b.x)
  else if a.ts ≠ b.ts then int64 (a.ts - b.ts)
  else if a.isStart then 1
  else if b.isStart then -1
  else 0

/-- `addToVisibles`: `[prevX, point.x)` shows the chunk of `startPoint`. -/
def addToVisibles (visibles : IntervalList VisibleInterval) (prevX : Int)
    (startPoint point : Point) : IntervalList VisibleInterval :=
  if prevX < point.x then
    let chunk := startPoint.chunk
    visibles.appendInterval
      { startOffset := prevX
        stopOffset := point.x
        tsNs := chunk.modifiedTsNs
        value :=
          { start := prevX
            stop := point.x
            fileId := chunk.getFileIdString
            modifiedTsNs := chunk.modifiedTsNs
            offsetInChunk := prevX - chunk.offset
            chunkSize := chunk.size
            cipherKey := chunk.cipherKey
            isGzipped := chunk.isCompressed } }
  else visibles

/-- Inserts `point` before the first newer element; when none is newer it is not inserted. -/
def insertBeforeNewer (point : Point) : List Point → List Point
  | [] => []
  | e :: es => if e.ts > point.ts then point :: e :: es else e :: insertBeforeNewer point es

/-- Removes the first element with time stamp `ts`, seen from the back (the list is back to front). The flag is
`isLast`. -/
def removeFromBack (ts : Int) : List Point → Bool × List Point
  | [] => (true, [])
  | e :: es => if e.ts = ts then (true, es) else (false, e :: (removeFromBack ts es).2)

/-- The variables of the sweep. -/
structure Sweep where
  prevX : Int
  queue : List Point
  visibles : IntervalList VisibleInterval

def Sweep.init : Sweep := ⟨0, [], []⟩

/-- The body of the loop at a start point. -/
def Sweep.start (s : Sweep) (point : Point) : Sweep :=
  match s.queue.getLast? with
  | none => { s with queue := s.queue ++ [point], prevX := point.x }
  | some prevPoint =>
    let s1 : Sweep :=
      if point.x ≠ s.prevX ∧ prevPoint.ts < point.ts then
        { s with
          visibles := addToVisibles s.visibles s.prevX prevPoint point
          prevX := point.x }
      else s
    if prevPoint.ts < point.ts then { s1 with queue := s1.queue ++ [point], prevX := point.x }
    else { s1 with queue := insertBeforeNewer point s1.queue }

/-- The body of the loop at a stop point. -/
def Sweep.stop (s : Sweep) (point : Point) : Sweep :=
  let r := removeFromBack point.ts s.queue.reverse
  let s1 : Sweep := { s with queue := r.2.reverse }
  match s.queue.getLast? with
  | some prevPoint =>
    if r.1 then
      { s1 with
        visibles := addToVisibles s1.visibles s1.prevX prevPoint point
        prevX := point.x }
    else s1
  | none => s1

/-- One turn of the sweep. -/
def Sweep.step (s : Sweep) (point : Point) : Sweep :=
  if point.isStart then s.start point else s.stop point

/-- The sweep over sorted points. -/
def sweep (points : List Point) : Sweep := points.foldl Sweep.step Sweep.init

/-- `readResolvedChunks`. -/
def readResolvedChunks (S : SortFunc Point) (chunks : List FileChunk)
    (startOffset stopOffset : Int) : IntervalList VisibleInterval :=
  (sweep (S.sort pointCmp (pointsOf chunks startOffset stopOffset))).visibles

end Filer
