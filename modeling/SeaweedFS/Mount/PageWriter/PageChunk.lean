import SeaweedFS.Lib.Buffer
import SeaweedFS.Lib.File
import SeaweedFS.Mount.PageWriter.IntervalList

/-!
# `weed/mount/page_writer/page_chunk*.go`: page chunks

What was written to one chunk of a file and not saved yet, in memory (`MemChunk`) or in a slot of the swap file
that the chunks of a file share (`SwapFileChunk`). Offsets, `LogicChunkIndex` and `ActualChunkIndex` are natural
numbers. The timestamp of a read is only printed; it and the activity scores are left out.
-/

namespace PageWriter

open Lib

/-- `MemChunk`. -/
structure MemChunk where
  buf : List UInt8
  usage : ChunkWrittenIntervalList
  logicChunkIndex : Nat
deriving DecidableEq

/-- `SwapFile`. -/
structure SwapFile where
  file : File := []
  activeChunkCount : Int := 0
  freeActualChunkList : List Nat := []
deriving DecidableEq

/-- `SwapFileChunk`; the swap file is the pipeline's. -/
structure SwapFileChunk where
  usage : ChunkWrittenIntervalList
  logicChunkIndex : Nat
  actualChunkIndex : Nat
deriving DecidableEq

/-- `PageChunk`. -/
inductive PageChunk where
  | mem (mc : MemChunk)
  | swap (sc : SwapFileChunk)
deriving DecidableEq

/-- A call of the function that saves to the storage. -/
structure SaveToStorage where
  content : List UInt8
  offset : Nat
  size : Nat
  modifiedTsNs : Int64
deriving DecidableEq, Repr

/-! ## What both kinds do -/

/-- The loop of `ReadDataAt`: `fetch start len` reads from the chunk and says whether that failed. -/
def readIntervals (fetch : Nat → Nat → List UInt8 × Bool) (base off : Nat) :
    List ChunkWrittenInterval → List UInt8 → Int → List UInt8 × Int
  | [], p, maxStop => (p, maxStop)
  | t :: rest, p, maxStop =>
    let logicStart : Int := max off (base + t.startOffset.toInt)
    let logicStop : Int := min (off + p.length) (base + t.stopOffset.toInt)
    if logicStart < logicStop then
      let (bytes, failed) := fetch (logicStart - base).toNat (logicStop - logicStart).toNat
      let p := writeAt p (logicStart - off).toNat bytes
      if failed then (p, maxStop)
      else readIntervals fetch base off rest p (max maxStop logicStop)
    else readIntervals fetch base off rest p maxStop

/-- The inner loop of `SaveContent`: `t` takes in the intervals that begin where it ends. -/
def mergeAdjacent (t : ChunkWrittenInterval) : List ChunkWrittenInterval → List ChunkWrittenInterval
  | [] => [t]
  | next :: rest =>
    if next.startOffset == t.stopOffset then
      mergeAdjacent { t with stopOffset := next.stopOffset, tsNs := max t.tsNs next.tsNs } rest
    else t :: mergeAdjacent next rest

/-- The parts that `SaveContent` saves. -/
def savedParts : List ChunkWrittenInterval → List ChunkWrittenInterval
  | [] => []
  | t :: rest => mergeAdjacent t rest

/-! ## In memory -/

/-- `mem.Allocate`: a buffer of the pool, with what was in it. -/
def allocate (pooled : List UInt8) (size : Nat) : List UInt8 :=
  (pooled ++ List.replicate size 0).take size

/-- `NewMemChunk`. -/
def newMemChunk (pooled : List UInt8) (logicChunkIndex : Nat) (chunkSize : Nat) :
    MemChunk where
  buf := allocate pooled chunkSize
  usage := newChunkWrittenIntervalList
  logicChunkIndex := logicChunkIndex

namespace MemChunk

/-- `WriteDataAt`, with the number of bytes written. -/
def writeDataAt (chunkSize : Nat) (mc : MemChunk) (src : List UInt8) (offset : Nat) (tsNs : Int64) :
    Option (MemChunk × Nat) := do
  let innerOffset := offset % chunkSize
  let n := min (mc.buf.length - innerOffset) src.length
  let usage ← mc.usage.markWritten (.ofNat innerOffset) (.ofNat (innerOffset + n)) tsNs
  return ({ mc with buf := writeAt mc.buf innerOffset src, usage := usage }, n)

/-- The bytes of the buffer. -/
def fetch (mc : MemChunk) (start len : Nat) : List UInt8 × Bool :=
  (slice mc.buf start (start + len), false)

/-- `ReadDataAt`. -/
def readDataAt (chunkSize : Nat) (mc : MemChunk) (p : List UInt8) (off : Nat) : List UInt8 × Int :=
  readIntervals mc.fetch (mc.logicChunkIndex * chunkSize) off mc.usage.written p 0

/-- `SaveContent`. -/
def saveContent (chunkSize : Nat) (mc : MemChunk) : List SaveToStorage :=
  (savedParts mc.usage.written).map fun t =>
    let size := (t.stopOffset - t.startOffset).toInt.toNat
    { content := (mc.fetch t.startOffset.toInt.toNat size).1
      offset := mc.logicChunkIndex * chunkSize + t.startOffset.toInt.toNat
      size := size, modifiedTsNs := t.tsNs }

end MemChunk

/-! ## In the swap file -/

/-- `NewSwapFileChunk`: a slot that was freed, or the next one. -/
def SwapFile.newSwapFileChunk (sf : SwapFile) (logicChunkIndex : Nat) :
    SwapFile × SwapFileChunk :=
  let activeChunkCount := sf.activeChunkCount + 1
  match sf.freeActualChunkList with
  | actualChunkIndex :: rest =>
    ({ sf with activeChunkCount := activeChunkCount, freeActualChunkList := rest },
      { usage := newChunkWrittenIntervalList, logicChunkIndex := logicChunkIndex
        actualChunkIndex := actualChunkIndex })
  | [] =>
    ({ sf with activeChunkCount := activeChunkCount },
      { usage := newChunkWrittenIntervalList, logicChunkIndex := logicChunkIndex
        actualChunkIndex := activeChunkCount.toNat })

namespace SwapFileChunk

/-- `WriteDataAt`, with the number of bytes written. -/
def writeDataAt (chunkSize : Nat) (sf : SwapFile) (sc : SwapFileChunk) (src : List UInt8)
    (offset : Nat) (tsNs : Int64) : Option (SwapFile × SwapFileChunk × Nat) := do
  let innerOffset := offset % chunkSize
  let file := sf.file.writeAt src (sc.actualChunkIndex * chunkSize + innerOffset)
  let usage ← sc.usage.markWritten (.ofNat innerOffset) (.ofNat (innerOffset + src.length)) tsNs
  return ({ sf with file := file }, { sc with usage := usage }, src.length)

/-- The bytes of the slot. -/
def fetch (chunkSize : Nat) (sf : SwapFile) (sc : SwapFileChunk) (start len : Nat) :
    List UInt8 × Bool :=
  sf.file.readAt len (start + sc.actualChunkIndex * chunkSize)

/-- `ReadDataAt`. -/
def readDataAt (chunkSize : Nat) (sf : SwapFile) (sc : SwapFileChunk) (p : List UInt8) (off : Nat) :
    List UInt8 × Int :=
  readIntervals (sc.fetch chunkSize sf) (sc.logicChunkIndex * chunkSize) off sc.usage.written p 0

/-- `SaveContent`; a part of which nothing can be read is not saved. -/
def saveContent (chunkSize : Nat) (sf : SwapFile) (sc : SwapFileChunk) : List SaveToStorage :=
  (savedParts sc.usage.written).filterMap fun t =>
    let data := (sc.fetch chunkSize sf t.startOffset.toInt.toNat
      (t.stopOffset - t.startOffset).toInt.toNat).1
    if data.length > 0 then
      some { content := data
             offset := sc.logicChunkIndex * chunkSize + t.startOffset.toInt.toNat
             size := data.length, modifiedTsNs := t.tsNs }
    else none

/-- `FreeResource`. -/
def freeResource (sf : SwapFile) (sc : SwapFileChunk) : SwapFile :=
  { sf with freeActualChunkList := sf.freeActualChunkList ++ [sc.actualChunkIndex]
            activeChunkCount := sf.activeChunkCount - 1 }

end SwapFileChunk

/-! ## Either -/

namespace PageChunk

def usage : PageChunk → ChunkWrittenIntervalList
  | mem mc => mc.usage
  | swap sc => sc.usage

def logicChunkIndex : PageChunk → Nat
  | mem mc => mc.logicChunkIndex
  | swap sc => sc.logicChunkIndex

/-- `WriteDataAt`, with the number of bytes written. -/
def writeDataAt (chunkSize : Nat) (sf : SwapFile) (src : List UInt8) (offset : Nat) (tsNs : Int64) :
    PageChunk → Option (SwapFile × PageChunk × Nat)
  | mem mc => (mc.writeDataAt chunkSize src offset tsNs).map fun r => (sf, mem r.1, r.2)
  | swap sc => (sc.writeDataAt chunkSize sf src offset tsNs).map fun r => (r.1, swap r.2.1, r.2.2)

/-- `ReadDataAt`. -/
def readDataAt (chunkSize : Nat) (sf : SwapFile) (p : List UInt8) (off : Nat) :
    PageChunk → List UInt8 × Int
  | mem mc => mc.readDataAt chunkSize p off
  | swap sc => sc.readDataAt chunkSize sf p off

/-- `SaveContent`. -/
def saveContent (chunkSize : Nat) (sf : SwapFile) : PageChunk → List SaveToStorage
  | mem mc => mc.saveContent chunkSize
  | swap sc => sc.saveContent chunkSize sf

/-- `FreeResource`. The buffer of a `MemChunk` goes back to the pool. -/
def freeResource (sf : SwapFile) : PageChunk → SwapFile
  | mem _ => sf
  | swap sc => sc.freeResource sf

/-- `IsComplete`. -/
def isComplete (chunkSize : Nat) (c : PageChunk) : Bool := c.usage.isComplete (.ofNat chunkSize)

/-- `WrittenSize`. -/
def writtenSize (c : PageChunk) : Int64 := c.usage.writtenSize

end PageChunk

end PageWriter
