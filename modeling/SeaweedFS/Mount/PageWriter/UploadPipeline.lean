import SeaweedFS.Lib.Interleaving
import SeaweedFS.Lib.SortedMap
import SeaweedFS.Mount.PageWriter.PageChunk

/-!
# `weed/mount/page_writer/upload_pipeline*.go`: the upload pipeline of a file

Writes go to writable chunks, one for each index. A sealed chunk is saved by an uploading job and removed when no
reader holds the index. What runs under one hold of `chunksLock` is one `Step`; `moveToSealed` gives the lock up
while it submits the job, so that a `SaveDataAt` that has to seal another chunk is two steps, with the call in
`waiting` between them. Sealed chunks stand in `generations`, at the address by which a job knows them.
-/

namespace PageWriter

open Lib

/-- `SealedChunk`, with the index of its job and how far the job is. -/
structure SealedChunk where
  chunk : PageChunk
  logicChunkIndex : Nat
  referenceCounter : Int := 1
  /-- `SaveContent` has returned. -/
  saved : Bool := false
  /-- The job has come to its end. -/
  finished : Bool := false
  /-- The number of calls of `FreeResource` on `chunk`. -/
  freed : Nat := 0
deriving DecidableEq

/-- A call of `SaveDataAt`. -/
structure SaveCall where
  p : List UInt8
  off : Nat
  isSequential : Bool
  tsNs : Int64
deriving DecidableEq, Repr

/-- What a step meets outside the pipeline: the order of a map, the number of the process's `MemChunk`s, and the
buffer of the pool. -/
structure Surroundings where
  order : List (Nat × PageChunk) → List (Nat × PageChunk)
  memChunkCounter : Int
  pooled : List UInt8

/-- `UploadPipeline`. -/
structure UploadPipeline where
  chunkSize : Nat
  chunkSize_pos : 0 < chunkSize
  chunkSize_lt : chunkSize < 2 ^ 63
  writableChunkLimit : Nat
  swapFile : SwapFile := {}
  writableChunks : SortedMap Nat PageChunk := .empty
  sealedChunks : SortedMap Nat Nat := .empty
  activeReadChunks : SortedMap Nat Nat := .empty
  /-- Every chunk that was sealed. -/
  generations : List SealedChunk := []
  /-- The calls that wait for `chunksLock` behind `moveToSealed`. -/
  waiting : List SaveCall := []
  /-- What was saved to the storage. -/
  stored : List SaveToStorage := []

/-- `NewUploadPipeline`. -/
def newUploadPipeline (chunkSize bufferChunkLimit : Nat) (hpos : 0 < chunkSize)
    (hlt : chunkSize < 2 ^ 63) : UploadPipeline where
  chunkSize := chunkSize
  chunkSize_pos := hpos
  chunkSize_lt := hlt
  writableChunkLimit := bufferChunkLimit

/-- What a step did that a reader of the file should see: bytes were written, a chunk was sealed. -/
inductive Event where
  | wrote (off : Nat) (bytes : List UInt8)
  | sealed (logicChunkIndex : Nat) (generation : Nat)
deriving DecidableEq, Repr

/-- What is done under one hold of `chunksLock`, and the save of a job, which needs no lock. -/
inductive Step where
  | save (call : SaveCall) (env : Surroundings)
  | resume (k : Nat) (env : Surroundings)
  | flush (logicChunkIndex : Nat)
  | saveContent (generation : Nat)
  | finish (generation : Nat)
  | lockForRead (startOffset stopOffset : Nat)
  | unlockForRead (startOffset stopOffset : Nat)

namespace UploadPipeline

/-- `LogicChunkIndex(off / up.ChunkSize)`. -/
def indexOf (up : UploadPipeline) (off : Nat) : Nat := off / up.chunkSize

/-! ## Sealing -/

/-- `FreeReference` of the sealed chunk at an address. -/
def freeReference (up : UploadPipeline) (generation : Nat) : UploadPipeline :=
  match up.generations[generation]? with
  | none => up
  | some sc =>
    let sc := { sc with referenceCounter := sc.referenceCounter - 1 }
    if sc.referenceCounter = 0 then
      { up with generations := up.generations.set generation { sc with freed := sc.freed + 1 }
                swapFile := sc.chunk.freeResource up.swapFile }
    else { up with generations := up.generations.set generation sc }

/-- The beginning of `moveToSealed`: a sealed chunk of the same index is given up. -/
def replaceSealed (up : UploadPipeline) (logicChunkIndex : Nat) : UploadPipeline :=
  match up.sealedChunks.get logicChunkIndex with
  | some oldMemChunk => up.freeReference oldMemChunk
  | none => up

/-- `moveToSealed`, up to the submission of the job. -/
def moveToSealed (up : UploadPipeline) (memChunk : PageChunk) (logicChunkIndex : Nat) :
    UploadPipeline × List Event :=
  let up := up.replaceSealed logicChunkIndex
  let generation := up.generations.length
  ({ up with
      generations := up.generations ++ [{ chunk := memChunk, logicChunkIndex := logicChunkIndex }]
      sealedChunks := up.sealedChunks.insert logicChunkIndex generation
      writableChunks := up.writableChunks.erase logicChunkIndex },
    [.sealed logicChunkIndex generation])

/-- `maybeMoveToSealed`. -/
def maybeMoveToSealed (up : UploadPipeline) (memChunk : PageChunk)
    (logicChunkIndex : Nat) : UploadPipeline × List Event :=
  if memChunk.isComplete up.chunkSize then up.moveToSealed memChunk logicChunkIndex else (up, [])

/-! ## Writing -/

/-- The fullest chunk, in the order of the walk; `none` for the index -1. -/
def fullest (chunks : List (Nat × PageChunk)) : Option Nat :=
  (chunks.foldl (fun (candidate : Option Nat × Int64) c =>
    let chunkFullness := c.2.writtenSize
    if candidate.2 < chunkFullness then (some c.1, chunkFullness) else candidate) (none, 0)).1

/-- The end of `SaveDataAt`: the write, and the seal of a chunk that it completes. -/
def writeTo (up : UploadPipeline) (pageChunk : PageChunk) (call : SaveCall) :
    Option (UploadPipeline × List Event) := do
  let (swapFile, pageChunk, n) ←
    pageChunk.writeDataAt up.chunkSize up.swapFile call.p call.off call.tsNs
  let logicChunkIndex := up.indexOf call.off
  let up := { up with swapFile := swapFile
                      writableChunks := up.writableChunks.insert logicChunkIndex pageChunk }
  let (up, events) := up.maybeMoveToSealed pageChunk logicChunkIndex
  return (up, .wrote call.off (call.p.take n) :: events)

/-- Whether a new chunk for the call is one in memory. -/
def inMemory (up : UploadPipeline) (call : SaveCall) (env : Surroundings) : Bool :=
  call.isSequential && decide (up.writableChunks.entries.length < up.writableChunkLimit) &&
    decide (env.memChunkCounter < 4 * up.writableChunkLimit)

/-- The middle of `SaveDataAt`: a new chunk for the call. -/
def createAndWrite (up : UploadPipeline) (call : SaveCall) (env : Surroundings) :
    Option (UploadPipeline × List Event) :=
  let logicChunkIndex := up.indexOf call.off
  if up.inMemory call env then
    up.writeTo (.mem (newMemChunk env.pooled logicChunkIndex up.chunkSize)) call
  else
    let (swapFile, pageChunk) := up.swapFile.newSwapFileChunk logicChunkIndex
    { up with swapFile := swapFile }.writeTo (.swap pageChunk) call

/-- `SaveDataAt`, up to where it gives up the lock. Without a chunk to seal it seals a nil chunk, and the job
panics. -/
def saveDataAt (up : UploadPipeline) (call : SaveCall) (env : Surroundings) :
    Option (UploadPipeline × List Event) :=
  match up.writableChunks.get (up.indexOf call.off) with
  | some pageChunk => up.writeTo pageChunk call
  | none =>
    if up.writableChunks.entries.length > up.writableChunkLimit then do
      let candidateChunkIndex ← fullest (env.order up.writableChunks.entries)
      let memChunk ← up.writableChunks.get candidateChunkIndex
      let (up, events) := up.moveToSealed memChunk candidateChunkIndex
      return ({ up with waiting := up.waiting ++ [call] }, events)
    else up.createAndWrite call env

/-- `SaveDataAt`, from where it has the lock again. -/
def resume (up : UploadPipeline) (k : Nat) (env : Surroundings) :
    Option (UploadPipeline × List Event) := do
  let call ← up.waiting[k]?
  { up with waiting := up.waiting.eraseIdx k }.createAndWrite call env

/-- An iteration of `flushChunks`. -/
def flush (up : UploadPipeline) (logicChunkIndex : Nat) :
    Option (UploadPipeline × List Event) := do
  let memChunk ← up.writableChunks.get logicChunkIndex
  return up.moveToSealed memChunk logicChunkIndex

/-! ## The uploading job -/

/-- `SaveContent` of the job. -/
def saveContent (up : UploadPipeline) (generation : Nat) : Option UploadPipeline := do
  let sc ← up.generations[generation]?
  if sc.saved then none
  else
    return { up with
      stored := up.stored ++ sc.chunk.saveContent up.chunkSize up.swapFile
      generations := up.generations.set generation { sc with saved := true } }

/-- `IsLocked`. -/
def isLocked (up : UploadPipeline) (logicChunkIndex : Nat) : Bool :=
  (up.activeReadChunks.get logicChunkIndex).any (0 < ·)

/-- The end of the job. -/
def finish (up : UploadPipeline) (generation : Nat) : Option UploadPipeline := do
  let sc ← up.generations[generation]?
  if sc.saved ∧ ¬ sc.finished ∧ ¬ up.isLocked sc.logicChunkIndex then
    let up := { up with
      sealedChunks := up.sealedChunks.erase sc.logicChunkIndex
      generations := up.generations.set generation { sc with finished := true } }
    return up.freeReference generation
  else none

/-! ## Reading -/

/-- The chunks that `LockForRead` and `UnlockForRead` count. -/
def readChunks (up : UploadPipeline) (startOffset stopOffset : Nat) : List Nat :=
  let start := up.indexOf startOffset
  let stop := up.indexOf stopOffset + if stopOffset % up.chunkSize > 0 then 1 else 0
  List.range' start (stop - start)

/-- `LockForRead`. -/
def lockForRead (up : UploadPipeline) (startOffset stopOffset : Nat) : UploadPipeline :=
  let count (m : SortedMap Nat Nat) (i : Nat) :=
    m.insert i ((m.get i).getD 0 + 1)
  { up with
    activeReadChunks := (up.readChunks startOffset stopOffset).foldl count up.activeReadChunks }

/-- `UnlockForRead`. -/
def unlockForRead (up : UploadPipeline) (startOffset stopOffset : Nat) : UploadPipeline :=
  let uncount (m : SortedMap Nat Nat) (i : Nat) :=
    match m.get i with
    | some 1 => m.erase i
    | some count => m.insert i (count - 1)
    | none => m
  { up with
    activeReadChunks := (up.readChunks startOffset stopOffset).foldl uncount up.activeReadChunks }

/-- `up.sealedChunks[logicChunkIndex]`. -/
def sealedChunk (up : UploadPipeline) (logicChunkIndex : Nat) : Option SealedChunk :=
  (up.sealedChunks.get logicChunkIndex).bind (up.generations[·]?)

/-- The first part of `MaybeReadDataAt`: the sealed chunk is read first. -/
def readSealed (up : UploadPipeline) (p : List UInt8) (off : Nat) : List UInt8 × Int :=
  match up.sealedChunk (up.indexOf off) with
  | some sealedChunk => sealedChunk.chunk.readDataAt up.chunkSize up.swapFile p off
  | none => (p, 0)

/-- `MaybeReadDataAt`: what is in `p` then, and `maxStop`. -/
def maybeReadDataAt (up : UploadPipeline) (p : List UInt8) (off : Nat) : List UInt8 × Int :=
  let (p, maxStop) := up.readSealed p off
  match up.writableChunks.get (up.indexOf off) with
  | none => (p, maxStop)
  | some writableChunk =>
    let (p, writableMaxStop) := writableChunk.readDataAt up.chunkSize up.swapFile p off
    (p, max maxStop writableMaxStop)

/-! ## Steps -/

/-- A step; `none` where it cannot be taken. -/
def step (up : UploadPipeline) : Step → Option (UploadPipeline × List Event)
  | .save call env => up.saveDataAt call env
  | .resume k env => up.resume k env
  | .flush logicChunkIndex => up.flush logicChunkIndex
  | .saveContent generation => (up.saveContent generation).map (·, [])
  | .finish generation => (up.finish generation).map (·, [])
  | .lockForRead startOffset stopOffset => some (up.lockForRead startOffset stopOffset, [])
  | .unlockForRead startOffset stopOffset => some (up.unlockForRead startOffset stopOffset, [])

/-- Steps one after the other, with all events. -/
def run (up : UploadPipeline) (steps : List Step) : Option (UploadPipeline × List Event) :=
  trace step up steps

end UploadPipeline

end PageWriter
