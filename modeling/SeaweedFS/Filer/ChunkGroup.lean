import SeaweedFS.Filer.ReadResolved
import SeaweedFS.Filer.IntervalList
import SeaweedFS.Filer.ReaderAt

/-!
# `weed/filer/filechunk_section.go`, `weed/filer/filechunk_group.go`: a file in sections

A `ChunkGroup` keeps the chunks of a file by sections of 64 MiB. A section resolves its chunks when it is first
read (`setupForRead`); chunks added later are merged into the result. `ReadDataAt` reads the sections of a range
one after the other or in parallel.
-/

namespace Filer

open Lib

/-- Where `ViewFromVisibleIntervals` stops. -/
def viewStop (offset size : Int) : Int :=
  let stop := int64 (offset + size)
  let stop := if size = maxInt64 then maxInt64 else stop
  if stop < offset then maxInt64 else stop

/-- The view of a visible interval within `[offset, stop)`. -/
def viewOf (offset stop : Int) (x : Interval VisibleInterval) : Option (Interval ChunkView) :=
  let chunk := x.value
  let chunkStart := max offset chunk.start
  let chunkStop := min stop chunk.stop
  if chunkStart < chunkStop then
    some
      { startOffset := chunkStart
        stopOffset := chunkStop
        tsNs := chunk.modifiedTsNs
        value :=
          { fileId := chunk.fileId
            offsetInChunk := chunkStart - chunk.start + chunk.offsetInChunk
            viewSize := uint64 (chunkStop - chunkStart)
            viewOffset := chunkStart
            chunkSize := chunk.chunkSize
            cipherKey := chunk.cipherKey
            isGzipped := chunk.isGzipped
            modifiedTsNs := chunk.modifiedTsNs } }
  else none

/-- `ViewFromVisibleIntervals`. -/
def viewFromVisibleIntervals (visibles : IntervalList VisibleInterval) (offset size : Int) :
    IntervalList ChunkView :=
  visibles.filterMap (viewOf offset (viewStop offset size))

/-- `SeparateGarbageChunks`: the chunks with a visible interval, and the others. -/
def separateGarbageChunks (visibles : IntervalList VisibleInterval) (chunks : List FileChunk) :
    List FileChunk × List FileChunk :=
  chunks.partition fun chunk =>
    chunk.getFileIdString ∈ visibles.map fun interval => interval.value.fileId

/-- `FindGarbageChunks`. -/
def findGarbageChunks (visibles : IntervalList VisibleInterval) (start stop : Int) : List String :=
  visibles.filterMap fun x =>
    let interval := x.value
    let offset := interval.start - interval.offsetInChunk
    if start ≤ offset ∧ offset + int64 interval.chunkSize ≤ stop then some interval.fileId else none

/-- `SectionSize`: 64 MiB. -/
def sectionSize : Int := 2 * 1024 * 1024 * 32

/-- Where section `si` ends; the end of the last one, `2 ^ 63`, wraps around. -/
def sectionEnd (si : Int) : Int := int64 ((si + 1) * sectionSize)

/-- What a section's `ChunkReadAt` has of its own. -/
structure SectionReader where
  fileSize : Int
  readerPattern : ReaderPattern := {}

/-- `FileChunkSection`. -/
structure FileChunkSection where
  sectionIndex : Int
  chunks : List FileChunk := []
  visibleIntervals : Option (IntervalList VisibleInterval) := none
  chunkViews : Option (IntervalList ChunkView) := none
  reader : Option SectionReader := none
  isPrepared : Bool := false

/-- The last one first, as it is when the last one is moved to the place before the others. -/
def lastFirst (chunks : List FileChunk) : List FileChunk :=
  chunks.getLast?.toList ++ chunks.dropLast

theorem length_lastFirst (chunks : List FileChunk) : (lastFirst chunks).length = chunks.length := by
  unfold lastFirst
  cases h : chunks.getLast? with
  | none => simp [List.getLast?_eq_none_iff.1 h]
  | some c =>
    obtain ⟨l, rfl⟩ := List.getLast?_eq_some_iff.1 h
    simp

/-- `removeGarbageChunks`, with the chunks passed so far; the last chunk takes the place of a removed one. -/
def removeGarbageChunks (garbageFileIds : List String) (kept : List FileChunk) :
    List FileChunk → List FileChunk
  | [] => kept
  | t :: rest =>
    if t.fileId ∈ garbageFileIds then removeGarbageChunks garbageFileIds kept (lastFirst rest)
    else removeGarbageChunks garbageFileIds (kept ++ [t]) rest
termination_by chunks => chunks.length
decreasing_by
  · simp [length_lastFirst]
  · simp

/-- `addChunk`. -/
def FileChunkSection.addChunk (S : SortFunc Point) (sec : FileChunkSection) (chunk : FileChunk) :
    FileChunkSection :=
  let start := max (sec.sectionIndex * sectionSize) chunk.offset
  let stop := min (sectionEnd sec.sectionIndex) chunk.stop
  let sec := { sec with chunks := sec.chunks ++ [chunk] }
  let sec :=
    match sec.visibleIntervals with
    | none =>
      { sec with
        visibleIntervals := some (readResolvedChunks S sec.chunks (sec.sectionIndex * sectionSize)
          (sectionEnd sec.sectionIndex)) }
    | some visibles =>
      let visibles := mergeIntoVisibles visibles start stop chunk
      { sec with
        visibleIntervals := some visibles
        chunks := removeGarbageChunks (findGarbageChunks visibles start stop) [] sec.chunks }
  { sec with chunkViews := sec.chunkViews.map fun views => mergeIntoChunkViews views start stop chunk }

/-- `setupForRead`. -/
def FileChunkSection.setupForRead (S : SortFunc Point) (sec : FileChunkSection) (fileSize : Int) :
    FileChunkSection :=
  if sec.isPrepared then
    { sec with reader := sec.reader.map fun reader => { reader with fileSize := fileSize } }
  else
    let sec :=
      match sec.visibleIntervals with
      | none =>
        let visibles := readResolvedChunks S sec.chunks (sec.sectionIndex * sectionSize)
          (sectionEnd sec.sectionIndex)
        { sec with
          visibleIntervals := some visibles
          chunks := (separateGarbageChunks visibles sec.chunks).1
          reader := none }
      | some _ => sec
    let sec :=
      match sec.chunkViews with
      | none =>
        { sec with
          chunkViews := some (viewFromVisibleIntervals (sec.visibleIntervals.getD [])
            (sec.sectionIndex * sectionSize) (sectionEnd sec.sectionIndex)) }
      | some _ => sec
    let reader := sec.reader.getD { fileSize := min (sectionEnd sec.sectionIndex) fileSize }
    { sec with isPrepared := true, reader := some { reader with fileSize := fileSize } }

/-- `FileChunkSection.readDataAt`. -/
def FileChunkSection.readDataAt (S : SortFunc Point) (sched : Schedule) (fetch : Fetch)
    (sec : FileChunkSection) (fileSize : Int) (buff : List UInt8) (offset : Int) :
    FileChunkSection × ReadResult :=
  let sec := sec.setupForRead S fileSize
  -- `setupForRead` has set both
  let reader := sec.reader.getD { fileSize := fileSize }
  let c : ChunkReadAt :=
    { chunkViews := sec.chunkViews.getD []
      fileSize := reader.fileSize
      readerPattern := reader.readerPattern }
  let (c, r) := c.readAtWithTime sched fetch buff offset
  ({ sec with reader := some { reader with readerPattern := c.readerPattern } }, r)

/-- `ChunkGroup`: the sections by index. -/
structure ChunkGroup where
  sections : Int → Option FileChunkSection := fun _ => none
  concurrentReaders : Int

/-- `n` indices from `i` on. -/
def countFrom (i : Int) : Nat → List Int
  | 0 => []
  | n + 1 => i :: countFrom (i + 1) n

/-- The sections from the one of `start` to the one of `stop`. -/
def sectionIndices (start stop : Int) : List Int :=
  let first := start.tdiv sectionSize
  countFrom first (stop.tdiv sectionSize - first + 1).toNat

/-- `group.sections[si] = section`. -/
def setSection (sections : Int → Option FileChunkSection) (si : Int) (sec : FileChunkSection) :
    Int → Option FileChunkSection :=
  fun j => if j = si then some sec else sections j

/-- A change to the sections of a chunk; a section that is not there is made first. -/
def eachSection (f : FileChunkSection → FileChunkSection) (chunk : FileChunk)
    (sections : Int → Option FileChunkSection) : Int → Option FileChunkSection :=
  (sectionIndices chunk.offset chunk.stop).foldl (fun sections si =>
    setSection sections si (f ((sections si).getD { sectionIndex := si }))) sections

/-- `AddChunk`. -/
def ChunkGroup.addChunk (S : SortFunc Point) (group : ChunkGroup) (chunk : FileChunk) : ChunkGroup :=
  { group with sections := eachSection (fun sec => sec.addChunk S chunk) chunk group.sections }

/-- `readDataAtSequential`, with the result so far. -/
def readDataAtSequential (S : SortFunc Point) (sched : Schedule) (fetch : Fetch)
    (fileSize offset len : Int) : List Int → ChunkGroup → ReadResult → ChunkGroup × ReadResult
  | [], group, r => (group, r)
  | si :: rest, group, r =>
    let rangeStart := max offset (si * sectionSize)
    let rangeStop := min (int64 (offset + len)) (sectionEnd si)
    if rangeStart ≥ rangeStop then
      readDataAtSequential S sched fetch fileSize offset len rest group r
    else match group.sections si with
      | none =>
        let rangeStop := min rangeStop fileSize
        readDataAtSequential S sched fetch fileSize offset len rest group
          { r with
            buff := writeAt r.buff (rangeStart - offset).toNat
              (List.replicate (rangeStop - rangeStart).toNat 0)
            n := r.n + rangeStop - rangeStart }
      | some sec =>
        let part := slice r.buff (rangeStart - offset).toNat (rangeStop - offset).toNat
        let (sec, x) := sec.readDataAt S sched fetch fileSize part rangeStart
        let group := { group with sections := setSection group.sections si sec }
        let r :=
          { r with
            buff := writeAt r.buff (rangeStart - offset).toNat x.buff
            n := r.n + x.n
            tsNs := max r.tsNs x.tsNs }
        match x.err with
        | some err => (group, { r with err := some err })
        | none => readDataAtSequential S sched fetch fileSize offset len rest group r

/-- The read of one section in parallel: where its part of the buffer begins, its `sectionReadResult` and that part.
-/
structure SectionJob where
  start : Nat
  result : ReadResult
  newSection : Option (Int × FileChunkSection) := none

/-- What the read of section `si` does. -/
def sectionJob (S : SortFunc Point) (sched : Schedule) (fetch : Fetch) (fileSize offset : Int)
    (buff : List UInt8) (group : ChunkGroup) (si : Int) : SectionJob :=
  let rangeStart := max offset (si * sectionSize)
  let rangeStop := min (int64 (offset + buff.length)) (sectionEnd si)
  if rangeStart ≥ rangeStop then { start := 0, result := { buff := [] } }
  else match group.sections si with
    | none =>
      let rangeStop := min rangeStop fileSize
      { start := (rangeStart - offset).toNat
        result :=
          { buff := List.replicate (rangeStop - rangeStart).toNat 0
            n := rangeStop - rangeStart } }
    | some sec =>
      let part := slice buff (rangeStart - offset).toNat (rangeStop - offset).toNat
      let (sec, x) := sec.readDataAt S sched fetch fileSize part rangeStart
      { start := (rangeStart - offset).toNat, result := x, newSection := some (si, sec) }

/-- An error other than `io.EOF`. -/
def SectionJob.failure (job : SectionJob) : Option ReadError :=
  if job.result.err = some .eof then none else job.result.err

/-- `readDataAtParallel`. -/
def readDataAtParallel (S : SortFunc Point) (sched : Schedule) (fetch : Fetch)
    (fileSize offset : Int) (indices : List Int) (buff : List UInt8) (group : ChunkGroup) :
    ChunkGroup × ReadResult :=
  let jobs := indices.map (sectionJob S sched fetch fileSize offset buff group)
  let done := sched.run jobs
  let sections := jobs.foldl (fun sections job =>
    match job.newSection with
    | some (si, sec) => setSection sections si sec
    | none => sections) group.sections
  ({ group with sections := sections },
    { buff := writes buff (done.map fun job => (job.start, job.result.buff))
      n := jobs.foldl (fun n job => n + job.result.n) 0
      tsNs := jobs.foldl (fun ts job => max ts job.result.tsNs) 0
      err := (done.findSome? SectionJob.failure).or (jobs.findSome? SectionJob.failure) })

/-- `ReadDataAt`. -/
def ChunkGroup.readDataAt (S : SortFunc Point) (sched : Schedule) (fetch : Fetch)
    (group : ChunkGroup) (fileSize : Int) (buff : List UInt8) (offset : Int) :
    ChunkGroup × ReadResult :=
  if offset ≥ fileSize then (group, { buff := buff, err := some .eof })
  else
    let indices := sectionIndices offset (int64 (offset + buff.length))
    if indices.length ≤ 1 ∨ group.concurrentReaders ≤ 1 then
      readDataAtSequential S sched fetch fileSize offset buff.length indices group { buff := buff }
    else readDataAtParallel S sched fetch fileSize offset indices buff group

end Filer
