import SeaweedFS.Lib.Block
import SeaweedFS.Lib.Frames
import SeaweedFS.Util.Bytes

/-!
# `weed/util/log_buffer/log_buffer.go`, `sealed_buffer.go`: the in-memory log

Entries are appended to a byte buffer, each as four bytes of size and its protobuf form. A full, old or flushed
buffer is queued for `flushFn` and becomes the last of four sealed ones, from which readers are still served.
Buffers alias: they are indices into the `heap` of all buffers. Times are nanoseconds since the epoch, `zeroTime`
being `time.Time{}`. A `Run` delivers each queued flush at once.
-/

namespace Util

open Lib

/-! ## Entries -/

/-- `filer_pb.LogEntry`. -/
structure LogEntry where
  tsNs : Int64
  partitionKeyHash : Int32
  data : List UInt8
  key : List UInt8
  offset : Int64
  deriving DecidableEq

/-- `proto.Marshal`, `proto.Unmarshal` of a `LogEntry` and `HashToInt32`. -/
structure LogCodec where
  marshal : LogEntry → Option (List UInt8)
  unmarshal : List UInt8 → Option LogEntry
  hashToInt32 : List UInt8 → Int32
  unmarshal_marshal : ∀ {e : LogEntry} {d : List UInt8}, marshal e = some d → unmarshal d = some e

/-- The entries of a log, `none` if it does not end with one or one of them cannot be read. -/
def LogCodec.decode (codec : LogCodec) (bytes : List UInt8) : Option (List LogEntry) :=
  (unframe 4 bytes).bind fun ds => ds.mapM codec.unmarshal

/-! ## Sealed buffers -/

/-- `time.Time{}`. -/
def zeroTime : Int := -62135596800 * 10 ^ 9

/-- `BufferSize`. -/
def bufferSize : Nat := 8 * 1024 * 1024

/-- `PreviousBufferCount`. -/
def previousBufferCount : Nat := 4

/-- `MemBuffer`. -/
structure MemBuffer where
  buf : Nat
  size : Nat
  startTime : Int
  stopTime : Int
  startOffset : Int64
  offset : Int64

/-- `newSealedBuffers`: buffer `i` is the `i`-th allocation. -/
def newSealedBuffers (size : Nat) : List MemBuffer :=
  (List.range size).map fun i =>
    { buf := i, size := 0, startTime := zeroTime, stopTime := zeroTime, startOffset := 0, offset := 0 }

/-- `SealBuffer`: the buffers move down by one and the new one becomes the last. `oldMemBuffer` points to the first,
so the slice it returns is the one that has moved there. -/
def sealBuffer (buffers : List MemBuffer) (mb : MemBuffer) : List MemBuffer × Nat :=
  let moved := buffers.tail ++ [mb]
  (moved, (moved.headD mb).buf)

/-! ## The log buffer -/

/-- `dataToFlush`. -/
structure DataToFlush where
  startTime : Int
  stopTime : Int
  data : List UInt8
  minOffset : Int64
  maxOffset : Int64
  deriving DecidableEq

/-- `LogBuffer`. -/
structure LogBuffer where
  heap : List Block
  lastTsNs : Int64
  lastFlushTsNs : Int64
  lastFlushedOffset : Int64
  offset : Int64
  bufferStartOffset : Int64
  minOffset : Int64
  maxOffset : Int64
  flushInterval : Int
  startTime : Int
  stopTime : Int
  prevBuffers : List MemBuffer
  buf : Nat
  idx : List Nat
  pos : Nat
  hasOffsets : Bool

/-- `NewLogBuffer`. -/
def newLogBuffer (flushInterval : Int) : LogBuffer where
  heap := List.replicate (previousBufferCount + 1) (.make bufferSize)
  lastTsNs := 0
  lastFlushTsNs := 0
  lastFlushedOffset := -1
  offset := 0
  bufferStartOffset := 0
  minOffset := 0
  maxOffset := 0
  flushInterval
  startTime := zeroTime
  stopTime := zeroTime
  prevBuffers := newSealedBuffers previousBufferCount
  buf := previousBufferCount
  idx := []
  pos := 0
  hasOffsets := false

namespace LogBuffer

/-- The buffer with index `i`. -/
def block (s : LogBuffer) (i : Nat) : Block := s.heap.getD i (.make 0)

/-- `buf[:pos]`. -/
def content (s : LogBuffer) : List UInt8 := (s.block s.buf).upTo s.pos

/-- `InitializeOffsetFromExistingData`, with the highest offset if it could be read. -/
def initializeOffsetFromExistingData (s : LogBuffer) (highestOffset : Option Int64) (now : Int64) : LogBuffer :=
  match highestOffset with
  | none => s
  | some highestOffset =>
    if 0 ≤ highestOffset then
      { s with
        offset := highestOffset + 1
        bufferStartOffset := highestOffset + 1
        lastFlushedOffset := highestOffset
        lastFlushTsNs := now }
    else { s with bufferStartOffset := 0 }

/-- `copyToFlushInternal`. -/
def copyToFlush (s : LogBuffer) : LogBuffer × Option DataToFlush :=
  if 0 < s.pos then
    let d : DataToFlush :=
      { startTime := s.startTime, stopTime := s.stopTime, data := s.content,
        minOffset := s.minOffset, maxOffset := s.maxOffset }
    let lastOffsetInBuffer := s.offset - 1
    let sealed := sealBuffer s.prevBuffers
      { buf := s.buf, size := s.pos, startTime := s.startTime, stopTime := s.stopTime,
        startOffset := s.bufferStartOffset, offset := lastOffsetInBuffer }
    ({ s with
        prevBuffers := sealed.1
        buf := sealed.2
        startTime := zeroTime
        stopTime := zeroTime
        pos := 0
        idx := []
        bufferStartOffset := s.offset
        hasOffsets := false
        minOffset := 0
        maxOffset := 0 },
      some d)
  else (s, none)

/-! ### Adding -/

/-- The time stamp collision handling: the stamp and the buffer with it as `LastTsNs`. -/
def stamp (s : LogBuffer) (processingTsNs : Int64) : Int64 × LogBuffer :=
  if processingTsNs ≤ s.lastTsNs then (s.lastTsNs + 1, { s with lastTsNs := s.lastTsNs + 1 })
  else (processingTsNs, { s with lastTsNs := processingTsNs })

/-- The start of a new buffer: its first time, and no offsets yet. -/
def begin (s : LogBuffer) (ts : Int) : LogBuffer :=
  if s.pos = 0 then { s with startTime := ts, hasOffsets := false } else s

/-- The offset range is widened to `offset`. -/
def track (s : LogBuffer) (offset : Int64) : LogBuffer :=
  if !s.hasOffsets then { s with minOffset := offset, maxOffset := offset, hasOffsets := true }
  else
    { s with
      minOffset := if offset < s.minOffset then offset else s.minOffset
      maxOffset := if s.maxOffset < offset then offset else s.maxOffset }

/-- The condition for sealing the buffer before an entry of `size` bytes. -/
def Full (s : LogBuffer) (ts : Int) (size : Nat) : Prop :=
  s.startTime + s.flushInterval < ts ∨ ((s.block s.buf).len : Int) - s.pos < size + 4

instance (s : LogBuffer) (ts : Int) (size : Nat) : Decidable (s.Full ts size) :=
  inferInstanceAs (Decidable (_ ∨ _))

/-- `maxBufferSize`. -/
def maxBufferSize : Nat := 2 ^ 30

/-- Why an entry is not added. -/
inductive AddErr where
  /-- "failed to marshal LogEntry: %w" -/
  | marshal
  /-- "message size %d exceeds maximum allowed size" -/
  | tooLarge (size : Nat)
  deriving DecidableEq

/-- What adding an entry leaves: the log, what is to flush and the error. -/
structure AddResult where
  log : LogBuffer
  toFlush : Option DataToFlush
  err : Option AddErr

/-- A larger buffer, if `size` is within the limit. -/
def grow (s : LogBuffer) (size : Nat) : Except AddErr LogBuffer :=
  if (s.block s.buf).len < size + 4 then
    if (2 ^ 63 - 1 - 4) / 2 < size ∨ (maxBufferSize - 4) / 2 < size then .error (.tooLarge size)
    else .ok { s with heap := s.heap ++ [.make (2 * size + 4)], buf := s.heap.length }
  else .ok s

/-- The entry is copied behind the ones in the buffer. -/
def store (s : LogBuffer) (ts : Int) (logEntryData : List UInt8) : LogBuffer :=
  let size := logEntryData.length
  let sizeBuf := uint32toBytes (UInt32.ofNat size)
  { s with
    stopTime := ts
    idx := s.idx ++ [s.pos]
    heap := s.heap.set s.buf (((s.block s.buf).copyAt s.pos sizeBuf).copyAt (s.pos + 4) logEntryData)
    pos := s.pos + (size + 4)
    offset := s.offset + 1 }

/-- The common part of the two functions below, from `proto.Marshal` on. -/
def addMarshalled (codec : LogCodec) (s : LogBuffer) (logEntry : LogEntry) (tracked : Bool) : AddResult :=
  match codec.marshal logEntry with
  | none => ⟨s, none, some .marshal⟩
  | some logEntryData =>
    let ts := logEntry.tsNs.toInt
    let s := s.begin ts
    let s := if tracked then s.track logEntry.offset else s
    if s.Full ts logEntryData.length then
      let flushed := s.copyToFlush
      let s := { flushed.1 with startTime := ts }
      match s.grow logEntryData.length with
      | .error e => ⟨s, flushed.2, some e⟩
      | .ok s => ⟨s.store ts logEntryData, flushed.2, none⟩
    else ⟨s.store ts logEntryData, none, none⟩

/-- `AddLogEntryToBuffer`. -/
def addLogEntryToBuffer (codec : LogCodec) (s : LogBuffer) (logEntry : LogEntry) : AddResult :=
  let stamped := s.stamp logEntry.tsNs
  stamped.2.addMarshalled codec { logEntry with tsNs := stamped.1 } (0 ≤ logEntry.offset)

/-- `AddDataToBuffer`; `now` is used for the time stamp 0. -/
def addDataToBuffer (codec : LogCodec) (s : LogBuffer) (partitionKey data : List UInt8)
    (processingTsNs now : Int64) : AddResult :=
  let processingTsNs := if processingTsNs = 0 then now else processingTsNs
  let stamped := s.stamp processingTsNs
  stamped.2.addMarshalled codec
    { tsNs := stamped.1
      partitionKeyHash := codec.hashToInt32 partitionKey
      data
      key := partitionKey
      offset := s.offset }
    true

/-- `loopFlush` for one queued block, after `flushFn`. -/
def loopFlush (s : LogBuffer) (d : DataToFlush) : LogBuffer :=
  { s with
    lastFlushedOffset := if 0 ≤ d.maxOffset then d.maxOffset else s.lastFlushedOffset
    lastFlushTsNs := if d.stopTime ≠ zeroTime then Int64.ofInt d.stopTime else s.lastFlushTsNs }

/-! ### Reading -/

/-- The errors of `readTs`. -/
inductive ReadTsErr where
  /-- "corrupted log buffer: cannot read size at pos %d, buffer length %d" -/
  | size (pos len : Nat)
  /-- "corrupted log buffer: entry size %d at pos %d exceeds buffer length %d" -/
  | entry (size pos len : Nat)
  /-- "corrupted log buffer: failed to unmarshal LogEntry at pos %d, size %d: %w" -/
  | unmarshal (pos size : Nat)
  deriving DecidableEq

/-- `readTs`: the size and the time stamp of the entry at `pos`. -/
def readTs (codec : LogCodec) (buf : Block) (pos : Nat) : Except ReadTsErr (Nat × Int64) :=
  if (buf.len : Int) - 4 < pos then .error (.size pos buf.len)
  else
    let size := (bytesToUint32 (buf.slice pos (pos + 4))).toNat
    if (buf.len : Int) - pos - 4 < size then .error (.entry size pos buf.len)
    else
      match codec.unmarshal (buf.slice (pos + 4) (pos + 4 + size)) with
      | none => .error (.unmarshal pos size)
      | some logEntry => .ok (size, logEntry.tsNs)

/-- The loop of `locateByTs`, for at most `fuel` entries; `none` if it goes on. -/
def locateByTs (codec : LogCodec) (buf : Block) (lastReadTs : Int64) :
    Nat → Nat → Option (Except ReadTsErr Nat)
  | 0, _ => none
  | fuel + 1, pos =>
    if pos < buf.len then
      match readTs codec buf pos with
      | .error e => some (.error e)
      | .ok (size, t) =>
        if lastReadTs < t then some (.ok pos) else locateByTs codec buf lastReadTs fuel (pos + (size + 4))
    else some (.ok buf.len)

/-- The binary search of `ReadFromBuffer`, for at most `fuel` rounds; `none` if it goes on. -/
def searchIdx (codec : LogCodec) (buf : Block) (idx : List Nat) (searchTs : Int64) :
    Nat → Int → Int → Option (Except ReadTsErr (Option Nat))
  | 0, _, _ => none
  | fuel + 1, l, h =>
    if l ≤ h then
      let mid := ((l + h) / 2).toNat
      let pos := idx.getD mid 0
      match readTs codec buf pos with
      | .error e => some (.error e)
      | .ok (_, t) =>
        if t ≤ searchTs then searchIdx codec buf idx searchTs fuel (mid + 1) h
        else
          match (if 0 < mid then readTs codec buf (idx.getD (mid - 1) 0) else .ok (0, 0)) with
          | .error e => some (.error e)
          | .ok (_, prevT) =>
            if prevT ≤ searchTs then some (.ok (some pos))
            else searchIdx codec buf idx searchTs fuel l mid
    else some (.ok none)

/-- `MessagePosition`. -/
structure MessagePosition where
  time : Int
  offset : Int64
  isOffsetBased : Bool

/-- The errors of `ReadFromBuffer`. -/
inductive ReadErr where
  /-- `ResumeFromDiskError` -/
  | resumeFromDisk
  /-- `ErrBufferCorrupted`, wrapping the error of `readTs` -/
  | corrupted (e : ReadTsErr)
  deriving DecidableEq

/-- What `ReadFromBuffer` returns. -/
structure ReadResult where
  bufferCopy : Option (List UInt8)
  batchIndex : Int64
  err : Option ReadErr
  deriving DecidableEq

/-- The part of `ReadFromBuffer` for offset-based positions. -/
def readByOffset (s : LogBuffer) (requestedOffset : Int64) : ReadResult :=
  if s.bufferStartOffset ≤ requestedOffset ∧ requestedOffset ≤ s.offset then
    if s.pos = 0 then
      if requestedOffset < s.offset then ⟨none, -2, some .resumeFromDisk⟩
      else if requestedOffset = 0 ∧ s.bufferStartOffset = 0 ∧ s.offset = 0 then
        ⟨none, -2, some .resumeFromDisk⟩
      else ⟨none, s.offset, none⟩
    else ⟨some s.content, s.offset, none⟩
  else
    match s.prevBuffers.find? fun mb => mb.startOffset ≤ requestedOffset ∧ requestedOffset ≤ mb.offset with
    | some mb =>
      if mb.size = 0 then ⟨none, -2, some .resumeFromDisk⟩
      else ⟨some ((s.block mb.buf).upTo mb.size), mb.offset, none⟩
    | none =>
      if requestedOffset < s.bufferStartOffset then ⟨none, -2, some .resumeFromDisk⟩
      else ⟨none, s.offset, none⟩

/-- One round of the search for the earliest time in memory. -/
def earlier (tsMemory : Int) (mb : MemBuffer) : Int :=
  if mb.startTime ≠ zeroTime ∧ (tsMemory = zeroTime ∨ mb.startTime < tsMemory) then mb.startTime else tsMemory

/-- `tsMemory` in `ReadFromBuffer`. -/
def tsMemory (s : LogBuffer) : Int := s.prevBuffers.foldl earlier s.startTime

/-- The loop over the sealed buffers; the inner `none` if none of them answers. -/
def readSealed (codec : LogCodec) (fuel : Nat) (s : LogBuffer) (lastRead : MessagePosition) :
    List MemBuffer → Option (Option ReadResult)
  | [] => some none
  | mb :: buffers =>
    if lastRead.time < mb.startTime then
      some (some ⟨some ((s.block mb.buf).upTo mb.size), mb.offset, none⟩)
    else if lastRead.time < mb.stopTime then
      let searchTime := if lastRead.offset ≤ 0 then lastRead.time - 1 else lastRead.time
      match locateByTs codec (s.block mb.buf) (Int64.ofInt searchTime) fuel 0 with
      | none => none
      | some (.error e) => some (some ⟨none, -1, some (.corrupted e)⟩)
      | some (.ok pos) => some (some ⟨some ((s.block mb.buf).slice pos mb.size), mb.offset, none⟩)
    else readSealed codec fuel s lastRead buffers

/-- `ReadFromBuffer` from case 2.1 on. -/
def readFromMemory (codec : LogCodec) (fuel : Nat) (s : LogBuffer) (lastRead : MessagePosition) :
    Option ReadResult :=
  if lastRead.time = s.stopTime ∧ s.stopTime ≠ zeroTime ∧ 0 < lastRead.offset then
    some ⟨none, s.offset, none⟩
  else if s.stopTime < lastRead.time ∧ s.stopTime ≠ zeroTime then some ⟨none, s.offset, none⟩
  else if lastRead.time < s.startTime ∨ s.startTime = zeroTime then
    match readSealed codec fuel s lastRead s.prevBuffers with
    | none => none
    | some (some r) => some r
    | some none =>
      if 0 < s.pos then some ⟨some s.content, s.offset, none⟩ else some ⟨none, s.offset, none⟩
  else
    let lastTs := Int64.ofInt lastRead.time
    let searchTs := if lastRead.offset ≤ 0 ∧ Int64.minValue + 1 < lastTs then lastTs - 1 else lastTs
    match searchIdx codec (s.block s.buf) s.idx searchTs fuel 0 ((s.idx.length : Int) - 1) with
    | none => none
    | some (.error e) => some ⟨none, -1, some (.corrupted e)⟩
    | some (.ok (some pos)) => some ⟨some ((s.block s.buf).slice pos s.pos), s.offset, none⟩
    | some (.ok none) => some ⟨none, -2, none⟩

/-- `ReadFromBuffer`; `none` if a loop goes on for more than `fuel` rounds. -/
def readFromBuffer (codec : LogCodec) (fuel : Nat) (s : LogBuffer) (lastRead : MessagePosition) :
    Option ReadResult :=
  if lastRead.isOffsetBased then some (s.readByOffset lastRead.offset)
  else if s.tsMemory = zeroTime then some ⟨none, -2, some .resumeFromDisk⟩
  else if lastRead.time < s.tsMemory ∧
      ¬(lastRead.time = zeroTime ∨ lastRead.time / 10 ^ 9 = 0) ∧ 0 < lastRead.offset then
    some ⟨none, -2, some .resumeFromDisk⟩
  else s.readFromMemory codec fuel lastRead

end LogBuffer

/-! ## Runs -/

/-- A call. `flush` is `ForceFlush` and a tick of `loopInterval`. -/
inductive LogCall where
  | addDataToBuffer (partitionKey data : List UInt8) (processingTsNs now : Int64)
  | addLogEntryToBuffer (logEntry : LogEntry)
  | flush
  deriving DecidableEq

/-- A log buffer, the blocks that `flushFn` was called with and the keys and data that were accepted. -/
structure LogRun where
  log : LogBuffer
  flushed : List DataToFlush
  accepted : List (List UInt8 × List UInt8)

namespace LogRun

/-- `loopFlush` takes what was queued. -/
def deliver (r : LogRun) : Option DataToFlush → LogRun
  | none => r
  | some d => { r with log := r.log.loopFlush d, flushed := r.flushed ++ [d] }

/-- The result of adding an entry. -/
def added (r : LogRun) (result : LogBuffer.AddResult) (key data : List UInt8) : LogRun :=
  let r := { r with
    log := result.log
    accepted := if result.err = none then r.accepted ++ [(key, data)] else r.accepted }
  r.deliver result.toFlush

/-- A call and the flush it queues. -/
def execute (codec : LogCodec) (r : LogRun) : LogCall → LogRun
  | .addDataToBuffer key data ts now =>
    r.added (r.log.addDataToBuffer codec key data ts now) key data
  | .addLogEntryToBuffer e => r.added (r.log.addLogEntryToBuffer codec e) e.key e.data
  | .flush =>
    let flushed := r.log.copyToFlush
    { r with log := flushed.1 }.deliver flushed.2

/-- The calls one after the other, on a new log buffer. -/
def start (flushInterval : Int) (highestOffset : Option Int64) (now : Int64) : LogRun :=
  ⟨(newLogBuffer flushInterval).initializeOffsetFromExistingData highestOffset now, [], []⟩

end LogRun

end Util
