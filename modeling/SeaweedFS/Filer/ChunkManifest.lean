import SeaweedFS.Filer.ChunkGroup

/-!
# `weed/filer/filechunk_manifest.go`: chunks of chunks

A manifest chunk stands for the chunks in the blob it names; blobs are read back as they were saved. The
file ids of the chunks in a blob are stored in parsed form. `ResolveChunkManifest` recurses through
manifests, here to a given depth. `CompactFileChunks` of `filechunks.go` keeps the chunks that show.
-/

namespace Filer

open Storage

/-! ## File ids in a blob -/

/-- The value of a digit in base 16. -/
def digitValue (c : Char) : Option Nat :=
  if '0' ≤ c ∧ c ≤ '9' then some (c.toNat - '0'.toNat)
  else if 'a' ≤ c ∧ c ≤ 'f' then some (c.toNat - 'a'.toNat + 10)
  else if 'A' ≤ c ∧ c ≤ 'F' then some (c.toNat - 'A'.toNat + 10)
  else none

/-- `strconv.ParseUint` for a base up to 16. -/
def parseUint (s : List Char) (base bitSize : Nat) : Option Nat := do
  if s = [] then none
  let n ← s.foldlM (fun n c => do
    let d ← digitValue c
    if d < base then some (n * base + d) else none) 0
  if n < 2 ^ bitSize then some n else none

/-- `ParseNeedleIdCookie`. -/
def parseNeedleIdCookie (keyHash : List Char) : Option (UInt64 × UInt32) := do
  if keyHash.length ≤ 8 ∨ 24 < keyHash.length then none
  let split := keyHash.length - 8
  let needleId ← parseUint (keyHash.take split) 16 64
  let cookie ← parseUint (keyHash.drop split) 16 32
  return (UInt64.ofNat needleId, UInt32.ofNat cookie)

/-- `ToFileIdObject`: the volume id is read as 64 bits and cut to 32. -/
def toFileIdObject (fileId : String) : Option FileId := do
  let vid := fileId.toList.takeWhile (· ≠ ',')
  if vid = [] ∨ vid.length = fileId.toList.length then none
  let volumeId ← parseUint vid 10 64
  let (key, cookie) ← parseNeedleIdCookie (fileId.toList.drop (vid.length + 1))
  return { volumeId := UInt32.ofNat volumeId, key := key, cookie := cookie }

/-- `BeforeEntrySerialization`, for one chunk. -/
def beforeEntrySerialization (chunk : FileChunk) : FileChunk :=
  if chunk.fileId ≠ "" then
    match toFileIdObject chunk.fileId with
    | some fid => { chunk with fid := some fid, fileId := "" }
    | none => chunk
  else chunk

/-- `AfterEntryDeserialization`, for one chunk. -/
def afterEntryDeserialization (chunk : FileChunk) : FileChunk :=
  match chunk.fid with
  | some fid => if chunk.fileId = "" then { chunk with fileId := fid.string } else chunk
  | none => chunk

/-! ## Resolving -/

/-- Why manifests cannot be read or written. -/
inductive ManifestErr where
  | read (fileId : String)
  | save
  | depth
deriving DecidableEq, Repr

/-- The saved manifests, by file id. -/
abbrev Blobs := String → Option (List FileChunk)

/-- The chunk has a byte in `[startOffset, stopOffset)`. -/
def FileChunk.InRange (chunk : FileChunk) (startOffset stopOffset : Int) : Prop :=
  max chunk.offset startOffset < min chunk.stop stopOffset

instance (chunk : FileChunk) (a b : Int) : Decidable (chunk.InRange a b) :=
  inferInstanceAs (Decidable (_ < _))

def resolveOneChunkManifest (blobs : Blobs) (chunk : FileChunk) : Except ManifestErr (List FileChunk) :=
  if ¬ chunk.isChunkManifest then .ok []
  else match blobs chunk.getFileIdString with
    | some chunks => .ok (chunks.map afterEntryDeserialization)
    | none => .error (.read chunk.getFileIdString)

/-- The loop of `ResolveChunkManifest`, with `resolve` for the chunks of a manifest: data chunks and manifests. -/
def resolveLoop (blobs : Blobs) (resolve : List FileChunk → Except ManifestErr (List FileChunk × List FileChunk))
    (startOffset stopOffset : Int) : List FileChunk → Except ManifestErr (List FileChunk × List FileChunk)
  | [] => .ok ([], [])
  | chunk :: chunks =>
    if ¬ chunk.InRange startOffset stopOffset then resolveLoop blobs resolve startOffset stopOffset chunks
    else if ¬ chunk.isChunkManifest then do
      let (data, manifests) ← resolveLoop blobs resolve startOffset stopOffset chunks
      return (chunk :: data, manifests)
    else do
      let resolvedChunks ← resolveOneChunkManifest blobs chunk
      let (subData, subManifests) ← resolve resolvedChunks
      let (data, manifests) ← resolveLoop blobs resolve startOffset stopOffset chunks
      return (subData ++ data, chunk :: subManifests ++ manifests)

/-- `ResolveChunkManifest`, for manifests nested `depth` deep at most. -/
def resolveChunkManifest (blobs : Blobs) :
    Nat → List FileChunk → Int → Int → Except ManifestErr (List FileChunk × List FileChunk)
  | 0, chunks, startOffset, stopOffset =>
    resolveLoop blobs (fun _ => .error .depth) startOffset stopOffset chunks
  | depth + 1, chunks, startOffset, stopOffset =>
    resolveLoop blobs (fun sub => resolveChunkManifest blobs depth sub startOffset stopOffset)
      startOffset stopOffset chunks

/-! ## Making manifests -/

/-- `minOffset` and `maxOffset` with one more chunk. -/
def widen (e : Int × Int) (chunk : FileChunk) : Int × Int :=
  (if e.1 > chunk.offset then chunk.offset else e.1, if e.2 < chunk.stop then chunk.stop else e.2)

/-- The smallest offset and the largest end of the chunks. -/
def extent (chunks : List FileChunk) : Int × Int := chunks.foldl widen (maxInt64, -2 ^ 63)

/-- `mergeIntoManifest`, where `saved` is what the save function returns. A group has a chunk. -/
def mergeIntoManifest (blobs : Blobs) (saved : Option FileChunk) (dataChunks : List FileChunk) :
    Except ManifestErr (FileChunk × Blobs) :=
  match saved with
  | none => .error .save
  | some chunk =>
    let (minOffset, maxOffset) := extent dataChunks
    let size := uint64 (maxOffset - minOffset)
    if h : 0 ≤ minOffset ∧ minOffset + size ≤ maxInt64 then
      .ok ({ chunk with
          isChunkManifest := true, offset := minOffset, size := size, offset_nonneg := h.1, stop_le := h.2 },
        fun id => if id = chunk.getFileIdString then some (dataChunks.map beforeEntrySerialization)
          else blobs id)
    else .error .save

/-- `mergeIntoManifest` as the `mergefn` that takes what the save function returns next. -/
def mergeSaved (s : List (Option FileChunk) × Blobs) (group : List FileChunk) :
    Except ManifestErr (FileChunk × List (Option FileChunk) × Blobs) := do
  let (chunk, blobs) ← mergeIntoManifest s.2 (s.1.head?.getD none) group
  return (chunk, s.1.tail, blobs)

/-- The loop of `doMaybeManifestize` over the full groups, then the rest; `s` is what `mergefn` changes. -/
def mergeEach {σ ε : Type} (mergefn : σ → List FileChunk → Except ε (FileChunk × σ)) (mergeFactor : Nat) :
    Nat → σ → List FileChunk → Except ε (List FileChunk × σ)
  | 0, s, dataChunks => .ok (dataChunks, s)
  | groups + 1, s, dataChunks => do
    let (chunk, s) ← mergefn s (dataChunks.take mergeFactor)
    let (chunks, s) ← mergeEach mergefn mergeFactor groups s (dataChunks.drop mergeFactor)
    return (chunk :: chunks, s)

/-- `doMaybeManifestize`, where `saves` is what the save function returns each time; a group takes a chunk
at least. -/
def doMaybeManifestize (saves : List (Option FileChunk)) (blobs : Blobs) (inputChunks : List FileChunk)
    (mergeFactor : Nat) : Except ManifestErr (List FileChunk × Blobs) := do
  let dataChunks := inputChunks.filter fun chunk => ¬ chunk.isChunkManifest
  let chunks := inputChunks.filter fun chunk => chunk.isChunkManifest
  let (merged, _, blobs) ←
    mergeEach mergeSaved mergeFactor (dataChunks.length / mergeFactor) (saves, blobs) dataChunks
  return (chunks ++ merged, blobs)

/-- `doMaybeManifestize` with any `mergefn`, and with the list that it returns beside an error. -/
def doMaybeManifestizeWith {σ ε : Type} (mergefn : σ → List FileChunk → Except ε (FileChunk × σ)) (s : σ)
    (inputChunks : List FileChunk) (mergeFactor : Nat) : List FileChunk × Option ε :=
  let dataChunks := inputChunks.filter fun chunk => ¬ chunk.isChunkManifest
  let chunks := inputChunks.filter fun chunk => chunk.isChunkManifest
  match mergeEach mergefn mergeFactor (dataChunks.length / mergeFactor) s dataChunks with
  | .error err => (dataChunks, some err)
  | .ok (merged, _) => (chunks ++ merged, none)

/-! ## Compaction -/

open Lib in
/-- `NonOverlappingVisibleIntervals`. -/
def nonOverlappingVisibleIntervals (S : SortFunc Point) (blobs : Blobs) (depth : Nat)
    (chunks : List FileChunk) (startOffset stopOffset : Int) :
    Except ManifestErr (IntervalList VisibleInterval) := do
  let (dataChunks, _) ← resolveChunkManifest blobs depth chunks startOffset stopOffset
  return readResolvedChunks S dataChunks 0 maxInt64

open Lib in
/-- `CompactFileChunks`. -/
def compactFileChunks (S : SortFunc Point) (blobs : Blobs) (depth : Nat) (chunks : List FileChunk) :
    Except ManifestErr (List FileChunk × List FileChunk) := do
  let visibles ← nonOverlappingVisibleIntervals S blobs depth chunks 0 maxInt64
  return separateGarbageChunks visibles chunks

end Filer
