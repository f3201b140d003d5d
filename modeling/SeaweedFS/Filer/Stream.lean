import SeaweedFS.Filer.ChunkManifest

/-!
# `weed/filer/stream.go`: writing a range of a file to a stream

The chunks of a file are resolved to views, which are written one after the other, with zeros between them.
`retriedStreamFetchChunkData` goes on to the next replica when one fails and passes over the bytes already
written. The servers and the master are a `Cluster`: what the `n`-th request gets. The writer never fails and
the context is not cancelled.
-/

namespace Filer

open Lib

/-- What an attempt to fetch a view gets: the data in pieces, whether another attempt may help, and the
error. -/
structure Attempt where
  pieces : List (List UInt8)
  shouldRetry : Bool
  err : Option String

/-- The servers: the answers to the `n`-th request. `invalidates` says that the master client is a
`CacheInvalidator`. -/
structure Cluster where
  lookup : Nat → String → Except String (List String)
  fetch : Nat → String → ChunkView → Attempt
  invalidates : Bool

/-! ## Fetching a view -/

/-- The variables of the function that receives the data of one attempt. -/
structure Receiver where
  localProcessed : Nat
  totalWritten : Nat
  out : List UInt8

/-- The rest of `data` is written. -/
def Receiver.write (r : Receiver) (data : List UInt8) : Receiver :=
  { localProcessed := r.localProcessed + data.length
    totalWritten := r.totalWritten + data.length
    out := r.out ++ data }

/-- The function that receives the data. -/
def Receiver.receive (r : Receiver) (data : List UInt8) : Receiver :=
  if r.localProcessed < r.totalWritten then
    let toBeSkipped := r.totalWritten - r.localProcessed
    if data.length ≤ toBeSkipped then { r with localProcessed := r.localProcessed + data.length }
    else { r with localProcessed := r.localProcessed + toBeSkipped }.write (data.drop toBeSkipped)
  else r.write data

/-- The variables of `retriedStreamFetchChunkData`, with the output and the number of requests so far. -/
structure Fetched where
  out : List UInt8
  clock : Nat
  totalWritten : Nat := 0
  retriedCnt : Nat := 0
  shouldRetry : Bool := false
  err : Option String := none

/-- One attempt. -/
def Fetched.attempt (cluster : Cluster) (view : ChunkView) (f : Fetched) (urlString : String) : Fetched :=
  let a := cluster.fetch f.clock urlString view
  let r := a.pieces.foldl Receiver.receive ⟨0, f.totalWritten, f.out⟩
  { out := r.out
    clock := f.clock + 1
    totalWritten := r.totalWritten
    retriedCnt := f.retriedCnt + 1
    shouldRetry := a.shouldRetry
    err := a.err }

/-- The loop over the replicas. -/
def fetchReplicas (cluster : Cluster) (view : ChunkView) : List String → Fetched → Fetched
  | [], f => f
  | urlString :: urlStrings, f =>
    let f := f.attempt cluster view urlString
    if !f.shouldRetry then f
    else if f.err.isSome then fetchReplicas cluster view urlStrings f
    else f

/-- The loop over the waiting times. -/
def fetchRounds (cluster : Cluster) (view : ChunkView) (urlStrings : List String) : List Nat → Fetched → Fetched
  | [], f => f
  | _ :: waits, f =>
    let f := fetchReplicas cluster view urlStrings { f with retriedCnt := 0 }
    -- all nodes have tried it
    if f.retriedCnt = urlStrings.length then f
    else if f.err.isSome ∧ f.shouldRetry then fetchRounds cluster view urlStrings waits f
    else f

/-- The waiting times in milliseconds: from one second on, half as much again, below `RetryWaitTime`. -/
def retryWaits : List Nat := [1000, 1500, 2250, 3375, 5062]

/-- `retriedStreamFetchChunkData`. -/
def retriedStreamFetchChunkData (cluster : Cluster) (urlStrings : List String) (view : ChunkView)
    (out : List UInt8) (clock : Nat) : Fetched :=
  fetchRounds cluster view urlStrings retryWaits { out, clock }

/-! ## Preparing -/

/-- `ViewFromChunks`. -/
def viewFromChunks (S : SortFunc Point) (blobs : Blobs) (depth : Nat) (chunks : List FileChunk)
    (offset size : Int) : Except ManifestErr (IntervalList ChunkView) := do
  let visibles ← nonOverlappingVisibleIntervals S blobs depth chunks offset (int64 (offset + size))
  return viewFromVisibleIntervals visibles offset size

/-- The loop over `getLookupFileIdBackoffSchedule`: the last answer, and the requests so far. -/
def lookupBackoff (cluster : Cluster) (fileId : String) :
    Nat → Nat → Except String (List String) → Except String (List String) × Nat
  | 0, clock, last => (last, clock)
  | n + 1, clock, _ =>
    match cluster.lookup clock fileId with
    | .ok (url :: urls) => (.ok (url :: urls), clock + 1)
    | answer => lookupBackoff cluster fileId n (clock + 1) answer

/-- The length of `getLookupFileIdBackoffSchedule`. -/
def backoffSteps : Nat := 3

/-- The loop over the views that fills `fileId2Url`. -/
def lookupViews (cluster : Cluster) :
    IntervalList ChunkView → (String → List String) → Nat → Except String ((String → List String) × Nat)
  | [], fileId2Url, clock => .ok (fileId2Url, clock)
  | x :: views, fileId2Url, clock =>
    match lookupBackoff cluster x.value.fileId backoffSteps clock (.ok []) with
    | (.error err, _) => .error err
    | (.ok [], _) => .error ("operation LookupFileId " ++ x.value.fileId ++ " failed, err: urls not found")
    | (.ok urlStrings, clock) =>
      lookupViews cluster views (Function.update fileId2Url x.value.fileId urlStrings) clock

/-! ## Streaming -/

/-- The variables of the returned function. -/
structure Stream where
  offset : Int
  remaining : Int
  out : List UInt8
  fileId2Url : String → List String
  clock : Nat

/-- `writeZero`: zeros in pieces of at most 1024. -/
def writeZero : Nat → Int → List UInt8 → List UInt8
  | 0, _, out => out
  | fuel + 1, size, out =>
    if 0 < size then
      let written := if 1024 < size then 1024 else size
      writeZero fuel (size - written) (out ++ List.replicate written.toNat 0)
    else out

/-- `urlSlicesEqual`: the same urls, in any order; `counts` are those not matched yet. -/
def matchUrls : List String → List String → Bool
  | _, [] => true
  | counts, url :: urls => if url ∈ counts then matchUrls (counts.erase url) urls else false

/-- `urlSlicesEqual`. -/
def urlSlicesEqual (a b : List String) : Bool := a.length = b.length && matchUrls a b

/-- The zeros before a view. -/
def Stream.fillGap (st : Stream) (view : ChunkView) : Stream :=
  if st.offset < view.viewOffset then
    let gap := view.viewOffset - st.offset
    { st with
      remaining := st.remaining - gap
      out := writeZero gap.toNat gap st.out
      offset := view.viewOffset }
  else st

/-- The data of a view: from the known replicas, or if nothing came from those, from newly looked up ones. -/
def Stream.fetchView (cluster : Cluster) (st : Stream) (view : ChunkView) : Fetched × (String → List String) :=
  let urlStrings := st.fileId2Url view.fileId
  let f := retriedStreamFetchChunkData cluster urlStrings view st.out st.clock
  if f.err.isSome ∧ f.totalWritten = 0 ∧ cluster.invalidates then
    match cluster.lookup f.clock view.fileId with
    | .ok newUrlStrings =>
      if newUrlStrings ≠ [] ∧ !urlSlicesEqual urlStrings newUrlStrings then
        let f := retriedStreamFetchChunkData cluster newUrlStrings view f.out (f.clock + 1)
        (f, if f.err = none then Function.update st.fileId2Url view.fileId newUrlStrings else st.fileId2Url)
      else ({ f with clock := f.clock + 1 }, st.fileId2Url)
    | .error _ => ({ f with clock := f.clock + 1 }, st.fileId2Url)
  else (f, st.fileId2Url)

/-- The body of the loop over the views, with the error it returns. -/
def Stream.writeView (cluster : Cluster) (st : Stream) (view : ChunkView) : Stream × Option String :=
  let st := st.fillGap view
  let fetched := st.fetchView cluster view
  ({ offset := st.offset + int64 view.viewSize
     remaining := st.remaining - int64 view.viewSize
     out := fetched.1.out
     fileId2Url := fetched.2
     clock := fetched.1.clock },
    fetched.1.err.map fun err => "read chunk: " ++ err)

/-- The loop over the views. -/
def Stream.writeViews (cluster : Cluster) : Stream → IntervalList ChunkView → Stream × Option String
  | st, [] => (st, none)
  | st, x :: views =>
    match st.writeView cluster x.value with
    | (st, some err) => (st, some err)
    | (st, none) => st.writeViews cluster views

/-- What `PrepareStreamContentWithThrottler` returns: the views, and the variables at the first call. -/
structure Prepared where
  views : IntervalList ChunkView
  stream : Stream

/-- The first call of the returned function: what it has written, and its error. -/
def Prepared.run (cluster : Cluster) (p : Prepared) : List UInt8 × Option String :=
  match p.stream.writeViews cluster p.views with
  | (st, some err) => (st.out, some err)
  | (st, none) =>
    if 0 < st.remaining then (writeZero st.remaining.toNat st.remaining st.out, none) else (st.out, none)

/-- Why nothing is prepared. -/
inductive PrepareErr where
  | manifest (err : ManifestErr)
  | lookup (err : String)

/-- `PrepareStreamContentWithThrottler`. -/
def prepareStreamContent (cluster : Cluster) (S : SortFunc Point) (blobs : Blobs) (depth : Nat)
    (chunks : List FileChunk) (offset size : Int) : Except PrepareErr Prepared := do
  let views ← (viewFromChunks S blobs depth chunks offset size).mapError .manifest
  let (fileId2Url, clock) ← (lookupViews cluster views (fun _ => []) 0).mapError .lookup
  return { views, stream := { offset, remaining := size, out := [], fileId2Url, clock } }

end Filer
