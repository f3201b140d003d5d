import SeaweedFS.Storage.Volume

/-!
# `weed/storage/volume_write.go`: the worker of a volume

Requests that ask for `fsync` are queued. The worker takes a batch of them, processes it under the lock,
and syncs the `.dat` file once. If this fails, the file is truncated and the requests are answered with
the error.
-/

namespace Storage

open Lib

/-- `AsyncRequest`; `now` is the clock when it is processed. -/
structure AsyncRequest where
  n : Needle
  isWriteRequest : Bool
  actualSize : Int
  now : UInt64
deriving DecidableEq

/-- What a request is completed with: `offset`, `size` and `isUnchanged`, or the error. -/
abbrev AsyncResult := Except VolumeError (Nat × UInt64 × Bool)

/-- A queued request, and whether the channel is empty once it was received. -/
structure Queued where
  request : AsyncRequest
  drained : Bool

namespace Volume

/-- The loop that takes a batch: the batch, and the request that was refused for the size. -/
def takeBatch (v : Volume) : List Queued → List AsyncRequest → Int →
    List AsyncRequest × Option (AsyncRequest × AsyncResult)
  | [], currentRequests, _ => (currentRequests, none)
  | ⟨request, drained⟩ :: queue, currentRequests, currentBytesToWrite =>
    let bytes := currentBytesToWrite + request.actualSize
    if maxPossibleVolumeSize < (v.nm.contentSize + UInt64.ofInt bytes).toNat then
      (currentRequests,
        some (request, .error (.sizeLimitExceeded maxPossibleVolumeSize v.nm.contentSize)))
    else
      let currentRequests := currentRequests ++ [request]
      if bytes ≥ 4 * 1024 * 1024 ∨ currentRequests.length ≥ 128 ∨ drained = true then
        (currentRequests, none)
      else v.takeBatch queue currentRequests bytes

/-- One request. -/
def processRequest (v : Volume) (r : AsyncRequest) : Volume × AsyncResult :=
  if r.isWriteRequest then
    match v.doWriteRequest r.n true r.now with
    | .ok (v, res) => (v, .ok (res.offset, res.size.uint64, res.isUnchanged))
    | .error err => (v, .error err)
  else
    match v.doDeleteRequest r.n r.now with
    | .ok (v, size) => (v, .ok (0, size.uint64, false))
    | .error err => (v, .error err)

/-- The requests of a batch. -/
def processRequests (v : Volume) : List AsyncRequest → Volume × List AsyncResult
  | [] => (v, [])
  | r :: rs =>
    let (v, res) := v.processRequest r
    let (v, results) := v.processRequests rs
    (v, res :: results)

/-- The end of a batch: `sync` is the outcome of `Sync`. -/
def syncBatch (v : Volume) (stop : Nat) (results : List AsyncResult) :
    Option VolumeError → Volume × List AsyncResult
  | none => (v, results)
  | some err =>
    ({ v with dat := v.dat.take stop }, results.map fun res => res.bind fun _ => .error err)

/-- A batch: the requests of the queue that are taken, processed and synced. -/
def workBatch (v : Volume) (queue : List Queued) (sync : Option VolumeError) :
    Volume × List AsyncResult :=
  let stop := v.dat.length
  let (v, results) := v.processRequests (v.takeBatch queue [] 0).1
  v.syncBatch stop results sync

end Volume

end Storage
