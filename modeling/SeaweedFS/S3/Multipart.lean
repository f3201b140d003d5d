import SeaweedFS.Filer.FileChunk
import SeaweedFS.Lib.SortFunc
import SeaweedFS.Util.Strings

/-!
# `weed/s3api/filer_multipart.go`: completing a multipart upload

The parts of an upload are entries of one directory, named `<part number>_<uuid>.part`; a client that retries
leaves several of one number. `completeMultipartUpload` makes an object of the chunks of one entry for each
requested number and ETag, and removes the other entries with their data. What the filer answers is a `Store`,
the hashes are a `Digest`; the headers that are copied to the object are left out.
-/

namespace S3

open Util Lib
open Filer (int64 uint64 maxInt64)

/-- `filer_pb.FileChunk`; `fileId` is what `GetFileIdString` returns. -/
structure Chunk where
  fileId : Str
  offset : Int := 0
  size : Nat
  modifiedTsNs : Int := 0
  cipherKey : List UInt8 := []
  eTag : Str := []
  isCompressed : Bool := false
  isChunkManifest : Bool := false
  sseType : Nat := 0
  sseMetadata : List UInt8 := []
deriving DecidableEq

/-- `filer_pb.FuseAttributes`. -/
structure Attributes where
  fileSize : Nat := 0
  mime : Str := []
  ttlSec : Int := 0
  md5 : Option (List UInt8) := none
deriving DecidableEq

/-- `filer_pb.Entry`, with the values of `ExtETagKey` and `SeaweedFSUploadId` in `Extended`. -/
structure Entry where
  name : Str
  isDirectory : Bool := false
  chunks : List Chunk := []
  attributes : Option Attributes := none
  extETag : Option Str := none
  extUploadId : Option Str := none
deriving DecidableEq

/-- `md5.Sum`, and `Base64Md5ToBytes`. -/
structure Digest where
  md5 : List UInt8 → List UInt8
  base64 : Str → List UInt8

/-! ## ETags -/

/-- `%x` of a byte. -/
def hexByte (b : UInt8) : Str :=
  let digit (n : Nat) : UInt8 := (if n < 10 then 0x30 + n else 0x61 + (n - 10)).toUInt8
  [digit (b.toNat / 16), digit (b.toNat % 16)]

/-- `%x`. -/
def hex (bytes : List UInt8) : Str := bytes.flatMap hexByte

/-- `hex.DecodeString`. -/
def hexDecode : Str → Option (List UInt8)
  | [] => some []
  | [_] => none
  | a :: b :: rest => do
    let hi ← hexDigit? a
    let lo ← hexDigit? b
    let bytes ← hexDecode rest
    return (16 * hi + lo).toUInt8 :: bytes

/-- `%d`. -/
def decimal (n : Nat) : Str := ascii (toString n)

/-- `strings.Trim` of quotes. -/
def trimQuotes (s : Str) : Str := trim [ascii "\""] s

/-- `filer.ETagChunks`. -/
def eTagChunks (d : Digest) (chunks : List Chunk) : Str :=
  match chunks with
  | [chunk] => hex (d.base64 chunk.eTag)
  | chunks => hex (d.md5 (chunks.flatMap fun c => d.base64 c.eTag)) ++ ascii "-" ++ decimal chunks.length

/-- `filer.ETag`. -/
def eTag (d : Digest) (entry : Entry) : Str :=
  match entry.attributes.bind (·.md5) with
  | some md5 => hex md5
  | none => eTagChunks d entry.chunks

/-- `getEtagFromEntry`. -/
def getEtagFromEntry (d : Digest) (entry : Entry) : Str :=
  match entry.extETag with
  | some (c :: etag) =>
    if (ascii "\"").isPrefixOf (c :: etag) then c :: etag else ascii "\"" ++ (c :: etag) ++ ascii "\""
  -- an empty ETag is computed as a missing one
  | _ => ascii "\"" ++ eTag d entry ++ ascii "\""

/-- What `validateCompletePartETag` returns. -/
structure Validation where
  isMatch : Bool
  invalid : Bool
  normalizedPartETag : Str
  normalizedEntryETag : Str

/-- `validateCompletePartETag`. -/
def validateCompletePartETag (d : Digest) (partETag : Str) (entry : Entry) : Validation :=
  let normalizedPartETag := trimQuotes (trimSpace partETag)
  if normalizedPartETag = [] then ⟨false, true, normalizedPartETag, []⟩
  else
    let normalizedEntryETag := trimQuotes (getEtagFromEntry d entry)
    if normalizedEntryETag = [] then ⟨false, true, normalizedPartETag, normalizedEntryETag⟩
    else ⟨normalizedPartETag == normalizedEntryETag, false, normalizedPartETag, normalizedEntryETag⟩

/-! ## Part numbers -/

/-- The value of decimal digits. -/
def digitsValue : Str → Nat → Option Nat
  | [], n => some n
  | b :: rest, n => if 0x30 ≤ b ∧ b ≤ 0x39 then digitsValue rest (10 * n + (b.toNat - 0x30)) else none

/-- `strconv.Atoi`. -/
def atoi (s : Str) : Option Int := do
  let (negative, digits) := match s with
    | 0x2b :: rest => (false, rest)
    | 0x2d :: rest => (true, rest)
    | s => (false, s)
  if digits = [] then none
  let n ← digitsValue digits 0
  let value : Int := if negative then -n else n
  if -2 ^ 63 ≤ value ∧ value ≤ maxInt64 then some value else none

def multipartExt : Str := ascii ".part"

def multiPartMinSize : Nat := 5 * 1024 * 1024

def maxS3MultipartParts : Nat := 10000

/-- `parsePartNumber`. -/
def parsePartNumber (fileName : Str) : Option Int :=
  if 0x5f ∈ fileName then atoi (fileName.takeWhile (· ≠ 0x5f))
  else atoi (fileName.take (fileName.length - multipartExt.length))

/-- `sortEntriesByLatestChunk`. -/
def sortEntriesByLatestChunk (S : SortFunc Entry) (entries : List Entry) : List Entry :=
  let ts (e : Entry) : Int := (e.chunks.head?.map (·.modifiedTsNs)).getD 0
  S.sort (fun a b => if ts b < ts a then -1 else if ts a < ts b then 1 else 0) entries

/-- Entries of one part number, the latest first. -/
def sortEntries (S : SortFunc Entry) (entries : List Entry) : List Entry :=
  if 1 < entries.length then sortEntriesByLatestChunk S entries else entries

/-- `calculateMultipartETag`. -/
def calculateMultipartETag (d : Digest) (S : SortFunc Entry) (partEntries : Int → List Entry)
    (completedPartNumbers : List Int) : Str :=
  let etags := completedPartNumbers.flatMap fun partNumber =>
    match sortEntries S (partEntries partNumber) with
    | [] => []
    | entry :: _ =>
      let etag := trimQuotes (getEtagFromEntry d entry)
      ((hexDecode (etag.takeWhile (· ≠ 0x2d))).getD [])
  hex (d.md5 etags) ++ ascii "-" ++ decimal completedPartNumbers.length

/-! ## The requested parts -/

/-- `CompletedPart`. -/
structure CompletedPart where
  eTag : Str
  partNumber : Int
deriving DecidableEq

/-- The variables of the loop over the requested parts. A number that is no key of the map has no ETags. -/
structure Requested where
  completedPartNumbers : List Int := []
  completedPartMap : Int → List Str := fun _ => []
  maxPartNo : Int := 1

def Requested.add (r : Requested) (part : CompletedPart) : Requested where
  completedPartNumbers :=
    if r.completedPartMap part.partNumber = [] then r.completedPartNumbers ++ [part.partNumber]
    else r.completedPartNumbers
  completedPartMap :=
    Function.update r.completedPartMap part.partNumber (r.completedPartMap part.partNumber ++ [part.eTag])
  maxPartNo := max r.maxPartNo part.partNumber

/-- The loop over the requested parts, and `sort.Ints`. -/
def requested (parts : List CompletedPart) : Requested :=
  let r := parts.foldl Requested.add {}
  { r with completedPartNumbers := r.completedPartNumbers.insertionSort (· ≤ ·) }

/-! ## The stored parts -/

/-- Why an upload is not completed; `nilAttributes` is a nil pointer that is followed. -/
inductive Failure where
  | noSuchUpload
  | entityTooSmall
  | invalidPart
  | internalError
  | nilAttributes
deriving DecidableEq

/-- The variables of the loop over the entries. A number that is no key of `partEntries` has no entries. -/
structure Collected where
  deleteEntries : List Entry := []
  partEntries : Int → List Entry := fun _ => []
  entityTooSmall : Bool := false
  entityWithTtl : Bool := false

/-- The loop over the ETags that are requested for the number of `entry`: the entries of that number, and
`foundEntry`. -/
def matchETags (d : Digest) (partNumber maxPartNo : Int) (entry : Entry) :
    List Str → List Entry × Bool → List Entry × Bool
  | [], acc => acc
  | partETag :: rest, (entries, foundEntry) =>
    let v := validateCompletePartETag d partETag entry
    if v.invalid then matchETags d partNumber maxPartNo entry rest (entries, foundEntry)
    else if !v.isMatch then matchETags d partNumber maxPartNo entry rest (entries, foundEntry)
    else if entry.chunks = [] ∧ partNumber ≠ maxPartNo then
      matchETags d partNumber maxPartNo entry rest (entries, foundEntry)
    -- there may be several entries of one part, because the client retried
    else matchETags d partNumber maxPartNo entry rest (entries ++ [entry], true)

/-- Whether a part is too small: only the last one may be. -/
def tooSmall (r : Requested) (partNumber : Int) (entry : Entry) : Except Failure Bool :=
  if 1 < r.completedPartNumbers.length ∧ r.completedPartNumbers.getLast? ≠ some partNumber then
    match entry.attributes with
    | none => .error .nilAttributes
    | some attributes => .ok (attributes.fileSize < multiPartMinSize)
  else .ok false

/-- The body of the loop over the entries. -/
def Collected.addEntry (d : Digest) (r : Requested) (c : Collected) (entry : Entry) : Except Failure Collected :=
  if entry.isDirectory ∨ ¬ multipartExt <:+ entry.name then .ok c
  else
    match parsePartNumber entry.name with
    | none => .ok c
    | some partNumber =>
      match r.completedPartMap partNumber with
      | [] => .ok c
      | completedPartsByNumber =>
        let (entries, foundEntry) :=
          matchETags d partNumber r.maxPartNo entry completedPartsByNumber (c.partEntries partNumber, false)
        if foundEntry then do
          let small ← tooSmall r partNumber entry
          return {
            c with
            partEntries := Function.update c.partEntries partNumber entries
            entityWithTtl := c.entityWithTtl || (entry.attributes.any fun a => 0 < a.ttlSec)
            entityTooSmall := c.entityTooSmall || small }
        else return { c with deleteEntries := c.deleteEntries ++ [entry] }

/-! ## The new object -/

/-- `PartBoundary`. -/
structure PartBoundary where
  partNumber : Int
  startChunk : Nat
  endChunk : Nat
  eTag : Str
deriving DecidableEq

/-- The variables of the loop over the part numbers. -/
structure Assembly where
  finalParts : List Chunk := []
  offset : Int := 0
  partBoundaries : List PartBoundary := []
  deleteEntries : List Entry
  partEntries : Int → List Entry

/-- A chunk of a part becomes a chunk of the object. -/
def Assembly.addChunk (a : Assembly) (chunk : Chunk) : Assembly :=
  let p : Chunk :=
    { fileId := chunk.fileId
      offset := a.offset
      size := chunk.size
      modifiedTsNs := chunk.modifiedTsNs
      cipherKey := chunk.cipherKey
      eTag := chunk.eTag
      isCompressed := chunk.isCompressed
      sseType := chunk.sseType
      sseMetadata := chunk.sseMetadata }
  { a with
    finalParts := a.finalParts ++ [p]
    offset := int64 (a.offset + int64 chunk.size) }

/-- The body of the loop over the entries of a part number, with `found`. -/
def Assembly.addEntry (d : Digest) (partNumber : Int) (acc : Assembly × Bool) (entry : Entry) : Assembly × Bool :=
  let (a, found) := acc
  if found then ({ a with deleteEntries := a.deleteEntries ++ [entry] }, found)
  else
    let a' := entry.chunks.foldl Assembly.addChunk a
    let boundary : PartBoundary :=
      { partNumber, startChunk := a.finalParts.length, endChunk := a'.finalParts.length, eTag := eTag d entry }
    ({ a' with partBoundaries := a'.partBoundaries ++ [boundary] }, true)

/-- The body of the loop over the part numbers. The entries are sorted in place. -/
def Assembly.addPart (d : Digest) (S : SortFunc Entry) (a : Assembly) (partNumber : Int) :
    Except Failure Assembly :=
  match a.partEntries partNumber with
  | [] => .error .invalidPart
  | entries =>
    let sorted := sortEntries S entries
    let a := { a with partEntries := Function.update a.partEntries partNumber sorted }
    .ok (sorted.foldl (Assembly.addEntry d partNumber) (a, false)).1

/-! ## Completing -/

inductive Versioning where
  | enabled
  | suspended
  | unversioned
deriving DecidableEq

/-- The new entry. -/
structure Object where
  directory : Str
  name : Str
  chunks : List Chunk
  fileSize : Nat
  mime : Str
  eTag : Str
  partsCount : Nat
  partBoundaries : List PartBoundary
  versionId : Option Str
  uploadId : Option Str
  expires : Bool

/-- `filer_pb.DeleteEntryRequest`, as `rm` makes it. -/
structure DeleteEntryRequest where
  directory : Str
  name : Str
  isDeleteData : Bool
  isRecursive : Bool
  ignoreRecursiveError : Bool := true
deriving DecidableEq

/-- What a completed upload returns, and what it has asked the filer for. -/
inductive Completion where
  /-- A repeated request for an upload that is completed already. -/
  | again (eTag : Str)
  | created (object : Object) (removals : List DeleteEntryRequest) (versionId : Option Str)

/-- `s3.CompleteMultipartUploadInput`: the upload, where the uploads are, and where the object belongs. -/
structure Input where
  uploadsFolder : Str
  uploadId : Str
  directory : Str
  name : Str

def Input.uploadDirectory (input : Input) : Str := input.uploadsFolder ++ ascii "/" ++ input.uploadId

/-- What the filer has and how it answers: the entries of the upload directory by name (`none` if they cannot be
listed), the entry of the directory and of the object, the versioning, and whether entries can be created. -/
structure Store where
  stored : Option (List Entry)
  uploadEntry : Option Entry
  objectEntry : Option Entry
  versioning : Versioning
  versionId : Str
  versionFileName : Str
  mkFile : Bool
  updateLatestVersion : Bool

/-- The object of an assembly. -/
def newObject (d : Digest) (S : SortFunc Entry) (input : Input) (store : Store) (r : Requested) (mime : Str)
    (entityWithTtl : Bool) (a : Assembly) : Object where
  directory :=
    if store.versioning = .enabled then input.directory ++ ascii "/" ++ input.name ++ ascii ".versions"
    else input.directory
  name := if store.versioning = .enabled then store.versionFileName else input.name
  chunks := a.finalParts
  fileSize := uint64 a.offset
  mime := mime
  eTag := calculateMultipartETag d S a.partEntries r.completedPartNumbers
  partsCount := r.completedPartNumbers.length
  partBoundaries := a.partBoundaries
  versionId :=
    match store.versioning with
    | .enabled => some store.versionId
    | .suspended => some (ascii "null")
    | .unversioned => none
  uploadId := if store.versioning = .suspended then none else some input.uploadId
  expires := store.versioning = .unversioned && entityWithTtl

/-- What is removed at the end: the entries without use with their data, then the upload without. -/
def removals (input : Input) (deleteEntries : List Entry) : List DeleteEntryRequest :=
  (deleteEntries.map fun e => ⟨input.uploadDirectory, e.name, true, true, true⟩) ++
    [⟨input.uploadsFolder, input.uploadId, false, true, true⟩]

/-- `completeMultipartUpload`. -/
def completeMultipartUpload (d : Digest) (S : SortFunc Entry) (store : Store) (input : Input)
    (parts : List CompletedPart) : Except Failure Completion :=
  if parts = [] then .error .noSuchUpload
  else
    let r := requested parts
    match store.stored.map (·.take (maxS3MultipartParts + 1)) with
    | none => .error .noSuchUpload
    | some [] =>
      match store.objectEntry with
      | some entry =>
        if entry.extUploadId = some input.uploadId then .ok (.again (getEtagFromEntry d entry))
        else .error .noSuchUpload
      | none => .error .noSuchUpload
    | some entries =>
      match store.uploadEntry with
      | none => .error .noSuchUpload
      | some pentry => do
        let c ← entries.foldlM (Collected.addEntry d r) {}
        if c.entityTooSmall then .error .entityTooSmall
        else
          match pentry.attributes with
          | none => .error .nilAttributes
          | some attributes => do
            let a ← r.completedPartNumbers.foldlM (Assembly.addPart d S)
              { deleteEntries := c.deleteEntries, partEntries := c.partEntries }
            if !store.mkFile || store.versioning = .enabled && !store.updateLatestVersion then .error .internalError
            else
              return .created (newObject d S input store r attributes.mime c.entityWithTtl a)
                (removals input a.deleteEntries)
                (if store.versioning = .enabled then some store.versionId else none)

end S3
