import SeaweedFS.Util.Strings

/-!
# The reader of streaming uploads

`s3ChunkedReader` decodes a body that comes in chunks, each with a header that may carry a signature of the chunk.
`round` is one round of the loop in `Read`. A `Session` is a sequence of calls of `Read` with buffers of any sizes,
with a record of what was hashed, checked and handed out.
-/

namespace S3

open Util

/-! ## Buffered input -/

/-- The errors that `Read` and what it calls return. -/
inductive ReadError
  | eof
  | unexpectedEOF
  | bufferFull
  | lineTooLong
  | malformedEncoding
  | invalidByteInChunkLength
  | chunkLengthTooLarge
  | checksumAlgorithmMismatch
  | payloadChecksumMismatch
  | chunkSignatureMismatch
  | nilChecksumWriter
  | body
deriving DecidableEq

/-- The `bufio.Reader` over a body: the bytes left, the error behind them, and what the next calls of `Read` yield
at most. -/
structure Reader where
  input : Str
  final : ReadError
  sizes : List Nat

/-- The size of the buffer, which is `maxLineLength` too. -/
def maxLineLength : Nat := 4096

namespace Reader

/-- `ReadSlice('\n')`. -/
def readSlice (r : Reader) : Except ReadError Str × Reader :=
  let line := (r.input.take maxLineLength).takeWhile (· ≠ 0x0a)
  if line.length < (r.input.take maxLineLength).length then
    (.ok (line ++ [0x0a]), { r with input := r.input.drop (line.length + 1) })
  else if r.input.length < maxLineLength then (.error r.final, { r with input := [] })
  else (.error .bufferFull, { r with input := r.input.drop maxLineLength })

/-- `Read`, with a buffer of this length. -/
def read (r : Reader) (len : Nat) : Except ReadError Str × Reader :=
  if r.input = [] then (.error r.final, r)
  else
    let size := min len (r.sizes.headD len)
    (.ok (r.input.take size), { r with input := r.input.drop size, sizes := r.sizes.tail })

end Reader

/-- `isASCIISpace`. -/
def isASCIISpace (b : UInt8) : Bool := b == 0x20 || b == 0x09 || b == 0x0a || b == 0x0d

/-- `trimTrailingWhitespace`. -/
def trimTrailingWhitespace (b : Str) : Str := (b.reverse.dropWhile isASCIISpace).reverse

/-- `readChunkLine`. -/
def readChunkLine (r : Reader) : Except ReadError Str × Reader :=
  match r.readSlice with
  | (.error .eof, r) => (.error .unexpectedEOF, r)
  | (.error .bufferFull, r) => (.error .lineTooLong, r)
  | (.error e, r) => (.error e, r)
  | (.ok buf, r) =>
    if buf.length ≥ maxLineLength then (.error .lineTooLong, r) else (.ok (trimTrailingWhitespace buf), r)

/-- `checkCRLF` and `peekCRLF`. -/
def peekCRLF (r : Reader) : Option ReadError :=
  match r.input with
  | 0x0d :: 0x0a :: _ => none
  | _ :: _ :: _ => some .malformedEncoding
  | _ => some r.final

/-- `readCRLF`, whose error is not used. -/
def readCRLF (r : Reader) : Reader := { r with input := r.input.drop 2 }

/-! ## Headers and trailers -/

/-- What stands in front of and behind the first occurrence of a text. -/
def cutAt (sep : Str) : Str → Option (Str × Str)
  | [] => if sep = [] then some ([], []) else none
  | b :: s =>
    if sep.isPrefixOf (b :: s) then some ([], (b :: s).drop sep.length)
    else (cutAt sep s).map fun (front, back) => (b :: front, back)

/-- `parseS3ChunkExtension`. -/
def parseS3ChunkExtension (buf : Str) : Str × Option Str :=
  let buf := trimTrailingWhitespace buf
  match cutAt (ascii ";chunk-signature=") buf with
  | none => (buf, none)
  | some (front, signature) => (front, some signature)

/-- `parseHexUint` from the digit with index `i` on. -/
def parseHexDigits : Nat → Nat → Str → Except ReadError Nat
  | _, n, [] => .ok n
  | i, n, b :: v =>
    match hexDigit? b with
    | none => .error .invalidByteInChunkLength
    | some d => if i = 16 then .error .chunkLengthTooLarge else parseHexDigits (i + 1) (n * 16 + d) v

/-- `parseHexUint`. -/
def parseHexUint (v : Str) : Except ReadError Nat := parseHexDigits 0 0 v

/-- `ChecksumAlgorithm`. -/
inductive ChecksumAlgorithm
  | none
  | crc32
  | crc32c
  | crc64nvme
  | sha1
  | sha256
deriving DecidableEq

/-- `extractChecksumAlgorithm`. -/
def extractChecksumAlgorithm (amzTrailerHeader : Str) : Option ChecksumAlgorithm :=
  if amzTrailerHeader = ascii "x-amz-checksum-crc32" then some .crc32
  else if amzTrailerHeader = ascii "x-amz-checksum-crc32c" then some .crc32c
  else if amzTrailerHeader = ascii "x-amz-checksum-crc64nvme" then some .crc64nvme
  else if amzTrailerHeader = ascii "x-amz-checksum-sha1" then some .sha1
  else if amzTrailerHeader = ascii "x-amz-checksum-sha256" then some .sha256
  else if amzTrailerHeader = [] then some .none
  else Option.none

/-- The loop of `parseChunkChecksum`. Every line takes a byte at least, which bounds the rounds. -/
def parseTrailerLines : Nat → Reader → ChecksumAlgorithm → Str → Except ReadError (ChecksumAlgorithm × Str) × Reader
  | 0, r, _, _ => (.error .unexpectedEOF, r)
  | fuel + 1, r, checksumAlgorithm, checksum =>
    match readChunkLine r with
    | (.error e, r) => (.error e, r)
    | (.ok [], r) => (.ok (checksumAlgorithm, checksum), r)
    | (.ok line, r) =>
      match cutAt [0x3a] line with
      | some (key, value) =>
        match extractChecksumAlgorithm (trimSpace key) with
        | some alg => parseTrailerLines fuel r alg (trimSpace value)
        | Option.none => parseTrailerLines fuel r checksumAlgorithm checksum
      | Option.none => parseTrailerLines fuel r checksumAlgorithm checksum

/-- `parseChunkChecksum`. -/
def parseChunkChecksum (r : Reader) : Except ReadError (ChecksumAlgorithm × Str) × Reader :=
  parseTrailerLines (r.input.length + 1) r .none []

/-! ## The reader -/

/-- `chunkState`. -/
inductive ChunkState
  | readChunkHeader
  | readChunkTrailer
  | readChunk
  | readTrailerChunk
  | verifyChunk
  | verifyChecksum
  | eofChunk
deriving DecidableEq

/-- `s3ChunkedReader`; a hash is what was written to it. -/
structure S3ChunkedReader where
  cred : Bool
  reader : Reader
  seedSignature : Str
  state : ChunkState := .readChunkHeader
  lastChunk : Bool := false
  chunkSignature : Str := []
  checkSumAlgorithm : ChecksumAlgorithm
  checkSumWriter : Option Str
  chunkSHA256Writer : Str := []
  n : Nat := 0
  err : Option ReadError := none
  hasTrailer : Bool

/-- `newChunkedReader`, from the `x-amz-trailer` header on. -/
def newChunkedReader (amzTrailerHeader : Str) (cred : Bool) (seedSignature : Str) (body : Reader) :
    Option S3ChunkedReader :=
  match extractChecksumAlgorithm amzTrailerHeader with
  | none => none
  | some alg => some {
      cred := cred
      reader := body
      seedSignature := seedSignature
      checkSumAlgorithm := alg
      checkSumWriter := if alg = .none then none else some []
      hasTrailer := amzTrailerHeader ≠ [] }

/-- `readS3ChunkHeader`. -/
def readS3ChunkHeader (cr : S3ChunkedReader) : S3ChunkedReader :=
  match readChunkLine cr.reader with
  | (.error e, r) => { cr with reader := r, err := some e }
  | (.ok bytesRead, r) =>
    let (hexChunkSize, hexChunkSignature) := parseS3ChunkExtension bytesRead
    match parseHexUint hexChunkSize with
    | .error e => { cr with reader := r, n := 0, err := some e }
    | .ok n =>
      { cr with
        reader := r
        n := n
        err := if n = 0 then some .eof else none
        chunkSignature := hexChunkSignature.getD [] }

/-- What a round of the loop leads to: another round, with the room left in the buffer and the bytes in it, or a
return. -/
inductive Round
  | more (cr : S3ChunkedReader) (room : Nat) (got : Str)
  | done (cr : S3ChunkedReader) (out : Str) (err : Option ReadError)

section

variable (hash : Str → Str) (sign : Str → Str → Str) (checksum : ChecksumAlgorithm → Str → Str)

/-- The state behind a chunk. -/
def afterTrailer (cr : S3ChunkedReader) : ChunkState :=
  if cr.lastChunk && cr.hasTrailer then .readTrailerChunk
  else if cr.chunkSignature ≠ [] then .verifyChunk
  else .readChunkHeader

/-- One round of the loop in `Read`. -/
def round (cr : S3ChunkedReader) (room : Nat) (got : Str) : Round :=
  match cr.state with
  | .readChunkHeader =>
    let cr := readS3ChunkHeader cr
    if cr.n = 0 ∧ cr.err = some .eof then .more { cr with state := .readChunkTrailer, lastChunk := true } room got
    else
      match cr.err with
      | some e => .done cr [] (some e)
      | none => .more { cr with state := .readChunk } room got
  | .readChunkTrailer =>
    let isTrailingChunk := cr.n = 0 ∧ cr.lastChunk = true
    if ¬ isTrailingChunk then
      -- two bytes are taken, whatever they are
      let cr := { cr with reader := readCRLF cr.reader, err := peekCRLF cr.reader }
      .more { cr with state := afterTrailer cr } room got
    else
      match peekCRLF cr.reader with
      | none => .more { cr with reader := readCRLF cr.reader, state := afterTrailer cr } room got
      | some .malformedEncoding => .more { cr with state := afterTrailer cr } room got
      | some e => .done { cr with err := some e } [] (some .malformedEncoding)
  | .readTrailerChunk =>
    match parseChunkChecksum cr.reader with
    | (.error e, r) => .done { cr with reader := r, err := some e } [] (some e)
    | (.ok (alg, extractedChecksum), r) =>
      let cr := { cr with reader := r }
      if alg ≠ cr.checkSumAlgorithm then
        .done { cr with err := some .checksumAlgorithmMismatch } [] (some .checksumAlgorithmMismatch)
      else
        match cr.checkSumWriter with
        | none => .done cr [] (some .nilChecksumWriter)
        | some written =>
          if extractedChecksum ≠ checksum alg written then
            .done { cr with err := some .payloadChecksumMismatch } [] (some .payloadChecksumMismatch)
          else .more { cr with state := .eofChunk } room got
  | .readChunk =>
    if room = 0 then .done cr got none
    else
      match cr.reader.read (min room cr.n) with
      | (.error e, r) =>
        let e := if e = .eof then .unexpectedEOF else e
        .done { cr with reader := r, err := some e } [] (some e)
      | (.ok data, r) =>
        .more
          { cr with
            reader := r
            err := none
            chunkSHA256Writer := cr.chunkSHA256Writer ++ data
            checkSumWriter := cr.checkSumWriter.map (· ++ data)
            n := cr.n - data.length
            state := if cr.n - data.length = 0 then .readChunkTrailer else .readChunk }
          (room - data.length) (got ++ data)
  | .verifyChunk =>
    let next := if cr.lastChunk then .eofChunk else .readChunkHeader
    if cr.cred then
      let newSignature := sign cr.seedSignature (hash cr.chunkSHA256Writer)
      if cr.chunkSignature ≠ newSignature then
        .done { cr with err := some .chunkSignatureMismatch } [] (some .chunkSignatureMismatch)
      else .more { cr with seedSignature := newSignature, chunkSHA256Writer := [], state := next } room got
    else .more { cr with chunkSHA256Writer := [], state := next } room got
  | .verifyChecksum => .more cr room got
  | .eofChunk => .done cr got (some .eof)

/-! ## Sessions -/

/-- A check of the data of one or more chunks against a signature. -/
structure Check where
  seed : Str
  data : Str
  signature : Str
deriving DecidableEq

/-- Calls of `Read` one after the other: the call in progress, and what was hashed, checked, handed out (every byte
with its place in what was hashed) and returned. -/
structure Session where
  cr : S3ChunkedReader
  room : Nat
  got : Str := []
  hashed : Str := []
  checks : List Check := []
  delivered : List (UInt8 × Nat) := []
  returned : List (Option ReadError) := []

/-- The check that a round which goes on has made. -/
def madeCheck (cr : S3ChunkedReader) : List Check :=
  if cr.state = .verifyChunk ∧ cr.cred = true then
    [⟨cr.seedSignature, cr.chunkSHA256Writer, cr.chunkSignature⟩]
  else []

/-- One round of a session; where the call returns, the next one has a buffer of length `next`. -/
def Session.step (s : Session) (next : Nat) : Session :=
  match round hash sign checksum s.cr s.room s.got with
  | .more cr room got =>
    { s with
      cr := cr
      room := room
      got := got
      hashed := s.hashed ++ got.drop s.got.length
      checks := s.checks ++ madeCheck s.cr }
  | .done cr out err =>
    { s with
      cr := cr
      room := next
      got := []
      delivered := s.delivered ++ out.zipIdx (s.hashed.length - out.length)
      returned := s.returned ++ [err] }

/-- A session from a new reader on: the length of the first buffer, and round by round that of the next one. -/
def Session.run (cr : S3ChunkedReader) (first : Nat) (nexts : List Nat) : Session :=
  nexts.foldl (Session.step hash sign checksum) { cr := cr, room := first }

end

/-- The data that was checked. -/
def checkedData (checks : List Check) : Str := checks.flatMap Check.data

/-- Signatures that are chained from a seed on. -/
def Chained (hash : Str → Str) (sign : Str → Str → Str) : Str → List Check → Prop
  | _, [] => True
  | seed, c :: checks => c.seed = seed ∧ c.signature = sign seed (hash c.data) ∧ Chained hash sign c.signature checks

end S3
