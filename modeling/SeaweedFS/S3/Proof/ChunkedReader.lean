import SeaweedFS.S3.ChunkedReader

/-!
# What a streaming upload has checked

`round_cases` says what one round of the loop in `Read` can do. From it follows the invariant of a session (`Inv`):
what was hashed is what was checked and what is in the hash of the current chunk, and every byte that was handed out
stands at its place in it. Without a trailer only `verifyChunk` leads to the end; with one the end comes without a
check (`Ahead`).
-/

namespace S3

open Util List

variable {hash : Str → Str} {sign : Str → Str → Str} {checksum : ChecksumAlgorithm → Str → Str}

variable {cr : S3ChunkedReader}

/-! ## Errors -/

variable {e : ReadError}

theorem readChunkLine_ne_eof {r r' : Reader} (h : readChunkLine r = (.error e, r')) : e ≠ .eof := by
  rw [readChunkLine] at h
  split at h
  next => cases h; decide
  next => cases h; decide
  next he _ _ =>
    obtain rfl := Except.error.inj (Prod.mk.inj h).1
    exact he
  next =>
    split at h <;> cases h
    decide

theorem parseTrailerLines_ne_eof {fuel : Nat} {r r' : Reader} {alg : ChecksumAlgorithm} {sum : Str}
    (h : parseTrailerLines fuel r alg sum = (.error e, r')) : e ≠ .eof := by
  induction fuel generalizing r alg sum with
  | zero => cases h; decide
  | succ fuel ih =>
    rw [parseTrailerLines] at h
    split at h
    next hline =>
      cases h
      exact readChunkLine_ne_eof hline
    next => cases h
    next =>
      split at h
      next =>
        split at h
        next => exact ih h
        next => exact ih h
      next => exact ih h

theorem parseHexDigits_ne_eof {i n : Nat} {v : Str} (h : parseHexDigits i n v = .error e) : e ≠ .eof := by
  induction v generalizing i n with
  | nil => cases h
  | cons b v ih =>
    rw [parseHexDigits] at h
    split at h
    next => cases h; decide
    next =>
      split at h
      next => cases h; decide
      next => exact ih h

/-! ## Headers -/

/-- The header at the front of a body, if there is one: the length of its chunk, and whether the chunk is signed. -/
def header? (input : Str) : Option (Nat × Bool) := do
  let line ← (readChunkLine ⟨input, .eof, []⟩).1.toOption
  let n ← (parseHexUint (parseS3ChunkExtension line).1).toOption
  some (n, decide ((parseS3ChunkExtension line).2.getD [] ≠ []))

/-- What is behind the line at the front of a body. -/
def behindLine (input : Str) : Str := (readChunkLine ⟨input, .eof, []⟩).2.input

/-- What `readS3ChunkHeader` makes of a line. -/
inductive HeaderCase (cr : S3ChunkedReader) : S3ChunkedReader → Prop
  | bad {r : Reader} {n : Nat} {e : ReadError} (hnone : header? cr.reader.input = none)
    (hr : r.input = behindLine cr.reader.input) (he : e ≠ .eof) :
    HeaderCase cr { cr with reader := r, n := n, err := some e }
  | header {r : Reader} {n : Nat} {signature : Str}
    (hsome : header? cr.reader.input = some (n, decide (signature ≠ [])))
    (hr : r.input = behindLine cr.reader.input) :
    HeaderCase cr
      { cr with
        reader := r
        n := n
        err := if n = 0 then some .eof else none
        chunkSignature := signature }

theorem readChunkLine_input (r : Reader) :
    (readChunkLine r).1.toOption = (readChunkLine ⟨r.input, .eof, []⟩).1.toOption ∧
      (readChunkLine r).2.input = behindLine r.input := by
  obtain ⟨input, final, sizes⟩ := r
  simp only [behindLine, readChunkLine, Reader.readSlice]
  split_ifs
  · dsimp only
    split <;> exact ⟨rfl, rfl⟩
  · cases final <;> exact ⟨rfl, rfl⟩
  · exact ⟨rfl, rfl⟩

theorem readS3ChunkHeader_cases (cr : S3ChunkedReader) : HeaderCase cr (readS3ChunkHeader cr) := by
  obtain ⟨hline, hinput⟩ := readChunkLine_input cr.reader
  rw [readS3ChunkHeader]
  split
  next e r hr =>
    rw [hr] at hline hinput
    refine .bad ?_ hinput (readChunkLine_ne_eof hr)
    rw [header?, ← hline]
    rfl
  next line r hr =>
    rw [hr] at hline hinput
    dsimp only
    split
    next e he =>
      refine .bad ?_ hinput (parseHexDigits_ne_eof he)
      rw [header?, ← hline]
      show Option.bind (parseHexUint _).toOption _ = _
      rw [he]
      rfl
    next n hn =>
      refine .header ?_ hinput
      rw [header?, ← hline]
      show Option.bind (parseHexUint _).toOption _ = _
      rw [hn]
      rfl

/-! ## Rounds -/

/-- What most rounds leave alone. -/
structure Frame (cr cr' : S3ChunkedReader) : Prop where
  cred : cr'.cred = cr.cred
  hasTrailer : cr'.hasTrailer = cr.hasTrailer

/-- What a round does to the hash, the seed and the state. -/
inductive RoundCase (hash : Str → Str) (sign : Str → Str → Str) (cr : S3ChunkedReader) (room : Nat) (got : Str) :
    Round → Prop
  | plain {cr' : S3ChunkedReader} (hframe : Frame cr cr') (hsha : cr'.chunkSHA256Writer = cr.chunkSHA256Writer)
    (hseed : cr'.seedSignature = cr.seedSignature) (hstate : cr.state ≠ .verifyChunk) (hlive : cr.state ≠ .eofChunk)
    (htrailer : cr'.state = .readTrailerChunk → cr.hasTrailer = true)
    (heof : cr'.state = .eofChunk → cr.state = .readTrailerChunk) :
    RoundCase hash sign cr room got (.more cr' room got)
  | data {cr' : S3ChunkedReader} {d : Str} {room' : Nat} (hframe : Frame cr cr')
    (hsha : cr'.chunkSHA256Writer = cr.chunkSHA256Writer ++ d) (hseed : cr'.seedSignature = cr.seedSignature)
    (hstate : cr.state = .readChunk) (hstate' : cr'.state = .readChunkTrailer ∨ cr'.state = .readChunk) :
    RoundCase hash sign cr room got (.more cr' room' (got ++ d))
  | check {cr' : S3ChunkedReader} (hframe : Frame cr cr') (hstate : cr.state = .verifyChunk)
    (hsha : cr'.chunkSHA256Writer = []) (hseed : cr'.seedSignature = cr.chunkSignature)
    (hsign : cr.chunkSignature = sign cr.seedSignature (hash cr.chunkSHA256Writer))
    (hstate' : cr'.state ≠ .readTrailerChunk) : RoundCase hash sign cr room got (.more cr' room got)
  | fail {cr' : S3ChunkedReader} {e : ReadError} (hframe : Frame cr cr')
    (hsha : cr'.chunkSHA256Writer = cr.chunkSHA256Writer) (hseed : cr'.seedSignature = cr.seedSignature)
    (hstate : cr'.state = cr.state) (hlive : cr.state ≠ .eofChunk) (he : e ≠ .eof) :
    RoundCase hash sign cr room got (.done cr' [] (some e))
  | full : RoundCase hash sign cr room got (.done cr got none)
  | eof (hstate : cr.state = .eofChunk) : RoundCase hash sign cr room got (.done cr got (some .eof))

theorem afterTrailer_trailer (h : afterTrailer cr = .readTrailerChunk) : cr.hasTrailer = true := by
  rw [afterTrailer] at h
  split at h
  next hlast =>
    rw [Bool.and_eq_true] at hlast
    exact hlast.2
  next => split at h <;> cases h

theorem afterTrailer_ne_eof (cr : S3ChunkedReader) : afterTrailer cr ≠ .eofChunk := by
  rw [afterTrailer]
  split
  · decide
  · split <;> decide

/-- **One round** of a reader with a credential. -/
theorem round_cases (hcred : cr.cred = true) (room : Nat) (got : Str) :
    RoundCase hash sign cr room got (round hash sign checksum cr room got) := by
  rw [round]
  cases hs : cr.state with
  | readChunkHeader =>
    have hlive : cr.state ≠ .eofChunk := by rw [hs]; decide
    have hno : cr.state ≠ .verifyChunk := by rw [hs]; decide
    have hcase := readS3ChunkHeader_cases cr
    dsimp only
    generalize readS3ChunkHeader cr = cr' at hcase
    cases hcase with
    | bad hnone hr he =>
      rw [if_neg fun hend => he (Option.some.inj hend.2)]
      exact .fail ⟨rfl, rfl⟩ rfl rfl rfl hlive he
    | @header r n signature hsome hr =>
      by_cases hn : n = 0
      · rw [if_pos ⟨hn, if_pos hn⟩]
        exact .plain ⟨rfl, rfl⟩ rfl rfl hno hlive nofun nofun
      · rw [if_neg fun hend => hn hend.1]
        dsimp only
        rw [if_neg hn]
        exact .plain ⟨rfl, rfl⟩ rfl rfl hno hlive nofun nofun
  | readChunkTrailer =>
    have hlive : cr.state ≠ .eofChunk := by rw [hs]; decide
    have hno : cr.state ≠ .verifyChunk := by rw [hs]; decide
    dsimp only
    split
    next =>
      exact .plain ⟨rfl, rfl⟩ rfl rfl hno hlive afterTrailer_trailer fun h => absurd h (afterTrailer_ne_eof _)
    next =>
      split
      next => exact .plain ⟨rfl, rfl⟩ rfl rfl hno hlive afterTrailer_trailer fun h => absurd h (afterTrailer_ne_eof _)
      next => exact .plain ⟨rfl, rfl⟩ rfl rfl hno hlive afterTrailer_trailer fun h => absurd h (afterTrailer_ne_eof _)
      next => exact .fail ⟨rfl, rfl⟩ rfl rfl hs.symm hlive (by decide)
  | readTrailerChunk =>
    have hlive : cr.state ≠ .eofChunk := by rw [hs]; decide
    dsimp only
    split
    next e _ hparse => exact .fail ⟨rfl, rfl⟩ rfl rfl hs.symm hlive (parseTrailerLines_ne_eof hparse)
    next =>
      split
      next => exact .fail ⟨rfl, rfl⟩ rfl rfl hs.symm hlive (by decide)
      next =>
        split
        next => exact .fail ⟨rfl, rfl⟩ rfl rfl hs.symm hlive (by decide)
        next =>
          split
          next => exact .fail ⟨rfl, rfl⟩ rfl rfl hs.symm hlive (by decide)
          next => exact .plain ⟨rfl, rfl⟩ rfl rfl (by rw [hs]; decide) hlive nofun fun _ => hs
  | readChunk =>
    dsimp only
    split
    next => exact .full
    next =>
      split
      next e r _ =>
        refine .fail ⟨rfl, rfl⟩ rfl rfl hs.symm (by rw [hs]; decide) ?_
        split
        · decide
        · assumption
      next data r _ =>
        refine .data ⟨rfl, rfl⟩ rfl rfl hs ?_
        split
        · exact .inl rfl
        · exact .inr rfl
  | verifyChunk =>
    dsimp only
    rw [if_pos hcred]
    split
    next => exact .fail ⟨rfl, rfl⟩ rfl rfl hs.symm (by rw [hs]; decide) (by decide)
    next hsig =>
      have hsign : cr.chunkSignature = sign cr.seedSignature (hash cr.chunkSHA256Writer) := not_not.1 hsig
      refine .check ⟨rfl, rfl⟩ hs rfl hsign.symm hsign ?_
      dsimp only
      split <;> decide
  | verifyChecksum =>
    exact .plain ⟨rfl, rfl⟩ rfl rfl (by rw [hs]; decide) (by rw [hs]; decide)
      (fun h => absurd (hs.symm.trans h) (by decide)) fun h => absurd (hs.symm.trans h) (by decide)
  | eofChunk => exact .eof hs

/-! ## Signed chunks -/

/-- Whether the last chunk with data is signed; `signed` is what holds of the chunks before `input`. Lines that are no
headers are passed over, as by calls of `Read` after an error. -/
def endsSigned : Nat → Bool → Str → Bool
  | 0, _, _ => false
  | fuel + 1, signed, input =>
    if input = [] then false
    else
      match header? input with
      | none => endsSigned fuel signed (behindLine input)
      | some (0, _) => signed
      | some (n + 1, signed) => endsSigned fuel signed ((behindLine input).drop (n + 3))

/-- Every line takes a byte at least, which bounds the chunks. -/
def lastSigned (signed : Bool) (input : Str) : Bool := endsSigned (input.length + 1) signed input

variable {input : Str} {signed : Bool}

theorem length_behindLine (h : input ≠ []) : (behindLine input).length < input.length := by
  have hpos := length_pos_of_ne_nil h
  simp only [behindLine, readChunkLine, Reader.readSlice]
  split_ifs
  · dsimp only
    split <;> simp <;> omega
  · exact hpos
  · simp [maxLineLength]
    omega

theorem endsSigned_congr {fuel fuel' : Nat} (h : input.length < fuel) (h' : input.length < fuel') :
    endsSigned fuel signed input = endsSigned fuel' signed input := by
  induction fuel generalizing fuel' signed input with
  | zero => omega
  | succ fuel ih =>
    cases fuel' with
    | zero => omega
    | succ fuel' =>
      rw [endsSigned, endsSigned]
      split
      next => rfl
      next hne =>
        have hlt := length_behindLine hne
        split
        next => exact ih (by omega) (by omega)
        next => rfl
        next => exact ih (by rw [length_drop]; omega) (by rw [length_drop]; omega)

theorem lastSigned_none (h : header? input = none) :
    lastSigned signed (behindLine input) = lastSigned signed input := by
  by_cases hne : input = []
  · subst hne
    rfl
  · rw [lastSigned, lastSigned, endsSigned.eq_2 _ input, if_neg hne, h]
    exact endsSigned_congr (Nat.lt_succ_self _) (length_behindLine hne)

theorem ne_nil_of_header? {n : Nat} {b : Bool} (h : header? input = some (n, b)) : input ≠ [] := by
  rintro rfl
  cases h

theorem lastSigned_zero {b : Bool} (h : header? input = some (0, b)) : lastSigned signed input = signed := by
  rw [lastSigned, endsSigned, if_neg (ne_nil_of_header? h), h]

theorem lastSigned_succ {n : Nat} {b : Bool} (h : header? input = some (n, b)) (hn : n ≠ 0) :
    lastSigned b ((behindLine input).drop (n + 2)) = lastSigned signed input := by
  obtain ⟨n, rfl⟩ := Nat.exists_eq_succ_of_ne_zero hn
  have hlt := length_behindLine (ne_nil_of_header? h)
  rw [lastSigned, lastSigned, endsSigned.eq_2 _ input, if_neg (ne_nil_of_header? h), h]
  exact endsSigned_congr (Nat.lt_succ_self _) (by rw [length_drop]; omega)

/-- What a reader with a trailer has ahead of it, where the last chunk with data is signed or not. -/
def Ahead (target : Bool) (cr : S3ChunkedReader) : Prop :=
  match cr.state, cr.lastChunk with
  | .readChunkHeader, false => lastSigned (cr.chunkSHA256Writer = []) cr.reader.input = target
  | .readChunk, false =>
    0 < cr.n ∧ lastSigned (cr.chunkSignature ≠ []) (cr.reader.input.drop (cr.n + 2)) = target
  | .readChunkTrailer, false =>
    cr.chunkSHA256Writer ≠ [] ∧ lastSigned (cr.chunkSignature ≠ []) (cr.reader.input.drop 2) = target
  | .verifyChunk, false => lastSigned true cr.reader.input = target
  | .readChunkTrailer, true | .readTrailerChunk, true | .eofChunk, true =>
    decide (cr.chunkSHA256Writer = []) = target
  | _, _ => False

/-- The reader after a round. -/
def Round.reader : Round → S3ChunkedReader
  | .more cr _ _ => cr
  | .done cr _ _ => cr

theorem drop_read {n size : Nat} (h : size ≤ n) :
    (input.drop size).drop (n - (input.take size).length + 2) = input.drop (n + 2) := by
  rw [drop_drop, length_take]
  by_cases hle : size ≤ input.length
  · congr 1
    omega
  · rw [drop_eq_nil_of_le (by omega), drop_eq_nil_of_le (by omega)]

/-- **A round keeps what is ahead.** -/
theorem Ahead.round {target : Bool} (h : Ahead target cr) (htrailer : cr.hasTrailer = true) (room : Nat) (got : Str) :
    Ahead target (round hash sign checksum cr room got).reader := by
  have hsame := h
  rw [S3.round]
  cases hs : cr.state <;> cases hl : cr.lastChunk <;> simp only [Ahead, hs, hl] at h <;> dsimp only
  case readChunkHeader.false =>
    have hcase := readS3ChunkHeader_cases cr
    generalize readS3ChunkHeader cr = cr' at hcase
    cases hcase with
    | bad hnone hr he =>
      rw [if_neg fun hend => he (Option.some.inj hend.2)]
      simp only [Round.reader, Ahead, hs, hl, hr]
      rwa [lastSigned_none hnone]
    | @header r n signature hsome hr =>
      by_cases hn : n = 0
      · subst hn
        rw [if_pos ⟨rfl, rfl⟩]
        rwa [lastSigned_zero hsome] at h
      · rw [if_neg fun hend => hn hend.1]
        dsimp only
        rw [if_neg hn]
        simp only [Round.reader, Ahead, hl, hr]
        exact ⟨Nat.pos_of_ne_zero hn, (lastSigned_succ hsome hn).trans h⟩
  case readChunkTrailer.false =>
    obtain ⟨hsha, h⟩ := h
    rw [if_pos fun hend => Bool.false_ne_true hend.2]
    by_cases hsig : cr.chunkSignature = []
    · simpa [Round.reader, Ahead, afterTrailer, hl, hsig, hsha, readCRLF] using h
    · simpa [Round.reader, Ahead, afterTrailer, hl, hsig, readCRLF] using h
  case readChunkTrailer.true =>
    split
    · simpa [Round.reader, Ahead, afterTrailer, htrailer, hl] using h
    · split
      · simpa [Round.reader, Ahead, afterTrailer, htrailer, hl] using h
      · simpa [Round.reader, Ahead, afterTrailer, htrailer, hl] using h
      · exact h
  case readTrailerChunk.true =>
    split
    · exact h
    · split
      · exact h
      · split
        · exact h
        · split <;> exact h
  case readChunk.false =>
    split
    · exact hsame
    · rw [Reader.read]
      by_cases hempty : cr.reader.input = []
      · rw [if_pos hempty]
        exact h
      · rw [if_neg hempty]
        dsimp only [Round.reader]
        obtain ⟨hn, h⟩ := h
        have hsize : min (min room cr.n) (cr.reader.sizes.headD (min room cr.n)) ≤ cr.n := by omega
        generalize min (min room cr.n) (cr.reader.sizes.headD (min room cr.n)) = size at hsize
        rw [← drop_read hsize] at h
        have hle := length_take_le size cr.reader.input
        by_cases hzero : cr.n - (cr.reader.input.take size).length = 0
        · have hdata : cr.reader.input.take size ≠ [] := by
            intro hdata
            rw [hdata, length_nil] at hzero
            omega
          rw [hzero] at h
          rw [if_pos hzero]
          exact ⟨by simp [hdata], h⟩
        · rw [if_neg hzero]
          exact ⟨Nat.pos_of_ne_zero hzero, h⟩
  case verifyChunk.false =>
    split
    · split <;> exact h
    · exact h
  case eofChunk.true => exact hsame

/-! ## Chains -/

/-- The seed of the next check. -/
def lastSignature (seed : Str) : List Check → Str
  | [] => seed
  | c :: checks => lastSignature c.signature checks

theorem lastSignature_append (seed : Str) (checks : List Check) (c : Check) :
    lastSignature seed (checks ++ [c]) = c.signature := by
  induction checks generalizing seed with
  | nil => rfl
  | cons c' checks ih => exact ih c'.signature

theorem Chained.append {seed : Str} {checks : List Check} {c : Check} (h : Chained hash sign seed checks)
    (hseed : c.seed = lastSignature seed checks)
    (hsign : c.signature = sign (lastSignature seed checks) (hash c.data)) :
    Chained hash sign seed (checks ++ [c]) := by
  induction checks generalizing seed with
  | nil => exact ⟨hseed, hsign, trivial⟩
  | cons c' checks ih => exact ⟨h.1, h.2.1, ih h.2.2 hseed hsign⟩

/-! ## Sessions -/

/-- The invariant of a session that began with a seed, and with chunks that end signed or not. -/
structure Inv (hash : Str → Str) (sign : Str → Str → Str) (seed : Str) (trailer target : Bool) (s : Session) :
    Prop where
  cred : s.cr.cred = true
  hasTrailer : s.cr.hasTrailer = trailer
  hashed : s.hashed = checkedData s.checks ++ s.cr.chunkSHA256Writer
  chained : Chained hash sign seed s.checks
  seedSignature : s.cr.seedSignature = lastSignature seed s.checks
  got : s.got <:+ s.hashed
  delivered : ∀ p ∈ s.delivered, s.hashed[p.2]? = some p.1
  trailerChunk : s.cr.state = .readTrailerChunk → trailer = true
  eof : s.cr.state = .eofChunk → trailer = false → s.cr.chunkSHA256Writer = []
  returned : some .eof ∈ s.returned → s.cr.state = .eofChunk ∧ s.got = []
  ahead : trailer = true → Ahead target s.cr
  whole : (∀ e ∈ s.returned, e = none ∨ e = some .eof) →
    ∀ i, i + s.got.length < s.hashed.length → ∃ p ∈ s.delivered, p.2 = i

theorem Ahead.eof {target : Bool} (h : Ahead target cr) (hs : cr.state = .eofChunk) :
    cr.chunkSHA256Writer = [] ↔ target = true := by
  cases hl : cr.lastChunk <;> simp only [Ahead, hs, hl] at h
  rw [← h, decide_eq_true_iff]

theorem madeCheck_of_ne (h : cr.state ≠ .verifyChunk) : madeCheck cr = [] := by
  rw [madeCheck, if_neg (fun hs => h hs.1)]

variable {p : UInt8 × Nat}

theorem getElem?_of_mem_zipIdx {l s : Str} (h : l <:+ s)
    (hp : p ∈ l.zipIdx (s.length - l.length)) : s[p.2]? = some p.1 := by
  obtain ⟨t, rfl⟩ := h
  rw [length_append, Nat.add_sub_cancel] at hp
  obtain ⟨hle, hget⟩ := List.mem_zipIdx_iff_le_and_getElem?_sub.1 hp
  rw [getElem?_append_right hle, hget]

theorem getElem?_append_data {s d : Str} (h : s[p.2]? = some p.1) : (s ++ d)[p.2]? = some p.1 := by
  have hlt : p.2 < s.length := by
    by_contra hge
    rw [getElem?_eq_none (by omega)] at h
    cases h
  rw [getElem?_append_left hlt, h]

namespace Inv

variable {seed : Str} {trailer target : Bool} {s : Session}

/-- A call that hands out what it has got puts it at its place. -/
theorem deliver_place (h : Inv hash sign seed trailer target s) :
    ∀ p ∈ s.delivered ++ s.got.zipIdx (s.hashed.length - s.got.length), s.hashed[p.2]? = some p.1 :=
  fun p hp => (List.mem_append.1 hp).elim (h.delivered p) (getElem?_of_mem_zipIdx h.got)

/-- It goes on where the calls before it have stopped. -/
theorem deliver (h : Inv hash sign seed trailer target s) (hclean : ∀ e ∈ s.returned, e = none ∨ e = some .eof)
    {i : Nat} (hi : i < s.hashed.length) :
    ∃ p ∈ s.delivered ++ s.got.zipIdx (s.hashed.length - s.got.length), p.2 = i := by
  by_cases hlt : i + s.got.length < s.hashed.length
  · obtain ⟨p, hp, rfl⟩ := h.whole hclean i hlt
    exact ⟨p, List.mem_append_left _ hp, rfl⟩
  · have hle := h.got.length_le
    have hget : i - (s.hashed.length - s.got.length) < s.got.length := by omega
    exact ⟨(s.got[i - (s.hashed.length - s.got.length)], i), List.mem_append_right _
      (List.mem_zipIdx_iff_le_and_getElem?_sub.2 ⟨by omega, getElem?_eq_getElem hget⟩), rfl⟩

/-- **A round keeps the invariant.** -/
theorem step (h : Inv hash sign seed trailer target s) (next : Nat) :
    Inv hash sign seed trailer target (s.step hash sign checksum next) := by
  have hcase : RoundCase hash sign s.cr s.room s.got (round hash sign checksum s.cr s.room s.got) :=
    round_cases h.cred s.room s.got
  have hahead : trailer = true → Ahead target (round hash sign checksum s.cr s.room s.got).reader :=
    fun ht => (h.ahead ht).round (h.hasTrailer.trans ht) s.room s.got
  rw [Session.step]
  generalize round hash sign checksum s.cr s.room s.got = r at hcase hahead
  cases hcase with
  | plain hframe hsha hseed hstate hlive htrailer heof =>
    have hdata : s.hashed ++ s.got.drop s.got.length = s.hashed := by simp
    have hchecks : s.checks ++ madeCheck s.cr = s.checks := by rw [madeCheck_of_ne hstate, append_nil]
    dsimp only
    rw [hdata, hchecks]
    refine ⟨hframe.cred.trans h.cred, hframe.hasTrailer.trans h.hasTrailer, hsha ▸ h.hashed, h.chained,
      hseed.trans h.seedSignature, h.got, h.delivered, fun hs => h.hasTrailer ▸ htrailer hs, fun hs hno => ?_,
      fun hret => absurd (h.returned hret).1 hlive, hahead, h.whole⟩
    rw [h.trailerChunk (heof hs)] at hno
    cases hno
  | @data cr' d room' hframe hsha hseed hstate hstate' =>
    have hdata : (s.got ++ d).drop s.got.length = d := drop_left
    have hchecks : s.checks ++ madeCheck s.cr = s.checks := by
      rw [madeCheck_of_ne (by rw [hstate]; decide), append_nil]
    dsimp only
    rw [hdata, hchecks]
    obtain ⟨t, ht⟩ := h.got
    refine ⟨hframe.cred.trans h.cred, hframe.hasTrailer.trans h.hasTrailer, ?_, h.chained,
      hseed.trans h.seedSignature, ⟨t, ?_⟩, fun p hp => getElem?_append_data (h.delivered p hp), fun hs => ?_,
      fun hs _ => ?_, fun hret => ?_, hahead, fun hclean i hi => h.whole hclean i ?_⟩
    · rw [hsha, h.hashed, append_assoc]
    · rw [← ht, append_assoc]
    · rcases hstate' with h' | h' <;> cases h'.symm.trans hs
    · rcases hstate' with h' | h' <;> cases h'.symm.trans hs
    · cases hstate.symm.trans (h.returned hret).1
    · rw [length_append, length_append] at hi
      omega
  | @check cr' hframe hstate hsha hseed hsign hstate' =>
    have hdata : s.hashed ++ s.got.drop s.got.length = s.hashed := by simp
    have hmade : madeCheck s.cr = [⟨s.cr.seedSignature, s.cr.chunkSHA256Writer, s.cr.chunkSignature⟩] := by
      rw [madeCheck, if_pos ⟨hstate, h.cred⟩]
    dsimp only
    rw [hdata, hmade]
    refine ⟨hframe.cred.trans h.cred, hframe.hasTrailer.trans h.hasTrailer, ?_,
      h.chained.append h.seedSignature (h.seedSignature ▸ hsign), ?_, h.got, h.delivered, fun hs => absurd hs hstate',
      fun _ _ => hsha, fun hret => ?_, hahead, h.whole⟩
    · rw [hsha, append_nil, checkedData, flatMap_append, h.hashed]
      simp [checkedData]
    · rw [lastSignature_append, hseed]
    · cases hstate.symm.trans (h.returned hret).1
  | fail hframe hsha hseed hstate hlive he =>
    refine ⟨hframe.cred.trans h.cred, hframe.hasTrailer.trans h.hasTrailer, hsha ▸ h.hashed, h.chained,
      hseed.trans h.seedSignature, nil_suffix, ?_, fun hs => h.trailerChunk (hstate.symm.trans hs),
      fun hs => absurd (hstate.symm.trans hs) hlive, fun hret => ?_, hahead, fun hclean => ?_⟩
    · simpa using h.delivered
    · rcases List.mem_append.1 hret with hret | hret
      · exact absurd (h.returned hret).1 hlive
      · exact absurd (Option.some.inj (List.mem_singleton.1 hret)).symm he
    · rcases hclean _ (List.mem_append_right _ (List.mem_singleton_self _)) with hnone | heof
      · cases hnone
      · exact absurd (Option.some.inj heof) he
  | full =>
    refine ⟨h.cred, h.hasTrailer, h.hashed, h.chained, h.seedSignature, nil_suffix, h.deliver_place, h.trailerChunk,
      h.eof, fun hret => ?_, h.ahead,
      fun hclean i hi => h.deliver (fun e he => hclean e (List.mem_append_left _ he)) hi⟩
    rcases List.mem_append.1 hret with hret | hret
    · exact ⟨(h.returned hret).1, rfl⟩
    · cases List.mem_singleton.1 hret
  | eof hstate =>
    exact ⟨h.cred, h.hasTrailer, h.hashed, h.chained, h.seedSignature, nil_suffix, h.deliver_place, h.trailerChunk,
      h.eof, fun _ => ⟨hstate, rfl⟩, h.ahead,
      fun hclean i hi => h.deliver (fun e he => hclean e (List.mem_append_left _ he)) hi⟩

end Inv

variable {amzTrailerHeader seed : Str} {body : Reader}

theorem newChunkedReader_inv (h : newChunkedReader amzTrailerHeader true seed body = some cr) (first : Nat) :
    Inv hash sign seed (amzTrailerHeader ≠ []) (lastSigned true body.input) { cr := cr, room := first } := by
  rw [newChunkedReader] at h
  split at h
  next => cases h
  next =>
    obtain rfl := Option.some.inj h
    exact ⟨rfl, rfl, rfl, trivial, rfl, nil_suffix, nofun, nofun, nofun, nofun, fun _ => rfl, nofun⟩

/-- **Every session keeps the invariant.** -/
theorem run_inv (h : newChunkedReader amzTrailerHeader true seed body = some cr) (first : Nat) (nexts : List Nat) :
    Inv hash sign seed (amzTrailerHeader ≠ []) (lastSigned true body.input)
      (Session.run hash sign checksum cr first nexts) := by
  have hstart : Inv hash sign seed (amzTrailerHeader ≠ []) (lastSigned true body.input) { cr := cr, room := first } :=
    newChunkedReader_inv h first
  rw [Session.run]
  generalize ({ cr := cr, room := first } : Session) = s at hstart
  induction nexts generalizing s with
  | nil => exact hstart
  | cons next nexts ih => exact ih _ (hstart.step next)

/-- **The end of a streaming upload.** When a reader with a credential returns `io.EOF`, its checks are chained from
the seed, and every byte it has handed out was checked if it has no trailer or the last chunk of the body with data is
signed; where no call has failed, only then. -/
theorem eof_checked {amzTrailerHeader seed : Str} {body : Reader} {cr : S3ChunkedReader}
    (h : newChunkedReader amzTrailerHeader true seed body = some cr) (first : Nat) (nexts : List Nat)
    (heof : some .eof ∈ (Session.run hash sign checksum cr first nexts).returned) :
    let s := Session.run hash sign checksum cr first nexts
    Chained hash sign seed s.checks ∧
    ((amzTrailerHeader ≠ [] → lastSigned true body.input = true) →
      ∀ p ∈ s.delivered, (checkedData s.checks)[p.2]? = some p.1) ∧
    ((∀ e ∈ s.returned, e = none ∨ e = some .eof) →
      (∀ p ∈ s.delivered, (checkedData s.checks)[p.2]? = some p.1) →
      amzTrailerHeader ≠ [] → lastSigned true body.input = true) := by
  have hinv : Inv hash sign seed (amzTrailerHeader ≠ []) (lastSigned true body.input)
      (Session.run hash sign checksum cr first nexts) := run_inv h first nexts
  generalize Session.run hash sign checksum cr first nexts = s at heof hinv ⊢
  obtain ⟨hstate, hgot⟩ := hinv.returned heof
  refine ⟨hinv.chained, fun hcond p hp => ?_, fun hclean hall htrailer => ?_⟩
  · have hempty : s.cr.chunkSHA256Writer = [] := by
      by_cases htrailer : amzTrailerHeader = []
      · exact hinv.eof hstate (by simp [htrailer])
      · exact ((hinv.ahead (by simp [htrailer])).eof hstate).2 (hcond htrailer)
    have hget := hinv.delivered p hp
    rwa [hinv.hashed, hempty, append_nil] at hget
  · refine ((hinv.ahead (by simp [htrailer])).eof hstate).1 ?_
    by_contra hne
    have hpos := length_pos_of_ne_nil hne
    have hlen : s.hashed.length = (checkedData s.checks).length + s.cr.chunkSHA256Writer.length := by
      rw [hinv.hashed, length_append]
    -- the first byte that is still in the hash was handed out
    obtain ⟨p, hp, hplace⟩ := hinv.whole hclean (checkedData s.checks).length (by rw [hgot, length_nil]; omega)
    have hget := hall p hp
    rw [hplace, getElem?_eq_none (Nat.le_refl _)] at hget
    cases hget

/-- A body that ends with `io.EOF` and is read as far as the buffers go. -/
def bodyOf (text : String) : Reader where
  input := ascii text
  final := .eof
  sizes := []

/-- A session with buffers of eight bytes in which every signature and every checksum is `s`. -/
def constantRun (cr : S3ChunkedReader) : Session :=
  Session.run id (fun _ _ => ascii "s") (fun _ _ => ascii "s") cr 8 (List.replicate 11 8)

/-- A chunk without a signature, a signed one, and a trailer. -/
def signedLast : Reader := bodyOf "1\r\na\r\n1;chunk-signature=s\r\nb\r\n0\r\nx-amz-checksum-crc32:s\r\n\r\n"

/-- With a trailer a signed chunk covers the chunk before it. -/
theorem eof_checked_signed :
    ∃ cr, newChunkedReader (ascii "x-amz-checksum-crc32") true [] signedLast = some cr ∧
      (constantRun cr).delivered = [(0x61, 0), (0x62, 1)] ∧
      ∀ p ∈ (constantRun cr).delivered, (checkedData (constantRun cr).checks)[p.2]? = some p.1 := by
  have hok : ∃ cr, newChunkedReader (ascii "x-amz-checksum-crc32") true [] signedLast = some cr ∧
      some .eof ∈ (constantRun cr).returned ∧ (constantRun cr).delivered = [(0x61, 0), (0x62, 1)] :=
    ⟨_, rfl, by decide +kernel⟩
  obtain ⟨cr, hcr, heof, hdelivered⟩ := hok
  exact ⟨cr, hcr, hdelivered, (eof_checked hcr 8 (List.replicate 11 8) heof).2.1 fun _ => by decide +kernel⟩

/-- With a trailer a chunk without a signature is handed out and never checked. -/
theorem eof_unchecked_trailer :
    ∃ cr, newChunkedReader (ascii "x-amz-checksum-crc32") true []
        (bodyOf "1\r\na\r\n0\r\nx-amz-checksum-crc32:s\r\n\r\n") = some cr ∧
      some .eof ∈ (constantRun cr).returned ∧ (constantRun cr).delivered = [(0x61, 0)] ∧
      ¬ ∀ p ∈ (constantRun cr).delivered, (checkedData (constantRun cr).checks)[p.2]? = some p.1 :=
  ⟨_, rfl, by decide +kernel⟩

end S3
