import SeaweedFS.Lib.Simulation
import SeaweedFS.Lib.Window
import SeaweedFS.Storage.ErasureCoding.Encoder

/-!
# What the shards hold

The block of shard `i` in a row is a window of the `.dat` file (`Striped.encodeData`), so after the loops the shard is
its stripe of the large rows and its stripe of the small rows behind them (`encodeDatFile_striped`). The loops come to
an end (`encodeDatFile_ok`).
-/

namespace ErasureCoding

open Lib List ErasureCoding Nat

variable {ctx : ECContext} {enc : Encoder} {file : File}

/-- The blocks of shard `i` in `rows` rows of the `.dat` file, from `start` on. -/
def stripe (dat : File) (dataShards start blockSize rows i : Nat) : List UInt8 :=
  (List.range rows).flatMap fun r =>
    window 0 dat (start + r * (blockSize * dataShards) + blockSize * i) blockSize

@[simp] theorem length_stripe (dat : File) (dataShards start blockSize rows i : Nat) :
    (stripe dat dataShards start blockSize rows i).length = rows * blockSize :=
  length_flatMap_blocks (fun _ => length_window ..) rows

@[simp] theorem stripe_zero (dat : File) (dataShards start blockSize i : Nat) :
    stripe dat dataShards start blockSize 0 i = [] := rfl

theorem stripe_succ (dat : File) (dataShards start blockSize rows i : Nat) :
    stripe dat dataShards start blockSize (rows + 1) i =
      window 0 dat (start + blockSize * i) blockSize ++
        stripe dat dataShards (start + blockSize * dataShards) blockSize rows i := by
  unfold stripe
  rw [range_succ_eq_map, flatMap_cons, flatMap_map, zero_mul, add_zero]
  congr 1
  refine flatMap_congr fun r _ => ?_
  rw [succ_mul]
  congr 1
  omega

/-- **A part of a block** in a stripe is a window of the file. -/
theorem slice_stripe {dat : File} {dataShards start blockSize rows i row inner size : Nat}
    (hrow : row < rows) (hin : inner + size ≤ blockSize) (post : List UInt8) :
    ((stripe dat dataShards start blockSize rows i ++ post).drop (row * blockSize + inner)).take size =
      window 0 dat (start + row * (blockSize * dataShards) + blockSize * i + inner) size := by
  unfold stripe
  rw [slice_flatMap_blocks (fun _ => length_window ..) hrow hin, drop_window,
    take_window 0 dat (by omega)]

theorem drop_stripe (dat : File) (dataShards start blockSize rows i n : Nat) (post : List UInt8) :
    (stripe dat dataShards start blockSize rows i ++ post).drop (rows * blockSize + n) =
      post.drop n := by
  rw [← drop_drop, drop_left' (length_stripe ..)]

/-- The shards while the file is encoded: each has `size` bytes, and data shard `i` is `data i`. -/
structure Striped (ctx : ECContext) (outputs : List File) (size : Nat) (data : Nat → List UInt8) :
    Prop where
  total : outputs.length = ctx.total
  size : ∀ output ∈ outputs, output.length = size
  data : ∀ i < ctx.dataShards, outputs[i]? = some (data i)

theorem striped_start : Striped ctx (List.replicate ctx.total []) 0 fun _ => [] where
  total := length_replicate
  size := fun output h => by rw [eq_of_mem_replicate h]; rfl
  data := fun i hi => by
    rw [getElem?_replicate, if_pos (by unfold ECContext.total; omega)]

theorem Striped.take {outputs : List File} {size : Nat} {data : Nat → List UInt8}
    (h : Striped ctx outputs size data) :
    outputs.take ctx.dataShards = (List.range ctx.dataShards).map data := by
  refine ext_getElem? fun i => ?_
  rcases lt_or_ge i ctx.dataShards with hi | hi
  · rw [getElem?_take_of_lt hi, h.data i hi]
    simp [hi]
  · rw [getElem?_take_eq_none hi]
    simp [hi]

/-! ## A batch, and a row of blocks -/

theorem fillBuffer_eq (bufferSize off : Nat) :
    fillBuffer file bufferSize off = window 0 file off bufferSize := by
  rw [window_eq_fill]
  rfl

variable {data : List (List UInt8)}

theorem length_encode (h : data.length = ctx.dataShards)
    (bufferSize : Nat) : (enc.encode ctx bufferSize data).length = ctx.total := by
  simp [Encoder.encode, h, ECContext.total]

theorem length_of_mem_encode {bufferSize : Nat}
    (h : ∀ buffer ∈ data, buffer.length = bufferSize) {buffer : List UInt8}
    (hb : buffer ∈ enc.encode ctx bufferSize data) : buffer.length = bufferSize := by
  rcases mem_append.1 hb with hb | hb
  · exact h buffer hb
  · obtain ⟨j, -, rfl⟩ := mem_map.1 hb
    simp

variable {outputs : List File} {size : Nat} {data : Nat → List UInt8}

variable {largeBlockSize bufferSize : Nat} {smallBlockSize : Nat}

section

variable (h : Striped ctx outputs size data)
include h

theorem Striped.encodeDataOneBatch (enc : Encoder) (file : File)
    (startOffset blockSize bufferSize : Nat) :
    Striped ctx (encodeDataOneBatch ctx enc file startOffset blockSize bufferSize outputs)
      (size + bufferSize)
      fun i => data i ++ window 0 file (startOffset + blockSize * i) bufferSize := by
  unfold ErasureCoding.encodeDataOneBatch
  simp only [fillBuffer_eq]
  set buffers := (range ctx.dataShards).map fun i =>
    window 0 file (startOffset + blockSize * i) bufferSize with hbuffers
  have hlen : buffers.length = ctx.dataShards := by simp [hbuffers]
  refine ⟨?_, ?_, ?_⟩
  · rw [length_zipWith, h.total, length_encode hlen, min_self]
  · intro output ho
    obtain ⟨i, hi, rfl⟩ := getElem_of_mem ho
    simp only [length_zipWith, Nat.lt_min] at hi
    rw [getElem_zipWith, length_append, h.size _ (getElem_mem hi.1),
      length_of_mem_encode (fun b hb => ?_) (getElem_mem hi.2)]
    obtain ⟨j, -, rfl⟩ := mem_map.1 hb
    exact length_window ..
  · intro i hi
    have henc : (enc.encode ctx bufferSize buffers)[i]? =
        some (window 0 file (startOffset + blockSize * i) bufferSize) := by
      unfold Encoder.encode
      rw [getElem?_append_left (by omega)]
      simp [hbuffers, hi]
    simp [getElem?_zipWith, h.data i hi, henc]

variable {outputs' : List File}

/-- **A row** adds its block to each data shard. -/
theorem Striped.encodeData {startOffset blockSize : Nat}
    (hok : encodeData ctx enc file startOffset blockSize bufferSize outputs = .ok outputs') :
    Striped ctx outputs' (size + blockSize)
      fun i => data i ++ window 0 file (startOffset + blockSize * i) blockSize := by
  unfold ErasureCoding.encodeData at hok
  split at hok
  · cases hok
  split at hok
  · cases hok
  · rename_i _ hmod
    -- after `n` batches the shards have `n` buffers more
    have hbatches : ∀ n, Striped ctx
        ((range n).foldl (fun outputs b => ErasureCoding.encodeDataOneBatch ctx enc file
          (startOffset + b * bufferSize) blockSize bufferSize outputs) outputs)
        (size + n * bufferSize)
        fun i => data i ++ window 0 file (startOffset + blockSize * i) (n * bufferSize) := by
      intro n
      induction n with
      | zero => simpa using h
      | succ n ih =>
        have hstep := ih.encodeDataOneBatch enc file (startOffset + n * bufferSize) blockSize bufferSize
        have hoff : ∀ i, startOffset + n * bufferSize + blockSize * i =
            startOffset + blockSize * i + n * bufferSize := fun i => by omega
        simp only [hoff, append_assoc, ← window_add] at hstep
        rw [range_succ, foldl_append, succ_mul, ← add_assoc]
        exact hstep
    have hblock : blockSize / bufferSize * bufferSize = blockSize :=
      Nat.div_mul_cancel (dvd_of_mod_eq_zero (by simpa using hmod))
    cases hok
    have hrow := hbatches (blockSize / bufferSize)
    rwa [hblock] at hrow

omit h in
theorem encodeData_ok (ctx : ECContext) (enc : Encoder) (file : File) {blockSize : Nat}
    (hbuf : 0 < bufferSize) (hdvd : bufferSize ∣ blockSize) (startOffset : Nat) (outputs : List File) :
    ∃ outputs', encodeData ctx enc file startOffset blockSize bufferSize outputs = .ok outputs' := by
  unfold encodeData
  rw [if_neg (by omega), if_neg (by simpa using mod_eq_zero_of_dvd hdvd)]
  exact ⟨_, rfl⟩

/-! ## The loops -/

variable {fuel remaining processed : Nat}

theorem Striped.encodeLargeRows {result : Nat × Nat × List File}
    (hok : encodeLargeRows ctx enc file largeBlockSize bufferSize fuel remaining processed outputs =
      .ok result) : 0 < largeBlockSize * ctx.dataShards ∧
      result.1 = remaining % (largeBlockSize * ctx.dataShards) ∧ result.2.1 = processed +
        remaining / (largeBlockSize * ctx.dataShards) * (largeBlockSize * ctx.dataShards) ∧
      Striped ctx result.2.2 (size + remaining / (largeBlockSize * ctx.dataShards) * largeBlockSize)
        fun i => data i ++ stripe file ctx.dataShards processed largeBlockSize
          (remaining / (largeBlockSize * ctx.dataShards)) i := by
  induction fuel generalizing remaining processed outputs size data with
  | zero => cases hok
  | succ fuel ih =>
    unfold encodeLargeRows at hok
    set row := largeBlockSize * ctx.dataShards with hrow
    by_cases hge : remaining ≥ row
    · rw [if_pos hge] at hok
      obtain ⟨next, hnext, hrest⟩ := bind_eq_ok.1 hok
      obtain ⟨hpos, hrem, hproc, hstr⟩ := ih (h.encodeData hnext) hrest
      have hdiv : remaining / row = (remaining - row) / row + 1 := by
        rw [div_eq remaining row, if_pos ⟨hpos, hge⟩]
      refine ⟨hpos, by rw [hrem, mod_eq_sub_mod hge], ?_, ?_⟩
      · rw [hproc, hdiv, succ_mul]
        omega
      · simp only [hdiv, stripe_succ]
        simp only [append_assoc] at hstr
        convert hstr using 1
        rw [succ_mul]
        omega
    · rw [if_neg hge] at hok
      cases hok
      have hdiv : remaining / row = 0 := div_eq_of_lt (by omega)
      refine ⟨by omega, (mod_eq_of_lt (by omega)).symm, by simp [hdiv], ?_⟩
      simpa [hdiv] using h

theorem Striped.encodeSmallRows
    (hok : encodeSmallRows ctx enc file smallBlockSize bufferSize fuel remaining processed outputs =
      .ok outputs') : ∃ rows, remaining ≤ rows * (smallBlockSize * ctx.dataShards) ∧
      (∀ k < rows, k * (smallBlockSize * ctx.dataShards) < remaining) ∧
      Striped ctx outputs' (size + rows * smallBlockSize)
        fun i => data i ++ stripe file ctx.dataShards processed smallBlockSize rows i := by
  induction fuel generalizing remaining processed outputs size data with
  | zero => cases hok
  | succ fuel ih =>
    unfold encodeSmallRows at hok
    set row := smallBlockSize * ctx.dataShards with hrow
    by_cases hpos : remaining > 0
    · rw [if_pos hpos] at hok
      obtain ⟨next, hnext, hrest⟩ := bind_eq_ok.1 hok
      obtain ⟨rows, hcover, hfew, hstr⟩ := ih (h.encodeData hnext) hrest
      refine ⟨rows + 1, by rw [succ_mul]; omega, fun k hk => ?_, ?_⟩
      · cases k with
        | zero => omega
        | succ k =>
          have := hfew k (by omega)
          rw [succ_mul]
          omega
      · simp only [stripe_succ]
        simp only [append_assoc] at hstr
        convert hstr using 1
        rw [succ_mul]
        omega
    · rw [if_neg hpos] at hok
      cases hok
      exact ⟨0, by omega, fun k hk => absurd hk (not_lt_zero k), by simpa using h⟩

end

variable {fuel remaining : Nat}

theorem encodeLargeRows_ok (enc : Encoder) (file : File)
    (hrow : 0 < largeBlockSize * ctx.dataShards) (hbuf : 0 < bufferSize)
    (hdvd : bufferSize ∣ largeBlockSize) (hfuel : remaining < fuel)
    (processed : Nat) (outputs : List File) :
    ∃ result, encodeLargeRows ctx enc file largeBlockSize bufferSize fuel remaining processed outputs =
      .ok result := by
  induction fuel generalizing remaining processed outputs with
  | zero => omega
  | succ fuel ih =>
    unfold encodeLargeRows
    by_cases hge : remaining ≥ largeBlockSize * ctx.dataShards
    · obtain ⟨next, hnext⟩ := encodeData_ok ctx enc file hbuf hdvd processed outputs
      rw [if_pos hge, hnext]
      exact ih (by omega) _ next
    · rw [if_neg hge]
      exact ⟨_, rfl⟩

theorem encodeSmallRows_ok (hrow : 0 < smallBlockSize * ctx.dataShards) (hbuf : 0 < bufferSize)
    (hdvd : bufferSize ∣ smallBlockSize) (hfuel : remaining < fuel)
    (processed : Nat) (outputs : List File) :
    ∃ outputs', encodeSmallRows ctx enc file smallBlockSize bufferSize fuel remaining processed
      outputs = .ok outputs' := by
  induction fuel generalizing remaining processed outputs with
  | zero => omega
  | succ fuel ih =>
    unfold encodeSmallRows
    by_cases hpos : remaining > 0
    · obtain ⟨next, hnext⟩ := encodeData_ok ctx enc file hbuf hdvd processed outputs
      rw [if_pos hpos, hnext]
      exact ih (by omega) _ next
    · rw [if_neg hpos]
      exact ⟨_, rfl⟩

/-! ## The shards of a file -/

/-- The shards of `file` with `rows` rows of small blocks behind the full rows of large blocks. -/
structure Encoded (ctx : ECContext) (file : File) (largeBlockSize smallBlockSize rows : Nat)
    (shards : List File) : Prop where
  largeRow : 0 < largeBlockSize * ctx.dataShards
  /-- The small rows hold what the large rows leave. -/
  covered : file.length % (largeBlockSize * ctx.dataShards) ≤ rows * (smallBlockSize * ctx.dataShards)
  /-- No small row is empty. -/
  few : ∀ k < rows,
    k * (smallBlockSize * ctx.dataShards) < file.length % (largeBlockSize * ctx.dataShards)
  striped : Striped ctx shards
    (file.length / (largeBlockSize * ctx.dataShards) * largeBlockSize + rows * smallBlockSize)
    fun i =>
      stripe file ctx.dataShards 0 largeBlockSize
        (file.length / (largeBlockSize * ctx.dataShards)) i ++
      stripe file ctx.dataShards
        (file.length / (largeBlockSize * ctx.dataShards) * (largeBlockSize * ctx.dataShards))
        smallBlockSize rows i

/-- **What `encodeDatFile` writes.** -/
theorem encodeDatFile_striped {shards : List File}
    (hok : generateEcFiles ctx enc file bufferSize largeBlockSize smallBlockSize = .ok shards) :
    ∃ rows, Encoded ctx file largeBlockSize smallBlockSize rows shards := by
  unfold generateEcFiles encodeDatFile at hok
  split at hok
  · cases hok
  · obtain ⟨⟨remaining, processed, outputs⟩, hlarge, hsmall⟩ := bind_eq_ok.1 hok
    obtain ⟨hrow, hrem, hproc, hstr⟩ := striped_start.encodeLargeRows hlarge
    obtain ⟨rows, hcover, hfew, hall⟩ := hstr.encodeSmallRows hsmall
    dsimp only at hrem hproc
    refine ⟨rows, hrow, hrem ▸ hcover, fun k hk => hrem ▸ hfew k hk, ?_⟩
    simpa [hproc] using hall

theorem largeRowsWritten_eq {rows : Nat}
    (hok : largeRowsWritten ctx enc file bufferSize largeBlockSize = .ok rows) :
    rows = file.length / (largeBlockSize * ctx.dataShards) := by
  obtain ⟨⟨remaining, processed, outputs⟩, hlarge, hrows⟩ := bind_eq_ok.1 hok
  obtain ⟨hrow, -, hproc, -⟩ := striped_start.encodeLargeRows hlarge
  cases hrows
  dsimp only at hproc ⊢
  rw [hproc, Nat.zero_add, Nat.mul_div_cancel _ hrow]

theorem largeRowsWritten_ok (ctx : ECContext) (enc : Encoder) (file : File)
    (hrow : 0 < largeBlockSize * ctx.dataShards) (hbuf : 0 < bufferSize)
    (hdvd : bufferSize ∣ largeBlockSize) : largeRowsWritten ctx enc file bufferSize largeBlockSize =
      .ok (file.length / (largeBlockSize * ctx.dataShards)) := by
  obtain ⟨result, hlarge⟩ := encodeLargeRows_ok enc file hrow hbuf hdvd
    (lt_succ_self file.length) 0 (replicate ctx.total [])
  have hok : largeRowsWritten ctx enc file bufferSize largeBlockSize =
      .ok (result.2.1 / (largeBlockSize * ctx.dataShards)) := by
    unfold largeRowsWritten
    rw [← succ_eq_add_one, hlarge]
    rfl
  rw [hok, largeRowsWritten_eq hok]

/-- **The loops come to an end.** -/
theorem encodeDatFile_ok (enc : Encoder) (file : File) (hds : 0 < ctx.dataShards)
    (hbuf : 0 < bufferSize) (hL : 0 < largeBlockSize) (hS : 0 < smallBlockSize)
    (hbL : bufferSize ∣ largeBlockSize) (hbS : bufferSize ∣ smallBlockSize) :
    ∃ shards, generateEcFiles ctx enc file bufferSize largeBlockSize smallBlockSize = .ok shards := by
  unfold generateEcFiles encodeDatFile
  rw [if_neg (by omega)]
  dsimp only
  obtain ⟨⟨remaining, processed, outputs⟩, hlarge⟩ := encodeLargeRows_ok enc file (mul_pos hL hds)
    hbuf hbL (lt_succ_self file.length) 0 (replicate ctx.total [])
  rw [hlarge]
  exact encodeSmallRows_ok (mul_pos hS hds) hbuf hbS (lt_succ_self remaining) processed outputs

theorem writeEcFilesWithContext_ok (enc : Encoder) (file : File) (hds : 0 < ctx.dataShards) :
    ∃ shards, writeEcFilesWithContext ctx enc file = .ok shards :=
  encodeDatFile_ok enc file hds (by decide) (by decide) (by decide) (by decide) (by decide)

end ErasureCoding
