import SeaweedFS.Storage.ErasureCoding.Decoder
import SeaweedFS.Storage.ErasureCoding.Proof.Encoder

/-!
# What `WriteDatFile` makes of the shards

The decoder copies the blocks of its inputs row by row (`interleave`). On the stripes of a file the rows are windows
of it (`interleave_stripe`), so with the number of large rows that was written it gives the file back
(**`writeDatFile_inverts`**).
-/

namespace ErasureCoding

open Lib List Nat

/-- The blocks of the inputs, row by row. -/
def interleave (inputs : List File) (blockSize rows : Nat) : List UInt8 :=
  (List.range rows).flatMap fun r => inputs.flatMap fun input => (input.drop (r * blockSize)).take blockSize

@[simp] theorem interleave_zero (inputs : List File) (blockSize : Nat) :
    interleave inputs blockSize 0 = [] := rfl

theorem interleave_succ (inputs : List File) (blockSize rows : Nat) :
    interleave inputs blockSize (rows + 1) = inputs.flatMap (·.take blockSize) ++
        interleave (inputs.map (·.drop blockSize)) blockSize rows := by
  unfold interleave
  rw [range_succ_eq_map, flatMap_cons, flatMap_map]
  congr 1
  · simp
  · refine flatMap_congr fun r _ => ?_
    rw [flatMap_map]
    refine flatMap_congr fun input _ => ?_
    rw [drop_drop, succ_mul, add_comm]

/-! ## The loops -/

variable {inputs : List File}

theorem length_flatMap_take {len : Nat} (h : ∀ input ∈ inputs, len ≤ input.length) :
    (inputs.flatMap (·.take len)).length = inputs.length * len := by
  induction inputs with
  | nil => simp
  | cons input inputs ih =>
    have hinput := h input (.head _)
    rw [flatMap_cons, length_append, ih fun x hx => h x (.tail _ hx), length_take,
      min_eq_left hinput, length_cons, succ_mul, add_comm]

theorem le_length_of_succ {blockSize rows : Nat}
    (h : ∀ input ∈ inputs, (rows + 1) * blockSize ≤ input.length) :
    (∀ input ∈ inputs, blockSize ≤ input.length) ∧
      ∀ input ∈ inputs.map (·.drop blockSize), rows * blockSize ≤ input.length := by
  refine ⟨fun input hi => ?_, fun input hi => ?_⟩
  · have := h input hi
    rw [succ_mul] at this
    omega
  · obtain ⟨x, hx, rfl⟩ := mem_map.1 hi
    have := h x hx
    rw [succ_mul] at this
    rw [length_drop]
    omega

theorem copyLargeRow_eq {largeBlockSize : Nat} (h : ∀ input ∈ inputs, largeBlockSize ≤ input.length)
    (shardId : Nat) (datFile : File) : copyLargeRow largeBlockSize shardId inputs datFile =
      .ok (inputs.map (·.drop largeBlockSize), datFile ++ inputs.flatMap (·.take largeBlockSize)) := by
  induction inputs generalizing shardId datFile with
  | nil => simp [copyLargeRow]
  | cons input inputs ih =>
    unfold copyLargeRow
    have hinput := h input (.head _)
    rw [if_neg (by omega), ih fun x hx => h x (.tail _ hx)]
    simp [bind, Except.bind, pure, Except.pure]

theorem copySmallRow_eq {smallBlockSize : Nat} (h : ∀ input ∈ inputs, smallBlockSize ≤ input.length)
    (shardId : Nat) (datFile : File) (datFileSize : Nat) :
    ∃ inputs', copySmallRow smallBlockSize shardId inputs datFile datFileSize =
        .ok (inputs', datFile ++ (inputs.flatMap (·.take smallBlockSize)).take datFileSize,
          datFileSize - inputs.length * smallBlockSize) ∧
      (inputs.length * smallBlockSize ≤ datFileSize → inputs' = inputs.map (·.drop smallBlockSize)) := by
  induction inputs generalizing shardId datFile datFileSize with
  | nil => exact ⟨[], by simp [copySmallRow], fun _ => rfl⟩
  | cons input inputs ih =>
    have hinput := h input (.head _)
    obtain ⟨inputs', hrest, hfull⟩ := ih (fun x hx => h x (.tail _ hx)) (shardId + 1)
      (datFile ++ input.take (min datFileSize smallBlockSize))
      (datFileSize - min datFileSize smallBlockSize)
    refine ⟨input.drop (min datFileSize smallBlockSize) :: inputs', ?_, fun hsize => ?_⟩
    · unfold copySmallRow
      rw [if_neg (by omega), hrest]
      have htake : input.take (min datFileSize smallBlockSize) =
          (input.take smallBlockSize).take datFileSize := by rw [take_take]
      have hlen : (input.take smallBlockSize).length = smallBlockSize := by
        rw [length_take]
        omega
      have hleft : datFileSize - min datFileSize smallBlockSize = datFileSize - smallBlockSize := by omega
      have hsize : datFileSize - smallBlockSize - inputs.length * smallBlockSize =
          datFileSize - (inputs.length + 1) * smallBlockSize := by
        rw [succ_mul]
        omega
      simp only [bind, Except.bind, pure, Except.pure, flatMap_cons, take_append, hlen, htake,
        hleft, append_assoc, length_cons, hsize]
    · rw [length_cons, succ_mul] at hsize
      rw [hfull (by omega), map_cons, Nat.min_eq_right (by omega)]

variable {fuel datFileSize : Nat}

/-- **The rows of large blocks**: as many as the size has. -/
theorem copyLargeRows_eq {dataShards largeBlockSize : Nat} (hds : inputs.length = dataShards)
    (hrow : 0 < dataShards * largeBlockSize) (hfuel : datFileSize < fuel)
    (h : ∀ input ∈ inputs, datFileSize / (dataShards * largeBlockSize) * largeBlockSize ≤ input.length)
    (datFile : File) : copyLargeRows dataShards largeBlockSize fuel datFileSize inputs datFile =
      .ok (datFileSize % (dataShards * largeBlockSize),
        inputs.map (·.drop (datFileSize / (dataShards * largeBlockSize) * largeBlockSize)),
        datFile ++ interleave inputs largeBlockSize (datFileSize / (dataShards * largeBlockSize))) := by
  induction fuel generalizing datFileSize inputs datFile with
  | zero => omega
  | succ fuel ih =>
    unfold copyLargeRows
    set row := dataShards * largeBlockSize
    by_cases hge : datFileSize ≥ row
    · have hdiv : datFileSize / row = (datFileSize - row) / row + 1 := by
        rw [div_eq datFileSize row, if_pos ⟨hrow, hge⟩]
      rw [hdiv] at h
      obtain ⟨hone, hrest⟩ := le_length_of_succ h
      have hleft : datFileSize - row < fuel := by omega
      rw [if_pos hge, copyLargeRow_eq hone]
      show copyLargeRows _ _ _ _ _ _ = _
      rw [ih ((length_map _).trans hds) hleft hrest, hdiv, interleave_succ,
        mod_eq_sub_mod hge, append_assoc, map_map]
      congr 3
      refine map_congr_left fun input _ => ?_
      rw [Function.comp, drop_drop, succ_mul, add_comm]
    · have hdiv : datFileSize / row = 0 := div_eq_of_lt (by omega)
      rw [if_neg hge, hdiv, mod_eq_of_lt (by omega)]
      simp [pure, Except.pure]

/-- **The rows of small blocks**: any number of rows that has the size that is left will do. -/
theorem copySmallRows_eq {dataShards smallBlockSize : Nat} (hds : inputs.length = dataShards)
    (hrow : 0 < dataShards * smallBlockSize) (hfuel : datFileSize < fuel)
    {rows : Nat} (h : ∀ input ∈ inputs, rows * smallBlockSize ≤ input.length)
    (hrows : datFileSize ≤ rows * (dataShards * smallBlockSize)) (datFile : File) :
    copySmallRows smallBlockSize fuel datFileSize inputs datFile =
      .ok (datFile ++ (interleave inputs smallBlockSize rows).take datFileSize) := by
  induction fuel generalizing datFileSize inputs datFile rows with
  | zero => omega
  | succ fuel ih =>
    unfold copySmallRows
    by_cases hpos : datFileSize > 0
    · cases rows with
      | zero => omega
      | succ rows =>
        obtain ⟨hone, hrest⟩ := le_length_of_succ h
        obtain ⟨inputs', hcopy, hfull⟩ := copySmallRow_eq hone 0 datFile datFileSize
        have hrowLen := length_flatMap_take hone
        rw [hds] at hcopy hfull hrowLen
        rw [succ_mul] at hrows
        rw [if_pos hpos, hcopy]
        show copySmallRows _ _ _ _ _ = _
        rw [interleave_succ, take_append, hrowLen]
        rcases Nat.le_total (dataShards * smallBlockSize) datFileSize with hle | hle
        · have hleft : datFileSize - dataShards * smallBlockSize < fuel := by omega
          rw [hfull hle, ih ((length_map _).trans hds) hleft hrest (by omega), append_assoc]
        · -- the last row: nothing is left
          rw [Nat.sub_eq_zero_of_le hle, take_zero, append_nil]
          cases fuel with
          | zero => omega
          | succ fuel => simp [copySmallRows, pure, Except.pure]
    · have hzero : datFileSize = 0 := by omega
      rw [if_neg hpos, hzero]
      simp [pure, Except.pure]

theorem copySmallRows_short {smallBlockSize : Nat} {input : File}
    (h : input.length < min datFileSize smallBlockSize) (fuel : Nat) (inputs : List File)
    (datFile : File) : copySmallRows smallBlockSize (fuel + 1) datFileSize (input :: inputs) datFile =
      .error (.copySmallBlock 0) := by
  unfold copySmallRows copySmallRow
  rw [if_pos (by omega), if_pos h]
  rfl

/-- **`WriteDatFile`** on shards that are long enough. -/
theorem writeDatFileWith_eq {dataShards L S rows : Nat} {shards : List File}
    (hds : dataShards ≤ shards.length) (hL : 0 < dataShards * L) (hS : 0 < dataShards * S)
    (hlen : ∀ input ∈ shards.take dataShards,
      datFileSize / (dataShards * L) * L + rows * S ≤ input.length)
    (hrows : datFileSize % (dataShards * L) ≤ rows * (dataShards * S)) :
    writeDatFileWith dataShards L S datFileSize shards =
      .ok (interleave (shards.take dataShards) L (datFileSize / (dataShards * L)) ++
        (interleave ((shards.take dataShards).map (·.drop (datFileSize / (dataShards * L) * L))) S
          rows).take (datFileSize % (dataShards * L))) := by
  have hinputs : (shards.take dataShards).length = dataShards := by
    rw [length_take, min_eq_left hds]
  unfold writeDatFileWith
  rw [if_neg (by omega)]
  rw [copyLargeRows_eq hinputs hL (lt_succ_self datFileSize)
    (fun input hi => by have := hlen input hi; omega)]
  show copySmallRows _ _ _ _ _ = _
  rw [copySmallRows_eq ((length_map _).trans hinputs) hS (lt_succ_self _) ?_ hrows, nil_append]
  intro input hi
  obtain ⟨x, hx, rfl⟩ := mem_map.1 hi
  have := hlen x hx
  rw [length_drop]
  omega

/-! ## On the stripes of a file -/

/-- **The rows of stripes** are a window of the file. -/
theorem interleave_stripe (dat : File) {dataShards start blockSize rows n : Nat} (hn : n ≤ rows)
    (post : Nat → List UInt8) : interleave ((List.range dataShards).map fun i =>
      stripe dat dataShards start blockSize rows i ++ post i) blockSize n =
      window 0 dat start (n * (blockSize * dataShards)) := by
  rw [mul_comm n, ← flatMap_window]
  refine flatMap_congr fun r hr => ?_
  rw [← flatMap_window, flatMap_map]
  refine flatMap_congr fun i _ => ?_
  have hrow : r < rows := lt_of_lt_of_le (mem_range.1 hr) hn
  rw [← add_zero (r * blockSize), slice_stripe hrow (le_of_eq (zero_add blockSize)),
    add_zero, mul_comm r]

variable {ctx : ECContext} {dat : File} {L S smallRows : Nat} {shards : List File}

theorem Encoded.length_shard (h : Encoded ctx dat L S smallRows shards) {shard : File}
    (hshard : shard ∈ shards) : shard.length = dat.length / (L * ctx.dataShards) * L + smallRows * S :=
  h.striped.size shard hshard

/-- **Decoding up to a size** with as many full rows of large blocks as the file has. -/
theorem Encoded.writeDatFileWith (h : Encoded ctx dat L S smallRows shards)
    (hS : 0 < ctx.dataShards * S) (hsize : datFileSize ≤ dat.length)
    (hrows : datFileSize / (L * ctx.dataShards) = dat.length / (L * ctx.dataShards)) :
    writeDatFileWith ctx.dataShards L S datFileSize shards = .ok (dat.take datFileSize) := by
  have hlen := @h.length_shard
  have hcover := h.covered
  have hinputs := h.striped.take
  have htotal : ctx.dataShards ≤ shards.length := by
    rw [h.striped.total]
    exact Nat.le_add_right ..
  have hsz := div_add_mod' datFileSize (L * ctx.dataShards)
  have hln := div_add_mod' dat.length (L * ctx.dataShards)
  have hL := h.largeRow
  rw [mul_comm L] at hlen hcover hinputs hrows hsz hln hL
  rw [← hrows] at hlen hinputs hln
  have hmod : datFileSize % (ctx.dataShards * L) ≤ smallRows * (ctx.dataShards * S) := by
    rw [mul_comm S] at hcover
    omega
  rw [writeDatFileWith_eq htotal hL hS
    (fun input hi => le_of_eq (hlen (mem_of_mem_take hi)).symm) hmod, hinputs,
    interleave_stripe dat (le_refl _), map_map]
  have hrest : ((fun input : File => input.drop (datFileSize / (ctx.dataShards * L) * L)) ∘ fun i =>
      stripe dat ctx.dataShards 0 L (datFileSize / (ctx.dataShards * L)) i ++
        stripe dat ctx.dataShards (datFileSize / (ctx.dataShards * L) * (ctx.dataShards * L)) S
          smallRows i) =
      fun i => stripe dat ctx.dataShards (datFileSize / (ctx.dataShards * L) * (ctx.dataShards * L)) S
        smallRows i ++ [] := by
    funext i
    rw [Function.comp, drop_left' (length_stripe ..), append_nil]
  rw [hrest, interleave_stripe dat (le_refl _) fun _ => [], mul_comm S,
    take_window 0 dat hmod, mul_comm L]
  have hjoin := window_add 0 dat 0 (datFileSize / (ctx.dataShards * L) * (ctx.dataShards * L))
    (datFileSize % (ctx.dataShards * L))
  rw [zero_add, hsz] at hjoin
  rw [← hjoin, window_eq_slice 0 dat (by omega), drop_zero]

theorem writeDatFileWith_take (dataShards L S datFileSize : Nat) (shards : List File) :
    writeDatFileWith dataShards L S datFileSize (shards.take dataShards) =
      writeDatFileWith dataShards L S datFileSize shards := by
  unfold writeDatFileWith
  rw [take_take, min_self]
  congr 1
  rw [length_take]
  exact propext ⟨fun h => by omega, fun h => by omega⟩

/-! ## The result -/

/-- **Encoding and decoding with the size of the file** give the file back. -/
theorem writeDatFile_inverts (enc : Encoder) (dat : File) :
    ∃ shards, writeEcFilesWithContext newDefaultECContext enc dat = .ok shards ∧
      writeDatFile dat.length (shards.take dataShardsCount) = .ok dat := by
  obtain ⟨shards, hok⟩ := writeEcFilesWithContext_ok enc dat
    (by decide : 0 < newDefaultECContext.dataShards)
  obtain ⟨smallRows, henc⟩ := encodeDatFile_striped hok
  refine ⟨shards, hok, ?_⟩
  unfold writeDatFile
  rw [writeDatFileWith_take]
  have hdecode := henc.writeDatFileWith (by decide) (le_refl dat.length) rfl
  rw [take_length] at hdecode
  exact hdecode

theorem exists_byte {a b n : Nat} (hab : a < b) (hbn : b < n) :
    ∃ file : File, file.length = n ∧ file.getD a 0 = 7 ∧ file.getD b 0 = 0 := by
  refine ⟨(List.range n).map fun i => if i = a then 7 else 0, by simp, ?_, ?_⟩
  · rw [getD_eq_getElem?_getD, getElem?_map, getElem?_range (by omega)]
    simp
  · rw [getD_eq_getElem?_getD, getElem?_map, getElem?_range hbn, Option.map_some, if_neg (by omega)]
    rfl

end ErasureCoding
