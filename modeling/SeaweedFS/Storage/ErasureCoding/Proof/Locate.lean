import SeaweedFS.Storage.ErasureCoding.Locate
import SeaweedFS.Storage.ErasureCoding.Proof.Encoder

/-!
# The intervals of `LocateData` hold the data

An address of the `.dat` file is located in the block that has it, the next block goes on where the block ends
(`Located.next`), and a shard has in a block what the `.dat` file has there, so the loop walks over the intervals of
the data (**`locateData_reads`**).
-/

namespace ErasureCoding

open Lib List Int Nat

variable {isLarge : Bool} {block inner addr size L S rows smallRows : Nat} {shardDatSize : Int}
variable {ctx : ECContext} {dat : File} {shards : List File}

/-- Where an interval begins in the `.dat` file. -/
def Interval.datOffset (largeBlockSize smallBlockSize : Int) (interval : Interval) : Int :=
  if interval.isLargeBlock then interval.blockIndex * largeBlockSize + interval.innerBlockOffset
  else interval.largeBlockRowsCount * (largeBlockSize * dataShardsCount) +
    interval.blockIndex * smallBlockSize + interval.innerBlockOffset

/-- Intervals that follow one another in the `.dat` file, from `offset` on; none is empty. -/
def Consecutive (largeBlockSize smallBlockSize : Int) : Int → List Interval → Prop
  | _, [] => True
  | offset, interval :: intervals =>
    interval.datOffset largeBlockSize smallBlockSize = offset ∧ 0 < interval.size ∧
      Consecutive largeBlockSize smallBlockSize (offset + interval.size) intervals

/-- The place of an address of the `.dat` file, with `rows` rows of large blocks: whether its block is a large one,
the index of that, and the offset within it. -/
inductive Located (largeBlockSize smallBlockSize rows : Nat) (block inner addr : Nat) : Bool → Prop
  | large (hblock : block < rows * dataShardsCount) (hinner : inner < largeBlockSize)
      (haddr : addr = block * largeBlockSize + inner) :
      Located largeBlockSize smallBlockSize rows block inner addr true
  | small (hinner : inner < smallBlockSize)
      (haddr : addr =
        rows * (largeBlockSize * dataShardsCount) + block * smallBlockSize + inner) :
      Located largeBlockSize smallBlockSize rows block inner addr false

/-- The length of a block. -/
def blockLength (largeBlockSize smallBlockSize : Nat) (isLargeBlock : Bool) : Nat :=
  if isLargeBlock then largeBlockSize else smallBlockSize

theorem dataShardsCount_pos : 0 < dataShardsCount := by decide

theorem Located.inner_lt
    (h : Located L S rows block inner addr isLarge) : inner < blockLength L S isLarge := by
  cases h <;> assumption

theorem locateOffset_located (hL : 0 < L) (hrows : nLargeBlockRows L shardDatSize = rows) {offset : Nat}
    (hoff : offset < rows * (L * dataShardsCount) ∨ 0 < S) :
    ∃ (isLarge : Bool) (block inner : Nat), Located L S rows block inner offset isLarge ∧
      locateOffset L S shardDatSize offset = ((block : Int), isLarge, (rows : Int), (inner : Int)) := by
  unfold locateOffset
  simp only [hrows]
  have hcast : ((rows : Int) * ((L : Int) * (dataShardsCount : Nat))) =
      ((rows * (L * dataShardsCount) : Nat) : Int) := by push_cast; rfl
  rw [hcast]
  by_cases hlt : offset < rows * (L * dataShardsCount)
  · rw [if_pos (by exact_mod_cast hlt)]
    have hblock : offset / L < rows * dataShardsCount := by
      rw [div_lt_iff_lt_mul hL, mul_assoc, mul_comm dataShardsCount L]
      exact hlt
    exact ⟨true, offset / L, offset % L,
      .large hblock (mod_lt offset hL) (div_add_mod' offset L).symm, rfl⟩
  · rw [if_neg (by exact_mod_cast hlt), ← ofNat_sub (by omega)]
    refine ⟨false, _, _, .small (mod_lt _ (hoff.resolve_left hlt)) ?_, rfl⟩
    rw [Nat.add_assoc, div_add_mod', Nat.add_sub_cancel' (by omega)]

/-- **The next block** goes on where the block ends. -/
theorem Located.next (h : Located L S rows block inner addr isLarge)
    (hnext : addr + (blockLength L S isLarge - inner) < rows * (L * dataShardsCount) ∨ 0 < S) :
    ∃ (isLarge' : Bool) (block' : Nat), moveToNextBlock block isLarge rows = ((block' : Int), isLarge') ∧
      Located L S rows block' 0 (addr + (blockLength L S isLarge - inner)) isLarge' := by
  unfold moveToNextBlock
  cases h with
  | large hblock hinner haddr =>
    have hend : addr + (blockLength L S true - inner) = (block + 1) * L := by
      simp only [blockLength, if_true, succ_mul]
      omega
    rw [hend] at hnext ⊢
    by_cases hlast : block + 1 = rows * dataShardsCount
    · -- the last large block: the small ones begin
      have hreach : (block + 1) * L = rows * (L * dataShardsCount) := by
        rw [hlast, mul_assoc, mul_comm L]
      rw [if_pos ⟨rfl, by exact_mod_cast hlast⟩]
      exact ⟨false, 0, rfl, .small (hnext.resolve_left (by omega)) (by omega)⟩
    · rw [if_neg (fun hc => hlast (by exact_mod_cast hc.2))]
      exact ⟨true, block + 1, rfl, .large (by omega) (by omega) rfl⟩
  | small hinner haddr =>
    refine ⟨false, block + 1, rfl, .small (zero_lt_of_lt hinner) ?_⟩
    simp only [blockLength, Bool.false_eq_true, if_false, succ_mul]
    omega

/-! ## Reading an interval -/

theorem readAt_eq_of_slice {shard bytes : File} {off : Nat}
    (h : (shard.drop off).take size = bytes) (hlen : bytes.length = size) :
    shard.readAt size off = (bytes, false) := by
  simp [File.readAt, h, hlen]

/-- The offset of an interval in its shard. -/
def shardOffset (L S rows block inner : Nat) (isLarge : Bool) : Nat :=
  if isLarge then block / dataShardsCount * L + inner
  else rows * L + (block / dataShardsCount * S + inner)

theorem toShardIdAndOffset_eq (L S rows block inner : Nat) (size : Int) (isLarge : Bool) :
    (Interval.mk block inner size isLarge rows).toShardIdAndOffset L S =
      (block % dataShardsCount, ((shardOffset L S rows block inner isLarge : Nat) : Int)) := by
  have hrow : (block : Int).tdiv dataShardsCount = ((block / dataShardsCount : Nat) : Int) := rfl
  have hid : ((block : Int).tmod dataShardsCount).toNat = block % dataShardsCount := rfl
  unfold Interval.toShardIdAndOffset shardOffset
  rw [hrow, hid]
  cases isLarge
  · push_cast
    rw [add_comm, add_assoc]
  · simp only [if_true]
    push_cast
    rw [add_comm]

section

variable (h : Encoded ctx dat L S smallRows shards)
include h

section

variable (hds : ctx.dataShards = dataShardsCount)
include hds

section

variable (hloc : Located L S (dat.length / (L * dataShardsCount)) block inner addr isLarge)
include hloc

theorem Encoded.slice (hin : inner + size ≤ blockLength L S isLarge) (hsize : 0 < size)
    (hend : addr + size ≤ dat.length) : ∃ shard, shards[block % dataShardsCount]? = some shard ∧
      (shard.drop (shardOffset L S (dat.length / (L * dataShardsCount)) block inner isLarge)).take
        size = window 0 dat addr size := by
  have hmod : block % dataShardsCount < ctx.dataShards := by
    rw [hds]
    exact mod_lt block dataShardsCount_pos
  refine ⟨_, h.striped.data _ hmod, ?_⟩
  have hcover := h.covered
  rw [hds] at hcover ⊢
  have hlen := div_add_mod' dat.length (L * dataShardsCount)
  set rows := dat.length / (L * dataShardsCount)
  -- the block's row, and its place in the row
  have hrowLen : ∀ len, block / dataShardsCount * (len * dataShardsCount) +
      len * (block % dataShardsCount) = block * len := by
    intro len
    rw [mul_comm len dataShardsCount, ← mul_assoc, mul_comm len, ← add_mul, div_add_mod']
  cases hloc with
  | large hblock hinner haddr =>
    have hrow : block / dataShardsCount < rows :=
      (div_lt_iff_lt_mul dataShardsCount_pos).2 hblock
    rw [shardOffset, if_pos rfl, slice_stripe hrow (by simpa [blockLength] using hin), zero_add,
      hrowLen L, ← haddr]
  | small hinner haddr =>
    have hrow : block / dataShardsCount < smallRows := by
      rw [div_lt_iff_lt_mul dataShardsCount_pos]
      have hlt : block * S < smallRows * dataShardsCount * S := by
        rw [mul_assoc, mul_comm dataShardsCount S]
        omega
      exact Nat.lt_of_mul_lt_mul_right hlt
    rw [shardOffset, if_neg Bool.false_ne_true, drop_stripe, ← append_nil (stripe dat _ _ S _ _),
      slice_stripe hrow (by simpa [blockLength] using hin), add_assoc (_ * _), hrowLen S, ← haddr]

/-- **The bytes of an interval** are those of the `.dat` file. -/
theorem Encoded.readOneEcShardInterval (hin : inner + size ≤ blockLength L S isLarge) (hsize : 0 < size)
    (hend : addr + size ≤ dat.length) : readOneEcShardInterval shards L S
        ⟨block, inner, size, isLarge, (dat.length / (L * dataShardsCount) : Nat)⟩ =
      some (window 0 dat addr size) := by
  obtain ⟨shard, hshard, hslice⟩ := h.slice hds hloc hin hsize hend
  unfold ErasureCoding.readOneEcShardInterval
  rw [toShardIdAndOffset_eq]
  simp only [hshard, Option.bind_eq_bind, Option.bind_some, toNat_natCast]
  rw [readAt_eq_of_slice hslice (length_window ..)]
  rfl

omit hds in
omit h in
omit hloc in
theorem Located.datOffset (h : Located L S rows block inner addr isLarge) (size : Int) :
    (Interval.mk block inner size isLarge rows).datOffset L S = addr := by
  unfold Interval.datOffset
  cases h with
  | large _ _ haddr => simp [haddr]
  | small _ haddr => simp [haddr]

/-- What the loop finds from a place on. -/
structure Walks (shards : List File) (dat : File) (L S addr size : Nat) (intervals : List Interval) :
    Prop where
  nonempty : intervals ≠ []
  consecutive : Consecutive L S addr intervals
  sum : (intervals.map (·.size)).sum = size
  reads : readEcShardIntervals shards L S intervals = some (window 0 dat addr size)

/-- **The loop** walks over the intervals of the data. -/
theorem Encoded.locateLoop {fuel : Nat}
    (hsize : 0 < size) (hend : addr + size ≤ dat.length) (hfuel : size < fuel) : ∃ intervals,
      locateLoop L S (dat.length / (L * dataShardsCount) : Nat) fuel block isLarge inner size =
        some intervals ∧ Walks shards dat L S addr size intervals := by
  induction fuel generalizing isLarge block inner addr size with
  | zero => omega
  | succ fuel ih =>
    have hinner := hloc.inner_lt
    have hremaining : ((if isLarge then (L : Int) else S) - inner) =
        ((blockLength L S isLarge - inner : Nat) : Int) := by
      rw [ofNat_sub (by omega)]
      cases isLarge <;> rfl
    unfold ErasureCoding.locateLoop
    rw [if_pos (by omega)]
    rw [hremaining, if_neg (by omega)]
    set left := blockLength L S isLarge - inner with hleft
    by_cases hfits : size ≤ left
    · rw [if_pos (by exact_mod_cast hfits)]
      refine ⟨_, rfl, cons_ne_nil _ _, ⟨hloc.datOffset _, natCast_pos.2 hsize, trivial⟩, by simp, ?_⟩
      rw [readEcShardIntervals, h.readOneEcShardInterval hds hloc (by omega) hsize hend]
      simp [readEcShardIntervals]
    · rw [if_neg (by exact_mod_cast hfits), ← ofNat_sub (by omega)]
      -- the data goes on behind this block
      have hcover := h.covered
      have hlen := div_add_mod' dat.length (L * dataShardsCount)
      rw [hds] at hcover
      have hnext : addr + left < dat.length / (L * dataShardsCount) * (L * dataShardsCount) ∨ 0 < S := by
        rcases Nat.eq_zero_or_pos S with hS | hS
        · rw [hS, zero_mul, mul_zero] at hcover
          omega
        · exact .inr hS
      obtain ⟨isLarge', block', hmove, hloc'⟩ := hloc.next hnext
      have hpos : 0 < size - left := by omega
      obtain ⟨intervals, hrest, hwalk⟩ := ih hloc' hpos (by omega) (by omega)
      rw [hmove]
      rw [show (0 : Int) = ((0 : Nat) : Int) from rfl, hrest]
      refine ⟨_, rfl, cons_ne_nil _ _,
        ⟨hloc.datOffset _, natCast_pos.2 (by omega : 0 < left), ?_⟩, ?_, ?_⟩
      · exact_mod_cast hwalk.consecutive
      · simp only [map_cons, sum_cons, hwalk.sum]
        omega
      · rw [readEcShardIntervals, h.readOneEcShardInterval hds hloc (by omega) (by omega) (by omega),
          hwalk.reads]
        simp only [Option.bind_eq_bind, Option.bind_some, Option.pure_def]
        rw [← window_add, Nat.add_sub_cancel' (by omega)]

end

theorem Encoded.locateData
    (hrows : nLargeBlockRows L shardDatSize = (dat.length / (L * dataShardsCount) : Nat))
    {offset : Nat} (hsize : 0 < size) (hend : offset + size ≤ dat.length) :
    ∃ intervals, locateData L S shardDatSize offset size = some intervals ∧
      Walks shards dat L S offset size intervals := by
  have hcover := h.covered
  have hlen := div_add_mod' dat.length (L * dataShardsCount)
  rw [hds] at hcover
  have hoff : offset < dat.length / (L * dataShardsCount) * (L * dataShardsCount) ∨ 0 < S := by
    rcases Nat.eq_zero_or_pos S with hS | hS
    · rw [hS, zero_mul, mul_zero] at hcover
      omega
    · exact .inr hS
  obtain ⟨isLarge, block, inner, hloc, hlocate⟩ :=
    locateOffset_located (Nat.pos_of_mul_pos_right h.largeRow) hrows hoff
  unfold ErasureCoding.locateData
  rw [hlocate, toNat_natCast]
  exact h.locateLoop hds hloc hsize hend (by omega)

end

end

/-! ## The size -/

theorem locateLoop_sum {L S rows n inner size : Int} {fuel : Nat} (hL : 0 < L)
    (hS : 0 < S) (hinner : inner < if isLarge then L else S) (hfuel : size ≤ fuel) :
    ∃ intervals, locateLoop L S rows (fuel + 1) n isLarge inner size = some intervals ∧
      (intervals.map (·.size)).sum = max 0 size := by
  induction fuel generalizing n isLarge inner size with
  | zero => exact ⟨[], by rw [locateLoop, if_neg (by omega)], by simp; omega⟩
  | succ fuel ih =>
    rw [locateLoop]
    by_cases hpos : size > 0
    · have hnext : 0 < if (moveToNextBlock n isLarge rows).2 then L else S := by split <;> assumption
      simp only [if_pos hpos]
      generalize (if isLarge = true then L else S) = len at *
      rw [if_neg (by omega)]
      by_cases hfits : size ≤ len - inner
      · rw [if_pos hfits]
        exact ⟨_, rfl, by simp; omega⟩
      · obtain ⟨intervals, hrest, hsum⟩ := ih (n := (moveToNextBlock n isLarge rows).1)
          hnext (show size - (len - inner) ≤ fuel by omega)
        rw [if_neg hfits, hrest]
        exact ⟨_, rfl, by simp [hsum]; omega⟩
    · exact ⟨[], by rw [if_neg hpos], by simp; omega⟩

theorem locateData_sum {L S : Int} (hL : 0 < L) (hS : 0 < S) (shardDatSize offset size : Int) :
    ∃ intervals, locateData L S shardDatSize offset size = some intervals ∧
      (intervals.map (·.size)).sum = max 0 size := by
  unfold locateData locateOffset
  have hfuel : size ≤ (2 * size.toNat : Nat) := by omega
  dsimp only
  split
  · exact locateLoop_sum hL hS (tmod_lt_of_pos _ hL) hfuel
  · exact locateLoop_sum hL hS (tmod_lt_of_pos _ hS) hfuel

/-! ## The result -/

/-- **`LocateData` finds the data in the shards.** When the reader counts the rows of large blocks that were written,
the intervals of any part of the `.dat` file make up its size and have its bytes in the shards. -/
theorem locateData_reads {enc : Encoder} {dat : File} {bufferSize L S rows : Nat} {shards : List File}
    {shardDatSize offset size : Int}
    (hencode : generateEcFiles newDefaultECContext enc dat bufferSize L S = .ok shards)
    (hwritten : largeRowsWritten newDefaultECContext enc dat bufferSize L = .ok rows)
    (hrows : nLargeBlockRows L shardDatSize = rows)
    (hoffset : 0 ≤ offset) (hsize : 0 < size) (hend : offset + size ≤ dat.length) :
    ∃ intervals, locateData L S shardDatSize offset size = some intervals ∧
      intervals ≠ [] ∧ Consecutive L S offset intervals ∧ (intervals.map (·.size)).sum = size ∧
      readEcShardIntervals shards L S intervals =
        some ((dat.drop offset.toNat).take size.toNat) := by
  obtain ⟨smallRows, henc⟩ := encodeDatFile_striped hencode
  rw [largeRowsWritten_eq hwritten] at hrows
  lift offset to Nat using hoffset
  lift size to Nat using le_of_lt hsize
  have hpart : offset + size ≤ dat.length := by exact_mod_cast hend
  obtain ⟨intervals, hlocate, hwalk⟩ :=
    henc.locateData rfl hrows (natCast_pos.1 hsize) hpart
  refine ⟨intervals, hlocate, hwalk.nonempty, hwalk.consecutive, hwalk.sum, ?_⟩
  rw [hwalk.reads, window_eq_slice 0 dat hpart, toNat_natCast, toNat_natCast]

/-- Four bytes over the end of a row of large blocks. -/
theorem locateData_reads_small : ∃ shards,
    generateEcFiles newDefaultECContext ⟨fun _ _ => 0⟩ ((List.range 25).map UInt8.ofNat) 1 2 1 =
      .ok shards ∧
    ∃ intervals, locateData 2 1 4 18 4 = some intervals ∧
      intervals ≠ [] ∧ Consecutive 2 1 18 intervals ∧ (intervals.map (·.size)).sum = 4 ∧
      readEcShardIntervals shards 2 1 intervals =
        some ((((List.range 25).map UInt8.ofNat).drop 18).take 4) := by
  obtain ⟨shards, hencode⟩ := encodeDatFile_ok ⟨fun _ _ => 0⟩ ((List.range 25).map UInt8.ofNat)
    (by decide : 0 < newDefaultECContext.dataShards) one_pos two_pos one_pos
    (one_dvd 2) (one_dvd 1)
  have hwritten := largeRowsWritten_ok newDefaultECContext ⟨fun _ _ => 0⟩
    ((List.range 25).map UInt8.ofNat) (by decide : 0 < 2 * 10) one_pos (one_dvd 2)
  exact ⟨shards, hencode, locateData_reads hencode hwritten (by decide) (by decide) (by decide)
    (by decide)⟩

end ErasureCoding
