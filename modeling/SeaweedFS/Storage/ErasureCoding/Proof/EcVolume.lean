import SeaweedFS.Storage.ErasureCoding.EcVolume
import SeaweedFS.Storage.ErasureCoding.Proof.Locate
import SeaweedFS.Storage.ErasureCoding.Proof.Decoder
import SeaweedFS.Storage.Proof.NeedleWrite

/-!
# The rows that a volume counts, and the shard counts it takes

The writer counts full rows of large blocks; the reader divides the size of a shard. The reader and the decoder take
the number of data shards to be ten.
-/

namespace ErasureCoding

open Lib Storage List EcVolume Int Nat

/-! ## Counting rows -/

theorem nLargeBlockRows_recorded {ds L : Nat} (hds : 0 < ds) (hL : 1 < L) (n : Nat) :
    nLargeBlockRows L ((n : Int).tdiv ds) =
      (n / (L * ds) - if L * ds ≤ n ∧ n % (L * ds) < ds then 1 else 0 : Nat) := by
  have hdiv : n / (L * ds) = n / ds / L := by rw [Nat.div_div_eq_div_mul, Nat.mul_comm]
  have hmod : n % (L * ds) = n % ds + ds * (n / ds % L) := by rw [mul_comm, mod_mul]
  have hle : L * ds ≤ n ↔ L ≤ n / ds := (le_div_iff_mul_le hds).symm
  have hlt : n % (L * ds) < ds ↔ n / ds % L = 0 := by
    rw [hmod]
    constructor
    · intro h
      by_contra hne
      have := mul_le_mul_left ds (one_le_iff_ne_zero.2 hne)
      omega
    · intro h
      rw [h, mul_zero, add_zero]
      exact mod_lt n hds
  simp only [hdiv, hle, hlt]
  show ((n / ds : Nat) - 1 : Int).tdiv L = _
  generalize n / ds = q
  cases q with
  | zero =>
    rw [show ((0 : Nat) : Int) - 1 = -((1 : Nat) : Int) from rfl, Int.neg_tdiv, ← ofNat_tdiv,
      div_eq_of_lt hL, Nat.zero_div, Nat.zero_sub]
    rfl
  | succ k =>
    rw [show (((k + 1 : Nat) : Int) - 1) = (k : Int) by omega, ← ofNat_tdiv, Nat.succ_div]
    by_cases hdvd : L ∣ k + 1
    · rw [if_pos hdvd, if_pos ⟨le_of_dvd (succ_pos k) hdvd, mod_eq_zero_of_dvd hdvd⟩,
        Nat.add_sub_cancel]
    · rw [if_neg hdvd, if_neg fun h => hdvd (dvd_of_mod_eq_zero h.2), add_zero, Nat.sub_zero]

theorem nLargeBlockRows_unrecorded {L S rows smallRows : Nat} (hL : 2 < L) (hS : 2 ≤ S)
    (hsmall : smallRows * S ≤ L) : nLargeBlockRows L (((rows * L + smallRows * S : Nat) : Int) - 1) =
      (rows - if 0 < rows ∧ smallRows = 0 then 1 else 0 : Nat) := by
  unfold nLargeBlockRows
  rcases Nat.eq_zero_or_pos smallRows with hz | hpos
  · subst hz
    cases rows with
    | zero =>
      rw [Nat.zero_mul, Nat.zero_mul, show (((0 + 0 : Nat) : Int) - 1 - 1) = -((2 : Nat) : Int) from rfl,
        Int.neg_tdiv, ← ofNat_tdiv, div_eq_of_lt hL]
      rfl
    | succ rows =>
      have hval : (((rows + 1) * L + 0 * S : Nat) : Int) - 1 - 1 = ((rows * L + (L - 2) : Nat) : Int) := by
        rw [zero_mul, succ_mul]
        omega
      rw [hval, ← ofNat_tdiv, mul_comm, mul_add_div (by omega), div_eq_of_lt (by omega),
        if_pos ⟨succ_pos rows, rfl⟩]
      rfl
  · have hge : S ≤ smallRows * S := Nat.le_mul_of_pos_left S hpos
    have hval : ((rows * L + smallRows * S : Nat) : Int) - 1 - 1 =
        ((rows * L + (smallRows * S - 2) : Nat) : Int) := by omega
    rw [hval, ← ofNat_tdiv, mul_comm rows L, mul_add_div (by omega), div_eq_of_lt (by omega),
      if_neg (by omega)]
    rfl

variable {L S smallRows : Nat} {shards : List File}

theorem Encoded.smallRows_le {ctx : ECContext} {dat : File}
    (h : Encoded ctx dat L S smallRows shards) (hdvd : S ∣ L) : smallRows * S ≤ L := by
  obtain ⟨k, rfl⟩ := hdvd
  rcases Nat.eq_zero_or_pos smallRows with hz | hpos
  · simp [hz]
  have hfew := h.few (smallRows - 1) (by omega)
  have hmod := mod_lt dat.length h.largeRow
  have hlt : (smallRows - 1) * (S * ctx.dataShards) < k * (S * ctx.dataShards) := by
    rw [← mul_assoc k, mul_comm k S]
    omega
  have hk : smallRows ≤ k := by
    have := lt_of_mul_lt_mul_right hlt
    omega
  rw [mul_comm S k]
  exact mul_le_mul_right S hk

theorem Encoded.smallRows_eq_zero {ctx : ECContext} {dat : File}
    (h : Encoded ctx dat L S smallRows shards) :
    smallRows = 0 ↔ dat.length % (L * ctx.dataShards) = 0 := by
  constructor
  · intro hz
    have := h.covered
    rw [hz, zero_mul] at this
    omega
  · by_contra hne
    have := h.few 0 (by omega)
    omega

/-! ## The rows of a volume -/

/-- A volume of shards of `dat` that has some of them mounted; the `.vif` file has the size of `dat`, or
does not have it. -/
structure MountedFor (ev : EcVolume) (ctx : ECContext) (dat : File) (shards : List File) : Prop where
  context : ev.ecContext = ctx
  mounted : ev.shards ≠ []
  files : ∀ shard ∈ ev.shards, ∃ file ∈ shards, shard.ecdFileSize = file.length
  recorded : ev.datFileSize = dat.length ∨ ev.datFileSize = 0

/-- The sizes for which a volume counts a row of large blocks too few: a full row, and behind it less than a
byte for each shard, or no byte when the size is not recorded. -/
def RowMissing (dataShards n : Nat) (datFileSize : Int) : Prop :=
  erasureCodingLargeBlockSize * dataShards ≤ n ∧
    n % (erasureCodingLargeBlockSize * dataShards) < if datFileSize > 0 then dataShards else 1

instance (dataShards n : Nat) (datFileSize : Int) : Decidable (RowMissing dataShards n datFileSize) :=
  inferInstanceAs (Decidable (_ ∧ _))

variable {ev : EcVolume} {ctx : ECContext} {dat : File}

theorem MountedFor.nLargeBlockRows (hev : MountedFor ev ctx dat shards)
    (henc : Encoded ctx dat erasureCodingLargeBlockSize erasureCodingSmallBlockSize smallRows shards) :
    ∃ size, ev.shardSize = .ok size ∧ ErasureCoding.nLargeBlockRows erasureCodingLargeBlockSize size =
      (dat.length / (erasureCodingLargeBlockSize * ctx.dataShards) -
        if RowMissing ctx.dataShards dat.length ev.datFileSize then 1 else 0 : Nat) := by
  obtain ⟨rfl, hmounted, hfiles, hrecorded⟩ := hev
  obtain ⟨shard, rest, hshards⟩ := exists_cons_of_ne_nil hmounted
  obtain ⟨file, hfile, hsize⟩ := hfiles shard (hshards ▸ mem_cons_self)
  refine ⟨_, by rw [shardSize, hshards], ?_⟩
  unfold RowMissing
  by_cases hpos : ev.datFileSize > 0
  · simp only [hpos, if_true]
    rw [hrecorded.resolve_right (by omega)]
    exact nLargeBlockRows_recorded (Nat.pos_of_mul_pos_left henc.largeRow) (by decide) dat.length
  · have hrow : 0 < dat.length / (erasureCodingLargeBlockSize * ev.ecContext.dataShards) ↔
        erasureCodingLargeBlockSize * ev.ecContext.dataShards ≤ dat.length :=
      Nat.div_pos_iff.trans ⟨fun h => h.2, fun h => ⟨henc.largeRow, h⟩⟩
    simp only [hpos, if_false, lt_one_iff]
    rw [hsize, henc.length_shard hfile,
      nLargeBlockRows_unrecorded (by decide) (by decide) (henc.smallRows_le (by decide))]
    simp only [henc.smallRows_eq_zero, hrow]

theorem RowMissing.pos {dataShards n : Nat} {datFileSize : Int} (h : RowMissing dataShards n datFileSize)
    (hds : 0 < dataShards) : 0 < n / (erasureCodingLargeBlockSize * dataShards) :=
  Nat.div_pos h.1 (mul_pos (by decide) hds)

/-- **The rows that a volume counts** are those that were written, except for sizes just behind the end
of a row. -/
theorem largeRows_agree {enc : Encoder} (hok : writeEcFilesWithContext ctx enc dat = .ok shards)
    (hev : MountedFor ev ctx dat shards) :
    (∃ size rows, ev.shardSize = .ok size ∧
      largeRowsWritten ctx enc dat (256 * 1024) erasureCodingLargeBlockSize = .ok rows ∧
      nLargeBlockRows erasureCodingLargeBlockSize size = rows) ↔
    ¬ RowMissing ctx.dataShards dat.length ev.datFileSize := by
  obtain ⟨smallRows, henc⟩ := encodeDatFile_striped hok
  have hwritten := largeRowsWritten_ok ctx enc dat henc.largeRow (by decide : 0 < 256 * 1024)
    (by decide)
  obtain ⟨size, hsize, hcount⟩ := hev.nLargeBlockRows henc
  constructor
  · rintro ⟨size', rows, hsize', hrows, h⟩ hmissing
    cases hsize.symm.trans hsize'
    cases hwritten.symm.trans hrows
    have := hmissing.pos (Nat.pos_of_mul_pos_left henc.largeRow)
    rw [hcount, if_pos hmissing] at h
    omega
  · intro hno
    rw [if_neg hno] at hcount
    exact ⟨size, _, hsize, hwritten, hcount⟩

theorem exists_mounted (hds : 0 < ctx.dataShards) (dat : File) {datFileSize : Int}
    (hsize : datFileSize = dat.length ∨ datFileSize = 0) : ∃ shards smallRows, ∃ file : File,
      writeEcFilesWithContext ctx ⟨fun _ _ => 0⟩ dat = .ok shards ∧
      Encoded ctx dat erasureCodingLargeBlockSize erasureCodingSmallBlockSize smallRows shards ∧
      MountedFor ⟨[⟨1, 0, file.length⟩], datFileSize, ctx⟩ ctx dat shards := by
  obtain ⟨shards, hok⟩ := writeEcFilesWithContext_ok ⟨fun _ _ => 0⟩ dat hds
  obtain ⟨smallRows, henc⟩ := encodeDatFile_striped hok
  obtain ⟨file, rest, rfl⟩ : ∃ file rest, shards = file :: rest :=
    exists_cons_of_length_pos (by rw [henc.striped.total, ECContext.total]; omega)
  exact ⟨_, smallRows, file, hok, henc, rfl, cons_ne_nil _ _,
    forall_mem_singleton.2 ⟨file, mem_cons_self, rfl⟩, hsize⟩

/-- A file of one large row and ten bytes, its size recorded: the row is counted. -/
theorem largeRows_agree_recorded : ∃ dat shards ev,
    dat.length = 10 * erasureCodingLargeBlockSize + 10 ∧
    writeEcFilesWithContext newDefaultECContext ⟨fun _ _ => 0⟩ dat = .ok shards ∧
    MountedFor ev newDefaultECContext dat shards ∧ ev.datFileSize = dat.length ∧
    ∃ size, ev.shardSize = .ok size ∧
      largeRowsWritten newDefaultECContext ⟨fun _ _ => 0⟩ dat (256 * 1024) erasureCodingLargeBlockSize =
        .ok 1 ∧ nLargeBlockRows erasureCodingLargeBlockSize size = 1 := by
  obtain ⟨dat, hdat⟩ : ∃ dat : File, dat.length = 10 * erasureCodingLargeBlockSize + 10 :=
    ⟨replicate _ 0, length_replicate⟩
  obtain ⟨shards, -, file, hok, -, hev⟩ :=
    exists_mounted (by decide : 0 < newDefaultECContext.dataShards) dat (.inl rfl)
  have hno : ¬ RowMissing newDefaultECContext.dataShards dat.length dat.length := by
    rw [hdat]
    decide
  obtain ⟨size, rows, hsize, hwritten, hcount⟩ := (largeRows_agree hok hev).2 hno
  have hrows : rows = 1 := by
    rw [largeRowsWritten_eq hwritten, hdat]
    decide
  subst hrows
  exact ⟨dat, shards, _, hdat, hok, hev, rfl, size, hsize, hwritten, hcount⟩

/-- A file of one full row of large blocks, its size recorded: the row is written and not counted. -/
theorem largeRows_differ : ∃ dat shards ev,
    writeEcFilesWithContext newDefaultECContext ⟨fun _ _ => 0⟩ dat = .ok shards ∧
    MountedFor ev newDefaultECContext dat shards ∧
    largeRowsWritten newDefaultECContext ⟨fun _ _ => 0⟩ dat (256 * 1024)
      erasureCodingLargeBlockSize = .ok 1 ∧
    ∃ size, ev.shardSize = .ok size ∧ nLargeBlockRows erasureCodingLargeBlockSize size = 0 := by
  obtain ⟨dat, hdat⟩ : ∃ dat : File, dat.length = 10 * erasureCodingLargeBlockSize :=
    ⟨replicate _ 0, length_replicate⟩
  obtain ⟨shards, smallRows, file, hok, henc, hev⟩ :=
    exists_mounted (by decide : 0 < newDefaultECContext.dataShards) dat (.inl rfl)
  refine ⟨dat, shards, _, hok, hev, ?_, _, rfl, ?_⟩
  · rw [largeRowsWritten_ok newDefaultECContext _ dat henc.largeRow (by decide) (by decide), hdat]
    rfl
  · dsimp only
    rw [hdat, if_pos (by decide)]
    decide

/-! ## The shard counts -/

/-- The record of a needle within the `.dat` file; its size on disk is an `int32`. -/
structure NeedleIn (dat : File) (version : Version) (offset : Int) (size : Size) : Prop where
  offset_nonneg : 0 ≤ offset
  live : 0 ≤ size.toInt
  fits : getActualSize size version < 2 ^ 31
  inside : offset + getActualSize size version ≤ dat.length

section

variable {rows : Nat}

/-- A record at the second small block of a row that is not counted is looked for in the second shard. -/
theorem locateData_missed {L S shardDatSize : Int} (hS : 32 ≤ S)
    (hrows : nLargeBlockRows L shardDatSize = rows) :
    locateData L S shardDatSize (rows * (L * dataShardsCount) + S) 32 = some [⟨1, 0, 32, false, rows⟩] := by
  have hpos : (0 : Int) < S := by omega
  rw [locateData, locateOffset]
  simp only [hrows]
  rw [if_neg (by omega), locateOffsetWithinBlocks, add_sub_cancel_left, Int.tdiv_self (by omega),
    Int.tmod_self]
  simp only
  rw [show 2 * (32 : Int).toNat + 1 = 64 + 1 from rfl, locateLoop]
  simp only [show (32 : Int) > 0 by decide, if_true, Bool.false_eq_true, if_false]
  rw [if_neg (by omega), if_pos (by omega)]

theorem Encoded.read_missed (h : Encoded ctx dat L S smallRows shards) (hds : ctx.dataShards = dataShardsCount)
    (hL : 32 ≤ L) (hrows : dat.length / (L * dataShardsCount) = rows + 1) :
    readEcShardIntervals shards L S [⟨1, 0, 32, false, rows⟩] =
      some (window 0 dat (rows * (L * dataShardsCount) + L) 32) := by
  have hend := div_mul_le_self dat.length (L * dataShardsCount)
  rw [hrows, succ_mul] at hend
  have hwide : L + 32 ≤ L * dataShardsCount := by
    unfold dataShardsCount
    omega
  have hloc : Located L S (dat.length / (L * dataShardsCount)) (rows * dataShardsCount + 1) 0
      (rows * (L * dataShardsCount) + L) true := by
    refine .large ?_ (by omega) (by ring)
    rw [hrows, succ_mul]
    exact Nat.add_lt_add_left (by decide) _
  have hread := h.readOneEcShardInterval hds hloc (by simpa [blockLength] using hL) (by decide)
    (show rows * (L * dataShardsCount) + L + 32 ≤ _ by omega)
  have hplace : (Interval.mk 1 0 32 false rows).toShardIdAndOffset L S = Interval.toShardIdAndOffset
      ⟨(rows * dataShardsCount + 1 : Nat), (0 : Nat), (32 : Nat), true,
        (dat.length / (L * dataShardsCount) : Nat)⟩ L S := by
    refine (toShardIdAndOffset_eq L S rows 1 0 32 false).trans ?_
    rw [toShardIdAndOffset_eq, shardOffset, shardOffset, if_pos rfl, if_neg Bool.false_ne_true]
    unfold dataShardsCount
    rw [show (rows * 10 + 1) / 10 = rows by omega, show (rows * 10 + 1) % 10 = 1 by omega]
    simp
  have hsame : ErasureCoding.readOneEcShardInterval shards L S ⟨1, 0, 32, false, rows⟩ =
      some (window 0 dat (rows * (L * dataShardsCount) + L) 32) := by
    rw [ErasureCoding.readOneEcShardInterval, hplace]
    exact hread
  rw [readEcShardIntervals, hsame]
  simp [readEcShardIntervals]

end

/-- Every needle of `dat` is read through the volume as it is in `dat`. -/
def ReadsNeedles (ev : EcVolume) (dat : File) (shards : List File) : Prop :=
  ∀ version offset size, NeedleIn dat version offset size →
    ∃ intervals, ev.locateEcShardNeedleInterval version offset size = .ok intervals ∧
      readEcShardIntervals shards erasureCodingLargeBlockSize erasureCodingSmallBlockSize intervals =
        some ((dat.drop offset.toNat).take (getActualSize size version).toNat)

section

variable (henc : Encoded ctx dat erasureCodingLargeBlockSize erasureCodingSmallBlockSize smallRows shards)
  (hds : ctx.dataShards = dataShardsCount)
include henc hds

section

variable (hev : MountedFor ev ctx dat shards)
include hev

theorem MountedFor.readsNeedles (hno : ¬ RowMissing ctx.dataShards dat.length ev.datFileSize) :
    ReadsNeedles ev dat shards := by
  intro version offset size hn
  obtain ⟨shardSize, hshardSize, hcount⟩ := hev.nLargeBlockRows henc
  rw [if_neg hno, hds] at hcount
  have hpos := getActualSize_pos hn.live version
  have hint32 : (Int32.ofInt (getActualSize size version)).toInt = getActualSize size version := by
    have := hn.fits
    rw [Int32.toInt_ofInt, show Int32.size = 2 ^ 32 from rfl, bmod_eq_of_le] <;> omega
  obtain ⟨off, hoff⟩ := eq_ofNat_of_zero_le hn.offset_nonneg
  obtain ⟨len, hlen⟩ := eq_ofNat_of_zero_le (le_of_lt hpos)
  have hinside := hn.inside
  rw [hlen] at hpos hint32 hinside ⊢
  rw [hoff] at hinside ⊢
  have hend : off + len ≤ dat.length := by exact_mod_cast hinside
  obtain ⟨intervals, hlocate, hwalk⟩ := henc.locateData hds hcount (natCast_pos.1 hpos) hend
  refine ⟨intervals, ?_, ?_⟩
  · unfold locateEcShardNeedleInterval
    simp only [hshardSize, hlen, hint32, bind, Except.bind, hlocate, pure, Except.pure]
  · rw [hwalk.reads, window_eq_slice 0 dat hend]
    rfl

theorem MountedFor.reads_missed (hmissing : RowMissing ctx.dataShards dat.length ev.datFileSize) {rows : Nat}
    (hrows : dat.length / (erasureCodingLargeBlockSize * dataShardsCount) = rows + 1)
    (hreads : ReadsNeedles ev dat shards) :
    dat.getD (rows * (erasureCodingLargeBlockSize * dataShardsCount) + erasureCodingSmallBlockSize) 0 =
      dat.getD (rows * (erasureCodingLargeBlockSize * dataShardsCount) + erasureCodingLargeBlockSize) 0 := by
  obtain ⟨size, hsize, hcount⟩ := hev.nLargeBlockRows henc
  rw [if_pos hmissing, hds, hrows, Nat.add_sub_cancel] at hcount
  have hend := div_mul_le_self dat.length (erasureCodingLargeBlockSize * dataShardsCount)
  rw [hrows, succ_mul] at hend
  have hpart : rows * (erasureCodingLargeBlockSize * dataShardsCount) + erasureCodingSmallBlockSize + 32 ≤
      dat.length := by
    have : erasureCodingSmallBlockSize + 32 ≤ erasureCodingLargeBlockSize * dataShardsCount := by decide
    omega
  obtain ⟨intervals, hlocate, hread⟩ := hreads .v3
    (rows * (erasureCodingLargeBlockSize * dataShardsCount) + erasureCodingSmallBlockSize : Nat) 0
    ⟨natCast_nonneg _, by decide, by decide, show _ + (32 : Int) ≤ _ by exact_mod_cast hpart⟩
  have hmissed := locateData_missed (S := erasureCodingSmallBlockSize) (by decide) hcount
  rw [locateEcShardNeedleInterval, hsize, show (Int32.ofInt (getActualSize 0 .v3)).toInt = 32 by decide] at hlocate
  push_cast at hlocate
  simp only [bind, Except.bind, hmissed] at hlocate
  cases hlocate
  rw [henc.read_missed hds (by decide) hrows] at hread
  have hslice := window_eq_slice 0 dat hpart
  have hfirst := congrArg (·[0]?) ((Option.some.inj hread).trans hslice.symm)
  simp only [getElem?_window 0 dat (show 0 < 32 by decide), Nat.add_zero] at hfirst
  exact (Option.some.inj hfirst).symm

end

theorem Encoded.writeDatFile : writeDatFile dat.length (shards.take ctx.dataShards) = .ok dat := by
  have hdecode := henc.writeDatFileWith (by rw [hds]; decide) (le_refl dat.length) rfl
  rw [hds, take_length] at hdecode
  rw [hds, ErasureCoding.writeDatFile, writeDatFileWith_take, hdecode]

end

theorem writeDatFile_few {dataShards : Nat} (hds : dataShards < dataShardsCount) (datFileSize : Nat)
    (shards : List File) :
    ErasureCoding.writeDatFile datFileSize (shards.take dataShards) = .error .indexOutOfRange := by
  unfold ErasureCoding.writeDatFile writeDatFileWith
  rw [if_pos]
  rw [length_take]
  omega

/-- With more data shards the decoder runs out of data: it reads the first ten only. -/
theorem writeDatFileWith_many (hSpos : 0 < S) (hlarger : S < L)
    (henc : Encoded ctx dat L S smallRows shards) (hds : dataShardsCount < ctx.dataShards)
    (hdat : dat.length = dataShardsCount * S + 1) :
    writeDatFileWith dataShardsCount L S dat.length (shards.take ctx.dataShards) =
      .error (.copySmallBlock 0) := by
  -- the file has no large row and one small row
  have hsmallRow : dataShardsCount * S + S ≤ S * ctx.dataShards := by
    rw [Nat.mul_comm S, ← succ_mul]
    exact mul_le_mul_right S hds
  have hlargeRow : S * ctx.dataShards < L * ctx.dataShards :=
    Nat.mul_lt_mul_of_pos_right hlarger (by omega)
  have hdiv : dat.length / (L * ctx.dataShards) = 0 := div_eq_of_lt (by omega)
  have hmod : dat.length % (L * ctx.dataShards) = dat.length := mod_eq_of_lt (by omega)
  have hone : smallRows = 1 := by
    have hcover := henc.covered
    have hfew := henc.few 1
    rcases Nat.lt_trichotomy smallRows 1 with h | h | h
    · rw [lt_one_iff.1 h, Nat.zero_mul] at hcover
      omega
    · exact h
    · omega
  have hsize : ∀ input ∈ shards.take dataShardsCount, input.length = S := by
    intro input hi
    rw [henc.length_shard (mem_of_mem_take hi), hdiv, hone, Nat.zero_mul, Nat.one_mul, Nat.zero_add]
  have hten : (shards.take dataShardsCount).length = dataShardsCount := by
    rw [length_take, henc.striped.total, ECContext.total]
    omega
  -- the large rows: none
  have hL : dataShardsCount * S + 1 < dataShardsCount * L := by
    have : dataShardsCount * (S + 1) ≤ dataShardsCount * L := mul_le_mul_left _ hlarger
    rw [mul_succ] at this
    have : 1 < dataShardsCount := by decide
    omega
  have hnone : dat.length / (dataShardsCount * L) = 0 := div_eq_of_lt (by omega)
  have hall : dat.length % (dataShardsCount * L) = dat.length := mod_eq_of_lt (by omega)
  unfold writeDatFileWith
  rw [if_neg (by rw [length_take, henc.striped.total, ECContext.total]; omega), take_take,
    Nat.min_eq_left (Nat.le_of_lt hds), copyLargeRows_eq hten (by omega) (lt_succ_self _)
      (fun input _ => by rw [hnone, Nat.zero_mul]; exact zero_le _), hnone, hall]
  show copySmallRows S (dat.length + 1) dat.length _ _ = _
  simp only [Nat.zero_mul, drop_zero, map_id', interleave_zero, append_nil]
  -- the first small row takes all that the shards have
  obtain ⟨inputs, hcopy, hfull⟩ := copySmallRow_eq (fun input hi => Nat.le_of_eq (hsize input hi).symm)
    0 [] dat.length
  rw [hten, hdat] at hfull hcopy
  obtain ⟨first, rest, hinputs⟩ : ∃ first rest, shards.take dataShardsCount = first :: rest :=
    exists_cons_of_length_pos (by rw [hten]; decide)
  have hempty : (first.drop S).length = 0 := by
    rw [length_drop, hsize first (hinputs ▸ mem_cons_self), Nat.sub_self]
  unfold copySmallRows
  rw [if_pos (by omega), hdat, hcopy]
  show copySmallRows S (dataShardsCount * S + 1) _ inputs _ = _
  rw [hfull (Nat.le_add_right ..), Nat.add_sub_cancel_left, hinputs, map_cons]
  exact copySmallRows_short (by omega) _ _ _

/-- **The shard counts that `NewEcVolume` accepts.** With ten data shards all files of a size are given back
exactly when the volume counts the rows of large blocks of that size; with another number of them some file is
not. -/
theorem config_reproduces {dataShards parityShards : UInt32} (hds : 0 < dataShards.toNat)
    (hps : 0 < parityShards.toNat) (hmax : dataShards.toNat + parityShards.toNat ≤ maxShardCount) :
    (dataShards.toNat = dataShardsCount → ∀ (n : Nat) (datFileSize : Int), datFileSize = n ∨ datFileSize = 0 →
      ((∀ enc dat shards ev, dat.length = n →
        writeEcFilesWithContext (ecContextOf (some (dataShards, parityShards))) enc dat = .ok shards →
        MountedFor ev (ecContextOf (some (dataShards, parityShards))) dat shards → ev.datFileSize = datFileSize →
        ReadsNeedles ev dat shards ∧
          ErasureCoding.writeDatFile n (shards.take dataShards.toNat) = .ok dat) ↔
      ¬ RowMissing dataShards.toNat n datFileSize)) ∧
    (dataShards.toNat ≠ dataShardsCount → ∃ enc dat shards,
      writeEcFilesWithContext (ecContextOf (some (dataShards, parityShards))) enc dat = .ok shards ∧
      ErasureCoding.writeDatFile dat.length (shards.take dataShards.toNat) ≠ .ok dat) := by
  have hctx : ecContextOf (some (dataShards, parityShards)) =
      { dataShards := dataShards.toNat, parityShards := parityShards.toNat } := by
    unfold ecContextOf
    dsimp only
    rw [if_neg (by omega)]
  rw [hctx]
  have hctxpos : 0 < (ECContext.mk dataShards.toNat parityShards.toNat).dataShards := hds
  refine ⟨fun hten n datFileSize hrecorded => ⟨fun hall hmissing => ?_, ?_⟩, fun hne => ?_⟩
  · -- a needle in the row that is not counted
    obtain ⟨rows, hrows⟩ := exists_eq_succ_of_ne_zero (hmissing.pos hds).ne'
    rw [hten] at hrows
    have hend := div_mul_le_self n (erasureCodingLargeBlockSize * dataShardsCount)
    rw [hrows, succ_mul] at hend
    obtain ⟨dat, rfl, hthere, hhere⟩ := exists_byte (n := n)
      (show rows * (erasureCodingLargeBlockSize * dataShardsCount) + erasureCodingSmallBlockSize <
        rows * (erasureCodingLargeBlockSize * dataShardsCount) + erasureCodingLargeBlockSize by
          exact Nat.add_lt_add_left (by decide) _)
      (lt_of_lt_of_le (Nat.add_lt_add_left (by decide) _) hend)
    obtain ⟨shards, smallRows, file, hok, henc, hev⟩ := exists_mounted hctxpos dat hrecorded
    have hsame := hev.reads_missed henc hten hmissing hrows (hall _ _ _ _ rfl hok hev rfl).1
    rw [hthere, hhere] at hsame
    exact absurd hsame (by decide)
  · rintro hno enc dat shards ev rfl hok hev rfl
    obtain ⟨smallRows, henc⟩ := encodeDatFile_striped hok
    exact ⟨hev.readsNeedles henc hten hno, henc.writeDatFile hten⟩
  · rcases Nat.lt_or_gt_of_ne hne with hlt | hgt
    · -- the empty file
      obtain ⟨shards, hok⟩ := writeEcFilesWithContext_ok ⟨fun _ _ => 0⟩ [] hctxpos
      exact ⟨_, _, shards, hok, by simp [writeDatFile_few hlt]⟩
    · -- a byte more than ten small blocks
      obtain ⟨dat, hdat⟩ : ∃ dat : File,
          dat.length = dataShardsCount * erasureCodingSmallBlockSize + 1 :=
        ⟨replicate _ 0, length_replicate⟩
      obtain ⟨shards, hok⟩ := writeEcFilesWithContext_ok ⟨fun _ _ => 0⟩ dat hctxpos
      obtain ⟨smallRows, henc⟩ := encodeDatFile_striped hok
      refine ⟨_, dat, shards, hok, ?_⟩
      rw [ErasureCoding.writeDatFile, writeDatFileWith_many (by decide) (by decide) henc hgt hdat]
      simp

/-- A file of one large row and ten bytes with the default shard counts. -/
theorem config_reproduces_default : ∃ dat shards ev,
    dat.length = 10 * erasureCodingLargeBlockSize + 10 ∧
    writeEcFilesWithContext (ecContextOf (some (10, 4))) ⟨fun _ _ => 0⟩ dat = .ok shards ∧
    MountedFor ev (ecContextOf (some (10, 4))) dat shards ∧ ReadsNeedles ev dat shards ∧
    ErasureCoding.writeDatFile dat.length (shards.take (10 : UInt32).toNat) = .ok dat := by
  obtain ⟨dat, hdat⟩ : ∃ dat : File, dat.length = 10 * erasureCodingLargeBlockSize + 10 :=
    ⟨replicate _ 0, length_replicate⟩
  obtain ⟨shards, -, file, hok, -, hev⟩ :=
    exists_mounted (by decide : 0 < (ecContextOf (some (10, 4))).dataShards) dat (.inl rfl)
  have hno : ¬ RowMissing (10 : UInt32).toNat dat.length dat.length := by
    rw [hdat]
    decide
  exact ⟨dat, shards, _, hdat, hok, hev, ((config_reproduces (by decide) (by decide) (by decide)).1 rfl dat.length
    dat.length (.inl rfl)).2 hno _ _ _ _ rfl hok hev rfl⟩

/-- Four data shards and two parity shards, and a needle in the seventh small block: its bytes are
looked for in a seventh shard, and the decoder opens ten shards. -/
theorem config_loses : ∃ dat shards ev,
    writeEcFilesWithContext (ecContextOf (some (4, 2))) ⟨fun _ _ => 0⟩ dat = .ok shards ∧
    MountedFor ev (ecContextOf (some (4, 2))) dat shards ∧ NeedleIn dat .v3 (6 * 1024 * 1024) 0 ∧
    (∃ intervals, ev.locateEcShardNeedleInterval .v3 (6 * 1024 * 1024) 0 = .ok intervals ∧
      readEcShardIntervals shards erasureCodingLargeBlockSize erasureCodingSmallBlockSize intervals =
        none) ∧
    writeDatFile dat.length (shards.take 4) = .error .indexOutOfRange := by
  obtain ⟨dat, hdat⟩ : ∃ dat : File, dat.length = 7 * 1024 * 1024 :=
    ⟨replicate _ 0, length_replicate⟩
  obtain ⟨shards, smallRows, file, hok, henc, hev⟩ :=
    exists_mounted (by decide : 0 < (ecContextOf (some (4, 2))).dataShards) dat (.inl rfl)
  have htotal : shards.length = 6 := henc.striped.total
  refine ⟨dat, shards, _, hok, hev, ?_, ⟨[⟨6, 0, 32, false, 0⟩], ?_, ?_⟩, writeDatFile_few (by decide) _ _⟩
  · refine ⟨by decide, by decide, by decide, ?_⟩
    rw [hdat]
    decide
  · unfold locateEcShardNeedleInterval shardSize
    dsimp only
    rw [hdat, if_pos (by decide)]
    decide
  · have hnone : shards[6]? = none := getElem?_eq_none (by omega)
    have hplace : (Interval.mk 6 0 32 false 0).toShardIdAndOffset erasureCodingLargeBlockSize
        erasureCodingSmallBlockSize = (6, 0) := by decide
    rw [readEcShardIntervals, readOneEcShardInterval, hplace]
    simp only [hnone]
    rfl

/-! ## The size of a record -/

/-- The size that is asked for is not that of the record: the padding and the rest are added twice. -/
theorem twice_ne_getActualSize {size : Size} (hsize : 0 ≤ size.toInt) (version : Version) :
    max 0 (Int32.ofInt (getActualSize (Int32.ofInt (getActualSize size version)) version)).toInt ≠
      getActualSize size version := by
  have hpos := getActualSize_pos hsize version
  generalize getActualSize size version = actual at *
  intro h
  have hpad := paddingLength_pos (Int32.ofInt actual) version
  have hpad' := (paddingLength (Int32.ofInt actual) version).toInt_lt
  have hint := bmod_emod (x := actual) (m := 2 ^ 32)
  have hint' := bmod_emod (x := getActualSize (Int32.ofInt actual) version) (m := 2 ^ 32)
  rw [getActualSize, needleBodyLength, Int32.toInt_ofInt, Int32.toInt_ofInt] at *
  have htail : 0 < tailSize version ∧ tailSize version < 20 := by cases version <;> decide
  have hhead : needleHeaderSize = 16 := rfl
  simp only [Int32.size] at *
  norm_num at *
  omega

/-- **A needle is never located with the size of its record.** -/
theorem locateEcShardNeedle_size {ev : EcVolume} {index : EcIndex} {needleId : NeedleId} {offset : Offset}
    {size : Size} (version : Version) (hshards : ev.shards ≠ [])
    (hfind : index.findNeedleFromEcx needleId = .ok (offset, size)) (hsize : 0 ≤ size.toInt) :
    ∃ intervals, ev.locateEcShardNeedle index needleId version = .ok (offset, size, intervals) ∧
      (intervals.map (·.size)).sum =
        max 0 (Int32.ofInt (getActualSize (Int32.ofInt (getActualSize size version)) version)).toInt ∧
      (intervals.map (·.size)).sum ≠ getActualSize size version := by
  obtain ⟨shard, rest, hcons⟩ := exists_cons_of_ne_nil hshards
  obtain ⟨intervals, hlocate, hsum⟩ := locateData_sum (L := erasureCodingLargeBlockSize)
    (S := erasureCodingSmallBlockSize) (by decide) (by decide)
    (if ev.datFileSize > 0 then ev.datFileSize.tdiv ev.ecContext.dataShards else shard.ecdFileSize - 1)
    offset.toActualOffset
    (Int32.ofInt (getActualSize (Int32.ofInt (getActualSize size version)) version)).toInt
  refine ⟨intervals, ?_, hsum, hsum ▸ twice_ne_getActualSize hsize version⟩
  simp only [locateEcShardNeedle, hfind, locateEcShardNeedleInterval, shardSize,
    hcons, Except.mapError, bind, Except.bind, hlocate]
  rfl

/-- A record of 56 bytes. -/
def oneNeedle : EcIndex := ⟨toBytes 7 (toOffset 8) 20, none⟩

theorem locateEcShardNeedle_size_one :
    oneNeedle.findNeedleFromEcx 7 = .ok (toOffset 8, 20) ∧ ∃ intervals,
      EcVolume.locateEcShardNeedle ⟨[⟨1, 0, 1048576⟩], 0, newDefaultECContext⟩ oneNeedle 7 .v3 =
        .ok (toOffset 8, 20, intervals) ∧
      (intervals.map (·.size)).sum ≠ getActualSize 20 .v3 := by
  have hfind : oneNeedle.findNeedleFromEcx 7 = .ok (toOffset 8, 20) := by decide +kernel
  obtain ⟨intervals, hlocate, -, hne⟩ := locateEcShardNeedle_size .v3
    (show (mk [⟨1, 0, 1048576⟩] 0 newDefaultECContext).shards ≠ [] by decide) hfind (by decide)
  exact ⟨hfind, intervals, hlocate, hne⟩

/-- 88 bytes are asked for. -/
theorem locateEcShardNeedle_twice : ∃ intervals,
    EcVolume.locateEcShardNeedle ⟨[⟨1, 0, 1048576⟩], 0, newDefaultECContext⟩ oneNeedle 7 .v3 =
      .ok (toOffset 8, 20, intervals) ∧
    (intervals.map (·.size)).sum = 88 ∧ getActualSize 20 .v3 = 56 :=
  ⟨[⟨0, 8, 88, false, 0⟩], by decide +kernel, by decide, by decide⟩

end ErasureCoding
