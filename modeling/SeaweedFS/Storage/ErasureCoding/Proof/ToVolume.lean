import SeaweedFS.Storage.ErasureCoding.Proof.Decoder
import SeaweedFS.Storage.ErasureCoding.Proof.Index
import SeaweedFS.Storage.ErasureCoding.Proof.Locate
import SeaweedFS.Storage.ErasureCoding.ToVolume
import SeaweedFS.Storage.Proof.NeedleWrite

/-!
# A volume made of shards after deletions

The decoder finds the size of the `.dat` file from the live needles, so it may take fewer rows of large blocks
than were written. It then reads small blocks where the shards have large ones: the byte it puts at an address
comes from another one (`decodedFrom`, `Encoded.writeDatFileWith_short`).
-/

namespace ErasureCoding

open Lib Storage List Int Nat SuperBlock

variable {superBlock : SuperBlock} {version : Version} {deleted : List NeedleId} {ev : EcIndex}

/-! ## Decoding with too few large rows -/

/-- The address that the decoder takes the byte at `addr` from, when it reads small blocks from `base`
on and the shards have large ones. -/
def decodedFrom (dataShards L S base addr : Nat) : Nat :=
  if addr < base then addr
  else base + L * ((addr - base) / S % dataShards) + (addr - base) / S / dataShards * S +
    (addr - base) % S

theorem getElem?_smallRows (dat : File) {dataShards L S base rows j : Nat}
    (hj : j < rows * (dataShards * S)) :
    ((List.range rows).flatMap fun k => (List.range dataShards).flatMap fun i =>
      window 0 dat (base + L * i + k * S) S)[j]? =
      some (dat.getD (decodedFrom dataShards L S base (base + j)) 0) := by
  have hS : 0 < S := Nat.pos_of_mul_pos_left (Nat.pos_of_mul_pos_left (zero_lt_of_lt hj))
  have hrow : 0 < dataShards * S := Nat.pos_of_mul_pos_left (zero_lt_of_lt hj)
  rw [getElem?_flatMap_blocks (fun k => length_flatMap_blocks (fun i => length_window ..) dataShards) hj,
    getElem?_flatMap_blocks (fun i => length_window ..) (mod_lt j hrow),
    mod_mul_left_div_self, Nat.mod_mul_left_mod, Nat.mul_comm dataShards S,
    ← Nat.div_div_eq_div_mul]
  rw [getElem?_window 0 dat (mod_lt j hS), decodedFrom, if_neg (by omega), Nat.add_sub_cancel_left]

variable {ctx : ECContext} {dat : File} {L S smallRows : Nat} {shards : List File}

section

variable (h : Encoded ctx dat L S smallRows shards)
include h

theorem Encoded.interleave_drop {rows : Nat}
    (hrows : rows < dat.length / (L * ctx.dataShards)) (hdvd : S ∣ L) :
    interleave ((shards.take ctx.dataShards).map (·.drop (rows * L))) S (L / S) =
      (List.range (L / S)).flatMap fun k => (List.range ctx.dataShards).flatMap fun i =>
        window 0 dat (rows * (L * ctx.dataShards) + L * i + k * S) S := by
  refine flatMap_congr fun k hk => ?_
  rw [h.striped.take, map_map, flatMap_map]
  refine flatMap_congr fun i _ => ?_
  have hin : k * S + S ≤ L := by
    rw [← succ_mul]
    calc (k + 1) * S ≤ L / S * S := mul_le_mul_right S (mem_range.1 hk)
      _ = L := Nat.div_mul_cancel hdvd
  rw [Function.comp, drop_drop, slice_stripe hrows hin, Nat.zero_add]

variable {datFileSize : Nat}

/-- **Decoding with too few large rows.** -/
theorem Encoded.writeDatFileWith_short (hS : 0 < S) (hdvd : S ∣ L)
    (hrows : datFileSize / (L * ctx.dataShards) < dat.length / (L * ctx.dataShards)) :
    ErasureCoding.writeDatFileWith ctx.dataShards L S datFileSize shards =
      .ok ((List.range datFileSize).map fun addr => dat.getD (decodedFrom ctx.dataShards L S
        (datFileSize / (L * ctx.dataShards) * (L * ctx.dataShards)) addr) 0) := by
  have hL := h.largeRow
  have hds : 0 < ctx.dataShards := Nat.pos_of_mul_pos_left hL
  have htotal : ctx.dataShards ≤ shards.length := by
    rw [h.striped.total]
    exact Nat.le_add_right ..
  have hsz := div_add_mod' datFileSize (L * ctx.dataShards)
  have hmod := mod_lt datFileSize hL
  have hfillRow : L / S * (ctx.dataShards * S) = L * ctx.dataShards := by
    rw [Nat.mul_comm ctx.dataShards, ← Nat.mul_assoc, Nat.div_mul_cancel hdvd]
  have hlen : ∀ input ∈ shards.take ctx.dataShards,
      datFileSize / (L * ctx.dataShards) * L + L / S * S ≤ input.length := by
    intro input hi
    rw [h.length_shard (mem_of_mem_take hi), Nat.div_mul_cancel hdvd, ← succ_mul]
    exact le_add_right_of_le (mul_le_mul_right L hrows)
  rw [mul_comm L ctx.dataShards] at hL hmod hfillRow hlen
  rw [writeDatFileWith_eq htotal hL (mul_pos hds hS) hlen (by omega), mul_comm ctx.dataShards L,
    h.interleave_drop hrows hdvd, h.striped.take, interleave_stripe dat (le_of_lt hrows)]
  rw [mul_comm ctx.dataShards L] at hmod hfillRow
  set base := datFileSize / (L * ctx.dataShards) * (L * ctx.dataShards)
  congr 1
  refine ext_getElem? fun a => ?_
  rcases lt_or_ge a base with hlt | hge
  · -- a large row
    rw [getElem?_append_left (by simpa using hlt), getElem?_window 0 dat hlt, zero_add,
      getElem?_map, getElem?_range (by omega), Option.map_some, decodedFrom, if_pos hlt]
  · obtain ⟨j, rfl⟩ := Nat.exists_eq_add_of_le hge
    rw [getElem?_append_right (by simp), length_window, Nat.add_sub_cancel_left]
    rcases lt_or_ge j (datFileSize % (L * ctx.dataShards)) with hj | hj
    · rw [getElem?_take_of_lt hj, getElem?_smallRows dat (by omega), getElem?_map,
        getElem?_range (by omega), Option.map_some]
    · rw [getElem?_take_eq_none hj, getElem?_map, getElem?_eq_none (by simp; omega)]
      rfl

theorem Encoded.decoded (hS : 0 < S) (hdvd : S ∣ L) (hsize : datFileSize ≤ dat.length) :
    ∃ dat', ErasureCoding.writeDatFileWith ctx.dataShards L S datFileSize shards = .ok dat' ∧
      dat'.length = datFileSize ∧ ∀ addr < datFileSize, dat'.getD addr 0 = dat.getD
        (if datFileSize / (L * ctx.dataShards) = dat.length / (L * ctx.dataShards) then addr
          else decodedFrom ctx.dataShards L S
            (datFileSize / (L * ctx.dataShards) * (L * ctx.dataShards)) addr) 0 := by
  have hds : 0 < ctx.dataShards := Nat.pos_of_mul_pos_left h.largeRow
  by_cases hrows : datFileSize / (L * ctx.dataShards) = dat.length / (L * ctx.dataShards)
  · refine ⟨_, h.writeDatFileWith (mul_pos hds hS) hsize hrows, ?_, fun addr haddr => ?_⟩
    · rw [length_take, min_eq_left hsize]
    · rw [if_pos hrows, getD_eq_getElem?_getD, getElem?_take_of_lt haddr, ← getD_eq_getElem?_getD]
  · have hless : datFileSize / (L * ctx.dataShards) < dat.length / (L * ctx.dataShards) :=
      Nat.lt_of_le_of_ne (Nat.div_le_div_right hsize) hrows
    refine ⟨_, h.writeDatFileWith_short hS hdvd hless, ?_, fun addr haddr => ?_⟩
    · rw [length_map, length_range]
    · rw [if_neg hrows, getD_eq_getElem?_getD, getElem?_map, getElem?_range haddr]
      rfl

end

/-! ## The size of the file -/

/-- Where the record of an entry stops. -/
def stopOf (version : Version) (e : Offset × Size) : Int :=
  e.1.toActualOffset + getActualSize e.2 version

theorem iterateEcxFile_eq {σ : Type} (fn : σ → NeedleId → Offset → Size → σ) (ecxFile : File) (s : σ) :
    iterateEcxFile fn ecxFile s = (rowsOf ecxFile).foldl (fun s e => fn s e.1 e.2.1 e.2.2) s := by
  unfold iterateEcxFile rowsOf
  generalize length ecxFile / needleMapEntrySize = n
  induction n generalizing ecxFile s with
  | zero => rfl
  | succ n ih =>
    exact ih _ _

/-- What `FindDatFileSize` does with an entry. -/
def widen (version : Version) (datSize : Int) (e : IdxEntry) : Int :=
  if e.2.2.isDeleted then datSize else max datSize (stopOf version e.2)

theorem foldl_widen (version : Version) (rows : List IdxEntry) (datSize : Int) :
    datSize ≤ rows.foldl (widen version) datSize ∧
    (∀ e ∈ rows, e.2.2.isDeleted = false → stopOf version e.2 ≤ rows.foldl (widen version) datSize) ∧
    (rows.foldl (widen version) datSize = datSize ∨ ∃ e ∈ rows, e.2.2.isDeleted = false ∧
        rows.foldl (widen version) datSize = stopOf version e.2) := by
  induction rows using reverseRecOn with
  | nil => exact ⟨le_refl _, fun e he => (nomatch he), .inl rfl⟩
  | append_singleton rows e ih =>
    obtain ⟨hle, hall, hreached⟩ := ih
    rw [foldl_append, foldl_cons, foldl_nil]
    set size := rows.foldl (widen version) datSize
    unfold widen
    cases hdel : e.2.2.isDeleted with
    | true =>
      exact ⟨hle, forall_mem_append.2 ⟨hall, forall_mem_singleton.2 fun hlive => nomatch hdel.symm.trans hlive⟩,
        hreached.imp_right fun ⟨e', he', h⟩ => ⟨e', mem_append_left _ he', h⟩⟩
    | false =>
      refine ⟨le_trans hle (le_max_left ..), forall_mem_append.2 ⟨fun e' he' hlive => ?_,
        forall_mem_singleton.2 fun _ => le_max_right ..⟩, ?_⟩
      · exact le_trans (hall e' he' hlive) (le_max_left ..)
      · rcases le_total size (stopOf version e.2) with h | h
        · rw [max_eq_right h]
          exact .inr ⟨e, mem_append_right _ mem_cons_self, hdel, rfl⟩
        · rw [max_eq_left h]
          exact hreached.imp_right fun ⟨e', he', h⟩ => ⟨e', mem_append_left _ he', h⟩

theorem findDatFileSize_eq {shard : File}
    (h : readSuperBlock shard = some superBlock) (ecxFile : File) : findDatFileSize shard ecxFile =
      .ok ((rowsOf ecxFile).foldl (widen superBlock.version) superBlockSize) := by
  unfold findDatFileSize
  rw [h]
  dsimp only
  rw [iterateEcxFile_eq]
  congr 2
  funext datSize e
  unfold widen stopOf
  split
  · rfl
  · generalize (e.2.1.toActualOffset + getActualSize e.2.2 superBlock.version : Int) = stop
    rcases Int.lt_or_le datSize stop with h | h
    · rw [if_pos h, max_eq_right (le_of_lt h)]
    · rw [if_neg (not_lt.2 h), max_eq_left h]

theorem hasLiveNeedles_iff (ecxFile : File) :
    hasLiveNeedles ecxFile = true ↔ ∃ e ∈ rowsOf ecxFile, e.2.2.isDeleted = false := by
  unfold hasLiveNeedles
  rw [iterateEcxFile_eq]
  induction rowsOf ecxFile using reverseRecOn with
  | nil => simp
  | append_singleton rows e ih =>
    rw [foldl_append, foldl_cons, foldl_nil, Bool.or_eq_true, ih, Bool.not_eq_true']
    simp only [mem_append, mem_singleton, or_and_right, exists_or, exists_eq_left]

/-! ## The super block -/

theorem length_of_readSuperBlock {file : File}
    (h : readSuperBlock file = some superBlock) : superBlockSize ≤ file.length := by
  by_contra hlt
  unfold readSuperBlock File.readAt at h
  dsimp only at h
  rw [if_pos (by rw [length_take, drop_zero]; omega)] at h
  cases h

theorem Encoded.readSuperBlock (h : Encoded ctx dat L S smallRows shards)
    (hds : ctx.dataShards = dataShardsCount) (hL : superBlockSize ≤ L) (hS : superBlockSize ≤ S)
    (hsuper : readSuperBlock dat = some superBlock) :
    Storage.readSuperBlock (shards.getD 0 []) = some superBlock := by
  have hlen := length_of_readSuperBlock hsuper
  have hfirst : ∃ isLarge, Located L S (dat.length / (L * dataShardsCount)) 0 0 0 isLarge ∧
      superBlockSize ≤ blockLength L S isLarge ∧
      shardOffset L S (dat.length / (L * dataShardsCount)) 0 0 isLarge = 0 := by
    rcases Nat.eq_zero_or_pos (dat.length / (L * dataShardsCount)) with hz | hpos
    · rw [hz]
      exact ⟨false, .small (lt_of_lt_of_le (by decide) hS) (by simp), hS, by simp [shardOffset]⟩
    · exact ⟨true, .large (mul_pos hpos dataShardsCount_pos) (lt_of_lt_of_le (by decide) hL)
        (by simp), hL, by simp [shardOffset]⟩
  obtain ⟨isLarge, hloc, hblock, hoff⟩ := hfirst
  have hfits : 0 + superBlockSize ≤ blockLength L S isLarge := by omega
  obtain ⟨shard, hshard, hslice⟩ := h.slice hds hloc hfits (by decide) (by omega)
  rw [hoff, window_eq_slice 0 dat (by omega)] at hslice
  have hget : shards.getD 0 [] = shard := by
    exact congrArg (Option.getD · []) hshard
  unfold Storage.readSuperBlock File.readAt at hsuper ⊢
  rw [hget]
  rw [hslice]
  exact hsuper

/-! ## The records of the live needles -/

variable {nm : MemDb} {e : Offset × Size}

theorem EcIndexInv.live_iff
    (h : EcIndexInv nm deleted ev) (hlive : ∀ key e, nm.get key = some e → isLiveRow e = true)
    {key : NeedleId} : ev.live key = some e ↔ (key, e) ∈ rowsOf ev.ecxFile ∧ e.2.isDeleted = false := by
  rw [h.live_eq hlive, h.ecx, ecxOf, rowsOf_flatMap, mem_map]
  constructor
  · intro hget
    split at hget
    · cases hget
    · rename_i hdel
      exact ⟨⟨(key, e), (SortedMap.mem_entries nm key e).2 hget, if_neg hdel⟩,
        (isLiveRow_iff.1 (hlive key e hget)).2⟩
  · rintro ⟨⟨e', he', hmarked⟩, hsize⟩
    unfold marked at hmarked
    split at hmarked
    · -- a tombstone
      cases hmarked
      cases hsize
    · rename_i hdel
      subst hmarked
      rw [if_neg hdel]
      exact (SortedMap.mem_entries nm key e).1 he'

theorem superBlockSize_le_toActualOffset {offset : Offset} (h : offset.isZero = false) :
    superBlockSize ≤ offset.toActualOffset := by
  by_contra hlt
  unfold Offset.toActualOffset superBlockSize needlePaddingSize at hlt
  have hzero : offset.isZero = true := by
    simp only [Offset.isZero, Bool.and_eq_true, beq_iff_eq, ← UInt8.toNat_inj, UInt8.toNat_zero]
    omega
  cases hzero.symm.trans h

/-- The greatest end of a live record. -/
structure LiveEnd (version : Version) (ev : EcIndex) (stop : Nat) : Prop where
  reached : ∃ key e, ev.live key = some e ∧ stopOf version e = stop
  bound : ∀ key e, ev.live key = some e → stopOf version e ≤ stop

section

variable (h : EcIndexInv nm deleted ev) (hlive : ∀ key e, nm.get key = some e → isLiveRow e = true)
include h hlive

theorem EcIndexInv.behind_superBlock {key : NeedleId} (he : ev.live key = some e) :
    superBlockSize ≤ e.1.toActualOffset := by
  rw [h.live_eq hlive] at he
  split at he
  · cases he
  · exact superBlockSize_le_toActualOffset (isLiveRow_iff.1 (hlive key e he)).1

/-- **The size that is found.** -/
theorem EcIndexInv.findDatFileSize {shard : File} (hsuper : readSuperBlock shard = some superBlock) {stop : Nat}
    (hstop : LiveEnd superBlock.version ev stop) : findDatFileSize shard ev.ecxFile = .ok (stop : Int) := by
  rw [findDatFileSize_eq hsuper]
  obtain ⟨-, hall, hreached⟩ := foldl_widen superBlock.version (rowsOf ev.ecxFile) superBlockSize
  generalize (rowsOf ev.ecxFile).foldl (widen superBlock.version) superBlockSize = found at *
  obtain ⟨key, e, he, hend⟩ := hstop.reached
  obtain ⟨hmem, hdel⟩ := (h.live_iff hlive).1 he
  have hle := hall (key, e) hmem hdel
  have hbehind := h.behind_superBlock hlive he
  have hpos := getActualSize_pos (isDeleted_eq_false_iff.1 hdel) superBlock.version
  have hge : found ≤ stop := by
    rcases hreached with hstart | ⟨e', he', hdel', hstop'⟩
    · rw [hstart, ← hend, stopOf]
      omega
    · rw [hstop']
      exact hstop.bound e'.1 e'.2 ((h.live_iff hlive).2 ⟨he', hdel'⟩)
  exact congrArg _ (le_antisymm hge (hend ▸ hle))

end

theorem volumeEcShardsToVolume_eq {size : Nat} {dat' : File} (hlive : hasLiveNeedles ev.ecxFile = true)
    (hfind : ErasureCoding.findDatFileSize (shards.getD 0 []) ev.ecxFile = .ok (size : Int))
    (hwrite : writeDatFile size (shards.take ctx.dataShards) = .ok dat') :
    volumeEcShardsToVolume ctx shards ev = .ok (dat', ev.writeIdxFileFromEcIndex) := by
  unfold volumeEcShardsToVolume
  rw [hlive, hfind]
  show (writeDatFile size (shards.take ctx.dataShards) >>= _) = _
  rw [hwrite]
  rfl

/-- The record of an entry is the same in both files. -/
def SameRecord (version : Version) (dat dat' : File) (e : Offset × Size) : Prop :=
  (dat'.drop e.1.toActualOffset).take (getActualSize e.2 version).toNat =
    (dat.drop e.1.toActualOffset).take (getActualSize e.2 version).toNat

theorem sameRecord_iff {dat' : File}
    (hpos : 0 ≤ getActualSize e.2 version) (h : stopOf version e ≤ dat.length)
    (h' : stopOf version e ≤ dat'.length) :
    SameRecord version dat dat' e ↔ ∀ addr : Nat, e.1.toActualOffset ≤ addr →
      (addr : Int) < stopOf version e → dat'.getD addr 0 = dat.getD addr 0 := by
  unfold SameRecord
  unfold stopOf at *
  obtain ⟨len, hlen⟩ := eq_ofNat_of_zero_le hpos
  rw [hlen] at h h' ⊢
  rw [toNat_natCast, ← window_eq_slice 0 dat (by omega), ← window_eq_slice 0 dat' (by omega),
    window_eq_window_iff]
  constructor
  · exact fun hall addr hlo hhi => hall addr hlo (by omega)
  · exact fun hall addr hlo hhi => hall addr hlo (by omega)

/-- The volume made of the shards has the live records of `dat`. -/
def KeepsRecords (version : Version) (dat : File) (shards : List File) (ev : EcIndex) : Prop :=
  ∃ dat' idx', volumeEcShardsToVolume newDefaultECContext shards ev = .ok (dat', idx') ∧
    ∀ key e, ev.live key = some e → SameRecord version dat dat' e

/-- A row of large blocks. -/
def largeRow : Nat := erasureCodingLargeBlockSize * dataShardsCount

/-- The address that the byte at `addr` is taken from, when the size that is found is `stop`. -/
def takenFrom (stop addr : Nat) : Nat :=
  decodedFrom dataShardsCount erasureCodingLargeBlockSize erasureCodingSmallBlockSize (stop / largeRow * largeRow) addr

theorem EcIndexInv.keepsRecords_iff
    (h : EcIndexInv nm deleted ev) (hget : ∀ key e, nm.get key = some e → isLiveRow e = true) {stop : Nat}
    (henc : Encoded newDefaultECContext dat erasureCodingLargeBlockSize erasureCodingSmallBlockSize
      smallRows shards) (hsuper : readSuperBlock dat = some superBlock)
    (hsize : stop ≤ dat.length) (hstop : LiveEnd superBlock.version ev stop) :
    KeepsRecords superBlock.version dat shards ev ↔ stop / largeRow = dat.length / largeRow ∨
      ∀ key e, ev.live key = some e → ∀ addr : Nat, e.1.toActualOffset ≤ addr →
        (addr : Int) < stopOf superBlock.version e → dat.getD (takenFrom stop addr) 0 = dat.getD addr 0 := by
  obtain ⟨dat', hdecode, hlen, hbytes⟩ := henc.decoded (by decide) (by decide) hsize
  have hbytes : ∀ addr < stop, dat'.getD addr 0 =
      dat.getD (if stop / largeRow = dat.length / largeRow then addr else takenFrom stop addr) 0 := hbytes
  have hhas : hasLiveNeedles ev.ecxFile = true := by
    obtain ⟨key, e, he, -⟩ := hstop.reached
    obtain ⟨hmem, hdel⟩ := (h.live_iff hget).1 he
    exact (hasLiveNeedles_iff _).2 ⟨(key, e), hmem, hdel⟩
  have hvolume := volumeEcShardsToVolume_eq hhas
    (h.findDatFileSize hget (henc.readSuperBlock rfl (by decide) (by decide) hsuper) hstop)
    (show writeDatFile stop (shards.take newDefaultECContext.dataShards) = .ok dat' from
      (writeDatFileWith_take ..).trans hdecode)
  have hrecord : ∀ key e, ev.live key = some e → (SameRecord superBlock.version dat dat' e ↔
      ∀ addr : Nat, e.1.toActualOffset ≤ addr → (addr : Int) < stopOf superBlock.version e →
        dat'.getD addr 0 = dat.getD addr 0) := by
    intro key e he
    have hlive := isDeleted_eq_false_iff.1 ((h.live_iff hget).1 he).2
    have := hstop.bound key e he
    exact sameRecord_iff (le_of_lt (getActualSize_pos hlive _)) (by omega) (by omega)
  have hbelow : ∀ key e, ev.live key = some e → ∀ addr : Nat, (addr : Int) < stopOf superBlock.version e →
      addr < stop := by
    intro key e he addr haddr
    have := hstop.bound key e he
    omega
  constructor
  · rintro ⟨dat'', idx', hok, hsame⟩
    cases hvolume.symm.trans hok
    by_cases hrows : stop / largeRow = dat.length / largeRow
    · exact .inl hrows
    · refine .inr fun key e he addr hlo hhi => ?_
      have hbyte := hbytes addr (hbelow key e he addr hhi)
      rw [if_neg hrows] at hbyte
      exact hbyte.symm.trans ((hrecord key e he).1 (hsame key e he) addr hlo hhi)
  · intro hcond
    refine ⟨dat', _, hvolume, fun key e he => (hrecord key e he).2 fun addr hlo hhi => ?_⟩
    rw [hbytes addr (hbelow key e he addr hhi)]
    split
    · rfl
    · rename_i hrows
      exact hcond.resolve_left hrows key e he addr hlo hhi

/-! ## The result -/

/-- The live records of a volume, by its log, end within its `.dat` file. -/
def RecordsInside (version : Version) (length : Nat) (idxFile : File) : Prop :=
  ∀ key e, liveRow (rowsOf idxFile) key = some e → stopOf version e ≤ length

theorem recordsInside_of_rows {idxFile : File} {rows : List IdxEntry} {length : Nat}
    (hrows : rowsOf idxFile = rows) (h : ∀ e ∈ rows, stopOf version e.2 ≤ length) :
    RecordsInside version length idxFile := fun key e he =>
  h (key, e) (hrows ▸ mem_of_lastRow (Option.filter_eq_some_iff.1 he).1)

section

variable {idxFile ecxFile : File} {ops : List EcOp} {n : Nat}
  (hecx : writeSortedFileFromIdx idxFile = (.ok ecxFile : Except EcxError File))
  (hrun : EcOp.run ops ⟨ecxFile, none⟩ = .ok ev)
include hecx hrun

theorem live_inside (hinside : RecordsInside version n idxFile) :
    ∃ deleted, EcIndexInv ((rowsOf idxFile).foldl MemDb.loadRow MemDb.new) deleted ev ∧
      ∀ key e, ev.live key = some e → stopOf version e ≤ n := by
  rw [writeSortedFileFromIdx_eq] at hecx
  cases hecx
  obtain ⟨ev', deleted, hrun', hinv, -⟩ := (ecIndexInv_start idxFile).run ops
  cases hrun'.symm.trans hrun
  refine ⟨deleted, hinv, fun key e he => ?_⟩
  rw [hinv.live_eq fun key e => isLiveRow_of_get] at he
  split at he
  · cases he
  · exact hinside key e (MemDb.get_loadRows (rowsOf idxFile) key ▸ he)

theorem liveEnd_of_rows {stop : Nat} {rows : List IdxEntry} (hinside : RecordsInside version n idxFile)
    (hrows : rowsOf ev.ecxFile = rows)
    (hreached : ∃ e ∈ rows, e.2.2.isDeleted = false ∧ stopOf version e.2 = stop)
    (hbound : ∀ e ∈ rows, e.2.2.isDeleted = false → stopOf version e.2 ≤ stop) : LiveEnd version ev stop := by
  subst hrows
  obtain ⟨deleted, hinv, -⟩ := live_inside hecx hrun hinside
  constructor
  · obtain ⟨e, he, hdel, hstop⟩ := hreached
    exact ⟨e.1, e.2, (hinv.live_iff fun key e => isLiveRow_of_get).2 ⟨he, hdel⟩, hstop⟩
  · intro key e he
    obtain ⟨hmem, hdel⟩ := (hinv.live_iff fun key e => isLiveRow_of_get).1 he
    exact hbound (key, e) hmem hdel

end

theorem readSuperBlock_set {addr : Nat} (h : superBlockSize ≤ addr) (b : UInt8) :
    readSuperBlock (dat.set addr b) = readSuperBlock dat := by
  unfold readSuperBlock File.readAt
  rw [drop_zero, drop_zero, take_set_of_le h]

/-- **The live records of a volume made of shards** are those that were encoded, whatever their bytes, exactly when
they reach into as many rows of large blocks as were written, or every byte of them is taken from its own address. -/
theorem toVolume_keeps {dat idxFile ecxFile : File} {ops : List EcOp} {ev : EcIndex} {superBlock : SuperBlock}
    {stop : Nat} (hsuper : readSuperBlock dat = some superBlock)
    (hinside : RecordsInside superBlock.version dat.length idxFile)
    (hecx : writeSortedFileFromIdx idxFile = (.ok ecxFile : Except EcxError File))
    (hrun : EcOp.run ops ⟨ecxFile, none⟩ = .ok ev) (hstop : LiveEnd superBlock.version ev stop) :
    (∀ enc dat' shards, dat'.length = dat.length → readSuperBlock dat' = some superBlock →
      writeEcFilesWithContext newDefaultECContext enc dat' = .ok shards →
      KeepsRecords superBlock.version dat' shards ev) ↔
    stop / largeRow = dat.length / largeRow ∨ ∀ key e, ev.live key = some e → ∀ addr : Nat,
      e.1.toActualOffset ≤ addr → (addr : Int) < stopOf superBlock.version e → takenFrom stop addr = addr := by
  obtain ⟨deleted, hinv, hlog⟩ := live_inside hecx hrun hinside
  have hsize : stop ≤ dat.length := by
    obtain ⟨key, e, he, hend⟩ := hstop.reached
    have := hlog key e he
    omega
  constructor
  · intro hall
    refine or_iff_not_imp_left.2 fun hrows key e he addr hlo hhi => ?_
    by_contra hne
    -- two files that differ in the byte at `addr` only
    have hbyte : ∀ dat', dat'.length = dat.length → readSuperBlock dat' = some superBlock →
        dat'.getD (takenFrom stop addr) 0 = dat'.getD addr 0 := by
      intro dat' hlen hsuper'
      obtain ⟨shards, hok⟩ := writeEcFilesWithContext_ok ⟨fun _ _ => 0⟩ dat'
        (by decide : 0 < newDefaultECContext.dataShards)
      obtain ⟨smallRows, henc⟩ := encodeDatFile_striped hok
      have hkeeps := (hinv.keepsRecords_iff (fun key e => isLiveRow_of_get) henc hsuper' (hlen ▸ hsize) hstop).1
        (hall _ dat' shards hlen hsuper' hok)
      exact hkeeps.resolve_left (hlen ▸ hrows) key e he addr hlo hhi
    have hsame := hbyte dat rfl hsuper
    have hset := hbyte (dat.set addr (dat.getD addr 0 + 1)) length_set ((readSuperBlock_set
      (le_trans (hinv.behind_superBlock (fun key e => isLiveRow_of_get) he) hlo) _).trans hsuper)
    have hlt : addr < dat.length := by
      have := hlog key e he
      omega
    rw [getD_eq_getElem?_getD, getElem?_set_ne (Ne.symm hne), ← getD_eq_getElem?_getD, hsame,
      getD_eq_getElem?_getD (i := addr), getD_eq_getElem?_getD (i := addr), getElem?_set_self hlt] at hset
    simp at hset
  · intro hcond enc dat' shards hlen hsuper' hok
    obtain ⟨smallRows, henc⟩ := encodeDatFile_striped hok
    refine (hinv.keepsRecords_iff (fun key e => isLiveRow_of_get) henc hsuper' (hlen ▸ hsize) hstop).2 ?_
    rw [hlen]
    exact hcond.imp_right fun hfix key e he addr hlo hhi => by rw [hfix key e he addr hlo hhi]

/-- The index file of empty needles at 1 MiB, at 10 GiB and behind that. -/
def threeNeedles : File := toBytes 1 (toOffset (1024 * 1024)) 0 ++ toBytes 2 (toOffset (10 * 1024 ^ 3)) 0 ++
  toBytes 3 (toOffset (10 * 1024 ^ 3 + 32)) 0

/-- The needle at the end of the file is deleted, but another one lies behind the first row of large blocks. -/
theorem toVolume_keeps_row : ∃ ev, EcOp.run [.mount, .delete 3] ⟨threeNeedles, none⟩ = .ok ev ∧
    ev.live 1 = some (toOffset (1024 * 1024), 0) ∧ ev.live 3 = none ∧
    ∀ enc dat shards, List.length dat = 10 * 1024 ^ 3 + 64 → readSuperBlock dat = some (SuperBlock.mk .v3 0 {} 0) →
      writeEcFilesWithContext newDefaultECContext enc dat = .ok shards → KeepsRecords .v3 dat shards ev := by
  have hrun : EcOp.run [.mount, .delete 3] ⟨threeNeedles, none⟩ = .ok ⟨toBytes 1 (toOffset (1024 * 1024)) 0 ++
      toBytes 2 (toOffset (10 * 1024 ^ 3)) 0 ++ toBytes 3 (toOffset (10 * 1024 ^ 3 + 32)) (-1),
        some (needleIdToBytes 3)⟩ := by decide
  refine ⟨_, hrun, by decide, by decide, fun enc dat shards hlen hsuper hencode => ?_⟩
  have hinside : RecordsInside .v3 dat.length threeNeedles := by
    rw [hlen]
    exact recordsInside_of_rows rfl (by decide)
  have hecx : writeSortedFileFromIdx threeNeedles = (.ok threeNeedles : Except EcxError File) := rfl
  have hstop : LiveEnd .v3 _ (10 * 1024 ^ 3 + 32) :=
    liveEnd_of_rows hecx hrun hinside rfl (by decide) (by decide)
  refine (toVolume_keeps hsuper hinside hecx hrun hstop).2 (.inl ?_) enc dat shards rfl hsuper hencode
  rw [hlen]
  decide

/-- The index file of the needles 1 at 1 MiB and 2 at the end of 10 GiB, both empty. -/
def twoNeedles : File := toBytes 1 (toOffset (1024 * 1024)) 0 ++ toBytes 2 (toOffset (10 * 1024 ^ 3 - 32)) 0

/-- A `.dat` file of 10 GiB, a row of large blocks. The needle at its end is deleted, so that no such row is found,
and the record of the other needle is read from elsewhere. -/
theorem toVolume_loses : ∃ dat shards ev,
    writeEcFilesWithContext newDefaultECContext ⟨fun _ _ => 0⟩ dat = .ok shards ∧
    readSuperBlock dat = some (SuperBlock.mk .v3 0 {} 0) ∧
    RecordsInside .v3 dat.length twoNeedles ∧
    EcOp.run [.mount, .delete 2] ⟨twoNeedles, none⟩ = .ok ev ∧
    ev.live 1 = some (toOffset (1024 * 1024), 0) ∧ ¬ KeepsRecords .v3 dat shards ev := by
  obtain ⟨rest, hlen, hhere, hthere⟩ := exists_byte
    (show 1024 * 1024 - 8 < 1024 ^ 3 - 8 by decide) (show 1024 ^ 3 - 8 < 10 * 1024 ^ 3 - 8 by decide)
  obtain ⟨dat, hdat⟩ : ∃ dat : File, dat = (mk .v3 0 {} 0).bytes ++ rest := ⟨_, rfl⟩
  have hlength : dat.length = 10 * 1024 ^ 3 := by
    rw [hdat, length_append, hlen]
    rfl
  have hbyte : ∀ addr, 8 ≤ addr → dat.getD addr 0 = rest.getD (addr - 8) 0 := by
    intro addr haddr
    rw [hdat, getD_append_right _ _ _ _ haddr]
    rfl
  have hsuper : readSuperBlock dat = some (mk .v3 0 {} 0) := by
    rw [hdat]
    rfl
  obtain ⟨shards, hencode⟩ := writeEcFilesWithContext_ok ⟨fun _ _ => 0⟩ dat
    (by decide : 0 < newDefaultECContext.dataShards)
  obtain ⟨smallRows, henc⟩ := encodeDatFile_striped hencode
  have hinside : RecordsInside .v3 dat.length twoNeedles := by
    rw [hlength]
    exact recordsInside_of_rows rfl (by decide)
  have hecx : writeSortedFileFromIdx twoNeedles = (.ok twoNeedles : Except EcxError File) := rfl
  have hrun : EcOp.run [.mount, .delete 2] ⟨twoNeedles, none⟩ =
      .ok ⟨toBytes 1 (toOffset (1024 * 1024)) 0 ++ toBytes 2 (toOffset (10 * 1024 ^ 3 - 32)) (-1),
        some (needleIdToBytes 2)⟩ := by decide
  refine ⟨dat, shards, _, hencode, hsuper, hinside, hrun, by decide, ?_⟩
  obtain ⟨deleted, hinv, -⟩ := live_inside hecx hrun hinside
  rw [hinv.keepsRecords_iff (fun key e => isLiveRow_of_get) henc hsuper (by rw [hlength]; decide)
    (liveEnd_of_rows hecx hrun hinside rfl (by decide) (by decide) : LiveEnd .v3 _ (1024 * 1024 + 32))]
  rintro (hrows | hbytes)
  · rw [hlength] at hrows
    exact absurd hrows (by decide)
  · have hsame := hbytes 1 (toOffset (1024 * 1024), 0) (by decide) (1024 * 1024) (by decide) (by decide)
    rw [show takenFrom (1024 * 1024 + 32) (1024 * 1024) = 1024 ^ 3 by decide, hbyte _ (by decide),
      hbyte _ (by decide), hhere, hthere] at hsame
    exact absurd hsame (by decide)

end ErasureCoding
