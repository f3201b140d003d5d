import SeaweedFS.Storage.VolumeChecking
import SeaweedFS.Storage.Proof.Idx
import SeaweedFS.Storage.Proof.NeedleStored
import SeaweedFS.Storage.Proof.Record

/-!
# What the checks accept

The super block that was written is read again (`readSuperBlock_append`). A volume passes
`CheckVolumeDataIntegrity` when its index file is empty, or ends with an entry of the last record, or with
one that names no record (`checkVolumeDataIntegrity_ok`).
-/

namespace Storage

open Lib Util List IdxEntry

theorem readSuperBlock_append (s : SuperBlock) (rest : List UInt8) :
    readSuperBlock (s.bytes ++ rest) = some s := by
  obtain ⟨version, replicaPlacement, ttl, compactionRevision⟩ := s
  have hversion : Version.ofByte version.byte = some version := by cases version <;> rfl
  have hread : File.readAt ((SuperBlock.mk version replicaPlacement ttl compactionRevision).bytes ++ rest)
      superBlockSize 0 = ((SuperBlock.mk version replicaPlacement ttl compactionRevision).bytes, false) :=
    rfl
  unfold readSuperBlock
  rw [hread]
  dsimp only
  rw [if_neg (by simp), show List.getD _ 0 0 = version.byte from rfl, hversion]
  refine congrArg some ?_
  have hrevision : bytesToUint16 ((List.drop 4 (SuperBlock.mk version replicaPlacement ttl
      compactionRevision).bytes).take 2) = compactionRevision :=
    bytesToUint16_uint16toBytes compactionRevision
  rw [hrevision]
  rfl

/-! ## The last record -/

variable {version : Version} {recs : List Rec} {r : Rec}

theorem At.readStamp {off : Nat} (h : At recs off r) (hr : r.Complete .v3) (s : SuperBlock) :
    File.readAt (s.bytes ++ bytesOf recs) timestampSize
      (off + needleHeaderSize + r.needle.size.toInt.toNat + needleChecksumSize) =
      (uint64toBytes r.needle.appendAtNs, false) := by
  obtain ⟨pre, post, hfile, rfl⟩ := h.split s
  obtain ⟨-, hbody, pad, hbytes, -⟩ := hr
  have hfile' : s.bytes ++ bytesOf recs =
      (pre ++ r.needle.header ++ r.body ++ uint32toBytes r.needle.checksum) ++
        uint64toBytes r.needle.appendAtNs ++ (pad ++ post) := by
    rw [hfile, hbytes]
    simp [Needle.tail]
  have hlen : (pre ++ r.needle.header ++ r.body ++ uint32toBytes r.needle.checksum).length =
      pre.length + needleHeaderSize + r.needle.size.toInt.toNat + needleChecksumSize := by
    rw [length_append, length_append, length_append, length_header,
      length_uint32toBytes, ← hbody, Int.toNat_natCast]
    rfl
  have hread := readAt_append (pre ++ r.needle.header ++ r.body ++ uint32toBytes r.needle.checksum)
    (uint64toBytes r.needle.appendAtNs) (pad ++ post)
  rw [hlen, length_uint64toBytes] at hread
  rw [hfile']
  exact hread

theorem At.verifyNeedleData {off : Nat} (h : At recs off r) (hr : r.Complete version)
    (he : r.Encoded version) (s : SuperBlock) {m : Needle} (hm : m.data = []) :
    verifyNeedleData (s.bytes ++ bytesOf recs) version off r.needle.id r.needle.size m =
      .ok (m.load r.needle version).appendAtNs := by
  have hid : (m.load r.needle version).id = r.needle.id := by
    unfold Needle.load
    rw [takeTail_id]
    cases version with
    | v1 => rfl
    | v2 | v3 =>
      unfold Needle.takeBody
      dsimp only
      split <;> rfl
  unfold Storage.verifyNeedleData
  rw [h.readData hr he s hm]
  exact if_neg (not_not_intro hid)

/-- **The last record passes the check.** -/
theorem verifyNeedleIntegrity_last (s : SuperBlock) (hr : r.Complete version) (he : r.Encoded version) :
    ∃ stamp, verifyNeedleIntegrity (s.bytes ++ bytesOf (recs ++ [r])) version
      (superBlockSize + (bytesOf recs).length) r.needle.id r.needle.size = .ok stamp := by
  have hat := At.last recs r
  unfold verifyNeedleIntegrity
  rw [hat.readNeedleHeader hr s]
  dsimp only
  rw [if_neg (not_not_intro rfl)]
  by_cases hv : version = .v3
  · subst hv
    have hlen : ((s.bytes ++ bytesOf (recs ++ [r])).length : Int) =
        (superBlockSize + (bytesOf recs).length : Nat) + getActualSize r.needle.size .v3 := by
      rw [← IsRecord.length_eq hr, length_append, bytesOf_append, bytesOf_singleton,
        length_append, length_superBlock_bytes]
      push_cast
      ring
    rw [if_pos rfl, hat.readStamp hr s]
    dsimp only
    rw [if_neg Bool.false_ne_true, if_pos hlen]
    exact ⟨_, rfl⟩
  · rw [if_neg hv]
    exact ⟨_, hat.verifyNeedleData hr he s rfl⟩

/-! ## The last entry -/

/-- The last entry names the last record, or no record. -/
def EndsTogether (out : List Rec) (rows : List IdxEntry) : Prop :=
  rows = [] ∨ ∃ rows' row, rows = rows' ++ [row] ∧ (row.2.1.isZero = true ∨
    ∃ out' r, out = out' ++ [r] ∧ superBlockSize + (bytesOf out').length < maxPossibleVolumeSize ∧
      row = (r.needle.id, toOffset (superBlockSize + (bytesOf out').length), r.needle.size))

theorem readIndexEntryAtOffset_eq (before behind : List IdxEntry) (row : IdxEntry) :
    readIndexEntryAtOffset ((before ++ row :: behind).flatMap IdxEntry.bytes)
      (before.length * needleMapEntrySize : Nat) = .ok row.bytes := by
  have hread := readAt_append (before.flatMap bytes) row.bytes (behind.flatMap bytes)
  rw [length_flatMap_bytes, bytes, length_toBytes] at hread
  unfold readIndexEntryAtOffset
  rw [if_neg (by omega), Int.toNat_natCast, flatMap_append, flatMap_cons,
    ← append_assoc, needleMapEntrySize_eq, bytes, hread]
  rfl

theorem doCheckAndFixVolumeData_eq (datFile : File) (rows : List IdxEntry) (row : IdxEntry) :
    doCheckAndFixVolumeData datFile version ((rows ++ [row]).flatMap IdxEntry.bytes)
      (rows.length * needleMapEntrySize) = checkEntry datFile version row := by
  unfold doCheckAndFixVolumeData
  rw [readIndexEntryAtOffset_eq rows [] row]
  show checkEntry datFile version (idxFileEntry (bytes row)) = _
  rw [bytes, idxFileEntry_toBytes]

theorem checkEntry_zero {row : IdxEntry} (hzero : row.2.1.isZero = true) (datFile : File) :
    checkEntry datFile version row = .ok 0 := by
  obtain ⟨key, offset, size⟩ := row
  unfold checkEntry
  dsimp only at hzero ⊢
  rw [if_pos hzero]

theorem checkEntry_last (s : SuperBlock)
    (hcomplete : ∀ r' ∈ recs ++ [r], r'.Complete version) (he : r.Encoded version)
    (hbelow : superBlockSize + (bytesOf recs).length < maxPossibleVolumeSize) :
    ∃ stamp, checkEntry (s.bytes ++ bytesOf (recs ++ [r])) version
      (r.needle.id, toOffset (superBlockSize + (bytesOf recs).length), r.needle.size) = .ok stamp := by
  have hat := At.last recs r
  have hr := hcomplete r hat.mem
  have haligned := hat.aligned hcomplete
  have hzero : (toOffset (superBlockSize + (bytesOf recs).length)).isZero = false :=
    isZero_toOffset hbelow haligned (Nat.lt_of_lt_of_le (by decide) hat.superBlockSize_le)
  have hactual := toActualOffset_toOffset hbelow haligned
  have hsize : ¬ r.needle.size < 0 := by
    have := hr.1.1
    rw [Int32.lt_iff_toInt_lt]
    show ¬ _ < (0 : Int)
    omega
  obtain ⟨stamp, hstamp⟩ := verifyNeedleIntegrity_last s hr he
  refine ⟨stamp, ?_⟩
  unfold checkEntry
  dsimp only
  rw [hzero, if_neg Bool.false_ne_true, if_neg hsize, hactual, hstamp]

/-- **Files that end together** pass the check. -/
theorem checkVolumeDataIntegrity_ok {rows : List IdxEntry} (s : SuperBlock)
    (hcomplete : ∀ r ∈ recs, r.Complete version) (hencoded : ∀ r ∈ recs, r.Encoded version)
    (hends : EndsTogether recs rows) :
    ∃ stamp, checkVolumeDataIntegrity (s.bytes ++ bytesOf recs) version
      (rows.flatMap IdxEntry.bytes) = .ok stamp := by
  rcases hends with rfl | ⟨rows', row, rfl, hrow⟩
  · exact ⟨0, rfl⟩
  · have hlen : ((rows' ++ [row]).flatMap bytes).length = (rows'.length + 1) * 16 := by
      rw [length_flatMap_bytes, length_append]
      rfl
    obtain ⟨stamp, hstamp⟩ : ∃ stamp, doCheckAndFixVolumeData (s.bytes ++ bytesOf recs) version
        ((rows' ++ [row]).flatMap bytes) (rows'.length * needleMapEntrySize) = .ok stamp := by
      rw [doCheckAndFixVolumeData_eq]
      rcases hrow with hzero | ⟨out', r, rfl, hbelow, rfl⟩
      · exact ⟨0, checkEntry_zero hzero _⟩
      · exact checkEntry_last s hcomplete (hencoded r (by simp)) hbelow
    have hloop : checkLastEntries (s.bytes ++ bytesOf recs) version
        ((rows' ++ [row]).flatMap bytes) 10 1 ((rows'.length + 1) * 16) (.ok 0) =
        ((rows'.length + 1) * 16, .ok stamp) := by
      have hoffset : (rows'.length + 1) * 16 - 1 * needleMapEntrySize =
          rows'.length * needleMapEntrySize := by
        rw [needleMapEntrySize_eq]
        omega
      unfold checkLastEntries
      rw [hlen]
      dsimp only
      rw [if_pos (by rw [needleMapEntrySize_eq]; omega), hoffset, hstamp]
    refine ⟨stamp, ?_⟩
    unfold checkVolumeDataIntegrity verifyIndexFileIntegrity
    rw [hlen]
    dsimp only
    rw [if_neg (by rw [needleMapEntrySize_eq]; omega)]
    simp only [bind, Except.bind]
    rw [if_neg (by omega), hloop]
    exact if_neg (Nat.lt_irrefl _)

end Storage
