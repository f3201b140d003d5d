import SeaweedFS.Storage.Commit
import SeaweedFS.Storage.Proof.Snapshot

/-!
# What a commit keeps

Every entry that `makeupDiff` brings over keeps the copy a snapshot and gives its key the image that it has in the old
files (`Copied.makeupEntries`).
-/

namespace Storage

open Lib Util List Except Nat NeedleMapper Volume

variable {v v' : Volume} {recs rs out : List Rec} {log ls rows entries : List IdxEntry} {s : SuperBlock}
  {c : Compacted} {clock : NeedleId → UInt64} {key : NeedleId}

/-! ## What is logged after the compaction -/

/-- An entry of the log: a deletion, or the place of a record with data. -/
def LoggedRow (recs : List Rec) (row : IdxEntry) : Prop :=
  row.2.2 = tombstoneFileSize ∨ isLiveRow row.2 = true ∧ row.2.2 ≠ 0 ∧
    ∃ r, At recs row.2.1.toActualOffset r ∧ r.needle.id = row.1 ∧ r.needle.size = row.2.2

theorem LoggedRow.append {row : IdxEntry} (h : LoggedRow recs row)
    (recs' : List Rec) : LoggedRow (recs ++ recs') row := by
  rcases h with h | ⟨hlive, hne, r, hat, hid, hsize⟩
  · exact .inl h
  · exact .inr ⟨hlive, hne, r, hat.append recs', hid, hsize⟩

/-- **Step.** An operation appends at most one record and its entry. -/
theorem Sound.step (h : Sound v recs log) {op : VolumeOp} (hok : op.Ok v) (hdata : op.HasData)
    (hs : op.Storable v.version) :
    ∃ rs ls, Sound (v.after op) (recs ++ rs) (log ++ ls) ∧ (∀ r ∈ rs, r.Encoded v.version) ∧
      ∀ row ∈ ls, LoggedRow (recs ++ rs) row := by
  cases h.effect hok with
  | same heq =>
    rw [heq]
    exact ⟨[], [], by simpa using h, by simp, by simp⟩
  | put r below id adds cookie encoded data =>
    have hlive : isLiveRow (toOffset v.dat.length, r.needle.size) = true :=
      isLiveRow_iff.2 ⟨h.isZero_toOffset below, isDeleted_eq_false_iff.2 adds.complete.1.1⟩
    exact ⟨[r], _, h.puts below id adds, forall_mem_singleton.2 (encoded hs),
      forall_mem_singleton.2 (.inr ⟨hlive, data hdata, r, h.at_end below r, id, rfl⟩)⟩
  | delete r e live entry id empty adds encoded =>
    exact ⟨[r], _, h.deletes live entry adds, forall_mem_singleton.2 encoded, forall_mem_singleton.2 (.inl rfl)⟩

/-- **Run.** -/
theorem Sound.run (h : Sound v recs log) {ops : List VolumeOp} (hok : RunOk v ops)
    (hdata : ∀ op ∈ ops, op.HasData) (hs : ∀ op ∈ ops, op.Storable v.version) :
    ∃ rs ls, Sound (v.run ops) (recs ++ rs) (log ++ ls) ∧ (v.run ops).superBlock = v.superBlock ∧
      (∀ r ∈ rs, r.Encoded v.version) ∧ ∀ row ∈ ls, LoggedRow (recs ++ rs) row := by
  induction ops generalizing v recs log with
  | nil =>
    refine ⟨[], [], ?_, rfl, by simp, by simp⟩
    rw [append_nil, append_nil]
    exact h
  | cons op ops ih =>
    obtain ⟨hop, hops⟩ := hok
    have hsuper := (h.effect hop).superBlock
    have hversion : (v.after op).version = v.version := congrArg SuperBlock.version hsuper
    obtain ⟨rs, ls, hstep, henc, hrows⟩ :=
      h.step hop (hdata op mem_cons_self) (hs op mem_cons_self)
    obtain ⟨rs', ls', hrun, hsuper', henc', hrows'⟩ := ih hstep hops
      (fun op' hop' => hdata op' (.tail _ hop')) fun op' hop' => hversion ▸ hs op' (.tail _ hop')
    rw [append_assoc] at hrun hrows'
    rw [append_assoc] at hrun
    refine ⟨rs ++ rs', ls ++ ls', hrun, hsuper'.trans hsuper, ?_, ?_⟩
    · exact forall_mem_append.2 ⟨henc, hversion ▸ henc'⟩
    · refine forall_mem_append.2 ⟨fun row hrow => ?_, hrows'⟩
      have := (hrows row hrow).append rs'
      rwa [append_assoc] at this

/-! ## The entries that are brought over -/

/-- `entries` are the last entries of the keys of `rows`. -/
structure LastEntries (rows entries : List IdxEntry) : Prop where
  nodup : entries.Pairwise fun a b => a.1 ≠ b.1
  mem : ∀ key row, (key, row) ∈ entries ↔ lastRow rows key = some row

theorem LastEntries.any (h : LastEntries rows entries)
    (key : NeedleId) : entries.any (·.1 == key) = (lastRow rows key).isSome := by
  rw [Bool.eq_iff_iff, any_eq_true, Option.isSome_iff_exists]
  constructor
  · rintro ⟨⟨key', row⟩, hmem, hkey⟩
    obtain rfl : key' = key := beq_iff_eq.1 hkey
    exact ⟨row, (h.mem _ _).1 hmem⟩
  · rintro ⟨row, hrow⟩
    exact ⟨(key, row), (h.mem _ _).2 hrow, beq_iff_eq.2 rfl⟩

theorem LastEntries.cons (h : LastEntries rows entries) (e : IdxEntry) :
    LastEntries (e :: rows) (if entries.any (·.1 == e.1) then entries else entries ++ [e]) := by
  have hcons : ∀ key, lastRow (e :: rows) key =
      (lastRow rows key).or (if e.1 = key then some e.2 else none) := by
    intro key
    rw [show e :: rows = [e] ++ rows from rfl, lastRow_append_log]
    rfl
  rw [h.any]
  cases hlast : lastRow rows e.1 with
  | some row =>
    refine ⟨h.nodup, fun key row' => ?_⟩
    rw [Option.isSome_some, if_pos rfl, h.mem, hcons]
    by_cases hkey : e.1 = key
    · rw [← hkey, hlast]
      rfl
    · rw [if_neg hkey, Option.or_none]
  | none =>
    rw [Option.isSome_none, if_neg Bool.false_ne_true]
    have hnew : ∀ a ∈ entries, a.1 ≠ e.1 := by
      rintro ⟨key, row⟩ hmem heq
      have := (h.mem key row).1 hmem
      rw [show key = e.1 from heq, hlast] at this
      cases this
    refine ⟨?_, fun key row => ?_⟩
    · rw [pairwise_append]
      exact ⟨h.nodup, pairwise_singleton _ _, fun a ha => forall_mem_singleton.2 (hnew a ha)⟩
    · rw [mem_append, h.mem, mem_singleton, hcons]
      by_cases hkey : e.1 = key
      · rw [← hkey, hlast, if_pos rfl]
        constructor
        · rintro (h0 | h0)
          · cases h0
          · rw [← h0]
            rfl
        · intro h0
          exact .inr (Prod.ext rfl (Option.some.inj h0).symm)
      · rw [if_neg hkey, Option.or_none]
        refine ⟨fun h0 => h0.resolve_right fun h1 => hkey (by rw [← h1]), .inl⟩

/-- **The first loop** finds the last entries of what was logged since, if the index was not empty. -/
theorem updatedEntries_ok {base : List IdxEntry} (hbase : base ≠ []) (tail behind : List IdxEntry)
    (h : LastEntries behind entries) :
    ∃ entries', updatedEntries ((base ++ tail ++ behind).flatMap IdxEntry.bytes) (base.length * 16)
      (base ++ tail).length entries = .ok entries' ∧ LastEntries (tail ++ behind) entries' := by
  induction tail using reverseRecOn generalizing behind entries with
  | nil =>
    refine ⟨entries, ?_, h⟩
    obtain ⟨k, hk⟩ := exists_eq_succ_of_ne_zero (mt length_eq_zero_iff.1 hbase)
    rw [append_nil, hk, succ_eq_add_one, updatedEntries]
    exact if_neg (by rw [needleMapEntrySize_eq]; omega)
  | append_singleton tail e ih =>
    obtain ⟨entries', hloop, hlast⟩ := ih (e :: behind) (h.cons e)
    have hlist : base ++ (tail ++ [e]) ++ behind = base ++ tail ++ e :: behind := by simp
    have hread := readIndexEntryAtOffset_eq (base ++ tail) behind e
    refine ⟨entries', ?_, by rwa [append_assoc]⟩
    rw [hlist, ← append_assoc, length_append, length_singleton, updatedEntries]
    rw [if_pos (by rw [needleMapEntrySize_eq, length_append]; omega), hread]
    show updatedEntries _ _ _ (if entries.any (·.1 == (idxFileEntry e.bytes).1) then _ else _) = _
    rw [IdxEntry.bytes, idxFileEntry_toBytes]
    exact hloop

/-! ## Bringing an entry over -/

theorem alignFile_eq {file : File} (h : List.length file % needlePaddingSize = 0) :
    alignFile file = file := by
  have hpad : (needlePaddingSize - file.length % needlePaddingSize) % needlePaddingSize = 0 := by
    rw [h]
    rfl
  rw [alignFile, hpad, replicate_zero, append_nil]

theorem append_fakeDelNeedle (key : NeedleId) (cookie : Cookie) (appendAtNs : UInt64) (w : File)
    (version : Version) : ∃ (r : Rec) (offset : Nat) (written : Written),
      ({ id := key, cookie := cookie, appendAtNs := appendAtNs } : Needle).append w version =
        .ok (w ++ r.bytes, offset, written) ∧ r.Complete version ∧ r.Encoded version := by
  have hf : ({ id := key, cookie := cookie, appendAtNs := appendAtNs } : Needle).Fits version :=
    fits_emptied { id := key, cookie := cookie, appendAtNs := appendAtNs } version
  obtain ⟨written, hw, hneedle, hrec⟩ := writeNeedleByVersion_eq hf
  refine ⟨⟨_, _, written.bytes⟩, w.length, written, ?_, hrec, rfl, ?_⟩
  · unfold Needle.append
    rw [if_neg (fun h => h.2 rfl), hw]
    exact congrArg (fun f => ok (f, w.length, written)) (File.writeAt_length w written.bytes)
  · exact readable_sizedAs hf (fun hd => absurd rfl hd) fun hd => absurd rfl hd

/-- What is known of a step of the second loop, when its record begins where an offset can point. -/
def BroughtOver (v : Volume) (log : List IdxEntry) (s : SuperBlock) (c c' : Compacted)
    (rows rows' : List IdxEntry) (out' : List Rec) (keys : List NeedleId) : Prop :=
  Copied s c' out' rows' ∧ ∀ key, image s.version c'.dat rows' key =
    if key ∈ keys then image v.version v.dat log key else image s.version c.dat rows key

variable {row : Offset × Size}

theorem Copied.makeupDeletion (h : Copied s c out rows) (hversion : s.version = v.version)
    (hlast : lastRow log key = some row) (hrow : row.2 = tombstoneFileSize) :
    ∃ c' r row', v.makeupEntry clock c (key, row) = .ok c' ∧
      BroughtOver v log s c c' rows (rows ++ [row']) (out ++ [r]) [key] := by
  obtain ⟨offset, size⟩ := row
  obtain rfl : size = tombstoneFileSize := hrow
  obtain ⟨r, _, _, happ, hr, he⟩ := append_fakeDelNeedle key 0x12345678 (clock key) c.dat v.version
  rw [← hversion] at hr he
  have hdead : isLiveRow ((({} : Offset), tombstoneFileSize) : Offset × Size) = false := rfl
  have hgone : liveRow log key = none := by
    rw [liveRow, hlast, Option.filter_some]
    refine if_neg fun hlive => ?_
    have hdeleted := (isLiveRow_iff.1 hlive).2
    cases hdeleted
  obtain ⟨hsnap, himage⟩ := h.toSnapshot.append hr he (key, {}, tombstoneFileSize)
    fun hlive => absurd hlive (by exact Bool.false_ne_true)
  refine ⟨⟨c.dat ++ r.bytes, c.idx ++ toBytes key {} tombstoneFileSize⟩, r,
    (key, {}, tombstoneFileSize), ?_, ⟨hsnap, ?_, ?_⟩, fun key' => ?_⟩
  · unfold makeupEntry
    dsimp only
    rw [if_neg (fun hcond => absurd hcond.2.2 (by decide)), alignFile_eq h.aligned, happ]
    rfl
  · rw [h.idx, flatMap_append]
    exact congrArg _ (append_nil _).symm
  · exact .inr ⟨rows, _, rfl, .inl rfl⟩
  · rw [himage]
    simp only [mem_singleton, hdead, Bool.false_eq_true, if_false]
    by_cases hkey : key' = key
    · subst hkey
      rw [if_pos rfl, if_pos rfl, image_eq_none _ _ hgone]
    · rw [if_neg (Ne.symm hkey), if_neg hkey]

theorem Copied.makeupNeedle (hold : Snapshot v.superBlock v.dat recs log) (h : Copied s c out rows)
    (hversion : s.version = v.version)
    (hlast : lastRow log key = some row) (hlive : isLiveRow row = true) (hne : row.2 ≠ 0) {r : Rec}
    (hat : At recs row.1.toActualOffset r) (hid : r.needle.id = key) (hsize : r.needle.size = row.2) :
    ∃ c' row', v.makeupEntry clock c (key, row) = .ok c' ∧ (c.dat.length < maxPossibleVolumeSize →
        BroughtOver v log s c c' rows (rows ++ [row']) (out ++ [r]) [key]) := by
  obtain ⟨offset, size⟩ := row
  obtain ⟨hz, hd⟩ := isLiveRow_iff.1 hlive
  have hr := hold.complete r hat.mem
  have hblob : readNeedleBlob v.dat offset.toActualOffset size v.version = .ok r.bytes := by
    rw [hold.dst, ← show r.needle.size = size from hsize]
    exact hat.readNeedleBlob hr v.superBlock
  have hvalid : size.isValid = true := by
    have h0 := isDeleted_eq_false_iff.1 hd
    have h1 := mt size_eq_zero_iff.2 hne
    dsimp only at h0 h1
    rw [isValid_iff]
    omega
  refine ⟨⟨c.dat ++ r.bytes, c.idx ++ toBytes key (toOffset c.dat.length) size⟩,
    (key, toOffset c.dat.length, size), ?_, fun hbelow => ?_⟩
  · unfold makeupEntry
    dsimp only
    rw [if_pos ⟨hz, hne, hvalid⟩, alignFile_eq h.aligned, hblob]
    rfl
  · have hpos : 0 < c.dat.length := by
      rw [h.length_dst]
      exact lt_of_lt_of_le (by decide) (le_add_right _ _)
    have hlive' : isLiveRow (toOffset c.dat.length, size) = true :=
      isLiveRow_iff.2 ⟨isZero_toOffset hbelow h.aligned hpos, hd⟩
    have hactual := toActualOffset_toOffset hbelow h.aligned
    have hat' : At (out ++ [r]) (toOffset c.dat.length).toActualOffset r := by
      rw [hactual, h.length_dst]
      exact At.last out r
    have hlog : liveRow log key = some (offset, size) := by
      rw [liveRow, hlast, Option.filter_some, if_pos hlive]
    obtain ⟨hsnap, himage⟩ := h.toSnapshot.append (hversion ▸ hr)
      (hversion ▸ hold.encoded r hat.mem) (key, toOffset c.dat.length, size)
      fun _ => ⟨hat', hid, hsize⟩
    refine ⟨⟨hsnap, ?_, ?_⟩, fun key' => ?_⟩
    · rw [h.idx, flatMap_append]
      exact congrArg _ (append_nil _).symm
    · refine .inr ⟨rows, _, rfl, .inr ⟨out, r, rfl, ?_, ?_⟩⟩
      · rwa [← h.length_dst]
      · rw [← h.length_dst, hid, hsize]
    · rw [himage]
      simp only [mem_singleton, hlive']
      by_cases hkey : key' = key
      · subst hkey
        rw [if_pos rfl, if_pos rfl, hversion]
        exact (hold.image_eq hlog hat hsize).symm
      · rw [if_neg (Ne.symm hkey), if_neg hkey]

/-- **Step** of the second loop. -/
theorem Copied.makeupEntry (hold : Snapshot v.superBlock v.dat recs log) (h : Copied s c out rows)
    (hversion : s.version = v.version) {e : IdxEntry} (hlast : lastRow log e.1 = some e.2)
    (hlogged : LoggedRow recs e) : ∃ c' r row', v.makeupEntry clock c e = .ok c' ∧
      ((isLiveRow e.2 = true → c.dat.length < maxPossibleVolumeSize) →
        BroughtOver v log s c c' rows (rows ++ [row']) (out ++ [r]) [e.1]) := by
  rcases hlogged with hrow | ⟨hlive, hne, r, hat, hid, hsize⟩
  · obtain ⟨c', r, row', hstep, hover⟩ := h.makeupDeletion hversion hlast hrow
    exact ⟨c', r, row', hstep, fun _ => hover⟩
  · obtain ⟨c', row', hstep, hover⟩ := h.makeupNeedle hold hversion hlast hlive hne hat hid hsize
    exact ⟨c', r, row', hstep, fun hbelow => hover (hbelow hlive)⟩

/-- Every needle that is brought over begins where an offset can point. -/
def Volume.BeginsBelow (v : Volume) (clock : NeedleId → UInt64) : Compacted → List UpdatedEntry → Prop
  | _, [] => True
  | c, e :: entries => (isLiveRow e.2 = true → c.dat.length < maxPossibleVolumeSize) ∧
      ∀ c', v.makeupEntry clock c e = .ok c' → v.BeginsBelow clock c' entries

/-- **The second loop** gives the keys of its entries the images of the old files. -/
theorem Copied.makeupEntries (hold : Snapshot v.superBlock v.dat recs log) (h : Copied s c out rows)
    (hversion : s.version = v.version)
    (hentries : ∀ e ∈ entries, lastRow log e.1 = some e.2 ∧ LoggedRow recs e)
    (hbelow : v.BeginsBelow clock c entries) :
    ∃ c' out' rows', entries.foldlM (v.makeupEntry clock) c = .ok c' ∧
      BroughtOver v log s c c' rows (rows ++ rows') out' (entries.map Prod.fst) := by
  induction entries generalizing c out rows with
  | nil =>
    refine ⟨c, out, [], rfl, by rwa [append_nil], fun key => ?_⟩
    rw [append_nil]
    exact (if_neg not_mem_nil).symm
  | cons e entries ih =>
    obtain ⟨hlast, hlogged⟩ := hentries e mem_cons_self
    obtain ⟨c1, r, row, hstep, hover⟩ := h.makeupEntry hold hversion hlast hlogged
    obtain ⟨hcopied, himage⟩ := hover hbelow.1
    obtain ⟨c2, out', rows', hfold, hcopied', himage'⟩ :=
      ih hcopied (fun e' he' => hentries e' (.tail _ he')) (hbelow.2 c1 hstep)
    rw [append_assoc] at hcopied' himage'
    refine ⟨c2, out', [row] ++ rows', ?_, hcopied', fun key => ?_⟩
    · rw [foldlM_cons, hstep]
      exact hfold
    · rw [himage', himage, map_cons]
      simp only [mem_cons, not_mem_nil]
      by_cases hkey : key ∈ entries.map Prod.fst
      · rw [if_pos hkey, if_pos (.inr hkey)]
      · rw [if_neg hkey]
        simp only [hkey]

/-! ## The difference -/

/-- Every needle that the commit brings over begins where an offset can point. -/
def Volume.DiffFits (v : Volume) (cs : Compacting) (order : List UpdatedEntry → List UpdatedEntry)
    (clock : NeedleId → UInt64) : Prop :=
  ∀ entries, updatedEntries v.nm.indexFile cs.lastCompactIndexOffset
    (v.nm.indexFileSize / needleMapEntrySize) [] = .ok entries →
      v.BeginsBelow clock cs.toCompacted (order entries)

theorem fetchCompactRevision_append (s : SuperBlock) (rest : List UInt8) :
    fetchCompactRevisionFromDatFile (s.bytes ++ rest) = .ok s.compactionRevision := by
  rw [fetchCompactRevisionFromDatFile, readSuperBlock_append]

theorem verifyIndexFileIntegrity_ok (log : List IdxEntry) :
    verifyIndexFileIntegrity (log.flatMap IdxEntry.bytes) = .ok (log.length * 16) := by
  rw [verifyIndexFileIntegrity, length_flatMap_bytes]
  exact if_neg (not_not_intro (mul_mod_left _ _))

/-- The files and the map after `makeupDiff`: the keys that were logged since have the images of the old
files. -/
structure MadeUp (v : Volume) (log ls : List IdxEntry) (cs : Compacting) (rows : List IdxEntry)
    (cs' : Compacting) (out' : List Rec) (rows' : List IdxEntry) : Prop where
  copied : Copied v.superBlock.compacted cs'.toCompacted out' rows'
  replays : Replays cs'.tmpNm rows'
  image : ∀ key, image v.version cs'.dat rows' key =
    if (lastRow ls key).isSome then Storage.image v.version v.dat (log ++ ls) key
    else Storage.image v.version cs.dat rows key

/-- **The difference is made up**, if the index was not empty or did not change. -/
theorem Sound.makeupDiff {cs : Compacting} {order : List UpdatedEntry → List UpdatedEntry}
    (h : Sound v recs (log ++ ls)) (henc : ∀ r ∈ recs, r.Encoded v.version)
    (hlogged : ∀ row ∈ ls, LoggedRow recs row)
    (hcopied : Copied v.superBlock.compacted cs.toCompacted out rows) (hreplays : Replays cs.tmpNm rows)
    (hlast : cs.lastCompactIndexOffset = log.length * 16)
    (hrevision : cs.lastCompactRevision = v.superBlock.compactionRevision)
    (horder : ∀ l, (order l).Perm l) (hindex : log ≠ [] ∨ ls = []) (hfit : v.DiffFits cs order clock) :
    ∃ cs' out' rows', v.makeupDiff cs order clock = .ok cs' ∧ MadeUp v log ls cs rows cs' out' rows' := by
  have hfiles : verifyIndexFileIntegrity v.nm.indexFile = .ok ((log ++ ls).length * 16) := by
    rw [h.index, verifyIndexFileIntegrity_ok]
  unfold Volume.makeupDiff
  rw [hfiles]
  by_cases hnone : ls = []
  · subst hnone
    refine ⟨cs, out, rows, if_pos (.inr ?_), hcopied, hreplays, fun key => rfl⟩
    rw [hlast, append_nil]
  · have hlog := hindex.resolve_right hnone
    have hpos := length_pos_of_ne_nil hnone
    -- The index has grown, so that the loops run.
    have hold : fetchCompactRevisionFromDatFile v.dat = .ok v.superBlock.compactionRevision := by
      rw [h.dat, fetchCompactRevision_append]
    have hnew : fetchCompactRevisionFromDatFile cs.dat = .ok (v.superBlock.compactionRevision + 1) := by
      rw [hcopied.dst, fetchCompactRevision_append]
      rfl
    have hstart : LastEntries [] [] := ⟨.nil, fun key row => ⟨nofun, nofun⟩⟩
    obtain ⟨entries, hloop, hentries⟩ := updatedEntries_ok hlog ls [] hstart
    rw [append_nil, ← h.index, ← hlast] at hloop
    rw [append_nil] at hentries
    have hdiv : (log ++ ls).length * 16 / needleMapEntrySize = (log ++ ls).length := by
      exact Nat.mul_div_cancel _ (by decide)
    have hmem : ∀ e, e ∈ order entries ↔ lastRow ls e.1 = some e.2 := fun e =>
      (horder entries).mem_iff.trans (hentries.mem e.1 e.2)
    have hne : entries.length ≠ 0 := by
      obtain ⟨e, he⟩ := exists_mem_of_ne_nil ls hnone
      obtain ⟨row, hrow⟩ := Option.ne_none_iff_exists'.1 (lastRow_ne_none he)
      exact Nat.ne_of_gt (length_pos_of_mem ((hentries.mem _ _).2 hrow))
    have hbelow : v.BeginsBelow clock cs.toCompacted (order entries) := by
      refine hfit entries ?_
      rw [indexFileSize, h.index, length_flatMap_bytes, hdiv, ← h.index]
      exact hloop
    have hrows : ∀ e ∈ order entries, lastRow (log ++ ls) e.1 = some e.2 ∧ LoggedRow recs e := by
      intro e he
      have hrow := (hmem e).1 he
      refine ⟨?_, hlogged e (mem_of_lastRow hrow)⟩
      rw [lastRow_append_log, hrow]
      rfl
    obtain ⟨files, out', rows', hfold, hfiles', himage⟩ :=
      hcopied.makeupEntries (h.snapshot henc) rfl hrows hbelow
    obtain ⟨nm, hload, hnm⟩ := hreplays.doOffsetLoading files.idx (cs.idx.length / needleMapEntrySize)
    have hdrop : rowsOf (files.idx.drop (cs.idx.length / needleMapEntrySize * 16)) = rows' := by
      rw [hfiles'.idx, hcopied.idx, needleMapEntrySize_eq, length_flatMap_bytes,
        Nat.mul_div_cancel _ (by decide), flatMap_append, ← length_flatMap_bytes,
        drop_left, rowsOf_flatMap]
    rw [hdrop] at hnm
    refine ⟨{ cs with toCompacted := files, tmpNm := nm }, out', rows ++ rows', ?_, hfiles', hnm, ?_⟩
    · have hgrown : ¬ ((log ++ ls).length * 16 = 0 ∨
          (log ++ ls).length * 16 ≤ cs.lastCompactIndexOffset) := by
        rw [hlast, length_append]
        omega
      simp only [Except.mapError, bind, Except.bind]
      rw [if_neg hgrown, hold, hdiv, hloop, hnew]
      dsimp only
      rw [if_neg (not_not_intro hrevision.symm), if_neg hne, if_neg (not_not_intro rfl), hfold]
      dsimp only
      rw [hload]
      rfl
    · intro key
      refine (himage key).trans (if_congr ?_ rfl rfl)
      rw [Option.isSome_iff_exists, mem_map]
      constructor
      · rintro ⟨e, he, rfl⟩
        exact ⟨e.2, (hmem e).1 he⟩
      · rintro ⟨row, hrow⟩
        exact ⟨(key, row), (hmem (key, row)).2 hrow, rfl⟩

/-! ## The result -/

/-- The key is read alike: with the same result, or not at all. -/
def ReadsAlike (v v' : Volume) (key : NeedleId) (now : UInt64) : Prop :=
  v.readNeedle { id := key } false now = v'.readNeedle { id := key } false now ∨
    Gone (v.readNeedle { id := key } false now) ∧ Gone (v'.readNeedle { id := key } false now)

/-- The compaction of `v` at `t` leaves out what `v'` still names: a needle expired by its rule and not written
since, or one without data that the index does not name any more. -/
def LeftOut (v v' : Volume) (t : UInt64) (key : NeedleId) : Prop :=
  (∃ nv, v'.get key = .ok (some nv) ∧ nv.size.isDeleted = false ∧
    lastRow (rowsOf v'.nm.indexFile) key ≠ some (nv.offset, nv.size)) ∨
  lastRow (rowsOf (v'.nm.indexFile.drop v.nm.indexFileSize)) key = none ∧
    ∃ nv n, v.get key = .ok (some nv) ∧ nv.size.isDeleted = false ∧
      lastRow (rowsOf v.nm.indexFile) key = some (nv.offset, nv.size) ∧
      v.readEntry nv nv.size = .ok n ∧ n.isVacuumed v.superBlock.ttl t = true

theorem Copied.load (h : Copied s c out rows) {tmpNm : NeedleMapper} (hreplays : Replays tmpNm rows)
    (modified : UInt64) :
    ∃ v, loadCompacted c tmpNm modified = .ok v ∧ v.superBlock = s ∧ v.dat = c.dat ∧
      Replays v.nm rows := by
  obtain ⟨stamp, hcheck⟩ := checkVolumeDataIntegrity_ok s h.complete h.encoded h.ends
  rw [← h.dst, ← h.idx] at hcheck
  have hsuper : readSuperBlock c.dat = some s := by rw [h.dst, readSuperBlock_append]
  refine ⟨⟨s, c.dat, tmpNm.updateNeedleMap c.idx, stamp, modified⟩, ?_, rfl, rfl,
    hreplays.updateNeedleMap c.idx⟩
  unfold loadCompacted
  rw [hsuper]
  dsimp only
  rw [hcheck]
  rfl

theorem image_of_notLogged (h : Snapshot v.superBlock v.dat recs log)
    (h' : Snapshot v'.superBlock v'.dat (recs ++ rs) (log ++ ls))
    (hsuper : v'.superBlock = v.superBlock) (hnone : lastRow ls key = none) :
    image v'.version v'.dat (log ++ ls) key = image v.version v.dat log key := by
  have hrow : liveRow (log ++ ls) key = liveRow log key := by
    rw [liveRow, lastRow_append_log, hnone, Option.none_or, liveRow]
  cases hlive : liveRow log key with
  | none => rw [image_eq_none _ _ hlive, image_eq_none _ _ (hrow.trans hlive)]
  | some e =>
    obtain ⟨r, hat, -, hsize⟩ := h.named key e hlive
    have himage := h.image_eq hlive hat hsize
    have himage' := h'.image_eq (hrow.trans hlive) (hat.append rs) hsize
    rw [hsuper] at himage'
    rw [version, version, hsuper]
    exact himage'.trans himage.symm

/-- The key is read as the image that the files have of it. -/
def Volume.ReadsAs (v : Volume) (key : NeedleId) (now : UInt64) (o : Option Needle) : Prop :=
  o.elim (Gone (v.readNeedle { id := key } false now))
    fun n => v.readNeedle { id := key } false now = readImage key n now

theorem readsAs_image (hinv : v.nm.Inv) (hsnap : Snapshot v.superBlock v.dat recs log)
    (hlive : liveEntry v.nm.entry key = liveRow log key) (now : UInt64) :
    v.ReadsAs key now (image v.version v.dat log key) := by
  cases himage : image v.version v.dat log key with
  | some n => exact readNeedle_image hinv hsnap hlive himage now
  | none =>
    refine readNeedle_gone hinv ?_ now
    cases hrow : liveRow log key with
    | none => rw [hlive, hrow]
    | some e =>
      obtain ⟨r, hat, -, hsize⟩ := hsnap.named key e hrow
      cases himage.symm.trans (hsnap.image_eq hrow hat hsize)

section

variable (h : Sound v recs log)
include h

theorem Sound.image_iff (henc : ∀ r ∈ recs, r.Encoded v.version) (n : Needle) :
    image v.version v.dat log key = some n ↔ ∃ nv, v.get key = .ok (some nv) ∧
      nv.size.isDeleted = false ∧ lastRow log key = some (nv.offset, nv.size) ∧
      v.readEntry nv nv.size = .ok n := by
  have hsnap := h.snapshot henc
  constructor
  · intro himage
    obtain ⟨e, r, hrow, hat, -, hsize, rfl⟩ := hsnap.of_image himage
    obtain ⟨he, hlive⟩ := h.liveRow_entry hrow
    exact ⟨⟨key, e.1, e.2⟩, h.get_some he, (isLiveRow_iff.1 hlive).2,
      (Option.filter_eq_some_iff.1 hrow).1, h.readEntry hat (henc r hat.mem) hsize key⟩
  · rintro ⟨⟨key', offset, size⟩, hget, hlive, hlast, hread⟩
    have he := h.rows key _ hlast hlive
    obtain ⟨r, hat, -, hsize, hread'⟩ := h.readEntry_live henc he hlive
    have hrow : liveRow log key = some (offset, size) := by
      rw [liveRow, hlast, Option.filter_some, if_pos]
      exact isLiveRow_iff.2 ⟨(h.entries key _ he).1, hlive⟩
    rw [ok.inj (hread.symm.trans hread')]
    exact hsnap.image_eq hrow hat hsize

theorem Sound.readNeedle_unnamed {nv : NeedleValue}
    (hget : v.get key = .ok (some nv)) (hlive : nv.size.isDeleted = false)
    (hlast : lastRow log key ≠ some (nv.offset, nv.size)) (now : UInt64) :
    liveRow log key = none ∧ v.readNeedle { id := key } false now = .ok ({ id := key }, 0) := by
  rw [h.get] at hget
  obtain ⟨e, he, rfl⟩ := Option.map_eq_some_iff.1 (ok.inj hget)
  have hzero := (h.live key e he hlive).resolve_left hlast
  constructor
  · refine Option.eq_none_iff_forall_ne_some.2 fun e' hrow => hlast ?_
    have he' := (h.liveRow_entry hrow).1
    rw [← Option.some.inj (he'.symm.trans he)]
    exact (Option.filter_eq_some_iff.1 hrow).1
  · unfold readNeedle
    rw [h.get_some he]
    simp only [bind, Except.bind]
    rw [if_neg (by rw [(h.entries key e he).1]; exact Bool.false_ne_true), readSizeOf,
      if_neg (by rw [hlive]; exact Bool.false_ne_true), hzero.2]
    rfl

theorem Sound.liveEntry_eq (hnamed : ∀ nv, v.get key = .ok (some nv) → nv.size.isDeleted = false →
      lastRow log key = some (nv.offset, nv.size)) : liveEntry v.nm.entry key = liveRow log key := by
  refine Option.ext fun e => ⟨fun hentry => ?_, fun hrow => ?_⟩
  · obtain ⟨he, hlive⟩ := Option.filter_eq_some_iff.1 hentry
    have hlast := hnamed _ (h.get_some he) (isLiveRow_iff.1 hlive).2
    exact Option.filter_eq_some_iff.2 ⟨hlast, hlive⟩
  · exact Option.filter_eq_some_iff.2 (h.liveRow_entry hrow)

/-- Reads of a volume `v₂` whose images are those of `v'`, except for what the vacuum of `v` left out. -/
theorem readsAlike_iff (henc : ∀ r ∈ recs, r.Encoded v.version)
    (h' : Sound v' (recs ++ rs) (log ++ ls)) (henc' : ∀ r ∈ recs ++ rs, r.Encoded v'.version)
    (hsuper : v'.superBlock = v.superBlock) {v2 : Volume}
    (hsnap2 : Snapshot v2.superBlock v2.dat out rows) (hreplays : Replays v2.nm rows) {t : UInt64}
    (himage : image v2.version v2.dat rows key =
      if (lastRow ls key).isSome then image v'.version v'.dat (log ++ ls) key
      else (image v.version v.dat log key).filter fun n => !n.isVacuumed v.superBlock.ttl t)
    (now : UInt64) : ReadsAlike v' v2 key now ↔
      (LeftOut v v' t key → Gone (v'.readNeedle { id := key } false now)) := by
  have hrows : rowsOf v.nm.indexFile = log := by rw [h.index, rowsOf_flatMap]
  have hrows' : rowsOf v'.nm.indexFile = log ++ ls := by rw [h'.index, rowsOf_flatMap]
  have hsince : rowsOf (v'.nm.indexFile.drop v.nm.indexFileSize) = ls := by
    rw [indexFileSize, h.index, h'.index, flatMap_append, drop_left, rowsOf_flatMap]
  have hread2 := readsAs_image hreplays.inv hsnap2 (hreplays.live key) now
  have hnotLogged : lastRow ls key = none →
      image v'.version v'.dat (log ++ ls) key = image v.version v.dat log key :=
    image_of_notLogged (h.snapshot henc) (h'.snapshot henc') hsuper
  unfold LeftOut
  rw [hrows, hrows', hsince]
  by_cases hunnamed : ∃ nv, v'.get key = .ok (some nv) ∧ nv.size.isDeleted = false ∧
      lastRow (log ++ ls) key ≠ some (nv.offset, nv.size)
  -- A needle without data that the index does not name is still read, and is not in the new files.
  · obtain ⟨nv, hget, hlive, hlast⟩ := hunnamed
    obtain ⟨hrow, hread⟩ := h'.readNeedle_unnamed hget hlive hlast now
    have hnone' := image_eq_none v'.version v'.dat hrow
    have hnone : image v2.version v2.dat rows key = none := by
      rw [himage]
      cases hls : lastRow ls key with
      | some row => exact hnone'
      | none =>
        rw [← hnotLogged hls, hnone']
        rfl
    have hnotGone : ¬ Gone (v'.readNeedle { id := key } false now) := by
      rw [hread]
      rintro (hgone | hgone) <;> cases hgone
    refine iff_of_false ?_ fun himp => hnotGone (himp (.inl ⟨nv, hget, hlive, hlast⟩))
    rintro (heq | ⟨hgone, -⟩)
    · rw [hnone, ReadsAs, ← heq] at hread2
      exact hnotGone hread2
    · exact hnotGone hgone
  · have hread' := readsAs_image h'.nm (h'.snapshot henc') (h'.liveEntry_eq fun nv hget hlive => by
      by_contra hlast
      exact hunnamed ⟨nv, hget, hlive, hlast⟩) now
    rw [or_iff_right hunnamed]
    have hvacuumed : (∃ nv n, v.get key = .ok (some nv) ∧ nv.size.isDeleted = false ∧
        lastRow log key = some (nv.offset, nv.size) ∧ v.readEntry nv nv.size = .ok n ∧
        n.isVacuumed v.superBlock.ttl t = true) ↔
        ∃ n, image v.version v.dat log key = some n ∧ n.isVacuumed v.superBlock.ttl t = true := by
      simp only [h.image_iff henc, ← exists_and_right, and_assoc]
      exact exists_comm
    rw [hvacuumed]
    by_cases hleft : lastRow ls key = none ∧
        ∃ n, image v.version v.dat log key = some n ∧ n.isVacuumed v.superBlock.ttl t = true
    -- The vacuum took the needle as expired.
    · obtain ⟨hls, n, hn, hvac⟩ := hleft
      have hgone : Gone (v2.readNeedle { id := key } false now) := by
        simpa [himage, hls, hn, hvac, ReadsAs, Option.filter] using hread2
      constructor
      · rintro (heq | ⟨hgone', -⟩) -
        · exact heq ▸ hgone
        · exact hgone'
      · exact fun himp => .inr ⟨himp ⟨hls, n, hn, hvac⟩, hgone⟩
    -- Both volumes have the same image.
    · refine iff_of_true ?_ fun h0 => absurd h0 hleft
      have hsame : image v2.version v2.dat rows key = image v'.version v'.dat (log ++ ls) key := by
        rw [himage]
        cases hls : lastRow ls key with
        | some row => rfl
        | none =>
          have hkept : ∀ n, image v.version v.dat log key = some n →
              n.isVacuumed v.superBlock.ttl t = false := by simpa [hls] using hleft
          rw [hnotLogged hls]
          cases hn : image v.version v.dat log key with
          | none => rfl
          | some n => simp [hkept n hn]
      rw [hsame] at hread2
      cases hn : image v'.version v'.dat (log ++ ls) key with
      | none =>
        rw [hn] at hread' hread2
        exact .inr ⟨hread', hread2⟩
      | some n =>
        rw [hn] at hread' hread2
        exact .inl (hread'.trans hread2.symm)

end

/-- **What a commit keeps** of operations that run while a volume is compacted. If the index was not empty then, or
nothing is logged, and the records begin where an offset can point, every key is read as before the commit, unless the
vacuum left it out. -/
theorem commit_reads {v : Volume} (h : Stored v) {t : UInt64} {cs : Compacting}
    (hcs : v.compact2 t = .ok cs) {ops : List VolumeOp} (hok : RunOk v ops)
    (hdata : ∀ op ∈ ops, op.HasData) (hs : ∀ op ∈ ops, op.Storable v.version)
    (hindex : v.nm.indexFileSize ≠ 0 ∨ (v.run ops).nm.indexFileSize = 0)
    {order : List UpdatedEntry → List UpdatedEntry} (horder : ∀ l, (order l).Perm l)
    {clock : NeedleId → UInt64}
    (hcopy : (∃ key nv, v.get key = .ok (some nv) ∧ nv.size = 0) →
      List.length cs.dat ≤ maxPossibleVolumeSize)
    (hdiff : (v.run ops).DiffFits cs order clock) (modified : UInt64) :
    ∃ v₂, (v.run ops).commitCompact cs order clock modified = .ok v₂ ∧ ∀ key now,
      ReadsAlike (v.run ops) v₂ key now ↔
        (LeftOut v (v.run ops) t key → Gone ((v.run ops).readNeedle { id := key } false now)) := by
  obtain ⟨recs, log, h, henc⟩ := h
  obtain ⟨rs, ls, hrun, hsuper, henc', hlogged⟩ := h.run hok hdata hs
  obtain ⟨c, hc, hcs⟩ := bind_eq_ok.1 hcs
  obtain ⟨tmpNm, hload, hcs⟩ := bind_eq_ok.1 hcs
  cases hcs
  generalize v.run ops = v' at *
  have hversion : v'.version = v.version := congrArg SuperBlock.version hsuper
  have henc₂ : ∀ r ∈ recs ++ rs, r.Encoded v'.version := by
    rw [hversion]
    exact forall_mem_append.2 ⟨henc, henc'⟩
  obtain ⟨out, rows, hcopied, himage⟩ := h.copied henc hc fun ⟨key, e, he, hz⟩ =>
    hcopy ⟨key, ⟨key, e.1, e.2⟩, h.get_some he, hz⟩
  have hreplays : Replays tmpNm rows := by
    obtain ⟨nm, hnm, hreplays⟩ := (replays_newTmpNm v.nm.kind).doOffsetLoading c.idx 0
    rw [zero_mul, drop_zero, nil_append, hcopied.idx, rowsOf_flatMap] at hreplays
    rwa [ok.inj ((mapError_eq_ok.1 hload).symm.trans hnm)]
  have hlog : log ≠ [] ∨ ls = [] := by
    rw [indexFileSize, indexFileSize, h.index, hrun.index,
      length_flatMap_bytes, length_flatMap_bytes, length_append] at hindex
    by_cases hls : ls = []
    · exact .inr hls
    · have := length_pos_of_ne_nil hls
      exact .inl (ne_nil_of_length_pos (by omega))
  obtain ⟨cs', out', rows', hmake, hmade⟩ := hrun.makeupDiff henc₂ hlogged (hsuper ▸ hcopied) hreplays
    (by rw [indexFileSize, h.index, length_flatMap_bytes]) (by rw [hsuper]) horder hlog hdiff
  obtain ⟨v₂, hv₂, hsuper₂, hdat₂, hreplays₂⟩ := hmade.copied.load hmade.replays modified
  refine ⟨v₂, ?_, fun key now => ?_⟩
  · rw [commitCompact, hmake]
    exact hv₂
  · have hsnap₂ : Snapshot v₂.superBlock v₂.dat out' rows' := by
      rw [hsuper₂, hdat₂]
      exact hmade.copied.toSnapshot
    have hversion₂ : v₂.version = v'.version := by
      rw [version, hsuper₂]
      rfl
    refine readsAlike_iff h henc hrun henc₂ hsuper hsnap₂ hreplays₂ ?_ now
    rw [hversion₂, hdat₂, hmade.image, hversion, himage]

/-- A needle is written before the compaction and one after it. -/
def writtenBefore : VolumeOp := .write shortNeedle true 100000000000

@[inherit_doc writtenBefore]
def writtenSince : VolumeOp := .write (plainNeedle 2 5 [7]) true 100000000001

theorem commit_reads_written :
    ∃ v cs, v = freshVolume.run [writtenBefore] ∧ v.compact2 99 = .ok cs ∧
      ∃ v₂, (v.run [writtenSince]).commitCompact cs id (fun _ => 0) 0 = .ok v₂ ∧
        ∀ key now, ReadsAlike (v.run [writtenSince]) v₂ key now := by
  have hok : RunOk freshVolume [writtenBefore] := ⟨runOk_shortOps.1, trivial⟩
  have hstored : Stored (freshVolume.run [writtenBefore]) :=
    stored_run hok fun op hop => storable_shortOps op (mem_of_mem_take (i := 1) hop)
  have hsize : ((freshVolume.run [writtenBefore]).compact2
      99).toOption.map (fun cs => (cs.dat.length, (updatedEntries
        ((freshVolume.run [writtenBefore]).run [writtenSince]).nm.indexFile
        cs.lastCompactIndexOffset
        (((freshVolume.run [writtenBefore]).run
          [writtenSince]).nm.indexFileSize / needleMapEntrySize) []).toOption.map length)) =
      some (56, some 1) := by
    decide +kernel
  obtain ⟨cs, hcs, hlen⟩ := Option.map_eq_some_iff.1 hsize
  have hcs := toOption_eq_some.1 hcs
  obtain ⟨hdat, hcount⟩ := Prod.ext_iff.1 hlen
  dsimp only at hdat hcount
  have hbelow : cs.dat.length < maxPossibleVolumeSize := by
    rw [hdat]
    decide
  have hrun : RunOk (freshVolume.run [writtenBefore]) [writtenSince] :=
    ⟨runOk_shortOps.2.1, trivial⟩
  have hdiff : Volume.DiffFits ((freshVolume.run [writtenBefore]).run [writtenSince]) cs id fun _ => 0 := by
    intro entries hloop
    rw [hloop] at hcount
    obtain ⟨e, rfl⟩ := length_eq_one_iff.1 (Option.some.inj hcount)
    exact ⟨fun _ => hbelow, fun _ _ => trivial⟩
  obtain ⟨v₂, hcommit, hreads⟩ := commit_reads hstored hcs hrun (forall_mem_singleton.2 (cons_ne_nil _ _))
    (fun op hop => storable_shortOps op (mem_of_mem_drop (i := 1) hop)) (.inl (by decide +kernel))
    (fun l => .refl l) (fun _ => le_of_lt hbelow) hdiff 0
  refine ⟨_, cs, rfl, hcs, v₂, hcommit, fun key now => (hreads key now).2 fun hleft => ?_⟩
  -- the compaction leaves out nothing: every entry is in the index, and none is expired
  rcases hleft with ⟨nv, hget, hlive, hlast⟩ | ⟨-, nv, n, -, -, hlast, hentry, hvacuumed⟩
  · obtain ⟨rs, ls, hinv, -⟩ := (volumeInv_new { version := .v3 } .inMemory).run runOk_shortOps
    exact absurd (hinv.lastRow_of_live (by decide +kernel) hget hlive) hlast
  · have hfresh : ∀ row ∈ rowsOf (freshVolume.run [writtenBefore]).nm.indexFile,
        ∀ n ∈ ((freshVolume.run [writtenBefore]).readEntry ⟨row.1, row.2.1, row.2.2⟩ row.2.2).toOption,
          n.isVacuumed {} 99 = false := by decide +kernel
    have hno := hfresh _ (mem_of_lastRow hlast) n (toOption_eq_some.2 hentry)
    exact absurd (hno.symm.trans hvacuumed) Bool.false_ne_true

/-- The volume was empty when it was compacted. The needle that is written then is lost: the first loop of
`makeupDiff` runs below the first entry, and the old files stay with the map of the new ones. -/
theorem commit_loses :
    ((freshVolume.run [writtenSince]).readNeedle { id := 2 } false
      110000000000).toOption.map (fun res => res.1.data) = some [7] ∧
    ((freshVolume.compact2 99).toOption.map fun cs =>
      ((freshVolume.run [writtenSince]).commitCompact cs id (fun _ => 0)
        0).toOption.map fun v => (v.readNeedle { id := 2 } false 110000000000).toOption.isSome) =
      some (some false) := by
  decide +kernel

end Storage
