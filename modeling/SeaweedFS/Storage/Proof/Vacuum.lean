import SeaweedFS.Storage.Vacuum
import SeaweedFS.Storage.Proof.MemDb
import SeaweedFS.Storage.Proof.NeedleStored
import SeaweedFS.Storage.Proof.VolumeScan

/-!
# What a vacuum keeps

`Copies c out` says what a copy holds: records that store what was read, and for each key the entry of its last
record. Both ways of compacting add the needles they select (`foldlM_copies`); `vacuum_keeps` compares these with what
can still be read.
-/

namespace Storage

open Lib Util List Except MemDb Option SortedMap

/-! ## The entries of records -/

/-- The entries of the records of a file. -/
def entriesOf (out : List Rec) : List IdxEntry :=
  (placed superBlockSize out).map fun p => (p.2.needle.id, toOffset p.1, p.2.needle.size)

theorem entriesOf_append (out : List Rec) (r : Rec) : entriesOf (out ++ [r]) = entriesOf out ++
    [(r.needle.id, toOffset (superBlockSize + (bytesOf out).length), r.needle.size)] := by
  rw [entriesOf, placed_append, map_append]
  rfl

variable {e : Offset × Size} {key : NeedleId} {out : List Rec}

theorem lastRow_entriesOf (h : lastRow (entriesOf out) key = some e) :
    ∃ off r, At out off r ∧ r.needle.id = key ∧ e = (toOffset off, r.needle.size) := by
  induction out using List.reverseRecOn with
  | nil => cases h
  | append_singleton out r ih =>
    rw [entriesOf_append, lastRow_append] at h
    split at h
    · rename_i hk
      cases h
      exact ⟨_, r, At.last out r, hk, rfl⟩
    · obtain ⟨off, r', hat, hid, he⟩ := ih h
      exact ⟨off, r', hat.append [r], hid, he⟩

theorem lastRow_entriesOf_none
    (h : lastRow (entriesOf out) key = none) : ∀ r ∈ out, r.needle.id ≠ key := by
  induction out using List.reverseRecOn with
  | nil => simp
  | append_singleton out r ih =>
    rw [entriesOf_append, lastRow_append] at h
    split at h
    · cases h
    · rename_i hk
      exact forall_mem_append.2 ⟨ih h, forall_mem_singleton.2 hk⟩

/-! ## Appending what was read -/

variable {version : Version} {n : Needle} {bytes : List UInt8}

theorem data_stored_iff (h : IsRecord version n (n.body version) bytes) (hr : n.Readable version) :
    (n.stored version).data = [] ↔ n.size = 0 := by
  rw [size_eq_zero_iff, ← h.2.1]
  by_cases hv : version = .v1
  · subst hv
    show n.data = [] ↔ (n.data.length : Int) = 0
    rw [← length_eq_zero_iff]
    omega
  · by_cases hp : n.dataSize > 0
    · have hne := (hr.sized hv).data_ne_nil hp
      have hpos : 0 < (n.body version).length := by
        cases version with
        | v1 => exact absurd rfl hv
        | v2 | v3 =>
          unfold Needle.body
          simp only [if_pos hp, length_append, length_uint32toBytes]
          omega
      rw [(stored_fields hv hp).2.1]
      exact iff_of_false hne (by omega)
    · have hbody : n.body version = [] := by
        cases version with
        | v1 => exact absurd rfl hv
        | v2 | v3 => exact if_neg hp
      rw [stored_of_zero hv hp, takeTail_data, hbody]
      exact iff_of_true rfl rfl

theorem append_stored (h : IsRecord version n (n.body version) bytes) (hr : n.Readable version)
    {w w' : File} {offset : Nat} {written : Written}
    (happ : (n.stored version).append w version = .ok (w', offset, written)) :
    ∃ r : Rec, r.needle = n.stored version ∧ written.needle = r.needle ∧ w' = w ++ r.bytes ∧
      r.Complete version ∧ r.Encoded version ∧
      (n.size ≠ 0 → List.length w < maxPossibleVolumeSize) := by
  obtain ⟨w0, hw0, hneedle, hrec⟩ := writeNeedleByVersion_eq (fits_stored h hr)
  rw [sizedAs_stored h hr] at hneedle hrec
  unfold Needle.append at happ
  by_cases hcheck : List.length w ≥ maxPossibleVolumeSize ∧ (n.stored version).data.length ≠ 0
  · rw [if_pos hcheck] at happ
    cases happ
  · rw [if_neg hcheck, hw0] at happ
    cases happ
    refine ⟨⟨n.stored version, (n.stored version).body version, written.bytes⟩, rfl, hneedle,
      File.writeAt_length w written.bytes, hrec, ⟨rfl, readable_stored hr⟩, fun hsize => ?_⟩
    by_contra hge
    refine hcheck ⟨Nat.le_of_not_lt hge, fun h0 => hsize ?_⟩
    exact (data_stored_iff h hr).1 (List.length_eq_zero_iff.1 h0)

/-! ## Copies -/

/-- What a copy holds: the records `out`, and the entries of the last ones of their keys. -/
structure Copies (c : Compaction) (s : SuperBlock) (out : List Rec) : Prop where
  dst : c.dst = s.compacted.bytes ++ bytesOf out
  newOffset : c.newOffset = c.dst.length
  complete : ∀ r ∈ out, r.Complete s.version
  encoded : ∀ r ∈ out, r.Encoded s.version
  restored : ∀ r ∈ out, r.needle.stored s.version = r.needle
  below : ∀ off r, At out off r → r.needle.size ≠ 0 → off < maxPossibleVolumeSize
  nm : ∀ key, c.nm.get key = lastRow (entriesOf out) key

theorem copies_start (s : SuperBlock) : Copies (startCompaction s) s [] where
  dst := by
    exact File.writeAt_length [] s.compacted.bytes
  newOffset := rfl
  complete := by simp
  encoded := by simp
  restored := by simp
  below := by
    rintro off r ⟨pre, post, h, -⟩
    simp at h
  nm := fun _ => rfl

variable {off : Nat}

variable {c c' : Compaction} {s : SuperBlock}

theorem Copies.length_dst (h : Copies c s out) :
    List.length c.dst = superBlockSize + (bytesOf out).length := by
  rw [h.dst, length_append, length_superBlock_bytes]

theorem At.append_cases {recs : List Rec} {r r' : Rec} (h : At (recs ++ [r]) off r') :
    At recs off r' ∨ r' = r ∧ off = superBlockSize + (bytesOf recs).length := by
  obtain ⟨pre, post, heq, hoff⟩ := h
  rcases eq_nil_or_concat post with rfl | ⟨post, r2, rfl⟩
  · rw [append_nil] at heq
    obtain ⟨rfl, hr⟩ := append_inj' heq rfl
    exact .inr ⟨(List.singleton_inj.1 hr).symm, hoff⟩
  · rw [concat_eq_append, ← append_assoc] at heq
    exact .inl ⟨pre, post, (append_inj' heq rfl).1, hoff⟩

/-- **A needle that is saved** is in the copy. -/
theorem Copies.save (h : Copies c s out)
    (hrec : IsRecord s.version n (n.body s.version) bytes) (hr : n.Readable s.version)
    (hsave : c.save (n.stored s.version) s.version = .ok c') :
    ∃ r, Copies c' s (out ++ [r]) ∧ r.needle = n.stored s.version := by
  obtain ⟨⟨dst, offset, written⟩, happ, hc'⟩ := bind_eq_ok.1 hsave
  cases hc'
  obtain ⟨r, hneedle, hwritten, rfl, hcomplete, hencoded, hbelow⟩ :=
    append_stored hrec hr (mapError_eq_ok.1 happ)
  have hsize : r.needle.size = n.size := hneedle ▸ (stored_header n s.version).2.2
  refine ⟨r, ⟨?_, ?_, ?_, ?_, ?_, ?_, ?_⟩, hneedle⟩
  · rw [h.dst, bytesOf_append, bytesOf_singleton, append_assoc]
  · rw [h.newOffset, hwritten, Needle.diskSize, ← IsRecord.length_eq hcomplete, length_append]
    rfl
  · exact forall_mem_append.2 ⟨h.complete, forall_mem_singleton.2 hcomplete⟩
  · exact forall_mem_append.2 ⟨h.encoded, forall_mem_singleton.2 hencoded⟩
  · refine forall_mem_append.2 ⟨h.restored, forall_mem_singleton.2 ?_⟩
    rw [hneedle]
    exact load_stored {} n s.version
  · intro off r' hat hne
    rcases hat.append_cases with hat | ⟨rfl, rfl⟩
    · exact h.below off r' hat hne
    · rw [← h.length_dst]
      exact hbelow (hsize ▸ hne)
  · intro key
    rw [entriesOf_append, lastRow_append]
    rw [MemDb.set, SortedMap.get_insert, h.nm, h.newOffset, Int.toNat_natCast, h.length_dst, hneedle]

theorem foldlM_copies {α : Type} {step : Compaction → α → Except VolumeError Compaction}
    (sel : α → List Needle) {as : List α}
    (hstep : ∀ a ∈ as, ∀ c c' out, Copies c s out → step c a = .ok c' →
      ∃ out', Copies c' s out' ∧ out'.map Rec.needle = out.map Rec.needle ++ sel a)
    (h : Copies c s out) (hfold : as.foldlM step c = .ok c') :
    ∃ out', Copies c' s out' ∧ out'.map Rec.needle = out.map Rec.needle ++ as.flatMap sel := by
  induction as generalizing c out with
  | nil =>
    cases hfold
    exact ⟨out, h, (append_nil _).symm⟩
  | cons a as ih =>
    obtain ⟨c1, h1, hfold⟩ := bind_eq_ok.1 hfold
    obtain ⟨out1, hc1, hout1⟩ := hstep a mem_cons_self c c1 out h h1
    obtain ⟨out2, hc2, hout2⟩ := ih (fun a' ha' => hstep a' (mem_cons_of_mem _ ha')) hc1 hfold
    refine ⟨out2, hc2, ?_⟩
    rw [hout2, hout1, flatMap_cons, append_assoc]

/-! ## Kept and dropped -/

/-- The files hold a record of `key` that is read as `n`. -/
def Compacted.Keeps (c : Compacted) (version : Version) (key : NeedleId) (n : Needle) : Prop :=
  ∃ offset size, (key, offset, size) ∈ rowsOf c.idx ∧
    ({} : Needle).readData c.dat offset.toActualOffset size version = .ok n

/-- The index has no entry of `key`. -/
def Compacted.Drops (c : Compacted) (key : NeedleId) : Prop := ∀ row ∈ rowsOf c.idx, row.1 ≠ key

theorem rowsOf_saved (c : Compaction) : rowsOf (c.nm.liveEntries.flatMap IdxEntry.bytes) =
    c.nm.liveEntries := rowsOf_flatMap _

/-- A needle of the copy is kept, if all of its key are the same. One without data is saved wherever
the file ends, so that its offset may not fit. -/
theorem Copies.keeps (h : Copies c s out) (hmem : n ∈ out.map Rec.needle) (hid : n.id = key)
    (huniq : ∀ m ∈ out.map Rec.needle, m.id = key → m = n)
    (hfit : n.size = 0 → List.length c.dst ≤ maxPossibleVolumeSize) :
    Compacted.Keeps ⟨c.dst, c.nm.liveEntries.flatMap IdxEntry.bytes⟩ s.version key n := by
  obtain ⟨r0, hr0, hn⟩ := List.mem_map.1 hmem
  cases hrow : lastRow (entriesOf out) key with
  | none => exact absurd (hn ▸ hid) (lastRow_entriesOf_none hrow r0 hr0)
  | some e =>
    obtain ⟨off, r, hat, hrid, rfl⟩ := lastRow_entriesOf hrow
    obtain rfl : r.needle = n := huniq _ (mem_map_of_mem hat.mem) hrid
    have hcomplete := h.complete r hat.mem
    have hpos : 0 < r.bytes.length := IsRecord.length_pos hcomplete
    have hend := hat.end_le
    have hlen := h.length_dst
    have hbelow : off < maxPossibleVolumeSize := by
      by_cases hz : r.needle.size = 0
      · have := hfit hz
        omega
      · exact h.below off r hat hz
    have haligned := hat.aligned h.complete
    have hzero : (toOffset off).isZero = false :=
      isZero_toOffset hbelow haligned (Nat.lt_of_lt_of_le (by decide) hat.superBlockSize_le)
    have hlive : isLiveRow (toOffset off, r.needle.size) = true :=
      isLiveRow_iff.2 ⟨hzero, isDeleted_eq_false_iff.2 hcomplete.1.1⟩
    refine ⟨toOffset off, r.needle.size, ?_, ?_⟩
    · rw [rowsOf_saved, mem_liveEntries]
      exact ⟨(h.nm key).trans hrow, hlive⟩
    · have hread := hat.readData hcomplete (h.encoded r hat.mem) s.compacted (m := {}) rfl
      rw [toActualOffset_toOffset hbelow haligned, h.dst, hread]
      exact congrArg _ (h.restored r hat.mem)

theorem Copies.drops (h : Copies c s out) (hnone : ∀ m ∈ out.map Rec.needle, m.id ≠ key) :
    Compacted.Drops ⟨c.dst, c.nm.liveEntries.flatMap IdxEntry.bytes⟩ key := by
  rintro ⟨key', e⟩ hrow rfl
  rw [rowsOf_saved, mem_liveEntries, h.nm] at hrow
  obtain ⟨off, r, hat, hid, -⟩ := lastRow_entriesOf hrow.1
  exact hnone _ (mem_map_of_mem hat.mem) hid

/-! ## What is selected -/

variable {r : Rec}

theorem mem_placed {recs : List Rec} : (off, r) ∈ placed superBlockSize recs ↔ At recs off r := by
  induction recs using List.reverseRecOn with
  | nil =>
    refine iff_of_false not_mem_nil ?_
    rintro ⟨pre, post, h, -⟩
    simp at h
  | append_singleton recs r' ih =>
    rw [placed_append, mem_append, ih]
    constructor
    · rintro (hat | hmem)
      · exact hat.append [r']
      · cases List.mem_singleton.1 hmem
        exact At.last recs r
    · intro hat
      rcases hat.append_cases with hat | ⟨rfl, rfl⟩
      · exact .inl hat
      · exact .inr (List.mem_singleton.2 rfl)

variable {v : Volume} {recs : List Rec} {log : List IdxEntry} {now : UInt64} {c : Compacted}

section

variable (h : Sound v recs log)
include h

theorem Sound.size_eq {r' : Rec} (hat : At recs off r)
    (hat' : At recs off r') : r.needle.size = r'.needle.size := by
  have h1 := hat.readNeedleHeader (h.records r hat.mem) v.superBlock
  have h2 := hat'.readNeedleHeader (h.records r' hat'.mem) v.superBlock
  exact congrArg (fun p => Needle.size p.1) (ok.inj (h1.symm.trans h2))

theorem Sound.readEntry
    (hat : At recs e.1.toActualOffset r) (hr : r.Encoded v.version) (hsize : r.needle.size = e.2)
    (key : NeedleId) : v.readEntry ⟨key, e.1, e.2⟩ e.2 = .ok (r.needle.stored v.version) := by
  rw [Volume.readEntry, h.dat, ← hsize]
  exact hat.readData (h.records r hat.mem) hr v.superBlock rfl

theorem Sound.readEntry_live (henc : ∀ r ∈ recs, r.Encoded v.version) (he : v.nm.entry key = some e)
    (hlive : e.2.isDeleted = false) :
    ∃ r, At recs e.1.toActualOffset r ∧ r.needle.id = key ∧ r.needle.size = e.2 ∧
      v.readEntry ⟨key, e.1, e.2⟩ e.2 = .ok (r.needle.stored v.version) := by
  obtain ⟨-, r, hat, hid, hsize⟩ := h.entries key e he
  exact ⟨r, hat, hid, hsize hlive, h.readEntry hat (henc r hat.mem) (hsize hlive) key⟩

theorem Sound.header_of_readEntry (henc : ∀ r ∈ recs, r.Encoded v.version)
    (he : v.nm.entry key = some e) (hlive : e.2.isDeleted = false)
    (hn : v.readEntry ⟨key, e.1, e.2⟩ e.2 = .ok n) : n.id = key ∧ n.size = e.2 := by
  obtain ⟨r, -, hid, hsize, hread⟩ := h.readEntry_live henc he hlive
  obtain rfl : n = r.needle.stored v.version := ok.inj (hn.symm.trans hread)
  obtain ⟨-, hid', hsize'⟩ := stored_header r.needle v.version
  exact ⟨hid'.trans hid, hsize'.trans hsize⟩

end

theorem isCurrent_iff :
    isCurrent ⟨key, e.1, e.2⟩ off = true ↔ e.1.toActualOffset = off ∧ 0 < e.2.toInt := by
  unfold isCurrent
  rw [Bool.and_eq_true, Bool.and_eq_true, beq_iff_eq, decide_eq_true_eq, isValid_iff, and_assoc]
  refine and_congr_right fun _ => and_iff_right_of_imp fun hp => ?_
  exact Int32.lt_iff_toInt_lt.2 hp

/-- The needle that was read, unless the vacuum leaves it out. -/
def selected (ttl : TTL) (now : UInt64) : ReadResult Needle → List Needle
  | .ok n => if n.isVacuumed ttl now then [] else [n]
  | .error _ => []

theorem mem_selected {ttl : TTL} {res : ReadResult Needle} :
    n ∈ selected ttl now res ↔ res = .ok n ∧ n.isVacuumed ttl now = false := by
  cases res with
  | error e => simp [selected]
  | ok m =>
    show n ∈ (if m.isVacuumed ttl now then [] else [m]) ↔ _
    by_cases hm : m.isVacuumed ttl now = true
    · rw [if_pos hm]
      refine iff_of_false not_mem_nil ?_
      rintro ⟨heq, hn⟩
      cases heq
      rw [hm] at hn
      cases hn
    · rw [if_neg hm, mem_singleton]
      constructor
      · rintro rfl
        exact ⟨rfl, Bool.eq_false_iff.2 hm⟩
      · rintro ⟨heq, -⟩
        exact (ok.inj heq).symm

theorem pairwise_selected {R : Needle → Needle → Prop} (ttl : TTL) (res : ReadResult Needle) :
    (selected ttl now res).Pairwise R := by
  unfold selected
  split
  · split
    · exact .nil
    · exact pairwise_singleton _ _
  · exact .nil

variable {cc cc' : Compaction}

theorem Copies.select (h : Copies cc s out) (hr : r.Complete s.version) (he : r.Encoded s.version)
    (hsave : (if (r.needle.stored s.version).isVacuumed s.ttl now then .ok cc
      else cc.save (r.needle.stored s.version) s.version) = .ok cc') :
    ∃ out', Copies cc' s out' ∧ out'.map Rec.needle = out.map Rec.needle ++
      selected s.ttl now (.ok (r.needle.stored s.version)) := by
  unfold selected
  dsimp only
  split at hsave
  · rename_i hv
    cases hsave
    exact ⟨out, h, by rw [if_pos hv, append_nil]⟩
  · rename_i hv
    have hrec : IsRecord s.version r.needle (r.needle.body s.version) r.bytes := he.body ▸ hr
    obtain ⟨r', hc', hneedle⟩ := h.save hrec he.readable hsave
    exact ⟨out ++ [r'], hc', by rw [if_neg hv, map_append, ← hneedle]; rfl⟩

/-- The entry of the record's key names the record, and has data. -/
def Volume.isCurrentRecord (v : Volume) (p : Nat × Rec) : Bool :=
  (v.nm.entry p.2.needle.id).any fun e => isCurrent ⟨p.2.needle.id, e.1, e.2⟩ p.1

section

variable (h : Sound v recs log)
include h

theorem Sound.visit {p : Nat × Rec} (hr : p.2.Complete v.version) (he : p.2.Encoded v.version)
    (hc : Copies cc v.superBlock out)
    (hvisit : (volumeFileScanner4Vacuum v now).visit v.version cc p = .ok cc') :
    ∃ out', Copies cc' v.superBlock out' ∧ out'.map Rec.needle = out.map Rec.needle ++
      if v.isCurrentRecord p then
        selected v.superBlock.ttl now (.ok (p.2.needle.stored v.version))
      else [] := by
  replace hvisit : (if (p.2.needle.stored v.version).isVacuumed v.superBlock.ttl now then .ok cc
      else do
        let nv? ← v.get (p.2.needle.stored v.version).id
        if nv?.any fun nv => isCurrent nv p.1 then cc.save (p.2.needle.stored v.version) v.version
        else return cc) = .ok cc' := mapError_eq_ok.1 hvisit
  rw [(stored_header p.2.needle v.version).2.1, h.get] at hvisit
  have hany : ((v.nm.entry p.2.needle.id).map fun e => (⟨p.2.needle.id, e.1, e.2⟩ : NeedleValue)).any
      (fun nv => isCurrent nv p.1) = v.isCurrentRecord p := Option.any_map ..
  simp only [bind, Except.bind, hany] at hvisit
  cases hcur : v.isCurrentRecord p with
  | true =>
    rw [hcur] at hvisit
    exact hc.select hr he hvisit
  | false =>
    rw [hcur] at hvisit
    refine ⟨out, ?_, (append_nil _).symm⟩
    split at hvisit
    · cases hvisit
      exact hc
    · cases hvisit
      exact hc

section

variable (henc : ∀ r ∈ recs, r.Encoded v.version)
include henc

/-- **Along the `.dat` file**: the needles of the entries with data that are not left out. -/
theorem Sound.compactByVolumeData (hc : v.compactByVolumeData now = .ok c) :
    ∃ cc out, Copies cc v.superBlock out ∧ c = ⟨cc.dst, cc.nm.liveEntries.flatMap IdxEntry.bytes⟩ ∧
      ∀ n, n ∈ out.map Rec.needle ↔ ∃ key e, v.nm.entry key = some e ∧ 0 < e.2.toInt ∧
        v.readEntry ⟨key, e.1, e.2⟩ e.2 = .ok n ∧ n.isVacuumed v.superBlock.ttl now = false := by
  obtain ⟨cc, hscan, hc⟩ := bind_eq_ok.1 hc
  obtain ⟨idx, hsave, hc⟩ := bind_eq_ok.1 hc
  cases hc
  rw [saveToIdx_eq] at hsave
  cases hsave
  rw [h.dat, scan_records _ v.superBlock recs h.records fun _ => henc] at hscan
  obtain ⟨out, hcopies, hout⟩ := foldlM_copies (s := v.superBlock) _ (fun p hp c1 c2 out1 h1 hvisit =>
      h.visit (h.records p.2 (mem_placed.1 hp).mem) (henc p.2 (mem_placed.1 hp).mem) h1 hvisit)
    (copies_start v.superBlock) hscan
  refine ⟨cc, out, hcopies, rfl, fun n => ?_⟩
  rw [hout, map_nil, nil_append, mem_flatMap]
  constructor
  · rintro ⟨⟨off, r⟩, hp, hn⟩
    cases hcur : v.isCurrentRecord (off, r) with
    | false =>
      rw [hcur] at hn
      cases hn
    | true =>
      rw [hcur, if_pos rfl, mem_selected] at hn
      obtain ⟨e, he, hcurrent⟩ := (Option.any_eq_true ..).1 hcur
      obtain ⟨rfl, hpos⟩ := isCurrent_iff.1 hcurrent
      obtain ⟨r', hat', -, hsize, -⟩ :=
        h.readEntry_live henc he (isDeleted_eq_false_iff.2 (by omega))
      have hat := mem_placed.1 hp
      have hsize' : r.needle.size = e.2 := (h.size_eq hat hat').trans hsize
      refine ⟨r.needle.id, e, he, hpos, ?_, hn.2⟩
      rw [h.readEntry hat (henc r hat.mem) hsize']
      exact hn.1
  · rintro ⟨key, e, he, hpos, hread, hn⟩
    obtain ⟨r, hat, rfl, -, hread'⟩ := h.readEntry_live henc he (isDeleted_eq_false_iff.2 (by omega))
    refine ⟨(e.1.toActualOffset, r), mem_placed.2 hat, ?_⟩
    have hcur : v.isCurrentRecord (e.1.toActualOffset, r) = true := by
      rw [Volume.isCurrentRecord, he, any_some, isCurrent_iff]
      exact ⟨rfl, hpos⟩
    rw [hcur, if_pos rfl, mem_selected, ← hread', hread]
    exact ⟨rfl, hn⟩

/-- **Along the index**: the needles of the live entries of the log that are not left out. -/
theorem Sound.compactByIndex (hc : v.compactByIndex now = .ok c) :
    ∃ cc out, Copies cc v.superBlock out ∧ c = ⟨cc.dst, cc.nm.liveEntries.flatMap IdxEntry.bytes⟩ ∧
      (out.map Rec.needle).Pairwise (fun m n => m.id < n.id) ∧
      ∀ n, n ∈ out.map Rec.needle ↔ ∃ key e, liveRow log key = some e ∧
        v.readEntry ⟨key, e.1, e.2⟩ e.2 = .ok n ∧ n.isVacuumed v.superBlock.ttl now = false := by
  obtain ⟨oldNm, hload, hc⟩ := bind_eq_ok.1 hc
  obtain ⟨cc, hvisit, hc⟩ := bind_eq_ok.1 hc
  obtain ⟨-, -, hc⟩ := bind_eq_ok.1 hc
  obtain ⟨idx, hsave, hc⟩ := bind_eq_ok.1 hc
  cases hc
  rw [loadFromIdx_eq, h.index, rowsOf_flatMap] at hload
  cases hload
  rw [saveToIdx_eq] at hsave
  cases hsave
  have hentry : ∀ e ∈ (log.foldl loadRow new).entries, v.nm.entry e.1 = some e.2 ∧
      isLiveRow e.2 = true := by
    rintro ⟨key, e⟩ he
    rw [mem_entries, get_loadRows, liveRow, filter_eq_some_iff] at he
    exact ⟨h.rows key e he.1 (isLiveRow_iff.1 he.2).2, he.2⟩
  obtain ⟨out, hcopies, hout⟩ := foldlM_copies (s := v.superBlock)
    (fun e : IdxEntry => selected v.superBlock.ttl now (v.readEntry ⟨e.1, e.2.1, e.2.2⟩ e.2.2))
    (by
      intro e he c1 c2 out1 h1 hcopy
      obtain ⟨hentry, hlive⟩ := hentry e he
      obtain ⟨r, hat, -, -, hread⟩ :=
        h.readEntry_live henc hentry (isLiveRow_iff.1 hlive).2
      unfold Volume.copyValue at hcopy
      rw [dead_eq_not, hlive, hread] at hcopy
      rw [hread]
      exact h1.select (h.records r hat.mem) (henc r hat.mem) hcopy)
    (copies_start v.superBlock) hvisit
  have hid : ∀ e ∈ (log.foldl loadRow new).entries,
      ∀ n ∈ selected v.superBlock.ttl now (v.readEntry ⟨e.1, e.2.1, e.2.2⟩ e.2.2), n.id = e.1 :=
    fun e he n hn => (h.header_of_readEntry henc (hentry e he).1
      (isLiveRow_iff.1 (hentry e he).2).2 (mem_selected.1 hn).1).1
  rw [map_nil, nil_append] at hout
  refine ⟨cc, out, hcopies, rfl, ?_, fun n => ?_⟩
  -- The map visits its keys in ascending order, and gives at most one needle for each.
  · rw [hout, pairwise_flatMap]
    refine ⟨fun e _ => pairwise_selected _ _, ?_⟩
    refine (sorted _).imp_of_mem fun {a b} ha hb hlt m hm n hn => ?_
    rw [hid a ha m hm, hid b hb n hn]
    exact hlt
  rw [hout, mem_flatMap]
  constructor
  · rintro ⟨⟨key, e⟩, he, hn⟩
    rw [mem_entries, get_loadRows] at he
    exact ⟨key, e, he, mem_selected.1 hn⟩
  · rintro ⟨key, e, he, hn⟩
    refine ⟨(key, e), ?_, mem_selected.2 hn⟩
    rw [mem_entries, get_loadRows, he]

/-! ## The result -/

omit henc in
theorem Sound.of_readNeedle {t : UInt64} {res : Needle × Int}
    (hread : v.readNeedle n false t = .ok res) :
    ∃ e, v.nm.entry n.id = some e ∧ e.2.isDeleted = false := by
  obtain ⟨nv?, hget, hread⟩ := bind_eq_ok.1 hread
  rw [h.get] at hget
  cases he : v.nm.entry n.id with
  | none =>
    rw [he] at hget
    cases hget
    cases hread
  | some e =>
    rw [he] at hget
    cases hget
    refine ⟨e, rfl, ?_⟩
    cases hd : e.2.isDeleted with
    | false => rfl
    | true =>
      dsimp only [map_some] at hread
      split at hread
      · cases hread
      · obtain ⟨size, hsize, -⟩ := bind_eq_ok.1 hread
        rw [Volume.readSizeOf, hd] at hsize
        cases hsize

/-- A volume whose records can be read. -/
def Stored (v : Volume) : Prop :=
  ∃ recs log, Sound v recs log ∧ ∀ r ∈ recs, r.Encoded v.version

/-- `time.Now().Unix()`, of the clock in nanoseconds. -/
def unixSeconds (now : UInt64) : UInt64 := now / 1000000000

theorem Sound.eq_of_id
    {key' : NeedleId} {e' : Offset × Size} {m : Needle} (he : v.nm.entry key = some e)
    (hn : v.readEntry ⟨key, e.1, e.2⟩ e.2 = .ok n) (he' : v.nm.entry key' = some e')
    (hlive' : e'.2.isDeleted = false) (hm : v.readEntry ⟨key', e'.1, e'.2⟩ e'.2 = .ok m)
    (hid : m.id = key) : key' = key ∧ e' = e ∧ m = n := by
  obtain ⟨r, -, hrid, -, hread⟩ := h.readEntry_live henc he' hlive'
  obtain rfl : m = r.needle.stored v.version := ok.inj (hm.symm.trans hread)
  obtain rfl : key' = key := by rw [← hid, (stored_header r.needle v.version).2.1, hrid]
  obtain rfl : e' = e := some.inj (he'.symm.trans he)
  exact ⟨rfl, rfl, ok.inj (hm.symm.trans hn)⟩

end

end

theorem Sound.compactByVolumeData_keeps (h : Sound v recs log)
    (henc : ∀ r ∈ recs, r.Encoded v.version) (he : v.nm.entry key = some e)
    (hlive : e.2.isDeleted = false) (hn : v.readEntry ⟨key, e.1, e.2⟩ e.2 = .ok n)
    (hc : v.compactByVolumeData now = .ok c) :
    if e.2 ≠ 0 ∧ n.isVacuumed v.superBlock.ttl now = false then c.Keeps v.version key n
    else c.Drops key := by
  obtain ⟨hid, hsize⟩ := h.header_of_readEntry henc he hlive hn
  have hpos : e.2 ≠ 0 ↔ 0 < e.2.toInt := by
    have := isDeleted_eq_false_iff.1 hlive
    rw [ne_eq, size_eq_zero_iff]
    omega
  obtain ⟨cc, out, hcopies, rfl, hmem⟩ := h.compactByVolumeData henc hc
  have hfrom : ∀ m ∈ out.map Rec.needle, m.id = key →
      0 < e.2.toInt ∧ m = n ∧ m.isVacuumed v.superBlock.ttl now = false := by
    intro m hm hmid
    obtain ⟨key', e', he', hpos', hread', hvac⟩ := (hmem m).1 hm
    obtain ⟨-, rfl, rfl⟩ :=
      h.eq_of_id henc he hn he' (isDeleted_eq_false_iff.2 (by omega)) hread' hmid
    exact ⟨hpos', rfl, hvac⟩
  split
  · rename_i hcond
    refine hcopies.keeps ((hmem _).2 ⟨key, e, he, hpos.1 hcond.1, hn, hcond.2⟩) hid ?_ ?_
    · exact fun m hm hmid => (hfrom m hm hmid).2.1
    · exact fun hz => absurd (hsize.symm.trans hz) hcond.1
  · rename_i hcond
    refine hcopies.drops fun m hm hmid => hcond ?_
    obtain ⟨hp, rfl, hvac⟩ := hfrom m hm hmid
    exact ⟨hpos.2 hp, hvac⟩

theorem Sound.compactByIndex_keeps (h : Sound v recs log)
    (henc : ∀ r ∈ recs, r.Encoded v.version) (he : v.nm.entry key = some e)
    (hlive : e.2.isDeleted = false) (hn : v.readEntry ⟨key, e.1, e.2⟩ e.2 = .ok n)
    (hc : v.compactByIndex now = .ok c) (hfit : e.2 = 0 → List.length c.dat ≤ maxPossibleVolumeSize) :
    if lastRow log key = some e ∧ n.isVacuumed v.superBlock.ttl now = false then
      c.Keeps v.version key n
    else c.Drops key := by
  obtain ⟨hid, hsize⟩ := h.header_of_readEntry henc he hlive hn
  obtain ⟨cc, out, hcopies, rfl, -, hmem⟩ := h.compactByIndex henc hc
  have hfrom : ∀ m ∈ out.map Rec.needle, m.id = key →
      lastRow log key = some e ∧ m = n ∧ m.isVacuumed v.superBlock.ttl now = false := by
    intro m hm hmid
    obtain ⟨key', e', he', hread', hvac⟩ := (hmem m).1 hm
    obtain ⟨hlast, hlive'⟩ := filter_eq_some_iff.1 he'
    have hd := (isLiveRow_iff.1 hlive').2
    obtain ⟨rfl, rfl, rfl⟩ := h.eq_of_id henc he hn (h.rows key' e' hlast hd) hd hread' hmid
    exact ⟨hlast, rfl, hvac⟩
  split
  · rename_i hcond
    have hrow : liveRow log key = some e := by
      rw [liveRow, hcond.1, filter_some, if_pos]
      exact isLiveRow_iff.2 ⟨(h.entries key e he).1, hlive⟩
    refine hcopies.keeps ((hmem _).2 ⟨key, e, hrow, hn, hcond.2⟩) hid ?_ ?_
    · exact fun m hm hmid => (hfrom m hm hmid).2.1
    · exact fun hz => hfit (hsize.symm.trans hz)
  · rename_i hcond
    refine hcopies.drops fun m hm hmid => hcond ?_
    obtain ⟨hlast, rfl, hvac⟩ := hfrom m hm hmid
    exact ⟨hlast, hvac⟩

/-- **What a vacuum keeps** of a needle that can be read: along the `.dat` file, one with data that its rule does not
leave out; along the index, one that is named, as every one with data is, and not left out. -/
theorem vacuum_keeps (h : Stored v) {key : NeedleId} {t : UInt64} {res : Needle × Int}
    (hread : v.readNeedle { id := key } false t = .ok res) :
    ∃ nv n, v.get key = .ok (some nv) ∧ v.readEntry nv nv.size = .ok n ∧
      (∀ c, v.compactByVolumeData (unixSeconds t) = .ok c →
        if nv.size ≠ 0 ∧ n.isVacuumed v.superBlock.ttl (unixSeconds t) = false then
          c.Keeps v.version key n
        else c.Drops key) ∧
      (∀ c, v.compactByIndex (unixSeconds t) = .ok c →
        (nv.size = 0 → List.length c.dat ≤ maxPossibleVolumeSize) →
        if lastRow (rowsOf v.nm.indexFile) key = some (nv.offset, nv.size) ∧
            n.isVacuumed v.superBlock.ttl (unixSeconds t) = false then
          c.Keeps v.version key n
        else c.Drops key) ∧
      (nv.size ≠ 0 → lastRow (rowsOf v.nm.indexFile) key = some (nv.offset, nv.size)) := by
  obtain ⟨recs, log, h, henc⟩ := h
  obtain ⟨e, he, hlive⟩ := h.of_readNeedle hread
  obtain ⟨r, -, -, -, hentry⟩ := h.readEntry_live henc he hlive
  have hrows : rowsOf v.nm.indexFile = log := by rw [h.index, rowsOf_flatMap]
  rw [hrows]
  refine ⟨⟨key, e.1, e.2⟩, r.needle.stored v.version, h.get_some he, hentry, ?_, ?_, ?_⟩
  · exact fun c hc => h.compactByVolumeData_keeps henc he hlive hentry hc
  · exact fun c hc hfit => h.compactByIndex_keeps henc he hlive hentry hc hfit
  · exact fun hne => (h.live key e he hlive).resolve_right fun hz => hne hz.2

theorem stored_run {kind : NeedleMapKind} {ops : List VolumeOp}
    (hok : RunOk (newVolume s kind) ops) (hs : ∀ op ∈ ops, op.Storable s.version) :
    Stored ((newVolume s kind).run ops) := by
  obtain ⟨rs, ls, hrun, hsuper, henc⟩ := (volumeInv_new s kind).run hok
  refine ⟨_, _, hrun.toSound, fun r hr => ?_⟩
  have hversion : ((newVolume s kind).run ops).version = s.version :=
    congrArg SuperBlock.version hsuper
  rw [hversion]
  exact henc hs r hr

/-- A needle that lives for five minutes from second 100 on. -/
def shortNeedle : Needle :=
  { plainNeedle 1 5 [7] with
    flags := flagHasLastModifiedDate ||| flagHasTtl
    lastModified := 100
    ttl := some { count := 5, unit := 1 } }

theorem fits_shortNeedle : shortNeedle.Fits .v3 where
  fields := fun _ _ => ⟨by decide, by decide, by decide⟩
  size := by decide

/-- It is written to a volume that has no time to live, and another needle after it. -/
def shortOps : List VolumeOp :=
  [.write shortNeedle true 100000000000, .write (plainNeedle 2 5 [7]) true 100000000001]

theorem runOk_shortOps : RunOk freshVolume shortOps := by
  refine ⟨⟨by decide, by decide, fits_shortNeedle, by decide⟩, ⟨by decide, ?_, ?_, by decide⟩, trivial⟩
  · decide +kernel
  · exact ⟨fun _ _ => ⟨by decide, by decide, by decide⟩, by decide⟩

theorem storable_shortOps : ∀ op ∈ shortOps, op.Storable .v3 := by
  intro op hop
  fin_cases hop
  · exact ⟨fun _ _ => by decide, fun _ => rfl⟩
  · exact ⟨fun _ _ => by decide, fun _ => rfl⟩

theorem vacuum_keeps_short : ∃ n,
    (∃ c, (freshVolume.run shortOps).compactByVolumeData 160 = .ok c ∧ c.Keeps .v3 2 n) ∧
    ∃ c, (freshVolume.run shortOps).compactByIndex 160 = .ok c ∧ c.Keeps .v3 2 n := by
  have hstored : Stored (freshVolume.run shortOps) := stored_run runOk_shortOps storable_shortOps
  have hsec : unixSeconds 160000000000 = 160 := by decide +kernel
  have hsuper : (freshVolume.run shortOps).superBlock = { version := .v3 } := by decide +kernel
  have hruns : ((freshVolume.run shortOps).readNeedle { id := 2 } false 160000000000).toOption.isSome ∧
      ((freshVolume.run shortOps).compactByVolumeData 160).toOption.isSome ∧
      ((freshVolume.run shortOps).compactByIndex 160).toOption.isSome := by decide +kernel
  have hfresh : ∀ nv ∈ ((freshVolume.run shortOps).get 2).toOption.join, nv.size ≠ 0 ∧
      ∀ n ∈ ((freshVolume.run shortOps).readEntry nv nv.size).toOption, n.isVacuumed {} 160 = false := by
    decide +kernel
  generalize freshVolume.run shortOps = v at hstored hsuper hruns hfresh ⊢
  obtain ⟨hread, hdat, hidx⟩ := hruns
  obtain ⟨res, hres⟩ := isSome_iff_exists.1 hread
  obtain ⟨c, hc⟩ := isSome_iff_exists.1 hdat
  obtain ⟨c', hc'⟩ := isSome_iff_exists.1 hidx
  obtain ⟨nv, n, hget, hentry, hkeeps, hkeeps', hnamed⟩ := vacuum_keeps hstored (toOption_eq_some.1 hres)
  rw [hsec, Volume.version, hsuper] at hkeeps hkeeps'
  obtain ⟨hne, hvacuum⟩ := hfresh nv (by rw [hget]; rfl)
  have hlive := hvacuum n (toOption_eq_some.2 hentry)
  have hc := toOption_eq_some.1 hc
  have hc' := toOption_eq_some.1 hc'
  have hdata := hkeeps c hc
  have hindex := hkeeps' c' hc' fun hz => absurd hz hne
  rw [if_pos ⟨hne, hlive⟩] at hdata
  rw [if_pos ⟨hnamed hne, hlive⟩] at hindex
  exact ⟨n, ⟨c, hc, hdata⟩, c', hc', hindex⟩

/-- The needle can be read at second 160, and both compactions drop it: the volume has no time to live, so that the
needle is taken as expired from second 100 on. -/
theorem vacuum_drops :
    ((freshVolume.run shortOps).readNeedle { id := 1 } false
      160000000000).toOption.map (fun res => res.1.data) = some [7] ∧
    (((freshVolume.run shortOps).compactByVolumeData
      (unixSeconds 160000000000)).toOption.map fun c => (rowsOf c.idx).map Prod.fst) = some [2] ∧
    (((freshVolume.run shortOps).compactByIndex
      (unixSeconds 160000000000)).toOption.map fun c => (rowsOf c.idx).map Prod.fst) = some [2] := by
  decide +kernel

end Storage
