import SeaweedFS.Storage.Proof.OffsetLoading
import SeaweedFS.Storage.Proof.Vacuum
import SeaweedFS.Storage.Proof.VolumeChecking

/-!
# Snapshots of a volume

`Snapshot` says that a `.dat` file and entries for it go together, and `image` what can be read there of
each key. The files of a volume are such a pair (`Sound.snapshot`), and so is the copy of a compaction
(`Sound.copied`).
-/

namespace Storage

open Lib Util List Option Volume

/-! ## Snapshots -/

/-- A `.dat` file with the records `out`, and entries that name them. -/
structure Snapshot (s : SuperBlock) (dst : File) (out : List Rec) (rows : List IdxEntry) : Prop where
  dst : dst = s.bytes ++ bytesOf out
  complete : ∀ r ∈ out, r.Complete s.version
  encoded : ∀ r ∈ out, r.Encoded s.version
  named : ∀ key e, liveRow rows key = some e →
    ∃ r, At out e.1.toActualOffset r ∧ r.needle.id = key ∧ r.needle.size = e.2

/-- What is read of a key. -/
def image (version : Version) (dst : File) (rows : List IdxEntry) (key : NeedleId) : Option Needle :=
  (liveRow rows key).bind fun e =>
    (({ id := key } : Needle).readData dst e.1.toActualOffset e.2 version).toOption

variable {e : Offset × Size}

variable {s : SuperBlock} {dst : File} {out : List Rec} {rows : List IdxEntry} {key : NeedleId}

theorem image_eq_none (version : Version) (dst : File) (h : liveRow rows key = none) :
    image version dst rows key = none := by
  rw [image, h]
  rfl

section

variable (h : Snapshot s dst out rows)
include h

theorem Snapshot.image_eq {r : Rec}
    (hrow : liveRow rows key = some e) (hat : At out e.1.toActualOffset r)
    (hsize : r.needle.size = e.2) :
    image s.version dst rows key = some (r.needle.stored s.version) := by
  have hread := hat.readData (h.complete r hat.mem) (h.encoded r hat.mem) s
    (m := ({ id := key } : Needle)) rfl
  rw [image, hrow, bind_some, h.dst, ← hsize, hread]
  rfl

theorem Snapshot.length_dst : List.length dst = superBlockSize + (bytesOf out).length := by
  rw [h.dst, length_append, length_superBlock_bytes]

theorem Snapshot.aligned : List.length dst % needlePaddingSize = 0 := by
  have := aligned_bytesOf h.complete
  rw [h.length_dst]
  unfold needlePaddingSize superBlockSize at *
  omega

/-- **A record and an entry more.** The entry names the record, or none; the images of other keys stay. -/
theorem Snapshot.append {r : Rec} (hr : r.Complete s.version)
    (he : r.Encoded s.version) (row : IdxEntry)
    (hrow : isLiveRow row.2 = true → At (out ++ [r]) row.2.1.toActualOffset r ∧
      r.needle.id = row.1 ∧ r.needle.size = row.2.2) :
    Snapshot s (dst ++ r.bytes) (out ++ [r]) (rows ++ [row]) ∧
    ∀ key, image s.version (dst ++ r.bytes) (rows ++ [row]) key = if row.1 = key then
        if isLiveRow row.2 then some (r.needle.stored s.version) else none
      else image s.version dst rows key := by
  have hsnap : Snapshot s (dst ++ r.bytes) (out ++ [r]) (rows ++ [row]) := by
    refine ⟨?_, ?_, ?_, ?_⟩
    · rw [h.dst, bytesOf_append, bytesOf_singleton, append_assoc]
    · exact forall_mem_append.2 ⟨h.complete, forall_mem_singleton.2 hr⟩
    · exact forall_mem_append.2 ⟨h.encoded, forall_mem_singleton.2 he⟩
    · intro key e hlive
      rw [liveRow_append] at hlive
      split at hlive
      · rename_i hkey
        obtain ⟨hsome, hlive⟩ := filter_eq_some_iff.1 hlive
        cases hsome
        obtain ⟨hat, hid, hsize⟩ := hrow hlive
        exact ⟨r, hat, hid.trans hkey, hsize⟩
      · obtain ⟨r', hat, hid, hsize⟩ := h.named key e hlive
        exact ⟨r', hat.append _, hid, hsize⟩
  refine ⟨hsnap, fun key => ?_⟩
  by_cases hkey : row.1 = key
  · rw [if_pos hkey]
    have hlast : liveRow (rows ++ [row]) key = (some row.2).filter isLiveRow := by
      rw [liveRow_append, if_pos hkey]
    by_cases hlive : isLiveRow row.2 = true
    · rw [filter_some, if_pos hlive] at hlast
      obtain ⟨hat, -, hsize⟩ := hrow hlive
      rw [hsnap.image_eq hlast hat hsize, if_pos hlive]
    · rw [filter_some, if_neg hlive] at hlast
      rw [image_eq_none _ _ hlast, if_neg hlive]
  · rw [if_neg hkey]
    have hlast : liveRow (rows ++ [row]) key = liveRow rows key := by
      rw [liveRow_append, if_neg hkey]
    cases hold : liveRow rows key with
    | none => rw [image_eq_none _ _ (hlast.trans hold), image_eq_none _ _ hold]
    | some e =>
      obtain ⟨r', hat, -, hsize⟩ := h.named key e hold
      rw [hsnap.image_eq (hlast.trans hold) (hat.append _) hsize, h.image_eq hold hat hsize]

end

/-! ## Reading -/

/-- A read that finds nothing. -/
def Gone (res : Except VolumeError (Needle × Int)) : Prop :=
  res = .error .notFound ∨ res = .error .deleted

/-- What `readNeedle` makes of the image of a key. -/
def readImage (key : NeedleId) (n : Needle) (now : UInt64) : Except VolumeError (Needle × Int) :=
  if n.size = 0 then .ok ({ id := key }, 0)
  else do if ← Volume.isAlive n now then return (n, n.dataSize.toNat) else throw .notFound

variable {v : Volume}

theorem Replays.get {nm : NeedleMapper} (h : nm.Inv) (hnm : v.nm = nm) (key : NeedleId) :
    v.get key = .ok ((nm.entry key).map fun e => ⟨key, e.1, e.2⟩) := by
  rw [Volume.get, hnm, h.get key]
  rfl

theorem readNeedle_gone (hinv : v.nm.Inv) (hlive : liveEntry v.nm.entry key = none) (now : UInt64) :
    Gone (v.readNeedle { id := key } false now) := by
  unfold readNeedle
  rw [Replays.get hinv rfl]
  cases he : v.nm.entry key with
  | none => exact .inl rfl
  | some e =>
    simp only [map_some, bind, Except.bind]
    by_cases hz : e.1.isZero = true
    · rw [if_pos hz]
      exact .inl rfl
    · have hd : e.2.isDeleted = true := by
        rw [liveEntry, he, filter_some, ite_eq_right_iff] at hlive
        by_contra hd
        exact absurd (hlive (isLiveRow_iff.2 ⟨Bool.eq_false_iff.2 hz, Bool.eq_false_iff.2 hd⟩))
          (some_ne_none _)
      rw [if_neg hz, readSizeOf, if_pos hd]
      exact .inr rfl

theorem readNeedle_image (hinv : v.nm.Inv) (hsnap : Snapshot v.superBlock v.dat out rows)
    (hlive : liveEntry v.nm.entry key = liveRow rows key) {n : Needle}
    (himage : image v.version v.dat rows key = some n) (now : UInt64) :
    v.readNeedle { id := key } false now = readImage key n now := by
  cases hrow : liveRow rows key with
  | none =>
    rw [image_eq_none _ _ hrow] at himage
    cases himage
  | some e =>
    obtain ⟨r, hat, -, hsize⟩ := hsnap.named key e hrow
    have hn := (hsnap.image_eq hrow hat hsize).symm.trans himage
    have hread := hat.readData (hsnap.complete r hat.mem) (hsnap.encoded r hat.mem) v.superBlock
      (m := ({ id := key } : Needle)) rfl
    rw [← hsnap.dst, hsize] at hread
    have hsz : n.size = e.2 := by
      rw [← some.inj hn, (stored_header r.needle _).2.2, hsize]
    rw [hrow] at hlive
    obtain ⟨he, hliveRow⟩ := filter_eq_some_iff.1 hlive
    obtain ⟨hz, hd⟩ := isLiveRow_iff.1 hliveRow
    unfold readNeedle readImage
    rw [Replays.get hinv rfl, he, hsz]
    simp only [map_some, bind, Except.bind]
    rw [if_neg (by rw [hz]; exact Bool.false_ne_true), readSizeOf,
      if_neg (by rw [hd]; exact Bool.false_ne_true)]
    dsimp only [pure, Except.pure]
    by_cases hzero : e.2 = 0
    · rw [if_pos hzero, if_pos hzero]
    · have hversion : v.version = v.superBlock.version := rfl
      rw [hversion, hread, ← some.inj hn]
      rfl

/-! ## The files of a volume -/

variable {recs : List Rec} {log : List IdxEntry}

theorem Sound.liveRow_entry (h : Sound v recs log)
    (hrow : liveRow log key = some e) : v.nm.entry key = some e ∧ isLiveRow e = true := by
  obtain ⟨hlast, hlive⟩ := filter_eq_some_iff.1 hrow
  exact ⟨h.rows key e hlast (isLiveRow_iff.1 hlive).2, hlive⟩

theorem Sound.snapshot (h : Sound v recs log) (henc : ∀ r ∈ recs, r.Encoded v.version) :
    Snapshot v.superBlock v.dat recs log where
  dst := h.dat
  complete := h.records
  encoded := henc
  named := by
    intro key e hrow
    obtain ⟨he, hlive⟩ := h.liveRow_entry hrow
    obtain ⟨-, r, hat, hid, hsize⟩ := h.entries key e he
    exact ⟨r, hat, hid, hsize (isLiveRow_iff.1 hlive).2⟩

theorem Snapshot.of_image (h : Snapshot s dst out rows) {n : Needle}
    (himage : image s.version dst rows key = some n) :
    ∃ e r, liveRow rows key = some e ∧ At out e.1.toActualOffset r ∧ r.needle.id = key ∧
      r.needle.size = e.2 ∧ n = r.needle.stored s.version := by
  cases hrow : liveRow rows key with
  | none =>
    rw [image_eq_none _ _ hrow] at himage
    cases himage
  | some e =>
    obtain ⟨r, hat, hid, hsize⟩ := h.named key e hrow
    exact ⟨e, r, rfl, hat, hid, hsize, some.inj (himage.symm.trans (h.image_eq hrow hat hsize))⟩

/-! ## The copy of a compaction -/

theorem map_fst_entriesOf (out : List Rec) :
    (entriesOf out).map Prod.fst = (out.map Rec.needle).map Needle.id := by
  induction out using List.reverseRecOn with
  | nil => rfl
  | append_singleton out r ih =>
    rw [entriesOf_append, map_append, map_append, map_append, ih]
    rfl

variable {c : Compaction}

/-- Records in the order of their keys, as a sorted map. -/
def sortedEntries (out : List Rec) (h : (out.map Rec.needle).Pairwise fun m n => m.id < n.id) :
    MemDb where
  entries := entriesOf out
  sorted := by
    rw [← pairwise_map (f := Prod.fst) (R := (· < ·)), map_fst_entriesOf, pairwise_map]
    exact h

theorem Copies.isLiveRow (h : Copies c s out)
    (hbelow : ∀ off r, At out off r → off < maxPossibleVolumeSize) {e : IdxEntry}
    (he : e ∈ entriesOf out) : isLiveRow e.2 = true := by
  obtain ⟨⟨off, r⟩, hmem, rfl⟩ := List.mem_map.1 he
  have hat := mem_placed.1 hmem
  have hpos : 0 < off := Nat.lt_of_lt_of_le (by decide) hat.superBlockSize_le
  exact isLiveRow_iff.2 ⟨isZero_toOffset (hbelow off r hat) (hat.aligned h.complete) hpos,
    isDeleted_eq_false_iff.2 (h.complete r hat.mem).1.1⟩

theorem Copies.liveEntries (h : Copies c s out)
    (hsorted : (out.map Rec.needle).Pairwise fun m n => m.id < n.id)
    (hbelow : ∀ off r, At out off r → off < maxPossibleVolumeSize) :
    c.nm.liveEntries = entriesOf out := by
  have hentries : c.nm.entries = (sortedEntries out hsorted).entries :=
    SortedMap.entries_eq_of_get fun key => (h.nm key).trans
      (MemDb.lastRow_entries (sortedEntries out hsorted) key)
  rw [MemDb.liveEntries, hentries]
  exact List.filter_eq_self.2 fun e he => h.isLiveRow hbelow he

/-- The copy `c` has the records `out` and the entries `rows`, and the files end together. -/
structure Copied (s : SuperBlock) (c : Compacted) (out : List Rec) (rows : List IdxEntry) : Prop
    extends Snapshot s c.dat out rows where
  idx : c.idx = rows.flatMap IdxEntry.bytes
  ends : EndsTogether out rows

theorem endsTogether_entriesOf (hbelow : ∀ off r, At out off r → off < maxPossibleVolumeSize) :
    EndsTogether out (entriesOf out) := by
  rcases eq_nil_or_concat out with rfl | ⟨out', r, rfl⟩
  · exact .inl rfl
  · rw [concat_eq_append] at *
    exact .inr ⟨_, _, entriesOf_append out' r, .inr ⟨out', r, rfl, hbelow _ r (At.last out' r), rfl⟩⟩

theorem Copies.copied (h : Copies c s out)
    (hsorted : (out.map Rec.needle).Pairwise fun m n => m.id < n.id)
    (hbelow : ∀ off r, At out off r → off < maxPossibleVolumeSize) :
    Copied s.compacted ⟨c.dst, c.nm.liveEntries.flatMap IdxEntry.bytes⟩ out (entriesOf out) where
  dst := h.dst
  complete := h.complete
  encoded := h.encoded
  named := by
    intro key e hrow
    obtain ⟨off, r, hat, hid, rfl⟩ := lastRow_entriesOf (filter_eq_some_iff.1 hrow).1
    refine ⟨r, ?_, hid, rfl⟩
    rw [toActualOffset_toOffset (hbelow off r hat) (hat.aligned h.complete)]
    exact hat
  idx := by rw [h.liveEntries hsorted hbelow]
  ends := endsTogether_entriesOf hbelow

theorem Copies.image_iff (h : Copies c s out)
    (hsorted : (out.map Rec.needle).Pairwise fun m n => m.id < n.id)
    (hbelow : ∀ off r, At out off r → off < maxPossibleVolumeSize) (key : NeedleId) (n : Needle) :
    image s.version c.dst (entriesOf out) key = some n ↔ n ∈ out.map Rec.needle ∧ n.id = key := by
  have hsnap := (h.copied hsorted hbelow).toSnapshot
  constructor
  · intro himage
    obtain ⟨e, r, -, hat, hid, -, rfl⟩ := hsnap.of_image himage
    rw [show s.compacted.version = s.version from rfl, h.restored r hat.mem]
    exact ⟨mem_map_of_mem hat.mem, hid⟩
  · rintro ⟨hmem, rfl⟩
    obtain ⟨r, hr, rfl⟩ := List.mem_map.1 hmem
    obtain ⟨pre, post, hout⟩ := append_of_mem hr
    obtain ⟨off, hat⟩ : ∃ off, At out off r :=
      ⟨_, pre, post, by rw [append_assoc]; exact hout, rfl⟩
    have hentry : (r.needle.id, toOffset off, r.needle.size) ∈ entriesOf out :=
      List.mem_map.2 ⟨(off, r), mem_placed.2 hat, rfl⟩
    have hrow : liveRow (entriesOf out) r.needle.id = some (toOffset off, r.needle.size) := by
      have hlast := MemDb.lastRow_entries (sortedEntries out hsorted) r.needle.id
      rw [(SortedMap.mem_entries (sortedEntries out hsorted) _ _).1 hentry] at hlast
      rw [liveRow, show lastRow (entriesOf out) r.needle.id = _ from hlast, filter_some,
        if_pos (h.isLiveRow hbelow hentry)]
    have hat' : At out (toOffset off).toActualOffset r := by
      rw [toActualOffset_toOffset (hbelow off r hat) (hat.aligned h.complete)]
      exact hat
    exact (hsnap.image_eq hrow hat' rfl).trans (congrArg some (h.restored r hr))

variable {now : UInt64} {c : Compacted}

/-- **The copy** has the images that the vacuum does not leave out. A needle without data is copied
wherever the copy ends, so that its offset may not fit. -/
theorem Sound.copied (h : Sound v recs log) (henc : ∀ r ∈ recs, r.Encoded v.version)
    (hc : v.compactByIndex now = .ok c) (hfit : (∃ key e, v.nm.entry key = some e ∧ e.2 = 0) →
      List.length c.dat ≤ maxPossibleVolumeSize) :
    ∃ out rows, Copied v.superBlock.compacted c out rows ∧ ∀ key,
      image v.version c.dat rows key = (image v.version v.dat log key).filter
        fun n => !n.isVacuumed v.superBlock.ttl now := by
  have hold := h.snapshot henc
  obtain ⟨cc, out, hcopies, rfl, hsorted, hmem⟩ := h.compactByIndex henc hc
  have hselected : ∀ n, n ∈ out.map Rec.needle ↔
      image v.version v.dat log n.id = some n ∧ n.isVacuumed v.superBlock.ttl now = false := by
    intro n
    rw [hmem]
    constructor
    · rintro ⟨key, e, hrow, hread, hvac⟩
      obtain ⟨he, hlive⟩ := h.liveRow_entry hrow
      obtain ⟨r, hat, hid, hsize, hread'⟩ := h.readEntry_live henc he (isLiveRow_iff.1 hlive).2
      obtain rfl := Except.ok.inj (hread.symm.trans hread')
      rw [(stored_header r.needle v.version).2.1, hid]
      exact ⟨hold.image_eq hrow hat hsize, hvac⟩
    · rintro ⟨himage, hvac⟩
      obtain ⟨e, r, hrow, hat, -, hsize, heq⟩ := hold.of_image himage
      exact ⟨n.id, e, hrow, heq ▸ h.readEntry hat (henc r hat.mem) hsize n.id, hvac⟩
  have hbelow : ∀ off r, At out off r → off < maxPossibleVolumeSize := by
    intro off r hat
    by_cases hz : r.needle.size = 0
    · obtain ⟨himage, -⟩ := (hselected r.needle).1 (mem_map_of_mem hat.mem)
      obtain ⟨e, r', hrow, -, -, hsize, heq⟩ := hold.of_image himage
      have hsize' : r.needle.size = e.2 := by
        rw [heq, (stored_header r'.needle _).2.2, hsize]
      have := hfit ⟨_, e, (h.liveRow_entry hrow).1, hsize' ▸ hz⟩
      have hpos := IsRecord.length_pos (hcopies.complete r hat.mem)
      have hend := hat.end_le
      have hlen := hcopies.length_dst
      dsimp only at this
      omega
    · exact hcopies.below off r hat hz
  refine ⟨out, entriesOf out, hcopies.copied hsorted hbelow, fun key => ext fun n => ?_⟩
  rw [show v.version = v.superBlock.version from rfl, hcopies.image_iff hsorted hbelow, hselected,
    filter_eq_some_iff, Bool.not_eq_true']
  constructor
  · rintro ⟨⟨himage, hvac⟩, rfl⟩
    exact ⟨himage, hvac⟩
  · rintro ⟨himage, hvac⟩
    obtain ⟨e, r, -, -, hid, -, rfl⟩ := hold.of_image himage
    have hkey : (r.needle.stored v.superBlock.version).id = key :=
      (stored_header r.needle _).2.1.trans hid
    exact ⟨⟨hkey.symm ▸ himage, hvac⟩, hkey⟩

end Storage
