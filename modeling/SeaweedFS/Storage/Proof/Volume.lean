import SeaweedFS.Storage.Proof.NeedleMapper
import SeaweedFS.Storage.Proof.Record

/-!
# The invariant of a volume

`Sound v recs log`: the `.dat` file is the super block and the records `recs`, the `.idx` file the entries
`log`, and every entry of the needle map names a record of its key. In `VolumeInv v recs log` the times of the
appends also grow.
-/

namespace Storage

open Lib Util List MarkMap

variable {version : Version} {e row : Offset × Size}

/-! ## Operations -/

/-- The operations that change a volume; `now` is the clock. -/
inductive VolumeOp
  | write (n : Needle) (checkCookie : Bool) (now : UInt64)
  | delete (n : Needle) (now : UInt64)
  | blob (needleId : NeedleId) (needleBlob : List UInt8) (size : Size) (now : UInt64)

namespace VolumeOp

def key : VolumeOp → NeedleId
  | write n _ _ => n.id
  | delete n _ => n.id
  | blob needleId _ _ _ => needleId

def now : VolumeOp → UInt64
  | write _ _ now => now
  | delete _ now => now
  | blob _ _ _ now => now

def isBlob : VolumeOp → Bool
  | blob _ _ _ _ => true
  | _ => false

/-- What it writes has data. -/
def HasData : VolumeOp → Prop
  | write n _ _ => n.data ≠ []
  | delete _ _ => True
  | blob _ _ size _ => size ≠ 0

end VolumeOp

namespace Volume

/-- One operation. -/
def step (v : Volume) : VolumeOp → Except VolumeError Volume
  | .write n checkCookie now => return (← v.doWriteRequest n checkCookie now).1
  | .delete n now => return (← v.doDeleteRequest n now).1
  | .blob needleId needleBlob size now => v.writeBlob needleId needleBlob size now

/-- The volume after an operation; one that fails leaves it as it is. -/
def after (v : Volume) (op : VolumeOp) : Volume :=
  match v.step op with
  | .ok v' => v'
  | .error _ => v

/-- The volume after operations. -/
def run (v : Volume) (ops : List VolumeOp) : Volume := ops.foldl after v

end Volume

/-- What may be asked of a volume: a needle that fits, a blob that is a record of its id and size, with the clock and
the size of the file within `int64`; an append that is not checked against `MaxPossibleVolumeSize` below it. -/
def VolumeOp.Ok (v : Volume) (op : VolumeOp) : Prop :=
  op.now.toNat < 2 ^ 63 ∧ v.dat.length < 2 ^ 63 ∧
  match op with
  | .write n _ _ => n.Fits v.version ∧ (n.data = [] → v.dat.length < maxPossibleVolumeSize)
  | .delete _ _ => True
  | .blob needleId needleBlob size _ =>
    (∃ n body, IsRecord v.version n body needleBlob ∧ n.id = needleId ∧ n.size = size) ∧
      v.dat.length < maxPossibleVolumeSize

/-- Every operation of a run may be asked when its turn comes. -/
def RunOk : Volume → List VolumeOp → Prop
  | _, [] => True
  | v, op :: ops => op.Ok v ∧ RunOk (v.after op) ops

/-! ## The invariant -/

/-- What the files of a volume and its needle map have in common. -/
structure Sound (v : Volume) (recs : List Rec) (log : List IdxEntry) : Prop where
  dat : v.dat = v.superBlock.bytes ++ bytesOf recs
  records : ∀ r ∈ recs, r.Complete v.version
  nm : v.nm.Inv
  index : v.nm.indexFile = log.flatMap IdxEntry.bytes
  /-- An entry names a record of its key, a live one with its size. -/
  entries : ∀ key e, v.nm.entry key = some e → e.1.isZero = false ∧
    ∃ r, At recs e.1.toActualOffset r ∧ r.needle.id = key ∧
      (e.2.isDeleted = false → r.needle.size = e.2)
  /-- A live entry of the log is the entry of the map. -/
  rows : ∀ key e, lastRow log key = some e → e.2.isDeleted = false → v.nm.entry key = some e
  /-- A live entry of the map is the last of the log, unless it has no data and is kept in leveldb. -/
  live : ∀ key e, v.nm.entry key = some e → e.2.isDeleted = false →
    lastRow log key = some e ∨ v.nm.kind = .levelDb ∧ e.2 = 0

/-- The invariant of a volume. -/
structure VolumeInv (v : Volume) (recs : List Rec) (log : List IdxEntry) : Prop
    extends Sound v recs log where
  /-- The entries with data are those of the last records of their keys. -/
  scan : ∀ key, (v.nm.entry key).filter (fun e => 0 < e.2.toInt) = liveRecords recs key
  stamps : recs.Pairwise fun r r' => r.needle.appendAtNs < r'.needle.appendAtNs
  last : ∀ r ∈ recs, r.needle.appendAtNs ≤ v.lastAppendAtNs
  clock : v.lastAppendAtNs.toNat < 2 ^ 63 + v.dat.length

theorem volumeInv_new (s : SuperBlock) (kind : NeedleMapKind) : VolumeInv (newVolume s kind) [] [] where
  dat := (append_nil _).symm
  records := by simp
  nm := NeedleMapper.inv_new kind
  index := NeedleMapper.indexFile_new kind
  entries := by
    intro key e he
    rw [show (newVolume s kind).nm.entry = _ from NeedleMapper.entry_new kind] at he
    cases he
  rows := by
    intro key e he
    cases he
  live := by
    intro key e he
    rw [show (newVolume s kind).nm.entry = _ from NeedleMapper.entry_new kind] at he
    cases he
  scan := by
    intro key
    rw [show (newVolume s kind).nm.entry = _ from NeedleMapper.entry_new kind]
    rfl
  stamps := .nil
  last := by simp
  clock := by
    show 0 < 2 ^ 63 + _
    omega

namespace Sound

variable {v : Volume} {recs : List Rec} {log : List IdxEntry}

section

variable (h : Sound v recs log)
include h

theorem length_dat : v.dat.length = superBlockSize + (bytesOf recs).length := by
  rw [h.dat, length_append, length_superBlock_bytes]

theorem aligned : v.dat.length % needlePaddingSize = 0 := by
  have := aligned_bytesOf h.records
  rw [h.length_dat]
  unfold needlePaddingSize superBlockSize at *
  omega

theorem toActualOffset (hlt : v.dat.length < maxPossibleVolumeSize) :
    (toOffset v.dat.length).toActualOffset = v.dat.length :=
  toActualOffset_toOffset hlt h.aligned

theorem isZero_toOffset (hlt : v.dat.length < maxPossibleVolumeSize) :
    (toOffset v.dat.length).isZero = false := by
  refine Storage.isZero_toOffset hlt h.aligned ?_
  rw [h.length_dat]
  exact Nat.lt_add_right _ (by decide)

theorem get (key : NeedleId) : v.get key = .ok ((v.nm.entry key).map fun e => ⟨key, e.1, e.2⟩) := by
  rw [Volume.get, h.nm.get key]
  rfl

end

end Sound

/-! ## Appending -/

variable {n : Needle}

theorem fits_setAppendAtNs (h : n.Fits version) (now last : UInt64) :
    (n.updateAppendAtNs now last).Fits version :=
  ⟨fun hv hd => ⟨(h.fields hv hd).mime, (h.fields hv hd).pairs, (h.fields hv hd).ttl⟩, h.size⟩

theorem fits_setCookie (h : n.Fits version) (cookie : Cookie) :
    ({ n with cookie := cookie } : Needle).Fits version :=
  ⟨fun hv hd => ⟨(h.fields hv hd).mime, (h.fields hv hd).pairs, (h.fields hv hd).ttl⟩, h.size⟩

theorem fits_emptied (n : Needle) (version : Version) :
    ({ n with data := [] } : Needle).Fits version where
  fields := fun _ hd => absurd rfl hd
  size := by
    cases version with
    | v1 | v2 | v3 =>
      show _ + 0 + _ < _
      decide

/-- What an operation appends can be read back. -/
def VolumeOp.Storable (version : Version) : VolumeOp → Prop
  | .write n _ _ => (n.data ≠ [] → n.hasLastModifiedDate = true → n.lastModified.toNat < 2 ^ 40) ∧
    (n.data ≠ [] → n.checksum = newCRC n.data)
  | .delete _ _ => True
  | .blob needleId needleBlob size _ => ∃ n, IsRecord version n (n.body version) needleBlob ∧
    n.id = needleId ∧ n.size = size ∧ n.Readable version

variable {r : Rec}

variable {v : Volume}

theorem appendNeedle_eq (hf : n.Fits v.version) (now : UInt64)
    (hlt : n.data ≠ [] → v.dat.length < maxPossibleVolumeSize) :
    ∃ (w : Written) (r : Rec), v.appendNeedle n now = .ok
        ({ v with dat := v.dat ++ r.bytes, lastAppendAtNs := r.needle.appendAtNs }, v.dat.length, w) ∧
      w.needle = r.needle ∧ r.Complete v.version ∧ r.body = r.needle.body v.version ∧
      r.needle = (n.updateAppendAtNs now v.lastAppendAtNs).sizedAs v.version := by
  obtain ⟨w, hw, hneedle, hrec⟩ := writeNeedleByVersion_eq (fits_setAppendAtNs hf now v.lastAppendAtNs)
  have hstamp : ((n.updateAppendAtNs now v.lastAppendAtNs).sizedAs v.version).appendAtNs =
      (n.updateAppendAtNs now v.lastAppendAtNs).appendAtNs := by cases v.version <;> rfl
  refine ⟨w, ⟨(n.updateAppendAtNs now v.lastAppendAtNs).sizedAs v.version, _, w.bytes⟩, ?_, hneedle,
    hrec, rfl, rfl⟩
  have hcheck : ¬ (length v.dat ≥ maxPossibleVolumeSize ∧
      (n.updateAppendAtNs now v.lastAppendAtNs).data.length ≠ 0) := by
    rintro ⟨hge, hne⟩
    have hd : n.data ≠ [] := fun h0 => hne (congrArg length h0)
    have := hlt hd
    omega
  unfold Volume.appendNeedle Needle.append
  simp only [bind, Except.bind, pure, Except.pure]
  rw [if_neg hcheck, hw, hstamp]
  simp only [File.writeAt_length]

theorem appendNeedle_exceeded (now : UInt64) (hd : n.data ≠ [])
    (hge : ¬ v.dat.length < maxPossibleVolumeSize) : ∃ err, v.appendNeedle n now = .error err := by
  refine ⟨.volumeSizeExceeded v.dat.length maxPossibleVolumeSize, ?_⟩
  have hcheck : length v.dat ≥ maxPossibleVolumeSize ∧
      (n.updateAppendAtNs now v.lastAppendAtNs).data.length ≠ 0 :=
    ⟨Nat.le_of_not_lt hge, fun h0 => hd (length_eq_zero_iff.1 h0)⟩
  unfold Volume.appendNeedle Needle.append
  dsimp only
  rw [if_pos hcheck]
  rfl

theorem encoded_sizedAs {now last : UInt64} (hbody : r.body = r.needle.body version)
    (hr : r.needle = (n.updateAppendAtNs now last).sizedAs version) (hf : n.Fits version)
    (hm : n.data ≠ [] → n.hasLastModifiedDate = true → n.lastModified.toNat < 2 ^ 40)
    (hcrc : n.data ≠ [] → n.checksum = newCRC n.data) : r.Encoded version where
  body := hbody
  readable := by
    rw [hr]
    exact readable_sizedAs (fits_setAppendAtNs hf now last) hm hcrc

theorem stampBlob_eq {body bytes : List UInt8}
    (h : IsRecord version n body bytes) (appendAtNs : UInt64) :
    ∃ bytes', stampBlob bytes n.size appendAtNs version = .ok bytes' ∧
      IsRecord version { n with appendAtNs := appendAtNs } body bytes' := by
  obtain ⟨hfits, hbody, pad, rfl, hpad⟩ := h
  cases version with
  | v1 | v2 => exact ⟨_, rfl, hfits, hbody, pad, rfl, hpad⟩
  | v3 =>
    refine ⟨n.header ++ body ++ uint32toBytes n.checksum ++ uint64toBytes appendAtNs ++ pad, ?_,
      hfits, hbody, pad, by simp [Needle.tail, Needle.header], hpad⟩
    have hsplit : n.header ++ body ++ n.tail .v3 ++ pad =
        (n.header ++ body ++ uint32toBytes n.checksum) ++ uint64toBytes n.appendAtNs ++ pad := by
      simp [Needle.tail]
    have hts : (needleHeaderSize : Int) + n.size.toInt + needleChecksumSize =
        (n.header ++ body ++ uint32toBytes n.checksum).length := by
      rw [length_append, length_append, length_header, length_uint32toBytes]
      push_cast
      rw [hbody]
      rfl
    unfold stampBlob
    rw [if_pos rfl]
    rw [hts, if_neg (by omega), if_neg, hsplit, Int.toNat_natCast, writeAt_append _ _ _ _ (by simp)]
    rw [hsplit]
    simp only [length_append, length_uint64toBytes, timestampSize]
    omega

/-! ## What an operation does -/

/-- `v'` is `v` with the record `r` appended, the entry of `key` changed to `e`, and `row` logged. -/
structure Adds (v v' : Volume) (now : UInt64) (key : NeedleId) (r : Rec) (e row : Offset × Size) :
    Prop where
  superBlock : v'.superBlock = v.superBlock
  complete : r.Complete v.version
  dat : v'.dat = v.dat ++ r.bytes
  stamp : r.needle.appendAtNs = Needle.getAppendAtNs now v.lastAppendAtNs
  last : v'.lastAppendAtNs = r.needle.appendAtNs
  nm : v'.nm.Inv
  kind : v'.nm.kind = v.nm.kind
  entry : v'.nm.entry = v.nm.entry.set key e
  index : v'.nm.indexFile = v.nm.indexFile ++ toBytes key row.1 row.2

/-- What an operation can do. -/
inductive Effect (v v' : Volume) (recs : List Rec) (op : VolumeOp) : Prop
  /-- Nothing. -/
  | same (h : v' = v)
  /-- It appends a record of the key, which the entry of the key names now. Without a blob, the cookie is that of
  the record named before, or of the needle. -/
  | put (r : Rec) (below : v.dat.length < maxPossibleVolumeSize) (id : r.needle.id = op.key)
    (adds : Adds v v' op.now op.key r (toOffset v.dat.length, r.needle.size)
      (toOffset v.dat.length, r.needle.size))
    (cookie : op.isBlob = false → match v.nm.entry op.key with
      | some e => ∀ r₀, At recs e.1.toActualOffset r₀ → r.needle.cookie = r₀.needle.cookie
      | none => ∀ n c t, op = .write n c t → r.needle.cookie = n.cookie)
    (encoded : op.Storable v.version → r.Encoded v.version)
    (data : op.HasData → r.needle.size ≠ 0)
  /-- It appends a record without data, and marks the entry, which was live. -/
  | delete (r : Rec) (e : Offset × Size) (live : e.2.isDeleted = false)
    (entry : v.nm.entry op.key = some e) (id : r.needle.id = op.key) (empty : r.needle.size = 0)
    (adds : Adds v v' op.now op.key r (NeedleMapper.mark v.nm.kind e)
      (toOffset v.dat.length, tombstoneFileSize))
    (encoded : r.Encoded v.version)

theorem toNat_getAppendAtNs (now : UInt64) {last : UInt64} (h : last.toNat + 1 < 2 ^ 64) :
    (Needle.getAppendAtNs now last).toNat = max now.toNat (last.toNat + 1) := by
  have hadd : (last + 1).toNat = last.toNat + 1 := by
    exact Nat.mod_eq_of_lt h
  show (if now ≤ last + 1 then last + 1 else now).toNat = _
  split
  · rename_i hle
    rw [UInt64.le_iff_toNat_le] at hle
    omega
  · rename_i hle
    rw [UInt64.le_iff_toNat_le] at hle
    omega

variable {log : List IdxEntry} {recs : List Rec} {key : NeedleId} {v' : Volume} {now : UInt64}

theorem VolumeInv.stamp (h : VolumeInv v recs log)
    (ha : Adds v v' now key r e row) (hlen : v.dat.length < 2 ^ 63) :
    r.needle.appendAtNs.toNat = max now.toNat (v.lastAppendAtNs.toNat + 1) := by
  have hclock := h.clock
  rw [ha.stamp]
  exact toNat_getAppendAtNs now (by omega)

/-- The files and the map stay together when a record is appended, if the new entry names a record of
its key, and agrees with what is logged. -/
theorem Sound.adds (h : Sound v recs log) (ha : Adds v v' now key r e row) (hz : e.1.isZero = false)
    (hat : ∃ r', At (recs ++ [r]) e.1.toActualOffset r' ∧ r'.needle.id = key ∧
      (e.2.isDeleted = false → r'.needle.size = e.2)) (hrow : row.2.isDeleted = false → e = row)
    (hlive : e.2.isDeleted = false → row = e ∨ v.nm.kind = .levelDb ∧ e.2 = 0) :
    Sound v' (recs ++ [r]) (log ++ [(key, row)]) where
  dat := by rw [ha.dat, h.dat, ha.superBlock, bytesOf_append, bytesOf_singleton, append_assoc]
  records := by
    show ∀ r' ∈ _, Rec.Complete v'.superBlock.version r'
    rw [ha.superBlock]
    exact forall_mem_append.2 ⟨h.records, forall_mem_singleton.2 ha.complete⟩
  nm := ha.nm
  index := by
    rw [ha.index, h.index, flatMap_append]
    exact congrArg _ (append_nil _).symm
  entries := by
    intro key' e' he'
    rw [ha.entry] at he'
    by_cases hk : key' = key
    · subst hk
      rw [set_self] at he'
      cases he'
      exact ⟨hz, hat⟩
    · rw [set_of_ne _ hk] at he'
      obtain ⟨hz', r', hr', hid, hsize⟩ := h.entries key' e' he'
      exact ⟨hz', r', hr'.append _, hid, hsize⟩
  rows := by
    intro key' e' he' hd
    rw [lastRow_append] at he'
    rw [ha.entry]
    by_cases hk : key = key'
    · subst hk
      rw [if_pos rfl] at he'
      cases he'
      rw [set_self, hrow hd]
    · rw [if_neg hk] at he'
      rw [set_of_ne _ (Ne.symm hk)]
      exact h.rows key' e' he' hd
  live := by
    intro key' e' he' hd
    rw [ha.entry] at he'
    rw [lastRow_append, ha.kind]
    by_cases hk : key = key'
    · subst hk
      rw [set_self] at he'
      cases he'
      rw [if_pos rfl]
      exact (hlive hd).imp_left fun he => congrArg some he
    · rw [set_of_ne _ (Ne.symm hk)] at he'
      rw [if_neg hk]
      exact h.live key' e' he' hd

/-- **The invariant is kept** when a record is appended, and the files and the map stay together. -/
theorem VolumeInv.adds (h : VolumeInv v recs log)
    (ha : Adds v v' now key r e row) (hnow : now.toNat < 2 ^ 63) (hlen : v.dat.length < 2 ^ 63)
    (hsound : Sound v' (recs ++ [r]) (log ++ [(key, row)])) (hid : r.needle.id = key)
    (hscan : (some e).filter (fun e => 0 < e.2.toInt) =
      if 0 < r.needle.size.toInt then some (toOffset v.dat.length, r.needle.size) else none) :
    VolumeInv v' (recs ++ [r]) (log ++ [(key, row)]) where
  toSound := hsound
  scan := by
    intro key'
    rw [ha.entry, liveRecords_append, ← h.length_dat]
    by_cases hk : key' = key
    · subst hk
      rw [set_self, hscan, liveStep_self hid]
    · rw [set_of_ne _ hk, h.scan key', liveStep_of_ne fun heq => hk (heq.symm.trans hid)]
  stamps := by
    rw [pairwise_append]
    refine ⟨h.stamps, pairwise_singleton _ _, fun r1 h1 => forall_mem_singleton.2 ?_⟩
    have hle := h.last r1 h1
    rw [UInt64.lt_iff_toNat_lt, h.stamp ha hlen]
    rw [UInt64.le_iff_toNat_le] at hle
    omega
  last := by
    rw [ha.last]
    refine forall_mem_append.2 ⟨fun r' hr' => ?_, forall_mem_singleton.2 (UInt64.le_refl _)⟩
    have hle := h.last r' hr'
    rw [UInt64.le_iff_toNat_le] at hle ⊢
    rw [h.stamp ha hlen]
    omega
  clock := by
    have hclock := h.clock
    have hpos : 0 < r.bytes.length := IsRecord.length_pos ha.complete
    rw [ha.last, h.stamp ha hlen, ha.dat, length_append]
    omega

theorem Sound.at_end (h : Sound v recs log) (below : v.dat.length < maxPossibleVolumeSize) (r : Rec) :
    At (recs ++ [r]) (toOffset v.dat.length).toActualOffset r := by
  rw [h.toActualOffset below, h.length_dat]
  exact At.last recs r

end Storage
