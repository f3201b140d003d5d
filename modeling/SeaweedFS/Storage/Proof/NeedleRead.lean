import SeaweedFS.Storage.NeedleRead
import SeaweedFS.Storage.Proof.NeedleWrite

/-!
# Reading a record back

Each reader of a field takes what the writer of the field wrote (`readName_eq` to `readPairs_eq`), so that a record is
read as what it stores of a needle, `Needle.stored` (`readBytes_record`): a field whose flag is not set is not stored.
-/

namespace Storage

open Lib Util List Needle

/-! ## Fields -/

variable {bytes pre post bs : List UInt8} {m n : Needle}

theorem sliceOf_append (n : Needle) (pre mid post : List UInt8) {start stop : Int}
    (hs : start = pre.length) (he : stop = pre.length + mid.length) :
    sliceOf n (pre ++ mid ++ post) start stop = .ok mid := by
  unfold sliceOf
  rw [if_pos]
  · rw [slice_append pre mid post (by omega) (by omega)]
  · simp only [length_append]
    omega

variable {set : Needle → List UInt8 → Needle} {has : Needle → Bool}

theorem readShort_eq {place : Nat} {setSize : Needle → UInt8 → Needle} {size : UInt8}
    (hbytes : bytes = pre ++ (if has n then size :: bs else []) ++ post)
    (hlen : has n = true → bs.length = size.toNat) :
    readShort has place setSize set bytes n pre.length =
      .ok (if has n then set (setSize n size) bs else n,
        (pre ++ (if has n then size :: bs else [])).length) := by
  unfold readShort
  cases hh : has n with
  | false => simp
  | true =>
    have hl := hlen hh
    rw [hh, if_pos rfl] at hbytes
    have hget : bytes.getD pre.length 0 = size := by
      rw [hbytes, append_assoc]
      simp
    have hsl : slice bytes (pre.length + 1) (pre.length + 1 + size.toNat) = bs := by
      have : bytes = pre ++ [size] ++ bs ++ post := by simp [hbytes]
      rw [this, slice_append (pre ++ [size]) bs post (by simp) (by simp [hl])]
    have hlen' : bytes.length = pre.length + (bs.length + 1) + post.length := by
      rw [hbytes, length_append, length_append, length_cons]
    simp only [hget, and_true, if_true, hsl]
    rw [if_pos (by omega), if_neg (by omega)]
    simp only [length_append, length_cons]
    congr 2
    omega

theorem readFixed_eq {place : Nat} (len : Nat)
    (hbytes : bytes = pre ++ (if has n then bs else []) ++ post) (hpos : 0 < len)
    (hlen : has n = true → bs.length = len) : readFixed has place len set bytes n pre.length =
      .ok (if has n then set n bs else n, (pre ++ (if has n then bs else [])).length) := by
  unfold readFixed
  cases hh : has n with
  | false => simp
  | true =>
    have hl := hlen hh
    rw [hh, if_pos rfl] at hbytes
    have hsl : slice bytes pre.length (pre.length + len) = bs := by
      rw [hbytes, slice_append pre bs post rfl (by omega)]
    have hlen' : bytes.length = pre.length + bs.length + post.length := by
      rw [hbytes, length_append, length_append]
    simp only [and_true, if_true, hsl]
    rw [if_pos (by omega), if_neg (by omega), length_append, hl]

namespace Needle

/-! ## What is stored -/

variable (m n : Needle)

def takeName : Needle :=
  { m with
    nameSize := if n.hasName then n.nameSize else m.nameSize
    name := if n.hasName then n.name.take n.nameSize.toNat else m.name }

def takeMime : Needle :=
  { m with
    mimeSize := if n.hasMime then n.mimeSize else m.mimeSize
    mime := if n.hasMime then n.mime else m.mime }

def takeModified : Needle :=
  { m with lastModified := if n.hasLastModifiedDate then n.lastModified else m.lastModified }

def takeTtl : Needle := { m with ttl := if n.hasTtl then n.ttl else m.ttl }

def takePairs : Needle :=
  { m with
    pairsSize := if n.hasPairs then n.pairsSize else m.pairsSize
    pairs := if n.hasPairs then n.pairs else m.pairs }

/-- The optional fields of `n` whose flag is set. -/
def takeFields : Needle :=
  ((((({ m with flags := n.flags }).takeName n).takeMime n).takeModified n).takeTtl n).takePairs n

theorem takeFields_eq : m.takeFields n = { m with
      flags := n.flags
      nameSize := if n.hasName then n.nameSize else m.nameSize
      name := if n.hasName then n.name.take n.nameSize.toNat else m.name
      mimeSize := if n.hasMime then n.mimeSize else m.mimeSize
      mime := if n.hasMime then n.mime else m.mime
      lastModified := if n.hasLastModifiedDate then n.lastModified else m.lastModified
      ttl := if n.hasTtl then n.ttl else m.ttl
      pairsSize := if n.hasPairs then n.pairsSize else m.pairsSize
      pairs := if n.hasPairs then n.pairs else m.pairs } := rfl

/-- What the body stores. -/
def takeBody : Version → Needle
  | .v1 => { m with data := n.data }
  | _ =>
    if n.dataSize > 0 then ({ m with dataSize := n.dataSize, data := n.data }).takeFields n else m

/-- What the tail stores. -/
def takeTail : Version → Needle
  | .v3 => { m with checksum := n.checksum, appendAtNs := n.appendAtNs }
  | _ => { m with checksum := n.checksum }

/-- What reading a record of `n` makes of `m`. -/
def load (version : Version) : Needle :=
  (({ m with cookie := n.cookie, id := n.id, size := n.size }).takeBody n version).takeTail n version

/-- What a record of `n` stores. -/
def stored (version : Version) : Needle := ({} : Needle).load n version

end Needle

/-! ## The readers take what was written -/

section

variable (hf : m.flags = n.flags)
include hf

theorem readName_eq (hbytes : bytes = pre ++ n.nameField ++ post)
    (hn : n.nameSize.toNat ≤ n.name.length) :
    readName bytes m pre.length = .ok (m.takeName n, (pre ++ n.nameField).length) := by
  have hh : m.hasName = n.hasName := by rw [hasName, hf, hasName]
  unfold nameField at hbytes ⊢
  unfold takeName
  rw [← hh] at hbytes ⊢
  rw [readName, readShort_eq hbytes (fun _ => by rw [length_take, Nat.min_eq_left hn])]
  cases m.hasName <;> rfl

theorem readMime_eq (hbytes : bytes = pre ++ n.mimeField ++ post)
    (hn : n.hasMime = true → n.mime.length = n.mimeSize.toNat) :
    readMime bytes m pre.length = .ok (m.takeMime n, (pre ++ n.mimeField).length) := by
  have hh : m.hasMime = n.hasMime := by rw [hasMime, hf, hasMime]
  unfold mimeField at hbytes ⊢
  unfold takeMime
  rw [← hh] at hbytes hn ⊢
  rw [readMime, readShort_eq hbytes hn]
  cases m.hasMime <;> rfl

theorem readLastModified_eq (hbytes : bytes = pre ++ n.modifiedField ++ post)
    (hn : n.hasLastModifiedDate = true → n.lastModified.toNat < 2 ^ 40) :
    readLastModified bytes m pre.length = .ok (m.takeModified n, (pre ++ n.modifiedField).length) := by
  have hh : m.hasLastModifiedDate = n.hasLastModifiedDate := by
    rw [hasLastModifiedDate, hf, hasLastModifiedDate]
  unfold modifiedField at hbytes ⊢
  unfold takeModified
  rw [← hh] at hbytes hn ⊢
  rw [readLastModified, readFixed_eq lastModifiedBytesLength hbytes (by decide) (fun _ => rfl)]
  cases hset : m.hasLastModifiedDate with
  | true =>
    have hback : bytesToUint64 ((uint64toBytes n.lastModified).drop (8 - lastModifiedBytesLength)) =
        n.lastModified := bytesToUint64_drop3 (hn hset)
    simp only [if_true, hback]
  | false => rfl

theorem readTtl_eq (hbytes : bytes = pre ++ n.ttlField ++ post)
    (hn : n.hasTtl = true → n.ttl.isSome = true) :
    readTtl bytes m pre.length = .ok (m.takeTtl n, (pre ++ n.ttlField).length) := by
  have hh : m.hasTtl = n.hasTtl := by rw [hasTtl, hf, hasTtl]
  have hfield : n.ttlField = if m.hasTtl then (n.ttl.getD {}).toBytes else [] := by
    unfold ttlField
    rw [hh]
    cases ht : n.ttl with
    | none =>
      rw [ht] at hn
      cases hset : n.hasTtl with
      | true => exact absurd (hn hset) (by decide)
      | false => rfl
    | some ttl => rfl
  unfold takeTtl
  rw [hfield] at hbytes ⊢
  rw [← hh] at hn ⊢
  rw [readTtl, readFixed_eq ttlBytesLength hbytes (by decide) (fun _ => rfl)]
  cases hset : m.hasTtl with
  | true =>
    obtain ⟨ttl, ht⟩ := Option.isSome_iff_exists.1 (hn hset)
    rw [ht]
    rfl
  | false => rfl

theorem readPairs_eq (hbytes : bytes = pre ++ n.pairsField ++ post)
    (hn : n.hasPairs = true → n.pairs.length = n.pairsSize.toNat) :
    readPairs bytes m pre.length = .ok (m.takePairs n, (pre ++ n.pairsField).length) := by
  have hh : m.hasPairs = n.hasPairs := by rw [hasPairs, hf, hasPairs]
  unfold pairsField at hbytes ⊢
  unfold takePairs readPairs
  rw [← hh] at hbytes hn ⊢
  cases hset : m.hasPairs with
  | false => simp
  | true =>
    have hl := hn hset
    rw [hset, if_pos rfl] at hbytes
    have hlen : bytes.length = pre.length + (2 + n.pairs.length) + post.length := by
      rw [hbytes, length_append, length_append, length_append, length_uint16toBytes]
    have hsize : slice bytes pre.length (pre.length + 2) = uint16toBytes n.pairsSize := by
      have : bytes = pre ++ uint16toBytes n.pairsSize ++ (n.pairs ++ post) := by simp [hbytes]
      rw [this, slice_append _ _ _ rfl (by simp)]
    have hpairs : slice bytes (pre.length + 2) (pre.length + 2 + n.pairsSize.toNat) = n.pairs := by
      have : bytes = pre ++ uint16toBytes n.pairsSize ++ n.pairs ++ post := by simp [hbytes]
      rw [this, slice_append _ _ _ (by simp) (by simp [hl])]
    simp only [hsize, bytesToUint16_uint16toBytes, hpairs, and_true, if_true]
    rw [if_pos (by omega), if_neg (by omega), if_neg (by omega)]
    simp only [length_append, length_uint16toBytes]
    congr 2
    omega

end

/-! ## The whole body -/

/-- The sizes of the optional fields are right, and the fields can be read back. -/
structure Needle.FieldsSized (n : Needle) : Prop where
  name : n.nameSize.toNat ≤ n.name.length
  mime : n.hasMime = true → n.mime.length = n.mimeSize.toNat
  modified : n.hasLastModifiedDate = true → n.lastModified.toNat < 2 ^ 40
  ttl : n.hasTtl = true → n.ttl.isSome = true
  pairs : n.hasPairs = true → n.pairs.length = n.pairsSize.toNat

/-- The sizes in the needle are those of what is written. -/
structure Needle.Sized (n : Needle) : Prop where
  data : n.dataSize.toNat = n.data.length
  fields : n.data ≠ [] → n.FieldsSized

theorem readNonData_eq (h : n.FieldsSized) :
    m.readNeedleDataVersion2NonData n.nonData = .ok (m.takeFields n, n.nonData.length) := by
  have hflags : readFlags n.nonData m 0 = ({ m with flags := n.flags }, [n.flags].length) := by
    unfold readFlags
    simp [nonData]
  let m0 : Needle := { m with flags := n.flags }
  have f0 : m0.flags = n.flags := rfl
  have f1 : (m0.takeName n).flags = n.flags := rfl
  have f2 : ((m0.takeName n).takeMime n).flags = n.flags := rfl
  have f3 : (((m0.takeName n).takeMime n).takeModified n).flags = n.flags := rfl
  have f4 : ((((m0.takeName n).takeMime n).takeModified n).takeTtl n).flags = n.flags := rfl
  have b1 : n.nonData = [n.flags] ++ n.nameField ++
      (n.mimeField ++ n.modifiedField ++ n.ttlField ++ n.pairsField) := by simp [nonData]
  have b2 : n.nonData = ([n.flags] ++ n.nameField) ++ n.mimeField ++
      (n.modifiedField ++ n.ttlField ++ n.pairsField) := by simp [nonData]
  have b3 : n.nonData = ([n.flags] ++ n.nameField ++ n.mimeField) ++ n.modifiedField ++
      (n.ttlField ++ n.pairsField) := by simp [nonData]
  have b4 : n.nonData = ([n.flags] ++ n.nameField ++ n.mimeField ++ n.modifiedField) ++
      n.ttlField ++ n.pairsField := rfl
  have b5 : n.nonData = ([n.flags] ++ n.nameField ++ n.mimeField ++ n.modifiedField ++
      n.ttlField) ++ n.pairsField ++ [] := by simp [nonData]
  show (readName n.nonData m0 [n.flags].length >>= _) = _
  rw [readName_eq f0 b1 h.name]
  show (readMime n.nonData (m0.takeName n) _ >>= _) = _
  rw [readMime_eq f1 b2 h.mime]
  show (readLastModified n.nonData ((m0.takeName n).takeMime n) _ >>= _) = _
  rw [readLastModified_eq f2 b3 h.modified]
  show (readTtl n.nonData (((m0.takeName n).takeMime n).takeModified n) _ >>= _) = _
  rw [readTtl_eq f3 b4 h.ttl]
  show readPairs n.nonData ((((m0.takeName n).takeMime n).takeModified n).takeTtl n) _ = _
  rw [readPairs_eq f4 b5 h.pairs]
  rfl

theorem readNeedleDataVersion2_eq (h : n.Sized) {version : Version} (hv : version ≠ .v1) (rest : List UInt8) :
    m.readNeedleDataVersion2 (n.body version ++ rest) (n.body version).length =
      .ok (m.takeBody n version) := by
  have hbody : n.body version =
      if n.dataSize > 0 then uint32toBytes n.dataSize ++ n.data ++ n.nonData else [] := by
    cases version with
    | v1 => exact absurd rfl hv
    | v2 | v3 => rfl
  have htake : m.takeBody n version = if n.dataSize > 0 then
      ({ m with dataSize := n.dataSize, data := n.data }).takeFields n else m := by
    cases version with
    | v1 => exact absurd rfl hv
    | v2 | v3 => rfl
  have hd := h.data
  rw [hbody, htake]
  by_cases hpos : n.dataSize > 0
  · rw [if_pos hpos, if_pos hpos]
    have hlen : (uint32toBytes n.dataSize ++ n.data ++ n.nonData).length =
        4 + n.dataSize.toNat + n.nonData.length := by
      rw [length_append, length_append, length_uint32toBytes, hd]
    have hsize : sliceOf m (uint32toBytes n.dataSize ++ n.data ++ n.nonData ++ rest) 0 4 =
        .ok (uint32toBytes n.dataSize) := by
      have e : uint32toBytes n.dataSize ++ n.data ++ n.nonData ++ rest =
          [] ++ uint32toBytes n.dataSize ++ (n.data ++ n.nonData ++ rest) := by simp
      rw [e]
      exact sliceOf_append m _ _ _ rfl rfl
    have hdata : slice (uint32toBytes n.dataSize ++ n.data ++ n.nonData ++ rest) 4
        (4 + n.dataSize.toNat) = n.data := by
      rw [append_assoc _ n.nonData]
      exact slice_append _ _ _ rfl (by simp [hd])
    have hnon : slice (uint32toBytes n.dataSize ++ n.data ++ n.nonData ++ rest)
        (4 + n.dataSize.toNat) (uint32toBytes n.dataSize ++ n.data ++ n.nonData).length =
          n.nonData := slice_append _ _ _ (by simp [hd]) (length_append)
    rw [Needle.readNeedleDataVersion2, if_pos (by omega), hsize]
    simp only [bind, Except.bind, pure, Except.pure, bytesToUint32_uint32toBytes]
    rw [if_neg (by omega)]
    have hne : n.data ≠ [] := by
      rw [← length_pos_iff, ← hd]
      exact UInt32.lt_iff_toNat_lt.1 hpos
    simp only [hdata, hnon, readNonData_eq (h.fields hne)]
  · rw [if_neg hpos, if_neg hpos]
    rfl

/-! ## Header and tail -/

variable {version : Version}

theorem parseNeedleHeader_eq (rest : List UInt8) : m.parseNeedleHeader (n.header ++ rest) =
      .ok { m with cookie := n.cookie, id := n.id, size := n.size } := by
  have hc : slice (n.header ++ rest) 0 cookieSize = cookieToBytes n.cookie := by
    have e : n.header ++ rest = [] ++ cookieToBytes n.cookie ++
        (needleIdToBytes n.id ++ sizeToBytes n.size ++ rest) := by simp [header]
    rw [e]
    exact slice_append _ _ _ rfl rfl
  have hi : slice (n.header ++ rest) cookieSize (cookieSize + needleIdSize) = needleIdToBytes n.id := by
    have e : n.header ++ rest = cookieToBytes n.cookie ++ needleIdToBytes n.id ++
        (sizeToBytes n.size ++ rest) := by simp [header]
    rw [e]
    exact slice_append _ _ _ rfl rfl
  have hs : slice (n.header ++ rest) (cookieSize + needleIdSize) needleHeaderSize =
      sizeToBytes n.size :=
    slice_append (cookieToBytes n.cookie ++ needleIdToBytes n.id) (sizeToBytes n.size) rest rfl rfl
  unfold parseNeedleHeader
  rw [if_pos (by simp), hc, hi, hs]
  simp

theorem readNeedleTail_eq (pad : List UInt8) (hcrc : m.data ≠ [] → n.checksum = newCRC m.data) :
    m.readNeedleTail (n.tail version ++ pad) version = .ok (m.takeTail n version) := by
  have hsum : ∀ rest, sliceOf m (uint32toBytes n.checksum ++ rest) 0 needleChecksumSize =
      .ok (uint32toBytes n.checksum) := fun rest =>
    sliceOf_append m [] (uint32toBytes n.checksum) rest rfl rfl
  have hok : ¬ (m.data.length > 0 ∧ n.checksum ≠ newCRC m.data) := by
    rintro ⟨hpos, hne⟩
    exact hne (hcrc (List.length_pos_iff.1 hpos))
  unfold Needle.readNeedleTail
  cases version with
  | v1 | v2 =>
    show (sliceOf m (uint32toBytes n.checksum ++ pad) 0 needleChecksumSize >>= _) = _
    rw [hsum pad]
    simp only [bind, Except.bind, bytesToUint32_uint32toBytes]
    rw [if_neg hok]
    rfl
  | v3 =>
    have hstamp : ∀ k : Needle, sliceOf k (n.tail .v3 ++ pad) needleChecksumSize
        (needleChecksumSize + timestampSize : Nat) = .ok (uint64toBytes n.appendAtNs) := fun k =>
      sliceOf_append k (uint32toBytes n.checksum) (uint64toBytes n.appendAtNs) pad rfl rfl
    have htail : n.tail .v3 ++ pad = uint32toBytes n.checksum ++ (uint64toBytes n.appendAtNs ++ pad) :=
      append_assoc _ _ _
    have hsum3 : sliceOf m (n.tail .v3 ++ pad) 0 needleChecksumSize =
        .ok (uint32toBytes n.checksum) := by rw [htail, hsum]
    rw [hsum3]
    simp only [bind, Except.bind, bytesToUint32_uint32toBytes]
    rw [if_neg hok]
    simp only [hstamp, bytesToUint64_uint64toBytes]
    rfl

/-! ## Records -/

/-- A record of the needle can be read. -/
structure Needle.Readable (n : Needle) (version : Version) : Prop where
  sized : version ≠ .v1 → n.Sized
  crc : n.data ≠ [] → n.checksum = newCRC n.data

theorem takeBody_of_pos (hv : version ≠ .v1) (hpos : n.dataSize > 0) : m.takeBody n version =
    ({ m with dataSize := n.dataSize, data := n.data }).takeFields n := by
  cases version with
  | v1 => exact absurd rfl hv
  | v2 | v3 => exact if_pos hpos

theorem takeBody_data (hm : m.data = []) (h : (m.takeBody n version).data ≠ []) :
    (m.takeBody n version).data = n.data := by
  cases version with
  | v1 => rfl
  | v2 | v3 =>
    unfold takeBody at h ⊢
    simp only at h ⊢
    split
    · rfl
    · rename_i hz
      rw [if_neg hz] at h
      exact absurd hm h

/-- **A record is read** as what it stores. -/
theorem readBytes_record (h : IsRecord version n (n.body version) bytes)
    (hr : n.Readable version) (hm : m.data = []) (offset : Nat) :
    m.readBytes bytes offset n.size version = .ok (m.load n version) := by
  obtain ⟨⟨h0, hfits⟩, hbody, pad, rfl, hpad⟩ := h
  let m1 : Needle := { m with cookie := n.cookie, id := n.id, size := n.size }
  have hparse : m.parseNeedleHeader (n.header ++ n.body version ++ n.tail version ++ pad) = .ok m1 := by
    exact parseNeedleHeader_eq _
  have h16 : (16 + n.size : Size).toInt = 16 + n.size.toInt := by
    have e16 : (16 : Int32).toInt = 16 := rfl
    have e : (needleHeaderSize : Int) = 16 := rfl
    rw [toInt_add_of_lt, e16] <;> omega
  have hbodySlice : ∀ stop : Int, stop = 16 + n.size.toInt →
      sliceOf m1 (n.header ++ n.body version ++ n.tail version ++ pad) needleHeaderSize stop =
        .ok (n.body version) := by
    intro stop hstop
    rw [append_assoc (n.header ++ n.body version)]
    refine sliceOf_append m1 _ _ _ rfl ?_
    rw [hstop, hbody]
    rfl
  have hread : m1.readBodyOf (n.header ++ n.body version ++ n.tail version ++ pad) n.size version =
      .ok (m1.takeBody n version) := by
    unfold Needle.readBodyOf
    by_cases hv : version = .v1
    · rw [if_pos hv, hbodySlice _ h16, hv]
      rfl
    · have hdrop : (n.header ++ n.body version ++ n.tail version ++ pad).drop needleHeaderSize =
          n.body version ++ (n.tail version ++ pad) := by
        rw [append_assoc, append_assoc]
        exact drop_left' (length_header n)
      have hlen : n.size.toInt.toNat = (n.body version).length := by omega
      rw [if_neg hv, hbodySlice (needleHeaderSize + n.size.toInt) rfl, hdrop, hlen]
      exact readNeedleDataVersion2_eq (hr.sized hv) hv _
  have htail : ∀ k : Needle, sliceOf k (n.header ++ n.body version ++ n.tail version ++ pad)
      (16 + n.size : Size).toInt
      (n.header ++ n.body version ++ n.tail version ++ pad).length = .ok (n.tail version ++ pad) := by
    intro k
    have e : n.header ++ n.body version ++ n.tail version ++ pad =
        (n.header ++ n.body version) ++ (n.tail version ++ pad) ++ [] := by simp
    rw [e]
    refine sliceOf_append k _ _ _ ?_ ?_
    · rw [h16, length_append, length_header]
      push_cast
      rw [hbody]
      rfl
    · rw [append_nil, length_append]
      exact Int.natCast_add _ _
  have hcrc : (m1.takeBody n version).data ≠ [] → n.checksum = newCRC (m1.takeBody n version).data := by
    intro hne
    have hdata := takeBody_data (m := m1) hm hne
    rw [hdata] at hne ⊢
    exact hr.crc hne
  unfold Needle.readBytes
  rw [hparse]
  simp only [bind, Except.bind]
  rw [if_neg (by simp [m1])]
  simp only [hread, htail]
  exact readNeedleTail_eq pad hcrc

theorem takeBody_size : (m.takeBody n version).size = m.size := by
  cases version with
  | v1 => rfl
  | v2 | v3 =>
    unfold takeBody
    dsimp only
    split <;> rfl

theorem readNeedleBodyBytes_record {pad : List UInt8} (hbody : ((n.body version).length : Int) = n.size.toInt)
    (hr : n.Readable version) (hm : m.data = []) (hs : m.size = n.size) :
    m.readNeedleBodyBytes (n.body version ++ n.tail version ++ pad) version =
      .ok ((m.takeBody n version).takeTail n version) := by
  have hslice : sliceOf m (n.body version ++ n.tail version ++ pad) 0 m.size.toInt =
      .ok (n.body version) := by
    have e : n.body version ++ n.tail version ++ pad =
        [] ++ n.body version ++ (n.tail version ++ pad) := by simp
    rw [e]
    refine sliceOf_append m _ _ _ rfl ?_
    rw [hs, hbody]
    simp
  have hread : m.readBodyBefore (n.body version ++ n.tail version ++ pad) version =
      .ok (m.takeBody n version) := by
    unfold Needle.readBodyBefore
    rw [hslice]
    simp only [bind, Except.bind]
    by_cases hv : version = .v1
    · rw [if_pos hv, hv]
      rfl
    · have hlen : m.size.toInt.toNat = (n.body version).length := by
        rw [hs]
        omega
      rw [if_neg hv, hlen, append_assoc]
      exact readNeedleDataVersion2_eq (hr.sized hv) hv _
  have htail : sliceOf (m.takeBody n version) (n.body version ++ n.tail version ++ pad)
      (m.takeBody n version).size.toInt (n.body version ++ n.tail version ++ pad).length =
        .ok (n.tail version ++ pad) := by
    have e : n.body version ++ n.tail version ++ pad =
        n.body version ++ (n.tail version ++ pad) ++ [] := by simp
    rw [e]
    refine sliceOf_append _ _ _ _ ?_ ?_
    · rw [takeBody_size, hs, hbody]
    · rw [append_nil, length_append]
      exact Int.natCast_add _ _
  have hne : (n.body version ++ n.tail version ++ pad).length ≠ 0 := by
    cases version <;> simp [tailSize, needleChecksumSize]
  unfold Needle.readNeedleBodyBytes
  rw [if_neg hne, hread]
  simp only [bind, Except.bind]
  rw [htail]
  refine readNeedleTail_eq pad fun hd => ?_
  have hdata := takeBody_data hm hd
  rw [hdata] at hd ⊢
  exact hr.crc hd

/-! ## The round trip -/

theorem sizedAs_eq (hv : version ≠ .v1) : n.sizedAs version = n.sized := by
  cases version with
  | v1 => exact absurd rfl hv
  | v2 | v3 => rfl

theorem sized_sizedAs (hf : n.Fits version) (hv : version ≠ .v1)
    (hm : n.data ≠ [] → n.hasLastModifiedDate = true → n.lastModified.toNat < 2 ^ 40) :
    (n.sizedAs version).Sized := by
  have hlt := hf.data_lt
  rw [sizedAs_eq hv]
  refine ⟨toNat_sized_dataSize n (by omega), fun hd => ?_⟩
  have hfit := hf.fields hv hd
  exact
    { name := by
        rw [toNat_sized_nameSize]
        exact Nat.min_le_right _ _
      mime := fun h => (toNat_sized_mimeSize n (hfit.mime h)).symm
      modified := hm hd
      ttl := hfit.ttl
      pairs := hfit.pairs }

theorem readable_sizedAs (hf : n.Fits version)
    (hm : n.data ≠ [] → n.hasLastModifiedDate = true → n.lastModified.toNat < 2 ^ 40)
    (hcrc : n.data ≠ [] → n.checksum = newCRC n.data) : (n.sizedAs version).Readable version where
  sized hv := sized_sizedAs hf hv hm
  crc := by cases version <;> exact hcrc

/-- `m` has the fields of `n` that a record stores. -/
structure Needle.Restored (n m : Needle) (version : Version) : Prop where
  id : m.id = n.id
  cookie : m.cookie = n.cookie
  data : m.data = n.data
  flags : m.flags = n.flags
  name : m.name = if n.hasName then n.name.take 255 else []
  mime : m.mime = if n.hasMime then n.mime else []
  lastModified : m.lastModified = if n.hasLastModifiedDate then n.lastModified else 0
  ttl : m.ttl = if n.hasTtl then n.ttl else none
  pairs : m.pairs = if n.hasPairs then n.pairs else []
  appendAtNs : version = .v3 → m.appendAtNs = n.appendAtNs

theorem restored_stored (hf : n.Fits version) (hv : version ≠ .v1) (hd : n.data ≠ []) :
    n.Restored ((n.sizedAs version).stored version) version := by
  have hlt := hf.data_lt
  have hpos : n.sized.dataSize > 0 := (sized_dataSize_pos (by omega)).2 hd
  have hname : n.name.take n.sized.nameSize.toNat = n.name.take 255 := by
    rw [toNat_sized_nameSize]
    rcases Nat.le_total 255 n.name.length with h | h
    · rw [Nat.min_eq_left h]
    · rw [Nat.min_eq_right h, take_length, take_of_length_le h]
  have hst : version ≠ .v1 → (n.sizedAs version).stored version =
      (({ cookie := n.cookie, id := n.id, size := n.sized.size, dataSize := n.sized.dataSize,
          data := n.data : Needle }).takeFields n.sized).takeTail n.sized version := by
    intro hv
    rw [stored, load, sizedAs_eq hv, takeBody_of_pos hv hpos]
    rfl
  rw [hst hv, takeFields_eq]
  cases version with
  | v1 => exact absurd rfl hv
  | v2 => exact ⟨rfl, rfl, rfl, rfl, by rw [← hname]; rfl, rfl, rfl, rfl, rfl, by simp⟩
  | v3 => exact ⟨rfl, rfl, rfl, rfl, by rw [← hname]; rfl, rfl, rfl, rfl, rfl, fun _ => rfl⟩

/-- **The round trip**: a needle with data that is written in version 2 or 3 is read back from its
bytes, as far as it is stored. -/
theorem readBytes_writeNeedle (hv : version ≠ .v1) (hd : n.data ≠ []) (hf : n.Fits version)
    (hm : n.hasLastModifiedDate = true → n.lastModified.toNat < 2 ^ 40)
    (hcrc : n.checksum = newCRC n.data) (offset : Nat) :
    ∃ w m, writeNeedleByVersion version n = .ok w ∧
      (w.bytes.length : Int) = getActualSize w.needle.size version ∧ w.bytes.length % 8 = 0 ∧
      ({} : Needle).readBytes w.bytes offset w.needle.size version = .ok m ∧
      n.Restored m version := by
  obtain ⟨w, hw, hneedle, hrec⟩ := writeNeedleByVersion_eq hf
  refine ⟨w, (n.sizedAs version).stored version, hw, ?_, hrec.aligned, ?_, restored_stored hf hv hd⟩
  · rw [hneedle, hrec.length_eq]
  · rw [hneedle]
    exact readBytes_record hrec (readable_sizedAs hf (fun _ => hm) (fun _ => hcrc)) rfl offset

/-- A needle with a name, a mime type, a time, a time to live and pairs. -/
def fullNeedle : Needle where
  cookie := 7
  id := 9
  data := [1, 2, 3]
  flags := 0x3e
  name := [97]
  mime := [116, 120]
  pairsSize := 2
  pairs := [123, 125]
  lastModified := 5
  ttl := some { count := 3, unit := 2 }
  checksum := newCRC [1, 2, 3]
  appendAtNs := 11

theorem fits_fullNeedle : fullNeedle.Fits .v3 where
  fields _ _ := ⟨by decide, by decide, by decide⟩
  size := by decide

theorem readBytes_writeNeedle_full :
    ∃ w m, writeNeedleByVersion .v3 fullNeedle = .ok w ∧
      (w.bytes.length : Int) = getActualSize w.needle.size .v3 ∧ w.bytes.length % 8 = 0 ∧
      ({} : Needle).readBytes w.bytes 8 w.needle.size .v3 = .ok m ∧ fullNeedle.Restored m .v3 :=
  readBytes_writeNeedle (by decide) (by decide) fits_fullNeedle (by decide) rfl 8

/-- A needle with a name, but without the flag that says so. -/
def unflaggedNeedle : Needle where
  data := [1]
  name := [97]
  checksum := newCRC [1]

theorem fits_unflaggedNeedle : unflaggedNeedle.Fits .v3 where
  fields _ _ := ⟨by decide, by decide, by decide⟩
  size := by decide

/-- Without its flag a field is lost. -/
theorem readBytes_unflagged :
    unflaggedNeedle.data ≠ [] ∧ unflaggedNeedle.Fits .v3 ∧ unflaggedNeedle.mime.length < 256 ∧
      unflaggedNeedle.pairs.length = unflaggedNeedle.pairsSize.toNat ∧
      unflaggedNeedle.lastModified.toNat < 2 ^ 40 ∧
      unflaggedNeedle.checksum = newCRC unflaggedNeedle.data ∧
      ∃ w m, writeNeedleByVersion .v3 unflaggedNeedle = .ok w ∧
        ({} : Needle).readBytes w.bytes 8 w.needle.size .v3 = .ok m ∧
        m.name ≠ unflaggedNeedle.name.take 255 := by
  obtain ⟨w, hw, hneedle, hrec⟩ := writeNeedleByVersion_eq fits_unflaggedNeedle
  have hr := readable_sizedAs fits_unflaggedNeedle (by decide) (fun _ => rfl)
  refine ⟨by decide, fits_unflaggedNeedle, by decide, rfl, by decide, rfl, w,
    (unflaggedNeedle.sizedAs .v3).stored .v3, hw, ?_, by decide⟩
  rw [hneedle]
  exact readBytes_record hrec hr rfl 8

end Storage
