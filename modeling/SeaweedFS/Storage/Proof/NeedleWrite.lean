import SeaweedFS.Storage.NeedleWrite

/-!
# What the writers write

`Needle.header`, `Needle.body` and `Needle.tail` are the parts of a record. For a needle whose encoded size fits
(`Needle.Fits`) the writer of every version writes these and a padding up to a multiple of eight
(`writeNeedleByVersion_eq`).
-/

namespace Storage

open Lib Util List Needle

/-! ## The parts of a record -/

namespace Needle

def nameField (n : Needle) : List UInt8 :=
  if n.hasName then n.nameSize :: n.name.take n.nameSize.toNat else []

def mimeField (n : Needle) : List UInt8 := if n.hasMime then n.mimeSize :: n.mime else []

def modifiedField (n : Needle) : List UInt8 :=
  if n.hasLastModifiedDate then (uint64toBytes n.lastModified).drop (8 - lastModifiedBytesLength)
  else []

def ttlField (n : Needle) : List UInt8 :=
  match n.ttl with
  | some ttl => if n.hasTtl then ttl.toBytes else []
  | none => []

def pairsField (n : Needle) : List UInt8 :=
  if n.hasPairs then uint16toBytes n.pairsSize ++ n.pairs else []

/-- What follows the data. -/
def nonData (n : Needle) : List UInt8 :=
  [n.flags] ++ n.nameField ++ n.mimeField ++ n.modifiedField ++ n.ttlField ++ n.pairsField

/-- The body of a record. -/
def body (n : Needle) : Version → List UInt8
  | .v1 => n.data
  | _ => if n.dataSize > 0 then uint32toBytes n.dataSize ++ n.data ++ n.nonData else []

/-- What follows the body. -/
def tail (n : Needle) : Version → List UInt8
  | .v3 => uint32toBytes n.checksum ++ uint64toBytes n.appendAtNs
  | _ => uint32toBytes n.checksum

/-- The needle with the sizes that the writer sets. -/
def sizedAs (n : Needle) : Version → Needle
  | .v1 => { n with size := Int32.ofNat n.data.length }
  | _ => n.sized

/-- The length of the body, as a number. -/
def encodedSize (n : Needle) : Version → Nat
  | .v1 => n.data.length
  | _ =>
    if n.data = [] then 0
    else
      4 + n.data.length + 1 + (if n.hasName then 1 + min 255 n.name.length else 0) +
        (if n.hasMime then 1 + n.mime.length else 0) + (if n.hasLastModifiedDate then 5 else 0) +
        (if n.hasTtl then 2 else 0) + (if n.hasPairs then 2 + n.pairsSize.toNat else 0)

/-- What is in the fields agrees with their sizes. -/
structure FieldsFit (n : Needle) : Prop where
  mime : n.hasMime = true → n.mime.length < 256
  pairs : n.hasPairs = true → n.pairs.length = n.pairsSize.toNat
  ttl : n.hasTtl = true → n.ttl.isSome = true

/-- The needle can be written: the fields that are written agree with their sizes, and the record up
to its padding has a length within `int32`. -/
structure Fits (n : Needle) (version : Version) : Prop where
  fields : version ≠ .v1 → n.data ≠ [] → n.FieldsFit
  size : needleHeaderSize + n.encodedSize version + tailSize version < 2 ^ 31

end Needle

@[simp] theorem length_header (n : Needle) : n.header.length = needleHeaderSize := rfl

@[simp] theorem length_tail (n : Needle) (version : Version) :
    (n.tail version).length = tailSize version := by
  cases version <;> rfl

/-! ## The scratch slice -/

/-- `b'` is `b` after `bs` was written. -/
structure Emits (b b' : WriteBuffer) (bs : List UInt8) : Prop where
  header : b'.header.length = b.header.length
  out : b'.out = b.out ++ bs

namespace Emits

variable {b b' b'' : WriteBuffer} {bs bs' : List UInt8}

theorem trans (h : Emits b b' bs) (h' : Emits b' b'' bs') : Emits b b'' (bs ++ bs') where
  header := h'.header.trans h.header
  out := by rw [h'.out, h.out, append_assoc]

theorem congr (h : Emits b b' bs) (hbs : bs = bs') : Emits b b' bs' := hbs ▸ h

theorem refl (b : WriteBuffer) : Emits b b [] where
  header := rfl
  out := (append_nil _).symm

theorem write (b : WriteBuffer) (bs : List UInt8) : Emits b (b.write bs) bs := ⟨rfl, rfl⟩

theorem field (bs : List UInt8) (start : Nat) (h : bs.length ≤ b.header.length) :
    Emits b (b.field bs start) (bs.drop start) where
  header := by simp [WriteBuffer.field]
  out := by
    show b.out ++ slice (Lib.writeAt b.header 0 bs) start bs.length = _
    rw [writeAt_zero h, slice, drop_append, take_append, length_drop,
      take_of_length_le (by simp), Nat.sub_self, take_zero, append_nil]

theorem fieldWrite (bs' : List UInt8) (h : bs.length ≤ b.header.length) :
    Emits b ((b.field bs).write bs') (bs ++ bs') :=
  (field bs 0 h).trans (write _ bs')

theorem room (h : Emits b b' bs) {k : Nat} (hb : k ≤ b.header.length) : k ≤ b'.header.length :=
  h.header ▸ hb

end Emits

theorem footer_eq {b : WriteBuffer} {bs : List UInt8} {padding : Size} (h0 : 0 ≤ padding.toInt)
    (h : bs.length + padding.toInt ≤ b.header.length) :
    ∃ b' pad, b.footer bs padding = .ok b' ∧ b'.out = b.out ++ bs ++ pad ∧
      (pad.length : Int) = padding.toInt := by
  have hbs : bs.length ≤ b.header.length := by omega
  let b' : WriteBuffer :=
    { header := Lib.writeAt b.header 0 bs
      out := b.out ++ slice (Lib.writeAt b.header 0 bs) 0 (bs.length + padding.toInt).toNat }
  refine ⟨b', (b.header.drop bs.length).take padding.toInt.toNat, ?_, ?_, ?_⟩
  · exact if_pos ⟨by omega, by rw [length_writeAt]; exact h⟩
  · have hk : (bs.length + padding.toInt).toNat = bs.length + padding.toInt.toNat := by omega
    show b.out ++ slice (Lib.writeAt b.header 0 bs) 0 (bs.length + padding.toInt).toNat = _
    rw [writeAt_zero hbs, slice, drop_zero, Nat.sub_zero, hk, take_length_add_append, append_assoc]
  · simp only [length_take, length_drop]
    omega

/-! ## The body -/

section
variable (n : Needle) {b : WriteBuffer}

section

variable (hb : 8 ≤ b.header.length)
include hb

theorem emits_name :
    Emits b (if n.hasName then (b.field [n.nameSize]).write (n.name.take n.nameSize.toNat) else b)
      n.nameField := by
  unfold nameField
  split
  · exact .fieldWrite _ (show 1 ≤ _ by omega)
  · exact .refl b

theorem emits_mime :
    Emits b (if n.hasMime then (b.field [n.mimeSize]).write n.mime else b) n.mimeField := by
  unfold mimeField
  split
  · exact .fieldWrite _ (show 1 ≤ _ by omega)
  · exact .refl b

theorem emits_modified : Emits b (if n.hasLastModifiedDate then
      b.field (uint64toBytes n.lastModified) (8 - lastModifiedBytesLength) else b) n.modifiedField := by
  unfold modifiedField
  split
  · exact .field _ _ (by simpa using hb)
  · exact .refl b

theorem emits_ttl : Emits b (match n.ttl with
      | some ttl => if n.hasTtl then b.field ttl.toBytes else b
      | none => b) n.ttlField := by
  unfold ttlField
  cases n.ttl with
  | none => exact .refl b
  | some ttl =>
    show Emits b (if n.hasTtl then b.field ttl.toBytes else b) (if n.hasTtl then ttl.toBytes else [])
    split
    · exact .field _ 0 (show 2 ≤ _ by omega)
    · exact .refl b

theorem emits_pairs :
    Emits b (if n.hasPairs then (b.field (uint16toBytes n.pairsSize)).write n.pairs else b)
      n.pairsField := by
  unfold pairsField
  split
  · exact .fieldWrite _ (show 2 ≤ _ by omega)
  · exact .refl b

theorem emits_body :
    Emits b (writeNeedleBody n b) (uint32toBytes n.dataSize ++ n.data ++ n.nonData) := by
  have h1 : Emits b _ (uint32toBytes n.dataSize ++ n.data) :=
    .fieldWrite n.data (show 4 ≤ _ by omega)
  have h2 := h1.trans (.field [n.flags] 0 (show 1 ≤ _ from h1.room (by omega)))
  have h3 := h2.trans (emits_name n (h2.room hb))
  have h4 := h3.trans (emits_mime n (h3.room hb))
  have h5 := h4.trans (emits_modified n (h4.room hb))
  have h6 := h5.trans (emits_ttl n (h5.room hb))
  have h7 : Emits b (writeNeedleBody n b) _ := h6.trans (emits_pairs n (h6.room hb))
  exact h7.congr (by simp only [nonData, append_assoc, drop_zero])

end

end

/-! ## Sizes -/

theorem toInt_add_of_lt {a b : Int32} (ha : 0 ≤ a.toInt) (hb : 0 ≤ b.toInt)
    (h : a.toInt + b.toInt < 2 ^ 31) : (a + b).toInt = a.toInt + b.toInt := by
  rw [Int32.toInt_add, Int.bmod_eq_of_le] <;> omega

/-- The size `s` leaves room for header and tail within `int32`. -/
def SizeFits (s : Size) (version : Version) : Prop :=
  0 ≤ s.toInt ∧ needleHeaderSize + s.toInt + tailSize version < 2 ^ 31

variable {s : Size} {version : Version}

/-- **The padding** fills up to a multiple of eight. -/
theorem paddingLength_toInt (h : SizeFits s version) : (paddingLength s version).toInt =
      8 - (needleHeaderSize + s.toInt + tailSize version) % 8 := by
  obtain ⟨h0, h⟩ := h
  have e4 : (4 : Int32).toInt = 4 := rfl
  have e8 : (8 : Int32).toInt = 8 := rfl
  have e16 : (16 : Int32).toInt = 16 := rfl
  have hsub : ∀ x : Int32, 0 ≤ x.toInt → (8 - x % 8).toInt = 8 - x.toInt % 8 := by
    intro x hx
    rw [Int32.toInt_sub, Int32.toInt_mod, e8, Int.tmod_eq_emod_of_nonneg hx, Int.bmod_eq_of_le] <;>
      omega
  have hs : needleHeaderSize + s.toInt + tailSize version = 16 + s.toInt + tailSize version := rfl
  have h1 : (16 + s).toInt = 16 + s.toInt := by rw [toInt_add_of_lt] <;> omega
  have h2 : ∀ k : Nat, 4 ≤ k → 16 + s.toInt + k < 2 ^ 31 → (16 + s + 4).toInt = 16 + s.toInt + 4 := by
    intro k hk hlt
    rw [toInt_add_of_lt] <;> omega
  unfold paddingLength
  cases version with
  | v1 | v2 =>
    have h2 := h2 4 (by omega) h
    rw [if_neg (by decide), hsub _ (by omega), h2]
    rfl
  | v3 =>
    have h2 := h2 12 (by omega) h
    have h' : 16 + s.toInt + 12 < 2 ^ 31 := h
    have h3 : (16 + s + 4 + 8).toInt = 16 + s.toInt + 12 := by
      rw [toInt_add_of_lt] <;> omega
    rw [if_pos rfl, hsub _ (by omega), h3]
    rfl

theorem getActualSize_eq (h : SizeFits s version) :
    getActualSize s version = needleHeaderSize + s.toInt + tailSize version +
      (8 - (needleHeaderSize + s.toInt + tailSize version) % 8) := by
  rw [getActualSize, needleBodyLength, paddingLength_toInt h]
  omega

theorem paddingLength_pos (s : Size) (version : Version) : 0 < (paddingLength s version).toInt := by
  have e8 : (8 : Int32).toInt = 8 := rfl
  have hpad : ∀ x : Int32, 0 < (8 - x % 8).toInt := by
    intro x
    have hlt := Int.tmod_lt_of_pos x.toInt (show (0 : Int) < 8 by decide)
    have hgt := Int.lt_tmod_of_pos x.toInt (show (0 : Int) < 8 by decide)
    rw [Int32.toInt_sub, Int32.toInt_mod, e8, Int.bmod_eq_of_le] <;> omega
  unfold paddingLength
  split <;> exact hpad _

theorem getActualSize_pos (h : 0 ≤ s.toInt) (version : Version) : 0 < getActualSize s version := by
  have := paddingLength_pos s version
  unfold getActualSize needleBodyLength
  omega

/-! ## The sizes that the writer sets -/

section
variable (n : Needle)

@[simp] theorem sized_hasName : n.sized.hasName = n.hasName := rfl
@[simp] theorem sized_hasMime : n.sized.hasMime = n.hasMime := rfl
@[simp] theorem sized_hasLastModifiedDate : n.sized.hasLastModifiedDate = n.hasLastModifiedDate := rfl
@[simp] theorem sized_hasPairs : n.sized.hasPairs = n.hasPairs := rfl

theorem toNat_sized_nameSize : n.sized.nameSize.toNat = min 255 n.name.length := by
  show (if n.name.length ≥ 255 then 255 else UInt8.ofNat n.name.length : UInt8).toNat = _
  split
  · rw [Nat.min_eq_left (by omega)]
    rfl
  · rw [UInt8.toNat_ofNat_of_lt' (by show n.name.length < 256; omega)]
    omega

theorem toNat_sized_mimeSize (h : n.mime.length < 256) : n.sized.mimeSize.toNat = n.mime.length :=
  UInt8.toNat_ofNat_of_lt' h

theorem toNat_sized_dataSize (h : n.data.length < 2 ^ 32) : n.sized.dataSize.toNat = n.data.length :=
  UInt32.toNat_ofNat_of_lt' h

end

theorem addPart {t : Size} {k l : Nat} {c : Bool} (hs : s = Int32.ofNat k)
    (ht : c = true → t = s + Int32.ofNat l) :
    (if c then t else s) = Int32.ofNat (k + if c then l else 0) := by
  cases c with
  | true => rw [if_pos rfl, if_pos rfl, ht rfl, hs, Int32.ofNat_add]
  | false => exact hs

theorem toInt32_eq_ofNat8 (x : UInt8) : x.toUInt32.toInt32 = Int32.ofNat x.toNat := by
  have : x.toUInt32 = UInt32.ofNat x.toNat := by
    simp
  rw [this, UInt32.toInt32_ofNat']

theorem toInt32_eq_ofNat16 (x : UInt16) : x.toUInt32.toInt32 = Int32.ofNat x.toNat := by
  have : x.toUInt32 = UInt32.ofNat x.toNat := by
    simp
  rw [this, UInt32.toInt32_ofNat']

variable {n : Needle}

theorem Needle.Fits.data_lt (h : n.Fits version) : n.data.length < 2 ^ 31 := by
  have := h.size
  unfold encodedSize at this
  cases version with
  | v1 => simp only at this; omega
  | v2 | v3 =>
    simp only at this
    split at this
    · rename_i hd
      simp [hd]
    · omega

theorem sized_dataSize_pos (h : n.data.length < 2 ^ 32) : n.sized.dataSize > 0 ↔ n.data ≠ [] := by
  have hd := toNat_sized_dataSize n h
  have hz : (0 : UInt32).toNat = 0 := rfl
  rw [gt_iff_lt, UInt32.lt_iff_toNat_lt, hd, hz, length_pos_iff]

theorem commonSize_sized (h : n.Fits .v2) : n.sized.size = Int32.ofNat (n.encodedSize .v2) := by
  have hlt := h.data_lt
  show n.sized.commonSize = _
  unfold commonSize encodedSize
  by_cases hd : n.data = []
  · have hn : ¬ n.sized.dataSize > 0 := by
      rw [sized_dataSize_pos (by omega)]
      simpa using hd
    rw [if_neg hn]
    simp [hd]
  · have hp : n.sized.dataSize > 0 := by
      rw [sized_dataSize_pos (by omega)]
      exact hd
    have h0 : (4 + n.sized.dataSize.toInt32 + 1 : Size) = Int32.ofNat (4 + n.data.length + 1) := by
      show 4 + (UInt32.ofNat n.data.length).toInt32 + 1 = _
      rw [UInt32.toInt32_ofNat', Int32.ofNat_add, Int32.ofNat_add]
      rfl
    have h1 := addPart (t := 4 + n.sized.dataSize.toInt32 + 1 + 1 +
        n.sized.nameSize.toUInt32.toInt32) (l := 1 + min 255 n.name.length) (c := n.hasName) h0 (by
      intro _
      rw [toInt32_eq_ofNat8, toNat_sized_nameSize, Int32.ofNat_add, ← Int32.add_assoc]
      rfl)
    have h2 := addPart (l := 1 + n.mime.length) (c := n.hasMime) h1 (by
      intro hm
      rw [← toNat_sized_mimeSize n ((h.fields (by decide) hd).mime hm), Int32.ofNat_add, ← toInt32_eq_ofNat8,
        ← Int32.add_assoc])
    have h3 := addPart (l := 5) (c := n.hasLastModifiedDate) h2 (fun _ => rfl)
    have h4 := addPart (l := 2) (c := n.hasTtl) h3 (fun _ => rfl)
    have h5 := addPart (l := 2 + n.pairsSize.toNat) (c := n.hasPairs) h4 (by
      intro _
      rw [Int32.ofNat_add, ← toInt32_eq_ofNat16])
    rw [if_pos hp]
    simp only [if_neg hd]
    exact h5

theorem Needle.Fits.v2 (h : n.Fits .v3) : n.Fits .v2 where
  fields _ := h.fields (by decide)
  size := Nat.lt_of_le_of_lt (Nat.add_le_add_left (by decide) _) h.size

theorem toInt_sizedAs (h : n.Fits version) :
    (n.sizedAs version).size.toInt = n.encodedSize version := by
  have hlt : n.encodedSize version < 2 ^ 31 := by
    have := h.size
    omega
  have hs : (n.sizedAs version).size = Int32.ofNat (n.encodedSize version) := by
    cases version with
    | v1 => rfl
    | v2 => exact commonSize_sized h
    | v3 => exact commonSize_sized h.v2
  rw [hs, Int32.toInt_ofNat_of_lt hlt]

theorem sizedAs_size_ne_zero (h : n.Fits version) (hd : n.data ≠ []) :
    (n.sizedAs version).size ≠ 0 := by
  have hpos : 0 < n.data.length := length_pos_of_ne_nil hd
  rw [ne_eq, size_eq_zero_iff, toInt_sizedAs h]
  cases version with
  | v1 =>
    show ¬ (n.data.length : Int) = 0
    omega
  | v2 | v3 =>
    unfold encodedSize
    simp only [if_neg hd]
    omega

theorem length_nonData (h : n.FieldsFit) : n.sized.nonData.length =
    1 + (if n.hasName then 1 + min 255 n.name.length else 0) +
      (if n.hasMime then 1 + n.mime.length else 0) + (if n.hasLastModifiedDate then 5 else 0) +
      (if n.hasTtl then 2 else 0) + (if n.hasPairs then 2 + n.pairsSize.toNat else 0) := by
  have hname : n.sized.nameField.length = if n.hasName then 1 + min 255 n.name.length else 0 := by
    unfold nameField
    rw [sized_hasName]
    split
    · rw [length_cons, length_take, toNat_sized_nameSize]
      show min (min 255 n.name.length) n.name.length + 1 = _
      omega
    · rfl
  have hmime : n.sized.mimeField.length = if n.hasMime then 1 + n.mime.length else 0 := by
    unfold mimeField
    rw [sized_hasMime]
    split
    · exact Nat.add_comm _ _
    · rfl
  have hmod : n.sized.modifiedField.length = if n.hasLastModifiedDate then 5 else 0 := by
    unfold modifiedField
    rw [sized_hasLastModifiedDate]
    split <;> rfl
  have httl : n.sized.ttlField.length = if n.hasTtl then 2 else 0 := by
    show (match n.ttl with
      | some ttl => if n.hasTtl then ttl.toBytes else []
      | none => []).length = _
    have := h.ttl
    cases ht : n.ttl with
    | none =>
      rw [ht] at this
      cases hh : n.hasTtl with
      | true => exact absurd (this hh) (by decide)
      | false => rfl
    | some ttl => cases n.hasTtl <;> rfl
  have hpairs : n.sized.pairsField.length = if n.hasPairs then 2 + n.pairsSize.toNat else 0 := by
    unfold pairsField
    rw [sized_hasPairs]
    split
    · rename_i hp
      rw [length_append, ← h.pairs hp]
      rfl
    · rfl
  rw [nonData]
  simp only [length_append, hname, hmime, hmod, httl, hpairs, length_singleton]

theorem length_body (h : n.Fits version) :
    ((n.sizedAs version).body version).length = n.encodedSize version := by
  have common : n.Fits .v2 → (n.sized.body .v2).length = n.encodedSize .v2 := by
    intro h
    have hlt := h.data_lt
    unfold body encodedSize
    by_cases hd : n.data = []
    · have hn : ¬ n.sized.dataSize > 0 := by
        rw [sized_dataSize_pos (by omega)]
        simpa using hd
      simp [if_neg hn, hd]
    · have hp : n.sized.dataSize > 0 := by
        rw [sized_dataSize_pos (by omega)]
        exact hd
      simp only [if_pos hp, if_neg hd, length_append, length_nonData (h.fields (by decide) hd)]
      show 4 + n.data.length + _ = _
      omega
  cases version with
  | v1 => rfl
  | v2 => exact common h
  | v3 => exact common h.v2

/-! ## Records -/

/-- `bytes` is a complete record with the header and the tail of `n` around `body`. -/
def IsRecord (version : Version) (n : Needle) (body bytes : List UInt8) : Prop :=
  SizeFits n.size version ∧ (body.length : Int) = n.size.toInt ∧
    ∃ pad : List UInt8, bytes = n.header ++ body ++ n.tail version ++ pad ∧
      (pad.length : Int) = (paddingLength n.size version).toInt

variable {body bytes : List UInt8}

theorem IsRecord.length_eq (h : IsRecord version n body bytes) :
    (bytes.length : Int) = getActualSize n.size version := by
  obtain ⟨hfits, hbody, pad, rfl, hpad⟩ := h
  simp only [length_append, length_header, length_tail]
  rw [getActualSize, needleBodyLength, ← hpad, ← hbody]
  omega

theorem IsRecord.length_pos (h : IsRecord version n body bytes) : 0 < bytes.length := by
  obtain ⟨-, -, pad, rfl, -⟩ := h
  simp only [length_append, length_header, needleHeaderSize, needleIdSize]
  omega

theorem IsRecord.aligned (h : IsRecord version n body bytes) :
    bytes.length % needlePaddingSize = 0 := by
  have hl := h.length_eq
  rw [getActualSize_eq h.1] at hl
  unfold needlePaddingSize
  omega

theorem sizeFits_sizedAs (h : n.Fits version) : SizeFits (n.sizedAs version).size version := by
  have := h.size
  rw [SizeFits, toInt_sizedAs h]
  omega

theorem footer_fits {b : WriteBuffer} (hs : SizeFits s version)
    (hb : tailSize version + 8 ≤ b.header.length) {bs : List UInt8}
    (hbs : bs.length = tailSize version) :
    ∃ b' pad, b.footer bs (paddingLength s version) = .ok b' ∧ b'.out = b.out ++ bs ++ pad ∧
      (pad.length : Int) = (paddingLength s version).toInt := by
  have hp := paddingLength_toInt hs
  exact footer_eq (by omega) (by omega)

theorem writeNeedleCommon_eq (hs : SizeFits n.sized.size version) (hv : version ≠ .v1)
    {writeFooter : Needle → WriteBuffer → Size → Except NeedleError WriteBuffer}
    (hf : ∀ b padding, writeFooter n.sized b padding = b.footer (n.sized.tail version) padding)
    (hbody : ((n.sized.body version).length : Int) = n.sized.size.toInt) :
    ∃ w, writeNeedleCommon n version writeFooter = .ok w ∧ w.needle = n.sized ∧
      IsRecord version n.sized (n.sized.body version) w.bytes := by
  let b0 : WriteBuffer := { header := List.replicate (needleHeaderSize + timestampSize) 0 }
  have hb0 : b0.header.length = 24 := rfl
  have h1 : Emits b0 (b0.field n.sized.header) n.sized.header :=
    .field n.sized.header 0 (show 16 ≤ 24 by decide)
  have h2 : Emits b0 (if n.sized.dataSize > 0 then writeNeedleBody n.sized (b0.field n.sized.header)
      else b0.field n.sized.header) (n.sized.header ++ n.sized.body version) := by
    have hbd : n.sized.body version = if n.sized.dataSize > 0 then
        uint32toBytes n.sized.dataSize ++ n.sized.data ++ n.sized.nonData else [] := by
      cases version with
      | v1 => exact absurd rfl hv
      | v2 | v3 => rfl
    rw [hbd]
    split
    · exact h1.trans (emits_body n.sized (h1.room (by omega)))
    · exact h1.trans (.refl _)
  have hroom : tailSize version + 8 ≤ (if n.sized.dataSize > 0 then
      writeNeedleBody n.sized (b0.field n.sized.header)
      else b0.field n.sized.header).header.length := by
    refine h2.room ?_
    cases version <;> decide
  obtain ⟨b', pad, hok, hout, hpad⟩ := footer_fits hs hroom (length_tail n.sized version)
  refine ⟨⟨n.sized, b'.out, n.sized.dataSize.toInt32, getActualSize n.sized.size version⟩, ?_, rfl,
    hs, hbody, pad, ?_, hpad⟩
  · show (writeFooter n.sized _ _ >>= _) = _
    rw [hf, hok]
    rfl
  · rw [hout, h2.out]
    rfl

/-- **What is written**: a record of the needle with its sizes set. -/
theorem writeNeedleByVersion_eq (h : n.Fits version) :
    ∃ w, writeNeedleByVersion version n = .ok w ∧ w.needle = n.sizedAs version ∧
      IsRecord version (n.sizedAs version) ((n.sizedAs version).body version) w.bytes := by
  have hs := sizeFits_sizedAs h
  have hbody : (((n.sizedAs version).body version).length : Int) = (n.sizedAs version).size.toInt := by
    rw [length_body h, toInt_sizedAs h]
  cases version with
  | v1 =>
    let n' : Needle := { n with size := Int32.ofNat n.data.length }
    let b0 : WriteBuffer := { header := List.replicate needleHeaderSize 0 }
    have h1 : Emits b0 _ (n'.header ++ n.data) := .fieldWrite n.data (show 16 ≤ 16 by decide)
    obtain ⟨b', pad, hok, hout, hpad⟩ :=
      footer_fits hs (h1.room (show 12 ≤ 16 by decide)) (length_tail n' .v1)
    refine ⟨⟨n', b'.out, n'.size, needleHeaderSize + n'.size.toInt⟩, ?_, rfl, hs, hbody, pad, ?_, hpad⟩
    · show writeNeedleV1 n = _
      show (WriteBuffer.footer _ (n'.tail .v1) (paddingLength (n.sizedAs .v1).size .v1) >>= _) = _
      rw [hok]
      rfl
    · rw [hout, h1.out]
      rfl
  | v2 =>
    show ∃ w, writeNeedleCommon n .v2 (fun n b padding => b.footer (n.tail .v2) padding) = .ok w ∧ _
    exact writeNeedleCommon_eq hs (by decide) (fun _ _ => rfl) hbody
  | v3 =>
    show ∃ w, writeNeedleCommon n .v3 (fun n b padding => b.footer (n.tail .v3) padding) = .ok w ∧ _
    exact writeNeedleCommon_eq hs (by decide) (fun _ _ => rfl) hbody

end Storage
