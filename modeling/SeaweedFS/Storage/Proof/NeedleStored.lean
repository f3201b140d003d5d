import SeaweedFS.Storage.Proof.NeedleRead

/-!
# Writing what was read

A vacuum reads the needles of a volume and writes them again. What a record stores is stored by a record
of it as well (`load_stored`), and the sizes that the writer sets are those that were read
(`sizedAs_stored`).
-/

namespace Storage

open Lib Util List Needle

variable {n : Needle} {version : Version}

/-! ## What is stored -/

theorem takeBody_of_zero {m : Needle} (hv : version ≠ .v1) (hz : ¬ n.dataSize > 0) :
    m.takeBody n version = m := by
  cases version with
  | v1 => exact absurd rfl hv
  | v2 | v3 => exact if_neg hz

theorem stored_of_pos (hv : version ≠ .v1) (hpos : n.dataSize > 0) : n.stored version =
    (({ cookie := n.cookie, id := n.id, size := n.size, dataSize := n.dataSize,
        data := n.data : Needle }).takeFields n).takeTail n version := by
  rw [stored, load, takeBody_of_pos hv hpos]

theorem stored_of_zero (hv : version ≠ .v1) (hz : ¬ n.dataSize > 0) : n.stored version =
    ({ cookie := n.cookie, id := n.id, size := n.size : Needle }).takeTail n version := by
  rw [stored, load, takeBody_of_zero hv hz]

theorem takeFields_takeFields (m m' n : Needle) : m.takeFields (m'.takeFields n) = m.takeFields n := by
  have hif : ∀ {α : Type} (c : Bool) (a b d : α),
      (if c then (if c then a else b) else d) = if c then a else d := by
    intro α c a b d
    cases c <;> rfl
  have hname : (if n.hasName then List.take (if n.hasName then n.nameSize else m'.nameSize).toNat
      (if n.hasName then n.name.take n.nameSize.toNat else m'.name) else m.name) =
        if n.hasName then n.name.take n.nameSize.toNat else m.name := by
    cases n.hasName with
    | true =>
      show List.take n.nameSize.toNat (List.take n.nameSize.toNat n.name) = _
      rw [take_take, Nat.min_self]
      rfl
    | false => rfl
  rw [takeFields_eq, takeFields_eq, takeFields_eq]
  show ({ m with
    flags := n.flags
    nameSize := if n.hasName then (if n.hasName then n.nameSize else _) else _
    name := if n.hasName then _ else _
    mimeSize := if n.hasMime then (if n.hasMime then n.mimeSize else _) else _
    mime := if n.hasMime then (if n.hasMime then n.mime else _) else _
    lastModified :=
      if n.hasLastModifiedDate then (if n.hasLastModifiedDate then n.lastModified else _) else _
    ttl := if n.hasTtl then (if n.hasTtl then n.ttl else _) else _
    pairsSize := if n.hasPairs then (if n.hasPairs then n.pairsSize else _) else _
    pairs := if n.hasPairs then (if n.hasPairs then n.pairs else _) else _ } : Needle) = _
  rw [hif, hname, hif, hif, hif, hif, hif, hif]

section
variable (m n : Needle) (version : Version)

@[simp] theorem takeTail_cookie : (m.takeTail n version).cookie = m.cookie := by cases version <;> rfl
@[simp] theorem takeTail_id : (m.takeTail n version).id = m.id := by cases version <;> rfl
@[simp] theorem takeTail_size : (m.takeTail n version).size = m.size := by cases version <;> rfl
@[simp] theorem takeTail_dataSize : (m.takeTail n version).dataSize = m.dataSize := by
  cases version <;> rfl
@[simp] theorem takeTail_data : (m.takeTail n version).data = m.data := by cases version <;> rfl

@[simp] theorem takeFields_takeTail (m1 : Needle) :
    m1.takeFields (m.takeTail n version) = m1.takeFields m := by cases version <;> rfl

end

theorem stored_fields (hv : version ≠ .v1) (hpos : n.dataSize > 0) :
    (n.stored version).dataSize = n.dataSize ∧ (n.stored version).data = n.data ∧
      ∀ m : Needle, m.takeFields (n.stored version) = m.takeFields n := by
  rw [stored_of_pos hv hpos]
  refine ⟨by simp [takeFields_eq], by simp [takeFields_eq], fun m => ?_⟩
  rw [takeFields_takeTail, takeFields_takeFields]

theorem takeBody_stored (m n : Needle) (version : Version) :
    m.takeBody (n.stored version) version = m.takeBody n version := by
  by_cases hv : version = .v1
  · subst hv
    rfl
  · by_cases hp : n.dataSize > 0
    · obtain ⟨hsize, hdata, hfields⟩ := stored_fields hv hp
      rw [takeBody_of_pos hv hp, takeBody_of_pos hv (hsize ▸ hp), hfields, hsize, hdata]
    · have hz : ¬ (n.stored version).dataSize > 0 := by
        rw [stored_of_zero hv hp, takeTail_dataSize]
        exact Nat.lt_irrefl 0
      rw [takeBody_of_zero hv hp, takeBody_of_zero hv hz]

theorem stored_header (n : Needle) (version : Version) : (n.stored version).cookie = n.cookie ∧
    (n.stored version).id = n.id ∧ (n.stored version).size = n.size := by
  by_cases hv : version = .v1
  · subst hv
    exact ⟨rfl, rfl, rfl⟩
  · by_cases hp : n.dataSize > 0
    · rw [stored_of_pos hv hp]
      simp [takeFields_eq]
    · rw [stored_of_zero hv hp]
      simp

theorem takeTail_stored (m n : Needle) (version : Version) :
    m.takeTail (n.stored version) version = m.takeTail n version := by
  cases version <;> rfl

/-- **What a record stores**, a record of it stores as well. -/
theorem load_stored (m n : Needle) (version : Version) :
    m.load (n.stored version) version = m.load n version := by
  obtain ⟨hcookie, hid, hsize⟩ := stored_header n version
  rw [load, takeBody_stored, takeTail_stored, hcookie, hid, hsize, load]

/-! ## The body -/

theorem stored_eq (hv : version ≠ .v1) (hpos : n.dataSize > 0) : n.stored version =
    { cookie := n.cookie, id := n.id, size := n.size, dataSize := n.dataSize, data := n.data
      flags := n.flags
      nameSize := if n.hasName then n.nameSize else 0
      name := if n.hasName then n.name.take n.nameSize.toNat else []
      mimeSize := if n.hasMime then n.mimeSize else 0
      mime := if n.hasMime then n.mime else []
      lastModified := if n.hasLastModifiedDate then n.lastModified else 0
      ttl := if n.hasTtl then n.ttl else none
      pairsSize := if n.hasPairs then n.pairsSize else 0
      pairs := if n.hasPairs then n.pairs else []
      checksum := n.checksum
      appendAtNs := if version = .v3 then n.appendAtNs else 0 } := by
  rw [stored_of_pos hv hpos, takeFields_eq]
  cases version with
  | v1 => exact absurd rfl hv
  | v2 | v3 => rfl

section
variable {m : Needle} (h : m.flags = n.flags)
include h

theorem hasName_congr : m.hasName = n.hasName := by rw [hasName, h, hasName]
theorem hasMime_congr : m.hasMime = n.hasMime := by rw [hasMime, h, hasMime]
theorem hasLastModifiedDate_congr : m.hasLastModifiedDate = n.hasLastModifiedDate := by
  rw [hasLastModifiedDate, h, hasLastModifiedDate]
theorem hasTtl_congr : m.hasTtl = n.hasTtl := by rw [hasTtl, h, hasTtl]
theorem hasPairs_congr : m.hasPairs = n.hasPairs := by rw [hasPairs, h, hasPairs]

end

theorem nonData_stored (hv : version ≠ .v1) (hpos : n.dataSize > 0) :
    (n.stored version).nonData = n.nonData := by
  have hst := stored_eq hv hpos
  generalize n.stored version = m at hst ⊢
  have hflags : m.flags = n.flags := by rw [hst]
  have hname : m.nameField = n.nameField := by
    unfold nameField
    rw [hasName_congr hflags, hst]
    cases n.hasName with
    | true =>
      show n.nameSize :: List.take n.nameSize.toNat (List.take n.nameSize.toNat n.name) = _
      rw [take_take, Nat.min_self]
      rfl
    | false => rfl
  have hmime : m.mimeField = n.mimeField := by
    unfold mimeField
    rw [hasMime_congr hflags, hst]
    cases n.hasMime <;> rfl
  have hmod : m.modifiedField = n.modifiedField := by
    unfold modifiedField
    rw [hasLastModifiedDate_congr hflags, hst]
    cases n.hasLastModifiedDate <;> rfl
  have httl : m.ttlField = n.ttlField := by
    unfold ttlField
    rw [hasTtl_congr hflags, hst]
    cases n.hasTtl with
    | true => rfl
    | false => cases n.ttl <;> rfl
  have hpairs : m.pairsField = n.pairsField := by
    unfold pairsField
    rw [hasPairs_congr hflags, hst]
    cases n.hasPairs <;> rfl
  rw [nonData, hflags, hname, hmime, hmod, httl, hpairs, nonData]

theorem Needle.Sized.data_ne_nil (hs : n.Sized) (hpos : n.dataSize > 0) : n.data ≠ [] := by
  intro h0
  rw [gt_iff_lt, UInt32.lt_iff_toNat_lt, hs.data, h0] at hpos
  exact absurd hpos (by decide)

theorem sized_stored (hv : version ≠ .v1) (hpos : n.dataSize > 0) (hs : n.Sized) :
    (n.stored version).sized = { n.stored version with size := (n.stored version).commonSize } := by
  have hfields := hs.fields (hs.data_ne_nil hpos)
  have hst := stored_eq hv hpos
  generalize n.stored version = m at hst ⊢
  have hname : (if m.name.length ≥ 255 then 255 else UInt8.ofNat m.name.length) = m.nameSize := by
    have hle := hfields.name
    have hlt := n.nameSize.toNat_lt
    rw [hst]
    cases n.hasName with
    | false => rfl
    | true =>
      show (if (List.take n.nameSize.toNat n.name).length ≥ 255 then 255
        else UInt8.ofNat (List.take n.nameSize.toNat n.name).length) = n.nameSize
      rw [length_take, Nat.min_eq_left hle]
      split
      · refine UInt8.toNat_inj.1 ?_
        show 255 = n.nameSize.toNat
        omega
      · exact UInt8.ofNat_toNat
  have hdata : UInt32.ofNat m.data.length = m.dataSize := by
    rw [hst]
    rw [← hs.data, UInt32.ofNat_toNat]
  have hmime : UInt8.ofNat m.mime.length = m.mimeSize := by
    have hm := hfields.mime
    rw [hst]
    cases hc : n.hasMime with
    | false => rfl
    | true =>
      show UInt8.ofNat n.mime.length = n.mimeSize
      rw [hm hc, UInt8.ofNat_toNat]
  unfold sized
  rw [hname, hdata, hmime]

theorem fieldsFit_stored (hv : version ≠ .v1) (hpos : n.dataSize > 0) (hf : n.FieldsSized) :
    (n.stored version).FieldsFit := by
  have hst := stored_eq hv hpos
  have hflags : (n.stored version).flags = n.flags := by rw [hst]
  refine ⟨fun h => ?_, fun h => ?_, fun h => ?_⟩
  · have hc : n.hasMime = true := (hasMime_congr hflags).symm.trans h
    rw [hst]
    show (if n.hasMime then n.mime else []).length < 256
    rw [if_pos hc, hf.mime hc]
    exact n.mimeSize.toNat_lt
  · have hc : n.hasPairs = true := (hasPairs_congr hflags).symm.trans h
    rw [hst]
    rw [if_pos hc, if_pos hc, hf.pairs hc]
  · have hc : n.hasTtl = true := (hasTtl_congr hflags).symm.trans h
    rw [hst]
    rw [if_pos hc]
    exact hf.ttl hc

theorem encodedSize_stored (hr : n.Readable version) :
    (n.stored version).encodedSize version = (n.body version).length := by
  by_cases hv : version = .v1
  · subst hv
    rfl
  · have hs := hr.sized hv
    have henc : ∀ m : Needle, m.encodedSize version = m.encodedSize .v2 := by
      intro m
      cases version with
      | v1 => exact absurd rfl hv
      | v2 | v3 => rfl
    have hbody : n.body version = n.body .v2 := by
      cases version with
      | v1 => exact absurd rfl hv
      | v2 | v3 => rfl
    by_cases hp : n.dataSize > 0
    · have hd := hs.data_ne_nil hp
      have hfit := fieldsFit_stored hv hp (hs.fields hd)
      have hlen := length_nonData hfit
      rw [sized_stored hv hp hs] at hlen
      replace hlen := (congrArg List.length (nonData_stored hv hp)).symm.trans hlen
      have hdata := (stored_fields hv hp).2.1
      unfold body encodedSize
      simp only [if_pos hp, hdata, if_neg hd, length_append]
      show _ = 4 + n.data.length + _
      omega
    · have hdata : (n.stored version).data = [] := by rw [stored_of_zero hv hp, takeTail_data]
      unfold body encodedSize
      simp only [if_neg hp, if_pos hdata]
      rfl

/-! ## Records -/

variable {bytes : List UInt8}

theorem fits_stored (h : IsRecord version n (n.body version) bytes) (hr : n.Readable version) :
    (n.stored version).Fits version := by
  obtain ⟨⟨h0, hfits⟩, hbody, -⟩ := h
  refine ⟨fun hv hd => ?_, ?_⟩
  · have hp : n.dataSize > 0 := by
      by_contra hz
      rw [stored_of_zero hv hz, takeTail_data] at hd
      exact hd rfl
    exact fieldsFit_stored hv hp ((hr.sized hv).fields ((hr.sized hv).data_ne_nil hp))
  · rw [encodedSize_stored hr]
    omega

/-- **The writer sets the sizes that were read**: what a record stores is written as it is. -/
theorem sizedAs_stored (h : IsRecord version n (n.body version) bytes) (hr : n.Readable version) :
    (n.stored version).sizedAs version = n.stored version := by
  have hsize : ((n.stored version).sizedAs version).size = (n.stored version).size := by
    rw [(stored_header n version).2.2, ← Int32.toInt_inj, toInt_sizedAs (fits_stored h hr),
      encodedSize_stored hr, h.2.1]
  have hset : ∀ m : Needle, m.sizedAs version = { m with size := (m.sizedAs version).size } →
      (m.sizedAs version).size = m.size → m.sizedAs version = m := by
    intro m h1 h2
    rw [h1, h2]
  refine hset _ ?_ hsize
  by_cases hv : version = .v1
  · subst hv
    rfl
  · rw [sizedAs_eq hv]
    by_cases hp : n.dataSize > 0
    · rw [sized_stored hv hp (hr.sized hv)]
    · rw [stored_of_zero hv hp]
      cases version with
      | v1 => exact absurd rfl hv
      | v2 | v3 => rfl

theorem fieldsSized_stored (hv : version ≠ .v1) (hpos : n.dataSize > 0) (hf : n.FieldsSized) :
    (n.stored version).FieldsSized := by
  have hfit := fieldsFit_stored hv hpos hf
  have hst := stored_eq hv hpos
  have hflags : (n.stored version).flags = n.flags := by rw [hst]
  refine ⟨?_, fun h => ?_, fun h => ?_, hfit.ttl, hfit.pairs⟩
  · have hle := hf.name
    rw [hst]
    cases n.hasName with
    | false => exact Nat.zero_le _
    | true =>
      show n.nameSize.toNat ≤ (List.take n.nameSize.toNat n.name).length
      rw [length_take, Nat.min_eq_left hle]
  · have hc : n.hasMime = true := (hasMime_congr hflags).symm.trans h
    rw [hst]
    rw [if_pos hc, if_pos hc, hf.mime hc]
  · have hc : n.hasLastModifiedDate = true := (hasLastModifiedDate_congr hflags).symm.trans h
    rw [hst]
    rw [if_pos hc]
    exact hf.modified hc

theorem readable_stored (hr : n.Readable version) : (n.stored version).Readable version := by
  by_cases hv : version = .v1
  · subst hv
    exact ⟨fun hv => absurd rfl hv, hr.crc⟩
  · by_cases hp : n.dataSize > 0
    · have hs := hr.sized hv
      obtain ⟨hsize, hdata, -⟩ := stored_fields hv hp
      have hst := stored_eq hv hp
      refine ⟨fun _ => ⟨by rw [hsize, hdata, hs.data], fun _ => ?_⟩, fun hd => ?_⟩
      · exact fieldsSized_stored hv hp (hs.fields (hs.data_ne_nil hp))
      · rw [hdata] at hd ⊢
        rw [← hr.crc hd, hst]
    · have hst := stored_of_zero hv hp
      have hdata : (n.stored version).data = [] := by rw [hst, takeTail_data]
      refine ⟨fun _ => ⟨?_, fun hd => absurd hdata hd⟩, fun hd => absurd hdata hd⟩
      rw [hst, takeTail_dataSize, takeTail_data]
      rfl

end Storage
