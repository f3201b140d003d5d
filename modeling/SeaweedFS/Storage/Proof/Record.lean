import SeaweedFS.Storage.Volume
import SeaweedFS.Storage.Proof.NeedleRead

/-!
# Records in a `.dat` file

A `.dat` file is the super block and records, one behind the other. `At recs off r` says that the
record `r` begins at `off`; there its header, its bytes and its needle can be read (`At.readNeedleHeader`,
`At.readNeedleBlob`, `At.readData`).
-/

namespace Storage

open Lib Util List

/-- A record: its needle, with the sizes set, the body and all bytes. -/
structure Rec where
  needle : Needle
  body : List UInt8
  bytes : List UInt8

namespace Rec

/-- The record is complete. -/
def Complete (version : Version) (r : Rec) : Prop := IsRecord version r.needle r.body r.bytes

/-- The record is what the writer writes of a needle, and can be read. -/
structure Encoded (version : Version) (r : Rec) : Prop where
  body : r.body = r.needle.body version
  readable : r.needle.Readable version

end Rec

/-- The bytes of records, one behind the other. -/
def bytesOf (recs : List Rec) : List UInt8 := recs.flatMap Rec.bytes

@[simp] theorem bytesOf_nil : bytesOf [] = [] := rfl

@[simp] theorem bytesOf_append (recs recs' : List Rec) :
    bytesOf (recs ++ recs') = bytesOf recs ++ bytesOf recs' := flatMap_append

@[simp] theorem bytesOf_singleton (r : Rec) : bytesOf [r] = r.bytes := by simp [bytesOf]

/-- The record `r` of `recs` begins at `off`. -/
def At (recs : List Rec) (off : Nat) (r : Rec) : Prop :=
  ∃ pre post, recs = pre ++ [r] ++ post ∧ off = superBlockSize + (bytesOf pre).length

@[simp] theorem length_superBlock_bytes (s : SuperBlock) : s.bytes.length = superBlockSize := rfl

namespace At

variable {recs : List Rec} {off : Nat} {r : Rec}

section

variable (h : At recs off r)
include h

theorem mem : r ∈ recs := by
  obtain ⟨pre, post, rfl, -⟩ := h
  simp

theorem append (recs' : List Rec) : At (recs ++ recs') off r := by
  obtain ⟨pre, post, rfl, hoff⟩ := h
  exact ⟨pre, post ++ recs', by simp, hoff⟩

omit h in
theorem last (recs : List Rec) (r : Rec) :
    At (recs ++ [r]) (superBlockSize + (bytesOf recs).length) r :=
  ⟨recs, [], by simp, rfl⟩

theorem superBlockSize_le : superBlockSize ≤ off := by
  obtain ⟨pre, post, -, rfl⟩ := h
  exact Nat.le_add_right _ _

theorem end_le : off + r.bytes.length ≤ superBlockSize + (bytesOf recs).length := by
  obtain ⟨pre, post, rfl, rfl⟩ := h
  simp only [bytesOf_append, bytesOf_singleton, length_append]
  omega

theorem split (s : SuperBlock) :
    ∃ pre post, s.bytes ++ bytesOf recs = pre ++ r.bytes ++ post ∧ pre.length = off := by
  obtain ⟨pre, post, rfl, rfl⟩ := h
  refine ⟨s.bytes ++ bytesOf pre, bytesOf post, ?_, by simp⟩
  simp only [bytesOf_append, bytesOf_singleton, append_assoc]

end

end At

/-! ## Offsets -/

variable {off : Nat}

theorem isZero_toOffset (hlt : off < maxPossibleVolumeSize)
    (ha : off % needlePaddingSize = 0) (hpos : 0 < off) : (toOffset off).isZero = false := by
  have hoff := toActualOffset_toOffset hlt ha
  cases hz : (toOffset off).isZero with
  | false => rfl
  | true =>
    rw [isZero_iff.1 hz] at hoff
    have : (Offset.toActualOffset {}) = 0 := rfl
    omega

variable {version : Version}

theorem aligned_bytesOf {recs : List Rec} (h : ∀ r ∈ recs, r.Complete version) :
    (bytesOf recs).length % needlePaddingSize = 0 := by
  induction recs with
  | nil => rfl
  | cons r recs ih =>
    have h1 := IsRecord.aligned (h r mem_cons_self)
    have h2 := ih fun r' hr' => h r' (mem_cons_of_mem _ hr')
    show (bytesOf ([r] ++ recs)).length % needlePaddingSize = 0
    rw [bytesOf_append, bytesOf_singleton, length_append]
    unfold needlePaddingSize at *
    omega

variable {r : Rec}

theorem At.aligned {recs : List Rec} (hat : At recs off r)
    (h : ∀ r ∈ recs, r.Complete version) : off % needlePaddingSize = 0 := by
  obtain ⟨pre, post, rfl, rfl⟩ := hat
  have : (bytesOf pre).length % needlePaddingSize = 0 :=
    aligned_bytesOf fun r' hr' => h r' (by simp [hr'])
  unfold needlePaddingSize superBlockSize at *
  omega

/-! ## Scanning -/

/-- The records with the offsets at which they begin. -/
def placed : Nat → List Rec → List (Nat × Rec)
  | _, [] => []
  | off, r :: recs => (off, r) :: placed (off + r.bytes.length) recs

theorem placed_append (off : Nat) (recs recs' : List Rec) :
    placed off (recs ++ recs') = placed off recs ++ placed (off + (bytesOf recs).length) recs' := by
  induction recs generalizing off with
  | nil => rfl
  | cons r recs ih =>
    have hlen : off + r.bytes.length + (bytesOf recs).length = off + (bytesOf (r :: recs)).length := by
      simp only [bytesOf, flatMap_cons, length_append]
      omega
    rw [cons_append, placed, ih, hlen]
    rfl

/-- A record with data is a write, one without a delete. -/
def liveStep (m : NeedleId → Option (Offset × Size)) (p : Nat × Rec) :
    NeedleId → Option (Offset × Size) :=
  Function.update m p.2.needle.id
    (if 0 < p.2.needle.size.toInt then some (toOffset p.1, p.2.needle.size) else none)

variable {m : NeedleId → Option (Offset × Size)}

theorem liveStep_self {key : NeedleId} (h : r.needle.id = key) : liveStep m (off, r) key =
      if 0 < r.needle.size.toInt then some (toOffset off, r.needle.size) else none := by
  subst h
  exact Function.update_self ..

theorem liveStep_of_ne {key : NeedleId} (h : r.needle.id ≠ key) : liveStep m (off, r) key = m key :=
  Function.update_of_ne (Ne.symm h) ..

/-- What the records alone say: the last one of a key counts. -/
def liveRecords (recs : List Rec) : NeedleId → Option (Offset × Size) :=
  (placed superBlockSize recs).foldl liveStep fun _ => none

theorem liveRecords_append (recs : List Rec) (r : Rec) : liveRecords (recs ++ [r]) =
      liveStep (liveRecords recs) (superBlockSize + (bytesOf recs).length, r) := by
  rw [liveRecords, placed_append, foldl_append]
  rfl

/-! ## Reading -/

theorem readAt_append (pre mid post : List UInt8) :
    File.readAt (pre ++ mid ++ post) mid.length pre.length = (mid, false) := by
  unfold File.readAt
  simp

variable {recs : List Rec} {m : Needle}

section

variable (h : At recs off r)
include h

section

variable (hr : r.Complete version)
include hr

theorem At.readNeedleBlob (s : SuperBlock) :
    readNeedleBlob (s.bytes ++ bytesOf recs) off r.needle.size version = .ok r.bytes := by
  obtain ⟨pre, post, hfile, rfl⟩ := h.split s
  have hlen := IsRecord.length_eq hr
  unfold Storage.readNeedleBlob
  rw [if_neg (by omega), ← hlen, Int.toNat_natCast, hfile, readAt_append]
  rfl

theorem At.readNeedleHeader (s : SuperBlock) : readNeedleHeader (s.bytes ++ bytesOf recs) version off =
      .ok ({ cookie := r.needle.cookie, id := r.needle.id, size := r.needle.size },
        needleBodyLength r.needle.size version) := by
  obtain ⟨pre, post, hfile, rfl⟩ := h.split s
  obtain ⟨-, -, pad, hbytes, -⟩ := hr
  have hfile' : s.bytes ++ bytesOf recs = pre ++ r.needle.header ++
      (r.body ++ r.needle.tail version ++ pad ++ post) := by
    rw [hfile, hbytes]
    simp
  have hparse : ({} : Needle).parseNeedleHeader r.needle.header = .ok
      { cookie := r.needle.cookie, id := r.needle.id, size := r.needle.size } := by
    have := parseNeedleHeader_eq (m := {}) (n := r.needle) []
    rwa [append_nil] at this
  have hread := readAt_append pre r.needle.header (r.body ++ r.needle.tail version ++ pad ++ post)
  unfold Storage.readNeedleHeader
  rw [hfile']
  rw [length_header] at hread
  rw [hread]
  dsimp only
  rw [hparse]
  rfl

/-- **A record is read** where it begins. -/
theorem At.readData (he : r.Encoded version) (s : SuperBlock) (hm : m.data = []) :
    m.readData (s.bytes ++ bytesOf recs) off r.needle.size version = .ok (m.load r.needle version) := by
  have hrec : IsRecord version r.needle (r.needle.body version) r.bytes := he.body ▸ hr
  unfold Needle.readData
  simp only [h.readNeedleBlob hr s, Except.mapError, bind, Except.bind, readBytes_record hrec he.readable hm off]

/-- What `ReadNeedleHeader` makes of a record. -/
def Rec.headed (r : Rec) : Needle :=
  { cookie := r.needle.cookie, id := r.needle.id, size := r.needle.size }

theorem At.readNeedleBody (he : r.Encoded version) (s : SuperBlock) :
    r.headed.readNeedleBody (s.bytes ++ bytesOf recs) version (off + needleHeaderSize)
      (needleBodyLength r.needle.size version) = .ok (r.needle.stored version) := by
  obtain ⟨pre, post, hfile, rfl⟩ := h.split s
  have hrec : IsRecord version r.needle (r.needle.body version) r.bytes := he.body ▸ hr
  obtain ⟨hfits, hbody, pad, hbytes, hpad⟩ := hrec
  let mid := r.needle.body version ++ r.needle.tail version ++ pad
  have hmid : (mid.length : Int) = needleBodyLength r.needle.size version := by
    simp only [mid, length_append, length_tail]
    rw [needleBodyLength, ← hpad, ← hbody]
    push_cast
    ring
  have hfile' : s.bytes ++ bytesOf recs = (pre ++ r.needle.header) ++ mid ++ post := by
    rw [hfile, hbytes]
    simp [mid]
  have hpos : 0 < mid.length := by
    simp only [mid]
    cases version <;> simp [tailSize, needleChecksumSize]
  have hpre : (pre ++ r.needle.header).length = pre.length + needleHeaderSize := by
    rw [length_append, length_header]
  have hread := readAt_append (pre ++ r.needle.header) mid post
  rw [hpre] at hread
  unfold Needle.readNeedleBody
  rw [if_neg (by omega), ← hmid, Int.toNat_natCast, hfile', hread]
  exact readNeedleBodyBytes_record hbody he.readable rfl rfl

end

end

end Storage
