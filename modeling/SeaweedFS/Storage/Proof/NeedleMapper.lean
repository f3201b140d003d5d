import SeaweedFS.Storage.NeedleMapper
import SeaweedFS.Storage.Proof.LevelDb

/-!
# What the needle maps do

Both kinds are maps with delete marks that log every change: `NeedleMapper.entry` is what the map
holds, `NeedleMapper.mark` the mark of its kind. `Inv.get`, `Inv.put` and `Inv.delete` specify the
operations; nothing else of the maps is needed above.
-/

namespace Storage

open Lib LevelDbNeedleMap NeedleMap

theorem NeedleMap.appendToIndexFile_eq (nm : NeedleMap)
    (h : nm.indexFileOffset = nm.indexFile.length) (key : NeedleId) (offset : Offset) (size : Size) :
    nm.appendToIndexFile key offset size = { nm with
        indexFile := nm.indexFile ++ toBytes key offset size
        indexFileOffset := (nm.indexFile ++ toBytes key offset size).length } := by
  rw [appendToIndexFile, h, File.writeAt_length, List.length_append]

theorem LevelDbNeedleMap.appendToIndexFile_eq (m : LevelDbNeedleMap)
    (h : m.indexFileOffset = m.indexFile.length) (key : NeedleId) (offset : Offset) (size : Size) :
    m.appendToIndexFile key offset size = { m with
        indexFile := m.indexFile ++ toBytes key offset size
        indexFileOffset := (m.indexFile ++ toBytes key offset size).length } := by
  rw [appendToIndexFile, h, File.writeAt_length, List.length_append]

namespace NeedleMapper

/-- What the map holds. -/
def entry : NeedleMapper → MarkMap NeedleId (Offset × Size)
  | inMemory nm => nm.entry
  | levelDb m => fun key => (m.getFromDb key).map fun nv => (nv.offset, nv.size)

/-- The mark of a deletion. -/
def mark : NeedleMapKind → Offset × Size → Offset × Size
  | .inMemory => markEntry
  | .levelDb => levelMark

/-- The map is consistent, and the next entry goes to the end of the index file. -/
def Inv : NeedleMapper → Prop
  | inMemory nm => MapInv nm.m ∧ nm.indexFileOffset = nm.indexFile.length
  | levelDb m => (∃ entry, Holds m.db entry) ∧ m.indexFileOffset = m.indexFile.length

theorem entry_of_holds {m : LevelDbNeedleMap} {e : MarkMap NeedleId (Offset × Size)}
    (h : Holds m.db e) : (levelDb m).entry = e := by
  funext key
  show (m.getFromDb key).map _ = e key
  rw [h.getFromDb key, Option.map_map]
  exact Option.map_id' ..

theorem inv_new (kind : NeedleMapKind) : (new kind).Inv := by
  cases kind with
  | inMemory => exact ⟨mapInv_new, rfl⟩
  | levelDb => exact ⟨⟨_, holds_new⟩, rfl⟩

theorem entry_new (kind : NeedleMapKind) : (new kind).entry = fun _ => none := by
  cases kind with
  | inMemory => rfl
  | levelDb => exact entry_of_holds holds_new

theorem indexFile_new (kind : NeedleMapKind) : (new kind).indexFile = [] := by cases kind <;> rfl

namespace Inv

variable {nm : NeedleMapper}

theorem get (h : nm.Inv) (key : NeedleId) :
    nm.get key = .ok ((nm.entry key).map fun e => ⟨key, e.1, e.2⟩) := by
  cases nm with
  | inMemory nm => exact h.1.get key
  | levelDb m =>
    obtain ⟨⟨e, he⟩, -⟩ := h
    rw [entry_of_holds he]
    exact congrArg Except.ok (he.getFromDb key)

/-- **Put** sets the entry and logs it. -/
theorem put (h : nm.Inv) (key : NeedleId) (offset : Offset) (size : Size) :
    ∃ nm', nm.put key offset size = .ok nm' ∧ nm'.Inv ∧ nm'.kind = nm.kind ∧
      nm'.entry = nm.entry.set key (offset, size) ∧
      nm'.indexFile = nm.indexFile ++ toBytes key offset size := by
  cases nm with
  | inMemory nm =>
    obtain ⟨hmap, hoff⟩ := h
    obtain ⟨m', hset, hinv, he⟩ := hmap.set key offset size
    let nm1 : NeedleMap := { nm with
      m := m', metric := nm.metric.logPut key ((nm.m.entry key).getD ({}, 0)).2 size }
    have happend := appendToIndexFile_eq nm1 hoff key offset size
    refine ⟨inMemory (nm1.appendToIndexFile key offset size), ?_, ⟨hinv, ?_⟩, rfl, he, ?_⟩
    · show (nm.put key offset size >>= _) = _
      rw [NeedleMap.put, hset]
      rfl
    · rw [happend]
    · rw [happend]
      rfl
  | levelDb m =>
    obtain ⟨⟨e, he⟩, hoff⟩ := h
    have hput : Holds (m.put key offset size).db (e.set key (offset, size)) :=
      he.step (.put key offset size)
    have happend := appendToIndexFile_eq m hoff key offset size
    refine ⟨levelDb (m.put key offset size), rfl, ⟨⟨_, hput⟩, ?_⟩, rfl, ?_, ?_⟩
    · exact congrArg LevelDbNeedleMap.indexFileOffset happend |>.trans
        (congrArg (·.indexFile.length) happend).symm
    · rw [entry_of_holds hput, entry_of_holds he]
    · exact congrArg LevelDbNeedleMap.indexFile happend

/-- **Delete** marks the entry, if there is one, and logs a tombstone if it is live. -/
theorem marks (h : nm.Inv) (key : NeedleId) (offset : Offset) :
    ∃ nm', nm.delete key offset = .ok nm' ∧ nm'.Inv ∧ nm'.kind = nm.kind ∧
      nm'.entry = nm.entry.delete (mark nm.kind) key ∧
      ∀ e, nm.entry key = some e → e.2.isDeleted = false →
        nm'.indexFile = nm.indexFile ++ toBytes key offset tombstoneFileSize := by
  cases nm with
  | inMemory nm =>
    obtain ⟨hmap, hoff⟩ := h
    obtain ⟨m', hdel, hinv, hentry⟩ := hmap.delete key
    let nm1 : NeedleMap := { nm with
      m := m', metric := nm.metric.logDelete (Storage.deletedSize (nm.m.entry key)) }
    have happend := appendToIndexFile_eq nm1 hoff key offset tombstoneFileSize
    refine ⟨inMemory (nm1.appendToIndexFile key offset tombstoneFileSize), ?_, ⟨hinv, ?_⟩, rfl, hentry, fun _ _ _ => ?_⟩
    · show (nm.delete key offset >>= _) = _
      rw [NeedleMap.delete, hdel]
      rfl
    · rw [happend]
    · rw [happend]
      rfl
  | levelDb m =>
    obtain ⟨⟨e, he⟩, hoff⟩ := h
    have hdel : Holds (m.delete key offset).db (e.delete levelMark key) := he.step (.delete key offset)
    have hfile : (m.delete key offset).indexFileOffset = (m.delete key offset).indexFile.length ∧
        ∀ e', e key = some e' → e'.2.isDeleted = false →
          (m.delete key offset).indexFile = m.indexFile ++ toBytes key offset tombstoneFileSize := by
      unfold LevelDbNeedleMap.delete
      rw [he.getFromDb]
      cases e key with
      | none => exact ⟨hoff, by simp⟩
      | some e' =>
        have happend := appendToIndexFile_eq
          { m with metric := m.metric.logDelete e'.2 } hoff key offset tombstoneFileSize
        dsimp only [Option.map_some]
        rw [happend]
        cases hd : e'.2.isDeleted with
        | true => exact ⟨hoff, fun _ heq hlive => by cases heq; cases hd.symm.trans hlive⟩
        | false => exact ⟨rfl, fun _ _ _ => rfl⟩
    refine ⟨levelDb (m.delete key offset), rfl, ⟨⟨_, hdel⟩, hfile.1⟩, rfl, ?_, ?_⟩
    · rw [entry_of_holds hdel, ← entry_of_holds he]
      rfl
    · rw [entry_of_holds he]
      exact hfile.2

/-- **Delete** of a live entry marks it and logs a tombstone. -/
theorem delete (h : nm.Inv) {key : NeedleId} {e : Offset × Size} (he : nm.entry key = some e)
    (hlive : e.2.isDeleted = false) (offset : Offset) :
    ∃ nm', nm.delete key offset = .ok nm' ∧ nm'.Inv ∧ nm'.kind = nm.kind ∧
      nm'.entry = nm.entry.set key (mark nm.kind e) ∧
      nm'.indexFile = nm.indexFile ++ toBytes key offset tombstoneFileSize := by
  obtain ⟨nm', hdel, hinv, hkind, hentry, hindex⟩ := h.marks key offset
  rw [MarkMap.delete, he] at hentry
  exact ⟨nm', hdel, hinv, hkind, hentry, hindex e he hlive⟩

end Inv

theorem mark_fst (kind : NeedleMapKind) (e : Offset × Size) : (mark kind e).1 = e.1 := by
  cases kind with
  | inMemory => rfl
  | levelDb =>
    show (levelMark e).1 = e.1
    unfold levelMark
    split <;> rfl

theorem mark_deleted (kind : NeedleMapKind) (e : Offset × Size) :
    (mark kind e).2.isDeleted = true ∨ kind = .levelDb ∧ e.2 = 0 ∧ mark kind e = e := by
  cases kind with
  | inMemory => exact .inl (isDeleted_marked e.2)
  | levelDb =>
    show (levelMark e).2.isDeleted = true ∨ _ ∧ e.2 = 0 ∧ levelMark e = e
    unfold levelMark
    cases hd : e.2.isDeleted with
    | true => exact .inl (by rw [if_pos rfl, hd])
    | false =>
      rw [if_neg Bool.false_ne_true]
      have h0 := isDeleted_eq_false_iff.1 hd
      by_cases hz : e.2 = 0
      · refine .inr ⟨rfl, hz, Prod.ext rfl ?_⟩
        rw [hz]
        rfl
      · rw [isDeleted_iff, toInt_neg_of_pos h0]
        rw [size_eq_zero_iff] at hz
        omega

end NeedleMapper

end Storage
