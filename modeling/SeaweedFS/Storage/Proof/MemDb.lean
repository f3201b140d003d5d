import SeaweedFS.Storage.MemDb
import SeaweedFS.Storage.Proof.Idx

/-!
# The sorted map of an index file

A `MemDb` that is loaded from an index file holds what the last entry of each key says, if it is live
(`loadFromIdx_eq`, `get_loadRows`); saving writes its live entries in ascending order (`saveToIdx_eq`).
-/

namespace Storage

open Lib List SortedMap

/-- An entry that names a record: neither its offset is zero nor its size deleted. -/
def isLiveRow (e : Offset × Size) : Bool := !(e.1.isZero || e.2.isDeleted)

variable {e : Offset × Size}

theorem isLiveRow_iff : isLiveRow e = true ↔ e.1.isZero = false ∧ e.2.isDeleted = false := by
  rw [isLiveRow, Bool.not_eq_true', Bool.or_eq_false_iff]

theorem dead_eq_not (e : Offset × Size) : (e.1.isZero || e.2.isDeleted) = !isLiveRow e :=
  (Bool.not_not _).symm

/-- What the log says of a key: the last entry, if it is live. -/
def liveRow (log : List IdxEntry) (key : NeedleId) : Option (Offset × Size) :=
  (lastRow log key).filter isLiveRow

namespace MemDb

/-- What loading does with an entry. -/
def loadRow (cm : MemDb) (e : IdxEntry) : MemDb :=
  if isLiveRow e.2 then cm.set e.1 e.2.1 e.2.2 else cm.delete e.1

theorem loadFromIdx_eq {ε : Type} (cm : MemDb) (idxFile : File) :
    cm.loadFromIdx idxFile = (.ok ((rowsOf idxFile).foldl loadRow cm) : Except ε MemDb) := by
  have hstep : ∀ (cm : MemDb) (e : IdxEntry), onEntry (ε := ε) (fun cm key offset size =>
      if true && Offset.isZero offset || true && Size.isDeleted size then .ok (delete cm key)
      else .ok (set cm key offset size)) cm e = .ok (loadRow cm e) := by
    intro cm e
    dsimp only [onEntry, loadRow]
    rw [Bool.true_and, Bool.true_and, dead_eq_not]
    cases isLiveRow e.2 <;> rfl
  rw [loadFromIdx, loadFilterFromReaderAt, walkIndexFile_eq, Nat.zero_mul, drop_zero]
  generalize rowsOf idxFile = rows
  induction rows generalizing cm with
  | nil => rfl
  | cons e rows ih =>
    rw [foldlM_cons, hstep]
    exact ih (loadRow cm e)

theorem get_loadRow (cm : MemDb) (e : IdxEntry) (key : NeedleId) : (loadRow cm e).get key =
    if e.1 = key then (some e.2).filter isLiveRow else cm.get key := by
  rw [loadRow, Option.filter_some]
  split
  · rw [set, get_insert]
  · rw [delete, get_erase]

/-- **Loading**: the last entry of a key counts, if it is live. -/
theorem get_loadRows (log : List IdxEntry) (key : NeedleId) :
    (log.foldl loadRow new).get key = liveRow log key := by
  induction log using reverseRecOn with
  | nil => rfl
  | append_singleton log e ih =>
    rw [foldl_append, liveRow, lastRow_append, foldl_cons, foldl_nil, get_loadRow, ih,
      apply_ite (Option.filter isLiveRow)]
    rfl

theorem lastRow_entries (nm : MemDb) (key : NeedleId) : lastRow nm.entries key = nm.get key := by
  cases hlast : lastRow nm.entries key with
  | some e => exact ((mem_entries nm key e).1 (mem_of_lastRow hlast)).symm
  | none =>
    cases hget : nm.get key with
    | none => rfl
    | some e => exact absurd hlast (lastRow_ne_none ((mem_entries nm key e).2 hget))

/-- The entries that are saved. -/
def liveEntries (cm : MemDb) : List IdxEntry := cm.entries.filter fun e => isLiveRow e.2

/-- **Saving** writes the live entries. -/
theorem saveToIdx_eq {ε : Type} (cm : MemDb) :
    cm.saveToIdx = (.ok (cm.liveEntries.flatMap IdxEntry.bytes) : Except ε File) := by
  have hfold : ∀ (es : List IdxEntry) (file : File), es.foldlM (fun idxFile (e : IdxEntry) =>
        if e.2.1.isZero || e.2.2.isDeleted then (.ok idxFile : Except ε File)
        else .ok (idxFile ++ toBytes e.1 e.2.1 e.2.2)) file =
        .ok (file ++ (es.filter fun e => isLiveRow e.2).flatMap IdxEntry.bytes) := by
    intro es
    induction es with
    | nil =>
      intro file
      exact congrArg Except.ok (append_nil file).symm
    | cons e es ih =>
      intro file
      rw [foldlM_cons, filter_cons, dead_eq_not]
      cases isLiveRow e.2 with
      | true =>
        rw [if_pos rfl, flatMap_cons, ← append_assoc]
        exact ih _
      | false => exact ih _
  exact hfold cm.entries []

theorem mem_liveEntries {cm : MemDb} {key : NeedleId} :
    (key, e) ∈ cm.liveEntries ↔ cm.get key = some e ∧ isLiveRow e = true := by
  rw [liveEntries, mem_filter, mem_entries]

theorem liveRow_liveEntries (cm : MemDb) (key : NeedleId) :
    liveRow cm.liveEntries key = (cm.get key).filter isLiveRow := by
  refine Option.ext fun e => ?_
  simp only [liveRow, Option.filter_eq_some_iff]
  refine ⟨fun h => mem_liveEntries.1 (mem_of_lastRow h.1), fun h => ⟨?_, h.2⟩⟩
  obtain ⟨e', hlast⟩ := Option.ne_none_iff_exists'.1 (lastRow_ne_none (mem_liveEntries.2 h))
  rw [hlast, ← (mem_liveEntries.1 (mem_of_lastRow hlast)).1, h.1]

/-- **Round trip.** `SaveToIdx` writes exactly the live entries, each key once and in ascending order, and loading
the file gives them again. -/
theorem loadFromIdx_saveToIdx (ε : Type) (cm : MemDb) :
    ∃ file cm', cm.saveToIdx = (.ok file : Except ε File) ∧ new.loadFromIdx file = (.ok cm' : Except ε MemDb) ∧
      file = (rowsOf file).flatMap IdxEntry.bytes ∧ (rowsOf file).Pairwise (fun e e' => e.1 < e'.1) ∧
      (∀ key e, (key, e) ∈ rowsOf file ↔ cm.get key = some e ∧ isLiveRow e = true) ∧
      ∀ key, cm'.get key = (cm.get key).filter isLiveRow := by
  refine ⟨_, _, saveToIdx_eq cm, loadFromIdx_eq _ _, ?_⟩
  rw [rowsOf_flatMap]
  refine ⟨rfl, cm.sorted.filter _, fun key e => mem_liveEntries, fun key => ?_⟩
  rw [get_loadRows, liveRow_liveEntries]

end MemDb

end Storage
