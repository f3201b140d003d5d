import SeaweedFS.Lib.SortedMap
import SeaweedFS.Storage.Idx

/-!
# `weed/storage/needle_map/memdb.go`: a sorted needle map

`MemDb` is a leveldb in memory. Its keys are the bytes of the ids, big endian, so that their order is
the order of the ids. Operations of the database succeed.
-/

namespace Storage

open Lib

/-- `MemDb`. -/
abbrev MemDb := SortedMap NeedleId (Offset × Size)

namespace MemDb

/-- `NewMemDb`. -/
def new : MemDb := SortedMap.empty

/-- `Set`. -/
def set (cm : MemDb) (key : NeedleId) (offset : Offset) (size : Size) : MemDb :=
  cm.insert key (offset, size)

/-- `Delete`. -/
def delete (cm : MemDb) (key : NeedleId) : MemDb := cm.erase key

/-- `AscendingVisit`, for a function that changes a state. -/
def ascendingVisit {σ ε : Type} (cm : MemDb) (visit : σ → NeedleValue → Except ε σ) (s : σ) :
    Except ε σ :=
  cm.entries.foldlM (fun s e => visit s ⟨e.1, e.2.1, e.2.2⟩) s

/-- `SaveToIdx`. -/
def saveToIdx {ε : Type} (cm : MemDb) : Except ε File :=
  cm.ascendingVisit (fun idxFile value =>
    if value.offset.isZero || value.size.isDeleted then .ok idxFile
    else .ok (idxFile ++ toBytes value.key value.offset value.size)) []

/-- `LoadFilterFromReaderAt`. -/
def loadFilterFromReaderAt {ε : Type} (cm : MemDb) (readerAt : File)
    (isFilterOffsetZero isFilterDeleted : Bool) : Except ε MemDb :=
  walkIndexFile (fun cm key offset size =>
    if isFilterOffsetZero && offset.isZero || isFilterDeleted && size.isDeleted then
      .ok (delete cm key)
    else .ok (set cm key offset size)) readerAt 0 cm

/-- `LoadFromIdx`. -/
def loadFromIdx {ε : Type} (cm : MemDb) (idxFile : File) : Except ε MemDb :=
  cm.loadFilterFromReaderAt idxFile true true

end MemDb

end Storage
