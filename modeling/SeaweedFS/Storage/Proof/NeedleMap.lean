import SeaweedFS.Storage.NeedleMap
import SeaweedFS.Storage.Proof.CompactMap
import SeaweedFS.Storage.Proof.Idx

/-!
# A needle map is the replay of its index file

Every `Put` and `Delete` changes the map and appends an entry (`LogInv`). Loading the file does to each key what the
entry's operation did (`replay_logged`), so both maps hold the same (`loadCompactNeedleMap_get`).
-/

namespace Storage

open Lib List

variable {nm : NeedleMap} {ops : List NeedleOp}

/-- The operations of a needle map. -/
inductive NeedleOp where
  | put (key : NeedleId) (offset : Offset) (size : Size)
  | delete (key : NeedleId) (offset : Offset)
deriving DecidableEq

namespace NeedleOp

/-- What a volume puts: an offset that is not zero, and a size that is not negative. -/
def Ok : NeedleOp → Prop
  | put _ offset size => offset.isZero = false ∧ 0 ≤ size
  | delete _ _ => True

instance : DecidablePred Ok
  | put _ _ _ => inferInstanceAs (Decidable (_ ∧ _))
  | delete _ _ => inferInstanceAs (Decidable True)

/-- The entry it appends. -/
def logged : NeedleOp → IdxEntry
  | put key offset size => (key, offset, size)
  | delete key offset => (key, offset, tombstoneFileSize)

/-- What it does to a map with delete marks. -/
def apply (mark : Offset × Size → Offset × Size) (m : MarkMap NeedleId (Offset × Size)) :
    NeedleOp → MarkMap NeedleId (Offset × Size)
  | put key offset size => m.set key (offset, size)
  | delete key _ => m.delete mark key

end NeedleOp

/-- One operation. -/
def NeedleMap.step (nm : NeedleMap) : NeedleOp → Except Panic NeedleMap
  | .put key offset size => nm.put key offset size
  | .delete key offset => nm.delete key offset

/-- What the map of `nm` holds. -/
def NeedleMap.entry (nm : NeedleMap) : MarkMap NeedleId (Offset × Size) := nm.m.entry

/-- The state after `ops`: what the map holds, and the log. -/
structure LogInv (ops : List NeedleOp) (nm : NeedleMap) : Prop where
  map : MapInv nm.m
  entry : nm.entry = ops.foldl (NeedleOp.apply markEntry) fun _ => none
  file : nm.indexFile = (ops.map NeedleOp.logged).flatMap IdxEntry.bytes
  offset : nm.indexFileOffset = nm.indexFile.length

theorem logInv_new : LogInv [] (newCompactNeedleMap []) := ⟨mapInv_new, entry_new, rfl, rfl⟩

theorem LogInv.append (h : LogInv ops nm) {op : NeedleOp} {m : CompactMap} {metric : MapMetric} (hmap : MapInv m)
    (hentry : m.entry = op.apply markEntry nm.entry) : LogInv (ops ++ [op])
      ({ nm with m := m, metric := metric }.appendToIndexFile op.logged.1 op.logged.2.1 op.logged.2.2) := by
  have happend : File.writeAt nm.indexFile op.logged.bytes nm.indexFileOffset = nm.indexFile ++ op.logged.bytes := by
    rw [h.offset, File.writeAt_length]
  refine ⟨hmap, ?_, ?_, ?_⟩
  · rw [foldl_append, ← h.entry]
    exact hentry
  · rw [map_append, flatMap_append, ← h.file]
    exact happend.trans (by simp)
  · exact (congrArg (· + _) h.offset).trans ((congrArg List.length happend).trans length_append).symm

/-- **Step** of the log. -/
theorem LogInv.step (h : LogInv ops nm) (op : NeedleOp) :
    ∃ nm', nm.step op = .ok nm' ∧ LogInv (ops ++ [op]) nm' := by
  cases op with
  | put key offset size =>
    obtain ⟨m', hset, hinv, he⟩ := h.map.set key offset size
    exact ⟨_, by rw [NeedleMap.step, NeedleMap.put, hset]; rfl, h.append hinv he⟩
  | delete key offset =>
    obtain ⟨m', hdel, hinv, he⟩ := h.map.delete key
    exact ⟨_, by rw [NeedleMap.step, NeedleMap.delete, hdel]; rfl, h.append hinv he⟩

/-- **Run** of the log. -/
theorem LogInv.run (h : LogInv ops nm) (ops' : List NeedleOp) :
    ∃ nm', ops'.foldlM NeedleMap.step nm = .ok nm' ∧ LogInv (ops ++ ops') nm' := by
  induction ops' generalizing ops nm with
  | nil => exact ⟨nm, rfl, by simpa using h⟩
  | cons op ops' ih =>
    obtain ⟨nm1, h1, hinv1⟩ := h.step op
    obtain ⟨nm2, h2, hinv2⟩ := ih hinv1
    refine ⟨nm2, ?_, by simpa using hinv2⟩
    rw [foldlM_cons, h1]
    exact h2

/-! ## Loading -/

/-- What an entry does to the map that is loaded. -/
def replay (m : MarkMap NeedleId (Offset × Size)) (e : IdxEntry) : MarkMap NeedleId (Offset × Size) :=
  if e.2.1.isZero = false ∧ e.2.2.isDeleted = false then m.set e.1 (e.2.1, e.2.2)
  else m.delete markEntry e.1

theorem loadEntry_replay (h : MapInv nm.m) (e : IdxEntry) :
    ∃ nm', onEntry NeedleMap.loadEntry nm e = .ok nm' ∧ MapInv nm'.m ∧
      nm'.entry = replay nm.entry e := by
  obtain ⟨key, offset, size⟩ := e
  simp only [onEntry, NeedleMap.loadEntry, replay]
  split
  · obtain ⟨m', hset, hinv, he⟩ := h.set key offset size
    exact ⟨{ nm with
      m := m'
      metric := (nm.metric.maybeSetMaxFileKey key).loadSet size ((nm.m.entry key).getD ({}, 0)).1
        ((nm.m.entry key).getD ({}, 0)).2 }, by rw [hset]; rfl, hinv, he⟩
  · obtain ⟨m', hdel, hinv, he⟩ := h.delete key
    exact ⟨{ nm with
      m := m'
      metric := (nm.metric.maybeSetMaxFileKey key).loadDelete (deletedSize (nm.m.entry key)) },
      by rw [hdel]; rfl, hinv, he⟩

theorem loadEntries_replay (entries : List IdxEntry) (h : MapInv nm.m) :
    ∃ nm', entries.foldlM (onEntry NeedleMap.loadEntry) nm = .ok nm' ∧ MapInv nm'.m ∧
      nm'.entry = entries.foldl replay nm.entry := by
  induction entries generalizing nm with
  | nil => exact ⟨nm, rfl, h, rfl⟩
  | cons e entries ih =>
    obtain ⟨nm1, h1, hinv1, he1⟩ := loadEntry_replay h e
    obtain ⟨nm2, h2, hinv2, he2⟩ := ih hinv1
    refine ⟨nm2, ?_, hinv2, ?_⟩
    · rw [foldlM_cons, h1]
      exact h2
    · rw [he2, he1, foldl_cons]

theorem isDeleted_of_nonneg {size : Size} (h : 0 ≤ size) : size.isDeleted = false := by
  rw [isDeleted_eq_false_iff]
  simpa using Int32.le_iff_toInt_le.1 h

theorem replay_logged {op : NeedleOp} (h : op.Ok) (m : MarkMap NeedleId (Offset × Size)) :
    replay m op.logged = op.apply markEntry m := by
  cases op with
  | put key offset size => exact if_pos ⟨h.1, isDeleted_of_nonneg h.2⟩
  | delete key offset =>
    refine if_neg fun hno => ?_
    have htomb : tombstoneFileSize.isDeleted = true := by decide
    cases hno.2

theorem foldl_replay_logged (h : ∀ op ∈ ops, op.Ok) (m : MarkMap NeedleId (Offset × Size)) :
    (ops.map NeedleOp.logged).foldl replay m = ops.foldl (NeedleOp.apply markEntry) m := by
  induction ops generalizing m with
  | nil => rfl
  | cons op ops ih =>
    rw [map_cons, foldl_cons, foldl_cons, replay_logged (h op mem_cons_self),
      ih fun op hop => h op (mem_cons_of_mem _ hop)]

/-- **Loading the index file** of a needle map gives a map that answers every `Get` as the map did. -/
theorem loadCompactNeedleMap_get (ops : List NeedleOp) (hok : ∀ op ∈ ops, op.Ok) :
    ∃ nm nm', ops.foldlM NeedleMap.step (newCompactNeedleMap []) = .ok nm ∧
      loadCompactNeedleMap nm.indexFile = .ok nm' ∧
      ∀ key, ∃ value, nm.get key = .ok value ∧ nm'.get key = .ok value := by
  obtain ⟨nm, hrun, hinv⟩ := logInv_new.run ops
  rw [nil_append] at hinv
  have hnew : MapInv (newCompactNeedleMap nm.indexFile).m := mapInv_new
  obtain ⟨nm', hload, hinv', hentry'⟩ := loadEntries_replay (rowsOf nm.indexFile) hnew
  refine ⟨nm, nm', hrun, ?_, fun key => ⟨_, hinv.map.get key, ?_⟩⟩
  · rw [loadCompactNeedleMap, doLoading, walkIndexFile_eq, Nat.zero_mul, drop_zero]
    exact hload
  · have hsame : nm'.m.entry = nm.m.entry := by
      rw [hinv.file, rowsOf_flatMap, foldl_replay_logged hok] at hentry'
      exact hentry'.trans hinv.entry.symm
    rw [NeedleMap.get, hinv'.get, hsame]

/-- A key that is put, deleted and put again, and another that is deleted. -/
def recreated : List NeedleOp :=
  [.put 7 ⟨0, 0, 0, 1⟩ 20, .put 9 ⟨0, 0, 0, 8⟩ 0, .delete 7 ⟨0, 0, 0, 12⟩, .delete 9 ⟨0, 0, 0, 16⟩,
    .put 7 ⟨0, 0, 0, 20⟩ 30]

theorem loadCompactNeedleMap_get_recreated :
    (∀ op ∈ recreated, op.Ok) ∧
      ∃ nm nm', recreated.foldlM NeedleMap.step (newCompactNeedleMap []) = .ok nm ∧
        loadCompactNeedleMap nm.indexFile = .ok nm' ∧
        ∀ key, ∃ value, nm.get key = .ok value ∧ nm'.get key = .ok value :=
  have hok : ∀ op ∈ recreated, op.Ok := by decide
  ⟨hok, loadCompactNeedleMap_get recreated hok⟩

end Storage
