import SeaweedFS.Storage.Proof.MemDb
import SeaweedFS.Storage.Proof.NeedleMapper

/-!
# Loading a needle map from the middle of an index file

`DoOffsetLoading` brings entries of an index file to a needle map that holds the entries before them. The
two kinds of maps mark a deletion in different ways, or forget the key, but what is live after loading is
what the entries say (`Replays.doOffsetLoading`).
-/

namespace Storage

open Lib List Function LevelDbNeedleMap NeedleMap NeedleMapper

variable {rows : List IdxEntry}

theorem liveRow_append (log : List IdxEntry) (e : IdxEntry) (key : NeedleId) :
    liveRow (log ++ [e]) key = if e.1 = key then (some e.2).filter isLiveRow else liveRow log key := by
  rw [liveRow, lastRow_append, apply_ite (Option.filter isLiveRow)]
  rfl

/-- The live part of what a map holds. -/
def liveEntry (m : MarkMap NeedleId (Offset × Size)) (key : NeedleId) : Option (Offset × Size) :=
  (m key).filter isLiveRow

/-- The map `m'` is `m` after the entry `e`, as far as live entries go. -/
def LoadsTo (m m' : MarkMap NeedleId (Offset × Size)) (e : IdxEntry) : Prop :=
  ∀ key, liveEntry m' key = if e.1 = key then (some e.2).filter isLiveRow else liveEntry m key

variable {m : MarkMap NeedleId (Offset × Size)} {e : IdxEntry}

theorem loadsTo_set : LoadsTo m (m.set e.1 e.2) e := by
  intro key
  unfold liveEntry
  by_cases hk : e.1 = key
  · subst hk
    rw [if_pos rfl, MarkMap.set_self]
  · rw [if_neg hk, MarkMap.set_of_ne _ (Ne.symm hk)]

theorem loadsTo_update {old : Option (Offset × Size)} (hdead : isLiveRow e.2 = false)
    (hold : old.filter isLiveRow = none) : LoadsTo m (Function.update m e.1 old) e := by
  intro key
  unfold liveEntry
  by_cases hk : e.1 = key
  · subst hk
    rw [if_pos rfl, update_self, hold, Option.filter_some, hdead]
    rfl
  · rw [if_neg hk, update_of_ne (Ne.symm hk)]

theorem replay_loadsTo : LoadsTo m (replay m e) e := by
  unfold replay
  split
  · exact loadsTo_set
  · rename_i hdead
    refine loadsTo_update (Bool.eq_false_iff.2 (mt isLiveRow_iff.1 hdead)) ?_
    cases m e.1 with
    | none => rfl
    | some old =>
      have hmarked : isLiveRow (markEntry old) = false := by
        rw [isLiveRow, show (markEntry old).2.isDeleted = true from isDeleted_marked old.2,
          Bool.or_true]
        rfl
      rw [Option.map_some, Option.filter_some, hmarked]
      rfl

/-! ## One entry -/

theorem NeedleMap.offsetLoadEntry_loads {nm : NeedleMap} (h : MapInv nm.m) (e : IdxEntry) :
    ∃ nm', onEntry NeedleMap.offsetLoadEntry nm e = .ok nm' ∧ MapInv nm'.m ∧
      LoadsTo nm.entry nm'.entry e ∧ nm'.indexFile = nm.indexFile ∧
      nm'.indexFileOffset = nm.indexFileOffset := by
  have hloads : LoadsTo nm.entry (replay nm.entry e) e := replay_loadsTo
  obtain ⟨key, offset, size⟩ := e
  simp only [onEntry, offsetLoadEntry, entry, replay] at hloads ⊢
  split at hloads
  · rename_i hlive
    obtain ⟨m', hset, hinv, he⟩ := h.set key offset size
    rw [← he] at hloads
    rw [if_pos hlive, hset]
    exact ⟨_, rfl, hinv, hloads, rfl, rfl⟩
  · rename_i hdead
    obtain ⟨m', hdel, hinv, he⟩ := h.delete key
    rw [← he] at hloads
    rw [if_neg hdead, hdel]
    exact ⟨_, rfl, hinv, hloads, rfl, rfl⟩

variable {entry : MarkMap NeedleId (Offset × Size)}

theorem Holds.erase {db : LevelDb} (h : Holds db entry)
    (key : NeedleId) : Holds (levelDbDelete db key) (Function.update entry key none) := by
  intro key'
  unfold levelDbDelete LevelDb.delete
  by_cases hk : key' = key
  · rw [hk, update_self, update_self]
    rfl
  · rw [update_of_ne fun hb => hk (needleIdToBytes_inj hb), update_of_ne hk]
    exact h key'

variable {m : LevelDbNeedleMap}

theorem LevelDbNeedleMap.offsetLoadEntry_loads (h : Holds m.db entry) (fresh : Bool) (e : IdxEntry) :
    ∃ entry', Holds (m.offsetLoadEntry fresh e.1 e.2.1 e.2.2).db entry' ∧ LoadsTo entry entry' e := by
  have hwrite := h.write e.1 e.2.1 e.2.2 false 0
  unfold offsetLoadEntry
  split
  · exact ⟨_, hwrite, loadsTo_set⟩
  · split
    · exact ⟨_, hwrite, loadsTo_set⟩
    · split
      · exact ⟨_, hwrite, loadsTo_set⟩
      · rename_i hdead
        exact ⟨_, h.erase e.1, loadsTo_update (Bool.eq_false_iff.2 (mt isLiveRow_iff.1 hdead)) rfl⟩

theorem LevelDbNeedleMap.offsetLoadEntry_index (m : LevelDbNeedleMap) (fresh : Bool) (key : NeedleId)
    (offset : Offset) (size : Size) :
    (m.offsetLoadEntry fresh key offset size).indexFile = m.indexFile ∧
      (m.offsetLoadEntry fresh key offset size).indexFileOffset = m.indexFileOffset := by
  unfold offsetLoadEntry
  split
  · exact ⟨rfl, rfl⟩
  · split
    · exact ⟨rfl, rfl⟩
    · split <;> exact ⟨rfl, rfl⟩

/-! ## All entries -/

/-- What is live in the map is what the entries say. -/
structure Replays (nm : NeedleMapper) (rows : List IdxEntry) : Prop where
  inv : nm.Inv
  live : ∀ key, liveEntry nm.entry key = liveRow rows key

theorem Replays.append {nm nm' : NeedleMapper}
    (h : Replays nm rows) (hinv : nm'.Inv) (hloads : LoadsTo nm.entry nm'.entry e) :
    Replays nm' (rows ++ [e]) where
  inv := hinv
  live := by
    intro key
    rw [hloads key, liveRow_append, h.live]

theorem replays_newTmpNm (kind : NeedleMapKind) : Replays (.newTmpNm kind) [] := by
  cases kind with
  | inMemory => exact ⟨⟨mapInv_new, rfl⟩, fun _ => rfl⟩
  | levelDb =>
    have hholds : Holds (fun _ => none) fun _ => none := fun _ => rfl
    exact ⟨⟨⟨_, hholds⟩, rfl⟩, fun _ => rfl⟩

theorem NeedleMap.foldlM_offsetLoadEntry {nm : NeedleMap}
    (h : Replays (.inMemory nm) rows) (rows' : List IdxEntry) :
    ∃ nm', rows'.foldlM (onEntry NeedleMap.offsetLoadEntry) nm = .ok nm' ∧
      Replays (.inMemory nm') (rows ++ rows') := by
  induction rows' generalizing nm rows with
  | nil => exact ⟨nm, rfl, by rwa [append_nil]⟩
  | cons e rows' ih =>
    obtain ⟨nm1, h1, hmap, hloads, hfile, hoff⟩ := offsetLoadEntry_loads h.inv.1 e
    have h' : Replays (.inMemory nm1) (rows ++ [e]) :=
      h.append ⟨hmap, by rw [hoff, hfile]; exact h.inv.2⟩ hloads
    obtain ⟨nm2, h2, hrest⟩ := ih h'
    refine ⟨nm2, ?_, by rwa [append_assoc] at hrest⟩
    rw [foldlM_cons, h1]
    exact h2

theorem LevelDbNeedleMap.foldlM_offsetLoadEntry
    (fresh : Bool) (h : Replays (.levelDb m) rows) (rows' : List IdxEntry) :
    ∃ m', rows'.foldlM (onEntry (ε := Panic) fun m key offset size =>
        .ok (LevelDbNeedleMap.offsetLoadEntry fresh m key offset size)) m = .ok m' ∧
      Replays (.levelDb m') (rows ++ rows') := by
  induction rows' generalizing m rows with
  | nil => exact ⟨m, rfl, by rwa [append_nil]⟩
  | cons e rows' ih =>
    obtain ⟨⟨entry, hentry⟩, hoff⟩ := h.inv
    obtain ⟨entry', hentry', hloads⟩ := offsetLoadEntry_loads hentry fresh e
    obtain ⟨hfile, hoff'⟩ := m.offsetLoadEntry_index fresh e.1 e.2.1 e.2.2
    have h' : Replays (.levelDb (m.offsetLoadEntry fresh e.1 e.2.1 e.2.2)) (rows ++ [e]) := by
      refine h.append ⟨⟨entry', hentry'⟩, by rw [hoff', hfile]; exact hoff⟩ ?_
      rw [entry_of_holds hentry, entry_of_holds hentry']
      exact hloads
    obtain ⟨m2, h2, hrest⟩ := ih h'
    refine ⟨m2, ?_, by rwa [append_assoc] at hrest⟩
    exact h2

variable {nm : NeedleMapper}

/-- **Loading** brings the entries from `startFrom` on to the map. -/
theorem Replays.doOffsetLoading (h : Replays nm rows) (indexFile : File) (startFrom : Nat) :
    ∃ nm', nm.doOffsetLoading indexFile startFrom = .ok nm' ∧
      Replays nm' (rows ++ rowsOf (indexFile.drop (startFrom * 16))) := by
  cases nm with
  | inMemory nm =>
    obtain ⟨nm', hload, h'⟩ := foldlM_offsetLoadEntry h (rowsOf (indexFile.drop (startFrom * 16)))
    refine ⟨.inMemory nm', ?_, h'⟩
    rw [NeedleMapper.doOffsetLoading, NeedleMap.doOffsetLoading, walkIndexFile_eq, hload]
    rfl
  | levelDb m =>
    obtain ⟨m', hload, h'⟩ := foldlM_offsetLoadEntry (startFrom == 0) h
      (rowsOf (indexFile.drop (startFrom * 16)))
    refine ⟨.levelDb m', ?_, h'⟩
    rw [NeedleMapper.doOffsetLoading, LevelDbNeedleMap.doOffsetLoading, walkIndexFile_eq, hload]
    rfl

theorem Replays.updateNeedleMap (h : Replays nm rows)
    (indexFile : File) : Replays (nm.updateNeedleMap indexFile) rows := by
  cases nm with
  | inMemory nm => exact ⟨⟨h.inv.1, rfl⟩, h.live⟩
  | levelDb m =>
    obtain ⟨⟨entry, hentry⟩, -⟩ := h.inv
    have hwatermark : Holds (m.updateNeedleMap indexFile).db entry := fun key =>
      (update_of_ne (needleIdToBytes_ne_watermarkKey key) _ m.db).trans (hentry key)
    refine ⟨⟨⟨entry, hwatermark⟩, rfl⟩, fun key => ?_⟩
    have hlive := h.live key
    rw [entry_of_holds hentry] at hlive
    rw [NeedleMapper.updateNeedleMap, entry_of_holds hwatermark]
    exact hlive

end Storage
