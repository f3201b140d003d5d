import SeaweedFS.Storage.LevelDb
import SeaweedFS.Storage.Proof.NeedleMap

/-!
# The two needle maps

The database is a map with delete marks too, but its mark of an entry of size 0 is no mark (`levelMark`).
-/

namespace Storage

open Lib Util List Function MarkMap Option

variable {entry : MarkMap NeedleId (Offset × Size)} {m : LevelDbNeedleMap} {key : NeedleId}
variable {ops : List NeedleOp}

/-- The mark that a deletion leaves in the database. -/
def levelMark (e : Offset × Size) : Offset × Size := if e.2.isDeleted then e else (e.1, -e.2)

/-- One operation. -/
def LevelDbNeedleMap.step (m : LevelDbNeedleMap) : NeedleOp → LevelDbNeedleMap
  | .put key offset size => m.put key offset size
  | .delete key offset => m.delete key offset

/-- The database holds `entry`. -/
def Holds (db : LevelDb) (entry : MarkMap NeedleId (Offset × Size)) : Prop :=
  ∀ key, db (needleIdToBytes key) = (entry key).map fun e => offsetToBytes e.1 ++ sizeToBytes e.2

theorem needleIdToBytes_inj {key' : NeedleId} (h : needleIdToBytes key = needleIdToBytes key') :
    key = key' := by
  rw [← bytesToNeedleId_needleIdToBytes key, h, bytesToNeedleId_needleIdToBytes]

theorem needleIdToBytes_ne_watermarkKey (key : NeedleId) : needleIdToBytes key ≠ watermarkKey := by
  intro h
  have := congrArg List.length h
  cases this

theorem holds_new : Holds newLevelDbNeedleMap.db fun _ => none := by
  intro key
  exact update_of_ne (needleIdToBytes_ne_watermarkKey key) _ (fun _ => none)

theorem Holds.write {db : LevelDb} (h : Holds db entry)
    (key : NeedleId) (offset : Offset) (size : Size) (update : Bool) (watermark : UInt64) :
    Holds (levelDbWrite db key offset size update watermark) (entry.set key (offset, size)) := by
  intro key'
  have hkey : (toBytes key offset size).take needleIdSize = needleIdToBytes key := rfl
  have hval : ((toBytes key offset size).drop needleIdSize).take (offsetSize + sizeSize) =
      offsetToBytes offset ++ sizeToBytes size := rfl
  have hput : db.put (needleIdToBytes key) (offsetToBytes offset ++ sizeToBytes size)
      (needleIdToBytes key') =
      (entry.set key (offset, size) key').map fun e => offsetToBytes e.1 ++ sizeToBytes e.2 := by
    by_cases hk : key' = key
    · rw [hk, LevelDb.put, update_self, set_self]
      rfl
    · rw [LevelDb.put, update_of_ne fun hb => hk (needleIdToBytes_inj hb), set_of_ne _ hk]
      exact h key'
  cases update with
  | false => exact hput
  | true =>
    show update _ watermarkKey _ (needleIdToBytes key') = _
    rw [update_of_ne (needleIdToBytes_ne_watermarkKey key')]
    exact hput

theorem Holds.getFromDb (h : Holds m.db entry) (key : NeedleId) :
    m.getFromDb key = (entry key).map fun e => ⟨key, e.1, e.2⟩ := by
  rw [LevelDbNeedleMap.getFromDb, h key]
  cases entry key with
  | none => rfl
  | some e =>
    have hoff : (offsetToBytes e.1 ++ sizeToBytes e.2).take offsetSize = offsetToBytes e.1 := rfl
    have hsize : ((offsetToBytes e.1 ++ sizeToBytes e.2).drop offsetSize).take sizeSize =
        sizeToBytes e.2 := rfl
    simp only [Option.map_some, hsize, bytesToSize_sizeToBytes]
    rfl

/-- **Step** of the database. -/
theorem Holds.step
    (h : Holds m.db entry) (op : NeedleOp) : Holds (m.step op).db (op.apply levelMark entry) := by
  cases op with
  | put key offset size => exact h.write key offset size _ _
  | delete key offset =>
    show Holds (m.delete key offset).db (entry.delete levelMark key)
    have hget := h.getFromDb key
    unfold LevelDbNeedleMap.delete
    cases he : entry key with
    | none =>
      rw [hget, he, delete_eq_self (by simp [he])]
      exact h
    | some e =>
      rw [hget, he]
      dsimp only [map_some]
      split
      · rename_i hd
        rw [delete_eq_self]
        · exact h
        · intro v hv
          rw [he, some.injEq] at hv
          rw [← hv, levelMark, if_pos hd]
      · rename_i hd
        have hmark : entry.delete levelMark key = entry.set key (e.1, -e.2) := by
          rw [MarkMap.delete, MarkMap.set, he, Option.map_some, levelMark, if_neg hd]
        rw [hmark]
        exact h.write key e.1 (-e.2) _ _

/-- **Run** of the database. -/
theorem Holds.run (h : Holds m.db entry) (ops : List NeedleOp) :
    Holds (ops.foldl LevelDbNeedleMap.step m).db (ops.foldl (NeedleOp.apply levelMark) entry) := by
  induction ops generalizing m entry with
  | nil => exact h
  | cons op ops ih => exact ih (h.step op)

/-! ## What is at a key -/

/-- There is no `Put` of `key` in `ops`. -/
def NoPut (key : NeedleId) (ops : List NeedleOp) : Prop :=
  ∀ offset size, NeedleOp.put key offset size ∉ ops

/-- There is a `Delete` of `key` in `ops`. -/
def HasDelete (key : NeedleId) (ops : List NeedleOp) : Prop :=
  ∃ offset, NeedleOp.delete key offset ∈ ops

variable {mark : Offset × Size → Offset × Size}

theorem apply_noPut (hno : NoPut key ops) {m : MarkMap NeedleId (Offset × Size)} (hm : m key = none) :
    ops.foldl (NeedleOp.apply mark) m key = none := by
  induction ops generalizing m with
  | nil => exact hm
  | cons op ops ih =>
    refine ih (fun o s h => hno o s (mem_cons_of_mem _ h)) ?_
    cases op with
    | put key' offset size =>
      have hne : key ≠ key' := fun h => hno offset size (h ▸ mem_cons_self)
      exact (set_of_ne m hne _).trans hm
    | delete key' offset =>
      by_cases hk : key = key'
      · rw [← hk]
        exact (delete_self mark m key).trans (by rw [hm]; rfl)
      · exact (delete_of_ne mark m hk).trans hm

theorem apply_after (hmark : ∀ e, mark (mark e) = mark e) (hno : NoPut key ops) :
    ∀ {m : MarkMap NeedleId (Offset × Size)} {e : Offset × Size}, m key = some e →
      (HasDelete key ops → ops.foldl (NeedleOp.apply mark) m key = some (mark e)) ∧
      (¬ HasDelete key ops → ops.foldl (NeedleOp.apply mark) m key = some e) := by
  induction ops with
  | nil =>
    intro m e hm
    exact ⟨fun ⟨o, h⟩ => absurd h not_mem_nil, fun _ => hm⟩
  | cons op ops ih =>
    intro m e hm
    have ih := @ih fun o s h => hno o s (mem_cons_of_mem _ h)
    cases op with
    | put key' offset size =>
      have hne : key ≠ key' := fun h => hno offset size (h ▸ mem_cons_self)
      obtain ⟨h1, h2⟩ := ih ((set_of_ne m hne (offset, size)).trans hm)
      refine ⟨fun ⟨o, h⟩ => h1 ⟨o, ?_⟩, fun h => h2 fun ⟨o, ho⟩ => h ⟨o, mem_cons_of_mem _ ho⟩⟩
      simpa using h
    | delete key' offset =>
      by_cases hk : key = key'
      · subst hk
        have hm' : (NeedleOp.delete key offset).apply mark m key = some (mark e) :=
          (delete_self mark m key).trans (by rw [hm]; rfl)
        obtain ⟨h1, h2⟩ := ih hm'
        refine ⟨fun _ => ?_, fun h => absurd ⟨offset, mem_cons_self⟩ h⟩
        rw [foldl_cons]
        by_cases hd : HasDelete key ops
        · rw [h1 hd, hmark]
        · exact h2 hd
      · obtain ⟨h1, h2⟩ := ih ((delete_of_ne mark m hk).trans hm)
        refine ⟨fun ⟨o, h⟩ => h1 ⟨o, ?_⟩, fun h => h2 fun ⟨o, ho⟩ => h ⟨o, mem_cons_of_mem _ ho⟩⟩
        simpa [hk] using h

theorem noPut_or_last (key : NeedleId) (ops : List NeedleOp) :
    NoPut key ops ∨ ∃ before offset size after,
      ops = before ++ NeedleOp.put key offset size :: after ∧ NoPut key after := by
  induction ops with
  | nil => exact .inl fun o s h => by cases h
  | cons op ops ih =>
    rcases ih with hno | ⟨before, offset, size, after, rfl, hno⟩
    · by_cases hop : ∃ offset size, op = NeedleOp.put key offset size
      · obtain ⟨offset, size, rfl⟩ := hop
        exact .inr ⟨[], offset, size, ops, rfl, hno⟩
      · refine .inl fun o s h => ?_
        rcases List.mem_cons.1 h with rfl | h
        · exact hop ⟨o, s, rfl⟩
        · exact hno o s h
    · exact .inr ⟨op :: before, offset, size, after, rfl, hno⟩

theorem last_put_unique {before before' after after' : List NeedleOp}
    {offset offset' : Offset} {size size' : Size} (h : before ++ NeedleOp.put key offset size :: after =
      before' ++ NeedleOp.put key offset' size' :: after')
    (hno : NoPut key after) (hno' : NoPut key after') :
    before = before' ∧ (offset = offset' ∧ size = size') ∧ after = after' := by
  induction before generalizing before' with
  | nil =>
    cases before' with
    | nil =>
      simp only [nil_append, List.cons.injEq, NeedleOp.put.injEq, true_and] at h
      exact ⟨rfl, h.1, h.2⟩
    | cons op before' =>
      rw [nil_append, cons_append, List.cons.injEq] at h
      exact absurd (h.2 ▸ by simp) (hno offset' size')
  | cons op before ih =>
    cases before' with
    | nil =>
      rw [nil_append, cons_append, List.cons.injEq] at h
      exact absurd (h.2 ▸ by simp) (hno' offset size)
    | cons op' before' =>
      rw [cons_append, cons_append, List.cons.injEq] at h
      obtain ⟨h1, h2, h3⟩ := ih h.2
      exact ⟨by rw [h.1, h1], h2, h3⟩

/-! ## Agreement -/

/-- The offset and the size of a live value. -/
def liveOf (value : Option NeedleValue) : Option (Offset × Size) :=
  match value with
  | some nv => if nv.size.isDeleted then none else some (nv.offset, nv.size)
  | none => none

/-- The last `Put` of `key` is of size 0, and a `Delete` follows. -/
def EmptyDeleted (key : NeedleId) (ops : List NeedleOp) : Prop :=
  ∃ before offset after, ops = before ++ NeedleOp.put key offset 0 :: after ∧ NoPut key after ∧
    HasDelete key after

theorem levelMark_levelMark (e : Offset × Size) : levelMark (levelMark e) = levelMark e := by
  by_cases hd : e.2.isDeleted = true
  · have hsame : levelMark e = e := if_pos hd
    rw [hsame, hsame]
  · have hneg : levelMark e = (e.1, -e.2) := if_neg hd
    rw [hneg]
    by_cases hd' : (-e.2 : Size).isDeleted = true
    · exact if_pos hd'
    · -- only 0 is its own negation here
      have hs := isDeleted_eq_false_iff.1 (Bool.not_eq_true _ ▸ hd)
      have hs' := isDeleted_eq_false_iff.1 (Bool.not_eq_true _ ▸ hd')
      rw [toInt_neg_of_pos hs] at hs'
      have h0 : e.2 = 0 := size_eq_zero_iff.2 (by omega)
      rw [h0]
      rfl

theorem markEntry_markEntry (e : Offset × Size) : markEntry (markEntry e) = markEntry e := by
  simp only [markEntry, marked_marked]

theorem liveOf_some (key : NeedleId) (e : Offset × Size) :
    liveOf (some ⟨key, e.1, e.2⟩) = if e.2.isDeleted then none else some e := rfl

theorem liveOf_marks {e : Offset × Size} (h : 0 ≤ e.2) :
    liveOf (some ⟨key, (markEntry e).1, (markEntry e).2⟩) =
      liveOf (some ⟨key, (levelMark e).1, (levelMark e).2⟩) ↔ e.2 ≠ 0 := by
  have hs := isDeleted_of_nonneg h
  have hint := isDeleted_eq_false_iff.1 hs
  have hlevel : levelMark e = (e.1, -e.2) := if_neg (by simp [hs])
  have hmem : (markEntry e).2.isDeleted = true := isDeleted_marked e.2
  rw [liveOf_some, liveOf_some, hlevel, if_pos hmem]
  by_cases h0 : e.2 = 0
  · have hzero : (-0 : Size).isDeleted = false := by decide
    rw [h0, if_neg (by rw [hzero]; simp)]
    simp
  · have hneg : (-e.2 : Size).isDeleted = true := by
      rw [isDeleted_iff, toInt_neg_of_pos hint]
      have := mt size_eq_zero_iff.2 h0
      omega
    rw [if_pos hneg]
    simp [h0]

theorem liveOf_agree (hok : ∀ op ∈ ops, op.Ok) (key : NeedleId) :
    liveOf ((ops.foldl (NeedleOp.apply markEntry) (fun _ => none) key).map fun e => ⟨key, e.1, e.2⟩) =
      liveOf ((ops.foldl (NeedleOp.apply levelMark) (fun _ => none) key).map
        fun e => ⟨key, e.1, e.2⟩) ↔ ¬ EmptyDeleted key ops := by
  rcases noPut_or_last key ops with hno | ⟨before, offset, size, after, rfl, hno⟩
  · rw [apply_noPut hno rfl, apply_noPut hno rfl]
    refine iff_of_true rfl ?_
    rintro ⟨before, offset, after, rfl, -, -⟩
    exact hno offset 0 (by simp)
  · have hsize : 0 ≤ size := (hok (.put key offset size) (by simp)).2
    -- the last `Put` is the one that `EmptyDeleted` speaks of
    have hempty : EmptyDeleted key (before ++ .put key offset size :: after) ↔
        size = 0 ∧ HasDelete key after := by
      constructor
      · rintro ⟨before', offset', after', he, hno', hd⟩
        obtain ⟨-, h1, rfl⟩ := last_put_unique he hno hno'
        exact ⟨h1.2, hd⟩
      · rintro ⟨rfl, hd⟩
        exact ⟨before, offset, after, rfl, hno, hd⟩
    have hput : ∀ mark, (NeedleOp.put key offset size).apply mark
        (before.foldl (NeedleOp.apply mark) fun _ => none) key = some (offset, size) :=
      fun mark => set_self ..
    rw [hempty, foldl_append, foldl_append, foldl_cons, foldl_cons]
    obtain ⟨h1, h2⟩ := apply_after markEntry_markEntry hno (hput markEntry)
    obtain ⟨h3, h4⟩ := apply_after levelMark_levelMark hno (hput levelMark)
    by_cases hd : HasDelete key after
    · rw [h1 hd, h3 hd, map_some, map_some]
      exact (liveOf_marks (e := (offset, size)) hsize).trans (by simp [hd])
    · rw [h2 hd, h4 hd]
      exact iff_of_true rfl fun h => hd h.2

/-- **The needle maps in memory and in leveldb** classify every key in the same way exactly when no
last `Put` is of size 0 with a `Delete` after it. -/
theorem needleMaps_agree (ops : List NeedleOp) (hok : ∀ op ∈ ops, op.Ok) :
    ∃ nm, ops.foldlM NeedleMap.step (newCompactNeedleMap []) = .ok nm ∧
      ((∀ key, ∃ value, nm.get key = .ok value ∧
          liveOf value = liveOf ((ops.foldl LevelDbNeedleMap.step newLevelDbNeedleMap).get key)) ↔
        ∀ key, ¬ EmptyDeleted key ops) := by
  obtain ⟨nm, hrun, hinv⟩ := logInv_new.run ops
  rw [nil_append] at hinv
  refine ⟨nm, hrun, forall_congr' fun key => ?_⟩
  have hmem := hinv.map.get key
  have hdb : (ops.foldl LevelDbNeedleMap.step newLevelDbNeedleMap).get key = _ :=
    (holds_new.run ops).getFromDb key
  rw [show nm.m.entry = _ from hinv.entry] at hmem
  rw [hdb, ← liveOf_agree hok key]
  constructor
  · rintro ⟨value, hget, hlive⟩
    rw [NeedleMap.get, hmem, Except.ok.injEq] at hget
    rw [hget, hlive]
  · exact fun h => ⟨_, hmem, h⟩

/-- A key that is put with a size and deleted, and one that is put again after its deletion. -/
def agreeing : List NeedleOp :=
  [.put 7 ⟨0, 0, 0, 1⟩ 20, .put 9 ⟨0, 0, 0, 8⟩ 0, .delete 9 ⟨0, 0, 0, 12⟩, .delete 7 ⟨0, 0, 0, 16⟩,
    .put 9 ⟨0, 0, 0, 20⟩ 30]

theorem needleMaps_agree_agreeing :
    ∃ nm, agreeing.foldlM NeedleMap.step (newCompactNeedleMap []) = .ok nm ∧
      ∀ key, ∃ value, nm.get key = .ok value ∧ liveOf value =
        liveOf ((agreeing.foldl LevelDbNeedleMap.step newLevelDbNeedleMap).get key) := by
  obtain ⟨nm, hrun, hiff⟩ := needleMaps_agree agreeing (by decide)
  refine ⟨nm, hrun, hiff.2 ?_⟩
  rintro key ⟨before, offset, after, heq, hno, -⟩
  have hmem : NeedleOp.put key offset 0 ∈ agreeing := heq ▸ by simp
  obtain ⟨rfl, -⟩ : key = 9 ∧ offset = ⟨0, 0, 0, 8⟩ := by simpa [agreeing] using hmem
  -- the last `Put` of key 9 is not the empty one
  have hlast : agreeing = agreeing.take 4 ++ [.put 9 ⟨0, 0, 0, 20⟩ 30] := rfl
  cases (last_put_unique (heq.symm.trans hlast) hno nofun).2.1.2

/-- An empty needle stays live in leveldb. -/
theorem needleMaps_disagree :
    (∀ op ∈ [NeedleOp.put 9 ⟨0, 0, 0, 8⟩ 0, .delete 9 ⟨0, 0, 0, 12⟩], op.Ok) ∧
    (([NeedleOp.put 9 ⟨0, 0, 0, 8⟩ 0, .delete 9 ⟨0, 0, 0, 12⟩].foldlM NeedleMap.step
        (newCompactNeedleMap [])).bind fun nm => nm.get 9).toOption.map liveOf = some none ∧
    liveOf (([NeedleOp.put 9 ⟨0, 0, 0, 8⟩ 0, .delete 9 ⟨0, 0, 0, 12⟩].foldl LevelDbNeedleMap.step
        newLevelDbNeedleMap).get 9) = some (⟨0, 0, 0, 8⟩, 0) := by
  decide +kernel

end Storage
