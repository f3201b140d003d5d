import SeaweedFS.Lib.Simulation
import SeaweedFS.Storage.ErasureCoding.Index
import SeaweedFS.Storage.Proof.MemDb

/-!
# The live needles of a volume of shards

The `.ecx` file is the entries of a sorted map, with tombstones for the deleted keys (`ecxOf`). Each operation keeps
the index (`EcIndexInv.apply`); what is found is the map without the deleted keys (**`ecIndex_agrees`**).
-/

namespace ErasureCoding

open Lib Util Storage List IdxEntry MemDb

variable {e : IdxEntry}

/-! ## Files of entries -/

theorem length_bytes (e : IdxEntry) : e.bytes.length = 16 := length_toBytes ..

theorem drop_flatMap_bytes (es : List IdxEntry) (m : Nat) :
    (es.flatMap IdxEntry.bytes).drop (m * 16) = (es.drop m).flatMap IdxEntry.bytes := by
  induction es generalizing m with
  | nil => simp
  | cons e es ih =>
    cases m with
    | zero => simp
    | succ m =>
      rw [flatMap_cons, Nat.succ_mul, Nat.add_comm, ← drop_drop,
        drop_left' (length_bytes e), ih, drop_succ_cons]

variable {es : List IdxEntry} {m : Nat}

theorem readAt_flatMap_bytes (h : es[m]? = some e) :
    File.readAt (es.flatMap IdxEntry.bytes) needleMapEntrySize (m * needleMapEntrySize) =
      (e.bytes, false) := by
  obtain ⟨hlt, hget⟩ := List.getElem?_eq_some_iff.1 h
  unfold File.readAt
  rw [needleMapEntrySize_eq, drop_flatMap_bytes, drop_eq_getElem_cons hlt, hget,
    flatMap_cons, take_left' (length_bytes e)]
  dsimp only
  rfl

theorem markNeedleDeleted_flatMap (h : es[m]? = some e) :
    markNeedleDeleted (es.flatMap IdxEntry.bytes) (m * needleMapEntrySize) =
      (es.set m (e.1, e.2.1, tombstoneFileSize)).flatMap IdxEntry.bytes := by
  obtain ⟨hlt, hget⟩ := List.getElem?_eq_some_iff.1 h
  have hsplit : es = es.take m ++ e :: es.drop (m + 1) := by
    rw [← hget, ← drop_eq_getElem_cons hlt, take_append_drop]
  have hbefore : ((es.take m).flatMap bytes).length = m * 16 := by
    rw [length_flatMap_bytes, length_take, Nat.min_eq_left (Nat.le_of_lt hlt)]
  rw [set_eq_take_append_cons_drop, if_pos hlt]
  generalize es.take m = pre at hsplit hbefore ⊢
  generalize es.drop (m + 1) = post at hsplit ⊢
  subst hsplit
  have hfile : (pre ++ e :: post).flatMap bytes =
      (pre.flatMap bytes ++ (needleIdToBytes e.1 ++ offsetToBytes e.2.1)) ++
        (sizeToBytes e.2.2 ++ post.flatMap bytes) := by
    simp only [flatMap_append, flatMap_cons, bytes, toBytes, sizeToBytes, append_assoc]
  have hplace : m * needleMapEntrySize + needleIdSize + offsetSize =
      (pre.flatMap bytes ++ (needleIdToBytes e.1 ++ offsetToBytes e.2.1)).length := by
    rw [length_append, hbefore, length_append, length_needleIdToBytes, length_offsetToBytes]
    rfl
  unfold markNeedleDeleted
  rw [hfile, hplace, File.writeAt_replace (by rfl)]
  simp only [flatMap_append, flatMap_cons, bytes, toBytes, sizeToBytes, append_assoc]

/-! ## The search -/

/-- The entry at an index. -/
def entryAt (es : List IdxEntry) (i : Nat) : IdxEntry := es.getD i (0, {}, 0)

theorem entryAt_eq {i : Nat} (h : i < es.length) : entryAt es i = es[i] :=
  getD_eq_getElem _ _ h

theorem searchNeedleLoop_eq {needleId : NeedleId} {fuel l h size : Nat} (hh : h ≤ es.length) :
    searchNeedleLoop (es.flatMap IdxEntry.bytes) size needleId fuel l h =
      match findLoop (fun i => (entryAt es i).1) needleId fuel l h with
      | some m => .ok ((entryAt es m).2.1, (entryAt es m).2.2, m * needleMapEntrySize)
      | none => .error .notFound := by
  induction fuel generalizing l h with
  | zero => rfl
  | succ fuel ih =>
    rw [searchNeedleLoop, findLoop]
    by_cases hlt : l < h
    · rw [if_pos hlt, if_pos hlt]
      dsimp only
      have hmid : es[(l + h) / 2]? = some (entryAt es ((l + h) / 2)) := by
        have hlt : (l + h) / 2 < es.length := by omega
        rw [entryAt_eq hlt, getElem?_eq_getElem hlt]
      rw [readAt_flatMap_bytes hmid]
      rw [if_neg Bool.false_ne_true, bytes, idxFileEntry_toBytes]
      split
      · rfl
      · split
        · exact ih hh
        · exact ih (by omega)
    · rw [if_neg hlt, if_neg hlt]

section
variable (hs : es.Pairwise fun a b => a.1 < b.1) (needleId : NeedleId)
include hs

theorem key_lt (i j : Nat) (hij : i < j) (hj : j < es.length) :
    (entryAt es i).1 < (entryAt es j).1 := by
  have hi : i < es.length := by omega
  rw [entryAt_eq hi, entryAt_eq hj]
  exact pairwise_iff_getElem.1 hs i j hi hj hij

omit hs in
theorem count_entries (es : List IdxEntry) : (es.flatMap bytes).length / needleMapEntrySize = es.length := by
  rw [length_flatMap_bytes, needleMapEntrySize_eq, Nat.mul_div_cancel _ (by decide)]

/-- **A key of the file** is found. -/
theorem search_found (h : es[m]? = some e) :
    searchNeedleFromSortedIndex (es.flatMap IdxEntry.bytes) e.1 =
      .ok (e.2.1, e.2.2, m * needleMapEntrySize) := by
  obtain ⟨hlt, hget⟩ := List.getElem?_eq_some_iff.1 h
  have he : entryAt es m = e := (entryAt_eq hlt).trans hget
  have hfind : findLoop (fun i => (entryAt es i).1) e.1 es.length 0 es.length = some m :=
    (findLoop_eq_some (key_lt hs) (Nat.sub_le _ _)).2 ⟨Nat.zero_le m, hlt, by rw [he]⟩
  unfold searchNeedleFromSortedIndex
  rw [count_entries, searchNeedleLoop_eq (Nat.le_refl _), hfind]
  dsimp only
  rw [he]

theorem search_notFound (h : ∀ e ∈ es, e.1 ≠ needleId) :
    searchNeedleFromSortedIndex (es.flatMap IdxEntry.bytes) needleId = .error .notFound := by
  unfold searchNeedleFromSortedIndex
  rw [count_entries, searchNeedleLoop_eq (Nat.le_refl _)]
  cases hfind : findLoop (fun i => (entryAt es i).1) needleId es.length 0 es.length with
  | none => rfl
  | some m =>
    obtain ⟨-, hlt, hkey⟩ := (findLoop_eq_some (key_lt hs) (Nat.sub_le _ _)).1 hfind
    rw [entryAt_eq hlt] at hkey
    exact absurd hkey (h _ (getElem_mem hlt))

end

/-! ## The file of a map and its deleted keys -/

/-- An entry, with a tombstone when its key is deleted. -/
def marked (deleted : List NeedleId) (e : IdxEntry) : IdxEntry :=
  if e.1 ∈ deleted then (e.1, e.2.1, tombstoneFileSize) else e

@[simp] theorem marked_key (deleted : List NeedleId) (e : IdxEntry) : (marked deleted e).1 = e.1 := by
  unfold marked
  split <;> rfl

/-- The `.ecx` file of a map with deleted keys. -/
def ecxOf (nm : MemDb) (deleted : List NeedleId) : File :=
  (nm.entries.map (marked deleted)).flatMap IdxEntry.bytes

section
variable (nm : MemDb) (deleted : List NeedleId)

theorem sorted_marked : (nm.entries.map (marked deleted)).Pairwise fun a b => a.1 < b.1 := by
  rw [pairwise_map]
  simpa using nm.sorted

theorem ecxOf_congr {deleted deleted' : List NeedleId}
    (h : ∀ e ∈ nm.entries, e.1 ∈ deleted ↔ e.1 ∈ deleted') : ecxOf nm deleted = ecxOf nm deleted' := by
  unfold ecxOf
  congr 1
  refine map_congr_left fun e he => ?_
  unfold marked
  simp only [h e he]

theorem set_marked (h : nm.entries[m]? = some e) : (nm.entries.map (marked deleted)).set m
        ((marked deleted e).1, (marked deleted e).2.1, tombstoneFileSize) =
      nm.entries.map (marked (e.1 :: deleted)) := by
  obtain ⟨hm, hget⟩ := List.getElem?_eq_some_iff.1 h
  have hoffset : (marked deleted e).2.1 = e.2.1 := by
    unfold marked
    split <;> rfl
  refine ext_getElem (by simp) fun i hi hi' => ?_
  have hlt : i < nm.entries.length := by simpa using hi'
  rw [getElem_set, getElem_map, getElem_map]
  split
  · rename_i hmi
    subst hmi
    rw [hget, marked_key, hoffset, marked, if_pos mem_cons_self]
  · rename_i hne
    -- another entry has another key
    have hkey : nm.entries[i].1 ≠ e.1 := by
      intro heq
      have hsorted := pairwise_iff_getElem.1 nm.sorted
      rw [← hget] at heq
      rcases Nat.lt_or_gt_of_ne hne with hlt' | hlt'
      · exact Std.lt_irrefl (heq ▸ hsorted m i hm hlt hlt')
      · exact Std.lt_irrefl (heq ▸ hsorted i m hlt hm hlt')
    unfold marked
    simp only [mem_cons, hkey, false_or]

/-- **Marking a key**: it is found and gets a tombstone, or the file does not have it. -/
theorem mark_ecxOf (needleId : NeedleId) : (∃ offset size place,
      searchNeedleFromSortedIndex (ecxOf nm deleted) needleId = .ok (offset, size, place) ∧
      markNeedleDeleted (ecxOf nm deleted) place = ecxOf nm (needleId :: deleted)) ∨
    (searchNeedleFromSortedIndex (ecxOf nm deleted) needleId = .error .notFound ∧
      ecxOf nm (needleId :: deleted) = ecxOf nm deleted) := by
  by_cases hmem : ∃ e ∈ nm.entries, e.1 = needleId
  · obtain ⟨e, he, rfl⟩ := hmem
    obtain ⟨m, hlt, hget⟩ := getElem_of_mem he
    have hmarked : (nm.entries.map (marked deleted))[m]? = some (marked deleted e) := by
      rw [getElem?_map, getElem?_eq_getElem hlt, hget]
      rfl
    have hsearch := search_found (sorted_marked nm deleted) hmarked
    rw [marked_key] at hsearch
    refine .inl ⟨_, _, _, hsearch, ?_⟩
    unfold ecxOf
    rw [markNeedleDeleted_flatMap hmarked,
      set_marked nm deleted (List.getElem?_eq_some_iff.2 ⟨hlt, hget⟩)]
  · refine .inr ⟨search_notFound (sorted_marked nm deleted) needleId fun e he hkey => ?_, ?_⟩
    · obtain ⟨e', he', rfl⟩ := mem_map.1 he
      exact hmem ⟨e', he', by simpa using hkey⟩
    · refine ecxOf_congr nm fun e he => ?_
      rw [mem_cons]
      exact or_iff_right fun heq => hmem ⟨e, he, heq⟩

end

/-! ## The operations -/

/-- The index of the map `nm` with deleted keys: the journal has none but those. -/
structure EcIndexInv (nm : MemDb) (deleted : List NeedleId) (ev : EcIndex) : Prop where
  ecx : ev.ecxFile = ecxOf nm deleted
  ecj : ∃ keys : List NeedleId, ev.ecjFile.getD [] = keys.flatMap needleIdToBytes ∧
    ∀ key ∈ keys, key ∈ deleted

theorem length_flatMap_keys (keys : List NeedleId) :
    (keys.flatMap needleIdToBytes).length = keys.length * 8 := by
  induction keys with
  | nil => rfl
  | cons key keys ih =>
    rw [flatMap_cons, length_append, ih, length_needleIdToBytes, length_cons]
    omega

theorem keysOf_flatMap (keys : List NeedleId) : keysOf (keys.flatMap needleIdToBytes) = keys := by
  unfold keysOf
  rw [length_flatMap_keys, needleIdSize, Nat.mul_div_cancel _ (by decide)]
  induction keys with
  | nil => rfl
  | cons key keys ih =>
    rw [length_cons, journalKeys, needleIdSize, flatMap_cons,
      take_left' (length_needleIdToBytes key), drop_left' (length_needleIdToBytes key),
      bytesToNeedleId_needleIdToBytes, ih]

variable {nm : MemDb} {deleted : List NeedleId} {ev : EcIndex}

/-- **A deletion** adds its key. -/
theorem EcIndexInv.delete (h : EcIndexInv nm deleted ev) (needleId : NeedleId) :
    ∃ ev', ev.deleteNeedleFromEcx needleId = .ok ev' ∧ EcIndexInv nm (needleId :: deleted) ev' := by
  obtain ⟨hecx, keys, hecj, hkeys⟩ := h
  unfold EcIndex.deleteNeedleFromEcx
  rw [hecx]
  rcases mark_ecxOf nm deleted needleId with ⟨offset, size, place, hfound, hmark⟩ | ⟨hnone, hsame⟩
  · rw [hfound]
    refine ⟨_, rfl, hmark, ?_⟩
    cases hj : ev.ecjFile with
    | none => exact ⟨[], rfl, fun _ hkey => (nomatch hkey)⟩
    | some ecj =>
      rw [hj] at hecj
      refine ⟨keys ++ [needleId], ?_, forall_mem_append.2
        ⟨fun key hkey => mem_cons_of_mem _ (hkeys key hkey), forall_mem_singleton.2 mem_cons_self⟩⟩
      rw [flatMap_append, ← hecj]
      simp
  · rw [hnone]
    exact ⟨ev, rfl, hecx.trans hsame.symm, keys, hecj,
      fun key hkey => mem_cons_of_mem _ (hkeys key hkey)⟩

theorem rebuildEcx_eq {keys : List NeedleId} (h : ∀ key ∈ keys, key ∈ deleted) :
    EcIndex.rebuildEcx (ecxOf nm deleted) keys = .ok (ecxOf nm deleted) := by
  unfold EcIndex.rebuildEcx
  induction keys with
  | nil => rfl
  | cons key keys ih =>
    have hkey : ecxOf nm (key :: deleted) = ecxOf nm deleted := by
      refine ecxOf_congr nm fun e _ => ?_
      rw [mem_cons]
      exact or_iff_right_of_imp fun heq => heq ▸ h key mem_cons_self
    have hrest := ih fun k hk => h k (mem_cons_of_mem _ hk)
    rw [foldlM_cons]
    rcases mark_ecxOf nm deleted key with ⟨offset, size, place, hfound, hmark⟩ | ⟨hnone, -⟩
    · rw [hfound]
      dsimp only
      rw [hmark, hkey]
      exact hrest
    · rw [hnone]
      exact hrest

/-- **Each operation** keeps the index of the map, with the deleted key more when it is a deletion. -/
theorem EcIndexInv.apply (h : EcIndexInv nm deleted ev) (op : EcOp) : ∃ ev', op.apply ev = .ok ev' ∧
      EcIndexInv nm (match op with | .delete needleId => needleId :: deleted | _ => deleted) ev' := by
  cases op with
  | mount => exact ⟨_, rfl, h.ecx, h.ecj⟩
  | delete needleId => exact h.delete needleId
  | rebuild =>
    obtain ⟨hecx, keys, hecj, hkeys⟩ := h
    show ∃ ev', ev.rebuildEcxFile = .ok ev' ∧ _
    unfold EcIndex.rebuildEcxFile
    cases hj : ev.ecjFile with
    | none => exact ⟨ev, rfl, hecx, keys, hecj, hkeys⟩
    | some ecj =>
      rw [hj] at hecj
      have hecj : ecj = keys.flatMap needleIdToBytes := hecj
      dsimp only
      rw [hecj, keysOf_flatMap, hecx, rebuildEcx_eq hkeys]
      exact ⟨_, rfl, rfl, [], rfl, fun _ hkey => (nomatch hkey)⟩

/-- **A run**: the keys that were deleted, and those that the operations delete. -/
theorem EcIndexInv.run (h : EcIndexInv nm deleted ev) (ops : List EcOp) :
    ∃ ev' deleted', EcOp.run ops ev = .ok ev' ∧ EcIndexInv nm deleted' ev' ∧
      ∀ key, key ∈ deleted' ↔ key ∈ deleted ∨ EcOp.delete key ∈ ops := by
  induction ops generalizing ev deleted with
  | nil => exact ⟨ev, deleted, rfl, h, fun key => by simp⟩
  | cons op ops ih =>
    obtain ⟨ev1, hop, h1⟩ := h.apply op
    obtain ⟨ev2, deleted2, hrun, h2, hmem⟩ := ih h1
    refine ⟨ev2, deleted2, ?_, h2, fun key => ?_⟩
    · rw [EcOp.run, foldlM_cons, hop]
      exact hrun
    · rw [hmem]
      cases op <;> simp [or_left_comm, or_assoc]

/-! ## What the files say -/

theorem readNeedleMap_eq {ε : Type} (idxFile : File) : readNeedleMap idxFile =
      (.ok ((rowsOf idxFile).foldl MemDb.loadRow MemDb.new) : Except ε MemDb) := by
  rw [← loadFromIdx_eq]
  unfold readNeedleMap loadFromIdx loadFilterFromReaderAt
  congr 1
  funext cm key offset size
  rw [Bool.true_and, Bool.true_and, ← Bool.not_or]
  cases offset.isZero || size.isDeleted <;> rfl

theorem writeSortedFileFromIdx_eq {ε : Type} (idxFile : File) : writeSortedFileFromIdx idxFile =
      (.ok (ecxOf ((rowsOf idxFile).foldl MemDb.loadRow MemDb.new) []) : Except ε File) := by
  have hfold : ∀ (es : List IdxEntry) (file : File), es.foldlM (fun ecxFile (e : IdxEntry) =>
        (.ok (ecxFile ++ toBytes e.1 e.2.1 e.2.2) : Except ε File)) file =
        .ok (file ++ es.flatMap bytes) := by
    intro es
    induction es with
    | nil => exact fun file => congrArg Except.ok (append_nil file).symm
    | cons e es ih =>
      intro file
      rw [foldlM_cons, flatMap_cons, ← append_assoc]
      exact ih _
  have hmarked : ∀ e : IdxEntry, marked [] e = e := fun e => if_neg not_mem_nil
  unfold writeSortedFileFromIdx
  rw [readNeedleMap_eq]
  generalize (rowsOf idxFile).foldl loadRow new = nm
  rw [ecxOf, map_congr_left (fun e _ => hmarked e), map_id']
  exact hfold nm.entries []

/-- The entry of a live needle, as it is found in the `.ecx` file. -/
def EcIndex.live (ev : EcIndex) (needleId : NeedleId) : Option (Offset × Size) :=
  match ev.findNeedleFromEcx needleId with
  | .ok (offset, size) => if size.isDeleted then none else some (offset, size)
  | .error _ => none

theorem isLiveRow_of_get {log : List IdxEntry} {key : NeedleId} {e : Offset × Size}
    (h : (log.foldl MemDb.loadRow MemDb.new).get key = some e) : isLiveRow e = true := by
  rw [get_loadRows] at h
  exact (Option.filter_eq_some_iff.1 h).2

/-- **The `.ecx` file** has the map without the deleted keys. -/
theorem EcIndexInv.live_eq (h : EcIndexInv nm deleted ev)
    (hlive : ∀ key e, nm.get key = some e → isLiveRow e = true) (key : NeedleId) :
    ev.live key = if key ∈ deleted then none else nm.get key := by
  unfold EcIndex.live EcIndex.findNeedleFromEcx
  rw [h.ecx]
  cases hget : nm.get key with
  | some e =>
    obtain ⟨m, hlt, hm⟩ := getElem_of_mem ((SortedMap.mem_entries nm key e).2 hget)
    have hmarked : (nm.entries.map (marked deleted))[m]? = some (marked deleted (key, e)) := by
      rw [getElem?_map, getElem?_eq_getElem hlt, hm]
      rfl
    have hsearch := search_found (sorted_marked nm deleted) hmarked
    rw [marked_key] at hsearch
    rw [ecxOf, hsearch]
    unfold marked
    have hsize := (isLiveRow_iff.1 (hlive key e hget)).2
    by_cases hdel : key ∈ deleted
    · rw [if_pos hdel, if_pos hdel]
      rfl
    · rw [if_neg hdel, if_neg hdel]
      show (if e.2.isDeleted then none else some (e.1, e.2)) = _
      rw [hsize]
      rfl
  | none =>
    rw [ecxOf, search_notFound (sorted_marked nm deleted) key fun e he hkey => ?_]
    · show none = _
      rw [ite_self]
    · obtain ⟨e', he', rfl⟩ := mem_map.1 he
      rw [marked_key] at hkey
      have := (SortedMap.mem_entries nm e'.1 e'.2).1 he'
      rw [hkey, hget] at this
      cases this

theorem lastRow_marked (log : List IdxEntry) (deleted : List NeedleId) (key : NeedleId) :
    lastRow (log.map (marked deleted)) key =
      (lastRow log key).map fun e => if key ∈ deleted then (e.1, tombstoneFileSize) else e := by
  induction log using reverseRecOn with
  | nil => rfl
  | append_singleton log e ih =>
    rw [map_append, map_singleton, lastRow_append, lastRow_append, marked_key, ih]
    split
    · rename_i hkey
      subst hkey
      unfold marked
      split <;> simp [*]
    · rfl

theorem lastRow_tombstones (keys : List NeedleId) (key : NeedleId) :
    lastRow (keys.map fun key => (key, ({} : Offset), tombstoneFileSize)) key =
      if key ∈ keys then some ({}, tombstoneFileSize) else none := by
  induction keys using reverseRecOn with
  | nil => rfl
  | append_singleton keys key' ih =>
    rw [map_append, map_singleton, lastRow_append, ih]
    by_cases hkey : key' = key
    · simp [hkey]
    · simp [hkey, Ne.symm hkey]

/-- **The index file** made of the `.ecx` file and the journal has the map without the deleted keys. -/
theorem EcIndexInv.liveRow_eq (h : EcIndexInv nm deleted ev)
    (hlive : ∀ key e, nm.get key = some e → isLiveRow e = true) (key : NeedleId) :
    liveRow (rowsOf ev.writeIdxFileFromEcIndex) key = if key ∈ deleted then none else nm.get key := by
  obtain ⟨hecx, keys, hecj, hkeys⟩ := h
  have hrows : rowsOf ev.writeIdxFileFromEcIndex = nm.entries.map (marked deleted) ++
        keys.map fun key => (key, ({} : Offset), tombstoneFileSize) := by
    unfold EcIndex.writeIdxFileFromEcIndex
    rw [hecx, hecj, keysOf_flatMap, ecxOf]
    have hjournal : (keys.flatMap fun key => toBytes key {} tombstoneFileSize) =
        (keys.map fun key => (key, ({} : Offset), tombstoneFileSize)).flatMap bytes := by
      rw [flatMap_map]
      rfl
    rw [hjournal, ← flatMap_append, rowsOf_flatMap]
  rw [liveRow, hrows, lastRow_append_log, lastRow_marked, lastRow_tombstones, lastRow_entries]
  by_cases hjournaled : key ∈ keys
  · rw [if_pos hjournaled, if_pos (hkeys key hjournaled)]
    rfl
  · rw [if_neg hjournaled, Option.none_or]
    cases hget : nm.get key with
    | none => simp
    | some e =>
      by_cases hdel : key ∈ deleted
      · have hdead : isLiveRow (e.1, tombstoneFileSize) = false := by
          rw [isLiveRow, show tombstoneFileSize.isDeleted = true from rfl, Bool.or_true]
          rfl
        rw [if_pos hdel, Option.map_some, if_pos hdel, Option.filter_some, hdead]
        rfl
      · rw [if_neg hdel, Option.map_some, if_neg hdel, Option.filter_some, if_pos (hlive key e hget)]

theorem ecIndexInv_start (idxFile : File) :
    EcIndexInv ((rowsOf idxFile).foldl MemDb.loadRow MemDb.new) []
      ⟨ecxOf ((rowsOf idxFile).foldl MemDb.loadRow MemDb.new) [], none⟩ :=
  ⟨rfl, [], rfl, fun _ hkey => (nomatch hkey)⟩

/-! ## The result -/

/-- **The index of a volume of shards agrees with its log** after deletions in any order with mounts and rebuilds
between: the live entries that `FindNeedleFromEcx` finds, and those of the file of `WriteIdxFileFromEcIndex`, are
those of the log but for the deleted keys. -/
theorem ecIndex_agrees (idxFile : File) (ops : List EcOp) : ∃ nm ecxFile ev nm',
    readNeedleMap idxFile = (.ok nm : Except EcxError MemDb) ∧
    writeSortedFileFromIdx idxFile = (.ok ecxFile : Except EcxError File) ∧
    EcOp.run ops ⟨ecxFile, none⟩ = .ok ev ∧
    readNeedleMap ev.writeIdxFileFromEcIndex = (.ok nm' : Except EcxError MemDb) ∧
    ∀ key, nm.get key = liveRow (rowsOf idxFile) key ∧
      ev.live key = (if EcOp.delete key ∈ ops then none else nm.get key) ∧
      nm'.get key = (if EcOp.delete key ∈ ops then none else nm.get key) := by
  obtain ⟨ev, deleted, hrun, hinv, hmem⟩ := (ecIndexInv_start idxFile).run ops
  have hlive : ∀ key e, ((rowsOf idxFile).foldl loadRow new).get key = some e →
      isLiveRow e = true := fun key e => isLiveRow_of_get
  have hdeleted : ∀ key, key ∈ deleted ↔ EcOp.delete key ∈ ops := fun key => by simp [hmem key]
  refine ⟨_, _, ev, _, readNeedleMap_eq idxFile, writeSortedFileFromIdx_eq idxFile, hrun,
    readNeedleMap_eq _, fun key => ⟨get_loadRows _ key, ?_, ?_⟩⟩
  · rw [hinv.live_eq hlive]
    simp only [hdeleted]
  · rw [get_loadRows, hinv.liveRow_eq hlive]
    simp only [hdeleted]

end ErasureCoding
