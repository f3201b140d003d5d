import SeaweedFS.Lib.Simulation
import SeaweedFS.Filer.ChunkManifest
import SeaweedFS.Filer.Proof.IntervalList

/-!
# Compaction keeps what shows

A byte of a resolved file shows a place in a chunk (`placeAt`), that of the newest chunk over it
(`placeAt_readResolvedChunks`). The chunks that show somewhere are enough to find it.
-/

namespace Filer

open Lib List Option

variable {chunks : List FileChunk} {vis : IntervalList VisibleInterval} {x : Int}

theorem placeAt_readResolvedChunks (S : SortFunc Point) (hd : DistinctTs chunks) (x : Int) :
    placeAt (readResolvedChunks S chunks 0 maxInt64) x =
      (newest? chunks x).map fun c => (c.getFileIdString, x - c.offset) := by
  have h := readResolvedChunks_shows S (a := 0) (b := maxInt64) hd x
  rw [newest?_liveChunks_all] at h
  rw [placeAt_eq, lookAt_of_shows (readResolvedChunks_ordered S chunks 0 maxInt64) h, chunkAt, Option.map_map]
  rfl

theorem resolveLoop_data {blobs : Blobs}
    {resolve : List FileChunk → Except ManifestErr (List FileChunk × List FileChunk)} {a b : Int}
    (hdata : ∀ c ∈ chunks, c.isChunkManifest = false) :
    resolveLoop blobs resolve a b chunks = .ok (liveChunks chunks a b, []) := by
  induction chunks with
  | nil => rfl
  | cons c chunks ih =>
    have ih := ih fun c' hc' => hdata c' (.tail _ hc')
    rw [resolveLoop, liveChunks, filter_cons]
    by_cases hr : c.InRange a b
    · have hlive : decide (max c.offset a < min c.stop b) = true := decide_eq_true hr
      rw [if_neg (not_not.2 hr), if_pos (by simp [hdata c mem_cons_self]), ih, if_pos hlive]
      rfl
    · have hlive : ¬ decide (max c.offset a < min c.stop b) = true := fun h => hr (of_decide_eq_true h)
      rw [if_pos hr, ih, if_neg hlive]
      rfl

theorem resolveChunkManifest_data {blobs : Blobs} {depth : Nat} {a b : Int}
    (hdata : ∀ c ∈ chunks, c.isChunkManifest = false) :
    resolveChunkManifest blobs depth chunks a b = .ok (liveChunks chunks a b, []) := by
  cases depth with
  | zero => exact resolveLoop_data hdata
  | succ depth => exact resolveLoop_data hdata

theorem mem_fileIds_of_newest? (S : SortFunc Point) (hd : DistinctTs chunks) {c : FileChunk}
    (h : newest? chunks x = some c) :
    c.getFileIdString ∈ (readResolvedChunks S chunks 0 maxInt64).map fun i => i.value.fileId := by
  have hbyte := placeAt_readResolvedChunks S hd x
  rw [h, map_some] at hbyte
  obtain ⟨i, hi, heq⟩ := map_eq_some_iff.1 hbyte
  rw [← (Prod.mk.inj heq).1]
  exact mem_map_of_mem (seek_covers hi).1

theorem newest?_shown {P : FileChunk → Bool} (hd : DistinctTs chunks)
    (hP : ∀ c, newest? chunks x = some c → P c = true) : newest? (chunks.filter P) x = newest? chunks x := by
  cases h : newest? chunks x with
  | none =>
    rw [newest?_eq_none] at h ⊢
    exact fun c hc => h c (List.mem_filter.1 hc).1
  | some c =>
    have htop := newest?_isTop h
    rw [newest?_eq_some (hd.sublist filter_sublist)]
    exact ⟨List.mem_filter.2 ⟨htop.mem, hP c h⟩, htop.covers,
      fun c' hc' => htop.newest c' (List.mem_filter.1 hc').1⟩

theorem readResolvedChunks_liveChunks_placeAt (S : SortFunc Point) (hd : DistinctTs chunks) (x : Int) :
    placeAt (readResolvedChunks S (liveChunks chunks 0 maxInt64) 0 maxInt64) x =
      placeAt (readResolvedChunks S chunks 0 maxInt64) x := by
  have hlive : DistinctTs (liveChunks chunks 0 maxInt64) := hd.sublist filter_sublist
  rw [placeAt_readResolvedChunks S hlive, placeAt_readResolvedChunks S hd, newest?_liveChunks_all]

/-- **Compaction** partitions the chunks; no garbage chunk owns a byte of the file, and the compacted ones alone
show every byte as all chunks do. -/
theorem compactFileChunks_same (S : SortFunc Point) (blobs : Blobs) (depth : Nat)
    (hdata : ∀ c ∈ chunks, c.isChunkManifest = false) (hd : DistinctTs chunks) :
    ∃ compacted garbage, compactFileChunks S blobs depth chunks = .ok (compacted, garbage) ∧
      (compacted ++ garbage).Perm chunks ∧
      (∀ c ∈ garbage, ∀ x o, placeAt (readResolvedChunks S chunks 0 maxInt64) x ≠ some (c.getFileIdString, o)) ∧
      ∀ x, placeAt (readResolvedChunks S compacted 0 maxInt64) x =
        placeAt (readResolvedChunks S chunks 0 maxInt64) x := by
  have hlive : DistinctTs (liveChunks chunks 0 maxInt64) := hd.sublist filter_sublist
  let ids := (readResolvedChunks S (liveChunks chunks 0 maxInt64) 0 maxInt64).map fun i => i.value.fileId
  refine ⟨chunks.filter fun c => c.getFileIdString ∈ ids, chunks.filter fun c => c.getFileIdString ∉ ids,
    ?_, ?_, fun c hc x o hbyte => ?_, fun x => ?_⟩
  · rw [compactFileChunks, nonOverlappingVisibleIntervals, resolveChunkManifest_data hdata]
    show Except.ok (separateGarbageChunks _ chunks) = _
    rw [separateGarbageChunks, partition_eq_filter_filter]
    simp only [Function.comp_def, ← decide_not]
    rfl
  · simpa using filter_append_perm (fun c : FileChunk => decide (c.getFileIdString ∈ ids)) chunks
  · rw [← readResolvedChunks_liveChunks_placeAt S hd] at hbyte
    obtain ⟨i, hi, heq⟩ := map_eq_some_iff.1 hbyte
    have hout := of_decide_eq_true (List.mem_filter.1 hc).2
    rw [← (Prod.mk.inj heq).1] at hout
    exact hout (mem_map_of_mem (seek_covers hi).1)
  · have hsub : DistinctTs (chunks.filter fun c => c.getFileIdString ∈ ids) :=
      hd.sublist filter_sublist
    rw [placeAt_readResolvedChunks S hsub, placeAt_readResolvedChunks S hd, newest?_shown hd]
    intro c hc
    rw [← newest?_liveChunks_all] at hc
    exact decide_eq_true (mem_fileIds_of_newest? S hlive hc)

/-- A chunk, and a newer one that hides it. -/
def hiddenChunk : FileChunk := { fileId := "1,01", offset := 0, size := 10, modifiedTsNs := 1 }

@[inherit_doc hiddenChunk]
def hidingChunk : FileChunk := { fileId := "1,02", offset := 0, size := 20, modifiedTsNs := 2 }

theorem compactFileChunks_hidden :
    compactFileChunks .insertion (fun _ => none) 0 [hiddenChunk, hidingChunk] = .ok ([hidingChunk], [hiddenChunk]) :=
  rfl

theorem compactFileChunks_same_hidden :
    compactFileChunks .insertion (fun _ => none) 0 [hiddenChunk, hidingChunk] = .ok ([hidingChunk], [hiddenChunk]) ∧
    ∀ x, placeAt (readResolvedChunks .insertion [hidingChunk] 0 maxInt64) x =
      placeAt (readResolvedChunks .insertion [hiddenChunk, hidingChunk] 0 maxInt64) x := by
  obtain ⟨compacted, garbage, h, -, -, hsame⟩ :=
    compactFileChunks_same .insertion (fun _ => none) 0 (show ∀ c ∈ [hiddenChunk, hidingChunk], _ by decide) (by decide)
  cases compactFileChunks_hidden.symm.trans h
  exact ⟨compactFileChunks_hidden, hsame⟩

theorem mem_fileIds_iff (ho : Ordered vis) {id : String} :
    id ∈ vis.map (fun i => i.value.fileId) ↔ ∃ x o, placeAt vis x = some (id, o) := by
  constructor
  · intro h
    obtain ⟨i, hi, rfl⟩ := List.mem_map.1 h
    have hseek := (seek_eq_some ho).2 ⟨hi, Int.le_refl i.startOffset, ho.pos i hi⟩
    exact ⟨i.startOffset, _, congrArg (Option.map _) hseek⟩
  · rintro ⟨x, o, h⟩
    obtain ⟨i, hi, heq⟩ := map_eq_some_iff.1 h
    rw [← (Prod.mk.inj heq).1]
    exact mem_map_of_mem (seek_covers hi).1

/-- **Compaction is complete**: a chunk is kept exactly if it owns a byte. -/
theorem compactFileChunks_complete (S : SortFunc Point) (blobs : Blobs) (depth : Nat)
    (hdata : ∀ c ∈ chunks, c.isChunkManifest = false) (hd : DistinctTs chunks) :
    ∃ compacted garbage, compactFileChunks S blobs depth chunks = .ok (compacted, garbage) ∧
      ∀ c ∈ chunks, (c ∈ compacted ↔
          ∃ x o, placeAt (readResolvedChunks S chunks 0 maxInt64) x = some (c.getFileIdString, o)) ∧
        (c ∈ garbage ↔ c ∉ compacted) := by
  have ho := readResolvedChunks_ordered S (liveChunks chunks 0 maxInt64) 0 maxInt64
  rw [compactFileChunks, nonOverlappingVisibleIntervals, resolveChunkManifest_data hdata]
  refine ⟨_, _, congrArg Except.ok (partition_eq_filter_filter ..), fun c hc => ⟨?_, ?_⟩⟩
  · simp only [← readResolvedChunks_liveChunks_placeAt S hd, ← mem_fileIds_iff ho]
    rw [List.mem_filter, decide_eq_true_eq, and_iff_right hc]
  · simp [List.mem_filter, hc]

theorem compactFileChunks_complete_hidden :
    compactFileChunks .insertion (fun _ => none) 0 [hiddenChunk, hidingChunk] = .ok ([hidingChunk], [hiddenChunk]) ∧
    ∃ x o, placeAt (readResolvedChunks .insertion [hiddenChunk, hidingChunk] 0 maxInt64) x =
      some (hidingChunk.getFileIdString, o) := by
  obtain ⟨compacted, garbage, h, hkept⟩ :=
    compactFileChunks_complete .insertion (fun _ => none) 0
      (show ∀ c ∈ [hiddenChunk, hidingChunk], _ by decide) (by decide)
  cases compactFileChunks_hidden.symm.trans h
  exact ⟨compactFileChunks_hidden, (hkept hidingChunk (by decide)).1.1 (by decide)⟩

end Filer
