import SeaweedFS.Filer.ChunkGroup
import SeaweedFS.Filer.Proof.ReaderAt

/-!
# The invariant of a section

A section is resolved at its first read and then kept up to date chunk by chunk. What it keeps (`SectionInv`) is
ordered and shows only bytes of loaded chunks (`Backed`), within the section the newest ones when overlapping
chunks of the section have different stamps.
-/

namespace Filer

open Lib List Option

variable {loaded : List FileChunk} {vis : IntervalList VisibleInterval} {sec : FileChunkSection}
variable {si : Int} {c : FileChunk}

/-- `x` lies in section `si`. -/
def InSection (si x : Int) : Prop := 0 ≤ si ∧ si * sectionSize ≤ x ∧ x < sectionEnd si

/-- `chunk` is put into section `si`. -/
def Touches (si : Int) (chunk : FileChunk) : Prop :=
  chunk.offset / sectionSize ≤ si ∧ si ≤ chunk.stop / sectionSize

instance (si : Int) (chunk : FileChunk) : Decidable (Touches si chunk) :=
  inferInstanceAs (Decidable (_ ∧ _))

variable {x : Int}

/-- What is shown at `x` are bytes of a loaded chunk, and some loaded chunk covers `x`. -/
def Backed (loaded : List FileChunk) (x : Int) (o : Option (Int × String × Int)) : Prop :=
  ∀ t fileId pos, o = some (t, fileId, pos) →
    (∃ c ∈ loaded, c.offset ≤ x ∧ t = c.modifiedTsNs ∧ fileId = c.getFileIdString ∧
      pos = x - c.offset) ∧
    ∃ c ∈ loaded, Covers c x

theorem Backed.none (loaded : List FileChunk) (x : Int) : Backed loaded x none := by
  intro t fileId pos h
  cases h

theorem Backed.mono {loaded' : List FileChunk} {o : Option (Int × String × Int)}
    (h : Backed loaded x o) (hs : ∀ c ∈ loaded, c ∈ loaded') : Backed loaded' x o := by
  intro t fileId pos ho
  obtain ⟨⟨c, hc, h1⟩, ⟨d, hd, h2⟩⟩ := h t fileId pos ho
  exact ⟨⟨c, hs c hc, h1⟩, ⟨d, hs d hd, h2⟩⟩

theorem Backed.newer {a b : Option (Int × String × Int)}
    (ha : Backed loaded x a) (hb : Backed loaded x b) : Backed loaded x (newer a b) := by
  match a, b with
  | .none, _ => exact hb
  | some _, .none => exact ha
  | some a, some b =>
    rw [Filer.newer]
    split
    · exact ha
    · exact hb

theorem backed_intervalOf (hc : c ∈ loaded)
    {start stop : Int} (h1 : c.offset ≤ start) (h2 : stop ≤ c.stop) (x : Int) :
    Backed loaded x (showAt VisibleInterval.place (intervalOf c start stop) x) := by
  rw [showAt_intervalOf]
  split
  · intro t fileId pos he
    obtain ⟨rfl, rfl, rfl⟩ := he
    refine ⟨⟨c, hc, by omega, rfl, rfl, rfl⟩, c, hc, ?_⟩
    simp only [Covers, lo_chunk, hi_chunk]
    omega
  · exact .none loaded x

theorem queue_mem {done : List Point} {p : Point} (h : p ∈ (sweep done).queue) :
    p ∈ done ∧ p.isStart = true := by
  induction done using List.reverseRecOn with
  | nil => cases h
  | append_singleton done q ih =>
    rw [sweep_append, Sweep.step_queue] at h
    split at h
    · rename_i hq
      have hin : p ∈ (sweep done).queue ∨ p = q := by
        cases hl : (sweep done).queue.getLast? with
        | none =>
          rw [hl] at h
          simpa using h
        | some pp =>
          rw [hl] at h
          dsimp only at h
          split at h
          · simpa using h
          · exact (mem_of_mem_insertBeforeNewer h).symm
      rcases hin with hin | rfl
      · exact ⟨by simp [(ih hin).1], (ih hin).2⟩
      · exact ⟨by simp, hq⟩
    · have hsub := (removeFromBack_sublist q.ts (sweep done).queue.reverse).reverse
      rw [reverse_reverse] at hsub
      have := ih (hsub.subset h)
      exact ⟨by simp [this.1], this.2⟩

theorem SortedPoints.exists_covers {live : List FileChunk} {pts : List Point}
    (h : SortedPoints live pts) {y : Int} {p : Point} (hp : p ∈ queueAt pts y) :
    ∃ c ∈ live, Covers c y := by
  have he := h.split_at y
  have hle := h.stamped_add_stops_le he p.ts
  have hpos : 0 < stamped p.ts (queueAt pts y) := List.countP_pos_iff.2 ⟨p, hp, by simp⟩
  by_contra hno
  -- otherwise every chunk that has begun has ended
  have hse : starts p.ts (pts.filter fun p => p.x ≤ y) ≤ stops p.ts (pts.filter fun p => p.x ≤ y) := by
    obtain ⟨hstarts, hstops⟩ := h.starts_stops_eq he (t := p.ts) (fun q => q.x ≤ y)
      (fun q hq _ => by simpa using (List.mem_filter.1 hq).2) (fun q hq => by simpa using (List.mem_filter.1 hq).2)
    rw [hstarts, hstops]
    refine countP_mono_left fun c hc hcy => ?_
    simp only [decide_eq_true_eq] at hcy ⊢
    refine ⟨hcy.1, ?_⟩
    by_contra hlt
    exact hno ⟨c, hc, hcy.2, not_le.1 hlt⟩
  rw [queueAt] at hpos
  omega

theorem readResolvedChunks_backed (S : SortFunc Point) (chunks : List FileChunk) (a b : Int) :
    (∀ i ∈ readResolvedChunks S chunks a b, Carries i) ∧
      ∀ x, Backed chunks x (lookAt VisibleInterval.place (readResolvedChunks S chunks a b) x) := by
  have h := sortedPoints S chunks a b
  have hlive : ∀ c ∈ liveChunks chunks a b, c ∈ chunks := fun c hc => (mem_liveChunks.1 hc).1
  obtain ⟨ho, hsh⟩ := sweep_shows h.sorted_x h.queue_nil
  have hof : ∀ i ∈ readResolvedChunks S chunks a b, ∀ x, Covers i x →
      ∃ c ∈ chunks, c.offset ≤ x ∧ i = intervalOf c i.startOffset i.stopOffset ∧
        ∃ d ∈ chunks, Covers d x := by
    intro i hi x hix
    have hx := hsh x
    cases hl : (queueAt (S.sort pointCmp (pointsOf chunks a b)) x).getLast? with
    | none =>
      rw [hl] at hx
      exact absurd hix (hx i hi)
    | some p =>
      rw [hl] at hx
      obtain ⟨j, hj, hjx, hje⟩ := hx
      obtain rfl : j = i := ho.covers_eq hj hi hjx hix
      have hp : p ∈ queueAt (S.sort pointCmp (pointsOf chunks a b)) x := mem_of_getLast? hl
      obtain ⟨hpd, hps⟩ := queue_mem hp
      obtain ⟨hpm, hpx⟩ := List.mem_filter.1 hpd
      obtain ⟨c, hc, rfl | rfl⟩ := mem_points.1 (h.perm.mem_iff.1 hpm)
      · obtain ⟨d, hd, hdx⟩ := h.exists_covers hp
        exact ⟨c, hlive c hc, by simpa using hpx, hje, d, hlive d hd, hdx⟩
      · simp at hps
  constructor
  · intro i hi
    obtain ⟨c, -, -, hc, -⟩ := hof i hi i.startOffset ⟨le_refl _, ho.pos i hi⟩
    rw [hc]
    exact carries_intervalOf c _ _
  · intro x t fileId pos hlook
    rw [lookAt, Option.map_eq_some_iff] at hlook
    obtain ⟨i, hi, he⟩ := hlook
    obtain ⟨him, hix⟩ := seek_covers hi
    obtain ⟨c, hc, hcx, hie, d, hd, hdx⟩ := hof i him x hix
    rw [hie] at he
    simp only [intervalOf, VisibleInterval.place, Prod.mk.injEq] at he
    exact ⟨⟨c, hc, hcx, he.1.symm, he.2.1.symm, by omega⟩, d, hd, hdx⟩

/-! ## What a section keeps -/

/-- Visible intervals of section `si`. -/
structure VisOk (loaded : List FileChunk) (si : Int) (vis : IntervalList VisibleInterval) :
    Prop where
  ordered : Ordered vis
  carries : ∀ i ∈ vis, Carries i
  backed : ∀ x, Backed loaded x (lookAt VisibleInterval.place vis x)
  newest : DistinctTs (loaded.filter fun c => Touches si c) → ∀ x, InSection si x →
    lookAt VisibleInterval.place vis x = chunkAt (loaded.filter fun c => Touches si c) x

/-- Views of section `si` that show what `vis` shows. -/
structure ViewOk (loaded : List FileChunk) (si : Int) (vis : IntervalList VisibleInterval)
    (views : IntervalList ChunkView) : Prop where
  ordered : Ordered views
  range : ∀ i ∈ views, i.value.viewOffset = i.startOffset ∧
    i.value.viewSize = uint64 (i.stopOffset - i.startOffset)
  backed : ∀ x, Backed loaded x (lookAt ChunkView.place views x)
  same : ∀ x, InSection si x →
    lookAt ChunkView.place views x = lookAt VisibleInterval.place vis x

theorem lookAt_of_covers {T β : Type} {read : T → Int → β} {l : IntervalList T} {i : Interval T}
    (ho : Ordered l) (hi : i ∈ l) (hx : Covers i x) :
    lookAt read l x = some (i.tsNs, read i.value x) := by
  rw [lookAt, (seek_eq_some ho).2 ⟨hi, hx⟩]
  rfl

theorem int64_uint64 {n : Int} (h0 : 0 ≤ n) (h : n ≤ maxInt64) : int64 (uint64 n) = n := by
  have hu : ((uint64 n : Nat) : Int) = n := by
    unfold uint64 maxInt64 at *
    omega
  rw [hu]
  exact int64_of_range (by omega) h

theorem viewsOk_of_backed {fileSize : Int} {views : IntervalList ChunkView} (ordered : Ordered views)
    (range : ∀ i ∈ views, i.value.viewOffset = i.startOffset ∧
      i.value.viewSize = uint64 (i.stopOffset - i.startOffset))
    (backed : ∀ x, Backed loaded x (lookAt ChunkView.place views x))
    (hsize : ∀ c ∈ loaded, c.stop ≤ fileSize) : ViewsOk views fileSize := by
  have key : ∀ i ∈ views, 0 ≤ i.startOffset ∧ i.startOffset < i.stopOffset ∧
      i.stopOffset ≤ maxInt64 ∧ i.stopOffset ≤ fileSize ∧ 0 ≤ i.value.offsetInChunk ∧
      i.value.offsetInChunk ≤ i.startOffset := by
    intro i hi
    have hpos : i.startOffset < i.stopOffset := ordered.pos i hi
    -- the chunks behind the first and the last byte
    have h1 := backed i.startOffset _ _ _ (lookAt_of_covers ordered hi ⟨le_refl _, hpos⟩)
    have h2 := backed (i.stopOffset - 1) _ _ _
      (lookAt_of_covers ordered hi ⟨by simp only [lo_interval]; omega,
        by simp only [hi_interval]; omega⟩)
    obtain ⟨⟨c, hc, hco, -, -, hpos1⟩, -⟩ := h1
    obtain ⟨-, d, hd, -, hdx⟩ := h2
    simp only [hi_chunk] at hdx
    have hvo := (range i hi).1
    have := hsize d hd
    have := d.stop_le_maxInt64
    have := c.offset_nonneg
    refine ⟨by omega, hpos, by omega, by omega, ?_, ?_⟩
    · omega
    · omega
  refine ⟨ordered, fun i hi => ⟨(range i hi).1, ?_⟩, fun i hi => ?_, fun i hi => ?_⟩
  · have := key i hi
    rw [(range i hi).2]
    exact int64_uint64 (by omega) (by omega)
  · have := key i hi
    omega
  · exact (key i hi).2.2.2.1

theorem ViewOk.viewsOk {fileSize : Int} {views : IntervalList ChunkView}
    (h : ViewOk loaded si vis views) (hsize : ∀ c ∈ loaded, c.stop ≤ fileSize) :
    ViewsOk views fileSize :=
  viewsOk_of_backed h.ordered h.range h.backed hsize

theorem chunkAt_append (hd : DistinctTs (loaded ++ [c])) (x : Int) : chunkAt (loaded ++ [c]) x =
      newer (showAt VisibleInterval.place (intervalOf c c.offset c.stop) x) (chunkAt loaded x) := by
  rw [← chunkAt_cons, chunkAt, chunkAt, newest?_perm hd (perm_append_singleton c loaded)]

theorem showAt_clip (hx : InSection si x) (c : FileChunk) :
    showAt VisibleInterval.place (intervalOf c (max (si * sectionSize) c.offset)
      (min (sectionEnd si) c.stop)) x =
    showAt VisibleInterval.place (intervalOf c c.offset c.stop) x := by
  unfold InSection at hx
  rw [showAt_intervalOf, showAt_intervalOf]
  by_cases h : c.offset ≤ x ∧ x < c.stop
  · rw [if_pos h, if_pos (by omega)]
  · rw [if_neg h, if_neg (by omega)]

theorem VisOk.add_other (h : VisOk loaded si vis) (hc : ¬ Touches si c) :
    VisOk (loaded ++ [c]) si vis where
  ordered := h.ordered
  carries := h.carries
  backed x := (h.backed x).mono fun d hd => by simp [hd]
  newest hd x hx := by
    have hsame : ((loaded ++ [c]).filter fun c => Touches si c) = loaded.filter fun c => Touches si c := by
      simp [hc]
    rw [hsame] at hd ⊢
    exact h.newest hd x hx

theorem VisOk.merge (h : VisOk loaded si vis) (hc : Touches si c) :
    VisOk (loaded ++ [c]) si (mergeIntoVisibles vis (max (si * sectionSize) c.offset)
      (min (sectionEnd si) c.stop) c) := by
  have hl := mergeIntoVisibles_laid h.ordered (max (si * sectionSize) c.offset)
    (min (sectionEnd si) c.stop) c
  refine ⟨hl.ordered, mergeIntoVisibles_carries h.carries _ _ c, fun x => ?_, fun hd x hx => ?_⟩
  · rw [hl.shows x]
    exact (backed_intervalOf (by simp) (le_max_right _ _) (min_le_right _ _) x).newer
      ((h.backed x).mono fun d hd => by simp [hd])
  · have hmore : ((loaded ++ [c]).filter fun c => Touches si c) =
        (loaded.filter fun c => Touches si c) ++ [c] := by
      simp [hc]
    rw [hmore] at hd ⊢
    rw [hl.shows x, showAt_clip hx, chunkAt_append hd,
      h.newest (hd.sublist (sublist_append_left _ _)) x hx]

/-- The interval `MergeIntoChunkViews` inserts. -/
def viewIntervalOf (c : FileChunk) (start stop : Int) : Interval ChunkView where
  startOffset := start
  stopOffset := stop
  tsNs := c.modifiedTsNs
  value :=
    { fileId := c.getFileIdString
      offsetInChunk := start - c.offset
      viewSize := uint64 (stop - start)
      viewOffset := start
      chunkSize := c.size
      cipherKey := c.cipherKey
      isGzipped := c.isCompressed
      modifiedTsNs := c.modifiedTsNs }

theorem mergeIntoChunkViews_eq (views : IntervalList ChunkView) (start stop : Int) (c : FileChunk) :
    mergeIntoChunkViews views start stop c = insertLoop [] (viewIntervalOf c start stop) views := by
  simp [mergeIntoChunkViews, IntervalList.InsertInterval, IntervalList.insertInterval,
    IntervalValue.setStartStop, ChunkView.setStartStop, viewIntervalOf]

theorem showAt_viewIntervalOf (c : FileChunk) (start stop x : Int) :
    showAt ChunkView.place (viewIntervalOf c start stop) x =
      showAt VisibleInterval.place (intervalOf c start stop) x := by
  simp [showAt, viewIntervalOf, intervalOf, ChunkView.place, VisibleInterval.place]

theorem ViewOk.add_other
    {views : IntervalList ChunkView} (h : ViewOk loaded si vis views) (c : FileChunk) :
    ViewOk (loaded ++ [c]) si vis views :=
  ⟨h.ordered, h.range, fun x => (h.backed x).mono fun d hd => by simp [hd], h.same⟩

theorem ViewOk.merge
    {views : IntervalList ChunkView} (h : ViewOk loaded si vis views) (hv : Ordered vis)
    (c : FileChunk) : ViewOk (loaded ++ [c]) si (mergeIntoVisibles vis (max (si * sectionSize) c.offset)
        (min (sectionEnd si) c.stop) c) (mergeIntoChunkViews views (max (si * sectionSize) c.offset)
        (min (sectionEnd si) c.stop) c) := by
  have hvis := mergeIntoVisibles_laid hv (max (si * sectionSize) c.offset)
    (min (sectionEnd si) c.stop) c
  rw [mergeIntoChunkViews_eq]
  have hl := insertLoop_spec stable_viewPlace [] (viewIntervalOf c (max (si * sectionSize) c.offset)
    (min (sectionEnd si) c.stop)) views (by simpa using h.ordered) (by simp)
  refine ⟨hl.ordered, ?_, fun x => ?_, fun x hx => ?_⟩
  · exact insertLoop_forall (fun i a b _ => ⟨rfl, rfl⟩) [] _ _ (by simp) ⟨rfl, rfl⟩ h.range
  · rw [hl.shows x, showAt_viewIntervalOf]
    exact (backed_intervalOf (by simp) (le_max_right _ _) (min_le_right _ _) x).newer
      ((h.backed x).mono fun d hd => by simp [hd])
  · rw [hl.shows x, hvis.shows x, showAt_viewIntervalOf]
    exact congrArg _ (h.same x hx)

/-! ## Setting up a section -/

theorem visOk_resolved (S : SortFunc Point) (loaded : List FileChunk) (si : Int) :
    VisOk loaded si (readResolvedChunks S (loaded.filter fun c => Touches si c) (si * sectionSize)
      (sectionEnd si)) := by
  obtain ⟨hc, hb⟩ := readResolvedChunks_backed S (loaded.filter fun c => Touches si c)
    (si * sectionSize) (sectionEnd si)
  refine ⟨readResolvedChunks_ordered S _ _ _, hc,
    fun x => (hb x).mono fun c hc => (List.mem_filter.1 hc).1, fun hd x hx => ?_⟩
  have hsh := readResolvedChunks_shows S (a := si * sectionSize) (b := sectionEnd si) hd x
  rw [newest?_liveChunks _ hx.2.1 hx.2.2] at hsh
  exact lookAt_of_shows (readResolvedChunks_ordered S _ _ _) hsh

theorem viewOf_some {a b : Int} {x : Interval VisibleInterval} {v : Interval ChunkView}
    (hc : Carries x) (h : viewOf a b x = some v) :
    v.startOffset = max a x.startOffset ∧ v.stopOffset = min b x.stopOffset ∧
      v.startOffset < v.stopOffset ∧ v.value.viewOffset = v.startOffset ∧
      v.value.viewSize = uint64 (v.stopOffset - v.startOffset) := by
  simp only [viewOf, hc.start, hc.stop] at h
  split at h
  · rename_i hlt
    rw [← some.inj h]
    exact ⟨rfl, rfl, hlt, rfl, rfl⟩
  · cases h

theorem showAt_viewOf {a b : Int} {i : Interval VisibleInterval} (hc : Carries i) (x : Int) :
    (match viewOf a b i with
      | some v => showAt ChunkView.place v x
      | none => none) = if a ≤ x ∧ x < b then showAt VisibleInterval.place i x else none := by
  simp only [viewOf, hc.start, hc.stop, hc.tsNs]
  by_cases hlt : max a i.startOffset < min b i.stopOffset
  · rw [if_pos hlt]
    simp only [showAt, ChunkView.place, VisibleInterval.place, hc.start]
    by_cases hx : (a ≤ x ∧ x < b) ∧ i.startOffset ≤ x ∧ x < i.stopOffset
    · rw [if_pos (by omega), if_pos hx.1, if_pos hx.2]
      simp only [Option.some.injEq, Prod.mk.injEq, true_and]
      omega
    · rw [if_neg (by omega)]
      split
      · rw [if_neg (by omega)]
      · rfl
  · rw [if_neg hlt]
    dsimp only
    split
    · rw [showAt, if_neg (by omega)]
    · rfl

theorem lookAt_views (hc : ∀ i ∈ vis, Carries i) (a b x : Int) :
    lookAt ChunkView.place (vis.filterMap (viewOf a b)) x =
      if a ≤ x ∧ x < b then lookAt VisibleInterval.place vis x else none := by
  induction vis with
  | nil => simp [lookAt_nil]
  | cons i vis ih =>
    have ih := ih fun j hj => hc j (by simp [hj])
    have hi := showAt_viewOf (a := a) (b := b) (hc i (by simp)) x
    have hcons : lookAt ChunkView.place ((i :: vis).filterMap (viewOf a b)) x = (match viewOf a b i with
          | some v => showAt ChunkView.place v x
          | none => none).or (lookAt ChunkView.place (vis.filterMap (viewOf a b)) x) := by
      rw [filterMap_cons]
      cases viewOf a b i with
      | none => rfl
      | some v => rw [lookAt_cons]
    rw [hcons, hi, ih, lookAt_cons]
    split <;> rfl

theorem le_viewStop (hx : InSection si x) (hm : x < maxInt64) :
    x < viewStop (si * sectionSize) (sectionEnd si) := by
  obtain ⟨h0, h1, h2⟩ := hx
  unfold viewStop
  dsimp only
  split
  · split <;> omega
  · split
    · exact hm
    · rename_i h3 h4
      unfold sectionSize at *
      by_cases hsum : si * (2 * 1024 * 1024 * 32) + sectionEnd si ≤ maxInt64
      · rw [int64_of_range (by omega) hsum]
        omega
      · -- the sum wraps to a negative number, for which the source takes `MaxInt64`
        exfalso
        refine h4 ?_
        have hmax : sectionEnd si ≤ maxInt64 := by
          exact int64_le _
        unfold int64 maxInt64 at *
        rw [Int.bmod_def]
        split <;> omega

theorem ordered_views (ho : Ordered vis) (hc : ∀ i ∈ vis, Carries i) (a b : Int) :
    Ordered (vis.filterMap (viewOf a b)) ∧
      ∀ v ∈ vis.filterMap (viewOf a b), v.value.viewOffset = v.startOffset ∧
        v.value.viewSize = uint64 (v.stopOffset - v.startOffset) := by
  refine ⟨⟨fun v hv => ?_, ?_⟩, fun v hv => ?_⟩
  · obtain ⟨i, hi, hiv⟩ := List.mem_filterMap.1 hv
    exact (viewOf_some (hc i hi) hiv).2.2.1
  · rw [pairwise_filterMap]
    refine List.Pairwise.imp_of_mem (fun {i j} hi hj hij v hv w hw => ?_) ho.pairwise
    obtain ⟨-, h2, -⟩ := viewOf_some (hc i hi) hv
    obtain ⟨h3, -⟩ := viewOf_some (hc j hj) hw
    simp only [lo_interval, hi_interval] at hij ⊢
    omega
  · obtain ⟨i, hi, hiv⟩ := List.mem_filterMap.1 hv
    exact (viewOf_some (hc i hi) hiv).2.2.2

theorem VisOk.views (h : VisOk loaded si vis) :
    ViewOk loaded si vis (viewFromVisibleIntervals vis (si * sectionSize) (sectionEnd si)) := by
  have hlook := fun x => lookAt_views h.carries (si * sectionSize)
    (viewStop (si * sectionSize) (sectionEnd si)) x
  unfold viewFromVisibleIntervals
  obtain ⟨hordered, hrange⟩ := ordered_views h.ordered h.carries (si * sectionSize)
    (viewStop (si * sectionSize) (sectionEnd si))
  refine ⟨hordered, hrange, fun x => ?_, fun x hx => ?_⟩
  · rw [hlook x]
    split
    · exact h.backed x
    · exact .none loaded x
  · rw [hlook x]
    cases hl : lookAt VisibleInterval.place vis x with
    | none => split <;> rfl
    | some o =>
      obtain ⟨t, fileId, pos⟩ := o
      obtain ⟨-, d, -, hd⟩ := h.backed x t fileId pos hl
      have := d.stop_le_maxInt64
      have hdx := hd.2
      simp only [hi_chunk] at hdx
      rw [if_pos ⟨hx.2.1, le_viewStop hx (by omega)⟩]

/-! ## The invariant -/

/-- The visible intervals of a section, as they are or as `setupForRead` will set them. -/
def FileChunkSection.visible (S : SortFunc Point) (sec : FileChunkSection) :
    IntervalList VisibleInterval :=
  sec.visibleIntervals.getD (readResolvedChunks S sec.chunks (sec.sectionIndex * sectionSize)
    (sectionEnd sec.sectionIndex))

/-- Section `si` of a group into which `loaded` were loaded. -/
structure SectionInv (loaded : List FileChunk) (si : Int) (sec : FileChunkSection) : Prop where
  index : sec.sectionIndex = si
  fresh : sec.visibleIntervals = none →
    sec.chunks = loaded.filter (fun c => Touches si c) ∧ sec.chunkViews = none ∧
      sec.isPrepared = false
  visOk : ∀ vis, sec.visibleIntervals = some vis → VisOk loaded si vis
  viewOk : ∀ views, sec.chunkViews = some views →
    ∃ vis, sec.visibleIntervals = some vis ∧ ViewOk loaded si vis views
  prepared : sec.isPrepared = true → sec.chunkViews ≠ none ∧ sec.reader ≠ none

section

variable (h : SectionInv loaded si sec)
include h

section

variable (S : SortFunc Point)
include S

theorem SectionInv.visible : VisOk loaded si (sec.visible S) := by
  unfold FileChunkSection.visible
  cases hv : sec.visibleIntervals with
  | none =>
    rw [getD_none, (h.fresh hv).1, h.index]
    exact visOk_resolved S loaded si
  | some vis => exact h.visOk vis hv

theorem SectionInv.addChunk (hc : Touches si c) : SectionInv (loaded ++ [c]) si (sec.addChunk S c) := by
  have hi := h.index
  unfold FileChunkSection.addChunk
  cases hv : sec.visibleIntervals with
  | none =>
    obtain ⟨hchunks, hviews, hprep⟩ := h.fresh hv
    have hfilter : (loaded ++ [c]).filter (fun c => decide (Touches si c)) = sec.chunks ++ [c] := by
      simp [hchunks, hc]
    refine ⟨hi, fun hn => by simp at hn, fun vis hvis => ?_, fun views hw => by simp [hviews] at hw,
      fun hp => by simp [hprep] at hp⟩
    rw [← some.inj hvis, ← hfilter, hi]
    exact visOk_resolved S _ si
  | some vis =>
    have hvok := h.visOk vis hv
    refine ⟨hi, fun hn => by simp at hn, fun vis' hvis => ?_, fun views hw => ?_, fun hp => ?_⟩
    · rw [← some.inj hvis, hi]
      exact hvok.merge hc
    · obtain ⟨views', hviews', rfl⟩ := map_eq_some_iff.1 hw
      obtain ⟨vis', hvis', hview⟩ := h.viewOk views' hviews'
      obtain rfl : vis = vis' := some.inj (hv.symm.trans hvis')
      refine ⟨_, rfl, ?_⟩
      rw [hi]
      exact hview.merge hvok.ordered c
    · obtain ⟨h1, h2⟩ := h.prepared hp
      exact ⟨by simpa using h1, h2⟩

omit S in
theorem SectionInv.add_other (hc : ¬ Touches si c) : SectionInv (loaded ++ [c]) si sec where
  index := h.index
  fresh hv := by
    obtain ⟨h1, h2⟩ := h.fresh hv
    exact ⟨by simp [h1, hc], h2⟩
  visOk vis hv := (h.visOk vis hv).add_other hc
  viewOk views hw := by
    obtain ⟨vis, hv, hview⟩ := h.viewOk views hw
    exact ⟨vis, hv, hview.add_other c⟩
  prepared := h.prepared

omit S in
omit h in
theorem SectionInv.of_prepared {views : IntervalList ChunkView}
    (hi : sec.sectionIndex = si) (hv : sec.visibleIntervals = some vis)
    (hw : sec.chunkViews = some views) (hr : sec.reader ≠ none) (hvis : VisOk loaded si vis)
    (hview : ViewOk loaded si vis views) : SectionInv loaded si sec where
  index := hi
  fresh hn := by simp [hv] at hn
  visOk vis' hv' := by rwa [← some.inj (hv.symm.trans hv')]
  viewOk views' hw' := ⟨vis, hv, by rwa [← some.inj (hw.symm.trans hw')]⟩
  prepared _ := ⟨by simp [hw], hr⟩

theorem SectionInv.setupForRead_fields (fileSize : Int) :
    (sec.setupForRead S fileSize).sectionIndex = sec.sectionIndex ∧
    (sec.setupForRead S fileSize).visibleIntervals = some (sec.visible S) ∧
    (sec.setupForRead S fileSize).chunkViews = some (sec.chunkViews.getD
      (viewFromVisibleIntervals (sec.visible S) (sec.sectionIndex * sectionSize)
        (sectionEnd sec.sectionIndex))) ∧
    ∃ reader, (sec.setupForRead S fileSize).reader = some reader ∧ reader.fileSize = fileSize := by
  unfold FileChunkSection.setupForRead FileChunkSection.visible
  cases hp : sec.isPrepared with
  | true =>
    obtain ⟨hviews, hreader⟩ := h.prepared hp
    obtain ⟨views, hviews⟩ := ne_none_iff_exists'.1 hviews
    obtain ⟨reader, hreader⟩ := ne_none_iff_exists'.1 hreader
    obtain ⟨vis, hvis, -⟩ := h.viewOk views hviews
    simp [hviews, hreader, hvis]
  | false =>
    cases hv : sec.visibleIntervals <;> cases hw : sec.chunkViews <;> simp [hv, hw]

/-- **`setupForRead`** keeps the invariant and what is visible, and leaves views to read. -/
theorem SectionInv.setupForRead (fileSize : Int) : SectionInv loaded si (sec.setupForRead S fileSize) ∧
      (sec.setupForRead S fileSize).visible S = sec.visible S ∧
      ∃ views reader, (sec.setupForRead S fileSize).chunkViews = some views ∧
        (sec.setupForRead S fileSize).reader = some reader ∧ reader.fileSize = fileSize ∧
        ViewOk loaded si (sec.visible S) views := by
  have hvis := h.visible S
  obtain ⟨hidx, hv, hw, reader, hr, hfs⟩ := h.setupForRead_fields S fileSize
  have hview : ViewOk loaded si (sec.visible S) (sec.chunkViews.getD
      (viewFromVisibleIntervals (sec.visible S) (sec.sectionIndex * sectionSize)
        (sectionEnd sec.sectionIndex))) := by
    cases hviews : sec.chunkViews with
    | none =>
      rw [h.index, getD_none]
      exact hvis.views
    | some views =>
      obtain ⟨vis, hvis, hview⟩ := h.viewOk views hviews
      rwa [FileChunkSection.visible, hvis]
  refine ⟨.of_prepared (hidx.trans h.index) hv hw (by simp [hr]) hvis hview, ?_, _, reader, hw, hr,
    hfs, hview⟩
  rw [FileChunkSection.visible, hv]
  rfl

/-- **The read of a section** keeps the invariant and what is visible, and fills the buffer with it up to the end of
the file. -/
theorem SectionInv.readDataAt
    (sched : Schedule) (fetch : Fetch)
    (fileSize : Int) (p : List UInt8) (offset : Int) :
    SectionInv loaded si (sec.readDataAt S sched fetch fileSize p offset).1 ∧
    (sec.readDataAt S sched fetch fileSize p offset).1.visible S = sec.visible S ∧
    ∀ stored, Fetches stored fetch → (∀ c ∈ loaded, c.stop ≤ fileSize) →
      0 ≤ si → si * sectionSize ≤ offset → offset + p.length ≤ sectionEnd si →
      (sec.readDataAt S sched fetch fileSize p offset).2.buff.length = p.length ∧
      (sec.readDataAt S sched fetch fileSize p offset).2.n =
        max 0 (min (p.length : Int) (fileSize - offset)) ∧
      ((sec.readDataAt S sched fetch fileSize p offset).2.err =
        if offset + p.length ≥ fileSize then some .eof else none) ∧
      ∀ i : Nat, i < p.length → offset + i < fileSize →
        (sec.readDataAt S sched fetch fileSize p offset).2.buff[i]? =
          some (byteOf stored (placeAt (sec.visible S) (offset + i))) := by
  obtain ⟨hinv, hvisible, views, reader, hw, hr, hfs, hview⟩ := h.setupForRead S fileSize
  have hvisI : (sec.setupForRead S fileSize).visibleIntervals = some (sec.visible S) :=
    (h.setupForRead_fields S fileSize).2.1
  unfold FileChunkSection.readDataAt
  refine ⟨?_, ?_, fun stored hfetch hsize h0 hlo hhi => ?_⟩
  · exact .of_prepared hinv.index hvisI hw (by simp [ChunkReadAt.readAtWithTime]) (h.visible S) hview
  · simp only [FileChunkSection.visible, hvisI, getD_some]
  · simp only [hw, hr, getD_some]
    have hspec := doReadAt_spec hfetch sched
      { chunkViews := views
        fileSize := reader.fileSize
        readerPattern := reader.readerPattern.monitorReadAt offset p.length }
      (hfs ▸ hview.viewsOk hsize) p offset
    simp only [hfs] at hspec
    rw [hfs]
    obtain ⟨hl, hn, herr, hb⟩ := hspec
    refine ⟨hl, hn, herr, fun i hi hlt => (hb i hi hlt).trans ?_⟩
    rw [byteAt, hview.same _ (by unfold InSection; omega), placeAt_eq]

end

end

end Filer
