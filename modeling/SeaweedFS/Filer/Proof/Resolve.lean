import SeaweedFS.Filer.Proof.Points

/-!
# `readResolvedChunks` shows the newest chunk

When overlapping chunks have different stamps, the queue of the sweep holds, in the order of their stamps, the start
points of the chunks that have begun and not ended (`QueueInv`), so its back is the newest chunk over a position
(`readResolvedChunks_shows`).
-/

namespace Filer

open Lib List

variable {live chunks : List FileChunk} {pts done rest : List Point} {c c' : FileChunk}

theorem startPoint_inj (h : startPoint c = startPoint c') : c = c' := by
  simpa [startPoint] using congrArg Point.chunk h

theorem stopPoint_inj (h : stopPoint c = stopPoint c') : c = c' := by
  simpa [stopPoint] using congrArg Point.chunk h

theorem startPoint_ne_stopPoint (c c' : FileChunk) : startPoint c ≠ stopPoint c' := by
  simp [startPoint, stopPoint]

theorem removeFromBack_eq_filter {t : Int} {l : List Point} (h : l.Pairwise fun a b => a.ts ≠ b.ts) :
    (removeFromBack t l).2 = l.filter fun e => e.ts ≠ t := by
  induction l with
  | nil => rfl
  | cons e l ih =>
    obtain ⟨he, hl⟩ := List.pairwise_cons.1 h
    unfold removeFromBack
    split
    · rename_i heq
      rw [filter_cons_of_neg (by simp [heq])]
      exact (List.filter_eq_self.2 fun f hf => by simpa [← heq] using (he f hf).symm).symm
    · rename_i hne
      rw [filter_cons_of_pos (by simpa using hne), ih hl]

/-! ## The queue holds the open chunks -/

theorem DistinctTs.nodup (hd : DistinctTs live) (hpos : ∀ c ∈ live, c.offset < c.stop) :
    live.Nodup := by
  refine List.Pairwise.imp_of_mem (fun {a b} ha _ hab he => ?_) hd
  subst he
  refine hab ?_ rfl
  have := hpos a ha
  simp only [Overlap, lo_chunk, hi_chunk]
  omega

section

variable (h : SortedPoints live pts)
include h

section

variable (hd : DistinctTs live)
include hd

theorem SortedPoints.nodup : pts.Nodup := by
  refine h.perm.nodup_iff.2 (List.nodup_flatMap.2 ⟨fun c _ => ?_, ?_⟩)
  · simp [startPoint_ne_stopPoint]
  · refine (DistinctTs.nodup hd h.pos).imp fun {a b} hab => ?_
    intro p hp hq
    simp only [List.mem_cons, not_mem_nil, or_false] at hp hq
    rcases hp with rfl | rfl <;> rcases hq with hq | hq
    · exact hab (startPoint_inj hq)
    · exact startPoint_ne_stopPoint _ _ hq
    · exact startPoint_ne_stopPoint _ _ hq.symm
    · exact hab (stopPoint_inj hq)

/-- The queue holds the chunks that have begun and not ended in `done`, which have different
stamps. -/
structure QueueInv (live : List FileChunk) (done : List Point) (q : List Point) : Prop where
  distinct : q.Pairwise fun a b => a.ts ≠ b.ts
  mem : ∀ p, p ∈ q ↔ ∃ c ∈ live, p = startPoint c ∧ startPoint c ∈ done ∧ stopPoint c ∉ done

/-- No chunk in the queue has the stamp of a chunk that begins: the two would overlap. -/
theorem QueueInv.ts_ne
    (he : pts = done ++ startPoint c :: rest) {q : List Point} (hi : QueueInv live done q)
    (hc : c ∈ live) : ∀ e ∈ q, e.ts ≠ c.modifiedTsNs := by
  have hnd := h.nodup hd
  have hs := h.sorted
  rw [he, pairwise_append] at hs
  obtain ⟨-, hs, hdr⟩ := hs
  rw [he, nodup_append] at hnd
  intro e heq hts
  obtain ⟨c', hc', rfl, hst, hsp⟩ := (hi.mem e).1 heq
  have hne : c' ≠ c := by
    rintro rfl
    exact hnd.2.2 _ hst _ (by simp) rfl
  -- the stop of `c'` comes after the start of `c`, and not at the same position
  have hrest : stopPoint c' ∈ rest := by
    have : stopPoint c' ∈ pts := h.perm.mem_iff.2 (mem_points.2 ⟨c', hc', .inr rfl⟩)
    rw [he] at this
    simpa [hsp, (startPoint_ne_stopPoint c c').symm] using this
  have h1 := (List.pairwise_cons.1 hs).1 _ hrest
  have h2 := hdr _ hst (startPoint c) (by simp)
  simp only [PointLe, startPoint, stopPoint, Bool.false_eq_true, imp_false, not_true_eq_false,
    and_false, or_false] at h1 h2 hts
  have hpos := h.pos c hc
  refine hne (hd.eq_of_covers (x := c.offset) hc' hc ?_ ?_ hts)
  · simp only [Covers, lo_chunk, hi_chunk]
    omega
  · simp only [Covers, lo_chunk, hi_chunk]
    omega

theorem QueueInv.start
    (he : pts = done ++ startPoint c :: rest) {s : Sweep} (hi : QueueInv live done s.queue)
    (hc : c ∈ live) : QueueInv live (done ++ [startPoint c]) (s.step (startPoint c)).queue := by
  have hne := hi.ts_ne h hd he hc
  have hstop : stopPoint c ∉ done := by
    intro hm
    have hs := h.sorted_x
    rw [he, pairwise_append] at hs
    have := hs.2.2 _ hm (startPoint c) (by simp)
    have := h.pos c hc
    simp only [startPoint, stopPoint] at *
    omega
  have hperm : (s.step (startPoint c)).queue.Perm (startPoint c :: s.queue) := by
    rw [Sweep.step_queue, if_pos (show (startPoint c).isStart = true from rfl)]
    cases hl : s.queue.getLast? with
    | none => simp [List.getLast?_eq_none_iff.1 hl]
    | some pp =>
      have hpp : pp ∈ s.queue := mem_of_getLast? hl
      dsimp only
      split
      · exact perm_append_singleton _ _
      · rename_i hle
        exact insertBeforeNewer_perm ⟨pp, hpp, lt_of_le_of_ne (not_lt.1 hle) (hne pp hpp).symm⟩
  refine ⟨(hperm.pairwise_iff fun h => h.symm).2
    (List.pairwise_cons.2 ⟨fun e he => (hne e he).symm, hi.distinct⟩), fun p => ?_⟩
  rw [hperm.mem_iff, List.mem_cons, hi.mem]
  constructor
  · rintro (rfl | ⟨c', hc', rfl, hst, hsp⟩)
    · exact ⟨c, hc, rfl, by simp, by simp [hstop, (startPoint_ne_stopPoint c c).symm]⟩
    · exact ⟨c', hc', rfl, by simp [hst], by simp [hsp, (startPoint_ne_stopPoint c c').symm]⟩
  · rintro ⟨c', hc', rfl, hst, hsp⟩
    rcases List.mem_append.1 hst with hst | hst
    · exact .inr ⟨c', hc', rfl, hst, fun hm => hsp (by simp [hm])⟩
    · exact .inl (List.mem_singleton.1 hst)

theorem QueueInv.stop
    (he : pts = done ++ stopPoint c :: rest) {s : Sweep} (hi : QueueInv live done s.queue)
    (hc : c ∈ live) : QueueInv live (done ++ [stopPoint c]) (s.step (stopPoint c)).queue := by
  have hnd := h.nodup hd
  rw [he, nodup_append] at hnd
  have hstop : stopPoint c ∉ done := fun hm => hnd.2.2 _ hm _ (by simp) rfl
  have hstart : startPoint c ∈ done := by
    have hm : startPoint c ∈ pts := h.perm.mem_iff.2 (mem_points.2 ⟨c, hc, .inl rfl⟩)
    have hs := h.sorted_x
    rw [he, pairwise_append] at hs
    rw [he] at hm
    rcases List.mem_append.1 hm with hm | hm
    · exact hm
    · rcases List.mem_cons.1 hm with hm | hm
      · exact absurd hm (startPoint_ne_stopPoint c c)
      · have := (List.pairwise_cons.1 hs.2.1).1 _ hm
        have := h.pos c hc
        simp only [startPoint, stopPoint] at *
        omega
  have hcq : startPoint c ∈ s.queue := (hi.mem _).2 ⟨c, hc, rfl, hstart, hstop⟩
  have hq : (s.step (stopPoint c)).queue = s.queue.filter fun e => e.ts ≠ c.modifiedTsNs := by
    rw [Sweep.step_queue, if_neg (by simp [stopPoint]), removeFromBack_eq_filter,
      filter_reverse, reverse_reverse]
    · rfl
    · rw [pairwise_reverse]
      exact hi.distinct.imp fun hab => hab.symm
  -- with distinct stamps only the start of `c` has the stamp of `c`
  have huniq : ∀ e ∈ s.queue, e.ts = c.modifiedTsNs → e = startPoint c := by
    intro e heq hts
    by_contra hne
    have : Std.Symm fun a b : Point => a.ts ≠ b.ts := ⟨fun _ _ h => h.symm⟩
    exact hi.distinct.forall heq hcq hne hts
  refine ⟨hq ▸ hi.distinct.filter _, fun p => ?_⟩
  rw [hq, List.mem_filter, hi.mem]
  simp only [decide_not, Bool.not_eq_eq_eq_not, Bool.not_true, decide_eq_false_iff_not]
  constructor
  · rintro ⟨⟨c', hc', rfl, hst, hsp⟩, hts⟩
    refine ⟨c', hc', rfl, by simp [hst], fun hm => ?_⟩
    rcases List.mem_append.1 hm with hm | hm
    · exact hsp hm
    · rw [stopPoint_inj (List.mem_singleton.1 hm)] at hts
      exact hts rfl
  · rintro ⟨c', hc', rfl, hst, hsp⟩
    have hst : startPoint c' ∈ done := by
      rcases List.mem_append.1 hst with hst | hst
      · exact hst
      · exact absurd (List.mem_singleton.1 hst) (startPoint_ne_stopPoint _ _)
    have hsp' : stopPoint c' ∉ done := fun hm => hsp (by simp [hm])
    refine ⟨⟨c', hc', rfl, hst, hsp'⟩, fun hts => ?_⟩
    have := startPoint_inj (huniq _ ((hi.mem _).2 ⟨c', hc', rfl, hst, hsp'⟩) hts)
    exact hsp (by simp [this])

/-- **Run.** After every prefix the queue holds the open chunks. -/
theorem QueueInv.run (he : pts = done ++ rest) : QueueInv live done (sweep done).queue := by
  induction done using List.reverseRecOn generalizing rest with
  | nil => exact ⟨by simp [sweep, Sweep.init], by simp [sweep, Sweep.init]⟩
  | append_singleton done p ih =>
    have he : pts = done ++ p :: rest := by simpa using he
    have ih := ih he
    have hp : p ∈ pts := by rw [he]; simp
    rw [sweep_append]
    obtain ⟨c, hc, rfl | rfl⟩ := mem_points.1 (h.perm.mem_iff.1 hp)
    · exact ih.start h hd he hc
    · exact ih.stop h hd he hc

/-- **The back of the queue is the newest chunk.** -/
theorem queueAt_getLast? (y : Int) : (queueAt pts y).getLast?.map (·.chunk) = newest? live y := by
  have hq := QueueInv.run h hd (h.split_at y)
  have hmem : ∀ p, p ∈ queueAt pts y ↔ ∃ c ∈ live, p = startPoint c ∧ Covers c y := by
    intro p
    rw [queueAt, hq.mem]
    refine exists_congr fun c => and_congr_right fun hc => and_congr_right fun _ => ?_
    have h1 : startPoint c ∈ pts := h.perm.mem_iff.2 (mem_points.2 ⟨c, hc, .inl rfl⟩)
    have h2 : stopPoint c ∈ pts := h.perm.mem_iff.2 (mem_points.2 ⟨c, hc, .inr rfl⟩)
    simp only [List.mem_filter, h1, h2, true_and, decide_eq_true_eq, not_le]
    rfl
  cases hl : (queueAt pts y).getLast? with
  | none =>
    rw [getLast?_eq_none_iff] at hl
    refine (newest?_eq_none.2 fun c hc hcy => ?_).symm
    have := (hmem (startPoint c)).2 ⟨c, hc, rfl, hcy⟩
    rw [hl] at this
    simp at this
  | some pp =>
    obtain ⟨hpm, hpmax⟩ := getLast?_max (queue_sorted _) hl
    obtain ⟨c, hc, rfl, hcy⟩ := (hmem pp).1 hpm
    refine ((newest?_eq_some hd).2 ⟨hc, hcy, fun b hb hby => ?_⟩).symm
    exact hpmax _ ((hmem _).2 ⟨b, hb, rfl, hby⟩)

end

end

/-! ## `readResolvedChunks` -/

theorem mem_liveChunks {a b : Int} :
    c ∈ liveChunks chunks a b ↔ c ∈ chunks ∧ max c.offset a < min c.stop b := by
  simp [liveChunks]

theorem newest?_liveChunks (chunks : List FileChunk) {a b y : Int} (ha : a ≤ y) (hb : y < b) :
    newest? (liveChunks chunks a b) y = newest? chunks y := by
  refine newest?_filter fun c _ hc => ?_
  simp only [Covers, lo_chunk, hi_chunk] at hc
  simp only [decide_eq_true_eq]
  omega

theorem readResolvedChunks_ordered (S : SortFunc Point) (chunks : List FileChunk) (a b : Int) :
    Ordered (readResolvedChunks S chunks a b) :=
  let h := sortedPoints S chunks a b
  (sweep_shows h.sorted_x h.queue_nil).1

theorem readResolvedChunks_shows (S : SortFunc Point) {a b : Int} (hd : DistinctTs chunks) (y : Int) :
    Shows (readResolvedChunks S chunks a b) y (newest? (liveChunks chunks a b) y) := by
  have h := sortedPoints S chunks a b
  rw [← queueAt_getLast? h (hd.sublist filter_sublist)]
  exact (sweep_shows h.sorted_x h.queue_nil).2 y

theorem newest?_liveChunks_all (chunks : List FileChunk) (y : Int) :
    newest? (liveChunks chunks 0 maxInt64) y = newest? chunks y := by
  refine newest?_filter fun c _ hc => ?_
  simp only [Covers, lo_chunk, hi_chunk] at hc
  have := c.offset_nonneg
  have := c.stop_le_maxInt64
  simp only [decide_eq_true_eq]
  omega

theorem covers_chunk {x : Int} : Covers c x ↔ c.offset ≤ x ∧ x < c.offset + c.size := by
  simp [Covers, c.stop_eq]

/-- `vis` shows the bytes of `chunks`: its intervals are ordered and disjoint, cover the bytes of the chunks only,
and show the newest chunk, from the place where they begin. -/
structure ShowsNewest (chunks : List FileChunk) (vis : IntervalList VisibleInterval) : Prop where
  ordered : Ordered vis
  covered : ∀ x : Int, (∃ i ∈ vis, i.startOffset ≤ x ∧ x < i.stopOffset) ↔
    ∃ c ∈ chunks, c.offset ≤ x ∧ x < c.offset + c.size
  newest : ∀ i ∈ vis, ∀ x : Int, i.startOffset ≤ x → x < i.stopOffset →
    ∃ c ∈ chunks, (c.offset ≤ x ∧ x < c.offset + c.size) ∧
      (∀ c' ∈ chunks, c'.offset ≤ x → x < c'.offset + c'.size → c'.modifiedTsNs ≤ c.modifiedTsNs) ∧
      i.value.fileId = c.getFileIdString ∧
      i.value.start = i.startOffset ∧ i.value.stop = i.stopOffset ∧
      i.value.offsetInChunk = i.value.start - c.offset

theorem ShowsNewest.of_shows {vis : IntervalList VisibleInterval}
    (ho : Ordered vis) (h : ∀ x, Shows vis x (newest? chunks x)) : ShowsNewest chunks vis where
  ordered := ho
  covered x := by
    have hx := h x
    cases hn : newest? chunks x with
    | none =>
      rw [hn] at hx
      have hnc := newest?_eq_none.1 hn
      exact ⟨fun ⟨i, hi, hc⟩ => absurd hc (hx i hi),
        fun ⟨c, hc, hcx⟩ => absurd (covers_chunk.2 hcx) (hnc c hc)⟩
    | some c =>
      rw [hn] at hx
      obtain ⟨i, hi, hci, -⟩ := hx
      have htop := newest?_isTop hn
      exact ⟨fun _ => ⟨c, htop.mem, covers_chunk.1 htop.covers⟩, fun _ => ⟨i, hi, hci⟩⟩
  newest i hi x h1 h2 := by
    have hx := h x
    cases hn : newest? chunks x with
    | none =>
      rw [hn] at hx
      exact absurd ⟨h1, h2⟩ (hx i hi)
    | some c =>
      rw [hn] at hx
      obtain ⟨j, hj, hcj, hje⟩ := hx
      obtain rfl : j = i := ho.covers_eq hj hi hcj ⟨h1, h2⟩
      have htop := newest?_isTop hn
      refine ⟨c, htop.mem, covers_chunk.1 htop.covers,
        fun c' hc' h3 h4 => htop.newest c' hc' (covers_chunk.2 ⟨h3, h4⟩), ?_⟩
      rw [hje]
      exact ⟨rfl, rfl, rfl, rfl⟩

/-- **`readResolvedChunks` over the whole file** shows the newest chunks, if overlapping chunks have
different time stamps. -/
theorem readResolvedChunks_newest (S : SortFunc Point) (chunks : List FileChunk)
    (hd : DistinctTs chunks) : ShowsNewest chunks (readResolvedChunks S chunks 0 maxInt64) := by
  refine .of_shows (readResolvedChunks_ordered S chunks 0 maxInt64) fun x => ?_
  have h := readResolvedChunks_shows S (a := 0) (b := maxInt64) hd x
  rwa [newest?_liveChunks_all] at h

/-- A file written over in the middle and past its end. -/
def overwritten : List FileChunk := [.data "1,01" 0 100 1, .data "1,02" 40 20 3, .data "1,03" 50 100 2]

theorem readResolvedChunks_newest_overwritten :
    DistinctTs overwritten ∧
      ShowsNewest overwritten (readResolvedChunks .insertion overwritten 0 maxInt64) :=
  have hd : DistinctTs overwritten := by decide
  ⟨hd, readResolvedChunks_newest .insertion overwritten hd⟩

end Filer
