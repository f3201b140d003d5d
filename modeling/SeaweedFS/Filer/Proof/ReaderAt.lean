import SeaweedFS.Filer.ReaderAt
import SeaweedFS.Filer.Proof.IntervalList

/-!
# What `doReadAt` fills into the buffer

For ordered views that end by the end of the file (`ViewsOk`) and fetches that return the stored bytes
(`Fetches`), `doReadAt` fills the buffer with what the views show (`byteAt`) up to the end of the file, in any
order of the tasks.
-/

namespace Filer

open Lib List Gap

variable {stored : String → Nat → UInt8} {views rest : IntervalList ChunkView}
  {offset len fileSize : Int}

variable {fetch : Fetch} {tasks : List ChunkReadTask} {x : Interval ChunkView} {f : Int → UInt8}
variable {r : ReadResult} {s : Scan}

/-- Fetches return the stored bytes. -/
def Fetches (stored : String → Nat → UInt8) (fetch : Fetch) : Prop :=
  ∀ view offset len,
    fetch view offset len = ((List.range len).map fun k => stored view.fileId (offset + k), none)

/-- Where the bytes a view shows at `x` are. -/
def ChunkView.place (v : ChunkView) (x : Int) : String × Int :=
  (v.fileId, x - v.viewOffset + v.offsetInChunk)

theorem stable_viewPlace : Stable ChunkView.place := by
  intro v a b x
  simp only [ChunkView.place, IntervalValue.setStartStop, ChunkView.setStartStop, Prod.mk.injEq,
    true_and]
  omega

/-- The stored byte at a place, zero in a hole. -/
def byteOf (stored : String → Nat → UInt8) : Option (String × Int) → UInt8
  | some (fileId, pos) => stored fileId pos.toNat
  | none => 0

/-- The byte that the views show at `x`. -/
def byteAt (stored : String → Nat → UInt8) (views : IntervalList ChunkView) (x : Int) : UInt8 :=
  byteOf stored ((lookAt ChunkView.place views x).map (·.2))

/-- Ordered views, each with the range of its node and within its chunk, that end by `fileSize`. -/
structure ViewsOk (views : IntervalList ChunkView) (fileSize : Int) : Prop where
  ordered : Ordered views
  exact : ∀ i ∈ views, i.value.viewOffset = i.startOffset ∧
    int64 i.value.viewSize = i.stopOffset - i.startOffset
  inChunk : ∀ i ∈ views, 0 ≤ i.value.offsetInChunk ∧
    i.value.offsetInChunk + (i.stopOffset - i.startOffset) ≤ maxInt64
  stop_le : ∀ i ∈ views, i.stopOffset ≤ fileSize

/-- How much of a gap is within the buffer. -/
def Gap.clipped (len : Int) (g : Gap) : Int := min (g.start + g.length) len - g.start

/-- What the loop over the views has noted agrees with `f`, the bytes to be read. -/
structure ScanInv (stored : String → Nat → UInt8) (f : Int → UInt8) (offset len fileSize : Int)
    (s : Scan) : Prop where
  sum : s.startOffset + s.remaining = offset + len
  le : offset ≤ s.startOffset
  bound : s.startOffset ≤ max offset fileSize
  tasks : ∀ t ∈ s.tasks, 0 ≤ t.bufferStart ∧ t.bufferStart ≤ t.bufferEnd ∧ t.bufferEnd ≤ len ∧
    ∀ k : Nat, t.bufferStart + k < t.bufferEnd →
      stored t.chunk.fileId (t.chunkOffset + k) = f (offset + t.bufferStart + k)
  gaps : ∀ g ∈ s.gaps, 0 ≤ g.start ∧ g.start ≤ len ∧ 0 < g.length ∧
    ∀ x, offset + g.start ≤ x → x < offset + g.start + g.length → f x = 0
  cover : ∀ x, offset ≤ x → x < s.startOffset →
    (∃ t ∈ s.tasks, offset + t.bufferStart ≤ x ∧ x < offset + t.bufferEnd) ∨
    ∃ g ∈ s.gaps, offset + g.start ≤ x ∧ x < offset + g.start + g.length
  count : (s.gaps.map (Gap.clipped len)).sum +
      (s.tasks.map fun t => t.bufferEnd - t.bufferStart).sum =
    min s.startOffset (offset + len) - offset

theorem ScanInv.init (f : Int → UInt8) (hlen : 0 ≤ len) :
    ScanInv stored f offset len fileSize ⟨[], [], offset, len⟩ where
  sum := rfl
  le := le_refl _
  bound := le_max_left _ _
  tasks := by simp
  gaps := by simp
  cover := fun x h1 h2 => by simp only at h2; omega
  count := by simp only [map_nil, sum_nil]; omega

theorem ScanInv.gapBefore
    (h : ScanInv stored f offset len fileSize s) (chunk : ChunkView) (hpos : 0 < s.remaining)
    (hle : chunk.viewOffset ≤ fileSize) (hz : ∀ x, s.startOffset ≤ x → x < chunk.viewOffset → f x = 0) :
    ScanInv stored f offset len fileSize (s.gapBefore offset chunk) ∧
      (s.gapBefore offset chunk).startOffset = max s.startOffset chunk.viewOffset := by
  unfold Scan.gapBefore
  have hsum := h.sum
  have hge := h.le
  split
  · dsimp only
    refine ⟨⟨?_, ?_, ?_, h.tasks, ?_, ?_, ?_⟩, by omega⟩
    · dsimp only; omega
    · dsimp only; omega
    · dsimp only; omega
    · refine forall_mem_append.2 ⟨h.gaps, forall_mem_singleton.2 ?_⟩
      refine ⟨by dsimp only; omega, by dsimp only; omega, by dsimp only; omega, ?_⟩
      intro x h1 h2
      dsimp only at h1 h2
      exact hz x (by omega) (by omega)
    · intro x h1 h2
      dsimp only at h2
      by_cases hx : x < s.startOffset
      · rcases h.cover x h1 hx with ht | ⟨g, hg, hgx⟩
        · exact .inl ht
        · exact .inr ⟨g, by simp [hg], hgx⟩
      · refine .inr ⟨_, mem_concat_self, ?_⟩
        dsimp only
        omega
    · have hc := h.count
      simp only [map_append, sum_append, map_cons, map_nil, sum_cons, sum_nil, clipped] at hc ⊢
      omega
  · exact ⟨h, by omega⟩

theorem uint64_add {n : Int} {k : Nat} (h0 : 0 ≤ n) (h : n ≤ maxInt64) :
    uint64 n + k = (n + k).toNat := by
  unfold uint64 maxInt64 at *
  omega

variable {y : Int}

theorem byteAt_cons_of_mem (h1 : x.startOffset ≤ y) (h2 : y < x.stopOffset) :
    byteAt stored (x :: rest) y =
      stored x.value.fileId (y - x.value.viewOffset + x.value.offsetInChunk).toNat := by
  rw [byteAt, lookAt_cons, showAt, if_pos ⟨h1, h2⟩]
  rfl

theorem byteAt_cons_of_not_mem (h : y < x.startOffset ∨ x.stopOffset ≤ y) :
    byteAt stored (x :: rest) y = byteAt stored rest y := by
  rw [byteAt, lookAt_cons, showAt, if_neg (by omega)]
  rfl

theorem byteAt_of_lt (h : ∀ i ∈ views, y < i.startOffset) : byteAt stored views y = 0 := by
  rw [byteAt, lookAt_eq_none _ fun i hi => .inl (h i hi)]
  rfl

theorem ScanInv.task (h : ScanInv stored f offset len fileSize s) (hv : ViewsOk (x :: rest) fileSize)
    (hpos : 0 < s.remaining) (hstart : x.startOffset ≤ s.startOffset)
    (hstop : s.startOffset < x.stopOffset)
    (hf : ∀ y, s.startOffset ≤ y → f y = byteAt stored (x :: rest) y) :
    ScanInv stored f offset len fileSize
      { s with
        tasks := s.tasks ++
          [{ chunk := x.value
             bufferStart := s.startOffset - offset
             bufferEnd := min x.stopOffset (s.startOffset + s.remaining) - s.startOffset +
               s.startOffset - offset
             chunkOffset := uint64 (s.startOffset - x.value.viewOffset + x.value.offsetInChunk) }]
        startOffset := min x.stopOffset (s.startOffset + s.remaining)
        remaining := s.remaining -
          (min x.stopOffset (s.startOffset + s.remaining) - s.startOffset) } := by
  have hsum := h.sum
  have hge := h.le
  have hle := hv.stop_le x (by simp)
  obtain ⟨hvo, -⟩ := hv.exact x (by simp)
  obtain ⟨hin, hmax⟩ := hv.inChunk x (by simp)
  refine ⟨?_, ?_, ?_, ?_, h.gaps, ?_, ?_⟩
  · dsimp only; omega
  · dsimp only; omega
  · dsimp only; omega
  · refine forall_mem_append.2 ⟨h.tasks, forall_mem_singleton.2 ?_⟩
    dsimp only
    refine ⟨by omega, by omega, by omega, fun k hk => ?_⟩
    rw [uint64_add (by omega) (by omega), hf _ (by omega), byteAt_cons_of_mem (by omega) (by omega)]
    congr 2
    omega
  · intro y h1 h2
    dsimp only at h2
    by_cases hy : y < s.startOffset
    · rcases h.cover y h1 hy with ⟨t, ht, hty⟩ | hg
      · exact .inl ⟨t, by simp [ht], hty⟩
      · exact .inr hg
    · refine .inl ⟨_, mem_concat_self, ?_⟩
      dsimp only
      omega
  · have hc := h.count
    simp only [map_append, sum_append, map_cons, map_nil, sum_cons,
      sum_nil] at hc ⊢
    omega

/-- **The loop over the views.** -/
theorem scanViews_inv (hv : ViewsOk rest fileSize) (h : ScanInv stored f offset len fileSize s)
    (hf : 0 < s.remaining → ∀ x, s.startOffset ≤ x → f x = byteAt stored rest x) :
    ScanInv stored f offset len fileSize (scanViews offset rest s) ∧
      (0 < (scanViews offset rest s).remaining →
        ∀ x, (scanViews offset rest s).startOffset ≤ x → f x = 0) := by
  induction rest generalizing s with
  | nil => exact ⟨h, hf⟩
  | cons x rest ih =>
    obtain ⟨hx, hrest, hafter⟩ := ordered_cons.1 hv.ordered
    simp only [lo_interval, hi_interval] at hx hafter
    have hv' : ViewsOk rest fileSize :=
      ⟨hrest, fun i hi => hv.exact i (by simp [hi]), fun i hi => hv.inChunk i (by simp [hi]),
        fun i hi => hv.stop_le i (by simp [hi])⟩
    obtain ⟨hvo, hsize⟩ := hv.exact x (by simp)
    have hle := hv.stop_le x (by simp)
    unfold scanViews
    dsimp only
    split
    · exact ⟨h, fun hr => by omega⟩
    · have hf := hf (by omega)
      have hgap : ∀ y, s.startOffset ≤ y → y < x.value.viewOffset → f y = 0 := by
        intro y h1 h2
        rw [hf y h1, byteAt_of_lt]
        refine forall_mem_cons.2 ⟨by omega, fun i hi => ?_⟩
        have := hafter i hi
        omega
      obtain ⟨hg, hgs⟩ := h.gapBefore x.value (by omega) (by omega) hgap
      have hfg : ∀ y, (s.gapBefore offset x.value).startOffset ≤ y →
          f y = byteAt stored (x :: rest) y := fun y hy => hf y (by omega)
      generalize s.gapBefore offset x.value = g at *
      split
      · exact ⟨hg, fun hr => by omega⟩
      · split
        · rename_i hskip
          refine ih hv' hg fun _ y hy => ?_
          rw [hfg y hy, byteAt_cons_of_not_mem]
          omega
        · rename_i hr hstop
          have h1 : max x.value.viewOffset g.startOffset = g.startOffset := by omega
          have h2 : x.value.viewOffset + int64 x.value.viewSize = x.stopOffset := by omega
          rw [h1, h2] at hstop ⊢
          refine ih hv' (hg.task hv (by omega) (by omega) (by omega) hfg) fun hr y hy => ?_
          dsimp only at hr hy
          rw [hfg y (by omega), byteAt_cons_of_not_mem (by omega)]

/-! ## Filling the buffer -/

/-- The write of a gap. -/
def Gap.write (len : Int) (g : Gap) : Nat × List UInt8 :=
  (g.start.toNat, List.replicate (g.clipped len).toNat 0)

theorem writes_append {α : Type} (p : List α) (ws vs : List (Nat × List α)) :
    writes (writes p ws) vs = writes p (ws ++ vs) := by
  simp [writes]

theorem zero_eq {p : List UInt8} {g : Gap} (hs : 0 ≤ g.start) (hl : 0 < g.length) :
    zero p g.start g.length =
      (writeAt p (g.write p.length).1 (g.write p.length).2, g.clipped p.length) := by
  have hmax : max g.start 0 = g.start := by omega
  rw [zero, if_neg (by omega)]
  simp only [hmax, write, clipped]

theorem zeroGaps_eq {gaps : List Gap} (h : ∀ g ∈ gaps, 0 ≤ g.start ∧ 0 < g.length) : zeroGaps gaps r =
      { r with
        buff := writes r.buff (gaps.map (Gap.write r.buff.length))
        n := r.n + (gaps.map (Gap.clipped r.buff.length)).sum } := by
  induction gaps generalizing r with
  | nil => simp [zeroGaps, writes]
  | cons g gaps ih =>
    obtain ⟨hs, hl⟩ := h g (by simp)
    rw [zeroGaps, zero_eq hs hl, ih fun g hg => h g (by simp [hg])]
    simp only [length_writeAt, map_cons, sum_cons]
    congr 1
    omega

/-- The write of a task. -/
def ChunkReadTask.write (stored : String → Nat → UInt8) (t : ChunkReadTask) : Nat × List UInt8 :=
  (t.bufferStart.toNat,
    (List.range (t.bufferEnd - t.bufferStart).toNat).map fun k =>
      stored t.chunk.fileId (t.chunkOffset + k))

theorem task_fetch (hfetch : Fetches stored fetch) (t : ChunkReadTask) :
    t.fetch fetch = ((t.write stored).2, none) := hfetch _ _ _

variable {t : ChunkReadTask}

theorem length_task_write (h : t.bufferStart ≤ t.bufferEnd) :
    ((t.write stored).2.length : Int) = t.bufferEnd - t.bufferStart := by
  simp only [ChunkReadTask.write, length_map, length_range]
  omega

theorem readTasks_eq (hfetch : Fetches stored fetch)
    (h : ∀ t ∈ tasks, t.bufferStart ≤ t.bufferEnd) (hr : r.err = none) : ∃ ts, readTasks fetch tasks r =
      { buff := writes r.buff (tasks.map (ChunkReadTask.write stored))
        n := r.n + (tasks.map fun t => t.bufferEnd - t.bufferStart).sum
        tsNs := ts
        err := none } := by
  induction tasks generalizing r with
  | nil =>
    obtain ⟨buff, n, tsNs, err⟩ := r
    exact ⟨tsNs, by simp_all [readTasks, writes]⟩
  | cons t tasks ih =>
    obtain ⟨ts, hts⟩ := ih (r := { r with
      buff := writeAt r.buff (t.write stored).1 (t.write stored).2
      n := r.n + (t.write stored).2.length
      tsNs := max r.tsNs t.chunk.modifiedTsNs }) (fun t ht => h t (by simp [ht])) hr
    refine ⟨ts, ?_⟩
    rw [readTasks, task_fetch hfetch]
    refine hts.trans ?_
    rw [length_task_write (h t (by simp))]
    simp only [map_cons, sum_cons]
    congr 1
    omega

theorem readTasksParallel_eq (hfetch : Fetches stored fetch) (sched : Schedule)
    (h : ∀ t ∈ tasks, t.bufferStart ≤ t.bufferEnd) (r : ReadResult) :
    ∃ ts, readTasksParallel sched fetch tasks r =
      { buff := writes r.buff ((sched.run tasks).map (ChunkReadTask.write stored))
        n := r.n + (tasks.map fun t => t.bufferEnd - t.bufferStart).sum
        tsNs := ts
        err := none } := by
  refine ⟨tasks.foldl (fun ts task => max ts task.chunk.modifiedTsNs) r.tsNs, ?_⟩
  have hn : ∀ (l : List ChunkReadTask) (n : Int), (∀ t ∈ l, t.bufferStart ≤ t.bufferEnd) →
      l.foldl (fun n task => n + ((task.fetch fetch).1.length : Int)) n =
        n + (l.map fun t => t.bufferEnd - t.bufferStart).sum := by
    intro l
    induction l with
    | nil => simp
    | cons t l ih =>
      intro n hl
      rw [foldl_cons, ih _ fun t ht => hl t (by simp [ht]), task_fetch hfetch,
        length_task_write (hl t (by simp)), map_cons, sum_cons]
      omega
  have herr : ((sched.run tasks).findSome? fun task => (task.fetch fetch).2) = none := by
    rw [findSome?_eq_none_iff]
    exact fun t _ => by rw [task_fetch hfetch]
  simp only [readTasksParallel, hn tasks r.n h, herr]
  congr 2
  refine map_congr_left fun t _ => ?_
  rw [task_fetch hfetch]
  rfl

theorem Gap.write_agrees (offset : Int) {g : Gap} {a : UInt8} {i : Nat} (hs : 0 ≤ g.start)
    (h : offset + g.start ≤ offset + i → offset + i < offset + g.start + g.length → a = 0) :
    Agrees (g.write len) i a := by
  intro h1 h2
  simp only [write, clipped, length_replicate] at h1 h2 ⊢
  rw [getElem?_replicate, if_pos (by omega), h (by omega) (by omega)]

theorem ChunkReadTask.write_agrees {a : UInt8} {i : Nat} (hs : 0 ≤ t.bufferStart)
    (h : ∀ k : Nat, t.bufferStart + k = i → i < t.bufferEnd →
      stored t.chunk.fileId (t.chunkOffset + k) = a) : Agrees (t.write stored) i a := by
  intro h1 h2
  simp only [ChunkReadTask.write, length_map, length_range] at h1 h2 ⊢
  rw [getElem?_map, getElem?_range (by omega), Option.map_some,
    h (i - t.bufferStart.toNat) (by omega) (by omega)]

/-- The gap at the end, up to the end of the file. -/
def Scan.tail (s : Scan) (offset fileSize : Int) : List Gap :=
  if s.remaining > 0 ∧ fileSize > s.startOffset then
    [⟨s.startOffset - offset, min s.remaining (fileSize - s.startOffset)⟩]
  else []

theorem zeroTail_eq (hs : offset ≤ s.startOffset) : s.zeroTail offset fileSize r = { r with
        buff := writes r.buff ((s.tail offset fileSize).map (Gap.write r.buff.length))
        n := r.n + ((s.tail offset fileSize).map (Gap.clipped r.buff.length)).sum } := by
  unfold Scan.zeroTail Scan.tail
  by_cases h : s.remaining > 0 ∧ fileSize > s.startOffset
  · have hz := zero_eq (p := r.buff) (g := ⟨s.startOffset - offset,
      min s.remaining (fileSize - s.startOffset)⟩) (by dsimp only; omega) (by dsimp only; omega)
    rw [if_pos h, if_pos (by omega), if_pos (by omega), hz]
    simp [writes]
  · split
    · rw [if_neg (by omega)]
      simp [writes]
    · simp [writes]

section

variable (hfetch : Fetches stored fetch)
include hfetch

theorem runTasks_eq (sched : Schedule) (h : ∀ t ∈ tasks, t.bufferStart ≤ t.bufferEnd) (inOrder : Prop)
    [Decidable inOrder] (hr : r.err = none) :
    ∃ (order : List ChunkReadTask) (ts : Int), order.Perm tasks ∧
      (if inOrder then readTasks fetch tasks r else readTasksParallel sched fetch tasks r) =
      { buff := writes r.buff (order.map (ChunkReadTask.write stored))
        n := r.n + (tasks.map fun t => t.bufferEnd - t.bufferStart).sum
        tsNs := ts
        err := none } := by
  split
  · obtain ⟨ts, hts⟩ := readTasks_eq hfetch h hr
    exact ⟨tasks, ts, .refl _, hts⟩
  · obtain ⟨ts, hts⟩ := readTasksParallel_eq hfetch sched h r
    exact ⟨sched.run tasks, ts, sched.perm _, hts⟩

/-- `doReadAt` makes the writes of the gaps, of the tasks in some order, and of the tail. -/
theorem doReadAt_eq (sched : Schedule) (c : ChunkReadAt) {p : List UInt8}
    (hs : scanViews offset c.chunkViews ⟨[], [], offset, p.length⟩ = s)
    (hinv : ScanInv stored f offset p.length fileSize s) :
    ∃ (order : List ChunkReadTask) (ts : Int), order.Perm s.tasks ∧ c.doReadAt sched fetch p offset =
      { buff := writes p (s.gaps.map (Gap.write p.length) ++
          (order.map (ChunkReadTask.write stored) ++
            (s.tail offset c.fileSize).map (Gap.write p.length)))
        n := (s.gaps.map (Gap.clipped p.length)).sum +
          (s.tasks.map fun t => t.bufferEnd - t.bufferStart).sum +
          ((s.tail offset c.fileSize).map (Gap.clipped p.length)).sum
        tsNs := ts
        err := if offset + p.length ≥ c.fileSize then some .eof else none } := by
  have hz := zeroGaps_eq (r := { buff := p }) fun g hg =>
    ⟨(hinv.gaps g hg).1, (hinv.gaps g hg).2.2.1⟩
  obtain ⟨order, ts, hperm, hrun⟩ := runTasks_eq hfetch sched (fun t ht => (hinv.tasks t ht).2.1)
    (s.tasks.length ≤ 1 ∨ c.readerPattern.isRandomMode = true)
    (r := zeroGaps s.gaps { buff := p }) (by rw [hz])
  refine ⟨order, ts, hperm, ?_⟩
  simp only [hz, zero_add] at hrun
  rw [ChunkReadAt.doReadAt]
  simp only [hs, hz, zero_add, hrun, zeroTail_eq hinv.le, length_writes, writes_append, append_assoc]
  split <;> rfl

/-- **`doReadAt`** fills the buffer up to the end of the file with what the views show. -/
theorem doReadAt_spec (sched : Schedule)
    (c : ChunkReadAt) (hv : ViewsOk c.chunkViews c.fileSize) (p : List UInt8) (offset : Int) :
    (c.doReadAt sched fetch p offset).buff.length = p.length ∧
    (c.doReadAt sched fetch p offset).n = max 0 (min (p.length : Int) (c.fileSize - offset)) ∧
    ((c.doReadAt sched fetch p offset).err =
      if offset + p.length ≥ c.fileSize then some .eof else none) ∧
    ∀ i : Nat, i < p.length → offset + i < c.fileSize → (c.doReadAt sched fetch p offset).buff[i]? =
        some (byteAt stored c.chunkViews (offset + i)) := by
  have hinit : ScanInv stored (byteAt stored c.chunkViews) offset p.length c.fileSize
      ⟨[], [], offset, p.length⟩ := .init _ (Int.natCast_nonneg p.length)
  obtain ⟨hinv, htail⟩ := scanViews_inv hv hinit (fun _ x _ => rfl)
  obtain ⟨order, ts, hperm, heq⟩ := doReadAt_eq hfetch sched c rfl hinv
  generalize scanViews offset c.chunkViews ⟨[], [], offset, p.length⟩ = s at *
  rw [heq]
  have hsum := hinv.sum
  have hle := hinv.le
  have hb := hinv.bound
  refine ⟨length_writes _ _, ?_, rfl, fun i hi hlt => ?_⟩
  · rw [hinv.count, Scan.tail]
    split
    · simp only [map_cons, map_nil, sum_cons, sum_nil, clipped]
      omega
    · simp only [map_nil, sum_nil]
      omega
  · refine getElem?_writes ?_ ?_ hi
    · intro w hw
      simp only [mem_append, mem_map] at hw
      rcases hw with ⟨g, hg, rfl⟩ | ⟨t, ht, rfl⟩ | ⟨g, hg, rfl⟩
      · obtain ⟨h1, -, -, h2⟩ := hinv.gaps g hg
        exact write_agrees offset h1 (h2 (offset + i))
      · obtain ⟨h1, -, -, h2⟩ := hinv.tasks t (hperm.mem_iff.1 ht)
        refine t.write_agrees h1 fun k hk hend => ?_
        rw [h2 k (by omega)]
        congr 1
        omega
      · rw [Scan.tail] at hg
        split at hg
        · rename_i hr
          rw [List.mem_singleton.1 hg]
          refine write_agrees offset (by dsimp only; omega) fun h1 _ => ?_
          exact htail hr.1 _ (by dsimp only at h1; omega)
        · cases hg
    · simp only [mem_append, mem_map]
      by_cases hx : offset + i < s.startOffset
      · rcases hinv.cover (offset + i) (by omega) hx with ⟨t, ht, h1, h2⟩ | ⟨g, hg, h1, h2⟩
        · refine ⟨_, .inr (.inl ⟨t, hperm.mem_iff.2 ht, rfl⟩), ?_⟩
          simp only [ChunkReadTask.write, length_map, length_range]
          omega
        · refine ⟨_, .inl ⟨g, hg, rfl⟩, ?_⟩
          simp only [Gap.write, Gap.clipped, length_replicate]
          omega
      · refine ⟨_, .inr (.inr ⟨⟨s.startOffset - offset,
          min s.remaining (c.fileSize - s.startOffset)⟩, ?_, rfl⟩), ?_⟩
        · rw [Scan.tail, if_pos (by omega)]
          exact List.mem_singleton.2 rfl
        · simp only [Gap.write, Gap.clipped, length_replicate]
          omega

end

end Filer
