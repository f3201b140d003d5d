import SeaweedFS.Filer.ReadResolved

/-!
# What a sweep shows

For points sorted by position the interval over `y` shows the chunk at the back of the queue after all points up to
`y` (`sweep_shows`). `SweepInv` says this for the positions the sweep has passed; `Sweep.step_cases` is all it needs
to know about a turn of the loop.
-/

namespace Filer

open Lib List Sweep

variable {pts : List Point}

/-- The interval `addToVisibles` appends. -/
def intervalOf (chunk : FileChunk) (start stop : Int) : Interval VisibleInterval where
  startOffset := start
  stopOffset := stop
  tsNs := chunk.modifiedTsNs
  value :=
    { start := start
      stop := stop
      fileId := chunk.getFileIdString
      modifiedTsNs := chunk.modifiedTsNs
      offsetInChunk := start - chunk.offset
      chunkSize := chunk.size
      cipherKey := chunk.cipherKey
      isGzipped := chunk.isCompressed }

theorem addToVisibles_eq (vis : IntervalList VisibleInterval) (prevX : Int) (pp p : Point) :
    addToVisibles vis prevX pp p =
      if prevX < p.x then vis ++ [intervalOf pp.chunk prevX p.x] else vis := rfl

/-! ## One turn of the loop -/

theorem getLast?_insertBeforeNewer (p : Point) (q : List Point) :
    (insertBeforeNewer p q).getLast? = q.getLast? := by
  induction q with
  | nil => rfl
  | cons e q ih =>
    unfold insertBeforeNewer
    split
    · rw [getLast?_cons_cons]
    · cases q with
      | nil => rfl
      | cons e' q =>
        have hne : insertBeforeNewer p (e' :: q) ≠ [] := by
          unfold insertBeforeNewer; split <;> simp
        obtain ⟨a, l, hal⟩ := exists_cons_of_ne_nil hne
        rw [hal, getLast?_cons_cons, getLast?_cons_cons, ← hal, ih]

theorem head?_removeFromBack {t : Int} {l : List Point} (h : (removeFromBack t l).1 = false) :
    (removeFromBack t l).2.head? = l.head? := by
  cases l with
  | nil => simp [removeFromBack] at h
  | cons e l =>
    unfold removeFromBack at h ⊢
    split at h
    · simp at h
    · rename_i hne
      simp [hne]

/-- **A turn of the loop.** What the back of the queue shows is emitted up to the point, or the queue is empty, or
its back stays. -/
theorem Sweep.step_cases (s : Sweep) (p : Point) :
    (∃ pp, s.queue.getLast? = some pp ∧ (s.step p).prevX = p.x ∧
      (s.step p).visibles = addToVisibles s.visibles s.prevX pp p) ∨
    (s.queue = [] ∧ (s.step p).visibles = s.visibles ∧
      ((s.step p).queue = [] ∨ (s.step p).prevX = p.x)) ∨
    (s.queue ≠ [] ∧ (s.step p).visibles = s.visibles ∧ (s.step p).prevX = s.prevX ∧
      (s.step p).queue.getLast? = s.queue.getLast?) := by
  unfold step
  cases hl : s.queue.getLast? with
  | none =>
    have hq : s.queue = [] := List.getLast?_eq_none_iff.1 hl
    refine .inr (.inl ⟨hq, ?_⟩)
    split
    · simp [start, hl]
    · simp [stop, hq, removeFromBack]
  | some pp =>
    have hq : s.queue ≠ [] := by
      intro h; rw [h] at hl; cases hl
    split
    · by_cases hts : pp.ts < p.ts
      · by_cases hx : p.x = s.prevX
        · simp [start, hl, hts, hx, addToVisibles_eq]
        · simp [start, hl, hts, hx]
      · refine .inr (.inr ⟨hq, ?_⟩)
        simp [start, hl, hts, getLast?_insertBeforeNewer]
    · cases hr : (removeFromBack p.ts s.queue.reverse).1 with
      | true =>
        simp [stop, hl, hr]
      | false =>
        refine .inr (.inr ⟨hq, ?_⟩)
        have := head?_removeFromBack hr
        simp [stop, hl, hr, this]

theorem sweep_append (pts : List Point) (p : Point) : sweep (pts ++ [p]) = (sweep pts).step p := by
  simp [sweep]

/-! ## The invariant -/

/-- The queue after all points of `pts` up to `y`. -/
def queueAt (pts : List Point) (y : Int) : List Point :=
  (sweep (pts.filter fun p => p.x ≤ y)).queue

/-- `vis` shows chunk `c` at `y`, or nothing. -/
def Shows (vis : IntervalList VisibleInterval) (y : Int) : Option FileChunk → Prop
  | some c => ∃ i ∈ vis, Covers i y ∧ i = intervalOf c i.startOffset i.stopOffset
  | none => ∀ i ∈ vis, ¬ Covers i y

/-- The sweep `s` over `done` is right before `lim`: what is shown there is emitted, except from `prevX` on while
the queue is not empty. -/
structure SweepInv (done : List Point) (s : Sweep) (lim : Int) : Prop where
  ordered : Ordered s.visibles
  stop_le : ∀ i ∈ s.visibles, i.stopOffset ≤ lim
  prevX_le : s.queue ≠ [] → s.prevX ≤ lim ∧ ∀ i ∈ s.visibles, i.stopOffset ≤ s.prevX
  pending : s.queue ≠ [] → ∀ y < lim, s.prevX ≤ y →
    (queueAt done y).getLast? = s.queue.getLast?
  emitted : ∀ y < lim, (s.queue ≠ [] → y < s.prevX) →
    Shows s.visibles y ((queueAt done y).getLast?.map (·.chunk))

theorem SweepInv.nil (lim : Int) : SweepInv [] (sweep []) lim where
  ordered := .nil
  stop_le := by simp [sweep, init]
  prevX_le h := absurd rfl h
  pending h := absurd rfl h
  emitted := by simp [queueAt, sweep, init, Shows]

theorem queueAt_of_le {y : Int} (h : ∀ p ∈ pts, p.x ≤ y) : queueAt pts y = (sweep pts).queue := by
  rw [queueAt, List.filter_eq_self.2 (by simpa using h)]

theorem queueAt_append_of_lt {p : Point} {y : Int} (h : y < p.x) :
    queueAt (pts ++ [p]) y = queueAt pts y := by
  simp [queueAt, h]

variable {done : List Point}

theorem SweepInv.mono {lim lim' : Int} (h : SweepInv done (sweep done) lim)
    (hd : ∀ p ∈ done, p.x ≤ lim) (hl : lim ≤ lim') : SweepInv done (sweep done) lim' where
  ordered := h.ordered
  stop_le i hi := le_trans (h.stop_le i hi) hl
  prevX_le hq := ⟨le_trans (h.prevX_le hq).1 hl, (h.prevX_le hq).2⟩
  pending hq y hy hp := by
    by_cases hyl : y < lim
    · exact h.pending hq y hyl hp
    · rw [queueAt_of_le fun p hpd => le_trans (hd p hpd) (not_lt.1 hyl)]
  emitted y hy hp := by
    by_cases hyl : y < lim
    · exact h.emitted y hyl hp
    · have hq : (sweep done).queue = [] := by
        by_contra hq
        have := hp hq
        have := (h.prevX_le hq).1
        omega
      rw [queueAt_of_le fun p hpd => le_trans (hd p hpd) (not_lt.1 hyl), hq]
      intro i hi hc
      have := h.stop_le i hi
      have := hc.2
      simp only [hi_interval] at this
      omega

theorem SweepInv.emit {s : Sweep} {p pp : Point} (h : SweepInv done s p.x)
    (hl : s.queue.getLast? = some pp) : Ordered (addToVisibles s.visibles s.prevX pp p) ∧
      (∀ i ∈ addToVisibles s.visibles s.prevX pp p, i.stopOffset ≤ p.x) ∧
      ∀ y < p.x, Shows (addToVisibles s.visibles s.prevX pp p) y
        ((queueAt done y).getLast?.map (·.chunk)) := by
  have hq : s.queue ≠ [] := by
    intro hq; rw [hq] at hl; cases hl
  obtain ⟨hple, hstop⟩ := h.prevX_le hq
  rw [addToVisibles_eq]
  by_cases hlt : s.prevX < p.x
  · simp only [hlt]
    refine ⟨h.ordered.append (.cons hlt .nil (by simp)) ?_, ?_, fun y hy => ?_⟩
    · exact fun a ha => forall_mem_singleton.2 (hstop a ha)
    · exact forall_mem_append.2 ⟨h.stop_le, forall_mem_singleton.2 (le_refl _)⟩
    · by_cases hyp : s.prevX ≤ y
      · rw [h.pending hq y hy hyp, hl]
        exact ⟨_, mem_concat_self, ⟨hyp, hy⟩, rfl⟩
      · -- before `prevX` nothing changes: the new interval begins there
        have he := h.emitted y hy fun _ => not_le.1 hyp
        cases hc : (queueAt done y).getLast?.map (·.chunk) with
        | some c =>
          rw [hc] at he
          obtain ⟨i, hi, hci⟩ := he
          exact ⟨i, mem_append_left _ hi, hci⟩
        | none =>
          rw [hc] at he
          exact forall_mem_append.2 ⟨he, forall_mem_singleton.2 fun hci => hyp hci.1⟩
  · simp only [hlt]
    refine ⟨h.ordered, h.stop_le, fun y hy => h.emitted y hy fun _ => ?_⟩
    omega

/-- **Step.** A turn of the loop at the limit keeps the invariant. -/
theorem SweepInv.step {p : Point} (h : SweepInv done (sweep done) p.x) :
    SweepInv (done ++ [p]) (sweep (done ++ [p])) p.x := by
  have hqa : ∀ y < p.x, queueAt (done ++ [p]) y = queueAt done y :=
    fun y hy => queueAt_append_of_lt hy
  rw [sweep_append]
  rcases (sweep done).step_cases p with ⟨pp, hl, hx, hv⟩ | ⟨hq, hv, hx⟩ | ⟨hq, hv, hx, hl⟩
  · obtain ⟨ho, hs, hsh⟩ := h.emit hl
    exact
      { ordered := hv ▸ ho
        stop_le := hv ▸ hs
        prevX_le := fun _ => ⟨le_of_eq hx, by rw [hv, hx]; exact hs⟩
        pending := fun _ y hy hp => by omega
        emitted := fun y hy _ => by rw [hv, hqa y hy]; exact hsh y hy }
  · have hem : ∀ y < p.x, Shows (sweep done).visibles y ((queueAt done y).getLast?.map (·.chunk)) :=
      fun y hy => h.emitted y hy fun hne => absurd hq hne
    refine
      { ordered := hv ▸ h.ordered
        stop_le := hv ▸ h.stop_le
        prevX_le := fun hne => ?_
        pending := fun hne y hy hp => ?_
        emitted := fun y hy _ => by rw [hv, hqa y hy]; exact hem y hy }
    · have hx := hx.resolve_left hne
      exact ⟨le_of_eq hx, by rw [hv, hx]; exact h.stop_le⟩
    · rw [hx.resolve_left hne] at hp
      omega
  · refine
      { ordered := hv ▸ h.ordered
        stop_le := hv ▸ h.stop_le
        prevX_le := fun _ => ?_
        pending := fun _ y hy hp => ?_
        emitted := fun y hy hp => ?_ }
    · rw [hv, hx]
      exact h.prevX_le hq
    · rw [hqa y hy, hl]
      exact h.pending hq y hy (hx ▸ hp)
    · rw [hv, hqa y hy]
      refine h.emitted y hy fun _ => hx ▸ hp fun hne => hq ?_
      rw [hne] at hl
      exact List.getLast?_eq_none_iff.1 hl.symm

/-- **Run.** The invariant holds after any points sorted by position. -/
theorem SweepInv.run (hs : pts.Pairwise fun a b => a.x ≤ b.x) {lim : Int}
    (hl : ∀ p ∈ pts, p.x ≤ lim) : SweepInv pts (sweep pts) lim := by
  induction pts using List.reverseRecOn generalizing lim with
  | nil => exact .nil lim
  | append_singleton done p ih =>
    obtain ⟨hd, -, hdp⟩ := List.pairwise_append.1 hs
    have hx : ∀ d ∈ done, d.x ≤ p.x := fun d hd => hdp d hd p (by simp)
    exact (ih hd hx).step.mono (forall_mem_append.2 ⟨hx, forall_mem_singleton.2 (le_refl _)⟩) (hl p (by simp))

theorem exists_lim (pts : List Point) (y : Int) : ∃ lim, y < lim ∧ ∀ p ∈ pts, p.x ≤ lim := by
  induction pts with
  | nil => exact ⟨y + 1, by omega, by simp⟩
  | cons p pts ih =>
    obtain ⟨lim, h1, h2⟩ := ih
    refine ⟨max lim p.x, by omega, forall_mem_cons.2 ⟨by omega, fun d hd => ?_⟩⟩
    have := h2 d hd
    omega

/-- **What the sweep shows** when it ends with an empty queue. -/
theorem sweep_shows (hs : pts.Pairwise fun a b => a.x ≤ b.x) (hq : (sweep pts).queue = []) :
    Ordered (sweep pts).visibles ∧
      ∀ y, Shows (sweep pts).visibles y ((queueAt pts y).getLast?.map (·.chunk)) := by
  refine ⟨?_, fun y => ?_⟩
  · obtain ⟨lim, -, hl⟩ := exists_lim pts 0
    exact (SweepInv.run hs hl).ordered
  · obtain ⟨lim, hy, hl⟩ := exists_lim pts y
    exact (SweepInv.run hs hl).emitted y hy fun hne => absurd hq hne

end Filer
