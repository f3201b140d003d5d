import SeaweedFS.Filer.Proof.Sweep

/-!
# Sorted points and the queue's counts

`SortedPoints live pts`: `pts` are the start and stop points of the non-empty chunks `live` in the order of
`pointCmp`. The queue never holds more points of a stamp than there are chunks of it to end, and is empty at the end
(`SortedPoints.queue_nil`).
-/

namespace Filer

open Lib List Sweep

variable {q : List Point} {p : Point}

/-! ## The order of the points -/

/-- `a` does not come after `b`. -/
def PointLe (a b : Point) : Prop :=
  a.x < b.x ∨ a.x = b.x ∧ (a.ts < b.ts ∨ a.ts = b.ts ∧ (a.isStart = true → b.isStart = true))

/-- The position and the stamp of `p` are non-negative `int64`. -/
def Point.InRange (p : Point) : Prop :=
  (0 ≤ p.x ∧ p.x ≤ maxInt64) ∧ 0 ≤ p.ts ∧ p.ts ≤ maxInt64

theorem startPoint_inRange (c : FileChunk) : (startPoint c).InRange :=
  ⟨⟨c.offset_nonneg, le_trans c.offset_le_stop c.stop_le_maxInt64⟩, c.ts_nonneg, c.ts_le⟩

theorem stopPoint_inRange (c : FileChunk) : (stopPoint c).InRange :=
  ⟨⟨le_trans c.offset_nonneg c.offset_le_stop, c.stop_le_maxInt64⟩, c.ts_nonneg, c.ts_le⟩

theorem not_pointCmp_neg {a b : Point} (ha : a.InRange) (hb : b.InRange) :
    ¬ pointCmp b a < 0 ↔ PointLe a b := by
  obtain ⟨⟨h1, h2⟩, h3, h4⟩ := ha
  obtain ⟨⟨h5, h6⟩, h7, h8⟩ := hb
  have hm : maxInt64 = 2 ^ 63 - 1 := rfl
  have hx : int64 (b.x - a.x) = b.x - a.x := int64_of_range (by omega) (by omega)
  have ht : int64 (b.ts - a.ts) = b.ts - a.ts := int64_of_range (by omega) (by omega)
  unfold pointCmp PointLe
  cases a.isStart <;> cases b.isStart <;> simp only [Bool.false_eq_true, if_true, if_false,
    false_implies, true_implies, and_true, and_false, or_false] <;>
    split <;> omega

theorem strictWeak_pointCmp {l : List Point} (h : ∀ p ∈ l, p.InRange) : StrictWeak pointCmp l where
  asymm a ha b hb hab hba := by
    have h1 := mt (not_pointCmp_neg (h b hb) (h a ha)).2 (not_not.2 hab)
    have h2 := mt (not_pointCmp_neg (h a ha) (h b hb)).2 (not_not.2 hba)
    unfold PointLe at h1 h2
    cases hs : a.isStart <;> cases hs' : b.isStart <;> simp [hs'] at h1 h2 <;> omega
  trans a ha b hb c hc hba hcb := by
    rw [not_pointCmp_neg (h a ha) (h b hb)] at hba
    rw [not_pointCmp_neg (h b hb) (h c hc)] at hcb
    rw [not_pointCmp_neg (h a ha) (h c hc)]
    unfold PointLe at *
    cases hs : a.isStart <;> cases hs' : b.isStart <;> cases hs'' : c.isStart <;>
      simp [hs, hs', hs''] at hba hcb ⊢ <;> omega

/-! ## The points of a list of chunks -/

/-- `pts` are the points of the non-empty chunks `live`, in order. -/
structure SortedPoints (live : List FileChunk) (pts : List Point) : Prop where
  pos : ∀ c ∈ live, c.offset < c.stop
  perm : pts.Perm (live.flatMap fun c => [startPoint c, stopPoint c])
  sorted : pts.Pairwise PointLe

/-- The chunks with a byte in `[startOffset, stopOffset)`. -/
def liveChunks (chunks : List FileChunk) (startOffset stopOffset : Int) : List FileChunk :=
  chunks.filter fun c => max c.offset startOffset < min c.stop stopOffset

theorem pointsOf_eq (chunks : List FileChunk) (a b : Int) : pointsOf chunks a b =
      (liveChunks chunks a b).flatMap fun c => [startPoint c, stopPoint c] := by
  induction chunks with
  | nil => rfl
  | cons c chunks ih =>
    rw [pointsOf, flatMap_cons, ← pointsOf, ih]
    by_cases h : max c.offset a < min c.stop b
    · have hl : liveChunks (c :: chunks) a b = c :: liveChunks chunks a b :=
        filter_cons_of_pos (by simpa using h)
      rw [if_neg (by omega), hl, flatMap_cons]
    · have hl : liveChunks (c :: chunks) a b = liveChunks chunks a b :=
        filter_cons_of_neg (by simpa using h)
      rw [if_pos (by omega), hl, nil_append]

theorem mem_points {live : List FileChunk} : p ∈ (live.flatMap fun c => [startPoint c, stopPoint c]) ↔
      ∃ c ∈ live, p = startPoint c ∨ p = stopPoint c := by
  simp [mem_flatMap]

/-- What `slices.SortFunc` leaves. -/
theorem sortedPoints (S : SortFunc Point) (chunks : List FileChunk) (a b : Int) :
    SortedPoints (liveChunks chunks a b) (S.sort pointCmp (pointsOf chunks a b)) := by
  have hr : ∀ p ∈ pointsOf chunks a b, p.InRange := by
    intro p hp
    rw [pointsOf_eq, mem_points] at hp
    obtain ⟨c, -, rfl | rfl⟩ := hp
    · exact startPoint_inRange c
    · exact stopPoint_inRange c
  have hp := S.perm pointCmp (pointsOf chunks a b)
  refine ⟨fun c hc => ?_, pointsOf_eq chunks a b ▸ hp, ?_⟩
  · have := (List.mem_filter.1 hc).2
    simp only [decide_eq_true_eq] at this
    omega
  · refine List.Pairwise.imp_of_mem (fun {p q} hpm hqm hpq => ?_)
      (S.sorted pointCmp _ (strictWeak_pointCmp hr))
    exact (not_pointCmp_neg (hr p (hp.mem_iff.1 hpm)) (hr q (hp.mem_iff.1 hqm))).1 hpq

/-! ## Counting starts and stops -/

/-- The number of start points with stamp `t`. -/
def starts (t : Int) (l : List Point) : Nat := l.countP fun p => p.isStart ∧ p.ts = t

/-- The number of stop points with stamp `t`. -/
def stops (t : Int) (l : List Point) : Nat := l.countP fun p => p.isStart = false ∧ p.ts = t

/-- The number of points with stamp `t`. -/
def stamped (t : Int) (l : List Point) : Nat := l.countP fun p => p.ts = t

theorem countP_points (P : Point → Bool) (live : List FileChunk) :
    (live.flatMap fun c => [startPoint c, stopPoint c]).countP P =
      live.countP (fun c => P (startPoint c)) + live.countP (fun c => P (stopPoint c)) := by
  induction live with
  | nil => rfl
  | cons c live ih =>
    rw [flatMap_cons, countP_append, ih]
    simp only [countP_cons, countP_nil]
    omega

theorem stamped_insertBeforeNewer_le (t : Int) (p : Point) (q : List Point) :
    stamped t (insertBeforeNewer p q) ≤ stamped t q + if p.ts = t then 1 else 0 := by
  induction q with
  | nil => simp [insertBeforeNewer]
  | cons e q ih =>
    unfold insertBeforeNewer
    split
    · simp only [stamped, countP_cons, decide_eq_true_eq]
      omega
    · simp only [stamped, countP_cons] at ih ⊢
      omega

theorem stamped_removeFromBack (t u : Int) (l : List Point) :
    stamped u (removeFromBack t l).2 = stamped u l - if u = t then 1 else 0 := by
  induction l with
  | nil => simp [removeFromBack, stamped]
  | cons e l ih =>
    unfold removeFromBack
    split
    · rename_i he
      by_cases hu : u = t
      · simp [stamped, he, hu]
      · simp [stamped, he, hu, Ne.symm hu]
    · rename_i he
      simp only [stamped, countP_cons, decide_eq_true_eq] at ih ⊢
      by_cases hu : u = t
      · subst hu
        simp only [he, if_false] at ih ⊢
        omega
      · simp only [hu, if_false] at ih ⊢
        omega

theorem stamped_reverse (t : Int) (l : List Point) : stamped t l.reverse = stamped t l :=
  countP_reverse

theorem Sweep.step_queue (s : Sweep) (p : Point) : (s.step p).queue = if p.isStart then
        match s.queue.getLast? with
        | none => s.queue ++ [p]
        | some pp => if pp.ts < p.ts then s.queue ++ [p] else insertBeforeNewer p s.queue
      else (removeFromBack p.ts s.queue.reverse).2.reverse := by
  unfold step
  split
  · unfold start
    cases s.queue.getLast? with
    | none => rfl
    | some pp => dsimp only; split <;> split <;> rfl
  · unfold stop
    cases s.queue.getLast? with
    | none => rfl
    | some pp => dsimp only; split <;> rfl

/-! ## The order of the queue -/

theorem insertBeforeNewer_perm (h : ∃ e ∈ q, p.ts < e.ts) : (insertBeforeNewer p q).Perm (p :: q) := by
  induction q with
  | nil => simp at h
  | cons e q ih =>
    unfold insertBeforeNewer
    split
    · exact .refl _
    · rename_i he
      have h' : ∃ e ∈ q, p.ts < e.ts := by
        obtain ⟨f, hf, hlt⟩ := h
        rcases List.mem_cons.1 hf with rfl | hf
        · exact absurd hlt he
        · exact ⟨f, hf, hlt⟩
      exact ((ih h').cons e).trans (.swap p e q)

theorem mem_of_mem_insertBeforeNewer {e : Point} (h : e ∈ insertBeforeNewer p q) : e = p ∨ e ∈ q := by
  induction q with
  | nil => cases h
  | cons f q ih =>
    unfold insertBeforeNewer at h
    split at h
    · exact List.mem_cons.1 h
    · rcases List.mem_cons.1 h with rfl | h
      · simp
      · rcases ih h with rfl | h
        · simp
        · simp [h]

theorem insertBeforeNewer_sorted (hs : q.Pairwise fun a b => a.ts ≤ b.ts) :
    (insertBeforeNewer p q).Pairwise fun a b => a.ts ≤ b.ts := by
  induction q with
  | nil => exact .nil
  | cons e q ih =>
    obtain ⟨heq, hq⟩ := List.pairwise_cons.1 hs
    unfold insertBeforeNewer
    split
    · rename_i hgt
      exact List.pairwise_cons.2 ⟨forall_mem_cons.2
        ⟨le_of_lt hgt, fun f hf => le_trans (le_of_lt hgt) (heq f hf)⟩, hs⟩
    · rename_i hle
      refine List.pairwise_cons.2 ⟨fun f hf => ?_, ih hq⟩
      rcases mem_of_mem_insertBeforeNewer hf with rfl | hf
      · exact not_lt.1 hle
      · exact heq f hf

theorem removeFromBack_sublist (t : Int) (l : List Point) : List.Sublist (removeFromBack t l).2 l := by
  induction l with
  | nil => exact .slnil
  | cons e l ih =>
    unfold removeFromBack
    split
    · exact sublist_cons_self e l
    · exact ih.cons_cons e

theorem getLast?_max {pp : Point} (hs : q.Pairwise fun a b => a.ts ≤ b.ts)
    (hl : q.getLast? = some pp) : pp ∈ q ∧ ∀ e ∈ q, e.ts ≤ pp.ts := by
  obtain ⟨q', rfl⟩ := List.getLast?_eq_some_iff.1 hl
  refine ⟨by simp, forall_mem_append.2 ⟨fun e he => ?_, by simp⟩⟩
  exact (List.pairwise_append.1 hs).2.2 e he pp (by simp)

theorem queue_sorted (done : List Point) : (sweep done).queue.Pairwise fun a b => a.ts ≤ b.ts := by
  induction done using List.reverseRecOn with
  | nil => exact .nil
  | append_singleton done p ih =>
    rw [sweep_append, step_queue]
    split
    · cases hl : (sweep done).queue.getLast? with
      | none => simp [List.getLast?_eq_none_iff.1 hl]
      | some pp =>
        dsimp only
        split
        · rename_i hlt
          exact List.pairwise_append.2 ⟨ih, by simp, fun a ha => forall_mem_singleton.2
            (le_trans ((getLast?_max ih hl).2 a ha) (le_of_lt hlt))⟩
        · exact insertBeforeNewer_sorted ih
    · have := (removeFromBack_sublist p.ts (sweep done).queue.reverse).reverse
      rw [reverse_reverse] at this
      exact ih.sublist this

/-! ## The queue's counts -/

theorem stamped_step_start {s : Sweep} (hp : p.isStart = true) (t : Int) :
    stamped t (s.step p).queue ≤ stamped t s.queue + if p.ts = t then 1 else 0 := by
  rw [step_queue, if_pos hp]
  have happ : stamped t (s.queue ++ [p]) = stamped t s.queue + if p.ts = t then 1 else 0 := by
    simp [stamped]
  split
  · exact le_of_eq happ
  · split
    · exact le_of_eq happ
    · exact stamped_insertBeforeNewer_le t p s.queue

theorem stamped_step_stop {s : Sweep} (hp : p.isStart = false) (t : Int) :
    stamped t (s.step p).queue = stamped t s.queue - if t = p.ts then 1 else 0 := by
  rw [step_queue, if_neg (by simp [hp]), stamped_reverse, stamped_removeFromBack, stamped_reverse]

namespace SortedPoints

variable {live : List FileChunk} {pts done rest : List Point}

section

variable (h : SortedPoints live pts)
include h

theorem sorted_x : pts.Pairwise fun a b => a.x ≤ b.x :=
  h.sorted.imp fun hab => by unfold PointLe at hab; omega

theorem countP (P : Point → Bool) : pts.countP P =
      live.countP (fun c => P (startPoint c)) + live.countP (fun c => P (stopPoint c)) := by
  rw [h.perm.countP_eq, countP_points]

/-- Counting in a prefix is counting chunks, by a predicate that tells the prefix from the rest. -/
theorem countP_prefix (he : pts = done ++ rest) {P Q : Point → Bool}
    (hd : ∀ q ∈ done, P q = true ↔ Q q = true) (hr : ∀ q ∈ rest, ¬ Q q = true) : done.countP P =
      live.countP (fun c => Q (startPoint c)) + live.countP (fun c => Q (stopPoint c)) := by
  rw [← h.countP, he, countP_append, List.countP_eq_zero.2 hr, Nat.add_zero]
  exact countP_congr hd

/-- Where the points `C` of a stamp are those of the prefix, it has the starts and the stops of the chunks in `C`. -/
theorem starts_stops_eq (he : pts = done ++ rest) {t : Int} (C : Point → Prop) [DecidablePred C]
    (hd : ∀ q ∈ done, q.ts = t → C q) (hr : ∀ q ∈ rest, ¬ C q) :
    starts t done = live.countP (fun c => c.modifiedTsNs = t ∧ C (startPoint c)) ∧
      stops t done = live.countP fun c => c.modifiedTsNs = t ∧ C (stopPoint c) := by
  have hcount (b : Bool) := h.countP_prefix he (P := fun p => p.isStart = b ∧ p.ts = t)
    (Q := fun p => (p.isStart = b ∧ p.ts = t) ∧ C p)
    (fun q hq => by
      simp only [decide_eq_true_eq]
      exact ⟨fun hp => ⟨hp, hd q hq hp.2⟩, And.left⟩)
    (fun q hq => by
      simp only [decide_eq_true_eq, not_and]
      exact fun _ => hr q hq)
  constructor
  · simpa [starts] using hcount true
  · simpa [stops] using hcount false

theorem stops_le_starts (he : pts = done ++ rest) (t : Int) : stops t done ≤ starts t done := by
  rcases eq_nil_or_concat done with rfl | ⟨d, last, rfl⟩
  · simp [stops]
  · have hsx := h.sorted_x
    rw [he, pairwise_append, concat_eq_append, pairwise_append] at hsx
    obtain ⟨⟨-, -, hdl⟩, -, hr⟩ := hsx
    have hle : ∀ p ∈ d ++ [last], p.x ≤ last.x :=
      forall_mem_append.2 ⟨fun p hp => hdl p hp last (by simp), by simp⟩
    calc stops t (d.concat last)
        = (d ++ [last]).countP fun p => (p.isStart = false ∧ p.ts = t) ∧ p.x ≤ last.x := by
          rw [concat_eq_append, stops]
          exact countP_congr fun p hp => by simp [hle p hp]
      _ ≤ pts.countP fun p => (p.isStart = false ∧ p.ts = t) ∧ p.x ≤ last.x := by
          rw [he, concat_eq_append]
          exact (sublist_append_left _ rest).countP_le
      _ = live.countP fun c => c.modifiedTsNs = t ∧ c.stop ≤ last.x := by
          rw [h.countP]
          simp [stopPoint]
      _ ≤ live.countP fun c => c.modifiedTsNs = t ∧ c.offset < last.x := by
          refine countP_mono_left fun c hc hcs => ?_
          have := h.pos c hc
          simp only [decide_eq_true_eq] at hcs ⊢
          omega
      _ = pts.countP fun p => (p.isStart ∧ p.ts = t) ∧ p.x < last.x := by
          rw [h.countP]
          simp [stopPoint]
      _ = (d ++ [last]).countP fun p => (p.isStart ∧ p.ts = t) ∧ p.x < last.x := by
          rw [he, concat_eq_append, countP_append, Nat.add_eq_left, countP_eq_zero]
          intro p hp
          have := hr last (by simp) p hp
          simp only [decide_eq_true_eq]
          omega
      _ ≤ starts t (d.concat last) := by
          rw [concat_eq_append, starts]
          exact countP_mono_left fun p _ hp => by
            simp only [decide_eq_true_eq] at hp ⊢
            exact hp.1

/-- The queue holds no more points of a stamp than chunks of it have begun and not ended. -/
theorem stamped_add_stops_le (he : pts = done ++ rest) (t : Int) :
    stamped t (sweep done).queue + stops t done ≤ starts t done := by
  induction done using List.reverseRecOn generalizing rest t with
  | nil => simp [sweep, init, stamped, stops]
  | append_singleton done p ih =>
    have ih := @ih (p :: rest) (by simpa using he) t
    have hle := h.stops_le_starts he t
    rw [sweep_append]
    simp only [starts, stops, countP_append, countP_cons, countP_nil, decide_eq_true_eq] at ih hle ⊢
    cases hp : p.isStart with
    | true =>
      have := stamped_step_start (s := sweep done) hp t
      simp only [true_and, Bool.true_eq_false, false_and, if_false] at hle ⊢
      omega
    | false =>
      have := stamped_step_stop (s := sweep done) hp t
      simp only [hp, true_and] at hle ⊢
      by_cases ht : p.ts = t
      · simp only [ht] at this hle ⊢
        omega
      · simp only [ht, if_false] at this hle ⊢
        omega

/-- **The sweep ends with an empty queue.** -/
theorem queue_nil : (sweep pts).queue = [] := by
  by_contra hq
  obtain ⟨e, q, hq⟩ := exists_cons_of_ne_nil hq
  have hle := h.stamped_add_stops_le (append_nil pts).symm e.ts
  have heq : stops e.ts pts = starts e.ts pts := by
    rw [stops, starts, h.countP, h.countP]
    simp [stopPoint]
  rw [heq, hq, stamped, countP_cons] at hle
  simp at hle

theorem split_at (y : Int) :
    pts = pts.filter (fun p => p.x ≤ y) ++ pts.filter (fun p => ¬ p.x ≤ y) := by
  have hs := h.sorted_x
  clear h
  induction pts with
  | nil => rfl
  | cons p pts ih =>
    obtain ⟨hp, hs⟩ := List.pairwise_cons.1 hs
    by_cases hy : p.x ≤ y
    · rw [filter_cons_of_pos (by simpa using hy), filter_cons_of_neg (by simpa using hy),
        cons_append, ← ih hs]
    · have hnil : pts.filter (fun p => decide (p.x ≤ y)) = [] := by
        rw [filter_eq_nil_iff]
        intro q hq
        have := hp q hq
        simp only [decide_eq_true_eq]
        omega
      rw [filter_cons_of_neg (by simpa using hy), filter_cons_of_pos (by simpa using hy),
        hnil, nil_append, List.cons.injEq]
      refine ⟨rfl, ?_⟩
      have := ih hs
      rwa [hnil, nil_append] at this

end

end SortedPoints

end Filer
