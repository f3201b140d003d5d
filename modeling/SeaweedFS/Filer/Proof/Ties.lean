import SeaweedFS.Filer.Proof.Points

/-!
# Chunks with equal stamps

A start point with the stamp of the back of the queue is put nowhere when nothing in the queue is newer
(`Sweep.Loses`). Its stop point then removes another chunk of the stamp, the rest of which can become a hole.
`TiesBelow` says when nothing is lost.
-/

namespace Filer

open Lib List

variable {b : FileChunk}

/-- The sweep puts the start point `p` nowhere. -/
def Sweep.Loses (s : Sweep) (p : Point) : Prop :=
  p.isStart = true ∧ (∃ e ∈ s.queue.getLast?, ¬ e.ts < p.ts) ∧ ∀ e ∈ s.queue, ¬ p.ts < e.ts

/-- The sweep over `pts` loses no start point. -/
def Lossless (pts : List Point) : Prop :=
  ∀ done p rest, pts = done ++ p :: rest → ¬ (sweep done).Loses p

/-- If `b` begins within `a` and has its stamp, it begins below a newer chunk, which began before. -/
def BelowNewer (chunks : List FileChunk) (a b : FileChunk) : Prop :=
  a.modifiedTsNs = b.modifiedTsNs → 0 < b.size → a.offset ≤ b.offset →
    b.offset < a.offset + a.size →
    ∃ c ∈ chunks, b.modifiedTsNs < c.modifiedTsNs ∧ c.offset < b.offset ∧
      b.offset ≤ c.offset + c.size

instance (chunks : List FileChunk) (a b : FileChunk) : Decidable (BelowNewer chunks a b) :=
  inferInstanceAs (Decidable (_ → _))

/-- Every chunk that begins within another one of its stamp begins below a newer one. -/
def TiesBelow (chunks : List FileChunk) : Prop :=
  chunks.Pairwise fun a b => BelowNewer chunks a b ∧ BelowNewer chunks b a

instance (chunks : List FileChunk) : Decidable (TiesBelow chunks) :=
  inferInstanceAs (Decidable (List.Pairwise _ _))

/-! ## What the queue holds while nothing is lost -/

theorem stamped_step_of_not_loses {s : Sweep} {p : Point} (hp : p.isStart = true)
    (h : ¬ s.Loses p) (t : Int) :
    stamped t (s.step p).queue = stamped t s.queue + if p.ts = t then 1 else 0 := by
  have happ : stamped t (s.queue ++ [p]) = stamped t s.queue + if p.ts = t then 1 else 0 := by
    simp [stamped]
  rw [Sweep.step_queue, if_pos hp]
  cases hl : s.queue.getLast? with
  | none => exact happ
  | some pp =>
    dsimp only
    split
    · exact happ
    · rename_i hle
      have hnew : ∃ e ∈ s.queue, p.ts < e.ts := by
        by_contra hno
        exact h ⟨hp, ⟨pp, by simp [hl], hle⟩, fun e he hlt => hno ⟨e, he, hlt⟩⟩
      rw [← happ]
      exact ((insertBeforeNewer_perm hnew).trans (perm_append_singleton _ _).symm).countP_eq _

namespace SortedPoints

variable {live : List FileChunk} {pts done rest : List Point}

theorem stamped_eq (h : SortedPoints live pts) (he : pts = done ++ rest)
    (hno : ∀ d p r, done = d ++ p :: r → ¬ (sweep d).Loses p) (t : Int) :
    stamped t (sweep done).queue + stops t done = starts t done := by
  induction done using List.reverseRecOn generalizing rest with
  | nil => simp [sweep, Sweep.init, stamped, stops, starts]
  | append_singleton done p ih =>
    have ih := @ih (p :: rest) (by simpa using he) fun d q r hd => hno d q (r ++ [p]) (by simp [hd])
    have hle := h.stops_le_starts he t
    rw [sweep_append]
    simp only [starts, stops, countP_append, countP_cons, countP_nil, decide_eq_true_eq] at ih hle ⊢
    cases hp : p.isStart with
    | true =>
      have := stamped_step_of_not_loses hp (hno done p [] rfl) t
      simp only [true_and, Bool.true_eq_false, false_and, if_false] at hle ⊢
      omega
    | false =>
      have := stamped_step_stop (s := sweep done) hp t
      simp only [hp, true_and, Bool.false_eq_true, false_and, if_false] at hle ⊢
      by_cases ht : p.ts = t
      · simp only [ht] at this hle ⊢
        omega
      · simp only [ht, Ne.symm ht] at this hle ⊢
        omega

end SortedPoints

theorem countP_split {α : Type} {l : List α} (P Q R : α → Bool)
    (h : ∀ a ∈ l, (P a = true ↔ Q a = true ∨ R a = true) ∧ ¬ (Q a = true ∧ R a = true)) :
    l.countP P = l.countP Q + l.countP R := by
  induction l with
  | nil => rfl
  | cons a l ih =>
    have ha := h a mem_cons_self
    rw [countP_cons, countP_cons, countP_cons, ih fun b hb => h b (mem_cons_of_mem _ hb)]
    cases hP : P a <;> cases hQ : Q a <;> cases hR : R a <;> simp [hP, hQ, hR] at ha ⊢ <;> omega

theorem exists_pair {α : Type} {l : List α} {P : α → Bool} {R : α → α → Prop} (hR : l.Pairwise R)
    (h : 2 ≤ l.countP P) : ∃ a ∈ l, ∃ b ∈ l, P a = true ∧ P b = true ∧ R a b := by
  have hf := hR.filter P
  have hm : ∀ a ∈ l.filter P, a ∈ l ∧ P a = true := fun a => List.mem_filter.1
  rw [countP_eq_length_filter] at h
  match hl : l.filter P, h with
  | a :: b :: rest, _ =>
    rw [hl] at hf hm
    obtain ⟨ha, hPa⟩ := hm a (by simp)
    obtain ⟨hb, hPb⟩ := hm b (by simp)
    exact ⟨a, ha, b, hb, hPa, hPb, (List.pairwise_cons.1 hf).1 b (by simp)⟩

theorem exists_last {α : Type} {l : List α} {P : α → Prop} (h : ∃ a ∈ l, P a) :
    ∃ done a rest, l = done ++ a :: rest ∧ P a ∧ ∀ b ∈ rest, ¬ P b := by
  induction l with
  | nil => simp at h
  | cons x l ih =>
    by_cases hl : ∃ a ∈ l, P a
    · obtain ⟨done, a, rest, he, ha, hr⟩ := ih hl
      exact ⟨x :: done, a, rest, by simp [he], ha, hr⟩
    · refine ⟨[], x, l, rfl, ?_, fun b hb hPb => hl ⟨b, hb, hPb⟩⟩
      obtain ⟨a, ha, hPa⟩ := h
      rcases List.mem_cons.1 ha with rfl | ha
      · exact hPa
      · exact absurd ⟨a, ha, hPa⟩ hl

namespace SortedPoints

variable {live : List FileChunk} {pts done rest : List Point}

section

variable (h : SortedPoints live pts)
include h

/-- Where the points `C` of a stamp are those of the prefix, the queue holds the chunks with their start in them and
their stop not. -/
theorem stamped_cut (he : pts = done ++ rest)
    (hno : ∀ d p r, done = d ++ p :: r → ¬ (sweep d).Loses p) {t : Int} (C : Point → Prop)
    [DecidablePred C] (hd : ∀ q ∈ done, q.ts = t → C q) (hr : ∀ q ∈ rest, ¬ C q)
    (hC : ∀ c ∈ live, C (stopPoint c) → C (startPoint c)) :
    stamped t (sweep done).queue = live.countP fun c =>
      c.modifiedTsNs = t ∧ C (startPoint c) ∧ ¬ C (stopPoint c) := by
  have hcount := h.stamped_eq he hno t
  obtain ⟨h1, h2⟩ := h.starts_stops_eq he C hd hr
  have h3 := countP_split (l := live) (fun c => c.modifiedTsNs = t ∧ C (startPoint c))
    (fun c => c.modifiedTsNs = t ∧ C (stopPoint c))
    (fun c => c.modifiedTsNs = t ∧ C (startPoint c) ∧ ¬ C (stopPoint c)) fun c hc => by
      simp only [decide_eq_true_eq]
      tauto
  omega

/-- **A sweep that loses nothing leaves no hole.** -/
theorem queueAt_ne_nil (hl : Lossless pts) {c : FileChunk} {y : Int}
    (hc : c ∈ live) (hy : Covers c y) : queueAt pts y ≠ [] := by
  have he := h.split_at y
  have hcount := h.stamped_cut he (t := c.modifiedTsNs)
    (fun d p r hd => hl d p (r ++ pts.filter fun p => ¬ p.x ≤ y)
      (he.trans (by rw [hd, append_assoc, cons_append])))
    (fun p => p.x ≤ y) (fun q hq _ => by simpa using (List.mem_filter.1 hq).2)
    (fun q hq => by simpa using (List.mem_filter.1 hq).2)
    (fun d hd => by have := h.pos d hd; simp only [startPoint, stopPoint]; omega)
  intro hnil
  rw [← queueAt, hnil, eq_comm, stamped, countP_nil, countP_eq_zero] at hcount
  have := hcount c hc
  simp only [decide_eq_true_eq, true_and, not_and, not_not] at this
  exact absurd hy.2 (not_lt.2 (this hy.1))

/-! ## When a start point is lost -/

section

variable (he : pts = done ++ startPoint b :: rest)
include he

theorem around_start : (∀ q ∈ done, PointLe q (startPoint b)) ∧
      ∀ q ∈ startPoint b :: rest, PointLe (startPoint b) q := by
  have hs := h.sorted
  rw [he, pairwise_append, pairwise_cons] at hs
  exact ⟨fun q hq => hs.2.2 q hq _ mem_cons_self, forall_mem_cons.2 ⟨by simp [PointLe], hs.2.1.1⟩⟩

section

variable (hno : ∀ d p r, done = d ++ p :: r → ¬ (sweep d).Loses p)
include hno

/-- Of a newer stamp, the queue at the start of `b` holds the chunks that have begun and not ended before it. -/
theorem stamped_newer {t : Int} (ht : b.modifiedTsNs < t) : stamped t (sweep done).queue =
      live.countP fun c => c.modifiedTsNs = t ∧ c.offset < b.offset ∧ b.offset ≤ c.stop := by
  obtain ⟨hd, hr⟩ := h.around_start he
  rw [h.stamped_cut he hno (fun p => p.x < b.offset)]
  · simp [stopPoint]
  · intro q hq hqt
    have := hd q hq
    simp only [PointLe, startPoint] at this
    omega
  · intro q hq
    have := hr q hq
    simp only [PointLe, startPoint] at this
    omega
  · intro c hc
    have := h.pos c hc
    simp only [startPoint, stopPoint]
    omega

/-- Of its own stamp, the queue at the start of `b` holds the chunks that have begun and not ended, and those that
begin there and came first. -/
theorem stamped_same : stamped b.modifiedTsNs (sweep done).queue = (live.countP fun c =>
        c.modifiedTsNs = b.modifiedTsNs ∧ c.offset < b.offset ∧ b.offset < c.stop) +
      done.countP fun p => (p.isStart ∧ p.ts = b.modifiedTsNs) ∧ p.x = b.offset := by
  obtain ⟨hd, hr⟩ := h.around_start he
  have hcount := h.stamped_eq he hno b.modifiedTsNs
  have h1 := countP_split (l := done) (fun p => p.isStart ∧ p.ts = b.modifiedTsNs)
    (fun p => (p.isStart ∧ p.ts = b.modifiedTsNs) ∧ p.x < b.offset)
    (fun p => (p.isStart ∧ p.ts = b.modifiedTsNs) ∧ p.x = b.offset) fun p hp => by
      have := hd p hp
      simp only [PointLe, startPoint] at this
      grind
  have h2 : done.countP (fun p => (p.isStart ∧ p.ts = b.modifiedTsNs) ∧ p.x < b.offset) =
      live.countP fun c => c.modifiedTsNs = b.modifiedTsNs ∧ c.offset < b.offset := by
    rw [h.countP_prefix he (fun _ _ => Iff.rfl) fun q hq => ?_]
    · simp [stopPoint]
    · have := hr q hq
      simp only [PointLe, startPoint] at this
      simp only [decide_eq_true_eq]
      omega
  have h3 : stops b.modifiedTsNs done =
      live.countP fun c => c.modifiedTsNs = b.modifiedTsNs ∧ c.stop ≤ b.offset := by
    rw [stops, h.countP_prefix he
      (Q := fun p => (p.isStart = false ∧ p.ts = b.modifiedTsNs) ∧ p.x ≤ b.offset)]
    · simp [stopPoint]
    · intro q hq
      have := hd q hq
      simp only [PointLe, startPoint] at this
      grind
    · -- a stop at the same place and with the same stamp comes before the start
      intro q hq
      have := hr q hq
      simp only [PointLe, startPoint, true_implies] at this
      simp only [decide_eq_true_eq]
      rintro ⟨⟨hq1, hq2⟩, hq3⟩
      simp only [hq1, Bool.false_eq_true, and_false, or_false] at this
      omega
  have h4 := countP_split (l := live) (fun c => c.modifiedTsNs = b.modifiedTsNs ∧ c.offset < b.offset)
    (fun c => c.modifiedTsNs = b.modifiedTsNs ∧ c.stop ≤ b.offset)
    (fun c => c.modifiedTsNs = b.modifiedTsNs ∧ c.offset < b.offset ∧ b.offset < c.stop)
    fun c hc => by
      have := h.pos c hc
      simp only [decide_eq_true_eq]
      omega
  rw [starts] at hcount
  omega

end

omit he in
theorem countP_place (b : FileChunk) :
    (pts.countP fun p => (p.isStart ∧ p.ts = b.modifiedTsNs) ∧ p.x = b.offset) =
      live.countP fun c => c.modifiedTsNs = b.modifiedTsNs ∧ c.offset = b.offset := by
  rw [h.countP]
  simp

section

variable (hno : ∀ d p r, done = d ++ p :: r → ¬ (sweep d).Loses p)
include hno

theorem exists_newer_iff : (∃ e ∈ (sweep done).queue, b.modifiedTsNs < e.ts) ↔
      ∃ c ∈ live, b.modifiedTsNs < c.modifiedTsNs ∧ c.offset < b.offset ∧
        b.offset ≤ c.offset + c.size := by
  constructor
  · rintro ⟨e, heq, ht⟩
    have hpos : 0 < stamped e.ts (sweep done).queue := List.countP_pos_iff.2 ⟨e, heq, by simp⟩
    rw [h.stamped_newer he hno ht, countP_pos_iff] at hpos
    obtain ⟨c, hc, hce⟩ := hpos
    simp only [decide_eq_true_eq, c.stop_eq] at hce
    exact ⟨c, hc, hce.1 ▸ ht, hce.2⟩
  · rintro ⟨c, hc, ht, h1, h2⟩
    have hpos : 0 < stamped c.modifiedTsNs (sweep done).queue := by
      rw [h.stamped_newer he hno ht]
      exact List.countP_pos_iff.2 ⟨c, hc, by simp [h1, h2, c.stop_eq]⟩
    obtain ⟨e, heq, het⟩ := List.countP_pos_iff.1 hpos
    exact ⟨e, heq, by rw [of_decide_eq_true het]; exact ht⟩

/-- A start point is lost when a chunk of its stamp is in the queue and no newer one. -/
theorem loses_iff : (sweep done).Loses (startPoint b) ↔ 0 < stamped b.modifiedTsNs (sweep done).queue ∧
      ¬ ∃ c ∈ live, b.modifiedTsNs < c.modifiedTsNs ∧ c.offset < b.offset ∧
        b.offset ≤ c.offset + c.size := by
  rw [← h.exists_newer_iff he hno]
  constructor
  · rintro ⟨-, ⟨e, hel, hle⟩, hnew⟩
    have heq : e ∈ (sweep done).queue := mem_of_getLast? hel
    have := hnew e heq
    simp only [startPoint_ts] at hle this
    refine ⟨List.countP_pos_iff.2 ⟨e, heq, ?_⟩, fun ⟨e, heq, hlt⟩ => hnew e heq hlt⟩
    simp only [decide_eq_true_eq]
    omega
  · rintro ⟨hpos, hnew⟩
    obtain ⟨e, heq, het⟩ := List.countP_pos_iff.1 hpos
    have het : e.ts = b.modifiedTsNs := of_decide_eq_true het
    cases hl : (sweep done).queue.getLast? with
    | none =>
      rw [List.getLast?_eq_none_iff.1 hl] at heq
      cases heq
    | some pp =>
      have := (getLast?_max (queue_sorted done) hl).2 e heq
      refine ⟨rfl, ⟨pp, hl, ?_⟩, fun e heq hlt => hnew ⟨e, heq, hlt⟩⟩
      simp only [startPoint_ts]
      omega

end

end

theorem lossless (ht : TiesBelow live) : Lossless pts := by
  intro done
  induction hn : done.length using Nat.strong_induction_on generalizing done with
  | _ n ih =>
    intro p rest he hlose
    have hno : ∀ d q r, done = d ++ q :: r → ¬ (sweep d).Loses q := by
      intro d q r hd
      refine ih d.length ?_ d rfl q (r ++ p :: rest) (by rw [he, hd]; simp)
      rw [← hn, hd]
      simp
    have hp : p ∈ pts := by rw [he]; simp
    obtain ⟨b, hb, rfl | rfl⟩ := mem_points.1 (h.perm.mem_iff.1 hp)
    · obtain ⟨hpos, hnew⟩ := (h.loses_iff he hno).1 hlose
      refine hnew ?_
      have hbs := h.pos b hb
      rw [h.stamped_same he hno] at hpos
      by_cases h1 : 0 < live.countP fun c =>
          c.modifiedTsNs = b.modifiedTsNs ∧ c.offset < b.offset ∧ b.offset < c.stop
      · -- a chunk that began before `b`
        obtain ⟨a, ha, hab⟩ := List.countP_pos_iff.1 h1
        simp only [decide_eq_true_eq] at hab
        have : Std.Symm fun a b => BelowNewer live a b ∧ BelowNewer live b a :=
          ⟨fun _ _ h => h.symm⟩
        have hne : a ≠ b := by
          rintro rfl
          omega
        rw [b.stop_eq] at hbs
        rw [a.stop_eq] at hab
        exact (List.Pairwise.forall ht ha hb hne).1 hab.1 (by omega) (by omega) hab.2.2
      · -- another one that begins at the same place
        have hplace := h.countP_place b
        rw [he, countP_append, countP_cons, if_pos (by simp)] at hplace
        obtain ⟨a, ha, b', hb', hPa, hPb, hab, -⟩ := exists_pair ht
          (P := fun c => c.modifiedTsNs = b.modifiedTsNs ∧ c.offset = b.offset) (by omega)
        simp only [decide_eq_true_eq] at hPa hPb
        have hpa := h.pos a ha
        have hpb := h.pos b' hb'
        rw [a.stop_eq] at hpa
        rw [b'.stop_eq] at hpb
        have := hab (by omega) (by omega) (by omega) (by omega)
        rwa [hPb.1, hPb.2] at this
    · exact absurd hlose.1 (by simp)

theorem belowNewer (hl : Lossless pts) {a : FileChunk}
    (ha : a ∈ live) (hb : b ∈ live) (h2 : a.modifiedTsNs = b.modifiedTsNs → a.offset = b.offset →
      2 ≤ live.countP fun c => c.modifiedTsNs = b.modifiedTsNs ∧ c.offset = b.offset) :
    BelowNewer live a b := by
  intro hts _ hoff hin
  -- of the chunks that begin like `b`, the one that the sweep meets last
  have hplace := h.countP_place b
  obtain ⟨done, p, rest, he, hp, hrest⟩ : ∃ done p rest, pts = done ++ p :: rest ∧
      ((p.isStart ∧ p.ts = b.modifiedTsNs) ∧ p.x = b.offset) ∧
      ∀ q ∈ rest, ¬ ((q.isStart ∧ q.ts = b.modifiedTsNs) ∧ q.x = b.offset) :=
    exists_last ⟨startPoint b, h.perm.mem_iff.2 (mem_points.2 ⟨b, hb, .inl rfl⟩), by simp⟩
  have hpm : p ∈ pts := by rw [he]; simp
  obtain ⟨b', hb', rfl | rfl⟩ := mem_points.1 (h.perm.mem_iff.1 hpm)
  · simp only [startPoint_isStart, startPoint_ts, startPoint_x, true_and] at hp
    have hno : ∀ d q r, done = d ++ q :: r → ¬ (sweep d).Loses q :=
      fun d q r hd => hl d q (r ++ startPoint b' :: rest) (by rw [he, hd]; simp)
    have hn := hl done (startPoint b') rest he
    rw [h.loses_iff he hno, hp.1, hp.2, not_and_not_right] at hn
    refine hn ?_
    rw [← hp.1, h.stamped_same he hno, hp.1, hp.2]
    have hzero : (rest.countP fun p => (p.isStart ∧ p.ts = b.modifiedTsNs) ∧ p.x = b.offset) = 0 :=
      List.countP_eq_zero.2 (by simpa using hrest)
    rw [he, countP_append, countP_cons, hzero, if_pos (by simp [hp])] at hplace
    rcases lt_or_eq_of_le hoff with hlt | heq
    · have : 0 < live.countP fun c =>
          c.modifiedTsNs = b.modifiedTsNs ∧ c.offset < b.offset ∧ b.offset < c.stop :=
        List.countP_pos_iff.2 ⟨a, ha, by simp [hts, hlt, hin, a.stop_eq]⟩
      omega
    · omega
  · simp at hp

/-- **When the sweep loses nothing.** -/
theorem lossless_iff : Lossless pts ↔ TiesBelow live := by
  refine ⟨fun hl => List.pairwise_iff_forall_sublist.2 fun {a b} hab => ?_, h.lossless⟩
  have ha : a ∈ live := hab.subset (by simp)
  have hb : b ∈ live := hab.subset (by simp)
  refine ⟨h.belowNewer hl ha hb fun ht ho => ?_, h.belowNewer hl hb ha fun ht ho => ?_⟩
  · refine le_trans ?_ (hab.countP_le)
    simp [ht, ho]
  · refine le_trans ?_ (hab.countP_le)
    simp [ht, ho]

end

end SortedPoints

/-! ## `readResolvedChunks` -/

theorem tiesBelow_liveChunks (chunks : List FileChunk) :
    TiesBelow (liveChunks chunks 0 maxInt64) ↔ TiesBelow chunks := by
  have hlive : ∀ c : FileChunk, max c.offset 0 < min c.stop maxInt64 ↔ 0 < c.size := by
    intro c
    have := c.offset_nonneg
    have := c.stop_le
    rw [c.stop_eq]
    omega
  have hbelow : ∀ a b : FileChunk, BelowNewer (liveChunks chunks 0 maxInt64) a b ↔
      BelowNewer chunks a b := by
    intro a b
    simp only [BelowNewer, liveChunks, List.mem_filter, decide_eq_true_eq, hlive]
    refine imp_congr_right fun _ => imp_congr_right fun _ => imp_congr_right fun _ =>
      imp_congr_right fun _ => exists_congr fun c => ?_
    constructor
    · exact fun ⟨hc, h⟩ => ⟨hc.1, h⟩
    · exact fun ⟨hc, h⟩ => ⟨⟨hc, by omega⟩, h⟩
  have hempty : ∀ a b : FileChunk, (0 < a.size → 0 < b.size → BelowNewer chunks a b) →
      BelowNewer chunks a b :=
    fun a b h h1 h2 h3 h4 => h (by omega) h2 h1 h2 h3 h4
  rw [TiesBelow, TiesBelow]
  simp only [hbelow]
  rw [liveChunks, pairwise_filter]
  simp only [decide_eq_true_eq, hlive]
  refine ⟨fun h => h.imp fun {a b} hab => ?_, fun h => h.imp fun hab _ _ => hab⟩
  exact ⟨hempty a b fun ha hb => (hab ha hb).1, hempty b a fun hb ha => (hab ha hb).2⟩

/-- **When no written byte turns into a hole.** No start point is lost exactly when every chunk that begins within
another of its stamp begins below a newer one; then every byte of a chunk is covered. -/
theorem readResolvedChunks_covers (S : SortFunc Point) (chunks : List FileChunk) :
    (TiesBelow chunks ↔ Lossless (S.sort pointCmp (pointsOf chunks 0 maxInt64))) ∧
    (TiesBelow chunks → ∀ x : Int, (∃ c ∈ chunks, c.offset ≤ x ∧ x < c.offset + c.size) →
      ∃ i ∈ readResolvedChunks S chunks 0 maxInt64, i.startOffset ≤ x ∧ x < i.stopOffset) := by
  have h := sortedPoints S chunks 0 maxInt64
  have hiff := h.lossless_iff
  rw [tiesBelow_liveChunks] at hiff
  refine ⟨hiff.symm, fun ht x ⟨c, hc, hx⟩ => ?_⟩
  have hcl : c ∈ liveChunks chunks 0 maxInt64 := by
    have := c.offset_nonneg
    have := c.stop_le
    simp only [liveChunks, List.mem_filter, hc, true_and, decide_eq_true_eq, c.stop_eq]
    omega
  have hq := h.queueAt_ne_nil (hiff.2 ht) (y := x) hcl ⟨hx.1, by simpa [c.stop_eq] using hx.2⟩
  have hshow := (sweep_shows h.sorted_x h.queue_nil).2 x
  cases hl : (queueAt (S.sort pointCmp (pointsOf chunks 0 maxInt64)) x).getLast? with
  | none => exact absurd (List.getLast?_eq_none_iff.1 hl) hq
  | some pp =>
    rw [hl] at hshow
    obtain ⟨i, hi, hci, -⟩ := hshow
    exact ⟨i, hi, hci⟩

/-- The second of two chunks with one stamp begins within the first and below a newer one. -/
def tiedBelow : List FileChunk := [.data "1,01" 0 10 1, .data "1,02" 5 15 1, .data "1,03" 2 4 2]

theorem readResolvedChunks_covers_tiedBelow :
    TiesBelow tiedBelow ∧
      ∃ i ∈ readResolvedChunks .insertion tiedBelow 0 maxInt64,
        i.startOffset ≤ 15 ∧ 15 < i.stopOffset := by
  have ht : TiesBelow tiedBelow := by decide
  exact ⟨ht, (readResolvedChunks_covers .insertion tiedBelow).2 ht 15 (by decide)⟩

/-- Two chunks with one stamp, nothing above them. -/
def tied : List FileChunk := [.data "1,01" 0 10 1, .data "1,02" 5 15 1]

/-- Byte 15 of the second chunk is a hole: its start point is lost, and the stop point of the first
chunk empties the queue. -/
theorem readResolvedChunks_hole :
    (∃ c ∈ tied, c.offset ≤ 15 ∧ 15 < c.offset + c.size) ∧
      ¬ ∃ i ∈ readResolvedChunks .insertion tied 0 maxInt64,
        i.startOffset ≤ 15 ∧ 15 < i.stopOffset := by
  decide +kernel

end Filer
