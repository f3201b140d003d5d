import SeaweedFS.Filer.IntervalList
import SeaweedFS.Filer.Proof.Resolve

/-!
# `insertInterval` lays one interval over a list

`lookAt read l x` is what an ordered list shows at `x`: the stamp of the interval there and what its value
reads. Inserting an interval keeps the list ordered and shows at every position the newer of the interval and
the list (`insertLoop_spec`), so merging chunks one at a time shows the newest chunk (`lookAt_mergeAll`).
-/

namespace Filer

open Lib List Option VisibleInterval

variable {vis : IntervalList VisibleInterval}

variable {x : Int}

section
variable {T β : Type} (read : T → Int → β)

theorem covers_interval {i : Interval T} : Covers i x ↔ i.startOffset ≤ x ∧ x < i.stopOffset := Iff.rfl

/-- What `l` shows at `x`. -/
def lookAt (l : IntervalList T) (x : Int) : Option (Int × β) :=
  (seek l x).map fun i => (i.tsNs, read i.value x)

/-- What one interval shows at `x`. -/
@[grind] def showAt (i : Interval T) (x : Int) : Option (Int × β) :=
  if i.startOffset ≤ x ∧ x < i.stopOffset then some (i.tsNs, read i.value x) else none

/-- The newer of two layers, the upper one on a tie. -/
@[grind] def newer : Option (Int × β) → Option (Int × β) → Option (Int × β)
  | none, old => old
  | some new, none => some new
  | some new, some old => if old.1 ≤ new.1 then some new else some old

@[grind =] theorem lookAt_nil (x : Int) : lookAt read ([] : IntervalList T) x = none := rfl

@[grind =]
theorem lookAt_cons (i : Interval T) (l : IntervalList T) (x : Int) :
    lookAt read (i :: l) x = (showAt read i x).or (lookAt read l x) := by
  rw [lookAt, seek_cons, showAt]
  simp only [covers_interval]
  split
  · rfl
  · rfl

@[grind =]
theorem lookAt_append (l m : IntervalList T) (x : Int) :
    lookAt read (l ++ m) x = (lookAt read l x).or (lookAt read m x) := by
  rw [lookAt, seek_append, map_or]
  rfl

theorem lookAt_eq_none {l : IntervalList T}
    (h : ∀ i ∈ l, x < i.startOffset ∨ i.stopOffset ≤ x) : lookAt read l x = none := by
  rw [lookAt, map_eq_none_iff, seek_eq_none]
  intro i hi hc
  have := h i hi
  rw [covers_interval] at hc
  omega

theorem lookAt_before {before : List (Interval T)} {b : Int}
    (h : ∀ i ∈ before, i.stopOffset ≤ b) (x : Int) : lookAt read before.reverse x = none ∨ x < b := by
  by_cases hx : x < b
  · exact .inr hx
  · refine .inl (lookAt_eq_none read fun i hi => ?_)
    have := h i (List.mem_reverse.1 hi)
    omega

theorem lookAt_after {rest : List (Interval T)} {b : Int} (h : ∀ i ∈ rest, b ≤ i.startOffset)
    (x : Int) : lookAt read rest x = none ∨ b ≤ x := by
  by_cases hx : b ≤ x
  · exact .inr hx
  · refine .inl (lookAt_eq_none read fun i hi => ?_)
    have := h i hi
    omega

end

section
variable {T β : Type} [IntervalValue T] {read : T → Int → β}

@[simp, grind =] theorem cut_startOffset (i : Interval T) (a b : Int) : (i.cut a b).startOffset = a := rfl
@[simp, grind =] theorem cut_stopOffset (i : Interval T) (a b : Int) : (i.cut a b).stopOffset = b := rfl
@[simp, grind =] theorem cut_tsNs (i : Interval T) (a b : Int) : (i.cut a b).tsNs = i.tsNs := rfl
@[simp, grind =] theorem cut_value (i : Interval T) (a b : Int) :
    (i.cut a b).value = IntervalValue.setStartStop i.value a b := rfl

/-- `SetStartStop` moves the place where the value is shown, not what it reads there. -/
@[grind] def Stable (read : T → Int → β) : Prop :=
  ∀ v a b x, read (IntervalValue.setStartStop v a b) x = read v x

/-- `new` is `old` with `interval` laid over it. -/
structure Laid (read : T → Int → β) (old : IntervalList T) (interval : Interval T)
    (new : IntervalList T) : Prop where
  ordered : Ordered new
  shows : ∀ x, lookAt read new x = newer (showAt read interval x) (lookAt read old x)

omit [IntervalValue T] in
theorem reverse_cons_append (t : Interval T) (before rest : List (Interval T)) :
    (t :: before).reverse ++ rest = before.reverse ++ t :: rest := by simp

omit [IntervalValue T] in
theorem ordered_zip {before rest : List (Interval T)} {next : Interval T} :
    Ordered (before.reverse ++ next :: rest) ↔
      Ordered before.reverse ∧ Ordered rest ∧ next.startOffset < next.stopOffset ∧
      (∀ p ∈ before, p.stopOffset ≤ next.startOffset) ∧ (∀ r ∈ rest, next.stopOffset ≤ r.startOffset) ∧
      ∀ p ∈ before, ∀ r ∈ rest, p.stopOffset ≤ r.startOffset := by
  simp only [ordered_append, ordered_cons, mem_reverse, List.mem_cons, lo_interval, hi_interval]
  constructor
  · rintro ⟨h1, ⟨h2, h3, h4⟩, h5⟩
    exact ⟨h1, h3, h2, fun p hp => h5 p hp next (.inl rfl), h4, fun p hp r hr => h5 p hp r (.inr hr)⟩
  · rintro ⟨h1, h2, h3, h4, h5, h6⟩
    refine ⟨h1, ⟨h3, h2, h5⟩, fun p hp r hr => ?_⟩
    rcases hr with rfl | hr
    · exact h4 p hp
    · exact h6 p hp r hr

omit [IntervalValue T] in
theorem Laid.congr {old old' new : IntervalList T} {i i' : Interval T} (h : Laid read old' i' new)
    (he : ∀ x, newer (showAt read i' x) (lookAt read old' x) =
      newer (showAt read i x) (lookAt read old x)) : Laid read old i new :=
  ⟨h.ordered, fun x => (h.shows x).trans (he x)⟩

/-- **The loop.** The nodes before `next` end before the interval and those after it begin after it, so it is enough
to compare the interval with `next`. -/
theorem insertLoop_spec (hread : Stable read) (before : List (Interval T)) (interval : Interval T)
    (rest : List (Interval T)) (ho : Ordered (before.reverse ++ rest))
    (hb : ∀ p ∈ before, p.stopOffset ≤ interval.startOffset) :
    Laid read (before.reverse ++ rest) interval (insertLoop before interval rest) := by
  fun_induction insertLoop before interval rest with
  | case1 before interval hpos =>
    simp only [append_nil] at ho
    refine ⟨ordered_zip.2 ⟨ho, .nil, hpos, hb, by simp, by simp⟩, fun x => ?_⟩
    have := lookAt_before read hb x
    grind
  | case2 before interval hpos next rest hahead =>
    obtain ⟨h1, h2, h3, h4, h5, h6⟩ := ordered_zip.1 ho
    refine ⟨ordered_zip.2 ⟨h1, .cons h3 h2 h5, hpos, hb, by grind, by grind⟩, fun x => ?_⟩
    grind [lookAt_before read hb x, lookAt_after read h5 x]
  | case3 before interval hpos next rest hahead hafter ih =>
    rw [← reverse_cons_append] at ho ⊢
    exact ih ho (by grind)
  | case4 before interval hpos next rest hahead hafter hts hleft t next' hright =>
    obtain ⟨h1, h2, h3, h4, h5, h6⟩ := ordered_zip.1 ho
    simp only [next', t, cut_stopOffset, reverse_cons_append] at hright ⊢
    refine ⟨ordered_zip.2 ⟨h1, .cons hpos (.cons hright h2 h5) ?_, hleft, h4, ?_, ?_⟩, fun x => ?_⟩
    · grind [lo_interval, hi_interval]
    · grind
    · grind
    · grind [lookAt_before read hb x, lookAt_after read h5 x]
  | case5 before interval hpos next rest hahead hafter hts hleft t next' hright ih =>
    obtain ⟨h1, h2, h3, h4, h5, h6⟩ := ordered_zip.1 ho
    simp only [next', t, cut_stopOffset, reverse_cons_append] at hright ih ⊢
    refine (ih (ordered_zip.2 ⟨h1, h2, hleft, h4, ?_, h6⟩) ?_).congr fun x => ?_
    · grind
    · grind
    · grind [lookAt_before read hb x, lookAt_after read h5 x]
  | case6 before interval hpos next rest hahead hafter hts hleft hright =>
    obtain ⟨h1, h2, h3, h4, h5, h6⟩ := ordered_zip.1 ho
    refine ⟨ordered_zip.2 ⟨h1, .cons hright h2 h5, hpos, hb, ?_, ?_⟩, fun x => ?_⟩
    · grind
    · grind
    · grind [lookAt_before read hb x, lookAt_after read h5 x]
  | case7 before interval hpos next rest hahead hafter hts hleft hright ih =>
    obtain ⟨h1, h2, h3, h4, h5, h6⟩ := ordered_zip.1 ho
    refine (ih (h1.append h2 (by simpa using h6)) hb).congr fun x => ?_
    grind [lookAt_before read hb x, lookAt_after read h5 x]
  | case8 before interval hpos next rest hahead hafter hts hleft t interval' hright ih =>
    obtain ⟨h1, h2, h3, h4, h5, h6⟩ := ordered_zip.1 ho
    simp only [interval', t, cut_stopOffset, cut_startOffset, reverse_cons_append] at hright ih ⊢
    refine (ih (ordered_zip.2 ⟨h1, .cons h3 h2 h5, hleft, hb, ?_, ?_⟩) ?_).congr fun x => ?_
    · grind
    · grind
    · grind
    · grind [lookAt_before read hb x, lookAt_after read h5 x]
  | case9 before interval hpos next rest hahead hafter hts hleft t interval' hright =>
    obtain ⟨h1, h2, h3, h4, h5, h6⟩ := ordered_zip.1 ho
    simp only [interval', t, cut_stopOffset, reverse_cons_append] at hright ⊢
    refine ⟨ordered_zip.2 ⟨h1, .cons h3 h2 h5, hleft, hb, ?_, ?_⟩, fun x => ?_⟩
    · grind
    · grind
    · grind [lookAt_before read hb x, lookAt_after read h5 x]
  | case10 before interval hpos next rest hahead hafter hts hleft hright ih =>
    obtain ⟨h1, h2, h3, h4, h5, h6⟩ := ordered_zip.1 ho
    refine (ih ho ?_).congr fun x => ?_
    · grind
    · grind [lookAt_before read hb x, lookAt_after read h5 x]
  | case11 before interval hpos next rest hahead hafter hts hleft hright =>
    obtain ⟨h1, h2, h3, h4, h5, h6⟩ := ordered_zip.1 ho
    refine ⟨ho, fun x => ?_⟩
    grind [lookAt_before read hb x, lookAt_after read h5 x]
  | case12 before interval rest hpos =>
    refine ⟨ho, fun x => ?_⟩
    have : showAt read interval x = none := if_neg (by omega)
    rw [this]
    rfl

theorem insertLoop_forall {P : Interval T → Prop} (hcut : ∀ i a b, P i → P (Interval.cut i a b))
    (before : List (Interval T)) (interval : Interval T) (rest : List (Interval T))
    (hb : ∀ i ∈ before, P i) (hi : P interval) (hr : ∀ i ∈ rest, P i) :
    ∀ i ∈ insertLoop before interval rest, P i := by
  fun_induction insertLoop before interval rest with
  | case3 before interval hpos next rest hahead hafter ih =>
    exact ih (by grind) hi (by grind)
  | case5 before interval hpos next rest hahead hafter hts hleft t next' hright ih =>
    exact ih (by grind) hi (by grind)
  | case7 before interval hpos next rest hahead hafter hts hleft hright ih =>
    exact ih hb hi (by grind)
  | case8 before interval hpos next rest hahead hafter hts hleft t interval' hright ih =>
    exact ih (by grind) (hcut _ _ _ (hcut _ _ _ hi)) hr
  | case10 before interval hpos next rest hahead hafter hts hleft hright ih =>
    exact ih hb (hcut _ _ _ hi) hr
  | _ => grind

end

/-! ## Visible intervals -/

/-- Where the bytes shown at `x` are: the file id, and the offset that `ViewFromVisibleIntervals` computes. -/
def VisibleInterval.place (v : VisibleInterval) (x : Int) : String × Int :=
  (v.fileId, x - v.start + v.offsetInChunk)

theorem stable_place : Stable VisibleInterval.place := by
  intro v a b x
  simp only [place, IntervalValue.setStartStop, setStartStop, Prod.mk.injEq, true_and]
  omega

/-- The place of the byte at offset `x` of the file, none in a hole. -/
def placeAt (visibles : IntervalList VisibleInterval) (x : Int) : Option (String × Int) :=
  (seek visibles x).map fun i => i.value.place x

theorem showAt_intervalOf (c : FileChunk) (start stop x : Int) :
    showAt VisibleInterval.place (intervalOf c start stop) x =
      if start ≤ x ∧ x < stop then some (c.modifiedTsNs, c.getFileIdString, x - c.offset)
      else none := by
  simp [showAt, intervalOf, place]

/-- What the newest chunk shows. -/
def chunkAt (chunks : List FileChunk) (x : Int) : Option (Int × String × Int) :=
  (newest? chunks x).map fun c => (c.modifiedTsNs, c.getFileIdString, x - c.offset)

theorem placeAt_eq (vis : IntervalList VisibleInterval) (x : Int) :
    placeAt vis x = (lookAt VisibleInterval.place vis x).map (·.2) := by
  rw [lookAt, Option.map_map]
  rfl

variable {chunks : List FileChunk}

theorem lookAt_of_shows (ho : Ordered vis) (h : Shows vis x (newest? chunks x)) :
    lookAt VisibleInterval.place vis x = chunkAt chunks x := by
  rw [lookAt, chunkAt]
  cases hn : newest? chunks x with
  | none =>
    rw [hn] at h
    rw [seek_eq_none.2 h]
    rfl
  | some c =>
    rw [hn] at h
    obtain ⟨i, hi, hci, he⟩ := h
    rw [(seek_eq_some ho).2 ⟨hi, hci⟩, he]
    simp only [map_some, intervalOf, place, some.injEq, Prod.mk.injEq, true_and]
    omega

theorem chunkAt_cons (c : FileChunk) (chunks : List FileChunk) (x : Int) : chunkAt (c :: chunks) x =
      newer (showAt VisibleInterval.place (intervalOf c c.offset c.stop) x) (chunkAt chunks x) := by
  rw [showAt_intervalOf, chunkAt, newest?]
  have hc : Covers c x ↔ c.offset ≤ x ∧ x < c.stop := Iff.rfl
  by_cases h : Covers c x
  · rw [if_pos h, if_pos (hc.1 h), chunkAt]
    cases newest? chunks x with
    | none => rfl
    | some b =>
      simp only [map_some, newer, ts_chunk]
      split
      · rw [if_neg (by omega)]
        rfl
      · rw [if_pos (by omega)]
        rfl
  · rw [if_neg h, if_neg (mt hc.2 h)]
    rfl

theorem mergeIntoVisibles_eq (vis : IntervalList VisibleInterval) (start stop : Int) (c : FileChunk) :
    mergeIntoVisibles vis start stop c = insertLoop [] (intervalOf c start stop) vis := by
  simp [mergeIntoVisibles, IntervalList.InsertInterval, IntervalList.insertInterval,
    IntervalValue.setStartStop, setStartStop, intervalOf]

theorem mergeIntoVisibles_laid (ho : Ordered vis) (start stop : Int) (c : FileChunk) :
    Laid VisibleInterval.place vis (intervalOf c start stop) (mergeIntoVisibles vis start stop c) := by
  rw [mergeIntoVisibles_eq]
  exact insertLoop_spec stable_place [] _ vis (by simpa using ho) (by simp)

/-- **Merging one chunk at a time** shows the newest chunks. -/
theorem lookAt_mergeAll (hd : DistinctTs chunks) : Ordered (mergeAllIntoVisibles chunks) ∧
      ∀ x, lookAt VisibleInterval.place (mergeAllIntoVisibles chunks) x = chunkAt chunks x := by
  induction chunks using List.reverseRecOn with
  | nil => exact ⟨.nil, fun x => rfl⟩
  | append_singleton chunks c ih =>
    obtain ⟨ho, hl⟩ := ih (hd.sublist (sublist_append_left _ _))
    have hstep : mergeAllIntoVisibles (chunks ++ [c]) =
        mergeIntoVisibles (mergeAllIntoVisibles chunks) c.offset c.stop c := by
      simp [mergeAllIntoVisibles]
    have hlaid := mergeIntoVisibles_laid ho c.offset c.stop c
    rw [hstep]
    refine ⟨hlaid.ordered, fun x => ?_⟩
    rw [hlaid.shows, hl, ← chunkAt_cons, chunkAt, chunkAt,
      newest?_perm hd (perm_append_singleton c chunks)]

/-- The value of a node carries the node's range and stamp. -/
structure Carries (i : Interval VisibleInterval) : Prop where
  start : i.value.start = i.startOffset
  stop : i.value.stop = i.stopOffset
  tsNs : i.value.modifiedTsNs = i.tsNs

theorem carries_intervalOf (c : FileChunk) (start stop : Int) :
    Carries (intervalOf c start stop) := ⟨rfl, rfl, rfl⟩

theorem mergeIntoVisibles_carries (h : ∀ i ∈ vis, Carries i) (start stop : Int) (c : FileChunk) :
    ∀ i ∈ mergeIntoVisibles vis start stop c, Carries i := by
  rw [mergeIntoVisibles_eq]
  exact insertLoop_forall (fun i a b hi => ⟨rfl, rfl, hi.tsNs⟩) [] _ _ (by simp)
    (carries_intervalOf c start stop) h

theorem mergeAll_carries (chunks : List FileChunk) : ∀ i ∈ mergeAllIntoVisibles chunks, Carries i := by
  induction chunks using List.reverseRecOn with
  | nil => simp [mergeAllIntoVisibles]
  | append_singleton chunks c ih =>
    rw [mergeAllIntoVisibles, foldl_append, foldl_cons, foldl_nil]
    exact mergeIntoVisibles_carries ih _ _ c

/-- **Merging chunks one at a time is resolving them.** After every prefix the merged list is ordered and shows at
every offset what `readResolvedChunks` of the prefix shows, for every order of the chunks. -/
theorem mergeAllIntoVisibles_place (S : SortFunc Point) (chunks : List FileChunk)
    (hd : DistinctTs chunks) :
    (∀ n, Ordered (mergeAllIntoVisibles (chunks.take n)) ∧
      (∀ i ∈ mergeAllIntoVisibles (chunks.take n),
        i.value.start = i.startOffset ∧ i.value.stop = i.stopOffset) ∧
      ∀ x, placeAt (mergeAllIntoVisibles (chunks.take n)) x =
        placeAt (readResolvedChunks S (chunks.take n) 0 maxInt64) x) ∧
    ∀ chunks', chunks'.Perm chunks →
      ∀ x, placeAt (mergeAllIntoVisibles chunks') x = placeAt (mergeAllIntoVisibles chunks) x := by
  refine ⟨fun n => ?_, fun chunks' hp x => ?_⟩
  · have hdn := hd.sublist (take_sublist n chunks)
    obtain ⟨ho, hl⟩ := lookAt_mergeAll hdn
    refine ⟨ho, fun i hi => ⟨(mergeAll_carries _ i hi).start, (mergeAll_carries _ i hi).stop⟩,
      fun x => ?_⟩
    have hsh := readResolvedChunks_shows S (a := 0) (b := maxInt64) hdn x
    rw [newest?_liveChunks_all] at hsh
    rw [placeAt_eq, placeAt_eq, hl, lookAt_of_shows (readResolvedChunks_ordered S _ 0 maxInt64) hsh]
  · rw [placeAt_eq, placeAt_eq, (lookAt_mergeAll hd).2, (lookAt_mergeAll (hd.perm hp.symm)).2,
      chunkAt, chunkAt, newest?_perm hd hp.symm]

/-- Chunks that cut each other, the newest one first. -/
def crossing : List FileChunk := [.data "1,01" 10 10 3, .data "1,02" 0 30 1, .data "1,03" 15 20 2]

theorem mergeAllIntoVisibles_place_crossing :
    DistinctTs crossing ∧
      placeAt (mergeAllIntoVisibles crossing) 22 =
        placeAt (readResolvedChunks .insertion crossing 0 maxInt64) 22 :=
  have hd : DistinctTs crossing := by decide
  ⟨hd, ((mergeAllIntoVisibles_place .insertion crossing hd).1 3).2.2 22⟩

end Filer
