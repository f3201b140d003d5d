import SeaweedFS.Shell.VolumeMerge

/-!
# What a merge keeps

What is consumed is in the order of time (`Popped.sorted`). In each window (`windows`) it is what comes from the
stream whose needle of that id was the first (`mergeNeedleStreams_eq`).
-/

namespace Shell

open Storage List Function Option

/-! ## The order -/

variable {streams : List (List Needle)} {items : List Item}

theorem Popped.mem_iff (h : Popped streams items) {j : Nat}
    {x : Needle} : (j, x) ∈ items ↔ ∃ s, streams[j]? = some s ∧ x ∈ s := by
  induction h with
  | done h =>
    refine iff_of_false not_mem_nil ?_
    rintro ⟨s, hs, hx⟩
    rw [h s (mem_of_getElem? hs)] at hx
    cases hx
  | @pop streams i n rest items hi _ _ ih =>
    obtain ⟨hlt, hget⟩ := List.getElem?_eq_some_iff.1 hi
    rw [List.mem_cons, ih, getElem?_set, Prod.mk.injEq]
    by_cases hj : i = j
    · subst hj
      simp [hlt, hget]
    · simp [hj, Ne.symm hj]

theorem Popped.sorted (h : Popped streams items)
    (hs : ∀ s ∈ streams, s.Pairwise fun a b => needleTimestamp a < needleTimestamp b) :
    items.Pairwise fun a b => a.timestamp ≤ b.timestamp := by
  induction h with
  | done => exact .nil
  | @pop streams i n rest items hi hleast hpopped ih =>
    have hmem := mem_of_getElem? hi
    have hn := List.pairwise_cons.1 (hs _ hmem)
    refine List.pairwise_cons.2 ⟨fun x hx => ?_, ih fun s hmem' => ?_⟩
    · obtain ⟨s, hget, hxs⟩ := hpopped.mem_iff.1 (show (x.1, x.2) ∈ items from hx)
      rw [getElem?_set] at hget
      by_cases hj : i = x.1
      · obtain rfl : rest = s := by grind
        exact UInt64.le_of_lt (hn.1 x.2 hxs)
      · rw [if_neg hj] at hget
        cases s with
        | nil => cases hxs
        | cons m t =>
          have hm := hleast m t (mem_of_getElem? hget)
          have hle : needleTimestamp n ≤ needleTimestamp m := by
            unfold less at hm
            split at hm
            · next heq => exact UInt64.le_of_eq heq.symm
            · exact UInt64.not_lt.1 hm
          rcases List.mem_cons.1 hxs with heq | hxt
          · exact UInt64.le_trans hle (UInt64.le_of_eq (congrArg needleTimestamp heq.symm))
          · exact UInt64.le_trans hle
              (UInt64.le_of_lt ((List.pairwise_cons.1 (hs _ (mem_of_getElem? hget))).1 x.2 hxt))
    · rcases mem_or_eq_of_mem_set hmem' with hmem' | rfl
      · exact hs s hmem'
      · exact hn.2

/-! ## The windows -/

/-- The items of each time window. -/
def windows : List Item → List (List Item)
  | [] => []
  | item :: items =>
    let inside : Item → Bool := fun x => x.timestamp ≤ item.timestamp + mergeDeduplicationWindowNs
    (item :: items.takeWhile inside) :: windows (items.dropWhile inside)
termination_by items => items.length
decreasing_by exact Nat.lt_succ_of_le (dropWhile_sublist _).length_le

/-- The stream of the first item of an id. -/
def firstStream (id : NeedleId) (items : List Item) : Option Nat := (items.find? (·.2.id = id)).map (·.1)

theorem firstStream_cons (id : NeedleId) (x : Item) (l : List Item) :
    firstStream id (x :: l) = if x.2.id = id then some x.1 else firstStream id l := by
  by_cases hid : x.2.id = id <;> simp [firstStream, hid]

theorem consumed_inside {start : UInt64} {l : List Item}
    (hl : ∀ x ∈ l, x.timestamp ≤ start + mergeDeduplicationWindowNs) (rest : List Item)
    (seen : NeedleId → Option Nat) : ∃ seen', consumed ⟨seen, some start⟩ (l ++ rest) =
      l.filter (fun x => (seen x.2.id).or (firstStream x.2.id l) = some x.1) ++
        consumed ⟨seen', some start⟩ rest := by
  induction l generalizing seen with
  | nil => exact ⟨seen, rfl⟩
  | cons x l ih =>
    have hmove : (⟨seen, some start⟩ : Window).moveTo x.timestamp = ⟨seen, some start⟩ :=
      if_neg (UInt64.not_lt.2 (hl x mem_cons_self))
    have ih := ih fun y hy => hl y (.tail _ hy)
    rw [cons_append, consumed, hmove, filter_cons, firstStream_cons, if_pos rfl]
    dsimp only
    split
    · next hany =>
      obtain ⟨j, hj, hne⟩ := (any_eq_true _ _).1 hany
      obtain ⟨seen', heq⟩ := ih seen
      refine ⟨seen', heq.trans ?_⟩
      rw [hj, some_or, if_neg (by simpa using hne)]
      congr 1
      apply filter_congr
      intro y _
      rw [firstStream_cons]
      grind
    · next hany =>
      have hseen : seen x.2.id = none ∨ seen x.2.id = some x.1 := by
        cases hs : seen x.2.id <;> simp_all
      obtain ⟨seen', heq⟩ := ih (update seen x.2.id (some x.1))
      refine ⟨seen', (congrArg (x :: ·) heq).trans ?_⟩
      rw [if_pos (by rcases hseen with hs | hs <;> simp [hs]), cons_append]
      congr 2
      apply filter_congr
      intro y _
      rw [firstStream_cons]
      by_cases hy : x.2.id = y.2.id
      · rw [← hy, update_self, if_pos rfl]
        rcases hseen with hs | hs <;> simp [hs]
      · rw [update_of_ne (Ne.symm hy), if_neg hy]

/-- **What is consumed**: in each window, what comes from the stream that had the first needle of its id. -/
theorem mergeNeedleStreams_eq (items : List Item) : mergeNeedleStreams items =
      (windows items).flatMap fun w => w.filter fun x => firstStream x.2.id w = some x.1 := by
  induction items using windows.induct with
  | case1 => simp [mergeNeedleStreams, consumed, windows]
  | case2 x items inside ih =>
    have hsplit : items = items.takeWhile inside ++ items.dropWhile inside :=
      List.takeWhile_append_dropWhile.symm
    obtain ⟨seen', heq⟩ := consumed_inside (l := items.takeWhile inside)
      (fun y hy => by simpa [inside] using mem_takeWhile_imp hy) (items.dropWhile inside)
      (update (fun _ => none) x.2.id (some x.1))
    have hfirst : mergeNeedleStreams (x :: items) =
        x :: consumed ⟨update (fun _ => none) x.2.id (some x.1), some x.timestamp⟩ items := rfl
    -- the first item behind the window begins a new one
    have hrest : consumed ⟨seen', some x.timestamp⟩ (items.dropWhile inside) =
        mergeNeedleStreams (items.dropWhile inside) := by
      cases hdrop : items.dropWhile inside with
      | nil => rfl
      | cons y rest =>
        have hy : ¬ inside y = true := by
          have := head_dropWhile_not inside (l := items) (by simp [hdrop])
          simpa [hdrop] using this
        have hmove : (⟨seen', some x.timestamp⟩ : Window).moveTo y.timestamp = ⟨fun _ => none, some y.timestamp⟩ :=
          if_pos (UInt64.not_le.1 (by simpa [inside] using hy))
        rw [mergeNeedleStreams, consumed, consumed, hmove]
        rfl
    rw [hfirst, windows, flatMap_cons, ← ih, ← hrest, filter_cons_of_pos (by simp [firstStream]),
      cons_append]
    conv_lhs => rw [hsplit, heq]
    congr 2
    apply filter_congr
    intro y _
    rw [firstStream_cons]
    by_cases hy : x.2.id = y.2.id
    · simp [hy]
    · rw [update_of_ne (Ne.symm hy), if_neg hy, none_or]

theorem consumed_sublist (w : Window) (items : List Item) : (consumed w items).Sublist items := by
  induction items generalizing w with
  | nil => exact .slnil
  | cons x items ih =>
    rw [consumed]
    split
    · exact (ih _).cons x
    · exact (ih _).cons_cons x

/-! ## The newest needle -/

variable {i : Nat}

section
variable (h : Popped streams items)
  (hs : ∀ s ∈ streams, s.Pairwise fun a b => needleTimestamp a < needleTimestamp b)
  (hsame : ∀ s ∈ streams, ∀ t ∈ streams, ∀ a ∈ s, ∀ b ∈ t, needleTimestamp a = needleTimestamp b → a = b)
include h hs hsame

/-- The newest needle of an id is the last one as soon as it is consumed. -/
theorem getLast?_of_mem {n : Needle} (hn : ∃ s ∈ streams, n ∈ s)
    (hnewest : ∀ s ∈ streams, ∀ m ∈ s, m.id = n.id → needleTimestamp m ≤ needleTimestamp n)
    (hi : (i, n) ∈ mergeNeedleStreams items) :
    (((mergeNeedleStreams items).filter (·.2.id = n.id)).getLast?).map (·.2) = some n := by
  have hsub := consumed_sublist ⟨fun _ => none, none⟩ items
  have hsorted := ((h.sorted hs).sublist hsub).filter (·.2.id = n.id)
  have hmem : (i, n) ∈ (mergeNeedleStreams items).filter (·.2.id = n.id) := by simp [hi]
  rcases eq_nil_or_concat ((mergeNeedleStreams items).filter (·.2.id = n.id)) with hnil | ⟨l, x, hl⟩
  · simp [hnil] at hmem
  · have hx : x ∈ (mergeNeedleStreams items).filter (·.2.id = n.id) := by simp [hl]
    obtain ⟨hx, hid⟩ := List.mem_filter.1 hx
    obtain ⟨s, hget, hxs⟩ := h.mem_iff.1 (show (x.1, x.2) ∈ items from hsub.subset hx)
    have hxs' := mem_of_getElem? hget
    rw [hl, concat_eq_append] at hmem
    have heq : x.2 = n := by
      rcases List.mem_append.1 hmem with hmem | hmem
      · rw [show (consumed _ items).filter _ = _ from hl, concat_eq_append] at hsorted
        have hle := (List.pairwise_append.1 hsorted).2.2 _ hmem x mem_cons_self
        obtain ⟨t, ht, hnt⟩ := hn
        exact hsame s hxs' t ht _ hxs _ hnt
          (UInt64.le_antisymm (hnewest s hxs' _ hxs (of_decide_eq_true hid)) hle)
      · rw [← List.mem_singleton.1 hmem]
    simp [hl, heq]

/-- **The merge keeps the newest needle** of an id exactly when, in its window, it comes from the stream that
has the first needle of that id. What is consumed is in the order of time. -/
theorem mergeNeedleStreams_newest :
    (mergeNeedleStreams items).Pairwise (fun a b => a.timestamp ≤ b.timestamp) ∧
      ∀ n, (∃ s ∈ streams, n ∈ s) →
        (∀ s ∈ streams, ∀ m ∈ s, m.id = n.id → needleTimestamp m ≤ needleTimestamp n) →
        ((((mergeNeedleStreams items).filter (·.2.id = n.id)).getLast?.map (·.2) = some n) ↔
          ∃ w ∈ windows items, ∃ i, (i, n) ∈ w ∧ firstStream n.id w = some i) := by
  refine ⟨(h.sorted hs).sublist (consumed_sublist _ _), fun n hn hnewest => ⟨fun hlast => ?_, ?_⟩⟩
  · obtain ⟨x, hx, rfl⟩ := map_eq_some_iff.1 hlast
    have hmem := (List.mem_filter.1 (mem_of_getLast? hx)).1
    rw [mergeNeedleStreams_eq] at hmem
    obtain ⟨w, hw, hxw⟩ := List.mem_flatMap.1 hmem
    obtain ⟨hxw, hfirst⟩ := List.mem_filter.1 hxw
    exact ⟨w, hw, x.1, hxw, of_decide_eq_true hfirst⟩
  · rintro ⟨w, hw, i, hi, hfirst⟩
    refine getLast?_of_mem h hs hsame hn hnewest (i := i) ?_
    rw [mergeNeedleStreams_eq]
    exact List.mem_flatMap.2 ⟨w, hw, List.mem_filter.2 ⟨hi, decide_eq_true hfirst⟩⟩

end

/-- A version of needle 1. -/
def versionAt (ns : UInt64) : Needle := { id := 1, appendAtNs := ns }

/-- The newest of three versions on two replicas is more than five seconds behind the others, and is kept. -/
theorem mergeNeedleStreams_newest_two :
    ((mergeNeedleStreams [(0, versionAt 100), (1, versionAt 101), (1, versionAt 7000000000)]).filter
      (·.2.id = 1)).getLast?.map (·.2) = some (versionAt 7000000000) := by
  have hpopped : Popped [[versionAt 100], [versionAt 101, versionAt 7000000000]]
      [(0, versionAt 100), (1, versionAt 101), (1, versionAt 7000000000)] :=
    .pop rfl (by simp [less, or_imp, forall_and]; decide)
      (.pop rfl (by simp [less]) (.pop rfl (by simp [less]) (.done (by simp))))
  refine ((mergeNeedleStreams_newest hpopped (by simp; decide) (by simp; decide)).2 (versionAt 7000000000)
    (by simp) (by simp; decide)).2 ?_
  refine ⟨[(1, versionAt 7000000000)], ?_, 1, by simp, rfl⟩
  rw [windows, dropWhile_cons_of_pos (by decide), dropWhile_cons_of_neg (by decide)]
  simp [windows]

/-- Two replicas have one version each: the older one is all that is kept. -/
theorem mergeNeedleStreams_loses :
    Popped [[versionAt 100], [versionAt 101]] [(0, versionAt 100), (1, versionAt 101)] ∧
      mergeNeedleStreams [(0, versionAt 100), (1, versionAt 101)] = [(0, versionAt 100)] := by
  refine ⟨.pop rfl (by simp [less, or_imp, forall_and]; decide)
      (.pop rfl (by simp [less]) (.done (by simp))), ?_⟩
  simp [mergeNeedleStreams, consumed, Window.moveTo]
  decide

/-! ## Errors of the streams -/

variable {ε : Type} {consume : Item → Option ε} {m m' : Merge ε}

/-- The errors that were read are none, and so are all when the merge has returned none. -/
structure NoError (m : Merge ε) : Prop where
  isSet : ∀ s ∈ m.streams, s.isSet = true → s.err = s.result
  read : ∀ i, m.phase = .errs i → ∀ j < i, ∀ s, m.streams[j]? = some s → s.result = none
  returned : m.phase = .returned none → ∀ s ∈ m.streams, s.result = none

variable {s s' : TailStream ε}

theorem NoError.set (h : NoError m) (hi : m.streams[i]? = some s)
    (hresult : s'.result = s.result) (hset : s'.isSet = true → s'.err = s'.result) :
    NoError { m with streams := m.streams.set i s' } := by
  refine ⟨fun x hx => ?_, fun k hk j hj x hx => ?_, fun hr x hx => ?_⟩
  · rcases List.mem_or_eq_of_mem_set hx with hx | rfl
    · exact h.isSet x hx
    · exact hset
  · rw [List.getElem?_set] at hx
    split at hx
    · next hij => grind [h.read k hk j hj s]
    · exact h.read k hk j hj x hx
  · rcases List.mem_or_eq_of_mem_set hx with hx | rfl
    · exact h.returned hr x hx
    · exact hresult.trans (h.returned hr s (List.mem_of_getElem? hi))

theorem NoError.move (h : NoError m) {heap : List Item} {window : Window} {phase : Phase ε}
    (hphase : ∀ i, phase = .errs i → i = 0) (hreturned : phase ≠ .returned none) :
    NoError { m with heap := heap, window := window, phase := phase } :=
  ⟨h.isSet, fun i hi j hj => by rw [hphase i hi] at hj; omega, fun hr => absurd hr hreturned⟩

/-- No error is read before the goroutine of the stream has set it. -/
def Waits (m m' : Merge ε) : Prop :=
  ∀ i s, m.phase = .errs i → m'.phase ≠ .errs i → m.streams[i]? = some s → s.isSet = true

theorem NoError.next (h : NoError m) {n : Option Needle}
    (hi : m.streams[i]? = some s) (hnext : s.next? = some (n, s')) :
    NoError { m with streams := m.streams.set i s' } := by
  have hset := h.isSet s (mem_of_getElem? hi)
  unfold TailStream.next? at hnext
  split at hnext
  · cases hnext
    exact h.set hi rfl hset
  · split at hnext
    · cases hnext
      exact h.set hi rfl hset
    · cases hnext

theorem NoError.step (h : NoError m) (hstep : Step consume m m') (hwaits : Waits m m') : NoError m' := by
  cases hstep with
  | @send i s _ _ hi => exact h.set hi rfl (h.isSet s (mem_of_getElem? hi))
  | @close i s hi => exact h.set hi rfl (h.isSet s (mem_of_getElem? hi))
  | setErr hi => exact h.set hi rfl fun _ => rfl
  | first _ hi hnext => exact (h.next hi hnext).move (by simp) (by simp)
  | refill _ hi hnext => exact (h.next hi hnext).move (by simp) (by simp)
  | start => exact h.move (by simp) (by simp)
  | skip => exact h.move (by simp) (by simp)
  | consume => exact h.move (by split <;> simp) (by split <;> simp)
  | finish => exact h.move (by simp) (by simp)
  | @err i s hphase hi =>
    have hset := h.isSet s (mem_of_getElem? hi) (hwaits i s hphase (by dsimp only; split <;> simp) hi)
    cases herr : s.err with
    | some err => exact h.move (by simp) (by simp)
    | none =>
      refine ⟨h.isSet, fun k hk j hj s' hs' => ?_, by simp⟩
      cases hk
      rcases Nat.lt_succ_iff_lt_or_eq.1 hj with hj | rfl
      · exact h.read i hphase j hj s' hs'
      · rw [← some.inj (hi.symm.trans hs'), ← hset, herr]
  | done hphase =>
    refine ⟨h.isSet, by simp, fun _ s hs => ?_⟩
    obtain ⟨j, hj, rfl⟩ := mem_iff_getElem.1 hs
    exact h.read _ hphase j hj _ (getElem?_eq_getElem hj)

/-- **A merge of a truncated stream fails** when no error is read before it is set. -/
theorem merge_returns_error {streams : List (TailStream ε)} (hfresh : ∀ s ∈ streams, s.isSet = false)
    (hrun : Relation.ReflTransGen (fun m m' => Step consume m m' ∧ Waits m m') { streams } m)
    {s : TailStream ε} (hs : s ∈ m.streams) (herr : s.result ≠ none) {err : Option ε}
    (hreturned : m.phase = .returned err) : err ≠ none := by
  have h : NoError m := by
    clear hs hreturned
    induction hrun with
    | refl => exact ⟨fun s hs hset => by simp [hfresh s hs] at hset, by simp, by simp⟩
    | tail _ hstep ih => exact ih.step hstep.1 hstep.2
  rintro rfl
  exact herr (h.returned hreturned s hs)

/-- A needle is consumed before the stream fails. -/
theorem merge_returns_error_set : ∃ m : Merge Unit,
    Relation.ReflTransGen (fun m m' => Step (fun _ => none) m m' ∧ Waits m m')
      { streams := [{ pending := [{}], result := some () }] } m ∧
    m.window.seen 0 = some 0 ∧ ∃ err, m.phase = .returned err ∧ err ≠ none := by
  let failed : TailStream Unit := { pending := [], result := some (), closed := true, err := some (), isSet := true }
  let w : Window := ⟨Function.update (fun _ => none) 0 (some 0), some 0⟩
  have hread : Waits { streams := [failed], window := w, phase := .errs 0 }
      { streams := [failed], window := w, phase := .returned (some ()) } := by
    rintro i s ⟨⟩ - ⟨⟩
    rfl
  have hrun : Relation.ReflTransGen (fun m m' => Step (fun _ => none) m m' ∧ Waits m m')
      { streams := [{ pending := [{}], result := some () }] }
      { streams := [failed], window := w, phase := .returned (some ()) } :=
    .head ⟨.send (i := 0) rfl rfl (by decide), nofun⟩ (.head ⟨.first (i := 0) rfl rfl rfl, nofun⟩
    (.head ⟨.start rfl, nofun⟩ (.head ⟨.consume rfl (mem_singleton_self _) (by simp [less]) rfl, nofun⟩
    (.head ⟨.close (i := 0) rfl rfl, nofun⟩ (.head ⟨.setErr (i := 0) rfl rfl, nofun⟩
    (.head ⟨.refill (i := 0) rfl rfl rfl, nofun⟩ (.head ⟨.finish rfl rfl, nofun⟩
    (.single ⟨.err (i := 0) (s := failed) rfl rfl, hread⟩))))))))
  exact ⟨_, hrun, rfl, _, rfl, merge_returns_error (by simp) hrun (mem_singleton_self _) (by simp [failed]) rfl⟩

/-- A stream whose goroutine fails before the first needle. -/
def failing (closed : Bool) : TailStream Unit := { pending := [], result := some (), closed }

/-- The channel of a stream that failed is closed, the merge reads that it has no error, and returns none. -/
theorem merge_misses_error :
    Relation.ReflTransGen (Step fun _ => none) { streams := [failing false] }
      ({ streams := [failing true], phase := .returned none } : Merge Unit) :=
  .head (.close (i := 0) rfl rfl) (.head (.first (i := 0) rfl rfl rfl) (.head (.start rfl) (.head (.finish rfl rfl)
    (.head (.err (i := 0) rfl rfl) (.single (.done rfl))))))

end Shell
