import SeaweedFS.Lib.Layers
import SeaweedFS.Mount.PageWriter.IntervalList

/-!
# What the written intervals say

`IsList list items`: the cells between the sentinels of `list` are linked in both directions and hold `items`.
After any calls the intervals show at every position the stamp of the last call over it
(**`markWritten_last`**).
-/

namespace PageWriter

open Lib List ChunkWrittenIntervalList Heap Nat Option

variable {i : ChunkWrittenInterval}

instance : Layer ChunkWrittenInterval where
  lo i := i.startOffset.toInt
  hi i := i.stopOffset.toInt
  ts i := i.tsNs.toInt

theorem covers_written {x : Int} :
    Covers i x ↔ i.startOffset.toInt ≤ x ∧ x < i.stopOffset.toInt := Iff.rfl

theorem lo_written (i : ChunkWrittenInterval) : lo i = i.startOffset.toInt := rfl

theorem hi_written (i : ChunkWrittenInterval) : hi i = i.stopOffset.toInt := rfl

/-! ## Laying an interval over others -/

/-- The stamp that the intervals show at `x`. -/
def stampAt (l : List ChunkWrittenInterval) (x : Int) : Option Int64 :=
  (seek l x).map ChunkWrittenInterval.tsNs

theorem stampAt_eq_some {l : List ChunkWrittenInterval} (h : Ordered l) {x : Int} {t : Int64} :
    stampAt l x = some t ↔ ∃ i ∈ l, Covers i x ∧ i.tsNs = t := by
  rw [stampAt, map_eq_some_iff]
  constructor
  · rintro ⟨i, hi, ht⟩
    obtain ⟨hmem, hc⟩ := (seek_eq_some h).1 hi
    exact ⟨i, hmem, hc, ht⟩
  · rintro ⟨i, hmem, hc, ht⟩
    exact ⟨i, (seek_eq_some h).2 ⟨hmem, hc⟩, ht⟩

/-- What stays of the first interval that `new` meets. -/
def leftOf (mid : List ChunkWrittenInterval) (new : ChunkWrittenInterval) :
    List ChunkWrittenInterval :=
  (mid.head?.filter (·.startOffset < new.startOffset)).toList.map
    fun m => { m with stopOffset := new.startOffset }

/-- What stays of the last interval that `new` meets. -/
def rightOf (mid : List ChunkWrittenInterval) (new : ChunkWrittenInterval) :
    List ChunkWrittenInterval :=
  (mid.getLast?.filter (new.stopOffset < ·.stopOffset)).toList.map
    fun m => { m with startOffset := new.stopOffset }

variable {before mid behind : List ChunkWrittenInterval} {new : ChunkWrittenInterval}

theorem mem_leftOf : i ∈ leftOf mid new ↔ ∃ m rest, mid = m :: rest ∧ m.startOffset < new.startOffset ∧
      { m with stopOffset := new.startOffset } = i := by
  unfold leftOf
  cases mid with
  | nil => simp
  | cons m rest =>
    by_cases hlt : m.startOffset < new.startOffset
    · simp [hlt]
    · simp [hlt]

theorem mem_rightOf : i ∈ rightOf mid new ↔
    ∃ m rest, mid = rest ++ [m] ∧ new.stopOffset < m.stopOffset ∧
      { m with startOffset := new.stopOffset } = i := by
  unfold rightOf
  rcases eq_nil_or_concat mid with rfl | ⟨rest, m, rfl⟩
  · simp
  · by_cases hlt : new.stopOffset < m.stopOffset
    · simp [hlt]
    · simp [hlt]

/-- The intervals that `new` meets are those in the middle. -/
structure Meets (before mid behind : List ChunkWrittenInterval) (new : ChunkWrittenInterval) :
    Prop where
  ordered : Ordered (before ++ mid ++ behind)
  pos : lo new < hi new
  before : ∀ i ∈ before, hi i ≤ lo new
  mid : ∀ i ∈ mid, lo new < hi i ∧ lo i < hi new
  behind : ∀ i ∈ behind, hi new ≤ lo i

theorem Meets.first (h : Meets before mid behind new) (hi : i ∈ mid)
    (hlt : lo i < lo new) : ∃ rest, mid = i :: rest := by
  cases mid with
  | nil => cases hi
  | cons m rest =>
    rcases List.mem_cons.1 hi with rfl | hi
    · exact ⟨rest, rfl⟩
    · have := (h.mid m mem_cons_self).1
      have hord := (ordered_append.1 (ordered_append.1 h.ordered).1).2.1
      have := (ordered_cons.1 hord).2.2 i hi
      omega

theorem Meets.last (h : Meets before mid behind new) (hmem : i ∈ mid)
    (hlt : hi new < hi i) : ∃ rest, mid = rest ++ [i] := by
  rcases eq_nil_or_concat mid with rfl | ⟨rest, m, hrest⟩
  · cases hmem
  · rw [concat_eq_append] at hrest
    subst hrest
    rcases List.mem_append.1 hmem with hmem | hmem
    · have := (h.mid m (by simp)).2
      have hord := (ordered_append.1 (ordered_append.1 h.ordered).1).2.1
      have := (ordered_append.1 hord).2.2 i hmem m (List.mem_singleton.2 rfl)
      omega
    · exact ⟨rest, by rw [List.mem_singleton.1 hmem]⟩

theorem leftOf_spec (hi' : i ∈ leftOf mid new) :
    ∃ m ∈ mid, lo i = lo m ∧ hi i = lo new ∧ lo m < lo new ∧ i.tsNs = m.tsNs := by
  obtain ⟨m, rest, rfl, hlt, rfl⟩ := mem_leftOf.1 hi'
  exact ⟨m, mem_cons_self, rfl, rfl, Int64.lt_iff_toInt_lt.1 hlt, rfl⟩

theorem rightOf_spec (hi' : i ∈ rightOf mid new) :
    ∃ m ∈ mid, lo i = hi new ∧ hi i = hi m ∧ hi new < hi m ∧ i.tsNs = m.tsNs := by
  obtain ⟨m, rest, rfl, hlt, rfl⟩ := mem_rightOf.1 hi'
  exact ⟨m, by simp, rfl, rfl, Int64.lt_iff_toInt_lt.1 hlt, rfl⟩

theorem ordered_toList {m? : Option ChunkWrittenInterval} {f : ChunkWrittenInterval → ChunkWrittenInterval}
    (h : ∀ i ∈ m?.toList.map f, lo i < hi i) : Ordered (m?.toList.map f) := by
  refine ⟨h, ?_⟩
  cases m? with
  | none => exact .nil
  | some m => exact pairwise_singleton _ _

theorem ordered_leftOf : Ordered (leftOf mid new) := by
  refine ordered_toList fun i hi => ?_
  obtain ⟨m, -, hlo, hhi, hlt, -⟩ := leftOf_spec hi
  omega

theorem ordered_rightOf : Ordered (rightOf mid new) := by
  refine ordered_toList fun i hi => ?_
  obtain ⟨m, -, hlo, hhi, hlt, -⟩ := rightOf_spec hi
  omega

theorem Meets.ordered_laid (h : Meets before mid behind new) :
    Ordered (before ++ (leftOf mid new ++ new :: rightOf mid new) ++ behind) := by
  obtain ⟨hbm, hbehind, hlast⟩ := ordered_append.1 h.ordered
  obtain ⟨hbefore, -, hfirst⟩ := ordered_append.1 hbm
  refine ((hbefore.append (ordered_leftOf.append
    (Ordered.cons h.pos ordered_rightOf ?_) ?_) ?_).append hbehind ?_)
  · intro i hi'
    obtain ⟨m, -, hlo, -, -, -⟩ := rightOf_spec hi'
    omega
  · intro i hi'
    obtain ⟨m, hm, -, hhi, -, -⟩ := leftOf_spec hi'
    have hpos := h.pos
    refine forall_mem_cons.2 ⟨by omega, fun j hj => ?_⟩
    obtain ⟨m', -, hlo, -, -, -⟩ := rightOf_spec hj
    omega
  · intro i hi'
    have hpos := h.pos
    have hend := h.before i hi'
    refine forall_mem_append.2 ⟨fun j hj => ?_, forall_mem_cons.2 ⟨hend, fun j hj => ?_⟩⟩
    · obtain ⟨m, hm, hlo, -, -, -⟩ := leftOf_spec hj
      have := hfirst i hi' m hm
      omega
    · obtain ⟨m', -, hlo, -, -, -⟩ := rightOf_spec hj
      omega
  · have hpos := h.pos
    refine forall_mem_append.2 ⟨fun i hi' j hj => ?_, forall_mem_append.2
      ⟨fun i hi' j hj => ?_, forall_mem_cons.2 ⟨h.behind, fun i hi' j hj => ?_⟩⟩⟩
    · have := h.before i hi'
      have := h.behind j hj
      omega
    · obtain ⟨m, -, -, hhi, -, -⟩ := leftOf_spec hi'
      have := h.behind j hj
      omega
    · obtain ⟨m, hm, -, hhi, -, -⟩ := rightOf_spec hi'
      have := hlast m (mem_append_right _ hm) j hj
      omega

/-- **Laying `new` over the others** changes the stamps under it. -/
theorem Meets.stampAt_laid (h : Meets before mid behind new) (x : Int) :
    stampAt (before ++ (leftOf mid new ++ new :: rightOf mid new) ++ behind) x =
      if lo new ≤ x ∧ x < hi new then some new.tsNs else stampAt (before ++ mid ++ behind) x := by
  refine ext fun t => ?_
  rw [stampAt_eq_some h.ordered_laid]
  by_cases hx : lo new ≤ x ∧ x < hi new
  · rw [if_pos hx, some.injEq, ← some.injEq, ← stampAt_eq_some h.ordered_laid]
    have hnew : stampAt (before ++ (leftOf mid new ++ new :: rightOf mid new) ++ behind) x =
        some new.tsNs := (stampAt_eq_some h.ordered_laid).2 ⟨new, by simp, hx, rfl⟩
    rw [hnew]
  · rw [if_neg hx, stampAt_eq_some h.ordered]
    constructor
    · rintro ⟨i, hmem, hc, ht⟩
      simp only [mem_append, List.mem_cons] at hmem
      obtain ⟨hc1, hc2⟩ := hc
      rcases hmem with (hmem | hmem | rfl | hmem) | hmem
      · exact ⟨i, by simp [hmem], ⟨hc1, hc2⟩, ht⟩
      · obtain ⟨m, hm, hlo, hhi, -, hts⟩ := leftOf_spec hmem
        have := (h.mid m hm).1
        exact ⟨m, by simp [hm], ⟨by omega, by omega⟩, hts ▸ ht⟩
      · exact absurd ⟨hc1, hc2⟩ hx
      · obtain ⟨m, hm, hlo, hhi, -, hts⟩ := rightOf_spec hmem
        have := (h.mid m hm).2
        exact ⟨m, by simp [hm], ⟨by omega, by omega⟩, hts ▸ ht⟩
      · exact ⟨i, by simp [hmem], ⟨hc1, hc2⟩, ht⟩
    · rintro ⟨i, hmem, hc, ht⟩
      rcases List.mem_append.1 hmem with hmem | hmem
      · rcases List.mem_append.1 hmem with hmem | hmem
        · exact ⟨i, by simp [hmem], hc, ht⟩
        -- Outside of `new` an interval of the middle is shown by what stays of it.
        · obtain ⟨hc1, hc2⟩ := hc
          by_cases hleft : x < lo new
          · obtain ⟨rest, rfl⟩ := h.first hmem (by omega)
            refine ⟨{ i with stopOffset := new.startOffset }, ?_, ⟨hc1, hleft⟩, ht⟩
            have hlt : i.startOffset < new.startOffset :=
              Int64.lt_iff_toInt_lt.2 (Int.lt_of_le_of_lt hc1 hleft)
            have := mem_leftOf.2 ⟨i, rest, rfl, hlt, rfl⟩
            simp only [mem_append]
            exact .inl (.inr (.inl this))
          · obtain ⟨rest, rfl⟩ := h.last hmem (by omega)
            have hge : hi new ≤ x := by omega
            refine ⟨{ i with startOffset := new.stopOffset }, ?_, ⟨hge, hc2⟩, ht⟩
            have hlt : new.stopOffset < i.stopOffset :=
              Int64.lt_iff_toInt_lt.2 (Int.lt_of_le_of_lt hge hc2)
            have := mem_rightOf.2 ⟨i, rest, rfl, hlt, rfl⟩
            simp only [mem_append]
            exact .inl (.inr (.inr (.tail _ this)))
      · exact ⟨i, by simp [hmem], hc, ht⟩

/-! ## The links -/

/-- The cells between the sentinels of `list` hold `items`, each at its address. -/
structure IsList (list : ChunkWrittenIntervalList) (items : List (Nat × ChunkWrittenInterval)) :
    Prop where
  linked : list.heap.Linked (list.head :: items.map Prod.fst ++ [list.tail])
  nodup : (list.head :: items.map Prod.fst ++ [list.tail]).Nodup
  vals : ∀ i ∈ items, list.heap.val i.1 = some i.2
  head : list.heap.val list.head = some { startOffset := -1, stopOffset := -1 }
  tail : list.heap.val list.tail =
    some { startOffset := Int64.maxValue, stopOffset := Int64.maxValue }
  first : list.heap.prev list.head = none
  last : list.heap.next list.tail = none

theorem isList_new : IsList newChunkWrittenIntervalList [] where
  linked := ⟨rfl, rfl, trivial⟩
  nodup := by decide
  vals := by simp
  head := rfl
  tail := rfl
  first := rfl
  last := rfl

namespace ChunkWrittenIntervalList

variable {heap : Heap ChunkWrittenInterval} {p q : Nat} {fuel : Nat}

variable {v : ChunkWrittenInterval}

/-- The first loop stops at the last of the intervals that end by `startOffset`. -/
theorem skipBefore_eq {startOffset : Int64} {before : List (Nat × ChunkWrittenInterval)} {next : Nat}
    (hlinked : heap.Linked (p :: before.map Prod.fst ++ [next]))
    (hvals : ∀ i ∈ before, heap.val i.1 = some i.2 ∧ i.2.stopOffset ≤ startOffset)
    (hnext : heap.val next = some v) (hv : ¬ v.stopOffset ≤ startOffset)
    (hfuel : before.length < fuel) :
    skipBefore heap startOffset fuel p = some ((before.map Prod.fst).getLastD p) := by
  induction before generalizing p fuel with
  | nil =>
    obtain ⟨fuel, rfl⟩ := exists_eq_add_one.2 hfuel
    unfold skipBefore
    rw [hlinked.1]
    dsimp only
    rw [hnext]
    exact if_neg hv
  | cons i before ih =>
    obtain ⟨fuel, rfl⟩ := exists_eq_add_one.2 (lt_of_le_of_lt (zero_le _) hfuel)
    obtain ⟨hval, hle⟩ := hvals i mem_cons_self
    unfold skipBefore
    rw [hlinked.1]
    dsimp only
    rw [hval]
    refine (if_pos hle).trans ?_
    rw [ih hlinked.2.2 (fun j hj => hvals j (.tail _ hj)) (lt_of_succ_lt_succ hfuel), map_cons,
      getLastD_cons]

/-- The second loop stops at the first of the intervals that begin from `stopOffset` on. -/
theorem skipBehind_eq {stopOffset : Int64} {behind : List (Nat × ChunkWrittenInterval)} {prev : Nat}
    (hlinked : heap.Linked (prev :: behind.map Prod.fst ++ [q]))
    (hvals : ∀ i ∈ behind, heap.val i.1 = some i.2 ∧ i.2.startOffset ≥ stopOffset)
    (hprev : heap.val prev = some v) (hv : ¬ v.startOffset ≥ stopOffset)
    (hfuel : behind.length < fuel) :
    skipBehind heap stopOffset fuel q = some ((behind.map Prod.fst).headD q) := by
  induction behind using List.reverseRecOn generalizing q fuel with
  | nil =>
    obtain ⟨fuel, rfl⟩ := exists_eq_add_one.2 hfuel
    unfold skipBehind
    rw [hlinked.2.1]
    dsimp only
    rw [hprev]
    exact if_neg hv
  | append_singleton behind i ih =>
    rw [length_append, length_singleton] at hfuel
    obtain ⟨fuel, rfl⟩ := exists_eq_add_one.2 (lt_of_le_of_lt (zero_le _) hfuel)
    obtain ⟨hval, hle⟩ := hvals i (by simp)
    rw [map_append, ← cons_append, append_assoc] at hlinked
    obtain ⟨hrest, hlast⟩ := linked_append.1 hlinked
    unfold skipBehind
    rw [hlast.2.1]
    dsimp only
    rw [hval]
    refine (if_pos hle).trans ?_
    rw [ih hrest (fun j hj => hvals j (by simp [hj])) (lt_of_succ_lt_succ hfuel)]
    cases behind with
    | nil => rfl
    | cons j behind => rfl

theorem spliced_linkLeft {interval : Nat} (pNext new : ChunkWrittenInterval) (hp : p < heap.length)
    (hi : interval < heap.length) : Heap.Spliced heap (linkLeft heap p interval pNext new) p
      (if pNext.startOffset < new.startOffset then
        [(heap.length, { pNext with stopOffset := new.startOffset })] else []) interval := by
  unfold linkLeft
  split
  · exact spliced_alloc hp hi _
  · exact spliced_link hp hi

theorem spliced_linkRight {interval : Nat} (qPrev new : ChunkWrittenInterval) (hq : q < heap.length)
    (hi : interval < heap.length) : Heap.Spliced heap (linkRight heap q interval qPrev new) interval
      (if new.stopOffset < qPrev.stopOffset then
        [(heap.length, { qPrev with startOffset := new.stopOffset })] else []) q := by
  unfold linkRight
  split
  · rw [Heap.link_comm _ (Nat.ne_of_lt hi) (Nat.ne_of_lt hq)]
    exact spliced_alloc hi hq _
  · exact spliced_link hi hq

end ChunkWrittenIntervalList

variable {list : ChunkWrittenIntervalList} {items : List (Nat × ChunkWrittenInterval)}

theorem IsList.val_of_mem (h : IsList list items) {r : Nat}
    (hr : r ∈ list.head :: items.map Prod.fst ++ [list.tail]) : ∃ v, list.heap.val r = some v := by
  rcases List.mem_append.1 hr with hr | hr
  · rcases List.mem_cons.1 hr with rfl | hr
    · exact ⟨_, h.head⟩
    · obtain ⟨i, hi, rfl⟩ := List.mem_map.1 hr
      exact ⟨_, h.vals i hi⟩
  · rw [List.mem_singleton.1 hr]
    exact ⟨_, h.tail⟩

theorem IsList.lt (h : IsList list items) {r : Nat}
    (hr : r ∈ list.head :: items.map Prod.fst ++ [list.tail]) : r < list.heap.length := by
  obtain ⟨v, hv⟩ := h.val_of_mem hr
  exact lt_of_val hv

/-- There are at least as many cells as intervals, so that the loops do not run out. -/
theorem IsList.length_le (h : IsList list items) : items.length + 2 ≤ list.heap.length := by
  have hsub : (list.head :: items.map Prod.fst ++ [list.tail]).toFinset ⊆
      Finset.range list.heap.length := by
    intro r hr
    exact Finset.mem_range.2 (h.lt (List.mem_toFinset.1 hr))
  have hcard := Finset.card_le_card hsub
  rw [toFinset_card_of_nodup h.nodup, Finset.card_range] at hcard
  simp only [length_append, length_cons, length_map] at hcard
  omega

theorem getLastD_eq (d : Nat) (l : List Nat) : ∃ left, d :: l = left ++ [l.getLastD d] := by
  induction l generalizing d with
  | nil => exact ⟨[], rfl⟩
  | cons a l ih =>
    obtain ⟨left, hleft⟩ := ih a
    exact ⟨d :: left, by rw [getLastD_cons, hleft]; rfl⟩

theorem headD_eq (d : Nat) (l : List Nat) : ∃ right, l ++ [d] = l.headD d :: right := by
  cases l with
  | nil => exact ⟨[], rfl⟩
  | cons a l => exact ⟨l ++ [d], rfl⟩

variable {before mid behind : List (Nat × ChunkWrittenInterval)}

theorem refs_eq (list : ChunkWrittenIntervalList) (before mid behind : List (Nat × ChunkWrittenInterval)) :
    ∃ left right, list.head :: (before ++ mid ++ behind).map Prod.fst ++ [list.tail] =
        left ++ (before.map Prod.fst).getLastD list.head :: mid.map Prod.fst ++
          (behind.map Prod.fst).headD list.tail :: right ∧
      list.head :: before.map Prod.fst = left ++ [(before.map Prod.fst).getLastD list.head] ∧
      behind.map Prod.fst ++ [list.tail] = (behind.map Prod.fst).headD list.tail :: right := by
  obtain ⟨left, hleft⟩ := getLastD_eq list.head (before.map Prod.fst)
  obtain ⟨right, hright⟩ := headD_eq list.tail (behind.map Prod.fst)
  refine ⟨left, right, ?_, hleft, hright⟩
  rw [map_append, map_append, ← hright, ← append_assoc, append_assoc left,
    ← cons_append, ← cons_append, hleft]
  simp

theorem IsList.splice (h : IsList list (before ++ mid ++ behind)) {h2 : Heap ChunkWrittenInterval}
    {laid : List (Nat × ChunkWrittenInterval)}
    (hs : Heap.Spliced list.heap h2 ((before.map Prod.fst).getLastD list.head) laid
      ((behind.map Prod.fst).headD list.tail)) :
    IsList { list with heap := h2 } (before ++ laid ++ behind) := by
  obtain ⟨left, right, hrefs, hleft, hright⟩ := refs_eq list before mid behind
  obtain ⟨left', right', hrefs', hleft', hright'⟩ := refs_eq list before laid behind
  obtain rfl : left = left' := (append_inj' (hleft.symm.trans hleft') rfl).1
  obtain rfl : right = right' := (List.cons.inj (hright.symm.trans hright')).2
  have hnodup := h.nodup
  have hlinked := h.linked
  have hlt : ∀ r ∈ _, r < list.heap.length := fun r hr => h.lt hr
  have hhead : list.head ∈ left ++ [(before.map Prod.fst).getLastD list.head] := by
    rw [← hleft]
    exact mem_cons_self
  have htail : list.tail ∈ (behind.map Prod.fst).headD list.tail :: right := by
    rw [← hright]
    simp
  rw [hrefs] at hnodup hlinked hlt
  generalize (before.map Prod.fst).getLastD list.head = p at *
  generalize (behind.map Prod.fst).headD list.tail = q at *
  have hsub : List.Sublist ((left ++ [p]) ++ q :: right) (left ++ p :: mid.map Prod.fst ++ q :: right) := by
    rw [append_assoc, append_assoc]
    exact ((sublist_append_right (mid.map Prod.fst) (q :: right)).cons_cons p).append_left left
  obtain ⟨hnodupL, hnodupR, hne⟩ := List.nodup_append.1 (hnodup.sublist hsub)
  have hfresh : ∀ r ∈ (left ++ [p]) ++ q :: right, ∀ i ∈ laid, r < i.1 := fun r hr i hi =>
    lt_of_lt_of_le (hlt r (hsub.subset hr)) (hs.fresh i hi)
  refine ⟨?_, ?_, ?_, hs.val _ _ h.head, hs.val _ _ h.tail, ?_, ?_⟩
  · rw [hrefs']
    exact hlinked.splice hnodup hlt hs
  · rw [hrefs', append_assoc, cons_append, ← singleton_append, ← append_assoc, nodup_append]
    refine ⟨hnodupL, List.nodup_append.2 ⟨hs.nodup, hnodupR, fun r hr r' hr' => ?_⟩,
      fun r hr r' hr' => ?_⟩
    · obtain ⟨i, hi, rfl⟩ := List.mem_map.1 hr
      exact ne_of_gt (hfresh r' (mem_append_right _ hr') i hi)
    · rcases List.mem_append.1 hr' with hr' | hr'
      · obtain ⟨i, hi, rfl⟩ := List.mem_map.1 hr'
        exact Nat.ne_of_lt (hfresh r (mem_append_left _ hr) i hi)
      · exact hne r hr r' hr'
  · exact forall_mem_append.2 ⟨forall_mem_append.2 ⟨fun i hi => hs.val _ _ (h.vals i (by simp [hi])), hs.vals⟩,
      fun i hi => hs.val _ _ (h.vals i (by simp [hi]))⟩
  · have hheadNe : list.head ≠ q := hne _ hhead _ mem_cons_self
    rw [hs.prev _ (lt_of_val h.head) hheadNe, h.first]
  · have htailNe : list.tail ≠ p := (hne p (by simp) _ htail).symm
    rw [hs.next _ (lt_of_val h.tail) htailNe, h.last]

section
variable (h : IsList list (before ++ mid ++ behind))
  (hm : Meets (before.map Prod.snd) (mid.map Prod.snd) (behind.map Prod.snd) new) (hstop : 0 ≤ hi new)
include h hm

theorem IsList.val_right : ∃ v, list.heap.val ((behind.map Prod.fst).headD list.tail) = some v ∧
    lo new < lo v ∧ lo new < hi v := by
  have hpos := hm.pos
  cases behind with
  | nil =>
    have hmax : hi new ≤ 2 ^ 63 - 1 := Int.le_sub_one_of_lt (Int64.toInt_lt new.stopOffset)
    refine ⟨_, h.tail, ?_, ?_⟩
    · show lo new < Int64.maxValue.toInt
      rw [Int64.toInt_maxValue]
      omega
    · show lo new < Int64.maxValue.toInt
      rw [Int64.toInt_maxValue]
      omega
  | cons i rest =>
    have hstart := hm.behind i.2 (by simp)
    have hpos' := hm.ordered.pos i.2 (by simp)
    exact ⟨i.2, h.vals i (by simp), by omega, by omega⟩

theorem IsList.next_left :
    ∃ v, list.heap.val ((mid.map Prod.fst).headD ((behind.map Prod.fst).headD list.tail)) = some v ∧
      lo new < hi v ∧ leftOf (mid.map Prod.snd) new =
        if v.startOffset < new.startOffset then [{ v with stopOffset := new.startOffset }] else [] := by
  cases mid with
  | nil =>
    obtain ⟨v, hv, hlo, hhi⟩ := h.val_right hm
    refine ⟨v, hv, hhi, (if_neg fun hlt => ?_).symm⟩
    have := Int64.lt_iff_toInt_lt.1 hlt
    rw [lo_written, lo_written] at hlo
    omega
  | cons m rest =>
    refine ⟨m.2, h.vals m (by simp), (hm.mid m.2 (by simp)).1, ?_⟩
    rw [leftOf, map_cons, head?_cons, filter_some]
    simp only [decide_eq_true_eq]
    split <;> rfl

include hstop

theorem IsList.val_left : ∃ v, list.heap.val ((before.map Prod.fst).getLastD list.head) = some v ∧
    hi v < hi new ∧ lo v < hi new := by
  rcases eq_nil_or_concat before with rfl | ⟨rest, i, rfl⟩
  · refine ⟨_, h.head, ?_, ?_⟩
    · show (-1 : Int) < hi new
      omega
    · show (-1 : Int) < hi new
      omega
  · rw [concat_eq_append] at *
    have hval := h.vals i (by simp)
    have hend := hm.before i.2 (by simp)
    have hpos := hm.pos
    have hpos' := hm.ordered.pos i.2 (by simp)
    refine ⟨i.2, ?_, by omega, by omega⟩
    rw [map_append, map_singleton, getLastD_concat]
    exact hval

theorem IsList.prev_right :
    ∃ v, list.heap.val ((mid.map Prod.fst).getLastD ((before.map Prod.fst).getLastD list.head)) =
        some v ∧ lo v < hi new ∧ rightOf (mid.map Prod.snd) new =
        if new.stopOffset < v.stopOffset then [{ v with startOffset := new.stopOffset }] else [] := by
  rcases eq_nil_or_concat mid with rfl | ⟨rest, m, rfl⟩
  · obtain ⟨v, hv, hhi, hlo⟩ := h.val_left hm hstop
    refine ⟨v, hv, hlo, (if_neg fun hlt => ?_).symm⟩
    have := Int64.lt_iff_toInt_lt.1 hlt
    rw [hi_written, hi_written] at hhi
    omega
  · rw [concat_eq_append] at *
    refine ⟨m.2, ?_, (hm.mid m.2 (by simp)).2, ?_⟩
    · rw [map_append, map_singleton, getLastD_concat]
      exact h.vals m (by simp)
    · rw [rightOf, map_append, map_singleton, getLast?_concat, filter_some]
      simp only [decide_eq_true_eq]
      split <;> rfl

theorem IsList.loops {p q : Nat} (hp : (before.map Prod.fst).getLastD list.head = p)
    (hq : (behind.map Prod.fst).headD list.tail = q) :
    ChunkWrittenIntervalList.skipBefore (list.heap.alloc new) new.startOffset
      (list.heap.alloc new).length list.head = some p ∧
    ChunkWrittenIntervalList.skipBehind (list.heap.alloc new) new.stopOffset
      (list.heap.alloc new).length list.tail = some q ∧
    (list.heap.alloc new).next p = some ((mid.map Prod.fst).headD q) ∧
    (list.heap.alloc new).prev q = some ((mid.map Prod.fst).getLastD p) := by
  have hfuel := h.length_le
  simp only [length_append] at hfuel
  obtain ⟨left, right, hrefs, hleft, hright⟩ := refs_eq list before mid behind
  obtain ⟨vNext, hvNext, hnextLoop, -⟩ := h.next_left hm
  obtain ⟨vPrev, hvPrev, hprevLoop, -⟩ := h.prev_right hm hstop
  have halloc : ∀ {refs}, list.heap.Linked refs → (list.heap.alloc new).Linked refs := fun hl =>
    hl.congr (fun r _ => next_alloc _ _ r) fun r _ => prev_alloc _ _ r
  have hval : ∀ {r v}, list.heap.val r = some v → (list.heap.alloc new).val r = some v :=
    val_alloc_of_val new
  have hlinked := halloc h.linked
  rw [hp, hq] at hrefs
  rw [hrefs] at hlinked
  rw [hp] at hleft hvPrev
  rw [hq] at hright hvNext
  -- The list goes through `p`, the first interval in the middle, the last one and `q`.
  obtain ⟨r1, hr1⟩ := headD_eq q (mid.map Prod.fst)
  obtain ⟨l1, hl1⟩ := getLastD_eq p (mid.map Prod.fst)
  have hforward : (list.heap.alloc new).Linked
      (left ++ [p] ++ (mid.map Prod.fst).headD q :: (r1 ++ right)) := by
    have : left ++ p :: mid.map Prod.fst ++ q :: right =
        left ++ [p] ++ (mid.map Prod.fst ++ [q]) ++ right := by simp
    rw [this, hr1] at hlinked
    simpa using hlinked
  have hbackward : (list.heap.alloc new).Linked
      (left ++ l1 ++ (mid.map Prod.fst).getLastD p :: q :: right) := by
    rw [hl1] at hlinked
    simpa using hlinked
  refine ⟨?_, ?_, ?_, (linked_append.1 hbackward).2.2.1⟩
  · have hl := (linked_append.1 hforward).1
    rw [← hleft] at hl
    rw [skipBefore_eq hl (fun i hi => ⟨hval (h.vals i (by simp [hi])), ?_⟩)
      (hval hvNext) (fun hle => ?_) (by rw [length_alloc]; omega), hp]
    · exact Int64.le_iff_toInt_le.2 (hm.before i.2 (mem_map_of_mem hi))
    · exact absurd (Int64.le_iff_toInt_le.1 hle) (Int.not_le.2 hnextLoop)
  · have hl := (linked_append.1 hbackward).2
    rw [← hright, ← cons_append] at hl
    rw [skipBehind_eq hl (fun i hi => ⟨hval (h.vals i (by simp [hi])), ?_⟩)
      (hval hvPrev) (fun hle => ?_) (by rw [length_alloc]; omega), hq]
    · exact Int64.le_iff_toInt_le.2 (hm.behind i.2 (mem_map_of_mem hi))
    · exact absurd (Int64.le_iff_toInt_le.1 hle) (Int.not_le.2 hprevLoop)
  · rw [append_assoc] at hforward
    exact (linked_append.1 hforward).2.1

/-- `addInterval` puts the new interval, and what stays of the others, in the place of the middle. -/
theorem IsList.addInterval :
    ∃ list' laid, ChunkWrittenIntervalList.addInterval { list with heap := list.heap.alloc new }
        list.heap.length = some list' ∧ IsList list' (before ++ laid ++ behind) ∧
      laid.map Prod.snd = leftOf (mid.map Prod.snd) new ++ new :: rightOf (mid.map Prod.snd) new := by
  obtain ⟨vNext, hvNext, -, hleftOf⟩ := h.next_left hm
  obtain ⟨vPrev, hvPrev, -, hrightOf⟩ := h.prev_right hm hstop
  obtain ⟨vp, hvp, -⟩ := h.val_left hm hstop
  obtain ⟨vq, hvq, -⟩ := h.val_right hm
  have hsplice : ∀ h2 laid, Heap.Spliced list.heap h2 ((before.map Prod.fst).getLastD list.head) laid
      ((behind.map Prod.fst).headD list.tail) →
      IsList { list with heap := h2 } (before ++ laid ++ behind) := fun _ _ hs => h.splice hs
  have hval : ∀ {r v}, list.heap.val r = some v → (list.heap.alloc new).val r = some v :=
    val_alloc_of_val new
  obtain ⟨hskipBefore, hskipBehind, hnext, hprev⟩ := h.loops hm hstop rfl rfl
  generalize (before.map Prod.fst).getLastD list.head = p at *
  generalize (behind.map Prod.fst).headD list.tail = q at *
  have hp := lt_of_val hvp
  have hq := lt_of_val hvq
  have hlen : list.heap.length < (list.heap.alloc new).length := by simp
  have hs1 := spliced_linkLeft vNext new (lt_trans hp hlen) hlen
  generalize hh1 : linkLeft (list.heap.alloc new) p list.heap.length vNext new = h1 at hs1
  have hprev1 : h1.prev q = some ((mid.map Prod.fst).getLastD p) := by
    rw [hs1.prev q (Nat.lt_trans hq hlen) (Nat.ne_of_lt hq), hprev]
  have hvPrev1 := hs1.val _ _ (hval hvPrev)
  have hn1 : h1.val list.heap.length = some new :=
    hs1.val _ _ (by rw [val_alloc, if_pos rfl])
  have hs2 := spliced_linkRight vPrev new (lt_trans hq (lt_of_val hn1)) (lt_of_val hn1)
  generalize hh2 : linkRight h1 q list.heap.length vPrev new = h2 at hs2
  refine ⟨{ list with heap := h2 }, _, ?_, hsplice _ _ (hs1.trans hp hq hs2), ?_⟩
  · unfold ChunkWrittenIntervalList.addInterval
    rw [val_alloc, if_pos rfl]
    simp only [bind_eq_bind, bind_some, hskipBefore, hskipBehind, hnext, hval hvNext, hh1,
      hprev1, hvPrev1, hh2]
    rfl
  · rw [map_append, map_cons, hleftOf, hrightOf]
    congr 1
    · split <;> rfl
    · split <;> rfl

end

/-! ## Calls -/

/-- **Step.** A call lays its interval over the others; an empty one is passed over. -/
theorem IsList.markWritten (h : IsList list items) (hord : Ordered (items.map Prod.snd))
    {startOffset stopOffset : Int64} (hstop : startOffset < stopOffset → 0 ≤ stopOffset) (tsNs : Int64) :
    ∃ list' items', list.markWritten startOffset stopOffset tsNs = some list' ∧ IsList list' items' ∧
      Ordered (items'.map Prod.snd) ∧ (∀ x, stampAt (items'.map Prod.snd) x =
        if startOffset.toInt ≤ x ∧ x < stopOffset.toInt then some tsNs
        else stampAt (items.map Prod.snd) x) ∧
      (startOffset < stopOffset → ⟨startOffset, stopOffset, tsNs⟩ ∈ items'.map Prod.snd) := by
  unfold ChunkWrittenIntervalList.markWritten
  by_cases hlt : startOffset < stopOffset
  · obtain ⟨bv, mv, hv, hsplit, hbefore, hmid, hbehind⟩ :=
      hord.split startOffset.toInt stopOffset.toInt
    obtain ⟨rest, behind, rfl, hrest, rfl⟩ := List.map_eq_append_iff.1 hsplit
    obtain ⟨before, mid, rfl, rfl, rfl⟩ := List.map_eq_append_iff.1 hrest
    rw [map_append, map_append] at hord ⊢
    have hm : Meets (before.map Prod.snd) (mid.map Prod.snd) (behind.map Prod.snd)
        ⟨startOffset, stopOffset, tsNs⟩ :=
      ⟨hord, Int64.lt_iff_toInt_lt.1 hlt, hbefore, hmid, hbehind⟩
    obtain ⟨list', laid, hadd, hlist, hlaid⟩ :=
      h.addInterval hm (Int64.le_iff_toInt_le.1 (hstop hlt))
    refine ⟨list', before ++ laid ++ behind, ?_, hlist, ?_⟩
    · rw [if_neg (Int64.not_le.2 hlt)]
      exact hadd
    · rw [map_append, map_append, hlaid]
      exact ⟨hm.ordered_laid, hm.stampAt_laid, fun _ => by simp⟩
  · refine ⟨list, items, if_pos (Int64.not_lt.1 hlt), h, hord, fun x => ?_, fun h => absurd h hlt⟩
    rw [if_neg]
    rw [Int64.lt_iff_toInt_lt] at hlt
    omega

/-- A call of `MarkWritten`: start, stop and stamp. -/
abbrev MarkCall := Int64 × Int64 × Int64

/-- The calls, one after the other. -/
def markAll (calls : List MarkCall) : Option ChunkWrittenIntervalList :=
  calls.foldlM (fun list c => list.markWritten c.1 c.2.1 c.2.2) newChunkWrittenIntervalList

/-- **Run.** The last interval is still there. -/
theorem isList_markAll (calls : List MarkCall) (h : ∀ c ∈ calls, c.1 < c.2.1 → 0 ≤ c.2.1) :
    ∃ list items, markAll calls = some list ∧ IsList list items ∧ Ordered (items.map Prod.snd) ∧
      (∀ x, stampAt (items.map Prod.snd) x =
        (calls.reverse.find? fun c => c.1.toInt ≤ x ∧ x < c.2.1.toInt).map fun c => c.2.2) ∧
      ∀ c ∈ calls.getLast?, c.1 < c.2.1 → ⟨c.1, c.2.1, c.2.2⟩ ∈ items.map Prod.snd := by
  induction calls using List.reverseRecOn with
  | nil => exact ⟨_, [], rfl, isList_new, .nil, fun x => rfl, by simp⟩
  | append_singleton calls c ih =>
    obtain ⟨list, items, hrun, hlist, hord, hstamp, -⟩ := ih fun c' hc' => h c' (by simp [hc'])
    obtain ⟨list', items', hmark, hlist', hord', hstamp', hlast⟩ :=
      hlist.markWritten hord (h c (by simp)) c.2.2
    refine ⟨list', items', ?_, hlist', hord', fun x => ?_, by simpa using hlast⟩
    · rw [markAll] at hrun ⊢
      rw [foldlM_append, hrun, bind_eq_bind, bind_some, foldlM_cons, hmark]
      rfl
    · rw [hstamp', hstamp, reverse_append, reverse_singleton, singleton_append, find?_cons]
      by_cases hx : c.1.toInt ≤ x ∧ x < c.2.1.toInt
      · simp [hx]
      · simp [hx]

/-- The intervals are linked, ordered and disjoint, and show the stamp of the last call. -/
theorem markWritten_last (calls : List MarkCall) (h : ∀ c ∈ calls, c.1 < c.2.1 ∧ 0 ≤ c.2.1) :
    ∃ list items, markAll calls = some list ∧ IsList list items ∧ Ordered (items.map Prod.snd) ∧
      ∀ x, stampAt (items.map Prod.snd) x =
        (calls.reverse.find? fun c => c.1.toInt ≤ x ∧ x < c.2.1.toInt).map fun c => c.2.2 := by
  obtain ⟨list, items, hrun, hlist, hord, hstamp, -⟩ := isList_markAll calls fun c hc _ => (h c hc).2
  exact ⟨list, items, hrun, hlist, hord, hstamp⟩

/-- The third call cuts the intervals of the first two. -/
def cuttingCalls : List MarkCall := [(0, 10, 1), (20, 30, 2), (5, 25, 3)]

theorem markWritten_last_cutting :
    (∀ c ∈ cuttingCalls, c.1 < c.2.1 ∧ 0 ≤ c.2.1) ∧
    ∃ list items, markAll cuttingCalls = some list ∧ IsList list items ∧
      Ordered (items.map Prod.snd) ∧ ∀ x, stampAt (items.map Prod.snd) x =
        (cuttingCalls.reverse.find? fun c => c.1.toInt ≤ x ∧ x < c.2.1.toInt).map fun c => c.2.2 := by
  have h : ∀ c ∈ cuttingCalls, c.1 < c.2.1 ∧ 0 ≤ c.2.1 := by
    intro c hc
    simp only [cuttingCalls, List.mem_cons, not_mem_nil, or_false] at hc
    rcases hc with rfl | rfl | rfl <;> exact ⟨by decide, by decide⟩
  exact ⟨h, markWritten_last cuttingCalls h⟩

/-- An interval that ends before the first byte: the second loop passes the sentinel `head`, and
`q.prev` is nil. -/
theorem markWritten_negative : newChunkWrittenIntervalList.markWritten (-5) (-3) 1 = none :=
  isNone_iff_eq_none.1 (by decide +kernel)

end PageWriter
