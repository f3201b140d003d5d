import SeaweedFS.Filer.Proof.Section

/-!
# Reading through a `ChunkGroup`

`Loaded S loaded group`: `group` was made by `NewChunkGroup`, `SetChunks`, `AddChunk` and earlier reads, and `loaded`
are its data chunks. A section is present exactly when a chunk touches it (`GroupInv`).
-/

namespace Filer

open Lib List

variable {loaded : List FileChunk} {sections : Int → Option FileChunkSection} {S : SortFunc Point}

/-! ## The sections of a chunk -/

theorem mem_countFrom {i j : Int} {n : Nat} : j ∈ countFrom i n ↔ i ≤ j ∧ j < i + n := by
  induction n generalizing i with
  | zero => simp [countFrom]
  | succ n ih =>
    rw [countFrom, List.mem_cons, ih]
    omega

theorem nodup_countFrom (i : Int) (n : Nat) : (countFrom i n).Nodup := by
  induction n generalizing i with
  | zero => exact .nil
  | succ n ih =>
    refine List.nodup_cons.2 ⟨?_, ih (i + 1)⟩
    rw [mem_countFrom]
    omega

theorem sectionIndices_eq {start stop : Int} (h1 : 0 ≤ start) (h2 : 0 ≤ stop) :
    sectionIndices start stop =
      countFrom (start / sectionSize) (stop / sectionSize - start / sectionSize + 1).toNat := by
  rw [sectionIndices, Int.tdiv_eq_ediv_of_nonneg h1, Int.tdiv_eq_ediv_of_nonneg h2]

theorem mem_sectionIndices {start stop j : Int} (h1 : 0 ≤ start) (h2 : 0 ≤ stop) :
    j ∈ sectionIndices start stop ↔ start / sectionSize ≤ j ∧ j ≤ stop / sectionSize := by
  rw [sectionIndices_eq h1 h2, mem_countFrom]
  omega

theorem nodup_sectionIndices (start stop : Int) : (sectionIndices start stop).Nodup :=
  nodup_countFrom _ _

theorem foldl_setSection {l : List Int} (hl : l.Nodup) (f : FileChunkSection → FileChunkSection)
    (sections : Int → Option FileChunkSection) (j : Int) : l.foldl (fun sections si =>
      setSection sections si (f ((sections si).getD { sectionIndex := si }))) sections j =
    if j ∈ l then some (f ((sections j).getD { sectionIndex := j })) else sections j := by
  induction l generalizing sections with
  | nil => simp
  | cons i l ih =>
    obtain ⟨hi, hl⟩ := List.nodup_cons.1 hl
    rw [foldl_cons, ih hl]
    by_cases hj : j = i
    · subst hj
      simp [hi, setSection]
    · simp [setSection, hj]

theorem eachSection_eq (f : FileChunkSection → FileChunkSection) (c : FileChunk)
    (sections : Int → Option FileChunkSection) (j : Int) : eachSection f c sections j =
      if Touches j c then some (f ((sections j).getD { sectionIndex := j })) else sections j := by
  rw [eachSection, foldl_setSection (nodup_sectionIndices _ _)]
  have hstop : 0 ≤ c.stop := c.offset_nonneg.trans c.offset_le_stop
  exact if_congr (mem_sectionIndices c.offset_nonneg hstop) rfl rfl

/-! ## The invariant of a group -/

/-- A section is present exactly when a chunk touches it, and satisfies its invariant. -/
def GroupInv (loaded : List FileChunk) (sections : Int → Option FileChunkSection) : Prop :=
  ∀ si, match sections si with
    | none => ∀ c ∈ loaded, ¬ Touches si c
    | some sec => (∃ c ∈ loaded, Touches si c) ∧ SectionInv loaded si sec

theorem SectionInv.of_fresh (loaded : List FileChunk) (si : Int) : SectionInv loaded si
      { sectionIndex := si, chunks := loaded.filter fun c => Touches si c } where
  index := rfl
  fresh _ := ⟨rfl, rfl, rfl⟩
  visOk _ hv := by cases hv
  viewOk _ hw := by cases hw
  prepared hp := by cases hp

theorem GroupInv.addChunk (h : GroupInv loaded sections) (S : SortFunc Point) (c : FileChunk) :
    GroupInv (loaded ++ [c]) (eachSection (fun sec => sec.addChunk S c) c sections) := by
  intro si
  have hsi := h si
  rw [eachSection_eq]
  by_cases hc : Touches si c
  · rw [if_pos hc]
    refine ⟨⟨c, by simp, hc⟩, ?_⟩
    cases hs : sections si with
    | none =>
      -- a new section: no chunk touched it before
      rw [hs] at hsi
      have hnil : loaded.filter (fun d => decide (Touches si d)) = [] :=
        List.filter_eq_nil_iff.2 fun d hd => by simpa using hsi d hd
      have hfresh := SectionInv.of_fresh loaded si
      rw [hnil] at hfresh
      exact hfresh.addChunk S hc
    | some sec =>
      rw [hs] at hsi
      exact hsi.2.addChunk S hc
  · rw [if_neg hc]
    cases hs : sections si with
    | none =>
      rw [hs] at hsi
      exact forall_mem_append.2 ⟨hsi, forall_mem_singleton.2 hc⟩
    | some sec =>
      rw [hs] at hsi
      obtain ⟨⟨d, hd, hdt⟩, hsec⟩ := hsi
      exact ⟨⟨d, by simp [hd], hdt⟩, hsec.add_other hc⟩

variable {si : Int}

theorem touches_bounds {c : FileChunk} (h : Touches si c) : 0 ≤ si ∧ si * sectionSize ≤ c.stop := by
  have := c.offset_nonneg
  unfold Touches sectionSize at *
  omega

/-- The visible intervals of section `si`, if it is present. -/
def visibleOf (S : SortFunc Point) (sections : Int → Option FileChunkSection) (si : Int) :
    Option (IntervalList VisibleInterval) :=
  (sections si).map (·.visible S)

theorem GroupInv.setSection (h : GroupInv loaded sections) {sec sec' : FileChunkSection}
    (hs : sections si = some sec) (hinv : SectionInv loaded si sec')
    (hv : sec'.visible S = sec.visible S) : GroupInv loaded (setSection sections si sec') ∧
      visibleOf S (Filer.setSection sections si sec') = visibleOf S sections := by
  constructor
  · intro j
    have hj := h j
    unfold Filer.setSection
    by_cases hji : j = si
    · subst hji
      rw [hs] at hj
      rw [if_pos rfl]
      exact ⟨hj.1, hinv⟩
    · rw [if_neg hji]
      exact hj
  · funext j
    unfold visibleOf Filer.setSection
    by_cases hji : j = si
    · subst hji
      rw [if_pos rfl, hs, Option.map_some, Option.map_some, hv]
    · rw [if_neg hji]

theorem GroupInv.present (h : GroupInv loaded sections) {sec : FileChunkSection}
    (hs : sections si = some sec) :
    (0 ≤ si ∧ ∀ fileSize, (∀ c ∈ loaded, c.stop ≤ fileSize) → si * sectionSize ≤ fileSize) ∧
      SectionInv loaded si sec := by
  have hsi := h si
  rw [hs] at hsi
  obtain ⟨⟨c, hc, ht⟩, hinv⟩ := hsi
  obtain ⟨h0, h1⟩ := touches_bounds ht
  exact ⟨⟨h0, fun fileSize hsize => le_trans h1 (hsize c hc)⟩, hinv⟩

variable {group : ChunkGroup}

end Filer
