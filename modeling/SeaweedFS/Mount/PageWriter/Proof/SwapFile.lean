import SeaweedFS.Mount.PageWriter.PageChunk

/-!
# The slots of the swap file

`Slots slotOf sf`: the holders `i` with a slot `slotOf i` hold different slots, the list of free slots has no other
and none twice, and all of them were given out before.
-/

namespace PageWriter

open List Function

variable {ι κ : Type} {slotOf : ι → Option Nat} {sf : SwapFile}

/-- The slots that are held and those that are free. -/
structure Slots (slotOf : ι → Option Nat) (sf : SwapFile) : Prop where
  distinct : ∀ i j a, slotOf i = some a → slotOf j = some a → i = j
  held : ∀ i a, slotOf i = some a → a ∉ sf.freeActualChunkList
  nodup : sf.freeActualChunkList.Nodup
  nonneg : 0 ≤ sf.activeChunkCount + sf.freeActualChunkList.length
  held_le : ∀ i a, slotOf i = some a → (a : Int) ≤ sf.activeChunkCount + sf.freeActualChunkList.length
  free_le : ∀ a ∈ sf.freeActualChunkList,
    (a : Int) ≤ sf.activeChunkCount + sf.freeActualChunkList.length

section

variable (h : Slots slotOf sf)
include h

theorem Slots.with_file (file : Lib.File) : Slots slotOf { sf with file := file } :=
  ⟨h.distinct, h.held, h.nodup, h.nonneg, h.held_le, h.free_le⟩

theorem Slots.comp (e : κ ≃ ι) : Slots (slotOf ∘ e) sf where
  distinct _ _ a hi hj := e.injective (h.distinct _ _ a hi hj)
  held _ a hi := h.held _ a hi
  nodup := h.nodup
  nonneg := h.nonneg
  held_le _ a hi := h.held_le _ a hi
  free_le := h.free_le

variable [DecidableEq ι]

theorem Slots.hold (i : ι) {a : Nat} (ha : ∀ j, slotOf j ≠ some a) {sf' : SwapFile}
    (hsub : ∀ b ∈ sf'.freeActualChunkList, b ∈ sf.freeActualChunkList)
    (hnodup : (a :: sf'.freeActualChunkList).Nodup)
    (hle : sf.activeChunkCount + sf.freeActualChunkList.length ≤
      sf'.activeChunkCount + sf'.freeActualChunkList.length)
    (hale : (a : Int) ≤ sf'.activeChunkCount + sf'.freeActualChunkList.length) :
    Slots (Function.update slotOf i (some a)) sf' := by
  obtain ⟨hnot, hnodup⟩ := List.nodup_cons.1 hnodup
  -- a slot of the new map is the new one, at `i`, or one that was held elsewhere
  have hcase : ∀ j b, update slotOf i (some a) j = some b →
      (j = i ∧ b = a) ∨ (j ≠ i ∧ slotOf j = some b) := by
    intro j b hb
    by_cases hj : j = i
    · subst hj
      rw [update_self] at hb
      exact .inl ⟨rfl, (Option.some.inj hb).symm⟩
    · rw [update_of_ne hj] at hb
      exact .inr ⟨hj, hb⟩
  refine ⟨fun j k b hj hk => ?_, fun j b hj hb => ?_, hnodup, ?_, fun j b hj => ?_, fun b hb => ?_⟩
  · rcases hcase j b hj with ⟨rfl, rfl⟩ | ⟨-, hj'⟩
    · rcases hcase k b hk with ⟨rfl, -⟩ | ⟨-, hk'⟩
      · rfl
      · exact absurd hk' (ha k)
    · rcases hcase k b hk with ⟨-, rfl⟩ | ⟨-, hk'⟩
      · exact absurd hj' (ha j)
      · exact h.distinct j k b hj' hk'
  · rcases hcase j b hj with ⟨-, rfl⟩ | ⟨-, hj⟩
    · exact hnot hb
    · exact h.held j b hj (hsub b hb)
  · omega
  · rcases hcase j b hj with ⟨-, rfl⟩ | ⟨-, hj⟩
    · exact hale
    · have := h.held_le j b hj
      omega
  · have := h.free_le b (hsub b hb)
    omega

/-- **A new chunk** has a slot of its own. -/
theorem Slots.newSwapFileChunk (i : ι) (logicChunkIndex : Nat) :
    Slots (Function.update slotOf i (some (sf.newSwapFileChunk logicChunkIndex).2.actualChunkIndex))
      (sf.newSwapFileChunk logicChunkIndex).1 ∧
    ∀ j, slotOf j ≠ some (sf.newSwapFileChunk logicChunkIndex).2.actualChunkIndex := by
  unfold SwapFile.newSwapFileChunk
  cases hfree : sf.freeActualChunkList with
  | nil =>
    have hnonneg := h.nonneg
    rw [hfree] at hnonneg
    have hfresh : ∀ j, slotOf j ≠ some (sf.activeChunkCount + 1).toNat := by
      intro j hj
      have hle := h.held_le j _ hj
      rw [hfree] at hle
      simp only [length_nil] at hle hnonneg
      omega
    refine ⟨h.hold i hfresh ?_ ?_ ?_ ?_, hfresh⟩
    · simp [hfree]
    · simp
    · simp only [hfree]
      omega
    · simp only [length_nil] at hnonneg ⊢
      omega
  | cons a rest =>
    have hmem : a ∈ sf.freeActualChunkList := hfree ▸ mem_cons_self
    have hfresh : ∀ j, slotOf j ≠ some a := fun j hj => h.held j a hj hmem
    have hle := h.free_le a hmem
    refine ⟨h.hold i hfresh ?_ ?_ ?_ ?_, hfresh⟩
    · intro b hb
      rw [hfree]
      exact .tail _ hb
    · exact hfree ▸ h.nodup
    · rw [hfree]
      simp only [length_cons]
      omega
    · rw [hfree] at hle
      simp only [length_cons] at hle
      show (a : Int) ≤ sf.activeChunkCount + 1 + rest.length
      omega

/-- **`FreeResource`** gives a slot back. -/
theorem Slots.freeResource {i : ι} {sc : SwapFileChunk} (hi : slotOf i = some sc.actualChunkIndex) :
    Slots (Function.update slotOf i none) (sc.freeResource sf) := by
  have hcase : ∀ j b, update slotOf i none j = some b → j ≠ i ∧ slotOf j = some b := by
    intro j b hb
    by_cases hj : j = i
    · subst hj
      rw [update_self] at hb
      cases hb
    · rw [update_of_ne hj] at hb
      exact ⟨hj, hb⟩
  have hcount : (sc.freeResource sf).activeChunkCount + (sc.freeResource sf).freeActualChunkList.length =
      sf.activeChunkCount + sf.freeActualChunkList.length := by
    simp only [SwapFileChunk.freeResource, length_append, length_singleton]
    omega
  refine ⟨fun j k b hj hk => ?_, fun j b hj hb => ?_, ?_, hcount ▸ h.nonneg, fun j b hj => ?_, ?_⟩
  · exact h.distinct j k b (hcase j b hj).2 (hcase k b hk).2
  · obtain ⟨hne, hj⟩ := hcase j b hj
    rcases List.mem_append.1 hb with hb | hb
    · exact h.held j b hj hb
    · rw [List.mem_singleton.1 hb] at hj
      exact hne (h.distinct j i _ hj hi)
  · refine List.nodup_append.2 ⟨h.nodup, nodup_singleton _, fun b hb => forall_mem_singleton.2 ?_⟩
    rintro rfl
    exact h.held i _ hi hb
  · rw [hcount]
    exact h.held_le j b (hcase j b hj).2
  · rw [hcount]
    exact forall_mem_append.2 ⟨h.free_le, forall_mem_singleton.2 (h.held_le i _ hi)⟩

end

/-! ## Every sequence of calls -/

/-- A call of `NewSwapFileChunk`, or of `FreeResource` of the live chunk with number `k`. -/
inductive SlotCall where
  | new (logicChunkIndex : Nat)
  | free (k : Nat)

/-- What a call does to the swap file and the live chunks. -/
def SlotCall.run (s : SwapFile × List SwapFileChunk) : SlotCall → SwapFile × List SwapFileChunk
  | new logicChunkIndex =>
    let (sf, sc) := s.1.newSwapFileChunk logicChunkIndex
    (sf, s.2 ++ [sc])
  | free k =>
    match s.2[k]? with
    | none => s
    | some sc => (sc.freeResource s.1, s.2.eraseIdx k)

/-- The live chunks after calls on a new swap file. -/
def liveChunks (calls : List SlotCall) : List SwapFileChunk := (calls.foldl SlotCall.run ({}, [])).2

/-- Live and free slots are the first `m` ones. -/
structure FirstSlots (m : Nat) (s : SwapFile × List SwapFileChunk) : Prop where
  perm : (s.2.map (·.actualChunkIndex) ++ s.1.freeActualChunkList).Perm (range' 1 m)
  active : s.1.activeChunkCount = s.2.length

/-- **Step.** A slot more is taken only when all of them are live. -/
theorem FirstSlots.run {m : Nat} {s : SwapFile × List SwapFileChunk} (h : FirstSlots m s) (call : SlotCall) :
    FirstSlots m (call.run s) ∨ FirstSlots (m + 1) (call.run s) ∧ (call.run s).2.length = m + 1 := by
  have hlen : s.2.length + s.1.freeActualChunkList.length = m := by simpa using h.perm.length_eq
  cases call with
  | new i =>
    unfold SlotCall.run SwapFile.newSwapFileChunk
    cases hfree : s.1.freeActualChunkList with
    | nil =>
      rw [hfree, length_nil, Nat.add_zero] at hlen
      have hperm := h.perm
      rw [hfree, append_nil] at hperm
      refine .inr ⟨⟨?_, by simp [h.active]⟩, by simp [hlen]⟩
      have hnew : (s.1.activeChunkCount + 1).toNat = 1 + m := by
        rw [h.active]
        omega
      simp only [map_append, append_nil, hnew, range'_1_concat]
      exact hperm.append_right _
    | cons a rest =>
      refine .inl ⟨?_, by simp [h.active]⟩
      have hperm := h.perm
      rw [hfree] at hperm
      simpa using hperm
  | free k =>
    left
    simp only [SlotCall.run]
    split
    · exact h
    · rename_i sc hk
      obtain ⟨hlt, hget⟩ := List.getElem?_eq_some_iff.1 hk
      have hmoved := (getElem_cons_eraseIdx_perm hlt).map (·.actualChunkIndex)
      rw [hget] at hmoved
      refine ⟨Perm.trans ?_ h.perm, ?_⟩
      · simp only [SwapFileChunk.freeResource, ← append_assoc]
        exact (perm_append_singleton _ _).trans (hmoved.append_right _)
      · simp only [SwapFileChunk.freeResource, h.active, length_eraseIdx_of_lt hlt]
        omega

/-- **Run.** The slots that were ever used are the first ones, and no more than were live at one time. -/
theorem firstSlots_run (calls : List SlotCall) : ∃ m, FirstSlots m (calls.foldl SlotCall.run ({}, [])) ∧
      ∃ before after, calls = before ++ after ∧ m ≤ (liveChunks before).length := by
  induction calls using List.reverseRecOn with
  | nil => exact ⟨0, ⟨by simp, rfl⟩, [], [], rfl, Nat.zero_le _⟩
  | append_singleton calls call ih =>
    obtain ⟨m, h, before, after, rfl, hle⟩ := ih
    rw [foldl_append]
    rcases h.run call with h' | ⟨h', hm⟩
    · exact ⟨m, h', before, after ++ [call], by simp, hle⟩
    · refine ⟨m + 1, h', before ++ after ++ [call], [], by simp, ?_⟩
      rw [liveChunks, foldl_append]
      exact hm.ge

/-- **Slots.** Live chunks have slots of their own, and no slot is beyond the number of chunks live at one time. -/
theorem liveChunks_slots (calls : List SlotCall) :
    ((liveChunks calls).map (·.actualChunkIndex)).Nodup ∧
      ∀ sc ∈ liveChunks calls, ∃ before after, calls = before ++ after ∧
        sc.actualChunkIndex ≤ (liveChunks before).length := by
  obtain ⟨m, h, before, after, hcalls, hle⟩ := firstSlots_run calls
  refine ⟨(h.perm.nodup_iff.2 nodup_range').of_append_left, fun sc hsc => ⟨before, after, hcalls, ?_⟩⟩
  have hmem : sc.actualChunkIndex ∈ range' 1 m := h.perm.subset (mem_append_left _ (mem_map_of_mem hsc))
  have := mem_range'_1.1 hmem
  omega

end PageWriter
