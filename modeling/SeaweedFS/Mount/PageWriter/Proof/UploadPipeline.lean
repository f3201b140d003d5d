import SeaweedFS.Mount.PageWriter.Proof.Jobs
import SeaweedFS.Mount.PageWriter.Proof.SwapFile

/-!
# What a reader of the pipeline sees

`latest` follows the events of a run: the byte last written at each offset, and its sealed chunk. As long as `StepOk`,
a read gets the latest bytes until the job of their chunk is finished (**`maybeReadDataAt_latest`**).
-/

namespace PageWriter

open Lib List Function Option SortedMap UploadPipeline

variable {c : PageChunk} {bytes : List UInt8}

/-! ## The latest bytes -/

/-- A byte, and the sealed chunk that it is in; `none` as long as its chunk is writable. -/
structure Written where
  byte : UInt8
  generation : Option Nat
deriving DecidableEq, Repr

/-- The last write at every offset. -/
abbrev Latest := Nat → Option Written

/-- The last writes after an event. -/
def Latest.after (chunkSize : Nat) (last : Latest) : Event → Latest
  | .wrote off bytes => fun x =>
    if off ≤ x ∧ x < off + bytes.length then bytes[x - off]?.map (⟨·, none⟩) else last x
  | .sealed i g => fun x =>
    if x / chunkSize = i then (last x).map fun w => ⟨w.byte, w.generation.or (some g)⟩ else last x

/-- The last writes after the events of a run. -/
def latest (chunkSize : Nat) (events : List Event) : Latest :=
  events.foldl (Latest.after chunkSize) fun _ => none

/-- The bytes of the chunk `i` whose last write is in `place`. -/
def contentOf (chunkSize : Nat) (last : Latest) (i : Nat) (place : Option Nat) (x : Nat) : Option UInt8 :=
  if x < chunkSize then ((last (i * chunkSize + x)).filter (·.generation = place)).map (·.byte) else none

variable {g : Nat} {off : Nat}

variable {chunkSize : Nat} {last : Latest} {i j x : Nat} {place : Option Nat} {b : UInt8}

theorem contentOf_eq_some : contentOf chunkSize last i place x = some b ↔
    x < chunkSize ∧ last (i * chunkSize + x) = some ⟨b, place⟩ := by
  unfold contentOf
  split
  · rename_i hx
    simp only [map_eq_some_iff, filter_eq_some_iff, hx, true_and, decide_eq_true_eq]
    constructor
    · rintro ⟨w, ⟨hw, rfl⟩, rfl⟩
      exact hw
    · intro hw
      exact ⟨_, ⟨hw, rfl⟩, rfl⟩
  · rename_i hx
    simp [hx]

theorem div_eq_of_lt (hx : x < chunkSize) : (i * chunkSize + x) / chunkSize = i := by
  rw [Nat.mul_comm, Nat.mul_add_div (by omega), Nat.div_eq_of_lt hx, Nat.add_zero]

theorem contentOf_wrote (hfits : off % chunkSize + bytes.length ≤ chunkSize) :
    contentOf chunkSize (last.after chunkSize (.wrote off bytes)) (off / chunkSize) none =
      overlay (off % chunkSize) bytes (contentOf chunkSize last (off / chunkSize) none) := by
  have hoff := Nat.div_add_mod' off chunkSize
  funext x
  unfold overlay
  split
  · have hb := getElem?_eq_getElem (show x - off % chunkSize < bytes.length by omega)
    rw [hb, contentOf_eq_some]
    refine ⟨by omega, ?_⟩
    show (if _ then _ else _) = _
    rw [if_pos (by omega), show off / chunkSize * chunkSize + x - off = x - off % chunkSize by omega, hb]
    rfl
  · unfold contentOf
    split
    · congr 2
      show (if _ then _ else _) = _
      rw [if_neg (by omega)]
    · rfl

theorem contentOf_wrote_of_ne
    (hfits : off % chunkSize + bytes.length ≤ chunkSize) (hi : i ≠ off / chunkSize) :
    contentOf chunkSize (last.after chunkSize (.wrote off bytes)) i place =
      contentOf chunkSize last i place := by
  have hoff := Nat.div_add_mod' off chunkSize
  funext x
  unfold contentOf
  split
  · rename_i hx
    congr 2
    show (if _ then _ else _) = _
    rw [if_neg]
    intro hbetween
    have hdiv : (i * chunkSize + x) / chunkSize = off / chunkSize :=
      Nat.div_eq_of_lt_le (by omega) (by rw [Nat.succ_mul]; omega)
    exact hi ((div_eq_of_lt hx).symm.trans hdiv)
  · rfl

theorem contentOf_wrote_sealed
    (h : contentOf chunkSize (last.after chunkSize (.wrote off bytes)) i (some g) x = some b) :
    contentOf chunkSize last i (some g) x = some b := by
  obtain ⟨hx, hlast⟩ := contentOf_eq_some.1 h
  refine contentOf_eq_some.2 ⟨hx, ?_⟩
  simp only [Latest.after] at hlast
  split at hlast
  · obtain ⟨b', -, hb'⟩ := map_eq_some_iff.1 hlast
    cases hb'
  · exact hlast

theorem contentOf_sealed_of_ne (hi : i ≠ j) :
    contentOf chunkSize (last.after chunkSize (.sealed j g)) i place =
      contentOf chunkSize last i place := by
  funext x
  unfold contentOf
  split
  · rename_i hx
    congr 2
    show (if _ then _ else _) = _
    rw [if_neg (by rwa [div_eq_of_lt hx])]
  · rfl

theorem contentOf_sealed_none (g : Nat) :
    contentOf chunkSize (last.after chunkSize (.sealed i g)) i none x = none := by
  rw [eq_none_iff_forall_ne_some]
  intro b hb
  obtain ⟨hx, hlast⟩ := contentOf_eq_some.1 hb
  simp only [Latest.after, div_eq_of_lt hx] at hlast
  obtain ⟨w, -, hw⟩ := map_eq_some_iff.1 hlast
  cases hgen : w.generation with
  | none => simp [hgen] at hw
  | some g' => simp [hgen] at hw

theorem contentOf_sealed (hfresh : ∀ x b, last x ≠ some ⟨b, some g⟩)
    (h : contentOf chunkSize (last.after chunkSize (.sealed i g)) i (some g) x = some b) :
    contentOf chunkSize last i none x = some b := by
  obtain ⟨hx, hlast⟩ := contentOf_eq_some.1 h
  refine contentOf_eq_some.2 ⟨hx, ?_⟩
  simp only [Latest.after, div_eq_of_lt hx] at hlast
  obtain ⟨⟨b', place⟩, hw, heq⟩ := map_eq_some_iff.1 hlast
  cases place with
  | none =>
    rw [hw]
    cases heq
    rfl
  | some g' =>
    cases heq
    exact absurd hw (hfresh _ _)

/-! ## The invariant -/

/-- The slots of the writable and of the unfinished sealed chunks. -/
def slotOf (up : UploadPipeline) : Nat ⊕ Nat → Option Nat
  | .inl i => (up.writableChunks.get i).bind PageChunk.slot
  | .inr g => up.generations[g]?.bind fun sc => if sc.finished then none else sc.chunk.slot

/-- The chunks hold the latest bytes. -/
structure Inv (chunkSize : Nat) (up : UploadPipeline) (last : Latest) : Prop where
  size : up.chunkSize = chunkSize
  writable : ∀ i c, up.writableChunks.get i = some c → c.logicChunkIndex = i ∧
    Holds up.chunkSize up.swapFile.file c (contentOf up.chunkSize last i none)
  absent : ∀ i, up.writableChunks.get i = none → ∀ x, contentOf up.chunkSize last i none x = none
  unfinished : ∀ (g : Nat) sc, up.generations[g]? = some sc → sc.finished = false →
    up.sealedChunks.get sc.logicChunkIndex = some g ∧ sc.referenceCounter = 1 ∧
    sc.chunk.logicChunkIndex = sc.logicChunkIndex ∧
    ∃ k, Holds up.chunkSize up.swapFile.file sc.chunk k ∧
      ∀ x b, contentOf up.chunkSize last sc.logicChunkIndex (some g) x = some b → k x = some b
  mapped : ∀ i g, up.sealedChunks.get i = some g →
    ∃ sc, up.generations[g]? = some sc ∧ sc.logicChunkIndex = i ∧ sc.finished = false
  placed : ∀ x b g, last x = some ⟨b, some g⟩ →
    ∃ sc, up.generations[g]? = some sc ∧ sc.logicChunkIndex = x / up.chunkSize
  slots : Slots (slotOf up) up.swapFile
  waiting : ∀ call ∈ up.waiting, call.off + call.p.length < 2 ^ 63

/-- No two chunks of one index are sealed and unfinished. -/
def OneGeneration (up : UploadPipeline) : Prop :=
  ((up.generations.filter fun sc => !sc.finished).map SealedChunk.logicChunkIndex).Nodup

instance : DecidablePred OneGeneration := fun _ => inferInstanceAs (Decidable (List.Nodup _))

variable {up : UploadPipeline}

theorem inv_new (chunkSize bufferChunkLimit : Nat) (hpos : 0 < chunkSize) (hlt : chunkSize < 2 ^ 63) :
    Inv chunkSize (newUploadPipeline chunkSize bufferChunkLimit hpos hlt) fun _ => none where
  size := rfl
  writable := by simp [newUploadPipeline]
  absent := by simp [contentOf]
  unfinished := by simp [newUploadPipeline]
  mapped := by simp [newUploadPipeline]
  placed := by simp
  slots := by
    have hnone : slotOf (newUploadPipeline chunkSize bufferChunkLimit hpos hlt) = fun _ => none := by
      funext i
      cases i <;> rfl
    rw [hnone]
    exact ⟨by simp, by simp, .nil, Int.le_refl _, by simp, by simp [newUploadPipeline]⟩
  waiting := by simp [newUploadPipeline]

theorem slotOf_put (sf : SwapFile) (i : Nat) (c : PageChunk) :
    slotOf (up.put sf i c) = Function.update (slotOf up) (.inl i) c.slot := by
  funext k
  cases k with
  | inl j =>
    by_cases hj : j = i
    · subst hj
      simp [slotOf, put, get_insert]
    · rw [update_of_ne (by simpa using hj)]
      simp [slotOf, put, get_insert, Ne.symm hj]
  | inr g => rfl

theorem put_put (sf sf' : SwapFile) (i : Nat) (c c' : PageChunk) :
    (up.put sf i c).put sf' i c' = up.put sf' i c' := by
  have : (up.writableChunks.insert i c).insert i c' = up.writableChunks.insert i c' := by
    refine ext_get fun k => ?_
    simp only [get_insert]
    split <;> rfl
  simp only [put, this]

theorem put_self (h : up.writableChunks.get i = some c) : up.put up.swapFile i c = up := by
  have : up.writableChunks.insert i c = up.writableChunks := by
    refine ext_get fun k => ?_
    rw [get_insert]
    split
    · rename_i hk
      rw [← hk, h]
    · rfl
  simp only [put, this]

/-! ## A new chunk -/

section

variable (h : Inv chunkSize up last)
include h

theorem Inv.put_new (hnone : up.writableChunks.get i = none)
    (hidx : c.logicChunkIndex = i) {sf : SwapFile} (hfile : sf.file = up.swapFile.file)
    (hholds : Holds up.chunkSize sf.file c fun _ => none)
    (hslots : Slots (Function.update (slotOf up) (.inl i) c.slot) sf) : Inv chunkSize (up.put sf i c) last where
  size := h.size
  writable j d hd := by
    simp only [put, get_insert] at hd
    split at hd
    · rename_i hij
      cases hd
      subst hij
      refine ⟨hidx, ?_⟩
      show Holds up.chunkSize sf.file c (contentOf up.chunkSize last i none)
      rwa [funext (h.absent i hnone)]
    · show _ ∧ Holds up.chunkSize sf.file d _
      rw [hfile]
      exact h.writable j d hd
  absent j hj := by
    simp only [put, get_insert] at hj
    split at hj
    · cases hj
    · exact h.absent j hj
  unfinished g sc hsc hfin := by
    show _ ∧ _ ∧ _ ∧ ∃ k, Holds up.chunkSize sf.file sc.chunk k ∧ _
    rw [hfile]
    exact h.unfinished g sc hsc hfin
  mapped := h.mapped
  placed := h.placed
  slots := by
    rw [slotOf_put]
    exact hslots
  waiting := h.waiting

/-! ## Writing -/

variable {call : SaveCall}

theorem Inv.write (hc : up.writableChunks.get (up.indexOf call.off) = some c)
    (hlt : call.off + call.p.length < 2 ^ 63)
    (hfits : c.slot ≠ none → call.off % up.chunkSize + call.p.length ≤ up.chunkSize) :
    ∃ sf c' n, c.writeDataAt up.chunkSize up.swapFile call.p call.off call.tsNs = some (sf, c', n) ∧
      Inv chunkSize (up.put sf (up.indexOf call.off) c')
        (last.after up.chunkSize (.wrote call.off (call.p.take n))) := by
  set i := up.indexOf call.off with hi
  obtain ⟨hidx, hholds⟩ := h.writable i c hc
  have hmod : call.off % up.chunkSize ≤ call.off := Nat.mod_le _ _
  obtain ⟨file', c', n, hwrite, hroom, hholds', hslot, hlogic, hother⟩ :=
    hholds.writeDataAt up.chunkSize_pos (by omega) hfits call.tsNs
  refine ⟨_, c', n, hwrite, ?_⟩
  have hci : ∀ a, c.slot = some a → slotOf up (.inl i) = some a := by
    intro a ha
    rw [slotOf, hc, bind_some, ha]
  constructor
  · exact h.size
  · intro j d hd
    simp only [put, get_insert] at hd
    show _ ∧ Holds up.chunkSize file' d (contentOf up.chunkSize _ j none)
    split at hd
    · rename_i hij
      cases hd
      rw [← hij]
      refine ⟨hlogic.trans hidx, ?_⟩
      rw [hi, indexOf, contentOf_wrote hroom]
      exact hholds'
    · rename_i hij
      obtain ⟨hidx', hd'⟩ := h.writable j d hd
      rw [contentOf_wrote_of_ne hroom (Ne.symm hij)]
      refine ⟨hidx', hother d _ hd' fun a ha hda => hij ?_⟩
      have := h.slots.distinct (.inl i) (.inl j) a (hci a ha) (by rw [slotOf, hd, bind_some, hda])
      simpa using this
  · intro j hj x
    simp only [put, get_insert] at hj
    show contentOf up.chunkSize _ j none x = none
    split at hj
    · cases hj
    · rename_i hij
      rw [contentOf_wrote_of_ne hroom (Ne.symm hij)]
      exact h.absent j hj x
  · intro g sc hsc hfin
    have hsc : up.generations[g]? = some sc := hsc
    obtain ⟨hmap, hcount, hlogic', k, hk, hcontent⟩ := h.unfinished g sc hsc hfin
    refine ⟨hmap, hcount, hlogic', k, hother _ k hk fun a ha hda => ?_, fun x b hb =>
      hcontent x b (contentOf_wrote_sealed hb)⟩
    have := h.slots.distinct (.inl i) (.inr g) a (hci a ha)
      (by simp only [slotOf, hsc, bind_some, hfin, Bool.false_eq_true, if_false, hda])
    cases this
  · exact h.mapped
  · intro x b g hlast
    simp only [Latest.after] at hlast
    split at hlast
    · obtain ⟨b', -, hb'⟩ := map_eq_some_iff.1 hlast
      cases hb'
    · exact h.placed x b g hlast
  · have hslots := h.slots.with_file file'
    have heq : slotOf (up.put { up.swapFile with file := file' } i c') = slotOf up := by
      rw [slotOf_put, hslot]
      refine update_eq_self_iff.2 ?_
      rw [slotOf, hc, bind_some]
    rw [heq]
    exact hslots
  · exact h.waiting

/-! ## Sealing -/

/-- When its index gets no second generation, there is no sealed chunk to replace. -/
theorem Inv.get_eq_none
    (hone : OneGeneration (up.moveToSealed c i).1) : up.sealedChunks.get i = none := by
  rw [eq_none_iff_forall_ne_some]
  intro g hg
  obtain ⟨sc, hsc, hidx, hfin⟩ := h.mapped i g hg
  have hgen : (up.moveToSealed c i).1.generations =
      up.generations.modify g SealedChunk.dropped ++ [{ chunk := c, logicChunkIndex := i }] := by
    simp only [moveToSealed, replaceSealed, hg, generations_freeReference]
  rw [OneGeneration, hgen, filter_append, map_append, nodup_append] at hone
  refine hone.2.2 i ?_ i (by simp) rfl
  refine mem_map.2 ⟨sc.dropped, mem_filter.2 ⟨?_, by simp [SealedChunk.dropped, hfin]⟩, hidx⟩
  refine mem_of_getElem? (i := g) ?_
  rw [getElem?_modify, hsc]
  simp

omit h in
theorem slotOf_sealed (hc : up.writableChunks.get i = some c) : slotOf { up with
      generations := up.generations ++ [{ chunk := c, logicChunkIndex := i }]
      sealedChunks := up.sealedChunks.insert i up.generations.length
      writableChunks := up.writableChunks.erase i } =
    slotOf up ∘ Equiv.swap (.inl i) (.inr up.generations.length) := by
  funext k
  rw [comp_apply]
  cases k with
  | inl j =>
    by_cases hj : j = i
    · subst hj
      simp [slotOf, get_erase]
    · rw [Equiv.swap_apply_of_ne_of_ne (by simpa using hj) (by simp)]
      simp [slotOf, get_erase, Ne.symm hj]
  | inr g =>
    by_cases hg : g = up.generations.length
    · subst hg
      simp [slotOf, hc]
    · rw [Equiv.swap_apply_of_ne_of_ne (by simp) (by simpa using hg)]
      rcases Nat.lt_or_gt_of_ne hg with hlt | hgt
      · simp [slotOf, getElem?_append_left hlt]
      · rw [slotOf, slotOf, getElem?_eq_none (by simp; omega), getElem?_eq_none (by omega)]

/-- **A seal.** -/
theorem Inv.moveToSealed
    (hc : up.writableChunks.get i = some c) (hone : OneGeneration (up.moveToSealed c i).1) :
    Inv chunkSize (up.moveToSealed c i).1
      ((up.moveToSealed c i).2.foldl (Latest.after up.chunkSize) last) := by
  have hget := h.get_eq_none hone
  have hreplace : up.replaceSealed i = up := by rw [replaceSealed, hget]
  have hnone : up.generations[up.generations.length]? = none := getElem?_eq_none (Nat.le_refl _)
  have hfresh : ∀ x b, last x ≠ some ⟨b, some up.generations.length⟩ := by
    intro x b hlast
    obtain ⟨sc, hsc, -⟩ := h.placed x b _ hlast
    rw [hnone] at hsc
    cases hsc
  simp only [UploadPipeline.moveToSealed, hreplace, foldl_cons, foldl_nil]
  constructor
  · exact h.size
  · intro j d hd
    simp only [get_erase] at hd
    split at hd
    · cases hd
    · rename_i hij
      rw [contentOf_sealed_of_ne (Ne.symm hij)]
      exact h.writable j d hd
  · intro j hj x
    simp only [get_erase] at hj
    split at hj
    · rename_i hij
      subst hij
      exact contentOf_sealed_none _
    · rename_i hij
      rw [contentOf_sealed_of_ne (Ne.symm hij)]
      exact h.absent j hj x
  · intro g sc hsc hfin
    simp only [getElem?_append] at hsc
    split at hsc
    · obtain ⟨hmap, hcount, hlogic, k, hk, hcontent⟩ := h.unfinished g sc hsc hfin
      have hne : sc.logicChunkIndex ≠ i := by
        rintro rfl
        rw [hget] at hmap
        cases hmap
      refine ⟨?_, hcount, hlogic, k, hk, fun x b hb => hcontent x b ?_⟩
      · rw [get_insert, if_neg (Ne.symm hne), hmap]
      · rwa [contentOf_sealed_of_ne hne] at hb
    · have hlt := (List.getElem?_eq_some_iff.1 hsc).1
      obtain rfl : g = up.generations.length := by
        simp only [length_singleton] at hlt
        omega
      obtain rfl := mem_singleton.1 (mem_of_getElem? hsc)
      obtain ⟨hidx, hholds⟩ := h.writable i c hc
      refine ⟨by rw [get_insert, if_pos rfl], rfl, hidx, _, hholds, fun x b hb =>
        contentOf_sealed hfresh hb⟩
  · intro j g hg
    rw [get_insert] at hg
    split at hg
    · rename_i hij
      cases hg
      exact ⟨_, getElem?_concat_length, hij, rfl⟩
    · obtain ⟨sc, hsc, hidx, hfin⟩ := h.mapped j g hg
      exact ⟨sc, by rw [getElem?_append_left (List.getElem?_eq_some_iff.1 hsc).1, hsc], hidx, hfin⟩
  · intro x b g hlast
    have hold : ∀ b', last x = some ⟨b', some g⟩ → ∃ sc,
        (up.generations ++ [{ chunk := c, logicChunkIndex := i }])[g]? = some sc ∧
          sc.logicChunkIndex = x / up.chunkSize := by
      intro b' hb'
      obtain ⟨sc, hsc, hidx⟩ := h.placed x b' g hb'
      exact ⟨sc, by rw [getElem?_append_left (List.getElem?_eq_some_iff.1 hsc).1, hsc], hidx⟩
    simp only [Latest.after] at hlast
    split at hlast
    · rename_i hx
      obtain ⟨⟨b', place⟩, hw, heq⟩ := map_eq_some_iff.1 hlast
      cases place with
      | none =>
        cases heq
        exact ⟨_, getElem?_concat_length, hx.symm⟩
      | some g' =>
        cases heq
        exact hold _ hw
    · exact hold b hlast
  · rw [slotOf_sealed hc]
    exact h.slots.comp _
  · exact h.waiting

/-! ## The jobs -/

variable {sc : SealedChunk}

theorem Inv.saveContent (hsc : up.generations[g]? = some sc) (stored : List SaveToStorage) :
    Inv chunkSize { up with stored := stored, generations := up.generations.set g { sc with saved := true } }
      last := by
  obtain ⟨hlt, -⟩ := List.getElem?_eq_some_iff.1 hsc
  -- but for the mark, the sealed chunks are as they were
  have hold : ∀ (g' : Nat) sc', (up.generations.set g { sc with saved := true })[g']? = some sc' →
      ∃ saved, up.generations[g']? = some { sc' with saved := saved } := by
    intro g' sc' hsc'
    rw [getElem?_set] at hsc'
    split at hsc'
    · rename_i heq
      cases hsc'
      exact ⟨sc.saved, heq ▸ hsc⟩
    · exact ⟨sc'.saved, hsc'⟩
  have hnew : ∀ (g' : Nat) sc', up.generations[g']? = some sc' → ∃ saved,
      (up.generations.set g { sc with saved := true })[g']? = some { sc' with saved := saved } := by
    intro g' sc' hsc'
    rw [getElem?_set]
    split
    · rename_i heq
      subst heq
      obtain rfl : sc = sc' := some.inj (hsc.symm.trans hsc')
      exact ⟨true, rfl⟩
    · exact ⟨sc'.saved, hsc'⟩
  constructor
  · exact h.size
  · exact h.writable
  · exact h.absent
  · intro g' sc' hsc' hfin
    obtain ⟨saved, hsc'⟩ := hold g' sc' hsc'
    exact h.unfinished g' { sc' with saved := saved } hsc' hfin
  · intro i g' hg'
    obtain ⟨sc', hsc', hidx, hfin⟩ := h.mapped i g' hg'
    obtain ⟨saved, hsc'⟩ := hnew g' sc' hsc'
    exact ⟨_, hsc', hidx, hfin⟩
  · intro x b g' hlast
    obtain ⟨sc', hsc', hidx⟩ := h.placed x b g' hlast
    obtain ⟨saved, hsc'⟩ := hnew g' sc' hsc'
    exact ⟨_, hsc', hidx⟩
  · have heq : slotOf { up with
        stored := stored, generations := up.generations.set g { sc with saved := true } } =
        slotOf up := by
      funext k
      cases k with
      | inl i => rfl
      | inr g' =>
        cases hg' : up.generations[g']? with
        | none =>
          rw [slotOf, slotOf, hg', getElem?_eq_none (by
            rw [length_set]
            exact getElem?_eq_none_iff.1 hg')]
        | some sc' =>
          obtain ⟨saved, hsc'⟩ := hnew g' sc' hg'
          rw [slotOf, slotOf, hg', hsc']
          rfl
    rw [heq]
    exact h.slots
  · exact h.waiting

/-- **The end of a job** removes its own chunk. -/
theorem Inv.finish (hsc : up.generations[g]? = some sc) (hfin : sc.finished = false) :
    Inv chunkSize ({ up with
      sealedChunks := up.sealedChunks.erase sc.logicChunkIndex
      generations := up.generations.set g { sc with finished := true } }.freeReference g) last := by
  obtain ⟨hlt, -⟩ := List.getElem?_eq_some_iff.1 hsc
  obtain ⟨hmap, hcount, hlogic, k, hk, hcontent⟩ := h.unfinished g sc hsc hfin
  have hfree : { up with
      sealedChunks := up.sealedChunks.erase sc.logicChunkIndex
      generations := up.generations.set g { sc with finished := true } }.freeReference g =
    { up with
      sealedChunks := up.sealedChunks.erase sc.logicChunkIndex
      generations := up.generations.set g
        { sc with finished := true, referenceCounter := 0, freed := sc.freed + 1 }
      swapFile := sc.chunk.freeResource up.swapFile } := by
    simp only [freeReference, getElem?_set_self hlt, hcount, set_set]
    rfl
  rw [hfree]
  have hfile : (sc.chunk.freeResource up.swapFile).file = up.swapFile.file := by
    cases sc.chunk <;> rfl
  constructor
  · exact h.size
  · rw [hfile]
    exact h.writable
  · exact h.absent
  · intro g' sc' hsc' hfin'
    simp only [getElem?_set] at hsc'
    split at hsc'
    · cases hsc'
      cases hfin'
    · rename_i hne
      obtain ⟨hmap', hrest⟩ := h.unfinished g' sc' hsc' hfin'
      refine ⟨?_, ?_⟩
      · rw [get_erase, if_neg, hmap']
        intro heq
        rw [← heq, hmap] at hmap'
        exact hne (some.inj hmap')
      · rw [hfile]
        exact hrest
  · intro i g' hg'
    rw [get_erase] at hg'
    split at hg'
    · cases hg'
    · rename_i hne
      obtain ⟨sc', hsc', hidx, hfin'⟩ := h.mapped i g' hg'
      refine ⟨sc', ?_, hidx, hfin'⟩
      rw [getElem?_set, if_neg, hsc']
      rintro rfl
      rw [hsc] at hsc'
      cases hsc'
      exact hne hidx
  · intro x b g' hlast
    obtain ⟨sc', hsc', hidx⟩ := h.placed x b g' hlast
    rw [getElem?_set]
    split
    · rename_i heq
      subst heq
      obtain rfl : sc = sc' := some.inj (hsc.symm.trans hsc')
      exact ⟨_, rfl, hidx⟩
    · exact ⟨sc', hsc', hidx⟩
  · have heq : slotOf { up with
        sealedChunks := up.sealedChunks.erase sc.logicChunkIndex
        generations := up.generations.set g
          { sc with finished := true, referenceCounter := 0, freed := sc.freed + 1 }
        swapFile := sc.chunk.freeResource up.swapFile } =
        update (slotOf up) (.inr g) none := by
      funext k
      cases k with
      | inl i => rfl
      | inr g' =>
        by_cases hg' : g' = g
        · subst hg'
          rw [update_self, slotOf, getElem?_set_self hlt]
          rfl
        · rw [update_of_ne (by simpa using hg'), slotOf, slotOf, getElem?_set_ne (Ne.symm hg')]
    rw [heq]
    have hslot : slotOf up (.inr g) = sc.chunk.slot := by
      rw [slotOf, hsc, bind_some, hfin]
      rfl
    cases hchunk : sc.chunk with
    | mem mc =>
      rw [hchunk] at hslot
      rw [update_eq_self_iff.2 hslot.symm]
      exact h.slots
    | swap sd =>
      rw [hchunk] at hslot
      exact h.slots.freeResource hslot
  · exact h.waiting

/-! ## Steps -/

/-- The write of the call stays inside its chunk. -/
def UploadPipeline.Fits (up : UploadPipeline) (call : SaveCall) : Prop :=
  call.off % up.chunkSize + call.p.length ≤ up.chunkSize

instance (up : UploadPipeline) (call : SaveCall) : Decidable (up.Fits call) :=
  inferInstanceAs (Decidable (_ ≤ _))

/-- A write into a slot of the swap file stays inside it, and a chunk is created where there is none. -/
def UploadPipeline.WriteOk (up : UploadPipeline) : Step → Prop
  | .save call env =>
    (∀ c ∈ up.writableChunks.get (up.indexOf call.off), c.slot ≠ none → up.Fits call) ∧
      (up.writableChunks.get (up.indexOf call.off) = none →
        up.Full call ∨ up.inMemory call env ∨ up.Fits call)
  | .resume k env =>
    ∀ call ∈ up.waiting[k]?, up.writableChunks.get (up.indexOf call.off) = none ∧
      (up.inMemory call env ∨ up.Fits call)
  | .flush _ | .saveContent _ | .finish _ | .lockForRead _ _ | .unlockForRead _ _ => True

instance (up : UploadPipeline) : DecidablePred up.WriteOk
  | .save call env => inferInstanceAs (Decidable
      ((∀ c ∈ up.writableChunks.get (up.indexOf call.off), c.slot ≠ none → up.Fits call) ∧
        (up.writableChunks.get (up.indexOf call.off) = none →
          up.Full call ∨ up.inMemory call env ∨ up.Fits call)))
  | .resume k env => inferInstanceAs (Decidable
      (∀ call ∈ up.waiting[k]?, up.writableChunks.get (up.indexOf call.off) = none ∧
        (up.inMemory call env ∨ up.Fits call)))
  | .flush _ | .saveContent _ | .finish _ | .lockForRead _ _ | .unlockForRead _ _ => .isTrue trivial

/-- The step can be taken, its write stays inside its chunk, and it leads to no second generation. -/
def UploadPipeline.StepOk (up : UploadPipeline) (a : Step) : Prop :=
  up.Enabled a ∧ up.WriteOk a ∧ ∀ r ∈ up.step a, OneGeneration r.1

instance (up : UploadPipeline) : DecidablePred up.StepOk := fun a =>
  inferInstanceAs (Decidable (up.Enabled a ∧ up.WriteOk a ∧ ∀ r ∈ up.step a, OneGeneration r.1))

theorem Inv.maybeMoveToSealed
    (hc : up.writableChunks.get i = some c) (hone : OneGeneration (up.maybeMoveToSealed c i).1) :
    Inv chunkSize (up.maybeMoveToSealed c i).1
      ((up.maybeMoveToSealed c i).2.foldl (Latest.after up.chunkSize) last) := by
  unfold UploadPipeline.maybeMoveToSealed at hone ⊢
  split at hone
  · rename_i hcomplete
    rw [if_pos hcomplete]
    exact h.moveToSealed hc hone
  · rename_i hcomplete
    rw [if_neg hcomplete]
    exact h

omit h in
theorem Inv.writeTo {sf : SwapFile}
    (h : Inv chunkSize (up.put sf (up.indexOf call.off) c) last) (hlt : call.off + call.p.length < 2 ^ 63)
    (hfits : c.slot ≠ none → up.Fits call)
    (hone : ∀ r, { up with swapFile := sf }.writeTo c call = some r → OneGeneration r.1) :
    ∃ r, { up with swapFile := sf }.writeTo c call = some r ∧
      Inv chunkSize r.1 (r.2.foldl (Latest.after up.chunkSize) last) := by
  have hget : (up.put sf (up.indexOf call.off) c).writableChunks.get (up.indexOf call.off) = some c := by
    rw [put, get_insert, if_pos rfl]
  obtain ⟨sf', c', n, hwrite, hinv⟩ := h.write hget hlt hfits
  have hinv : Inv chunkSize (up.put sf' (up.indexOf call.off) c')
      (last.after up.chunkSize (.wrote call.off (call.p.take n))) :=
    (put_put sf sf' (up.indexOf call.off) c c') ▸ hinv
  have heq : { up with swapFile := sf }.writeTo c call = some
      (((up.put sf' (up.indexOf call.off) c').maybeMoveToSealed c' (up.indexOf call.off)).1,
        .wrote call.off (call.p.take n) ::
          ((up.put sf' (up.indexOf call.off) c').maybeMoveToSealed c' (up.indexOf call.off)).2) :=
    writeTo_eq hwrite
  refine ⟨_, heq, ?_⟩
  have hone := hone _ heq
  refine hinv.maybeMoveToSealed ?_ hone
  rw [put, get_insert, if_pos rfl]

theorem Inv.createAndWrite {env : Surroundings}
    (hnone : up.writableChunks.get (up.indexOf call.off) = none)
    (hlt : call.off + call.p.length < 2 ^ 63) (hfits : up.inMemory call env ∨ up.Fits call)
    (hone : ∀ r, up.createAndWrite call env = some r → OneGeneration r.1) :
    ∃ r, up.createAndWrite call env = some r ∧
      Inv chunkSize r.1 (r.2.foldl (Latest.after up.chunkSize) last) := by
  have hfree : slotOf up (.inl (up.indexOf call.off)) = none := by
    rw [slotOf, hnone, bind_none]
  unfold UploadPipeline.createAndWrite at hone ⊢
  cases hmem : up.inMemory call env with
  | true =>
    rw [hmem] at hone
    have hslots : Slots (update (slotOf up) (.inl (up.indexOf call.off)) none) up.swapFile := by
      rw [update_eq_self_iff.2 hfree.symm]
      exact h.slots
    refine Inv.writeTo (h.put_new hnone rfl rfl (holds_newMemChunk _ _ _) hslots) hlt ?_ hone
    simp [PageChunk.slot]
  | false =>
    rw [hmem] at hone hfits
    have hfits : up.Fits call := hfits.resolve_left (by simp)
    obtain ⟨hslots, -⟩ := h.slots.newSwapFileChunk (.inl (up.indexOf call.off)) (up.indexOf call.off)
    have hnew : (up.swapFile.newSwapFileChunk (up.indexOf call.off)).1.file = up.swapFile.file ∧
        (up.swapFile.newSwapFileChunk (up.indexOf call.off)).2.usage = newChunkWrittenIntervalList ∧
        (up.swapFile.newSwapFileChunk (up.indexOf call.off)).2.logicChunkIndex = up.indexOf call.off := by
      unfold SwapFile.newSwapFileChunk
      split <;> exact ⟨rfl, rfl, rfl⟩
    refine Inv.writeTo ?_ hlt (fun _ => hfits) hone
    exact h.put_new hnone (by exact hnew.2.2) hnew.1 (holds_newSwapFileChunk _ hnew.2.1) hslots

/-- **Step.** -/
theorem Inv.step {a : Step} (ha : up.StepOk a) :
    ∃ r, up.step a = some r ∧ Inv chunkSize r.1 (r.2.foldl (Latest.after up.chunkSize) last) := by
  obtain ⟨hen, hok, hone⟩ := ha
  cases a with
  | save call env =>
    obtain ⟨hlt, hperm, hfull⟩ := hen
    simp only [UploadPipeline.step, saveDataAt] at hone ⊢
    cases hget : up.writableChunks.get (up.indexOf call.off) with
    | some c =>
      rw [hget] at hone
      have hput : Inv chunkSize (up.put up.swapFile (up.indexOf call.off) c) last := by
        rw [put_self hget]
        exact h
      exact hput.writeTo hlt (hok.1 c hget) hone
    | none =>
      rw [hget] at hone
      simp only at hone ⊢
      split at hone
      · rename_i hmany
        rw [if_pos hmany]
        obtain ⟨i, c, hi, hc⟩ := exists_fullest hperm (hfull ⟨hget, hmany⟩)
        rw [hi] at hone ⊢
        simp only [bind_eq_bind, bind_some, hc] at hone ⊢
        have hone := hone _ rfl
        have hinv := h.moveToSealed hc hone
        exact ⟨_, rfl, ⟨hinv.size, hinv.writable, hinv.absent, hinv.unfinished, hinv.mapped, hinv.placed,
          hinv.slots, forall_mem_append.2 ⟨hinv.waiting, forall_mem_singleton.2 hlt⟩⟩⟩
      · rename_i hmany
        rw [if_neg hmany]
        refine h.createAndWrite hget hlt ((hok.2 hget).resolve_left fun hf => hmany hf.2) hone
  | resume k env =>
    have hk := getElem?_eq_getElem (show k < up.waiting.length from hen)
    simp only [UploadPipeline.step, resume, hk] at hone ⊢
    have hinv : Inv chunkSize { up with waiting := up.waiting.eraseIdx k } last :=
      ⟨h.size, h.writable, h.absent, h.unfinished, h.mapped, h.placed, h.slots, fun call hcall =>
        h.waiting call (mem_of_mem_eraseIdx hcall)⟩
    obtain ⟨hnone, hfits⟩ := hok _ hk
    exact hinv.createAndWrite hnone (h.waiting _ (getElem_mem _)) hfits hone
  | flush i =>
    obtain ⟨c, hc⟩ := isSome_iff_exists.1 hen
    simp only [UploadPipeline.step, flush, hc] at hone ⊢
    exact ⟨_, rfl, h.moveToSealed hc (hone _ rfl)⟩
  | saveContent g =>
    rw [UploadPipeline.Enabled] at hen
    cases hsc : up.generations[g]? with
    | none => simp [hsc] at hen
    | some sc =>
      have hsaved : sc.saved = false := by simpa [hsc] using hen
      simp only [UploadPipeline.step, UploadPipeline.saveContent, hsc, hsaved, bind_eq_bind, bind_some]
      exact ⟨_, rfl, h.saveContent hsc _⟩
  | finish g =>
    rw [UploadPipeline.Enabled] at hen
    cases hsc : up.generations[g]? with
    | none => simp [hsc] at hen
    | some sc =>
      have hok : sc.saved ∧ ¬ sc.finished ∧ ¬ up.isLocked sc.logicChunkIndex := by
        simpa [hsc, and_assoc] using hen
      simp only [UploadPipeline.step, UploadPipeline.finish, hsc, if_pos hok, bind_eq_bind, bind_some]
      exact ⟨_, rfl, h.finish hsc (by simpa using hok.2.1)⟩
  | lockForRead | unlockForRead =>
    exact ⟨_, rfl, h.size, h.writable, h.absent, h.unfinished, h.mapped, h.placed, h.slots, h.waiting⟩

/-! ## Reading -/

/-- The byte is in a writable chunk or in a sealed one whose job has not come to its end. -/
def UploadPipeline.Unfinished (up : UploadPipeline) (w : Written) : Prop :=
  ∀ g, w.generation = some g → ∃ sc, up.generations[g]? = some sc ∧ sc.finished = false

theorem Inv.sealedChunk (hsc : up.sealedChunk i = some sc) : ∃ g : Nat, up.generations[g]? = some sc ∧
      sc.logicChunkIndex = i ∧ sc.finished = false := by
  obtain ⟨g, hg, hsc⟩ := bind_eq_some_iff.1 hsc
  obtain ⟨sc', hsc', hidx, hfin⟩ := h.mapped i g hg
  obtain rfl : sc = sc' := some.inj (hsc.symm.trans hsc')
  exact ⟨g, hsc, hidx, hfin⟩

/-- **A read** gets the latest bytes. -/
theorem Inv.maybeReadDataAt {w : Written} (hw : last x = some w)
    (hfin : up.Unfinished w) {p : List UInt8} (hoff : off ≤ x) (hx : x < off + p.length)
    (hidx : up.indexOf x = up.indexOf off) :
    (up.maybeReadDataAt p off).1[x - off]? = some w.byte ∧ x < (up.maybeReadDataAt p off).2 := by
  have hbase : up.indexOf off * up.chunkSize ≤ off := Nat.div_mul_le_self _ _
  have hinner : up.indexOf off * up.chunkSize + (x - up.indexOf off * up.chunkSize) = x := by omega
  have hlt : x - up.indexOf off * up.chunkSize < up.chunkSize := by
    rw [← hidx, indexOf, Nat.mul_comm, ← Nat.mod_eq_sub_mul_div]
    exact Nat.mod_lt _ up.chunkSize_pos
  have hpos : off + (x - off) - up.indexOf off * up.chunkSize = x - up.indexOf off * up.chunkSize := by
    omega
  have hlen : (up.readSealed p off).1.length = p.length := by
    unfold readSealed
    cases hsc : up.sealedChunk (up.indexOf off) with
    | none => rfl
    | some sc =>
      obtain ⟨g, hg, hi, hunf⟩ := h.sealedChunk hsc
      obtain ⟨-, -, hlogic, k, hk, -⟩ := h.unfinished g sc hg hunf
      exact (hk.readDataAt (by rw [hlogic, hi]; exact hbase) p).1
  unfold UploadPipeline.maybeReadDataAt
  obtain ⟨b, place⟩ := w
  cases place with
  | none =>
    have hb : contentOf up.chunkSize last (up.indexOf off) none (x - up.indexOf off * up.chunkSize) =
        some b := contentOf_eq_some.2 ⟨hlt, by rw [hinner, hw]⟩
    cases hc : up.writableChunks.get (up.indexOf off) with
    | none => simp [h.absent _ hc] at hb
    | some c =>
      obtain ⟨hlogic, hholds⟩ := h.writable _ c hc
      have hbase' : c.logicChunkIndex * up.chunkSize ≤ off := hlogic.symm ▸ hbase
      obtain ⟨-, hcopied, -⟩ := hholds.readDataAt hbase' (up.readSealed p off).1
      have := hcopied (x - off) (by omega) b (by rw [hlogic, hpos, hb])
      refine ⟨this.1, ?_⟩
      show (x : Int) < max _ _
      omega
  | some g =>
    obtain ⟨sc, hsc, hunf⟩ := hfin g rfl
    obtain ⟨sc', hsc', hi⟩ := h.placed x b g hw
    obtain rfl : sc = sc' := some.inj (hsc.symm.trans hsc')
    have hi : sc.logicChunkIndex = up.indexOf off := hi.trans hidx
    obtain ⟨hmap, -, hlogic, k, hk, hcontent⟩ := h.unfinished g sc hsc hunf
    have hsealed : up.sealedChunk (up.indexOf off) = some sc := by
      rw [UploadPipeline.sealedChunk, ← hi, hmap, bind_some, hsc]
    have hrb : (up.readSealed p off).1[x - off]? = some b ∧ x < (up.readSealed p off).2 := by
      simp only [readSealed, hsealed]
      have hbase' : sc.chunk.logicChunkIndex * up.chunkSize ≤ off := by
        rw [hlogic, hi]
        exact hbase
      obtain ⟨-, hcopied, -⟩ := hk.readDataAt hbase' p
      have := hcopied (x - off) (by omega) b (by
        rw [hlogic, hi, hpos]
        exact hcontent _ b (by rw [hi]; exact contentOf_eq_some.2 ⟨hlt, by rw [hinner, hw]⟩))
      exact ⟨this.1, by omega⟩
    cases hc : up.writableChunks.get (up.indexOf off) with
    | none => exact hrb
    | some c =>
      obtain ⟨hlogic, hholds⟩ := h.writable _ c hc
      have hbase' : c.logicChunkIndex * up.chunkSize ≤ off := hlogic.symm ▸ hbase
      obtain ⟨-, -, hkept⟩ := hholds.readDataAt hbase' (up.readSealed p off).1
      have hnone : contentOf up.chunkSize last (up.indexOf off) none
          (x - up.indexOf off * up.chunkSize) = none := by
        rw [eq_none_iff_forall_ne_some]
        intro b' hb'
        have := (contentOf_eq_some.1 hb').2
        rw [hinner, hw] at this
        cases this
      refine ⟨?_, ?_⟩
      · rw [hkept (x - off) (by rw [hlogic, hpos, hnone]), hrb.1]
      · show (x : Int) < max _ _
        omega

end

/-- **A read gets the byte that was written last, until the job of its chunk is finished.** -/
theorem maybeReadDataAt_latest (chunkSize bufferChunkLimit : Nat) (hpos : 0 < chunkSize)
    (hlt : chunkSize < 2 ^ 63) (steps : List Step)
    (h : Admits UploadPipeline.step UploadPipeline.StepOk
      (newUploadPipeline chunkSize bufferChunkLimit hpos hlt) steps) :
    ∃ up events, (newUploadPipeline chunkSize bufferChunkLimit hpos hlt).run steps = some (up, events) ∧
      ∀ x w, latest chunkSize events x = some w → up.Unfinished w →
        ∀ p off, off ≤ x → x < off + p.length → x / chunkSize = off / chunkSize →
          (up.maybeReadDataAt p off).1[x - off]? = some w.byte ∧ x < (up.maybeReadDataAt p off).2 := by
  obtain ⟨⟨up, events⟩, hrun, hinv⟩ := trace_inv
    (I := fun up events => Inv chunkSize up (latest chunkSize events))
    (fun up es a hup ha => by
      obtain ⟨r, hr, hr'⟩ := hup.step ha
      refine ⟨r, hr, ?_⟩
      rw [hup.size] at hr'
      rwa [latest, foldl_append])
    (inv_new chunkSize bufferChunkLimit hpos hlt) h
  refine ⟨up, events, hrun, fun x w hw hfin p off hoff hx hidx => ?_⟩
  refine hinv.maybeReadDataAt hw hfin hoff hx ?_
  have hsize : up.chunkSize = chunkSize := hinv.size
  rwa [indexOf, indexOf, hsize]

/-- A byte is written and sealed, and another one of the chunk is written meanwhile. -/
def writeWhileSealed : List Step :=
  [.save ⟨[1], 0, true, 1⟩ alone, .flush 0, .save ⟨[2], 1, true, 2⟩ alone]

theorem maybeReadDataAt_latest_sealed :
    Admits UploadPipeline.step UploadPipeline.StepOk
      (newUploadPipeline 4 2 (by decide) (by decide)) writeWhileSealed ∧
    ∃ up events, (newUploadPipeline 4 2 (by decide) (by decide)).run writeWhileSealed =
        some (up, events) ∧
      ∀ x w, latest 4 events x = some w → up.Unfinished w →
        ∀ p off, off ≤ x → x < off + p.length → x / 4 = off / 4 →
          (up.maybeReadDataAt p off).1[x - off]? = some w.byte ∧ x < (up.maybeReadDataAt p off).2 := by
  have h : Admits step UploadPipeline.StepOk
      (newUploadPipeline 4 2 (by decide) (by decide)) writeWhileSealed := by decide +kernel
  exact ⟨h, maybeReadDataAt_latest 4 2 (by decide) (by decide) writeWhileSealed h⟩

/-- A byte is written and flushed twice; the job of the first chunk ends behind the second seal. -/
def finishOlder : List Step :=
  [.save ⟨[1], 0, true, 1⟩ alone, .flush 0, .saveContent 0, .save ⟨[2], 0, true, 2⟩ alone, .flush 0,
    .finish 0]

/-- The end of the older job removes the newer chunk, whose byte is not saved and cannot be read. -/
theorem maybeReadDataAt_invisible :
    Admits UploadPipeline.step UploadPipeline.Enabled
      (newUploadPipeline 4 2 (by decide) (by decide)) finishOlder ∧
    ((newUploadPipeline 4 2 (by decide) (by decide)).run finishOlder).any fun r =>
      latest 4 r.2 0 == some ⟨2, some 1⟩ &&
      (r.1.generations[1]?.any fun sc => !sc.saved && !sc.finished) &&
      r.1.maybeReadDataAt [0] 0 == ([0], 0) := by
  constructor
  · decide +kernel
  · decide +kernel

end PageWriter
