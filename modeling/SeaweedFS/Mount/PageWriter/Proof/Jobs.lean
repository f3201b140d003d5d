import SeaweedFS.Mount.PageWriter.UploadPipeline
import SeaweedFS.Mount.PageWriter.Proof.PageChunk

/-!
# The uploading jobs

The reference counter lets `FreeResource` be called once for each sealed chunk (`Counted`), before the job has saved
the chunk just when the chunk is replaced before that.
-/

namespace PageWriter

open Lib List Option SealedChunk SortedMap UploadPipeline

variable {call : SaveCall} {mid : UploadPipeline}

/-! ## Steps that can be taken -/

/-- `SaveDataAt` has to seal a chunk before it can create one. -/
def UploadPipeline.Full (up : UploadPipeline) (call : SaveCall) : Prop :=
  up.writableChunks.get (up.indexOf call.off) = none ∧
    up.writableChunkLimit < up.writableChunks.entries.length

instance (up : UploadPipeline) (call : SaveCall) : Decidable (up.Full call) :=
  inferInstanceAs (Decidable (_ ∧ _))

/-- The steps that can be taken: calls within the offsets of a file that find a chunk to seal if need be, and jobs
that have come so far. -/
def UploadPipeline.Enabled (up : UploadPipeline) : Step → Prop
  | .save call env =>
    call.off + call.p.length < 2 ^ 63 ∧ (env.order up.writableChunks.entries).Perm up.writableChunks.entries ∧
      (up.Full call → ∃ e ∈ up.writableChunks.entries, 0 < e.2.writtenSize)
  | .resume k _ => k < up.waiting.length
  | .flush logicChunkIndex => (up.writableChunks.get logicChunkIndex).isSome
  | .saveContent generation => up.generations[generation]?.any fun sc => !sc.saved
  | .finish generation => up.generations[generation]?.any fun sc =>
      sc.saved && !sc.finished && !up.isLocked sc.logicChunkIndex
  | .lockForRead _ _ | .unlockForRead _ _ => True

instance (up : UploadPipeline) : DecidablePred up.Enabled
  | .save _ _ => inferInstanceAs (Decidable (_ ∧ _ ∧ (_ → _)))
  | .resume _ _ => inferInstanceAs (Decidable (_ < _))
  | .flush _ | .saveContent _ | .finish _ => inferInstanceAs (Decidable (_ = true))
  | .lockForRead _ _ | .unlockForRead _ _ => .isTrue trivial

/-- The intervals of the writable chunks are in order, and the calls that wait are within the offsets. -/
structure Usable (up : UploadPipeline) : Prop where
  usage : ∀ i c, up.writableChunks.get i = some c → IsUsage c.usage
  waiting : ∀ call ∈ up.waiting, call.off + call.p.length < 2 ^ 63

variable {up up' : UploadPipeline} {events : List Event}

theorem usable_new (chunkSize bufferChunkLimit : Nat) (hpos : 0 < chunkSize) (hlt : chunkSize < 2 ^ 63) :
    Usable (newUploadPipeline chunkSize bufferChunkLimit hpos hlt) :=
  ⟨by simp [newUploadPipeline], by simp [newUploadPipeline]⟩

/-- The walk over the chunks ends with one of them, unless none is fuller than what it began with. -/
theorem fullest_foldl (chunks : List (Nat × PageChunk)) (candidate : Option Nat × Int64) :
    let r := chunks.foldl (fun (candidate : Option Nat × Int64) c =>
      let chunkFullness := c.2.writtenSize
      if candidate.2 < chunkFullness then (some c.1, chunkFullness) else candidate) candidate
    (r = candidate ∧ ∀ e ∈ chunks, ¬ candidate.2 < e.2.writtenSize) ∨ ∃ e ∈ chunks, r.1 = some e.1 := by
  induction chunks generalizing candidate with
  | nil => exact .inl ⟨rfl, by simp⟩
  | cons c chunks ih =>
    rw [foldl_cons]
    by_cases hlt : candidate.2 < c.2.writtenSize
    · simp only [if_pos hlt]
      rcases ih (some c.1, c.2.writtenSize) with ⟨hr, -⟩ | ⟨e, he, hr⟩
      · exact .inr ⟨c, mem_cons_self, by rw [hr]⟩
      · exact .inr ⟨e, .tail _ he, hr⟩
    · simp only [if_neg hlt]
      rcases ih candidate with ⟨hr, hall⟩ | ⟨e, he, hr⟩
      · exact .inl ⟨hr, forall_mem_cons.2 ⟨hlt, hall⟩⟩
      · exact .inr ⟨e, .tail _ he, hr⟩

variable {env : Surroundings}

theorem exists_fullest (hperm : (env.order up.writableChunks.entries).Perm up.writableChunks.entries)
    (h : ∃ e ∈ up.writableChunks.entries, 0 < e.2.writtenSize) :
    ∃ i c, UploadPipeline.fullest (env.order up.writableChunks.entries) = some i ∧
      up.writableChunks.get i = some c := by
  obtain ⟨e, he, hpos⟩ := h
  rcases fullest_foldl (env.order up.writableChunks.entries) (none, 0) with ⟨-, hall⟩ | ⟨e', he', hr⟩
  · exact absurd hpos (hall e (hperm.mem_iff.2 he))
  · exact ⟨e'.1, e'.2, hr, (up.writableChunks.mem_entries _ _).1 (hperm.mem_iff.1 he')⟩

variable {c : PageChunk}

theorem IsUsage.writeDataAt (h : IsUsage c.usage) (chunkSize : Nat) (sf : SwapFile)
    (hlt : call.off + call.p.length < 2 ^ 63) :
    ∃ sf' c' n, c.writeDataAt chunkSize sf call.p call.off call.tsNs = some (sf', c', n) ∧
      IsUsage c'.usage := by
  have hinner : call.off % chunkSize ≤ call.off := Nat.mod_le _ _
  cases c with
  | mem mc =>
    have h : IsUsage mc.usage := h
    set n := min (mc.buf.length - call.off % chunkSize) call.p.length with hn
    obtain ⟨u, hu, husage, -⟩ := h.markWritten (Nat.le_add_right (call.off % chunkSize) n) (by omega)
      call.tsNs
    refine ⟨sf, .mem { mc with buf := writeAt mc.buf (call.off % chunkSize) call.p, usage := u }, n,
      ?_, husage⟩
    rw [PageChunk.writeDataAt, MemChunk.writeDataAt, ← hn, hu]
    rfl
  | swap sc =>
    have h : IsUsage sc.usage := h
    obtain ⟨u, hu, husage, -⟩ := h.markWritten
      (Nat.le_add_right (call.off % chunkSize) call.p.length) (by omega) call.tsNs
    have hwrite : ∃ sf', sc.writeDataAt chunkSize sf call.p call.off call.tsNs =
        some (sf', { sc with usage := u }, call.p.length) := by
      rw [SwapFileChunk.writeDataAt, hu]
      exact ⟨_, rfl⟩
    obtain ⟨sf', hwrite⟩ := hwrite
    exact ⟨sf', .swap { sc with usage := u }, call.p.length,
      by rw [PageChunk.writeDataAt, hwrite]; rfl, husage⟩

/-! ## Writing into a chunk -/

/-- The pipeline with the chunk `c` at `i`. -/
def UploadPipeline.put (up : UploadPipeline) (sf : SwapFile) (i : Nat) (c : PageChunk) : UploadPipeline :=
  { up with swapFile := sf, writableChunks := up.writableChunks.insert i c }

/-- The chunk that was written is put into its place, and sealed if it is complete. -/
theorem writeTo_eq {c' : PageChunk} {sf : SwapFile} {n : Nat}
    (h : c.writeDataAt up.chunkSize up.swapFile call.p call.off call.tsNs = some (sf, c', n)) :
    up.writeTo c call = some
      (((up.put sf (up.indexOf call.off) c').maybeMoveToSealed c' (up.indexOf call.off)).1,
        .wrote call.off (call.p.take n) ::
          ((up.put sf (up.indexOf call.off) c').maybeMoveToSealed c' (up.indexOf call.off)).2) := by
  rw [writeTo, h]
  rfl

/-! ## What a step does to the jobs -/

/-- A reference less. -/
def SealedChunk.dropped (sc : SealedChunk) : SealedChunk :=
  { sc with referenceCounter := sc.referenceCounter - 1
            freed := if sc.referenceCounter - 1 = 0 then sc.freed + 1 else sc.freed }

/-- The sealed chunks once the one of the index `i` is given up. -/
def UploadPipeline.released (up : UploadPipeline) (i : Nat) : List SealedChunk :=
  match up.sealedChunks.get i with
  | some old => up.generations.modify old SealedChunk.dropped
  | none => up.generations

/-- What a step does to the sealed chunks. -/
inductive JobStep (up up' : UploadPipeline) (events : List Event) : Prop
  | idle (hgen : up'.generations = up.generations) (hmap : up'.sealedChunks = up.sealedChunks)
      (hevents : ∀ j g, Event.sealed j g ∉ events)
  | sealed (i : Nat) (c : PageChunk)
      (hgen : up'.generations = up.released i ++ [{ chunk := c, logicChunkIndex := i }])
      (hmap : up'.sealedChunks = up.sealedChunks.insert i up.generations.length)
      (hevents : ∀ j, (∃ g, Event.sealed j g ∈ events) ↔ j = i)
  | saveContent (g : Nat) (sc : SealedChunk) (hsc : up.generations[g]? = some sc)
      (hgen : up'.generations = up.generations.set g { sc with saved := true })
      (hmap : up'.sealedChunks = up.sealedChunks) (hevents : events = [])
  | finish (g : Nat) (sc : SealedChunk) (hsc : up.generations[g]? = some sc) (hsaved : sc.saved = true)
      (hfinished : sc.finished = false)
      (hgen : up'.generations =
        up.generations.set g (SealedChunk.dropped { sc with finished := true }))
      (hmap : up'.sealedChunks = up.sealedChunks.erase sc.logicChunkIndex) (hevents : events = [])

theorem generations_freeReference (up : UploadPipeline) (g : Nat) :
    (up.freeReference g).generations = up.generations.modify g SealedChunk.dropped := by
  unfold freeReference
  cases hg : up.generations[g]? with
  | none => rw [modify_eq_self (getElem?_eq_none_iff.1 hg)]
  | some sc =>
    rw [modify_eq_set_getElem?, hg, Option.map_eq_map, map_some, getD_some]
    simp only [dropped]
    split <;> rfl

theorem sealedChunks_freeReference (up : UploadPipeline) (g : Nat) :
    (up.freeReference g).sealedChunks = up.sealedChunks := by
  unfold freeReference
  cases up.generations[g]? with
  | none => rfl
  | some sc =>
    simp only
    split <;> rfl

theorem length_released (up : UploadPipeline) (i : Nat) :
    (up.released i).length = up.generations.length := by
  unfold released
  cases up.sealedChunks.get i with
  | none => rfl
  | some old => exact length_modify _ _ _

theorem jobStep_moveToSealed (hgen : mid.generations = up.generations)
    (hmap : mid.sealedChunks = up.sealedChunks) (c : PageChunk) (i : Nat)
    (hgen' : up'.generations = (mid.moveToSealed c i).1.generations)
    (hmap' : up'.sealedChunks = (mid.moveToSealed c i).1.sealedChunks)
    (hevents : ∀ j g, Event.sealed j g ∈ events ↔ Event.sealed j g ∈ (mid.moveToSealed c i).2) :
    JobStep up up' events := by
  have hrel : (mid.replaceSealed i).generations = up.released i := by
    rw [replaceSealed, hmap, released]
    cases up.sealedChunks.get i with
    | none => exact hgen
    | some old =>
      rw [← hgen]
      exact generations_freeReference mid old
  have hseal : (mid.replaceSealed i).sealedChunks = up.sealedChunks := by
    rw [← hmap, replaceSealed]
    cases mid.sealedChunks.get i with
    | none => rfl
    | some old => exact sealedChunks_freeReference mid old
  refine .sealed i c ?_ ?_ fun j => ?_
  · rw [hgen', moveToSealed]
    simp only [hrel]
  · rw [hmap', moveToSealed]
    simp only [hrel, hseal, length_released]
  · simp only [hevents, moveToSealed, mem_singleton, Event.sealed.injEq,
      exists_and_left, exists_eq, and_true]

theorem jobStep_writeTo
    (h : mid.writeTo c call = some (up', events)) (hgen : mid.generations = up.generations)
    (hmap : mid.sealedChunks = up.sealedChunks) : JobStep up up' events := by
  have hsome := h
  simp only [writeTo, bind_eq_bind, bind_eq_some_iff] at hsome
  obtain ⟨⟨sf, c', n⟩, hwrite, -⟩ := hsome
  rw [writeTo_eq hwrite, maybeMoveToSealed] at h
  split at h
  · cases h
    refine jobStep_moveToSealed ?_ ?_ c' (mid.indexOf call.off) rfl rfl fun j g => ?_
    · exact hgen
    · exact hmap
    · simp
  · cases h
    exact .idle hgen hmap (by simp)

theorem jobStep_createAndWrite
    (h : mid.createAndWrite call env = some (up', events)) (hgen : mid.generations = up.generations)
    (hmap : mid.sealedChunks = up.sealedChunks) : JobStep up up' events := by
  unfold createAndWrite at h
  split at h
  · exact jobStep_writeTo h hgen hmap
  · exact jobStep_writeTo h hgen hmap

/-- **What a step does to the jobs.** -/
theorem jobStep_step {a : Step} (h : up.step a = some (up', events)) : JobStep up up' events := by
  cases a with
  | save call env =>
    simp only [step, saveDataAt] at h
    split at h
    · exact jobStep_writeTo h rfl rfl
    · split at h
      · simp only [bind_eq_bind, bind_eq_some_iff] at h
        obtain ⟨i, -, c, -, h⟩ := h
        cases h
        exact jobStep_moveToSealed rfl rfl c i rfl rfl fun j g => Iff.rfl
      · exact jobStep_createAndWrite h rfl rfl
  | resume k env =>
    simp only [step, resume, bind_eq_bind, bind_eq_some_iff] at h
    obtain ⟨call, -, h⟩ := h
    exact jobStep_createAndWrite h rfl rfl
  | flush i =>
    simp only [step, flush, bind_eq_bind, bind_eq_some_iff] at h
    obtain ⟨c, -, h⟩ := h
    cases h
    exact jobStep_moveToSealed rfl rfl c i rfl rfl fun j g => Iff.rfl
  | saveContent g =>
    simp only [step, saveContent, bind_eq_bind, map_eq_some_iff, bind_eq_some_iff] at h
    obtain ⟨_, ⟨sc, hsc, h⟩, heq⟩ := h
    cases heq
    split at h
    · cases h
    · cases h
      exact .saveContent g sc hsc rfl rfl rfl
  | finish g =>
    simp only [step, finish, bind_eq_bind, map_eq_some_iff, bind_eq_some_iff] at h
    obtain ⟨_, ⟨sc, hsc, h⟩, heq⟩ := h
    cases heq
    split at h
    · rename_i hok
      cases h
      refine .finish g sc hsc hok.1 (by simpa using hok.2.1) ?_ ?_ rfl
      · obtain ⟨hlt, -⟩ := List.getElem?_eq_some_iff.1 hsc
        rw [generations_freeReference, modify_eq_set_getElem?]
        simp only [getElem?_set_self hlt, Option.map_eq_map, map_some, getD_some, set_set]
      · exact sealedChunks_freeReference _ g
    · cases h
  | lockForRead startOffset stopOffset =>
    cases h
    exact .idle rfl rfl (by simp)
  | unlockForRead startOffset stopOffset =>
    cases h
    exact .idle rfl rfl (by simp)

/-! ## Counting references -/

/-- The chunk is in use, was freed when the counter came to zero, or its job was the second to give it up. -/
inductive Counted (sc : SealedChunk) : Prop
  | used (hcount : sc.referenceCounter = 1) (hfreed : sc.freed = 0) (hfinished : sc.finished = false)
  | freed (hcount : sc.referenceCounter = 0) (hfreed : sc.freed = 1)
  | twice (hcount : sc.referenceCounter = -1) (hfreed : sc.freed = 1) (hfinished : sc.finished = true)

/-- Every sealed chunk is counted, and those of the map are in use. -/
structure Ledger (up : UploadPipeline) : Prop where
  counted : ∀ (g : Nat) (sc : SealedChunk), up.generations[g]? = some sc → Counted sc
  mapped : ∀ i g, up.sealedChunks.get i = some g →
    ∃ sc, up.generations[g]? = some sc ∧ sc.referenceCounter = 1 ∧ sc.logicChunkIndex = i

theorem ledger_new (chunkSize bufferChunkLimit : Nat) (hpos : 0 < chunkSize) (hlt : chunkSize < 2 ^ 63) :
    Ledger (newUploadPipeline chunkSize bufferChunkLimit hpos hlt) :=
  ⟨by simp [newUploadPipeline], by simp [newUploadPipeline]⟩

theorem getElem?_released (up : UploadPipeline) (i g : Nat) : (up.released i)[g]? =
    if up.sealedChunks.get i = some g then up.generations[g]?.map SealedChunk.dropped
    else up.generations[g]? := by
  unfold released
  cases up.sealedChunks.get i with
  | none => rfl
  | some old =>
    rw [getElem?_modify]
    simp only [some.injEq]
    split
    · rfl
    · exact map_id'

variable {sc : SealedChunk}

theorem counted_dropped (h : Counted sc) (hcount : sc.referenceCounter = 1) :
    Counted sc.dropped ∧ sc.dropped.freed = 1 := by
  cases h with
  | used _ hfreed _ =>
    have : sc.dropped.freed = 1 := by simp [dropped, hcount, hfreed]
    exact ⟨.freed (by simp [dropped, hcount]) this, this⟩
  | freed hcount' _ => omega
  | twice hcount' _ _ => omega

theorem counted_finished (h : Counted sc) (hfinished : sc.finished = false) :
    Counted (SealedChunk.dropped { sc with finished := true }) ∧
      (SealedChunk.dropped { sc with finished := true }).freed = 1 := by
  cases h with
  | used hcount hfreed _ =>
    have : (dropped { sc with finished := true }).freed = 1 := by
      simp [dropped, hcount, hfreed]
    exact ⟨.freed (by simp [dropped, hcount]) this, this⟩
  | freed hcount hfreed =>
    have : (dropped { sc with finished := true }).freed = 1 := by
      simp [dropped, hcount, hfreed]
    exact ⟨.twice (by simp [dropped, hcount]) this rfl, this⟩
  | twice _ _ hfinished' => simp [hfinished] at hfinished'

/-- **Step.** -/
theorem JobStep.ledger (h : JobStep up up' events) (hl : Ledger up) : Ledger up' := by
  cases h with
  | idle hgen hmap _ => exact ⟨by rw [hgen]; exact hl.counted, by rw [hgen, hmap]; exact hl.mapped⟩
  | sealed i c hgen hmap _ =>
    constructor
    · intro g sc hsc
      rw [hgen, getElem?_append, length_released, getElem?_released] at hsc
      split at hsc
      · split at hsc
        · rename_i hi
          obtain ⟨sc0, hsc0, rfl⟩ := map_eq_some_iff.1 hsc
          obtain ⟨sc1, hsc1, hcount, -⟩ := hl.mapped i g hi
          obtain rfl : sc0 = sc1 := some.inj (hsc0.symm.trans hsc1)
          exact (counted_dropped (hl.counted g sc0 hsc0) hcount).1
        · exact hl.counted g sc hsc
      · obtain rfl := mem_singleton.1 (mem_of_getElem? hsc)
        exact .used rfl rfl rfl
    · intro j g hg
      rw [hmap, get_insert] at hg
      rw [hgen, getElem?_append, length_released, getElem?_released]
      split at hg
      · rename_i hij
        cases hg
        exact ⟨_, by rw [if_neg (Nat.lt_irrefl _), Nat.sub_self]; rfl, rfl, hij⟩
      · rename_i hij
        obtain ⟨sc, hsc, hcount, hidx⟩ := hl.mapped j g hg
        obtain ⟨hlt, -⟩ := List.getElem?_eq_some_iff.1 hsc
        refine ⟨sc, ?_, hcount, hidx⟩
        -- the entry of `i` is another chunk, since it is one of the index `i`
        rw [if_pos hlt, if_neg, hsc]
        intro hi
        obtain ⟨sc', hsc', -, hidx'⟩ := hl.mapped i g hi
        rw [hsc] at hsc'
        cases hsc'
        exact hij (hidx'.symm.trans hidx)
  | saveContent g sc hsc hgen hmap _ =>
    obtain ⟨hlt, -⟩ := List.getElem?_eq_some_iff.1 hsc
    constructor
    · intro g' sc' hsc'
      rw [hgen, getElem?_set] at hsc'
      split at hsc'
      · cases hsc'
        cases hl.counted g sc hsc with
        | used h1 h2 h3 => exact .used h1 h2 h3
        | freed h1 h2 => exact .freed h1 h2
        | twice h1 h2 h3 => exact .twice h1 h2 h3
      · exact hl.counted g' sc' hsc'
    · intro i g' hg'
      rw [hmap] at hg'
      obtain ⟨sc', hsc', hcount, hidx⟩ := hl.mapped i g' hg'
      rw [hgen, getElem?_set]
      split
      · rename_i heq
        subst heq
        rw [hsc] at hsc'
        cases hsc'
        exact ⟨_, rfl, hcount, hidx⟩
      · exact ⟨sc', hsc', hcount, hidx⟩
  | finish g sc hsc hsaved hfinished hgen hmap _ =>
    obtain ⟨hlt, -⟩ := List.getElem?_eq_some_iff.1 hsc
    constructor
    · intro g' sc' hsc'
      rw [hgen, getElem?_set] at hsc'
      split at hsc'
      · cases hsc'
        exact (counted_finished (hl.counted g sc hsc) hfinished).1
      · exact hl.counted g' sc' hsc'
    · intro i g' hg'
      rw [hmap, get_erase] at hg'
      split at hg'
      · cases hg'
      · rename_i hne
        obtain ⟨sc', hsc', hcount, hidx⟩ := hl.mapped i g' hg'
        refine ⟨sc', ?_, hcount, hidx⟩
        rw [hgen, getElem?_set, if_neg, hsc']
        rintro rfl
        rw [hsc] at hsc'
        cases hsc'
        exact hne hidx

/-! ## Every enabled step can be taken -/

section

variable (h : Usable up)
include h

theorem Usable.freeReference (g : Nat) : Usable (up.freeReference g) := by
  unfold UploadPipeline.freeReference
  split
  · exact h
  · simp only
    split <;> exact ⟨h.usage, h.waiting⟩

theorem Usable.replaceSealed (i : Nat) : Usable (up.replaceSealed i) := by
  unfold UploadPipeline.replaceSealed
  split
  · exact h.freeReference _
  · exact h

theorem Usable.moveToSealed (c : PageChunk) (i : Nat) : Usable (up.moveToSealed c i).1 := by
  refine ⟨fun j d hd => ?_, (h.replaceSealed i).waiting⟩
  simp only [UploadPipeline.moveToSealed, get_erase] at hd
  split at hd
  · cases hd
  · exact (h.replaceSealed i).usage j d hd

theorem Usable.writeTo (hc : IsUsage c.usage)
    (hlt : call.off + call.p.length < 2 ^ 63) : ∃ r, up.writeTo c call = some r ∧ Usable r.1 := by
  obtain ⟨sf, c', n, hwrite, husage⟩ := hc.writeDataAt up.chunkSize up.swapFile hlt
  have hput : Usable (up.put sf (up.indexOf call.off) c') := by
    refine ⟨fun j d hd => ?_, h.waiting⟩
    simp only [put, get_insert] at hd
    split at hd
    · cases hd
      exact husage
    · exact h.usage j d hd
  refine ⟨_, writeTo_eq hwrite, ?_⟩
  rw [maybeMoveToSealed]
  split
  · exact hput.moveToSealed _ _
  · exact hput

theorem Usable.createAndWrite (hlt : call.off + call.p.length < 2 ^ 63) (env : Surroundings) :
    ∃ r, up.createAndWrite call env = some r ∧ Usable r.1 := by
  have hswap : ∀ sf i, IsUsage (SwapFile.newSwapFileChunk sf i).2.usage := by
    intro sf i
    unfold SwapFile.newSwapFileChunk
    split <;> exact isUsage_new
  unfold UploadPipeline.createAndWrite
  split
  · exact h.writeTo (by exact isUsage_new) hlt
  · have hup : Usable { up with
        swapFile := (up.swapFile.newSwapFileChunk (up.indexOf call.off)).1 } := ⟨h.usage, h.waiting⟩
    exact hup.writeTo (by exact hswap _ _) hlt

/-- **Step.** -/
theorem Usable.step {a : Step} (ha : up.Enabled a) : ∃ r, up.step a = some r ∧ Usable r.1 := by
  cases a with
  | save call env =>
    obtain ⟨hlt, hperm, hfull⟩ := ha
    simp only [UploadPipeline.step, saveDataAt]
    cases hget : up.writableChunks.get (up.indexOf call.off) with
    | some c => exact h.writeTo (h.usage _ c hget) hlt
    | none =>
      simp only
      split
      · rename_i hmany
        obtain ⟨i, c, hi, hc⟩ := exists_fullest hperm (hfull ⟨hget, hmany⟩)
        rw [hi]
        simp only [bind_eq_bind, bind_some, hc]
        obtain ⟨husage, hwaiting⟩ := h.moveToSealed c i
        exact ⟨_, rfl, husage, forall_mem_append.2 ⟨hwaiting, forall_mem_singleton.2 hlt⟩⟩
      · exact h.createAndWrite hlt env
  | resume k env =>
    have hk := getElem?_eq_getElem (show k < up.waiting.length from ha)
    simp only [UploadPipeline.step, resume, hk]
    have hup : Usable { up with waiting := up.waiting.eraseIdx k } :=
      ⟨h.usage, fun call hcall => h.waiting call (mem_of_mem_eraseIdx hcall)⟩
    exact hup.createAndWrite (h.waiting _ (getElem_mem _)) env
  | flush i =>
    obtain ⟨c, hc⟩ := isSome_iff_exists.1 ha
    simp only [UploadPipeline.step, flush, hc]
    exact ⟨_, rfl, h.moveToSealed c i⟩
  | saveContent g =>
    rw [UploadPipeline.Enabled] at ha
    cases hsc : up.generations[g]? with
    | none => simp [hsc] at ha
    | some sc =>
      have hsaved : sc.saved = false := by simpa [hsc] using ha
      simp only [UploadPipeline.step, saveContent, hsc, hsaved, bind_eq_bind, bind_some]
      exact ⟨_, rfl, h.usage, h.waiting⟩
  | finish g =>
    rw [UploadPipeline.Enabled] at ha
    cases hsc : up.generations[g]? with
    | none => simp [hsc] at ha
    | some sc =>
      have hok : sc.saved ∧ ¬ sc.finished ∧ ¬ up.isLocked sc.logicChunkIndex := by
        simpa [hsc, and_assoc] using ha
      simp only [UploadPipeline.step, finish, hsc, if_pos hok, bind_eq_bind, bind_some]
      have hup : Usable { up with
          sealedChunks := up.sealedChunks.erase sc.logicChunkIndex
          generations := up.generations.set g { sc with finished := true } } := ⟨h.usage, h.waiting⟩
      exact ⟨_, rfl, hup.freeReference g⟩
  | lockForRead | unlockForRead => exact ⟨_, rfl, h.usage, h.waiting⟩

end

/-! ## Once, and when -/

/-- The step replaces a sealed chunk that its job has not saved. -/
def ReplacesUnsaved (up : UploadPipeline) (events : List Event) : Prop :=
  ∃ i generation old sc, Event.sealed i generation ∈ events ∧ up.sealedChunks.get i = some old ∧
    up.generations[old]? = some sc ∧ sc.saved = false

/-- Every chunk whose resources were freed has been saved. -/
def FreedSaved (up : UploadPipeline) : Prop :=
  ∀ (g : Nat) (sc : SealedChunk), up.generations[g]? = some sc → 0 < sc.freed → sc.saved = true

theorem JobStep.freedSaved (h : JobStep up up' events) (hf : FreedSaved up)
    (hreplace : ¬ ReplacesUnsaved up events) : FreedSaved up' := by
  intro g' sc' hsc' hfreed
  cases h with
  | idle hgen hmap _ => exact hf g' sc' (by rwa [← hgen]) hfreed
  | sealed i c hgen hmap hevents =>
    rw [hgen, getElem?_append, length_released, getElem?_released] at hsc'
    split at hsc'
    · split at hsc'
      · rename_i hi
        obtain ⟨sc, hsc, rfl⟩ := map_eq_some_iff.1 hsc'
        obtain ⟨g, hg⟩ := (hevents i).2 rfl
        by_contra hsaved
        exact hreplace ⟨i, g, g', sc, hg, hi, hsc, by simpa [dropped] using hsaved⟩
      · exact hf g' sc' hsc' hfreed
    · obtain rfl := mem_singleton.1 (mem_of_getElem? hsc')
      simp at hfreed
  | saveContent g sc hsc hgen hmap _ =>
    obtain ⟨hlt, -⟩ := List.getElem?_eq_some_iff.1 hsc
    rw [hgen, getElem?_set] at hsc'
    split at hsc'
    · cases hsc'
      rfl
    · exact hf g' sc' hsc' hfreed
  | finish g sc hsc hsaved hfinished hgen hmap _ =>
    obtain ⟨hlt, -⟩ := List.getElem?_eq_some_iff.1 hsc
    rw [hgen, getElem?_set] at hsc'
    split at hsc'
    · cases hsc'
      exact hsaved
    · exact hf g' sc' hsc' hfreed

theorem JobStep.not_freedSaved (h : JobStep up up' events) (hl : Ledger up)
    (hreplace : ReplacesUnsaved up events) : ¬ FreedSaved up' := by
  obtain ⟨i, generation, old, sc, hmem, hold, hsc, hsaved⟩ := hreplace
  intro hf
  cases h with
  | idle _ _ hevents => exact hevents i generation hmem
  | sealed j c hgen hmap hevents =>
    obtain rfl := (hevents i).1 ⟨generation, hmem⟩
    obtain ⟨sc', hsc', hcount, -⟩ := hl.mapped i old hold
    obtain rfl : sc = sc' := some.inj (hsc.symm.trans hsc')
    obtain ⟨hlt, -⟩ := List.getElem?_eq_some_iff.1 hsc
    have hfreed := (counted_dropped (hl.counted old sc hsc) hcount).2
    have := hf old sc.dropped (by
      rw [hgen, getElem?_append_left (by rwa [length_released]), getElem?_released, if_pos hold, hsc]
      rfl) (by omega)
    simp [dropped, hsaved] at this
  | saveContent _ _ _ _ _ hevents => simp [hevents] at hmem
  | finish _ _ _ _ _ _ _ hevents => simp [hevents] at hmem

theorem run_ledger {chunkSize bufferChunkLimit : Nat} {hpos : 0 < chunkSize} {hlt : chunkSize < 2 ^ 63}
    {steps : List Step} (h : Admits UploadPipeline.step UploadPipeline.Enabled
      (newUploadPipeline chunkSize bufferChunkLimit hpos hlt) steps) :
    ∃ r, (newUploadPipeline chunkSize bufferChunkLimit hpos hlt).run steps = some r ∧ Ledger r.1 := by
  obtain ⟨r, hr, -, hl⟩ := trace_inv (I := fun up _ => Usable up ∧ Ledger up) (fun up _ a hup ha => by
      obtain ⟨r, hr, hu⟩ := hup.1.step ha
      exact ⟨r, hr, hu, (jobStep_step hr).ledger hup.2⟩)
    ⟨usable_new _ _ _ _, ledger_new _ _ _ _⟩ h
  exact ⟨r, hr, hl⟩

/-- **`FreeResource` is called once for every sealed chunk**, at the end of its job at the latest; and never before
the chunk was saved if and only if no step replaces an unsaved chunk. -/
theorem freeResource_once (chunkSize bufferChunkLimit : Nat) (hpos : 0 < chunkSize)
    (hlt : chunkSize < 2 ^ 63) (steps : List Step)
    (h : Admits UploadPipeline.step UploadPipeline.Enabled
      (newUploadPipeline chunkSize bufferChunkLimit hpos hlt) steps) :
    let new := newUploadPipeline chunkSize bufferChunkLimit hpos hlt
    (∃ up events, new.run steps = some (up, events) ∧
      ∀ sc ∈ up.generations, sc.freed ≤ 1 ∧ (sc.finished = true → sc.freed = 1)) ∧
    ((∀ pre, pre <+: steps → ∀ up events, new.run pre = some (up, events) → FreedSaved up) ↔
      ∀ pre a, pre ++ [a] <+: steps → ∀ up events up' events', new.run pre = some (up, events) →
        up.step a = some (up', events') → ¬ ReplacesUnsaved up events') := by
  intro new
  refine ⟨?_, ?_, ?_⟩
  · obtain ⟨⟨up, events⟩, hr, hl⟩ := run_ledger h
    refine ⟨up, events, hr, fun sc hsc => ?_⟩
    obtain ⟨g, hg⟩ := mem_iff_getElem?.1 hsc
    cases hl.counted g sc hg with
    | used _ hfreed hfinished => simp [hfreed, hfinished]
    | freed _ hfreed => simp [hfreed]
    | twice _ hfreed _ => simp [hfreed]
  · intro hsaved pre a hpre up events up' events' hrun hstep hreplace
    have hpre' : pre <+: steps := (prefix_append pre [a]).trans hpre
    obtain ⟨rest, hrest⟩ := hpre'
    obtain ⟨r, hr, hl⟩ := run_ledger (Admits.of_append (hrest ▸ h))
    obtain rfl : r = (up, events) := some.inj (hr.symm.trans hrun)
    refine (jobStep_step hstep).not_freedSaved hl hreplace (hsaved _ hpre up' (events ++ events') ?_)
    rw [UploadPipeline.run] at hrun ⊢
    rw [trace_concat, hrun, bind_some, hstep]
    rfl
  · intro hreplace pre
    induction pre using reverseRecOn with
    | nil =>
      rintro - up events hrun
      cases hrun
      simp [FreedSaved, new, newUploadPipeline]
    | append_singleton pre a ih =>
      intro hpre up' events hrun
      rw [UploadPipeline.run, trace_concat, bind_eq_some_iff] at hrun
      obtain ⟨⟨up, events₀⟩, hrun, hmap⟩ := hrun
      obtain ⟨⟨_, events'⟩, hstep, heq⟩ := map_eq_some_iff.1 hmap
      cases heq
      exact (jobStep_step hstep).freedSaved (ih ((prefix_append pre [a]).trans hpre) up events₀ hrun)
        (hreplace pre a hpre up events₀ _ _ hrun hstep)

/-- A step outside of which nothing else happens. -/
def alone : Surroundings where
  order := id
  memChunkCounter := 0
  pooled := []

/-- A chunk of four bytes is written, sealed, saved and removed. -/
def uploadOnce : List Step :=
  [.save ⟨[1, 2, 3, 4], 0, true, 1⟩ alone, .saveContent 0, .finish 0]

theorem freeResource_once_upload :
    Admits UploadPipeline.step UploadPipeline.Enabled
      (newUploadPipeline 4 2 (by decide) (by decide)) uploadOnce ∧
    ∃ up events, (newUploadPipeline 4 2 (by decide) (by decide)).run uploadOnce = some (up, events) ∧
      ∀ sc ∈ up.generations, sc.freed ≤ 1 ∧ (sc.finished = true → sc.freed = 1) := by
  have h : Admits step UploadPipeline.Enabled
      (newUploadPipeline 4 2 (by decide) (by decide)) uploadOnce := by decide +kernel
  exact ⟨h, (freeResource_once 4 2 (by decide) (by decide) uploadOnce h).1⟩

/-- Two bytes of one chunk, each written and flushed; no job has saved anything yet. -/
def flushTwice : List Step :=
  [.save ⟨[1], 0, true, 1⟩ alone, .flush 0, .save ⟨[2], 0, true, 2⟩ alone, .flush 0]

/-- The second seal frees the chunk of the first one, which is not saved. -/
theorem freeResource_early :
    Admits UploadPipeline.step UploadPipeline.Enabled
      (newUploadPipeline 4 2 (by decide) (by decide)) flushTwice ∧
    ((newUploadPipeline 4 2 (by decide) (by decide)).run flushTwice).any fun r =>
      r.1.generations[0]?.any fun sc => sc.freed == 1 && !sc.saved := by
  constructor
  · decide +kernel
  · decide +kernel

end PageWriter
