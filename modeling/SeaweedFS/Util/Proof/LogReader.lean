import SeaweedFS.Util.Proof.LogRead

/-!
# What readers get

Along a run the sealed buffers are the last four blocks that were flushed (`LogRun.Blocks`). After four seals the
buffer in use is also the oldest sealed one, and a reader of that one gets what was written over it
(**`LogRun.readFromBuffer_answers`**).
-/

namespace Util

open Lib List Int LogBuffer

variable {codec : LogCodec} {s s' : LogBuffer} {R Q : List LogRecord} {r : LogRun} {T : Int}
variable {L : List (MemBuffer × List LogRecord)} {A B M all W : List (List LogRecord)}
variable {x : MemBuffer × List LogRecord} {k fuel : Nat}

/-! ## Adding keeps the blocks -/

namespace LogBuffer

theorem startTime_prepared (s : LogBuffer) (e : LogEntry) (tracked : Bool) :
    (s.prepared e tracked).startTime = (if s.pos = 0 then e.tsNs.toInt else s.startTime) ∧
      (s.prepared e tracked).stopTime = s.stopTime := by
  obtain ⟨_, _, _, heq⟩ := s.prepared_eq e tracked
  rw [heq]
  exact ⟨rfl, rfl⟩

end LogBuffer

namespace Memory

theorem stamp (h : Memory codec s L R) (ts : Int64) : Memory codec (s.stamp ts).2 L R := by
  refine ⟨h.toLayout.stamp ts, ?_, ?_, h.increasing, h.positive⟩
  · unfold LogBuffer.stamp
    split <;> exact h.start
  · unfold LogBuffer.stamp
    split <;> exact h.stop

theorem loopFlush (h : Memory codec s L R) (d : DataToFlush) : Memory codec (s.loopFlush d) L R :=
  ⟨h.toLayout.loopFlush d, h.start, h.stop, h.increasing, h.positive⟩

theorem flatMap_sealed (L : List (MemBuffer × List LogRecord)) (mb : MemBuffer) (R : List LogRecord) :
    ((L.tail ++ [(mb, R)]).flatMap Prod.snd).Sublist (L.flatMap Prod.snd ++ R) := by
  rw [flatMap_append, flatMap_singleton]
  refine List.Sublist.append_right ?_ R
  exact ((tail_sublist L).map Prod.snd).flatten

theorem copyToFlush (h : Memory codec s L R) (hR : R ≠ []) :
    ∃ mb, Memory codec s.copyToFlush.1 (L.tail ++ [(mb, R)]) [] := by
  have hpos := h.filled.pos_pos hR
  obtain ⟨mb, hmb⟩ := h.toLayout.copyToFlush hR h.start h.stop
  have hsub := flatMap_sealed L mb R
  refine ⟨mb, hmb, ?_, ?_, ?_, fun p hp => ?_⟩
  · rw [LogBuffer.copyToFlush, if_pos hpos]
    rfl
  · rw [LogBuffer.copyToFlush, if_pos hpos]
    rfl
  · rw [append_nil]
    exact h.increasing.sublist hsub
  · rw [append_nil] at hp
    exact h.positive p (hsub.subset hp)

theorem of_store {s1 : LogBuffer} {e : LogEntry} {d : List UInt8}
    (hlayout : Layout codec s1 L R) (hd : codec.marshal e = some d)
    (hroom : s1.pos + (d.length + 4) ≤ (s1.block s1.buf).len)
    (hstart : s1.startTime = firstTime (R ++ [(e, d)])) (hinc : Increasing (L.flatMap Prod.snd ++ R))
    (hpos : ∀ p ∈ L.flatMap Prod.snd ++ R, 0 < p.time)
    (hlast : ∀ p ∈ L.flatMap Prod.snd ++ R, p.time < e.tsNs.toInt) (he : 0 < e.tsNs.toInt) :
    Memory codec (s1.store e.tsNs.toInt d) L (R ++ [(e, d)]) := by
  refine ⟨hlayout.store hd hroom _, hstart, ?_, ?_, ?_⟩
  · rw [lastTime, getLast?_append, getLast?_singleton]
    rfl
  · rw [← append_assoc]
    exact List.pairwise_append.2 ⟨hinc, pairwise_singleton _ _, fun p hp => forall_mem_singleton.2 (hlast p hp)⟩
  · rw [← append_assoc]
    exact forall_mem_append.2 ⟨hpos, forall_mem_singleton.2 he⟩

theorem addMarshalled (h : Memory codec s L R) {e : LogEntry} {tracked : Bool}
    (hlast : ∀ p ∈ L.flatMap Prod.snd ++ R, p.time < e.tsNs.toInt) (he : 0 < e.tsNs.toInt)
    (hacc : (s.addMarshalled codec e tracked).err = none) :
    ((s.addMarshalled codec e tracked).toFlush = none ∧
        ∃ d, Memory codec (s.addMarshalled codec e tracked).log L (R ++ [(e, d)])) ∨
      ∃ f mb d, (s.addMarshalled codec e tracked).toFlush = some f ∧ f.data = recordBytes R ∧ R ≠ [] ∧
        Memory codec (s.addMarshalled codec e tracked).log (L.tail ++ [(mb, R)]) [(e, d)] := by
  have hprep := h.toLayout.prepared e tracked
  obtain ⟨hstartp, hstopp⟩ := s.startTime_prepared e tracked
  obtain ⟨-, heq⟩ | ⟨d, hd, ⟨hfull, heq⟩ | ⟨-, ⟨err, -, heq⟩ | ⟨s', hgrow, heq⟩⟩⟩ :=
    addMarshalled_cases codec s e tracked
  · rw [heq] at hacc
    cases hacc
  · rw [heq]
    refine .inl ⟨rfl, d, of_store hprep hd (room_of_not_full hfull) ?_ h.increasing h.positive hlast he⟩
    rw [hstartp]
    by_cases hR : R = []
    · rw [if_pos (h.filled.pos_eq_zero.2 hR), hR]
      rfl
    · rw [if_neg (h.filled.pos_pos hR).ne', firstTime_append_of_ne hR, h.start]
  · rw [heq] at hacc
    cases hacc
  · rw [heq]
    obtain ⟨hs', hroom⟩ := ((h.filled.prepared e tracked).rotated e.tsNs.toInt).grow hgrow
    have hts : s'.startTime = e.tsNs.toInt := by
      obtain ⟨heap, buf, rfl⟩ := grow_eq hgrow
      rfl
    by_cases hR : R = []
    · have hcopy : (s.prepared e tracked).copyToFlush = (s.prepared e tracked, none) :=
        copyToFlush_of_empty (hprep.filled.pos_eq_zero.2 hR)
      rw [rotated, hcopy] at hgrow
      subst hR
      refine .inl ⟨by rw [hcopy], d, of_store ((hprep.setStart _).grow hgrow) hd hroom hts h.increasing
        h.positive hlast he⟩
    · obtain ⟨f, hf, hdata, -⟩ := copyToFlush_of_pos (hprep.filled.pos_pos hR)
      have hstart : (s.prepared e tracked).startTime = firstTime R := by
        rw [hstartp, if_neg (h.filled.pos_pos hR).ne', h.start]
      obtain ⟨mb, hmb⟩ := hprep.copyToFlush hR hstart (by rw [hstopp, h.stop])
      have hsub := flatMap_sealed L mb R
      refine .inr ⟨f, mb, d, by rw [hf], by rw [hdata, hprep.filled.content], hR,
        of_store ((hmb.setStart _).grow hgrow) hd hroom hts ?_ (fun p hp => ?_) (fun p hp => ?_) he⟩
      · rw [append_nil]
        exact h.increasing.sublist hsub
      · rw [append_nil] at hp
        exact h.positive p (hsub.subset hp)
      · rw [append_nil] at hp
        exact hlast p (hsub.subset hp)

end Memory

/-! ## The blocks of a run -/

namespace LogRun

/-- `AddDataToBuffer` is accepted, below the largest time stamp, or it is a flush. -/
def Accepts (codec : LogCodec) (r : LogRun) : LogCall → Prop
  | .addDataToBuffer key data ts now =>
    (r.log.addDataToBuffer codec key data ts now).err = none ∧ r.log.lastTsNs < Int64.maxValue
  | .addLogEntryToBuffer _ => False
  | .flush => True

instance (codec : LogCodec) (r : LogRun) : ∀ c, Decidable (r.Accepts codec c)
  | .addDataToBuffer .. => inferInstanceAs (Decidable (_ ∧ _))
  | .addLogEntryToBuffer _ => .isFalse id
  | .flush => .isTrue trivial

/-- All blocks sealed so far, of which the last four are in memory. -/
structure Blocks (codec : LogCodec) (r : LogRun) (all : List (List LogRecord))
    (L : List (MemBuffer × List LogRecord)) (R : List LogRecord) : Prop where
  memory : Memory codec r.log L R
  flushed : r.flushed.map DataToFlush.data = all.map recordBytes
  sealed : L.map Prod.snd = (List.replicate previousBufferCount [] ++ all).drop all.length
  readable : ∀ Q ∈ all, Readable codec Q
  last : ∀ p ∈ L.flatMap Prod.snd ++ R, p.1.tsNs ≤ r.log.lastTsNs
  zero_le : 0 ≤ r.log.lastTsNs.toInt

namespace Blocks

section

variable (h : Blocks codec r all L R)
include h

theorem sealed_append (mb : MemBuffer) : (L.tail ++ [(mb, R)]).map Prod.snd =
      (List.replicate previousBufferCount [] ++ (all ++ [R])).drop (all ++ [R]).length := by
  have hlen : all.length + 1 ≤ (List.replicate previousBufferCount [] ++ all).length := by
    rw [length_append, length_replicate]
    unfold previousBufferCount
    omega
  rw [map_append, map_tail, h.sealed, tail_drop, ← append_assoc,
    show (all ++ [R]).length = all.length + 1 from length_append, drop_append_of_le_length hlen]
  rfl

theorem readable_append : ∀ Q ∈ all ++ [R], Readable codec Q := by
  exact forall_mem_append.2 ⟨h.readable, forall_mem_singleton.2 h.memory.filled.readable⟩

theorem flush : ∃ all' L' R', Blocks codec (r.execute codec .flush) all' L' R' := by
  have hkept := r.log.kept_copyToFlush.lastTsNs
  by_cases hR : R = []
  · rw [execute_flush_of_empty (h.memory.filled.pos_eq_zero.2 hR)]
    exact ⟨all, L, R, h⟩
  · obtain ⟨d, hrun, hdata, -⟩ := execute_flush_of_pos codec (h.memory.filled.pos_pos hR)
    obtain ⟨mb, hmb⟩ := h.memory.copyToFlush hR
    rw [hrun]
    refine ⟨all ++ [R], L.tail ++ [(mb, R)], [], hmb.loopFlush d, ?_, h.sealed_append mb, h.readable_append,
      fun p hp => ?_, ?_⟩
    · rw [map_append, map_append, h.flushed, map_singleton, map_singleton, hdata,
        h.memory.filled.content]
    · rw [append_nil] at hp
      show p.1.tsNs ≤ r.log.copyToFlush.1.lastTsNs
      rw [hkept]
      exact h.last p ((Memory.flatMap_sealed L mb R).subset hp)
    · show 0 ≤ r.log.copyToFlush.1.lastTsNs.toInt
      rw [hkept]
      exact h.zero_le

theorem addDataToBuffer {key data : List UInt8} {ts now : Int64}
    (hok : r.Accepts codec (.addDataToBuffer key data ts now)) :
    ∃ all' L' R', Blocks codec (r.execute codec (.addDataToBuffer key data ts now)) all' L' R' := by
  obtain ⟨hacc, hmax⟩ := hok
  let asked := if ts = 0 then now else ts
  let e : LogEntry := ⟨(r.log.stamp asked).1, codec.hashToInt32 key, data, key, r.log.offset⟩
  obtain ⟨hlt, hnew⟩ := stamp_lt hmax asked
  have hlt' := Int64.lt_iff_toInt_lt.1 hlt
  have hzero := h.zero_le
  have he : 0 < e.tsNs.toInt := lt_of_le_of_lt hzero hlt'
  have hbefore : ∀ p ∈ L.flatMap Prod.snd ++ R, p.time < e.tsNs.toInt := fun p hp =>
    lt_of_le_of_lt (Int64.le_iff_toInt_le.1 (h.last p hp)) hlt'
  have hts := (addMarshalled_same codec (r.log.stamp asked).2 e true).1
  rw [hnew] at hts
  -- the records in memory are those from before and the new one
  have hlast : ∀ log : LogBuffer, log.lastTsNs = e.tsNs → ∀ A : List LogRecord, ∀ d,
      A ⊆ L.flatMap Prod.snd ++ R → ∀ p ∈ A ++ [(e, d)], p.1.tsNs ≤ log.lastTsNs := by
    intro log hlog A d hA
    rw [hlog]
    refine forall_mem_append.2 ⟨fun p hp => ?_, forall_mem_singleton.2 (Int64.le_refl _)⟩
    exact Int64.le_of_lt (Int64.lt_iff_toInt_lt.2 (hbefore p (hA hp)))
  have hrun : r.execute codec (.addDataToBuffer key data ts now) =
      r.added ((r.log.stamp asked).2.addMarshalled codec e true) key data := rfl
  rw [hrun, added]
  obtain ⟨hnone, d, hmem⟩ | ⟨f, mb, d, hsome, hdata, hR, hmem⟩ :=
    Memory.addMarshalled (h.memory.stamp asked) hbefore he hacc
  · rw [hnone]
    refine ⟨all, L, R ++ [(e, d)], hmem, h.flushed, h.sealed, h.readable, ?_, ?_⟩
    · rw [← append_assoc]
      exact hlast _ hts _ d (List.Subset.refl _)
    · show 0 ≤ (addMarshalled codec _ e true).log.lastTsNs.toInt
      rw [hts]
      exact le_of_lt he
  · rw [hsome]
    refine ⟨all ++ [R], L.tail ++ [(mb, R)], [(e, d)], hmem.loopFlush f, ?_, h.sealed_append mb,
      h.readable_append, hlast _ hts _ d (Memory.flatMap_sealed L mb R).subset, ?_⟩
    · show (r.flushed ++ [f]).map DataToFlush.data = _
      rw [map_append, map_append, h.flushed, map_singleton, map_singleton, hdata]
    · show 0 ≤ (addMarshalled codec _ e true).log.lastTsNs.toInt
      rw [hts]
      exact le_of_lt he

end

end Blocks

theorem start_same (flushInterval : Int) (highestOffset : Option Int64) (now : Int64) :
    let s := (start flushInterval highestOffset now).log
    s.prevBuffers = newSealedBuffers previousBufferCount ∧ s.buf = previousBufferCount ∧
      s.startTime = zeroTime ∧ s.stopTime = zeroTime ∧ s.lastTsNs = 0 := by
  unfold start initializeOffsetFromExistingData
  cases highestOffset with
  | none => exact ⟨rfl, rfl, rfl, rfl, rfl⟩
  | some highest =>
    by_cases h : 0 ≤ highest
    · simp only [if_pos h]
      exact ⟨rfl, rfl, rfl, rfl, rfl⟩
    · simp only [if_neg h]
      exact ⟨rfl, rfl, rfl, rfl, rfl⟩

theorem memory_start (codec : LogCodec) (flushInterval : Int) (highestOffset : Option Int64) (now : Int64) :
    Memory codec (start flushInterval highestOffset now).log
      ((newSealedBuffers previousBufferCount).map fun mb => (mb, [])) [] := by
  obtain ⟨hprev, hbuf, hstart, hstop, -⟩ := start_same flushInterval highestOffset now
  have hempty : ∀ x ∈ (newSealedBuffers previousBufferCount).map fun mb => (mb, ([] : List LogRecord)),
      Sealed x.1 x.2 ∧ ∀ b, Holds codec b x.1.size x.2 := by
    intro x hx
    obtain ⟨mb, hmb, rfl⟩ := List.mem_map.1 hx
    obtain ⟨i, -, rfl⟩ := List.mem_map.1 hmb
    exact ⟨⟨rfl, rfl, rfl⟩, fun b => ⟨Block.upTo_zero b, Nat.zero_le _, nofun⟩⟩
  refine ⟨⟨filled_start codec flushInterval highestOffset now, ?_, rfl, fun x hx => (hempty x hx).1,
    fun x hx => (hempty x (mem_of_mem_tail hx)).2 _, fun x hx _ => (hempty x (mem_of_mem_head? hx)).2 _,
    ?_⟩, hstart, hstop, .nil, nofun⟩
  · rw [hprev]
    rfl
  · rw [hbuf]
    decide

/-- **Every state reached has its blocks in memory.** -/
theorem exists_blocks {flushInterval : Int} {highestOffset : Option Int64} {now : Int64} {calls : List LogCall}
    (h : Throughout (execute codec) (fun r c => r.Accepts codec c) (start flushInterval highestOffset now)
      calls) :
    ∃ all L R, Blocks codec (calls.foldl (execute codec) (start flushInterval highestOffset now)) all L R := by
  refine foldl_inv (I := fun r => ∃ all L R, Blocks codec r all L R) (fun r c hr hok => ?_)
    ⟨[], _, [], memory_start codec flushInterval highestOffset now, rfl, rfl, nofun, nofun, ?_⟩ h
  · obtain ⟨all, L, R, hr⟩ := hr
    cases c with
    | addDataToBuffer key data ts now => exact hr.addDataToBuffer hok
    | addLogEntryToBuffer e => exact hok.elim
    | flush => exact hr.flush
  · rw [(start_same flushInterval highestOffset now).2.2.2.2]
    decide

end LogRun

/-! ## The block that answers -/

theorem not_newer_nil : ¬Newer T [] := fun ⟨_, hp, _⟩ => nomatch hp

theorem Newer.ne_nil (h : Newer T R) : R ≠ [] := by
  rintro rfl
  exact not_newer_nil h

/-- The first block with a newer record answers, unless it has been written over. -/
theorem Memory.read_found (h : Memory codec s L R) {o : Int64}
    (hM : L.map Prod.snd = List.replicate k [] ++ M) (hT : 0 ≤ T) (ho : 0 < o) (hno : ¬s.Overwritten T)
    (hfirst : ∃ p ∈ (L.flatMap Prod.snd ++ R).head?, p.time ≤ T)
    (hfuel : (L.flatMap Prod.snd ++ R).length < fuel)
    (hsplit : M ++ [R] = A ++ Q :: B) (hA : ∀ Q' ∈ A, ¬Newer T Q') (hQ : Newer T Q) :
    ∃ i, s.readFromMemory codec fuel ⟨T, o, false⟩ = some ⟨some (recordBytes (after T Q)), i, none⟩ := by
  rw [length_append] at hfuel
  have hold : ∀ Q' ∈ List.replicate k [] ++ A, ¬Newer T Q' :=
    forall_mem_append.2 ⟨fun Q' hQ' => eq_of_mem_replicate hQ' ▸ not_newer_nil, hA⟩
  rcases eq_nil_or_concat B with rfl | ⟨B', R', rfl⟩
  · obtain ⟨rfl, hRQ⟩ := append_inj' hsplit rfl
    obtain rfl := List.singleton_inj.1 hRQ
    refine ⟨_, h.read_current hT ho (fun y hy => hold y.2 ?_) hQ (by omega)⟩
    rw [← hM]
    exact mem_map_of_mem hy
  · rw [concat_eq_append, ← cons_append, ← append_assoc] at hsplit
    obtain ⟨rfl, -⟩ := append_inj' hsplit rfl
    rw [← append_assoc] at hM
    obtain ⟨L1, L2, rfl, hL1, hL2⟩ := List.map_eq_append_iff.1 hM
    obtain ⟨x, L3, rfl, rfl, -⟩ := List.map_eq_cons_iff.1 hL2
    have hxmem : x ∈ L1 ++ x :: L3 := mem_append_right _ mem_cons_self
    have hholds : Holds codec (s.block x.1.buf) x.1.size x.2 := by
      cases L1 with
      | nil =>
        refine h.first x rfl ?_
        by_contra hor
        obtain ⟨hpos, hbuf⟩ := not_or.1 hor
        rw [not_not] at hbuf
        obtain ⟨p, hp, hle⟩ := hfirst
        refine hno ⟨by omega, x.1, by rw [h.prev]; rfl, hbuf, ?_, ?_⟩
        · rw [(h.sealed x hxmem).start]
          obtain ⟨q, Q', hq⟩ := exists_cons_of_ne_nil hQ.ne_nil
          rw [nil_append, flatMap_cons, hq] at hp
          obtain rfl : q = p := Option.some.inj hp
          rw [hq]
          exact hle
        · rw [(h.sealed x hxmem).stop]
          exact hQ.lt_lastTime (h.increasing_of_mem hxmem)
      | cons y L1 => exact h.rest x (mem_append_right _ mem_cons_self)
    have hlen : x.2.length ≤ ((L1 ++ x :: L3).flatMap Prod.snd).length := by
      rw [flatMap_append, flatMap_cons, length_append, length_append]
      omega
    refine ⟨_, h.read_sealed hT ho rfl (fun y hy => hold y.2 ?_) hQ hholds (by omega)⟩
    rw [← hL1]
    exact mem_map_of_mem hy

theorem exists_first_newer {W : List (List LogRecord)} (h : Newer T W.flatten) :
    ∃ A Q B, W = A ++ Q :: B ∧ (∀ Q' ∈ A, ¬Newer T Q') ∧ Newer T Q := by
  induction W with
  | nil => exact absurd h not_newer_nil
  | cons Q W ih =>
    by_cases hQ : Newer T Q
    · exact ⟨[], Q, W, rfl, nofun, hQ⟩
    · have hW : Newer T W.flatten := by
        obtain ⟨p, hp, hlt⟩ := h
        rcases List.mem_append.1 hp with hp | hp
        · exact absurd ⟨p, hp, hlt⟩ hQ
        · exact ⟨p, hp, hlt⟩
      obtain ⟨A, Q', B, rfl, hA, hQ'⟩ := ih hW
      exact ⟨Q :: A, Q', B, rfl, forall_mem_cons.2 ⟨hQ, hA⟩, hQ'⟩

/-- The records of the blocks, of which the first may be empty. -/
theorem flatten_blocks (hM : L.map Prod.snd = List.replicate k [] ++ M) :
    (M ++ [R]).flatten = L.flatMap Prod.snd ++ R := by
  rw [flatMap_def, hM, flatten_append, flatten_append, flatten_singleton]
  simp

/-! ## Answers -/

/-- What is in memory: the last four sealed blocks and the buffer in use. -/
def LogRun.inMemory (r : LogRun) : List (List UInt8) :=
  (r.flushed.map DataToFlush.data).drop (r.flushed.length - previousBufferCount) ++ [r.log.content]

/-- A right answer to a read after `T`, with the entries `mem` in memory: from disk if there are none or `T` is
before the first; no data if none is newer; otherwise the first block with a newer entry, from that entry on. -/
structure Answers (codec : LogCodec) (blocks : List (List UInt8)) (mem : List (List LogEntry)) (T : Int)
    (res : LogBuffer.ReadResult) : Prop where
  resume : (∀ e ∈ mem.flatten.head?, T < e.tsNs.toInt) →
    res.bufferCopy = none ∧ res.err = some .resumeFromDisk
  nothing : (∃ e ∈ mem.flatten.head?, e.tsNs.toInt ≤ T) → (∀ e ∈ mem.flatten, e.tsNs.toInt ≤ T) →
    res.bufferCopy = none ∧ res.err = none
  serves : (∃ e ∈ mem.flatten.head?, e.tsNs.toInt ≤ T) → (∃ e ∈ mem.flatten, T < e.tsNs.toInt) →
    ∃ i block older newer, mem[i]? = some block ∧ blocks[i]? = some (older ++ newer) ∧
      (∀ e ∈ (mem.take i).flatten, e.tsNs.toInt ≤ T) ∧ (∃ e ∈ block, T < e.tsNs.toInt) ∧
      codec.decode newer = some (block.dropWhile fun e => e.tsNs.toInt ≤ T) ∧
      res.bufferCopy = some newer ∧ res.err = none

/-- A reader that continues from the last time stamp it saw, for `n` reads. -/
def readAll (codec : LogCodec) (fuel : Nat) (s : LogBuffer) (offsets : Nat → Int64) : Nat → Int → List LogEntry
  | 0, _ => []
  | n + 1, T =>
    match s.readFromBuffer codec fuel ⟨T, offsets n, false⟩ with
    | some ⟨some bytes, _, none⟩ =>
      let es := (codec.decode bytes).getD []
      match es.getLast? with
      | some e => es ++ readAll codec fuel s offsets n e.tsNs.toInt
      | none => []
    | _ => []

/-- The entries of the blocks. -/
def entriesOf (W : List (List LogRecord)) : List (List LogEntry) := W.map (List.map Prod.fst)

theorem flatten_entriesOf (W : List (List LogRecord)) : (entriesOf W).flatten = W.flatten.map Prod.fst :=
  List.map_flatten.symm

theorem exists_head_entries : (∃ e ∈ (entriesOf W).flatten.head?, e.tsNs.toInt ≤ T) ↔
    ∃ p ∈ W.flatten.head?, p.time ≤ T := by
  rw [flatten_entriesOf, head?_map]
  cases W.flatten.head? <;> simp

theorem exists_newer_entries : (∃ e ∈ (entriesOf W).flatten, T < e.tsNs.toInt) ↔ Newer T W.flatten := by
  rw [flatten_entriesOf]
  constructor
  · rintro ⟨e, he, hlt⟩
    obtain ⟨p, hp, rfl⟩ := List.mem_map.1 he
    exact ⟨p, hp, hlt⟩
  · rintro ⟨p, hp, hlt⟩
    exact ⟨p.1, mem_map_of_mem hp, hlt⟩

theorem answers_found {i : Int64} (hW : W = A ++ Q :: B)
    (hA : ∀ Q' ∈ A, ¬Newer T Q') (hQ : Newer T Q) (hread : Readable codec Q)
    (hfirst : ∃ p ∈ W.flatten.head?, p.time ≤ T) :
    Answers codec (W.map recordBytes) (entriesOf W) T ⟨some (recordBytes (after T Q)), i, none⟩ := by
  have hfirst' := exists_head_entries.2 hfirst
  obtain ⟨old, p, new, hQeq, hold, hp, hafter⟩ := hQ.split
  refine ⟨fun hlt => ?_, fun _ hle => ?_, fun _ _ => ?_⟩
  · obtain ⟨e, he, hle⟩ := hfirst'
    exact absurd (hlt e he) (Int.not_lt.2 hle)
  · refine absurd (hle p.1 ?_) (Int.not_le.2 hp)
    rw [flatten_entriesOf, hW, hQeq]
    apply mem_map_of_mem
    simp
  · refine ⟨A.length, Q.map Prod.fst, recordBytes old, recordBytes (after T Q), ?_, ?_, ?_, ?_, ?_, rfl, rfl⟩
    · rw [hW, entriesOf, map_append, getElem?_append_right (by simp)]
      simp
    · rw [hW, map_append, getElem?_append_right (by simp), ← recordBytes_append, hafter, ← hQeq]
      simp
    · intro e he
      rw [hW, entriesOf, map_append, take_left' (by simp)] at he
      obtain ⟨es, hes, he⟩ := List.mem_flatten.1 he
      obtain ⟨Q', hQ', rfl⟩ := List.mem_map.1 hes
      obtain ⟨q, hq, rfl⟩ := List.mem_map.1 he
      exact Int.not_lt.1 fun hlt => hA Q' hQ' ⟨q, hq, hlt⟩
    · refine ⟨p.1, mem_map_of_mem ?_, hp⟩
      rw [hQeq]
      simp
    · have hsuffix : Readable codec (after T Q) := fun q hq =>
        hread q ((dropWhile_sublist _).subset hq)
      rw [hsuffix.decode, dropWhile_map]
      rfl

theorem Memory.head_eq (h : Memory codec s L R) (hx : x ∈ L.head?)
    (hne : x.2 ≠ []) : ∃ p, p ∈ (L.flatMap Prod.snd ++ R).head? ∧ p.time = firstTime x.2 := by
  obtain ⟨L', rfl⟩ := List.head?_eq_some_iff.1 hx
  obtain ⟨q, Q', hq⟩ := exists_cons_of_ne_nil hne
  rw [flatMap_cons, hq]
  exact ⟨q, rfl, rfl⟩

theorem head_block
    (hM : L.map Prod.snd = List.replicate k [] ++ M) (hx : x ∈ L.head?) (hne : x.2 ≠ []) :
    L.map Prod.snd = M ∧ M.head? = some x.2 := by
  obtain ⟨L', rfl⟩ := List.head?_eq_some_iff.1 hx
  cases k with
  | zero =>
    obtain rfl : (x :: L').map Prod.snd = M := hM
    exact ⟨rfl, rfl⟩
  | succ k =>
    exact absurd (List.cons.inj hM).1 hne

theorem Memory.not_answers (h : Memory codec s L R) {i : Int64}
    (hx : x ∈ L.head?) (hnew : Newer T x.2) (hfirst : firstTime x.2 ≤ T) (hR : R ≠ [])
    (hW : W = L.map Prod.snd ++ [R]) :
    ¬Answers codec (W.map recordBytes) (entriesOf W) T ⟨some ((s.block s.buf).upTo x.1.size), i, none⟩ := by
  intro hans
  obtain ⟨L', rfl⟩ := List.head?_eq_some_iff.1 hx
  have hWx : W = x.2 :: (L'.map Prod.snd ++ [R]) := hW
  have hne := hnew.ne_nil
  obtain ⟨q, hq, hlt⟩ := hnew
  obtain ⟨p, hp, hpt⟩ := h.head_eq hx hne
  have hflat : W.flatten = (x :: L').flatMap Prod.snd ++ R := by
    rw [hW, flatten_append, flatten_singleton, flatMap_def]
  obtain ⟨j, block, older, newer, hblock, -, hle, -, hdec, hcopy, -⟩ := hans.serves
    (exists_head_entries.2 ⟨p, by rw [hflat]; exact hp, by rw [hpt]; exact hfirst⟩)
    (exists_newer_entries.2 ⟨q, by rw [hWx]; exact mem_append_left _ hq, hlt⟩)
  -- the block is the one that has been written over
  have hj : j = 0 := by
    by_contra hj
    refine absurd (hle q.1 ?_) (not_le.2 hlt)
    obtain ⟨j, rfl⟩ : ∃ m, j = m + 1 := ⟨j - 1, by omega⟩
    rw [hWx, entriesOf, map_cons, take_succ_cons, flatten_cons]
    exact mem_append_left _ (mem_map_of_mem hq)
  rw [hj, hWx] at hblock
  obtain rfl : x.2.map Prod.fst = block := Option.some.inj hblock
  obtain rfl : (s.block s.buf).upTo x.1.size = newer := Option.some.inj hcopy
  obtain ⟨r0, R', rfl⟩ := exists_cons_of_ne_nil hR
  have hsize : 4 ≤ x.1.size := by
    rw [(h.sealed x (mem_of_mem_head? hx)).size]
    obtain ⟨q', Q', hq'⟩ := exists_cons_of_ne_nil hne
    rw [hq', ← singleton_append, recordBytes_append, recordBytes_singleton]
    simp only [length_append, length_toBE]
    omega
  have hhead := h.filled.holds.decode_head hsize hdec
  -- the first entry read would be one of the sealed records, but it is newer than all of them
  have hmem : r0.1 ∈ x.2.map Prod.fst := (dropWhile_sublist _).subset (mem_of_mem_head? hhead)
  obtain ⟨q', hq', heq⟩ := List.mem_map.1 hmem
  have hlt' := (List.pairwise_append.1 h.increasing).2.2 q'
    (List.mem_flatMap.2 ⟨x, mem_cons_self, hq'⟩) r0 mem_cons_self
  unfold LogRecord.time at hlt'
  rw [heq] at hlt'
  exact lt_irrefl _ hlt'

/-- **One read**: it ends, and its answer is right exactly when it does not need the block that has been
written over. -/
theorem Memory.read_answers (h : Memory codec s L R) {o : Int64}
    (hM : L.map Prod.snd = List.replicate k [] ++ M) (hread : ∀ Q ∈ M ++ [R], Readable codec Q)
    (hT : 10 ^ 9 ≤ T) (ho : 0 < o) (hfuel : (L.flatMap Prod.snd ++ R).length < fuel) :
    ∃ res, s.readFromBuffer codec fuel ⟨T, o, false⟩ = some res ∧
      (Answers codec ((M ++ [R]).map recordBytes) (entriesOf (M ++ [R])) T res ↔ ¬s.Overwritten T) := by
  have hT0 : 0 ≤ T := by omega
  have hflat := flatten_blocks (R := R) hM
  by_cases hfirst : ∃ p ∈ (L.flatMap Prod.snd ++ R).head?, p.time ≤ T
  · obtain ⟨p, hp, hle⟩ := hfirst
    rw [h.read_memory hp hle]
    have hfirst' : ∃ p ∈ (M ++ [R]).flatten.head?, p.time ≤ T := ⟨p, by rw [hflat]; exact hp, hle⟩
    by_cases hover : s.Overwritten T
    · obtain ⟨x, hx, hnew, hstart, hne, hR, hres⟩ := h.read_overwritten ho hT0 hover (show 0 < fuel by omega)
      refine ⟨_, hres, fun hans => absurd hans ?_, fun hnot => absurd hover hnot⟩
      exact h.not_answers hx hnew hstart hR (by rw [(head_block hM hx hne).1])
    · by_cases hnew : Newer T (L.flatMap Prod.snd ++ R)
      · have hnew' : Newer T (M ++ [R]).flatten := by
          rw [hflat]
          exact hnew
        obtain ⟨A, Q, B, hW, hA, hQ⟩ := exists_first_newer hnew'
        obtain ⟨i, hres⟩ := h.read_found hM hT0 ho hover ⟨p, hp, hle⟩ hfuel hW hA hQ
        refine ⟨_, hres, fun _ => hover, fun _ => answers_found hW hA hQ (hread Q ?_) hfirst'⟩
        rw [hW]
        exact mem_append_right _ mem_cons_self
      · refine ⟨_, h.read_none hT0 ho hnew, fun _ => hover, fun _ => ⟨fun hlt => ?_, fun _ _ => ⟨rfl, rfl⟩,
          fun _ hex => ?_⟩⟩
        · obtain ⟨e, he, hle'⟩ := exists_head_entries.2 hfirst'
          exact absurd (hlt e he) (not_lt.2 hle')
        · rw [exists_newer_entries, hflat] at hex
          exact absurd hex hnew
  · have hlt : ∀ p ∈ (L.flatMap Prod.snd ++ R).head?, T < p.time := fun p hp =>
      not_le.1 fun hle => hfirst ⟨p, hp, hle⟩
    have hnofirst : ¬∃ e ∈ (entriesOf (M ++ [R])).flatten.head?, e.tsNs.toInt ≤ T := by
      rw [exists_head_entries, hflat]
      exact hfirst
    refine ⟨_, h.read_resume hT ho hlt, fun _ hover => ?_, fun _ => ⟨fun _ => ⟨rfl, rfl⟩,
      fun hex => absurd hex hnofirst, fun hex => absurd hex hnofirst⟩⟩
    obtain ⟨x, hx, -, hstart, hne, -⟩ := h.read_overwritten ho hT0 hover (show 0 < fuel by omega)
    obtain ⟨p, hp, hpt⟩ := h.head_eq hx hne
    exact hfirst ⟨p, hp, by rw [hpt]; exact hstart⟩

/-! ## Reading on -/

theorem le_lastTime (hQ : Increasing Q) {p : LogRecord} (hp : p ∈ Q) : p.time ≤ lastTime Q := by
  by_contra hlt
  obtain ⟨Q', q, rfl⟩ := (eq_nil_or_concat Q).resolve_left (ne_nil_of_mem hp)
  rw [concat_eq_append] at hp hQ hlt
  rw [lastTime, getLast?_append, getLast?_singleton] at hlt
  have hlt' : ¬p.time ≤ q.time := hlt
  rcases List.mem_append.1 hp with hp | hp
  · have := (List.pairwise_append.1 hQ).2.2 p hp q (mem_singleton_self q)
    omega
  · rw [List.mem_singleton.1 hp] at hlt'
    omega

theorem filter_newer (hW : W = A ++ Q :: B)
    (hinc : Increasing W.flatten) (hA : ∀ Q' ∈ A, ¬Newer T Q') (hQ : Newer T Q) :
    W.flatten.filter (fun p => T < p.time) = after T Q ++ B.flatten := by
  obtain ⟨old, p, new, rfl, hold, hp, hafter⟩ := hQ.split
  have hflat : W.flatten = A.flatten ++ old ++ (p :: new ++ B.flatten) := by
    rw [hW]
    simp
  rw [hflat] at hinc ⊢
  have holder : ∀ q ∈ A.flatten ++ old, ¬T < q.time := by
    intro q hq hlt
    rcases List.mem_append.1 hq with hq | hq
    · obtain ⟨Q', hQ', hq⟩ := List.mem_flatten.1 hq
      exact hA Q' hQ' ⟨q, hq, hlt⟩
    · exact not_lt.2 (hold q hq) hlt
  have hnewer : ∀ q ∈ p :: new ++ B.flatten, T < q.time := forall_mem_cons.2 ⟨hp, fun q hq =>
    lt_trans hp ((List.pairwise_cons.1 (List.pairwise_append.1 hinc).2.1).1 q hq)⟩
  rw [hafter, filter_append, List.filter_eq_nil_iff.2 (by simpa using holder),
    List.filter_eq_self.2 (by simpa using hnewer), nil_append]

/-- After the last record of a block, the newer records are those of the blocks after it. -/
theorem filter_newer_last (hW : W = A ++ Q :: B) (hinc : Increasing W.flatten) (hne : Q ≠ []) :
    W.flatten.filter (fun p => lastTime Q < p.time) = B.flatten := by
  have hflat : W.flatten = A.flatten ++ Q ++ B.flatten := by
    rw [hW]
    simp
  rw [hflat] at hinc ⊢
  obtain ⟨Q', q, hq⟩ := (eq_nil_or_concat Q).resolve_left hne
  rw [concat_eq_append] at hq
  have hlast : lastTime Q = q.time := by
    rw [hq, lastTime, getLast?_append, getLast?_singleton]
    rfl
  have hqQ : q ∈ Q := by
    rw [hq]
    exact mem_append_right _ (mem_singleton_self q)
  have hAQ := (List.pairwise_append.1 hinc).1
  have holder : ∀ p ∈ A.flatten ++ Q, ¬lastTime Q < p.time := by
    intro p hp
    rw [not_lt]
    rcases List.mem_append.1 hp with hp | hp
    · rw [hlast]
      exact le_of_lt ((List.pairwise_append.1 hAQ).2.2 p hp q hqQ)
    · exact le_lastTime (List.pairwise_append.1 hAQ).2.1 hp
  have hnewer : ∀ p ∈ B.flatten, lastTime Q < p.time := by
    intro p hp
    rw [hlast]
    exact (List.pairwise_append.1 hinc).2.2 q (mem_append_right _ hqQ) p hp
  rw [filter_append, List.filter_eq_nil_iff.2 (by simpa using holder),
    List.filter_eq_self.2 (by simpa using hnewer), nil_append]

/-- **Reading on** from a time at or after the first record: each newer record once, in order. -/
theorem Memory.readAll_eq (h : Memory codec s L R)
    {offsets : Nat → Int64} (hM : L.map Prod.snd = List.replicate k [] ++ M)
    (hread : ∀ Q ∈ M ++ [R], Readable codec Q) (hoff : ∀ n, 0 < offsets n)
    (hfuel : (L.flatMap Prod.snd ++ R).length < fuel) {n : Nat} (hT : 10 ^ 9 ≤ T) (hno : ¬s.Overwritten T)
    (hfirst : ∃ p ∈ (M ++ [R]).flatten.head?, p.time ≤ T)
    -- each read takes one of the blocks that are not empty
    (hn : ∃ A B, M ++ [R] = A ++ B ∧ B.length ≤ n ∧ ∀ Q ∈ A, ¬Newer T Q) :
    readAll codec fuel s offsets n T =
      ((M ++ [R]).flatten.filter fun p => T < p.time).map Prod.fst := by
  have hflat := flatten_blocks (R := R) hM
  have hinc : Increasing (M ++ [R]).flatten := by
    rw [hflat]
    exact h.increasing
  induction n generalizing T with
  | zero =>
    obtain ⟨A, B, hAB, hB, hA⟩ := hn
    obtain rfl : B = [] := eq_nil_of_length_eq_zero (by omega)
    rw [hAB, append_nil, List.filter_eq_nil_iff.2]
    · rfl
    · intro p hp hlt
      obtain ⟨Q, hQ, hp⟩ := List.mem_flatten.1 hp
      exact hA Q hQ ⟨p, hp, of_decide_eq_true hlt⟩
  | succ n ih =>
    have hT0 : 0 ≤ T := by omega
    obtain ⟨p0, hp0, hle0⟩ := hfirst
    have hmem : s.readFromBuffer codec fuel ⟨T, offsets n, false⟩ =
        s.readFromMemory codec fuel ⟨T, offsets n, false⟩ := h.read_memory (by rw [← hflat]; exact hp0) hle0
    by_cases hnew : Newer T (M ++ [R]).flatten
    · obtain ⟨A, Q, B, hW, hA, hQ⟩ := exists_first_newer hnew
      obtain ⟨i, hres⟩ := h.read_found hM hT0 (hoff n) hno ⟨p0, by rw [← hflat]; exact hp0, hle0⟩ hfuel hW hA hQ
      have hQW : Q ∈ M ++ [R] := by
        rw [hW]
        exact mem_append_right _ mem_cons_self
      have hQinc : Increasing Q := hinc.sublist (sublist_flatten_of_mem hQW)
      have hlt : T < lastTime Q := hQ.lt_lastTime hQinc
      have hdec : codec.decode (recordBytes (after T Q)) = some ((after T Q).map Prod.fst) :=
        Readable.decode fun q hq => hread Q hQW q ((dropWhile_sublist _).subset hq)
      obtain ⟨q, hq, hqt⟩ : ∃ q, (after T Q).getLast? = some q ∧ q.time = lastTime Q := by
        obtain ⟨old, p, new, hQeq, -, -, hafter⟩ := hQ.split
        refine ⟨_, by rw [hafter, getLast?_cons], ?_⟩
        rw [hQeq, lastTime, getLast?_append, getLast?_cons]
        rfl
      -- up to `Q` nothing is newer than the last record of `Q`
      have hold : ∀ Q' ∈ A ++ [Q], ¬Newer (lastTime Q) Q' := by
        rintro Q' hQ' ⟨p, hp, hltp⟩
        rcases List.mem_append.1 hQ' with hQ' | hQ'
        · exact hA Q' hQ' ⟨p, hp, lt_trans hlt hltp⟩
        · rw [List.mem_singleton.1 hQ'] at hp
          exact not_lt.2 (le_lastTime hQinc hp) hltp
      have hno' : ¬s.Overwritten (lastTime Q) := by
        intro hover
        obtain ⟨x, hx, hxnew, -, hxne, -⟩ := h.read_overwritten (hoff n) (by omega) hover (show 0 < fuel by omega)
        refine hold x.2 ?_ hxnew
        have hhead : (A ++ Q :: B).head? = some x.2 := by
          rw [← hW, head?_append, (head_block hM hx hxne).2]
          rfl
        cases A with
        | nil => exact List.mem_singleton.2 (Option.some.inj hhead).symm
        | cons Q' A =>
          rw [← Option.some.inj hhead]
          exact mem_cons_self
      have hrest : ∃ A' B', M ++ [R] = A' ++ B' ∧ B'.length ≤ n ∧ ∀ Q' ∈ A', ¬Newer (lastTime Q) Q' := by
        refine ⟨A ++ [Q], B, by rw [hW, append_assoc]; rfl, ?_, hold⟩
        obtain ⟨A', B', hAB, hB, hA'⟩ := hn
        have hlen : A.length + (B.length + 1) = A'.length + B'.length := by
          rw [← length_append, ← hAB, hW, length_append, length_cons]
        have hle : A'.length ≤ A.length := by
          by_contra hlt
          have hget : (A' ++ B')[A.length]? = some Q := by
            rw [← hAB, hW, getElem?_append_right (Nat.le_refl _), Nat.sub_self]
            rfl
          rw [getElem?_append_left (by omega)] at hget
          exact hA' Q (mem_of_getElem? hget) hQ
        omega
      rw [readAll, hmem, hres]
      simp only [hdec, Option.getD_some, getLast?_map, hq, Option.map_some]
      rw [filter_newer hW hinc hA hQ, map_append]
      rw [← filter_newer_last hW hinc hQ.ne_nil, ← ih (by omega) hno' ⟨p0, hp0, by omega⟩ hrest, ← hqt]
    · rw [readAll, hmem, h.read_none hT0 (hoff n) (by rw [← hflat]; exact hnew), List.filter_eq_nil_iff.2]
      · rfl
      · intro p hp hlt
        exact hnew ⟨p, hp, of_decide_eq_true hlt⟩

/-! ## The states reached -/

namespace LogRun

theorem Blocks.lastSealed (h : Blocks codec r all L R) :
    L.map Prod.snd = List.replicate (previousBufferCount - all.length) [] ++
      all.drop (all.length - previousBufferCount) := by
  rw [h.sealed, drop_append, drop_replicate, length_replicate]

theorem Blocks.inMemory (h : Blocks codec r all L R) :
    r.inMemory = (all.drop (all.length - previousBufferCount) ++ [R]).map recordBytes := by
  have hlen : r.flushed.length = all.length := by
    have := congrArg List.length h.flushed
    rwa [length_map, length_map] at this
  rw [LogRun.inMemory, h.flushed, hlen, h.memory.filled.content, map_append, map_drop, map_singleton]

open LogBuffer in
/-- **Reads.** -/
theorem readFromBuffer_answers (codec : LogCodec) (flushInterval : Int) (highestOffset : Option Int64)
    (now : Int64) (calls : List LogCall)
    (h : Throughout (execute codec) (fun r c => r.Accepts codec c) (start flushInterval highestOffset now)
      calls) :
    let r := calls.foldl (execute codec) (start flushInterval highestOffset now)
    ∃ mem bound, r.inMemory.map codec.decode = mem.map some ∧
      mem.flatten.Pairwise (fun e e' => e.tsNs < e'.tsNs) ∧
      ∀ (T : Int) (o : Int64), 10 ^ 9 ≤ T → 0 < o → ∀ fuel > bound,
        (∃ res, r.log.readFromBuffer codec fuel ⟨T, o, false⟩ = some res ∧
          (Answers codec r.inMemory mem T res ↔ ¬r.log.Overwritten T)) ∧
        (¬r.log.Overwritten T → (∃ e ∈ mem.flatten.head?, e.tsNs.toInt ≤ T) →
          ∀ offsets : Nat → Int64, (∀ n, 0 < offsets n) → ∀ n ≥ mem.length,
            readAll codec fuel r.log offsets n T = mem.flatten.filter fun e => T < e.tsNs.toInt) := by
  intro r
  obtain ⟨all, L, R, hr⟩ := exists_blocks h
  have hM := hr.lastSealed
  generalize hMdef : all.drop (all.length - previousBufferCount) = M at hM
  have hmem := hr.inMemory
  rw [hMdef] at hmem
  have hread : ∀ Q ∈ M ++ [R], Readable codec Q := by
    intro Q hQ
    refine hr.readable_append Q ?_
    rw [← hMdef] at hQ
    exact ((drop_sublist _ _).append_right [R]).subset hQ
  have hflat := flatten_blocks (R := R) hM
  refine ⟨entriesOf (M ++ [R]), (L.flatMap Prod.snd ++ R).length, ?_, ?_, fun T o hT ho fuel hfuel => ⟨?_, ?_⟩⟩
  · rw [hmem, entriesOf, map_map, map_map]
    exact map_congr_left fun Q hQ => (hread Q hQ).decode
  · rw [flatten_entriesOf, pairwise_map, hflat]
    exact hr.memory.increasing.imp fun hlt => Int64.lt_iff_toInt_lt.2 hlt
  · rw [hmem]
    exact hr.memory.read_answers hM hread hT ho hfuel
  · intro hno hfirst offsets hoff n hn
    rw [entriesOf, length_map] at hn
    rw [hr.memory.readAll_eq hM hread hoff hfuel hT hno (exists_head_entries.1 hfirst)
      ⟨[], M ++ [R], rfl, hn, nofun⟩, flatten_entriesOf, filter_map]
    rfl

/-- A sealed block, one in use and a read that starts between them. -/
theorem readFromBuffer_answers_sealed :
    let calls : List LogCall := [.addDataToBuffer [] [1] 2000000000 0, .flush,
      .addDataToBuffer [] [2] 3000000000 0]
    let r := calls.foldl (execute fixedCodec) (start 10 none 0)
    ∃ mem bound, r.inMemory.map fixedCodec.decode = mem.map some ∧ ∀ fuel > bound,
      ∃ res, r.log.readFromBuffer fixedCodec fuel ⟨2500000000, 1, false⟩ = some res ∧
        Answers fixedCodec r.inMemory mem 2500000000 res := by
  intro calls r
  obtain ⟨mem, bound, hmem, -, h⟩ := readFromBuffer_answers fixedCodec 10 none 0 calls (by decide +kernel)
  refine ⟨mem, bound, hmem, fun fuel hfuel => ?_⟩
  obtain ⟨res, hres, hiff⟩ := (h 2500000000 1 (by decide) (by decide) fuel hfuel).1
  have hkept : ∀ mb ∈ r.log.prevBuffers.head?, ¬ (mb.buf = r.log.buf ∧ mb.startTime ≤ 2500000000 ∧
      2500000000 < mb.stopTime) := by decide +kernel
  refine ⟨res, hres, hiff.2 ?_⟩
  rintro ⟨-, mb, hmb, hover⟩
  exact hkept mb hmb hover

/-- Two entries are sealed, then three times one, and a sixth is written over the first: a reader that has seen the
first entry gets the sixth before the second. -/
theorem readFromBuffer_overwritten :
    let calls : List LogCall := [.addDataToBuffer [] [1] 2000000000 0, .addDataToBuffer [] [2] 2000000001 0,
      .flush, .addDataToBuffer [] [3] 3000000000 0, .flush, .addDataToBuffer [] [4] 4000000000 0, .flush,
      .addDataToBuffer [] [5] 5000000000 0, .flush, .addDataToBuffer [] [6] 6000000000 0]
    let r := calls.foldl (execute fixedCodec) (start 1000000000000 none 0)
    r.accepted.length = 6 ∧
      r.inMemory.map (fun block => (fixedCodec.decode block).map (·.map LogEntry.data)) =
        [some [[1], [2]], some [[3]], some [[4]], some [[5]], some [[6]]] ∧
      (readAll fixedCodec 10 r.log (fun _ => 1) 6 2000000000).map LogEntry.data =
        [[6], [2], [3], [4], [5], [6]] := by
  decide +kernel

end LogRun

end Util
