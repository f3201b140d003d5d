import SeaweedFS.Util.Proof.LogBuffer

/-!
# Reading from the log buffer

`Holds codec b n Q`: a buffer starts with the records `Q`. `Memory codec s L R` describes the sealed buffers with
their records, and the buffer in use, which after `SealBuffer` is the first of the sealed ones again: the records of
that one last only until the next entry is stored.
-/

namespace Util

open Lib List Block Int LogBuffer Option

variable {codec : LogCodec} {s s' : LogBuffer} {Q R : List LogRecord} {T : Int}

variable {x : MemBuffer × List LogRecord} {p : LogRecord} {A B : List LogRecord}

/-- The time stamp of a record. -/
abbrev LogRecord.time (p : LogRecord) : Int := p.1.tsNs.toInt

/-- Time stamps increase. -/
def Increasing (Q : List LogRecord) : Prop := Q.Pairwise fun p q => p.time < q.time

/-- The records from the first that is newer than `T` on. -/
def after (T : Int) (Q : List LogRecord) : List LogRecord := Q.dropWhile fun p => p.time ≤ T

/-- Some record is newer than `T`. -/
def Newer (T : Int) (Q : List LogRecord) : Prop := ∃ p ∈ Q, T < p.time

theorem Newer.split (h : Newer T Q) :
    ∃ old p new, Q = old ++ p :: new ∧ (∀ q ∈ old, q.time ≤ T) ∧ T < p.time ∧ after T Q = p :: new := by
  induction Q with
  | nil =>
    obtain ⟨p, hp, -⟩ := h
    cases hp
  | cons q Q ih =>
    by_cases hq : T < q.time
    · refine ⟨[], q, Q, rfl, nofun, hq, ?_⟩
      rw [after, dropWhile_cons_of_neg (by simpa using hq)]
    · have hQ : Newer T Q := by
        obtain ⟨p, hp, hlt⟩ := h
        rcases List.mem_cons.1 hp with rfl | hp
        · exact absurd hlt hq
        · exact ⟨p, hp, hlt⟩
      obtain ⟨old, p, new, rfl, hold, hp, hafter⟩ := ih hQ
      refine ⟨q :: old, p, new, rfl, forall_mem_cons.2 ⟨not_lt.1 hq, hold⟩, hp, ?_⟩
      rw [after, dropWhile_cons_of_pos (by simpa using hq)]
      exact hafter

/-! ## Entries in a buffer -/

/-- The buffer starts with the records `Q`, `n` bytes in all. -/
structure Holds (codec : LogCodec) (b : Block) (n : Nat) (Q : List LogRecord) : Prop where
  bytes : b.upTo n = recordBytes Q
  le : n ≤ b.len
  readable : Readable codec Q

variable {b : Block} {n : Nat}

theorem Holds.length (h : Holds codec b n Q) : n = (recordBytes Q).length := by
  rw [← h.bytes, length_upTo]

theorem Holds.readTs (h : Holds codec b n (A ++ p :: B)) :
    LogBuffer.readTs codec b (recordBytes A).length = .ok (p.2.length, p.1.tsNs) := by
  obtain ⟨hun, hsize⟩ := h.readable p (by simp)
  have hbytes : recordBytes (A ++ p :: B) = recordBytes A ++ (toBE 4 p.2.length ++ (p.2 ++ recordBytes B)) := by
    rw [recordBytes_append, ← singleton_append, recordBytes_append, recordBytes_singleton, append_assoc]
  have hn : n = (recordBytes A).length + (4 + (p.2.length + (recordBytes B).length)) := by
    rw [h.length, hbytes]
    simp only [length_append, length_toBE]
  have hle := h.le
  have hhead : b.slice (recordBytes A).length ((recordBytes A).length + 4) = toBE 4 p.2.length := by
    rw [slice_eq b _ (show _ ≤ n by omega), h.bytes, hbytes, take_append, drop_append]
    simp [take_left' (length_toBE 4 _)]
  have hdata : b.slice ((recordBytes A).length + 4) ((recordBytes A).length + 4 + p.2.length) = p.2 := by
    rw [slice_eq b _ (show _ ≤ n by omega), h.bytes, hbytes, drop_take, ← drop_drop,
      drop_left, drop_left' (length_toBE 4 _),
      show (recordBytes A).length + 4 + p.2.length - ((recordBytes A).length + 4) = p.2.length by omega,
      take_left]
  have hval : (bytesToUint32 (toBE 4 p.2.length)).toNat = p.2.length := by
    rw [bytesToUint32_toNat (by simp [toBE]), ofBE_toBE]
    omega
  unfold LogBuffer.readTs
  rw [if_neg (by omega), hhead, hval, if_neg (by omega), hdata, hun]

theorem Holds.lt_len (h : Holds codec b n (A ++ p :: B)) : (recordBytes A).length < b.len := by
  have hle := h.le
  rw [h.length, recordBytes_append, ← singleton_append, recordBytes_append, recordBytes_singleton] at hle
  simp only [length_append, length_toBE] at hle
  omega

theorem Holds.locateByTs {t : Int64} {old new : List LogRecord} {fuel : Nat}
    (h : Holds codec b n (A ++ (old ++ p :: new))) (hold : ∀ q ∈ old, q.time ≤ t.toInt)
    (hp : t.toInt < p.time) (hfuel : old.length < fuel) :
    LogBuffer.locateByTs codec b t fuel (recordBytes A).length = some (.ok (recordBytes (A ++ old)).length) := by
  obtain ⟨fuel, rfl⟩ : ∃ m, fuel = m + 1 := ⟨fuel - 1, by omega⟩
  induction old generalizing A fuel with
  | nil =>
    rw [LogBuffer.locateByTs, if_pos (Holds.lt_len h), Holds.readTs h]
    show (if _ then _ else _) = _
    rw [if_pos (Int64.lt_iff_toInt_lt.2 hp), append_nil]
  | cons q old ih =>
    have hq : ¬t < q.1.tsNs := fun hlt =>
      not_lt.2 (hold q mem_cons_self) (Int64.lt_iff_toInt_lt.1 hlt)
    have hnext : (recordBytes A).length + (q.2.length + 4) = (recordBytes (A ++ [q])).length := by
      rw [recordBytes_append, recordBytes_singleton]
      simp only [length_append, length_toBE]
      omega
    obtain ⟨fuel, rfl⟩ : ∃ m, fuel = m + 1 := ⟨fuel - 1, by rw [length_cons] at hfuel; omega⟩
    rw [LogBuffer.locateByTs, if_pos (Holds.lt_len h), Holds.readTs h]
    show (if _ then _ else LogBuffer.locateByTs codec b t (fuel + 1) _) = _
    have h' : Holds codec b n (A ++ [q] ++ (old ++ p :: new)) := by
      rw [append_assoc]
      exact h
    rw [if_neg hq, hnext, append_cons A q old]
    exact ih h' (fun q' hq' => hold q' (.tail _ hq')) fuel (by rw [length_cons] at hfuel; omega)

/-- The entry at index `i` is read. -/
theorem Holds.readTs_idx (h : Holds codec b n Q) {i : Nat} (hi : Q[i]? = some p) :
    LogBuffer.readTs codec b ((starts 4 (Q.map Prod.snd)).getD i 0) = .ok (p.2.length, p.1.tsNs) := by
  obtain ⟨hlt, rfl⟩ := List.getElem?_eq_some_iff.1 hi
  have hstart : (starts 4 (Q.map Prod.snd)).getD i 0 = (recordBytes (Q.take i)).length := by
    rw [getD_eq_getElem?_getD, getElem?_starts (by rwa [length_map]), getD_some, ← map_take]
    rfl
  have hsplit : Q = Q.take i ++ Q[i] :: Q.drop (i + 1) := by
    rw [← drop_eq_getElem_cons hlt, take_append_drop]
  rw [hstart]
  rw [hsplit] at h
  exact h.readTs

theorem Holds.searchIdx {t : Int64} {old new : List LogRecord}
    (h : Holds codec b n (old ++ p :: new)) (hsorted : Increasing (old ++ p :: new))
    (hold : ∀ q ∈ old, q.time ≤ t.toInt) (hp : t.toInt < p.time) (ht : 0 ≤ t.toInt) {fuel : Nat} {l r : Int}
    (hl : 0 ≤ l) (hlo : l ≤ old.length) (hhi : old.length ≤ r) (hr : r ≤ (old.length : Int) + new.length)
    (hfuel : r - l < fuel) :
    LogBuffer.searchIdx codec b (starts 4 ((old ++ p :: new).map Prod.snd)) t fuel l r =
      some (.ok (some (recordBytes old).length)) := by
  -- before the index of `p` entries are not newer, from it on they are
  have hnew : ∀ i q, old.length ≤ i → (old ++ p :: new)[i]? = some q → t.toInt < q.time := by
    intro i q hi hq
    rw [getElem?_append_right hi] at hq
    rcases List.mem_cons.1 (mem_of_getElem? hq) with rfl | hmem
    · exact hp
    · exact lt_trans hp ((List.pairwise_cons.1 (List.pairwise_append.1 hsorted).2.1).1 q hmem)
  have hold' : ∀ i q, i < old.length → (old ++ p :: new)[i]? = some q → q.time ≤ t.toInt := by
    intro i q hi hq
    rw [getElem?_append_left hi] at hq
    exact hold q (mem_of_getElem? hq)
  induction fuel generalizing l r with
  | zero => omega
  | succ fuel ih =>
    rw [LogBuffer.searchIdx, if_pos (by omega)]
    generalize hmid : ((l + r) / 2).toNat = mid
    have hlen : (old ++ p :: new).length = old.length + (new.length + 1) := by
      rw [length_append, length_cons]
    obtain ⟨q, hq⟩ : ∃ q, (old ++ p :: new)[mid]? = some q :=
      ⟨_, getElem?_eq_getElem (by omega)⟩
    simp only [h.readTs_idx hq]
    by_cases hlt : mid < old.length
    · rw [if_pos (Int64.le_iff_toInt_le.2 (hold' mid q hlt hq))]
      exact ih (by omega) (by omega) hhi hr (by omega)
    · have hpos : (starts 4 ((old ++ p :: new).map Prod.snd)).getD old.length 0 = (recordBytes old).length := by
        rw [getD_eq_getElem?_getD, getElem?_starts (by rw [length_map]; omega), getD_some,
          ← map_take, take_left]
        rfl
      rw [if_neg fun hle => not_lt.2 (Int64.le_iff_toInt_le.1 hle) (hnew mid q (by omega) hq)]
      by_cases hzero : 0 < mid
      · obtain ⟨q', hq'⟩ : ∃ q', (old ++ p :: new)[mid - 1]? = some q' :=
          ⟨_, getElem?_eq_getElem (by omega)⟩
        simp only [if_pos hzero, h.readTs_idx hq']
        by_cases heq : mid = old.length
        · rw [if_pos (Int64.le_iff_toInt_le.2 (hold' (mid - 1) q' (by omega) hq')), heq, hpos]
        · rw [if_neg fun hle =>
            not_lt.2 (Int64.le_iff_toInt_le.1 hle) (hnew (mid - 1) q' (by omega) hq')]
          exact ih hl hlo (by omega) (by omega) (by omega)
      · simp only [if_neg hzero]
        rw [if_pos (show (0 : Int64) ≤ t from Int64.le_iff_toInt_le.2 ht), show mid = old.length by omega, hpos]

/-! ## The blocks in memory -/

/-- The time of the first record. -/
def firstTime (Q : List LogRecord) : Int := (Q.head?.map LogRecord.time).getD zeroTime

/-- The time of the last record. -/
def lastTime (Q : List LogRecord) : Int := (Q.getLast?.map LogRecord.time).getD zeroTime

/-- What a sealed buffer says of the records that were sealed in it. -/
structure Sealed (mb : MemBuffer) (Q : List LogRecord) : Prop where
  size : mb.size = (recordBytes Q).length
  start : mb.startTime = firstTime Q
  stop : mb.stopTime = lastTime Q

/-- The sealed buffers with their records, and those of the buffer in use, `R`. The buffer in use may be the first
of the sealed ones, which then holds its records only as long as nothing is in use. -/
structure Layout (codec : LogCodec) (s : LogBuffer) (L : List (MemBuffer × List LogRecord))
    (R : List LogRecord) : Prop where
  filled : Filled codec s R
  prev : s.prevBuffers = L.map Prod.fst
  length : L.length = previousBufferCount
  sealed : ∀ x ∈ L, Sealed x.1 x.2
  rest : ∀ x ∈ L.tail, Holds codec (s.block x.1.buf) x.1.size x.2
  first : ∀ x ∈ L.head?, s.pos = 0 ∨ x.1.buf ≠ s.buf → Holds codec (s.block x.1.buf) x.1.size x.2
  distinct : (s.buf :: L.tail.map fun x => x.1.buf).Nodup

theorem Filled.holds (h : Filled codec s R) : Holds codec (s.block s.buf) s.pos R :=
  ⟨h.content, h.pos_le, h.readable⟩

namespace Layout

variable {L : List (MemBuffer × List LogRecord)}

section

variable (h : Layout codec s L R)
include h

theorem buf_lt (hx : x ∈ L) : x.1.buf < s.heap.length := by
  apply h.filled.prev_lt
  rw [h.prev]
  exact mem_map_of_mem hx

theorem buf_ne (hx : x ∈ L.tail) : x.1.buf ≠ s.buf := by
  intro heq
  have hnot := (List.nodup_cons.1 h.distinct).1
  rw [← heq] at hnot
  exact hnot (mem_map_of_mem (f := fun y : MemBuffer × List LogRecord => y.1.buf) hx)

theorem setStart (ts : Int) : Layout codec { s with startTime := ts } L R :=
  ⟨h.filled.setStart ts, h.prev, h.length, h.sealed, h.rest, h.first, h.distinct⟩

theorem stamp (ts : Int64) : Layout codec (s.stamp ts).2 L R := by
  have hf := h.filled.stamp ts
  revert hf
  unfold LogBuffer.stamp
  split <;> exact fun hf => ⟨hf, h.prev, h.length, h.sealed, h.rest, h.first, h.distinct⟩

theorem loopFlush (d : DataToFlush) : Layout codec (s.loopFlush d) L R :=
  ⟨h.filled.loopFlush d, h.prev, h.length, h.sealed, h.rest, h.first, h.distinct⟩

theorem prepared (e : LogEntry) (tracked : Bool) : Layout codec (s.prepared e tracked) L R := by
  have hf := h.filled.prepared e tracked
  revert hf
  unfold LogBuffer.prepared LogBuffer.begin LogBuffer.track
  repeat' split
  all_goals exact fun hf => ⟨hf, h.prev, h.length, h.sealed, h.rest, h.first, h.distinct⟩

/-- The sealed buffer becomes the last, and the buffer in use is the first of the others. -/
theorem copyToFlush (hR : R ≠ []) (hstart : s.startTime = firstTime R)
    (hstop : s.stopTime = lastTime R) :
    ∃ mb, Layout codec s.copyToFlush.1 (L.tail ++ [(mb, R)]) [] := by
  have hpos : 0 < s.pos := Nat.pos_of_ne_zero fun h0 => hR (h.filled.pos_eq_zero.1 h0)
  have hf := h.filled.copyToFlush
  rw [LogBuffer.copyToFlush, if_pos hpos] at hf ⊢
  let mb : MemBuffer := ⟨s.buf, s.pos, s.startTime, s.stopTime, s.bufferStartOffset, s.offset - 1⟩
  have hholds : ∀ x ∈ L.tail ++ [(mb, R)], Holds codec (s.block x.1.buf) x.1.size x.2 := by
    exact forall_mem_append.2 ⟨h.rest, forall_mem_singleton.2 h.filled.holds⟩
  have hbufs : ((L.tail ++ [(mb, R)]).map fun x => x.1.buf).Nodup := by
    rw [map_append]
    exact perm_append_singleton s.buf _ |>.nodup_iff.2 h.distinct
  have hlen := h.length
  refine ⟨mb, hf, ?_, ?_, fun x hx => ?_, fun x hx => hholds x (mem_of_mem_tail hx),
    fun x hx _ => hholds x (mem_of_mem_head? hx), ?_⟩
  · rw [h.prev, map_append, map_tail]
    rfl
  · rw [length_append, List.length_tail, hlen]
    rfl
  · rcases List.mem_append.1 hx with hx | hx
    · exact h.sealed x (mem_of_mem_tail hx)
    · rw [List.mem_singleton.1 hx]
      exact ⟨h.filled.pos_eq, hstart, hstop⟩
  · show (((s.prevBuffers.tail ++ [mb]).headD mb).buf :: _).Nodup
    rw [h.prev, ← map_tail]
    revert hbufs
    cases L.tail with
    | nil => exact id
    | cons y ys => exact id

omit h in
theorem grow (h : Layout codec s L []) {size : Nat} (hs : s.grow size = .ok s') : Layout codec s' L [] := by
  have hf := (h.filled.grow hs).1
  have hpos : s.pos = 0 := h.filled.pos_eq_zero.2 rfl
  unfold LogBuffer.grow at hs
  split at hs
  next =>
    split at hs
    next => cases hs
    next =>
      obtain rfl := Except.ok.inj hs
      have hblock : ∀ x ∈ L, block { s with heap := s.heap ++ [.make (2 * size + 4)], buf := s.heap.length }
          x.1.buf = s.block x.1.buf := by
        intro x hx
        simp only [block, getD_eq_getElem?_getD, getElem?_append_left (h.buf_lt hx)]
      refine ⟨hf, h.prev, h.length, h.sealed, fun x hx => ?_, fun x hx _ => ?_, ?_⟩
      · rw [hblock x (mem_of_mem_tail hx)]
        exact h.rest x hx
      · rw [hblock x (mem_of_mem_head? hx)]
        exact h.first x hx (.inl hpos)
      · refine List.nodup_cons.2 ⟨fun hmem => ?_, (List.nodup_cons.1 h.distinct).2⟩
        obtain ⟨x, hx, heq⟩ := List.mem_map.1 hmem
        have := h.buf_lt (mem_of_mem_tail hx)
        have heq' : x.1.buf = s.heap.length := heq
        omega
  next =>
    obtain rfl := Except.ok.inj hs
    exact h

theorem store {e : LogEntry} {d : List UInt8} (hd : codec.marshal e = some d)
    (hroom : s.pos + (d.length + 4) ≤ (s.block s.buf).len) (ts : Int) :
    Layout codec (s.store ts d) L (R ++ [(e, d)]) := by
  have hblock : ∀ i, i ≠ s.buf → (s.store ts d).block i = s.block i := by
    intro i hi
    rw [LogBuffer.store, LogBuffer.block, getD_eq_getElem?_getD, getElem?_set_ne (Ne.symm hi)]
    rfl
  refine ⟨h.filled.store hd hroom ts, h.prev, h.length, h.sealed, fun x hx => ?_, fun x hx hor => ?_, h.distinct⟩
  · rw [hblock _ (h.buf_ne hx)]
    exact h.rest x hx
  · have hne : x.1.buf ≠ s.buf := by
      rcases hor with hzero | hne
      · have hpos : s.pos + (d.length + 4) = 0 := hzero
        omega
      · exact hne
    rw [hblock _ hne]
    exact h.first x hx (.inr hne)

end

end Layout

/-! ## Reading the sealed buffers -/

theorem not_lt_firstTime (hT : 0 ≤ T) (h : ¬Newer T Q) : ¬T < firstTime Q := by
  cases Q with
  | nil =>
    show ¬T < zeroTime
    unfold zeroTime
    omega
  | cons p Q => exact fun hlt => h ⟨p, mem_cons_self, hlt⟩

theorem not_lt_lastTime (hT : 0 ≤ T) (h : ¬Newer T Q) : ¬T < lastTime Q := by
  rcases eq_nil_or_concat Q with rfl | ⟨Q', p, rfl⟩
  · show ¬T < zeroTime
    unfold zeroTime
    omega
  · rw [concat_eq_append] at h ⊢
    rw [lastTime, getLast?_append, getLast?_singleton]
    exact fun hlt => h ⟨p, mem_append_right _ (mem_singleton_self p), hlt⟩

theorem Newer.lt_lastTime (hQ : Increasing Q) (h : Newer T Q) : T < lastTime Q := by
  obtain ⟨q, hq, hlt⟩ := h
  rcases eq_nil_or_concat Q with rfl | ⟨Q', p, rfl⟩
  · cases hq
  · rw [concat_eq_append] at hq hQ ⊢
    rw [lastTime, getLast?_append, getLast?_singleton]
    rcases List.mem_append.1 hq with hq | hq
    · exact lt_trans hlt ((List.pairwise_append.1 hQ).2.2 q hq p (mem_singleton_self p))
    · rw [List.mem_singleton.1 hq] at hlt
      exact hlt

theorem lastTime_lt (hT : 0 ≤ T) (h : T < lastTime Q) : T < 2 ^ 63 := by
  rw [lastTime] at h
  cases hlast : Q.getLast? with
  | none =>
    rw [hlast] at h
    have hz : T < zeroTime := h
    unfold zeroTime at hz
    omega
  | some p =>
    rw [hlast] at h
    have hp : T < p.1.tsNs.toInt := h
    have := Int64.toInt_lt p.1.tsNs
    omega

theorem toInt_ofInt (h0 : 0 ≤ T) (h : T < 2 ^ 63) : (Int64.ofInt T).toInt = T :=
  Int64.toInt_ofInt_of_le (by omega) h

variable {o : Int64} {fuel : Nat}

theorem readSealed_skip {A : List (MemBuffer × List LogRecord)} (hA : ∀ x ∈ A, Sealed x.1 x.2) (hT : 0 ≤ T)
    (hn : ∀ x ∈ A, ¬Newer T x.2) (rest : List MemBuffer) :
    s.readSealed codec fuel ⟨T, o, false⟩ (A.map Prod.fst ++ rest) =
      s.readSealed codec fuel ⟨T, o, false⟩ rest := by
  induction A with
  | nil => rfl
  | cons x A ih =>
    have hx := hA x mem_cons_self
    have hnx := hn x mem_cons_self
    rw [map_cons, cons_append, readSealed]
    rw [if_neg (by rw [hx.start]; exact not_lt_firstTime hT hnx),
      if_neg (by rw [hx.stop]; exact not_lt_lastTime hT hnx)]
    exact ih (fun y hy => hA y (.tail _ hy)) fun y hy => hn y (.tail _ hy)

theorem readSealed_found {mb : MemBuffer} (hmb : Sealed mb Q) (hholds : Holds codec (s.block mb.buf) mb.size Q)
    (hQ : Increasing Q) (hT : 0 ≤ T) (ho : 0 < o) (hn : Newer T Q) (hfuel : Q.length < fuel)
    (rest : List MemBuffer) : s.readSealed codec fuel ⟨T, o, false⟩ (mb :: rest) =
      some (some ⟨some (recordBytes (after T Q)), mb.offset, none⟩) := by
  obtain ⟨old, p, new, rfl, hold, hp, hafter⟩ := hn.split
  have hlast : T < lastTime (old ++ p :: new) := hn.lt_lastTime hQ
  rw [readSealed, hmb.start, hmb.stop, hafter]
  cases old with
  | nil =>
    have hfirst : T < firstTime ([] ++ p :: new) := hp
    rw [if_pos hfirst, hholds.bytes]
    rfl
  | cons q old =>
    have hq : ¬T < firstTime (q :: old ++ p :: new) := not_lt.2 (hold q mem_cons_self)
    have hTi := toInt_ofInt hT (lastTime_lt hT hlast)
    have hloc : locateByTs codec (s.block mb.buf) (Int64.ofInt T) fuel 0 =
        some (.ok (recordBytes (q :: old)).length) := by
      have hholds' : Holds codec (s.block mb.buf) mb.size ([] ++ (q :: old ++ p :: new)) := hholds
      refine hholds'.locateByTs (fun q' hq' => ?_) ?_ ?_
      · rw [hTi]
        exact hold q' hq'
      · rw [hTi]
        exact hp
      · rw [length_append] at hfuel
        omega
    have hsplit : recordBytes (q :: old ++ p :: new) = recordBytes (q :: old) ++ recordBytes (p :: new) :=
      recordBytes_append _ _
    have hslice : (s.block mb.buf).slice (recordBytes (q :: old)).length mb.size = recordBytes (p :: new) := by
      rw [Block.slice, hholds.bytes, hsplit, drop_left]
    have hoff : ¬o ≤ 0 := Int64.not_le.2 ho
    rw [if_neg hq, if_pos hlast]
    simp only [if_neg hoff, hloc, hslice]

/-! ## The earliest time in memory -/

theorem firstTime_append_of_ne (h : A ≠ []) : firstTime (A ++ B) = firstTime A := by
  obtain ⟨p, A', rfl⟩ := exists_cons_of_ne_nil h
  rfl

theorem firstTime_ne_zeroTime (hpos : ∀ p ∈ Q, 0 < p.time) (h : Q ≠ []) : firstTime Q ≠ zeroTime := by
  obtain ⟨p, Q', rfl⟩ := exists_cons_of_ne_nil h
  have hp : 0 < p.time := hpos p mem_cons_self
  show p.time ≠ zeroTime
  unfold zeroTime
  omega

theorem firstTime_lt (h : Increasing (A ++ B)) (hA : A ≠ []) (hB : B ≠ []) :
    firstTime A < firstTime B := by
  obtain ⟨p, A', rfl⟩ := exists_cons_of_ne_nil hA
  obtain ⟨q, B', rfl⟩ := exists_cons_of_ne_nil hB
  exact (List.pairwise_append.1 h).2.2 p mem_cons_self q mem_cons_self

/-- `tsMemory` is the time of the first record in memory. -/
theorem foldl_earlier {X : List (MemBuffer × List LogRecord)} (hX : ∀ x ∈ X, Sealed x.1 x.2)
    (hinc : Increasing (X.flatMap Prod.snd ++ R)) (hpos : ∀ p ∈ X.flatMap Prod.snd ++ R, 0 < p.time) :
    (X.map Prod.fst).foldl LogBuffer.earlier (firstTime R) = firstTime (X.flatMap Prod.snd ++ R) := by
  induction X using List.reverseRecOn with
  | nil => rfl
  | append_singleton X x ih =>
    have hflat : (X ++ [x]).flatMap Prod.snd = X.flatMap Prod.snd ++ x.2 := by
      rw [flatMap_append, flatMap_singleton]
    rw [hflat] at hinc hpos ⊢
    have hsub : (X.flatMap Prod.snd ++ R).Sublist (X.flatMap Prod.snd ++ x.2 ++ R) := by
      rw [append_assoc]
      exact (sublist_append_right x.2 R).append_left _
    have hx := hX x (mem_append_right _ (mem_singleton_self x))
    rw [map_append, foldl_append,
      ih (fun y hy => hX y (mem_append_left _ hy)) (hinc.sublist hsub) fun p hp => hpos p (hsub.subset hp)]
    show earlier _ x.1 = _
    rw [earlier, hx.start, append_assoc]
    rw [append_assoc] at hinc hpos
    have hxR := fun p hp => hpos p (mem_append_right _ hp)
    by_cases hx2 : x.2 = []
    · rw [hx2, if_neg fun hand => hand.1 rfl, nil_append]
    · have hne : firstTime x.2 ≠ zeroTime :=
        firstTime_ne_zeroTime (fun p hp => hxR p (mem_append_left _ hp)) hx2
      by_cases hX2 : X.flatMap Prod.snd = []
      · rw [hX2, nil_append, nil_append, firstTime_append_of_ne hx2]
        by_cases hR : R = []
        · rw [if_pos ⟨hne, .inl (by rw [hR]; rfl)⟩]
        · exact if_pos ⟨hne, .inr (firstTime_lt (List.pairwise_append.1 hinc).2.1 hx2 hR)⟩
      · have hlt : firstTime (X.flatMap Prod.snd) < firstTime x.2 := by
          rw [← append_assoc] at hinc
          exact firstTime_lt (List.pairwise_append.1 hinc).1 hX2 hx2
        have hne' : firstTime (X.flatMap Prod.snd) ≠ zeroTime :=
          firstTime_ne_zeroTime (fun p hp => hpos p (mem_append_left _ hp)) hX2
        rw [firstTime_append_of_ne hX2, firstTime_append_of_ne hX2]
        exact if_neg fun hand => hand.2.elim hne' fun h => by omega

/-! ## Reading from memory -/

/-- The blocks in memory, with the times of the buffer in use. -/
structure Memory (codec : LogCodec) (s : LogBuffer) (L : List (MemBuffer × List LogRecord))
    (R : List LogRecord) : Prop extends Layout codec s L R where
  start : s.startTime = firstTime R
  stop : s.stopTime = lastTime R
  increasing : Increasing (L.flatMap Prod.snd ++ R)
  positive : ∀ p ∈ L.flatMap Prod.snd ++ R, 0 < p.time

/-- The buffer in use has been written over the sealed buffer that a read after `T` needs. -/
def LogBuffer.Overwritten (s : LogBuffer) (T : Int) : Prop :=
  0 < s.pos ∧ ∃ mb ∈ s.prevBuffers.head?, mb.buf = s.buf ∧ mb.startTime ≤ T ∧ T < mb.stopTime

namespace Memory

variable {L : List (MemBuffer × List LogRecord)}

section

variable (h : Memory codec s L R)
include h

theorem tsMemory : s.tsMemory = firstTime (L.flatMap Prod.snd ++ R) := by
  rw [LogBuffer.tsMemory, h.prev, h.start]
  exact foldl_earlier h.sealed h.increasing h.positive

theorem increasing_of_mem (hx : x ∈ L) : Increasing x.2 :=
  h.increasing.sublist ((sublist_flatten_of_mem (mem_map_of_mem hx)).trans
    (by exact sublist_append_left _ _))

theorem read_resume (hT : 10 ^ 9 ≤ T) (ho : 0 < o)
    (hfirst : ∀ p ∈ (L.flatMap Prod.snd ++ R).head?, T < p.time) :
    s.readFromBuffer codec fuel ⟨T, o, false⟩ = some ⟨none, -2, some .resumeFromDisk⟩ := by
  rw [readFromBuffer, h.tsMemory]
  cases hall : L.flatMap Prod.snd ++ R with
  | nil => rfl
  | cons p all =>
    rw [hall] at hfirst
    have hlt : T < firstTime (p :: all) := hfirst p rfl
    have hne : firstTime (p :: all) ≠ zeroTime :=
      firstTime_ne_zeroTime (fun q hq => h.positive q (by rw [hall]; exact hq)) (cons_ne_nil _ _)
    have hz : ¬(T = zeroTime ∨ T / 10 ^ 9 = 0) := by
      unfold zeroTime
      omega
    rw [if_neg (by simp), if_neg hne, if_pos ⟨hlt, hz, ho⟩]

theorem read_memory (hp : p ∈ (L.flatMap Prod.snd ++ R).head?) (hle : p.time ≤ T) :
    s.readFromBuffer codec fuel ⟨T, o, false⟩ = s.readFromMemory codec fuel ⟨T, o, false⟩ := by
  obtain ⟨all, hall⟩ := List.head?_eq_some_iff.1 hp
  have hne : firstTime (p :: all) ≠ zeroTime :=
    firstTime_ne_zeroTime (fun q hq => h.positive q (by rw [hall]; exact hq)) (cons_ne_nil _ _)
  have hnot : ¬T < firstTime (p :: all) := not_lt.2 hle
  rw [readFromBuffer, h.tsMemory, hall, if_neg (by simp), if_neg hne, if_neg fun hand => hnot hand.1]

theorem increasing_current : Increasing R :=
  h.increasing.sublist (sublist_append_right _ _)

/-- Before the first record of the buffer in use, the sealed buffers are looked at. -/
theorem readFromMemory_sealed (hR : ∀ p ∈ R.head?, T < p.time) :
    s.readFromMemory codec fuel ⟨T, o, false⟩ =
      match s.readSealed codec fuel ⟨T, o, false⟩ s.prevBuffers with
      | none => none
      | some (some r) => some r
      | some none => if 0 < s.pos then some ⟨some s.content, s.offset, none⟩ else some ⟨none, s.offset, none⟩ := by
  have hlt : T < s.startTime ∨ s.startTime = zeroTime := by
    rw [h.start]
    cases R with
    | nil => exact .inr rfl
    | cons p R => exact .inl (hR p rfl)
  have hstop : s.stopTime ≠ zeroTime → T < s.stopTime := by
    rw [h.stop]
    intro hne
    cases R with
    | nil => exact absurd rfl hne
    | cons p R => exact Newer.lt_lastTime h.increasing_current ⟨p, mem_cons_self, hR p rfl⟩
  have hequal : ¬(T = s.stopTime ∧ s.stopTime ≠ zeroTime ∧ 0 < o) := by
    intro h
    omega
  have hbehind : ¬(s.stopTime < T ∧ s.stopTime ≠ zeroTime) := by
    intro h
    omega
  exact (if_neg hequal).trans ((if_neg hbehind).trans (if_pos hlt))

theorem read_none (hT : 0 ≤ T) (ho : 0 < o) (hn : ¬Newer T (L.flatMap Prod.snd ++ R)) :
    s.readFromMemory codec fuel ⟨T, o, false⟩ = some ⟨none, s.offset, none⟩ := by
  have hnR : ¬Newer T R := fun ⟨p, hp, hlt⟩ => hn ⟨p, mem_append_right _ hp, hlt⟩
  by_cases hR : R = []
  · have hnL : ∀ x ∈ L, ¬Newer T x.2 := fun x hx ⟨p, hp, hlt⟩ =>
      hn ⟨p, mem_append_left _ (List.mem_flatMap.2 ⟨x, hx, hp⟩), hlt⟩
    have hskip : s.readSealed codec fuel ⟨T, o, false⟩ s.prevBuffers = some none := by
      rw [h.prev, ← append_nil (L.map Prod.fst), readSealed_skip h.sealed hT hnL]
      rfl
    rw [h.readFromMemory_sealed (by rw [hR]; nofun), hskip]
    have hpos := h.filled.pos_eq_zero.2 hR
    exact if_neg (by omega)
  · have hne : s.stopTime ≠ zeroTime := by
      rw [h.stop]
      obtain ⟨R', p, rfl⟩ := (eq_nil_or_concat R).resolve_left hR
      have hp := h.positive p (by simp)
      rw [concat_eq_append, lastTime, getLast?_append, getLast?_singleton]
      show p.time ≠ zeroTime
      unfold zeroTime
      omega
    have hle : ¬T < s.stopTime := by
      rw [h.stop]
      exact not_lt_lastTime hT hnR
    by_cases heq : T = s.stopTime
    · exact if_pos ⟨heq, hne, ho⟩
    · rw [readFromMemory, if_neg fun hand => heq hand.1, if_pos ⟨(by omega : s.stopTime < T), hne⟩]

theorem read_sealed (hT : 0 ≤ T) (ho : 0 < o)
    {A B : List (MemBuffer × List LogRecord)} (hL : L = A ++ x :: B)
    (hA : ∀ y ∈ A, ¬Newer T y.2) (hx : Newer T x.2) (hholds : Holds codec (s.block x.1.buf) x.1.size x.2)
    (hfuel : x.2.length < fuel) :
    s.readFromMemory codec fuel ⟨T, o, false⟩ = some ⟨some (recordBytes (after T x.2)), x.1.offset, none⟩ := by
  have hxL : x ∈ L := by
    rw [hL]
    exact mem_append_right _ mem_cons_self
  have hRlt : ∀ p ∈ R.head?, T < p.time := by
    intro p hp
    obtain ⟨q, hq, hlt⟩ := hx
    exact lt_trans hlt ((List.pairwise_append.1 h.increasing).2.2 q (List.mem_flatMap.2 ⟨x, hxL, hq⟩) p
      (mem_of_mem_head? hp))
  have hread : s.readSealed codec fuel ⟨T, o, false⟩ s.prevBuffers =
      some (some ⟨some (recordBytes (after T x.2)), x.1.offset, none⟩) := by
    rw [h.prev, hL, map_append, map_cons,
      readSealed_skip (fun y hy => h.sealed y (by rw [hL]; exact mem_append_left _ hy)) hT hA]
    exact readSealed_found (h.sealed x hxL) hholds (h.increasing_of_mem hxL) hT ho hx hfuel _
  rw [h.readFromMemory_sealed hRlt, hread]

theorem read_current (hT : 0 ≤ T) (ho : 0 < o) (hL : ∀ y ∈ L, ¬Newer T y.2)
    (hR : Newer T R) (hfuel : R.length < fuel) :
    s.readFromMemory codec fuel ⟨T, o, false⟩ = some ⟨some (recordBytes (after T R)), s.offset, none⟩ := by
  have hlast := hR.lt_lastTime h.increasing_current
  obtain ⟨old, p, new, rfl, hold, hp, hafter⟩ := hR.split
  rw [hafter]
  cases old with
  | nil =>
    have hskip : s.readSealed codec fuel ⟨T, o, false⟩ s.prevBuffers = some none := by
      rw [h.prev, ← append_nil (L.map Prod.fst), readSealed_skip h.sealed hT hL]
      rfl
    have hpos : 0 < s.pos := Nat.pos_of_ne_zero fun h0 => cons_ne_nil _ _ (h.filled.pos_eq_zero.1 h0)
    rw [h.readFromMemory_sealed (fun q hq => by cases hq; exact hp), hskip, h.filled.content]
    exact if_pos hpos
  | cons q old =>
    have hholds := h.filled.holds
    have hTi := toInt_ofInt hT (lastTime_lt hT hlast)
    have hstart : s.startTime = q.time := h.start
    have hq : q.time ≤ T := hold q mem_cons_self
    have hq0 : 0 < q.time := h.positive q (by simp)
    have hlen : s.idx.length = (q :: old ++ p :: new).length := by
      rw [h.filled.idx, length_starts, length_map]
    have hsearch : searchIdx codec (s.block s.buf) s.idx (Int64.ofInt T) fuel 0
        ((s.idx.length : Int) - 1) = some (.ok (some (recordBytes (q :: old)).length)) := by
      have hcons : (p :: new).length = new.length + 1 := length_cons
      rw [length_append] at hlen hfuel
      rw [h.filled.idx] at hlen ⊢
      refine hholds.searchIdx h.increasing_current (fun q' hq' => ?_) ?_ ?_ (le_refl 0) ?_ ?_ ?_ ?_
      · rw [hTi]
        exact hold q' hq'
      · rw [hTi]
        exact hp
      all_goals omega
    have hslice : (s.block s.buf).slice (recordBytes (q :: old)).length s.pos = recordBytes (p :: new) := by
      rw [Block.slice, hholds.bytes, recordBytes_append, drop_left]
    have hstop : T < s.stopTime := by
      rw [h.stop]
      exact hlast
    have hzero : ¬(T < s.startTime ∨ s.startTime = zeroTime) := by
      unfold zeroTime
      omega
    have hoff : ¬(o ≤ 0 ∧ Int64.minValue + 1 < Int64.ofInt T) := fun hand => Int64.not_le.2 ho hand.1
    rw [readFromMemory, if_neg fun hand => ne_of_lt hstop hand.1,
      if_neg fun hand => lt_asymm hstop hand.1, if_neg hzero]
    simp only [if_neg hoff, hsearch, hslice]

theorem read_overwritten (ho : 0 < o) (hT : 0 ≤ T) (hover : s.Overwritten T) (hfuel : 0 < fuel) :
    ∃ x ∈ L.head?, Newer T x.2 ∧ firstTime x.2 ≤ T ∧ x.2 ≠ [] ∧ R ≠ [] ∧
      s.readFromMemory codec fuel ⟨T, o, false⟩ =
        some ⟨some ((s.block s.buf).upTo x.1.size), x.1.offset, none⟩ := by
  obtain ⟨hpos, mb, hmb, hbuf, hstart, hstop⟩ := hover
  rw [h.prev, head?_map] at hmb
  obtain ⟨x, hx, rfl⟩ := map_eq_some_iff.1 hmb
  obtain ⟨L', hL⟩ := List.head?_eq_some_iff.1 hx
  have hxs := h.sealed x (mem_of_mem_head? hx)
  rw [hxs.start] at hstart
  rw [hxs.stop] at hstop
  have hnew : Newer T x.2 := by
    by_contra hn
    exact not_lt_lastTime hT hn hstop
  have hR : R ≠ [] := fun hR => by
    have := h.filled.pos_eq_zero.2 hR
    omega
  obtain ⟨p, R', rfl⟩ := exists_cons_of_ne_nil hR
  have hp : T < p.time := by
    obtain ⟨q, hq, hlt⟩ := hnew
    exact lt_trans hlt ((List.pairwise_append.1 h.increasing).2.2 q
      (List.mem_flatMap.2 ⟨x, mem_of_mem_head? hx, hq⟩) p mem_cons_self)
  have hTi := toInt_ofInt hT (lastTime_lt hT hstop)
  have hloc : locateByTs codec (s.block s.buf) (Int64.ofInt T) fuel 0 = some (.ok 0) := by
    have hholds : Holds codec (s.block s.buf) s.pos ([] ++ ([] ++ p :: R')) := h.filled.holds
    exact hholds.locateByTs nofun (by rw [hTi]; exact hp) hfuel
  have hread : s.readSealed codec fuel ⟨T, o, false⟩ s.prevBuffers =
      some (some ⟨some ((s.block s.buf).upTo x.1.size), x.1.offset, none⟩) := by
    rw [h.prev, hL, map_cons, readSealed, hxs.start, hxs.stop, hbuf]
    rw [if_neg (not_lt.2 hstart), if_pos hstop]
    simp only [if_neg (Int64.not_le.2 ho), hloc]
    rfl
  refine ⟨x, hx, hnew, hstart, ?_, cons_ne_nil _ _, ?_⟩
  · rintro hnil
    rw [hnil] at hnew
    obtain ⟨q, hq, -⟩ := hnew
    cases hq
  · rw [h.readFromMemory_sealed (fun q hq => by cases hq; exact hp), hread]

end

end Memory

/-- A log that starts with the bytes of a record decodes to its entry first, if at all. -/
theorem Holds.decode_head (h : Holds codec b n (p :: R)) {m : Nat} (hm : 4 ≤ m)
    {es : List LogEntry} (hes : codec.decode (b.upTo m) = some es) : es.head? = some p.1 := by
  obtain ⟨hun, hsize⟩ := h.readable p mem_cons_self
  have hbytes : recordBytes (p :: R) = toBE 4 p.2.length ++ (p.2 ++ recordBytes R) := by
    rw [← singleton_append, recordBytes_append, recordBytes_singleton, append_assoc]
  have hn : n = 4 + (p.2.length + (recordBytes R).length) := by
    rw [h.length, hbytes]
    simp only [length_append, length_toBE]
  -- the first bytes are those of the record, as far as they go
  have htake : ∀ k ≤ n, k ≤ m → (b.upTo m).take k = (toBE 4 p.2.length ++ (p.2 ++ recordBytes R)).take k := by
    intro k hkn hkm
    rw [take_upTo b hkm, ← take_upTo b hkn, h.bytes, hbytes]
  have hfour := htake 4 (by omega) hm
  rw [take_left' (length_toBE 4 _)] at hfour
  have hval : ofBE (toBE 4 p.2.length) = p.2.length := by
    rw [ofBE_toBE, Nat.mod_eq_of_lt hsize]
  obtain ⟨ds, hds, hmap⟩ := bind_eq_some_iff.1 hes
  obtain ⟨c, cs, hcs⟩ : ∃ c cs, b.upTo m = c :: cs := by
    apply exists_cons_of_ne_nil
    intro hnil
    have := congrArg List.length hnil
    rw [length_upTo, length_nil] at this
    omega
  rw [unframe, length_upTo] at hds
  obtain ⟨k, rfl⟩ : ∃ k, m = k + 1 := ⟨m - 1, by omega⟩
  rw [hcs, unframeN, ← hcs, hfour, hval, length_upTo] at hds
  · obtain ⟨hlong, hds⟩ := ite_none_left_eq_some.1 hds
    obtain ⟨ds', -, rfl⟩ := map_eq_some_iff.1 hds
    have hdata : ((b.upTo (k + 1)).drop 4).take p.2.length = p.2 := by
      have hrec := htake (4 + p.2.length) (by omega) (by omega)
      rw [← append_assoc, take_left' (by rw [length_append, length_toBE])] at hrec
      rw [← Nat.add_sub_cancel_left (n := 4) (m := p.2.length), ← drop_take, hrec,
        drop_left' (length_toBE 4 _)]
    rw [hdata, mapM_cons, hun] at hmap
    obtain ⟨e, he, hmap⟩ := bind_eq_some_iff.1 hmap
    obtain ⟨es', -, hcons⟩ := bind_eq_some_iff.1 hmap
    rw [← some.inj hcons, ← some.inj he]
    rfl
  · rintro ⟨⟩

end Util
