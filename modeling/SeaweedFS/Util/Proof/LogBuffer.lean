import SeaweedFS.Lib.Runs
import SeaweedFS.Util.LogBuffer

/-!
# The log buffer keeps what it accepts

`Filled codec s R`: the buffer in use holds the records `R`. Adding an entry moves records to the flushed data and
appends its own (`Filled.addMarshalled`), so along a run the flushed data and the buffer decode to the accepted
entries (**`run_decodes`**).
-/

namespace Util

open Lib List Block LogBuffer

/-- An entry and its protobuf form. -/
abbrev LogRecord := LogEntry × List UInt8

variable {codec : LogCodec} {s s' : LogBuffer} {R : List LogRecord}

/-- The bytes of the records. -/
def recordBytes (R : List LogRecord) : List UInt8 := frames 4 (R.map Prod.snd)

/-- The records can be read again. -/
def Readable (codec : LogCodec) (R : List LogRecord) : Prop :=
  ∀ r ∈ R, codec.unmarshal r.2 = some r.1 ∧ r.2.length < 256 ^ 4

theorem Readable.decode (h : Readable codec R) : codec.decode (recordBytes R) = some (R.map Prod.fst) := by
  have hlen : ∀ d ∈ R.map Prod.snd, d.length < 256 ^ 4 := by
    intro d hd
    obtain ⟨r, hr, rfl⟩ := List.mem_map.1 hd
    exact (h r hr).2
  rw [LogCodec.decode, recordBytes, unframe_frames (by decide) hlen]
  show (R.map Prod.snd).mapM codec.unmarshal = _
  clear hlen
  induction R with
  | nil => rfl
  | cons r R ih =>
    rw [map_cons, mapM_cons, (h r mem_cons_self).1, ih fun r' hr' => h r' (.tail _ hr')]
    rfl

theorem Readable.append {R' : List LogRecord} (h : Readable codec R) (h' : Readable codec R') :
    Readable codec (R ++ R') := by
  exact forall_mem_append.2 ⟨h, h'⟩

@[simp] theorem recordBytes_nil : recordBytes [] = [] := rfl

@[simp] theorem recordBytes_append (R R' : List LogRecord) :
    recordBytes (R ++ R') = recordBytes R ++ recordBytes R' := by
  simp [recordBytes]

theorem recordBytes_singleton (r : LogRecord) : recordBytes [r] = toBE 4 r.2.length ++ r.2 :=
  frames_singleton 4 r.2

theorem recordBytes_eq_nil : recordBytes R = [] ↔ R = [] := by
  rw [recordBytes, frames_eq_nil (by decide), map_eq_nil_iff]

/-! ## The buffer in use -/

/-- The buffer in use holds the records `R`. No buffer is larger than `maxBufferSize`. -/
structure Filled (codec : LogCodec) (s : LogBuffer) (R : List LogRecord) : Prop where
  buf_lt : s.buf < s.heap.length
  prev_lt : ∀ mb ∈ s.prevBuffers, mb.buf < s.heap.length
  len_le : ∀ b ∈ s.heap, b.len ≤ LogBuffer.maxBufferSize
  content : s.content = recordBytes R
  pos_le : s.pos ≤ (s.block s.buf).len
  idx : s.idx = starts 4 (R.map Prod.snd)
  readable : Readable codec R

namespace LogBuffer

theorem block_eq_getElem {i : Nat} (h : i < s.heap.length) : s.block i = s.heap[i] := by
  rw [block, getD_eq_getElem?_getD, getElem?_eq_getElem h, Option.getD_some]

theorem length_content (s : LogBuffer) : s.content.length = s.pos := length_upTo _ _

theorem copyToFlush_of_pos (h : 0 < s.pos) :
    ∃ d, s.copyToFlush = (s.copyToFlush.1, some d) ∧ d.data = s.content ∧ d.minOffset = s.minOffset ∧
      d.maxOffset = s.maxOffset := by
  rw [copyToFlush, if_pos h]
  exact ⟨_, rfl, rfl, rfl, rfl⟩

theorem copyToFlush_of_empty (h : s.pos = 0) : s.copyToFlush = (s, none) := by
  rw [copyToFlush, if_neg (by omega)]

end LogBuffer

variable {size : Nat}

namespace Filled

section

variable (h : Filled codec s R)
include h

theorem pos_eq : s.pos = (recordBytes R).length := by
  rw [← h.content, length_content]

theorem pos_eq_zero : s.pos = 0 ↔ R = [] := by
  rw [h.pos_eq, length_eq_zero_iff, recordBytes_eq_nil]

theorem pos_pos (hR : R ≠ []) : 0 < s.pos :=
  Nat.pos_of_ne_zero fun h0 => hR (h.pos_eq_zero.1 h0)

theorem setStart (ts : Int) : Filled codec { s with startTime := ts } R :=
  ⟨h.buf_lt, h.prev_lt, h.len_le, h.content, h.pos_le, h.idx, h.readable⟩

theorem stamp (ts : Int64) : Filled codec (s.stamp ts).2 R := by
  unfold LogBuffer.stamp
  split <;> exact ⟨h.buf_lt, h.prev_lt, h.len_le, h.content, h.pos_le, h.idx, h.readable⟩

theorem loopFlush (d : DataToFlush) : Filled codec (s.loopFlush d) R :=
  ⟨h.buf_lt, h.prev_lt, h.len_le, h.content, h.pos_le, h.idx, h.readable⟩

theorem copyToFlush : Filled codec s.copyToFlush.1 [] := by
  by_cases hpos : 0 < s.pos
  · have hlt : ∀ mb ∈ s.copyToFlush.1.prevBuffers, mb.buf < s.heap.length := by
      rw [LogBuffer.copyToFlush, if_pos hpos]
      exact forall_mem_append.2 ⟨fun mb hmb => h.prev_lt mb (mem_of_mem_tail hmb), forall_mem_singleton.2 h.buf_lt⟩
    rw [LogBuffer.copyToFlush, if_pos hpos] at hlt ⊢
    refine ⟨hlt _ ?_, hlt, h.len_le, upTo_zero _, Nat.zero_le _, rfl, fun _ hr => nomatch hr⟩
    show (_ ++ [_]).headD _ ∈ _ ++ [_]
    cases s.prevBuffers.tail <;> simp
  · have hR : R = [] := h.pos_eq_zero.1 (by omega)
    rw [copyToFlush_of_empty (by omega), ← hR]
    exact h

theorem copyToFlush_data : s.copyToFlush.2.elim [] DataToFlush.data = recordBytes R := by
  by_cases hpos : 0 < s.pos
  · obtain ⟨d, heq, hd, -⟩ := copyToFlush_of_pos hpos
    rw [heq, Option.elim_some, hd, h.content]
  · rw [copyToFlush_of_empty (by omega), h.pos_eq_zero.1 (by omega)]
    rfl

omit h in
theorem grow (h : Filled codec s []) (hs : s.grow size = .ok s') :
    Filled codec s' [] ∧ s'.pos + (size + 4) ≤ (s'.block s'.buf).len := by
  have hpos : s.pos = 0 := h.pos_eq_zero.2 rfl
  unfold LogBuffer.grow at hs
  split at hs
  next hsmall =>
    split at hs
    next => cases hs
    next hlim =>
      obtain rfl := Except.ok.inj hs
      have hblock : block { s with heap := s.heap ++ [.make (2 * size + 4)], buf := s.heap.length }
          s.heap.length = .make (2 * size + 4) := by
        simp [block]
      refine ⟨⟨by simp, fun mb hmb => ?_, forall_mem_append.2 ⟨h.len_le, forall_mem_singleton.2 ?_⟩, ?_, ?_, h.idx,
        h.readable⟩, ?_⟩
      · have := h.prev_lt mb hmb
        simp only [length_append]
        omega
      · show 2 * size + 4 ≤ _
        unfold maxBufferSize at hlim ⊢
        omega
      · show upTo _ s.pos = _
        rw [hpos, upTo_zero]
        rfl
      · rw [hblock, hpos]
        exact Nat.zero_le _
      · rw [hblock, hpos, len_make]
        omega
  next hfits =>
    obtain rfl := Except.ok.inj hs
    exact ⟨h, by omega⟩

theorem store {e : LogEntry} {d : List UInt8} (hd : codec.marshal e = some d)
    (hroom : s.pos + (d.length + 4) ≤ (s.block s.buf).len) (ts : Int) :
    Filled codec (s.store ts d) (R ++ [(e, d)]) := by
  have hlen : (s.block s.buf).len ≤ maxBufferSize := by
    rw [block_eq_getElem h.buf_lt]
    exact h.len_le _ (getElem_mem _)
  unfold maxBufferSize at hlen
  have hsize : d.length < 256 ^ 4 := by omega
  have hbytes : uint32toBytes (UInt32.ofNat d.length) = toBE 4 d.length := by
    rw [uint32toBytes_eq, UInt32.toNat_ofNat', Nat.mod_eq_of_lt (by omega)]
  have hblock : (s.store ts d).block s.buf =
      ((s.block s.buf).copyAt s.pos (toBE 4 d.length)).copyAt (s.pos + 4) d := by
    rw [LogBuffer.store, LogBuffer.block, getD_eq_getElem?_getD,
      getElem?_set_self h.buf_lt, Option.getD_some, hbytes]
  have hidx : s.idx ++ [s.pos] = starts 4 ((R ++ [(e, d)]).map Prod.snd) := by
    rw [map_append, map_singleton, starts_append_singleton, ← h.idx, h.pos_eq]
    rfl
  refine ⟨?_, fun mb hmb => ?_, fun b hb => ?_, ?_, ?_, hidx, h.readable.append fun r hr => ?_⟩
  · rw [LogBuffer.store, length_set]
    exact h.buf_lt
  · rw [LogBuffer.store, length_set]
    exact h.prev_lt mb hmb
  · rcases mem_or_eq_of_mem_set hb with hb | rfl
    · exact h.len_le b hb
    · exact hlen
  · show ((s.store ts d).block s.buf).upTo (s.pos + (d.length + 4)) = _
    have hfirst : s.pos + (toBE 4 d.length).length ≤ (s.block s.buf).len := by
      rw [length_toBE]
      omega
    have hupTo := upTo_copyAt hfirst
    rw [length_toBE] at hupTo
    rw [hblock, show s.pos + (d.length + 4) = s.pos + 4 + d.length by omega,
      upTo_copyAt (by rw [len_copyAt]; omega), hupTo, recordBytes_append,
      recordBytes_singleton, ← h.content, append_assoc]
    rfl
  · show s.pos + (d.length + 4) ≤ ((s.store ts d).block s.buf).len
    rw [hblock]
    exact hroom
  · obtain rfl := List.mem_singleton.1 hr
    exact ⟨codec.unmarshal_marshal hd, hsize⟩

end

end Filled

/-! ## Adding an entry -/

namespace LogBuffer

/-- The buffer when it is decided whether to seal it. -/
def prepared (s : LogBuffer) (e : LogEntry) (tracked : Bool) : LogBuffer :=
  if tracked then (s.begin e.tsNs.toInt).track e.offset else s.begin e.tsNs.toInt

/-- But for the start of an empty buffer and for the offsets it is as before. -/
theorem prepared_eq (s : LogBuffer) (e : LogEntry) (tracked : Bool) :
    ∃ minOffset maxOffset hasOffsets, s.prepared e tracked = { s with
        startTime := if s.pos = 0 then e.tsNs.toInt else s.startTime, minOffset, maxOffset, hasOffsets } := by
  unfold prepared track begin
  by_cases hpos : s.pos = 0
  · simp only [if_pos hpos]
    split
    · split <;> exact ⟨_, _, _, rfl⟩
    · exact ⟨_, _, _, rfl⟩
  · simp only [if_neg hpos]
    split
    · split <;> exact ⟨_, _, _, rfl⟩
    · exact ⟨_, _, _, rfl⟩

/-- The sealed buffer with the start time of the entry that follows. -/
def rotated (s : LogBuffer) (ts : Int) : LogBuffer := { s.copyToFlush.1 with startTime := ts }

theorem room_of_not_full {ts : Int} (h : ¬ s.Full ts size) :
    s.pos + (size + 4) ≤ (s.block s.buf).len := by
  unfold Full at h
  omega

theorem addMarshalled_cases (codec : LogCodec) (s : LogBuffer) (e : LogEntry) (tracked : Bool) :
    (codec.marshal e = none ∧ s.addMarshalled codec e tracked = ⟨s, none, some .marshal⟩) ∨
    ∃ d, codec.marshal e = some d ∧ ((¬ (s.prepared e tracked).Full e.tsNs.toInt d.length ∧
          s.addMarshalled codec e tracked = ⟨(s.prepared e tracked).store e.tsNs.toInt d, none, none⟩) ∨
        (s.prepared e tracked).Full e.tsNs.toInt d.length ∧
          ((∃ err, ((s.prepared e tracked).rotated e.tsNs.toInt).grow d.length = .error err ∧
            s.addMarshalled codec e tracked =
              ⟨(s.prepared e tracked).rotated e.tsNs.toInt, (s.prepared e tracked).copyToFlush.2, some err⟩) ∨
          ∃ s', ((s.prepared e tracked).rotated e.tsNs.toInt).grow d.length = .ok s' ∧
            s.addMarshalled codec e tracked =
              ⟨s'.store e.tsNs.toInt d, (s.prepared e tracked).copyToFlush.2, none⟩)) := by
  cases hd : codec.marshal e with
  | none =>
    rw [addMarshalled, hd]
    exact .inl ⟨rfl, rfl⟩
  | some d =>
    refine .inr ⟨d, rfl, ?_⟩
    simp only [addMarshalled, hd, prepared, rotated]
    generalize (if tracked = true then _ else _ : LogBuffer) = p
    by_cases hfull : p.Full e.tsNs.toInt d.length
    · refine .inr ⟨hfull, ?_⟩
      rw [if_pos hfull]
      cases hgrow : ({ p.copyToFlush.1 with startTime := e.tsNs.toInt } : LogBuffer).grow d.length with
      | error err => exact .inl ⟨err, rfl, rfl⟩
      | ok s' => exact .inr ⟨s', rfl, rfl⟩
    · rw [if_neg hfull]
      exact .inl ⟨hfull, rfl⟩

end LogBuffer

namespace Filled

theorem prepared (h : Filled codec s R) (e : LogEntry) (tracked : Bool) :
    Filled codec (s.prepared e tracked) R := by
  obtain ⟨_, _, _, heq⟩ := s.prepared_eq e tracked
  rw [heq]
  exact ⟨h.buf_lt, h.prev_lt, h.len_le, h.content, h.pos_le, h.idx, h.readable⟩

theorem rotated (h : Filled codec s R) (ts : Int) : Filled codec (s.rotated ts) [] :=
  h.copyToFlush.setStart ts

/-- Adding an entry moves the records `F` to the flushed data and appends its own, if it is accepted. -/
theorem addMarshalled (h : Filled codec s R) (e : LogEntry) (tracked : Bool) :
    ∃ F R', (s.addMarshalled codec e tracked).toFlush.elim [] DataToFlush.data = recordBytes F ∧
      Readable codec F ∧ Filled codec (s.addMarshalled codec e tracked).log R' ∧
      ((s.addMarshalled codec e tracked).err = none → ∃ d, F ++ R' = R ++ [(e, d)]) ∧
      ((s.addMarshalled codec e tracked).err ≠ none → F ++ R' = R) := by
  obtain ⟨-, heq⟩ | ⟨d, hd, ⟨hfull, heq⟩ | ⟨-, ⟨err, -, heq⟩ | ⟨s', hgrow, heq⟩⟩⟩ :=
    addMarshalled_cases codec s e tracked <;> rw [heq]
  · exact ⟨[], R, rfl, nofun, h, nofun, fun _ => rfl⟩
  · exact ⟨[], R ++ [(e, d)], rfl, nofun, (h.prepared e tracked).store hd (room_of_not_full hfull) _,
      fun _ => ⟨d, rfl⟩, fun hne => absurd rfl hne⟩
  · exact ⟨R, [], (h.prepared e tracked).copyToFlush_data, h.readable, (h.prepared e tracked).rotated _, nofun,
      fun _ => append_nil R⟩
  · obtain ⟨hs', hroom⟩ := ((h.prepared e tracked).rotated e.tsNs.toInt).grow hgrow
    exact ⟨R, [(e, d)], (h.prepared e tracked).copyToFlush_data, h.readable, hs'.store hd hroom _,
      fun _ => ⟨d, rfl⟩, fun hne => absurd rfl hne⟩

end Filled

/-! ## What stays -/

namespace LogBuffer

/-- The stamp and the counters are the same. -/
structure Kept (s s' : LogBuffer) : Prop where
  lastTsNs : s'.lastTsNs = s.lastTsNs
  offset : s'.offset = s.offset
  lastFlushedOffset : s'.lastFlushedOffset = s.lastFlushedOffset

theorem kept_copyToFlush (s : LogBuffer) : Kept s s.copyToFlush.1 := by
  unfold copyToFlush
  split <;> exact ⟨rfl, rfl, rfl⟩

theorem grow_eq (h : s.grow size = .ok s') : ∃ heap buf, s' = { s with heap, buf } := by
  unfold grow at h
  split at h
  · split at h
    · cases h
    · exact ⟨_, _, (Except.ok.inj h).symm⟩
  · exact ⟨_, _, (Except.ok.inj h).symm⟩

theorem kept_grow (h : s.grow size = .ok s') : Kept s s' := by
  obtain ⟨heap, buf, rfl⟩ := grow_eq h
  exact ⟨rfl, rfl, rfl⟩

theorem Kept.trans {s1 s2 s3 : LogBuffer} (h : Kept s1 s2) (h' : Kept s2 s3) : Kept s1 s3 :=
  ⟨h'.lastTsNs.trans h.lastTsNs, h'.offset.trans h.offset, h'.lastFlushedOffset.trans h.lastFlushedOffset⟩

theorem kept_prepared (s : LogBuffer) (e : LogEntry) (tracked : Bool) : Kept s (s.prepared e tracked) := by
  obtain ⟨_, _, _, heq⟩ := s.prepared_eq e tracked
  rw [heq]
  exact ⟨rfl, rfl, rfl⟩

theorem kept_rotated (s : LogBuffer) (ts : Int) : Kept s (s.rotated ts) :=
  (kept_copyToFlush s).trans ⟨rfl, rfl, rfl⟩

theorem addMarshalled_same (codec : LogCodec) (s : LogBuffer) (e : LogEntry) (tracked : Bool) :
    (s.addMarshalled codec e tracked).log.lastTsNs = s.lastTsNs ∧
      (s.addMarshalled codec e tracked).log.lastFlushedOffset = s.lastFlushedOffset ∧
      (s.addMarshalled codec e tracked).log.offset =
        if (s.addMarshalled codec e tracked).err = none then s.offset + 1 else s.offset := by
  have hp := kept_prepared s e tracked
  obtain ⟨-, heq⟩ | ⟨d, -, ⟨-, heq⟩ | ⟨-, ⟨err, -, heq⟩ | ⟨s', hgrow, heq⟩⟩⟩ :=
    addMarshalled_cases codec s e tracked <;> rw [heq]
  · exact ⟨rfl, rfl, rfl⟩
  · exact ⟨hp.lastTsNs, hp.lastFlushedOffset, congrArg (· + 1) hp.offset⟩
  · have hr := hp.trans (kept_rotated _ e.tsNs.toInt)
    exact ⟨hr.lastTsNs, hr.lastFlushedOffset, hr.offset⟩
  · have hr := (hp.trans (kept_rotated _ e.tsNs.toInt)).trans (kept_grow hgrow)
    exact ⟨hr.lastTsNs, hr.lastFlushedOffset, congrArg (· + 1) hr.offset⟩

theorem stamp_lt (h : s.lastTsNs < Int64.maxValue) (ts : Int64) :
    s.lastTsNs < (s.stamp ts).1 ∧ (s.stamp ts).2.lastTsNs = (s.stamp ts).1 := by
  unfold stamp
  split
  next =>
    refine ⟨?_, rfl⟩
    have hmax : Int64.maxValue.toInt = 2 ^ 63 - 1 := rfl
    have hmin := Int64.le_toInt s.lastTsNs
    rw [Int64.lt_iff_toInt_lt] at h ⊢
    rw [Int64.toInt_add, Int64.toInt_one, Int.bmod_eq_of_le (by omega) (by omega)]
    omega
  next hlt =>
    rw [Int64.not_le] at hlt
    exact ⟨hlt, rfl⟩

theorem stamp_same (s : LogBuffer) (ts : Int64) :
    (s.stamp ts).2.offset = s.offset ∧ (s.stamp ts).2.lastFlushedOffset = s.lastFlushedOffset := by
  unfold stamp
  split <;> exact ⟨rfl, rfl⟩

end LogBuffer

/-! ## The log of a run -/

namespace LogRun

variable {r : LogRun}

/-- `AddDataToBuffer` below the largest time stamp and offset, or a flush. -/
def DataCall (r : LogRun) : LogCall → Prop
  | .addDataToBuffer .. => r.log.lastTsNs < Int64.maxValue ∧ r.log.offset < Int64.maxValue
  | .addLogEntryToBuffer _ => False
  | .flush => True

instance (r : LogRun) : ∀ c, Decidable (r.DataCall c)
  | .addDataToBuffer .. => inferInstanceAs (Decidable (_ ∧ _))
  | .addLogEntryToBuffer _ => .isFalse id
  | .flush => .isTrue trivial

theorem flushed_deliver (r : LogRun) (d : Option DataToFlush) :
    (r.deliver d).flushed.flatMap DataToFlush.data =
      r.flushed.flatMap DataToFlush.data ++ d.elim [] DataToFlush.data := by
  cases d with
  | none => exact (append_nil _).symm
  | some d => simp [deliver]

theorem filled_deliver (h : Filled codec r.log R) (d : Option DataToFlush) : Filled codec (r.deliver d).log R := by
  cases d with
  | none => exact h
  | some d => exact h.loopFlush d

theorem execute_flush_of_empty (h : r.log.pos = 0) : r.execute codec .flush = r := by
  show ({ r with log := r.log.copyToFlush.1 } : LogRun).deliver r.log.copyToFlush.2 = _
  rw [copyToFlush_of_empty h]
  rfl

theorem execute_flush_of_pos (codec : LogCodec) (h : 0 < r.log.pos) :
    ∃ d, r.execute codec .flush = { r with
        log := r.log.copyToFlush.1.loopFlush d, flushed := r.flushed ++ [d] } ∧
      d.data = r.log.content ∧ d.minOffset = r.log.minOffset ∧ d.maxOffset = r.log.maxOffset := by
  obtain ⟨d, heq, hd⟩ := copyToFlush_of_pos h
  refine ⟨d, ?_, hd⟩
  show ({ r with log := r.log.copyToFlush.1 } : LogRun).deliver r.log.copyToFlush.2 = _
  rw [heq]
  rfl

theorem deliver_same (r : LogRun) (d : Option DataToFlush) :
    (r.deliver d).log.lastTsNs = r.log.lastTsNs ∧ (r.deliver d).log.offset = r.log.offset ∧
      (r.deliver d).accepted = r.accepted := by
  cases d <;> exact ⟨rfl, rfl, rfl⟩

/-- The records `F` were flushed and `R` are in the buffer; together they are what was accepted, from the
offset `o` on. -/
structure Logged (codec : LogCodec) (o : Int64) (r : LogRun) (F R : List LogRecord) : Prop where
  flushed : r.flushed.flatMap DataToFlush.data = recordBytes F
  readable : Readable codec F
  filled : Filled codec r.log R
  accepted : (F ++ R).map (fun p => (p.1.key, p.1.data)) = r.accepted
  hashes : ∀ p ∈ F ++ R, p.1.partitionKeyHash = codec.hashToInt32 p.1.key
  increasing : (F ++ R).Pairwise fun p q => p.1.tsNs < q.1.tsNs
  last : ∀ p ∈ F ++ R, p.1.tsNs ≤ r.log.lastTsNs
  offsets : (F ++ R).map (fun p => p.1.offset.toInt) = (List.range (F ++ R).length).map fun i : Nat => o.toInt + i
  next : r.log.offset.toInt = o.toInt + (F ++ R).length

namespace Logged

variable {o : Int64} {F : List LogRecord}

theorem flush (h : Logged codec o r F R) : Logged codec o (r.execute codec .flush) (F ++ R) [] := by
  have hkept := r.log.kept_copyToFlush
  obtain ⟨hts, hoff, hacc⟩ := deliver_same { r with log := r.log.copyToFlush.1 } r.log.copyToFlush.2
  rw [hkept.lastTsNs] at hts
  rw [hkept.offset] at hoff
  constructor
  case flushed =>
    rw [execute, flushed_deliver, h.filled.copyToFlush_data, recordBytes_append, ← h.flushed]
  case readable => exact h.readable.append h.filled.readable
  case filled => exact filled_deliver h.filled.copyToFlush _
  case accepted => rw [append_nil, execute, hacc, h.accepted]
  case hashes => rw [append_nil]; exact h.hashes
  case increasing => rw [append_nil]; exact h.increasing
  case last => rw [append_nil, execute, hts]; exact h.last
  case offsets => rw [append_nil]; exact h.offsets
  case next => rw [append_nil, execute, hoff, h.next]

theorem addDataToBuffer (h : Logged codec o r F R) (key data : List UInt8) (ts now : Int64)
    (hok : r.DataCall (.addDataToBuffer key data ts now)) :
    ∃ F' R', Logged codec o (r.execute codec (.addDataToBuffer key data ts now)) F' R' := by
  obtain ⟨hlast, hoffset⟩ := hok
  let asked := if ts = 0 then now else ts
  let e : LogEntry := ⟨(r.log.stamp asked).1, codec.hashToInt32 key, data, key, r.log.offset⟩
  let result := (r.log.stamp asked).2.addMarshalled codec e true
  obtain ⟨hlt, hnew⟩ := stamp_lt hlast asked
  obtain ⟨hts, -, hoff⟩ := addMarshalled_same codec (r.log.stamp asked).2 e true
  rw [hnew] at hts
  rw [(stamp_same r.log asked).1] at hoff
  obtain ⟨F1, R', hflush, hread, hfilled, hacc, hrej⟩ := (h.filled.stamp asked).addMarshalled e true
  have hrun : r.execute codec (.addDataToBuffer key data ts now) = r.added result key data := rfl
  obtain ⟨hts', hoff', hacc'⟩ := deliver_same
    { r with
      log := result.log
      accepted := if result.err = none then r.accepted ++ [(key, data)] else r.accepted } result.toFlush
  have hflushed : (r.added result key data).flushed.flatMap DataToFlush.data = recordBytes (F ++ F1) := by
    rw [added, flushed_deliver, hflush, recordBytes_append, h.flushed]
  refine ⟨F ++ F1, R', ?_⟩
  rw [hrun]
  by_cases herr : result.err = none
  · obtain ⟨d, hall⟩ := hacc herr
    have hall' : F ++ F1 ++ R' = F ++ R ++ [(e, d)] := by
      rw [append_assoc, hall, append_assoc]
    have hlen : (F ++ R ++ [(e, d)]).length = (F ++ R).length + 1 := by
      rw [length_append, length_singleton]
    have hbefore : ∀ p ∈ F ++ R, p.1.tsNs < e.tsNs := fun p hp =>
      Int64.lt_of_le_of_lt (h.last p hp) hlt
    refine ⟨hflushed, h.readable.append hread, filled_deliver hfilled _, ?_, ?_, ?_, ?_, ?_, ?_⟩ <;>
      rw [hall']
    · rw [added, hacc', if_pos herr, map_append, h.accepted, map_singleton]
    · exact forall_mem_append.2 ⟨h.hashes, forall_mem_singleton.2 rfl⟩
    · rw [pairwise_append]
      exact ⟨h.increasing, pairwise_singleton _ _, fun p hp => forall_mem_singleton.2 (hbefore p hp)⟩
    · rw [added, hts', hts]
      exact forall_mem_append.2 ⟨fun p hp => Int64.le_of_lt (hbefore p hp), forall_mem_singleton.2 (Int64.le_refl _)⟩
    · rw [map_append, h.offsets, map_singleton, hlen, range_succ, map_append, map_singleton, ← h.next]
    · have hmax : Int64.maxValue.toInt = 2 ^ 63 - 1 := rfl
      have hmin := Int64.le_toInt r.log.offset
      rw [Int64.lt_iff_toInt_lt] at hoffset
      rw [added, hoff', hoff, if_pos herr, Int64.toInt_add, Int64.toInt_one,
        Int.bmod_eq_of_le (by omega) (by omega), h.next, hlen]
      omega
  · have hall' : F ++ F1 ++ R' = F ++ R := by
      rw [append_assoc, hrej herr]
    refine ⟨hflushed, h.readable.append hread, filled_deliver hfilled _, ?_, ?_, ?_, ?_, ?_, ?_⟩ <;>
      rw [hall']
    · rw [added, hacc', if_neg herr, h.accepted]
    · exact h.hashes
    · exact h.increasing
    · intro p hp
      rw [added, hts', hts]
      exact Int64.le_of_lt (Int64.lt_of_le_of_lt (h.last p hp) hlt)
    · exact h.offsets
    · rw [added, hoff', hoff, if_neg herr, h.next]

end Logged

theorem filled_start (codec : LogCodec) (flushInterval : Int) (highestOffset : Option Int64) (now : Int64) :
    Filled codec (start flushInterval highestOffset now).log [] := by
  have hnew : Filled codec (newLogBuffer flushInterval) [] := by
    have hprev : ∀ mb ∈ newSealedBuffers previousBufferCount, mb.buf < previousBufferCount + 1 := by decide
    refine ⟨Nat.lt_succ_self _, hprev, fun b hb => ?_, upTo_zero _, Nat.zero_le _, rfl, nofun⟩
    rw [eq_of_mem_replicate hb]
    decide
  cases highestOffset with
  | none => exact hnew
  | some highest =>
    show Filled codec (if _ then _ else _) []
    split <;>
      exact ⟨hnew.buf_lt, hnew.prev_lt, hnew.len_le, hnew.content, hnew.pos_le, hnew.idx, hnew.readable⟩

theorem logged_start (codec : LogCodec) (flushInterval : Int) (highestOffset : Option Int64) (now : Int64) :
    Logged codec (start flushInterval highestOffset now).log.offset (start flushInterval highestOffset now)
      [] [] :=
  ⟨rfl, nofun, filled_start codec flushInterval highestOffset now, rfl, nofun, .nil, nofun, rfl,
    (Int.add_zero _).symm⟩

end LogRun

open LogRun in
/-- **Nothing is lost, repeated or reordered.** -/
theorem run_decodes (codec : LogCodec) (flushInterval : Int) (highestOffset : Option Int64) (now : Int64)
    (calls : List LogCall)
    (h : Throughout (execute codec) DataCall (start flushInterval highestOffset now) calls) :
    let o := (start flushInterval highestOffset now).log.offset
    let r := calls.foldl (execute codec) (start flushInterval highestOffset now)
    ∃ es, codec.decode (r.flushed.flatMap DataToFlush.data ++ r.log.content) = some es ∧
      es.map (fun e => (e.key, e.data)) = r.accepted ∧
      (∀ e ∈ es, e.partitionKeyHash = codec.hashToInt32 e.key) ∧
      es.Pairwise (fun e e' => e.tsNs < e'.tsNs) ∧
      es.map (fun e => e.offset.toInt) = (List.range es.length).map fun i : Nat => o.toInt + i := by
  intro o r
  have hlogged : ∃ F R, Logged codec o r F R := by
    refine foldl_inv (I := fun r => ∃ F R, Logged codec o r F R) (fun r c hr hok => ?_)
      ⟨[], [], logged_start ..⟩ h
    obtain ⟨F, R, hr⟩ := hr
    cases c with
    | addDataToBuffer key data ts now => exact hr.addDataToBuffer key data ts now hok
    | addLogEntryToBuffer e => exact hok.elim
    | flush => exact ⟨_, _, hr.flush⟩
  obtain ⟨F, R, hr⟩ := hlogged
  refine ⟨(F ++ R).map Prod.fst, ?_, ?_, ?_, ?_, ?_⟩
  · rw [hr.flushed, hr.filled.content, ← recordBytes_append]
    exact (hr.readable.append hr.filled.readable).decode
  · rw [map_map]
    exact hr.accepted
  · intro e he
    obtain ⟨p, hp, rfl⟩ := List.mem_map.1 he
    exact hr.hashes p hp
  · rw [pairwise_map]
    exact hr.increasing
  · rw [map_map, length_map]
    exact hr.offsets

/-! A codec to run the model with: fields of fixed width, then the key and the data. -/

/-- The time stamp, the hash, the offset, the length of the key, the key and the data. -/
def fixedCodec : LogCodec where
  marshal e :=
    if e.key.length < 256 then
      some (uint64toBytes e.tsNs.toUInt64 ++ (uint32toBytes e.partitionKeyHash.toUInt32 ++
        (uint64toBytes e.offset.toUInt64 ++ UInt8.ofNat e.key.length :: (e.key ++ e.data))))
    else none
  unmarshal d :=
    match d.drop 20 with
    | [] => none
    | k :: rest => some
      { tsNs := (bytesToUint64 (d.take 8)).toInt64
        partitionKeyHash := (bytesToUint32 ((d.drop 8).take 4)).toInt32
        offset := (bytesToUint64 ((d.drop 12).take 8)).toInt64
        key := rest.take k.toNat
        data := rest.drop k.toNat }
  hashToInt32 key := Int32.ofNat key.length
  unmarshal_marshal {e d} h := by
    obtain ⟨hkey, hd⟩ := Option.ite_none_right_eq_some.1 h
    obtain rfl := Option.some.inj hd
    have hk : (UInt8.ofNat e.key.length).toNat = e.key.length := UInt8.toNat_ofNat_of_lt' hkey
    show some (LogEntry.mk (bytesToUint64 (uint64toBytes e.tsNs.toUInt64)).toInt64
      (bytesToUint32 (uint32toBytes e.partitionKeyHash.toUInt32)).toInt32
      ((e.key ++ e.data).drop (UInt8.ofNat e.key.length).toNat)
      ((e.key ++ e.data).take (UInt8.ofNat e.key.length).toNat)
      (bytesToUint64 (uint64toBytes e.offset.toUInt64)).toInt64) = some e
    rw [hk, drop_left, take_left, bytesToUint64_uint64toBytes, bytesToUint64_uint64toBytes,
      bytesToUint32_uint32toBytes]
    rfl

open LogRun in
/-- Two entries with one time stamp, a flush between them. -/
theorem run_decodes_collision :
    let calls : List LogCall := [.addDataToBuffer [1] [2, 3] 5 0, .flush, .addDataToBuffer [] [4] 5 0]
    let r := calls.foldl (execute fixedCodec) (start 10 none 0)
    ∃ es, fixedCodec.decode (r.flushed.flatMap DataToFlush.data ++ r.log.content) = some es ∧
      es.map (fun e => (e.key, e.data)) = [([1], [2, 3]), ([], [4])] :=
  have ⟨es, hes, hacc, _⟩ := run_decodes fixedCodec 10 none 0
    [.addDataToBuffer [1] [2, 3] 5 0, .flush, .addDataToBuffer [] [4] 5 0] (by decide +kernel)
  ⟨es, hes, hacc.trans (by decide +kernel)⟩

open LogRun in
/-- After the largest time stamp `LastTsNs.Add(1)` wraps around. -/
theorem run_wraps :
    let calls : List LogCall :=
      [.addDataToBuffer [] [1] Int64.maxValue 0, .addDataToBuffer [] [2] 5 0]
    let r := calls.foldl (execute fixedCodec) (start 10 none 0)
    r.accepted.length = 2 ∧
      (fixedCodec.decode (r.flushed.flatMap DataToFlush.data ++ r.log.content)).map
        (·.map LogEntry.tsNs) = some [Int64.maxValue, Int64.minValue] := by
  decide +kernel

end Util
