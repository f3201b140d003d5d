import SeaweedFS.Util.Proof.LogBuffer

/-!
# The offset ranges of flushed blocks

`minOffset` and `maxOffset` are widened to a new entry before it is decided whether the buffer is sealed first
(`Rotates`).
-/

namespace Util

open Lib List LogBuffer

variable {codec : LogCodec} {s s' : LogBuffer} {R : List LogRecord} {r : LogRun}

/-! ## Ranges -/

/-- The smallest and the largest offset of the entries. -/
def RangeOf (es : List LogEntry) (lo hi : Int64) : Prop :=
  (∃ e ∈ es, e.offset = lo) ∧ (∃ e ∈ es, e.offset = hi) ∧ ∀ e ∈ es, lo ≤ e.offset ∧ e.offset ≤ hi

theorem rangeOf_singleton (e : LogEntry) : RangeOf [e] e.offset e.offset := by
  exact ⟨⟨e, mem_singleton_self e, rfl⟩, ⟨e, mem_singleton_self e, rfl⟩,
    forall_mem_singleton.2 ⟨Int64.le_refl _, Int64.le_refl _⟩⟩

theorem RangeOf.append {es : List LogEntry} {lo hi : Int64} (h : RangeOf es lo hi) (e : LogEntry) :
    RangeOf (es ++ [e]) (if e.offset < lo then e.offset else lo) (if hi < e.offset then e.offset else hi) := by
  obtain ⟨⟨a, ha, hlo⟩, ⟨b, hb, hhi⟩, hall⟩ := h
  have he : e ∈ es ++ [e] := mem_append_right _ (mem_singleton_self e)
  refine ⟨?_, ?_, fun e' he' => ?_⟩
  · split
    · exact ⟨e, he, rfl⟩
    · exact ⟨a, mem_append_left _ ha, hlo⟩
  · split
    · exact ⟨e, he, rfl⟩
    · exact ⟨b, mem_append_left _ hb, hhi⟩
  · simp only [Int64.lt_iff_toInt_lt, Int64.le_iff_toInt_le] at *
    rcases List.mem_append.1 he' with he' | he'
    · have := hall e' he'
      constructor <;> split <;> omega
    · rw [List.mem_singleton.1 he']
      constructor <;> split <;> omega

/-- The buffer in use holds `R`, with the range of `R` if there is any. -/
structure Ranged (codec : LogCodec) (s : LogBuffer) (R : List LogRecord) : Prop where
  filled : Filled codec s R
  range : R ≠ [] → s.hasOffsets = true ∧ RangeOf (R.map Prod.fst) s.minOffset s.maxOffset

theorem Ranged.nil (h : Filled codec s []) : Ranged codec s [] := ⟨h, fun hne => absurd rfl hne⟩

/-! ## Adding without sealing -/

namespace LogBuffer

theorem pos_prepared (s : LogBuffer) (e : LogEntry) (tracked : Bool) : (s.prepared e tracked).pos = s.pos := by
  obtain ⟨_, _, _, heq⟩ := s.prepared_eq e tracked
  rw [heq]

theorem full_prepared {ts : Int} {size : Nat} (h : 0 < s.pos) (e : LogEntry) (tracked : Bool) :
    (s.prepared e tracked).Full ts size ↔ s.Full ts size := by
  obtain ⟨_, _, _, heq⟩ := s.prepared_eq e tracked
  rw [heq, if_neg h.ne']
  rfl

/-- The entry seals a buffer in use. -/
def Seals (codec : LogCodec) (s : LogBuffer) (e : LogEntry) : Prop :=
  0 < s.pos ∧ ∃ d ∈ codec.marshal e, s.Full e.tsNs.toInt d.length

instance (codec : LogCodec) (s : LogBuffer) (e : LogEntry) : Decidable (s.Seals codec e) :=
  inferInstanceAs (Decidable (_ ∧ _))

end LogBuffer

theorem Ranged.prepared (h : Ranged codec s R) (e : LogEntry) : (s.prepared e true).hasOffsets = true ∧
      RangeOf (R.map Prod.fst ++ [e]) (s.prepared e true).minOffset (s.prepared e true).maxOffset := by
  show ((s.begin e.tsNs.toInt).track e.offset).hasOffsets = true ∧ RangeOf _
    ((s.begin e.tsNs.toInt).track e.offset).minOffset ((s.begin e.tsNs.toInt).track e.offset).maxOffset
  by_cases hR : R = []
  · have hoff : (s.begin e.tsNs.toInt).hasOffsets = false := by
      rw [begin, if_pos (h.filled.pos_eq_zero.2 hR)]
    rw [track, hoff, hR]
    exact ⟨rfl, rangeOf_singleton e⟩
  · obtain ⟨hoff, hrange⟩ := h.range hR
    have hbegin : s.begin e.tsNs.toInt = s := if_neg fun hpos => hR (h.filled.pos_eq_zero.1 hpos)
    rw [hbegin, track, hoff]
    exact ⟨rfl, hrange.append e⟩

theorem Ranged.addMarshalled (h : Ranged codec s R) {e : LogEntry} (hns : ¬s.Seals codec e) :
    (s.addMarshalled codec e true).toFlush = none ∧
      ∃ R', Ranged codec (s.addMarshalled codec e true).log R' := by
  have hprep := h.filled.prepared e true
  obtain ⟨hoff, hrange⟩ := h.prepared e
  obtain ⟨-, heq⟩ | ⟨d, hd, hcases⟩ := addMarshalled_cases codec s e true
  · rw [heq]
    exact ⟨rfl, R, h⟩
  · -- the range of the buffer after storing the entry, with or without a larger buffer
    have hstored : ∀ s1 : LogBuffer, Filled codec (s1.store e.tsNs.toInt d) (R ++ [(e, d)]) →
        s1.hasOffsets = (s.prepared e true).hasOffsets → s1.minOffset = (s.prepared e true).minOffset →
        s1.maxOffset = (s.prepared e true).maxOffset →
        Ranged codec (s1.store e.tsNs.toInt d) (R ++ [(e, d)]) := by
      intro s1 hf h1 h2 h3
      refine ⟨hf, fun _ => ?_⟩
      show s1.hasOffsets = true ∧ RangeOf _ s1.minOffset s1.maxOffset
      rw [h1, h2, h3, map_append]
      exact ⟨hoff, hrange⟩
    obtain ⟨hfull, heq⟩ | ⟨hfull, hrot⟩ := hcases
    · rw [heq]
      exact ⟨rfl, _, hstored _ (hprep.store hd (room_of_not_full hfull) _) rfl rfl rfl⟩
    · have hpos : s.pos = 0 := by
        by_contra hne
        have hpos : 0 < s.pos := by omega
        exact hns ⟨hpos, d, hd, (full_prepared hpos e true).1 hfull⟩
      have hR : R = [] := h.filled.pos_eq_zero.1 hpos
      have hcopy : (s.prepared e true).copyToFlush = (s.prepared e true, none) :=
        copyToFlush_of_empty (by rw [pos_prepared, hpos])
      have hrotated : (s.prepared e true).rotated e.tsNs.toInt =
          { s.prepared e true with startTime := e.tsNs.toInt } := by
        rw [rotated, hcopy]
      have hfilled := hprep.rotated e.tsNs.toInt
      obtain ⟨err, -, heq⟩ | ⟨s', hgrow, heq⟩ := hrot
      · rw [heq, hcopy]
        exact ⟨rfl, [], .nil hfilled⟩
      · obtain ⟨hs', hroom⟩ := hfilled.grow hgrow
        rw [heq, hcopy]
        rw [hrotated] at hgrow
        obtain ⟨heap, buf, rfl⟩ := grow_eq hgrow
        refine ⟨rfl, _, hstored _ ?_ rfl rfl rfl⟩
        rw [hR]
        exact hs'.store hd hroom _

/-! ## Runs -/

namespace LogRun

/-- The entry that a call marshals. -/
def entry (codec : LogCodec) (r : LogRun) : LogCall → Option LogEntry
  | .addDataToBuffer key data ts now => some
    { tsNs := (r.log.stamp (if ts = 0 then now else ts)).1
      partitionKeyHash := codec.hashToInt32 key
      data
      key
      offset := r.log.offset }
  | .addLogEntryToBuffer e => some { e with tsNs := (r.log.stamp e.tsNs).1 }
  | .flush => none

/-- The call seals a buffer in use to make room for a new entry, or because of the entry's time. -/
def Rotates (codec : LogCodec) (r : LogRun) (c : LogCall) : Prop :=
  ∃ e ∈ r.entry codec c, r.log.Seals codec e

instance (codec : LogCodec) (r : LogRun) (c : LogCall) : Decidable (r.Rotates codec c) :=
  inferInstanceAs (Decidable (∃ e ∈ r.entry codec c, _))

/-- The range of a flushed block is that of its entries. -/
def Exact (codec : LogCodec) (d : DataToFlush) : Prop :=
  ∃ es, codec.decode d.data = some es ∧ RangeOf es d.minOffset d.maxOffset

/-- `lastFlushedOffset` is as at the start or that of a flushed entry. -/
def NamesFlushed (codec : LogCodec) (first : Int64) (r : LogRun) : Prop :=
  r.log.lastFlushedOffset = first ∨
    ∃ d ∈ r.flushed, ∃ es, codec.decode d.data = some es ∧ ∃ e ∈ es, e.offset = r.log.lastFlushedOffset

/-- The ranges of what was flushed and of the buffer in use. -/
structure Ranges (codec : LogCodec) (first : Int64) (r : LogRun) : Prop where
  current : ∃ R, Ranged codec r.log R
  exact : ∀ d ∈ r.flushed, Exact codec d
  names : NamesFlushed codec first r

variable {first : Int64}

theorem Ranges.flush (h : Ranges codec first r) : Ranges codec first (r.execute codec .flush) := by
  obtain ⟨R, hR⟩ := h.current
  by_cases hpos : 0 < r.log.pos
  · obtain ⟨d, hrun, hdata, hmin, hmax⟩ := execute_flush_of_pos codec hpos
    have hne : R ≠ [] := fun hnil => by
      have := hR.filled.pos_eq_zero.2 hnil
      omega
    have hdec : codec.decode d.data = some (R.map Prod.fst) := by
      rw [hdata, hR.filled.content]
      exact hR.filled.readable.decode
    have hrange : RangeOf (R.map Prod.fst) d.minOffset d.maxOffset := by
      rw [hmin, hmax]
      exact (hR.range hne).2
    rw [hrun]
    refine ⟨⟨[], .nil (hR.filled.copyToFlush.loopFlush d)⟩,
      forall_mem_append.2 ⟨h.exact, forall_mem_singleton.2 ⟨_, hdec, hrange⟩⟩, ?_⟩
    · show (if 0 ≤ d.maxOffset then d.maxOffset else r.log.copyToFlush.1.lastFlushedOffset) = first ∨
        ∃ d' ∈ r.flushed ++ [d], ∃ es, codec.decode d'.data = some es ∧ ∃ e ∈ es, e.offset =
          (if 0 ≤ d.maxOffset then d.maxOffset else r.log.copyToFlush.1.lastFlushedOffset)
      split
      · exact .inr ⟨d, mem_append_right _ (mem_singleton_self d), _, hdec, hrange.2.1⟩
      · rw [r.log.kept_copyToFlush.lastFlushedOffset]
        refine h.names.imp_right fun ⟨d', hd', hes⟩ => ⟨d', mem_append_left _ hd', hes⟩
  · rw [execute_flush_of_empty (by omega)]
    exact h

theorem Ranges.add (h : Ranges codec first r) {e : LogEntry} (ts : Int64) (key data : List UInt8)
    (hns : ¬r.log.Seals codec e) :
    Ranges codec first (r.added ((r.log.stamp ts).2.addMarshalled codec e true) key data) := by
  obtain ⟨R, hR⟩ := h.current
  have hst : Ranged codec (r.log.stamp ts).2 R := by
    refine ⟨hR.filled.stamp ts, ?_⟩
    unfold stamp
    split <;> exact hR.range
  have hns' : ¬(r.log.stamp ts).2.Seals codec e := by
    unfold stamp
    split <;> exact hns
  obtain ⟨hnone, hlog⟩ := hst.addMarshalled hns'
  have hkept := (addMarshalled_same codec (r.log.stamp ts).2 e true).2.1
  rw [(stamp_same r.log ts).2] at hkept
  rw [added, hnone]
  refine ⟨hlog, h.exact, ?_⟩
  unfold NamesFlushed
  show (addMarshalled codec _ e true).log.lastFlushedOffset = first ∨ ∃ d ∈ r.flushed, ∃ es,
    codec.decode d.data = some es ∧
      ∃ e' ∈ es, e'.offset = (addMarshalled codec _ e true).log.lastFlushedOffset
  rw [hkept]
  exact h.names

end LogRun

/-- The offset of an entry that is added as it is. -/
def LogCall.OffsetOk : LogCall → Prop
  | .addLogEntryToBuffer e => 0 ≤ e.offset
  | _ => True

instance : ∀ c : LogCall, Decidable c.OffsetOk
  | .addLogEntryToBuffer e => inferInstanceAs (Decidable (0 ≤ e.offset))
  | .addDataToBuffer .. => .isTrue trivial
  | .flush => .isTrue trivial

open LogRun in
/-- **Exact ranges.** -/
theorem flushed_ranges (codec : LogCodec) (flushInterval : Int) (highestOffset : Option Int64) (now : Int64)
    (calls : List LogCall) (hoff : ∀ c ∈ calls, c.OffsetOk)
    (h : Throughout (execute codec) (fun r c => ¬r.Rotates codec c)
      (start flushInterval highestOffset now) calls) :
    let first := (start flushInterval highestOffset now).log.lastFlushedOffset
    let r := calls.foldl (execute codec) (start flushInterval highestOffset now)
    (∀ d ∈ r.flushed, ∃ es, codec.decode d.data = some es ∧ RangeOf es d.minOffset d.maxOffset) ∧
      (r.log.lastFlushedOffset = first ∨ ∃ d ∈ r.flushed, ∃ es, codec.decode d.data = some es ∧
          ∃ e ∈ es, e.offset = r.log.lastFlushedOffset) := by
  intro first r
  have hfilled := filled_start codec flushInterval highestOffset now
  have hr : Ranges codec first r := by
    refine foldl_inv (fun r c hr hok => ?_) ⟨⟨[], .nil hfilled⟩, nofun, .inl rfl⟩ (h.and_of_mem hoff)
    obtain ⟨hoff, hns⟩ := hok
    cases c with
    | addDataToBuffer key data ts now =>
      exact hr.add (if ts = 0 then now else ts) key data fun hs => hns ⟨_, rfl, hs⟩
    | addLogEntryToBuffer e =>
      have hadd := hr.add e.tsNs e.key e.data fun hs => hns ⟨_, rfl, hs⟩
      have htracked : decide (0 ≤ e.offset) = true := decide_eq_true hoff
      rw [execute, addLogEntryToBuffer, htracked]
      exact hadd
    | flush => exact hr.flush
  exact ⟨hr.exact, hr.names⟩

open LogRun in
/-- Two blocks of two entries each, of which one comes with its offset. -/
theorem flushed_ranges_twice :
    let calls : List LogCall := [.addDataToBuffer [] [1] 5 0, .addLogEntryToBuffer ⟨6, 0, [2], [], 7⟩, .flush,
      .addDataToBuffer [] [3] 7 0, .addDataToBuffer [] [4] 8 0, .flush]
    let r := calls.foldl (execute fixedCodec) (start 10 none 0)
    r.flushed.length = 2 ∧
      ∀ d ∈ r.flushed, ∃ es, fixedCodec.decode d.data = some es ∧ RangeOf es d.minOffset d.maxOffset :=
  ⟨by decide +kernel, (flushed_ranges fixedCodec 10 none 0
    [.addDataToBuffer [] [1] 5 0, .addLogEntryToBuffer ⟨6, 0, [2], [], 7⟩, .flush,
      .addDataToBuffer [] [3] 7 0, .addDataToBuffer [] [4] 8 0, .flush]
    (by decide +kernel) (by decide +kernel)).1⟩

open LogRun in
/-- The second entry comes after the flush interval: the block that it seals holds offset 0 only, and is flushed with
the range from 0 to 1. -/
theorem flushed_range_rotated :
    let calls : List LogCall := [.addDataToBuffer [] [1] 100 0, .addDataToBuffer [] [2] 200 0]
    let r := calls.foldl (execute fixedCodec) (start 10 none 0)
    let ranges := fun (r : LogRun) => r.flushed.map fun d =>
      (d.minOffset, d.maxOffset, (fixedCodec.decode d.data).map (·.map LogEntry.offset))
    ranges r = [(0, 1, some [0])] ∧ r.log.lastFlushedOffset = 1 ∧
      ranges (r.execute fixedCodec .flush) = [(0, 1, some [0]), (0, 0, some [1])] := by
  decide +kernel

end Util
