import SeaweedFS.Mount.PageWriter.PageChunk
import SeaweedFS.Mount.PageWriter.Proof.IntervalList

/-!
# What a page chunk holds

`Holds chunkSize file c content`: the chunk `c` holds the bytes `content`. A write lays its bytes over the content
and leaves the chunks of other slots alone; a read copies the content over its buffer (**`Holds.readDataAt`**).
-/

namespace PageWriter

open Lib List ChunkWrittenIntervalList Option

/-! ## The marked positions -/

/-- The list is linked and ordered. -/
def IsUsage (u : ChunkWrittenIntervalList) : Prop :=
  ∃ items, IsList u items ∧ Ordered (items.map Prod.snd)

/-- An interval of the list covers `x`. -/
def Marked (u : ChunkWrittenIntervalList) (x : Int) : Prop := ∃ t ∈ u.written, Covers t x

theorem isUsage_new : IsUsage newChunkWrittenIntervalList := ⟨[], isList_new, .nil⟩

theorem walk_linked {heap : Heap ChunkWrittenInterval} {items : List (Nat × ChunkWrittenInterval)}
    (hlink : heap.Linked (items.map Prod.fst)) (hvals : ∀ i ∈ items, heap.val i.1 = some i.2)
    (hlast : ∀ i ∈ items.getLast?, heap.next i.1 = none) {fuel : Nat} (hfuel : items.length ≤ fuel) :
    ChunkWrittenIntervalList.walk heap fuel (items.head?.map Prod.fst) = items.map Prod.snd := by
  induction items generalizing fuel with
  | nil => cases fuel <;> rfl
  | cons i items ih =>
    cases fuel with
    | zero => simp at hfuel
    | succ fuel =>
      have hnext : heap.next i.1 = items.head?.map Prod.fst := by
        cases items with
        | nil => exact hlast i rfl
        | cons j items => exact hlink.1
      have hrest : heap.Linked (items.map Prod.fst) := by
        cases items with
        | nil => trivial
        | cons j items => exact hlink.2.2
      rw [head?_cons, map_some, walk,
        hvals i mem_cons_self, hnext, ih hrest (fun j hj => hvals j (.tail _ hj)) ?_
        (by simpa using hfuel)]
      · rfl
      · intro j hj
        refine hlast j ?_
        cases items with
        | nil => simp at hj
        | cons k items => rwa [getLast?_cons_cons]

variable {u : ChunkWrittenIntervalList} {items : List (Nat × ChunkWrittenInterval)}

theorem IsList.all_eq (h : IsList u items) :
    u.all = { startOffset := -1, stopOffset := -1 } :: items.map Prod.snd ++
      [{ startOffset := Int64.maxValue, stopOffset := Int64.maxValue }] := by
  let cells : List (Nat × ChunkWrittenInterval) :=
    (u.head, { startOffset := -1, stopOffset := -1 }) :: items ++
      [(u.tail, { startOffset := Int64.maxValue, stopOffset := Int64.maxValue })]
  have hvals : ∀ i ∈ cells, u.heap.val i.1 = some i.2 :=
    forall_mem_append.2 ⟨forall_mem_cons.2 ⟨h.head, h.vals⟩, forall_mem_singleton.2 h.tail⟩
  have hlast : ∀ i ∈ cells.getLast?, u.heap.next i.1 = none := by
    intro i hi
    rw [getLast?_concat] at hi
    cases hi
    exact h.last
  have hlen : cells.length ≤ u.heap.length := by
    have := h.length_le
    simp only [cells, length_append]
    omega
  have hwalk := walk_linked (by simpa [cells] using h.linked) hvals hlast hlen
  simpa [ChunkWrittenIntervalList.all, cells] using hwalk

theorem IsList.written_eq (h : IsList u items) : u.written = items.map Prod.snd := by
  rw [written, h.all_eq, cons_append, tail_cons, dropLast_concat]

theorem isSome_stampAt {l : List ChunkWrittenInterval} {x : Int} :
    (stampAt l x).isSome ↔ ∃ t ∈ l, Covers t x := by
  rw [stampAt, isSome_map, isSome_iff_ne_none, ne_eq, seek_eq_none]
  push Not
  rfl

theorem not_marked_new (x : Int) : ¬ Marked newChunkWrittenIntervalList x := by
  rw [Marked, isList_new.written_eq]
  simp

theorem IsUsage.markWritten (h : IsUsage u) {start stop : Nat}
    (hle : start ≤ stop) (hlt : stop < 2 ^ 63) (tsNs : Int64) :
    ∃ u', u.markWritten (.ofNat start) (.ofNat stop) tsNs = some u' ∧ IsUsage u' ∧
      ∀ x : Int, Marked u' x ↔ (start ≤ x ∧ x < stop) ∨ Marked u x := by
  have hstart : (Int64.ofNat start).toInt = start := Int64.toInt_ofNat_of_lt (by omega)
  have hstop : (Int64.ofNat stop).toInt = stop := Int64.toInt_ofNat_of_lt hlt
  obtain ⟨items, hlist, hord⟩ := h
  have hnonneg : 0 ≤ Int64.ofNat stop :=
    Int64.le_iff_toInt_le.2 (by rw [hstop, Int64.toInt_zero]; omega)
  obtain ⟨u', items', hmark, hlist', hord', hstamp, -⟩ := hlist.markWritten hord (fun _ => hnonneg) tsNs
  refine ⟨u', hmark, ⟨items', hlist', hord'⟩, fun x => ?_⟩
  rw [Marked, Marked, hlist.written_eq, hlist'.written_eq, ← isSome_stampAt, ← isSome_stampAt,
    hstamp, hstart, hstop]
  split
  · simp_all
  · simp_all

/-! ## Bytes -/

namespace PageChunk

/-- The slot of a chunk in the swap file. -/
def slot : PageChunk → Option Nat
  | mem _ => none
  | swap sc => some sc.actualChunkIndex

/-- The byte at a position of the chunk. -/
def byteAt (chunkSize : Nat) (file : File) : PageChunk → Nat → Option UInt8
  | mem mc, x => mc.buf[x]?
  | swap sc, x => file[sc.actualChunkIndex * chunkSize + x]?

/-- The bytes from a position on. -/
def fetch (chunkSize : Nat) (sf : SwapFile) : PageChunk → Nat → Nat → List UInt8 × Bool
  | mem mc => mc.fetch
  | swap sc => sc.fetch chunkSize sf

theorem readDataAt_eq (chunkSize : Nat) (sf : SwapFile) (p : List UInt8) (off : Nat) (c : PageChunk) :
    c.readDataAt chunkSize sf p off = readIntervals (c.fetch chunkSize sf)
      (c.logicChunkIndex * chunkSize) off c.usage.written p 0 := by
  cases c <;> rfl

end PageChunk

/-- `fetch` serves the bytes of `content`, wherever there are any. -/
def Serves (fetch : Nat → Nat → List UInt8 × Bool) (content : Nat → Option UInt8) : Prop :=
  ∀ start len, (∀ i < len, (content (start + i)).isSome) →
    ∃ bytes, fetch start len = (bytes, false) ∧ bytes.length = len ∧
      ∀ i < len, bytes[i]? = content (start + i)

theorem PageChunk.serves_fetch (chunkSize : Nat) (sf : SwapFile) (c : PageChunk) :
    Serves (c.fetch chunkSize sf) (c.byteAt chunkSize sf.file) := by
  intro start len h
  rcases Nat.eq_zero_or_pos len with rfl | hpos
  · cases c with
    | mem mc => exact ⟨[], by simp [fetch, MemChunk.fetch, slice], rfl, by simp⟩
    | swap sc => exact ⟨[], by simp [fetch, SwapFileChunk.fetch, File.readAt], rfl, by simp⟩
  · have hlast := h (len - 1) (by omega)
    cases c with
    | mem mc =>
      rw [byteAt, isSome_getElem?] at hlast
      refine ⟨_, rfl, ?_, fun i hi => ?_⟩
      · rw [length_slice (by omega)]
        omega
      · rw [getElem?_slice, if_pos (by omega), byteAt]
    | swap sc =>
      rw [byteAt, isSome_getElem?] at hlast
      have hend : start + sc.actualChunkIndex * chunkSize + len ≤ sf.file.length := by omega
      refine ⟨_, File.readAt_eq hend, ?_, fun i hi => ?_⟩
      · rw [length_take, length_drop]
        omega
      · rw [getElem?_take_of_lt hi, getElem?_drop, byteAt]
        congr 1
        omega

/-! ## Reading -/

variable {fetch : Nat → Nat → List UInt8 × Bool} {content : Nat → Option UInt8} {base off : Nat}

/-- What a read of the intervals `ts` into `p` gives: what they cover is copied, everything else stays. -/
structure ReadSpec (content : Nat → Option UInt8) (base off : Nat) (ts : List ChunkWrittenInterval)
    (p : List UInt8) (maxStop : Int) (r : List UInt8 × Int) : Prop where
  length : r.1.length = p.length
  maxStop : maxStop ≤ r.2
  copied : ∀ i < p.length, (∃ t ∈ ts, Covers t (off + i - base)) →
    r.1[i]? = content (off + i - base) ∧ off + i < r.2
  kept : ∀ i : Nat, (¬ ∃ t ∈ ts, Covers t (off + i - base)) → r.1[i]? = p[i]?

/-- **The loop of a read.** -/
theorem readIntervals_spec (hoff : base ≤ off) (hserve : Serves fetch content)
    {ts : List ChunkWrittenInterval}
    (hts : ∀ t ∈ ts, ∀ x : Int, Covers t x → ∃ n : Nat, x = n ∧ (content n).isSome)
    (p : List UInt8) (maxStop : Int) :
    ReadSpec content base off ts p maxStop (readIntervals fetch base off ts p maxStop) := by
  induction ts generalizing p maxStop with
  | nil => exact ⟨rfl, Int.le_refl _, by simp, fun i _ => rfl⟩
  | cons t ts ih =>
    have ih := ih fun t' ht' => hts t' (.tail _ ht')
    unfold readIntervals
    simp only
    split
    · rename_i hlt
      -- the part of `p` that `t` covers
      set logicStart : Int := max off (base + t.startOffset.toInt) with hstart
      set logicStop : Int := min (off + p.length) (base + t.stopOffset.toInt) with hstop
      have hfull : ∀ i < (logicStop - logicStart).toNat,
          (content ((logicStart - base).toNat + i)).isSome := by
        intro i hi
        obtain ⟨n, hn, hsome⟩ := hts t mem_cons_self (logicStart - base + i)
          (covers_written.2 ⟨by omega, by omega⟩)
        rwa [show (logicStart - base).toNat + i = n by omega]
      obtain ⟨bytes, hfetch, hlen, hbytes⟩ := hserve _ _ hfull
      simp only [hfetch, Bool.false_eq_true, if_false]
      obtain ⟨h1, h2, h3, h4⟩ := ih (writeAt p (logicStart - off).toNat bytes) (max maxStop logicStop)
      rw [length_writeAt] at h1 h3
      refine ⟨h1, by omega, ?_, ?_⟩
      · rintro i hi ⟨t', ht', hc⟩
        by_cases hrest : ∃ t ∈ ts, Covers t (off + i - base)
        · exact h3 i hi hrest
        · obtain rfl : t' = t := by
            rcases List.mem_cons.1 ht' with rfl | ht'
            · rfl
            · exact absurd ⟨t', ht', hc⟩ hrest
          have hc := covers_written.1 hc
          have hbyte := hbytes (i - (logicStart - off).toNat) (by omega)
          rw [show (logicStart - base).toNat + (i - (logicStart - off).toNat) = off + i - base by
            omega] at hbyte
          obtain ⟨b, hb⟩ := isSome_iff_exists.1 (hfull (i - (logicStart - off).toNat) (by omega))
          rw [show (logicStart - base).toNat + (i - (logicStart - off).toNat) = off + i - base by
            omega] at hb
          refine ⟨?_, by omega⟩
          rw [h4 i hrest, hb, getElem?_writeAt_of_mem (by omega) (hbyte.trans hb) hi]
      · intro i hi
        rw [h4 i fun ⟨t', ht', hc⟩ => hi ⟨t', .tail _ ht', hc⟩]
        have hnot : ¬ Covers t (off + i - base) := fun hc => hi ⟨t, mem_cons_self, hc⟩
        rw [covers_written] at hnot
        rcases Nat.lt_or_ge i p.length with hlen' | hlen'
        · exact getElem?_writeAt_of_not_mem (by omega)
        · rw [getElem?_eq_none hlen', getElem?_eq_none (by simpa using hlen')]
    · obtain ⟨h1, h2, h3, h4⟩ := ih p maxStop
      refine ⟨h1, h2, ?_, fun i hi => h4 i fun ⟨t', ht', hc⟩ => hi ⟨t', .tail _ ht', hc⟩⟩
      rintro i hi ⟨t', ht', hc⟩
      rcases List.mem_cons.1 ht' with rfl | ht'
      · have := covers_written.1 hc
        omega
      · exact h3 i hi ⟨t', ht', hc⟩

/-! ## Content -/

/-- The chunk `c` holds the bytes `content`. -/
structure Holds (chunkSize : Nat) (file : File) (c : PageChunk) (content : Nat → Option UInt8) :
    Prop where
  usage : IsUsage c.usage
  room : ∀ mc, c = .mem mc → mc.buf.length = chunkSize
  marked : ∀ x : Int, Marked c.usage x ↔ ∃ n : Nat, x = n ∧ (content n).isSome
  inside : ∀ n, (content n).isSome → n < chunkSize
  byte : ∀ n b, content n = some b → c.byteAt chunkSize file n = some b

/-- `bytes` from `start` on, and `content` elsewhere. -/
def overlay (start : Nat) (bytes : List UInt8) (content : Nat → Option UInt8) : Nat → Option UInt8 :=
  fun x => if start ≤ x ∧ x < start + bytes.length then bytes[x - start]? else content x

variable {chunkSize : Nat} {file : File} {sf : SwapFile} {c : PageChunk}

theorem holds_newMemChunk (file : File) (pooled : List UInt8) (logicChunkIndex : Nat) :
    Holds chunkSize file (.mem (newMemChunk pooled logicChunkIndex chunkSize)) fun _ => none where
  usage := isUsage_new
  room := by
    simp [newMemChunk, allocate]
  marked x := iff_of_false (not_marked_new x) (by simp)
  inside := by simp
  byte := by simp

theorem holds_newSwapFileChunk (file : File) {sc : SwapFileChunk}
    (h : sc.usage = newChunkWrittenIntervalList) : Holds chunkSize file (.swap sc) fun _ => none where
  usage := by
    rw [PageChunk.usage, h]
    exact isUsage_new
  room := by simp
  marked x := iff_of_false (by rw [PageChunk.usage, h]; exact not_marked_new x) (by simp)
  inside := by simp
  byte := by simp

theorem Holds.of_bytes {file' : File} (h : Holds chunkSize file c content)
    (hbytes : ∀ n < chunkSize, ∀ b, c.byteAt chunkSize file n = some b →
      c.byteAt chunkSize file' n = some b) : Holds chunkSize file' c content :=
  ⟨h.usage, h.room, h.marked, h.inside, fun n b hb =>
    hbytes n (h.inside n (by rw [hb]; rfl)) b (h.byte n b hb)⟩

section

variable (h : Holds chunkSize sf.file c content)
include h

theorem Holds.serves : Serves (c.fetch chunkSize sf) content := by
  have heq : ∀ n, (content n).isSome → c.byteAt chunkSize sf.file n = content n := by
    intro n hn
    obtain ⟨b, hb⟩ := Option.isSome_iff_exists.1 hn
    rw [hb, h.byte n b hb]
  intro start len hsome
  obtain ⟨bytes, hfetch, hlen, hbytes⟩ := c.serves_fetch chunkSize sf start len fun i hi => by
    rw [heq _ (hsome i hi)]
    exact hsome i hi
  exact ⟨bytes, hfetch, hlen, fun i hi => (hbytes i hi).trans (heq _ (hsome i hi))⟩

/-- **A read.** -/
theorem Holds.readDataAt (hoff : c.logicChunkIndex * chunkSize ≤ off) (p : List UInt8) :
    (c.readDataAt chunkSize sf p off).1.length = p.length ∧
    (∀ i < p.length, ∀ b, content (off + i - c.logicChunkIndex * chunkSize) = some b →
      (c.readDataAt chunkSize sf p off).1[i]? = some b ∧
      off + i < (c.readDataAt chunkSize sf p off).2) ∧
    ∀ i, content (off + i - c.logicChunkIndex * chunkSize) = none →
      (c.readDataAt chunkSize sf p off).1[i]? = p[i]? := by
  rw [PageChunk.readDataAt_eq]
  have hspec := readIntervals_spec hoff h.serves (fun t ht x hx => (h.marked x).1 ⟨t, ht, hx⟩) p 0
  generalize c.logicChunkIndex * chunkSize = base at hoff hspec ⊢
  have hcover : ∀ i : Nat, (∃ t ∈ c.usage.written, Covers t (off + i - base)) ↔
      (content (off + i - base)).isSome := by
    intro i
    refine (h.marked _).trans ⟨?_, fun hsome => ⟨off + i - base, by omega, hsome⟩⟩
    rintro ⟨n, hn, hsome⟩
    rwa [show off + i - base = n by omega]
  refine ⟨hspec.length, fun i hi b hb => ?_, fun i hnone => ?_⟩
  · have := hspec.copied i hi ((hcover i).2 (by rw [hb]; rfl))
    rwa [hb] at this
  · refine hspec.kept i fun hex => ?_
    have := (hcover i).1 hex
    rw [hnone] at this
    cases this

variable {bytes : List UInt8}

omit h in
theorem isSome_overlay {start : Nat} {n : Nat} : (overlay start bytes content n).isSome ↔
      (start ≤ n ∧ n < start + bytes.length) ∨ (content n).isSome := by
  unfold overlay
  split
  · rename_i hn
    rw [isSome_getElem?]
    omega
  · rename_i hn
    exact ⟨.inr, fun h => h.resolve_left hn⟩

omit h in
theorem Holds.overlay {c' : PageChunk} {file' : File} (h : Holds chunkSize file c content)
    (husage : IsUsage c'.usage) (hroom : ∀ mc, c' = .mem mc → mc.buf.length = chunkSize) {start : Nat}
    (hmarked : ∀ x : Int, Marked c'.usage x ↔
      ((start : Int) ≤ x ∧ x < (start + bytes.length : Nat)) ∨ Marked c.usage x)
    (hfits : start + bytes.length ≤ chunkSize) (hnew : ∀ n, start ≤ n → n < start + bytes.length →
      c'.byteAt chunkSize file' n = bytes[n - start]?)
    (hold : ∀ n b, n < chunkSize → (n < start ∨ start + bytes.length ≤ n) →
      c.byteAt chunkSize file n = some b → c'.byteAt chunkSize file' n = some b) :
    Holds chunkSize file' c' (overlay start bytes content) where
  usage := husage
  room := hroom
  marked x := by
    rw [hmarked, h.marked]
    constructor
    · rintro (hx | ⟨n, hn, hsome⟩)
      · exact ⟨x.toNat, by omega, isSome_overlay.2 (.inl (by omega))⟩
      · exact ⟨n, hn, isSome_overlay.2 (.inr hsome)⟩
    · rintro ⟨n, rfl, hsome⟩
      rcases isSome_overlay.1 hsome with hn | hsome
      · exact .inl (by omega)
      · exact .inr ⟨n, rfl, hsome⟩
  inside n hn := by
    rcases isSome_overlay.1 hn with hn | hn
    · omega
    · exact h.inside n hn
  byte n b hb := by
    unfold PageWriter.overlay at hb
    split at hb
    · rename_i hn
      rw [hnew n hn.1 hn.2, hb]
    · exact hold n b (h.inside n (by rw [hb]; rfl)) (by omega) (h.byte n b hb)

/-- **A write** lays the bytes it took over the content, and leaves the chunks of other slots alone. -/
theorem Holds.writeDataAt (hpos : 0 < chunkSize)
    {src : List UInt8} (hlt : off % chunkSize + src.length < 2 ^ 63)
    (hfits : c.slot ≠ none → off % chunkSize + src.length ≤ chunkSize) (tsNs : Int64) :
    ∃ file' c' n, c.writeDataAt chunkSize sf src off tsNs = some ({ sf with file := file' }, c', n) ∧
      off % chunkSize + (src.take n).length ≤ chunkSize ∧
      Holds chunkSize file' c' (PageWriter.overlay (off % chunkSize) (src.take n) content) ∧
      c'.slot = c.slot ∧ c'.logicChunkIndex = c.logicChunkIndex ∧
      ∀ d k, Holds chunkSize sf.file d k → (∀ a, c.slot = some a → d.slot ≠ some a) →
        Holds chunkSize file' d k := by
  have hinner : off % chunkSize < chunkSize := Nat.mod_lt _ hpos
  cases c with
  | mem mc =>
    have hbuf : mc.buf.length = chunkSize := h.room mc rfl
    set n := min (mc.buf.length - off % chunkSize) src.length with hn
    obtain ⟨u', hmark, husage, hmarked⟩ := h.usage.markWritten (Nat.le_add_right _ n)
      (show off % chunkSize + n < 2 ^ 63 by omega) tsNs
    have hlen : (src.take n).length = n := by
      rw [length_take]
      omega
    refine ⟨sf.file, .mem { mc with buf := writeAt mc.buf (off % chunkSize) src, usage := u' }, n,
      ?_, by omega, ?_, rfl, rfl, fun d k hd _ => hd⟩
    · show Option.map _ (mc.writeDataAt chunkSize src off tsNs) = _
      have : mc.usage.markWritten (.ofNat (off % chunkSize)) (.ofNat (off % chunkSize + n)) tsNs =
        some u' := hmark
      rw [MemChunk.writeDataAt, ← hn, this]
      rfl
    · refine h.overlay (by exact husage) ?_ (by rw [hlen]; exact hmarked) (by omega) ?_ ?_
      · rintro _ ⟨⟩
        rw [length_writeAt, hbuf]
      · intro m hm hm'
        have hb := getElem?_eq_getElem (show m - off % chunkSize < src.length by omega)
        rw [getElem?_take_of_lt (by omega), hb]
        exact getElem?_writeAt_of_mem hm hb (by omega)
      · intro m b hm hout hb
        show (writeAt mc.buf _ src)[m]? = some b
        rw [getElem?_writeAt_of_not_mem (by omega)]
        exact hb
  | swap sc =>
    have hfits := hfits (by simp [PageChunk.slot])
    obtain ⟨u', hmark, husage, hmarked⟩ := h.usage.markWritten (Nat.le_add_right _ src.length) hlt tsNs
    refine ⟨sf.file.writeAt src (sc.actualChunkIndex * chunkSize + off % chunkSize),
      .swap { sc with usage := u' }, src.length, ?_, by simpa using hfits, ?_, rfl, rfl, ?_⟩
    · show Option.map _ (sc.writeDataAt chunkSize sf src off tsNs) = _
      have : sc.usage.markWritten (.ofNat (off % chunkSize)) (.ofNat (off % chunkSize + src.length))
        tsNs = some u' := hmark
      rw [SwapFileChunk.writeDataAt, this]
      rfl
    · rw [take_length]
      refine h.overlay (by exact husage) (by simp) hmarked hfits ?_ ?_
      · intro m hm hm'
        show (sf.file.writeAt src (sc.actualChunkIndex * chunkSize + off % chunkSize))[
          sc.actualChunkIndex * chunkSize + m]? = _
        rw [File.getElem?_writeAt_of_mem _ (by omega) (by omega)]
        congr 1
        omega
      · intro m b hm hout hb
        show (sf.file.writeAt src (sc.actualChunkIndex * chunkSize + off % chunkSize))[
          sc.actualChunkIndex * chunkSize + m]? = _
        exact File.getElem?_writeAt_of_not_mem (by omega) hb
    · intro d k hd hslot
      refine hd.of_bytes fun m hm b hb => ?_
      cases d with
      | mem md => exact hb
      | swap sd =>
        have hne : sd.actualChunkIndex ≠ sc.actualChunkIndex := fun heq =>
          hslot _ rfl (congrArg some heq)
        refine File.getElem?_writeAt_of_not_mem ?_ hb
        rcases Nat.lt_or_gt_of_ne hne with hlt | hlt
        · have := Nat.mul_le_mul_right chunkSize hlt
          rw [Nat.succ_mul] at this
          omega
        · have := Nat.mul_le_mul_right chunkSize hlt
          rw [Nat.succ_mul] at this
          omega

end

end PageWriter
