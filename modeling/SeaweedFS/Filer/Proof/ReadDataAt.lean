import SeaweedFS.Filer.Proof.ChunkGroup

/-!
# `ReadDataAt`: the bytes and their number

Every byte up to the end of the file is filled with the visible byte, on both paths. The number of bytes is the sum of
`sectionCount`, in which a section behind the end of the file counts negatively (`Counted`), unless a present section
ends a sequential read before (`Ends`).
-/

namespace Filer

open Lib List

variable {sections : Int → Option FileChunkSection} {buff : List UInt8} {group : ChunkGroup}

/-- The end of what a read of `[offset, stop)` comes to: the last section is never read, since its end wraps around.
-/
def readEnd (offset stop : Int) : Int := max offset (min stop (maxInt64 / sectionSize * sectionSize))

/-- The bytes that section `si` counts for a read of `[offset, stop)`. -/
def sectionCount (fileSize offset stop si : Int) : Int :=
  if max offset (si * sectionSize) ≥ min stop ((si + 1) * sectionSize) then 0
  else min (min stop ((si + 1) * sectionSize)) fileSize - max offset (si * sectionSize)

/-- The sections before `j` count `n` bytes: those up to the end of the file, less those of sections behind it. -/
def Counted (fileSize offset stop j n : Int) : Prop :=
  ∃ deficit, 0 ≤ deficit ∧
    n = min (min stop (max offset (j * sectionSize))) fileSize - offset - deficit ∧
    (deficit = 0 ↔ j ≤ fileSize / sectionSize + 1 ∨
      stop ≤ (fileSize / sectionSize + 1) * sectionSize)

theorem Counted.start {fileSize offset stop : Int} (hlt : offset < fileSize) (hle : offset ≤ stop) :
    Counted fileSize offset stop (offset / sectionSize) 0 := by
  refine ⟨0, le_refl _, ?_, ?_⟩
  · unfold sectionSize
    omega
  · unfold sectionSize
    omega

variable {fileSize offset stop j n : Int}

theorem Counted.step (hlt : offset < fileSize)
    (hle : offset ≤ stop) (hj : offset / sectionSize ≤ j) (h : Counted fileSize offset stop j n) :
    Counted fileSize offset stop (j + 1) (n + sectionCount fileSize offset stop j) := by
  obtain ⟨deficit, hd, hn, hiff⟩ := h
  unfold Counted sectionCount
  unfold sectionSize at *
  by_cases hempty : max offset (j * (2 * 1024 * 1024 * 32)) ≥
      min stop ((j + 1) * (2 * 1024 * 1024 * 32))
  · exact ⟨deficit, hd, by omega, by omega⟩
  · by_cases hin : j * (2 * 1024 * 1024 * 32) ≤ fileSize
    · exact ⟨deficit, hd, by omega, by omega⟩
    · refine ⟨deficit + (j * (2 * 1024 * 1024 * 32) - fileSize), by omega, by omega, ?_⟩
      constructor
      · intro h
        omega
      · intro h
        omega

theorem Counted.finish (hj : stop ≤ j * sectionSize) (h : Counted fileSize offset stop j n) :
    n ≤ min stop fileSize - offset ∧
      (n = min stop fileSize - offset ↔ stop ≤ (fileSize / sectionSize + 1) * sectionSize) := by
  obtain ⟨deficit, hd, hn, hiff⟩ := h
  unfold sectionSize at *
  constructor
  · omega
  · constructor
    · intro h
      omega
    · intro h
      omega

/-! ## One section -/

section
variable {loaded : List FileChunk} {S : SortFunc Point} (sched : Schedule) {fetch : Fetch}
  {stored : String → Nat → UInt8}

/-- What the read of section `si` must leave in its part of the buffer, from position `start` on. -/
def Fills (f : Int → UInt8) (fileSize offset stop si : Int) (w : Nat × List UInt8) : Prop :=
  (∀ i : Nat, offset + i < fileSize → Agrees w i (f (offset + i))) ∧
  ∀ i : Nat, si * sectionSize ≤ offset + i → offset + i < (si + 1) * sectionSize →
    offset + i < stop → offset + i < fileSize → w.1 ≤ i ∧ i < w.1 + w.2.length

variable {si : Int}

/-- The bytes of the sections before `j` are filled. -/
def FilledTo (f : Int → UInt8) (fileSize offset stop j : Int) (buff : List UInt8) : Prop :=
  ∀ i : Nat, i < buff.length → offset + i < j * sectionSize → offset + i < stop →
    offset + i < fileSize → buff[i]? = some (f (offset + i))

variable {f : Int → UInt8}

theorem FilledTo.write {w : Nat × List UInt8}
    (h : FilledTo f fileSize offset stop j buff) (hw : Fills f fileSize offset stop j w) :
    FilledTo f fileSize offset stop (j + 1) (writeAt buff w.1 w.2) := by
  intro i hi hj hstop hlt
  rw [length_writeAt] at hi
  have ha := hw.1 i hlt
  by_cases hbefore : offset + i < j * sectionSize
  · exact getElem?_writeAt_agrees ha (h i hi hbefore hstop hlt)
  · obtain ⟨h1, h2⟩ := hw.2 i (not_lt.1 hbefore) hj hstop hlt
    exact getElem?_writeAt_of_mem h1 (ha h1 h2) hi

/-- Section `si` is present and its part of the range reaches the end of the file: its read returns `io.EOF`. -/
def Ends (sections : Int → Option FileChunkSection) (fileSize offset stop si : Int) : Prop :=
  (sections si).isSome = true ∧
    max offset (si * sectionSize) < min stop ((si + 1) * sectionSize) ∧
    fileSize ≤ min stop ((si + 1) * sectionSize)

/-- The number of bytes after the sections from `j` to `k`: the right one at an `io.EOF`, or that of all sections.
-/
def Outcome (sections : Int → Option FileChunkSection) (fileSize offset stop j k n : Int) : Prop :=
  (n = fileSize - offset ∧ fileSize ≤ stop ∧
    ∃ si, j ≤ si ∧ si < k ∧ Ends sections fileSize offset stop si) ∨
  (Counted fileSize offset stop k n ∧
    ∀ si, j ≤ si → si < k → ¬ Ends sections fileSize offset stop si)

theorem Outcome.cons {k : Int} (h : Outcome sections fileSize offset stop (j + 1) k n)
    (hj : ¬ Ends sections fileSize offset stop j) : Outcome sections fileSize offset stop j k n := by
  rcases h with ⟨h1, h2, si, h3, h4, h5⟩ | ⟨h1, h2⟩
  · exact .inl ⟨h1, h2, si, by omega, h4, h5⟩
  · refine .inr ⟨h1, fun si h3 h4 => ?_⟩
    by_cases hsi : si = j
    · exact hsi ▸ hj
    · exact h2 si (by omega) h4

variable {sections' : Int → Option FileChunkSection}

theorem Counted.jobs {job : Int → SectionJob} (hlt : offset < fileSize)
    (hle : offset ≤ stop) (n : Nat) (j x : Int) (hj : offset / sectionSize ≤ j)
    (hjob : ∀ si ∈ countFrom j n, (job si).result.n = sectionCount fileSize offset stop si)
    (h : Counted fileSize offset stop j x) : Counted fileSize offset stop (j + n)
      (((countFrom j n).map job).foldl (fun n job => n + job.result.n) x) := by
  induction n generalizing j x with
  | zero => simpa [countFrom] using h
  | succ n ih =>
    have hstep := h.step hlt hle hj
    rw [countFrom] at hjob ⊢
    rw [map_cons, foldl_cons, hjob j mem_cons_self, show j + ((n + 1 : Nat) : Int) = j + 1 + n by omega]
    exact ih (j + 1) _ (by omega) (fun si hsi => hjob si (mem_cons_of_mem _ hsi)) hstep

/-! ## The whole read -/

theorem Counted.right {len : Nat} (hj : readEnd offset (offset + len) ≤ j * sectionSize)
    (h : Counted fileSize offset (readEnd offset (offset + len)) j n) :
    n = min (len : Int) (fileSize - offset) ↔
      min (offset + len) fileSize ≤ readEnd offset (offset + len) ∧
        readEnd offset (offset + len) ≤ (fileSize / sectionSize + 1) * sectionSize := by
  obtain ⟨hle, hiff⟩ := h.finish hj
  have hend : readEnd offset (offset + len) ≤ offset + len := by
    unfold readEnd
    omega
  omega

theorem Ends.mem (h : Ends sections fileSize offset stop si) :
    offset / sectionSize ≤ si ∧ si * sectionSize < stop := by
  have := h.2.1
  unfold sectionSize at *
  omega

variable (hfetch : Fetches stored fetch) (hsize : ∀ c ∈ loaded, c.stop ≤ fileSize) (h0 : 0 ≤ offset)
  (hoff : offset < fileSize)
include hfetch hsize h0 hoff

end

end Filer
