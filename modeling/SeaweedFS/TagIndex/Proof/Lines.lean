import SeaweedFS.Lib.Simulation
import SeaweedFS.TagIndex.Index

/-!
# Files of lines

What a file holds is the set of its trimmed lines that are not blank (`linesAt`). A line so read can be
written and read again (`LineSafe`); what is read back of a written set is what is read of each of its
elements (`mem_lineSet_fileOf`), the set itself when all of them are safe (`lineSet_fileOf`).
-/

namespace TagIndex

open Lib Util List FileTree SortedSet

variable {fs fs' : FileTree} {p q : Path} {s : Paths} {l x : Str} {content : List UInt8}

/-- A line that is read as it was written. -/
def LineSafe (l : Str) : Prop := l ≠ [] ∧ 0x0a ∉ l ∧ trimSpace l = l

instance (l : Str) : Decidable (LineSafe l) := inferInstanceAs (Decidable (_ ∧ _))

theorem mem_lineSet : x ∈ lineSet content ↔ x ≠ [] ∧ ∃ line ∈ content.splitOn 0x0a, trimSpace line = x := by
  rw [lineSet, mem_ofList, mem_filter, mem_map, decide_eq_true_eq]
  exact and_comm

theorem lineSafe_of_mem (h : x ∈ lineSet content) : LineSafe x := by
  obtain ⟨hne, line, hline, rfl⟩ := mem_lineSet.1 h
  refine ⟨hne, fun hmem => ?_, trimSpace_trimSpace line⟩
  exact not_mem_of_mem_splitOn hline (mem_of_mem_trimSpace hmem)

theorem LineSafe.mem_lineSet_iff (hl : LineSafe l) : x ∈ lineSet l ↔ x = l := by
  rw [mem_lineSet, splitOn_of_not_mem hl.2.1]
  constructor
  · rintro ⟨-, line, hline, rfl⟩
    rw [mem_singleton.1 hline, hl.2.2]
  · rintro rfl
    exact ⟨hl.1, x, mem_singleton_self x, hl.2.2⟩

theorem mem_lineSet_fileOf : x ∈ lineSet (fileOf s) ↔ ∃ l ∈ s, x ∈ lineSet l := by
  rw [mem_lineSet, fileOf, splitOn_flatMap]
  constructor
  · rintro ⟨hne, line, hline, rfl⟩
    rcases mem_append.1 hline with hline | hline
    · obtain ⟨l, hl, hmem⟩ := mem_flatMap.1 hline
      exact ⟨l, mem_toList.1 hl, mem_lineSet.2 ⟨hne, line, hmem, rfl⟩⟩
    · rw [mem_singleton.1 hline] at hne
      exact absurd rfl hne
  · rintro ⟨l, hl, hx⟩
    obtain ⟨hne, line, hline, rfl⟩ := mem_lineSet.1 hx
    refine ⟨hne, line, mem_append_left _ ?_, rfl⟩
    exact mem_flatMap.2 ⟨l, mem_toList.2 hl, hline⟩

theorem lineSet_fileOf (hs : ∀ l ∈ s, LineSafe l) : lineSet (fileOf s) = s := by
  refine ext_mem fun x => ?_
  rw [mem_lineSet_fileOf]
  constructor
  · rintro ⟨l, hl, hx⟩
    rwa [(hs l hl).mem_lineSet_iff.1 hx]
  · intro hx
    exact ⟨x, hx, (hs x hx).mem_lineSet_iff.2 rfl⟩

theorem mem_lineSet_fileOf_add (hs : ∀ l ∈ s, LineSafe l) :
    x ∈ lineSet (fileOf (SortedSet.add s l)) ↔ x ∈ s ∨ x ∈ lineSet l := by
  rw [mem_lineSet_fileOf]
  constructor
  · rintro ⟨l', hl', hx⟩
    rcases mem_add.1 hl' with rfl | hl'
    · exact .inr hx
    · rw [(hs l' hl').mem_lineSet_iff.1 hx]
      exact .inl hl'
  · rintro (hx | hx)
    · exact ⟨x, mem_add.2 (.inr hx), (hs x hx).mem_lineSet_iff.2 rfl⟩
    · exact ⟨l, mem_add.2 (.inl rfl), hx⟩

/-- No line is too long for the scanner. -/
def ShortLines (content : List UInt8) : Prop :=
  ∀ line ∈ content.splitOn 0x0a, line.length < maxScanTokenSize

theorem ShortLines.of_mem (h : ShortLines content) (hx : x ∈ lineSet content) :
    x.length < maxScanTokenSize := by
  obtain ⟨-, line, hline, rfl⟩ := mem_lineSet.1 hx
  exact Nat.lt_of_le_of_lt (trim_within line).length_le (h line hline)

theorem shortLines_fileOf (h : ∀ l ∈ s, 0x0a ∉ l ∧ l.length < maxScanTokenSize) :
    ShortLines (fileOf s) := by
  intro line hline
  rw [fileOf, splitOn_flatMap] at hline
  rcases mem_append.1 hline with hline | hline
  · obtain ⟨l, hl, hmem⟩ := mem_flatMap.1 hline
    obtain ⟨hnl, hlen⟩ := h l (mem_toList.1 hl)
    rw [splitOn_of_not_mem hnl, mem_singleton] at hmem
    rwa [hmem]
  · rw [mem_singleton.1 hline]
    exact Nat.zero_lt_succ _

/-! ## Reading -/

/-- The lines of the file at `p`, none if there is no file. -/
def linesAt (fs : FileTree) (p : Path) : Paths :=
  match fs.get p with
  | some (.file content) => lineSet content
  | _ => SortedMap.empty

theorem linesAt_congr (h : fs'.get p = fs.get p) : linesAt fs' p = linesAt fs p := by
  rw [linesAt, linesAt, h]

theorem linesAt_file (h : fs.get p = some (.file content)) : linesAt fs p = lineSet content := by
  rw [linesAt, h]

theorem mem_linesAt : x ∈ linesAt fs p ↔ ∃ content, fs.get p = some (.file content) ∧ x ∈ lineSet content := by
  constructor
  · intro h
    unfold linesAt at h
    split at h
    · rename_i content hget
      exact ⟨content, hget, h⟩
    · exact absurd h (not_mem_empty x)
  · rintro ⟨content, hget, hx⟩
    rwa [linesAt_file hget]

theorem lineSafe_of_mem_linesAt (h : x ∈ linesAt fs p) : LineSafe x := by
  obtain ⟨content, -, hx⟩ := mem_linesAt.1 h
  exact lineSafe_of_mem hx

theorem readLines_ok (h : readLines fs p = .ok s) : s = linesAt fs p ∧ fs.get p ≠ some .dir := by
  unfold readLines at h
  split at h
  · rename_i hread
    cases h
    have hnone : fs.get p = none := by
      cases hget : fs.get p with
      | none => rfl
      | some node => cases node <;> simp [readFile, stat_some hget] at hread
    rw [linesAt, hnone]
    exact ⟨rfl, by simp⟩
  · cases h
  · rename_i content hread
    have hget := readFile_eq_ok.1 hread
    split at h
    · cases h
    · cases h
      rw [linesAt_file hget, hget]
      exact ⟨rfl, by simp⟩

theorem readLines_short (h : readLines fs p = .ok s) : ∀ x ∈ s, x.length < maxScanTokenSize := by
  intro x hx
  unfold readLines at h
  split at h
  · cases h
    exact absurd hx (not_mem_empty x)
  · cases h
  · split at h
    · cases h
    · rename_i hshort
      cases h
      refine ShortLines.of_mem (fun line hline => ?_) hx
      by_contra hlong
      exact hshort (any_eq_true.2 ⟨line, hline, by simpa using hlong⟩)

theorem readLines_congr (hp : fs'.get p = fs.get p)
    (hfiles : ∀ q, q <+: p → ∀ content, fs'.get q = some (.file content) ↔ fs.get q = some (.file content)) :
    readLines fs' p = readLines fs p := by
  rw [readLines, readLines, readFile, readFile, stat_congr hp hfiles]

theorem readLines_file (hget : fs.get p = some (.file content)) (hshort : ShortLines content) :
    readLines fs p = .ok (lineSet content) := by
  rw [readLines, readFile_eq_ok.2 hget]
  simp only
  rw [if_neg]
  intro hany
  obtain ⟨line, hline, hlen⟩ := any_eq_true.1 hany
  have := hshort line hline
  simp only [decide_eq_true_eq] at hlen
  omega

theorem readLines_notExist (h : fs.stat p = .error .notExist) : readLines fs p = .ok SortedMap.empty := by
  rw [readLines, readFile_of_stat_error h]

/-! ## Writing -/

/-- `fs'` is `fs` with the lines `s` in the file `p`, and the directories on the way to it. -/
structure Wrote (fs fs' : FileTree) (p : Path) (s : Paths) : Prop where
  file : fs'.get p = some (.file (fileOf s))
  clear : ∀ q, q <+: p.dropLast → ∀ content, fs.get q ≠ some (.file content)
  dirs : ∀ q, q <+: p.dropLast → fs'.get q = some .dir
  same : ∀ q, q ≠ p → ¬ q <+: p.dropLast → fs'.get q = fs.get q

theorem writeLines_ok (h : writeLines fs p s = .ok fs') : Wrote fs fs' p s := by
  obtain ⟨fs1, hmk, hwrite⟩ := bind_eq_ok.1 h
  have hclear := fun q => no_file_of_mkdirAll (q := q) (mapError_eq_ok.1 hmk)
  have hmk := get_mkdirAll (mapError_eq_ok.1 hmk)
  obtain ⟨-, -, hget⟩ := get_writeFile (mapError_eq_ok.1 hwrite)
  have hne : p ≠ [] := by
    rintro rfl
    have hroot := fs'.root
    rw [← FileTree.get, hget, if_pos rfl] at hroot
    cases hroot
  refine ⟨(hget p).trans (if_pos rfl), hclear, fun q hq => ?_, fun q hq hpre => ?_⟩
  · rw [hget, if_neg, hmk, if_pos hq]
    rintro rfl
    have hlen := hq.length_le
    have hpos := length_pos_iff.2 hne
    rw [length_dropLast] at hlen
    omega
  · rw [hget, if_neg (Ne.symm hq), hmk, if_neg hpre]

theorem Wrote.linesAt_eq (h : Wrote fs fs' p s) : linesAt fs' p = lineSet (fileOf s) :=
  linesAt_file h.file

theorem removeLine_ok (h : removeLine fs p l = .ok fs') : fs.get p ≠ some .dir ∧
      ((l ∉ linesAt fs p ∧ fs' = fs) ∨ (l ∈ linesAt fs p ∧ Wrote fs fs' p ((linesAt fs p).erase l))) := by
  obtain ⟨paths, hread, h⟩ := bind_eq_ok.1 h
  obtain ⟨rfl, hdir⟩ := readLines_ok hread
  refine ⟨hdir, ?_⟩
  split at h
  · rename_i hmem
    exact .inr ⟨hmem, writeLines_ok h⟩
  · rename_i hmem
    cases h
    exact .inl ⟨hmem, rfl⟩

theorem mem_linesAt_removeLine (h : removeLine fs p l = .ok fs') :
    x ∈ linesAt fs' p ↔ x ∈ linesAt fs p ∧ x ≠ l := by
  rcases (removeLine_ok h).2 with ⟨hmem, rfl⟩ | ⟨-, hw⟩
  · constructor
    · intro hx
      refine ⟨hx, ?_⟩
      rintro rfl
      exact hmem hx
    · exact And.left
  · rw [hw.linesAt_eq, lineSet_fileOf, mem_erase]
    intro y hy
    exact lineSafe_of_mem_linesAt (mem_erase.1 hy).1

end TagIndex
