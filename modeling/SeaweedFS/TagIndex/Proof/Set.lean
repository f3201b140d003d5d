import SeaweedFS.Lib.Runs
import SeaweedFS.TagIndex.Proof.Index

/-!
# Sets, updates and queries

`Set` takes the path out of every tag and adds it to the new ones (`set_steps`); `Update` with the path's current tags
does the same (`update_steps`). So after any sequence of `Set` calls a tag holds the paths whose last call had it
(**`query_latest`**).
-/

namespace TagIndex

open Lib Util List FileTree SortedSet TagIndex

variable {st : Store} {fs fs' : FileTree} {n m tag : Name} {s : Paths} {path x raw : Str}
  {tags oldTags newTags : List Str}

variable {calls : List (Str × List Str)}

/-! ## The calls -/

section

variable (h : fs.mkdirAll st.byTagDir = .ok fs')
include h

theorem mkdirAll_tagFile (n : Name) : fs'.get (st.tagFile n) = fs.get (st.tagFile n) := by
  rw [get_mkdirAll h, if_neg tagFile_not_prefix_byTagDir]

theorem mkdirAll_allTaggedPath : fs'.get st.allTaggedPath = fs.get st.allTaggedPath := by
  rw [get_mkdirAll h, if_neg allTaggedPath_not_prefix]

theorem mkdirAll_byTagDir : fs'.get st.byTagDir = some .dir := by
  rw [get_mkdirAll h, if_pos prefix_rfl]

end

/-- The tags are what they were. -/
def SameTags (st : Store) (fs fs' : FileTree) : Prop :=
  fs'.get st.byTagDir = fs.get st.byTagDir ∧ ∀ n, fs'.get (st.tagFile n) = fs.get (st.tagFile n)

theorem SameTags.tagLines_eq (h : SameTags st fs fs') (n : Name) : tagLines st fs' n = tagLines st fs n :=
  linesAt_congr (h.2 n)

theorem Wrote.sameTags (h : Wrote fs fs' st.allTaggedPath s) : SameTags st fs fs' :=
  ⟨h.byTagDir_of_all, h.tagFile_of_all⟩

theorem allTaggedPaths_sameTags (h : allTaggedPaths st fs = .ok (s, fs')) : SameTags st fs fs' :=
  ⟨allTaggedPaths_byTagDir h, allTaggedPaths_tagFile h⟩

theorem SameTags.trans {fs1 : FileTree} (h : SameTags st fs fs1) (h' : SameTags st fs1 fs') :
    SameTags st fs fs' :=
  ⟨h'.1.trans h.1, fun n => (h'.2 n).trans (h.2 n)⟩

/-- The lines of the file of all tagged paths. -/
def AllTagged (st : Store) (fs : FileTree) (P : Str → Prop) : Prop :=
  ∃ content, fs.get st.allTaggedPath = some (.file content) ∧ ∀ x, x ∈ lineSet content ↔ P x

theorem addTaggedPath_ok (h : addTaggedPath st fs path = .ok fs') :
    ∃ s fs1, allTaggedPaths st fs = .ok (s, fs1) ∧ SameTags st fs fs' ∧
      AllTagged st fs' fun x => x ∈ s ∨ x ∈ lineSet path := by
  obtain ⟨⟨s, fs1⟩, hall, hwrite⟩ := bind_eq_ok.1 h
  have hw := writeLines_ok hwrite
  refine ⟨s, fs1, hall, (allTaggedPaths_sameTags hall).trans hw.sameTags, _, hw.file, fun x => ?_⟩
  exact mem_lineSet_fileOf_add fun l hl => lineSafe_of_mem_allTaggedPaths hall hl

theorem removeTaggedPath_ok (h : removeTaggedPath st fs path = .ok fs') :
    ∃ s fs1, allTaggedPaths st fs = .ok (s, fs1) ∧ SameTags st fs fs' ∧
      AllTagged st fs' fun x => x ∈ s ∧ x ≠ path := by
  obtain ⟨⟨s, fs1⟩, hall, h⟩ := bind_eq_ok.1 h
  refine ⟨s, fs1, hall, ?_⟩
  simp only at h
  split at h
  · have hw := writeLines_ok h
    refine ⟨(allTaggedPaths_sameTags hall).trans hw.sameTags, _, hw.file, fun x => ?_⟩
    rw [lineSet_fileOf, mem_erase]
    intro l hl
    exact lineSafe_of_mem_allTaggedPaths hall (mem_erase.1 hl).1
  · rename_i hmem
    cases h
    obtain ⟨content, hget, rfl⟩ := allTaggedPaths_file hall
    refine ⟨allTaggedPaths_sameTags hall, content, hget, fun x => ⟨fun hx => ⟨hx, ?_⟩, And.left⟩⟩
    rintro rfl
    exact hmem hx

theorem set_steps (hplain : Plain tags) (hpath : normalizePath raw = .ok path)
    (h : set st fs raw tags = .ok fs') :
    ∃ fs0 fs1 fs2, fs.mkdirAll st.byTagDir = .ok fs0 ∧ removePathFromAllTags st fs0 path = .ok fs1 ∧
      (if normalizeTags tags = [] then removeTaggedPath st fs1 path else addTaggedPath st fs1 path)
        = .ok fs2 ∧
      SameTags st fs1 fs2 ∧ fs1.get st.byTagDir = some .dir ∧ Edits st (fun _ => False) fs0 fs1 ∧
      Edits st (fun l => normalizeTags tags ≠ [] ∧ l = path) fs2 fs' ∧ ∀ m x, x ∈ tagLines st fs' m ↔
        (x ∈ tagLines st fs m ∧ x ≠ path) ∨ (m ∈ normalizeTags tags ∧ x ∈ lineSet path) := by
  obtain ⟨p, hp, h⟩ := bind_eq_ok.1 h
  obtain rfl : path = p := Except.ok.inj (hpath.symm.trans hp)
  obtain ⟨fs0, hmk, h⟩ := bind_eq_ok.1 h
  obtain ⟨fs1, hremove, h⟩ := bind_eq_ok.1 h
  obtain ⟨fs2, htagged, hadd⟩ := bind_eq_ok.1 h
  have hmk := mapError_eq_ok.1 hmk
  obtain ⟨hed, hmem⟩ := removePathFromAllTags_ok hremove
  have hdir := hed.byTagDir (mkdirAll_byTagDir hmk)
  have hsame : SameTags st fs1 fs2 := by
    split at htagged
    · obtain ⟨s, fs3, -, hsame, -⟩ := removeTaggedPath_ok htagged
      exact hsame
    · obtain ⟨s, fs3, -, hsame, -⟩ := addTaggedPath_ok htagged
      exact hsame
  obtain ⟨hed', hmem'⟩ := addPaths_ok hplain.normalizeTags (hsame.1.trans hdir) hadd
  refine ⟨fs0, fs1, fs2, hmk, hremove, htagged, hsame, hdir, hed, hed', fun m x => ?_⟩
  rw [hmem', hsame.tagLines_eq, hmem, tagLines, linesAt_congr (mkdirAll_tagFile hmk m)]
  rfl

/-- The tags of a path, as the index has them. -/
def currentTags (st : Store) (fs : FileTree) (path : Str) : List Name :=
  match fs.readDir st.byTagDir with
  | .ok entries => (entries.map Prod.fst).filter fun n => path ∈ tagLines st fs n
  | .error _ => []

theorem mem_currentTags : n ∈ currentTags st fs path ↔ path ∈ tagLines st fs n := by
  constructor
  · intro h
    unfold currentTags at h
    split at h
    · exact of_decide_eq_true (mem_filter.1 h).2
    · cases h
  · intro h
    obtain ⟨content, hget, -⟩ := mem_linesAt.1 h
    have hdir := fs.closed st.byTagDir n (congrArg Option.isSome hget)
    cases hread : fs.readDir st.byTagDir with
    | error e => simp [readDir, stat_some hdir] at hread
    | ok entries =>
      obtain ⟨-, -, hentries⟩ := readDir_eq_ok hread
      rw [currentTags, hread]
      refine mem_filter.2 ⟨mem_map.2 ⟨(n, .file content), (hentries _ _).2 hget, rfl⟩, ?_⟩
      exact decide_eq_true h

theorem update_steps (hold : Plain oldTags) (hnew : Plain newTags) (hpath : normalizePath raw = .ok path)
    (hcur : ∀ t, t ∈ normalizeTags oldTags ↔ path ∈ tagLines st fs t)
    (h : update st fs raw oldTags newTags = .ok fs') :
    ∃ fs2, (if normalizeTags oldTags = [] ∧ normalizeTags newTags ≠ [] then addTaggedPath st fs2 path
        else if normalizeTags oldTags ≠ [] ∧ normalizeTags newTags = [] then removeTaggedPath st fs2 path
        else .ok fs2) = .ok fs' ∧ fs2.get st.allTaggedPath = fs.get st.allTaggedPath ∧
      ∀ m x, x ∈ tagLines st fs2 m ↔
        (x ∈ tagLines st fs m ∧ x ≠ path) ∨ (m ∈ normalizeTags newTags ∧ x ∈ lineSet path) := by
  obtain ⟨p, hp, h⟩ := bind_eq_ok.1 h
  obtain rfl : path = p := Except.ok.inj (hpath.symm.trans hp)
  obtain ⟨fs0, hmk, h⟩ := bind_eq_ok.1 h
  obtain ⟨fs1, hremove, h⟩ := bind_eq_ok.1 h
  obtain ⟨fs2, hadd, h⟩ := bind_eq_ok.1 h
  have hmk := mapError_eq_ok.1 hmk
  obtain ⟨hed, hmem⟩ := removePaths_ok
    (fun t ht => hold.normalizeTags t (mem_filter.1 ht).1) (mkdirAll_byTagDir hmk) hremove
  obtain ⟨hed', hmem'⟩ := addPaths_ok (fun t ht => hnew.normalizeTags t (mem_filter.1 ht).1)
    (hed.byTagDir (mkdirAll_byTagDir hmk)) hadd
  refine ⟨fs2, h, ?_, fun m x => ?_⟩
  · rw [hed'.allTaggedPath, hed.allTaggedPath, mkdirAll_allTaggedPath hmk]
  have hlines : tagLines st fs0 m = tagLines st fs m := linesAt_congr (mkdirAll_tagFile hmk m)
  rw [hmem', hmem, hlines]
  simp only [mem_filter, decide_eq_true_eq]
  -- a tag that the path keeps is not touched, and then the path is a line
  by_cases hm : m ∈ normalizeTags oldTags
  · have hin := (hcur m).1 hm
    rw [(lineSafe_of_mem_linesAt hin).mem_lineSet_iff]
    simp only [hm]
    by_cases hx : x = path
    · subst hx
      simp [hin]
    · simp [hx]
  · have hout : path ∉ tagLines st fs m := fun hin => hm ((hcur m).2 hin)
    have hx : x ∈ tagLines st fs m → x ≠ path := by
      rintro hx rfl
      exact hout hx
    simp only [hm, not_false_eq_true, and_true, false_and, false_implies]
    rw [and_iff_left_of_imp hx]

/-! ## Queries after sets -/

/-- Every file of a tag can be read. -/
def Readable (st : Store) (fs : FileTree) : Prop :=
  ∀ n node, fs.get (st.tagFile n) = some node → ∃ content, node = .file content ∧ ShortLines content

theorem SameTags.readable (h : SameTags st fs fs') (hr : Readable st fs) : Readable st fs' := by
  intro n node hnode
  rw [h.2] at hnode
  exact hr n node hnode

theorem Edits.readable {new : Str → Prop} (h : Edits st new fs fs')
    (hnew : ∀ l, new l → 0x0a ∉ l ∧ l.length < maxScanTokenSize) (hr : Readable st fs) :
    Readable st fs' := by
  induction h with
  | refl => exact hr
  | tail _ hstep ih =>
    obtain ⟨n, s, -, hw, hs⟩ := hstep
    intro m node hnode
    by_cases hm : m = n
    · subst hm
      rw [hw.file] at hnode
      cases hnode
      refine ⟨_, rfl, shortLines_fileOf fun l hl => ?_⟩
      rcases hs l hl with hin | hin
      · obtain ⟨content, hget, hl⟩ := mem_linesAt.1 hin
        obtain ⟨_, heq, hshort⟩ := ih m _ hget
        cases heq
        exact ⟨(lineSafe_of_mem hl).2.1, hshort.of_mem hl⟩
      · exact hnew l hin
    · rw [hw.tagFile_ne hm] at hnode
      exact ih m node hnode

/-- The last of the calls for `path`, as its normalised tags. -/
def latestSet (calls : List (Str × List Str)) (path : Str) : Option (List Str) :=
  (calls.reverse.find? fun c => (normalizePath c.1).toOption = some path).map fun c => normalizeTags c.2

variable {c : Str × List Str}

theorem latestSet_concat (hpath : normalizePath c.1 = .ok path) (x : Str) :
    latestSet (calls ++ [c]) x = if x = path then some (normalizeTags c.2) else latestSet calls x := by
  unfold latestSet
  rw [reverse_append, reverse_singleton, singleton_append, find?_cons, hpath]
  by_cases hx : x = path
  · subst hx
    simp [Except.toOption]
  · have hne : path ≠ x := Ne.symm hx
    simp [Except.toOption, hx, hne]

/-- A call whose tags have no separators and whose path, unless it has no tags, is a line that fits the
scanner. -/
def SafeCall (c : Str × List Str) : Prop :=
  Plain c.2 ∧ (normalizeTags c.2 ≠ [] →
    ∀ path ∈ (normalizePath c.1).toOption, LineSafe path ∧ path.length < maxScanTokenSize)

instance (c : Str × List Str) : Decidable (SafeCall c) := inferInstanceAs (Decidable (_ ∧ _))

/-- What holds after a sequence of calls. -/
structure Indexed (st : Store) (calls : List (Str × List Str)) (fs : FileTree) : Prop where
  place : fs.get st.byTagDir = some .dir ∨ fs.stat st.byTagDir = .error .notExist
  readable : Readable st fs
  lines : ∀ n x, x ∈ tagLines st fs n ↔ ∃ tags ∈ latestSet calls x, n ∈ tags
  paths : ∀ x tags, latestSet calls x = some tags → ∃ rest, x = 0x2f :: rest

theorem indexed_nil (h : fs.stat st.byTagDir = .error .notExist) : Indexed st [] fs := by
  have hnone : ∀ n, fs.get (st.tagFile n) = none := by
    intro n
    cases hget : fs.get (st.tagFile n) with
    | none => rfl
    | some node =>
      rw [stat_some (fs.closed st.byTagDir n (congrArg Option.isSome hget))] at h
      cases h
  refine ⟨.inr h, fun n node hnode => ?_, fun n x => ?_, fun x tags htags => ?_⟩
  · rw [hnone] at hnode
    cases hnode
  · rw [tagLines, mem_linesAt, hnone]
    simp [latestSet]
  · cases htags

theorem Indexed.set (hI : Indexed st calls fs)
    (hc : SafeCall c) (h : TagIndex.set st fs c.1 c.2 = .ok fs') : Indexed st (calls ++ [c]) fs' := by
  obtain ⟨path, hpath, -⟩ := bind_eq_ok.1 h
  obtain ⟨hplain, hsafe⟩ := hc
  have hsafe : normalizeTags c.2 ≠ [] → LineSafe path ∧ path.length < maxScanTokenSize := fun hne =>
    hsafe hne path (by simp [hpath, Except.toOption])
  obtain ⟨fs0, fs1, fs2, hmk, -, -, hsame, hdir, hed, hed', hmem⟩ := set_steps hplain hpath h
  refine ⟨.inl (hed'.byTagDir (hsame.1.trans hdir)), ?_, fun n x => ?_, fun x tags htags => ?_⟩
  · have h0 : Readable st fs0 := by
      intro n node hnode
      rw [mkdirAll_tagFile hmk] at hnode
      exact hI.readable n node hnode
    have h1 := hed.readable (fun l hl => hl.elim) h0
    refine hed'.readable (fun l hl => ?_) (hsame.readable h1)
    obtain ⟨hne, rfl⟩ := hl
    exact ⟨(hsafe hne).1.2.1, (hsafe hne).2⟩
  · rw [hmem, hI.lines, latestSet_concat hpath]
    by_cases hx : x = path
    · subst hx
      simp only [ne_eq, not_true_eq_false, and_false, false_or]
      constructor
      · rintro ⟨hn, -⟩
        exact ⟨_, rfl, hn⟩
      · rintro ⟨tags, htags, hn⟩
        cases htags
        exact ⟨hn, (hsafe (ne_nil_of_mem hn)).1.mem_lineSet_iff.2 rfl⟩
    · simp only [ne_eq, hx, not_false_eq_true, and_true]
      refine ⟨fun h => h.resolve_right ?_, .inl⟩
      rintro ⟨hn, hin⟩
      exact hx ((hsafe (ne_nil_of_mem hn)).1.mem_lineSet_iff.1 hin)
  · rw [latestSet_concat hpath] at htags
    split at htags
    · rename_i hx
      rw [hx]
      exact normalizePath_ok hpath
    · exact hI.paths x tags htags

theorem Indexed.readLines (hI : Indexed st calls fs) (hv : ValidName n) :
    readLines fs (st.tagFile n) = .ok (tagLines st fs n) := by
  cases hget : fs.get (st.tagFile n) with
  | none =>
    have hstat : fs.stat (st.tagFile n) = .error .notExist := by
      rcases hI.place with hdir | hnone
      · exact stat_child hdir hget hv
      · exact stat_below hnone hv
    rw [readLines_notExist hstat, tagLines, linesAt, hget]
  | some node =>
    obtain ⟨content, rfl, hshort⟩ := hI.readable n node hget
    rw [readLines_file hget hshort, tagLines, linesAt_file hget]

theorem isUnder_iff {under : Str} (hx : ∃ rest, x = 0x2f :: rest) :
    isUnder under x = true ↔ x = under ∨ under ++ ascii "/" <+: x := by
  unfold isUnder
  rw [Bool.or_eq_true, Bool.or_eq_true, isPrefixOf_iff_prefix, beq_iff_eq, beq_iff_eq, or_assoc]
  refine ⟨fun h => h.elim (fun hnil => .inr ?_) id, .inr⟩
  obtain ⟨rest, rfl⟩ := hx
  rw [hnil]
  exact ⟨rest, rfl⟩

/-- **Query.** After any calls of `Set` a query returns, in order and each once, the paths whose last call had the
tag, as far as they lie `under`. -/
theorem query_latest {calls : List (Str × List Str)} (tag under : Str)
    (hfresh : fs.stat st.byTagDir = .error .notExist)
    (hrun : calls.foldlM (fun fs c => TagIndex.set st fs c.1 c.2) fs = .ok fs')
    (hsafe : ∀ c ∈ calls, SafeCall c) (htag : ValidName (trimSpace tag)) :
    ∃ result, query st fs' tag under = .ok result ∧ result.Pairwise (· < ·) ∧
      ∀ x, x ∈ result ↔ (∃ tags ∈ latestSet calls x, trimSpace tag ∈ tags) ∧
        (x = normalizeUnder under ∨ normalizeUnder under ++ ascii "/" <+: x) := by
  have hI : Indexed st calls fs' := foldlM_history (I := Indexed st)
    (fun _ _ _ _ hI hc h => hI.set hc h) (indexed_nil hfresh) (along_of_forall hsafe fs) hrun
  refine ⟨filterAndSort (tagLines st fs' (trimSpace tag)) under, ?_, pairwise_toList _, fun x => ?_⟩
  · rw [query, pathsForTag, Store.tagPath, join_valid htag]
    simp only [if_neg htag.1]
    show (readLines fs' (st.tagFile (trimSpace tag)) >>= _) = _
    rw [hI.readLines htag]
    rfl
  · rw [filterAndSort, mem_toList, SortedSet.mem_filter, hI.lines]
    refine and_congr_right fun hx => ?_
    obtain ⟨tags, htags, -⟩ := hx
    exact isUnder_iff (hI.paths x tags htags)

/-- Two paths with a tag, which one of them loses. -/
theorem query_latest_retagged : ∃ fs' result,
    [(ascii "/p", [ascii "a", ascii "b"]), (ascii "d/q", [ascii "a"]), (ascii "/p", [ascii "b"])].foldlM
      (fun fs c => TagIndex.set idx fs c.1 c.2) FileTree.empty = .ok fs' ∧
    query idx fs' (ascii " a") (ascii "d/") = .ok result ∧ ascii "/d/q" ∈ result := by
  obtain ⟨fs', hrun⟩ := Option.isSome_iff_exists.1 (show
    ([(ascii "/p", [ascii "a", ascii "b"]), (ascii "d/q", [ascii "a"]), (ascii "/p", [ascii "b"])].foldlM
      (fun fs c => set idx fs c.1 c.2) empty).toOption.isSome
    from by decide +kernel)
  have hrun := toOption_eq_some.1 hrun
  obtain ⟨result, hquery, -, hmem⟩ := query_latest (ascii " a") (ascii "d/")
    (by decide +kernel) hrun (by decide +kernel) (by decide +kernel)
  refine ⟨fs', result, hrun, hquery, (hmem _).2 ⟨⟨[ascii "a"], ?_, ?_⟩, .inr ?_⟩⟩
  · decide +kernel
  · decide +kernel
  · exact isPrefixOf_iff_prefix.1 (by decide +kernel)

/-- A tag with a separator stays after the path has lost all its tags: its file is in a directory that the
next `Set` passes over. -/
theorem query_stale : ∃ fs',
    [(ascii "/p", [ascii "a/b"]), (ascii "/p", [])].foldlM
      (fun fs c => TagIndex.set idx fs c.1 c.2) FileTree.empty = .ok fs' ∧
    latestSet [(ascii "/p", [ascii "a/b"]), (ascii "/p", [])] (ascii "/p") = some [] ∧
    query idx fs' (ascii "a/b") [] = .ok [ascii "/p"] := by
  obtain ⟨fs', hrun⟩ := Option.isSome_iff_exists.1 (show
    ([(ascii "/p", [ascii "a/b"]), (ascii "/p", [])].foldlM
      (fun fs c => set idx fs c.1 c.2) empty).toOption.isSome
    from by decide +kernel)
  have hquery : ([(ascii "/p", [ascii "a/b"]), (ascii "/p", [])].foldlM
      (fun fs c => set idx fs c.1 c.2) empty).toOption.bind
      (fun fs' => (query idx fs' (ascii "a/b") []).toOption) = some [ascii "/p"] := by
    decide +kernel
  rw [hrun] at hquery
  exact ⟨fs', toOption_eq_some.1 hrun, by decide +kernel, toOption_eq_some.1 hquery⟩

end TagIndex
