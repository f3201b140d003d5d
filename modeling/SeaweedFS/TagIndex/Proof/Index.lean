import SeaweedFS.TagIndex.Proof.Lines

/-!
# What the calls do to the index

A tag without separators has a file of its own in `by-tag` (`Store.tagFile`); `tagLines` is what it holds. The
files change by edits (`Edits`): one is written with lines it had and new ones of a given kind.
-/

namespace TagIndex

open Lib Util List FileTree SortedSet

variable {st : Store} {fs fs' : FileTree} {n m tag : Name} {s : Paths} {path x : Str}

variable {tags : List Str} {new : Str → Prop}

/-- The file of a tag without separators. -/
def Store.tagFile (st : Store) (n : Name) : Path := st.byTagDir ++ [n]

/-- What the file of a tag holds. -/
def tagLines (st : Store) (fs : FileTree) (n : Name) : Paths := linesAt fs (st.tagFile n)

/-- Some tag holds `x`. -/
def Tagged (st : Store) (fs : FileTree) (x : Str) : Prop := ∃ n, x ∈ tagLines st fs n

/-! ## Places -/

theorem join_plain {base : Path} (hslash : 0x2f ∉ n) (hne : n ≠ []) (hdot : n ≠ ascii ".")
    (hdots : n ≠ ascii "..") : join base n = base ++ [n] := by
  rw [join, splitOn_of_not_mem hslash, foldl_cons, foldl_nil, if_neg (by simp [hne, hdot]),
    if_neg hdots]

theorem join_valid {base : Path} (h : ValidName n) : join base n = base ++ [n] :=
  join_plain h.2.2.2.1 h.1 h.2.1 h.2.2.1

theorem dropLast_tagFile : (st.tagFile n).dropLast = st.byTagDir := dropLast_concat

theorem dropLast_byTagDir : st.byTagDir.dropLast = st.root := dropLast_concat

theorem dropLast_allTaggedPath : st.allTaggedPath.dropLast = st.root := dropLast_concat

theorem tagFile_inj (h : st.tagFile m = st.tagFile n) : m = n := by
  have := (append_inj' h rfl).2
  exact (cons.inj this).1

theorem tagFile_not_prefix_byTagDir : ¬ st.tagFile n <+: st.byTagDir := by
  intro h
  have := h.length_le
  simp [Store.tagFile] at this

theorem tagFile_not_prefix_root : ¬ st.tagFile n <+: st.root := by
  intro h
  have := h.length_le
  simp [Store.tagFile, Store.byTagDir] at this

theorem tagFile_ne_allTaggedPath : st.tagFile n ≠ st.allTaggedPath := by
  intro h
  have := congrArg length h
  simp [Store.tagFile, Store.byTagDir, Store.allTaggedPath] at this

theorem allTaggedPath_not_prefix : ¬ st.allTaggedPath <+: st.byTagDir := by
  intro h
  have := h.eq_of_length (by simp [Store.allTaggedPath, Store.byTagDir])
  exact absurd (append_inj' this rfl).2 (by decide)

/-! ## One file is written -/

section

variable (h : Wrote fs fs' (st.tagFile n) s)
include h

theorem Wrote.tagFile_ne (hm : m ≠ n) : fs'.get (st.tagFile m) = fs.get (st.tagFile m) :=
  h.same _ (fun heq => hm (tagFile_inj heq)) (by rw [dropLast_tagFile]; exact tagFile_not_prefix_byTagDir)

theorem Wrote.allTaggedPath : fs'.get st.allTaggedPath = fs.get st.allTaggedPath :=
  h.same _ (Ne.symm tagFile_ne_allTaggedPath) (by rw [dropLast_tagFile]; exact allTaggedPath_not_prefix)

theorem Wrote.byTagDir : fs'.get st.byTagDir = some .dir :=
  h.dirs _ (by rw [dropLast_tagFile])

omit h in
theorem Wrote.tagFile_of_all (h : Wrote fs fs' st.allTaggedPath s) (n : Name) :
    fs'.get (st.tagFile n) = fs.get (st.tagFile n) :=
  h.same _ tagFile_ne_allTaggedPath (by rw [dropLast_allTaggedPath]; exact tagFile_not_prefix_root)

omit h in
theorem Wrote.byTagDir_of_all (h : Wrote fs fs' st.allTaggedPath s) :
    fs'.get st.byTagDir = fs.get st.byTagDir := by
  refine h.same _ (fun heq => ?_) fun hpre => ?_
  · exact absurd (append_inj' heq rfl).2 (by decide)
  · rw [dropLast_allTaggedPath] at hpre
    have := hpre.length_le
    simp [Store.byTagDir] at this

theorem mem_tagLines_wrote :
    x ∈ tagLines st fs' m ↔ if m = n then x ∈ lineSet (fileOf s) else x ∈ tagLines st fs m := by
  split
  · rename_i heq
    rw [heq, tagLines, h.linesAt_eq]
  · rename_i hne
    rw [tagLines, tagLines, linesAt_congr (h.tagFile_ne hne)]

end

/-- One file of a tag is written, with lines it had and new ones. -/
def Edit (st : Store) (new : Str → Prop) (fs fs' : FileTree) : Prop :=
  ∃ n s, fs.get (st.tagFile n) ≠ some .dir ∧ Wrote fs fs' (st.tagFile n) s ∧
    ∀ l ∈ s, l ∈ tagLines st fs n ∨ new l

/-- Files of tags are written, one after the other. -/
def Edits (st : Store) (new : Str → Prop) : FileTree → FileTree → Prop :=
  Relation.ReflTransGen (Edit st new)

theorem Edits.mono {new' : Str → Prop} (hnew : ∀ l, new l → new' l) (h : Edits st new fs fs') :
    Edits st new' fs fs' := by
  refine Relation.ReflTransGen.mono ?_ _ _ h
  rintro a b ⟨n, s, hdir, hw, hs⟩
  exact ⟨n, s, hdir, hw, fun l hl => (hs l hl).imp_right (hnew l)⟩

theorem Edits.byTagDir (h : Edits st new fs fs') (hdir : fs.get st.byTagDir = some .dir) :
    fs'.get st.byTagDir = some .dir := by
  induction h with
  | refl => exact hdir
  | tail _ hstep _ =>
    obtain ⟨n, s, -, hw, -⟩ := hstep
    exact hw.byTagDir

theorem Edits.allTaggedPath (h : Edits st new fs fs') :
    fs'.get st.allTaggedPath = fs.get st.allTaggedPath := by
  induction h with
  | refl => rfl
  | tail _ hstep ih =>
    obtain ⟨n, s, -, hw, -⟩ := hstep
    rw [hw.allTaggedPath, ih]

theorem Edits.tagDir (h : Edits st new fs fs') (hdir : fs.get (st.tagFile m) = some .dir) :
    fs'.get (st.tagFile m) = some .dir := by
  induction h with
  | refl => exact hdir
  | tail _ hstep ih =>
    obtain ⟨n, s, hn, hw, -⟩ := hstep
    rw [hw.tagFile_ne, ih]
    rintro rfl
    exact hn ih

/-! ## A path is taken out of every tag -/

theorem edits_removeLine (h : removeLine fs (st.tagFile n) path = .ok fs') : Edits st (fun _ => False) fs fs' := by
  obtain ⟨hdir, ⟨-, rfl⟩ | ⟨-, hw⟩⟩ := removeLine_ok h
  · exact .refl
  · exact .single ⟨n, _, hdir, hw, fun l hl => .inl (mem_erase.1 hl).1⟩

theorem mem_tagLines_removeLine (h : removeLine fs (st.tagFile n) path = .ok fs') :
    x ∈ tagLines st fs' m ↔ x ∈ tagLines st fs m ∧ (m = n → x ≠ path) := by
  by_cases hm : m = n
  · subst hm
    simp only [true_implies]
    exact mem_linesAt_removeLine h
  · simp only [hm, false_implies, and_true]
    obtain ⟨-, ⟨-, rfl⟩ | ⟨-, hw⟩⟩ := removeLine_ok h
    · rfl
    · rw [mem_tagLines_wrote hw, if_neg hm]

theorem removeFromEntry_ok {entry : Name × Node} (hv : ValidName entry.1)
    (hdir : entry.2 = .dir → fs.get (st.tagFile entry.1) = some .dir)
    (h : removeFromEntry st path fs entry = .ok fs') : Edits st (fun _ => False) fs fs' ∧
      ∀ m x, x ∈ tagLines st fs' m ↔ x ∈ tagLines st fs m ∧ (m = entry.1 → x ≠ path) := by
  unfold removeFromEntry at h
  split at h
  · rename_i hd
    cases h
    refine ⟨.refl, fun m x => ⟨fun hx => ⟨hx, ?_⟩, And.left⟩⟩
    rintro rfl
    obtain ⟨content, hget, -⟩ := mem_linesAt.1 hx
    rw [hdir hd] at hget
    cases hget
  · rw [join_valid hv] at h
    exact ⟨edits_removeLine h, fun m x => mem_tagLines_removeLine h⟩

variable {entries : List (Name × Node)}

theorem removeFromEntries_ok (hv : ∀ e ∈ entries, ValidName e.1)
    (hdir : ∀ e ∈ entries, e.2 = .dir → fs.get (st.tagFile e.1) = some .dir)
    (h : entries.foldlM (removeFromEntry st path) fs = .ok fs') : Edits st (fun _ => False) fs fs' ∧
      ∀ m x, x ∈ tagLines st fs' m ↔ x ∈ tagLines st fs m ∧ (m ∈ entries.map Prod.fst → x ≠ path) := by
  induction entries generalizing fs with
  | nil =>
    cases h
    exact ⟨.refl, by simp⟩
  | cons e entries ih =>
    obtain ⟨fs1, hstep, hrest⟩ := bind_eq_ok.1 h
    obtain ⟨hed, hmem⟩ := removeFromEntry_ok (hv e mem_cons_self) (hdir e mem_cons_self) hstep
    obtain ⟨hed', hmem'⟩ := ih (fun e' he' => hv e' (.tail _ he'))
      (fun e' he' hd => hed.tagDir (hdir e' (.tail _ he') hd)) hrest
    refine ⟨hed.trans hed', fun m x => ?_⟩
    rw [hmem', hmem, and_assoc, map_cons, mem_cons]
    exact and_congr_right fun _ => or_imp.symm

theorem removePathFromAllTags_ok (h : removePathFromAllTags st fs path = .ok fs') :
    Edits st (fun _ => False) fs fs' ∧ ∀ m x, x ∈ tagLines st fs' m ↔ x ∈ tagLines st fs m ∧ x ≠ path := by
  unfold removePathFromAllTags at h
  split at h
  · rename_i hread
    cases h
    refine ⟨.refl, fun m x => ⟨fun hx => ?_, And.left⟩⟩
    -- without `by-tag` there is no file of a tag
    obtain ⟨content, hget, -⟩ := mem_linesAt.1 hx
    have hdir := fs.closed st.byTagDir m (congrArg Option.isSome hget)
    simp [readDir, stat_some hdir] at hread
  · cases h
  · rename_i entries hread
    obtain ⟨-, -, hentries⟩ := readDir_eq_ok hread
    obtain ⟨hed, hmem⟩ := removeFromEntries_ok
      (fun e he => fs.valid st.byTagDir e.1 (congrArg Option.isSome ((hentries e.1 e.2).1 he)))
      (fun e he hd => ((hentries e.1 e.2).1 he).trans (congrArg some hd)) h
    refine ⟨hed, fun m x => ?_⟩
    rw [hmem]
    refine and_congr_right fun hx => ⟨fun hne => hne ?_, fun hne _ => hne⟩
    obtain ⟨content, hget, -⟩ := mem_linesAt.1 hx
    exact mem_map.2 ⟨(m, .file content), (hentries _ _).2 hget, rfl⟩

/-! ## The path is added to tags, or taken out of them -/

theorem tagPath_of_readLines (hslash : 0x2f ∉ tag) (hne : tag ≠ [])
    (hdir : fs.get st.byTagDir = some .dir) (h : readLines fs (st.tagPath tag) = .ok s) :
    st.tagPath tag = st.tagFile tag := by
  have hread := (readLines_ok h).2
  refine join_plain hslash hne ?_ ?_
  · rintro rfl
    exact hread hdir
  · rintro rfl
    have hroot : fs.get st.root = some .dir := get_dir_above (prefix_append _ _) hdir
    refine hread (Eq.trans ?_ hroot)
    rw [Store.tagPath, join, show (ascii "..").splitOn 0x2f = [ascii ".."] from by decide,
      foldl_cons, foldl_nil, if_neg (by decide), if_pos rfl, dropLast_byTagDir]

theorem addPath_ok (hslash : 0x2f ∉ tag) (hne : tag ≠ []) (hdir : fs.get st.byTagDir = some .dir)
    (h : addPath st path fs tag = .ok fs') : Edit st (· = path) fs fs' ∧
      ∀ m x, x ∈ tagLines st fs' m ↔ x ∈ tagLines st fs m ∨ (m = tag ∧ x ∈ lineSet path) := by
  obtain ⟨paths, hread, hwrite⟩ := bind_eq_ok.1 h
  have hplace := tagPath_of_readLines hslash hne hdir hread
  rw [hplace] at hread hwrite
  obtain ⟨rfl, hnd⟩ := readLines_ok hread
  have hw := writeLines_ok hwrite
  constructor
  · exact ⟨tag, _, hnd, hw, fun l hl => (mem_add.1 hl).symm⟩
  · intro m x
    rw [mem_tagLines_wrote hw]
    split
    · rename_i heq
      subst heq
      rw [mem_lineSet_fileOf_add fun l hl => lineSafe_of_mem_linesAt hl]
      simp only [true_and]
      rfl
    · rename_i hm
      simp only [hm, false_and, or_false]

theorem addPaths_ok (htags : ∀ t ∈ tags, 0x2f ∉ t ∧ t ≠ [])
    (hdir : fs.get st.byTagDir = some .dir) (h : tags.foldlM (addPath st path) fs = .ok fs') :
    Edits st (fun l => tags ≠ [] ∧ l = path) fs fs' ∧
      ∀ m x, x ∈ tagLines st fs' m ↔ x ∈ tagLines st fs m ∨ (m ∈ tags ∧ x ∈ lineSet path) := by
  induction tags generalizing fs with
  | nil =>
    cases h
    exact ⟨.refl, by simp⟩
  | cons tag tags ih =>
    obtain ⟨fs1, hstep, hrest⟩ := bind_eq_ok.1 h
    obtain ⟨hslash, hne⟩ := htags tag mem_cons_self
    obtain ⟨hed, hmem⟩ := addPath_ok hslash hne hdir hstep
    obtain ⟨hed', hmem'⟩ := ih (fun t ht => htags t (.tail _ ht))
      (Edits.byTagDir (.single hed) hdir) hrest
    refine ⟨?_, fun m x => ?_⟩
    · have hed : Edits st (fun l => tag :: tags ≠ [] ∧ l = path) fs fs1 :=
        Edits.mono (fun l hl => ⟨cons_ne_nil tag tags, hl⟩) (.single hed)
      exact hed.trans (hed'.mono fun l hl => ⟨cons_ne_nil tag tags, hl.2⟩)
    rw [hmem', hmem, or_assoc, mem_cons, or_and_right]

theorem removePaths_ok (htags : ∀ t ∈ tags, 0x2f ∉ t ∧ t ≠ [])
    (hdir : fs.get st.byTagDir = some .dir) (h : tags.foldlM (removePath st path) fs = .ok fs') :
    Edits st (fun _ => False) fs fs' ∧
      ∀ m x, x ∈ tagLines st fs' m ↔ x ∈ tagLines st fs m ∧ (m ∈ tags → x ≠ path) := by
  induction tags generalizing fs with
  | nil =>
    cases h
    exact ⟨.refl, by simp⟩
  | cons tag tags ih =>
    obtain ⟨fs1, hstep, hrest⟩ := bind_eq_ok.1 h
    obtain ⟨hslash, hne⟩ := htags tag mem_cons_self
    obtain ⟨paths, hread, -⟩ := bind_eq_ok.1 hstep
    rw [removePath, tagPath_of_readLines hslash hne hdir hread] at hstep
    have hed := edits_removeLine hstep
    obtain ⟨hed', hmem'⟩ := ih (fun t ht => htags t (.tail _ ht)) (hed.byTagDir hdir) hrest
    refine ⟨hed.trans hed', fun m x => ?_⟩
    rw [hmem', mem_tagLines_removeLine hstep, and_assoc, mem_cons]
    exact and_congr_right fun _ => or_imp.symm

/-! ## All tagged paths -/

theorem addEntries_ok {paths : Paths}
    (hentries : ∀ e ∈ entries, ValidName e.1 ∧ fs.get (st.tagFile e.1) = some e.2)
    (h : entries.foldlM (addEntry st fs) paths = .ok s) :
    ∀ x, x ∈ s ↔ x ∈ paths ∨ ∃ n ∈ entries.map Prod.fst, x ∈ tagLines st fs n := by
  induction entries generalizing paths with
  | nil =>
    cases h
    simp
  | cons e entries ih =>
    obtain ⟨paths1, hstep, hrest⟩ := bind_eq_ok.1 h
    obtain ⟨hv, hget⟩ := hentries e mem_cons_self
    have hmem : ∀ x, x ∈ paths1 ↔ x ∈ paths ∨ x ∈ tagLines st fs e.1 := by
      intro x
      unfold addEntry at hstep
      split at hstep
      · rename_i hd
        cases hstep
        refine ⟨.inl, fun hx => hx.resolve_right fun hx => ?_⟩
        obtain ⟨content, hfile, -⟩ := mem_linesAt.1 hx
        rw [hget, hd] at hfile
        cases hfile
      · obtain ⟨tagPaths, hread, hret⟩ := bind_eq_ok.1 hstep
        rw [join_valid hv] at hread
        obtain ⟨rfl, -⟩ := readLines_ok hread
        cases hret
        rw [mem_addAll, mem_toList, or_comm]
        rfl
    intro x
    rw [ih (fun e' he' => hentries e' (.tail _ he')) hrest, hmem, or_assoc, map_cons]
    simp

theorem allPaths_ok (h : allPaths st fs = .ok s) : ∀ x, x ∈ s ↔ Tagged st fs x := by
  unfold allPaths at h
  split at h
  · rename_i hread
    cases h
    refine fun x => ⟨fun hx => absurd hx (not_mem_empty x), ?_⟩
    rintro ⟨n, hx⟩
    obtain ⟨content, hget, -⟩ := mem_linesAt.1 hx
    have hdir := fs.closed st.byTagDir n (congrArg Option.isSome hget)
    simp [readDir, stat_some hdir] at hread
  · cases h
  · rename_i entries hread
    obtain ⟨-, -, hentries⟩ := readDir_eq_ok hread
    have hmem := addEntries_ok (fun e he => ⟨fs.valid st.byTagDir e.1
      (congrArg Option.isSome ((hentries e.1 e.2).1 he)), (hentries e.1 e.2).1 he⟩) h
    intro x
    rw [hmem]
    constructor
    · rintro (hx | ⟨n, -, hx⟩)
      · exact absurd hx (not_mem_empty x)
      · exact ⟨n, hx⟩
    · rintro ⟨n, hx⟩
      obtain ⟨content, hget, -⟩ := mem_linesAt.1 hx
      exact .inr ⟨n, mem_map.2 ⟨(n, .file content), (hentries _ _).2 hget, rfl⟩, hx⟩

section

variable (h : allTaggedPaths st fs = .ok (s, fs'))
include h

theorem allTaggedPaths_ok :
    (fs' = fs ∧ ∃ content, fs.get st.allTaggedPath = some (.file content) ∧ s = lineSet content) ∨
      (fs.get st.allTaggedPath = none ∧ (∀ x, x ∈ s ↔ Tagged st fs x) ∧
        Wrote fs fs' st.allTaggedPath s) := by
  unfold allTaggedPaths at h
  split at h
  · rename_i hstat
    obtain ⟨paths, hall, h⟩ := bind_eq_ok.1 h
    obtain ⟨fs1, hwrite, hret⟩ := bind_eq_ok.1 h
    cases hret
    exact .inr ⟨(stat_eq_notExist.1 hstat).1, allPaths_ok hall, writeLines_ok hwrite⟩
  · cases h
  · rename_i node hstat
    obtain ⟨paths, hread, hret⟩ := bind_eq_ok.1 h
    cases hret
    obtain ⟨rfl, hdir⟩ := readLines_ok hread
    refine .inl ⟨rfl, ?_⟩
    cases hget : fs.get st.allTaggedPath with
    | none =>
      obtain ⟨e, he⟩ := stat_none hget
      rw [he] at hstat
      cases hstat
    | some node =>
      cases node with
      | dir => exact absurd hget hdir
      | file content => exact ⟨content, rfl, linesAt_file hget⟩

theorem allTaggedPaths_tagFile (n : Name) : fs'.get (st.tagFile n) = fs.get (st.tagFile n) := by
  rcases allTaggedPaths_ok h with ⟨rfl, -⟩ | ⟨-, -, hw⟩
  · rfl
  · exact hw.tagFile_of_all n

theorem allTaggedPaths_byTagDir : fs'.get st.byTagDir = fs.get st.byTagDir := by
  rcases allTaggedPaths_ok h with ⟨rfl, -⟩ | ⟨-, -, hw⟩
  · rfl
  · exact hw.byTagDir_of_all

theorem lineSafe_of_mem_allTaggedPaths (hx : x ∈ s) : LineSafe x := by
  rcases allTaggedPaths_ok h with ⟨-, content, -, rfl⟩ | ⟨-, hmem, -⟩
  · exact lineSafe_of_mem hx
  · obtain ⟨n, hn⟩ := (hmem x).1 hx
    exact lineSafe_of_mem_linesAt hn

theorem allTaggedPaths_file :
    ∃ content, fs'.get st.allTaggedPath = some (.file content) ∧ lineSet content = s := by
  rcases allTaggedPaths_ok h with ⟨rfl, content, hget, rfl⟩ | ⟨-, hmem, hw⟩
  · exact ⟨content, hget, rfl⟩
  · exact ⟨_, hw.file, lineSet_fileOf fun l hl => lineSafe_of_mem_allTaggedPaths h hl⟩

end

/-! ## Arguments -/

theorem mem_normalizeTags {t : Str} :
    t ∈ normalizeTags tags ↔ t ≠ [] ∧ ∃ raw ∈ tags, trimSpace raw = t := by
  rw [normalizeTags, mem_toList, mem_ofList, mem_filter, mem_map, decide_eq_true_eq]
  exact and_comm

/-- Tags without separators. -/
def Plain (tags : List Str) : Prop := ∀ t ∈ tags, 0x2f ∉ t

instance (tags : List Str) : Decidable (Plain tags) := inferInstanceAs (Decidable (∀ _ ∈ _, _))

theorem Plain.normalizeTags (h : Plain tags) : ∀ t ∈ normalizeTags tags, 0x2f ∉ t ∧ t ≠ [] := by
  intro t ht
  obtain ⟨hne, raw, hraw, rfl⟩ := mem_normalizeTags.1 ht
  exact ⟨fun hmem => h raw hraw (mem_of_mem_trimSpace hmem), hne⟩

theorem normalizePath_ok {raw : Str} (h : normalizePath raw = .ok path) : ∃ rest, path = 0x2f :: rest := by
  unfold normalizePath at h
  split at h
  · cases h
  · split at h
    · rename_i hpre
      cases h
      obtain ⟨rest, rfl⟩ := isPrefixOf_iff_prefix.1 hpre
      exact ⟨rest, rfl⟩
    · cases h
      exact ⟨raw, rfl⟩

abbrev idx : Store := ⟨[ascii "idx"]⟩

end TagIndex
