import SeaweedFS.TagIndex.Proof.Set

/-!
# The file of all tagged paths

`Set` edits it after a scan of all tags, `Update` only when the path gains its first tag or loses its last one,
`RebuildAllTagged` makes it anew. It stays the union of what the tags hold (`Consistent`).
-/

namespace TagIndex

open Lib Util List

variable {st : Store} {fs fs' : FileTree} {s : Paths} {path x raw : Str} {tags oldTags newTags : List Str}

/-- If the file is there, it holds exactly the tagged paths. -/
def Consistent (st : Store) (fs : FileTree) : Prop :=
  ∀ content, fs.get st.allTaggedPath = some (.file content) → ∀ x, x ∈ lineSet content ↔ Tagged st fs x

variable {P : Str → Prop}

theorem AllTagged.consistent (h : AllTagged st fs P) (hP : ∀ x, P x ↔ Tagged st fs x) :
    Consistent st fs := by
  obtain ⟨content, hget, hlines⟩ := h
  intro content' hget'
  rw [hget] at hget'
  cases hget'
  exact fun x => (hlines x).trans (hP x)

theorem tagged_iff (hmem : ∀ m x, x ∈ tagLines st fs' m ↔
      (x ∈ tagLines st fs m ∧ x ≠ path) ∨ (m ∈ tags ∧ x ∈ lineSet path)) (x : Str) :
    Tagged st fs' x ↔ (Tagged st fs x ∧ x ≠ path) ∨ (tags ≠ [] ∧ x ∈ lineSet path) := by
  constructor
  · rintro ⟨m, hm⟩
    rcases (hmem m x).1 hm with ⟨hin, hne⟩ | ⟨hin, hx⟩
    · exact .inl ⟨⟨m, hin⟩, hne⟩
    · exact .inr ⟨ne_nil_of_mem hin, hx⟩
  · rintro (⟨⟨m, hin⟩, hne⟩ | ⟨hne, hx⟩)
    · exact ⟨m, (hmem m x).2 (.inl ⟨hin, hne⟩)⟩
    · obtain ⟨m, hm⟩ := exists_mem_of_ne_nil tags hne
      exact ⟨m, (hmem m x).2 (.inr ⟨hm, hx⟩)⟩

theorem Consistent.allTaggedPaths {fs1 fs2 : FileTree} (hC : Consistent st fs)
    (hfile : fs1.get st.allTaggedPath = fs.get st.allTaggedPath)
    (h : TagIndex.allTaggedPaths st fs1 = .ok (s, fs2)) :
    (∀ x, x ∈ s ↔ Tagged st fs x) ∨ ∀ x, x ∈ s ↔ Tagged st fs1 x := by
  rcases allTaggedPaths_ok h with ⟨-, content, hget, rfl⟩ | ⟨-, hmem, -⟩
  · exact .inl (hC content (hfile.symm.trans hget))
  · exact .inr hmem

theorem Tagged.lineSafe (h : Tagged st fs x) : LineSafe x := by
  obtain ⟨n, hn⟩ := h
  exact lineSafe_of_mem_linesAt hn

theorem add_iff (hs : ∀ x ∈ s, LineSafe x) (hP : ∀ x, x ≠ path → (x ∈ s ↔ P x)) (x : Str) :
    (x ∈ s ∨ x ∈ lineSet path) ↔ (P x ∧ x ≠ path) ∨ x ∈ lineSet path := by
  by_cases hx : x = path
  · subst hx
    simp only [ne_eq, not_true_eq_false, and_false, false_or, or_iff_right_iff_imp]
    exact fun hin => (hs x hin).mem_lineSet_iff.2 rfl
  · simp [hx, hP x hx]

theorem Consistent.set (hC : Consistent st fs) (hplain : Plain tags) (h : TagIndex.set st fs raw tags = .ok fs') :
    Consistent st fs' := by
  obtain ⟨path, hpath, -⟩ := bind_eq_ok.1 h
  obtain ⟨fs0, fs1, fs2, hmk, hremove, htagged, -, -, hed, hed', hmem⟩ := set_steps hplain hpath h
  have hafter := tagged_iff hmem
  have hfile : fs1.get st.allTaggedPath = fs.get st.allTaggedPath := by
    rw [hed.allTaggedPath, mkdirAll_allTaggedPath hmk]
  -- apart from the path, nothing has changed when the file is read
  have hbefore : ∀ x, Tagged st fs1 x ↔ Tagged st fs x ∧ x ≠ path := by
    intro x
    have hmk' : ∀ n, tagLines st fs0 n = tagLines st fs n := fun n => linesAt_congr (mkdirAll_tagFile hmk n)
    simp only [Tagged, (removePathFromAllTags_ok hremove).2, hmk', exists_and_right]
  have hs : ∀ {s fs3}, TagIndex.allTaggedPaths st fs1 = .ok (s, fs3) →
      ∀ x, x ≠ path → (x ∈ s ↔ Tagged st fs x) := by
    intro s fs3 hall x hx
    rcases hC.allTaggedPaths hfile hall with hmem | hmem
    · exact hmem x
    · rw [hmem, hbefore, and_iff_left hx]
  have hlift : ∀ {P : Str → Prop}, AllTagged st fs2 P → AllTagged st fs' P := by
    rintro P ⟨content, hget, hlines⟩
    exact ⟨content, hed'.allTaggedPath.trans hget, hlines⟩
  split at htagged
  · rename_i hnil
    obtain ⟨s, fs3, hall, -, hA⟩ := removeTaggedPath_ok htagged
    refine (hlift hA).consistent fun x => ?_
    rw [hafter]
    simp only [hnil, ne_eq, not_true_eq_false, false_and, or_false]
    exact and_congr_left fun hx => hs hall x hx
  · rename_i hne
    obtain ⟨s, fs3, hall, -, hA⟩ := addTaggedPath_ok htagged
    refine (hlift hA).consistent fun x => ?_
    rw [hafter, add_iff (fun x hx => lineSafe_of_mem_allTaggedPaths hall hx) (hs hall)]
    simp only [ne_eq, hne, not_false_eq_true, true_and]

theorem SameTags.tagged (h : SameTags st fs fs') (x : Str) : Tagged st fs' x ↔ Tagged st fs x := by
  simp only [Tagged, h.tagLines_eq]

theorem Consistent.update (hC : Consistent st fs) (hold : Plain oldTags) (hnew : Plain newTags)
    (hcur : ∀ path ∈ (normalizePath raw).toOption,
      ∀ t, t ∈ normalizeTags oldTags ↔ path ∈ tagLines st fs t)
    (h : TagIndex.update st fs raw oldTags newTags = .ok fs') : Consistent st fs' := by
  obtain ⟨path, hpath, -⟩ := bind_eq_ok.1 h
  have hcur := hcur path (by simp [hpath, Except.toOption])
  obtain ⟨fs2, htagged, hfile, hmem⟩ := update_steps hold hnew hpath hcur h
  have hafter := tagged_iff hmem
  have hpath_old : normalizeTags oldTags ≠ [] ↔ Tagged st fs path := by
    constructor
    · intro hne
      obtain ⟨t, ht⟩ := exists_mem_of_ne_nil _ hne
      exact ⟨t, (hcur t).1 ht⟩
    · rintro ⟨t, ht⟩
      exact ne_nil_of_mem ((hcur t).2 ht)
  split at htagged
  · rename_i hgain
    obtain ⟨s, fs3, hall, hsame, hA⟩ := addTaggedPath_ok htagged
    refine hA.consistent fun x => ?_
    rw [hsame.tagged, hafter]
    have hout : ¬ Tagged st fs path := fun hin => hpath_old.2 hin hgain.1
    have hx : Tagged st fs x → x ≠ path := by
      rintro hx rfl
      exact hout hx
    rcases hC.allTaggedPaths hfile hall with hmem | hmem
    · rw [hmem, and_iff_left_of_imp hx]
      simp only [hgain.2, ne_eq, not_false_eq_true, true_and]
    · rw [hmem, hafter]
      simp only [hgain.2, ne_eq, not_false_eq_true, true_and, or_assoc, or_self]
  · split at htagged
    · rename_i hlose
      obtain ⟨s, fs3, hall, hsame, hA⟩ := removeTaggedPath_ok htagged
      refine hA.consistent fun x => ?_
      rw [hsame.tagged, hafter]
      simp only [hlose.2, ne_eq, not_true_eq_false, false_and, or_false]
      rcases hC.allTaggedPaths hfile hall with hmem | hmem
      · rw [hmem]
      · rw [hmem, hafter]
        simp only [hlose.2, ne_eq, not_true_eq_false, false_and, or_false, and_assoc, and_self]
    · rename_i hgain hlose
      cases htagged
      intro content hget x
      rw [hC content (hfile.symm.trans hget) x, hafter]
      by_cases hempty : normalizeTags oldTags = []
      · -- no tags before and after
        have hnil : normalizeTags newTags = [] := by
          by_contra hne
          exact hgain ⟨hempty, hne⟩
        have hx : Tagged st fs x → x ≠ path := by
          rintro hx rfl
          exact hpath_old.2 hx hempty
        simp only [hnil, ne_eq, not_true_eq_false, false_and, or_false]
        exact (and_iff_left_of_imp hx).symm
      · -- the path stays
        have hne : normalizeTags newTags ≠ [] := fun hnil => hlose ⟨hempty, hnil⟩
        have hin := hpath_old.1 hempty
        rw [hin.lineSafe.mem_lineSet_iff]
        by_cases hx : x = path
        · subst hx
          simp [hin, hne]
        · simp [hx]

theorem consistent_rebuildAllTagged (h : rebuildAllTagged st fs = .ok fs') : Consistent st fs' := by
  obtain ⟨paths, hall, hwrite⟩ := bind_eq_ok.1 h
  have hmem := allPaths_ok hall
  have hw := writeLines_ok hwrite
  refine AllTagged.consistent ⟨_, hw.file, fun x => Iff.rfl⟩ fun x => ?_
  rw [hw.sameTags.tagged, lineSet_fileOf fun l hl => ((hmem l).1 hl).lineSafe]
  exact hmem x

/-! ## Runs -/

/-- A call that changes the index. -/
inductive Call where
  | set (path : Str) (tags : List Str)
  | update (path : Str) (oldTags newTags : List Str)
  | rebuildAllTagged

def Call.run (st : Store) (fs : FileTree) : Call → Except Err FileTree
  | .set path tags => TagIndex.set st fs path tags
  | .update path oldTags newTags => TagIndex.update st fs path oldTags newTags
  | .rebuildAllTagged => TagIndex.rebuildAllTagged st fs

/-- The tags have no separators, and an update is given the tags that the path has in the index. -/
def Call.Admissible (st : Store) (fs : FileTree) : Call → Prop
  | .set _ tags => Plain tags
  | .update raw oldTags newTags =>
    Plain oldTags ∧ Plain newTags ∧ ∀ path ∈ (normalizePath raw).toOption,
      (∀ t ∈ normalizeTags oldTags, t ∈ currentTags st fs path) ∧
        ∀ t ∈ currentTags st fs path, t ∈ normalizeTags oldTags
  | .rebuildAllTagged => True

instance (st : Store) (fs : FileTree) : (c : Call) → Decidable (c.Admissible st fs)
  | .set _ _ => inferInstanceAs (Decidable (Plain _))
  | .update _ _ _ => inferInstanceAs (Decidable (_ ∧ _))
  | .rebuildAllTagged => inferInstanceAs (Decidable True)

theorem Consistent.call {c : Call} (hC : Consistent st fs) (hc : c.Admissible st fs)
    (h : c.run st fs = .ok fs') : Consistent st fs' := by
  cases c with
  | set path tags => exact hC.set hc h
  | update raw oldTags newTags =>
    obtain ⟨hold, hnew, hcur⟩ := hc
    refine hC.update hold hnew (fun path hpath t => ?_) h
    obtain ⟨h1, h2⟩ := hcur path hpath
    rw [← mem_currentTags]
    exact ⟨h1 t, h2 t⟩
  | rebuildAllTagged => exact consistent_rebuildAllTagged h

/-- **All tagged.** After any calls, the file of all tagged paths, if it is there, holds exactly the paths
that some file in `by-tag` holds. -/
theorem allTagged_union {calls : List Call} {content : List UInt8} (hC : Consistent st fs)
    (hcalls : Along (Call.run st) (Call.Admissible st) fs calls)
    (hrun : calls.foldlM (Call.run st) fs = .ok fs')
    (hfile : fs'.get st.allTaggedPath = some (.file content)) (x : Str) :
    x ∈ lineSet content ↔ ∃ n, x ∈ linesAt fs' (st.byTagDir ++ [n]) :=
  foldlM_inv (I := Consistent st) (fun _ _ _ hC hc h => hC.call hc h) hC hcalls hrun content hfile x

/-- A path is tagged, retagged and loses its tags while another keeps its own. -/
def retagging : List Call :=
  [.set (ascii "/p") [ascii "a"], .update (ascii "q") [] [ascii "b"], .update (ascii "/p") [ascii "a"] [ascii "b"],
    .update (ascii "/p") [ascii "b"] [], .rebuildAllTagged]

theorem allTagged_union_updates : ∃ fs' content,
    retagging.foldlM (Call.run idx) FileTree.empty = .ok fs' ∧
    fs'.get [ascii "idx", ascii "all-tagged"] = some (.file content) ∧
    (ascii "/q" ∈ lineSet content ↔
      ∃ n, ascii "/q" ∈ linesAt fs' [ascii "idx", ascii "by-tag", n]) := by
  obtain ⟨fs', hrun⟩ := Option.isSome_iff_exists.1 (show
    (retagging.foldlM (Call.run idx) FileTree.empty).toOption.isSome from by decide +kernel)
  have hfile : (retagging.foldlM (Call.run idx) FileTree.empty).toOption.bind
      (fun fs' => fs'.get [ascii "idx", ascii "all-tagged"]) = some (.file (ascii "/q" ++ [0x0a])) := by
    decide +kernel
  rw [hrun] at hfile
  have hrun := toOption_eq_some.1 hrun
  refine ⟨fs', _, hrun, hfile, ?_⟩
  refine allTagged_union (fun content hget => ?_) (by decide +kernel) hrun (by exact hfile) _
  cases hget

end TagIndex
