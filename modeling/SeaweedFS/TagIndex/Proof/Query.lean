import SeaweedFS.TagIndex.Proof.Index

/-!
# Query expressions

The tokens of an expression are a list, separated by OR, of lists, separated by AND, of tags with NOTs before them
(`Sentence`). Right after an AND the evaluator takes the difference instead of the complement, which is the same as
long as every tag holds tagged paths only.
-/

namespace TagIndex

open Lib Util List FileTree SortedSet

variable {st : Store} {fs₀ fs fs' : FileTree} {all S left : Paths} {tokens front rest : List Str} {x : Str}

/-! ## The grammar -/

/-- A tag with NOTs before it. -/
structure Literal where
  nots : Nat
  tag : Str

/-- NOTs and a tag. -/
inductive IsLiteral : List Str → Literal → Prop
  | tag {t : Str} : isOperator t = false → IsLiteral [t] ⟨0, t⟩
  | not {token : Str} {ts : List Str} {l : Literal} :
      equalFold token "not" = true → IsLiteral ts l → IsLiteral (token :: ts) ⟨l.nots + 1, l.tag⟩

/-- More items, each after the operator. -/
inductive More {α : Type} (op : String) (item : List Str → α → Prop) : List Str → List α → Prop
  | nil : More op item [] []
  | cons {token : Str} {ts rest : List Str} {a : α} {as : List α} :
      equalFold token op = true → item ts a → More op item rest as →
      More op item (token :: (ts ++ rest)) (a :: as)

/-- Items with the operator between them. -/
inductive SepBy {α : Type} (op : String) (item : List Str → α → Prop) : List Str → List α → Prop
  | mk {ts rest : List Str} {a : α} {as : List α} :
      item ts a → More op item rest as → SepBy op item (ts ++ rest) (a :: as)

/-- Literals with AND between them. -/
abbrev Clause : List Str → List Literal → Prop := SepBy "and" IsLiteral

/-- Clauses with OR between them. -/
abbrev Sentence : List Str → List (List Literal) → Prop := SepBy "or" Clause

/-- A path satisfies a tag after `n` NOTs. -/
def satisfies (all : Paths) (tagged : Paths) (x : Str) : Nat → Prop
  | 0 => x ∈ tagged
  | n + 1 => x ∈ all ∧ ¬ satisfies all tagged x n

/-- A path satisfies a literal, with NOT relative to `all`. -/
def Literal.Sat (st : Store) (fs : FileTree) (all : Paths) (x : Str) (l : Literal) : Prop :=
  satisfies all (linesAt fs (st.tagPath l.tag)) x l.nots

/-- The file of the tag can be read. -/
def Literal.Readable (st : Store) (fs : FileTree) (l : Literal) : Prop :=
  ∃ paths, pathsForTag st fs l.tag = .ok paths

theorem IsLiteral.tag_mem {l : Literal} (h : IsLiteral tokens l) :
    l.tag ∈ tokens ∧ isOperator l.tag = false := by
  induction h with
  | tag ht => exact ⟨mem_singleton_self _, ht⟩
  | not _ _ ih => exact ⟨.tail _ ih.1, ih.2⟩

/-! ## Tokens -/

theorem not_isOperator {t : Str} (h : isOperator t = false) :
    equalFold t "and" = false ∧ equalFold t "or" = false ∧ equalFold t "not" = false := by
  simp only [isOperator, Bool.or_eq_false_iff] at h
  exact ⟨h.1.1, h.1.2, h.2⟩

theorem equalFold_unique {t : Str} {a b : String} (ha : equalFold t a = true)
    (hab : (ascii a).map lowerByte ≠ (ascii b).map lowerByte) : equalFold t b = false := by
  rw [equalFold, beq_iff_eq] at ha
  rw [equalFold, ha, beq_eq_false_iff_ne]
  exact hab

variable {token : String}

theorem matchToken_eq_some (h : matchToken token tokens = some rest) :
    ∃ t, tokens = t :: rest ∧ equalFold t token = true := by
  cases tokens with
  | nil => cases h
  | cons t ts =>
    rw [matchToken] at h
    split at h
    · rename_i ht
      cases h
      exact ⟨t, rfl, ht⟩
    · cases h

theorem matchToken_cons {t : Str} (ht : equalFold t token = true) :
    matchToken token (t :: tokens) = some tokens := by
  rw [matchToken, if_pos ht]

theorem matchToken_cons_ne {t : Str} (ht : equalFold t token = false) :
    matchToken token (t :: tokens) = none := by
  rw [matchToken, if_neg (by simp [ht])]

/-! ## What the evaluator sees of the tree -/

/-- The file of the tag has nothing to do with that of all tagged paths. -/
def Apart (st : Store) (tag : Str) : Prop :=
  ¬ st.tagPath tag <+: st.allTaggedPath ∧ ¬ st.allTaggedPath <+: st.tagPath tag

instance (st : Store) (tag : Str) : Decidable (Apart st tag) := inferInstanceAs (Decidable (_ ∧ _))

/-- The tags are read as in `fs₀`, and all tagged paths are `all`. -/
structure Sees (st : Store) (fs₀ : FileTree) (all : Paths) (fs : FileTree) : Prop where
  tags : ∀ tag, Apart st tag → pathsForTag st fs tag = pathsForTag st fs₀ tag
  all : ∃ fs', allTaggedPaths st fs = .ok (all, fs')

theorem Wrote.pathsForTag (h : Wrote fs fs' st.allTaggedPath S) {tag : Str} (ht : Apart st tag) :
    TagIndex.pathsForTag st fs' tag = TagIndex.pathsForTag st fs tag := by
  have hpre : ∀ q, q <+: st.tagPath tag → q ≠ st.allTaggedPath := by
    rintro q hq rfl
    exact ht.2 hq
  have hroot : ¬ st.tagPath tag <+: st.allTaggedPath.dropLast :=
    fun hpre => ht.1 (hpre.trans ( dropLast_prefix _))
  refine readLines_congr (h.same _ (hpre _ prefix_rfl) hroot) fun q hq content => ?_
  by_cases hdir : q <+: st.allTaggedPath.dropLast
  · refine ⟨fun hfile => ?_, fun hfile => absurd hfile (h.clear q hdir content)⟩
    rw [h.dirs q hdir] at hfile
    cases hfile
  · rw [h.same q (hpre q hq) hdir]

theorem addEntries_short {entries : List (Name × Node)} {paths : Paths}
    (hpaths : ∀ x ∈ paths, x.length < maxScanTokenSize)
    (h : entries.foldlM (addEntry st fs) paths = .ok S) : ∀ x ∈ S, x.length < maxScanTokenSize := by
  induction entries generalizing paths with
  | nil =>
    cases h
    exact hpaths
  | cons e entries ih =>
    obtain ⟨paths1, hstep, hrest⟩ := bind_eq_ok.1 h
    refine ih (fun x hx => ?_) hrest
    unfold addEntry at hstep
    split at hstep
    · cases hstep
      exact hpaths x hx
    · obtain ⟨tagPaths, hread, hret⟩ := bind_eq_ok.1 hstep
      cases hret
      rcases mem_addAll.1 hx with hx | hx
      · exact readLines_short hread x (mem_toList.1 hx)
      · exact hpaths x hx

theorem allPaths_short (h : allPaths st fs = .ok S) : ∀ x ∈ S, x.length < maxScanTokenSize := by
  unfold allPaths at h
  split at h
  · cases h
    exact fun x hx => absurd hx (not_mem_empty x)
  · cases h
  · exact addEntries_short (fun x hx => absurd hx (not_mem_empty x)) h

theorem allTaggedPaths_again (h : allTaggedPaths st fs = .ok (S, fs')) :
    allTaggedPaths st fs' = .ok (S, fs') := by
  have h' := h
  unfold allTaggedPaths at h
  split at h
  · obtain ⟨paths, hall, h⟩ := bind_eq_ok.1 h
    obtain ⟨fs1, hwrite, hret⟩ := bind_eq_ok.1 h
    cases hret
    have hw := writeLines_ok hwrite
    have hsafe : ∀ l ∈ S, LineSafe l := fun l hl => lineSafe_of_mem_allTaggedPaths h' hl
    have hread : readLines fs' st.allTaggedPath = .ok S := by
      rw [readLines_file hw.file, lineSet_fileOf hsafe]
      exact shortLines_fileOf fun l hl => ⟨(hsafe l hl).2.1, allPaths_short hall l hl⟩
    rw [allTaggedPaths, stat_some hw.file]
    rw [hread]
    rfl
  · cases h
  · obtain ⟨paths, hread, hret⟩ := bind_eq_ok.1 h
    cases hret
    exact h'

theorem Sees.next (hS : Sees st fs0 all fs) (h : allTaggedPaths st fs = .ok (S, fs')) :
    S = all ∧ Sees st fs0 all fs' := by
  obtain ⟨fs1, hall⟩ := hS.all
  obtain ⟨rfl, rfl⟩ := Prod.mk.inj (Except.ok.inj (hall.symm.trans h))
  refine ⟨rfl, fun tag ht => ?_, _, allTaggedPaths_again h⟩
  rw [← hS.tags tag ht]
  rcases allTaggedPaths_ok h with ⟨rfl, -⟩ | ⟨-, -, hw⟩
  · rfl
  · exact hw.pathsForTag ht

/-! ## Sets -/

theorem mem_difference {a b : Paths} : x ∈ difference a b ↔ x ∈ a ∧ x ∉ b := by
  rw [difference, SortedSet.mem_filter, decide_eq_true_eq]

theorem mem_intersect {a b : Paths} : x ∈ intersect a b ↔ x ∈ a ∧ x ∈ b := by
  unfold intersect
  split
  · rw [SortedSet.mem_filter, decide_eq_true_eq, and_comm]
  · rw [SortedSet.mem_filter, decide_eq_true_eq]

theorem mem_union {a b : Paths} : x ∈ union a b ↔ x ∈ a ∨ x ∈ b := by
  rw [union, mem_addAll, mem_ofList, mem_toList, mem_toList, or_comm]

/-! ## The evaluator succeeds on sentences only -/

variable {fuel : Nat}

section Sound

variable (hS : Sees st fs₀ all fs)
include hS

section

variable (htokens : ∀ t ∈ tokens, isOperator t = false → Apart st t)
include htokens

theorem parseUnary_sound (h : parseUnary st fs tokens = .ok (S, rest, fs')) :
    Sees st fs₀ all fs' ∧ ∃ front l, tokens = front ++ rest ∧ IsLiteral front l ∧ l.Readable st fs₀ := by
  induction tokens generalizing S fs' with
  | nil => cases h
  | cons t ts ih =>
    rw [parseUnary] at h
    split at h
    · rename_i hnot
      obtain ⟨⟨paths, rest', fs₁⟩, hunary, h⟩ := bind_eq_ok.1 h
      obtain ⟨⟨allTagged, fs₂⟩, hall, hret⟩ := bind_eq_ok.1 h
      cases hret
      obtain ⟨hS₁, front, l, rfl, hl, hread⟩ := ih (fun t ht => htokens t (.tail _ ht)) hunary
      exact ⟨(hS₁.next hall).2, t :: front, _, rfl, .not hnot hl, hread⟩
    · split at h
      · cases h
      · rename_i hop
        obtain ⟨paths, hread, hret⟩ := bind_eq_ok.1 h
        cases hret
        have hop := Bool.eq_false_iff.2 hop
        rw [hS.tags t (htokens t mem_cons_self hop)] at hread
        exact ⟨hS, [t], _, rfl, .tag hop, _, hread⟩

theorem andLoop_sound (h : andLoop st fuel left tokens fs = .ok (S, rest, fs')) :
    Sees st fs₀ all fs' ∧ ∃ front ls, tokens = front ++ rest ∧ More "and" IsLiteral front ls ∧
      ∀ l ∈ ls, l.Readable st fs₀ := by
  induction fuel generalizing left tokens fs with
  | zero =>
    cases h
    exact ⟨hS, [], [], rfl, .nil, by simp⟩
  | succ fuel ih =>
    rw [andLoop] at h
    split at h
    · cases h
      exact ⟨hS, [], [], rfl, .nil, by simp⟩
    · rename_i ts hand
      obtain ⟨t, rfl, ht⟩ := matchToken_eq_some hand
      -- the literal after the AND, with the NOT that may have been taken with it
      have hlit : ∀ {ts' front l}, ts = front ++ ts' → IsLiteral front l → l.Readable st fs₀ →
          ∀ {left fs₁}, Sees st fs₀ all fs₁ → andLoop st fuel left ts' fs₁ = .ok (S, rest, fs') →
          Sees st fs₀ all fs' ∧ ∃ front ls, t :: ts = front ++ rest ∧ More "and" IsLiteral front ls ∧
            ∀ l ∈ ls, l.Readable st fs₀ := by
        rintro ts' front l rfl hl hread left fs₁ hS₁ hloop
        obtain ⟨hS', front', ls, rfl, hmore, hreads⟩ := ih hS₁
          (fun t' ht' => htokens t' (.tail _ (mem_append_right _ ht'))) hloop
        refine ⟨hS', t :: (front ++ front'), l :: ls, by simp, .cons ht hl hmore, ?_⟩
        exact forall_mem_cons.2 ⟨hread, hreads⟩
      split at h
      · rename_i ts' hnot
        obtain ⟨t', rfl, ht'⟩ := matchToken_eq_some hnot
        obtain ⟨⟨right, ts'', fs₁⟩, hunary, hloop⟩ := bind_eq_ok.1 h
        obtain ⟨hS₁, front, l, rfl, hl, hread⟩ :=
          parseUnary_sound hS (fun t ht => htokens t (.tail _ (.tail _ ht))) hunary
        exact hlit (cons_append ..).symm (.not ht' hl) hread hS₁ hloop
      · obtain ⟨⟨right, ts'', fs₁⟩, hunary, hloop⟩ := bind_eq_ok.1 h
        obtain ⟨hS₁, front, l, hfront, hl, hread⟩ :=
          parseUnary_sound hS (fun t ht => htokens t (.tail _ ht)) hunary
        exact hlit hfront hl hread hS₁ hloop

theorem parseAnd_sound (h : parseAnd st fs tokens = .ok (S, rest, fs')) :
    Sees st fs₀ all fs' ∧ ∃ front c, tokens = front ++ rest ∧ Clause front c ∧
      ∀ l ∈ c, l.Readable st fs₀ := by
  obtain ⟨⟨left, ts, fs₁⟩, hunary, hloop⟩ := bind_eq_ok.1 h
  obtain ⟨hS₁, front, l, rfl, hl, hread⟩ := parseUnary_sound hS htokens hunary
  obtain ⟨hS', front', ls, hts, hmore, hreads⟩ :=
    andLoop_sound hS₁ (fun t ht => htokens t (mem_append_right _ ht)) hloop
  refine ⟨hS', front ++ front', l :: ls, by simp [hts], .mk hl hmore, ?_⟩
  exact forall_mem_cons.2 ⟨hread, hreads⟩

theorem orLoop_sound (h : orLoop st fuel left tokens fs = .ok (S, rest, fs')) :
    Sees st fs₀ all fs' ∧ ∃ front cs, tokens = front ++ rest ∧ More "or" Clause front cs ∧
      ∀ c ∈ cs, ∀ l ∈ c, l.Readable st fs₀ := by
  induction fuel generalizing left tokens fs with
  | zero =>
    cases h
    exact ⟨hS, [], [], rfl, .nil, by simp⟩
  | succ fuel ih =>
    rw [orLoop] at h
    split at h
    · cases h
      exact ⟨hS, [], [], rfl, .nil, by simp⟩
    · rename_i ts hor
      obtain ⟨t, rfl, ht⟩ := matchToken_eq_some hor
      obtain ⟨⟨right, ts', fs₁⟩, hand, hloop⟩ := bind_eq_ok.1 h
      obtain ⟨hS₁, front, c, rfl, hc, hread⟩ :=
        parseAnd_sound hS (fun t ht => htokens t (.tail _ ht)) hand
      obtain ⟨hS', front', cs, rfl, hmore, hreads⟩ := ih hS₁
        (fun t' ht' => htokens t' (.tail _ (mem_append_right _ ht'))) hloop
      refine ⟨hS', t :: (front ++ front'), c :: cs, by simp, .cons ht hc hmore, ?_⟩
      exact forall_mem_cons.2 ⟨hread, hreads⟩

theorem parseOr_sound (h : parseOr st fs tokens = .ok (S, rest, fs')) :
    ∃ front f, tokens = front ++ rest ∧ Sentence front f ∧ ∀ c ∈ f, ∀ l ∈ c, l.Readable st fs₀ := by
  obtain ⟨⟨left, ts, fs₁⟩, hand, hloop⟩ := bind_eq_ok.1 h
  obtain ⟨hS₁, front, c, rfl, hc, hread⟩ := parseAnd_sound hS htokens hand
  obtain ⟨-, front', cs, hts, hmore, hreads⟩ :=
    orLoop_sound hS₁ (fun t ht => htokens t (mem_append_right _ ht)) hloop
  refine ⟨front ++ front', c :: cs, by simp [hts], .mk hc hmore, ?_⟩
  exact forall_mem_cons.2 ⟨hread, hreads⟩

end

end Sound

/-! ## The evaluator succeeds on sentences -/

/-- The file of the tag can be read, and it holds tagged paths only. -/
structure Literal.Good (st : Store) (fs₀ : FileTree) (all : Paths) (l : Literal) : Prop where
  apart : Apart st l.tag
  readable : l.Readable st fs₀
  tagged : ∀ x ∈ linesAt fs₀ (st.tagPath l.tag), x ∈ all

theorem Literal.Good.mem_all {l : Literal} (hl : l.Good st fs0 all) (h : l.Sat st fs0 all x) : x ∈ all := by
  obtain ⟨nots, tag⟩ := l
  cases nots with
  | zero => exact hl.tagged x h
  | succ n => exact h.1

theorem matchToken_and_of_more {α : Type} {item : List Str → α → Prop} {as : List α}
    (h : More "or" item front as) : matchToken "and" front = none := by
  cases h with
  | nil => rfl
  | cons ht _ _ => exact matchToken_cons_ne (equalFold_unique ht (by decide))

section Complete

variable (hS : Sees st fs₀ all fs)
include hS

theorem parseUnary_complete {l : Literal} (hl : IsLiteral front l) (hgood : l.Good st fs₀ all)
    (rest : List Str) :
    ∃ S fs', parseUnary st fs (front ++ rest) = .ok (S, rest, fs') ∧ Sees st fs₀ all fs' ∧
      ∀ x, x ∈ S ↔ l.Sat st fs₀ all x := by
  induction hl with
  | @tag t ht =>
    obtain ⟨paths, hread⟩ := hgood.readable
    rw [← hS.tags t hgood.apart] at hread
    refine ⟨paths, fs, ?_, hS, fun x => ?_⟩
    · rw [singleton_append, parseUnary, if_neg (by simp [not_isOperator ht]), if_neg (by simp [ht]), hread]
      rfl
    · rw [hS.tags t hgood.apart] at hread
      rw [(readLines_ok hread).1]
      rfl
  | @not t ts l ht hl ih =>
    obtain ⟨S, fs₁, hunary, hS₁, hmem⟩ := ih ⟨hgood.apart, hgood.readable, hgood.tagged⟩
    obtain ⟨fs₂, hall⟩ := hS₁.all
    refine ⟨difference all S, fs₂, ?_, (hS₁.next hall).2, fun x => ?_⟩
    · rw [cons_append, parseUnary, if_pos ht, hunary]
      simp only [bind, Except.bind]
      rw [hall]
      rfl
    · rw [mem_difference, hmem]
      rfl

theorem andLoop_complete {ls : List Literal} (hmore : More "and" IsLiteral front ls)
    (hgood : ∀ l ∈ ls, l.Good st fs₀ all) (hrest : matchToken "and" rest = none)
    (hfuel : front.length ≤ fuel) (hleft : ∀ x ∈ left, x ∈ all) :
    ∃ S fs', andLoop st fuel left (front ++ rest) fs = .ok (S, rest, fs') ∧ Sees st fs₀ all fs' ∧
      ∀ x, x ∈ S ↔ x ∈ left ∧ ∀ l ∈ ls, l.Sat st fs₀ all x := by
  induction hmore generalizing left fs fuel with
  | nil =>
    refine ⟨left, fs, ?_, hS, by simp⟩
    cases fuel with
    | zero => rfl
    | succ fuel => rw [nil_append, andLoop, hrest]
  | @cons t ts more l ls ht hl hmore ih =>
    cases fuel with
    | zero => simp at hfuel
    | succ fuel =>
      have hlen : more.length ≤ fuel := by
        simp only [length_cons, length_append] at hfuel
        omega
      have hl' := hgood l mem_cons_self
      have hls := fun l' hl' => hgood l' (.tail _ hl')
      rw [cons_append, append_assoc, andLoop, matchToken_cons ht]
      simp only
      cases hl with
      | @tag t' ht' =>
        rw [singleton_append, matchToken_cons_ne (not_isOperator ht').2.2]
        obtain ⟨right, fs₁, hunary, hS₁, hmem⟩ := parseUnary_complete hS (.tag ht') hl' (more ++ rest)
        rw [singleton_append] at hunary
        have hleft' : ∀ x ∈ intersect left right, x ∈ all := fun x hx => hleft x (mem_intersect.1 hx).1
        obtain ⟨S, fs', hloop, hS', hmem'⟩ := ih hS₁ hls hlen hleft'
        refine ⟨S, fs', ?_, hS', fun x => ?_⟩
        · simp only [hunary]
          exact hloop
        · rw [hmem', mem_intersect, hmem, forall_mem_cons, and_assoc]
      | @not t' ts' l' ht' hlit =>
        rw [cons_append, matchToken_cons ht']
        obtain ⟨right, fs₁, hunary, hS₁, hmem⟩ := parseUnary_complete hS hlit
          ⟨hl'.apart, hl'.readable, hl'.tagged⟩ (more ++ rest)
        have hleft' : ∀ x ∈ difference left right, x ∈ all := fun x hx => hleft x (mem_difference.1 hx).1
        obtain ⟨S, fs', hloop, hS', hmem'⟩ := ih hS₁ hls hlen hleft'
        refine ⟨S, fs', ?_, hS', fun x => ?_⟩
        · simp only [hunary]
          exact hloop
        · -- the difference is the intersection with the complement: what is left is tagged
          rw [hmem', mem_difference, hmem, forall_mem_cons, and_assoc]
          refine and_congr_right fun hx => and_congr_left' ?_
          exact (and_iff_right (hleft x hx)).symm

theorem parseAnd_complete {c : List Literal} (hc : Clause front c) (hgood : ∀ l ∈ c, l.Good st fs₀ all)
    (hrest : matchToken "and" rest = none) :
    ∃ S fs', parseAnd st fs (front ++ rest) = .ok (S, rest, fs') ∧ Sees st fs₀ all fs' ∧
      ∀ x, x ∈ S ↔ ∀ l ∈ c, l.Sat st fs₀ all x := by
  cases hc with
  | @mk ts more l ls hl hmore =>
    have hl' := hgood l mem_cons_self
    obtain ⟨left, fs₁, hunary, hS₁, hmem⟩ := parseUnary_complete hS hl hl' (more ++ rest)
    have hfuel : more.length ≤ (more ++ rest).length := by simp
    have hleft : ∀ x ∈ left, x ∈ all := fun x hx => hl'.mem_all ((hmem x).1 hx)
    obtain ⟨S, fs', hloop, hS', hmem'⟩ :=
      andLoop_complete hS₁ hmore (fun l hl => hgood l (.tail _ hl)) hrest hfuel hleft
    refine ⟨S, fs', ?_, hS', fun x => ?_⟩
    · rw [append_assoc, parseAnd, hunary]
      exact hloop
    · rw [hmem', hmem, forall_mem_cons]

theorem orLoop_complete {cs : List (List Literal)} (hmore : More "or" Clause front cs)
    (hgood : ∀ c ∈ cs, ∀ l ∈ c, l.Good st fs₀ all) (hfuel : front.length ≤ fuel) (left : Paths) :
    ∃ S fs', orLoop st fuel left front fs = .ok (S, [], fs') ∧
      ∀ x, x ∈ S ↔ x ∈ left ∨ ∃ c ∈ cs, ∀ l ∈ c, l.Sat st fs₀ all x := by
  induction hmore generalizing left fs fuel with
  | nil =>
    refine ⟨left, fs, ?_, by simp⟩
    cases fuel with
    | zero => rfl
    | succ fuel => rfl
  | @cons t ts more c cs ht hc hmore ih =>
    cases fuel with
    | zero => simp at hfuel
    | succ fuel =>
      have hfuel : more.length ≤ fuel := by
        simp only [length_cons, length_append] at hfuel
        omega
      obtain ⟨right, fs₁, hand, hS₁, hmem⟩ := parseAnd_complete hS hc (hgood c mem_cons_self)
        (matchToken_and_of_more hmore)
      obtain ⟨S, fs', hloop, hmem'⟩ := ih hS₁ (fun c' hc' => hgood c' (.tail _ hc')) hfuel
        (union left right)
      refine ⟨S, fs', ?_, fun x => ?_⟩
      · rw [orLoop, matchToken_cons ht]
        simp only [hand]
        exact hloop
      · rw [hmem', mem_union, hmem, or_assoc]
        simp

theorem parseOr_complete {f : List (List Literal)} (hf : Sentence tokens f)
    (hgood : ∀ c ∈ f, ∀ l ∈ c, l.Good st fs₀ all) : ∃ S fs', parseOr st fs tokens = .ok (S, [], fs') ∧
      ∀ x, x ∈ S ↔ ∃ c ∈ f, ∀ l ∈ c, l.Sat st fs₀ all x := by
  cases hf with
  | @mk ts more c cs hc hmore =>
    obtain ⟨left, fs₁, hand, hS₁, hmem⟩ := parseAnd_complete hS hc (hgood c mem_cons_self)
      (matchToken_and_of_more hmore)
    obtain ⟨S, fs', hloop, hmem'⟩ := orLoop_complete hS₁ hmore
      (fun c' hc' => hgood c' (.tail _ hc')) (Nat.le_refl more.length) left
    refine ⟨S, fs', ?_, fun x => ?_⟩
    · rw [parseOr, hand]
      exact hloop
    · rw [hmem', hmem]
      simp

end Complete

theorem More.mem_tokens {α : Type} {op : String} {item : List Str → α → Prop} {as : List α} {P : α → Prop}
    (h : More op item tokens as)
    (hitem : ∀ {ts a}, item ts a → (∀ t ∈ ts, t ∈ tokens) → P a) : ∀ a ∈ as, P a := by
  have key : ∀ {ts as}, More op item ts as → (∀ t ∈ ts, t ∈ tokens) → ∀ a ∈ as, P a := by
    intro ts as hmore
    induction hmore with
    | nil => simp
    | @cons t ts more a as _ ha _ ih =>
      intro hts
      exact forall_mem_cons.2 ⟨hitem ha fun t ht => hts t (.tail _ (mem_append_left _ ht)),
        ih fun t ht => hts t (.tail _ (mem_append_right _ ht))⟩
  exact key h fun t ht => ht

theorem SepBy.mem_tokens {α : Type} {op : String} {item : List Str → α → Prop} {as : List α} {P : α → Prop}
    (h : SepBy op item tokens as)
    (hitem : ∀ {ts a}, item ts a → (∀ t ∈ ts, t ∈ tokens) → P a) : ∀ a ∈ as, P a := by
  cases h with
  | @mk ts more a as ha hmore =>
    exact forall_mem_cons.2 ⟨hitem ha fun t ht => mem_append_left _ ht,
      hmore.mem_tokens (fun hi hts => hitem hi fun t ht => mem_append_right _ (hts t ht))⟩

theorem Sentence.tag_mem {f : List (List Literal)} (h : Sentence tokens f) :
    ∀ c ∈ f, ∀ l ∈ c, l.tag ∈ tokens ∧ isOperator l.tag = false :=
  SepBy.mem_tokens h fun hc hts => SepBy.mem_tokens hc fun hl hts' =>
    ⟨hts _ (hts' _ hl.tag_mem.1), hl.tag_mem.2⟩

/-- **Query expression.** The evaluator succeeds exactly on the sentences whose tags can be read, and returns in
order the paths `under` the directory that satisfy the sentence. -/
theorem queryExpr_sentence {expr : List Str} {under : Str} {fs₁ : FileTree}
    (hapart : ∀ t ∈ expr, isOperator t = false → Apart st t)
    (hall : allTaggedPaths st fs = .ok (all, fs₁))
    (htagged : ∀ t ∈ expr, isOperator t = false → ∀ x ∈ linesAt fs (st.tagPath t), x ∈ all)
    (result : List Str) :
    (∃ fs', queryExpr st fs expr under = .ok (result, fs')) ↔
      ∃ f, Sentence expr f ∧ (∀ c ∈ f, ∀ l ∈ c, l.Readable st fs) ∧ result.Pairwise (· < ·) ∧
        ∀ x, x ∈ result ↔
          (∃ c ∈ f, ∀ l ∈ c, l.Sat st fs all x) ∧ isUnder (normalizeUnder under) x = true := by
  have hS : Sees st fs all fs := ⟨fun _ _ => rfl, fs₁, hall⟩
  have hrun : ∀ {f}, Sentence expr f → (∀ c ∈ f, ∀ l ∈ c, l.Readable st fs) → ∃ S fs',
      queryExpr st fs expr under = .ok (filterAndSort S under, fs') ∧
      ∀ x, x ∈ S ↔ ∃ c ∈ f, ∀ l ∈ c, l.Sat st fs all x := by
    intro f hf hread
    have hgood : ∀ c ∈ f, ∀ l ∈ c, l.Good st fs all := fun c hc l hl => by
      obtain ⟨hmem, hop⟩ := Sentence.tag_mem hf c hc l hl
      exact ⟨hapart _ hmem hop, hread c hc l hl, htagged _ hmem hop⟩
    obtain ⟨S, fs', hparse, hmem⟩ := parseOr_complete hS hf hgood
    refine ⟨S, fs', ?_, hmem⟩
    have hne : expr ≠ [] := by
      rintro rfl
      cases hparse
    rw [queryExpr, if_neg hne, hparse]
    rfl
  have hfilter : ∀ (S : Paths) x, x ∈ filterAndSort S under ↔
      x ∈ S ∧ isUnder (normalizeUnder under) x = true := by
    intro S x
    rw [filterAndSort, mem_toList, SortedSet.mem_filter]
  constructor
  · rintro ⟨fs', hquery⟩
    have hsound : ∃ f, Sentence expr f ∧ ∀ c ∈ f, ∀ l ∈ c, l.Readable st fs := by
      rw [queryExpr] at hquery
      split at hquery
      · cases hquery
      · obtain ⟨⟨S, rest, fs₂⟩, hparse, hret⟩ := bind_eq_ok.1 hquery
        obtain ⟨front, f, hfront, hf, hread⟩ := parseOr_sound hS hapart hparse
        cases rest with
        | nil =>
          rw [append_nil] at hfront
          exact ⟨f, hfront ▸ hf, hread⟩
        | cons t ts => cases hret
    obtain ⟨f, hf, hread⟩ := hsound
    obtain ⟨S, fs'', hquery', hmem⟩ := hrun hf hread
    obtain ⟨rfl, -⟩ := Prod.mk.inj (Except.ok.inj (hquery'.symm.trans hquery))
    refine ⟨f, hf, hread, pairwise_toList _, fun x => ?_⟩
    rw [hfilter, hmem]
  · rintro ⟨f, hf, hread, hsorted, hresult⟩
    obtain ⟨S, fs', hquery, hmem⟩ := hrun hf hread
    refine ⟨fs', hquery.trans ?_⟩
    have : filterAndSort S under = result := by
      refine List.Pairwise.eq_of_mem_iff (pairwise_toList _) hsorted fun x => ?_
      rw [hresult, ← hmem]
      exact hfilter S x
    rw [this]

/-- A tag without another one. -/
theorem queryExpr_sentence_difference : ∃ fs fs',
    set idx FileTree.empty (ascii "/p") [ascii "a"] = .ok fs ∧
    queryExpr idx fs [ascii "a", ascii "AND", ascii "not", ascii "b"] [] =
      .ok ([ascii "/p"], fs') ∧
    ∃ f, Sentence [ascii "a", ascii "AND", ascii "not", ascii "b"] f := by
  let fs := (set idx empty (ascii "/p") [ascii "a"]).toOption.getD empty
  have hset : set idx empty (ascii "/p") [ascii "a"] = .ok fs :=
    eq_ok_getD (by decide +kernel) empty
  obtain ⟨⟨all, fs₁⟩, hall⟩ := Option.isSome_iff_exists.1 (show
    (allTaggedPaths idx fs).toOption.isSome from by decide +kernel)
  have htagged : ∀ t ∈ [ascii "a", ascii "AND", ascii "not", ascii "b"], isOperator t = false →
      ∀ x ∈ (linesAt fs (Store.tagPath idx t)).toList,
        ∀ r ∈ (allTaggedPaths idx fs).toOption, x ∈ r.1 := by
    decide +kernel
  have hquery : (queryExpr idx fs
      [ascii "a", ascii "AND", ascii "not", ascii "b"] []).toOption.map Prod.fst = some [ascii "/p"] := by
    decide +kernel
  obtain ⟨⟨result, fs'⟩, hrun, rfl⟩ := Option.map_eq_some_iff.1 hquery
  have hrun := toOption_eq_some.1 hrun
  obtain ⟨f, hf, -⟩ := (queryExpr_sentence (by decide +kernel) (toOption_eq_some.1 hall)
    (fun t ht hop x hx => htagged t ht hop x (mem_toList.2 hx) _ hall) _).1 ⟨fs', hrun⟩
  exact ⟨fs, fs', hset, hrun, f, hf⟩

/-- A dot is a tag like any other for the grammar, but its file is the directory of the tags. -/
theorem queryExpr_dot : ∃ fs, set idx FileTree.empty (ascii "/p") [ascii "a"] = .ok fs ∧
    Sentence [ascii "."] [[⟨0, ascii "."⟩]] ∧
    ∀ result, queryExpr idx fs [ascii "."] [] ≠ .ok result := by
  let fs := (set idx empty (ascii "/p") [ascii "a"]).toOption.getD empty
  have hnone : (queryExpr idx fs [ascii "."] []).toOption.isNone := by decide +kernel
  have hdot : IsLiteral [ascii "."] ⟨0, ascii "."⟩ := .tag (by decide)
  have hclause : Clause ([ascii "."] ++ []) [⟨0, ascii "."⟩] := .mk hdot .nil
  have hset : set idx empty (ascii "/p") [ascii "a"] = .ok fs :=
    eq_ok_getD (by decide +kernel) empty
  refine ⟨fs, hset, .mk hclause .nil, fun result hrun => ?_⟩
  rw [hrun] at hnone
  cases hnone

end TagIndex
