import SeaweedFS.Util.Proof.Wildcard

/-!
# Wildcard patterns as regular expressions

A pattern compiles if it is UTF-8, to the symbols of its runes (`compileWildcardPattern_eq`). On ASCII subjects
without line feeds the expression and the glob language of the bytes agree (`matchString_iff_glob`).
-/

namespace Util

open Lib Glob List Regexp

/-! ## The expression -/

/-- A byte after the first replacement. -/
def starChunk (b : UInt8) : Str := if b = 0x2a then [0x2e, 0x2a] else Regexp.quoteByte b

/-- A byte of the expression. -/
def chunk (b : UInt8) : Str := if b = 0x2a then [0x2e, 0x2a] else if b = 0x3f then [0x2e] else Regexp.quoteByte b

theorem special_lt : ∀ b ∈ Regexp.special, b < 0x80 := by
  have hall : special.all (fun b => decide (b < 0x80)) = true := rfl
  exact fun b hb => of_decide_eq_true (List.all_eq_true.1 hall b hb)

variable {b : UInt8}

theorem quoteByte_special (h : b ∈ Regexp.special) : Regexp.quoteByte b = [0x5c, b] := if_pos h

theorem quoteByte_plain (h : b ∉ Regexp.special) : Regexp.quoteByte b = [b] := if_neg h

theorem not_special_of_high (h : 0x80 ≤ b) : b ∉ Regexp.special := fun hb =>
  UInt8.not_lt.2 h (special_lt b hb)

theorem star_special : (0x2a : UInt8) ∈ Regexp.special := by decide

theorem question_special : (0x3f : UInt8) ∈ Regexp.special := by decide

theorem chunk_plain (h : b ∉ Regexp.special) : chunk b = [b] := by
  have hne : ∀ c ∈ special, b ≠ c := fun c hc heq => h (heq ▸ hc)
  rw [chunk, if_neg (hne _ star_special), if_neg (hne _ question_special), quoteByte_plain h]

theorem chunk_escaped (h : b ∈ Regexp.special) (hs : b ≠ 0x2a) (hq : b ≠ 0x3f) :
    chunk b = [0x5c, b] := by
  rw [chunk, if_neg hs, if_neg hq, quoteByte_special h]

theorem head_flatMap {f : UInt8 → Str} {c : UInt8} (hf : ∀ b, ∃ d t, f b = d :: t ∧ d ≠ c) (s : Str) {e : Str}
    (he : e.head? ≠ some c) : (s.flatMap f ++ e).head? ≠ some c := by
  cases s with
  | nil => exact he
  | cons b s =>
    obtain ⟨d, t, hd, hne⟩ := hf b
    rw [flatMap_cons, hd]
    exact fun h => hne (Option.some.inj h)

theorem quoteByte_head {c : UInt8} (hc : c ∈ Regexp.special) (hne : c ≠ 0x5c) (b : UInt8) :
    ∃ d t, Regexp.quoteByte b = d :: t ∧ d ≠ c := by
  by_cases hb : b ∈ special
  · exact ⟨0x5c, [b], quoteByte_special hb, hne.symm⟩
  · exact ⟨b, [], quoteByte_plain hb, fun heq => hb (heq ▸ hc)⟩

theorem starChunk_head (b : UInt8) : ∃ d t, starChunk b = d :: t ∧ d ≠ 0x3f := by
  by_cases hb : b = 0x2a
  · exact ⟨0x2e, [0x2a], if_pos hb, by decide⟩
  · rw [starChunk, if_neg hb]
    exact quoteByte_head question_special (by decide) b

theorem chunk_head (b : UInt8) : ∃ d t, chunk b = d :: t ∧ d ≠ 0x2a := by
  unfold chunk
  split
  · exact ⟨0x2e, _, rfl, by decide⟩
  · split
    · exact ⟨0x2e, _, rfl, by decide⟩
    · exact quoteByte_head star_special (by decide) b

/-- Bytes that a replacement of `\c` leaves alone. -/
theorem replaceAll_quoteByte {c : UInt8} {new s : Str} (hb : b ≠ c) (hs : s.head? ≠ some c) :
    replaceAll [0x5c, c] new (Regexp.quoteByte b ++ s) = Regexp.quoteByte b ++ replaceAll [0x5c, c] new s := by
  by_cases hsp : b ∈ special
  · rw [quoteByte_special hsp]
    show replaceAll [0x5c, c] new (0x5c :: b :: s) = 0x5c :: b :: replaceAll [0x5c, c] new s
    have hhead : (b :: s).head? ≠ some c := fun h => hb (Option.some.inj h)
    rw [replaceAll_keep fun _ => hhead, replaceAll_keep fun _ => hs]
  · rw [quoteByte_plain hsp]
    exact replaceAll_keep fun _ => hs

theorem replaceAll_star (pattern : Str) :
    replaceAll [0x5c, 0x2a] [0x2e, 0x2a] (Regexp.quoteMeta pattern) = pattern.flatMap starChunk := by
  induction pattern with
  | nil => rfl
  | cons b s ih =>
    have hhead : (quoteMeta s).head? ≠ some 0x2a := by
      have := head_flatMap (quoteByte_head star_special (by decide)) s (e := []) (by decide)
      rwa [append_nil] at this
    rw [quoteMeta, flatMap_cons, flatMap_cons, ← ih]
    by_cases hb : b = 0x2a
    · subst hb
      exact replaceAll_pair
    · rw [starChunk, if_neg hb]
      exact replaceAll_quoteByte hb hhead

theorem replaceAll_question (pattern : Str) :
    replaceAll [0x5c, 0x3f] [0x2e] (pattern.flatMap starChunk) = pattern.flatMap chunk := by
  induction pattern with
  | nil => rfl
  | cons b s ih =>
    have hhead : (s.flatMap starChunk).head? ≠ some 0x3f := by
      have := head_flatMap starChunk_head s (e := []) (by decide)
      rwa [append_nil] at this
    rw [flatMap_cons, flatMap_cons, ← ih]
    by_cases hs : b = 0x2a
    · subst hs
      show replaceAll _ _ (0x2e :: 0x2a :: s.flatMap starChunk) = 0x2e :: 0x2a :: replaceAll _ _ _
      rw [replaceAll_keep fun h => absurd h (by decide), replaceAll_keep fun h => absurd h (by decide)]
    · by_cases hq : b = 0x3f
      · subst hq
        exact replaceAll_pair
      · rw [starChunk, if_neg hs, chunk, if_neg hs, if_neg hq]
        exact replaceAll_quoteByte hq hhead

theorem wildcardExpression_eq (pattern : Str) :
    wildcardExpression pattern = 0x5e :: (pattern.flatMap chunk ++ [0x24]) := by
  unfold wildcardExpression
  dsimp only
  rw [replaceAll_star, replaceAll_question]
  rfl

/-! ## Its items -/

/-- The symbol that a rune of a pattern is. -/
def runeTok (r : List UInt8) : Tok (List UInt8) :=
  if r = [0x2a] then .star else if r = [0x3f] then .any else .lit r

variable {r : List UInt8}

theorem runeTok_literal (hs : r ≠ [0x2a]) (hq : r ≠ [0x3f]) : runeTok r = .lit r := by
  rw [runeTok, if_neg hs, if_neg hq]

theorem flatMap_chunk_high (h : ∀ b ∈ r, 0x80 ≤ b) : r.flatMap chunk = r := by
  induction r with
  | nil => rfl
  | cons b r ih =>
    rw [flatMap_cons, chunk_plain (not_special_of_high (h b mem_cons_self)),
      ih fun c hc => h c (mem_cons_of_mem b hc)]
    rfl

variable {fuel : Nat} {t : Str}

theorem items_chunk (hr : IsRune r) (ht : t.head? ≠ some 0x2a) :
    Regexp.items (fuel + 1) (r.flatMap chunk ++ t) = (Regexp.items fuel t).map (runeTok r :: ·) := by
  rcases hr.ascii_or_high with ⟨b, -, rfl⟩ | ⟨hlen, hhigh⟩
  · rw [flatMap_singleton]
    by_cases hs : b = 0x2a
    · subst hs
      exact items_star
    · by_cases hq : b = 0x3f
      · subst hq
        exact items_any ht
      · rw [runeTok_literal (by simpa using hs) (by simpa using hq)]
        by_cases hsp : b ∈ special
        · rw [chunk_escaped hsp hs hq]
          exact items_escaped hsp
        · rw [chunk_plain hsp]
          exact items_rune hr (forall_mem_singleton.2 hsp)
  · have hne : ∀ b : UInt8, r ≠ [b] := by
      rintro b rfl
      simp at hlen
    rw [flatMap_chunk_high hhigh, runeTok_literal (hne _) (hne _)]
    exact items_rune hr fun b hb => not_special_of_high (hhigh b hb)

theorem head_chunks (s : Str) : (s.flatMap chunk ++ [0x24]).head? ≠ some 0x2a :=
  head_flatMap chunk_head s (by decide)

variable {s : Str}

theorem items_of_utf8 (h : Utf8 s) (hfuel : (s.flatMap chunk).length < fuel) :
    Regexp.items fuel (s.flatMap chunk ++ [0x24]) = some ((runes s).map runeTok) := by
  induction h generalizing fuel with
  | nil =>
    cases fuel with
    | zero => omega
    | succ fuel => rfl
  | @rune r s hr _ ih =>
    cases fuel with
    | zero => omega
    | succ fuel =>
      have hpos : 0 < (r.flatMap chunk).length := by
        cases r with
        | nil => exact absurd rfl hr.ne_nil
        | cons b r =>
          obtain ⟨d, t, hd, -⟩ := chunk_head b
          simp [hd]
      rw [flatMap_append, length_append] at hfuel
      rw [flatMap_append, append_assoc, items_chunk hr (head_chunks s), ih (by omega), runes_rune hr]
      rfl

theorem prefix_of_high {r : Str} (hr : ∀ b ∈ r, 0x80 ≤ b) (h : r <+: s.flatMap chunk ++ [0x24]) : r <+: s := by
  induction r generalizing s with
  | nil => exact nil_prefix
  | cons c r ih =>
    have hc : 0x80 ≤ c := hr c mem_cons_self
    cases s with
    | nil =>
      rw [flatMap_nil, nil_append, cons_prefix_cons] at h
      rw [h.1] at hc
      exact absurd hc (by decide)
    | cons d s =>
      rw [flatMap_cons] at h
      by_cases hd : d ∈ special
      · -- the item of a special byte begins with an ASCII byte
        have hlow : ∃ e t, chunk d = e :: t ∧ e < 0x80 := by
          unfold chunk
          split
          · exact ⟨0x2e, _, rfl, by decide⟩
          · split
            · exact ⟨0x2e, _, rfl, by decide⟩
            · exact ⟨0x5c, _, quoteByte_special hd, by decide⟩
        obtain ⟨e, t, he, hlt⟩ := hlow
        rw [he, cons_append, cons_append, cons_prefix_cons] at h
        rw [h.1] at hc
        exact absurd hlt (UInt8.not_lt.2 hc)
      · rw [chunk_plain hd, singleton_append, cons_append, cons_prefix_cons] at h
        rw [h.1]
        exact List.cons_prefix_cons.2 ⟨rfl, ih (fun b hb => hr b (mem_cons_of_mem c hb)) h.2⟩

theorem runeLen_chunks (h : runeLen (b :: s) = 0) : runeLen (b :: (s.flatMap chunk ++ [0x24])) = 0 := by
  by_contra hne
  obtain ⟨hle, hrune⟩ := isRune_take hne
  obtain ⟨n, hn⟩ : ∃ n, runeLen (b :: (s.flatMap chunk ++ [0x24])) = n + 1 :=
    ⟨_, (Nat.succ_pred_eq_of_ne_zero hne).symm⟩
  rw [hn, take_succ_cons] at hrune
  have hhigh : ∀ c ∈ (s.flatMap chunk ++ [0x24]).take n, 0x80 ≤ c := by
    rcases hrune.ascii_or_high with ⟨c, hc, heq⟩ | ⟨-, hhigh⟩
    · rw [← (List.cons.inj heq).1] at hc
      exact absurd hc (UInt8.not_lt.2 (high_of_runeLen_zero h))
    · exact fun c hc => hhigh c (mem_cons_of_mem b hc)
  obtain ⟨t, ht⟩ := prefix_of_high hhigh ( take_prefix n _)
  have hlen := hrune.len t
  rw [cons_append, ht, h] at hlen
  simp at hlen

theorem utf8_of_items : ∀ {fuel : Nat} {re : List (Tok (List UInt8))},
    Regexp.items fuel (s.flatMap chunk ++ [0x24]) = some re → Utf8 s := by
  induction s using runes_induction with
  | nil => exact fun _ => .nil
  | rune r s hr ih =>
    intro fuel re h
    cases fuel with
    | zero => cases h
    | succ fuel =>
      rw [flatMap_append, append_assoc, items_chunk hr (head_chunks s), Option.map_eq_some_iff] at h
      obtain ⟨re, h, -⟩ := h
      exact .rune hr (ih h)
  | invalid b s hb ih =>
    intro fuel re h
    have hsp := not_special_of_high (high_of_runeLen_zero hb)
    have hne : ∀ c ∈ special, b ≠ c := fun c hc heq => hsp (heq ▸ hc)
    cases fuel with
    | zero => cases h
    | succ fuel =>
      rw [flatMap_cons, chunk_plain hsp, singleton_append, cons_append] at h
      unfold items at h
      rw [if_neg (hne _ (by decide)), if_neg (hne _ (by decide)), if_neg (hne _ (by decide)), if_neg hsp] at h
      simp only [runeLen_chunks hb] at h
      cases h

variable {pattern : Str} {re : List (Tok (List UInt8))}

theorem utf8_of_compile (h : compileWildcardPattern pattern = some re) : Utf8 pattern := by
  unfold compileWildcardPattern at h
  rw [wildcardExpression_eq, compile, if_pos rfl] at h
  exact utf8_of_items h

/-- **What a pattern compiles to.** -/
theorem compileWildcardPattern_eq (h : Utf8 pattern) :
    compileWildcardPattern pattern = some ((runes pattern).map runeTok) := by
  unfold compileWildcardPattern
  rw [wildcardExpression_eq, compile, if_pos rfl]
  refine items_of_utf8 h ?_
  rw [length_append, length_singleton]
  omega

/-! ## ASCII subjects without line feeds -/

/-- What a dot and a question mark both stand for. -/
def Plain (str : Str) : Prop := ∀ b ∈ str, b < 0x80 ∧ b ≠ 0x0a

theorem Plain.tail (h : Plain (b :: s)) : Plain s := fun c hc => h c (mem_cons_of_mem b hc)

theorem Plain.dot (h : Plain (b :: s)) : Regexp.dot [b] = true := by
  have := (h b mem_cons_self).2
  simpa [Regexp.dot] using this

variable {str : Str}

theorem map_mem_star {P : List (Tok (List UInt8))} {Q : List (Tok UInt8)}
    (h : ∀ s, Plain s → (s.map ([·]) ∈ language Regexp.dot P ↔ s ∈ language (fun _ => true) Q)) (hs : Plain str) :
    str.map ([·]) ∈ language Regexp.dot (.star :: P) ↔ str ∈ language (fun _ => true) (.star :: Q) := by
  induction str with
  | nil => exact mem_star_nil.trans ((h [] hs).trans mem_star_nil.symm)
  | cons b s ih =>
    have hbs := h (b :: s) hs
    rw [map_cons] at hbs ⊢
    rw [mem_star_cons, mem_star_cons, hbs, ih hs.tail, hs.dot]

/-- **Runes and bytes agree on plain subjects.** -/
theorem map_mem_language (hp : Utf8 pattern) : ∀ {str : Str}, Plain str →
    (str.map ([·]) ∈ language Regexp.dot ((runes pattern).map runeTok) ↔ str ∈ globLanguage pattern) := by
  induction hp with
  | nil =>
    intro str _
    exact map_eq_nil_iff
  | @rune r p hr _ ih =>
    intro str hstr
    rw [runes_rune hr, map_cons]
    rcases hr.ascii_or_high with ⟨a, -, rfl⟩ | ⟨hlen, hhigh⟩
    · by_cases hs : a = 0x2a
      · subst hs
        exact map_mem_star (fun s hs => ih hs) hstr
      · by_cases hq : a = 0x3f
        · subst hq
          cases str with
          | nil => exact iff_of_false (by simp [runeTok, mem_any]) (by simp [globLanguage, wildcardTok, mem_any])
          | cons b s =>
            rw [singleton_append, glob_question, ← ih hstr.tail]
            refine mem_any.trans ⟨?_, fun h => ⟨[b], hstr.dot, _, h, rfl⟩⟩
            rintro ⟨c, -, v, hv, h⟩
            exact (List.cons.inj h).2 ▸ hv
        · rw [runeTok_literal (by simpa using hs) (by simpa using hq), singleton_append, glob_literal hs hq,
            mem_lit]
          cases str with
          | nil => exact iff_of_false (by simp) (by simp)
          | cons b s =>
            constructor
            · rintro ⟨v, hv, h⟩
              obtain ⟨hb, rfl⟩ := List.cons.inj h
              obtain rfl := (List.cons.inj hb).1
              exact ⟨s, (ih hstr.tail).1 hv, rfl⟩
            · rintro ⟨v, hv, h⟩
              obtain ⟨rfl, rfl⟩ := List.cons.inj h
              exact ⟨_, (ih hstr.tail).2 hv, rfl⟩
    · -- a rune of several bytes is in no plain subject
      have hne : ∀ b : UInt8, r ≠ [b] := by
        rintro b rfl
        simp at hlen
      refine iff_of_false ?_ ?_
      · rw [runeTok_literal (hne _) (hne _), mem_lit]
        rintro ⟨v, -, h⟩
        cases str with
        | nil => cases h
        | cons b s => exact hne b (List.cons.inj h).1
      · cases r with
        | nil => exact absurd rfl hr.ne_nil
        | cons c r =>
          have hc := hhigh c mem_cons_self
          have hns : ∀ d : UInt8, d < 0x80 → c ≠ d := by
            rintro d hd rfl
            exact UInt8.not_lt.2 hc hd
          rw [cons_append, glob_literal (hns _ (by decide)) (hns _ (by decide))]
          rintro ⟨v, -, rfl⟩
          exact hns c (hstr c mem_cons_self).1 rfl

theorem matchString_iff_glob (hstr : Plain str) (hre : compileWildcardPattern pattern = some re) :
    Regexp.matchString re str = true ↔ str ∈ globLanguage pattern := by
  have hutf := utf8_of_compile hre
  obtain rfl := Option.some.inj (hre.symm.trans (compileWildcardPattern_eq hutf))
  have hrunes := runes_append_ascii (fun b hb => (hstr b hb).1) []
  rw [append_nil] at hrunes
  rw [matchString, accepts_iff, hrunes, show runes [] = [] from rfl, append_nil]
  exact map_mem_language hutf hstr

/-! ## The other subjects -/

theorem runes_questions (n : Nat) (s : Str) :
    (runes (questions n ++ s)).map runeTok = List.replicate n .any ++ (runes s).map runeTok := by
  have hq : ∀ b ∈ questions n, b < 0x80 := by
    intro b hb
    rw [eq_of_mem_replicate hb]
    decide
  rw [runes_append_ascii hq, map_append, map_map, questions, map_replicate]
  rfl

theorem runes_only_questions (n : Nat) : (runes (questions n)).map runeTok = List.replicate n .any := by
  have h := runes_questions n []
  rwa [append_nil, show runes [] = [] from rfl, map_nil, append_nil] at h

theorem utf8_questions (n : Nat) (hs : Utf8 s) : Utf8 (questions n ++ s) := by
  refine .append_ascii (fun b hb => ?_) hs
  rw [eq_of_mem_replicate hb]
  decide

theorem dot_runes (hnl : 0x0a ∉ str) : ∀ r ∈ runes str, Regexp.dot r = true := by
  intro r hr
  simp only [dot, decide_eq_true_eq]
  rintro rfl
  exact hnl ((mem_runes_iff (by decide) str).1 hr)

theorem not_mem_questions (hb : b ≠ 0x3f) (n : Nat) : b ∉ questions n := fun h =>
  hb (eq_of_mem_replicate h)

theorem disagree_newline (h : 0x0a ∈ str) :
    ∃ re, compileWildcardPattern [0x2a] = some re ∧ Regexp.matchString re str = false ∧
      matchWildcardString [0x2a] str = some true := by
  refine ⟨[.star], by decide +kernel, ?_, if_pos rfl⟩
  rw [← Bool.not_eq_true, matchString, accepts_iff]
  intro hmem
  obtain ⟨u, hu, v, hv, huv⟩ := mem_cons.1 hmem
  rw [mem_nil.1 hv, append_nil] at huv
  have hdot := hu [0x0a] (huv ▸ (mem_runes_iff (by decide) str).2 h)
  cases hdot

theorem disagree_length (hnl : 0x0a ∉ str) (h : (runes str).length ≠ str.length) :
    ∃ re, compileWildcardPattern (questions (runes str).length) = some re ∧ Regexp.matchString re str = true ∧
      matchWildcardString (questions (runes str).length) str ≠ some true := by
  have hcompile := compileWildcardPattern_eq (utf8_questions (runes str).length .nil)
  rw [append_nil, runes_only_questions] at hcompile
  refine ⟨_, hcompile, ?_, fun hmatch => h ?_⟩
  · rw [matchString, accepts_iff]
    exact mem_replicate_any (dot_runes hnl)
  · rw [length_of_mem_glob (not_mem_questions (by decide) _) (matchWildcardString_sound hmatch), questions,
      length_replicate]

theorem disagree_invalid {u v : Str} (hu : ∀ c ∈ u, c < 0x80) (hb : runeLen (b :: v) = 0)
    (hnl : 0x0a ∉ u ++ b :: v) (hlen : (runes v).length = v.length) :
    ∃ re, compileWildcardPattern (questions u.length ++ (replacementRune ++ questions v.length)) = some re ∧
      Regexp.matchString re (u ++ b :: v) = true ∧
      matchWildcardString (questions u.length ++ (replacementRune ++ questions v.length)) (u ++ b :: v) ≠
        some true := by
  have hutf : Utf8 (questions u.length ++ (replacementRune ++ questions v.length)) := by
    refine utf8_questions _ (.rune isRune_replacement ?_)
    have := utf8_questions v.length .nil
    rwa [append_nil] at this
  have hcompile := compileWildcardPattern_eq hutf
  rw [runes_questions, runes_rune isRune_replacement, map_cons, runes_only_questions] at hcompile
  refine ⟨_, hcompile, ?_, fun hmatch => ?_⟩
  · have hdot := dot_runes hnl
    rw [matchString, accepts_iff]
    rw [runes_append_ascii hu, runes_invalid hb] at hdot ⊢
    have hsingle : (u.map ([·] : UInt8 → List UInt8)).length = u.length := length_map _
    rw [← hsingle, ← hlen]
    refine replicate_any_append (fun r hr => hdot r (mem_append_left _ hr)) (mem_lit.2 ⟨runes v, ?_, rfl⟩)
    exact mem_replicate_any fun r hr => hdot r (mem_append_right _ (mem_cons_of_mem _ hr))
  · have := length_of_mem_glob ?_ (matchWildcardString_sound hmatch)
    · simp [questions, replacementRune] at this
    · simp only [mem_append, not_or]
      exact ⟨not_mem_questions (by decide) _, by decide, not_mem_questions (by decide) _⟩

end Util
