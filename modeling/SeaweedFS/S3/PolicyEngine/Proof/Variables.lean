import SeaweedFS.S3.PolicyEngine.Variables
import SeaweedFS.Util.Proof.WildcardRegexp

/-!
# Substituted patterns

Values are put into a pattern before it is matched, so a wild card in a value is a wild card of the pattern
(`substituteVariables_literal`). `compileWildcardPattern_agrees` compares the two ways to match a pattern without
variables.
-/

namespace S3.PolicyEngine

open Lib Util Glob List

variable {value : Str}

/-! ## Texts without variables -/

variable {s : Str}

theorem variableAt_of_not_mem (h : 0x24 ∉ s) : variableAt s = none := by
  unfold variableAt
  split
  next => exact absurd mem_cons_self h
  next => rfl

theorem segmentsUpTo_of_not_mem (h : 0x24 ∉ s) {fuel : Nat} (hfuel : s.length ≤ fuel) :
    segmentsUpTo fuel s = s.map .text := by
  induction s generalizing fuel with
  | nil => cases fuel <;> rfl
  | cons b s ih =>
    obtain ⟨fuel, rfl⟩ : ∃ k, fuel = k + 1 := ⟨fuel - 1, by simp at hfuel; omega⟩
    rw [segmentsUpTo, variableAt_of_not_mem h]
    rw [ih (fun hs => h (mem_cons_of_mem b hs)) (by simpa using hfuel)]
    rfl

theorem hasVariables_of_not_mem (h : 0x24 ∉ s) : hasVariables s = false := by
  have hnames : variableNames s = [] := by
    unfold variableNames segments
    rw [segmentsUpTo_of_not_mem h (le_refl _), filterMap_map]
    exact List.filterMap_eq_nil_iff.2 fun _ _ => rfl
  rw [hasVariables, hnames]
  rfl

/-! ## A text that a pattern stands for -/

/-- The pattern without its stars, and a letter for every question mark. -/
def sample (s : Str) : Str := s.flatMap fun b => if b = 0x2a then [] else if b = 0x3f then [0x61] else [b]

theorem sample_mem (s : Str) : sample s ∈ globLanguage s := by
  induction s with
  | nil => exact nil_mem_glob_nil.2 rfl
  | cons b s ih =>
    rw [sample, flatMap_cons]
    by_cases hs : b = 0x2a
    · subst hs
      exact glob_star_of_mem ih
    · by_cases hq : b = 0x3f
      · subst hq
        exact glob_question.2 ih
      · rw [if_neg hs, if_neg hq]
        exact glob_cons (.inr rfl) ih

theorem not_mem_sample {b : UInt8} (hb : b = 0x2a ∨ b = 0x3f) (s : Str) : b ∉ sample s := by
  intro h
  obtain ⟨c, -, h⟩ := List.mem_flatMap.1 h
  split at h
  · cases h
  · split at h
    · obtain rfl := List.mem_singleton.1 h
      rcases hb with hb | hb <;> cases hb
    · obtain rfl := List.mem_singleton.1 h
      rename_i hs hq
      exact hb.elim hs hq

/-! ## Substitution -/

variable {F O : Type} {print : Printer F O} {context : Str → Option (List Str)} {claims : Str → Option (Claim F O)}

theorem map_wildcardTok_literal {v : Str} (hs : 0x2a ∉ v) (hq : 0x3f ∉ v) : v.map wildcardTok = v.map .lit := by
  refine map_congr_left fun b hb => ?_
  have hne : ∀ c, c ∉ v → b ≠ c := fun c hc heq => hc (heq ▸ hb)
  rw [wildcardTok, if_neg (hne _ hs), if_neg (hne _ hq)]

theorem map_substituteVariables {pattern : Str}
    (h : ∀ name ∈ variableNames pattern, ∀ v, variableValue print context claims name = some v →
      0x2a ∉ v ∧ 0x3f ∉ v) : (substituteVariables print context claims pattern).map wildcardTok =
      literalTokens print context claims pattern := by
  unfold substituteVariables literalTokens
  rw [map_flatMap]
  refine flatMap_congr fun segment hmem => ?_
  cases segment with
  | text b => rfl
  | var name =>
    have hname : name ∈ variableNames pattern := List.mem_filterMap.2 ⟨_, hmem, rfl⟩
    dsimp only
    cases hv : variableValue print context claims name with
    | none => rfl
    | some v =>
      obtain ⟨hs, hq⟩ := h name hname v hv
      exact map_wildcardTok_literal hs hq

theorem mem_of_lit_mem {α : Type} {ok : α → Bool} {p : List (Tok α)} {s : List α} {a : α} (ha : .lit a ∈ p)
    (h : s ∈ language ok p) : a ∈ s := by
  induction p generalizing s with
  | nil => cases ha
  | cons t p ih =>
    obtain ⟨u, hu, v, hv, rfl⟩ := mem_cons.1 h
    rcases List.mem_cons.1 ha with rfl | ha
    · exact mem_append_left v ((show u = [a] from hu) ▸ mem_singleton_self a)
    · exact mem_append_right u (ih ha hv)

/-- **A resource that matches the substituted pattern matches the pattern with the values as literal text**, for
every resource, exactly if no substituted value has a wild card. -/
theorem substituteVariables_literal (print : Printer F O) (context : Str → Option (List Str))
    (claims : Str → Option (Claim F O)) (pattern : Str) :
    (∀ resource, matchesWildcard (substituteVariables print context claims pattern) resource = true →
      resource ∈ language (fun _ => true) (literalTokens print context claims pattern)) ↔
    ∀ name ∈ variableNames pattern, ∀ v, variableValue print context claims name = some v → 0x2a ∉ v ∧ 0x3f ∉ v := by
  constructor
  · intro h name hname v hv
    have hwild : ∀ b, b = 0x2a ∨ b = 0x3f → b ∉ v := by
      intro b hb hmem
      have hmatch : matchesWildcard (substituteVariables print context claims pattern)
          (sample (substituteVariables print context claims pattern)) = true := by
        rw [matchesWildcard, matchWildcardString_complete (fun _ => not_mem_sample (.inl rfl) _) (sample_mem _)]
        rfl
      have hlit : .lit b ∈ literalTokens print context claims pattern := by
        obtain ⟨segment, hseg, heq⟩ := List.mem_filterMap.1 hname
        cases segment with
        | text c => cases heq
        | var name' =>
          obtain rfl := Option.some.inj heq
          refine List.mem_flatMap.2 ⟨_, hseg, ?_⟩
          dsimp only
          rw [hv]
          exact mem_map_of_mem hmem
      exact not_mem_sample hb _ (mem_of_lit_mem hlit (h _ hmatch))
    exact ⟨hwild _ (.inl rfl), hwild _ (.inr rfl)⟩
  · intro h resource hmatch
    rw [← map_substituteVariables h]
    exact matchWildcardString_sound (beq_iff_eq.1 hmatch)

/-- The session name `*` in the resource pattern `b/${aws:username}/k`. -/
theorem substituteVariables_wildcard :
    let print : Printer Unit Unit := ⟨fun _ => none, fun _ => [], fun _ => []⟩
    let context := fun name => if name = ascii "aws:username" then some [ascii "*"] else none
    let pattern := ascii "b/$\x7baws:username\x7d/k"
    matchesWildcard (substituteVariables print context (fun _ => none) pattern) (ascii "b/alice/k") = true ∧
      ascii "b/alice/k" ∉ language (fun _ => true) (literalTokens print context (fun _ => none) pattern) := by
  refine ⟨by decide +kernel, ?_⟩
  rw [← accepts_iff]
  decide +kernel

/-! ## Patterns without variables -/

/-- The two ways to match every pattern without variables agree on `value`. -/
def MatchersAgree (value : Str) : Prop :=
  ∀ pattern re, hasVariables pattern = false → compileWildcardPattern pattern = some re →
    (Regexp.matchString re value = true ↔ matchWildcardString pattern value = some true)

section

variable (h : MatchersAgree value)
include h

theorem MatchersAgree.no_newline : 0x0a ∉ value := by
  intro hmem
  obtain ⟨re, hre, hfalse, htrue⟩ := disagree_newline hmem
  rw [(h _ re (hasVariables_of_not_mem (by decide)) hre).2 htrue] at hfalse
  cases hfalse

theorem MatchersAgree.length_runes : (runes value).length = value.length := by
  by_contra hlen
  obtain ⟨re, hre, htrue, hfalse⟩ := disagree_length h.no_newline hlen
  exact hfalse ((h _ re (hasVariables_of_not_mem (not_mem_questions (by decide) _)) hre).1 htrue)

theorem MatchersAgree.ascii : ∀ b ∈ value, b < 0x80 := by
  by_contra hnot
  obtain ⟨u, b, v, rfl, hu, hb⟩ := exists_first_high hnot
  have hlen := h.length_runes
  rw [runes_append_ascii hu, length_append, length_append, length_map] at hlen
  by_cases hinvalid : runeLen (b :: v) = 0
  · rw [runes_invalid hinvalid, length_cons, length_cons] at hlen
    obtain ⟨re, hre, htrue, hfalse⟩ := disagree_invalid hu hinvalid h.no_newline (by omega)
    refine hfalse ((h _ re (hasVariables_of_not_mem ?_) hre).1 htrue)
    simp only [mem_append, not_or]
    exact ⟨not_mem_questions (by decide) _, by decide, not_mem_questions (by decide) _⟩
  · obtain ⟨hle, hrune⟩ := isRune_take hinvalid
    have htwo : 2 ≤ runeLen (b :: v) := by
      rcases hrune.ascii_or_high with ⟨c, hc, heq⟩ | ⟨htwo, -⟩
      · have hhead : some b = some c := by
          have := congrArg List.head? heq
          rwa [head?_take, if_neg hinvalid] at this
        rw [Option.some.inj hhead] at hb
        exact absurd hc (UInt8.not_lt.2 hb)
      · rw [length_take] at htwo
        omega
    have hsplit := runes_rune hrune ((b :: v).drop (runeLen (b :: v)))
    have hrest := length_runes_le ((b :: v).drop (runeLen (b :: v)))
    rw [take_append_drop] at hsplit
    rw [hsplit, length_cons] at hlen
    rw [length_drop] at hrest
    omega

theorem MatchersAgree.no_star : 0x2a ∉ value := by
  intro hmem
  have hplain : Plain value := fun b hb => ⟨h.ascii b hb, fun heq => h.no_newline (heq ▸ hb)⟩
  obtain ⟨u, v, rfl⟩ := append_of_mem hmem
  have hpattern : ∀ b ∈ missed u v, b = 0x3f ∨ b = 0x2a := by
    intro b hb
    simp only [missed, mem_append, List.mem_cons, not_mem_nil, or_false] at hb
    rcases hb with hb | hb | hb | hb
    · exact .inl (eq_of_mem_replicate hb)
    · exact .inr hb
    · exact .inl (eq_of_mem_replicate hb)
    · exact .inl hb
  have hutf : Utf8 (missed u v) := by
    rw [← append_nil (missed u v)]
    refine .append_ascii (fun b hb => ?_) .nil
    rcases hpattern b hb with rfl | rfl <;> decide
  have hcompile := compileWildcardPattern_eq hutf
  have hvariables : hasVariables (missed u v) = false := by
    refine hasVariables_of_not_mem fun hb => ?_
    rcases hpattern _ hb with hb | hb <;> cases hb
  have htrue := (matchString_iff_glob hplain hcompile).2 (mem_glob_missed u v)
  have hmatch := (h _ _ hvariables hcompile).1 htrue
  rw [matchWildcardString_missed] at hmatch
  cases hmatch

end

/-- **The regular expression and the matcher accept the same values**, over all patterns without variables that
compile, exactly if the value is ASCII without line feeds and stars. -/
theorem compileWildcardPattern_agrees (value : Str) :
    (∀ pattern re, hasVariables pattern = false → compileWildcardPattern pattern = some re →
      (Regexp.matchString re value = true ↔ matchWildcardString pattern value = some true)) ↔
    ∀ b ∈ value, b < 0x80 ∧ b ≠ 0x0a ∧ b ≠ 0x2a := by
  constructor
  · intro h b hb
    have h : MatchersAgree value := h
    exact ⟨h.ascii b hb, fun heq => h.no_newline (heq ▸ hb), fun heq => h.no_star (heq ▸ hb)⟩
  · intro h pattern re _ hre
    have hplain : Plain value := fun b hb => ⟨(h b hb).1, (h b hb).2.1⟩
    rw [matchString_iff_glob hplain hre]
    exact ⟨matchWildcardString_complete fun _ hb => (h _ hb).2.2 rfl, matchWildcardString_sound⟩

/-- The key `a`, line feed, `b` and the pattern `b/*`. -/
theorem compileWildcardPattern_newline :
    ∃ re, compileWildcardPattern (ascii "b/*") = some re ∧ hasVariables (ascii "b/*") = false ∧
      Regexp.matchString re (ascii "b/a\nb") = false ∧
      matchWildcardString (ascii "b/*") (ascii "b/a\nb") = some true :=
  ⟨[.lit [0x62], .lit [0x2f], .star], by decide +kernel, by decide +kernel, by decide +kernel, by decide +kernel⟩

end S3.PolicyEngine
