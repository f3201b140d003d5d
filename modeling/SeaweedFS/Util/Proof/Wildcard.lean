import SeaweedFS.Util.Wildcard

/-!
# What the wildcard matcher accepts

`scanWildcard_cases` is the inversion lemma of the loop. Going back to the last star only is enough as long as no star
of the pattern meets a star of the subject: `Trail` says that the subject since the last star was covered byte by byte
(`scanWildcard_complete`).
-/

namespace Util

open Lib Glob List Option

/-! ## The glob language -/

variable {pattern str p t q m : Str} {a b : UInt8} {lastStar : Option (Str × Str)} {fuel : Nat} {r : Bool}

theorem nil_mem_glob_nil : str ∈ globLanguage [] ↔ str = [] := mem_nil

theorem glob_append_star (u : Str) (h : t ∈ globLanguage (0x2a :: p)) : u ++ t ∈ globLanguage (0x2a :: p) :=
  star_append (fun _ _ => rfl) h

theorem glob_star_of_mem (h : t ∈ globLanguage p) : t ∈ globLanguage (0x2a :: p) := mem_star_of_mem h

theorem nil_mem_glob_star : [] ∈ globLanguage (0x2a :: p) ↔ [] ∈ globLanguage p := mem_star_nil

theorem cons_mem_glob_star :
    b :: t ∈ globLanguage (0x2a :: p) ↔ b :: t ∈ globLanguage p ∨ t ∈ globLanguage (0x2a :: p) := by
  refine mem_star_cons.trans ?_
  rw [eq_self_iff_true, true_and]
  rfl

theorem glob_question : b :: t ∈ globLanguage (0x3f :: p) ↔ t ∈ globLanguage p := by
  refine mem_any.trans ⟨?_, fun h => ⟨b, rfl, t, h, rfl⟩⟩
  rintro ⟨c, -, v, hv, h⟩
  exact (List.cons.inj h).2 ▸ hv

theorem map_cons_literal (hs : a ≠ 0x2a) (hq : a ≠ 0x3f) :
    (a :: p).map wildcardTok = .lit a :: p.map wildcardTok := by
  rw [map_cons, wildcardTok, if_neg hs, if_neg hq]

theorem glob_literal (hs : a ≠ 0x2a) (hq : a ≠ 0x3f) :
    str ∈ globLanguage (a :: p) ↔ ∃ v ∈ globLanguage p, a :: v = str := by
  unfold globLanguage
  rw [map_cons_literal hs hq]
  exact mem_lit

/-- A byte covered by `?` or by itself. -/
theorem glob_cons (h : a = 0x3f ∨ a = b) (ht : t ∈ globLanguage p) : b :: t ∈ globLanguage (a :: p) := by
  by_cases hs : a = 0x2a
  · subst hs
    exact glob_append_star [b] (glob_star_of_mem ht)
  · by_cases hq : a = 0x3f
    · subst hq
      exact glob_question.2 ht
    · obtain rfl : a = b := h.resolve_left hq
      exact (glob_literal hs hq).2 ⟨t, ht, rfl⟩

theorem glob_of_cons (h : a = 0x3f ∨ a = b) (hs : a ≠ 0x2a) (ht : b :: t ∈ globLanguage (a :: p)) :
    t ∈ globLanguage p := by
  by_cases hq : a = 0x3f
  · subst hq
    exact glob_question.1 ht
  · obtain ⟨v, hv, h⟩ := (glob_literal hs hq).1 ht
    exact (List.cons.inj h).2 ▸ hv

theorem self_mem_glob : ∀ s : Str, s ∈ globLanguage s
  | [] => nil_mem_glob_nil.2 rfl
  | _ :: s => glob_cons (.inr rfl) (self_mem_glob s)

theorem nil_mem_glob : [] ∈ globLanguage p ↔ (p.dropWhile (· = 0x2a)).isEmpty = true := by
  induction p with
  | nil => simp [nil_mem_glob_nil]
  | cons a p ih =>
    by_cases hs : a = 0x2a
    · subst hs
      rw [nil_mem_glob_star, ih]
      simp
    · rw [dropWhile_cons_of_neg (by simpa using hs)]
      simp only [isEmpty_cons, Bool.false_eq_true, iff_false]
      intro h
      by_cases hq : a = 0x3f
      · subst hq
        obtain ⟨b, -, v, -, h⟩ := mem_any.1 h
        cases h
      · obtain ⟨v, -, h⟩ := (glob_literal hs hq).1 h
        cases h

theorem exists_suffix_of_glob_star (h : str ∈ globLanguage (0x2a :: p)) : ∃ w, w <:+ str ∧ w ∈ globLanguage p := by
  obtain ⟨u, -, v, hv, rfl⟩ := mem_cons.1 h
  exact ⟨v, suffix_append u v, hv⟩

theorem starFree_map {u : Str} (hu : 0x2a ∉ u) : Tok.star ∉ u.map wildcardTok := by
  intro h
  obtain ⟨c, hc, h⟩ := List.mem_map.1 h
  have hs : c ≠ 0x2a := fun heq => hu (heq ▸ hc)
  rw [wildcardTok, if_neg hs] at h
  split at h <;> cases h

theorem length_of_mem_glob (hp : 0x2a ∉ p) (h : str ∈ globLanguage p) : str.length = p.length := by
  rw [length_of_starFree (starFree_map hp) h, length_map]

/-! ## One iteration -/

/-- The byte at the front of the pattern covers no `b`. -/
def Stuck (pattern : Str) (b : UInt8) : Prop := ∀ a p, pattern = a :: p → a ≠ 0x3f ∧ a ≠ b ∧ a ≠ 0x2a

/-- **What an iteration does.** -/
theorem scanWildcard_cases (fuel : Nat) (pattern : Str) (b : UInt8) (t : Str) (lastStar : Option (Str × Str)) :
    (∃ a p, pattern = a :: p ∧ (a = 0x3f ∨ a = b) ∧
      scanWildcard (fuel + 1) pattern (b :: t) lastStar = scanWildcard fuel p t lastStar) ∨
    (∃ p, pattern = 0x2a :: p ∧ b ≠ 0x2a ∧
      scanWildcard (fuel + 1) pattern (b :: t) lastStar = scanWildcard fuel p (b :: t) (some (p, b :: t))) ∨
    (Stuck pattern b ∧ ∃ q m, lastStar = some (q, m) ∧
      scanWildcard (fuel + 1) pattern (b :: t) lastStar = scanWildcard fuel q m.tail (some (q, m.tail))) ∨
    (Stuck pattern b ∧ lastStar = none ∧ scanWildcard (fuel + 1) pattern (b :: t) lastStar = some false) := by
  cases pattern with
  | nil =>
    have hstuck : Stuck [] b := by rintro _ _ ⟨⟩
    cases lastStar with
    | none => exact .inr (.inr (.inr ⟨hstuck, rfl, rfl⟩))
    | some s => exact .inr (.inr (.inl ⟨hstuck, s.1, s.2, rfl, rfl⟩))
  | cons a p =>
    by_cases h1 : a = 0x3f ∨ a = b
    · exact .inl ⟨a, p, rfl, h1, by simp only [scanWildcard, if_pos h1]⟩
    · by_cases h2 : a = 0x2a
      · subst h2
        refine .inr (.inl ⟨p, rfl, fun hb => h1 (.inr hb.symm), ?_⟩)
        simp only [scanWildcard, if_neg h1, if_true]
      · have hstuck : Stuck (a :: p) b := by
          intro a' p' heq
          obtain ⟨rfl, rfl⟩ := List.cons.inj heq
          exact ⟨fun ha => h1 (.inl ha), fun ha => h1 (.inr ha), h2⟩
        cases lastStar with
        | none => exact .inr (.inr (.inr ⟨hstuck, rfl, (if_neg h1).trans (if_neg h2)⟩))
        | some s => exact .inr (.inr (.inl ⟨hstuck, s.1, s.2, rfl, (if_neg h1).trans (if_neg h2)⟩))

/-! ## The loop ends -/

/-- What the loop goes back to is no shorter than what it has. -/
def Back (pattern str : Str) (lastStar : Option (Str × Str)) : Prop :=
  ∀ q m, lastStar = some (q, m) → pattern.length ≤ q.length ∧ str.length ≤ m.length

/-- What every iteration makes smaller. -/
def scanMeasure (pattern str : Str) : Option (Str × Str) → Nat
  | some (q, m) => (q.length + 2) * (m.length + 1) + pattern.length
  | none => (pattern.length + 3) * (str.length + 1) + pattern.length

theorem scanWildcard_total (hback : Back pattern str lastStar) (hfuel : scanMeasure pattern str lastStar < fuel) :
    ∃ r, scanWildcard fuel pattern str lastStar = some r := by
  induction fuel generalizing pattern str lastStar with
  | zero => omega
  | succ fuel ih =>
    cases str with
    | nil => exact ⟨_, rfl⟩
    | cons b t =>
      rcases scanWildcard_cases fuel pattern b t lastStar with
        ⟨a, p, rfl, -, h⟩ | ⟨p, rfl, -, h⟩ | ⟨-, q, m, rfl, h⟩ | ⟨-, -, h⟩
      · rw [h]
        refine ih (fun q m hs => ?_) ?_
        · have := hback q m hs
          simp only [length_cons] at this
          omega
        · cases lastStar with
          | none =>
            simp only [scanMeasure, length_cons] at hfuel ⊢
            nlinarith
          | some s =>
            simp only [scanMeasure, length_cons] at hfuel ⊢
            omega
      · rw [h]
        refine ih (fun q m hs => ?_) ?_
        · obtain ⟨rfl, rfl⟩ := Prod.mk.inj (some.inj hs)
          exact ⟨le_refl _, le_refl _⟩
        · cases lastStar with
          | none =>
            simp only [scanMeasure, length_cons] at hfuel ⊢
            nlinarith
          | some s =>
            obtain ⟨q, m⟩ := s
            have hlen := hback q m rfl
            simp only [scanMeasure, length_cons] at hfuel hlen ⊢
            have : (p.length + 2) * (t.length + 1 + 1) ≤ (q.length + 2) * (m.length + 1) :=
              Nat.mul_le_mul (by omega) (by omega)
            omega
      · rw [h]
        refine ih (fun q' m' hs => ?_) ?_
        · obtain ⟨rfl, rfl⟩ := Prod.mk.inj (some.inj hs)
          exact ⟨le_refl _, le_refl _⟩
        · have hlen := (hback q m rfl).2
          cases m with
          | nil => cases hlen
          | cons c m =>
            simp only [scanMeasure, length_cons, tail_cons] at hfuel ⊢
            nlinarith
      · exact ⟨_, h⟩

/-! ## What is accepted is in the language -/

theorem scanWildcard_sound (h : scanWildcard fuel pattern str lastStar = some true) :
    str ∈ globLanguage pattern ∨ ∃ q m, lastStar = some (q, m) ∧ m.tail ∈ globLanguage (0x2a :: q) := by
  induction fuel generalizing pattern str lastStar with
  | zero => cases h
  | succ fuel ih =>
    cases str with
    | nil => exact .inl (nil_mem_glob.2 (some.inj h))
    | cons b t =>
      rcases scanWildcard_cases fuel pattern b t lastStar with
        ⟨a, p, rfl, hab, hs⟩ | ⟨p, rfl, -, hs⟩ | ⟨-, q, m, rfl, hs⟩ | ⟨-, -, hs⟩
      · rcases ih (hs ▸ h) with ht | hold
        · exact .inl (glob_cons hab ht)
        · exact .inr hold
      · refine .inl (cons_mem_glob_star.2 ?_)
        rcases ih (hs ▸ h) with ht | ⟨q, m, heq, hm⟩
        · exact .inl ht
        · obtain ⟨rfl, rfl⟩ := Prod.mk.inj (some.inj heq)
          exact .inr hm
      · refine .inr ⟨q, m, rfl, ?_⟩
        rcases ih (hs ▸ h) with hm | ⟨q', m', heq, hm⟩
        · exact glob_star_of_mem hm
        · obtain ⟨rfl, rfl⟩ := Prod.mk.inj (some.inj heq)
          cases hmt : m.tail with
          | nil => rwa [hmt] at hm
          | cons c m' =>
            rw [hmt] at hm
            exact cons_mem_glob_star.2 (.inr hm)
      · rw [hs] at h
        cases h

/-! ## What is rejected is not -/

/-- The way from the last star to here, and no star of the pattern can meet one of the subject. -/
structure Trail (pattern str : Str) (lastStar : Option (Str × Str)) : Prop where
  covered : ∀ q m, lastStar = some (q, m) →
    ∃ u v, q = u ++ pattern ∧ m = v ++ str ∧ u.length = v.length ∧ 0x2a ∉ u
  clear : 0x2a ∈ pattern → 0x2a ∉ str
  clearBack : ∀ q m, lastStar = some (q, m) → 0x2a ∈ q → 0x2a ∉ m

namespace Trail

theorem start (hclear : 0x2a ∈ pattern → 0x2a ∉ str) : Trail pattern str none where
  covered _ _ h := nomatch h
  clear := hclear
  clearBack _ _ h := nomatch h

theorem here (hclear : 0x2a ∈ q → 0x2a ∉ m) : Trail q m (some (q, m)) := by
  refine ⟨fun q' m' heq => ?_, hclear, fun q' m' heq => ?_⟩
  · obtain ⟨rfl, rfl⟩ := Prod.mk.inj (some.inj heq)
    exact ⟨[], [], rfl, rfl, rfl, not_mem_nil⟩
  · obtain ⟨rfl, rfl⟩ := Prod.mk.inj (some.inj heq)
    exact hclear

theorem ne_star (h : Trail (a :: p) (b :: t) lastStar) (hab : a = 0x3f ∨ a = b) : a ≠ 0x2a := by
  rintro rfl
  rcases hab with hab | rfl
  · cases hab
  · exact h.clear mem_cons_self mem_cons_self

theorem advance (h : Trail (a :: p) (b :: t) lastStar) (hab : a = 0x3f ∨ a = b) : Trail p t lastStar := by
  refine ⟨fun q m heq => ?_, fun hp ht => ?_, h.clearBack⟩
  · obtain ⟨u, v, rfl, rfl, hlen, hu⟩ := h.covered q m heq
    refine ⟨u ++ [a], v ++ [b], by simp, by simp, by simp [hlen], ?_⟩
    rw [mem_append, mem_singleton, not_or]
    exact ⟨hu, (h.ne_star hab).symm⟩
  · exact h.clear (mem_cons_of_mem a hp) (mem_cons_of_mem b ht)

theorem register (h : Trail (0x2a :: p) (b :: t) lastStar) : Trail p (b :: t) (some (p, b :: t)) :=
  here fun _ => h.clear mem_cons_self

theorem retry (h : Trail pattern str (some (q, m))) : Trail q m.tail (some (q, m.tail)) :=
  here fun hq hm => h.clearBack q m rfl hq (mem_of_mem_tail hm)

/-- What an earlier star offers behind its last position is offered from here on. -/
theorem abandon (h : Trail pattern str (some (q, m))) (hm : m.tail ∈ globLanguage (0x2a :: q)) :
    ∃ w, w <:+ str ∧ w ∈ globLanguage pattern := by
  obtain ⟨u, v, rfl, rfl, hlen, hu⟩ := h.covered q m rfl
  obtain ⟨w, hw, hmem⟩ := exists_suffix_of_glob_star hm
  unfold globLanguage at hmem
  rw [map_append] at hmem
  obtain ⟨v', w', rfl, hlen', hw'⟩ := split_of_starFree (starFree_map hu) hmem
  refine ⟨w', ?_, hw'⟩
  have hsuf : w' <:+ v ++ str := ((suffix_append v' w').trans hw).trans (tail_suffix _)
  have hle : w'.length ≤ str.length := by
    have := hw.length_le
    simp only [length_append, length_map, List.length_tail] at this hlen'
    omega
  exact suffix_of_suffix_length_le hsuf (suffix_append v str) hle

end Trail

theorem not_mem_glob_of_stuck (h : Stuck pattern b) : b :: t ∉ globLanguage pattern := by
  intro hmem
  cases pattern with
  | nil => cases nil_mem_glob_nil.1 hmem
  | cons a p =>
    obtain ⟨hq, hb, hs⟩ := h a p rfl
    obtain ⟨v, -, heq⟩ := (glob_literal hs hq).1 hmem
    exact hb (List.cons.inj heq).1

theorem scanWildcard_complete (htrail : Trail pattern str lastStar)
    (h : scanWildcard fuel pattern str lastStar = some false) :
    str ∉ globLanguage pattern ∧ ∀ q m, lastStar = some (q, m) → m.tail ∉ globLanguage (0x2a :: q) := by
  induction fuel generalizing pattern str lastStar with
  | zero => cases h
  | succ fuel ih =>
    cases str with
    | nil =>
      have hnil : [] ∉ globLanguage pattern := by
        rw [nil_mem_glob, some.inj h]
        exact Bool.false_ne_true
      refine ⟨hnil, ?_⟩
      rintro q m rfl hm
      obtain ⟨w, hw, hmem⟩ := htrail.abandon hm
      rw [List.suffix_nil.1 hw] at hmem
      exact hnil hmem
    | cons b t =>
      rcases scanWildcard_cases fuel pattern b t lastStar with
        ⟨a, p, rfl, hab, hs⟩ | ⟨p, rfl, -, hs⟩ | ⟨hstuck, q, m, rfl, hs⟩ | ⟨hstuck, rfl, -⟩
      · obtain ⟨ht, hold⟩ := ih (htrail.advance hab) (hs ▸ h)
        exact ⟨fun hmem => ht (glob_of_cons hab (htrail.ne_star hab) hmem), hold⟩
      · obtain ⟨ht, hold⟩ := ih htrail.register (hs ▸ h)
        have hstar : b :: t ∉ globLanguage (0x2a :: p) := by
          rw [cons_mem_glob_star, not_or]
          exact ⟨ht, hold p (b :: t) rfl⟩
        refine ⟨hstar, ?_⟩
        rintro q m rfl hm
        obtain ⟨w, ⟨u, hu⟩, hmem⟩ := htrail.abandon hm
        rw [← hu] at hstar
        exact hstar (glob_append_star u hmem)
      · refine ⟨not_mem_glob_of_stuck hstuck, fun q' m' heq hm => ?_⟩
        obtain ⟨rfl, rfl⟩ := Prod.mk.inj (some.inj heq)
        obtain ⟨hmt, hold⟩ := ih htrail.retry (hs ▸ h)
        have hold := hold q m.tail rfl
        cases hcons : m.tail with
        | nil =>
          rw [hcons] at hm hmt
          exact hmt (nil_mem_glob_star.1 hm)
        | cons c m' =>
          rw [hcons] at hm hmt hold
          rcases cons_mem_glob_star.1 hm with hm | hm
          · exact hmt hm
          · exact hold hm
      · exact ⟨not_mem_glob_of_stuck hstuck, nofun⟩

/-! ## The matcher -/

theorem matchWildcardString_total (pattern str : Str) : ∃ r, matchWildcardString pattern str = some r := by
  unfold matchWildcardString
  split
  next => exact ⟨true, rfl⟩
  next =>
    split
    next => exact ⟨true, rfl⟩
    next =>
      refine scanWildcard_total nofun ?_
      simp only [scanMeasure, wildcardFuel]
      nlinarith

theorem matchWildcardString_sound (h : matchWildcardString pattern str = some true) : str ∈ globLanguage pattern := by
  unfold matchWildcardString at h
  split at h
  next heq =>
    rw [heq, ← append_nil str]
    exact glob_append_star str (nil_mem_glob.2 rfl)
  next =>
    split at h
    next heq => exact heq ▸ self_mem_glob pattern
    next =>
      rcases scanWildcard_sound h with hmem | ⟨q, m, heq, -⟩
      · exact hmem
      · cases heq

theorem matchWildcardString_complete (hclear : 0x2a ∈ pattern → 0x2a ∉ str) (hmem : str ∈ globLanguage pattern) :
    matchWildcardString pattern str = some true := by
  obtain ⟨r, hr⟩ := matchWildcardString_total pattern str
  cases r with
  | true => exact hr
  | false =>
    unfold matchWildcardString at hr
    split at hr
    next => cases hr
    next =>
      split at hr
      next => cases hr
      next => exact absurd hmem (scanWildcard_complete (.start hclear) hr).1

/-! ## A star that meets a star -/

/-- A run of question marks. -/
def questions (n : Nat) : Str := List.replicate n 0x3f

theorem glob_questions (u : Str) (h : t ∈ globLanguage p) : u ++ t ∈ globLanguage (questions u.length ++ p) := by
  induction u with
  | nil => exact h
  | cons b u ih => exact glob_question.2 ih

theorem scanWildcard_questions {u : Str}
    (h : scanWildcard fuel (questions u.length ++ p) (u ++ t) lastStar = some r) :
    ∃ fuel, scanWildcard fuel p t lastStar = some r := by
  induction u generalizing fuel with
  | nil => exact ⟨fuel, h⟩
  | cons b u ih =>
    cases fuel with
    | zero => cases h
    | succ fuel =>
      rw [questions, length_cons, replicate_succ, cons_append, cons_append] at h
      exact ih h

/-- A star at the place of a star, one question mark more than bytes behind it. -/
def missed (u v : Str) : Str := questions u.length ++ 0x2a :: (questions v.length ++ [0x3f])

theorem mem_glob_missed (u v : Str) : u ++ 0x2a :: v ∈ globLanguage (missed u v) := by
  refine glob_questions u (glob_star_of_mem ?_)
  have hswap : questions v.length ++ [0x3f] = 0x3f :: (questions v.length ++ []) := by
    rw [questions, ← replicate_succ', replicate_succ, append_nil]
  rw [hswap]
  refine glob_question.2 ?_
  have hv : v ++ [] ∈ globLanguage (questions v.length ++ []) := glob_questions v (nil_mem_glob_nil.2 rfl)
  rwa [append_nil v] at hv

theorem scanWildcard_missed {u v : Str} (h : scanWildcard fuel (missed u v) (u ++ 0x2a :: v) none = some r) :
    r = false := by
  obtain ⟨fuel, h⟩ := scanWildcard_questions h
  cases fuel with
  | zero => cases h
  | succ fuel =>
    have hv : scanWildcard fuel (questions v.length ++ [0x3f]) (v ++ []) none = some r := by
      rwa [append_nil]
    obtain ⟨fuel, h⟩ := scanWildcard_questions hv
    cases fuel with
    | zero => cases h
    | succ fuel => exact (some.inj h).symm

/-- For a subject with a star there is a pattern that stands for it and that the matcher rejects. -/
theorem matchWildcardString_missed (u v : Str) :
    matchWildcardString (missed u v) (u ++ 0x2a :: v) = some false := by
  have hlen : (missed u v).length = u.length + v.length + 2 := by
    simp only [missed, questions, length_append, length_cons, length_replicate, length_nil]
    omega
  obtain ⟨r, hr⟩ := matchWildcardString_total (missed u v) (u ++ 0x2a :: v)
  rw [hr]
  unfold matchWildcardString at hr
  rw [if_neg, if_neg] at hr
  · rw [scanWildcard_missed hr]
  · intro heq
    rw [heq, length_append, length_cons] at hlen
    omega
  · intro heq
    rw [heq, length_singleton] at hlen
    omega

/-- **The matcher and the glob language.** It ends and accepts only what is in the language: all of it unless both
strings have a star, and under every pattern exactly for subjects without a star. -/
theorem matchWildcardString_glob (str : Str) :
    (∀ pattern, ∃ r, matchWildcardString pattern str = some r) ∧
    (∀ pattern, matchWildcardString pattern str = some true → str ∈ globLanguage pattern) ∧
    (∀ pattern, ¬ (0x2a ∈ pattern ∧ 0x2a ∈ str) →
      (matchWildcardString pattern str = some true ↔ str ∈ globLanguage pattern)) ∧
    ((∀ pattern, matchWildcardString pattern str = some true ↔ str ∈ globLanguage pattern) ↔ 0x2a ∉ str) := by
  refine ⟨fun pattern => matchWildcardString_total pattern str, fun _ => matchWildcardString_sound,
    fun pattern hclear => ?_, fun h hstar => ?_, fun hstar pattern => ?_⟩
  · exact ⟨matchWildcardString_sound, matchWildcardString_complete fun hp hs => hclear ⟨hp, hs⟩⟩
  · obtain ⟨u, v, rfl⟩ := append_of_mem hstar
    have hfalse := matchWildcardString_missed u v
    rw [(h (missed u v)).2 (mem_glob_missed u v)] at hfalse
    cases hfalse
  · exact ⟨matchWildcardString_sound, matchWildcardString_complete fun _ => hstar⟩

/-- The key `*ba` and the pattern `*a`. -/
theorem matchWildcardString_misses :
    ascii "*ba" ∈ globLanguage (ascii "*a") ∧ matchWildcardString (ascii "*a") (ascii "*ba") = some false := by
  refine ⟨?_, by decide +kernel⟩
  exact glob_append_star [0x2a, 0x62] (glob_star_of_mem (self_mem_glob [0x61]))

end Util
