import Mathlib

/-!
# UTF-8

`runeLen s` is the length of the encoded rune at the front of `s`, zero if there is none. A text is `Utf8` if it
is made of runes. `runes` decodes any text: a byte that begins no rune counts as the replacement character.
-/

namespace Lib

open List

variable {s : List UInt8} {b : UInt8}

/-- A continuation byte. -/
def isCont (b : UInt8) : Bool := 0x80 ≤ b && b ≤ 0xbf

/-- The second byte of a rune of three or four bytes that begins with `b`, which is not overlong, a surrogate or
beyond the last code point. -/
def isSecond (b b1 : UInt8) : Bool :=
  (if b = 0xe0 then 0xa0 else if b = 0xf0 then 0x90 else 0x80) ≤ b1 &&
    b1 ≤ (if b = 0xed then 0x9f else if b = 0xf4 then 0x8f else 0xbf)

/-- The length of the rune at the front. -/
def runeLen : List UInt8 → Nat
  | [] => 0
  | b :: s =>
    if b < 0x80 then 1
    else if 0xc2 ≤ b ∧ b ≤ 0xdf then
      match s with
      | b1 :: _ => if isCont b1 then 2 else 0
      | [] => 0
    else if 0xe0 ≤ b ∧ b ≤ 0xef then
      match s with
      | b1 :: b2 :: _ => if isSecond b b1 && isCont b2 then 3 else 0
      | _ => 0
    else if 0xf0 ≤ b ∧ b ≤ 0xf4 then
      match s with
      | b1 :: b2 :: b3 :: _ => if isSecond b b1 && isCont b2 && isCont b3 then 4 else 0
      | _ => 0
    else 0

/-- The encoding of one rune. -/
structure IsRune (r : List UInt8) : Prop where
  ne_nil : r ≠ []
  len : ∀ t, runeLen (r ++ t) = r.length

theorem isRune_take (h : runeLen s ≠ 0) : runeLen s ≤ s.length ∧ IsRune (s.take (runeLen s)) := by
  cases s with
  | nil => exact absurd rfl h
  | cons b s =>
    unfold runeLen at h ⊢
    dsimp only at h ⊢
    by_cases h1 : b < 0x80
    · rw [if_pos h1]
      exact ⟨by simp, by simp, fun t => if_pos h1⟩
    · rw [if_neg h1] at h ⊢
      by_cases h2 : 0xc2 ≤ b ∧ b ≤ 0xdf
      · rw [if_pos h2] at h ⊢
        match s, h with
        | b1 :: s, h =>
          dsimp only at h ⊢
          by_cases hc : isCont b1
          · rw [if_pos hc]
            refine ⟨by simp, by simp, fun t => ?_⟩
            show runeLen (b :: b1 :: t) = 2
            simp only [runeLen, if_neg h1, if_pos h2, if_pos hc]
          · exact absurd (if_neg hc) h
      · rw [if_neg h2] at h ⊢
        by_cases h3 : 0xe0 ≤ b ∧ b ≤ 0xef
        · rw [if_pos h3] at h ⊢
          match s, h with
          | b1 :: b2 :: s, h =>
            dsimp only at h ⊢
            by_cases hc : isSecond b b1 && isCont b2
            · rw [if_pos hc]
              refine ⟨by simp, by simp, fun t => ?_⟩
              show runeLen (b :: b1 :: b2 :: t) = 3
              simp only [runeLen, if_neg h1, if_neg h2, if_pos h3, if_pos hc]
            · exact absurd (if_neg hc) h
        · rw [if_neg h3] at h ⊢
          by_cases h4 : 0xf0 ≤ b ∧ b ≤ 0xf4
          · rw [if_pos h4] at h ⊢
            match s, h with
            | b1 :: b2 :: b3 :: s, h =>
              dsimp only at h ⊢
              by_cases hc : isSecond b b1 && isCont b2 && isCont b3
              · rw [if_pos hc]
                refine ⟨by simp, by simp, fun t => ?_⟩
                show runeLen (b :: b1 :: b2 :: b3 :: t) = 4
                simp only [runeLen, if_neg h1, if_neg h2, if_neg h3, if_pos h4, if_pos hc]
              · exact absurd (if_neg hc) h
          · exact absurd (if_neg h4) h

/-- A text made of runes. -/
inductive Utf8 : List UInt8 → Prop
  | nil : Utf8 []
  | rune {r s : List UInt8} (hr : IsRune r) (hs : Utf8 s) : Utf8 (r ++ s)

theorem isRune_ascii (h : b < 0x80) : IsRune [b] := ⟨by simp, fun t => if_pos h⟩

/-! ## Decoding -/

/-- U+FFFD. -/
def replacementRune : List UInt8 := [0xef, 0xbf, 0xbd]

/-- The runes of a text, `fuel` of them at most. -/
def runesUpTo : Nat → List UInt8 → List (List UInt8)
  | _, [] => []
  | 0, _ :: _ => []
  | fuel + 1, b :: s =>
    let n := runeLen (b :: s)
    if n = 0 then replacementRune :: runesUpTo fuel s
    else (b :: s).take n :: runesUpTo fuel ((b :: s).drop n)

/-- The runes of a text, each by its encoding. -/
def runes (s : List UInt8) : List (List UInt8) := runesUpTo s.length s

theorem runesUpTo_eq {fuel : Nat} (h : s.length ≤ fuel) : runesUpTo fuel s = runes s := by
  suffices hind : ∀ (n : Nat) (s : List UInt8), s.length = n →
      ∀ fuel fuel', s.length ≤ fuel → s.length ≤ fuel' → runesUpTo fuel s = runesUpTo fuel' s from
    hind _ s rfl fuel s.length h (le_refl _)
  intro n
  induction n using Nat.strong_induction_on with
  | _ n ih =>
    intro s hn fuel fuel' hf hf'
    cases s with
    | nil => cases fuel <;> cases fuel' <;> rfl
    | cons b s =>
      obtain ⟨k, rfl⟩ : ∃ k, fuel = k + 1 := ⟨fuel - 1, by simp at hf; omega⟩
      obtain ⟨k', rfl⟩ : ∃ k', fuel' = k' + 1 := ⟨fuel' - 1, by simp at hf'; omega⟩
      rw [length_cons] at hn hf hf'
      simp only [runesUpTo]
      by_cases h0 : runeLen (b :: s) = 0
      · rw [if_pos h0, if_pos h0, ih s.length (by omega) s rfl k k' (by omega) (by omega)]
      · have hlen : ((b :: s).drop (runeLen (b :: s))).length < s.length + 1 := by
          rw [length_drop, length_cons]
          omega
        rw [if_neg h0, if_neg h0, ih _ (by omega) _ rfl k k' (by omega) (by omega)]

theorem runes_invalid (h : runeLen (b :: s) = 0) : runes (b :: s) = replacementRune :: runes s := by
  unfold runes
  rw [length_cons, runesUpTo, if_pos h]

theorem runes_rune {r : List UInt8} (hr : IsRune r) (s : List UInt8) : runes (r ++ s) = r :: runes s := by
  cases r with
  | nil => exact absurd rfl hr.ne_nil
  | cons b r =>
    have hlen := hr.len s
    rw [cons_append] at hlen
    unfold runes
    rw [cons_append, length_cons, runesUpTo, hlen, if_neg (by simp), ← cons_append, take_left,
      drop_left]
    congr 1
    exact runesUpTo_eq (by simp)

theorem IsRune.ascii_or_high {r : List UInt8} (hr : IsRune r) :
    (∃ b, b < 0x80 ∧ r = [b]) ∨ 2 ≤ r.length ∧ ∀ b ∈ r, 0x80 ≤ b := by
  have hlen := hr.len []
  rw [append_nil] at hlen
  cases r with
  | nil => exact absurd rfl hr.ne_nil
  | cons b r =>
    unfold runeLen at hlen
    dsimp only at hlen
    have hcont : ∀ c, isCont c = true → 0x80 ≤ c := by
      intro c hc
      simp only [isCont, Bool.and_eq_true, decide_eq_true_eq] at hc
      exact hc.1
    have hsecond : ∀ c, isSecond b c = true → 0x80 ≤ c := by
      intro c hc
      simp only [isSecond, Bool.and_eq_true, decide_eq_true_eq] at hc
      refine UInt8.le_trans ?_ hc.1
      split
      · decide
      · split <;> decide
    by_cases h1 : b < 0x80
    · rw [if_pos h1] at hlen
      obtain rfl : r = [] := List.length_eq_zero_iff.1 (by simpa using hlen.symm)
      exact .inl ⟨b, h1, rfl⟩
    · have hb : 0x80 ≤ b := UInt8.not_lt.1 h1
      rw [if_neg h1] at hlen
      split at hlen
      next =>
        match r, hlen with
        | [], hlen => cases hlen
        | [b1], hlen =>
          dsimp only at hlen
          split at hlen
          next hc => simp [hb, hcont b1 hc]
          next => cases hlen
        | b1 :: b2 :: r, hlen =>
          dsimp only at hlen
          split at hlen
          next => simp at hlen
          next => cases hlen
      next =>
        split at hlen
        next =>
          match r, hlen with
          | [], hlen => cases hlen
          | [b1], hlen => cases hlen
          | [b1, b2], hlen =>
            dsimp only at hlen
            split at hlen
            next hc =>
              rw [Bool.and_eq_true] at hc
              simp [hb, hsecond b1 hc.1, hcont b2 hc.2]
            next => cases hlen
          | b1 :: b2 :: b3 :: r, hlen =>
            dsimp only at hlen
            split at hlen
            next => simp at hlen
            next => cases hlen
        next =>
          split at hlen
          next =>
            match r, hlen with
            | [], hlen => cases hlen
            | [b1], hlen => cases hlen
            | [b1, b2], hlen => cases hlen
            | [b1, b2, b3], hlen =>
              dsimp only at hlen
              split at hlen
              next hc =>
                rw [Bool.and_eq_true, Bool.and_eq_true] at hc
                simp [hb, hsecond b1 hc.1.1, hcont b2 hc.1.2, hcont b3 hc.2]
              next => cases hlen
            | b1 :: b2 :: b3 :: b4 :: r, hlen =>
              dsimp only at hlen
              split at hlen
              next => simp at hlen
              next => cases hlen
          next => cases hlen

theorem runes_ascii (h : b < 0x80) (s : List UInt8) : runes (b :: s) = [b] :: runes s :=
  runes_rune (isRune_ascii h) s

/-- **The runes of a text, one by one**: a rune or a byte that begins none. -/
theorem runes_induction {motive : List UInt8 → Prop} (nil : motive [])
    (rune : ∀ r s, IsRune r → motive s → motive (r ++ s))
    (invalid : ∀ b s, runeLen (b :: s) = 0 → motive s → motive (b :: s)) (s : List UInt8) : motive s := by
  induction hn : s.length using Nat.strong_induction_on generalizing s with
  | _ n ih =>
    cases s with
    | nil => exact nil
    | cons b s =>
      rw [length_cons] at hn
      by_cases h0 : runeLen (b :: s) = 0
      · exact invalid b s h0 (ih s.length (by omega) s rfl)
      · rw [← take_append_drop (runeLen (b :: s)) (b :: s)]
        refine rune _ _ (isRune_take h0).2 (ih _ ?_ _ rfl)
        rw [length_drop, length_cons]
        omega

theorem length_runes_le (s : List UInt8) : (runes s).length ≤ s.length := by
  induction s using runes_induction with
  | nil => exact le_refl 0
  | rune r s hr ih =>
    have hpos := List.length_pos_iff.2 hr.ne_nil
    rw [runes_rune hr, length_cons, length_append]
    omega
  | invalid b s hb ih =>
    rw [runes_invalid hb]
    exact Nat.succ_le_succ ih

theorem high_of_runeLen_zero (h : runeLen (b :: s) = 0) : 0x80 ≤ b := by
  rw [← UInt8.not_lt]
  intro hlt
  have hone := (isRune_ascii hlt).len s
  rw [singleton_append, h] at hone
  cases hone

theorem mem_runes_iff (hb : b < 0x80) (s : List UInt8) : [b] ∈ runes s ↔ b ∈ s := by
  induction s using runes_induction with
  | nil => exact iff_of_false not_mem_nil not_mem_nil
  | rune r s hr ih =>
    rw [runes_rune hr, List.mem_cons, mem_append, ih]
    rcases hr.ascii_or_high with ⟨c, -, rfl⟩ | ⟨hlen, hhigh⟩
    · rw [mem_singleton, cons_eq_cons, and_iff_left rfl]
    · have hne : [b] ≠ r := by
        rintro rfl
        simp at hlen
      have hnot : b ∉ r := fun h => UInt8.not_lt.2 (hhigh b h) hb
      simp only [hne, hnot]
  | invalid c s hc ih =>
    have hne : b ≠ c := by
      rintro rfl
      exact UInt8.not_lt.2 (high_of_runeLen_zero hc) hb
    have hrepl : [b] ≠ replacementRune := by
      intro h
      cases h
    rw [runes_invalid hc, List.mem_cons, List.mem_cons, ih]
    simp only [hne, hrepl]

theorem runes_append_ascii {u : List UInt8} (hu : ∀ b ∈ u, b < 0x80) (s : List UInt8) :
    runes (u ++ s) = u.map ([·]) ++ runes s := by
  induction u with
  | nil => rfl
  | cons b u ih =>
    rw [cons_append, runes_ascii (hu b mem_cons_self), ih fun c hc => hu c (mem_cons_of_mem b hc)]
    rfl

theorem Utf8.append_ascii {u : List UInt8} (hu : ∀ b ∈ u, b < 0x80) (hs : Utf8 s) : Utf8 (u ++ s) := by
  induction u with
  | nil => exact hs
  | cons b u ih =>
    have hrest := ih fun c hc => hu c (mem_cons_of_mem b hc)
    exact Utf8.rune (r := [b]) (isRune_ascii (hu b mem_cons_self)) hrest

theorem isRune_replacement : IsRune replacementRune := ⟨by decide, fun _ => rfl⟩

theorem exists_first_high (h : ¬ ∀ b ∈ s, b < 0x80) :
    ∃ u b v, s = u ++ b :: v ∧ (∀ c ∈ u, c < 0x80) ∧ 0x80 ≤ b := by
  induction s with
  | nil => exact absurd nofun h
  | cons c s ih =>
    by_cases hc : c < 0x80
    · obtain ⟨u, b, v, rfl, hu, hb⟩ := ih fun hs => h (forall_mem_cons.2 ⟨hc, hs⟩)
      exact ⟨c :: u, b, v, rfl, forall_mem_cons.2 ⟨hc, hu⟩, hb⟩
    · exact ⟨[], c, s, rfl, nofun, UInt8.not_lt.1 hc⟩

end Lib
