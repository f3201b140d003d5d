import SeaweedFS.Lib.Glob
import SeaweedFS.Lib.Utf8

/-!
# Anchored regular expressions

The part of the syntax of Go's regular expressions that is built from `^`, `$`, `.`, `.*`, escaped punctuation and
plain runes. `compile` reads such an expression, `matchString` matches a text rune by rune; a dot stands for every
rune but the line feed.
-/

namespace Lib.Regexp

open List

/-- The bytes with a meaning of their own. -/
def special : List UInt8 := [0x5c, 0x2e, 0x2b, 0x2a, 0x3f, 0x28, 0x29, 0x7c, 0x5b, 0x5d, 0x7b, 0x7d, 0x5e, 0x24]

/-- `QuoteMeta` for one byte. -/
def quoteByte (b : UInt8) : List UInt8 := if b ∈ special then [0x5c, b] else [b]

/-- `QuoteMeta`. -/
def quoteMeta (s : List UInt8) : List UInt8 := s.flatMap quoteByte

/-- The items of an expression up to the `$` at its end. -/
def items : Nat → List UInt8 → Option (List (Tok (List UInt8)))
  | 0, _ => none
  | _ + 1, [] => none
  | fuel + 1, b :: s =>
    if b = 0x24 then if s = [] then some [] else none
    else if b = 0x5c then
      match s with
      | c :: s => if c ∈ special then (items fuel s).map (.lit [c] :: ·) else none
      | [] => none
    else if b = 0x2e then
      match s with
      | 0x2a :: s => (items fuel s).map (.star :: ·)
      | s => (items fuel s).map (.any :: ·)
    else if b ∈ special then none
    else
      let n := runeLen (b :: s)
      -- an expression has to be UTF-8
      if n = 0 then none else (items fuel ((b :: s).drop n)).map (.lit ((b :: s).take n) :: ·)

/-- `Compile`. -/
def compile : List UInt8 → Option (List (Tok (List UInt8)))
  | [] => none
  | b :: s => if b = 0x5e then items s.length s else none

/-- What a dot stands for. -/
def dot (r : List UInt8) : Bool := r ≠ [0x0a]

/-- `MatchString`. -/
def matchString (re : List (Tok (List UInt8))) (s : List UInt8) : Bool := Glob.accepts dot re (runes s)

/-! ## Items -/

variable {fuel : Nat} {s : List UInt8}

theorem items_escaped {c : UInt8} (hc : c ∈ special) :
    items (fuel + 1) (0x5c :: c :: s) = (items fuel s).map (.lit [c] :: ·) := by
  simp [items, hc]

theorem items_star : items (fuel + 1) (0x2e :: 0x2a :: s) = (items fuel s).map (.star :: ·) := rfl

theorem items_any (h : s.head? ≠ some 0x2a) : items (fuel + 1) (0x2e :: s) = (items fuel s).map (.any :: ·) := by
  conv_lhs => unfold items
  rw [if_neg (by decide), if_neg (by decide), if_pos rfl]
  split
  next => exact absurd rfl h
  next => rfl

theorem items_rune {r : List UInt8} (hr : IsRune r) (h : ∀ b ∈ r, b ∉ special) :
    items (fuel + 1) (r ++ s) = (items fuel s).map (.lit r :: ·) := by
  cases r with
  | nil => exact absurd rfl hr.ne_nil
  | cons b r =>
    have hlen := hr.len s
    have hb := h b mem_cons_self
    have hne : ∀ c ∈ special, b ≠ c := fun c hc heq => hb (heq ▸ hc)
    rw [cons_append] at hlen
    conv_lhs => rw [cons_append]; unfold items
    rw [if_neg (hne _ (by decide)), if_neg (hne _ (by decide)), if_neg (hne _ (by decide)), if_neg hb]
    simp only [hlen, length_cons, Nat.add_one_ne_zero, if_false]
    rw [← cons_append, ← length_cons, take_left, drop_left]

end Lib.Regexp
