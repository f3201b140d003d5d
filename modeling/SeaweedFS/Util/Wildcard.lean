import SeaweedFS.Lib.Regexp
import SeaweedFS.Util.Strings

/-!
# Wildcard patterns

`matchWildcardString` walks over pattern and subject and goes back to the last star only. `CompileWildcardPattern`
turns a pattern into a regular expression. A position in a string is the rest of the string from there on.
-/

namespace Util

open Lib

/-- The loop of `matchWildcardString`, `none` if the fuel is too little: `pattern` and `str` from their indices on;
`lastStar` is the pattern behind the last star and the subject from `lastStarMatchIndex` on. -/
def scanWildcard : Nat → Str → Str → Option (Str × Str) → Option Bool
  | 0, _, _, _ => none
  | _ + 1, pattern, [], _ => some (pattern.dropWhile (· = 0x2a)).isEmpty
  | fuel + 1, pattern, b :: str, lastStar =>
    let retry :=
      match lastStar with
      | some (afterStar, match_) => scanWildcard fuel afterStar match_.tail (some (afterStar, match_.tail))
      | none => some false
    match pattern with
    | a :: pattern =>
      if a = 0x3f ∨ a = b then scanWildcard fuel pattern str lastStar
      else if a = 0x2a then scanWildcard fuel pattern (b :: str) (some (pattern, b :: str))
      else retry
    | [] => retry

/-- More iterations than the loop of `matchWildcardString` makes. -/
def wildcardFuel (pattern str : Str) : Nat := (pattern.length + 3) * (str.length + 2)

/-- `matchWildcardString`. -/
def matchWildcardString (pattern str : Str) : Option Bool :=
  if pattern = [0x2a] then some true
  else if pattern = str then some true
  else scanWildcard (wildcardFuel pattern str) pattern str none

/-- `MatchesWildcard`. -/
def matchesWildcard (pattern str : Str) : Bool := matchWildcardString pattern str == some true

/-- The expression that `compileWildcardPattern` builds. -/
def wildcardExpression (pattern : Str) : Str :=
  let escaped := Regexp.quoteMeta pattern
  let escaped := replaceAll [0x5c, 0x2a] [0x2e, 0x2a] escaped
  let escaped := replaceAll [0x5c, 0x3f] [0x2e] escaped
  0x5e :: escaped ++ [0x24]

/-- `CompileWildcardPattern`. -/
def compileWildcardPattern (pattern : Str) : Option (List (Tok (List UInt8))) :=
  Regexp.compile (wildcardExpression pattern)

/-! ## What a pattern denotes -/

/-- The symbol that a byte of a pattern is. -/
def wildcardTok (b : UInt8) : Tok UInt8 := if b = 0x2a then .star else if b = 0x3f then .any else .lit b

/-- The glob language of a pattern: `*` denotes any byte sequence, `?` any byte and every other byte itself. -/
def globLanguage (pattern : Str) : Language UInt8 := Glob.language (fun _ => true) (pattern.map wildcardTok)

end Util
