import SeaweedFS.Util.Wildcard

/-!
# Policy variables

`${name}` in a pattern stands for a value of the request context or for a claim. `segments` cuts a text at the
matches of `PolicyVariableRegex`, `\$\{([^}]+)\}`.
-/

namespace S3.PolicyEngine

open Lib Util

/-- A piece of a text: one byte, or a variable by its name. -/
inductive Segment
  | text (b : UInt8)
  | var (name : Str)
deriving DecidableEq, Repr

/-- The variable at the front of a text, and the text behind it. -/
def variableAt : Str → Option (Str × Str)
  | 0x24 :: 0x7b :: s =>
    match s.takeWhile (· ≠ 0x7d), s.dropWhile (· ≠ 0x7d) with
    | b :: name, _ :: rest => some (b :: name, rest)
    | _, _ => none
  | _ => none

/-- The pieces of a text, `fuel` of them at most. -/
def segmentsUpTo : Nat → Str → List Segment
  | _, [] => []
  | 0, _ :: _ => []
  | fuel + 1, b :: s =>
    match variableAt (b :: s) with
    | some (name, rest) => .var name :: segmentsUpTo fuel rest
    | none => .text b :: segmentsUpTo fuel s

/-- A text cut at the matches of `PolicyVariableRegex`. -/
def segments (s : Str) : List Segment := segmentsUpTo s.length s

/-- The names of the variables in a text. -/
def variableNames (s : Str) : List Str := (segments s).filterMap fun
  | .text _ => none
  | .var name => some name

/-- `PolicyVariableRegex.MatchString`. -/
def hasVariables (s : Str) : Bool := variableNames s ≠ []

/-- A claim of a token, as the identity providers leave it; `F` are floating point numbers and `O` the values of
other types. -/
inductive Claim (F O : Type)
  | string (s : Str)
  | float64 (v : F)
  | bool (b : Bool)
  | int (n : Int)
  | other (v : O)

/-- How `fmt` prints numbers and other values. -/
structure Printer (F O : Type) where
  /-- `int64(v)`, if it equals `v`. -/
  int64 : F → Option Int
  /-- The verb `%g`. -/
  general : F → Str
  /-- The verb `%v`. -/
  value : O → Str

variable {F O : Type}

/-- The text of a claim; `int`, `int32` and `int64` print alike. -/
def Printer.claim (print : Printer F O) : Claim F O → Str
  | .string s => s
  | .float64 v =>
    match print.int64 v with
    | some n => formatInt n
    | none => print.general v
  | .bool b => ascii (if b then "true" else "false")
  | .int n => formatInt n
  | .other v => print.value v

/-- What the text of a variable is replaced by, if it is. -/
def variableValue (print : Printer F O) (context : Str → Option (List Str)) (claims : Str → Option (Claim F O))
    (name : Str) : Option Str :=
  match context name with
  | some (v :: _) => some v
  | _ =>
    if (ascii "jwt:").isPrefixOf name then (claims (name.drop 4)).map print.claim
    else if (ascii "ldap:").isPrefixOf name then ((claims name).or (claims (name.drop 5))).map print.claim
    else none

/-- The text of a variable in a pattern. -/
def variableText (name : Str) : Str := 0x24 :: 0x7b :: name ++ [0x7d]

/-- `SubstituteVariables`. -/
def substituteVariables (print : Printer F O) (context : Str → Option (List Str)) (claims : Str → Option (Claim F O))
    (pattern : Str) : Str :=
  (segments pattern).flatMap fun
    | .text b => [b]
    | .var name => (variableValue print context claims name).getD (variableText name)

/-- The symbols of a pattern in which variables stand for the literal text of their values. -/
def literalTokens (print : Printer F O) (context : Str → Option (List Str)) (claims : Str → Option (Claim F O))
    (pattern : Str) : List (Tok UInt8) :=
  (segments pattern).flatMap fun
    | .text b => [wildcardTok b]
    | .var name =>
      match variableValue print context claims name with
      | some v => v.map .lit
      -- a variable without a value stays part of the pattern
      | none => (variableText name).map wildcardTok

end S3.PolicyEngine
