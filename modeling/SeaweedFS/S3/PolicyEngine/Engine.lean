import SeaweedFS.S3.PolicyEngine.Variables

/-!
# Bucket policies

Validation, compilation and evaluation of bucket policies. The conditions of a statement are evaluated by a function
that may carry a state, so that the evaluation can be read with every such function; the one of the process is in
`Conditions`.
-/

namespace S3.PolicyEngine

open Lib Util

/-- `PolicyConditions`: the values per key, per operator, in the order in which the maps are ranged over. -/
abbrev PolicyConditions := List (Str × List (Str × List Str))

/-- `PolicyStatement`. -/
structure PolicyStatement where
  effect : Str
  principal : Option (List Str) := none
  action : List Str
  resource : Option (List Str) := none
  notResource : Option (List Str) := none
  condition : PolicyConditions := []

/-- `PolicyDocument`. -/
structure PolicyDocument where
  version : Str
  statement : List PolicyStatement

def effectAllow : Str := ascii "Allow"

def effectDeny : Str := ascii "Deny"

/-! ## Validation -/

/-- What is wrong with a statement. -/
inductive StatementError
  | invalidEffect (effect : Str)
  | actionRequired
  | resourceRequired
deriving DecidableEq

/-- What is wrong with a policy. -/
inductive PolicyError
  | unsupportedVersion (version : Str)
  | noStatement
  | statement (i : Nat) (e : StatementError)
deriving DecidableEq

/-- `validateStatement`. -/
def validateStatement (stmt : PolicyStatement) : Except StatementError Unit :=
  if stmt.effect ≠ effectAllow ∧ stmt.effect ≠ effectDeny then .error (.invalidEffect stmt.effect)
  else if stmt.action.length = 0 then .error .actionRequired
  else if (stmt.resource.getD []).length = 0 ∧ (stmt.notResource.getD []).length = 0 then .error .resourceRequired
  else .ok ()

/-- The loop of `ValidatePolicy` over the statements from index `i` on. -/
def validateStatements : Nat → List PolicyStatement → Except PolicyError Unit
  | _, [] => .ok ()
  | i, stmt :: rest =>
    match validateStatement stmt with
    | .error e => .error (.statement i e)
    | .ok () => validateStatements (i + 1) rest

/-- `ValidatePolicy`. -/
def validatePolicy (doc : PolicyDocument) : Except PolicyError Unit :=
  if doc.version ≠ ascii "2012-10-17" then .error (.unsupportedVersion doc.version)
  else if doc.statement.length = 0 then .error .noStatement
  else validateStatements 0 doc.statement

/-! ## Compilation -/

/-- The compiled entries of a clause: static ones as regular expressions and as matcher patterns, and those with
variables. -/
structure Patterns where
  patterns : List (List (Tok (List UInt8)))
  matchers : List Str
  dynamicPatterns : List Str

/-- A clause of a statement. -/
inductive Clause
  | action
  | resource
  | principal
  | notResource
deriving DecidableEq

/-- The loops of `compileStatement` over the entries of a clause; fails with the entry that does not compile. -/
def compilePatterns : List Str → Except Str Patterns
  | [] => .ok ⟨[], [], []⟩
  | entry :: rest =>
    if entry = [] then compilePatterns rest
    else if hasVariables entry then do
      let ps ← compilePatterns rest
      return { ps with dynamicPatterns := entry :: ps.dynamicPatterns }
    else
      match compileWildcardPattern entry with
      | none => .error entry
      | some re => do
        let ps ← compilePatterns rest
        return { ps with patterns := re :: ps.patterns, matchers := entry :: ps.matchers }

/-- `CompiledStatement`. -/
structure CompiledStatement where
  effect : Str
  condition : PolicyConditions
  action : Patterns
  resource : Patterns
  principal : Patterns
  notResource : Patterns

/-- `compileStatement`. -/
def compileStatement (stmt : PolicyStatement) : Except (Clause × Str) CompiledStatement := do
  let action ← (compilePatterns stmt.action).mapError (.action, ·)
  let resource ← (compilePatterns (stmt.resource.getD [])).mapError (.resource, ·)
  let principal ← (compilePatterns (stmt.principal.getD [])).mapError (.principal, ·)
  let notResource ← (compilePatterns (stmt.notResource.getD [])).mapError (.notResource, ·)
  return ⟨stmt.effect, stmt.condition, action, resource, principal, notResource⟩

/-- `CompilePolicy`, from the statement with index `i` on. -/
def compileStatements : Nat → List PolicyStatement → Except (Nat × Clause × Str) (List CompiledStatement)
  | _, [] => .ok []
  | i, stmt :: rest => do
    let compiled ← (compileStatement stmt).mapError (i, ·)
    let compiledRest ← compileStatements (i + 1) rest
    return compiled :: compiledRest

/-- `CompilePolicy`. -/
def compilePolicy (doc : PolicyDocument) : Except (Nat × Clause × Str) (List CompiledStatement) :=
  compileStatements 0 doc.statement

/-! ## Evaluation -/

/-- `PolicyEvaluationArgs`. -/
structure PolicyEvaluationArgs (F O : Type) where
  action : Str
  resource : Str
  principal : Str
  conditions : Str → Option (List Str)
  objectEntry : Option (Str → Option Str) := none
  claims : Str → Option (Claim F O) := fun _ => none

/-- `PolicyEvaluationResult`. -/
inductive PolicyEvaluationResult
  | deny
  | allow
  | indeterminate
deriving DecidableEq

section

variable {F O σ : Type} (print : Printer F O) (evalConditions : σ → PolicyConditions → σ × Bool)
  (args : PolicyEvaluationArgs F O)

/-- `matchesPatterns`. -/
def matchesPatterns (patterns : List (List (Tok (List UInt8)))) (value : Str) : Bool :=
  patterns.any fun re => Regexp.matchString re value

/-- `matchesDynamicPatterns`. -/
def matchesDynamicPatterns (patterns : List Str) (value : Str) : Bool :=
  patterns.any fun pattern => matchesWildcard (substituteVariables print args.conditions args.claims pattern) value

/-- Whether the lists of a clause have an entry that matches. -/
def Patterns.matchAny (ps : Patterns) (value : Str) : Bool :=
  matchesPatterns ps.patterns value || matchesDynamicPatterns print args ps.dynamicPatterns value

/-- Whether the lists of a clause have an entry. -/
def Patterns.present (ps : Patterns) : Bool := ps.patterns.length > 0 || ps.dynamicPatterns.length > 0

/-- The part of `evaluateStatement` before the conditions. -/
def clausesMatch (stmt : CompiledStatement) : Bool :=
  if !stmt.action.matchAny print args args.action then false
  else if stmt.resource.present && !stmt.resource.matchAny print args args.resource then false
  else if stmt.notResource.present && (stmt.notResource.matchers.any (matchesWildcard · args.resource) ||
      matchesDynamicPatterns print args stmt.notResource.dynamicPatterns args.resource) then false
  else if stmt.principal.present && !stmt.principal.matchAny print args args.principal then false
  else true

/-- `evaluateStatement`. -/
def evaluateStatement (s : σ) (stmt : CompiledStatement) : σ × Bool :=
  if !clausesMatch print args stmt then (s, false)
  else if stmt.condition.length > 0 then evalConditions s stmt.condition
  else (s, true)

/-- The loop of `evaluateCompiledPolicy`. -/
def evaluateStatements : σ → Bool → List CompiledStatement → σ × PolicyEvaluationResult
  | s, hasExplicitAllow, [] => (s, if hasExplicitAllow then .allow else .indeterminate)
  | s, hasExplicitAllow, stmt :: rest =>
    let (s, matched) := evaluateStatement print evalConditions args s stmt
    if matched then
      if stmt.effect = effectDeny then (s, .deny)
      else evaluateStatements s (hasExplicitAllow || stmt.effect = effectAllow) rest
    else evaluateStatements s hasExplicitAllow rest

/-- `PolicyEngine`: the compiled policies of the buckets. -/
abbrev Engine := Str → Option (List CompiledStatement)

/-- What `SetBucketPolicy` rejects. -/
inductive SetPolicyError
  | invalid (e : PolicyError)
  | compile (e : Nat × Clause × Str)

/-- `SetBucketPolicy`, for a policy that was read from its JSON. -/
def setBucketPolicy (engine : Engine) (bucketName : Str) (doc : PolicyDocument) :
    Except SetPolicyError Engine := do
  (validatePolicy doc).mapError .invalid
  let compiled ← (compilePolicy doc).mapError .compile
  return fun name => if name = bucketName then some compiled else engine name

/-- `EvaluatePolicy`. -/
def evaluatePolicy (engine : Engine) (s : σ) (bucketName : Str) : σ × PolicyEvaluationResult :=
  match engine bucketName with
  | none => (s, .indeterminate)
  | some policy => evaluateStatements print evalConditions args s false policy

/-! ## What a policy says -/

/-- An entry of `Action`, `Resource` or `Principal` matches a value. -/
def entryMatches (entry value : Str) : Bool :=
  if hasVariables entry then
    matchesWildcard (substituteVariables print args.conditions args.claims entry) value
  else
    match compileWildcardPattern entry with
    | some re => Regexp.matchString re value
    | none => false

/-- An entry of `NotResource` matches a value. -/
def exclusionMatches (entry value : Str) : Bool :=
  if hasVariables entry then
    matchesWildcard (substituteVariables print args.conditions args.claims entry) value
  else matchesWildcard entry value

/-- A statement matches, as it is written. -/
@[mk_iff]
structure StatementMatches (holds : PolicyConditions → Bool) (stmt : PolicyStatement) : Prop where
  action : ∃ entry ∈ stmt.action, entryMatches print args entry args.action = true
  resource : ∀ entries, stmt.resource = some entries →
    ∃ entry ∈ entries, entryMatches print args entry args.resource = true
  notResource : ∀ entries, stmt.notResource = some entries →
    ∀ entry ∈ entries, exclusionMatches print args entry args.resource = false
  principal : ∀ entries, stmt.principal = some entries →
    ∃ entry ∈ entries, entryMatches print args entry args.principal = true
  condition : holds stmt.condition = true

instance (holds : PolicyConditions → Bool) (stmt : PolicyStatement) :
    Decidable (StatementMatches print args holds stmt) :=
  decidable_of_iff ((∃ entry ∈ stmt.action, entryMatches print args entry args.action = true) ∧
      (∀ entries ∈ stmt.resource, ∃ entry ∈ entries, entryMatches print args entry args.resource = true) ∧
      (∀ entries ∈ stmt.notResource, ∀ entry ∈ entries, exclusionMatches print args entry args.resource = false) ∧
      (∀ entries ∈ stmt.principal, ∃ entry ∈ entries, entryMatches print args entry args.principal = true) ∧
      holds stmt.condition = true)
    (statementMatches_iff print args holds stmt).symm

end

end S3.PolicyEngine
