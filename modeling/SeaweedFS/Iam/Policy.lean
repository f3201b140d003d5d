import SeaweedFS.S3.PolicyEngine.Variables

/-!
# IAM policies

Validation and evaluation of the policies of users and roles. A statement has positive clauses (`Action`, `Resource`,
`Principal`) and negative ones (`NotAction`, `NotResource`, `NotPrincipal`).
-/

namespace Iam.Policy

open Lib Util S3.PolicyEngine

/-- A value of the `Principal` of a type: a string, a list (an item that is no string is `none`), or anything else. -/
inductive PrincipalValue
  | string (s : Str)
  | list (items : List (Option Str))
  | other

/-- `Principal` and `NotPrincipal`: a string, values by the type of the principal, or anything else. -/
inductive Principal
  | string (s : Str)
  | map (values : List (Str × PrincipalValue))
  | other

/-- `Statement`; `B` are the condition blocks. -/
structure Statement (B : Type) where
  sid : Str := []
  effect : Str
  principal : Option Principal := none
  notPrincipal : Option Principal := none
  action : List Str
  notAction : List Str := []
  resource : List Str
  notResource : List Str := []
  condition : List (Str × B) := []

/-- `PolicyDocument`. -/
structure PolicyDocument (B : Type) where
  version : Str
  statement : List (Statement B)

def effectAllow : Str := ascii "Allow"

def effectDeny : Str := ascii "Deny"

/-! ## Validation -/

/-- What a policy is for. -/
inductive PolicyType
  | resource
  | trust
deriving DecidableEq

/-- What is wrong with a statement. -/
inductive StatementError
  | invalidEffect (effect : Str)
  | actionRequired
  | resourceRequired
  | principalRequired
  | invalidTrustAction (action : Str)
deriving DecidableEq

/-- What is wrong with a document. -/
inductive DocumentError
  | nilDocument
  | versionRequired
  | statementRequired
  | statement (i : Nat) (e : StatementError)
deriving DecidableEq

def validTrustActions : List Str :=
  [ascii "sts:AssumeRole", ascii "sts:AssumeRoleWithWebIdentity", ascii "sts:AssumeRoleWithCredentials"]

variable {B V : Type}

/-- `validateStatementWithType`. -/
def validateStatementWithType (statement : Statement B) (policyType : PolicyType) : Except StatementError Unit :=
  if statement.effect ≠ effectAllow ∧ statement.effect ≠ effectDeny then .error (.invalidEffect statement.effect)
  else if statement.action.length = 0 then .error .actionRequired
  else
    match policyType with
    | .resource => if statement.resource.length = 0 then .error .resourceRequired else .ok ()
    | .trust =>
      match statement.principal with
      | none => .error .principalRequired
      | some _ =>
        match statement.action.find? (· ∉ validTrustActions) with
        | some action => .error (.invalidTrustAction action)
        | none => .ok ()

/-- The loop of `ValidatePolicyDocumentWithType` from the statement with index `i` on. -/
def validateStatements (policyType : PolicyType) : Nat → List (Statement B) → Except DocumentError Unit
  | _, [] => .ok ()
  | i, statement :: rest =>
    match validateStatementWithType statement policyType with
    | .error e => .error (.statement i e)
    | .ok () => validateStatements policyType (i + 1) rest

/-- `ValidatePolicyDocumentWithType`. -/
def validatePolicyDocumentWithType (policy : Option (PolicyDocument B)) (policyType : PolicyType) :
    Except DocumentError Unit :=
  match policy with
  | none => .error .nilDocument
  | some policy =>
    if policy.version = [] then .error .versionRequired
    else if policy.statement.length = 0 then .error .statementRequired
    else validateStatements policyType 0 policy.statement

/-- `ValidatePolicyDocument`. -/
def validatePolicyDocument (policy : Option (PolicyDocument B)) : Except DocumentError Unit :=
  validatePolicyDocumentWithType policy .resource

/-! ## Patterns -/

/-- A value of the request context: a string, or a value of another type. -/
inductive ContextValue (V : Type)
  | string (s : Str)
  | other (v : V)

/-- `EvaluationContext`. -/
structure EvaluationContext (V : Type) where
  principal : Str
  action : Str
  resource : Str
  requestContext : Str → Option (ContextValue V)

/-- Whether the request context has this string under a key. -/
def EvaluationContext.hasString (evalCtx : EvaluationContext V) (key s : Str) : Bool :=
  match evalCtx.requestContext key with
  | some (.string value) => s == value
  | _ => false

/-- What the evaluation calls: `strings.EqualFold`, `AwsWildcardMatch` and `evaluateConditionBlock`. -/
structure Matchers (B V : Type) where
  equalFold : Str → Str → Bool
  awsWildcardMatch : Str → Str → Bool
  evaluateConditionBlock : EvaluationContext V → Str → B → Bool

/-- `safePolicyVariables`. -/
def safePolicyVariables : List Str :=
  ["aws:username", "aws:userid", "aws:PrincipalArn", "aws:PrincipalAccount", "aws:principaltype",
    "aws:FederatedProvider", "aws:PrincipalServiceName", "saml:username", "saml:sub", "saml:aud", "saml:iss",
    "oidc:sub", "oidc:aud", "oidc:iss", "jwt:preferred_username", "jwt:sub", "jwt:iss", "jwt:aud", "aws:SourceIp",
    "aws:SecureTransport", "aws:CurrentTime", "s3:prefix", "s3:delimiter", "s3:max-keys"].map ascii

/-- `expandPolicyVariables`. -/
def expandPolicyVariables (pattern : Str) (evalCtx : EvaluationContext V) : Str :=
  (segments pattern).flatMap fun
    | .text b => [b]
    | .var name =>
      if name ∈ safePolicyVariables then
        match evalCtx.requestContext name with
        | some (.string value) => value
        | _ => variableText name
      else variableText name

section

variable (m : Matchers B V) (evalCtx : EvaluationContext V)

/-- `awsIAMMatch`. -/
def awsIAMMatch (pattern value : Str) : Bool :=
  let expandedPattern := expandPolicyVariables pattern evalCtx
  if expandedPattern = ascii "*" then true
  else if m.equalFold expandedPattern value then true
  else if 0x2a ∈ expandedPattern ∨ 0x3f ∈ expandedPattern then m.awsWildcardMatch expandedPattern value
  else false

/-- `matchesActions`. -/
def matchesActions (actions : List Str) (requestedAction : Str) : Bool :=
  actions.any (awsIAMMatch m evalCtx · requestedAction)

/-- `matchesResources`. -/
def matchesResources (resources : List Str) (requestedResource : Str) : Bool :=
  resources.any (awsIAMMatch m evalCtx · requestedResource)

/-- `getPrincipalContextKey`. -/
def getPrincipalContextKey (principalType : Str) : Str :=
  if principalType = ascii "Federated" then ascii "aws:FederatedProvider"
  else if principalType = ascii "AWS" then ascii "aws:PrincipalArn"
  else if principalType = ascii "Service" then ascii "aws:PrincipalServiceName"
  else ascii "aws:Principal" ++ principalType

/-- `evaluatePrincipalValue`. -/
def evaluatePrincipalValue (principalValue : PrincipalValue) (contextKey : Str) : Bool :=
  match principalValue with
  | .string principalStr => if principalStr = ascii "*" then true else evalCtx.hasString contextKey principalStr
  | .list items =>
    if some (ascii "*") ∈ items then true
    else items.any fun
      | some itemStr => evalCtx.hasString contextKey itemStr
      | none => false
  | .other => false

/-- `matchesPrincipal`. -/
def matchesPrincipal (principal : Principal) : Bool :=
  match principal with
  | .string principalStr =>
    if principalStr = ascii "*" then true else evalCtx.hasString (ascii "principal") principalStr
  | .map values => values.all fun (principalType, principalValue) =>
    evaluatePrincipalValue evalCtx principalValue (getPrincipalContextKey principalType)
  | .other => false

/-- `matchesConditions`. -/
def matchesConditions (conditions : List (Str × B)) : Bool :=
  conditions.all fun (conditionType, conditionBlock) =>
    m.evaluateConditionBlock evalCtx conditionType conditionBlock

/-- Whether the request is one for a token, for which resources are not compared. -/
def isSts : Bool := (ascii "sts:").isPrefixOf evalCtx.action

/-- `statementMatches`. -/
def statementMatches (statement : Statement B) : Bool :=
  if statement.principal.any fun principal => !matchesPrincipal evalCtx principal then false
  else if !matchesActions m evalCtx statement.action evalCtx.action then false
  else if !isSts evalCtx && statement.resource.length > 0 &&
      !matchesResources m evalCtx statement.resource evalCtx.resource then false
  else matchesConditions m evalCtx statement.condition

/-! ## Evaluation -/

/-- `StatementMatch`. -/
structure StatementMatch where
  policyName : Str
  statementSid : Str
  effect : Str
  reason : String

/-- `EvaluationDetails`. -/
structure EvaluationDetails where
  principal : Str
  action : Str
  resource : Str
  policiesEvaluated : List Str

/-- `EvaluationResult`. -/
structure EvaluationResult where
  effect : Str
  matchingStatements : List StatementMatch
  evaluationDetails : EvaluationDetails

/-- Why an evaluation fails. -/
inductive EvaluationError
  | notInitialized
  | nilContext
  | nilDocument

/-- What the loop over the statements has found so far. -/
structure Found where
  matchingStatements : List StatementMatch
  explicitDeny : Bool
  hasAllow : Bool

/-- One round of the loop over the statements. -/
def visitStatement (policyName : Str) (found : Found) (statement : Statement B) : Found :=
  if statementMatches m evalCtx statement then
    { matchingStatements := found.matchingStatements ++
        [⟨policyName, statement.sid, statement.effect, "Action, Resource, and Condition matched"⟩]
      explicitDeny := found.explicitDeny || statement.effect = effectDeny
      hasAllow := found.hasAllow || (statement.effect ≠ effectDeny && statement.effect = effectAllow) }
  else found

/-- `EvaluatePolicyDocument`. -/
def evaluatePolicyDocument (initialized : Bool) (evalCtx : Option (EvaluationContext V)) (policyName : Str)
    (policyDoc : Option (PolicyDocument B)) (defaultEffect : Str) : Except EvaluationError EvaluationResult :=
  if !initialized then .error .notInitialized
  else
    match evalCtx, policyDoc with
    | none, _ => .error .nilContext
    | some _, none => .error .nilDocument
    | some evalCtx, some policyDoc =>
      let policyName := if policyName = [] then ascii "inline-policy" else policyName
      let found := policyDoc.statement.foldl (visitStatement m evalCtx policyName) ⟨[], false, false⟩
      .ok {
        effect := if found.explicitDeny then effectDeny else if found.hasAllow then effectAllow else defaultEffect
        matchingStatements := found.matchingStatements
        evaluationDetails := ⟨evalCtx.principal, evalCtx.action, evalCtx.resource, [policyName]⟩ }

/-! ## What a statement says -/

/-- A statement applies to a request, as it is written. -/
structure Applies (statement : Statement B) : Prop where
  action : matchesActions m evalCtx statement.action evalCtx.action = true
  notAction : matchesActions m evalCtx statement.notAction evalCtx.action = false
  resource : matchesResources m evalCtx statement.resource evalCtx.resource = true
  notResource : matchesResources m evalCtx statement.notResource evalCtx.resource = false
  principal : ∀ p, statement.principal = some p → matchesPrincipal evalCtx p = true
  notPrincipal : ∀ p, statement.notPrincipal = some p → matchesPrincipal evalCtx p = false
  condition : matchesConditions m evalCtx statement.condition = true

/-- Nothing that `statementMatches` does not look at speaks against a statement. -/
structure Unexcluded (statement : Statement B) : Prop where
  notAction : matchesActions m evalCtx statement.notAction evalCtx.action = false
  notResource : matchesResources m evalCtx statement.notResource evalCtx.resource = false
  notPrincipal : ∀ p, statement.notPrincipal = some p → matchesPrincipal evalCtx p = false
  sts : isSts evalCtx = true → matchesResources m evalCtx statement.resource evalCtx.resource = true

end

end Iam.Policy
