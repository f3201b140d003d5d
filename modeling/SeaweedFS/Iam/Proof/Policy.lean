import SeaweedFS.Iam.Policy

/-!
# The decision of an IAM policy

A statement that applies matches (`Applies.statementMatches`); the converse needs that no negative clause speaks
against it (`applies_iff`), since `statementMatches` reads none of them.
-/

namespace Iam.Policy

open Util List

variable {B V : Type} {m : Matchers B V} {evalCtx : EvaluationContext V} {statement : Statement B}

/-! ## Statements -/

theorem statementMatches_iff : statementMatches m evalCtx statement = true ↔
      (∀ p, statement.principal = some p → matchesPrincipal evalCtx p = true) ∧
      matchesActions m evalCtx statement.action evalCtx.action = true ∧
      (isSts evalCtx = false → statement.resource ≠ [] →
        matchesResources m evalCtx statement.resource evalCtx.resource = true) ∧
      matchesConditions m evalCtx statement.condition = true := by
  have hprincipal : (statement.principal.any fun p => !matchesPrincipal evalCtx p) = false ↔
      ∀ p, statement.principal = some p → matchesPrincipal evalCtx p = true := by
    cases statement.principal <;> simp
  have hresource : (!isSts evalCtx && decide (statement.resource.length > 0) &&
        !matchesResources m evalCtx statement.resource evalCtx.resource) = false ↔
      (isSts evalCtx = false → statement.resource ≠ [] →
        matchesResources m evalCtx statement.resource evalCtx.resource = true) := by
    cases isSts evalCtx <;> cases matchesResources m evalCtx statement.resource evalCtx.resource <;> simp
  rw [← hprincipal, ← hresource, statementMatches]
  generalize (statement.principal.any fun p => !matchesPrincipal evalCtx p) = p
  generalize matchesActions m evalCtx statement.action evalCtx.action = a
  generalize (!isSts evalCtx && decide (statement.resource.length > 0) &&
    !matchesResources m evalCtx statement.resource evalCtx.resource) = r
  generalize matchesConditions m evalCtx statement.condition = c
  revert p a r c
  decide

theorem Applies.statementMatches (h : Applies m evalCtx statement) : statementMatches m evalCtx statement = true :=
  statementMatches_iff.2 ⟨h.principal, h.action, fun _ _ => h.resource, h.condition⟩

theorem Applies.unexcluded (h : Applies m evalCtx statement) : Unexcluded m evalCtx statement :=
  ⟨h.notAction, h.notResource, h.notPrincipal, fun _ => h.resource⟩

/-- **A statement applies** if it matches and nothing that is not looked at speaks against it. -/
theorem applies_iff (hresource : statement.resource ≠ []) : Applies m evalCtx statement ↔
      Policy.statementMatches m evalCtx statement = true ∧ Unexcluded m evalCtx statement := by
  constructor
  · exact fun h => ⟨h.statementMatches, h.unexcluded⟩
  · rintro ⟨hmatches, hun⟩
    obtain ⟨hprincipal, haction, hres, hcond⟩ := statementMatches_iff.1 hmatches
    have hresources : matchesResources m evalCtx statement.resource evalCtx.resource = true := by
      cases hsts : isSts evalCtx with
      | false => exact hres hsts hresource
      | true => exact hun.sts hsts
    exact ⟨haction, hun.notAction, hresources, hun.notResource, hprincipal, hun.notPrincipal, hcond⟩

theorem validateStatementWithType_resource (h : validateStatementWithType statement .resource = .ok ()) :
    statement.resource ≠ [] := by
  rintro hnil
  rw [validateStatementWithType] at h
  split at h
  · cases h
  · split at h
    · cases h
    · simp only [hnil] at h
      cases h

theorem validateStatements_resource {statements : List (Statement B)} {i : Nat}
    (h : validateStatements .resource i statements = .ok ()) : ∀ s ∈ statements, s.resource ≠ [] := by
  induction statements generalizing i with
  | nil => nofun
  | cons s rest ih =>
    rw [validateStatements] at h
    split at h
    next => cases h
    next hs => exact forall_mem_cons.2 ⟨validateStatementWithType_resource hs, ih h⟩

variable {doc : PolicyDocument B}

theorem validatePolicyDocument_resource (h : validatePolicyDocument (some doc) = .ok ()) :
    ∀ s ∈ doc.statement, s.resource ≠ [] := by
  rw [validatePolicyDocument, validatePolicyDocumentWithType] at h
  split at h
  · cases h
  · split at h
    · cases h
    · exact validateStatements_resource h

/-! ## Documents -/

theorem foldl_visitStatement (m : Matchers B V) (evalCtx : EvaluationContext V) (policyName : Str)
    (statements : List (Statement B)) (found : Found) :
    let found' := statements.foldl (visitStatement m evalCtx policyName) found
    (found'.explicitDeny = true ↔ found.explicitDeny = true ∨
      ∃ s ∈ statements, s.effect = effectDeny ∧ statementMatches m evalCtx s = true) ∧
    (found'.hasAllow = true ↔ found.hasAllow = true ∨
      ∃ s ∈ statements, s.effect = effectAllow ∧ statementMatches m evalCtx s = true) := by
  induction statements generalizing found with
  | nil => simp
  | cons s rest ih =>
    obtain ⟨hdeny, hallow⟩ := ih (visitStatement m evalCtx policyName found s)
    dsimp only at hdeny hallow ⊢
    rw [foldl_cons, hdeny, hallow, exists_mem_cons_iff, exists_mem_cons_iff, visitStatement]
    have hne : effectAllow ≠ effectDeny := by decide
    cases hmatches : statementMatches m evalCtx s with
    | false => simp
    | true =>
      constructor
      · simp [or_assoc]
      · have heffect : s.effect ≠ effectDeny ∧ s.effect = effectAllow ↔ s.effect = effectAllow :=
          ⟨fun h => h.2, fun h => ⟨h ▸ hne, h⟩⟩
        simp [or_assoc, heffect]

theorem evaluatePolicyDocument_effect {policyName : Str} {defaultEffect : Str}
    {result : EvaluationResult}
    (h : evaluatePolicyDocument m true (some evalCtx) policyName (some doc) defaultEffect = .ok result) :
    ((∃ s ∈ doc.statement, s.effect = effectDeny ∧ statementMatches m evalCtx s = true) →
      result.effect = effectDeny) ∧
    (result.effect = effectAllow ↔
      (¬ ∃ s ∈ doc.statement, s.effect = effectDeny ∧ statementMatches m evalCtx s = true) ∧
      ((∃ s ∈ doc.statement, s.effect = effectAllow ∧ statementMatches m evalCtx s = true) ∨
        defaultEffect = effectAllow)) := by
  obtain rfl := Except.ok.inj h
  obtain ⟨hdeny, hallow⟩ := foldl_visitStatement m evalCtx
    (if policyName = [] then ascii "inline-policy" else policyName) doc.statement ⟨[], false, false⟩
  simp only [Bool.false_eq_true, false_or] at hdeny hallow
  have hne : effectDeny ≠ effectAllow := by decide
  rw [← hdeny, ← hallow]
  constructor
  · intro hex
    rw [if_pos hex]
  · generalize foldl _ _ doc.statement = found
    cases found.explicitDeny with
    | true => simp [hne]
    | false => cases found.hasAllow <;> simp

/-- **The decision of an IAM policy.** A `Deny` that applies decides. An `Allow` is given only where an `Allow`
applies and no `Deny` does, exactly if, where no `Deny` matches and an `Allow` matches or is the default, an `Allow`
that matches is not excluded. -/
theorem evaluatePolicyDocument_decides {policyName : Str} {doc : PolicyDocument B} {defaultEffect : Str}
    {result : EvaluationResult} (hvalid : validatePolicyDocument (some doc) = .ok ())
    (h : evaluatePolicyDocument m true (some evalCtx) policyName (some doc) defaultEffect = .ok result) :
    ((∃ s ∈ doc.statement, s.effect = effectDeny ∧ Applies m evalCtx s) → result.effect = effectDeny) ∧
    ((result.effect = effectAllow →
        (∃ s ∈ doc.statement, s.effect = effectAllow ∧ Applies m evalCtx s) ∧
          ¬ ∃ s ∈ doc.statement, s.effect = effectDeny ∧ Applies m evalCtx s) ↔
      ((¬ ∃ s ∈ doc.statement, s.effect = effectDeny ∧ statementMatches m evalCtx s = true) ∧
        ((∃ s ∈ doc.statement, s.effect = effectAllow ∧ statementMatches m evalCtx s = true) ∨
          defaultEffect = effectAllow) →
        ∃ s ∈ doc.statement, s.effect = effectAllow ∧
          statementMatches m evalCtx s = true ∧ Unexcluded m evalCtx s)) := by
  obtain ⟨heffectDeny, heffectAllow⟩ := evaluatePolicyDocument_effect h
  have hdeny : (∃ s ∈ doc.statement, s.effect = effectDeny ∧ Applies m evalCtx s) → result.effect = effectDeny := by
    rintro ⟨s, hs, heffect, happlies⟩
    exact heffectDeny ⟨s, hs, heffect, happlies.statementMatches⟩
  have hresource := validatePolicyDocument_resource hvalid
  rw [← heffectAllow]
  refine ⟨hdeny, ?_, ?_⟩
  · intro hprop hallow
    obtain ⟨⟨s, hs, heffect, happlies⟩, -⟩ := hprop hallow
    exact ⟨s, hs, heffect, (applies_iff (hresource s hs)).1 happlies⟩
  · intro hcond hallow
    obtain ⟨s, hs, heffect, hmatches⟩ := hcond hallow
    refine ⟨⟨s, hs, heffect, (applies_iff (hresource s hs)).2 hmatches⟩, fun hex => ?_⟩
    have hne : effectDeny ≠ effectAllow := by decide
    exact hne ((hdeny hex).symm.trans hallow)

/-- Matchers that compare letters without case, and know no wild card but `*` and no condition. -/
def plainMatchers : Matchers Unit Unit where
  equalFold := fun s t => s.map lowerByte == t.map lowerByte
  awsWildcardMatch := fun _ _ => false
  evaluateConditionBlock := fun _ _ _ => false

/-- A request to delete an object. -/
def deleteObject : EvaluationContext Unit where
  principal := ascii "u"
  action := ascii "s3:DeleteObject"
  resource := ascii "arn:aws:s3:::b/k"
  requestContext := fun _ => none

/-- Everything but an action. -/
def allowAllBut (action : String) : PolicyDocument Unit where
  version := ascii "2012-10-17"
  statement := [{
    effect := effectAllow
    action := [ascii "*"]
    notAction := [ascii action]
    resource := [ascii "*"] }]

theorem evaluatePolicyDocument_decides_allowed :
    ∃ result, evaluatePolicyDocument plainMatchers true (some deleteObject) [] (some (allowAllBut "s3:PutObject"))
        effectDeny = .ok result ∧ result.effect = effectAllow ∧
      ∃ s ∈ (allowAllBut "s3:PutObject").statement, s.effect = effectAllow ∧ Applies plainMatchers deleteObject s := by
  have hok : ∃ result, evaluatePolicyDocument plainMatchers true (some deleteObject) []
      (some (allowAllBut "s3:PutObject")) effectDeny = .ok result ∧ result.effect = effectAllow :=
    ⟨_, rfl, by decide +kernel⟩
  obtain ⟨result, heval, hallow⟩ := hok
  refine ⟨result, heval, hallow, ((evaluatePolicyDocument_decides rfl heval).2.2 (fun _ => ?_) hallow).1⟩
  refine ⟨_, mem_cons_self, rfl, by decide +kernel, ?_⟩
  exact ⟨by decide +kernel, by decide +kernel, nofun, fun h => absurd h (by decide +kernel)⟩

/-- An accepted policy allows the action that its `NotAction` names. -/
theorem evaluatePolicyDocument_ignores_notAction :
    validatePolicyDocument (some (allowAllBut "s3:DeleteObject")) = .ok () ∧
    ∃ result, evaluatePolicyDocument plainMatchers true (some deleteObject) []
        (some (allowAllBut "s3:DeleteObject")) effectDeny = .ok result ∧ result.effect = effectAllow ∧
      ¬ ∃ s ∈ (allowAllBut "s3:DeleteObject").statement, Applies plainMatchers deleteObject s := by
  refine ⟨rfl, _, rfl, by decide +kernel, ?_⟩
  rintro ⟨s, hs, happlies⟩
  obtain rfl := List.mem_singleton.1 hs
  have hmatch : matchesActions plainMatchers deleteObject [ascii "s3:DeleteObject"] deleteObject.action = true := by
    decide +kernel
  cases hmatch.symm.trans happlies.notAction

end Iam.Policy
