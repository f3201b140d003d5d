import SeaweedFS.Lib.Simulation
import SeaweedFS.S3.PolicyEngine.Engine
import SeaweedFS.Util.Proof.Wildcard

/-!
# The decision of a bucket policy

The empty string is dropped when a clause is compiled (`compilePatterns_spec`), and a clause whose lists are empty
counts as absent, so a statement is decided as the statement without its empty entries is written
(`clausesMatch_iff`).
-/

namespace S3.PolicyEngine

open Lib Util List Except

variable {F O σ : Type} {print : Printer F O} {evalConditions : σ → PolicyConditions → σ × Bool}
  {args : PolicyEvaluationArgs F O}

variable {compiled : List CompiledStatement} {stmts : List PolicyStatement} {stmt : PolicyStatement}

/-! ## Clauses -/

/-- What the lists of a clause stand for. -/
structure CompiledAs (print : Printer F O) (args : PolicyEvaluationArgs F O) (entries : List Str) (ps : Patterns) :
    Prop where
  matchAny : ∀ value, ps.matchAny print args value = true ↔
    ∃ entry ∈ entries, entry ≠ [] ∧ entryMatches print args entry value = true
  exclude : ∀ value, (ps.matchers.any (matchesWildcard · value) ||
      matchesDynamicPatterns print args ps.dynamicPatterns value) = true ↔
    ∃ entry ∈ entries, entry ≠ [] ∧ exclusionMatches print args entry value = true
  present : ps.present = true ↔ ∃ entry ∈ entries, entry ≠ []

namespace CompiledAs

variable {entries : List Str} {ps : Patterns} {entry : Str}

theorem nil : CompiledAs print args [] ⟨[], [], []⟩ := by
  constructor <;> simp [Patterns.matchAny, Patterns.present, matchesPatterns, matchesDynamicPatterns]

section

variable (h : CompiledAs print args entries ps)
include h

theorem skip : CompiledAs print args ([] :: entries) ps := by
  constructor
  · exact fun value => (h.matchAny value).trans (by simp)
  · exact fun value => (h.exclude value).trans (by simp)
  · exact h.present.trans (by simp)

theorem dynamic (hne : entry ≠ []) (hvar : hasVariables entry = true) :
    CompiledAs print args (entry :: entries) { ps with dynamicPatterns := entry :: ps.dynamicPatterns } := by
  constructor
  · intro value
    rw [exists_mem_cons_iff, ← h.matchAny, entryMatches, if_pos hvar]
    simp only [Patterns.matchAny, matchesDynamicPatterns, any_cons, Bool.or_eq_true, ne_eq, hne,
      not_false_eq_true, true_and]
    exact or_left_comm
  · intro value
    rw [exists_mem_cons_iff, ← h.exclude, exclusionMatches, if_pos hvar]
    simp only [matchesDynamicPatterns, any_cons, Bool.or_eq_true, ne_eq, hne, not_false_eq_true, true_and]
    exact or_left_comm
  · simp [Patterns.present, hne]

theorem static (hne : entry ≠ []) (hvar : ¬ hasVariables entry = true)
    {re : List (Tok (List UInt8))} (hre : compileWildcardPattern entry = some re) :
    CompiledAs print args (entry :: entries)
      { ps with patterns := re :: ps.patterns, matchers := entry :: ps.matchers } := by
  constructor
  · intro value
    rw [exists_mem_cons_iff, ← h.matchAny, entryMatches, if_neg hvar, hre]
    simp only [Patterns.matchAny, matchesPatterns, any_cons, Bool.or_eq_true, ne_eq, hne,
      not_false_eq_true, true_and]
    exact or_assoc
  · intro value
    rw [exists_mem_cons_iff, ← h.exclude, exclusionMatches, if_neg hvar]
    simp only [any_cons, Bool.or_eq_true, ne_eq, hne, not_false_eq_true, true_and]
    exact or_assoc
  · simp [Patterns.present, hne]

end

end CompiledAs

/-- **What a clause compiles to.** -/
theorem compilePatterns_spec (print : Printer F O) (args : PolicyEvaluationArgs F O) {entries : List Str}
    {ps : Patterns} (h : compilePatterns entries = .ok ps) : CompiledAs print args entries ps := by
  induction entries generalizing ps with
  | nil =>
    obtain rfl : ⟨[], [], []⟩ = ps := ok.inj h
    exact .nil
  | cons entry entries ih =>
    rw [compilePatterns] at h
    split at h
    next hnil => exact hnil ▸ (ih h).skip
    next hne =>
      split at h
      next hvar =>
        obtain ⟨rest, hrest, h⟩ := bind_eq_ok.1 h
        obtain rfl := ok.inj h
        exact (ih hrest).dynamic hne hvar
      next hvar =>
        split at h
        next => cases h
        next re hre =>
          obtain ⟨rest, hrest, h⟩ := bind_eq_ok.1 h
          obtain rfl := ok.inj h
          exact (ih hrest).static hne hvar hre

/-! ## Statements -/

/-- What a statement compiles to. -/
structure CompiledStatementAs (print : Printer F O) (args : PolicyEvaluationArgs F O) (stmt : PolicyStatement)
    (compiled : CompiledStatement) : Prop where
  effect : compiled.effect = stmt.effect
  condition : compiled.condition = stmt.condition
  action : CompiledAs print args stmt.action compiled.action
  resource : CompiledAs print args (stmt.resource.getD []) compiled.resource
  principal : CompiledAs print args (stmt.principal.getD []) compiled.principal
  notResource : CompiledAs print args (stmt.notResource.getD []) compiled.notResource

theorem compileStatement_spec (print : Printer F O) (args : PolicyEvaluationArgs F O)
    {compiled : CompiledStatement} (h : compileStatement stmt = .ok compiled) :
    CompiledStatementAs print args stmt compiled := by
  obtain ⟨action, ha, h⟩ := bind_eq_ok.1 h
  obtain ⟨resource, hr, h⟩ := bind_eq_ok.1 h
  obtain ⟨principal, hp, h⟩ := bind_eq_ok.1 h
  obtain ⟨notResource, hn, h⟩ := bind_eq_ok.1 h
  obtain rfl := ok.inj h
  exact ⟨rfl, rfl, compilePatterns_spec print args (mapError_eq_ok.1 ha),
    compilePatterns_spec print args (mapError_eq_ok.1 hr), compilePatterns_spec print args (mapError_eq_ok.1 hp),
    compilePatterns_spec print args (mapError_eq_ok.1 hn)⟩

theorem compileStatements_ok {i : Nat} (h : compileStatements i stmts = .ok compiled) :
    List.Forall₂ (fun stmt c => compileStatement stmt = .ok c) stmts compiled := by
  induction stmts generalizing i compiled with
  | nil =>
    obtain rfl : [] = compiled := ok.inj h
    exact .nil
  | cons stmt stmts ih =>
    obtain ⟨c, hc, h⟩ := bind_eq_ok.1 h
    obtain ⟨rest, hrest, h⟩ := bind_eq_ok.1 h
    obtain rfl := ok.inj h
    exact .cons (mapError_eq_ok.1 hc) (ih hrest)

theorem exists_compiled
    (h : List.Forall₂ (fun stmt c => compileStatement stmt = .ok c) stmts compiled) {c : CompiledStatement}
    (hc : c ∈ compiled) : ∃ stmt ∈ stmts, compileStatement stmt = .ok c := by
  induction h with
  | nil => cases hc
  | @cons stmt c' stmts cs hstmt _ ih =>
    rcases List.mem_cons.1 hc with rfl | hc
    · exact ⟨stmt, mem_cons_self, hstmt⟩
    · obtain ⟨stmt', hmem, hstmt'⟩ := ih hc
      exact ⟨stmt', mem_cons_of_mem stmt hmem, hstmt'⟩

theorem compileStatements_spec (print : Printer F O) (args : PolicyEvaluationArgs F O)
    {i : Nat} (h : compileStatements i stmts = .ok compiled) :
    List.Forall₂ (CompiledStatementAs print args) stmts compiled :=
  (compileStatements_ok h).imp fun _ _ hc => compileStatement_spec print args hc

/-! ## Empty entries -/

/-- A clause without its empty entries; one that has no others is left out. -/
def dropEmpty (clause : Option (List Str)) : Option (List Str) :=
  (clause.map (·.filter (· ≠ []))).filter (· ≠ [])

/-- A statement without its empty entries. -/
def PolicyStatement.withoutEmpty (stmt : PolicyStatement) : PolicyStatement :=
  { stmt with
    principal := dropEmpty stmt.principal
    action := stmt.action.filter (· ≠ [])
    resource := dropEmpty stmt.resource
    notResource := dropEmpty stmt.notResource }

section

variable {clause : Option (List Str)} {f : Str → Bool}

theorem dropEmpty_cases (clause : Option (List Str)) :
    dropEmpty clause = none ∧ (∀ entry ∈ clause.getD [], entry = []) ∨
      ∃ entries, dropEmpty clause = some entries ∧ entries ≠ [] ∧
        ∀ entry, entry ∈ entries ↔ entry ∈ clause.getD [] ∧ entry ≠ [] := by
  cases clause with
  | none => exact .inl ⟨rfl, nofun⟩
  | some entries =>
    by_cases hnil : entries.filter (· ≠ []) = []
    · exact .inl ⟨by simpa [dropEmpty] using hnil, by simpa using hnil⟩
    · exact .inr ⟨entries.filter (· ≠ []), by simpa [dropEmpty, Option.filter] using hnil, hnil, by simp⟩

theorem forall_dropEmpty_exists : (∀ entries, dropEmpty clause = some entries → ∃ entry ∈ entries, f entry = true) ↔
    ((∃ entry ∈ clause.getD [], entry ≠ []) → ∃ entry ∈ clause.getD [], entry ≠ [] ∧ f entry = true) := by
  rcases dropEmpty_cases clause with ⟨hnone, hall⟩ | ⟨entries, hsome, hne, hmem⟩
  · simpa [hnone] using fun entry hentry hnot => absurd (hall entry hentry) hnot
  · obtain ⟨entry, hentry⟩ := exists_mem_of_ne_nil entries hne
    have hex : ∃ entry ∈ clause.getD [], entry ≠ [] := ⟨entry, (hmem entry).1 hentry⟩
    simp only [hsome, Option.some.injEq, forall_eq', hmem, and_assoc, hex, forall_true_left]

theorem forall_dropEmpty_forall :
    (∀ entries, dropEmpty clause = some entries → ∀ entry ∈ entries, f entry = false) ↔
      ¬ ∃ entry ∈ clause.getD [], entry ≠ [] ∧ f entry = true := by
  rcases dropEmpty_cases clause with ⟨hnone, hall⟩ | ⟨entries, hsome, -, hmem⟩
  · simpa [hnone] using fun entry hentry hnot => absurd (hall entry hentry) hnot
  · simp [hsome, hmem]

end

/-- **What the clauses of a statement decide.** -/
theorem CompiledStatementAs.clausesMatch_iff {compiled : CompiledStatement}
    (h : CompiledStatementAs print args stmt compiled) (holds : PolicyConditions → Bool) :
    (clausesMatch print args compiled = true ∧ holds stmt.condition = true) ↔
      StatementMatches print args holds stmt.withoutEmpty := by
  rw [statementMatches_iff, PolicyStatement.withoutEmpty, forall_dropEmpty_exists, forall_dropEmpty_forall,
    forall_dropEmpty_exists]
  simp only [mem_filter, decide_eq_true_eq, and_assoc]
  rw [← h.action.matchAny, ← h.resource.present, ← h.resource.matchAny, ← h.notResource.exclude,
    ← h.principal.present, ← h.principal.matchAny]
  simp only [← and_assoc]
  refine and_congr_left' ?_
  -- without entries nothing is excluded
  have hpresent : (compiled.notResource.matchers.any (matchesWildcard · args.resource) ||
      matchesDynamicPatterns print args compiled.notResource.dynamicPatterns args.resource) = true →
      compiled.notResource.present = true := by
    rw [h.notResource.exclude, h.notResource.present]
    rintro ⟨entry, hmem, hne, -⟩
    exact ⟨entry, hmem, hne⟩
  unfold clausesMatch
  generalize compiled.action.matchAny print args args.action = a
  generalize compiled.resource.present = rp
  generalize compiled.resource.matchAny print args args.resource = r
  generalize (compiled.notResource.matchers.any (matchesWildcard · args.resource) ||
    matchesDynamicPatterns print args compiled.notResource.dynamicPatterns args.resource) = n at hpresent ⊢
  generalize compiled.notResource.present = np at hpresent ⊢
  generalize compiled.principal.present = pp
  generalize compiled.principal.matchAny print args args.principal = p
  revert a rp r n np pp p
  decide

/-! ## Policies -/

/-- The decision of a policy in which `denied` and `allowed` say whether some statement of that effect matches. -/
structure Decides (denied allowed : Prop) (result : PolicyEvaluationResult) : Prop where
  deny : result = .deny ↔ denied
  allow : result = .allow ↔ ¬ denied ∧ allowed
  indeterminate : result = .indeterminate ↔ ¬ denied ∧ ¬ allowed

theorem Decides.congr {denied denied' allowed allowed' : Prop} {result : PolicyEvaluationResult}
    (h : Decides denied allowed result) (hd : denied ↔ denied') (ha : allowed ↔ allowed') :
    Decides denied' allowed' result := by
  obtain rfl := propext hd
  obtain rfl := propext ha
  exact h

/-- A result that is right for one policy is right for another exactly when the policies decide alike. -/
theorem Decides.iff {denied denied' allowed allowed' : Prop} {result : PolicyEvaluationResult}
    (h : Decides denied' allowed' result) :
    Decides denied allowed result ↔ (denied ↔ denied') ∧ (¬ denied → (allowed ↔ allowed')) := by
  constructor
  · intro hwritten
    have hdenied := hwritten.deny.symm.trans h.deny
    have hallowed := hwritten.allow.symm.trans h.allow
    refine ⟨hdenied, fun hno => ?_⟩
    rwa [← hdenied, and_iff_right hno, and_iff_right hno] at hallowed
  · rintro ⟨hdenied, hallowed⟩
    constructor
    · exact h.deny.trans hdenied.symm
    · exact h.allow.trans (by rw [← hdenied, and_congr_right hallowed])
    · exact h.indeterminate.trans (by rw [← hdenied, and_congr_right fun hno => not_congr (hallowed hno)])

theorem evaluateStatements_cons (s : σ) (allowed : Bool) (stmt : CompiledStatement) (rest : List CompiledStatement) :
    evaluateStatements print evalConditions args s allowed (stmt :: rest) =
      if (evaluateStatement print evalConditions args s stmt).2 then
        if stmt.effect = effectDeny then ((evaluateStatement print evalConditions args s stmt).1, .deny)
        else evaluateStatements print evalConditions args (evaluateStatement print evalConditions args s stmt).1
          (allowed || stmt.effect = effectAllow) rest
      else evaluateStatements print evalConditions args (evaluateStatement print evalConditions args s stmt).1
        allowed rest := rfl

/-- **The verdicts of the statements decide the policy**, if they do not depend on the state. -/
theorem evaluateStatements_verdict {verdict : CompiledStatement → Bool} {stmts : List CompiledStatement}
    (hv : ∀ s, ∀ stmt ∈ stmts, (evaluateStatement print evalConditions args s stmt).2 = verdict stmt) (s : σ)
    (allowed : Bool) : Decides (∃ stmt ∈ stmts, stmt.effect = effectDeny ∧ verdict stmt = true)
      (allowed = true ∨ ∃ stmt ∈ stmts, stmt.effect = effectAllow ∧ verdict stmt = true)
      (evaluateStatements print evalConditions args s allowed stmts).2 := by
  induction stmts generalizing s allowed with
  | nil => cases allowed <;> constructor <;> simp [evaluateStatements]
  | cons stmt stmts ih =>
    have ih := ih fun s c hc => hv s c (mem_cons_of_mem stmt hc)
    rw [evaluateStatements_cons, hv s stmt mem_cons_self]
    generalize (evaluateStatement print evalConditions args s stmt).1 = s'
    cases hverdict : verdict stmt with
    | false =>
      exact (ih s' allowed).congr (by simp [hverdict]) (by simp [hverdict])
    | true =>
      by_cases hdeny : stmt.effect = effectDeny
      · constructor <;> simp [hdeny, hverdict]
      · rw [if_neg hdeny]
        refine (ih s' _).congr (by simp [hdeny]) ?_
        simp only [Bool.or_eq_true, decide_eq_true_eq, List.mem_cons, exists_eq_or_imp, hverdict, and_true, or_assoc]

theorem exists_withoutEmpty (h : List.Forall₂ (CompiledStatementAs print args) stmts compiled)
    (holds : PolicyConditions → Bool) (effect : Str) :
    (∃ stmt ∈ compiled, stmt.effect = effect ∧ (clausesMatch print args stmt && holds stmt.condition) = true) ↔
      ∃ stmt ∈ stmts, stmt.effect = effect ∧ StatementMatches print args holds stmt.withoutEmpty := by
  induction h with
  | nil => simp
  | cons hc _ ih =>
    rw [exists_mem_cons_iff, exists_mem_cons_iff, ih, hc.effect, hc.condition, Bool.and_eq_true, hc.clausesMatch_iff]

theorem evaluateStatement_verdict {holds : PolicyConditions → Bool}
    (hholds : ∀ s conditions, (evalConditions s conditions).2 = holds conditions) (hnone : holds [] = true) (s : σ)
    (stmt : CompiledStatement) : (evaluateStatement print evalConditions args s stmt).2 =
      (clausesMatch print args stmt && holds stmt.condition) := by
  rw [evaluateStatement]
  cases clausesMatch print args stmt with
  | false => rfl
  | true =>
    cases hcond : stmt.condition with
    | nil => simp [hnone]
    | cons c cs => simp [hholds]

theorem setBucketPolicy_ok {engine engine' : Engine} {bucketName : Str} {doc : PolicyDocument}
    (h : setBucketPolicy engine bucketName doc = .ok engine') :
    ∃ compiled, compilePolicy doc = .ok compiled ∧ engine' bucketName = some compiled := by
  obtain ⟨-, -, h⟩ := bind_eq_ok.1 h
  obtain ⟨compiled, hcompiled, h⟩ := bind_eq_ok.1 h
  obtain rfl := ok.inj h
  exact ⟨compiled, mapError_eq_ok.1 hcompiled, if_pos rfl⟩

theorem setBucketPolicy_eq {engine : Engine} {bucketName : Str} {doc : PolicyDocument}
    (hvalid : validatePolicy doc = .ok ()) (hcompiled : compilePolicy doc = .ok compiled) :
    setBucketPolicy engine bucketName doc =
      .ok fun name => if name = bucketName then some compiled else engine name := by
  rw [setBucketPolicy, hvalid, hcompiled]
  rfl

/-- **The decision of a bucket policy.** An accepted policy is decided by its statements as they are written exactly
for the requests that its statements without their empty entries decide alike. -/
theorem evaluatePolicy_decides {engine engine' : Engine} {bucketName : Str} {doc : PolicyDocument}
    (hset : setBucketPolicy engine bucketName doc = .ok engine') {holds : PolicyConditions → Bool}
    (hholds : ∀ s conditions, (evalConditions s conditions).2 = holds conditions) (hnone : holds [] = true) (s : σ) :
    Decides (∃ stmt ∈ doc.statement, stmt.effect = effectDeny ∧ StatementMatches print args holds stmt)
      (∃ stmt ∈ doc.statement, stmt.effect = effectAllow ∧ StatementMatches print args holds stmt)
      (evaluatePolicy print evalConditions args engine' s bucketName).2 ↔
    ((∃ stmt ∈ doc.statement, stmt.effect = effectDeny ∧ StatementMatches print args holds stmt) ↔
      ∃ stmt ∈ doc.statement, stmt.effect = effectDeny ∧ StatementMatches print args holds stmt.withoutEmpty) ∧
    ((¬ ∃ stmt ∈ doc.statement, stmt.effect = effectDeny ∧ StatementMatches print args holds stmt) →
      ((∃ stmt ∈ doc.statement, stmt.effect = effectAllow ∧ StatementMatches print args holds stmt) ↔
        ∃ stmt ∈ doc.statement, stmt.effect = effectAllow ∧ StatementMatches print args holds stmt.withoutEmpty)) := by
  obtain ⟨compiled, hcompiled, hengine⟩ := setBucketPolicy_ok hset
  have hforall := compileStatements_spec print args hcompiled
  have hverdict : ∀ s, ∀ stmt ∈ compiled, (evaluateStatement print evalConditions args s stmt).2 =
      (clausesMatch print args stmt && holds stmt.condition) :=
    fun s stmt _ => evaluateStatement_verdict hholds hnone s stmt
  rw [evaluatePolicy, hengine]
  refine Decides.iff ((evaluateStatements_verdict hverdict s false).congr
    (exists_withoutEmpty hforall holds effectDeny) ?_)
  rw [exists_withoutEmpty hforall holds effectAllow]
  simp

/-- Everything on the bucket `b`, with an empty entry beside the pattern, and a `Deny` of writes with an empty list
of principals. -/
def allowWithEmpty : PolicyDocument where
  version := ascii "2012-10-17"
  statement :=
    [{ effect := effectAllow
       principal := some [ascii "*"]
       action := [ascii "s3:*"]
       resource := some [[], ascii "b/*"] },
     { effect := effectDeny, principal := some [], action := [ascii "s3:Put"], resource := some [ascii "b/*"] }]

/-- An `Allow` whose only resource is the empty string. -/
def allowEmpty : PolicyDocument where
  version := ascii "2012-10-17"
  statement := [{ effect := effectAllow, action := [ascii "s3:*"], resource := some [[]] }]

/-- Reading the key `k` of the bucket `b`. -/
def getObject : PolicyEvaluationArgs Unit Unit where
  action := ascii "s3:Get"
  resource := ascii "b/k"
  principal := ascii "u"
  conditions := fun _ => none

def noPrinter : Printer Unit Unit := ⟨fun _ => none, fun _ => [], fun _ => []⟩

theorem evaluatePolicy_decides_beside_empty :
    ∃ engine', setBucketPolicy (fun _ => none) (ascii "b") allowWithEmpty = .ok engine' ∧
      (evaluatePolicy noPrinter (fun s _ => (s, true)) getObject engine' () (ascii "b")).2 = .allow := by
  have hok : ∃ engine', setBucketPolicy (fun _ => none) (ascii "b") allowWithEmpty = .ok engine' :=
    ⟨_, setBucketPolicy_eq rfl rfl⟩
  obtain ⟨engine', hset⟩ := hok
  have hholds : ∀ (s : Unit) (conditions : PolicyConditions),
      ((fun (s : Unit) (_ : PolicyConditions) => (s, true)) s conditions).2 = (fun _ => true) conditions :=
    fun _ _ => rfl
  exact ⟨engine', hset,
    ((evaluatePolicy_decides hset hholds rfl ()).2 (by decide +kernel)).allow.2 (by decide +kernel)⟩

/-- An accepted policy that allows every resource, although none of its entries matches it. -/
theorem evaluatePolicy_empty_resource :
    ∃ engine', setBucketPolicy (fun _ => none) (ascii "b") allowEmpty = .ok engine' ∧
      (evaluatePolicy noPrinter (fun s _ => (s, true)) getObject engine' () (ascii "b")).2 = .allow ∧
      ¬ ∃ stmt ∈ allowEmpty.statement, StatementMatches noPrinter getObject (fun _ => true) stmt :=
  ⟨_, setBucketPolicy_eq rfl rfl, by decide +kernel, by decide +kernel⟩

end S3.PolicyEngine
