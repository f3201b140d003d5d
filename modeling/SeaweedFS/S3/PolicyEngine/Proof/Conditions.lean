import SeaweedFS.S3.PolicyEngine.Conditions
import SeaweedFS.S3.PolicyEngine.Proof.Engine

/-!
# Conditions and the cache of their values

The cache is keyed by the printed form of a list, which different lists share. An evaluation answers as one without a
cache where no other list is under the key of one of its lists (`evaluateConditions_spec`). An operator without an
evaluator is skipped (`evaluated_of_true`).
-/

namespace S3.PolicyEngine

open Lib Util List ConditionValue Option

variable {F O : Type} {fmt : Formats} {print : Printer F O} {args : PolicyEvaluationArgs F O}
variable {stmts : List CompiledStatement} {evaluator : ConditionEvaluator} {c' : NormalizedValueCache}
variable {stmt : CompiledStatement} {lists : List (List Str)} {conditionMap : List (Str × List Str)}
  {c : NormalizedValueCache} {conditions : PolicyConditions}

/-! ## One value -/

/-- **A value through the cache**: what is cached under its key, or the value itself, which then may be cached. -/
theorem getCachedNormalizedValues_spec (hc : c.Valid) (value : ConditionValue) :
    ∃ c', getCachedNormalizedValues c value = some (c', (c.peek value.cacheKey).getD value.normalize) ∧ c'.Valid ∧
      ∀ k v, c'.peek k = some v → k = value.cacheKey ∧ v = value.normalize ∨ c.peek k = some v := by
  obtain ⟨c1, hget, hvalid1, hpeek1⟩ := hc.get value.cacheKey
  rw [getCachedNormalizedValues, hget]
  cases hcached : c.peek value.cacheKey with
  | some values => exact ⟨c1, rfl, hvalid1, fun k v hv => .inr (hpeek1 k v hv)⟩
  | none =>
    obtain ⟨c2, hset, hvalid2, hpeek2⟩ := hvalid1.set value.cacheKey value.normalize
    refine ⟨c2, ?_, hvalid2, fun k v hv => (hpeek2 k v hv).imp_right (hpeek1 k v)⟩
    show (c1.set value.cacheKey value.normalize).bind _ = _
    rw [hset]
    rfl

theorem cacheKey_strings {l l' : List Str} :
    (ConditionValue.strings l).cacheKey = (ConditionValue.strings l').cacheKey ↔ sprint l = sprint l' :=
  append_right_inj (ascii "[]string:")

/-- The lists of a group have nothing else cached under their keys. -/
def CacheApart (c : NormalizedValueCache) (lists : List (List Str)) : Prop :=
  ∀ l ∈ lists, ∀ v, c.peek (ConditionValue.strings l).cacheKey = some v → v = l

/-- The lists of a group print differently. -/
def PrintApart (lists : List (List Str)) : Prop :=
  ∀ l ∈ lists, ∀ l' ∈ lists, sprint l = sprint l' → l = l'

/-- **One evaluation** answers as one without a cache. -/
theorem evaluate_spec (hc : c.Valid) (hcache : CacheApart c lists)
    (hprint : PrintApart lists) {l : List Str} (hl : l ∈ lists) (evaluator : ConditionEvaluator) (context : List Str) :
    ∃ c', evaluator.evaluate fmt c (.strings l) context = some (c', evaluator.holds fmt l context) ∧ c'.Valid ∧
      CacheApart c' lists := by
  obtain ⟨c', hget, hvalid, hpeek⟩ := getCachedNormalizedValues_spec hc (.strings l)
  have hvalues : (c.peek (strings l).cacheKey).getD l = l := by
    cases hcached : c.peek (strings l).cacheKey with
    | none => rfl
    | some v => exact hcache l hl v hcached
  refine ⟨c', ?_, hvalid, fun l' hl' v hv => ?_⟩
  · rw [ConditionEvaluator.evaluate, hget]
    exact congrArg (fun values => some (c', evaluator.holds fmt values context)) hvalues
  · rcases hpeek _ v hv with ⟨hkey, hv⟩ | hv
    · exact hv.trans (hprint l' hl' l hl (cacheKey_strings.1 hkey)).symm
    · exact hcache l' hl' v hv

/-! ## The loops -/

theorem evaluateKeys_cons (evaluator : ConditionEvaluator) (key : Str) (values : List Str)
    (rest : List (Str × List Str)) : evaluateKeys fmt print args evaluator c ((key, values) :: rest) =
      (evaluator.evaluate fmt c (.strings (expectedValues print args values)) (contextVals args key)).bind fun r =>
        if r.2 then evaluateKeys fmt print args evaluator r.1 rest else some (r.1, false) := rfl

theorem evaluateConditions_skip {operator : Str} (hev : getConditionEvaluator operator = none)
    (conditionMap : List (Str × List Str)) (rest : PolicyConditions) :
    evaluateConditions fmt print args c ((operator, conditionMap) :: rest) =
      evaluateConditions fmt print args c rest := by
  rw [evaluateConditions, hev]

theorem evaluateConditions_cons {operator : Str}
    (hev : getConditionEvaluator operator = some evaluator) (conditionMap : List (Str × List Str))
    (rest : PolicyConditions) : evaluateConditions fmt print args c ((operator, conditionMap) :: rest) =
      (evaluateKeys fmt print args evaluator c conditionMap).bind fun r =>
        if r.2 then evaluateConditions fmt print args r.1 rest else some (r.1, false) := by
  rw [evaluateConditions, hev]
  rfl

theorem evaluateKeys_spec (fmt : Formats) (hprint : PrintApart lists) (evaluator : ConditionEvaluator)
    (hmem : ∀ kv ∈ conditionMap, expectedValues print args kv.2 ∈ lists)
    (hc : c.Valid) (hcache : CacheApart c lists) :
    ∃ c', evaluateKeys fmt print args evaluator c conditionMap =
        some (c', keysHold fmt print args evaluator conditionMap) ∧ c'.Valid ∧ CacheApart c' lists := by
  induction conditionMap generalizing c with
  | nil => exact ⟨c, rfl, hc, hcache⟩
  | cons kv rest ih =>
    obtain ⟨key, values⟩ := kv
    obtain ⟨c1, heval, hvalid1, hcache1⟩ :=
      evaluate_spec hc hcache hprint (hmem _ mem_cons_self) evaluator (contextVals args key)
    rw [evaluateKeys_cons, heval, keysHold, all_cons, bind_some]
    cases hok : evaluator.holds fmt (expectedValues print args values) (contextVals args key) with
    | false => exact ⟨c1, rfl, hvalid1, hcache1⟩
    | true => exact ih (fun kv hkv => hmem kv (mem_cons_of_mem _ hkv)) hvalid1 hcache1

/-- **Conditions that answer as without a cache.** -/
theorem evaluateConditions_spec (fmt : Formats) (hprint : PrintApart lists)
    (hmem : ∀ l ∈ valueLists print args conditions, l ∈ lists) (hc : c.Valid) (hcache : CacheApart c lists) :
    ∃ c', evaluateConditions fmt print args c conditions = some (c', conditionsHold fmt print args conditions) := by
  induction conditions generalizing c with
  | nil => exact ⟨c, rfl⟩
  | cons oc rest ih =>
    obtain ⟨operator, conditionMap⟩ := oc
    rw [valueLists] at hmem
    rw [conditionsHold]
    cases hev : getConditionEvaluator operator with
    | none =>
      rw [hev] at hmem
      rw [evaluateConditions_skip hev]
      exact ih hmem hc hcache
    | some evaluator =>
      rw [hev] at hmem
      obtain ⟨c1, hkeys, hvalid1, hcache1⟩ := evaluateKeys_spec fmt hprint evaluator
        (fun kv hkv => hmem _ (mem_append_left _ (mem_map_of_mem hkv))) hc hcache
      rw [evaluateConditions_cons hev, hkeys, bind_some]
      dsimp only
      cases keysHold fmt print args evaluator conditionMap with
      | false => exact ⟨c1, rfl⟩
      | true => exact ih (fun l hl => hmem l (mem_append_right _ hl)) hvalid1 hcache1

/-! ## Histories -/

theorem evaluate_valid (fmt : Formats) (hc : c.Valid) (evaluator : ConditionEvaluator)
    (value : ConditionValue) (context : List Str) :
    ∃ c' ok, evaluator.evaluate fmt c value context = some (c', ok) ∧ c'.Valid := by
  obtain ⟨c', hget, hvalid, -⟩ := getCachedNormalizedValues_spec hc value
  have heval : ∃ ok, evaluator.evaluate fmt c value context = some (c', ok) := by
    rw [ConditionEvaluator.evaluate, hget]
    exact ⟨_, rfl⟩
  obtain ⟨ok, heval⟩ := heval
  exact ⟨c', ok, heval, hvalid⟩

theorem evaluateKeys_valid (fmt : Formats) (hc : c.Valid) (evaluator : ConditionEvaluator)
    (conditionMap : List (Str × List Str)) :
    ∃ c' ok, evaluateKeys fmt print args evaluator c conditionMap = some (c', ok) ∧ c'.Valid := by
  induction conditionMap generalizing c with
  | nil => exact ⟨c, true, rfl, hc⟩
  | cons kv rest ih =>
    obtain ⟨key, values⟩ := kv
    obtain ⟨c1, ok, heval, hvalid1⟩ := evaluate_valid fmt hc evaluator
      (.strings (expectedValues print args values)) (contextVals args key)
    rw [evaluateKeys_cons, heval, bind_some]
    cases ok with
    | false => exact ⟨c1, false, rfl, hvalid1⟩
    | true => exact ih hvalid1

theorem evaluateConditions_valid (fmt : Formats) (print : Printer F O) (args : PolicyEvaluationArgs F O)
    (hc : c.Valid) (conditions : PolicyConditions) :
    ∃ c' ok, evaluateConditions fmt print args c conditions = some (c', ok) ∧ c'.Valid := by
  induction conditions generalizing c with
  | nil => exact ⟨c, true, rfl, hc⟩
  | cons oc rest ih =>
    obtain ⟨operator, conditionMap⟩ := oc
    cases hev : getConditionEvaluator operator with
    | none =>
      rw [evaluateConditions_skip hev]
      exact ih hc
    | some evaluator =>
      obtain ⟨c1, ok, hkeys, hvalid1⟩ := evaluateKeys_valid fmt hc evaluator conditionMap
      rw [evaluateConditions_cons hev, hkeys, bind_some]
      cases ok with
      | false => exact ⟨c1, false, rfl, hvalid1⟩
      | true => exact ih hvalid1

theorem run_valid (fmt : Formats) (print : Printer F O) (hc : c.Valid) (evaluation : Evaluation F O) :
    ∃ c', evaluation.run fmt print c = some c' ∧ c'.Valid := by
  cases evaluation with
  | policy args conditions =>
    obtain ⟨c', ok, heval, hvalid⟩ := evaluateConditions_valid fmt print args hc conditions
    refine ⟨c', ?_, hvalid⟩
    rw [Evaluation.run, heval]
    rfl
  | single evaluator value context =>
    obtain ⟨c', ok, heval, hvalid⟩ := evaluate_valid fmt hc evaluator value context
    refine ⟨c', ?_, hvalid⟩
    rw [Evaluation.run, heval]
    rfl

theorem newNormalizedValueCache_valid : newNormalizedValueCache.Valid := LruCache.valid_empty (by decide)

theorem foldlM_run_valid (fmt : Formats) (print : Printer F O) (hc : c.Valid) (history : List (Evaluation F O)) :
    ∃ c', history.foldlM (Evaluation.run fmt print) c = some c' ∧ c'.Valid := by
  induction history generalizing c with
  | nil => exact ⟨c, rfl, hc⟩
  | cons evaluation history ih =>
    obtain ⟨c1, hrun, hvalid1⟩ := run_valid fmt print hc evaluation
    rw [foldlM_cons, hrun]
    exact ih hvalid1

/-- **Every history of evaluations runs**, and leaves a valid cache. -/
theorem runEvaluations_valid (fmt : Formats) (print : Printer F O) (history : List (Evaluation F O)) :
    ∃ c, runEvaluations fmt print history = some c ∧ c.Valid :=
  foldlM_run_valid fmt print newNormalizedValueCache_valid history

/-- **Conditions answer as in a fresh process** after every history that left no other list under a key of theirs.
-/
theorem evaluateConditions_fresh (fmt : Formats) (print : Printer F O) (history : List (Evaluation F O))
    (args : PolicyEvaluationArgs F O) (conditions : PolicyConditions)
    (hprint : PrintApart (valueLists print args conditions)) :
    ∃ c, runEvaluations fmt print history = some c ∧
      (CacheApart c (valueLists print args conditions) →
        ∃ c₁ c₂ ok, evaluateConditions fmt print args c conditions = some (c₁, ok) ∧
          evaluateConditions fmt print args newNormalizedValueCache conditions = some (c₂, ok)) := by
  obtain ⟨c, hrun, hvalid⟩ := runEvaluations_valid fmt print history
  refine ⟨c, hrun, fun hcache => ?_⟩
  have hfresh : CacheApart newNormalizedValueCache (valueLists print args conditions) := nofun
  obtain ⟨c₁, h₁⟩ := evaluateConditions_spec fmt hprint (fun l hl => hl) hvalid hcache
  obtain ⟨c₂, h₂⟩ := evaluateConditions_spec fmt hprint (fun l hl => hl) newNormalizedValueCache_valid hfresh
  exact ⟨c₁, c₂, _, h₁, h₂⟩

/-- A condition on the user name. -/
def userIs (operator : String) (values : List Str) : PolicyConditions :=
  [(ascii operator, [(ascii "aws:username", values)])]

/-- A request of the user `a`. -/
def requestOfA : PolicyEvaluationArgs Unit Unit where
  action := ascii "s3:Get"
  resource := ascii "b/k"
  principal := ascii "a"
  conditions := fun key => if key = ascii "aws:username" then some [ascii "a"] else none

/-- Formats in which nothing parses. -/
def noFormats : Formats where
  Num := Unit
  parseFloat := fun _ => none
  numEq := fun _ _ => false
  numLt := fun _ _ => false
  numLe := fun _ _ => false
  Time := Unit
  parseTime := fun _ => none
  timeEqual := fun _ _ => false
  timeBefore := fun _ _ => false
  Ip := Unit
  parseIP := fun _ => none
  ipEqual := fun _ _ => false
  Net := Unit
  parseCIDR := fun _ => none
  contains := fun _ _ => false
  toLower := id

theorem evaluateConditions_fresh_user :
    ∃ c, runEvaluations noFormats noPrinter [.policy requestOfA (userIs "StringEquals" [ascii "b"])] = some c ∧
      (evaluateConditions noFormats noPrinter requestOfA c (userIs "StringEquals" [ascii "a"])).map Prod.snd =
        some true := by
  have hlists : valueLists noPrinter requestOfA (userIs "StringEquals" [ascii "a"]) = [[ascii "a"]] := by
    decide +kernel
  have hprint : PrintApart (valueLists noPrinter requestOfA (userIs "StringEquals" [ascii "a"])) := by
    rw [hlists]
    intro l hl l' hl' _
    rw [List.mem_singleton.1 hl, List.mem_singleton.1 hl']
  obtain ⟨c, hrun, hfresh⟩ := evaluateConditions_fresh noFormats noPrinter
    [.policy requestOfA (userIs "StringEquals" [ascii "b"])] requestOfA (userIs "StringEquals" [ascii "a"]) hprint
  refine ⟨c, hrun, ?_⟩
  have hcache : CacheApart c (valueLists noPrinter requestOfA (userIs "StringEquals" [ascii "a"])) := by
    rw [hlists]
    intro l hl v hv
    obtain rfl := List.mem_singleton.1 hl
    have hnone : (runEvaluations noFormats noPrinter
        [.policy requestOfA (userIs "StringEquals" [ascii "b"])]).bind
          (LruCache.peek · (strings [ascii "a"]).cacheKey) = none := by
      decide +kernel
    rw [hrun, bind_some, hv] at hnone
    cases hnone
  obtain ⟨c₁, c₂, ok, h₁, h₂⟩ := hfresh hcache
  have hok : (evaluateConditions noFormats noPrinter requestOfA newNormalizedValueCache
      (userIs "StringEquals" [ascii "a"])).map Prod.snd = some true := by
    decide +kernel
  rw [h₂] at hok
  rw [h₁]
  exact hok

/-- The users `a` and `b` of one policy make another policy, for the user `a b`, hold for the user `a`. -/
theorem evaluateConditions_confused :
    ((runEvaluations noFormats noPrinter
      [.policy requestOfA (userIs "StringEquals" [ascii "a", ascii "b"])]).bind fun c =>
        (evaluateConditions noFormats noPrinter requestOfA c (userIs "StringEquals" [ascii "a b"])).map Prod.snd) =
      some true ∧
    (evaluateConditions noFormats noPrinter requestOfA newNormalizedValueCache
      (userIs "StringEquals" [ascii "a b"])).map Prod.snd = some false := by
  decide +kernel

/-! ## What was evaluated -/

/-- The inner loop evaluates the values of a key, with this outcome. -/
inductive KeyEvaluated (fmt : Formats) (print : Printer F O) (args : PolicyEvaluationArgs F O)
    (evaluator : ConditionEvaluator) :
    NormalizedValueCache → List (Str × List Str) → Str → List Str → Bool → Prop
  | here {c c' : NormalizedValueCache} {key : Str} {values : List Str} {ok : Bool} {rest : List (Str × List Str)}
    (h : evaluator.evaluate fmt c (.strings (expectedValues print args values)) (contextVals args key) =
      some (c', ok)) : KeyEvaluated fmt print args evaluator c ((key, values) :: rest) key values ok
  | next {c c' : NormalizedValueCache} {key key' : Str} {values values' : List Str} {ok : Bool}
    {rest : List (Str × List Str)}
    (h : evaluator.evaluate fmt c (.strings (expectedValues print args values')) (contextVals args key') =
      some (c', true)) (hrest : KeyEvaluated fmt print args evaluator c' rest key values ok) :
    KeyEvaluated fmt print args evaluator c ((key', values') :: rest) key values ok

/-- `EvaluateConditions` evaluates the values of a key by the evaluator of an operator, with this outcome. -/
inductive Evaluated (fmt : Formats) (print : Printer F O) (args : PolicyEvaluationArgs F O) :
    NormalizedValueCache → PolicyConditions → Str → Str → List Str → Bool → Prop
  | here {c : NormalizedValueCache} {operator key : Str} {evaluator : ConditionEvaluator} {values : List Str}
    {ok : Bool} {conditionMap : List (Str × List Str)} {rest : PolicyConditions}
    (hev : getConditionEvaluator operator = some evaluator)
    (h : KeyEvaluated fmt print args evaluator c conditionMap key values ok) :
    Evaluated fmt print args c ((operator, conditionMap) :: rest) operator key values ok
  | skip {c : NormalizedValueCache} {operator operator' key : Str} {values : List Str} {ok : Bool}
    {conditionMap : List (Str × List Str)} {rest : PolicyConditions}
    (hev : getConditionEvaluator operator' = none)
    (hrest : Evaluated fmt print args c rest operator key values ok) :
    Evaluated fmt print args c ((operator', conditionMap) :: rest) operator key values ok
  | next {c c' : NormalizedValueCache} {operator operator' key : Str} {evaluator : ConditionEvaluator}
    {values : List Str} {ok : Bool} {conditionMap : List (Str × List Str)} {rest : PolicyConditions}
    (hev : getConditionEvaluator operator' = some evaluator)
    (h : evaluateKeys fmt print args evaluator c conditionMap = some (c', true))
    (hrest : Evaluated fmt print args c' rest operator key values ok) :
    Evaluated fmt print args c ((operator', conditionMap) :: rest) operator key values ok

theorem keyEvaluated_of_true
    (h : evaluateKeys fmt print args evaluator c conditionMap = some (c', true))
    {kv : Str × List Str} (hkv : kv ∈ conditionMap) :
    KeyEvaluated fmt print args evaluator c conditionMap kv.1 kv.2 true := by
  induction conditionMap generalizing c with
  | nil => cases hkv
  | cons kv' rest ih =>
    obtain ⟨⟨c1, ok⟩, heval, h⟩ := bind_eq_some_iff.1 h
    cases ok with
    | false => cases h
    | true =>
      rcases List.mem_cons.1 hkv with rfl | hkv
      · exact .here heval
      · exact .next heval (ih h hkv)

/-- **Conditions that hold have evaluated to true** every key of an operator with an evaluator. -/
theorem evaluated_of_true (h : evaluateConditions fmt print args c conditions = some (c', true))
    {oc : Str × List (Str × List Str)} (hoc : oc ∈ conditions)
    (hev : getConditionEvaluator oc.1 = some evaluator) {kv : Str × List Str} (hkv : kv ∈ oc.2) :
    Evaluated fmt print args c conditions oc.1 kv.1 kv.2 true := by
  induction conditions generalizing c with
  | nil => cases hoc
  | cons oc' rest ih =>
    obtain ⟨operator', conditionMap'⟩ := oc'
    cases hev' : getConditionEvaluator operator' with
    | none =>
      rw [evaluateConditions_skip hev'] at h
      rcases List.mem_cons.1 hoc with rfl | hoc
      · rw [hev'] at hev
        cases hev
      · exact .skip hev' (ih h hoc)
    | some evaluator' =>
      rw [evaluateConditions_cons hev'] at h
      obtain ⟨⟨c1, ok⟩, hkeys, h⟩ := bind_eq_some_iff.1 h
      cases ok with
      | false => cases h
      | true =>
        rcases List.mem_cons.1 hoc with rfl | hoc
        · exact .here hev' (keyEvaluated_of_true hkeys hkv)
        · exact .next hev' hkeys (ih h hoc)

/-! ## Statements that grant -/

/-- The loop over the statements reaches a statement in this state. -/
inductive Visits {σ : Type} (print : Printer F O) (evalConditions : σ → PolicyConditions → σ × Bool)
    (args : PolicyEvaluationArgs F O) : σ → List CompiledStatement → CompiledStatement → σ → Prop
  | here {s : σ} {stmt : CompiledStatement} {rest : List CompiledStatement} :
    Visits print evalConditions args s (stmt :: rest) stmt s
  | next {s s' : σ} {stmt stmt' : CompiledStatement} {rest : List CompiledStatement}
    (h : Visits print evalConditions args (evaluateStatement print evalConditions args s stmt').1 rest stmt s') :
    Visits print evalConditions args s (stmt' :: rest) stmt s'

theorem Visits.mem {σ : Type} {evalConditions : σ → PolicyConditions → σ × Bool} {s s' : σ}
    (h : Visits print evalConditions args s stmts stmt s') : stmt ∈ stmts := by
  induction h with
  | here => exact mem_cons_self
  | next _ ih => exact mem_cons_of_mem _ ih

/-- An `Allow` of the loop is that of a statement it visits. -/
theorem visits_of_allow {σ : Type} {evalConditions : σ → PolicyConditions → σ × Bool} {s : σ} {allowed : Bool}
    (h : (evaluateStatements print evalConditions args s allowed stmts).2 = .allow) :
    allowed = true ∨ ∃ stmt s', Visits print evalConditions args s stmts stmt s' ∧ stmt.effect = effectAllow ∧
      (evaluateStatement print evalConditions args s' stmt).2 = true := by
  induction stmts generalizing s allowed with
  | nil =>
    cases allowed with
    | false => cases h
    | true => exact .inl rfl
  | cons stmt stmts ih =>
    have hnext : ∀ {allowed' : Bool},
        (evaluateStatements print evalConditions args (evaluateStatement print evalConditions args s stmt).1
          allowed' stmts).2 = .allow →
        allowed' = true ∨ ∃ stmt' s', Visits print evalConditions args s (stmt :: stmts) stmt' s' ∧
          stmt'.effect = effectAllow ∧ (evaluateStatement print evalConditions args s' stmt').2 = true := by
      intro allowed' h'
      exact (ih h').imp_right fun ⟨stmt', s', hvisits, hgrant⟩ => ⟨stmt', s', .next hvisits, hgrant⟩
    rw [evaluateStatements_cons] at h
    cases hmatched : (evaluateStatement print evalConditions args s stmt).2 with
    | false =>
      rw [hmatched, if_neg (by decide)] at h
      exact hnext h
    | true =>
      rw [if_pos hmatched] at h
      by_cases hdeny : stmt.effect = effectDeny
      · rw [if_pos hdeny] at h
        cases h
      · rw [if_neg hdeny] at h
        rcases hnext h with hallowed | hgrant
        · rw [Bool.or_eq_true, decide_eq_true_eq] at hallowed
          exact hallowed.imp_right fun heffect => ⟨stmt, s, .here, heffect, hmatched⟩
        · exact .inr hgrant

/-- A visited statement that grants the request with a cache: an `Allow` whose action, resource and principal match
and whose conditions are taken to hold. -/
structure Granting (fmt : Formats) (print : Printer F O) (args : PolicyEvaluationArgs F O) (c : NormalizedValueCache)
    (stmts : List CompiledStatement) (stmt : CompiledStatement) (c' : NormalizedValueCache) : Prop where
  visits : Visits print (processConditions fmt print args) args (some c) stmts stmt (some c')
  effect : stmt.effect = effectAllow
  clauses : clausesMatch print args stmt = true
  conditions : ∃ c'', evaluateConditions fmt print args c' stmt.condition = some (c'', true)

theorem processConditions_valid (hc : c.Valid) (conditions : PolicyConditions) :
    ∃ c', (processConditions fmt print args (some c) conditions).1 = some c' ∧ c'.Valid := by
  obtain ⟨c', ok, heval, hvalid⟩ := evaluateConditions_valid fmt print args hc conditions
  refine ⟨c', ?_, hvalid⟩
  rw [processConditions, bind_some, heval]

theorem evaluateStatement_valid (fmt : Formats) (print : Printer F O) (args : PolicyEvaluationArgs F O)
    (hc : c.Valid) (stmt : CompiledStatement) :
    ∃ c', (evaluateStatement print (processConditions fmt print args) args (some c) stmt).1 = some c' ∧ c'.Valid := by
  rw [evaluateStatement]
  split
  · exact ⟨c, rfl, hc⟩
  · split
    · exact processConditions_valid hc stmt.condition
    · exact ⟨c, rfl, hc⟩

theorem Visits.valid {s : Option NormalizedValueCache}
    (hc : c.Valid) (h : Visits print (processConditions fmt print args) args (some c) stmts stmt s) :
    ∃ c', s = some c' := by
  induction stmts generalizing c with
  | nil => cases h
  | cons stmt' stmts ih =>
    cases h with
    | here => exact ⟨c, rfl⟩
    | next h =>
      obtain ⟨c1, hstep, hvalid⟩ := evaluateStatement_valid fmt print args hc stmt'
      rw [hstep] at h
      exact ih hvalid h

theorem evaluateStatement_true
    (h : (evaluateStatement print (processConditions fmt print args) args (some c) stmt).2 = true) :
    clausesMatch print args stmt = true ∧
      ∃ c', evaluateConditions fmt print args c stmt.condition = some (c', true) := by
  rw [evaluateStatement] at h
  cases hclauses : clausesMatch print args stmt with
  | false =>
    rw [hclauses] at h
    cases h
  | true =>
    refine ⟨rfl, ?_⟩
    rw [hclauses, if_neg (by decide)] at h
    cases hcond : stmt.condition with
    | nil => exact ⟨c, rfl⟩
    | cons oc rest =>
      rw [hcond, if_pos (by simp), processConditions, bind_some] at h
      split at h
      next c' ok heval =>
        obtain rfl : ok = true := h
        exact ⟨c', heval⟩
      next => cases h

/-- **An `Allow` of a policy** comes from a statement that grants the request. -/
theorem granting_of_allow (hc : c.Valid)
    (h : (evaluateStatements print (processConditions fmt print args) args (some c) false stmts).2 = .allow) :
    ∃ stmt c', Granting fmt print args c stmts stmt c' := by
  rcases visits_of_allow h with h | ⟨stmt, s', hvisits, heffect, hmatched⟩
  · cases h
  · obtain ⟨c', rfl⟩ := hvisits.valid hc
    obtain ⟨hclauses, hcond⟩ := evaluateStatement_true hmatched
    exact ⟨stmt, c', hvisits, heffect, hclauses, hcond⟩

/-- A statement of a document grants the request, with this cache when its conditions were evaluated. -/
def Grants (fmt : Formats) (print : Printer F O) (args : PolicyEvaluationArgs F O) (c : NormalizedValueCache)
    (doc : PolicyDocument) (stmts : List CompiledStatement) (stmt : PolicyStatement) (c' : NormalizedValueCache) :
    Prop :=
  stmt ∈ doc.statement ∧ ∃ compiled, compileStatement stmt = .ok compiled ∧ Granting fmt print args c stmts compiled c'

/-- Every pair of an operator and a key was evaluated by the evaluator of the operator and came out true. -/
def AllEvaluated (fmt : Formats) (print : Printer F O) (args : PolicyEvaluationArgs F O) (c : NormalizedValueCache)
    (conditions : PolicyConditions) : Prop :=
  ∀ oc ∈ conditions, ∀ kv ∈ oc.2, (getConditionEvaluator oc.1).isSome = true ∧
    Evaluated fmt print args c conditions oc.1 kv.1 kv.2 true

/-- Every operator with a key has an evaluator. -/
def AllSupported (conditions : PolicyConditions) : Prop :=
  ∀ oc ∈ conditions, oc.2 ≠ [] → (getConditionEvaluator oc.1).isSome = true

theorem compileStatement_condition {stmt : PolicyStatement} {compiled : CompiledStatement}
    (h : compileStatement stmt = .ok compiled) : compiled.condition = stmt.condition := by
  obtain ⟨_, -, h⟩ := bind_eq_ok.1 h
  obtain ⟨_, -, h⟩ := bind_eq_ok.1 h
  obtain ⟨_, -, h⟩ := bind_eq_ok.1 h
  obtain ⟨_, -, h⟩ := bind_eq_ok.1 h
  obtain rfl := Except.ok.inj h
  rfl

/-- A statement that grants a request has evaluated everything exactly if all its operators have evaluators. -/
theorem Grants.allEvaluated_iff {doc : PolicyDocument} {stmt : PolicyStatement}
    (h : Grants fmt print args c doc stmts stmt c') :
    AllEvaluated fmt print args c' stmt.condition ↔ AllSupported stmt.condition := by
  obtain ⟨-, compiled, hcompiled, hgranting⟩ := h
  obtain ⟨c'', hcond⟩ := hgranting.conditions
  rw [compileStatement_condition hcompiled] at hcond
  constructor
  · intro hall oc hoc hne
    obtain ⟨kv, hkv⟩ := exists_mem_of_ne_nil oc.2 hne
    exact (hall oc hoc kv hkv).1
  · intro hall oc hoc kv hkv
    have hsome := hall oc hoc (ne_nil_of_mem hkv)
    obtain ⟨evaluator, hev⟩ := isSome_iff_exists.1 hsome
    exact ⟨hsome, evaluated_of_true hcond hoc hev hkv⟩

/-- **What an `Allow` rests on.** A statement whose action, resource and principal match grants the request; one in
which every condition came out true exists exactly if one exists whose operators all have evaluators. -/
theorem evaluatePolicy_allow {engine engine' : Engine} {bucketName : Str} {doc : PolicyDocument}
    (hset : setBucketPolicy engine bucketName doc = .ok engine') {stmts : List CompiledStatement}
    (hstmts : engine' bucketName = some stmts) {history : List (Evaluation F O)}
    (hrun : runEvaluations fmt print history = some c)
    (hallow : (evaluatePolicy print (processConditions fmt print args) args engine' (some c) bucketName).2 = .allow) :
    (∃ stmt c', Grants fmt print args c doc stmts stmt c') ∧
    ((∃ stmt c', Grants fmt print args c doc stmts stmt c' ∧ AllEvaluated fmt print args c' stmt.condition) ↔
      ∃ stmt c', Grants fmt print args c doc stmts stmt c' ∧ AllSupported stmt.condition) := by
  obtain ⟨compiled, hcompiled, hengine⟩ := setBucketPolicy_ok hset
  obtain rfl : compiled = stmts := some.inj (hengine.symm.trans hstmts)
  obtain ⟨c₁, hrun₁, hvalid⟩ := runEvaluations_valid fmt print history
  obtain rfl : c₁ = c := some.inj (hrun₁.symm.trans hrun)
  constructor
  · rw [evaluatePolicy, hengine] at hallow
    obtain ⟨granting, c', hgranting⟩ := granting_of_allow hvalid hallow
    obtain ⟨stmt, hmem, hstmt⟩ := exists_compiled (compileStatements_ok hcompiled) hgranting.visits.mem
    exact ⟨stmt, c', hmem, granting, hstmt, hgranting⟩
  · constructor
    · rintro ⟨stmt, c', hgrants, hall⟩
      exact ⟨stmt, c', hgrants, hgrants.allEvaluated_iff.1 hall⟩
    · rintro ⟨stmt, c', hgrants, hall⟩
      exact ⟨stmt, c', hgrants, hgrants.allEvaluated_iff.2 hall⟩

/-- Reading for a user, by an operator. -/
def allowUser (operator : String) (name : Str) : PolicyDocument where
  version := ascii "2012-10-17"
  statement :=
    [{ effect := effectAllow
       action := [ascii "s3:*"]
       resource := some [ascii "b/*"]
       condition := userIs operator [name] }]

theorem evaluatePolicy_allow_user :
    ∃ engine' stmts, setBucketPolicy (fun _ => none) (ascii "b") (allowUser "StringEquals" (ascii "a")) = .ok engine' ∧
      engine' (ascii "b") = some stmts ∧ ∃ stmt c',
        Grants noFormats noPrinter requestOfA newNormalizedValueCache (allowUser "StringEquals" (ascii "a")) stmts
          stmt c' ∧ AllEvaluated noFormats noPrinter requestOfA c' stmt.condition := by
  have hok : ∃ engine' stmts,
      setBucketPolicy (fun _ => none) (ascii "b") (allowUser "StringEquals" (ascii "a")) = .ok engine' ∧
        engine' (ascii "b") = some stmts ∧
        (evaluatePolicy noPrinter (processConditions noFormats noPrinter requestOfA) requestOfA engine'
          (some newNormalizedValueCache) (ascii "b")).2 = .allow :=
    ⟨_, _, setBucketPolicy_eq rfl rfl, rfl, by decide +kernel⟩
  obtain ⟨engine', stmts, hset, hstmts, hallow⟩ := hok
  have hrun : runEvaluations noFormats noPrinter [] = some newNormalizedValueCache := rfl
  obtain ⟨⟨stmt, c', hgrants⟩, hiff⟩ := evaluatePolicy_allow hset hstmts hrun hallow
  refine ⟨engine', stmts, hset, hstmts, hiff.2 ⟨stmt, c', hgrants, ?_⟩⟩
  obtain rfl := List.mem_singleton.1 hgrants.1
  refine forall_mem_singleton.2 ?_
  decide +kernel

/-- An accepted policy allows a request for another user, because its operator is skipped. -/
theorem evaluatePolicy_skipped_operator :
    ∃ engine' stmts,
      setBucketPolicy (fun _ => none) (ascii "b") (allowUser "StringEqualsIgnoreCase" (ascii "c")) = .ok engine' ∧
      engine' (ascii "b") = some stmts ∧
      (evaluatePolicy noPrinter (processConditions noFormats noPrinter requestOfA) requestOfA engine'
        (some newNormalizedValueCache) (ascii "b")).2 = .allow ∧
      ¬ ∃ stmt c', Grants noFormats noPrinter requestOfA newNormalizedValueCache
        (allowUser "StringEqualsIgnoreCase" (ascii "c")) stmts stmt c' ∧
          AllEvaluated noFormats noPrinter requestOfA c' stmt.condition := by
  refine ⟨_, _, setBucketPolicy_eq rfl rfl, rfl, by decide +kernel, ?_⟩
  rintro ⟨stmt, c', hgrants, hall⟩
  obtain rfl := List.mem_singleton.1 hgrants.1
  have hsome := (hall _ mem_cons_self _ mem_cons_self).1
  have hnone : getConditionEvaluator (ascii "StringEqualsIgnoreCase") = none := by decide +kernel
  rw [hnone] at hsome
  cases hsome

end S3.PolicyEngine
