import SeaweedFS.Lib.LruCache
import SeaweedFS.S3.PolicyEngine.Engine

/-!
# Conditions

The condition operators and their evaluation. The expected values go through a cache of the process, keyed by the type
of the value and its printed form. A step that follows a missing link of the cache's list would end the process; it
has no result here.
-/

namespace S3.PolicyEngine

open Lib Util

/-! ## Normalised values -/

/-- An expected value as it reaches an evaluator: a list of strings, or another value with its type's name, its
printed form and the strings it is normalised to. -/
inductive ConditionValue
  | strings (values : List Str)
  | other (typeName printed : Str) (values : List Str)
    (apart : ¬ ascii "[]string:" <+: typeName ++ 0x3a :: printed)

/-- `fmt.Sprint` of a list of strings. -/
def sprint (values : List Str) : Str := 0x5b :: List.intercalate [0x20] values ++ [0x5d]

/-- The key of a value in the cache. -/
def ConditionValue.cacheKey : ConditionValue → Str
  | .strings values => ascii "[]string:" ++ sprint values
  | .other typeName printed _ _ => typeName ++ 0x3a :: printed

/-- `normalizeToStringSliceWithError`, with the fallback of its caller. -/
def ConditionValue.normalize : ConditionValue → List Str
  | .strings values => values
  | .other _ _ values _ => values

/-- `NormalizedValueCache`. -/
abbrev NormalizedValueCache := LruCache Str (List Str)

/-- The cache of a fresh process. -/
def newNormalizedValueCache : NormalizedValueCache := .empty 1000

/-- `getCachedNormalizedValues`. -/
def getCachedNormalizedValues (c : NormalizedValueCache) (value : ConditionValue) :
    Option (NormalizedValueCache × List Str) := do
  let (c, cached) ← c.get value.cacheKey
  match cached with
  | some values => return (c, values)
  | none =>
    let c ← c.set value.cacheKey value.normalize
    return (c, value.normalize)

/-! ## Operators -/

/-- `ConditionEvaluator`. -/
inductive ConditionEvaluator
  | stringEquals | stringNotEquals | stringLike | stringNotLike
  | numericEquals | numericNotEquals | numericLessThan | numericLessThanEquals | numericGreaterThan
  | numericGreaterThanEquals
  | dateEquals | dateNotEquals | dateLessThan | dateLessThanEquals | dateGreaterThan | dateGreaterThanEquals
  | bool | ipAddress | notIpAddress | arnEquals | arnLike | null
deriving DecidableEq

/-- The cases of `GetConditionEvaluator`. -/
def conditionEvaluators : List (String × ConditionEvaluator) :=
  [("StringEquals", .stringEquals), ("StringNotEquals", .stringNotEquals), ("StringLike", .stringLike),
    ("StringNotLike", .stringNotLike), ("NumericEquals", .numericEquals), ("NumericNotEquals", .numericNotEquals),
    ("NumericLessThan", .numericLessThan), ("NumericLessThanEquals", .numericLessThanEquals),
    ("NumericGreaterThan", .numericGreaterThan), ("NumericGreaterThanEquals", .numericGreaterThanEquals),
    ("DateEquals", .dateEquals), ("DateNotEquals", .dateNotEquals), ("DateLessThan", .dateLessThan),
    ("DateLessThanEquals", .dateLessThanEquals), ("DateGreaterThan", .dateGreaterThan),
    ("DateGreaterThanEquals", .dateGreaterThanEquals), ("Bool", .bool), ("IpAddress", .ipAddress),
    ("NotIpAddress", .notIpAddress), ("ArnEquals", .arnEquals), ("ArnLike", .arnLike), ("Null", .null)]

/-- `GetConditionEvaluator`. -/
def getConditionEvaluator (operator : Str) : Option ConditionEvaluator :=
  (conditionEvaluators.find? fun e => ascii e.1 = operator).map Prod.snd

/-- The parsers of the values and how they compare. -/
structure Formats where
  Num : Type
  parseFloat : Str → Option Num
  numEq : Num → Num → Bool
  numLt : Num → Num → Bool
  numLe : Num → Num → Bool
  Time : Type
  parseTime : Str → Option Time
  timeEqual : Time → Time → Bool
  timeBefore : Time → Time → Bool
  Ip : Type
  parseIP : Str → Option Ip
  ipEqual : Ip → Ip → Bool
  Net : Type
  parseCIDR : Str → Option Net
  contains : Net → Ip → Bool
  toLower : Str → Str

/-- Some pair of values that both parse compares. -/
def anyPair {α : Type} (parse : Str → Option α) (compare : α → α → Bool) (expected context : List Str) : Bool :=
  expected.any fun e =>
    match parse e with
    | none => false
    | some e => context.any fun c =>
      match parse c with
      | none => false
      | some c => compare e c

/-- Some context value is an expected address or in an expected network. -/
def anyAddress (fmt : Formats) (expected context : List Str) : Bool :=
  expected.any fun e =>
    match fmt.parseCIDR e with
    | some net => context.any fun c =>
      match fmt.parseIP c with
      | none => false
      | some ip => fmt.contains net ip
    | none =>
      match fmt.parseIP e with
      | none => false
      | some expectedIP => context.any fun c =>
        match fmt.parseIP c with
        | none => false
        | some ip => fmt.ipEqual ip expectedIP

/-- What the operators say about the normalised values and the values of the request. -/
def ConditionEvaluator.holds (fmt : Formats) (expected context : List Str) : ConditionEvaluator → Bool
  | .stringEquals | .arnEquals => anyPair some (· == ·) expected context
  | .stringNotEquals => !anyPair some (· == ·) expected context
  | .stringLike | .arnLike => anyPair some matchesWildcard expected context
  | .stringNotLike => !anyPair some matchesWildcard expected context
  | .numericEquals => anyPair fmt.parseFloat fmt.numEq expected context
  | .numericNotEquals => !anyPair fmt.parseFloat fmt.numEq expected context
  | .numericLessThan => anyPair fmt.parseFloat (fun e c => fmt.numLt c e) expected context
  | .numericLessThanEquals => anyPair fmt.parseFloat (fun e c => fmt.numLe c e) expected context
  | .numericGreaterThan => anyPair fmt.parseFloat fmt.numLt expected context
  | .numericGreaterThanEquals => anyPair fmt.parseFloat fmt.numLe expected context
  | .dateEquals => anyPair fmt.parseTime fmt.timeEqual expected context
  | .dateNotEquals => !anyPair fmt.parseTime fmt.timeEqual expected context
  | .dateLessThan => anyPair fmt.parseTime (fun e c => fmt.timeBefore c e) expected context
  | .dateLessThanEquals =>
    anyPair fmt.parseTime (fun e c => fmt.timeBefore c e || fmt.timeEqual c e) expected context
  | .dateGreaterThan => anyPair fmt.parseTime fmt.timeBefore expected context
  | .dateGreaterThanEquals =>
    anyPair fmt.parseTime (fun e c => fmt.timeBefore e c || fmt.timeEqual c e) expected context
  | .bool => anyPair some (fun e c => fmt.toLower e == fmt.toLower c) expected context
  | .ipAddress => anyAddress fmt expected context
  | .notIpAddress => !anyAddress fmt expected context
  | .null => expected.any fun e =>
    let expectedBool := fmt.toLower e == ascii "true"
    let contextExists := decide (context.length > 0)
    (expectedBool && !contextExists) || (!expectedBool && contextExists)

/-- `Evaluate`. -/
def ConditionEvaluator.evaluate (fmt : Formats) (evaluator : ConditionEvaluator) (c : NormalizedValueCache)
    (value : ConditionValue) (context : List Str) : Option (NormalizedValueCache × Bool) := do
  let (c, expected) ← getCachedNormalizedValues c value
  return (c, evaluator.holds fmt expected context)

/-! ## Evaluation -/

/-- `getConditionContextValue`. -/
def getConditionContextValue (key : Str) (contextValues : Str → Option (List Str))
    (objectEntry : Option (Str → Option Str)) : List Str :=
  if (ascii "s3:ExistingObjectTag/").isPrefixOf key then
    let tagKey := key.drop 21
    if tagKey = [] then []
    else
      match objectEntry.bind fun entry => entry (ascii "X-Amz-Tagging-" ++ tagKey) with
      | some tagValue => [tagValue]
      | none => []
  else (contextValues key).getD []

section

variable {F O : Type} (fmt : Formats) (print : Printer F O) (args : PolicyEvaluationArgs F O)

/-- The expected values of a key, with the variables substituted. -/
def expectedValues (values : List Str) : List Str := values.map (substituteVariables print args.conditions args.claims)

/-- The values of the request for a key. -/
def contextVals (key : Str) : List Str := getConditionContextValue key args.conditions args.objectEntry

/-- The inner loop of `EvaluateConditions`. -/
def evaluateKeys (evaluator : ConditionEvaluator) :
    NormalizedValueCache → List (Str × List Str) → Option (NormalizedValueCache × Bool)
  | c, [] => some (c, true)
  | c, (key, values) :: rest => do
    let (c, ok) ← evaluator.evaluate fmt c (.strings (expectedValues print args values)) (contextVals args key)
    if ok then evaluateKeys evaluator c rest else return (c, false)

/-- `EvaluateConditions`. -/
def evaluateConditions : NormalizedValueCache → PolicyConditions → Option (NormalizedValueCache × Bool)
  | c, [] => some (c, true)
  | c, (operator, conditionMap) :: rest =>
    match getConditionEvaluator operator with
    -- an operator without an evaluator is logged and skipped
    | none => evaluateConditions c rest
    | some evaluator => do
      let (c, ok) ← evaluateKeys fmt print args evaluator c conditionMap
      if ok then evaluateConditions c rest else return (c, false)

/-- The evaluation of conditions in a process, whose state is lost with it. -/
def processConditions (c : Option NormalizedValueCache) (conditions : PolicyConditions) :
    Option NormalizedValueCache × Bool :=
  match c.bind fun c => evaluateConditions fmt print args c conditions with
  | some (c, ok) => (some c, ok)
  | none => (none, false)

/-- The lists of expected values that the evaluation of conditions may look up. -/
def valueLists : PolicyConditions → List (List Str)
  | [] => []
  | (operator, conditionMap) :: rest =>
    match getConditionEvaluator operator with
    | none => valueLists rest
    | some _ => conditionMap.map (fun kv => expectedValues print args kv.2) ++ valueLists rest

/-- The conditions of an operator without a cache. -/
def keysHold (evaluator : ConditionEvaluator) (conditionMap : List (Str × List Str)) : Bool :=
  conditionMap.all fun kv => evaluator.holds fmt (expectedValues print args kv.2) (contextVals args kv.1)

/-- The conditions without a cache. -/
def conditionsHold : PolicyConditions → Bool
  | [] => true
  | (operator, conditionMap) :: rest =>
    match getConditionEvaluator operator with
    | none => conditionsHold rest
    | some evaluator => keysHold fmt print args evaluator conditionMap && conditionsHold rest

end

/-! ## A process -/

/-- An evaluation through the cache: of the conditions of a bucket policy, or of a single value for the table
policies. -/
inductive Evaluation (F O : Type)
  | policy (args : PolicyEvaluationArgs F O) (conditions : PolicyConditions)
  | single (evaluator : ConditionEvaluator) (value : ConditionValue) (context : List Str)

/-- The cache after an evaluation. -/
def Evaluation.run {F O : Type} (fmt : Formats) (print : Printer F O) (c : NormalizedValueCache) :
    Evaluation F O → Option NormalizedValueCache
  | .policy args conditions => (evaluateConditions fmt print args c conditions).map Prod.fst
  | .single evaluator value context => (evaluator.evaluate fmt c value context).map Prod.fst

/-- The cache of a process after a history of evaluations. -/
def runEvaluations {F O : Type} (fmt : Formats) (print : Printer F O) (history : List (Evaluation F O)) :
    Option NormalizedValueCache :=
  history.foldlM (Evaluation.run fmt print) newNormalizedValueCache

end S3.PolicyEngine
