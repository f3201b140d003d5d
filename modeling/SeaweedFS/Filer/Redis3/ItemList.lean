import SeaweedFS.Lib.SortedSet
import SeaweedFS.Util.Strings

/-!
# The names of a directory in batches

`ItemList` keeps the names of a directory in sorted sets of bounded size. A skip list has an element per set, under the
key by which the set is found. Here the skip list is the list of its elements, and the sorted sets are sets; an id that
is drawn for a new element is an argument of the operation.
-/

namespace Filer.Redis3

open Lib Util

/-- `SkipListElementReference`: the key and the id of an element. -/
abbrev Reference := Str × Nat

/-- `ItemList`. -/
structure ItemList where
  skipList : List Reference
  sets : Nat → SortedSet Str
  batchSize : Nat

/-- `newItemList`. -/
def newItemList (batchSize : Nat) : ItemList := ⟨[], fun _ => .empty, batchSize⟩

namespace ItemList

/-! ## The skip list -/

/-- `FindGreaterOrEqual`. -/
def findGreaterOrEqual (nl : ItemList) (key : Str) : Option Reference :=
  nl.skipList.find? fun e => ¬ e.1 < key

/-- `GetLargestNodeReference`. -/
def largestNode (nl : ItemList) : Option Reference := nl.skipList.getLast?

/-- The `Prev` of the element with a key. -/
def prev (nl : ItemList) (key : Str) : Option Reference :=
  (nl.skipList.takeWhile fun e => e.1 < key).getLast?

/-- The element before the one that is found, or the largest one. -/
def prevOf (nl : ItemList) : Option Reference → Option Reference
  | some nextNode => nl.prev nextNode.1
  | none => nl.largestNode

/-- `InsertByKey`: behind the elements whose keys are not greater. -/
def insertByKey (nl : ItemList) (key : Str) (id : Nat) : ItemList :=
  { nl with skipList := nl.skipList.filter (¬ key < ·.1) ++ (key, id) :: nl.skipList.filter (key < ·.1) }

/-- `DeleteByKey`, without the id it returns: one element is removed. -/
def deleteByKey (nl : ItemList) (key : Str) : ItemList :=
  { nl with skipList := nl.skipList.eraseP fun e => e.1 = key }

/-! ## The sorted sets -/

/-- A set is replaced. -/
def setNode (nl : ItemList) (id : Nat) (names : SortedSet Str) : ItemList :=
  { nl with sets := fun id' => if id' = id then names else nl.sets id' }

/-- `NodeSize`. -/
def nodeSize (nl : ItemList) (id : Nat) : Nat := (nl.sets id).toList.length

/-- `NodeInnerPosition`. -/
def nodeInnerPosition (nl : ItemList) (id : Nat) (name : Str) : Nat :=
  ((nl.sets id).filter fun n => n < name).toList.length

/-- `NodeMin`. -/
def nodeMin (nl : ItemList) (id : Nat) : Str := (nl.sets id).toList.headD []

/-- `NodeAddMember`. -/
def nodeAddMember (nl : ItemList) (id : Nat) (names : List Str) : ItemList :=
  nl.setNode id ((nl.sets id).addAll names)

/-- `NodeDeleteMember`. -/
def nodeDeleteMember (nl : ItemList) (id : Nat) (name : Str) : ItemList := nl.setNode id ((nl.sets id).erase name)

/-- `NodeDelete`. -/
def nodeDelete (nl : ItemList) (id : Nat) : ItemList := nl.setNode id .empty

/-- `NodeRangeBeforeExclusive`. -/
def nodeRangeBeforeExclusive (nl : ItemList) (id : Nat) (stopAt : Str) : List Str :=
  if stopAt = [] then (nl.sets id).toList else ((nl.sets id).filter fun n => n < stopAt).toList

/-- `NodeRangeAfterExclusive`. -/
def nodeRangeAfterExclusive (nl : ItemList) (id : Nat) (startFrom : Str) : List Str :=
  if startFrom = [] then (nl.sets id).toList else ((nl.sets id).filter fun n => startFrom < n).toList

/-- `NodeDeleteBeforeExclusive`. -/
def nodeDeleteBeforeExclusive (nl : ItemList) (id : Nat) (stopAt : Str) : ItemList :=
  if stopAt = [] then nl.nodeDelete id else nl.setNode id ((nl.sets id).filter fun n => ¬ n < stopAt)

/-- `NodeDeleteAfterExclusive`. -/
def nodeDeleteAfterExclusive (nl : ItemList) (id : Nat) (startFrom : Str) : ItemList :=
  if startFrom = [] then nl.nodeDelete id else nl.setNode id ((nl.sets id).filter fun n => ¬ startFrom < n)

/-- `ItemAdd`; `drawn` is the id that is drawn if none is known. -/
def itemAdd (nl : ItemList) (lookupKey : Str) (idIfKnown : Nat) (names : List Str) (drawn : Nat) : ItemList :=
  let id := if idIfKnown = 0 then drawn else idIfKnown
  (nl.insertByKey lookupKey id).nodeAddMember id names

/-! ## The operations -/

/-- The part of `WriteName` for a full set. -/
def splitNode (nl : ItemList) (prevNode : Reference) (name : Str) (drawn : Nat) : ItemList :=
  let x := nl.nodeInnerPosition prevNode.2 name
  let y := nl.nodeSize prevNode.2 - x
  if x = 0 ∨ y = 0 then nl.itemAdd name 0 [name] drawn
  else if x ≤ y then
    -- the names before `name` go to a new set
    let namesToX := nl.nodeRangeBeforeExclusive prevNode.2 name ++ [name]
    let nl := nl.deleteByKey prevNode.1
    let nl := nl.itemAdd (namesToX.headD []) 0 namesToX drawn
    let nl := nl.nodeDeleteBeforeExclusive prevNode.2 name
    nl.itemAdd name prevNode.2 [] drawn
  else
    -- the names after `name` go to a new set
    let namesToY := nl.nodeRangeAfterExclusive prevNode.2 name ++ [name]
    let nl := nl.itemAdd name 0 namesToY drawn
    nl.nodeDeleteAfterExclusive prevNode.2 name

/-- `WriteName`. -/
def writeName (nl : ItemList) (name : Str) (drawn : Nat) : ItemList :=
  let nextNode := nl.findGreaterOrEqual name
  if nextNode.any fun n => n.1 = name then nl
  else
    match nl.prevOf nextNode, nextNode with
    | some prevNode, _ =>
      if name ∈ nl.sets prevNode.2 then nl
      else if nl.nodeSize prevNode.2 < nl.batchSize then nl.nodeAddMember prevNode.2 [name]
      else nl.splitNode prevNode name drawn
    | none, some nextNode =>
      if nl.nodeSize nextNode.2 < nl.batchSize then
        (nl.deleteByKey nextNode.1).itemAdd name nextNode.2 [name] drawn
      else nl.itemAdd name 0 [name] drawn
    | none, none => nl.itemAdd name 0 [name] drawn

/-- The part of `DeleteName` after a name was found in a set that has another key. -/
def shrinkNode (nl : ItemList) (prevNode : Reference) (nextNode : Option Reference) (name : Str) : ItemList :=
  let nl := nl.nodeDeleteMember prevNode.2 name
  let prevSize := nl.nodeSize prevNode.2
  if prevSize = 0 then nl.deleteByKey prevNode.1
  else
    match nextNode with
    | none => nl
    | some nextNode =>
      let nextSize := nl.nodeSize nextNode.2
      if nextSize > 0 ∧ prevSize + nextSize < nl.batchSize then
        let nl := nl.deleteByKey nextNode.1
        let nl := nl.nodeAddMember prevNode.2 (nl.nodeRangeBeforeExclusive nextNode.2 [])
        nl.nodeDelete nextNode.2
      else nl

/-- `DeleteName`. -/
def deleteName (nl : ItemList) (name : Str) (drawn : Nat) : ItemList :=
  let nextNode := nl.findGreaterOrEqual name
  match nextNode.filter fun n => n.1 = name with
  | some nextNode =>
    let nl := (nl.deleteByKey nextNode.1).nodeDeleteMember nextNode.2 name
    let minName := nl.nodeMin nextNode.2
    if minName = [] then nl.nodeDelete nextNode.2 else nl.itemAdd minName nextNode.2 [] drawn
  | none =>
    match nl.prevOf nextNode with
    | none => nl
    | some prevNode => if name ∈ nl.sets prevNode.2 then nl.shrinkNode prevNode nextNode name else nl

/-- The names that `NodeScanInclusiveAfter` visits. -/
def nodeScanInclusiveAfter (nl : ItemList) (id : Nat) (startFrom : Str) : List Str :=
  if startFrom = [] then (nl.sets id).toList else ((nl.sets id).filter fun n => ¬ n < startFrom).toList

/-- The names that `ListNames` visits, if the visitor never stops. -/
def listNames (nl : ItemList) (startFrom : Str) : List Str :=
  let nextNodes := nl.skipList.dropWhile fun e => e.1 < startFrom
  let prevNode := if nextNodes = [] then nl.largestNode else none
  (prevNode.toList ++ nextNodes).flatMap fun e => nl.nodeScanInclusiveAfter e.2 startFrom

/-- Whether `WriteName` moves the front of a full set to a new one. -/
def splitsFront (nl : ItemList) (name : Str) : Bool :=
  let nextNode := nl.findGreaterOrEqual name
  match nl.prevOf nextNode with
  | none => false
  | some prevNode =>
    let x := nl.nodeInnerPosition prevNode.2 name
    let y := nl.nodeSize prevNode.2 - x
    !(nextNode.any fun n => n.1 = name) && decide (name ∉ nl.sets prevNode.2) &&
      decide (nl.batchSize ≤ nl.nodeSize prevNode.2) && decide (x ≠ 0 ∧ y ≠ 0 ∧ x ≤ y)

/-! ## Runs -/

/-- A call, with the id that is drawn if the call needs a new one. -/
inductive Op
  | write (name : Str) (drawn : Nat)
  | delete (name : Str) (drawn : Nat)

/-- The name of a call. -/
def Op.name : Op → Str
  | .write name _ => name
  | .delete name _ => name

def apply (nl : ItemList) : Op → ItemList
  | .write name drawn => nl.writeName name drawn
  | .delete name drawn => nl.deleteName name drawn

/-- The set of the names that were written and not deleted since. -/
def specApply (names : SortedSet Str) : Op → SortedSet Str
  | .write name _ => names.add name
  | .delete name _ => names.erase name

end ItemList

end Filer.Redis3
