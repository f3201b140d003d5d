import SeaweedFS.Lib.Runs

/-!
# `weed/mq/offset`: the offsets of a partition

A `PartitionOffsetManager` gives out offsets from memory and saves the last one from time to time. A process
that is started again goes on behind the saved one: `FilerOffsetStorage` knows of no other.
-/

namespace Mq

/-- `PartitionOffsetManager`. -/
structure PartitionOffsetManager where
  nextOffset : Int64
  lastCheckpointedOffset : Int64
deriving DecidableEq

/-- `recover`, from what `LoadCheckpoint` and `GetHighestOffset` return; `none` is an error. -/
def recover (loadCheckpoint getHighestOffset : Option Int64) : PartitionOffsetManager :=
  let checkpointOffset := (loadCheckpoint.filter (0 ≤ ·)).getD (-1)
  let highestOffset := (getHighestOffset.filter (0 ≤ ·)).getD (-1)
  if 0 ≤ checkpointOffset ∧ 0 ≤ highestOffset then
    if checkpointOffset < highestOffset then ⟨highestOffset + 1, highestOffset⟩
    else ⟨checkpointOffset + 1, checkpointOffset⟩
  else if 0 ≤ checkpointOffset then ⟨checkpointOffset + 1, checkpointOffset⟩
  else if 0 ≤ highestOffset then ⟨highestOffset + 1, highestOffset⟩
  else ⟨0, -1⟩

/-- A partition: the saved checkpoint, the running manager, the checkpoint about to be saved, and the offsets given
out. -/
structure Partition where
  stored : Option Int64
  manager : PartitionOffsetManager
  saving : Option Int64
  assigned : List Int

/-- A manager is started; `GetHighestOffset` of the filer storage is `LoadCheckpoint`. -/
def Partition.start (stored : Option Int64) (assigned : List Int) : Partition :=
  ⟨stored, recover stored stored, none, assigned⟩

/-- What can happen to a partition. `performCheckpointIfChanged` reads the last offset and saves it later. -/
inductive Event
  | assignOffset
  | assignOffsets (count : Int64)
  | readCheckpoint
  | saveCheckpoint
  | crash
deriving DecidableEq

/-- The partition after an event. -/
def Partition.step (p : Partition) : Event → Partition
  | .assignOffset =>
    { p with
      manager := { p.manager with nextOffset := p.manager.nextOffset + 1 }
      assigned := p.assigned ++ [p.manager.nextOffset.toInt] }
  | .assignOffsets count =>
    { p with
      manager := { p.manager with nextOffset := p.manager.nextOffset + count }
      assigned := p.assigned ++ (List.range count.toInt.toNat).map fun k : Nat => p.manager.nextOffset.toInt + k }
  | .readCheckpoint =>
    let currentOffset := p.manager.nextOffset - 1
    if currentOffset < 0 ∨ currentOffset = p.manager.lastCheckpointedOffset then p
    else { p with saving := some currentOffset }
  | .saveCheckpoint =>
    match p.saving with
    | none => p
    | some offset =>
      { p with
        stored := some offset
        manager := { p.manager with lastCheckpointedOffset := offset }
        saving := none }
  | .crash => .start p.stored p.assigned

end Mq
