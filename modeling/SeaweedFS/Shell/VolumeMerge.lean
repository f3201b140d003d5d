import SeaweedFS.Storage.Needle

/-!
# `weed/shell/command_volume_merge.go`: merging the replicas of a volume

`mergeNeedleStreams` takes the oldest needle of all streams from a heap and passes it on, unless another stream
has had a needle of that id in the same time window. `Popped` and `consumed` are what happens when streams end
without an error and `consume` accepts what it gets; `Step` is the loop together with the goroutines.
-/

namespace Shell

open Storage

/-- `mergeDeduplicationWindowNs`. -/
def mergeDeduplicationWindowNs : UInt64 := 5000000000

/-- `needleTimestamp`. -/
def needleTimestamp (n : Needle) : UInt64 :=
  if n.appendAtNs ≠ 0 then n.appendAtNs
  else if n.lastModified ≠ 0 then n.lastModified * 1000000000
  else 0

/-- `needleMergeItem`: the index of a stream and its needle. -/
abbrev Item := Nat × Needle

/-- The time of an item. -/
def Item.timestamp (item : Item) : UInt64 := needleTimestamp item.2

/-- `needleMergeHeap.Less`. -/
def less (a b : Needle) : Prop :=
  if needleTimestamp a = needleTimestamp b then a.id < b.id else needleTimestamp a < needleTimestamp b

/-- The items in an order in which the heap can give them: each time one that no other is less than. -/
inductive Popped : List (List Needle) → List Item → Prop
  | done {streams : List (List Needle)} (h : ∀ s ∈ streams, s = []) : Popped streams []
  | pop {streams : List (List Needle)} {i : Nat} {n : Needle} {rest : List Needle} {items : List Item}
      (hi : streams[i]? = some (n :: rest)) (hleast : ∀ m t, m :: t ∈ streams → ¬ less m n)
      (h : Popped (streams.set i rest) items) : Popped streams ((i, n) :: items)

/-- `seenAtTimestamp`, and `windowStartTimestamp` once it is set. -/
structure Window where
  seen : NeedleId → Option Nat
  start : Option UInt64

/-- The window that an item falls into. -/
def Window.moveTo (w : Window) (ts : UInt64) : Window :=
  match w.start with
  | none => { w with start := some ts }
  | some start => if ts > start + mergeDeduplicationWindowNs then ⟨fun _ => none, some ts⟩ else w

/-- What is passed to `consume` of the items to come. -/
def consumed (w : Window) : List Item → List Item
  | [] => []
  | item :: items =>
    let w := w.moveTo item.timestamp
    if (w.seen item.2.id).any (· ≠ item.1) then consumed w items
    else item :: consumed { w with seen := Function.update w.seen item.2.id (some item.1) } items

/-- What `mergeNeedleStreams` passes to `consume`. -/
def mergeNeedleStreams (items : List Item) : List Item := consumed ⟨fun _ => none, none⟩ items

/-! ## The goroutines -/

/-- A `tailNeedleStream` and its goroutine: what is still to be delivered and then returned, the channel, and `err`
with whether it was set. -/
structure TailStream (ε : Type) where
  pending : List Needle
  result : Option ε
  ch : List Needle := []
  closed : Bool := false
  err : Option ε := none
  isSet : Bool := false

/-- `Next`: a needle, or the end; it blocks (`none`) on an open channel that is empty. -/
def TailStream.next? {ε : Type} (s : TailStream ε) : Option (Option Needle × TailStream ε) :=
  match s.ch with
  | n :: rest => some (some n, { s with ch := rest })
  | [] => if s.closed then some (none, s) else none

/-- Where the merging goroutine is: at a stream's first needle, at the heap, at a stream's next needle or error, or
done. -/
inductive Phase (ε : Type)
  | first (i : Nat)
  | loop
  | refill (i : Nat)
  | errs (i : Nat)
  | returned (err : Option ε)

/-- The goroutines of a merge. -/
structure Merge (ε : Type) where
  streams : List (TailStream ε)
  heap : List Item := []
  window : Window := ⟨fun _ => none, none⟩
  phase : Phase ε := .first 0

/-- A step of one goroutine. -/
inductive Step {ε : Type} (consume : Item → Option ε) : Merge ε → Merge ε → Prop
  | send {m i s n rest} (hi : m.streams[i]? = some s) (hpending : s.pending = n :: rest) (hroom : s.ch.length < 32) :
      Step consume m { m with streams := m.streams.set i { s with pending := rest, ch := s.ch ++ [n] } }
  | close {m i s} (hi : m.streams[i]? = some s) (hpending : s.pending = []) :
      Step consume m { m with streams := m.streams.set i { s with closed := true } }
  | setErr {m i s} (hi : m.streams[i]? = some s) (hclosed : s.closed = true) :
      Step consume m { m with streams := m.streams.set i { s with err := s.result, isSet := true } }
  | first {m i s n s'} (hphase : m.phase = .first i) (hi : m.streams[i]? = some s) (hnext : s.next? = some (n, s')) :
      Step consume m { m with
        streams := m.streams.set i s', heap := m.heap ++ n.toList.map fun n => (i, n), phase := .first (i + 1) }
  | refill {m i s n s'} (hphase : m.phase = .refill i) (hi : m.streams[i]? = some s)
      (hnext : s.next? = some (n, s')) :
      Step consume m { m with
        streams := m.streams.set i s', heap := m.heap ++ n.toList.map fun n => (i, n), phase := .loop }
  | start {m} (hphase : m.phase = .first m.streams.length) : Step consume m { m with phase := .loop }
  | skip {m item} (hphase : m.phase = .loop) (hitem : item ∈ m.heap) (hleast : ∀ x ∈ m.heap, ¬ less x.2 item.2)
      (hseen : ((m.window.moveTo item.timestamp).seen item.2.id).any (· ≠ item.1) = true) :
      Step consume m { m with
        heap := m.heap.erase item, window := m.window.moveTo item.timestamp, phase := .refill item.1 }
  | consume {m item} (hphase : m.phase = .loop) (hitem : item ∈ m.heap) (hleast : ∀ x ∈ m.heap, ¬ less x.2 item.2)
      (hseen : ((m.window.moveTo item.timestamp).seen item.2.id).any (· ≠ item.1) = false) :
      Step consume m { m with
        heap := m.heap.erase item
        window := { m.window.moveTo item.timestamp with
          seen := Function.update (m.window.moveTo item.timestamp).seen item.2.id (some item.1) }
        phase := match consume item with
          | some err => .returned (some err)
          | none => .refill item.1 }
  | finish {m} (hphase : m.phase = .loop) (hheap : m.heap = []) : Step consume m { m with phase := .errs 0 }
  | err {m i s} (hphase : m.phase = .errs i) (hi : m.streams[i]? = some s) :
      Step consume m { m with phase := match s.err with
        | some err => .returned (some err)
        | none => .errs (i + 1) }
  | done {m} (hphase : m.phase = .errs m.streams.length) : Step consume m { m with phase := .returned none }

end Shell
