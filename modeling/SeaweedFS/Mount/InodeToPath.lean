import SeaweedFS.Lib.SortedMap
import SeaweedFS.Util.Strings

/-!
# `weed/mount/inode_to_path.go`: inode numbers and paths

A mount knows an entry of the file system by its inode number, and maps numbers to paths and paths to
numbers. Two probe loops look for a free number: the one of `lookup` returns the number it tested last
(`nextFree`), the one of `allocateInode` the number behind it (`allocateLoop`). Numbers do not wrap around.
-/

namespace Mount

open Lib Util Finset

/-- `InodeEntry`, without what is cached of a directory. -/
structure InodeEntry where
  paths : List Str
  nlookup : UInt64
  isDirectory : Bool
deriving DecidableEq

/-- `InodeToPath`. -/
structure InodeToPath where
  inode2path : SortedMap Nat InodeEntry
  path2inode : SortedMap Str Nat

namespace InodeToPath

/-- The inode numbers in use from `inode` on. -/
def usedFrom (m : SortedMap Nat InodeEntry) (inode : Nat) : Finset Nat :=
  (m.entries.map (·.1)).toFinset.filter (inode ≤ ·)

theorem card_usedFrom_le (m : SortedMap Nat InodeEntry) (inode : Nat) :
    (usedFrom m (inode + 1)).card ≤ (usedFrom m inode).card :=
  card_le_card (monotone_filter_right _ fun _ _ => Nat.le_of_succ_le)

theorem card_usedFrom_lt {m : SortedMap Nat InodeEntry} {inode : Nat} (h : (m.get inode).isSome) :
    (usedFrom m (inode + 1)).card < (usedFrom m inode).card := by
  obtain ⟨e, he⟩ := Option.isSome_iff_exists.1 h
  have hmem : inode ∈ usedFrom m inode :=
    mem_filter.2 ⟨by simpa using ⟨e, (m.mem_entries inode e).2 he⟩, le_rfl⟩
  refine card_lt_card ⟨monotone_filter_right _ fun _ _ => Nat.le_of_succ_le, fun hsub => ?_⟩
  exact absurd (mem_filter.1 (hsub hmem)).2 (Nat.not_succ_le_self inode)

/-- The loop of `Lookup`: it tests the number that it moves to. -/
def nextFree (m : SortedMap Nat InodeEntry) (inode : Nat) : Nat :=
  if (m.get inode).isSome then nextFree m (inode + 1) else inode
termination_by (usedFrom m inode).card
decreasing_by exact card_usedFrom_lt ‹_›

/-- The loop of `AllocateInode`: it tests a number and then moves on. -/
def allocateLoop (m : SortedMap Nat InodeEntry) (found : Bool) (inode : Nat) : Nat :=
  if found then allocateLoop m (m.get inode).isSome (inode + 1) else inode
termination_by ((usedFrom m inode).card, found.toNat)
decreasing_by
  subst ‹found = true›
  cases hget : (m.get inode).isSome with
  | true => exact Prod.Lex.left _ _ (card_usedFrom_lt hget)
  | false =>
    rcases (card_usedFrom_le m inode).lt_or_eq with h | h
    · exact Prod.Lex.left _ _ h
    · exact h ▸ Prod.Lex.right _ Nat.zero_lt_one

/-- `NewInodeToPath`. -/
def new (root : Str) : InodeToPath :=
  ⟨SortedMap.empty.insert 1 ⟨[root], 1, true⟩, SortedMap.empty.insert root 1⟩

/-- `AllocateInode`; `asInode` is `FullPath.AsInode`. -/
def allocateInode (asInode : Str → Int → Nat) (t : InodeToPath) (path : Str) (unixTime : Int) : Nat :=
  if path = ascii "/" then 1
  else
    let inode := asInode path unixTime
    allocateLoop t.inode2path (t.inode2path.get inode).isSome inode

/-- The number that `Lookup` gives a path. -/
def inodeFor (asInode : Str → Int → Nat) (t : InodeToPath) (path : Str) (unixTime : Int)
    (isHardlink : Bool) (possibleInode : Nat) : Nat :=
  match t.path2inode.get path with
  | some inode => inode
  | none =>
    let inode := if possibleInode = 0 then asInode path unixTime else possibleInode
    if isHardlink then inode else nextFree t.inode2path inode

/-- `Lookup`. -/
def lookup (asInode : Str → Int → Nat) (t : InodeToPath) (path : Str) (unixTime : Int)
    (isDirectory isHardlink : Bool) (possibleInode : Nat) (isLookup : Bool) : Nat × InodeToPath :=
  let inode := inodeFor asInode t path unixTime isHardlink possibleInode
  let entry := match t.inode2path.get inode with
    | some e => if isLookup then { e with nlookup := e.nlookup + 1 } else e
    | none => ⟨[path], if isLookup then 1 else 0, isDirectory⟩
  (inode, ⟨t.inode2path.insert inode entry, t.path2inode.insert path inode⟩)

/-- `GetPath`; `none` is `ENOENT`. -/
def getPath (t : InodeToPath) (inode : Nat) : Option Str := (t.inode2path.get inode).bind (·.paths.head?)

/-- `AddPath`. -/
def addPath (t : InodeToPath) (inode : Nat) (path : Str) : InodeToPath :=
  let entry := match t.inode2path.get inode with
    | some e => { e with paths := e.paths ++ [path], nlookup := e.nlookup + 1 }
    | none => ⟨[path], 1, false⟩
  ⟨t.inode2path.insert inode entry, t.path2inode.insert path inode⟩

/-- `removePathFromInode2Path` and the path's own entry. -/
def unregister (t : InodeToPath) (inode : Nat) (path : Str) : InodeToPath :=
  ⟨match t.inode2path.get inode with
    | some e => t.inode2path.insert inode { e with paths := e.paths.erase path }
    | none => t.inode2path, t.path2inode.erase path⟩

/-- `RemovePath`. -/
def removePath (t : InodeToPath) (path : Str) : InodeToPath :=
  match t.path2inode.get path with
  | some inode => t.unregister inode path
  | none => t

/-- `MovePath`. -/
def movePath (t : InodeToPath) (sourcePath targetPath : Str) : InodeToPath :=
  let t' := t.removePath targetPath
  match t.path2inode.get sourcePath with
  | none => t'
  | some sourceInode =>
    ⟨match t'.inode2path.get sourceInode with
      | some e => t'.inode2path.insert sourceInode
          { e with paths := e.paths.map fun p => if p = sourcePath then targetPath else p }
      | none => t'.inode2path,
      (t'.path2inode.erase sourcePath).insert targetPath sourceInode⟩

/-- `Forget`. -/
def forget (t : InodeToPath) (inode : Nat) (nlookup : UInt64) : InodeToPath :=
  match t.inode2path.get inode with
  | none => t
  | some e =>
    let left := if nlookup > e.nlookup then 0 else e.nlookup - nlookup
    if left = 0 then ⟨t.inode2path.erase inode, e.paths.foldl SortedMap.erase t.path2inode⟩
    else { t with inode2path := t.inode2path.insert inode { e with nlookup := left } }

/-- What the kernel can ask for. -/
inductive Call
  | lookup (path : Str) (unixTime : Int) (isDirectory isHardlink : Bool) (possibleInode : Nat) (isLookup : Bool)
  | addPath (inode : Nat) (path : Str)
  | removePath (path : Str)
  | movePath (sourcePath targetPath : Str)
  | forget (inode : Nat) (nlookup : UInt64)

/-- The maps after a call. -/
def apply (asInode : Str → Int → Nat) (t : InodeToPath) : Call → InodeToPath
  | .lookup path unixTime isDirectory isHardlink possibleInode isLookup =>
    (t.lookup asInode path unixTime isDirectory isHardlink possibleInode isLookup).2
  | .addPath inode path => t.addPath inode path
  | .removePath path => t.removePath path
  | .movePath sourcePath targetPath => t.movePath sourcePath targetPath
  | .forget inode nlookup => t.forget inode nlookup

end InodeToPath

end Mount
