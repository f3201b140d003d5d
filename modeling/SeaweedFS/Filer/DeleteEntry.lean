import SeaweedFS.Filer.FileChunk

/-!
# `weed/filer/filer_delete_entry.go`: deleting a file or a directory

`DeleteEntryMetaAndData` removes an entry, for a directory with all that is below it, and passes the chunks of
what it removes to `DeleteChunks`. Entries with one `HardLinkId` share their chunks, and their number is in the
key-value store under that id. The store does not fail, and no entry has a time to live. The metadata log and
the deletion of collections are left out.
-/

namespace Filer

/-- `HardLinkId`; empty if an entry is no hard link. -/
abbrev HardLinkId := List UInt8

/-- The entry of a file. -/
structure Entry where
  chunks : List FileChunk := []
  hardLinkId : HardLinkId := []
  hardLinkCounter : Int := 0
  mtime : Int := 0
deriving DecidableEq

/-- The entry of a directory, which is never a hard link. -/
structure DirEntry where
  chunks : List FileChunk := []
  mtime : Int := 0
deriving DecidableEq

/-- The entries of a directory in the order of their names, with what is below them. -/
inductive Listing where
  | nil
  | file (name : String) (entry : Entry) (rest : Listing)
  | dir (name : String) (entry : DirEntry) (children rest : Listing)

/-- What is stored under a `HardLinkId`: the shared attributes of the entries that have it. -/
structure HardLink where
  chunks : List FileChunk
  counter : Int

abbrev KvStore := HardLinkId → Option HardLink

/-- `PaginationSize`. -/
def paginationSize : Nat := 1024

/-- The settings of the filer, and the entries whose deletion in the remote storage fails. -/
structure FilerEnv where
  dirBucketsPath : List String
  canDropWholeBucket : Bool
  remoteFails : List String → Bool

/-- `IsBucket` of a directory. -/
def FilerEnv.isBucket (env : FilerEnv) (path : List String) : Bool :=
  path ≠ [] && path.dropLast = env.dirBucketsPath && (path.getLast?.bind (·.toList.head?)) ≠ some '.'

/-- The flags of a deletion. -/
structure DeleteOptions where
  isRecursive : Bool
  ignoreRecursiveError : Bool
  shouldDeleteChunks : Bool
  isFromOtherCluster : Bool
  ifNotModifiedAfter : Int := 0

inductive DeleteErr where
  | notFound
  | nonEmptyFolder (path : List String)
  | remote (path : List String)
deriving DecidableEq

/-! ## Hard links -/

/-- The attributes after one entry less. -/
def HardLink.unlink (link : HardLink) : Option HardLink :=
  if link.counter - 1 ≤ 0 then none else some { link with counter := link.counter - 1 }

/-- `DeleteHardLink`. -/
def deleteHardLink (kv : KvStore) (hardLinkId : HardLinkId) : KvStore :=
  match kv hardLinkId with
  | none => kv
  | some link => Function.update kv hardLinkId link.unlink

/-- `maybeReadHardLink`: an entry as it is read from the store. -/
def maybeReadHardLink (kv : KvStore) (entry : Entry) : Entry :=
  if entry.hardLinkId = [] then entry
  else
    match kv entry.hardLinkId with
    | none => entry
    | some link => { entry with chunks := link.chunks, hardLinkCounter := link.counter }

/-! ## Below a directory -/

namespace Listing

/-- The number of entries of the directory. -/
def length : Listing → Nat
  | nil => 0
  | file _ _ rest => rest.length + 1
  | dir _ _ _ rest => rest.length + 1

/-- All entries of the directory and below it. -/
def entries : Listing → List Entry
  | nil => []
  | file _ entry rest => entry :: rest.entries
  | dir _ entry children rest => { chunks := entry.chunks, mtime := entry.mtime } :: (children.entries ++ rest.entries)

/-- The entries below the directories of the directory. -/
def underDirs : Listing → List Entry
  | nil => []
  | file _ _ rest => rest.underDirs
  | dir _ _ children rest => children.entries ++ rest.underDirs

end Listing

/-- The effects of a deletion: the key-value store, the chunks passed to `DeleteChunks`, and entries left in the
store below a directory that is gone. -/
structure Deletion where
  kv : KvStore
  deleted : List FileChunk := []
  orphans : List Entry := []

/-- The variables of the loop over a directory. -/
structure Layer where
  effects : Deletion
  chunksToDelete : List FileChunk := []

/-- A file of the directory. -/
def Layer.addFile (shouldDeleteChunks : Bool) (opts : DeleteOptions) (l : Layer) (sub : Entry) : Layer :=
  let sub := maybeReadHardLink l.effects.kv sub
  if sub.hardLinkId ≠ [] then
    -- `onHardLinkIdsFn`
    if opts.shouldDeleteChunks then { l with effects.kv := deleteHardLink l.effects.kv sub.hardLinkId } else l
  else if shouldDeleteChunks then { l with chunksToDelete := l.chunksToDelete ++ sub.chunks }
  else l

/-- Where the loop is in a page of `PaginationSize` entries: how many are left in it, and whether it is full. -/
structure Page where
  left : Nat := 0
  full : Bool := false

/-- The page of the next entry, when `n` entries are left in the directory. -/
def Page.next (page : Page) (n : Nat) : Page :=
  if page.left = 0 then ⟨min paginationSize n - 1, paginationSize ≤ n⟩ else ⟨page.left - 1, page.full⟩

/-- `doBatchDeleteFolderMetaAndData`, given the loop over the children. -/
def batchDelete (env : FilerEnv) (opts : DeleteOptions) (path : List String) (isDeletingBucket : Bool)
    (children : Listing) (loop : Layer → Except DeleteErr Layer) (effects : Deletion) : Except DeleteErr Deletion :=
  if !isDeletingBucket || !env.canDropWholeBucket then
    if !opts.isRecursive && children.length ≠ 0 then .error (.nonEmptyFolder path)
    else do
      let l ← loop { effects }
      return { l.effects with deleted := l.effects.deleted ++ l.chunksToDelete }
  else .ok effects

/-- The loop over the children of a directory. -/
def deleteChildren (env : FilerEnv) (opts : DeleteOptions) (shouldDeleteChunks : Bool) :
    List String → Listing → Page → Layer → Except DeleteErr Layer
  | _, .nil, _, l => .ok l
  | path, .file name entry rest, page, l =>
    let page := page.next (rest.length + 1)
    if !opts.isFromOtherCluster && env.remoteFails (path ++ [name]) && !opts.ignoreRecursiveError then
      -- the rest of the page is left out, and after a full page the loop goes on with the next entry
      if page.full then deleteChildren env opts shouldDeleteChunks path rest {} l
      else .ok { l with effects.orphans := l.effects.orphans ++ rest.underDirs }
    else deleteChildren env opts shouldDeleteChunks path rest page (l.addFile shouldDeleteChunks opts entry)
  | path, .dir name _ children rest, page, l =>
    match batchDelete env opts (path ++ [name]) (env.isBucket (path ++ [name])) children
      (deleteChildren env opts shouldDeleteChunks (path ++ [name]) children {}) l.effects with
    | .ok effects =>
      deleteChildren env opts shouldDeleteChunks path rest (page.next (rest.length + 1)) { l with effects }
    | .error err =>
      if !opts.ignoreRecursiveError then .error err
      else deleteChildren env opts shouldDeleteChunks path rest (page.next (rest.length + 1)) l

/-! ## The tree -/

/-- What is at a path. -/
inductive Node where
  | file (entry : Entry)
  | dir (entry : DirEntry) (children : Listing)

namespace Listing

/-- `FindEntry`, without the attributes of a hard link. -/
def find : Listing → List String → Option Node
  | nil, _ => none
  | file _ _ _, [] => none
  | dir _ _ _ _, [] => none
  | file name entry rest, n :: path =>
    if name = n then (if path = [] then some (.file entry) else none) else rest.find (n :: path)
  | dir name entry children rest, n :: path =>
    if name = n then (if path = [] then some (.dir entry children) else children.find path)
    else rest.find (n :: path)

/-- The tree without what is at a path. -/
def erase : Listing → List String → Listing
  | nil, _ => nil
  | file name entry rest, [] => file name entry rest
  | dir name entry children rest, [] => dir name entry children rest
  | file name entry rest, n :: path =>
    if name = n then (if path = [] then rest else file name entry rest) else file name entry (rest.erase (n :: path))
  | dir name entry children rest, n :: path =>
    if name = n then (if path = [] then rest else dir name entry (children.erase path) rest)
    else dir name entry children (rest.erase (n :: path))

end Listing

/-- The store of a filer: the entries below the root, and the hard links. -/
structure FilerStore where
  root : Listing
  kv : KvStore

/-- `mtime` of an entry. -/
def Node.mtime : Node → Int
  | .file entry => entry.mtime
  | .dir entry _ => entry.mtime

/-- What a deletion returns: the store, and the effects. -/
structure Deleted where
  root : Listing
  effects : Deletion

/-- `DeleteEntryMetaAndData`. -/
def deleteEntryMetaAndData (env : FilerEnv) (opts : DeleteOptions) (store : FilerStore) (p : List String) :
    Except DeleteErr Deleted :=
  if p = [] then .ok ⟨store.root, { kv := store.kv }⟩
  else
    match store.root.find p with
    | none => .error .notFound
    | some node =>
      if 0 < opts.ifNotModifiedAfter ∧ opts.ifNotModifiedAfter < node.mtime then .ok ⟨store.root, { kv := store.kv }⟩
      else
        match node with
        | .dir entry children => do
          let isDeleteCollection := env.isBucket p
          -- the children, not the folder itself
          let shouldDeleteChunks := opts.shouldDeleteChunks && !isDeleteCollection
          let effects ← batchDelete env opts p isDeleteCollection children
            (deleteChildren env opts shouldDeleteChunks p children {}) { kv := store.kv }
          if !opts.isFromOtherCluster && env.remoteFails p then .error (.remote p)
          else
            return ⟨store.root.erase p,
              { effects with deleted := effects.deleted ++ if shouldDeleteChunks then entry.chunks else [] }⟩
        | .file entry =>
          let entry := maybeReadHardLink store.kv entry
          if !opts.isFromOtherCluster && env.remoteFails p then .error (.remote p)
          else
            -- `DeleteOneEntry`
            let kv := if entry.hardLinkId ≠ [] then deleteHardLink store.kv entry.hardLinkId else store.kv
            let deleted :=
              if !opts.shouldDeleteChunks then []
              -- there are other hard links
              else if entry.hardLinkId ≠ [] ∧ 1 < entry.hardLinkCounter then []
              else entry.chunks
            .ok ⟨store.root.erase p, { kv, deleted }⟩

end Filer
