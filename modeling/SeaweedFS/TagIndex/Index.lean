import SeaweedFS.Lib.FileTree
import SeaweedFS.Lib.SortedSet
import SeaweedFS.Util.Strings

/-!
# The tag index

`tagindex/internal/index/index.go`: one file per tag under `by-tag`, with the paths that have the tag, one
on a line, and the file `all-tagged` with the paths that have any. A call works on the tree of files and
gives the tree it leaves.
-/

namespace TagIndex

open Lib Util

/-- Why a call fails. -/
inductive Err where
  | os (errno : Errno)
  | tooLong
  | pathRequired
  | tagRequired
  | exprRequired
  | unexpectedToken (token : Str)
  | expectedTag
  | expectedTagGot (token : Str)
deriving DecidableEq, Repr

/-- A `map[string]struct{}`. -/
abbrev Paths := SortedSet Str

/-- `filepath.Join` of a clean path and a string. -/
def join (base : Path) (s : Str) : Path :=
  (s.splitOn 0x2f).foldl
    (fun p name =>
      if name = [] ∨ name = ascii "." then p
      else if name = ascii ".." then p.dropLast
      else p ++ [name])
    base

structure Store where
  root : Path

namespace Store

def byTagDir (st : Store) : Path := st.root ++ [ascii "by-tag"]

def allTaggedPath (st : Store) : Path := st.root ++ [ascii "all-tagged"]

/-- The file of a tag. -/
def tagPath (st : Store) (tag : Str) : Path := join st.byTagDir tag

end Store

/-! ## Files of lines -/

/-- `bufio.MaxScanTokenSize`. -/
def maxScanTokenSize : Nat := 65536

/-- The lines of a file that are not blank. -/
def lineSet (content : List UInt8) : Paths :=
  SortedSet.ofList (((content.splitOn 0x0a).map trimSpace).filter (· ≠ []))

def readLines (fs : FileTree) (path : Path) : Except Err Paths :=
  match fs.readFile path with
  | .error .notExist => .ok SortedMap.empty
  | .error e => .error (.os e)
  | .ok content =>
    -- the scanner gives up on a line that does not fit its buffer
    if (content.splitOn 0x0a).any (maxScanTokenSize ≤ ·.length) then .error .tooLong
    else .ok (lineSet content)

/-- What `writeLines` writes. -/
def fileOf (lines : Paths) : List UInt8 := lines.toList.flatMap (· ++ [0x0a])

def writeLines (fs : FileTree) (path : Path) (lines : Paths) : Except Err FileTree := do
  let fs ← (fs.mkdirAll path.dropLast).mapError .os
  (fs.writeFile path (fileOf lines)).mapError .os

/-- A line is taken out of a file, which is written only if it has it. -/
def removeLine (fs : FileTree) (indexPath : Path) (line : Str) : Except Err FileTree := do
  let paths ← readLines fs indexPath
  if line ∈ paths then writeLines fs indexPath (paths.erase line) else .ok fs

/-! ## Normal forms of the arguments -/

def normalizePath (path : Str) : Except Err Str :=
  if path = [] then .error .pathRequired
  else if (ascii "/").isPrefixOf path then .ok path
  else .ok (ascii "/" ++ path)

def normalizeTags (tags : List Str) : List Str :=
  (SortedSet.ofList ((tags.map trimSpace).filter (· ≠ []))).toList

def normalizeUnder (under : Str) : Str :=
  let under := trimSpace under
  if under = [] ∨ under = ascii "/" then []
  else
    let under := if (ascii "/").isPrefixOf under then under else ascii "/" ++ under
    under.rdropWhile (· == 0x2f)

/-! ## The files of the tags -/

def pathsForTag (st : Store) (fs : FileTree) (tag : Str) : Except Err Paths :=
  readLines fs (st.tagPath tag)

def addPath (st : Store) (path : Str) (fs : FileTree) (tag : Str) : Except Err FileTree := do
  let paths ← readLines fs (st.tagPath tag)
  writeLines fs (st.tagPath tag) (paths.add path)

def removePath (st : Store) (path : Str) (fs : FileTree) (tag : Str) : Except Err FileTree :=
  removeLine fs (st.tagPath tag) path

/-- The paths of one entry of `by-tag` are added. -/
def addEntry (st : Store) (fs : FileTree) (paths : Paths) (entry : Name × Node) : Except Err Paths :=
  if entry.2 = .dir then .ok paths
  else do
    let tagPaths ← readLines fs (join st.byTagDir entry.1)
    return paths.addAll tagPaths.toList

def allPaths (st : Store) (fs : FileTree) : Except Err Paths :=
  match fs.readDir st.byTagDir with
  | .error .notExist => .ok SortedMap.empty
  | .error e => .error (.os e)
  | .ok entries => entries.foldlM (addEntry st fs) SortedMap.empty

/-- The path is taken out of one entry of `by-tag`. -/
def removeFromEntry (st : Store) (path : Str) (fs : FileTree) (entry : Name × Node) :
    Except Err FileTree :=
  if entry.2 = .dir then .ok fs else removeLine fs (join st.byTagDir entry.1) path

def removePathFromAllTags (st : Store) (fs : FileTree) (path : Str) : Except Err FileTree :=
  match fs.readDir st.byTagDir with
  | .error .notExist => .ok fs
  | .error e => .error (.os e)
  | .ok entries => entries.foldlM (removeFromEntry st path) fs

/-! ## The file of all tagged paths -/

/-- The paths of `all-tagged`; the file is written if it is not there. -/
def allTaggedPaths (st : Store) (fs : FileTree) : Except Err (Paths × FileTree) :=
  match fs.stat st.allTaggedPath with
  | .error .notExist => do
    let paths ← allPaths st fs
    let fs ← writeLines fs st.allTaggedPath paths
    return (paths, fs)
  | .error e => .error (.os e)
  | .ok _ => do
    let paths ← readLines fs st.allTaggedPath
    return (paths, fs)

def addTaggedPath (st : Store) (fs : FileTree) (path : Str) : Except Err FileTree := do
  let (paths, fs) ← allTaggedPaths st fs
  writeLines fs st.allTaggedPath (paths.add path)

def removeTaggedPath (st : Store) (fs : FileTree) (path : Str) : Except Err FileTree := do
  let (paths, fs) ← allTaggedPaths st fs
  if path ∈ paths then writeLines fs st.allTaggedPath (paths.erase path) else return fs

def rebuildAllTagged (st : Store) (fs : FileTree) : Except Err FileTree := do
  let paths ← allPaths st fs
  writeLines fs st.allTaggedPath paths

/-! ## Changes -/

def set (st : Store) (fs : FileTree) (path : Str) (tags : List Str) : Except Err FileTree := do
  let path ← normalizePath path
  let fs ← (fs.mkdirAll st.byTagDir).mapError .os
  let tags := normalizeTags tags
  let fs ← removePathFromAllTags st fs path
  let fs ← (if tags = [] then removeTaggedPath st fs path else addTaggedPath st fs path :
    Except Err FileTree)
  tags.foldlM (addPath st path) fs

def update (st : Store) (fs : FileTree) (path : Str) (oldTags newTags : List Str) :
    Except Err FileTree := do
  let path ← normalizePath path
  let fs ← (fs.mkdirAll st.byTagDir).mapError .os
  let oldTags := normalizeTags oldTags
  let newTags := normalizeTags newTags
  let fs ← (oldTags.filter (· ∉ newTags)).foldlM (removePath st path) fs
  let fs ← (newTags.filter (· ∉ oldTags)).foldlM (addPath st path) fs
  if oldTags = [] ∧ newTags ≠ [] then addTaggedPath st fs path
  else if oldTags ≠ [] ∧ newTags = [] then removeTaggedPath st fs path
  else return fs

/-! ## Queries -/

/-- The condition of `filterAndSort`. -/
def isUnder (under path : Str) : Bool :=
  under == [] || path == under || (under ++ ascii "/").isPrefixOf path

def filterAndSort (paths : Paths) (under : Str) : List Str :=
  (paths.filter (isUnder (normalizeUnder under))).toList

def query (st : Store) (fs : FileTree) (tag under : Str) : Except Err (List Str) := do
  let tag := trimSpace tag
  if tag = [] then throw .tagRequired
  let paths ← pathsForTag st fs tag
  return filterAndSort paths under

def isOperator (token : Str) : Bool :=
  equalFold token "and" || equalFold token "or" || equalFold token "not"

def union (a b : Paths) : Paths := (SortedSet.ofList a.toList).addAll b.toList

def intersect (a b : Paths) : Paths :=
  -- the smaller set is walked through
  if a.toList.length > b.toList.length then b.filter (· ∈ a) else a.filter (· ∈ b)

def difference (a b : Paths) : Paths := a.filter (· ∉ b)

/-- `exprParser.match`: the tokens after the expected one. -/
def matchToken (token : String) : List Str → Option (List Str)
  | [] => none
  | next :: rest => if equalFold next token then some rest else none

/-- `exprParser.parseUnary`, with the tokens that are left and the tree. -/
def parseUnary (st : Store) (fs : FileTree) : List Str → Except Err (Paths × List Str × FileTree)
  | [] => .error .expectedTag
  | token :: rest =>
    if equalFold token "not" then do
      let (paths, rest, fs) ← parseUnary st fs rest
      let (allTagged, fs) ← allTaggedPaths st fs
      return (difference allTagged paths, rest, fs)
    else if isOperator token then .error (.expectedTagGot token)
    else do
      let paths ← pathsForTag st fs token
      return (paths, rest, fs)

/-- The loop of `exprParser.parseAnd`, `fuel` times at most. -/
def andLoop (st : Store) : Nat → Paths → List Str → FileTree → Except Err (Paths × List Str × FileTree)
  | 0, left, tokens, fs => .ok (left, tokens, fs)
  | fuel + 1, left, tokens, fs =>
    match matchToken "and" tokens with
    | none => .ok (left, tokens, fs)
    | some tokens =>
      match matchToken "not" tokens with
      | some tokens => do
        let (right, tokens, fs) ← parseUnary st fs tokens
        andLoop st fuel (difference left right) tokens fs
      | none => do
        let (right, tokens, fs) ← parseUnary st fs tokens
        andLoop st fuel (intersect left right) tokens fs

/-- `exprParser.parseAnd`; every round takes a token. -/
def parseAnd (st : Store) (fs : FileTree) (tokens : List Str) :
    Except Err (Paths × List Str × FileTree) := do
  let (left, tokens, fs) ← parseUnary st fs tokens
  andLoop st tokens.length left tokens fs

/-- The loop of `exprParser.parseOr`, `fuel` times at most. -/
def orLoop (st : Store) : Nat → Paths → List Str → FileTree → Except Err (Paths × List Str × FileTree)
  | 0, left, tokens, fs => .ok (left, tokens, fs)
  | fuel + 1, left, tokens, fs =>
    match matchToken "or" tokens with
    | none => .ok (left, tokens, fs)
    | some tokens => do
      let (right, tokens, fs) ← parseAnd st fs tokens
      orLoop st fuel (union left right) tokens fs

/-- `exprParser.parseOr`. -/
def parseOr (st : Store) (fs : FileTree) (tokens : List Str) :
    Except Err (Paths × List Str × FileTree) := do
  let (left, tokens, fs) ← parseAnd st fs tokens
  orLoop st tokens.length left tokens fs

def queryExpr (st : Store) (fs : FileTree) (expr : List Str) (under : Str) :
    Except Err (List Str × FileTree) := do
  if expr = [] then throw .exprRequired
  let (paths, rest, fs) ← parseOr st fs expr
  match rest with
  | [] => return (filterAndSort paths under, fs)
  | token :: _ => throw (.unexpectedToken token)

end TagIndex
