import SeaweedFS.Util.Strings

/-!
# `weed/filer/filerstore_wrapper.go`: listing a directory by prefix

A store that cannot list by prefix is asked for whole pages, of which `prefixFilterEntries` passes on what has
the prefix. A directory is its entries in the order of their names; the callback always goes on.
-/

namespace Filer

open Util

variable {E : Type} (name : E → Str)

/-- `ListDirectoryEntries` of a store: the entries from the start name on, and the last name. -/
def listDirectoryEntries (dir : List E) (startFileName : Str) (includeStartFile : Bool) (limit : Nat) :
    List E × Str :=
  let page := (dir.filter fun e => startFileName < name e ∨ includeStartFile ∧ name e = startFileName).take limit
  (page, (page.getLast?.map name).getD [])

/-- The loop of `prefixFilterEntries` over pages, with what was passed on so far. -/
def prefixFilterLoop (dir : List E) (limit : Nat) (pre : Str) :
    Nat → List E × Str → List E → Option (List E × Str)
  | 0, _, _ => none
  | fuel + 1, (notPrefixed, lastFileName), passed =>
    if passed.length < limit ∧ notPrefixed ≠ [] then
      let passed := passed ++ (notPrefixed.filter fun e => pre.isPrefixOf (name e)).take (limit - passed.length)
      if passed.length < limit ∧ lastFileName < pre then
        prefixFilterLoop dir limit pre fuel (listDirectoryEntries name dir lastFileName false limit) passed
      else some (passed, lastFileName)
    else some (passed, lastFileName)

/-- `prefixFilterEntries`: what is passed to the callback, and the last name. -/
def prefixFilterEntries (fuel : Nat) (dir : List E) (startFileName : Str) (includeStartFile : Bool) (limit : Nat)
    (pre : Str) : Option (List E × Str) :=
  let page := listDirectoryEntries name dir startFileName includeStartFile limit
  if pre = [] then some page else prefixFilterLoop name dir limit pre fuel page []

end Filer
