import SeaweedFS.Mount.InodeToPath
import SeaweedFS.Lib.Runs

/-!
# Inode numbers and paths agree

The invariant of the two maps (`Consistent`) is kept by every call that is `Proper`.
-/

namespace Mount.InodeToPath

open Lib Util List SortedMap

variable {asInode : Str → Int → Nat} {t : InodeToPath} {m : SortedMap Nat InodeEntry}

/-! ## Free numbers -/

theorem get_nextFree (m : SortedMap Nat InodeEntry) (inode : Nat) : m.get (nextFree m inode) = none := by
  induction inode using nextFree.induct m with
  | case1 inode hused ih => rwa [nextFree, if_pos hused]
  | case2 inode hfree => rwa [nextFree, if_neg hfree, ← Option.not_isSome_iff_eq_none]

theorem allocateLoop_true (m : SortedMap Nat InodeEntry) (inode : Nat) :
    allocateLoop m true inode = nextFree m inode + 1 := by
  induction inode using nextFree.induct m with
  | case1 inode hused ih => rw [allocateLoop, if_pos rfl, hused, ih, nextFree.eq_1 m inode, if_pos hused]
  | case2 inode hfree =>
    rw [allocateLoop, if_pos rfl, Bool.eq_false_iff.2 hfree, allocateLoop, if_neg Bool.false_ne_true, nextFree,
      if_neg hfree]

/-- **Allocated numbers.** The number is free exactly when the hash is, or the number behind the first free
one. -/
theorem allocateInode_free_iff {path : Str} (hpath : path ≠ ascii "/") (unixTime : Int) :
    t.inode2path.get (allocateInode asInode t path unixTime) = none ↔
      t.inode2path.get (asInode path unixTime) = none ∨
        t.inode2path.get (nextFree t.inode2path (asInode path unixTime) + 1) = none := by
  rw [allocateInode, if_neg hpath]
  cases hused : t.inode2path.get (asInode path unixTime) with
  | none => simp [allocateLoop, hused]
  | some e => simp [hused, allocateLoop_true]

/-- Numbers 5 and 7 are in use: the path with the hash 5 gets 7. -/
theorem allocateInode_used :
    let t : InodeToPath := ⟨(SortedMap.empty.insert 5 ⟨[], 1, false⟩).insert 7 ⟨[], 1, false⟩, .empty⟩
    allocateInode (fun _ _ => 5) t (ascii "/a") 0 = 7 ∧ (t.inode2path.get 7).isSome := by
  refine ⟨?_, rfl⟩
  rw [allocateInode, if_neg (by decide)]
  simp [allocateLoop, get_insert]

/-- The path `/a` has the number 5. -/
def oneAdded : InodeToPath := (new (ascii "/")).addPath 5 (ascii "/a")

theorem nextFree_oneAdded : nextFree oneAdded.inode2path 5 = 6 := by
  rw [nextFree, if_pos (by decide), nextFree, if_neg (by decide)]

theorem allocateInode_free_iff_behind :
    oneAdded.inode2path.get (allocateInode (fun _ _ => 5) oneAdded (ascii "/b") 0) = none := by
  refine (allocateInode_free_iff (by decide) 0).2 (.inr ?_)
  rw [nextFree_oneAdded]
  rfl

/-! ## The paths of a number -/

/-- The paths that an inode number lists. -/
def listed (m : SortedMap Nat InodeEntry) (inode : Nat) : List Str := (m.get inode).elim [] (·.paths)

@[simp] theorem listed_insert (inode : Nat) (e : InodeEntry) (i : Nat) :
    listed (m.insert inode e) i = if inode = i then e.paths else listed m i := by
  rw [listed, get_insert]
  split <;> rfl

@[simp] theorem listed_erase (inode i : Nat) :
    listed (m.erase inode) i = if inode = i then [] else listed m i := by
  rw [listed, get_erase]
  split <;> rfl

variable {e : InodeEntry} {inode : Nat}

theorem listed_of_get (h : m.get inode = some e) : listed m inode = e.paths := by
  rw [listed, h, Option.elim_some]

/-- The two maps are inverse to each other, and no number lists a path twice. -/
structure Consistent (t : InodeToPath) : Prop where
  inverse : ∀ p i, t.path2inode.get p = some i ↔ p ∈ listed t.inode2path i
  nodup : ∀ i, (listed t.inode2path i).Nodup

theorem consistent_new (root : Str) : Consistent (new root) := by
  refine ⟨fun p i => ?_, fun i => ?_⟩
  · rw [new, get_insert, listed_insert]
    grind [listed, get_empty]
  · rw [new, listed_insert]
    split
    · exact nodup_singleton root
    · exact nodup_nil

section

variable (h : Consistent t)
include h

variable {path : Str}

theorem Consistent.insert (hnew : t.path2inode.get path = none)
    (he : e.paths = listed t.inode2path inode ++ [path]) :
    Consistent ⟨t.inode2path.insert inode e, t.path2inode.insert path inode⟩ := by
  have hnot : ∀ i, path ∉ listed t.inode2path i := fun i hmem => by simp [(h.inverse path i).2 hmem] at hnew
  refine ⟨fun p i => ?_, fun i => ?_⟩
  · rw [get_insert, listed_insert, he]
    grind [h.inverse p i]
  · rw [listed_insert, he]
    split
    · exact (h.nodup inode).append (nodup_singleton path) (by simpa using hnot inode)
    · exact h.nodup i

theorem Consistent.update (he : e.paths = listed t.inode2path inode) :
    Consistent { t with inode2path := t.inode2path.insert inode e } := by
  have hsame : ∀ i, listed (t.inode2path.insert inode e) i = listed t.inode2path i := by
    intro i
    rw [listed_insert, he]
    split
    · next heq => rw [heq]
    · rfl
  exact ⟨fun p i => (h.inverse p i).trans (by rw [hsame]), fun i => hsame i ▸ h.nodup i⟩

theorem Consistent.lookup {unixTime : Int} {isDirectory isHardlink : Bool}
    {possibleInode : Nat} {isLookup : Bool} (hfree : isHardlink = true → t.path2inode.get path = none →
      t.inode2path.get (inodeFor asInode t path unixTime isHardlink possibleInode) = none) :
    Consistent (t.lookup asInode path unixTime isDirectory isHardlink possibleInode isLookup).2 := by
  unfold InodeToPath.lookup
  dsimp only
  cases hpath : t.path2inode.get path with
  | some inode =>
    have hinode : inodeFor asInode t path unixTime isHardlink possibleInode = inode := by
      rw [inodeFor, hpath]
    have hmem := (h.inverse path inode).1 hpath
    rw [hinode]
    cases hentry : t.inode2path.get inode with
    | none => simp [listed, hentry] at hmem
    | some e =>
      -- the path keeps its number
      have hsame : t.path2inode.insert path inode = t.path2inode :=
        ext_get fun p => by rw [get_insert]; grind
      rw [hsame]
      apply h.update
      rw [listed_of_get hentry]
      dsimp only
      split <;> rfl
  | none =>
    have hnone : t.inode2path.get (inodeFor asInode t path unixTime isHardlink possibleInode) = none := by
      cases isHardlink with
      | true => exact hfree rfl hpath
      | false =>
        rw [inodeFor, hpath]
        exact get_nextFree _ _
    apply h.insert hpath
    simp [hnone, listed]

theorem Consistent.addPath (hnew : t.path2inode.get path = none) (inode : Nat) :
    Consistent (t.addPath inode path) := by
  apply h.insert hnew
  cases hentry : t.inode2path.get inode with
  | none => simp [listed, hentry]
  | some e => rw [listed_of_get hentry]

theorem Consistent.removePath (path : Str) :
    Consistent (t.removePath path) ∧ (t.removePath path).path2inode = t.path2inode.erase path := by
  unfold InodeToPath.removePath
  cases hget : t.path2inode.get path with
  | none => exact ⟨h, ext_get fun p => by rw [get_erase]; grind⟩
  | some inode =>
    have hlisted : ∀ i, listed (t.unregister inode path).inode2path i =
        if inode = i then (listed t.inode2path inode).erase path else listed t.inode2path i := by
      intro i
      unfold unregister
      cases hentry : t.inode2path.get inode with
      | none => grind [listed]
      | some e => rw [listed_insert, listed_of_get hentry]
    have herase : (t.unregister inode path).path2inode = t.path2inode.erase path := rfl
    refine ⟨⟨fun p i => ?_, fun i => ?_⟩, herase⟩
    · have hmem := (h.nodup inode).mem_erase_iff (a := p) (b := path)
      rw [hlisted, herase, get_erase]
      grind [h.inverse p i]
    · rw [hlisted]
      split
      · exact (h.nodup inode).erase path
      · exact h.nodup i

theorem Consistent.movePath {sourcePath targetPath : Str} (hne : sourcePath ≠ targetPath) :
    Consistent (t.movePath sourcePath targetPath) := by
  obtain ⟨h', hget'⟩ := h.removePath targetPath
  unfold InodeToPath.movePath
  cases hsource : t.path2inode.get sourcePath with
  | none => exact h'
  | some inode =>
    have hsource' : (t.removePath targetPath).path2inode.get sourcePath = some inode := by
      rw [hget', get_erase, if_neg hne.symm, hsource]
    have htarget : (t.removePath targetPath).path2inode.get targetPath = none := by
      rw [hget', get_erase, if_pos rfl]
    generalize t.removePath targetPath = t' at h' hsource' htarget ⊢
    have hlisted := (h'.inverse sourcePath inode).1 hsource'
    have hnot : ∀ i, targetPath ∉ listed t'.inode2path i := fun i hmem => by
      simp [(h'.inverse targetPath i).2 hmem] at htarget
    dsimp only
    cases hentry : t'.inode2path.get inode with
    | none => simp [listed, hentry] at hlisted
    | some e =>
      have hpaths := listed_of_get hentry
      have hmem : ∀ p, p ∈ e.paths.map (fun p => if p = sourcePath then targetPath else p) ↔
          p = targetPath ∨ p ≠ sourcePath ∧ p ∈ e.paths := by
        intro p
        grind
      refine ⟨fun p i => ?_, fun i => ?_⟩
      · rw [get_insert, get_erase, listed_insert]
        grind [h'.inverse p i]
      · rw [listed_insert]
        split
        · refine Nodup.map_on ?_ (hpaths ▸ h'.nodup inode)
          grind
        · exact h'.nodup i

omit h in
theorem get_foldl_erase (paths : List Str) (m : SortedMap Str Nat) (p : Str) :
    (paths.foldl SortedMap.erase m).get p = if p ∈ paths then none else m.get p := by
  induction paths generalizing m with
  | nil => simp
  | cons path paths ih =>
    rw [foldl_cons, ih, get_erase]
    grind

theorem Consistent.forget (inode : Nat) (nlookup : UInt64) : Consistent (t.forget inode nlookup) := by
  unfold InodeToPath.forget
  cases hentry : t.inode2path.get inode with
  | none => exact h
  | some e =>
    have hpaths := listed_of_get hentry
    dsimp only
    generalize (if nlookup > e.nlookup then 0 else e.nlookup - nlookup) = left
    split
    · refine ⟨fun p i => ?_, fun i => ?_⟩
      · rw [get_foldl_erase, listed_erase]
        grind [h.inverse p i, h.inverse p inode]
      · rw [listed_erase]
        split
        · exact nodup_nil
        · exact h.nodup i
    · exact h.update hpaths.symm

/-! ## Runs -/

/-- `AddPath` is called for new paths, `MovePath` moves to another path, no number is past the largest `uint64`, and
no hard link is looked up under a number that other paths have. -/
def Proper (asInode : Str → Int → Nat) (t : InodeToPath) : Call → Prop
  | .lookup path unixTime _ isHardlink possibleInode _ =>
    inodeFor asInode t path unixTime isHardlink possibleInode < 2 ^ 64 ∧ (isHardlink = true →
      t.path2inode.get path = none →
      t.inode2path.get (inodeFor asInode t path unixTime isHardlink possibleInode) = none)
  | .addPath _ path => t.path2inode.get path = none
  | .movePath sourcePath targetPath => sourcePath ≠ targetPath
  | _ => True

theorem Consistent.apply {call : Call} (hcall : Proper asInode t call) :
    Consistent (t.apply asInode call) := by
  cases call with
  | lookup => exact h.lookup hcall.2
  | addPath inode => exact h.addPath hcall inode
  | removePath path => exact (h.removePath path).1
  | movePath => exact h.movePath hcall
  | forget inode nlookup => exact h.forget inode nlookup

end

/-- **The maps are inverse to each other** after every run of proper calls, and a registered path's number leads to
one of its paths. -/
theorem reached_inverse {root : Str} {calls : List Call}
    (hcalls : Throughout (apply asInode) (Proper asInode) (new root) calls) :
    let t := calls.foldl (apply asInode) (new root)
    (∀ p i, t.path2inode.get p = some i ↔ ∃ e, t.inode2path.get i = some e ∧ p ∈ e.paths) ∧
      (∀ i e, t.inode2path.get i = some e → e.paths.Nodup) ∧
      ∀ p i, t.path2inode.get p = some i → ∃ q, t.getPath i = some q ∧ t.path2inode.get q = some i := by
  have h := foldl_inv (fun t call (h : Consistent t) hcall => h.apply hcall) (consistent_new root) hcalls
  intro t
  have hmem : ∀ p i, p ∈ listed t.inode2path i ↔ ∃ e, t.inode2path.get i = some e ∧ p ∈ e.paths := by
    intro p i
    unfold listed
    cases t.inode2path.get i <;> simp
  refine ⟨fun p i => (h.inverse p i).trans (hmem p i), fun i e he => listed_of_get he ▸ h.nodup i, fun p i hp => ?_⟩
  obtain ⟨e, he, hpe⟩ := (hmem p i).1 ((h.inverse p i).1 hp)
  obtain ⟨q, rest, hq⟩ := exists_cons_of_ne_nil (ne_nil_of_mem hpe)
  refine ⟨q, by simp [getPath, he, hq], (h.inverse q i).2 ((hmem q i).2 ⟨e, he, ?_⟩)⟩
  rw [hq]
  exact mem_cons_self

theorem lookup_oneAdded : apply (fun _ _ => 5) oneAdded (.lookup (ascii "/b") 0 false false 0 true) =
    oneAdded.addPath 6 (ascii "/b") := by
  have hinode : inodeFor (fun _ _ => 5) oneAdded (ascii "/b") 0 false 0 = 6 := nextFree_oneAdded
  rw [apply, InodeToPath.lookup, hinode]
  rfl

/-- The number of `/b` collides with that of `/a`; `/b` gets a hard link, is moved, and the hard link is removed. -/
def movingCalls : List Call :=
  [.addPath 5 (ascii "/a"), .lookup (ascii "/b") 0 false false 0 true, .addPath 6 (ascii "/c"),
    .movePath (ascii "/b") (ascii "/d"), .removePath (ascii "/c")]

theorem reached_inverse_moved :
    let t := movingCalls.foldl (apply fun _ _ => 5) (new (ascii "/"))
    t.path2inode.get (ascii "/d") = some 6 ∧ ∃ q, t.getPath 6 = some q ∧ t.path2inode.get q = some 6 := by
  have hproper : Throughout (apply fun _ _ => 5) (Proper fun _ _ => 5) (new (ascii "/")) movingCalls := by
    refine ⟨rfl, ⟨?_, nofun⟩, ?_⟩
    · exact Nat.lt_of_le_of_lt (Nat.le_of_eq nextFree_oneAdded) (by decide)
    · refine lookup_oneAdded ▸ ⟨rfl, ?_, trivial, trivial⟩
      exact (by decide : ascii "/b" ≠ ascii "/d")
  have hmoved : (movingCalls.foldl (apply fun _ _ => 5) (new (ascii "/"))).path2inode.get (ascii "/d") = some 6 := by
    rw [movingCalls, foldl_cons, foldl_cons, show apply _ _ (.addPath 5 _) = oneAdded from rfl, lookup_oneAdded]
    rfl
  exact ⟨hmoved, (reached_inverse hproper).2.2 _ 6 hmoved⟩

/-- A hard link looked up under the number of another path: once that path is gone, the number leads nowhere. -/
theorem lookup_hardlink_lost :
    let t := [Call.addPath 5 (ascii "/a"), .lookup (ascii "/b") 0 false true 5 true,
      .removePath (ascii "/a")].foldl (apply fun _ _ => 5) (new (ascii "/"))
    t.path2inode.get (ascii "/b") = some 5 ∧ t.getPath 5 = none :=
  ⟨rfl, rfl⟩

end Mount.InodeToPath
