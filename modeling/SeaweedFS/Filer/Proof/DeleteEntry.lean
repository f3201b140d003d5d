import SeaweedFS.Filer.DeleteEntry
import SeaweedFS.Lib.Simulation

/-!
# Which chunks a deletion deletes

The loop over a directory removes a reference from each hard link and collects the chunks of the other files
(`visited_deleteChildren`). Nothing deletes the chunks of a hard link when its last entry goes with a directory
(`Linked.deleted_iff`).
-/

namespace Filer

open Lib List Except Listing

variable {env : FilerEnv} {opts : DeleteOptions} {kv : KvStore} {path : List String} {t : Listing}

variable {entry : Entry} {id : String}

/-! ## Hard links -/

theorem deleteHardLink_of_ne {id id' : HardLinkId} (h : id' ≠ id) : deleteHardLink kv id id' = kv id' := by
  unfold deleteHardLink
  cases kv id with
  | none => rfl
  | some link => exact Function.update_of_ne h _ _

theorem foldl_deleteHardLink {id : HardLinkId} {link : HardLink} (ids : List HardLinkId)
    (hkv : kv id = some link) (hcount : (ids.count id : Int) < link.counter) :
    ids.foldl deleteHardLink kv id = some { link with counter := link.counter - ids.count id } := by
  induction ids generalizing kv link with
  | nil =>
    rw [foldl_nil, hkv, count_nil, Nat.cast_zero, Int.sub_zero]
  | cons id' ids ih =>
    rw [foldl_cons]
    by_cases heq : id' = id
    · rw [heq, count_cons_self] at hcount ⊢
      have hone : deleteHardLink kv id id = some { link with counter := link.counter - 1 } := by
        rw [deleteHardLink, hkv]
        dsimp only
        rw [Function.update_self, HardLink.unlink, if_neg (by omega)]
      rw [ih hone (by dsimp only; omega)]
      dsimp only
      congr 2
      omega
    · rw [count_cons_of_ne heq] at hcount ⊢
      exact ih ((deleteHardLink_of_ne (Ne.symm heq)).trans hkv) hcount

/-- The chunks of an entry. -/
def chunksOf (kv : KvStore) (entry : Entry) : List FileChunk := (maybeReadHardLink kv entry).chunks

theorem hardLinkId_maybeReadHardLink (kv : KvStore) (entry : Entry) :
    (maybeReadHardLink kv entry).hardLinkId = entry.hardLinkId := by
  unfold maybeReadHardLink
  split
  · rfl
  · split <;> rfl

theorem chunksOf_plain (h : entry.hardLinkId = []) : chunksOf kv entry = entry.chunks := by
  rw [chunksOf, maybeReadHardLink, if_pos h]

theorem chunksOf_link {link : HardLink} (h : entry.hardLinkId ≠ [])
    (hkv : kv entry.hardLinkId = some link) : chunksOf kv entry = link.chunks := by
  rw [chunksOf, maybeReadHardLink, if_neg h, hkv]

/-! ## What a directory's deletion reaches -/

/-- The children of a bucket are not visited if the store can drop it. -/
def FilerEnv.drops (env : FilerEnv) (path : List String) : Bool := env.isBucket path && env.canDropWholeBucket

namespace Listing

/-- The files that are visited. -/
def visited (env : FilerEnv) (path : List String) : Listing → List Entry
  | nil => []
  | file _ entry rest => entry :: rest.visited env path
  | dir name _ children rest =>
    (if env.drops (path ++ [name]) then [] else children.visited env (path ++ [name])) ++ rest.visited env path

/-- The files whose chunks are deleted: those that are visited and are no hard links. -/
def passed (env : FilerEnv) (path : List String) (t : Listing) : List Entry :=
  (t.visited env path).filter (·.hardLinkId = [])

/-- All other entries: hard links, directories, and what is below a bucket that the store drops. -/
def left (env : FilerEnv) (path : List String) : Listing → List Entry
  | nil => []
  | file _ entry rest => if entry.hardLinkId = [] then rest.left env path else entry :: rest.left env path
  | dir name entry children rest =>
    { chunks := entry.chunks, mtime := entry.mtime } ::
      ((if env.drops (path ++ [name]) then children.entries else children.left env (path ++ [name])) ++
        rest.left env path)

theorem entries_perm (env : FilerEnv) (path : List String) (t : Listing) :
    t.entries.Perm (t.passed env path ++ t.left env path) := by
  induction t generalizing path with
  | nil => exact .refl _
  | file name entry rest ih =>
    have ih := ih path
    rw [entries, passed, visited, left, filter_cons]
    by_cases h : entry.hardLinkId = []
    · rw [if_pos (decide_eq_true h), if_pos h]
      exact ih.cons entry
    · rw [if_neg (by simpa using h), if_neg h]
      exact (ih.cons entry).trans List.perm_middle.symm
  | dir name entry children rest ihc ihr =>
    have ihr := ihr path
    rw [entries, passed, visited, left, filter_append]
    refine (List.Perm.cons _ ?_).trans List.perm_middle.symm
    split
    · refine (ihr.append_left _).trans ?_
      rw [← append_assoc, ← append_assoc]
      exact List.perm_append_comm.append_right _
    · refine ((ihc (path ++ [name])).append ihr).trans ?_
      rw [append_assoc, append_assoc]
      refine List.Perm.append_left _ ?_
      rw [← append_assoc, ← append_assoc]
      exact List.perm_append_comm.append_right _

end Listing

/-- The hard links that are visited. -/
def Listing.links (env : FilerEnv) (path : List String) (t : Listing) : List HardLinkId :=
  ((t.visited env path).filter (·.hardLinkId ≠ [])).map (·.hardLinkId)

/-- No deletion in the remote storage ends the loop over a directory below `path`. -/
def Unbroken (env : FilerEnv) (opts : DeleteOptions) (path : List String) : Prop :=
  ∀ q, path <+: q → (!opts.isFromOtherCluster && env.remoteFails q && !opts.ignoreRecursiveError) = false

theorem Unbroken.append (h : Unbroken env opts path) (name : String) : Unbroken env opts (path ++ [name]) :=
  fun q hq => h q ((prefix_append _ _).trans hq)

/-- The loop has gone through the files `visited`. -/
structure Visited (visited : List Entry) (l l' : Layer) : Prop where
  orphans : l'.effects.orphans = l.effects.orphans
  kv : l'.effects.kv = ((visited.filter (·.hardLinkId ≠ [])).map (·.hardLinkId)).foldl deleteHardLink l.effects.kv
  deleted : ∀ c, c ∈ l'.effects.deleted ++ l'.chunksToDelete ↔
    c ∈ l.effects.deleted ++ l.chunksToDelete ∨ c ∈ (visited.filter (·.hardLinkId = [])).flatMap (·.chunks)

theorem Visited.refl (l : Layer) : Visited [] l l := ⟨rfl, rfl, fun c => by simp⟩

theorem Visited.trans {v v' : List Entry} {l l' l'' : Layer} (h : Visited v l l') (h' : Visited v' l' l'') :
    Visited (v ++ v') l l'' where
  orphans := h'.orphans.trans h.orphans
  kv := by rw [h'.kv, h.kv, filter_append, map_append, foldl_append]
  deleted c := by
    have hmem : ∀ a b : List FileChunk, c ∈ a ++ b ↔ c ∈ a ∨ c ∈ b := fun _ _ => mem_append
    rw [h'.deleted, h.deleted, filter_append, flatMap_append, or_assoc, ← hmem (List.flatMap _ _)]

theorem visited_addFile (hsd : opts.shouldDeleteChunks = true) (l : Layer) (entry : Entry) :
    Visited [entry] l (l.addFile true opts entry) := by
  unfold Layer.addFile
  dsimp only
  rw [hardLinkId_maybeReadHardLink]
  by_cases h : entry.hardLinkId = []
  · rw [if_neg (not_not.2 h), if_pos rfl, ← chunksOf, chunksOf_plain h]
    refine ⟨rfl, ?_, fun c => ?_⟩
    · rw [filter_cons_of_neg (by simpa using h)]
      rfl
    · rw [filter_cons_of_pos (by simpa using h)]
      simp [or_assoc]
  · rw [if_pos h, if_pos hsd]
    refine ⟨rfl, ?_, fun c => ?_⟩
    · rw [filter_cons_of_pos (by simpa using h)]
      rfl
    · rw [filter_cons_of_neg (by simpa using h)]
      simp

theorem visited_batchDelete (hrec : opts.isRecursive = true) (path : List String) (isDeletingBucket : Bool)
    (t : Listing) {v : List Entry} {loop : Layer → Except DeleteErr Layer}
    (hloop : ∀ l, ∃ l', loop l = .ok l' ∧ Visited v l l') (l : Layer) :
    ∃ effects, batchDelete env opts path isDeletingBucket t loop l.effects = .ok effects ∧
      Visited (if isDeletingBucket && env.canDropWholeBucket then [] else v) l { l with effects } := by
  unfold batchDelete
  cases hdrop : isDeletingBucket && env.canDropWholeBucket with
  | true =>
    have hneg : (!isDeletingBucket || !env.canDropWholeBucket) = false := by
      rw [← Bool.not_and, hdrop, Bool.not_true]
    rw [hneg, if_neg Bool.false_ne_true, if_pos rfl]
    exact ⟨l.effects, rfl, .refl l⟩
  | false =>
    have hpos : (!isDeletingBucket || !env.canDropWholeBucket) = true := by
      rw [← Bool.not_and, hdrop, Bool.not_false]
    rw [hpos, if_pos rfl, hrec, Bool.not_true, Bool.false_and, if_neg Bool.false_ne_true,
      if_neg Bool.false_ne_true]
    obtain ⟨l', hl', hv⟩ := hloop { effects := l.effects }
    refine ⟨{ l'.effects with deleted := l'.effects.deleted ++ l'.chunksToDelete }, by rw [hl']; rfl, hv.orphans,
      hv.kv, fun c => ?_⟩
    have hdel := hv.deleted c
    simp only [mem_append] at hdel ⊢
    tauto

/-- **The loop over a directory**, with all that is below it. -/
theorem visited_deleteChildren (hrec : opts.isRecursive = true) (hsd : opts.shouldDeleteChunks = true)
    (hr : Unbroken env opts path) (page : Page) (l : Layer) :
    ∃ l', deleteChildren env opts true path t page l = .ok l' ∧ Visited (t.visited env path) l l' := by
  induction t generalizing path page l with
  | nil => exact ⟨l, rfl, .refl l⟩
  | file name entry rest ih =>
    obtain ⟨l', hl', hv⟩ := ih hr (page.next (rest.length + 1)) (l.addFile true opts entry)
    refine ⟨l', ?_, (visited_addFile hsd l entry).trans hv⟩
    rw [deleteChildren, hr (path ++ [name]) (prefix_append _ _), if_neg Bool.false_ne_true, hl']
  | dir name entry children rest ihc ihr =>
    obtain ⟨effects, heff, hv⟩ := visited_batchDelete hrec (path ++ [name]) (env.isBucket (path ++ [name])) children
      (ihc (hr.append name) {}) l
    obtain ⟨l', hl', hv'⟩ := ihr hr (page.next (rest.length + 1)) { l with effects }
    refine ⟨l', ?_, hv.trans hv'⟩
    rw [deleteChildren, heff]
    exact hl'

/-! ## The tree -/

/-- The entries of what is at a path. -/
def Node.entries : Node → List Entry
  | .file entry => [entry]
  | .dir entry children => { chunks := entry.chunks, mtime := entry.mtime } :: children.entries

theorem find_perm {p : List String} {node : Node} (h : t.find p = some node) :
    t.entries.Perm (node.entries ++ (t.erase p).entries) := by
  induction t generalizing p with
  | nil => cases h
  | file name entry rest ih =>
    cases p with
    | nil => cases h
    | cons n path =>
      rw [find] at h
      rw [erase]
      split at h
      next hname =>
        rw [if_pos hname]
        split at h
        next hpath =>
          rw [if_pos hpath]
          obtain rfl := Option.some.inj h
          exact .refl _
        next => cases h
      next hname =>
        rw [if_neg hname]
        exact ((ih h).cons entry).trans List.perm_middle.symm
  | dir name entry children rest ihc ihr =>
    cases p with
    | nil => cases h
    | cons n path =>
      rw [find] at h
      rw [erase]
      split at h
      next hname =>
        rw [if_pos hname]
        split at h
        next hpath =>
          rw [if_pos hpath]
          obtain rfl := Option.some.inj h
          exact .refl _
        next hpath =>
          rw [if_neg hpath, entries, entries]
          refine (((ihc h).append_right _).cons _).trans ?_
          rw [append_assoc]
          exact List.perm_middle.symm
      next hname =>
        rw [if_neg hname, entries, entries]
        refine (((ihr h).append_left _).cons _).trans ?_
        refine List.Perm.trans ?_ List.perm_middle.symm
        refine List.Perm.cons _ ?_
        rw [← append_assoc, ← append_assoc]
        exact List.perm_append_comm.append_right _

/-! ## Chunks and entries -/

/-- The chunks that entries refer to. -/
def refs (kv : KvStore) (entries : List Entry) : List String :=
  entries.flatMap fun entry => (chunksOf kv entry).map (·.getFileIdString)

theorem mem_refs {entries : List Entry} :
    id ∈ refs kv entries ↔ ∃ entry ∈ entries, id ∈ (chunksOf kv entry).map (·.getFileIdString) := mem_flatMap

/-- Two entries share chunks only as hard links with one id. -/
def Apart (kv : KvStore) (a b : Entry) : Prop :=
  (a.hardLinkId ≠ [] ∧ a.hardLinkId = b.hardLinkId) ∨
    ∀ id ∈ (chunksOf kv a).map (·.getFileIdString), id ∉ (chunksOf kv b).map (·.getFileIdString)

theorem Apart.symm {a b : Entry} (h : Apart kv a b) : Apart kv b a := by
  rcases h with ⟨hne, heq⟩ | h
  · exact .inl ⟨heq ▸ hne, heq.symm⟩
  · exact .inr fun id hb ha => h id ha hb

/-- Chunks are shared only through hard links, and the counter of each is the number of its entries. -/
structure Linked (kv : KvStore) (entries : List Entry) : Prop where
  apart : entries.Pairwise (Apart kv)
  counter : ∀ entry ∈ entries, entry.hardLinkId ≠ [] → ∃ link, kv entry.hardLinkId = some link ∧
    link.counter = entries.countP (·.hardLinkId = entry.hardLinkId)

variable {entries entries' : List Entry}

theorem Linked.perm (h : Linked kv entries) (hp : entries.Perm entries') : Linked kv entries' where
  apart := hp.pairwise h.apart Apart.symm
  counter entry he hne := by
    obtain ⟨link, hkv, hc⟩ := h.counter entry (hp.mem_iff.2 he) hne
    exact ⟨link, hkv, by rw [hc, hp.countP_eq]⟩

variable {removed kept : List Entry}

theorem Linked.chunksOf_kept (h : Linked kv (removed ++ kept)) {ids : List HardLinkId}
    (hids : ∀ id, ids.count id ≤ removed.countP (·.hardLinkId = id)) (he : entry ∈ kept) :
    chunksOf (ids.foldl deleteHardLink kv) entry = chunksOf kv entry := by
  by_cases hplain : entry.hardLinkId = []
  · rw [chunksOf_plain hplain, chunksOf_plain hplain]
  · obtain ⟨link, hkv, hc⟩ := h.counter entry (mem_append_right _ he) hplain
    have hpos : 0 < kept.countP (·.hardLinkId = entry.hardLinkId) :=
      List.countP_pos_iff.2 ⟨entry, he, decide_eq_true rfl⟩
    have hle := hids entry.hardLinkId
    rw [countP_append] at hc
    rw [chunksOf_link hplain hkv, chunksOf_link hplain (foldl_deleteHardLink ids hkv (by omega))]

theorem refs_congr {kv' : KvStore} (h : ∀ entry ∈ kept, chunksOf kv' entry = chunksOf kv entry) :
    refs kv' kept = refs kv kept := flatMap_congr fun entry he => by rw [h entry he]

/-- An entry keeps nothing: it has no chunks, or another entry has its hard link. -/
def Spent (kv : KvStore) (kept : List Entry) (entry : Entry) : Prop :=
  chunksOf kv entry = [] ∨ entry.hardLinkId ≠ [] ∧ ∃ other ∈ kept, other.hardLinkId = entry.hardLinkId

/-- A chunk of a removed entry that still has a reference is that of a hard link. -/
theorem Linked.ref_kept (h : Linked kv (removed ++ kept)) (he : entry ∈ removed)
    (hid : id ∈ (chunksOf kv entry).map (·.getFileIdString)) (hk : id ∈ refs kv kept) :
    entry.hardLinkId ≠ [] ∧ ∃ other ∈ kept, other.hardLinkId = entry.hardLinkId := by
  obtain ⟨other, ho, hido⟩ := mem_refs.1 hk
  rcases (List.pairwise_append.1 h.apart).2.2 entry he other ho with ⟨hne, heq⟩ | hdis
  · exact ⟨hne, other, ho, heq.symm⟩
  · exact absurd hido (hdis id hid)

theorem Linked.ref_of_same (h : Linked kv (removed ++ kept)) {other : Entry} (he : entry ∈ removed)
    (ho : other ∈ kept) (hne : entry.hardLinkId ≠ []) (heq : other.hardLinkId = entry.hardLinkId)
    (hid : id ∈ (chunksOf kv entry).map (·.getFileIdString)) : id ∈ refs kv kept := by
  obtain ⟨link, hkv, -⟩ := h.counter entry (mem_append_left _ he) hne
  rw [chunksOf_link hne hkv] at hid
  refine mem_refs.2 ⟨other, ho, ?_⟩
  rw [chunksOf_link (heq ▸ hne) (heq ▸ hkv)]
  exact hid

/-- **Which chunks have to be deleted.** Those of `plain`, which are no hard links, are; those of `others` are not,
which is right exactly if the others are spent. -/
theorem Linked.deleted_iff {plain others : List Entry} (h : Linked kv ((plain ++ others) ++ kept))
    (hplain : ∀ entry ∈ plain, entry.hardLinkId = []) :
    (∀ id, id ∈ refs kv plain ↔ id ∈ refs kv ((plain ++ others) ++ kept) ∧ id ∉ refs kv kept) ↔
      ∀ entry ∈ others, Spent kv kept entry := by
  have hsub : ∀ {entry id}, entry ∈ plain ++ others → id ∈ (chunksOf kv entry).map (·.getFileIdString) →
      id ∈ refs kv ((plain ++ others) ++ kept) :=
    fun he hid => mem_refs.2 ⟨_, mem_append_left _ he, hid⟩
  constructor
  · intro hall entry he
    by_contra hspent
    rw [Spent, not_or] at hspent
    obtain ⟨c, cs, hc⟩ := exists_cons_of_ne_nil hspent.1
    have hid : c.getFileIdString ∈ (chunksOf kv entry).map (·.getFileIdString) := by
      rw [hc]
      exact mem_cons_self
    have hmem := mem_append_right plain he
    have hgone : c.getFileIdString ∉ refs kv kept := fun hk => hspent.2 (h.ref_kept hmem hid hk)
    -- so it is deleted, but the entries whose chunks are deleted do not have it
    obtain ⟨p, hp, hidp⟩ := mem_refs.1 ((hall _).2 ⟨hsub hmem hid, hgone⟩)
    have hcross := (List.pairwise_append.1 (List.pairwise_append.1 h.apart).1).2.2 p hp entry he
    rcases hcross with ⟨hne, -⟩ | hdis
    · exact hne (hplain p hp)
    · exact hdis _ hidp hid
  · intro hall id
    constructor
    · intro hid
      obtain ⟨p, hp, hidp⟩ := mem_refs.1 hid
      refine ⟨hsub (mem_append_left _ hp) hidp, fun hk => ?_⟩
      exact (h.ref_kept (mem_append_left _ hp) hidp hk).1 (hplain p hp)
    · rintro ⟨hid, hgone⟩
      obtain ⟨entry, he, hide⟩ := mem_refs.1 hid
      rcases List.mem_append.1 he with he | he
      · rcases List.mem_append.1 he with he | he
        · exact mem_refs.2 ⟨entry, he, hide⟩
        · rcases hall entry he with hnil | ⟨hne, other, ho, heq⟩
          · rw [hnil] at hide
            cases hide
          · exact absurd (h.ref_of_same (mem_append_right _ he) ho hne heq hide) hgone
      · exact absurd (mem_refs.2 ⟨entry, he, hide⟩) hgone

/-! ## The result -/

theorem Listing.visited_sublist (env : FilerEnv) (path : List String) (t : Listing) :
    (t.visited env path).Sublist t.entries := by
  induction t generalizing path with
  | nil => exact .slnil
  | file name entry rest ih => exact (ih path).cons_cons entry
  | dir name entry children rest ihc ihr =>
    refine List.Sublist.cons _ (List.Sublist.append ?_ (ihr path))
    split
    · exact nil_sublist _
    · exact ihc _

theorem Listing.count_links_le (env : FilerEnv) (path : List String) (t : Listing) (id : HardLinkId) :
    (t.links env path).count id ≤ t.entries.countP (·.hardLinkId = id) := by
  have hsub : ((t.visited env path).filter (·.hardLinkId ≠ [])).Sublist t.entries :=
    List.filter_sublist.trans (t.visited_sublist env path)
  have hp : ((· == id) ∘ fun e : Entry => e.hardLinkId) = fun e => decide (e.hardLinkId = id) := by
    funext e
    rw [Function.comp_apply, Bool.eq_iff_iff, beq_iff_eq, decide_eq_true_eq]
  rw [links, count_eq_countP, countP_map, hp]
  exact hsub.countP_le

theorem refs_perm (h : entries.Perm entries') : id ∈ refs kv entries ↔ id ∈ refs kv entries' := by
  rw [mem_refs, mem_refs]
  simp only [h.mem_iff]

theorem refs_plain {plain : List Entry} (h : ∀ entry ∈ plain, entry.hardLinkId = []) :
    refs kv plain = (plain.flatMap (·.chunks)).map (·.getFileIdString) := by
  rw [refs, map_flatMap]
  exact flatMap_congr fun entry he => by rw [chunksOf_plain (h entry he)]

variable {store : FilerStore} {p : List String} {d : Deleted}

/-- The chunks that are deleted are those without a reference. -/
def DeletesUnreferenced (store : FilerStore) (d : Deleted) : Prop :=
  ∀ id, id ∈ d.effects.deleted.map (·.getFileIdString) ↔
    id ∈ refs store.kv store.root.entries ∧ id ∉ refs d.effects.kv (d.root.entries ++ d.effects.orphans)

theorem delete_file (hfind : store.root.find p = some (.file entry))
    (hlinked : Linked store.kv store.root.entries) : DeletesUnreferenced store ⟨store.root.erase p,
      { kv := if entry.hardLinkId ≠ [] then deleteHardLink store.kv entry.hardLinkId else store.kv
        deleted := if entry.hardLinkId ≠ [] ∧ 1 < (maybeReadHardLink store.kv entry).hardLinkCounter then []
          else chunksOf store.kv entry }⟩ := by
  have hperm := find_perm hfind
  have hlinked := hlinked.perm hperm
  intro id
  rw [refs_perm hperm, append_nil]
  by_cases hplain : entry.hardLinkId = []
  · have hnot : ¬ (entry.hardLinkId ≠ []) := not_not.2 hplain
    have hall : ∀ e ∈ [entry], e.hardLinkId = [] := forall_mem_singleton.2 hplain
    rw [if_neg hnot, if_neg fun h => hnot h.1]
    refine Iff.trans ?_ ((hlinked.deleted_iff hall).2 nofun id)
    rw [refs, flatMap_singleton]
  · obtain ⟨link, hkv, hcount⟩ := hlinked.counter entry mem_cons_self hplain
    have hcounter : (maybeReadHardLink store.kv entry).hardLinkCounter =
        (store.root.erase p).entries.countP (·.hardLinkId = entry.hardLinkId) + 1 := by
      rw [maybeReadHardLink, if_neg hplain, hkv]
      show link.counter = _
      rw [hcount]
      simp [Node.entries]
    have hkept : refs (deleteHardLink store.kv entry.hardLinkId) (store.root.erase p).entries =
        refs store.kv (store.root.erase p).entries := by
      have hone : deleteHardLink store.kv entry.hardLinkId = [entry.hardLinkId].foldl deleteHardLink store.kv := rfl
      rw [hone]
      refine refs_congr fun other ho => hlinked.chunksOf_kept (fun id => ?_) ho
      simp [Node.entries, count_singleton]
    rw [if_pos hplain, hkept]
    by_cases hmany : 1 < (maybeReadHardLink store.kv entry).hardLinkCounter
    · -- another entry has the hard link
      have hpos : 0 < (store.root.erase p).entries.countP (·.hardLinkId = entry.hardLinkId) := by omega
      obtain ⟨other, ho, heq⟩ := List.countP_pos_iff.1 hpos
      rw [if_pos ⟨hplain, hmany⟩]
      have hlinked : Linked store.kv (([] ++ [entry]) ++ (store.root.erase p).entries) := hlinked
      exact (hlinked.deleted_iff nofun).2 (forall_mem_singleton.2 (.inr ⟨hplain, other, ho, of_decide_eq_true heq⟩)) id
    · rw [if_neg fun h => hmany h.2]
      constructor
      · intro hid
        refine ⟨mem_refs.2 ⟨entry, mem_cons_self, hid⟩, fun hk => hmany ?_⟩
        obtain ⟨-, other, ho, heq⟩ := hlinked.ref_kept mem_cons_self hid hk
        have hpos : 0 < (store.root.erase p).entries.countP (·.hardLinkId = entry.hardLinkId) :=
          List.countP_pos_iff.2 ⟨other, ho, decide_eq_true heq⟩
        omega
      · rintro ⟨hid, hgone⟩
        obtain ⟨e, he, hide⟩ := mem_refs.1 hid
        rcases List.mem_cons.1 he with rfl | he
        · exact hide
        · exact absurd (mem_refs.2 ⟨e, he, hide⟩) hgone

theorem delete_dir {entry : DirEntry} {children : Listing} {effects : Deletion}
    (hfind : store.root.find p = some (.dir entry children)) (hlinked : Linked store.kv store.root.entries)
    (hv : Visited (children.visited env p) { effects := { kv := store.kv } } { effects }) :
    DeletesUnreferenced store ⟨store.root.erase p, { effects with deleted := effects.deleted ++ entry.chunks }⟩ ↔
      ∀ e ∈ children.left env p, Spent store.kv (store.root.erase p).entries e := by
  have hperm : store.root.entries.Perm
      ((({ chunks := entry.chunks, mtime := entry.mtime } :: children.passed env p) ++ children.left env p) ++
        (store.root.erase p).entries) :=
    (find_perm hfind).trans (((children.entries_perm env p).cons _).append_right _)
  have hplain : ∀ e ∈ ({ chunks := entry.chunks, mtime := entry.mtime } :: children.passed env p : List Entry),
      e.hardLinkId = [] := by
    intro e he
    cases he with
    | head => rfl
    | tail _ he => exact of_decide_eq_true (List.mem_filter.1 he).2
  rw [← (hlinked.perm hperm).deleted_iff hplain]
  have hlinked' := hlinked.perm (find_perm hfind)
  have hkept : refs effects.kv (store.root.erase p).entries = refs store.kv (store.root.erase p).entries := by
    refine refs_congr fun other ho => ?_
    rw [hv.kv]
    refine hlinked'.chunksOf_kept (fun id => ?_) ho
    exact (children.count_links_le env p id).trans ((sublist_cons_self _ _).countP_le)
  have hdel : ∀ id, id ∈ (effects.deleted ++ entry.chunks).map (·.getFileIdString) ↔
      id ∈ refs store.kv ({ chunks := entry.chunks, mtime := entry.mtime } :: children.passed env p) := by
    intro id
    rw [refs_plain hplain, mem_map, mem_map]
    refine exists_congr fun c => and_congr_left fun _ => ?_
    have hc := hv.deleted c
    simp only [append_nil, not_mem_nil, false_or] at hc
    rw [mem_append, hc, flatMap_cons, mem_append, or_comm]
    rfl
  refine forall_congr' fun id => ?_
  rw [hdel, refs_perm hperm, hv.orphans, append_nil, hkept]

/-- **Deleting a file or a directory.** The chunks passed to `DeleteChunks` are those that no remaining entry refers
to, exactly if nothing with chunks is left out: no hard link with all its entries inside, no directory below with
chunks, no bucket that the store drops. -/
theorem deleteEntryMetaAndData_unreferenced (hrec : opts.isRecursive = true) (hsd : opts.shouldDeleteChunks = true)
    (hremote : Unbroken env opts p)
    (hbucket : ∀ entry children, store.root.find p = some (.dir entry children) → env.isBucket p = false)
    (hlinked : Linked store.kv store.root.entries) (h : deleteEntryMetaAndData env opts store p = .ok d) :
    DeletesUnreferenced store d ↔
      ∀ entry children, store.root.find p = some (.dir entry children) →
        ¬ (0 < opts.ifNotModifiedAfter ∧ opts.ifNotModifiedAfter < entry.mtime) →
        ∀ e ∈ children.left env p, Spent store.kv (store.root.erase p).entries e := by
  have hnothing : DeletesUnreferenced store ⟨store.root, { kv := store.kv }⟩ := by
    intro id
    dsimp only
    rw [append_nil]
    exact ⟨nofun, fun h => absurd h.1 h.2⟩
  unfold deleteEntryMetaAndData at h
  split at h
  next hroot =>
    obtain rfl := ok.inj h
    refine iff_of_true hnothing fun entry children hfind => ?_
    rw [hroot] at hfind
    cases hr : store.root <;> rw [hr] at hfind <;> cases hfind
  next =>
    split at h
    next => cases h
    next node hnode =>
      rw [hnode]
      split at h
      next hskip =>
        obtain rfl := ok.inj h
        refine iff_of_true hnothing fun entry children hfind hno => ?_
        obtain rfl := Option.some.inj hfind
        exact absurd hskip hno
      next hnoskip =>
        split at h
        next entry children =>
          have hb := hbucket entry children hnode
          obtain ⟨effects, heff, hv⟩ := visited_batchDelete hrec p false children
            (visited_deleteChildren hrec hsd hremote {}) { effects := { kv := store.kv } }
          dsimp only at h
          rw [hb, hsd, Bool.not_false, Bool.and_true] at h
          rw [heff] at h
          obtain ⟨effects', heq, h⟩ := bind_eq_ok.1 h
          obtain rfl := ok.inj heq
          split at h
          next => cases h
          next =>
            obtain rfl := ok.inj h
            rw [if_pos rfl]
            refine (delete_dir hnode hlinked hv).trans ⟨fun hall entry' children' hfind _ => ?_, fun hall => ?_⟩
            · obtain ⟨rfl, rfl⟩ := Node.dir.inj (Option.some.inj hfind)
              exact hall
            · exact hall entry children rfl hnoskip
        next entry =>
          dsimp only at h
          split at h
          next => cases h
          next =>
            obtain rfl := ok.inj h
            rw [hardLinkId_maybeReadHardLink, hsd, Bool.not_true, if_neg Bool.false_ne_true]
            exact iff_of_true (delete_file hnode hlinked) fun _ _ hfind => nomatch Option.some.inj hfind

/-- A hard link with two entries, one of them outside of the directory. -/
def linkedOutside : FilerStore where
  root := .file "a" { hardLinkId := [1], hardLinkCounter := 2 }
    (.dir "d" {} (.file "b" { hardLinkId := [1], hardLinkCounter := 2 }
      (.file "c" { chunks := [.data "3,02" 0 4 1] } .nil)) .nil)
  kv := fun id => if id = [1] then some ⟨[.data "3,01" 0 4 1], 2⟩ else none

/-- A hard link with its only entry in the directory. -/
def linkedInside : FilerStore where
  root := .dir "d" {} (.file "b" { hardLinkId := [1], hardLinkCounter := 1 } .nil) .nil
  kv := fun id => if id = [1] then some ⟨[.data "3,01" 0 4 1], 1⟩ else none

/-- A filer that keeps its buckets in `/buckets`. -/
def FilerEnv.plain : FilerEnv := ⟨["buckets"], false, fun _ => false⟩

theorem unbroken_plain (opts : DeleteOptions) (p : List String) : Unbroken .plain opts p := fun _ _ => by
  show (!opts.isFromOtherCluster && false && !opts.ignoreRecursiveError) = false
  rw [Bool.and_false, Bool.false_and]

theorem linked_linkedOutside : Linked linkedOutside.kv linkedOutside.root.entries := by
  refine ⟨?_, ?_⟩
  · unfold Apart
    decide
  · intro entry he hne
    have hid : entry.hardLinkId = [1] := by
      revert entry
      decide
    rw [hid]
    exact ⟨_, rfl, by decide⟩

theorem linked_linkedInside : Linked linkedInside.kv linkedInside.root.entries := by
  refine ⟨?_, ?_⟩
  · unfold Apart
    decide
  · intro entry he hne
    have hid : entry.hardLinkId = [1] := by
      revert entry
      decide
    rw [hid]
    exact ⟨_, rfl, by decide⟩

/-- The chunk of the file without a hard link is deleted. -/
theorem deleteEntryMetaAndData_unreferenced_outside :
    ∃ d, deleteEntryMetaAndData .plain ⟨true, false, true, false, 0⟩ linkedOutside ["d"] = .ok d ∧
      DeletesUnreferenced linkedOutside d := by
  have hok : ∃ d, deleteEntryMetaAndData .plain ⟨true, false, true, false, 0⟩ linkedOutside ["d"] = .ok d :=
    ⟨_, rfl⟩
  obtain ⟨d, hok⟩ := hok
  have hbucket : FilerEnv.plain.isBucket ["d"] = false := by decide
  refine ⟨d, hok, (deleteEntryMetaAndData_unreferenced rfl rfl (unbroken_plain _ _) (fun _ _ _ => hbucket)
    linked_linkedOutside hok).2 fun entry children hfind _ e he => ?_⟩
  obtain ⟨rfl, rfl⟩ := Node.dir.inj (Option.some.inj hfind)
  obtain rfl := List.mem_singleton.1 he
  exact .inr ⟨by decide, _, mem_cons_self, rfl⟩

/-- **The last hard link in a deleted directory**: its chunk is not deleted, although nothing refers to it any
more. -/
theorem deleteEntryMetaAndData_leaves_chunk :
    Linked linkedInside.kv linkedInside.root.entries ∧
      ∃ d, deleteEntryMetaAndData .plain ⟨true, false, true, false, 0⟩ linkedInside ["d"] = .ok d ∧
        d.effects.deleted = [] ∧ ¬ DeletesUnreferenced linkedInside d := by
  have hok : ∃ d, deleteEntryMetaAndData .plain ⟨true, false, true, false, 0⟩ linkedInside ["d"] = .ok d ∧
      d.root.entries ++ d.effects.orphans = [] ∧ d.effects.deleted = [] := ⟨_, rfl, rfl, rfl⟩
  obtain ⟨d, hok, hnone, hdeleted⟩ := hok
  refine ⟨linked_linkedInside, d, hok, hdeleted, fun h => ?_⟩
  have hlost := (h "3,01").2 ⟨by decide, by rw [hnone]; exact nofun⟩
  rw [hdeleted] at hlost
  cases hlost

end Filer
