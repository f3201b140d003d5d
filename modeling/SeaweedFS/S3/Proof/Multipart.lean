import SeaweedFS.S3.Multipart
import SeaweedFS.Lib.Simulation

/-!
# What a completed upload is made of

An entry of the upload directory is taken once for each requested part with its number and its ETag (`times`). Of the
entries of a number the first one in the order of the sort is used, and all others are removed (`foldlM_addPart`),
also one that was taken twice.
-/

namespace S3

open Util Lib List Assembly Except Function Option
open Filer (int64 uint64 maxInt64)

variable {d : Digest} {S : SortFunc Entry} {parts : List CompletedPart} {entries stored : List Entry}
  {r : Requested} {n : Int} {e : Entry}

/-! ## The requested parts -/

/-- The parts of number `n`. -/
def eTagsOf (parts : List CompletedPart) (n : Int) : List Str :=
  (parts.filter (·.partNumber = n)).map (·.eTag)

theorem eTagsOf_cons (part : CompletedPart) (parts : List CompletedPart) (n : Int) :
    eTagsOf (part :: parts) n = if part.partNumber = n then part.eTag :: eTagsOf parts n else eTagsOf parts n := by
  unfold eTagsOf
  rw [filter_cons]
  by_cases h : part.partNumber = n
  · rw [if_pos h, if_pos (decide_eq_true h), map_cons]
  · rw [if_neg h, if_neg (by simpa using h)]

/-- The numbers so far are the keys of the map, each once. -/
structure Requested.Ok (r : Requested) : Prop where
  nodup : r.completedPartNumbers.Nodup
  mem : ∀ n, n ∈ r.completedPartNumbers ↔ r.completedPartMap n ≠ []

theorem Requested.Ok.add (h : r.Ok) (part : CompletedPart) : (r.add part).Ok := by
  constructor
  · show (if _ then _ else _ : List Int).Nodup
    split
    next hnew =>
      rw [nodup_append]
      refine ⟨h.nodup, nodup_singleton _, fun a ha b hb => ?_⟩
      rintro rfl
      rw [List.mem_singleton.1 hb] at ha
      exact (h.mem _).1 ha hnew
    next => exact h.nodup
  · intro n
    show n ∈ (if _ then _ else _ : List Int) ↔ update r.completedPartMap _ _ n ≠ []
    by_cases hn : n = part.partNumber
    · rw [hn, update_self]
      refine iff_of_true ?_ (by simp)
      split
      next => exact mem_append_right _ (List.mem_singleton.2 rfl)
      next hne => exact (h.mem _).2 hne
    · rw [update_of_ne hn, ← h.mem n]
      split
      next => rw [mem_append, mem_singleton, or_iff_left hn]
      next => exact Iff.rfl

theorem foldl_add (parts : List CompletedPart) (h : r.Ok) : (parts.foldl Requested.add r).Ok ∧
      ∀ n, (parts.foldl Requested.add r).completedPartMap n = r.completedPartMap n ++ eTagsOf parts n := by
  induction parts generalizing r with
  | nil => exact ⟨h, fun n => (append_nil _).symm⟩
  | cons part parts ih =>
    obtain ⟨hok, hmap⟩ := ih (h.add part)
    refine ⟨hok, fun n => ?_⟩
    rw [foldl_cons, hmap, eTagsOf_cons]
    show update r.completedPartMap _ _ n ++ _ = _
    by_cases hn : part.partNumber = n
    · rw [hn, update_self, if_pos rfl, append_assoc, singleton_append]
    · rw [update_of_ne (Ne.symm hn), if_neg hn]

theorem requested_map (parts : List CompletedPart) : (requested parts).completedPartMap = eTagsOf parts := by
  have hempty : Requested.Ok {} := ⟨nodup_nil, fun n => by simp⟩
  funext n
  exact (foldl_add parts hempty).2 n

/-- **The numbers, each once and in ascending order.** -/
theorem requested_numbers (parts : List CompletedPart) :
    (requested parts).completedPartNumbers.Pairwise (· < ·) ∧
      ∀ n, n ∈ (requested parts).completedPartNumbers ↔ ∃ part ∈ parts, part.partNumber = n := by
  have hempty : Requested.Ok {} := ⟨nodup_nil, fun n => by simp⟩
  obtain ⟨hok, hmap⟩ := foldl_add parts hempty
  have hperm := perm_insertionSort (· ≤ ·) (parts.foldl Requested.add {}).completedPartNumbers
  constructor
  · have hle := pairwise_insertionSort (· ≤ ·) (parts.foldl Requested.add {}).completedPartNumbers
    have hne : ((parts.foldl Requested.add {}).completedPartNumbers.insertionSort (· ≤ ·)).Nodup :=
      hperm.nodup_iff.2 hok.nodup
    exact (hle.and hne).imp fun h => lt_of_le_of_ne h.1 h.2
  · intro n
    show n ∈ List.insertionSort _ _ ↔ _
    rw [hperm.mem_iff, hok.mem, hmap]
    simp [eTagsOf]

/-! ## The stored parts -/

/-- The part number of an entry, if it is a part. -/
def partNumber? (e : Entry) : Option Int :=
  if e.isDirectory ∨ ¬ multipartExt <:+ e.name then none else parsePartNumber e.name

/-- The ETag that is requested is that of the entry. -/
def Matches (d : Digest) (e : Entry) (partETag : Str) : Bool := (validateCompletePartETag d partETag e).isMatch

/-- The entry is taken for an ETag of number `n`. -/
def takes (d : Digest) (r : Requested) (n : Int) (e : Entry) (partETag : Str) : Bool :=
  Matches d e partETag && !(e.chunks = [] ∧ n ≠ r.maxPartNo)

/-- How often the entry is taken for number `n`. -/
def times (d : Digest) (r : Requested) (n : Int) (e : Entry) : Nat := (r.completedPartMap n).countP (takes d r n e)

/-- The entry as often as it is taken. -/
def copies (d : Digest) (r : Requested) (n : Int) (e : Entry) : List Entry :=
  if partNumber? e = some n then List.replicate (times d r n e) e else []

/-- A part with a requested number that is never taken. -/
def unused (d : Digest) (r : Requested) (e : Entry) : Bool :=
  match partNumber? e with
  | none => false
  | some n => r.completedPartMap n ≠ [] ∧ times d r n e = 0

theorem not_matches_of_invalid {partETag : Str} (h : (validateCompletePartETag d partETag e).invalid) :
    Matches d e partETag = false := by
  unfold Matches
  unfold validateCompletePartETag at h ⊢
  dsimp only at h ⊢
  split
  · rfl
  next hpart =>
    rw [if_neg hpart] at h
    split
    · rfl
    next hentry =>
      rw [if_neg hentry] at h
      cases h

theorem matchETags_eq (etags : List Str) (l : List Entry) (b : Bool) :
    matchETags d n r.maxPartNo e etags (l, b) =
      (l ++ List.replicate (etags.countP (takes d r n e)) e, b || 0 < etags.countP (takes d r n e)) := by
  induction etags generalizing l b with
  | nil => simp [matchETags]
  | cons etag etags ih =>
    rw [matchETags, countP_cons]
    split
    next hinv =>
      have hno : takes d r n e etag = false := by rw [takes, not_matches_of_invalid hinv, Bool.false_and]
      rw [ih, hno]
      simp
    next =>
      split
      next hmatch =>
        have hno : takes d r n e etag = false := by
          rw [takes, Matches, Bool.not_eq_eq_eq_not.1 hmatch, Bool.not_true, Bool.false_and]
        rw [ih, hno]
        simp
      next hmatch =>
        have hyes : Matches d e etag = true := by simpa [Matches] using hmatch
        split
        next hempty =>
          have hno : takes d r n e etag = false := by
            rw [takes, hyes, Bool.true_and, Bool.not_eq_false', decide_eq_true_eq]
            exact hempty
          rw [ih, hno]
          simp
        next hne =>
          have htakes : takes d r n e etag = true := by
            rw [takes, hyes, Bool.true_and, Bool.not_eq_true', decide_eq_false_iff_not]
            exact hne
          rw [ih, htakes, if_pos rfl, append_assoc, singleton_append, ← replicate_succ]
          simp

/-- **One entry.** -/
theorem addEntry_ok {c c' : Collected} (h : c.addEntry d r e = .ok c') :
    (∀ n, c'.partEntries n = c.partEntries n ++ copies d r n e) ∧
      c'.deleteEntries = c.deleteEntries ++ if unused d r e then [e] else [] := by
  have hsame : unused d r e = false → (∀ n, times d r n e = 0 ∨ partNumber? e ≠ some n) → c' = c →
      (∀ n, c'.partEntries n = c.partEntries n ++ copies d r n e) ∧
        c'.deleteEntries = c.deleteEntries ++ if unused d r e then [e] else [] := by
    intro hunused hno heq
    rw [heq, hunused, if_neg Bool.false_ne_true, append_nil]
    refine ⟨fun n => ?_, rfl⟩
    rcases hno n with h0 | hne
    · rw [copies, h0, replicate_zero, ite_self, append_nil]
    · rw [copies, if_neg hne, append_nil]
  unfold Collected.addEntry at h
  split at h
  next hskip =>
    have hnone : partNumber? e = none := if_pos hskip
    exact hsame (by rw [unused, hnone]) (fun n => .inr (by rw [hnone]; exact nofun)) (ok.inj h).symm
  next hpart =>
    have hnum : partNumber? e = parsePartNumber e.name := if_neg hpart
    split at h
    next hnone =>
      rw [← hnum] at hnone
      exact hsame (by rw [unused, hnone]) (fun n => .inr (by rw [hnone]; exact nofun)) (ok.inj h).symm
    next m hm =>
      rw [← hnum] at hm
      split at h
      next hempty =>
        refine hsame (by rw [unused, hm]; simp [hempty]) (fun n => ?_) (ok.inj h).symm
        by_cases hn : n = m
        · exact .inl (by rw [times, hn, hempty, countP_nil])
        · exact .inr (by rw [hm]; exact fun heq => hn (some.inj heq).symm)
      next hne =>
        rw [matchETags_eq] at h
        dsimp only at h
        split at h
        next hfound =>
          obtain ⟨small, -, h⟩ := bind_eq_ok.1 h
          obtain rfl := ok.inj h
          have htimes : times d r m e ≠ 0 := Nat.pos_iff_ne_zero.1 (of_decide_eq_true hfound)
          have hunused : unused d r e = false := by
            rw [unused, hm]
            exact decide_eq_false fun hu => htimes hu.2
          rw [hunused, if_neg Bool.false_ne_true, append_nil]
          refine ⟨fun n => ?_, rfl⟩
          show update c.partEntries m _ n = _
          by_cases hn : n = m
          · rw [hn, update_self, copies, if_pos hm]
            rfl
          · rw [update_of_ne hn, copies, if_neg (by rw [hm]; exact fun heq => hn (some.inj heq).symm),
              append_nil]
        next hfound =>
          obtain rfl := ok.inj h
          have htimes : times d r m e = 0 := Nat.eq_zero_of_not_pos fun hpos => hfound (decide_eq_true hpos)
          have hunused : unused d r e = true := by
            rw [unused, hm]
            exact decide_eq_true ⟨hne, htimes⟩
          rw [hunused, if_pos rfl]
          refine ⟨fun n => ?_, rfl⟩
          by_cases hn : n = m
          · rw [copies, hn, htimes, replicate_zero, ite_self, append_nil]
          · rw [copies, if_neg (by rw [hm]; exact fun heq => hn (some.inj heq).symm), append_nil]

/-- **The loop over the entries.** -/
theorem foldlM_addEntry {c c' : Collected} (h : entries.foldlM (Collected.addEntry d r) c = .ok c') :
    (∀ n, c'.partEntries n = c.partEntries n ++ entries.flatMap (copies d r n)) ∧
      c'.deleteEntries = c.deleteEntries ++ entries.filter (unused d r) := by
  induction entries generalizing c with
  | nil =>
    obtain rfl := ok.inj h
    exact ⟨fun n => (append_nil _).symm, (append_nil _).symm⟩
  | cons e entries ih =>
    obtain ⟨c1, h1, h⟩ := bind_eq_ok.1 h
    obtain ⟨hparts, hdel⟩ := addEntry_ok h1
    obtain ⟨hparts', hdel'⟩ := ih h
    constructor
    · intro n
      rw [hparts', hparts, flatMap_cons, append_assoc]
    · rw [hdel', hdel, append_assoc, filter_cons]
      split <;> rfl

/-! ## The assembly -/

/-- The chunks as they are added from `offset` on. -/
def placed : Int → List Chunk → List Chunk
  | _, [] => []
  | offset, c :: cs => { c with offset, isChunkManifest := false } :: placed (int64 (offset + int64 c.size)) cs

/-- The offset after the chunks. -/
def advance (offset : Int) (cs : List Chunk) : Int := cs.foldl (fun o c => int64 (o + int64 c.size)) offset

theorem placed_append (offset : Int) (cs cs' : List Chunk) :
    placed offset (cs ++ cs') = placed offset cs ++ placed (advance offset cs) cs' := by
  induction cs generalizing offset with
  | nil => rfl
  | cons c cs ih =>
    rw [cons_append, placed, ih]
    rfl

theorem foldl_addChunk (cs : List Chunk) (a : Assembly) : cs.foldl Assembly.addChunk a =
      { a with finalParts := a.finalParts ++ placed a.offset cs, offset := advance a.offset cs } := by
  induction cs generalizing a with
  | nil =>
    show a = { a with finalParts := a.finalParts ++ [] }
    rw [append_nil]
  | cons c cs ih =>
    rw [foldl_cons, ih]
    simp only [addChunk, append_assoc]
    rfl

theorem foldl_addEntry_found (others : List Entry) (a : Assembly) :
    others.foldl (Assembly.addEntry d n) (a, true) =
      ({ a with deleteEntries := a.deleteEntries ++ others }, true) := by
  induction others generalizing a with
  | nil =>
    show (a, true) = ({ a with deleteEntries := a.deleteEntries ++ [] }, true)
    rw [append_nil]
  | cons e others ih =>
    show others.foldl _ ({ a with deleteEntries := a.deleteEntries ++ [e] }, true) = _
    rw [ih, append_assoc, singleton_append]

/-- **One part**: the chunks of the first entry are added, the other entries are to be deleted. -/
theorem addPart_ok {a a' : Assembly} (h : a.addPart d S n = .ok a') :
    ∃ e others, sortEntries S (a.partEntries n) = e :: others ∧
      a'.finalParts = a.finalParts ++ placed a.offset e.chunks ∧ a'.offset = advance a.offset e.chunks ∧
      a'.deleteEntries = a.deleteEntries ++ others ∧ ∀ m, m ≠ n → a'.partEntries m = a.partEntries m := by
  unfold addPart at h
  split at h
  next => cases h
  next hne =>
    obtain rfl := ok.inj h
    have hsorted : sortEntries S (a.partEntries n) ≠ [] := by
      unfold sortEntries
      split
      · exact fun hnil => hne (List.nil_perm.1 (hnil ▸ S.perm _ _))
      · exact hne
    obtain ⟨e, others, hcons⟩ := exists_cons_of_ne_nil hsorted
    refine ⟨e, others, hcons, ?_⟩
    rw [hcons, foldl_cons]
    have hfirst : addEntry d n ({ a with partEntries := update a.partEntries n (e :: others) }, false) e =
        ({ e.chunks.foldl addChunk { a with partEntries := update a.partEntries n (e :: others) } with
            partBoundaries := a.partBoundaries ++ [⟨n, a.finalParts.length,
              (a.finalParts ++ placed a.offset e.chunks).length, eTag d e⟩] }, true) := by
      unfold addEntry
      dsimp only
      rw [foldl_addChunk]
      rfl
    rw [hfirst, foldl_addChunk, foldl_addEntry_found]
    exact ⟨rfl, rfl, rfl, fun m hm => update_of_ne hm _ _⟩

/-- The chunks of the entry that is used for a number. -/
def chosenChunks (sorted : Int → List Entry) (n : Int) : List Chunk := ((sorted n).head?.map (·.chunks)).getD []

/-- **The loop over the part numbers.** -/
theorem foldlM_addPart {numbers : List Int} (hnodup : numbers.Nodup) {a a' : Assembly} {sorted : Int → List Entry}
    (hsorted : ∀ n ∈ numbers, sorted n = sortEntries S (a.partEntries n))
    (h : numbers.foldlM (Assembly.addPart d S) a = .ok a') : (∀ n ∈ numbers, sorted n ≠ []) ∧
      a'.finalParts = a.finalParts ++ placed a.offset (numbers.flatMap (chosenChunks sorted)) ∧
      a'.deleteEntries = a.deleteEntries ++ numbers.flatMap fun n => (sorted n).tail := by
  induction numbers generalizing a with
  | nil =>
    obtain rfl := ok.inj h
    exact ⟨nofun, (append_nil _).symm, (append_nil _).symm⟩
  | cons n numbers ih =>
    obtain ⟨hn, hnodup⟩ := List.nodup_cons.1 hnodup
    obtain ⟨a1, h1, h⟩ := bind_eq_ok.1 h
    obtain ⟨e, others, hcons, hfinal, hoffset, hdel, hsame⟩ := addPart_ok h1
    rw [← hsorted n mem_cons_self] at hcons
    have hrest : ∀ m ∈ numbers, sorted m = sortEntries S (a1.partEntries m) := by
      intro m hm
      have hne : m ≠ n := fun heq => hn (heq ▸ hm)
      rw [hsorted m (.tail _ hm), hsame m hne]
    obtain ⟨hall, hfinal', hdel'⟩ := ih hnodup hrest h
    have hchunks : chosenChunks sorted n = e.chunks := by
      rw [chosenChunks, hcons]
      rfl
    refine ⟨fun m hm => ?_, ?_, ?_⟩
    · cases hm with
      | head => exact hcons ▸ cons_ne_nil _ _
      | tail _ hm => exact hall m hm
    · rw [hfinal', hfinal, hoffset, flatMap_cons, hchunks, placed_append, append_assoc]
    · rw [hdel', hdel, flatMap_cons, hcons, tail_cons, append_assoc]

/-! ## A completed upload -/

/-- The entries of a number as `completeMultipartUpload` sorts them, each as often as it was taken. -/
def sortedParts (d : Digest) (S : SortFunc Entry) (parts : List CompletedPart) (entries : List Entry) (n : Int) :
    List Entry :=
  sortEntries S (entries.flatMap (copies d (requested parts) n))

/-- The entries that are removed with their data. -/
def deleted (d : Digest) (S : SortFunc Entry) (parts : List CompletedPart) (entries : List Entry) : List Entry :=
  entries.filter (unused d (requested parts)) ++
    (requested parts).completedPartNumbers.flatMap fun n => (sortedParts d S parts entries n).tail

/-- The chunks that the object is made of. -/
def usedChunks (d : Digest) (S : SortFunc Entry) (parts : List CompletedPart) (entries : List Entry) : List Chunk :=
  (requested parts).completedPartNumbers.flatMap (chosenChunks (sortedParts d S parts entries))

theorem completeMultipartUpload_created {store : Store} {input : Input} {object : Object}
    {rms : List DeleteEntryRequest} {versionId : Option Str}
    (h : completeMultipartUpload d S store input parts = .ok (.created object rms versionId)) :
    ∃ stored, store.stored = some stored ∧ (∀ n ∈ (requested parts).completedPartNumbers,
        sortedParts d S parts (stored.take (maxS3MultipartParts + 1)) n ≠ []) ∧
      object.chunks = placed 0 (usedChunks d S parts (stored.take (maxS3MultipartParts + 1))) ∧
      rms = removals input (deleted d S parts (stored.take (maxS3MultipartParts + 1))) := by
  unfold completeMultipartUpload at h
  split at h
  next => cases h
  next =>
    split at h
    next => cases h
    next =>
      split at h
      next =>
        split at h
        next => cases h
        next => cases h
      next => cases h
    next entries _ hlist =>
      obtain ⟨stored, hstored, rfl⟩ := Option.map_eq_some_iff.1 hlist
      refine ⟨stored, hstored, ?_⟩
      split at h
      next => cases h
      next pentry _ =>
        obtain ⟨c, hc, h⟩ := bind_eq_ok.1 h
        split at h
        next => cases h
        next =>
          split at h
          next => cases h
          next attributes _ =>
            obtain ⟨a, ha, h⟩ := bind_eq_ok.1 h
            split at h
            next => cases h
            next =>
              obtain ⟨rfl, rfl, rfl⟩ := Completion.created.inj (Except.ok.inj h)
              obtain ⟨hparts, hdel⟩ := foldlM_addEntry hc
              have hnodup := (requested_numbers parts).1.imp fun {a b} (hlt : a < b) => ne_of_lt hlt
              have hsorted : ∀ n ∈ (requested parts).completedPartNumbers,
                  sortedParts d S parts (stored.take (maxS3MultipartParts + 1)) n =
                    sortEntries S (c.partEntries n) := by
                intro n _
                rw [hparts n, nil_append]
                rfl
              obtain ⟨hall, hfinal, hdel'⟩ := foldlM_addPart hnodup hsorted ha
              refine ⟨hall, hfinal.trans (nil_append _), ?_⟩
              rw [hdel', hdel, nil_append]
              rfl

/-! ## The specification -/

/-- The chunks one after the other from `offset` on. -/
def layOut : Int → List Chunk → List Chunk
  | _, [] => []
  | offset, c :: cs => { c with offset } :: layOut (offset + c.size) cs

/-- `chunks` are, for the distinct requested numbers in ascending order, the chunks of one stored entry of that
number with a requested ETag, one after the other from offset zero on. -/
def Assembled (d : Digest) (parts : List CompletedPart) (stored : List Entry) (chunks : List Chunk) : Prop :=
  ∃ picks : List (Int × Entry),
    (picks.map (·.1)).Pairwise (· < ·) ∧
    (∀ n, n ∈ picks.map (·.1) ↔ ∃ part ∈ parts, part.partNumber = n) ∧
    (∀ pick ∈ picks, pick.2 ∈ stored ∧ partNumber? pick.2 = some pick.1 ∧
      ∃ part ∈ parts, part.partNumber = pick.1 ∧ Matches d pick.2 part.eTag) ∧
    chunks = layOut 0 (picks.flatMap fun pick => pick.2.chunks)

/-- No entry that is removed from the upload with its data has a chunk of `chunks`. -/
def Kept (input : Input) (stored : List Entry) (rms : List DeleteEntryRequest) (chunks : List Chunk) : Prop :=
  ∀ rm ∈ rms, rm.isDeleteData = true → rm.directory = input.uploadDirectory →
    ∀ e ∈ stored, e.name = rm.name → ∀ c ∈ e.chunks, ∀ c' ∈ chunks, c.fileId ≠ c'.fileId

/-- No two entries have a chunk in common. -/
def DisjointChunks (stored : List Entry) : Prop :=
  stored.Pairwise fun e e' => ∀ c ∈ e.chunks, ∀ c' ∈ e'.chunks, c.fileId ≠ c'.fileId

theorem DisjointChunks.eq (h : DisjointChunks stored) {e' : Entry} (he : e ∈ stored) (he' : e' ∈ stored)
    {c c' : Chunk} (hc : c ∈ e.chunks) (hc' : c' ∈ e'.chunks) (hid : c.fileId = c'.fileId) : e = e' := by
  by_contra hne
  have : Std.Symm fun e e' : Entry => ∀ c ∈ e.chunks, ∀ c' ∈ e'.chunks, c.fileId ≠ c'.fileId :=
    ⟨fun _ _ h c hc c' hc' heq => h c' hc' c hc heq.symm⟩
  exact List.Pairwise.forall h he he' hne c hc c' hc' hid

/-! ## Offsets -/

theorem map_placed {α : Type} {f : Chunk → α}
    (hf : ∀ (c : Chunk) offset isChunkManifest, f { c with offset, isChunkManifest } = f c) (offset : Int)
    (cs : List Chunk) : (placed offset cs).map f = cs.map f := by
  induction cs generalizing offset with
  | nil => rfl
  | cons c cs ih => rw [placed, map_cons, map_cons, ih, hf]

theorem map_layOut {α : Type} {f : Chunk → α} (hf : ∀ (c : Chunk) offset, f { c with offset } = f c) (offset : Int)
    (cs : List Chunk) : (layOut offset cs).map f = cs.map f := by
  induction cs generalizing offset with
  | nil => rfl
  | cons c cs ih => rw [layOut, map_cons, map_cons, ih, hf]

theorem offset_placed_le {offset : Int} {cs : List Chunk} (h : offset ≤ maxInt64) :
    ∀ c ∈ placed offset cs, c.offset ≤ maxInt64 ∧ c.isChunkManifest = false := by
  induction cs generalizing offset with
  | nil => exact nofun
  | cons c cs ih =>
    exact forall_mem_cons.2 ⟨⟨h, rfl⟩, ih (Filer.int64_le _)⟩

/-- What the chunks before the last one add up to. -/
def lastOffset (cs : List Chunk) : Nat := (cs.map (·.size)).dropLast.sum

theorem lastOffset_cons_cons (c c' : Chunk) (cs : List Chunk) :
    lastOffset (c :: c' :: cs) = c.size + lastOffset (c' :: cs) := by
  rfl

theorem exists_last_layOut (offset : Int) (cs : List Chunk) (hne : cs ≠ []) :
    ∃ c ∈ layOut offset cs, c.offset = offset + lastOffset cs := by
  induction cs generalizing offset with
  | nil => exact absurd rfl hne
  | cons c cs ih =>
    cases cs with
    | nil => exact ⟨_, List.mem_singleton.2 rfl, by simp [lastOffset]⟩
    | cons c2 cs =>
      obtain ⟨last, hmem, hoff⟩ := ih (offset + c.size) (cons_ne_nil _ _)
      refine ⟨last, .tail _ hmem, ?_⟩
      rw [hoff, lastOffset_cons_cons, Nat.cast_add, Int.add_assoc]

theorem placed_eq_layOut {offset : Int} {cs : List Chunk} (h0 : 0 ≤ offset)
    (hmani : ∀ c ∈ cs, c.isChunkManifest = false)
    (hsum : offset + lastOffset cs ≤ maxInt64) : placed offset cs = layOut offset cs := by
  induction cs generalizing offset with
  | nil => rfl
  | cons c cs ih =>
    have hc : ({ c with offset, isChunkManifest := false } : Chunk) = { c with offset } := by
      rw [← hmani c mem_cons_self]
    rw [placed, layOut, hc]
    cases cs with
    | nil => rfl
    | cons c2 cs =>
      rw [lastOffset_cons_cons, Nat.cast_add] at hsum
      have h1 : int64 (c.size : Int) = c.size := Filer.int64_of_range (by omega) (by omega)
      have h2 : int64 (offset + c.size) = offset + c.size := Filer.int64_of_range (by omega) (by omega)
      rw [h1, h2, ih (by omega) (fun c' hc' => hmani c' (.tail _ hc')) (by omega)]

/-! ## Entries that are taken twice -/

theorem count_flatMap_replicate (h : stored.Nodup) (k : Entry → Nat) (he : e ∈ stored) :
    (stored.flatMap fun x => List.replicate (k x) x).count e = k e := by
  induction stored with
  | nil => cases he
  | cons x stored ih =>
    obtain ⟨hx, hnodup⟩ := List.nodup_cons.1 h
    rw [flatMap_cons, count_append]
    cases he with
    | head =>
      have hno : e ∉ stored.flatMap fun x => List.replicate (k x) x := by
        intro hmem
        obtain ⟨y, hy, hey⟩ := List.mem_flatMap.1 hmem
        exact hx (eq_of_mem_replicate hey ▸ hy)
      rw [count_replicate_self, List.count_eq_zero.2 hno, Nat.add_zero]
    | tail _ he =>
      have hne : x ≠ e := fun heq => hx (heq ▸ he)
      rw [ih hnodup he, count_replicate, if_neg (by simpa using hne), Nat.zero_add]

theorem sortEntries_perm (S : SortFunc Entry) (l : List Entry) : (sortEntries S l).Perm l := by
  unfold sortEntries
  split
  · exact S.perm _ _
  · exact .refl _

theorem count_sortedParts (h : entries.Nodup) (he : e ∈ entries) (hn : partNumber? e = some n) :
    (sortedParts d S parts entries n).count e = times d (requested parts) n e := by
  have hcopies : ∀ x, copies d (requested parts) n x =
      List.replicate (if partNumber? x = some n then times d (requested parts) n x else 0) x := by
    intro x
    unfold copies
    split <;> rfl
  rw [sortedParts, (sortEntries_perm S _).count_eq, flatMap_congr fun x _ => hcopies x,
    count_flatMap_replicate h _ he, if_pos hn]

theorem mem_sortedParts (h : e ∈ sortedParts d S parts entries n) :
    e ∈ entries ∧ partNumber? e = some n ∧ times d (requested parts) n e ≠ 0 := by
  obtain ⟨x, hx, hmem⟩ := List.mem_flatMap.1 ((sortEntries_perm S _).mem_iff.1 h)
  unfold copies at hmem
  split at hmem
  next hn =>
    obtain ⟨htimes, rfl⟩ := List.mem_replicate.1 hmem
    exact ⟨hx, hn, htimes⟩
  next => cases hmem

theorem times_eq (hne : e.chunks ≠ []) : times d (requested parts) n e =
      parts.countP fun part => part.partNumber = n ∧ Matches d e part.eTag := by
  have htakes : takes d (requested parts) n e = Matches d e := by
    funext etag
    rw [takes, decide_eq_false fun h => hne h.1, Bool.not_false, Bool.and_true]
  rw [times, requested_map, htakes, eTagsOf, countP_map, countP_filter]
  refine countP_congr fun part _ => ?_
  simp [and_comm]

/-- The entry that is used for number `n`. -/
def chosen (d : Digest) (S : SortFunc Entry) (parts : List CompletedPart) (entries : List Entry) (n : Int) :
    Option Entry :=
  (sortedParts d S parts entries n).head?

theorem mem_usedChunks {c : Chunk} : c ∈ usedChunks d S parts entries ↔
      ∃ n e, (∃ part ∈ parts, part.partNumber = n) ∧ chosen d S parts entries n = some e ∧ c ∈ e.chunks := by
  unfold usedChunks chosenChunks chosen
  rw [mem_flatMap]
  constructor
  · rintro ⟨n, hn, hc⟩
    cases hhead : (sortedParts d S parts entries n).head? with
    | none =>
      rw [hhead] at hc
      cases hc
    | some e =>
      rw [hhead] at hc
      exact ⟨n, e, (requested_numbers parts).2 n |>.1 hn, hhead, hc⟩
  · rintro ⟨n, e, hn, hhead, hc⟩
    refine ⟨n, (requested_numbers parts).2 n |>.2 hn, ?_⟩
    rw [hhead]
    exact hc

theorem chosen_mem (h : chosen d S parts entries n = some e) :
    e ∈ entries ∧ partNumber? e = some n ∧ times d (requested parts) n e ≠ 0 :=
  mem_sortedParts (mem_of_head? h)

theorem mem_deleted_of_chosen (h : entries.Nodup) (hn : ∃ part ∈ parts, part.partNumber = n)
    (he : chosen d S parts entries n = some e) :
    e ∈ deleted d S parts entries ↔ 2 ≤ times d (requested parts) n e := by
  obtain ⟨hmem, hnum, htimes⟩ := chosen_mem he
  have hused : unused d (requested parts) e = false := by
    rw [unused, hnum]
    exact decide_eq_false fun hu => htimes hu.2
  obtain ⟨others, hcons⟩ := List.head?_eq_some_iff.1 he
  have hcount : (sortedParts d S parts entries n).count e = times d (requested parts) n e :=
    count_sortedParts h hmem hnum
  rw [hcons, count_cons_self] at hcount
  have htail : e ∈ others ↔ 2 ≤ times d (requested parts) n e := by
    rw [← count_pos_iff]
    omega
  rw [← htail, deleted, mem_append, List.mem_filter, hused, mem_flatMap]
  constructor
  · rintro (⟨-, hfalse⟩ | ⟨m, -, hm⟩)
    · cases hfalse
    · -- the number of an entry is that of its name
      have hm' := (mem_sortedParts (mem_of_mem_tail hm)).2.1
      obtain rfl : n = m := some.inj (hnum.symm.trans hm')
      rwa [hcons] at hm
  · intro hother
    exact .inr ⟨n, (requested_numbers parts).2 n |>.2 hn, by rwa [hcons]⟩

theorem mem_of_mem_deleted (h : e ∈ deleted d S parts entries) : e ∈ entries := by
  rcases List.mem_append.1 h with h | h
  · exact (List.mem_filter.1 h).1
  · obtain ⟨n, -, hn⟩ := List.mem_flatMap.1 h
    exact (mem_sortedParts (mem_of_mem_tail hn)).1

/-! ## The result -/

variable {store : Store} {input : Input} {object : Object} {rms : List DeleteEntryRequest}
  {versionId : Option Str}

theorem picks_ok (hall : ∀ n ∈ (requested parts).completedPartNumbers, sortedParts d S parts entries n ≠ []) :
    ∃ picks : List (Int × Entry), picks.map (·.1) = (requested parts).completedPartNumbers ∧
      (∀ pick ∈ picks, chosen d S parts entries pick.1 = some pick.2) ∧
      picks.flatMap (fun pick => pick.2.chunks) = usedChunks d S parts entries := by
  unfold usedChunks
  revert hall
  induction (requested parts).completedPartNumbers with
  | nil => exact fun _ => ⟨[], rfl, nofun, rfl⟩
  | cons n numbers ih =>
    intro hall
    obtain ⟨picks, hnums, hchosen, hchunks⟩ := ih fun m hm => hall m (.tail _ hm)
    obtain ⟨e, others, hcons⟩ := exists_cons_of_ne_nil (hall n mem_cons_self)
    refine ⟨(n, e) :: picks, by rw [map_cons, hnums], fun pick hpick => ?_, ?_⟩
    · cases hpick with
      | head => exact congrArg List.head? hcons
      | tail _ hpick => exact hchosen pick hpick
    · rw [flatMap_cons, flatMap_cons, hchunks, chosenChunks, hcons]
      rfl

theorem matches_of_times (h : times d (requested parts) n e ≠ 0) :
    ∃ part ∈ parts, part.partNumber = n ∧ Matches d e part.eTag := by
  obtain ⟨etag, hmem, htakes⟩ := List.countP_pos_iff.1 (Nat.pos_of_ne_zero h)
  rw [requested_map] at hmem
  obtain ⟨part, hpart, rfl⟩ := List.mem_map.1 hmem
  obtain ⟨hpart, hnum⟩ := List.mem_filter.1 hpart
  exact ⟨part, hpart, of_decide_eq_true hnum, (Bool.and_eq_true_iff.1 htakes).1⟩

/-- The object is assembled as specified, unless a manifest is taken for a chunk or the offsets wrap around. -/
theorem assembled_iff (hsub : entries.Sublist stored) (hdis : DisjointChunks stored)
    (hall : ∀ n ∈ (requested parts).completedPartNumbers, sortedParts d S parts entries n ≠ []) :
    Assembled d parts stored (placed 0 (usedChunks d S parts entries)) ↔
      (∀ c ∈ usedChunks d S parts entries, c.isChunkManifest = false) ∧
        lastOffset (usedChunks d S parts entries) ≤ maxInt64 := by
  constructor
  · rintro ⟨picks, -, -, hstored, heq⟩
    constructor
    · intro c hc
      -- the chunk's copy is the copy of a chunk of a pick, which is a chunk of the same entry
      obtain ⟨n, e, -, hchosen, hce⟩ := mem_usedChunks.1 hc
      have hid : c.fileId ∈ (picks.flatMap fun pick => pick.2.chunks).map (·.fileId) := by
        rw [← map_layOut (fun _ _ => rfl) 0, ← heq, map_placed fun _ _ _ => rfl]
        exact mem_map_of_mem hc
      obtain ⟨c', hc', hid⟩ := List.mem_map.1 hid
      obtain ⟨pick, hpick, hc'⟩ := List.mem_flatMap.1 hc'
      obtain rfl : pick.2 = e :=
        hdis.eq (hstored pick hpick).1 (hsub.subset (chosen_mem hchosen).1) hc' hce hid
      have hmani : c.isChunkManifest ∈
          (layOut 0 (picks.flatMap fun pick => pick.2.chunks)).map (·.isChunkManifest) := by
        rw [map_layOut fun _ _ => rfl]
        exact mem_map_of_mem (List.mem_flatMap.2 ⟨pick, hpick, hce⟩)
      rw [← heq] at hmani
      obtain ⟨c'', hc'', hmani⟩ := List.mem_map.1 hmani
      rw [← hmani]
      exact (offset_placed_le (by decide) c'' hc'').2
    · have hlast : lastOffset (usedChunks d S parts entries) =
          lastOffset (picks.flatMap fun pick => pick.2.chunks) := by
        rw [lastOffset, lastOffset, ← map_placed (fun _ _ _ => rfl) 0, heq, map_layOut fun _ _ => rfl]
      by_cases hne : (picks.flatMap fun pick => pick.2.chunks) = []
      · rw [hlast, hne]
        decide
      · obtain ⟨c, hc, hoff⟩ := exists_last_layOut 0 _ hne
        rw [hlast, ← Int.zero_add (Nat.cast _), ← hoff]
        exact (offset_placed_le (by decide) c (heq ▸ hc)).1
  · rintro ⟨hmani, hsum⟩
    obtain ⟨picks, hnums, hchosen, hchunks⟩ := picks_ok hall
    refine ⟨picks, ?_, ?_, fun pick hpick => ?_, ?_⟩
    · rw [hnums]
      exact (requested_numbers parts).1
    · rw [hnums]
      exact (requested_numbers parts).2
    · obtain ⟨hmem, hnum, htimes⟩ := chosen_mem (hchosen pick hpick)
      exact ⟨hsub.subset hmem, hnum, matches_of_times htimes⟩
    · rw [hchunks]
      exact placed_eq_layOut (Int.le_refl 0) hmani (by omega)

/-- The chunks are kept, unless an entry with chunks is used and was taken twice. -/
theorem kept_iff (hsub : entries.Sublist stored) (hnames : (stored.map (·.name)).Nodup)
    (hdis : DisjointChunks stored) :
    Kept input stored (removals input (deleted d S parts entries)) (placed 0 (usedChunks d S parts entries)) ↔
      ∀ n e, chosen d S parts entries n = some e → e.chunks ≠ [] →
        (parts.countP fun part => part.partNumber = n ∧ Matches d e part.eTag) ≤ 1 := by
  have hnodup : entries.Nodup := (List.Nodup.of_map _ hnames).sublist hsub
  constructor
  · intro hkept n e hchosen hne
    by_contra htwice
    obtain ⟨hmem, hnum, htimes⟩ := chosen_mem hchosen
    obtain ⟨part, hpart, hpn, -⟩ := matches_of_times htimes
    rw [← times_eq hne] at htwice
    have hdel := (mem_deleted_of_chosen hnodup ⟨part, hpart, hpn⟩ hchosen).2 (by omega)
    obtain ⟨c, cs, hc⟩ := exists_cons_of_ne_nil hne
    have hce : c ∈ e.chunks := hc ▸ mem_cons_self
    have hused : c ∈ usedChunks d S parts entries := mem_usedChunks.2 ⟨n, e, ⟨part, hpart, hpn⟩, hchosen, hce⟩
    have hid : c.fileId ∈ (placed 0 (usedChunks d S parts entries)).map (·.fileId) := by
      rw [map_placed fun _ _ _ => rfl]
      exact mem_map_of_mem hused
    obtain ⟨c', hc', hid⟩ := List.mem_map.1 hid
    exact hkept _ (mem_append_left _ (mem_map_of_mem hdel)) rfl rfl e (hsub.subset hmem) rfl c hce c' hc'
      hid.symm
  · intro honce rm hrm hdata _ e he hname c hc c' hc' hid
    rcases List.mem_append.1 hrm with hrm | hrm
    · obtain ⟨e', hdel, rfl⟩ := List.mem_map.1 hrm
      obtain rfl : e = e' := inj_on_of_nodup_map hnames he (hsub.subset (mem_of_mem_deleted hdel)) hname
      have hmem : c.fileId ∈ (usedChunks d S parts entries).map (·.fileId) := by
        rw [← map_placed (fun _ _ _ => rfl) 0, hid]
        exact mem_map_of_mem hc'
      obtain ⟨c'', hc'', hid'⟩ := List.mem_map.1 hmem
      obtain ⟨n, e'', hn, hchosen, hce⟩ := mem_usedChunks.1 hc''
      obtain rfl : e'' = e := hdis.eq (hsub.subset (chosen_mem hchosen).1) he hce hc hid'
      have htwice := (mem_deleted_of_chosen hnodup hn hchosen).1 hdel
      rw [times_eq (ne_nil_of_mem hc)] at htwice
      have := honce n e'' hchosen (ne_nil_of_mem hc)
      omega
    · rw [List.mem_singleton.1 hrm] at hdata
      cases hdata

/-- **A completed upload** has the chunks of the requested parts and keeps them, exactly if no entry with chunks was
requested twice by number and ETag, no chunk is a manifest, and the offsets do not wrap around. -/
theorem completeMultipartUpload_assembles (hstored : store.stored = some stored)
    (hnames : (stored.map (·.name)).Nodup) (hdis : DisjointChunks stored)
    (h : completeMultipartUpload d S store input parts = .ok (.created object rms versionId)) :
    (Assembled d parts stored object.chunks ∧ Kept input stored rms object.chunks) ↔
      (∀ n e, chosen d S parts (stored.take (maxS3MultipartParts + 1)) n = some e → e.chunks ≠ [] →
        (parts.countP fun part => part.partNumber = n ∧ Matches d e part.eTag) ≤ 1) ∧
      (∀ c ∈ usedChunks d S parts (stored.take (maxS3MultipartParts + 1)), c.isChunkManifest = false) ∧
      lastOffset (usedChunks d S parts (stored.take (maxS3MultipartParts + 1))) ≤ maxInt64 := by
  obtain ⟨stored', hstored', hall, hchunks, hrms⟩ := completeMultipartUpload_created h
  obtain rfl : stored' = stored := Option.some.inj (hstored'.symm.trans hstored)
  have hsub : (stored'.take (maxS3MultipartParts + 1)).Sublist stored' := take_sublist _ _
  rw [hchunks, hrms, assembled_iff hsub hdis hall, kept_iff hsub hnames hdis, and_comm]

/-- An upload to a bucket without versioning. -/
def storeOf (stored : List Entry) : Store where
  stored := some stored
  uploadEntry := some { name := ascii "upload", isDirectory := true, attributes := some {} }
  objectEntry := none
  versioning := .unversioned
  versionId := []
  versionFileName := []
  mkFile := true
  updateLatestVersion := true

/-- Hashes for the examples. -/
def Digest.plain : Digest := ⟨id, id⟩

/-- A part of one chunk. -/
def partOf (name fileId : String) (modifiedTsNs : Int) : Entry :=
  { name := ascii name
    chunks := [{ fileId := ascii fileId, size := 10, modifiedTsNs }]
    attributes := some { fileSize := 10 }
    extETag := some (ascii "e") }

/-- A part that was sent twice and requested once: the later entry is used, the other one removed. -/
theorem completeMultipartUpload_assembles_retry :
    let stored := [partOf "0001_a.part" "3,01" 5, partOf "0001_b.part" "3,02" 7]
    let input : Input := ⟨ascii "/buckets/b/.uploads", ascii "upload", ascii "/buckets/b", ascii "o"⟩
    ∃ object rms versionId,
      completeMultipartUpload .plain .insertion (storeOf stored) input [⟨ascii "e", 1⟩] =
        .ok (.created object rms versionId) ∧
      Assembled .plain [⟨ascii "e", 1⟩] stored object.chunks ∧ Kept input stored rms object.chunks := by
  intro stored input
  have hok : ∃ object rms versionId,
      completeMultipartUpload .plain .insertion (storeOf stored) input [⟨ascii "e", 1⟩] =
        .ok (.created object rms versionId) := ⟨_, _, _, rfl⟩
  obtain ⟨object, rms, versionId, hok⟩ := hok
  refine ⟨object, rms, versionId, hok, ?_⟩
  refine (completeMultipartUpload_assembles rfl (by decide +kernel) (by unfold DisjointChunks; decide +kernel) hok).2
    ⟨fun n e _ _ => countP_le_length, ?_, ?_⟩
  · decide +kernel
  · decide +kernel

/-- **A part that is requested twice**: its entry is used for the object, and then removed with its data. -/
theorem completeMultipartUpload_repeated :
    let stored := [partOf "0001_a.part" "3,01" 5]
    let input : Input := ⟨ascii "/buckets/b/.uploads", ascii "upload", ascii "/buckets/b", ascii "o"⟩
    (stored.map (·.name)).Nodup ∧ DisjointChunks stored ∧ ∃ object rms versionId,
        completeMultipartUpload .plain .insertion (storeOf stored) input [⟨ascii "e", 1⟩, ⟨ascii "e", 1⟩] =
          .ok (.created object rms versionId) ∧
        ¬ Kept input stored rms object.chunks := by
  intro stored input
  refine ⟨by decide +kernel, by unfold DisjointChunks; decide +kernel, ?_⟩
  have hok : ∃ object rms versionId,
      completeMultipartUpload .plain .insertion (storeOf stored) input [⟨ascii "e", 1⟩, ⟨ascii "e", 1⟩] =
        .ok (.created object rms versionId) ∧
      rms.head? = some ⟨input.uploadDirectory, ascii "0001_a.part", true, true, true⟩ ∧
      object.chunks = [{ fileId := ascii "3,01", size := 10, modifiedTsNs := 5 }] := ⟨_, _, _, rfl, rfl, rfl⟩
  obtain ⟨object, rms, versionId, hok, hrm, hchunks⟩ := hok
  refine ⟨object, rms, versionId, hok, fun hkept => ?_⟩
  rw [hchunks] at hkept
  exact hkept _ (mem_of_head? hrm) rfl rfl _ mem_cons_self rfl _ mem_cons_self _ mem_cons_self rfl

end S3
