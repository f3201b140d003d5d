import SeaweedFS.Filer.Proof.Compact

/-!
# Manifests hide no chunk

A manifest spans its chunks (`mergeIntoManifest_ok`), so whatever range it is left out of, its chunks are out of it
too.
-/

namespace Filer

open Lib List FileChunk Nat

variable {blobs blobs' : Blobs} {chunks data manifests : List FileChunk} {depth depth' : Nat} {a b : Int}
  {resolve resolve' : List FileChunk → Except ManifestErr (List FileChunk × List FileChunk)}

variable {c : FileChunk}

/-! ## The resolving loop -/

theorem resolveLoop_cons_ok (h : resolveLoop blobs resolve a b (c :: chunks) = .ok (data, manifests)) :
    ∃ d m d' m', data = d ++ d' ∧ manifests = m ++ m' ∧
      resolveLoop blobs resolve a b [c] = .ok (d, m) ∧ resolveLoop blobs resolve a b chunks = .ok (d', m') := by
  rw [resolveLoop] at h
  split at h
  · rename_i hr
    exact ⟨[], [], data, manifests, rfl, rfl, by rw [resolveLoop, if_pos hr]; rfl, h⟩
  · rename_i hr
    split at h
    · rename_i hm
      obtain ⟨⟨d', m'⟩, hrest, hret⟩ := bind_eq_ok.1 h
      cases hret
      exact ⟨[c], [], d', manifests, rfl, rfl, by rw [resolveLoop, if_neg hr, if_pos hm]; rfl, hrest⟩
    · rename_i hm
      obtain ⟨sub, hone, h⟩ := bind_eq_ok.1 h
      obtain ⟨⟨ds, ms⟩, hsub, h⟩ := bind_eq_ok.1 h
      obtain ⟨⟨d', m'⟩, hrest, hret⟩ := bind_eq_ok.1 h
      cases hret
      refine ⟨ds, c :: ms, d', m', rfl, rfl, ?_, hrest⟩
      rw [resolveLoop, if_neg hr, if_neg hm, hone]
      simp only [bind, Except.bind, hsub, resolveLoop, pure, Except.pure, append_nil]

theorem resolveLoop_cons {d m d' m' : List FileChunk}
    (hc : resolveLoop blobs resolve a b [c] = .ok (d, m))
    (hcs : resolveLoop blobs resolve a b chunks = .ok (d', m')) :
    resolveLoop blobs resolve a b (c :: chunks) = .ok (d ++ d', m ++ m') := by
  rw [resolveLoop] at hc ⊢
  split at hc
  · rename_i hr
    cases hc
    rw [if_pos hr]
    exact hcs
  · rename_i hr
    rw [if_neg hr]
    split at hc
    · rename_i hm
      cases hc
      rw [if_pos hm, hcs]
      rfl
    · rename_i hm
      obtain ⟨sub, hone, hc⟩ := bind_eq_ok.1 hc
      obtain ⟨⟨ds, ms⟩, hsub, hc⟩ := bind_eq_ok.1 hc
      cases hc
      rw [if_neg hm, hone]
      simp only [bind, Except.bind, hsub, hcs, pure, Except.pure, append_nil]

variable {chunks' d m d' m' : List FileChunk}

theorem resolveLoop_append (h : resolveLoop blobs resolve a b chunks = .ok (d, m))
    (h' : resolveLoop blobs resolve a b chunks' = .ok (d', m')) :
    resolveLoop blobs resolve a b (chunks ++ chunks') = .ok (d ++ d', m ++ m') := by
  induction chunks generalizing d m with
  | nil =>
    cases h
    exact h'
  | cons c chunks ih =>
    obtain ⟨d1, m1, d2, m2, rfl, rfl, hc, hcs⟩ := resolveLoop_cons_ok h
    rw [cons_append, append_assoc, append_assoc]
    exact resolveLoop_cons hc (ih hcs)

theorem resolveLoop_singleton_out (h : ¬ c.InRange a b) :
    resolveLoop blobs resolve a b [c] = .ok ([], []) := by
  rw [resolveLoop, if_pos h]
  rfl

theorem resolveLoop_singleton_manifest {sub : List FileChunk} (hr : c.InRange a b)
    (hm : c.isChunkManifest = true) (hblob : blobs c.getFileIdString = some sub)
    (hsub : resolve (sub.map afterEntryDeserialization) = .ok (d, m)) :
    resolveLoop blobs resolve a b [c] = .ok (d, c :: m) := by
  rw [resolveLoop, if_neg (not_not.2 hr), if_neg (by simp [hm]), resolveOneChunkManifest,
    if_neg (by simp [hm]), hblob]
  simp only [bind, Except.bind, hsub, resolveLoop, pure, Except.pure, append_nil]

theorem resolveLoop_singleton_manifest_ok (hr : c.InRange a b)
    (hm : c.isChunkManifest = true) (h : resolveLoop blobs resolve a b [c] = .ok (data, manifests)) :
    ∃ sub m, blobs c.getFileIdString = some sub ∧
      resolve (sub.map afterEntryDeserialization) = .ok (data, m) := by
  rw [resolveLoop, if_neg (not_not.2 hr), if_neg (by simp [hm])] at h
  obtain ⟨sub', hone, h⟩ := bind_eq_ok.1 h
  obtain ⟨⟨ds, ms⟩, hsub, h⟩ := bind_eq_ok.1 h
  cases h
  rw [resolveOneChunkManifest, if_neg (by simp [hm])] at hone
  split at hone
  · rename_i sub hblob
    cases hone
    exact ⟨sub, ms, hblob, by rwa [append_nil]⟩
  · cases hone

/-! ## More blobs and more depth change nothing -/

/-- Every blob is still there. -/
def Extends (blobs blobs' : Blobs) : Prop := ∀ id chunks, blobs id = some chunks → blobs' id = some chunks

theorem resolveLoop_mono (hblobs : Extends blobs blobs')
    (hsub : ∀ cs r, resolve cs = .ok r → resolve' cs = .ok r)
    (h : resolveLoop blobs resolve a b chunks = .ok (data, manifests)) :
    resolveLoop blobs' resolve' a b chunks = .ok (data, manifests) := by
  induction chunks generalizing data manifests with
  | nil => exact h
  | cons c chunks ih =>
    obtain ⟨d, m, d', m', rfl, rfl, hc, hcs⟩ := resolveLoop_cons_ok h
    refine resolveLoop_cons ?_ (ih hcs)
    by_cases hr : c.InRange a b
    · cases hm : c.isChunkManifest with
      | false =>
        rw [resolveLoop, if_neg (not_not.2 hr), if_pos (by simp [hm])] at hc ⊢
        exact hc
      | true =>
        obtain ⟨sub, m1, hblob, hs⟩ := resolveLoop_singleton_manifest_ok hr hm hc
        have hc' := resolveLoop_singleton_manifest hr hm hblob hs
        obtain ⟨-, rfl⟩ := Prod.mk.inj (Except.ok.inj (hc.symm.trans hc'))
        exact resolveLoop_singleton_manifest hr hm (hblobs _ _ hblob) (hsub _ _ hs)
    · rw [resolveLoop_singleton_out hr] at hc ⊢
      exact hc

theorem resolveChunkManifest_mono (hblobs : Extends blobs blobs') (hdepth : depth ≤ depth')
    (h : resolveChunkManifest blobs depth chunks a b = .ok (data, manifests)) :
    resolveChunkManifest blobs' depth' chunks a b = .ok (data, manifests) := by
  induction depth generalizing depth' chunks data manifests with
  | zero =>
    cases depth' with
    | zero => exact resolveLoop_mono hblobs (fun cs r hr => hr) h
    | succ depth' =>
      refine resolveLoop_mono hblobs (fun cs r hr => ?_) h
      cases hr
  | succ depth ih =>
    cases depth' with
    | zero => omega
    | succ depth' => exact resolveLoop_mono hblobs (fun cs r hr => ih (by omega) hr) h

theorem resolveChunkManifest_append (h : resolveChunkManifest blobs depth chunks a b = .ok (d, m))
    (h' : resolveChunkManifest blobs depth chunks' a b = .ok (d', m')) :
    resolveChunkManifest blobs depth (chunks ++ chunks') a b = .ok (d ++ d', m ++ m') := by
  cases depth with
  | zero => exact resolveLoop_append h h'
  | succ depth => exact resolveLoop_append h h'

/-! ## Manifests and data chunks apart -/

theorem resolveLoop_separate (h : resolveLoop blobs resolve a b chunks = .ok (data, manifests)) :
    ∃ d, resolveLoop blobs resolve a b (chunks.filter fun c => c.isChunkManifest) = .ok (d, manifests) ∧
      data.Perm (d ++ liveChunks (chunks.filter fun c => ¬ c.isChunkManifest) a b) := by
  induction chunks generalizing data manifests with
  | nil =>
    cases h
    exact ⟨[], rfl, .refl _⟩
  | cons c chunks ih =>
    obtain ⟨d1, m1, d2, m2, rfl, rfl, hc, hcs⟩ := resolveLoop_cons_ok h
    obtain ⟨d, hd, hperm⟩ := ih hcs
    cases hm : c.isChunkManifest with
    | true =>
      refine ⟨d1 ++ d, ?_, ?_⟩
      · rw [filter_cons_of_pos (by simp [hm])]
        exact resolveLoop_cons hc hd
      · rw [filter_cons_of_neg (by simp [hm]), append_assoc]
        exact hperm.append_left d1
    | false =>
      have hone : resolveLoop blobs resolve a b [c] = .ok (liveChunks [c] a b, []) :=
        resolveLoop_data (by simp [hm])
      obtain ⟨rfl, rfl⟩ := Prod.mk.inj (Except.ok.inj (hc.symm.trans hone))
      refine ⟨d, ?_, ?_⟩
      · rw [filter_cons_of_neg (by simp [hm])]
        exact hd
      · rw [filter_cons_of_pos (by simp [hm])]
        have hlive : liveChunks (c :: chunks.filter fun c => ¬ c.isChunkManifest) a b =
            liveChunks [c] a b ++ liveChunks (chunks.filter fun c => ¬ c.isChunkManifest) a b :=
          filter_append [c] _
        rw [hlive]
        calc liveChunks [c] a b ++ d2
          _ |>.Perm (liveChunks [c] a b ++ (d ++ liveChunks (chunks.filter fun c => ¬ c.isChunkManifest) a b)) :=
            hperm.append_left _
          _ |>.Perm (d ++ (liveChunks [c] a b ++ liveChunks (chunks.filter fun c => ¬ c.isChunkManifest) a b)) := by
            rw [← append_assoc, ← append_assoc]
            exact List.perm_append_comm.append_right _

theorem resolveChunkManifest_separate
    (h : resolveChunkManifest blobs depth chunks a b = .ok (data, manifests)) :
    ∃ d, resolveChunkManifest blobs depth (chunks.filter fun c => c.isChunkManifest) a b = .ok (d, manifests) ∧
      data.Perm (d ++ liveChunks (chunks.filter fun c => ¬ c.isChunkManifest) a b) := by
  cases depth with
  | zero => exact resolveLoop_separate h
  | succ depth => exact resolveLoop_separate h

/-! ## Ranges -/

theorem FileChunk.InRange.whole (h : c.InRange a b) : c.InRange 0 maxInt64 := by
  have := c.offset_nonneg
  have := c.stop_le_maxInt64
  unfold FileChunk.InRange at *
  omega

theorem not_inRange_of_within {d : FileChunk} (hc : ¬ c.InRange a b) (hlo : c.offset ≤ d.offset)
    (hhi : d.stop ≤ c.stop) : ¬ d.InRange a b := by
  unfold FileChunk.InRange at *
  omega

theorem filter_liveChunks_whole (chunks : List FileChunk) :
    (liveChunks chunks 0 maxInt64).filter (fun c => decide (c.InRange a b)) = liveChunks chunks a b := by
  rw [liveChunks, filter_filter]
  refine filter_congr fun c _ => ?_
  rw [Bool.eq_iff_iff, Bool.and_eq_true, decide_eq_true_eq, decide_eq_true_eq, decide_eq_true_eq]
  exact ⟨And.left, fun h => ⟨h, FileChunk.InRange.whole h⟩⟩

/-- Every manifest spans the chunks in its blob, down to the given depth. -/
def Spanning (blobs : Blobs) : Nat → List FileChunk → Prop
  | 0, _ => True
  | depth + 1, chunks =>
    ∀ c ∈ chunks, c.isChunkManifest = true → ∀ sub ∈ blobs c.getFileIdString,
      (∀ s ∈ sub, c.offset ≤ s.offset ∧ s.stop ≤ c.stop) ∧
        Spanning blobs depth (sub.map afterEntryDeserialization)

/-- Both are chunks of the same kind with the same bytes of the file. -/
def SameSpan (c d : FileChunk) : Prop :=
  d.offset = c.offset ∧ d.stop = c.stop ∧ d.isChunkManifest = c.isChunkManifest

theorem afterEntryDeserialization_span (c : FileChunk) : SameSpan c (afterEntryDeserialization c) := by
  unfold afterEntryDeserialization
  split
  · split
    · exact ⟨rfl, rfl, rfl⟩
    · exact ⟨rfl, rfl, rfl⟩
  · exact ⟨rfl, rfl, rfl⟩

theorem beforeEntrySerialization_span (c : FileChunk) : SameSpan c (beforeEntrySerialization c) := by
  unfold beforeEntrySerialization
  split
  · split
    · exact ⟨rfl, rfl, rfl⟩
    · exact ⟨rfl, rfl, rfl⟩
  · exact ⟨rfl, rfl, rfl⟩

theorem resolveLoop_within
    (hsub : ∀ c ∈ chunks, c.isChunkManifest = true → ∀ sub ∈ blobs c.getFileIdString, ∀ d m,
      resolve (sub.map afterEntryDeserialization) = .ok (d, m) →
      ∀ x ∈ d, c.offset ≤ x.offset ∧ x.stop ≤ c.stop)
    (h : resolveLoop blobs resolve a b chunks = .ok (data, manifests)) :
    ∀ d ∈ data, ∃ c ∈ chunks, c.offset ≤ d.offset ∧ d.stop ≤ c.stop := by
  induction chunks generalizing data manifests with
  | nil =>
    cases h
    simp
  | cons c chunks ih =>
    obtain ⟨d1, m1, d2, m2, rfl, rfl, hc, hcs⟩ := resolveLoop_cons_ok h
    intro d hd
    rcases List.mem_append.1 hd with hd | hd
    · refine ⟨c, mem_cons_self, ?_⟩
      by_cases hr : c.InRange a b
      · cases hm : c.isChunkManifest with
        | true =>
          obtain ⟨sub, m, hblob, hres⟩ := resolveLoop_singleton_manifest_ok hr hm hc
          exact hsub c mem_cons_self hm sub hblob d1 m hres d hd
        | false =>
          rw [resolveLoop_data (by simp [hm])] at hc
          cases hc
          obtain rfl := List.mem_singleton.1 (List.mem_filter.1 hd).1
          exact ⟨Int.le_refl _, Int.le_refl _⟩
      · rw [resolveLoop_singleton_out hr] at hc
        cases hc
        cases hd
    · obtain ⟨c', hc', hwithin⟩ := ih (fun c' hc' => hsub c' (.tail _ hc')) hcs d hd
      exact ⟨c', .tail _ hc', hwithin⟩

theorem resolveLoop_restrict
    (hsub : ∀ c ∈ chunks, c.isChunkManifest = true → ∀ sub ∈ blobs c.getFileIdString, ∀ d m,
      resolve (sub.map afterEntryDeserialization) = .ok (d, m) →
      (∀ x ∈ d, c.offset ≤ x.offset ∧ x.stop ≤ c.stop) ∧
        ∃ m', resolve' (sub.map afterEntryDeserialization) = .ok (d.filter fun x => x.InRange a b, m'))
    (h : resolveLoop blobs resolve 0 maxInt64 chunks = .ok (data, manifests)) :
    ∃ m', resolveLoop blobs resolve' a b chunks = .ok (data.filter fun x => x.InRange a b, m') := by
  induction chunks generalizing data manifests with
  | nil =>
    cases h
    exact ⟨[], rfl⟩
  | cons c chunks ih =>
    obtain ⟨d1, m1, d2, m2, rfl, rfl, hc, hcs⟩ := resolveLoop_cons_ok h
    obtain ⟨m', hrest⟩ := ih (fun c' hc' => hsub c' (.tail _ hc')) hcs
    rw [filter_append]
    suffices hone : ∃ m, resolveLoop blobs resolve' a b [c] = .ok (d1.filter fun x => x.InRange a b, m) by
      obtain ⟨m, hone⟩ := hone
      exact ⟨m ++ m', resolveLoop_cons hone hrest⟩
    cases hm : c.isChunkManifest with
    | false =>
      rw [resolveLoop_data (by simp [hm])] at hc ⊢
      cases hc
      exact ⟨[], by rw [filter_liveChunks_whole]⟩
    | true =>
      by_cases hw : c.InRange 0 maxInt64
      · obtain ⟨sub, m, hblob, hres⟩ := resolveLoop_singleton_manifest_ok hw hm hc
        obtain ⟨hwithin, m'', hres'⟩ := hsub c mem_cons_self hm sub hblob d1 m hres
        by_cases hr : c.InRange a b
        · exact ⟨_, resolveLoop_singleton_manifest hr hm hblob hres'⟩
        · refine ⟨[], ?_⟩
          rw [resolveLoop_singleton_out hr, List.filter_eq_nil_iff.2]
          intro x hx
          rw [decide_eq_true_eq]
          exact not_inRange_of_within hr (hwithin x hx).1 (hwithin x hx).2
      · rw [resolveLoop_singleton_out hw] at hc
        cases hc
        exact ⟨[], resolveLoop_singleton_out fun hr => hw hr.whole⟩

theorem Spanning.within (hs : Spanning blobs depth chunks)
    (h : resolveChunkManifest blobs depth chunks a b = .ok (data, manifests)) :
    ∀ d ∈ data, ∃ c ∈ chunks, c.offset ≤ d.offset ∧ d.stop ≤ c.stop := by
  induction depth generalizing chunks data manifests with
  | zero => exact resolveLoop_within (fun c _ _ sub _ d m hres => by cases hres) h
  | succ depth ih =>
    refine resolveLoop_within (fun c hc hm sub hblob d m hres x hx => ?_) h
    obtain ⟨hspan, hsub⟩ := hs c hc hm sub hblob
    obtain ⟨s', hs', hlo, hhi⟩ := ih hsub hres x hx
    obtain ⟨s, hmem, rfl⟩ := List.mem_map.1 hs'
    obtain ⟨hoff, hstop, -⟩ := afterEntryDeserialization_span s
    obtain ⟨hlo', hhi'⟩ := hspan s hmem
    omega

theorem Spanning.restrict (hs : Spanning blobs depth chunks)
    (h : resolveChunkManifest blobs depth chunks 0 maxInt64 = .ok (data, manifests)) (a b : Int) :
    ∃ m', resolveChunkManifest blobs depth chunks a b = .ok (data.filter fun x => x.InRange a b, m') := by
  induction depth generalizing chunks data manifests with
  | zero => exact resolveLoop_restrict (fun c _ _ sub _ d m hres => by cases hres) h
  | succ depth ih =>
    refine resolveLoop_restrict (fun c hc hm sub hblob d m hres => ⟨fun x hx => ?_, ?_⟩) h
    · obtain ⟨hspan, hsub⟩ := hs c hc hm sub hblob
      obtain ⟨s', hs', hlo, hhi⟩ := hsub.within hres x hx
      obtain ⟨s, hmem, rfl⟩ := List.mem_map.1 hs'
      obtain ⟨hoff, hstop, -⟩ := afterEntryDeserialization_span s
      obtain ⟨hlo', hhi'⟩ := hspan s hmem
      omega
    · exact ih (hs c hc hm sub hblob).2 hres

/-! ## Making manifests -/

/-- The chunk with its file id as text. -/
def FileChunk.normal (c : FileChunk) : FileChunk := { c with fileId := c.getFileIdString, fid := none }

/-- The file id is printed as it is written. -/
def FileChunk.Canonical (c : FileChunk) : Prop := ∀ fid ∈ toFileIdObject c.fileId, fid.string = c.fileId

instance (c : FileChunk) : Decidable c.Canonical := inferInstanceAs (Decidable (∀ _ ∈ _, _))

/-- A chunk after it was saved and read. -/
def roundTrip (c : FileChunk) : FileChunk := afterEntryDeserialization (beforeEntrySerialization c)

theorem roundTrip_span (c : FileChunk) : SameSpan c (roundTrip c) := by
  obtain ⟨hb1, hb2, hb3⟩ := beforeEntrySerialization_span c
  obtain ⟨ha1, ha2, ha3⟩ := afterEntryDeserialization_span (beforeEntrySerialization c)
  exact ⟨ha1.trans hb1, ha2.trans hb2, ha3.trans hb3⟩

theorem afterEntryDeserialization_normal (c : FileChunk) : (afterEntryDeserialization c).normal = c.normal := by
  unfold afterEntryDeserialization
  split
  · rename_i fid hfid
    split
    · rename_i hid
      unfold normal getFileIdString
      simp only [hid, hfid]
      by_cases hs : fid.string = ""
      · simp [hs]
      · simp [hs]
    · rfl
  · rfl

theorem roundTrip_normal (hc : c.Canonical) : (roundTrip c).normal = c.normal := by
  rw [roundTrip, afterEntryDeserialization_normal]
  unfold beforeEntrySerialization
  split
  · rename_i hid
    split
    · rename_i fid hfid
      have hprint := hc fid hfid
      unfold normal getFileIdString
      simp [hid, hprint]
    · rfl
  · rfl

theorem foldl_widen (chunks : List FileChunk) (e : Int × Int) :
    (chunks.foldl widen e).1 ≤ e.1 ∧ e.2 ≤ (chunks.foldl widen e).2 ∧
      (∀ c ∈ chunks, (chunks.foldl widen e).1 ≤ c.offset ∧ c.stop ≤ (chunks.foldl widen e).2) ∧
      (0 ≤ e.1 → 0 ≤ (chunks.foldl widen e).1) ∧
      (e.2 ≤ maxInt64 → (chunks.foldl widen e).2 ≤ maxInt64) := by
  induction chunks generalizing e with
  | nil => exact ⟨Int.le_refl _, Int.le_refl _, by simp, id, id⟩
  | cons c chunks ih =>
    have hlo := c.offset_nonneg
    have hhi := c.stop_le_maxInt64
    have h1 : (widen e c).1 ≤ e.1 ∧ (widen e c).1 ≤ c.offset ∧ (0 ≤ e.1 → 0 ≤ (widen e c).1) := by
      unfold widen
      split <;> omega
    have h2 : e.2 ≤ (widen e c).2 ∧ c.stop ≤ (widen e c).2 ∧
        (e.2 ≤ maxInt64 → (widen e c).2 ≤ maxInt64) := by
      unfold widen
      split <;> omega
    obtain ⟨i1, i2, i3, i4, i5⟩ := ih (widen e c)
    rw [foldl_cons]
    exact ⟨by omega, by omega, forall_mem_cons.2 ⟨by omega, i3⟩, fun h => i4 (h1.2.2 h), fun h => i5 (h2.2.2 h)⟩

theorem uint64_of_range {n : Int} (h1 : 0 ≤ n) (h2 : n ≤ maxInt64) : (uint64 n : Int) = n := by
  unfold uint64 maxInt64 at *
  omega

/-- **Merge.** The manifest is saved under the id it was given, and spans its chunks. -/
theorem mergeIntoManifest_ok (blobs : Blobs) (saved : FileChunk) (hne : chunks ≠ []) :
    ∃ manifest, mergeIntoManifest blobs (some saved) chunks =
        .ok (manifest, fun id => if id = saved.getFileIdString then
          some (chunks.map beforeEntrySerialization) else blobs id) ∧
      manifest.isChunkManifest = true ∧ manifest.getFileIdString = saved.getFileIdString ∧
      ∀ c ∈ chunks, manifest.offset ≤ c.offset ∧ c.stop ≤ manifest.stop := by
  obtain ⟨-, -, hspan, hlo, hhi⟩ := foldl_widen chunks (maxInt64, -2 ^ 63)
  have hlo : 0 ≤ (extent chunks).1 := hlo (by decide)
  have hhi : (extent chunks).2 ≤ maxInt64 := hhi (by decide)
  obtain ⟨c, hc⟩ := exists_mem_of_ne_nil chunks hne
  have hspan : ∀ c ∈ chunks, (extent chunks).1 ≤ c.offset ∧ c.stop ≤ (extent chunks).2 := hspan
  have hsize : (uint64 ((extent chunks).2 - (extent chunks).1) : Int) =
      (extent chunks).2 - (extent chunks).1 := by
    have := hspan c hc
    have := c.offset_le_stop
    exact uint64_of_range (by omega) (by omega)
  have hvalid : 0 ≤ (extent chunks).1 ∧
      (extent chunks).1 + (uint64 ((extent chunks).2 - (extent chunks).1) : Int) ≤ maxInt64 :=
    ⟨hlo, by omega⟩
  refine ⟨{ saved with
      isChunkManifest := true, offset := (extent chunks).1
      size := uint64 ((extent chunks).2 - (extent chunks).1)
      offset_nonneg := hvalid.1, stop_le := hvalid.2 }, ?_, rfl, rfl, fun c hc => ?_⟩
  · exact dif_pos hvalid
  · have hc := hspan c hc
    rw [c.stop_eq] at hc ⊢
    rw [stop_eq]
    show (extent chunks).1 ≤ c.offset ∧
      c.offset + c.size ≤ (extent chunks).1 + (uint64 ((extent chunks).2 - (extent chunks).1) : Int)
    omega

theorem liveChunks_append (l m : List FileChunk) :
    liveChunks (l ++ m) a b = liveChunks l a b ++ liveChunks m a b := filter_append l m

theorem inRange_congr {d : FileChunk} (h : SameSpan c d) : d.InRange a b ↔ c.InRange a b := by
  unfold FileChunk.InRange
  rw [h.1, h.2.1]

theorem resolve_manifest {manifest : FileChunk} (hm : manifest.isChunkManifest = true)
    (hblob : blobs manifest.getFileIdString = some (chunks.map beforeEntrySerialization))
    (hspan : ∀ c ∈ chunks, manifest.offset ≤ c.offset ∧ c.stop ≤ manifest.stop)
    (hdata : ∀ c ∈ chunks, c.isChunkManifest = false) (depth : Nat) (a b : Int) :
    ∃ m, resolveChunkManifest blobs (depth + 1) [manifest] a b =
      .ok (liveChunks (chunks.map roundTrip) a b, m) := by
  have hsub : (chunks.map beforeEntrySerialization).map afterEntryDeserialization = chunks.map roundTrip := by
    rw [map_map]
    rfl
  by_cases hr : manifest.InRange a b
  · have hres : resolveChunkManifest blobs depth (chunks.map roundTrip) a b =
        .ok (liveChunks (chunks.map roundTrip) a b, []) := by
      refine resolveChunkManifest_data fun c hc => ?_
      obtain ⟨c', hc', rfl⟩ := List.mem_map.1 hc
      exact (roundTrip_span c').2.2.trans (hdata c' hc')
    rw [← hsub] at hres ⊢
    exact ⟨_, resolveLoop_singleton_manifest hr hm hblob hres⟩
  · refine ⟨[], ?_⟩
    rw [resolveChunkManifest, resolveLoop_singleton_out hr, liveChunks, List.filter_eq_nil_iff.2]
    intro c hc
    obtain ⟨c', hc', rfl⟩ := List.mem_map.1 hc
    rw [decide_eq_true_eq]
    intro hin
    obtain ⟨hlo, hhi⟩ := hspan c' hc'
    exact not_inRange_of_within hr hlo hhi ((inRange_congr (roundTrip_span c')).1 hin)

/-- The ids under which manifests are saved are new. -/
def Fresh (blobs : Blobs) (saves : List FileChunk) : Prop :=
  (saves.map FileChunk.getFileIdString).Nodup ∧ ∀ s ∈ saves, blobs s.getFileIdString = none

theorem extends_save {saved : FileChunk} (h : blobs saved.getFileIdString = none) (content : List FileChunk) :
    Extends blobs fun id => if id = saved.getFileIdString then some content else blobs id := by
  intro id chunks hid
  simp only
  rw [if_neg, hid]
  rintro rfl
  rw [h] at hid
  cases hid

/-- **Groups.** The manifests and the rest are resolved to the chunks they were made of. -/
theorem mergeEach_ok {mergeFactor groups : Nat} {saves : List FileChunk} (hpos : 0 < mergeFactor)
    (hgroups : chunks.length / mergeFactor = groups) (hsaves : groups ≤ saves.length)
    (hfresh : Fresh blobs saves) (hdata : ∀ c ∈ chunks, c.isChunkManifest = false)
    (hcanon : ∀ c ∈ chunks, c.Canonical) :
    ∃ merged saves' blobs' data',
      mergeEach mergeSaved mergeFactor groups (saves.map some, blobs) chunks = .ok (merged, saves', blobs') ∧
      Extends blobs blobs' ∧ data'.map FileChunk.normal = chunks.map FileChunk.normal ∧
      ∀ depth a b, ∃ m, resolveChunkManifest blobs' (depth + 1) merged a b = .ok (liveChunks data' a b, m) := by
  induction groups generalizing saves blobs chunks with
  | zero =>
    exact ⟨chunks, _, blobs, chunks, rfl, fun id v h => h, rfl, fun depth a b =>
      ⟨[], resolveChunkManifest_data hdata⟩⟩
  | succ groups ih =>
    have hfull : mergeFactor ≤ chunks.length := (Nat.div_pos_iff.1 (hgroups ▸ succ_pos groups)).2
    rw [Nat.div_eq_sub_div hpos hfull, ← length_drop, Nat.add_right_cancel_iff] at hgroups
    cases saves with
    | nil => simp at hsaves
    | cons saved saves =>
      obtain ⟨⟨hnew, hnodup⟩, hnone⟩ := List.nodup_cons.1 hfresh.1, hfresh.2
      have hne : chunks.take mergeFactor ≠ [] := by
        rw [Ne, take_eq_nil_iff]
        rintro (h | rfl)
        · omega
        · simp at hfull; omega
      obtain ⟨manifest, hmerge, hm, hid, hspan⟩ := mergeIntoManifest_ok blobs saved hne
      have hext := extends_save (hnone saved mem_cons_self)
        ((chunks.take mergeFactor).map beforeEntrySerialization)
      have hfresh' : Fresh (fun id => if id = saved.getFileIdString then
          some ((chunks.take mergeFactor).map beforeEntrySerialization) else blobs id) saves := by
        refine ⟨hnodup, fun s hs => ?_⟩
        simp only
        rw [if_neg, hnone s (.tail _ hs)]
        intro heq
        exact hnew (heq ▸ mem_map_of_mem hs)
      obtain ⟨merged, saves', blobs', data', hrest, hext', hnormal, hres⟩ := ih hgroups
        (le_of_succ_le_succ hsaves) hfresh' (fun c hc => hdata c (mem_of_mem_drop hc))
        (fun c hc => hcanon c (mem_of_mem_drop hc))
      refine ⟨manifest :: merged, saves', blobs', (chunks.take mergeFactor).map roundTrip ++ data', ?_,
        fun id v h => hext' id v (hext id v h), ?_, fun depth a b => ?_⟩
      · rw [mergeEach, mergeSaved]
        simp only [map_cons, head?_cons, Option.getD_some, tail_cons, hmerge, bind, Except.bind, pure,
          Except.pure]
        rw [hrest]
      · have hgroup : ((chunks.take mergeFactor).map roundTrip).map FileChunk.normal =
            (chunks.take mergeFactor).map FileChunk.normal := by
          rw [map_map]
          exact map_congr_left fun c hc => roundTrip_normal (hcanon c (mem_of_mem_take hc))
        rw [map_append, hnormal, hgroup, ← map_append, take_append_drop]
      · have hblob : blobs' manifest.getFileIdString =
            some ((chunks.take mergeFactor).map beforeEntrySerialization) := by
          rw [hid]
          exact hext' _ _ (if_pos rfl)
        obtain ⟨m, hone⟩ := resolve_manifest hm hblob hspan
          (fun c hc => hdata c (mem_of_mem_take hc)) depth a b
        obtain ⟨m', hrest'⟩ := hres depth a b
        rw [liveChunks_append]
        exact ⟨m ++ m', resolveChunkManifest_append hone hrest'⟩

theorem map_normal_liveChunks {l : List FileChunk} (h : l.map FileChunk.normal = m.map FileChunk.normal) :
    (liveChunks l a b).map FileChunk.normal = (liveChunks m a b).map FileChunk.normal := by
  have key : ∀ l : List FileChunk, (liveChunks l a b).map normal = liveChunks (l.map normal) a b := by
    intro l
    rw [liveChunks, liveChunks, filter_map]
    rfl
  rw [key, key, h]

/-- **Manifestizing.** The result of `doMaybeManifestize` is resolved to the data chunks of the input; if the
manifests of the input span their chunks, a range is resolved to those with a byte in it. -/
theorem doMaybeManifestize_resolve {input saves : List FileChunk} {mergeFactor : Nat} (hpos : 0 < mergeFactor)
    (hsaves : (input.filter fun c => ¬ c.isChunkManifest).length / mergeFactor ≤ saves.length)
    (hfresh : Fresh blobs saves) (hcanon : ∀ c ∈ input, c.isChunkManifest = false → c.Canonical)
    (hin : resolveChunkManifest blobs depth input 0 maxInt64 = .ok (data, manifests)) :
    ∃ result blobs', doMaybeManifestize (saves.map some) blobs input mergeFactor = .ok (result, blobs') ∧
      ∃ data' manifests', resolveChunkManifest blobs' (depth + 1) result 0 maxInt64 = .ok (data', manifests') ∧
        (data'.map FileChunk.normal).Perm (data.map FileChunk.normal) ∧
        (Spanning blobs depth input → ∀ a b, ∃ m,
          resolveChunkManifest blobs' (depth + 1) result a b =
            .ok (data'.filter fun c => c.InRange a b, m)) := by
  obtain ⟨merged, saves', blobs', data₂, hmerge, hext, hnormal, hres⟩ := mergeEach_ok hpos rfl hsaves hfresh
    (fun c hc => by simpa using (List.mem_filter.1 hc).2)
    (fun c hc => hcanon c (List.mem_filter.1 hc).1 (by simpa using (List.mem_filter.1 hc).2))
  obtain ⟨d₁, hd₁, hperm⟩ := resolveChunkManifest_separate hin
  obtain ⟨m, hwhole⟩ := hres depth 0 maxInt64
  refine ⟨(input.filter fun c => c.isChunkManifest) ++ merged, blobs', ?_,
    d₁ ++ liveChunks data₂ 0 maxInt64, manifests ++ m,
    resolveChunkManifest_append (resolveChunkManifest_mono hext (le_succ depth) hd₁) hwhole, ?_,
    fun hspan a b => ?_⟩
  · rw [doMaybeManifestize, hmerge]
    rfl
  · rw [map_append, map_normal_liveChunks hnormal, ← map_append]
    exact (hperm.map _).symm
  · have hspan' : Spanning blobs depth (input.filter fun c => c.isChunkManifest) := by
      cases depth with
      | zero => trivial
      | succ depth => exact fun c hc => hspan c (List.mem_filter.1 hc).1
    obtain ⟨m₁, hd₁'⟩ := hspan'.restrict hd₁ a b
    obtain ⟨m₂, hrange⟩ := hres depth a b
    rw [filter_append, filter_liveChunks_whole]
    exact ⟨m₁ ++ m₂, resolveChunkManifest_append
      (resolveChunkManifest_mono hext (le_succ depth) hd₁') hrange⟩

/-- Two chunks and a manifest of one. -/
def mixed : List FileChunk :=
  [.data "5,0200000002" 20 20 2,
    { FileChunk.data "6,01" 40 10 3 with isChunkManifest := true },
    .data "5,0300000003" 0 10 4]

/-- The blob of the manifest. -/
def mixedBlobs : Blobs := fun id =>
  if id = "6,01" then some [.data "5,0100000001" 40 10 1] else none

theorem doMaybeManifestize_resolve_mixed : ∃ data manifests result blobs' m, ∃ data' : List FileChunk,
    resolveChunkManifest mixedBlobs 1 mixed 0 maxInt64 = .ok (data, manifests) ∧
    doMaybeManifestize [some { fileId := "7,01", offset := 0, size := 99, modifiedTsNs := 5 }] mixedBlobs mixed 2 =
      .ok (result, blobs') ∧
    (data'.map FileChunk.normal).Perm (data.map FileChunk.normal) ∧
    resolveChunkManifest blobs' 2 result 10 maxInt64 = .ok (data'.filter fun c => c.InRange 10 maxInt64, m) := by
  obtain ⟨⟨data, manifests⟩, hin⟩ := Option.isSome_iff_exists.1 (show
    (resolveChunkManifest mixedBlobs 1 mixed 0 maxInt64).toOption.isSome from by decide +kernel)
  have hcanon : ∀ c ∈ mixed, c.isChunkManifest = false → c.Canonical := by decide +kernel
  have hspan : Spanning mixedBlobs 1 mixed := by
    intro c hc hm sub hsub
    refine ⟨?_, trivial⟩
    have hall : ∀ c ∈ mixed, c.isChunkManifest = true → ∀ sub ∈ mixedBlobs c.getFileIdString,
        ∀ s ∈ sub, c.offset ≤ s.offset ∧ s.stop ≤ c.stop := by decide +kernel
    exact hall c hc hm sub hsub
  have hfresh : Fresh mixedBlobs [{ fileId := "7,01", offset := 0, size := 99, modifiedTsNs := 5 }] :=
    ⟨by decide, by decide +kernel⟩
  obtain ⟨result, blobs', hresult, data', manifests', -, hperm, hrange⟩ := doMaybeManifestize_resolve
    (zero_lt_succ 1) (by decide +kernel) hfresh hcanon (toOption_eq_some.1 hin)
  obtain ⟨m, hm⟩ := hrange hspan 10 maxInt64
  exact ⟨data, manifests, result, blobs', m, data', toOption_eq_some.1 hin, hresult, hperm, hm⟩

/-- The file id of a chunk in a manifest comes back as it is printed, not as it was written. -/
theorem doMaybeManifestize_renames : ∃ result blobs' data manifests,
    doMaybeManifestize [some { fileId := "7,01", offset := 0, size := 99, modifiedTsNs := 5 }] (fun _ => none)
      [{ fileId := "03,01637037d6", offset := 0, size := 10, modifiedTsNs := 1 }] 1 = .ok (result, blobs') ∧
    resolveChunkManifest blobs' 1 result 0 maxInt64 = .ok (data, manifests) ∧
    data.map FileChunk.getFileIdString = ["3,01637037d6"] := by
  have h : ((doMaybeManifestize [some { fileId := "7,01", offset := 0, size := 99, modifiedTsNs := 5 }]
      (fun _ => none) [{ fileId := "03,01637037d6", offset := 0, size := 10, modifiedTsNs := 1 }] 1).toOption.bind
      fun r => (resolveChunkManifest r.2 1 r.1 0 maxInt64).toOption.map
        fun d => d.1.map getFileIdString) = some ["3,01637037d6"] := by decide +kernel
  obtain ⟨⟨result, blobs'⟩, hresult, h⟩ := Option.bind_eq_some_iff.1 h
  obtain ⟨⟨data, manifests⟩, hdata, hids⟩ := Option.map_eq_some_iff.1 h
  exact ⟨result, blobs', data, manifests, toOption_eq_some.1 hresult, toOption_eq_some.1 hdata, hids⟩

/-! ## A merge that fails -/

/-- **Failure.** The data chunks come back beside the error, and no manifest, so every chunk is still covered
exactly when the input has no manifest. -/
theorem doMaybeManifestize_failed {σ ε : Type} {mergefn : σ → List FileChunk → Except ε (FileChunk × σ)} {s : σ}
    {input : List FileChunk} {mergeFactor : Nat} {err : ε}
    (h : (doMaybeManifestizeWith mergefn s input mergeFactor).2 = some err)
    (inside : FileChunk → FileChunk → Prop) :
    (∀ c ∈ input, c ∈ (doMaybeManifestizeWith mergefn s input mergeFactor).1 ∨
        ∃ m ∈ (doMaybeManifestizeWith mergefn s input mergeFactor).1, m.isChunkManifest = true ∧ inside m c) ↔
      ∀ c ∈ input, c.isChunkManifest = false := by
  have hdata : (doMaybeManifestizeWith mergefn s input mergeFactor).1 =
      input.filter fun chunk => ¬ chunk.isChunkManifest := by
    unfold doMaybeManifestizeWith at h ⊢
    dsimp only at h ⊢
    split
    · rfl
    · simp_all
  rw [hdata]
  apply forall₂_congr
  intro c hc
  rw [or_iff_left]
  · simp [hc]
  · rintro ⟨m, hm, hmanifest, -⟩
    simp [hmanifest] at hm

/-- The first group is merged and the second fails. -/
def failSecond (done : Bool) (_ : List FileChunk) : Except Unit (FileChunk × Bool) :=
  if done then .error () else .ok ({ FileChunk.data "7,01" 0 99 5 with isChunkManifest := true }, true)

theorem doMaybeManifestize_failed_data :
    (doMaybeManifestizeWith failSecond false (mixed.eraseIdx 1) 1).2 = some () ∧
    ∀ c ∈ mixed.eraseIdx 1, c ∈ (doMaybeManifestizeWith failSecond false (mixed.eraseIdx 1) 1).1 ∨
      ∃ m ∈ (doMaybeManifestizeWith failSecond false (mixed.eraseIdx 1) 1).1, m.isChunkManifest = true ∧ m = c :=
  ⟨rfl, (doMaybeManifestize_failed rfl Eq).2 (by decide)⟩

/-- The manifest of the input is in no list that is returned. -/
theorem doMaybeManifestize_drops :
    (doMaybeManifestizeWith (fun (_ : Unit) _ => .error ()) () mixed 2).2 = some () ∧
    (∃ c ∈ mixed, c ∉ (doMaybeManifestizeWith (fun (_ : Unit) _ => .error ()) () mixed 2).1) ∧
    ∀ m ∈ (doMaybeManifestizeWith (fun (_ : Unit) _ => .error ()) () mixed 2).1, m.isChunkManifest = false := by
  decide +kernel

end Filer
