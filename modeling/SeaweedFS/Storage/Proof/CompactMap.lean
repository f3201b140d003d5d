import SeaweedFS.Lib.MarkMap
import SeaweedFS.Lib.Simulation
import SeaweedFS.Storage.CompactMap

/-!
# `CompactMap` is a map with delete marks

`SegInv`: the entries of a segment are sorted by key, and its first and last key are those of its entries. Over
all segments, `Set` and `Delete` change the entry of one key (`MapInv`).
-/

namespace Storage

open Lib List CompactMap CompactMapSegment CompactNeedleValue Function MarkMap

variable {pre post : List CompactNeedleValue} {v : CompactNeedleValue} {cm : CompactMap}
variable {ck : CompactKey} {l : List CompactNeedleValue}

/-! ## Keys -/

/-- The part of the key within its segment. -/
def lowKey (key : NeedleId) : CompactKey := UInt16.ofNat (key.toNat % segmentChunkSize)

theorem chunkOf_toNat (key : NeedleId) : (chunkOf key).toNat = key.toNat / 50000 := rfl

theorem lowKey_toNat (key : NeedleId) : (lowKey key).toNat = key.toNat % 50000 := by
  rw [lowKey, UInt16.toNat_ofNat', segmentChunkSize]
  omega

theorem key_unique {key key' : NeedleId} (hc : chunkOf key = chunkOf key')
    (hl : lowKey key = lowKey key') : key = key' := by
  have h1 := congrArg UInt64.toNat hc
  have h2 := congrArg UInt16.toNat hl
  rw [chunkOf_toNat, chunkOf_toNat] at h1
  rw [lowKey_toNat, lowKey_toNat] at h2
  apply UInt64.toNat_inj.1
  omega

variable {cs : CompactMapSegment} {key : NeedleId}

theorem compactKey_eq (h : cs.chunk = chunkOf key) : cs.compactKey key = lowKey key := by
  apply UInt16.toNat_inj.1
  have hlt := key.toNat_lt
  have hc : (UInt64.ofNat segmentChunkSize * chunkOf key).toNat = 50000 * (key.toNat / 50000) := by
    rw [UInt64.toNat_mul, chunkOf_toNat, segmentChunkSize, UInt64.toNat_ofNat']
    omega
  have hle : UInt64.ofNat segmentChunkSize * chunkOf key ≤ key := by
    rw [UInt64.le_iff_toNat_le, hc]
    omega
  rw [lowKey_toNat, compactKey, h, UInt64.toNat_toUInt16, UInt64.toNat_sub_of_le _ _ hle, hc]
  omega

variable {chunk : Chunk}

theorem key_toNat (h : 50000 * chunk.toNat + ck.toNat < 2 ^ 64) :
    (CompactKey.key ck chunk).toNat = 50000 * chunk.toNat + ck.toNat := by
  rw [CompactKey.key, UInt64.toNat_add, UInt64.toNat_mul, segmentChunkSize, UInt64.toNat_ofNat',
    UInt16.toNat_toUInt64]
  omega

theorem key_lowKey (key : NeedleId) : CompactKey.key (lowKey key) (chunkOf key) = key := by
  have hlt := key.toNat_lt
  apply UInt64.toNat_inj.1
  rw [key_toNat, chunkOf_toNat, lowKey_toNat]
  · omega
  · rw [chunkOf_toNat, lowKey_toNat]
    omega

/-! ## One segment -/

/-- The invariant of the segment of `chunk`. -/
structure SegInv (chunk : Chunk) (cs : CompactMapSegment) : Prop where
  chunk_eq : cs.chunk = chunk
  sorted : cs.list.Pairwise fun a b => a.key < b.key
  bound : ∀ v ∈ cs.list, v.key.toNat < 50000 ∧ 50000 * chunk.toNat + v.key.toNat < 2 ^ 64
  first : ∀ v ∈ cs.list.head?, v.key = cs.firstKey
  last : ∀ v ∈ cs.list.getLast?, v.key = cs.lastKey
  fresh : cs.list = [] → cs.firstKey = maxCompactKey ∧ cs.lastKey = 0

/-- The entry of a key in a list. -/
def listEntry (list : List CompactNeedleValue) : MarkMap CompactKey (Offset × Size) := fun ck =>
  (list.find? fun v => v.key == ck).map fun v => (CompactOffset.offset v.offset, v.size)

/-- What a segment holds. -/
def CompactMapSegment.entry (cs : CompactMapSegment) : MarkMap CompactKey (Offset × Size) :=
  listEntry cs.list

theorem segInv_new (chunk : Chunk) : SegInv chunk (newCompactMapSegment chunk) where
  chunk_eq := rfl
  sorted := List.Pairwise.nil
  bound := by simp [newCompactMapSegment]
  first := by simp [newCompactMapSegment]
  last := by simp [newCompactMapSegment]
  fresh _ := ⟨rfl, rfl⟩

/-- The entries split at `ck`: it is there, or it belongs between the parts. -/
inductive Split (list : List CompactNeedleValue) (ck : CompactKey) : Nat → Bool → Prop
  | found (pre : List CompactNeedleValue) (v : CompactNeedleValue) (post : List CompactNeedleValue) :
      list = pre ++ v :: post → v.key = ck → Split list ck pre.length true
  | missing (pre post : List CompactNeedleValue) :
      list = pre ++ post → (∀ v ∈ pre, v.key < ck) → (∀ v ∈ post, ck < v.key) →
      Split list ck pre.length false

theorem SegInv.first_le (h : SegInv chunk cs) : ∀ v ∈ cs.list, cs.firstKey ≤ v.key := by
  intro v hv
  have hs := h.sorted
  have hf := h.first
  cases hl : cs.list with
  | nil => simp [hl] at hv
  | cons a l =>
    rw [hl] at hv hs hf
    rw [← hf a rfl]
    rcases List.mem_cons.1 hv with rfl | hv
    · exact UInt16.le_refl _
    · exact UInt16.le_of_lt ((List.pairwise_cons.1 hs).1 v hv)

theorem SegInv.le_last (h : SegInv chunk cs) : ∀ v ∈ cs.list, v.key ≤ cs.lastKey := by
  intro v hv
  have hs := h.sorted
  have hl := h.last
  rcases eq_nil_or_concat cs.list with he | ⟨l, a, he⟩
  · simp [he] at hv
  · rw [concat_eq_append] at he
    rw [he] at hv hs hl
    rw [← hl a (by simp)]
    rcases List.mem_append.1 hv with hv | hv
    · exact UInt16.le_of_lt ((List.pairwise_append.1 hs).2.2 v hv a (by simp))
    · rw [List.mem_singleton.1 hv]
      exact UInt16.le_refl _

theorem pairwise_getElem_le (h : l.Pairwise fun a b => a.key < b.key)
    {i j : Nat} {a b : CompactNeedleValue} (hij : i ≤ j) (ha : l[i]? = some a) (hb : l[j]? = some b) :
    a.key ≤ b.key := by
  obtain ⟨hi, rfl⟩ := List.getElem?_eq_some_iff.1 ha
  obtain ⟨hj, rfl⟩ := List.getElem?_eq_some_iff.1 hb
  rcases Nat.eq_or_lt_of_le hij with rfl | hlt
  · exact UInt16.le_refl _
  · exact UInt16.le_of_lt (List.pairwise_iff_getElem.1 h i j hi hj hlt)

theorem search_split (hs : l.Pairwise fun a b => a.key < b.key)
    {b : CompactNeedleValue} (hb : b ∈ l) (hle : ck ≤ b.key) :
    ∃ v, l[search l.length fun i => l[i]?.any fun cnv => cnv.key ≥ ck]? = some v ∧
      Split l ck (search l.length fun i => l[i]?.any fun cnv => cnv.key ≥ ck) (v.key == ck) := by
  have hf : StaysTrue l.length fun i => l[i]?.any fun cnv => cnv.key ≥ ck := by
    intro i j hij hj hi
    obtain ⟨a, ha, hca⟩ := (Option.any_eq_true _ _).1 hi
    have hle := pairwise_getElem_le hs hij ha (getElem?_eq_getElem hj)
    simp only [decide_eq_true_eq] at hca
    simpa [getElem?_eq_getElem hj] using UInt16.le_trans hca hle
  obtain ⟨-, hbelow, habove⟩ := search_spec hf
  generalize (search l.length fun i => l[i]?.any fun cnv => cnv.key ≥ ck) = i at *
  have hi : i < l.length := by
    obtain ⟨j, hj, rfl⟩ := getElem_of_mem hb
    by_contra hge
    have := hbelow j (by omega)
    simp [getElem?_eq_getElem hj, hle] at this
  refine ⟨l[i], getElem?_eq_getElem hi, ?_⟩
  have hsplit : l = l.take i ++ l[i] :: l.drop (i + 1) := by simp
  have hlen : (l.take i).length = i := by simp [hi.le]
  have hge : ck ≤ l[i].key := by
    simpa [getElem?_eq_getElem hi] using habove i (le_refl i) hi
  by_cases heq : l[i].key = ck
  · have := Split.found (l.take i) l[i] (l.drop (i + 1)) hsplit heq
    simpa [hlen, heq] using this
  · have hlt : ck < l[i].key := UInt16.lt_of_le_of_ne hge (Ne.symm heq)
    have hmiss : Split l ck (l.take i).length false := by
      refine .missing _ _ hsplit (fun v hv => ?_) (forall_mem_cons.2 ⟨hlt, fun v hv => ?_⟩)
      · obtain ⟨j, hj, rfl⟩ := getElem_of_mem hv
        have := hbelow j (by omega)
        rw [getElem?_eq_getElem (by omega)] at this
        simpa using this
      · rw [hsplit] at hs
        exact UInt16.lt_trans hlt ((List.pairwise_cons.1 (List.pairwise_append.1 hs).2.1).1 v hv)
    rw [hlen] at hmiss
    rwa [beq_eq_false_iff_ne.2 heq]

/-- **`bsearchKey`** splits the entries at the key. -/
theorem bsearchKey_cases (h : SegInv chunk cs) (hk : chunkOf key = chunk) :
    ∃ i found, cs.bsearchKey key = .ok (i, found) ∧ Split cs.list (lowKey key) i found := by
  have hck : cs.compactKey key = lowKey key := compactKey_eq (h.chunk_eq.trans hk.symm)
  unfold bsearchKey
  rw [hck]
  generalize lowKey key = ck
  dsimp only
  by_cases hempty : cs.list.length = 0
  · rw [if_pos hempty]
    have hnil := eq_nil_of_length_eq_zero hempty
    exact ⟨_, _, rfl, .missing [] [] hnil (by simp) (by simp)⟩
  rw [if_neg hempty]
  obtain ⟨a, l, hal⟩ : ∃ a l, cs.list = a :: l := by
    cases hl : cs.list with
    | nil => simp [hl] at hempty
    | cons a l => exact ⟨a, l, rfl⟩
  by_cases hfirst : ck = cs.firstKey
  · rw [if_pos hfirst]
    exact ⟨_, _, rfl, .found [] a l hal ((h.first a (by simp [hal])).trans hfirst.symm)⟩
  rw [if_neg hfirst]
  by_cases hbefore : ck ≤ cs.firstKey
  · rw [if_pos hbefore]
    refine ⟨_, _, rfl, .missing [] cs.list rfl (by simp) fun v hv => ?_⟩
    exact UInt16.lt_of_lt_of_le (UInt16.lt_of_le_of_ne hbefore hfirst) (h.first_le v hv)
  rw [if_neg hbefore]
  obtain ⟨l', b, hlb⟩ : ∃ l' b, cs.list = l' ++ [b] := by
    rcases eq_nil_or_concat cs.list with he | ⟨l', b, he⟩
    · simp [he] at hempty
    · exact ⟨l', b, by simpa using he⟩
  have hb : b.key = cs.lastKey := h.last b (by simp [hlb])
  by_cases hend : ck = cs.lastKey
  · rw [if_pos hend]
    have hlen : cs.list.length - 1 = l'.length := by simp [hlb]
    rw [hlen]
    exact ⟨_, _, rfl, .found l' b [] hlb (hb.trans hend.symm)⟩
  rw [if_neg hend]
  by_cases hafter : ck > cs.lastKey
  · rw [if_pos hafter]
    refine ⟨_, _, rfl, .missing cs.list [] (by simp) (fun v hv => ?_) (by simp)⟩
    exact UInt16.lt_of_le_of_lt (h.le_last v hv) hafter
  rw [if_neg hafter]
  have hle : ck ≤ b.key := hb ▸ UInt16.not_lt.1 hafter
  have hmem : b ∈ cs.list := by simp [hlb]
  obtain ⟨v, hv, hsplit⟩ := search_split h.sorted hmem hle
  rw [hv]
  exact ⟨_, _, rfl, hsplit⟩

/-! ## The operations of a segment -/

/-- The mark that a deletion leaves. -/
def Size.marked (s : Size) : Size :=
  if s.isDeleted then s else if s = 0 then tombstoneFileSize else -s

/-- A deletion keeps the offset of an entry. -/
def markEntry (e : Offset × Size) : Offset × Size := (e.1, Size.marked e.2)

theorem listEntry_of_ne (h : ck ≠ v.key) :
    listEntry (pre ++ v :: post) ck = listEntry (pre ++ post) ck := by
  simp [listEntry, beq_false_of_ne (Ne.symm h)]

theorem listEntry_self (h : ∀ u ∈ pre, u.key < v.key) :
    listEntry (pre ++ v :: post) v.key = some (CompactOffset.offset v.offset, v.size) := by
  have hnone : pre.find? (fun u => u.key == v.key) = none := by
    rw [find?_eq_none]
    intro u hu he
    have := h u hu
    rw [beq_iff_eq.1 he] at this
    exact UInt16.lt_irrefl _ this
  simp [listEntry, hnone]

theorem listEntry_eq_none (h : ∀ u ∈ l, u.key ≠ ck) : listEntry l ck = none := by
  rw [listEntry, Option.map_eq_none_iff, find?_eq_none]
  exact fun u hu he => h u hu (beq_iff_eq.1 he)

theorem getLast?_mid (pre post : List CompactNeedleValue) (v b : CompactNeedleValue) :
    (pre ++ v :: (post ++ [b])).getLast? = some b := by
  rw [← cons_append, ← append_assoc, getLast?_concat]

theorem SegInv.replace (h : SegInv chunk cs) (v' : CompactNeedleValue)
    (hl : cs.list = pre ++ v :: post) (hk : v'.key = v.key) :
    SegInv chunk { cs with list := cs.list.set pre.length v' } ∧
      ({ cs with list := cs.list.set pre.length v' } : CompactMapSegment).entry =
        cs.entry.set v.key (CompactOffset.offset v'.offset, v'.size) := by
  have hset : cs.list.set pre.length v' = pre ++ v' :: post := by simp [hl]
  obtain ⟨h1, hs, hb, hf, hla, hfr⟩ := h
  rw [hl] at hs hb hf hla
  have hpre := (List.pairwise_append.1 hs).2.2
  rw [hset]
  refine ⟨⟨h1, ?_, ?_, ?_, ?_, by simp⟩, ?_⟩
  · simp only [pairwise_append, pairwise_cons, List.mem_cons] at hs ⊢
    refine ⟨hs.1, ⟨fun b hb => hk ▸ hs.2.1.1 b hb, hs.2.1.2⟩, fun a ha b hb => ?_⟩
    rcases hb with rfl | hb
    · exact hk ▸ hs.2.2 a ha v (.inl rfl)
    · exact hs.2.2 a ha b (.inr hb)
  · exact forall_mem_append.2 ⟨fun u hu => hb u (by simp [hu]),
      forall_mem_cons.2 ⟨hk ▸ hb v (by simp), fun u hu => hb u (by simp [hu])⟩⟩
  · intro u hu
    cases pre with
    | nil =>
      obtain rfl : v' = u := by simpa using hu
      exact hk ▸ hf v (by simp)
    | cons a pre => exact hf u (by simpa using hu)
  · intro u hu
    cases post using List.reverseRecOn with
    | nil =>
      obtain rfl : v' = u := by simpa using hu
      exact hk ▸ hla v (by simp)
    | append_singleton post b =>
      rw [getLast?_mid] at hla hu
      exact hla u hu
  · funext ck
    simp only [entry]
    by_cases hck : ck = v.key
    · subst hck
      rw [set_self, ← hk, listEntry_self]
      exact fun u hu => hk ▸ hpre u hu v (by simp)
    · rw [set_of_ne _ hck, hl, listEntry_of_ne hck, listEntry_of_ne (hk ▸ hck)]

theorem SegInv.length_lt (h : SegInv chunk cs)
    (hck : ck.toNat < 50000) (hno : ∀ v ∈ cs.list, v.key ≠ ck) : cs.list.length < 50000 := by
  have hnd : (ck.toNat :: cs.list.map fun v => v.key.toNat).Nodup := by
    rw [nodup_cons]
    constructor
    · intro hmem
      obtain ⟨v, hv, he⟩ := List.mem_map.1 hmem
      exact hno v hv (UInt16.toNat_inj.1 he)
    · exact List.pairwise_map.2 (h.sorted.imp fun hab => Nat.ne_of_lt (UInt16.lt_iff_toNat_lt.1 hab))
  have hsub : (ck.toNat :: cs.list.map fun v => v.key.toNat) ⊆ List.range 50000 := by
    intro n hn
    rw [mem_range]
    rcases List.mem_cons.1 hn with rfl | hn
    · exact hck
    · obtain ⟨v, hv, rfl⟩ := List.mem_map.1 hn
      exact (h.bound v hv).1
  have hle := (hnd.subperm hsub).length_le
  rw [length_cons, length_map, length_range] at hle
  omega

theorem SegInv.insert (h : SegInv chunk cs) (hl : cs.list = pre ++ post)
    (hpre : ∀ u ∈ pre, u.key < v.key) (hpost : ∀ u ∈ post, v.key < u.key)
    (hv : v.key.toNat < 50000 ∧ 50000 * chunk.toNat + v.key.toNat < 2 ^ 64) : SegInv chunk { cs with
      list := cs.list.insertIdx pre.length v
      firstKey := if v.key < cs.firstKey then v.key else cs.firstKey
      lastKey := if v.key > cs.lastKey then v.key else cs.lastKey } ∧
    listEntry (cs.list.insertIdx pre.length v) =
      cs.entry.set v.key (CompactOffset.offset v.offset, v.size) := by
  have hins : cs.list.insertIdx pre.length v = pre ++ v :: post := by
    rw [hl]
    clear hl hpre
    induction pre with
    | nil => simp
    | cons a pre ih => simp [ih]
  have hfirst := h.first_le
  have hlast := h.le_last
  obtain ⟨h1, hs, hb, hf, hla, hfr⟩ := h
  rw [hl] at hs hb hf hla hfr hfirst hlast
  rw [hins]
  refine ⟨⟨h1, ?_, ?_, ?_, ?_, by simp⟩, ?_⟩
  · have hs' := List.pairwise_append.1 hs
    exact List.pairwise_append.2 ⟨hs'.1, List.pairwise_cons.2 ⟨hpost, hs'.2.1⟩, fun a ha =>
      forall_mem_cons.2 ⟨hpre a ha, hs'.2.2 a ha⟩⟩
  · obtain ⟨hb1, hb2⟩ := forall_mem_append.1 hb
    exact forall_mem_append.2 ⟨hb1, forall_mem_cons.2 ⟨hv, hb2⟩⟩
  · intro u hu
    cases pre with
    | nil =>
      obtain rfl : v = u := by simpa using hu
      refine (if_pos ?_).symm
      cases post with
      | nil =>
        rw [(hfr rfl).1, UInt16.lt_iff_toNat_lt]
        exact lt_trans hv.1 (by decide)
      | cons a post => exact hf a rfl ▸ hpost a mem_cons_self
    | cons a pre =>
      obtain rfl : a = u := by simpa using hu
      rw [hf a rfl]
      refine (if_neg fun hlt => ?_).symm
      exact UInt16.lt_asymm (hf a rfl ▸ hpre a mem_cons_self) hlt
  · intro u hu
    cases post using List.reverseRecOn with
    | nil =>
      obtain rfl : v = u := by simpa using hu
      cases pre using List.reverseRecOn with
      | nil =>
        dsimp only
        rw [(hfr rfl).2]
        split
        · rfl
        · rename_i hle
          exact UInt16.le_antisymm (UInt16.not_lt.1 hle) (UInt16.zero_le)
      | append_singleton pre b =>
        have hb : b.key = cs.lastKey := hla b (by simp)
        exact (if_pos (hb ▸ hpre b (by simp))).symm
    | append_singleton post b =>
      rw [getLast?_mid] at hu
      obtain rfl : b = u := by simpa using hu
      have hb : b.key = cs.lastKey := hla b (by simp)
      rw [hb]
      refine (if_neg fun hlt => ?_).symm
      exact UInt16.lt_asymm (hb ▸ hpost b (by simp)) hlt
  · funext ck
    simp only [entry]
    by_cases hck : ck = v.key
    · subst hck
      rw [set_self, listEntry_self hpre]
    · rw [set_of_ne _ hck, hl, listEntry_of_ne hck]

theorem SegInv.lowKey_bound (hk : chunkOf key = chunk) :
    (lowKey key).toNat < 50000 ∧ 50000 * chunk.toNat + (lowKey key).toNat < 2 ^ 64 := by
  have := key.toNat_lt
  rw [← hk, chunkOf_toNat, lowKey_toNat]
  omega

section

variable (h : SegInv chunk cs)
include h

theorem SegInv.entry_found (hl : cs.list = pre ++ v :: post) :
    cs.entry v.key = some (CompactOffset.offset v.offset, v.size) := by
  have hs := h.sorted
  rw [hl] at hs
  rw [entry, hl, listEntry_self fun u hu => (List.pairwise_append.1 hs).2.2 u hu v (by simp)]

omit h in
theorem entry_missing
    (hl : cs.list = pre ++ post) (hpre : ∀ v ∈ pre, v.key < ck) (hpost : ∀ v ∈ post, ck < v.key) :
    (∀ v ∈ cs.list, v.key ≠ ck) ∧ cs.entry ck = none := by
  have hne : ∀ v ∈ cs.list, v.key ≠ ck := by
    intro v hv he
    rw [hl] at hv
    rcases List.mem_append.1 hv with hv | hv
    · exact UInt16.lt_irrefl _ (he ▸ hpre v hv)
    · exact UInt16.lt_irrefl _ (he ▸ hpost v hv)
  exact ⟨hne, listEntry_eq_none hne⟩

/-- **`set`** of a segment. -/
theorem SegInv.set (hk : chunkOf key = chunk) (offset : Offset) (size : Size) :
    ∃ cs', cs.set key offset size = .ok (cs', (cs.entry (lowKey key)).getD ({}, 0)) ∧
      SegInv chunk cs' ∧ cs'.entry = cs.entry.set (lowKey key) (offset, size) := by
  have hck : cs.compactKey key = lowKey key := compactKey_eq (h.chunk_eq.trans hk.symm)
  obtain ⟨i, found, hb, hsplit⟩ := bsearchKey_cases h hk
  rw [CompactMapSegment.set, hb]
  cases hsplit with
  | found pre v post hl hv =>
    obtain ⟨hinv, he⟩ := h.replace { v with offset := offsetToCompact offset, size := size } hl rfl
    refine ⟨_, ?_, hinv, hv ▸ he⟩
    rw [← hv, h.entry_found hl]
    simp [hl, bind, Except.bind, pure, Except.pure]
  | missing pre post hl hpre hpost =>
    obtain ⟨hne, hnone⟩ := entry_missing hl hpre hpost
    have hlt := h.length_lt (SegInv.lowKey_bound hk).1 hne
    obtain ⟨hinv, he⟩ := h.insert (v := ⟨lowKey key, offsetToCompact offset, size⟩) hl hpre hpost
      (SegInv.lowKey_bound hk)
    refine ⟨_, ?_, hinv, he⟩
    have hfull : ¬ cs.list.length ≥ segmentChunkSize := not_le.2 hlt
    have hle : ¬ pre.length > cs.list.length := by simp [hl]
    rw [hnone, hck]
    simp [bind, Except.bind, pure, Except.pure, hfull, hle]

/-- **`get`** of a segment. -/
theorem SegInv.get (hk : chunkOf key = chunk) : ∃ cnv, cs.get key = .ok cnv ∧
      (cnv.map fun v => v.needleValue cs.chunk) =
        (cs.entry (lowKey key)).map fun e => ⟨key, e.1, e.2⟩ := by
  obtain ⟨i, found, hb, hsplit⟩ := bsearchKey_cases h hk
  rw [CompactMapSegment.get, hb]
  cases hsplit with
  | found pre v post hl hv =>
    refine ⟨some v, by simp [hl, bind, Except.bind, pure, Except.pure], ?_⟩
    rw [← hv, h.entry_found hl, Option.map_some, Option.map_some, CompactNeedleValue.needleValue, hv,
      h.chunk_eq, ← hk, key_lowKey]
  | missing pre post hl hpre hpost =>
    refine ⟨none, by simp [bind, Except.bind, pure, Except.pure], ?_⟩
    rw [(entry_missing hl hpre hpost).2]
    rfl

/-- The size that a deletion returns. -/
def deletedSize (e : Option (Offset × Size)) : Size :=
  match e with
  | some (_, size) => if size.isDeleted then 0 else size
  | none => 0

/-- **`delete`** of a segment. -/
theorem SegInv.delete (hk : chunkOf key = chunk) :
    ∃ cs', cs.delete key = .ok (cs', deletedSize (cs.entry (lowKey key))) ∧
      SegInv chunk cs' ∧ cs'.entry = cs.entry.delete markEntry (lowKey key) := by
  obtain ⟨i, found, hb, hsplit⟩ := bsearchKey_cases h hk
  rw [CompactMapSegment.delete, hb]
  cases hsplit with
  | found pre v post hl hv =>
    have hentry := h.entry_found hl
    by_cases hd : v.size.isDeleted = true
    · refine ⟨cs, ?_, h, ?_⟩
      · rw [← hv, hentry]
        simp [hl, bind, Except.bind, pure, Except.pure, hd, deletedSize]
      · rw [delete_eq_self]
        intro e he
        rw [← hv, hentry, Option.some.injEq] at he
        rw [← he]
        simp [markEntry, Size.marked, hd]
    · obtain ⟨hinv, he⟩ := h.replace
        { v with size := if v.size = 0 then tombstoneFileSize else -v.size } hl rfl
      refine ⟨_, ?_, hinv, ?_⟩
      · rw [← hv, hentry]
        simp [hl, bind, Except.bind, pure, Except.pure, hd, deletedSize]
      · rw [he, ← hv]
        unfold MarkMap.delete MarkMap.set
        rw [hentry]
        simp [markEntry, Size.marked, hd]
  | missing pre post hl hpre hpost =>
    obtain ⟨-, hnone⟩ := entry_missing hl hpre hpost
    refine ⟨cs, ?_, h, ?_⟩
    · rw [hnone]
      rfl
    · rw [delete_eq_self]
      intro e he
      rw [hnone] at he
      cases he

end

/-! ## All segments -/

/-- The invariant of the map. -/
def MapInv (cm : CompactMap) : Prop :=
  ∀ chunk cs, cm.segments.lookup chunk = some cs → SegInv chunk cs

/-- What the map holds. -/
def CompactMap.entry (cm : CompactMap) : MarkMap NeedleId (Offset × Size) := fun key =>
  (cm.segments.lookup (chunkOf key)).bind fun cs => cs.entry (lowKey key)

theorem mapInv_new : MapInv newCompactMap := by
  intro chunk cs h
  simp [newCompactMap] at h

theorem entry_new : newCompactMap.entry = fun _ => none := rfl

section

variable (h : MapInv cm)
include h

theorem MapInv.insert {cs' : CompactMapSegment}
    (hcs : SegInv (chunkOf key) cs') {e : Option (Offset × Size)}
    (he : cs'.entry = Function.update (cm.segmentForKey key).entry (lowKey key) e) :
    MapInv ⟨cm.segments.insert (chunkOf key) cs'⟩ ∧
      (⟨cm.segments.insert (chunkOf key) cs'⟩ : CompactMap).entry = Function.update cm.entry key e := by
  constructor
  · intro chunk cs hl
    by_cases hc : chunk = chunkOf key
    · subst hc
      rw [AList.lookup_insert, Option.some.injEq] at hl
      exact hl ▸ hcs
    · exact h chunk cs (by rwa [AList.lookup_insert_ne hc] at hl)
  · funext key'
    unfold CompactMap.entry
    by_cases hc : chunkOf key' = chunkOf key
    · rw [hc, AList.lookup_insert, Option.bind_some, he]
      by_cases hk : key' = key
      · rw [hk, update_self, update_self]
      · have hlow : lowKey key' ≠ lowKey key := fun hlow => hk (key_unique hc hlow)
        rw [update_of_ne hk, update_of_ne hlow, hc, segmentForKey]
        cases cm.segments.lookup (chunkOf key) with
        | none => rfl
        | some cs => rfl
    · have hk : key' ≠ key := fun hk => hc (hk ▸ rfl)
      rw [AList.lookup_insert_ne hc, update_of_ne hk]

theorem MapInv.segmentForKey (key : NeedleId) : SegInv (chunkOf key) (cm.segmentForKey key) ∧
      (cm.segmentForKey key).entry (lowKey key) = cm.entry key := by
  unfold CompactMap.segmentForKey CompactMap.entry
  cases hl : cm.segments.lookup (chunkOf key) with
  | none => exact ⟨segInv_new _, rfl⟩
  | some cs => exact ⟨h _ cs hl, rfl⟩

/-- **`Set`.** -/
theorem MapInv.set (key : NeedleId) (offset : Offset) (size : Size) :
    ∃ cm', cm.set key offset size = .ok (cm', (cm.entry key).getD ({}, 0)) ∧ MapInv cm' ∧
      cm'.entry = cm.entry.set key (offset, size) := by
  obtain ⟨hseg, hentry⟩ := h.segmentForKey key
  obtain ⟨cs', hset, hcs, he⟩ := hseg.set rfl offset size
  obtain ⟨hinv, hent⟩ := h.insert hcs he
  refine ⟨_, ?_, hinv, hent⟩
  rw [CompactMap.set, hset, hentry]
  rfl

/-- **`Get`.** -/
theorem MapInv.get (key : NeedleId) :
    cm.get key = .ok ((cm.entry key).map fun e => ⟨key, e.1, e.2⟩) := by
  unfold CompactMap.get CompactMap.entry
  cases hl : cm.segments.lookup (chunkOf key) with
  | none => rfl
  | some cs =>
    obtain ⟨cnv, hget, he⟩ := (h _ cs hl).get rfl
    show (cs.get key >>= fun cnv => Except.ok (cnv.map fun cnv => cnv.needleValue cs.chunk)) = _
    rw [hget, Option.bind_some, ← he]
    rfl

/-- **`Delete`.** -/
theorem MapInv.delete (key : NeedleId) :
    ∃ cm', cm.delete key = .ok (cm', deletedSize (cm.entry key)) ∧ MapInv cm' ∧
      cm'.entry = cm.entry.delete markEntry key := by
  unfold CompactMap.delete
  cases hl : cm.segments.lookup (chunkOf key) with
  | none =>
    have hnone : cm.entry key = none := by rw [CompactMap.entry, hl]; rfl
    refine ⟨cm, by rw [hnone]; rfl, h, ?_⟩
    rw [delete_eq_self]
    intro v hv
    rw [hnone] at hv
    cases hv
  | some cs =>
    have hseg : cm.segmentForKey key = cs := by rw [CompactMap.segmentForKey, hl]; rfl
    have hentry := (h.segmentForKey key).2
    rw [hseg] at hentry
    obtain ⟨cs', hdel, hcs, he⟩ := (h _ cs hl).delete rfl
    rw [MarkMap.delete, ← hseg] at he
    obtain ⟨hinv, hent⟩ := h.insert hcs he
    refine ⟨_, ?_, hinv, ?_⟩
    · dsimp only
      rw [hdel, hentry]
      rfl
    · rw [hent, hseg, hentry]
      rfl

/-! ## `AscendingVisit` -/

/-- The entries of one chunk. -/
def CompactMap.visitedIn (cm : CompactMap) (c : Chunk) : List NeedleValue :=
  match cm.segments.lookup c with
  | none => []
  | some cs => cs.list.map fun cnv => cnv.needleValue cs.chunk

/-- The entries in the order of `AscendingVisit`. -/
def CompactMap.visited (cm : CompactMap) : List NeedleValue :=
  (cm.segments.keys.insertionSort (· ≤ ·)).flatMap cm.visitedIn

omit h in
theorem ascendingVisit_eq {σ ε : Type} (cm : CompactMap) (visit : σ → NeedleValue → Except ε σ)
    (s : σ) : cm.ascendingVisit visit s = cm.visited.foldlM visit s := by
  unfold ascendingVisit visited
  generalize cm.segments.keys.insertionSort (· ≤ ·) = chunks
  induction chunks generalizing s with
  | nil => rfl
  | cons c chunks ih =>
    rw [foldlM_cons, flatMap_cons, foldlM_append]
    congr 1
    · unfold visitedIn
      cases cm.segments.lookup c with
      | none => rfl
      | some cs => rw [foldlM_map]
    · funext s
      exact ih s

theorem MapInv.mem_visitedIn {c : Chunk} {nv : NeedleValue} (hnv : nv ∈ cm.visitedIn c) :
    chunkOf nv.key = c ∧ cm.entry nv.key = some (nv.offset, nv.size) := by
  unfold visitedIn at hnv
  cases hl : cm.segments.lookup c with
  | none =>
    rw [hl] at hnv
    cases hnv
  | some cs =>
    rw [hl] at hnv
    obtain ⟨v, hv, rfl⟩ := List.mem_map.1 hnv
    have hseg := h c cs hl
    obtain ⟨hb, hlt⟩ := hseg.bound v hv
    have hkey := key_toNat hlt
    have hc : chunkOf (CompactKey.key v.key c) = c := by
      apply UInt64.toNat_inj.1
      rw [chunkOf_toNat, hkey]
      omega
    have hlow : lowKey (CompactKey.key v.key c) = v.key := by
      apply UInt16.toNat_inj.1
      rw [lowKey_toNat, hkey]
      omega
    obtain ⟨pre, post, hpp⟩ := append_of_mem hv
    rw [needleValue, hseg.chunk_eq]
    rw [CompactMap.entry, hc, hl, Option.bind_some, hlow, hseg.entry_found hpp]
    exact ⟨rfl, rfl⟩

/-- **The visit** comes to the entries of the map, in strictly increasing order of their keys. -/
theorem MapInv.visited : (cm.visited.map (·.key)).Pairwise (· < ·) ∧
      ∀ nv, nv ∈ cm.visited ↔ cm.entry nv.key = some (nv.offset, nv.size) := by
  have hperm := perm_insertionSort (· ≤ ·) cm.segments.keys
  constructor
  · rw [pairwise_map, CompactMap.visited, pairwise_flatMap]
    constructor
    · intro c _
      unfold visitedIn
      cases hl : cm.segments.lookup c with
      | none => exact List.Pairwise.nil
      | some cs =>
        have hseg := h c cs hl
        refine List.pairwise_map.2 (hseg.sorted.imp_of_mem fun {a b} ha hb hab => ?_)
        rw [needleValue, needleValue, hseg.chunk_eq,
          UInt64.lt_iff_toNat_lt, key_toNat (hseg.bound a ha).2, key_toNat (hseg.bound b hb).2]
        have := UInt16.lt_iff_toNat_lt.1 hab
        omega
    · have hnd : (cm.segments.keys.insertionSort (· ≤ ·)).Nodup :=
        hperm.nodup_iff.2 cm.segments.keys_nodup
      have hsorted : (cm.segments.keys.insertionSort (· ≤ ·)).Pairwise (· < ·) :=
        ((pairwise_insertionSort (· ≤ ·) cm.segments.keys).and hnd).imp
          fun h => UInt64.lt_of_le_of_ne h.1 h.2
      refine hsorted.imp fun {c d} hcd x hx y hy => ?_
      have hxc := congrArg UInt64.toNat (h.mem_visitedIn hx).1
      have hyd := congrArg UInt64.toNat (h.mem_visitedIn hy).1
      have hcd := UInt64.lt_iff_toNat_lt.1 hcd
      rw [chunkOf_toNat] at hxc hyd
      rw [UInt64.lt_iff_toNat_lt]
      omega
  · intro nv
    rw [CompactMap.visited, mem_flatMap]
    constructor
    · rintro ⟨c, -, hnv⟩
      exact (h.mem_visitedIn hnv).2
    · intro he
      obtain ⟨cs, hl, hcs⟩ := Option.bind_eq_some_iff.1 he
      refine ⟨chunkOf nv.key, ?_, ?_⟩
      · rw [hperm.mem_iff, ← AList.mem_keys, ← AList.lookup_isSome, hl]
        rfl
      · unfold visitedIn
        rw [hl]
        obtain ⟨v, hv, hve⟩ := Option.map_eq_some_iff.1 hcs
        have hkey : v.key = lowKey nv.key := by simpa using find?_some hv
        refine List.mem_map.2 ⟨v, mem_of_find?_eq_some hv, ?_⟩
        rw [Prod.mk.injEq] at hve
        rw [needleValue, hkey, (h _ cs hl).chunk_eq, key_lowKey, hve.1, hve.2]

end

/-! ## Runs -/

/-- The operations of the map. -/
inductive MapOp where
  | set (key : NeedleId) (offset : Offset) (size : Size)
  | get (key : NeedleId)
  | delete (key : NeedleId)
deriving DecidableEq

/-- What they return. -/
inductive MapAnswer where
  | set (oldOffset : Offset) (oldSize : Size)
  | get (value : Option NeedleValue)
  | delete (oldSize : Size)
deriving DecidableEq

/-- One operation. -/
def CompactMap.step (cm : CompactMap) : MapOp → Except Panic (CompactMap × MapAnswer)
  | .set key offset size => do
    let (cm, oldOffset, oldSize) ← cm.set key offset size
    return (cm, .set oldOffset oldSize)
  | .get key => do
    let value ← cm.get key
    return (cm, .get value)
  | .delete key => do
    let (cm, oldSize) ← cm.delete key
    return (cm, .delete oldSize)

/-- The operation on a map with delete marks. -/
def markStep (m : MarkMap NeedleId (Offset × Size)) :
    MapOp → MarkMap NeedleId (Offset × Size) × MapAnswer
  | .set key offset size =>
    let old := (m key).getD ({}, 0)
    (m.set key (offset, size), .set old.1 old.2)
  | .get key => (m, .get ((m key).map fun e => ⟨key, e.1, e.2⟩))
  | .delete key => (m.delete markEntry key, .delete (deletedSize (m key)))

/-- **Step.** -/
theorem compactMap_simulates :
    Simulates (fun cm m => MapInv cm ∧ cm.entry = m) CompactMap.step markStep := by
  rintro cm m op ⟨hinv, rfl⟩
  cases op with
  | set key offset size =>
    obtain ⟨cm', hset, hinv', he⟩ := hinv.set key offset size
    refine ⟨cm', ?_, hinv', he⟩
    rw [step, hset]
    rfl
  | get key =>
    refine ⟨cm, ?_, hinv, rfl⟩
    rw [step, hinv.get key]
    rfl
  | delete key =>
    obtain ⟨cm', hdel, hinv', he⟩ := hinv.delete key
    refine ⟨cm', ?_, hinv', he⟩
    rw [step, hdel]
    rfl

theorem isDeleted_marked (s : Size) : (Size.marked s).isDeleted = true := by
  unfold Size.marked
  split
  · assumption
  · rename_i hd
    split
    · decide
    · rename_i h0
      have hs := isDeleted_eq_false_iff.1 (Bool.not_eq_true _ ▸ hd)
      rw [isDeleted_iff, toInt_neg_of_pos hs]
      have := mt size_eq_zero_iff.2 h0
      omega

theorem marked_marked (s : Size) : Size.marked (Size.marked s) = Size.marked s := by
  rw [Size.marked, if_pos (isDeleted_marked s)]

theorem specRun_after {e : Offset × Size} {ops : List MapOp}
    (hno : ∀ offset size, MapOp.set key offset size ∉ ops) :
    ∀ {m : MarkMap NeedleId (Offset × Size)}, m key = some e → (specRun markStep m ops).1 key =
        some (if MapOp.delete key ∈ ops then markEntry e else e) := by
  induction ops generalizing e with
  | nil => exact fun h => by simpa [specRun] using h
  | cons op ops ih =>
    intro m hm
    have hno' : ∀ offset size, MapOp.set key offset size ∉ ops := fun o s hmem =>
      hno o s (mem_cons_of_mem _ hmem)
    show (specRun markStep (markStep m op).1 ops).1 key = _
    by_cases hop : op = .delete key
    · subst hop
      have hd : (markStep m (.delete key)).1 key = some (markEntry e) := by simp [markStep, hm]
      have hidem : markEntry (markEntry e) = markEntry e := by
        simp only [markEntry, marked_marked]
      rw [ih hno' hd, if_pos mem_cons_self, hidem, ite_self]
    · have hsame : (markStep m op).1 key = some e := by
        cases op with
        | set key' offset size =>
          have hne : key ≠ key' := fun h => hno offset size (h ▸ mem_cons_self)
          simp [markStep, hne, hm]
        | get key' => exact hm
        | delete key' =>
          have hne : key ≠ key' := fun h => hop (h ▸ rfl)
          simp [markStep, hne, hm]
      rw [ih hno' hsame]
      simp [Ne.symm hop]

theorem isSome_specRun (key : NeedleId) (ops : List MapOp) (m : MarkMap NeedleId (Offset × Size)) :
    ((specRun markStep m ops).1 key).isSome ↔
      (m key).isSome ∨ ∃ offset size, MapOp.set key offset size ∈ ops := by
  induction ops generalizing m with
  | nil => simp [specRun]
  | cons op ops ih =>
    show ((specRun markStep (markStep m op).1 ops).1 key).isSome ↔ _
    rw [ih]
    cases op with
    | set key' offset size =>
      by_cases hk : key = key'
      · subst hk
        exact ⟨fun _ => .inr ⟨offset, size, mem_cons_self⟩, fun _ => .inl (by simp [markStep])⟩
      · simp [markStep, hk]
    | get key' => simp [markStep]
    | delete key' =>
      by_cases hk : key = key'
      · subst hk
        simp [markStep]
      · simp [markStep, hk]

/-- **`CompactMap`** after any run: no operation panicked, each returned what a map with delete marks returns, and
the map holds that map. `AscendingVisit` comes to each key that was set once, in increasing order. -/
theorem compactMap_run (ops : List MapOp) :
    ∃ (cm : CompactMap) (visited : List NeedleValue),
      run CompactMap.step newCompactMap ops =
        .ok (cm, (specRun markStep (fun _ => none) ops).2) ∧
      (∀ key, (∀ offset size, MapOp.set key offset size ∉ ops) → cm.get key = .ok none) ∧
      (∀ before after key offset size, ops = before ++ MapOp.set key offset size :: after →
        (∀ offset' size', MapOp.set key offset' size' ∉ after) →
        cm.get key = .ok (some ⟨key, offset,
          if MapOp.delete key ∈ after then Size.marked size else size⟩)) ∧
      (∀ (σ ε : Type) (visit : σ → NeedleValue → Except ε σ) (s : σ),
        cm.ascendingVisit visit s = visited.foldlM visit s) ∧
      (visited.map (·.key)).Pairwise (· < ·) ∧
      (∀ key, key ∈ visited.map (·.key) ↔ ∃ offset size, MapOp.set key offset size ∈ ops) ∧
      ∀ nv ∈ visited, cm.get nv.key = .ok (some nv) := by
  obtain ⟨cm, hrun, hinv, hentry⟩ := compactMap_simulates.run ops ⟨mapInv_new, entry_new⟩
  have hsome : ∀ key, (cm.entry key).isSome ↔ ∃ offset size, MapOp.set key offset size ∈ ops := by
    intro key
    rw [hentry, isSome_specRun]
    simp
  obtain ⟨hsorted, hmem⟩ := hinv.visited
  refine ⟨cm, cm.visited, hrun, fun key hno => ?_, fun before after key offset size hops hno => ?_,
    fun σ ε visit s => ascendingVisit_eq cm visit s, hsorted, fun key => ?_, fun nv hnv => ?_⟩
  · have hnone : cm.entry key = none := by
      rw [← Option.not_isSome_iff_eq_none, hsome]
      exact fun ⟨o, s, h⟩ => hno o s h
    rw [hinv.get, hnone]
    rfl
  · have hset : (markStep (specRun markStep (fun _ => none) before).1 (.set key offset size)).1 key =
        some (offset, size) := by simp [markStep]
    have hafter := specRun_after hno hset
    have hkey : cm.entry key = some (if MapOp.delete key ∈ after then markEntry (offset, size)
        else (offset, size)) := by
      rw [hentry, hops, specRun_append]
      exact hafter
    rw [hinv.get, hkey]
    split <;> rfl
  · rw [← hsome, mem_map]
    constructor
    · rintro ⟨nv, hnv, rfl⟩
      rw [(hmem nv).1 hnv]
      rfl
    · intro h
      obtain ⟨⟨offset, size⟩, he⟩ := Option.isSome_iff_exists.1 h
      exact ⟨⟨key, offset, size⟩, (hmem _).2 he, rfl⟩
  · rw [hinv.get, (hmem nv).1 hnv]
    rfl

/-- The deletion of an entry of size 0 does not negate the size. -/
theorem compactMap_delete_empty :
    (run CompactMap.step newCompactMap
      [.set 1 ⟨0, 0, 0, 1⟩ 0, .delete 1, .get 1]).toOption.map (·.2) =
      some [.set {} 0, .delete 0, .get (some ⟨1, ⟨0, 0, 0, 1⟩, -1⟩)] ∧ (-1 : Size) ≠ -0 := by
  decide +kernel

end Storage
