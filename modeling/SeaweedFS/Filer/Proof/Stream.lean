import SeaweedFS.Filer.Stream
import SeaweedFS.Filer.Proof.Compact
import SeaweedFS.Filer.Proof.Section

/-!
# A stream writes the range

Servers deliver parts of the wanted bytes and fail as they like (`Cluster.Serves`). The attempts for one view write
its beginning, each byte once (`Delivered`), so a whole call writes a beginning of the range (`run_range`).
-/

namespace Filer

open Lib List Function Int Nat

variable {stored : String → Nat → UInt8} {cluster : Cluster} {view : ChunkView} {base W : List UInt8}

variable {urls : List String}

/-! ## One attempt -/

/-- The bytes of a view. -/
def wanted (stored : String → Nat → UInt8) (view : ChunkView) : List UInt8 :=
  (List.range view.viewSize).map fun i => stored view.fileId (view.offsetInChunk.toNat + i)

/-- Every attempt delivers a part of the view from its start on, all of it if it reports no error. -/
def Cluster.Serves (cluster : Cluster) (stored : String → Nat → UInt8) : Prop :=
  ∀ n url view, (cluster.fetch n url view).pieces.flatten <+: wanted stored view ∧
    ((cluster.fetch n url view).err = none → (cluster.fetch n url view).pieces.flatten = wanted stored view)

theorem take_append_piece {d : List UInt8} {l k : Nat} (hd : d <+: W.drop l) (hl : l ≤ k) (hk : k ≤ l + d.length) :
    W.take k ++ d.drop (k - l) = W.take (l + d.length) := by
  obtain ⟨t, ht⟩ := hd
  obtain ⟨m, rfl⟩ : ∃ m, k = l + m := ⟨k - l, by omega⟩
  rw [take_add, take_add, ← ht, take_left, take_append_of_le_length (by omega),
    Nat.add_sub_cancel_left, append_assoc, take_append_drop]

theorem Receiver.receive_eq {d : List UInt8} {l : Nat} (tw : Nat) (hd : d <+: W.drop l) :
    Receiver.receive ⟨l, max tw l, base ++ W.take (max tw l)⟩ d =
      ⟨l + d.length, max tw (l + d.length), base ++ W.take (max tw (l + d.length))⟩ := by
  unfold Receiver.receive Receiver.write
  dsimp only
  by_cases hlt : l < max tw l
  · rw [if_pos hlt]
    have htw : max tw l = tw := by omega
    rw [htw]
    by_cases hle : d.length ≤ tw - l
    · rw [if_pos hle, show max tw (l + d.length) = tw by omega]
    · rw [if_neg hle, show max tw (l + d.length) = l + d.length by omega, append_assoc,
        take_append_piece hd (by omega) (by omega), length_drop]
      congr 1 <;> omega
  · rw [if_neg hlt]
    have htw : max tw l = l := by omega
    rw [htw, show max tw (l + d.length) = l + d.length by omega, append_assoc]
    have := take_append_piece hd (le_refl l) (by omega)
    rw [Nat.sub_self, drop_zero] at this
    rw [this]

theorem foldl_receive {pieces : List (List UInt8)} {l : Nat} (base : List UInt8) (tw : Nat)
    (hp : pieces.flatten <+: W.drop l) :
    pieces.foldl Receiver.receive ⟨l, max tw l, base ++ W.take (max tw l)⟩ =
      ⟨l + pieces.flatten.length, max tw (l + pieces.flatten.length),
        base ++ W.take (max tw (l + pieces.flatten.length))⟩ := by
  induction pieces generalizing l with
  | nil => rfl
  | cons d pieces ih =>
    rw [flatten_cons] at hp ⊢
    have hd : d <+: W.drop l := (prefix_append d _).trans hp
    have hrest : pieces.flatten <+: W.drop (l + d.length) := by
      rw [← drop_drop]
      obtain ⟨t, ht⟩ := hp
      rw [← ht, append_assoc, drop_left]
      exact prefix_append _ _
    rw [foldl_cons, Receiver.receive_eq tw hd, ih hrest, length_append, add_assoc]

/-! ## Retries -/

/-- The first `totalWritten` bytes of `W` were written after `base`. -/
structure Delivered (base W : List UInt8) (f : Fetched) : Prop where
  out : f.out = base ++ W.take f.totalWritten
  le : f.totalWritten ≤ W.length

/-- All of them unless there is an error. -/
structure Answered (base W : List UInt8) (f : Fetched) : Prop extends Delivered base W f where
  complete : f.err = none → f.totalWritten = W.length

section

variable (hs : cluster.Serves stored)
include hs

variable {f : Fetched}

theorem Delivered.attempt (h : Delivered base (wanted stored view) f)
    (url : String) : Answered base (wanted stored view) (f.attempt cluster view url) := by
  obtain ⟨hpre, hall⟩ := hs f.clock url view
  have hfold := foldl_receive (W := wanted stored view) (l := 0) base f.totalWritten hpre
  rw [max_eq_left (zero_le _), zero_add, ← h.out] at hfold
  have hle := hpre.length_le
  have hle' := h.le
  refine ⟨⟨?_, ?_⟩, fun herr => ?_⟩
  · rw [Fetched.attempt, hfold]
  · rw [Fetched.attempt, hfold]
    exact Nat.max_le.2 ⟨hle', hle⟩
  · rw [Fetched.attempt, hfold, hall herr]
    exact max_eq_right hle'

theorem Answered.fetchReplicas (h : Answered base (wanted stored view) f) (urls : List String) :
    Answered base (wanted stored view) (fetchReplicas cluster view urls f) := by
  induction urls generalizing f with
  | nil => exact h
  | cons url urls ih =>
    have hnext := h.toDelivered.attempt hs url
    rw [Filer.fetchReplicas]
    split
    · exact hnext
    · split
      · exact ih hnext
      · exact hnext

theorem Delivered.fetchReplicas (h : Delivered base (wanted stored view) f) (hne : urls ≠ []) :
    Answered base (wanted stored view) (fetchReplicas cluster view urls f) := by
  obtain ⟨url, urls, rfl⟩ := exists_cons_of_ne_nil hne
  have hnext := h.attempt hs url
  rw [Filer.fetchReplicas]
  split
  · exact hnext
  · split
    · exact hnext.fetchReplicas hs urls
    · exact hnext

theorem Delivered.fetchRounds (h : Delivered base (wanted stored view) f) (hne : urls ≠ []) {wait : Nat}
    {waits : List Nat} :
    Answered base (wanted stored view) (fetchRounds cluster view urls (wait :: waits) f) := by
  induction waits generalizing f wait with
  | nil =>
    have hround := Delivered.fetchReplicas hs (f := { f with retriedCnt := 0 }) ⟨h.out, h.le⟩ hne
    rw [Filer.fetchRounds]
    split
    · exact hround
    · split <;> exact hround
  | cons wait' waits ih =>
    have hround := Delivered.fetchReplicas hs (f := { f with retriedCnt := 0 }) ⟨h.out, h.le⟩ hne
    rw [Filer.fetchRounds]
    split
    · exact hround
    · split
      · exact ih hround.toDelivered
      · exact hround

/-- **Retries do not repeat bytes.** -/
theorem answered_retriedStreamFetchChunkData (hne : urls ≠ [])
    (view : ChunkView) (base : List UInt8) (clock : Nat) :
    Answered base (wanted stored view) (retriedStreamFetchChunkData cluster urls view base clock) :=
  Delivered.fetchRounds hs ⟨(append_nil _).symm, zero_le _⟩ hne

theorem answered_fetchView {st : Stream} (view : ChunkView) (hne : st.fileId2Url view.fileId ≠ []) :
    Answered st.out (wanted stored view) (st.fetchView cluster view).1 ∧
      ∀ fileId, st.fileId2Url fileId ≠ [] → (st.fetchView cluster view).2 fileId ≠ [] := by
  have h := answered_retriedStreamFetchChunkData hs hne view st.out st.clock
  unfold Stream.fetchView
  dsimp only
  split
  next hretry =>
    split
    next newUrls hlookup =>
      split
      next hnew =>
        have hout : (retriedStreamFetchChunkData cluster (st.fileId2Url view.fileId) view st.out st.clock).out =
            st.out := by
          rw [h.out, hretry.2.1, take_zero, append_nil]
        rw [hout]
        refine ⟨answered_retriedStreamFetchChunkData hs hnew.1 _ _ _, fun fileId hid => ?_⟩
        split
        · by_cases heq : fileId = view.fileId
          · show update st.fileId2Url view.fileId newUrls fileId ≠ []
            rw [heq, update_self]
            exact hnew.1
          · show update st.fileId2Url view.fileId newUrls fileId ≠ []
            rw [update_of_ne heq]
            exact hid
        · exact hid
      next => exact ⟨⟨⟨h.out, h.le⟩, h.complete⟩, fun _ hid => hid⟩
    next => exact ⟨⟨⟨h.out, h.le⟩, h.complete⟩, fun _ hid => hid⟩
  next => exact ⟨h, fun _ hid => hid⟩

end

theorem writeZero_eq {fuel : Nat} {size : Int} (h : size.toNat ≤ fuel) (out : List UInt8) :
    writeZero fuel size out = out ++ List.replicate size.toNat 0 := by
  induction fuel generalizing size out with
  | zero =>
    rw [show size.toNat = 0 by omega]
    exact (append_nil out).symm
  | succ fuel ih =>
    rw [writeZero]
    split
    next hpos =>
      have hw : (if 1024 < size then (1024 : Int) else size).toNat +
          (size - if 1024 < size then (1024 : Int) else size).toNat = size.toNat := by
        split <;> omega
      rw [ih (by omega), append_assoc, ← replicate_add, hw]
    next hneg =>
      rw [show size.toNat = 0 by omega]
      exact (append_nil out).symm

/-! ## The views -/

/-- The bytes `f` of `[offset, offset + n)`. -/
def rangeBytes (f : Int → UInt8) (offset : Int) (n : Nat) : List UInt8 :=
  (List.range n).map fun i : Nat => f (offset + i)

theorem rangeBytes_add (f : Int → UInt8) (offset : Int) (m n : Nat) :
    rangeBytes f offset (m + n) = rangeBytes f offset m ++ rangeBytes f (offset + m) n := by
  simp only [rangeBytes, range_add, map_append, map_map, Function.comp_def, Nat.cast_add, Int.add_assoc]

theorem rangeBytes_zero {f : Int → UInt8} {offset : Int} {n : Nat}
    (h : ∀ x, offset ≤ x → x < offset + n → f x = 0) : rangeBytes f offset n = List.replicate n 0 := by
  rw [rangeBytes, List.map_eq_replicate_iff.2, length_range]
  intro i hi
  have := List.mem_range.1 hi
  exact h _ (by omega) (by omega)

theorem rangeBytes_mono (f : Int → UInt8) (offset : Int) {m n : Nat} (h : m ≤ n) :
    rangeBytes f offset m <+: rangeBytes f offset n := by
  obtain ⟨k, rfl⟩ := Nat.exists_eq_add_of_le h
  rw [rangeBytes_add]
  exact prefix_append _ _

/-- The bytes from `o` to the stream's offset are written, and those up to `e` remain. -/
structure Streamed (f : Int → UInt8) (o e : Int) (st : Stream) : Prop where
  le : o ≤ st.offset
  offset_le : st.offset ≤ e
  remaining : st.remaining = e - st.offset
  out : st.out = rangeBytes f o (st.offset - o).toNat

variable {f : Int → UInt8} {o e : Int} {st : Stream}

theorem Streamed.append (h : Streamed f o e st) {x : Int} (hx : st.offset ≤ x) :
    st.out ++ rangeBytes f st.offset (x - st.offset).toNat = rangeBytes f o (x - o).toNat := by
  have hle := h.le
  rw [h.out, show (x - o).toNat = (st.offset - o).toNat + (x - st.offset).toNat by omega, rangeBytes_add,
    show o + ((st.offset - o).toNat : Int) = st.offset by omega]

theorem Streamed.fillGap (h : Streamed f o e st) (view : ChunkView) (hle : st.offset ≤ view.viewOffset)
    (he : view.viewOffset ≤ e) (hz : ∀ x, st.offset ≤ x → x < view.viewOffset → f x = 0) :
    Streamed f o e (st.fillGap view) ∧ (st.fillGap view).offset = view.viewOffset ∧
      (st.fillGap view).fileId2Url = st.fileId2Url := by
  have hl := h.le
  have hrem := h.remaining
  unfold Stream.fillGap
  split
  next hlt =>
    refine ⟨⟨by dsimp only; omega, he, by dsimp only; omega, ?_⟩, rfl, rfl⟩
    dsimp only
    rw [writeZero_eq (le_refl _), ← h.append hle, rangeBytes_zero]
    exact fun x h1 h2 => hz x h1 (by omega)
  next hge =>
    exact ⟨h, by omega, rfl⟩

variable {fileSize : Int} {rest : IntervalList ChunkView} {x : Interval ChunkView}

theorem wanted_eq
    (hv : ViewsOk (x :: rest) fileSize) (hsize : x.value.viewSize = (x.stopOffset - x.startOffset).toNat)
    (hf : ∀ y, x.startOffset ≤ y → y < x.stopOffset → f y = byteAt stored (x :: rest) y) :
    wanted stored x.value = rangeBytes f x.startOffset (x.stopOffset - x.startOffset).toNat := by
  obtain ⟨hvo, -⟩ := hv.exact x mem_cons_self
  obtain ⟨hin, -⟩ := hv.inChunk x mem_cons_self
  rw [wanted, rangeBytes, hsize]
  refine map_congr_left fun i hi => ?_
  have hi := List.mem_range.1 hi
  rw [hf _ (by omega) (by omega), byteAt_cons_of_mem (by omega) (by omega)]
  congr 1
  omega

/-- **One view.** What has been written is the beginning of the range, and without an error it goes to the end
of the view. -/
theorem Streamed.writeView
    (hs : cluster.Serves stored) (h : Streamed f o e st) (hv : ViewsOk (x :: rest) fileSize)
    (hsize : x.value.viewSize = (x.stopOffset - x.startOffset).toNat)
    (hstart : st.offset ≤ x.startOffset) (hstop : x.stopOffset ≤ e)
    (hurl : st.fileId2Url x.value.fileId ≠ [])
    (hf : ∀ y, st.offset ≤ y → y < e → f y = byteAt stored (x :: rest) y) :
    (st.writeView cluster x.value).1.out <+: rangeBytes f o (e - o).toNat ∧
      (∀ fileId, st.fileId2Url fileId ≠ [] → (st.writeView cluster x.value).1.fileId2Url fileId ≠ []) ∧
      ((st.writeView cluster x.value).2 = none → Streamed f o e (st.writeView cluster x.value).1 ∧
        (st.writeView cluster x.value).1.offset = x.stopOffset) := by
  have hpos : x.startOffset < x.stopOffset := hv.ordered.pos x mem_cons_self
  obtain ⟨hvo, hvs⟩ := hv.exact x mem_cons_self
  have hlater : ∀ i ∈ rest, x.stopOffset ≤ i.startOffset := (List.pairwise_cons.1 hv.ordered.pairwise).1
  have hgap : ∀ y, st.offset ≤ y → y < x.value.viewOffset → f y = 0 := by
    intro y h1 h2
    rw [hf y h1 (by omega), byteAt_of_lt]
    intro i hi
    cases hi with
    | head => omega
    | tail _ hi =>
      have := hlater i hi
      omega
  obtain ⟨hfill, hoff, hsame⟩ := h.fillGap x.value (by omega) (by omega) hgap
  obtain ⟨hans, hkeep⟩ := answered_fetchView hs x.value (hsame ▸ hurl)
  have hw := wanted_eq (f := f) hv hsize fun y h1 h2 => hf y (by omega) (by omega)
  have hall : (st.fillGap x.value).out ++ wanted stored x.value = rangeBytes f o (x.stopOffset - o).toNat := by
    rw [hw, ← hvo, ← hoff]
    exact hfill.append (by omega)
  have hle := h.le
  refine ⟨?_, fun fileId hid => hkeep fileId (by rwa [hsame]), fun hnone => ⟨⟨?_, ?_, ?_, ?_⟩, ?_⟩⟩
  · show ((st.fillGap x.value).fetchView cluster x.value).1.out <+: _
    rw [hans.out]
    refine List.IsPrefix.trans ?_ (rangeBytes_mono f o (m := (x.stopOffset - o).toNat) (by omega))
    rw [← hall]
    exact prefix_append_right_inj _ |>.2 ( take_prefix _ _)
  · show o ≤ (st.fillGap x.value).offset + int64 x.value.viewSize
    omega
  · show (st.fillGap x.value).offset + int64 x.value.viewSize ≤ e
    omega
  · show (st.fillGap x.value).remaining - int64 x.value.viewSize =
      e - ((st.fillGap x.value).offset + int64 x.value.viewSize)
    have := hfill.remaining
    omega
  · show ((st.fillGap x.value).fetchView cluster x.value).1.out =
      rangeBytes f o ((st.fillGap x.value).offset + int64 x.value.viewSize - o).toNat
    have hend : (st.fillGap x.value).offset + int64 x.value.viewSize = x.stopOffset := by omega
    rw [hans.out, hans.complete (Option.map_eq_none_iff.1 hnone), take_length, hall, hend]
  · show (st.fillGap x.value).offset + int64 x.value.viewSize = x.stopOffset
    omega

variable {views : IntervalList ChunkView}

/-- **The loop over the views.** -/
theorem Streamed.writeViews
    (hs : cluster.Serves stored) (h : Streamed f o e st) (hv : ViewsOk views fileSize)
    (hrange : ∀ x ∈ views, x.value.viewSize = (x.stopOffset - x.startOffset).toNat ∧
      st.offset ≤ x.startOffset ∧ x.stopOffset ≤ e)
    (hurls : ∀ x ∈ views, st.fileId2Url x.value.fileId ≠ [])
    (hf : ∀ y, st.offset ≤ y → y < e → f y = byteAt stored views y) :
    (st.writeViews cluster views).1.out <+: rangeBytes f o (e - o).toNat ∧
      ((st.writeViews cluster views).2 = none → Streamed f o e (st.writeViews cluster views).1 ∧
        ∀ y, (st.writeViews cluster views).1.offset ≤ y → y < e → f y = 0) := by
  induction views generalizing st with
  | nil =>
    have hoff := h.offset_le
    refine ⟨?_, fun _ => ⟨h, fun y h1 h2 => by rw [hf y h1 h2]; rfl⟩⟩
    show st.out <+: _
    rw [h.out]
    exact rangeBytes_mono f o (by omega)
  | cons x views ih =>
    obtain ⟨hsize, hstart, hstop⟩ := hrange x mem_cons_self
    obtain ⟨hpre, hkeep, hnext⟩ := h.writeView hs hv hsize hstart hstop (hurls x mem_cons_self) hf
    rw [Stream.writeViews]
    split
    next st' err heq =>
      rw [heq] at hpre
      exact ⟨hpre, fun hnone => nomatch hnone⟩
    next st' heq =>
      rw [heq] at hkeep hnext
      obtain ⟨hst, hoff⟩ := hnext rfl
      dsimp only at hoff hst hkeep
      obtain ⟨hlater, hord⟩ := List.pairwise_cons.1 hv.ordered.pairwise
      have hpos : x.startOffset < x.stopOffset := hv.ordered.pos x mem_cons_self
      have hv' : ViewsOk views fileSize :=
        ⟨⟨fun i hi => hv.ordered.pos i (.tail _ hi), hord⟩, fun i hi => hv.exact i (.tail _ hi),
          fun i hi => hv.inChunk i (.tail _ hi), fun i hi => hv.stop_le i (.tail _ hi)⟩
      refine ih hst hv' (fun i hi => ?_) (fun i hi => hkeep _ (hurls i (.tail _ hi))) fun y h1 h2 => ?_
      · obtain ⟨h1, -, h3⟩ := hrange i (.tail _ hi)
        exact ⟨h1, hoff ▸ hlater i hi, h3⟩
      · rw [hf y (by omega) h2, byteAt_cons_of_not_mem (.inr (by omega))]

/-! ## Preparing -/

theorem lookupViews_urls {urls urls' : String → List String} {clock clock' : Nat}
    (h : lookupViews cluster views urls clock = .ok (urls', clock')) :
    (∀ fileId, urls fileId ≠ [] → urls' fileId ≠ []) ∧ ∀ x ∈ views, urls' x.value.fileId ≠ [] := by
  induction views generalizing urls clock with
  | nil =>
    obtain ⟨rfl, rfl⟩ := Prod.mk.inj (Except.ok.inj h)
    exact ⟨fun _ hid => hid, fun x hx => nomatch hx⟩
  | cons x views ih =>
    rw [lookupViews] at h
    split at h
    next => cases h
    next => cases h
    next urlStrings clock'' hne heq =>
      obtain ⟨hkeep, hall⟩ := ih h
      have hself : update urls x.value.fileId urlStrings x.value.fileId ≠ [] := by
        rw [update_self]
        exact fun hnil => hne hnil
      refine ⟨fun fileId hid => hkeep fileId ?_, fun y hy => ?_⟩
      · by_cases heq : fileId = x.value.fileId
        · rwa [heq]
        · rwa [update_of_ne heq]
      · cases hy with
        | head => exact hkeep _ hself
        | tail _ hy => exact hall y hy

/-- The bytes of a file in `[offset, offset + n)`. -/
def fileRange (stored : String → Nat → UInt8) (chunks : List FileChunk) (offset : Int) (n : Nat) : List UInt8 :=
  rangeBytes (fun x => byteOf stored ((newest? chunks x).map fun c => (c.getFileIdString, x - c.offset))) offset n

variable {chunks : List FileChunk} {offset size : Int}

theorem viewFromChunks_eq (S : SortFunc Point) (blobs : Blobs) (depth : Nat)
    (hdata : ∀ c ∈ chunks, c.isChunkManifest = false) :
    viewFromChunks S blobs depth chunks offset size = .ok (viewFromVisibleIntervals
        (readResolvedChunks S (liveChunks chunks offset (int64 (offset + size))) 0 maxInt64) offset size) := by
  rw [viewFromChunks, nonOverlappingVisibleIntervals, resolveChunkManifest_data hdata]
  rfl

/-- The views of a range. -/
structure RangeViews (chunks : List FileChunk) (offset size : Int) (views : IntervalList ChunkView) : Prop where
  ok : ViewsOk views maxInt64
  range : ∀ x ∈ views, x.value.viewSize = (x.stopOffset - x.startOffset).toNat ∧
    offset ≤ x.startOffset ∧ x.stopOffset ≤ offset + size
  shows : ∀ x, offset ≤ x → x < offset + size →
    (lookAt ChunkView.place views x).map (·.2) =
      (newest? chunks x).map fun c => (c.getFileIdString, x - c.offset)

theorem viewStop_eq (ho : 0 ≤ offset) (hs : 0 ≤ size) (hend : offset + size ≤ maxInt64) :
    viewStop offset size = offset + size := by
  have h64 : int64 (offset + size) = offset + size := int64_of_range (by omega) hend
  unfold viewStop
  dsimp only
  split
  · split <;> omega
  · split <;> omega

theorem uint64_toNat {n : Int} (h0 : 0 ≤ n) (h : n ≤ maxInt64) : uint64 n = n.toNat := by
  have := uint64_add (k := 0) h0 h
  rwa [Nat.add_zero, Nat.cast_zero, Int.add_zero] at this

theorem rangeViews_viewFromChunks (S : SortFunc Point) (blobs : Blobs) (depth : Nat)
    (hdata : ∀ c ∈ chunks, c.isChunkManifest = false) (hd : DistinctTs chunks) (ho : 0 ≤ offset) (hs : 0 ≤ size)
    (hend : offset + size ≤ maxInt64) (h : viewFromChunks S blobs depth chunks offset size = .ok views) :
    RangeViews chunks offset size views := by
  have h64 : int64 (offset + size) = offset + size := int64_of_range (by omega) hend
  rw [viewFromChunks_eq S blobs depth hdata, h64] at h
  obtain rfl := Except.ok.inj h
  obtain ⟨hcarries, hbacked⟩ :=
    readResolvedChunks_backed S (liveChunks chunks offset (offset + size)) 0 maxInt64
  have hordered := readResolvedChunks_ordered S (liveChunks chunks offset (offset + size)) 0 maxInt64
  obtain ⟨hvo, hvr⟩ := ordered_views hordered hcarries offset (viewStop offset size)
  have hlook := lookAt_views hcarries offset (viewStop offset size)
  have hvb : ∀ x, Backed (liveChunks chunks offset (offset + size)) x (lookAt ChunkView.place
      ((readResolvedChunks S (liveChunks chunks offset (offset + size)) 0 maxInt64).filterMap
        (viewOf offset (viewStop offset size))) x) := by
    intro x
    rw [hlook x]
    split
    · exact hbacked x
    · exact .none _ x
  refine ⟨viewsOk_of_backed hvo hvr hvb fun c _ => c.stop_le_maxInt64, fun v hv => ?_, fun x h1 h2 => ?_⟩
  · obtain ⟨i, hi, hiv⟩ := List.mem_filterMap.1 hv
    obtain ⟨hstart, hstop, hlt, -, hsize⟩ := viewOf_some (hcarries i hi) hiv
    rw [viewStop_eq ho hs hend] at hstop
    have hbound : v.stopOffset - v.startOffset ≤ maxInt64 := by omega
    exact ⟨hsize.trans (uint64_toNat (by omega) hbound), by omega, by omega⟩
  · have hlive : DistinctTs (liveChunks chunks offset (offset + size)) := hd.sublist filter_sublist
    have hshows := readResolvedChunks_shows S (a := 0) (b := maxInt64) hlive x
    rw [newest?_liveChunks_all, newest?_liveChunks chunks h1 h2] at hshows
    rw [viewFromVisibleIntervals, hlook, viewStop_eq ho hs hend, if_pos ⟨h1, h2⟩,
      lookAt_of_shows hordered hshows, chunkAt, Option.map_map]
    rfl

theorem run_range (hcl : cluster.Serves stored) (hs : 0 ≤ size) {urls : String → List String} (clock : Nat)
    (hv : RangeViews chunks offset size views) (hurls : ∀ x ∈ views, urls x.value.fileId ≠ []) :
    let r := Prepared.run cluster ⟨views, ⟨offset, size, [], urls, clock⟩⟩
    r.1 <+: fileRange stored chunks offset size.toNat ∧
      (r.2 = none → r.1 = fileRange stored chunks offset size.toNat) := by
  have hstart : Streamed (fun x => byteOf stored ((newest? chunks x).map fun c => (c.getFileIdString, x - c.offset)))
      offset (offset + size) ⟨offset, size, [], urls, clock⟩ :=
    ⟨le_refl _, by dsimp only; omega, by dsimp only; omega, by rw [sub_self]; rfl⟩
  have hloop := hstart.writeViews hcl hv.ok hv.range hurls fun y h1 h2 => by
    rw [byteAt, hv.shows y h1 h2]
  rw [show offset + size - offset = size by omega] at hloop
  obtain ⟨hpre, hdone⟩ := hloop
  unfold Prepared.run
  split
  next st err heq =>
    rw [heq] at hpre
    exact ⟨hpre, by simp⟩
  next st heq =>
    rw [heq] at hdone
    obtain ⟨hst, hzero⟩ := hdone rfl
    dsimp only at hst hzero
    have hall : st.out ++ List.replicate st.remaining.toNat 0 = fileRange stored chunks offset size.toNat := by
      have := hst.append hst.offset_le
      rw [rangeBytes_zero (n := (offset + size - st.offset).toNat) fun x h1 h2 => hzero x h1 (by omega),
        ← hst.remaining, show offset + size - offset = size by omega] at this
      exact this
    split
    next hpos =>
      rw [writeZero_eq (le_refl _), hall]
      exact ⟨prefix_rfl, fun _ => rfl⟩
    next hneg =>
      rw [show st.remaining.toNat = 0 by omega, replicate_zero, append_nil] at hall
      rw [hall]
      exact ⟨prefix_rfl, fun _ => rfl⟩

theorem prepareStreamContent_ok {S : SortFunc Point} {blobs : Blobs} {depth : Nat} {p : Prepared}
    (h : prepareStreamContent cluster S blobs depth chunks offset size = .ok p) :
    ∃ views urls clock, viewFromChunks S blobs depth chunks offset size = .ok views ∧
      (∀ x ∈ views, urls x.value.fileId ≠ []) ∧ p = ⟨views, ⟨offset, size, [], urls, clock⟩⟩ := by
  obtain ⟨views, hviews, h⟩ := bind_eq_ok.1 h
  obtain ⟨⟨urls, clock⟩, hlookup, h⟩ := bind_eq_ok.1 h
  exact ⟨views, urls, clock, mapError_eq_ok.1 hviews, (lookupViews_urls (mapError_eq_ok.1 hlookup)).2,
    (Except.ok.inj h).symm⟩

/-! ## Past the end of the offsets -/

theorem readResolvedChunks_nil (S : SortFunc Point) (a b : Int) : readResolvedChunks S [] a b = [] := by
  have hsort : S.sort pointCmp [] = [] := List.perm_nil.1 (S.perm pointCmp [])
  rw [readResolvedChunks, show pointsOf [] a b = [] from rfl, hsort]
  rfl

theorem liveChunks_wrapped (ho : 0 ≤ offset) (ho' : offset ≤ maxInt64) (hs : size ≤ maxInt64)
    (hend : maxInt64 < offset + size) : liveChunks chunks offset (int64 (offset + size)) = [] := by
  have hneg : int64 (offset + size) < 0 := by
    unfold int64 maxInt64 at *
    rw [bmod_def]
    split <;> omega
  rw [liveChunks, filter_eq_nil_iff]
  simp only [decide_eq_true_eq]
  omega

theorem prepareStreamContent_wrapped (cluster : Cluster) (S : SortFunc Point) (blobs : Blobs) (depth : Nat)
    (hdata : ∀ c ∈ chunks, c.isChunkManifest = false) (ho : 0 ≤ offset) (ho' : offset ≤ maxInt64)
    (hs : size ≤ maxInt64) (hend : maxInt64 < offset + size) :
    ∃ p, prepareStreamContent cluster S blobs depth chunks offset size = .ok p ∧
      p.run cluster = (List.replicate size.toNat 0, none) := by
  refine ⟨⟨[], ⟨offset, size, [], fun _ => [], 0⟩⟩, ?_, ?_⟩
  · rw [prepareStreamContent, viewFromChunks_eq S blobs depth hdata, liveChunks_wrapped ho ho' hs hend,
      readResolvedChunks_nil]
    rfl
  · show (if 0 < size then (writeZero size.toNat size [], none) else ([], none)) = _
    rw [if_pos (by omega), writeZero_eq (le_refl _), nil_append]

/-- Servers that never fail. -/
def Cluster.steady (stored : String → Nat → UInt8) : Cluster where
  lookup := fun _ _ => .ok ["volume"]
  fetch := fun _ _ view => ⟨[wanted stored view], false, none⟩
  invalidates := false

theorem Cluster.steady_serves (stored : String → Nat → UInt8) : (Cluster.steady stored).Serves stored := by
  intro n url view
  have hall : [wanted stored view].flatten = wanted stored view := by simp
  exact ⟨hall ▸ prefix_rfl, fun _ => hall⟩

theorem fileRange_ne_zeros {c : FileChunk} {n : Nat} (hc : c ∈ chunks) {x : Int}
    (hx : Covers c x) (hle : offset ≤ x) (hlt : x < offset + n) :
    fileRange (fun _ _ => 1) chunks offset n ≠ List.replicate n 0 := by
  intro heq
  have hbyte := congrArg (·[(x - offset).toNat]?) heq
  rw [fileRange, rangeBytes, getElem?_map, getElem?_range (by omega), Option.map_some,
    getElem?_replicate, if_pos (by omega), show offset + ((x - offset).toNat : Int) = x by omega] at hbyte
  cases hn : newest? chunks x with
  | none => exact newest?_eq_none.1 hn c hc hx
  | some c' =>
    rw [hn] at hbyte
    have hone : (1 : UInt8) = 0 := Option.some.inj hbyte
    exact absurd hone (by decide)

/-- **A stream writes the range** from its start on, all of it if it returns no error, as long as its end is an
`int64` or no chunk has a byte in it. -/
theorem prepareStreamContent_range (S : SortFunc Point) (blobs : Blobs) (depth : Nat)
    (hdata : ∀ c ∈ chunks, c.isChunkManifest = false) (hd : DistinctTs chunks) (ho : 0 ≤ offset)
    (ho' : offset ≤ maxInt64) (hs : 0 ≤ size) (hs' : size ≤ maxInt64) :
    (∀ (cluster : Cluster) (stored : String → Nat → UInt8) (p : Prepared), cluster.Serves stored →
      prepareStreamContent cluster S blobs depth chunks offset size = .ok p →
      (p.run cluster).1 <+: fileRange stored chunks offset size.toNat ∧
        ((p.run cluster).2 = none → (p.run cluster).1 = fileRange stored chunks offset size.toNat)) ↔
      (offset + size ≤ maxInt64 ∨ ∀ c ∈ chunks, c.size = 0 ∨ c.stop ≤ offset) := by
  by_cases hend : offset + size ≤ maxInt64
  · refine ⟨fun _ => .inl hend, fun _ cluster stored p hcl hp => ?_⟩
    obtain ⟨views, urls, clock, hviews, hurls, rfl⟩ := prepareStreamContent_ok hp
    exact run_range hcl hs clock (rangeViews_viewFromChunks S blobs depth hdata hd ho hs hend hviews) hurls
  · constructor
    · intro h
      refine .inr fun c hc => or_iff_not_imp_left.2 fun hne => not_lt.1 fun hlt => ?_
      obtain ⟨p, hp, hrun⟩ := prepareStreamContent_wrapped (.steady fun _ _ => 1) S blobs depth
        hdata ho ho' hs' (not_le.1 hend)
      have hzeros := (h _ _ p (Cluster.steady_serves _) hp).2 (by rw [hrun])
      rw [hrun] at hzeros
      have hstop := c.stop_le_maxInt64
      have hsize := c.stop_eq
      refine fileRange_ne_zeros (x := max offset c.offset) hc ⟨le_max_right _ _, ?_⟩ (le_max_left _ _) ?_ hzeros.symm
      · simp only [hi_chunk]
        omega
      · omega
    · rintro (h | h)
      · exact absurd h hend
      · intro cluster stored p _ hp
        obtain ⟨p', hp', hrun⟩ := prepareStreamContent_wrapped cluster S blobs depth
          hdata ho ho' hs' (not_le.1 hend)
        obtain rfl := Except.ok.inj (hp.symm.trans hp')
        have hzero : fileRange stored chunks offset size.toNat = List.replicate size.toNat 0 := by
          refine rangeBytes_zero fun x h1 _ => ?_
          have hnone : newest? chunks x = none := by
            refine newest?_eq_none.2 fun c hc hcov => ?_
            have hlo : c.offset ≤ x := hcov.1
            have hhi : x < c.stop := hcov.2
            have hsize := c.stop_eq
            rcases h c hc with h | h <;> omega
          rw [hnone]
          rfl
        rw [hrun, hzero]
        exact ⟨prefix_rfl, fun _ => rfl⟩

/-- Two overlapping chunks and a hole. -/
theorem prepareStreamContent_range_overlap :
    let chunks : List FileChunk := [{ fileId := "1,01", offset := 2, size := 4, modifiedTsNs := 1 },
      { fileId := "1,02", offset := 4, size := 4, modifiedTsNs := 2 }]
    ∀ (cluster : Cluster) (stored : String → Nat → UInt8) (p : Prepared), cluster.Serves stored →
      prepareStreamContent cluster .insertion (fun _ => none) 0 chunks 1 9 = .ok p →
      (p.run cluster).1 <+: fileRange stored chunks 1 9 ∧
        ((p.run cluster).2 = none → (p.run cluster).1 = fileRange stored chunks 1 9) :=
  (prepareStreamContent_range .insertion (fun _ => none) 0 (by decide) (by decide) (by decide) (by decide)
    (by decide) (by decide)).2 (.inl (by decide))

/-- All of a file from its second byte on: zeros are written in place of the data, without an error. -/
theorem stream_wraps :
    let chunks : List FileChunk := [{ fileId := "1,01", offset := 0, size := 4, modifiedTsNs := 1 }]
    ∃ (cluster : Cluster) (stored : String → Nat → UInt8) (p : Prepared), cluster.Serves stored ∧
      prepareStreamContent cluster .insertion (fun _ => none) 0 chunks 1 maxInt64 = .ok p ∧
      (p.run cluster).2 = none ∧ (p.run cluster).1 ≠ fileRange stored chunks 1 maxInt64.toNat := by
  intro chunks
  have hdata : ∀ c ∈ chunks, c.isChunkManifest = false := by decide
  have hend : maxInt64 < 1 + maxInt64 := by decide
  obtain ⟨p, hp, hrun⟩ := prepareStreamContent_wrapped (.steady fun _ _ => 1) .insertion (fun _ => none) 0 hdata
    (by decide) (by decide) (by decide) hend
  refine ⟨.steady fun _ _ => 1, fun _ _ => 1, p, Cluster.steady_serves _, hp, by rw [hrun], ?_⟩
  rw [hrun]
  exact (fileRange_ne_zeros (c := { fileId := "1,01", offset := 0, size := 4, modifiedTsNs := 1 }) (x := 1)
    (.head _) ⟨by decide, by decide⟩ (by decide) (by decide)).symm

end Filer
