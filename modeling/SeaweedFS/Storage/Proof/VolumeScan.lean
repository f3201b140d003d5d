import SeaweedFS.Storage.VolumeScan
import SeaweedFS.Storage.Proof.VolumeRun

/-!
# Scanning a volume

A scan of a `.dat` file visits its records one by one (`scan_records`). A needle map that is filled from the records
alone holds what the last record of each key says (`VolumeInv.rebuildIndex`); the records of live keys without data look
like deletes.
-/

namespace Storage

open Lib Util List NeedleMapper Option

/-! ## Visiting the records -/

section
variable {σ : Type} {version : Version} (scanner : VolumeFileScanner σ)

/-- The needle that is visited. -/
def VolumeFileScanner.seen (version : Version) (r : Rec) : Needle :=
  if scanner.readNeedleBody then r.needle.stored version else r.headed

/-- The visit of a record. -/
def VolumeFileScanner.visit (version : Version) (s : σ) (p : Nat × Rec) : Except VolumeError σ :=
  (scanner.visitNeedle s (scanner.seen version p.2) p.1).mapError .visitNeedle

variable {recs : List Rec} {off : Nat} {r : Rec}

theorem needleOf_record (hat : At recs off r) (hr : r.Complete version)
    (he : scanner.readNeedleBody = true → r.Encoded version) (sb : SuperBlock) :
    scanner.needleOf r.headed (sb.bytes ++ bytesOf recs) version off
      (needleBodyLength r.needle.size version) = .ok (scanner.seen version r) := by
  unfold VolumeFileScanner.needleOf VolumeFileScanner.seen
  cases hb : scanner.readNeedleBody with
  | false => rfl
  | true =>
    rw [if_pos rfl, if_pos rfl, hat.readNeedleBody hr (he hb) sb]

theorem readNeedleHeader_end (file : File) : readNeedleHeader file version file.length = .error .eof := by
  unfold readNeedleHeader File.readAt
  rw [drop_length]
  rfl

theorem scanLoop_records (sb : SuperBlock) (pre recs : List Rec) {fuel : Nat}
    (hfuel : recs.length < fuel) (hr : ∀ r ∈ recs, r.Complete version)
    (he : scanner.readNeedleBody = true → ∀ r ∈ recs, r.Encoded version)
    (cannotRead : Int → NeedleError → VolumeError) (s : σ) :
    scanLoop version (sb.bytes ++ bytesOf (pre ++ recs)) scanner fuel cannotRead
        (superBlockSize + (bytesOf pre).length : Nat) s =
      (placed (superBlockSize + (bytesOf pre).length) recs).foldlM (scanner.visit version) s := by
  induction recs generalizing pre fuel cannotRead s with
  | nil =>
    cases fuel with
    | zero => exact absurd hfuel (Nat.not_lt_zero _)
    | succ fuel =>
      have hend : superBlockSize + (bytesOf pre).length = (sb.bytes ++ bytesOf (pre ++ [])).length := by
        simp
      unfold scanLoop
      rw [if_neg (by omega), Int.toNat_natCast, hend, readNeedleHeader_end]
      rfl
  | cons r recs ih =>
    cases fuel with
    | zero => exact absurd hfuel (Nat.not_lt_zero _)
    | succ fuel =>
      have hcomplete := hr r mem_cons_self
      have hat : At (pre ++ r :: recs) (superBlockSize + (bytesOf pre).length) r :=
        ⟨pre, recs, by simp, rfl⟩
      have hnext : (superBlockSize + (bytesOf pre).length : Nat) + (needleHeaderSize : Int) +
          needleBodyLength r.needle.size version =
            (superBlockSize + (bytesOf (pre ++ [r])).length : Nat) := by
        have hlen := IsRecord.length_eq hcomplete
        rw [getActualSize] at hlen
        rw [bytesOf_append, bytesOf_singleton, length_append]
        omega
      have hplaced : superBlockSize + (bytesOf (pre ++ [r])).length =
          superBlockSize + (bytesOf pre).length + r.bytes.length := by
        rw [bytesOf_append, bytesOf_singleton, length_append]
        omega
      have hsplit : pre ++ r :: recs = (pre ++ [r]) ++ recs := by simp
      unfold scanLoop
      rw [if_neg (by omega), Int.toNat_natCast, hat.readNeedleHeader hcomplete sb]
      show (scanner.needleOf r.headed _ version _ _ >>= _) = _
      rw [needleOf_record scanner hat hcomplete (fun hb => he hb r mem_cons_self) sb, placed,
        foldlM_cons]
      show (scanner.visit version s (_, r) >>= _) = (scanner.visit version s (_, r) >>= _)
      congr 1
      funext s'
      rw [hnext, hsplit, ih (pre ++ [r]) (by simpa using hfuel)
        (fun r' hr' => hr r' (mem_cons_of_mem _ hr'))
        (fun hb r' hr' => he hb r' (mem_cons_of_mem _ hr')), hplaced]

theorem length_le_bytesOf (hr : ∀ r ∈ recs, r.Complete version) :
    recs.length ≤ (bytesOf recs).length := by
  induction recs with
  | nil => exact Nat.le_refl _
  | cons r recs ih =>
    have hpos : 0 < r.bytes.length := IsRecord.length_pos (hr r mem_cons_self)
    have hle := ih fun r' hr' => hr r' (mem_cons_of_mem _ hr')
    show recs.length + 1 ≤ (bytesOf ([r] ++ recs)).length
    rw [bytesOf_append, bytesOf_singleton, length_append]
    omega

/-- **A scan visits the records**, one behind the other. -/
theorem scan_records (sb : SuperBlock) (recs : List Rec) (hr : ∀ r ∈ recs, r.Complete version)
    (he : scanner.readNeedleBody = true → ∀ r ∈ recs, r.Encoded version) (s : σ) :
    scanVolumeFileFrom version (sb.bytes ++ bytesOf recs) superBlockSize scanner s =
      (placed superBlockSize recs).foldlM (scanner.visit version) s := by
  refine scanLoop_records scanner sb [] recs ?_ hr he _ s
  have := length_le_bytesOf hr
  rw [length_append]
  omega

end

/-! ## The index from the records -/

/-- The live entries of the map are those of `m`, which have data. -/
structure Mirrors (nm : NeedleMapper) (m : NeedleId → Option (Offset × Size)) : Prop where
  inv : nm.Inv
  live : ∀ key, (nm.entry key).filter (fun e => !e.2.isDeleted) = m key
  pos : ∀ key e, m key = some e → 0 < e.2.toInt

theorem mirrors_new (kind : NeedleMapKind) : Mirrors (.new kind) fun _ => none where
  inv := inv_new kind
  live := by
    intro key
    rw [NeedleMapper.entry_new]
    rfl
  pos := by
    intro key e he
    cases he

variable {nm : NeedleMapper} {m : NeedleId → Option (Offset × Size)} {r : Rec}

theorem Mirrors.put (h : Mirrors nm m) (off : Nat) (hpos : 0 < r.needle.size.toInt) :
    ∃ nm', nm.put r.needle.id (toOffset off) r.needle.size = .ok nm' ∧
      Mirrors nm' (liveStep m (off, r)) := by
  obtain ⟨nm', hput, hinv, -, hentry, -⟩ := h.inv.put r.needle.id (toOffset off) r.needle.size
  refine ⟨nm', hput, hinv, ?_, ?_⟩
  · intro key
    by_cases hk : r.needle.id = key
    · have hlive : r.needle.size.isDeleted = false := isDeleted_eq_false_iff.2 (by omega)
      rw [liveStep_self hk, if_pos hpos, hentry, hk, MarkMap.set_self, filter_some]
      simp [hlive]
    · rw [liveStep_of_ne hk, hentry, MarkMap.set_of_ne _ (Ne.symm hk), h.live]
  · intro key e he
    by_cases hk : r.needle.id = key
    · rw [liveStep_self hk, if_pos hpos] at he
      cases he
      exact hpos
    · rw [liveStep_of_ne hk] at he
      exact h.pos key e he

theorem Mirrors.delete (h : Mirrors nm m) (off : Nat) (hpos : ¬ 0 < r.needle.size.toInt) :
    ∃ nm', nm.delete r.needle.id (toOffset off) = .ok nm' ∧ Mirrors nm' (liveStep m (off, r)) := by
  obtain ⟨nm', hdel, hinv, -, hentry, -⟩ := h.inv.marks r.needle.id (toOffset off)
  refine ⟨nm', hdel, hinv, ?_, ?_⟩
  · intro key
    by_cases hk : r.needle.id = key
    · rw [liveStep_self hk, if_neg hpos, hentry, hk, MarkMap.delete_self]
      have hlive := h.live key
      cases he : nm.entry key with
      | none => rfl
      | some e =>
        have hmarked : (mark nm.kind e).2.isDeleted = true := by
          rcases mark_deleted nm.kind e with hdeleted | ⟨-, hzero, -⟩
          · exact hdeleted
          · -- an entry without data is live, but all live entries have data
            rw [he, filter_some, hzero] at hlive
            have := h.pos key e hlive.symm
            rw [hzero] at this
            cases this
        rw [map_some, filter_some, hmarked]
        rfl
    · rw [liveStep_of_ne hk, hentry, MarkMap.delete_of_ne _ _ (Ne.symm hk), h.live]
  · intro key e he
    by_cases hk : r.needle.id = key
    · rw [liveStep_self hk, if_neg hpos] at he
      cases he
    · rw [liveStep_of_ne hk] at he
      exact h.pos key e he

variable {v : Volume}

theorem genIdx_visit (h : Mirrors v.nm m) (version : Version) (p : Nat × Rec) :
    ∃ v', volumeFileScanner4GenIdx.visit version v p = .ok v' ∧ Mirrors v'.nm (liveStep m p) := by
  obtain ⟨off, r⟩ := p
  have hvisit : volumeFileScanner4GenIdx.visit version v (off, r) =
      (if r.needle.size > 0 ∧ r.needle.size.isValid = true then
        v.putEntry r.needle.id (toOffset off) r.needle.size
      else v.deleteEntry r.needle.id (toOffset off)).mapError .visitNeedle := rfl
  have hcond : r.needle.size > 0 ∧ r.needle.size.isValid = true ↔ 0 < r.needle.size.toInt := by
    rw [isValid_iff, gt_iff_lt, Int32.lt_iff_toInt_lt]
    exact and_iff_right_of_imp fun hp => hp
  by_cases hpos : 0 < r.needle.size.toInt
  · obtain ⟨nm', hput, hm⟩ := h.put off hpos
    refine ⟨{ v with nm := nm' }, ?_, hm⟩
    rw [hvisit, if_pos (hcond.2 hpos), putEntry_eq hput]
    rfl
  · obtain ⟨nm', hdel, hm⟩ := h.delete off hpos
    refine ⟨{ v with nm := nm' }, ?_, hm⟩
    rw [hvisit, if_neg (mt hcond.1 hpos), deleteEntry_eq hdel]
    rfl

theorem genIdx_visits (h : Mirrors v.nm m) (version : Version) (ps : List (Nat × Rec)) :
    ∃ v', ps.foldlM (volumeFileScanner4GenIdx.visit version) v = .ok v' ∧
      Mirrors v'.nm (ps.foldl liveStep m) := by
  induction ps generalizing v m with
  | nil => exact ⟨v, rfl, h⟩
  | cons p ps ih =>
    obtain ⟨v1, hvisit, hm⟩ := genIdx_visit h version p
    obtain ⟨v2, hvisits, hm'⟩ := ih hm
    refine ⟨v2, ?_, hm'⟩
    rw [foldlM_cons, hvisit]
    exact hvisits

/-- **The index that is built again** holds what the records say. -/
theorem VolumeInv.rebuildIndex {recs : List Rec} {log : List IdxEntry}
    (h : VolumeInv v recs log) (kind : NeedleMapKind) :
    ∃ v', v.rebuildIndex kind = .ok v' ∧ Mirrors v'.nm (liveRecords recs) := by
  obtain ⟨v', hvisits, hm⟩ := genIdx_visits (v := { v with nm := .new kind }) (mirrors_new kind)
    v.version (placed superBlockSize recs)
  refine ⟨v', ?_, hm⟩
  have hscan := scan_records volumeFileScanner4GenIdx v.superBlock recs h.records
    (fun hb => nomatch hb) { v with nm := .new kind }
  rw [← h.dat] at hscan
  exact hscan.trans hvisits

/-! ## Agreement -/

theorem liveOf_entry (key : NeedleId) (e? : Option (Offset × Size)) :
    liveOf (e?.map fun e => ⟨key, e.1, e.2⟩) = e?.filter fun e => !e.2.isDeleted := by
  cases e? with
  | none => rfl
  | some e =>
    rw [map_some, liveOf_some, filter_some]
    cases e.2.isDeleted <;> rfl

theorem filter_live_eq {e? : Option (Offset × Size)} :
    e?.filter (fun e => !e.2.isDeleted) = e?.filter (fun e => 0 < e.2.toInt) ↔
      ∀ e, e? = some e → e.2.isDeleted = false → e.2 ≠ 0 := by
  cases e? with
  | none => simp
  | some e =>
    simp only [filter_some, some.injEq, forall_eq']
    cases hd : e.2.isDeleted with
    | true =>
      have := isDeleted_iff.1 hd
      rw [if_neg (by simp), if_neg (by simpa using (by omega : e.2.toInt ≤ 0))]
      simp
    | false =>
      have h0 := isDeleted_eq_false_iff.1 hd
      rw [if_pos (by simp), ne_eq, size_eq_zero_iff]
      by_cases hp : 0 < e.2.toInt
      · rw [if_pos (by simpa using hp)]
        exact iff_of_true rfl fun _ => by omega
      · rw [if_neg (by simpa using hp)]
        refine iff_of_false (fun hs => nomatch hs) fun hz => hz rfl (by omega)

theorem agree_iff {v' : Volume} {key : NeedleId} {a b : Option NeedleValue} (ha : v.get key = .ok a)
    (hb : v'.get key = .ok b) :
    (∃ live rebuilt, v.get key = .ok live ∧ v'.get key = .ok rebuilt ∧ liveOf live = liveOf rebuilt) ↔
      liveOf a = liveOf b := by
  rw [ha, hb]
  constructor
  · rintro ⟨live, rebuilt, hl, hr, heq⟩
    cases hl
    cases hr
    exact heq
  · intro heq
    exact ⟨a, b, rfl, rfl, heq⟩

/-- **Building the index again** after any run gives a map that agrees with the live one exactly when no
live entry is empty. -/
theorem rebuildIndex_agrees (s : SuperBlock) (kind kind' : NeedleMapKind) (ops : List VolumeOp)
    (hok : RunOk (newVolume s kind) ops) :
    ∃ v', ((newVolume s kind).run ops).rebuildIndex kind' = .ok v' ∧
      ((∀ key, ∃ live rebuilt, ((newVolume s kind).run ops).get key = .ok live ∧
          v'.get key = .ok rebuilt ∧ liveOf live = liveOf rebuilt) ↔
        ∀ key nv, ((newVolume s kind).run ops).get key = .ok (some nv) →
          nv.size.isDeleted = false → nv.size ≠ 0) := by
  obtain ⟨rs, ls, hrun, -⟩ := (volumeInv_new s kind).run hok
  obtain ⟨v', hrebuild, hm⟩ := hrun.rebuildIndex kind'
  refine ⟨v', hrebuild, forall_congr' fun key => ?_⟩
  have hget' : v'.get key = .ok ((v'.nm.entry key).map fun e => ⟨key, e.1, e.2⟩) := by
    rw [Volume.get, hm.inv.get key]
    rfl
  rw [agree_iff (hrun.get key) hget', liveOf_entry, liveOf_entry, hm.live, ← hrun.scan, filter_live_eq]
  constructor
  · intro hall nv hnv
    rw [hrun.get] at hnv
    obtain ⟨e, he, rfl⟩ := map_eq_some_iff.1 (Except.ok.inj hnv)
    exact hall e he
  · intro hall e he
    have hnv := hrun.get_some he
    exact hall ⟨key, e.1, e.2⟩ hnv

/-- A key that is written, deleted and written again. -/
def rewritten : List VolumeOp :=
  [.write (plainNeedle 1 5 [7]) true 10, .delete (plainNeedle 1 5 []) 11,
    .write (plainNeedle 1 5 [7]) true 12]

theorem rebuildIndex_agrees_rewritten :
    ∃ v', (freshVolume.run rewritten).rebuildIndex .levelDb = .ok v' ∧ ∀ key, ∃ live rebuilt,
      (freshVolume.run rewritten).get key = .ok live ∧ v'.get key = .ok rebuilt ∧ liveOf live = liveOf rebuilt := by
  have hok : RunOk freshVolume rewritten := by
    refine ⟨⟨by decide, by decide, fits_plainNeedle, by decide⟩, ⟨by decide, ?_, trivial⟩,
      ⟨by decide, ?_, fits_plainNeedle, by decide⟩, trivial⟩
    · decide +kernel
    · decide +kernel
  obtain ⟨v', hrebuild, hiff⟩ := rebuildIndex_agrees _ _ .levelDb _ hok
  refine ⟨v', hrebuild, hiff.2 fun key nv hget hlive => ?_⟩
  obtain ⟨rs, ls, hrun, -⟩ := (volumeInv_new _ _).run hok
  have hrows : ∀ row ∈ rowsOf (freshVolume.run rewritten).nm.indexFile, row.2.2 ≠ 0 := by decide +kernel
  exact hrows _ (mem_of_lastRow (hrun.lastRow_of_live (by decide +kernel) hget hlive))

/-- A needle without data is live in the volume, and missing in the index that is built again. -/
theorem rebuildIndex_empty :
    ((freshVolume.run
      [.write (plainNeedle 1 5 []) true 10]).get 1).toOption.map liveOf =
        some (some (⟨0, 0, 0, 1⟩, 0)) ∧
    (((freshVolume.run
      [.write (plainNeedle 1 5 []) true 10]).rebuildIndex .inMemory).bind
        fun v => v.get 1).toOption.map liveOf = some none := by
  decide +kernel

end Storage
