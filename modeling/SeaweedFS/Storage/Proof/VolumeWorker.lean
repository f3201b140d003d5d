import SeaweedFS.Storage.VolumeWorker
import SeaweedFS.Storage.Proof.VolumeRun

/-!
# A batch whose sync fails

A request that is not idle logs an entry (`VolumeInv.request`), which the failed sync leaves in the needle map and its
index file.
-/

namespace Storage

open Lib List Except Volume

namespace AsyncRequest

/-- The operation that is asked for. -/
def op (r : AsyncRequest) : VolumeOp :=
  if r.isWriteRequest then .write r.n true r.now else .delete r.n r.now

/-- The request changes nothing: the needle is there already or cannot be compared, its cookie is not that of the
existing record, the volume is full, or there is nothing to delete. -/
def Idle (v : Volume) (r : AsyncRequest) : Prop :=
  if r.isWriteRequest then
    v.isFileUnchanged r.n ≠ .ok none ∨ (∃ cookie ∈ v.cookieOf r.n.id, cookie ≠ r.n.cookie) ∨
      r.n.data ≠ [] ∧ maxPossibleVolumeSize ≤ v.dat.length
  else ∀ nv, v.get r.n.id = .ok (some nv) → nv.size.isDeleted = true

end AsyncRequest

theorem processRequest_fst (v : Volume) (r : AsyncRequest) : (v.processRequest r).1 = v.after r.op := by
  unfold Volume.processRequest AsyncRequest.op Volume.after
  cases r.isWriteRequest with
  | true =>
    simp only [if_true, Volume.step]
    cases v.doWriteRequest r.n true r.now <;> rfl
  | false =>
    simp only [Bool.false_eq_true, if_false, Volume.step]
    cases v.doDeleteRequest r.n r.now <;> rfl

theorem processRequests_fst (v : Volume) (rs : List AsyncRequest) :
    (v.processRequests rs).1 = v.run (rs.map AsyncRequest.op) := by
  induction rs generalizing v with
  | nil => rfl
  | cons r rs ih =>
    show ((v.processRequest r).1.processRequests rs).1 = (v.after r.op).run (rs.map AsyncRequest.op)
    rw [ih, processRequest_fst]

/-! ## Requests -/

variable {v v' : Volume} {recs : List Rec} {log : List IdxEntry} {n : Needle} {now : UInt64} {size : Int}

theorem Adds.index_ne {key : NeedleId} {r : Rec} {e row : Offset × Size} (h : Adds v v' now key r e row) :
    v.nm.indexFile.length < v'.nm.indexFile.length := by
  rw [h.index, length_append, show (toBytes key row.1 row.2).length = needleMapEntrySize from rfl]
  exact Nat.lt_add_of_pos_right (by decide)

theorem Effect.logs {op : VolumeOp} (h : Effect v v' recs op) :
    v' = v ∨ v.nm.indexFile.length < v'.nm.indexFile.length := by
  cases h with
  | same h => exact .inl h
  | put _ _ _ adds => exact .inr adds.index_ne
  | delete _ _ _ _ _ _ adds => exact .inr adds.index_ne

theorem Rec.Complete.ne_append {r : Rec} {version : Version} (h : r.Complete version) (dat : File) :
    dat ≠ dat ++ r.bytes := fun heq =>
  ne_nil_of_length_pos (IsRecord.length_pos h) (self_eq_append_right.1 heq)

theorem checkCookieOf_true {n' : Needle} {existing : Nat} {hdr : Needle × Int}
    (hread : readNeedleHeader v.dat v.version existing = .ok hdr) :
    v.checkCookieOf n true (some existing) = .ok n' ↔ n = n' ∧ hdr.1.cookie = n.cookie := by
  rw [checkCookieOf, hread]
  by_cases hc : hdr.1.cookie = n.cookie <;> simp [adoptCookie, hc]

section

variable (h : VolumeInv v recs log)
include h

theorem VolumeInv.checkCookieOf_iff {n' : Needle} {nv? : Option NeedleValue} (hget : v.get n.id = .ok nv?) :
    v.checkCookieOf n true (nv?.map fun nv => nv.offset.toActualOffset) = .ok n' ↔
      n = n' ∧ ∀ cookie ∈ v.cookieOf n.id, cookie = n.cookie := by
  cases he : v.nm.entry n.id with
  | none =>
    cases hget.symm.trans (h.get_none.2 he)
    simp [checkCookieOf, Volume.cookieOf, hget]
  | some e =>
    cases hget.symm.trans (h.get_some he)
    obtain ⟨-, r, hr, -⟩ := h.entries n.id e he
    have hread := hr.readNeedleHeader (h.records r hr.mem) v.superBlock
    rw [← h.dat] at hread
    rw [h.cookieOf he hr]
    exact (checkCookieOf_true hread).trans (by simp)

theorem VolumeInv.after_write (hok : (VolumeOp.write n true now).Ok v) :
    v.after (.write n true now) = v ↔ AsyncRequest.Idle v ⟨n, true, size, now⟩ := by
  obtain ⟨nv?, hget⟩ : ∃ nv?, v.get n.id = .ok nv? := ⟨_, h.get n.id⟩
  constructor
  · intro hsame
    by_contra hidle
    obtain ⟨hchanged, hcookie, hroom⟩ := not_or.1 hidle |>.imp not_not.1 not_or.1
    have hcheck := (h.checkCookieOf_iff hget).2
      ⟨rfl, fun cookie hc => by_contra fun hne => hcookie ⟨cookie, hc, hne⟩⟩
    obtain ⟨w, r, happ, -, hcomplete, -⟩ := appendNeedle_eq hok.2.2.1 now fun hd =>
      Nat.not_le.1 fun hfull => hroom ⟨hd, hfull⟩
    obtain ⟨nm', hput, -⟩ := h.nm.put n.id (toOffset v.dat.length) w.needle.size
    refine hcomplete.ne_append v.dat ?_
    nth_rewrite 1 [← hsame]
    simp [Volume.after, Volume.step, doWriteRequest, hchanged, hget, hcheck, happ, Except.mapError,
      h.putNewer hget, putEntry, hput, bind, Except.bind, pure, Except.pure]
  · intro hidle
    cases hw : v.doWriteRequest n true now with
    | error err => simp [Volume.after, Volume.step, hw]
    | ok p =>
      rcases doWriteRequest_cases hw with rfl | ⟨_, n', v1, offset, w, v2, hchanged, hget, hcheck, happ, -⟩
      · simp [Volume.after, Volume.step, hw]
      obtain ⟨rfl, hcookie⟩ := (h.checkCookieOf_iff hget).1 hcheck
      rcases hidle with hsame | ⟨cookie, hc, hne⟩ | ⟨hd, hfull⟩
      · exact absurd hchanged hsame
      · exact absurd (hcookie cookie hc) hne
      · obtain ⟨err, herr⟩ := appendNeedle_exceeded now hd (Nat.not_lt.2 hfull)
        cases herr.symm.trans happ

theorem VolumeInv.after_delete :
    v.after (.delete n now) = v ↔ AsyncRequest.Idle v ⟨n, false, size, now⟩ := by
  constructor
  · intro hsame nv hget
    by_contra hlive
    obtain ⟨e, he, rfl⟩ := Option.map_eq_some_iff.1 (ok.inj ((h.get n.id).symm.trans hget))
    obtain ⟨w, r, happ, -, hcomplete, -⟩ := appendNeedle_eq (fits_emptied n v.version) now fun hd => absurd rfl hd
    obtain ⟨nm', hdel, -⟩ := h.nm.delete he (Bool.eq_false_iff.2 hlive) (toOffset v.dat.length)
    refine hcomplete.ne_append v.dat ?_
    nth_rewrite 1 [← hsame]
    simp [Volume.after, Volume.step, doDeleteRequest, hget, hlive, happ, Except.mapError, deleteEntry, hdel, bind,
      Except.bind, pure, Except.pure]
  · intro hidle
    cases hw : v.doDeleteRequest n now with
    | error err => simp [Volume.after, Volume.step, hw]
    | ok p =>
      rcases doDeleteRequest_cases hw with rfl | ⟨nv, v1, offset, w, hget, hlive, -⟩
      · simp [Volume.after, Volume.step, hw]
      · cases (hidle nv hget).symm.trans hlive

/-- **A request** is idle and does nothing, or logs an entry. -/
theorem VolumeInv.request {r : AsyncRequest} (hok : r.op.Ok v) :
    r.Idle v ∧ v.after r.op = v ∨ ¬ r.Idle v ∧ v.nm.indexFile.length < (v.after r.op).nm.indexFile.length := by
  have hiff : v.after r.op = v ↔ r.Idle v := by
    obtain ⟨n, isWriteRequest, size, now⟩ := r
    cases isWriteRequest with
    | true => exact h.after_write hok
    | false => exact h.after_delete
  by_cases hidle : r.Idle v
  · exact .inl ⟨hidle, hiff.2 hidle⟩
  · exact .inr ⟨hidle, (h.effect hok).logs.resolve_left fun hsame => hidle (hiff.1 hsame)⟩

/-- **A batch** of idle requests does nothing, any other logs an entry. -/
theorem VolumeInv.requests {rs : List AsyncRequest} (hok : RunOk v (rs.map AsyncRequest.op)) :
    (∀ r ∈ rs, r.Idle v) ∧ v.run (rs.map AsyncRequest.op) = v ∨
      (¬ ∀ r ∈ rs, r.Idle v) ∧ v.nm.indexFile.length < (v.run (rs.map AsyncRequest.op)).nm.indexFile.length := by
  induction rs generalizing v recs log with
  | nil => exact .inl ⟨nofun, rfl⟩
  | cons r rs ih =>
    obtain ⟨_, _, hstep, -⟩ := h.step hok.1
    have hrun : v.run ((r :: rs).map AsyncRequest.op) = (v.after r.op).run (rs.map AsyncRequest.op) := rfl
    rw [hrun, forall_mem_cons]
    rcases h.request hok.1 with ⟨hidle, hsame⟩ | ⟨hidle, hlogs⟩
    · rw [hsame, and_iff_right hidle]
      exact ih h (hsame ▸ hok.2)
    · refine .inr ⟨fun hall => hidle hall.1, ?_⟩
      rcases ih hstep hok.2 with ⟨-, hsame⟩ | ⟨-, hlogs'⟩
      · rwa [hsame]
      · exact hlogs.trans hlogs'

end

/-! ## The rollback -/

/-- **A batch whose sync fails** is answered with errors, and leaves the `.dat` file as it was; the needle map and
its index file are as they were exactly when every request is idle. -/
theorem workBatch_rollback (v : Volume) (queue : List Queued) (err : VolumeError) (hv : InUse v)
    (hbatch : RunOk v ((v.takeBatch queue [] 0).1.map AsyncRequest.op)) :
    (∀ res ∈ (v.workBatch queue (some err)).2, ∃ err', res = .error err') ∧
    (v.workBatch queue (some err)).1.dat = v.dat ∧
    ((v.workBatch queue (some err)).1.nm.indexFile = v.nm.indexFile ∧
        (∀ key, (v.workBatch queue (some err)).1.get key = v.get key) ↔
      ∀ r ∈ (v.takeBatch queue [] 0).1, r.Idle v) := by
  obtain ⟨recs, log, hinv⟩ := hv.inv
  generalize hreqs : (v.takeBatch queue [] 0).1 = reqs at hbatch ⊢
  have hwork : v.workBatch queue (some err) =
      (v.processRequests reqs).1.syncBatch v.dat.length (v.processRequests reqs).2 (some err) := by
    rw [← hreqs]
    rfl
  rw [hwork]
  refine ⟨?_, ?_, ?_⟩
  · intro res hres
    obtain ⟨res', -, rfl⟩ := List.mem_map.1 hres
    cases res' with
    | ok _ => exact ⟨err, rfl⟩
    | error err' => exact ⟨err', rfl⟩
  · show (v.processRequests reqs).1.dat.take v.dat.length = v.dat
    obtain ⟨rs, ls, hrun, hsuper, -⟩ := hinv.run hbatch
    rw [processRequests_fst, hrun.dat, hsuper, bytesOf_append, ← append_assoc, ← hinv.dat, take_left]
  · show (v.processRequests reqs).1.nm.indexFile = v.nm.indexFile ∧
      (∀ key, (v.processRequests reqs).1.get key = v.get key) ↔ _
    rw [processRequests_fst]
    rcases hinv.requests hbatch with ⟨hidle, hsame⟩ | ⟨hidle, hlogs⟩
    · rw [hsame]
      exact iff_of_true ⟨rfl, fun _ => rfl⟩ hidle
    · exact iff_of_false (fun hsame => hlogs.ne (congrArg length hsame.1.symm)) hidle

/-- A request to write. -/
def writeRequest (n : Needle) (now : UInt64) : Queued :=
  ⟨{ n := n, isWriteRequest := true, actualSize := 32, now := now }, true⟩

/-- A request to delete. -/
def deleteRequest (n : Needle) (now : UInt64) : Queued :=
  ⟨{ n := n, isWriteRequest := false, actualSize := 32, now := now }, true⟩

/-- A volume with one needle. -/
def oneWritten : Volume := freshVolume.run [.write (plainNeedle 1 5 [7]) true 10]

/-- The needle is written again, another one under its id with a wrong cookie, and a key deleted that is not there. -/
def idleRequests : List Queued :=
  [{ writeRequest (plainNeedle 1 5 [7]) 11 with drained := false },
    { writeRequest (plainNeedle 1 6 [7]) 12 with drained := false }, deleteRequest (plainNeedle 2 5 []) 13]

theorem workBatch_rollback_idle :
    (oneWritten.workBatch idleRequests (some (.sync 5))).1.dat = oneWritten.dat ∧
    (oneWritten.workBatch idleRequests (some (.sync 5))).1.nm.indexFile = oneWritten.nm.indexFile ∧
    ∀ key, (oneWritten.workBatch idleRequests (some (.sync 5))).1.get key = oneWritten.get key := by
  have hwritten : RunOk freshVolume [.write (plainNeedle 1 5 [7]) true 10] :=
    ⟨⟨by decide, by decide, fits_plainNeedle, by decide⟩, trivial⟩
  have hbatch : (oneWritten.takeBatch idleRequests [] 0).1 = idleRequests.map Queued.request := by decide +kernel
  have hversion : (oneWritten.after (.write (plainNeedle 1 5 [7]) true 11)).version = .v3 := by decide +kernel
  have hfits : (plainNeedle 1 6 [7]).Fits .v3 := ⟨fun _ _ => ⟨by decide, by decide, by decide⟩, by decide⟩
  have hok : RunOk oneWritten [.write (plainNeedle 1 5 [7]) true 11, .write (plainNeedle 1 6 [7]) true 12,
      .delete (plainNeedle 2 5 []) 13] :=
    ⟨⟨by decide, by decide +kernel, fits_plainNeedle, by decide⟩,
      ⟨by decide, by decide +kernel, hversion.symm ▸ hfits, by decide⟩,
      ⟨by decide, by decide +kernel, trivial⟩, trivial⟩
  obtain ⟨-, hdat, hmap⟩ := workBatch_rollback oneWritten idleRequests (.sync 5) ⟨_, _, _, hwritten, rfl⟩
    (by rw [hbatch]; exact hok)
  rw [hbatch] at hmap
  refine ⟨hdat, hmap.2 (forall_mem_cons.2 ⟨.inl (by decide +kernel), forall_mem_cons.2
    ⟨.inr (.inl ⟨5, by decide +kernel, by decide⟩), forall_mem_singleton.2 fun nv hget => ?_⟩⟩)⟩
  have hnone : oneWritten.get 2 = .ok none := by decide +kernel
  cases hnone.symm.trans hget

/-- After a failed sync a key that was written names the end of the truncated file, and a key that was
deleted stays deleted. -/
theorem workBatch_dirty :
    ((freshVolume.workBatch [writeRequest (plainNeedle 1 5 [7]) 10]
      (some (.sync 5))).1.dat.length = 8 ∧
    ((freshVolume.workBatch [writeRequest (plainNeedle 1 5 [7]) 10]
      (some (.sync 5))).1.get 1).toOption.map liveOf = some (some (toOffset 8, 6))) ∧
    (((freshVolume.run
        [.write (plainNeedle 1 5 [7]) true 10]).get 1).toOption.map liveOf = some (some (toOffset 8, 6)) ∧
    (((freshVolume.run
        [.write (plainNeedle 1 5 [7]) true 10]).workBatch [deleteRequest (plainNeedle 1 5 []) 11]
      (some (.sync 5))).1.get 1).toOption.map liveOf = some none) := by
  decide +kernel

end Storage
