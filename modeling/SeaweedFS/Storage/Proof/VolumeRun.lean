import SeaweedFS.Storage.Proof.Volume

/-!
# Runs of a volume

Every operation has one of the effects of `Effect` (`VolumeInv.effect`), so that a run keeps the invariant
(`VolumeInv.run`), and the cookie of a key changes by blobs only (`VolumeInv.cookieOf_run`).
-/

namespace Storage

open Lib Util List Except MarkMap Needle NeedleMapper Option Volume

variable {key needleId : NeedleId} {now : UInt64} {checkCookie : Bool} {e : Offset × Size}
variable {needleBlob : List UInt8} {size : Size} {op : VolumeOp} {r : Rec} {v v' : Volume}
variable {res : Volume.WriteResult} {ops : List VolumeOp} {recs : List Rec} {log : List IdxEntry} {n : Needle}
variable {nv? : Option NeedleValue} {cookie : Cookie}

/-! ## What the operations do -/

theorem putEntry_eq {nm' : NeedleMapper} {offset : Offset} (h : v.nm.put key offset size = .ok nm') :
    v.putEntry key offset size = .ok { v with nm := nm' } := by
  rw [putEntry, h]
  rfl

theorem deleteEntry_eq {nm' : NeedleMapper} {offset : Offset} (h : v.nm.delete key offset = .ok nm') :
    v.deleteEntry key offset = .ok { v with nm := nm' } := by
  rw [deleteEntry, h]
  rfl

theorem adoptCookie_eq (n : Needle) (checkCookie : Bool) (cookie : Cookie) :
    Volume.adoptCookie n checkCookie cookie =
      { n with cookie := (Volume.adoptCookie n checkCookie cookie).cookie } := by
  unfold adoptCookie
  split <;> rfl

theorem checkCookieOf_some {n n' : Needle} {existing : Nat}
    {hdr : Needle × Int} (hread : readNeedleHeader v.dat v.version existing = .ok hdr)
    (h : v.checkCookieOf n checkCookie (some existing) = .ok n') :
    n' = { n with cookie := n'.cookie } ∧ n'.cookie = hdr.1.cookie := by
  rw [checkCookieOf, hread] at h
  dsimp only at h
  split at h
  · exact absurd h (by simp)
  · rename_i hc
    have hn : adoptCookie n checkCookie hdr.1.cookie = n' := ok.inj h
    rw [not_not, hn] at hc
    exact ⟨hn ▸ adoptCookie_eq n checkCookie hdr.1.cookie, hc.symm⟩

/-! ### Writes -/

theorem doWriteRequest_cases {v' : Volume} {n : Needle}
    (h : v.doWriteRequest n checkCookie now = .ok (v', res)) :
    v' = v ∨ ∃ (nv? : Option NeedleValue) (n' : Needle) (v1 : Volume) (offset : Nat) (w : Written)
      (v2 : Volume), v.isFileUnchanged n = .ok none ∧ v.get n.id = .ok nv? ∧
        v.checkCookieOf n checkCookie (nv?.map fun nv => nv.offset.toActualOffset) = .ok n' ∧
        v.appendNeedle n' now = .ok (v1, offset, w) ∧
        v1.putNewer nv? n'.id offset w.needle.size = .ok v2 ∧
        v' = { v2 with lastModifiedTsSeconds := max v2.lastModifiedTsSeconds n'.lastModified } := by
  obtain ⟨unchanged, hchanged, h⟩ := bind_eq_ok.1 h
  cases unchanged with
  | some dataSize =>
    cases h
    exact .inl rfl
  | none =>
    obtain ⟨nv?, hget, h⟩ := bind_eq_ok.1 h
    obtain ⟨n', hcheck, h⟩ := bind_eq_ok.1 h
    obtain ⟨⟨v1, offset, w⟩, happend, h⟩ := bind_eq_ok.1 h
    obtain ⟨v2, hput, h⟩ := bind_eq_ok.1 h
    cases h
    exact .inr ⟨nv?, n', v1, offset, w, v2, hchanged, hget, hcheck, mapError_eq_ok.1 happend, hput, rfl⟩

section

variable (h : Sound v recs log)
include h

/-- A write that passes the check keeps the cookie of the record its entry names. -/
theorem Sound.checkCookieOf {n' : Needle} (hget : v.get n.id = .ok nv?)
    (hcheck : v.checkCookieOf n checkCookie (nv?.map fun nv => nv.offset.toActualOffset) = .ok n') :
    n' = { n with cookie := n'.cookie } ∧ match v.nm.entry n.id with
      | some e => ∀ r0, At recs e.1.toActualOffset r0 → n'.cookie = r0.needle.cookie
      | none => n'.cookie = n.cookie := by
  rw [h.get] at hget
  cases he : v.nm.entry n.id with
  | none =>
    rw [he] at hget
    cases hget
    cases hcheck
    exact ⟨rfl, rfl⟩
  | some e =>
    rw [he] at hget
    cases hget
    have hread : ∀ r0, At recs e.1.toActualOffset r0 → _ := fun r0 hr0 =>
      h.dat ▸ hr0.readNeedleHeader (h.records r0 hr0.mem) v.superBlock
    obtain ⟨-, r, hr, -⟩ := h.entries n.id e he
    exact ⟨(checkCookieOf_some (hread r hr) hcheck).1,
      fun r0 hr0 => (checkCookieOf_some (hread r0 hr0) hcheck).2⟩

theorem Sound.entry_lt (he : v.nm.entry key = some e) : e.1.toActualOffset < v.dat.length := by
  obtain ⟨-, r, hr, -⟩ := h.entries key e he
  have hend := hr.end_le
  have hpos : 0 < r.bytes.length := IsRecord.length_pos (h.records r hr.mem)
  rw [h.length_dat]
  omega

theorem Sound.putNewer (hget : v.get key = .ok nv?) (v1 : Volume) (size : Size) :
    v1.putNewer nv? key v.dat.length size = v1.putEntry key (toOffset v.dat.length) size := by
  refine if_pos ?_
  rw [h.get] at hget
  cases he : v.nm.entry key with
  | none =>
    rw [he] at hget
    cases hget
    rfl
  | some e =>
    rw [he] at hget
    cases hget
    rw [map_some, all_some, decide_eq_true_eq]
    exact h.entry_lt he

theorem Sound.effect_write (hok : (VolumeOp.write n checkCookie now).Ok v)
    (hw : v.doWriteRequest n checkCookie now = .ok (v', res)) :
    Effect v v' recs (.write n checkCookie now) := by
  rcases doWriteRequest_cases hw with rfl | ⟨nv?, n', v1, offset, w, v2, -, hget, hcheck, happ, hput, rfl⟩
  · exact .same rfl
  obtain ⟨hn', hcookie⟩ := h.checkCookieOf hget hcheck
  obtain ⟨-, -, hfits, hempty⟩ := hok
  have hid : n'.id = n.id := by rw [hn']
  have hdata : n'.data = n.data := by rw [hn']
  have hfits' : n'.Fits v.version := by
    rw [hn']
    exact fits_setCookie hfits _
  have hbelow : v.dat.length < maxPossibleVolumeSize := by
    by_contra hge
    by_cases hd : n.data = []
    · exact hge (hempty hd)
    · obtain ⟨err, herr⟩ := appendNeedle_exceeded now (hdata ▸ hd) hge
      rw [herr] at happ
      cases happ
  obtain ⟨_, r, happ', hwn, hcomplete, hbody, hrn⟩ := appendNeedle_eq hfits' now fun _ => hbelow
  cases happ'.symm.trans happ
  rw [hid] at hput
  rw [h.putNewer hget] at hput
  obtain ⟨nm', hnm', hinv, hkind, hentry, hindex⟩ := h.nm.put n.id (toOffset v.dat.length) w.needle.size
  obtain rfl := ok.inj (hput.symm.trans (putEntry_eq hnm'))
  have hstored : r.needle.id = n'.id ∧ r.needle.cookie = n'.cookie ∧
      r.needle.appendAtNs = getAppendAtNs now v.lastAppendAtNs := by
    rw [hrn]
    cases v.version <;> exact ⟨rfl, rfl, rfl⟩
  refine .put r hbelow (hstored.1.trans hid) ?_ ?_ ?_ ?_
  · rw [hwn] at hentry hindex
    exact ⟨rfl, hcomplete, rfl, hstored.2.2, rfl, hinv, hkind, hentry, hindex⟩
  · intro _
    show match v.nm.entry n.id with
      | some e => ∀ r0, At recs e.1.toActualOffset r0 → r.needle.cookie = r0.needle.cookie
      | none => _
    rw [hstored.2.1]
    cases he : v.nm.entry n.id with
    | some e =>
      rw [he] at hcookie
      exact hcookie
    | none =>
      rw [he] at hcookie
      rintro n0 c0 t0 hop
      cases hop
      exact hcookie
  · rintro ⟨hmod, hcrc⟩
    refine encoded_sizedAs hbody hrn hfits' ?_ ?_
    · rw [hn']
      exact hmod
    · rw [hn']
      exact hcrc
  · intro hd
    rw [hrn]
    exact sizedAs_size_ne_zero (fits_setAppendAtNs hfits' now _) fun h0 => hd (hdata ▸ h0)

/-! ### Deletes -/

omit h in
theorem doDeleteRequest_cases (h : v.doDeleteRequest n now = .ok (v', size)) :
    v' = v ∨ ∃ (nv : NeedleValue) (v1 : Volume) (offset : Nat) (w : Written),
      v.get n.id = .ok (some nv) ∧ nv.size.isDeleted = false ∧
        v.appendNeedle { n with data := [] } now = .ok (v1, offset, w) ∧
        v1.deleteEntry n.id (toOffset offset) = .ok v' := by
  obtain ⟨nv?, hget, h⟩ := bind_eq_ok.1 h
  cases nv? with
  | none =>
    cases h
    exact .inl rfl
  | some nv =>
    dsimp only at h
    split at h
    · cases h
      exact .inl rfl
    · rename_i hd
      obtain ⟨⟨v1, offset, w⟩, happend, h⟩ := bind_eq_ok.1 h
      obtain ⟨v2, hdelete, h⟩ := bind_eq_ok.1 h
      cases h
      exact .inr ⟨nv, v1, offset, w, hget, Bool.eq_false_iff.2 hd, mapError_eq_ok.1 happend, hdelete⟩

theorem Sound.effect_delete
    (hw : v.doDeleteRequest n now = .ok (v', size)) : Effect v v' recs (.delete n now) := by
  rcases doDeleteRequest_cases hw with rfl | ⟨nv, v1, offset, w, hget, hlive, happ, hdel⟩
  · exact .same rfl
  obtain ⟨e, he, hnv⟩ : ∃ e, v.nm.entry n.id = some e ∧ (⟨n.id, e.1, e.2⟩ : NeedleValue) = nv := by
    rw [h.get] at hget
    exact map_eq_some_iff.1 (ok.inj hget)
  subst hnv
  have hfits := fits_emptied n v.version
  obtain ⟨_, r, happ', -, hcomplete, hbody, hrn⟩ := appendNeedle_eq hfits now fun hd => absurd rfl hd
  cases happ'.symm.trans happ
  obtain ⟨nm', hnm', hinv, hkind, hentry, hindex⟩ := h.nm.delete he hlive (toOffset v.dat.length)
  obtain rfl := ok.inj (hdel.symm.trans (deleteEntry_eq hnm'))
  have hstored : r.needle.id = n.id ∧ r.needle.size = 0 ∧
      r.needle.appendAtNs = getAppendAtNs now v.lastAppendAtNs := by
    rw [hrn]
    cases v.version <;> exact ⟨rfl, rfl, rfl⟩
  exact .delete r e hlive he hstored.1 hstored.2.1
    ⟨rfl, hcomplete, rfl, hstored.2.2, rfl, hinv, hkind, hentry, hindex⟩
    (encoded_sizedAs hbody hrn hfits (fun hd => absurd rfl hd) fun hd => absurd rfl hd)

end

/-! ### Blobs -/

theorem writeBlob_cases (h : v.writeBlob needleId needleBlob size now = .ok v') :
    v' = v ∨ ∃ (dat : File) (offset : Nat),
      writeNeedleBlob v.dat needleBlob size (Needle.getAppendAtNs now v.lastAppendAtNs) v.version =
        .ok (dat, offset) ∧
      ({ v with dat := dat, lastAppendAtNs := Needle.getAppendAtNs now v.lastAppendAtNs } :
        Volume).putEntry needleId (toOffset offset) size = .ok v' := by
  unfold writeBlob at h
  split at h
  · cases h
  · obtain ⟨nv?, -, h⟩ := bind_eq_ok.1 h
    obtain ⟨exists_, -, h⟩ := bind_eq_ok.1 h
    cases exists_ with
    | true =>
      cases h
      exact .inl rfl
    | false =>
      obtain ⟨⟨dat, offset⟩, hblob, h⟩ := bind_eq_ok.1 h
      exact .inr ⟨dat, offset, mapError_eq_ok.1 hblob, h⟩

theorem encoded_stamped {version : Version} {body bytes : List UInt8} (hbody : body = n.body version)
    (hr : n.Readable version) (appendAtNs : UInt64) :
    (⟨{ n with appendAtNs := appendAtNs }, body, bytes⟩ : Rec).Encoded version where
  body := by
    rw [hbody]
    cases version <;> rfl
  readable := by
    refine ⟨fun hv => ⟨(hr.sized hv).data, fun hd => ?_⟩, hr.crc⟩
    have hf := (hr.sized hv).fields hd
    exact ⟨hf.name, hf.mime, hf.modified, hf.ttl, hf.pairs⟩

theorem VolumeOp.Ok.blob (hok : (VolumeOp.blob needleId needleBlob size now).Ok v) :
    ∃ n body, IsRecord v.version n body needleBlob ∧ n.id = needleId ∧ n.size = size ∧
      ((VolumeOp.blob needleId needleBlob size now).Storable v.version →
        body = n.body v.version ∧ n.Readable v.version) := by
  by_cases hs : (VolumeOp.blob needleId needleBlob size now).Storable v.version
  · obtain ⟨n, hrec, hid, hsize, hread⟩ := hs
    exact ⟨n, _, hrec, hid, hsize, fun _ => ⟨rfl, hread⟩⟩
  · obtain ⟨-, -, ⟨n, body, hrec, hid, hsize⟩, -⟩ := hok
    exact ⟨n, body, hrec, hid, hsize, fun h => absurd h hs⟩

section

variable (h : Sound v recs log)
include h

theorem Sound.effect_blob (hok : (VolumeOp.blob needleId needleBlob size now).Ok v)
    (hw : v.writeBlob needleId needleBlob size now = .ok v') :
    Effect v v' recs (.blob needleId needleBlob size now) := by
  rcases writeBlob_cases hw with rfl | ⟨dat, offset, hblob, hput⟩
  · exact .same rfl
  obtain ⟨n, body, hrec, hid, hsize, hstorable⟩ := hok.blob
  obtain ⟨bytes, hstamp, hrec'⟩ := stampBlob_eq hrec (getAppendAtNs now v.lastAppendAtNs)
  have hblob' : writeNeedleBlob v.dat needleBlob size (getAppendAtNs now v.lastAppendAtNs)
      v.version = .ok (v.dat ++ bytes, v.dat.length) := by
    unfold writeNeedleBlob
    rw [← hsize, hstamp]
    exact congrArg (fun f => ok (f, v.dat.length)) (File.writeAt_length v.dat bytes)
  cases hblob'.symm.trans hblob
  obtain ⟨nm', hnm', hinv, hkind, hentry, hindex⟩ := h.nm.put needleId (toOffset v.dat.length) size
  obtain rfl := ok.inj (hput.symm.trans (putEntry_eq hnm'))
  subst hsize
  refine .put ⟨{ n with appendAtNs := getAppendAtNs now v.lastAppendAtNs }, body, bytes⟩ hok.2.2.2 hid
    ⟨rfl, hrec', rfl, rfl, rfl, hinv, hkind, hentry, hindex⟩ (fun hop => nomatch hop) ?_ id
  intro hs
  exact encoded_stamped (hstorable hs).1 (hstorable hs).2 _

/-! ### Steps and runs -/

/-- **What an operation does**: one that fails does nothing. -/
theorem Sound.effect (hok : op.Ok v) : Effect v (v.after op) recs op := by
  unfold Volume.after
  cases hstep : v.step op with
  | error err => exact .same rfl
  | ok v' =>
    cases op with
    | write n checkCookie now =>
      obtain ⟨⟨v1, res⟩, hw, hv⟩ := bind_eq_ok.1 hstep
      cases hv
      exact h.effect_write hok hw
    | delete n now =>
      obtain ⟨⟨v1, size⟩, hw, hv⟩ := bind_eq_ok.1 hstep
      cases hv
      exact h.effect_delete hw
    | blob needleId needleBlob size now => exact h.effect_blob hok hstep

theorem Sound.puts (below : v.dat.length < maxPossibleVolumeSize) (id : r.needle.id = key)
    (adds : Adds v v' now key r (toOffset v.dat.length, r.needle.size)
      (toOffset v.dat.length, r.needle.size)) :
    Sound v' (recs ++ [r]) (log ++ [(key, toOffset v.dat.length, r.needle.size)]) :=
  h.adds adds (h.isZero_toOffset below) ⟨r, h.at_end below r, id, fun _ => rfl⟩ (fun _ => rfl)
    fun _ => .inl rfl

theorem Sound.deletes (live : e.2.isDeleted = false) (entry : v.nm.entry key = some e)
    (adds : Adds v v' now key r (NeedleMapper.mark v.nm.kind e)
      (toOffset v.dat.length, tombstoneFileSize)) :
    Sound v' (recs ++ [r]) (log ++ [(key, toOffset v.dat.length, tombstoneFileSize)]) := by
  obtain ⟨hz, r', hr', hid, hsize⟩ := h.entries key e entry
  have hdeleted := mark_deleted v.nm.kind e
  have hfst := mark_fst v.nm.kind e
  refine h.adds adds (hfst ▸ hz) ?_ (fun hd => nomatch hd) ?_
  · rw [hfst]
    refine ⟨r', hr'.append _, hid, fun hd => ?_⟩
    rcases hdeleted with hdel | ⟨-, -, heq⟩
    · rw [hdel] at hd
      cases hd
    · rw [heq]
      exact hsize live
  · intro hd
    rcases hdeleted with hdel | ⟨hkind, hzero, heq⟩
    · rw [hdel] at hd
      cases hd
    · refine .inr ⟨hkind, ?_⟩
      rw [heq]
      exact hzero

end

section

variable (h : VolumeInv v recs log)
include h

theorem VolumeInv.puts (hnow : now.toNat < 2 ^ 63) (hlen : v.dat.length < 2 ^ 63)
    (below : v.dat.length < maxPossibleVolumeSize) (id : r.needle.id = key)
    (adds : Adds v v' now key r (toOffset v.dat.length, r.needle.size)
      (toOffset v.dat.length, r.needle.size)) :
    VolumeInv v' (recs ++ [r]) (log ++ [(key, toOffset v.dat.length, r.needle.size)]) := by
  refine h.adds adds hnow hlen (h.toSound.puts below id adds) id ?_
  simp only [filter_some, decide_eq_true_eq]

theorem VolumeInv.deletes (hnow : now.toNat < 2 ^ 63) (hlen : v.dat.length < 2 ^ 63)
    (live : e.2.isDeleted = false) (entry : v.nm.entry key = some e) (id : r.needle.id = key)
    (empty : r.needle.size = 0) (adds : Adds v v' now key r (NeedleMapper.mark v.nm.kind e)
      (toOffset v.dat.length, tombstoneFileSize)) :
    VolumeInv v' (recs ++ [r]) (log ++ [(key, toOffset v.dat.length, tombstoneFileSize)]) := by
  refine h.adds adds hnow hlen (h.toSound.deletes live entry adds) id ?_
  have hnot : ¬ 0 < (mark v.nm.kind e).2.toInt := by
    rcases mark_deleted v.nm.kind e with hdel | ⟨-, hzero, heq⟩
    · have := isDeleted_iff.1 hdel
      omega
    · rw [heq, hzero]
      decide
  rw [empty, filter_some, if_neg (by simpa using hnot)]
  rfl

/-- **Step.** An operation appends at most one record and one entry of the log. -/
theorem VolumeInv.step (hok : op.Ok v) : ∃ rs ls, VolumeInv (v.after op) (recs ++ rs) (log ++ ls) ∧
      (op.Storable v.version → ∀ r ∈ rs, r.Encoded v.version) := by
  cases h.effect hok with
  | same heq =>
    rw [heq]
    exact ⟨[], [], by simpa using h, fun _ r hr => absurd hr not_mem_nil⟩
  | put r below id adds cookie encoded =>
    exact ⟨[r], _, h.puts hok.1 hok.2.1 below id adds, fun hs => forall_mem_singleton.2 (encoded hs)⟩
  | delete r e live entry id empty adds encoded =>
    exact ⟨[r], _, h.deletes hok.1 hok.2.1 live entry id empty adds, fun _ => forall_mem_singleton.2 encoded⟩

omit h in
theorem Effect.superBlock (h : Effect v v' recs op) : v'.superBlock = v.superBlock := by
  cases h with
  | same h => rw [h]
  | put _ _ _ adds => exact adds.superBlock
  | delete _ _ _ _ _ _ adds => exact adds.superBlock

/-- **Run.** Operations append records and entries of the log. -/
theorem VolumeInv.run (hok : RunOk v ops) : ∃ rs ls, VolumeInv (v.run ops) (recs ++ rs) (log ++ ls) ∧
      (v.run ops).superBlock = v.superBlock ∧
      ((∀ op ∈ ops, op.Storable v.version) → ∀ r ∈ rs, r.Encoded v.version) := by
  induction ops generalizing v recs log with
  | nil =>
    refine ⟨[], [], ?_, rfl, fun _ r hr => absurd hr not_mem_nil⟩
    rw [append_nil, append_nil]
    exact h
  | cons op ops ih =>
    obtain ⟨hop, hops⟩ := hok
    have hsuper := (h.effect hop).superBlock
    obtain ⟨rs, ls, hstep, hs⟩ := h.step hop
    obtain ⟨rs', ls', hrun, hsuper', hs'⟩ := ih hstep hops
    rw [append_assoc, append_assoc] at hrun
    refine ⟨rs ++ rs', ls ++ ls', hrun, hsuper'.trans hsuper, ?_⟩
    intro hall
    have hversion : (v.after op).version = v.version := congrArg SuperBlock.version hsuper
    rw [hversion] at hs'
    obtain ⟨hop, hops⟩ := forall_mem_cons.1 hall
    exact forall_mem_append.2 ⟨hs hop, hs' hops⟩

end

/-- A volume in use: a new one, or one after operations. -/
def InUse (v : Volume) : Prop :=
  ∃ s kind ops, RunOk (newVolume s kind) ops ∧ v = (newVolume s kind).run ops

theorem InUse.inv (h : InUse v) : ∃ recs log, VolumeInv v recs log := by
  obtain ⟨s, kind, ops, hok, rfl⟩ := h
  obtain ⟨rs, ls, hrun, -⟩ := (volumeInv_new s kind).run hok
  exact ⟨_, _, hrun⟩

theorem RunOk.append {ops' : List VolumeOp} (h : RunOk v (ops ++ ops')) :
    RunOk v ops ∧ RunOk (v.run ops) ops' := by
  induction ops generalizing v with
  | nil => exact ⟨trivial, h⟩
  | cons op ops ih => exact ⟨⟨h.1, (ih h.2).1⟩, (ih h.2).2⟩

/-! ## Cookies -/

namespace Volume

/-- The cookie of the record at `offset`. -/
def cookieAt (v : Volume) (offset : Nat) : Option Cookie :=
  match readNeedleHeader v.dat v.version offset with
  | .ok (n, _) => some n.cookie
  | .error _ => none

/-- The cookie of the record that the entry of `key` names. -/
def cookieOf (v : Volume) (key : NeedleId) : Option Cookie :=
  match v.get key with
  | .ok (some nv) => v.cookieAt nv.offset.toActualOffset
  | _ => none

end Volume

theorem Sound.cookieAt (h : Sound v recs log) {off : Nat} (hr : At recs off r) :
    v.cookieAt off = some r.needle.cookie := by
  unfold Volume.cookieAt
  rw [h.dat, hr.readNeedleHeader (h.records r hr.mem)]

theorem cookieOf_eq {nv : NeedleValue} (h : v.get key = .ok (some nv)) :
    v.cookieOf key = v.cookieAt nv.offset.toActualOffset := by
  unfold cookieOf
  rw [h]

theorem Sound.get_none (h : Sound v recs log) : v.get key = .ok none ↔ v.nm.entry key = none := by
  rw [h.get]
  cases v.nm.entry key <;> simp

theorem Sound.get_some (h : Sound v recs log)
    (he : v.nm.entry key = some e) : v.get key = .ok (some ⟨key, e.1, e.2⟩) := by
  rw [h.get, he]
  rfl

theorem Sound.lastRow_of_live (h : Sound v recs log) (hkind : v.nm.kind = .inMemory) {nv : NeedleValue}
    (hget : v.get key = .ok (some nv)) (hlive : nv.size.isDeleted = false) :
    lastRow (rowsOf v.nm.indexFile) key = some (nv.offset, nv.size) := by
  rw [h.get] at hget
  obtain ⟨e, he, rfl⟩ := map_eq_some_iff.1 (Except.ok.inj hget)
  rw [h.index, rowsOf_flatMap]
  refine (h.live key e he hlive).resolve_right fun hdb => ?_
  cases hkind.symm.trans hdb.1

section

variable (h : VolumeInv v recs log)
include h

theorem VolumeInv.cookieOf (he : v.nm.entry key = some e) (hr : At recs e.1.toActualOffset r) :
    v.cookieOf key = some r.needle.cookie :=
  (cookieOf_eq (h.get_some he)).trans (h.cookieAt hr)

theorem VolumeInv.of_cookieOf (hc : v.cookieOf key = some cookie) :
    ∃ e r, v.nm.entry key = some e ∧ At recs e.1.toActualOffset r ∧ r.needle.cookie = cookie := by
  cases he : v.nm.entry key with
  | none =>
    unfold Volume.cookieOf at hc
    rw [h.get_none.2 he] at hc
    cases hc
  | some e =>
    obtain ⟨-, r, hr, -⟩ := h.entries key e he
    rw [h.cookieOf he hr] at hc
    exact ⟨e, r, rfl, hr, some.inj hc⟩

/-- **Cookies are kept** by every operation but a blob of the key. -/
theorem VolumeInv.cookieOf_after (hok : op.Ok v) (hc : v.cookieOf key = some cookie)
    (hblob : op.key = key → op.isBlob = false) : (v.after op).cookieOf key = some cookie := by
  obtain ⟨e, r, he, hr, rfl⟩ := h.of_cookieOf hc
  cases h.effect hok with
  | same heq => rwa [heq]
  | put r' below id adds hcookie =>
    have h' := h.puts hok.1 hok.2.1 below id adds
    by_cases hk : op.key = key
    · subst hk
      have hsame := hcookie (hblob rfl)
      rw [he] at hsame
      have he' : (v.after op).nm.entry op.key = some (toOffset v.dat.length, r'.needle.size) := by
        rw [adds.entry, set_self]
      rw [h'.cookieOf he' (h.at_end below r'), hsame r hr]
    · have he' : (v.after op).nm.entry key = some e := by
        rw [adds.entry, set_of_ne _ (Ne.symm hk), he]
      exact h'.cookieOf he' (hr.append _)
  | delete r' e' live entry id empty adds =>
    have h' := h.deletes hok.1 hok.2.1 live entry id empty adds
    by_cases hk : op.key = key
    · subst hk
      cases he.symm.trans entry
      have he' : (v.after op).nm.entry op.key = some (mark v.nm.kind e) := by
        rw [adds.entry, set_self]
      refine h'.cookieOf he' ?_
      rw [mark_fst]
      exact hr.append _
    · have he' : (v.after op).nm.entry key = some e := by
        rw [adds.entry, set_of_ne _ (Ne.symm hk), he]
      exact h'.cookieOf he' (hr.append _)

theorem VolumeInv.cookieOf_run (hok : RunOk v ops) (hc : v.cookieOf key = some cookie)
    (hblob : ∀ op ∈ ops, op.key = key → op.isBlob = false) :
    (v.run ops).cookieOf key = some cookie := by
  induction ops generalizing v recs log with
  | nil => exact hc
  | cons op ops ih =>
    obtain ⟨rs, ls, hstep, -⟩ := h.step hok.1
    exact ih hstep hok.2 (h.cookieOf_after hok.1 hc (hblob op mem_cons_self))
      fun op' hop' => hblob op' (mem_cons_of_mem _ hop')

theorem VolumeInv.cookieOf_first
    (hok : (VolumeOp.write n checkCookie now).Ok v) (hnone : v.get n.id = .ok none)
    (hsome : (v.after (.write n checkCookie now)).get n.id ≠ .ok none) :
    (v.after (.write n checkCookie now)).cookieOf n.id = some n.cookie := by
  have he := h.get_none.1 hnone
  cases h.effect hok with
  | same heq =>
    rw [heq] at hsome
    exact absurd hnone hsome
  | put r below id adds hcookie =>
    have h' := h.puts hok.1 hok.2.1 below id adds
    have hsame : match v.nm.entry n.id with
      | some e => _
      | none => _ := hcookie rfl
    rw [he] at hsame
    have hc : r.needle.cookie = n.cookie := hsame n checkCookie now rfl
    have he' : (v.after (.write n checkCookie now)).nm.entry n.id =
        some (toOffset v.dat.length, r.needle.size) := by
      rw [adds.entry]
      exact set_self _ n.id _
    rw [h'.cookieOf he' (h.at_end below r), hc]
  | delete r e live entry =>
    have entry' : v.nm.entry n.id = some e := entry
    rw [he] at entry'
    cases entry'

end

/-! ## The volume after a run -/

/-- The `.dat` file is a sequence of complete records, appended at growing times, and every live entry
of the needle map names one of its key and size. -/
structure Consistent (v : Volume) (recs : List Rec) : Prop where
  dat : v.dat = v.superBlock.bytes ++ bytesOf recs
  complete : ∀ r ∈ recs, r.Complete v.version
  stamps : recs.Pairwise fun r r' => r.needle.appendAtNs < r'.needle.appendAtNs
  live : ∀ key, ∃ nv?, v.get key = .ok nv? ∧ ∀ nv, nv? = some nv → nv.size.isDeleted = false →
    ∃ r, At recs nv.offset.toActualOffset r ∧ r.needle.id = key ∧ r.needle.size = nv.size

theorem VolumeInv.consistent (h : VolumeInv v recs log) : Consistent v recs where
  dat := h.dat
  complete := h.records
  stamps := h.stamps
  live := by
    intro key
    refine ⟨_, h.get key, ?_⟩
    intro nv hnv hlive
    obtain ⟨e, he, rfl⟩ := map_eq_some_iff.1 hnv
    obtain ⟨-, r, hr, hid, hsize⟩ := h.entries key e he
    exact ⟨r, hr, hid, hsize hlive⟩

theorem run_append (v : Volume) (ops ops' : List VolumeOp) :
    v.run (ops ++ ops') = (v.run ops).run ops' := foldl_append

/-- **Runs of a new volume.** The file and the map agree; a key keeps its cookie until a blob of it is
written, and gets it from its first write. -/
theorem volume_run (s : SuperBlock) (kind : NeedleMapKind) (ops : List VolumeOp)
    (hok : RunOk (newVolume s kind) ops) :
    (∃ recs, Consistent ((newVolume s kind).run ops) recs) ∧
    (∀ ops₁ ops₂ key cookie, ops = ops₁ ++ ops₂ →
      ((newVolume s kind).run ops₁).cookieOf key = some cookie →
      (∀ op ∈ ops₂, op.key = key → op.isBlob = false) →
      ((newVolume s kind).run ops).cookieOf key = some cookie) ∧
    (∀ ops₁ n checkCookie now ops₂, ops = ops₁ ++ .write n checkCookie now :: ops₂ →
      ((newVolume s kind).run ops₁).get n.id = .ok none →
      ((newVolume s kind).run (ops₁ ++ [.write n checkCookie now])).get n.id ≠ .ok none →
      (∀ op ∈ ops₂, op.key = n.id → op.isBlob = false) →
      ((newVolume s kind).run ops).cookieOf n.id = some n.cookie) := by
  have hnew := volumeInv_new s kind
  refine ⟨?_, ?_, ?_⟩
  · obtain ⟨rs, ls, hrun, -⟩ := hnew.run hok
    exact ⟨_, hrun.consistent⟩
  · rintro ops₁ ops₂ key cookie rfl hc hblob
    obtain ⟨hok₁, hok₂⟩ := hok.append
    obtain ⟨rs, ls, hrun, -⟩ := hnew.run hok₁
    rw [run_append]
    exact hrun.cookieOf_run hok₂ hc hblob
  · rintro ops₁ n checkCookie now ops₂ rfl hnone hsome hblob
    obtain ⟨hok₁, hop, hok₂⟩ := hok.append
    obtain ⟨rs, ls, hrun, -⟩ := hnew.run hok₁
    obtain ⟨rs', ls', hstep, -⟩ := hrun.step hop
    rw [run_append] at hsome ⊢
    exact hstep.cookieOf_run hok₂ (hrun.cookieOf_first hop hnone hsome) hblob

/-- A new volume. -/
abbrev freshVolume : Volume := newVolume { version := .v3 } .inMemory

/-- A needle with data and nothing else. -/
def plainNeedle (id : NeedleId) (cookie : Cookie) (data : List UInt8) : Needle where
  id := id
  cookie := cookie
  data := data
  checksum := newCRC data

theorem fits_plainNeedle : (plainNeedle 1 5 [7]).Fits .v3 where
  fields := fun _ _ => ⟨by decide, by decide, by decide⟩
  size := by decide

/-- A key that is written and deleted. -/
theorem volume_run_deleted :
    RunOk freshVolume
      [.write (plainNeedle 1 5 [7]) true 10, .delete (plainNeedle 1 5 []) 11] ∧
    ∃ recs, Consistent (freshVolume.run
      [.write (plainNeedle 1 5 [7]) true 10, .delete (plainNeedle 1 5 []) 11]) recs := by
  have hok : RunOk freshVolume
      [.write (plainNeedle 1 5 [7]) true 10, .delete (plainNeedle 1 5 []) 11] := by
    refine ⟨⟨by decide, by decide, fits_plainNeedle, by decide⟩, ⟨by decide, ?_, trivial⟩, trivial⟩
    decide +kernel
  exact ⟨hok, (volume_run _ _ _ hok).1⟩

/-- The record of a needle. -/
def blobOf (n : Needle) : List UInt8 :=
  match writeNeedleByVersion .v3 n with
  | .ok w => w.bytes
  | .error _ => []

/-- A blob brings its own cookie. -/
theorem volume_run_blob :
    (freshVolume.run
      [.write (plainNeedle 1 5 [7]) true 10]).cookieOf 1 = some 5 ∧
    (freshVolume.run [.write (plainNeedle 1 5 [7]) true 10,
        .blob 1 (blobOf (plainNeedle 1 6 [7, 8])) 7 11]).cookieOf 1 = some 6 := by
  decide +kernel

end Storage
