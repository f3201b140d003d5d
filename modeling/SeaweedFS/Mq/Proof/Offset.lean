import SeaweedFS.Mq.Offset

/-!
# Offsets are given out once

**`assigned_increasing`**: the offsets of a partition increase over every run in which a process crashes only
when all offsets that were given out are saved.
-/

namespace Mq

open Lib List

variable {p : Partition}

/-- No count is negative, no offset is beyond an `int64`, and at a crash every offset given out is saved. -/
def Saved (p : Partition) : Event → Prop
  | .assignOffset => p.manager.nextOffset.toInt + 1 < 2 ^ 63
  | .assignOffsets count => 0 ≤ count.toInt ∧ p.manager.nextOffset.toInt + count.toInt < 2 ^ 63
  | .crash => ∀ o ∈ p.assigned, ∃ c, p.stored = some c ∧ o ≤ c.toInt
  | _ => True

/-- The offsets given out increase and lie below the next one, and so does what is saved. -/
structure Ahead (p : Partition) : Prop where
  next : 0 ≤ p.manager.nextOffset.toInt
  increasing : p.assigned.Pairwise (· < ·)
  assigned : ∀ o ∈ p.assigned, o < p.manager.nextOffset.toInt
  checkpoint : ∀ c, p.stored = some c ∨ p.saving = some c → 0 ≤ c.toInt ∧ c.toInt < p.manager.nextOffset.toInt

theorem toInt_add_of_lt64 {a b : Int64} (ha : 0 ≤ a.toInt) (hb : 0 ≤ b.toInt) (h : a.toInt + b.toInt < 2 ^ 63) :
    (a + b).toInt = a.toInt + b.toInt := by
  rw [Int64.toInt_add, Int.bmod_eq_of_le] <;> omega

theorem recover_some {c : Int64} (hc : 0 ≤ c.toInt) : (recover (some c) (some c)).nextOffset = c + 1 := by
  have hle : 0 ≤ c := Int64.le_iff_toInt_le.2 hc
  simp [recover, Option.filter, hle]

theorem Ahead.assign (h : Ahead p) {count : Int64} (hcount : 0 ≤ count.toInt)
    (hlt : p.manager.nextOffset.toInt + count.toInt < 2 ^ 63) : Ahead { p with
      manager := { p.manager with nextOffset := p.manager.nextOffset + count }
      assigned := p.assigned ++ (List.range count.toInt.toNat).map fun k : Nat => p.manager.nextOffset.toInt + k } := by
  have hnext := toInt_add_of_lt64 h.next hcount hlt
  have hpos := h.next
  refine ⟨by dsimp only; omega, ?_, ?_, fun c hc => ?_⟩
  · refine pairwise_append.2 ⟨h.increasing, ?_, ?_⟩
    · rw [pairwise_map]
      exact pairwise_lt_range.imp (by omega)
    · intro o ho o' ho'
      obtain ⟨k, -, rfl⟩ := mem_map.1 ho'
      have := h.assigned o ho
      omega
  · intro o ho
    dsimp only
    rcases mem_append.1 ho with ho | ho
    · have := h.assigned o ho
      omega
    · obtain ⟨k, hk, rfl⟩ := mem_map.1 ho
      have := mem_range.1 hk
      omega
  · have := h.checkpoint c hc
    dsimp only
    omega

theorem Ahead.start (h : Ahead p) (hsaved : ∀ o ∈ p.assigned, ∃ c, p.stored = some c ∧ o ≤ c.toInt) :
    Ahead (.start p.stored p.assigned) := by
  cases hstored : p.stored with
  | none =>
    have hnil : p.assigned = [] := by
      apply eq_nil_iff_forall_not_mem.2
      intro o ho
      obtain ⟨c, hc, -⟩ := hsaved o ho
      simp [hstored] at hc
    rw [hnil]
    exact ⟨by decide, .nil, by simp [Partition.start], by simp [Partition.start]⟩
  | some c =>
    obtain ⟨hc, hlt⟩ := h.checkpoint c (.inl hstored)
    have hnext : (recover (some c) (some c)).nextOffset.toInt = c.toInt + 1 := by
      have := Int64.toInt_lt p.manager.nextOffset
      rw [recover_some hc, toInt_add_of_lt64 hc (by decide) (by rw [Int64.toInt_one]; omega), Int64.toInt_one]
    refine ⟨?_, h.increasing, fun o ho => ?_, fun c' hc' => ?_⟩
    · show 0 ≤ (recover (some c) (some c)).nextOffset.toInt
      omega
    · obtain ⟨c', hc', hle⟩ := hsaved o ho
      obtain rfl : c' = c := by grind
      exact hnext ▸ Int.lt_add_one_of_le hle
    · obtain rfl : c = c' := by simpa [Partition.start] using hc'
      exact ⟨hc, hnext ▸ Int.lt_succ _⟩

theorem Ahead.step (h : Ahead p) {event : Event} (hevent : Saved p event) : Ahead (p.step event) := by
  cases event with
  | assignOffset =>
    have := h.assign (Int64.toInt_one ▸ Int.zero_le_ofNat 1) (by rwa [Int64.toInt_one])
    simpa [Partition.step] using this
  | assignOffsets => exact h.assign hevent.1 hevent.2
  | readCheckpoint =>
    unfold Partition.step
    dsimp only
    split
    · exact h
    · next hread =>
      have hle : 0 ≤ (p.manager.nextOffset - 1).toInt := by
        have := mt Int64.lt_iff_toInt_lt.2 (not_or.1 hread).1
        simpa using this
      refine ⟨h.next, h.increasing, h.assigned, fun c hc => hc.elim (fun hc => h.checkpoint c (.inl hc)) ?_⟩
      rintro ⟨⟩
      have hsub : (p.manager.nextOffset - 1).toInt = p.manager.nextOffset.toInt - 1 := by
        have := h.next
        have := Int64.toInt_lt p.manager.nextOffset
        rw [Int64.toInt_sub, Int64.toInt_one, Int.bmod_eq_of_le] <;> omega
      exact ⟨hle, by dsimp only; omega⟩
  | saveCheckpoint =>
    unfold Partition.step
    cases hsaving : p.saving with
    | none => exact h
    | some offset => exact ⟨h.next, h.increasing, h.assigned, fun c hc => h.checkpoint c (by simp_all)⟩
  | crash => exact h.start hevent

/-- **Offsets increase** over every run that crashes only when all that were given out are saved. -/
theorem assigned_increasing {events : List Event}
    (h : Throughout Partition.step Saved (.start none []) events) :
    (events.foldl Partition.step (.start none [])).assigned.Pairwise (· < ·) :=
  (foldl_inv (fun _ _ hp hevent => Ahead.step hp hevent)
    ⟨by decide, .nil, by simp [Partition.start], by simp [Partition.start]⟩ h).increasing

theorem assigned_increasing_saved :
    ([Event.assignOffset, .readCheckpoint, .saveCheckpoint, .crash, .assignOffset].foldl Partition.step
      (.start none [])).assigned.Pairwise (· < ·) :=
  assigned_increasing ⟨show (0 : Int64).toInt + 1 < 2 ^ 63 by decide, trivial, trivial,
    fun o ho => ⟨0, rfl, by revert o; decide⟩, show (1 : Int64).toInt + 1 < 2 ^ 63 by decide, trivial⟩

/-- An offset is given out, the process crashes, and the offset is given out again. -/
theorem assigned_twice :
    ([Event.assignOffset, .crash, .assignOffset].foldl Partition.step (.start none [])).assigned = [0, 0] := by
  decide

end Mq
