import SeaweedFS.Mq.PubBalancer.Repair

/-!
# Missing partitions: what is filled

What the loops return fills gaps between partitions that follow each other (`Fills`). The ranges meet a partition when
it encloses another one behind which a gap is filled.
-/

namespace Mq.PubBalancer

open Lib List

variable {average ringSize w x : Int} {ps ms : List Partition}

/-- A partition as the ring has it. -/
def Partition.Valid (ringSize : Int) (p : Partition) : Prop :=
  0 ≤ p.rangeStart ∧ p.rangeStart < p.rangeStop ∧ p.rangeStop ≤ ringSize

/-- The two have no position in common. -/
def Partition.Apart (p q : Partition) : Prop := p.rangeStop ≤ q.rangeStart ∨ q.rangeStop ≤ p.rangeStart

/-- Where the gap before `ps` ends. -/
def gapEnd (ringSize : Int) (ps : List Partition) : Int := ps.head?.elim ringSize (·.rangeStart)

/-- `ms` fills the gaps from the watermark `w` on. -/
inductive Fills (ringSize : Int) : List Partition → Int → List Partition → Prop
  | done {w : Int} : ringSize ≤ w → Fills ringSize [] w []
  | next {p : Partition} {ps ms : List Partition} {w : Int} :
      p.rangeStart ≤ w → Fills ringSize ps p.rangeStop ms → Fills ringSize (p :: ps) w ms
  | gap {ps ms : List Partition} {w upper : Int} : w < upper → upper ≤ gapEnd ringSize ps →
      Fills ringSize ps upper ms → Fills ringSize ps w (⟨w, upper, ringSize, 0⟩ :: ms)

/-- No partition reaches behind a later one that a gap follows; `before` are those already passed. -/
def Unnested (ringSize : Int) : List Partition → List Partition → Prop
  | _, [] => True
  | before, p :: ps => (p.rangeStop < gapEnd ringSize ps → ∀ q ∈ before, q.rangeStop ≤ p.rangeStop) ∧
      Unnested ringSize (p :: before) ps

theorem gapEnd_le (hs : ps.Pairwise fun a b => a.rangeStart ≤ b.rangeStart) :
    ∀ p ∈ ps, gapEnd ringSize ps ≤ p.rangeStart := by
  cases hs with
  | nil => simp
  | cons hle _ => exact forall_mem_cons.2 ⟨Int.le_refl _, hle⟩

section
variable (hv : ∀ p ∈ ps, p.rangeStart < p.rangeStop)
include hv

theorem missingLoop_gap (hw : w < gapEnd ringSize ps) (average : Int) (fuel : Nat) :
    missingLoop average ringSize (fuel + 1) ps w =
      (missingLoop average ringSize fuel ps (min (w + average) (gapEnd ringSize ps))).map
        (⟨w, min (w + average) (gapEnd ringSize ps), ringSize, 0⟩ :: ·) := by
  cases ps with
  | nil => exact if_pos hw
  | cons p ps =>
    have hp := hv p mem_cons_self
    simp only [gapEnd, head?_cons, Option.elim_some] at hw ⊢
    rw [missingLoop, if_pos hw]
    dsimp only
    rw [if_neg (by omega)]

variable (ha : 1 ≤ average)
include ha

theorem fills_missingLoop {fuel : Nat} (h : missingLoop average ringSize fuel ps w = some ms) :
    Fills ringSize ps w ms := by
  induction fuel generalizing ps w ms with
  | zero => simp [missingLoop] at h
  | succ fuel ih =>
    by_cases hw : w < gapEnd ringSize ps
    · rw [missingLoop_gap hv hw] at h
      obtain ⟨rest, hrest, rfl⟩ := Option.map_eq_some_iff.1 h
      exact .gap (by omega) (min_le_right _ _) (ih hv hrest)
    · cases ps with
      | nil =>
        obtain rfl : ms = [] := Option.some.inj (h.symm.trans (if_neg hw))
        exact .done (not_lt.1 hw)
      | cons p ps => exact .next (not_lt.1 hw) (ih (forall_mem_cons.1 hv).2 ((if_neg hw).symm.trans h))

theorem missingLoop_of_gapEnd (w : Int)
    (h : ∀ w, gapEnd ringSize ps ≤ w → ∃ fuel ms, missingLoop average ringSize fuel ps w = some ms) :
    ∃ fuel ms, missingLoop average ringSize fuel ps w = some ms := by
  induction hn : (gapEnd ringSize ps - w).toNat using Nat.strong_induction_on generalizing w with
  | _ n ih =>
    by_cases hw : w < gapEnd ringSize ps
    · obtain ⟨fuel, ms, hrun⟩ := ih _ (by omega) (min (w + average) (gapEnd ringSize ps)) rfl
      exact ⟨fuel + 1, _, by rw [missingLoop_gap hv hw, hrun]; rfl⟩
    · exact h w (not_lt.1 hw)

/-- **Enough fuel** takes the watermark over all gaps. -/
theorem missingLoop_returns (w : Int) : ∃ fuel ms, missingLoop average ringSize fuel ps w = some ms := by
  induction ps generalizing w with
  | nil => exact missingLoop_of_gapEnd hv ha w fun w hw => ⟨1, [], if_neg (not_lt.2 hw)⟩
  | cons p ps ih =>
    refine missingLoop_of_gapEnd hv ha w fun w hw => ?_
    obtain ⟨fuel, ms, hrun⟩ := ih (forall_mem_cons.1 hv).2 p.rangeStop
    exact ⟨fuel + 1, ms, (if_neg (not_lt.2 hw)).trans hrun⟩

end

namespace Fills

section
variable (h : Fills ringSize ps w ms)
include h

theorem nonempty : ∀ m ∈ ms, m.rangeStart < m.rangeStop := by
  induction h with
  | done => simp
  | next _ _ ih => exact ih
  | gap hlt _ _ ih => exact forall_mem_cons.2 ⟨hlt, ih⟩

theorem covers (hw : w ≤ x) (hx : x < ringSize) : ∃ p ∈ ms ++ ps, p.rangeStart ≤ x ∧ x < p.rangeStop := by
  induction h with
  | done => omega
  | @next p ps ms w hp _ ih =>
    by_cases hstop : p.rangeStop ≤ x
    · obtain ⟨q, hq, hx⟩ := ih hstop
      exact ⟨q, by simp only [mem_append, mem_cons] at hq ⊢; tauto, hx⟩
    · exact ⟨p, by simp, by omega, by omega⟩
  | @gap ps ms w upper _ _ _ ih =>
    by_cases hup : upper ≤ x
    · obtain ⟨q, hq, hx⟩ := ih hup
      exact ⟨q, .tail _ hq, hx⟩
    · exact ⟨_, mem_cons_self, hw, by simpa using hup⟩

theorem le_start (hw : x ≤ w) (hps : ∀ p ∈ ps, x ≤ p.rangeStart ∧ p.rangeStart < p.rangeStop) :
    ∀ m ∈ ms, x ≤ m.rangeStart := by
  induction h with
  | done => simp
  | next _ _ ih =>
    obtain ⟨hp, hps⟩ := forall_mem_cons.1 hps
    exact ih (by omega) hps
  | gap hlt _ _ ih => exact forall_mem_cons.2 ⟨hw, ih (by omega) hps⟩

variable (hv : ∀ p ∈ ps, p.rangeStart < p.rangeStop) (hs : ps.Pairwise fun a b => a.rangeStart ≤ b.rangeStart)
include hv hs

theorem pairwise : ms.Pairwise Partition.Apart := by
  induction h with
  | done => exact .nil
  | next _ _ ih => exact ih (forall_mem_cons.1 hv).2 hs.of_cons
  | gap _ hup h ih =>
    have hstart := h.le_start (Int.le_refl _) fun p hp => ⟨Int.le_trans hup (gapEnd_le hs p hp), hv p hp⟩
    exact List.pairwise_cons.2 ⟨fun m hm => .inl (hstart m hm), ih hv hs⟩

/-- A range starts at the watermark, so it meets the partitions `before` that reach over the watermark. -/
theorem apart_iff (before : List Partition) (hw : ∀ q ∈ before, q.rangeStart ≤ w)
    (hb : ∀ q ∈ before, ∀ p ∈ ps, q.rangeStart ≤ p.rangeStart) :
    (∀ m ∈ ms, ∀ q ∈ before ++ ps, m.Apart q) ↔
      (w < gapEnd ringSize ps → ∀ q ∈ before, q.rangeStop ≤ w) ∧ Unnested ringSize before ps := by
  induction h generalizing before with
  | done hle => simp [gapEnd, Unnested, hle]
  | @next p ps ms w hp h ih =>
    obtain ⟨hpv, hv⟩ := forall_mem_cons.1 hv
    obtain ⟨hps, hs⟩ := List.pairwise_cons.1 hs
    have hq : ∀ q ∈ before, q.rangeStart ≤ p.rangeStop := fun q hq => by
      have := hb q hq p mem_cons_self
      omega
    have hrest := ih hv hs (p :: before) (forall_mem_cons.2 ⟨hpv.le, hq⟩)
      (forall_mem_cons.2 ⟨hps, fun q hq r hr => hb q hq r (.tail _ hr)⟩)
    have hmem : ∀ q, q ∈ before ++ p :: ps ↔ q ∈ p :: before ++ ps := by simp [or_left_comm]
    have hgap : ¬ w < gapEnd ringSize (p :: ps) := not_lt.2 hp
    simp only [hmem, hrest, Unnested, hgap, forall_mem_cons, le_refl, true_and, false_implies]
  | @gap ps ms w upper hlt hup h ih =>
    have hrange : (∀ q ∈ before ++ ps, Partition.Apart ⟨w, upper, ringSize, 0⟩ q) ↔
        ∀ q ∈ before, q.rangeStop ≤ w := by
      refine ⟨fun h q hq => ?_, fun h => forall_mem_append.2 ⟨fun q hq => .inr (h q hq), fun q hq => ?_⟩⟩
      · exact (h q (mem_append_left _ hq)).resolve_left (by have := hw q hq; dsimp only; omega)
      · exact .inl (Int.le_trans hup (gapEnd_le hs q hq))
    rw [forall_mem_cons, hrange, ih hv hs before (fun q hq => by have := hw q hq; omega) hb]
    have hle : w < gapEnd ringSize ps := by omega
    have : (∀ q ∈ before, q.rangeStop ≤ w) → ∀ q ∈ before, q.rangeStop ≤ upper :=
      fun h q hq => by have := h q hq; omega
    tauto

end

end Fills

theorem one_le_average (hne : ps ≠ []) (hv : ∀ p ∈ ps, p.rangeStart < p.rangeStop) :
    1 ≤ ((ps.map fun p : Partition => p.rangeStop - p.rangeStart).sum).tdiv ps.length := by
  have hsum := card_nsmul_le_sum (ps.map fun p : Partition => p.rangeStop - p.rangeStart) 1 (by
    simp only [List.mem_map, forall_exists_index, and_imp, forall_apply_eq_imp_iff₂]
    exact fun p hp => by have := hv p hp; omega)
  have hpos := length_pos_of_ne_nil hne
  rw [length_map, nsmul_one] at hsum
  rw [Int.tdiv_eq_ediv_of_nonneg (by omega), Int.le_ediv_iff_mul_le (by omega)]
  omega

/-- **The missing partitions** are not empty, disjoint, and cover the ring with the given ones; they are disjoint from
those exactly if no gap is filled behind a partition that an earlier one reaches over. -/
theorem findMissingPartitions_apart (S : SortFunc Partition) (partitions : List Partition) (ringSize : Int)
    (hne : partitions ≠ []) (hv : ∀ p ∈ partitions, p.Valid ringSize) :
    (∃ fuel missing, findMissingPartitions S fuel partitions ringSize = some missing) ∧
    ∀ fuel missing, findMissingPartitions S fuel partitions ringSize = some missing →
      (∀ m ∈ missing, m.rangeStart < m.rangeStop) ∧ missing.Pairwise Partition.Apart ∧
      (∀ x, 0 ≤ x → x < ringSize → ∃ p ∈ missing ++ partitions, p.rangeStart ≤ x ∧ x < p.rangeStop) ∧
      ((∀ m ∈ missing, ∀ p ∈ partitions, m.Apart p) ↔ Unnested ringSize [] (byStart S partitions)) := by
  have hperm : (byStart S partitions).Perm partitions := S.perm _ partitions
  have hs : (byStart S partitions).Pairwise fun a b => a.rangeStart ≤ b.rangeStart :=
    (S.sorted _ partitions ⟨by omega, by omega⟩).imp (by omega)
  simp only [← hperm.mem_iff] at hv ⊢
  have hlt : ∀ p ∈ byStart S partitions, p.rangeStart < p.rangeStop := fun p hp => (hv p hp).2.1
  have ha := one_le_average (fun h => hne (h ▸ hperm).nil_eq.symm) hlt
  refine ⟨missingLoop_returns hlt ha 0, fun fuel missing hrun => ?_⟩
  have h := fills_missingLoop hlt ha hrun
  refine ⟨h.nonempty, h.pairwise hlt hs, fun x h0 hx => ?_, ?_⟩
  · obtain ⟨p, hp, hx⟩ := h.covers h0 hx
    exact ⟨p, by simpa [hperm.mem_iff] using hp, hx⟩
  · simpa using h.apart_iff hlt hs [] (by simp) (by simp)

/-- Two partitions that overlap, with a gap behind them. -/
theorem findMissingPartitions_apart_two : ∃ fuel missing,
    findMissingPartitions .insertion fuel [⟨2, 6, 10, 0⟩, ⟨0, 4, 10, 0⟩] 10 = some missing ∧
      missing ≠ [] ∧ ∀ m ∈ missing, ∀ p ∈ [⟨2, 6, 10, 0⟩, ⟨0, 4, 10, 0⟩], m.Apart p := by
  have hrun : findMissingPartitions .insertion 4 [⟨2, 6, 10, 0⟩, ⟨0, 4, 10, 0⟩] 10 = some [⟨6, 10, 10, 0⟩] := by
    decide
  have hsorted : byStart .insertion [⟨2, 6, 10, 0⟩, ⟨0, 4, 10, 0⟩] = [⟨0, 4, 10, 0⟩, ⟨2, 6, 10, 0⟩] := by decide
  obtain ⟨-, hall⟩ := findMissingPartitions_apart .insertion [⟨2, 6, 10, 0⟩, ⟨0, 4, 10, 0⟩] 10 (by simp)
    (by simp [Partition.Valid])
  refine ⟨4, _, hrun, by simp, (hall 4 _ hrun).2.2.2.2 ?_⟩
  rw [hsorted]
  simp [Unnested, gapEnd]

/-- The second partition takes the watermark back into the first one. -/
theorem findMissingPartitions_overlap :
    findMissingPartitions .insertion 6 [⟨0, 10, 20, 0⟩, ⟨2, 4, 20, 0⟩] 20 =
      some [⟨4, 10, 20, 0⟩, ⟨10, 16, 20, 0⟩, ⟨16, 20, 20, 0⟩] ∧
    ¬ Partition.Apart ⟨4, 10, 20, 0⟩ ⟨0, 10, 20, 0⟩ := by
  refine ⟨by decide, ?_⟩
  simp [Partition.Apart]

end Mq.PubBalancer
