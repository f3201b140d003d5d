import Mathlib

/-!
# Layers over a line, the newest one on top

A `Layer` is a half-open span `[lo, hi)` of integers with a time stamp. At a position a list of layers shows its
newest covering layer (`IsTop`, computed by `newest?`), which is unique when overlapping layers have different
stamps (`DistinctTs`).
-/

namespace Lib

open List

/-- A span with a time stamp. -/
class Layer (α : Type) where
  lo : α → Int
  hi : α → Int
  ts : α → Int

export Layer (lo hi ts)

variable {α : Type} [Layer α] {L l m : List α} {a b : α} {x : Int}

/-- `a` covers the position `x`. -/
def Covers (a : α) (x : Int) : Prop := lo a ≤ x ∧ x < hi a

instance (a : α) (x : Int) : Decidable (Covers a x) := inferInstanceAs (Decidable (_ ∧ _))

/-- Some position is covered by both. -/
def Overlap (a b : α) : Prop := max (lo a) (lo b) < min (hi a) (hi b)

instance (a b : α) : Decidable (Overlap a b) := inferInstanceAs (Decidable (_ < _))

/-- Any two overlapping layers of `L` have different stamps. -/
def DistinctTs (L : List α) : Prop := L.Pairwise fun a b => Overlap a b → ts a ≠ ts b

instance (L : List α) : Decidable (DistinctTs L) := inferInstanceAs (Decidable (List.Pairwise _ _))

/-- `a` is a newest layer of `L` over `x`. -/
structure IsTop (L : List α) (x : Int) (a : α) : Prop where
  mem : a ∈ L
  covers : Covers a x
  newest : ∀ b ∈ L, Covers b x → ts b ≤ ts a

/-- The newest layer over `x`, the first of them on a tie. -/
def newest? : List α → Int → Option α
  | [], _ => none
  | a :: L, x =>
    if Covers a x then
      match newest? L x with
      | some b => if ts a < ts b then some b else some a
      | none => some a
    else newest? L x

/-- The spans are not empty, and each begins at or after the end of the ones before it. -/
structure Ordered (l : List α) : Prop where
  pos : ∀ a ∈ l, lo a < hi a
  pairwise : l.Pairwise fun a b => hi a ≤ lo b

/-- The first span over `x`. -/
def seek (l : List α) (x : Int) : Option α := l.find? fun a => decide (Covers a x)

/-! ## Overlap and distinct stamps -/

theorem Overlap.symm (h : Overlap a b) : Overlap b a := by
  unfold Overlap at *
  rwa [max_comm, min_comm]

theorem overlap_of_covers (ha : Covers a x) (hb : Covers b x) : Overlap a b := by
  unfold Overlap Covers at *
  omega

variable {M : List α}

theorem DistinctTs.perm (h : DistinctTs L) (hp : L.Perm M) : DistinctTs M :=
  hp.pairwise h fun hab ho => (hab ho.symm).symm

theorem DistinctTs.sublist (h : DistinctTs L) (hs : List.Sublist M L) : DistinctTs M :=
  List.Pairwise.sublist hs h

theorem DistinctTs.eq_of_covers (h : DistinctTs L) (ha : a ∈ L) (hb : b ∈ L) (hca : Covers a x)
    (hcb : Covers b x) (ht : ts a = ts b) : a = b := by
  by_contra hne
  have : Std.Symm fun a b : α => Overlap a b → ts a ≠ ts b :=
    ⟨fun _ _ h ho => (h ho.symm).symm⟩
  exact List.Pairwise.forall h ha hb hne (overlap_of_covers hca hcb) ht

/-! ## The newest layer -/

theorem IsTop.unique (hd : DistinctTs L) (ha : IsTop L x a) (hb : IsTop L x b) : a = b :=
  hd.eq_of_covers ha.mem hb.mem ha.covers hb.covers
    (Int.le_antisymm (hb.newest a ha.mem ha.covers) (ha.newest b hb.mem hb.covers))

theorem newest?_spec : ∀ (L : List α) (x : Int), match newest? L x with
    | some a => IsTop L x a
    | none => ∀ a ∈ L, ¬ Covers a x
  | [], x => by simp [newest?]
  | c :: L, x => by
    have ih := newest?_spec L x
    unfold newest?
    by_cases hc : Covers c x
    · simp only [hc]
      cases hn : newest? L x with
      | none =>
        rw [hn] at ih
        exact ⟨by simp, hc, forall_mem_cons.2 ⟨fun _ => le_refl _, fun b hb hcb => absurd hcb (ih b hb)⟩⟩
      | some b =>
        rw [hn] at ih
        by_cases hlt : ts c < ts b
        · simp only [hlt]
          exact ⟨by simp [ih.mem], ih.covers, forall_mem_cons.2 ⟨fun _ => le_of_lt hlt, ih.newest⟩⟩
        · simp only [hlt]
          exact ⟨by simp, hc, forall_mem_cons.2 ⟨fun _ => le_refl _,
            fun d hd hcd => le_trans (ih.newest d hd hcd) (not_lt.1 hlt)⟩⟩
    · simp only [hc]
      cases hn : newest? L x with
      | none =>
        rw [hn] at ih
        exact forall_mem_cons.2 ⟨hc, ih⟩
      | some b =>
        rw [hn] at ih
        exact ⟨by simp [ih.mem], ih.covers, forall_mem_cons.2 ⟨fun hcd => absurd hcd hc, ih.newest⟩⟩

theorem newest?_isTop (h : newest? L x = some a) : IsTop L x a := by
  have := newest?_spec L x
  rwa [h] at this

theorem newest?_eq_none : newest? L x = none ↔ ∀ a ∈ L, ¬ Covers a x := by
  have := newest?_spec L x
  cases hn : newest? L x with
  | none => rw [hn] at this; simpa using this
  | some a =>
    rw [hn] at this
    simp only [reduceCtorEq, false_iff, not_forall, not_not]
    exact ⟨a, this.mem, this.covers⟩

theorem newest?_eq_some (hd : DistinctTs L) : newest? L x = some a ↔ IsTop L x a := by
  refine ⟨newest?_isTop, fun h => ?_⟩
  cases hn : newest? L x with
  | none => exact absurd h.covers (newest?_eq_none.1 hn a h.mem)
  | some b => rw [IsTop.unique hd (newest?_isTop hn) h]

theorem IsTop.perm (h : IsTop L x a) (hp : L.Perm M) : IsTop M x a :=
  ⟨hp.mem_iff.1 h.mem, h.covers, fun b hb => h.newest b (hp.mem_iff.2 hb)⟩

theorem newest?_perm (hd : DistinctTs L) (hp : L.Perm M) : newest? L x = newest? M x := by
  cases hn : newest? M x with
  | none =>
    rw [newest?_eq_none] at hn ⊢
    exact fun a ha => hn a (hp.mem_iff.1 ha)
  | some a => exact (newest?_eq_some hd).2 ((newest?_isTop hn).perm hp.symm)

theorem newest?_filter {P : α → Bool} (h : ∀ a ∈ L, Covers a x → P a = true) :
    newest? (L.filter P) x = newest? L x := by
  induction L with
  | nil => rfl
  | cons c L ih =>
    have ih := ih fun a ha => h a (mem_cons_of_mem _ ha)
    by_cases hp : P c = true
    · rw [filter_cons_of_pos hp]
      simp only [newest?, ih]
    · have hc : ¬ Covers c x := fun hc => hp (h c mem_cons_self hc)
      rw [filter_cons_of_neg hp, ih]
      simp only [newest?, hc, if_false]

/-! ## Ordered spans -/

theorem Ordered.nil : Ordered ([] : List α) := ⟨by simp, .nil⟩

theorem Ordered.covers_eq (h : Ordered l) (ha : a ∈ l) (hb : b ∈ l) (hca : Covers a x)
    (hcb : Covers b x) : a = b := by
  by_contra hne
  have : Std.Symm fun a b : α => hi a ≤ lo b ∨ hi b ≤ lo a := ⟨fun _ _ h => h.symm⟩
  have hdis := (h.pairwise.imp (S := fun a b => hi a ≤ lo b ∨ hi b ≤ lo a) .inl).forall ha hb hne
  unfold Covers at hca hcb
  omega

theorem seek_covers (h : seek l x = some a) : a ∈ l ∧ Covers a x :=
  ⟨mem_of_find?_eq_some h, by simpa using find?_some h⟩

theorem seek_eq_none : seek l x = none ↔ ∀ a ∈ l, ¬ Covers a x := by
  simp [seek]

theorem seek_eq_some (h : Ordered l) : seek l x = some a ↔ a ∈ l ∧ Covers a x := by
  refine ⟨seek_covers, fun ⟨ha, hc⟩ => ?_⟩
  cases hs : seek l x with
  | none => exact absurd hc (seek_eq_none.1 hs a ha)
  | some b =>
    obtain ⟨hb, hcb⟩ := seek_covers hs
    rw [h.covers_eq hb ha hcb hc]

theorem seek_append (l m : List α) (x : Int) : seek (l ++ m) x = (seek l x).or (seek m x) := by
  simp [seek]

theorem seek_cons (a : α) (l : List α) (x : Int) :
    seek (a :: l) x = if Covers a x then some a else seek l x := by
  unfold seek
  by_cases h : Covers a x <;> simp [h]

theorem ordered_append : Ordered (l ++ m) ↔ Ordered l ∧ Ordered m ∧ ∀ a ∈ l, ∀ b ∈ m, hi a ≤ lo b := by
  constructor
  · rintro ⟨hpos, hp⟩
    obtain ⟨hl, hm, h⟩ := List.pairwise_append.1 hp
    exact ⟨⟨fun a ha => hpos a (by simp [ha]), hl⟩, ⟨fun a ha => hpos a (by simp [ha]), hm⟩, h⟩
  · rintro ⟨hl, hm, h⟩
    exact ⟨forall_mem_append.2 ⟨hl.pos, hm.pos⟩, List.pairwise_append.2 ⟨hl.pairwise, hm.pairwise, h⟩⟩

theorem ordered_cons : Ordered (a :: l) ↔ lo a < hi a ∧ Ordered l ∧ ∀ b ∈ l, hi a ≤ lo b := by
  constructor
  · rintro ⟨hpos, hp⟩
    obtain ⟨h, hl⟩ := List.pairwise_cons.1 hp
    exact ⟨hpos a (by simp), ⟨fun b hb => hpos b (by simp [hb]), hl⟩, h⟩
  · rintro ⟨ha, hl, h⟩
    exact ⟨forall_mem_cons.2 ⟨ha, hl.pos⟩, List.pairwise_cons.2 ⟨h, hl.pairwise⟩⟩

theorem Ordered.append (hl : Ordered l) (hm : Ordered m)
    (h : ∀ a ∈ l, ∀ b ∈ m, hi a ≤ lo b) : Ordered (l ++ m) := ordered_append.2 ⟨hl, hm, h⟩

theorem Ordered.cons (ha : lo a < hi a) (hl : Ordered l) (h : ∀ b ∈ l, hi a ≤ lo b) :
    Ordered (a :: l) := ordered_cons.2 ⟨ha, hl, h⟩

theorem Ordered.split (h : Ordered l) (s e : Int) : ∃ before mid behind,
    l = before ++ mid ++ behind ∧ (∀ a ∈ before, hi a ≤ s) ∧
      (∀ a ∈ mid, s < hi a ∧ lo a < e) ∧ ∀ a ∈ behind, e ≤ lo a := by
  induction l with
  | nil => exact ⟨[], [], [], rfl, by simp, by simp, by simp⟩
  | cons a l ih =>
    obtain ⟨hpos, hl, hle⟩ := ordered_cons.1 h
    obtain ⟨before, mid, behind, rfl, hbefore, hmid, hbehind⟩ := ih hl
    by_cases h1 : hi a ≤ s
    · exact ⟨a :: before, mid, behind, rfl, forall_mem_cons.2 ⟨h1, hbefore⟩, hmid, hbehind⟩
    -- What follows `a` begins behind `s`, so that nothing of it lies before.
    · have hnil : before = [] := by
        refine List.eq_nil_iff_forall_not_mem.2 fun b hb => ?_
        have := hbefore b hb
        have := hle b (by simp [hb])
        have := hl.pos b (by simp [hb])
        omega
      subst hnil
      by_cases h2 : lo a < e
      · exact ⟨[], a :: mid, behind, rfl, by simp, forall_mem_cons.2 ⟨⟨by omega, h2⟩, hmid⟩, hbehind⟩
      · refine ⟨[], [], a :: ([] ++ mid ++ behind), rfl, by simp, by simp, forall_mem_cons.2
          ⟨by omega, fun b hb => ?_⟩⟩
        have := hle b hb
        omega

end Lib
