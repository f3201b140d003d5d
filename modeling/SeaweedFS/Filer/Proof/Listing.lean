import SeaweedFS.Filer.Listing

/-!
# What a listing by prefix finds

Of the entries from the start on, those with names below the prefix come first, then those with the prefix
(`exists_rest`). The latter are only looked for in the page that has the first of them.
-/

namespace Filer

open Util List

variable {E : Type} {name : E → Str} {pre : Str}

/-! ## Names and prefixes -/

theorem isPrefix_of_between {p x t : Str} (hle : p ≤ x) (hlt : x < p ++ t) : p <+: x := by
  induction p generalizing x with
  | nil => exact nil_prefix
  | cons c p ih =>
    cases x with
    | nil => exact absurd hle (by simp)
    | cons d x =>
      rcases List.cons_le_cons_iff.1 hle with hcd | ⟨rfl, hle'⟩
      · rcases List.cons_lt_cons_iff.1 hlt with hdc | ⟨rfl, -⟩
        · exact absurd hdc (Std.not_gt_of_lt hcd)
        · exact absurd hcd Std.lt_irrefl
      · rcases List.cons_lt_cons_iff.1 hlt with hcc | ⟨-, hlt⟩
        · exact absurd hcc Std.lt_irrefl
        · exact List.cons_prefix_cons.2 ⟨rfl, ih hle' hlt⟩

theorem filter_suffix {r : E → E → Prop} {l : List E} (hl : l.Pairwise r) {q : E → Bool}
    (hq : ∀ a b, r a b → q a → q b) : l.filter q <:+ l := by
  induction l with
  | nil => exact suffix_rfl
  | cons a l ih =>
    obtain ⟨ha, hl⟩ := List.pairwise_cons.1 hl
    cases hqa : q a with
    | false => simpa [hqa] using (ih hl).trans (suffix_cons a l)
    | true =>
      have hall : ∀ b ∈ l, q b = true := fun b hb => hq a b (ha b hb) hqa
      simp [hqa, filter_eq_self.2 hall]

theorem not_isPrefix_of_lt {x : Str} (h : x < pre) : ¬ pre <+: x := fun hpre => List.not_lt.2 hpre.le h

/-- The entries still to be listed: with names below the prefix, with it and above it. -/
structure Rest (name : E → Str) (pre : Str) (below found above : List E) : Prop where
  below : ∀ e ∈ below, name e < pre
  found : ∀ e ∈ found, pre <+: name e
  above : ∀ e ∈ above, ¬ name e < pre ∧ ¬ pre <+: name e

theorem exists_rest {l : List E} (hl : l.Pairwise fun a b => name a < name b) (pre : Str) :
    ∃ above, Rest name pre (l.filter fun e => name e < pre) (l.filter fun e => pre.isPrefixOf (name e)) above ∧
      l = l.filter (fun e => name e < pre) ++ (l.filter (fun e => pre.isPrefixOf (name e)) ++ above) := by
  induction l with
  | nil => exact ⟨[], ⟨by simp, by simp, by simp⟩, rfl⟩
  | cons e l ih =>
    obtain ⟨he, hl⟩ := List.pairwise_cons.1 hl
    obtain ⟨above, hrest, hsplit⟩ := ih hl
    by_cases hlt : name e < pre
    · rw [filter_cons_of_pos (by simpa using hlt), filter_cons_of_neg (by simpa using not_isPrefix_of_lt hlt)]
      refine ⟨above, ⟨?_, hrest.found, hrest.above⟩, by rw [cons_append, ← hsplit]⟩
      exact forall_mem_cons.2 ⟨hlt, hrest.below⟩
    -- no name behind it is below the prefix
    have hnone : l.filter (fun e => name e < pre) = [] :=
      filter_eq_nil_iff.2 fun b hb h => hlt (Std.lt_trans (he b hb) (of_decide_eq_true h))
    rw [hnone, nil_append] at hsplit
    rw [filter_cons_of_neg (by simpa using hlt), hnone]
    by_cases hpre : pre <+: name e
    · rw [filter_cons_of_pos (by simpa using hpre)]
      exact ⟨above, ⟨by simp, forall_mem_cons.2 ⟨hpre, hrest.found⟩, hrest.above⟩,
        by rw [nil_append, cons_append, ← hsplit]⟩
    · have hnot : ∀ b ∈ l, ¬ pre <+: name b := by
        rintro b hb ⟨t, ht⟩
        exact hpre (isPrefix_of_between (List.not_lt.1 hlt) (ht ▸ he b hb))
      have hnil : (e :: l).filter (fun e => pre.isPrefixOf (name e)) = [] :=
        filter_eq_nil_iff.2 (forall_mem_cons.2 ⟨by simpa using hpre, fun b hb => by simpa using hnot b hb⟩)
      rw [hnil]
      refine ⟨e :: l, ⟨by simp, by simp, forall_mem_cons.2 ⟨⟨hlt, hpre⟩, fun b hb => ⟨?_, hnot b hb⟩⟩⟩, rfl⟩
      exact fun h => hlt (Std.lt_trans (he b hb) h)

/-! ## The loop -/

/-- The entries of a page, and its last name. -/
def pageOf (name : E → Str) (limit : Nat) (rest : List E) : List E × Str :=
  (rest.take limit, ((rest.take limit).getLast?.map name).getD [])

theorem listDirectoryEntries_after {a b : List E} {e : E}
    (h : (a ++ e :: b).Pairwise fun x y => name x < name y) (limit : Nat) :
    listDirectoryEntries name (a ++ e :: b) (name e) false limit = pageOf name limit b := by
  obtain ⟨-, heb, hae⟩ := List.pairwise_append.1 h
  have ha : a.filter (fun x => name e < name x) = [] :=
    filter_eq_nil_iff.2 fun x hx => by simpa using List.not_lt.1 (Std.not_gt_of_lt (hae x hx e mem_cons_self))
  have hb : b.filter (fun x => name e < name x) = b :=
    filter_eq_self.2 fun x hx => by simpa using (List.pairwise_cons.1 heb).1 x hx
  simp [listDirectoryEntries, pageOf, ha, hb]

variable {below found above : List E}

theorem Rest.filter_take (h : Rest name pre below found above) (limit : Nat) :
    ((below ++ (found ++ above)).take limit).filter (fun e => pre.isPrefixOf (name e)) =
      found.take (limit - below.length) := by
  have hbelow : (below.take limit).filter (fun e => pre.isPrefixOf (name e)) = [] :=
    filter_eq_nil_iff.2 fun e he => by simpa using not_isPrefix_of_lt (h.below e (mem_of_mem_take he))
  have hfound : ∀ k, (found.take k).filter (fun e => pre.isPrefixOf (name e)) = found.take k :=
    fun k => filter_eq_self.2 fun e he => by simpa using h.found e (mem_of_mem_take he)
  have habove : ∀ k, (above.take k).filter (fun e => pre.isPrefixOf (name e)) = [] :=
    fun k => filter_eq_nil_iff.2 fun e he => by simpa using (h.above e (mem_of_mem_take he)).2
  simp [take_append, hbelow, hfound, habove]

section
variable {dir : List E} {limit : Nat} (hdir : dir.Pairwise fun a b => name a < name b) (hlimit : 0 < limit)
include hdir hlimit

/-- The loop ends with the page that has the first entry with the prefix. -/
theorem prefixFilterLoop_eq {listed : List E} (hrest : Rest name pre below found above)
    (hsplit : dir = listed ++ (below ++ (found ++ above))) {fuel : Nat}
    (hfuel : (below ++ (found ++ above)).length < fuel) :
    (prefixFilterLoop name dir limit pre fuel (pageOf name limit (below ++ (found ++ above))) []).map (·.1) =
      some (found.take (limit - below.length % limit)) := by
  induction fuel generalizing listed below with
  | zero => omega
  | succ fuel ih =>
    rcases eq_nil_or_concat ((below ++ (found ++ above)).take limit) with hnil | ⟨init, e, hpage⟩
    · obtain ⟨rfl, rfl, rfl⟩ : below = [] ∧ found = [] ∧ above = [] := by simpa [hlimit.ne'] using hnil
      simp [prefixFilterLoop, pageOf]
    have hafter := take_append_drop limit (below ++ (found ++ above))
    rw [hpage, concat_eq_append, append_assoc, singleton_append] at hafter
    have hnext : listDirectoryEntries name dir (name e) false limit =
        pageOf name limit ((below ++ (found ++ above)).drop limit) := by
      have heq : dir = listed ++ init ++ e :: (below ++ (found ++ above)).drop limit := by
        rw [hsplit, append_assoc, hafter]
      rw [heq] at hdir ⊢
      exact listDirectoryEntries_after hdir limit
    have hlast : pageOf name limit (below ++ (found ++ above)) = (init.concat e, name e) := by
      simp [pageOf, hpage]
    rw [hlast, prefixFilterLoop, if_pos ⟨hlimit, by simp⟩, hnext, nil_append, ← hpage]
    dsimp only
    rw [hrest.filter_take, take_take, length_nil, Nat.sub_zero, min_eq_right (Nat.sub_le _ _)]
    rcases Nat.lt_or_ge below.length limit with hlt | hge
    · rw [Nat.mod_eq_of_lt hlt]
      split
      · next hmore =>
        -- the last entry is below the prefix, so that there are no others
        have hnil : found ++ above = [] := by
          by_contra hne
          obtain ⟨x, l, hx⟩ := exists_cons_of_ne_nil hne
          obtain ⟨k, hk⟩ := Nat.exists_eq_add_of_lt hlt
          have hlast := congrArg getLast? hpage
          rw [take_append, hx, take_of_length_le hlt.le, show limit - below.length = k + 1 by omega] at hlast
          have hmem : e ∈ x :: l.take k := by
            apply mem_of_getLast?
            simpa [getLast?_append] using hlast
          rcases mem_append.1 (hx ▸ cons_subset_cons x (take_subset k l) hmem) with hmem | hmem
          · exact not_isPrefix_of_lt hmore.2 (hrest.found e hmem)
          · exact (hrest.above e hmem).1 hmore.2
        obtain ⟨rfl, rfl⟩ := append_eq_nil_iff.1 hnil
        cases fuel with
        | zero => simp_all
        | succ fuel => simp [prefixFilterLoop, pageOf, drop_eq_nil_of_le hlt.le]
      · rfl
    · have hlt : name e < pre := by
        apply hrest.below
        rw [take_append_of_le_length hge] at hpage
        refine mem_of_mem_take (i := limit) ?_
        simp [hpage]
      rw [Nat.sub_eq_zero_of_le hge, take_zero, if_pos ⟨hlimit, hlt⟩, Nat.mod_eq_sub_mod hge, ← length_drop,
        drop_append_of_le_length hge]
      have hsplit' : dir = listed ++ below.take limit ++ (below.drop limit ++ (found ++ above)) := by
        rw [hsplit, append_assoc, ← append_assoc (below.take limit), take_append_drop]
      refine ih ⟨fun e he => hrest.below e (mem_of_mem_drop he), hrest.found, hrest.above⟩ hsplit' ?_
      simp only [length_append, length_drop] at hfuel ⊢
      omega

/-- **Listing by prefix** finds the first entries with the prefix exactly when they fit into the page with the first
of them, behind the entries `below`. -/
theorem prefixFilterEntries_iff {startFileName : Str} {includeStartFile : Bool} {fuel : Nat}
    (hfuel : dir.length < fuel) (hpre : pre ≠ []) :
    let rest := dir.filter fun e => startFileName < name e ∨ includeStartFile ∧ name e = startFileName
    let below := rest.filter fun e => name e < pre
    let found := rest.filter fun e => pre.isPrefixOf (name e)
    (prefixFilterEntries name fuel dir startFileName includeStartFile limit pre).map (·.1) =
        some (found.take limit) ↔
      below.length % limit = 0 ∨ found.length ≤ limit - below.length % limit := by
  intro rest below found
  have hrest : rest <:+ dir := filter_suffix hdir fun a b hab ha => by
    rcases of_decide_eq_true ha with ha | ⟨-, rfl⟩
    · exact decide_eq_true (.inl (Std.lt_trans ha hab))
    · exact decide_eq_true (.inl hab)
  obtain ⟨listed, hlisted⟩ := hrest
  obtain ⟨above, hparts, hsplit⟩ : ∃ above, Rest name pre below found above ∧ rest = below ++ (found ++ above) :=
    exists_rest (hdir.filter _) pre
  have hlen : rest.length ≤ dir.length := length_filter_le _ _
  have hloop := prefixFilterLoop_eq hdir hlimit hparts (hsplit ▸ hlisted.symm) (hsplit ▸ Nat.lt_of_le_of_lt hlen hfuel)
  have hlt := Nat.mod_lt below.length hlimit
  rw [← hsplit] at hloop
  rw [prefixFilterEntries, if_neg hpre, show listDirectoryEntries name dir _ _ _ = pageOf name limit rest from rfl,
    hloop, Option.some.injEq, take_eq_take_iff]
  show min (limit - below.length % limit) found.length = min limit found.length ↔ _
  omega

end

/-- A page ends with the first of two entries with the prefix: the other is not found. -/
theorem prefixFilterEntries_misses :
    prefixFilterEntries id 4 [ascii "a", ascii "p1", ascii "p2"] [] false 2 (ascii "p") =
      some ([ascii "p1"], ascii "p1") := by
  decide

theorem prefixFilterEntries_iff_found :
    (prefixFilterEntries id 4 [ascii "a", ascii "p1", ascii "p2"] [] false 3 (ascii "p")).map (·.1) =
      some [ascii "p1", ascii "p2"] :=
  (prefixFilterEntries_iff (by decide) (by decide) (by decide) (by decide)).2 (by decide)

end Filer
