import Mathlib

/-!
# Text

`trim spaces s` takes the words `spaces` off both ends of `s` as long as it can. `l.splitOn sep` are the parts
of a text between the separators; those of a text of whole lines are those of its lines. `replaceAll old new s`
puts `new` for every occurrence of `old`, from the left and without overlaps.
-/

namespace Lib

open List

section Trim

variable {α : Type} [DecidableEq α] {spaces : List (List α)} {s : List α}

/-- Words of `spaces` are taken off the front, `fuel` times at most. -/
def dropSpaces (spaces : List (List α)) : Nat → List α → List α
  | 0, s => s
  | fuel + 1, s =>
    match spaces.find? (·.isPrefixOf s) with
    | some w => dropSpaces spaces fuel (s.drop w.length)
    | none => s

/-- `s` without the words of `spaces` at its front. -/
def trimLeft (spaces : List (List α)) (s : List α) : List α := dropSpaces spaces s.length s

/-- `s` without the words of `spaces` at both ends. -/
def trim (spaces : List (List α)) (s : List α) : List α :=
  (trimLeft (spaces.map List.reverse) (trimLeft spaces s).reverse).reverse

/-- Nothing can be taken off. -/
def Trimmed (spaces : List (List α)) (s : List α) : Prop :=
  ∀ w ∈ spaces, ¬ w <+: s ∧ ¬ w <:+ s

theorem dropSpaces_suffix (fuel : Nat) (s : List α) : dropSpaces spaces fuel s <:+ s := by
  induction fuel generalizing s with
  | zero => exact suffix_rfl
  | succ fuel ih =>
    unfold dropSpaces
    split
    · exact (ih _).trans (drop_suffix _ _)
    · exact suffix_rfl

theorem dropSpaces_of_not_prefix (h : ∀ w ∈ spaces, ¬ w <+: s) (fuel : Nat) :
    dropSpaces spaces fuel s = s := by
  cases fuel with
  | zero => rfl
  | succ fuel =>
    have hnone : spaces.find? (·.isPrefixOf s) = none := by
      rw [find?_eq_none]
      intro w hw
      rw [ isPrefixOf_iff_prefix]
      exact h w hw
    rw [dropSpaces, hnone]

theorem not_prefix_dropSpaces (hne : ∀ w ∈ spaces, w ≠ []) {fuel : Nat} (hfuel : s.length ≤ fuel) :
    ∀ w ∈ spaces, ¬ w <+: dropSpaces spaces fuel s := by
  induction fuel generalizing s with
  | zero =>
    intro w hw hpre
    rw [List.length_eq_zero_iff.1 (Nat.le_zero.1 hfuel)] at hpre
    exact hne w hw (List.prefix_nil.1 hpre)
  | succ fuel ih =>
    unfold dropSpaces
    split
    · rename_i w hw
      have hmem := mem_of_find?_eq_some hw
      have hlen := List.length_pos_iff.2 (hne w hmem)
      exact ih (by rw [length_drop]; omega)
    · rename_i hnone
      intro w hw hpre
      exact List.find?_eq_none.1 hnone w hw (List.isPrefixOf_iff_prefix.2 hpre)

theorem trimLeft_suffix (spaces : List (List α)) (s : List α) : trimLeft spaces s <:+ s :=
  dropSpaces_suffix _ s

theorem trim_prefix_trimLeft (s : List α) : trim spaces s <+: trimLeft spaces s := by
  have h := List.reverse_prefix.2 (trimLeft_suffix (spaces.map List.reverse) (trimLeft spaces s).reverse)
  rwa [reverse_reverse] at h

theorem trim_within (s : List α) : trim spaces s <:+: s :=
  (trim_prefix_trimLeft s).isInfix.trans (trimLeft_suffix spaces s).isInfix

theorem trimmed_trim (hne : ∀ w ∈ spaces, w ≠ []) (s : List α) : Trimmed spaces (trim spaces s) := by
  have hne' : ∀ w ∈ spaces.map List.reverse, w ≠ [] := by
    intro w hw
    obtain ⟨v, hv, rfl⟩ := List.mem_map.1 hw
    simpa using hne v hv
  intro w hw
  constructor
  · intro hpre
    -- a word at the front was at the front before the other end was trimmed
    exact not_prefix_dropSpaces hne (Nat.le_refl s.length) w hw (hpre.trans (trim_prefix_trimLeft s))
  · intro hsuf
    refine not_prefix_dropSpaces hne' (Nat.le_refl (trimLeft spaces s).reverse.length) w.reverse
      (mem_map_of_mem hw) ?_
    have h := List.reverse_prefix.2 hsuf
    rwa [trim, reverse_reverse] at h

theorem trim_of_trimmed (h : Trimmed spaces s) : trim spaces s = s := by
  have hleft : trimLeft spaces s = s := dropSpaces_of_not_prefix (fun w hw => (h w hw).1) _
  have hright : trimLeft (spaces.map List.reverse) s.reverse = s.reverse := by
    refine dropSpaces_of_not_prefix (fun w hw hpre => ?_) _
    obtain ⟨v, hv, rfl⟩ := List.mem_map.1 hw
    exact (h v hv).2 (List.reverse_prefix.1 hpre)
  rw [trim, hleft, hright, reverse_reverse]

end Trim

section Lines

variable {α : Type} [DecidableEq α] {sep : α}

theorem splitOn_append_cons (a b : List α) :
    (a ++ sep :: b).splitOn sep = a.splitOn sep ++ b.splitOn sep := by
  rw [splitOn_eq_splitOnP, splitOnP_append_cons _ _ (p := (· == sep)) (beq_self_eq_true sep)]
  rfl

theorem splitOn_of_not_mem {a : List α} (h : sep ∉ a) : a.splitOn sep = [a] := by
  rw [splitOn_eq_splitOnP, splitOnP_eq_singleton]
  intro x hx
  rw [beq_eq_false_iff_ne]
  rintro rfl
  exact h hx

theorem not_mem_of_mem_splitOn {a part : List α} (h : part ∈ a.splitOn sep) : sep ∉ part := by
  induction a generalizing part with
  | nil =>
    rw [splitOn_eq_splitOnP, splitOnP_nil, mem_singleton] at h
    simp [h]
  | cons x a ih =>
    rw [splitOn_eq_splitOnP, splitOnP_cons_eq_if_modifyHead] at h
    split at h
    · rcases List.mem_cons.1 h with rfl | h
      · simp
      · exact ih h
    · rename_i hx
      have hx : sep ≠ x := fun heq => hx (by simp [heq])
      cases hparts : List.splitOnP (· == sep) a with
      | nil => simp [hparts] at h
      | cons first rest =>
        rw [hparts, modifyHead_cons] at h
        have ih : ∀ part ∈ first :: rest, sep ∉ part := fun part hpart => ih (by
          rw [splitOn_eq_splitOnP, hparts]
          exact hpart)
        rcases List.mem_cons.1 h with rfl | h
        · simp only [List.mem_cons, not_or]
          exact ⟨hx, ih first mem_cons_self⟩
        · exact ih part (.tail _ h)

theorem splitOn_flatMap (lines : List (List α)) :
    (lines.flatMap (· ++ [sep])).splitOn sep = lines.flatMap (·.splitOn sep) ++ [[]] := by
  induction lines with
  | nil => rfl
  | cons line lines ih =>
    rw [flatMap_cons, append_assoc, singleton_append, splitOn_append_cons, ih,
      flatMap_cons, append_assoc]

end Lines

section Replace

variable {α : Type} [DecidableEq α]

/-- The first `skip` elements belong to an occurrence that was replaced already. -/
def replaceFrom (old new : List α) : Nat → List α → List α
  | _, [] => []
  | skip + 1, _ :: s => replaceFrom old new skip s
  | 0, a :: s =>
    if old.isPrefixOf (a :: s) then new ++ replaceFrom old new (old.length - 1) s else a :: replaceFrom old new 0 s

/-- Every occurrence of `old` replaced by `new`. -/
def replaceAll (old new s : List α) : List α := replaceFrom old new 0 s

variable {x y : α} {new s : List α}

theorem replaceAll_pair : replaceAll [x, y] new (x :: y :: s) = new ++ replaceAll [x, y] new s := by
  unfold replaceAll
  rw [replaceFrom, if_pos (by simp)]
  rfl

theorem replaceAll_keep {a : α} (h : a = x → s.head? ≠ some y) :
    replaceAll [x, y] new (a :: s) = a :: replaceAll [x, y] new s := by
  unfold replaceAll
  rw [replaceFrom, if_neg]
  intro hp
  rw [ isPrefixOf_iff_prefix, cons_prefix_cons] at hp
  obtain ⟨rfl, t, rfl⟩ := hp
  exact h rfl rfl

end Replace

end Lib
