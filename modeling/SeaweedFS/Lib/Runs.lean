import Mathlib

/-!
# Runs of a step that may fail

A run is a `foldlM`. `Along step ok` says that every operation is `ok` in the state it meets. What every such
operation keeps holds at the end (**`foldlM_inv`**), also together with the operations done so far
(**`foldlM_history`**). `Throughout` and `foldl_inv` are the same for steps that cannot fail.
-/

namespace Lib

open List

variable {σ α ε : Type} {step : σ → α → Except ε σ} {ok : σ → α → Prop}

variable {ops : List α}

/-- Every operation is `ok` where it is applied. -/
def Along (step : σ → α → Except ε σ) (ok : σ → α → Prop) : σ → List α → Prop
  | _, [] => True
  | s, a :: ops => ok s a ∧ ∀ s', step s a = .ok s' → Along step ok s' ops

/-- It is decided by running. -/
instance Along.decide [∀ s a, Decidable (ok s a)] : ∀ (s : σ) (ops : List α), Decidable (Along step ok s ops)
  | _, [] => .isTrue trivial
  | s, a :: ops =>
    match h : step s a with
    | .error _ => decidable_of_iff (ok s a) ⟨fun hok => ⟨hok, by simp [h]⟩, And.left⟩
    | .ok s' =>
      have := Along.decide s' ops
      decidable_of_iff (ok s a ∧ Along step ok s' ops) <| by
        refine and_congr_right fun _ => ⟨fun hrest s'' hs'' => ?_, fun hrest => hrest s' h⟩
        obtain rfl : s' = s'' := Except.ok.inj (h.symm.trans hs'')
        exact hrest

variable {I : List α → σ → Prop} {s s' : σ}

theorem foldlM_history_from
    (hstep : ∀ ops s a s', I ops s → ok s a → step s a = .ok s' → I (ops ++ [a]) s') {before : List α}
    (hs : I before s) (hok : Along step ok s ops) (h : ops.foldlM step s = .ok s') :
    I (before ++ ops) s' := by
  induction ops generalizing before s with
  | nil =>
    cases h
    rwa [append_nil]
  | cons a ops ih =>
    rw [foldlM_cons] at h
    cases hs1 : step s a with
    | error e =>
      rw [hs1] at h
      cases h
    | ok s1 =>
      rw [hs1] at h
      rw [append_cons]
      exact ih (hstep before s a s1 hs hok.1 hs1) (hok.2 s1 hs1) h

/-- **Run with history.** What every operation keeps, given those before it, holds at the end. -/
theorem foldlM_history (hstep : ∀ ops s a s', I ops s → ok s a → step s a = .ok s' → I (ops ++ [a]) s')
    (hs : I [] s) (hok : Along step ok s ops) (h : ops.foldlM step s = .ok s') : I ops s' :=
  foldlM_history_from hstep hs hok h

/-- **Run.** What every operation keeps holds at the end. -/
theorem foldlM_inv {I : σ → Prop} (hstep : ∀ s a s', I s → ok s a → step s a = .ok s' → I s')
    (hs : I s) (hok : Along step ok s ops) (h : ops.foldlM step s = .ok s') : I s' :=
  foldlM_history (I := fun _ => I) (fun _ => hstep) hs hok h

theorem along_of_forall {p : α → Prop} (h : ∀ a ∈ ops, p a) (s : σ) :
    Along step (fun _ => p) s ops := by
  induction ops generalizing s with
  | nil => trivial
  | cons a ops ih =>
    exact ⟨h a mem_cons_self, fun s' _ => ih (fun a' ha' => h a' (.tail _ ha')) s'⟩

/-! ## Steps that cannot fail -/

/-- Every operation is `ok` where it is applied. -/
def Throughout (run : σ → α → σ) (ok : σ → α → Prop) : σ → List α → Prop
  | _, [] => True
  | s, a :: ops => ok s a ∧ Throughout run ok (run s a) ops

/-- It is decided by running. -/
instance Throughout.decide {run : σ → α → σ} [∀ s a, Decidable (ok s a)] :
    ∀ (s : σ) (ops : List α), Decidable (Throughout run ok s ops)
  | _, [] => .isTrue trivial
  | s, a :: ops =>
    have : Decidable (Throughout run ok (run s a) ops) := Throughout.decide _ _
    inferInstanceAs (Decidable (ok s a ∧ Throughout run ok (run s a) ops))

variable {run : σ → α → σ}

theorem Throughout.and_of_mem {p : α → Prop}
    (h : Throughout run ok s ops) (hp : ∀ a ∈ ops, p a) : Throughout run (fun s a => p a ∧ ok s a) s ops := by
  induction ops generalizing s with
  | nil => trivial
  | cons a ops ih => exact ⟨⟨hp a mem_cons_self, h.1⟩, ih h.2 fun a' ha' => hp a' (.tail _ ha')⟩

/-- **Run.** What every operation keeps holds at the end. -/
theorem foldl_inv {I : σ → Prop} (hstep : ∀ s a, I s → ok s a → I (run s a))
    (hs : I s) (hok : Throughout run ok s ops) : I (ops.foldl run s) := by
  induction ops generalizing s with
  | nil => exact hs
  | cons a ops ih => exact ih (hstep s a hs hok.1) hok.2

end Lib
