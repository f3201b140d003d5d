import Mathlib

/-!
# Interleavings

A system takes atomic steps in any order, each with events that an observer sees. `Admits ok` says of a
sequence of steps that each one is `ok` where it is taken. An invariant of the state and the events so far
that every such step keeps, and under which it can be taken, holds at the end (**`trace_inv`**).
-/

namespace Lib

open Option

variable {σ α ε : Type} {step : σ → α → Option (σ × List ε)} {ok : σ → α → Prop}

/-- Steps one after the other, with all their events. -/
def trace (step : σ → α → Option (σ × List ε)) : σ → List α → Option (σ × List ε)
  | s, [] => some (s, [])
  | s, a :: steps =>
    (step s a).bind fun r => (trace step r.1 steps).map fun r' => (r'.1, r.2 ++ r'.2)

/-- Every step is `ok` where it is taken. -/
def Admits (step : σ → α → Option (σ × List ε)) (ok : σ → α → Prop) : σ → List α → Prop
  | _, [] => True
  | s, a :: steps => ok s a ∧ ∀ r, step s a = some r → Admits step ok r.1 steps

/-- Whether the steps can be taken so is decided by taking them. -/
instance Admits.decide [∀ s a, Decidable (ok s a)] :
    ∀ (s : σ) (steps : List α), Decidable (Admits step ok s steps)
  | _, [] => .isTrue trivial
  | s, a :: steps =>
    match h : step s a with
    | none => decidable_of_iff (ok s a) ⟨fun hok => ⟨hok, by simp [h]⟩, And.left⟩
    | some r =>
      have := Admits.decide r.1 steps
      decidable_of_iff (ok s a ∧ Admits step ok r.1 steps) <| by
        refine and_congr_right fun _ => ⟨fun hr r' hr' => ?_, fun hr => hr r h⟩
        obtain rfl : r = r' := Option.some.inj (h.symm.trans hr')
        exact hr

theorem trace_concat (s : σ) (steps : List α) (a : α) : trace step s (steps ++ [a]) =
    (trace step s steps).bind fun r => (step r.1 a).map fun r' => (r'.1, r.2 ++ r'.2) := by
  induction steps generalizing s with
  | nil =>
    show (step s a).bind _ = (step s a).map _
    cases step s a with
    | none => rfl
    | some r => simp [trace]
  | cons b steps ih =>
    simp only [List.cons_append, trace]
    cases step s b with
    | none => rfl
    | some r =>
      simp only [bind_some, ih]
      cases trace step r.1 steps with
      | none => rfl
      | some r' =>
        simp only [bind_some, map_some]
        cases step r'.1 a with
        | none => rfl
        | some r'' => simp

variable {I : σ → List ε → Prop}

theorem trace_inv_from
    (hstep : ∀ s es a, I s es → ok s a → ∃ r, step s a = some r ∧ I r.1 (es ++ r.2)) {s : σ}
    {es : List ε} {steps : List α} (hs : I s es) (h : Admits step ok s steps) :
    ∃ r, trace step s steps = some r ∧ I r.1 (es ++ r.2) := by
  induction steps generalizing s es with
  | nil => exact ⟨_, rfl, by simpa using hs⟩
  | cons a steps ih =>
    obtain ⟨hok, hrest⟩ := h
    obtain ⟨r, hr, hI⟩ := hstep s es a hs hok
    obtain ⟨r', hr', hI'⟩ := ih hI (hrest r hr)
    refine ⟨(r'.1, r.2 ++ r'.2), ?_, by simpa using hI'⟩
    simp only [trace, hr, bind_some, hr', map_some]

/-- **Run.** What every step keeps holds at the end, and every step can be taken. -/
theorem trace_inv
    (hstep : ∀ s es a, I s es → ok s a → ∃ r, step s a = some r ∧ I r.1 (es ++ r.2)) {s : σ}
    {steps : List α} (hs : I s []) (h : Admits step ok s steps) :
    ∃ r, trace step s steps = some r ∧ I r.1 r.2 := by
  obtain ⟨r, hr, hI⟩ := trace_inv_from hstep hs h
  exact ⟨r, hr, by simpa using hI⟩

theorem Admits.of_append {s : σ} {steps steps' : List α} (h : Admits step ok s (steps ++ steps')) :
    Admits step ok s steps := by
  induction steps generalizing s with
  | nil => trivial
  | cons a steps ih => exact ⟨h.1, fun r hr => ih (h.2 r hr)⟩

end Lib
