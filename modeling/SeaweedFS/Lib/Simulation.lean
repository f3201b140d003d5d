import Mathlib

/-!
# Machines and simulation

A machine answers every operation and may fail. `Simulates R impl spec` says that from related states
an operation succeeds with the answer of the specification and leads to related states;
`Simulates.run` lifts this to whole runs.
-/

namespace Lib

variable {σ τ Op Out ε : Type}

theorem bind_eq_ok {α β : Type} {x : Except ε α} {f : α → Except ε β} {b : β} :
    (x >>= f) = .ok b ↔ ∃ a, x = .ok a ∧ f a = .ok b := by
  cases x with
  | error e =>
    constructor
    · intro h
      cases h
    · rintro ⟨_, h, _⟩
      cases h
  | ok a =>
    constructor
    · intro h
      exact ⟨a, rfl, h⟩
    · rintro ⟨_, h, h'⟩
      cases h
      exact h'

theorem mapError_eq_ok {α ε' : Type} {x : Except ε α} {f : ε → ε'} {a : α} :
    x.mapError f = .ok a ↔ x = .ok a := by
  cases x with
  | error e => simp [Except.mapError]
  | ok b => simp [Except.mapError]

theorem toOption_eq_some {α : Type} {x : Except ε α} {a : α} : x.toOption = some a ↔ x = .ok a := by
  cases x with
  | error e => simp [Except.toOption]
  | ok b => simp [Except.toOption]

theorem eq_ok_getD {α : Type} {x : Except ε α} (h : x.toOption.isSome) (d : α) :
    x = .ok (x.toOption.getD d) := by
  cases x with
  | error e => cases h
  | ok a => rfl

/-- The answers of a machine that may fail. -/
def run (step : σ → Op → Except ε (σ × Out)) : σ → List Op → Except ε (σ × List Out)
  | s, [] => .ok (s, [])
  | s, op :: ops => do
    let (s, out) ← step s op
    let (s, outs) ← run step s ops
    return (s, out :: outs)

/-- The answers of a specification. -/
def specRun (step : τ → Op → τ × Out) : τ → List Op → τ × List Out
  | t, [] => (t, [])
  | t, op :: ops =>
    let (t, out) := step t op
    let (t, outs) := specRun step t ops
    (t, out :: outs)

theorem specRun_append (step : τ → Op → τ × Out) (t : τ) (ops ops' : List Op) :
    (specRun step t (ops ++ ops')).1 = (specRun step (specRun step t ops).1 ops').1 := by
  induction ops generalizing t with
  | nil => rfl
  | cons op ops ih => exact ih (step t op).1

/-- An operation of `impl` succeeds as `spec` says. -/
def Simulates (R : σ → τ → Prop) (impl : σ → Op → Except ε (σ × Out)) (spec : τ → Op → τ × Out) :
    Prop :=
  ∀ s t op, R s t → ∃ s', impl s op = .ok (s', (spec t op).2) ∧ R s' (spec t op).1

/-- **Runs** of related states. -/
theorem Simulates.run {R : σ → τ → Prop} {impl : σ → Op → Except ε (σ × Out)}
    {spec : τ → Op → τ × Out} (h : Simulates R impl spec) (ops : List Op) {s : σ} {t : τ}
    (hst : R s t) :
    ∃ s', Lib.run impl s ops = .ok (s', (specRun spec t ops).2) ∧ R s' (specRun spec t ops).1 := by
  induction ops generalizing s t with
  | nil => exact ⟨s, rfl, hst⟩
  | cons op ops ih =>
    obtain ⟨s1, h1, hr1⟩ := h s t op hst
    obtain ⟨s2, h2, hr2⟩ := ih hr1
    refine ⟨s2, ?_, hr2⟩
    rw [Lib.run, h1]
    show (Lib.run impl s1 ops >>= _) = _
    rw [h2]
    rfl

end Lib
