import Mathlib.Computability.Language

/-!
# Languages of patterns with wild cards

A pattern is a list of symbols: a letter, one arbitrary letter, or an arbitrary text. Wild cards stand for
letters of `ok` only. `language` is the language of a pattern, `accepts` decides it (`accepts_iff`).
-/

namespace Lib

open List

/-- A symbol of a pattern. -/
inductive Tok (α : Type)
  | lit (a : α)
  | any
  | star
deriving DecidableEq, Repr

namespace Glob

variable {α : Type} {ok : α → Bool} {p : List (Tok α)} {s : List α}

/-- The texts that a symbol stands for. -/
def denote (ok : α → Bool) : Tok α → Language α
  | .lit a => {[a]}
  | .any => {s | ∃ b, ok b = true ∧ s = [b]}
  | .star => {s | ∀ b ∈ s, ok b = true}

/-- The texts that a pattern stands for. -/
def language (ok : α → Bool) (p : List (Tok α)) : Language α := (p.map (denote ok)).prod

theorem mem_nil : s ∈ language ok [] ↔ s = [] := Language.mem_one s

theorem mem_cons {t : Tok α} : s ∈ language ok (t :: p) ↔ ∃ u ∈ denote ok t, ∃ v ∈ language ok p, u ++ v = s := by
  unfold language
  rw [map_cons, prod_cons, Language.mem_mul]

theorem mem_lit {a : α} : s ∈ language ok (.lit a :: p) ↔ ∃ v ∈ language ok p, a :: v = s := by
  constructor
  · rintro ⟨_, rfl, v, hv, rfl⟩
    exact ⟨v, hv, rfl⟩
  · rintro ⟨v, hv, rfl⟩
    exact ⟨[a], rfl, v, hv, rfl⟩

theorem mem_any : s ∈ language ok (.any :: p) ↔ ∃ b, ok b = true ∧ ∃ v ∈ language ok p, b :: v = s := by
  constructor
  · rintro ⟨_, ⟨b, hb, rfl⟩, v, hv, rfl⟩
    exact ⟨b, hb, v, hv, rfl⟩
  · rintro ⟨b, hb, v, hv, rfl⟩
    exact ⟨[b], ⟨b, hb, rfl⟩, v, hv, rfl⟩

theorem star_append {u : List α} (hu : ∀ b ∈ u, ok b = true) (h : s ∈ language ok (.star :: p)) :
    u ++ s ∈ language ok (.star :: p) := by
  obtain ⟨w, hw, v, hv, rfl⟩ := mem_cons.1 h
  exact mem_cons.2 ⟨u ++ w, List.forall_mem_append.2 ⟨hu, hw⟩, v, hv, append_assoc u w v⟩

theorem mem_star_of_mem (h : s ∈ language ok p) : s ∈ language ok (.star :: p) :=
  mem_cons.2 ⟨[], nofun, s, h, rfl⟩

theorem mem_star_nil : [] ∈ language ok (.star :: p) ↔ [] ∈ language ok p := by
  refine ⟨fun h => ?_, mem_star_of_mem⟩
  obtain ⟨w, -, v, hv, h⟩ := mem_cons.1 h
  rw [append_eq_nil_iff] at h
  rwa [h.2] at hv

theorem mem_star_cons {b : α} : b :: s ∈ language ok (.star :: p) ↔
      b :: s ∈ language ok p ∨ ok b = true ∧ s ∈ language ok (.star :: p) := by
  constructor
  · intro h
    obtain ⟨w, hw, v, hv, h⟩ := mem_cons.1 h
    cases w with
    | nil => exact .inl (h ▸ hv)
    | cons c w =>
      obtain ⟨rfl, rfl⟩ := List.cons.inj h
      exact .inr ⟨hw c mem_cons_self,
        mem_cons.2 ⟨w, fun b hb => hw b (mem_cons_of_mem c hb), v, hv, rfl⟩⟩
  · rintro (h | ⟨hb, h⟩)
    · exact mem_star_of_mem h
    · exact star_append (u := [b]) (List.forall_mem_singleton.2 hb) h

/-! ## Deciding the language -/

/-- Whether some end of `s` is accepted by `f`, with all letters before it in `ok`. -/
def acceptsStar (ok : α → Bool) (f : List α → Bool) : List α → Bool
  | [] => f []
  | b :: s => f (b :: s) || (ok b && acceptsStar ok f s)

/-- Whether the pattern stands for the text. -/
def accepts [DecidableEq α] (ok : α → Bool) : List (Tok α) → List α → Bool
  | [], s => s.isEmpty
  | .lit a :: p, s =>
    match s with
    | b :: s => a = b && accepts ok p s
    | [] => false
  | .any :: p, s =>
    match s with
    | b :: s => ok b && accepts ok p s
    | [] => false
  | .star :: p, s => acceptsStar ok (accepts ok p) s

theorem acceptsStar_iff {f : List α → Bool} (hf : ∀ s, f s = true ↔ s ∈ language ok p) :
    ∀ s, acceptsStar ok f s = true ↔ s ∈ language ok (.star :: p)
  | [] => by rw [acceptsStar, hf, mem_star_nil]
  | b :: s => by
    rw [acceptsStar, Bool.or_eq_true, Bool.and_eq_true, hf, acceptsStar_iff hf s, mem_star_cons]

/-- **`accepts` decides the language.** -/
theorem accepts_iff [DecidableEq α] : ∀ (p : List (Tok α)) (s : List α), accepts ok p s = true ↔ s ∈ language ok p
  | [], s => by
    rw [accepts, List.isEmpty_iff, mem_nil]
  | .lit a :: p, [] => by simp [accepts, mem_lit]
  | .lit a :: p, b :: s => by
    rw [accepts, Bool.and_eq_true, decide_eq_true_eq, accepts_iff p s, mem_lit]
    constructor
    · rintro ⟨rfl, h⟩
      exact ⟨s, h, rfl⟩
    · rintro ⟨v, hv, h⟩
      obtain ⟨rfl, rfl⟩ := List.cons.inj h
      exact ⟨rfl, hv⟩
  | .any :: p, [] => by simp [accepts, mem_any]
  | .any :: p, b :: s => by
    rw [accepts, Bool.and_eq_true, accepts_iff p s, mem_any]
    constructor
    · rintro ⟨hb, h⟩
      exact ⟨b, hb, s, h, rfl⟩
    · rintro ⟨c, hc, v, hv, h⟩
      obtain ⟨rfl, rfl⟩ := List.cons.inj h
      exact ⟨hc, hv⟩
  | .star :: p, s => acceptsStar_iff (accepts_iff p) s

/-! ## Patterns without `star` -/

theorem split_of_starFree {u : List (Tok α)} (hu : .star ∉ u) (h : s ∈ language ok (u ++ p)) :
    ∃ v w, s = v ++ w ∧ v.length = u.length ∧ w ∈ language ok p := by
  induction u generalizing s with
  | nil => exact ⟨[], s, rfl, rfl, h⟩
  | cons t u ih =>
    have hu' : .star ∉ u := fun hs => hu (mem_cons_of_mem t hs)
    have hcons : ∃ b v, s = b :: v ∧ v ∈ language ok (u ++ p) := by
      cases t with
      | lit a =>
        obtain ⟨v, hv, rfl⟩ := mem_lit.1 h
        exact ⟨a, v, rfl, hv⟩
      | any =>
        obtain ⟨b, -, v, hv, rfl⟩ := mem_any.1 h
        exact ⟨b, v, rfl, hv⟩
      | star => exact absurd mem_cons_self hu
    obtain ⟨b, v, rfl, hv⟩ := hcons
    obtain ⟨v1, w, rfl, hlen, hw⟩ := ih hu' hv
    exact ⟨b :: v1, w, rfl, by simp [hlen], hw⟩

theorem length_of_starFree (hp : .star ∉ p) (h : s ∈ language ok p) : s.length = p.length := by
  rw [← append_nil p] at h
  obtain ⟨v, w, rfl, hlen, hw⟩ := split_of_starFree hp h
  rw [mem_nil.1 hw, append_nil, hlen]

theorem replicate_any_append {u : List α} (hu : ∀ b ∈ u, ok b = true) (h : s ∈ language ok p) :
    u ++ s ∈ language ok (List.replicate u.length .any ++ p) := by
  induction u with
  | nil => exact h
  | cons b u ih =>
    exact mem_any.2 ⟨b, hu b mem_cons_self, u ++ s, ih fun c hc => hu c (mem_cons_of_mem b hc), rfl⟩

theorem mem_replicate_any (hs : ∀ b ∈ s, ok b = true) : s ∈ language ok (List.replicate s.length .any) := by
  have h : s ++ [] ∈ language ok (List.replicate s.length .any ++ []) := replicate_any_append hs (mem_nil.2 rfl)
  rwa [append_nil, append_nil] at h

end Glob

end Lib
