import Mathlib

/-!
# Doubly linked lists in a heap

`Linked h refs`: the cells at the addresses `refs` of a heap are linked in this order, in both directions.
`Spliced` says that new cells were linked between two others (`Linked.splice`).
-/

namespace Lib

open List Nat Option

/-- A cell of a doubly linked list. -/
structure Cell (α : Type) where
  val : α
  prev : Option Nat := none
  next : Option Nat := none
deriving DecidableEq

/-- Cells by their addresses. -/
abbrev Heap (α : Type) := List (Cell α)

namespace Heap

variable {α : Type} {h h' : Heap α} {a b r : Nat} {refs left right : List Nat}

def val (h : Heap α) (r : Nat) : Option α := h[r]?.map Cell.val

def next (h : Heap α) (r : Nat) : Option Nat := h[r]?.bind Cell.next

def prev (h : Heap α) (r : Nat) : Option Nat := h[r]?.bind Cell.prev

/-- The cell at `b` is the one behind the cell at `a`. -/
def link (h : Heap α) (a b : Nat) : Heap α :=
  (h.modify a fun c => { c with next := some b }).modify b fun c => { c with prev := some a }

/-- A new cell without links, at the address `h.length`. -/
def alloc (h : Heap α) (v : α) : Heap α := h ++ [{ val := v }]

/-! ## Writing -/

theorem lt_of_val {v : α} (hv : h.val r = some v) : r < h.length := by
  obtain ⟨c, hc, -⟩ := map_eq_some_iff.1 hv
  exact (List.getElem?_eq_some_iff.1 hc).1

@[simp] theorem length_link (h : Heap α) (a b : Nat) : (h.link a b).length = h.length := by
  simp [link]

@[simp] theorem length_alloc (h : Heap α) (v : α) : (h.alloc v).length = h.length + 1 := by
  simp [alloc]

theorem getElem?_link (h : Heap α) (a b r : Nat) : (h.link a b)[r]? = h[r]?.map fun c =>
    { c with prev := if r = b then some a else c.prev, next := if r = a then some b else c.next } := by
  unfold link
  rw [getElem?_modify, getElem?_modify]
  cases h[r]? with
  | none => rfl
  | some c =>
    simp only [@eq_comm _ _ r]
    split <;> split <;> rfl

@[simp] theorem val_link (h : Heap α) (a b r : Nat) : (h.link a b).val r = h.val r := by
  rw [val, getElem?_link, Option.map_map]
  rfl

theorem next_link (ha : a < h.length) (b r : Nat) :
    (h.link a b).next r = if r = a then some b else h.next r := by
  rw [next, getElem?_link, bind_map]
  by_cases hr : r = a
  · rw [hr, getElem?_eq_getElem ha, if_pos rfl]
    exact if_pos rfl
  · rw [if_neg hr]
    exact congrArg _ (funext fun c => if_neg hr)

theorem prev_link (hb : b < h.length) (a r : Nat) :
    (h.link a b).prev r = if r = b then some a else h.prev r := by
  rw [prev, getElem?_link, bind_map]
  by_cases hr : r = b
  · rw [hr, getElem?_eq_getElem hb, if_pos rfl]
    exact if_pos rfl
  · rw [if_neg hr]
    exact congrArg _ (funext fun c => if_neg hr)

theorem link_comm {t : Nat} (h : Heap α) (ha : a ≠ t) (hb : b ≠ t) :
    (h.link t b).link a t = (h.link a t).link t b := by
  refine ext_getElem? fun r => ?_
  rw [getElem?_link, getElem?_link, getElem?_link, getElem?_link, Option.map_map, Option.map_map]
  refine congrArg (fun f => h[r]?.map f) (funext fun c => ?_)
  by_cases hr : r = t
  · subst hr
    simp [Ne.symm ha, Ne.symm hb]
  · simp [hr]

theorem getElem?_alloc (h : Heap α) (v : α) (r : Nat) :
    (h.alloc v)[r]? = if r = h.length then some { val := v } else h[r]? := by
  unfold alloc
  rcases lt_trichotomy r h.length with hr | hr | hr
  · rw [getElem?_append_left hr, if_neg (Nat.ne_of_lt hr)]
  · rw [hr, getElem?_concat_length, if_pos rfl]
  · rw [if_neg (ne_of_gt hr), getElem?_eq_none (by simp; omega), getElem?_eq_none (le_of_lt hr)]

theorem val_alloc (h : Heap α) (v : α) (r : Nat) :
    (h.alloc v).val r = if r = h.length then some v else h.val r := by
  rw [val, getElem?_alloc]
  split <;> rfl

theorem val_alloc_of_val (v : α) {w : α} (hw : h.val r = some w) : (h.alloc v).val r = some w := by
  rw [val_alloc, if_neg (Nat.ne_of_lt (lt_of_val hw)), hw]

theorem next_alloc (h : Heap α) (v : α) (r : Nat) : (h.alloc v).next r = h.next r := by
  rw [next, getElem?_alloc]
  split
  · rename_i hr
    rw [next, hr, getElem?_eq_none (le_refl _)]
    rfl
  · rfl

theorem prev_alloc (h : Heap α) (v : α) (r : Nat) : (h.alloc v).prev r = h.prev r := by
  rw [prev, getElem?_alloc]
  split
  · rename_i hr
    rw [prev, hr, getElem?_eq_none (le_refl _)]
    rfl
  · rfl

/-! ## Linked cells -/

/-- The cells at `refs` are linked in this order. -/
def Linked (h : Heap α) : List Nat → Prop
  | a :: b :: rest => h.next a = some b ∧ h.prev b = some a ∧ Linked h (b :: rest)
  | _ => True

theorem linked_append : Linked h (left ++ a :: right) ↔
    Linked h (left ++ [a]) ∧ Linked h (a :: right) := by
  induction left with
  | nil => exact ⟨fun hl => ⟨trivial, hl⟩, And.right⟩
  | cons c left ih =>
    cases left with
    | nil =>
      constructor
      · rintro ⟨h1, h2, h3⟩
        exact ⟨⟨h1, h2, trivial⟩, h3⟩
      · rintro ⟨⟨h1, h2, -⟩, h3⟩
        exact ⟨h1, h2, h3⟩
    | cons d left =>
      constructor
      · rintro ⟨h1, h2, h3⟩
        obtain ⟨h4, h5⟩ := ih.1 h3
        exact ⟨⟨h1, h2, h4⟩, h5⟩
      · rintro ⟨⟨h1, h2, h3⟩, h4⟩
        exact ⟨h1, h2, ih.2 ⟨h3, h4⟩⟩

theorem Linked.congr (hl : Linked h refs) (hnext : ∀ r ∈ refs.dropLast, h'.next r = h.next r)
    (hprev : ∀ r ∈ refs.tail, h'.prev r = h.prev r) : Linked h' refs := by
  induction refs with
  | nil => exact trivial
  | cons a refs ih =>
    cases refs with
    | nil => exact trivial
    | cons b rest =>
      obtain ⟨h1, h2, h3⟩ := hl
      refine ⟨(hnext a mem_cons_self).trans h1, (hprev b mem_cons_self).trans h2, ?_⟩
      exact ih h3 (fun r hr => hnext r (.tail _ hr)) fun r hr => hprev r (.tail _ hr)

/-! ## Splicing -/

/-- `h'` is `h` with new cells `items` linked between the cells at `a` and `b`. -/
structure Spliced (h h' : Heap α) (a : Nat) (items : List (Nat × α)) (b : Nat) : Prop where
  linked : h'.Linked (a :: items.map Prod.fst ++ [b])
  vals : ∀ i ∈ items, h'.val i.1 = some i.2
  fresh : ∀ i ∈ items, h.length ≤ i.1
  nodup : (items.map Prod.fst).Nodup
  val : ∀ r v, h.val r = some v → h'.val r = some v
  next : ∀ r < h.length, r ≠ a → h'.next r = h.next r
  prev : ∀ r < h.length, r ≠ b → h'.prev r = h.prev r

theorem spliced_link (ha : a < h.length) (hb : b < h.length) : Spliced h (h.link a b) a [] b where
  linked := ⟨by rw [next_link ha, if_pos rfl], by rw [prev_link hb, if_pos rfl], trivial⟩
  vals := by simp
  fresh := by simp
  nodup := .nil
  val := by
    intro r v hv
    rwa [val_link]
  next := by
    intro r _ hr
    rw [next_link ha, if_neg hr]
  prev := by
    intro r _ hr
    rw [prev_link hb, if_neg hr]

theorem spliced_alloc (ha : a < h.length) (hb : b < h.length) (v : α) :
    Spliced h (((h.alloc v).link a h.length).link h.length b) a [(h.length, v)] b := by
  have hlt : ∀ {r}, r < h.length → r < (h.alloc v).length := fun hr => by
    rw [length_alloc]
    omega
  have ht : h.length < (h.alloc v).length := by simp
  have hnext : ∀ r, (((h.alloc v).link a h.length).link h.length b).next r =
      if r = h.length then some b else if r = a then some h.length else h.next r := by
    intro r
    rw [next_link (by simp), next_link (hlt ha), next_alloc]
  have hprev : ∀ r, (((h.alloc v).link a h.length).link h.length b).prev r =
      if r = b then some h.length else if r = h.length then some a else h.prev r := by
    intro r
    rw [prev_link (by simpa using hlt hb), prev_link ht, prev_alloc]
  refine ⟨⟨?_, ?_, ?_, ?_, trivial⟩, ?_, ?_, ?_, ?_, ?_, ?_⟩
  · rw [hnext, if_neg (Nat.ne_of_lt ha), if_pos rfl]
  · rw [hprev, if_neg (ne_of_gt hb), if_pos rfl]
  · rw [hnext, if_pos rfl]
  · rw [hprev, if_pos rfl]
  · refine forall_mem_singleton.2 ?_
    rw [val_link, val_link, val_alloc, if_pos rfl]
  · exact forall_mem_singleton.2 (le_refl _)
  · exact nodup_singleton _
  · intro r w hw
    rw [val_link, val_link, val_alloc_of_val v hw]
  · intro r hr hne
    rw [hnext, if_neg (Nat.ne_of_lt hr), if_neg hne]
  · intro r hr hne
    rw [hprev, if_neg hne, if_neg (Nat.ne_of_lt hr)]

theorem Spliced.trans {h₁ h₂ : Heap α} {v : α} {lefts rights : List (Nat × α)} (ha : a < h.length)
    (hb : b < h.length) (h1 : Spliced (h.alloc v) h₁ a lefts h.length)
    (h2 : Spliced h₁ h₂ h.length rights b) : Spliced h h₂ a (lefts ++ (h.length, v) :: rights) b := by
  have hval : h₁.val h.length = some v := h1.val _ _ (by rw [val_alloc, if_pos rfl])
  have hlt : ∀ r ∈ lefts.map Prod.fst, h.length < r ∧ r < h₁.length := by
    intro r hr
    obtain ⟨i, hi, rfl⟩ := List.mem_map.1 hr
    have := h1.fresh i hi
    rw [length_alloc] at this
    exact ⟨by omega, lt_of_val (h1.vals i hi)⟩
  have hgt : ∀ r ∈ rights.map Prod.fst, h₁.length ≤ r := by
    intro r hr
    obtain ⟨i, hi, rfl⟩ := List.mem_map.1 hr
    exact h2.fresh i hi
  have hle : ∀ r < h.length, r < h₁.length := by
    have hlen := lt_of_val hval
    omega
  refine ⟨?_, ?_, ?_, ?_, ?_, ?_, ?_⟩
  · have hleft : h₂.Linked (a :: lefts.map Prod.fst ++ [h.length]) := by
      refine h1.linked.congr ?_ (forall_mem_append.2 ⟨fun r hr => ?_, forall_mem_singleton.2 ?_⟩)
      · rw [dropLast_concat]
        refine forall_mem_cons.2 ⟨h2.next a (hle a ha) (Nat.ne_of_lt ha), fun r hr => ?_⟩
        obtain ⟨hgt, hlt⟩ := hlt r hr
        exact h2.next r hlt (ne_of_gt hgt)
      · obtain ⟨hgt, hlt⟩ := hlt r hr
        exact h2.prev r hlt (by omega)
      · exact h2.prev _ (lt_of_val hval) (ne_of_gt hb)
    rw [map_append, map_cons, ← cons_append, append_assoc]
    exact linked_append.2 ⟨hleft, h2.linked⟩
  · exact forall_mem_append.2 ⟨fun i hi => h2.val _ _ (h1.vals i hi),
      forall_mem_cons.2 ⟨h2.val _ _ hval, h2.vals⟩⟩
  · exact forall_mem_append.2 ⟨fun i hi => le_of_lt (hlt i.1 (mem_map_of_mem hi)).1,
      forall_mem_cons.2 ⟨le_refl _, fun i hi => le_trans (le_of_lt (lt_of_val hval)) (h2.fresh i hi)⟩⟩
  · rw [map_append, map_cons, nodup_append]
    refine ⟨h1.nodup, List.nodup_cons.2 ⟨fun hr => ?_, h2.nodup⟩, fun r hr => ?_⟩
    · have := hgt _ hr
      have := lt_of_val hval
      omega
    · obtain ⟨hgt', hlt⟩ := hlt r hr
      refine forall_mem_cons.2 ⟨by omega, fun r' hr' => ?_⟩
      have := hgt r' hr'
      omega
  · intro r w hw
    exact h2.val _ _ (h1.val _ _ (val_alloc_of_val v hw))
  · intro r hr hne
    rw [h2.next r (hle r hr) (Nat.ne_of_lt hr), h1.next r (by simp; omega) hne, next_alloc]
  · intro r hr hne
    rw [h2.prev r (hle r hr) hne, h1.prev r (by simp; omega) (Nat.ne_of_lt hr), prev_alloc]

/-- **Splicing** keeps what is before and behind. -/
theorem Linked.splice {mid : List Nat} (hl : Linked h (left ++ a :: mid ++ b :: right))
    (hnodup : (left ++ a :: mid ++ b :: right).Nodup)
    (hlt : ∀ r ∈ left ++ a :: mid ++ b :: right, r < h.length) {items : List (Nat × α)}
    (hs : Spliced h h' a items b) : Linked h' (left ++ a :: items.map Prod.fst ++ b :: right) := by
  obtain ⟨hleft, hright⟩ := linked_append.1 hl
  rw [append_assoc] at hleft
  have hb : b ∉ left ++ a :: mid := fun hb =>
    (List.nodup_append.1 hnodup).2.2 b hb b mem_cons_self rfl
  have ha : a ∉ left ∧ a ∉ b :: right := by
    rw [append_assoc, cons_append, nodup_middle, nodup_cons] at hnodup
    exact ⟨fun hm => hnodup.1 (by simp [hm]), fun hm => hnodup.1 (by
      rw [mem_append, mem_append]
      exact .inr (.inr hm))⟩
  have hleft' : Linked h' (left ++ [a]) := by
    refine (linked_append.1 hleft).1.congr (fun r hr => ?_) fun r hr => ?_
    · rw [dropLast_concat] at hr
      exact hs.next r (hlt r (by simp [hr])) fun heq => ha.1 (heq ▸ hr)
    · have hr := mem_of_mem_tail hr
      have hmem : r ∈ left ++ a :: mid := by
        rcases List.mem_append.1 hr with hr | hr
        · exact mem_append_left _ hr
        · exact mem_append_right _ (List.mem_singleton.1 hr ▸ mem_cons_self)
      exact hs.prev r (hlt r (mem_append_left _ hmem)) fun heq => hb (heq ▸ hmem)
  have hright' : Linked h' (b :: right) := by
    refine hright.congr (fun r hr => ?_) fun r hr => ?_
    · have hr := mem_of_mem_dropLast hr
      exact hs.next r (hlt r (mem_append_right _ hr)) fun heq => ha.2 (heq ▸ hr)
    · have hr' : r ∈ b :: right := mem_of_mem_tail hr
      refine hs.prev r (hlt r (mem_append_right _ hr')) fun heq => ?_
      have := (List.nodup_append.1 hnodup).2.1
      exact (List.nodup_cons.1 this).1 (heq ▸ hr)
  have hmid : Linked h' (left ++ a :: items.map Prod.fst ++ [b]) := by
    rw [append_assoc, cons_append]
    exact linked_append.2 ⟨hleft', hs.linked⟩
  exact linked_append.2 ⟨hmid, hright'⟩

/-! ## Moving cells -/

theorem Linked.unlink (hl : Linked h (left ++ a :: r :: b :: right)) (hnodup : (left ++ a :: r :: b :: right).Nodup)
    (hlt : ∀ c ∈ left ++ a :: r :: b :: right, c < h.length) : Linked (h.link a b) (left ++ a :: b :: right) := by
  have happ : left ++ a :: r :: b :: right = left ++ a :: [r] ++ b :: right := by simp
  rw [happ] at hl hnodup hlt
  have := hl.splice hnodup hlt (spliced_link (hlt a (by simp)) (hlt b (by simp)))
  simpa using this

theorem Linked.insert (hl : Linked h (a :: b :: right)) (hnodup : (a :: b :: right).Nodup) (hr : r ∉ a :: b :: right)
    (hlt : ∀ c ∈ r :: a :: b :: right, c < h.length) : Linked ((h.link r b).link a r) (a :: r :: b :: right) := by
  have hra : r ≠ a := fun heq => hr (heq ▸ mem_cons_self)
  have hrb : r ≠ b := fun heq => hr (heq ▸ mem_cons_of_mem a mem_cons_self)
  have hrr : r ∉ right := fun hmem => hr (mem_cons_of_mem a (mem_cons_of_mem b hmem))
  have hab : a ∉ b :: right := (List.nodup_cons.1 hnodup).1
  have hbr : b ∉ right := (List.nodup_cons.1 (List.nodup_cons.1 hnodup).2).1
  have hnext : ∀ c, ((h.link r b).link a r).next c = if c = a then some r else if c = r then some b else h.next c := by
    intro c
    rw [next_link (by simpa using hlt a (by simp)), next_link (hlt r (by simp))]
  have hprev : ∀ c, ((h.link r b).link a r).prev c = if c = r then some a else if c = b then some r else h.prev c := by
    intro c
    rw [prev_link (by simpa using hlt r (by simp)), prev_link (hlt b (by simp))]
  refine ⟨?_, ?_, ?_, ?_, ?_⟩
  · rw [hnext, if_pos rfl]
  · rw [hprev, if_pos rfl]
  · rw [hnext, if_neg hra, if_pos rfl]
  · rw [hprev, if_neg hrb.symm, if_pos rfl]
  · refine hl.2.2.congr (fun c hc => ?_) fun c hc => ?_
    · have hc := mem_of_mem_dropLast hc
      have hca : c ≠ a := fun heq => hab (heq ▸ hc)
      have hcr : c ≠ r := fun heq => hr (heq ▸ mem_cons_of_mem a hc)
      rw [hnext, if_neg hca, if_neg hcr]
    · have hcr : c ≠ r := fun heq => hrr (heq ▸ hc)
      have hcb : c ≠ b := fun heq => hbr (heq ▸ hc)
      rw [hprev, if_neg hcr, if_neg hcb]

theorem Linked.links (hl : Linked h (left ++ a :: r :: b :: right)) : h.prev r = some a ∧ h.next r = some b := by
  obtain ⟨-, h1⟩ := linked_append.1 hl
  exact ⟨h1.2.1, h1.2.2.1⟩

/-- The value of a cell is written. -/
def setVal (h : Heap α) (r : Nat) (v : α) : Heap α := h.modify r fun c => { c with val := v }

@[simp] theorem length_setVal (h : Heap α) (r : Nat) (v : α) : (h.setVal r v).length = h.length := by
  simp [setVal]

theorem getElem?_setVal (h : Heap α) (r c : Nat) (v : α) :
    (h.setVal r v)[c]? = h[c]?.map fun x => if r = c then { x with val := v } else x := by
  unfold setVal
  rw [getElem?_modify]
  rfl

theorem next_setVal (h : Heap α) (r c : Nat) (v : α) : (h.setVal r v).next c = h.next c := by
  rw [next, getElem?_setVal, next]
  cases h[c]? with
  | none => rfl
  | some x =>
    split <;> rfl

theorem prev_setVal (h : Heap α) (r c : Nat) (v : α) : (h.setVal r v).prev c = h.prev c := by
  rw [prev, getElem?_setVal, prev]
  cases h[c]? with
  | none => rfl
  | some x =>
    split <;> rfl

theorem val_setVal (h : Heap α) (hr : r < h.length) (c : Nat) (v : α) :
    (h.setVal r v).val c = if r = c then some v else h.val c := by
  rw [val, getElem?_setVal, val]
  by_cases hc : r = c
  · subst hc
    rw [getElem?_eq_getElem hr, if_pos rfl]
    simp
  · rw [if_neg hc, Option.map_map]
    simp only [Function.comp_def, if_neg hc]

end Heap

end Lib
