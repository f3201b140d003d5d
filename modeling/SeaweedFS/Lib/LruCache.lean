import SeaweedFS.Lib.LinkedList

/-!
# Caches that forget what was not used for longest

A cache is an index from keys to cells and the cells in a doubly linked list between two dummies, the one used
last in front. The operations follow links and fail where one is missing; `Rep c entries` says that the list and
the index are those of `entries`.
-/

namespace Lib

open List Heap

/-- A cache: cells, the dummies at `0` and `1`, and the addresses of the keys. -/
structure LruCache (K V : Type) where
  heap : Heap (Option (K × V))
  index : List (K × Nat)
  maxSize : Nat

namespace LruCache

variable {K V : Type}

/-- An empty cache. -/
def empty (maxSize : Nat) : LruCache K V where
  heap := [⟨none, none, some 1⟩, ⟨none, some 0, none⟩]
  index := []
  maxSize := maxSize

/-- A cell is taken out of the list. -/
def removeNode {α : Type} (h : Heap α) (n : Nat) : Option (Heap α) := do
  let p ← h.prev n
  let q ← h.next n
  return h.link p q

/-- A cell is put behind the dummy in front. -/
def addToHead {α : Type} (h : Heap α) (n : Nat) : Option (Heap α) := do
  let q ← h.next 0
  return (h.link n q).link 0 n

def moveToHead {α : Type} (h : Heap α) (n : Nat) : Option (Heap α) := do
  let h ← removeNode h n
  addToHead h n

/-- A new cell in front. -/
def push (c : LruCache K V) (key : K) (value : V) : Option (LruCache K V) := do
  let h ← addToHead (c.heap.alloc (some (key, value))) c.heap.length
  return { c with heap := h, index := (key, c.heap.length) :: c.index }

section

variable [DecidableEq K]

/-- The value of a key, which is then the one used last. -/
def get (c : LruCache K V) (key : K) : Option (LruCache K V × Option V) :=
  match c.index.lookup key with
  | none => some (c, none)
  | some n => do
    let h ← moveToHead c.heap n
    let kv ← h.val n
    return ({ c with heap := h }, kv.map Prod.snd)

/-- The value of a key, without use of it. -/
def peek (c : LruCache K V) (key : K) : Option V := do
  let n ← c.index.lookup key
  let kv ← c.heap.val n
  kv.map Prod.snd

/-- The cell that was not used for longest is taken out. -/
def evict (c : LruCache K V) : Option (LruCache K V) := do
  let n ← c.heap.prev 1
  let h ← removeNode c.heap n
  let kv ← c.heap.val n
  return { c with heap := h, index := c.index.filter fun e => kv.map Prod.fst ≠ some e.1 }

def set (c : LruCache K V) (key : K) (value : V) : Option (LruCache K V) :=
  match c.index.lookup key with
  | some n => do
    let h ← moveToHead (c.heap.setVal n (some (key, value))) n
    return { c with heap := h }
  | none =>
    if c.maxSize ≤ c.index.length then do
      let c ← c.evict
      c.push key value
    else c.push key value

end

/-! ## Representation -/

/-- The addresses of the list, dummies included. -/
def chain (entries : List (Nat × K × V)) : List Nat := 0 :: (entries.map Prod.fst ++ [1])

/-- The list of the cache is `entries`. -/
structure Rep (c : LruCache K V) (entries : List (Nat × K × V)) : Prop where
  linked : c.heap.Linked (chain entries)
  nodup : (chain entries).Nodup
  bound : ∀ a ∈ chain entries, a < c.heap.length
  vals : ∀ e ∈ entries, c.heap.val e.1 = some (some e.2)
  index : c.index.Perm (entries.map fun e => (e.2.1, e.1))
  keys : (entries.map fun e => e.2.1).Nodup

theorem rep_empty (maxSize : Nat) : (empty maxSize : LruCache K V).Rep [] where
  linked := ⟨rfl, rfl, trivial⟩
  nodup := by simp [chain]
  bound := by simp [chain, empty]
  vals := nofun
  index := .nil
  keys := .nil

theorem lookup_eq_some [DecidableEq K] {l : List (K × Nat)} (hnodup : (l.map Prod.fst).Nodup) {k : K} {n : Nat} :
    l.lookup k = some n ↔ (k, n) ∈ l := by
  induction l with
  | nil => simp
  | cons e l ih =>
    obtain ⟨k', n'⟩ := e
    rw [map_cons, nodup_cons] at hnodup
    rw [lookup_cons, List.mem_cons]
    by_cases hk : k = k'
    · subst hk
      rw [beq_self_eq_true]
      constructor
      · intro h
        exact .inl (by rw [Option.some.inj h])
      · rintro (h | h)
        · rw [(Prod.mk.inj h).2]
        · exact absurd (mem_map_of_mem (f := Prod.fst) h) hnodup.1
    · rw [beq_eq_false_iff_ne.2 hk]
      refine (ih hnodup.2).trans ?_
      constructor
      · exact .inr
      · rintro (h | h)
        · exact absurd (Prod.mk.inj h).1 hk
        · exact h

namespace Rep

variable {c : LruCache K V} {entries l r : List (Nat × K × V)} {key : K} {n : Nat} {e : Nat × K × V}

theorem index_nodup (h : c.Rep entries) : (c.index.map Prod.fst).Nodup := by
  rw [(h.index.map Prod.fst).nodup_iff, map_map]
  exact h.keys

theorem lookup_iff [DecidableEq K] (h : c.Rep entries) :
    c.index.lookup key = some n ↔ ∃ e ∈ entries, e.2.1 = key ∧ e.1 = n := by
  rw [lookup_eq_some h.index_nodup, h.index.mem_iff, mem_map]
  simp only [Prod.mk.injEq]

theorem lookup_none [DecidableEq K] (h : c.Rep entries) (hkey : ∀ e ∈ entries, e.2.1 ≠ key) :
    c.index.lookup key = none := by
  rw [Option.eq_none_iff_forall_ne_some]
  intro n hn
  obtain ⟨e, he, hk, -⟩ := h.lookup_iff.1 hn
  exact hkey e he hk

end Rep

/-! ## Moving cells -/

variable {α : Type} {h : Heap α} {n : Nat} {front back : List Nat}

/-- What an operation on the links leaves alone. -/
structure Relinked (h h' : Heap α) (refs : List Nat) : Prop where
  linked : h'.Linked refs
  length : h'.length = h.length
  val : ∀ r, h'.val r = h.val r

theorem removeNode_ok (hl : h.Linked (front ++ n :: back)) (hnodup : (front ++ n :: back).Nodup)
    (hlt : ∀ a ∈ front ++ n :: back, a < h.length) (hfront : front ≠ []) (hback : back ≠ []) :
    ∃ h', removeNode h n = some h' ∧ Relinked h h' (front ++ back) := by
  obtain ⟨left, a, rfl⟩ : ∃ left a, front = left ++ [a] :=
    ⟨_, _, (dropLast_append_getLast hfront).symm⟩
  obtain ⟨b, right, rfl⟩ := exists_cons_of_ne_nil hback
  rw [append_assoc, singleton_append] at hl hnodup hlt
  obtain ⟨hprev, hnext⟩ := hl.links
  refine ⟨h.link a b, ?_, ?_, by simp, by simp⟩
  · rw [removeNode, hprev, hnext]
    rfl
  · rw [append_assoc, singleton_append]
    exact hl.unlink hnodup hlt

theorem addToHead_ok (hl : h.Linked (0 :: back)) (hnodup : (0 :: back).Nodup) (hn : n ∉ 0 :: back)
    (hlt : ∀ a ∈ n :: 0 :: back, a < h.length) (hback : back ≠ []) :
    ∃ h', addToHead h n = some h' ∧ Relinked h h' (0 :: n :: back) := by
  obtain ⟨b, right, rfl⟩ := exists_cons_of_ne_nil hback
  refine ⟨(h.link n b).link 0 n, ?_, hl.insert hnodup hn hlt, by simp, by simp⟩
  rw [addToHead, hl.1]
  rfl

theorem moveToHead_ok (hl : h.Linked (0 :: (front ++ n :: back))) (hnodup : (0 :: (front ++ n :: back)).Nodup)
    (hlt : ∀ a ∈ 0 :: (front ++ n :: back), a < h.length) (hback : back ≠ []) :
    ∃ h', moveToHead h n = some h' ∧ Relinked h h' (0 :: n :: (front ++ back)) := by
  obtain ⟨h₁, h1, hr1⟩ := removeNode_ok hl hnodup hlt (cons_ne_nil 0 front) hback
  have hmiddle : (n :: 0 :: (front ++ back)).Nodup := by
    have hperm : (0 :: (front ++ n :: back)).Perm (n :: 0 :: (front ++ back)) :=
      (List.perm_middle.cons 0).trans (.swap n 0 _)
    exact hperm.nodup_iff.1 hnodup
  obtain ⟨hn, hrest⟩ := List.nodup_cons.1 hmiddle
  obtain ⟨h₂, h2, hr2⟩ := addToHead_ok (n := n) hr1.linked hrest hn (fun a ha => by
    rw [hr1.length]
    refine hlt a ?_
    rcases List.mem_cons.1 ha with rfl | ha
    · simp
    · rcases List.mem_cons.1 ha with rfl | ha
      · simp
      · rcases List.mem_append.1 ha with ha | ha <;> simp [ha]) (by simp [hback])
  refine ⟨h₂, ?_, hr2.linked, hr2.length.trans hr1.length, fun r => (hr2.val r).trans (hr1.val r)⟩
  rw [moveToHead, h1]
  exact h2

namespace Rep

variable {c : LruCache K V} {entries l r : List (Nat × K × V)} {key : K} {value : V} {e : Nat × K × V}

theorem chain_split : chain (l ++ e :: r) = 0 :: (l.map Prod.fst ++ e.1 :: (r.map Prod.fst ++ [1])) := by
  simp [chain]

theorem chain_front : chain (e :: (l ++ r)) = 0 :: e.1 :: (l.map Prod.fst ++ (r.map Prod.fst ++ [1])) := by
  simp [chain]

theorem moved (h : c.Rep (l ++ e :: r)) {heap' : Heap (Option (K × V))} {v : V}
    (hr : Relinked (c.heap.setVal e.1 (some (e.2.1, v))) heap' (chain (e :: (l ++ r)))) :
    ({ c with heap := heap' } : LruCache K V).Rep ((e.1, e.2.1, v) :: (l ++ r)) := by
  have hperm : (l ++ e :: r).Perm (e :: (l ++ r)) := perm_middle
  have hchain : (chain (l ++ e :: r)).Perm (chain (e :: (l ++ r))) :=
    ((hperm.map Prod.fst).append_right [1]).cons 0
  have hbound : e.1 < c.heap.length := h.bound _ (by simp [chain])
  refine ⟨hr.linked, hchain.nodup_iff.1 h.nodup, fun a ha => ?_, fun e' he' => ?_, ?_, ?_⟩
  · rw [hr.length, length_setVal]
    exact h.bound a (hchain.mem_iff.2 ha)
  · rw [hr.val, val_setVal _ hbound]
    rcases List.mem_cons.1 he' with rfl | he'
    · rw [if_pos rfl]
    · have hne : e.1 ≠ e'.1 := by
        intro heq
        have hnodup := hchain.nodup_iff.1 h.nodup
        have hnot : e.1 ∉ (l ++ r).map Prod.fst := by
          simp only [chain, map_cons, cons_append, nodup_cons, mem_append] at hnodup
          exact fun hm => hnodup.2.1 (.inl hm)
        exact hnot (heq ▸ mem_map_of_mem he')
      rw [if_neg hne]
      refine h.vals e' ?_
      simp only [mem_append] at he' ⊢
      tauto
  · exact h.index.trans (hperm.map _)
  · exact (hperm.map _).nodup_iff.1 h.keys

theorem get_found [DecidableEq K] (h : c.Rep (l ++ e :: r)) :
    ∃ c', c.get e.2.1 = some (c', some e.2.2) ∧ c'.maxSize = c.maxSize ∧ c'.Rep (e :: (l ++ r)) := by
  have hlookup : c.index.lookup e.2.1 = some e.1 := h.lookup_iff.2 ⟨e, by simp, rfl, rfl⟩
  have hval : c.heap.val e.1 = some (some e.2) := h.vals e (by simp)
  have hsame : c.heap.setVal e.1 (some (e.2.1, e.2.2)) = c.heap := by
    refine ext_getElem? fun a => ?_
    rw [getElem?_setVal]
    cases ha : c.heap[a]? with
    | none => rfl
    | some x =>
      by_cases hea : e.1 = a
      · subst hea
        rw [val, ha] at hval
        have hx : x.val = some e.2 := Option.some.inj hval
        simp [← hx]
      · simp [hea]
  obtain ⟨heap', hmove, hr⟩ := moveToHead_ok (chain_split ▸ h.linked)
    (chain_split ▸ h.nodup) (chain_split ▸ h.bound) (by simp)
  refine ⟨{ c with heap := heap' }, ?_, rfl, ?_⟩
  · rw [get, hlookup]
    dsimp only
    rw [hmove]
    show (heap'.val e.1).bind _ = _
    rw [hr.val, hval]
    rfl
  · rw [← chain_front] at hr
    exact h.moved (v := e.2.2) (by rwa [hsame])

theorem set_found [DecidableEq K] (h : c.Rep (l ++ e :: r)) (value : V) :
    ∃ c', c.set e.2.1 value = some c' ∧ c'.maxSize = c.maxSize ∧ c'.Rep ((e.1, e.2.1, value) :: (l ++ r)) := by
  have hlookup : c.index.lookup e.2.1 = some e.1 := h.lookup_iff.2 ⟨e, by simp, rfl, rfl⟩
  have hlinked : (c.heap.setVal e.1 (some (e.2.1, value))).Linked (chain (l ++ e :: r)) :=
    h.linked.congr (fun _ _ => next_setVal ..) fun _ _ => prev_setVal ..
  obtain ⟨heap', hmove, hr⟩ := moveToHead_ok (chain_split ▸ hlinked)
    (chain_split ▸ h.nodup) (fun a ha => by
      rw [length_setVal]
      exact h.bound a (chain_split ▸ ha)) (by simp)
  refine ⟨{ c with heap := heap' }, ?_, rfl, ?_⟩
  · rw [set, hlookup]
    dsimp only
    rw [hmove]
    rfl
  · rw [← chain_front] at hr
    exact h.moved hr

theorem evict_ok [DecidableEq K] (h : c.Rep (l ++ [e])) :
    ∃ c', c.evict = some c' ∧ c'.maxSize = c.maxSize ∧ c'.Rep l := by
  have hsplit : chain (l ++ [e]) = (0 :: l.map Prod.fst) ++ e.1 :: [1] := by simp [chain]
  have hval : c.heap.val e.1 = some (some e.2) := h.vals e (by simp)
  obtain ⟨heap', hremove, hr⟩ := removeNode_ok (hsplit ▸ h.linked) (hsplit ▸ h.nodup) (hsplit ▸ h.bound)
    (cons_ne_nil _ _) (cons_ne_nil _ _)
  have hprev : c.heap.prev 1 = some e.1 := by
    have hlinked := hsplit ▸ h.linked
    exact (linked_append.1 hlinked).2.2.1
  have hkeys : ∀ e' ∈ l, e'.2.1 ≠ e.2.1 := by
    have hnodup := h.keys
    rw [map_append, nodup_append] at hnodup
    exact fun e' he' => hnodup.2.2 _ (mem_map_of_mem he') _ (by simp)
  have hevict : c.evict = some { c with heap := heap', index := c.index.filter fun x => some e.2.1 ≠ some x.1 } := by
    rw [evict, hprev]
    dsimp only [Option.bind_eq_bind, Option.bind_some]
    rw [hremove, hval]
    rfl
  refine ⟨_, hevict, rfl, ?_⟩
  have hsub : ∀ a ∈ chain l, a ∈ chain (l ++ [e]) := by
    intro a ha
    simp only [chain, List.mem_cons, mem_append, map_append] at ha ⊢
    rcases ha with ha | ha | ha
    · exact .inl ha
    · exact .inr (.inl (.inl ha))
    · exact .inr (.inr ha)
  have hchain : chain l = (0 :: l.map Prod.fst) ++ [1] := rfl
  refine ⟨hchain ▸ hr.linked, ?_, fun a ha => ?_, fun e' he' => ?_, ?_, ?_⟩
  · have hnodup := h.nodup
    rw [hsplit] at hnodup
    rw [hchain]
    exact hnodup.sublist ((sublist_cons_self e.1 [1]).append_left _)
  · rw [hr.length]
    exact h.bound a (hsub a ha)
  · rw [hr.val]
    exact h.vals e' (mem_append_left _ he')
  · refine (h.index.filter _).trans ?_
    rw [map_append, filter_append]
    have hlast : List.filter (fun x : K × Nat => decide (some e.2.1 ≠ some x.1))
        ([e].map fun e => (e.2.1, e.1)) = [] := by simp
    have hrest : List.filter (fun x : K × Nat => decide (some e.2.1 ≠ some x.1))
        (l.map fun e => (e.2.1, e.1)) = l.map fun e => (e.2.1, e.1) := by
      rw [filter_eq_self]
      intro x hx
      obtain ⟨e', he', rfl⟩ := List.mem_map.1 hx
      simpa using (hkeys e' he').symm
    rw [hlast, hrest, append_nil]
  · have hnodup := h.keys
    rw [map_append] at hnodup
    exact (List.nodup_append.1 hnodup).1

theorem push_ok (h : c.Rep entries) (hkey : ∀ e ∈ entries, e.2.1 ≠ key) (value : V) :
    ∃ c', c.push key value = some c' ∧ c'.maxSize = c.maxSize ∧
      c'.Rep ((c.heap.length, key, value) :: entries) := by
  have hlinked : (c.heap.alloc (some (key, value))).Linked (chain entries) :=
    h.linked.congr (fun _ _ => next_alloc ..) fun _ _ => prev_alloc ..
  have hfresh : c.heap.length ∉ chain entries := fun hmem => Nat.lt_irrefl _ (h.bound _ hmem)
  have hbound : ∀ a ∈ c.heap.length :: chain entries, a < (c.heap.alloc (some (key, value))).length := by
    rw [length_alloc]
    exact forall_mem_cons.2 ⟨Nat.lt_succ_self _, fun a ha => Nat.lt_succ_of_lt (h.bound a ha)⟩
  obtain ⟨heap', hadd, hr⟩ := addToHead_ok hlinked h.nodup hfresh hbound (by simp)
  refine ⟨{ c with heap := heap', index := (key, c.heap.length) :: c.index }, ?_, rfl, ?_⟩
  · rw [push, hadd]
    rfl
  · have hchain : (chain ((c.heap.length, key, value) :: entries)).Perm (c.heap.length :: chain entries) := by
      exact .swap _ _ _
    refine ⟨hr.linked, hchain.nodup_iff.2 (List.nodup_cons.2 ⟨hfresh, h.nodup⟩), fun a ha => ?_, fun e he => ?_,
      h.index.cons _, ?_⟩
    · rw [hr.length]
      exact hbound a (hchain.mem_iff.1 ha)
    · rw [hr.val]
      rcases List.mem_cons.1 he with rfl | he
      · rw [val_alloc, if_pos rfl]
      · exact val_alloc_of_val _ (h.vals e he)
    · rw [map_cons, nodup_cons]
      refine ⟨fun hmem => ?_, h.keys⟩
      obtain ⟨e, he, heq⟩ := List.mem_map.1 hmem
      exact hkey e he heq

/-- A value for a new key: a new entry, in front of the others or of all but the last. -/
theorem set_missing [DecidableEq K] (h : c.Rep entries) (hkey : ∀ e ∈ entries, e.2.1 ≠ key) (hmax : 1 ≤ c.maxSize)
    (value : V) : ∃ c' n kept, c.set key value = some c' ∧ c'.maxSize = c.maxSize ∧ kept <+: entries ∧
      c'.Rep ((n, key, value) :: kept) := by
  rw [set, h.lookup_none hkey]
  dsimp only
  split
  next hfull =>
    have hne : entries ≠ [] := by
      rintro rfl
      have hlen := h.index.length_eq
      rw [hlen] at hfull
      exact absurd hfull (by simp; omega)
    obtain ⟨l, e, rfl⟩ : ∃ l e, entries = l ++ [e] := ⟨_, _, (dropLast_append_getLast hne).symm⟩
    obtain ⟨c1, hevict, hmax1, h1⟩ := h.evict_ok
    obtain ⟨c2, hpush, hmax2, h2⟩ := h1.push_ok (fun e' he' => hkey e' (mem_append_left _ he')) value
    refine ⟨c2, _, l, ?_, hmax2.trans hmax1, prefix_append l [e], h2⟩
    rw [hevict]
    exact hpush
  next =>
    obtain ⟨c2, hpush, hmax2, h2⟩ := h.push_ok hkey value
    exact ⟨c2, _, entries, hpush, hmax2, prefix_refl entries, h2⟩

theorem peek_iff [DecidableEq K] (h : c.Rep entries) : c.peek key = some value ↔ ∃ e ∈ entries, e.2 = (key, value) := by
  constructor
  · intro hpeek
    obtain ⟨n, hn, hpeek⟩ := Option.bind_eq_some_iff.1 hpeek
    obtain ⟨e, hmem, rfl, rfl⟩ := h.lookup_iff.1 hn
    rw [h.vals e hmem] at hpeek
    exact ⟨e, hmem, Prod.ext rfl (Option.some.inj hpeek)⟩
  · rintro ⟨e, hmem, he⟩
    rw [peek, h.lookup_iff.2 ⟨e, hmem, congrArg Prod.fst he, rfl⟩]
    show (c.heap.val e.1).bind _ = _
    rw [h.vals e hmem, he]
    rfl

end Rep

/-! ## Valid caches -/

/-- A cache with room whose list and index agree. -/
structure Valid (c : LruCache K V) : Prop where
  rep : ∃ entries, c.Rep entries
  room : 1 ≤ c.maxSize

theorem valid_empty {maxSize : Nat} (h : 1 ≤ maxSize) : (empty maxSize : LruCache K V).Valid :=
  ⟨⟨[], rep_empty maxSize⟩, h⟩

namespace Valid

variable [DecidableEq K] {c : LruCache K V}

/-- **A lookup** returns what the cache has and loses nothing. -/
theorem get (h : c.Valid) (key : K) :
    ∃ c', c.get key = some (c', c.peek key) ∧ c'.Valid ∧ ∀ k v, c'.peek k = some v → c.peek k = some v := by
  obtain ⟨entries, hrep⟩ := h.rep
  by_cases hkey : ∃ e ∈ entries, e.2.1 = key
  · obtain ⟨e, hmem, rfl⟩ := hkey
    obtain ⟨l, r, rfl⟩ := append_of_mem hmem
    obtain ⟨c', hget, hmax, hrep'⟩ := hrep.get_found
    have hpeek : c.peek e.2.1 = some e.2.2 := hrep.peek_iff.2 ⟨e, hmem, rfl⟩
    refine ⟨c', by rw [hget, hpeek], ⟨⟨_, hrep'⟩, hmax ▸ h.room⟩, fun k v hv => ?_⟩
    obtain ⟨e', hmem', he'⟩ := hrep'.peek_iff.1 hv
    exact hrep.peek_iff.2 ⟨e', List.perm_middle.mem_iff.2 hmem', he'⟩
  · have hlookup : c.index.lookup key = none := hrep.lookup_none fun e hmem he => hkey ⟨e, hmem, he⟩
    refine ⟨c, ?_, h, fun k v hv => hv⟩
    rw [LruCache.get, peek, hlookup]
    rfl

/-- **A value that is stored**; of the others none is new. -/
theorem set (h : c.Valid) (key : K) (value : V) : ∃ c', c.set key value = some c' ∧ c'.Valid ∧
      ∀ k v, c'.peek k = some v → k = key ∧ v = value ∨ c.peek k = some v := by
  obtain ⟨entries, hrep⟩ := h.rep
  obtain ⟨c', n, kept, hset, hmax, hkept, hrep'⟩ : ∃ c' n kept, c.set key value = some c' ∧
      c'.maxSize = c.maxSize ∧ kept ⊆ entries ∧ c'.Rep ((n, key, value) :: kept) := by
    by_cases hkey : ∃ e ∈ entries, e.2.1 = key
    · obtain ⟨e, hmem, rfl⟩ := hkey
      obtain ⟨l, r, rfl⟩ := append_of_mem hmem
      obtain ⟨c', hset, hmax, hrep'⟩ := hrep.set_found value
      exact ⟨c', _, _, hset, hmax, fun e' he' => List.perm_middle.mem_iff.2 (mem_cons_of_mem e he'), hrep'⟩
    · obtain ⟨c', n, kept, hset, hmax, hkept, hrep'⟩ :=
        hrep.set_missing (fun e hmem he => hkey ⟨e, hmem, he⟩) h.room value
      exact ⟨c', n, kept, hset, hmax, hkept.subset, hrep'⟩
  refine ⟨c', hset, ⟨⟨_, hrep'⟩, hmax ▸ h.room⟩, fun k v hv => ?_⟩
  obtain ⟨e', hmem', he'⟩ := hrep'.peek_iff.1 hv
  rcases List.mem_cons.1 hmem' with rfl | hmem'
  · exact .inl ⟨(congrArg Prod.fst he').symm, (congrArg Prod.snd he').symm⟩
  · exact .inr (hrep.peek_iff.2 ⟨e', hkept hmem', he'⟩)

end Valid

end LruCache

end Lib
