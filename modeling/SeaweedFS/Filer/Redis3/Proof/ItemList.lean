import SeaweedFS.Lib.Runs
import SeaweedFS.Filer.Redis3.ItemList

/-!
# The batches of a directory

`Holds nl bs`: the skip list and the sorted sets are the batches `bs`, in any order. `Rep nl bs`: they are in order
and each is under the key of its first name. `WriteName` and `DeleteName` keep such batches (`writeName_rep`,
`deleteName_rep`), except where `WriteName` moves the front of a full set to a new one.
-/

namespace Filer.Redis3.ItemList

open Lib Util List SortedMap SortedSet Std

variable {names : SortedSet Str}

/-- A batch: an element of the skip list and the names in its set. -/
structure Batch where
  id : Nat
  key : Str
  names : List Str

variable {nl : ItemList} {bs front back : List Batch} {b : Batch} {name : Str} {drawn : Nat}

/-! ## The contents -/

/-- The element of a batch. -/
def Batch.ref (b : Batch) : Reference := (b.key, b.id)

/-- The skip list and the sets are these batches. -/
structure Holds (nl : ItemList) (bs : List Batch) : Prop where
  elements : nl.skipList.Perm (bs.map Batch.ref)
  inOrder : nl.skipList.Pairwise fun e e' => ¬ e'.1 < e.1
  sets : ∀ b ∈ bs, ∀ n, n ∈ nl.sets b.id ↔ n ∈ b.names
  others : ∀ id, (∀ b ∈ bs, b.id ≠ id) → ∀ n, n ∉ nl.sets id
  ids : (bs.map Batch.id).Nodup
  keys : (bs.map Batch.key).Nodup
  nonzero : ∀ b ∈ bs, b.id ≠ 0

/-- An id that no batch has. -/
def Unused (nl : ItemList) (id : Nat) : Prop := id ≠ 0 ∧ ∀ e ∈ nl.skipList, e.2 ≠ id

theorem insertByKey_perm (nl : ItemList) (key : Str) (id : Nat) :
    (nl.insertByKey key id).skipList.Perm ((key, id) :: nl.skipList) := by
  refine perm_middle.trans (.cons _ ?_)
  refine perm_append_comm.trans ?_
  simpa only [decide_not] using List.filter_append_perm (fun e : Reference => decide (key < e.1)) nl.skipList

theorem insertByKey_inOrder (h : nl.skipList.Pairwise fun e e' => ¬ e'.1 < e.1) (key : Str) (id : Nat) :
    (nl.insertByKey key id).skipList.Pairwise fun e e' => ¬ e'.1 < e.1 := by
  have hbefore : ∀ e ∈ nl.skipList.filter (¬ key < ·.1), ¬ key < e.1 := by simp
  have hbehind : ∀ e ∈ nl.skipList.filter (key < ·.1), key < e.1 := by simp
  refine List.pairwise_append.2 ⟨h.filter _, List.pairwise_cons.2 ⟨fun e he => ?_, h.filter _⟩, fun e he e' he' => ?_⟩
  · exact not_gt_of_lt (hbehind e he)
  · rcases List.mem_cons.1 he' with rfl | he'
    · exact hbefore e he
    · exact fun hlt => hbefore e he (lt_trans (hbehind e' he') hlt)

@[simp] theorem insertByKey_sets (nl : ItemList) (key : Str) (id : Nat) : (nl.insertByKey key id).sets = nl.sets := rfl

variable {l : List Str}

theorem nodup_map_cons {α : Type} {f : Batch → α} (h : (bs.map f).Nodup) (hne : ∀ b' ∈ bs, f b' ≠ f b) :
    ((b :: bs).map f).Nodup := by
  refine List.nodup_cons.2 ⟨fun hmem => ?_, h⟩
  obtain ⟨b', hb', heq⟩ := List.mem_map.1 hmem
  exact hne b' hb' heq

namespace Holds

theorem perm {bs' : List Batch} (h : Holds nl bs) (hp : bs.Perm bs') : Holds nl bs' where
  elements := h.elements.trans (hp.map _)
  inOrder := h.inOrder
  sets b hb := h.sets b (hp.mem_iff.2 hb)
  others id hid := h.others id fun b hb => hid b (hp.mem_iff.1 hb)
  ids := (hp.map _).nodup_iff.1 h.ids
  keys := (hp.map _).nodup_iff.1 h.keys
  nonzero b hb := h.nonzero b (hp.mem_iff.2 hb)

section

variable (h : Holds nl (b :: bs))
include h

theorem id_ne : ∀ b' ∈ bs, b'.id ≠ b.id := by
  intro b' hb' heq
  exact (List.nodup_cons.1 h.ids).1 (heq ▸ mem_map_of_mem hb')

omit h in
theorem id_ne_of_unused (h : Holds nl bs) {id : Nat} (hid : Unused nl id) : ∀ b ∈ bs, b.id ≠ id := by
  intro b hb
  exact hid.2 b.ref (h.elements.mem_iff.2 (mem_map_of_mem hb))

/-- **A set is replaced.** -/
theorem update (hl : ∀ n, n ∈ names ↔ n ∈ l) :
    Holds (nl.setNode b.id names) ({ b with names := l } :: bs) where
  elements := h.elements
  inOrder := h.inOrder
  sets := by
    refine forall_mem_cons.2 ⟨fun n => ?_, fun b' hb' n => ?_⟩
    · simpa [setNode] using hl n
    · simpa [setNode, h.id_ne b' hb'] using h.sets b' (.tail _ hb') n
  others id hid n := by
    simp only [setNode, if_neg (hid _ mem_cons_self).symm]
    exact h.others id (forall_mem_cons.2 (forall_mem_cons.1 hid)) n
  ids := h.ids
  keys := h.keys
  nonzero := forall_mem_cons.2 (forall_mem_cons.1 h.nonzero)

theorem rename (hl : ∀ n, n ∈ b.names ↔ n ∈ l) : Holds nl ({ b with names := l } :: bs) where
  elements := h.elements
  inOrder := h.inOrder
  sets := forall_mem_cons.2 ⟨fun n => (h.sets b mem_cons_self n).trans (hl n),
    fun b' hb' => h.sets b' (.tail _ hb')⟩
  others id hid := h.others id (forall_mem_cons.2 (forall_mem_cons.1 hid))
  ids := h.ids
  keys := h.keys
  nonzero := forall_mem_cons.2 (forall_mem_cons.1 h.nonzero)

omit h in
/-- **A new batch.** -/
theorem add (h : Holds nl bs) (hid : Unused nl drawn) {key : Str} (hkey : ∀ b ∈ bs, b.key ≠ key)
    (names : List Str) : Holds (nl.itemAdd key 0 names drawn) (⟨drawn, key, names⟩ :: bs) where
  elements := (insertByKey_perm nl key drawn).trans (h.elements.cons _)
  inOrder := insertByKey_inOrder h.inOrder key drawn
  sets := by
    have hids := h.id_ne_of_unused hid
    refine forall_mem_cons.2 ⟨fun n => ?_, fun b hb n => ?_⟩
    · simp [itemAdd, nodeAddMember, setNode, mem_addAll, h.others drawn hids n]
    · simpa [itemAdd, nodeAddMember, setNode, hids b hb] using h.sets b hb n
  others id hne n := by
    have hd : id ≠ drawn := (hne _ mem_cons_self).symm
    simp only [itemAdd, if_pos, nodeAddMember, setNode, if_neg hd]
    exact h.others id (fun b hb => hne b (.tail _ hb)) n
  ids := nodup_map_cons h.ids (h.id_ne_of_unused hid)
  keys := nodup_map_cons h.keys hkey
  nonzero := forall_mem_cons.2 ⟨hid.1, h.nonzero⟩

theorem deleteByKey_perm : (nl.deleteByKey b.key).skipList.Perm (bs.map Batch.ref) := by
  have hkeys : (nl.skipList.map Prod.fst).Nodup := by
    rw [(h.elements.map _).nodup_iff, map_map]
    exact h.keys
  have hone : nl.skipList.Pairwise fun e e' => decide (e.1 = b.key) = true → ¬ decide (e'.1 = b.key) = true := by
    refine (List.pairwise_map.1 hkeys).imp fun hne he he' => hne ?_
    rw [of_decide_eq_true he, of_decide_eq_true he']
  have hperm := h.elements.eraseP _ hone
  rwa [map_cons, eraseP_cons_of_pos (by simp [Batch.ref])] at hperm

/-- **A batch gets another key** and more names. -/
theorem rekey {key : Str} (hkey : ∀ b' ∈ bs, b'.key ≠ key) (names : List Str) :
    Holds ((nl.deleteByKey b.key).itemAdd key b.id names drawn) (⟨b.id, key, names ++ b.names⟩ :: bs) := by
  have hid : b.id ≠ 0 := h.nonzero b mem_cons_self
  have hadd : (nl.deleteByKey b.key).itemAdd key b.id names drawn =
      ((nl.deleteByKey b.key).insertByKey key b.id).nodeAddMember b.id names := by
    rw [itemAdd, if_neg hid]
  rw [hadd]
  refine ⟨(insertByKey_perm _ key b.id).trans (h.deleteByKey_perm.cons _),
    insertByKey_inOrder (h.inOrder.sublist eraseP_sublist) key b.id,
    forall_mem_cons.2 ⟨fun n => ?_, fun b' hb' n => ?_⟩, fun id hne n => ?_, h.ids,
    nodup_map_cons (List.nodup_cons.1 h.keys).2 hkey, forall_mem_cons.2 (forall_mem_cons.1 h.nonzero)⟩
  · simp [nodeAddMember, setNode, deleteByKey, mem_addAll, h.sets b mem_cons_self n]
  · simpa [nodeAddMember, setNode, deleteByKey, h.id_ne b' hb'] using h.sets b' (.tail _ hb') n
  · simp only [nodeAddMember, setNode, if_neg (hne _ mem_cons_self).symm]
    exact h.others id (forall_mem_cons.2 (forall_mem_cons.1 hne)) n

/-- **A batch is taken out.** -/
theorem remove : Holds ((nl.deleteByKey b.key).nodeDelete b.id) bs where
  elements := h.deleteByKey_perm
  inOrder := h.inOrder.sublist eraseP_sublist
  sets b' hb' n := by
    simpa [nodeDelete, setNode, deleteByKey, h.id_ne b' hb'] using h.sets b' (.tail _ hb') n
  others id hne n := by
    by_cases hd : id = b.id
    · simpa [nodeDelete, setNode, hd] using not_mem_empty n
    · simp only [nodeDelete, setNode, if_neg hd]
      exact h.others id (forall_mem_cons.2 ⟨Ne.symm hd, hne⟩) n
  ids := (List.nodup_cons.1 h.ids).2
  keys := (List.nodup_cons.1 h.keys).2
  nonzero b' hb' := h.nonzero b' (.tail _ hb')

end

end Holds

/-! ## Batches in order -/

/-- The names of the batches. -/
def allNames (bs : List Batch) : List Str := bs.flatMap Batch.names

@[simp] theorem allNames_nil : allNames [] = [] := rfl

@[simp] theorem allNames_cons (b : Batch) (bs : List Batch) : allNames (b :: bs) = b.names ++ allNames bs := rfl

@[simp] theorem allNames_append (bs bs' : List Batch) : allNames (bs ++ bs') = allNames bs ++ allNames bs' :=
  flatMap_append

/-- The names are in order, none is empty, and every batch has the key of its first name. -/
structure Ordered (bs : List Batch) : Prop where
  sorted : (allNames bs).Pairwise (· < ·)
  nonempty : ∀ n ∈ allNames bs, n ≠ []
  heads : ∀ b ∈ bs, b.names.head? = some b.key

namespace Ordered

theorem names_eq (h : Ordered bs) (hb : b ∈ bs) : b.names = b.key :: b.names.tail :=
  eq_cons_of_mem_head? (h.heads b hb)

theorem key_mem (h : Ordered bs) (hb : b ∈ bs) : b.key ∈ b.names := by
  rw [h.names_eq hb]
  exact mem_cons_self

theorem names_sorted (h : Ordered bs) (hb : b ∈ bs) : b.names.Pairwise (· < ·) :=
  (List.pairwise_flatMap.1 h.sorted).1 b hb

theorem names_lt (h : Ordered (front ++ b :: back)) : ∀ n ∈ allNames front, n < b.key := by
  have hsorted := h.sorted
  rw [allNames_append, pairwise_append] at hsorted
  exact fun n hn => hsorted.2.2 n hn b.key (mem_append_left _ (h.key_mem mem_append_cons_self))

theorem keys_sorted (h : Ordered bs) : bs.Pairwise fun b b' => b.key < b'.key := by
  have hpair := (List.pairwise_flatMap.1 h.sorted).2
  refine hpair.imp_of_mem fun hb hb' hlt => ?_
  exact hlt _ (h.key_mem hb) _ (h.key_mem hb')

theorem key_le (h : Ordered (b :: bs)) {n : Str} (hn : n ∈ allNames (b :: bs)) : n = b.key ∨ b.key < n := by
  have hsorted := h.sorted
  rw [allNames_cons, h.names_eq mem_cons_self, cons_append] at hsorted hn
  rcases List.mem_cons.1 hn with heq | hn
  · exact .inl heq
  · exact .inr ((List.pairwise_cons.1 hsorted).1 n hn)

theorem lt_of_lt_key (h : Ordered (b :: bs)) (hlt : name < b.key) : ∀ n ∈ allNames (b :: bs), name < n := by
  intro n hn
  rcases h.key_le hn with rfl | hn
  · exact hlt
  · exact lt_trans hlt hn

theorem append_right (h : Ordered (front ++ back)) : Ordered back where
  sorted := by
    have hsorted := h.sorted
    rw [allNames_append] at hsorted
    exact (List.pairwise_append.1 hsorted).2.1
  nonempty n hn := h.nonempty n (by rw [allNames_append]; exact mem_append_right _ hn)
  heads b hb := h.heads b (mem_append_right _ hb)

/-- No name from the batches on that do not begin before `name` is before it. -/
theorem lt_back (h : Ordered (front ++ back)) (hback : ∀ b ∈ back, ¬ b.key < name)
    (hne : ∀ b ∈ back.head?, b.key ≠ name) : ∀ n ∈ allNames back, name < n := by
  cases back with
  | nil => nofun
  | cons next back =>
    have hlt := lt_of_le_of_ne (not_lt.1 (hback next mem_cons_self)) (Ne.symm (hne next rfl))
    exact (append_right h).lt_of_lt_key hlt

theorem heads_replace {mid mid' : List Batch} (h : Ordered (front ++ (mid ++ back)))
    (hheads : ∀ b ∈ mid', b.names.head? = some b.key) :
    ∀ b ∈ front ++ (mid' ++ back), b.names.head? = some b.key := by
  obtain ⟨hfront, hrest⟩ := forall_mem_append.1 h.heads
  exact forall_mem_append.2 ⟨hfront, forall_mem_append.2 ⟨hheads, (forall_mem_append.1 hrest).2⟩⟩

end Ordered

theorem sorted_insert {A B : List Str} (h : (A ++ B).Pairwise (· < ·)) (hA : ∀ a ∈ A, a < name)
    (hB : ∀ b ∈ B, name < b) : (A ++ name :: B).Pairwise (· < ·) := by
  obtain ⟨h1, h2, h3⟩ := List.pairwise_append.1 h
  exact List.pairwise_append.2 ⟨h1, List.pairwise_cons.2 ⟨hB, h2⟩, fun a ha =>
    forall_mem_cons.2 ⟨hA a ha, h3 a ha⟩⟩

theorem mem_without {A B : List Str} (h : (A ++ name :: B).Pairwise (· < ·)) (n : Str) :
    n ∈ A ++ B ↔ n ∈ A ++ name :: B ∧ n ≠ name := by
  obtain ⟨-, hright, hcross⟩ := List.pairwise_append.1 h
  simp only [mem_append, List.mem_cons]
  constructor
  · rintro (hn | hn)
    · exact ⟨.inl hn, fun heq => lt_irrefl (heq ▸ hcross n hn name mem_cons_self)⟩
    · exact ⟨.inr (.inr hn), fun heq => lt_irrefl (heq ▸ (List.pairwise_cons.1 hright).1 n hn)⟩
  · rintro ⟨hn | hn | hn, hne⟩
    · exact .inl hn
    · exact absurd hn hne
    · exact .inr hn

theorem exists_cut (hl : l.Pairwise (· < ·)) (hname : name ∉ l) :
    ∃ P Q, l = P ++ Q ∧ (∀ a ∈ P, a < name) ∧ ∀ b ∈ Q, name < b := by
  induction l with
  | nil => exact ⟨[], [], rfl, nofun, nofun⟩
  | cons a l ih =>
    obtain ⟨h1, h2⟩ := List.pairwise_cons.1 hl
    rw [List.mem_cons, not_or] at hname
    rcases lt_trichotomy a name with hlt | heq | hgt
    · obtain ⟨P, Q, rfl, hP, hQ⟩ := ih h2 hname.2
      exact ⟨a :: P, Q, rfl, forall_mem_cons.2 ⟨hlt, hP⟩, hQ⟩
    · exact absurd heq.symm hname.1
    · exact ⟨[], a :: l, rfl, nofun, forall_mem_cons.2 ⟨hgt, fun b hb => lt_trans hgt (h1 b hb)⟩⟩

/-- The skip list and the sets are these batches, in order. -/
structure Rep (nl : ItemList) (bs : List Batch) : Prop where
  holds : Holds nl bs
  ordered : Ordered bs

namespace Rep

theorem elements_eq (h : Rep nl bs) : nl.skipList = bs.map Batch.ref := by
  refine h.holds.elements.eq_of_pairwise (fun e e' he he' hle hge => ?_) h.holds.inOrder
    (List.pairwise_map.2 (h.ordered.keys_sorted.imp not_gt_of_lt))
  obtain ⟨b, hb, rfl⟩ := List.mem_map.1 (h.holds.elements.mem_iff.1 he)
  obtain ⟨b', hb', rfl⟩ := List.mem_map.1 he'
  rw [inj_on_of_nodup_map h.holds.keys hb hb' (Std.le_antisymm (not_lt.1 hle) (not_lt.1 hge))]

theorem toList (h : Rep nl bs) (hb : b ∈ bs) : (nl.sets b.id).toList = b.names :=
  toList_eq (h.ordered.names_sorted hb) fun n => (h.holds.sets b hb n).symm

theorem find (h : Rep nl (front ++ back)) (hfront : ∀ b ∈ front, b.key < name) (hback : ∀ b ∈ back, ¬ b.key < name) :
    nl.findGreaterOrEqual name = back.head?.map Batch.ref := by
  rw [findGreaterOrEqual, h.elements_eq, map_append, find?_append, List.find?_eq_none.2]
  · cases back with
    | nil => rfl
    | cons b back =>
      rw [map_cons, find?_cons_of_pos]
      · rfl
      · exact decide_eq_true (hback b mem_cons_self)
  · intro e he
    obtain ⟨b, hb, rfl⟩ := List.mem_map.1 he
    rw [decide_eq_true_eq, not_not]
    exact hfront b hb

theorem prevOf (h : Rep nl (front ++ back)) (hfront : ∀ b ∈ front, b.key < name)
    (hback : ∀ b ∈ back, ¬ b.key < name) :
    nl.prevOf (nl.findGreaterOrEqual name) = front.getLast?.map Batch.ref := by
  rw [h.find hfront hback]
  cases back with
  | nil =>
    rw [append_nil] at h
    show nl.skipList.getLast? = _
    rw [h.elements_eq, getLast?_map]
  | cons b back =>
    show (nl.skipList.takeWhile fun e => e.1 < b.key).getLast? = _
    have hkeys := (List.pairwise_append.1 h.ordered.keys_sorted).2.2
    rw [h.elements_eq, map_append, takeWhile_append_of_pos, map_cons, takeWhile_cons_of_neg,
      append_nil, getLast?_map]
    · rw [decide_eq_true_eq]
      exact lt_irrefl
    · intro e he
      obtain ⟨b', hb', rfl⟩ := List.mem_map.1 he
      exact decide_eq_true (hkeys b' hb' b mem_cons_self)

end Rep

theorem Ordered.cut (h : Ordered bs) (name : Str) :
    ∃ front back, bs = front ++ back ∧ (∀ b ∈ front, b.key < name) ∧ ∀ b ∈ back, ¬ b.key < name := by
  refine ⟨bs.takeWhile fun b => b.key < name, bs.dropWhile fun b => b.key < name,
    List.takeWhile_append_dropWhile.symm, fun b hb => by simpa using mem_takeWhile_imp hb, ?_⟩
  have hsorted := h.keys_sorted
  clear h
  induction bs with
  | nil => nofun
  | cons b bs ih =>
    obtain ⟨h1, h2⟩ := List.pairwise_cons.1 hsorted
    rw [dropWhile_cons]
    split
    · exact ih h2
    · next hge =>
      have hge : ¬ b.key < name := by simpa using hge
      refine forall_mem_cons.2 ⟨hge, fun b' hb' hlt => hge (lt_trans (h1 b' hb') hlt)⟩

/-! ## Writing -/

/-- The batches after a name was written. -/
def Wrote (nl : ItemList) (bs : List Batch) (name : Str) : Prop :=
  ∃ bs', Rep nl bs' ∧ ∀ n, n ∈ allNames bs' ↔ n = name ∨ n ∈ allNames bs

variable {P Q : List Str}

/-- Some batches are replaced by others with the same names and a new one between them. -/
theorem Wrote.of_insert (front mid mid' back : List Batch) (h : Ordered (front ++ (mid ++ back)))
    (hname : name ≠ []) (hholds : Holds nl (front ++ (mid' ++ back))) (hold : allNames mid = P ++ Q)
    (hnew : allNames mid' = P ++ name :: Q) (hA : ∀ a ∈ allNames front ++ P, a < name)
    (hB : ∀ c ∈ Q ++ allNames back, name < c) (hheads : ∀ b ∈ mid', b.names.head? = some b.key) :
    Wrote nl (front ++ (mid ++ back)) name := by
  have hmem : ∀ n, n ∈ allNames (front ++ (mid' ++ back)) ↔ n = name ∨ n ∈ allNames (front ++ (mid ++ back)) := by
    simp only [allNames_append, hnew, hold, mem_append, List.mem_cons]
    tauto
  refine ⟨_, ⟨hholds, ?_, fun n hn => ?_, h.heads_replace hheads⟩, hmem⟩
  · have hsorted : ((allNames front ++ P) ++ (Q ++ allNames back)).Pairwise (· < ·) := by
      have hs := h.sorted
      rw [allNames_append, allNames_append, hold] at hs
      simpa only [append_assoc] using hs
    rw [allNames_append, allNames_append, hnew]
    simpa only [append_assoc, cons_append] using sorted_insert hsorted hA hB
  · rcases (hmem n).1 hn with rfl | hn
    · exact hname
    · exact h.nonempty n hn

theorem head_cut (hhead : b.names.head? = some b.key) (hb : b.key < name)
    (hnames : b.names = P ++ Q) (hQ : ∀ c ∈ Q, name < c) : ∃ P', P = b.key :: P' := by
  rw [hnames] at hhead
  cases P with
  | nil =>
    have hlt : name < b.key := hQ b.key (mem_of_mem_head? hhead)
    exact absurd hlt (not_gt_of_lt hb)
  | cons a P =>
    obtain rfl := Option.some.inj hhead
    exact ⟨P, rfl⟩

theorem perm_behind {b' : Batch} : (b' :: (front ++ b :: back)).Perm (front ++ b :: b' :: back) := by
  have hperm : (front ++ [b] ++ b' :: back).Perm (b' :: (front ++ [b] ++ back)) := perm_middle
  simpa using hperm.symm

/-- A name and the batch before it, whose names the name cuts. -/
structure Before (nl : ItemList) (front : List Batch) (b : Batch) (back : List Batch) (name : Str)
    (P Q : List Str) : Prop where
  rep : Rep nl (front ++ b :: back)
  name_ne : name ≠ []
  key_lt : b.key < name
  names : b.names = P ++ Q
  lt : ∀ a ∈ P, a < name
  gt : ∀ c ∈ Q, name < c
  back : ∀ n ∈ allNames back, name < n

namespace Before

theorem mem (_ : Before nl front b back name P Q) : b ∈ front ++ b :: back := mem_append_cons_self

section

variable (h : Before nl front b back name P Q)
include h

theorem around : (∀ a ∈ allNames front ++ P, a < name) ∧ ∀ c ∈ Q ++ allNames back, name < c := by
  refine ⟨forall_mem_append.2 ⟨fun a ha => ?_, h.lt⟩, forall_mem_append.2 ⟨h.gt, h.back⟩⟩
  exact lt_trans (h.rep.ordered.names_lt a ha) h.key_lt

theorem head : ∃ P', P = b.key :: P' :=
  head_cut (h.rep.ordered.heads b h.mem) h.key_lt h.names h.gt

theorem key_ne : ∀ b' ∈ front ++ b :: back, b'.key ≠ name := by
  rintro b' hb' rfl
  have hkey : b'.key ∈ allNames (front ++ b :: back) :=
    mem_flatMap_of_mem hb' (h.rep.ordered.key_mem hb')
  obtain ⟨hA, hB⟩ := h.around
  rw [allNames_append, allNames_cons, h.names, append_assoc, ← append_assoc] at hkey
  rcases List.mem_append.1 hkey with hmem | hmem
  · exact lt_irrefl (hA _ hmem)
  · exact lt_irrefl (hB _ hmem)

theorem before : ((nl.sets b.id).filter fun n => n < name).toList = P := by
  have hsorted := h.rep.ordered.names_sorted h.mem
  rw [h.names] at hsorted
  refine toList_eq (List.pairwise_append.1 hsorted).1 fun n => ?_
  rw [SortedSet.mem_filter, h.rep.holds.sets b h.mem, h.names, mem_append, decide_eq_true_eq]
  constructor
  · exact fun hn => ⟨.inl hn, h.lt n hn⟩
  · rintro ⟨hn | hn, hlt⟩
    · exact hn
    · exact absurd hlt (not_gt_of_lt (h.gt n hn))

theorem after : ((nl.sets b.id).filter fun n => name < n).toList = Q := by
  have hsorted := h.rep.ordered.names_sorted h.mem
  rw [h.names] at hsorted
  refine toList_eq (List.pairwise_append.1 hsorted).2.1 fun n => ?_
  rw [SortedSet.mem_filter, h.rep.holds.sets b h.mem, h.names, mem_append, decide_eq_true_eq]
  constructor
  · exact fun hn => ⟨.inr hn, h.gt n hn⟩
  · rintro ⟨hn | hn, hgt⟩
    · exact absurd hgt (not_gt_of_lt (h.lt n hn))
    · exact hn

theorem nodeInnerPosition : nl.nodeInnerPosition b.id name = P.length := by
  rw [ItemList.nodeInnerPosition, h.before]

theorem nodeSize : nl.nodeSize b.id = P.length + Q.length := by
  rw [ItemList.nodeSize, h.rep.toList h.mem, h.names, length_append]

theorem nodeRest : nl.nodeSize b.id - nl.nodeInnerPosition b.id name = Q.length := by
  rw [h.nodeInnerPosition, h.nodeSize, Nat.add_sub_cancel_left]

theorem nodeAddMember : Wrote (nl.nodeAddMember b.id [name]) (front ++ b :: back) name := by
  obtain ⟨hA, hB⟩ := h.around
  obtain ⟨P', hP⟩ := h.head
  have hholds : Holds (nl.nodeAddMember b.id [name]) (front ++ { b with names := P ++ name :: Q } :: back) := by
    refine (Holds.update (h.rep.holds.perm perm_middle) fun n => ?_).perm List.perm_middle.symm
    rw [mem_addAll, h.rep.holds.sets b h.mem, h.names]
    simp only [mem_append, List.mem_cons]
    tauto
  refine Wrote.of_insert front [b] [{ b with names := P ++ name :: Q }] back h.rep.ordered h.name_ne hholds
    (by simpa using h.names) (by simp) hA hB (forall_mem_singleton.2 ?_)
  rw [hP]
  rfl

omit h in
theorem itemAdd (h : Before nl front b back name P []) (hid : Unused nl drawn) :
    Wrote (nl.itemAdd name 0 [name] drawn) (front ++ b :: back) name := by
  obtain ⟨hA, hB⟩ := h.around
  have hholds : Holds (nl.itemAdd name 0 [name] drawn) (front ++ b :: ⟨drawn, name, [name]⟩ :: back) := by
    exact (h.rep.holds.add hid h.key_ne [name]).perm perm_behind
  refine Wrote.of_insert front [b] [b, ⟨drawn, name, [name]⟩] back h.rep.ordered h.name_ne hholds
    (by simpa using h.names) (by simpa using h.names) hA hB ?_
  exact forall_mem_cons.2 ⟨h.rep.ordered.heads _ h.mem, forall_mem_singleton.2 rfl⟩

theorem splitBack (hid : Unused nl drawn) :
    Wrote ((nl.itemAdd name 0 (nl.nodeRangeAfterExclusive b.id name ++ [name]) drawn).nodeDeleteAfterExclusive b.id
      name) (front ++ b :: back) name := by
  obtain ⟨hA, hB⟩ := h.around
  obtain ⟨P', hP⟩ := h.head
  have hrange : nl.nodeRangeAfterExclusive b.id name = Q := by
    rw [nodeRangeAfterExclusive, if_neg h.name_ne, h.after]
  rw [hrange, nodeDeleteAfterExclusive, if_neg h.name_ne]
  have hadd := h.rep.holds.add hid h.key_ne (Q ++ [name])
  have hne : drawn ≠ b.id := fun heq => h.rep.holds.id_ne_of_unused hid b h.mem heq.symm
  have hsets : (nl.itemAdd name 0 (Q ++ [name]) drawn).sets b.id = nl.sets b.id := by
    simp [ItemList.itemAdd, ItemList.nodeAddMember, setNode, hne.symm]
  have hmid : (⟨drawn, name, Q ++ [name]⟩ :: (front ++ b :: back)).Perm
      (b :: ⟨drawn, name, Q ++ [name]⟩ :: (front ++ back)) :=
    (List.perm_middle.cons _).trans (.swap _ _ _)
  have hkept : ∀ n, n ∈ ((nl.itemAdd name 0 (Q ++ [name]) drawn).sets b.id).filter (fun n => ¬ name < n) ↔ n ∈ P := by
    intro n
    rw [hsets, SortedSet.mem_filter, h.rep.holds.sets b h.mem, h.names, mem_append, decide_eq_true_eq]
    constructor
    · rintro ⟨hn | hn, hgt⟩
      · exact hn
      · exact absurd (h.gt n hn) hgt
    · exact fun hn => ⟨.inl hn, not_gt_of_lt (h.lt n hn)⟩
  have hmoved : ∀ n, n ∈ Q ++ [name] ↔ n ∈ name :: Q := fun n => by simp [or_comm]
  have hcut := ((hadd.perm hmid).update hkept).perm (.swap _ _ _)
  have hperm : (⟨drawn, name, name :: Q⟩ :: { b with names := P } :: (front ++ back)).Perm
      (front ++ { b with names := P } :: ⟨drawn, name, name :: Q⟩ :: back) :=
    (List.perm_middle.symm.cons _).trans perm_behind
  have hholds := (hcut.rename hmoved).perm hperm
  refine Wrote.of_insert front [b] [{ b with names := P }, ⟨drawn, name, name :: Q⟩] back h.rep.ordered h.name_ne
    hholds (by simpa using h.names) (by simp) hA hB (forall_mem_cons.2 ⟨?_, forall_mem_singleton.2 rfl⟩)
  rw [hP]
  rfl

theorem splitNode (hid : Unused nl drawn) (hback : Q ≠ [] → Q.length < P.length) :
    Wrote (nl.splitNode b.ref name drawn) (front ++ b :: back) name := by
  have hP : P.length ≠ 0 := by
    obtain ⟨P', rfl⟩ := h.head
    simp
  show Wrote (if nl.nodeInnerPosition b.id name = 0 ∨ nl.nodeSize b.id - nl.nodeInnerPosition b.id name = 0 then _
    else if nl.nodeInnerPosition b.id name ≤ nl.nodeSize b.id - nl.nodeInnerPosition b.id name then _ else _) _ _
  rw [h.nodeRest, h.nodeInnerPosition]
  by_cases hQ : Q = []
  · subst hQ
    rw [if_pos (.inr rfl)]
    exact h.itemAdd hid
  · have hlen : Q.length ≠ 0 := fun hnil => hQ (eq_nil_of_length_eq_zero hnil)
    rw [if_neg (not_or.2 ⟨hP, hlen⟩), if_neg (Nat.not_le.2 (hback hQ))]
    exact h.splitBack hid

end

end Before

/-- A name before all others goes to the first set if that has room, or to a set of its own. -/
theorem writeFirst_wrote (h : Rep nl bs) (hname : name ≠ []) (hlt : ∀ n ∈ allNames bs, name < n)
    (hid : Unused nl drawn) : Wrote (nl.itemAdd name 0 [name] drawn) bs name := by
  have hkey : ∀ b ∈ bs, b.key ≠ name := by
    rintro b hb rfl
    exact lt_irrefl (hlt b.key (mem_flatMap_of_mem hb (h.ordered.key_mem hb)))
  have hnew : allNames [⟨drawn, name, [name]⟩] = [] ++ name :: [] := rfl
  exact Wrote.of_insert [] [] [⟨drawn, name, [name]⟩] bs h.ordered hname (h.holds.add hid hkey [name]) rfl hnew nofun
    hlt (forall_mem_singleton.2 rfl)

theorem rekey_wrote (h : Rep nl (b :: bs)) (hname : name ≠ []) (hlt : ∀ n ∈ allNames (b :: bs), name < n) :
    Wrote ((nl.deleteByKey b.key).itemAdd name b.id [name] drawn) (b :: bs) name := by
  have hkey : ∀ b' ∈ bs, b'.key ≠ name := by
    rintro b' hb' rfl
    exact lt_irrefl (hlt b'.key (mem_flatMap_of_mem (.tail _ hb') (h.ordered.key_mem (.tail _ hb'))))
  have hold : allNames [b] = [] ++ b.names := by simp
  exact Wrote.of_insert [] [b] [⟨b.id, name, [name] ++ b.names⟩] bs h.ordered hname (h.holds.rekey hkey [name]) hold
    (by simp) nofun (by simpa using hlt) (forall_mem_singleton.2 rfl)

/-- **`WriteName`** adds a name to the batches, unless it moves the front of a full set. -/
theorem writeName_rep (h : Rep nl bs) (hname : name ≠ []) (hid : Unused nl drawn)
    (hsplit : nl.splitsFront name = false) : Wrote (nl.writeName name drawn) bs name := by
  obtain ⟨front, back, rfl, hfront, hback⟩ := h.ordered.cut name
  have hfind := h.find hfront hback
  have hprev := h.prevOf hfront hback
  rw [writeName]
  rw [splitsFront] at hsplit
  rw [hprev, hfind] at hsplit ⊢
  by_cases hfound : (back.head?.map Batch.ref).any (fun n => n.1 = name) = true
  · -- the name is the key of a batch
    rw [if_pos hfound]
    cases back with
    | nil => cases hfound
    | cons next back =>
      obtain rfl : next.key = name := of_decide_eq_true hfound
      refine ⟨_, h, fun n => ⟨.inr, ?_⟩⟩
      rintro (rfl | hn)
      · exact mem_flatMap_of_mem mem_append_cons_self (h.ordered.key_mem mem_append_cons_self)
      · exact hn
  · rw [if_neg hfound]
    have hgt := h.ordered.lt_back hback fun b hb heq => hfound (by
      rw [Option.mem_def.1 hb]
      exact decide_eq_true heq)
    rcases eq_nil_or_concat front with rfl | ⟨front, b, rfl⟩
    · -- no batch begins before the name
      cases back with
      | nil => exact writeFirst_wrote h hname nofun hid
      | cons next back =>
        show Wrote (if _ then _ else _) _ _
        split
        · exact rekey_wrote h hname hgt
        · exact writeFirst_wrote h hname hgt hid
    · rw [concat_eq_append] at *
      rw [getLast?_append_of_ne_nil _ (cons_ne_nil b [])] at hsplit ⊢
      rw [append_assoc] at h ⊢
      have hmem : b ∈ front ++ ([b] ++ back) := mem_append_right _ mem_cons_self
      have hsets := h.holds.sets b hmem name
      show Wrote (if name ∈ nl.sets b.id then _ else _) _ _
      split
      next hin =>
        refine ⟨_, h, fun n => ⟨.inr, ?_⟩⟩
        rintro (rfl | hn)
        · exact mem_flatMap_of_mem hmem (hsets.1 hin)
        · exact hn
      next hnot =>
        obtain ⟨P, Q, hnames, hP, hQ⟩ := exists_cut (h.ordered.names_sorted hmem) fun hn => hnot (hsets.2 hn)
        have hb : b.key < name := hfront b (mem_append_right _ mem_cons_self)
        have hbefore : Before nl front b back name P Q := ⟨h, hname, hb, hnames, hP, hQ, hgt⟩
        obtain ⟨P', rfl⟩ := hbefore.head
        split
        next => exact hbefore.nodeAddMember
        next hfull =>
          refine hbefore.splitNode hid fun hQ => ?_
          have hlen : Q.length ≠ 0 := fun hnil => hQ (eq_nil_of_length_eq_zero hnil)
          by_contra hle
          have htrue : (!(back.head?.map Batch.ref).any (fun n => n.1 = name) && decide (name ∉ nl.sets b.id) &&
              decide (nl.batchSize ≤ nl.nodeSize b.id) && decide (nl.nodeInnerPosition b.id name ≠ 0 ∧
                nl.nodeSize b.id - nl.nodeInnerPosition b.id name ≠ 0 ∧
                nl.nodeInnerPosition b.id name ≤ nl.nodeSize b.id - nl.nodeInnerPosition b.id name)) = true := by
            rw [Bool.eq_false_of_not_eq_true hfound, hbefore.nodeRest, hbefore.nodeInnerPosition]
            simp only [Bool.not_false, Bool.true_and, Bool.and_eq_true, decide_eq_true_eq]
            exact ⟨⟨hnot, Nat.not_lt.1 hfull⟩, by simp, hlen, Nat.not_lt.1 hle⟩
          cases htrue.symm.trans hsplit

/-! ## Deleting -/

/-- The batches after a name was deleted. -/
def Removed (nl : ItemList) (bs : List Batch) (name : Str) : Prop :=
  ∃ bs', Rep nl bs' ∧ ∀ n, n ∈ allNames bs' ↔ n ∈ allNames bs ∧ n ≠ name

theorem Removed.of_not_mem (h : Rep nl bs) (hname : name ∉ allNames bs) : Removed nl bs name :=
  ⟨bs, h, fun _ => ⟨fun hn => ⟨hn, fun heq => hname (heq ▸ hn)⟩, fun hn => hn.1⟩⟩

theorem Removed.of_erase (front mid mid' back : List Batch)
    (h : Ordered (front ++ (mid ++ back))) (hholds : Holds nl (front ++ (mid' ++ back)))
    (hold : allNames mid = P ++ name :: Q) (hnew : allNames mid' = P ++ Q)
    (hheads : ∀ b ∈ mid', b.names.head? = some b.key) : Removed nl (front ++ (mid ++ back)) name := by
  have hall : allNames (front ++ (mid ++ back)) = (allNames front ++ P) ++ name :: (Q ++ allNames back) := by
    simp [hold]
  have hall' : allNames (front ++ (mid' ++ back)) = (allNames front ++ P) ++ (Q ++ allNames back) := by
    simp [hnew]
  have hsorted := h.sorted
  rw [hall] at hsorted
  have hmem : ∀ n, n ∈ allNames (front ++ (mid' ++ back)) ↔ n ∈ allNames (front ++ (mid ++ back)) ∧ n ≠ name := by
    intro n
    rw [hall, hall']
    exact mem_without hsorted n
  refine ⟨_, ⟨hholds, ?_, fun n hn => h.nonempty n ((hmem n).1 hn).1, h.heads_replace hheads⟩, hmem⟩
  rw [hall']
  exact hsorted.sublist ((sublist_cons_self _ _).append_left _)

section

variable (h : Rep nl (front ++ b :: back))
include h

theorem Rep.nodeDeleteMember (hnames : b.names = P ++ name :: Q) :
    Holds (nl.nodeDeleteMember b.id name) (front ++ { b with names := P ++ Q } :: back) := by
  have hsorted := h.ordered.names_sorted mem_append_cons_self
  rw [hnames] at hsorted
  refine (Holds.update (h.holds.perm perm_middle) fun n => ?_).perm List.perm_middle.symm
  rw [mem_erase, h.holds.sets b mem_append_cons_self, hnames]
  exact (mem_without hsorted n).symm

omit h in
theorem Ordered.key_ne (h : Ordered (front ++ b :: back)) {n : Str} (hn : n ∈ b.names) :
    ∀ b' ∈ front ++ back, b'.key ≠ n := by
  have hpair := (List.pairwise_flatMap.1 h.sorted).2
  obtain ⟨-, hright, hcross⟩ := List.pairwise_append.1 hpair
  rintro b' hb' rfl
  rcases List.mem_append.1 hb' with hb' | hb'
  · exact lt_irrefl (hcross b' hb' b mem_cons_self _ (h.key_mem (mem_append_left _ hb')) _ hn)
  · exact lt_irrefl ((List.pairwise_cons.1 hright).1 b' hb' _ hn _
      (h.key_mem (mem_append_right _ (.tail _ hb'))))

/-- The name is the key of a batch: the batch gets the key of its next name, or goes. -/
theorem deleteKey_removed (drawn : Nat) : let nl' := (nl.deleteByKey b.key).nodeDeleteMember b.id b.key
    Removed (if nl'.nodeMin b.id = [] then nl'.nodeDelete b.id else nl'.itemAdd (nl'.nodeMin b.id) b.id [] drawn)
      (front ++ b :: back) b.key := by
  have hmem : b ∈ front ++ b :: back := mem_append_cons_self
  have hnames : b.names = [] ++ b.key :: b.names.tail := h.ordered.names_eq hmem
  have hholds := h.nodeDeleteMember hnames
  have hsorted : b.names.tail.Pairwise (· < ·) := (h.ordered.names_sorted hmem).tail
  have htoList : ((nl.nodeDeleteMember b.id b.key).sets b.id).toList = b.names.tail :=
    toList_eq hsorted fun n => (hholds.sets _ mem_append_cons_self n).symm
  dsimp only
  have hmin : ((nl.deleteByKey b.key).nodeDeleteMember b.id b.key).nodeMin b.id = b.names.tail.headD [] :=
    congrArg (List.headD · []) htoList
  rw [hmin]
  cases htail : b.names.tail with
  | nil =>
    rw [htail] at hnames hholds
    have hfirst := hholds.perm perm_middle
    have hrest : Holds (((nl.nodeDeleteMember b.id b.key).deleteByKey b.key).nodeDelete b.id) (front ++ back) :=
      hfirst.remove
    have hold : allNames [b] = [] ++ b.key :: [] := by simpa using hnames
    exact Removed.of_erase front [b] [] back h.ordered hrest hold rfl nofun
  | cons m rest =>
    have hm : m ∈ b.names := by
      rw [h.ordered.names_eq hmem, htail]
      exact .tail _ mem_cons_self
    have hne : m ≠ [] := h.ordered.nonempty m (mem_flatMap_of_mem hmem hm)
    rw [headD_cons, if_neg hne]
    rw [htail] at hnames hholds
    have hrest : Holds (((nl.nodeDeleteMember b.id b.key).deleteByKey b.key).itemAdd m b.id [] drawn)
        (front ++ ⟨b.id, m, m :: rest⟩ :: back) :=
      ((hholds.perm perm_middle).rekey (h.ordered.key_ne hm) []).perm List.perm_middle.symm
    have hold : allNames [b] = [] ++ b.key :: (m :: rest) := by simpa using hnames
    exact Removed.of_erase front [b] [⟨b.id, m, m :: rest⟩] back h.ordered hrest hold (by simp)
      (forall_mem_singleton.2 rfl)

/-- The name is behind the key of its batch: the batch shrinks, and may take in the next one. -/
theorem shrinkNode_removed (hb : b.key < name) (hname : name ∈ b.names) :
    Removed (nl.shrinkNode b.ref (back.head?.map Batch.ref) name) (front ++ b :: back) name := by
  obtain ⟨P, Q, hnames⟩ := append_of_mem hname
  have hholds := h.nodeDeleteMember hnames
  obtain ⟨P', rfl⟩ : ∃ P', P = b.key :: P' := by
    have hhead := h.ordered.heads b mem_append_cons_self
    rw [hnames] at hhead
    cases P with
    | nil => exact absurd (Option.some.inj hhead ▸ hb) lt_irrefl
    | cons a P =>
      obtain rfl := Option.some.inj hhead
      exact ⟨P, rfl⟩
  have hsize : (nl.nodeDeleteMember b.id name).nodeSize b.id ≠ 0 := by
    intro hzero
    have hnil := eq_nil_of_length_eq_zero hzero
    have hkey := (hholds.sets _ mem_append_cons_self b.key).2 mem_cons_self
    rw [← SortedSet.mem_toList, hnil] at hkey
    cases hkey
  have hplain : Removed (nl.nodeDeleteMember b.id name) (front ++ b :: back) name := by
    have hold : allNames [b] = b.key :: P' ++ name :: Q := by simpa using hnames
    exact Removed.of_erase front [b] [{ b with names := b.key :: P' ++ Q }] back h.ordered hholds hold (by simp)
      (forall_mem_singleton.2 rfl)
  show Removed (if (nl.nodeDeleteMember b.id name).nodeSize b.id = 0 then _ else _) _ _
  rw [if_neg hsize]
  cases back with
  | nil => exact hplain
  | cons next back =>
    show Removed (if _ ∧ _ then _ else _) _ _
    split
    next =>
      -- the names of the next batch go to this one
      let nl' := nl.nodeDeleteMember b.id name
      have hnext : next ∈ front ++ { b with names := b.key :: P' ++ Q } :: next :: back := by simp
      have hrange : (nl'.deleteByKey next.key).nodeRangeBeforeExclusive next.id [] = next.names :=
        toList_eq (h.ordered.names_sorted (by simp)) fun n => (hholds.sets next hnext n).symm
      have hmerged : Holds (nl'.nodeAddMember b.id next.names)
          (next :: { b with names := b.key :: P' ++ Q ++ next.names } :: (front ++ back)) := by
        have hjoined : ∀ n, n ∈ (nl'.sets b.id).addAll next.names ↔ n ∈ b.key :: P' ++ Q ++ next.names := by
          intro n
          rw [mem_addAll, hholds.sets _ mem_append_cons_self, or_comm]
          exact List.mem_append.symm
        have hfirst := (hholds.perm perm_middle).update hjoined
        exact hfirst.perm ((List.perm_middle.cons _).trans (.swap _ _ _))
      have hrest : Holds (((nl'.nodeAddMember b.id next.names).deleteByKey next.key).nodeDelete next.id)
          (front ++ { b with names := b.key :: P' ++ Q ++ next.names } :: back) :=
        hmerged.remove.perm List.perm_middle.symm
      have hold : allNames [b, next] = b.key :: P' ++ name :: (Q ++ next.names) := by simp [hnames]
      have hremoved := Removed.of_erase front [b, next] [{ b with names := b.key :: P' ++ Q ++ next.names }] back
        h.ordered hrest hold (by simp) (forall_mem_singleton.2 rfl)
      rw [← hrange] at hremoved
      exact hremoved
    next => exact hplain

end

/-- **`DeleteName`** takes a name out of the batches. -/
theorem deleteName_rep (h : Rep nl bs) (name : Str) (drawn : Nat) : Removed (nl.deleteName name drawn) bs name := by
  obtain ⟨front, back, rfl, hfront, hback⟩ := h.ordered.cut name
  have hfind := h.find hfront hback
  have hprev := h.prevOf hfront hback
  rw [deleteName]
  rw [hprev, hfind]
  cases hkey : (back.head?.map Batch.ref).filter fun n => n.1 = name with
  | some nextNode =>
    cases back with
    | nil => cases hkey
    | cons next back =>
      obtain ⟨hnext, heq⟩ := Option.filter_eq_some_iff.1 hkey
      obtain rfl : next.ref = nextNode := Option.some.inj hnext
      obtain rfl : next.key = name := of_decide_eq_true heq
      exact deleteKey_removed h drawn
  | none =>
    have hgt := h.ordered.lt_back hback fun b hb heq => by
      simp only [Option.filter_eq_none_iff, Option.map_eq_some_iff, decide_eq_true_eq] at hkey
      exact hkey b.ref ⟨b, hb, rfl⟩ heq
    rcases eq_nil_or_concat front with rfl | ⟨front, b, rfl⟩
    · exact Removed.of_not_mem h fun hn => lt_irrefl (hgt name hn)
    · rw [concat_eq_append] at *
      rw [getLast?_append_of_ne_nil _ (cons_ne_nil b [])]
      rw [append_assoc] at h ⊢
      have hmem : b ∈ front ++ ([b] ++ back) := mem_append_right _ mem_cons_self
      have hb : b.key < name := hfront b (mem_append_right _ mem_cons_self)
      have hsets := h.holds.sets b hmem name
      show Removed (if name ∈ nl.sets b.id then _ else _) _ _
      split
      next hin => exact shrinkNode_removed h hb (hsets.1 hin)
      next hnot =>
        refine Removed.of_not_mem h fun hn => ?_
        rw [allNames_append, allNames_append, mem_append, mem_append] at hn
        rcases hn with hn | hn | hn
        · exact not_gt_of_lt hb (h.ordered.names_lt name hn)
        · exact hnot (hsets.2 (by simpa using hn))
        · exact lt_irrefl (hgt name hn)

/-! ## Runs -/

/-- The id that a write may draw is that of no element. -/
def DrawsUnused (nl : ItemList) : Op → Prop
  | .write _ drawn => Unused nl drawn
  | .delete _ _ => True

instance : ∀ (nl : ItemList) (op : Op), Decidable (DrawsUnused nl op)
  | nl, .write _ drawn => inferInstanceAs (Decidable (drawn ≠ 0 ∧ ∀ e ∈ nl.skipList, e.2 ≠ drawn))
  | _, .delete _ _ => inferInstanceAs (Decidable True)

/-- A write does not move the front of a full set to a new one. -/
def KeepsFront (nl : ItemList) : Op → Prop
  | .write name _ => nl.splitsFront name = false
  | .delete _ _ => True

instance : ∀ (nl : ItemList) (op : Op), Decidable (KeepsFront nl op)
  | nl, .write name _ => inferInstanceAs (Decidable (nl.splitsFront name = false))
  | _, .delete _ _ => inferInstanceAs (Decidable True)

/-- **What is visited** are the names of the batches. -/
theorem Rep.listNames (h : Rep nl bs) : nl.listNames [] = allNames bs := by
  have hdrop : (nl.skipList.dropWhile fun e => e.1 < ([] : Str)) = nl.skipList := by
    cases nl.skipList with
    | nil => rfl
    | cons e elements =>
      refine dropWhile_cons_of_neg ?_
      rw [decide_eq_true_eq]
      exact not_lt_nil e.1
  have hprev : (if nl.skipList = [] then nl.largestNode else none) = none := by
    split
    next hnil => rw [largestNode, hnil]; rfl
    next => rfl
  have hscan : bs.map (fun b => nl.nodeScanInclusiveAfter b.ref.2 []) = bs.map Batch.names :=
    map_congr_left fun b hb => h.toList hb
  rw [ItemList.listNames, hdrop, hprev, h.elements_eq, Option.toList_none, nil_append, flatMap_map, allNames,
    List.flatMap, List.flatMap, hscan]

theorem rep_new (batchSize : Nat) : Rep (newItemList batchSize) [] where
  holds := ⟨.nil, .nil, nofun, fun _ _ => not_mem_empty, .nil, .nil, nofun⟩
  ordered := ⟨.nil, nofun, nofun⟩

theorem apply_rep (h : Rep nl bs) (hnames : ∀ n, n ∈ allNames bs ↔ n ∈ names) {op : Op}
    (hne : op.name ≠ []) (hdraws : DrawsUnused nl op) (hfront : KeepsFront nl op) :
    ∃ bs', Rep (nl.apply op) bs' ∧ ∀ n, n ∈ allNames bs' ↔ n ∈ specApply names op := by
  cases op with
  | write name drawn =>
    obtain ⟨bs', hrep, hmem⟩ := writeName_rep h hne hdraws hfront
    refine ⟨bs', hrep, fun n => ?_⟩
    rw [hmem, hnames, specApply, mem_add]
    exact Iff.rfl
  | delete name drawn =>
    obtain ⟨bs', hrep, hmem⟩ := deleteName_rep h name drawn
    refine ⟨bs', hrep, fun n => ?_⟩
    rw [hmem, hnames, specApply, mem_erase]

theorem foldl_apply_rep (h : Rep nl bs) (hnames : ∀ n, n ∈ allNames bs ↔ n ∈ names)
    {ops : List Op} (hne : ∀ op ∈ ops, op.name ≠ []) (hdraws : Throughout apply DrawsUnused nl ops)
    (hfront : Throughout apply KeepsFront nl ops) :
    ∃ bs', Rep (ops.foldl apply nl) bs' ∧ ∀ n, n ∈ allNames bs' ↔ n ∈ ops.foldl specApply names := by
  induction ops generalizing nl bs names with
  | nil => exact ⟨bs, h, hnames⟩
  | cons op ops ih =>
    obtain ⟨bs', hrep, hmem⟩ := apply_rep h hnames (hne op mem_cons_self) hdraws.1 hfront.1
    exact ih hrep hmem (forall_mem_cons.1 hne).2 hdraws.2 hfront.2

/-- **The names of a directory.** After writes that do not move the front of a full set, and any deletes, the names
visited from the empty one on are those written and not deleted since, each once and in order. -/
theorem listNames_run (batchSize : Nat) {ops : List Op} (hne : ∀ op ∈ ops, op.name ≠ [])
    (hdraws : Throughout apply DrawsUnused (newItemList batchSize) ops)
    (hfront : Throughout apply KeepsFront (newItemList batchSize) ops) :
    (ops.foldl apply (newItemList batchSize)).listNames [] = (ops.foldl specApply SortedMap.empty).toList := by
  have hstart : ∀ n, n ∈ allNames [] ↔ n ∈ (empty : SortedSet Str) := fun n =>
    iff_of_false not_mem_nil (not_mem_empty n)
  obtain ⟨bs, hrep, hmem⟩ := foldl_apply_rep (rep_new batchSize) hstart hne hdraws hfront
  rw [hrep.listNames]
  exact (toList_eq hrep.ordered.sorted hmem).symm

theorem listNames_run_split :
    let ops : List Op := [.write (ascii "a") 1, .write (ascii "b") 2, .write (ascii "d") 3, .write (ascii "c") 4,
      .delete (ascii "b") 5]
    (ops.foldl apply (newItemList 3)).listNames [] = [ascii "a", ascii "c", ascii "d"] := by
  refine (listNames_run 3 (by decide) (by decide +kernel) (by decide +kernel)).trans ?_
  decide +kernel

/-- A name that was deleted is visited after a write has moved the front of a full set. -/
theorem listNames_deleted :
    let ops : List Op := [.write (ascii "a") 1, .write (ascii "c") 2, .write (ascii "b") 3, .delete (ascii "b") 4]
    Throughout apply DrawsUnused (newItemList 2) ops ∧
    (ops.foldl apply (newItemList 2)).listNames [] = [ascii "a", ascii "b", ascii "c"] ∧
    (ops.foldl specApply SortedMap.empty).toList = [ascii "a", ascii "c"] := by
  decide +kernel

end Filer.Redis3.ItemList
