import SeaweedFS.Lib.SortedMap
import SeaweedFS.Storage.ErasureCoding.ShardsInfo

/-!
# The shards that a volume reports

A `ShardsInfo` refines a sorted map of sizes (`Refines`), so `Plus` and `Minus` are a union and a difference
(**`shardsInfo_laws`**). The comparison of `AddEcVolumeShard` is never negative: a shard is added at the end
whatever its id (**`shards_sorted`**).
-/

namespace ErasureCoding

open Lib List EcVolume Function Nat SortedMap Std

variable {id : ShardId}

/-! ## Bits -/

theorem toNat_one_shiftLeft (h : id.toNat < maxShardCount) :
    (1 <<< id.toUInt32 : ShardBits).toNat = 2 ^ id.toNat := by
  have hlt : id.toNat < 32 := h
  rw [UInt32.toNat_shiftLeft, UInt8.toNat_toUInt32, mod_eq_of_lt hlt]
  show 1 <<< id.toNat % 2 ^ 32 = _
  rw [one_shiftLeft, mod_eq_of_lt (Nat.pow_lt_pow_right (by decide) hlt)]

theorem has_eq (sb : ShardBits) (id : ShardId) :
    sb.has id = (decide (id.toNat < maxShardCount) && sb.toNat.testBit id.toNat) := by
  unfold ShardBits.has
  by_cases h : id.toNat < maxShardCount
  · have hbit : (sb &&& (1 <<< id.toUInt32) != 0) = sb.toNat.testBit id.toNat := by
      rw [bne, Bool.eq_iff_iff, Bool.not_eq_true', beq_eq_false_iff_ne, Ne, ← UInt32.toNat_inj,
        UInt32.toNat_and, toNat_one_shiftLeft h, and_two_pow]
      cases sb.toNat.testBit id.toNat <;> simp
    rw [hbit]
  · rw [decide_eq_false h, Bool.false_and, Bool.false_and]

variable {sb : ShardBits}

theorem has_lt (h : sb.has id = true) : id.toNat < maxShardCount := by
  rw [has_eq, Bool.and_eq_true, decide_eq_true_eq] at h
  exact h.1

theorem has_set {i : ShardId} (h : i.toNat < maxShardCount) (j : ShardId) :
    (sb.set i).has j = if i = j then true else sb.has j := by
  unfold ShardBits.set
  rw [if_neg (by omega), has_eq, has_eq, UInt32.toNat_or, toNat_one_shiftLeft h, testBit_or,
    testBit_two_pow]
  by_cases hij : i = j
  · subst hij
    simp [h]
  · have hne : i.toNat ≠ j.toNat := fun heq => hij (UInt8.toNat_inj.1 heq)
    simp [hij, hne]

theorem has_clear {i : ShardId} (h : i.toNat < maxShardCount) (j : ShardId) :
    (sb.clear i).has j = if i = j then false else sb.has j := by
  unfold ShardBits.clear
  have hsize : UInt32.size - 1 - 2 ^ i.toNat = 2 ^ 32 - (2 ^ i.toNat + 1) := by
    show 4294967296 - 1 - 2 ^ i.toNat = 4294967296 - (2 ^ i.toNat + 1)
    omega
  have hpow : 2 ^ i.toNat < 2 ^ 32 := Nat.pow_lt_pow_right (by decide) h
  rw [if_neg (by omega), has_eq, has_eq, UInt32.toNat_and, UInt32.toNat_not, toNat_one_shiftLeft h,
    hsize, testBit_and, testBit_two_pow_sub_succ hpow,
    testBit_two_pow]
  by_cases hij : i = j
  · subst hij
    simp
  · have hne : i.toNat ≠ j.toNat := fun heq => hij (UInt8.toNat_inj.1 heq)
    by_cases hj : j.toNat < maxShardCount
    · simp [hij, hne, show j.toNat < 32 from hj]
    · simp [hj]

/-! ## The search for a shard -/

/-- The shards are sorted by their ids, and no id is there twice. -/
def SortedIds (shards : List ShardInfo) : Prop := shards.Pairwise fun a b => a.id < b.id

section
variable {shards : List ShardInfo} (hs : SortedIds shards)
include hs

theorem SortedIds.lt {i j : Nat} {a b : ShardInfo} (hij : i < j) (ha : shards[i]? = some a)
    (hb : shards[j]? = some b) : a.id < b.id := by
  obtain ⟨hi, rfl⟩ := List.getElem?_eq_some_iff.1 ha
  obtain ⟨hj, rfl⟩ := List.getElem?_eq_some_iff.1 hb
  exact pairwise_iff_getElem.1 hs i j hi hj hij

theorem SortedIds.search {p : ShardId → Bool} (hp : ∀ a b : ShardId, a < b → p a = true → p b = true) :
    search shards.length (fun i => shards[i]?.any fun s => p s.id) ≤ shards.length ∧
    (∀ i s, shards[i]? = some s →
      (i < search shards.length (fun i => shards[i]?.any fun s => p s.id) ↔ p s.id = false)) := by
  have hstays : StaysTrue shards.length fun i => shards[i]?.any fun s => p s.id := by
    intro i j hij hj hi
    have hj' := getElem?_eq_getElem hj
    have hi' := getElem?_eq_getElem (Nat.lt_of_le_of_lt hij hj)
    dsimp only at hi ⊢
    rw [hi', Option.any_some] at hi
    rw [hj', Option.any_some]
    rcases lt_or_eq_of_le hij with hlt | rfl
    · exact hp _ _ (hs.lt hlt hi' hj') hi
    · exact hi
  obtain ⟨hle, hbefore, hfrom⟩ := search_spec hstays
  refine ⟨hle, fun i s hi => ⟨fun hlt => ?_, fun hfalse => ?_⟩⟩
  · have := hbefore i hlt
    rwa [hi, Option.any_some] at this
  · by_contra hge
    have := hfrom i (Nat.not_lt.1 hge) (List.getElem?_eq_some_iff.1 hi).1
    rw [hi, Option.any_some, hfalse] at this
    cases this

/-- **The search finds the shard of an id**, if there is one. -/
theorem findIndex_eq_some {bits : ShardBits} {i : Nat} :
    (ShardsInfo.mk shards bits).findIndex id = some i ↔ ∃ s, shards[i]? = some s ∧ s.id = id := by
  obtain ⟨-, hsplit⟩ := hs.search (p := fun x => decide (x ≥ id)) (by
    intro a b hlt ha
    rw [decide_eq_true_eq] at ha ⊢
    exact le_trans ha (le_of_lt hlt))
  unfold ShardsInfo.findIndex
  dsimp only at hsplit ⊢
  generalize search shards.length (fun i => shards[i]?.any fun s => decide (s.id ≥ id)) = idx
    at hsplit ⊢
  constructor
  · intro h
    split at h
    · rename_i hcond
      cases h
      obtain ⟨s, hget, hid⟩ := (Option.any_eq_true ..).1 hcond.2
      exact ⟨s, hget, by simpa using hid⟩
    · cases h
  · rintro ⟨s, hget, rfl⟩
    have hge : ¬ i < idx := by
      rw [hsplit i s hget]
      simp
    have heq : idx = i := by
      by_contra hne
      have hlt : idx < i := by omega
      have hidx : idx < shards.length :=
        Nat.lt_trans hlt (List.getElem?_eq_some_iff.1 hget).1
      have ht := getElem?_eq_getElem hidx
      have hnot := mt (hsplit idx _ ht).2 (lt_irrefl idx)
      rw [Bool.not_eq_false, decide_eq_true_eq] at hnot
      exact not_le_of_gt (hs.lt hlt ht hget) hnot
    rw [if_pos ⟨heq ▸ (List.getElem?_eq_some_iff.1 hget).1, by rw [heq, hget]; simp⟩, heq]

theorem SortedIds.search_gt (id : ShardId) {idx : Nat}
    (hidx : Lib.search shards.length (fun i => shards[i]?.any fun s => decide (s.id > id)) = idx) :
    (∀ a ∈ shards.take idx, ¬ id < a.id) ∧ ∀ b ∈ shards.drop idx, id < b.id := by
  obtain ⟨-, hsplit⟩ := hs.search (p := fun x => decide (x > id)) (by
    intro a b hlt ha
    rw [decide_eq_true_eq] at ha ⊢
    exact lt_trans ha hlt)
  constructor
  · intro a ha
    obtain ⟨i, hi, rfl⟩ := mem_take_iff_getElem.1 ha
    have := (hsplit i _ (getElem?_eq_getElem (by omega))).1 (by omega)
    exact of_decide_eq_false this
  · intro b hb
    obtain ⟨i, hi, rfl⟩ := mem_drop_iff_getElem.1 hb
    have := mt (hsplit (idx + i) _ (getElem?_eq_getElem (by omega))).2 (by omega)
    exact of_decide_eq_true (Bool.not_eq_false _ ▸ this)

theorem SortedIds.split {i : Nat} {s : ShardInfo} (h : shards[i]? = some s) :
    shards = shards.take i ++ s :: shards.drop (i + 1) ∧
    (∀ a ∈ shards.take i, a.id < s.id) ∧ ∀ b ∈ shards.drop (i + 1), s.id < b.id := by
  obtain ⟨hi, rfl⟩ := List.getElem?_eq_some_iff.1 h
  have heq : shards = shards.take i ++ shards[i] :: shards.drop (i + 1) := by
    rw [← drop_eq_getElem_cons hi, take_append_drop]
  have hsorted := hs
  rw [SortedIds, heq, pairwise_append, pairwise_cons] at hsorted
  exact ⟨heq, fun a ha => hsorted.2.2 a ha _ mem_cons_self, hsorted.2.1.1⟩

end

/-! ## The sorted map of the sizes -/

/-- The entry of a shard. -/
def ShardInfo.entry (s : ShardInfo) : ShardId × Int := (s.id, s.size)

/-- `si` has the shards of the map `m`, in its slice and in its bits. -/
structure Refines (si : ShardsInfo) (m : SortedMap ShardId Int) : Prop where
  shards : si.shards.map ShardInfo.entry = m.entries
  bits : ∀ id, si.shardBits.has id = (m.get id).isSome

section
variable {si : ShardsInfo} {m : SortedMap ShardId Int} (h : Refines si m)
include h

theorem Refines.sorted : SortedIds si.shards := by
  have := m.sorted
  rwa [← h.shards, pairwise_map] at this

theorem Refines.mem {size : Int} : ⟨id, size⟩ ∈ si.shards ↔ m.get id = some size := by
  rw [← mem_entries, ← h.shards, mem_map]
  constructor
  · exact fun hmem => ⟨_, hmem, rfl⟩
  · rintro ⟨s, hmem, heq⟩
    cases heq
    exact hmem

/-- **`Has`** is whether the map has the id. -/
theorem Refines.has (id : ShardId) : si.has id = (m.get id).isSome := h.bits id

theorem Refines.lt {size : Int} (hget : m.get id = some size) :
    id.toNat < maxShardCount := has_lt (by rw [h.bits, hget]; rfl)

theorem Refines.getElem {size : Int} (hget : m.get id = some size) :
    ∃ i, si.shards[i]? = some ⟨id, size⟩ ∧ si.findIndex id = some i := by
  obtain ⟨i, hi, hs⟩ := getElem_of_mem (h.mem.2 hget)
  have hi' : si.shards[i]? = some ⟨id, size⟩ := List.getElem?_eq_some_iff.2 ⟨hi, hs⟩
  exact ⟨i, hi', (findIndex_eq_some h.sorted).2 ⟨_, hi', rfl⟩⟩

/-- **`Size`** is the size in the map. -/
theorem Refines.size (id : ShardId) : si.size id = (m.get id).getD 0 := by
  unfold ShardsInfo.size
  cases hget : m.get id with
  | none =>
    rw [h.bits, hget]
    split <;> rfl
  | some size =>
    obtain ⟨i, hi, hfind⟩ := h.getElem hget
    rw [h.bits, hget, if_neg (by have := h.lt hget; omega), hfind]
    dsimp only
    rw [hi]
    rfl

/-- **`Set`** inserts the shard. -/
theorem Refines.set {shard : ShardInfo} (hid : shard.id.toNat < maxShardCount) :
    Refines (si.set shard) (m.insert shard.id shard.size) := by
  unfold ShardsInfo.set
  rw [if_neg (by omega), h.bits]
  cases hget : m.get shard.id with
  | some size =>
    -- the shard is there: it is replaced
    obtain ⟨i, hi, hfind⟩ := h.getElem hget
    obtain ⟨heq, hbefore, -⟩ := h.sorted.split hi
    rw [hfind, Option.isSome_some, if_pos rfl]
    refine ⟨?_, fun id => ?_⟩
    · show (si.shards.set i shard).map _ = place shard.id shard.size m.entries
      rw [← h.shards, set_eq_take_append_cons_drop, if_pos (List.getElem?_eq_some_iff.1 hi).1]
      conv_rhs => rw [heq]
      rw [map_append, map_cons, map_append, map_cons]
      refine (place_append_cons lt_irrefl (fun e he => ?_) _ _ _).symm
      obtain ⟨a, ha, rfl⟩ := mem_map.1 he
      exact ⟨not_gt_of_lt (hbefore a ha), fun heq => lt_irrefl (heq ▸ hbefore a ha)⟩
    · rw [get_insert, h.bits]
      split
      · rename_i heq
        rw [← heq, hget]
        rfl
      · rfl
  | none =>
    refine ⟨?_, fun id => ?_⟩
    · show map _ (_ ++ _ :: _) = place shard.id shard.size m.entries
      generalize hidx : search si.shards.length (fun i => si.shards[i]?.any fun s =>
        decide (s.id > shard.id)) = idx
      obtain ⟨hbefore, hbehind⟩ := h.sorted.search_gt shard.id hidx
      rw [← h.shards]
      conv_rhs => rw [← take_append_drop idx si.shards]
      rw [map_append, map_cons, map_append]
      refine (place_append (fun e he => ?_) (fun e he => ?_) _).symm
      · obtain ⟨a, ha, rfl⟩ := mem_map.1 he
        refine ⟨hbefore a ha, fun heq => ?_⟩
        have := h.mem.1 (mem_of_mem_take ha)
        rw [show a.id = shard.id from heq, hget] at this
        cases this
      · obtain ⟨b, hb, rfl⟩ := mem_map.1 he
        exact hbehind b hb
    · show (si.shardBits.set shard.id).has id = _
      rw [has_set hid, get_insert, h.bits]
      split <;> rfl

/-- **`Delete`** erases the id. -/
theorem Refines.delete (id : ShardId) : Refines (si.delete id) (m.erase id) := by
  unfold ShardsInfo.delete
  cases hget : m.get id with
  | none =>
    -- there is no such shard, in the map or in the bits
    have hentries : (m.erase id).entries = m.entries := by
      refine filter_eq_self.2 fun e he => ?_
      rw [decide_eq_true_eq]
      rintro rfl
      rw [(mem_entries m e.1 e.2).1 he] at hget
      cases hget
    have hsame : Refines si (m.erase id) := by
      refine ⟨h.shards.trans hentries.symm, fun j => ?_⟩
      rw [h.bits, get_erase]
      split
      · rename_i heq
        rw [← heq, hget]
      · rfl
    rw [h.bits, hget]
    split <;> exact hsame
  | some size =>
    obtain ⟨i, hi, hfind⟩ := h.getElem hget
    obtain ⟨heq, hbefore, hbehind⟩ := h.sorted.split hi
    have hlt := h.lt hget
    rw [if_neg (by omega), h.bits, hget]
    have hfind' : ({ si with shardBits := si.shardBits.clear id } : ShardsInfo).findIndex id = some i :=
      hfind
    dsimp only
    rw [Option.isSome_some, Bool.not_true, if_neg Bool.false_ne_true, hfind']
    refine ⟨?_, fun j => ?_⟩
    · show (si.shards.eraseIdx i).map _ = m.entries.filter _
      rw [← h.shards, eraseIdx_eq_take_drop_succ]
      conv_rhs => rw [heq]
      rw [map_append, map_append, map_cons, filter_append,
        filter_cons_of_neg (by simp [ShardInfo.entry])]
      refine congrArg₂ (· ++ ·) (filter_eq_self.2 fun e he => ?_).symm
        (filter_eq_self.2 fun e he => ?_).symm
      · obtain ⟨a, ha, rfl⟩ := mem_map.1 he
        exact decide_eq_true fun heq => lt_irrefl (heq ▸ hbefore a ha)
      · obtain ⟨b, hb, rfl⟩ := mem_map.1 he
        exact decide_eq_true fun heq => lt_irrefl (heq ▸ hbehind b hb)
    · rw [has_clear hlt, get_erase, h.bits]
      split <;> rfl

end

/-! ## Answers -/

/-- The sizes after a call; a shard whose id has no bit is not taken. -/
def InfoOp.sizes (m : ShardId → Option Int) : InfoOp → ShardId → Option Int
  | .set shard =>
    if shard.id.toNat < maxShardCount then Function.update m shard.id (some shard.size) else m
  | .delete id => Function.update m id none

/-- `Has` and `Size` answer for the shards of `m`, and still do after any calls of `Set` and `Delete`. -/
def AnswersFor (si : ShardsInfo) (m : ShardId → Option Int) : Prop :=
  ∀ (calls : List InfoOp) (id : ShardId),
    (calls.foldl InfoOp.apply si).has id = (calls.foldl InfoOp.sizes m id).isSome ∧
    (calls.foldl InfoOp.apply si).size id = (calls.foldl InfoOp.sizes m id).getD 0

theorem Refines.apply {si : ShardsInfo} {m : SortedMap ShardId Int} (h : Refines si m) (call : InfoOp) :
    ∃ m', Refines (call.apply si) m' ∧ m'.get = call.sizes m.get := by
  cases call with
  | set shard =>
    dsimp only [InfoOp.apply, InfoOp.sizes]
    by_cases hid : shard.id.toNat < maxShardCount
    · refine ⟨_, h.set hid, funext fun id => ?_⟩
      rw [get_insert, if_pos hid, update_apply]
      exact if_congr eq_comm rfl rfl
    · refine ⟨m, ?_, (if_neg hid).symm⟩
      rwa [ShardsInfo.set, if_pos (Nat.not_lt.1 hid)]
  | delete id =>
    refine ⟨_, h.delete id, funext fun j => ?_⟩
    rw [get_erase, InfoOp.sizes, update_apply]
    exact if_congr eq_comm rfl rfl

/-- **A `ShardsInfo` that refines a map** answers for it. -/
theorem Refines.answersFor {si : ShardsInfo} {m : SortedMap ShardId Int} (h : Refines si m) :
    AnswersFor si m.get := by
  intro calls
  induction calls generalizing si m with
  | nil => exact fun id => ⟨h.has id, h.size id⟩
  | cons call calls ih =>
    obtain ⟨m', h', hget⟩ := h.apply call
    rw [foldl_cons, foldl_cons, ← hget]
    exact ih h'

/-! ## Sums and differences -/

/-- The size of each shard that there is. -/
def ShardsInfo.sizes (si : ShardsInfo) (id : ShardId) : Option Int :=
  if si.has id then some (si.size id) else none

variable {si other : ShardsInfo} {m m' : SortedMap ShardId Int}

theorem Refines.sizes (h : Refines si m) : si.sizes = m.get := by
  funext id
  rw [ShardsInfo.sizes, h.has, h.size]
  cases m.get id <;> rfl

theorem refines_new : Refines newShardsInfo SortedMap.empty :=
  ⟨rfl, fun id => by simp [newShardsInfo, has_eq]⟩

theorem find_of_lt {shards : List ShardInfo} (hs : SortedIds shards) (hlt : ∀ s ∈ shards, id < s.id) :
    find id (shards.map ShardInfo.entry) = none := by
  by_contra hne
  obtain ⟨size, hsize⟩ := Option.ne_none_iff_exists'.1 hne
  obtain ⟨s, hmem, heq⟩ := mem_map.1 ((mem_entries ⟨shards.map ShardInfo.entry,
    pairwise_map.2 hs⟩ id size).2 hsize)
  cases heq
  exact lt_irrefl (hlt s hmem)

theorem Refines.foldl_set (h : Refines si m) {shards : List ShardInfo} (hs : SortedIds shards)
    (hlt : ∀ s ∈ shards, s.id.toNat < maxShardCount) :
    ∃ m', Refines (shards.foldl ShardsInfo.set si) m' ∧
      ∀ id, m'.get id = (find id (shards.map ShardInfo.entry)).or (m.get id) := by
  induction shards generalizing si m with
  | nil => exact ⟨m, h, fun id => rfl⟩
  | cons s rest ih =>
    obtain ⟨hhead, hrest⟩ := pairwise_cons.1 hs
    obtain ⟨m', h', hget⟩ := ih (h.set (hlt s mem_cons_self)) hrest fun t ht => hlt t (.tail _ ht)
    refine ⟨m', h', fun id => ?_⟩
    rw [hget, get_insert, map_cons, find]
    by_cases heq : s.id = id
    · subst heq
      simp [find_of_lt hrest hhead, ShardInfo.entry]
    · simp [heq, ShardInfo.entry]

/-- **`Add`**: the sizes of the argument go before. -/
theorem Refines.add (h : Refines si m) (h' : Refines other m') :
    ∃ m'', Refines (si.add other) m'' ∧ ∀ id, m''.get id = (m'.get id).or (m.get id) := by
  obtain ⟨m'', hadd, hget⟩ := h.foldl_set h'.sorted fun s hs => h'.lt (h'.mem.1 hs)
  rw [h'.shards] at hget
  exact ⟨m'', hadd, hget⟩

/-- **`Subtract`** erases the ids of the argument. -/
theorem Refines.subtract (h : Refines si m) (h' : Refines other m') :
    ∃ m'', Refines (si.subtract other) m'' ∧
      ∀ id, m''.get id = if (m'.get id).isSome then none else m.get id := by
  have hfold : ∀ (shards : List ShardInfo) {si m}, Refines si m →
      ∃ m'', Refines (shards.foldl (fun si s => si.delete s.id) si) m'' ∧
        ∀ id, m''.get id = if (find id (shards.map ShardInfo.entry)).isSome then none else m.get id := by
    intro shards
    induction shards with
    | nil => exact fun h => ⟨_, h, fun id => rfl⟩
    | cons s rest ih =>
      intro si m h
      obtain ⟨m'', h'', hget⟩ := ih (h.delete s.id)
      refine ⟨m'', h'', fun id => ?_⟩
      rw [hget, get_erase, map_cons, find]
      by_cases heq : s.id = id
      · simp [heq, ShardInfo.entry]
      · simp [heq, ShardInfo.entry]
  have := hfold other.shards h
  rwa [h'.shards] at this

/-- **Whatever the calls**, the slice and the bits are those of a sorted map. -/
theorem InfoExpr.refines (e : InfoExpr) : ∃ m, Refines e.eval m := by
  induction e with
  | new => exact ⟨_, refines_new⟩
  | set e shard ih =>
    obtain ⟨m, h⟩ := ih
    obtain ⟨m', h', -⟩ := h.apply (.set shard)
    exact ⟨m', h'⟩
  | delete e id ih =>
    obtain ⟨m, h⟩ := ih
    exact ⟨_, h.delete id⟩
  | add e other ih ih' | plus e other ih ih' =>
    obtain ⟨m, h⟩ := ih
    obtain ⟨m', h'⟩ := ih'
    obtain ⟨m'', hadd, -⟩ := h.add h'
    exact ⟨m'', hadd⟩
  | subtract e other ih ih' | minus e other ih ih' =>
    obtain ⟨m, h⟩ := ih
    obtain ⟨m', h'⟩ := ih'
    obtain ⟨m'', hsub, -⟩ := h.subtract h'
    exact ⟨m'', hsub⟩

/-! ## Messages -/

theorem shardsFromBits_eq {fuel : Nat} {bitmap : UInt32} {shards : List ShardInfo}
    (hs : SortedIds shards) (hfuel : id.toNat + fuel = maxShardCount)
    (hbits : ∀ i, bitmap.toNat.testBit i = true ↔ ∃ s ∈ shards, s.id.toNat = id.toNat + i)
    (hid : ∀ s ∈ shards, id.toNat ≤ s.id.toNat ∧ s.id.toNat < maxShardCount) :
    shardsFromBits fuel bitmap id (shards.map (·.size)) = shards := by
  have hmax : maxShardCount = 32 := rfl
  induction fuel generalizing bitmap id shards with
  | zero =>
    cases shards with
    | nil => rfl
    | cons s rest =>
      have := hid s mem_cons_self
      omega
  | succ fuel ih =>
    have hnext : (id + 1).toNat = id.toNat + 1 := by
      simp [UInt8.toNat_add]
      omega
    have hbit : bitmap &&& 1 ≠ 0 ↔ bitmap.toNat.testBit 0 = true := by
      rw [Ne, ← UInt32.toNat_inj, UInt32.toNat_and]
      simp [testBit_zero, and_one_is_mod]
    cases shards with
    | nil =>
      have hzero : bitmap = 0 := UInt32.toNat_inj.1 (eq_of_testBit_eq fun i => by simpa using hbits i)
      rw [shardsFromBits, if_pos hzero]
    | cons s rest =>
      have hs0 := hid s mem_cons_self
      have hne : bitmap ≠ 0 := by
        rintro rfl
        simpa using (hbits (s.id.toNat - id.toNat)).2 ⟨s, mem_cons_self, by omega⟩
      have hbits' : ∀ i, (bitmap >>> 1).toNat.testBit i = true ↔
          ∃ t ∈ s :: rest, t.id.toNat = (id + 1).toNat + i := by
        intro i
        rw [hnext, Nat.add_assoc, Nat.add_comm 1, ← hbits]
        simp [testBit_shiftRight, Nat.add_comm]
      obtain ⟨hhead, hrest⟩ := pairwise_cons.1 hs
      rw [shardsFromBits, if_neg hne]
      by_cases heq : s.id = id
      · rw [if_pos (hbit.2 ((hbits 0).2 ⟨s, mem_cons_self, by rw [heq]; rfl⟩)), map_cons, tail_cons,
          headD_cons, ih hrest (by omega) (fun i => ?_) fun t ht => ?_, ← heq]
        · rw [hbits']
          simp only [mem_cons, exists_eq_or_imp, heq]
          exact or_iff_right (by omega)
        · have := UInt8.lt_iff_toNat_lt.1 (heq ▸ hhead t ht)
          have := hid t (.tail _ ht)
          omega
      · have hlt : ∀ t ∈ s :: rest, id.toNat + 1 ≤ t.id.toNat := by
          have hne : s.id.toNat ≠ id.toNat := fun h => heq (UInt8.toNat_inj.1 h)
          refine forall_mem_cons.2 ⟨by omega, fun t ht => ?_⟩
          have := UInt8.lt_iff_toNat_lt.1 (hhead t ht)
          omega
        rw [if_neg, ih hs (by omega) hbits' fun t ht => ⟨hnext ▸ hlt t ht, (hid t ht).2⟩]
        rw [hbit, hbits 0]
        rintro ⟨t, ht, hid'⟩
        have := hlt t ht
        omega

section
variable (h : Refines si m)
include h

theorem Refines.has_iff : si.shardBits.has id = true ↔ ∃ s ∈ si.shards, s.id = id := by
  rw [h.bits, Option.isSome_iff_exists]
  constructor
  · rintro ⟨size, hsize⟩
    exact ⟨_, h.mem.2 hsize, rfl⟩
  · rintro ⟨s, hs, rfl⟩
    exact ⟨_, h.mem.1 hs⟩

/-- **The message of a `ShardsInfo`** gives it back. -/
theorem Refines.message :
    shardsInfoFromVolumeEcShardInformationMessage (some ⟨si.bitmap, si.sizesInt64⟩) = si := by
  have hlt : ∀ s ∈ si.shards, s.id.toNat < maxShardCount := fun s hs => h.lt (h.mem.1 hs)
  show ShardsInfo.mk (shardsFromBits maxShardCount si.bitmap 0 (si.shards.map (·.size))) si.shardBits = si
  rw [shardsFromBits_eq h.sorted (by rfl) (fun i => ?_) fun s hs => ⟨zero_le _, hlt s hs⟩]
  constructor
  · intro hbit
    have hi : i < maxShardCount := by
      by_contra hge
      have := testBit_lt_two_pow (Nat.lt_of_lt_of_le si.bitmap.toNat_lt
        (Nat.pow_le_pow_right two_pos (Nat.not_lt.1 hge)))
      rw [hbit] at this
      cases this
    have hid : (UInt8.ofNat i).toNat = i := UInt8.toNat_ofNat_of_lt' (Nat.lt_trans hi (by decide))
    obtain ⟨s, hs, heq⟩ := h.has_iff.1 (show si.shardBits.has (UInt8.ofNat i) = true by
      rw [has_eq, hid, decide_eq_true hi]
      exact hbit)
    exact ⟨s, hs, by rw [heq, hid]; simp⟩
  · rintro ⟨s, hs, heq⟩
    have := h.has_iff.2 ⟨s, hs, rfl⟩
    rw [has_eq, Bool.and_eq_true] at this
    simpa [heq, ShardsInfo.bitmap] using this.2

end

/-- **A `ShardsInfo`** has its shards in order and the bits of their ids after any calls; `Plus` is the union of the
sizes, `Minus` takes away the ids, and its message gives it back. -/
theorem shardsInfo_laws (e e' : InfoExpr) :
    SortedIds e.eval.shards ∧
    (∀ id, e.eval.shardBits.has id = true ↔ ∃ s ∈ e.eval.shards, s.id = id) ∧
    (∀ id size, e.eval.sizes id = some size ↔ ⟨id, size⟩ ∈ e.eval.shards) ∧
    (∀ id, (e.eval.plus e'.eval).sizes id = (e'.eval.sizes id).or (e.eval.sizes id)) ∧
    (∀ id, (e.eval.minus e'.eval).sizes id = if e'.eval.has id then none else e.eval.sizes id) ∧
    shardsInfoFromVolumeEcShardInformationMessage (some ⟨e.eval.bitmap, e.eval.sizesInt64⟩) = e.eval := by
  obtain ⟨m, h⟩ := e.refines
  obtain ⟨m', h'⟩ := e'.refines
  obtain ⟨sum, hadd, hsum⟩ := h.add h'
  obtain ⟨rest, hsub, hrest⟩ := h.subtract h'
  rw [h.sizes, h'.sizes]
  refine ⟨h.sorted, fun id => h.has_iff, fun id size => h.mem.symm, fun id => ?_, fun id => ?_, h.message⟩
  · exact (congrFun hadd.sizes id).trans (hsum id)
  · rw [h'.has]
    exact (congrFun hsub.sizes id).trans (hrest id)

/-! ## The shards of a volume -/

/-- The shards are sorted by their ids, and no id is there twice. -/
def SortedShards (ev : EcVolume) : Prop := ev.shards.Pairwise fun a b => a.shardId < b.shardId

instance (ev : EcVolume) : Decidable (SortedShards ev) := inferInstanceAs (Decidable (List.Pairwise _ _))

/-- `ev` has the shards of `m`, each of them once. -/
structure Mounts (ev : EcVolume) (m : ShardId → Option Int) : Prop where
  nodup : ev.shards.Pairwise fun a b => a.shardId ≠ b.shardId
  get : ∀ id size, m id = some size ↔ ∃ s ∈ ev.shards, s.shardId = id ∧ s.ecdFileSize = size

theorem Mounts.isSome {ev : EcVolume} {m : ShardId → Option Int} (hm : Mounts ev m) :
    (m id).isSome = true ↔ ∃ s ∈ ev.shards, s.shardId = id := by
  rw [Option.isSome_iff_exists]
  constructor
  · rintro ⟨size, hsize⟩
    obtain ⟨s, hmem, hid, -⟩ := (hm.get id size).1 hsize
    exact ⟨s, hmem, hid⟩
  · rintro ⟨s, hmem, hid⟩
    exact ⟨s.ecdFileSize, (hm.get id _).2 ⟨s, hmem, hid, rfl⟩⟩

theorem has_foldl_set {shards : List EcVolumeShard}
    (hlt : ∀ s ∈ shards, s.shardId.toNat < maxShardCount) (sb : ShardBits) (id : ShardId) :
    (shards.foldl (fun sb s => ShardBits.set sb s.shardId) sb).has id =
      (sb.has id || shards.any (·.shardId == id)) := by
  induction shards generalizing sb with
  | nil => simp
  | cons s shards ih =>
    rw [foldl_cons, ih fun t ht => hlt t (.tail _ ht), has_set (hlt s mem_cons_self), any_cons]
    by_cases hid : s.shardId = id
    · simp [hid]
    · rw [if_neg hid, beq_eq_false_iff_ne.2 hid, Bool.false_or]

section
variable {ev : EcVolume} {m : ShardId → Option Int} (hm : Mounts ev m)
include hm

theorem Mounts.refines (hsorted : SortedShards ev)
    (hlt : ∀ s ∈ ev.shards, s.shardId.toNat < maxShardCount) :
    ∃ m', Refines (shardsInfoFromVolume ev) m' ∧ m'.get = m := by
  let entry : EcVolumeShard → ShardId × Int := fun s => (s.shardId, s.ecdFileSize)
  let m' : SortedMap ShardId Int := ⟨ev.shards.map entry, pairwise_map.2 hsorted⟩
  have hget : m'.get = m := by
    funext id
    refine Option.ext fun size => ?_
    rw [← mem_entries, hm.get]
    rw [mem_map]
    exact exists_congr fun s => and_congr_right fun _ => by rw [Prod.mk.injEq]
  refine ⟨m', ⟨?_, fun id => ?_⟩, hget⟩
  · show (ev.shards.map _).map _ = ev.shards.map _
    rw [map_map]
    rfl
  · show ShardBits.has (ev.shards.foldl _ 0) id = _
    rw [has_foldl_set hlt, hget, Bool.eq_iff_iff, hm.isSome, Bool.or_eq_true, any_eq_true]
    have hzero : ShardBits.has 0 id = false := by
      rw [has_eq]
      simp
    simp only [hzero, Bool.false_eq_true, false_or, beq_iff_eq]

/-- **What the volume reports** is right when its shards are sorted, and their ids have a bit. -/
theorem Mounts.answersFor_iff (hsorted : SortedShards ev) :
    AnswersFor (shardsInfoFromVolume ev) m ↔ ∀ s ∈ ev.shards, s.shardId.toNat < maxShardCount := by
  constructor
  · intro h s hmem
    have hhas := (h [] s.shardId).1
    rw [foldl_nil, foldl_nil, hm.isSome.2 ⟨s, hmem, rfl⟩] at hhas
    exact has_lt hhas
  · intro hlt
    obtain ⟨m', href, rfl⟩ := hm.refines hsorted hlt
    exact href.answersFor

end

/-! ## Adding and deleting -/

theorem compareShards_nonneg (a b : EcVolumeShard) : ¬ compareShards a b < 0 := by
  unfold compareShards
  split <;> omega

/-- **A shard is added at the end.** -/
theorem addEcVolumeShard_eq (sort : ShardSort) (ev : EcVolume) (shard : EcVolumeShard) :
    (ev.addEcVolumeShard sort shard).1.shards =
      if ev.shards.any (·.shardId == shard.shardId) then ev.shards else ev.shards ++ [shard] := by
  unfold addEcVolumeShard
  split
  · rfl
  · exact pdqsort_of_not_less compareShards_nonneg sort _

theorem foldl_foundPosition (id : ShardId) (shards : List EcVolumeShard) (k : Nat) (found : Option Nat) :
    ((shards.zipIdx k).foldl (fun found (s, i) => if s.shardId == id then some i else found) found
        = found ∧ ∀ s ∈ shards, s.shardId ≠ id) ∨
    ∃ i s, (shards.zipIdx k).foldl (fun found (s, i) => if s.shardId == id then some i else found) found
        = some (k + i) ∧ shards[i]? = some s ∧ s.shardId = id := by
  induction shards generalizing k found with
  | nil => exact .inl ⟨rfl, fun s hs => nomatch hs⟩
  | cons s shards ih =>
    rw [zipIdx_cons, foldl_cons]
    rcases ih (k + 1) (if s.shardId == id then some k else found) with ⟨heq, hne⟩ | ⟨i, t, heq, ht, hid⟩
    · by_cases hs : s.shardId = id
      · exact .inr ⟨0, s, by rw [heq, if_pos (beq_iff_eq.2 hs)]; rfl, rfl, hs⟩
      · refine .inl ⟨by rw [heq, if_neg (by simpa using hs)], ?_⟩
        exact forall_mem_cons.2 ⟨hs, hne⟩
    · exact .inr ⟨i + 1, t, by rw [heq]; congr 1; omega, ht, hid⟩

theorem deleteEcVolumeShard_sublist (ev : EcVolume) (id : ShardId) :
    (ev.deleteEcVolumeShard id).1.shards.Sublist ev.shards := by
  unfold deleteEcVolumeShard
  split
  · exact List.Sublist.refl _
  · exact eraseIdx_sublist ..

/-- **The shard of the id is deleted**, and no other. -/
theorem mem_deleteEcVolumeShard {ev : EcVolume}
    (hnodup : ev.shards.Pairwise fun a b => a.shardId ≠ b.shardId) (id : ShardId) (t : EcVolumeShard) :
    t ∈ (ev.deleteEcVolumeShard id).1.shards ↔ t ∈ ev.shards ∧ t.shardId ≠ id := by
  unfold deleteEcVolumeShard foundPosition
  rcases foldl_foundPosition id ev.shards 0 none with ⟨heq, hne⟩ | ⟨i, s, heq, hget, rfl⟩
  · rw [heq]
    exact ⟨fun h => ⟨h, hne t h⟩, And.left⟩
  · rw [heq, zero_add]
    obtain ⟨hi, rfl⟩ := List.getElem?_eq_some_iff.1 hget
    have hsplit : ev.shards = ev.shards.take i ++ ev.shards[i] :: ev.shards.drop (i + 1) := by
      rw [← drop_eq_getElem_cons hi, take_append_drop]
    rw [hsplit, pairwise_append, pairwise_cons] at hnodup
    show t ∈ ev.shards.eraseIdx i ↔ _
    rw [eraseIdx_eq_take_drop_succ, mem_append]
    constructor
    · rintro (ht | ht)
      · exact ⟨mem_of_mem_take ht, hnodup.2.2 t ht _ mem_cons_self⟩
      · exact ⟨mem_of_mem_drop ht, (hnodup.2.1.1 t ht).symm⟩
    · rintro ⟨ht, hne⟩
      rw [hsplit, mem_append, mem_cons] at ht
      rcases ht with ht | rfl | ht
      · exact .inl ht
      · exact absurd rfl hne
      · exact .inr ht

/-! ## Runs -/

/-- The shards that are mounted after a call: an id that is mounted is not added again. -/
def ShardOp.mounts (m : ShardId → Option Int) : ShardOp → ShardId → Option Int
  | .add shard =>
    if (m shard.shardId).isSome then m
    else Function.update m shard.shardId (some shard.ecdFileSize)
  | .delete shardId => Function.update m shardId none

section
variable (sort : ShardSort)
variable {ev : EcVolume} {m : ShardId → Option Int}

section

variable (hm : Mounts ev m)
include hm

theorem Mounts.any (id : ShardId) : ev.shards.any (·.shardId == id) = (m id).isSome := by
  rw [Bool.eq_iff_iff, hm.isSome, any_eq_true]
  simp only [beq_iff_eq]

/-- **No shard is there twice**, whatever the calls. -/
theorem Mounts.apply (op : ShardOp) : Mounts (op.apply sort ev) (op.mounts m) := by
  cases op with
  | add shard =>
    dsimp only [ShardOp.apply, ShardOp.mounts]
    have hshards := addEcVolumeShard_eq sort ev shard
    rw [hm.any] at hshards
    by_cases hid : (m shard.shardId).isSome = true
    · rw [if_pos hid] at hshards ⊢
      exact ⟨by rw [hshards]; exact hm.nodup, by rw [hshards]; exact hm.get⟩
    · rw [if_neg hid] at hshards ⊢
      have hnew : ∀ s ∈ ev.shards, s.shardId ≠ shard.shardId :=
        fun s hs heq => hid (hm.isSome.2 ⟨s, hs, heq⟩)
      refine ⟨?_, fun id size => ?_⟩
      · rw [hshards, pairwise_append]
        exact ⟨hm.nodup, pairwise_singleton _ _, fun a ha => forall_mem_singleton.2 (hnew a ha)⟩
      · rw [hshards, update_apply]
        by_cases heq : id = shard.shardId
        · rw [if_pos heq, Option.some.injEq]
          constructor
          · exact fun hsize => ⟨shard, by simp, heq.symm, hsize⟩
          · rintro ⟨s, hs, hid', hsize⟩
            rcases mem_append.1 hs with hs | hs
            · exact absurd (hid'.trans heq) (hnew s hs)
            · rw [← mem_singleton.1 hs]
              exact hsize
        · rw [if_neg heq, hm.get]
          constructor
          · rintro ⟨s, hs, hrest⟩
            exact ⟨s, mem_append_left _ hs, hrest⟩
          · rintro ⟨s, hs, hid', hsize⟩
            rcases mem_append.1 hs with hs | hs
            · exact ⟨s, hs, hid', hsize⟩
            · rw [mem_singleton.1 hs] at hid'
              exact absurd hid'.symm heq
  | delete shardId =>
    dsimp only [ShardOp.apply, ShardOp.mounts]
    refine ⟨hm.nodup.sublist (deleteEcVolumeShard_sublist ev shardId), fun id size => ?_⟩
    simp only [mem_deleteEcVolumeShard hm.nodup, update_apply]
    by_cases heq : id = shardId
    · rw [if_pos heq]
      refine ⟨fun h => (nomatch h), ?_⟩
      rintro ⟨s, ⟨-, hne⟩, hid, -⟩
      exact absurd (hid.trans heq) hne
    · rw [if_neg heq, hm.get]
      refine exists_congr fun s => ?_
      constructor
      · rintro ⟨hs, rfl, hsize⟩
        exact ⟨⟨hs, heq⟩, rfl, hsize⟩
      · rintro ⟨⟨hs, -⟩, hrest⟩
        exact ⟨hs, hrest⟩

/-- The volume's shards are sorted, and what it reports is right. -/
def Reports (ev : EcVolume) (m : ShardId → Option Int) : Prop :=
  SortedShards ev ∧ AnswersFor (shardsInfoFromVolume ev) m

/-- A shard that is added has an id above those that are mounted, and below `MaxShardCount`. -/
def ShardOp.InOrder (m : ShardId → Option Int) : ShardOp → Prop
  | .add shard =>
    (m shard.shardId).isSome ∨
      shard.shardId.toNat < maxShardCount ∧ ∀ id, (m id).isSome → id < shard.shardId
  | .delete _ => True

/-- The shards are added in the order of their ids. -/
def AddedInOrder : (ShardId → Option Int) → List ShardOp → Prop
  | _, [] => True
  | m, op :: ops => op.InOrder m ∧ AddedInOrder (op.mounts m) ops

theorem Mounts.reports_iff :
    Reports ev m ↔ SortedShards ev ∧ ∀ s ∈ ev.shards, s.shardId.toNat < maxShardCount :=
  and_congr_right hm.answersFor_iff

/-- **One call** keeps what the volume reports right when it is in order, and only then. -/
theorem Reports.apply_iff (h : Reports ev m) (op : ShardOp) :
    Reports (op.apply sort ev) (op.mounts m) ↔ op.InOrder m := by
  rw [(hm.apply sort op).reports_iff]
  obtain ⟨hsorted, hlt⟩ := hm.reports_iff.1 h
  cases op with
  | add shard =>
    dsimp only [ShardOp.apply, SortedShards]
    rw [addEcVolumeShard_eq, hm.any]
    by_cases hid : (m shard.shardId).isSome = true
    · rw [if_pos hid]
      exact ⟨fun _ => .inl hid, fun _ => ⟨hsorted, hlt⟩⟩
    · rw [if_neg hid, pairwise_append]
      constructor
      · rintro ⟨⟨-, -, hbefore⟩, hlt'⟩
        refine .inr ⟨hlt' shard (by simp), fun id hsome => ?_⟩
        obtain ⟨s, hs, rfl⟩ := hm.isSome.1 hsome
        exact hbefore s hs shard (mem_singleton.2 rfl)
      · rintro (hsome | ⟨hshard, hbefore⟩)
        · exact absurd hsome hid
        · exact ⟨⟨hsorted, pairwise_singleton _ _, fun a ha =>
            forall_mem_singleton.2 (hbefore _ (hm.isSome.2 ⟨a, ha, rfl⟩))⟩,
            forall_mem_append.2 ⟨hlt, forall_mem_singleton.2 hshard⟩⟩
  | delete shardId =>
    have hsub := deleteEcVolumeShard_sublist ev shardId
    exact ⟨fun _ => trivial, fun _ => ⟨hsorted.sublist hsub, fun s hs => hlt s (hsub.subset hs)⟩⟩

theorem Reports.run_iff (h : Reports ev m) (ops : List ShardOp) :
    (∀ calls, calls <+: ops → Reports (ShardOp.run sort calls ev) (calls.foldl ShardOp.mounts m)) ↔
      AddedInOrder m ops := by
  induction ops generalizing ev m with
  | nil =>
    refine ⟨fun _ => trivial, fun _ calls hcalls => ?_⟩
    rw [prefix_nil.1 hcalls]
    exact h
  | cons op ops ih =>
    have hm' := hm.apply sort op
    constructor
    · intro hall
      have h' := hall [op] (prefix_append [op] ops)
      refine ⟨(Reports.apply_iff sort hm h op).1 h', (ih hm' h').1 fun calls hcalls => ?_⟩
      exact hall (op :: calls) (cons_prefix_cons.2 ⟨rfl, hcalls⟩)
    · rintro ⟨horder, hrest⟩ calls hcalls
      have h' := (Reports.apply_iff sort hm h op).2 horder
      rcases prefix_cons_iff.1 hcalls with rfl | ⟨calls, rfl, hrun⟩
      · exact h
      · exact (ih hm' h').2 hrest calls hrun

end

end

theorem mounts_newEcVolume (volumeInfo : Option VolumeInfo) :
    Mounts (newEcVolume volumeInfo) fun _ => none := by
  have hnil : (newEcVolume volumeInfo).shards = [] := by cases volumeInfo <;> rfl
  refine ⟨by rw [hnil]; exact .nil, fun id size => ?_⟩
  rw [hnil]
  simp

theorem reports_newEcVolume (volumeInfo : Option VolumeInfo) :
    Reports (newEcVolume volumeInfo) fun _ => none := by
  have hnil : (newEcVolume volumeInfo).shards = [] := by cases volumeInfo <;> rfl
  rw [(mounts_newEcVolume volumeInfo).reports_iff, SortedShards, hnil]
  exact ⟨.nil, fun s hs => nomatch hs⟩

/-- **The shards stay sorted**, and what the volume reports is right, exactly when they are added in the order of
their ids. -/
theorem shards_sorted (sort : ShardSort) (volumeInfo : Option VolumeInfo) (ops : List ShardOp) :
    (∀ calls, calls <+: ops →
      Reports (ShardOp.run sort calls (newEcVolume volumeInfo))
        (calls.foldl ShardOp.mounts fun _ => none)) ↔
    AddedInOrder (fun _ => none) ops :=
  Reports.run_iff sort (mounts_newEcVolume volumeInfo) (reports_newEcVolume volumeInfo) ops

/-- Shard 1 is mounted behind shard 2: the shards are not sorted, and the size of shard 1 is not found. -/
theorem shards_unsorted :
    let ev := ShardOp.run insertionSort [.add ⟨7, 2, 100⟩, .add ⟨7, 1, 100⟩] (newEcVolume none)
    ¬ SortedShards ev ∧
    (shardsInfoFromVolume ev).has 1 = true ∧ (shardsInfoFromVolume ev).size 1 = 0 := by
  decide

end ErasureCoding
