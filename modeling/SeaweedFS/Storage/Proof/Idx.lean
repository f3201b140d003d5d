import SeaweedFS.Storage.Idx

/-!
# The entries of an index file

`WalkIndexFile` calls its function with the entries of the file in order, whatever the blocks
(`walkIndexFile_eq`); an incomplete entry at the end is skipped. Appending an entry's bytes appends the
entry (`rowsOf_flatMap`).
-/

namespace Storage

open Lib Util List

/-- An entry of an index file. -/
abbrev IdxEntry := NeedleId × Offset × Size

/-- The first `n` entries. -/
def rowList : Nat → List UInt8 → List IdxEntry
  | 0, _ => []
  | n + 1, bytes => idxFileEntry (bytes.take needleMapEntrySize) ::
      rowList n (bytes.drop needleMapEntrySize)

/-- The entries of a file. -/
def rowsOf (bytes : List UInt8) : List IdxEntry := rowList (bytes.length / needleMapEntrySize) bytes

theorem needleMapEntrySize_eq : needleMapEntrySize = 16 := rfl

theorem rowList_append {n : Nat} {a : List UInt8} (h : a.length = n * 16) (k : Nat)
    (b : List UInt8) : rowList (n + k) (a ++ b) = rowList n a ++ rowList k b := by
  induction n generalizing a with
  | zero =>
    obtain rfl : a = [] := eq_nil_of_length_eq_zero (by omega)
    simp [rowList]
  | succ n ih =>
    have htake : (a ++ b).take 16 = a.take 16 := take_append_of_le_length (by omega)
    have hdrop : (a ++ b).drop 16 = a.drop 16 ++ b := drop_append_of_le_length (by omega)
    rw [Nat.add_right_comm, rowList, rowList, needleMapEntrySize_eq, htake, hdrop,
      ih (by rw [length_drop]; omega), cons_append]

theorem rowsOf_append {a : List UInt8} (h : a.length % 16 = 0) (b : List UInt8) :
    rowsOf (a ++ b) = rowsOf a ++ rowsOf b := by
  have hlen : (a ++ b).length / 16 = a.length / 16 + b.length / 16 := by
    rw [length_append]
    omega
  rw [rowsOf, rowsOf, rowsOf, needleMapEntrySize_eq, hlen, rowList_append (by omega)]

/-! ## Round trip -/

@[simp] theorem length_toBytes (key : NeedleId) (offset : Offset) (size : Size) :
    (toBytes key offset size).length = 16 := by simp [toBytes]

theorem idxFileEntry_toBytes (key : NeedleId) (offset : Offset) (size : Size) :
    idxFileEntry (toBytes key offset size) = (key, offset, size) := by
  have h1 : (toBytes key offset size).take needleIdSize = needleIdToBytes key := rfl
  have h2 : ((toBytes key offset size).drop needleIdSize).take offsetSize = offsetToBytes offset := rfl
  have h3 : ((toBytes key offset size).drop (needleIdSize + offsetSize)).take sizeSize =
      sizeToBytes size := rfl
  rw [idxFileEntry, h1, h2, h3, bytesToNeedleId_needleIdToBytes, bytesToOffset_offsetToBytes,
    bytesToSize_sizeToBytes]

/-- The bytes of an entry. -/
def IdxEntry.bytes (e : IdxEntry) : List UInt8 := toBytes e.1 e.2.1 e.2.2

/-- **Round trip** of a log. -/
theorem rowsOf_flatMap (entries : List IdxEntry) : rowsOf (entries.flatMap IdxEntry.bytes) = entries := by
  induction entries with
  | nil => rfl
  | cons e entries ih =>
    have hone : rowsOf (IdxEntry.bytes e) = [e] := by
      rw [rowsOf, IdxEntry.bytes, length_toBytes]
      show [idxFileEntry ((toBytes e.1 e.2.1 e.2.2).take 16)] = [e]
      rw [take_of_length_le (by simp), idxFileEntry_toBytes]
    rw [flatMap_cons, rowsOf_append (by simp [IdxEntry.bytes]), ih, hone]
    rfl

theorem length_flatMap_bytes (entries : List IdxEntry) :
    (entries.flatMap IdxEntry.bytes).length = entries.length * 16 := by
  induction entries with
  | nil => rfl
  | cons e entries ih =>
    rw [flatMap_cons, length_append, IdxEntry.bytes, length_toBytes, length_cons]
    omega

/-! ## The log -/

/-- What the last entry of `key` in the log says. -/
def lastRow (log : List IdxEntry) (key : NeedleId) : Option (Offset × Size) :=
  log.foldl (fun found e => if e.1 = key then some e.2 else found) none

theorem lastRow_append (log : List IdxEntry) (e : IdxEntry) (key : NeedleId) :
    lastRow (log ++ [e]) key = if e.1 = key then some e.2 else lastRow log key := by
  rw [lastRow, foldl_append]
  rfl

variable {log : List IdxEntry}

theorem mem_of_lastRow {key : NeedleId} {e : Offset × Size}
    (h : lastRow log key = some e) : (key, e) ∈ log := by
  induction log using List.reverseRecOn with
  | nil => cases h
  | append_singleton log e' ih =>
    rw [lastRow_append] at h
    split at h
    · rename_i hkey
      cases h
      exact mem_append_right _ (List.mem_singleton.2 (Prod.ext hkey.symm rfl))
    · exact mem_append_left _ (ih h)

theorem lastRow_ne_none {e : IdxEntry} (h : e ∈ log) : lastRow log e.1 ≠ none := by
  induction log using List.reverseRecOn with
  | nil => cases h
  | append_singleton log e' ih =>
    rw [lastRow_append]
    split
    · exact Option.some_ne_none _
    · rename_i hne
      rcases List.mem_append.1 h with h | h
      · exact ih h
      · exact absurd (congrArg Prod.fst (List.mem_singleton.1 h)).symm hne

theorem lastRow_append_log (log log' : List IdxEntry) (key : NeedleId) :
    lastRow (log ++ log') key = (lastRow log' key).or (lastRow log key) := by
  induction log' using List.reverseRecOn with
  | nil => simp [lastRow]
  | append_singleton log' e ih =>
    rw [← append_assoc, lastRow_append, lastRow_append, ih]
    split <;> rfl

/-! ## The walk -/

section
variable {σ ε : Type} (fn : σ → NeedleId → Offset → Size → Except ε σ)

/-- `fn` on an entry. -/
def onEntry (s : σ) (e : IdxEntry) : Except ε σ := fn s e.1 e.2.1 e.2.2

theorem walkRows_eq (n : Nat) (bytes : List UInt8) (s : σ) :
    walkRows fn n bytes s = (rowList n bytes).foldlM (onEntry fn) s := by
  induction n generalizing bytes s with
  | zero => rfl
  | succ n ih =>
    show (onEntry fn s (idxFileEntry (bytes.take needleMapEntrySize)) >>= _) = _
    congr 1
    funext s
    exact ih _ s

theorem walkLoop_eq (r : File) (fuel off : Nat) (s : σ) (hfuel : r.length - off + 2 ≤ fuel) :
    walkLoop fn r fuel (off + ((r.drop off).take 16384).length) ((r.drop off).take 16384)
      (decide (((r.drop off).take 16384).length < 16384)) s =
      (rowsOf (r.drop off)).foldlM (onEntry fn) s := by
  induction fuel generalizing off s with
  | zero => omega
  | succ fuel ih =>
    rw [walkLoop]
    by_cases heof : ((r.drop off).take 16384).length < 16384
    · -- the last block
      have hall : (r.drop off).take 16384 = r.drop off := by
        rw [take_eq_self_iff]
        rw [length_take] at heof
        omega
      rw [hall] at heof ⊢
      rw [decide_eq_true heof, if_pos (.inr rfl)]
      dsimp only
      rw [walkRows_eq]
      show ((rowsOf (r.drop off)).foldlM (onEntry fn) s >>= _) = _
      by_cases hrows : (r.drop off).length / needleMapEntrySize = 0
      · rw [hrows]
        simp
      · -- `io.EOF` is lost, and one more read finds the end
        have hend : r.drop (off + (r.drop off).length) = [] := by
          rw [drop_eq_nil_iff, length_drop]
          omega
        have hlen : off + 16 ≤ r.length := by
          rw [length_drop, needleMapEntrySize_eq] at hrows
          omega
        have hdec : ((r.drop off).length / needleMapEntrySize == 0) = false := by simpa using hrows
        rw [hdec]
        conv_rhs => rw [← bind_pure ((rowsOf (r.drop off)).foldlM (onEntry fn) s)]
        congr 1
        funext s'
        have hnil : rowsOf (r.drop (off + (r.drop off).length)) = [] := by rw [hend]; rfl
        have hrest := ih (off + (r.drop off).length) s' (by rw [length_drop]; omega)
        rw [hnil] at hrest
        exact hrest
    · have hblock : ((r.drop off).take 16384).length = 16384 := by
        rw [length_take] at heof ⊢
        omega
      have hlen : off + 16384 ≤ r.length := by
        rw [length_take, length_drop] at hblock
        omega
      have hsplit : rowsOf (r.drop off) =
          rowsOf ((r.drop off).take 16384) ++ rowsOf (r.drop (off + 16384)) := by
        rw [← rowsOf_append (by rw [hblock]), ← drop_drop, take_append_drop]
      rw [decide_eq_false heof, if_pos (.inl ⟨by omega, rfl⟩), hsplit, foldlM_append]
      dsimp only
      rw [walkRows_eq]
      congr 1
      funext s'
      simp only [hblock]
      exact ih (off + 16384) s' (by omega)

/-- **The walk** over the entries from `startFrom` on. -/
theorem walkIndexFile_eq (r : File) (startFrom : Nat) (s : σ) :
    walkIndexFile fn r startFrom s = (rowsOf (r.drop (startFrom * 16))).foldlM (onEntry fn) s := by
  have hwalk := walkLoop_eq fn r (r.length + 2) (startFrom * 16) s (by omega)
  unfold walkIndexFile
  dsimp only [File.readAt]
  split
  · rename_i h
    have hnil : r.drop (startFrom * 16) = [] := by
      have hlen := h.1
      rw [length_take, needleMapEntrySize_eq, rowsToRead] at hlen
      exact eq_nil_of_length_eq_zero (by omega)
    rw [hnil]
    rfl
  · exact hwalk

/-- **Round trip**: a walk from behind `pre` on visits the entries that were appended, in order. -/
theorem walkIndexFile_log (pre log : List IdxEntry) (s : σ) :
    walkIndexFile fn ((pre ++ log).flatMap IdxEntry.bytes) pre.length s = log.foldlM (onEntry fn) s := by
  rw [walkIndexFile_eq, flatMap_append, ← length_flatMap_bytes, drop_left, rowsOf_flatMap]

end

end Storage
