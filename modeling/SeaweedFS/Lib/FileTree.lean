import SeaweedFS.Lib.SortedMap

/-!
# A tree of files

Directories and files by their paths from `/`. That everything stands in a directory is a field of the
tree. `mkdirAll` makes the directories on the way to a path (`get_mkdirAll`), `writeFile` replaces the
content of one file (`get_writeFile`), and nothing else changes.
-/

namespace Lib

open List

/-- The name of a file, in bytes. -/
abbrev Name := List UInt8

/-- The names on the way from `/`. -/
abbrev Path := List Name

/-- What stands at a path. -/
inductive Node where
  | dir
  | file (content : List UInt8)
deriving DecidableEq, Repr

/-- Why a system call fails. -/
inductive Errno where
  | notExist
  | notDir
  | isDir
  | invalid
deriving DecidableEq, Repr

/-- A name that a file can have. -/
def ValidName (n : Name) : Prop := n ≠ [] ∧ n ≠ [0x2e] ∧ n ≠ [0x2e, 0x2e] ∧ 0x2f ∉ n ∧ 0 ∉ n

instance (n : Name) : Decidable (ValidName n) := inferInstanceAs (Decidable (_ ∧ _))

/-- Directories and files. -/
structure FileTree where
  nodes : SortedMap Path Node
  root : nodes.get [] = some .dir
  closed : ∀ p n, (nodes.get (p ++ [n])).isSome → nodes.get p = some .dir
  valid : ∀ p n, (nodes.get (p ++ [n])).isSome → ValidName n

namespace FileTree

variable {fs fs' : FileTree} {p q : Path} {n : Name}

/-- What stands at `p`. -/
def get (fs : FileTree) (p : Path) : Option Node := fs.nodes.get p

/-- Only `/`. -/
def empty : FileTree where
  nodes := SortedMap.empty.insert [] .dir
  root := by rw [SortedMap.get_insert, if_pos rfl]
  closed p n h := by simp [SortedMap.get_insert] at h
  valid p n h := by simp [SortedMap.get_insert] at h

theorem get_of_append (fs : FileTree) {r : Path} (hr : r ≠ []) (h : (fs.get (p ++ r)).isSome) :
    fs.get p = some .dir := by
  induction r using List.reverseRecOn with
  | nil => exact absurd rfl hr
  | append_singleton r n ih =>
    have hd : fs.get (p ++ r) = some .dir := fs.closed (p ++ r) n (by rwa [append_assoc])
    rcases eq_nil_or_concat r with rfl | ⟨r', m, hr'⟩
    · rwa [append_nil] at hd
    · exact ih (by simp [hr']) (by rw [hd]; rfl)

theorem get_dir_above (hq : q <+: p) (hp : fs.get p = some .dir) : fs.get q = some .dir := by
  obtain ⟨r, rfl⟩ := hq
  cases r with
  | nil => rwa [append_nil] at hp
  | cons n r => exact fs.get_of_append (cons_ne_nil n r) (by rw [hp]; rfl)

/-- The tree with `node` at `n` in the directory `p`, where there is no directory yet. -/
def put (fs : FileTree) (p : Path) (n : Name) (node : Node) (hp : fs.nodes.get p = some .dir)
    (hn : fs.nodes.get (p ++ [n]) ≠ some .dir) (hv : ValidName n) : FileTree where
  nodes := fs.nodes.insert (p ++ [n]) node
  root := by
    rw [SortedMap.get_insert, if_neg (by simp)]
    exact fs.root
  closed := by
    intro q m hq
    rw [SortedMap.get_insert] at hq ⊢
    split at hq
    · rename_i heq
      obtain ⟨rfl, -⟩ := append_inj' heq rfl
      rwa [if_neg (by simp)]
    · rename_i hne
      have hdir := fs.closed q m hq
      rwa [if_neg]
      rintro rfl
      exact hn hdir
  valid := by
    intro q m hq
    rw [SortedMap.get_insert] at hq
    split at hq
    · rename_i heq
      obtain ⟨-, heq⟩ := append_inj' heq rfl
      cases heq
      exact hv
    · exact fs.valid q m hq

theorem get_put (hp : fs.nodes.get p = some .dir) (hn : fs.nodes.get (p ++ [n]) ≠ some .dir)
    (hv : ValidName n) (node : Node) (q : Path) :
    (fs.put p n node hp hn hv).get q = if p ++ [n] = q then some node else fs.get q :=
  SortedMap.get_insert _ _ _ _

/-- `stat`. -/
def stat (fs : FileTree) (p : Path) : Except Errno Node :=
  match fs.get p with
  | some node => .ok node
  | none =>
    if ∃ n ∈ p, ¬ ValidName n then .error .invalid
    -- a file on the way
    else if ∃ q ∈ p.inits, ∃ node ∈ fs.get q, node ≠ .dir then .error .notDir
    else .error .notExist

/-- The content of a file. -/
def readFile (fs : FileTree) (p : Path) : Except Errno (List UInt8) :=
  match fs.stat p with
  | .ok (.file content) => .ok content
  | .ok .dir => .error .isDir
  | .error e => .error e

/-- The entries of a directory, by their names. -/
def readDir (fs : FileTree) (p : Path) : Except Errno (List (Name × Node)) :=
  match fs.stat p with
  | .ok .dir => .ok <| fs.nodes.entries.filterMap fun e =>
      if e.1.dropLast = p ∧ e.1 ≠ [] then some (e.1.getLastD [], e.2) else none
  | .ok (.file _) => .error .notDir
  | .error e => .error e

/-- `MkdirAll`, from the directory `p` on. -/
def mkdirFrom (fs : FileTree) (p : Path) (hp : fs.nodes.get p = some .dir) :
    List Name → Except Errno FileTree
  | [] => .ok fs
  | n :: rest =>
    match h : fs.nodes.get (p ++ [n]) with
    | some .dir => fs.mkdirFrom (p ++ [n]) h rest
    | some (.file _) => .error .notDir
    | none =>
      if hv : ValidName n then
        (fs.put p n .dir hp (by simp [h]) hv).mkdirFrom (p ++ [n])
          ((get_put hp _ hv _ _).trans (if_pos rfl)) rest
      else .error .invalid

/-- `MkdirAll`. -/
def mkdirAll (fs : FileTree) (p : Path) : Except Errno FileTree := fs.mkdirFrom [] fs.root p

/-- A file is replaced by one with `content`, as by a rename. -/
def writeFile (fs : FileTree) (p : Path) (content : List UInt8) : Except Errno FileTree :=
  match p.getLast? with
  | none => .error .isDir
  | some n =>
    match hd : fs.nodes.get p.dropLast with
    | some .dir =>
      if hn : fs.nodes.get (p.dropLast ++ [n]) = some .dir then .error .isDir
      else if hv : ValidName n then .ok (fs.put p.dropLast n (.file content) hd hn hv)
      else .error .invalid
    | some (.file _) => .error .notDir
    | none => .error .notExist

/-! ## What the calls do -/

variable {hp : fs.nodes.get p = some .dir} {rest : List Name}

theorem get_mkdirFrom (h : fs.mkdirFrom p hp rest = .ok fs') (q : Path) :
    fs'.get q = if p <+: q ∧ q <+: p ++ rest then some .dir else fs.get q := by
  induction rest generalizing fs p with
  | nil =>
    cases h
    split
    · rename_i hq
      rw [append_nil] at hq
      rw [List.IsPrefix.eq_of_length_le hq.2 hq.1.length_le]
      exact hp
    · rfl
  | cons n rest ih =>
    -- the paths from `p` on are `p` and those from `p ++ [n]` on
    have hstep : (p <+: q ∧ q <+: p ++ n :: rest) ↔
        q = p ∨ (p ++ [n] <+: q ∧ q <+: p ++ [n] ++ rest) := by
      rw [append_cons]
      constructor
      · rintro ⟨⟨r, rfl⟩, hr⟩
        cases r with
        | nil => exact .inl (append_nil p)
        | cons m r =>
          have hr' := hr
          rw [append_assoc, prefix_append_right_inj] at hr'
          obtain ⟨rfl, -⟩ := List.cons_prefix_cons.1 hr'
          exact .inr ⟨⟨r, by simp⟩, hr⟩
      · rintro (rfl | ⟨h1, h2⟩)
        · exact ⟨prefix_rfl, ⟨n :: rest, by simp⟩⟩
        · exact ⟨(prefix_append p [n]).trans h1, h2⟩
    rw [mkdirFrom] at h
    split at h
    · rw [ih h]
      by_cases hq : q = p
      · subst hq
        rw [if_neg (fun hpre => by have := hpre.1.length_le; simp at this), if_pos (hstep.2 (.inl rfl))]
        exact hp
      · simp only [hstep, hq, false_or]
    · cases h
    · split at h
      · rw [ih h, get_put]
        by_cases hq : q = p
        · subst hq
          rw [if_neg (fun hpre => by have := hpre.1.length_le; simp at this),
            if_neg (by simp), if_pos (hstep.2 (.inl rfl))]
          exact hp
        · simp only [hstep, hq, false_or]
          split
          · rfl
          · rename_i hpre
            rw [if_neg]
            rintro rfl
            exact hpre ⟨prefix_rfl, prefix_append _ _⟩
      · cases h

theorem get_mkdirAll (h : fs.mkdirAll p = .ok fs') (q : Path) :
    fs'.get q = if q <+: p then some .dir else fs.get q := by
  rw [get_mkdirFrom h, nil_append]
  simp

theorem no_file_of_mkdirFrom
    (h : fs.mkdirFrom p hp rest = .ok fs') {r : List Name} (hr : r <+: rest) (content : List UInt8) :
    fs.get (p ++ r) ≠ some (.file content) := by
  induction rest generalizing fs p r with
  | nil =>
    rw [List.prefix_nil.1 hr, append_nil]
    intro hfile
    rw [get, hp] at hfile
    cases hfile
  | cons n rest ih =>
    intro hfile
    cases r with
    | nil =>
      rw [append_nil, get, hp] at hfile
      cases hfile
    | cons m r =>
      obtain ⟨rfl, hr'⟩ := List.cons_prefix_cons.1 hr
      rw [append_cons] at hfile
      rw [mkdirFrom] at h
      split at h
      · exact ih h hr' hfile
      · cases h
      · rename_i hnone
        -- nothing is below what is not there
        cases r with
        | nil =>
          rw [append_nil, get, hnone] at hfile
          cases hfile
        | cons k r =>
          have := fs.get_of_append (cons_ne_nil k r) (congrArg Option.isSome hfile)
          rw [get, hnone] at this
          cases this

theorem no_file_of_mkdirAll (h : fs.mkdirAll p = .ok fs') (hq : q <+: p) (content : List UInt8) :
    fs.get q ≠ some (.file content) :=
  no_file_of_mkdirFrom h hq content

variable {content : List UInt8}

theorem get_writeFile (h : fs.writeFile p content = .ok fs') :
    fs.get p ≠ some .dir ∧ fs.get p.dropLast = some .dir ∧
      ∀ q, fs'.get q = if p = q then some (.file content) else fs.get q := by
  unfold writeFile at h
  split at h
  · cases h
  · rename_i n hl
    have hp : p.dropLast ++ [n] = p := dropLast_append_getLast? n hl
    split at h
    · rename_i hd
      split at h
      · cases h
      · rename_i hn
        split at h
        · cases h
          rw [hp] at hn
          refine ⟨hn, hd, fun q => ?_⟩
          rw [get_put, hp]
        · cases h
    · cases h
    · cases h

theorem stat_none (h : fs.get p = none) : ∃ e, fs.stat p = .error e := by
  rw [stat, h]
  simp only
  split
  · exact ⟨_, rfl⟩
  · split
    · exact ⟨_, rfl⟩
    · exact ⟨_, rfl⟩

theorem stat_some {node : Node} (h : fs.get p = some node) : fs.stat p = .ok node := by rw [stat, h]

theorem valid_of_mem (h : (fs.get p).isSome) : ∀ n ∈ p, ValidName n := by
  intro n hn
  obtain ⟨a, b, rfl⟩ := append_of_mem hn
  refine fs.valid a n ?_
  cases b with
  | nil => exact h
  | cons m b =>
    rw [append_cons] at h
    exact (congrArg Option.isSome (fs.get_of_append (by simp) h)).trans rfl

theorem stat_eq_notExist : fs.stat p = .error .notExist ↔
    fs.get p = none ∧ (∀ n ∈ p, ValidName n) ∧ ∀ q, q <+: p → ∀ content, fs.get q ≠ some (.file content) := by
  unfold stat
  cases hget : fs.get p with
  | some node => simp
  | none =>
    simp only [true_and]
    by_cases hv : ∃ n ∈ p, ¬ ValidName n
    · rw [if_pos hv]
      refine ⟨fun h => (nomatch h), fun h => ?_⟩
      obtain ⟨n, hn, hbad⟩ := hv
      exact absurd (h.1 n hn) hbad
    · rw [if_neg hv]
      by_cases hf : ∃ q ∈ p.inits, ∃ node ∈ fs.get q, node ≠ .dir
      · rw [if_pos hf]
        refine ⟨fun h => (nomatch h), fun h => ?_⟩
        obtain ⟨q, hq, node, hnode, hdir⟩ := hf
        cases node with
        | dir => exact absurd rfl hdir
        | file content => exact absurd hnode (h.2 q ((mem_inits q p).1 hq) content)
      · rw [if_neg hf]
        push Not at hv hf
        refine ⟨fun _ => ⟨hv, fun q hq content hc => ?_⟩, fun _ => rfl⟩
        exact nomatch hf q ((mem_inits q p).2 hq) _ hc

theorem stat_child (hp : fs.get p = some .dir) (hn : fs.get (p ++ [n]) = none) (hv : ValidName n) :
    fs.stat (p ++ [n]) = .error .notExist := by
  refine stat_eq_notExist.2 ⟨hn, forall_mem_append.2 ⟨valid_of_mem (by rw [hp]; rfl), forall_mem_singleton.2 hv⟩,
    fun q hq content hc => ?_⟩
  rcases List.prefix_concat_iff.1 hq with rfl | hq
  · rw [hn] at hc
    cases hc
  · rw [get_dir_above hq hp] at hc
    cases hc

theorem stat_below (hp : fs.stat p = .error .notExist) (hv : ValidName n) :
    fs.stat (p ++ [n]) = .error .notExist := by
  obtain ⟨hnone, hnames, hfiles⟩ := stat_eq_notExist.1 hp
  have hn : fs.get (p ++ [n]) = none := by
    cases hget : fs.get (p ++ [n]) with
    | none => rfl
    | some node =>
      rw [fs.get_of_append (p := p) (cons_ne_nil n []) (by rw [hget]; rfl)] at hnone
      cases hnone
  refine stat_eq_notExist.2 ⟨hn, forall_mem_append.2 ⟨hnames, forall_mem_singleton.2 hv⟩, fun q hq content hc => ?_⟩
  rcases List.prefix_concat_iff.1 hq with rfl | hq
  · rw [hn] at hc
    cases hc
  · exact hfiles q hq content hc

/-- What `stat` sees of a path: what is there, and the files on the way. -/
theorem stat_congr (hp : fs'.get p = fs.get p)
    (hfiles : ∀ q, q <+: p → ∀ content, fs'.get q = some (.file content) ↔ fs.get q = some (.file content)) :
    fs'.stat p = fs.stat p := by
  have hany : (∃ q ∈ p.inits, ∃ node ∈ fs'.get q, node ≠ .dir) ↔
      ∃ q ∈ p.inits, ∃ node ∈ fs.get q, node ≠ .dir := by
    refine exists_congr fun q => and_congr_right fun hq => exists_congr fun node => ?_
    cases node with
    | dir => simp
    | file content => exact and_congr_left' (hfiles q ((mem_inits q p).1 hq) content)
  unfold stat
  rw [hp]
  simp only [hany]

theorem readFile_of_stat_error {e : Errno} (h : fs.stat p = .error e) : fs.readFile p = .error e := by
  rw [readFile, h]

theorem readFile_eq_ok : fs.readFile p = .ok content ↔ fs.get p = some (.file content) := by
  unfold readFile
  cases hget : fs.get p with
  | none =>
    obtain ⟨e, he⟩ := stat_none hget
    simp [he]
  | some node =>
    rw [stat, hget]
    cases node <;> simp

theorem readDir_eq_ok {entries : List (Name × Node)} (h : fs.readDir p = .ok entries) :
    fs.get p = some .dir ∧ (entries.map Prod.fst).Nodup ∧
      ∀ n node, (n, node) ∈ entries ↔ fs.get (p ++ [n]) = some node := by
  -- an entry stands at the name that is its last one
  have hlast : ∀ q : Path, q.dropLast = p ∧ q ≠ [] → p ++ [q.getLastD []] = q := by
    rintro q ⟨rfl, hq⟩
    rw [getLastD_eq_getLast?, getLast?_eq_some_getLast hq, Option.getD_some, dropLast_append_getLast hq]
  unfold readDir at h
  cases hget : fs.get p with
  | none =>
    obtain ⟨e, he⟩ := stat_none hget
    rw [he] at h
    cases h
  | some node =>
    rw [stat, hget] at h
    cases node with
    | file content => cases h
    | dir =>
      cases h
      refine ⟨rfl, ?_, fun n node => ?_⟩
      · rw [List.Nodup, pairwise_map, pairwise_filterMap]
        refine fs.nodes.sorted.imp fun {a b} hab c hc d hd heq => ?_
        split at hc
        · rename_i ha
          split at hd
          · rename_i hb
            cases hc
            cases hd
            rw [← hlast a.1 ha, ← hlast b.1 hb] at hab
            simp only at heq
            rw [heq] at hab
            exact Std.lt_irrefl hab
          · cases hd
        · cases hc
      · rw [mem_filterMap]
        constructor
        · rintro ⟨e, he, hsome⟩
          split at hsome
          · rename_i hdrop
            cases hsome
            rw [hlast e.1 hdrop]
            exact (fs.nodes.mem_entries _ _).1 he
          · cases hsome
        · intro hn
          exact ⟨(p ++ [n], node), (fs.nodes.mem_entries _ _).2 hn, by simp⟩

end FileTree

end Lib
