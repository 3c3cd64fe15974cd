import Sparrow.Fs.FailedCalls

/-!
# Any string for a path

What the seven calls that take a path do with a string that need not be a path: relative,
empty, of slashes only, too long, or with long names. Each call is cut off where it is done with
its path (`unlinkPath_eq`, `rmdirPath_eq`, `sysChdir_eq`). `search_file` checks the length and the
leading slash by an assertion, its loop may find no name to look for, and its buffer takes names
of fifteen bytes; `Searchable` are the paths it looks up.
-/

namespace Sparrow
set_option autoImplicit false

/-- `sys_unlink` up to the removal of what it found. -/
def unlinkDecision (part : Partition) (me : Option Nat) (s : Fs) (pathname : List Byte) :
    Exec (Option (SearchResult × Nat) × Fs) := do
  assertThat (pathname.length < maxPathLen)
  let (r, s) ← searchFile part me s pathname
  assertThat (r.inodeNo ≠ some 0)
  match r.inodeNo with
  | none =>
    let s ← closeParent me s r
    return (none, s)
  | some inodeNo =>
    if r.fileType = .directory then
      let s ← closeParent me s r
      return (none, s)
    else
      let used ← inUse me s inodeNo (List.range maxFileOpen)
      if used then
        let s ← closeParent me s r
        return (none, s)
      else return (some (r, inodeNo), s)

/-- `sys_rmdir` up to `dir_open` of what it found. -/
def rmdirDecision (part : Partition) (me : Option Nat) (s : Fs) (pathname : List Byte) :
    Exec (Option (SearchResult × Nat) × Fs) := do
  let (r, s) ← searchFile part me s pathname
  assertThat (r.inodeNo ≠ some 0)
  match r.inodeNo with
  | none =>
    let s ← closeParent me s r
    return (none, s)
  | some inodeNo =>
    if r.fileType = .regular then
      let s ← closeParent me s r
      return (none, s)
    else return (some (r, inodeNo), s)

/-- The end of `sys_rmdir`. -/
def rmdirFound (part : Partition) (me : Option Nat) (s : Fs) (r : SearchResult) (inodeNo : Nat) : Exec (Option Unit × Fs) := do
  let (dir, s) ← dirOpen part me s inodeNo
  let (ok, s) ←
    if dirIsEmpty part (s.inodes dir.inode) then dirRemove part me s r.parentDir dir
    else pure (none, s)
  let s ← dirClose me s dir
  let s ← closeParent me s r
  return (ok, s)

/-- `sys_chdir` on the partition: the number of the directory to go to. -/
def chdirPath (part : Partition) (me : Option Nat) (s : Fs) (path : List Byte) : Exec (Option Nat × Fs) := do
  let (r, s) ← searchFile part me s path
  let s ← closeParent me s r
  match r.inodeNo, r.fileType with
  | some inodeNo, .directory => return (some inodeNo, s)
  | _, _ => return (none, s)

section Equations

variable {part : Partition} {me : Option Nat} {s : Fs} {path : List Byte}

theorem unlinkPath_eq : unlinkPath part me s path = (do
    let (decision, s) ← unlinkDecision part me s path
    match decision with
    | none => return (none, s)
    | some (r, inodeNo) => unlinkFound part me s r inodeNo) := by
  simp only [unlinkPath, unlinkDecision, bind_assoc]
  refine bind_congr fun _ => bind_congr fun found => bind_congr fun _ => ?_
  cases found.1.inodeNo with
  | none =>
    dsimp only
    rw [bind_assoc]
    rfl
  | some inodeNo =>
    dsimp only
    split
    · rw [bind_assoc]
      rfl
    rw [bind_assoc]
    refine bind_congr fun used => ?_
    split
    · rw [bind_assoc]
      rfl
    · rfl

theorem rmdirPath_eq : rmdirPath part me s path = (do
    let (decision, s) ← rmdirDecision part me s path
    match decision with
    | none => return (none, s)
    | some (r, inodeNo) => rmdirFound part me s r inodeNo) := by
  simp only [rmdirPath, rmdirDecision, bind_assoc]
  refine bind_congr fun found => bind_congr fun _ => ?_
  cases found.1.inodeNo with
  | none =>
    dsimp only
    rw [bind_assoc]
    rfl
  | some inodeNo =>
    dsimp only
    split
    · rw [bind_assoc]
      rfl
    · simp only [rmdirFound, pure_bind]

theorem sysChdir_eq {σ : Sys} {pid : Nat} : sysChdir part pid σ path = (do
    let (r, s) ← chdirPath part (σ.heapOf pid) σ.fs path
    match r with
    | some inodeNo => return (0, { σ with fs := s }.setProc pid { σ.procs pid with cwdInodeNr := inodeNo })
    | none => return (-1, { σ with fs := s })) := by
  simp only [sysChdir, chdirPath, bind_assoc]
  refine bind_congr fun found => bind_congr fun s' => ?_
  cases found.1.inodeNo with
  | none => rfl
  | some inodeNo =>
    cases found.1.fileType with
    | unknown => rfl
    | regular => rfl
    | directory => rfl

end Equations

/-- The call, as far as it deals with its path, returns, and what it returns is right. -/
def Handled {α : Type} (ran : Exec (α × Fs)) (right : α → Fs → Prop) : Prop := ∃ a t, ran = .ok (a, t) ∧ right a t

section Calls

variable (part : Partition) (me : Option Nat) (s : Fs) (sh : Shape) (path : List Byte)

/-- The path leads to a directory without what its next name asks for. -/
def Missing : Prop := Naming.Stuck pathLabels (naming part s.disk s.blockBitmap sh) 0 (pathNames path)

/-- The names fit the buffer of `path_depth_cnt`. -/
def Countable : Prop := ∀ name ∈ pathNames path, name.length ≤ maxFileNameLen

end Calls

section Handled

variable {part : Partition} {n flags : Nat} {me : Option Nat} {s s1 t : Fs} {sh : Shape} {H : Nat → Nat} {path : List Byte}
  {r : SearchResult}

/-- What `search_file` says of a path. -/
structure Answers (part : Partition) (s : Fs) (sh : Shape) (path : List Byte) (r : SearchResult) : Prop where
  kind : ∀ i, r.inodeNo = some i → r.fileType = .regular ∨ r.fileType = .directory
  dir : ∀ i, r.inodeNo = some i ∧ r.fileType = .directory ↔ Denotes part s.disk s.blockBitmap sh (pathNames path) i ∧ sh.dir i
  file : ∀ i, r.inodeNo = some i ∧ r.fileType ≠ .directory ↔
    ∃ pre post, pathNames path = pre ++ post ∧ Denotes part s.disk s.blockBitmap sh pre i ∧ ¬ sh.dir i
  missing : r.inodeNo = none ↔ Missing part s sh path
  unknown : r.inodeNo = none → r.fileType = .unknown

/-- Where a search of the path stands. -/
structure Searched (part : Partition) (n : Nat) (me : Option Nat) (s t : Fs) (sh : Shape) (H : Nat → Nat) (path : List Byte)
    (r : SearchResult) : Prop where
  searchable : Searchable part s sh path
  inv : FsInv part n t sh (hold H r.parentDir)
  browsed : Browsed s t
  calm : Calm me H t
  answers : Answers part s sh path r
  names : r.fileType ≠ .directory → pathNames r.searchedPath ≠ [] ∧ Countable r.searchedPath
  closes : ∃ u, closeParent me t r = .ok u

/-- All names of a path that was walked were looked for. -/
theorem Legible.walked {g : Naming Nat Item} {q m : Nat} {pre post : List (List Byte)} (legible : Legible g q (pre ++ post))
    (walk : Naming.Walk pathLabels g q pre m) : ∀ name ∈ pre, name.length < maxFileNameLen := by
  intro name mem
  obtain ⟨before, after, rfl⟩ := List.append_of_mem mem
  obtain ⟨m', walk', rest⟩ := Naming.walk_append_iff.1 walk
  cases rest with
  | cons dir _ _ => exact (legible before name (after ++ post) m' (by simp) walk').2 dir

theorem FsInv.answers {q : Nat} (inv : FsInv part n s sh H) (live : sh.live q) (dir : sh.dir q)
    (outcome : Outcome part s.disk s.blockBitmap sh (pathNames path) q r) (stuck : r.inodeNo = none → Missing part s sh path) :
    Answers part s sh path r := by
  have tree := inv.tree
  have rootLive := tree.naming.top.1
  refine ⟨fun i number => ?_, fun i => ⟨?_, ?_⟩, fun i => ⟨?_, ?_⟩, ⟨stuck, ?_⟩, fun no => ?_⟩
  · cases outcome with
    | none _ no => rw [number] at no; cases no
    | file _ _ _ _ type => exact .inl type
    | dir _ _ _ _ type => exact .inr type
    | root _ _ type => exact .inr type
  · rintro ⟨number, type⟩
    obtain ⟨-, kind, pre, post, split, denotes, leaf⟩ := inv.outcome_some live dir outcome number
    have isDir := kind.1 type
    by_cases more : post = []
    · rw [split, more, List.append_nil]
      exact ⟨denotes, isDir⟩
    · exact absurd isDir (leaf more)
  · rintro ⟨denotes, isDir⟩
    cases number : r.inodeNo with
    | none =>
      have missing := stuck number
      rw [Missing, ← List.append_nil (pathNames path)] at missing
      exact absurd rfl (missing.dir_of_walk tree.naming tree.clear denotes rootLive).2
    | some m =>
      obtain ⟨-, kind, pre, post, split, denotes', leaf⟩ := inv.outcome_some live dir outcome number
      rw [split] at denotes
      by_cases more : post = []
      · rw [more, List.append_nil] at denotes
        obtain rfl := denotes.unique tree.naming tree.clear denotes' rootLive
        exact ⟨rfl, kind.2 isDir⟩
      · exact absurd (denotes.dir_of_prefix tree.naming tree.clear isDir denotes' rootLive) (leaf more)
  · rintro ⟨number, type⟩
    obtain ⟨-, kind, pre, post, split, denotes, -⟩ := inv.outcome_some live dir outcome number
    exact ⟨pre, post, split, denotes, fun isDir => type (kind.2 isDir)⟩
  · rintro ⟨pre, post, split, denotes, file⟩
    exact inv.finds live dir outcome stuck split denotes file
  · intro missing
    cases number : r.inodeNo with
    | none => rfl
    | some m =>
      obtain ⟨-, -, pre, post, split, denotes, leaf⟩ := inv.outcome_some live dir outcome number
      rw [Missing, split] at missing
      obtain ⟨isDir, more⟩ := missing.dir_of_walk tree.naming tree.clear denotes rootLive
      exact absurd isDir (leaf more)
  · cases outcome with
    | none _ _ type => exact type
    | file _ _ _ number => rw [no] at number; cases number
    | dir _ _ _ number => rw [no] at number; cases number
    | root _ number => rw [no] at number; cases number

theorem Searchable.short (searchable : Searchable part s sh path) : path.length < maxPathLen := by
  rcases searchable with (rfl | rfl | rfl) | ⟨-, short, -⟩
  · decide
  · decide
  · decide
  · exact short

theorem Searchable.abs (searchable : Searchable part s sh path) : path.head? = some slash := by
  rcases searchable with (rfl | rfl | rfl) | ⟨abs, -⟩
  · rfl
  · rfl
  · rfl
  · exact abs

/-- Only the slash alone has no name. -/
theorem Searchable.named (searchable : Searchable part s sh path) (more : path ≠ [slash]) : pathNames path ≠ [] := by
  rcases searchable with (rfl | rfl | rfl) | ⟨-, -, named, -⟩
  · exact absurd rfl more
  · decide
  · decide
  · exact named

/-- **A search that returns** answers for the path, and the handle it took can be given back. -/
theorem Usable.searched (usable : Usable part n me s sh H) (heap : s.mallocs = []) (noZero : 0#8 ∉ path)
    (search : searchFile part me s path = .ok (r, t)) : Searched part n me s t sh H path r := by
  have calm := usable.inv.calm heap usable.reach
  obtain ⟨q, inv1, browsed, dirAt, calm1, outcome, stuck⟩ := usable.search heap noZero search
  have searchable : Searchable part s sh path := by
    obtain ⟨_, _, -, yes, -⟩ | ⟨⟨_, no⟩, -⟩ := searchFile_returns_or usable.lay usable.room2 usable.inv calm noZero
    · exact yes
    · rw [search] at no
      cases no
  refine ⟨searchable, inv1, browsed, calm1, usable.inv.answers dirAt.live dirAt.dir outcome stuck, fun notDir => ?_,
    dirClose_returns calm1 inv1.toFsCore (fun _ => Nat.le_refl _) (usable.room2 _)⟩
  have legible : Legible (naming part s.disk s.blockBitmap sh) 0 (pathNames path) := by
    obtain top | ⟨-, -, -, legible⟩ := searchable
    · rw [searchFile, if_pos (show path = [slash] ∨ _ from top), pure_ok] at search
      cases search
      exact absurd rfl notDir
    · exact legible
  -- the names looked for were walked, but for the last
  have shown : ∀ pre post name, pathNames path = pre ++ name :: post → r.searchedPath = joinPath (pre ++ [name]) →
      name.length < maxFileNameLen → Denotes part s.disk s.blockBitmap sh pre q →
      pathNames r.searchedPath ≠ [] ∧ Countable r.searchedPath := by
    intro pre post name split searched short walk
    rw [Countable, searched_names split searched]
    refine ⟨by simp, fun x mem => ?_⟩
    rw [split] at legible
    rcases List.mem_append.1 mem with mem | mem
    · exact Nat.le_of_lt (legible.walked walk x mem)
    · rw [List.mem_singleton.1 mem]
      exact Nat.le_of_lt short
  cases outcome with
  | @none pre post name walk _ _ split searched short => exact shown pre post name split searched short walk
  | @file pre post k j x walk _ _ _ _ split searched _ =>
    exact shown pre post x.name.bytes split searched (Nat.lt_succ_of_le x.name.short) walk
  | dir _ _ _ _ type => exact absurd type notDir
  | root _ _ type => exact absurd type notDir

theorem Usable.lookup (usable : Usable part n me s sh H) (heap : s.mallocs = []) (noZero : 0#8 ∉ path)
    (searchable : Searchable part s sh path) :
    ∃ r t, searchFile part me s path = .ok (r, t) ∧ Searched part n me s t sh H path r := by
  obtain ⟨r, t, search, -⟩ | ⟨-, no⟩ :=
    searchFile_returns_or usable.lay usable.room2 usable.inv (usable.inv.calm heap usable.reach) noZero
  · exact ⟨r, t, search, usable.searched heap noZero search⟩
  · exact absurd searchable no

theorem hold_comm (d e : Dir) : hold (hold H d) e = hold (hold H e) d := by
  funext a
  simp only [hold]
  split_ifs
  · rfl
  · rfl
  · rfl
  · by_cases here : d.inode = e.inode
    · rw [here]
    · rw [bump, bump, bump, bump, Function.update_of_ne (Ne.symm here), Function.update_of_ne here,
        Function.update_comm here]

end Handled

section Examples

end Examples

end Sparrow
