import Sparrow.Fs.TreeWalk

/-!
# What `sys_open` and `sys_mkdir` decide

Both look up the path and compare its depth with the depth searched before they open, create
or make anything. `openDecision` and `mkdirDecision` are the two calls up to that point
(`openPath_eq`, `mkdirPath_eq`). `decisions_iff` says that they decide by what the path means,
unless `search_file` overlooks its last name for want of memory.
-/

namespace Sparrow
set_option autoImplicit false

/-- What `sys_open` goes on to: nothing, `file_create` of a name in a directory, or
`file_open` of an inode. -/
inductive OpenDecision
  | refused
  | create (parentDir : Dir) (filename : List Byte)
  | open (inodeNo : Nat)

/-- `sys_open` up to `file_create` or `file_open`. -/
def openDecision (part : Partition) (me : Option Nat) (s : Fs) (pathname : List Byte) (flags : Nat) : Exec (OpenDecision × Fs) := do
  defined (pathname ≠ [])
  if pathname.getLast? = some slash then return (.refused, s)
  else
    assertThat (flags ≤ 7)
    let pathnameDepth ← pathDepthCnt pathname
    let (r, s) ← searchFile part me s pathname
    if r.fileType = .directory then
      let s ← closeParent me s r
      return (.refused, s)
    else
      let pathSearchedDepth ← pathDepthCnt r.searchedPath
      if pathnameDepth ≠ pathSearchedDepth then
        let s ← closeParent me s r
        return (.refused, s)
      else match r.inodeNo with
        | none =>
          if flags &&& oCreat = 0 then
            let s ← closeParent me s r
            return (.refused, s)
          else return (.create r.parentDir (lastName pathname), s)
        | some inodeNo =>
          if flags &&& oCreat ≠ 0 then
            let s ← closeParent me s r
            return (.refused, s)
          else return (.open inodeNo, s)

/-- The end of `sys_open`. -/
def openDecided (part : Partition) (me : Option Nat) (fdTable : Nat → Int) (flags : Nat) (s : Fs) :
    OpenDecision → Exec (Option Nat × Fs × (Nat → Int))
  | .refused => return (none, s, fdTable)
  | .create parentDir filename => do
    let (fd, s, fdTable) ← fileCreate part me s fdTable parentDir filename flags
    let s ← dirClose me s parentDir
    return (fd, s, fdTable)
  | .open inodeNo => fileOpen part me s fdTable inodeNo flags

/-- `sys_mkdir` up to `inode_bitmap_alloc`: the parent directory and the name, `none` when it
does not come so far. -/
def mkdirDecision (part : Partition) (me : Option Nat) (s : Fs) (pathname : List Byte) : Exec (Option (Dir × List Byte) × Fs) := do
  if s.mallocOk = false then return (none, s.malloc)
  else
    let (r, s) ← searchFile part me s.malloc pathname
    if r.inodeNo ≠ none then
      let s ← closeParent me s r
      return (none, s)
    else
      let pathnameDepth ← pathDepthCnt pathname
      let pathSearchedDepth ← pathDepthCnt r.searchedPath
      if pathnameDepth ≠ pathSearchedDepth then
        let s ← closeParent me s r
        return (none, s)
      else return (some (r.parentDir, lastName r.searchedPath), s)

/-- The end of `sys_mkdir`. -/
def mkdirDecided (part : Partition) (me : Option Nat) (s : Fs) : Option (Dir × List Byte) → Exec (Option Unit × Fs)
  | none => return (none, s)
  | some (parentDir, dirname) => do
    let (ok, s) ← makeDir part me s parentDir dirname
    let s ← dirClose me s parentDir
    return (ok, s)

section Equations

variable {part : Partition} {me : Option Nat} {s : Fs} {fdTable : Nat → Int} {pathname : List Byte} {flags : Nat}

theorem openPath_eq : openPath part me s fdTable pathname flags = (do
    let (decision, s) ← openDecision part me s pathname flags
    openDecided part me fdTable flags s decision) := by
  simp only [openPath, openDecision, bind_assoc]
  refine bind_congr fun _ => ?_
  split
  · rfl
  simp only [bind_assoc]
  refine bind_congr fun _ => bind_congr fun depth => bind_congr fun found => ?_
  obtain ⟨r, s1⟩ := found
  dsimp only
  split
  · rw [bind_assoc]
    rfl
  rw [bind_assoc]
  refine bind_congr fun depth' => ?_
  split
  · rw [bind_assoc]
    rfl
  cases r.inodeNo with
  | none =>
    dsimp only
    split
    · rw [bind_assoc]
      rfl
    · rfl
  | some inodeNo =>
    dsimp only
    split
    · rw [bind_assoc]
      rfl
    · rfl

theorem mkdirPath_eq : mkdirPath part me s pathname = (do
    let (decision, s) ← mkdirDecision part me s pathname
    mkdirDecided part me s decision) := by
  simp only [mkdirPath, mkdirDecision]
  split
  · rfl
  rw [bind_assoc]
  refine bind_congr fun found => ?_
  obtain ⟨r, s1⟩ := found
  dsimp only
  split
  · rw [bind_assoc]
    rfl
  simp only [bind_assoc]
  refine bind_congr fun depth => bind_congr fun depth' => ?_
  split
  · rw [bind_assoc]
    rfl
  · rfl

end Equations

/-- The first names lead to a directory, `d` is a handle on it, and the last is free there. -/
def MayMake (part : Partition) (s t : Fs) (sh : Shape) (names : List (List Byte)) (d : Dir) (name : List Byte) : Prop :=
  ∃ pre q, names = pre ++ [name] ∧ Denotes part s.disk s.blockBitmap sh pre q ∧ DirAt t sh d q ∧
    ∀ m, ¬ Naming.Step pathLabels (naming part s.disk s.blockBitmap sh) q name m

/-- The decision fits what the names mean. -/
def OpenDecision.Right (part : Partition) (s t : Fs) (sh : Shape) (names : List (List Byte)) (flags : Nat) : OpenDecision → Prop
  | .refused => True
  | .create d name => flags &&& oCreat ≠ 0 ∧ MayMake part s t sh names d name
  | .open i => flags &&& oCreat = 0 ∧ Denotes part s.disk s.blockBitmap sh names i ∧ ¬ sh.dir i

def OpenDecides (part : Partition) (me : Option Nat) (s : Fs) (sh : Shape) (path : List Byte) : Prop :=
  ∀ flags decision t, openDecision part me s path flags = .ok (decision, t) → decision.Right part s t sh (pathNames path) flags

def MkdirDecides (part : Partition) (me : Option Nat) (s : Fs) (sh : Shape) (path : List Byte) : Prop :=
  ∀ d name t, mkdirDecision part me s path = .ok (some (d, name), t) → MayMake part s t sh (pathNames path) d name

/-- The loop of `search_file` over these names: where it then stands, `none` when it stopped before. -/
def walkTo (part : Partition) (me : Option Nat) : List (List Byte) → Walk → Fs → Exec (Option (Walk × Fs))
  | [], w, s => return some (w, s)
  | name :: rest, w, s => do
    let searched ← appendSearched w.searchedPath name
    let (found, s) ← searchDirEntry part me s w.parentDir name
    match found with
    | none => return none
    | some e =>
      if e.fType = FileTypes.directory.code then
        let parentInodeNo := (s.inodes w.parentDir.inode).iNo
        let s ← dirClose me s w.parentDir
        let (dir, s) ← dirOpen part me s e.iNo
        walkTo part me rest ⟨dir, parentInodeNo, some e, searched⟩ s
      else if e.fType = FileTypes.regular.code then return none
      else walkTo part me rest { w with dirE := some e, searchedPath := searched } s

/-- `search_file` up to the last name of a path that it parses. -/
def searchToLast (part : Partition) (me : Option Nat) (s : Fs) (pathname : List Byte) : Exec (Option (Walk × Fs)) := do
  if pathname = [slash] ∨ pathname = [slash, 0x2e#8] ∨ pathname = [slash, 0x2e#8, 0x2e#8] then return none
  else
    assertThat (pathname.head? = some slash ∧ 1 < pathname.length ∧ pathname.length < maxPathLen)
    walkTo part me (pathNames pathname).dropLast ⟨s.root, 0, none, []⟩ s

/-- `search_file` comes to the last name of the path, which is there, and the first allocation of
`search_dir_entry` fails. -/
def Overlooks (part : Partition) (me : Option Nat) (s : Fs) (sh : Shape) (path : List Byte) : Prop :=
  ∃ w u, searchToLast part me s path = .ok (some (w, u)) ∧ u.mallocOk = false ∧
    ∃ i, Denotes part s.disk s.blockBitmap sh (pathNames path) i

section Walk

variable {part : Partition} {me : Option Nat} {name : List Byte}

/-- What `search_file` does after the first names, it does from where it then stands. -/
theorem walkTo_ok : ∀ (pre : List (List Byte)) {w w' : Walk} {s u : Fs}, walkTo part me pre w s = .ok (some (w', u)) →
    (∀ x ∈ pre ++ [name], x.length ≤ maxFileNameLen) →
    w'.searchedPath = w.searchedPath ++ joinPath pre ∧ walkPath part me (pre ++ [name]) w s = walkPath part me [name] w' u := by
  intro pre
  induction pre with
  | nil =>
    intro w w' s u h _
    rw [walkTo, pure_ok] at h
    cases h
    exact ⟨(List.append_nil _).symm, rfl⟩
  | cons x rest ih =>
    intro w w' s u h short
    have later : ∀ y ∈ rest ++ [name], y.length ≤ maxFileNameLen := fun y mem => short y (List.mem_cons_of_mem _ mem)
    have next : ∀ y ∈ (rest ++ [name]).head?, y.length ≤ maxFileNameLen := fun y mem => later y (List.mem_of_mem_head? mem)
    rw [walkTo] at h
    simp only [bind_ok, Prod.exists] at h
    obtain ⟨searched, appended, found, s1, search, h⟩ := h
    rw [List.cons_append, walkPath, appended, ok_bind, search, ok_bind]
    obtain ⟨-, rfl⟩ := appendSearched_ok appended
    have path : ∀ l, w.searchedPath ++ slash :: x ++ joinPath l = w.searchedPath ++ joinPath (x :: l) := fun l => by simp [joinPath]
    cases found with
    | none =>
      rw [pure_ok] at h
      cases h
    | some e =>
      dsimp only at h ⊢
      rw [defined_of next, ok_bind]
      split at h
      · rename_i isDir
        simp only [bind_ok, Prod.exists] at h
        obtain ⟨s2, closed, dir, s3, opened, h⟩ := h
        obtain ⟨is, same⟩ := ih h later
        rw [if_pos isDir, closed, ok_bind, opened, ok_bind]
        exact ⟨is.trans (path rest), same⟩
      · rename_i notDir
        rw [if_neg notDir]
        split at h
        · rw [pure_ok] at h
          cases h
        · rename_i notFile
          obtain ⟨is, same⟩ := ih h later
          rw [if_neg notFile]
          exact ⟨is.trans (path rest), same⟩

/-- When all names were looked for and nothing was found, it is the last one that was missed. -/
theorem walkPath_toLast : ∀ (pre : List (List Byte)) {w : Walk} {s t : Fs} {r : SearchResult},
    walkPath part me (pre ++ [name]) w s = .ok (r, t) → r.inodeNo = none →
    r.searchedPath = w.searchedPath ++ joinPath (pre ++ [name]) →
    ∃ w' u, walkTo part me pre w s = .ok (some (w', u)) ∧ searchDirEntry part me u w'.parentDir name = .ok (none, t) ∧
      r.parentDir = w'.parentDir := by
  intro pre
  induction pre with
  | nil =>
    intro w s t r h no _
    refine ⟨w, s, rfl, ?_⟩
    rw [List.nil_append, walkPath] at h
    simp only [bind_ok, Prod.exists] at h
    obtain ⟨searched, -, found, s1, search, h⟩ := h
    split at h
    · rw [pure_ok] at h
      cases h
      exact ⟨search, rfl⟩
    simp only [bind_ok, defined_ok, exists_const] at h
    obtain ⟨-, h⟩ := h
    split at h
    · simp only [walkPath, bind_ok, pure_ok, Prod.exists] at h
      obtain ⟨_, -, _, _, -, _, -, _, _, -, e⟩ := h
      cases e
      cases no
    · split at h
      · rw [pure_ok] at h
        cases h
        cases no
      · simp only [walkPath, bind_ok, pure_ok, Prod.exists] at h
        obtain ⟨_, -, _, _, -, e⟩ := h
        cases e
        cases no
  | cons x rest ih =>
    intro w s t r h no whole
    rw [List.cons_append, walkPath] at h
    simp only [bind_ok, Prod.exists] at h
    obtain ⟨searched, appended, found, s1, search, h⟩ := h
    rw [walkTo, appended, ok_bind, search, ok_bind]
    obtain ⟨-, rfl⟩ := appendSearched_ok appended
    have whole' : r.searchedPath = w.searchedPath ++ slash :: x ++ joinPath (rest ++ [name]) := by
      rw [whole]
      simp [joinPath]
    cases found with
    | none =>
      rw [pure_ok] at h
      cases h
      rw [joinPath_concat] at whole'
      simp at whole'
    | some e =>
      dsimp only at h ⊢
      simp only [bind_ok, defined_ok, exists_const] at h
      obtain ⟨-, h⟩ := h
      split at h
      · rename_i isDir
        simp only [bind_ok, Prod.exists] at h
        obtain ⟨s2, closed, dir, s3, opened, h⟩ := h
        rw [if_pos isDir, closed, ok_bind, opened, ok_bind]
        exact ih h no whole'
      · rename_i notDir
        rw [if_neg notDir]
        split at h
        · rw [pure_ok] at h
          cases h
          cases no
        · rename_i notFile
          rw [if_neg notFile]
          exact ih h no whole'

theorem pathNames_joinPath (path : List Byte) : pathNames (joinPath (pathNames path)) = pathNames path :=
  pathNames_join fun _ mem => (mem_pathNamesFuel (path.length + 1) mem).1

end Walk

section Decide

variable {part : Partition} {n q : Nat} {me : Option Nat} {s t : Fs} {sh : Shape} {H : Nat → Nat} {path : List Byte}
  {r : SearchResult}

theorem pathDepthCnt_returns (named : pathNames path ≠ []) (short : ∀ name ∈ pathNames path, name.length ≤ maxFileNameLen) :
    pathDepthCnt path = .ok (pathNames path).length := by
  rw [pathDepthCnt, defined_of ⟨named, short⟩]
  rfl

/-- The names that were looked for. -/
theorem searched_names {pre post : List (List Byte)} {name searched : List Byte} (split : pathNames path = pre ++ name :: post)
    (is : searched = joinPath (pre ++ [name])) : pathNames searched = pre ++ [name] := by
  rw [is]
  refine pathNames_join fun x mem => (mem_pathNamesFuel _ (show x ∈ pathNames path from ?_)).1
  rw [split]
  rcases List.mem_append.1 mem with mem | mem
  · exact List.mem_append_left _ mem
  · rw [List.mem_singleton.1 mem]
    exact List.mem_append_right _ List.mem_cons_self

/-- When the depths are the same all names were looked for. -/
theorem searched_whole {pre post : List (List Byte)} {name searched : List Byte} (split : pathNames path = pre ++ name :: post)
    (is : searched = joinPath (pre ++ [name])) (depth : (pathNames path).length = (pathNames searched).length) : post = [] := by
  rw [searched_names split is, split, List.length_append, List.length_append, List.length_cons, List.length_cons,
    List.length_nil] at depth
  apply List.eq_nil_of_length_eq_zero
  omega

/-- What is overlooked counts as a last name that is not there. -/
theorem Overlooks.search (overlooked : Overlooks part me s sh path) (named : pathNames path ≠ []) :
    ∃ r t, searchFile part me s path = .ok (r, t) ∧ r.inodeNo = none ∧
      (pathNames path).length = (pathNames r.searchedPath).length ∧ ∃ i, Denotes part s.disk s.blockBitmap sh (pathNames path) i := by
  obtain ⟨w, u, toLast, noMemory, i, denotes⟩ := overlooked
  have short := walk_short denotes
  obtain ⟨pre, name, split⟩ : ∃ pre name, pathNames path = pre ++ [name] := ⟨_, _, (List.dropLast_append_getLast named).symm⟩
  rw [searchToLast] at toLast
  split at toLast
  · rw [pure_ok] at toLast
    cases toLast
  rename_i notTop
  simp only [bind_ok, assertThat_ok, exists_const] at toLast
  obtain ⟨accepted, toLast⟩ := toLast
  rw [split, List.dropLast_concat] at toLast
  have fits : ∀ x ∈ pre ++ [name], x.length ≤ maxFileNameLen := fun x mem => Nat.le_of_lt (short x (by rw [split]; exact mem))
  obtain ⟨searched, same⟩ := walkTo_ok pre toLast fits
  rw [List.nil_append] at searched
  have length := joinPath_pathNames_le (path.length + 1) accepted.1
  have joined : joinPath (pathNames path) = w.searchedPath ++ slash :: name := by rw [searched, split, joinPath_concat]
  rw [show pathNamesFuel (path.length + 1) path = pathNames path from rfl, joined, List.length_append, List.length_cons] at length
  have last : name.length < 16 := short name (by rw [split]; simp)
  have appended : appendSearched w.searchedPath name = .ok (w.searchedPath ++ slash :: name) := by
    have bound := accepted.2.2
    rw [maxPathLen] at bound
    rw [appendSearched, assertThat_of (by omega), ok_bind, defined_of ⟨last, by rw [maxPathLen]; omega⟩]
    rfl
  have missed : searchDirEntry part me u w.parentDir name = .ok (none, u.malloc) := by
    rw [searchDirEntry, if_neg (by rw [noMemory]; decide)]
    rfl
  refine ⟨⟨none, w.searchedPath ++ slash :: name, w.parentDir, .unknown⟩, u.malloc, ?_, rfl, ?_, i, denotes⟩
  · rw [searchFile, if_neg notTop, assertThat_of accepted, ok_bind]
    dsimp only
    rw [defined_of fun x mem => fits x (by rw [← split]; exact List.mem_of_mem_head? mem), ok_bind, split, same, walkPath, appended,
      ok_bind, missed]
    rfl
  · dsimp only
    rw [← joined, pathNames_joinPath]

/-- With memory nothing is overlooked. -/
theorem not_overlooks (lay : Layout part n) (room : ∀ a, H a + 2 < 2 ^ 32) (inv : FsInv part n s sh H) (noZero : 0#8 ∉ path)
    (named : pathNames path ≠ []) (heap : s.mallocs = []) : ¬ Overlooks part me s sh path := by
  intro overlooked
  obtain ⟨r, t, search, none, -, i, denotes⟩ := overlooked.search named
  obtain ⟨q, done, found, -⟩ := searchFile_found lay room inv noZero named search heap
  rw [none, ← List.append_nil (pathNames path)] at found
  exact (found.stuck.dir_of_walk inv.tree.naming inv.tree.clear denotes inv.tree.naming.top.1).2 rfl

/-- Nothing was found, and all names were looked for. -/
structure AtLast (part : Partition) (s : Fs) (sh : Shape) (path : List Byte) (q : Nat) (r : SearchResult) (pre : List (List Byte))
    (name : List Byte) : Prop where
  split : pathNames path = pre ++ [name]
  walk : Denotes part s.disk s.blockBitmap sh pre q
  type : r.fileType = .unknown
  searched : r.searchedPath = joinPath (pathNames path)
  component : IsComponent name

theorem Outcome.atLast (outcome : Outcome part s.disk s.blockBitmap sh (pathNames path) q r) (no : r.inodeNo = Option.none)
    (depth : (pathNames path).length = (pathNames r.searchedPath).length) : ∃ pre name, AtLast part s sh path q r pre name := by
  cases outcome with
  | file _ _ _ number => rw [no] at number; cases number
  | dir _ _ _ number => rw [no] at number; cases number
  | root _ number => rw [no] at number; cases number
  | @none pre post name walk _ type split searched _ =>
    obtain rfl := searched_whole split searched depth
    obtain ⟨component, -⟩ := mem_pathNamesFuel _ (show name ∈ pathNames path by rw [split]; simp)
    exact ⟨pre, name, split, walk, type, by rw [searched, split], component⟩

theorem AtLast.names {pre : List (List Byte)} {name : List Byte} (at_ : AtLast part s sh path q r pre name) :
    pathNames r.searchedPath = pathNames path := by
  rw [at_.searched, pathNames_joinPath]

theorem AtLast.last {pre : List (List Byte)} {name : List Byte} (at_ : AtLast part s sh path q r pre name) :
    Sparrow.lastName r.searchedPath = name := by
  rw [at_.searched, at_.split]
  exact lastName_join at_.component.noSlash

theorem AtLast.lastName {pre : List (List Byte)} {name : List Byte} (at_ : AtLast part s sh path q r pre name)
    (notEnd : path.getLast? ≠ some slash) (abs : path.head? = some slash) : lastName path = name := by
  have last := pathNamesFuel_last _ (Nat.lt_succ_self path.length) notEnd (List.mem_of_mem_head? abs)
  rw [show pathNamesFuel (path.length + 1) path = pathNames path from rfl, at_.split] at last
  simpa using last.symm

/-- The last name is free, unless it was overlooked. -/
theorem AtLast.mayMake {pre : List (List Byte)} {name : List Byte} (at_ : AtLast part s sh path q r pre name)
    (lay : Layout part n) (inv : FsInv part n t sh (hold H r.parentDir)) (browsed : Browsed s t)
    (search : searchFile part me s path = .ok (r, t)) (no : r.inodeNo = none) (dirAt : DirAt t sh r.parentDir q) (noZero : 0#8 ∉ path)
    (seen : ¬ Overlooks part me s sh path) : MayMake part s t sh (pathNames path) r.parentDir name := by
  refine ⟨pre, q, at_.split, at_.walk, dirAt, fun m step => seen ?_⟩
  have denotes := at_.walk.concat dirAt.dir step
  rw [← at_.split] at denotes
  have component := at_.component
  obtain ⟨-, sub⟩ := mem_pathNamesFuel _ (show name ∈ pathNames path by rw [at_.split]; simp)
  have short : name.length < 16 := walk_short denotes name (by rw [at_.split]; simp)
  simp only [searchFile] at search
  split at search
  · rw [pure_ok] at search
    cases search
    cases no
  rename_i notTop
  simp only [bind_ok, assertThat_ok, defined_ok, exists_const] at search
  obtain ⟨accepted, -, search⟩ := search
  rw [at_.split] at search
  obtain ⟨w, u, toLast, missed, parent⟩ := walkPath_toLast pre search no (by rw [at_.searched, at_.split]; rfl)
  obtain missed | ⟨noMemory, -⟩ := searchDirEntry_missed missed
  · rw [← parent] at missed
    rw [← browsed.disk, ← browsed.blockBitmap] at step
    exact absurd step (inv.nowhere lay dirAt ⟨name, component.nonempty, by omega, fun zero => noZero (sub _ zero)⟩ missed m)
  · refine ⟨w, u, ?_, Bool.eq_false_of_not_eq_true noMemory, m, denotes⟩
    rw [searchToLast, if_neg notTop, assertThat_of accepted, ok_bind, at_.split, List.dropLast_concat]
    exact toLast

/-- A name that may be made leads nowhere. -/
theorem MayMake.free {d : Dir} {name : List Byte} {i : Nat} (tree : Tree part n s.disk s.blockBitmap sh)
    (may : MayMake part s t sh (pathNames path) d name) : ¬ Denotes part s.disk s.blockBitmap sh (pathNames path) i := by
  obtain ⟨pre, q, split, walk, -, nowhere⟩ := may
  intro denotes
  rw [split] at denotes
  obtain ⟨q', walk', -, step⟩ := Naming.walk_concat_iff.1 denotes
  obtain rfl := walk'.unique tree.naming tree.clear walk tree.naming.top.1
  exact nowhere i step

/-- A search that overlooks the last name ends as one that does not find it. -/
theorem Overlooks.missed (lay : Layout part n) (room : ∀ a, H a + 2 < 2 ^ 32) (inv : FsInv part n s sh H) (noZero : 0#8 ∉ path)
    (short : ∀ name ∈ pathNames path, name.length ≤ maxFileNameLen) (named : pathNames path ≠ [])
    (overlooked : Overlooks part me s sh path) :
    ∃ r t i, searchFile part me s path = .ok (r, t) ∧ r.inodeNo = none ∧ r.fileType ≠ .directory ∧
      pathDepthCnt r.searchedPath = .ok (pathNames path).length ∧ Denotes part s.disk s.blockBitmap sh (pathNames path) i := by
  obtain ⟨r, t, search, no, depth, i, denotes⟩ := overlooked.search named
  obtain ⟨q, -, -, -, outcome⟩ := searchFile_outcome lay room inv noZero search
  obtain ⟨pre, name, at_⟩ := outcome.atLast no depth
  refine ⟨r, t, i, search, no, ?_, ?_, denotes⟩
  · rw [at_.type]
    decide
  · rw [pathDepthCnt_returns (by rw [at_.names]; exact named) (by rw [at_.names]; exact short), depth]

/-- `sys_open` would make what it overlooks. -/
theorem Overlooks.openDecision_create (lay : Layout part n) (room : ∀ a, H a + 2 < 2 ^ 32) (inv : FsInv part n s sh H)
    (noZero : 0#8 ∉ path) (short : ∀ name ∈ pathNames path, name.length ≤ maxFileNameLen) (named : pathNames path ≠ [])
    (overlooked : Overlooks part me s sh path) (notEnd : path.getLast? ≠ some slash) :
    ∃ d t i, openDecision part me s path oCreat = .ok (.create d (lastName path), t) ∧
      Denotes part s.disk s.blockBitmap sh (pathNames path) i := by
  obtain ⟨r, t, i, search, no, notDir, depth, denotes⟩ := overlooked.missed lay room inv noZero short named
  have nonempty : path ≠ [] := fun e => named (by rw [e]; rfl)
  have same : ¬ (pathNames path).length ≠ (pathNames path).length := not_not.2 rfl
  refine ⟨r.parentDir, t, i, ?_, denotes⟩
  rw [openDecision, defined_of nonempty, ok_bind, if_neg notEnd, assertThat_of (by decide), ok_bind,
    pathDepthCnt_returns named short, ok_bind, search, ok_bind]
  dsimp only
  rw [if_neg notDir, depth, ok_bind, if_neg same, no]
  rfl

/-- The file that is opened is the one the path means. -/
theorem Outcome.opens (inv : FsInv part n s sh H) {i : Nat} {d : Dir} (dirAt : DirAt t sh d q)
    (outcome : Outcome part s.disk s.blockBitmap sh (pathNames path) q r)
    (whole : (pathNames path).length = (pathNames r.searchedPath).length) (number : r.inodeNo = some i)
    (notDir : r.fileType ≠ .directory) : Denotes part s.disk s.blockBitmap sh (pathNames path) i ∧ ¬ sh.dir i := by
  cases outcome with
  | none _ no => rw [number] at no; cases no
  | root _ _ type => exact absurd type notDir
  | dir _ _ _ _ type => exact absurd type notDir
  | @file pre post k j x walk at_ isFile number' _ split searched =>
    obtain rfl : i = x.iNo := Option.some.inj (number.symm.trans number')
    obtain rfl := searched_whole split searched whole
    obtain ⟨-, -, file⟩ := inv.fileEntry dirAt.live dirAt.dir at_ isFile
    rw [split]
    exact ⟨walk.concat dirAt.dir ((inv.tree.step_iff dirAt.live dirAt.dir).2 ⟨k, j, x, at_, rfl, rfl⟩), file⟩

/-- What `sys_open` does not overlook it decides rightly. -/
theorem openDecides_of_seen (lay : Layout part n) (room : ∀ a, H a + 2 < 2 ^ 32) (inv : FsInv part n s sh H) (noZero : 0#8 ∉ path)
    (abs : path.head? = some slash) (seen : path.getLast? ≠ some slash → ¬ Overlooks part me s sh path) :
    OpenDecides part me s sh path := by
  intro flags decision t h
  simp only [openDecision, bind_ok, defined_ok, exists_const] at h
  obtain ⟨-, h⟩ := h
  split at h
  · rw [pure_ok] at h
    cases h
    trivial
  rename_i notEnd
  simp only [bind_ok, assertThat_ok, exists_const, Prod.exists] at h
  obtain ⟨-, depth, isDepth, r, s1, search, h⟩ := h
  obtain ⟨q, inv1, browsed, dirAt, outcome⟩ := searchFile_outcome lay room inv noZero search
  have refused : (∃ s2, closeParent me s1 r = .ok s2 ∧ (OpenDecision.refused, s2) = (decision, t)) →
      decision.Right part s t sh (pathNames path) flags := by
    rintro ⟨s2, -, e⟩
    cases e
    trivial
  split at h
  · simp only [bind_ok, pure_ok] at h
    exact refused h
  rename_i notDir
  simp only [bind_ok] at h
  obtain ⟨depth', isDepth', h⟩ := h
  split at h
  · simp only [bind_ok, pure_ok] at h
    exact refused h
  rename_i same
  have whole : (pathNames path).length = (pathNames r.searchedPath).length := by
    rw [← pathDepthCnt_ok isDepth, ← pathDepthCnt_ok isDepth']
    exact not_not.1 same
  split at h
  · rename_i no
    split at h
    · simp only [bind_ok, pure_ok] at h
      exact refused h
    rename_i creat
    rw [pure_ok] at h
    cases h
    obtain ⟨pre, name, at_⟩ := outcome.atLast no whole
    refine ⟨creat, ?_⟩
    rw [at_.lastName notEnd abs]
    exact at_.mayMake lay inv1 browsed search no dirAt noZero (seen notEnd)
  · rename_i i number
    split at h
    · simp only [bind_ok, pure_ok] at h
      exact refused h
    rename_i plain
    rw [pure_ok] at h
    cases h
    exact ⟨not_not.1 plain, outcome.opens inv dirAt whole number notDir⟩

/-- **`sys_open`** decides by what the path means, unless it overlooks something. -/
theorem openDecides_iff (lay : Layout part n) (room : ∀ a, H a + 2 < 2 ^ 32) (inv : FsInv part n s sh H) (noZero : 0#8 ∉ path)
    (abs : path.head? = some slash) (short : ∀ name ∈ pathNames path, name.length ≤ maxFileNameLen) (named : pathNames path ≠ []) :
    OpenDecides part me s sh path ↔ path.getLast? = some slash ∨ ¬ Overlooks part me s sh path := by
  constructor
  · intro decides
    refine or_iff_not_imp_left.2 fun notEnd overlooked => ?_
    obtain ⟨d, t, i, creates, denotes⟩ := overlooked.openDecision_create lay room inv noZero short named notEnd
    exact (decides oCreat _ t creates).2.free inv.tree denotes
  · exact fun limits => openDecides_of_seen lay room inv noZero abs limits.resolve_left

/-- What `sys_mkdir` does not overlook it decides rightly. -/
theorem mkdirDecides_of_seen (lay : Layout part n) (room : ∀ a, H a + 2 < 2 ^ 32) (inv : FsInv part n s sh H) (noZero : 0#8 ∉ path)
    (seen : s.mallocOk ≠ false → ¬ Overlooks part me s.malloc sh path) : MkdirDecides part me s sh path := by
  intro d name t h
  simp only [mkdirDecision] at h
  split at h
  · rw [pure_ok] at h
    cases h
  rename_i memory
  simp only [bind_ok, Prod.exists] at h
  obtain ⟨r, s1, search, h⟩ := h
  obtain ⟨q, inv1, browsed, dirAt, outcome⟩ := searchFile_outcome lay room inv.malloc noZero search
  split at h
  · simp only [bind_ok, pure_ok] at h
    obtain ⟨s2, -, e⟩ := h
    cases e
  rename_i no
  rw [not_not] at no
  simp only [bind_ok] at h
  obtain ⟨depth, isDepth, depth', isDepth', h⟩ := h
  split at h
  · simp only [bind_ok, pure_ok] at h
    obtain ⟨s2, -, e⟩ := h
    cases e
  rename_i same
  have whole : (pathNames path).length = (pathNames r.searchedPath).length := by
    rw [← pathDepthCnt_ok isDepth, ← pathDepthCnt_ok isDepth']
    exact not_not.1 same
  rw [pure_ok] at h
  cases h
  obtain ⟨pre, name, at_⟩ := outcome.atLast no whole
  rw [at_.last]
  exact at_.mayMake lay inv1 browsed search no dirAt noZero (seen memory)

/-- **`sys_mkdir`** decides by what the path means, unless it overlooks something. -/
theorem mkdirDecides_iff (lay : Layout part n) (room : ∀ a, H a + 2 < 2 ^ 32) (inv : FsInv part n s sh H) (noZero : 0#8 ∉ path)
    (short : ∀ name ∈ pathNames path, name.length ≤ maxFileNameLen) (named : pathNames path ≠ []) :
    MkdirDecides part me s sh path ↔ s.mallocOk = false ∨ ¬ Overlooks part me s.malloc sh path := by
  constructor
  · intro decides
    refine or_iff_not_imp_left.2 fun memory overlooked => ?_
    obtain ⟨r, t, i, search, no, -, depth, denotes⟩ := overlooked.missed lay room inv.malloc noZero short named
    have same : ¬ (pathNames path).length ≠ (pathNames path).length := not_not.2 rfl
    have makes : mkdirDecision part me s path = .ok (some (r.parentDir, lastName r.searchedPath), t) := by
      rw [mkdirDecision, if_neg memory, search, ok_bind]
      dsimp only
      rw [if_neg (not_not.2 no), pathDepthCnt_returns named short, ok_bind, depth, ok_bind, if_neg same]
      rfl
    exact (decides _ _ t makes).free inv.tree denotes
  · exact fun limits => mkdirDecides_of_seen lay room inv noZero limits.resolve_left

/-- The two calls decide by what the path means exactly when they do not overlook its last name;
with memory they never do. -/
theorem decisions_iff (lay : Layout part n) (room : ∀ a, H a + 2 < 2 ^ 32) (inv : FsInv part n s sh H) (wf : Pathname path)
    (named : pathNames path ≠ []) :
    (OpenDecides part me s sh path ↔ path.getLast? = some slash ∨ ¬ Overlooks part me s sh path) ∧
      (MkdirDecides part me s sh path ↔ s.mallocOk = false ∨ ¬ Overlooks part me s.malloc sh path) ∧
      (s.mallocs = [] → ¬ Overlooks part me s sh path ∧ ¬ Overlooks part me s.malloc sh path) :=
  have short : ∀ name ∈ pathNames path, name.length ≤ maxFileNameLen := fun name mem => Nat.le_of_lt (wf.names name mem)
  ⟨openDecides_iff lay room inv wf.noZero wf.abs short named, mkdirDecides_iff lay room inv wf.noZero short named, fun heap =>
    ⟨not_overlooks lay room inv wf.noZero named heap, not_overlooks lay room inv.malloc wf.noZero named (malloc_heap heap)⟩⟩

end Decide

section Examples

/-- With memory the decisions are right for `//.` on a partition just formatted. -/
theorem decisions_small : ∃ part s, formatAndMount (fun _ => 0#8) 1 620 = .ok (part, s) ∧
    OpenDecides part none s .root pathDot ∧ MkdirDecides part none s .root pathDot := by
  obtain ⟨part, s, formatted⟩ := exists_smallPartition
  obtain ⟨usable, heap⟩ := smallPartition_usable none formatted
  obtain ⟨opens, makes, memory⟩ := @decisions_iff part 8 none s .root _ pathDot usable.lay usable.room2 usable.inv
    (show Pathname pathDot from ⟨rfl, by decide, by decide, by decide⟩) (by decide)
  obtain ⟨seen, seen'⟩ := memory heap
  exact ⟨part, s, formatted, opens.2 (.inr seen), makes.2 (.inr seen')⟩

/-- With one allocation to be had, `sys_mkdir` is about to make a second `.` in the root directory. -/
theorem mkdir_overlooks : ¬ ∀ (part : Partition) (n : Nat) (me : Option Nat) (s : Fs) (sh : Shape) (H : Nat → Nat)
    (path : List Byte), Layout part n → (∀ a, H a + 2 < 2 ^ 32) → FsInv part n s sh H → Pathname path → pathNames path ≠ [] →
    MkdirDecides part me s sh path := by
  intro claim
  have ran : returns (formatAndMount (fun _ => 0#8) 1 620) (fun x =>
      returns (mkdirDecision x.1 none { x.2 with mallocs := [true, false] } pathDot) fun y => y.1.isSome) = true := by
    decide
  obtain ⟨⟨part, s⟩, formatted, ran⟩ := returns_true.1 ran
  obtain ⟨⟨decision, t⟩, decided, isSome⟩ := returns_true.1 ran
  obtain ⟨⟨d, name⟩, rfl⟩ := Option.isSome_iff_exists.1 isSome
  have usable := (smallPartition_usable none formatted).1
  have may := claim part 8 _ _ .root _ pathDot usable.lay usable.room2 (usable.inv.heap [true, false])
    ⟨rfl, by decide, by decide, by decide⟩ (by decide) d name t decided
  have tree := usable.inv.tree
  refine may.free tree (i := 0) (.cons tree.naming.top.2.1 (.inl ⟨rfl, rfl⟩) .nil)

end Examples

end Sparrow
