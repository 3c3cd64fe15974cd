import Sparrow.Fs.Handles
import Sparrow.Lib.Paths
import Sparrow.Lib.Words

/-!
# Looking up a path

`search_file` walks from directory to directory. It returns with one handle, on the
directory it calls the parent, and with what it found there under the last name it looked
for (`searchFile_inv`); what it walked is a path of the naming graph (`searchFile_outcome`).
-/

namespace Sparrow
set_option autoImplicit false

/-- The path with these names. -/
def joinPath (names : List (List Byte)) : List Byte := names.flatMap fun name => slash :: name

/-- A component of a path. -/
structure IsComponent (name : List Byte) : Prop where
  nonempty : name ≠ []
  noSlash : slash ∉ name

section Paths

theorem takeWhile_noSlash {l : List Byte} (h : slash ∉ l) : l.takeWhile (· != slash) = l := by
  rw [List.takeWhile_eq_self_iff]
  intro b mem
  simp only [bne_iff_ne, ne_eq]
  exact fun e => h (e ▸ mem)

theorem lastName_append {a r : List Byte} (has : slash ∈ r) : lastName (a ++ r) = lastName r := by
  have stops : ((r.reverse).takeWhile (· != slash)).length ≠ r.reverse.length := by
    intro e
    have all := List.takeWhile_eq_self_iff.1 ((List.takeWhile_prefix (· != slash)).eq_of_length e)
    simpa using all slash (List.mem_reverse.2 has)
  rw [lastName, List.reverse_append, List.takeWhile_append, if_neg stops, lastName]

theorem lastName_component {name : List Byte} (h : slash ∉ name) : lastName (slash :: name) = name := by
  have noSlash : slash ∉ name.reverse := by simpa using h
  rw [lastName, List.reverse_cons, List.takeWhile_append, takeWhile_noSlash noSlash, if_pos rfl]
  simp

theorem lastName_join {names : List (List Byte)} {name : List Byte} (h : slash ∉ name) :
    lastName (joinPath (names ++ [name])) = name := by
  rw [joinPath, List.flatMap_append, lastName_append (by simp)]
  simpa using lastName_component h

/-- The pieces `path_parse` cuts a path into. -/
theorem pathParse_cases (path : List Byte) :
    ∃ slashes name rest, path = slashes ++ name ++ rest ∧ (∀ b ∈ slashes, b = slash) ∧ slash ∉ name ∧
      (rest = [] ∨ name ≠ [] ∧ ∃ r, rest = slash :: r) ∧ pathParse path = (name, if rest.isEmpty then none else some rest) := by
  refine ⟨path.takeWhile (· == slash), (path.dropWhile (· == slash)).takeWhile (· != slash),
    (path.dropWhile (· == slash)).dropWhile (· != slash), ?_, fun b mem => ?_, fun mem => ?_, word_ends slash path, rfl⟩
  · rw [List.append_assoc, List.takeWhile_append_dropWhile, List.takeWhile_append_dropWhile]
  · simpa using List.mem_takeWhile_imp mem
  · simpa using List.mem_takeWhile_imp mem

theorem mem_pathNamesFuel : ∀ (fuel : Nat) {path name : List Byte}, name ∈ pathNamesFuel fuel path →
    IsComponent name ∧ ∀ b ∈ name, b ∈ path := by
  intro fuel
  induction fuel with
  | zero => intro path name mem; simp [pathNamesFuel] at mem
  | succ fuel ih =>
    intro path name mem
    obtain ⟨slashes, first, rest, is, -, noSlash, -, parsed⟩ := pathParse_cases path
    have inPath : ∀ b ∈ first, b ∈ path := fun b hb => by
      rw [is]
      simp [hb]
    rw [pathNamesFuel, parsed] at mem
    split at mem
    · simp at mem
    · rename_i name' none e
      simp only [Prod.mk.injEq] at e
      obtain ⟨rfl, -⟩ := e
      rw [List.mem_singleton] at mem
      subst mem
      exact ⟨⟨none, noSlash⟩, inPath⟩
    · rename_i name' rest' some e
      simp only [Prod.mk.injEq] at e
      obtain ⟨rfl, e⟩ := e
      split at e
      · cases e
      cases e
      rcases List.mem_cons.1 mem with rfl | mem
      · exact ⟨⟨some, noSlash⟩, inPath⟩
      · obtain ⟨component, sub⟩ := ih mem
        refine ⟨component, fun b hb => ?_⟩
        rw [is]
        exact List.mem_append_right _ (sub b hb)

/-- The names of a path are read back from it. -/
theorem pathNamesFuel_join : ∀ (names : List (List Byte)) (fuel : Nat), names.length < fuel →
    (∀ name ∈ names, IsComponent name) → pathNamesFuel fuel (joinPath names) = names := by
  intro names
  induction names with
  | nil =>
    intro fuel lt _
    obtain ⟨fuel, rfl⟩ := Nat.exists_eq_succ_of_ne_zero (Nat.ne_of_gt lt)
    rfl
  | cons name names ih =>
    intro fuel lt components
    obtain ⟨fuel, rfl⟩ := Nat.exists_eq_succ_of_ne_zero (Nat.ne_of_gt (Nat.lt_of_le_of_lt (Nat.zero_le _) lt))
    have first := components name List.mem_cons_self
    obtain ⟨b, l, rfl⟩ := List.exists_cons_of_ne_nil first.nonempty
    have notSlash : ∀ c ∈ b :: l, (c != slash) = true := fun c mem => by
      simp only [bne_iff_ne, ne_eq]
      exact fun e => first.noSlash (e ▸ mem)
    have bSlash : (b == slash) = false := by simpa using notSlash b List.mem_cons_self
    have tail : (joinPath names).takeWhile (· != slash) = [] ∧ (joinPath names).dropWhile (· != slash) = joinPath names := by
      cases names with
      | nil => exact ⟨rfl, rfl⟩
      | cons x xs => exact ⟨by simp [joinPath], by simp [joinPath]⟩
    have parsed : pathParse (joinPath ((b :: l) :: names)) =
        (b :: l, if (joinPath names).isEmpty then none else some (joinPath names)) := by
      have drop : (joinPath ((b :: l) :: names)).dropWhile (· == slash) = (b :: l) ++ joinPath names := by
        simp [joinPath, bSlash]
      simp only [pathParse, drop, List.takeWhile_append_of_pos notSlash, List.dropWhile_append_of_pos notSlash, tail,
        List.append_nil]
    have rest := ih fuel (by simpa using lt) fun x mem => components x (List.mem_cons_of_mem _ mem)
    rw [pathNamesFuel, parsed]
    cases names with
    | nil => rfl
    | cons x xs =>
      have some : (joinPath (x :: xs)).isEmpty = false := by simp [joinPath]
      rw [some]
      simp only [Bool.false_eq_true, if_false]
      rw [rest]

theorem pathNames_join {names : List (List Byte)} (components : ∀ name ∈ names, IsComponent name) :
    pathNames (joinPath names) = names := by
  have len : names.length ≤ (joinPath names).length := by
    clear components
    induction names with
    | nil => exact Nat.zero_le _
    | cons x xs ih =>
      have : joinPath (x :: xs) = slash :: x ++ joinPath xs := rfl
      rw [this]
      simp only [List.length_cons, List.length_append]
      omega
  exact pathNamesFuel_join names _ (by omega) components

/-- What follows the last slash is the last name. -/
theorem pathNamesFuel_last : ∀ (fuel : Nat) {path : List Byte}, path.length < fuel → path.getLast? ≠ some slash → slash ∈ path →
    (pathNamesFuel fuel path).getLast? = some (lastName path) := by
  intro fuel
  induction fuel with
  | zero => intro path lt; omega
  | succ fuel ih =>
    intro path lt notEnd has
    obtain ⟨slashes, name, rest, is, allSlash, noSlash, shape, parsed⟩ := pathParse_cases path
    rcases shape with rfl | ⟨some, r, rfl⟩
    · rw [List.append_nil] at is
      have before : slash ∈ slashes := by
        rw [is, List.mem_append] at has
        exact has.resolve_right noSlash
      obtain ⟨front, b, rfl⟩ := (List.eq_nil_or_concat slashes).resolve_left (List.ne_nil_of_mem before)
      obtain rfl : b = slash := allSlash b (by simp)
      have nonempty : name ≠ [] := fun none => by
        rw [is, none] at notEnd
        simp at notEnd
      have last : lastName path = name := by
        rw [is, List.concat_eq_append, List.append_assoc, lastName_append (by simp)]
        exact lastName_component noSlash
      rw [pathNamesFuel, parsed, last]
      split
      · rename_i e
        simp only [Prod.mk.injEq] at e
        exact absurd e.1 nonempty
      · rename_i e
        simp only [Prod.mk.injEq] at e
        rw [e.1]
        rfl
      · rename_i e
        simp at e
    · have shorter : (slash :: r).length < fuel := by
        rw [is] at lt
        have := List.length_pos_of_ne_nil some
        simp only [List.length_append, List.length_cons] at lt ⊢
        omega
      have notEnd' : (slash :: r).getLast? ≠ Option.some slash := by
        rw [is, List.getLast?_append_of_ne_nil _ (List.cons_ne_nil _ _)] at notEnd
        exact notEnd
      have last := ih shorter notEnd' List.mem_cons_self
      have recur : pathNamesFuel (fuel + 1) path = name :: pathNamesFuel fuel (slash :: r) := by
        rw [pathNamesFuel, parsed]
        split
        · rename_i e
          simp only [Prod.mk.injEq] at e
          exact absurd e.1 some
        · rename_i e
          simp at e
        · rename_i e
          simp only [Prod.mk.injEq, List.isEmpty_cons, Bool.false_eq_true, if_false, Option.some.injEq] at e
          rw [e.1, e.2]
      rw [recur, List.getLast?_cons, last, is, lastName_append List.mem_cons_self]
      rfl

theorem pathDepthCnt_ok {path : List Byte} {d : Nat} (h : pathDepthCnt path = .ok d) : d = (pathNames path).length := by
  simp only [pathDepthCnt, bind_ok, pure_ok] at h
  obtain ⟨_, -, h⟩ := h
  exact h.symm

end Paths

/-- The names in the entries, and the two every directory has. -/
def pathLabels : Naming.Labels Nat Item (List Byte) := ⟨Item.iNo, fun x => x.name.bytes, dot, dotDot⟩

/-- The names lead from the root to inode `i`. -/
def Denotes (part : Partition) (disk : Image) (b : Bitmap) (sh : Shape) (names : List (List Byte)) (i : Nat) : Prop :=
  Naming.Walk pathLabels (naming part disk b sh) 0 names i

section Denotes

variable {part : Partition} {n q : Nat} {disk : Image} {b : Bitmap} {sh : Shape}

theorem Tree.clear (tree : Tree part n disk b sh) : pathLabels.Clear (Sparrow.naming part disk b sh) := by
  refine ⟨by decide, fun m x live dir ⟨ord, _⟩ => ⟨fun e => ord.1 (Name.ext_bytes e), fun e => ord.2 (Name.ext_bytes e)⟩,
    fun m x y live dir ⟨_, k, j, at_⟩ ⟨_, k', j', at'⟩ same => ?_⟩
  obtain ⟨rfl, rfl⟩ := ((tree.node m live).dirWf dir).1.names _ _ _ _ _ _ at_ at' (Name.ext_bytes same)
  exact at_.unique at'

/-- The steps from a directory are its entries, `.` and `..` among them. -/
theorem Tree.step_iff (tree : Tree part n disk b sh) (live : sh.live q) (dir : sh.dir q) {name : List Byte} {m : Nat} :
    Naming.Step pathLabels (Sparrow.naming part disk b sh) q name m ↔
      ∃ k j x, ItemAt (nodeAt part disk b q) k j x ∧ x.name.bytes = name ∧ x.iNo = m := by
  have wf := ((tree.node q live).dirWf dir).1
  constructor
  · rintro (⟨rfl, rfl⟩ | ⟨rfl, rfl⟩ | ⟨x, ⟨-, k, j, at_⟩, rfl, rfl⟩)
    · obtain ⟨x, at_, isDot, number, -⟩ := wf.dot
      exact ⟨0, 0, x, at_, by rw [isDot]; rfl, number⟩
    · obtain ⟨x, at_, isDotDot, number, -⟩ := wf.dotDot
      exact ⟨0, 1, x, at_, by rw [isDotDot]; rfl, number⟩
    · exact ⟨k, j, x, at_, rfl, rfl⟩
  · rintro ⟨k, j, x, at_, rfl, rfl⟩
    by_cases ord : x.Ordinary
    · exact .inr (.inr ⟨x, ⟨ord, k, j, at_⟩, rfl, rfl⟩)
    obtain ⟨-, ⟨isDot, number⟩ | ⟨isDotDot, number⟩⟩ := wf.dots at_ ord
    · exact .inl ⟨congrArg Name.bytes isDot, number⟩
    · exact .inr (.inl ⟨congrArg Name.bytes isDotDot, number⟩)

/-- A name that leads on leaves room for its terminator. -/
theorem walk_short {g : Naming Nat Item} {m i : Nat} {names : List (List Byte)} (walk : Naming.Walk pathLabels g m names i) :
    ∀ k ∈ names, k.length < maxFileNameLen := by
  induction walk with
  | nil => exact fun k mem => by cases mem
  | cons _ step rest ih =>
    intro k mem
    rcases List.mem_cons.1 mem with rfl | mem
    · obtain ⟨rfl, -⟩ | ⟨rfl, -⟩ | ⟨x, -, rfl, -⟩ := step
      · decide
      · decide
      · exact Nat.lt_succ_of_le x.name.short
    · exact ih k mem

end Denotes

/-- What was found in the directory `q` under the last name looked for: nothing, with the
names walked up to there (or no memory to look for it); or an entry, for a directory under
the last name of the path. -/
inductive Found (part : Partition) (disk : Image) (b : Bitmap) (names : List (List Byte)) (q : Nat) (r : SearchResult) : Prop
  | none {pre post : List (List Byte)} {name : List Byte} (no : r.inodeNo = none) (type : r.fileType = .unknown)
      (split : names = pre ++ name :: post) (searched : r.searchedPath = joinPath (pre ++ [name])) (short : name.length < 16)
  | file {k j : Nat} {x : Item} (at_ : ItemAt (nodeAt part disk b q) k j x) (isFile : x.isDir = false)
      (number : r.inodeNo = some x.iNo) (type : r.fileType = .regular)
  | dir {k j : Nat} {x : Item} (at_ : ItemAt (nodeAt part disk b q) k j x) (isDir : x.isDir = true)
      (number : r.inodeNo = some x.iNo) (type : r.fileType = .directory) (last : names.getLast? = some x.name.bytes)
  | root (number : r.inodeNo = some 0) (type : r.fileType = .directory) (isRoot : r.parentDir.isRoot = true)

/-- The same, with the way there. -/
inductive Outcome (part : Partition) (disk : Image) (b : Bitmap) (sh : Shape) (names : List (List Byte)) (q : Nat)
    (r : SearchResult) : Prop
  | none {pre post : List (List Byte)} {name : List Byte} (walk : Denotes part disk b sh pre q) (no : r.inodeNo = none)
      (type : r.fileType = .unknown) (split : names = pre ++ name :: post) (searched : r.searchedPath = joinPath (pre ++ [name]))
      (short : name.length < 16)
  | file {pre post : List (List Byte)} {k j : Nat} {x : Item} (walk : Denotes part disk b sh pre q)
      (at_ : ItemAt (nodeAt part disk b q) k j x) (isFile : x.isDir = false) (number : r.inodeNo = some x.iNo)
      (type : r.fileType = .regular) (split : names = pre ++ x.name.bytes :: post)
      (searched : r.searchedPath = joinPath (pre ++ [x.name.bytes])) (parent : r.parentDir.isRoot = true ↔ pre = [])
  | dir {k j : Nat} {x : Item} (walk : Denotes part disk b sh names x.iNo) (at_ : ItemAt (nodeAt part disk b q) k j x)
      (isDir : x.isDir = true) (number : r.inodeNo = some x.iNo) (type : r.fileType = .directory)
      (last : names.getLast? = some x.name.bytes) (before : Denotes part disk b sh names.dropLast q)
  | root (walk : Denotes part disk b sh names 0) (number : r.inodeNo = some 0) (type : r.fileType = .directory)
      (isRoot : r.parentDir.isRoot = true) (top : q = 0) (few : names.length ≤ 1)

theorem Outcome.found {part : Partition} {disk : Image} {b : Bitmap} {sh : Shape} {names : List (List Byte)} {q : Nat}
    {r : SearchResult} (outcome : Outcome part disk b sh names q r) : Found part disk b names q r := by
  cases outcome with
  | none _ no type split searched short => exact .none no type split searched short
  | file _ at_ isFile number type _ _ _ => exact .file at_ isFile number type
  | dir _ at_ isDir number type last _ => exact .dir at_ isDir number type last
  | root _ number type isRoot => exact .root number type isRoot

section Walk

variable {part : Partition} {n : Nat} {me : Option Nat} {sh : Shape} {H : Nat → Nat}

theorem DirAt.browsed {s t : Fs} {d : Dir} {q : Nat} (dirAt : DirAt s sh d q) (browsed : Browsed s t)
    (fresh : d.inode < s.nextAddr) (mem : d.inode ∈ t.openInodes) : DirAt t sh d q := by
  refine ⟨mem, ?_, dirAt.live, dirAt.dir⟩
  rw [browsed.inodes _ fresh]
  exact dirAt.number

/-- The directory behind a handle is well formed, seen through the cached inode too. -/
theorem FsCore.dirWf {s : Fs} {d : Dir} {q : Nat} (inv : FsCore part n s sh H) (dirAt : DirAt s sh d q) :
    DirWf part n (s.vnode d.inode) q (sh.up q) ∧ Sized (s.vnode d.inode) ∧
      (∀ k j x, ItemAt (s.vnode d.inode) k j x ↔ ItemAt (nodeAt part s.disk s.blockBitmap q) k j x) ∧
      ∀ k, k < 141 → blockRef s.disk (s.inodes d.inode) k = blockRef s.disk (slot part s.disk q) k := by
  obtain ⟨wf, sized⟩ := (inv.tree.node q dirAt.live).dirWf dirAt.dir
  have stored := inv.cache.stored d.inode dirAt.mem (by rw [dirAt.number]; exact dirAt.live)
  rw [dirAt.number] at stored
  obtain ⟨wf', items, refs⟩ := wf.move (s.vnode d.inode) stored (fun _ _ _ _ => rfl) fun _ _ h => h
  exact ⟨wf', sized.congr stored.iSize items, items, refs⟩

/-- An entry for a directory names a live directory. -/
theorem FsCore.itemDir {s : Fs} {q k j : Nat} {x : Item} (inv : FsCore part n s sh H) (live : sh.live q) (dir : sh.dir q)
    (at_ : ItemAt (nodeAt part s.disk s.blockBitmap q) k j x) : sh.live x.iNo ∧ (x.isDir = true ↔ sh.dir x.iNo) := by
  obtain ⟨wf, -⟩ := (inv.tree.node q live).dirWf dir
  by_cases ord : x.Ordinary
  · obtain ⟨live', -, kind⟩ := inv.tree.naming.named q x live dir ⟨ord, k, j, at_⟩
    exact ⟨live', kind⟩
  obtain ⟨isDir, ⟨-, number⟩ | ⟨-, number⟩⟩ := wf.dots at_ ord
  · rw [number, isDir]
    exact ⟨live, fun _ => dir, fun _ => rfl⟩
  · obtain ⟨live', dir'⟩ := inv.tree.naming.up live dir
    rw [number, isDir]
    exact ⟨live', fun _ => dir', fun _ => rfl⟩

/-- **`search_dir_entry`** through an open directory. -/
theorem searchDirEntry_inv {s t : Fs} {d : Dir} {q : Nat} {r : Option DirEntry} (lay : Layout part n)
    (inv : FsInv part n s sh H) (dirAt : DirAt s sh d q) (name : Name)
    (h : searchDirEntry part me s d name.bytes = .ok (r, t)) :
    FsInv part n t sh H ∧ Browsed s t ∧ DirAt t sh d q ∧
      (r = none ∨ ∃ k j x, ItemAt (nodeAt part s.disk s.blockBitmap q) k j x ∧ x.name = name ∧ r = some x.entry) := by
  simp only [searchDirEntry] at h
  split at h
  case isFalse =>
    -- without memory nothing is found
    rw [pure_ok] at h
    cases h
    exact ⟨inv.malloc, browsed_malloc, ⟨dirAt.mem, dirAt.number, dirAt.live, dirAt.dir⟩, .inl rfl⟩
  simp only [bind_ok, defined_ok, mustMalloc_ok, pure_ok, exists_const] at h
  obtain ⟨-, s2, ⟨-, rfl⟩, found, searched, h⟩ := h
  cases h
  obtain ⟨wf, -, items, -⟩ := inv.dirWf dirAt
  obtain ⟨r', ran, spec⟩ := searchEntry_spec lay wf name
  have same : searchEntry part s.disk (s.inodes d.inode) name.bytes = .ok r := searched
  rw [show searchEntry part s.disk (s.inodes d.inode) name.bytes = .ok r' from ran] at same
  cases same
  refine ⟨inv.malloc.malloc, browsed_malloc.trans browsed_malloc, ⟨dirAt.mem, dirAt.number, dirAt.live, dirAt.dir⟩, ?_⟩
  obtain ⟨none, -⟩ | ⟨k, j, x, at_, same, is⟩ := spec
  · exact .inl none
  · exact .inr ⟨k, j, x, (items k j x).1 at_, same, is⟩

theorem appendSearched_ok {searched name path : List Byte} (h : appendSearched searched name = .ok path) :
    name.length < 16 ∧ path = searched ++ slash :: name := by
  simp only [appendSearched, bind_ok, assertThat_ok, defined_ok, pure_ok, exists_const] at h
  obtain ⟨-, ⟨short, -⟩, rfl⟩ := h
  exact ⟨short, rfl⟩

theorem joinPath_concat (names : List (List Byte)) (name : List Byte) :
    joinPath (names ++ [name]) = joinPath names ++ slash :: name := by
  simp [joinPath]

/-- The entry the walk came through last: the directory it stands in, and what it names. -/
structure Through (part : Partition) (s : Fs) (sh : Shape) (done : List (List Byte)) (w : Walk) (q : Nat) (x : Item) (k j : Nat) :
    Prop where
  number : x.iNo = q
  dirE : w.dirE = some x.entry
  live : sh.live w.parentInodeNo
  dir : sh.dir w.parentInodeNo
  at_ : ItemAt (nodeAt part s.disk s.blockBitmap w.parentInodeNo) k j x
  isDir : x.isDir = true
  last : done.getLast? = some x.name.bytes
  before : Denotes part s.disk s.blockBitmap sh done.dropLast w.parentInodeNo

theorem dirOpen_isRoot {s t : Fs} {m : Nat} {d : Dir} (h : dirOpen part me s m = .ok (d, t)) : d.isRoot = false := by
  simp only [dirOpen, bind_ok, pure_ok, Prod.exists] at h
  obtain ⟨_, -, _, _, -, e⟩ := h
  cases e
  rfl

/-- The loop of `search_file`. -/
theorem walkPath_outcome (lay : Layout part n) (room : ∀ a, H a + 2 < 2 ^ 32) :
    ∀ (names done : List (List Byte)) {w : Walk} {s t : Fs} {r : SearchResult} {q : Nat},
    walkPath part me names w s = .ok (r, t) → FsInv part n s sh (hold H w.parentDir) → DirAt s sh w.parentDir q →
    (∀ name ∈ names, IsComponent name ∧ 0#8 ∉ name) → w.searchedPath = joinPath done →
    Denotes part s.disk s.blockBitmap sh done q → (w.parentDir.isRoot = true ↔ done = []) →
    (w.dirE = none ∨ ∃ x k j, Through part s sh done w q x k j) →
    ∃ q', FsInv part n t sh (hold H r.parentDir) ∧ Browsed s t ∧ DirAt t sh r.parentDir q' ∧
      Outcome part s.disk s.blockBitmap sh (done ++ names) q' r := by
  intro names
  induction names with
  | nil =>
    intro done w s t r q h inv dirAt _ _ walk _ came
    rw [walkPath] at h
    obtain none | ⟨x, k, j, through⟩ := came
    · rw [none] at h
      exact (throw_ok.1 h).elim
    simp only [through.dirE, bind_ok, pure_ok, Prod.exists] at h
    obtain ⟨s1, closed, dir, s2, opened, h⟩ := h
    cases h
    obtain ⟨inv1, browsed1⟩ := dirClose_inv inv (room _) closed
    obtain ⟨inv2, browsed2, dirAt2, -⟩ := dirOpen_inv inv1 through.live through.dir opened
    refine ⟨_, inv2, browsed1.trans browsed2, dirAt2, .dir ?_ through.at_ through.isDir rfl rfl (by simpa using through.last)
      (by rw [List.append_nil]; exact through.before)⟩
    rw [List.append_nil, through.number]
    exact walk
  | cons name rest ih =>
    intro done w s t r q h inv dirAt components searched walk parent _
    rw [walkPath] at h
    simp only [bind_ok, Prod.exists] at h
    obtain ⟨path, appended, found, s1, search, h⟩ := h
    obtain ⟨short, rfl⟩ := appendSearched_ok appended
    obtain ⟨component, noZero⟩ := components name List.mem_cons_self
    have path : w.searchedPath ++ slash :: name = joinPath (done ++ [name]) := by
      rw [joinPath_concat, searched]
    obtain ⟨inv1, browsed1, dirAt1, spec⟩ := searchDirEntry_inv lay inv dirAt
      ⟨name, component.nonempty, by omega, noZero⟩ search
    obtain rfl | ⟨k, j, x, at_, same, rfl⟩ := spec
    · simp only [pure_ok] at h
      cases h
      exact ⟨q, inv1, browsed1, dirAt1, .none walk rfl rfl rfl path short⟩
    simp only [bind_ok, defined_ok, exists_const] at h
    obtain ⟨-, h⟩ := h
    obtain ⟨live, kind⟩ := inv.itemDir dirAt.live dirAt.dir at_
    have bytes : x.name.bytes = name := congrArg Name.bytes same
    have on : Denotes part s.disk s.blockBitmap sh (done ++ [name]) x.iNo :=
      walk.concat dirAt.dir ((inv.tree.step_iff dirAt.live dirAt.dir).2 ⟨k, j, x, at_, bytes, rfl⟩)
    by_cases isDir : x.isDir = true
    · have code : x.entry.fType = FileTypes.directory.code := by simp [Item.entry, Item.fType, isDir]
      rw [if_pos code] at h
      simp only [bind_ok, Prod.exists] at h
      obtain ⟨s2, closed, dir, s3, opened, h⟩ := h
      obtain ⟨inv2, browsed2⟩ := dirClose_inv inv1 (room _) closed
      obtain ⟨inv3, browsed3, dirAt3, -⟩ := dirOpen_inv inv2 live (kind.1 isDir) opened
      have browsed := browsed1.trans (browsed2.trans browsed3)
      have number : (s1.inodes w.parentDir.inode).iNo = q := dirAt1.number
      obtain ⟨q', inv4, browsed4, dirAt4, outcome⟩ := ih (done ++ [name]) h inv3 dirAt3
        (fun x mem => components x (List.mem_cons_of_mem _ mem)) path (by rw [browsed.disk, browsed.blockBitmap]; exact on)
        ⟨fun isRoot => absurd isRoot (by rw [dirOpen_isRoot opened]; decide), fun none => absurd none (by simp)⟩
        (.inr ⟨x, k, j, rfl, rfl, by simpa only [number] using dirAt.live, by simpa only [number] using dirAt.dir, by
          simp only [number]
          rw [browsed.disk, browsed.blockBitmap]
          exact at_, isDir, by simp [bytes], by
          rw [List.dropLast_concat, browsed.disk, browsed.blockBitmap]
          simp only [number]
          exact walk⟩)
      refine ⟨q', inv4, browsed.trans browsed4, dirAt4, ?_⟩
      rw [browsed.disk, browsed.blockBitmap, List.append_assoc] at outcome
      exact outcome
    · have code : x.entry.fType = FileTypes.regular.code := by simp [Item.entry, Item.fType, isDir]
      rw [if_neg (by rw [code]; decide), if_pos code, pure_ok] at h
      cases h
      exact ⟨q, inv1, browsed1, dirAt1, .file walk at_ (by simpa using isDir) rfl rfl (by rw [bytes])
        (by rw [bytes]; exact path) parent⟩

/-- The three paths `search_file` knows to be the root. -/
theorem Tree.denotes_root {disk : Image} {b : Bitmap} (tree : Tree part n disk b sh) {path : List Byte}
    (special : path = [slash] ∨ path = [slash, 0x2e#8] ∨ path = [slash, 0x2e#8, 0x2e#8]) :
    Denotes part disk b sh (pathNames path) 0 := by
  obtain ⟨-, dir, up⟩ := tree.naming.top
  rcases special with rfl | rfl | rfl
  · exact .nil
  · exact .cons dir (.inl ⟨rfl, rfl⟩) .nil
  · exact .cons dir (.inr (.inl ⟨rfl, up.symm⟩)) .nil

/-- **`search_file`** returns with a handle on the parent directory, with what it found, and
with the way there. -/
theorem searchFile_outcome (lay : Layout part n) (room : ∀ a, H a + 2 < 2 ^ 32) {s t : Fs} {path : List Byte} {r : SearchResult}
    (inv : FsInv part n s sh H) (noZero : 0#8 ∉ path) (h : searchFile part me s path = .ok (r, t)) :
    ∃ q, FsInv part n t sh (hold H r.parentDir) ∧ Browsed s t ∧ DirAt t sh r.parentDir q ∧
      Outcome part s.disk s.blockBitmap sh (pathNames path) q r := by
  simp only [searchFile] at h
  split at h
  · rename_i special
    rw [pure_ok] at h
    cases h
    refine ⟨0, inv, .refl _, inv.rootAt, .root (inv.tree.denotes_root special) rfl rfl rfl rfl ?_⟩
    rcases special with rfl | rfl | rfl <;> decide
  · simp only [bind_ok, assertThat_ok, defined_ok, exists_const] at h
    obtain ⟨-, -, h⟩ := h
    refine walkPath_outcome lay room (pathNames path) [] h inv inv.rootAt (fun name mem => ?_) rfl .nil
      ⟨fun _ => rfl, fun _ => rfl⟩ (.inl rfl)
    obtain ⟨component, sub⟩ := mem_pathNamesFuel _ mem
    exact ⟨component, fun zero => noZero (sub _ zero)⟩

theorem searchFile_inv (lay : Layout part n) (room : ∀ a, H a + 2 < 2 ^ 32) {s t : Fs} {path : List Byte} {r : SearchResult}
    (inv : FsInv part n s sh H) (noZero : 0#8 ∉ path) (h : searchFile part me s path = .ok (r, t)) :
    ∃ q, FsInv part n t sh (hold H r.parentDir) ∧ Browsed s t ∧ DirAt t sh r.parentDir q ∧
      Found part s.disk s.blockBitmap (pathNames path) q r := by
  obtain ⟨q, inv', browsed, dirAt, outcome⟩ := searchFile_outcome lay room inv noZero h
  exact ⟨q, inv', browsed, dirAt, outcome.found⟩

end Walk

end Sparrow
