import Sparrow.Fs.PathCalls

/-!
# The calls return

With memory for every allocation, and a task that can follow the list of open inodes, looking
up a path and releasing an inode return (`searchFile_returns`, `inodeRelease_returns`): no
assertion fails and no access is undefined. A search that finds nothing has missed nothing.
-/

namespace Sparrow
set_option autoImplicit false

/-- Every allocation succeeds, and the running task can follow the list of open inodes and
give back the handles it takes. `H` counts the handles the others have. -/
structure Calm (me : Option Nat) (H : Nat → Nat) (s : Fs) : Prop where
  heap : s.mallocs = []
  reach : ∀ a ∈ s.openInodes, Reachable me s a
  pools : ∀ a ∈ s.openInodes, 0 < H a ∨ a = s.rootDir ∨ s.pool a = none

section Calm

variable {part : Partition} {n m : Nat} {me : Option Nat} {s t : Fs} {sh : Shape} {H H' : Nat → Nat}

theorem Calm.mallocOk (calm : Calm me H s) : s.mallocOk = true := by
  rw [Fs.mallocOk, calm.heap]
  rfl

theorem Calm.malloc (calm : Calm me H s) : Calm me H s.malloc := by
  refine ⟨?_, calm.reach, calm.pools⟩
  rw [Fs.malloc, calm.heap]
  rfl

theorem Calm.mustMalloc (calm : Calm me H s) : mustMalloc s = .ok s.malloc := by
  rw [Sparrow.mustMalloc, defined_of calm.mallocOk]
  rfl

theorem Calm.close {a : Nat} (h : inodeClose me s a = .ok t) (calm : Calm me H s) : Calm me H t := by
  obtain ⟨-, rfl⟩ := inodeClose_ok h
  have sub : ∀ a', a' ∈ (s.release a).openInodes → a' ∈ s.openInodes := by
    intro a' mem
    simp only [Fs.release] at mem
    split at mem
    · exact List.mem_of_mem_erase mem
    · exact mem
  exact ⟨calm.heap, fun a' mem => calm.reach a' (sub a' mem), fun a' mem => calm.pools a' (sub a' mem)⟩

theorem calm_invariant : CacheInvariant part me (Calm me H) where
  opens opened calm := by
    obtain ⟨-, -, -, rfl⟩ | ⟨-, -, rfl, rfl⟩ := inodeOpen_ok opened
    · exact ⟨calm.heap, calm.reach, calm.pools⟩
    · refine ⟨calm.malloc.malloc.heap, fun a mem => ?_, fun a mem => ?_⟩
      · simp only [Fs.load, List.mem_cons, Reachable] at mem ⊢
        split
        · exact .inl rfl
        · rename_i old
          exact calm.reach a (mem.resolve_left old)
      · simp only [Fs.load, List.mem_cons] at mem ⊢
        split
        · exact .inr (.inr rfl)
        · rename_i old
          exact calm.pools a (mem.resolve_left old)
  closes := Calm.close
  mallocs := Calm.malloc

theorem Calm.dirClose {d : Dir} (h : dirClose me s d = .ok t) (calm : Calm me H s) : Calm me H t :=
  dirClose_keeps Calm.close h calm

/-- At first all open inodes are held by others. -/
theorem FsCore.calm (inv : FsCore part n s sh H) (heap : s.mallocs = []) (reach : ∀ a ∈ s.openInodes, Reachable me s a) :
    Calm me H s :=
  ⟨heap, reach, fun a mem => ((inv.cache.held a).1 mem).imp_right .inl⟩

theorem findOpen_returns : ∀ l : List Nat, (∀ a ∈ l, Reachable me s a) → ∃ r, findOpen me s m l = .ok r := by
  intro l
  induction l with
  | nil => exact fun _ => ⟨none, rfl⟩
  | cons a rest ih =>
    intro reach
    rw [findOpen, defined_of (reach a List.mem_cons_self), ok_bind]
    split
    · exact ⟨some a, rfl⟩
    · exact ih fun a' mem => reach a' (List.mem_cons_of_mem _ mem)

theorem inodeOpen_returns (lay : Layout part n) (calm : Calm me H s) (low : m < 4096) :
    ∃ addr t, inodeOpen part me s m = .ok (addr, t) := by
  obtain ⟨r, found⟩ := findOpen_returns (m := m) s.openInodes calm.reach
  rw [inodeOpen, found, ok_bind]
  cases r with
  | some addr => exact ⟨_, _, rfl⟩
  | none =>
    obtain ⟨pos, located⟩ := inodeLocate_of_lt part low
    have transfer := (inodeLocate_ok located).transfer lay.tableFits
    simp only [located, ok_bind, calm.mustMalloc, calm.malloc.mustMalloc, ideRead_of transfer]
    exact ⟨_, _, rfl⟩

/-- A handle the caller took is given back: whoever has none made the object in the kernel pool. -/
theorem inodeClose_returns {a : Nat} (calm : Calm me H s) (core : FsCore part n s sh (bump H' a)) (le : ∀ a, H a ≤ H' a)
    (room : H' a + 2 < 2 ^ 32) : ∃ t, inodeClose me s a = .ok t := by
  have mem : a ∈ s.openInodes := (core.cache.held a).2 (.inl (by rw [bump_self]; omega))
  have count := core.cache.counts a mem
  rw [bump_self] at count
  rw [inodeClose, defined_of (calm.reach a mem), ok_bind]
  dsimp only
  split
  · rename_i last
    have kernel : s.pool a = none := by
      have less := le a
      rw [count, subU32_of_le (by omega) (by split <;> omega)] at last
      rcases calm.pools a mem with held | isRoot | kernel
      · split at last <;> omega
      · rw [if_pos isRoot] at last
        omega
      · exact kernel
    rw [assertThat_of (show (s.setInode a _).pool a = none from kernel)]
    exact ⟨_, rfl⟩
  · exact ⟨_, rfl⟩

theorem dirOpen_returns (lay : Layout part n) (calm : Calm me H s) (low : m < 4096) :
    ∃ d t, dirOpen part me s m = .ok (d, t) := by
  obtain ⟨addr, t, opened⟩ := inodeOpen_returns lay calm.malloc low
  rw [dirOpen, calm.mustMalloc, ok_bind, opened]
  exact ⟨_, _, rfl⟩

theorem dirClose_returns {d : Dir} (calm : Calm me H s) (inv : FsCore part n s sh (hold H' d)) (le : ∀ a, H a ≤ H' a)
    (room : H' d.inode + 2 < 2 ^ 32) : ∃ t, dirClose me s d = .ok t := by
  rw [dirClose]
  split
  · exact ⟨s, rfl⟩
  · rename_i other
    rw [hold, if_neg other] at inv
    exact inodeClose_returns calm inv le room

/-- **`search_dir_entry`** returns, and finds what is there. -/
theorem searchDirEntry_returns {d : Dir} {q : Nat} (lay : Layout part n) (inv : FsInv part n s sh H') (calm : Calm me H s)
    (dirAt : DirAt s sh d q) (name : Name) :
    ∃ r t, searchDirEntry part me s d name.bytes = .ok (r, t) ∧
      (r = none → ∀ k j x, ItemAt (nodeAt part s.disk s.blockBitmap q) k j x → x.name ≠ name) := by
  obtain ⟨wf, -, items, -⟩ := inv.dirWf dirAt
  obtain ⟨r, ran, spec⟩ := searchEntry_spec lay wf name
  have search : searchEntry part s.malloc.malloc.disk (s.malloc.malloc.inodes d.inode) name.bytes = .ok r := ran
  rw [searchDirEntry, if_pos calm.mallocOk]
  dsimp only
  rw [defined_of (show Reachable me s.malloc d.inode from calm.reach _ dirAt.mem), ok_bind, calm.malloc.mustMalloc, ok_bind,
    search, ok_bind]
  refine ⟨r, _, rfl, fun isNone k j x at_ => ?_⟩
  obtain ⟨-, absent⟩ | ⟨_, _, _, -, -, some_⟩ := spec
  · exact absent k j x ((items k j x).2 at_)
  · rw [isNone] at some_
    cases some_

end Calm

section Search

variable {part : Partition} {n : Nat} {me : Option Nat} {s : Fs} {sh : Shape} {H : Nat → Nat}

theorem appendSearched_returns {searched name : List Byte} (short : name.length < 16)
    (fits : searched.length + 1 + name.length < 512) : appendSearched searched name = .ok (searched ++ slash :: name) := by
  rw [appendSearched, assertThat_of (by omega), ok_bind, defined_of ⟨short, fits⟩]
  rfl

/-- Every name the path comes to fits the name buffer, and every name that is looked for leaves
room for its terminator there. -/
def Legible (g : Naming Nat Item) (q : Nat) (names : List (List Byte)) : Prop :=
  Naming.Along pathLabels g (fun m name => name.length ≤ maxFileNameLen ∧ (g.dir m → name.length < maxFileNameLen)) q names

theorem legible_of_short {g : Naming Nat Item} {q : Nat} {names : List (List Byte)}
    (short : ∀ name ∈ names, name.length < maxFileNameLen) : Legible g q names :=
  Naming.along_of_forall fun name mem _ => ⟨Nat.le_of_lt (short name mem), fun _ => short name mem⟩

theorem legible_cons {g : Naming Nat Item} {q : Nat} {name : List Byte} {names : List (List Byte)} (dir : g.dir q) :
    Legible g q (name :: names) ↔ name.length < maxFileNameLen ∧ ∀ m, Naming.Step pathLabels g q name m → Legible g m names := by
  rw [Legible, Naming.along_cons dir]
  exact and_congr_left fun _ => ⟨fun h => h.2 dir, fun h => ⟨Nat.le_of_lt h, fun _ => h⟩⟩

/-- Past a name that is there, only the rest counts. -/
theorem legible_step {g : Naming Nat Item} {q m : Nat} {name : List Byte} {names : List (List Byte)} (clear : pathLabels.Clear g)
    (live : g.live q) (dir : g.dir q) (short : name.length < maxFileNameLen) (stepped : Naming.Step pathLabels g q name m) :
    Legible g q (name :: names) ↔ Legible g m names := by
  rw [legible_cons dir]
  refine ⟨fun legible => legible.2 _ stepped, fun legible => ⟨short, fun m' stepped' => ?_⟩⟩
  rw [stepped'.unique clear live dir stepped]
  exact legible

theorem Legible.head {g : Naming Nat Item} {q : Nat} {names : List (List Byte)} (legible : Legible g q names) :
    ∀ name ∈ names.head?, name.length ≤ maxFileNameLen := by
  intro name mem
  obtain ⟨rest, rfl⟩ := List.head?_eq_some_iff.1 mem
  exact (legible [] name rest q rfl .nil).1

/-- Behind a file only one name is parsed. -/
theorem legible_of_leaf {g : Naming Nat Item} {q : Nat} {names : List (List Byte)} (file : ¬ g.dir q)
    (next : ∀ name ∈ names.head?, name.length ≤ maxFileNameLen) : Legible g q names := by
  intro pre name post m is walk
  cases walk with
  | nil =>
    subst is
    exact ⟨next name rfl, fun dir => absurd dir file⟩
  | cons dir _ _ => exact absurd dir file

/-- The loop of `search_file` returns and misses nothing, or it stops at a name that is too long. -/
theorem walkPath_returns (lay : Layout part n) (room : ∀ a, H a + 2 < 2 ^ 32) :
    ∀ (names done : List (List Byte)) {w : Walk} {s : Fs} {q : Nat}, FsInv part n s sh (hold H w.parentDir) → Calm me H s →
    DirAt s sh w.parentDir q → (∀ name ∈ names, IsComponent name ∧ 0#8 ∉ name) →
    w.searchedPath = joinPath done → (joinPath (done ++ names)).length < 512 →
    (names = [] → w.dirE ≠ none ∧ sh.live w.parentInodeNo) →
    (∃ r t, walkPath part me names w s = .ok (r, t) ∧ Legible (naming part s.disk s.blockBitmap sh) q names ∧
      (r.inodeNo = none → Naming.Stuck pathLabels (naming part s.disk s.blockBitmap sh) q names)) ∨
    (∃ e, walkPath part me names w s = .error e) ∧ ¬ Legible (naming part s.disk s.blockBitmap sh) q names := by
  intro names
  induction names with
  | nil =>
    intro done w s q inv calm dirAt _ _ _ came
    obtain ⟨some, live⟩ := came rfl
    obtain ⟨e, is⟩ := Option.ne_none_iff_exists'.1 some
    obtain ⟨s1, closed⟩ := dirClose_returns calm inv.toFsCore (fun _ => Nat.le_refl _) (room _)
    have calm1 := calm.dirClose closed
    obtain ⟨d, s2, opened⟩ := dirOpen_returns lay calm1 (Nat.lt_trans (inv.tree.low _ live) (by decide))
    simp only [walkPath, is, closed, ok_bind, opened]
    exact .inl ⟨_, _, rfl, legible_of_short (by rintro name ⟨⟩), by rintro ⟨⟩⟩
  | cons name rest ih =>
    intro done w s q inv calm dirAt components searched fits _
    obtain ⟨component, noZero⟩ := components name List.mem_cons_self
    have length : (joinPath (done ++ name :: rest)).length = (joinPath done).length + 1 + name.length + (joinPath rest).length := by
      simp only [joinPath, List.flatMap_append, List.flatMap_cons, List.length_append, List.length_cons]
      omega
    by_cases short : name.length < maxFileNameLen
    swap
    · refine .inr ⟨?_, fun legible => short ((legible_cons dirAt.dir).1 legible).1⟩
      have long : ¬ (name.length < maxFileNameLen ∧ w.searchedPath.length + 1 + name.length < maxPathLen) := fun both => short both.1
      rw [walkPath, appendSearched, assertThat_of (by rw [searched]; omega), ok_bind, defined_not long]
      exact ⟨_, rfl⟩
    have appended := @appendSearched_returns w.searchedPath name short (by rw [searched]; omega)
    obtain ⟨found, s1, search, missed⟩ :=
      searchDirEntry_returns lay inv calm dirAt ⟨name, component.nonempty, Nat.le_of_lt_succ short, noZero⟩
    obtain ⟨inv1, browsed1, dirAt1, spec⟩ := searchDirEntry_inv lay inv dirAt _ search
    have calm1 := calm_invariant.searchDirEntry search calm
    have search' : searchDirEntry part me s w.parentDir name = .ok (found, s1) := search
    have step := fun m => @Tree.step_iff part n q s.disk s.blockBitmap sh inv.tree dirAt.live dirAt.dir name m
    simp only [walkPath, appended, ok_bind, search']
    obtain rfl | ⟨k, j, x, at_, same, rfl⟩ := spec
    · have nowhere : ∀ m, ¬ Naming.Step pathLabels (naming part s.disk s.blockBitmap sh) q name m := by
        intro m stepped
        obtain ⟨k, j, x, at_, bytes, -⟩ := (step m).1 stepped
        exact missed rfl k j x at_ (Name.ext_bytes bytes)
      exact .inl ⟨_, _, rfl, (legible_cons dirAt.dir).2 ⟨short, fun m stepped => absurd stepped (nowhere m)⟩,
        fun _ => .here dirAt.dir nowhere⟩
    obtain ⟨live, kind⟩ := inv.itemDir dirAt.live dirAt.dir at_
    have bytes : x.name.bytes = name := congrArg Name.bytes same
    have stepped : Naming.Step pathLabels (naming part s.disk s.blockBitmap sh) q name x.iNo := (step _).2 ⟨k, j, x, at_, bytes, rfl⟩
    rw [legible_step inv.tree.clear dirAt.live dirAt.dir short stepped]
    by_cases next : ∀ name ∈ rest.head?, name.length ≤ maxFileNameLen
    swap
    · rw [defined_not next]
      exact .inr ⟨⟨_, rfl⟩, fun legible => next legible.head⟩
    simp only [defined_of next, ok_bind]
    by_cases isDir : x.isDir = true
    · have code : x.entry.fType = FileTypes.directory.code := by simp [Item.entry, Item.fType, isDir]
      have lower : x.iNo < 4096 := Nat.lt_trans (inv.tree.low _ live) (by decide)
      obtain ⟨s2, closed⟩ := dirClose_returns calm1 inv1.toFsCore (fun _ => Nat.le_refl _) (room _)
      obtain ⟨inv2, browsed2⟩ := dirClose_inv inv1 (room _) closed
      have calm2 := calm1.dirClose closed
      obtain ⟨d, s3, opened⟩ := dirOpen_returns lay calm2 lower
      obtain ⟨inv3, browsed3, dirAt3, -⟩ := dirOpen_inv inv2 live (kind.1 isDir) opened
      have calm3 := calm_invariant.dirOpen opened calm2
      have number : (s1.inodes w.parentDir.inode).iNo = q := dirAt1.number
      have browsed := browsed1.trans (browsed2.trans browsed3)
      have opened' : dirOpen part me s2 x.entry.iNo = .ok (d, s3) := opened
      have later := ih (done ++ [name]) (w := ⟨d, (s1.inodes w.parentDir.inode).iNo, some x.entry,
          w.searchedPath ++ slash :: name⟩) inv3 calm3 dirAt3 (fun x mem => components x (List.mem_cons_of_mem _ mem))
        (by rw [joinPath_concat, searched]) (by rw [List.append_assoc]; exact fits)
        fun _ => ⟨Option.some_ne_none _, by rw [number]; exact dirAt.live⟩
      rw [browsed.disk, browsed.blockBitmap] at later
      rw [if_pos code]
      simp only [closed, ok_bind, opened']
      obtain ⟨r, t, ran, legible, stuck⟩ | stops := later
      · exact .inl ⟨r, t, ran, legible, fun none => .next dirAt.dir stepped (stuck none)⟩
      · exact .inr stops
    · have code : x.entry.fType = FileTypes.regular.code := by simp [Item.entry, Item.fType, isDir]
      have file : ¬ sh.dir x.iNo := fun dir => isDir (kind.2 dir)
      rw [if_neg (by rw [code]; decide), if_pos code]
      exact .inl ⟨_, _, rfl, legible_of_leaf file next, by rintro ⟨⟩⟩

/-- The names of an absolute path, each with one slash, are no longer than the path. -/
theorem joinPath_pathNames_le : ∀ (fuel : Nat) {path : List Byte}, path.head? = some slash →
    (joinPath (pathNamesFuel fuel path)).length ≤ path.length := by
  intro fuel
  induction fuel with
  | zero => intro path _; exact Nat.zero_le _
  | succ fuel ih =>
    intro path abs
    obtain ⟨slashes, name, rest, is, -, noSlash, shape, parsed⟩ := pathParse_cases path
    have begin_ : slashes ≠ [] := by
      rintro rfl
      rcases name with _ | ⟨c, name⟩
      · obtain rfl | ⟨some_, -⟩ := shape
        · rw [is] at abs
          cases abs
        · exact some_ rfl
      · rw [is] at abs
        cases abs
        exact noSlash List.mem_cons_self
    have length : path.length = slashes.length + name.length + rest.length := by
      rw [is]
      simp only [List.length_append]
    have pos := List.length_pos_of_ne_nil begin_
    rw [pathNamesFuel, parsed]
    split
    · exact Nat.zero_le _
    · rename_i name' none e
      simp only [Prod.mk.injEq] at e
      obtain ⟨rfl, -⟩ := e
      simp only [joinPath, List.flatMap_cons, List.flatMap_nil, List.length_append, List.length_cons, List.length_nil]
      omega
    · rename_i name' rest' some_ e
      simp only [Prod.mk.injEq] at e
      obtain ⟨rfl, e⟩ := e
      obtain rfl | ⟨-, r, rfl⟩ := shape
      · cases e
      · cases e
        have := @ih (slash :: r) rfl
        simp only [joinPath, List.flatMap_cons, List.length_append, List.length_cons] at this length ⊢
        omega

/-- A path the calls accept: absolute, shorter than the buffers, with names that fit theirs. -/
structure Pathname (path : List Byte) : Prop where
  abs : path.head? = some slash
  short : path.length < maxPathLen
  noZero : 0#8 ∉ path
  names : ∀ name ∈ pathNames path, name.length < maxFileNameLen

/-- The three paths that `search_file` takes for the root without looking. -/
def IsTop (path : List Byte) : Prop := path = [slash] ∨ path = [slash, 0x2e#8] ∨ path = [slash, 0x2e#8, 0x2e#8]

/-- A path that `search_file` looks up: it is absolute and shorter than the path buffer, it has a
name, and the names it comes to fit the name buffer. -/
def Searchable (part : Partition) (s : Fs) (sh : Shape) (path : List Byte) : Prop :=
  IsTop path ∨ path.head? = some slash ∧ path.length < maxPathLen ∧ pathNames path ≠ [] ∧
    Legible (naming part s.disk s.blockBitmap sh) 0 (pathNames path)

/-- **`search_file`** returns and misses nothing, or the path is not one it looks up. -/
theorem searchFile_returns_or (lay : Layout part n) (room : ∀ a, H a + 2 < 2 ^ 32) (inv : FsInv part n s sh H)
    (calm : Calm me H s) {path : List Byte} (noZero : 0#8 ∉ path) :
    (∃ r t, searchFile part me s path = .ok (r, t) ∧ Searchable part s sh path ∧
      (r.inodeNo = none → Naming.Stuck pathLabels (naming part s.disk s.blockBitmap sh) 0 (pathNames path))) ∨
    (∃ e, searchFile part me s path = .error e) ∧ ¬ Searchable part s sh path := by
  rw [searchFile]
  by_cases top : IsTop path
  · rw [if_pos (show path = [slash] ∨ _ from top)]
    exact .inl ⟨_, _, rfl, .inl top, by rintro ⟨⟩⟩
  rw [if_neg (show ¬ (path = [slash] ∨ _) from top)]
  by_cases accepted : path.head? = some slash ∧ 1 < path.length ∧ path.length < maxPathLen
  swap
  · rw [assertThat_not accepted]
    refine .inr ⟨⟨_, rfl⟩, ?_⟩
    rintro (yes | ⟨abs, short, named, -⟩)
    · exact top yes
    · refine accepted ⟨abs, ?_, short⟩
      rcases path with _ | ⟨c, _ | ⟨c', rest⟩⟩
      · cases abs
      · cases abs
        exact absurd (.inl rfl) top
      · simp
  rw [assertThat_of accepted, ok_bind]
  obtain ⟨abs, -, short⟩ := accepted
  dsimp only
  by_cases first : ∀ name ∈ (pathNames path).head?, name.length ≤ maxFileNameLen
  swap
  · rw [defined_not first]
    refine .inr ⟨⟨_, rfl⟩, ?_⟩
    rintro (yes | ⟨-, -, -, legible⟩)
    · exact top yes
    · exact first legible.head
  rw [defined_of first, ok_bind]
  by_cases named : pathNames path = []
  · rw [named, walkPath]
    refine .inr ⟨⟨_, rfl⟩, ?_⟩
    rintro (yes | ⟨-, -, some_, -⟩)
    · exact top yes
    · exact some_ named
  have fits := joinPath_pathNames_le (path.length + 1) abs
  obtain ⟨r, t, ran, legible, stuck⟩ | ⟨stops, long⟩ :=
    @walkPath_returns part n me sh H lay room (pathNames path) [] ⟨s.root, 0, none, []⟩ s 0 inv calm inv.rootAt
      (fun name mem => by
        obtain ⟨component, sub⟩ := mem_pathNamesFuel _ mem
        exact ⟨component, fun zero => noZero (sub _ zero)⟩)
      rfl (Nat.lt_of_le_of_lt fits short) fun none => absurd none named
  · exact .inl ⟨r, t, ran, .inr ⟨abs, short, named, legible⟩, stuck⟩
  · refine .inr ⟨stops, ?_⟩
    rintro (yes | ⟨-, -, -, legible⟩)
    · exact top yes
    · exact long legible

/-- It returns for a path with a name. -/
theorem searchFile_returns (lay : Layout part n) (room : ∀ a, H a + 2 < 2 ^ 32) (inv : FsInv part n s sh H) (calm : Calm me H s)
    {path : List Byte} (wf : Pathname path) (named : path = [slash] ∨ pathNames path ≠ []) :
    ∃ r t, searchFile part me s path = .ok (r, t) ∧
      (r.inodeNo = none → Naming.Stuck pathLabels (naming part s.disk s.blockBitmap sh) 0 (pathNames path)) := by
  obtain ⟨r, t, ran, -, stuck⟩ | ⟨-, no⟩ := searchFile_returns_or lay room inv calm wf.noZero
  · exact ⟨r, t, ran, stuck⟩
  · exact absurd (named.imp .inl fun some_ => ⟨wf.abs, wf.short, some_, legible_of_short wf.names⟩) no

theorem malloc_heap (heap : s.mallocs = []) : s.malloc.mallocs = [] := by
  rw [Fs.malloc, heap]
  rfl

/-- The allocations are used up one after the other. -/
theorem mallocs_invariant (l : List Bool) : CacheInvariant part me (fun s => s.mallocs <:+ l) where
  opens opened left := by
    obtain ⟨-, -, -, rfl⟩ | ⟨-, -, -, rfl⟩ := inodeOpen_ok opened
    · exact left
    · exact (List.tail_suffix _).trans ((List.tail_suffix _).trans left)
  closes closed left := by
    obtain ⟨-, rfl⟩ := inodeClose_ok closed
    exact left
  mallocs left := (List.tail_suffix _).trans left

theorem heap_invariant : CacheInvariant part me (fun s => s.mallocs = []) where
  opens opened heap := List.suffix_nil.1 ((mallocs_invariant []).opens opened (List.suffix_nil.2 heap))
  closes closed heap := by
    obtain ⟨-, rfl⟩ := inodeClose_ok closed
    exact heap
  mallocs := malloc_heap

/-- Between `s` and `t` memory was asked for, and the last time there was none. -/
def OutOfMemory (s t : Fs) : Prop := false :: t.mallocs <:+ s.mallocs

theorem OutOfMemory.heap {t : Fs} (out : OutOfMemory s t) : s.mallocs ≠ [] := by
  intro heap
  rw [OutOfMemory, heap, List.suffix_nil] at out
  cases out

theorem mallocs_of_not_mallocOk (none : ¬ s.mallocOk = true) : s.mallocs = false :: s.malloc.mallocs := by
  rw [Fs.mallocOk] at none
  rw [Fs.malloc]
  cases e : s.mallocs with
  | nil =>
    rw [e] at none
    exact absurd rfl none
  | cons b rest =>
    rw [e] at none
    rw [Bool.eq_false_of_not_eq_true (show ¬ b = true from none)]
    rfl

/-- A name that `search_dir_entry` did not find is not there, or there was no memory to look for it. -/
theorem searchDirEntry_missed {t : Fs} {dir : Dir} {name : List Byte} (search : searchDirEntry part me s dir name = .ok (none, t)) :
    searchEntry part t.disk (t.inodes dir.inode) name = .ok none ∨ ¬ s.mallocOk = true ∧ t = s.malloc := by
  rw [searchDirEntry] at search
  split at search
  · simp only [bind_ok, defined_ok, mustMalloc_ok, pure_ok, exists_const] at search
    obtain ⟨-, s2, ⟨-, rfl⟩, r', searched, e⟩ := search
    cases e
    exact .inl searched
  · rename_i none
    rw [pure_ok] at search
    cases search
    exact .inr ⟨none, rfl⟩

/-- A name that was not found is not there, or there was no memory to look for it. -/
theorem walkPath_missed (l : List Bool) : ∀ (names : List (List Byte)) {w : Walk} {s t : Fs} {r : SearchResult},
    walkPath part me names w s = .ok (r, t) → s.mallocs <:+ l → (∀ name ∈ names, slash ∉ name) → r.inodeNo = none →
    searchEntry part t.disk (t.inodes r.parentDir.inode) (lastName r.searchedPath) = .ok none ∨ false :: t.mallocs <:+ l := by
  intro names
  induction names with
  | nil =>
    intro w s t r h _ _ none
    rw [walkPath] at h
    split at h
    · exact (throw_ok.1 h).elim
    · simp only [bind_ok, pure_ok, Prod.exists] at h
      obtain ⟨s1, -, dir, s2, -, h⟩ := h
      cases h
      cases none
  | cons name rest ih =>
    intro w s t r h left components none
    have later : ∀ name ∈ rest, slash ∉ name := fun name mem => components name (List.mem_cons_of_mem _ mem)
    rw [walkPath] at h
    simp only [bind_ok, Prod.exists] at h
    obtain ⟨path, appended, found, s1, search, h⟩ := h
    obtain ⟨-, rfl⟩ := appendSearched_ok appended
    have left1 := (mallocs_invariant l).searchDirEntry search left
    split at h
    · rw [pure_ok] at h
      cases h
      rw [show lastName (w.searchedPath ++ slash :: name) = name by
        rw [lastName_append List.mem_cons_self, lastName_component (components name List.mem_cons_self)]]
      obtain searched | ⟨noMemory, rfl⟩ := searchDirEntry_missed search
      · exact .inl searched
      · rw [mallocs_of_not_mallocOk noMemory] at left
        exact .inr left
    simp only [bind_ok, defined_ok, exists_const] at h
    obtain ⟨-, h⟩ := h
    split at h
    · simp only [bind_ok, Prod.exists] at h
      obtain ⟨s2, closed, dir, s3, opened, h⟩ := h
      have left2 : s2.mallocs <:+ l := dirClose_keeps (@mallocs_invariant part me l).closes closed left1
      exact ih h ((mallocs_invariant l).dirOpen opened left2) later none
    · split at h
      · rw [pure_ok] at h
        cases h
        cases none
      · exact ih h left1 later none

theorem searchFile_missed {path : List Byte} {r : SearchResult} {t : Fs} (search : searchFile part me s path = .ok (r, t))
    (none : r.inodeNo = none) :
    searchEntry part t.disk (t.inodes r.parentDir.inode) (lastName r.searchedPath) = .ok .none ∨ OutOfMemory s t := by
  simp only [searchFile] at search
  split at search
  · rw [pure_ok] at search
    cases search
    cases none
  · simp only [bind_ok, assertThat_ok, defined_ok, exists_const] at search
    obtain ⟨-, -, search⟩ := search
    exact walkPath_missed s.mallocs _ search (List.suffix_refl _) (fun name mem => (mem_pathNamesFuel _ mem).1.noSlash) none

/-- With memory and a free inode anything may be created. -/
theorem mayCreate_of_heap {path : List Byte} (heap : s.mallocs = []) (free : ∃ m, m < 256 ∧ ¬ s.inodeBitmap.Set m) :
    MayCreate part me s path :=
  fun _ _ search none _ => ⟨free, (searchFile_missed search none).resolve_right fun out => out.heap heap⟩

end Search

section Release

variable {part : Partition} {n f : Nat} {me : Option Nat} {s : Fs} {sh : Shape} {H H' : Nat → Nat}

theorem freeBlock_returns (lay : Layout part n) (map : BlockMap part n s.blockBitmap) {i : Nat} (pos : 0 < i) (inside : i < n) :
    ∃ t, freeBlock part s (part.sb.dataStartLba + i) = .ok t := by
  have sector := lay.bitmapSector inside
  have h1 := lay.inodeTableLba
  have h2 := lay.dataStartLba
  have h3 := lay.onDisk
  have h4 := lay.sects
  have len := map.len
  have bound : i / 8 < s.blockBitmap.btmpBytesLen := by omega
  have transfer : TransferOk (part.sb.blockBitmapLba + i / 4096) 1 := transferOk_one.2 (by omega)
  simp only [freeBlock, lay.index inside, assertThat_of pos, bitmapClear, defined_of bound, ok_bind, pure, Except.pure,
    bitmapSync, ideWrite_of transfer]
  exact ⟨_, rfl⟩

theorem freeBlocks_returns (lay : Layout part n) : ∀ (l : List Nat) {s : Fs}, BlockMap part n s.blockBitmap →
    (∀ lba ∈ l, lba ≠ 0 → ∃ i, 0 < i ∧ i < n ∧ lba = part.sb.dataStartLba + i) → ∃ t, freeBlocks part l s = .ok t := by
  intro l
  induction l with
  | nil => exact fun _ _ => ⟨_, rfl⟩
  | cons lba rest ih =>
    intro s map blocks
    have others := fun lba' mem => blocks lba' (List.mem_cons_of_mem lba mem)
    rw [freeBlocks]
    by_cases some : lba ≠ 0
    · obtain ⟨i, pos, inside, rfl⟩ := blocks lba List.mem_cons_self some
      obtain ⟨s1, freed⟩ := freeBlock_returns lay map pos inside
      rw [if_pos some, freed, ok_bind]
      exact ih ((freeBlock_ok lay inside freed).map map) others
    · rw [if_neg some]
      exact ih map others

theorem inodeBits_returns (lay : Layout part n) (disk : Image) (b : Bitmap) (low : f < 4096) :
    ∃ disk', bitmapSync disk part.sb.inodeBitmapLba b f = .ok disk' := by
  have h1 := lay.inodeTableLba
  have h2 := lay.dataStartLba
  have h3 := lay.onDisk
  have zero : f / 4096 = 0 := by omega
  rw [bitmapSync, zero, ideWrite_of (transferOk_one.2 (by omega))]
  exact ⟨_, rfl⟩

theorem Calm.freed {own : Nat → Prop} {t : Fs} (calm : Calm me H s) (freed : Freed part n s t own) : Calm me H t := by
  rw [freed.rest]
  exact ⟨calm.heap, calm.reach, calm.pools⟩

/-- `inode_release` gives back the blocks a file has, when they can be given back. -/
theorem releaseBlocks_returns (lay : Layout part n) {ino : Inode} (map : BlockMap part n s.blockBitmap)
    (data : ∀ k, k < 141 → blockRef s.disk ino k ≠ 0 → ∃ i, 0 < i ∧ i < n ∧ blockRef s.disk ino k = part.sb.dataStartLba + i) :
    ∃ l t u, ((ino.sec 12 ≠ 0 ∧ freeBlock part s (ino.sec 12) = .ok t ∧ l = (List.range 12).map ino.sec ++
        (List.range 128).map fun i => word32 (shifted s.disk (512 * ino.sec 12)) (4 * i)) ∨
      (ino.sec 12 = 0 ∧ t = s ∧ l = (List.range 12).map ino.sec)) ∧ freeBlocks part l t = .ok u := by
  have direct : ∀ lba ∈ (List.range 12).map ino.sec, lba ≠ 0 → ∃ i, 0 < i ∧ i < n ∧ lba = part.sb.dataStartLba + i := by
    intro lba mem some
    obtain ⟨k, lt, rfl⟩ := List.mem_map.1 mem
    have lt := List.mem_range.1 lt
    rw [← @blockRef_direct s.disk _ _ lt] at some ⊢
    exact data k (by omega) some
  by_cases has : ino.sec 12 ≠ 0
  · obtain ⟨i, pos, inside, is⟩ := data 140 (by omega) (by rw [blockRef_table]; exact has)
    rw [blockRef_table] at is
    obtain ⟨t, one⟩ := freeBlock_returns lay map pos inside
    have map' := (freeBlock_ok lay inside one).map map
    rw [← is] at one
    obtain ⟨u, all⟩ := freeBlocks_returns lay ((List.range 12).map ino.sec ++
        (List.range 128).map fun i => word32 (shifted s.disk (512 * ino.sec 12)) (4 * i)) map' fun lba mem some => by
      rcases List.mem_append.1 mem with mem | mem
      · exact direct lba mem some
      · obtain ⟨k, lt, rfl⟩ := List.mem_map.1 mem
        have lt := List.mem_range.1 lt
        have ref : blockRef s.disk ino (12 + k) = word32 (shifted s.disk (512 * ino.sec 12)) (4 * k) := by
          rw [blockRef_indirect (by omega) (by omega) has, Nat.add_sub_cancel_left]
          rfl
        rw [← ref] at some ⊢
        exact data _ (by omega) some
    exact ⟨_, t, u, .inl ⟨has, one, rfl⟩, all⟩
  · obtain ⟨u, all⟩ := freeBlocks_returns lay _ map direct
    exact ⟨_, s, u, .inr ⟨by simpa using has, rfl, rfl⟩, all⟩

/-- What follows once the blocks are given back. -/
theorem releaseRecord_returns {s1 s2 : Fs} {addr : Nat} (lay : Layout part n) (core : FsCore part n s sh H')
    (orphan : Orphan part n s sh f) (core1 : FsCore part n s1 sh (bump H' addr)) (browsed1 : Browsed s s1)
    (calm1 : Calm me H s1) (le : ∀ a, H a ≤ H' a) (room : ∀ a, H' a + 2 < 2 ^ 32)
    (freed : Freed part n s1 s2 (owned part s.disk f)) : ∃ t, (do
      let b ← bitmapClear s2.inodeBitmap f
      let disk ← bitmapSync s2.disk part.sb.inodeBitmapLba b f
      let s ← mustMalloc { s2 with disk := disk, inodeBitmap := b }
      let disk ← inodeDelete part s.disk f
      inodeClose me { s with disk := disk } addr) = .ok t ∧ Calm me H t := by
  have bitmap : s2.inodeBitmap = s.inodeBitmap := by
    rw [freed.rest]
    exact browsed1.inodeBitmap
  have len := core.len
  have low := orphan.low
  obtain ⟨disk3, synced⟩ := inodeBits_returns lay s2.disk (bitmapSet s.inodeBitmap f false) low
  have is3 := bitmapSync_inode low synced
  obtain ⟨disk4, deleted⟩ := inodeDelete_returns lay.tableFits disk3 low
  obtain ⟨-, is4⟩ := inodeDelete_ok deleted
  have calm2 : Calm me H (s.cleared part s2 f) := by
    have calm2 := (calm1.freed freed).malloc
    exact ⟨calm2.heap, calm2.reach, calm2.pools⟩
  obtain ⟨t, closed⟩ := inodeClose_returns calm2 (core.cleared lay orphan core1 browsed1 freed) le (room addr)
  have state : ({ s2.malloc with disk := disk4, inodeBitmap := bitmapSet s.inodeBitmap f false } : Fs) = s.cleared part s2 f := by
    rw [is4, is3]
    rfl
  have calm3 : Calm me H { s2 with disk := disk3, inodeBitmap := bitmapSet s.inodeBitmap f false } := by
    have calm2 := calm1.freed freed
    exact ⟨calm2.heap, calm2.reach, calm2.pools⟩
  refine ⟨t, ?_, calm2.close closed⟩
  rw [bitmapClear, bitmap, defined_of (show f / 8 < s.inodeBitmap.btmpBytesLen by omega)]
  simp only [ok_bind, pure, Except.pure, synced, calm3.mustMalloc]
  have deleted' : inodeDelete part (Fs.malloc { s2 with disk := disk3, inodeBitmap := bitmapSet s.inodeBitmap f false }).disk f =
    .ok disk4 := deleted
  rw [deleted', ok_bind]
  rw [← state] at closed
  exact closed

/-- **`inode_release`** returns for an inode that has no name any more. -/
theorem inodeRelease_returns (lay : Layout part n) (core : FsCore part n s sh H') (orphan : Orphan part n s sh f)
    (ground : ¬ owned part s.disk f part.sb.dataStartLba) (onDisk : (slot part s.disk f).sec 12 ≤ maxLba) (calm : Calm me H s)
    (le : ∀ a, H a ≤ H' a) (room : ∀ a, H' a + 2 < 2 ^ 32) : ∃ t, inodeRelease part me s f = .ok t ∧ Calm me H t := by
  obtain ⟨addr, s1, opened⟩ := inodeOpen_returns lay calm orphan.low
  obtain ⟨core1, browsed1, -, number1, -⟩ := inodeOpen_core core orphan.number opened
  obtain ⟨refs, blocks⟩ := orphan.opened core opened
  have data : ∀ k, k < 141 → blockRef s1.disk (s1.inodes addr) k ≠ 0 →
      ∃ i, 0 < i ∧ i < n ∧ blockRef s1.disk (s1.inodes addr) k = part.sb.dataStartLba + i := by
    intro k lt has
    obtain ⟨i, inside, is, -⟩ := blocks.block k lt has
    refine ⟨i, Nat.pos_of_ne_zero fun zero => ground ⟨?_, k, lt, ?_⟩, inside, is⟩
    · have := lay.dataStartLba
      omega
    · rw [← refs k lt, is, zero]
      rfl
  have transfer : TransferOk ((s1.inodes addr).sec 12) 1 := by
    refine transferOk_one.2 ?_
    rw [← @blockRef_table s1.disk, refs 140 (by omega), blockRef_table]
    exact onDisk
  obtain ⟨l, s', s2, collected, all⟩ := releaseBlocks_returns lay core1.tree.map data
  have freed := (releaseBlocks_ok lay blocks collected all).congr fun lba _ => (Owns.congr refs).symm
  have rest := releaseRecord_returns lay core orphan core1 browsed1 (calm_invariant.opens opened calm) le room freed
  rw [inodeRelease, opened, ok_bind]
  simp only [assertThat_of number1, ok_bind]
  obtain ⟨has, one, rfl⟩ | ⟨none, rfl, rfl⟩ := collected
  · rw [if_pos has]
    simp only [ideRead_of transfer, one, ok_bind, pure, Except.pure, all]
    exact rest
  · rw [if_neg (not_not.2 none)]
    simp only [ok_bind, pure, Except.pure, all]
    exact rest

end Release

end Sparrow
