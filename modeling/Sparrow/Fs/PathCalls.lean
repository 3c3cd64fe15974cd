import Sparrow.Fs.Release

/-!
# Calls by path name

`sys_open` with `O_CREAT`, `sys_mkdir`, `sys_unlink` and `sys_rmdir` look up a path, enter a
node in the tree or take one out, and close the directory `search_file` left open. Each of
them leaves the handles as they were, but for the file it opened.
-/

namespace Sparrow
set_option autoImplicit false

/-- The path leads to the directory `f`, which is empty and not the root. -/
def Removable (part : Partition) (me : Option Nat) (s : Fs) (path : List Byte) (f : Nat) : Prop :=
  ∃ r t, searchFile part me s path = .ok (r, t) ∧ r.inodeNo = some f ∧ r.fileType = .directory ∧ f ≠ 0 ∧
    dirIsEmpty part (slot part s.disk f) = true

/-- When `search_file` comes to the last name of the path and does not find it, an inode number
below 256 is free and the directory really has no such entry; without memory it finds nothing. -/
def MayCreate (part : Partition) (me : Option Nat) (s : Fs) (path : List Byte) : Prop :=
  ∀ r t, searchFile part me s path = .ok (r, t) → r.inodeNo = none →
    (pathNames path).length = (pathNames r.searchedPath).length →
    (∃ m, m < 256 ∧ ¬ s.inodeBitmap.Set m) ∧
      searchEntry part t.disk (t.inodes r.parentDir.inode) (lastName r.searchedPath) = .ok none

/-- The file `f` was made in the directory `p` and is open in slot `g`, through the object
at `addr`. -/
structure FileMade (part : Partition) (n : Nat) (s t : Fs) (sh : Shape) (H : Nat → Nat) (flags p f g addr : Nat) : Prop where
  fresh : ¬ sh.live f
  slot : getFreeSlotInGlobal s.fileTable = some g
  inv : FsInv part n t (sh.insert p f (false = true)) (bump H addr)
  number : (t.inodes addr).iNo = f
  next : s.nextAddr ≤ t.nextAddr
  numbers : ∀ a, a < s.nextAddr → (t.inodes a).iNo = (s.inodes a).iNo
  fileTable : t.fileTable = fun i => if i = g then ⟨0, flags, .inode addr⟩ else s.fileTable i

/-- The files of `sh` are not touched. -/
def KeepsFiles (part : Partition) (s t : Fs) (sh : Shape) : Prop :=
  ∀ m, sh.live m → ¬ sh.dir m → Untouched part s.disk s.blockBitmap t.disk t.blockBitmap m

theorem KeepsFiles.of_disk {part : Partition} {s t : Fs} {sh : Shape} (same : t.disk = s.disk ∧ t.blockBitmap = s.blockBitmap) :
    KeepsFiles part s t sh := by
  intro m _ _
  rw [same.1, same.2]
  exact .refl

theorem CacheOnly.keepsFiles {part : Partition} {s t : Fs} {sh : Shape} (same : CacheOnly s t) : KeepsFiles part s t sh :=
  .of_disk ⟨same.disk, same.blockBitmap⟩

/-- A search before and a close after the change. -/
theorem KeepsFiles.around {part : Partition} {s t u v : Fs} {sh : Shape} (keeps : KeepsFiles part u v sh) (before : CacheOnly s u)
    (after : CacheOnly v t) : KeepsFiles part s t sh := by
  intro m live file
  rw [← before.disk, ← before.blockBitmap, after.disk, after.blockBitmap]
  exact keeps m live file

section Parent

variable {part : Partition} {n : Nat} {me : Option Nat} {s t : Fs} {sh : Shape} {H : Nat → Nat} {path : List Byte} {r : SearchResult}
  {d : Dir} {q a : Nat}

theorem bump_hold : bump (hold H d) a = hold (bump H a) d := by
  rw [hold, hold]
  split
  · rfl
  · exact bump_comm H d.inode a

theorem le_hold : H a ≤ hold H d a := by
  rw [hold]
  split
  · exact Nat.le_refl _
  · by_cases e : a = d.inode
    · rw [e, bump_self]
      omega
    · rw [bump_of_ne e]

/-- A directory stays open while another one is opened. -/
theorem DirAt.hold {d' : Dir} (dirAt : DirAt s sh d q) (inv : FsInv part n s sh H) (inv' : FsInv part n t sh (hold H d'))
    (browsed : Browsed s t) : DirAt t sh d q := by
  refine dirAt.browsed browsed (inv.cache.fresh _ dirAt.mem) ((inv'.cache.held _).2 ?_)
  rw [browsed.rootDir]
  exact ((inv.cache.held _).1 dirAt.mem).imp_left fun pos => Nat.lt_of_lt_of_le pos le_hold

theorem hold_pos (pos : 0 < hold H d a) : 0 < H a ∨ a = d.inode := by
  rw [hold] at pos
  split at pos
  · exact .inl pos
  · by_cases e : a = d.inode
    · exact .inr e
    · rw [bump_of_ne e] at pos
      exact .inl pos

/-- `dir_close` of the parent directory at the end of a call. -/
theorem closeParent_inv (room : H r.parentDir.inode + 2 < 2 ^ 32) (inv : FsInv part n s sh (hold H r.parentDir))
    (h : closeParent me s r = .ok t) : FsInv part n t sh H ∧ Browsed s t :=
  dirClose_inv inv room h

/-- The name that was not found, as a name that can be entered. -/
theorem Found.name {disk : Image} {b : Bitmap} (found : Found part disk b (pathNames path) q r) (noZero : 0#8 ∉ path)
    (absent : r.inodeNo = .none) : ∃ (name : Name) (pre post : List (List Byte)), pathNames path = pre ++ name.bytes :: post ∧
      lastName r.searchedPath = name.bytes ∧ pathNames r.searchedPath = pre ++ [name.bytes] := by
  cases found with
  | @none pre post name _ _ split searched short =>
    obtain ⟨component, sub⟩ := mem_pathNamesFuel _ (show name ∈ pathNames path by rw [split]; simp)
    refine ⟨⟨name, component.nonempty, by omega, fun zero => noZero (sub _ zero)⟩, pre, post, split, ?_, ?_⟩
    · rw [searched]
      exact lastName_join component.noSlash
    · rw [searched]
      refine pathNames_join fun x mem => (mem_pathNamesFuel _ (show x ∈ pathNames path from ?_)).1
      rw [split]
      rcases List.mem_append.1 mem with mem | mem
      · exact List.mem_append_left _ mem
      · rw [List.mem_singleton.1 mem]
        exact List.mem_append_right _ List.mem_cons_self
  | file _ _ number => rw [absent] at number; cases number
  | dir _ _ number => rw [absent] at number; cases number
  | root number => rw [absent] at number; cases number

/-- A path that `search_file` accepts starts at the root. -/
theorem searchFile_slash (h : searchFile part me s path = .ok (r, t)) : slash ∈ path := by
  simp only [searchFile] at h
  split at h
  · rename_i special
    rcases special with rfl | rfl | rfl <;> exact List.mem_cons_self
  · simp only [bind_ok, assertThat_ok, exists_const] at h
    exact List.mem_of_mem_head? h.1.1

/-- What may be created is not there, seen from the state after the search. -/
theorem MayCreate.absent (lay : Layout part n) (may : MayCreate part me s path) (search : searchFile part me s path = .ok (r, t))
    (none : r.inodeNo = none) (whole : (pathNames path).length = (pathNames r.searchedPath).length) (inv : FsInv part n t sh H)
    (browsed : Browsed s t) (dirAt : DirAt t sh r.parentDir q) {name : Name} (last : lastName r.searchedPath = name.bytes) :
    (∃ m, m < 256 ∧ ¬ t.inodeBitmap.Set m) ∧
      ∀ k j x, ItemAt (nodeAt part t.disk t.blockBitmap q) k j x → x.name ≠ name := by
  obtain ⟨free, missed⟩ := may r t search none whole
  obtain ⟨wf, -, items, -⟩ := inv.dirWf dirAt
  obtain ⟨found, searched, spec⟩ := searchEntry_spec lay wf name
  rw [last] at missed
  rw [show searchEntry part t.disk (t.inodes r.parentDir.inode) name.bytes = .ok found from searched] at missed
  cases missed
  rw [browsed.inodeBitmap]
  obtain ⟨-, absent⟩ | ⟨_, _, _, -, -, is⟩ := spec
  · exact ⟨free, fun k j x at_ => absent k j x ((items k j x).2 at_)⟩
  · cases is

end Parent

section Make

variable {part : Partition} {n : Nat} {me : Option Nat} {s t : Fs} {sh : Shape} {H : Nat → Nat} {path : List Byte} {flags : Nat}
  {fdTable fdTable' : Nat → Int} {fd : Option Nat}

/-- **`sys_open`** with `O_CREAT` makes a file or changes nothing. -/
theorem openPath_create (lay : Layout part n) (room : ∀ a, H a + 2 < 2 ^ 32) (inv : FsInv part n s sh H) (noZero : 0#8 ∉ path)
    (creat : flags &&& oCreat ≠ 0) (may : MayCreate part me s path)
    (h : openPath part me s fdTable path flags = .ok (fd, t, fdTable')) :
    (fdTable' = fdTable ∧ FsInv part n t sh H ∧ Steady s t ∧ KeepsFiles part s t sh) ∨
      ∃ p f g addr, FileMade part n s t sh H flags p f g addr ∧ pcbFdInstall fdTable g = (fd, fdTable') ∧
        KeepsFiles part s t sh := by
  simp only [openPath, bind_ok, defined_ok, exists_const] at h
  obtain ⟨-, h⟩ := h
  split at h
  · rw [pure_ok] at h
    cases h
    exact .inl ⟨rfl, inv, (Browsed.refl _).steady, (CacheOnly.refl _).keepsFiles⟩
  rename_i notEnd
  simp only [bind_ok, assertThat_ok, exists_const, Prod.exists] at h
  obtain ⟨-, depth, isDepth, r, s1, search, h⟩ := h
  obtain ⟨q, inv1, browsed, dirAt, found⟩ := searchFile_inv lay room inv noZero search
  -- the endings that only close the parent
  have closes : (∃ s2, closeParent me s1 r = .ok s2 ∧ (none, s2, fdTable) = (fd, t, fdTable')) →
      fdTable' = fdTable ∧ FsInv part n t sh H ∧ Steady s t ∧ KeepsFiles part s t sh := by
    rintro ⟨s2, closed, e⟩
    cases e
    obtain ⟨inv2, browsed2⟩ := closeParent_inv (room _) inv1 closed
    exact ⟨rfl, inv2, (browsed.trans browsed2).steady, (browsed.trans browsed2).keepsFiles⟩
  split at h
  · simp only [bind_ok, pure_ok] at h
    exact .inl (closes h)
  simp only [bind_ok] at h
  obtain ⟨depth', isDepth', h⟩ := h
  split at h
  · simp only [bind_ok, pure_ok] at h
    exact .inl (closes h)
  rename_i same
  split at h
  case h_2 =>
    simp only [bind_ok, pure_ok] at h
    exact .inl (closes h)
  rename_i none
  simp only [bind_ok, pure_ok, Prod.exists] at h
  obtain ⟨fd', s2, table, create, s3, closed, e⟩ := h
  cases e
  obtain ⟨name, pre, post, split, last, names⟩ := found.name noZero none
  have whole : (pathNames path).length = (pathNames r.searchedPath).length := by
    rw [← pathDepthCnt_ok isDepth, ← pathDepthCnt_ok isDepth']
    exact not_not.1 same
  -- all names were walked, so the one not found is the last
  have all : post = [] := by
    rw [split, names, List.length_append, List.length_append, List.length_cons, List.length_cons, List.length_nil] at whole
    apply List.eq_nil_of_length_eq_zero
    omega
  have isLast : lastName path = name.bytes := by
    have := pathNamesFuel_last _ (Nat.lt_succ_self path.length) notEnd (searchFile_slash search)
    rw [show pathNamesFuel (path.length + 1) path = pathNames path from rfl, split, all] at this
    simpa using this.symm
  rw [isLast] at create
  obtain ⟨free, absent⟩ := may.absent lay search none whole inv1 browsed dirAt last
  obtain ⟨rfl, rfl, inv2, steady, -, untouched⟩ | ⟨f, g, made, installed⟩ := fileCreate_inv lay inv1 dirAt free name absent create
  · obtain ⟨inv3, browsed3⟩ := closeParent_inv (room _) inv2 closed
    have keeps : KeepsFiles part s1 s2 sh := fun m live _ => untouched m live
    exact .inl ⟨rfl, inv3, browsed.steady.trans (steady.trans browsed3.steady), keeps.around browsed.toCacheOnly browsed3.toCacheOnly⟩
  · have inv2 := made.inv
    rw [bump_hold] at inv2
    have notNew : r.parentDir.inode ≠ s1.nextAddr := Nat.ne_of_lt (inv1.cache.fresh _ dirAt.mem)
    obtain ⟨inv3, browsed3⟩ := closeParent_inv (by rw [bump_of_ne notNew]; exact room _) inv2 closed
    have next := made.next
    have keeps : KeepsFiles part s1 s2 sh := fun m live file => made.untouched inv1 dirAt live fun e => file (e ▸ dirAt.dir)
    refine .inr ⟨q, f, g, s1.nextAddr, ⟨made.fresh inv1, ?_, inv3, ?_, ?_, fun a lt => ?_, ?_⟩, installed,
      keeps.around browsed.toCacheOnly browsed3.toCacheOnly⟩
    · rw [← browsed.fileTable]
      exact made.slot
    · rw [browsed3.inodes _ (by omega)]
      exact made.number
    · exact Nat.le_trans browsed.next (Nat.le_trans (by omega) browsed3.next)
    · have lt1 := Nat.lt_of_lt_of_le lt browsed.next
      rw [browsed3.inodes a (by omega)]
      exact (made.numbers a lt1).trans (browsed.steady.numbers a lt)
    · rw [browsed3.fileTable, made.fileTable, browsed.fileTable]

/-- `sys_mkdir` only looks around, or comes to make a directory under a name its parent does not
have. -/
theorem mkdirPath_steps (lay : Layout part n) (room : ∀ a, H a + 2 < 2 ^ 32) (inv : FsInv part n s sh H) (noZero : 0#8 ∉ path)
    (may : MayCreate part me s.malloc path) {ok : Option Unit} (h : mkdirPath part me s path = .ok (ok, t)) :
    (Browsed s t ∧ FsInv part n t sh H) ∨
      ∃ (d : Dir) (q : Nat) (name : Name) (s1 s2 : Fs), Browsed s s1 ∧ FsInv part n s1 sh (hold H d) ∧ DirAt s1 sh d q ∧
        (∃ m, m < 256 ∧ ¬ s1.inodeBitmap.Set m) ∧
        (∀ k j x, ItemAt (nodeAt part s1.disk s1.blockBitmap q) k j x → x.name ≠ name) ∧
        makeDir part me s1 d name.bytes = .ok (ok, s2) ∧ dirClose me s2 d = .ok t := by
  simp only [mkdirPath] at h
  split at h
  · rw [pure_ok] at h
    cases h
    exact .inl ⟨browsed_malloc, inv.malloc⟩
  simp only [bind_ok, Prod.exists] at h
  obtain ⟨r, s1, search, h⟩ := h
  obtain ⟨q, inv1, browsed, dirAt, found⟩ := searchFile_inv lay room inv.malloc noZero search
  have before : Browsed s s1 := browsed_malloc.trans browsed
  have closes : (∃ s2, closeParent me s1 r = .ok s2 ∧ (none, s2) = (ok, t)) → Browsed s t ∧ FsInv part n t sh H := by
    rintro ⟨s2, closed, e⟩
    cases e
    obtain ⟨inv2, browsed2⟩ := closeParent_inv (room _) inv1 closed
    exact ⟨before.trans browsed2, inv2⟩
  split at h
  · simp only [bind_ok, pure_ok] at h
    exact .inl (closes h)
  rename_i none
  rw [not_not] at none
  simp only [bind_ok] at h
  obtain ⟨depth, isDepth, depth', isDepth', h⟩ := h
  split at h
  · simp only [bind_ok, pure_ok] at h
    exact .inl (closes h)
  rename_i same
  have whole : (pathNames path).length = (pathNames r.searchedPath).length := by
    rw [← pathDepthCnt_ok isDepth, ← pathDepthCnt_ok isDepth']
    exact not_not.1 same
  simp only [bind_ok, pure_ok, Prod.exists] at h
  obtain ⟨ok', s2, make, s3, closed, e⟩ := h
  cases e
  obtain ⟨name, -, -, -, last, -⟩ := found.name noZero none
  obtain ⟨free, absent⟩ := may.absent lay search none whole inv1 browsed dirAt last
  rw [last] at make
  exact .inr ⟨r.parentDir, q, name, s1, s2, before, inv1, dirAt, free, absent, make, closed⟩

/-- **`sys_mkdir`** makes a directory or changes nothing. -/
theorem mkdirPath_inv (lay : Layout part n) (room : ∀ a, H a + 2 < 2 ^ 32) (inv : FsInv part n s sh H) (noZero : 0#8 ∉ path)
    (may : MayCreate part me s.malloc path) {ok : Option Unit} (h : mkdirPath part me s path = .ok (ok, t)) :
    Steady s t ∧ KeepsFiles part s t sh ∧ (FsInv part n t sh H ∨
      ∃ p f, sh.live p ∧ sh.dir p ∧ ¬ sh.live f ∧ FsInv part n t (sh.insert p f (true = true)) H) := by
  obtain ⟨browsed, inv'⟩ | ⟨d, q, name, s1, s2, before, inv1, dirAt, free, absent, make, closed⟩ :=
    mkdirPath_steps lay room inv noZero may h
  · exact ⟨browsed.steady, browsed.keepsFiles, .inl inv'⟩
  obtain ⟨steady, -, others, made⟩ := makeDir_inv lay inv1 dirAt free name absent make
  have keeps : KeepsFiles part s1 s2 sh := fun m live file => others m live fun e => file (e ▸ dirAt.dir)
  obtain ⟨-, inv2⟩ | ⟨f, -, clear, -, inv2⟩ := made
  · obtain ⟨inv3, browsed3⟩ := dirClose_inv inv2 (room _) closed
    exact ⟨before.steady.trans (steady.trans browsed3.steady), keeps.around before.toCacheOnly browsed3.toCacheOnly, .inl inv3⟩
  · obtain ⟨inv3, browsed3⟩ := dirClose_inv inv2 (room _) closed
    refine ⟨before.steady.trans (steady.trans browsed3.steady), keeps.around before.toCacheOnly browsed3.toCacheOnly,
      .inr ⟨q, f, dirAt.live, dirAt.dir, fun live => ?_, inv3⟩⟩
    exact clear ((inv1.bits f (Nat.lt_trans (inv1.tree.low f live) (by decide))).2 live)

end Make

section Remove

variable {part : Partition} {n : Nat} {me : Option Nat} {s t : Fs} {sh : Shape} {H : Nat → Nat} {path : List Byte} {d : Dir} {x : Item}

/-- No slot has the inode open. -/
theorem inUse_false {f : Nat} : ∀ (l : List Nat), inUse me s f l = .ok false →
    ∀ i ∈ l, ∀ a, (s.fileTable i).fdInode = .inode a → (s.inodes a).iNo ≠ f := by
  intro l
  induction l with
  | nil => intro _ i mem; cases mem
  | cons first rest ih =>
    intro h i mem a file
    rw [inUse] at h
    split at h
    · rename_i addr here
      simp only [bind_ok, defined_ok, exists_const] at h
      obtain ⟨-, h⟩ := h
      split at h
      · rw [pure_ok] at h
        cases h
      rename_i other
      rcases List.mem_cons.1 mem with rfl | mem
      · rw [here] at file
        cases file
        exact other
      · exact ih h i mem a file
    · rename_i notInode
      rcases List.mem_cons.1 mem with rfl | mem
      · exact absurd file (notInode a)
      · exact ih h i mem a file

/-- When nobody has the inode open, all cached inodes are live after its removal too. -/
theorem Deleted.inv (deleted : Deleted part n s t sh H d x) (inv : FsInv part n s sh H)
    (unheld : ∀ a ∈ s.openInodes, (s.inodes a).iNo ≠ x.iNo) : FsInv part n t (sh.remove x.iNo) H := by
  refine ⟨deleted.core, deleted.bits, fun a mem => ?_⟩
  have old := deleted.sub a mem
  rw [deleted.steady.numbers a (inv.cache.fresh a old)]
  exact ⟨inv.alive a old, unheld a old⟩

/-- How `sys_unlink` ends after its search: with -1 for one of four reasons, or with the entry
deleted and the inode released. -/
inductive UnlinkEnd (part : Partition) (me : Option Nat) (s : Fs) (r : SearchResult) (ok : Option Unit) (t : Fs) : Prop
  | refused {u : Fs} (no : ok = none)
      (why : r.inodeNo = none ∨ r.fileType = .directory ∨
        (∃ f, r.inodeNo = some f ∧ inUse me s f (List.range maxFileOpen) = .ok true) ∨ s.mallocOk = false)
      (how : u = s ∨ u = s.malloc) (closed : closeParent me u r = .ok t)
  | deleted {f : Nat} {found : Bool} {v : Vnode} {u : Fs} (yes : ok = some ()) (number : r.inodeNo = some f)
      (notDir : r.fileType ≠ .directory) (unused : inUse me s f (List.range maxFileOpen) = .ok false)
      (deleted : deleteDirEntry part (s.malloc.vnode r.parentDir.inode) f = .ok (found, v))
      (released : inodeRelease part me (s.malloc.setVnode r.parentDir.inode v) f = .ok u) (closed : closeParent me u r = .ok t)

theorem unlinkPath_cases {ok : Option Unit} (h : unlinkPath part me s path = .ok (ok, t)) :
    ∃ r s1, searchFile part me s path = .ok (r, s1) ∧ r.inodeNo ≠ some 0 ∧ UnlinkEnd part me s1 r ok t := by
  simp only [unlinkPath, bind_ok, assertThat_ok, exists_const, Prod.exists] at h
  obtain ⟨-, r, s1, search, notRoot, h⟩ := h
  refine ⟨r, s1, search, notRoot, ?_⟩
  split at h
  · rename_i none
    simp only [bind_ok, pure_ok] at h
    obtain ⟨s2, closed, e⟩ := h
    cases e
    exact .refused rfl (.inl none) (.inl rfl) closed
  rename_i f number
  split at h
  · rename_i isDir
    simp only [bind_ok, pure_ok] at h
    obtain ⟨s2, closed, e⟩ := h
    cases e
    exact .refused rfl (.inr (.inl isDir)) (.inl rfl) closed
  rename_i notDir
  simp only [bind_ok] at h
  obtain ⟨used, isUsed, h⟩ := h
  split at h
  · rename_i yes
    subst yes
    simp only [bind_ok, pure_ok] at h
    obtain ⟨s2, closed, e⟩ := h
    cases e
    exact .refused rfl (.inr (.inr (.inl ⟨f, number, isUsed⟩))) (.inl rfl) closed
  rename_i unused
  rw [Bool.not_eq_true] at unused
  subst unused
  simp only [unlinkFound] at h
  split at h
  · rename_i noHeap
    simp only [bind_ok, pure_ok] at h
    obtain ⟨s2, closed, e⟩ := h
    cases e
    exact .refused rfl (.inr (.inr (.inr noHeap))) (.inr rfl) closed
  · simp only [bind_ok, defined_ok, pure_ok, exists_const, Prod.exists] at h
    obtain ⟨-, found, v, deleted, s2, released, s3, closed, e⟩ := h
    cases e
    exact .deleted rfl number notDir isUsed deleted released closed

/-- An entry that is not marked as a directory is an ordinary one, for a regular file. -/
theorem FsInv.fileEntry {q k j : Nat} (inv : FsInv part n s sh H) (live : sh.live q) (dir : sh.dir q)
    (at_ : ItemAt (nodeAt part s.disk s.blockBitmap q) k j x) (isFile : x.isDir = false) :
    entries part s.disk s.blockBitmap q x ∧ sh.live x.iNo ∧ ¬ sh.dir x.iNo := by
  obtain ⟨live', kind⟩ := inv.itemDir live dir at_
  refine ⟨⟨?_, k, j, at_⟩, live', fun dir' => ?_⟩
  · by_contra dots
    obtain ⟨isDir, -⟩ := ((inv.tree.node q live).dirWf dir).1.dots at_ dots
    rw [isDir] at isFile
    cases isFile
  · rw [kind.2 dir'] at isFile
    cases isFile

/-- **`sys_unlink`** removes a file nobody has open, or changes nothing. -/
theorem unlinkPath_inv (lay : Layout part n) (room : ∀ a, H a + 3 < 2 ^ 32) (inv : FsInv part n s sh H) (noZero : 0#8 ∉ path)
    (held : ∀ a, 0 < H a → (∃ i, i < maxFileOpen ∧ (s.fileTable i).fdInode = .inode a) ∨ sh.dir (s.inodes a).iNo)
    {ok : Option Unit} (h : unlinkPath part me s path = .ok (ok, t)) :
    Steady s t ∧ (FsInv part n t sh H ∧ KeepsFiles part s t sh ∨
      ∃ f, sh.live f ∧ ¬ sh.dir f ∧ FsInv part n t (sh.remove f) H ∧ KeepsFiles part s t (sh.remove f)) := by
  have room' : ∀ a, H a + 2 < 2 ^ 32 := fun a => Nat.lt_trans (Nat.lt_succ_self _) (room a)
  obtain ⟨r, s1, search, notRoot, ended⟩ := unlinkPath_cases h
  obtain ⟨q, inv1, browsed, dirAt, found⟩ := searchFile_inv lay room' inv noZero search
  cases ended with
  | @refused u _ _ how closed =>
    have same : FsInv part n u sh (hold H r.parentDir) ∧ Browsed s u := by
      rcases how with rfl | rfl
      · exact ⟨inv1, browsed⟩
      · exact ⟨inv1.malloc, browsed.trans browsed_malloc⟩
    obtain ⟨inv3, browsed3⟩ := closeParent_inv (room' _) same.1 closed
    exact ⟨(same.2.trans browsed3).steady, .inl ⟨inv3, (same.2.trans browsed3).keepsFiles⟩⟩
  | @deleted f _ v u _ isF notDir isUsed deleted released closed =>
    cases found with
    | none no => rw [isF] at no; cases no
    | root number => exact absurd (isF.trans (isF.symm.trans number)) notRoot
    | dir _ _ _ type => exact absurd type notDir
    | @file k j x at_ isFile number =>
      obtain rfl : f = x.iNo := Option.some.inj (isF.symm.trans number)
      have at' : ItemAt (nodeAt part s1.disk s1.blockBitmap q) k j x := by
        rw [browsed.disk, browsed.blockBitmap]
        exact at_
      obtain ⟨has, live, file⟩ := inv1.fileEntry dirAt.live dirAt.dir at' isFile
      have unheld : ∀ a ∈ s1.malloc.openInodes, (s1.malloc.inodes a).iNo ≠ x.iNo := by
        intro a mem
        show (s1.inodes a).iNo ≠ x.iNo
        have notDir : sh.dir (s1.inodes a).iNo → (s1.inodes a).iNo ≠ x.iNo := fun dir e => file (e ▸ dir)
        rcases (inv1.cache.held a).1 mem with pos | rfl
        · rcases hold_pos pos with pos | rfl
          · -- a slot of the file table has the object open, or it is a directory
            have fresh := inv.cache.fresh a ((inv.cache.held a).2 (.inl pos))
            rcases held a pos with ⟨i, lt, slot⟩ | dir
            · exact inUse_false _ isUsed i (List.mem_range.2 lt) a (by rw [browsed.fileTable]; exact slot)
            · exact notDir (by rw [browsed.steady.numbers a fresh]; exact dir)
          · exact notDir (by rw [dirAt.number]; exact dirAt.dir)
        · exact notDir (by rw [inv1.cache.root]; exact inv1.tree.naming.top.2.1)
      have del := deleteEntry_inv lay inv1.malloc ⟨dirAt.mem, dirAt.number, dirAt.live, dirAt.dir⟩ has
        (fun dir => absurd dir file) (fun a => ?_) deleted released
      · obtain ⟨del, others⟩ := del
        obtain ⟨inv3, browsed3⟩ := closeParent_inv (room' _) (del.inv inv1.malloc unheld) closed
        have keeps : KeepsFiles part s1.malloc u (sh.remove x.iNo) := fun m live' file' =>
          others m live' fun e => file' (e ▸ dirAt.dir)
        exact ⟨(browsed.trans browsed_malloc).steady.trans (del.steady.trans browsed3.steady),
          .inr ⟨x.iNo, live, file, inv3, keeps.around (browsed.trans browsed_malloc).toCacheOnly browsed3.toCacheOnly⟩⟩
      · have := @hold_le H r.parentDir a
        have := room a
        omega

/-- A directory that `dir_is_empty` finds empty has no ordinary entries. -/
theorem FsCore.no_entries {f : Nat} (lay : Layout part n) (inv : FsCore part n s sh H) (dirAt : DirAt s sh d f)
    (isEmpty : dirIsEmpty part (s.inodes d.inode) = true) (y : Item) : ¬ entries part s.disk s.blockBitmap f y := by
  obtain ⟨wf, sized, items, -⟩ := inv.dirWf dirAt
  rw [dirIsEmpty, decide_eq_true_eq, lay.dirEntrySize, Nat.mul_comm] at isEmpty
  rintro ⟨ordinary, k, j, at_⟩
  exact sized.empty wf isEmpty ((items k j y).2 at_) ordinary

/-- An entry that names an empty directory is an ordinary one or `.`: the directory above
is not empty. -/
theorem FsCore.names_empty {p k j : Nat} (inv : FsCore part n s sh H) (live : sh.live p) (dir : sh.dir p)
    (at_ : ItemAt (nodeAt part s.disk s.blockBitmap p) k j x) (notDot : x.name ≠ .dot) (notTop : x.iNo ≠ 0)
    (empty : ∀ y, ¬ entries part s.disk s.blockBitmap x.iNo y) : x.Ordinary := by
  by_contra dots
  obtain ⟨-, ⟨isDot, -⟩ | ⟨-, number⟩⟩ := ((inv.tree.node p live).dirWf dir).1.dots at_ dots
  · exact notDot isDot
  by_cases top : p = 0
  · rw [top, show sh.up 0 = 0 from inv.tree.naming.top.2.2] at number
    exact notTop number
  · obtain ⟨-, -, y, entry, -⟩ := inv.tree.naming.holder p live dir top
    rw [number] at empty
    exact empty y entry

/-- **`dir_remove`** of an empty directory, under a name that is not `.`; there may be no
memory for it. -/
theorem dirRemove_inv (lay : Layout part n) (room : ∀ a, H a + 3 < 2 ^ 32) {dir : Dir} {p k j : Nat}
    (inv : FsInv part n s sh (hold H dir)) (parentAt : DirAt s sh d p) (dirAt : DirAt s sh dir x.iNo)
    (at_ : ItemAt (nodeAt part s.disk s.blockBitmap p) k j x) (notDot : x.name ≠ .dot) (notTop : x.iNo ≠ 0)
    (isEmpty : dirIsEmpty part (s.inodes dir.inode) = true) {ok : Option Unit} (h : dirRemove part me s d dir = .ok (ok, t)) :
    t = s.malloc ∨ p ≠ x.iNo ∧ Deleted part n s.malloc t sh (hold H dir) d x ∧
      ∀ m, (sh.remove x.iNo).live m → m ≠ p → Untouched part s.disk s.blockBitmap t.disk t.blockBitmap m := by
  have empty := inv.no_entries lay dirAt isEmpty
  have ordinary := inv.names_empty parentAt.live parentAt.dir at_ notDot notTop empty
  have ne : p ≠ x.iNo := fun e => empty x ⟨ordinary, k, j, e ▸ at_⟩
  simp only [dirRemove, bind_ok, defined_ok, assertThat_ok, exists_const] at h
  obtain ⟨-, -, h⟩ := h
  split at h
  · simp only [bind_ok, defined_ok, pure_ok, exists_const, Prod.exists] at h
    obtain ⟨-, done, v, deleted, s2, released, e⟩ := h
    cases e
    -- the object of the directory is not the one of its parent
    have other : dir.inode ≠ d.inode := fun e => ne (by rw [← parentAt.number, ← e, dirAt.number])
    have same : ((s.malloc.setVnode d.inode v).inodes dir.inode).iNo = x.iNo := by
      rw [show (s.malloc.setVnode d.inode v).inodes dir.inode = s.inodes dir.inode from if_neg other]
      exact dirAt.number
    rw [same] at released
    rw [dirAt.number] at deleted
    refine .inr ⟨ne, deleteEntry_inv lay inv.malloc ⟨parentAt.mem, parentAt.number, parentAt.live, parentAt.dir⟩
      ⟨ordinary, k, j, at_⟩ (fun _ => empty) (fun a => ?_) deleted released⟩
    have := @hold_le H dir a
    have := room a
    omega
  · rw [pure_ok] at h
    cases h
    exact .inl rfl

/-- The handle through which a directory was removed is closed. -/
theorem Deleted.close {dir : Dir} {u : Fs} (deleted : Deleted part n s t sh (hold H dir) d x) (inv : FsInv part n s sh (hold H dir))
    (dirAt : DirAt s sh dir x.iNo) (notRoot : dir.isRoot = false) (notTop : x.iNo ≠ 0) (room : H dir.inode + 2 < 2 ^ 32)
    (unheld : H dir.inode = 0) (h : dirClose me t dir = .ok u) : FsInv part n u (sh.remove x.iNo) H ∧ Browsed t u := by
  have core := deleted.core
  rw [hold, notRoot] at core
  rw [dirClose, notRoot] at h
  obtain ⟨core', browsed, sub⟩ := inodeClose_core core room h
  refine ⟨⟨core', fun m lt => ?_, fun a mem => ?_⟩, browsed⟩
  · rw [browsed.inodeBitmap]
    exact deleted.bits m lt
  · have old := deleted.sub a (sub a mem)
    have fresh := inv.cache.fresh a old
    have number : (u.inodes a).iNo = (s.inodes a).iNo := (deleted.steady.trans browsed.steady).numbers a fresh
    have alive := inv.alive a old
    rw [number]
    refine ⟨alive, fun e => ?_⟩
    have here : a = dir.inode := inv.cache.addr_eq old dirAt.mem e dirAt.number
    rcases (core'.cache.held a).1 mem with pos | top
    · rw [here, unheld] at pos
      exact absurd pos (Nat.lt_irrefl 0)
    · rw [top, core'.cache.root, ← top, e] at number
      exact notTop number.symm

/-- **`sys_rmdir`** removes an empty directory, unless its path ends in `.`, or changes
nothing. -/
theorem rmdirPath_inv (lay : Layout part n) (room : ∀ a, H a + 4 < 2 ^ 32) (inv : FsInv part n s sh H) (noZero : 0#8 ∉ path)
    (notDot : ∀ f, Removable part me s path f → (pathNames path).getLast? ≠ some dot)
    (unheld : ∀ f, Removable part me s path f → sh.dir f → ∀ a, 0 < H a → (s.inodes a).iNo ≠ f)
    {ok : Option Unit} (h : rmdirPath part me s path = .ok (ok, t)) :
    Steady s t ∧ KeepsFiles part s t sh ∧ (FsInv part n t sh H ∨
      ∃ f, Removable part me s path f ∧ sh.live f ∧ sh.dir f ∧ FsInv part n t (sh.remove f) H) := by
  have room' : ∀ a, H a + 2 < 2 ^ 32 := fun a => by
    have := room a
    omega
  simp only [rmdirPath, bind_ok, assertThat_ok, exists_const, Prod.exists] at h
  obtain ⟨r, s1, search, notTop, h⟩ := h
  obtain ⟨q, inv1, browsed1, parentAt, found⟩ := searchFile_inv lay room' inv noZero search
  have closes : (∃ s2, closeParent me s1 r = .ok s2 ∧ (none, s2) = (ok, t)) →
      Steady s t ∧ KeepsFiles part s t sh ∧ FsInv part n t sh H := by
    rintro ⟨s2, closed, e⟩
    cases e
    obtain ⟨inv2, browsed2⟩ := closeParent_inv (room' _) inv1 closed
    exact ⟨(browsed1.trans browsed2).steady, (browsed1.trans browsed2).keepsFiles, inv2⟩
  split at h
  · simp only [bind_ok, pure_ok] at h
    exact (closes h).imp_right (And.imp_right .inl)
  rename_i f isF
  split at h
  · simp only [bind_ok, pure_ok] at h
    exact (closes h).imp_right (And.imp_right .inl)
  rename_i notFile
  cases found with
  | none no => rw [isF] at no; cases no
  | root number => exact absurd number notTop
  | file _ _ _ type => exact absurd type notFile
  | @dir k j x at_ isDir number type last =>
    obtain rfl : f = x.iNo := Option.some.inj (isF.symm.trans number)
    have at1 : ItemAt (nodeAt part s1.disk s1.blockBitmap q) k j x := by
      rw [browsed1.disk, browsed1.blockBitmap]
      exact at_
    obtain ⟨live, kind⟩ := inv1.itemDir parentAt.live parentAt.dir at1
    have top : x.iNo ≠ 0 := fun e => notTop (by rw [isF, e])
    simp only [bind_ok, ite_bind_ok, pure_ok, Prod.exists] at h
    obtain ⟨dir, s2, opened, ok', s3, removed, s4, closed, s5, closed', e⟩ := h
    cases e
    obtain ⟨inv2, browsed2, dirAt, notRoot⟩ := dirOpen_inv inv1 live (kind.1 isDir) opened
    have parentAt2 := parentAt.hold inv1 inv2 browsed2
    have browsed := browsed1.trans browsed2
    have room1 : ∀ a, hold H r.parentDir a + 3 < 2 ^ 32 := fun a => by
      have := @hold_le H r.parentDir a
      have := room a
      omega
    -- the directory was not removed: both handles are closed
    have keeps : FsInv part n s3 sh (hold (hold H r.parentDir) dir) → Browsed s s3 →
        Steady s t ∧ KeepsFiles part s t sh ∧ FsInv part n t sh H := by
      intro inv3 browsed3
      obtain ⟨inv4, browsed4⟩ := dirClose_inv inv3 (Nat.lt_trans (Nat.lt_succ_self _) (room1 _)) closed
      obtain ⟨inv5, browsed5⟩ := closeParent_inv (room' _) inv4 closed'
      have looked := browsed3.trans (browsed4.trans browsed5)
      exact ⟨looked.steady, looked.keepsFiles, inv5⟩
    split at removed
    case isFalse =>
      rw [pure_ok] at removed
      cases removed
      exact (keeps inv2 browsed).imp_right (And.imp_right .inl)
    rename_i isEmpty
    have leads : Removable part me s path x.iNo := by
      refine ⟨r, s1, search, isF, type, top, ?_⟩
      have stored := inv2.cache.stored dir.inode dirAt.mem (by rw [dirAt.number]; exact live)
      rw [dirAt.number, browsed.disk] at stored
      rw [dirIsEmpty, ← stored.iSize]
      exact isEmpty
    have isDot : x.name ≠ .dot := fun e => notDot x.iNo leads (by rw [last, e]; rfl)
    have at2 : ItemAt (nodeAt part s2.disk s2.blockBitmap q) k j x := by
      rw [browsed2.disk, browsed2.blockBitmap]
      exact at1
    obtain rfl | ⟨ne, deleted, others⟩ := dirRemove_inv lay room1 inv2 parentAt2 dirAt at2 isDot top isEmpty removed
    · exact (keeps inv2.malloc (browsed.trans browsed_malloc)).imp_right (And.imp_right .inl)
    have free : hold H r.parentDir dir.inode = 0 := by
      by_contra held
      rcases hold_pos (Nat.pos_of_ne_zero held) with pos | e
      · refine unheld x.iNo leads (kind.1 isDir) dir.inode pos ?_
        rw [← browsed.steady.numbers _ (inv.cache.fresh _ ((inv.cache.held _).2 (.inl pos)))]
        exact dirAt.number
      · exact ne (by rw [← parentAt2.number, ← e, dirAt.number])
    obtain ⟨inv4, browsed4⟩ := deleted.close inv2.malloc ⟨dirAt.mem, dirAt.number, dirAt.live, dirAt.dir⟩ notRoot top
      (Nat.lt_trans (Nat.lt_succ_self _) (room1 _)) free closed
    obtain ⟨inv5, browsed5⟩ := closeParent_inv (room' _) inv4 closed'
    have files : KeepsFiles part s2 s3 sh := fun m live' file => others m ⟨live', fun e => file (e ▸ kind.1 isDir)⟩
      fun e => file (e ▸ parentAt2.dir)
    refine ⟨?_, files.around browsed.toCacheOnly (browsed4.trans browsed5).toCacheOnly,
      .inr ⟨x.iNo, leads, live, kind.1 isDir, inv5⟩⟩
    exact (browsed.trans browsed_malloc).steady.trans (deleted.steady.trans (browsed4.trans browsed5).steady)

end Remove

end Sparrow
