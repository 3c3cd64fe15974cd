import Sparrow.Fs.WholePath

/-!
# Path resolution is a walk of the tree

`Naming.Search` says what looking for a path finds in a naming graph. `searchFile_resolves`
says that `search_file` computes it in the tree on the disk, and which handle it leaves open;
without memory it may give up before.
-/

namespace Sparrow
set_option autoImplicit false

/-- The handles on the inode at `a`. -/
def Fs.openCnt (s : Fs) (a : Nat) : Nat := if a ∈ s.openInodes then (s.inodes a).iOpenCnts else 0

/-- The search that began in `s` stands in the directory `q` after looking for the names in
`done`: it has a handle on `q`, and no other. -/
structure Stands (s t : Fs) (sh : Shape) (r : SearchResult) (q : Nat) (done : List (List Byte)) : Prop where
  parent : DirAt t sh r.parentDir q
  counts : ∀ a, t.openCnt a = s.openCnt a + if r.parentDir.isRoot = false ∧ a = r.parentDir.inode then 1 else 0
  searched : r.fileType ≠ .directory → r.searchedPath = joinPath done

/-- The search found what the names lead to. -/
def Resolved (part : Partition) (s t : Fs) (sh : Shape) (names : List (List Byte)) (r : SearchResult) : Prop :=
  ∃ q done, Naming.Search pathLabels (naming part s.disk s.blockBitmap sh) 0 names r.inodeNo q done ∧ Stands s t sh r q done ∧
    ∀ i, r.inodeNo = some i → (sh.dir i → r.fileType = .directory) ∧ (¬ sh.dir i → r.fileType = .regular)

/-- The search came to a directory and had no memory to look for the next name there. -/
def GaveUp (part : Partition) (s t : Fs) (sh : Shape) (names : List (List Byte)) (r : SearchResult) : Prop :=
  ∃ pre name post q, names = pre ++ name :: post ∧ Denotes part s.disk s.blockBitmap sh pre q ∧ r.inodeNo = none ∧
    Stands s t sh r q (pre ++ [name])

section Resolve

variable {part : Partition} {n q : Nat} {me : Option Nat} {s t : Fs} {sh : Shape} {H : Nat → Nat} {path : List Byte}
  {names : List (List Byte)} {r : SearchResult} {d : Dir}

theorem Cached.openCnt (cache : Cached part s sh H) (a : Nat) : s.openCnt a = H a + if a = s.rootDir then 1 else 0 := by
  rw [Fs.openCnt]
  split
  · rename_i mem
    exact cache.counts a mem
  · rename_i out
    have := mt (cache.held a).2 out
    rw [not_or] at this
    rw [if_neg this.2]
    omega

/-- The handle on the parent directory is the only new one. -/
theorem openCnt_hold (inv : FsCore part n s sh H) (inv' : FsCore part n t sh (hold H d)) (browsed : Browsed s t) (a : Nat) :
    t.openCnt a = s.openCnt a + if d.isRoot = false ∧ a = d.inode then 1 else 0 := by
  rw [inv'.cache.openCnt, inv.cache.openCnt, browsed.rootDir, hold]
  by_cases isRoot : d.isRoot = true
  · have none : ¬ (d.isRoot = false ∧ a = d.inode) := fun both => absurd isRoot (by rw [both.1]; decide)
    rw [if_pos isRoot, if_neg none]
    omega
  · rw [if_neg isRoot]
    rw [Bool.not_eq_true] at isRoot
    by_cases here : a = d.inode
    · have both : d.isRoot = false ∧ a = d.inode := ⟨isRoot, here⟩
      rw [if_pos both, here, bump_self]
      omega
    · have none : ¬ (d.isRoot = false ∧ a = d.inode) := fun both => here both.2
      rw [if_neg none, bump_of_ne here]
      omega

/-- A name that `search_dir_entry` did not find leads nowhere. -/
theorem FsInv.nowhere (lay : Layout part n) (inv : FsInv part n t sh H) (dirAt : DirAt t sh d q) (name : Name)
    (missed : searchEntry part t.disk (t.inodes d.inode) name.bytes = .ok none) (m : Nat) :
    ¬ Naming.Step pathLabels (naming part t.disk t.blockBitmap sh) q name.bytes m := by
  obtain ⟨wf, -, items, -⟩ := inv.dirWf dirAt
  obtain ⟨found, ran, spec⟩ := searchEntry_spec lay wf name
  rw [show searchEntry part t.disk (t.inodes d.inode) name.bytes = .ok found from ran] at missed
  cases missed
  intro step
  obtain ⟨k, j, x, at_, bytes, -⟩ := (inv.tree.step_iff dirAt.live dirAt.dir).1 step
  obtain ⟨-, absent⟩ | ⟨_, _, _, -, -, some_⟩ := spec
  · exact absent k j x ((items k j x).2 at_) (Name.ext_bytes bytes)
  · cases some_

/-- What was found is what the names lead to, if a name that was not found leads nowhere. -/
theorem FsInv.search_of_outcome (inv : FsInv part n s sh H) (live : sh.live q) (dir : sh.dir q) (named : names ≠ [])
    (outcome : Outcome part s.disk s.blockBitmap sh names q r)
    (nowhere : r.inodeNo = none → ∀ pre name, r.searchedPath = joinPath (pre ++ [name]) → name ∈ names → name.length < 16 →
      ∀ m, ¬ Naming.Step pathLabels (naming part s.disk s.blockBitmap sh) q name m) :
    ∃ done, Naming.Search pathLabels (naming part s.disk s.blockBitmap sh) 0 names r.inodeNo q done ∧
      (r.fileType ≠ .directory → r.searchedPath = joinPath done) ∧
      ∀ i, r.inodeNo = some i → (sh.dir i → r.fileType = .directory) ∧ (¬ sh.dir i → r.fileType = .regular) := by
  have tree := inv.tree
  obtain ⟨rootLive, rootDir, -⟩ := tree.naming.top
  cases outcome with
  | @none pre post name walk no _ split searched short =>
    have step := nowhere no pre name searched (by rw [split]; simp) short
    refine ⟨pre ++ [name], ?_, fun _ => searched, fun i is => ?_⟩
    · rw [no, split]
      exact .of_walk walk (.missing dir step)
    · rw [no] at is
      cases is
  | @file pre post k j x walk at_ isFile number type split searched =>
    obtain ⟨-, -, file⟩ := inv.fileEntry live dir at_ isFile
    refine ⟨pre ++ [x.name.bytes], ?_, fun _ => searched, fun i is => ?_⟩
    · rw [number, split]
      exact .of_walk walk (.leaf dir ((tree.step_iff live dir).2 ⟨k, j, x, at_, rfl, rfl⟩) file)
    · obtain rfl : x.iNo = i := Option.some.inj (number.symm.trans is)
      exact ⟨fun dir => absurd dir file, fun _ => type⟩
  | @dir k j x walk at_ isDir number type last before =>
    have dir' := (inv.itemDir live dir at_).2.1 isDir
    refine ⟨names, ?_, fun no => absurd type no, fun i is => ?_⟩
    · rw [number, ← List.dropLast_append_getLast? _ last]
      exact .of_walk before (.last dir ((tree.step_iff live dir).2 ⟨k, j, x, at_, rfl, rfl⟩) dir')
    · obtain rfl : x.iNo = i := Option.some.inj (number.symm.trans is)
      exact ⟨fun _ => type, fun file => absurd dir' file⟩
  | root walk number type _ top few =>
    subst top
    obtain ⟨name, rest, rfl⟩ := List.exists_cons_of_ne_nil named
    obtain rfl : rest = [] := List.eq_nil_of_length_eq_zero (by simpa using few)
    refine ⟨[name], ?_, fun no => absurd type no, fun i is => ?_⟩
    · rw [number]
      cases walk with
      | cons _ step stop =>
        cases stop
        exact .last rootDir step rootDir
    · obtain rfl : 0 = i := Option.some.inj (number.symm.trans is)
      exact ⟨fun _ => type, fun file => absurd rootDir file⟩

/-- **`search_file`** finds what the path leads to, or gives up for want of memory. -/
theorem searchFile_resolved (lay : Layout part n) (room : ∀ a, H a + 2 < 2 ^ 32) (inv : FsInv part n s sh H) (noZero : 0#8 ∉ path)
    (named : pathNames path ≠ []) (search : searchFile part me s path = .ok (r, t)) :
    Resolved part s t sh (pathNames path) r ∨ OutOfMemory s t ∧ GaveUp part s t sh (pathNames path) r := by
  obtain ⟨q, inv1, browsed, dirAt, outcome⟩ := searchFile_outcome lay room inv noZero search
  have counts := openCnt_hold inv.toFsCore inv1.toFsCore browsed
  have resolved : (r.inodeNo = none → searchEntry part t.disk (t.inodes r.parentDir.inode) (lastName r.searchedPath) = .ok none) →
      Resolved part s t sh (pathNames path) r := by
    intro missed
    have nowhere : r.inodeNo = none → ∀ pre name, r.searchedPath = joinPath (pre ++ [name]) → name ∈ pathNames path →
        name.length < 16 → ∀ m, ¬ Naming.Step pathLabels (naming part s.disk s.blockBitmap sh) q name m := by
      intro no pre name searched mem short m
      obtain ⟨component, sub⟩ := mem_pathNamesFuel _ mem
      have missed := missed no
      rw [searched, lastName_join component.noSlash] at missed
      rw [← browsed.disk, ← browsed.blockBitmap]
      exact inv1.nowhere lay dirAt ⟨name, component.nonempty, by omega, fun zero => noZero (sub _ zero)⟩ missed m
    obtain ⟨done, found, searched, kind⟩ := inv.search_of_outcome dirAt.live dirAt.dir named outcome nowhere
    exact ⟨q, done, found, ⟨dirAt, counts, searched⟩, kind⟩
  by_cases no : r.inodeNo = none
  · obtain missed | out := searchFile_missed search no
    · exact .inl (resolved fun _ => missed)
    · refine .inr ⟨out, ?_⟩
      cases outcome with
      | @none pre post name walk _ _ split searched _ => exact ⟨pre, name, post, q, split, walk, no, dirAt, counts, fun _ => searched⟩
      | file _ _ _ number => rw [no] at number; cases number
      | dir _ _ _ number => rw [no] at number; cases number
      | root _ number => rw [no] at number; cases number
  · exact .inl (resolved fun yes => absurd yes no)

/-- With memory it finds what the path leads to. -/
theorem searchFile_found (lay : Layout part n) (room : ∀ a, H a + 2 < 2 ^ 32) (inv : FsInv part n s sh H) (noZero : 0#8 ∉ path)
    (named : pathNames path ≠ []) (search : searchFile part me s path = .ok (r, t)) (heap : s.mallocs = []) :
    Resolved part s t sh (pathNames path) r :=
  (searchFile_resolved lay room inv noZero named search).resolve_right fun gaveUp => gaveUp.1.heap heap

/-- Whatever the allocations give, `search_file` returns with what the path leads to, or gives
up after an allocation that failed. With memory it returns, for a task that can follow the list
of open inodes. -/
theorem searchFile_resolves (lay : Layout part n) (room : ∀ a, H a + 2 < 2 ^ 32) (inv : FsInv part n s sh H) (wf : Pathname path)
    (named : pathNames path ≠ []) :
    (∀ me r t, searchFile part me s path = .ok (r, t) →
      Resolved part s t sh (pathNames path) r ∨ OutOfMemory s t ∧ GaveUp part s t sh (pathNames path) r) ∧
    (s.mallocs = [] → ∀ me, (∀ a ∈ s.openInodes, Reachable me s a) → ∃ r t, searchFile part me s path = .ok (r, t)) := by
  refine ⟨fun me r t search => searchFile_resolved lay room inv wf.noZero named search, fun heap me reach => ?_⟩
  obtain ⟨r, t, ran, -⟩ := searchFile_returns lay room inv (inv.calm heap reach) wf (.inr named)
  exact ⟨r, t, ran⟩

end Resolve

section Examples

/-- The path `//.` of a partition just formatted. -/
def pathDot : List Byte := [slash, slash, 0x2e#8]

theorem searchFile_resolves_small : ∃ part s, formatAndMount (fun _ => 0#8) 1 620 = .ok (part, s) ∧
    ∃ r t, searchFile part none s pathDot = .ok (r, t) ∧ Resolved part s t .root [[0x2e#8]] r := by
  obtain ⟨part, s, formatted⟩ := exists_smallPartition
  obtain ⟨usable, heap⟩ := smallPartition_usable none formatted
  obtain ⟨resolves, returns⟩ := searchFile_resolves usable.lay usable.room2 usable.inv
    (show Pathname pathDot from ⟨rfl, by decide, by decide, by decide⟩) (by decide)
  obtain ⟨r, t, ran⟩ := returns heap none usable.reach
  refine ⟨part, s, formatted, r, t, ran, ?_⟩
  obtain resolved | ⟨out, -⟩ := resolves none r t ran
  · exact resolved
  · exact absurd heap out.heap

/-- Without memory the root directory is not found under `//.`. -/
theorem searchFile_noMemory : ¬ ∀ (part : Partition) (n : Nat) (me : Option Nat) (s t : Fs) (sh : Shape) (H : Nat → Nat)
    (path : List Byte) (r : SearchResult), Layout part n → (∀ a, H a + 2 < 2 ^ 32) → FsInv part n s sh H → Pathname path →
    pathNames path ≠ [] → searchFile part me s path = .ok (r, t) → Resolved part s t sh (pathNames path) r := by
  intro claim
  have ran : returns (formatAndMount (fun _ => 0#8) 1 620) (fun x =>
      returns (searchFile x.1 none { x.2 with mallocs := [false] } pathDot) fun y => decide (y.1.inodeNo = none)) = true := by
    decide
  obtain ⟨⟨part, s⟩, formatted, ran⟩ := returns_true.1 ran
  obtain ⟨⟨r, t⟩, search, isNone⟩ := returns_true.1 ran
  have none := of_decide_eq_true isNone
  have usable := (smallPartition_usable Option.none formatted).1
  obtain ⟨q, done, found, -, -⟩ := claim part 8 _ _ t .root _ pathDot r usable.lay usable.room2 (usable.inv.heap [false])
    ⟨rfl, by decide, by decide, by decide⟩ (by decide) search
  have tree := usable.inv.tree
  obtain ⟨live, dir, -⟩ := tree.naming.top
  have here : Naming.Search pathLabels (naming part s.disk s.blockBitmap .root) 0 (pathNames pathDot) (some 0) 0 [[0x2e#8]] :=
    .last dir (.inl ⟨rfl, rfl⟩) dir
  obtain ⟨no, -⟩ := found.unique tree.naming tree.clear here live
  rw [none] at no
  cases no

end Examples

end Sparrow
