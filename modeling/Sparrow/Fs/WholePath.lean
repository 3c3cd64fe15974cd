import Sparrow.Fs.Deletion
import Sparrow.Fs.Mount
import Sparrow.Fs.OpenFiles
import Sparrow.Fs.Returns

/-!
# The whole path

`search_file` stops at the first regular file, whatever comes behind it in the path, and
`sys_unlink` and `sys_stat` do not compare the depth of the path with the depth searched.
`Denotes` says what a path means in the tree; `wholePath_iff` says for which trees and paths
`sys_unlink` removes what the whole path denotes and nothing else, and for which `sys_stat`
answers for the whole path.
-/

namespace Sparrow
set_option autoImplicit false

/-- A mounted partition whose root directory keeps the block `partition_format` gave it, and
the file table. The running task `me` can follow the list of open inodes. -/
structure Usable (part : Partition) (n : Nat) (me : Option Nat) (s : Fs) (sh : Shape) (H : Nat → Nat) : Prop where
  lay : Layout part n
  inv : FsInv part n s sh H
  room : ∀ a, H a + 3 < 2 ^ 32
  reach : ∀ a ∈ s.openInodes, Reachable me s a
  files : ∀ i, i < maxFileOpen → ∀ a, (s.fileTable i).fdInode = .inode a → a ∈ s.openInodes
  ground : blockRef s.disk (slot part s.disk 0) 0 = part.sb.dataStartLba

/-- The names lead to a regular file that no slot of the file table has open. -/
def Target (part : Partition) (s : Fs) (sh : Shape) (names : List (List Byte)) (f : Nat) : Prop :=
  Denotes part s.disk s.blockBitmap sh names f ∧ ¬ sh.dir f ∧
    ∀ i, i < maxFileOpen → ∀ a, (s.fileTable i).fdInode = .inode a → (s.inodes a).iNo ≠ f

/-- The file `f` is gone with its inode and its blocks, and nothing else is. -/
structure OnlyGone (part : Partition) (n : Nat) (s t : Fs) (sh : Shape) (H : Nat → Nat) (f : Nat) : Prop where
  core : FsCore part n t (sh.remove f) H
  entries : ∀ m y, sh.live m → sh.dir m →
    (entries part t.disk t.blockBitmap m y ↔ entries part s.disk s.blockBitmap m y ∧ y.iNo ≠ f)
  others : ∀ m, sh.live m → ¬ sh.dir m → m ≠ f → Untouched part s.disk s.blockBitmap t.disk t.blockBitmap m
  inodeBits : t.inodeBitmap = bitmapSet s.inodeBitmap f false
  blockBits : ∀ i, owned part s.disk f (part.sb.dataStartLba + i) → ¬ t.blockBitmap.Set i

/-- `sys_unlink` of the path takes away the file it denotes and says so, or leaves everything
as it was; it does the first when it can. -/
structure UnlinkExact (part : Partition) (n : Nat) (me : Option Nat) (s : Fs) (sh : Shape) (H : Nat → Nat) (path : List Byte) :
    Prop where
  done : ∀ heap t, unlinkPath part me { s with mallocs := heap } path = .ok (some (), t) →
    ∃ f, Target part s sh (pathNames path) f ∧ OnlyGone part n s t sh H f
  kept : ∀ heap t, unlinkPath part me { s with mallocs := heap } path = .ok (none, t) → Browsed s t
  returns : ∃ ok t, unlinkPath part me { s with mallocs := [] } path = .ok (ok, t) ∧
    (ok = none → ¬ ∃ f, Target part s sh (pathNames path) f)

/-- The path does not denote the root, it does not go on behind a closed file, and
`delete_dir_entry` can delete the entry of the file it denotes. -/
structure UnlinkLimits (part : Partition) (s : Fs) (sh : Shape) (path : List Byte) : Prop where
  root : ¬ Denotes part s.disk s.blockBitmap sh (pathNames path) 0
  whole : ∀ pre post f, pathNames path = pre ++ post → post ≠ [] → ¬ Target part s sh pre f
  shared : ∀ f q x, Target part s sh (pathNames path) f → sh.live q → sh.dir q → entries part s.disk s.blockBitmap q x →
    x.iNo = f → ¬ ∃ k, AloneIn (nodeAt part s.disk s.blockBitmap q) f k

/-- `sys_stat` of the path answers only for what the path denotes. -/
def StatExact (part : Partition) (me : Option Nat) (s : Fs) (sh : Shape) (path : List Byte) : Prop :=
  ∀ heap st t, statPath part me { s with mallocs := heap } path = .ok (some st, t) →
    Denotes part s.disk s.blockBitmap sh (pathNames path) st.stIno ∧
      (st.stFiletype = .directory ↔ sh.dir st.stIno) ∧ st.stSize = (slot part s.disk st.stIno).iSize

/-- The path does not go on behind a file. -/
def StatLimits (part : Partition) (s : Fs) (sh : Shape) (path : List Byte) : Prop :=
  ∀ pre post f, pathNames path = pre ++ post → post ≠ [] → Denotes part s.disk s.blockBitmap sh pre f → sh.dir f

section Unlink

variable {part : Partition} {n : Nat} {me : Option Nat} {s t u : Fs} {sh : Shape} {H : Nat → Nat} {d : Dir} {q : Nat} {x : Item}

/-- **Deleting the entry of a file, and releasing its inode**, removes this file only. -/
theorem FsInv.onlyGone (lay : Layout part n) (room : ∀ a, H a + 3 < 2 ^ 32) (inv : FsInv part n s sh (hold H d))
    (dirAt : DirAt s sh d q) (has : entries part s.disk s.blockBitmap q x) (file : ¬ sh.dir x.iNo) {found : Bool} {v : Vnode}
    (deleted : deleteDirEntry part (s.vnode d.inode) x.iNo = .ok (found, v))
    (released : inodeRelease part me (s.setVnode d.inode v) x.iNo = .ok u) (closed : dirClose me u d = .ok t) :
    OnlyGone part n s t sh H x.iNo := by
  have room1 : ∀ a, hold H d a + 2 < 2 ^ 32 := fun a => by
    have := @hold_le H d a
    have := room a
    omega
  obtain ⟨k, j, rem⟩ := deleteEntry_removed lay inv dirAt has deleted
  obtain ⟨core, orphan⟩ := inv.leave lay dirAt has (fun dir => absurd dir file) rem
  obtain ⟨core1, rel⟩ := inodeRelease_core lay core orphan room1 released
  obtain ⟨core2, browsed⟩ := dirClose_core core1 (by have := room d.inode; omega) closed
  have live := (inv.tree.naming.named q x dirAt.live dirAt.dir has).1
  have apart : x.iNo ≠ q := fun e => file (e ▸ dirAt.dir)
  have after : ∀ m, sh.live m → m ≠ x.iNo → Untouched part v.disk v.blockBitmap t.disk t.blockBitmap m := by
    intro m live ne
    rw [browsed.disk, browsed.blockBitmap]
    exact inodeRelease_untouched lay core orphan room1 released ⟨live, ne⟩
  refine ⟨core2, fun m y live dir => ?_, fun m live' notDir ne => ?_, ?_, fun i o set => ?_⟩
  · have ne : m ≠ x.iNo := fun e => file (e ▸ dir)
    refine ((after m live ne).entries (core.tree.node m ⟨live, ne⟩) dir y).trans ?_
    by_cases isParent : m = q
    · subst isParent
      refine (rem.entries lay inv dirAt y).trans (and_congr_right fun has' => not_congr ⟨congrArg Item.iNo, fun same => ?_⟩)
      exact (inv.tree.naming.once _ _ y x live dir live dir has' has same).2
    · refine ((rem.untouched inv dirAt live isParent).entries (inv.tree.node m live) dir y).trans ?_
      refine (and_iff_left_of_imp fun has' same => isParent ?_).symm
      exact (inv.tree.naming.once _ _ y x live dir dirAt.live dirAt.dir has' has same).1
  · exact (rem.untouched inv dirAt live' fun e => notDir (e ▸ dirAt.dir)).trans (after m live' ne)
  · rw [browsed.inodeBitmap, rel.inodeBitmap]
    rfl
  · rw [browsed.blockBitmap, rel.blockBits] at set
    exact set.2 (((rem.untouched inv dirAt live apart).owned _).2 o)

theorem OnlyGone.before {s1 : Fs} {f : Nat} (browsed : Browsed s s1) (gone : OnlyGone part n s1 t sh H f) :
    OnlyGone part n s t sh H f := by
  obtain ⟨core, entries, others, inodeBits, blockBits⟩ := gone
  rw [browsed.disk, browsed.blockBitmap] at entries others
  rw [browsed.inodeBitmap] at inodeBits
  rw [browsed.disk] at blockBits
  exact ⟨core, entries, others, inodeBits, blockBits⟩

end Unlink

section InUse

variable {me : Option Nat} {s : Fs} {f : Nat}

/-- Some slot has the inode open. -/
theorem inUse_true : ∀ (l : List Nat), inUse me s f l = .ok true →
    ∃ i ∈ l, ∃ a, (s.fileTable i).fdInode = .inode a ∧ (s.inodes a).iNo = f := by
  intro l
  induction l with
  | nil => intro h; cases h
  | cons first rest ih =>
    intro h
    rw [inUse] at h
    have later : inUse me s f rest = .ok true → ∃ i ∈ first :: rest, ∃ a, (s.fileTable i).fdInode = .inode a ∧ (s.inodes a).iNo = f := by
      intro h
      obtain ⟨i, mem, found⟩ := ih h
      exact ⟨i, List.mem_cons_of_mem _ mem, found⟩
    split at h
    · rename_i a here
      simp only [bind_ok, defined_ok, exists_const] at h
      obtain ⟨-, h⟩ := h
      split at h
      · rename_i same
        exact ⟨first, List.mem_cons_self, a, here, same⟩
      · exact later h
    · exact later h

theorem inUse_returns : ∀ (l : List Nat), (∀ i ∈ l, ∀ a, (s.fileTable i).fdInode = .inode a → Reachable me s a) →
    ∃ used, inUse me s f l = .ok used := by
  intro l
  induction l with
  | nil => exact fun _ => ⟨false, rfl⟩
  | cons first rest ih =>
    intro reach
    obtain ⟨used, later⟩ := ih fun i mem => reach i (List.mem_cons_of_mem _ mem)
    rw [inUse]
    split
    · rename_i a here
      rw [defined_of (reach first List.mem_cons_self a here), ok_bind]
      split
      · exact ⟨true, rfl⟩
      · exact ⟨used, later⟩
    · exact ⟨used, later⟩

end InUse

section Exact

variable {part : Partition} {n : Nat} {me : Option Nat} {s s1 t : Fs} {sh : Shape} {H : Nat → Nat} {path : List Byte}
  {r : SearchResult}

theorem browsed_heap (mallocs : List Bool) : Browsed s { s with mallocs := mallocs } :=
  ⟨⟨rfl, rfl, rfl, rfl, rfl⟩, Nat.le_refl _, fun _ _ => rfl⟩

theorem Usable.heap (usable : Usable part n me s sh H) (mallocs : List Bool) :
    Usable part n me { s with mallocs := mallocs } sh H :=
  ⟨usable.lay, usable.inv.heap mallocs, usable.room, usable.reach, usable.files, usable.ground⟩

theorem Usable.room2 (usable : Usable part n me s sh H) (a : Nat) : H a + 2 < 2 ^ 32 :=
  Nat.lt_trans (Nat.lt_succ_self _) (usable.room a)

/-- It can look at every inode of the file table. -/
theorem Usable.slots (usable : Usable part n me s sh H) {d : Dir} (core : FsCore part n s1 sh (hold H d)) (browsed : Browsed s s1)
    (calm : Calm me H s1) :
    ∀ i ∈ List.range maxFileOpen, ∀ a, (s1.fileTable i).fdInode = .inode a → Reachable me s1 a := by
  intro i mem a slot
  rw [browsed.fileTable] at slot
  have open_ := usable.files i (List.mem_range.1 mem) a slot
  apply calm.reach a
  rw [core.cache.held, browsed.rootDir]
  exact ((usable.inv.cache.held a).1 open_).imp_left fun pos => Nat.lt_of_lt_of_le pos le_hold

/-- The loop of `sys_unlink` over the file table finds out whether the file is closed. -/
theorem Usable.used_iff (usable : Usable part n me s sh H) (browsed : Browsed s s1) {f : Nat} {used : Bool}
    (ran : inUse me s1 f (List.range maxFileOpen) = .ok used) :
    used = false ↔ ∀ i, i < maxFileOpen → ∀ a, (s.fileTable i).fdInode = .inode a → (s.inodes a).iNo ≠ f := by
  have number : ∀ i, i < maxFileOpen → ∀ a, (s.fileTable i).fdInode = .inode a → (s1.inodes a).iNo = (s.inodes a).iNo := by
    intro i lt a slot
    rw [browsed.inodes a (usable.inv.cache.fresh a (usable.files i lt a slot))]
  constructor
  · rintro rfl i lt a slot
    rw [← number i lt a slot]
    exact inUse_false _ ran i (List.mem_range.2 lt) a (by rw [browsed.fileTable]; exact slot)
  · intro closed
    by_contra yes
    rw [Bool.not_eq_false] at yes
    subst yes
    obtain ⟨i, mem, a, slot, is⟩ := inUse_true _ ran
    rw [browsed.fileTable] at slot
    have lt := List.mem_range.1 mem
    exact closed i lt a slot ((number i lt a slot).symm.trans is)

theorem AloneIn.congr {v v' : Vnode} {f k : Nat} (items : ∀ k j x, ItemAt v' k j x ↔ ItemAt v k j x) (alone : AloneIn v f k) :
    AloneIn v' f k := by
  obtain ⟨indirect, j, x, at_, ordinary, number, only⟩ := alone
  exact ⟨indirect, j, x, (items k j x).2 at_, ordinary, number, fun j' y at' => only j' y ((items k j' y).1 at')⟩

/-- What `sys_unlink` removes is a closed file on the path, not always at its end. -/
theorem Usable.unlinked (usable : Usable part n me s sh H) (noZero : 0#8 ∉ path)
    (h : unlinkPath part me s path = .ok (some (), t)) :
    ∃ pre post f, pathNames path = pre ++ post ∧ Target part s sh pre f ∧ OnlyGone part n s t sh H f ∧
      ∀ q x, sh.live q → sh.dir q → entries part s.disk s.blockBitmap q x → x.iNo = f →
        ¬ ∃ k, AloneIn (nodeAt part s.disk s.blockBitmap q) f k := by
  have lay := usable.lay
  have inv := usable.inv
  obtain ⟨r, s1, search, notRoot, ended⟩ := unlinkPath_cases h
  obtain ⟨q, inv1, browsed, dirAt, outcome⟩ := searchFile_outcome lay usable.room2 inv noZero search
  cases ended with
  | refused no => cases no
  | @deleted f found v u _ isF notDir unused deleted released closed =>
    cases outcome with
    | none _ no => rw [isF] at no; cases no
    | root _ number => exact absurd (isF.trans (isF.symm.trans number)) notRoot
    | dir _ _ _ _ type => exact absurd type notDir
    | @file pre post k j x walk at_ isFile number type split =>
      obtain rfl : f = x.iNo := Option.some.inj (isF.symm.trans number)
      obtain ⟨has, -, file⟩ := inv.fileEntry dirAt.live dirAt.dir at_ isFile
      have denotes : Denotes part s.disk s.blockBitmap sh (pre ++ [x.name.bytes]) x.iNo :=
        walk.concat dirAt.dir ((inv.tree.step_iff dirAt.live dirAt.dir).2 ⟨k, j, x, at_, rfl, rfl⟩)
      have has1 : entries part s1.disk s1.blockBitmap q x := by
        rw [browsed.disk, browsed.blockBitmap]
        exact has
      have dirAt1 : DirAt s1.malloc sh r.parentDir q := ⟨dirAt.mem, dirAt.number, dirAt.live, dirAt.dir⟩
      refine ⟨pre ++ [x.name.bytes], post, x.iNo, by rw [split, List.append_assoc]; rfl,
        ⟨denotes, file, (usable.used_iff browsed unused).1 rfl⟩,
        (inv1.malloc.onlyGone lay usable.room dirAt1 has1 file deleted released closed).before (browsed.trans browsed_malloc), ?_⟩
      rintro q' x' live' dir' has' same ⟨k', alone⟩
      obtain ⟨rfl, rfl⟩ := inv.tree.naming.once q' q x' x live' dir' dirAt.live dirAt.dir has' has same
      obtain ⟨wf, sized, items, -⟩ := inv1.malloc.dirWf dirAt1
      obtain ⟨-, diverges⟩ | ⟨notAlone, -⟩ := deleteDirEntry_returns lay (wf.dirShape inv1.malloc.tree.map sized) x'.iNo
      · rw [diverges] at deleted
        cases deleted
      · refine notAlone ⟨k', alone.congr fun k j y => (items k j y).trans ?_⟩
        show ItemAt (nodeAt part s1.disk s1.blockBitmap q') k j y ↔ _
        rw [browsed.disk, browsed.blockBitmap]

/-- When `sys_unlink` returns -1 only the cache was used. -/
theorem Usable.unlink_kept (usable : Usable part n me s sh H) (noZero : 0#8 ∉ path)
    (h : unlinkPath part me s path = .ok (none, t)) : Browsed s t := by
  obtain ⟨r, s1, search, notRoot, ended⟩ := unlinkPath_cases h
  obtain ⟨q, inv1, browsed, -, -⟩ := searchFile_outcome usable.lay usable.room2 usable.inv noZero search
  cases ended with
  | refused _ _ how closed =>
    rcases how with rfl | rfl
    · exact browsed.trans (closeParent_inv (usable.room2 _) inv1 closed).2
    · exact (browsed.trans browsed_malloc).trans (closeParent_inv (usable.room2 _) inv1.malloc closed).2
  | deleted yes => cases yes

/-- What `search_file` finds, when nothing stands in its way. -/
theorem Usable.search (usable : Usable part n me s sh H) (heap : s.mallocs = []) (noZero : 0#8 ∉ path)
    (search : searchFile part me s path = .ok (r, t)) :
    ∃ q, FsInv part n t sh (hold H r.parentDir) ∧ Browsed s t ∧ DirAt t sh r.parentDir q ∧ Calm me H t ∧
      Outcome part s.disk s.blockBitmap sh (pathNames path) q r ∧
      (r.inodeNo = none → Naming.Stuck pathLabels (naming part s.disk s.blockBitmap sh) 0 (pathNames path)) := by
  have calm := usable.inv.calm heap usable.reach
  obtain ⟨q, inv1, browsed, dirAt, outcome⟩ := searchFile_outcome usable.lay usable.room2 usable.inv noZero search
  obtain ⟨r', t', ran, -, stuck⟩ | ⟨⟨_, no⟩, -⟩ := searchFile_returns_or usable.lay usable.room2 usable.inv calm noZero
  swap
  · rw [no] at search
    cases search
  rw [search] at ran
  cases ran
  exact ⟨q, inv1, browsed, dirAt, calm_invariant.searchFile search calm, outcome, stuck⟩

/-- The inode found is the end of a part of the path, of all of it when it is a directory. -/
theorem FsInv.outcome_some {q m : Nat} (inv : FsInv part n s sh H) (live : sh.live q) (dir : sh.dir q)
    (outcome : Outcome part s.disk s.blockBitmap sh (pathNames path) q r) (number : r.inodeNo = some m) :
    sh.live m ∧ (r.fileType = .directory ↔ sh.dir m) ∧
      ∃ pre post, pathNames path = pre ++ post ∧ Denotes part s.disk s.blockBitmap sh pre m ∧ (post ≠ [] → ¬ sh.dir m) := by
  obtain ⟨liveRoot, dirRoot, -⟩ := inv.tree.naming.top
  cases outcome with
  | none _ no => rw [number] at no; cases no
  | root walk number' type =>
    obtain rfl : m = 0 := Option.some.inj (number.symm.trans number')
    exact ⟨liveRoot, by rw [type]; exact ⟨fun _ => dirRoot, fun _ => rfl⟩, pathNames path, [], (List.append_nil _).symm, walk,
      fun none => absurd rfl none⟩
  | @dir k j x walk at_ isDir number' type =>
    obtain rfl : m = x.iNo := Option.some.inj (number.symm.trans number')
    obtain ⟨live', kind⟩ := inv.itemDir live dir at_
    exact ⟨live', by rw [type]; exact ⟨fun _ => kind.1 isDir, fun _ => rfl⟩, pathNames path, [], (List.append_nil _).symm, walk,
      fun none => absurd rfl none⟩
  | @file pre post k j x walk at_ isFile number' type split =>
    obtain rfl : m = x.iNo := Option.some.inj (number.symm.trans number')
    obtain ⟨-, live', file⟩ := inv.fileEntry live dir at_ isFile
    refine ⟨live', by rw [type]; exact ⟨fun no => absurd no (by decide), fun dir => absurd dir file⟩, pre ++ [x.name.bytes], post,
      by rw [split, List.append_assoc]; rfl, ?_, fun _ => file⟩
    exact walk.concat dir ((inv.tree.step_iff live dir).2 ⟨k, j, x, at_, rfl, rfl⟩)

/-- A file on the path is what the search finds. -/
theorem FsInv.finds (inv : FsInv part n s sh H) {pre post : List (List Byte)} {q f : Nat} (live : sh.live q) (dir : sh.dir q)
    (outcome : Outcome part s.disk s.blockBitmap sh (pathNames path) q r)
    (stuck : r.inodeNo = none → Naming.Stuck pathLabels (naming part s.disk s.blockBitmap sh) 0 (pathNames path))
    (split : pathNames path = pre ++ post) (denotes : Denotes part s.disk s.blockBitmap sh pre f) (file : ¬ sh.dir f) :
    r.inodeNo = some f ∧ r.fileType ≠ .directory := by
  have tree := inv.tree
  have rootLive := tree.naming.top.1
  cases isNone : r.inodeNo with
  | none =>
    have stuck := stuck isNone
    rw [split] at stuck
    exact absurd (stuck.dir_of_walk tree.naming tree.clear denotes rootLive).1 file
  | some m =>
    obtain ⟨-, kind, pre', post', split', denotes', leaf⟩ := inv.outcome_some live dir outcome isNone
    have notDir : ¬ sh.dir m := by
      by_cases more : post' = []
      · intro dirM
        rw [more, List.append_nil] at split'
        rw [← split', split] at denotes'
        exact file (denotes'.dir_of_prefix tree.naming tree.clear dirM denotes rootLive)
      · exact leaf more
    obtain ⟨-, rfl⟩ := denotes'.leaf_unique tree.naming tree.clear denotes (split'.symm.trans split) notDir file rootLive
    exact ⟨rfl, fun isDir => notDir (kind.1 isDir)⟩

/-- With memory `sys_unlink` never refuses a closed file on the path. -/
theorem Usable.unlink_target (usable : Usable part n me s sh H) (heap : s.mallocs = []) (wf : Pathname path) {ok : Option Unit}
    (h : unlinkPath part me s path = .ok (ok, t)) {pre post : List (List Byte)} {f : Nat} (split : pathNames path = pre ++ post)
    (target : Target part s sh pre f) : ok = some () := by
  obtain ⟨denotes, file, closed⟩ := target
  obtain ⟨r, s1, search, -, ended⟩ := unlinkPath_cases h
  obtain ⟨q, -, browsed, dirAt, calm, outcome, stuck⟩ := usable.search heap wf.noZero search
  obtain ⟨number, notDir⟩ := usable.inv.finds dirAt.live dirAt.dir outcome stuck split denotes file
  cases ended with
  | deleted yes => exact yes
  | refused _ why =>
    rcases why with none | isDir | ⟨f', number', used⟩ | noHeap
    · rw [number] at none
      cases none
    · exact absurd isDir notDir
    · obtain rfl : f' = f := Option.some.inj (number'.symm.trans number)
      exact absurd ((usable.used_iff browsed used).2 closed) (by decide)
    · rw [calm.mallocOk] at noHeap
      cases noHeap

/-- `sys_unlink` fails an assertion for a path to the root. -/
theorem Usable.unlink_notRoot (usable : Usable part n me s sh H) (heap : s.mallocs = []) (wf : Pathname path) {ok : Option Unit}
    (h : unlinkPath part me s path = .ok (ok, t)) : ¬ Denotes part s.disk s.blockBitmap sh (pathNames path) 0 := by
  intro root
  have tree := usable.inv.tree
  obtain ⟨rootLive, rootDir, -⟩ := tree.naming.top
  obtain ⟨r, s1, search, notRoot, -⟩ := unlinkPath_cases h
  obtain ⟨q, -, -, dirAt, -, outcome, stuck⟩ := usable.search heap wf.noZero search
  cases isNone : r.inodeNo with
  | none =>
    have stuck := stuck isNone
    rw [← List.append_nil (pathNames path)] at stuck
    exact (stuck.dir_of_walk tree.naming tree.clear root rootLive).2 rfl
  | some m =>
    obtain ⟨-, -, pre, post, split, denotes, leaf⟩ := usable.inv.outcome_some dirAt.live dirAt.dir outcome isNone
    rw [split] at root
    by_cases more : post = []
    · rw [more, List.append_nil] at root
      obtain rfl := denotes.unique tree.naming tree.clear root rootLive
      exact notRoot isNone
    · exact leaf more (root.dir_of_prefix tree.naming tree.clear rootDir denotes rootLive)

/-- The end of `sys_unlink` returns, unless `delete_dir_entry` does not. -/
theorem Usable.unlinkFound_returns (usable : Usable part n me s sh H) {q : Nat} {x : Item}
    (inv1 : FsInv part n s1 sh (hold H r.parentDir)) (browsed : Browsed s s1) (dirAt : DirAt s1 sh r.parentDir q)
    (calm : Calm me H s1) (has : entries part s1.disk s1.blockBitmap q x) (file : ¬ sh.dir x.iNo)
    (notAlone : ¬ ∃ k, AloneIn (nodeAt part s1.disk s1.blockBitmap q) x.iNo k) :
    ∃ t, unlinkFound part me s1 r x.iNo = .ok (some (), t) := by
  have lay := usable.lay
  have inv2 := inv1.malloc
  have calm2 := calm.malloc
  have dirAt2 : DirAt s1.malloc sh r.parentDir q := ⟨dirAt.mem, dirAt.number, dirAt.live, dirAt.dir⟩
  obtain ⟨liveX, -⟩ := inv2.tree.naming.named q x dirAt.live dirAt.dir has
  have apart : x.iNo ≠ q := fun e => file (e ▸ dirAt.dir)
  obtain ⟨rootLive, rootDir, -⟩ := inv2.tree.naming.top
  obtain ⟨wf, sized, items, -⟩ := inv2.dirWf dirAt2
  have room1 : ∀ a, hold H r.parentDir a + 2 < 2 ^ 32 := fun a => by
    have := @hold_le H r.parentDir a
    have := usable.room a
    omega
  obtain ⟨⟨k, alone⟩, -⟩ | ⟨-, ⟨found, v⟩, deleted⟩ := deleteDirEntry_returns lay (wf.dirShape inv2.tree.map sized) x.iNo
  · exact absurd ⟨k, alone.congr fun k j y => (items k j y).symm⟩ notAlone
  obtain ⟨k, j, rem⟩ := deleteEntry_removed lay inv2 dirAt2 has deleted
  obtain ⟨core, orphan⟩ := inv2.leave lay dirAt2 has (fun dir => absurd dir file) rem
  have same := rem.untouched inv2 dirAt2 liveX apart
  -- the first block belongs to the root directory
  have ground : ¬ owned part v.disk x.iNo part.sb.dataStartLba := by
    intro own
    have mine : owned part s.disk 0 part.sb.dataStartLba := by
      have start := lay.dataStartLba
      exact ⟨by omega, 0, by omega, usable.ground⟩
    rw [← browsed.disk] at mine
    refine file ?_
    rw [inv2.tree.apart x.iNo 0 _ liveX rootLive ((same.owned _).1 own) mine]
    exact rootDir
  have onDisk : (slot part v.disk x.iNo).sec 12 ≤ maxLba := by
    rw [same.slot]
    exact ((inv2.tree.node x.iNo liveX).fileWf file).filled.onDisk
  have calm3 : Calm me H (s1.malloc.setVnode r.parentDir.inode v) := ⟨calm2.heap, calm2.reach, calm2.pools⟩
  obtain ⟨u, released, calm4⟩ := inodeRelease_returns lay core orphan ground onDisk calm3 (fun _ => le_hold) room1
  obtain ⟨core4, -⟩ := inodeRelease_core lay core orphan room1 released
  obtain ⟨t, closed⟩ := dirClose_returns calm4 core4 (fun _ => Nat.le_refl _) (usable.room2 _)
  rw [unlinkFound, if_neg (by rw [calm.mallocOk]; decide)]
  dsimp only
  rw [defined_of (calm2.reach _ dirAt.mem), ok_bind, deleted, ok_bind]
  dsimp only
  rw [released, ok_bind, closeParent, closed]
  exact ⟨t, rfl⟩

/-- **`sys_unlink`** returns, unless the path leads to the root or the entry of the file on it
cannot be deleted. -/
theorem Usable.unlink_returns (usable : Usable part n me s sh H) (heap : s.mallocs = []) (wf : Pathname path)
    (notRoot : ¬ Denotes part s.disk s.blockBitmap sh (pathNames path) 0)
    (shared : ∀ pre post f q x, pathNames path = pre ++ post → Target part s sh pre f → sh.live q → sh.dir q →
      entries part s.disk s.blockBitmap q x → x.iNo = f → ¬ ∃ k, AloneIn (nodeAt part s.disk s.blockBitmap q) f k) :
    ∃ ok t, unlinkPath part me s path = .ok (ok, t) := by
  have tree := usable.inv.tree
  have calm := usable.inv.calm heap usable.reach
  have named : pathNames path ≠ [] := fun none => notRoot (by rw [none]; exact .nil)
  obtain ⟨r, s1, search, -⟩ := searchFile_returns usable.lay usable.room2 usable.inv calm wf (.inr named)
  obtain ⟨q, inv1, browsed, dirAt, calm1, outcome, -⟩ := usable.search heap wf.noZero search
  have closes : ∃ ok t, (do
      let t ← closeParent me s1 r
      return (none, t) : Exec (Option Unit × Fs)) = .ok (ok, t) := by
    obtain ⟨t, closed⟩ := dirClose_returns calm1 inv1.toFsCore (fun _ => Nat.le_refl _) (usable.room2 _)
    rw [closeParent, closed]
    exact ⟨_, _, rfl⟩
  rw [unlinkPath, assertThat_of wf.short, ok_bind, search, ok_bind]
  dsimp only
  cases number : r.inodeNo with
  | none =>
    rw [assertThat_of (Option.some_ne_none 0).symm, ok_bind]
    exact closes
  | some m =>
    obtain ⟨liveM, kind, pre, post, split, denotes, leaf⟩ := usable.inv.outcome_some dirAt.live dirAt.dir outcome number
    have top : m ≠ 0 := by
      rintro rfl
      by_cases more : post = []
      · rw [more, List.append_nil] at split
        rw [split] at notRoot
        exact notRoot denotes
      · exact leaf more tree.naming.top.2.1
    rw [assertThat_of (show some m ≠ some 0 from fun e => top (Option.some.inj e)), ok_bind]
    dsimp only
    by_cases isDir : r.fileType = .directory
    · rw [if_pos isDir]
      exact closes
    rw [if_neg isDir]
    obtain ⟨used, ran⟩ := inUse_returns _ (usable.slots inv1.toFsCore browsed calm1)
    rw [ran, ok_bind]
    cases used with
    | true => exact closes
    | false =>
      have file : ¬ sh.dir m := fun dir => isDir (kind.2 dir)
      have target : Target part s sh pre m := ⟨denotes, file, (usable.used_iff browsed ran).1 rfl⟩
      cases outcome with
      | none _ no => rw [number] at no; cases no
      | root _ _ type => exact absurd type isDir
      | dir _ _ _ _ type => exact absurd type isDir
      | @file _ _ k j x _ at_ isFile number' =>
        obtain rfl : m = x.iNo := Option.some.inj (number.symm.trans number')
        obtain ⟨has, -, -⟩ := usable.inv.fileEntry dirAt.live dirAt.dir at_ isFile
        have notAlone := shared pre post x.iNo q x split target dirAt.live dirAt.dir has rfl
        rw [← browsed.disk, ← browsed.blockBitmap] at has notAlone
        obtain ⟨t, found⟩ := usable.unlinkFound_returns inv1 browsed dirAt calm1 has file notAlone
        exact ⟨some (), t, found⟩

/-- What `sys_stat` answers is true of a part of the path, of all of it for a directory. -/
theorem Usable.stat (usable : Usable part n me s sh H) (noZero : 0#8 ∉ path) {st : Stat}
    (h : statPath part me s path = .ok (some st, t)) :
    ∃ pre post, pathNames path = pre ++ post ∧ Denotes part s.disk s.blockBitmap sh pre st.stIno ∧
      (post ≠ [] → ¬ sh.dir st.stIno) ∧ (st.stFiletype = .directory ↔ sh.dir st.stIno) ∧
      st.stSize = (slot part s.disk st.stIno).iSize := by
  have inv := usable.inv
  have tree := inv.tree
  obtain ⟨rootLive, rootDir, -⟩ := tree.naming.top
  rw [statPath] at h
  split at h
  · rename_i special
    rw [pure_ok] at h
    cases h
    have mem : s.rootDir ∈ s.openInodes := (inv.cache.held _).2 (.inr rfl)
    have stored := inv.cache.stored _ mem (by rw [inv.cache.root]; exact rootLive)
    rw [inv.cache.root] at stored
    exact ⟨pathNames path, [], (List.append_nil _).symm, tree.denotes_root special, fun none => absurd rfl none,
      ⟨fun _ => rootDir, fun _ => rfl⟩, stored.iSize⟩
  simp only [bind_ok, Prod.exists] at h
  obtain ⟨r, s1, search, h⟩ := h
  obtain ⟨q, inv1, browsed, dirAt, outcome⟩ := searchFile_outcome usable.lay usable.room2 inv noZero search
  split at h
  · simp only [bind_ok, pure_ok] at h
    obtain ⟨s2, -, e⟩ := h
    cases e
  rename_i m number
  simp only [bind_ok, pure_ok, Prod.exists] at h
  obtain ⟨addr, s2, opened, s3, -, s4, -, e⟩ := h
  cases e
  obtain ⟨liveM, kind, pre, post, split, denotes, leaf⟩ := inv.outcome_some dirAt.live dirAt.dir outcome number
  obtain ⟨inv2, browsed2, mem, isM, -⟩ := inodeOpen_inv inv1 liveM opened
  refine ⟨pre, post, split, denotes, leaf, kind, ?_⟩
  have stored := inv2.cache.stored addr mem (by rw [isM]; exact liveM)
  rw [isM, browsed2.disk, browsed.disk] at stored
  exact stored.iSize

/-- **`sys_stat`** returns, with an answer when there is something on the path. -/
theorem Usable.stat_returns (usable : Usable part n me s sh H) (heap : s.mallocs = []) (noZero : 0#8 ∉ path)
    (searchable : Searchable part s sh path) : ∃ st t, statPath part me s path = .ok (st, t) ∧
      (st = none → Naming.Stuck pathLabels (naming part s.disk s.blockBitmap sh) 0 (pathNames path)) := by
  have lay := usable.lay
  have tree := usable.inv.tree
  have calm := usable.inv.calm heap usable.reach
  rw [statPath]
  split_ifs
  · exact ⟨_, _, rfl, by rintro ⟨⟩⟩
  obtain ⟨r, s1, search, -⟩ | ⟨-, no⟩ := searchFile_returns_or lay usable.room2 usable.inv calm noZero
  swap
  · exact absurd searchable no
  obtain ⟨q, inv1, browsed, dirAt, calm1, outcome, stuck⟩ := usable.search heap noZero search
  rw [search, ok_bind]
  dsimp only
  cases number : r.inodeNo with
  | none =>
    obtain ⟨s2, closed⟩ := dirClose_returns calm1 inv1.toFsCore (fun _ => Nat.le_refl _) (usable.room2 _)
    simp only [closeParent, closed, ok_bind]
    exact ⟨_, _, rfl, fun _ => stuck number⟩
  | some m =>
    obtain ⟨live, -⟩ := usable.inv.outcome_some dirAt.live dirAt.dir outcome number
    have room1 : ∀ a, hold H r.parentDir a + 2 < 2 ^ 32 := fun a => by
      have := @hold_le H r.parentDir a
      have := usable.room a
      omega
    obtain ⟨addr, s2, opened⟩ := inodeOpen_returns lay calm1 (Nat.lt_trans (tree.low m live) (by decide))
    obtain ⟨inv2, -⟩ := inodeOpen_inv inv1 live opened
    have calm2 := calm_invariant.opens opened calm1
    obtain ⟨s3, closed⟩ := inodeClose_returns calm2 inv2.toFsCore (fun _ => le_hold) (room1 addr)
    obtain ⟨inv3, -⟩ := inodeClose_inv inv2 (room1 addr) closed
    obtain ⟨s4, closedParent⟩ := dirClose_returns (calm2.close closed) inv3.toFsCore (fun _ => Nat.le_refl _) (usable.room2 _)
    simp only [opened, ok_bind, closed, closeParent, closedParent]
    exact ⟨_, _, rfl, by rintro ⟨⟩⟩

/-- **`sys_unlink`** does what it should exactly within its limits. -/
theorem Usable.unlinkExact_iff (usable : Usable part n me s sh H) (wf : Pathname path) :
    UnlinkExact part n me s sh H path ↔ UnlinkLimits part s sh path := by
  have tree := usable.inv.tree
  have rootLive := tree.naming.top.1
  have usable' := usable.heap []
  constructor
  · intro exact
    obtain ⟨ok, t, ran, -⟩ := exact.returns
    have yes : ∀ pre post f, pathNames path = pre ++ post → Target part s sh pre f →
        unlinkPath part me { s with mallocs := [] } path = .ok (some (), t) := by
      intro pre post f split target
      obtain rfl := usable'.unlink_target rfl wf ran split target
      exact ran
    refine ⟨usable'.unlink_notRoot rfl wf ran, fun pre post f split more target => ?_, fun f q x target live dir has is => ?_⟩
    · -- what the whole path denotes is removed, but it goes on behind a file
      obtain ⟨f', ⟨denotes, -⟩, -⟩ := exact.done [] t (yes pre post f split target)
      rw [split] at denotes
      exact target.2.1 (denotes.dir_of_more tree.naming tree.clear more target.1 rootLive)
    · obtain ⟨pre, post, f', split, ⟨denotes, file, -⟩, -, notAlone⟩ :=
        usable'.unlinked wf.noZero (yes _ [] f (List.append_nil _).symm target)
      obtain ⟨-, rfl⟩ := denotes.leaf_unique tree.naming tree.clear target.1 (split.symm.trans (List.append_nil _).symm) file
        target.2.1 rootLive
      exact notAlone q x live dir has is
  · intro limits
    have all : ∀ pre post f, pathNames path = pre ++ post → Target part s sh pre f → pathNames path = pre := by
      intro pre post f split target
      by_cases more : post = []
      · rw [split, more, List.append_nil]
      · exact absurd target (limits.whole pre post f split more)
    refine ⟨fun heap t ran => ?_, fun heap t ran => ?_, ?_⟩
    · obtain ⟨pre, post, f, split, target, gone, -⟩ := (usable.heap heap).unlinked wf.noZero ran
      refine ⟨f, ?_, gone.before (browsed_heap heap)⟩
      rw [all pre post f split target]
      exact target
    · exact (browsed_heap heap).trans ((usable.heap heap).unlink_kept wf.noZero ran)
    · obtain ⟨ok, t, ran⟩ := usable'.unlink_returns rfl wf limits.root fun pre post f q x split target live dir has is =>
        limits.shared f q x (by rw [all pre post f split target]; exact target) live dir has is
      refine ⟨ok, t, ran, ?_⟩
      rintro rfl ⟨f, target⟩
      have yes := usable'.unlink_target rfl wf ran (List.append_nil _).symm target
      cases yes

/-- **`sys_stat`** answers for the whole path exactly within its limits. -/
theorem Usable.statExact_iff (usable : Usable part n me s sh H) (wf : Pathname path) :
    StatExact part me s sh path ↔ StatLimits part s sh path := by
  have tree := usable.inv.tree
  have rootLive := tree.naming.top.1
  constructor
  · intro exact pre post f split more denotes
    by_contra file
    have named : pathNames path ≠ [] := by
      rw [split]
      exact List.append_ne_nil_of_right_ne_nil _ more
    obtain ⟨st, t, ran, stuck⟩ := (usable.heap []).stat_returns rfl wf.noZero
      (.inr ⟨wf.abs, wf.short, named, legible_of_short wf.names⟩)
    cases st with
    | none =>
      have stuck := stuck rfl
      rw [split] at stuck
      exact file (stuck.dir_of_walk tree.naming tree.clear denotes rootLive).1
    | some st =>
      obtain ⟨whole, -⟩ := exact [] st t ran
      rw [split] at whole
      exact file (whole.dir_of_more tree.naming tree.clear more denotes rootLive)
  · intro limits heap st t ran
    obtain ⟨pre, post, split, denotes, leaf, kind, size⟩ := (usable.heap heap).stat wf.noZero ran
    refine ⟨?_, kind, size⟩
    by_cases more : post = []
    · rw [split, more, List.append_nil]
      exact denotes
    · exact absurd (limits pre post st.stIno split more denotes) (leaf more)

/-- `sys_unlink` removes what the whole path denotes, and nothing else, and `sys_stat` answers
for the whole path: exactly when the path does not go on behind a file, does not lead to the
root and not to a file whose entry `delete_dir_entry` cannot delete. -/
theorem wholePath_iff (usable : Usable part n me s sh H) (wf : Pathname path) :
    (UnlinkExact part n me s sh H path ↔ UnlinkLimits part s sh path) ∧
      (StatExact part me s sh path ↔ StatLimits part s sh path) :=
  ⟨usable.unlinkExact_iff wf, usable.statExact_iff wf⟩

end Exact

section Examples

variable {part : Partition} {n : Nat} {me : Option Nat} {s t : Fs} {sh : Shape}

/-- The partition just formatted is usable. -/
theorem formatAndMount_usable {disk : Image} {startLba secCnt sects : Nat} (lt : secCnt < 2 ^ 32)
    (sizes : formatSizes secCnt = .ok (sects, n)) (blocks : 8 ≤ n) (h : formatAndMount disk startLba secCnt = .ok (part, s)) :
    Usable part n me s .root (fun _ => 0) := by
  obtain ⟨lay, disk', fresh, rfl⟩ := formatAndMount_ok lt sizes blocks h
  obtain ⟨same, -⟩ := fresh.rootSlot lay
  refine ⟨lay, fresh.inv lay, fun a => by decide, fun a mem => ?_, fun i _ a slot => ?_, same.sec 0⟩
  · rw [List.mem_singleton.1 mem]
    exact .inl rfl
  · cases slot

/-- Nothing is open on it, and only the first inode is taken. -/
theorem formatAndMount_empty {disk : Image} {startLba secCnt sects : Nat} (lt : secCnt < 2 ^ 32)
    (sizes : formatSizes secCnt = .ok (sects, n)) (blocks : 8 ≤ n) (h : formatAndMount disk startLba secCnt = .ok (part, s)) :
    Layout part n ∧ Mounted part n s .root (fun _ => 0) ∧ s.mallocs = [] ∧ (s.fileTable = fun _ => File.empty) ∧
      ∀ m, m < 4096 → m ≠ 0 → ¬ s.inodeBitmap.Set m := by
  obtain ⟨lay, disk', fresh, rfl⟩ := formatAndMount_ok lt sizes blocks h
  refine ⟨lay, ⟨?_, fun i a _ slot => ?_, fun a pos => absurd pos (Nat.lt_irrefl 0), fun i _ => ⟨Nat.zero_le 7, fun no => ?_⟩⟩, rfl,
    rfl, fun m lt ne set => ne ((fresh.inodeBits lt).1 set)⟩
  · have none : ∀ a, slotHandles (fun _ => File.empty) a = 0 := by
      intro a
      by_contra pos
      obtain ⟨i, -, slot⟩ := exists_of_slotHandles (Nat.pos_of_ne_zero pos)
      cases slot
    show FsInv part n _ .root fun a => slotHandles (fun _ => File.empty) a + 0
    simp only [none]
    exact fresh.inv lay
  · cases slot
  · cases no

/-- So is one whose handles are those of the file table and of directories. -/
theorem Mounted.usable {D : Nat → Nat} (mounted : Mounted part n s sh D) (lay : Layout part n) (room : ∀ a, D a + 40 < 2 ^ 32)
    (reach : ∀ a ∈ s.openInodes, Reachable me s a)
    (ground : blockRef s.disk (slot part s.disk 0) 0 = part.sb.dataStartLba) :
    Usable part n me s sh (fun a => slotHandles s.fileTable a + D a) := by
  refine ⟨lay, mounted.inv, fun a => ?_, reach, fun i lt a slot => mounted.slot_mem lt slot, ground⟩
  have := slotHandles_le s.fileTable a
  have := room a
  omega

/-- The name of an ordinary entry of the root directory does not lead back to it. -/
theorem Tree.no_step_to_root {disk : Image} {b : Bitmap} (tree : Tree part n disk b sh) {name : List Byte} (here : name ≠ pathLabels.here)
    (above : name ≠ pathLabels.above) : ¬ Naming.Step pathLabels (Sparrow.naming part disk b sh) 0 name 0 := by
  obtain ⟨live, dir, -⟩ := tree.naming.top
  rintro (⟨no, -⟩ | ⟨no, -⟩ | ⟨x, entry, -, is⟩)
  · exact here no
  · exact above no
  · exact (tree.naming.named 0 x live dir entry).2.1 is.symm

/-- The partition of the examples: 620 sectors, just formatted. -/
theorem exists_smallPartition : ∃ part s, formatAndMount (fun _ => 0#8) 1 620 = .ok (part, s) := by
  have ran : returns (formatAndMount (fun _ => 0#8) 1 620) (fun _ => true) = true := by decide
  obtain ⟨⟨part, s⟩, formatted, -⟩ := returns_true.1 ran
  exact ⟨part, s, formatted⟩

theorem smallPartition_usable (me : Option Nat) (formatted : formatAndMount (fun _ => 0#8) 1 620 = .ok (part, s)) :
    Usable part 8 me s .root (fun _ => 0) ∧ s.mallocs = [] := by
  have sizes : formatSizes 620 = .ok (1, 8) := rfl
  obtain ⟨-, -, heap, -⟩ := formatAndMount_empty (by decide) sizes (by decide) formatted
  exact ⟨formatAndMount_usable (by decide) sizes (by decide) formatted, heap⟩

/-- The file `/f` is created on it, and closed. -/
def closedFile : Exec (Partition × Fs) := do
  let (part, s) ← formatAndMount (fun _ => 0#8) 1 620
  let (_, s, _) ← openPath part none s (fun _ => -1) [slash, 0x66#8] oCreat
  let s ← fileClose none s 3
  return (part, s)

/-- Then there are the root and the file. -/
theorem closedFile_usable (ran : closedFile = .ok (part, s)) : ∃ sh H, Usable part 8 none s sh H ∧ s.mallocs = [] ∧
    (∀ m, sh.live m → (sh.dir m ↔ m = 0)) ∧ (slot part s.disk 0).sec 12 = 0 := by
  have checks : returns closedFile (fun x => decide (∀ a ∈ x.2.openInodes, x.2.pool a = none) && decide (x.2.mallocs = []) &&
      decide (blockRef x.2.disk (slot x.1 x.2.disk 0) 0 = x.1.sb.dataStartLba ∧ (slot x.1 x.2.disk 0).sec 12 = 0)) = true := by
    decide
  rw [ran] at checks
  simp only [returns, Bool.and_eq_true, decide_eq_true_eq] at checks
  obtain ⟨⟨reach, left⟩, ground, direct⟩ := checks
  simp only [closedFile, bind_ok, pure_ok, Prod.exists] at ran
  obtain ⟨part, s₀, formatted, fd, s1, table, opened, s2, closed, e⟩ := ran
  cases e
  obtain ⟨lay, mounted, heap, empty, free⟩ := formatAndMount_empty (by decide) (show formatSizes 620 = .ok (1, 8) from rfl)
    (by decide) formatted
  have small : ∀ a, slotHandles s₀.fileTable a + 0 + 2 < 2 ^ 32 := fun a => by
    have := slotHandles_le s₀.fileTable a
    omega
  obtain ⟨-, -, steady, -⟩ | ⟨p, f, g, addr, made, -⟩ := openPath_create lay small mounted.inv (by decide) (by decide)
    (mayCreate_of_heap heap ⟨1, by decide, free 1 (by decide) (by decide)⟩) opened
  · -- without the file there is nothing in slot 3 to close
    have null : (s1.fileTable 3).fdInode = .null := (steady.slots 3).trans (by rw [empty]; rfl)
    simp only [fileClose, null, throw_ok] at closed
  have slot := made.slot
  rw [empty, show getFreeSlotInGlobal (fun _ => File.empty) = some 3 by decide] at slot
  cases slot
  have dirF : ¬ (Shape.root.insert p f (false = true)).dir f := by simp [Shape.insert]
  have kept : ∀ x, Shape.root.live x → ((Shape.root.insert p f (false = true)).dir x ↔ Shape.root.dir x) := by
    intro x live
    have other : x ≠ f := fun e => made.fresh (e ▸ live)
    simp only [Shape.insert, if_neg other]
  have mounted1 := mounted.fill (by decide) (by rw [empty]; rfl) made.inv (by decide) made.fileTable made.numbers
    kept (by rw [made.number]; exact dirF)
  obtain ⟨mounted2, -⟩ := fileClose_inv mounted1 (fun _ => by decide) (by decide) closed
  refine ⟨_, _, mounted2.usable lay (fun _ => by decide) (fun a mem => .inl (reach a mem)) ground, left, ?_, direct⟩
  rintro m (live | rfl)
  · exact kept m live
  · exact ⟨fun dir => absurd dir dirF, fun zero => absurd (show Shape.root.live m from zero) made.fresh⟩

/-- The file is what `/f` denotes. -/
theorem wholePath_small : ∃ part s sh H t, closedFile = .ok (part, s) ∧ UnlinkExact part 8 none s sh H [slash, 0x66#8] ∧
    StatExact part none s sh [slash, 0x66#8] ∧ unlinkPath part none s [slash, 0x66#8] = .ok (some (), t) := by
  have ran : returns closedFile (fun x => returns (unlinkPath x.1 none x.2 [slash, 0x66#8]) fun y => decide (y.1 = some ())) =
    true := by decide
  obtain ⟨⟨part, s⟩, ran, unlinked⟩ := returns_true.1 ran
  obtain ⟨⟨ok, t⟩, unlinked, isSome⟩ := returns_true.1 unlinked
  obtain rfl := of_decide_eq_true isSome
  obtain ⟨sh, H, usable, -, dirs, direct⟩ := closedFile_usable ran
  have wf : Pathname [slash, 0x66#8] := ⟨rfl, by decide, by decide, by decide⟩
  have tree := usable.inv.tree
  obtain ⟨live, dir, -⟩ := tree.naming.top
  -- what is before the last name is the root
  have before : ∀ pre post f, pathNames [slash, 0x66#8] = pre ++ post → post ≠ [] →
      Denotes part s.disk s.blockBitmap sh pre f → sh.dir f := by
    intro pre post f split more denotes
    have one : pathNames [slash, 0x66#8] = [[0x66#8]] := rfl
    cases pre with
    | nil =>
      cases denotes
      exact dir
    | cons name rest =>
      have len := congrArg List.length (one.symm.trans split)
      have pos := List.length_pos_iff.2 more
      simp only [List.length_append, List.length_cons, List.length_nil] at len
      omega
  have both := wholePath_iff usable wf
  refine ⟨part, s, sh, H, t, ran, both.1.2 ⟨?_, ?_, ?_⟩, both.2.2 before, unlinked⟩
  · rintro (_ | ⟨_, step, _ | _⟩)
    exact tree.no_step_to_root (by decide) (by decide) step
  · exact fun pre post f split more target => target.2.1 (before pre post f split more target.1)
  · rintro f q x - liveQ dirQ - - ⟨k, alone⟩
    obtain rfl := (dirs q liveQ).1 dirQ
    obtain ⟨j, y, at_, -⟩ := alone.entry
    exact at_.has (blockRef_none alone.indirect at_.block direct)

/-- Through `/f/x` the closed file `/f` is removed. -/
theorem unlink_beyond_file : ¬ ∀ (part : Partition) (n : Nat) (me : Option Nat) (s : Fs) (sh : Shape) (H : Nat → Nat)
    (path : List Byte), Usable part n me s sh H → Pathname path → UnlinkExact part n me s sh H path := by
  intro claim
  have ran : returns closedFile (fun x =>
      returns (unlinkPath x.1 none x.2 [slash, 0x66#8, slash, 0x78#8]) fun y => decide (y.1 = some ())) = true := by decide
  obtain ⟨⟨part, s⟩, ran, unlinked⟩ := returns_true.1 ran
  obtain ⟨⟨ok, t⟩, unlinked, isSome⟩ := returns_true.1 unlinked
  obtain rfl := of_decide_eq_true isSome
  obtain ⟨sh, H, usable, -, dirs, -⟩ := closedFile_usable ran
  obtain ⟨f, ⟨denotes, -⟩, -⟩ := (claim _ _ _ _ _ _ [slash, 0x66#8, slash, 0x78#8] usable
    ⟨rfl, by decide, by decide, by decide⟩).done s.mallocs t unlinked
  have tree := usable.inv.tree
  obtain ⟨live, dir, -⟩ := tree.naming.top
  -- the first name would lead to a directory
  obtain ⟨m, step, dirM⟩ : ∃ m, Naming.Step pathLabels (naming part s.disk s.blockBitmap sh) 0 [0x66#8] m ∧ sh.dir m := by
    cases denotes with
    | cons dir step rest =>
      cases rest with
      | cons dir' _ _ => exact ⟨_, step, dir'⟩
  obtain rfl := (dirs m (step.live tree.naming live dir)).1 dirM
  exact tree.no_step_to_root (by decide) (by decide) step

end Examples

end Sparrow
