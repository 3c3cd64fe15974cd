import Mathlib.Logic.Relation
import Sparrow.Fs.DirDelete

/-!
# A directory is a finite map

From a new directory on, whatever entries are added and removed, `search_dir_entry` finds
what a list of the entries added and not removed contains. The list is the abstract
directory; `DirInv` ties it to the slots on disk.
-/

namespace Sparrow
set_option autoImplicit false

/-- A directory as it is created: one block, with `.` and `..`. -/
structure NewDir (part : Partition) (n : Nat) (v : Vnode) (selfNo parentNo : Nat) : Prop where
  map : BlockMap part n v.blockBitmap
  first : DataBlock part n v.blockBitmap (v.inode.sec 0)
  onDisk : v.inode.sec 0 ≤ maxLba
  rest : ∀ k, 0 < k → v.inode.sec k = 0
  contents : ∀ i, i < 512 → v.disk (512 * v.inode.sec 0 + i) = dotsImage selfNo parentNo i
  number : v.inode.iNo < 2 ^ 32
  size : v.inode.iSize = 2 * direntSize
  selfNo : selfNo < 2 ^ 32
  parentNo : parentNo < 2 ^ 32

section New

variable {part : Partition} {n : Nat} {v : Vnode} {selfNo parentNo : Nat}

theorem NewDir.refs (new : NewDir part n v selfNo parentNo) {k : Nat} (pos : 0 < k) (lt : k < 141) :
    blockRef v.disk v.inode k = 0 := by
  have table := new.rest 12 (by omega)
  by_cases direct : k < 12
  · rw [blockRef_direct direct, new.rest k pos]
  · by_cases last : k = 140
    · rw [last, blockRef_table, table]
    · exact blockRef_none (by omega) (by omega) table

/-- The two entries of a new directory. -/
theorem NewDir.entries (new : NewDir part n v selfNo parentNo) :
    entryAt v.disk v.inode 0 0 = Item.entry ⟨.dot, selfNo, true, new.selfNo⟩ ∧
      entryAt v.disk v.inode 0 1 = Item.entry ⟨.dotDot, parentNo, true, new.parentNo⟩ ∧
      ∀ j, 1 < j → j < 21 → (entryAt v.disk v.inode 0 j).Dead := by
  have ref : blockRef v.disk v.inode 0 = v.inode.sec 0 := blockRef_direct (by omega)
  simp only [entryAt, ref]
  refine ⟨decodeDirent_image _ fun i hi => ?_, decodeDirent_image _ fun i hi => ?_, fun j ge lt => decodeDirent_dead fun i hi => ?_⟩
  all_goals
    simp only [direntSize] at hi ⊢
    rw [Nat.add_assoc, new.contents _ (by omega), dotsImage]
  · rw [splice_out (by simp only [direntSize]; omega), splice_in (by omega) (by simp only [direntSize]; omega)]
    simp only [Nat.mul_zero, Nat.zero_add, Nat.sub_zero]
    rfl
  · rw [splice_in (by simp only [direntSize]; omega) (by simp only [direntSize]; omega)]
    simp only [direntSize, Nat.mul_one, Nat.add_sub_cancel_left]
    rfl
  · rw [splice_out (by simp only [direntSize]; omega), splice_out (by simp only [direntSize]; omega)]
    rfl

/-- A new directory is well formed and has no ordinary entry. -/
theorem NewDir.wf (lay : Layout part n) (new : NewDir part n v selfNo parentNo) :
    DirWf part n v selfNo parentNo ∧ ∀ k j y, ItemAt v k j y → ¬ y.Ordinary := by
  obtain ⟨dot, dotDot, dead⟩ := new.entries
  have ref : blockRef v.disk v.inode 0 = v.inode.sec 0 := blockRef_direct (by omega)
  have first : blockRef v.disk v.inode 0 ≠ 0 := by
    rw [ref]
    exact new.first.pos lay
  have zero : ∀ {k}, k < 141 → blockRef v.disk v.inode k ≠ 0 → k = 0 := by
    intro k lt has
    rcases Nat.eq_zero_or_pos k with e | pos
    · exact e
    · exact absurd (new.refs pos lt) has
  -- the entries in use are the two
  have items : ∀ {k j y}, ItemAt v k j y → (k = 0 ∧ j = 0 ∧ y.name = .dot) ∨ (k = 0 ∧ j = 1 ∧ y.name = .dotDot) := by
    intro k j y at_
    have lt := at_.block
    obtain rfl := zero (by omega) at_.has
    match j, at_ with
    | 0, at_ => exact .inl ⟨rfl, rfl, by rw [Item.entry_inj (at_.entry.symm.trans dot)]⟩
    | 1, at_ => exact .inr ⟨rfl, rfl, by rw [Item.entry_inj (at_.entry.symm.trans dotDot)]⟩
    | j + 2, at_ => exact absurd (at_.entry ▸ dead _ (by omega) at_.slot) y.not_dead
  have blocks : BlocksWf part n v.blockBitmap (blockRef v.disk v.inode) := by
    refine ⟨fun k lt has => ?_, fun k k' lt lt' has e => ?_⟩
    · rw [zero lt has, ref]
      exact new.first
    · rw [zero lt has, zero lt' (e ▸ has)]
  refine ⟨⟨blocks, fun k lt => ?_, ?_, first, fun k pos lt => ?_, fun has => ?_, fun k j lt ltj has => ?_,
    ⟨_, ⟨by omega, by omega, first, dot⟩, rfl, rfl, rfl⟩, ⟨_, ⟨by omega, by omega, first, dotDot⟩, rfl, rfl, rfl⟩, ?_, ?_,
    fun k pos lt has => ?_⟩, fun k j y at_ ord => ?_⟩
  · rcases Nat.eq_zero_or_pos k with rfl | pos
    · rw [ref]
      exact new.onDisk
    · rw [new.refs pos lt]
      omega
  · apply blocks.inRange lay new.number
    rw [new.size]
    decide
  · have ds := lay.dataStartLba
    rw [new.refs pos lt]
    omega
  · exact absurd (new.rest 12 (by omega)) has
  · obtain rfl := zero (by omega) has
    match j, ltj with
    | 0, _ => exact .inr ⟨_, dot⟩
    | 1, _ => exact .inr ⟨_, dotDot⟩
    | j + 2, ltj => exact .inl (dead _ (by omega) ltj)
  · intro k j y k' j' y' at_ at' same
    have ne : Name.dot ≠ Name.dotDot := by decide
    rcases items at_ with ⟨rfl, rfl, e⟩ | ⟨rfl, rfl, e⟩ <;> rcases items at' with ⟨rfl, rfl, e'⟩ | ⟨rfl, rfl, e'⟩
    · exact ⟨rfl, rfl⟩
    · exact absurd (e.symm.trans (same.trans e')) ne
    · exact absurd (e'.symm.trans (same.symm.trans e)) ne
    · exact ⟨rfl, rfl⟩
  · intro k j y k' j' y' at_ _ ord
    rcases items at_ with ⟨-, -, e⟩ | ⟨-, -, e⟩
    · exact absurd e ord.1
    · exact absurd e ord.2
  · exact absurd (new.refs pos (by omega)) has
  · rcases items at_ with ⟨-, -, e⟩ | ⟨-, -, e⟩
    · exact ord.1 e
    · exact ord.2 e

end New

section Runs

variable {part : Partition} {n : Nat} {selfNo parentNo : Nat} {v v' : Vnode} {M M' : List Item}

/-- One call on the directory, and what it does to the list of entries. An entry to be
added has a name and a number that no entry of the list has. -/
inductive DirStep (part : Partition) : Vnode × List Item → Vnode × List Item → Prop
  | inserted {v v' : Vnode} {M : List Item} {x : Item} (ordinary : x.Ordinary) (freshName : ∀ y ∈ M, y.name ≠ x.name)
      (freshNumber : ∀ y ∈ M, y.iNo ≠ x.iNo) (h : syncDirEntry part v x.entry = .ok (true, v')) :
      DirStep part (v, M) (v', x :: M)
  | refused {v v' : Vnode} {M : List Item} {x : Item} (h : syncDirEntry part v x.entry = .ok (false, v')) :
      DirStep part (v, M) (v', M)
  | deleted {v v' : Vnode} {M : List Item} {inodeNo : Nat} {ok : Bool} (h : deleteDirEntry part v inodeNo = .ok (ok, v')) :
      DirStep part (v, M) (v', M.filter fun y => y.iNo ≠ inodeNo)

/-- The slots in use, but for `.` and `..`, are the entries of the list. -/
structure DirInv (part : Partition) (n selfNo parentNo : Nat) (v : Vnode) (M : List Item) : Prop where
  map : BlockMap part n v.blockBitmap
  wf : DirWf part n v selfNo parentNo
  items : ∀ y, y ∈ M ↔ y.Ordinary ∧ ∃ k j, ItemAt v k j y

theorem DirInv.init (lay : Layout part n) (new : NewDir part n v selfNo parentNo) :
    DirInv part n selfNo parentNo v [] := by
  obtain ⟨wf, plain⟩ := new.wf lay
  refine ⟨new.map, wf, fun y => ⟨nofun, ?_⟩⟩
  rintro ⟨ord, k, j, at_⟩
  exact absurd ord (plain k j y at_)

theorem DirInv.step (lay : Layout part n) (inv : DirInv part n selfNo parentNo v M) (step : DirStep part (v, M) (v', M')) :
    DirInv part n selfNo parentNo v' M' := by
  cases step with
  | @inserted _ _ _ x ordinary freshName freshNumber h =>
    obtain ⟨no, -⟩ | ⟨-, k₀, j₀, ins⟩ := syncDirEntry_ok lay inv.map inv.wf.slots h
    · cases no
    refine ⟨ins.grow.map, ins.wf lay inv.wf ordinary (fun k j y at_ same => ?_) (fun k j y at_ ord same => ?_), fun y => ?_⟩
    · have ord : y.Ordinary := by rw [Item.Ordinary, same]; exact ordinary
      exact freshName y ((inv.items y).2 ⟨ord, k, j, at_⟩) same
    · exact freshNumber y ((inv.items y).2 ⟨ord, k, j, at_⟩) same
    · rw [List.mem_cons, inv.items]
      constructor
      · rintro (rfl | ⟨ord, k, j, at_⟩)
        · exact ⟨ordinary, k₀, j₀, (ins.items ..).2 (.inr ⟨rfl, rfl, rfl⟩)⟩
        · exact ⟨ord, k, j, (ins.items ..).2 (.inl at_)⟩
      · rintro ⟨ord, k, j, at_⟩
        rcases (ins.items ..).1 at_ with at_ | ⟨-, -, rfl⟩
        · exact .inr ⟨ord, k, j, at_⟩
        · exact .inl rfl
  | refused h =>
    obtain ⟨-, refused⟩ | ⟨yes, -⟩ := syncDirEntry_ok lay inv.map inv.wf.slots h
    · obtain ⟨wf, same, -⟩ := refused.wf inv.wf
      refine ⟨by rw [refused.blockBitmap]; exact inv.map, wf, fun y => ?_⟩
      simp only [inv.items, same]
    · cases yes
  | @deleted _ _ _ inodeNo ok h =>
    obtain ⟨-, rfl, absent⟩ | ⟨-, k₀, j₀, x, number, removed⟩ := deleteDirEntry_ok lay inv.wf.slots h
    · refine ⟨inv.map, inv.wf, fun y => ?_⟩
      simp only [List.mem_filter, inv.items, decide_eq_true_eq]
      refine ⟨And.left, fun h => ⟨h, ?_⟩⟩
      obtain ⟨ord, k, j, at_⟩ := h
      exact absent k j y at_ ord
    · refine ⟨removed.map inv.map, removed.wf lay inv.wf, fun y => ?_⟩
      simp only [List.mem_filter, inv.items, decide_eq_true_eq, removed.items]
      constructor
      · rintro ⟨⟨ord, k, j, at_⟩, ne⟩
        refine ⟨ord, k, j, at_, ?_⟩
        rintro ⟨rfl, rfl⟩
        exact ne (at_.unique removed.was ▸ number)
      · rintro ⟨ord, k, j, at_, ne⟩
        refine ⟨⟨ord, k, j, at_⟩, fun same => ne ?_⟩
        exact inv.wf.numbers _ _ _ _ _ _ at_ removed.was ord removed.ordinary (same.trans number.symm)

theorem DirInv.run (lay : Layout part n) (inv : DirInv part n selfNo parentNo v M)
    (run : Relation.ReflTransGen (DirStep part) (v, M) (v', M')) : DirInv part n selfNo parentNo v' M' := by
  have all : ∀ t : Vnode × List Item, Relation.ReflTransGen (DirStep part) (v, M) t →
      DirInv part n selfNo parentNo t.1 t.2 := by
    intro t run
    induction run with
    | refl => exact inv
    | tail _ step ih => exact ih.step lay step
  exact all _ run

/-- Looking up a name in the list. -/
def lookupItem (M : List Item) (name : Name) : Option Item := M.find? fun y => y.name = name

theorem DirInv.lookup (inv : DirInv part n selfNo parentNo v M) {k j : Nat} {x : Item} (at_ : ItemAt v k j x)
    (ord : x.Ordinary) : lookupItem M x.name = some x := by
  cases found : lookupItem M x.name with
  | none =>
    have absent := List.find?_eq_none.1 found x ((inv.items x).2 ⟨ord, k, j, at_⟩)
    simp at absent
  | some y =>
    have same : y.name = x.name := by simpa using List.find?_some found
    obtain ⟨-, k', j', at'⟩ := (inv.items y).1 (List.mem_of_find?_eq_some found)
    obtain ⟨rfl, rfl⟩ := inv.wf.names _ _ _ _ _ _ at' at_ same
    rw [at'.unique at_]

theorem DirInv.search (lay : Layout part n) (inv : DirInv part n selfNo parentNo v M) {name : Name}
    (notDot : name ≠ .dot) (notDotDot : name ≠ .dotDot) :
    searchEntry part v.disk v.inode name.bytes = .ok ((lookupItem M name).map Item.entry) := by
  obtain ⟨r, searched, spec⟩ := searchEntry_spec lay inv.wf name
  rw [searched]
  obtain ⟨rfl, absent⟩ | ⟨k, j, x, at_, rfl, rfl⟩ := spec
  · cases found : lookupItem M name with
    | none => rfl
    | some y =>
      have same : y.name = name := by simpa using List.find?_some found
      obtain ⟨-, k, j, at_⟩ := (inv.items y).1 (List.mem_of_find?_eq_some found)
      exact absurd same (absent k j y at_)
  · rw [inv.lookup at_ ⟨notDot, notDotDot⟩]
    rfl

/-- `search_dir_entry` once the heap has served its two buffers. -/
theorem searchDirEntry_of {me : Option Nat} {s : Fs} {pdir : Dir} {name : List Byte} {r : Option DirEntry}
    (reach : Reachable me s pdir.inode) (heap : s.mallocOk = true) (heap' : s.malloc.mallocOk = true)
    (h : searchEntry part s.disk (s.inodes pdir.inode) name = .ok r) :
    searchDirEntry part me s pdir name = .ok (r, s.malloc.malloc) := by
  have reach' : Reachable me s.malloc pdir.inode := reach
  have h' : searchEntry part s.malloc.malloc.disk (s.malloc.malloc.inodes pdir.inode) name = .ok r := h
  simp only [searchDirEntry, heap, if_true, defined_of reach', mustMalloc, defined_of heap', ok_bind, pure, Except.pure, h']

/-- **A directory is a finite map.** After any run of insertions and deletions on a new
directory, `search_dir_entry` returns what the list of entries has under the name; the
entries in use are those of the list with `.` and `..`; and `delete_dir_entry` reports
whether the list has the number. -/
theorem directory_is_map (lay : Layout part n) {v₀ : Vnode} (new : NewDir part n v₀ selfNo parentNo)
    (run : Relation.ReflTransGen (DirStep part) (v₀, []) (v, M)) :
    (∀ (name : Name) (me : Option Nat) (s : Fs) (pdir : Dir), name ≠ .dot → name ≠ .dotDot →
      s.disk = v.disk → s.inodes pdir.inode = v.inode → Reachable me s pdir.inode →
      s.mallocOk = true → s.malloc.mallocOk = true →
      searchDirEntry part me s pdir name.bytes = .ok ((lookupItem M name).map Item.entry, s.malloc.malloc)) ∧
    (∀ y : Item, (∃ k j, ItemAt v k j y) ↔
      y ∈ M ∨ y = ⟨.dot, selfNo, true, new.selfNo⟩ ∨ y = ⟨.dotDot, parentNo, true, new.parentNo⟩) ∧
    (∀ k j k' j' y, ItemAt v k j y → ItemAt v k' j' y → k = k' ∧ j = j') ∧
    ∀ inodeNo ok v', deleteDirEntry part v inodeNo = .ok (ok, v') → (ok = true ↔ ∃ y ∈ M, y.iNo = inodeNo) := by
  have inv := (DirInv.init lay new).run lay run
  refine ⟨fun name me s pdir h h' disk inode reach heap heap' => ?_, fun y => ⟨?_, ?_⟩, fun k j k' j' y at_ at' => inv.wf.names _ _ _ _ _ _ at_ at' rfl,
    fun inodeNo ok v' h => ?_⟩
  · apply searchDirEntry_of reach heap heap'
    rw [disk, inode]
    exact inv.search lay h h'
  · rintro ⟨k, j, at_⟩
    obtain ⟨d, dot, isDot, number, isDir⟩ := inv.wf.dot
    obtain ⟨dd, dotDot, isDotDot, number', isDir'⟩ := inv.wf.dotDot
    by_cases h : y.name = .dot
    · obtain ⟨rfl, rfl⟩ := inv.wf.names _ _ _ _ _ _ at_ dot (h.trans isDot.symm)
      rw [at_.unique dot]
      exact .inr (.inl (by cases d; simp only at isDot number isDir; subst isDot number isDir; rfl))
    by_cases h' : y.name = .dotDot
    · obtain ⟨rfl, rfl⟩ := inv.wf.names _ _ _ _ _ _ at_ dotDot (h'.trans isDotDot.symm)
      rw [at_.unique dotDot]
      exact .inr (.inr (by cases dd; simp only at isDotDot number' isDir'; subst isDotDot number' isDir'; rfl))
    · exact .inl ((inv.items y).2 ⟨⟨h, h'⟩, k, j, at_⟩)
  · rintro (mem | rfl | rfl)
    · exact ((inv.items y).1 mem).2
    · obtain ⟨d, dot, isDot, number, isDir⟩ := inv.wf.dot
      cases d
      simp only at isDot number isDir
      subst isDot number isDir
      exact ⟨0, 0, dot⟩
    · obtain ⟨d, dotDot, isDotDot, number, isDir⟩ := inv.wf.dotDot
      cases d
      simp only at isDotDot number isDir
      subst isDotDot number isDir
      exact ⟨0, 1, dotDot⟩
  · obtain ⟨rfl, -, absent⟩ | ⟨rfl, k, j, x, number, removed⟩ := deleteDirEntry_ok lay inv.wf.slots h
    · refine ⟨nofun, ?_⟩
      rintro ⟨y, mem, same⟩
      obtain ⟨ord, k, j, at_⟩ := (inv.items y).1 mem
      exact absurd same (absent k j y at_ ord)
    · exact ⟨fun _ => ⟨x, (inv.items x).2 ⟨removed.ordinary, k, j, removed.was⟩, number⟩, fun _ => rfl⟩

/-- The root directory of a small partition just formatted. -/
def smallRoot : Vnode where
  disk := splice (fun _ => 0#8) (512 * 613) 512 (dotsImage 0 0)
  blockBitmap := ⟨512, formatBlockBitmap 388⟩
  inode := rootInode smallPartition

theorem smallRoot_new : NewDir smallPartition 388 smallRoot 0 0 := by
  refine ⟨smallPartition_map, ⟨0, by omega, rfl, smallPartition_map.root⟩, by decide, fun k pos => ?_, fun i hi => ?_, by decide, rfl, by decide, by decide⟩
  · simp only [smallRoot, rootInode, Inode.setSec, inodeInit, Inode.sec]
    split
    · rw [if_neg (by omega)]
    · rfl
  · have at_ : smallRoot.inode.sec 0 = 613 := by decide
    show splice (fun _ => 0#8) (512 * 613) 512 (dotsImage 0 0) (512 * smallRoot.inode.sec 0 + i) = _
    rw [at_, splice_at hi]

/-- The entry of a file `f` with number 1. -/
def itemF : Item := ⟨⟨[0x66#8], by decide, by decide, by decide⟩, 1, false, by decide⟩

/-- After `f` is entered, it is found, and its number is the one to delete. -/
theorem directory_is_map_small :
    ∃ v, syncDirEntry smallPartition smallRoot itemF.entry = .ok (true, v) ∧
      ∀ inodeNo ok v', deleteDirEntry smallPartition v inodeNo = .ok (ok, v') → (ok = true ↔ ∃ y ∈ [itemF], y.iNo = inodeNo) := by
  have ran : returns (syncDirEntry smallPartition smallRoot itemF.entry) (fun r => r.1) = true := by decide
  obtain ⟨⟨ok, v⟩, entered, is⟩ := returns_true.1 ran
  simp only at is
  subst is
  refine ⟨v, entered, ?_⟩
  exact (directory_is_map smallPartition_layout smallRoot_new
    (.single (.inserted (by decide) (by simp) (by simp) entered))).2.2.2

end Runs

end Sparrow
