import Sparrow.Fs.FailedCalls

/-!
# The calls that leave something behind

`sys_open` and `sys_mkdir` when they fail. What `sys_open` goes on to says whether it leaves anything
(`openPath_failed`); `sys_mkdir` keeps the block of a directory whose entry it could not make
(`makeDir_failed`).
-/

namespace Sparrow
set_option autoImplicit false

section Open

variable {part : Partition} {n : Nat} {me : Option Nat} {s t : Fs} {sh : Shape} {H : Nat → Nat} {d : Dir} {p flags : Nat}
  {path name : List Byte} {fdTable fdTable' : Nat → Int}

/-- **A failed `sys_open`** changes nothing exactly when what it goes on to leaves nothing behind.
With memory it goes on to what the path means. -/
theorem openPath_failed (lay : Layout part n) (room : ∀ a, H a + 2 < 2 ^ 32) (inv : FsInv part n s sh H) (noZero : 0#8 ∉ path)
    (h : openPath part me s fdTable path flags = .ok (none, t, fdTable')) :
    (Unchanged part n s t ↔ ∀ decision s', openDecision part me s path flags = .ok (decision, s') →
      ¬ decision.Leaves part n s' fdTable path) ∧
    (s.mallocs = [] → Pathname path → pathNames path ≠ [] → OpenDecides part me s sh path) := by
  refine ⟨?_, fun heap wf named =>
    (openDecides_iff lay room inv noZero wf.abs (fun name mem => Nat.le_of_lt (wf.names name mem)) named).2
      (.inr (not_overlooks lay room inv noZero named heap))⟩
  rw [openPath_eq] at h
  simp only [bind_ok, Prod.exists] at h
  obtain ⟨decision, s1, decided, h⟩ := h
  obtain ⟨browsed, stands⟩ := openDecision_inv lay room inv noZero decided
  suffices Unchanged part n s t ↔ ¬ decision.Leaves part n s1 fdTable path by
    rw [this]
    constructor
    · intro none decision' s' other
      rw [decided] at other
      cases other
      exact none
    · exact fun all => all decision s1 decided
  cases stands with
  | refused inv1 =>
    rw [openDecided, pure_ok] at h
    cases h
    exact ⟨fun _ => id, fun _ => browsed.undone.unchanged inv.toFsCore inv1.toFsCore⟩
  | @create d name q inv1 dirAt =>
    simp only [openDecided, bind_ok, pure_ok, Prod.exists] at h
    obtain ⟨fd, s2, table, created, s3, closed, e⟩ := h
    cases e
    have only := dirClose_cacheOnly closed
    have closes : FsInv part n s2 sh (hold H d) → Undone part n s1 s2 → Unchanged part n s t := by
      intro inv2 undone
      obtain ⟨inv3, browsed3⟩ := dirClose_inv inv2 (room _) closed
      exact (browsed.undone.trans (undone.trans browsed3.undone)).unchanged inv.toFsCore inv3.toFsCore
    obtain ⟨unable, inv2, undone⟩ | ⟨able, noRoom, v, crowded, disk, kept⟩ | ⟨able, free, full, f, clear, bits⟩ :=
      fileCreate_failed lay inv1 dirAt created
    · exact ⟨fun _ leaves => unable leaves.1, fun _ => closes inv2 undone⟩
    · constructor
      · rintro same ⟨-, ⟨free, -⟩ | strands⟩
        · exact free noRoom
        · refine (crowded.bits_iff lay).1 (fun j lt => ?_) strands
          rw [← disk, ← only.disk, same.blockBits j lt]
          show _ ↔ (diskBits part s1.disk).Set j
          rw [browsed.disk]
      · intro none
        obtain ⟨inv2, undone⟩ := kept fun strands => none ⟨able, .inr strands⟩
        exact closes inv2 undone
    · refine ⟨fun same => ?_, fun none => absurd ⟨able, .inl ⟨free, full⟩⟩ none⟩
      have set : (bitmapSet s1.inodeBitmap f true).Set f := by rw [set_bitmapSet, if_pos rfl]
      rw [← bits, ← only.inodeBitmap, same.inodeBitmap, ← browsed.inodeBitmap] at set
      exact absurd set clear
  | @«open» d i inv1 live parent =>
    have h : fileOpen part me s1 fdTable i flags = .ok (none, t, fdTable') := h
    obtain ⟨full, rfl⟩ | ⟨some, rootDir, a, inv2⟩ := fileOpen_failed inv1 live h
    · have leaves : OpenDecision.Leaves part n t fdTable path (.open i) ↔ (pathNames path).length ≠ 1 :=
        or_iff_left fun some => some full
      rw [leaves, not_not, ← parent]
      constructor
      · intro same
        by_contra other
        refine inv.cache.changed inv1.cache browsed.rootDir (a := d.inode) ?_ same
        rw [hold, if_neg other, bump_self]
        omega
      · intro root
        rw [hold, if_pos root] at inv1
        exact browsed.undone.unchanged inv.toFsCore inv1.toFsCore
    · refine ⟨fun same => absurd same ?_, fun none => absurd (.inr some) none⟩
      refine inv.cache.changed inv2.cache (rootDir.trans browsed.rootDir) (a := a) ?_
      have le : H a ≤ hold H d a := le_hold
      rw [bump_self]
      omega

end Open

section OpenExamples

def OpenDecision.isRefused : OpenDecision → Bool
  | .refused => true
  | _ => false

/-- A file that is there is not created again. -/
theorem openPath_failed_small : ∃ part s t sh table, closedFile = .ok (part, s) ∧
    openPath part none s (fun _ => -1) [slash, 0x66#8] oCreat = .ok (none, t, table) ∧ Unchanged part 8 s t ∧
    OpenDecides part none s sh [slash, 0x66#8] := by
  have ran : returns closedFile (fun x => returns (openPath x.1 none x.2 (fun _ => -1) [slash, 0x66#8] oCreat) fun y =>
      decide (y.1 = none) && returns (openDecision x.1 none x.2 [slash, 0x66#8] oCreat) fun z => z.1.isRefused) = true := by decide
  obtain ⟨⟨part, s⟩, ran, failed⟩ := returns_true.1 ran
  obtain ⟨⟨fd, t, table⟩, failed, test⟩ := returns_true.1 failed
  simp only [Bool.and_eq_true, decide_eq_true_eq] at test
  obtain ⟨rfl, refused⟩ := test
  obtain ⟨⟨decision, s'⟩, decided, refused⟩ := returns_true.1 refused
  obtain ⟨sh, H, usable, heap, -⟩ := closedFile_usable ran
  obtain ⟨unchanged, decides⟩ := openPath_failed usable.lay usable.room2 usable.inv (by decide) failed
  refine ⟨part, s, t, sh, table, ran, failed, unchanged.2 fun decision' s'' decided' => ?_,
    decides heap ⟨rfl, by decide, by decide, by decide⟩ (by decide)⟩
  rw [decided] at decided'
  cases decided'
  cases decision with
  | refused => exact id
  | _ => cases refused

/-- Creates the files with these names, one descriptor after the other. -/
def createAll (part : Partition) : List Byte → Fs × (Nat → Int) → Exec (Fs × (Nat → Int))
  | [], x => return x
  | c :: rest, (s, fdTable) => do
    let (_, s, fdTable) ← openPath part none s fdTable [slash, c] oCreat
    createAll part rest (s, fdTable)

/-- A sixth file is created by a task with five open: whether this fails, and the bit of inode 6
before and after. -/
def createSixth : Exec (Bool × Bool × Bool) := do
  let (part, s₀) ← formatAndMount (fun _ => 0#8) 1 620
  let (s, fdTable) ← createAll part [0x61#8, 0x62#8, 0x63#8, 0x64#8, 0x65#8] (s₀, fun i => if i < 3 then i else -1)
  let (r, t, _) ← openPath part none s fdTable [slash, 0x66#8] oCreat
  return (r.isNone, decide (s.inodeBitmap.Set 6), decide (t.inodeBitmap.Set 6))

/-- A task with five files open creates a sixth one: the call fails, the file is there. -/
theorem openPath_keeps_file : ∃ part s₀ s t fdTable fdTable', formatAndMount (fun _ => 0#8) 1 620 = .ok (part, s₀) ∧
    createAll part [0x61#8, 0x62#8, 0x63#8, 0x64#8, 0x65#8] (s₀, fun i => if i < 3 then i else -1) = .ok (s, fdTable) ∧
    openPath part none s fdTable [slash, 0x66#8] oCreat = .ok (none, t, fdTable') ∧ ¬ Unchanged part 8 s t := by
  have ran : returns createSixth (fun r => r.1 && !r.2.1 && r.2.2) = true := by decide
  obtain ⟨⟨isNone, before, after⟩, ran, is⟩ := returns_true.1 ran
  simp only [createSixth, bind_ok, pure_ok, Prod.exists] at ran
  obtain ⟨part, s₀, formatted, s, fdTable, created, r, t, fdTable', opened, e⟩ := ran
  simp only [Prod.mk.injEq] at e
  obtain ⟨rfl, rfl, rfl⟩ := e
  simp only [Bool.and_eq_true, Bool.not_eq_true', decide_eq_false_iff_not, decide_eq_true_eq, Option.isNone_iff_eq_none] at is
  obtain ⟨⟨rfl, free⟩, taken⟩ := is
  refine ⟨part, s₀, s, t, fdTable, fdTable', formatted, created, opened, fun same => ?_⟩
  rw [same.inodeBitmap] at taken
  exact free taken

end OpenExamples

/-- `sys_mkdir` goes on to `inode_bitmap_alloc`. -/
def Makes (part : Partition) (me : Option Nat) (s : Fs) (path : List Byte) : Prop :=
  ∃ d name t, mkdirDecision part me s path = .ok (some (d, name), t)

section Mkdir

variable {part : Partition} {n : Nat} {me : Option Nat} {s t : Fs} {sh : Shape} {H : Nat → Nat} {d : Dir} {p : Nat}
  {path name : List Byte}

/-- Making a directory fails for want of a number or of a block, or keeps the block. -/
theorem makeDir_failed (lay : Layout part n) (inv : FsInv part n s sh H) (dirAt : DirAt s sh d p)
    (h : makeDir part me s d name = .ok (none, t)) :
    (t = s ∧ ((∀ m, m < 4096 → s.inodeBitmap.Set m) ∨ ∀ i, i < n → s.blockBitmap.Set i)) ∨
      (∃ m, m < 4096 ∧ ¬ s.inodeBitmap.Set m) ∧
        ∃ i, 0 < i ∧ i < n ∧ ¬ s.blockBitmap.Set i ∧ t.blockBitmap = bitmapSet s.blockBitmap i true := by
  obtain ⟨alloc, full⟩ | ⟨f, low, clear, alloc⟩ := inodeBitmapAlloc_cases inv.len
  · simp only [makeDir, alloc, pure_ok] at h
    cases h
    exact .inl ⟨rfl, .inl full⟩
  obtain ⟨-, full, rfl⟩ | ⟨i, disk₁, e, ok, v, pos, inside, freeBlock, -, written, -, -, synced, ends⟩ :=
    makeDir_ok lay alloc inv.tree.map h
  · rw [bitmapSet_undo clear]
    exact .inl ⟨rfl, .inr full⟩
  · refine .inr ⟨⟨f, low, clear⟩, i, pos, inside, freeBlock, ?_⟩
    obtain ⟨inv₁, -⟩ :=
      @FsInv.takeBlock part n s _ sh H lay inv i disk₁ (dotsImage f (s.inodes d.inode).iNo) pos inside freeBlock written rfl
    have dirAt₁ : DirAt { s with
        blockBitmap := bitmapSet s.blockBitmap i true
        disk := splice disk₁ (512 * (part.sb.dataStartLba + i)) (512 * 1) (dotsImage f (s.inodes d.inode).iNo) } sh d p :=
      ⟨dirAt.mem, dirAt.number, dirAt.live, dirAt.dir⟩
    obtain ⟨wf, -⟩ := inv₁.dirWf dirAt₁
    obtain ⟨rfl, crowded⟩ | ⟨rfl, -⟩ := syncDirEntry_placed lay inv₁.tree.map wf.slots.toBlocks synced
    · obtain ⟨-, -, rfl⟩ | ⟨no, -⟩ := ends
      · exact (crowded.refused lay).blockBitmap
      · cases no
    · obtain ⟨no, -⟩ | ⟨-, no, -⟩ := ends
      · cases no
      · cases no

/-- Where `sys_mkdir` stands after its checks. -/
theorem mkdirDecision_inv (lay : Layout part n) (room : ∀ a, H a + 2 < 2 ^ 32) (inv : FsInv part n s sh H) (noZero : 0#8 ∉ path)
    {decision : Option (Dir × List Byte)} (h : mkdirDecision part me s path = .ok (decision, t)) :
    Browsed s t ∧ ((decision = none ∧ FsInv part n t sh H) ∨
      ∃ d name q, decision = some (d, name) ∧ FsInv part n t sh (hold H d) ∧ DirAt t sh d q) := by
  simp only [mkdirDecision] at h
  split at h
  · rw [pure_ok] at h
    cases h
    exact ⟨browsed_malloc, .inl ⟨rfl, inv.malloc⟩⟩
  simp only [bind_ok, Prod.exists] at h
  obtain ⟨r, s1, search, h⟩ := h
  obtain ⟨q, inv1, browsed, dirAt, -⟩ := searchFile_outcome lay room inv.malloc noZero search
  have before := browsed_malloc.trans browsed
  have closes : (∃ s2, closeParent me s1 r = .ok s2 ∧ (none, s2) = (decision, t)) →
      Browsed s t ∧ decision = none ∧ FsInv part n t sh H := by
    rintro ⟨s2, closed, e⟩
    cases e
    obtain ⟨inv2, browsed2⟩ := closeParent_inv (room _) inv1 closed
    exact ⟨before.trans browsed2, rfl, inv2⟩
  split at h
  · simp only [bind_ok, pure_ok] at h
    exact (closes h).imp_right .inl
  simp only [bind_ok] at h
  obtain ⟨depth, -, depth', -, h⟩ := h
  split at h
  · simp only [bind_ok, pure_ok] at h
    exact (closes h).imp_right .inl
  · rw [pure_ok] at h
    cases h
    exact ⟨before, .inr ⟨_, _, q, rfl, inv1, dirAt⟩⟩

/-- With memory `sys_mkdir` comes to take a number exactly when the path is vacant. -/
theorem makes_iff (lay : Layout part n) (room : ∀ a, H a + 2 < 2 ^ 32) (inv : FsInv part n s sh H) (noZero : 0#8 ∉ path)
    (named : pathNames path ≠ []) (heap : s.mallocs = []) {decision : Option (Dir × List Byte)}
    (decided : mkdirDecision part me s path = .ok (decision, t)) : Makes part me s path ↔ Vacant part s sh (pathNames path) := by
  have h := decided
  have memory : s.mallocOk = true := by
    rw [Fs.mallocOk, heap]
    rfl
  have tree := inv.tree
  obtain ⟨live, -, -⟩ := tree.naming.top
  rw [mkdirDecision, if_neg (by rw [memory]; decide)] at h
  simp only [bind_ok, Prod.exists] at h
  obtain ⟨r, s1, search, h⟩ := h
  obtain ⟨q, done, found, stands, -⟩ := searchFile_found lay room inv.malloc noZero named search (malloc_heap heap)
  obtain ⟨_, -, -, -, outcome⟩ := searchFile_outcome lay room inv.malloc noZero search
  have components : ∀ name ∈ done, IsComponent name := fun name mem => (mem_pathNamesFuel _ (found.sub name mem)).1
  have searched : r.inodeNo = none → pathNames r.searchedPath = done := by
    intro no
    have notDir : r.fileType ≠ .directory := by
      cases outcome with
      | none _ _ type => rw [type]; decide
      | file _ _ _ number => rw [no] at number; cases number
      | dir _ _ _ number => rw [no] at number; cases number
      | root _ number => rw [no] at number; cases number
    rw [stands.searched notDir, pathNames_join components]
  constructor
  · rintro ⟨d, name, s2, makes⟩
    rw [decided] at makes
    cases makes
    split at h
    · simp only [bind_ok, pure_ok] at h
      obtain ⟨_, -, e⟩ := h
      cases e
    rename_i no
    rw [not_not] at no
    simp only [bind_ok] at h
    obtain ⟨depth, isDepth, depth', isDepth', h⟩ := h
    split at h
    · simp only [bind_ok, pure_ok] at h
      obtain ⟨_, -, e⟩ := h
      cases e
    rename_i same
    rw [not_not, pathDepthCnt_ok isDepth, pathDepthCnt_ok isDepth'] at same
    obtain ⟨_, _, at_⟩ := outcome.atLast no same
    rw [no, ← searched no, at_.names] at found
    exact ⟨q, found⟩
  · rintro ⟨q', vacant⟩
    obtain ⟨no, rfl, rfl⟩ := found.unique tree.naming tree.clear vacant live
    rw [if_neg (not_not.2 no)] at h
    simp only [bind_ok] at h
    obtain ⟨depth, isDepth, depth', isDepth', h⟩ := h
    rw [if_neg ?_, pure_ok] at h
    · cases h
      exact ⟨_, _, _, decided⟩
    · rw [pathDepthCnt_ok isDepth, pathDepthCnt_ok isDepth', searched no]
      exact not_not.2 rfl

/-- **A failed `sys_mkdir`** changes nothing exactly when it did not come so far as to take a
block; else a block stays taken. With memory it comes so far when the path is vacant. -/
theorem mkdirPath_failed (lay : Layout part n) (room : ∀ a, H a + 2 < 2 ^ 32) (inv : FsInv part n s sh H) (noZero : 0#8 ∉ path)
    (h : mkdirPath part me s path = .ok (none, t)) :
    (Unchanged part n s t ↔ ¬ Makes part me s path ∨ (∀ m, m < 4096 → s.inodeBitmap.Set m) ∨ ∀ i, i < n → s.blockBitmap.Set i) ∧
      (Unchanged part n s t ∨ ∃ i, 0 < i ∧ i < n ∧ ¬ s.blockBitmap.Set i ∧ t.blockBitmap = bitmapSet s.blockBitmap i true) ∧
      (s.mallocs = [] → pathNames path ≠ [] → (Makes part me s path ↔ Vacant part s sh (pathNames path))) := by
  rw [mkdirPath_eq] at h
  simp only [bind_ok, Prod.exists] at h
  obtain ⟨decision, s1, decided, h⟩ := h
  rw [← and_assoc]
  refine ⟨?_, fun heap named => makes_iff lay room inv noZero named heap decided⟩
  obtain ⟨browsed, ⟨rfl, inv1⟩ | ⟨d, name, q, rfl, inv1, dirAt⟩⟩ := mkdirDecision_inv lay room inv noZero decided
  · rw [mkdirDecided, pure_ok] at h
    cases h
    have same := browsed.undone.unchanged inv.toFsCore inv1.toFsCore
    refine ⟨⟨fun _ => .inl ?_, fun _ => same⟩, .inl same⟩
    rintro ⟨d, name, s2, makes⟩
    rw [decided] at makes
    cases makes
  simp only [mkdirDecided, bind_ok, pure_ok, Prod.exists] at h
  obtain ⟨ok, s2, made, s3, closed, e⟩ := h
  cases e
  have makes : Makes part me s path := ⟨d, name, s1, decided⟩
  obtain ⟨rfl, full⟩ | ⟨⟨m, low, clear⟩, i, pos, inside, free, taken⟩ := makeDir_failed lay inv1 dirAt made
  · obtain ⟨inv2, browsed2⟩ := dirClose_inv inv1 (room _) closed
    have same := (browsed.trans browsed2).undone.unchanged inv.toFsCore inv2.toFsCore
    rw [browsed.inodeBitmap, browsed.blockBitmap] at full
    exact ⟨⟨fun _ => .inr full, fun _ => same⟩, .inl same⟩
  · have taken' : t.blockBitmap = bitmapSet s.blockBitmap i true := by
      rw [(dirClose_cacheOnly closed).blockBitmap, taken, browsed.blockBitmap]
    rw [browsed.inodeBitmap] at clear
    rw [browsed.blockBitmap] at free
    have changed : ¬ Unchanged part n s t := by
      intro same
      have set : (bitmapSet s.blockBitmap i true).Set i := by rw [set_bitmapSet, if_pos rfl]
      rw [← taken', same.blockBitmap] at set
      exact free set
    refine ⟨⟨fun same => absurd same changed, ?_⟩, .inr ⟨i, pos, inside, free, taken'⟩⟩
    rintro (no | full | full)
    · exact absurd makes no
    · exact absurd (full m low) clear
    · exact absurd (full i inside) free

end Mkdir

section MkdirExamples

/-- A directory with the name of a file is not made. -/
theorem mkdirPath_failed_small : ∃ part s t sh, closedFile = .ok (part, s) ∧ mkdirPath part none s [slash, 0x66#8] = .ok (none, t) ∧
    Unchanged part 8 s t ∧ ¬ Vacant part s sh (pathNames [slash, 0x66#8]) := by
  have ran : returns closedFile (fun x => returns (mkdirPath x.1 none x.2 [slash, 0x66#8]) fun y =>
      decide (y.1 = none) && returns (mkdirDecision x.1 none x.2 [slash, 0x66#8]) fun z => z.1.isNone) = true := by decide
  obtain ⟨⟨part, s⟩, ran, failed⟩ := returns_true.1 ran
  obtain ⟨⟨ok, t⟩, failed, test⟩ := returns_true.1 failed
  simp only [Bool.and_eq_true, decide_eq_true_eq] at test
  obtain ⟨rfl, refused⟩ := test
  obtain ⟨⟨decision, s'⟩, decided, isNone⟩ := returns_true.1 refused
  obtain rfl := Option.isNone_iff_eq_none.1 isNone
  have no : ¬ Makes part none s [slash, 0x66#8] := by
    rintro ⟨d, name, s'', makes⟩
    rw [decided] at makes
    cases makes
  obtain ⟨sh, H, usable, heap, -⟩ := closedFile_usable ran
  obtain ⟨unchanged, -, makes⟩ := mkdirPath_failed usable.lay usable.room2 usable.inv (by decide) failed
  exact ⟨part, s, t, sh, ran, failed, unchanged.2 (.inl no), fun vacant => no ((makes heap (by decide)).2 vacant)⟩

/-- Makes directories, or creates files, in the root directory. -/
def populate (part : Partition) : List (Bool × Byte) → Fs → Exec Fs
  | [], s => return s
  | (isDir, c) :: rest, s => do
    let s ← if isDir then Prod.snd <$> mkdirPath part none s [slash, c]
      else (fun r => r.2.1) <$> openPath part none s (fun _ => -1) [slash, c] oCreat
    populate part rest s

/-- Six directories and thirteen files: they fill the block of the root directory. -/
def crowd : List (Bool × Byte) := (List.range 19).map fun k => (decide (k < 6), BitVec.ofNat 8 (97 + k))

/-- `/z` is made on the crowded partition: whether this fails, and the bit of block 7 before and after. -/
def mkdirOnCrowd : Exec (Bool × Bool × Bool) := do
  let (part, s₀) ← formatAndMount (fun _ => 0#8) 1 620
  let s ← populate part crowd s₀
  let (r, t) ← mkdirPath part none s [slash, 0x7a#8]
  return (r.isNone, decide (s.blockBitmap.Set 7), decide (t.blockBitmap.Set 7))

/-- `f x`, for which `x` is evaluated first. -/
def forced {α : Type} (f : Nat → α) (x : Nat) : α :=
  match x with
  | 0 => f 0
  | n + 1 => f (n + 1)

theorem forced_eq {α : Type} (f : Nat → α) : forced f = f := by
  funext x
  cases x with
  | zero => rfl
  | succ n => rfl

/-- The same state, which is read at evaluated addresses. -/
def Fs.forced (s : Fs) : Fs :=
  { s with
    disk := Sparrow.forced s.disk
    blockBitmap := { s.blockBitmap with bits := Sparrow.forced s.blockBitmap.bits }
    inodeBitmap := { s.inodeBitmap with bits := Sparrow.forced s.inodeBitmap.bits }
    inodes := Sparrow.forced s.inodes
    fileTable := Sparrow.forced s.fileTable }

theorem Fs.forced_eq (s : Fs) : s.forced = s := by
  simp only [Fs.forced, Sparrow.forced_eq]

/-- `populate` over such states, which keeps the evaluation of a long run short. -/
def populateForced (part : Partition) : List (Bool × Byte) → Fs → Exec Fs
  | [], s => return s
  | (isDir, c) :: rest, s => do
    let s ← if isDir then Prod.snd <$> mkdirPath part none s [slash, c]
      else (fun r => r.2.1) <$> openPath part none s (fun _ => -1) [slash, c] oCreat
    populateForced part rest s.forced

theorem populateForced_eq (part : Partition) : ∀ (l : List (Bool × Byte)) (s : Fs), populateForced part l s = populate part l s := by
  intro l
  induction l with
  | nil => exact fun _ => rfl
  | cons x rest ih =>
    intro s
    simp only [populateForced, populate, ih, Fs.forced_eq]

/-- The seventh directory takes the last block, and there is none left for its entry. -/
theorem mkdirPath_keeps_block : ∃ part s₀ s t, formatAndMount (fun _ => 0#8) 1 620 = .ok (part, s₀) ∧
    populate part crowd s₀ = .ok s ∧ mkdirPath part none s [slash, 0x7a#8] = .ok (none, t) ∧ ¬ Unchanged part 8 s t := by
  have ran : returns mkdirOnCrowd (fun r => r.1 && !r.2.1 && r.2.2) = true := by
    simp only [mkdirOnCrowd, ← populateForced_eq]
    decide +kernel
  obtain ⟨⟨isNone, before, after⟩, ran, is⟩ := returns_true.1 ran
  simp only [mkdirOnCrowd, bind_ok, pure_ok, Prod.exists] at ran
  obtain ⟨part, s₀, formatted, s, populated, r, t, made, e⟩ := ran
  simp only [Prod.mk.injEq] at e
  obtain ⟨rfl, rfl, rfl⟩ := e
  simp only [Bool.and_eq_true, Bool.not_eq_true', decide_eq_false_iff_not, decide_eq_true_eq, Option.isNone_iff_eq_none] at is
  obtain ⟨⟨rfl, free⟩, taken⟩ := is
  refine ⟨part, s₀, s, t, formatted, populated, made, fun same => ?_⟩
  rw [same.blockBitmap] at taken
  exact free taken

end MkdirExamples

end Sparrow
