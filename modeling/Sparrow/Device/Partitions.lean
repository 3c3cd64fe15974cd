import Sparrow.Fs.Types

/-!
# The partitions of a disk

`partition_scan` and `ide_init` of `device/ide.c`. A boot sector has a table of four entries.
An entry of type 5 names another boot sector, which is scanned in the same way; the other
entries are the partitions of the disk, primary ones in sector 0 and logical ones elsewhere.

`Walk` says in what order the scan comes by the partitions. The scan returns just when there is
such a walk, with room in the two arrays of the disk (`partitionScan_walk`, `Walk.partitionScan`).
The kernel stack and heap are taken to be large enough for the recursion.
-/

namespace Sparrow.Ide
set_option autoImplicit false

/-- The fields of `struct partition_table_entry` that are read. -/
structure TableEntry where
  fsType : Byte
  startLba : Nat
  secCnt : Nat
  deriving DecidableEq

/-- Entry `i` of the table at byte 446 of a `struct boot_sector`. -/
def tableEntry (bs : Image) (i : Nat) : TableEntry :=
  ⟨bs (446 + 16 * i + 4), word32 bs (446 + 16 * i + 8), word32 bs (446 + 16 * i + 12)⟩

def partitionTable (bs : Image) : List TableEntry :=
  [tableEntry bs 0, tableEntry bs 1, tableEntry bs 2, tableEntry bs 3]

/-- The first and the last part of `struct partition`: what the scan stores in one. The disk
a partition is on is named by its number, two to a channel. -/
structure PartitionSlot where
  startLba : Nat
  secCnt : Nat
  myDisk : Nat
  name : String
  deriving DecidableEq

/-- `struct disk`. -/
structure Disk where
  name : String
  primParts : Nat → PartitionSlot
  logicParts : Nat → PartitionSlot

/-- The address of a `part_tag`. -/
structure PartTag where
  disk : Nat
  logical : Bool
  index : Nat
  deriving DecidableEq

/-- The disks of the channels, `partition_list`, and the indices `p_no` and `l_no`. -/
structure Records where
  pNo : Nat
  lNo : Nat
  disks : Nat → Disk
  partitionList : List PartTag

/-- The globals of `ide.c`, and the number of sector buffers that are not freed. -/
structure Globals where
  extLbaBase : Nat
  records : Records
  buffers : Nat

/-- `a[i] = x`. -/
def stored {α : Type} (a : Nat → α) (i : Nat) (x : α) : Nat → α := fun j => if j = i then x else a j

/-- The next element of `prim_parts` is filled and appended to `partition_list`. -/
def recordPrimary (hd startLba secCnt : Nat) (r : Records) : Records :=
  let disk := r.disks hd
  let part : PartitionSlot := ⟨startLba, secCnt, hd, disk.name ++ toString (r.pNo + 1)⟩
  { r with
    pNo := r.pNo + 1
    disks := stored r.disks hd { disk with primParts := stored disk.primParts r.pNo part }
    partitionList := r.partitionList ++ [⟨hd, false, r.pNo⟩] }

/-- The next element of `logic_parts` is filled and appended to `partition_list`. -/
def recordLogical (hd startLba secCnt : Nat) (r : Records) : Records :=
  let disk := r.disks hd
  let part : PartitionSlot := ⟨startLba, secCnt, hd, disk.name ++ toString (r.lNo + 5)⟩
  { r with
    lNo := r.lNo + 1
    disks := stored r.disks hd { disk with logicParts := stored disk.logicParts r.lNo part }
    partitionList := r.partitionList ++ [⟨hd, true, r.lNo⟩] }

/-- The loop over the entries of a table and the `sys_free` behind it. A store outside of
`prim_parts` or `logic_parts` is undefined. -/
def scanEntries (scan : Nat → Globals → Exec Globals) (hd extLba : Nat) : List TableEntry → Globals → Exec Globals
  | [], s => return { s with buffers := s.buffers - 1 }
  | p :: rest, s => do
    if p.fsType = 5 then
      let s ← (if s.extLbaBase ≠ 0 then scan (addU32 p.startLba s.extLbaBase) s
        else scan p.startLba { s with extLbaBase := p.startLba } : Exec Globals)
      scanEntries scan hd extLba rest s
    else if p.fsType ≠ 0 then
      if extLba = 0 then
        defined (s.records.pNo < 4)
        let s := { s with records := recordPrimary hd (addU32 extLba p.startLba) p.secCnt s.records }
        assertThat (s.records.pNo < 4)
        scanEntries scan hd extLba rest s
      else
        defined (s.records.lNo < 8)
        let s := { s with records := recordLogical hd (addU32 extLba p.startLba) p.secCnt s.records }
        -- this `return` passes by the `sys_free`
        if 8 ≤ s.records.lNo then return s
        scanEntries scan hd extLba rest s
    else scanEntries scan hd extLba rest s

/-- `partition_scan(hd, ext_lba)` on a disk with the contents `sectors`; `fuel` bounds the depth
of its calls. -/
def partitionScan (sectors : Image) (hd : Nat) : Nat → Nat → Globals → Exec Globals
  | 0, _, _ => throw .diverge
  | fuel + 1, extLba, s => do
    let s := { s with buffers := s.buffers + 1 }
    let bs ← ideRead sectors extLba 1
    scanEntries (partitionScan sectors hd fuel) hd extLba (partitionTable bs) s

/-- What `ide_init` does with disk `hd`: the first one of a channel holds the kernel and is not
scanned. -/
def initDisk (fuel : Nat) (drives : Nat → Image) (s : Globals) (hd : Nat) : Exec Globals := do
  let disk := { s.records.disks hd with name := "sd" ++ String.singleton (Char.ofNat (97 + hd)) }
  let s := { s with records := { s.records with disks := stored s.records.disks hd disk } }
  let s ← if hd % 2 ≠ 0 then partitionScan (drives hd) hd fuel 0 s else pure s
  return { s with records := { s.records with pNo := 0, lNo := 0 } }

/-- The globals when the kernel starts. -/
def bootGlobals : Globals :=
  ⟨0, ⟨0, 0, fun _ => ⟨"", fun _ => ⟨0, 0, 0, ""⟩, fun _ => ⟨0, 0, 0, ""⟩⟩, []⟩, 0⟩

/-- `ide_init` with the two disks of each channel. -/
def ideInit (fuel : Nat) (drives : Nat → Image) (channelCnt : Nat) : Exec Globals :=
  (List.range (2 * channelCnt)).foldlM (initDisk fuel drives) bootGlobals

/-- The place of a partition on its disk. -/
structure Extent where
  startLba : Nat
  secCnt : Nat
  deriving DecidableEq

/-- A partition the scan comes by. -/
inductive Found where
  | primary (e : Extent)
  | logical (e : Extent)
  deriving DecidableEq

def primaries (fs : List Found) : List Extent :=
  fs.filterMap fun | .primary e => some e | .logical _ => none

def logicals (fs : List Found) : List Extent :=
  fs.filterMap fun | .primary _ => none | .logical e => some e

/-- The partition an entry of the table in sector `lba` describes. -/
def entryPartition (lba : Nat) (p : TableEntry) : Found :=
  if lba = 0 then .primary ⟨addU32 lba p.startLba, p.secCnt⟩ else .logical ⟨addU32 lba p.startLba, p.secCnt⟩

/-- The sector an extended entry names, and the base for the tables below it. -/
def below (base : Nat) (p : TableEntry) : Nat × Nat :=
  if base ≠ 0 then (addU32 p.startLba base, base) else (p.startLba, p.startLba)

/-- The table in sector `lba`. -/
def tableAt (sectors : Image) (lba : Nat) : List TableEntry := partitionTable (shifted sectors (512 * lba))

/-- The partitions that the entries of a table in sector `lba` and the tables below them
describe, in order, and the base of the extended partitions before and after; `l` logical ones
come before. A table ends with the eighth logical partition. -/
inductive Walk (sectors : Image) : Nat → Nat → Nat → List TableEntry → List Found → Nat → Prop where
  | done {base l lba : Nat} : Walk sectors base l lba [] [] base
  | unused {base l lba base' : Nat} {p : TableEntry} {rest : List TableEntry} {fs : List Found} (free : p.fsType = 0)
      (next : Walk sectors base l lba rest fs base') : Walk sectors base l lba (p :: rest) fs base'
  | primary {base l base' : Nat} {p : TableEntry} {rest : List TableEntry} {fs : List Found} (used : p.fsType ≠ 0)
      (plain : p.fsType ≠ 5) (next : Walk sectors base l 0 rest fs base') :
      Walk sectors base l 0 (p :: rest) (entryPartition 0 p :: fs) base'
  | logical {base l lba base' : Nat} {p : TableEntry} {rest : List TableEntry} {fs : List Found} (used : p.fsType ≠ 0)
      (plain : p.fsType ≠ 5) (behind : lba ≠ 0) (more : l + 1 < 8) (next : Walk sectors base (l + 1) lba rest fs base') :
      Walk sectors base l lba (p :: rest) (entryPartition lba p :: fs) base'
  | eighth {base l lba : Nat} {p : TableEntry} {rest : List TableEntry} (used : p.fsType ≠ 0) (plain : p.fsType ≠ 5)
      (behind : lba ≠ 0) (full : 8 ≤ l + 1) : Walk sectors base l lba (p :: rest) [entryPartition lba p] base
  | extended {base l lba base' base'' : Nat} {p : TableEntry} {rest : List TableEntry} {gs fs : List Found}
      (link : p.fsType = 5) (onDisk : (below base p).1 ≤ maxLba)
      (inner : Walk sectors (below base p).2 l (below base p).1 (tableAt sectors (below base p).1) gs base')
      (next : Walk sectors base' (l + (logicals gs).length) lba rest fs base'') :
      Walk sectors base l lba (p :: rest) (gs ++ fs) base''

/-- One partition is recorded. -/
def record (hd : Nat) (r : Records) : Found → Records
  | .primary e => recordPrimary hd e.startLba e.secCnt r
  | .logical e => recordLogical hd e.startLba e.secCnt r

/-- The partitions are recorded one after another. -/
def recordAll (hd : Nat) (r : Records) (fs : List Found) : Records := fs.foldl (record hd) r

section Recording

variable {hd : Nat} {r : Records} {fs gs : List Found}

@[simp] theorem primaries_append : primaries (fs ++ gs) = primaries fs ++ primaries gs := List.filterMap_append

@[simp] theorem logicals_append : logicals (fs ++ gs) = logicals fs ++ logicals gs := List.filterMap_append

theorem primaries_primary {es : List Extent} : primaries (es.map Found.primary) = es := by
  rw [primaries, List.filterMap_map]
  exact List.filterMap_some

theorem primaries_logical {es : List Extent} : primaries (es.map Found.logical) = [] := by
  simp [primaries]

theorem logicals_primary {es : List Extent} : logicals (es.map Found.primary) = [] := by
  simp [logicals]

theorem logicals_logical {es : List Extent} : logicals (es.map Found.logical) = es := by
  rw [logicals, List.filterMap_map]
  exact List.filterMap_some

/-- A walk by no primary partition is one by logical partitions. -/
theorem eq_logicals (none : primaries fs = []) : fs = (logicals fs).map Found.logical := by
  induction fs with
  | nil => rfl
  | cons f fs ih =>
    cases f with
    | primary e => cases none
    | logical e => exact congrArg (Found.logical e :: ·) (ih none)

theorem recordAll_append : recordAll hd r (fs ++ gs) = recordAll hd (recordAll hd r fs) gs := List.foldl_append

theorem recordAll_cons {f : Found} : recordAll hd r (f :: fs) = recordAll hd (record hd r f) fs := rfl

theorem recordAll_pNo : (recordAll hd r fs).pNo = r.pNo + (primaries fs).length := by
  induction fs generalizing r with
  | nil => rfl
  | cons f fs ih =>
    rw [recordAll_cons, ih]
    cases f with
    | primary e => simp [record, recordPrimary, primaries]; omega
    | logical e => rfl

theorem recordAll_lNo : (recordAll hd r fs).lNo = r.lNo + (logicals fs).length := by
  induction fs generalizing r with
  | nil => rfl
  | cons f fs ih =>
    rw [recordAll_cons, ih]
    cases f with
    | primary e => rfl
    | logical e => simp [record, recordLogical, logicals]; omega

end Recording

section Scanning

variable {sectors : Image} {hd base base' lba fuel : Nat} {s s' : Globals} {fs : List Found} {es : List TableEntry}

/-- The buffer that the return at the eighth logical partition leaves behind; `l_no` is at most 8. -/
def Globals.lost (s : Globals) : Nat := s.records.lNo / 8

/-- The indices of the two arrays of a disk when an entry is looked at. -/
def Globals.InRange (s : Globals) : Prop := s.records.pNo < 4 ∧ s.records.lNo ≤ 8

/-- What scanning the partitions of a walk leaves. -/
structure Scanned (hd : Nat) (fs : List Found) (base' : Nat) (s s' : Globals) : Prop where
  base : s'.extLbaBase = base'
  records : s'.records = recordAll hd s.records fs
  inRange : s'.InRange
  buffers : s'.buffers + s.lost = s.buffers + s'.lost

/-- The call of `partition_scan` for an extended entry. -/
theorem below_scan {scan : Nat → Globals → Exec Globals} {p : TableEntry} :
    (if s.extLbaBase ≠ 0 then scan (addU32 p.startLba s.extLbaBase) s
      else scan p.startLba { s with extLbaBase := p.startLba })
    = scan (below s.extLbaBase p).1 { s with extLbaBase := (below s.extLbaBase p).2 } := by
  by_cases first : s.extLbaBase = 0
  · simp [below, first]
  · simp [below, first]

/-- The loop over a table, when the calls below it go along walks. -/
theorem scanEntries_walk {scan : Nat → Globals → Exec Globals}
    (inner : ∀ lba s s', s.InRange → scan lba s = .ok s' → lba ≤ maxLba ∧ ∃ fs base',
      Walk sectors s.extLbaBase s.records.lNo lba (tableAt sectors lba) fs base' ∧ Scanned hd fs base' s s')
    (room : s.InRange) (own : 0 < s.buffers) (h : scanEntries scan hd lba es s = .ok s') :
    ∃ fs base', Walk sectors s.extLbaBase s.records.lNo lba es fs base' ∧
      Scanned hd fs base' s { s' with buffers := s'.buffers + 1 } := by
  induction es generalizing s with
  | nil =>
    rw [scanEntries, pure_ok] at h
    subst h
    exact ⟨[], _, .done, rfl, rfl, room, by simp only [Globals.lost]; omega⟩
  | cons p rest ih =>
    rw [scanEntries] at h
    by_cases link : p.fsType = 5
    · rw [if_pos link, below_scan, bind_ok] at h
      obtain ⟨s1, call, h⟩ := h
      obtain ⟨onDisk, gs, base1, walk, done⟩ := inner _ { s with extLbaBase := (below s.extLbaBase p).2 } _ room call
      have len : s1.records.lNo = s.records.lNo + (logicals gs).length := by rw [done.records, recordAll_lNo]
      have kept := done.buffers
      simp only [Globals.lost] at kept
      obtain ⟨fs, base2, next, after⟩ := ih done.inRange (by omega) h
      rw [len, done.base] at next
      refine ⟨gs ++ fs, base2, .extended link onDisk walk next, after.base, ?_, after.inRange, ?_⟩
      · rw [after.records, done.records, recordAll_append]
      · have := after.buffers
        simp only [Globals.lost] at this ⊢
        omega
    · rw [if_neg link] at h
      by_cases used : p.fsType = 0
      · rw [if_neg (by simpa using used)] at h
        obtain ⟨fs, base1, next, after⟩ := ih room own h
        exact ⟨fs, base1, .unused used next, after⟩
      · rw [if_pos (by simpa using used)] at h
        by_cases first : lba = 0
        · subst first
          simp only [if_pos, bind_ok, defined_ok, assertThat_ok, exists_const] at h
          obtain ⟨-, more, h⟩ := h
          obtain ⟨fs, base1, next, after⟩ := ih
            (s := { s with records := recordPrimary hd (addU32 0 p.startLba) p.secCnt s.records }) ⟨more, room.2⟩ own h
          exact ⟨_, base1, .primary used link next, after.base, after.records, after.inRange, after.buffers⟩
        · simp only [if_neg first, bind_ok, defined_ok, exists_const] at h
          obtain ⟨more, h⟩ := h
          have is : entryPartition lba p = .logical ⟨addU32 lba p.startLba, p.secCnt⟩ := if_neg first
          split at h
          · rename_i full
            rw [pure_ok] at h
            subst h
            refine ⟨_, _, .eighth used link first full, rfl, ?_, ⟨room.1, more⟩, ?_⟩
            · rw [is]; rfl
            · simp only [Globals.lost, recordLogical] at full ⊢
              omega
          · rename_i next8
            simp only [recordLogical] at next8
            obtain ⟨fs, base1, next, after⟩ := ih
              (s := { s with records := recordLogical hd (addU32 lba p.startLba) p.secCnt s.records }) ⟨room.1, more⟩ own h
            refine ⟨_, base1, .logical used link first (by omega) next, after.base, ?_, after.inRange, ?_⟩
            · rw [after.records, is]; rfl
            · have := after.buffers
              simp only [Globals.lost, recordLogical] at this ⊢
              omega

/-- A scan that returns goes along a walk. -/
theorem partitionScan_walk (room : s.InRange) (h : partitionScan sectors hd fuel lba s = .ok s') :
    lba ≤ maxLba ∧ ∃ fs base', Walk sectors s.extLbaBase s.records.lNo lba (tableAt sectors lba) fs base' ∧
      Scanned hd fs base' s s' := by
  induction fuel generalizing lba s s' with
  | zero => rw [partitionScan, throw_ok] at h; exact h.elim
  | succ fuel ih =>
    simp only [partitionScan, bind_ok, ideRead_ok, transferOk_one] at h
    obtain ⟨_, ⟨onDisk, rfl⟩, h⟩ := h
    obtain ⟨fs, base', walk, done⟩ :=
      scanEntries_walk (fun _ _ _ => ih) (s := { s with buffers := s.buffers + 1 }) room (Nat.succ_pos _) h
    refine ⟨onDisk, fs, base', walk, done.base, done.records, done.inRange, ?_⟩
    have := done.buffers
    simp only [Globals.lost] at this ⊢
    omega

/-- Calls below that return more often do not change what the loop returns. -/
theorem scanEntries_more {scan scan' : Nat → Globals → Exec Globals}
    (more : ∀ lba s s', scan lba s = .ok s' → scan' lba s = .ok s') (h : scanEntries scan hd lba es s = .ok s') :
    scanEntries scan' hd lba es s = .ok s' := by
  induction es generalizing s with
  | nil => exact h
  | cons p rest ih =>
    rw [scanEntries] at h ⊢
    split
    · rename_i link
      rw [if_pos link, below_scan, bind_ok] at h
      obtain ⟨s1, call, h⟩ := h
      rw [below_scan, bind_ok]
      exact ⟨s1, more _ _ _ call, ih h⟩
    · rename_i plain
      rw [if_neg plain] at h
      split
      · rename_i used
        rw [if_pos used] at h
        split
        · rename_i first
          simp only [if_pos first, bind_ok, defined_ok, assertThat_ok, exists_const] at h ⊢
          exact ⟨h.1, h.2.1, ih h.2.2⟩
        · rename_i behind
          simp only [if_neg behind, bind_ok, defined_ok, exists_const] at h ⊢
          refine ⟨h.1, ?_⟩
          have h := h.2
          split
          · rename_i full
            rwa [if_pos full] at h
          · rename_i room
            rw [if_neg room] at h
            exact ih h
      · rename_i unused
        rw [if_neg unused] at h
        exact ih h

/-- A scan that returns does so with any greater depth. -/
theorem partitionScan_more (h : partitionScan sectors hd fuel lba s = .ok s') {fuel' : Nat} (le : fuel ≤ fuel') :
    partitionScan sectors hd fuel' lba s = .ok s' := by
  induction fuel generalizing fuel' lba s s' with
  | zero => rw [partitionScan, throw_ok] at h; exact h.elim
  | succ fuel ih =>
    obtain ⟨fuel', rfl⟩ : ∃ k, fuel' = k + 1 := ⟨fuel' - 1, by omega⟩
    simp only [partitionScan, bind_ok] at h ⊢
    obtain ⟨bs, read, h⟩ := h
    exact ⟨bs, read, scanEntries_more (fun lba s s' call => ih call (by omega)) h⟩

/-- So the depth does not matter for what a scan returns. -/
theorem partitionScan_unique {fuel' : Nat} {s'' : Globals} (h : partitionScan sectors hd fuel lba s = .ok s')
    (h' : partitionScan sectors hd fuel' lba s = .ok s'') : s' = s'' := by
  have left := partitionScan_more h (Nat.le_max_left fuel fuel')
  rw [partitionScan_more h' (Nat.le_max_right fuel fuel')] at left
  cases left
  rfl

/-- The numbers only grow, so there is room before the last partition when there is room after it. -/
theorem recordAll_room {r : Records} {gs : List Found} (more : (recordAll hd r (gs ++ fs)).pNo < 4)
    (few : (recordAll hd r (gs ++ fs)).lNo ≤ 8) : (recordAll hd r gs).pNo < 4 ∧ (recordAll hd r gs).lNo ≤ 8 := by
  simp only [recordAll_pNo, recordAll_lNo, primaries_append, logicals_append, List.length_append] at *
  omega

/-- Along a walk the loop over a table returns, if the calls below it may nest deep enough. -/
theorem Walk.scanEntries {base l : Nat} (walk : Walk sectors base l lba es fs base') :
    ∃ depth, ∀ fuel, depth ≤ fuel → ∀ s : Globals, s.extLbaBase = base → s.records.lNo = l →
      (recordAll hd s.records fs).pNo < 4 → (recordAll hd s.records fs).lNo ≤ 8 →
      ∃ s', scanEntries (partitionScan sectors hd fuel) hd lba es s = .ok s' ∧ s'.extLbaBase = base' ∧
        s'.records = recordAll hd s.records fs := by
  induction walk with
  | done =>
    refine ⟨0, ?_⟩
    intro fuel _ s base _ _ _
    exact ⟨_, rfl, base, rfl⟩
  | unused free next ih =>
    obtain ⟨depth, ih⟩ := ih
    refine ⟨depth, ?_⟩
    intro fuel deep s base num more few
    rw [Ide.scanEntries, if_neg (by rw [free]; decide), if_neg (by rw [free]; decide)]
    exact ih fuel deep s base num more few
  | @primary _ _ _ p _ fs used plain next ih =>
    obtain ⟨depth, ih⟩ := ih
    refine ⟨depth, ?_⟩
    intro fuel deep s base num more few
    obtain ⟨more1, few1⟩ : (recordAll hd s.records [entryPartition 0 p]).pNo < 4 ∧ (recordAll hd s.records [entryPartition 0 p]).lNo ≤ 8 :=
      recordAll_room more few
    have now : s.records.pNo + 1 < 4 := more1
    have after : (recordPrimary hd (addU32 0 p.startLba) p.secCnt s.records).pNo < 4 := more1
    rw [Ide.scanEntries, if_neg plain, if_pos used, if_pos rfl]
    simp only [defined_of (show s.records.pNo < 4 by omega), assertThat_of after, ok_bind]
    exact ih fuel deep _ base num more few
  | @logical _ l lba _ p _ fs used plain behind more8 next ih =>
    obtain ⟨depth, ih⟩ := ih
    refine ⟨depth, ?_⟩
    intro fuel deep s base num more few
    rw [recordAll_cons, entryPartition, if_neg behind] at more few ⊢
    rw [Ide.scanEntries, if_neg plain, if_pos used, if_neg behind]
    simp only [defined_of (show s.records.lNo < 8 by omega), ok_bind]
    rw [if_neg (by simp only [recordLogical]; omega)]
    exact ih fuel deep _ base (congrArg (· + 1) num) more few
  | @eighth _ l lba p _ used plain behind full =>
    refine ⟨0, ?_⟩
    intro fuel _ s base num more few
    rw [recordAll_cons, entryPartition, if_neg behind] at few ⊢
    have now : s.records.lNo + 1 ≤ 8 := few
    rw [Ide.scanEntries, if_neg plain, if_pos used, if_neg behind]
    simp only [defined_of (show s.records.lNo < 8 by omega), ok_bind]
    rw [if_pos (by simp only [recordLogical]; omega)]
    exact ⟨_, rfl, base, rfl⟩
  | @extended base l lba _ _ p rest gs fs link onDisk inner next ihInner ih =>
    obtain ⟨depth1, ihInner⟩ := ihInner
    obtain ⟨depth2, ih⟩ := ih
    refine ⟨max (depth1 + 1) depth2, ?_⟩
    intro fuel deep s isBase num more few
    obtain ⟨more1, few1⟩ := recordAll_room more few
    obtain ⟨fuel, rfl⟩ : ∃ k, fuel = k + 1 := ⟨fuel - 1, by omega⟩
    obtain ⟨s1, call, base1, records1⟩ := ihInner fuel (by omega)
      ⟨(Ide.below base p).2, s.records, s.buffers + 1⟩ rfl num more1 few1
    have scan : partitionScan sectors hd (fuel + 1) (Ide.below base p).1 ⟨(Ide.below base p).2, s.records, s.buffers⟩ = .ok s1 := by
      rw [partitionScan, ideRead_of (transferOk_one.2 onDisk), ok_bind]
      exact call
    rw [recordAll_append] at more few ⊢
    rw [Ide.scanEntries, if_pos link, below_scan, isBase, scan, ok_bind]
    rw [← records1] at more few ⊢
    exact ih (fuel + 1) (by omega) s1 base1 (by rw [records1, recordAll_lNo, num]) more few

/-- **`partition_scan`** returns along a walk for which the two arrays have room. -/
theorem Walk.partitionScan {s : Globals} (onDisk : lba ≤ maxLba) (room : s.InRange)
    (walk : Walk sectors s.extLbaBase s.records.lNo lba (tableAt sectors lba) fs base')
    (more : (recordAll hd s.records fs).pNo < 4) (few : (recordAll hd s.records fs).lNo ≤ 8) :
    ∃ fuel s', partitionScan sectors hd fuel lba s = .ok s' ∧ Scanned hd fs base' s s' := by
  obtain ⟨depth, scans⟩ := @Walk.scanEntries _ hd _ _ _ _ _ _ walk
  obtain ⟨s', call, base1, records1⟩ := scans depth (Nat.le_refl _) { s with buffers := s.buffers + 1 } rfl rfl more few
  have scan : Ide.partitionScan sectors hd (depth + 1) lba s = .ok s' := by
    rw [Ide.partitionScan, ideRead_of (transferOk_one.2 onDisk), ok_bind]
    exact call
  obtain ⟨-, _, _, -, done⟩ := partitionScan_walk room scan
  exact ⟨depth + 1, s', scan, base1, records1, done.inRange, done.buffers⟩

end Scanning

end Sparrow.Ide
