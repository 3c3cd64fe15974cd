import Mathlib.Data.List.Induction
import Sparrow.Device.Partitions

/-!
# What a partition scan finds

The two limits of `partition_scan` and the base of the extended partitions decide whether the
scan of a disk is right. `partitionScan_safe_iff` takes a disk with any contents: the scan
returns, stays within the arrays and frees its buffers just when the extended entries form a
finite tree of tables with at most three primary and at most seven logical partitions.
`partitionScan_exact_iff` takes a disk with a chain of extended boot records: one scan leaves
`ext_lba_base` set, and the next disk is then searched in the wrong sectors. `ideInit_scans` says
with which globals `ide_init` comes to each disk.
-/

namespace Sparrow.Ide
set_option autoImplicit false

section Safety

/-- The scan of disk `hd` from its first sector returns and has freed every buffer it got. It has
not stored outside the two arrays, since such a store ends the run as undefined. -/
def Safe (sectors : Image) (hd : Nat) (s : Globals) : Prop :=
  ∃ fuel s', partitionScan sectors hd fuel 0 s = .ok s' ∧ s'.buffers = s.buffers

theorem zero_le_maxLba : 0 ≤ maxLba := Nat.zero_le _

/-- **The scan of an arbitrary disk** is safe just when its tables can be walked along to the end,
with at most three primary and seven logical partitions on the way. -/
theorem partitionScan_safe_iff (sectors : Image) (hd : Nat) (s : Globals) (noPrimary : s.records.pNo = 0)
    (noLogical : s.records.lNo = 0) :
    Safe sectors hd s ↔ ∃ fs base', Walk sectors s.extLbaBase 0 0 (tableAt sectors 0) fs base' ∧
      (primaries fs).length ≤ 3 ∧ (logicals fs).length ≤ 7 := by
  have room : s.InRange := ⟨by omega, by omega⟩
  constructor
  · rintro ⟨fuel, s', scan, freed⟩
    obtain ⟨-, fs, base', walk, done⟩ := partitionScan_walk room scan
    have prims := done.inRange.1
    have kept := done.buffers
    rw [done.records, recordAll_pNo] at prims
    simp only [Globals.lost, done.records, recordAll_lNo] at kept
    exact ⟨fs, base', noLogical ▸ walk, by omega, by omega⟩
  · rintro ⟨fs, base', walk, prims, logs⟩
    have walk : Walk sectors s.extLbaBase s.records.lNo 0 (tableAt sectors 0) fs base' := by
      rw [noLogical]
      exact walk
    have more : (recordAll hd s.records fs).pNo < 4 := by rw [recordAll_pNo]; omega
    have few : (recordAll hd s.records fs).lNo ≤ 8 := by rw [recordAll_lNo]; omega
    obtain ⟨fuel, s', scan, done⟩ := walk.partitionScan zero_le_maxLba room more few
    have kept := done.buffers
    simp only [Globals.lost, done.records, recordAll_lNo] at kept
    exact ⟨fuel, s', scan, by omega⟩

/-- The sectors of a disk that hold the given tables; the rest of it is zero. -/
def bootSectors (tables : List (List TableEntry)) : Image := fun x =>
  let i := x % 512 - 446
  let p := (tables.getD (x / 512) []).getD (i / 16) ⟨0, 0, 0⟩
  if x % 512 < 446 then 0
  else if i % 16 = 4 then p.fsType
  else if 8 ≤ i % 16 ∧ i % 16 < 12 then leByte p.startLba (i % 4)
  else if 12 ≤ i % 16 then leByte p.secCnt (i % 4)
  else 0

/-- One primary partition, and an extended one with two tables of a logical partition each. -/
def threeParts : Image :=
  bootSectors [[⟨1, 1, 1⟩, ⟨5, 2, 4⟩], [], [⟨1, 1, 1⟩, ⟨5, 2, 2⟩], [], [⟨1, 1, 1⟩]]

theorem partitionScan_safe_iff_three : Safe threeParts 1 bootGlobals :=
  (partitionScan_safe_iff threeParts 1 bootGlobals rfl rfl).2
    ⟨[.primary ⟨1, 1⟩, .logical ⟨3, 1⟩, .logical ⟨5, 1⟩], 2,
      .primary (by decide) (by decide) (.extended (by decide) (by decide)
        (.logical (by decide) (by decide) (by decide) (by decide) (.extended (by decide) (by decide)
          (.logical (by decide) (by decide) (by decide) (by decide) (.unused (by decide) (.unused (by decide)
            (.unused (by decide) .done))))
          (.unused (by decide) (.unused (by decide) .done))))
        (.unused (by decide) (.unused (by decide) .done))), by decide, by decide⟩

/-- The second table of this disk names itself. -/
def selfLinked : Image := bootSectors [[⟨5, 1, 9⟩], [⟨5, 0, 9⟩]]

/-- Ten logical partitions, the tables named before them. -/
def tenLogicals : Image :=
  let full : TableEntry := ⟨1, 1, 1⟩
  bootSectors [[⟨5, 1, 9⟩], [⟨5, 1, 9⟩, full], [⟨5, 2, 9⟩, full], [⟨5, 3, 9⟩, full, full, full], [full, full, full, full]]

/-- Eight logical partitions in two tables. -/
def eightLogicals : Image :=
  let full : TableEntry := ⟨1, 1, 1⟩
  bootSectors [[⟨5, 1, 9⟩, ⟨5, 1, 9⟩], [full, full, full, full], [full, full, full, full]]

theorem selfLinked_diverges (fuel b : Nat) (r : Records) :
    partitionScan selfLinked 1 fuel 1 ⟨1, r, b⟩ = .error .diverge := by
  induction fuel generalizing b with
  | zero => rfl
  | succ fuel ih =>
    have table : partitionTable (shifted selfLinked (512 * 1)) = [⟨5, 0, 9⟩, ⟨0, 0, 0⟩, ⟨0, 0, 0⟩, ⟨0, 0, 0⟩] := by decide
    rw [partitionScan, ideRead_of (by decide), ok_bind, table]
    simp only [scanEntries, if_pos, ne_eq, Nat.one_ne_zero, not_false_eq_true]
    rw [show addU32 0 1 = 1 from rfl, ih]
    rfl

/-- No depth is enough for a table that names itself, a ninth logical partition is stored behind
the array, and at the eighth a buffer is left behind. -/
theorem partitionScan_unsafe : (∀ fuel, partitionScan selfLinked 1 fuel 0 bootGlobals = .error .diverge) ∧
    stops (partitionScan tenLogicals 1 6 0 bootGlobals) .undefined = true ∧
    returns (partitionScan eightLogicals 1 3 0 bootGlobals) (fun s => decide (s.buffers = 1)) = true := by
  refine ⟨?_, by decide, by decide⟩
  intro fuel
  cases fuel with
  | zero => rfl
  | succ fuel =>
    have table : partitionTable (shifted selfLinked (512 * 0)) = [⟨5, 1, 9⟩, ⟨0, 0, 0⟩, ⟨0, 0, 0⟩, ⟨0, 0, 0⟩] := by decide
    rw [partitionScan, ideRead_of (by decide), ok_bind, table]
    simp only [scanEntries, bootGlobals, ne_eq, not_true_eq_false, if_false, if_pos]
    rw [selfLinked_diverges]
    rfl

end Safety

section Records

/-- The array with its first elements filled. -/
def overlay (old : Nat → PartitionSlot) (slot : Nat → Extent → PartitionSlot) (es : List Extent) : Nat → PartitionSlot :=
  fun i => (es[i]?).elim (old i) (slot i)

/-- What `prim_parts[i]` holds for a partition. -/
def primarySlot (hd : Nat) (name : String) (i : Nat) (e : Extent) : PartitionSlot :=
  ⟨e.startLba, e.secCnt, hd, name ++ toString (i + 1)⟩

/-- What `logic_parts[i]` holds for a partition. -/
def logicalSlot (hd : Nat) (name : String) (i : Nat) (e : Extent) : PartitionSlot :=
  ⟨e.startLba, e.secCnt, hd, name ++ toString (i + 5)⟩

variable {hd : Nat} {old : Nat → PartitionSlot} {slot : Nat → Extent → PartitionSlot} {es es' : List Extent}

theorem overlay_nil : overlay old slot [] = old := rfl

theorem overlay_snoc (e : Extent) : overlay old slot (es ++ [e]) = stored (overlay old slot es) es.length (slot es.length e) := by
  funext i
  simp only [overlay, stored]
  by_cases last : i = es.length
  · subst last
    simp
  · rw [if_neg last]
    by_cases lt : i < es.length
    · rw [List.getElem?_append_left lt]
    · rw [List.getElem?_eq_none (by simp only [List.length_append, List.length_singleton]; omega),
        List.getElem?_eq_none (by omega)]

/-- Lists of one length with the same slots are the same. -/
theorem overlay_inj (inj : ∀ i e e', slot i e = slot i e' → e = e') (len : es.length = es'.length)
    (same : overlay old slot es = overlay old slot es') : es = es' := by
  apply List.ext_getElem len
  intro i lt lt'
  have at_ := congrFun same i
  simp only [overlay, List.getElem?_eq_getElem lt, List.getElem?_eq_getElem lt', Option.elim_some] at at_
  exact inj i _ _ at_

/-- The partitions `prims` and `logs` are in the two arrays of disk `hd` from their first elements
on, and each is in `partition_list` once, behind what was there. -/
structure Recorded (hd : Nat) (prims logs : List Extent) (r r' : Records) : Prop where
  pNo : r'.pNo = prims.length
  lNo : r'.lNo = logs.length
  disks : r'.disks = stored r.disks hd ⟨(r.disks hd).name,
    overlay (r.disks hd).primParts (primarySlot hd (r.disks hd).name) prims,
    overlay (r.disks hd).logicParts (logicalSlot hd (r.disks hd).name) logs⟩
  list : ∃ tags, r'.partitionList = r.partitionList ++ tags ∧
    tags.Perm ((List.range prims.length).map (PartTag.mk hd false) ++ (List.range logs.length).map (PartTag.mk hd true))

/-- Only the last value that is stored counts. -/
theorem stored_stored {α : Type} (a : Nat → α) (i : Nat) (x y : α) : stored (stored a i x) i y = stored a i y := by
  funext d
  simp only [stored]
  split <;> rfl

theorem recordAll_recorded {r : Records} (noPrimary : r.pNo = 0) (noLogical : r.lNo = 0) (fs : List Found) :
    Recorded hd (primaries fs) (logicals fs) r (recordAll hd r fs) := by
  induction fs using List.reverseRecOn with
  | nil =>
    refine ⟨noPrimary, noLogical, ?_, [], (List.append_nil _).symm, .refl _⟩
    funext d
    by_cases is : d = hd
    · subst is
      simp [recordAll, stored, overlay_nil, primaries, logicals]
    · simp [recordAll, stored, is]
  | append_singleton fs f ih =>
    obtain ⟨tags, list, perm⟩ := ih.list
    have disk := congrFun ih.disks hd
    rw [stored, if_pos rfl] at disk
    rw [recordAll_append]
    cases f with
    | primary e =>
      have prims : primaries (fs ++ [.primary e]) = primaries fs ++ [e] := primaries_append
      have logs : logicals (fs ++ [.primary e]) = logicals fs := logicals_append.trans (List.append_nil _)
      rw [prims, logs]
      refine ⟨?_, ih.lNo, ?_, tags ++ [⟨hd, false, (primaries fs).length⟩], ?_, ?_⟩
      · rw [List.length_append, ← ih.pNo]
        rfl
      · simp only [recordAll, List.foldl_cons, List.foldl_nil, record, recordPrimary] at ih disk ⊢
        rw [disk, ih.disks, stored_stored, ih.pNo, overlay_snoc]
        rfl
      · simp only [recordAll, List.foldl_cons, List.foldl_nil, record, recordPrimary] at list ih ⊢
        rw [list, ih.pNo, List.append_assoc]
      · rw [List.length_append, List.length_singleton, List.range_succ, List.map_append, List.append_assoc]
        refine (perm.append_right _).trans ?_
        rw [List.append_assoc]
        exact List.Perm.append_left _ List.perm_append_comm
    | logical e =>
      have prims : primaries (fs ++ [.logical e]) = primaries fs := primaries_append.trans (List.append_nil _)
      have logs : logicals (fs ++ [.logical e]) = logicals fs ++ [e] := logicals_append
      rw [prims, logs]
      refine ⟨ih.pNo, ?_, ?_, tags ++ [⟨hd, true, (logicals fs).length⟩], ?_, ?_⟩
      · rw [List.length_append, ← ih.lNo]
        rfl
      · simp only [recordAll, List.foldl_cons, List.foldl_nil, record, recordLogical] at ih disk ⊢
        rw [disk, ih.disks, stored_stored, ih.lNo, overlay_snoc]
        rfl
      · simp only [recordAll, List.foldl_cons, List.foldl_nil, record, recordLogical] at list ih ⊢
        rw [list, ih.lNo, List.append_assoc]
      · rw [List.length_append, List.length_singleton, List.range_succ, List.map_append, ← List.append_assoc]
        exact perm.append_right _

/-- Only one pair of lists is recorded by a change of the globals. -/
theorem Recorded.unique {prims logs prims' logs' : List Extent} {r r' : Records} (rec : Recorded hd prims logs r r')
    (rec' : Recorded hd prims' logs' r r') : prims = prims' ∧ logs = logs' := by
  have disk := congrFun (rec.disks.symm.trans rec'.disks) hd
  simp only [stored, if_pos, Disk.mk.injEq, true_and] at disk
  refine ⟨overlay_inj ?_ (rec.pNo.symm.trans rec'.pNo) disk.1, overlay_inj ?_ (rec.lNo.symm.trans rec'.lNo) disk.2⟩
  all_goals
    intro i e e' same
    cases e
    cases e'
    simp only [primarySlot, logicalSlot, PartitionSlot.mk.injEq] at same
    rw [same.1, same.2.1]

end Records

section Chains

variable {sectors : Image} {base base' l lba : Nat} {es : List TableEntry} {fs : List Found}

/-- The entries of a table that are in use. -/
def usedEntries (es : List TableEntry) : List TableEntry := es.filter fun p => p.fsType ≠ 0

/-- The entries that name a table. -/
def extendedEntries (es : List TableEntry) : List TableEntry := es.filter fun p => p.fsType = 5

/-- The partitions that a table in sector `lba` itself describes. -/
def ownExtents (lba : Nat) (es : List TableEntry) : List Extent :=
  (es.filter fun p => p.fsType ≠ 0 ∧ p.fsType ≠ 5).map fun p => ⟨lba + p.startLba, p.secCnt⟩

/-- An extended boot record, with its logical partition unless it has none. -/
structure Ebr where
  lba : Nat
  parts : List Extent

/-- The chain of extended boot records from sector `lba` on: each has at most one logical partition
and, behind it in the table, the place of the next record, counted from the first one. -/
inductive Chain (sectors : Image) (base : Nat) : Nat → List Ebr → Prop where
  | last {lba : Nat} {own : List TableEntry} (table : usedEntries (tableAt sectors lba) = own) (one : own.length ≤ 1)
      (plain : ∀ p ∈ own, p.fsType ≠ 5) (fits : ∀ p ∈ own, lba + p.startLba < 2 ^ 32) :
      Chain sectors base lba [⟨lba, ownExtents lba own⟩]
  | link {lba : Nat} {own : List TableEntry} {next : TableEntry} {rest : List Ebr}
      (table : usedEntries (tableAt sectors lba) = own ++ [next]) (one : own.length ≤ 1)
      (plain : ∀ p ∈ own, p.fsType ≠ 5) (fits : ∀ p ∈ own, lba + p.startLba < 2 ^ 32) (extended : next.fsType = 5)
      (inside : base + next.startLba < 2 ^ 32) (chain : Chain sectors base (base + next.startLba) rest) :
      Chain sectors base lba (⟨lba, ownExtents lba own⟩ :: rest)

/-- The logical partitions of a chain. -/
def chainExtents (ebrs : List Ebr) : List Extent := ebrs.flatMap fun e => e.parts

/-- The records up to the eighth logical partition lie where the driver reads. -/
def Readable : Nat → List Ebr → Prop
  | _, [] => True
  | l, e :: rest => e.lba ≤ maxLba ∧ (l + e.parts.length < 8 → Readable (l + e.parts.length) rest)

/-- A disk with primary partitions in its first table, and at most one extended partition with the
chain `ebrs` of at most eight logical partitions. -/
structure SlaveDisk (sectors : Image) (ebrs : List Ebr) : Prop where
  one : (extendedEntries (tableAt sectors 0)).length ≤ 1
  chain : ∀ p ∈ extendedEntries (tableAt sectors 0), p.startLba ≠ 0 ∧ Chain sectors p.startLba p.startLba ebrs
  none : extendedEntries (tableAt sectors 0) = [] → ebrs = []
  few : (chainExtents ebrs).length ≤ 8

theorem ownExtents_own {p : TableEntry} (used : p.fsType ≠ 0) (plain : p.fsType ≠ 5) :
    ownExtents lba (p :: es) = ⟨lba + p.startLba, p.secCnt⟩ :: ownExtents lba es := by
  rw [ownExtents, List.filter_cons_of_pos (by simpa using ⟨used, plain⟩), List.map_cons, ← ownExtents]

theorem ownExtents_other {p : TableEntry} (other : p.fsType = 0 ∨ p.fsType = 5) :
    ownExtents lba (p :: es) = ownExtents lba es := by
  rw [ownExtents, List.filter_cons_of_neg (by simpa using fun used => other.resolve_left used), ← ownExtents]

theorem extendedEntries_link {p : TableEntry} (link : p.fsType = 5) :
    extendedEntries (p :: es) = p :: extendedEntries es := List.filter_cons_of_pos (by simpa using link)

theorem extendedEntries_plain {p : TableEntry} (plain : p.fsType ≠ 5) :
    extendedEntries (p :: es) = extendedEntries es := List.filter_cons_of_neg (by simpa using plain)

/-- Unused entries do not matter. -/
theorem walk_used : Walk sectors base l lba (usedEntries es) fs base' ↔ Walk sectors base l lba es fs base' := by
  constructor
  · intro walk
    induction es generalizing base l fs with
    | nil => exact walk
    | cons p rest ih =>
      by_cases free : p.fsType = 0
      · rw [usedEntries, List.filter_cons_of_neg (by simpa using free)] at walk
        exact .unused free (ih walk)
      · rw [usedEntries, List.filter_cons_of_pos (by simpa using free)] at walk
        cases walk with
        | unused zero => exact absurd zero free
        | primary used plain next => exact .primary used plain (ih next)
        | logical used plain behind more next => exact .logical used plain behind more (ih next)
        | eighth used plain behind full => exact .eighth used plain behind full
        | extended link onDisk inner next => exact .extended link onDisk inner (ih next)
  · intro walk
    induction es generalizing base l fs with
    | nil => exact walk
    | cons p rest ih =>
      have keep : p.fsType ≠ 0 → usedEntries (p :: rest) = p :: usedEntries rest :=
        fun used => List.filter_cons_of_pos (by simpa using used)
      cases walk with
      | unused free next =>
        rw [usedEntries, List.filter_cons_of_neg (by simpa using free)]
        exact ih next
      | primary used plain next => exact keep used ▸ .primary used plain (ih next)
      | logical used plain behind more next => exact keep used ▸ .logical used plain behind more (ih next)
      | eighth used plain behind full => exact keep used ▸ .eighth used plain behind full
      | extended link onDisk inner next =>
        exact keep (by rw [link]; decide) ▸ .extended link onDisk inner (ih next)

/-- The partition of a record as the scan comes by it. -/
theorem entryPartition_logical {p : TableEntry} (behind : lba ≠ 0) (fits : lba + p.startLba < 2 ^ 32) :
    entryPartition lba p = .logical ⟨lba + p.startLba, p.secCnt⟩ := by
  rw [entryPartition, if_neg behind, addU32_of_lt fits]

theorem entryPartition_primary {p : TableEntry} (fits : p.startLba < 2 ^ 32) :
    entryPartition 0 p = .primary ⟨0 + p.startLba, p.secCnt⟩ := by
  rw [entryPartition, if_pos rfl, addU32_of_lt (by omega)]

theorem ownExtents_one {p : TableEntry} (used : p.fsType ≠ 0) (plain : p.fsType ≠ 5) :
    ownExtents lba [p] = [⟨lba + p.startLba, p.secCnt⟩] := ownExtents_own used plain

/-- A record has no logical partition, or one. -/
theorem own_cases {own : List TableEntry} (one : own.length ≤ 1) : own = [] ∨ ∃ p, own = [p] := by
  obtain none | some : own.length = 0 ∨ own.length = 1 := by omega
  · exact .inl (List.length_eq_zero_iff.1 none)
  · exact .inr (List.length_eq_one_iff.1 some)

/-- The entries in use are used. -/
theorem used_of_mem {p : TableEntry} (mem : p ∈ usedEntries es) : p.fsType ≠ 0 := by
  simpa using (List.mem_filter.1 mem).2

/-- The link of a record leads to the next one. -/
theorem below_link {p : TableEntry} (set : base ≠ 0) (inside : base + p.startLba < 2 ^ 32) :
    below base p = (base + p.startLba, base) := by
  rw [below, if_pos set, addU32_of_lt (by omega), Nat.add_comm]

/-- **A chain** whose records can be read is walked along, with its partitions in order. -/
theorem Chain.walk {ebrs : List Ebr} (chain : Chain sectors base lba ebrs) (set : base ≠ 0) (behind : lba ≠ 0)
    (room : l < 8) (few : l + (chainExtents ebrs).length ≤ 8) (readable : Readable l ebrs) :
    lba ≤ maxLba ∧ Walk sectors base l lba (tableAt sectors lba) ((chainExtents ebrs).map Found.logical) base := by
  induction chain generalizing l with
  | @last lba own table one plain fits =>
    refine ⟨readable.1, walk_used.1 (table.symm ▸ ?_)⟩
    obtain rfl | ⟨p, rfl⟩ := own_cases one
    · exact .done
    · have used : p.fsType ≠ 0 := used_of_mem (table ▸ List.mem_singleton_self p)
      have is := entryPartition_logical behind (fits p (List.mem_singleton_self p))
      simp only [chainExtents, List.flatMap_cons, List.flatMap_nil, List.append_nil,
        ownExtents_one used (plain p (List.mem_singleton_self p)), List.map_cons, List.map_nil]
      rw [← is]
      by_cases more : l + 1 < 8
      · exact .logical used (plain p (List.mem_singleton_self p)) behind more .done
      · exact .eighth used (plain p (List.mem_singleton_self p)) behind (by omega)
  | @link lba own next rest table one plain fits extended inside chain ih =>
    refine ⟨readable.1, walk_used.1 (table.symm ▸ ?_)⟩
    have linked := below_link set inside
    obtain rfl | ⟨p, rfl⟩ := own_cases one
    · have there := ih (by omega) room few (readable.2 room)
      have all : (chainExtents (⟨lba, ownExtents lba []⟩ :: rest)).map Found.logical
          = (chainExtents rest).map Found.logical ++ [] := (List.append_nil _).symm
      rw [all]
      exact .extended extended (by rw [linked]; exact there.1) (by rw [linked]; exact there.2) .done
    · have used : p.fsType ≠ 0 := used_of_mem (show p ∈ usedEntries (tableAt sectors lba) by rw [table]; exact List.mem_cons_self)
      have plain := plain p (List.mem_singleton_self p)
      have is := entryPartition_logical behind (fits p (List.mem_singleton_self p))
      have all : chainExtents (⟨lba, ownExtents lba [p]⟩ :: rest) = ⟨lba + p.startLba, p.secCnt⟩ :: chainExtents rest := by
        simp only [chainExtents, List.flatMap_cons, ownExtents_one used plain, List.singleton_append]
      rw [all] at few ⊢
      rw [List.length_cons] at few
      rw [List.map_cons, ← is]
      by_cases more : l + 1 < 8
      · have next8 := readable.2
        simp only [ownExtents_one used plain, List.length_singleton] at next8
        have there := ih (by omega) more (by omega) (next8 more)
        refine .logical used plain behind more ?_
        rw [← List.append_nil ((chainExtents rest).map Found.logical)]
        exact .extended extended (by rw [linked]; exact there.1) (by rw [linked]; exact there.2) .done
      · have none : chainExtents rest = [] := List.length_eq_zero_iff.1 (by omega)
        rw [none]
        exact .eighth used plain behind (by omega)

/-- A walk along a chain shows that its records can be read. -/
theorem Chain.readable {ebrs : List Ebr} (chain : Chain sectors base lba ebrs) (set : base ≠ 0) (behind : lba ≠ 0)
    (room : l < 8) (onDisk : lba ≤ maxLba) (walk : Walk sectors base l lba (tableAt sectors lba) fs base') :
    Readable l ebrs := by
  induction chain generalizing l fs base' with
  | last => exact ⟨onDisk, fun _ => trivial⟩
  | @link lba own next rest table one plain fits extended inside chain ih =>
    refine ⟨onDisk, ?_⟩
    intro more
    have walk := walk_used.2 walk
    rw [table] at walk
    have linked := below_link set inside
    obtain rfl | ⟨p, rfl⟩ := own_cases one
    · cases walk with
      | unused free => rw [extended] at free; exact absurd free (by decide)
      | primary => exact absurd rfl behind
      | logical used plain => exact absurd extended plain
      | eighth used plain => exact absurd extended plain
      | extended link there inner next =>
        rw [linked] at there inner
        exact ih (by omega) room there inner
    · have used : p.fsType ≠ 0 := used_of_mem (show p ∈ usedEntries (tableAt sectors lba) by rw [table]; exact List.mem_cons_self)
      have plain := plain p (List.mem_singleton_self p)
      simp only [ownExtents_one used plain, List.length_singleton] at more ⊢
      cases walk with
      | unused free => exact absurd free used
      | primary => exact absurd rfl behind
      | eighth _ _ _ full => omega
      | extended link => exact absurd link plain
      | logical _ _ _ _ walk =>
        cases walk with
        | unused free => rw [extended] at free; exact absurd free (by decide)
        | primary => exact absurd rfl behind
        | logical used plain => exact absurd extended plain
        | eighth used plain => exact absurd extended plain
        | extended link there inner next =>
          rw [linked] at there inner
          exact ih (by omega) more there inner

/-- A first table without an extended entry. -/
theorem walk_plain (words : ∀ p ∈ es, p.startLba < 2 ^ 32) (plain : extendedEntries es = []) :
    Walk sectors base l 0 es ((ownExtents 0 es).map Found.primary) base := by
  induction es with
  | nil => exact .done
  | cons p rest ih =>
    have later : ∀ q ∈ rest, q.startLba < 2 ^ 32 := fun q mem => words q (List.mem_cons_of_mem _ mem)
    by_cases link : p.fsType = 5
    · rw [extendedEntries_link link] at plain
      cases plain
    · rw [extendedEntries_plain link] at plain
      by_cases free : p.fsType = 0
      · rw [ownExtents_other (.inl free)]
        exact .unused free (ih later plain)
      · rw [ownExtents_own free link, List.map_cons, ← entryPartition_primary (words p List.mem_cons_self)]
        exact .primary free link (ih later plain)

/-- A first table whose extended entry is `p`, when the tables below it hold logical partitions only. -/
theorem walk_extended {p : TableEntry} {exts : List Extent} (words : ∀ p ∈ es, p.startLba < 2 ^ 32)
    (one : extendedEntries es = [p]) (onDisk : (below base p).1 ≤ maxLba)
    (inner : Walk sectors (below base p).2 l (below base p).1 (tableAt sectors (below base p).1)
      (exts.map Found.logical) base') :
    ∃ fs, Walk sectors base l 0 es fs base' ∧ primaries fs = ownExtents 0 es ∧ logicals fs = exts := by
  induction es with
  | nil => cases one
  | cons q rest ih =>
    have later : ∀ q ∈ rest, q.startLba < 2 ^ 32 := fun q mem => words q (List.mem_cons_of_mem _ mem)
    by_cases link : q.fsType = 5
    · rw [extendedEntries_link link, List.cons.injEq] at one
      obtain ⟨rfl, one⟩ := one
      refine ⟨_, .extended link onDisk inner (walk_plain later one), ?_, ?_⟩
      · rw [primaries_append, primaries_logical, primaries_primary, ownExtents_other (.inr link), List.nil_append]
      · rw [logicals_append, logicals_logical, logicals_primary, List.append_nil]
    · rw [extendedEntries_plain link] at one
      obtain ⟨fs, walk, prims, logs⟩ := ih later one
      by_cases free : q.fsType = 0
      · refine ⟨fs, .unused free walk, ?_, logs⟩
        rw [ownExtents_other (.inl free), prims]
      · refine ⟨_, .primary free link walk, ?_, ?_⟩
        · rw [ownExtents_own free link, entryPartition_primary (words q List.mem_cons_self), ← prims]
          rfl
        · rw [entryPartition_primary (words q List.mem_cons_self), ← logs]
          rfl

/-- The primary entries of a first table are all walked by. -/
theorem Walk.primary_count (walk : Walk sectors base l 0 es fs base') (plain : extendedEntries es = []) :
    (primaries fs).length = (ownExtents 0 es).length ∧ logicals fs = [] := by
  induction es generalizing base l fs with
  | nil =>
    cases walk
    exact ⟨rfl, rfl⟩
  | cons p rest ih =>
    cases walk with
    | unused free next =>
      rw [extendedEntries_plain (by rw [free]; decide)] at plain
      rw [ownExtents_other (.inl free)]
      exact ih next plain
    | primary used other next =>
      rw [extendedEntries_plain other] at plain
      obtain ⟨count, none⟩ := ih next plain
      rw [ownExtents_own used other, List.length_cons, ← count, ← none]
      exact ⟨rfl, rfl⟩
    | logical _ _ behind => exact absurd rfl behind
    | eighth _ _ behind => exact absurd rfl behind
    | extended link =>
      rw [extendedEntries_link link] at plain
      cases plain

/-- A walk over a first table with one extended entry has the walk below that entry inside it. -/
theorem Walk.inner {p : TableEntry} (walk : Walk sectors base l 0 es fs base') (one : extendedEntries es = [p]) :
    (Ide.below base p).1 ≤ maxLba ∧ ∃ gs base'', Walk sectors (Ide.below base p).2 l (Ide.below base p).1
      (tableAt sectors (Ide.below base p).1) gs base'' ∧
      (primaries fs).length = (ownExtents 0 es).length + (primaries gs).length ∧ logicals fs = logicals gs := by
  induction es generalizing base l fs with
  | nil => cases one
  | cons q rest ih =>
    cases walk with
    | unused free next =>
      rw [extendedEntries_plain (by rw [free]; decide)] at one
      rw [ownExtents_other (.inl free)]
      exact ih next one
    | primary used other next =>
      rw [extendedEntries_plain other] at one
      obtain ⟨onDisk, gs, base'', inner, count, logs⟩ := ih next one
      refine ⟨onDisk, gs, base'', inner, ?_, logs⟩
      rw [ownExtents_own used other, List.length_cons, Nat.add_right_comm, ← count]
      rfl
    | logical _ _ behind => exact absurd rfl behind
    | eighth _ _ behind => exact absurd rfl behind
    | extended link onDisk inner next =>
      rw [extendedEntries_link link, List.cons.injEq] at one
      obtain ⟨rfl, one⟩ := one
      obtain ⟨count, none⟩ := next.primary_count one
      refine ⟨onDisk, _, _, inner, ?_, ?_⟩
      · rw [primaries_append, List.length_append, count, ownExtents_other (.inr link), Nat.add_comm]
      · rw [logicals_append, none, List.append_nil]

end Chains

section Exactness

variable {sectors : Image} {hd base lba : Nat} {s s' : Globals} {ebrs : List Ebr}

/-- The addresses in a table are 32-bit words. -/
theorem tableAt_words : ∀ p ∈ tableAt sectors lba, p.startLba < 2 ^ 32 := by
  intro p mem
  simp only [tableAt, partitionTable, List.mem_cons, List.not_mem_nil, or_false] at mem
  rcases mem with rfl | rfl | rfl | rfl <;> exact word32_lt _ _

/-- The scan returns with just the primary partitions of the first table and the logical ones of the
chain recorded. -/
def Exact (sectors : Image) (hd : Nat) (ebrs : List Ebr) (s : Globals) : Prop :=
  ∃ fuel s', partitionScan sectors hd fuel 0 s = .ok s' ∧
    Recorded hd (ownExtents 0 (tableAt sectors 0)) (chainExtents ebrs) s.records s'.records

/-- With `ext_lba_base` left over from another disk the scan goes on in sector `lba`, not where the
chain starts, and there it comes by the same partitions. -/
def SameElsewhere (sectors : Image) (base lba : Nat) (ebrs : List Ebr) : Prop :=
  lba ≤ maxLba ∧ ∃ base', Walk sectors base 0 lba (tableAt sectors lba) ((chainExtents ebrs).map Found.logical) base'

/-- There are at most three primary partitions, and a chain is found where it is: no disk before has
set `ext_lba_base` and the driver reads the sectors of the chain, or the same partitions happen to
be found elsewhere. -/
def FindsAll (sectors : Image) (base : Nat) (ebrs : List Ebr) : Prop :=
  (ownExtents 0 (tableAt sectors 0)).length ≤ 3 ∧ ∀ p ∈ extendedEntries (tableAt sectors 0),
    (base = 0 ∧ Readable 0 ebrs) ∨ (base ≠ 0 ∧ SameElsewhere sectors base (addU32 p.startLba base) ebrs)

/-- An extended entry is scanned rightly when the tables below it hold the partitions of the chain. -/
theorem finds_iff {p : TableEntry} (disk : SlaveDisk sectors ebrs) (mem : p ∈ extendedEntries (tableAt sectors 0)) :
    ((base = 0 ∧ Readable 0 ebrs) ∨ (base ≠ 0 ∧ SameElsewhere sectors base (addU32 p.startLba base) ebrs)) ↔
      (below base p).1 ≤ maxLba ∧ ∃ base', Walk sectors (below base p).2 0 (below base p).1
        (tableAt sectors (below base p).1) ((chainExtents ebrs).map Found.logical) base' := by
  obtain ⟨start, chain⟩ := disk.chain p mem
  by_cases first : base = 0
  · have goes : below base p = (p.startLba, p.startLba) := if_neg (not_not.2 first)
    rw [goes]
    constructor
    · rintro (⟨-, readable⟩ | ⟨stale, -⟩)
      · obtain ⟨onDisk, walk⟩ := chain.walk start start (by omega) (by have := disk.few; omega) readable
        exact ⟨onDisk, _, walk⟩
      · exact absurd first stale
    · rintro ⟨onDisk, base', walk⟩
      exact .inl ⟨first, chain.readable start start (by omega) onDisk walk⟩
  · have goes : below base p = (addU32 p.startLba base, base) := if_pos first
    rw [goes]
    constructor
    · rintro (⟨zero, -⟩ | ⟨-, same⟩)
      · exact absurd zero first
      · exact same
    · intro same
      exact .inr ⟨first, same⟩

/-- **The scan of a slave disk**, as `ide_init` starts it, records what the disk holds just when
there are at most three primary partitions and the chain is looked for in its own sectors (or its
partitions are found in others by chance). -/
theorem partitionScan_exact_iff (sectors : Image) (hd : Nat) (s : Globals) (ebrs : List Ebr)
    (noPrimary : s.records.pNo = 0) (noLogical : s.records.lNo = 0) (disk : SlaveDisk sectors ebrs) :
    Exact sectors hd ebrs s ↔ FindsAll sectors s.extLbaBase ebrs := by
  have room : s.InRange := ⟨by omega, by omega⟩
  constructor
  · rintro ⟨fuel, s', scan, rec⟩
    obtain ⟨-, fs, base', walk, done⟩ := partitionScan_walk room scan
    have found : Recorded hd (primaries fs) (logicals fs) s.records (recordAll hd s.records fs) :=
      recordAll_recorded noPrimary noLogical fs
    rw [← done.records] at found
    obtain ⟨prims, logs⟩ := rec.unique found
    rw [noLogical] at walk
    refine ⟨?_, ?_⟩
    · rw [← rec.pNo]
      exact Nat.le_of_lt_succ done.inRange.1
    · intro p mem
      obtain ⟨q, one⟩ := List.length_eq_one_iff.1 (Nat.le_antisymm disk.one (List.length_pos_of_mem mem))
      have is : p = q := List.mem_singleton.1 (one ▸ mem)
      subst is
      obtain ⟨onDisk, gs, base'', inner, count, same⟩ := walk.inner one
      have none : primaries gs = [] := by
        apply List.length_eq_zero_iff.1
        rw [← prims] at count
        omega
      rw [eq_logicals none, ← same, ← logs] at inner
      exact (finds_iff disk mem).2 ⟨onDisk, base'', inner⟩
  · rintro ⟨three, finds⟩
    have walk : ∃ fs base', Walk sectors s.extLbaBase 0 0 (tableAt sectors 0) fs base' ∧
        primaries fs = ownExtents 0 (tableAt sectors 0) ∧ logicals fs = chainExtents ebrs := by
      cases exts : extendedEntries (tableAt sectors 0) with
      | nil =>
        refine ⟨_, _, walk_plain tableAt_words exts, primaries_primary, ?_⟩
        rw [logicals_primary, disk.none exts]
        rfl
      | cons p rest =>
        have mem : p ∈ extendedEntries (tableAt sectors 0) := exts ▸ List.mem_cons_self
        have none : rest = [] := by
          have one := disk.one
          rw [exts, List.length_cons] at one
          exact List.length_eq_zero_iff.1 (by omega)
        have alone : extendedEntries (tableAt sectors 0) = [p] := by rw [exts, none]
        obtain ⟨onDisk, base', inner⟩ := (finds_iff disk mem).1 (finds p mem)
        obtain ⟨fs, walk, prims, logs⟩ := walk_extended tableAt_words alone onDisk inner
        exact ⟨fs, base', walk, prims, logs⟩
    obtain ⟨fs, base', walk, prims, logs⟩ := walk
    have walk : Walk sectors s.extLbaBase s.records.lNo 0 (tableAt sectors 0) fs base' := by
      rw [noLogical]
      exact walk
    have more : (recordAll hd s.records fs).pNo < 4 := by rw [recordAll_pNo, prims]; omega
    have few : (recordAll hd s.records fs).lNo ≤ 8 := by
      have := disk.few
      rw [recordAll_lNo, logs]
      omega
    obtain ⟨fuel, s', scan, done⟩ := walk.partitionScan zero_le_maxLba room more few
    refine ⟨fuel, s', scan, ?_⟩
    rw [done.records, ← prims, ← logs]
    exact recordAll_recorded noPrimary noLogical fs

theorem threeParts_slave : SlaveDisk threeParts [⟨2, [⟨3, 1⟩]⟩, ⟨4, [⟨5, 1⟩]⟩] := by
  have exts : extendedEntries (tableAt threeParts 0) = [⟨5, 2, 4⟩] := by decide
  refine ⟨by rw [exts]; decide, ?_, (by rw [exts]; intro none; cases none), by decide⟩
  rw [exts]
  intro p mem
  cases List.mem_singleton.1 mem
  have first : usedEntries (tableAt threeParts 2) = [⟨1, 1, 1⟩] ++ [⟨5, 2, 2⟩] := by decide
  have second : usedEntries (tableAt threeParts 4) = [⟨1, 1, 1⟩] := by decide
  refine ⟨by decide, .link first ?_ ?_ ?_ rfl ?_ (.last second ?_ ?_ ?_)⟩
  all_goals decide

theorem partitionScan_exact_iff_three : Exact threeParts 1 [⟨2, [⟨3, 1⟩]⟩, ⟨4, [⟨5, 1⟩]⟩] bootGlobals :=
  (partitionScan_exact_iff threeParts 1 bootGlobals [⟨2, [⟨3, 1⟩]⟩, ⟨4, [⟨5, 1⟩]⟩] rfl rfl threeParts_slave).2
    ⟨by decide, fun _ _ => .inl ⟨rfl, by decide, fun _ => ⟨by decide, fun _ => trivial⟩⟩⟩

/-- A disk with one logical partition. -/
def oneLogical : Image := bootSectors [[⟨5, 2, 4⟩], [], [⟨1, 1, 1⟩]]

theorem oneLogical_slave : SlaveDisk oneLogical [⟨2, [⟨3, 1⟩]⟩] := by
  have exts : extendedEntries (tableAt oneLogical 0) = [⟨5, 2, 4⟩] := by decide
  refine ⟨by rw [exts]; decide, ?_, (by rw [exts]; intro none; cases none), by decide⟩
  rw [exts]
  intro p mem
  cases List.mem_singleton.1 mem
  have own : usedEntries (tableAt oneLogical 2) = [⟨1, 1, 1⟩] := by decide
  refine ⟨by decide, .last own ?_ ?_ ?_⟩
  all_goals decide

/-- A disk with four primary partitions. -/
def fourPrimaries : Image := bootSectors [[⟨1, 1, 1⟩, ⟨1, 2, 1⟩, ⟨1, 3, 1⟩, ⟨1, 4, 1⟩]]

/-- Of two slave disks with a logical partition each the second one's is not found: its table is
looked for two sectors too far. And a fourth primary partition fails the assertion. -/
theorem partitionScan_inexact :
    (SlaveDisk oneLogical [⟨2, [⟨3, 1⟩]⟩] ∧ ∃ s, (List.range 3).foldlM (initDisk 2 fun _ => oneLogical) bootGlobals = .ok s ∧
      s.records.pNo = 0 ∧ s.records.lNo = 0 ∧ ¬ Exact oneLogical 3 [⟨2, [⟨3, 1⟩]⟩] s) ∧
    SlaveDisk fourPrimaries [] ∧ stops (partitionScan fourPrimaries 1 1 0 bootGlobals) .assert = true := by
  have run : returns ((List.range 3).foldlM (initDisk 2 fun _ => oneLogical) bootGlobals) (fun s =>
      decide (s.records.pNo = 0 ∧ s.records.lNo = 0) &&
        returns (partitionScan oneLogical 3 2 0 s) fun s' => decide (s'.records.lNo = 0)) = true := by decide
  obtain ⟨s, init, test⟩ := returns_true.1 run
  rw [Bool.and_eq_true, decide_eq_true_eq, returns_true] at test
  obtain ⟨⟨noPrimary, noLogical⟩, s', scan, none⟩ := test
  refine ⟨⟨oneLogical_slave, s, init, noPrimary, noLogical, ?_⟩, ?_, by decide⟩
  · rintro ⟨fuel, s'', scan', rec⟩
    rw [← partitionScan_unique scan scan'] at rec
    have one := rec.lNo
    rw [of_decide_eq_true none] at one
    exact absurd one (by decide)
  · have exts : extendedEntries (tableAt fourPrimaries 0) = [] := by decide
    exact ⟨by rw [exts]; decide, fun _ mem => absurd (exts ▸ mem) List.not_mem_nil, fun _ => rfl, by decide⟩

end Exactness

section Init

variable {sectors : Image} {drives : Nat → Image} {base base' l lba fuel hd channelCnt : Nat} {s s' : Globals} {es : List TableEntry}
  {fs : List Found}

theorem plain_tail {p : TableEntry} (plain : extendedEntries (p :: es) = []) : extendedEntries es = [] := by
  rw [extendedEntries, List.filter_eq_nil_iff] at plain ⊢
  exact fun q mem => plain q (List.mem_cons_of_mem _ mem)

/-- Only an extended entry changes the base. -/
theorem Walk.base_eq (walk : Walk sectors base l lba es fs base') (plain : extendedEntries es = []) : base' = base := by
  induction walk with
  | done => rfl
  | unused free _ ih => exact ih (plain_tail plain)
  | primary _ _ _ ih => exact ih (plain_tail plain)
  | logical _ _ _ _ _ ih => exact ih (plain_tail plain)
  | eighth => rfl
  | extended link =>
    rw [extendedEntries_link link] at plain
    cases plain

/-- `ide_init` names disk `hd`, scans it unless it is the first one of its channel, and resets the counts. -/
theorem initDisk_cases (init : initDisk fuel drives s hd = .ok s') :
    ∃ u t, (u.extLbaBase = s.extLbaBase ∧ u.records.pNo = s.records.pNo ∧ u.records.lNo = s.records.lNo) ∧
      (hd % 2 = 1 ∧ partitionScan (drives hd) hd fuel 0 u = .ok t ∨ hd % 2 = 0 ∧ t = u) ∧
      s'.extLbaBase = t.extLbaBase ∧ s'.records.pNo = 0 ∧ s'.records.lNo = 0 := by
  simp only [initDisk] at init
  split at init
  · rename_i slave
    simp only [bind_ok, pure_ok] at init
    obtain ⟨t, scan, rfl⟩ := init
    refine ⟨_, t, ?_, .inl ⟨by omega, scan⟩, rfl, rfl, rfl⟩
    exact ⟨rfl, rfl, rfl⟩
  · rename_i master
    simp only [bind_ok, pure_ok] at init
    obtain ⟨u, isU, rfl⟩ := init
    refine ⟨u, u, ?_, .inr ⟨by omega, rfl⟩, rfl, rfl, rfl⟩
    rw [← isU]
    exact ⟨rfl, rfl, rfl⟩

/-- The base changes on a disk with an extended partition only. -/
theorem initDisk_ok (noPrimary : s.records.pNo = 0) (noLogical : s.records.lNo = 0) (init : initDisk fuel drives s hd = .ok s') :
    (s'.records.pNo = 0 ∧ s'.records.lNo = 0) ∧
      (hd % 2 = 1 ∧ extendedEntries (tableAt (drives hd) 0) ≠ [] ∨ s'.extLbaBase = s.extLbaBase) := by
  obtain ⟨u, t, ⟨base, pNo, lNo⟩, ⟨slave, scan⟩ | ⟨-, rfl⟩, base', counts⟩ := initDisk_cases init
  · refine ⟨counts, ?_⟩
    by_cases plain : extendedEntries (tableAt (drives hd) 0) = []
    · have room : u.InRange := ⟨by omega, by omega⟩
      obtain ⟨-, fs, base'', walk, done⟩ := partitionScan_walk room scan
      exact .inr (base'.trans (done.base.trans ((walk.base_eq plain).trans base)))
    · exact .inl ⟨slave, plain⟩
  · exact ⟨counts, .inr (base'.trans base)⟩

/-- The globals when `ide_init` comes to disk `hd`. -/
theorem beforeDisk_ok : ∀ (hd : Nat) {s : Globals}, (List.range hd).foldlM (initDisk fuel drives) bootGlobals = .ok s →
    (s.records.pNo = 0 ∧ s.records.lNo = 0) ∧
      (s.extLbaBase ≠ 0 → ∃ k, k < hd ∧ k % 2 = 1 ∧ extendedEntries (tableAt (drives k) 0) ≠ []) := by
  intro hd
  induction hd with
  | zero =>
    intro s h
    cases h
    exact ⟨⟨rfl, rfl⟩, fun some => absurd rfl some⟩
  | succ hd ih =>
    intro s h
    rw [List.range_succ, List.foldlM_append] at h
    simp only [bind_ok, List.foldlM_cons, List.foldlM_nil, pure_ok] at h
    obtain ⟨s1, before, s2, init, rfl⟩ := h
    obtain ⟨⟨noPrimary, noLogical⟩, base⟩ := ih before
    obtain ⟨counts, here | same⟩ := initDisk_ok noPrimary noLogical init
    · exact ⟨counts, fun _ => ⟨hd, Nat.lt_succ_self hd, here⟩⟩
    · refine ⟨counts, fun some => ?_⟩
      rw [same] at some
      obtain ⟨k, lt, link⟩ := base some
      exact ⟨k, Nat.lt_succ_of_lt lt, link⟩

/-- **`ide_init`** scans every slave disk with both counts at 0. The base is still 0 unless a disk before
has an extended partition. -/
theorem ideInit_scans (init : ideInit fuel drives channelCnt = .ok s') (inside : hd < 2 * channelCnt) (slave : hd % 2 = 1) :
    ∃ s t, partitionScan (drives hd) hd fuel 0 s = .ok t ∧ s.records.pNo = 0 ∧ s.records.lNo = 0 ∧
      (s.extLbaBase ≠ 0 → ∃ k, k < hd ∧ k % 2 = 1 ∧ extendedEntries (tableAt (drives k) 0) ≠ []) := by
  obtain ⟨rest, isRest⟩ : ∃ rest, 2 * channelCnt = hd + 1 + rest := ⟨2 * channelCnt - (hd + 1), by omega⟩
  rw [ideInit, isRest, List.range_add, List.range_succ, List.append_assoc, List.foldlM_append] at init
  simp only [bind_ok, List.foldlM_append, List.foldlM_cons, List.foldlM_nil, pure_ok] at init
  obtain ⟨s, before, _, ⟨_, scanned, rfl⟩, -⟩ := init
  obtain ⟨⟨noPrimary, noLogical⟩, base⟩ := beforeDisk_ok hd before
  obtain ⟨u, t, ⟨isBase, pNo, lNo⟩, ⟨-, scan⟩ | ⟨master, -⟩, -⟩ := initDisk_cases scanned
  · exact ⟨u, t, scan, pNo.trans noPrimary, lNo.trans noLogical, fun some => base (isBase ▸ some)⟩
  · omega

end Init

end Sparrow.Ide
