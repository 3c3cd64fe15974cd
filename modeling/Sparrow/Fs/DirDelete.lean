import Sparrow.Fs.DirInsert

/-!
# Removing an entry from a directory

`delete_dir_entry` looks for the entry with a number, block by block. The entry goes
alone, or with its block when it was the last one there. `deleteDirEntry_ok` says what it
did.
-/

namespace Sparrow
set_option autoImplicit false

/-- The directory lost the entry `x` from slot `j₀` of block `k₀`; its inode is stored. -/
structure Removed (part : Partition) (n : Nat) (v v' : Vnode) (x : Item) (k₀ j₀ : Nat) : Prop where
  was : ItemAt v k₀ j₀ x
  ordinary : x.Ordinary
  items : ∀ k j y, ItemAt v' k j y ↔ ItemAt v k j y ∧ ¬ (k = k₀ ∧ j = j₀)
  used : ∀ k j, k < 140 → j < 21 → blockRef v'.disk v'.inode k ≠ 0 →
    (entryAt v'.disk v'.inode k j).Dead ∨ ∃ y : Item, entryAt v'.disk v'.inode k j = y.entry
  blocks : (v'.blockBitmap = v.blockBitmap ∧ (∀ k, k < 141 → blockRef v'.disk v'.inode k = blockRef v.disk v.inode k) ∧
      (0 < k₀ → ∃ j y, ItemAt v k₀ j y ∧ j ≠ j₀)) ∨
    (0 < k₀ ∧ k₀ < 12 ∧ (∀ j y, ItemAt v k₀ j y → j = j₀) ∧
      (∀ k, k < 141 → blockRef v'.disk v'.inode k = Function.update (blockRef v.disk v.inode) k₀ 0 k) ∧
      ∃ i, 0 < i ∧ i < n ∧ blockRef v.disk v.inode k₀ = part.sb.dataStartLba + i ∧
        v'.blockBitmap = bitmapSet v.blockBitmap i false)
  step : DiskStep part (fun lba => lba = blockRef v.disk v.inode k₀) (fun m => m = v.inode.iNo % 256) v.disk v'.disk
  stored : SlotHolds part v'.disk (v.inode.iNo % 256) v'.inode
  synced : ∀ X, SyncedBut part X v.disk v.blockBitmap → SyncedBut part X v'.disk v'.blockBitmap
  inode : v'.inode = { v.inode with iSize := v.inode.iSize - direntSize, iSectors := v'.inode.iSectors }
  size : direntSize ≤ v.inode.iSize

section Scan

variable {buf : Image} {inodeNo : Nat} {sc sc' : BlockScan} {j : Nat}

theorem scanEntry_dead (dead : (decodeDirent buf 0 j).Dead) : scanEntry buf inodeNo sc j = .ok sc := by
  rw [scanEntry, if_neg (fun h => h dead.1)]
  rfl

/-- What one turn of the scan does at an entry in use. -/
theorem scanEntry_item {x : Item} (entry : decodeDirent buf 0 j = x.entry) (h : scanEntry buf inodeNo sc j = .ok sc') :
    (x.name = .dot ∧ sc' = { sc with isDirFirstBlock := true }) ∨ (x.name = .dotDot ∧ sc' = sc) ∨
      (x.Ordinary ∧ x.iNo = inodeNo ∧ sc.entryFound = none ∧
        sc' = { sc with entryCnt := sc.entryCnt + 1, entryFound := some j }) ∨
      (x.Ordinary ∧ x.iNo ≠ inodeNo ∧ sc' = { sc with entryCnt := sc.entryCnt + 1 }) := by
  have isDot := strEq_item entry .dot
  have isDotDot := strEq_item entry .dotDot
  simp only [Nat.zero_add] at isDot isDotDot
  simp only [scanEntry, entry, ne_eq, x.fType_ne, not_false_eq_true, if_true] at h
  split at h
  · rename_i eq
    rw [pure_ok] at h
    exact .inl ⟨isDot.1 eq, h.symm⟩
  rename_i notDot
  split at h
  · rename_i notDotDot
    have ordinary : x.Ordinary := by
      refine ⟨fun e => notDot (isDot.2 e), fun e => ?_⟩
      rw [show strEq buf (direntSize * j) dotDot = true from isDotDot.2 e] at notDotDot
      cases notDotDot
    split at h
    · rename_i same
      simp only [bind_ok, assertThat_ok, pure_ok, exists_const] at h
      exact .inr (.inr (.inl ⟨ordinary, same, h.1, h.2.symm⟩))
    · rename_i other
      rw [pure_ok] at h
      exact .inr (.inr (.inr ⟨ordinary, other, h.symm⟩))
  · rename_i eq
    rw [pure_ok] at h
    simp only [Bool.not_eq_true', Bool.not_eq_false] at eq
    exact .inr (.inl ⟨isDotDot.1 eq, h.symm⟩)

/-- An ordinary entry stands in slot `j`. -/
def OrdinaryAt (buf : Image) (j : Nat) : Prop := ∃ x : Item, decodeDirent buf 0 j = x.entry ∧ x.Ordinary

/-- The entry looked for stands in slot `j`. -/
def HitAt (buf : Image) (inodeNo j : Nat) : Prop :=
  ∃ x : Item, decodeDirent buf 0 j = x.entry ∧ x.Ordinary ∧ x.iNo = inodeNo

/-- What is known after the slots below `m` were scanned. Of the number of entries only
none, one and several matter. -/
structure Scanned (buf : Image) (inodeNo m : Nat) (sc : BlockScan) : Prop where
  found : ∀ j, sc.entryFound = some j → j < m ∧ HitAt buf inodeNo j
  missed : sc.entryFound = none → ∀ j, j < m → ¬ HitAt buf inodeNo j
  zero : sc.entryCnt = 0 → ∀ j, j < m → ¬ OrdinaryAt buf j
  any : 0 < sc.entryCnt → ∃ j, j < m ∧ OrdinaryAt buf j
  one : sc.entryCnt = 1 → ∀ j j', j < m → j' < m → OrdinaryAt buf j → OrdinaryAt buf j' → j = j'
  several : 1 < sc.entryCnt → ∃ j j', j < m ∧ j' < m ∧ j ≠ j' ∧ OrdinaryAt buf j ∧ OrdinaryAt buf j'
  first : sc.isDirFirstBlock = true ↔ ∃ j x, j < m ∧ decodeDirent buf 0 j = Item.entry x ∧ x.name = .dot

theorem scanned_zero : Scanned buf inodeNo 0 ⟨none, 0, false⟩ :=
  ⟨nofun, fun _ _ lt => by omega, fun _ _ lt => by omega, fun h => by simp at h, fun h => by simp at h,
    fun h => by simp at h, ⟨nofun, fun ⟨_, _, lt, _⟩ => by omega⟩⟩

/-- A slot that is not counted. -/
theorem Scanned.skip {m : Nat} {first : Bool} (h : Scanned buf inodeNo m sc) (plain : ¬ OrdinaryAt buf m)
    (dot : first = true ↔ sc.isDirFirstBlock = true ∨ ∃ x : Item, decodeDirent buf 0 m = x.entry ∧ x.name = .dot) :
    Scanned buf inodeNo (m + 1) { sc with isDirFirstBlock := first } := by
  have hit : ¬ HitAt buf inodeNo m := fun ⟨x, e, ord, _⟩ => plain ⟨x, e, ord⟩
  have last : ∀ {j}, j < m + 1 → j ≠ m → j < m := fun lt ne => by omega
  refine ⟨fun j e => ?_, fun e j lt => ?_, fun e j lt => ?_, fun e => ?_, fun e j j' lt lt' o o' => ?_, fun e => ?_, ?_⟩
  · obtain ⟨lt, hit⟩ := h.found j e
    exact ⟨by omega, hit⟩
  · by_cases eq : j = m
    · rwa [eq]
    · exact h.missed e j (last lt eq)
  · by_cases eq : j = m
    · rwa [eq]
    · exact h.zero e j (last lt eq)
  · obtain ⟨j, lt, o⟩ := h.any e
    exact ⟨j, by omega, o⟩
  · exact h.one e j j' (last lt fun eq => plain (eq ▸ o)) (last lt' fun eq => plain (eq ▸ o')) o o'
  · obtain ⟨j, j', lt, lt', rest⟩ := h.several e
    exact ⟨j, j', by omega, by omega, rest⟩
  · simp only [dot, h.first]
    constructor
    · rintro (⟨j, x, lt, rest⟩ | ⟨x, rest⟩)
      · exact ⟨j, x, by omega, rest⟩
      · exact ⟨m, x, by omega, rest⟩
    · rintro ⟨j, x, lt, e, is⟩
      by_cases eq : j = m
      · exact .inr ⟨x, eq ▸ e, is⟩
      · exact .inl ⟨j, x, last lt eq, e, is⟩

/-- An ordinary entry more. -/
theorem Scanned.count {m : Nat} {found : Option Nat} (h : Scanned buf inodeNo m sc) (ordinary : OrdinaryAt buf m)
    (hits : ∀ j, found = some j → j < m + 1 ∧ HitAt buf inodeNo j)
    (misses : found = none → ∀ j, j < m + 1 → ¬ HitAt buf inodeNo j) :
    Scanned buf inodeNo (m + 1) ⟨found, sc.entryCnt + 1, sc.isDirFirstBlock⟩ := by
  refine ⟨hits, misses, fun e => by simp at e, fun _ => ⟨m, by omega, ordinary⟩, fun e j j' lt lt' o o' => ?_, fun e => ?_, ?_⟩
  · simp only [Nat.add_eq_right] at e
    have zero := h.zero e
    have is : ∀ l, l < m + 1 → OrdinaryAt buf l → l = m := by
      intro l ltl ol
      by_contra ne
      exact zero l (by omega) ol
    rw [is j lt o, is j' lt' o']
  · obtain ⟨j, lt, o⟩ := h.any (by simp only at e; omega)
    exact ⟨j, m, by omega, by omega, by omega, o, ordinary⟩
  · rw [h.first]
    constructor
    · rintro ⟨j, x, lt, rest⟩
      exact ⟨j, x, by omega, rest⟩
    · rintro ⟨j, x, lt, e, is⟩
      refine ⟨j, x, ?_, e, is⟩
      by_contra ge
      obtain ⟨y, ey, ord⟩ := ordinary
      have : j = m := by omega
      subst this
      exact ord.1 (Item.entry_inj (ey.symm.trans e) ▸ is)

/-- The inner loop of `delete_dir_entry` over a block whose slots are dead or in use. -/
theorem scan_spec (used : ∀ j, j < 21 → (decodeDirent buf 0 j).Dead ∨ ∃ x : Item, decodeDirent buf 0 j = x.entry) :
    ∀ m sc, m ≤ 21 → (List.range m).foldlM (scanEntry buf inodeNo) ⟨none, 0, false⟩ = .ok sc →
      Scanned buf inodeNo m sc := by
  intro m
  induction m with
  | zero =>
    intro sc _ h
    simp only [List.range_zero, List.foldlM_nil, pure_ok] at h
    subst h
    exact scanned_zero
  | succ m ih =>
    intro sc le h
    rw [List.range_succ, List.foldlM_append, bind_ok] at h
    obtain ⟨sc₁, before, h⟩ := h
    simp only [List.foldlM_cons, List.foldlM_nil, bind_ok, pure_ok, exists_eq_right] at h
    have scanned := ih sc₁ (by omega) before
    obtain dead | ⟨x, entry⟩ := used m (by omega)
    · rw [scanEntry_dead dead] at h
      cases h
      refine scanned.skip (fun ⟨y, e, _⟩ => y.not_dead (e ▸ dead)) ⟨.inl, ?_⟩
      rintro (first | ⟨y, e, -⟩)
      · exact first
      · exact absurd (e ▸ dead) y.not_dead
    · have only : ∀ y : Item, decodeDirent buf 0 m = y.entry → y = x := fun y e => Item.entry_inj (e.symm.trans entry)
      obtain ⟨dot, rfl⟩ | ⟨dotDot, rfl⟩ | ⟨ord, same, -, rfl⟩ | ⟨ord, other, rfl⟩ := scanEntry_item entry h
      · exact scanned.skip (fun ⟨y, e, ord⟩ => ord.1 (only y e ▸ dot)) ⟨fun _ => .inr ⟨x, entry, dot⟩, fun _ => rfl⟩
      · refine scanned.skip (fun ⟨y, e, ord⟩ => ord.2 (only y e ▸ dotDot)) ⟨.inl, ?_⟩
        rintro (first | ⟨y, e, is⟩)
        · exact first
        · rw [only y e, dotDot] at is
          exact absurd is (by decide)
      · refine scanned.count ⟨x, entry, ord⟩ (fun j e => ?_) (fun e => by cases e)
        cases e
        exact ⟨by omega, x, entry, ord, same⟩
      · refine scanned.count ⟨x, entry, ord⟩ (fun j e => ?_) (fun e j lt => ?_)
        · obtain ⟨lt, hit⟩ := scanned.found j e
          exact ⟨by omega, hit⟩
        · by_cases eq : j = m
          · rintro ⟨y, e', -, is⟩
            rw [eq] at e'
            exact other (only y e' ▸ is)
          · exact scanned.missed e j (by omega)

end Scan

section Erase

variable {part : Partition} {n : Nat} {v v' w : Vnode} {x : Item} {selfNo parentNo k j : Nat}

/-- The inode is stored after the entry is gone. -/
theorem storeInode_ok (lay : Layout part n) {disk' : Image} {ino : Inode} (h : inodeSync part w.disk ino = .ok disk') :
    DiskStep part (fun _ => False) (fun m => m = ino.iNo % 256) w.disk disk' ∧ SlotHolds part disk' (ino.iNo % 256) ino ∧
      ∀ X b, SyncedBut part X w.disk b → SyncedBut part X disk' b := by
  refine ⟨inodeSync_step lay h, ?_, ?_⟩
  · rw [inodeSync_ok h]
    exact fun i hi => splice_at hi
  · intro X b synced
    rw [inodeSync_ok h]
    have := lay.inodeTableLba
    exact synced.behind lay (by simp only [slotAddr]; omega)

/-- The entries of `.` and `..` stand in the first block. -/
theorem DirSlots.ordinary_of_pos (wf : DirSlots part n v selfNo parentNo) (pos : 0 < k) (at_ : ItemAt v k j x) : x.Ordinary := by
  by_contra dots
  have := (wf.dots k j x at_ dots).1
  omega

/-- The slot is zeroed. -/
theorem removed_slot (lay : Layout part n) (wf : DirSlots part n v selfNo parentNo) (was : ItemAt v k j x) (ord : x.Ordinary)
    (rest : 0 < k → ∃ j' y, ItemAt v k j' y ∧ j' ≠ j) (size : direntSize ≤ v.inode.iSize) {disk' : Image}
    (stored : inodeSync part (splice v.disk (512 * blockRef v.disk v.inode k + direntSize * j) direntSize fun _ => 0#8)
      { v.inode with iSize := v.inode.iSize - direntSize } = .ok disk') :
    Removed part n v ⟨disk', v.blockBitmap, { v.inode with iSize := v.inode.iSize - direntSize }⟩ x k j := by
  have lt := was.block
  have block := wf.blocks.block k (by omega) was.has
  obtain ⟨step₂, holds, synced₂⟩ := storeInode_ok
    (w := ⟨splice v.disk (512 * blockRef v.disk v.inode k + direntSize * j) direntSize fun _ => 0#8, v.blockBitmap, v.inode⟩)
    lay stored
  have step₁ : DiskStep part (fun lba => lba = blockRef v.disk v.inode k) (fun _ => False) v.disk
      (splice v.disk (512 * blockRef v.disk v.inode k + direntSize * j) direntSize fun _ => 0#8) := by
    have ltj := was.slot
    rw [← splice_shifted (n := 512 * 1) (by simp only [direntSize]; omega)]
    exact diskStep_data lay _ _ block.ge
  have step : DiskStep part (fun lba => lba = blockRef v.disk v.inode k) (fun m => m = v.inode.iNo % 256) v.disk disk' :=
    (step₁.mono (fun _ h => h) (fun _ h => h.elim)).trans (step₂.mono (fun _ h => h.elim) (fun _ h => h))
  have refs : ∀ k', k' < 141 → blockRef disk' { v.inode with iSize := v.inode.iSize - direntSize } k' =
      blockRef v.disk v.inode k' := by
    intro k' lt'
    refine blockRef_congr (fun _ => rfl) (fun h => step.data _ (wf.blocks.block 140 (by omega) h).ge fun e => ?_) lt'
    exact absurd (wf.blocks.inj 140 k (by omega) (by omega) h e) (by omega)
  -- the entries are those before the inode was stored
  have mid : ∀ k' j', k' < 140 → j' < 21 → blockRef v.disk v.inode k' ≠ 0 →
      entryAt disk' { v.inode with iSize := v.inode.iSize - direntSize } k' j' =
        decodeDirent (splice v.disk (512 * blockRef v.disk v.inode k + direntSize * j) direntSize fun _ => 0#8)
          (512 * blockRef v.disk v.inode k') j' := by
    intro k' j' lt' ltj' has'
    rw [entryAt, refs k' (by omega)]
    apply decodeDirent_congr
    intro i hi
    simp only [direntSize] at hi ⊢
    rw [Nat.add_assoc]
    exact step₂.data _ (wf.blocks.block k' (by omega) has').ge id _ (by omega)
  have mine : (entryAt disk' { v.inode with iSize := v.inode.iSize - direntSize } k j).Dead := by
    rw [mid k j lt was.slot was.has]
    exact decodeDirent_dead fun i hi => splice_at hi
  have other : ∀ k' j', k' < 140 → j' < 21 → blockRef v.disk v.inode k' ≠ 0 → ¬ (k' = k ∧ j' = j) →
      entryAt disk' { v.inode with iSize := v.inode.iSize - direntSize } k' j' = entryAt v.disk v.inode k' j' := by
    intro k' j' lt' ltj' has' ne
    rw [mid k' j' lt' ltj' has', entryAt]
    apply decodeDirent_other was.slot ltj'
    by_cases e : k' = k
    · exact .inr fun ej => ne ⟨e, ej⟩
    · exact .inl fun eb => e (wf.blocks.inj k' k (by omega) (by omega) has' eb)
  refine ⟨was, ord, fun k' j' y => ?_, fun k' j' lt' ltj' has' => ?_, .inl ⟨rfl, refs, rest⟩, step, holds,
    fun X h => synced₂ X _ (h.behind lay ?_), rfl, size⟩
  · constructor
    · intro at_
      have has' := at_.has
      rw [refs k' (by have := at_.block; omega)] at has'
      have ne : ¬ (k' = k ∧ j' = j) := by
        rintro ⟨rfl, rfl⟩
        exact y.not_dead (at_.entry ▸ mine)
      exact ⟨⟨at_.block, at_.slot, has', (other k' j' at_.block at_.slot has' ne).symm.trans at_.entry⟩, ne⟩
    · rintro ⟨at_, ne⟩
      refine ⟨at_.block, at_.slot, ?_, (other k' j' at_.block at_.slot at_.has ne).trans at_.entry⟩
      rw [refs k' (by have := at_.block; omega)]
      exact at_.has
  · rw [refs k' (by omega)] at has'
    by_cases e : k' = k ∧ j' = j
    · obtain ⟨rfl, rfl⟩ := e
      exact .inl mine
    · rw [other k' j' lt' ltj' has' e]
      exact wf.used k' j' lt' ltj' has'
  · have h1 := lay.dataStartLba
    have h2 := lay.inodeTableLba
    have := block.ge
    omega

/-- The block is given back with its last entry. -/
theorem removed_block (lay : Layout part n) (wf : DirSlots part n v selfNo parentNo) (was : ItemAt v k j x) (ord : x.Ordinary)
    (pos : 0 < k) (direct : k < 12) (only : ∀ j' y, ItemAt v k j' y → j' = j) (size : direntSize ≤ v.inode.iSize)
    {i : Nat} {disk₁ disk' : Image} (posi : 0 < i) (inside : i < n)
    (is : blockRef v.disk v.inode k = part.sb.dataStartLba + i)
    (written : syncBlock part v.disk (bitmapSet v.blockBitmap i false) (part.sb.dataStartLba + i) = .ok disk₁)
    (stored : inodeSync part disk₁ { v.inode.setSec k 0 with iSize := v.inode.iSize - direntSize } = .ok disk') :
    Removed part n v ⟨disk', bitmapSet v.blockBitmap i false,
      { v.inode.setSec k 0 with iSize := v.inode.iSize - direntSize }⟩ x k j := by
  obtain ⟨step₂, holds, synced₂⟩ := storeInode_ok (w := ⟨disk₁, v.blockBitmap, v.inode⟩) lay stored
  have step₁ := syncBlock_step lay inside written
  have step : DiskStep part (fun _ => False) (fun m => m = v.inode.iNo % 256) v.disk disk' :=
    (step₁.mono (fun _ h => h) (fun _ h => h.elim)).trans step₂
  have same : ∀ k', k' < 141 → blockRef v.disk v.inode k' ≠ 0 → SameSector v.disk disk' (blockRef v.disk v.inode k') :=
    fun k' lt' has' => step.data _ (wf.blocks.block k' lt' has').ge id
  have refs : ∀ k', k' < 141 → blockRef disk' { v.inode.setSec k 0 with iSize := v.inode.iSize - direntSize } k' =
      Function.update (blockRef v.disk v.inode) k 0 k' :=
    fun k' lt' => blockRef_setDirect direct (fun l => v.inode.sec_setSec (by omega)) (same 140 (by omega)) lt'
  have other : ∀ k' j', k' < 140 → j' < 21 → blockRef v.disk v.inode k' ≠ 0 → k' ≠ k →
      entryAt disk' { v.inode.setSec k 0 with iSize := v.inode.iSize - direntSize } k' j' = entryAt v.disk v.inode k' j' := by
    intro k' j' lt' ltj' has' ne
    exact entryAt_congr ((refs k' (by omega)).trans (Function.update_of_ne ne ..)) (same k' (by omega) has') ltj'
  have gone : blockRef disk' { v.inode.setSec k 0 with iSize := v.inode.iSize - direntSize } k = 0 := by
    rw [refs k (by omega), Function.update_self]
  have kept : ∀ k', k' < 140 → k' ≠ k → blockRef disk' { v.inode.setSec k 0 with iSize := v.inode.iSize - direntSize } k' =
      blockRef v.disk v.inode k' := fun k' lt' ne => (refs k' (by omega)).trans (Function.update_of_ne ne ..)
  refine ⟨was, ord, fun k' j' y => ?_, fun k' j' lt' ltj' has' => ?_,
    .inr ⟨pos, direct, only, refs, i, posi, inside, is, rfl⟩, step.mono (fun _ h => h.elim) (fun _ h => h), holds,
    fun X h => synced₂ X _ (h.set lay inside written), rfl, size⟩
  · constructor
    · intro at_
      have ne : k' ≠ k := fun e => at_.has (e ▸ gone)
      have has' := at_.has
      rw [kept k' at_.block ne] at has'
      exact ⟨⟨at_.block, at_.slot, has', (other k' j' at_.block at_.slot has' ne).symm.trans at_.entry⟩, fun e => ne e.1⟩
    · rintro ⟨at_, ne⟩
      have ne : k' ≠ k := by
        rintro rfl
        exact ne ⟨rfl, only j' y at_⟩
      refine ⟨at_.block, at_.slot, ?_, (other k' j' at_.block at_.slot at_.has ne).trans at_.entry⟩
      rw [kept k' at_.block ne]
      exact at_.has
  · have ne : k' ≠ k := fun e => has' (e ▸ gone)
    rw [kept k' lt' ne] at has'
    rw [other k' j' lt' ltj' has' ne]
    exact wf.used k' j' lt' ltj' has'

end Erase

section Delete

variable {part : Partition} {n : Nat} {v v' : Vnode} {x : Item} {selfNo parentNo inodeNo : Nat} {all : Nat → Nat}

/-- The entry found goes. -/
theorem deleteFound_ok (lay : Layout part n) (wf : DirSlots part n v selfNo parentNo)
    (refs : ∀ k, k < 140 → all k = blockRef v.disk v.inode k) {k j : Nat} {sc : BlockScan} (lt : k < 140)
    (has : blockRef v.disk v.inode k ≠ 0)
    (scanned : Scanned (shifted v.disk (512 * blockRef v.disk v.inode k)) inodeNo 21 sc) (found : sc.entryFound = some j)
    (h : deleteFound part v all (shifted v.disk (512 * blockRef v.disk v.inode k)) k j sc = .ok v') :
    ∃ x, x.iNo = inodeNo ∧ Removed part n v v' x k j := by
  obtain ⟨ltj, x, entry, ord, number⟩ := scanned.found j found
  rw [decodeDirent_shifted] at entry
  have was : ItemAt v k j x := ⟨lt, ltj, has, entry⟩
  refine ⟨x, number, ?_⟩
  have toItem : ∀ {j y}, j < 21 → decodeDirent (shifted v.disk (512 * blockRef v.disk v.inode k)) 0 j = Item.entry y →
      ItemAt v k j y := fun lt e => ⟨‹_›, lt, has, by rw [decodeDirent_shifted] at e; exact e⟩
  have ofItem : ∀ {j y}, ItemAt v k j y →
      decodeDirent (shifted v.disk (512 * blockRef v.disk v.inode k)) 0 j = Item.entry y := fun at_ => by
    rw [decodeDirent_shifted]; exact at_.entry
  -- the first block is the one with the entry `.`
  have firstIff : sc.isDirFirstBlock = true ↔ k = 0 := by
    obtain ⟨y, dot, isDot, -⟩ := wf.dot
    rw [scanned.first]
    constructor
    · rintro ⟨j', z, lt', e, is⟩
      exact (wf.dots _ _ _ (toItem lt' e) (Item.not_ordinary.2 (.inl is))).1
    · rintro rfl
      exact ⟨0, y, by omega, ofItem dot, isDot⟩
  simp only [deleteFound, eraseEntry, bind_ok, assertThat_ok, exists_const, lay.dirEntrySize, refs k lt] at h
  obtain ⟨counted, w, erased, size, disk', stored, h⟩ := h
  rw [pure_ok] at h
  subst h
  split at erased
  · -- the last entry of a block that is not the first
    rename_i last
    have pos : 0 < k := by
      rcases Nat.eq_zero_or_pos k with zero | pos
      · rw [firstIff.2 zero] at last
        exact absurd last.2 (by decide)
      · exact pos
    obtain ⟨i, inside, is, -⟩ := wf.blocks.block k (by omega) has
    simp only [reclaimBlock, bitmapClear, bind_ok, defined_ok, pure_ok, exists_const] at erased
    rw [is, lay.index inside] at erased
    obtain ⟨_, ⟨b, ⟨-, rfl⟩, disk₁, written, rfl⟩, erased⟩ := erased
    split at erased
    · rename_i direct
      rw [pure_ok] at erased
      subst erased
      have posi : 0 < i := by
        rcases Nat.eq_zero_or_pos i with rfl | posi
        · exact absurd is (wf.notRoot k pos (by omega))
        · exact posi
      have written' : syncBlock part v.disk (bitmapSet v.blockBitmap i false) (part.sb.dataStartLba + i) = .ok disk₁ := by
        rw [syncBlock, lay.index inside]
        exact written
      refine removed_block lay wf was ord pos direct (fun j' y at_ => ?_) size posi inside is written' stored
      exact scanned.one last.1 j' j at_.slot ltj ⟨y, ofItem at_, wf.ordinary_of_pos pos at_⟩ ⟨x, ofItem was, ord⟩
    · rw [throw_ok] at erased
      exact erased.elim
  · rename_i notLast
    simp only [bind_ok, ideWrite_ok, pure_ok] at erased
    obtain ⟨disk₁, ⟨-, rfl⟩, rfl⟩ := erased
    simp only [fill_eq_splice] at stored
    rw [splice_shifted (by simp only [direntSize]; omega)] at stored
    refine removed_slot lay wf was ord (fun pos => ?_) size stored
    have several : 1 < sc.entryCnt := by
      by_contra few
      refine notLast ⟨by omega, ?_⟩
      rw [Bool.eq_false_iff]
      intro first
      have := firstIff.1 first
      omega
    obtain ⟨a, b, lta, ltb, ne, ⟨y, ey, -⟩, z, ez, -⟩ := scanned.several several
    by_cases e : a = j
    · exact ⟨b, z, toItem ltb ez, fun h => ne (e.trans h.symm)⟩
    · exact ⟨a, y, toItem lta ey, e⟩

/-- Where the loop of `delete_dir_entry` stops. -/
theorem deleteBlocks_ok (lay : Layout part n) (wf : DirSlots part n v selfNo parentNo)
    (refs : ∀ k, k < 140 → all k = blockRef v.disk v.inode k) {ok : Bool} :
    ∀ l : List Nat, (∀ k ∈ l, k < 140) → deleteBlocks part v all inodeNo l = .ok (ok, v') →
      (ok = false ∧ v' = v ∧ ∀ k ∈ l, ∀ j y, ItemAt v k j y → y.Ordinary → y.iNo ≠ inodeNo) ∨
        (ok = true ∧ ∃ k j x, x.iNo = inodeNo ∧ Removed part n v v' x k j) := by
  intro l
  induction l with
  | nil =>
    intro _ h
    simp only [deleteBlocks, pure_ok] at h
    cases h
    exact .inl ⟨rfl, rfl, by simp⟩
  | cons k rest ih =>
    intro bound h
    have lt := bound k List.mem_cons_self
    have ih := ih fun k' mem => bound k' (List.mem_cons_of_mem _ mem)
    simp only [deleteBlocks, refs k lt] at h
    -- the rest of the blocks, when this one has no such entry
    have next : (∀ j y, ItemAt v k j y → y.Ordinary → y.iNo ≠ inodeNo) → deleteBlocks part v all inodeNo rest = .ok (ok, v') →
        (ok = false ∧ v' = v ∧ ∀ k' ∈ k :: rest, ∀ j y, ItemAt v k' j y → y.Ordinary → y.iNo ≠ inodeNo) ∨
          (ok = true ∧ ∃ k j x, x.iNo = inodeNo ∧ Removed part n v v' x k j) := by
      intro absent h
      obtain ⟨no, same, others⟩ | found := ih h
      · refine .inl ⟨no, same, fun k' mem => ?_⟩
        rcases List.mem_cons.1 mem with rfl | mem
        · exact absent
        · exact others k' mem
      · exact .inr found
    split at h
    · rename_i zero
      exact next (fun j y at_ => absurd zero at_.has) h
    rename_i has
    have slots : 512 / direntSize = 21 := rfl
    simp only [bind_ok, ideRead_ok, lay.dirEntrySize, slots] at h
    obtain ⟨buf, ⟨-, rfl⟩, sc, scan, h⟩ := h
    have scanned := scan_spec (fun j ltj => by
      rw [decodeDirent_shifted]
      exact wf.used k j lt ltj has) 21 sc (by omega) scan
    split at h
    · rename_i missed
      refine next (fun j y at_ ord same => ?_) h
      exact scanned.missed missed j at_.slot ⟨y, by rw [decodeDirent_shifted]; exact at_.entry, ord, same⟩
    · rename_i j found
      simp only [bind_ok, pure_ok] at h
      obtain ⟨w, deleted, h⟩ := h
      cases h
      obtain ⟨x, number, removed⟩ := deleteFound_ok lay wf refs lt has scanned found deleted
      exact .inr ⟨rfl, k, j, x, number, removed⟩

/-- **`delete_dir_entry`** removes the entry with the number, if there is one. -/
theorem deleteDirEntry_ok (lay : Layout part n) (wf : DirSlots part n v selfNo parentNo) {ok : Bool}
    (h : deleteDirEntry part v inodeNo = .ok (ok, v')) :
    (ok = false ∧ v' = v ∧ ∀ k j y, ItemAt v k j y → y.Ordinary → y.iNo ≠ inodeNo) ∨
      (ok = true ∧ ∃ k j x, x.iNo = inodeNo ∧ Removed part n v v' x k j) := by
  simp only [deleteDirEntry, bind_ok] at h
  obtain ⟨all, collected, h⟩ := h
  obtain ⟨-, refs⟩ := allBlocks_ok collected
  obtain ⟨no, same, absent⟩ | found := deleteBlocks_ok lay wf refs _ (fun k mem => List.mem_range.1 mem) h
  · exact .inl ⟨no, same, fun k j y at_ => absent k (List.mem_range.2 at_.block) j y at_⟩
  · exact .inr found

end Delete

section Wf

variable {part : Partition} {n : Nat} {v v' : Vnode} {x : Item} {selfNo parentNo k₀ j₀ : Nat}

/-- The references that are left are those that were there. -/
theorem Removed.kept (rem : Removed part n v v' x k₀ j₀) {k : Nat} (lt : k < 141) (has : blockRef v'.disk v'.inode k ≠ 0) :
    blockRef v'.disk v'.inode k = blockRef v.disk v.inode k := by
  obtain ⟨-, refs, -⟩ | ⟨-, -, -, refs, -⟩ := rem.blocks
  · exact refs k lt
  · rw [refs k lt] at has ⊢
    by_cases e : k = k₀
    · rw [e, Function.update_self] at has
      exact absurd rfl has
    · exact Function.update_of_ne e ..

theorem Removed.map (map : BlockMap part n v.blockBitmap) (rem : Removed part n v v' x k₀ j₀) :
    BlockMap part n v'.blockBitmap := by
  obtain ⟨same, -⟩ | ⟨-, -, -, -, i, pos, inside, -, is⟩ := rem.blocks
  · rwa [same]
  · rw [is]
    exact map.set pos inside false

/-- The bits cleared are not those of a block that is left. -/
theorem Removed.wfBlocks (wf : BlocksWf part n v.blockBitmap (blockRef v.disk v.inode)) (rem : Removed part n v v' x k₀ j₀) :
    BlocksWf part n v'.blockBitmap (blockRef v'.disk v'.inode) := by
  have lt₀ := rem.was.block
  refine ⟨fun k lt has => ?_, fun k k' lt lt' has e => ?_⟩
  · have same := rem.kept lt has
    rw [same] at has ⊢
    obtain ⟨l, inside, is, set⟩ := wf.block k lt has
    refine ⟨l, inside, is, ?_⟩
    obtain ⟨bits, -⟩ | ⟨-, -, -, refs, i, pos, -, freed, bits⟩ := rem.blocks
    · rwa [bits]
    · rw [bits, set_bitmapSet, if_neg ?_]
      · exact set
      · rintro rfl
        have := wf.inj k k₀ lt (by omega) has (is.trans freed.symm)
        rw [refs k lt, this, Function.update_self] at same
        exact has (this ▸ same.symm)
  · have same := rem.kept lt has
    have same' := rem.kept lt' (e ▸ has)
    rw [same, same'] at e
    exact wf.inj k k' lt lt' (same ▸ has) e

/-- A directory without the entry. -/
theorem Removed.slots (lay : Layout part n) (wf : DirSlots part n v selfNo parentNo) (rem : Removed part n v v' x k₀ j₀) :
    DirSlots part n v' selfNo parentNo := by
  have blocks := rem.wfBlocks wf.blocks
  have left : ∀ k, k < 141 → k ≠ k₀ → blockRef v'.disk v'.inode k = blockRef v.disk v.inode k := by
    intro k lt ne
    obtain ⟨-, refs, -⟩ | ⟨-, -, -, refs, -⟩ := rem.blocks
    · exact refs k lt
    · rw [refs k lt, Function.update_of_ne ne]
  have zero : blockRef v'.disk v'.inode 0 = blockRef v.disk v.inode 0 := by
    obtain ⟨-, refs, -⟩ | ⟨pos, -, -, refs, -⟩ := rem.blocks
    · exact refs 0 (by omega)
    · rw [refs 0 (by omega), Function.update_of_ne (by omega)]
  have table : v'.inode.sec 12 = v.inode.sec 12 ∧ blockRef v'.disk v'.inode 12 = blockRef v.disk v.inode 12 := by
    obtain ⟨-, refs, -⟩ | ⟨-, direct, -, refs, -⟩ := rem.blocks
    · exact ⟨refs 140 (by omega), refs 12 (by omega)⟩
    · refine ⟨(refs 140 (by omega)).trans (Function.update_of_ne (by omega) ..), ?_⟩
      rw [refs 12 (by omega), Function.update_of_ne (by omega)]
  have old : ∀ {k j y}, ItemAt v' k j y → ItemAt v k j y := fun at_ => ((rem.items ..).1 at_).1
  refine ⟨blocks, fun k lt => ?_, ?_, by rw [zero]; exact wf.first, fun k pos lt is => ?_, fun has => ?_, rem.used, ?_, ?_, ?_,
    fun k pos lt has => ?_⟩
  · by_cases has : blockRef v'.disk v'.inode k = 0
    · omega
    · rw [rem.kept lt has]
      exact wf.onDisk k lt
  · apply blocks.inRange lay <;> rw [rem.inode]
    · exact wf.range.iNo
    · exact Nat.lt_of_le_of_lt (Nat.sub_le ..) wf.range.iSize
  · have ds := lay.dataStartLba
    rw [rem.kept lt (by omega)] at is
    exact wf.notRoot k pos lt is
  · rw [table.2]
    rw [table.1] at has
    exact wf.table has
  · obtain ⟨y, at_, isDot, rest⟩ := wf.dot
    refine ⟨y, (rem.items ..).2 ⟨at_, ?_⟩, isDot, rest⟩
    rintro ⟨rfl, rfl⟩
    exact rem.ordinary.1 (at_.unique rem.was ▸ isDot)
  · obtain ⟨y, at_, isDotDot, rest⟩ := wf.dotDot
    refine ⟨y, (rem.items ..).2 ⟨at_, ?_⟩, isDotDot, rest⟩
    rintro ⟨rfl, rfl⟩
    exact rem.ordinary.2 (at_.unique rem.was ▸ isDotDot)
  · intro k j y at_
    exact wf.dots k j y (old at_)
  · by_cases e : k = k₀
    · subst e
      obtain ⟨-, -, others⟩ | ⟨-, -, -, refs, -⟩ := rem.blocks
      · obtain ⟨j, y, at_, ne⟩ := others pos
        exact ⟨j, y, (rem.items ..).2 ⟨at_, fun h => ne h.2⟩⟩
      · rw [refs k (by omega), Function.update_self] at has
        exact absurd rfl has
    · rw [left k (by omega) e] at has
      obtain ⟨j, y, at_⟩ := wf.busy k pos lt has
      exact ⟨j, y, (rem.items ..).2 ⟨at_, fun h => e h.1⟩⟩

theorem Removed.wf (lay : Layout part n) (wf : DirWf part n v selfNo parentNo) (rem : Removed part n v v' x k₀ j₀) :
    DirWf part n v' selfNo parentNo := by
  have old : ∀ {k j y}, ItemAt v' k j y → ItemAt v k j y := fun at_ => ((rem.items ..).1 at_).1
  refine (rem.slots lay wf.slots).wf (fun k j y k' j' y' at_ at' => ?_) (fun k j y k' j' y' at_ at' => ?_)
  · exact wf.names k j y k' j' y' (old at_) (old at')
  · exact wf.numbers k j y k' j' y' (old at_) (old at')

end Wf

end Sparrow
