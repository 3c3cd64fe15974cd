import Mathlib.Data.List.Nodup
import Sparrow.Fs.DirSize

/-!
# Reading a directory

`dir_read` keeps no place in the blocks. It starts over each time, passes the entries its
offset says were returned before, and returns the next one; when the offset has come to
`i_size` it returns nothing. If `i_size` counts the entries, the calls list each of them once,
in the order they are stored, and from then on nothing (`dirRead_lists`).
-/

namespace Sparrow
set_option autoImplicit false

/-- What `k` calls of `dir_read` return. -/
def dirReads (part : Partition) (disk : Image) (dirInode : Inode) : Nat → Cursor → Exec (List (Option DirEntry) × Cursor)
  | 0, c => return ([], c)
  | k + 1, c => do
    let (e, c) ← dirRead part disk dirInode c
    let (es, c) ← dirReads part disk dirInode k c
    return (e :: es, c)

/-- The slots of block `k` whose type is not `FT_UNKNOWN`. -/
def liveInBlock (v : Vnode) (k : Nat) : List (Nat × Nat) :=
  if blockRef v.disk v.inode k = 0 then []
  else ((List.range 21).filter fun j => (entryAt v.disk v.inode k j).fType ≠ FileTypes.unknown.code).map fun j => (k, j)

/-- The slots of a directory whose type is not `FT_UNKNOWN`, in the order they are stored. -/
def livePositions (v : Vnode) : List (Nat × Nat) := (List.range 140).flatMap (liveInBlock v)

/-- The entries of a directory in this order. -/
def liveEntries (v : Vnode) : List DirEntry := (livePositions v).map fun p => entryAt v.disk v.inode p.1 p.2

section Positions

variable {v : Vnode}

theorem mem_liveInBlock {k : Nat} {p : Nat × Nat} : p ∈ liveInBlock v k ↔
    p.1 = k ∧ p.2 < 21 ∧ blockRef v.disk v.inode k ≠ 0 ∧ (entryAt v.disk v.inode k p.2).fType ≠ FileTypes.unknown.code := by
  obtain ⟨i, j⟩ := p
  rw [liveInBlock]
  split
  · rename_i none
    simp [none]
  · rename_i has
    simp only [List.mem_map, List.mem_filter, List.mem_range, decide_eq_true_eq, Prod.mk.injEq]
    constructor
    · rintro ⟨j', ⟨lt, type⟩, rfl, rfl⟩
      exact ⟨rfl, lt, has, type⟩
    · rintro ⟨rfl, lt, -, type⟩
      exact ⟨j, ⟨lt, type⟩, rfl, rfl⟩

theorem mem_livePositions {p : Nat × Nat} : p ∈ livePositions v ↔ p ∈ liveSlots v := by
  obtain ⟨k, j⟩ := p
  rw [mem_liveSlots]
  simp only [livePositions, List.mem_flatMap, List.mem_range, mem_liveInBlock]
  constructor
  · rintro ⟨k', lt, rfl, slot, has, type⟩
    exact ⟨⟨lt, slot⟩, has, type⟩
  · rintro ⟨⟨lt, slot⟩, has, type⟩
    exact ⟨k, lt, rfl, slot, has, type⟩

/-- The order of storage: by blocks, then by slots. -/
def Before (p q : Nat × Nat) : Prop := p.1 < q.1 ∨ (p.1 = q.1 ∧ p.2 < q.2)

theorem liveInBlock_sorted (k : Nat) : (liveInBlock v k).Pairwise Before := by
  rw [liveInBlock]
  split
  · exact .nil
  · rw [List.pairwise_map]
    exact (List.pairwise_lt_range.filter _).imp fun lt => .inr ⟨rfl, lt⟩

theorem livePositions_sorted : (livePositions v).Pairwise Before := by
  rw [livePositions, List.pairwise_flatMap]
  refine ⟨fun k _ => liveInBlock_sorted k, List.pairwise_lt_range.imp fun lt p mem q mem' => .inl ?_⟩
  rw [(mem_liveInBlock.1 mem).1, (mem_liveInBlock.1 mem').1]
  exact lt

theorem livePositions_nodup : (livePositions v).Nodup :=
  livePositions_sorted.imp fun {p q} before e => by
    subst e
    simp [Before] at before

theorem livePositions_length : (livePositions v).length = (liveSlots v).card := by
  rw [← List.toFinset_card_of_nodup livePositions_nodup]
  congr 1
  ext p
  rw [List.mem_toFinset, mem_livePositions]

theorem livePositions_length_le : (livePositions v).length ≤ 2940 := by
  have sub : liveSlots v ⊆ Finset.range 140 ×ˢ Finset.range 21 := by
    rintro ⟨k, j⟩ mem
    rw [mem_liveSlots] at mem
    simp [mem.1.1, mem.1.2]
  have le := Finset.card_le_card sub
  rw [livePositions_length]
  rwa [Finset.card_product, Finset.card_range, Finset.card_range] at le

/-- Without an indirect table the first 12 blocks are all there is. -/
theorem livePositions_direct (none : v.inode.sec 12 = 0) : livePositions v = (List.range 12).flatMap (liveInBlock v) := by
  have rest : ((List.range 128).map (12 + ·)).flatMap (liveInBlock v) = [] := by
    rw [List.flatMap_eq_nil_iff]
    intro k mem
    obtain ⟨i, lt, rfl⟩ := List.mem_map.1 mem
    have lt := List.mem_range.1 lt
    have ref : blockRef v.disk v.inode (12 + i) = 0 := by
      rw [blockRef, if_neg (by omega), none]
      split
      · rfl
      · rfl
    rw [liveInBlock, if_pos ref]
  rw [livePositions, show (140 : Nat) = 12 + 128 from rfl, List.range_add, List.flatMap_append, rest, List.append_nil]

end Positions

section Read

variable {part : Partition} {v : Vnode} {buf : Image} {m : Nat}

/-- The slot that comes `m` entries after `c` in this sector. -/
theorem readSlots_found {j : Nat} (small : m ≤ 2940) : ∀ (l : List Nat) (c : Nat), c ≤ m →
    (l.filter fun j => (decodeDirent buf 0 j).fType ≠ FileTypes.unknown.code)[m - c]? = some j →
    readSlots direntSize buf (direntSize * m) l (direntSize * c) = .ok (direntSize * m, some j) := by
  intro l
  induction l with
  | nil => intro c _ h; simp at h
  | cons i rest ih =>
    intro c le h
    rw [readSlots]
    by_cases live : (decodeDirent buf 0 i).fType ≠ FileTypes.unknown.code
    · rw [if_pos live]
      rw [List.filter_cons_of_pos (by simpa using live)] at h
      by_cases passed : c < m
      · have step : m - c = (m - (c + 1)) + 1 := by omega
        rw [step, List.getElem?_cons_succ] at h
        rw [if_pos (by simp only [direntSize]; omega), addU32_of_lt (by simp only [direntSize]; omega)]
        exact ih (c + 1) passed h
      · obtain rfl : c = m := by omega
        rw [Nat.sub_self, List.getElem?_cons_zero] at h
        cases h
        rw [if_neg (Nat.lt_irrefl _), assertThat_of rfl]
        rfl
    · rw [if_neg live]
      rw [List.filter_cons_of_neg (by simpa using live)] at h
      exact ih c le h

/-- All entries of the sector were returned before. -/
theorem readSlots_passed (small : m ≤ 2940) : ∀ (l : List Nat) (c : Nat),
    c + (l.filter fun j => (decodeDirent buf 0 j).fType ≠ FileTypes.unknown.code).length ≤ m →
    readSlots direntSize buf (direntSize * m) l (direntSize * c) =
      .ok (direntSize * (c + (l.filter fun j => (decodeDirent buf 0 j).fType ≠ FileTypes.unknown.code).length), none) := by
  intro l
  induction l with
  | nil => intro c _; rfl
  | cons i rest ih =>
    intro c le
    rw [readSlots]
    by_cases live : (decodeDirent buf 0 i).fType ≠ FileTypes.unknown.code
    · rw [if_pos live]
      rw [List.filter_cons_of_pos (by simpa using live), List.length_cons] at le ⊢
      rw [if_pos (by simp only [direntSize]; omega), addU32_of_lt (by simp only [direntSize]; omega)]
      have next := ih (c + 1) (by omega)
      rw [show direntSize * (c + 1) = direntSize * c + direntSize from rfl] at next
      rw [next, Nat.add_assoc, Nat.add_comm 1]
    · rw [if_neg live]
      rw [List.filter_cons_of_neg (by simpa using live)] at le ⊢
      exact ih c le

/-- What the loop over the blocks finds: the slot that comes `m` entries after `c`. -/
theorem readBlocksFrom_found (size : part.sb.dirEntrySize = direntSize) {iSize : Nat} (more : direntSize * m < iSize)
    (small : m ≤ 2940) {p : Nat × Nat} : ∀ (ks : List Nat) (c : Nat) (buf : Image), c ≤ m →
    (∀ k ∈ ks, blockRef v.disk v.inode k ≤ maxLba) → (ks.flatMap (liveInBlock v))[m - c]? = some p →
    ∃ buf', readBlocksFrom part v.disk iSize (direntSize * m) (ks.map (blockRef v.disk v.inode)) (direntSize * c) buf =
      .ok (some p.2, buf') ∧ decodeDirent buf' 0 p.2 = entryAt v.disk v.inode p.1 p.2 := by
  intro ks
  induction ks with
  | nil => intro c buf _ _ h; simp at h
  | cons k rest ih =>
    intro c buf le onDisk h
    obtain ⟨here, onDisk⟩ := List.forall_mem_cons.1 onDisk
    rw [List.map_cons, readBlocksFrom, if_neg (by omega)]
    rw [List.flatMap_cons] at h
    by_cases none : blockRef v.disk v.inode k = 0
    · rw [if_pos none]
      rw [liveInBlock, if_pos none, List.nil_append] at h
      exact ih c buf le onDisk h
    rw [if_neg none, ideRead_of (transferOk_one.2 here), ok_bind, size]
    rw [liveInBlock, if_neg none] at h
    have slots : (fun j => decide ((entryAt v.disk v.inode k j).fType ≠ FileTypes.unknown.code)) =
        fun j => decide ((decodeDirent (shifted v.disk (512 * blockRef v.disk v.inode k)) 0 j).fType ≠ FileTypes.unknown.code) := by
      funext j
      rw [decodeDirent_shifted]
      rfl
    rw [slots] at h
    show ∃ buf', (readSlots direntSize _ (direntSize * m) (List.range 21) (direntSize * c) >>= _) = _ ∧ _
    by_cases inside : m - c < ((List.range 21).filter fun j =>
        (decodeDirent (shifted v.disk (512 * blockRef v.disk v.inode k)) 0 j).fType ≠ FileTypes.unknown.code).length
    · rw [List.getElem?_append_left (by rwa [List.length_map]), List.getElem?_map, Option.map_eq_some_iff] at h
      obtain ⟨j, found, rfl⟩ := h
      rw [readSlots_found small _ c le found]
      exact ⟨_, rfl, decodeDirent_shifted _ _ _⟩
    · rw [List.getElem?_append_right (by rw [List.length_map]; omega), List.length_map] at h
      rw [readSlots_passed small _ c (by omega), ok_bind]
      refine ih _ _ (by omega) onDisk ?_
      rw [← h]
      congr 1
      omega

/-- A directory whose size counts its entries, with its blocks on the disk. -/
structure Listable (part : Partition) (v : Vnode) : Prop where
  dirEntrySize : part.sb.dirEntrySize = direntSize
  size : v.inode.iSize = direntSize * (liveSlots v).card
  onDisk : ∀ k, k < 141 → blockRef v.disk v.inode k ≤ maxLba

theorem DirSound.listable {n selfNo parentNo : Nat} (lay : Layout part n) (sound : DirSound part n selfNo parentNo v) :
    Listable part v :=
  ⟨lay.dirEntrySize, sound.size, sound.slots.onDisk⟩

/-- How far `dir_read` gets in a list of `len` entries from entry `m`. -/
def nextEntry (len m : Nat) : Nat := if m < len then m + 1 else m

/-- **`dir_read`** after `m` entries were returned: the next one, if there is one. -/
theorem Listable.dirRead (list : Listable part v) (m : Nat) (buf : Image) :
    ∃ buf', dirRead part v.disk v.inode ⟨direntSize * m, buf⟩ = .ok ((liveEntries v)[m]?,
      ⟨direntSize * nextEntry (liveEntries v).length m, buf'⟩) := by
  have few := livePositions_length_le (v := v)
  have len : (liveEntries v).length = (livePositions v).length := by rw [liveEntries, List.length_map]
  have table : v.inode.sec 12 ≠ 0 → v.inode.sec 12 ≤ maxLba := by
    intro _
    have := list.onDisk 140 (by decide)
    rwa [blockRef, if_neg (by decide), if_pos rfl] at this
  obtain ⟨all, ran⟩ : ∃ all, allBlocks v.disk v.inode = .ok all := allBlocks_returns table
  obtain ⟨-, refs⟩ := allBlocks_ok ran
  obtain ⟨cnt, isCnt, le140, pos, positions⟩ : ∃ cnt, cnt = (if v.inode.sec 12 ≠ 0 then 140 else 12) ∧ cnt ≤ 140 ∧ 0 < cnt ∧
      livePositions v = (List.range cnt).flatMap (liveInBlock v) := by
    by_cases none : v.inode.sec 12 = 0
    · exact ⟨12, by simp [none], by decide, by decide, livePositions_direct none⟩
    · exact ⟨140, by simp [none], by decide, by decide, rfl⟩
  have lbas : (List.range cnt).map all = (List.range cnt).map (blockRef v.disk v.inode) := by
    apply List.map_congr_left
    intro k mem
    exact refs k (Nat.lt_of_lt_of_le (List.mem_range.1 mem) le140)
  rw [Sparrow.dirRead, ran, ok_bind, nextEntry, len]
  simp only [← isCnt, lbas]
  by_cases lt : m < (livePositions v).length
  · have more : direntSize * m < v.inode.iSize := by
      rw [list.size, ← livePositions_length]
      simp only [direntSize]
      omega
    have found : ((List.range cnt).flatMap (liveInBlock v))[m - 0]? = some (livePositions v)[m] := by
      rw [← positions, Nat.sub_zero, List.getElem?_eq_getElem lt]
    obtain ⟨buf', ran, is⟩ := readBlocksFrom_found list.dirEntrySize more (by omega) _ 0 buf (Nat.zero_le _)
      (fun k mem => list.onDisk k (by have := List.mem_range.1 mem; omega)) found
    rw [Nat.mul_zero] at ran
    refine ⟨buf', ?_⟩
    rw [ran, ok_bind, list.dirEntrySize, addU32_of_lt (by simp only [direntSize]; omega), if_pos lt, liveEntries,
      List.getElem?_map, List.getElem?_eq_getElem lt, Option.map_some, ← is]
    rfl
  · -- the offset has come to `i_size`
    have ends : v.inode.iSize ≤ direntSize * m := by
      rw [list.size, ← livePositions_length]
      simp only [direntSize]
      omega
    obtain ⟨cnt, rfl⟩ : ∃ k, cnt = k + 1 := ⟨cnt - 1, by omega⟩
    rw [List.range_succ_eq_map, List.map_cons, readBlocksFrom, if_pos ends]
    refine ⟨buf, ?_⟩
    rw [if_neg lt, List.getElem?_eq_none (by omega)]
    rfl

/-- The calls return the entries from the one after the offset on. -/
theorem Listable.dirReads (list : Listable part v) : ∀ (k m : Nat) (buf : Image), m ≤ (liveEntries v).length →
    ∃ c, dirReads part v.disk v.inode k ⟨direntSize * m, buf⟩ = .ok ((List.range k).map fun i => (liveEntries v)[m + i]?, c) := by
  intro k
  induction k with
  | zero => exact fun m buf _ => ⟨_, rfl⟩
  | succ k ih =>
    intro m buf le
    obtain ⟨buf1, first⟩ := list.dirRead m buf
    have next : nextEntry (liveEntries v).length m ≤ (liveEntries v).length := by
      rw [nextEntry]
      split <;> omega
    obtain ⟨c, rest⟩ := ih _ buf1 next
    refine ⟨c, ?_⟩
    rw [Sparrow.dirReads, first, ok_bind]
    simp only [rest, ok_bind]
    have listed : (List.range (k + 1)).map (fun i => (liveEntries v)[m + i]?) =
        (liveEntries v)[m]? :: (List.range k).map fun i => (liveEntries v)[nextEntry (liveEntries v).length m + i]? := by
      rw [List.range_succ_eq_map, List.map_cons, List.map_map, Nat.add_zero]
      congr 1
      apply List.map_congr_left
      intro i _
      show (liveEntries v)[m + (i + 1)]? = _
      rw [nextEntry]
      split
      · congr 1
        omega
      · -- nothing is left in either place
        rw [List.getElem?_eq_none (by omega), List.getElem?_eq_none (by omega)]
    rw [listed]
    rfl

end Read

/-- **Reading a directory.** The calls of `dir_read` from the start return the entries in the
order of storage, each once, then nothing; `ASSERT(cur_dir_entry_pos == dir->dir_pos)` never
fails. -/
theorem dirRead_lists {part : Partition} {v : Vnode} (list : Listable part v) (buf : Image) (k : Nat) :
    (∃ c, dirReads part v.disk v.inode k ⟨0, buf⟩ = .ok ((List.range k).map fun i => (liveEntries v)[i]?, c)) ∧
      (livePositions v).Pairwise Before ∧ ∀ p, p ∈ livePositions v ↔ p ∈ liveSlots v := by
  obtain ⟨c, ran⟩ := list.dirReads k 0 buf (Nat.zero_le _)
  simp only [Nat.zero_add, Nat.mul_zero] at ran
  exact ⟨⟨c, ran⟩, livePositions_sorted, fun _ => mem_livePositions⟩

/-- The root directory of a new file system on the small partition. -/
def rootNode : Vnode :=
  ⟨splice zeros (512 * 613) 512 (dotsImage 0 0), ⟨512, zeros⟩, { (inodeInit 0).setSec 0 613 with iSize := 2 * direntSize }⟩

theorem dirRead_lists_root : (livePositions rootNode).length = 2 ∧
    (∃ c, dirReads smallPartition rootNode.disk rootNode.inode 5 ⟨0, zeros⟩ =
      .ok ((List.range 5).map fun i => (liveEntries rootNode)[i]?, c)) ∧
    (livePositions rootNode).Pairwise Before ∧ ∀ p, p ∈ livePositions rootNode ↔ p ∈ liveSlots rootNode := by
  have two : (livePositions rootNode).length = 2 := by decide
  have onDisk : ∀ k, k < 141 → blockRef rootNode.disk rootNode.inode k ≤ maxLba := by decide
  have size : rootNode.inode.iSize = direntSize * (liveSlots rootNode).card := by
    rw [← livePositions_length, two]
    rfl
  exact ⟨two, dirRead_lists ⟨rfl, size, onDisk⟩ zeros 5⟩

end Sparrow
