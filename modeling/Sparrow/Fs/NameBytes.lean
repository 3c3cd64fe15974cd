import Mathlib.Data.Nat.Find
import Sparrow.Fs.Cache
import Sparrow.Fs.DirMap
import Sparrow.Fs.Syscall

/-!
# The bytes of a name

An entry holds the name in 16 bytes with the inode number behind them. `strcmp` and `strcat`
read a name of 16 bytes on into the number, and stop there only when its first byte is zero:
`name_kept` says for which entries the name that went in is the one that comes out.
-/

namespace Sparrow
set_option autoImplicit false

/-- `get_child_dir_name` once the inode of the parent is at hand. -/
def childName (part : Partition) (disk : Image) (inode : Inode) (cInodeNr : Nat) (path : List Byte) :
    Exec (Option (List Byte)) := do
  let all ← allBlocks disk inode
  childNameBlocks part disk cInodeNr path ((List.range 140).map all)

/-- Where slot `i` of a directory lies on disk, counting 21 slots a block. -/
def slotAt (v : Vnode) (i : Nat) : Nat := 512 * blockRef v.disk v.inode (i / 21) + direntSize * (i % 21)

/-- Slot `i` exists and is in use. -/
def Occupied (v : Vnode) (i : Nat) : Prop :=
  blockRef v.disk v.inode (i / 21) ≠ 0 ∧ (entryAt v.disk v.inode (i / 21) (i % 21)).fType ≠ FileTypes.unknown.code

/-- Slot `i` exists and holds the number. -/
def Carries (v : Vnode) (inodeNo i : Nat) : Prop :=
  blockRef v.disk v.inode (i / 21) ≠ 0 ∧ (entryAt v.disk v.inode (i / 21) (i % 21)).iNo = inodeNo

instance (v : Vnode) (inodeNo i : Nat) : Decidable (Carries v inodeNo i) := inferInstanceAs (Decidable (_ ∧ _))

/-- `search_dir_entry` finds the number and the type under the name, and
`get_child_dir_name` the name under the number. -/
structure NameKept (part : Partition) (v : Vnode) (name : List Byte) (inodeNo : Nat) (fileType : FileTypes) : Prop where
  searched : ∃ r, searchEntry part v.disk v.inode name = .ok (some r) ∧ r.iNo = inodeNo ∧ r.fType = fileType.code
  named : ∀ path, path.length + 1 + name.length < maxPathLen →
    childName part v.disk v.inode inodeNo path = .ok (some (path ++ slash :: name))

section Calls

variable {part : Partition} {me : Option Nat} {s s₁ s₂ : Fs} {pInodeNr cInodeNr addr : Nat} {path : List Byte}

/-- `get_child_dir_name` opens and closes the parent around it. -/
theorem getChildDirName_of {r : Option (List Byte)} (opened : inodeOpen part me s pInodeNr = .ok (addr, s₁))
    (closed : inodeClose me s₁ addr = .ok s₂) (found : childName part s₁.disk (s₁.inodes addr) cInodeNr path = .ok r) :
    getChildDirName part me s pInodeNr cInodeNr path = .ok (r, s₂) := by
  simp only [childName, bind_ok] at found
  obtain ⟨all, collected, found⟩ := found
  have disk : s₂.disk = s₁.disk := by
    obtain ⟨-, rfl⟩ := inodeClose_ok closed
    rfl
  rw [getChildDirName, opened, ok_bind]
  dsimp only
  rw [collected, ok_bind, closed, ok_bind, disk, found]
  rfl

end Calls

section Scan

/-- A loop over the slots, block after block, that stops at the first hit. -/
theorem first_hit {α : Type} (F : List Nat → α) (Hit : Nat → Nat → Prop) (out : Nat → Nat → α) {all : Nat → Nat} {i₀ : Nat}
    (skip : ∀ lba rest, lba ≤ maxLba → (lba ≠ 0 → ∀ j, j < 21 → ¬ Hit lba j) → F (lba :: rest) = F rest)
    (stop : ∀ lba rest j, lba ≤ maxLba → lba ≠ 0 → j < 21 → Hit lba j → (∀ j', j' < j → ¬ Hit lba j') →
      F (lba :: rest) = out lba j)
    (onDisk : ∀ k, k < 140 → all k ≤ maxLba) (inside : i₀ < 2940) (has : all (i₀ / 21) ≠ 0)
    (hit : Hit (all (i₀ / 21)) (i₀ % 21)) (first : ∀ i, i < i₀ → all (i / 21) ≠ 0 → ¬ Hit (all (i / 21)) (i % 21)) :
    F ((List.range 140).map all) = out (all (i₀ / 21)) (i₀ % 21) := by
  suffices ∀ m a, a + m = 140 → a ≤ i₀ / 21 → F ((List.range' a m).map all) = out (all (i₀ / 21)) (i₀ % 21) by
    rw [List.range_eq_range']
    exact this 140 0 rfl (Nat.zero_le _)
  intro m
  induction m with
  | zero => intro a is le; omega
  | succ m ih =>
    intro a is le
    rw [List.range'_succ, List.map_cons]
    -- slot `j` of block `a` has the number `21 * a + j`
    have slot : ∀ j, j < 21 → (21 * a + j) / 21 = a ∧ (21 * a + j) % 21 = j := fun j lt => by omega
    by_cases here : a = i₀ / 21
    · rw [here]
      refine stop _ _ _ (onDisk _ (by omega)) has (Nat.mod_lt _ (by omega)) hit fun j lt => ?_
      obtain ⟨block, at_⟩ := slot j (by omega)
      have := first (21 * a + j) (by omega)
      rw [block, at_, here] at this
      exact this has
    · rw [skip _ _ (onDisk a (by omega)), ih (a + 1) (by omega) (by omega)]
      intro some j lt
      obtain ⟨block, at_⟩ := slot j lt
      have := first (21 * a + j) (by omega)
      rw [block, at_] at this
      exact this some

variable {part : Partition} {v : Vnode} {name path : List Byte} {inodeNo i₀ : Nat}

/-- `search_dir_entry` returns the first entry that compares equal. -/
theorem searchEntry_first (size : part.sb.dirEntrySize = direntSize) (onDisk : ∀ k, k < 141 → blockRef v.disk v.inode k ≤ maxLba)
    (inside : i₀ < 2940) (has : blockRef v.disk v.inode (i₀ / 21) ≠ 0) (hit : strEq v.disk (slotAt v i₀) name = true)
    (first : ∀ i, i < i₀ → blockRef v.disk v.inode (i / 21) ≠ 0 → strEq v.disk (slotAt v i) name = false) :
    searchEntry part v.disk v.inode name = .ok (some (entryAt v.disk v.inode (i₀ / 21) (i₀ % 21))) := by
  obtain ⟨all, collected⟩ := allBlocks_returns fun _ => onDisk 140 (by omega)
  obtain ⟨-, refs⟩ := allBlocks_ok collected
  have slots : 512 / direntSize = 21 := rfl
  rw [searchEntry, collected, ok_bind]
  have found : searchBlocks part v.disk name ((List.range 140).map all) =
      .ok (some (decodeDirent v.disk (512 * all (i₀ / 21)) (i₀ % 21))) := by
    refine first_hit (searchBlocks part v.disk name) (fun lba j => strEq v.disk (512 * lba + direntSize * j) name = true)
      (fun lba j => .ok (some (decodeDirent v.disk (512 * lba) j))) ?_ ?_ (fun k lt => ?_) inside ?_ ?_ ?_
    · intro lba rest le none
      rw [searchBlocks]
      split
      · rfl
      · rename_i some
        rw [ideRead_of (transferOk_one.2 le), ok_bind, size, slots]
        have nothing : (List.range 21).find? (fun j => strEq (shifted v.disk (512 * lba)) (direntSize * j) name) = Option.none := by
          rw [List.find?_eq_none]
          intro j mem
          rw [strEq_shifted]
          exact none some j (List.mem_range.1 mem)
        rw [nothing]
    · intro lba rest j le some lt hit before
      have here : (List.range 21).find? (fun j => strEq (shifted v.disk (512 * lba)) (direntSize * j) name) = Option.some j := by
        rw [List.find?_range_eq_some, strEq_shifted]
        refine ⟨hit, List.mem_range.2 lt, fun j' lt' => ?_⟩
        rw [strEq_shifted]
        simpa using before j' lt'
      rw [searchBlocks, if_neg some, ideRead_of (transferOk_one.2 le), ok_bind, size, slots, here]
      dsimp only
      rw [decodeDirent_shifted]
      rfl
    · rw [refs k lt]
      exact onDisk k (by omega)
    · rw [refs _ (by omega)]
      exact has
    · rw [refs _ (by omega)]
      exact hit
    · intro i lt some
      rw [refs _ (by omega)] at some ⊢
      rw [Bool.not_eq_true]
      exact first i lt some
  rw [found, refs _ (by omega)]
  rfl

/-- `get_child_dir_name` takes the name of the first entry with the number. -/
theorem childName_first (size : part.sb.dirEntrySize = direntSize) (onDisk : ∀ k, k < 141 → blockRef v.disk v.inode k ≤ maxLba)
    (inside : i₀ < 2940) (hit : Carries v inodeNo i₀) (first : ∀ i, i < i₀ → ¬ Carries v inodeNo i) :
    childName part v.disk v.inode inodeNo path = (do
      let path ← appendName path (shifted v.disk (512 * blockRef v.disk v.inode (i₀ / 21))) (i₀ % 21)
      return some path) := by
  obtain ⟨all, collected⟩ := allBlocks_returns fun _ => onDisk 140 (by omega)
  obtain ⟨-, refs⟩ := allBlocks_ok collected
  have slots : 512 / direntSize = 21 := rfl
  rw [childName, collected, ok_bind]
  have found : childNameBlocks part v.disk inodeNo path ((List.range 140).map all) = (do
      let path ← appendName path (shifted v.disk (512 * all (i₀ / 21))) (i₀ % 21)
      return some path) := by
    refine first_hit (childNameBlocks part v.disk inodeNo path) (fun lba j => (decodeDirent v.disk (512 * lba) j).iNo = inodeNo)
      (fun lba j => do
        let path ← appendName path (shifted v.disk (512 * lba)) j
        return some path) ?_ ?_ (fun k lt => ?_) inside ?_ ?_ ?_
    · intro lba rest le none
      rw [childNameBlocks]
      split
      · rfl
      · rename_i some
        rw [ideRead_of (transferOk_one.2 le), ok_bind, size, slots]
        have nothing : (List.range 21).find? (fun j => decide ((decodeDirent (shifted v.disk (512 * lba)) 0 j).iNo = inodeNo)) =
            Option.none := by
          rw [List.find?_eq_none]
          intro j mem
          rw [decodeDirent_shifted, decide_eq_true_eq]
          exact none some j (List.mem_range.1 mem)
        rw [nothing]
    · intro lba rest j le some lt hit before
      have here : (List.range 21).find? (fun j => decide ((decodeDirent (shifted v.disk (512 * lba)) 0 j).iNo = inodeNo)) =
          Option.some j := by
        rw [List.find?_range_eq_some, decodeDirent_shifted]
        refine ⟨decide_eq_true hit, List.mem_range.2 lt, fun j' lt' => ?_⟩
        rw [decodeDirent_shifted]
        simpa using before j' lt'
      rw [childNameBlocks, if_neg some, ideRead_of (transferOk_one.2 le), ok_bind, size, slots, here]
    · rw [refs k lt]
      exact onDisk k (by omega)
    · rw [refs _ (by omega)]
      exact hit.1
    · rw [refs _ (by omega)]
      exact hit.2
    · intro i lt some
      rw [refs _ (by omega)] at some ⊢
      exact fun same => first i lt ⟨some, same⟩
  rw [found, refs _ (by omega)]

end Scan

section Strings

variable {disk : Image} {b j : Nat} {name path : List Byte}

/-- A string read up to its zero byte. -/
theorem takeWhile_eq_iff : ∀ (name : List Byte) (f : Nat → Byte) (n : Nat), 0#8 ∉ name → name.length < n →
    (((List.range n).map f).takeWhile (· != 0#8) = name ↔ ∀ i, i ≤ name.length → f i = name.getD i 0#8) := by
  intro name
  induction name with
  | nil =>
    intro f n _ lt
    obtain ⟨n, rfl⟩ := Nat.exists_eq_add_of_lt lt
    rw [List.length_nil, Nat.zero_add, List.range_succ_eq_map, List.map_cons, List.takeWhile_cons]
    constructor
    · intro h i le
      obtain rfl : i = 0 := Nat.le_zero.1 le
      by_contra ne
      rw [if_pos (by simpa using ne)] at h
      cases h
    · intro h
      have zero : f 0 = 0#8 := h 0 (Nat.le_refl _)
      rw [if_neg (by simp [zero])]
  | cons c rest ih =>
    intro f n noZero lt
    obtain ⟨nonzero, noZero'⟩ := not_or.1 fun h => noZero (List.mem_cons.2 h)
    rw [List.length_cons] at lt
    obtain ⟨n, rfl⟩ : ∃ m, n = m + 1 := ⟨n - 1, by omega⟩
    have next := ih (fun i => f (i + 1)) n noZero' (by omega)
    rw [List.range_succ_eq_map, List.map_cons, List.map_map, List.takeWhile_cons]
    constructor
    · intro h
      have some : f 0 ≠ 0#8 := by
        intro zero
        rw [if_neg (by simp [zero])] at h
        cases h
      rw [if_pos (by simpa using some), List.cons.injEq] at h
      intro i le
      rcases Nat.eq_zero_or_pos i with rfl | pos
      · exact h.1
      · obtain ⟨i, rfl⟩ : ∃ m, i = m + 1 := ⟨i - 1, by omega⟩
        rw [List.length_cons] at le
        exact next.1 h.2 i (by omega)
    · intro h
      have head : f 0 = c := h 0 (Nat.zero_le _)
      have some : f 0 ≠ 0#8 := fun zero => nonzero (zero.symm.trans head)
      rw [if_pos (by simpa using some), List.cons.injEq]
      refine ⟨head, next.2 fun i le => ?_⟩
      exact h (i + 1) (by rw [List.length_cons]; omega)

/-- `strcat` appends just the name when `strcmp` finds it there. -/
theorem appendName_iff (noZero : 0#8 ∉ name) (short : name.length ≤ 16) (slot : j < 21) :
    appendName path (shifted disk b) j = .ok (path ++ slash :: name) ↔
      strEq disk (b + direntSize * j) name = true ∧ path.length + 1 + name.length < maxPathLen := by
  have fits : name.length < 512 - direntSize * j := by
    simp only [direntSize]
    omega
  have read := takeWhile_eq_iff name (fun i => shifted disk b (direntSize * j + i)) _ noZero fits
  have same : strEq disk (b + direntSize * j) name = true ↔
      ∀ i, i ≤ name.length → shifted disk b (direntSize * j + i) = name.getD i 0#8 := by
    simp only [strEq_iff, shifted, Nat.add_assoc]
  rw [same, ← read]
  simp only [appendName, bind_ok, defined_ok, pure_ok, exists_const]
  constructor
  · rintro ⟨⟨-, room⟩, e⟩
    have is := List.append_cancel_left e
    rw [List.cons.injEq] at is
    rw [is.2] at room
    exact ⟨is.2, room⟩
  · rintro ⟨is, room⟩
    rw [is]
    exact ⟨⟨by omega, room⟩, rfl⟩

/-- A name of 16 bytes runs on into the inode number. -/
theorem strEq_created {e : DirEntry} {inodeNo a : Nat} {fileType : FileTypes}
    (created : createDirEntry name inodeNo fileType = .ok e) (bytes : ∀ i, i < direntSize → disk (a + i) = e.image i) :
    strEq disk a name = true ↔ name.length ≤ 15 ∨ inodeNo % 256 = 0 := by
  simp only [createDirEntry, bind_ok, assertThat_ok, pure_ok, exists_const] at created
  obtain ⟨short, rfl⟩ := created
  have short' : name.length ≤ 16 := short
  have stored : ∀ i, i < 16 → disk (a + i) = name.getD i 0#8 := by
    intro i lt
    rw [bytes i (by simp only [direntSize]; omega), DirEntry.image_name _ lt]
  have behind : disk (a + 16) = BitVec.ofNat 8 inodeNo := by
    rw [bytes 16 (by decide)]
    simp [DirEntry.image, leByte]
  have zero : BitVec.ofNat 8 inodeNo = 0#8 ↔ inodeNo % 256 = 0 := by
    rw [← BitVec.toNat_inj]
    simp
  rw [strEq_iff]
  constructor
  · intro same
    by_contra neither
    rw [not_or] at neither
    have last := same 16 (by omega)
    rw [behind, List.getD_eq_getElem?_getD, List.getElem?_eq_none (by omega), Option.getD_none, zero] at last
    exact neither.2 last
  · intro either i le
    by_cases inside : i < 16
    · exact stored i inside
    · obtain rfl : i = 16 := by omega
      rw [behind, List.getD_eq_getElem?_getD, List.getElem?_eq_none (by omega), Option.getD_none, zero]
      omega

end Strings

section Kept

variable {part : Partition} {n : Nat} {v v' : Vnode} {name : List Byte} {e : DirEntry} {inodeNo : Nat} {fileType : FileTypes}

/-- What the slots before the new entry hold, after it went in. -/
theorem Placed.before {k₀ j₀ : Nat} (placed : Placed part n v v' e k₀ j₀) (first : FirstFree v k₀ j₀) {i : Nat}
    (lt : i < 21 * k₀ + j₀) : Occupied v i ∧ blockRef v'.disk v'.inode (i / 21) = blockRef v.disk v.inode (i / 21) ∧
      ∀ o, o < direntSize → v'.disk (slotAt v' i + o) = v.disk (slotAt v i + o) := by
  have block := placed.block
  have slot := placed.slot
  have ltj : i % 21 < 21 := Nat.mod_lt _ (by omega)
  have occupied : Occupied v i := by
    by_cases same : i / 21 = k₀
    · have := first.slots (i % 21) (by omega)
      rwa [← same] at this
    · obtain ⟨has, used⟩ := first.blocks (i / 21) (by omega)
      exact ⟨has, used _ ltj⟩
  have ref := placed.grow.kept (i / 21) (by omega) occupied.1
  refine ⟨occupied, ref, fun o ho => ?_⟩
  rw [slotAt, ref, slotAt]
  exact placed.kept (i / 21) (i % 21) (by omega) ltj occupied.1 (by omega) o ho

/-- **An accepted name is found again** when it leaves room for its terminator, or the number
behind it begins with a zero byte, and no entry before it has its number. -/
theorem name_kept (lay : Layout part n) (map : BlockMap part n v.blockBitmap) (wf : DirBlocks part n v) (noZero : 0#8 ∉ name)
    (low : inodeNo < 4096) (created : createDirEntry name inodeNo fileType = .ok e)
    (synced : syncDirEntry part v e = .ok (true, v'))
    (absent : ∀ i, i < 2940 → Occupied v i → strEq v.disk (slotAt v i) name = false) :
    NameKept part v' name inodeNo fileType ↔ (name.length ≤ 15 ∨ inodeNo % 256 = 0) ∧
      ∀ i, i < 2940 → Carries v inodeNo i → ∃ i', i' ≤ i ∧ ¬ Occupied v i' := by
  obtain ⟨no, -⟩ | ⟨-, k₀, j₀, placed, first⟩ := syncDirEntry_placed lay map wf synced
  · cases no
  have block := placed.block
  have slot := placed.slot
  obtain ⟨i₀, is⟩ : ∃ i₀, i₀ = 21 * k₀ + j₀ := ⟨_, rfl⟩
  obtain ⟨inBlock, inSlot⟩ : i₀ / 21 = k₀ ∧ i₀ % 21 = j₀ := by omega
  have inside : i₀ < 2940 := by omega
  have stored := strEq_created (a := slotAt v' i₀) created (by rw [slotAt, inBlock, inSlot]; exact placed.bytes)
  obtain ⟨short, number, kind⟩ : name.length ≤ 16 ∧ e.iNo = inodeNo ∧ e.fType = fileType.code := by
    simp only [createDirEntry, bind_ok, assertThat_ok, pure_ok, exists_const] at created
    obtain ⟨short, rfl⟩ := created
    exact ⟨short, rfl, rfl⟩
  have entry : entryAt v'.disk v'.inode (i₀ / 21) (i₀ % 21) = e := by
    rw [entryAt, inBlock, inSlot]
    exact decodeDirent_bytes (by omega) (kind ▸ fileType.code_lt) placed.bytes
  have has : blockRef v'.disk v'.inode (i₀ / 21) ≠ 0 := by
    rw [inBlock]
    exact placed.has
  have notFree : ¬ Occupied v i₀ := by
    rintro ⟨some, used⟩
    rw [inBlock] at some used
    rw [inSlot] at used
    rcases placed.free with empty | dead
    · exact some empty
    · exact used dead
  -- the slots before it are as they were
  have others : ∀ i, i < i₀ → strEq v'.disk (slotAt v' i) name = false := by
    intro i lt
    obtain ⟨occupied, -, bytes⟩ := placed.before first (is ▸ lt)
    rw [← absent i (by omega) occupied, Bool.eq_iff_iff, strEq_iff, strEq_iff]
    refine forall_congr' fun o => ?_
    by_cases le : o ≤ name.length
    · rw [bytes o (by simp only [direntSize]; omega)]
    · exact ⟨fun _ h => absurd h le, fun _ h => absurd h le⟩
  have numbers : ∀ i, i < i₀ → (Carries v' inodeNo i ↔ Carries v inodeNo i) := by
    intro i lt
    obtain ⟨-, ref, bytes⟩ := placed.before first (is ▸ lt)
    have same : entryAt v'.disk v'.inode (i / 21) (i % 21) = entryAt v.disk v.inode (i / 21) (i % 21) := decodeDirent_congr bytes
    rw [Carries, Carries, ref, same]
  have mine : Carries v' inodeNo i₀ := ⟨has, by rw [entry, number]⟩
  constructor
  · intro kept
    -- the slot whose name is given is the first one with the number
    have exists_ : ∃ i, Carries v' inodeNo i := ⟨i₀, mine⟩
    have least : ∀ i, i < Nat.find exists_ → ¬ Carries v' inodeNo i := fun i => Nat.find_min exists_
    have le : Nat.find exists_ ≤ i₀ := Nat.find_min' exists_ mine
    have named := kept.named [] (by simp only [List.length_nil, maxPathLen]; omega)
    rw [childName_first lay.dirEntrySize placed.onDisk (by omega) (Nat.find_spec exists_) least] at named
    simp only [bind_ok, pure_ok, Option.some.injEq, exists_eq_right] at named
    have same := ((appendName_iff noZero short (Nat.mod_lt _ (by omega))).1 named).1
    have here : Nat.find exists_ = i₀ := by
      by_contra ne
      have := others _ (Nat.lt_of_le_of_ne le ne)
      rw [slotAt] at this
      rw [this] at same
      cases same
    refine ⟨stored.1 ?_, fun i lt carries => ?_⟩
    · rw [here] at same
      exact same
    · by_cases before : i < i₀
      · exact absurd ((numbers i before).2 carries) (least i (here ▸ before))
      · exact ⟨i₀, by omega, notFree⟩
  · rintro ⟨ends, behind⟩
    have same := stored.2 ends
    refine ⟨⟨e, ?_, number, kind⟩, fun path room => ?_⟩
    · rw [searchEntry_first lay.dirEntrySize placed.onDisk inside has same fun i lt _ => others i lt, entry]
    · rw [childName_first lay.dirEntrySize placed.onDisk inside mine fun i lt carries => ?_,
        (appendName_iff noZero short (Nat.mod_lt _ (by omega))).2 ⟨same, room⟩]
      · rfl
      · obtain ⟨i', le, free⟩ := behind i (by omega) ((numbers i lt).1 carries)
        exact free (placed.before first (show i' < 21 * k₀ + j₀ by omega)).1

/-- Only the first two slots of a new directory are in use. -/
theorem NewDir.occupied {selfNo parentNo i : Nat} (new : NewDir part n v selfNo parentNo) (lt : i < 2940) (occupied : Occupied v i) :
    i < 2 := by
  obtain ⟨-, -, dead⟩ := new.entries
  obtain ⟨some, used⟩ := occupied
  by_contra ge
  by_cases first : i / 21 = 0
  · rw [first] at used
    exact used (dead (i % 21) (by omega) (Nat.mod_lt _ (by omega))).1
  · exact some (new.refs (by omega) (by omega))

/-- `f` goes into the new root directory and comes out again. -/
theorem name_kept_small : ∃ v, syncDirEntry smallPartition smallRoot itemF.entry = .ok (true, v) ∧
    NameKept smallPartition v [0x66#8] 1 .regular := by
  have ran : returns (syncDirEntry smallPartition smallRoot itemF.entry) (fun r => r.1) = true := by decide
  obtain ⟨⟨ok, v⟩, entered, is⟩ := returns_true.1 ran
  simp only at is
  subst is
  obtain ⟨wf, -⟩ := smallRoot_new.wf smallPartition_layout
  refine ⟨v, entered, (name_kept smallPartition_layout smallRoot_new.map wf.slots.toBlocks (by decide) (by decide) rfl entered
    fun i lt occupied => ?_).2 ⟨.inl (by decide), fun i lt carries => ?_⟩⟩
  · have two := smallRoot_new.occupied lt occupied
    obtain rfl | rfl : i = 0 ∨ i = 1 := by omega
    · decide
    · decide
  · by_cases two : i < 2
    · have other : ¬ Carries smallRoot 1 0 ∧ ¬ Carries smallRoot 1 1 := by decide
      obtain rfl | rfl : i = 0 ∨ i = 1 := by omega
      · exact absurd carries other.1
      · exact absurd carries other.2
    · exact ⟨2, by omega, fun occupied => absurd (smallRoot_new.occupied (by omega) occupied) (by omega)⟩

/-- A name that fills its field. -/
def longName : List Byte := List.replicate 16 0x61#8

/-- Enter the entry in the root directory and look for the name. -/
def enterAndSearch (name : List Byte) (e : DirEntry) : Exec (Bool × Option DirEntry) := do
  let (ok, v) ← syncDirEntry smallPartition smallRoot e
  let found ← searchEntry smallPartition v.disk v.inode name
  return (ok, found)

/-- With number 1 behind it a name of 16 bytes is not found again. -/
theorem longName_lost : ¬ ∀ (part : Partition) (n : Nat) (v v' : Vnode) (name : List Byte) (e : DirEntry) (inodeNo : Nat)
    (fileType : FileTypes), Layout part n → BlockMap part n v.blockBitmap → DirBlocks part n v → 0#8 ∉ name → name ≠ [] →
    slash ∉ name → inodeNo < 4096 → createDirEntry name inodeNo fileType = .ok e → syncDirEntry part v e = .ok (true, v') →
    searchEntry part v.disk v.inode name = .ok none → NameKept part v' name inodeNo fileType := by
  intro claim
  obtain ⟨e, created⟩ : ∃ e, createDirEntry longName 1 .regular = .ok e := ⟨_, rfl⟩
  have ran : returns (createDirEntry longName 1 .regular >>= enterAndSearch longName) (fun r => r.1 && r.2.isNone) = true := by
    decide
  obtain ⟨⟨ok, found⟩, ran, is⟩ := returns_true.1 ran
  rw [created, ok_bind] at ran
  simp only [enterAndSearch, bind_ok, pure_ok, Prod.exists] at ran
  obtain ⟨ok', v, entered, r, searched, e'⟩ := ran
  cases e'
  obtain ⟨rfl, lost⟩ := Bool.and_eq_true_iff.1 is
  have missing : returns (searchEntry smallPartition smallRoot.disk smallRoot.inode longName) Option.isNone = true := by decide
  obtain ⟨before, searchedBefore, isNone⟩ := returns_true.1 missing
  rw [Option.isNone_iff_eq_none.1 isNone] at searchedBefore
  obtain ⟨wf, -⟩ := smallRoot_new.wf smallPartition_layout
  obtain ⟨⟨r', found, -⟩, -⟩ := claim _ _ _ _ longName _ 1 .regular smallPartition_layout smallRoot_new.map wf.slots.toBlocks (by decide)
    (by decide) (by decide) (by decide) created entered searchedBefore
  rw [searched] at found
  cases found
  cases lost

end Kept

end Sparrow
