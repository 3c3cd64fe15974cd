import Sparrow.Fs.Blocks

/-!
# The entries of a directory

A directory is a set of slots: slot `j` of block `k` is dead or holds a named entry. The
names are zero-padded byte strings of at most 15 bytes, so `strcmp` tells them apart.
`DirWf` is what every directory satisfies between two calls; `searchEntry_spec` says what
`search_dir_entry` finds in one.
-/

namespace Sparrow
set_option autoImplicit false

/-- A name as it is stored in a directory. -/
structure Name where
  bytes : List Byte
  nonempty : bytes ≠ []
  short : bytes.length ≤ 15
  noZero : 0#8 ∉ bytes
  deriving DecidableEq

def Name.dot : Name := ⟨Sparrow.dot, by decide, by decide, by decide⟩

def Name.dotDot : Name := ⟨Sparrow.dotDot, by decide, by decide, by decide⟩

/-- What an entry in use records. -/
structure Item where
  name : Name
  iNo : Nat
  isDir : Bool
  inRange : iNo < 2 ^ 32
  deriving DecidableEq

def Item.fType (x : Item) : FileTypes := if x.isDir then .directory else .regular

/-- The entry as `create_dir_entry` fills it in. -/
def Item.entry (x : Item) : DirEntry := ⟨fun i => x.name.bytes.getD i.val 0#8, x.iNo, x.fType.code⟩

/-- Neither `.` nor `..`. -/
def Item.Ordinary (x : Item) : Prop := x.name ≠ .dot ∧ x.name ≠ .dotDot

instance (x : Item) : Decidable x.Ordinary := inferInstanceAs (Decidable (_ ∧ _))

/-- A slot not in use; its name is empty. -/
def DirEntry.Dead (e : DirEntry) : Prop := e.fType = FileTypes.unknown.code ∧ e.filename 0 = 0#8

section Names

theorem getD_zero_iff {l : List Byte} (noZero : 0#8 ∉ l) {i : Nat} : l.getD i 0#8 = 0#8 ↔ l.length ≤ i := by
  rw [List.getD_eq_getElem?_getD]
  cases e : l[i]? with
  | none => simp [List.getElem?_eq_none_iff.1 e]
  | some b =>
    have mem := List.mem_of_getElem? e
    have lt := (List.getElem?_eq_some_iff.1 e).1
    simp only [Option.getD_some]
    constructor
    · rintro rfl; exact absurd mem noZero
    · intro le; omega

/-- Strings are equal when they agree up to the terminator of one of them. -/
theorem eq_of_padded {x y : List Byte} (zx : 0#8 ∉ x) (zy : 0#8 ∉ y)
    (same : ∀ i, i ≤ y.length → x.getD i 0#8 = y.getD i 0#8) : x = y := by
  have le : x.length ≤ y.length := by
    rw [← getD_zero_iff zx, same _ (Nat.le_refl _)]
    exact (getD_zero_iff zy).2 (Nat.le_refl _)
  have ge : y.length ≤ x.length := by
    rw [← getD_zero_iff zy, ← same _ le]
    exact (getD_zero_iff zx).2 (Nat.le_refl _)
  apply List.ext_getElem (by omega)
  intro i h1 h2
  have := same i (by omega)
  simpa [List.getD_eq_getElem?_getD, h1, h2] using this

theorem Name.ext_bytes {x y : Name} (h : x.bytes = y.bytes) : x = y := by
  cases x
  cases y
  simp only at h
  subst h
  rfl

/-- The name of an entry in use is found again from its bytes. -/
theorem Item.entry_inj {x y : Item} (h : x.entry = y.entry) : x = y := by
  have names : x.name = y.name := by
    apply Name.ext_bytes
    apply eq_of_padded x.name.noZero y.name.noZero
    intro i hi
    have short := y.name.short
    exact congrFun (congrArg DirEntry.filename h) ⟨i, by omega⟩
  have kinds : x.isDir = y.isDir := by
    have := congrArg DirEntry.fType h
    simp only [Item.entry, Item.fType] at this
    cases hx : x.isDir <;> cases hy : y.isDir <;> simp [hx, hy, FileTypes.code] at this ⊢
  have numbers : x.iNo = y.iNo := congrArg DirEntry.iNo h
  cases x
  cases y
  simp only at names kinds numbers
  subst names kinds numbers
  rfl

theorem Item.fType_ne (x : Item) : x.entry.fType ≠ FileTypes.unknown.code := by
  simp only [Item.entry, Item.fType]
  split <;> decide

theorem Item.not_dead (x : Item) : ¬ x.entry.Dead := fun dead => x.fType_ne dead.1

theorem strEq_iff {m : Image} {a : Nat} {str : List Byte} :
    strEq m a str = true ↔ ∀ i, i ≤ str.length → m (a + i) = str.getD i 0#8 := by
  simp only [strEq, List.all_eq_true, List.mem_range, beq_iff_eq]
  exact ⟨fun h i le => h i (by omega), fun h i lt => h i (by omega)⟩

theorem strEq_shifted (m : Image) (b a : Nat) (str : List Byte) : strEq (shifted m b) a str = strEq m (b + a) str := by
  simp only [strEq, shifted, Nat.add_assoc]

theorem decodeDirent_shifted (m : Image) (b j : Nat) : decodeDirent (shifted m b) 0 j = decodeDirent m b j := by
  have word : ∀ a, word32 (shifted m b) a = word32 m (b + a) := fun _ => rfl
  simp only [decodeDirent, shifted, word, Nat.zero_add, Nat.add_assoc]

/-- Comparing with the name in a slot compares names. -/
theorem strEq_item {m : Image} {a j : Nat} {x : Item} (h : decodeDirent m a j = x.entry) (y : Name) :
    strEq m (a + direntSize * j) y.bytes = true ↔ x.name = y := by
  have bytes : ∀ i, i < 16 → m (a + direntSize * j + i) = x.name.bytes.getD i 0#8 := fun i hi =>
    congrFun (congrArg DirEntry.filename h) ⟨i, hi⟩
  have short := y.short
  rw [strEq_iff]
  constructor
  · intro same
    apply Name.ext_bytes
    apply eq_of_padded x.name.noZero y.noZero
    intro i hi
    rw [← bytes i (by omega), same i hi]
  · rintro rfl i hi
    exact bytes i (by omega)

theorem strEq_dead {m : Image} {a j : Nat} (dead : (decodeDirent m a j).Dead) (y : Name) :
    strEq m (a + direntSize * j) y.bytes = false := by
  rw [Bool.eq_false_iff]
  intro same
  rw [strEq_iff] at same
  have first := same 0 (by omega)
  have zero : m (a + direntSize * j + 0) = 0#8 := dead.2
  rw [zero, eq_comm, getD_zero_iff y.noZero] at first
  exact y.nonempty (List.length_eq_zero_iff.1 (by omega))

/-- Entries depend on their 24 bytes only. -/
theorem decodeDirent_congr {m m' : Image} {a a' j j' : Nat}
    (same : ∀ i, i < direntSize → m' (a' + direntSize * j' + i) = m (a + direntSize * j + i)) :
    decodeDirent m' a' j' = decodeDirent m a j := by
  simp only [direntSize] at same
  have w16 : word32 m' (a' + 24 * j' + 16) = word32 m (a + 24 * j + 16) :=
    word32_congr fun i hi => by rw [Nat.add_assoc, Nat.add_assoc (a + 24 * j)]; exact same _ (by omega)
  have w20 : word32 m' (a' + 24 * j' + 20) = word32 m (a + 24 * j + 20) :=
    word32_congr fun i hi => by rw [Nat.add_assoc, Nat.add_assoc (a + 24 * j)]; exact same _ (by omega)
  have names : ∀ i : Fin 16, m' (a' + 24 * j' + i.val) = m (a + 24 * j + i.val) :=
    fun i => same _ (by have := i.isLt; omega)
  simp only [decodeDirent, direntSize, w16, w20, names]

/-- A slot whose bytes are the image of an entry decodes to it. -/
theorem decodeDirent_bytes {m : Image} {a j : Nat} {e : DirEntry} (number : e.iNo < 2 ^ 32) (kind : e.fType < 2 ^ 32)
    (bytes : ∀ i, i < direntSize → m (a + direntSize * j + i) = e.image i) : decodeDirent m a j = e := by
  simp only [direntSize] at bytes
  have word : ∀ o w, o = 16 + 4 * w → w < 2 → word32 m (a + 24 * j + o) = (if w = 0 then e.iNo else e.fType) % 2 ^ 32 := by
    rintro o w rfl lt
    rw [← word32_wordsImage (fun w => if w = 0 then e.iNo else e.fType)]
    apply word32_congr
    intro i hi
    rw [Nat.add_assoc, bytes _ (by omega)]
    obtain is | is := e.image_word (x := 16 + 4 * w + i) (by omega)
    · rw [is]
      congr 1; omega
    · omega
  have number' : word32 m (a + 24 * j + 16) = e.iNo := by
    rw [word 16 0 rfl (by omega), if_pos rfl]
    exact Nat.mod_eq_of_lt number
  have kind' : word32 m (a + 24 * j + 20) = e.fType := by
    rw [word 20 1 rfl (by omega), if_neg (by omega)]
    exact Nat.mod_eq_of_lt kind
  have names : (fun i : Fin 16 => m (a + 24 * j + i.val)) = e.filename := by
    funext i
    rw [bytes _ (by have := i.isLt; omega), DirEntry.image_name _ i.isLt]
  simp only [decodeDirent, direntSize, number', kind', names]

theorem FileTypes.code_lt (t : FileTypes) : t.code < 2 ^ 32 := by cases t <;> decide

theorem decodeDirent_image {m : Image} {a j : Nat} (x : Item)
    (bytes : ∀ i, i < direntSize → m (a + direntSize * j + i) = x.entry.image i) : decodeDirent m a j = x.entry :=
  decodeDirent_bytes x.inRange x.fType.code_lt bytes

/-- Zero bytes are a dead slot. -/
theorem decodeDirent_dead {m : Image} {a j : Nat} (bytes : ∀ i, i < direntSize → m (a + direntSize * j + i) = 0#8) :
    (decodeDirent m a j).Dead := by
  simp only [direntSize] at bytes
  refine ⟨?_, bytes 0 (by omega)⟩
  have z : ∀ i, i < 4 → m (a + 24 * j + 20 + i) = 0#8 := fun i hi => by rw [Nat.add_assoc]; exact bytes _ (by omega)
  have z0 := z 0 (by omega)
  simp only [Nat.add_zero] at z0
  simp only [decodeDirent, direntSize, word32, z0, z 1 (by omega), z 2 (by omega), z 3 (by omega)]
  rfl

end Names

/-- The entry in slot `j` of block `k`. -/
def entryAt (disk : Image) (ino : Inode) (k j : Nat) : DirEntry := decodeDirent disk (512 * blockRef disk ino k) j

/-- Slot `j` of block `k` is in use, for `x`. -/
structure ItemAt (v : Vnode) (k j : Nat) (x : Item) : Prop where
  block : k < 140
  slot : j < 21
  has : blockRef v.disk v.inode k ≠ 0
  entry : entryAt v.disk v.inode k j = x.entry

/-- A directory between two calls: number `selfNo`, in the directory `parentNo`. -/
structure DirWf (part : Partition) (n : Nat) (v : Vnode) (selfNo parentNo : Nat) : Prop where
  blocks : BlocksWf part n v.blockBitmap (blockRef v.disk v.inode)
  onDisk : ∀ k, k < 141 → blockRef v.disk v.inode k ≤ maxLba
  range : v.inode.InRange
  first : blockRef v.disk v.inode 0 ≠ 0
  notRoot : ∀ k, 0 < k → k < 141 → blockRef v.disk v.inode k ≠ part.sb.dataStartLba
  table : v.inode.sec 12 ≠ 0 → blockRef v.disk v.inode 12 ≠ 0
  used : ∀ k j, k < 140 → j < 21 → blockRef v.disk v.inode k ≠ 0 →
    (entryAt v.disk v.inode k j).Dead ∨ ∃ x : Item, entryAt v.disk v.inode k j = x.entry
  dot : ∃ x, ItemAt v 0 0 x ∧ x.name = .dot ∧ x.iNo = selfNo ∧ x.isDir = true
  dotDot : ∃ x, ItemAt v 0 1 x ∧ x.name = .dotDot ∧ x.iNo = parentNo ∧ x.isDir = true
  names : ∀ k j x k' j' y, ItemAt v k j x → ItemAt v k' j' y → x.name = y.name → k = k' ∧ j = j'
  numbers : ∀ k j x k' j' y, ItemAt v k j x → ItemAt v k' j' y → x.Ordinary → y.Ordinary → x.iNo = y.iNo →
    k = k' ∧ j = j'
  busy : ∀ k, 0 < k → k < 140 → blockRef v.disk v.inode k ≠ 0 → ∃ j x, ItemAt v k j x

/-- The part of it that does not ask whether two entries have the same name or number. -/
structure DirSlots (part : Partition) (n : Nat) (v : Vnode) (selfNo parentNo : Nat) : Prop where
  blocks : BlocksWf part n v.blockBitmap (blockRef v.disk v.inode)
  onDisk : ∀ k, k < 141 → blockRef v.disk v.inode k ≤ maxLba
  range : v.inode.InRange
  first : blockRef v.disk v.inode 0 ≠ 0
  notRoot : ∀ k, 0 < k → k < 141 → blockRef v.disk v.inode k ≠ part.sb.dataStartLba
  table : v.inode.sec 12 ≠ 0 → blockRef v.disk v.inode 12 ≠ 0
  used : ∀ k j, k < 140 → j < 21 → blockRef v.disk v.inode k ≠ 0 →
    (entryAt v.disk v.inode k j).Dead ∨ ∃ x : Item, entryAt v.disk v.inode k j = x.entry
  dot : ∃ x, ItemAt v 0 0 x ∧ x.name = .dot ∧ x.iNo = selfNo ∧ x.isDir = true
  dotDot : ∃ x, ItemAt v 0 1 x ∧ x.name = .dotDot ∧ x.iNo = parentNo ∧ x.isDir = true
  dots : ∀ k j x, ItemAt v k j x → ¬ x.Ordinary → k = 0 ∧ j < 2
  busy : ∀ k, 0 < k → k < 140 → blockRef v.disk v.inode k ≠ 0 → ∃ j x, ItemAt v k j x

theorem Item.not_ordinary {x : Item} : ¬ x.Ordinary ↔ x.name = .dot ∨ x.name = .dotDot := by
  simp only [Item.Ordinary, ne_eq, not_and_or, not_not]

theorem DirWf.slots {part : Partition} {n selfNo parentNo : Nat} {v : Vnode} (wf : DirWf part n v selfNo parentNo) :
    DirSlots part n v selfNo parentNo := by
  refine ⟨wf.blocks, wf.onDisk, wf.range, wf.first, wf.notRoot, wf.table, wf.used, wf.dot, wf.dotDot, fun k j x at_ dots => ?_, wf.busy⟩
  obtain ⟨d, dot, isDot, -⟩ := wf.dot
  obtain ⟨dd, dotDot, isDotDot, -⟩ := wf.dotDot
  rcases Item.not_ordinary.1 dots with is | is
  · obtain ⟨rfl, rfl⟩ := wf.names _ _ _ _ _ _ at_ dot (is.trans isDot.symm)
    exact ⟨rfl, by omega⟩
  · obtain ⟨rfl, rfl⟩ := wf.names _ _ _ _ _ _ at_ dotDot (is.trans isDotDot.symm)
    exact ⟨rfl, by omega⟩

theorem DirSlots.wf {part : Partition} {n selfNo parentNo : Nat} {v : Vnode} (slots : DirSlots part n v selfNo parentNo)
    (names : ∀ k j x k' j' y, ItemAt v k j x → ItemAt v k' j' y → x.name = y.name → k = k' ∧ j = j')
    (numbers : ∀ k j x k' j' y, ItemAt v k j x → ItemAt v k' j' y → x.Ordinary → y.Ordinary → x.iNo = y.iNo →
      k = k' ∧ j = j') : DirWf part n v selfNo parentNo :=
  ⟨slots.blocks, slots.onDisk, slots.range, slots.first, slots.notRoot, slots.table, slots.used, slots.dot, slots.dotDot, names,
    numbers, slots.busy⟩

theorem ItemAt.unique {v : Vnode} {k j : Nat} {x y : Item} (h : ItemAt v k j x) (h' : ItemAt v k j y) : x = y :=
  Item.entry_inj (h.entry.symm.trans h'.entry)

/-- What is not ordinary is one of the first two entries. -/
theorem DirWf.dots {part : Partition} {n selfNo parentNo : Nat} {v : Vnode} (wf : DirWf part n v selfNo parentNo) {k j : Nat}
    {x : Item} (at_ : ItemAt v k j x) (dots : ¬ x.Ordinary) :
    x.isDir = true ∧ (x.name = .dot ∧ x.iNo = selfNo ∨ x.name = .dotDot ∧ x.iNo = parentNo) := by
  rcases Item.not_ordinary.1 dots with is | is
  · obtain ⟨y, dot, isDot, number, isDir⟩ := wf.dot
    obtain ⟨rfl, rfl⟩ := wf.names _ _ _ _ _ _ at_ dot (is.trans isDot.symm)
    rw [at_.unique dot]
    exact ⟨isDir, .inl ⟨isDot, number⟩⟩
  · obtain ⟨y, dotDot, isDotDot, number, isDir⟩ := wf.dotDot
    obtain ⟨rfl, rfl⟩ := wf.names _ _ _ _ _ _ at_ dotDot (is.trans isDotDot.symm)
    rw [at_.unique dotDot]
    exact ⟨isDir, .inr ⟨isDotDot, number⟩⟩

section Search

variable {part : Partition} {n : Nat} {v : Vnode} {selfNo parentNo : Nat}

/-- The walk of `search_dir_entry` ends at the first slot with the name. -/
theorem searchBlocks_spec {disk : Image} (size : part.sb.dirEntrySize = direntSize) (name : List Byte) :
    ∀ l : List Nat, (∀ lba ∈ l, lba ≤ maxLba) → ∃ r, searchBlocks part disk name l = .ok r ∧
      ((r = none ∧ ∀ lba ∈ l, lba ≠ 0 → ∀ j, j < 21 → strEq disk (512 * lba + direntSize * j) name = false) ∨
        ∃ lba ∈ l, lba ≠ 0 ∧ ∃ j, j < 21 ∧ strEq disk (512 * lba + direntSize * j) name = true ∧
          r = some (decodeDirent disk (512 * lba) j)) := by
  intro l
  induction l with
  | nil => intro _; exact ⟨none, rfl, .inl ⟨rfl, by simp⟩⟩
  | cons lba rest ih =>
    intro onDisk
    obtain ⟨r, found, spec⟩ := ih fun x mem => onDisk x (List.mem_cons_of_mem _ mem)
    have slots : 512 / part.sb.dirEntrySize = 21 := by rw [size]; rfl
    by_cases zero : lba = 0
    · refine ⟨r, by rw [searchBlocks, if_pos zero, found], ?_⟩
      obtain ⟨none, absent⟩ | ⟨lba', mem, rest⟩ := spec
      · refine .inl ⟨none, fun x mem ne => ?_⟩
        rcases List.mem_cons.1 mem with rfl | mem
        · exact absurd zero ne
        · exact absent x mem ne
      · exact .inr ⟨lba', List.mem_cons_of_mem _ mem, rest⟩
    · rw [searchBlocks, if_neg zero, ideRead_of (transferOk_one.2 (onDisk lba List.mem_cons_self)), ok_bind, slots]
      simp only [strEq_shifted, decodeDirent_shifted]
      cases hit : (List.range 21).find? fun j => strEq disk (512 * lba + direntSize * j) name with
      | some j =>
        have lt := List.mem_range.1 (List.mem_of_find?_eq_some hit)
        have same : strEq disk (512 * lba + direntSize * j) name = true := by simpa using List.find?_some hit
        exact ⟨_, rfl, .inr ⟨lba, List.mem_cons_self, zero, j, lt, same, rfl⟩⟩
      | none =>
        rw [List.find?_eq_none] at hit
        refine ⟨r, found, ?_⟩
        obtain ⟨none, absent⟩ | ⟨lba', mem, rest⟩ := spec
        · refine .inl ⟨none, fun x mem ne j lt => ?_⟩
          rcases List.mem_cons.1 mem with rfl | mem
          · simpa using hit j (List.mem_range.2 lt)
          · exact absent x mem ne j lt
        · exact .inr ⟨lba', List.mem_cons_of_mem _ mem, rest⟩

/-- **`search_dir_entry`** returns the entry with the name, or finds that there is none. -/
theorem searchEntry_spec (lay : Layout part n) (wf : DirWf part n v selfNo parentNo) (name : Name) :
    ∃ r, searchEntry part v.disk v.inode name.bytes = .ok r ∧
      ((r = none ∧ ∀ k j x, ItemAt v k j x → x.name ≠ name) ∨
        ∃ k j x, ItemAt v k j x ∧ x.name = name ∧ r = some x.entry) := by
  obtain ⟨all, collected⟩ := allBlocks_returns fun _ => wf.onDisk 140 (by omega)
  obtain ⟨-, refs⟩ := allBlocks_ok collected
  have mem : ∀ lba, lba ∈ (List.range 140).map all ↔ ∃ k, k < 140 ∧ blockRef v.disk v.inode k = lba := by
    intro lba
    simp only [List.mem_map, List.mem_range]
    exact ⟨fun ⟨k, lt, e⟩ => ⟨k, lt, (refs k lt).symm.trans e⟩, fun ⟨k, lt, e⟩ => ⟨k, lt, (refs k lt).trans e⟩⟩
  obtain ⟨r, found, spec⟩ := searchBlocks_spec lay.dirEntrySize name.bytes ((List.range 140).map all) (by
    intro lba h
    obtain ⟨k, lt, rfl⟩ := (mem lba).1 h
    exact wf.onDisk k (by omega))
  refine ⟨r, by rw [searchEntry, collected, ok_bind, found], ?_⟩
  obtain ⟨none, absent⟩ | ⟨lba, h, has, j, slot, same, is⟩ := spec
  · refine .inl ⟨none, fun k j x at_ same => ?_⟩
    have differs := absent _ ((mem _).2 ⟨k, at_.block, rfl⟩) at_.has j at_.slot
    rw [(strEq_item at_.entry name).2 same] at differs
    cases differs
  · obtain ⟨k, lt, rfl⟩ := (mem lba).1 h
    obtain dead | ⟨x, entry⟩ := wf.used k j lt slot has
    · rw [strEq_dead dead name] at same
      cases same
    · refine .inr ⟨k, j, x, ⟨lt, slot, has, entry⟩, (strEq_item entry name).1 same, ?_⟩
      rw [is, ← entry]
      rfl

end Search

end Sparrow
