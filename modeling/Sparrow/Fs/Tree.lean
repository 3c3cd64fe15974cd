import Mathlib.Data.Finset.Prod
import Mathlib.Data.Finset.Card
import Sparrow.Fs.DirMap
import Sparrow.Fs.FileWrite
import Sparrow.Lib.Naming

/-!
# The tree of directories

`Tree` is what holds of the disk and the block bitmap between two system calls: every live
inode is a well-formed directory or file, the entries of the directories form a naming
graph, and no block belongs to two inodes. The theorems of this module say what a change
of one inode, the entry of a new one and the removal of an old one do to a tree; they know
nothing of the calls that make these changes.
-/

namespace Sparrow
set_option autoImplicit false

section Move

variable {part : Partition} {n : Nat} {v : Vnode} {selfNo parentNo : Nat}

theorem SameStored.inRange {a b : Inode} (h : SameStored a b) (range : b.InRange) : a.InRange :=
  ⟨h.iNo ▸ range.iNo, h.iSize ▸ range.iSize, fun k => h.sec k ▸ range.iSectors k⟩

/-- A directory is well formed wherever its inode, its sectors and its bits are. -/
theorem DirWf.move (wf : DirWf part n v selfNo parentNo) (v' : Vnode) (stored : SameStored v'.inode v.inode)
    (same : ∀ lba, Owns (blockRef v.disk v.inode) lba → SameSector v.disk v'.disk lba)
    (bits : ∀ i, Owns (blockRef v.disk v.inode) (part.sb.dataStartLba + i) → v.blockBitmap.Set i → v'.blockBitmap.Set i) :
    DirWf part n v' selfNo parentNo ∧ (∀ k j y, ItemAt v' k j y ↔ ItemAt v k j y) ∧
      ∀ k, k < 141 → blockRef v'.disk v'.inode k = blockRef v.disk v.inode k :=
  wf.frame stored.iSectors (stored.inRange wf.range) same bits

theorem FileWf.move (wf : FileWf part n v) (v' : Vnode) (stored : SameStored v'.inode v.inode)
    (same : ∀ lba, Owns (blockRef v.disk v.inode) lba → SameSector v.disk v'.disk lba)
    (bits : ∀ i, Owns (blockRef v.disk v.inode) (part.sb.dataStartLba + i) → v.blockBitmap.Set i → v'.blockBitmap.Set i) :
    FileWf part n v' ∧ ∀ k, k < 141 → blockRef v'.disk v'.inode k = blockRef v.disk v.inode k := by
  have refs : ∀ k, k < 141 → blockRef v'.disk v'.inode k = blockRef v.disk v.inode k := fun k lt =>
    blockRef_congr stored.sec (fun has => same _ ⟨has, 140, by omega, rfl⟩) lt
  have blocks : fileBlocks v'.inode = fileBlocks v.inode := by
    rw [fileBlocks, fileBlocks, stored.sec, stored.iSize]
  refine ⟨⟨wf.blocks.congr refs bits, ⟨fun k lt => ?_, ?_, ?_⟩, stored.inRange wf.range, ?_, by rw [blocks]; exact wf.few,
    fun k lt => ?_⟩, refs⟩
  · rw [refs k (by omega), blocks]
    exact wf.filled.refs k lt
  · rw [stored.sec, blocks]
    exact wf.filled.table
  · rw [stored.sec]
    exact wf.filled.onDisk
  · rw [stored.sec, stored.iSize]
    exact wf.empty
  · rw [stored.iSize] at lt
    have few := wf.few
    have has : v.inode.sec 0 ≠ 0 := fun none => by
      have := wf.empty none
      omega
    rw [fileBlocks_of_some has] at few
    rw [refs k (by omega)]
    exact wf.onDisk k lt

end Move

section Size

open Classical in
/-- The slots of a directory that are in use. -/
noncomputable def usedSlots (v : Vnode) : Finset (Nat × Nat) :=
  (Finset.range 140 ×ˢ Finset.range 21).filter fun p => ∃ x, ItemAt v p.1 p.2 x

/-- `i_size` of a directory counts its entries. -/
def Sized (v : Vnode) : Prop := v.inode.iSize = direntSize * (usedSlots v).card

variable {part : Partition} {n : Nat} {v v' : Vnode} {selfNo parentNo : Nat} {x : Item} {k₀ j₀ : Nat}

theorem mem_usedSlots {k j : Nat} : (k, j) ∈ usedSlots v ↔ ∃ x, ItemAt v k j x := by
  simp only [usedSlots, Finset.mem_filter, Finset.mem_product, Finset.mem_range, and_iff_right_iff_imp]
  rintro ⟨x, at_⟩
  exact ⟨at_.block, at_.slot⟩

attribute [irreducible] usedSlots

theorem usedSlots_card_le : (usedSlots v).card ≤ 2940 := by
  have sub : usedSlots v ⊆ Finset.range 140 ×ˢ Finset.range 21 := by
    intro p mem
    simp only [Finset.mem_product, Finset.mem_range]
    obtain ⟨x, at_⟩ := mem_usedSlots.1 mem
    exact ⟨at_.block, at_.slot⟩
  have le := Finset.card_le_card sub
  rwa [Finset.card_product, Finset.card_range, Finset.card_range] at le

theorem Sized.congr (sized : Sized v) (size : v'.inode.iSize = v.inode.iSize)
    (items : ∀ k j y, ItemAt v' k j y ↔ ItemAt v k j y) : Sized v' := by
  have same : usedSlots v' = usedSlots v := by
    ext ⟨k, j⟩
    simp only [mem_usedSlots, items]
  rw [Sized, size, same]
  exact sized

theorem Inserted.sized (sized : Sized v) (ins : Inserted part n v v' x k₀ j₀) : Sized v' := by
  have grown : usedSlots v' = insert (k₀, j₀) (usedSlots v) := by
    ext ⟨k, j⟩
    simp only [mem_usedSlots, ins.items, Finset.mem_insert, Prod.mk.injEq]
    constructor
    · rintro ⟨y, old | ⟨rfl, rfl, -⟩⟩
      · exact .inr ⟨y, old⟩
      · exact .inl ⟨rfl, rfl⟩
    · rintro (⟨rfl, rfl⟩ | ⟨y, old⟩)
      · exact ⟨x, .inr ⟨rfl, rfl, rfl⟩⟩
      · exact ⟨y, .inl old⟩
  have fresh : (k₀, j₀) ∉ usedSlots v := fun mem => by
    obtain ⟨y, at_⟩ := mem_usedSlots.1 mem
    exact ins.empty y at_
  have few := usedSlots_card_le (v := v)
  rw [Sized] at sized ⊢
  rw [grown, Finset.card_insert_of_notMem fresh, ins.inode]
  simp only [sized, direntSize]
  rw [addU32_of_lt (by omega)]
  omega

theorem Removed.sized (sized : Sized v) (rem : Removed part n v v' x k₀ j₀) : Sized v' := by
  have less : usedSlots v' = (usedSlots v).erase (k₀, j₀) := by
    ext ⟨k, j⟩
    simp only [mem_usedSlots, rem.items, Finset.mem_erase, ne_eq, Prod.mk.injEq]
    constructor
    · rintro ⟨y, old, other⟩
      exact ⟨other, y, old⟩
    · rintro ⟨other, y, old⟩
      exact ⟨y, old, other⟩
  have was : (k₀, j₀) ∈ usedSlots v := mem_usedSlots.2 ⟨x, rem.was⟩
  rw [Sized] at sized ⊢
  rw [less, Finset.card_erase_of_mem was, rem.inode]
  simp only [sized, direntSize]
  omega

/-- A directory of the size of two entries has `.` and `..` only. -/
theorem Sized.empty (sized : Sized v) (wf : DirWf part n v selfNo parentNo) (two : v.inode.iSize = 2 * direntSize) {k j : Nat}
    (at_ : ItemAt v k j x) : ¬ x.Ordinary := by
  intro ord
  obtain ⟨d, dot, isDot, -⟩ := wf.dot
  obtain ⟨dd, dotDot, isDotDot, -⟩ := wf.dotDot
  have sub : {(0, 0), (0, 1), (k, j)} ⊆ usedSlots v := by
    intro p mem
    simp only [Finset.mem_insert, Finset.mem_singleton] at mem
    rcases mem with rfl | rfl | rfl
    · exact mem_usedSlots.2 ⟨d, dot⟩
    · exact mem_usedSlots.2 ⟨dd, dotDot⟩
    · exact mem_usedSlots.2 ⟨x, at_⟩
  have ne : (k, j) ≠ (0, 0) := fun e => by
    cases e
    exact ord.1 (at_.unique dot ▸ isDot)
  have ne' : (k, j) ≠ (0, 1) := fun e => by
    cases e
    exact ord.2 (at_.unique dotDot ▸ isDotDot)
  have three : ({(0, 0), (0, 1), (k, j)} : Finset (Nat × Nat)).card = 3 := by
    rw [Finset.card_insert_of_notMem, Finset.card_insert_of_notMem, Finset.card_singleton]
    · simpa using ne'.symm
    · simp only [Finset.mem_insert, Finset.mem_singleton, not_or]
      exact ⟨by decide, ne.symm⟩
  have := Finset.card_le_card sub
  rw [three] at this
  rw [Sized, two] at sized
  simp only [direntSize] at sized
  omega

theorem NewDir.sized (lay : Layout part n) (new : NewDir part n v selfNo parentNo) : Sized v := by
  obtain ⟨wf, none⟩ := new.wf lay
  obtain ⟨d, dot, isDot, -⟩ := wf.dot
  obtain ⟨dd, dotDot, isDotDot, -⟩ := wf.dotDot
  have two : usedSlots v = {(0, 0), (0, 1)} := by
    ext ⟨k, j⟩
    simp only [mem_usedSlots, Finset.mem_insert, Finset.mem_singleton, Prod.mk.injEq]
    constructor
    · rintro ⟨y, at_⟩
      have notOrd := none k j y at_
      simp only [Item.Ordinary, ne_eq, not_and_or, not_not] at notOrd
      rcases notOrd with e | e
      · exact .inl (wf.names _ _ _ _ _ _ at_ dot (e.trans isDot.symm))
      · exact .inr (wf.names _ _ _ _ _ _ at_ dotDot (e.trans isDotDot.symm))
    · rintro (⟨rfl, rfl⟩ | ⟨rfl, rfl⟩)
      · exact ⟨d, dot⟩
      · exact ⟨dd, dotDot⟩
  rw [Sized, two, new.size]
  rfl

end Size

/-- Which inodes are live, which of them are directories, and the directory above each. -/
structure Shape where
  live : Nat → Prop
  dir : Nat → Prop
  up : Nat → Nat

/-- The inode in slot `m` with its storage. -/
def nodeAt (part : Partition) (disk : Image) (b : Bitmap) (m : Nat) : Vnode := ⟨disk, b, slot part disk m⟩

/-- The blocks of inode `m`. -/
def owned (part : Partition) (disk : Image) (m : Nat) : Nat → Prop := Owns (blockRef disk (slot part disk m))

/-- The ordinary entries of directory `m`. -/
def entries (part : Partition) (disk : Image) (b : Bitmap) (m : Nat) (x : Item) : Prop :=
  x.Ordinary ∧ ∃ k j, ItemAt (nodeAt part disk b m) k j x

/-- An inode between two calls. -/
structure Node (part : Partition) (n : Nat) (disk : Image) (b : Bitmap) (sh : Shape) (m : Nat) : Prop where
  number : (slot part disk m).iNo = m
  deny : (slot part disk m).writeDeny = false
  dirWf : sh.dir m → DirWf part n (nodeAt part disk b m) m (sh.up m) ∧ Sized (nodeAt part disk b m)
  fileWf : ¬ sh.dir m → FileWf part n (nodeAt part disk b m)

/-- The naming graph of the directories. -/
def naming (part : Partition) (disk : Image) (b : Bitmap) (sh : Shape) : Naming Nat Item :=
  ⟨sh.live, sh.dir, sh.up, entries part disk b⟩

/-- The files and directories between two calls. -/
structure Tree (part : Partition) (n : Nat) (disk : Image) (b : Bitmap) (sh : Shape) : Prop where
  map : BlockMap part n b
  low : ∀ m, sh.live m → m < 256
  node : ∀ m, sh.live m → Node part n disk b sh m
  naming : Naming.Wf Item.iNo (fun x => x.isDir = true) 0 (naming part disk b sh)
  apart : Apart sh.live (owned part disk)

/-- Inode `m` and all that belongs to it stay as they are. -/
structure Untouched (part : Partition) (disk : Image) (b : Bitmap) (disk' : Image) (b' : Bitmap) (m : Nat) : Prop where
  slot : slot part disk' m = slot part disk m
  data : ∀ lba, owned part disk m lba → SameSector disk disk' lba
  bits : ∀ i, owned part disk m (part.sb.dataStartLba + i) → b.Set i → b'.Set i

/-- The node `f` was entered in the directory `p`. -/
def Shape.insert (sh : Shape) (p f : Nat) (isDir : Prop) : Shape where
  live := fun m => sh.live m ∨ m = f
  dir := fun m => if m = f then isDir else sh.dir m
  up := fun m => if m = f then p else sh.up m

theorem Shape.insert_dir {sh : Shape} {p f m : Nat} {isDir : Prop} (fresh : ¬ sh.live f) (live : sh.live m) :
    (sh.insert p f isDir).dir m ↔ sh.dir m := by
  have ne : m ≠ f := fun e => fresh (e ▸ live)
  show (if m = f then isDir else sh.dir m) ↔ sh.dir m
  rw [if_neg ne]

/-- The node `f` is gone. -/
def Shape.remove (sh : Shape) (f : Nat) : Shape := { sh with live := fun m => sh.live m ∧ m ≠ f }

section Nodes

variable {part : Partition} {n m : Nat} {disk disk' : Image} {b b' : Bitmap} {sh sh' : Shape}

theorem Node.blocks (node : Node part n disk b sh m) : BlocksWf part n b (blockRef disk (slot part disk m)) := by
  by_cases dir : sh.dir m
  · exact (node.dirWf dir).1.blocks
  · exact (node.fileWf dir).blocks

theorem Node.range (node : Node part n disk b sh m) : (slot part disk m).InRange := by
  by_cases dir : sh.dir m
  · exact (node.dirWf dir).1.range
  · exact (node.fileWf dir).range

/-- Of the shape, a node knows its own kind and the directory above. -/
theorem Node.shape (node : Node part n disk b sh m) (dir : sh'.dir m ↔ sh.dir m) (up : sh.dir m → sh'.up m = sh.up m) :
    Node part n disk b sh' m := by
  refine ⟨node.number, node.deny, fun d => ?_, fun d => ?_⟩
  · rw [dir] at d
    rw [up d]
    exact node.dirWf d
  · rw [dir] at d
    exact node.fileWf d

/-- A write that meets neither the slot nor a block of an inode leaves it as it is. -/
theorem DiskFrame.untouched {B N : Nat → Prop} (frame : DiskFrame part B N disk disk') (node : Node part n disk b sh m)
    (lt : m < 4096) (slot : ¬ N m) (data : ∀ lba, Sparrow.owned part disk m lba → ¬ B lba)
    (bits : ∀ i, Sparrow.owned part disk m (part.sb.dataStartLba + i) → b.Set i → b'.Set i) :
    Untouched part disk b disk' b' m :=
  ⟨frame.slot_eq lt slot, fun lba o => frame.data lba (node.blocks.owned o).ge (data lba o), bits⟩

theorem Untouched.owned (u : Untouched part disk b disk' b' m) (lba : Nat) :
    owned part disk' m lba ↔ owned part disk m lba := by
  refine Owns.congr fun k lt => ?_
  rw [u.slot]
  exact blockRef_congr (fun _ => rfl) (fun has => u.data _ ⟨has, 140, by omega, rfl⟩) lt

theorem Untouched.refl : Untouched part disk b disk b m := ⟨rfl, fun _ _ _ _ => rfl, fun _ _ => id⟩

/-- What stays as it is stays well formed, and keeps its entries. -/
theorem Untouched.trans {disk'' : Image} {b'' : Bitmap} (u : Untouched part disk b disk' b' m)
    (u' : Untouched part disk' b' disk'' b'' m) : Untouched part disk b disk'' b'' m := by
  refine ⟨u'.slot.trans u.slot, fun lba o i lt => ?_, fun i o set => ?_⟩
  · exact (u'.data lba ((u.owned lba).2 o) i lt).trans (u.data lba o i lt)
  · exact u'.bits i ((u.owned _).2 o) (u.bits i o set)

theorem Untouched.dirWf (u : Untouched part disk b disk' b' m) {selfNo parentNo : Nat}
    (wf : DirWf part n (nodeAt part disk b m) selfNo parentNo) :
    DirWf part n (nodeAt part disk' b' m) selfNo parentNo ∧
      ∀ k j y, ItemAt (nodeAt part disk' b' m) k j y ↔ ItemAt (nodeAt part disk b m) k j y := by
  obtain ⟨wf', items, -⟩ := wf.move (nodeAt part disk' b' m) (by
    show SameStored (Sparrow.slot part disk' m) (Sparrow.slot part disk m)
    rw [u.slot]
    exact .refl _) u.data u.bits
  exact ⟨wf', items⟩

theorem Untouched.node (u : Untouched part disk b disk' b' m) (node : Node part n disk b sh m) (dir : sh'.dir m ↔ sh.dir m)
    (up : sh.dir m → sh'.up m = sh.up m) : Node part n disk' b' sh' m := by
  refine ⟨by rw [u.slot]; exact node.number, by rw [u.slot]; exact node.deny, fun d => ?_, fun d => ?_⟩
  · rw [dir] at d
    obtain ⟨wf, sized⟩ := node.dirWf d
    obtain ⟨wf', items⟩ := u.dirWf wf
    rw [up d]
    refine ⟨wf', sized.congr ?_ items⟩
    show (Sparrow.slot part disk' m).iSize = (Sparrow.slot part disk m).iSize
    rw [u.slot]
  · rw [dir] at d
    refine ((node.fileWf d).move (nodeAt part disk' b' m) ?_ u.data u.bits).1
    show SameStored (Sparrow.slot part disk' m) (Sparrow.slot part disk m)
    rw [u.slot]
    exact .refl _

theorem Untouched.entries (u : Untouched part disk b disk' b' m) (node : Node part n disk b sh m) (dir : sh.dir m) (x : Item) :
    entries part disk' b' m x ↔ entries part disk b m x :=
  and_congr_right fun _ => exists_congr fun k => exists_congr fun j => (u.dirWf (node.dirWf dir).1).2 k j x

end Nodes

section Changes

variable {part : Partition} {n : Nat} {disk disk' : Image} {b b' : Bitmap} {sh sh' : Shape}

/-- Changes that concern no live inode. -/
theorem Tree.frame (tree : Tree part n disk b sh) (untouched : ∀ m, sh.live m → Untouched part disk b disk' b' m)
    (map : BlockMap part n b') : Tree part n disk' b' sh := by
  refine ⟨map, tree.low, fun m live => (untouched m live).node (tree.node m live) Iff.rfl fun _ => rfl, ?_, ?_⟩
  · exact tree.naming.congr (fun _ => Iff.rfl) (fun _ _ => Iff.rfl) (fun _ _ _ => rfl)
      fun m x live dir => (untouched m live).entries (tree.node m live) dir x
  · refine tree.apart.step (fun _ _ => False) (fun m lba live o => .inl ⟨live, ?_⟩) (fun _ _ h => h.elim) (fun _ _ _ h => h.elim)
    exact ((untouched m live).owned lba).1 o

/-- The file `f` changes; the blocks it gets were free. -/
theorem Tree.change (tree : Tree part n disk b sh) {f : Nat} (file : ¬ sh.dir f)
    (untouched : ∀ m, sh.live m → m ≠ f → Untouched part disk b disk' b' m) (map : BlockMap part n b')
    (node : Node part n disk' b' sh f)
    (gain : ∀ lba, owned part disk' f lba → owned part disk f lba ∨ ∃ i, lba = part.sb.dataStartLba + i ∧ ¬ b.Set i) :
    Tree part n disk' b' sh := by
  refine ⟨map, tree.low, fun m live => ?_, ?_, ?_⟩
  · by_cases e : m = f
    · rw [e]
      exact node
    · exact (untouched m live e).node (tree.node m live) Iff.rfl fun _ => rfl
  · refine tree.naming.congr (fun _ => Iff.rfl) (fun _ _ => Iff.rfl) (fun _ _ _ => rfl) fun m x live dir => ?_
    have ne : m ≠ f := fun e => file (e ▸ dir)
    exact (untouched m live ne).entries (tree.node m live) dir x
  · refine tree.apart.step (fun m lba => m = f ∧ ∃ i, lba = part.sb.dataStartLba + i ∧ ¬ b.Set i)
      (fun m lba live o => ?_) ?_ fun m m' _ h h' => h.1.trans h'.1.symm
    · by_cases e : m = f
      · subst e
        exact (gain lba o).imp (fun o => ⟨live, o⟩) fun free => ⟨rfl, free⟩
      · exact .inl ⟨live, ((untouched m live e).owned lba).1 o⟩
    · rintro m lba ⟨-, i, rfl, clear⟩ m' live' o
      obtain ⟨j, -, is, set⟩ := (tree.node m' live').blocks.owned o
      exact clear ((show j = i by omega) ▸ set)

/-- A new inode `f` gets a name in the directory `p`. -/
theorem Tree.insert (tree : Tree part n disk b sh) {p f : Nat} {x : Item} (is : x.iNo = f) (low : f < 256) (lp : sh.live p)
    (dp : sh.dir p) (fresh : ¬ sh.live f) (untouched : ∀ m, sh.live m → m ≠ p → Untouched part disk b disk' b' m)
    (map : BlockMap part n b') (parent : Node part n disk' b' sh p)
    (node : Node part n disk' b' (sh.insert p f (x.isDir = true)) f)
    (added : ∀ y, entries part disk' b' p y ↔ entries part disk b p y ∨ y = x)
    (none : x.isDir = true → ∀ y, ¬ entries part disk' b' f y)
    (gain : ∀ lba, owned part disk' p lba → owned part disk p lba ∨ ∃ i, lba = part.sb.dataStartLba + i ∧ ¬ b.Set i)
    (own : ∀ lba, owned part disk' f lba → (∀ m, sh.live m → ¬ owned part disk m lba) ∧ ¬ owned part disk' p lba) :
    Tree part n disk' b' (sh.insert p f (x.isDir = true)) := by
  have ne : ∀ {m}, sh.live m → m ≠ f := fun live e => fresh (e ▸ live)
  have dir : ∀ m, sh.live m → ((sh.insert p f (x.isDir = true)).dir m ↔ sh.dir m) := fun m live => by
    simp only [Shape.insert, if_neg (ne live)]
  have up : ∀ m, sh.live m → (sh.insert p f (x.isDir = true)).up m = sh.up m := fun m live => if_neg (ne live)
  have dirNew : (sh.insert p f (x.isDir = true)).dir f ↔ x.isDir = true := by simp only [Shape.insert, if_true]
  refine ⟨map, fun m live => ?_, fun m live => ?_, ?_, ?_⟩
  · rcases live with old | rfl
    · exact tree.low m old
    · exact low
  · rcases live with old | rfl
    · by_cases e : m = p
      · rw [e]
        exact parent.shape (dir p lp) fun _ => up p lp
      · exact (untouched m old e).node (tree.node m old) (dir m old) fun _ => up m old
    · exact node
  · refine tree.naming.insert is lp dp fresh (fun _ => Iff.rfl) dir dirNew (fun m live _ => up m live) (fun _ => if_pos rfl)
      (fun m y live d => ?_) fun d => none (dirNew.1 d)
    by_cases e : m = p
    · subst e
      refine (added y).trans (or_congr_right ?_)
      simp
    · refine ((untouched m live e).entries (tree.node m live) d y).trans ?_
      simp only [e, false_and, or_false]
      rfl
  · refine tree.apart.step (fun m lba => (m = p ∧ owned part disk' p lba ∧ ∃ i, lba = part.sb.dataStartLba + i ∧ ¬ b.Set i) ∨
      (m = f ∧ owned part disk' f lba)) (fun m lba live o => ?_) ?_ ?_
    · rcases live with old | rfl
      · by_cases e : m = p
        · subst e
          exact (gain lba o).imp (fun o => ⟨old, o⟩) fun free => .inl ⟨rfl, o, free⟩
        · exact .inl ⟨old, ((untouched m old e).owned lba).1 o⟩
      · exact .inr (.inr ⟨rfl, o⟩)
    · rintro m lba (⟨-, -, i, rfl, clear⟩ | ⟨-, o⟩) m' live' o'
      · obtain ⟨j, -, is, set⟩ := (tree.node m' live').blocks.owned o'
        exact clear ((show j = i by omega) ▸ set)
      · exact (own lba o).1 m' live' o'
    · rintro m m' lba (⟨rfl, o, -⟩ | ⟨rfl, o⟩) (⟨rfl, o', -⟩ | ⟨rfl, o'⟩)
      · rfl
      · exact absurd o (own lba o').2
      · exact absurd o' (own lba o).2
      · rfl

/-- The inode `f` loses its name in the directory `p` and is gone; its blocks are free to
be given back. -/
theorem Tree.remove (tree : Tree part n disk b sh) {p f : Nat} {x : Item} (is : x.iNo = f) (lp : sh.live p) (dp : sh.dir p)
    (has : entries part disk b p x) (empty : sh.dir f → ∀ y, ¬ entries part disk b f y)
    (untouched : ∀ m, sh.live m → m ≠ p → m ≠ f → Untouched part disk b disk' b' m) (map : BlockMap part n b')
    (parent : Node part n disk' b' sh p) (less : ∀ y, entries part disk' b' p y ↔ entries part disk b p y ∧ y ≠ x)
    (own : ∀ lba, owned part disk' p lba → owned part disk p lba) : Tree part n disk' b' (sh.remove f) := by
  refine ⟨map, fun m live => tree.low m live.1, fun m live => ?_, ?_, ?_⟩
  · by_cases e : m = p
    · rw [e]
      exact parent.shape Iff.rfl fun _ => rfl
    · exact (untouched m live.1 e live.2).node (tree.node m live.1) Iff.rfl fun _ => rfl
  · refine tree.naming.remove is lp dp has empty (fun _ => Iff.rfl) (fun _ _ => Iff.rfl) (fun _ _ _ => rfl) fun m y live d => ?_
    by_cases e : m = p
    · subst e
      refine (less y).trans (and_congr_right fun _ => ?_)
      simp
    · refine ((untouched m live.1 e live.2).entries (tree.node m live.1) d y).trans ?_
      simp only [e, false_and, not_false_eq_true, and_true]
      rfl
  · refine tree.apart.step (fun _ _ => False) (fun m lba live o => .inl ⟨live.1, ?_⟩) (fun _ _ h => h.elim) (fun _ _ _ h => h.elim)
    by_cases e : m = p
    · subst e
      exact own lba o
    · exact ((untouched m live.1 e live.2).owned lba).1 o

end Changes

end Sparrow
