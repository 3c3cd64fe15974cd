import Sparrow.Fs.Lookup

/-!
# Making files and directories

`file_create` and `sys_mkdir` take a number from the inode bitmap, enter it in the parent
directory, and store the two inodes. The new inode is an empty file or a directory with
`.` and `..` (`Fresh`); either way the tree has one node more (`Tree.enter`). When the
entry does not fit, everything but the bits of a block already taken is as before.
-/

namespace Sparrow
set_option autoImplicit false

/-- The slot of inode `m` stores `ino`. -/
structure Stored (part : Partition) (disk : Image) (m : Nat) (ino : Inode) : Prop where
  same : SameStored (slot part disk m) ino
  deny : (slot part disk m).writeDeny = false

/-- The inode of a new node: an empty file, or a directory with `.` and `..`. -/
inductive Fresh (part : Partition) (n : Nat) (disk : Image) (b : Bitmap) (ino : Inode) (p f : Nat) : Bool → Prop
  | file (number : ino.iNo < 2 ^ 32) (size : ino.iSize = 0) (secs : ∀ k, ino.sec k = 0) : Fresh part n disk b ino p f false
  | dir (new : NewDir part n ⟨disk, b, ino⟩ f p) : Fresh part n disk b ino p f true

section Storing

variable {part : Partition} {n m : Nat} {disk disk' : Image} {b : Bitmap} {ino : Inode} {p f : Nat}

theorem SlotHolds.stored (holds : SlotHolds part disk m ino) (range : ino.InRange) : Stored part disk m ino := by
  obtain ⟨same, deny, -⟩ := decode_image range holds
  exact ⟨same, deny⟩

/-- The blocks of an inode are those of the inode its slot stores. -/
theorem Stored.owned (stored : Stored part disk' m ino)
    (table : ino.sec 12 ≠ 0 → SameSector disk disk' (ino.sec 12)) (lba : Nat) :
    owned part disk' m lba ↔ Owns (blockRef disk ino) lba :=
  Owns.congr fun _ lt => blockRef_congr stored.same.sec table lt

/-- Two inodes are stored and the inode bitmap is written: what all who make an inode end
with. -/
theorem twoStored (lay : Layout part n) {d₁ d₂ : Image} {ino' : Inode} {bits : Bitmap} (lp : ino'.iNo < 256) (lf : ino.iNo < 256)
    (ne : ino'.iNo ≠ ino.iNo) (range' : ino'.InRange) (range : ino.InRange) (h₁ : inodeSync part disk ino' = .ok d₁)
    (h₂ : inodeSync part d₁ ino = .ok d₂) (h₃ : bitmapSync d₂ part.sb.inodeBitmapLba bits ino.iNo = .ok disk') :
    Stored part disk' ino'.iNo ino' ∧ Stored part disk' ino.iNo ino ∧
      DiskFrame part (fun _ => False) (fun x => x = ino'.iNo ∨ x = ino.iNo) disk disk' ∧
      (∀ i, i < 512 → disk' (512 * part.sb.inodeBitmapLba + i) = bits.bits i) ∧
      ∀ X b, SyncedBut part X disk b → SyncedBut part X disk' b := by
  obtain rfl := inodeSync_ok h₁
  obtain rfl := inodeSync_ok h₂
  have is : ino'.iNo % 256 = ino'.iNo := Nat.mod_eq_of_lt lp
  have is' : ino.iNo % 256 = ino.iNo := Nat.mod_eq_of_lt lf
  obtain rfl := bitmapSync_inode (Nat.lt_trans lf (by decide)) h₃
  rw [is, is']
  have h := lay.inodeTableLba
  have out : ∀ m' i, i < inodeSize → slotAddr part m' + i < 512 * part.sb.inodeBitmapLba ∨
      512 * part.sb.inodeBitmapLba + 512 * 1 ≤ slotAddr part m' + i := by
    intro m' i _
    simp only [slotAddr]
    omega
  have behind : ∀ m', 512 * part.sb.inodeBitmapLba ≤ slotAddr part m' := by
    intro m'
    simp only [slotAddr]
    omega
  refine ⟨SlotHolds.stored (fun i hi => ?_) range', SlotHolds.stored (fun i hi => ?_) range, ?_, fun i hi => splice_at (by omega),
    fun X b synced => ((synced.behind lay (behind _)).behind lay (behind _)).behind lay (Nat.le_refl _)⟩
  · rw [splice_out (out _ i hi), sync_frame ne _ hi, splice_at hi]
  · rw [splice_out (out _ i hi), splice_at hi]
  · have one := (diskStep_slot lay disk ino'.pure.image (Nat.lt_trans lp (by decide))).toDiskFrame
    have two := (diskStep_slot lay (splice disk (slotAddr part ino'.iNo) inodeSize ino'.pure.image) ino.pure.image
      (Nat.lt_trans lf (by decide))).toDiskFrame
    refine (one.mono (fun _ h => h) fun _ h => .inl h).trans ((two.mono (fun _ h => h) fun _ h => .inr h).trans ?_)
    exact (diskFrame_inodeBits lay _ _).mono (fun _ h => h) fun _ h => h.elim

theorem Fresh.noTable {isDir : Bool} (fresh : Fresh part n disk b ino p f isDir) : ino.sec 12 = 0 := by
  cases fresh with
  | file _ _ secs => exact secs 12
  | dir new => exact new.rest 12 (by omega)

/-- A new node, wherever its inode is stored. -/
theorem Fresh.node {disk₀ : Image} {isDir : Bool} {sh : Shape} (lay : Layout part n)
    (fresh : Fresh part n disk₀ b ino p f isDir) (stored : Stored part disk f ino) (number : ino.iNo = f)
    (same : ∀ lba, part.sb.dataStartLba ≤ lba → SameSector disk₀ disk lba) :
    Node part n disk b (sh.insert p f (isDir = true)) f ∧ (isDir = true → ∀ y, ¬ entries part disk b f y) := by
  have dir : (sh.insert p f (isDir = true)).dir f ↔ isDir = true := by simp only [Shape.insert, if_true]
  have up : (sh.insert p f (isDir = true)).up f = p := if_pos rfl
  cases fresh with
  | file number' size secs =>
    refine ⟨⟨stored.same.iNo.trans number, stored.deny, fun d => absurd (dir.1 d) (by decide), fun _ => ?_⟩,
      fun d => absurd d (by decide)⟩
    refine fileWf_empty ?_ (stored.same.iSize.trans size) fun k => (stored.same.sec k).trans (secs k)
    rw [stored.same.iNo]
    exact number'
  | dir new =>
    obtain ⟨wf, none⟩ := new.wf lay
    obtain ⟨wf', items, -⟩ := wf.move (nodeAt part disk b f) stored.same
      (fun lba owns => same lba (wf.blocks.owned owns).ge) fun _ _ h => h
    refine ⟨⟨stored.same.iNo.trans number, stored.deny, fun _ => ?_, fun d => absurd (dir.2 rfl) d⟩, fun _ y => ?_⟩
    · rw [up]
      exact ⟨wf', (new.sized lay).congr stored.same.iSize items⟩
    · rintro ⟨ord, k, j, at_⟩
      exact none k j y ((items ..).1 at_) ord

end Storing

section Enter

variable {part : Partition} {n : Nat} {disk disk' : Image} {b : Bitmap} {sh : Shape} {p f k₀ j₀ : Nat} {x : Item} {v' : Vnode}
  {ino' ino : Inode}

/-- The blocks of the parent are its old ones, and free ones. -/
theorem Inserted.gained (ins : Inserted part n ⟨disk, b, ino'⟩ v' x k₀ j₀) (stored : SameStored ino' (slot part disk p)) {lba : Nat}
    (owns : Owns (blockRef v'.disk v'.inode) lba) :
    owned part disk p lba ∨ ∃ i, lba = part.sb.dataStartLba + i ∧ ¬ b.Set i := by
  have refs : ∀ k, k < 141 → blockRef disk ino' k = blockRef disk (slot part disk p) k := fun k lt =>
    blockRef_congr stored.sec (fun _ _ _ => rfl) lt
  exact (ins.grow.gained owns).imp_left (Owns.congr refs).1

/-- The other nodes stay as they are. -/
theorem Tree.enter_other (tree : Tree part n disk b sh) (lp : sh.live p) (stored : SameStored ino' (slot part disk p))
    (fresh : ¬ sh.live f) (ins : Inserted part n ⟨disk, b, ino'⟩ v' x k₀ j₀)
    (frame : DiskFrame part (fun _ => False) (fun m => m = p ∨ m = f) v'.disk disk') {m : Nat} (live : sh.live m) (ne : m ≠ p) :
    Untouched part disk b disk' v'.blockBitmap m := by
  have frame' : DiskFrame part (Owns (blockRef v'.disk v'.inode)) (fun m => m = p ∨ m = f) disk disk' :=
    (ins.step.toDiskFrame.mono (fun _ h => h) (fun _ h => h.elim)).trans (frame.mono (fun _ h => h.elim) fun _ h => h)
  refine frame'.untouched (tree.node m live) (Nat.lt_trans (tree.low m live) (by decide))
    (fun h => h.elim ne fun e => fresh (e ▸ live)) (fun lba o owns => ?_) fun i _ => ins.grow.mono
  obtain old | ⟨i, rfl, clear⟩ := ins.gained stored owns
  · exact ne (tree.apart m p lba live lp o old)
  · obtain ⟨j, -, is, set⟩ := (tree.node m live).blocks.owned o
    exact clear (Nat.add_left_cancel is ▸ set)

/-- The parent has one entry more. -/
theorem Tree.enter_parent (lay : Layout part n) (tree : Tree part n disk b sh) (lp : sh.live p) (dp : sh.dir p)
    (stored : SameStored ino' (slot part disk p)) (is : x.iNo = f) (fresh : ¬ sh.live f) (ordinary : x.Ordinary)
    (freshName : ∀ k j y, ItemAt (nodeAt part disk b p) k j y → y.name ≠ x.name)
    (ins : Inserted part n ⟨disk, b, ino'⟩ v' x k₀ j₀) (storedP : Stored part disk' p v'.inode)
    (frame : DiskFrame part (fun _ => False) (fun m => m = p ∨ m = f) v'.disk disk') :
    DirWf part n (nodeAt part disk' v'.blockBitmap p) p (sh.up p) ∧ Sized (nodeAt part disk' v'.blockBitmap p) ∧
      (∀ k j y, ItemAt (nodeAt part disk' v'.blockBitmap p) k j y ↔
        ItemAt (nodeAt part disk b p) k j y ∨ (k = k₀ ∧ j = j₀ ∧ y = x)) ∧
      ∀ lba, owned part disk' p lba ↔ Owns (blockRef v'.disk v'.inode) lba := by
  obtain ⟨wf₀, sized₀⟩ := (tree.node p lp).dirWf dp
  obtain ⟨wf, items, -⟩ := wf₀.move ⟨disk, b, ino'⟩ stored (fun _ _ _ _ => rfl) fun _ _ h => h
  have wf' := ins.wf lay wf ordinary (fun k j y at_ => freshName k j y ((items ..).1 at_)) fun k j y at_ ord e =>
    fresh (is ▸ e ▸ (tree.naming.named p y lp dp ⟨ord, k, j, (items ..).1 at_⟩).1)
  obtain ⟨wf'', items', refs'⟩ := wf'.move (nodeAt part disk' v'.blockBitmap p) storedP.same
    (fun lba owns => frame.data lba (wf'.blocks.owned owns).ge id) fun _ _ h => h
  refine ⟨wf'', (ins.sized (sized₀.congr stored.iSize items)).congr storedP.same.iSize items', fun k j y => ?_,
    fun lba => Owns.congr refs'⟩
  rw [items', ins.items, items]

/-- **A new node in the tree**, once its entry and both inodes are stored. -/
theorem Tree.enter (lay : Layout part n) (tree : Tree part n disk b sh) (lp : sh.live p) (dp : sh.dir p)
    (stored : SameStored ino' (slot part disk p)) (is : x.iNo = f) (low : f < 256) (fresh : ¬ sh.live f) (ordinary : x.Ordinary)
    (freshName : ∀ k j y, ItemAt (nodeAt part disk b p) k j y → y.name ≠ x.name)
    (ins : Inserted part n ⟨disk, b, ino'⟩ v' x k₀ j₀) (new : Fresh part n v'.disk v'.blockBitmap ino p f x.isDir)
    (number : ino.iNo = f)
    (own : ∀ lba, Owns (blockRef v'.disk ino) lba →
      (∀ m, sh.live m → ¬ owned part disk m lba) ∧ ¬ Owns (blockRef v'.disk v'.inode) lba)
    (storedP : Stored part disk' p v'.inode) (storedF : Stored part disk' f ino)
    (frame : DiskFrame part (fun _ => False) (fun m => m = p ∨ m = f) v'.disk disk') :
    Tree part n disk' v'.blockBitmap (sh.insert p f (x.isDir = true)) := by
  have node := tree.node p lp
  obtain ⟨wf, sized, items, ownP⟩ := tree.enter_parent lay lp dp stored is fresh ordinary freshName ins storedP frame
  have sectors : ∀ lba, owned part disk' f lba ↔ Owns (blockRef v'.disk ino) lba :=
    storedF.owned fun has => absurd new.noTable has
  obtain ⟨nodeF, none⟩ := Fresh.node lay new storedF number fun lba ge => frame.data lba ge id
  refine tree.insert is low lp dp fresh (fun m live ne => tree.enter_other lp stored fresh ins frame live ne) ins.grow.map ?_ nodeF
    (fun y => ?_) none (fun lba o => ins.gained stored ((ownP lba).1 o)) fun lba o => ?_
  · refine ⟨storedP.same.iNo.trans ?_, storedP.deny, fun _ => ⟨wf, sized⟩, fun h => absurd dp h⟩
    rw [ins.inode]
    exact stored.iNo.trans node.number
  · constructor
    · rintro ⟨ord, k, j, at_⟩
      obtain old | ⟨-, -, rfl⟩ := (items ..).1 at_
      · exact .inl ⟨ord, k, j, old⟩
      · exact .inr rfl
    · rintro (⟨ord, k, j, at_⟩ | rfl)
      · exact ⟨ord, k, j, (items ..).2 (.inl at_)⟩
      · exact ⟨ordinary, k₀, j₀, (items ..).2 (.inr ⟨rfl, rfl, rfl⟩)⟩
  · obtain ⟨others, parent⟩ := own lba ((sectors lba).1 o)
    exact ⟨others, fun o => parent ((ownP lba).1 o)⟩

end Enter

/-- What making a file or a directory leaves when it succeeds: inode `f` under the name of
`x` in directory `p`. -/
structure Entered (part : Partition) (n : Nat) (s t : Fs) (d : Dir) (p f : Nat) (x : Item) (v' : Vnode) (k j : Nat) : Prop where
  number : x.iNo = f
  low : f < 256
  inserted : Inserted part n (s.vnode d.inode) v' x k j
  blockBitmap : t.blockBitmap = v'.blockBitmap
  inodeBitmap : t.inodeBitmap = bitmapSet s.inodeBitmap f true
  parent : t.inodes d.inode = v'.inode
  frame : DiskFrame part (fun _ => False) (fun m => m = p ∨ m = f) v'.disk t.disk

section Make

variable {part : Partition} {n : Nat} {s t : Fs} {sh : Shape} {H : Nat → Nat} {d : Dir} {p f k₀ j₀ : Nat} {x : Item} {v' : Vnode}
  {ino : Inode}

/-- `inode_bitmap_alloc` takes the first free number, one that `inode_sync` can hold if
there is one. -/
theorem inodeBitmapAlloc_low {b : Bitmap} (len : b.btmpBytesLen = 512) (free : ∃ m, m < 256 ∧ ¬ b.Set m) :
    ∃ f, f < 256 ∧ ¬ b.Set f ∧ inodeBitmapAlloc b = (some f, bitmapSet b f true) := by
  obtain ⟨m, lt, clear⟩ := free
  simp only [inodeBitmapAlloc]
  cases scan : bitmapScan b 1 with
  | none => exact absurd (bitmapScan_one_none scan m (by rw [len]; omega)) clear
  | some f =>
    obtain ⟨-, free, below⟩ := bitmapScan_one_some scan
    refine ⟨f, ?_, free, rfl⟩
    by_contra ge
    exact clear (below m (by omega))

/-- The object of a directory is what the disk says. -/
theorem FsInv.parent_stored (inv : FsInv part n s sh H) (dirAt : DirAt s sh d p) :
    SameStored (s.inodes d.inode) (slot part s.disk p) := by
  have stored := inv.cache.stored d.inode dirAt.mem (by rw [dirAt.number]; exact dirAt.live)
  rwa [dirAt.number] at stored

/-- The directory behind the cached parent has the new entry and both inodes are stored:
the partition has one inode more. -/
theorem FsInv.enter (lay : Layout part n) (inv : FsInv part n s sh H) (dirAt : DirAt s sh d p) (fresh : ¬ s.inodeBitmap.Set f)
    (ordinary : x.Ordinary) (freshName : ∀ k j y, ItemAt (nodeAt part s.disk s.blockBitmap p) k j y → y.name ≠ x.name)
    (entered : Entered part n s t d p f x v' k₀ j₀) (new : Fresh part n v'.disk v'.blockBitmap ino p f x.isDir)
    (number : ino.iNo = f)
    (own : ∀ lba, Owns (blockRef v'.disk ino) lba →
      (∀ m, sh.live m → ¬ owned part s.disk m lba) ∧ ¬ Owns (blockRef v'.disk v'.inode) lba)
    (storedP : Stored part t.disk p v'.inode) (storedF : Stored part t.disk f ino)
    (inodes : ∀ a ∈ s.openInodes, t.inodes a = if a = d.inode then v'.inode else s.inodes a)
    (openInodes : t.openInodes = s.openInodes) (next : s.nextAddr ≤ t.nextAddr) (rootDir : t.rootDir = s.rootDir) :
    FsInv part n t (sh.insert p f (x.isDir = true)) H := by
  have ins := entered.inserted
  have notLive : ¬ sh.live f := fun live => fresh ((inv.bits f (Nat.lt_trans entered.low (by decide))).2 live)
  have stored := inv.parent_stored dirAt
  have frame : DiskFrame part (Owns (blockRef v'.disk v'.inode)) (fun m => m = p ∨ m = f) s.disk t.disk :=
    (ins.step.toDiskFrame.mono (fun _ h => h) (fun _ h => h.elim)).trans (entered.frame.mono (fun _ h => h.elim) fun _ h => h)
  have numberP : v'.inode.iNo = p := by
    rw [ins.inode]
    exact dirAt.number
  refine ⟨⟨?_, ?_, ?_⟩, fun m lt => ?_, fun a mem => ?_⟩
  · rw [entered.blockBitmap]
    exact inv.tree.enter lay dirAt.live dirAt.dir stored entered.number entered.low notLive ordinary freshName ins new number own
      storedP storedF entered.frame
  · refine inv.cache.store _ _ openInodes next inodes rootDir (numberP.trans dirAt.number.symm) (by rw [ins.inode]; rfl)
      (fun _ => by rw [numberP]; exact storedP.same.symm) fun a mem ne live => ?_
    have old := inv.alive a mem
    refine ⟨old, frame.slot_eq (Nat.lt_trans (inv.tree.low _ old) (by decide)) ?_⟩
    rintro (e | e)
    · exact ne (inv.cache.addr_eq mem dirAt.mem e dirAt.number)
    · exact notLive (e ▸ old)
  · rw [entered.inodeBitmap]
    exact inv.len
  · rw [entered.inodeBitmap, set_bitmapSet]
    show _ ↔ sh.live m ∨ m = f
    by_cases e : m = f
    · simp [e]
    · rw [if_neg e, inv.bits m lt]
      simp [e]
  · rw [openInodes] at mem
    refine .inl ?_
    rw [inodes a mem]
    split
    · rw [numberP]
      exact dirAt.live
    · exact inv.alive a mem

/-- A new object for a number nobody has open joins the cache. -/
theorem FsInv.join {addr : Nat} (inv : FsInv part n s sh H) (live : sh.live (t.inodes addr).iNo)
    (fresh : ∀ a ∈ s.openInodes, (s.inodes a).iNo ≠ (t.inodes addr).iNo) (unused : addr ∉ s.openInodes) (inside : addr < t.nextAddr)
    (one : (t.inodes addr).iOpenCnts = 1) (stored : SameStored (t.inodes addr) (slot part s.disk (t.inodes addr).iNo))
    (is : t = { s with inodes := t.inodes, openInodes := addr :: s.openInodes })
    (old : ∀ a ∈ s.openInodes, t.inodes a = s.inodes a) : FsInv part n t sh (bump H addr) := by
  have disk : t.disk = s.disk := by rw [is]
  have openInodes : t.openInodes = addr :: s.openInodes := by rw [is]
  refine ⟨⟨?_, ?_, ?_⟩, fun m lt => ?_, fun a mem => ?_⟩
  · rw [is]
    exact inv.tree
  · refine inv.cache.join openInodes unused (Nat.le_of_eq ?_) old ?_ (fun m _ => by rw [disk]) inside one fresh fun _ => ?_
    · rw [is]
    · rw [is]
    · rw [disk]
      exact stored
  · rw [is]
    exact inv.len
  · have same : t.inodeBitmap = s.inodeBitmap := by rw [is]
    rw [same]
    exact inv.bits m lt
  · rcases List.mem_cons.1 (openInodes ▸ mem) with rfl | mem
    · exact live
    · rw [old a mem]
      exact inv.alive a mem

end Make

/-- The bit that stays set on disk when `v` refuses an entry while the bitmap is `b`. -/
structure Stranded (n : Nat) (v : Vnode) (b : Bitmap) (i : Nat) : Prop where
  full : DirectFull v
  only : OnlyFree n b i

/-- What `file_create` leaves when it succeeds: the empty file `f`, open in slot `g`. -/
structure Created (part : Partition) (n : Nat) (s t : Fs) (sh : Shape) (H : Nat → Nat) (d : Dir) (p : Nat) (name : Name)
    (flag f g : Nat) : Prop where
  free : ¬ s.inodeBitmap.Set f
  slot : getFreeSlotInGlobal s.fileTable = some g
  inv : FsInv part n t (sh.insert p f (false = true)) (bump H s.nextAddr)
  entered : ∃ v' k j x, x.name = name ∧ x.isDir = false ∧ Entered part n s t d p f x v' k j
  number : (t.inodes s.nextAddr).iNo = f
  size : (t.inodes s.nextAddr).iSize = 0
  secs : ∀ k, (t.inodes s.nextAddr).sec k = 0
  next : t.nextAddr = s.nextAddr + 1
  numbers : ∀ a, a < s.nextAddr → (t.inodes a).iNo = (s.inodes a).iNo
  fileTable : t.fileTable = fun i => if i = g then ⟨0, flag, .inode s.nextAddr⟩ else s.fileTable i
  bits : BitsKept part (fun _ => False) s t

section Files

variable {part : Partition} {n : Nat} {me : Option Nat} {s t : Fs} {sh : Shape} {H : Nat → Nat} {d : Dir} {p flag : Nat}
  {fdTable fdTable' : Nat → Int} {r : Option Nat}

theorem Created.fresh {name : Name} {f g : Nat} (made : Created part n s t sh H d p name flag f g) (inv : FsInv part n s sh H) :
    ¬ sh.live f := fun live => made.free ((inv.bits f (Nat.lt_trans (inv.tree.low f live) (by decide))).2 live)

/-- An inode other than the directory that gets an entry is not touched. -/
theorem Created.untouched {name : Name} {f g m : Nat} (made : Created part n s t sh H d p name flag f g)
    (inv : FsInv part n s sh H) (dirAt : DirAt s sh d p) (live : sh.live m) (ne : m ≠ p) :
    Untouched part s.disk s.blockBitmap t.disk t.blockBitmap m := by
  obtain ⟨v', k, j, x, -, -, entered⟩ := made.entered
  rw [entered.blockBitmap]
  exact inv.tree.enter_other dirAt.live (inv.parent_stored dirAt) (made.fresh inv) entered.inserted entered.frame live ne

/-- No inode is touched when the entry is refused. -/
theorem Refused.untouched {v v' : Vnode} {m : Nat} (refused : Refused part n v v') (tree : Tree part n v.disk v.blockBitmap sh)
    (live : sh.live m) : Untouched part v.disk v.blockBitmap v'.disk v'.blockBitmap m := by
  rw [refused.blockBitmap]
  exact refused.step.toDiskFrame.untouched (tree.node m live) (Nat.lt_trans (tree.low m live) (by decide)) id (fun _ _ => id)
    fun _ _ => id

theorem Refused.bits {v v' : Vnode} (refused : Refused part n v v') (X : Nat → Prop)
    (synced : SyncedBut part X v.disk v.blockBitmap) :
    SyncedBut part (fun j => X j ∨ Stranded n v v.blockBitmap j) v'.disk v'.blockBitmap := by
  rw [refused.blockBitmap]
  obtain same | ⟨full, i, only, left⟩ := refused.synced
  · rw [same]
    exact synced.mono fun _ => .inl
  · refine (left X synced).mono fun j => Or.imp_right fun e => ?_
    rw [e]
    exact ⟨full, only⟩

/-- The state once `file_create` has the number `f` and an object for the new inode. -/
def Fs.withNew (s : Fs) (me : Option Nat) (f : Nat) : Fs :=
  { s.malloc.malloc.setInode s.nextAddr (inodeInit f) with
    inodeBitmap := bitmapSet s.inodeBitmap f true
    pool := fun a => if a = s.nextAddr then me else s.pool a
    nextAddr := s.nextAddr + 1 }

/-- Where `file_create` can end once it has a number. -/
theorem fileCreate_ok {f : Nat} {name : List Byte}
    (alloc : inodeBitmapAlloc s.inodeBitmap = (some f, bitmapSet s.inodeBitmap f true))
    (h : fileCreate part me s fdTable d name flag = .ok (r, t, fdTable')) :
    (r = none ∧ fdTable' = fdTable ∧ ¬ (s.mallocOk = true ∧ s.malloc.mallocOk = true ∧ getFreeSlotInGlobal s.fileTable ≠ none) ∧
      (t = s.malloc ∨
        t = { s.malloc.malloc with inodeBitmap := bitmapSet (bitmapSet s.inodeBitmap f true) f false } ∨
        t = { s.withNew me f with inodeBitmap := bitmapSet (bitmapSet s.inodeBitmap f true) f false })) ∨
    ∃ g e ok v, (s.mallocOk = true ∧ s.malloc.mallocOk = true ∧ getFreeSlotInGlobal s.fileTable = some g) ∧ createDirEntry name f .regular = .ok e ∧
      syncDirEntry part ((s.withNew me f).vnode d.inode) e = .ok (ok, v) ∧
      ((ok = false ∧ r = none ∧ fdTable' = fdTable ∧
          t = { (((s.withNew me f).setFile g ⟨0, flag, .inode s.nextAddr⟩).setVnode d.inode v).setFile g File.empty with
            inodeBitmap := bitmapSet (bitmapSet s.inodeBitmap f true) f false }) ∨
        (ok = true ∧ pcbFdInstall fdTable g = (r, fdTable') ∧
          fileCreated part (((s.withNew me f).setFile g ⟨0, flag, .inode s.nextAddr⟩).setVnode d.inode v) d.inode s.nextAddr f =
            .ok t)) := by
  have alloc' : inodeBitmapAlloc s.malloc.inodeBitmap = (some f, bitmapSet s.inodeBitmap f true) := alloc
  simp only [fileCreate, alloc'] at h
  split at h
  · rename_i out
    rw [pure_ok] at h
    cases h
    exact .inl ⟨rfl, rfl, fun able => absurd able.1 (by rw [out]; decide), .inl rfl⟩
  rename_i first
  split at h
  · rename_i out
    rw [pure_ok] at h
    cases h
    have out' : s.malloc.mallocOk = false := out
    exact .inl ⟨rfl, rfl, fun able => absurd able.2.1 (by rw [out']; decide), .inr (.inl rfl)⟩
  rename_i second
  have first' : s.mallocOk = true := Bool.eq_true_of_not_eq_false first
  have second' : s.malloc.mallocOk = true := Bool.eq_true_of_not_eq_false second
  split at h
  · rename_i none
    rw [pure_ok] at h
    cases h
    exact .inl ⟨rfl, rfl, fun able => able.2.2 none, .inr (.inr rfl)⟩
  · rename_i g slot
    simp only [bind_ok, defined_ok, exists_const, Prod.exists] at h
    obtain ⟨e, made, -, ok, v, synced, h⟩ := h
    refine .inr ⟨g, e, ok, v, ⟨first', second', slot⟩, made, synced, ?_⟩
    split at h
    · rename_i no
      rw [pure_ok] at h
      cases h
      exact .inl ⟨no, rfl, rfl, rfl⟩
    · rename_i yes
      simp only [bind_ok, pure_ok] at h
      obtain ⟨t', created, h⟩ := h
      cases h
      exact .inr ⟨by simpa using yes, rfl, created⟩

/-- A name the directory does not have is neither `.` nor `..`. -/
theorem FsCore.ordinary {x : Item} (inv : FsCore part n s sh H) (dirAt : DirAt s sh d p)
    (absent : ∀ k j y, ItemAt (nodeAt part s.disk s.blockBitmap p) k j y → y.name ≠ x.name) : x.Ordinary := by
  obtain ⟨wf, -⟩ := (inv.tree.node p dirAt.live).dirWf dirAt.dir
  obtain ⟨y, dot, isDot, -⟩ := wf.dot
  obtain ⟨z, dotDot, isDotDot, -⟩ := wf.dotDot
  exact ⟨fun e => absent _ _ _ dot (isDot.trans e.symm), fun e => absent _ _ _ dotDot (isDotDot.trans e.symm)⟩

/-- The entry is in the directory: the end of `file_create`. -/
theorem fileCreated_inv (lay : Layout part n) (inv : FsInv part n s sh H) (dirAt : DirAt s sh d p) {f g k j : Nat} {v : Vnode}
    {x : Item} (low : f < 256) (clear : ¬ s.inodeBitmap.Set f) (number : x.iNo = f) (file : x.isDir = false)
    (absent : ∀ k j y, ItemAt (nodeAt part s.disk s.blockBitmap p) k j y → y.name ≠ x.name)
    (slot : getFreeSlotInGlobal s.fileTable = some g) (ins : Inserted part n (s.vnode d.inode) v x k j)
    (h : fileCreated part (((s.withNew me f).setFile g ⟨0, flag, .inode s.nextAddr⟩).setVnode d.inode v) d.inode s.nextAddr f =
      .ok t) : Created part n s t sh H d p x.name flag f g := by
  have fresh := inv.cache.fresh
  have notNew : d.inode ≠ s.nextAddr := Nat.ne_of_lt (fresh _ dirAt.mem)
  have numberP : v.inode.iNo = p := by
    rw [ins.inode]
    exact dirAt.number
  have parent : (((s.withNew me f).setFile g ⟨0, flag, .inode s.nextAddr⟩).setVnode d.inode v).inodes d.inode = v.inode :=
    if_pos rfl
  have new : (((s.withNew me f).setFile g ⟨0, flag, .inode s.nextAddr⟩).setVnode d.inode v).inodes s.nextAddr = inodeInit f :=
    (if_neg notNew.symm).trans (if_pos rfl)
  simp only [fileCreated, bind_ok, pure_ok, parent, new] at h
  obtain ⟨d₁, h₁, d₂, h₂, d₃, h₃, h⟩ := h
  have notLive : ¬ sh.live f := fun live => clear ((inv.bits f (Nat.lt_trans low (by decide))).2 live)
  have lowP := inv.tree.low p dirAt.live
  obtain ⟨storedP, storedF, frame, onDisk, synced⟩ := twoStored lay (numberP ▸ lowP) low
    (fun e => notLive (by rw [show f = p from e.symm.trans numberP]; exact dirAt.live))
    (ins.grow.wf.inRange lay (numberP ▸ Nat.lt_trans lowP (by decide)) (by rw [ins.inode]; exact Nat.mod_lt _ (by decide)))
    (inodeInit_inRange (Nat.lt_trans low (by decide))) h₁ h₂ h₃
  rw [numberP] at storedP frame
  have inodes : ∀ a, a < s.nextAddr → t.inodes a = if a = d.inode then v.inode else s.inodes a := by
    intro a lt
    rw [← h]
    refine (if_neg (Nat.ne_of_lt lt)).trans ?_
    show (if a = d.inode then v.inode else if a = s.nextAddr then _ else s.inodes a) = _
    rw [if_neg (Nat.ne_of_lt lt)]
  have newInode : t.inodes s.nextAddr = { inodeInit f with iOpenCnts := 1 } := by
    rw [← h]
    exact if_pos rfl
  have disk : t.disk = d₃ := by rw [← h]; rfl
  rw [← disk] at storedP storedF frame onDisk synced
  have entered : Entered part n s t d p f x v k j := by
    refine ⟨number, low, ins, by rw [← h]; rfl, by rw [← h]; rfl, ?_, frame⟩
    rw [inodes _ (fresh _ dirAt.mem), if_pos rfl]
  have isNew : Fresh part n v.disk v.blockBitmap (inodeInit f) p f x.isDir := by
    rw [file]
    refine .file (Nat.lt_trans low (by decide)) rfl fun k => ?_
    simp only [Inode.sec, inodeInit]
    split <;> rfl
  have none : ∀ lba, ¬ Owns (blockRef v.disk (inodeInit f)) lba := by
    rintro lba ⟨has, k, lt, rfl⟩
    refine has ?_
    simp [blockRef, Inode.sec, inodeInit]
  have next : t.nextAddr = s.nextAddr + 1 := by rw [← h]; rfl
  -- first the tree and the parent, then the object of the new inode
  have mid : FsInv part n { t with openInodes := s.openInodes } (sh.insert p f (x.isDir = true)) H :=
    inv.enter lay dirAt clear (inv.ordinary dirAt absent) absent
      ⟨number, low, ins, entered.blockBitmap, entered.inodeBitmap, entered.parent, frame⟩ isNew rfl
      (fun lba o => absurd o (none lba)) storedP storedF (fun a mem => inodes a (fresh a mem)) rfl
      (by show s.nextAddr ≤ t.nextAddr; omega) (by rw [← h]; rfl)
  rw [file] at mid
  have numbers : ∀ a, a < s.nextAddr → (t.inodes a).iNo = (s.inodes a).iNo := by
    intro a lt
    rw [inodes a lt]
    split
    · rename_i e
      rw [e, numberP, dirAt.number]
    · rfl
  refine ⟨clear, slot, ?_, ⟨v, k, j, x, rfl, file, entered⟩, by rw [newInode]; rfl, by rw [newInode]; rfl, fun k => ?_, next, numbers,
    by rw [← h]; rfl, fun X h => ?_, fun _ i lt => ?_⟩
  · refine mid.join (by rw [newInode]; exact .inr rfl) (fun a mem e => ?_) (fun mem => Nat.lt_irrefl _ (fresh _ mem))
      (by omega) (by rw [newInode]) ?_ (by rw [← h]; rfl) fun _ _ => rfl
    · have e : (t.inodes a).iNo = (t.inodes s.nextAddr).iNo := e
      rw [numbers a (fresh a mem), newInode] at e
      have alive := inv.alive a mem
      rw [e] at alive
      exact notLive alive
    · rw [newInode]
      have same := storedF.same
      exact ⟨same.iNo.symm, same.iSize.symm, same.iSectors.symm⟩
  · rw [newInode]
    simp only [Inode.sec, inodeInit]
    split <;> rfl
  · rw [entered.blockBitmap]
    exact (synced _ _ (ins.synced X h)).mono fun _ => .inl
  · rw [onDisk i lt, entered.inodeBitmap]
    rfl

/-- **`file_create`** under a name the directory does not have. -/
theorem fileCreate_inv (lay : Layout part n) (inv : FsInv part n s sh H) (dirAt : DirAt s sh d p)
    (free : ∃ m, m < 256 ∧ ¬ s.inodeBitmap.Set m) (name : Name)
    (absent : ∀ k j x, ItemAt (nodeAt part s.disk s.blockBitmap p) k j x → x.name ≠ name)
    (h : fileCreate part me s fdTable d name.bytes flag = .ok (r, t, fdTable')) :
    (r = none ∧ fdTable' = fdTable ∧ FsInv part n t sh H ∧ Steady s t ∧
      BitsKept part (Stranded n (s.vnode d.inode) s.blockBitmap) s t ∧
      ∀ m, sh.live m → Untouched part s.disk s.blockBitmap t.disk t.blockBitmap m) ∨
    ∃ f g, Created part n s t sh H d p name flag f g ∧ pcbFdInstall fdTable g = (r, fdTable') := by
  obtain ⟨f, low, clear, alloc⟩ := inodeBitmapAlloc_low inv.len free
  have old : ∀ a, a < s.nextAddr → (s.withNew me f).inodes a = s.inodes a := fun a lt => if_neg (Nat.ne_of_lt lt)
  have fresh := inv.cache.fresh
  have vnode : (s.withNew me f).vnode d.inode = s.vnode d.inode := by
    rw [Fs.vnode, old _ (fresh _ dirAt.mem)]
    rfl
  obtain ⟨rfl, rfl, -, rfl | rfl | rfl⟩ | ⟨g, e, ok, v, ⟨-, -, slot⟩, made, synced, ends⟩ := fileCreate_ok alloc h
  · exact .inl ⟨rfl, rfl, inv.malloc, browsed_malloc.steady, browsed_malloc.toCacheOnly.bitsKept, fun _ _ => .refl⟩
  · rw [bitmapSet_undo clear]
    have browsed : Browsed s s.malloc.malloc := browsed_malloc.trans browsed_malloc
    exact .inl ⟨rfl, rfl, inv.malloc.malloc, browsed.steady, browsed.toCacheOnly.bitsKept, fun _ _ => .refl⟩
  · rw [bitmapSet_undo clear]
    refine .inl ⟨rfl, rfl, inv.storage (B := fun _ => False) (fun a mem => old a (fresh a mem)) (Nat.le_succ _) rfl rfl .refl
      (fun _ _ _ _ => id) (fun _ h => h) inv.tree.map rfl, ⟨Nat.le_succ _, fun a lt => ?_, fun _ => rfl, fun _ => .inl rfl⟩,
      ⟨fun X h => h.mono fun _ => .inl, id⟩, fun _ _ => .refl⟩
    show ((s.withNew me f).inodes a).iNo = _
    rw [old a lt]
  obtain ⟨wf, -, -, -⟩ := inv.dirWf dirAt
  have isEntry : e = Item.entry ⟨name, f, false, Nat.lt_trans low (by decide)⟩ := by
    simp only [createDirEntry, bind_ok, assertThat_ok, pure_ok, exists_const] at made
    exact made.2.symm
  rw [vnode, isEntry] at synced
  obtain ⟨rfl, refused⟩ | ⟨rfl, k, j, ins⟩ := syncDirEntry_ok lay inv.tree.map wf.slots synced
  · obtain ⟨-, rfl, rfl, rfl⟩ | ⟨no, -⟩ := ends
    · rw [bitmapSet_undo clear]
      have same : ∀ a, a < s.nextAddr → (if a = d.inode then v.inode else (s.withNew me f).inodes a) = s.inodes a := by
        intro a lt
        split
        · rename_i e
          rw [e, refused.inode]
          rfl
        · exact old a lt
      refine .inl ⟨rfl, rfl, inv.storage (fun a mem => same a (fresh a mem)) (Nat.le_succ _) rfl rfl refused.step.toDiskFrame
        (fun _ _ _ _ => id) (fun i set => ?_) ?_ rfl, ⟨Nat.le_succ _, fun a lt => ?_, fun i => ?_, fun i => ?_⟩,
        ⟨refused.bits, fun synced i lt => (refused.step.inodeBits i lt).trans (synced i lt)⟩,
        fun m live => refused.untouched inv.tree live⟩
      · show v.blockBitmap.Set i
        rw [refused.blockBitmap]
        exact set
      · show BlockMap part n v.blockBitmap
        rw [refused.blockBitmap]
        exact inv.tree.map
      · exact congrArg Inode.iNo (same a lt)
      · obtain ⟨-, -, null⟩ := getFreeSlotInGlobal_some slot
        show (if i = g then File.empty else if i = g then _ else s.fileTable i : File).fdInode = _
        split
        · rename_i e
          rw [e, null]
          rfl
        · rfl
      · show (if i = g then File.empty else if i = g then _ else s.fileTable i : File).fdFlag = _ ∨
          (if i = g then File.empty else if i = g then _ else s.fileTable i : File).fdFlag = 0
        split
        · exact .inr rfl
        · exact .inl rfl
    · cases no
  · obtain ⟨no, -⟩ | ⟨-, installed, made⟩ := ends
    · cases no
    exact .inr ⟨f, g, fileCreated_inv lay inv dirAt low clear rfl rfl absent slot ins made, installed⟩

end Files

section Dirs

variable {part : Partition} {n : Nat} {me : Option Nat} {s t : Fs} {sh : Shape} {H : Nat → Nat} {d : Dir} {p : Nat}

theorem DirectFull.congr {v v' : Vnode} (full : DirectFull v') (same : v'.inode = v.inode)
    (data : ∀ lba, Owns (blockRef v.disk v.inode) lba → SameSector v.disk v'.disk lba) : DirectFull v := by
  have noTable : v.inode.sec 12 = 0 := same ▸ full.noTable
  have refs : ∀ k, k < 141 → blockRef v'.disk v'.inode k = blockRef v.disk v.inode k := fun k lt =>
    blockRef_congr (fun _ => by rw [same]) (fun has => absurd noTable has) lt
  refine ⟨noTable, fun k lt => ?_⟩
  obtain ⟨has, used⟩ := full.full k lt
  rw [refs k (by omega)] at has
  refine ⟨has, fun j ltj => ?_⟩
  rw [← entryAt_congr (refs k (by omega)) (data _ (owns_ref (by omega) has)) ltj]
  exact used j ltj

/-- The inode of a new directory in block `lba`. -/
def newDirInode (f lba : Nat) : Inode := { (inodeInit f).setSec 0 lba with iSize := 2 * direntSize }

/-- Where `sys_mkdir` can end once it has a number. -/
theorem makeDir_ok {f : Nat} {name : List Byte} {r : Option Unit} (lay : Layout part n)
    (alloc : inodeBitmapAlloc s.inodeBitmap = (some f, bitmapSet s.inodeBitmap f true)) (map : BlockMap part n s.blockBitmap)
    (h : makeDir part me s d name = .ok (r, t)) :
    (r = none ∧ (∀ i, i < n → s.blockBitmap.Set i) ∧
      t = { s with inodeBitmap := bitmapSet (bitmapSet s.inodeBitmap f true) f false }) ∨
    ∃ i disk₁ e ok v, 0 < i ∧ i < n ∧ ¬ s.blockBitmap.Set i ∧
      blockBitmapAlloc part.sb s.blockBitmap = (some (part.sb.dataStartLba + i), bitmapSet s.blockBitmap i true) ∧
      syncBlock part s.disk (bitmapSet s.blockBitmap i true) (part.sb.dataStartLba + i) = .ok disk₁ ∧
      part.sb.dataStartLba + i ≤ maxLba ∧ createDirEntry name f .directory = .ok e ∧
      syncDirEntry part ⟨splice disk₁ (512 * (part.sb.dataStartLba + i)) (512 * 1) (dotsImage f (s.inodes d.inode).iNo),
        bitmapSet s.blockBitmap i true, s.inodes d.inode⟩ e = .ok (ok, v) ∧
      ((ok = false ∧ r = none ∧
          t = { s.setVnode d.inode v with inodeBitmap := bitmapSet (bitmapSet s.inodeBitmap f true) f false }) ∨
        (ok = true ∧ r = some () ∧ dirCreated part
          { s.setVnode d.inode v with inodeBitmap := bitmapSet s.inodeBitmap f true } d.inode
          (newDirInode f (part.sb.dataStartLba + i)) f = .ok t)) := by
  simp only [makeDir, alloc] at h
  split at h
  · rename_i b none
    rw [pure_ok] at h
    cases h
    obtain ⟨-, rfl, full⟩ | ⟨i, -, -, -, -, some_, -⟩ := blockBitmapAlloc_cases lay map none
    · exact .inl ⟨rfl, full, rfl⟩
    · cases some_
  · rename_i lba b some
    obtain ⟨none, -⟩ | ⟨i, pos, inside, clear, -, some_, rfl⟩ := blockBitmapAlloc_cases lay map some
    · cases none
    cases some_
    simp only [bind_ok, assertThat_ok, defined_ok, exists_const, ideWrite_ok, Prod.exists, lay.dirEntrySize] at h
    obtain ⟨-, disk₁, written, -, disk₂, ⟨onDisk, rfl⟩, e, made, ok, v, synced, h⟩ := h
    refine .inr ⟨i, disk₁, e, ok, v, pos, inside, clear, some, written, transferOk_one.1 onDisk, made, synced, ?_⟩
    split at h
    · rename_i no
      rw [pure_ok] at h
      cases h
      exact .inl ⟨no, rfl, rfl⟩
    · rename_i yes
      simp only [bind_ok, pure_ok] at h
      obtain ⟨t', created, h⟩ := h
      cases h
      exact .inr ⟨by simpa using yes, rfl, created⟩

/-- A free block is taken and written. -/
theorem FsInv.takeBlock (lay : Layout part n) (inv : FsInv part n s sh H) {i : Nat} {disk₁ buf : Image} (pos : 0 < i) (inside : i < n)
    (clear : ¬ s.blockBitmap.Set i)
    (written : syncBlock part s.disk (bitmapSet s.blockBitmap i true) (part.sb.dataStartLba + i) = .ok disk₁)
    (is : t = { s with
      blockBitmap := bitmapSet s.blockBitmap i true
      disk := splice disk₁ (512 * (part.sb.dataStartLba + i)) (512 * 1) buf }) :
    FsInv part n t sh H ∧ BitsKept part (fun _ => False) s t ∧
      (∀ m, sh.live m → Untouched part s.disk s.blockBitmap t.disk t.blockBitmap m) ∧
      ∀ m, sh.live m → ¬ owned part t.disk m (part.sb.dataStartLba + i) := by
  subst is
  have step : DiskStep part (fun lba => lba = part.sb.dataStartLba + i) (fun _ => False) s.disk
      (splice disk₁ (512 * (part.sb.dataStartLba + i)) (512 * 1) buf) :=
    ((syncBlock_step lay inside written).mono (fun _ h => h.elim) fun _ h => h).trans (diskStep_data lay _ _ (Nat.le_add_right _ _))
  have data : ∀ m, sh.live m → ∀ lba, owned part s.disk m lba → lba ≠ part.sb.dataStartLba + i := by
    rintro m live lba o rfl
    obtain ⟨j, -, is, set⟩ := (inv.tree.node m live).blocks.owned o
    exact clear (Nat.add_left_cancel is ▸ set)
  have bits : ∀ j, s.blockBitmap.Set j → (bitmapSet s.blockBitmap i true).Set j := by
    intro j set
    rw [set_bitmapSet]
    split
    · rfl
    · exact set
  have untouched : ∀ m, sh.live m → Untouched part s.disk s.blockBitmap
      (splice disk₁ (512 * (part.sb.dataStartLba + i)) (512 * 1) buf) (bitmapSet s.blockBitmap i true) m := fun m live =>
    step.toDiskFrame.untouched (inv.tree.node m live) (Nat.lt_trans (inv.tree.low m live) (by decide)) id (data m live)
      fun j _ => bits j
  refine ⟨inv.storage (fun _ _ => rfl) (Nat.le_refl _) rfl rfl step.toDiskFrame data bits (inv.tree.map.set pos inside true) rfl,
    ⟨fun X synced => ?_, fun synced j lt => (step.inodeBits j lt).trans (synced j lt)⟩, untouched, fun m live o => ?_⟩
  · have h1 := lay.inodeTableLba
    have h2 := lay.dataStartLba
    exact ((synced.set lay inside written).behind lay (by omega)).mono fun _ => .inl
  · exact data m live _ (((untouched m live).owned _).1 o) rfl

theorem newDirInode_sec {f lba k : Nat} : (newDirInode f lba).sec k = if k = 0 then lba else 0 := by
  refine (Inode.sec_setSec (inodeInit f) (by omega)).trans ?_
  split
  · rfl
  · simp [Inode.sec, inodeInit]

/-- The inode of the new directory, with the block that was written for it, once the entry is in the
parent. -/
theorem newDirInode_new (inv : FsInv part n s sh H) (dirAt : DirAt s sh d p) {f i k j : Nat} {v : Vnode}
    {x : Item} (low : f < 256) (inside : i < n) (set : s.blockBitmap.Set i)
    (unowned : ∀ m, sh.live m → ¬ owned part s.disk m (part.sb.dataStartLba + i)) (onDisk : part.sb.dataStartLba + i ≤ maxLba)
    (contents : ∀ y, y < 512 → s.disk (512 * (part.sb.dataStartLba + i) + y) = dotsImage f p y)
    (ins : Inserted part n (s.vnode d.inode) v x k j) :
    ¬ Owns (blockRef v.disk v.inode) (part.sb.dataStartLba + i) ∧
      NewDir part n ⟨v.disk, v.blockBitmap, newDirInode f (part.sb.dataStartLba + i)⟩ f p := by
  have lowP := inv.tree.low p dirAt.live
  -- the block of the new directory is not one of the parent's
  have notParent : ¬ Owns (blockRef v.disk v.inode) (part.sb.dataStartLba + i) := by
    rintro ⟨has, k, lt, is⟩
    by_cases zero : blockRef s.disk (s.inodes d.inode) k = 0
    · obtain ⟨i', -, -, is', clear'⟩ := ins.grow.free k lt zero (is ▸ has)
      exact clear' ((show i' = i by omega) ▸ set)
    · obtain ⟨-, -, -, refs⟩ := inv.dirWf dirAt
      refine unowned p dirAt.live ⟨has, k, lt, ?_⟩
      rw [← is, ins.grow.kept k lt zero]
      exact (refs k lt).symm
  have block : (newDirInode f (part.sb.dataStartLba + i)).sec 0 = part.sb.dataStartLba + i := newDirInode_sec
  refine ⟨notParent, ins.grow.map, ?_, ?_, fun k pos => ?_, fun y lt => ?_, Nat.lt_trans low (by decide), rfl,
    Nat.lt_trans low (by decide), Nat.lt_trans lowP (by decide)⟩
  · rw [block]
    exact ⟨i, inside, rfl, ins.grow.mono set⟩
  · rw [block]
    exact onDisk
  · exact newDirInode_sec.trans (if_neg (by omega))
  · dsimp only
    rw [block, ← contents y lt]
    exact ins.step.data _ (Nat.le_add_right _ _) notParent y lt

/-- What the end of `sys_mkdir` stores. -/
theorem dirCreated_stored (lay : Layout part n) (inv : FsInv part n s sh H) (dirAt : DirAt s sh d p) {f i k j : Nat} {v : Vnode}
    {x : Item} (low : f < 256) (clear : ¬ s.inodeBitmap.Set f) (inside : i < n) (ins : Inserted part n (s.vnode d.inode) v x k j)
    (h : dirCreated part { s.setVnode d.inode v with inodeBitmap := bitmapSet s.inodeBitmap f true } d.inode
      (newDirInode f (part.sb.dataStartLba + i)) f = .ok t) :
    ∃ disk, t = { s.setVnode d.inode v with inodeBitmap := bitmapSet s.inodeBitmap f true, disk := disk } ∧
      Stored part disk p v.inode ∧ Stored part disk f (newDirInode f (part.sb.dataStartLba + i)) ∧
      DiskFrame part (fun _ => False) (fun m => m = p ∨ m = f) v.disk disk ∧
      (∀ y, y < 512 → disk (512 * part.sb.inodeBitmapLba + y) = (bitmapSet s.inodeBitmap f true).bits y) ∧
      ∀ X b, SyncedBut part X v.disk b → SyncedBut part X disk b := by
  have ds := lay.dataStartLba
  have small := lay.small
  have numberP : v.inode.iNo = p := by
    rw [ins.inode]
    exact dirAt.number
  have ne : f ≠ p := by
    rintro rfl
    exact clear ((inv.bits f (Nat.lt_trans low (by decide))).2 dirAt.live)
  have lowP := inv.tree.low p dirAt.live
  have range : (newDirInode f (part.sb.dataStartLba + i)).InRange := by
    refine ⟨Nat.lt_trans low (by decide), by simp only [newDirInode, direntSize]; omega, fun k => ?_⟩
    rw [newDirInode_sec]
    split <;> omega
  have parent : (s.setVnode d.inode v).inodes d.inode = v.inode := if_pos rfl
  simp only [dirCreated, bind_ok, pure_ok, parent] at h
  obtain ⟨d₁, h₁, d₂, h₂, d₃, h₃, rfl⟩ := h
  have stored := twoStored lay (numberP ▸ lowP) low (fun e => ne (e.symm.trans numberP))
    (ins.grow.wf.inRange lay (numberP ▸ Nat.lt_trans lowP (by decide)) (by rw [ins.inode]; exact Nat.mod_lt _ (by decide)))
    range h₁ h₂ h₃
  rw [numberP] at stored
  exact ⟨d₃, rfl, stored⟩

/-- The entry is in the parent: the end of `sys_mkdir`. -/
theorem dirCreated_inv (lay : Layout part n) (inv : FsInv part n s sh H) (dirAt : DirAt s sh d p) {f i k j : Nat} {v : Vnode} {x : Item}
    (low : f < 256) (clear : ¬ s.inodeBitmap.Set f) (number : x.iNo = f) (dir : x.isDir = true)
    (absent : ∀ k j y, ItemAt (nodeAt part s.disk s.blockBitmap p) k j y → y.name ≠ x.name) (inside : i < n)
    (set : s.blockBitmap.Set i) (unowned : ∀ m, sh.live m → ¬ owned part s.disk m (part.sb.dataStartLba + i))
    (onDisk : part.sb.dataStartLba + i ≤ maxLba)
    (contents : ∀ y, y < 512 → s.disk (512 * (part.sb.dataStartLba + i) + y) = dotsImage f p y)
    (ins : Inserted part n (s.vnode d.inode) v x k j)
    (h : dirCreated part { s.setVnode d.inode v with inodeBitmap := bitmapSet s.inodeBitmap f true } d.inode
      (newDirInode f (part.sb.dataStartLba + i)) f = .ok t) :
    FsInv part n t (sh.insert p f (true = true)) H ∧ Steady s t ∧ BitsKept part (fun _ => False) s t ∧
      ∀ m, sh.live m → m ≠ p → Untouched part s.disk s.blockBitmap t.disk t.blockBitmap m := by
  obtain ⟨notParent, new⟩ := newDirInode_new inv dirAt low inside set unowned onDisk contents ins
  obtain ⟨disk, rfl, storedP, storedF, frame, written, synced⟩ := dirCreated_stored lay inv dirAt low clear inside ins h
  have numberP : v.inode.iNo = p := by
    rw [ins.inode]
    exact dirAt.number
  have notLive : ¬ sh.live f := fun live => clear ((inv.bits f (Nat.lt_trans low (by decide))).2 live)
  refine ⟨?_, ⟨Nat.le_refl _, fun a _ => ?_, fun _ => rfl, fun _ => .inl rfl⟩, ⟨fun X h => ?_, fun _ y lt => written y lt⟩,
    fun m live ne => inv.tree.enter_other dirAt.live (inv.parent_stored dirAt) notLive ins frame live ne⟩
  · have inv' := inv.enter (t := { s.setVnode d.inode v with inodeBitmap := bitmapSet s.inodeBitmap f true, disk := disk }) lay dirAt
      clear (inv.ordinary dirAt absent) absent ⟨number, low, ins, rfl, rfl, if_pos rfl, frame⟩ (by rw [dir]; exact .dir new) rfl
      (fun lba o => ?_) storedP storedF (fun _ _ => rfl) rfl (Nat.le_refl _) rfl
    · rw [dir] at inv'
      exact inv'
    · obtain ⟨has, k, lt, rfl⟩ := o
      obtain rfl : k = 0 := by
        by_contra ne
        exact has (new.refs (Nat.pos_of_ne_zero ne) lt)
      rw [blockRef_direct (by omega), newDirInode_sec, if_pos rfl]
      exact ⟨unowned, notParent⟩
  · show (if a = d.inode then v.inode else s.inodes a).iNo = _
    split
    · rename_i e
      rw [e, numberP, dirAt.number]
    · rfl
  · exact (synced _ _ (ins.synced X h)).mono fun _ => .inl

/-- **`sys_mkdir`** under a name the parent does not have. -/
theorem makeDir_inv (lay : Layout part n) (inv : FsInv part n s sh H) (dirAt : DirAt s sh d p)
    (free : ∃ m, m < 256 ∧ ¬ s.inodeBitmap.Set m) (name : Name) {r : Option Unit}
    (absent : ∀ k j x, ItemAt (nodeAt part s.disk s.blockBitmap p) k j x → x.name ≠ name)
    (h : makeDir part me s d name.bytes = .ok (r, t)) :
    Steady s t ∧ BitsKept part (Stranded n (s.vnode d.inode) (blockBitmapAlloc part.sb s.blockBitmap).2) s t ∧
      (∀ m, sh.live m → m ≠ p → Untouched part s.disk s.blockBitmap t.disk t.blockBitmap m) ∧
      ((r = none ∧ FsInv part n t sh H) ∨
        ∃ f, f < 256 ∧ ¬ s.inodeBitmap.Set f ∧ r = some () ∧ FsInv part n t (sh.insert p f (true = true)) H) := by
  obtain ⟨f, low, clear, alloc⟩ := inodeBitmapAlloc_low inv.len free
  obtain ⟨rfl, -, rfl⟩ | ⟨i, disk₁, e, ok, v, pos, inside, freeBlock, block, written, onDisk, made, synced, ends⟩ :=
    makeDir_ok lay alloc inv.tree.map h
  · rw [bitmapSet_undo clear]
    exact ⟨⟨Nat.le_refl _, fun _ _ => rfl, fun _ => rfl, fun _ => .inl rfl⟩, .refl, fun _ _ _ => .refl, .inl ⟨rfl, inv⟩⟩
  obtain ⟨inv₁, kept₁, untouched, unowned⟩ := inv.takeBlock lay pos inside freeBlock written rfl
  have dirAt₁ : DirAt { s with
      blockBitmap := bitmapSet s.blockBitmap i true
      disk := splice disk₁ (512 * (part.sb.dataStartLba + i)) (512 * 1) (dotsImage f (s.inodes d.inode).iNo) } sh d p :=
    ⟨dirAt.mem, dirAt.number, dirAt.live, dirAt.dir⟩
  obtain ⟨wf, -, items, refs⟩ := inv₁.dirWf dirAt₁
  have isEntry : e = Item.entry ⟨name, f, true, Nat.lt_trans low (by decide)⟩ := by
    simp only [createDirEntry, bind_ok, assertThat_ok, pure_ok, exists_const] at made
    exact made.2.symm
  rw [isEntry] at synced
  have set : (bitmapSet s.blockBitmap i true).Set i := by rw [set_bitmapSet, if_pos rfl]
  obtain ⟨rfl, refused⟩ | ⟨rfl, k, j, ins⟩ := syncDirEntry_ok lay inv₁.tree.map wf.slots synced
  · obtain ⟨-, rfl, rfl⟩ | ⟨no, -⟩ := ends
    · rw [bitmapSet_undo clear, block]
      have same : ∀ a, (if a = d.inode then v.inode else s.inodes a) = s.inodes a := by
        intro a
        split
        · rename_i e
          rw [e, refused.inode]
          rfl
        · rfl
      refine ⟨⟨Nat.le_refl _, fun a _ => congrArg Inode.iNo (same a), fun _ => rfl, fun _ => .inl rfl⟩,
        ⟨fun X h => (refused.bits _ (kept₁.blocks X h)).mono fun l => ?_, fun synced y lt => ?_⟩,
        fun m live _ => (untouched m live).trans (refused.untouched inv₁.tree live),
        .inl ⟨rfl, inv₁.storage (fun a _ => same a) (Nat.le_refl _) rfl rfl refused.step.toDiskFrame (fun _ _ _ _ => id)
          (fun l set => ?_) ?_ rfl⟩⟩
      · rintro ((x | bad) | bad)
        · exact .inl x
        · exact bad.elim
        · refine .inr ⟨bad.full.congr (v := s.vnode d.inode) rfl fun lba o => ?_, bad.only⟩
          obtain ⟨-, -, -, refs⟩ := inv.dirWf dirAt
          exact (untouched p dirAt.live).data lba ((Owns.congr refs).1 o)
      · exact (refused.step.inodeBits y lt).trans (kept₁.inodes synced y lt)
      · show v.blockBitmap.Set l
        rw [refused.blockBitmap]
        exact set
      · show BlockMap part n v.blockBitmap
        rw [refused.blockBitmap]
        exact inv₁.tree.map
    · cases no
  · obtain ⟨no, -⟩ | ⟨-, rfl, created⟩ := ends
    · cases no
    obtain ⟨wf₀, -⟩ := (inv.tree.node p dirAt.live).dirWf dirAt.dir
    obtain ⟨-, same⟩ := (untouched p dirAt.live).dirWf wf₀
    obtain ⟨inv₂, steady, kept₂, others⟩ := dirCreated_inv lay inv₁ dirAt₁ low clear rfl rfl
      (fun k j y at_ => absent k j y ((same k j y).1 at_)) inside set unowned onDisk
      (fun y lt => by rw [← dirAt.number]; exact splice_at (by omega)) ins created
    exact ⟨⟨steady.next, steady.numbers, steady.slots, steady.flags⟩, (kept₁.trans kept₂).mono fun _ h => (or_self_iff.1 h).elim,
      fun m live ne => (untouched m live).trans (others m live ne), .inr ⟨f, low, clear, rfl, inv₂⟩⟩

end Dirs

end Sparrow
