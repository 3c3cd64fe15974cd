import Sparrow.Fs.FileWrite
import Sparrow.Fs.Regions

/-!
# What the blocks are used for

Every block of the data region has one use. `Uses` says that a table lists blocks of its own
kind, and that the blocks of the root directory hold the entries of known files only.
`sync_dir_entry` and `file_write` keep it, also when they fail half way: a file that could not
get all its blocks may be left with a table nobody has written.
-/

namespace Sparrow
set_option autoImplicit false

/-- Whose a block is. -/
inductive NodeKind
  | dir
  | file
  deriving DecidableEq

/-- The use of a block. The table of a file is `pending` until it is written. -/
inductive BlockUse
  | other
  | data (k : NodeKind)
  | table (k : NodeKind)
  | pending
  deriving DecidableEq

/-- An entry of the root directory: no directory but itself, and no file but those in `F`. -/
structure RootEntry (F : Nat → Prop) (e : DirEntry) : Prop where
  dir : e.fType = FileTypes.directory.code → e.iNo = 0
  file : e.fType = FileTypes.regular.code → F e.iNo

/-- The blocks are used as `U` says. -/
structure Uses (part : Partition) (n : Nat) (disk : Image) (b : Bitmap) (U : Nat → BlockUse) (F : Nat → Prop) : Prop where
  map : BlockMap part n b
  block : ∀ lba, U lba ≠ .other → DataBlock part n b lba
  word : ∀ k t, U t = .table k → ∀ j, 12 ≤ j → j < 140 → word32 disk (512 * t + 4 * (j - 12)) ≠ 0 →
    U (word32 disk (512 * t + 4 * (j - 12))) = .data k
  entries : ∀ lba, U lba = .data .dir → ∀ j, j < 21 → RootEntry F (decodeDirent disk (512 * lba) j)

/-- The blocks an inode refers to are used by it. Only a file that ends before its table would
begin may have a pending one. -/
structure RefersAs (U : Nat → BlockUse) (k : NodeKind) (ino : Inode) : Prop where
  range : ino.InRange
  direct : ∀ j, j < 12 → ino.sec j ≠ 0 → U (ino.sec j) = .data k
  table : ino.sec 12 ≠ 0 → U (ino.sec 12) = .table k ∨ k = .file ∧ U (ino.sec 12) = .pending ∧ ino.iSize < 512 * 12

/-- A block in use stays what it is, but for a table that gets written. -/
def KeepsUses (U U' : Nat → BlockUse) : Prop :=
  ∀ lba, U lba ≠ .other → U' lba = U lba ∨ U lba = .pending ∧ U' lba = .table .file

/-- An address nobody uses, or one that holds data of kind `k`. -/
def Lists (U : Nat → BlockUse) (k : NodeKind) (all : Nat → Nat) : Prop :=
  ∀ j, j < 140 → all j = 0 ∨ U (all j) = .data k

section Uses

variable {part : Partition} {n lba i : Nat} {disk disk' : Image} {b b' : Bitmap} {U U' U'' : Nat → BlockUse} {F F' : Nat → Prop}
  {k : NodeKind} {ino ino' : Inode} {all : Nat → Nat}

theorem KeepsUses.refl : KeepsUses U U := fun _ _ => .inl rfl

theorem KeepsUses.trans (h : KeepsUses U U') (h' : KeepsUses U' U'') : KeepsUses U U'' := by
  intro lba used
  obtain same | ⟨pending, table⟩ := h lba used
  · rw [← same] at used ⊢
    exact h' lba used
  · obtain same | ⟨pending', -⟩ := h' lba (by rw [table]; rintro ⟨⟩)
    · exact .inr ⟨pending, same.trans table⟩
    · rw [table] at pending'
      cases pending'

theorem KeepsUses.data (h : KeepsUses U U') (is : U lba = .data k) : U' lba = .data k := by
  obtain same | ⟨pending, -⟩ := h lba (by rw [is]; rintro ⟨⟩)
  · exact same.trans is
  · rw [is] at pending
    cases pending

theorem KeepsUses.table (h : KeepsUses U U') (is : U lba = .table k) : U' lba = .table k := by
  obtain same | ⟨pending, -⟩ := h lba (by rw [is]; rintro ⟨⟩)
  · exact same.trans is
  · rw [is] at pending
    cases pending

theorem KeepsUses.lists (h : KeepsUses U U') (lists : Lists U k all) : Lists U' k all :=
  fun j lt => (lists j lt).imp_right h.data

/-- One more address is listed. -/
theorem Lists.set (lists : Lists U k all) (j₀ : Nat) (is : U lba = .data k) :
    Lists U k fun j => if j = j₀ then lba else all j := by
  intro j lt
  dsimp only
  split
  · exact .inr is
  · exact lists j lt

theorem RefersAs.mono (h : KeepsUses U U') (refs : RefersAs U k ino) : RefersAs U' k ino := by
  refine ⟨refs.range, fun j lt has => h.data (refs.direct j lt has), fun has => ?_⟩
  obtain is | ⟨rfl, is, small⟩ := refs.table has
  · exact .inl (h.table is)
  · obtain same | ⟨-, table⟩ := h _ (by rw [is]; rintro ⟨⟩)
    · exact .inr ⟨rfl, same.trans is, small⟩
    · exact .inl table

/-- The references depend on `i_sectors`, and the size decides about a pending table. -/
theorem RefersAs.congr (refs : RefersAs U k ino) (range : ino'.InRange) (secs : ∀ j, ino'.sec j = ino.sec j)
    (size : U (ino.sec 12) = .pending → ino.iSize < 512 * 12 → ino'.iSize < 512 * 12) : RefersAs U k ino' := by
  refine ⟨range, fun j lt has => ?_, fun has => ?_⟩
  · rw [secs] at has ⊢
    exact refs.direct j lt has
  · rw [secs] at has ⊢
    exact (refs.table has).imp_right fun ⟨kind, is, small⟩ => ⟨kind, is, size is small⟩

/-- Counts and flags are no references. -/
theorem RefersAs.flags (refs : RefersAs U k ino) (cnt : Nat) (deny : Bool) :
    RefersAs U k { ino with iOpenCnts := cnt, writeDeny := deny } :=
  refs.congr ⟨refs.range.iNo, refs.range.iSize, refs.range.iSectors⟩ (fun _ => rfl) fun _ small => small

/-- A directory has no pending table, so its size does not matter. -/
theorem RefersAs.grownDir (refs : RefersAs U .dir ino) (c : Nat) :
    RefersAs U .dir { ino with iSize := addU32 ino.iSize c } := by
  refine ⟨⟨refs.range.iNo, Nat.mod_lt _ (by decide), refs.range.iSectors⟩, refs.direct, fun has => ?_⟩
  obtain is | ⟨file, -⟩ := refs.table has
  · exact .inl is
  · cases file

/-- A new inode refers to nothing. -/
theorem refersAs_init {f : Nat} (lt : f < 2 ^ 32) : RefersAs U k (inodeInit f) := by
  have zero : ∀ j, (inodeInit f).sec j = 0 := by
    intro j
    simp only [inodeInit, Inode.sec]
    split <;> rfl
  exact ⟨inodeInit_inRange lt, fun j _ has => absurd (zero j) has, fun has => absurd (zero 12) has⟩

theorem RefersAs.dirTable (refs : RefersAs U .dir ino) (has : ino.sec 12 ≠ 0) : U (ino.sec 12) = .table .dir := by
  obtain is | ⟨file, -⟩ := refs.table has
  · exact is
  · cases file

theorem RefersAs.setDirect (refs : RefersAs U k ino) {j : Nat} (lt : j < 12) (is : U lba = .data k) (small : lba < 2 ^ 32) :
    RefersAs U k (ino.setSec j lba) := by
  have sec : ∀ x, (ino.setSec j lba).sec x = if x = j then lba else ino.sec x := fun x => ino.sec_setSec (by omega)
  refine ⟨⟨refs.range.iNo, refs.range.iSize, fun x => ?_⟩, fun x ltx has => ?_, fun has => ?_⟩
  · rw [sec]
    split
    · exact small
    · exact refs.range.iSectors x
  · rw [sec] at has ⊢
    by_cases e : x = j
    · rw [if_pos e]
      exact is
    · rw [if_neg e] at has ⊢
      exact refs.direct x ltx has
  · rw [sec, if_neg (by omega)] at has ⊢
    exact refs.table has

theorem RefersAs.setTable (refs : RefersAs U k ino)
    (is : lba = 0 ∨ U lba = .table k ∨ k = .file ∧ U lba = .pending ∧ ino.iSize < 512 * 12) (small : lba < 2 ^ 32) :
    RefersAs U k (ino.setSec 12 lba) := by
  have sec : ∀ x, (ino.setSec 12 lba).sec x = if x = 12 then lba else ino.sec x := fun x => ino.sec_setSec (by omega)
  refine ⟨⟨refs.range.iNo, refs.range.iSize, fun x => ?_⟩, fun x ltx has => ?_, fun has => ?_⟩
  · rw [sec]
    split
    · exact small
    · exact refs.range.iSectors x
  · rw [sec, if_neg (by omega)] at has ⊢
    exact refs.direct x ltx has
  · rw [sec, if_pos rfl] at has ⊢
    exact is.resolve_left has

/-- Every block reached from a directory holds its data. -/
theorem RefersAs.reached (refs : RefersAs U .dir ino) (uses : Uses part n disk b U F) : Lists U .dir (blockRef disk ino) := by
  intro j lt
  refine or_iff_not_imp_left.2 fun has => ?_
  by_cases direct : j < 12
  · rw [blockRef_direct direct] at has ⊢
    exact refs.direct j direct has
  · by_cases table : ino.sec 12 = 0
    · exact absurd (blockRef_none (by omega) lt table) has
    · rw [blockRef_indirect (by omega) lt table] at has ⊢
      exact uses.word _ _ (refs.dirTable table) j (by omega) lt has

/-- More files are known. -/
theorem Uses.mono (uses : Uses part n disk b U F) (sub : ∀ m, F m → F' m) : Uses part n disk b U F' :=
  ⟨uses.map, uses.block, uses.word, fun lba is j lt =>
    ⟨(uses.entries lba is j lt).dir, fun file => sub _ ((uses.entries lba is j lt).file file)⟩⟩

/-- Another block is marked. -/
theorem Uses.mark (uses : Uses part n disk b U F) (pos : 0 < i) (lt : i < n) : Uses part n disk (bitmapSet b i true) U F :=
  ⟨uses.map.set pos lt true, fun lba used => (uses.block lba used).set, uses.word, uses.entries⟩

/-- A block that is not marked has no use. -/
theorem Uses.other_of_clear (uses : Uses part n disk b U F) (clear : ¬ b.Set i) : U (part.sb.dataStartLba + i) = .other := by
  by_contra used
  exact not_dataBlock clear (uses.block _ used)

/-- The words of a table and the entries of a block are those of an untouched sector. -/
theorem word_same {t j : Nat} (same : SameSector disk disk' t) (lt : j < 140) (ge : 12 ≤ j) :
    word32 disk' (512 * t + 4 * (j - 12)) = word32 disk (512 * t + 4 * (j - 12)) := by
  apply word32_congr
  intro x hx
  rw [Nat.add_assoc]
  exact same _ (by omega)

theorem entry_same {j : Nat} (same : SameSector disk disk' lba) (lt : j < 21) :
    decodeDirent disk' (512 * lba) j = decodeDirent disk (512 * lba) j := by
  apply decodeDirent_congr
  intro x hx
  simp only [direntSize] at hx ⊢
  rw [Nat.add_assoc]
  exact same _ (by omega)

/-- A write that spares the tables and the root directory. -/
theorem Uses.frame {B N : Nat → Prop} (uses : Uses part n disk b U F) (frame : DiskFrame part B N disk disk')
    (spares : ∀ lba, B lba → (∀ k, U lba ≠ .table k) ∧ U lba ≠ .data .dir) : Uses part n disk' b U F := by
  refine ⟨uses.map, uses.block, fun k t is j ge lt => ?_, fun lba is j lt => ?_⟩
  · have block := uses.block t (by rw [is]; rintro ⟨⟩)
    rw [word_same (frame.data t block.ge fun written => (spares t written).1 k is) lt ge]
    exact uses.word k t is j ge lt
  · have block := uses.block lba (by rw [is]; rintro ⟨⟩)
    rw [entry_same (frame.data lba block.ge fun written => (spares lba written).2 is) lt]
    exact uses.entries lba is j lt

theorem keepsUses_update (use : BlockUse) (old : U lba = .other ∨ U lba = .pending ∧ use = .table .file ∨ U lba = use) :
    KeepsUses U (Function.update U lba use) := by
  intro x used
  by_cases e : x = lba
  · subst e
    rw [Function.update_self]
    rcases old with other | table | same
    · exact absurd other used
    · exact .inr table
    · exact .inl same.symm
  · exact .inl (Function.update_of_ne e ..)

/-- One block is written, and what it holds then fits its use. -/
theorem Uses.write (use : BlockUse) {N : Nat → Prop} (uses : Uses part n disk b U F)
    (frame : DiskFrame part (fun x => x = lba) N disk disk') (block : DataBlock part n b lba)
    (old : U lba = .other ∨ U lba = .pending ∧ use = .table .file ∨ U lba = use)
    (word : ∀ k, use = .table k → ∀ j, 12 ≤ j → j < 140 → word32 disk' (512 * lba + 4 * (j - 12)) ≠ 0 →
      U (word32 disk' (512 * lba + 4 * (j - 12))) = .data k)
    (entries : use = .data .dir → ∀ j, j < 21 → RootEntry F (decodeDirent disk' (512 * lba) j)) :
    Uses part n disk' b (Function.update U lba use) F := by
  have keeps := keepsUses_update use old
  refine ⟨uses.map, fun x used => ?_, fun k t is j ge lt => ?_, fun x is j lt => ?_⟩
  · by_cases e : x = lba
    · rw [e]
      exact block
    · rw [Function.update_of_ne e] at used
      exact uses.block x used
  · by_cases e : t = lba
    · rw [e, Function.update_self] at is
      rw [e]
      exact fun has => keeps.data (word k is j ge lt has)
    · rw [Function.update_of_ne e] at is
      rw [word_same (frame.data t (uses.block t (by rw [is]; rintro ⟨⟩)).ge e) lt ge]
      exact fun has => keeps.data (uses.word k t is j ge lt has)
  · by_cases e : x = lba
    · rw [e, Function.update_self] at is
      rw [e]
      exact entries is j lt
    · rw [Function.update_of_ne e] at is
      rw [entry_same (frame.data x (uses.block x (by rw [is]; rintro ⟨⟩)).ge e) lt]
      exact uses.entries x is j lt

/-- A block nobody used gets a use that asks nothing of its contents. -/
theorem Uses.assign {use : BlockUse} (uses : Uses part n disk b U F) (block : DataBlock part n b lba) (old : U lba = .other)
    (plain : use = .data .file ∨ use = .pending) : Uses part n disk b (Function.update U lba use) F := by
  have frame : DiskFrame part (fun x => x = lba) (fun _ => False) disk disk :=
    ⟨fun _ _ _ _ _ => rfl, fun _ _ _ _ _ => rfl⟩
  refine uses.write _ frame block (.inl old) (fun k is => ?_) fun is => ?_
  · obtain rfl | rfl := plain <;> cases is
  · obtain rfl | rfl := plain <;> cases is

/-- A table is written, one in use or one that was not. -/
theorem Uses.writeTable (lay : Layout part n) (uses : Uses part n disk b U F) (block : DataBlock part n b lba)
    (old : U lba = .other ∨ U lba = .pending ∧ k = .file ∨ U lba = .table k) (lists : Lists U k all) :
    Uses part n (splice disk (512 * lba) (512 * 1) (tableImage all)) b (Function.update U lba (.table k)) F := by
  have old' : U lba = .other ∨ U lba = .pending ∧ BlockUse.table k = .table .file ∨ U lba = .table k :=
    old.imp_right (.imp_left fun ⟨pending, file⟩ => ⟨pending, by rw [file]⟩)
  refine uses.write _ (diskStep_data lay disk _ block.ge).toDiskFrame block old' (fun k' is j ge lt => ?_) (by rintro ⟨⟩)
  cases is
  rw [word32_table ge lt]
  obtain zero | is := lists j lt
  · rw [zero]
    exact fun has => absurd rfl has
  · rw [Nat.mod_eq_of_lt ((uses.block _ (by rw [is]; rintro ⟨⟩)).lt_pow lay)]
    exact fun _ => is

/-- An entry is written into a block of the root directory. -/
theorem Uses.writeEntry (lay : Layout part n) (uses : Uses part n disk b U F) (is : U lba = .data .dir) {e : DirEntry} {j : Nat}
    (lt : j < 21) (number : e.iNo < 2 ^ 32) (kind : e.fType < 2 ^ 32) (entry : RootEntry F e) :
    Uses part n (splice disk (512 * lba + direntSize * j) direntSize e.image) b U F := by
  have block := uses.block lba (by rw [is]; rintro ⟨⟩)
  have step : DiskStep part (fun x => x = lba) (fun _ => False) disk
      (splice disk (512 * lba + direntSize * j) direntSize e.image) := by
    rw [← splice_shifted (n := 512) (by simp only [direntSize]; omega)]
    exact diskStep_data lay _ _ block.ge
  have wrote := uses.write (.data .dir) step.toDiskFrame block (.inr (.inr is)) (by rintro k ⟨⟩) fun _ j' lt' => by
    by_cases here : j' = j
    · rw [here, decodeDirent_bytes number kind fun i hi => splice_at hi]
      exact entry
    · rw [decodeDirent_other lt lt' (.inr here)]
      exact uses.entries lba is j' lt'
  rwa [← is, Function.update_eq_self] at wrote

/-- A new block of the root directory holds one entry. -/
theorem Uses.writeFirst (lay : Layout part n) (uses : Uses part n disk b U F) (block : DataBlock part n b lba)
    (old : U lba = .other) {e : DirEntry} (number : e.iNo < 2 ^ 32) (kind : e.fType < 2 ^ 32) (entry : RootEntry F e) :
    Uses part n (splice disk (512 * lba) (512 * 1) (splice zeros 0 direntSize e.image)) b
      (Function.update U lba (.data .dir)) F := by
  refine uses.write _ (diskStep_data lay disk _ block.ge).toDiskFrame block (.inl old) (by rintro k ⟨⟩) fun _ j lt => ?_
  have bytes : ∀ x, x < 512 → splice disk (512 * lba) (512 * 1) (splice zeros 0 direntSize e.image) (512 * lba + x) =
      splice zeros 0 direntSize e.image x := fun x hx => splice_at (by omega)
  by_cases first : j = 0
  · subst first
    rw [decodeDirent_bytes number kind fun i hi => ?_]
    · exact entry
    · simp only [direntSize] at bytes hi ⊢
      rw [Nat.mul_zero, Nat.add_zero, bytes i (by omega), splice_in (by omega) (by omega)]
      rfl
  · have dead : (decodeDirent (splice disk (512 * lba) (512 * 1) (splice zeros 0 direntSize e.image)) (512 * lba) j).Dead := by
      apply decodeDirent_dead
      intro i hi
      simp only [direntSize] at bytes hi ⊢
      rw [Nat.add_assoc, bytes _ (by omega), splice_out (by omega)]
      rfl
    refine ⟨fun dir => ?_, fun file => ?_⟩
    · rw [dead.1] at dir
      cases dir
    · rw [dead.1] at file
      cases file

end Uses

/-- What growing a node did: blocks got uses, and only data blocks and the block bitmap were
written. -/
structure NodeGrown (part : Partition) (n : Nat) (k : NodeKind) (F : Nat → Prop) (U U' : Nat → BlockUse) (v v' : Vnode) : Prop where
  uses : Uses part n v'.disk v'.blockBitmap U' F
  keeps : KeepsUses U U'
  refs : RefersAs U' k v'.inode
  step : DiskStep part (fun _ => True) (fun _ => False) v.disk v'.disk
  number : v'.inode.iNo = v.inode.iNo

section Dir

variable {part : Partition} {n : Nat} {v v' : Vnode} {U U' : Nat → BlockUse} {F F' : Nat → Prop} {e : DirEntry} {ok : Bool}
  {k : NodeKind}

theorem NodeGrown.refl (uses : Uses part n v.disk v.blockBitmap U F) (refs : RefersAs U k v.inode) :
    NodeGrown part n k F U U v v := ⟨uses, .refl, refs, .refl, rfl⟩

/-- The entry a directory takes: its words fit, and the file it names is one of `F'`. -/
structure NewEntry (F F' : Nat → Prop) (e : DirEntry) : Prop where
  number : e.iNo < 2 ^ 32
  kind : e.fType < 2 ^ 32
  entry : RootEntry F' e
  more : ∀ m, F m → F' m

/-- A block is taken and its bit written. -/
theorem Uses.take (lay : Layout part n) (uses : Uses part n v.disk v.blockBitmap U F) {i : Nat} {disk : Image} (pos : 0 < i)
    (inside : i < n) (written : syncBlock part v.disk (bitmapSet v.blockBitmap i true) (part.sb.dataStartLba + i) = .ok disk) :
    Uses part n disk (bitmapSet v.blockBitmap i true) U F :=
  (uses.frame (syncBlock_step lay inside written).toDiskFrame fun _ h => h.elim).mark pos inside

theorem BlockTaken.step {i : Nat} {disk : Image} (taken : BlockTaken part n v i disk) (lay : Layout part n) :
    DiskStep part (fun _ => True) (fun _ => False) v.disk disk :=
  diskStep_any (syncBlock_step lay taken.inside taken.written)

theorem BlockTaken.block {i : Nat} {disk : Image} (taken : BlockTaken part n v i disk) :
    DataBlock part n (bitmapSet v.blockBitmap i true) (part.sb.dataStartLba + i) :=
  dataBlock_new taken.inside

/-- In `sync_dir_entry` the new block is a direct one. -/
theorem newDirect_uses (lay : Layout part n) (uses : Uses part n v.disk v.blockBitmap U F) (refs : RefersAs U .dir v.inode)
    (new : NewEntry F F' e) {i k : Nat} {disk : Image} (taken : BlockTaken part n v i disk) (direct : k < 12)
    (h : writeFirstEntry part ⟨disk, bitmapSet v.blockBitmap i true, v.inode.setSec k (part.sb.dataStartLba + i)⟩ e
      (part.sb.dataStartLba + i) = .ok (ok, v')) : ok = true ∧ ∃ U', NodeGrown part n .dir F' U U' v v' := by
  obtain ⟨rfl, -, rfl⟩ := writeFirstEntry_ok lay h
  have other := uses.other_of_clear taken.clear
  have keeps := keepsUses_update (.data .dir) (.inl other)
  have refs' : RefersAs (Function.update U (part.sb.dataStartLba + i) (.data .dir)) .dir (v.inode.setSec k (part.sb.dataStartLba + i)) :=
    (refs.mono keeps).setDirect direct (Function.update_self ..) (taken.block.lt_pow lay)
  have first := ((uses.take lay taken.pos taken.inside taken.written).mono new.more).writeFirst lay taken.block other new.number new.kind
    new.entry
  exact ⟨rfl, _, first, keeps, refs'.grownDir _, (taken.step lay).trans (diskStep_any (diskStep_data lay _ _ taken.block.ge)), rfl⟩

/-- In `sync_dir_entry` the new block is the table, and a second one is the first block in it. -/
theorem newTable_uses (lay : Layout part n) (uses : Uses part n v.disk v.blockBitmap U F) (refs : RefersAs U .dir v.inode)
    (new : NewEntry F F' e) {all : Nat → Nat} (listed : Lists U .dir all) {i i' : Nat} {disk disk' : Image}
    (taken : BlockTaken part n v i disk) (taken' : BlockTaken part n ⟨disk, bitmapSet v.blockBitmap i true, v.inode⟩ i' disk')
    (h : writeFirstEntry part ⟨splice disk' (512 * (part.sb.dataStartLba + i)) 512
        (tableImage fun k => if k = 12 then part.sb.dataStartLba + i' else all k),
      bitmapSet (bitmapSet v.blockBitmap i true) i' true, v.inode.setSec 12 (part.sb.dataStartLba + i)⟩ e
      (part.sb.dataStartLba + i') = .ok (ok, v')) : ok = true ∧ ∃ U', NodeGrown part n .dir F' U U' v v' := by
  obtain ⟨rfl, -, rfl⟩ := writeFirstEntry_ok lay h
  have uses₁ := uses.take lay taken.pos taken.inside taken.written
  have other := uses.other_of_clear taken.clear
  have other' := uses₁.other_of_clear taken'.clear
  have ne : part.sb.dataStartLba + i ≠ part.sb.dataStartLba + i' := by
    intro same
    obtain rfl : i = i' := by omega
    exact taken'.clear (by rw [set_bitmapSet, if_pos rfl])
  have uses₂ := uses₁.take (v := ⟨disk, _, v.inode⟩) lay taken'.pos taken'.inside taken'.written
  have first := (uses₂.mono new.more).writeFirst lay taken'.block other' new.number new.kind new.entry
  have keeps := keepsUses_update (.data .dir) (.inl other')
  have tableOther : Function.update U (part.sb.dataStartLba + i') (.data .dir) (part.sb.dataStartLba + i) = .other := by
    rw [Function.update_of_ne ne]
    exact other
  have table := first.writeTable lay taken.block.set (.inl tableOther) ((keeps.lists listed).set 12 (Function.update_self ..))
  have keeps' := keeps.trans (keepsUses_update (.table .dir) (.inl tableOther))
  have isTable : Function.update (Function.update U (part.sb.dataStartLba + i') (.data .dir)) (part.sb.dataStartLba + i) (.table .dir)
      (part.sb.dataStartLba + i) = .table .dir := Function.update_self ..
  have refs' := (refs.mono keeps').setTable (.inr (.inl isTable)) (taken.block.lt_pow lay)
  -- the code writes the table first
  rw [splice_comm (by omega)] at table
  exact ⟨rfl, _, table, keeps', refs'.grownDir _, (((taken.step lay).trans (taken'.step lay)).trans
    (diskStep_any (diskStep_data lay _ _ taken.block.ge))).trans (diskStep_any (diskStep_data lay _ _ taken'.block.ge)), rfl⟩

/-- In `sync_dir_entry` the table is there and gets the new block. -/
theorem newIndirect_uses (lay : Layout part n) (uses : Uses part n v.disk v.blockBitmap U F) (refs : RefersAs U .dir v.inode)
    (new : NewEntry F F' e) {all : Nat → Nat} (listed : Lists U .dir all) {i k : Nat} {disk : Image}
    (taken : BlockTaken part n v i disk) (has : v.inode.sec 12 ≠ 0)
    (h : writeFirstEntry part ⟨splice disk (512 * v.inode.sec 12) 512
        (tableImage fun j => if j = k then part.sb.dataStartLba + i else all j), bitmapSet v.blockBitmap i true, v.inode⟩ e
      (part.sb.dataStartLba + i) = .ok (ok, v')) : ok = true ∧ ∃ U', NodeGrown part n .dir F' U U' v v' := by
  obtain ⟨rfl, -, rfl⟩ := writeFirstEntry_ok lay h
  have other := uses.other_of_clear taken.clear
  have isTable := refs.dirTable has
  have uses₁ := uses.take lay taken.pos taken.inside taken.written
  have blockTable := uses.block _ (by rw [isTable]; rintro ⟨⟩)
  have first := (uses₁.mono new.more).writeFirst lay taken.block other new.number new.kind new.entry
  have keeps := keepsUses_update (.data .dir) (.inl other)
  have ne : v.inode.sec 12 ≠ part.sb.dataStartLba + i := by
    intro same
    rw [same, other] at isTable
    cases isTable
  have table := first.writeTable lay blockTable.set (.inr (.inr (keeps.table isTable)))
    ((keeps.lists listed).set k (Function.update_self ..))
  have keeps' := keeps.trans (keepsUses_update (.table .dir) (.inr (.inr (keeps.table isTable))))
  rw [splice_comm (by omega)] at table
  exact ⟨rfl, _, table, keeps', (refs.mono keeps').grownDir _, ((taken.step lay).trans
    (diskStep_any (diskStep_data lay _ _ blockTable.ge))).trans (diskStep_any (diskStep_data lay _ _ taken.block.ge)), rfl⟩

/-- The branch of `sync_dir_entry` for a block that does not exist yet. -/
theorem syncNewBlock_uses (lay : Layout part n) (uses : Uses part n v.disk v.blockBitmap U F) (refs : RefersAs U .dir v.inode)
    (new : NewEntry F F' e) {all : Nat → Nat} {k : Nat} (collected : ∀ k, k < 140 → all k = blockRef v.disk v.inode k)
    (lt : k < 140) (before : 12 < k → v.inode.sec 12 ≠ 0) (h : syncNewBlock part v all e k = .ok (ok, v')) :
    ∃ U', NodeGrown part n .dir F' U U' v v' ∧ (ok = false → Uses part n v'.disk v'.blockBitmap U' F) := by
  have listed : Lists U .dir all := fun j ltj => by
    rw [collected j ltj]
    exact refs.reached uses j ltj
  have written : ok = true ∧ (∃ U', NodeGrown part n .dir F' U U' v v') →
      ∃ U', NodeGrown part n .dir F' U U' v v' ∧ (ok = false → Uses part n v'.disk v'.blockBitmap U' F) := by
    rintro ⟨rfl, U', grown⟩
    exact ⟨U', grown, by rintro ⟨⟩⟩
  cases syncNewBlock_cases lay uses.map h with
  | full _ => exact ⟨U, .refl (uses.mono new.more) refs, fun _ => uses⟩
  | direct taken direct entry => exact written (newDirect_uses lay uses refs new taken direct entry)
  | single taken _ _ =>
    have back := uses.frame (syncBlock_step lay taken.inside taken.written).toDiskFrame fun _ h => h.elim
    exact ⟨U, ⟨back.mono new.more, .refl, refs.setTable (.inl rfl) (by decide), taken.step lay, rfl⟩, fun _ => back⟩
  | table taken taken' twelve _ entry =>
    subst twelve
    exact written (newTable_uses lay uses refs new listed taken taken' entry)
  | indirect taken past entry => exact written (newIndirect_uses lay uses refs new listed taken (before past) entry)

/-- **`sync_dir_entry`** on the root directory; when it fails no entry is written. -/
theorem syncDirEntry_uses (lay : Layout part n) (uses : Uses part n v.disk v.blockBitmap U F) (refs : RefersAs U .dir v.inode)
    (new : NewEntry F F' e) (h : syncDirEntry part v e = .ok (ok, v')) :
    ∃ U', NodeGrown part n .dir F' U U' v v' ∧ (ok = false → Uses part n v'.disk v'.blockBitmap U' F) := by
  simp only [syncDirEntry, bind_ok, assertThat_ok, exists_const] at h
  obtain ⟨-, all, read, h⟩ := h
  obtain ⟨-, collected⟩ := allBlocks_ok read
  rw [List.range_eq_range'] at h
  obtain ⟨rfl, rfl, -⟩ | ⟨k, -, lt, before, rest⟩ := syncBlocks_cases lay _ _ h
  · exact ⟨U, .refl (uses.mono new.more) refs, fun _ => uses⟩
  simp only [Nat.zero_add] at lt
  obtain ⟨-, fresh⟩ | ⟨has, rfl, j, ltj, -, -, rfl⟩ := rest
  · refine syncNewBlock_uses lay uses refs new collected lt (fun past zero => ?_) fresh
    have := (before 12 (by omega) past).1
    rw [collected 12 (by omega)] at this
    exact this (blockRef_none (by omega) (by omega) zero)
  · rw [collected k lt] at has ⊢
    have is := (refs.reached uses k lt).resolve_left has
    have block := uses.block _ (by rw [is]; rintro ⟨⟩)
    have step : DiskStep part (fun x => x = blockRef v.disk v.inode k) (fun _ => False) v.disk
        (splice v.disk (512 * blockRef v.disk v.inode k + direntSize * j) direntSize e.image) := by
      rw [← splice_shifted (n := 512) (by simp only [direntSize]; omega)]
      exact diskStep_data lay _ _ block.ge
    exact ⟨U, ⟨(uses.mono new.more).writeEntry lay is ltj new.number new.kind new.entry, .refl, refs.grownDir _,
      diskStep_any step, rfl⟩, by rintro ⟨⟩⟩

end Dir

section File

variable {part : Partition} {n has will : Nat} {v v' : Vnode} {U U' : Nat → BlockUse} {F : Nat → Prop} {g : Growth} {ok : Bool}
  {all : Nat → Nat}

theorem NodeGrown.trans {k : NodeKind} {U'' : Nat → BlockUse} {v'' : Vnode} (h : NodeGrown part n k F U U' v v')
    (h' : NodeGrown part n k F U' U'' v' v'') : NodeGrown part n k F U U'' v v'' :=
  ⟨h'.uses, h.keeps.trans h'.keeps, h'.refs, h.step.trans h'.step, h'.number.trans h.number⟩

/-- Some blocks of a file were allocated: what is listed of them, and the size, which stays. -/
structure FileGrown (part : Partition) (n : Nat) (F : Nat → Prop) (U U' : Nat → BlockUse) (v : Vnode) (g : Growth) : Prop
    extends NodeGrown part n .file F U U' v g.v where
  listed : Lists U' .file g.all
  size : g.v.inode.iSize = v.inode.iSize

/-- **The first block of a file.** -/
theorem firstBlock_uses (lay : Layout part n) (uses : Uses part n v.disk v.blockBitmap U F) (refs : RefersAs U .file v.inode)
    (h : firstBlock part v = .ok (ok, v')) :
    ∃ U', NodeGrown part n .file F U U' v v' ∧ v'.inode.iSize = v.inode.iSize := by
  simp only [firstBlock] at h
  split at h
  · split at h
    · rename_i b alloc
      rw [pure_ok] at h
      cases h
      obtain ⟨-, rfl, -⟩ | ⟨i, -, -, -, -, some_, -⟩ := blockBitmapAlloc_cases lay uses.map alloc
      · exact ⟨U, .refl uses refs, rfl⟩
      · cases some_
    · rename_i lba b alloc
      obtain ⟨none, -⟩ | ⟨i, pos, inside, clear, -, some_, rfl⟩ := blockBitmapAlloc_cases lay uses.map alloc
      · cases none
      cases some_
      simp only [bind_ok, assertThat_ok, pure_ok, exists_const] at h
      obtain ⟨-, disk₁, written, h⟩ := h
      cases h
      have other := uses.other_of_clear clear
      have block : DataBlock part n (bitmapSet v.blockBitmap i true) (part.sb.dataStartLba + i) := dataBlock_new inside
      have keeps := keepsUses_update (.data .file) (.inl other)
      exact ⟨_, ⟨(uses.take lay pos inside written).assign block other (.inl rfl), keeps,
        (refs.mono keeps).setDirect (by omega) (Function.update_self ..) (block.lt_pow lay),
        diskStep_any (syncBlock_step lay inside written), rfl⟩, rfl⟩
  · rw [pure_ok] at h
    cases h
    exact ⟨U, .refl uses refs, rfl⟩

/-- **The loops that allocate blocks.** -/
theorem growBlocks_uses (lay : Layout part n) : ∀ (l : List Nat) {v : Vnode} {U : Nat → BlockUse} {all : Nat → Nat},
    growBlocks part l v all = .ok g → Uses part n v.disk v.blockBitmap U F → RefersAs U .file v.inode → Lists U .file all →
    ∃ U', FileGrown part n F U U' v g ∧ g.v.inode.sec 12 = v.inode.sec 12 := by
  intro l
  induction l with
  | nil =>
    intro v U all h uses refs lists
    simp only [growBlocks, pure_ok] at h
    cases h
    exact ⟨U, ⟨.refl uses refs, lists, rfl⟩, rfl⟩
  | cons blockIdx rest ih =>
    intro v U all h uses refs lists
    simp only [growBlocks] at h
    split at h
    · rename_i b alloc
      rw [pure_ok] at h
      cases h
      obtain ⟨-, rfl, -⟩ | ⟨i, -, -, -, -, some_, -⟩ := blockBitmapAlloc_cases lay uses.map alloc
      · exact ⟨U, ⟨.refl uses refs, lists, rfl⟩, rfl⟩
      · cases some_
    rename_i lba b alloc
    obtain ⟨none, -⟩ | ⟨i, pos, inside, clear, -, some_, rfl⟩ := blockBitmapAlloc_cases lay uses.map alloc
    · cases none
    cases some_
    have other := uses.other_of_clear clear
    have block : DataBlock part n (bitmapSet v.blockBitmap i true) (part.sb.dataStartLba + i) := dataBlock_new inside
    have keeps := keepsUses_update (.data .file) (.inl other)
    have refs' := refs.mono keeps
    have stored : ∃ ino disk, RefersAs (Function.update U (part.sb.dataStartLba + i) (.data .file)) .file ino ∧
        (ino.iSize = v.inode.iSize ∧ ino.iNo = v.inode.iNo ∧ ino.sec 12 = v.inode.sec 12) ∧
        syncBlock part v.disk (bitmapSet v.blockBitmap i true) (part.sb.dataStartLba + i) = .ok disk ∧
        growBlocks part rest ⟨disk, bitmapSet v.blockBitmap i true, ino⟩
          (fun k => if k = blockIdx then part.sb.dataStartLba + i else all k) = .ok g := by
      split at h
      · rename_i direct
        simp only [bind_ok, assertThat_ok, pure_ok, exists_const] at h
        obtain ⟨-, ino, rfl, disk, written, h⟩ := h
        refine ⟨_, disk, refs'.setDirect direct (Function.update_self ..) (block.lt_pow lay), ⟨rfl, rfl, ?_⟩, written, h⟩
        rw [Inode.sec_setSec _ (by omega), if_neg (by omega)]
      · simp only [bind_ok, pure_ok] at h
        obtain ⟨ino, rfl, disk, written, h⟩ := h
        exact ⟨_, disk, refs', ⟨rfl, rfl, rfl⟩, written, h⟩
    obtain ⟨ino, disk₁, refs₁, ⟨size₁, number₁, table₁⟩, written, h⟩ := stored
    obtain ⟨U', grown, table⟩ := ih h ((uses.take lay pos inside written).assign block other (.inl rfl)) refs₁
      ((keeps.lists lists).set blockIdx (Function.update_self ..))
    exact ⟨U', ⟨⟨grown.uses, keeps.trans grown.keeps, grown.refs,
      (diskStep_any (syncBlock_step lay inside written)).trans grown.step, grown.number.trans number₁⟩, grown.listed,
      grown.size.trans size₁⟩, table.trans table₁⟩

/-- The last block in use is listed. -/
theorem RefersAs.listsLast (refs : RefersAs U .file v.inode) (few : has ≤ 12) :
    Lists U .file fun k => if k = has - 1 then v.inode.sec (has - 1) else 0 := by
  intro j lt
  dsimp only
  split
  · refine or_iff_not_imp_left.2 fun some_ => ?_
    exact refs.direct _ (by omega) some_
  · exact .inl rfl

/-- The table of a file that has data behind its direct blocks. -/
theorem RefersAs.fileTable (refs : RefersAs U .file v.inode) (some_ : v.inode.sec 12 ≠ 0) (many : 12 ≤ v.inode.iSize / 512) :
    U (v.inode.sec 12) = .table .file := by
  obtain is | ⟨-, -, small⟩ := refs.table some_
  · exact is
  · omega

theorem Uses.listsTable (uses : Uses part n v.disk v.blockBitmap U F) {t : Nat} (is : U t = .table .file) :
    Lists U .file fun k => if k < 12 then 0 else word32 (shifted v.disk (512 * t)) (4 * (k - 12)) := by
  intro j lt
  dsimp only
  split
  · exact .inl rfl
  · exact or_iff_not_imp_left.2 fun some_ => uses.word _ t is j (by omega) lt some_

/-- The table an inode refers to was written. -/
def TableWritten (U : Nat → BlockUse) (ino : Inode) : Prop := ino.sec 12 ≠ 0 → U (ino.sec 12) = .table .file

/-- **The blocks of a growing file.** When it gets more than its direct ones, there is a table. -/
theorem growFile_uses (lay : Layout part n) (uses : Uses part n v.disk v.blockBitmap U F) (refs : RefersAs U .file v.inode)
    (isHas : v.inode.iSize / 512 + 1 = has) (more : has < will) (h : growFile part v has will = .ok g) :
    ∃ U', FileGrown part n F U U' v g ∧ (g.ok = true → 12 < will → TableWritten U' g.v.inode) := by
  simp only [growFile] at h
  split at h
  · rename_i direct
    simp only [bind_ok, defined_ok, assertThat_ok, exists_const] at h
    obtain ⟨-, -, h⟩ := h
    obtain ⟨U', grown, -⟩ := growBlocks_uses lay _ h uses refs (refs.listsLast (by omega))
    exact ⟨U', grown, fun _ _ => by omega⟩
  rename_i past
  split at h
  · rename_i few
    split at h
    · rename_i b alloc
      rw [pure_ok] at h
      cases h
      obtain ⟨-, rfl, -⟩ | ⟨i, -, -, -, -, some_, -⟩ := blockBitmapAlloc_cases lay uses.map alloc
      · exact ⟨U, ⟨.refl uses refs, refs.listsLast few, rfl⟩, by rintro ⟨⟩⟩
      · cases some_
    rename_i lba b alloc
    obtain ⟨none, -⟩ | ⟨i, pos, inside, clear, -, some_, rfl⟩ := blockBitmapAlloc_cases lay uses.map alloc
    · cases none
    cases some_
    simp only [bind_ok, assertThat_ok, exists_const] at h
    obtain ⟨-, g', grew, h⟩ := h
    have other := uses.other_of_clear clear
    have block : DataBlock part n (bitmapSet v.blockBitmap i true) (part.sb.dataStartLba + i) := dataBlock_new inside
    have keeps := keepsUses_update .pending (.inl other)
    have pending : Function.update U (part.sb.dataStartLba + i) .pending (part.sb.dataStartLba + i) = .pending :=
      Function.update_self ..
    have refs' := (refs.mono keeps).setTable (.inr (.inr ⟨rfl, pending, by omega⟩)) (block.lt_pow lay)
    obtain ⟨U', grown, table⟩ := growBlocks_uses lay _ grew ((uses.mark pos inside).assign block other (.inr rfl)) refs'
      (keeps.lists (refs.listsLast few))
    have whole : FileGrown part n F U U' v g' := ⟨⟨grown.uses, keeps.trans grown.keeps, grown.refs, grown.step, grown.number⟩,
      grown.listed, grown.size⟩
    split at h
    · rename_i failed
      rw [pure_ok] at h
      cases h
      exact ⟨U', whole, fun ok => absurd ok (by rw [failed]; decide)⟩
    simp only [bind_ok, ideWrite_ok, pure_ok] at h
    obtain ⟨disk, ⟨-, rfl⟩, rfl⟩ := h
    have isTable : g'.v.inode.sec 12 = part.sb.dataStartLba + i := by
      rw [table, Inode.sec_setSec _ (by omega), if_pos rfl]
    have unwritten : U' (part.sb.dataStartLba + i) = .pending ∨ U' (part.sb.dataStartLba + i) = .table .file := by
      obtain same | ⟨-, written⟩ := grown.keeps (part.sb.dataStartLba + i) (by rw [pending]; rintro ⟨⟩)
      · exact .inl (same.trans pending)
      · exact .inr written
    have block' := grown.uses.block (part.sb.dataStartLba + i) (by rcases unwritten with is | is <;> rw [is] <;> rintro ⟨⟩)
    have keeps' := keepsUses_update (.table .file) (.inr (unwritten.imp_left fun is => ⟨is, rfl⟩))
    refine ⟨_, ⟨⟨grown.uses.writeTable lay block' (.inr (unwritten.imp_left fun is => ⟨is, rfl⟩)) grown.listed,
      whole.keeps.trans keeps', grown.refs.mono keeps', whole.step.trans (diskStep_any (diskStep_data lay _ _ block'.ge)),
      whole.number⟩, keeps'.lists grown.listed, whole.size⟩, fun _ _ _ => ?_⟩
    rw [show g'.v.inode.sec 12 = _ from isTable]
    exact Function.update_self ..
  · rename_i many
    simp only [bind_ok, assertThat_ok, ideRead_ok, exists_const] at h
    obtain ⟨some_, buf, ⟨-, rfl⟩, g', grew, h⟩ := h
    have isTable := refs.fileTable some_ (by omega)
    obtain ⟨U', grown, table⟩ := growBlocks_uses lay _ grew uses refs (uses.listsTable isTable)
    have isTable' := grown.keeps.table isTable
    split at h
    · rename_i failed
      rw [pure_ok] at h
      cases h
      exact ⟨U', grown, fun ok => absurd ok (by rw [failed]; decide)⟩
    simp only [bind_ok, ideWrite_ok, pure_ok] at h
    obtain ⟨disk, ⟨-, rfl⟩, rfl⟩ := h
    have block' := grown.uses.block _ (show U' (v.inode.sec 12) ≠ .other by rw [isTable']; rintro ⟨⟩)
    have keeps' := keepsUses_update (.table .file) (.inr (.inr isTable'))
    refine ⟨_, ⟨⟨grown.uses.writeTable lay block' (.inr (.inr isTable')) grown.listed, grown.keeps.trans keeps',
      grown.refs.mono keeps', grown.step.trans (diskStep_any (diskStep_data lay _ _ block'.ge)), grown.number⟩,
      keeps'.lists grown.listed, grown.size⟩, fun _ _ _ => ?_⟩
    rw [show g'.v.inode.sec 12 = _ from table]
    exact Function.update_self ..

/-- No block is added. -/
theorem sameBlocks_uses (uses : Uses part n v.disk v.blockBitmap U F) (refs : RefersAs U .file v.inode)
    (isHas : v.inode.iSize / 512 + 1 = has) (h : sameBlocks v has = .ok g) :
    FileGrown part n F U U v g ∧ (12 < has → TableWritten U g.v.inode) := by
  simp only [sameBlocks] at h
  split at h
  · rename_i few
    rw [pure_ok] at h
    cases h
    exact ⟨⟨.refl uses refs, refs.listsLast few, rfl⟩, fun _ => by omega⟩
  · simp only [bind_ok, assertThat_ok, ideRead_ok, pure_ok, exists_const] at h
    obtain ⟨some_, buf, ⟨-, rfl⟩, rfl⟩ := h
    have isTable := refs.fileTable some_ (by omega)
    exact ⟨⟨.refl uses refs, uses.listsTable isTable, rfl⟩, fun _ _ => isTable⟩

/-- Data is written where data is, or nowhere on the partition. -/
theorem Uses.writeData (lay : Layout part n) {U : Nat → BlockUse} {disk : Image} {b : Bitmap} (uses : Uses part n disk b U F)
    {lba : Nat} (is : lba = 0 ∨ U lba = .data .file) (buf : Image) :
    Uses part n (splice disk (512 * lba) (512 * 1) buf) b U F ∧
      DiskStep part (fun _ => True) (fun _ => False) disk (splice disk (512 * lba) (512 * 1) buf) := by
  obtain rfl | is := is
  · have h1 := lay.inodeBitmapLba
    have h2 := lay.blockBitmapLba
    have step : DiskStep part (fun _ => False) (fun _ => False) disk (splice disk (512 * 0) (512 * 1) buf) :=
      diskStep_bitmap lay (by omega)
    exact ⟨uses.frame step.toDiskFrame fun _ h => h.elim, diskStep_any step⟩
  · have step := diskStep_data lay disk buf (uses.block lba (by rw [is]; rintro ⟨⟩)).ge
    refine ⟨uses.frame step.toDiskFrame fun x e => ?_, diskStep_any step⟩
    rw [e, is]
    exact ⟨fun _ => by rintro ⟨⟩, by rintro ⟨⟩⟩

/-- What the data loop of `file_write` did: `left` bytes were added. -/
structure DataStored (part : Partition) (n : Nat) (F : Nat → Prop) (U : Nat → BlockUse) (v v' : Vnode) (left : Nat) : Prop where
  uses : Uses part n v'.disk v'.blockBitmap U F
  step : DiskStep part (fun _ => True) (fun _ => False) v.disk v'.disk
  inode : v'.inode = { v.inode with iSize := v.inode.iSize + left }

/-- **The data loop of `file_write`.** `fd_pos` moves by what is written. -/
theorem writeLoop_uses (lay : Layout part n) {buf : Image} {count : Nat} (lists : Lists U .file all) :
    ∀ (fuel : Nat) {first : Bool} {written fdPos fdPos' left : Nat} {v v' : Vnode},
    writeLoop all buf count fuel first written v fdPos = .ok (v', fdPos') → left ≤ fuel → written + left = count →
    fdPos < 2 ^ 32 → Uses part n v.disk v.blockBitmap U F → DataStored part n F U v v' left ∧ fdPos' = addU32 fdPos left := by
  intro fuel
  induction fuel with
  | zero =>
    intro first written fdPos fdPos' left v v' h le isLeft low uses
    obtain rfl : left = 0 := by omega
    simp only [writeLoop, pure_ok] at h
    cases h
    exact ⟨⟨uses, .refl, rfl⟩, (Nat.mod_eq_of_lt low).symm⟩
  | succ fuel ih =>
    intro first written fdPos fdPos' left v v' h le isLeft low uses
    rcases Nat.eq_zero_or_pos left with rfl | more
    · rw [writeLoop, if_neg (by omega), pure_ok] at h
      cases h
      exact ⟨⟨uses, .refl, rfl⟩, (Nat.mod_eq_of_lt low).symm⟩
    obtain ⟨chunk, ioBuf, some_, -, le', -, inside, -, -, h⟩ := writeLoop_turn h rfl isLeft more
    obtain ⟨uses', step⟩ := uses.writeData lay (lists (v.inode.iSize / 512) (by omega))
      (splice ioBuf (v.inode.iSize % 512) chunk (shifted buf written))
    obtain ⟨stored, pos⟩ := ih h (show left - chunk ≤ fuel by omega) (by omega) (Nat.mod_lt _ (by decide)) uses'
    refine ⟨⟨stored.uses, step.trans stored.step, ?_⟩, ?_⟩
    · rw [stored.inode]
      simp only
      rw [Nat.add_assoc, Nat.add_sub_cancel' le']
    · rw [pos, addU32, addU32, addU32, Nat.mod_add_mod, Nat.add_assoc, Nat.add_sub_cancel' le']

/-- What `file_write` did after its checks: the blocks keep their uses, and of the inode
records its own is written. -/
structure FileStored (part : Partition) (n : Nat) (F : Nat → Prop) (U U' : Nat → BlockUse) (v v' : Vnode) : Prop where
  uses : Uses part n v'.disk v'.blockBitmap U' F
  keeps : KeepsUses U U'
  refs : RefersAs U' .file v'.inode
  step : DiskStep part (fun _ => True) (fun m => m = v.inode.iNo % 256) v.disk v'.disk
  number : v'.inode.iNo = v.inode.iNo

theorem NodeGrown.stored (grown : NodeGrown part n .file F U U' v v') : FileStored part n F U U' v v' :=
  ⟨grown.uses, grown.keeps, grown.refs, grown.step.mono (fun _ _ => trivial) fun _ h => h.elim, grown.number⟩

/-- **`file_write`** after its checks: it fails and leaves the size and `fd_pos`, or it adds
`count` bytes and `fd_pos` is `count` behind the last byte that was there. -/
theorem writeFile_uses (lay : Layout part n) {buf : Image} {count fdPos fdPos' : Nat} {r : Option Nat}
    (uses : Uses part n v.disk v.blockBitmap U F) (refs : RefersAs U .file v.inode)
    (h : writeFile part v fdPos buf count = .ok (r, v', fdPos')) :
    ∃ U', FileStored part n F U U' v v' ∧ (fdPos' = fdPos ∧ v'.inode.iSize = v.inode.iSize ∨
      fdPos' = addU32 (subU32 v.inode.iSize 1) count ∧ v'.inode.iSize = v.inode.iSize + count) := by
  simp only [writeFile, bind_ok, Prod.exists] at h
  obtain ⟨ok, w, first, h⟩ := h
  obtain ⟨U₁, grown₁, size₁⟩ := firstBlock_uses lay uses refs first
  split at h
  · rw [pure_ok] at h
    cases h
    exact ⟨U₁, grown₁.stored, .inl ⟨rfl, size₁⟩⟩
  simp only [bind_ok, assertThat_ok, exists_const, ite_bind_ok] at h
  obtain ⟨most, g, got, h⟩ := h
  -- a count that wraps around never gets through the loop
  have more : w.inode.iSize / 512 + 1 ≤ addU32 w.inode.iSize count / 512 + 1 := by
    by_contra short
    rw [if_neg (by omega)] at got
    obtain ⟨enough, ino⟩ := growFile_short (by omega) got
    simp only [enough, Bool.true_eq_false, if_false, bind_ok, Prod.exists] at h
    obtain ⟨v₃, fdPos₃, loop, -⟩ := h
    have range := grown₁.refs.range.iSize
    have bound := writeLoop_size _ loop (Nat.le_refl _) (by rw [ino]) (by omega)
    simp only [addU32] at short
    omega
  have blocks : ∃ U₂, FileGrown part n F U₁ U₂ w g ∧
      (g.ok = true → 12 < addU32 w.inode.iSize count / 512 + 1 → TableWritten U₂ g.v.inode) := by
    split at got
    · rename_i same
      obtain ⟨grown, table⟩ := sameBlocks_uses grown₁.uses grown₁.refs rfl got
      exact ⟨U₁, grown, fun _ past => table (by omega)⟩
    · exact growFile_uses lay grown₁.uses grown₁.refs rfl (by omega) got
  obtain ⟨U₂, grown₂, table⟩ := blocks
  have grown := grown₁.trans grown₂.toNodeGrown
  have size := grown₂.size.trans size₁
  split at h
  · rw [pure_ok] at h
    cases h
    exact ⟨U₂, grown.stored, .inl ⟨rfl, size⟩⟩
  rename_i enough
  simp only [bind_ok, pure_ok, Prod.exists] at h
  obtain ⟨v₃, fdPos₃, loop, disk, synced, h⟩ := h
  replace synced := (inodeSyncThrough_ok synced).2
  cases h
  obtain ⟨stored, pos⟩ := writeLoop_uses lay grown₂.listed _ loop (Nat.le_refl _) (Nat.zero_add _) (Nat.mod_lt _ (by decide))
    grown₂.uses
  have range := grown.refs.range
  have bound : v.inode.iSize + count < 2 ^ 32 := by
    rcases Nat.eq_zero_or_pos count with rfl | some_
    · rw [← size]
      exact range.iSize
    · have := writeLoop_size _ loop (Nat.le_refl _) size (Nat.zero_add _) some_
      omega
  have sum : addU32 w.inode.iSize count = v.inode.iSize + count := by
    rw [size₁, addU32_of_lt bound]
  rw [sum] at table
  have ino : v₃.inode = { g.v.inode with iSize := v.inode.iSize + count } := by
    rw [stored.inode, size]
  have held : RefersAs U₂ .file v₃.inode := by
    rw [ino]
    refine grown.refs.congr ⟨range.iNo, bound, range.iSectors⟩ (fun _ => rfl) fun pending _ => ?_
    by_contra past
    have has : g.v.inode.sec 12 ≠ 0 := by
      intro zero
      have block := grown.uses.block 0 (by rw [← zero, pending]; rintro ⟨⟩)
      exact block.pos lay rfl
    rw [table (by simpa using enough) (by simp only at past; omega) has] at pending
    cases pending
  have number : v₃.inode.iNo = v.inode.iNo := by
    rw [ino]
    exact grown.number
  have sync := inodeSync_step lay synced
  rw [number] at sync
  refine ⟨U₂, ⟨stored.uses.frame sync.toDiskFrame fun _ h => h.elim, grown.keeps, held, ?_, number⟩, .inr ⟨?_, ?_⟩⟩
  · refine ((grown.step.trans stored.step).mono (fun _ _ => trivial) fun _ h => h.elim).trans (sync.mono (fun _ h => h.elim) fun _ h => h)
  · rw [pos, size]
  · rw [ino]

end File

end Sparrow
