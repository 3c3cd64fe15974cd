import Sparrow.Kernel.Paging

/-!
# Who holds which frame

A frame is held by a virtual page, through a present page table entry, or by a directory
entry, as its page table. `Frames` says that no frame has two holders and that a held frame
is marked in its pool; each operation of the page allocator is described by what it does to
this relation (`Extends`, `Shrinks`).
-/

namespace Sparrow.Paging
set_option autoImplicit false

/-- What holds a frame: page `i` of a space, or directory entry `d` of a process. -/
inductive Holder where
  | page (sp : Option Nat) (i : Nat)
  | table (p d : Nat)

def pageAddr (sp : Option Nat) (i : Nat) : Nat := vaddrStart sp + i * pgSize

/-- The page has a present entry, or the directory entry a page table, with this frame. -/
def Memory.Holds (s : Memory) : Holder → Nat → Prop
  | .page sp i, f => i < 8 * (s.vaddr sp).btmpBytesLen ∧
      ∃ t, s.table sp (pdeIdx (pageAddr sp i)) = some t ∧ s.pte t (pteIdx (pageAddr sp i)) = ⟨f, true⟩
  | .table p d, f => d < 768 ∧ s.pde (some p) d = some f

/-- The pool pages of a space are taken from. -/
def poolOf : Option Nat → PoolFlags
  | none => .kernel
  | some _ => .user

/-- Page tables are always taken from the kernel pool. -/
def Holder.pool : Holder → PoolFlags
  | .page sp _ => poolOf sp
  | .table _ _ => .kernel

/-- The frame of bit `k` of a pool. -/
def Memory.frameAt (s : Memory) (pf : PoolFlags) (k : Nat) : Nat := k * pgSize + (s.pool pf).phyAddrStart

/-- The number of bits of a pool. -/
def Memory.poolBits (s : Memory) (pf : PoolFlags) : Nat := 8 * (s.pool pf).poolBitmap.btmpBytesLen

/-- The bit of a frame of the pool is set. -/
def Memory.Marked (s : Memory) (pf : PoolFlags) (k : Nat) : Prop := (s.pool pf).poolBitmap.Set k

/-- What `mem_pool_init` fixes once and for all. -/
structure Layout (s : Memory) : Prop where
  kernelStart : s.kernelPool.phyAddrStart = usedMem
  pools : usedMem + s.poolBits .kernel * pgSize ≤ s.userPool.phyAddrStart
  aligned : s.userPool.phyAddrStart % pgSize = 0
  heap : 8 * s.kernelVaddr.btmpBytesLen < 2 ^ 16
  user : ∀ p, (s.userVaddr p).btmpBytesLen = userBitmapLen

structure Frames (s : Memory) : Prop where
  layout : Layout s
  unique : ∀ x y f, s.Holds x f → s.Holds y f → x = y
  marked : ∀ x f, s.Holds x f → ∃ k, k < s.poolBits x.pool ∧ f = s.frameAt x.pool k ∧ s.Marked x.pool k

section Frames

variable {s s' : Memory} {sp sp' : Option Nat} {i i' f t p d k k' : Nat} {pf pf' : PoolFlags} {x : Holder}

/-- Bits of the two pools stand for different frames. -/
theorem Layout.frameAt_inj (lay : Layout s) (lt : k < s.poolBits pf) (lt' : k' < s.poolBits pf')
    (same : s.frameAt pf k = s.frameAt pf' k') : pf = pf' ∧ k = k' := by
  have start := lay.kernelStart
  have pools := lay.pools
  cases pf <;> cases pf' <;> simp only [Memory.frameAt, Memory.pool, pgSize] at * <;> simp <;> omega

theorem Layout.kernel_frame (lay : Layout s) (lt : k < s.poolBits .kernel) :
    usedMem ≤ s.frameAt .kernel k ∧ s.frameAt .kernel k < s.userPool.phyAddrStart := by
  have start := lay.kernelStart
  have pools := lay.pools
  simp only [Memory.frameAt, Memory.pool, pgSize] at *
  omega

/-- Kernel pages have tables of the loader, user pages have not. -/
theorem Layout.pdeIdx_page (lay : Layout s) (lt : i < 8 * (s.vaddr sp).btmpBytesLen) :
    (sp = none → 768 ≤ pdeIdx (pageAddr sp i) ∧ pdeIdx (pageAddr sp i) < 1023) ∧
      (sp ≠ none → pdeIdx (pageAddr sp i) < 768) := by
  cases sp with
  | none =>
    have heap := lay.heap
    simp only [Memory.vaddr, pdeIdx, pageAddr, vaddrStart, kHeapStart, pgSize] at *
    simp
    omega
  | some p =>
    simp only [Memory.vaddr, lay.user p, userBitmapLen, userVaddrStart, pgSize] at lt
    simp only [pdeIdx, pageAddr, vaddrStart, userVaddrStart, pgSize]
    simp
    omega

theorem pageAddr_inj (dir : pdeIdx (pageAddr sp i) = pdeIdx (pageAddr sp i'))
    (entry : pteIdx (pageAddr sp i) = pteIdx (pageAddr sp i')) : i = i' := by
  have aligned : vaddrStart sp % pgSize = 0 := by
    cases sp <;> simp only [vaddrStart, kHeapStart, userVaddrStart, pgSize]
  simp only [pdeIdx, pteIdx, pageAddr, pgSize] at *
  omega

/-- A page table of a process is a frame of the kernel pool. -/
theorem Frames.table_frame (fr : Frames s) (isTable : s.Holds (.table p d) t) : usedMem ≤ t := by
  obtain ⟨k, lt, rfl, -⟩ := fr.marked _ _ isTable
  exact (fr.layout.kernel_frame lt).1

/-- The table of a user page is held by its directory entry. -/
theorem table_user (lt : d < 768) : s.table (some p) d = some t ↔ s.Holds (.table p d) t := by
  simp [Memory.table, Memory.Holds, lt, Nat.not_le.2 lt]

theorem table_kernel (le : 768 ≤ d) (cur : Option Nat) : s.table cur d = some (kernelTable (d - 768)) := by
  rw [Memory.table, if_pos le]

/-- The tables of the loader lie below the pools. -/
theorem kernelTable_below (lt : d < 1023) : kernelTable (d - 768) < usedMem := by
  have size : usedMem = 0x200000 := by decide
  rw [size]
  unfold kernelTable pgSize
  omega

/-- Two pages with one entry are one page. -/
theorem Frames.entry_inj (fr : Frames s) {t' : Nat} (lt : i < 8 * (s.vaddr sp).btmpBytesLen)
    (lt' : i' < 8 * (s.vaddr sp').btmpBytesLen) (isTable : s.table sp (pdeIdx (pageAddr sp i)) = some t)
    (isTable' : s.table sp' (pdeIdx (pageAddr sp' i')) = some t') (same : t = t')
    (entry : pteIdx (pageAddr sp i) = pteIdx (pageAddr sp' i')) : sp = sp' ∧ i = i' := by
  have dir := fr.layout.pdeIdx_page lt
  have dir' := fr.layout.pdeIdx_page lt'
  subst same
  cases sp with
  | none =>
    have kernel := dir.1 rfl
    rw [table_kernel kernel.1, Option.some.injEq] at isTable
    cases sp' with
    | none =>
      rw [table_kernel (dir'.1 rfl).1, Option.some.injEq, ← isTable] at isTable'
      have := dir'.1 rfl
      refine ⟨rfl, pageAddr_inj ?_ entry⟩
      simp only [kernelTable, pgSize] at isTable'
      omega
    | some q =>
      rw [table_user (dir'.2 (by simp))] at isTable'
      have above := fr.table_frame isTable'
      have below := kernelTable_below kernel.2
      omega
  | some q =>
    rw [table_user (dir.2 (by simp))] at isTable
    cases sp' with
    | none =>
      have kernel := dir'.1 rfl
      rw [table_kernel kernel.1, Option.some.injEq] at isTable'
      have above := fr.table_frame isTable
      have below := kernelTable_below kernel.2
      omega
    | some q' =>
      rw [table_user (dir'.2 (by simp))] at isTable'
      have same := fr.unique _ _ _ isTable isTable'
      simp only [Holder.table.injEq] at same
      obtain ⟨rfl, dirs⟩ := same
      exact ⟨rfl, pageAddr_inj dirs entry⟩

/-- A clear bit belongs to no holder. -/
theorem Frames.not_held (fr : Frames s) (lt : k < s.poolBits pf) (clear : ¬ s.Marked pf k) :
    ¬ s.Holds x (s.frameAt pf k) := by
  intro held
  obtain ⟨k', lt', same, marked⟩ := fr.marked _ _ held
  obtain ⟨rfl, rfl⟩ := fr.layout.frameAt_inj lt lt' same
  exact clear marked

end Frames

section Parts

variable (s : Memory) (pf pf' : PoolFlags) (b : Bitmap) (sp : Option Nat)

@[simp] theorem setPool_vaddr : (s.setPool pf b).vaddr sp = s.vaddr sp := by cases pf <;> cases sp <;> rfl

@[simp] theorem setPool_table (d : Nat) : (s.setPool pf b).table sp d = s.table sp d := by cases pf <;> rfl

@[simp] theorem setPool_pde : (s.setPool pf b).pde = s.pde := by cases pf <;> rfl

@[simp] theorem setPool_pte : (s.setPool pf b).pte = s.pte := by cases pf <;> rfl

@[simp] theorem setPool_starved : (s.setPool pf b).starved = s.starved := by cases pf <;> rfl

theorem setPool_pool : (s.setPool pf b).pool pf' =
    if pf' = pf then { s.pool pf with poolBitmap := b } else s.pool pf' := by cases pf <;> cases pf' <;> rfl

@[simp] theorem setPool_holds (x : Holder) (f : Nat) : (s.setPool pf b).Holds x f ↔ s.Holds x f := by
  cases x <;> simp [Memory.Holds]

@[simp] theorem setPool_start : ((s.setPool pf b).pool pf').phyAddrStart = (s.pool pf').phyAddrStart := by
  rw [setPool_pool]
  split
  · rename_i same
    rw [same]
  · rfl

@[simp] theorem setPool_frameAt (k : Nat) : (s.setPool pf b).frameAt pf' k = s.frameAt pf' k := by
  simp [Memory.frameAt]

end Parts

/-- What no operation changes. -/
structure Same (s s' : Memory) : Prop where
  spaces : ∀ sp, (s'.vaddr sp).btmpBytesLen = (s.vaddr sp).btmpBytesLen
  starts : ∀ pf, (s'.pool pf).phyAddrStart = (s.pool pf).phyAddrStart
  lens : ∀ pf, s'.poolBits pf = s.poolBits pf

section Same

variable {s s' s'' : Memory} {pf : PoolFlags} {k : Nat}

theorem Same.refl (s : Memory) : Same s s := ⟨fun _ => rfl, fun _ => rfl, fun _ => rfl⟩

theorem Same.trans (h : Same s s') (h' : Same s' s'') : Same s s'' :=
  ⟨fun sp => (h'.spaces sp).trans (h.spaces sp), fun pf => (h'.starts pf).trans (h.starts pf),
    fun pf => (h'.lens pf).trans (h.lens pf)⟩

theorem Same.frameAt (h : Same s s') : s'.frameAt pf k = s.frameAt pf k := by
  rw [Memory.frameAt, h.starts, Memory.frameAt]

theorem Same.layout (h : Same s s') (lay : Layout s) : Layout s' := by
  have start : s'.userPool.phyAddrStart = s.userPool.phyAddrStart := h.starts .user
  refine ⟨(h.starts .kernel).trans lay.kernelStart, ?_, by rw [start]; exact lay.aligned, ?_,
    fun p => (h.spaces (some p)).trans (lay.user p)⟩
  · rw [h.lens, start]
    exact lay.pools
  · have len : s'.kernelVaddr.btmpBytesLen = s.kernelVaddr.btmpBytesLen := h.spaces none
    rw [len]
    exact lay.heap

theorem same_setPool {b : Bitmap} (len : b.btmpBytesLen = (s.pool pf).poolBitmap.btmpBytesLen) :
    Same s (s.setPool pf b) := by
  refine ⟨fun sp => by simp, fun pf' => by simp, fun pf' => ?_⟩
  simp only [Memory.poolBits, setPool_pool]
  split
  · rename_i same
    rw [same, len]
  · rfl

end Same

section Steps

variable {s s' s1 s2 : Memory} {sp sp' cur : Option Nat} {i i' f f' t p d k k' : Nat} {pf pf' : PoolFlags} {x : Holder}

/-- `palloc` marks a frame nobody holds. -/
theorem palloc_some (got : palloc s pf = (some f, s')) : ∃ k, k < s.poolBits pf ∧ ¬ s.Marked pf k ∧
    f = s.frameAt pf k ∧ s' = s.setPool pf (bitmapSet (s.pool pf).poolBitmap k true) := by
  simp only [palloc] at got
  split at got
  · simp at got
  · rename_i k found
    obtain ⟨lt, clear, -⟩ := bitmapScan_one_some found
    cases got
    exact ⟨k, lt, clear, rfl, rfl⟩

theorem marked_setPool {v : Bool} : (s.setPool pf (bitmapSet (s.pool pf).poolBitmap k v)).Marked pf' k' ↔
    if pf' = pf ∧ k' = k then v = true else s.Marked pf' k' := by
  simp only [Memory.Marked, setPool_pool]
  by_cases same : pf' = pf
  · subst same
    simp only [if_true, true_and]
    exact set_bitmapSet _ _ _ _
  · simp [same]

theorem same_palloc (got : palloc s pf = (some f, s')) : Same s s' := by
  obtain ⟨k, -, -, -, rfl⟩ := palloc_some got
  exact same_setPool (by simp)

/-- Marking one more frame. -/
theorem Frames.palloc (fr : Frames s) (got : palloc s pf = (some f, s')) : Frames s' := by
  have same := same_palloc got
  obtain ⟨k, -, -, -, rfl⟩ := palloc_some got
  refine ⟨same.layout fr.layout, fun x y f hx hy => fr.unique x y f (by simpa using hx) (by simpa using hy), ?_⟩
  intro x f held
  obtain ⟨k', lt, isFrame, marked⟩ := fr.marked x f (by simpa using held)
  refine ⟨k', by rw [same.lens]; exact lt, by rw [same.frameAt]; exact isFrame, ?_⟩
  rw [marked_setPool]
  split
  · rfl
  · exact marked

/-- Writing the entry of page `i` says nothing about any other page. -/
theorem holds_setPte (fr : Frames s) (lt : i < 8 * (s.vaddr sp).btmpBytesLen)
    (isTable : s.table sp (pdeIdx (pageAddr sp i)) = some t) (e : Pte) :
    (s.setPte t (pteIdx (pageAddr sp i)) e).Holds (.page sp' i') f ↔
      if sp' = sp ∧ i' = i then e = ⟨f, true⟩ else s.Holds (.page sp' i') f := by
  split
  · rename_i same
    obtain ⟨rfl, rfl⟩ := same
    constructor
    · rintro ⟨-, t', isTable', entry⟩
      rw [show (s.setPte t (pteIdx (pageAddr sp' i')) e).table sp' (pdeIdx (pageAddr sp' i')) = some t from isTable] at isTable'
      cases isTable'
      simpa [Memory.setPte] using entry
    · intro isE
      exact ⟨lt, t, isTable, by simp [Memory.setPte, isE]⟩
  · rename_i other
    -- the entry of another page is another word
    have word : ∀ t', i' < 8 * (s.vaddr sp').btmpBytesLen → s.table sp' (pdeIdx (pageAddr sp' i')) = some t' →
        (s.setPte t (pteIdx (pageAddr sp i)) e).pte t' (pteIdx (pageAddr sp' i')) = s.pte t' (pteIdx (pageAddr sp' i')) := by
      intro t' lt' isTable'
      refine if_neg fun same => other ?_
      exact fr.entry_inj lt' lt isTable' isTable same.1 same.2
    constructor
    · rintro ⟨lt', t', isTable', entry⟩
      exact ⟨lt', t', isTable', by rw [← word t' lt' isTable']; exact entry⟩
    · rintro ⟨lt', t', isTable', entry⟩
      exact ⟨lt', t', isTable', by rw [word t' lt' isTable']; exact entry⟩

theorem addTable_marked (t : Nat) : (s.addTable cur d t).Marked pf k ↔ s.Marked pf k := by cases pf <;> rfl

theorem setPte_marked (t j : Nat) (e : Pte) : (s.setPte t j e).Marked pf k ↔ s.Marked pf k := by cases pf <;> rfl

theorem same_setPte (t j : Nat) (e : Pte) : Same s (s.setPte t j e) := ⟨fun _ => rfl, fun _ => rfl, fun _ => rfl⟩

/-- One new holder of a frame nobody held. -/
theorem unique_of_new (fr : Frames s) {new : Holder} (holders : ∀ x f, s'.Holds x f → s.Holds x f ∨ (x = new ∧ f = t))
    (unheld : ∀ x, ¬ s.Holds x t) : ∀ x y f, s'.Holds x f → s'.Holds y f → x = y := by
  intro x y f hx hy
  rcases holders x f hx with oldX | ⟨rfl, rfl⟩
  · rcases holders y f hy with oldY | ⟨rfl, rfl⟩
    · exact fr.unique x y f oldX oldY
    · exact absurd oldX (unheld x)
  · rcases holders y f hy with oldY | ⟨rfl, -⟩
    · exact absurd oldY (unheld y)
    · rfl

theorem marked_of_new (fr : Frames s) {new : Holder}
    (holders : ∀ x f, s'.Holds x f → s.Holds x f ∨ (x = new ∧ f = s.frameAt new.pool k))
    (inPool : k < s.poolBits new.pool) (marked : s.Marked new.pool k) :
    ∀ x f, s'.Holds x f → ∃ k, k < s.poolBits x.pool ∧ f = s.frameAt x.pool k ∧ s.Marked x.pool k := by
  intro x f held
  rcases holders x f held with old | ⟨rfl, rfl⟩
  · exact fr.marked x f old
  · exact ⟨k, inPool, rfl, marked⟩

/-- A page gets a marked frame nobody holds. -/
theorem Frames.addEntry (fr : Frames s) (lt : i < 8 * (s.vaddr sp).btmpBytesLen)
    (isTable : s.table sp (pdeIdx (pageAddr sp i)) = some t) (absent : (s.pte t (pteIdx (pageAddr sp i))).present = false)
    (inPool : k < s.poolBits (poolOf sp)) (marked : s.Marked (poolOf sp) k)
    (unheld : ∀ x, ¬ s.Holds x (s.frameAt (poolOf sp) k)) :
    let s' := s.setPte t (pteIdx (pageAddr sp i)) ⟨s.frameAt (poolOf sp) k, true⟩
    Frames s' ∧ ∀ sp' i' f, s'.Holds (.page sp' i') f ↔
      s.Holds (.page sp' i') f ∨ (sp' = sp ∧ i' = i ∧ f = s.frameAt (poolOf sp) k) := by
  intro s'
  have pages : ∀ sp' i' f, s'.Holds (.page sp' i') f ↔
      s.Holds (.page sp' i') f ∨ (sp' = sp ∧ i' = i ∧ f = s.frameAt (poolOf sp) k) := by
    intro sp' i' f
    rw [holds_setPte fr lt isTable]
    split
    · rename_i same
      obtain ⟨rfl, rfl⟩ := same
      constructor
      · intro e
        cases e
        exact .inr ⟨rfl, rfl, rfl⟩
      · rintro (⟨-, t', isTable', entry⟩ | ⟨-, -, rfl⟩)
        · rw [isTable] at isTable'
          cases isTable'
          rw [entry] at absent
          exact absurd absent (by simp)
        · rfl
    · rename_i other
      exact ⟨.inl, fun h => h.resolve_right fun new => other ⟨new.1, new.2.1⟩⟩
  have holders : ∀ x f, s'.Holds x f → s.Holds x f ∨ (x = .page sp i ∧ f = s.frameAt (poolOf sp) k) := by
    intro x f held
    cases x with
    | page sp' i' =>
      rcases (pages sp' i' f).1 held with old | ⟨rfl, rfl, rfl⟩
      · exact .inl old
      · exact .inr ⟨rfl, rfl⟩
    | table p d => exact .inl held
  have inPools := marked_of_new fr holders inPool marked
  exact ⟨⟨(same_setPte _ _ _).layout fr.layout, unique_of_new fr holders unheld, inPools⟩, pages⟩

/-- A directory entry gets a marked frame nobody holds as its page table. -/
theorem Frames.addTable (fr : Frames s) (lt : d < 768) (absent : s.pde (some p) d = none)
    (inPool : k < s.poolBits .kernel) (marked : s.Marked .kernel k) (unheld : ∀ x, ¬ s.Holds x (s.frameAt .kernel k)) :
    let s' := s.addTable (some p) d (s.frameAt .kernel k)
    Frames s' ∧ (∀ sp i f, s'.Holds (.page sp i) f ↔ s.Holds (.page sp i) f) ∧
      ∀ q e f, s'.Holds (.table q e) f ↔ s.Holds (.table q e) f ∨ (q = p ∧ e = d ∧ f = s.frameAt .kernel k) := by
  intro s'
  have above := (fr.layout.kernel_frame inPool).1
  have lay : Layout s' := (Same.mk (fun _ => rfl) (fun _ => rfl) (fun _ => rfl) : Same s s').layout fr.layout
  have tables : ∀ q e f, s'.Holds (.table q e) f ↔
      s.Holds (.table q e) f ∨ (q = p ∧ e = d ∧ f = s.frameAt .kernel k) := by
    intro q e f
    simp only [Memory.Holds, s', Memory.addTable, Option.some.injEq]
    split
    · rename_i same
      obtain ⟨rfl, rfl⟩ := same
      simp [lt, absent, eq_comm]
    · rename_i other
      exact ⟨.inl, fun h => h.resolve_right fun new => other ⟨new.1, new.2.1⟩⟩
  -- only the entries of the new table are cleared, and no page has this table
  have entry : ∀ u j, u ≠ s.frameAt .kernel k → s'.pte u j = s.pte u j := fun u j ne => if_neg ne
  have cleared : ∀ j, s'.pte (s.frameAt .kernel k) j = ⟨0, false⟩ := fun j => if_pos rfl
  have pages : ∀ sp i f, s'.Holds (.page sp i) f ↔ s.Holds (.page sp i) f := by
    intro sp i f
    refine and_congr_right fun inSpace => ?_
    have inSpace : i < 8 * (s.vaddr sp).btmpBytesLen := inSpace
    have dir := fr.layout.pdeIdx_page inSpace
    cases sp with
    | none =>
      have kernel := dir.1 rfl
      have below := kernelTable_below kernel.2
      simp only [table_kernel kernel.1, Option.some.injEq, exists_eq_left']
      rw [entry _ _ (by omega)]
    | some q =>
      have user := dir.2 (by simp)
      simp only [table_user user]
      constructor
      · rintro ⟨t', isTable, isEntry⟩
        rcases (tables _ _ _).1 isTable with old | ⟨-, -, rfl⟩
        · rw [entry _ _ fun same => unheld _ (same ▸ old)] at isEntry
          exact ⟨t', old, isEntry⟩
        · rw [cleared] at isEntry
          exact absurd isEntry (by simp)
      · rintro ⟨t', isTable, isEntry⟩
        refine ⟨t', (tables _ _ _).2 (.inl isTable), ?_⟩
        rw [entry _ _ fun same => unheld _ (same ▸ isTable)]
        exact isEntry
  have holders : ∀ x f, s'.Holds x f → s.Holds x f ∨ (x = .table p d ∧ f = s.frameAt .kernel k) := by
    intro x f held
    cases x with
    | page sp i => exact .inl ((pages sp i f).1 held)
    | table q e =>
      rcases (tables q e f).1 held with old | ⟨rfl, rfl, rfl⟩
      · exact .inl old
      · exact .inr ⟨rfl, rfl⟩
  have inPools := marked_of_new fr holders inPool marked
  exact ⟨⟨lay, unique_of_new fr holders unheld, inPools⟩, pages, tables⟩

end Steps

/-! Mapping pages. -/

/-- The pages `new` got fresh frames, and nothing else changed but page tables. -/
structure Extends (s s' : Memory) (new : Option Nat → Nat → Nat → Prop) : Prop where
  frames : Frames s'
  same : Same s s'
  vaddr : ∀ sp, s'.vaddr sp = s.vaddr sp
  pages : ∀ sp i f, s'.Holds (.page sp i) f ↔ s.Holds (.page sp i) f ∨ new sp i f
  tables : ∀ p d f, s.Holds (.table p d) f → s'.Holds (.table p d) f
  kept : ∀ pf k, s.Marked pf k → s'.Marked pf k
  fresh : ∀ sp i f, new sp i f →
    ∃ k, k < s.poolBits (poolOf sp) ∧ f = s.frameAt (poolOf sp) k ∧ ¬ s.Marked (poolOf sp) k
  added : ∀ pf k, s'.Marked pf k →
    s.Marked pf k ∨ (∃ sp i, new sp i (s.frameAt pf k)) ∨ ∃ p d, s'.Holds (.table p d) (s.frameAt pf k)

section Mapping

variable {s s' s1 s2 : Memory} {sp cur : Option Nat} {i f t p d k n : Nat} {pf : PoolFlags}
  {new new' : Option Nat → Nat → Nat → Prop}

theorem Extends.refl (fr : Frames s) : Extends s s fun _ _ _ => False :=
  ⟨fr, Same.refl s, fun _ => rfl, fun _ _ _ => by simp, fun _ _ _ => id, fun _ _ => id, fun _ _ _ => False.elim,
    fun _ _ => .inl⟩

theorem Extends.trans (h : Extends s s1 new) (h' : Extends s1 s2 new') :
    Extends s s2 fun sp i f => new sp i f ∨ new' sp i f := by
  refine ⟨h'.frames, h.same.trans h'.same, fun sp => (h'.vaddr sp).trans (h.vaddr sp), ?_,
    fun p d f held => h'.tables p d f (h.tables p d f held), fun pf k marked => h'.kept pf k (h.kept pf k marked), ?_, ?_⟩
  · intro sp i f
    rw [h'.pages, h.pages, or_assoc]
  · rintro sp i f (isNew | isNew)
    · exact h.fresh sp i f isNew
    · obtain ⟨k, lt, isFrame, clear⟩ := h'.fresh sp i f isNew
      rw [h.same.lens] at lt
      rw [h.same.frameAt] at isFrame
      exact ⟨k, lt, isFrame, fun marked => clear (h.kept _ _ marked)⟩
  · intro pf k marked
    rcases h'.added pf k marked with before | ⟨sp, i, isNew⟩ | ⟨p, d, isTable⟩
    · rcases h.added pf k before with old | ⟨sp, i, isNew⟩ | ⟨p, d, isTable⟩
      · exact .inl old
      · exact .inr (.inl ⟨sp, i, .inl isNew⟩)
      · exact .inr (.inr ⟨p, d, h'.tables p d _ isTable⟩)
    · rw [h.same.frameAt] at isNew
      exact .inr (.inl ⟨sp, i, .inr isNew⟩)
    · rw [h.same.frameAt] at isTable
      exact .inr (.inr ⟨p, d, isTable⟩)

/-- A running task sees the tables of the space it works on. -/
theorem table_cur (lay : Layout s) (lt : i < 8 * (s.vaddr sp).btmpBytesLen) (who : sp = none ∨ cur = sp) :
    s.table cur (pdeIdx (pageAddr sp i)) = s.table sp (pdeIdx (pageAddr sp i)) := by
  rcases who with rfl | rfl
  · have kernel := (lay.pdeIdx_page lt).1 rfl
    rw [table_kernel kernel.1, table_kernel kernel.1]
  · rfl

/-- Between `palloc` and the write of the entry: frame `k` is marked for the page, and there
may be a page table more. -/
structure Prepared (s s1 : Memory) (sp : Option Nat) (k : Nat) : Prop where
  frames : Frames s1
  same : Same s s1
  vaddr : ∀ sp, s1.vaddr sp = s.vaddr sp
  pages : ∀ sp i f, s1.Holds (.page sp i) f ↔ s.Holds (.page sp i) f
  tables : ∀ p d f, s.Holds (.table p d) f → s1.Holds (.table p d) f
  kept : ∀ pf k, s.Marked pf k → s1.Marked pf k
  inPool : k < s.poolBits (poolOf sp)
  clear : ¬ s.Marked (poolOf sp) k
  marked : s1.Marked (poolOf sp) k
  unheld : ∀ x, ¬ s1.Holds x (s.frameAt (poolOf sp) k)
  added : ∀ pf k', s1.Marked pf k' → s.Marked pf k' ∨ (pf = poolOf sp ∧ k' = k) ∨
    ∃ p d, s1.Holds (.table p d) (s.frameAt pf k')

theorem prepared_palloc (fr : Frames s) (take : palloc s (poolOf sp) = (some f, s1)) :
    ∃ k, f = s.frameAt (poolOf sp) k ∧ Prepared s s1 sp k ∧ s1.pde = s.pde ∧ s1.starved = s.starved := by
  have fr1 := fr.palloc take
  have same := same_palloc take
  obtain ⟨k, inPool, clear, rfl, rfl⟩ := palloc_some take
  refine ⟨k, rfl, ⟨fr1, same, fun _ => by simp, fun _ _ _ => by simp, fun _ _ _ held => by simpa using held, ?_,
    inPool, clear, ?_, fun x held => fr.not_held inPool clear (by simpa using held), ?_⟩, by simp, by simp⟩
  · intro pf k' marked
    rw [marked_setPool]
    split
    · rfl
    · exact marked
  · rw [marked_setPool, if_pos ⟨rfl, rfl⟩]
  · intro pf k' marked
    rw [marked_setPool] at marked
    split at marked
    · rename_i same
      exact .inr (.inl same)
    · exact .inl marked

/-- A page table for the page, when its directory entry is empty. -/
theorem Prepared.addTable (pre : Prepared s s1 (some p) k) (lt : d < 768) (absent : s1.pde (some p) d = none)
    (take : palloc s1 .kernel = (some t, s2)) :
    Prepared s (s2.addTable (some p) d t) (some p) k ∧ (s2.addTable (some p) d t).table (some p) d = some t := by
  have fr2 := pre.frames.palloc take
  have same2 := same_palloc take
  obtain ⟨k2, inPool2, clear2, rfl, rfl⟩ := palloc_some take
  have marked2 : (s1.setPool .kernel (bitmapSet (s1.pool .kernel).poolBitmap k2 true)).Marked .kernel k2 := by
    rw [marked_setPool, if_pos ⟨rfl, rfl⟩]
  obtain ⟨frames, pages, tables⟩ := fr2.addTable (p := p) (k := k2) lt (by simpa using absent)
    (by rw [same2.lens]; exact inPool2) marked2
    (fun x held => pre.frames.not_held inPool2 clear2 (by simpa using held))
  simp only [setPool_frameAt, setPool_holds] at frames pages tables
  refine ⟨⟨frames, pre.same.trans (same2.trans ⟨fun _ => rfl, fun _ => rfl, fun _ => rfl⟩), ?_, ?_, ?_, ?_,
    pre.inPool, pre.clear, ?_, ?_, ?_⟩, ?_⟩
  · intro sp
    rw [← pre.vaddr sp]
    exact setPool_vaddr _ _ _ _
  · intro sp i f
    rw [pages, pre.pages]
  · intro q e f held
    exact (tables q e f).2 (.inl (pre.tables q e f held))
  · intro pf k' marked
    rw [addTable_marked, marked_setPool]
    split
    · rfl
    · exact pre.kept pf k' marked
  · rw [addTable_marked, marked_setPool]
    split
    · rfl
    · exact pre.marked
  · -- frame `k` was marked when the frame of the table was not
    intro x held
    cases x with
    | page sp i => exact pre.unheld _ ((pages sp i _).1 held)
    | table q e =>
      rcases (tables q e _).1 held with old | ⟨-, -, same⟩
      · exact pre.unheld _ old
      · rw [← pre.same.frameAt] at same
        obtain ⟨user, -⟩ := pre.frames.layout.frameAt_inj (by rw [pre.same.lens]; exact pre.inPool) inPool2 same
        exact absurd user (by simp [poolOf])
  · intro pf k' marked
    rw [addTable_marked, marked_setPool] at marked
    split at marked
    · rename_i same
      obtain ⟨rfl, rfl⟩ := same
      refine .inr (.inr ⟨p, d, (tables p d _).2 (.inr ⟨rfl, rfl, ?_⟩)⟩)
      exact pre.same.frameAt.symm
    · rcases pre.added pf k' marked with old | isK | ⟨q, e, isTable⟩
      · exact .inl old
      · exact .inr (.inl isK)
      · exact .inr (.inr ⟨q, e, (tables q e _).2 (.inl isTable)⟩)
  · simp [Memory.table, Memory.addTable, Nat.not_le.2 lt]

/-- The entry of the page is written. -/
theorem Prepared.mapped (pre : Prepared s s1 sp k) (lt : i < 8 * (s.vaddr sp).btmpBytesLen)
    (isTable : s1.table sp (pdeIdx (pageAddr sp i)) = some t)
    (absent : (s1.pte t (pteIdx (pageAddr sp i))).present = false) :
    Extends s (s1.setPte t (pteIdx (pageAddr sp i)) ⟨s.frameAt (poolOf sp) k, true⟩)
      fun sp' i' f' => sp' = sp ∧ i' = i ∧ f' = s.frameAt (poolOf sp) k := by
  have isFrame : s1.frameAt (poolOf sp) k = s.frameAt (poolOf sp) k := pre.same.frameAt
  obtain ⟨frames, pages⟩ := pre.frames.addEntry (k := k) (by rw [pre.vaddr]; exact lt) isTable absent
    (by rw [pre.same.lens]; exact pre.inPool) pre.marked (by rw [isFrame]; exact pre.unheld)
  rw [isFrame] at frames pages
  refine ⟨frames, pre.same.trans (same_setPte _ _ _), pre.vaddr, ?_, pre.tables, ?_, ?_, ?_⟩
  · intro sp' i' f'
    rw [pages, pre.pages]
  · intro pf k' marked
    rw [setPte_marked]
    exact pre.kept pf k' marked
  · rintro sp' i' f' ⟨rfl, -, rfl⟩
    exact ⟨k, pre.inPool, rfl, pre.clear⟩
  · intro pf k' marked
    rw [setPte_marked] at marked
    rcases pre.added pf k' marked with old | ⟨rfl, rfl⟩ | isTable'
    · exact .inl old
    · exact .inr (.inl ⟨sp, i, rfl, rfl, rfl⟩)
    · exact .inr (.inr isTable')

theorem palloc_none (got : palloc s pf = (none, s')) : s'.starved = true := by
  simp only [palloc] at got
  split at got
  · cases got
    rfl
  · simp at got

/-- **`page_table_add`** for a frame just taken. -/
theorem mapOne (fr : Frames s) (lt : i < 8 * (s.vaddr sp).btmpBytesLen) (who : sp = none ∨ cur = sp)
    (take : palloc s (poolOf sp) = (some f, s1)) (add : pageTableAdd s1 cur (pageAddr sp i) f = .ok s2)
    (fed : s2.starved = false) : Extends s s2 fun sp' i' f' => sp' = sp ∧ i' = i ∧ f' = f := by
  obtain ⟨k, rfl, pre, dirs, -⟩ := prepared_palloc fr take
  have inSpace : i < 8 * (s1.vaddr sp).btmpBytesLen := by
    rw [pre.vaddr]
    exact lt
  simp only [pageTableAdd] at add
  split at add
  · rename_i t isTable
    rw [table_cur pre.frames.layout inSpace who] at isTable
    simp only [bind_ok, assertThat_ok, exists_const, pure_ok] at add
    obtain ⟨absent, rfl⟩ := add
    exact pre.mapped lt isTable absent
  · rename_i noTable
    -- kernel pages always have a table
    obtain ⟨p, rfl⟩ : ∃ p, sp = some p := by
      cases sp with
      | some p => exact ⟨p, rfl⟩
      | none =>
        rw [table_kernel ((pre.frames.layout.pdeIdx_page inSpace).1 rfl).1] at noTable
        exact absurd noTable (by simp)
    obtain rfl : cur = some p := who.resolve_left (by simp)
    have user := (pre.frames.layout.pdeIdx_page inSpace).2 (by simp)
    rw [Memory.table, if_neg (by omega)] at noTable
    generalize taken : palloc s1 .kernel = result at add
    obtain ⟨got, s3⟩ := result
    simp only [bind_ok, assertThat_ok, exists_const, pure_ok] at add
    obtain ⟨absent, rfl⟩ := add
    cases got with
    | none =>
      have := palloc_none taken
      simp only [Memory.setPte, Memory.addTable] at fed
      rw [this] at fed
      cases fed
    | some t =>
      obtain ⟨pre', isTable⟩ := pre.addTable user noTable taken
      exact pre'.mapped lt isTable absent

/-- `get_a_page` marks the page and maps a frame to it, unless its pool is empty. -/
theorem getAPage_cases {vaddr : Nat} {got : Option Nat} (call : getAPage s cur pf vaddr = .ok (got, s')) :
    (pf = .user ↔ cur ≠ none) ∧ ∃ s1, s1 = s.setVaddr (space pf cur)
        (bitmapSet (s.vaddr (space pf cur)) (bitIdx (space pf cur) vaddr) true) ∧
      ((palloc s1 pf = (none, s') ∧ got = none) ∨
        ∃ frame s2, palloc s1 pf = (some frame, s2) ∧ pageTableAdd s2 cur vaddr frame = .ok s' ∧ got = some vaddr) := by
  simp only [getAPage, bind_ok, ite_assertThat_ok, assertThat_ok, exists_const] at call
  obtain ⟨task, -, call⟩ := call
  refine ⟨task, _, rfl, ?_⟩
  split at call
  · rename_i taken
    cases call
    exact .inl ⟨taken, rfl⟩
  · rename_i frame s2 taken
    rw [bind_ok] at call
    obtain ⟨s3, add, call⟩ := call
    cases call
    exact .inr ⟨frame, s2, taken, add, rfl⟩

end Mapping

end Sparrow.Paging
