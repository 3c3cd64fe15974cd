import Sparrow.Kernel.Paging
import Sparrow.Lib.PageTables

/-!
# Page tables seen through themselves

`pde_ptr`, `pte_ptr`, `page_table_add` and `addr_v2p` as they run: on the bytes of physical memory, and with
pointers that the page directory itself translates. The last entry of the directory names the directory, so
that the entries are words at virtual addresses (`translate_pdePtr`, `translate_ptePtr`) and a store to one can
change how the next is reached. `page_table_add` maps its page and no other unless the frame that its `palloc`
gives is a table already (`mapsPage_iff`); null, which it does not look for, is such a frame.
-/

namespace Sparrow.SelfMap
set_option autoImplicit false

open PageTables Paging

/-- Physical memory, the page directory in `cr3` and the pool that page tables are from. -/
structure Machine where
  mem : Image
  pgdir : Nat
  kernelPool : Pool

def pgP1 : BitVec 32 := 1#32

def pgRwW : BitVec 32 := 2#32

def pgUsU : BitVec 32 := 4#32

/-! ## Pointers -/

/-- `PDE_IDX`. -/
def PDE_IDX (addr : BitVec 32) : BitVec 32 := (addr &&& 0xffc00000#32) >>> 22

/-- `PTE_IDX`. -/
def PTE_IDX (addr : BitVec 32) : BitVec 32 := (addr &&& 0x003ff000#32) >>> 12

/-- `pde_ptr`. -/
def pdePtr (vaddr : BitVec 32) : BitVec 32 := 0xfffff000#32 + PDE_IDX vaddr * 4#32

/-- `pte_ptr`. -/
def ptePtr (vaddr : BitVec 32) : BitVec 32 := 0xffc00000#32 + ((vaddr &&& 0xffc00000#32) >>> 10) + PTE_IDX vaddr * 4#32

/-- What the processor makes of an address. -/
def Machine.translate (s : Machine) (vaddr : BitVec 32) : Option Nat := walk s.mem s.pgdir vaddr.toNat

/-- `*p` for a pointer to a word, which lies in one page. A page fault is undefined behaviour. -/
def load (s : Machine) (p : BitVec 32) : Exec (BitVec 32) :=
  match s.translate p with
  | none => throw .undefined
  | some a => return BitVec.ofNat 32 (word32 s.mem a)

/-- `*p = value`. -/
def store (s : Machine) (p value : BitVec 32) : Exec Machine :=
  match s.translate p with
  | none => throw .undefined
  | some a => return { s with mem := splice s.mem a 4 fun k => leByte value.toNat k }

/-- `*dst = value` for a byte. -/
def storeByte (s : Machine) (dst : BitVec 32) (value : Byte) : Exec Machine :=
  match s.translate dst with
  | none => throw .undefined
  | some a => return { s with mem := fill s.mem a 1 value }

/-- The loop of `memset`: every byte goes through the tables. -/
def memsetLoop (value : Byte) : Nat → BitVec 32 → Machine → Exec Machine
  | 0, _, s => return s
  | size + 1, dst, s => do
    let s ← storeByte s dst value
    memsetLoop value size (dst + 1#32) s

def memset (s : Machine) (dst : BitVec 32) (value : Byte) (size : Nat) : Exec Machine := do
  assertThat (dst ≠ 0#32)
  memsetLoop value size dst s

/-- `palloc` from this pool; 0 is null. -/
def palloc (mPool : Pool) : BitVec 32 × Pool :=
  match bitmapScan mPool.poolBitmap 1 with
  | none => (0#32, mPool)
  | some bitIdx =>
    (BitVec.ofNat 32 (bitIdx * pgSize + mPool.phyAddrStart), { mPool with poolBitmap := bitmapSet mPool.poolBitmap bitIdx true })

/-- `page_table_add`. -/
def pageTableAdd (s : Machine) (vaddr pagePhyaddr : BitVec 32) : Exec Machine := do
  let pde := pdePtr vaddr
  let pte := ptePtr vaddr
  if (← load s pde) &&& 1#32 ≠ 0#32 then
    assertThat ((← load s pte) &&& 1#32 = 0#32)
    if (← load s pte) &&& 1#32 = 0#32 then
      store s pte (pagePhyaddr ||| pgUsU ||| pgRwW ||| pgP1)
    else
      -- `PANIC` does not return.
      throw .assert
  else
    let (pdePhyaddr, kernelPool) := palloc s.kernelPool
    let s ← store { s with kernelPool := kernelPool } pde (pdePhyaddr ||| pgUsU ||| pgRwW ||| pgP1)
    let s ← memset s (pte &&& 0xfffff000#32) 0#8 pgSize
    assertThat ((← load s pte) &&& 1#32 = 0#32)
    store s pte (pagePhyaddr ||| pgUsU ||| pgRwW ||| pgP1)

/-- `addr_v2p`. -/
def addrV2p (s : Machine) (vaddr : BitVec 32) : Exec (BitVec 32) := do
  let pte ← load s (ptePtr vaddr)
  return (pte &&& 0xfffff000#32) + (vaddr &&& 0x00000fff#32)

/-! ## What is asked of them -/

/-- Entry `d` of the directory. -/
def Machine.dirEntry (s : Machine) (d : Nat) : Nat := entry s.mem s.pgdir d

/-- The last entry of the directory names the directory. -/
def SelfMapped (s : Machine) : Prop := Present (s.dirEntry 1023) ∧ frame (s.dirEntry 1023) = s.pgdir

/-- No two entries of the directory name one table. -/
def Unshared (s : Machine) : Prop :=
  ∀ d e, d < 1024 → e < 1024 → Present (s.dirEntry d) → Present (s.dirEntry e) → frame (s.dirEntry d) = frame (s.dirEntry e) → d = e

/-- Mapping the page of `v` to the frame `p` returns, `addr_v2p` gives that frame then, and every other page that is
not a page table is where it was. -/
def MapsPage (s : Machine) (v p : BitVec 32) : Prop :=
  ∃ s', pageTableAdd s v p = .ok s' ∧
    (v.toNat % 4096 = 0 → ∀ k, k < 4096 → addrV2p s' (v + BitVec.ofNat 32 k) = .ok (p + BitVec.ofNat 32 k)) ∧
    ∀ w : BitVec 32, pdeIdx w.toNat ≠ 1023 → w.toNat / 4096 ≠ v.toNat / 4096 → s'.translate w = s.translate w

/-- The first free frame of the pool, and frame 0 when the pool has none. -/
def nextTable (s : Machine) : Nat :=
  match bitmapScan s.kernelPool.poolBitmap 1 with
  | none => 0
  | some bitIdx => frame ((bitIdx * pgSize + s.kernelPool.phyAddrStart) % 2 ^ 32)

/-- The page has a table; or no entry of the directory names the frame of its new table; or that frame, a table already, has
one page, which is the one that is put there. -/
def TableFree (s : Machine) (v p : BitVec 32) : Prop :=
  Present (s.dirEntry (pdeIdx v.toNat)) ∨ (∀ d, d < 1024 → Present (s.dirEntry d) → frame (s.dirEntry d) ≠ nextTable s) ∨
    nextTable s ≠ s.pgdir ∧ (∀ j, j < 1024 → (Present (entry s.mem (nextTable s) j) ↔ j = pteIdx v.toNat)) ∧
      frame (entry s.mem (nextTable s) (pteIdx v.toNat)) = p.toNat

/-! ## Entries and pointers as numbers -/

section Numbers

variable {v p : BitVec 32}

theorem and_high (v : BitVec 32) (n : Nat) : (v &&& BitVec.allOnes 32 <<< n).toNat = v.toNat / 2 ^ n * 2 ^ n := by
  have le : v.toNat / 2 ^ n * 2 ^ n ≤ v.toNat := Nat.div_mul_le_self _ _
  rw [← BitVec.shiftLeft_ushiftRight, BitVec.toNat_shiftLeft, BitVec.toNat_ushiftRight, Nat.shiftLeft_eq, Nat.shiftRight_eq_div_pow,
    Nat.mod_eq_of_lt (by omega)]

theorem and_pdeMask (v : BitVec 32) : (v &&& 0xffc00000#32).toNat = v.toNat / 4194304 * 4194304 := and_high v 22

theorem and_frameMask (v : BitVec 32) : (v &&& 0xfffff000#32).toNat = frame v.toNat := and_high v 12

theorem and_offset (v : BitVec 32) : (v &&& 0x00000fff#32).toNat = v.toNat % 4096 := by
  rw [BitVec.toNat_and]
  exact Nat.and_two_pow_sub_one_eq_mod _ 12

theorem and_present (v : BitVec 32) : v &&& 1#32 = 0#32 ↔ ¬ Present v.toNat := by
  have low : (v &&& 1#32).toNat = v.toNat % 2 := by
    rw [BitVec.toNat_and]
    exact Nat.and_two_pow_sub_one_eq_mod _ 1
  rw [← BitVec.toNat_inj, low, Present]
  simp

theorem pdeIdx_toNat (v : BitVec 32) : (PDE_IDX v).toNat = pdeIdx v.toNat := by
  rw [PDE_IDX, BitVec.toNat_ushiftRight, and_pdeMask, Nat.shiftRight_eq_div_pow, pdeIdx]
  omega

theorem pteIdx_toNat (v : BitVec 32) : (PTE_IDX v).toNat = pteIdx v.toNat := by
  have low : PTE_IDX v = (v >>> 12) &&& 0x3ff#32 := by
    rw [PTE_IDX, BitVec.ushiftRight_and_distrib]
    rfl
  rw [low, BitVec.toNat_and, BitVec.toNat_ushiftRight, Nat.shiftRight_eq_div_pow]
  exact Nat.and_two_pow_sub_one_eq_mod _ 10

theorem pdeIdx_lt (v : BitVec 32) : pdeIdx v.toNat < 1024 := by
  have lt := v.isLt
  unfold pdeIdx
  omega

theorem pteIdx_lt (v : Nat) : pteIdx v < 1024 := Nat.mod_lt _ (by decide)

theorem pdePtr_toNat (v : BitVec 32) : (pdePtr v).toNat = 0xfffff000 + 4 * pdeIdx v.toNat := by
  have lt := pdeIdx_lt v
  rw [pdePtr, BitVec.toNat_add, BitVec.toNat_mul, pdeIdx_toNat]
  simp only [BitVec.toNat_ofNat]
  omega

theorem ptePtr_toNat (v : BitVec 32) :
    (ptePtr v).toNat = 0xffc00000 + 4096 * pdeIdx v.toNat + 4 * pteIdx v.toNat := by
  have lt := pdeIdx_lt v
  have lt' := pteIdx_lt v.toNat
  have page : ((v &&& 0xffc00000#32) >>> 10).toNat = 4096 * pdeIdx v.toNat := by
    rw [BitVec.toNat_ushiftRight, and_pdeMask, Nat.shiftRight_eq_div_pow, pdeIdx]
    omega
  rw [ptePtr, BitVec.toNat_add, BitVec.toNat_add, BitVec.toNat_mul, pteIdx_toNat, page]
  simp only [BitVec.toNat_ofNat]
  omega

/-- The value that is stored for a frame. -/
theorem entry_value (p : BitVec 32) : (p ||| pgUsU ||| pgRwW ||| pgP1).toNat = p.toNat ||| 7 := by
  rw [BitVec.or_assoc, BitVec.or_assoc, BitVec.toNat_or]
  rfl

theorem frame_value (p : Nat) : frame (p ||| 7) = frame p := by
  rw [frame, frame]
  congr 1
  have split := Nat.shiftRight_or_distrib (i := 12) (a := p) (b := 7)
  simpa [Nat.shiftRight_eq_div_pow] using split

theorem present_value (p : Nat) : Present (p ||| 7) := by
  have split := Nat.or_mod_two_pow (n := 1) (a := p) (b := 7)
  refine split.trans ?_
  rcases Nat.mod_two_eq_zero_or_one p with even | odd
  · simp [even]
  · simp [odd]

end Numbers

/-! ## The window -/

section Window

variable {s s' : Machine} {v p a : BitVec 32} {d e i j k n t : Nat}

theorem SelfMapped.aligned (self : SelfMapped s) : s.pgdir % 4096 = 0 := by
  rw [← self.2]
  exact frame_aligned _

/-- The 4MB from 0xffc00000 on are the tables that the directory names, one after another. -/
theorem walk_window (self : SelfMapped s) (lt : d < 1024) (small : k < 4096) (is : a.toNat = 0xffc00000 + 4096 * d + k) :
    pde s.mem s.pgdir a.toNat = s.dirEntry 1023 ∧ pte s.mem s.pgdir a.toNat = s.dirEntry d ∧ a.toNat % 4096 = k := by
  have first : a.toNat / 4194304 = 1023 := by omega
  have second : a.toNat / 4096 % 1024 = d := by omega
  have top : pde s.mem s.pgdir a.toNat = s.dirEntry 1023 := by rw [pde, first, Machine.dirEntry]
  refine ⟨top, ?_, by omega⟩
  rw [pte, top, self.2, second, Machine.dirEntry]

theorem translate_window (self : SelfMapped s) (lt : d < 1024) (small : k < 4096) (is : a.toNat = 0xffc00000 + 4096 * d + k)
    (present : Present (s.dirEntry d)) : s.translate a = some (frame (s.dirEntry d) + k) := by
  obtain ⟨top, table, offset⟩ := walk_window self lt small is
  rw [Machine.translate, walk_of (by rw [top]; exact self.1) (by rwa [table]), table, offset]

theorem translate_window_absent (self : SelfMapped s) (lt : d < 1024) (small : k < 4096) (is : a.toNat = 0xffc00000 + 4096 * d + k)
    (absent : ¬ Present (s.dirEntry d)) : s.translate a = none := by
  obtain ⟨-, table, -⟩ := walk_window self lt small is
  exact walk_noPage (by rwa [table])

/-- `pde_ptr` points to the entry of the directory. -/
theorem translate_pdePtr (self : SelfMapped s) (v : BitVec 32) : s.translate (pdePtr v) = some (s.pgdir + 4 * pdeIdx v.toNat) := by
  have lt := pdeIdx_lt v
  rw [translate_window (d := 1023) (k := 4 * pdeIdx v.toNat) self (by decide) (by omega) (pdePtr_toNat v) self.1, self.2]

/-- `pte_ptr` points to the entry of the table. -/
theorem translate_ptePtr (self : SelfMapped s) (present : Present (s.dirEntry (pdeIdx v.toNat))) :
    s.translate (ptePtr v) = some (frame (s.dirEntry (pdeIdx v.toNat)) + 4 * pteIdx v.toNat) := by
  have lt := pteIdx_lt v.toNat
  rw [translate_window (k := 4 * pteIdx v.toNat) self (pdeIdx_lt v) (by omega) (ptePtr_toNat v) present]

theorem toNat_entry (m : Image) (t i : Nat) : (BitVec.ofNat 32 (entry m t i)).toNat = entry m t i :=
  Nat.mod_eq_of_lt (entry_lt m t i)

theorem load_pde (self : SelfMapped s) (v : BitVec 32) : load s (pdePtr v) = .ok (BitVec.ofNat 32 (s.dirEntry (pdeIdx v.toNat))) := by
  rw [load, translate_pdePtr self]
  rfl

theorem load_pte (self : SelfMapped s) (present : Present (s.dirEntry (pdeIdx v.toNat))) :
    load s (ptePtr v) = .ok (BitVec.ofNat 32 (entry s.mem (frame (s.dirEntry (pdeIdx v.toNat))) (pteIdx v.toNat))) := by
  rw [load, translate_ptePtr self present]
  rfl

theorem store_pde (self : SelfMapped s) (v p : BitVec 32) :
    store s (pdePtr v) p = .ok { s with mem := setEntry s.mem s.pgdir (pdeIdx v.toNat) p.toNat } := by
  rw [store, translate_pdePtr self]
  rfl

theorem store_pte (self : SelfMapped s) (present : Present (s.dirEntry (pdeIdx v.toNat))) (p : BitVec 32) :
    store s (ptePtr v) p =
      .ok { s with mem := setEntry s.mem (frame (s.dirEntry (pdeIdx v.toNat))) (pteIdx v.toNat) p.toNat } := by
  rw [store, translate_ptePtr self present]
  rfl

theorem SelfMapped.congr (self : SelfMapped s) (dir : s'.pgdir = s.pgdir) (same : s'.dirEntry 1023 = s.dirEntry 1023) : SelfMapped s' := by
  unfold SelfMapped
  rw [same, dir]
  exact self

/-- Clearing bytes of another frame leaves the directory. -/
theorem dirEntry_fill (self : SelfMapped s) (aligned : t % 4096 = 0) (other : t ≠ s.pgdir) (inside : k + n ≤ 4096) (lt : e < 1024) :
    Machine.dirEntry { s with mem := fill s.mem (t + k) n 0#8 } e = s.dirEntry e := by
  have dir := self.aligned
  exact entry_fill_apart (u := s.pgdir) (by omega)

theorem fill_succ (m : Image) (a n : Nat) : fill (fill m a 1 0#8) (a + 1) n 0#8 = fill m a (n + 1) 0#8 := by
  funext x
  by_cases inside : a ≤ x ∧ x < a + (n + 1)
  · rw [fill_in (n := n + 1) inside.1 inside.2]
    by_cases first : x = a
    · rw [fill_out (by omega), fill_in (by omega) (by omega)]
    · rw [fill_in (by omega) (by omega)]
  · rw [fill_out (n := n + 1) (by omega), fill_out (by omega), fill_out (by omega)]

/-- `memset` through the window clears the table, when that is not the directory. -/
theorem memsetLoop_table (lt : d < 1024) (aligned : t % 4096 = 0) : ∀ {n k : Nat} {s : Machine} {dst : BitVec 32}, SelfMapped s →
    Present (s.dirEntry d) → frame (s.dirEntry d) = t → t ≠ s.pgdir → k + n ≤ 4096 →
    dst.toNat = (0xffc00000 + 4096 * d + k) % 2 ^ 32 →
    memsetLoop 0#8 n dst s = .ok { s with mem := fill s.mem (t + k) n 0#8 } := by
  intro n
  induction n with
  | zero =>
    intro k s dst self present isTable other inside is
    have nothing : fill s.mem (t + k) 0 0#8 = s.mem := by
      funext x
      exact fill_out (by omega)
    rw [memsetLoop, nothing]
    rfl
  | succ n ih =>
    intro k s dst self present isTable other inside is
    have reached : s.translate dst = some (t + k) := by
      rw [translate_window (d := d) (k := k) self lt (by omega) (by omega) present, isTable]
    have keeps : ∀ e, e < 1024 → Machine.dirEntry { s with mem := fill s.mem (t + k) 1 0#8 } e = s.dirEntry e := fun e small =>
      dirEntry_fill self aligned other (by omega) small
    have next : (dst + 1#32).toNat = (0xffc00000 + 4096 * d + (k + 1)) % 2 ^ 32 := by
      rw [BitVec.toNat_add, is]
      simp only [BitVec.toNat_ofNat]
      omega
    have rest := @ih (k + 1) { s with mem := fill s.mem (t + k) 1 0#8 } (dst + 1#32) (self.congr rfl (keeps 1023 (by decide)))
      (by rwa [keeps d lt]) (by rw [keeps d lt, isTable]) other (by omega) next
    rw [memsetLoop, storeByte, reached]
    refine rest.trans ?_
    rw [← Nat.add_assoc, fill_succ]

/-- It stops with a page fault when the table is the directory: it clears the entry through which it goes. -/
theorem memsetLoop_directory (lt : d < 1023) : ∀ {n k : Nat} {s : Machine} {dst : BitVec 32}, SelfMapped s →
    Present (s.dirEntry d) → frame (s.dirEntry d) = s.pgdir → k ≤ 4 * d → 4 * d + 1 < k + n →
    dst.toNat = 0xffc00000 + 4096 * d + k → memsetLoop 0#8 n dst s = .error .undefined := by
  intro n
  induction n with
  | zero =>
    intro k s dst self present isTable early long is
    omega
  | succ n ih =>
    intro k s dst self present isTable early long is
    have dir := self.aligned
    have reached : s.translate dst = some (s.pgdir + k) := by
      rw [translate_window (d := d) (k := k) self (by omega) (by omega) is present, isTable]
    have keeps : ∀ e, e < 1024 → k < 4 * e → Machine.dirEntry { s with mem := fill s.mem (s.pgdir + k) 1 0#8 } e = s.dirEntry e :=
      fun e small before => entry_fill_apart (u := s.pgdir) (by omega)
    have self' : SelfMapped { s with mem := fill s.mem (s.pgdir + k) 1 0#8 } := self.congr rfl (keeps 1023 (by decide) (by omega))
    have next : (dst + 1#32).toNat = 0xffc00000 + 4096 * d + (k + 1) := by
      rw [BitVec.toNat_add, is]
      simp only [BitVec.toNat_ofNat]
      omega
    rw [memsetLoop, storeByte, reached]
    by_cases last : k = 4 * d
    · have cleared : ¬ Present (Machine.dirEntry { s with mem := fill s.mem (s.pgdir + k) 1 0#8 } d) := by
        rw [last]
        exact not_present_clear
      obtain ⟨n, rfl⟩ : ∃ l, n = l + 1 := ⟨n - 1, by omega⟩
      have fault := translate_window_absent self' (by omega) (by omega) next cleared
      change memsetLoop 0#8 (n + 1) (dst + 1#32) { s with mem := fill s.mem (s.pgdir + k) 1 0#8 } = _
      rw [memsetLoop, storeByte, fault]
      rfl
    · have same := keeps d (by omega) (by omega)
      exact @ih (k + 1) { s with mem := fill s.mem (s.pgdir + k) 1 0#8 } (dst + 1#32) self' (by rwa [same]) (by rw [same, isTable]) (by omega)
        (by omega) next

end Window

/-! ## The two ways of `page_table_add` -/

section Adding

variable {s s' : Machine} {v w p : BitVec 32} {d e i j t u : Nat}

theorem loaded_present (m : Image) (t i : Nat) : BitVec.ofNat 32 (entry m t i) &&& 1#32 = 0#32 ↔ ¬ Present (entry m t i) := by
  rw [and_present, toNat_entry]

theorem palloc_frame (s : Machine) : frame (palloc s.kernelPool).1.toNat = nextTable s := by
  unfold palloc nextTable
  cases bitmapScan s.kernelPool.poolBitmap 1 with
  | none => simp [frame]
  | some bitIdx => simp

/-- The machine when the page is in the table that is there. -/
def Machine.withEntry (s : Machine) (v p : BitVec 32) : Machine :=
  { s with mem := setEntry s.mem (frame (s.dirEntry (pdeIdx v.toNat))) (pteIdx v.toNat) (p.toNat ||| 7) }

/-- With a table there is one store. -/
theorem pageTableAdd_present (self : SelfMapped s) (present : Present (s.dirEntry (pdeIdx v.toNat)))
    (unmapped : ¬ Present (entry s.mem (frame (s.dirEntry (pdeIdx v.toNat))) (pteIdx v.toNat))) (p : BitVec 32) :
    pageTableAdd s v p = .ok (s.withEntry v p) := by
  have table : ¬ BitVec.ofNat 32 (s.dirEntry (pdeIdx v.toNat)) &&& 1#32 = 0#32 := fun no => (loaded_present _ _ _).1 no present
  have free := (loaded_present _ _ _).2 unmapped
  rw [pageTableAdd, load_pde self, ok_bind, if_pos table, load_pte self present, ok_bind, ok_bind, assertThat_of free, ok_bind, if_pos free,
    store_pte self present, entry_value]
  rfl

/-- The machine when `page_table_add` has set the entry of the directory. -/
def Machine.withTable (s : Machine) (v : BitVec 32) : Machine :=
  { s with mem := setEntry s.mem s.pgdir (pdeIdx v.toNat) ((palloc s.kernelPool).1.toNat ||| 7), kernelPool := (palloc s.kernelPool).2 }

theorem pageTableAdd_absent (self : SelfMapped s) (absent : ¬ Present (s.dirEntry (pdeIdx v.toNat))) (p : BitVec 32) :
    pageTableAdd s v p = (do
      let s ← memset (s.withTable v) (ptePtr v &&& 0xfffff000#32) 0#8 pgSize
      assertThat ((← load s (ptePtr v)) &&& 1#32 = 0#32)
      store s (ptePtr v) (p ||| pgUsU ||| pgRwW ||| pgP1)) := by
  have missing : ¬ BitVec.ofNat 32 (s.dirEntry (pdeIdx v.toNat)) &&& 1#32 ≠ 0#32 := not_not.2 ((loaded_present _ _ _).2 absent)
  have set := store_pde (s := { s with kernelPool := (palloc s.kernelPool).2 }) self v ((palloc s.kernelPool).1 ||| pgUsU ||| pgRwW ||| pgP1)
  rw [entry_value] at set
  rw [pageTableAdd, load_pde self, ok_bind, if_neg missing]
  simp only [set, ok_bind]
  rfl

theorem value_lt (p : BitVec 32) : (p.toNat ||| 7) % 2 ^ 32 = p.toNat ||| 7 :=
  Nat.mod_eq_of_lt (Nat.or_lt_two_pow p.isLt (by decide))

theorem withTable_dirEntry (self : SelfMapped s) (lt : e < 1024) :
    (s.withTable v).dirEntry e = if e = pdeIdx v.toNat then (palloc s.kernelPool).1.toNat ||| 7 else s.dirEntry e := by
  have set := entry_setEntry (m := s.mem) (v := (palloc s.kernelPool).1.toNat ||| 7) self.aligned self.aligned (pdeIdx_lt v) lt
  simp only [true_and, value_lt] at set
  exact set

theorem withTable_entry (self : SelfMapped s) (aligned : t % 4096 = 0) (other : t ≠ s.pgdir) (lt : j < 1024) :
    entry (s.withTable v).mem t j = entry s.mem t j := by
  refine (entry_setEntry self.aligned aligned (pdeIdx_lt v) lt).trans ?_
  rw [if_neg fun same => other same.1]

/-- The entry is there now, and the directory still names itself. -/
theorem withTable_here (self : SelfMapped s) (outside : pdeIdx v.toNat ≠ 1023) : SelfMapped (s.withTable v) ∧
    Present ((s.withTable v).dirEntry (pdeIdx v.toNat)) ∧ frame ((s.withTable v).dirEntry (pdeIdx v.toNat)) = nextTable s := by
  rw [withTable_dirEntry self (pdeIdx_lt v), if_pos rfl, frame_value, palloc_frame]
  refine ⟨self.congr rfl ?_, present_value _, rfl⟩
  rw [withTable_dirEntry self (by decide), if_neg (Ne.symm outside)]

/-- The window on the new table. -/
theorem window_toNat (v : BitVec 32) : (ptePtr v &&& 0xfffff000#32).toNat = 0xffc00000 + 4096 * pdeIdx v.toNat := by
  have lt := pteIdx_lt v.toNat
  rw [and_frameMask, ptePtr_toNat, frame]
  omega

theorem memset_window (s : Machine) (v : BitVec 32) :
    memset s (ptePtr v &&& 0xfffff000#32) 0#8 pgSize = memsetLoop 0#8 4096 (ptePtr v &&& 0xfffff000#32) s := by
  have is := window_toNat v
  have nonnull : ptePtr v &&& 0xfffff000#32 ≠ 0#32 := by
    intro zero
    rw [zero, BitVec.toNat_ofNat] at is
    omega
  rw [memset, assertThat_of nonnull]
  rfl

/-- The directory as its own table is lost. -/
theorem pageTableAdd_directory (self : SelfMapped s) (outside : pdeIdx v.toNat ≠ 1023) (absent : ¬ Present (s.dirEntry (pdeIdx v.toNat)))
    (taken : nextTable s = s.pgdir) (p : BitVec 32) : pageTableAdd s v p = .error .undefined := by
  have lt := pdeIdx_lt v
  obtain ⟨self', present, isTable⟩ := withTable_here (v := v) self outside
  have fault := memsetLoop_directory (by omega) (n := 4096) (k := 0) self' present (isTable.trans taken) (Nat.zero_le _) (by omega) (window_toNat v)
  rw [pageTableAdd_absent self absent, memset_window, fault]
  rfl

theorem nextTable_aligned (s : Machine) : nextTable s % 4096 = 0 := by
  rw [← palloc_frame]
  exact frame_aligned _

/-- The machine when the new table is cleared. -/
def Machine.withCleared (s : Machine) (v : BitVec 32) : Machine :=
  { s.withTable v with mem := fill (s.withTable v).mem (nextTable s) 4096 0#8 }

/-- The machine when the page is in the new table. -/
def Machine.withPage (s : Machine) (v p : BitVec 32) : Machine :=
  { s.withCleared v with mem := setEntry (s.withCleared v).mem (nextTable s) (pteIdx v.toNat) (p.toNat ||| 7) }

theorem memset_new (self : SelfMapped s) (outside : pdeIdx v.toNat ≠ 1023) (other : nextTable s ≠ s.pgdir) :
    memset (s.withTable v) (ptePtr v &&& 0xfffff000#32) 0#8 pgSize = .ok (s.withCleared v) := by
  have lt := pdeIdx_lt v
  obtain ⟨self', present, isTable⟩ := withTable_here (v := v) self outside
  rw [memset_window]
  exact memsetLoop_table lt (nextTable_aligned s) (k := 0) self' present isTable other (by omega) ((window_toNat v).trans (by omega))

theorem withCleared_dirEntry (self : SelfMapped s) (outside : pdeIdx v.toNat ≠ 1023) (other : nextTable s ≠ s.pgdir) (lt : e < 1024) :
    (s.withCleared v).dirEntry e = (s.withTable v).dirEntry e :=
  dirEntry_fill (k := 0) (withTable_here self outside).1 (nextTable_aligned s) other (by omega) lt

theorem withCleared_entry (aligned : t % 4096 = 0) (lt : j < 1024) :
    entry (s.withCleared v).mem t j = if t = nextTable s then 0 else entry (s.withTable v).mem t j :=
  entry_clear (nextTable_aligned s) aligned lt

theorem pageTableAdd_new (self : SelfMapped s) (outside : pdeIdx v.toNat ≠ 1023) (absent : ¬ Present (s.dirEntry (pdeIdx v.toNat)))
    (other : nextTable s ≠ s.pgdir) (p : BitVec 32) : pageTableAdd s v p = .ok (s.withPage v p) := by
  have lt := pdeIdx_lt v
  obtain ⟨self', present, isTable⟩ := withTable_here (v := v) self outside
  have same : (s.withCleared v).dirEntry (pdeIdx v.toNat) = (s.withTable v).dirEntry (pdeIdx v.toNat) :=
    withCleared_dirEntry self outside other lt
  have cleared : SelfMapped (s.withCleared v) := self'.congr rfl (withCleared_dirEntry self outside other (by decide))
  have present' : Present ((s.withCleared v).dirEntry (pdeIdx v.toNat)) := by rwa [same]
  have zero : entry (s.withCleared v).mem (nextTable s) (pteIdx v.toNat) = 0 := by
    rw [withCleared_entry (nextTable_aligned s) (pteIdx_lt _), if_pos rfl]
  have read := load_pte cleared present'
  have write := store_pte cleared present' (p ||| pgUsU ||| pgRwW ||| pgP1)
  rw [same, isTable] at read write
  rw [pageTableAdd_absent self absent, memset_new self outside other, ok_bind, read, ok_bind, zero, assertThat_of (by decide), ok_bind, write,
    entry_value]
  rfl

theorem withPage_dirEntry (self : SelfMapped s) (outside : pdeIdx v.toNat ≠ 1023) (other : nextTable s ≠ s.pgdir) (lt : e < 1024) :
    (s.withPage v p).dirEntry e = if e = pdeIdx v.toNat then (palloc s.kernelPool).1.toNat ||| 7 else s.dirEntry e := by
  rw [← withTable_dirEntry self lt, ← withCleared_dirEntry self outside other lt]
  refine (entry_setEntry (nextTable_aligned s) self.aligned (pteIdx_lt _) lt).trans ?_
  rw [if_neg fun same => other same.1.symm]
  rfl

theorem withPage_entry (self : SelfMapped s) (aligned : t % 4096 = 0) (other : t ≠ s.pgdir) (lt : j < 1024) :
    entry (s.withPage v p).mem t j =
      if t = nextTable s then if j = pteIdx v.toNat then p.toNat ||| 7 else 0 else entry s.mem t j := by
  refine (entry_setEntry (nextTable_aligned s) aligned (pteIdx_lt _) lt).trans ?_
  rw [withCleared_entry aligned lt, withTable_entry self aligned other lt, value_lt]
  by_cases new : t = nextTable s
  · simp only [new, true_and, if_true]
  · simp only [new, false_and, if_false]

end Adding

/-! ## Which pages move -/

section Pages

variable {s s' : Machine} {v w p : BitVec 32} {d e i j t u : Nat}

theorem translate_eq_none : s.translate w = none ↔
    (Present (s.dirEntry (pdeIdx w.toNat)) → ¬ Present (entry s.mem (frame (s.dirEntry (pdeIdx w.toNat))) (pteIdx w.toNat))) :=
  walk_eq_none

theorem translate_of (table : Present (s.dirEntry (pdeIdx w.toNat)))
    (page : Present (entry s.mem (frame (s.dirEntry (pdeIdx w.toNat))) (pteIdx w.toNat))) :
    s.translate w = some (frame (entry s.mem (frame (s.dirEntry (pdeIdx w.toNat))) (pteIdx w.toNat)) + w.toNat % 4096) :=
  walk_of table page

theorem translate_congr (dir : s'.pgdir = s.pgdir) (table : s'.dirEntry (pdeIdx w.toNat) = s.dirEntry (pdeIdx w.toNat))
    (page : Present (s.dirEntry (pdeIdx w.toNat)) → entry s'.mem (frame (s.dirEntry (pdeIdx w.toNat))) (pteIdx w.toNat) =
      entry s.mem (frame (s.dirEntry (pdeIdx w.toNat))) (pteIdx w.toNat)) : s'.translate w = s.translate w := by
  unfold Machine.translate
  rw [dir]
  have same : pde s'.mem s.pgdir w.toNat = pde s.mem s.pgdir w.toNat := by
    rw [← dir]
    exact table.trans (by rw [Machine.dirEntry, dir]; rfl)
  refine walk_congr same fun isTable => ?_
  rw [pte, pte, same]
  exact page isTable

/-- `addr_v2p` reads the entry that was stored. -/
theorem addrV2p_of (self : SelfMapped s) (present : Present (s.dirEntry (pdeIdx v.toNat)))
    (page : entry s.mem (frame (s.dirEntry (pdeIdx v.toNat))) (pteIdx v.toNat) = p.toNat ||| 7) (aligned : p.toNat % 4096 = 0)
    (start : v.toNat % 4096 = 0) {k : Nat} (lt : k < 4096) : addrV2p s (v + BitVec.ofNat 32 k) = .ok (p + BitVec.ofNat 32 k) := by
  have small := v.isLt
  have is : (v + BitVec.ofNat 32 k).toNat = v.toNat + k := by
    rw [BitVec.toNat_add, BitVec.toNat_ofNat]
    omega
  have sameDir : pdeIdx (v + BitVec.ofNat 32 k).toNat = pdeIdx v.toNat := by
    rw [is]
    unfold pdeIdx
    omega
  have samePage : pteIdx (v + BitVec.ofNat 32 k).toNat = pteIdx v.toNat := by
    rw [is]
    unfold pteIdx pgSize
    omega
  have read := load_pte (v := v + BitVec.ofNat 32 k) self (by rwa [sameDir])
  rw [sameDir, samePage] at read
  have base : BitVec.ofNat 32 (entry s.mem (frame (s.dirEntry (pdeIdx v.toNat))) (pteIdx v.toNat)) &&& 0xfffff000#32 = p := by
    refine BitVec.eq_of_toNat_eq ?_
    rw [and_frameMask, toNat_entry, page, frame_value, frame]
    omega
  have offset : (v + BitVec.ofNat 32 k) &&& 0x00000fff#32 = BitVec.ofNat 32 k := by
    refine BitVec.eq_of_toNat_eq ?_
    rw [and_offset, is, BitVec.toNat_ofNat]
    omega
  rw [addrV2p, read, ok_bind, base, offset]
  rfl

/-- A table is not the directory, except for the last entry. -/
theorem table_ne_directory (self : SelfMapped s) (unshared : Unshared s) (lt : e < 1024) (last : e ≠ 1023) (present : Present (s.dirEntry e)) :
    frame (s.dirEntry e) ≠ s.pgdir := fun same =>
  last (unshared e 1023 lt (by decide) present self.1 (same.trans self.2.symm))

/-- Two addresses with both indices are in one page. -/
theorem page_eq (dir : pdeIdx w.toNat = pdeIdx v.toNat) (page : pteIdx w.toNat = pteIdx v.toNat) : w.toNat / 4096 = v.toNat / 4096 := by
  unfold pdeIdx at dir
  unfold pteIdx pgSize at page
  omega

/-- Under an entry of the directory, an address of each of its pages. -/
theorem exists_page (lt : e < 1024) (lt' : j < 1024) : ∃ w : BitVec 32, pdeIdx w.toNat = e ∧ pteIdx w.toNat = j ∧ w.toNat % 4096 = 0 := by
  refine ⟨BitVec.ofNat 32 (e * 4194304 + j * 4096), ?_⟩
  rw [BitVec.toNat_ofNat, Nat.mod_eq_of_lt (by omega)]
  unfold pdeIdx pteIdx pgSize
  omega

theorem withEntry_entry (aligned : t % 4096 = 0) (lt : j < 1024) :
    entry (s.withEntry v p).mem t j =
      if t = frame (s.dirEntry (pdeIdx v.toNat)) ∧ j = pteIdx v.toNat then p.toNat ||| 7 else entry s.mem t j := by
  refine (entry_setEntry (frame_aligned _) aligned (pteIdx_lt _) lt).trans ?_
  rw [value_lt]

theorem withEntry_dirEntry (self : SelfMapped s) (other : frame (s.dirEntry (pdeIdx v.toNat)) ≠ s.pgdir) (lt : e < 1024) :
    (s.withEntry v p).dirEntry e = s.dirEntry e := by
  refine (withEntry_entry self.aligned lt).trans ?_
  rw [if_neg fun same => other same.1.symm]
  rfl

/-- With a table, the one store changes the one page. -/
theorem mapsPage_present (self : SelfMapped s) (unshared : Unshared s) (outside : pdeIdx v.toNat ≠ 1023)
    (unmapped : s.translate v = none) (aligned : p.toNat % 4096 = 0) (present : Present (s.dirEntry (pdeIdx v.toNat))) : MapsPage s v p := by
  have lt := pdeIdx_lt v
  have dir := fun {e} => @withEntry_dirEntry s v p e self (table_ne_directory self unshared lt outside present)
  have self' : SelfMapped (s.withEntry v p) := self.congr rfl (dir (by decide))
  refine ⟨_, pageTableAdd_present self present (translate_eq_none.1 unmapped present) p, fun start k small => ?_, fun w inside apart => ?_⟩
  · refine addrV2p_of self' ?_ ?_ aligned start small
    · rwa [dir lt]
    · rw [dir lt, withEntry_entry (frame_aligned _) (pteIdx_lt _), if_pos ⟨rfl, rfl⟩]
  · refine translate_congr rfl (dir (pdeIdx_lt w)) fun isTable => ?_
    rw [withEntry_entry (frame_aligned _) (pteIdx_lt _), if_neg]
    rintro ⟨same, index⟩
    exact apart (page_eq (unshared _ _ (pdeIdx_lt w) lt isTable present same) index)

/-- A page under another entry of the directory goes through the new frame, or stays where it is. -/
theorem withPage_translate (self : SelfMapped s) (unshared : Unshared s) (outside : pdeIdx v.toNat ≠ 1023)
    (absent : ¬ Present (s.dirEntry (pdeIdx v.toNat))) (other : nextTable s ≠ s.pgdir) (inside : pdeIdx w.toNat ≠ 1023)
    (apart : w.toNat / 4096 ≠ v.toNat / 4096)
    (stays : Present (s.dirEntry (pdeIdx w.toNat)) → frame (s.dirEntry (pdeIdx w.toNat)) ≠ nextTable s) :
    (s.withPage v p).translate w = s.translate w := by
  have lt := pdeIdx_lt w
  have dir := withPage_dirEntry (v := v) (p := p) self outside other lt
  by_cases here : pdeIdx w.toNat = pdeIdx v.toNat
  · have before : s.translate w = none := translate_eq_none.2 fun present => absurd present (by rwa [here])
    rw [if_pos here] at dir
    refine (translate_eq_none.2 fun _ => ?_).trans before.symm
    rw [dir, frame_value, palloc_frame, withPage_entry self (nextTable_aligned s) other (pteIdx_lt _), if_pos rfl,
      if_neg fun same => apart (page_eq here same)]
    decide
  · rw [if_neg here] at dir
    refine translate_congr rfl dir fun isTable => ?_
    rw [withPage_entry self (frame_aligned _) (table_ne_directory self unshared lt inside isTable) (pteIdx_lt _), if_neg (stays isTable)]

/-- A page under an entry that names the new frame already is there when it is the page that was put into it. -/
theorem withPage_taken (self : SelfMapped s) (outside : pdeIdx v.toNat ≠ 1023) (absent : ¬ Present (s.dirEntry (pdeIdx v.toNat)))
    (other : nextTable s ≠ s.pgdir) (isTable : Present (s.dirEntry (pdeIdx w.toNat))) (taken : frame (s.dirEntry (pdeIdx w.toNat)) = nextTable s) :
    (s.withPage v p).translate w = if pteIdx w.toNat = pteIdx v.toNat then some (frame p.toNat + w.toNat % 4096) else none := by
  have lt := pdeIdx_lt w
  have dir := withPage_dirEntry (v := v) (p := p) self outside other lt
  rw [if_neg fun here => absent (by rwa [← here])] at dir
  have page := withPage_entry (v := v) (p := p) self (nextTable_aligned s) other (pteIdx_lt w.toNat)
  rw [if_pos rfl, ← taken, ← dir] at page
  split
  · rename_i same
    rw [if_pos same] at page
    rw [translate_of (by rwa [dir]) (by rw [page]; exact present_value _), page, frame_value]
  · rename_i another
    rw [if_neg another] at page
    refine translate_eq_none.2 fun _ => ?_
    rw [page]
    decide

/-- The new table has the page. -/
theorem withPage_addrV2p (self : SelfMapped s) (outside : pdeIdx v.toNat ≠ 1023) (other : nextTable s ≠ s.pgdir) (aligned : p.toNat % 4096 = 0)
    (start : v.toNat % 4096 = 0) {k : Nat} (small : k < 4096) :
    addrV2p (s.withPage v p) (v + BitVec.ofNat 32 k) = .ok (p + BitVec.ofNat 32 k) := by
  have dir := fun {e} => @withPage_dirEntry s v p e self outside other
  have self' : SelfMapped (s.withPage v p) := self.congr rfl (by rw [dir (by decide), if_neg (Ne.symm outside)])
  have here := dir (pdeIdx_lt v)
  rw [if_pos rfl] at here
  refine addrV2p_of self' ?_ ?_ aligned start small
  · rw [here]
    exact present_value _
  · rw [here, frame_value, palloc_frame, withPage_entry self (nextTable_aligned s) other (pteIdx_lt _), if_pos rfl, if_pos rfl]

/-- What the new table was before decides whether a page moves. -/
theorem mapsPage_new (self : SelfMapped s) (unshared : Unshared s) (outside : pdeIdx v.toNat ≠ 1023)
    (absent : ¬ Present (s.dirEntry (pdeIdx v.toNat))) (other : nextTable s ≠ s.pgdir) (aligned : p.toNat % 4096 = 0) :
    MapsPage s v p ↔ ∀ w : BitVec 32, pdeIdx w.toNat ≠ 1023 → Present (s.dirEntry (pdeIdx w.toNat)) →
      frame (s.dirEntry (pdeIdx w.toNat)) = nextTable s →
      (if pteIdx w.toNat = pteIdx v.toNat then some (frame p.toNat + w.toNat % 4096) else none) = s.translate w := by
  have added := pageTableAdd_new self outside absent other p
  constructor
  · rintro ⟨s', call, -, rest⟩ w inside isTable taken
    rw [added] at call
    cases call
    refine (withPage_taken self outside absent other isTable taken).symm.trans (rest w inside fun same => absent ?_)
    have here : pdeIdx w.toNat = pdeIdx v.toNat := by
      unfold pdeIdx
      omega
    rwa [← here]
  · intro fits
    refine ⟨_, added, fun start k small => withPage_addrV2p self outside other aligned start small, fun w inside apart => ?_⟩
    by_cases taken : Present (s.dirEntry (pdeIdx w.toNat)) ∧ frame (s.dirEntry (pdeIdx w.toNat)) = nextTable s
    · rw [withPage_taken self outside absent other taken.1 taken.2]
      exact fits w inside taken.1 taken.2
    · exact withPage_translate self unshared outside absent other inside apart fun isTable same => taken ⟨isTable, same⟩

theorem frame_eq (aligned : p.toNat % 4096 = 0) : frame p.toNat = p.toNat := by
  unfold frame
  omega

/-- The pages of a table that is taken again are where they were when the table had just the page that it gets. -/
theorem taken_iff (lt : d < 1024) (isTable : Present (s.dirEntry d)) (taken : frame (s.dirEntry d) = t) (aligned : p.toNat % 4096 = 0) :
    (∀ w : BitVec 32, pdeIdx w.toNat = d →
      (if pteIdx w.toNat = pteIdx v.toNat then some (frame p.toNat + w.toNat % 4096) else none) = s.translate w) ↔
      (∀ j, j < 1024 → (Present (entry s.mem t j) ↔ j = pteIdx v.toNat)) ∧ frame (entry s.mem t (pteIdx v.toNat)) = p.toNat := by
  have page : ∀ w : BitVec 32, pdeIdx w.toNat = d → (s.translate w = none ↔ ¬ Present (entry s.mem t (pteIdx w.toNat))) ∧
      (Present (entry s.mem t (pteIdx w.toNat)) → s.translate w = some (frame (entry s.mem t (pteIdx w.toNat)) + w.toNat % 4096)) := by
    intro w dir
    subst dir taken
    exact ⟨translate_eq_none.trans ⟨fun no => no isTable, fun no _ => no⟩, fun isPage => translate_of isTable isPage⟩
  constructor
  · intro fits
    have alone : ∀ j, j < 1024 → (Present (entry s.mem t j) ↔ j = pteIdx v.toNat) := by
      intro j small
      obtain ⟨w, dir, index, -⟩ := exists_page lt small
      have same := fits w dir
      have free := (page w dir).1
      rw [index] at same free
      rw [← not_iff_not, ← free, ← same]
      simp only [ite_eq_right_iff, reduceCtorEq, imp_false]
    refine ⟨alone, ?_⟩
    obtain ⟨w, dir, index, offset⟩ := exists_page lt (pteIdx_lt v.toNat)
    have same := fits w dir
    rw [(page w dir).2 (by rw [index]; exact (alone _ (pteIdx_lt _)).2 rfl), if_pos index, index, offset, Option.some.injEq] at same
    rw [← frame_eq aligned]
    exact Nat.add_right_cancel same.symm
  · rintro ⟨alone, isPage⟩ w dir
    split
    · rename_i index
      rw [(page w dir).2 ((alone _ (pteIdx_lt _)).2 index), index, isPage, frame_eq aligned]
    · rename_i another
      exact ((page w dir).1.2 fun present => another ((alone _ (pteIdx_lt _)).1 present)).symm

/-- The pointers into the tables are right; and `page_table_add` maps its page and leaves every other one where it is unless
its new table is a frame that is a table already, as with null for the frame. -/
theorem mapsPage_iff (s : Machine) (self : SelfMapped s) :
    (∀ v : BitVec 32, s.translate (pdePtr v) = some (s.pgdir + 4 * pdeIdx v.toNat) ∧
      (Present (s.dirEntry (pdeIdx v.toNat)) →
        s.translate (ptePtr v) = some (frame (s.dirEntry (pdeIdx v.toNat)) + 4 * pteIdx v.toNat))) ∧
      ∀ v p : BitVec 32, Unshared s → p.toNat % 4096 = 0 → s.translate v = none → pdeIdx v.toNat ≠ 1023 →
        (MapsPage s v p ↔ TableFree s v p) := by
  refine ⟨fun v => ⟨translate_pdePtr self v, translate_ptePtr self⟩, fun v p unshared aligned unmapped outside => ?_⟩
  by_cases present : Present (s.dirEntry (pdeIdx v.toNat))
  · exact ⟨fun _ => .inl present, fun _ => mapsPage_present self unshared outside unmapped aligned present⟩
  by_cases directory : nextTable s = s.pgdir
  · -- The last entry of the directory names the frame.
    constructor
    · rintro ⟨s', call, -⟩
      rw [pageTableAdd_directory self outside present directory] at call
      cases call
    · rintro (isTable | unused | ⟨other, -⟩)
      · exact absurd isTable present
      · exact absurd (self.2.trans directory.symm) (unused 1023 (by decide) self.1)
      · exact absurd directory other
  rw [mapsPage_new self unshared outside present directory aligned, TableFree]
  by_cases taken : ∃ d, d < 1024 ∧ Present (s.dirEntry d) ∧ frame (s.dirEntry d) = nextTable s
  · obtain ⟨d, lt, isTable, same⟩ := taken
    have inside : d ≠ 1023 := by
      rintro rfl
      exact directory (same.symm.trans self.2)
    have only : ∀ w : BitVec 32, Present (s.dirEntry (pdeIdx w.toNat)) → frame (s.dirEntry (pdeIdx w.toNat)) = nextTable s → pdeIdx w.toNat = d :=
      fun w isTable' same' => unshared _ _ (pdeIdx_lt w) lt isTable' isTable (same'.trans same.symm)
    have pages := taken_iff (v := v) lt isTable same aligned
    constructor
    · intro fits
      refine .inr (.inr ⟨directory, pages.1 fun w dir => fits w ?_ ?_ ?_⟩)
      · rwa [dir]
      · rwa [dir]
      · rwa [dir]
    · rintro (isTable' | unused | ⟨-, fits⟩)
      · exact absurd isTable' present
      · exact absurd same (unused d lt isTable)
      · exact fun w _ isTable' same' => pages.2 fits w (only w isTable' same')
  · have unused : ∀ d, d < 1024 → Present (s.dirEntry d) → frame (s.dirEntry d) ≠ nextTable s := fun d lt isTable same => taken ⟨d, lt, isTable, same⟩
    exact ⟨fun _ => .inr (.inl unused), fun _ w _ isTable same => absurd same (unused _ (pdeIdx_lt w) isTable)⟩

end Pages

/-- A directory at 0x100000 with one table besides itself, which is frame 0 and maps page 0 to 0x5000. -/
def frameZeroImage : Image := fun x =>
  if x = 0x100000 ∨ x = 0x100ffc ∨ x = 0 then 7#8 else if x = 0x100ffe then 0x10#8 else if x = 1 then 0x50#8 else 0#8

/-- The machine with these tables and so many bytes of free frames. -/
def frameZeroTable (bytes : Nat) : Machine where
  mem := frameZeroImage
  pgdir := 0x100000
  kernelPool := ⟨⟨bytes, fun _ => 0#8⟩, 0x200000⟩

theorem frameZeroTable_absent (bytes : Nat) {d : Nat} (low : 0 < d) (high : d < 1023) : (frameZeroTable bytes).dirEntry d = 0 := by
  have zeros : ∀ k, k < 4 → frameZeroImage (0x100000 + 4 * d + k) = wordsImage (fun _ => 0) (4 * 0 + k) := by
    intro k small
    rw [frameZeroImage, if_neg (by omega), if_neg (by omega), if_neg (by omega), wordsImage, leByte, Nat.zero_div]
  exact (word32_congr zeros).trans (word32_wordsImage _ _)

theorem frameZeroTable_entries (bytes : Nat) : (frameZeroTable bytes).dirEntry 0 = 7 ∧ (frameZeroTable bytes).dirEntry 1023 = 0x100007 := by
  have entries : entry frameZeroImage 0x100000 0 = 7 ∧ entry frameZeroImage 0x100000 1023 = 0x100007 := by decide
  exact entries

theorem frameZeroTable_selfMapped (bytes : Nat) : SelfMapped (frameZeroTable bytes) := by
  rw [SelfMapped, (frameZeroTable_entries bytes).2]
  exact ⟨rfl, rfl⟩

theorem frameZeroTable_present {bytes d : Nat} (lt : d < 1024) (present : Present ((frameZeroTable bytes).dirEntry d)) : d = 0 ∨ d = 1023 := by
  by_contra other
  rw [frameZeroTable_absent bytes (by omega) (by omega)] at present
  exact absurd present (by decide)

theorem frameZeroTable_unshared (bytes : Nat) : Unshared (frameZeroTable bytes) := by
  have apart : frame ((frameZeroTable bytes).dirEntry 0) ≠ frame ((frameZeroTable bytes).dirEntry 1023) := by
    rw [(frameZeroTable_entries bytes).1, (frameZeroTable_entries bytes).2]
    decide
  intro d e lt lt' present present' same
  rcases frameZeroTable_present lt present with rfl | rfl
  · rcases frameZeroTable_present lt' present' with rfl | rfl
    · rfl
    · exact absurd same apart
  · rcases frameZeroTable_present lt' present' with rfl | rfl
    · exact absurd same.symm apart
    · rfl

/-- No page of the second entry is mapped. -/
theorem frameZeroTable_unmapped (bytes : Nat) : (frameZeroTable bytes).translate 0x400000#32 = none :=
  translate_eq_none.2 fun present => absurd (frameZeroTable_present (d := 1) (by decide) present) (by decide)

/-- With a free frame for the table. -/
theorem mapsPage_free : MapsPage (frameZeroTable 1) 0x400000#32 0x6000#32 := by
  have next : nextTable (frameZeroTable 1) = 0x200000 := by decide
  refine ((mapsPage_iff _ (frameZeroTable_selfMapped 1)).2 _ _ (frameZeroTable_unshared 1) rfl (frameZeroTable_unmapped 1) (by decide)).2
    (.inr (.inl fun d lt present => ?_))
  rw [next]
  rcases frameZeroTable_present lt present with rfl | rfl
  · rw [(frameZeroTable_entries 1).1]
    decide
  · rw [(frameZeroTable_entries 1).2]
    decide

/-- With none, frame 0 is cleared and gets the page: page 0 is at 0x6000 then. -/
theorem mapsPage_null : SelfMapped (frameZeroTable 0) ∧ Unshared (frameZeroTable 0) ∧
    (∀ d, d < 1024 → Present ((frameZeroTable 0).dirEntry d) → frame ((frameZeroTable 0).dirEntry d) ≠ 0x6000) ∧
    (frameZeroTable 0).translate 0x400000#32 = none ∧ pdeIdx (0x400000#32).toNat ≠ 1023 ∧
    ¬ MapsPage (frameZeroTable 0) 0x400000#32 0x6000#32 := by
  have next : nextTable (frameZeroTable 0) = 0 := by decide
  refine ⟨frameZeroTable_selfMapped 0, frameZeroTable_unshared 0, fun d lt present => ?_, frameZeroTable_unmapped 0, by decide, fun maps => ?_⟩
  · rcases frameZeroTable_present lt present with rfl | rfl
    · rw [(frameZeroTable_entries 0).1]
      decide
    · rw [(frameZeroTable_entries 0).2]
      decide
  · rcases ((mapsPage_iff _ (frameZeroTable_selfMapped 0)).2 _ _ (frameZeroTable_unshared 0) rfl (frameZeroTable_unmapped 0) (by decide)).1 maps with
      present | unused | ⟨-, -, isPage⟩
    · exact absurd (frameZeroTable_present (d := 1) (by decide) present) (by decide)
    · exact unused 0 (by decide) rfl (by rw [next]; rfl)
    · rw [next] at isPage
      exact absurd isPage (by decide)

end Sparrow.SelfMap
