import Mathlib.Data.List.Dedup
import Sparrow.Kernel.PagingRun

/-!
# The page allocator without enough frames

`malloc_page` marks its virtual pages before it has a frame for any of them, and nothing is
given back when the frames run out. `mapPages_returns` follows its loop with any number of
frames left: from page tables in order no assertion fails, and the loop gets to its end
exactly if the pool has a frame for each page. What the calls leave behind when something is
missing is compared with the state before in `exhaustion_atomic_iff`.
-/

namespace Sparrow.Paging
set_option autoImplicit false

/-- The number of frames left in a pool. -/
def Memory.freeFrames (s : Memory) (pf : PoolFlags) : Nat := (s.pool pf).poolBitmap.clear (s.poolBits pf)

section Counting

variable {s s' : Memory} {pf pf' : PoolFlags} {f : Nat} {got : Option Nat}

theorem freeFrames_pos : 0 < s.freeFrames pf ↔ ∃ k, k < s.poolBits pf ∧ ¬ s.Marked pf k := Bitmap.clear_pos

/-- `palloc` takes one frame of its pool, or there is none. -/
theorem palloc_cases (take : palloc s pf = (got, s')) :
    (got = none ∧ s.freeFrames pf = 0 ∧ s' = { s with starved := true }) ∨
      ∃ f, got = some f ∧ s'.freeFrames pf + 1 = s.freeFrames pf ∧ ∀ pf', pf' ≠ pf → s'.freeFrames pf' = s.freeFrames pf' := by
  cases got with
  | none =>
    simp only [palloc] at take
    split at take
    · rename_i scanned
      cases take
      refine .inl ⟨rfl, ?_, rfl⟩
      by_contra some
      obtain ⟨k, lt, clear⟩ := freeFrames_pos.1 (Nat.pos_of_ne_zero some)
      exact clear (bitmapScan_one_none scanned k lt)
    · cases take
  | some f =>
    obtain ⟨k, lt, clear, -, rfl⟩ := palloc_some take
    refine .inr ⟨f, rfl, ?_, fun pf' other => ?_⟩
    · have count := Bitmap.clear_set (n := s.poolBits pf) clear
      rw [if_pos lt] at count
      simpa [Memory.freeFrames, Memory.poolBits, setPool_pool] using count
    · simp [Memory.freeFrames, Memory.poolBits, setPool_pool, other]

theorem palloc_vaddr (sp : Option Nat) (take : palloc s pf = (got, s')) : s'.vaddr sp = s.vaddr sp := by
  cases got with
  | none =>
    obtain ⟨-, -, rfl⟩ | ⟨f, is, -⟩ := palloc_cases take
    · cases sp <;> rfl
    · cases is
  | some f =>
    obtain ⟨k, -, -, -, rfl⟩ := palloc_some take
    simp

theorem palloc_marked {k : Nat} (take : palloc s pf = (some f, s')) (marked : s.Marked pf' k) : s'.Marked pf' k := by
  obtain ⟨k', -, -, -, rfl⟩ := palloc_some take
  rw [marked_setPool]
  split
  · rfl
  · exact marked

end Counting

/-- The page tables are in order: what is mapped is marked, in the bitmap of its space as in
its pool. Pages marked and never mapped are what a failed call leaves. -/
structure InOrder (s : Memory) : Prop where
  frames : Frames s
  bits : ∀ sp i f, s.Holds (.page sp i) f → (s.vaddr sp).Set i

/-- Pages `i` to `i + n` wait to be mapped: they have no entry yet, directory entries have
page tables of their own, and those after the one in use are frames of the pool. -/
structure Ready (s : Memory) (cur sp : Option Nat) (i n : Nat) : Prop where
  layout : Layout s
  inside : i + n ≤ 8 * (s.vaddr sp).btmpBytesLen
  absent : ∀ j t, i ≤ j → j < i + n → s.table cur (pdeIdx (pageAddr sp j)) = some t →
    (s.pte t (pteIdx (pageAddr sp j))).present = false
  apart : ∀ j j' t, i ≤ j → j < i + n → i ≤ j' → j' < i + n → s.table cur (pdeIdx (pageAddr sp j)) = some t →
    s.table cur (pdeIdx (pageAddr sp j')) = some t → pdeIdx (pageAddr sp j) = pdeIdx (pageAddr sp j')
  marked : ∀ j t, i ≤ j → j < i + n → pdeIdx (pageAddr sp j) ≠ pdeIdx (pageAddr sp i) → sp ≠ none →
    s.table cur (pdeIdx (pageAddr sp j)) = some t → ∃ k, k < s.poolBits .kernel ∧ t = s.frameAt .kernel k ∧ s.Marked .kernel k

section Mapping

variable {s s' : Memory} {cur sp : Option Nat} {i n f : Nat} {pf : PoolFlags}

theorem pdeIdx_mono (sp : Option Nat) {j j' : Nat} (le : j ≤ j') : pdeIdx (pageAddr sp j) ≤ pdeIdx (pageAddr sp j') := by
  simp only [pdeIdx, pageAddr, pgSize]
  omega

/-- Taking a frame of either pool changes no table. -/
theorem Ready.palloc (ready : Ready s cur sp i n) (take : palloc s pf = (some f, s')) : Ready s' cur sp i n := by
  have same := same_palloc take
  have kept := fun k (marked : s.Marked .kernel k) => palloc_marked take marked
  obtain ⟨k, -, -, -, rfl⟩ := palloc_some take
  refine ⟨same.layout ready.layout, by rw [same.spaces]; exact ready.inside, ?_, ?_, ?_⟩
  · simpa using ready.absent
  · simpa using ready.apart
  · intro j t lo hi ne notKernel isTable
    obtain ⟨k', lt, isFrame, marked⟩ := ready.marked j t lo hi ne notKernel (by simpa using isTable)
    exact ⟨k', by rw [same.lens]; exact lt, by rw [same.frameAt]; exact isFrame, kept k' marked⟩

/-- The entry of the first page is written; the others still wait. -/
theorem Ready.setPte {t : Nat} (ready : Ready s cur sp i (n + 1)) (isTable : s.table cur (pdeIdx (pageAddr sp i)) = some t)
    (e : Pte) : Ready (s.setPte t (pteIdx (pageAddr sp i)) e) cur sp (i + 1) n := by
  have inside := ready.inside
  refine ⟨?_, ?_, fun j u lo hi isTable' => ?_, fun j j' u lo hi lo' hi' h h' => ?_, fun j u lo hi ne notKernel h => ?_⟩
  · exact (same_setPte t _ e).layout ready.layout
  · show i + 1 + n ≤ 8 * (s.vaddr sp).btmpBytesLen
    omega
  · have old := ready.absent j u (by omega) (by omega) isTable'
    simp only [Memory.setPte]
    split
    · rename_i word
      obtain ⟨rfl, entry⟩ := word
      have dirs := ready.apart j i u (by omega) (by omega) (by omega) (by omega) isTable' isTable
      have := pageAddr_inj dirs entry
      omega
    · exact old
  · exact ready.apart j j' u (by omega) (by omega) (by omega) (by omega) h h'
  · refine ready.marked j u (by omega) (by omega) (fun same => ne ?_) notKernel h
    have low := pdeIdx_mono sp (show i ≤ i + 1 by omega)
    have high := pdeIdx_mono sp lo
    omega

/-- A page table for the first page, cleared, that is no table of a page behind. -/
theorem Ready.addTable {p t : Nat} (ready : Ready s (some p) (some p) i n)
    (fresh : ∀ j, i ≤ j → j < i + n → pdeIdx (pageAddr (some p) j) ≠ pdeIdx (pageAddr (some p) i) →
      s.table (some p) (pdeIdx (pageAddr (some p) j)) ≠ some t) :
    Ready (s.addTable (some p) (pdeIdx (pageAddr (some p) i)) t) (some p) (some p) i n := by
  have user : ∀ j, j < i + n → pdeIdx (pageAddr (some p) j) < 768 := fun j lt =>
    (ready.layout.pdeIdx_page (show j < 8 * (s.vaddr (some p)).btmpBytesLen by have := ready.inside; omega)).2 (by simp)
  have tables : ∀ j u, j < i + n →
      (s.addTable (some p) (pdeIdx (pageAddr (some p) i)) t).table (some p) (pdeIdx (pageAddr (some p) j)) = some u →
      (pdeIdx (pageAddr (some p) j) = pdeIdx (pageAddr (some p) i) ∧ u = t) ∨
        (pdeIdx (pageAddr (some p) j) ≠ pdeIdx (pageAddr (some p) i) ∧ s.table (some p) (pdeIdx (pageAddr (some p) j)) = some u) := by
    intro j u lt h
    have low := user j lt
    simp only [Memory.table, Memory.addTable, if_neg (show ¬ 768 ≤ pdeIdx (pageAddr (some p) j) by omega), true_and] at h ⊢
    split at h
    · rename_i same
      cases h
      exact .inl ⟨same, rfl⟩
    · rename_i other
      exact .inr ⟨other, h⟩
  refine ⟨?_, ready.inside, fun j u lo hi h => ?_, fun j j' u lo hi lo' hi' h h' => ?_, fun j u lo hi ne notKernel h => ?_⟩
  · exact (show Same s (s.addTable (some p) (pdeIdx (pageAddr (some p) i)) t) from ⟨fun sp => by cases sp <;> rfl,
      fun pf => by cases pf <;> rfl, fun pf => by cases pf <;> rfl⟩).layout ready.layout
  · rcases tables j u hi h with ⟨-, rfl⟩ | ⟨-, old⟩
    · simp [Memory.addTable]
    · simp only [Memory.addTable]
      split
      · rfl
      · exact ready.absent j u lo hi old
  · rcases tables j u hi h with ⟨same, rfl⟩ | ⟨other, old⟩ <;> rcases tables j' u hi' h' with ⟨same', is⟩ | ⟨other', old'⟩
    · rw [same, same']
    · exact absurd old' (fresh j' lo' hi' other')
    · exact absurd (is ▸ old) (fresh j lo hi other)
    · exact ready.apart j j' u lo hi lo' hi' old old'
  · rcases tables j u hi h with ⟨same, -⟩ | ⟨-, old⟩
    · exact absurd same ne
    · exact ready.marked j u lo hi ne notKernel old

/-- **`page_table_add`** of the first page fails no assertion. Page tables come from the
kernel pool, so the pool of a user page keeps its frames. -/
theorem Ready.add (ready : Ready s cur sp i (n + 1)) (who : sp = none ∨ cur = sp) :
    ∃ s', pageTableAdd s cur (pageAddr sp i) f = .ok s' ∧ Ready s' cur sp (i + 1) n ∧
      s'.freeFrames (poolOf sp) = s.freeFrames (poolOf sp) ∧ ∀ sp', s'.vaddr sp' = s.vaddr sp' := by
  have lt : i < 8 * (s.vaddr sp).btmpBytesLen := by
    have := ready.inside
    omega
  simp only [pageTableAdd]
  split
  · rename_i t isTable
    rw [assertThat_of (ready.absent i t (by omega) (by omega) isTable)]
    refine ⟨_, rfl, ready.setPte isTable _, rfl, fun sp' => ?_⟩
    cases sp' <;> rfl
  · rename_i noTable
    -- kernel pages always have a table
    obtain ⟨p, rfl⟩ : ∃ p, sp = some p := by
      cases sp with
      | some p => exact ⟨p, rfl⟩
      | none =>
        rw [table_kernel ((ready.layout.pdeIdx_page lt).1 rfl).1] at noTable
        cases noTable
    obtain rfl : cur = some p := who.resolve_left (by simp)
    have user := (ready.layout.pdeIdx_page lt).2 (by simp)
    have table : ∀ (u : Memory) (t : Nat), (u.addTable (some p) (pdeIdx (pageAddr (some p) i)) t).table (some p)
        (pdeIdx (pageAddr (some p) i)) = some t := by
      intro u t
      simp [Memory.table, Memory.addTable, Nat.not_le.2 user]
    have cleared : ∀ (u : Memory) (t : Nat), ((u.addTable (some p) (pdeIdx (pageAddr (some p) i)) t).pte t
        (pteIdx (pageAddr (some p) i))).present = false := by
      intro u t
      simp [Memory.addTable]
    generalize taken : Paging.palloc s .kernel = result
    obtain ⟨got, s1⟩ := result
    simp only
    rw [assertThat_of (cleared s1 (got.getD 0))]
    refine ⟨_, rfl, Ready.setPte ?_ (table _ _) _, ?_, fun sp' => ?_⟩
    · cases got with
      | none =>
        obtain ⟨-, -, rfl⟩ | ⟨f, is, -⟩ := palloc_cases taken
        · have here : Ready { s with starved := true } (some p) (some p) i (n + 1) :=
            ⟨⟨ready.layout.kernelStart, ready.layout.pools, ready.layout.aligned, ready.layout.heap, ready.layout.user⟩,
              ready.inside, ready.absent, ready.apart, ready.marked⟩
          refine here.addTable fun j lo hi other isTable => ?_
          -- frame 0 belongs to no pool
          obtain ⟨k, ltk, isFrame, -⟩ := here.marked j 0 lo hi other (by simp) isTable
          have low := (here.layout.kernel_frame ltk).1
          have pos : 0 < usedMem := by decide
          omega
        · cases is
      | some t =>
        refine (ready.palloc taken).addTable fun j lo hi other isTable => ?_
        -- the frame was free, the tables behind were taken
        obtain ⟨k, ltk, clear, isFrame, rfl⟩ := palloc_some taken
        obtain ⟨k', lt', isFrame', marked⟩ := ready.marked j t lo hi other (by simp) (by simpa using isTable)
        obtain ⟨-, rfl⟩ := ready.layout.frameAt_inj ltk lt' (isFrame.symm.trans isFrame')
        exact clear marked
    · show s1.freeFrames .user = s.freeFrames .user
      obtain ⟨-, -, rfl⟩ | ⟨f, -, -, kept⟩ := palloc_cases taken
      · rfl
      · exact kept .user (by simp)
    · rw [← palloc_vaddr sp' taken]
      cases sp' <;> rfl

/-- Clear pages in a row wait to be mapped, also once they are marked. -/
theorem InOrder.ready {b : Bitmap} (ord : InOrder s) (len : b.btmpBytesLen = (s.vaddr sp).btmpBytesLen)
    (who : sp = none ∨ cur = sp) (inside : i + n ≤ 8 * (s.vaddr sp).btmpBytesLen)
    (clear : ∀ j, i ≤ j → j < i + n → ¬ (s.vaddr sp).Set j) : Ready (s.setVaddr sp b) cur sp i n := by
  have lay := ord.frames.layout
  have lens : ((s.setVaddr sp b).vaddr sp).btmpBytesLen = (s.vaddr sp).btmpBytesLen := (same_setVaddr len).spaces sp
  have table : ∀ j t, j < i + n → (s.setVaddr sp b).table cur (pdeIdx (pageAddr sp j)) = some t →
      s.table sp (pdeIdx (pageAddr sp j)) = some t := by
    intro j t lt isTable
    rw [← table_cur lay (by omega) who]
    cases sp <;> exact isTable
  refine ⟨(same_setVaddr len).layout lay, by rw [lens]; exact inside, fun j t lo hi isTable => ?_,
    fun j j' t lo hi lo' hi' isTable isTable' => ?_, fun j t lo hi _ notKernel isTable => ?_⟩
  · have same : (s.setVaddr sp b).pte t (pteIdx (pageAddr sp j)) = s.pte t (pteIdx (pageAddr sp j)) := by cases sp <;> rfl
    rw [same]
    by_contra present
    rw [Bool.not_eq_false] at present
    refine clear j lo hi (ord.bits sp j (s.pte t (pteIdx (pageAddr sp j))).phy ⟨by omega, t, table j t hi isTable, ?_⟩)
    rw [← present]
  · -- the directory entries of a process have tables of their own, those of the kernel too
    have dir := lay.pdeIdx_page (show j < 8 * (s.vaddr sp).btmpBytesLen by omega)
    have dir' := lay.pdeIdx_page (show j' < 8 * (s.vaddr sp).btmpBytesLen by omega)
    have here := table j t hi isTable
    have here' := table j' t hi' isTable'
    cases sp with
    | none =>
      rw [table_kernel (dir.1 rfl).1, Option.some.injEq] at here
      rw [table_kernel (dir'.1 rfl).1, Option.some.injEq, ← here] at here'
      have := dir.1 rfl
      have := dir'.1 rfl
      simp only [kernelTable, pgSize] at here'
      omega
    | some p =>
      rw [table_user (dir.2 (by simp))] at here
      rw [table_user (dir'.2 (by simp))] at here'
      have same := ord.frames.unique _ _ _ here here'
      simp only [Holder.table.injEq, true_and] at same
      exact same
  · cases sp with
    | none => exact absurd rfl notKernel
    | some p =>
      have held := (table_user ((lay.pdeIdx_page (by omega)).2 (by simp))).1 (table j t hi isTable)
      obtain ⟨k, lt, isFrame, marked⟩ := ord.frames.marked _ _ held
      exact ⟨k, lt, isFrame, marked⟩

theorem setVaddr_freeFrames {b : Bitmap} : (s.setVaddr sp b).freeFrames pf = s.freeFrames pf := by
  cases sp <;> cases pf <;> rfl

end Mapping

/-- A call of the page allocator. -/
inductive PageCall where
  | mallocPage (pf : PoolFlags) (pgCnt : Nat)
  | getAPage (pf : PoolFlags) (vaddr : Nat)

namespace PageCall

variable (s : Memory) (cur : Option Nat)

def run : PageCall → Exec (Option Nat × Memory)
  | mallocPage pf pgCnt => Paging.mallocPage s cur pf pgCnt
  | getAPage pf vaddr => Paging.getAPage s cur pf vaddr

/-- The pool its pages come from. -/
def pf : PageCall → PoolFlags
  | mallocPage pf _ => pf
  | getAPage pf _ => pf

/-- The addresses it has to find a frame for: the virtual pages `vaddr_get` reserves, if there
are enough of them in a row, or the page asked for. -/
def pages : PageCall → List Nat
  | mallocPage pf pgCnt =>
    match vaddrGet s cur pf pgCnt with
    | .ok (some vaddr, _) => (List.range pgCnt).map fun i => vaddr + i * pgSize
    | _ => []
  | getAPage _ vaddr => [vaddr]

/-- The directory entries among theirs without a page table, each once. -/
def missingTables (c : PageCall) : List Nat := ((c.pages s cur).map pdeIdx).dedup.filter fun d => s.table cur d = none

/-- The frames it needs from a pool. -/
def needs (c : PageCall) (pf : PoolFlags) : Nat :=
  (if pf = c.pf then (c.pages s cur).length else 0) + if pf = .kernel then (c.missingTables s cur).length else 0

/-- One of the pools has fewer frames than the call needs. -/
def CannotObtain (c : PageCall) : Prop := ∃ pf, s.freeFrames pf < c.needs s cur pf

end PageCall

/-- The bitmaps of both pools and of all virtual pages and the page tables are as they were. -/
structure Unchanged (s s' : Memory) : Prop where
  pools : ∀ pf, s'.pool pf = s.pool pf
  vaddrs : ∀ sp, s'.vaddr sp = s.vaddr sp
  pde : s'.pde = s.pde
  pte : s'.pte = s.pte

/-- A directory entry written between the two states refers to a frame that is allocated. -/
def TablesAllocated (s s' : Memory) : Prop := ∀ task d f, s'.pde task d = some f →
  s.pde task d = some f ∨ ∃ k, k < s'.poolBits .kernel ∧ f = s'.frameAt .kernel k ∧ s'.Marked .kernel k

/-- Null, and nothing has happened. -/
def PageCall.Atomic (s : Memory) (cur : Option Nat) (c : PageCall) : Prop :=
  ∃ s', c.run s cur = .ok (none, s') ∧ Unchanged s s' ∧ TablesAllocated s s'

/-- The calls that do fail this way: `get_a_page`, called as its assertions ask, for a page whose
bit was set before, with no frame in the pool of the page. -/
def PageCall.Spared (s : Memory) (cur : Option Nat) : PageCall → Prop
  | mallocPage _ _ => False
  | getAPage pf vaddr => (pf = .user ↔ cur ≠ none) ∧ (pf = .kernel → 0 < bitIdx (space pf cur) vaddr) ∧
      (s.vaddr (space pf cur)).Set (bitIdx (space pf cur) vaddr) ∧ s.freeFrames pf = 0

section Atomic

variable {s s' : Memory} {cur sp : Option Nat} {pf : PoolFlags} {n vaddr f : Nat}

theorem pageTableAdd_vaddr (add : pageTableAdd s cur vaddr f = .ok s') : s'.vaddr sp = s.vaddr sp := by
  simp only [pageTableAdd] at add
  split at add
  · rw [bind_ok] at add
    obtain ⟨-, -, add⟩ := add
    cases add
    cases sp <;> rfl
  · rw [bind_ok] at add
    obtain ⟨-, -, add⟩ := add
    cases add
    generalize taken : palloc s .kernel = result
    obtain ⟨got, s1⟩ := result
    rw [← palloc_vaddr sp taken]
    cases sp <;> rfl

theorem mapPages_vaddr {b : Bool} : ∀ {n vaddr : Nat} {s : Memory}, mapPages cur pf n vaddr s = .ok (b, s') →
    s'.vaddr sp = s.vaddr sp := by
  intro n
  induction n with
  | zero =>
    intro vaddr s done
    cases done
    rfl
  | succ n ih =>
    intro vaddr s done
    simp only [mapPages] at done
    split at done
    · rename_i s1 taken
      cases done
      exact palloc_vaddr _ taken
    · rename_i f s1 taken
      rw [bind_ok] at done
      obtain ⟨s2, add, rest⟩ := done
      rw [ih rest, pageTableAdd_vaddr add, palloc_vaddr _ taken]

/-- Once `malloc_page` has virtual pages they stay marked, whatever it returns. -/
theorem mallocPage_marks (sp : Option Nat) {got : Option Nat} {s1 : Memory} (call : mallocPage s cur pf n = .ok (got, s'))
    (get : vaddrGet s cur pf n = .ok (some vaddr, s1)) : s'.vaddr sp = s1.vaddr sp := by
  simp only [mallocPage, bind_ok, assertThat_ok, exists_const] at call
  obtain ⟨-, ⟨run, s2⟩, found, call⟩ := call
  rw [get] at found
  cases found
  rw [bind_ok] at call
  obtain ⟨⟨done, s3⟩, mapped, call⟩ := call
  have isS3 : s3 = s' := by cases done <;> cases call <;> rfl
  subst isS3
  exact mapPages_vaddr mapped

/-- **`malloc_page`** never fails without a trace for want of frames. -/
theorem mallocPage_not_atomic (cannot : (PageCall.mallocPage pf n).CannotObtain s cur) :
    ¬ (PageCall.mallocPage pf n).Atomic s cur := by
  rintro ⟨s', call, same, -⟩
  have some : (PageCall.mallocPage pf n).pages s cur ≠ [] := by
    intro empty
    obtain ⟨pf', few⟩ := cannot
    simp [PageCall.needs, PageCall.missingTables, empty, List.dedup_nil] at few
  simp only [PageCall.pages] at some
  split at some
  · rename_i vaddr s1 get
    have kept := mallocPage_marks (space pf cur) call get
    obtain ⟨is, -⟩ | ⟨i, -, -, clear, rfl⟩ := vaddrGet_cases get
    · cases is
    have pos : 0 < n := by
      by_contra zero
      obtain rfl : n = 0 := by omega
      exact some rfl
    -- the first page of the run was clear and now is set
    have before := (clear 0 pos).2
    rw [← same.vaddrs, kept, setVaddr_vaddr, if_pos rfl, set_bitmapSetRun, if_pos (by omega)] at before
    exact before rfl
  · exact some rfl

theorem bitmapSet_of_set {b : Bitmap} {i : Nat} (isSet : b.Set i) : bitmapSet b i true = b := by
  refine Bitmap.ext_set (by simp) fun j => ?_
  rw [set_bitmapSet]
  split
  · rename_i same
    subst same
    simp [isSet]
  · rfl

theorem setVaddr_self : s.setVaddr sp (s.vaddr sp) = s := by
  cases sp with
  | none => rfl
  | some p =>
    have same : (fun q => if q = p then s.vaddr (some p) else s.userVaddr q) = s.userVaddr := by
      funext q
      split
      · rename_i is
        rw [is]
        rfl
      · rfl
    simp only [Memory.setVaddr, same]

/-- **`get_a_page`** fails without a trace exactly if there was nothing to mark and nothing to
take. -/
theorem getAPage_atomic_iff :
    (PageCall.getAPage pf vaddr).Atomic s cur ↔ (PageCall.getAPage pf vaddr).Spared s cur := by
  constructor
  · rintro ⟨s', call, same, -⟩
    have legal : pf = .kernel → 0 < bitIdx (space pf cur) vaddr := by
      simp only [PageCall.run, getAPage, bind_ok, ite_assertThat_ok, assertThat_ok, exists_const] at call
      exact call.2.1
    obtain ⟨task, s1, rfl, ⟨taken, -⟩ | ⟨frame, s2, -, -, is⟩⟩ := getAPage_cases call
    · refine ⟨task, legal, ?_, ?_⟩
      · rw [← same.vaddrs, palloc_vaddr _ taken, setVaddr_vaddr, if_pos rfl, set_bitmapSet, if_pos rfl]
      · obtain ⟨-, empty, -⟩ | ⟨f, is, -⟩ := palloc_cases taken
        · rwa [setVaddr_freeFrames] at empty
        · cases is
    · cases is
  · rintro ⟨task, legal, isSet, empty⟩
    have result : palloc s pf = (none, { s with starved := true }) := by
      generalize taken : palloc s pf = got
      obtain ⟨got, s'⟩ := got
      obtain ⟨rfl, -, rfl⟩ | ⟨f, -, count, -⟩ := palloc_cases taken
      · rfl
      · omega
    refine ⟨{ s with starved := true }, ?_, ⟨fun pf => by cases pf <;> rfl, fun sp => by cases sp <;> rfl, rfl, rfl⟩,
      fun _ _ _ is => .inl is⟩
    simp only [PageCall.run, getAPage, bind_ok, ite_assertThat_ok, assertThat_ok, exists_const]
    refine ⟨task, legal, ?_⟩
    rw [bitmapSet_of_set isSet, setVaddr_self, result]
    rfl

end Atomic

/-- **Exhaustion**: when frames are missing, only a `get_a_page` with nothing to mark and
nothing to take returns null and leaves memory as it was. -/
theorem exhaustion_atomic_iff (s : Memory) (cur : Option Nat) (c : PageCall) (cannot : c.CannotObtain s cur) :
    c.Atomic s cur ↔ c.Spared s cur := by
  cases c with
  | mallocPage pf n => exact ⟨fun atomic => mallocPage_not_atomic cannot atomic, False.elim⟩
  | getAPage pf vaddr => exact getAPage_atomic_iff

/-- Memory with 16 frames, 8 for each pool. -/
def sixteenFrames : Memory := memPoolInit (usedMem + 16 * pgSize)

/-- A page whose bit is set, in a memory without frames. -/
def reservedPage : Memory := (memPoolInit usedMem).setVaddr (some 0) ⟨userBitmapLen, fun _ => 0xff#8⟩

theorem exhaustion_atomic_reserved :
    (PageCall.getAPage .user userVaddrStart).CannotObtain reservedPage (some 0) ∧
      (PageCall.getAPage .user userVaddrStart).Atomic reservedPage (some 0) := by
  have cannot : (PageCall.getAPage .user userVaddrStart).CannotObtain reservedPage (some 0) := ⟨.user, by decide⟩
  exact ⟨cannot, (exhaustion_atomic_iff _ _ _ cannot).2 ⟨by decide, by decide, by decide, by decide⟩⟩

/-- A process asks for nine pages where there are eight frames: the call leaves nine bits
set, eight frames taken and a page table in use. -/
theorem exhaustion_leaves_marks : (PageCall.mallocPage .user 9).CannotObtain sixteenFrames (some 0) ∧
    ¬ (PageCall.mallocPage .user 9).Atomic sixteenFrames (some 0) := by
  have cannot : (PageCall.mallocPage .user 9).CannotObtain sixteenFrames (some 0) := by
    refine ⟨.user, ?_⟩
    decide
  exact ⟨cannot, mallocPage_not_atomic cannot⟩

end Sparrow.Paging
