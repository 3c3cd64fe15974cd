import Sparrow.Kernel.PagingRun

/-!
# What an address stands for

The frame behind an address of a process, also where no bitmap has a bit for it. Mapping a page
changes what one directory entry and one table entry say: to one process when the page is a user
page, to all of them when it is a page of the kernel.
-/

namespace Sparrow.Paging
set_option autoImplicit false

/-- The frame behind an address; an access without one is a page fault. -/
def Memory.frame (s : Memory) (cur : Option Nat) (vaddr : Nat) : Option Nat :=
  (s.table cur (pdeIdx vaddr)).bind fun t =>
    if (s.pte t (pteIdx vaddr)).present then some (s.pte t (pteIdx vaddr)).phy else none

/-- Process `q` reaches `u` through the entry by which process `p` reaches `v`. -/
def SharesEntry (p q v u : Nat) : Prop := pdeIdx u = pdeIdx v ∧ pteIdx u = pteIdx v ∧ (768 ≤ pdeIdx v ∨ q = p)

instance (p q v u : Nat) : Decidable (SharesEntry p q v u) := by
  unfold SharesEntry
  infer_instance

section Frame

variable {s s' : Memory} {cur sp : Option Nat} {p q d e t f i n u v : Nat}

theorem frame_eq_some : s.frame cur v = some f ↔ ∃ t, s.table cur (pdeIdx v) = some t ∧ s.pte t (pteIdx v) = ⟨f, true⟩ := by
  simp only [Memory.frame, Option.bind_eq_some_iff]
  refine exists_congr fun t => and_congr_right fun _ => ?_
  generalize s.pte t (pteIdx v) = e
  cases e with
  | mk phy present => cases present <;> simp

/-- A page of a space is held exactly when its address has a frame. -/
theorem holds_page_iff : s.Holds (.page sp i) f ↔ i < 8 * (s.vaddr sp).btmpBytesLen ∧ s.frame sp (pageAddr sp i) = some f := by
  rw [frame_eq_some]
  rfl

theorem frame_of_table (same : s'.table cur (pdeIdx v) = s.table cur (pdeIdx v))
    (entry : ∀ t, s.table cur (pdeIdx v) = some t → s'.pte t (pteIdx v) = s.pte t (pteIdx v)) : s'.frame cur v = s.frame cur v := by
  simp only [Memory.frame, same]
  cases isTable : s.table cur (pdeIdx v) with
  | none => rfl
  | some t => simp only [Option.bind_some, entry t isTable]

@[simp] theorem setPool_frame (pf : PoolFlags) (b : Bitmap) : (s.setPool pf b).frame cur v = s.frame cur v :=
  frame_of_table (setPool_table _ _ _ _ _) fun _ _ => by rw [setPool_pte]

@[simp] theorem setVaddr_frame (b : Bitmap) : (s.setVaddr sp b).frame cur v = s.frame cur v := by
  cases sp <;> rfl

/-- The kernel is the same in every directory. -/
theorem frame_kernel (le : 768 ≤ pdeIdx v) (cur cur' : Option Nat) : s.frame cur v = s.frame cur' v := by
  simp only [Memory.frame, table_kernel le]

/-- A kernel page is found by every task. -/
theorem frame_held (lay : Layout s) (held : s.Holds (.page none i) f) : s.frame cur (pageAddr none i) = some f := by
  obtain ⟨lt, isFrame⟩ := holds_page_iff.1 held
  rw [frame_kernel ((lay.pdeIdx_page lt).1 rfl).1 cur none, isFrame]

/-- Two directory entries with one table are the same entry, or one of the kernel. -/
theorem Frames.tables_apart (fr : Frames s) (lt : d < 1023) (lt' : e < 1023) (isTable : s.table (some p) d = some t)
    (isTable' : s.table (some q) e = some t) : e = d ∧ (768 ≤ d ∨ q = p) := by
  rcases Nat.lt_or_ge d 768 with user | kernel
  · rw [table_user user] at isTable
    rcases Nat.lt_or_ge e 768 with user' | kernel'
    · rw [table_user user'] at isTable'
      have same := fr.unique _ _ _ isTable isTable'
      simp only [Holder.table.injEq] at same
      exact ⟨same.2.symm, .inr same.1.symm⟩
    · rw [table_kernel kernel', Option.some.injEq] at isTable'
      have above := fr.table_frame isTable
      have below := kernelTable_below lt'
      omega
  · rw [table_kernel kernel, Option.some.injEq] at isTable
    rcases Nat.lt_or_ge e 768 with user' | kernel'
    · rw [table_user user'] at isTable'
      have above := fr.table_frame isTable'
      have below := kernelTable_below lt
      omega
    · rw [table_kernel kernel', Option.some.injEq, ← isTable] at isTable'
      refine ⟨?_, .inl kernel⟩
      simp only [kernelTable, pgSize] at isTable'
      omega

/-- Writing the entry of `v`, in a table that only directory entries like that of `v` point to. -/
theorem setPte_frame {entry : Pte} (isTable : s.table (some p) (pdeIdx v) = some t) (lt : pdeIdx u < 1023)
    (apart : ∀ q e, e < 1023 → s.table (some q) e = some t → e = pdeIdx v ∧ (768 ≤ pdeIdx v ∨ q = p)) :
    (s.setPte t (pteIdx v) entry).frame (some q) u =
      if SharesEntry p q v u then (if entry.present then some entry.phy else none) else s.frame (some q) u := by
  split
  · rename_i shares
    obtain ⟨dir, idx, who⟩ := shares
    have isTable' : s.table (some q) (pdeIdx u) = some t := by
      rw [dir]
      obtain kernel | rfl := who
      · rw [← isTable, table_kernel kernel, table_kernel kernel]
      · exact isTable
    have isTable'' : (s.setPte t (pteIdx v) entry).table (some q) (pdeIdx u) = some t := isTable'
    rw [Memory.frame, isTable'', Option.bind_some]
    simp only [Memory.setPte, idx, and_self, if_true]
  · rename_i other
    refine frame_of_table rfl fun t' isTable' => if_neg ?_
    rintro ⟨rfl, idx⟩
    obtain ⟨dir, who⟩ := apart q _ lt isTable'
    exact other ⟨dir, idx, who⟩

/-- A new table changes no translation. -/
theorem addTable_frame (absent : s.pde (some p) d = none) (user : d < 768)
    (fresh : ∀ q e, e < 1023 → s.table (some q) e ≠ some t) (lt : pdeIdx u < 1023) :
    (s.addTable (some p) d t).frame (some q) u = s.frame (some q) u := by
  by_cases here : q = p ∧ pdeIdx u = d
  · obtain ⟨rfl, rfl⟩ := here
    simp [Memory.frame, Memory.table, Memory.addTable, Nat.not_le.2 user, absent]
  · refine frame_of_table ?_ fun t' isTable' => if_neg ?_
    · simp only [Memory.table, Memory.addTable, Option.some.injEq, if_neg here]
    · rintro rfl
      exact fresh q _ lt isTable'

/-- **`page_table_add`** changes one translation. -/
theorem pageTableAdd_frame (fr : Frames s) (inside : pdeIdx v < 1023) (add : pageTableAdd s (some p) v f = .ok s')
    (fed : s'.starved = false) (lt : pdeIdx u < 1023) :
    s'.frame (some q) u = if SharesEntry p q v u then some f else s.frame (some q) u := by
  simp only [pageTableAdd] at add
  split at add
  · rename_i t isTable
    simp only [bind_ok, assertThat_ok, exists_const, pure_ok] at add
    obtain ⟨-, rfl⟩ := add
    exact setPte_frame isTable lt fun q e lt' isTable' => fr.tables_apart inside lt' isTable isTable'
  · rename_i noTable
    have user : pdeIdx v < 768 := by
      by_contra kernel
      rw [table_kernel (by omega)] at noTable
      cases noTable
    rw [Memory.table, if_neg (by omega)] at noTable
    generalize taken : palloc s .kernel = result at add
    obtain ⟨got, s1⟩ := result
    simp only [bind_ok, assertThat_ok, exists_const, pure_ok] at add
    obtain ⟨-, rfl⟩ := add
    cases got with
    | none =>
      have starved : s1.starved = false := fed
      rw [palloc_none taken] at starved
      cases starved
    | some t =>
      obtain ⟨k, inPool, clear, isT, rfl⟩ := palloc_some taken
      have isFrame : t = s.frameAt .kernel k := isT
      have fresh : ∀ q e, e < 1023 → (s.setPool .kernel (bitmapSet (s.pool .kernel).poolBitmap k true)).table (some q) e ≠ some t := by
        intro q e lt' isTable
        rw [setPool_table] at isTable
        rcases Nat.lt_or_ge e 768 with user' | kernel'
        · rw [table_user user', isFrame] at isTable
          exact fr.not_held inPool clear isTable
        · rw [table_kernel kernel', Option.some.injEq] at isTable
          have above := (fr.layout.kernel_frame inPool).1
          have below := kernelTable_below lt'
          omega
      simp only [Option.getD_some]
      rw [setPte_frame (p := p) (by simp [Memory.table, Memory.addTable, Nat.not_le.2 user]) lt,
        addTable_frame (by rw [setPool_pde]; exact noTable) user fresh lt, setPool_frame]
      · rfl
      · intro q e lt' isTable
        by_contra other
        refine fresh q e lt' ?_
        rw [← isTable]
        simp only [Memory.table, Memory.addTable, Option.some.injEq]
        split
        · rfl
        · rw [if_neg fun here => other ⟨here.2, .inr here.1⟩]

end Frame

/-! Kernel pages. -/

/-- Only pages of the kernel were taken or given back: processes keep their pages. -/
structure KernelOnly (s s' : Memory) : Prop where
  frames : Frames s'
  users : ∀ p, s'.userVaddr p = s.userVaddr p
  frame : ∀ p v, pdeIdx v < 768 → s'.frame (some p) v = s.frame (some p) v

section KernelPages

variable {s s' s1 s2 : Memory} {p n i f v : Nat}

theorem KernelOnly.refl (fr : Frames s) : KernelOnly s s := ⟨fr, fun _ => rfl, fun _ _ _ => rfl⟩

theorem KernelOnly.trans (h : KernelOnly s s1) (h' : KernelOnly s1 s2) : KernelOnly s s2 :=
  ⟨h'.frames, fun p => (h'.users p).trans (h.users p), fun p v lt => (h'.frame p v lt).trans (h.frame p v lt)⟩

theorem KernelOnly.holds (h : KernelOnly s s') : s'.Holds (.page (some p) i) f ↔ s.Holds (.page (some p) i) f := by
  have len : (s'.vaddr (some p)).btmpBytesLen = (s.vaddr (some p)).btmpBytesLen := congrArg Bitmap.btmpBytesLen (h.users p)
  rw [holds_page_iff, holds_page_iff, len]
  refine and_congr_right fun lt => ?_
  rw [← len] at lt
  rw [h.frame p _ ((h.frames.layout.pdeIdx_page lt).2 (by simp))]

theorem pageAddr_succ (sp : Option Nat) (i : Nat) : pageAddr sp i + pgSize = pageAddr sp (i + 1) := by
  simp only [pageAddr, Nat.add_mul]
  omega

/-- Mapping kernel pages changes no translation of a user address. -/
theorem mapPages_frame (q : Nat) (lt : pdeIdx v < 768) : ∀ {n i : Nat} {s : Memory}, Frames s →
    i + n ≤ 8 * (s.vaddr none).btmpBytesLen → mapPages (some p) .kernel n (pageAddr none i) s = .ok (true, s') →
    s'.starved = false → s'.frame (some q) v = s.frame (some q) v := by
  intro n
  induction n with
  | zero =>
    intro i s _ _ done _
    cases done
    rfl
  | succ n ih =>
    intro i s fr inside done fed
    simp only [mapPages] at done
    split at done
    · cases done
    · rename_i f s1 taken
      rw [bind_ok] at done
      obtain ⟨s2, add, rest⟩ := done
      have fed2 := (mapPages_starved rest fed).2
      have take : palloc s (poolOf none) = (some f, s1) := taken
      have here : i < 8 * (s.vaddr none).btmpBytesLen := by omega
      have one := mapOne fr here (.inl rfl) take add fed2
      have kernel := (fr.layout.pdeIdx_page here).1 rfl
      rw [pageAddr_succ] at rest
      rw [ih one.frames (by rw [one.vaddr]; omega) rest fed, pageTableAdd_frame (fr.palloc taken) kernel.2 add fed2 (by omega),
        if_neg fun shares => ?_]
      · obtain ⟨k, -, -, -, rfl⟩ := palloc_some taken
        rw [setPool_frame]
      · have dir := shares.1
        omega

/-- **`malloc_page`** for kernel pages. -/
theorem mallocPage_kernel (fr : Frames s) (call : mallocPage s (some p) .kernel n = .ok (some v, s'))
    (fed : s'.starved = false) : KernelOnly s s' ∧ (∀ k f, s.Holds (.page none k) f → s'.Holds (.page none k) f) ∧
      ∃ i, v = pageAddr none i ∧ ∀ j, i ≤ j ∧ j < i + n → ∃ f, s'.Holds (.page none j) f := by
  simp only [mallocPage, bind_ok, assertThat_ok, exists_const] at call
  obtain ⟨bound, ⟨run, s1⟩, found, call⟩ := call
  rcases vaddrGet_cases found with ⟨rfl, -⟩ | ⟨i, -, rfl, scan, rfl⟩
  · cases call
  · rw [bind_ok] at call
    obtain ⟨⟨done, s2⟩, mapped, call⟩ := call
    have isS2 : s2 = s' := by
      cases done
      · cases call
      · cases call
        rfl
    subst isS2
    obtain ⟨rfl, -⟩ := mapPages_starved mapped fed
    cases call
    have len : (bitmapSetRun (s.vaddr none) i true n).btmpBytesLen = (s.vaddr none).btmpBytesLen := bitmapSetRun_len _ _ _ _
    have last : i + n ≤ 8 * (s.vaddr none).btmpBytesLen := by
      have := (scan (n - 1) (by omega)).1
      simp only [space] at this
      omega
    have fr1 := fr.setVaddr len
    have inside : i + n ≤ 8 * ((s.setVaddr none (bitmapSetRun (s.vaddr none) i true n)).vaddr none).btmpBytesLen := by
      rw [setVaddr_vaddr, if_pos rfl, len]
      exact last
    obtain ⟨g, ext⟩ := mapPages_extends (.inl rfl) fr1 inside mapped fed
    refine ⟨⟨ext.frames, fun q => ?_, fun q u lt => ?_⟩, fun k f held => ?_, i, rfl, fun j run => ?_⟩
    · exact ext.vaddr (some q)
    · rw [mapPages_frame q lt fr1 inside mapped fed]
      exact setVaddr_frame _
    · exact (ext.pages _ _ _).2 (.inl ((setVaddr_holds len).2 held))
    · exact ⟨g j, (ext.pages _ _ _).2 (.inr ⟨rfl, run, rfl⟩)⟩

/-- **`mfree_page`** for one kernel page. -/
theorem mfreePage_kernel (fr : Frames s) (held : s.Holds (.page none i) f)
    (call : mfreePage s (some p) .kernel (pageAddr none i) 1 = .ok s') : KernelOnly s s' := by
  obtain ⟨s1, removed, shrinks⟩ : ∃ s1, pageTablePteRemove (pfree s f) (some p) (pageAddr none i) = .ok s1 ∧
      Shrinks s s1 fun sp' i' => sp' = none ∧ i' = i := unmapOne fr (.inl rfl) held
  have read : s.readPte (some p) (pageAddr none i) = .ok ⟨f, true⟩ := readPte_held fr.layout (.inl rfl) held
  simp only [mfreePage, unmapPages, read, ok_bind, removed, bind_ok, assertThat_ok, defined_ok, exists_const, pure_ok] at call
  obtain ⟨-, -, s2, ⟨-, same⟩, -, rfl⟩ := call
  subst same
  have len : (bitmapSetRun (s1.vaddr (space .kernel (some p))) (bitIdx (space .kernel (some p)) (pageAddr none i)) false 1).btmpBytesLen =
      (s1.vaddr (space .kernel (some p))).btmpBytesLen := bitmapSetRun_len _ _ _ _
  have kernel := (fr.layout.pdeIdx_page held.1).1 rfl
  refine ⟨shrinks.frames.setVaddr len, fun q => ?_, fun q u lt => ?_⟩
  · exact shrinks.vaddr (some q)
  · rw [setVaddr_frame]
    obtain ⟨k, -, -, freed⟩ := pfree_frame fr held
    simp only [pageTablePteRemove, freed] at removed
    split at removed
    · rename_i t isTable
      cases removed
      have apart : ∀ q e, e < 1023 → (s.setPool (poolOf none) (bitmapSet (s.pool (poolOf none)).poolBitmap k false)).table (some q) e =
          some t → e = pdeIdx (pageAddr none i) ∧ (768 ≤ pdeIdx (pageAddr none i) ∨ q = p) := by
        intro q e lt' isTable'
        rw [setPool_table] at isTable isTable'
        exact fr.tables_apart kernel.2 lt' isTable isTable'
      have other : ¬ SharesEntry p q (pageAddr none i) u := by
        intro shares
        have dir := shares.1
        omega
      rw [setPte_frame isTable (by omega) apart, if_neg other, setPool_frame]
    · cases removed

end KernelPages

end Sparrow.Paging
