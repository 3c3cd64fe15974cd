import Sparrow.Kernel.PagingInv
import Mathlib.Logic.Relation

/-!
# Runs of the page allocator

`Inv` adds to `Frames` that a virtual page is marked exactly when it is mapped. What
`malloc_page` and `get_a_page` take is described by `Taken`, what `mfree_page` gives back by
`Freed`, and `pages_sound` says what holds in every state of a run in which no `palloc`
has failed.
-/

namespace Sparrow.Paging
set_option autoImplicit false

structure Inv (s : Memory) : Prop where
  frames : Frames s
  bits : ∀ sp i, i < 8 * (s.vaddr sp).btmpBytesLen → ((s.vaddr sp).Set i ↔ ∃ f, s.Holds (.page sp i) f)

/-- The frame is a page table of some process. -/
def Memory.IsTable (s : Memory) (f : Nat) : Prop := ∃ p d, s.Holds (.table p d) f

instance (s : Memory) (pf : PoolFlags) (k : Nat) : Decidable (s.Marked pf k) :=
  inferInstanceAs (Decidable ((s.pool pf).poolBitmap.Set k))

section Starved

variable {s s' : Memory} {cur : Option Nat} {pf : PoolFlags} {vaddr f : Nat} {got : Option Nat} {b : Bool}

theorem palloc_starved (take : palloc s pf = (got, s')) (fed : s'.starved = false) : s.starved = false := by
  simp only [palloc] at take
  split at take
  · cases take
    cases fed
  · cases take
    simpa using fed

theorem pageTableAdd_starved (add : pageTableAdd s cur vaddr f = .ok s') (fed : s'.starved = false) :
    s.starved = false := by
  simp only [pageTableAdd] at add
  split at add
  · simp only [bind_ok, assertThat_ok, exists_const, pure_ok] at add
    obtain ⟨-, rfl⟩ := add
    exact fed
  · generalize taken : palloc s .kernel = result at add
    obtain ⟨got, s1⟩ := result
    simp only [bind_ok, assertThat_ok, exists_const, pure_ok] at add
    obtain ⟨-, rfl⟩ := add
    exact palloc_starved taken fed

theorem mapPages_starved : ∀ {n vaddr : Nat} {s : Memory}, mapPages cur pf n vaddr s = .ok (b, s') →
    s'.starved = false → b = true ∧ s.starved = false := by
  intro n
  induction n with
  | zero =>
    intro vaddr s done fed
    cases done
    exact ⟨rfl, fed⟩
  | succ n ih =>
    intro vaddr s done fed
    simp only [mapPages] at done
    split at done
    · rename_i s1 taken
      cases done
      rw [palloc_none taken] at fed
      cases fed
    · rename_i f s1 taken
      rw [bind_ok] at done
      obtain ⟨s2, add, rest⟩ := done
      obtain ⟨isTrue, fed2⟩ := ih rest fed
      exact ⟨isTrue, palloc_starved taken (pageTableAdd_starved add fed2)⟩

@[simp] theorem setVaddr_starved (sp : Option Nat) (v : Bitmap) : (s.setVaddr sp v).starved = s.starved := by
  cases sp <;> rfl

/-- `vaddr_get` finds nothing, or marks a run of clear bits. -/
theorem vaddrGet_cases {n : Nat} (call : vaddrGet s cur pf n = .ok (got, s')) :
    (got = none ∧ s' = s) ∨ ∃ i, ¬ (pf = .user ∧ cur = none) ∧ got = some (vaddrStart (space pf cur) + i * pgSize) ∧
      (∀ k, k < n → i + k < 8 * (s.vaddr (space pf cur)).btmpBytesLen ∧ ¬ (s.vaddr (space pf cur)).Set (i + k)) ∧
      s' = s.setVaddr (space pf cur) (bitmapSetRun (s.vaddr (space pf cur)) i true n) := by
  simp only [vaddrGet] at call
  split at call
  · cases call
    exact .inl ⟨rfl, rfl⟩
  · rename_i isTask
    split at call
    · cases call
      exact .inl ⟨rfl, rfl⟩
    · rename_i i scanned
      have scan := bitmapScan_some scanned
      split at call
      · simp only [bind_ok, assertThat_ok, exists_const] at call
        cases call.2
        exact .inr ⟨i, isTask, rfl, scan, rfl⟩
      · cases call
        exact .inr ⟨i, isTask, rfl, scan, rfl⟩

theorem mallocPage_starved {n : Nat} (call : mallocPage s cur pf n = .ok (got, s')) (fed : s'.starved = false) :
    s.starved = false := by
  simp only [mallocPage, bind_ok, assertThat_ok, exists_const] at call
  obtain ⟨-, ⟨run, s1⟩, found, call⟩ := call
  rcases vaddrGet_cases found with ⟨rfl, rfl⟩ | ⟨i, -, rfl, -, rfl⟩
  · cases call
    exact fed
  · rw [bind_ok] at call
    obtain ⟨⟨done, s2⟩, mapped, call⟩ := call
    have isS2 : s2 = s' := by cases done <;> cases call <;> rfl
    subst isS2
    have marked := (mapPages_starved mapped fed).2
    rw [setVaddr_starved] at marked
    exact marked

theorem getAPage_starved (call : getAPage s cur pf vaddr = .ok (got, s')) (fed : s'.starved = false) :
    s.starved = false := by
  obtain ⟨-, s1, rfl, ⟨taken, -⟩ | ⟨frame, s2, taken, add, -⟩⟩ := getAPage_cases call
  · have fed1 := palloc_starved taken fed
    rwa [setVaddr_starved] at fed1
  · have fed1 := palloc_starved taken (pageTableAdd_starved add fed)
    rwa [setVaddr_starved] at fed1

theorem pfree_starved : (pfree s f).starved = s.starved := setPool_starved _ _ _

theorem unmapPages_starved {user : Bool} : ∀ {n vaddr : Nat} {s : Memory}, unmapPages cur user n vaddr s = .ok s' →
    s'.starved = s.starved := by
  intro n
  induction n with
  | zero =>
    intro vaddr s done
    cases done
    rfl
  | succ n ih =>
    intro vaddr s done
    simp only [unmapPages, bind_ok, assertThat_ok, exists_const] at done
    obtain ⟨e, -, -, s1, removed, rest⟩ := done
    rw [ih rest]
    simp only [pageTablePteRemove] at removed
    split at removed
    · cases removed
      exact pfree_starved
    · cases removed

theorem mfreePage_starved {n : Nat} (call : mfreePage s cur pf vaddr n = .ok s') : s'.starved = s.starved := by
  simp only [mfreePage, bind_ok, assertThat_ok, defined_ok, exists_const, pure_ok] at call
  obtain ⟨-, e, -, -, s1, unmapped, -, rfl⟩ := call
  rw [setVaddr_starved]
  exact unmapPages_starved unmapped

end Starved

section Vaddr

variable {s s' : Memory} {sp sp' cur : Option Nat} {i n j f : Nat} {b : Bitmap} {x : Holder} {pf : PoolFlags}

theorem setVaddr_vaddr : (s.setVaddr sp b).vaddr sp' = if sp' = sp then b else s.vaddr sp' := by
  cases sp with
  | none => cases sp' <;> rfl
  | some p =>
    cases sp' with
    | none => rfl
    | some q => simp [Memory.setVaddr, Memory.vaddr]

theorem setVaddr_holds (len : b.btmpBytesLen = (s.vaddr sp).btmpBytesLen) :
    (s.setVaddr sp b).Holds x f ↔ s.Holds x f := by
  have lens : ∀ sp', ((s.setVaddr sp b).vaddr sp').btmpBytesLen = (s.vaddr sp').btmpBytesLen := by
    intro sp'
    rw [setVaddr_vaddr]
    split
    · rename_i same
      rw [same, len]
    · rfl
  cases x with
  | page sp' i => simp only [Memory.Holds, lens]; cases sp <;> rfl
  | table p d => cases sp <;> rfl

theorem same_setVaddr (len : b.btmpBytesLen = (s.vaddr sp).btmpBytesLen) : Same s (s.setVaddr sp b) := by
  refine ⟨fun sp' => ?_, fun pf => by cases sp <;> cases pf <;> rfl, fun pf => by cases sp <;> cases pf <;> rfl⟩
  rw [setVaddr_vaddr]
  split
  · rename_i same
    rw [same, len]
  · rfl

theorem setVaddr_marked {k : Nat} : (s.setVaddr sp b).Marked pf k ↔ s.Marked pf k := by
  cases sp <;> cases pf <;> rfl

theorem Frames.setVaddr (fr : Frames s) (len : b.btmpBytesLen = (s.vaddr sp).btmpBytesLen) :
    Frames (s.setVaddr sp b) := by
  have same := same_setVaddr len
  refine ⟨same.layout fr.layout, ?_, ?_⟩
  · intro x y f hx hy
    rw [setVaddr_holds len] at hx hy
    exact fr.unique x y f hx hy
  · intro x f held
    rw [setVaddr_holds len] at held
    obtain ⟨k, lt, isFrame, marked⟩ := fr.marked x f held
    exact ⟨k, by rw [same.lens]; exact lt, by rw [same.frameAt]; exact isFrame, setVaddr_marked.2 marked⟩

end Vaddr

/-! Taking pages. -/

/-- Pages `i` to `i + n` of the space were taken: frame `g j` for page `j`. -/
structure Taken (s s' : Memory) (sp : Option Nat) (i n : Nat) (g : Nat → Nat) : Prop where
  inv : Inv s'
  same : Same s s'
  pos : 0 < n
  inside : i + n ≤ 8 * (s.vaddr sp).btmpBytesLen
  clear : ∀ j, i ≤ j ∧ j < i + n → ¬ (s.vaddr sp).Set j
  bits : ∀ sp' j, (s'.vaddr sp').Set j ↔ (s.vaddr sp').Set j ∨ (sp' = sp ∧ i ≤ j ∧ j < i + n)
  pages : ∀ sp' j f, s'.Holds (.page sp' j) f ↔
    s.Holds (.page sp' j) f ∨ (sp' = sp ∧ (i ≤ j ∧ j < i + n) ∧ f = g j)
  marked : ∀ pf k, k < s.poolBits pf → ((¬ s.Marked pf k ∧ s'.Marked pf k ∧ ¬ s'.IsTable (s.frameAt pf k)) ↔
    ∃ j, (i ≤ j ∧ j < i + n) ∧ g j = s.frameAt pf k)

section Taking

variable {s s' : Memory} {sp cur : Option Nat} {i n vaddr : Nat} {pf : PoolFlags} {got : Option Nat}

/-- **The loop of `malloc_page`.** -/
theorem mapPages_extends (who : sp = none ∨ cur = sp) : ∀ {n i : Nat} {s : Memory}, Frames s →
    i + n ≤ 8 * (s.vaddr sp).btmpBytesLen → mapPages cur (poolOf sp) n (pageAddr sp i) s = .ok (true, s') →
    s'.starved = false → ∃ g : Nat → Nat, Extends s s' fun sp' j f => sp' = sp ∧ (i ≤ j ∧ j < i + n) ∧ f = g j := by
  intro n
  induction n with
  | zero =>
    intro i s fr _ done _
    cases done
    refine ⟨fun _ => 0, ?_⟩
    have none : (fun (sp' : Option Nat) (j f : Nat) => sp' = sp ∧ (i ≤ j ∧ j < i + 0) ∧ f = 0) = fun _ _ _ => False := by
      funext sp' j f
      simp
    rw [none]
    exact .refl fr
  | succ n ih =>
    intro i s fr inside done fed
    simp only [mapPages] at done
    split at done
    · cases done
    · rename_i f s1 taken
      rw [bind_ok] at done
      obtain ⟨s2, add, rest⟩ := done
      have fed2 := (mapPages_starved rest fed).2
      have one := mapOne fr (by omega) who taken add fed2
      have next : pageAddr sp i + pgSize = pageAddr sp (i + 1) := by
        simp only [pageAddr, Nat.add_mul]
        omega
      rw [next] at rest
      obtain ⟨g, more⟩ := ih one.frames (by rw [one.vaddr]; omega) rest fed
      refine ⟨fun j => if j = i then f else g j, ?_⟩
      have whole := one.trans more
      have split : (fun sp' j f' => (sp' = sp ∧ j = i ∧ f' = f) ∨ (sp' = sp ∧ (i + 1 ≤ j ∧ j < i + 1 + n) ∧ f' = g j)) =
          fun sp' j f' => sp' = sp ∧ (i ≤ j ∧ j < i + (n + 1)) ∧ f' = if j = i then f else g j := by
        funext sp' j f'
        by_cases e : j = i
        · subst e
          simp
        · simp only [e, if_false, false_and, and_false, false_or]
          rw [show (i + 1 ≤ j ∧ j < i + 1 + n) = (i ≤ j ∧ j < i + (n + 1)) by
            rw [eq_iff_iff]
            omega]
      rw [split] at whole
      exact whole

/-- Marking the virtual pages and mapping them. -/
theorem Inv.taken (inv : Inv s) (pos : 0 < n) (inside : i + n ≤ 8 * (s.vaddr sp).btmpBytesLen)
    (clear : ∀ j, i ≤ j ∧ j < i + n → ¬ (s.vaddr sp).Set j) {g : Nat → Nat} {b : Bitmap}
    (len : b.btmpBytesLen = (s.vaddr sp).btmpBytesLen)
    (set : ∀ j, b.Set j ↔ (s.vaddr sp).Set j ∨ (i ≤ j ∧ j < i + n))
    (ext : Extends (s.setVaddr sp b) s' fun sp' j f => sp' = sp ∧ (i ≤ j ∧ j < i + n) ∧ f = g j) :
    Taken s s' sp i n g := by
  have same := (same_setVaddr len).trans ext.same
  have pages : ∀ sp' j f, s'.Holds (.page sp' j) f ↔
      s.Holds (.page sp' j) f ∨ (sp' = sp ∧ (i ≤ j ∧ j < i + n) ∧ f = g j) := by
    intro sp' j f
    rw [ext.pages, setVaddr_holds len]
  have bits : ∀ sp' j, (s'.vaddr sp').Set j ↔ (s.vaddr sp').Set j ∨ (sp' = sp ∧ i ≤ j ∧ j < i + n) := by
    intro sp' j
    rw [ext.vaddr, setVaddr_vaddr]
    split
    · rename_i e
      subst e
      simp [set]
    · rename_i ne
      simp [ne]
  have frameAt : ∀ pf k, (s.setVaddr sp b).frameAt pf k = s.frameAt pf k := fun _ _ => (same_setVaddr len).frameAt
  refine ⟨⟨ext.frames, fun sp' j lt => ?_⟩, same, pos, inside, clear, bits, pages, fun pf k lt => ⟨?_, ?_⟩⟩
  · rw [same.spaces] at lt
    simp only [bits, pages, exists_or, inv.bits sp' j lt]
    refine or_congr_right ⟨fun h => ⟨g j, h.1, h.2, rfl⟩, ?_⟩
    rintro ⟨f, e, h, -⟩
    exact ⟨e, h⟩
  · rintro ⟨wasClear, marked, notTable⟩
    rcases ext.added pf k marked with old | ⟨sp', j, -, run, isFrame⟩ | isTable
    · exact absurd (setVaddr_marked.1 old) wasClear
    · rw [frameAt] at isFrame
      exact ⟨j, run, isFrame.symm⟩
    · rw [frameAt] at isTable
      exact absurd isTable notTable
  · rintro ⟨j, run, isFrame⟩
    obtain ⟨k', lt', isFrame', wasClear⟩ := ext.fresh sp j (g j) ⟨rfl, run, rfl⟩
    rw [frameAt] at isFrame'
    rw [(same_setVaddr len).lens] at lt'
    obtain ⟨rfl, rfl⟩ := inv.frames.layout.frameAt_inj lt lt' (isFrame.symm.trans isFrame')
    have held : s'.Holds (.page sp j) (g j) := (pages sp j _).2 (.inr ⟨rfl, run, rfl⟩)
    refine ⟨fun marked => wasClear (setVaddr_marked.2 marked), ?_, ?_⟩
    · obtain ⟨k', lt', isFrame', marked⟩ := ext.frames.marked _ _ held
      rw [same.lens] at lt'
      rw [same.frameAt] at isFrame'
      obtain ⟨-, rfl⟩ := inv.frames.layout.frameAt_inj lt lt' (isFrame.symm.trans isFrame')
      exact marked
    · rintro ⟨p, d, isTable⟩
      rw [← isFrame] at isTable
      have := ext.frames.unique _ _ _ held isTable
      cases this

theorem space_pool (ok : ¬ (pf = .user ∧ cur = none)) : poolOf (space pf cur) = pf := by
  cases pf with
  | kernel => rfl
  | user =>
    cases cur with
    | none => exact absurd ⟨rfl, rfl⟩ ok
    | some p => rfl

theorem space_cur (pf : PoolFlags) (cur : Option Nat) : space pf cur = none ∨ cur = space pf cur := by
  cases pf with
  | kernel => exact .inl rfl
  | user => exact .inr rfl

/-- The pages of a space lie in 32-bit memory. -/
theorem Layout.bitIdx_page (lay : Layout s) (lt : i < 8 * (s.vaddr sp).btmpBytesLen) : bitIdx sp (pageAddr sp i) = i := by
  cases sp with
  | none =>
    have heap := lay.heap
    simp only [Memory.vaddr, bitIdx, pageAddr, vaddrStart, kHeapStart, pgSize] at *
    omega
  | some p =>
    simp only [Memory.vaddr, lay.user p, userBitmapLen, userVaddrStart, pgSize] at lt
    simp only [bitIdx, pageAddr, vaddrStart, userVaddrStart, pgSize]
    omega

/-- **`malloc_page`** takes nothing, or a run of pages. -/
theorem mallocPage_taken (inv : Inv s) (call : mallocPage s cur pf n = .ok (got, s')) (fed : s'.starved = false) :
    (got = none ∧ s' = s) ∨ ∃ i g, got = some (pageAddr (space pf cur) i) ∧ Taken s s' (space pf cur) i n g := by
  simp only [mallocPage, bind_ok, assertThat_ok, exists_const] at call
  obtain ⟨bound, ⟨run, s1⟩, found, call⟩ := call
  rcases vaddrGet_cases found with ⟨rfl, rfl⟩ | ⟨i, isTask, rfl, scan, rfl⟩
  · cases call
    exact .inl ⟨rfl, rfl⟩
  · rw [bind_ok] at call
    obtain ⟨⟨done, s2⟩, mapped, call⟩ := call
    have last := (scan (n - 1) (by omega)).1
    have len : (bitmapSetRun (s.vaddr (space pf cur)) i true n).btmpBytesLen = (s.vaddr (space pf cur)).btmpBytesLen :=
      bitmapSetRun_len _ _ _ _
    have isS2 : s2 = s' := by cases done <;> cases call <;> rfl
    subst isS2
    obtain ⟨rfl, -⟩ := mapPages_starved mapped fed
    cases call
    have mapped' : mapPages cur (poolOf (space pf cur)) n (pageAddr (space pf cur) i)
        (s.setVaddr (space pf cur) (bitmapSetRun (s.vaddr (space pf cur)) i true n)) = .ok (true, s2) := by
      rw [space_pool isTask]
      exact mapped
    obtain ⟨g, ext⟩ := mapPages_extends (space_cur pf cur) (inv.frames.setVaddr len)
      (by rw [setVaddr_vaddr, if_pos rfl, len]; omega) mapped' fed
    refine .inr ⟨i, g, rfl, inv.taken (by omega) (by omega) (fun j run => ?_) len (fun j => ?_) ext⟩
    · have := (scan (j - i) (by omega)).2
      rw [show i + (j - i) = j by omega] at this
      exact this
    · rw [set_bitmapSetRun]
      split
      · rename_i run
        simp [run]
      · rename_i out
        simp [out]

/-- **`get_a_page`** of an unmapped page. -/
theorem getAPage_taken (inv : Inv s) (lt : i < 8 * (s.vaddr (space pf cur)).btmpBytesLen)
    (unmapped : ∀ f, ¬ s.Holds (.page (space pf cur) i) f)
    (call : getAPage s cur pf (pageAddr (space pf cur) i) = .ok (got, s')) (fed : s'.starved = false) :
    ∃ g, got = some (pageAddr (space pf cur) i) ∧ Taken s s' (space pf cur) i 1 g := by
  have isTask : (pf = .user ↔ cur ≠ none) → ¬ (pf = .user ∧ cur = none) := fun h both => h.1 both.1 both.2
  obtain ⟨task, s0, marked, cases⟩ := getAPage_cases call
  rw [inv.frames.layout.bitIdx_page lt] at marked
  subst marked
  have len : (bitmapSet (s.vaddr (space pf cur)) i true).btmpBytesLen = (s.vaddr (space pf cur)).btmpBytesLen :=
    bitmapSet_len _ _ _
  obtain ⟨taken, -⟩ | ⟨f, s1, taken, add, rfl⟩ := cases
  · rw [palloc_none taken] at fed
    cases fed
  · have taken' : palloc (s.setVaddr (space pf cur) (bitmapSet (s.vaddr (space pf cur)) i true))
        (poolOf (space pf cur)) = (some f, s1) := by
      rw [space_pool (isTask task)]
      exact taken
    have ext := mapOne (inv.frames.setVaddr len) (by rw [setVaddr_vaddr, if_pos rfl, len]; exact lt)
      (space_cur pf cur) taken' add fed
    have one : (fun sp' j f' => sp' = space pf cur ∧ j = i ∧ f' = f) =
        fun sp' j f' => sp' = space pf cur ∧ (i ≤ j ∧ j < i + 1) ∧ f' = f := by
      funext sp' j f'
      rw [show (j = i) = (i ≤ j ∧ j < i + 1) by
        rw [eq_iff_iff]
        omega]
    rw [one] at ext
    refine ⟨fun _ => f, rfl, inv.taken (by omega) (by omega) (fun j run set => ?_) len (fun j => ?_) ext⟩
    · have isI : j = i := by omega
      subst isI
      obtain ⟨f', held⟩ := (inv.bits _ j lt).1 set
      exact unmapped f' held
    · rw [set_bitmapSet]
      by_cases e : j = i
      · simp [e]
      · rw [if_neg e]
        constructor
        · exact .inl
        · intro h
          exact h.resolve_right (by omega)

end Taking

/-! Giving pages back. -/

/-- The pages `gone` lost their frames. -/
structure Shrinks (s s' : Memory) (gone : Option Nat → Nat → Prop) : Prop where
  frames : Frames s'
  same : Same s s'
  vaddr : ∀ sp, s'.vaddr sp = s.vaddr sp
  starved : s'.starved = s.starved
  pages : ∀ sp i f, s'.Holds (.page sp i) f ↔ s.Holds (.page sp i) f ∧ ¬ gone sp i
  tables : ∀ p d f, s'.Holds (.table p d) f ↔ s.Holds (.table p d) f
  marked : ∀ pf k, k < s.poolBits pf → (s'.Marked pf k ↔
    s.Marked pf k ∧ ¬ ∃ sp i, gone sp i ∧ s.Holds (.page sp i) (s.frameAt pf k))

section Freeing

variable {s s' s1 s2 : Memory} {sp cur : Option Nat} {i n f : Nat} {pf : PoolFlags} {gone gone' : Option Nat → Nat → Prop}

theorem Shrinks.refl (fr : Frames s) : Shrinks s s fun _ _ => False :=
  ⟨fr, Same.refl s, fun _ => rfl, rfl, fun _ _ _ => by simp, fun _ _ _ => Iff.rfl, fun _ _ _ => by simp⟩

theorem Shrinks.trans (h : Shrinks s s1 gone) (h' : Shrinks s1 s2 gone') :
    Shrinks s s2 fun sp i => gone sp i ∨ gone' sp i := by
  refine ⟨h'.frames, h.same.trans h'.same, fun sp => (h'.vaddr sp).trans (h.vaddr sp), h'.starved.trans h.starved,
    fun sp i f => ?_, fun p d f => (h'.tables p d f).trans (h.tables p d f), fun pf k lt => ?_⟩
  · rw [h'.pages, h.pages, not_or, and_assoc]
  · rw [h'.marked pf k (by rw [h.same.lens]; exact lt), h.marked pf k lt]
    simp only [h.pages, h.same.frameAt]
    constructor
    · rintro ⟨⟨marked, out⟩, out'⟩
      refine ⟨marked, ?_⟩
      rintro ⟨sp, i, isGone | isGone, held⟩
      · exact out ⟨sp, i, isGone, held⟩
      · refine out' ⟨sp, i, isGone, held, fun isGone' => out ⟨sp, i, isGone', held⟩⟩
    · rintro ⟨marked, out⟩
      refine ⟨⟨marked, ?_⟩, ?_⟩
      · rintro ⟨sp, i, isGone, held⟩
        exact out ⟨sp, i, .inl isGone, held⟩
      · rintro ⟨sp, i, isGone, held, -⟩
        exact out ⟨sp, i, .inr isGone, held⟩

/-- What the running task reads for a mapped page. -/
theorem readPte_held (lay : Layout s) (who : sp = none ∨ cur = sp) (held : s.Holds (.page sp i) f) :
    s.readPte cur (pageAddr sp i) = .ok ⟨f, true⟩ := by
  obtain ⟨lt, t, isTable, entry⟩ := held
  rw [Memory.readPte, table_cur lay lt who, isTable]
  simp only [entry]

/-- The pool of a held frame is the one its address says. -/
theorem Frames.ofPool (fr : Frames s) (held : s.Holds (.page sp i) f) :
    OfPool s (poolOf sp == .user) f ∧ 0x102000 ≤ f ∧ (s.userPool.phyAddrStart ≤ f ↔ poolOf sp = .user) := by
  obtain ⟨k, lt, isFrame, -⟩ := fr.marked _ _ held
  have start := fr.layout.kernelStart
  have pools := fr.layout.pools
  have aligned := fr.layout.aligned
  have size : usedMem = 0x200000 := by decide
  rw [size] at start pools
  cases sp with
  | none =>
    simp only [Holder.pool, poolOf, Memory.frameAt, Memory.pool, pgSize] at *
    simp [OfPool, pgSize]
    omega
  | some p =>
    simp only [Holder.pool, poolOf, Memory.frameAt, Memory.pool, pgSize] at *
    simp [OfPool, pgSize]
    omega

theorem Frames.above (fr : Frames s) (held : s.Holds (.page sp i) f) : usedMem ≤ f := by
  obtain ⟨k, lt, isFrame, -⟩ := fr.marked _ _ held
  have start := fr.layout.kernelStart
  have pools := fr.layout.pools
  cases sp <;> simp only [Holder.pool, poolOf, Memory.frameAt, Memory.pool] at isFrame <;> omega

/-- `pfree` clears the bit of the frame. -/
theorem pfree_frame (fr : Frames s) (held : s.Holds (.page sp i) f) : ∃ k, k < s.poolBits (poolOf sp) ∧
    f = s.frameAt (poolOf sp) k ∧ pfree s f = s.setPool (poolOf sp) (bitmapSet (s.pool (poolOf sp)).poolBitmap k false) := by
  obtain ⟨-, -, which⟩ := fr.ofPool held
  obtain ⟨k, lt, isFrame, -⟩ := fr.marked _ _ held
  refine ⟨k, lt, isFrame, ?_⟩
  have pool : (if s.userPool.phyAddrStart ≤ f then PoolFlags.user else .kernel) = poolOf sp := by
    split
    · rename_i isUser
      exact (which.1 isUser).symm
    · rename_i notUser
      cases sp with
      | none => rfl
      | some p => exact absurd (which.2 rfl) notUser
  have bit : (f - (s.pool (poolOf sp)).phyAddrStart) / pgSize = k := by
    rw [isFrame]
    simp only [Memory.frameAt, Holder.pool, pgSize]
    omega
  simp only [pfree, pool, bit]

/-- A page loses its entry and its frame its mark. -/
theorem Frames.unmap {k t : Nat} (fr : Frames s) (held : s.Holds (.page sp i) f)
    (isTable : s.table sp (pdeIdx (pageAddr sp i)) = some t) (inPool : k < s.poolBits (poolOf sp))
    (isFrame : f = s.frameAt (poolOf sp) k)
    (isS : s' = (s.setPool (poolOf sp) (bitmapSet (s.pool (poolOf sp)).poolBitmap k false)).setPte t
      (pteIdx (pageAddr sp i)) ⟨f, false⟩) : Shrinks s s' fun sp' i' => sp' = sp ∧ i' = i := by
  have commute : s' = (s.setPte t (pteIdx (pageAddr sp i)) ⟨f, false⟩).setPool (poolOf sp)
      (bitmapSet (s.pool (poolOf sp)).poolBitmap k false) := by
    rw [isS]
    cases sp <;> rfl
  have same : Same s s' := by
    rw [isS]
    exact (same_setPool (by simp)).trans (same_setPte _ _ _)
  have marks : ∀ pf' k', s'.Marked pf' k' ↔ s.Marked pf' k' ∧ ¬ (pf' = poolOf sp ∧ k' = k) := by
    intro pf' k'
    rw [isS, setPte_marked, marked_setPool]
    split
    · rename_i here
      simp [here]
    · rename_i other
      simp [other]
  have pages : ∀ sp' i' f', s'.Holds (.page sp' i') f' ↔ s.Holds (.page sp' i') f' ∧ ¬ (sp' = sp ∧ i' = i) := by
    intro sp' i' f'
    rw [commute, setPool_holds, holds_setPte fr held.1 isTable]
    split
    · rename_i here
      simp [here]
    · rename_i other
      simp [other]
  have tables : ∀ p d f', s'.Holds (.table p d) f' ↔ s.Holds (.table p d) f' := by
    intro p d f'
    rw [commute, setPool_holds]
    rfl
  have holders : ∀ x f', s'.Holds x f' → s.Holds x f' ∧ x ≠ .page sp i := by
    intro x f' held'
    cases x with
    | page sp' i' =>
      obtain ⟨old, other⟩ := (pages sp' i' f').1 held'
      exact ⟨old, fun e => other (by cases e; exact ⟨rfl, rfl⟩)⟩
    | table p d => exact ⟨(tables p d f').1 held', by simp⟩
  refine ⟨⟨same.layout fr.layout, ?_, ?_⟩, same, ?_, ?_, pages, tables, ?_⟩
  · intro x y f' hx hy
    exact fr.unique x y f' (holders x f' hx).1 (holders y f' hy).1
  · intro x f' held'
    obtain ⟨old, other⟩ := holders x f' held'
    obtain ⟨k', lt', isFrame', marked⟩ := fr.marked x f' old
    refine ⟨k', by rw [same.lens]; exact lt', by rw [same.frameAt]; exact isFrame', (marks _ _).2 ⟨marked, ?_⟩⟩
    -- the frame given back had no other holder
    rintro ⟨pool, rfl⟩
    rw [pool, ← isFrame] at isFrame'
    subst isFrame'
    exact other (fr.unique _ _ _ old held)
  · intro sp'
    rw [isS]
    exact setPool_vaddr _ _ _ _
  · rw [isS]
    exact setPool_starved _ _ _
  · intro pf' k' lt'
    rw [marks]
    refine and_congr_right fun _ => not_congr ⟨?_, ?_⟩
    · rintro ⟨rfl, rfl⟩
      exact ⟨sp, i, ⟨rfl, rfl⟩, isFrame ▸ held⟩
    · rintro ⟨sp', i', ⟨rfl, rfl⟩, held'⟩
      obtain ⟨-, t1, isTable1, entry1⟩ := held
      obtain ⟨-, t2, isTable2, entry2⟩ := held'
      rw [isTable1] at isTable2
      cases isTable2
      rw [entry1] at entry2
      simp only [Pte.mk.injEq, and_true] at entry2
      exact fr.layout.frameAt_inj lt' inPool (entry2.symm.trans isFrame)

/-- One turn of `mfree_page`. -/
theorem unmapOne (fr : Frames s) (who : sp = none ∨ cur = sp) (held : s.Holds (.page sp i) f) :
    ∃ s', pageTablePteRemove (pfree s f) cur (pageAddr sp i) = .ok s' ∧ Shrinks s s' fun sp' i' => sp' = sp ∧ i' = i := by
  obtain ⟨k, inPool, isFrame, freed⟩ := pfree_frame fr held
  obtain ⟨lt, t, isTable, entry⟩ := id held
  refine ⟨_, ?_, fr.unmap held isTable inPool isFrame rfl⟩
  simp only [freed, pageTablePteRemove, setPool_table, setPool_pte, table_cur fr.layout lt who, isTable, entry]

/-- **The loop of `mfree_page`.** -/
theorem unmapPages_shrinks (who : sp = none ∨ cur = sp) : ∀ {n i : Nat} {s : Memory}, Frames s →
    (∀ j, i ≤ j ∧ j < i + n → ∃ f, s.Holds (.page sp j) f) →
    ∃ s', unmapPages cur (poolOf sp == .user) n (pageAddr sp i) s = .ok s' ∧
      Shrinks s s' fun sp' j => sp' = sp ∧ i ≤ j ∧ j < i + n := by
  intro n
  induction n with
  | zero =>
    intro i s fr _
    refine ⟨s, rfl, ?_⟩
    have none : (fun (sp' : Option Nat) j => sp' = sp ∧ i ≤ j ∧ j < i + 0) = fun _ _ => False := by
      funext sp' j
      simp
    rw [none]
    exact .refl fr
  | succ n ih =>
    intro i s fr held
    obtain ⟨f, here⟩ := held i (by omega)
    obtain ⟨s1, removed, one⟩ := unmapOne fr who here
    obtain ⟨s2, rest, more⟩ := ih (i := i + 1) one.frames fun j run => by
      obtain ⟨f', held'⟩ := held j (by omega)
      exact ⟨f', (one.pages _ _ _).2 ⟨held', by omega⟩⟩
    have next : pageAddr sp i + pgSize = pageAddr sp (i + 1) := by
      simp only [pageAddr, Nat.add_mul]
      omega
    refine ⟨s2, ?_, ?_⟩
    · simp only [unmapPages, readPte_held fr.layout who here, ok_bind, assertThat_of (fr.ofPool here).1, removed, next]
      exact rest
    · have whole := one.trans more
      have split : (fun sp' j => (sp' = sp ∧ j = i) ∨ (sp' = sp ∧ i + 1 ≤ j ∧ j < i + 1 + n)) =
          fun sp' j => sp' = sp ∧ i ≤ j ∧ j < i + (n + 1) := by
        funext sp' j
        rw [← and_or_left, show (j = i ∨ i + 1 ≤ j ∧ j < i + 1 + n) = (i ≤ j ∧ j < i + (n + 1)) by
          rw [eq_iff_iff]
          omega]
      rw [split] at whole
      exact whole

end Freeing

/-- Pages `i` to `i + n` of the space were given back. -/
structure Freed (s s' : Memory) (sp : Option Nat) (i n : Nat) : Prop where
  inv : Inv s'
  same : Same s s'
  starved : s'.starved = s.starved
  bits : ∀ sp' j, (s'.vaddr sp').Set j ↔ (s.vaddr sp').Set j ∧ ¬ (sp' = sp ∧ i ≤ j ∧ j < i + n)
  pages : ∀ sp' j f, s'.Holds (.page sp' j) f ↔ s.Holds (.page sp' j) f ∧ ¬ (sp' = sp ∧ i ≤ j ∧ j < i + n)
  tables : ∀ p d f, s'.Holds (.table p d) f ↔ s.Holds (.table p d) f
  marked : ∀ pf k, k < s.poolBits pf → (s'.Marked pf k ↔
    s.Marked pf k ∧ ¬ ∃ j, (i ≤ j ∧ j < i + n) ∧ s.Holds (.page sp j) (s.frameAt pf k))

/-- **`mfree_page`** of mapped pages returns and gives them back. -/
theorem mfreePage_freed {s : Memory} {cur : Option Nat} {pf : PoolFlags} {i n : Nat} (inv : Inv s)
    (task : pf = .user → cur ≠ none) (pos : 0 < n)
    (held : ∀ j, i ≤ j ∧ j < i + n → ∃ f, s.Holds (.page (space pf cur) j) f) :
    ∃ s', mfreePage s cur pf (pageAddr (space pf cur) i) n = .ok s' ∧ Freed s s' (space pf cur) i n := by
  have fr := inv.frames
  obtain ⟨f, first⟩ := held i (by omega)
  obtain ⟨ofPool, low, which⟩ := fr.ofPool first
  obtain ⟨s1, unmapped, shrinks⟩ := unmapPages_shrinks (space_cur pf cur) fr held
  have aligned : pageAddr (space pf cur) i % pgSize = 0 := by
    generalize space pf cur = sp
    cases sp <;> simp only [pageAddr, vaddrStart, kHeapStart, userVaddrStart, pgSize] <;> omega
  have isUser : decide (s.userPool.phyAddrStart ≤ f) = (poolOf (space pf cur) == .user) := by
    rw [decide_eq_decide.2 which]
    rfl
  have idx := fr.layout.bitIdx_page first.1
  have len : (bitmapSetRun (s1.vaddr (space pf cur)) i false n).btmpBytesLen = (s1.vaddr (space pf cur)).btmpBytesLen :=
    bitmapSetRun_len _ _ _ _
  refine ⟨s1.setVaddr (space pf cur) (bitmapSetRun (s1.vaddr (space pf cur)) i false n), ?_, ?_⟩
  · simp only [mfreePage, assertThat_of (show 1 ≤ n ∧ pageAddr (space pf cur) i % pgSize = 0 from ⟨pos, aligned⟩), ok_bind,
      readPte_held fr.layout (space_cur pf cur) first, assertThat_of (show f % pgSize = 0 ∧ 0x102000 ≤ f from ⟨ofPool.1, low⟩),
      isUser, unmapped, defined_of task, idx]
    rfl
  · generalize space pf cur = sp at *
    have same := shrinks.same.trans (same_setVaddr len)
    have bits : ∀ sp' j, ((s1.setVaddr sp (bitmapSetRun (s1.vaddr sp) i false n)).vaddr sp').Set j ↔
        (s.vaddr sp').Set j ∧ ¬ (sp' = sp ∧ i ≤ j ∧ j < i + n) := by
      intro sp' j
      rw [setVaddr_vaddr]
      split
      · rename_i e
        subst e
        rw [set_bitmapSetRun, shrinks.vaddr]
        split
        · rename_i run
          simp [run]
        · rename_i out
          simp [out]
      · rename_i ne
        rw [shrinks.vaddr]
        simp [ne]
    have pages : ∀ sp' j f, (s1.setVaddr sp (bitmapSetRun (s1.vaddr sp) i false n)).Holds (.page sp' j) f ↔
        s.Holds (.page sp' j) f ∧ ¬ (sp' = sp ∧ i ≤ j ∧ j < i + n) := by
      intro sp' j f
      rw [setVaddr_holds len, shrinks.pages]
    refine ⟨⟨shrinks.frames.setVaddr len, fun sp' j lt => ?_⟩, same, ?_, bits, pages, fun p d f => ?_, fun pf' k lt => ?_⟩
    · rw [same.spaces] at lt
      simp only [bits, pages, inv.bits sp' j lt, exists_and_right]
    · rw [← shrinks.starved]
      cases sp <;> rfl
    · rw [setVaddr_holds len, shrinks.tables]
    · rw [setVaddr_marked, shrinks.marked pf' k lt]
      refine and_congr_right fun _ => not_congr ⟨?_, ?_⟩
      · rintro ⟨sp', j, ⟨rfl, run⟩, held'⟩
        exact ⟨j, run, held'⟩
      · rintro ⟨j, run, held'⟩
        exact ⟨sp, j, ⟨rfl, run⟩, held'⟩

/-! Runs. -/

/-- A run of pages in use, with the memory before and after the call that took it. -/
structure Allocation where
  sp : Option Nat
  vaddr : Nat
  cnt : Nat
  before : Memory
  after : Memory

/-- The memory and the allocations that have not been freed. -/
structure Pages where
  mem : Memory
  live : List Allocation

/-- The calls, by kernel threads and by processes. `get_a_page` is asked for an unmapped page
its bitmap describes, and only what is in use is freed. -/
inductive Step : Pages → Pages → Prop where
  | malloc {s s' : Memory} {live : List Allocation} {cur got : Option Nat} {pf : PoolFlags} {n : Nat}
    (call : mallocPage s cur pf n = .ok (got, s')) :
    Step ⟨s, live⟩ ⟨s', (got.map fun vaddr => ⟨space pf cur, vaddr, n, s, s'⟩).toList ++ live⟩
  | get {s s' : Memory} {live : List Allocation} {cur got : Option Nat} {pf : PoolFlags} {i : Nat}
    (inside : i < 8 * (s.vaddr (space pf cur)).btmpBytesLen)
    (unmapped : ∀ e, s.readPte cur (pageAddr (space pf cur) i) = .ok e → e.present = false)
    (call : getAPage s cur pf (pageAddr (space pf cur) i) = .ok (got, s')) :
    Step ⟨s, live⟩ ⟨s', (got.map fun vaddr => ⟨space pf cur, vaddr, 1, s, s'⟩).toList ++ live⟩
  | free {s s' : Memory} {front back : List Allocation} {a : Allocation} {cur : Option Nat} {pf : PoolFlags}
    (task : pf = .user → cur ≠ none) (own : a.sp = space pf cur)
    (call : mfreePage s cur pf a.vaddr a.cnt = .ok s') : Step ⟨s, front ++ a :: back⟩ ⟨s', front ++ back⟩

/-- Freeing the allocation clears what it set: the bits of its virtual pages and of its
frames. `tables` says whether the frames of page tables it created count, too. -/
structure ClearsExactly (s s' : Memory) (a : Allocation) (tables : Bool) : Prop where
  vaddr : ∀ sp j, ((s.vaddr sp).Set j ∧ ¬ (s'.vaddr sp).Set j) ↔ ((a.after.vaddr sp).Set j ∧ ¬ (a.before.vaddr sp).Set j)
  pools : ∀ pf k, k < s.poolBits pf → ((s.Marked pf k ∧ ¬ s'.Marked pf k) ↔
    (a.after.Marked pf k ∧ ¬ a.before.Marked pf k ∧ (tables = false → ¬ a.after.IsTable (s.frameAt pf k))))
  sets : (∀ sp j, (s'.vaddr sp).Set j → (s.vaddr sp).Set j) ∧ ∀ pf k, k < s.poolBits pf → s'.Marked pf k → s.Marked pf k

/-- What holds of the pages in every state. -/
structure PagesSound (s : Pages) (tables : Bool) : Prop where
  inPool : ∀ sp i f, s.mem.Holds (.page sp i) f →
    ∃ k, k < s.mem.poolBits (poolOf sp) ∧ f = s.mem.frameAt (poolOf sp) k ∧ s.mem.Marked (poolOf sp) k
  distinct : ∀ sp sp' i i' f, s.mem.Holds (.page sp i) f → s.mem.Holds (.page sp' i') f → sp = sp' ∧ i = i'
  notTable : ∀ sp i f, s.mem.Holds (.page sp i) f → ¬ s.mem.IsTable f ∧ ∀ k, k < 255 → f ≠ kernelTable k
  kernelBits : ∀ i, i < 8 * s.mem.kernelVaddr.btmpBytesLen → (s.mem.kernelVaddr.Set i ↔ ∃ f, s.mem.Holds (.page none i) f)
  frees : ∀ a ∈ s.live, ∀ cur pf, (pf = .user → cur ≠ none) → a.sp = space pf cur →
    ∃ s', mfreePage s.mem cur pf a.vaddr a.cnt = .ok s' ∧ ClearsExactly s.mem s' a tables

/-- The allocation is what its call took, and is still mapped. -/
def AllocOk (s : Memory) (a : Allocation) : Prop :=
  ∃ i g, a.vaddr = pageAddr a.sp i ∧ Taken a.before a.after a.sp i a.cnt g ∧ Same a.before s ∧
    ∀ j, i ≤ j ∧ j < i + a.cnt → s.Holds (.page a.sp j) (g j)

/-- Two allocations have no page in common. -/
def Allocation.Apart (a b : Allocation) : Prop :=
  a.sp = b.sp → a.vaddr + a.cnt * pgSize ≤ b.vaddr ∨ b.vaddr + b.cnt * pgSize ≤ a.vaddr

structure RunInv (s : Pages) : Prop where
  inv : Inv s.mem
  allocs : ∀ a ∈ s.live, AllocOk s.mem a
  apart : s.live.Pairwise Allocation.Apart

section Runs

variable {s s' : Memory} {live front back : List Allocation} {a b : Allocation} {sp cur : Option Nat} {i n : Nat}
  {g : Nat → Nat} {pf : PoolFlags} {q q' : Pages}

theorem Allocation.Apart.symm (h : a.Apart b) : b.Apart a := fun e => (h e.symm).symm

/-- One more allocation. -/
theorem RunInv.take (inv : RunInv ⟨s, live⟩) (taken : Taken s s' sp i n g) :
    RunInv ⟨s', ⟨sp, pageAddr sp i, n, s, s'⟩ :: live⟩ := by
  have older : ∀ b ∈ live, AllocOk s' b := by
    intro b mem
    obtain ⟨i', g', isAddr, took, same, held⟩ := inv.allocs b mem
    exact ⟨i', g', isAddr, took, same.trans taken.same, fun j run => (taken.pages _ _ _).2 (.inl (held j run))⟩
  refine ⟨taken.inv, ?_, List.pairwise_cons.2 ⟨?_, inv.apart⟩⟩
  · intro b mem
    rcases List.mem_cons.1 mem with rfl | mem
    · exact ⟨i, g, rfl, taken, taken.same, fun j run => (taken.pages _ _ _).2 (.inr ⟨rfl, run, rfl⟩)⟩
    · exact older b mem
  · -- the pages of an older allocation were marked, those taken were not
    intro b mem sameSpace
    simp only at sameSpace ⊢
    obtain ⟨i', g', isAddr, took, same, held⟩ := inv.allocs b mem
    rw [isAddr, ← sameSpace]
    rw [← sameSpace] at held
    by_contra overlap
    simp only [pageAddr, pgSize] at overlap
    have pos := taken.pos
    have pos' := took.pos
    have common : ∃ j, (i ≤ j ∧ j < i + n) ∧ (i' ≤ j ∧ j < i' + b.cnt) := by
      rcases Nat.le_total i i' with le | le
      · exact ⟨i', by omega⟩
      · exact ⟨i, by omega⟩
    obtain ⟨j, run, run'⟩ := common
    have mapped := held j run'
    exact taken.clear j run ((inv.inv.bits sp j mapped.1).2 ⟨_, mapped⟩)

/-- One allocation less. -/
theorem RunInv.free (inv : RunInv ⟨s, front ++ a :: back⟩) (isAddr : a.vaddr = pageAddr a.sp i)
    (freed : Freed s s' a.sp i a.cnt) : RunInv ⟨s', front ++ back⟩ := by
  have sub : (front ++ back).Sublist (front ++ a :: back) :=
    List.Sublist.append (List.Sublist.refl _) (List.sublist_cons_self _ _)
  have apart : ∀ b ∈ front ++ back, a.Apart b := by
    intro b mem
    have whole := List.pairwise_append.1 inv.apart
    rcases List.mem_append.1 mem with mem | mem
    · exact (whole.2.2 b mem a List.mem_cons_self).symm
    · exact (List.pairwise_cons.1 whole.2.1).1 b mem
  refine ⟨freed.inv, fun b mem => ?_, inv.apart.sublist sub⟩
  obtain ⟨i', g', isAddr', took, same, held⟩ := inv.allocs b (sub.subset mem)
  refine ⟨i', g', isAddr', took, same.trans freed.same, fun j run => (freed.pages _ _ _).2 ⟨held j run, ?_⟩⟩
  rintro ⟨sameSpace, run'⟩
  have := apart b mem sameSpace.symm
  rw [isAddr, isAddr', sameSpace] at this
  simp only [pageAddr, pgSize] at this
  omega

/-- What a live allocation is when it is freed. -/
theorem RunInv.freed (inv : RunInv q) (mem : a ∈ q.live) (task : pf = .user → cur ≠ none) (own : a.sp = space pf cur) :
    ∃ s' i g, mfreePage q.mem cur pf a.vaddr a.cnt = .ok s' ∧ Freed q.mem s' a.sp i a.cnt ∧ a.vaddr = pageAddr a.sp i ∧
      Taken a.before a.after a.sp i a.cnt g ∧ Same a.before q.mem ∧
      ∀ j, i ≤ j ∧ j < i + a.cnt → q.mem.Holds (.page a.sp j) (g j) := by
  obtain ⟨i, g, isAddr, took, same, held⟩ := inv.allocs a mem
  obtain ⟨s', call, freed⟩ := mfreePage_freed (i := i) (n := a.cnt) inv.inv task took.pos
    (fun j run => ⟨g j, by rw [← own]; exact held j run⟩)
  rw [← own] at call freed
  exact ⟨s', i, g, by rw [isAddr]; exact call, freed, isAddr, took, same, held⟩

theorem Step.inv (step : Step q q') (before : q.mem.starved = false → RunInv q) (fed : q'.mem.starved = false) :
    RunInv q' := by
  cases step with
  | malloc call =>
    have inv := before (mallocPage_starved call fed)
    rcases mallocPage_taken inv.inv call fed with ⟨rfl, rfl⟩ | ⟨i, g, rfl, taken⟩
    · exact inv
    · exact inv.take taken
  | get inside unmapped call =>
    have inv := before (getAPage_starved call fed)
    have lay := inv.inv.frames.layout
    obtain ⟨g, rfl, taken⟩ := getAPage_taken inv.inv inside (fun f held => by
      have := unmapped _ (readPte_held lay (space_cur _ _) held)
      cases this) call fed
    exact inv.take taken
  | free task own call =>
    have inv := before (by rw [← mfreePage_starved call]; exact fed)
    obtain ⟨s', i, g, call', freed, isAddr, -⟩ := inv.freed (by simp) task own
    rw [call] at call'
    cases call'
    exact inv.free isAddr freed

/-- A page has one frame. -/
theorem holds_unique {j f f' : Nat} (held : s.Holds (.page sp j) f) (held' : s.Holds (.page sp j) f') : f = f' := by
  obtain ⟨-, t, isTable, entry⟩ := held
  obtain ⟨-, t', isTable', entry'⟩ := held'
  rw [isTable] at isTable'
  cases isTable'
  rw [entry] at entry'
  simpa using entry'

theorem RunInv.clears (inv : RunInv q) (freed : Freed q.mem s' a.sp i a.cnt) (took : Taken a.before a.after a.sp i a.cnt g)
    (same : Same a.before q.mem) (held : ∀ j, i ≤ j ∧ j < i + a.cnt → q.mem.Holds (.page a.sp j) (g j)) :
    ClearsExactly q.mem s' a false := by
  refine ⟨fun sp j => ?_, fun pf k lt => ?_, fun sp j set => ((freed.bits sp j).1 set).1,
    fun pf k lt marked => ((freed.marked pf k lt).1 marked).1⟩
  · rw [freed.bits, took.bits]
    constructor
    · rintro ⟨set, notKept⟩
      have run : sp = a.sp ∧ i ≤ j ∧ j < i + a.cnt := by
        by_contra out
        exact notKept ⟨set, out⟩
      obtain ⟨rfl, run⟩ := run
      exact ⟨.inr ⟨rfl, run⟩, took.clear j run⟩
    · rintro ⟨set | ⟨rfl, run⟩, clear⟩
      · exact absurd set clear
      · exact ⟨(inv.inv.bits _ j (held j run).1).2 ⟨_, held j run⟩, fun kept => kept.2 ⟨rfl, run⟩⟩
  · have lt' : k < a.before.poolBits pf := by
      rw [← same.lens]
      exact lt
    have set := took.marked pf k lt'
    rw [same.frameAt, freed.marked pf k lt, same.frameAt]
    have isSet : (a.after.Marked pf k ∧ ¬ a.before.Marked pf k ∧ (false = false → ¬ a.after.IsTable (a.before.frameAt pf k))) ↔
        ∃ j, (i ≤ j ∧ j < i + a.cnt) ∧ g j = a.before.frameAt pf k := by
      rw [← set]
      constructor
      · rintro ⟨now, before, notTable⟩
        exact ⟨before, now, notTable rfl⟩
      · rintro ⟨before, now, notTable⟩
        exact ⟨now, before, fun _ => notTable⟩
    rw [isSet]
    constructor
    · rintro ⟨marked, notKept⟩
      by_contra out
      refine notKept ⟨marked, ?_⟩
      rintro ⟨j, run, held'⟩
      exact out ⟨j, run, holds_unique (held j run) held'⟩
    · rintro ⟨j, run, isFrame⟩
      have here := held j run
      obtain ⟨k', ltK, isFrame', marked⟩ := inv.inv.frames.marked _ _ here
      rw [← isFrame]
      rw [isFrame, ← same.frameAt] at isFrame'
      obtain ⟨rfl, rfl⟩ := inv.inv.frames.layout.frameAt_inj lt ltK isFrame'
      exact ⟨marked, fun kept => kept.2 ⟨j, run, here⟩⟩

theorem RunInv.sound (inv : RunInv q) : PagesSound q false := by
  have fr := inv.inv.frames
  refine ⟨fun sp i f held => fr.marked _ _ held, fun sp sp' i i' f held held' => ?_, fun sp i f held => ⟨?_, ?_⟩,
    inv.inv.bits none, ?_⟩
  · have := fr.unique _ _ _ held held'
    simpa using this
  · rintro ⟨p, d, isTable⟩
    have := fr.unique _ _ _ held isTable
    cases this
  · intro k lt isKernel
    have above := fr.above held
    have below := kernelTable_below (d := k + 768) (by omega)
    rw [Nat.add_sub_cancel] at below
    omega
  · intro a mem cur pf task own
    obtain ⟨s', i, g, call, freed, -, took, same, held⟩ := inv.freed mem task own
    exact ⟨s', call, inv.clears freed took same held⟩

theorem memPoolInit_layout (allMem : Nat) : Layout (memPoolInit allMem) := by
  have few : kernelFreePages allMem < 2 ^ 15 := by
    simp only [kernelFreePages, allFreePages]
    omega
  have aligned : usedMem % pgSize = 0 := by decide
  refine ⟨rfl, ?_, ?_, ?_, fun _ => rfl⟩
  · simp only [Memory.poolBits, Memory.pool, memPoolInit, pgSize]
    omega
  · simp only [memPoolInit, pgSize] at *
    omega
  · simp only [memPoolInit]
    omega

/-- Nothing is mapped at first. -/
theorem memPoolInit_holds (allMem : Nat) (x : Holder) (f : Nat) : ¬ (memPoolInit allMem).Holds x f := by
  have lay := memPoolInit_layout allMem
  cases x with
  | table p d =>
    rintro ⟨-, isTable⟩
    simp [memPoolInit] at isTable
  | page sp i =>
    rintro ⟨lt, t, isTable, entry⟩
    cases sp with
    | some p =>
      rw [table_user ((lay.pdeIdx_page lt).2 (by simp))] at isTable
      have := isTable.2
      simp [memPoolInit] at this
    | none =>
      have kernel := (lay.pdeIdx_page lt).1 rfl
      rw [table_kernel kernel.1, Option.some.injEq] at isTable
      subst isTable
      -- the entries the loader has written end where the heap begins
      have heap : ¬ (kernelTable (pdeIdx (pageAddr none i) - 768) = kernelTable 0 ∧ pteIdx (pageAddr none i) < 256) := by
        rintro ⟨first, low⟩
        have lt' := lay.heap
        have bound : i < 8 * (memPoolInit allMem).kernelVaddr.btmpBytesLen := lt
        simp only [kernelTable, pdeIdx, pteIdx, pageAddr, vaddrStart, kHeapStart, pgSize] at first low kernel
        omega
      simp only [memPoolInit, if_neg heap] at entry
      cases entry

theorem memPoolInit_inv (allMem : Nat) : Inv (memPoolInit allMem) := by
  have none := memPoolInit_holds allMem
  refine ⟨⟨memPoolInit_layout allMem, fun x _ f held => absurd held (none x f), fun x f held => absurd held (none x f)⟩, ?_⟩
  intro sp i _
  refine ⟨fun set => ?_, fun ⟨f, held⟩ => absurd held (none _ f)⟩
  cases sp <;> simp [Memory.vaddr, memPoolInit, Bitmap.Set, bitmapScanTest] at set

/-- **Page mappings are sound.** In every state that calls of `malloc_page`, `get_a_page` and
`mfree_page` lead to, as long as no `palloc` has failed, each present entry refers to a
marked frame of the right pool, no two to one frame and none to a page table, the bits of
kernel pages say which of them are mapped, and freeing an allocation clears the bits of its
pages and frames. The page tables it created stay. -/
theorem pages_sound (allMem : Nat) (run : Relation.ReflTransGen Step ⟨memPoolInit allMem, []⟩ q)
    (fed : q.mem.starved = false) : PagesSound q false := by
  have inv : q.mem.starved = false → RunInv q := by
    clear fed
    induction run with
    | refl => exact fun _ => ⟨memPoolInit_inv allMem, nofun, .nil⟩
    | tail _ step ih => exact fun fed => step.inv ih fed
  exact (inv fed).sound

/-- The first page of a process, on a machine of 32 MB. -/
def firstPage : Exec (Option Nat × Memory) := mallocPage (memPoolInit 0x2000000) (some 0) .user 1

theorem pages_sound_small : ∃ q, Relation.ReflTransGen Step ⟨memPoolInit 0x2000000, []⟩ q ∧ q.live.length = 1 ∧
    q.mem.starved = false ∧ PagesSound q false := by
  have call : returns firstPage (fun r => r.1 == some userVaddrStart && !r.2.starved) = true := by decide
  obtain ⟨⟨got, s⟩, call, test⟩ := returns_true.1 call
  rw [Bool.and_eq_true, beq_iff_eq, Bool.not_eq_true'] at test
  obtain ⟨isAddr, fed⟩ := test
  simp only at isAddr fed
  subst isAddr
  have run : Relation.ReflTransGen Step ⟨memPoolInit 0x2000000, []⟩
      ⟨s, [⟨some 0, userVaddrStart, 1, memPoolInit 0x2000000, s⟩]⟩ := .single (.malloc call)
  exact ⟨_, run, rfl, fed, pages_sound 0x2000000 run fed⟩

/-- The first page of a process brings a page table, whose frame stays marked when the page
is freed. -/
theorem mfreePage_keeps_table : ¬ ∀ (allMem : Nat) (q : Pages), Relation.ReflTransGen Step ⟨memPoolInit allMem, []⟩ q →
    q.mem.starved = false → PagesSound q true := by
  intro claim
  have call : returns firstPage (fun r => r.1 == some userVaddrStart && !r.2.starved &&
      bitmapScanTest r.2.kernelPool.poolBitmap 0 && decide (0 < r.2.poolBits .kernel) &&
      returns (mfreePage r.2 (some 0) .user userVaddrStart 1) fun s' =>
        bitmapScanTest s'.kernelPool.poolBitmap 0) = true := by decide
  obtain ⟨⟨got, s⟩, call, test⟩ := returns_true.1 call
  simp only [Bool.and_eq_true, beq_iff_eq, Bool.not_eq_true', decide_eq_true_eq] at test
  obtain ⟨⟨⟨⟨rfl, fed⟩, marked⟩, inPool⟩, freed⟩ := test
  obtain ⟨s', free, kept⟩ := returns_true.1 freed
  have run : Relation.ReflTransGen Step ⟨memPoolInit 0x2000000, []⟩
      ⟨s, [⟨some 0, userVaddrStart, 1, memPoolInit 0x2000000, s⟩]⟩ := .single (.malloc call)
  obtain ⟨s'', free', clears⟩ := (claim _ _ run fed).frees _ List.mem_cons_self (some 0) .user (by simp) rfl
  rw [free] at free'
  cases free'
  have clear : ¬ (memPoolInit 0x2000000).Marked .kernel 0 := by decide
  exact ((clears.pools .kernel 0 inPool).2 ⟨marked, clear, by simp⟩).2 kept

end Runs

end Sparrow.Paging