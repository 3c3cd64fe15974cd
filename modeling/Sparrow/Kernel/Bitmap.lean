import Sparrow.Lib.Image

/-!
# Bitmaps

`lib/kernel/bitmap.c`. A bitmap is a byte length and a pointer into memory; the bytes
that follow the bitmap are part of the image, since `bitmap_scan` tests a bit before it
compares the index with the length.
-/

namespace Sparrow
set_option autoImplicit false

/-- `struct bitmap`. -/
structure Bitmap where
  btmpBytesLen : Nat
  bits : Image

/-- `bitmap_scan_test`: the bit, read as a truth value. -/
def bitmapScanTest (b : Bitmap) (bitIdx : Nat) : Bool :=
  b.bits (bitIdx / 8) &&& (1#8 <<< (bitIdx % 8)) != 0#8

/-- `bitmap_set`; the value is 0 or 1. -/
def bitmapSet (b : Bitmap) (bitIdx : Nat) (value : Bool) : Bitmap :=
  { b with bits := fun x =>
      if x = bitIdx / 8 then
        if value then b.bits x ||| (1#8 <<< (bitIdx % 8)) else b.bits x &&& ~~~(1#8 <<< (bitIdx % 8))
      else b.bits x }

/-- The first inner loop of `bitmap_scan`: skip the ones from `areaStart` on. -/
def skipOnes (b : Bitmap) : Nat → Nat → Nat
  | 0, areaStart => areaStart
  | fuel + 1, areaStart =>
    if bitmapScanTest b areaStart && decide (areaStart / 8 < b.btmpBytesLen) then
      skipOnes b fuel (areaStart + 1)
    else areaStart

/-- The second inner loop: extend the run of zeros at `areaStart`, whose size is
`areaSize`, up to `cnt`. `none` when the run reaches the end of the bitmap first, which
makes `bitmap_scan` return -1. -/
def growArea (b : Bitmap) (areaStart cnt : Nat) : Nat → Nat → Option Nat
  | 0, areaSize => some areaSize
  | fuel + 1, areaSize =>
    if areaSize < cnt then
      if (areaStart + areaSize) / 8 < b.btmpBytesLen then
        if bitmapScanTest b (areaStart + areaSize) then some areaSize
        else growArea b areaStart cnt fuel (areaSize + 1)
      else none
    else some areaSize

/-- The outer loop of `bitmap_scan`. Each turn moves `areaStart` past a zero, so
`8 * btmp_bytes_len + 1` turns are enough. -/
def scanFrom (b : Bitmap) (cnt : Nat) : Nat → Nat → Option Nat
  | 0, _ => none
  | fuel + 1, areaStart =>
    let areaStart := skipOnes b (8 * b.btmpBytesLen + 1) areaStart
    if b.btmpBytesLen ≤ areaStart / 8 then none
    else match growArea b areaStart cnt cnt 1 with
      | none => none
      | some areaSize =>
        if areaSize = cnt then some areaStart
        else scanFrom b cnt fuel (areaStart + (areaSize + 1))

/-- `bitmap_scan`: the first index of `cnt` consecutive zeros; `none` stands for -1. -/
def bitmapScan (b : Bitmap) (cnt : Nat) : Option Nat :=
  scanFrom b cnt (8 * b.btmpBytesLen + 1) 0

/-- Bit `i` as a proposition. -/
def Bitmap.Set (b : Bitmap) (i : Nat) : Prop := bitmapScanTest b i = true

instance (b : Bitmap) (i : Nat) : Decidable (b.Set i) := inferInstanceAs (Decidable (_ = true))

/-- `BITMAP_MASK << k` has the one bit `k`. -/
theorem mask_getLsbD {k j : Nat} (hk : k < 8) : (1#8 <<< k).getLsbD j = decide (j = k) := by
  by_cases hj : j < 8
  · simp only [BitVec.getLsbD_shiftLeft, hj, decide_true, Bool.true_and, BitVec.getLsbD_one]
    by_cases lt : j < k
    · simp [lt]; omega
    · simp [lt]; omega
  · rw [BitVec.getLsbD_of_ge _ _ (by omega)]
    simp; omega

theorem bitmapScanTest_eq_getLsbD (b : Bitmap) (i : Nat) :
    bitmapScanTest b i = (b.bits (i / 8)).getLsbD (i % 8) := by
  have mask := fun j => mask_getLsbD (j := j) (Nat.mod_lt i (by omega : 8 > 0))
  simp only [bitmapScanTest]
  generalize 1#8 <<< (i % 8) = m at mask
  generalize b.bits (i / 8) = x
  cases h : x.getLsbD (i % 8) with
  | true =>
    simp only [bne_iff_ne, ne_eq]
    intro zero
    have := congrArg (fun y : Byte => y.getLsbD (i % 8)) zero
    rw [BitVec.getLsbD_and, h, mask] at this
    simp at this
  | false =>
    simp only [bne_eq_false_iff_eq]
    apply BitVec.eq_of_getLsbD_eq
    intro j hj
    rw [BitVec.getLsbD_and, mask]
    by_cases e : j = i % 8
    · subst e; simp [h]
    · simp [e]

/-- Setting a bit changes that bit and no other. -/
theorem bitmapScanTest_set (b : Bitmap) (i j : Nat) (v : Bool) :
    bitmapScanTest (bitmapSet b i v) j = if j = i then v else bitmapScanTest b j := by
  simp only [bitmapScanTest_eq_getLsbD, bitmapSet]
  by_cases byte : j / 8 = i / 8
  · have lj : j % 8 < 8 := Nat.mod_lt _ (by omega)
    have mask := mask_getLsbD (j := j % 8) (Nat.mod_lt i (by omega : 8 > 0))
    have same : j = i ↔ j % 8 = i % 8 := by omega
    rw [if_pos byte]
    cases v with
    | true =>
      rw [if_pos rfl, BitVec.getLsbD_or, mask]
      by_cases e : j % 8 = i % 8 <;> simp [same, e]
    | false =>
      rw [if_neg (by decide), BitVec.getLsbD_and, BitVec.getLsbD_not, mask]
      by_cases e : j % 8 = i % 8 <;> simp [same, e, lj]
  · have ne : j ≠ i := fun e => byte (by rw [e])
    rw [if_neg byte, if_neg ne]

@[simp] theorem bitmapSet_len (b : Bitmap) (i : Nat) (v : Bool) :
    (bitmapSet b i v).btmpBytesLen = b.btmpBytesLen := rfl

theorem set_bitmapSet (b : Bitmap) (i j : Nat) (v : Bool) :
    (bitmapSet b i v).Set j ↔ if j = i then v = true else b.Set j := by
  simp only [Bitmap.Set, bitmapScanTest_set]
  split <;> rfl

/-- A bitmap is its bits. -/
theorem Bitmap.ext_set {b b' : Bitmap} (len : b.btmpBytesLen = b'.btmpBytesLen) (bits : ∀ i, b.Set i ↔ b'.Set i) :
    b = b' := by
  have bytes : b.bits = b'.bits := by
    funext x
    apply BitVec.eq_of_getLsbD_eq
    intro j hj
    have := bits (8 * x + j)
    simp only [Bitmap.Set, bitmapScanTest_eq_getLsbD, show (8 * x + j) / 8 = x by omega,
      show (8 * x + j) % 8 = j by omega] at this
    exact Bool.eq_iff_iff.2 this
  cases b
  cases b'
  simp only at len bytes
  subst len bytes
  rfl

/-- Taking a free bit and giving it back changes nothing. -/
theorem bitmapSet_undo {b : Bitmap} {i : Nat} (clear : ¬ b.Set i) : bitmapSet (bitmapSet b i true) i false = b := by
  refine Bitmap.ext_set rfl fun j => ?_
  rw [set_bitmapSet, set_bitmapSet]
  by_cases e : j = i
  · subst e; simp [clear]
  · simp [e]

/-- `skipOnes` stops at the first zero at or after its start, or at the end. -/
theorem skipOnes_spec (b : Bitmap) :
    ∀ fuel start, 8 * b.btmpBytesLen + 1 ≤ start + fuel → start ≤ 8 * b.btmpBytesLen →
      let stop := skipOnes b fuel start
      start ≤ stop ∧ stop ≤ 8 * b.btmpBytesLen ∧ (∀ i, start ≤ i → i < stop → b.Set i) ∧
        (stop < 8 * b.btmpBytesLen → ¬ b.Set stop) := by
  intro fuel
  induction fuel with
  | zero => intro start enough low; omega
  | succ fuel ih =>
    intro start enough low
    simp only [skipOnes]
    split
    · rename_i more
      simp only [Bool.and_eq_true, decide_eq_true_eq] at more
      obtain ⟨h1, h2, h3, h4⟩ := ih (start + 1) (by omega) (by omega)
      refine ⟨by omega, h2, ?_, h4⟩
      intro i lo hi
      by_cases e : i = start
      · subst e; exact more.1
      · exact h3 i (by omega) hi
    · rename_i stop
      simp only [Bool.and_eq_true, decide_eq_true_eq, not_and] at stop
      refine ⟨Nat.le_refl _, low, fun i lo hi => by omega, fun lt set => ?_⟩
      exact stop set (by omega)

/-- **First fit**: a scan for one bit finds the least zero bit of the bitmap. -/
theorem bitmapScan_one_some {b : Bitmap} {i : Nat} (h : bitmapScan b 1 = some i) :
    i < 8 * b.btmpBytesLen ∧ ¬ b.Set i ∧ ∀ j, j < i → b.Set j := by
  simp only [bitmapScan, scanFrom] at h
  obtain ⟨-, h2, h3, h4⟩ := skipOnes_spec b (8 * b.btmpBytesLen + 1) 0 (by omega) (by omega)
  split at h
  · cases h
  · rename_i inside
    simp only [growArea, Nat.lt_irrefl, if_false, if_true, Option.some.injEq] at h
    rw [h] at h2 h3 h4 inside
    have lt : i < 8 * b.btmpBytesLen := by omega
    exact ⟨lt, h4 lt, fun j hj => h3 j (Nat.zero_le _) hj⟩

/-- A scan for one bit fails only when every bit is set. -/
theorem bitmapScan_one_none {b : Bitmap} (h : bitmapScan b 1 = none) :
    ∀ j, j < 8 * b.btmpBytesLen → b.Set j := by
  simp only [bitmapScan, scanFrom] at h
  obtain ⟨-, h2, h3, -⟩ := skipOnes_spec b (8 * b.btmpBytesLen + 1) 0 (by omega) (by omega)
  split at h
  · rename_i past
    intro j hj
    exact h3 j (Nat.zero_le _) (by omega)
  · simp [growArea] at h

/-- `skipOnes` does not stop at a one inside the bitmap. -/
theorem skipOnes_clear {b : Bitmap} :
    ∀ {fuel start : Nat}, 8 * b.btmpBytesLen + 1 ≤ start + fuel → skipOnes b fuel start / 8 < b.btmpBytesLen →
      ¬ b.Set (skipOnes b fuel start) := by
  intro fuel
  induction fuel with
  | zero =>
    intro start enough inside
    simp only [skipOnes] at inside
    omega
  | succ fuel ih =>
    intro start enough inside
    simp only [skipOnes] at inside ⊢
    split
    · rename_i more
      rw [if_pos more] at inside
      exact ih (by omega) inside
    · rename_i stop
      rw [if_neg stop] at inside
      simp only [Bool.and_eq_true, decide_eq_true_eq, not_and] at stop
      exact fun set => stop set inside

/-- The run that `growArea` returns consists of zeros inside the bitmap. -/
theorem growArea_clear {b : Bitmap} {start cnt : Nat} :
    ∀ {fuel size stop : Nat}, growArea b start cnt fuel size = some stop →
      ∀ k, size ≤ k → k < stop → (start + k) / 8 < b.btmpBytesLen ∧ ¬ b.Set (start + k) := by
  intro fuel
  induction fuel with
  | zero =>
    intro size stop h k lo hi
    simp only [growArea, Option.some.injEq] at h
    omega
  | succ fuel ih =>
    intro size stop h k lo hi
    simp only [growArea] at h
    split at h
    · split at h
      · rename_i inside
        split at h
        · simp only [Option.some.injEq] at h
          omega
        · rename_i clear
          by_cases e : k = size
          · subst e
            exact ⟨inside, clear⟩
          · exact ih h k (by omega) hi
      · cases h
    · simp only [Option.some.injEq] at h
      omega

/-- A scan finds a run of zeros inside the bitmap. -/
theorem bitmapScan_some {b : Bitmap} {cnt i : Nat} (h : bitmapScan b cnt = some i) :
    ∀ k, k < cnt → i + k < 8 * b.btmpBytesLen ∧ ¬ b.Set (i + k) := by
  have turns : ∀ fuel start, scanFrom b cnt fuel start = some i →
      ∀ k, k < cnt → i + k < 8 * b.btmpBytesLen ∧ ¬ b.Set (i + k) := by
    intro fuel
    induction fuel with
    | zero => intro start found; cases found
    | succ fuel ih =>
      intro start found k hk
      simp only [scanFrom] at found
      split at found
      · cases found
      · rename_i inside
        split at found
        · cases found
        · rename_i size grown
          split at found
          · rename_i full
            simp only [Option.some.injEq] at found
            have clear : ¬ b.Set (skipOnes b (8 * b.btmpBytesLen + 1) start) := skipOnes_clear (by omega) (by omega)
            subst full
            rw [found] at clear grown inside
            by_cases e : k = 0
            · subst e
              exact ⟨by omega, clear⟩
            · have := growArea_clear grown k (by omega) hk
              exact ⟨by omega, this.2⟩
          · exact ih _ found k hk
  exact turns _ _ h

/-- The loops of `vaddr_get` and `vaddr_remove` over `cnt` bits. -/
def bitmapSetRun (b : Bitmap) (start : Nat) (value : Bool) : Nat → Bitmap
  | 0 => b
  | cnt + 1 => bitmapSet (bitmapSetRun b start value cnt) (start + cnt) value

@[simp] theorem bitmapSetRun_len (b : Bitmap) (start : Nat) (v : Bool) (cnt : Nat) :
    (bitmapSetRun b start v cnt).btmpBytesLen = b.btmpBytesLen := by
  induction cnt with
  | zero => rfl
  | succ cnt ih => exact ih

theorem set_bitmapSetRun (b : Bitmap) (start : Nat) (v : Bool) (cnt j : Nat) :
    (bitmapSetRun b start v cnt).Set j ↔ if start ≤ j ∧ j < start + cnt then v = true else b.Set j := by
  induction cnt with
  | zero => rw [if_neg (by omega)]; rfl
  | succ cnt ih =>
    rw [bitmapSetRun, set_bitmapSet]
    by_cases e : j = start + cnt
    · rw [if_pos e, if_pos (by omega)]
    · rw [if_neg e, ih]
      by_cases inside : start ≤ j ∧ j < start + cnt
      · rw [if_pos inside, if_pos (by omega)]
      · rw [if_neg inside, if_neg (by omega)]

/-- How many of the first `n` bits are clear. -/
def Bitmap.clear (b : Bitmap) (n : Nat) : Nat := (List.range n).countP fun i => !decide (b.Set i)

theorem Bitmap.clear_pos {b : Bitmap} {n : Nat} : 0 < b.clear n ↔ ∃ i, i < n ∧ ¬ b.Set i := by
  simp [Bitmap.clear, List.countP_pos_iff]

/-- Setting a clear bit leaves one less. -/
theorem Bitmap.clear_set {b : Bitmap} {i : Nat} (clear : ¬ b.Set i) :
    ∀ {n : Nat}, (bitmapSet b i true).clear n + (if i < n then 1 else 0) = b.clear n := by
  intro n
  induction n with
  | zero => rfl
  | succ n ih =>
    simp only [Bitmap.clear, List.range_succ, List.countP_append, List.countP_singleton, set_bitmapSet, Bool.not_eq_true',
      decide_eq_false_iff_not] at ih ⊢
    by_cases last : n = i
    · subst last
      rw [if_neg (by omega)] at ih
      rw [if_neg (by simp), if_pos clear, if_pos (by omega)]
      omega
    · simp only [if_neg last]
      by_cases lt : i < n
      · rw [if_pos lt] at ih
        rw [if_pos (show i < n + 1 by omega)]
        omega
      · rw [if_neg lt] at ih
        rw [if_neg (show ¬ i < n + 1 by omega)]
        omega

end Sparrow
