import Sparrow.Lib.Exec

/-!
# Byte images

An `Image` gives a byte for every address: a memory buffer or a whole disk. Copying
(`memcpy`) and filling (`memset`) are functions on images, a 32-bit word is read from
four consecutive bytes, least significant first, and `wordsImage` lays out a sequence
of words the way a C array of `uint32_t` lies in memory.
-/

namespace Sparrow
set_option autoImplicit false

abbrev Byte := BitVec 8

abbrev Image := Nat → Byte

/-- `memcpy(m + a, src, n)`. -/
def splice (m : Image) (a n : Nat) (src : Image) : Image :=
  fun x => if a ≤ x ∧ x < a + n then src (x - a) else m x

/-- `memset(m + a, v, n)`. -/
def fill (m : Image) (a n : Nat) (v : Byte) : Image :=
  fun x => if a ≤ x ∧ x < a + n then v else m x

/-- The image seen through a pointer `a` bytes further on. -/
def shifted (m : Image) (a : Nat) : Image := fun x => m (a + x)

/-- The little-endian 32-bit word at `a`. -/
def word32 (m : Image) (a : Nat) : Nat :=
  (m a).toNat + 256 * (m (a + 1)).toNat + 65536 * (m (a + 2)).toNat + 16777216 * (m (a + 3)).toNat

/-- Byte `k` of the word `v`. -/
def leByte (v k : Nat) : Byte := BitVec.ofNat 8 (v / 256 ^ k)

/-- The words `w 0, w 1, …` laid out one after another. -/
def wordsImage (w : Nat → Nat) : Image := fun x => leByte (w (x / 4)) (x % 4)

section Splice

variable {m src : Image} {a n x : Nat}

theorem splice_in (lo : a ≤ x) (hi : x < a + n) : splice m a n src x = src (x - a) := by
  simp [splice, lo, hi]

theorem splice_at {i : Nat} (hi : i < n) : splice m a n src (a + i) = src i := by
  rw [splice_in (by omega) (by omega), Nat.add_sub_cancel_left]

theorem splice_out (out : x < a ∨ a + n ≤ x) : splice m a n src x = m x := by
  simp only [splice]
  rw [if_neg (by omega)]

theorem fill_in {v : Byte} (lo : a ≤ x) (hi : x < a + n) : fill m a n v x = v := by
  simp [fill, lo, hi]

theorem fill_out {v : Byte} (out : x < a ∨ a + n ≤ x) : fill m a n v x = m x := by
  simp only [fill]
  rw [if_neg (by omega)]

/-- Changing part of what was read and writing it back changes just that part. -/
theorem splice_shifted {o k : Nat} (inside : o + k ≤ n) :
    splice m a n (splice (shifted m a) o k src) = splice m (a + o) k src := by
  funext x
  simp only [splice, shifted]
  by_cases part : a + o ≤ x ∧ x < a + o + k
  · rw [if_pos part, if_pos (by omega), if_pos (by omega)]
    congr 1; omega
  · rw [if_neg part]
    by_cases whole : a ≤ x ∧ x < a + n
    · rw [if_pos whole, if_neg (by omega)]
      congr 1; omega
    · rw [if_neg whole]

theorem splice_zero : splice m a 0 src = m := by
  funext x
  rw [splice_out (by omega)]

/-- Copying the next bytes of a source continues the copy. -/
theorem splice_append {k : Nat} : splice (splice m a n src) (a + n) k (shifted src n) = splice m a (n + k) src := by
  funext x
  by_cases first : a ≤ x ∧ x < a + n
  · rw [splice_out (by omega), splice_in first.1 first.2, splice_in first.1 (by omega)]
  · by_cases second : a + n ≤ x ∧ x < a + n + k
    · rw [splice_in second.1 second.2, splice_in (by omega) (by omega), shifted]
      congr 1
      omega
    · rw [splice_out (by omega), splice_out (by omega), splice_out (by omega)]

/-- Two writes apart from each other. -/
theorem splice_comm {m src src' : Image} {a a' l l' : Nat} (apart : a + l ≤ a' ∨ a' + l' ≤ a) :
    splice (splice m a l src) a' l' src' = splice (splice m a' l' src') a l src := by
  funext x
  simp only [splice]
  by_cases here : a ≤ x ∧ x < a + l
  · rw [if_neg (by omega), if_pos here, if_pos here]
  · rw [if_neg here, if_neg here]

theorem shifted_shifted : shifted (shifted m a) n = shifted m (a + n) := by
  funext x
  simp only [shifted, Nat.add_assoc]

theorem fill_eq_splice (v : Byte) : fill m a n v = splice m a n (fun _ => v) := rfl

end Splice

theorem word32_lt (m : Image) (a : Nat) : word32 m a < 2 ^ 32 := by
  have h0 := (m a).isLt
  have h1 := (m (a + 1)).isLt
  have h2 := (m (a + 2)).isLt
  have h3 := (m (a + 3)).isLt
  simp only [word32]
  omega

/-- Words depend on their four bytes only. -/
theorem word32_congr {m m' : Image} {a a' : Nat} (same : ∀ i, i < 4 → m' (a' + i) = m (a + i)) :
    word32 m' a' = word32 m a := by
  have h0 := same 0 (by omega)
  have h1 := same 1 (by omega)
  have h2 := same 2 (by omega)
  have h3 := same 3 (by omega)
  simp only [Nat.add_zero] at h0
  simp only [word32, h0, h1, h2, h3]

theorem leByte_toNat (v k : Nat) : (leByte v k).toNat = v / 256 ^ k % 256 := by
  simp [leByte]

/-- Reading a laid-out word gives it back, cut to 32 bits. -/
theorem word32_wordsImage (w : Nat → Nat) (j : Nat) : word32 (wordsImage w) (4 * j) = w j % 2 ^ 32 := by
  have e0 : 4 * j / 4 = j := by omega
  have e1 : (4 * j + 1) / 4 = j := by omega
  have e2 : (4 * j + 2) / 4 = j := by omega
  have e3 : (4 * j + 3) / 4 = j := by omega
  have r0 : 4 * j % 4 = 0 := by omega
  have r1 : (4 * j + 1) % 4 = 1 := by omega
  have r2 : (4 * j + 2) % 4 = 2 := by omega
  have r3 : (4 * j + 3) % 4 = 3 := by omega
  simp only [word32, wordsImage, e0, e1, e2, e3, r0, r1, r2, r3, leByte_toNat]
  omega

end Sparrow
