import Mathlib.Data.List.Range
import Mathlib.Logic.Function.Basic

/-!
# Ring buffers

A buffer of `n` places is filled at `head` and emptied at `tail`, and both go round. It is
empty when they are equal, so it never holds more than `n - 1` values. `between` walks from
`tail` to `head`; putting a value at `head` adds it at the end, and taking the one at `tail`
removes it at the front.
-/

namespace Sparrow.Ring
set_option autoImplicit false

variable {α : Type} {n : Nat} {buf : Nat → α} {head tail : Nat}

/-- The next place. -/
def next (n pos : Nat) : Nat := (pos + 1) % n

/-- The values from `pos` up to `head`. -/
def walk (n : Nat) (buf : Nat → α) (head : Nat) : Nat → Nat → List α
  | 0, _ => []
  | fuel + 1, pos => if pos = head then [] else buf pos :: walk n buf head fuel (next n pos)

/-- The values in the buffer, the oldest first. -/
def between (n : Nat) (buf : Nat → α) (tail head : Nat) : List α := walk n buf head n tail

/-- How far `head` is ahead of `tail`. -/
def distance (n tail head : Nat) : Nat := if tail ≤ head then head - tail else n - (tail - head)

/-- Going on from a place inside the buffer by less than one round. -/
theorem add_mod_cases {pos i : Nat} (lt : pos < n) (le : i < n) :
    (pos + i < n ∧ (pos + i) % n = pos + i) ∨ (n ≤ pos + i ∧ (pos + i) % n = pos + i - n) := by
  by_cases small : pos + i < n
  · exact .inl ⟨small, Nat.mod_eq_of_lt small⟩
  · refine .inr ⟨by omega, ?_⟩
    rw [Nat.mod_eq_sub_mod (by omega), Nat.mod_eq_of_lt (by omega)]

theorem next_lt {pos : Nat} (lt : pos < n) : next n pos < n := Nat.mod_lt _ (by omega)

theorem distance_lt (headLt : head < n) (tail : Nat) : distance n tail head < n := by
  unfold distance
  split <;> omega

theorem add_distance (headLt : head < n) (tailLt : tail < n) : (tail + distance n tail head) % n = head := by
  unfold distance
  split
  · rw [Nat.add_sub_cancel' (by assumption), Nat.mod_eq_of_lt headLt]
  · rw [show tail + (n - (tail - head)) = head + n by omega, Nat.add_mod_right, Nat.mod_eq_of_lt headLt]

theorem walk_eq (m : Nat) : ∀ {fuel pos : Nat}, pos < n → m ≤ fuel → m < n → (pos + m) % n = head →
    walk n buf head fuel pos = (List.range m).map fun i => buf ((pos + i) % n) := by
  induction m with
  | zero =>
    intro fuel pos lt _ _ at_
    rw [Nat.add_zero, Nat.mod_eq_of_lt lt] at at_
    cases fuel with
    | zero => rfl
    | succ fuel => simp [walk, at_]
  | succ m ih =>
    intro fuel pos lt le small at_
    obtain ⟨fuel, rfl⟩ : ∃ f, fuel = f + 1 := ⟨fuel - 1, by omega⟩
    have ne : pos ≠ head := by
      have cases := add_mod_cases lt small
      omega
    have rest : (next n pos + m) % n = head := by
      rw [next, Nat.mod_add_mod, ← at_]
      congr 1
      omega
    rw [walk, if_neg ne, ih (next_lt lt) (by omega) (by omega) rest, List.range_succ_eq_map]
    simp only [List.map_cons, List.map_map, Nat.add_zero, Nat.mod_eq_of_lt lt]
    refine congrArg _ (List.map_congr_left fun i _ => ?_)
    simp only [Function.comp, next, Nat.mod_add_mod]
    congr 2
    omega

theorem between_eq {m : Nat} (tailLt : tail < n) (lt : m < n) (at_ : (tail + m) % n = head) :
    between n buf tail head = (List.range m).map fun i => buf ((tail + i) % n) :=
  walk_eq m tailLt lt.le lt at_

/-- The length of the contents. -/
theorem length_between (headLt : head < n) (tailLt : tail < n) :
    (between n buf tail head).length = distance n tail head := by
  rw [between_eq tailLt (distance_lt headLt tail) (add_distance headLt tailLt)]
  simp

/-- A value is put at `head`. -/
theorem between_put {x : α} (headLt : head < n) (tailLt : tail < n) (room : next n head ≠ tail) :
    between n (Function.update buf head x) tail (next n head) = between n buf tail head ++ [x] := by
  have lt := distance_lt headLt tail
  have at_ := add_distance headLt tailLt
  have further : (tail + (distance n tail head + 1)) % n = next n head := by
    rw [← Nat.add_assoc, next, ← Nat.mod_add_mod, at_]
  have room' : distance n tail head + 1 < n := by
    by_contra full
    have eq : tail + (distance n tail head + 1) = tail + n := by omega
    rw [eq, Nat.add_mod_right, Nat.mod_eq_of_lt tailLt] at further
    exact room further.symm
  rw [between_eq tailLt room' further, between_eq tailLt lt at_, List.range_succ, List.map_append, List.map_singleton, at_]
  congr 1
  · refine List.map_congr_left fun i mem => ?_
    have small := List.mem_range.1 mem
    refine Function.update_of_ne ?_ _ _
    have here := add_mod_cases tailLt (show i < n by omega)
    have there := add_mod_cases tailLt lt
    omega
  · simp

/-- The value at `tail` is taken. -/
theorem between_take (headLt : head < n) (tailLt : tail < n) (some : head ≠ tail) :
    between n buf tail head = buf tail :: between n buf (next n tail) head := by
  have lt := distance_lt headLt tail
  have at_ := add_distance headLt tailLt
  obtain ⟨m, eq⟩ : ∃ m, distance n tail head = m + 1 := by
    refine ⟨distance n tail head - 1, ?_⟩
    unfold distance
    split <;> omega
  rw [eq] at lt at_
  have rest : (next n tail + m) % n = head := by
    rw [next, Nat.mod_add_mod, ← at_]
    congr 1
    omega
  rw [between_eq tailLt lt at_, between_eq (next_lt tailLt) (by omega) rest, List.range_succ_eq_map]
  simp only [List.map_cons, List.map_map, Nat.add_zero, Nat.mod_eq_of_lt tailLt]
  refine congrArg _ (List.map_congr_left fun i _ => ?_)
  simp only [Function.comp, next, Nat.mod_add_mod]
  congr 2
  omega

theorem between_self {pos : Nat} : between n buf pos pos = [] := by
  unfold between
  cases n with
  | zero => rfl
  | succ n => simp [walk]

end Sparrow.Ring
