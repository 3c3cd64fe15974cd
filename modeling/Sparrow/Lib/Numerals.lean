import Sparrow.Lib.Image
import Mathlib.Data.Nat.Digits.Lemmas

/-!
# Numerals

The numeral of a number is the list of its digits, the most significant one first, and as a text
each digit is a byte, with letters from ten on. A numeral without superfluous zeros is
what is left of the digits of a fixed width when the zeros in front are dropped (`numeral_eq_dropWhile`).
-/

namespace Sparrow
set_option autoImplicit false

/-- The digits of a number. That of zero is a zero. -/
def numeral (b n : Nat) : List Nat := if n = 0 then [0] else (Nat.digits b n).reverse

/-- All digits of the width `w`, with zeros in front. -/
def padded (b : Nat) : Nat → Nat → List Nat
  | 0, _ => []
  | w + 1, n => padded b w (n / b) ++ [n % b]

section Digits

variable {b n w : Nat}

theorem numeral_of_lt (small : n < b) : numeral b n = [n] := by
  unfold numeral
  by_cases zero : n = 0
  · rw [if_pos zero, zero]
  · rw [if_neg zero, Nat.digits_of_lt b n zero small, List.reverse_singleton]

theorem numeral_of_le (one : 1 < b) (large : b ≤ n) : numeral b n = numeral b (n / b) ++ [n % b] := by
  have quotient : n / b ≠ 0 := (Nat.div_pos large (by omega)).ne'
  unfold numeral
  rw [if_neg (by omega), if_neg quotient, Nat.digits_eq_cons_digits_div one (by omega), List.reverse_cons]

theorem numeral_ne_nil : numeral b n ≠ [] := by
  unfold numeral
  split
  · exact List.cons_ne_nil _ _
  · rename_i nonzero
    simpa [Nat.digits_eq_nil_iff_eq_zero] using nonzero

theorem numeral_lt (one : 1 < b) {d : Nat} (mem : d ∈ numeral b n) : d < b := by
  unfold numeral at mem
  split at mem
  · rw [List.mem_singleton] at mem
    omega
  · exact Nat.digits_lt_base one (List.mem_reverse.1 mem)

theorem numeral_foldl (b n : Nat) : (numeral b n).foldl (fun v d => b * v + d) 0 = n := by
  unfold numeral
  by_cases zero : n = 0
  · rw [if_pos zero, zero]
    rfl
  · rw [if_neg zero, List.foldl_reverse]
    calc (Nat.digits b n).foldr (fun d v => b * v + d) 0 = Nat.ofDigits b (Nat.digits b n) := by
          rw [Nat.ofDigits_eq_foldr]
          congr 1
          funext d v
          exact Nat.add_comm _ _
      _ = n := Nat.ofDigits_digits b n

/-- No zero stands in front of another digit. -/
theorem numeral_head (zero : (numeral b n).head? = some 0) : n = 0 := by
  by_contra nonzero
  unfold numeral at zero
  rw [if_neg nonzero, List.head?_reverse, List.getLast?_eq_getLast_of_ne_nil (Nat.digits_ne_nil_iff_ne_zero.2 nonzero)] at zero
  exact Nat.getLast_digit_ne_zero b nonzero (Option.some.inj zero)

theorem numeral_length_le (one : 1 < b) (positive : 0 < w) (fits : n < b ^ w) : (numeral b n).length ≤ w := by
  unfold numeral
  split
  · exact positive
  · rw [List.length_reverse]
    exact (Nat.digits_length_le_iff one n).2 fits

theorem padded_length : ∀ {w n : Nat}, (padded b w n).length = w := by
  intro w
  induction w with
  | zero => exact rfl
  | succ w ih =>
    intro n
    rw [padded, List.length_append, ih, List.length_singleton]

theorem padded_lt (positive : 0 < b) : ∀ {w n d : Nat}, d ∈ padded b w n → d < b := by
  intro w
  induction w with
  | zero => exact fun mem => absurd mem List.not_mem_nil
  | succ w ih =>
    intro n d mem
    rw [padded, List.mem_append, List.mem_singleton] at mem
    obtain before | rfl := mem
    · exact ih before
    · exact Nat.mod_lt n positive

theorem padded_zero (b w : Nat) : ∀ d ∈ padded b w 0, d = 0 := by
  induction w with
  | zero => exact fun d mem => absurd mem List.not_mem_nil
  | succ w ih =>
    intro d mem
    rw [padded, Nat.zero_div, Nat.zero_mod, List.mem_append, List.mem_singleton] at mem
    exact mem.elim (ih d) id

/-- Without the zeros in front the digits of any width are the numeral. -/
theorem numeral_eq_dropWhile (one : 1 < b) : ∀ {w n : Nat}, n ≠ 0 → n < b ^ w → numeral b n = (padded b w n).dropWhile (· == 0) := by
  intro w
  induction w with
  | zero => exact fun nonzero fits => absurd (Nat.lt_one_iff.1 fits) nonzero
  | succ w ih =>
    intro n nonzero fits
    rw [padded]
    by_cases small : n < b
    · rw [numeral_of_lt small, Nat.div_eq_of_lt small, Nat.mod_eq_of_lt small,
        List.dropWhile_append_of_pos (fun d mem => beq_iff_eq.2 (padded_zero b w d mem))]
      simp [nonzero]
    · have quotient : n / b ≠ 0 := (Nat.div_pos (by omega) (by omega)).ne'
      have below : n / b < b ^ w := Nat.div_lt_of_lt_mul (by rwa [← Nat.pow_succ'])
      have rest := ih quotient below
      have visible : (padded b w (n / b)).dropWhile (· == 0) ≠ [] := rest ▸ numeral_ne_nil
      rw [numeral_of_le one (by omega), rest, List.dropWhile_append, if_neg (by simpa using visible)]

/-- The zeros are dropped when they are skipped by their number. -/
theorem dropWhile_eq_drop {l : List Nat} {z d : Nat} (zeros : ∀ i, i < z → l[i]? = some 0) (stop : l[z]? = some d) (nonzero : d ≠ 0) :
    l.dropWhile (· == 0) = l.drop z := by
  have front : ∀ x ∈ l.take z, x = 0 := by
    intro x mem
    obtain ⟨i, at_⟩ := List.mem_iff_getElem?.1 mem
    have inside := (List.getElem?_eq_some_iff.1 at_).1
    rw [List.length_take] at inside
    rw [List.getElem?_take_of_lt (by omega), zeros i (by omega)] at at_
    exact (Option.some.inj at_).symm
  obtain ⟨inside, is⟩ := List.getElem?_eq_some_iff.1 stop
  calc l.dropWhile (· == 0) = (l.take z ++ l.drop z).dropWhile (· == 0) := by rw [List.take_append_drop]
    _ = (l.drop z).dropWhile (· == 0) := List.dropWhile_append_of_pos fun x mem => beq_iff_eq.2 (front x mem)
    _ = l.drop z := by
      rw [List.drop_eq_getElem_cons inside, is, List.dropWhile_cons_of_neg (by simpa using nonzero)]

end Digits

/-! ## Texts -/

/-- The byte of a digit: '0' to '9', then 'A' and so on. -/
def digitByte (d : Nat) : Byte := if d < 10 then BitVec.ofNat 8 (d + 0x30) else BitVec.ofNat 8 (d - 10 + 0x41)

def digitValue (c : Byte) : Option Nat :=
  if 0x30#8 ≤ c ∧ c ≤ 0x39#8 then some (c.toNat - 0x30)
  else if 0x41#8 ≤ c ∧ c ≤ 0x5a#8 then some (c.toNat - 0x41 + 10)
  else none

/-- One more digit of the base `b` behind the value `v`. -/
def readDigit (b v : Nat) (c : Byte) : Option Nat := do
  let d ← digitValue c
  if d < b then some (b * v + d) else none

/-- The number a text stands for in the base `b`, if it has digits of the base only. -/
def readNumeral (b : Nat) (s : List Byte) : Option Nat :=
  if s = [] then none else s.foldlM (readDigit b) 0

/-- The same with a minus sign in front of a negative number. -/
def readSigned (b : Nat) (s : List Byte) : Option Int :=
  if s.head? = some 0x2d#8 then (readNumeral b s.tail).map fun n : Nat => -(n : Int)
  else (readNumeral b s).map Int.ofNat

def numeralText (b n : Nat) : List Byte := (numeral b n).map digitByte

def signedText (b : Nat) (i : Int) : List Byte :=
  if i < 0 then 0x2d#8 :: numeralText b i.natAbs else numeralText b i.natAbs

/-- A zero in front of other digits, also behind the sign. -/
def LeadingZero (s : List Byte) : Prop :=
  1 < s.length ∧ s.head? = some 0x30#8 ∨ 2 < s.length ∧ s.head? = some 0x2d#8 ∧ s.tail.head? = some 0x30#8

section Texts

variable {b n d : Nat} {i : Int}

theorem digitValue_digitByte (small : d < 36) : digitValue (digitByte d) = some d := by
  revert d
  decide

theorem digitByte_inj (small : d < 36) (zero : digitByte d = 0x30#8) : d = 0 := by
  have value := digitValue_digitByte small
  rw [zero] at value
  exact (Option.some.inj value).symm

theorem digitByte_ne_sign (small : d < 36) : digitByte d ≠ 0x2d#8 := by
  intro sign
  have value := digitValue_digitByte small
  rw [sign] at value
  cases value

theorem digitByte_ne_zero (small : d < 36) : digitByte d ≠ 0#8 := by
  intro zero
  have value := digitValue_digitByte small
  rw [zero] at value
  cases value

theorem numeralText_ne_nil : numeralText b n ≠ [] := by
  unfold numeralText
  simpa using numeral_ne_nil

theorem foldlM_readDigit (large : b ≤ 36) : ∀ {ds : List Nat} {v : Nat}, (∀ d ∈ ds, d < b) →
    (ds.map digitByte).foldlM (readDigit b) v = some (ds.foldl (fun v d => b * v + d) v) := by
  intro ds
  induction ds with
  | nil => exact fun _ => rfl
  | cons d ds ih =>
    intro v digits
    have small : d < b := digits d List.mem_cons_self
    have first : readDigit b v (digitByte d) = some (b * v + d) := by
      unfold readDigit
      rw [digitValue_digitByte (by omega)]
      exact if_pos small
    rw [List.map_cons, List.foldlM_cons, first]
    exact ih fun d mem => digits d (List.mem_cons_of_mem _ mem)

/-- Numerals read back. -/
theorem readNumeral_numeralText (one : 1 < b) (large : b ≤ 36) (n : Nat) : readNumeral b (numeralText b n) = some n := by
  unfold readNumeral
  rw [if_neg numeralText_ne_nil, numeralText, foldlM_readDigit large fun d => numeral_lt one, numeral_foldl]

theorem numeralText_head_ne_sign (one : 1 < b) (large : b ≤ 36) : (numeralText b n).head? ≠ some 0x2d#8 := by
  unfold numeralText
  rw [List.head?_map, Ne, Option.map_eq_some_iff]
  rintro ⟨d, head, sign⟩
  have small := numeral_lt one (List.mem_of_head? head)
  exact digitByte_ne_sign (by omega) sign

theorem readSigned_signedText (one : 1 < b) (large : b ≤ 36) (i : Int) : readSigned b (signedText b i) = some i := by
  unfold signedText
  by_cases negative : i < 0
  · rw [if_pos negative, readSigned, if_pos (List.head?_cons), List.tail_cons, readNumeral_numeralText one large, Option.map_some]
    congr 1
    omega
  · rw [if_neg negative, readSigned, if_neg (numeralText_head_ne_sign one large), readNumeral_numeralText one large, Option.map_some]
    exact congrArg some (Int.natAbs_of_nonneg (Int.not_lt.1 negative))

theorem numeralText_zero_head (one : 1 < b) (large : b ≤ 36) (zero : (numeralText b n).head? = some 0x30#8) : (numeralText b n).length = 1 := by
  unfold numeralText at zero ⊢
  rw [List.head?_map, Option.map_eq_some_iff] at zero
  obtain ⟨d, head, isZero⟩ := zero
  have small := numeral_lt one (List.mem_of_head? head)
  rw [digitByte_inj (by omega) isZero] at head
  rw [numeral_head head, numeral_of_lt (by omega)]
  rfl

theorem numeralText_not_leadingZero (one : 1 < b) (large : b ≤ 36) (n : Nat) : ¬ LeadingZero (numeralText b n) := by
  rintro (⟨long, zero⟩ | ⟨_, sign, _⟩)
  · have short := numeralText_zero_head one large zero
    omega
  · exact numeralText_head_ne_sign one large sign

theorem signedText_not_leadingZero (one : 1 < b) (large : b ≤ 36) (i : Int) : ¬ LeadingZero (signedText b i) := by
  unfold signedText
  by_cases negative : i < 0
  · rw [if_pos negative]
    rintro (⟨_, zero⟩ | ⟨long, _, zero⟩)
    · cases zero
    · have short := numeralText_zero_head one large zero
      rw [List.length_cons] at long
      omega
  · rw [if_neg negative]
    exact numeralText_not_leadingZero one large _

theorem numeralText_noZero (one : 1 < b) (large : b ≤ 36) : 0#8 ∉ numeralText b n := by
  unfold numeralText
  intro mem
  obtain ⟨d, digit, zero⟩ := List.mem_map.1 mem
  have small := numeral_lt one digit
  exact digitByte_ne_zero (by omega) zero

theorem numeralText_length_le {w : Nat} (one : 1 < b) (positive : 0 < w) (fits : n < b ^ w) : (numeralText b n).length ≤ w := by
  unfold numeralText
  rw [List.length_map]
  exact numeral_length_le one positive fits

theorem numeralText_of_lt (small : n < b) : numeralText b n = [digitByte n] := by
  rw [numeralText, numeral_of_lt small, List.map_singleton]

theorem numeralText_of_le (one : 1 < b) (large : b ≤ n) : numeralText b n = numeralText b (n / b) ++ [digitByte (n % b)] := by
  rw [numeralText, numeral_of_le one large, List.map_append, List.map_singleton]
  rfl

end Texts

end Sparrow
