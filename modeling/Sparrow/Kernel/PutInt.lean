import Sparrow.Kernel.Stdio
import Sparrow.Lib.Traced
import Mathlib.Data.List.TakeWhile

/-!
# Printing a number in hexadecimal

`put_int` of `lib/kernel/print.S`. It fills a buffer of eight digits from the right and passes what follows
the zeros in front to `put_char`; these are the characters of `itoa` (`putInt_itoa`).
-/

namespace Sparrow.Print
set_option autoImplicit false

/-- `.16based_4bits`, with `ecx` digits left. Memory starts at `put_int_buffer`. -/
def digits4bits : Nat → BitVec 32 → BitVec 32 → BitVec 32 → Image → Image × BitVec 32
  | 0, _, _, edi, m => (m, edi)
  | ecx + 1, eax, edx, edi, m =>
    let edx := edx &&& 0x0000000f#32
    let edx := if (9#32).slt edx then edx - 10#32 + 0x41#32 else edx + 0x30#32
    let m := Function.update m edi.toNat (edx.setWidth 8)
    let edi := edi - 1#32
    let eax := eax >>> 4
    digits4bits ecx eax eax edi m

/-- `.skip_prefix_0`, which gives `edi` and `cl`. -/
def skipPrefix0 (m : Image) : Nat → BitVec 32 → Exec (BitVec 32 × Byte)
  | 0, _ => throw .diverge
  | turns + 1, edi =>
    if edi = 8#32 then return (edi, 0x30#8)
    else
      let cl := m edi.toNat
      let edi := edi + 1#32
      if cl = 0x30#8 then skipPrefix0 m turns edi else return (edi - 1#32, cl)

/-- `.put_each_num`; the events are the calls of `put_char`. Behind the last digit a byte is read that is not printed. -/
def putEachNum (m : Image) : Nat → BitVec 32 → Byte → Traced Byte Unit
  | 0, _, _ => Traced.lift (throw .diverge)
  | turns + 1, edi, cl => do
    Traced.emit cl
    let edi := edi + 1#32
    let cl := m edi.toNat
    if edi.slt 8#32 then putEachNum m turns edi cl

/-- Both loops end when `edi` is 8. -/
def putInt (v : BitVec 32) (m : Image) : Traced Byte Unit := do
  let (m, edi) := digits4bits 8 v v 7#32 m
  let edi := edi + 1#32
  let (edi, cl) ← Traced.lift (skipPrefix0 m 9 edi)
  putEachNum m 9 edi cl

/-! ## The digits in the buffer -/

section Buffer

variable {m : Image}

/-- The byte of the lowest four bits. -/
theorem digit4bits (edx : BitVec 32) :
    (if (9#32).slt (edx &&& 0x0000000f#32) then (edx &&& 0x0000000f#32) - 10#32 + 0x41#32
      else (edx &&& 0x0000000f#32) + 0x30#32).setWidth 8 = digitByte (edx.toNat % 16) := by
  have low : edx &&& 0x0000000f#32 = BitVec.ofNat 32 (edx.toNat % 16) := by
    apply BitVec.eq_of_toNat_eq
    have masked : (edx &&& 0x0000000f#32).toNat = edx.toNat % 16 := by
      rw [BitVec.toNat_and]
      exact Nat.and_two_pow_sub_one_eq_mod edx.toNat 4
    exact masked.trans (Nat.mod_eq_of_lt (show edx.toNat % 16 < 2 ^ 32 by omega)).symm
  have all : ∀ d, d < 16 → (if (9#32).slt (BitVec.ofNat 32 d) then BitVec.ofNat 32 d - 10#32 + 0x41#32
      else BitVec.ofNat 32 d + 0x30#32).setWidth 8 = digitByte d := by decide
  rw [low]
  exact all _ (Nat.mod_lt _ (by decide))

/-- With `k` digits left `edi` is `k - 1`, and they come to lie before that position. By induction on `k`, the last
digit first. -/
theorem digits4bits_eq : ∀ {k : Nat} {v : BitVec 32} {m : Image}, k ≤ 8 →
    ∃ m', digits4bits k v v (BitVec.ofNat 32 k - 1#32) m = (m', 0#32 - 1#32) ∧
    (∀ i d, (padded 16 k v.toNat)[i]? = some d → m' i = digitByte d) ∧ ∀ x, k ≤ x → m' x = m x := by
  intro k
  induction k with
  | zero => exact fun _ => ⟨_, rfl, fun i d at_ => by simp [padded] at at_, fun x _ => rfl⟩
  | succ k ih =>
    intro v m small
    have edi : BitVec.ofNat 32 (k + 1) - 1#32 = BitVec.ofNat 32 k := by
      rw [BitVec.ofNat_add]
      exact BitVec.add_sub_cancel _ _
    have position : (BitVec.ofNat 32 k).toNat = k := Nat.mod_eq_of_lt (show k < 2 ^ 32 by omega)
    have quotient : (v >>> 4).toNat = v.toNat / 16 := by
      rw [BitVec.toNat_ushiftRight, Nat.shiftRight_eq_div_pow]
    obtain ⟨m', run, digits, rest⟩ := @ih (v >>> 4) (Function.update m k (digitByte (v.toNat % 16))) (by omega)
    have width : (padded 16 k (v.toNat / 16)).length = k := padded_length
    refine ⟨m', ?_, fun i d at_ => ?_, fun x behind => ?_⟩
    · rw [edi, digits4bits, digit4bits, position]
      exact run
    · rw [padded] at at_
      by_cases before : i < k
      · rw [List.getElem?_append_left (by omega), ← quotient] at at_
        exact digits i d at_
      · rw [List.getElem?_append_right (by omega), width, List.getElem?_singleton] at at_
        split at at_
        · rename_i last
          rw [← Option.some.inj at_, rest i (by omega), show i = k by omega, Function.update_self]
        · cases at_
    · rw [rest x (by omega), Function.update_of_ne (by omega)]

end Buffer

/-! ## The digits that are printed -/

section Printed

variable {m : Image}

/-- From a position before the eighth the bytes up to it are printed. -/
theorem putEachNum_trace : ∀ {turns : Nat} {edi : Nat}, edi < 8 → 8 - edi ≤ turns → 
    (putEachNum m turns (BitVec.ofNat 32 edi) (m edi)).trace = (List.range' edi (8 - edi)).map m ∧
      (putEachNum m turns (BitVec.ofNat 32 edi) (m edi)).result = .ok () := by
  intro turns
  induction turns with
  | zero => exact fun small enough => absurd enough (by omega)
  | succ turns ih =>
    intro edi small enough
    have next : BitVec.ofNat 32 edi + 1#32 = BitVec.ofNat 32 (edi + 1) := (BitVec.ofNat_add edi 1).symm
    have position : (BitVec.ofNat 32 (edi + 1)).toNat = edi + 1 := Nat.mod_eq_of_lt (show edi + 1 < 2 ^ 32 by omega)
    have more : (BitVec.ofNat 32 (edi + 1)).slt 8#32 ↔ edi + 1 < 8 := by
      have all : ∀ i, i < 9 → ((BitVec.ofNat 32 i).slt 8#32 ↔ i < 8) := by decide
      exact all _ (by omega)
    have split : List.range' edi (8 - edi) = edi :: List.range' (edi + 1) (8 - (edi + 1)) := by
      rw [show 8 - edi = 8 - (edi + 1) + 1 by omega, List.range'_succ]
    rw [putEachNum, next]
    dsimp only
    rw [Traced.emit_bind_trace, Traced.emit_bind_result, position, split, List.map_cons]
    by_cases last : edi + 1 < 8
    · rw [if_pos (more.2 last)]
      obtain ⟨trace, result⟩ := ih last (by omega)
      rw [trace]
      exact ⟨rfl, result⟩
    · rw [if_neg (fun h => last (more.1 h)), show 8 - (edi + 1) = 0 by omega]
      exact ⟨rfl, rfl⟩

/-- The zeros from a position on are skipped, and `edi` stops at the first other digit or at 8. -/
theorem skipPrefix0_eq : ∀ {turns : Nat} {edi : Nat}, edi ≤ 8 → 9 - edi ≤ turns → 
    ∃ z, edi ≤ z ∧ z ≤ 8 ∧ (∀ i, edi ≤ i → i < z → m i = 0x30#8) ∧ (z < 8 → m z ≠ 0x30#8) ∧
      skipPrefix0 m turns (BitVec.ofNat 32 edi) = .ok (BitVec.ofNat 32 z, if z < 8 then m z else 0x30#8) := by
  intro turns
  induction turns with
  | zero => exact fun small enough => absurd enough (by omega)
  | succ turns ih =>
    intro edi small enough
    have next : BitVec.ofNat 32 edi + 1#32 = BitVec.ofNat 32 (edi + 1) := (BitVec.ofNat_add edi 1).symm
    have position : (BitVec.ofNat 32 edi).toNat = edi := Nat.mod_eq_of_lt (show edi < 2 ^ 32 by omega)
    have atEnd : BitVec.ofNat 32 edi = 8#32 ↔ edi = 8 := by
      have all : ∀ i, i < 9 → (BitVec.ofNat 32 i = 8#32 ↔ i = 8) := by decide
      exact all _ (by omega)
    rw [skipPrefix0]
    by_cases full : edi = 8
    · rw [if_pos (atEnd.2 full)]
      refine ⟨8, small, Nat.le_refl _, fun i from_ below => absurd below (by omega), fun h => absurd h (by omega), ?_⟩
      rw [full]
      rfl
    rw [if_neg (fun h => full (atEnd.1 h)), position]
    dsimp only
    by_cases zero : m edi = 0x30#8
    · rw [if_pos zero, next]
      obtain ⟨z, from_, upTo, zeros, stop, run⟩ := @ih (edi + 1) (by omega) (by omega)
      refine ⟨z, by omega, upTo, fun i low high => ?_, stop, run⟩
      by_cases here : i = edi
      · rw [here, zero]
      · exact zeros i (by omega) high
    · rw [if_neg zero, BitVec.add_sub_cancel]
      refine ⟨edi, Nat.le_refl _, small, fun i low high => absurd high (by omega), fun _ => zero, ?_⟩
      rw [if_pos (by omega)]
      rfl

end Printed

/-- The characters that `put_int` prints are the numeral of its argument. -/
theorem putInt_eq (v : BitVec 32) (m : Image) : (putInt v m).trace = numeralText 16 v.toNat ∧ (putInt v m).result = .ok () := by
  obtain ⟨m', digits, bytes, _⟩ := @digits4bits_eq 8 v m (Nat.le_refl 8)
  obtain ⟨z, _, upTo, zeros, stop, skip⟩ := @skipPrefix0_eq m' 9 0 (by omega) (by omega)
  have width : (padded 16 8 v.toNat).length = 8 := padded_length
  have digit : ∀ i, i < 8 → ∃ d, (padded 16 8 v.toNat)[i]? = some d ∧ d < 16 ∧ m' i = digitByte d := by
    intro i inside
    have at_ : (padded 16 8 v.toNat)[i]? = some _ := List.getElem?_eq_getElem (by rwa [width])
    exact ⟨_, at_, padded_lt (by decide) (List.getElem_mem _), bytes i _ at_⟩
  have front : ∀ i, i < z → (padded 16 8 v.toNat)[i]? = some 0 := by
    intro i less
    obtain ⟨d, at_, small, byte⟩ := digit i (by omega)
    rw [at_, digitByte_inj (by omega) (byte.symm.trans (zeros i (Nat.zero_le i) less))]
  have run : putInt v m = putEachNum m' 9 (BitVec.ofNat 32 z) (if z < 8 then m' z else 0x30#8) := by
    unfold putInt
    rw [show 7#32 = BitVec.ofNat 32 8 - 1#32 from rfl, digits]
    dsimp only
    rw [show 0#32 - 1#32 + 1#32 = BitVec.ofNat 32 0 from rfl, skip, Traced.lift_ok_bind]
  rw [run]
  by_cases nonzero : v.toNat = 0
  · have full : ¬ z < 8 := by
      intro less
      obtain ⟨d, at_, small, byte⟩ := digit z less
      rw [nonzero] at at_
      have zero := padded_zero 16 8 d (List.mem_of_getElem? at_)
      exact stop less (byte.trans (congrArg digitByte zero))
    rw [if_neg full, show z = 8 by omega, nonzero]
    exact ⟨rfl, rfl⟩
  · have fits : v.toNat < 16 ^ 8 := v.isLt
    have drop := numeral_eq_dropWhile (by decide) nonzero fits
    have less : z < 8 := by
      by_contra full
      refine numeral_ne_nil (drop.trans (List.dropWhile_eq_nil_iff.2 fun d mem => ?_))
      obtain ⟨i, at_⟩ := List.mem_iff_getElem?.1 mem
      have inside := (List.getElem?_eq_some_iff.1 at_).1
      rw [front i (by omega), Option.some.injEq] at at_
      exact beq_iff_eq.2 at_.symm
    obtain ⟨d, at_, small, byte⟩ := digit z less
    have visible : d ≠ 0 := by
      rintro rfl
      exact stop less byte
    obtain ⟨trace, result⟩ := @putEachNum_trace m' 9 z less (by omega)
    rw [if_pos less, trace]
    refine ⟨?_, result⟩
    rw [numeralText, drop, dropWhile_eq_drop front at_ visible]
    apply List.ext_getElem?
    intro i
    by_cases inside : z + i < 8
    · obtain ⟨e, at_', _, byte'⟩ := digit (z + i) inside
      rw [List.getElem?_map, List.getElem?_map, List.getElem?_drop, at_', List.getElem?_range' (by omega)]
      simpa using byte'
    · rw [List.getElem?_eq_none (by simp; omega), List.getElem?_eq_none (by simp [width]; omega)]

/-- `put_int` prints what `itoa` writes in the base 16, and it reads back to the value. -/
theorem putInt_itoa (v : BitVec 32) (m : Image) : (putInt v m).result = .ok () ∧
    (∀ o : Stdio.Out, Stdio.itoa (o.pos + 8) v.toNat 16 o = .ok (o.puts (putInt v m).trace)) ∧
    readNumeral 16 (putInt v m).trace = some v.toNat := by
  obtain ⟨trace, result⟩ := putInt_eq v m
  have fits : v.toNat < 16 ^ 8 := v.isLt
  have short := numeralText_length_le (by decide) (by decide) fits
  rw [trace]
  exact ⟨result, fun o => Stdio.itoa_eq (by decide) v.isLt (by omega), readNumeral_numeralText (by decide) (by decide) _⟩

end Sparrow.Print
