import Sparrow.Kernel.Stdio
import Mathlib.Tactic.IntervalCases
import Mathlib.Tactic.Ring

/-!
# The columns of ps

`pad_print` of `thread/thread.c`. Behind its case 'd' no `break` stands, so that the hexadecimal
number is put over the decimal one, and the index it fills up with has eight bits:
`padPrint_iff` says when the number that is shown is right nevertheless.
-/

namespace Sparrow.Ps
set_option autoImplicit false

open Stdio

/-- What is read through `ptr`: a string, or the 32-bit word there. -/
inductive Pointed where
  | string (s : CString)
  | word (w : BitVec 32)

/-- `%s`, `%d` and `%x`. -/
def formatS : CString := ⟨[0x25#8, 0x73#8], by decide⟩
def formatD : CString := ⟨[0x25#8, 0x64#8], by decide⟩
def formatX : CString := ⟨[0x25#8, 0x78#8], by decide⟩

/-- `sprintf(buf, …)`; of the result the lowest eight bits are kept. -/
def sprintf (str : Buffer) (m : Image) (format : CString) (arg : Arg) : Exec (Image × BitVec 8) := do
  let (m, len) ← vsprintf { str with mem := m } format [arg]
  return (m, BitVec.ofNat 8 len)

/-- The fill-up loop with so many turns at most. -/
def padTurns (size : Nat) : Nat → BitVec 8 → Image → Exec Image
  | 0, _, _ => throw .diverge
  | turns + 1, idx, m =>
    if idx.toNat < size then padTurns size turns (idx + 1#8) (Function.update m idx.toNat 0x20#8) else return m

/-- The case 'x'. -/
def caseX (str : Buffer) (m : Image) : Pointed → Exec (Image × BitVec 8)
  | .string _ => throw .undefined
  | .word w => sprintf str m formatX (.word w)

/-- The case 'd', behind which the next one follows. -/
def caseD (str : Buffer) (m : Image) : Pointed → Exec (Image × BitVec 8)
  | .string _ => throw .undefined
  | .word w => do
    let (m, _) ← sprintf str m formatD (.word ((w.setWidth 16).signExtend 32))
    caseX str m (.word w)

/-- The case 's'. -/
def caseS (str : Buffer) (m : Image) : Pointed → Exec (Image × BitVec 8)
  | .string s => sprintf str m formatS (.string s)
  | .word _ => throw .undefined

/-- The switch over the format, which gives `out_pad_0idx`. -/
def convert (str : Buffer) (m : Image) (ptr : Pointed) (format : Byte) : Exec (Image × BitVec 8) :=
  if format = 0x73#8 then caseS str m ptr
  else if format = 0x64#8 then caseD str m ptr
  else if format = 0x78#8 then caseX str m ptr
  else return (m, 0#8)

/-- The bytes that `pad_print` passes to `sys_write`. -/
def padPrint (turns : Nat) (str : Buffer) (ptr : Pointed) (format : Byte) : Exec (List Byte) := do
  let m := fill str.mem 0 str.size 0#8
  let (m, idx) ← convert str m ptr format
  let m ← padTurns str.size turns idx m
  return (List.range (str.size - 1)).map m

/-- The text with blanks behind it up to the width of the column. -/
def column (size : Nat) (text : List Byte) : List Byte := text ++ List.replicate (size - 1 - text.length) 0x20#8

/-- The text is what is shown of the word at `ptr`. -/
def Shows (str : Buffer) (w : BitVec 32) (format : Byte) (text : List Byte) : Prop :=
  ∃ turns, padPrint turns str (.word w) format = .ok (column str.size text)

section Turns

variable {size : Nat} {m : Image}

/-- An index of eight bits does not get to 256. -/
theorem padTurns_diverges (large : 256 ≤ size) : ∀ (turns : Nat) (idx : BitVec 8) (m : Image), padTurns size turns idx m = .error .diverge := by
  intro turns
  induction turns with
  | zero => exact fun _ _ => rfl
  | succ turns ih =>
    intro idx m
    have less := idx.isLt
    rw [padTurns, if_pos (by omega)]
    exact ih _ _

/-- A smaller buffer is filled up, by induction on the blanks that are missing. -/
theorem padTurns_eq (small : size ≤ 255) : ∀ {missing idx : Nat} {m : Image}, idx + missing = size →
    ∃ m', (∀ turns, padTurns size turns (BitVec.ofNat 8 idx) m = if missing < turns then .ok m' else .error .diverge) ∧
      ∀ i, m' i = if idx ≤ i ∧ i < size then 0x20#8 else m i := by
  intro missing
  induction missing with
  | zero =>
    intro idx m upTo
    have position : (BitVec.ofNat 8 idx).toNat = idx := Nat.mod_eq_of_lt (show idx < 256 by omega)
    refine ⟨m, fun turns => ?_, fun i => by rw [if_neg (by omega)]⟩
    cases turns with
    | zero => rfl
    | succ turns => rw [padTurns, position, if_neg (by omega), if_pos (Nat.succ_pos _)]; rfl
  | succ missing ih =>
    intro idx m upTo
    have position : (BitVec.ofNat 8 idx).toNat = idx := Nat.mod_eq_of_lt (show idx < 256 by omega)
    obtain ⟨m', run, bytes⟩ := @ih (idx + 1) (Function.update m idx 0x20#8) (by omega)
    refine ⟨m', fun turns => ?_, fun i => ?_⟩
    · cases turns with
      | zero => rfl
      | succ turns =>
        rw [padTurns, position, if_pos (by omega), ← BitVec.ofNat_add, run]
        exact if_congr (Nat.succ_lt_succ_iff).symm rfl rfl
    · rw [bytes]
      by_cases here : i = idx
      · rw [if_neg (by omega), if_pos (by omega), here, Function.update_self]
      · rw [Function.update_of_ne here]
        by_cases behind : idx + 1 ≤ i ∧ i < size
        · rw [if_pos behind, if_pos (by omega)]
        · rw [if_neg behind, if_neg (by omega)]

end Turns

/-! ## The text in the buffer -/

section Text

variable {str : Buffer} {m : Image} {s : List Byte}

theorem sprintf_eq {format : CString} {arg : Arg} {o : Out} (run : vsprintfFrom str.size format.val [arg] ⟨m, 0⟩ = .ok o)
    (content : Content str.size o.mem s) (noZero : 0#8 ∉ s) (short : s.length < str.size) :
    sprintf str m format arg = .ok (o.mem, BitVec.ofNat 8 s.length) := by
  unfold sprintf vsprintf
  dsimp only
  rw [run, ok_bind, content.strlen noZero short, ok_bind, Nat.mod_eq_of_lt (Nat.lt_of_lt_of_le short str.fits)]
  rfl

/-- A hexadecimal number over the text in the buffer. -/
theorem caseX_eq (w : BitVec 32) (content : Content str.size m s) (noZero : 0#8 ∉ s) (room : s.length < str.size)
    (digits : (numeralText 16 w.toNat).length < str.size) :
    ∃ m', caseX str m (.word w) = .ok (m', BitVec.ofNat 8 (numeralText 16 w.toNat ++ s.drop (numeralText 16 w.toNat).length).length) ∧
      Content str.size m' (numeralText 16 w.toNat ++ s.drop (numeralText 16 w.toNat).length) := by
  have after := content.puts (numeralText 16 w.toNat)
  have visible : 0#8 ∉ numeralText 16 w.toNat ++ s.drop (numeralText 16 w.toNat).length := by
    rw [List.mem_append, not_or]
    exact ⟨numeralText_noZero (by decide) (by decide), fun mem => noZero (List.mem_of_mem_drop mem)⟩
  have short : (numeralText 16 w.toNat ++ s.drop (numeralText 16 w.toNat).length).length < str.size := by
    rw [List.length_append, List.length_drop]
    omega
  have run : vsprintfFrom str.size formatX.val [.word w] ⟨m, 0⟩ = .ok _ := vsprintfFrom_hex w (by rw [Nat.zero_add]; omega)
  exact ⟨_, sprintf_eq run after visible short, after⟩

/-- A decimal number in an empty buffer. -/
theorem sprintf_dec (w : BitVec 32) (content : Content str.size m []) (digits : (signedText 10 w.toInt).length < str.size) :
    ∃ m' idx, sprintf str m formatD (.word w) = .ok (m', idx) ∧ Content str.size m' (signedText 10 w.toInt) := by
  have after := content.puts (signedText 10 w.toInt)
  rw [List.drop_nil, List.append_nil] at after
  have run : vsprintfFrom str.size formatD.val [.word w] ⟨m, 0⟩ = .ok ((⟨m, 0⟩ : Out).puts (signedText 10 w.toInt)) := by
    have item := @vsprintfFrom_item str.size ⟨m, 0⟩ [] [] (.dec w) (fun i _ inside => content i inside) (by rwa [Nat.zero_add])
    exact item
  exact ⟨_, _, sprintf_eq run after (signedText_noZero _) digits, after⟩

/-- What is shown of the text that the switch has left in the buffer. -/
theorem shows_iff {w : BitVec 32} {format : Byte} {text : List Byte}
    (converted : convert str (fill str.mem 0 str.size 0#8) (.word w) format = .ok (m, BitVec.ofNat 8 s.length))
    (content : Content str.size m s) (short : s.length < str.size) :
    Shows str w format text ↔ str.size ≤ 255 ∧ column str.size s = column str.size text := by
  have start : ∀ turns, padPrint turns str (.word w) format =
      (padTurns str.size turns (BitVec.ofNat 8 s.length) m >>= fun m => pure ((List.range (str.size - 1)).map m)) := by
    intro turns
    unfold padPrint
    dsimp only
    rw [converted]
    rfl
  by_cases small : str.size ≤ 255
  · obtain ⟨m', run, bytes⟩ := @padTurns_eq str.size small (str.size - s.length) s.length m (by omega)
    have shown : (List.range (str.size - 1)).map m' = column str.size s := by
      apply List.ext_getElem?
      intro i
      unfold column
      by_cases inside : i < str.size - 1
      · rw [List.getElem?_map, List.getElem?_range inside, Option.map_some, bytes]
        by_cases old : i < s.length
        · rw [if_neg (by omega), List.getElem?_append_left old, content i (by omega), List.getElem?_eq_getElem old, Option.getD_some]
        · rw [if_pos (by omega), List.getElem?_append_right (by omega), List.getElem?_replicate, if_pos (by omega)]
      · rw [List.getElem?_eq_none (by simp; omega), List.getElem?_eq_none (by simp; omega)]
    constructor
    · rintro ⟨turns, shows⟩
      rw [start, run] at shows
      split at shows
      · rw [ok_bind, pure_ok, shown] at shows
        exact ⟨small, shows⟩
      · cases shows
    · rintro ⟨_, same⟩
      refine ⟨str.size - s.length + 1, ?_⟩
      rw [start, run, if_pos (Nat.lt_succ_self _), ok_bind, shown, same]
      rfl
  · constructor
    · rintro ⟨turns, shows⟩
      rw [start, padTurns_diverges (by omega)] at shows
      cases shows
    · exact fun h => absurd h.1 small

end Text

/-! ## When the residue does not show -/

section Residue

/-- Further digits make a number greater. -/
theorem foldl_digits_le : ∀ (t : List Nat) (x : Nat), x * 10 ^ t.length ≤ t.foldl (fun v d => 10 * v + d) x := by
  intro t
  induction t with
  | nil => exact fun x => by simp
  | cons d t ih =>
    intro x
    calc x * 10 ^ (d :: t).length = 10 * x * 10 ^ t.length := by rw [List.length_cons, Nat.pow_succ']; ring
      _ ≤ (10 * x + d) * 10 ^ t.length := Nat.mul_le_mul_right _ (Nat.le_add_right _ _)
      _ ≤ t.foldl (fun v d => 10 * v + d) (10 * x + d) := ih _

/-- Five decimal digits that the lowest 16 bits of their value in the base 16 would need begin with a zero. -/
theorem five_digits {a b c d e : Nat} (db : b < 10) (dc : c < 10) (dd : d < 10) (de : e < 10)
    (low : (16 * (16 * (16 * (16 * (16 * 0 + a) + b) + c) + d) + e) % 65536 < 32768)
    (value : 10 * (10 * (10 * (10 * (10 * 0 + a) + b) + c) + d) + e = (16 * (16 * (16 * (16 * (16 * 0 + a) + b) + c) + d) + e) % 65536 ∨
      10 * (10 * (10 * (10 * (10 * (10 * 0 + a) + b) + c) + d) + e) ≤ (16 * (16 * (16 * (16 * (16 * 0 + a) + b) + c) + d) + e) % 65536) :
    a = 0 := by
  have rest : (16 * (16 * (16 * (16 * (16 * 0 + a) + b) + c) + d) + e) % 65536 = 4096 * b + 256 * c + 16 * d + e := by
    rw [show 16 * (16 * (16 * (16 * (16 * 0 + a) + b) + c) + d) + e = 65536 * a + (4096 * b + 256 * c + 16 * d + e) by ring,
      Nat.mul_add_mod]
    exact Nat.mod_eq_of_lt (by clear low value; omega)
  rw [rest] at low value
  clear rest
  obtain same | greater := value
  · have residue : 10000 * a = 3096 * b + 156 * c + 6 * d := by clear low; omega
    clear same
    have few : a ≤ 3 := by omega
    clear low
    interval_cases a
    · rfl
    · omega
    · omega
    · omega
  · omega

/-- The digits of a value, read in the base 16, are another value when there are two or more: the rest of the decimal
numeral makes it ten times as great, which four more digits in the base 16 do not. -/
theorem hex_prefix {w : Nat} (word : w < 2 ^ 32) (low : w % 65536 < 32768) (pre : numeral 16 w <+: numeral 10 (w % 65536)) : w < 10 := by
  obtain ⟨t, whole⟩ := pre
  have hex := numeral_foldl 16 w
  have dec := numeral_foldl 10 (w % 65536)
  have head := @numeral_head 16 w
  have short := @numeral_length_le 10 (w % 65536) 5 (by decide) (by decide) (by omega)
  have digits : ∀ d ∈ numeral 16 w, d < 10 := fun d mem => numeral_lt (by decide) (whole ▸ List.mem_append_left t mem)
  rw [← whole, List.foldl_append] at dec
  rw [← whole, List.length_append] at short
  have value : (numeral 16 w).foldl (fun v d => 10 * v + d) 0 = w % 65536 ∨
      10 * (numeral 16 w).foldl (fun v d => 10 * v + d) 0 ≤ w % 65536 := by
    cases t with
    | nil => exact .inl dec
    | cons d t =>
      right
      calc _ ≤ (numeral 16 w).foldl (fun v d => 10 * v + d) 0 * 10 ^ (d :: t).length := by
            rw [Nat.mul_comm, List.length_cons, Nat.pow_succ']
            exact Nat.mul_le_mul_left _ (Nat.le_mul_of_pos_right 10 (Nat.pow_pos (by decide)))
        _ ≤ _ := foldl_digits_le (d :: t) _
        _ = w % 65536 := dec
  have some_ : numeral 16 w ≠ [] := numeral_ne_nil
  generalize numeral 16 w = s at *
  obtain _ | ⟨a, _ | ⟨b, _ | ⟨c, _ | ⟨d, _ | ⟨e, _ | ⟨f, s⟩⟩⟩⟩⟩⟩ := s
  · exact absurd rfl some_
  · have small := digits a List.mem_cons_self
    rw [List.foldl_cons, List.foldl_nil] at hex
    omega
  · simp only [List.forall_mem_cons, List.foldl_cons, List.foldl_nil, List.head?_cons, Option.some.injEq] at digits hex value head
    rw [Nat.mod_eq_of_lt (by clear value low; omega)] at value
    omega
  · simp only [List.forall_mem_cons, List.foldl_cons, List.foldl_nil, List.head?_cons, Option.some.injEq] at digits hex value head
    rw [Nat.mod_eq_of_lt (by clear value low; omega)] at value
    omega
  · simp only [List.forall_mem_cons, List.foldl_cons, List.foldl_nil, List.head?_cons, Option.some.injEq] at digits hex value head
    rw [Nat.mod_eq_of_lt (by clear value low; omega)] at value
    omega
  · simp only [List.forall_mem_cons, List.foldl_cons, List.foldl_nil, List.head?_cons, Option.some.injEq] at digits hex value head
    obtain ⟨da, db, dc, dd, de, _⟩ := digits
    rw [← hex] at low value
    have zero : w = 0 := head (five_digits db dc dd de low value)
    rw [zero]
    decide
  · simp only [List.length_cons] at short
    omega

theorem filterMap_digitByte {ds : List Nat} (small : ∀ d ∈ ds, d < 36) : (ds.map digitByte).filterMap digitValue = ds := by
  rw [List.filterMap_map]
  calc ds.filterMap (digitValue ∘ digitByte) = ds.filterMap some := List.filterMap_congr fun d mem => digitValue_digitByte (small d mem)
    _ = ds := List.filterMap_some

/-- The two numbers of the case 'd' begin alike only below ten, and then they are the same. -/
theorem hex_prefix_dec {w : BitVec 32} : numeralText 16 w.toNat <+: signedText 10 (w.setWidth 16).toInt ↔ w.toNat < 10 := by
  have low : (w.setWidth 16).toNat = w.toNat % 65536 := BitVec.toNat_setWidth 16 w
  have value := BitVec.toInt_eq_toNat_cond (w.setWidth 16)
  rw [low] at value
  unfold signedText
  constructor
  · intro pre
    split at pre
    · obtain ⟨rest, whole⟩ := pre
      have head : (numeralText 16 w.toNat).head? = some 0x2d#8 := by
        rw [← List.head?_append_of_ne_nil _ numeralText_ne_nil, whole]
        rfl
      exact absurd head (numeralText_head_ne_sign (by decide) (by decide))
    · rename_i positive
      have small : w.toNat % 65536 < 32768 := by
        split at value <;> omega
      rw [show (w.setWidth 16).toInt.natAbs = w.toNat % 65536 by split at value <;> omega] at pre
      have digits := pre.filterMap digitValue
      unfold numeralText at digits
      rw [filterMap_digitByte fun d mem => Nat.lt_trans (numeral_lt (by decide) mem) (by decide),
        filterMap_digitByte fun d mem => Nat.lt_trans (numeral_lt (by decide) mem) (by decide)] at digits
      exact hex_prefix w.isLt small digits
  · intro small
    have same : (w.setWidth 16).toInt = w.toNat := by
      split at value <;> omega
    rw [same, if_neg (by omega), Int.natAbs_natCast, numeralText_of_lt (by omega), numeralText_of_lt small]

end Residue

/-! ## pad_print -/

/-- A text without blanks, over another one, fills its column only when it hides a beginning of it. -/
theorem column_eq_iff {n : Nat} {s t : List Byte} (visible : 0x20#8 ∉ s) : column n (s ++ t.drop s.length) = column n t ↔ s <+: t := by
  constructor
  · intro same
    have first : s <+: column n t := by
      rw [← same, column, List.append_assoc]
      exact List.prefix_append _ _
    obtain before | after := List.prefix_or_prefix_of_prefix first (List.prefix_append t _)
    · exact before
    · obtain ⟨r, rfl⟩ := after
      cases r with
      | nil => rw [List.append_nil]
      | cons c r =>
        have blanks := (List.prefix_append_right_inj t).1 first
        have blank : c = 0x20#8 := List.eq_of_mem_replicate (blanks.subset List.mem_cons_self)
        exact absurd (List.mem_append_right t (blank ▸ List.mem_cons_self)) visible
  · rintro ⟨r, rfl⟩
    rw [List.drop_left]

theorem numeralText_noBlank (n : Nat) : 0x20#8 ∉ numeralText 16 n := by
  unfold numeralText
  intro mem
  obtain ⟨d, digit, blank⟩ := List.mem_map.1 mem
  have value := digitValue_digitByte (Nat.lt_trans (numeral_lt (b := 16) (by decide) digit) (show 16 < 36 by decide))
  rw [blank] at value
  cases value

theorem fill_content (str : Buffer) : Content str.size (fill str.mem 0 str.size 0#8) [] :=
  fun i inside => fill_in (Nat.zero_le i) (by rwa [Nat.zero_add])

theorem numeralText_short (w : BitVec 32) : (numeralText 16 w.toNat).length ≤ 8 := by
  have fits : w.toNat < 16 ^ 8 := w.isLt
  exact numeralText_length_le (by decide) (by decide) fits

theorem signedText_short (v : BitVec 16) : (signedText 10 v.toInt).length ≤ 6 := by
  have value := BitVec.toInt_eq_toNat_cond v
  have range := v.isLt
  have fits : v.toInt.natAbs < 10 ^ 5 := by
    split at value <;> omega
  have digits := numeralText_length_le (by decide) (by decide) fits
  unfold signedText
  split
  · rw [List.length_cons]
    omega
  · omega

/-- With the format 'x' the number is right in a buffer of up to 255 bytes, and with 'd' only when it is
below ten besides, and so are the two bytes behind it. -/
theorem padPrint_iff (str : Buffer) (w : BitVec 32) (width : 16 ≤ str.size) :
    (Shows str w 0x64#8 (signedText 10 (w.setWidth 16).toInt) ↔ str.size ≤ 255 ∧ w.toNat < 10) ∧
      (Shows str w 0x78#8 (numeralText 16 w.toNat) ↔ str.size ≤ 255) := by
  have hex := numeralText_short w
  have dec := signedText_short (w.setWidth 16)
  constructor
  · have value : ((w.setWidth 16).signExtend 32).toInt = (w.setWidth 16).toInt := BitVec.toInt_signExtend_of_le (by decide)
    obtain ⟨m, idx, first, content⟩ := sprintf_dec ((w.setWidth 16).signExtend 32) (fill_content str) (by rw [value]; omega)
    rw [value] at content
    obtain ⟨m', second, content'⟩ := caseX_eq w content (signedText_noZero _) (by omega) (by omega)
    have converted : convert str (fill str.mem 0 str.size 0#8) (.word w) 0x64#8 = caseX str m (.word w) := by
      show caseD str (fill str.mem 0 str.size 0#8) (.word w) = _
      rw [caseD, first, ok_bind]
    rw [shows_iff (converted.trans second) content' (by rw [List.length_append, List.length_drop]; omega), column_eq_iff (numeralText_noBlank _),
      hex_prefix_dec]
  · obtain ⟨m, only, content⟩ := caseX_eq w (fill_content str) List.not_mem_nil (by rw [List.length_nil]; omega) (by omega)
    rw [List.drop_nil, List.append_nil] at only content
    have converted : convert str (fill str.mem 0 str.size 0#8) (.word w) 0x78#8 = caseX str (fill str.mem 0 str.size 0#8) (.word w) := rfl
    rw [shows_iff (converted.trans only) content (by omega), and_iff_left rfl]

/-- With the number 10 in a column of 16 the text is "A0". -/
theorem padPrint_ten : ¬ Shows ⟨fun _ => 0#8, 16, by decide⟩ 10#32 0x64#8 (signedText 10 ((10#32).setWidth 16).toInt) := by
  rw [(padPrint_iff _ _ (by decide)).1]
  exact fun h => absurd h.2 (by decide)

/-- The number 7 is shown in such a column, and so is 255 in hexadecimal. -/
theorem padPrint_seven : Shows ⟨fun _ => 0#8, 16, by decide⟩ 7#32 0x64#8 [0x37#8] ∧
    Shows ⟨fun _ => 0#8, 16, by decide⟩ 255#32 0x78#8 [0x46#8, 0x46#8] :=
  ⟨(padPrint_iff ⟨fun _ => 0#8, 16, by decide⟩ 7#32 (by decide)).1.2 (by decide),
    (padPrint_iff ⟨fun _ => 0#8, 16, by decide⟩ 255#32 (by decide)).2.2 (by decide)⟩

end Sparrow.Ps
