import Sparrow.Lib.Exec
import Sparrow.Lib.Numerals
import Mathlib.Logic.Function.Basic

/-!
# Formatted output

`itoa` and `vsprintf` of `lib/stdio.c`. A format is a list of pieces, each with its argument
(`Item`), and `vsprintf` puts the text of every piece into the destination (`vsprintf_exact`).
-/

namespace Sparrow.Stdio
set_option autoImplicit false

/-- The bytes of a string before its zero. -/
abbrev CString := { s : List Byte // 0#8 ∉ s }

/-- An array of `char` in memory. -/
structure Buffer where
  mem : Image
  size : Nat
  fits : size ≤ 2 ^ 32

/-- The destination and `buf_ptr`, as an index of it. -/
structure Out where
  mem : Image
  pos : Nat

/-- What a format takes from the stack: a pointer to a string, or a word. -/
inductive Arg where
  | string (s : CString)
  | word (w : BitVec 32)

/-- `*(buf_ptr++) = c`. -/
def putByte (size : Nat) (c : Byte) (o : Out) : Exec Out := do
  defined (o.pos < size)
  return ⟨Function.update o.mem o.pos c, o.pos + 1⟩

/-- `itoa` with so many calls at most. -/
def itoaCalls (size base : Nat) : Nat → Nat → Out → Exec Out
  | 0, _, _ => throw .diverge
  | calls + 1, value, o => do
    defined (base ≠ 0)
    let m := value % base
    let i := value / base
    let o ← if i ≠ 0 then itoaCalls size base calls i o else pure o
    if m < 10 then putByte size (BitVec.ofNat 8 (m + 0x30)) o else putByte size (BitVec.ofNat 8 (m - 10 + 0x41)) o

/-- From the base 2 on a 32-bit value has no more than 32 digits. -/
def itoa (size value base : Nat) (o : Out) : Exec Out := itoaCalls size base 32 value o

/-- `strcpy(buf_ptr, src)`, which does not move `buf_ptr`. -/
def strcpy (size : Nat) (src : CString) (o : Out) : Exec Out := do
  let o' ← (src.val ++ [0#8]).foldlM (fun o c => putByte size c o) o
  return { o' with pos := o.pos }

/-- `strlen` of the array from this index on, with so many bytes left. -/
def strlenFrom (m : Image) : Nat → Nat → Exec Nat
  | 0, _ => throw .undefined
  | left + 1, i => if m i = 0#8 then return i else strlenFrom m left (i + 1)

/-- `va_arg(ap, char *)`. -/
def vaString : List Arg → Exec (CString × List Arg)
  | .string s :: ap => return (s, ap)
  | _ => throw .undefined

/-- `va_arg(ap, int)`. -/
def vaInt : List Arg → Exec (BitVec 32 × List Arg)
  | .word w :: ap => return (w, ap)
  | _ => throw .undefined

/-- The case 'd'. -/
def putDecimal (size : Nat) (argInt : BitVec 32) (o : Out) : Exec Out :=
  if argInt.slt 0#32 then do
    let argInt := 0#32 - argInt
    let o ← putByte size 0x2d#8 o
    itoa size argInt.toNat 10 o
  else itoa size argInt.toNat 10 o

/-- The loop of `vsprintf` from `index_ptr` on. Behind a '%' an unknown character is not skipped. -/
def vsprintfFrom (size : Nat) : List Byte → List Arg → Out → Exec Out
  | [], _, o => return o
  | c :: format, ap, o =>
    if c ≠ 0x25#8 then do
      let o ← putByte size c o
      vsprintfFrom size format ap o
    else match format with
    | [] => return o
    | d :: format =>
      if d = 0x73#8 then do
        let (s, ap) ← vaString ap
        let o ← strcpy size s o
        vsprintfFrom size format ap { o with pos := o.pos + s.val.length }
      else if d = 0x63#8 then do
        let (w, ap) ← vaInt ap
        let o ← putByte size (w.setWidth 8) o
        vsprintfFrom size format ap o
      else if d = 0x64#8 then do
        let (argInt, ap) ← vaInt ap
        let o ← putDecimal size argInt o
        vsprintfFrom size format ap o
      else if d = 0x78#8 then do
        let (argInt, ap) ← vaInt ap
        let o ← itoa size argInt.toNat 16 o
        vsprintfFrom size format ap o
      else vsprintfFrom size (d :: format) ap o

/-- The destination afterwards, and what is returned. -/
def vsprintf (str : Buffer) (format : CString) (ap : List Arg) : Exec (Image × Nat) := do
  let o ← vsprintfFrom str.size format.val ap ⟨str.mem, 0⟩
  let len ← strlenFrom o.mem str.size 0
  return (o.mem, len % 2 ^ 32)

/-! ## Formats with their arguments -/

/-- A character of a format, or a directive with its argument. -/
inductive Item where
  | lit (c : Byte) (plain : c ≠ 0x25#8) (nonzero : c ≠ 0#8)
  | str (s : CString)
  | chr (w : BitVec 32) (nonzero : w.setWidth 8 ≠ 0#8)
  | dec (w : BitVec 32)
  | hex (w : BitVec 32)

/-- As it stands in the format. -/
def Item.source : Item → List Byte
  | .lit c _ _ => [c]
  | .str _ => [0x25#8, 0x73#8]
  | .chr _ _ => [0x25#8, 0x63#8]
  | .dec _ => [0x25#8, 0x64#8]
  | .hex _ => [0x25#8, 0x78#8]

def Item.args : Item → List Arg
  | .lit _ _ _ => []
  | .str s => [.string s]
  | .chr w _ => [.word w]
  | .dec w => [.word w]
  | .hex w => [.word w]

/-- What it is replaced by. -/
def Item.text : Item → List Byte
  | .lit c _ _ => [c]
  | .str s => s.val
  | .chr w _ => [w.setWidth 8]
  | .dec w => signedText 10 w.toInt
  | .hex w => numeralText 16 w.toNat

theorem Item.source_noZero (x : Item) : 0#8 ∉ x.source := by
  cases x with
  | lit c plain nonzero => simpa [Item.source] using nonzero.symm
  | str s => simp [Item.source]
  | chr w nonzero => simp [Item.source]
  | dec w => simp [Item.source]
  | hex w => simp [Item.source]

def formatOf (items : List Item) : CString :=
  ⟨items.flatMap Item.source, fun mem => by
    obtain ⟨x, _, zero⟩ := List.mem_flatMap.1 mem
    exact x.source_noZero zero⟩

def argsOf (items : List Item) : List Arg := items.flatMap Item.args

def textOf (items : List Item) : List Byte := items.flatMap Item.text

theorem signedText_noZero (i : Int) : 0#8 ∉ signedText 10 i := by
  have digits : ∀ n, 0#8 ∉ numeralText 10 n := fun n => numeralText_noZero (by decide) (by decide)
  unfold signedText
  split
  · rw [List.mem_cons, not_or]
    exact ⟨by decide, digits _⟩
  · exact digits _

theorem Item.text_noZero (x : Item) : 0#8 ∉ x.text := by
  cases x with
  | lit c plain nonzero => simpa [Item.text] using nonzero.symm
  | str s => exact s.property
  | chr w nonzero => simpa [Item.text] using nonzero.symm
  | dec w => exact signedText_noZero _
  | hex w => exact numeralText_noZero (by decide) (by decide)

theorem textOf_noZero (items : List Item) : 0#8 ∉ textOf items := by
  intro mem
  obtain ⟨x, _, zero⟩ := List.mem_flatMap.1 mem
  exact x.text_noZero zero

/-! ## The destination -/

/-- The bytes put one after another. -/
def Out.puts (o : Out) (s : List Byte) : Out :=
  s.foldl (fun o c => ⟨Function.update o.mem o.pos c, o.pos + 1⟩) o

/-- The destination is still zero from `buf_ptr` on. -/
def Blank (size : Nat) (o : Out) : Prop := ∀ i, o.pos ≤ i → i < size → o.mem i = 0#8

section Puts

variable {size base : Nat} {o : Out} {s s' : List Byte} {c : Byte}

@[simp] theorem puts_nil (o : Out) : o.puts [] = o := rfl

theorem puts_append (o : Out) (s s' : List Byte) : o.puts (s ++ s') = (o.puts s).puts s' := List.foldl_append

@[simp] theorem puts_pos (o : Out) (s : List Byte) : (o.puts s).pos = o.pos + s.length := by
  induction s generalizing o with
  | nil => rfl
  | cons c s ih =>
    rw [show o.puts (c :: s) = (o.puts [c]).puts s from rfl, ih, List.length_cons]
    show o.pos + 1 + s.length = _
    omega

theorem puts_out {i : Nat} (out : i < o.pos ∨ o.pos + s.length ≤ i) : (o.puts s).mem i = o.mem i := by
  induction s generalizing o with
  | nil => rfl
  | cons c s ih =>
    rw [List.length_cons] at out
    rw [show o.puts (c :: s) = (o.puts [c]).puts s from rfl, ih (show i < o.pos + 1 ∨ o.pos + 1 + s.length ≤ i by omega)]
    exact Function.update_of_ne (show i ≠ o.pos by omega) c o.mem

theorem puts_at {i : Nat} (at_ : s[i]? = some c) : (o.puts s).mem (o.pos + i) = c := by
  induction s generalizing o i with
  | nil => cases at_
  | cons d s ih =>
    rw [show o.puts (d :: s) = (o.puts [d]).puts s from rfl]
    cases i with
    | zero =>
      rw [puts_out (.inl (show o.pos + 0 < o.pos + 1 by omega))]
      rw [List.getElem?_cons_zero, Option.some.injEq] at at_
      rw [← at_]
      exact Function.update_self o.pos d o.mem
    | succ i => exact (congrArg (((o.puts [d]).puts s).mem ·) (show o.pos + (i + 1) = o.pos + 1 + i by omega)).trans (ih at_)

theorem Blank.puts (blank : Blank size o) (s : List Byte) : Blank size (o.puts s) := by
  intro i behind inside
  rw [puts_pos] at behind
  rw [puts_out (.inr behind)]
  exact blank i (by omega) inside

theorem putByte_of (room : o.pos < size) (c : Byte) : putByte size c o = .ok (o.puts [c]) := by
  unfold putByte
  rw [defined_of room]
  rfl

theorem foldlM_putByte (room : o.pos + s.length ≤ size) : s.foldlM (fun o c => putByte size c o) o = .ok (o.puts s) := by
  induction s generalizing o with
  | nil => rfl
  | cons c s ih =>
    rw [List.length_cons] at room
    rw [List.foldlM_cons, putByte_of (by omega), ok_bind, ih (show o.pos + 1 + s.length ≤ size by omega)]
    rfl

/-- The zero of a string that is copied changes nothing in a blank destination. -/
theorem strcpy_blank {src : CString} (blank : Blank size o) (room : o.pos + src.val.length < size) :
    strcpy size src o = .ok ⟨(o.puts src.val).mem, o.pos⟩ := by
  have last : ((o.puts src.val).puts [0#8]).mem = (o.puts src.val).mem := by
    refine Function.update_eq_self_iff.2 ?_
    exact (blank.puts src.val _ (Nat.le_refl _) (by rwa [puts_pos])).symm
  unfold strcpy
  rw [foldlM_putByte (by rw [List.length_append]; exact room), ok_bind, puts_append, last]
  rfl

theorem puts_eta (o : Out) (s : List Byte) : (⟨(o.puts s).mem, o.pos + s.length⟩ : Out) = o.puts s := by
  rw [← puts_pos]

/-- The digits of a value, most significant first: by induction on the calls, each of which divides by the base. -/
theorem itoaCalls_eq (one : 1 < base) : ∀ {calls value : Nat} {o : Out}, 0 < calls → value < base ^ calls →
    o.pos + (numeralText base value).length ≤ size → itoaCalls size base calls value o = .ok (o.puts (numeralText base value)) := by
  intro calls
  induction calls with
  | zero => exact fun positive => absurd positive (Nat.lt_irrefl 0)
  | succ calls ih =>
    intro value o _ fits room
    have last : ∀ o' : Out, o'.pos < size →
        (if value % base < 10 then putByte size (BitVec.ofNat 8 (value % base + 0x30)) o'
          else putByte size (BitVec.ofNat 8 (value % base - 10 + 0x41)) o') = .ok (o'.puts [digitByte (value % base)]) := by
      intro o' room'
      unfold digitByte
      split
      · exact putByte_of room' _
      · exact putByte_of room' _
    rw [itoaCalls, defined_of (by omega), ok_bind]
    dsimp only
    by_cases small : value < base
    · rw [if_neg (not_not_intro (Nat.div_eq_of_lt small)), pure_bind]
      rw [numeralText_of_lt small] at room ⊢
      rw [last o room, Nat.mod_eq_of_lt small]
    · have quotient : value / base ≠ 0 := (Nat.div_pos (by omega) (by omega)).ne'
      have below : value / base < base ^ calls := Nat.div_lt_of_lt_mul (by rwa [← Nat.pow_succ'])
      have positive : 0 < calls := by
        rcases Nat.eq_zero_or_pos calls with rfl | positive
        · exact absurd (Nat.lt_one_iff.1 below) quotient
        · exact positive
      rw [numeralText_of_le one (by omega)] at room ⊢
      rw [List.length_append, List.length_singleton] at room
      rw [if_pos quotient, ih positive below (by omega), ok_bind, last _ (by rw [puts_pos]; omega), ← puts_append]

theorem itoa_eq {value : Nat} (one : 1 < base) (word : value < 2 ^ 32) (room : o.pos + (numeralText base value).length ≤ size) :
    itoa size value base o = .ok (o.puts (numeralText base value)) :=
  itoaCalls_eq one (by omega) (Nat.lt_of_lt_of_le word (Nat.pow_le_pow_left one 32)) room

end Puts

/-! ## The loop -/

section Loop

variable {size : Nat} {o : Out} {format : List Byte} {ap : List Arg}

/-- The sign and the negation, which at the least number gives its absolute value all the same. -/
theorem putDecimal_eq (w : BitVec 32) (room : o.pos + (signedText 10 w.toInt).length ≤ size) :
    putDecimal size w o = .ok (o.puts (signedText 10 w.toInt)) := by
  unfold putDecimal signedText at *
  have sign : w.slt 0#32 ↔ w.toInt < 0 := BitVec.slt_iff_toInt_lt
  have value := BitVec.toInt_eq_toNat_cond w
  have range := w.isLt
  by_cases negative : w.toInt < 0
  · have abs : (0#32 - w).toNat = w.toInt.natAbs := by
      rw [BitVec.toNat_sub, BitVec.toNat_ofNat]
      split at value <;> omega
    rw [if_pos negative, List.length_cons] at room
    rw [if_pos (sign.2 negative), if_pos negative]
    dsimp only
    rw [putByte_of (by omega), ok_bind, itoa_eq (by decide) (0#32 - w).isLt (by rw [puts_pos, abs, List.length_singleton]; omega), abs]
    rfl
  · have abs : w.toNat = w.toInt.natAbs := by
      split at value <;> omega
    rw [if_neg negative] at room
    rw [if_neg (fun h => negative (sign.1 h)), if_neg negative, ← abs]
    exact itoa_eq (by decide) range (by rwa [abs])

/-- A hexadecimal number may overwrite what is there. -/
theorem vsprintfFrom_hex (w : BitVec 32) (room : o.pos + (numeralText 16 w.toNat).length ≤ size) :
    vsprintfFrom size (0x25#8 :: 0x78#8 :: format) (.word w :: ap) o = vsprintfFrom size format ap (o.puts (numeralText 16 w.toNat)) := by
  show (itoa size w.toNat 16 o >>= fun o => vsprintfFrom size format ap o) = _
  rw [itoa_eq (by decide) w.isLt room, ok_bind]

/-- One piece of the format. -/
theorem vsprintfFrom_item (x : Item) (blank : Blank size o) (room : o.pos + x.text.length < size) :
    vsprintfFrom size (x.source ++ format) (x.args ++ ap) o = vsprintfFrom size format ap (o.puts x.text) := by
  cases x with
  | lit c plain nonzero =>
    have step : vsprintfFrom size (c :: format) ap o = (putByte size c o >>= fun o => vsprintfFrom size format ap o) := by
      rw [vsprintfFrom.eq_def]
      exact if_pos plain
    exact step.trans (by rw [putByte_of (Nat.lt_of_succ_lt room), ok_bind]; rfl)
  | str s =>
    show (strcpy size s o >>= fun o => vsprintfFrom size format ap { o with pos := o.pos + s.val.length }) = _
    rw [strcpy_blank blank room, ok_bind, puts_eta]
    rfl
  | chr w nonzero =>
    show (putByte size (w.setWidth 8) o >>= fun o => vsprintfFrom size format ap o) = _
    rw [putByte_of (Nat.lt_of_succ_lt room), ok_bind]
    rfl
  | dec w =>
    show (putDecimal size w o >>= fun o => vsprintfFrom size format ap o) = _
    rw [putDecimal_eq w (Nat.le_of_lt room), ok_bind]
    rfl
  | hex w => exact vsprintfFrom_hex w (Nat.le_of_lt room)

/-- The whole format, by induction on its pieces. -/
theorem vsprintfFrom_items : ∀ {items : List Item} {o : Out}, Blank size o → o.pos + (textOf items).length < size →
    vsprintfFrom size (formatOf items).val (argsOf items) o = .ok (o.puts (textOf items)) := by
  intro items
  induction items with
  | nil => exact fun _ _ => rfl
  | cons x items ih =>
    intro o blank room
    have text : textOf (x :: items) = x.text ++ textOf items := rfl
    rw [text, List.length_append] at room
    rw [text, puts_append]
    refine (vsprintfFrom_item x blank (by omega)).trans (ih (blank.puts x.text) ?_)
    rw [puts_pos]
    omega

theorem strlenFrom_eq {m : Image} {k : Nat} : ∀ {left i : Nat}, k < left → (∀ j, j < k → m (i + j) ≠ 0#8) → m (i + k) = 0#8 →
    strlenFrom m left i = .ok (i + k) := by
  induction k with
  | zero =>
    intro left i room _ zero
    obtain ⟨left, rfl⟩ := Nat.exists_eq_succ_of_ne_zero (Nat.ne_of_gt room)
    exact if_pos zero
  | succ k ih =>
    intro left i room nonzero zero
    obtain ⟨left, rfl⟩ := Nat.exists_eq_succ_of_ne_zero (Nat.ne_of_gt (Nat.zero_lt_of_lt room))
    have first : m i ≠ 0#8 := nonzero 0 (Nat.succ_pos k)
    have next : ∀ j, i + 1 + j = i + (j + 1) := fun j => by omega
    rw [strlenFrom, if_neg first, ← next k]
    refine ih (Nat.lt_of_succ_lt_succ room) (fun j less => ?_) ?_
    · rw [next]
      exact nonzero (j + 1) (Nat.succ_lt_succ less)
    · rwa [next]

/-- The destination holds the text, and zeros behind it. -/
def Content (size : Nat) (m : Image) (s : List Byte) : Prop := ∀ i, i < size → m i = s[i]?.getD 0#8

/-- A text that is put at the start hides as much of what was there. -/
theorem Content.puts {m : Image} {s : List Byte} (content : Content size m s) (s' : List Byte) :
    Content size ((⟨m, 0⟩ : Out).puts s').mem (s' ++ s.drop s'.length) := by
  intro i inside
  by_cases new : i < s'.length
  · have byte := @puts_at ⟨m, 0⟩ s' s'[i] i (List.getElem?_eq_getElem new)
    rw [Nat.zero_add] at byte
    rw [byte, List.getElem?_append_left new, List.getElem?_eq_getElem new, Option.getD_some]
  · rw [puts_out (.inr (show 0 + s'.length ≤ i by omega)), List.getElem?_append_right (by omega), List.getElem?_drop,
      show s'.length + (i - s'.length) = i by omega]
    exact content i inside

theorem Content.strlen {m : Image} {s : List Byte} (content : Content size m s) (noZero : 0#8 ∉ s) (room : s.length < size) :
    strlenFrom m size 0 = .ok s.length := by
  have len : strlenFrom m size 0 = .ok (0 + s.length) := by
    refine strlenFrom_eq room (fun j less isZero => ?_) ?_
    · rw [Nat.zero_add, content j (by omega), List.getElem?_eq_getElem less, Option.getD_some] at isZero
      exact noZero (isZero ▸ List.getElem_mem less)
    · rw [Nat.zero_add, content _ room, List.getElem?_eq_none (Nat.le_refl _), Option.getD_none]
  rwa [Nat.zero_add] at len

end Loop

/-- The destination holds the text, with its zero. -/
structure Wrote (m : Image) (s : List Byte) : Prop where
  bytes : ∀ i c, s[i]? = some c → m i = c
  ends : m s.length = 0#8

/-- `vsprintf` writes the text of the pieces and returns its length, and its numerals are the ones of
their values. -/
theorem vsprintf_exact (str : Buffer) (items : List Item) (zero : ∀ i, i < str.size → str.mem i = 0#8)
    (room : (textOf items).length < str.size) :
    (∃ m, vsprintf str (formatOf items) (argsOf items) = .ok (m, (textOf items).length) ∧ Wrote m (textOf items)) ∧
      (∀ w : BitVec 32, readSigned 10 (Item.dec w).text = some w.toInt ∧ ¬ LeadingZero (Item.dec w).text) ∧
      ∀ w : BitVec 32, readNumeral 16 (Item.hex w).text = some w.toNat ∧ ¬ LeadingZero (Item.hex w).text := by
  have empty : Content str.size str.mem [] := fun i inside => zero i inside
  have content := empty.puts (textOf items)
  rw [List.drop_nil, List.append_nil] at content
  refine ⟨⟨((⟨str.mem, 0⟩ : Out).puts (textOf items)).mem, ?_, fun i c at_ => ?_, ?_⟩, fun w => ⟨?_, ?_⟩, fun w => ⟨?_, ?_⟩⟩
  · have run := @vsprintfFrom_items str.size items ⟨str.mem, 0⟩ (fun i _ => zero i) (by rwa [Nat.zero_add])
    unfold vsprintf
    rw [run, ok_bind, content.strlen (textOf_noZero items) room, ok_bind, Nat.mod_eq_of_lt (Nat.lt_of_lt_of_le room str.fits)]
    rfl
  · have inside := (List.getElem?_eq_some_iff.1 at_).1
    rw [content i (by omega), at_, Option.getD_some]
  · rw [content _ room, List.getElem?_eq_none (Nat.le_refl _), Option.getD_none]
  · exact readSigned_signedText (by decide) (by decide) _
  · exact signedText_not_leadingZero (by decide) (by decide) _
  · exact readNumeral_numeralText (by decide) (by decide) _
  · exact numeralText_not_leadingZero (by decide) (by decide) _

/-- "%d %x", the least number and 255. -/
theorem vsprintf_exact_least :
    let items := [.dec 0x80000000#32, .lit 0x20#8 (by decide) (by decide), .hex 255#32]
    ∃ m, vsprintf ⟨fun _ => 0#8, 1024, by decide⟩ (formatOf items) (argsOf items) = .ok (m, 14) ∧
      Wrote m [0x2d#8, 0x32#8, 0x31#8, 0x34#8, 0x37#8, 0x34#8, 0x38#8, 0x33#8, 0x36#8, 0x34#8, 0x38#8, 0x20#8, 0x46#8, 0x46#8] :=
  (vsprintf_exact ⟨fun _ => 0#8, 1024, by decide⟩ [.dec 0x80000000#32, .lit 0x20#8 (by decide) (by decide), .hex 255#32]
    (fun _ _ => rfl) (by decide)).1

end Sparrow.Stdio
