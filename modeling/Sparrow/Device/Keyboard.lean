import Sparrow.Device.Ioqueue
import Mathlib.Logic.Function.Basic

/-!
# The keyboard's interrupt

`intr_keyboard_handler` of `device/keyboard.c` puts the bytes of scancodes together and keeps a flag for
each of ctrl, shift and alt. The two keys of a kind share its flag, which is lowered when either of
them is released: `modifiers_iff` says in which runs that goes unnoticed.
-/

namespace Sparrow.Keyboard
set_option autoImplicit false

def shiftLMake : BitVec 16 := 0x2a#16
def shiftRMake : BitVec 16 := 0x36#16
def altLMake : BitVec 16 := 0x38#16
def altRMake : BitVec 16 := 0xe038#16
def ctrlLMake : BitVec 16 := 0x1d#16
def ctrlRMake : BitVec 16 := 0xe01d#16
def capsLockMake : BitVec 16 := 0x3a#16

/-- `keymap`: the characters of a key without and with shift. -/
def keymap : List (Byte × Byte) := [
  -- 0x00: none, escape, the digits, '-', '=', backspace and tab
  (0x00#8, 0x00#8), (0x1b#8, 0x1b#8), (0x31#8, 0x21#8), (0x32#8, 0x40#8), (0x33#8, 0x23#8), (0x34#8, 0x24#8),
  (0x35#8, 0x25#8), (0x36#8, 0x5e#8), (0x37#8, 0x26#8), (0x38#8, 0x2a#8), (0x39#8, 0x28#8), (0x30#8, 0x29#8),
  (0x2d#8, 0x5f#8), (0x3d#8, 0x2b#8), (0x08#8, 0x08#8), (0x09#8, 0x09#8),
  -- 0x10: 'q' to 'p', the brackets and enter
  (0x71#8, 0x51#8), (0x77#8, 0x57#8), (0x65#8, 0x45#8), (0x72#8, 0x52#8), (0x74#8, 0x54#8), (0x79#8, 0x59#8),
  (0x75#8, 0x55#8), (0x69#8, 0x49#8), (0x6f#8, 0x4f#8), (0x70#8, 0x50#8), (0x5b#8, 0x7b#8), (0x5d#8, 0x7d#8),
  (0x0d#8, 0x0d#8),
  -- 0x1d: ctrl, 'a' to 'l', ';', the quotes
  (0x00#8, 0x00#8), (0x61#8, 0x41#8), (0x73#8, 0x53#8), (0x64#8, 0x44#8), (0x66#8, 0x46#8), (0x67#8, 0x47#8),
  (0x68#8, 0x48#8), (0x6a#8, 0x4a#8), (0x6b#8, 0x4b#8), (0x6c#8, 0x4c#8), (0x3b#8, 0x3a#8), (0x27#8, 0x22#8),
  (0x60#8, 0x7e#8),
  -- 0x2a: shift, the backslash, 'z' to 'm', ',', '.', '/', shift
  (0x00#8, 0x00#8), (0x5c#8, 0x7c#8), (0x7a#8, 0x5a#8), (0x78#8, 0x58#8), (0x63#8, 0x43#8), (0x76#8, 0x56#8),
  (0x62#8, 0x42#8), (0x6e#8, 0x4e#8), (0x6d#8, 0x4d#8), (0x2c#8, 0x3c#8), (0x2e#8, 0x3e#8), (0x2f#8, 0x3f#8),
  (0x00#8, 0x00#8),
  -- 0x37: '*', alt, the blank, caps lock
  (0x2a#8, 0x2a#8), (0x00#8, 0x00#8), (0x20#8, 0x20#8), (0x00#8, 0x00#8)]

/-- The variables of `keyboard.c`, and what has been printed. -/
structure Kbd where
  ctrlStatus : Nat
  shiftStatus : Nat
  altStatus : Nat
  capsLockStatus : Nat
  extScancode : Nat
  kbdBuf : Ioqueue
  shown : List String

/-- `keyboard_init`. -/
def keyboardInit : Kbd := ⟨0, 0, 0, 0, 0, ioqueueInit, ["keyboard init start\n", "keyboard init done\n"]⟩

/-- The keys whose second character is not their capital letter. -/
def twoLetters (scancode : BitVec 16) : Bool :=
  scancode < 0x0e#16 || scancode == 0x29#16 || scancode == 0x1a#16 || scancode == 0x1b#16 || scancode == 0x2b#16 ||
    scancode == 0x27#16 || scancode == 0x28#16 || scancode == 0x33#16 || scancode == 0x34#16 || scancode == 0x35#16

/-- The column of `keymap`. -/
def shiftColumn (scancode : BitVec 16) (s : Kbd) : Bool :=
  if twoLetters scancode then s.shiftStatus != 0 else s.shiftStatus + s.capsLockStatus == 1

/-- `keymap[index][shift]`. -/
def keymapAt (index : Nat) (shift : Bool) : Exec Byte := do
  defined (index < keymap.length)
  let row := keymap.getD index (0#8, 0#8)
  return if shift then row.2 else row.1

/-- A character for the tasks, with ctrl+l and ctrl+u moved out of the letters. When the buffer is full
it is lost. -/
def putKey (curChar : Byte) (s : Kbd) : Exec Kbd := do
  let curChar := if (s.ctrlStatus ≠ 0 ∧ curChar = 0x6c#8) ∨ (s.ctrlStatus ≠ 0 ∧ curChar = 0x75#8) then curChar - 0x61#8 else curChar
  if nextPos s.kbdBuf.head = s.kbdBuf.tail then return s
  let q ← ioqPutchar s.kbdBuf curChar
  return { s with kbdBuf := q }

/-- The break code of the key with this make code. -/
def released (makeCode : BitVec 16) (s : Kbd) : Kbd :=
  if makeCode = ctrlLMake ∨ makeCode = ctrlRMake then { s with ctrlStatus := 0 }
  else if makeCode = shiftLMake ∨ makeCode = shiftRMake then { s with shiftStatus := 0 }
  else if makeCode = altLMake ∨ makeCode = altRMake then { s with altStatus := 0 }
  else s

/-- The make code of a key that is handled. -/
def pressed (scancode : BitVec 16) (s : Kbd) : Exec Kbd :=
  let index := (scancode &&& 0x00ff#16).toNat
  if scancode = ctrlLMake ∨ scancode = ctrlRMake then return { s with ctrlStatus := 1 }
  else if scancode = shiftLMake ∨ scancode = shiftRMake then return { s with shiftStatus := 1 }
  else if scancode = altLMake ∨ scancode = altRMake then return { s with altStatus := 1 }
  else if scancode = capsLockMake then return { s with capsLockStatus := if s.capsLockStatus = 0 then 1 else 0 }
  else do
    let curChar ← keymapAt index (shiftColumn scancode s)
    if curChar ≠ 0#8 then putKey curChar s else return s

/-- The handler with the whole scancode. -/
def handleCode (scancode : BitVec 16) (s : Kbd) : Exec Kbd :=
  if scancode &&& 0x0080#16 ≠ 0#16 then return released (scancode &&& 0xff7f#16) s
  else if (0x00#16 < scancode ∧ scancode < 0x3b#16) ∨ scancode = altRMake ∨ scancode = ctrlRMake then pressed scancode s
  else return { s with shown := s.shown ++ ["unknown key\n"] }

/-- `intr_keyboard_handler` when port 0x60 gives this byte. -/
def intrKeyboardHandler (byte : Byte) (s : Kbd) : Exec Kbd :=
  let scancode := byte.setWidth 16
  if scancode = 0xe0#16 then return { s with extScancode := 1 }
  else if s.extScancode ≠ 0 then handleCode (0xe000#16 ||| scancode) { s with extScancode := 0 }
  else handleCode scancode s

/-- The interrupts for these bytes. Tasks take characters from the buffer in between, so that each
finds it as they have left it. -/
def Interrupts : List Byte → Kbd → Kbd → Prop
  | [], s, s' => s' = s
  | byte :: bytes, s, s' => ∃ q s₁, intrKeyboardHandler byte { s with kbdBuf := q } = .ok s₁ ∧ Interrupts bytes s₁ s'

/-! ## What a keyboard sends -/

/-- A key by its make code. The code 0x60 does not exist, as its break code would be the prefix 0xe0. -/
structure Key where
  extended : Bool
  code : Byte
  positive : code ≠ 0#8
  low : code < 0x80#8
  plain : code ≠ 0x60#8
  deriving DecidableEq

inductive Modifier where
  | ctrl
  | shift
  | alt
  deriving DecidableEq, Repr

def Modifier.left : Modifier → Key
  | .ctrl => ⟨false, 0x1d#8, by decide, by decide, by decide⟩
  | .shift => ⟨false, 0x2a#8, by decide, by decide, by decide⟩
  | .alt => ⟨false, 0x38#8, by decide, by decide, by decide⟩

def Modifier.right : Modifier → Key
  | .ctrl => ⟨true, 0x1d#8, by decide, by decide, by decide⟩
  | .shift => ⟨false, 0x36#8, by decide, by decide, by decide⟩
  | .alt => ⟨true, 0x38#8, by decide, by decide, by decide⟩

/-- The key is one of this kind. -/
def Modifier.Has (m : Modifier) (k : Key) : Prop := k = m.left ∨ k = m.right

instance (m : Modifier) (k : Key) : Decidable (m.Has k) := inferInstanceAs (Decidable (_ ∨ _))

/-- The flag of a kind. -/
def Kbd.status (s : Kbd) : Modifier → Nat
  | .ctrl => s.ctrlStatus
  | .shift => s.shiftStatus
  | .alt => s.altStatus

/-- The keys that are down. -/
abbrev Down := Key → Bool

/-- A key of the kind is down. -/
def Modifier.Held (m : Modifier) (down : Down) : Prop := down m.left = true ∨ down m.right = true

instance (m : Modifier) (down : Down) : Decidable (m.Held down) := inferInstanceAs (Decidable (_ ∨ _))

/-- What happens at the keyboard. The codes 0xe02a and 0xe036 a keyboard puts around those of some keys
count as keys of their own. -/
inductive Event where
  /-- Pressed, or held so long that it repeats. -/
  | press (k : Key)
  | release (k : Key)
  /-- The pause key has a code of six bytes and none for its release; with ctrl it is another key. -/
  | pause

/-- The prefix of a two-byte code. -/
def Key.pre (k : Key) : List Byte := if k.extended then [0xe0#8] else []

/-- The bytes of the event's codes. -/
def Event.bytes (down : Down) : Event → List Byte
  | .press k => k.pre ++ [k.code]
  | .release k => k.pre ++ [k.code ||| 0x80#8]
  | .pause => if Modifier.ctrl.Held down then [0xe0#8, 0x46#8, 0xe0#8, 0xc6#8] else [0xe1#8, 0x1d#8, 0x45#8, 0xe1#8, 0x9d#8, 0xc5#8]

def Event.after (down : Down) : Event → Down
  | .press k => Function.update down k true
  | .release k => Function.update down k false
  | .pause => down

def bytesOf : Down → List Event → List Byte
  | _, [] => []
  | down, e :: events => e.bytes down ++ bytesOf (e.after down) events

def downAfter (down : Down) (events : List Event) : Down := events.foldl Event.after down

/-- No key is down. -/
def allUp : Down := fun _ => false

/-- After every event the flags say which kinds are held, and no interrupt looks outside the rows of
`keymap`. -/
def Tracked (events : List Event) : Prop :=
  (∀ k s, Interrupts (bytesOf allUp (events.take k)) keyboardInit s →
    ∀ m, s.status m = 1 ↔ m.Held (downAfter allUp (events.take k))) ∧
  ∀ k s byte q, Interrupts ((bytesOf allUp events).take k) keyboardInit s → (bytesOf allUp events)[k]? = some byte →
    ∃ s', intrKeyboardHandler byte { s with kbdBuf := q } = .ok s'

/-- The event does not release a key while the other of its kind stays down. -/
def Event.Alone (down : Down) : Event → Prop
  | .release k => ∀ m : Modifier, (k = m.left → down m.right = false) ∧ (k = m.right → down m.left = false)
  | _ => True

/-! ## One interrupt -/

/-- The kind of the key with this make code. -/
def modifierOf (makeCode : BitVec 16) : Option Modifier :=
  if makeCode = ctrlLMake ∨ makeCode = ctrlRMake then some .ctrl
  else if makeCode = shiftLMake ∨ makeCode = shiftRMake then some .shift
  else if makeCode = altLMake ∨ makeCode = altRMake then some .alt
  else none

/-- What a scancode does to the flag of a kind. -/
def flagAfter (scancode : BitVec 16) (m : Modifier) (flag : Nat) : Nat :=
  if modifierOf (scancode &&& 0xff7f#16) = some m then if scancode &&& 0x0080#16 = 0#16 then 1 else 0 else flag

/-- The state after a step: the flags are what the scancode makes of them, and no prefix is waiting. -/
structure Handled (scancode : BitVec 16) (s s' : Kbd) : Prop where
  ext : s'.extScancode = s.extScancode
  status : ∀ m, s'.status m = flagAfter scancode m (s.status m)

section Interrupt

variable {s s' : Kbd} {byte : Byte} {scancode : BitVec 16}

/-- A character changes the buffer only, and never sleeps. -/
theorem putKey_eq (curChar : Byte) (s : Kbd) : ∃ q, putKey curChar s = .ok { s with kbdBuf := q } := by
  unfold putKey
  by_cases full : nextPos s.kbdBuf.head = s.kbdBuf.tail
  · exact ⟨s.kbdBuf, if_pos full⟩
  · simp only [if_neg full, ioqPutchar]
    exact ⟨_, rfl⟩

theorem released_handled (isBreak : scancode &&& 0x0080#16 ≠ 0#16) :
    Handled scancode s (released (scancode &&& 0xff7f#16) s) := by
  refine ⟨?_, fun m => ?_⟩
  · unfold released
    split
    · rfl
    · split
      · rfl
      · split <;> rfl
  · unfold flagAfter modifierOf released
    rw [if_neg isBreak]
    split
    · cases m <;> rfl
    · split
      · cases m <;> rfl
      · split <;> cases m <;> rfl

/-- The row of a scancode below 0x3b exists. -/
theorem keymapAt_ok {index : Nat} (inside : index < 0x3b) (shift : Bool) : ∃ curChar, keymapAt index shift = .ok curChar := by
  have row : index < keymap.length := inside
  unfold keymapAt
  rw [defined_of row]
  exact ⟨_, rfl⟩

theorem and_low (small : scancode < 0x3b#16) : (scancode &&& 0x00ff#16).toNat < 0x3b := by
  have below : scancode.toNat < 0x3b := small
  rw [BitVec.toNat_and]
  exact Nat.lt_of_le_of_lt Nat.and_le_left below

/-- A make code that is handled: its row of `keymap` exists, or none is looked up. -/
theorem pressed_handled (known : (0x00#16 < scancode ∧ scancode < 0x3b#16) ∨ scancode = altRMake ∨ scancode = ctrlRMake)
    (isMake : scancode &&& 0x0080#16 = 0#16) (same : scancode &&& 0xff7f#16 = scancode) :
    ∃ s', pressed scancode s = .ok s' ∧ Handled scancode s s' := by
  have flag : ∀ m v, flagAfter scancode m v = if modifierOf scancode = some m then 1 else v := by
    intro m v
    rw [flagAfter, same, if_pos isMake]
  unfold pressed
  by_cases ctrl : scancode = ctrlLMake ∨ scancode = ctrlRMake
  · rw [if_pos ctrl]
    refine ⟨_, rfl, rfl, fun m => ?_⟩
    rw [flag, modifierOf, if_pos ctrl]
    cases m <;> rfl
  rw [if_neg ctrl]
  by_cases shift : scancode = shiftLMake ∨ scancode = shiftRMake
  · rw [if_pos shift]
    refine ⟨_, rfl, rfl, fun m => ?_⟩
    rw [flag, modifierOf, if_neg ctrl, if_pos shift]
    cases m <;> rfl
  rw [if_neg shift]
  by_cases alt : scancode = altLMake ∨ scancode = altRMake
  · rw [if_pos alt]
    refine ⟨_, rfl, rfl, fun m => ?_⟩
    rw [flag, modifierOf, if_neg ctrl, if_neg shift, if_pos alt]
    cases m <;> rfl
  rw [if_neg alt]
  have none : ∀ m v, flagAfter scancode m v = v := by
    intro m v
    rw [flag, modifierOf, if_neg ctrl, if_neg shift, if_neg alt, if_neg (by simp)]
  by_cases caps : scancode = capsLockMake
  · rw [if_pos caps]
    refine ⟨_, rfl, rfl, fun m => ?_⟩
    rw [none]
    cases m <;> rfl
  rw [if_neg caps]
  have small : scancode < 0x3b#16 := by
    obtain below | isAlt | isCtrl := known
    · exact below.2
    · exact absurd (.inr isAlt) alt
    · exact absurd (.inr isCtrl) ctrl
  obtain ⟨curChar, found⟩ := keymapAt_ok (and_low small) (shiftColumn scancode s)
  rw [found, ok_bind]
  by_cases visible : curChar ≠ 0#8
  · obtain ⟨q, put⟩ := putKey_eq curChar s
    rw [if_pos visible]
    refine ⟨_, put, rfl, fun m => ?_⟩
    rw [none]
    cases m <;> rfl
  · rw [if_neg visible]
    exact ⟨s, rfl, rfl, fun m => (none m _).symm⟩

/-- A make code has its bits but one, which is not set. -/
theorem make_and (isMake : scancode &&& 0x0080#16 = 0#16) : scancode &&& 0xff7f#16 = scancode :=
  calc scancode &&& 0xff7f#16 = (scancode &&& 0xff7f#16) ||| (scancode &&& 0x0080#16) := by rw [isMake, BitVec.or_zero]
    _ = scancode &&& (0xff7f#16 ||| 0x0080#16) := BitVec.and_or_distrib_left.symm
    _ = scancode := BitVec.and_allOnes

/-- The modifier keys are handled. -/
theorem modifierOf_known {m : Modifier} (is : modifierOf scancode = some m) :
    (0x00#16 < scancode ∧ scancode < 0x3b#16) ∨ scancode = altRMake ∨ scancode = ctrlRMake := by
  unfold modifierOf at is
  split at is
  · rename_i ctrl
    obtain rfl | rfl := ctrl <;> decide
  · split at is
    · rename_i shift
      obtain rfl | rfl := shift <;> decide
    · split at is
      · rename_i alt
        obtain rfl | rfl := alt <;> decide
      · cases is

/-- **A whole scancode**: it is handled without a look outside `keymap`, and its flag follows it. -/
theorem handleCode_handled (scancode : BitVec 16) (s : Kbd) : ∃ s', handleCode scancode s = .ok s' ∧ Handled scancode s s' := by
  unfold handleCode
  by_cases isBreak : scancode &&& 0x0080#16 ≠ 0#16
  · rw [if_pos isBreak]
    exact ⟨_, rfl, released_handled isBreak⟩
  rw [if_neg isBreak]
  have isMake := Decidable.not_not.1 isBreak
  have same := make_and isMake
  by_cases known : (0x00#16 < scancode ∧ scancode < 0x3b#16) ∨ scancode = altRMake ∨ scancode = ctrlRMake
  · rw [if_pos known]
    exact pressed_handled known isMake same
  · rw [if_neg known]
    refine ⟨_, rfl, rfl, fun m => ?_⟩
    have other : modifierOf scancode ≠ some m := fun is => known (modifierOf_known is)
    rw [flagAfter, same, if_neg other]
    cases m <;> rfl

/-- The scancode of a byte, behind the prefix or not. -/
def scancodeOf (extended : Bool) (byte : Byte) : BitVec 16 := if extended then 0xe000#16 ||| byte.setWidth 16 else byte.setWidth 16

/-- No byte but the prefix is kept for the next interrupt. -/
theorem intrKeyboardHandler_eq (noPrefix : byte ≠ 0xe0#8) {extended : Bool} (ext : s.extScancode = if extended then 1 else 0) :
    intrKeyboardHandler byte s = handleCode (scancodeOf extended byte) { s with extScancode := 0 } := by
  have wide : byte.setWidth 16 ≠ 0xe0#16 := by
    intro is
    apply noPrefix
    calc byte = (byte.setWidth 16).setWidth 8 := by rw [BitVec.setWidth_setWidth_of_le _ (by decide), BitVec.setWidth_eq]
      _ = 0xe0#8 := by rw [is]; rfl
  unfold intrKeyboardHandler scancodeOf
  rw [if_neg wide, ext]
  cases extended
  · have same : { s with extScancode := 0 } = s := by
      rw [← show s.extScancode = 0 from ext]
    rw [same]
    rfl
  · rfl

/-- **No interrupt looks outside `keymap`**, in any state. -/
theorem intrKeyboardHandler_ok (byte : Byte) (s : Kbd) : ∃ s', intrKeyboardHandler byte s = .ok s' := by
  unfold intrKeyboardHandler
  dsimp only
  split
  · exact ⟨_, rfl⟩
  · split
    · exact (handleCode_handled _ _).imp fun _ => And.left
    · exact (handleCode_handled _ _).imp fun _ => And.left

end Interrupt

/-! ## The bytes of an event -/

section Events

variable {s s' : Kbd} {down : Down} {k : Key} {e : Event}

theorem interrupts_append {bytes more : List Byte} :
    Interrupts (bytes ++ more) s s' ↔ ∃ s₁, Interrupts bytes s s₁ ∧ Interrupts more s₁ s' := by
  induction bytes generalizing s with
  | nil =>
    constructor
    · exact fun ran => ⟨s, rfl, ran⟩
    · rintro ⟨_, rfl, ran⟩
      exact ran
  | cons byte bytes ih =>
    rw [List.cons_append]
    constructor
    · rintro ⟨q, s₁, first, ran⟩
      obtain ⟨s₂, others, rest⟩ := ih.1 ran
      exact ⟨s₂, ⟨q, s₁, first, others⟩, rest⟩
    · rintro ⟨s₂, ⟨q, s₁, first, others⟩, rest⟩
      exact ⟨q, s₁, first, ih.2 ⟨s₂, others, rest⟩⟩

/-- There is a run for all bytes. -/
theorem interrupts_exist (bytes : List Byte) (s : Kbd) : ∃ s', Interrupts bytes s s' := by
  induction bytes generalizing s with
  | nil => exact ⟨s, rfl⟩
  | cons byte bytes ih =>
    obtain ⟨s₁, first⟩ := intrKeyboardHandler_ok byte s
    obtain ⟨s', rest⟩ := ih s₁
    exact ⟨s', s.kbdBuf, s₁, first, rest⟩

/-- Between two interrupts: a prefix is waiting or not, and the flags are these. -/
structure Awaits (extended : Bool) (flags : Modifier → Nat) (s : Kbd) : Prop where
  ext : s.extScancode = if extended then 1 else 0
  status : ∀ m, s.status m = flags m

variable {extended : Bool} {flags : Modifier → Nat}

/-- A byte that ends a code. -/
theorem Awaits.byte (awaits : Awaits extended flags s) {byte : Byte} (noPrefix : byte ≠ 0xe0#8) {bytes : List Byte}
    (ran : Interrupts (byte :: bytes) s s') :
    ∃ s₁, Awaits false (fun m => flagAfter (scancodeOf extended byte) m (flags m)) s₁ ∧ Interrupts bytes s₁ s' := by
  obtain ⟨q, s₁, first, rest⟩ := ran
  refine ⟨s₁, ?_, rest⟩
  have ext : { s with kbdBuf := q }.extScancode = if extended then 1 else 0 := awaits.ext
  rw [intrKeyboardHandler_eq noPrefix ext] at first
  obtain ⟨s₂, ran, handled⟩ := handleCode_handled (scancodeOf extended byte) { s with kbdBuf := q, extScancode := 0 }
  obtain rfl : s₂ = s₁ := Except.ok.inj (ran.symm.trans first)
  refine ⟨handled.ext, fun m => ?_⟩
  rw [handled.status, ← awaits.status]
  cases m <;> rfl

theorem Awaits.first (awaits : Awaits extended flags s) {bytes : List Byte} (ran : Interrupts (0xe0#8 :: bytes) s s') :
    ∃ s₁, Awaits true flags s₁ ∧ Interrupts bytes s₁ s' := by
  obtain ⟨q, s₁, first, rest⟩ := ran
  refine ⟨s₁, ?_, rest⟩
  obtain rfl : { s with kbdBuf := q, extScancode := 1 } = s₁ := Except.ok.inj first
  refine ⟨rfl, fun m => ?_⟩
  rw [← awaits.status]
  cases m <;> rfl

/-- The code of a key. -/
theorem Awaits.code (awaits : Awaits false flags s) {byte : Byte} (noPrefix : byte ≠ 0xe0#8)
    (ran : Interrupts (k.pre ++ [byte]) s s') : Awaits false (fun m => flagAfter (scancodeOf k.extended byte) m (flags m)) s' := by
  unfold Key.pre at ran
  cases extended : k.extended with
  | false =>
    rw [extended] at ran
    obtain ⟨s₁, awaits₁, rfl⟩ := awaits.byte noPrefix ran
    exact awaits₁
  | true =>
    rw [extended] at ran
    obtain ⟨s₁, awaits₁, rest⟩ := awaits.first ran
    obtain ⟨s₂, awaits₂, rfl⟩ := awaits₁.byte noPrefix rest
    exact awaits₂

theorem key_eq_iff {k' : Key} : k = k' ↔ k.extended = k'.extended ∧ k.code = k'.code := by
  rw [Key.mk.injEq]

/-- The make code and the break code of a key differ in one bit. -/
theorem scancode_bits (extended : Bool) : ∀ code : Byte, code < 0x80#8 →
    (scancodeOf extended code &&& 0xff7f#16 = scancodeOf extended code ∧ scancodeOf extended code &&& 0x0080#16 = 0#16) ∧
    scancodeOf extended (code ||| 0x80#8) &&& 0xff7f#16 = scancodeOf extended code ∧
      scancodeOf extended (code ||| 0x80#8) &&& 0x0080#16 ≠ 0#16 := by
  cases extended <;> decide +kernel

theorem modifierOf_iff (extended : Bool) (m : Modifier) : ∀ code : Byte, code < 0x80#8 →
    (modifierOf (scancodeOf extended code) = some m ↔
      extended = m.left.extended ∧ code = m.left.code ∨ extended = m.right.extended ∧ code = m.right.code) := by
  cases extended <;> cases m <;> decide +kernel

/-- The codes a kind is recognised by are those of its two keys. -/
theorem modifierOf_key (k : Key) (m : Modifier) : modifierOf (scancodeOf k.extended k.code) = some m ↔ m.Has k := by
  rw [modifierOf_iff _ _ _ k.low, Modifier.Has, key_eq_iff, key_eq_iff]

theorem flagAfter_make (k : Key) (m : Modifier) (flag : Nat) :
    flagAfter (scancodeOf k.extended k.code) m flag = if m.Has k then 1 else flag := by
  obtain ⟨⟨same, isMake⟩, -⟩ := scancode_bits k.extended k.code k.low
  unfold flagAfter
  simp only [same, modifierOf_key, if_pos isMake]

theorem flagAfter_break (k : Key) (m : Modifier) (flag : Nat) :
    flagAfter (scancodeOf k.extended (k.code ||| 0x80#8)) m flag = if m.Has k then 0 else flag := by
  obtain ⟨-, same, isBreak⟩ := scancode_bits k.extended k.code k.low
  unfold flagAfter
  simp only [same, modifierOf_key, if_neg isBreak]

/-- The break code is not the prefix. -/
theorem breakCode_ne : ∀ code : Byte, code < 0x80#8 → code ≠ 0x60#8 → code ||| 0x80#8 ≠ 0xe0#8 := by
  decide +kernel

/-- What an event does to the flag of a kind. -/
def Event.flag (down : Down) (m : Modifier) (flag : Nat) : Event → Nat
  | .press k => if m.Has k then 1 else flag
  | .release k => if m.Has k then 0 else flag
  | .pause => if Modifier.ctrl.Held down then flag else if m = .ctrl then 0 else flag

/-- **The codes of an event**, whatever the flags were. -/
theorem Awaits.event (awaits : Awaits false flags s) (ran : Interrupts (e.bytes down) s s') :
    Awaits false (fun m => e.flag down m (flags m)) s' := by
  cases e with
  | press k =>
    have noPrefix : k.code ≠ 0xe0#8 := fun is => absurd k.low (by rw [is]; decide)
    have done := awaits.code noPrefix ran
    simp only [flagAfter_make] at done
    exact done
  | release k =>
    have done := awaits.code (breakCode_ne k.code k.low k.plain) ran
    simp only [flagAfter_break] at done
    exact done
  | pause =>
    unfold Event.bytes at ran
    by_cases ctrl : Modifier.ctrl.Held down
    · simp only [if_pos ctrl] at ran
      obtain ⟨s₁, awaits₁, ran⟩ := awaits.first ran
      obtain ⟨s₂, awaits₂, ran⟩ := awaits₁.byte (by decide) ran
      obtain ⟨s₃, awaits₃, ran⟩ := awaits₂.first ran
      obtain ⟨s₄, awaits₄, rfl⟩ := awaits₃.byte (by decide) ran
      refine ⟨awaits₄.ext, fun m => ?_⟩
      rw [awaits₄.status, Event.flag, if_pos ctrl]
      rfl
    · simp only [if_neg ctrl] at ran
      obtain ⟨s₁, awaits₁, ran⟩ := awaits.byte (by decide) ran
      obtain ⟨s₂, awaits₂, ran⟩ := awaits₁.byte (by decide) ran
      obtain ⟨s₃, awaits₃, ran⟩ := awaits₂.byte (by decide) ran
      obtain ⟨s₄, awaits₄, ran⟩ := awaits₃.byte (by decide) ran
      obtain ⟨s₅, awaits₅, ran⟩ := awaits₄.byte (by decide) ran
      obtain ⟨s₆, awaits₆, rfl⟩ := awaits₅.byte (by decide) ran
      refine ⟨awaits₆.ext, fun m => ?_⟩
      rw [awaits₆.status, Event.flag, if_neg ctrl]
      cases m <;> rfl

/-- What the flag of a kind should be. -/
def heldFlag (down : Down) (m : Modifier) : Nat := if m.Held down then 1 else 0

theorem heldFlag_eq_one {m : Modifier} : heldFlag down m = 1 ↔ m.Held down := by
  unfold heldFlag
  split <;> simp [*]

theorem left_ne_right (m : Modifier) : m.left ≠ m.right := by
  cases m <;> decide

/-- A key of another kind, or of none. -/
theorem heldFlag_other {m : Modifier} (other : ¬ m.Has k) (v : Bool) : heldFlag (Function.update down k v) m = heldFlag down m := by
  have left : m.left ≠ k := fun is => other (.inl is.symm)
  have right : m.right ≠ k := fun is => other (.inr is.symm)
  have same : m.Held (Function.update down k v) ↔ m.Held down := by
    unfold Modifier.Held
    rw [Function.update_of_ne left, Function.update_of_ne right]
  unfold heldFlag
  simp only [same]

/-- The key of its kind that is released last leaves none. -/
theorem released_alone (alone : (Event.release k).Alone down) {m : Modifier} (has : m.Has k) :
    ¬ m.Held (Function.update down k false) := by
  obtain ⟨whenLeft, whenRight⟩ := alone m
  unfold Modifier.Held
  obtain rfl | rfl := has
  · rw [Function.update_self, Function.update_of_ne (left_ne_right m).symm, whenLeft rfl]
    simp
  · rw [Function.update_self, Function.update_of_ne (left_ne_right m), whenRight rfl]
    simp

/-- **An event keeps the flags right** unless it releases one of two keys. -/
theorem flag_held (alone : e.Alone down) (m : Modifier) : e.flag down m (heldFlag down m) = heldFlag (e.after down) m := by
  cases e with
  | press k =>
    by_cases has : m.Has k
    · have held : m.Held (Function.update down k true) := by
        obtain rfl | rfl := has
        · exact .inl (Function.update_self ..)
        · exact .inr (Function.update_self ..)
      rw [Event.flag, if_pos has, Event.after, heldFlag, if_pos held]
    · rw [Event.flag, if_neg has, Event.after, heldFlag_other has]
  | release k =>
    by_cases has : m.Has k
    · rw [Event.flag, if_pos has, Event.after, heldFlag, if_neg (released_alone alone has)]
    · rw [Event.flag, if_neg has, Event.after, heldFlag_other has]
  | pause =>
    unfold Event.flag Event.after
    dsimp only
    split
    · rfl
    · rename_i up
      split
      · rename_i isCtrl
        rw [isCtrl, heldFlag, if_neg up]
      · rfl

/-- When one of two keys is released the flag falls, and its kind is held all the same. -/
theorem flag_fallen (two : ¬ e.Alone down) :
    ∃ m : Modifier, m.Held (e.after down) ∧ ∀ flag, e.flag down m flag = 0 := by
  cases e with
  | press k => exact absurd trivial two
  | pause => exact absurd trivial two
  | release k =>
    obtain ⟨m, both⟩ := not_forall.1 two
    refine ⟨m, ?_⟩
    obtain ⟨isLeft, other⟩ | ⟨isRight, other⟩ : (k = m.left ∧ down m.right ≠ false) ∨ (k = m.right ∧ down m.left ≠ false) := by
      by_contra neither
      exact both ⟨fun is => by_contra fun other => neither (.inl ⟨is, other⟩), fun is => by_contra fun other => neither (.inr ⟨is, other⟩)⟩
    · refine ⟨.inr ?_, fun flag => if_pos (.inl isLeft)⟩
      rw [Event.after, isLeft, Function.update_of_ne (left_ne_right m).symm]
      exact Bool.of_not_eq_false other
    · refine ⟨.inl ?_, fun flag => if_pos (.inr isRight)⟩
      rw [Event.after, isRight, Function.update_of_ne (left_ne_right m)]
      exact Bool.of_not_eq_false other

/-! ## A whole run -/

variable {events : List Event}

theorem bytesOf_append (down : Down) (events more : List Event) :
    bytesOf down (events ++ more) = bytesOf down events ++ bytesOf (downAfter down events) more := by
  induction events generalizing down with
  | nil => rfl
  | cons e events ih =>
    rw [List.cons_append, bytesOf, bytesOf, ih, List.append_assoc]
    rfl

/-- No event leaves a prefix behind. -/
theorem Awaits.between (awaits : Awaits false flags s) (ran : Interrupts (bytesOf down events) s s') :
    ∃ flags', Awaits false flags' s' := by
  induction events generalizing down s flags with
  | nil =>
    obtain rfl : s' = s := ran
    exact ⟨flags, awaits⟩
  | cons e events ih =>
    obtain ⟨s₁, first, rest⟩ := interrupts_append.1 ran
    exact ih (awaits.event first) rest

/-- **A run** of events that release no key beside another of its kind. -/
theorem Awaits.held (alone : ∀ (i : Nat) (e : Event), events[i]? = some e → e.Alone (downAfter down (events.take i)))
    (awaits : Awaits false (heldFlag down) s) (ran : Interrupts (bytesOf down events) s s') :
    Awaits false (heldFlag (downAfter down events)) s' := by
  induction events generalizing down s with
  | nil =>
    obtain rfl : s' = s := ran
    exact awaits
  | cons e events ih =>
    obtain ⟨s₁, first, rest⟩ := interrupts_append.1 ran
    have here : e.Alone down := alone 0 e rfl
    have awaits₁ : Awaits false (heldFlag (e.after down)) s₁ := by
      have done := awaits.event first
      simp only [flag_held here] at done
      exact done
    exact ih (fun i e at_ => alone (i + 1) e at_) awaits₁ rest

theorem keyboardInit_awaits : Awaits false (heldFlag allUp) keyboardInit :=
  ⟨rfl, fun m => by cases m <;> rfl⟩

/-- **The flags of ctrl, shift and alt** follow the keys in the runs in which no key is released while
the other of its kind is down, and in no others. `keymap` is never indexed outside its rows. -/
theorem modifiers_iff (events : List Event) :
    Tracked events ↔ ∀ (i : Nat) (e : Event), events[i]? = some e → e.Alone (downAfter allUp (events.take i)) := by
  constructor
  · rintro ⟨tracks, -⟩ i e at_
    by_contra two
    obtain ⟨m, held, fallen⟩ := flag_fallen two
    obtain ⟨s, before⟩ := interrupts_exist (bytesOf allUp (events.take i)) keyboardInit
    obtain ⟨s', last⟩ := interrupts_exist (e.bytes (downAfter allUp (events.take i))) s
    obtain ⟨flags, awaits⟩ := keyboardInit_awaits.between before
    have next : events.take (i + 1) = events.take i ++ [e] := by
      rw [List.take_add_one, at_]
      rfl
    have ran : Interrupts (bytesOf allUp (events.take (i + 1))) keyboardInit s' := by
      rw [next, bytesOf_append]
      refine interrupts_append.2 ⟨s, before, ?_⟩
      rw [bytesOf, bytesOf, List.append_nil]
      exact last
    have flag := (awaits.event last).status m
    have tracked := tracks (i + 1) s' ran m
    rw [flag, fallen, next, downAfter, List.foldl_append] at tracked
    exact absurd (tracked.2 held) (by decide)
  · intro alone
    constructor
    · intro k s ran m
      have awaits : Awaits false (heldFlag (downAfter allUp (events.take k))) s := by
        refine keyboardInit_awaits.held (fun i e at_ => ?_) ran
        obtain ⟨lt, _⟩ := List.getElem?_eq_some_iff.1 at_
        rw [List.length_take] at lt
        rw [List.getElem?_take_of_lt (by omega)] at at_
        rw [List.take_take, Nat.min_eq_left (by omega)]
        exact alone i e at_
      rw [awaits.status, heldFlag_eq_one]
    · exact fun k s byte q _ _ => intrKeyboardHandler_ok byte _

/-- Both shift keys are pressed and the left one is released: the right one does not count. -/
theorem modifiers_shift : ¬ ∀ events : List Event, Tracked events := by
  intro claim
  have alone := (modifiers_iff _).1 (claim [.press Modifier.shift.left, .press Modifier.shift.right, .release Modifier.shift.left])
    2 (.release Modifier.shift.left) rfl .shift
  exact absurd (alone.1 rfl) (by decide)

end Events

end Sparrow.Keyboard
