import Sparrow.Lib.Image
import Sparrow.Lib.Traced
import Mathlib.Logic.Function.Basic

/-!
# Printing on the screen

`put_char` of `lib/kernel/print.S`. The 25 lines of 80 characters lie in video memory with two bytes for
each, and the display controller has the position of the cursor in two of its registers.
-/

namespace Sparrow.Print
set_option autoImplicit false

/-- Video memory from the start of its segment on, and the display controller behind its two ports. -/
structure Screen where
  video : Image
  crtIndex : Byte
  crt : Byte → Byte

/-- What a routine does to video memory. -/
inductive Event where
  | wrote (offset : Nat)
  | rolled

/-- `out port, al`. -/
def out (port : BitVec 16) (al : Byte) (s : Screen) : Screen :=
  if port = 0x03d4#16 then { s with crtIndex := al }
  else if port = 0x03d5#16 then { s with crt := Function.update s.crt s.crtIndex al }
  else s

/-- `in al, 0x3d5`. -/
def inData (s : Screen) : Byte := s.crt s.crtIndex

/-- The limit of the segment in `gs`, eight pages. -/
def videoLimit : Nat := 0x7fff

/-- `mov byte [gs:offset], value`. The handler of the exception for an offset behind the limit does not return. -/
def movByte (m : Image) (offset : Nat) (value : Byte) : Traced Event Image := do
  Traced.lift (defined (offset ≤ videoLimit))
  Traced.emit (.wrote offset)
  return Function.update m offset value

/-- `mov word [gs:offset], 0x0720`, and `ecx` times so with `loop`. -/
def blankCells : Nat → Nat → Image → Traced Event Image
  | 0, _, m => return m
  | ecx + 1, ebx, m => do
    let m ← movByte m ebx 0x20#8
    let m ← movByte m (ebx + 1) 0x07#8
    blankCells ecx (ebx + 2) m

/-- `rep movsd`, with offsets from 0xc00b8000 in `esi` and `edi`. -/
def repMovsd : Nat → Nat → Nat → Image → Traced Event Image
  | 0, _, _, m => return m
  | ecx + 1, esi, edi, m => do
    Traced.emit (.wrote edi)
    Traced.emit (.wrote (edi + 1))
    Traced.emit (.wrote (edi + 2))
    Traced.emit (.wrote (edi + 3))
    repMovsd ecx (esi + 4) (edi + 4) (splice m edi 4 (shifted m esi))

/-- `.set_cursor`. -/
def setCursor (bx : BitVec 16) (s : Screen) : Screen :=
  let s := out 0x03d4#16 0x0e#8 s
  let s := out 0x03d5#16 (bx.extractLsb' 8 8) s
  let s := out 0x03d4#16 0x0f#8 s
  out 0x03d5#16 (bx.extractLsb' 0 8) s

/-- `.roll_screen`. -/
def rollScreen (s : Screen) : Traced Event Screen := do
  Traced.emit .rolled
  let m ← repMovsd 960 0xa0 0 s.video
  let m ← blankCells 80 3840 m
  return setCursor 1920#16 { s with video := m }

/-- `.is_line_feed` and `.is_carriage_return`, and behind them `.roll_screen`. -/
def isLineFeed (bx : BitVec 16) (s : Screen) : Traced Event Screen := do
  let dx := bx % 80#16
  let bx := bx - dx
  let bx := bx + 80#16
  if bx.slt 2000#16 then return setCursor bx s
  rollScreen s

/-- `.is_backspace`. -/
def isBackspace (bx : BitVec 16) (s : Screen) : Traced Event Screen := do
  let bx := bx - 1#16
  let bx := bx <<< 1
  let m ← movByte s.video bx.toNat 0x20#8
  let bx := bx + 1#16
  let m ← movByte m bx.toNat 0x07#8
  let bx := bx >>> 1
  return setCursor bx { s with video := m }

/-- `.put_other`, which goes on with the line feed when the screen is full. -/
def putOther (cl : Byte) (bx : BitVec 16) (s : Screen) : Traced Event Screen := do
  let bx := bx <<< 1
  let m ← movByte s.video bx.toNat cl
  let bx := bx + 1#16
  let m ← movByte m bx.toNat 0x07#8
  let bx := bx >>> 1
  let bx := bx + 1#16
  if bx.slt 2000#16 then return setCursor bx { s with video := m }
  isLineFeed bx { s with video := m }

def putChar (cl : Byte) (s : Screen) : Traced Event Screen :=
  let s := out 0x03d4#16 0x0e#8 s
  let ah := inData s
  let s := out 0x03d4#16 0x0f#8 s
  let al := inData s
  let bx := ah ++ al
  if cl = 0x0d#8 then isLineFeed bx s
  else if cl = 0x0a#8 then isLineFeed bx s
  else if cl = 0x08#8 then isBackspace bx s
  else putOther cl bx s

/-- `cls_screen`. -/
def clsScreen (s : Screen) : Traced Event Screen := do
  let m ← blankCells (80 * 25) 0 s.video
  return setCursor 0#16 { s with video := m }

/-- The characters one after another. -/
def putChars : List Byte → Screen → Traced Event Screen
  | [], s => return s
  | cl :: cs, s => do
    let s ← putChar cl s
    putChars cs s

/-! ## What stays on the screen -/

/-- The position in the two registers of the controller. -/
def Screen.cursor (s : Screen) : Nat := (s.crt 0x0e#8 ++ s.crt 0x0f#8).toNat

/-- Video memory with the character at the cursor, unless it is one that ends the line. -/
def Screen.withChar (s : Screen) (cl : Byte) : Image :=
  if cl = 0x0d#8 ∨ cl = 0x0a#8 then s.video
  else Function.update (Function.update s.video (2 * s.cursor) cl) (2 * s.cursor + 1) 0x07#8

/-- Every line has moved up by one, and the last one is blank. -/
structure RolledUp (before after : Image) : Prop where
  moved : ∀ offset, offset < 3840 → after offset = before (offset + 160)
  blank : ∀ column, column < 80 → after (3840 + 2 * column) = 0x20#8 ∧ after (3840 + 2 * column + 1) = 0x07#8

/-- The screen is cleared, and the characters are printed. -/
def session (s₀ : Screen) (cs : List Byte) : Traced Event Screen := do
  let s ← clsScreen s₀
  putChars cs s

/-- Every character of the session is printed and leaves the cursor on the screen, nothing is written
behind the screen, and it only changes in the right way when it rolls. -/
structure StaysOnScreen (s₀ : Screen) (cs : List Byte) : Prop where
  cursor : ∀ k, ∃ s, (session s₀ (cs.take k)).result = .ok s ∧ s.cursor ≤ 1999
  inside : ∀ offset, .wrote offset ∈ (session s₀ cs).trace → offset < 4000
  scroll : ∀ k cl s s', (session s₀ (cs.take k)).result = .ok s → cs[k]? = some cl → (putChar cl s).result = .ok s' →
    .rolled ∈ (putChar cl s).trace → RolledUp (s.withChar cl) s'.video

/-- No backspace finds the cursor at the start of the screen. -/
def NeverBack (s₀ : Screen) (cs : List Byte) : Prop :=
  ∀ k s, (session s₀ (cs.take k)).result = .ok s → cs[k]? = some 0x08#8 → s.cursor ≠ 0

/-! ## Stores -/

/-- A store to the screen. -/
def Event.Inside (e : Event) : Prop := ∃ offset, offset < 4000 ∧ e = .wrote offset

/-- No store behind the screen. -/
def Event.Allowed (e : Event) : Prop := ∀ offset, e = .wrote offset → offset < 4000

theorem Event.Inside.allowed {e : Event} (h : e.Inside) : e.Allowed := by
  obtain ⟨offset, inside, rfl⟩ := h
  intro other same
  cases same
  exact inside

section Stores

variable {s : Screen} {m : Image} {offset : Nat}

theorem movByte_runs (inside : offset < 4000) (value : Byte) :
    (movByte m offset value).Runs Event.Inside (Function.update m offset value) := by
  have limit : offset ≤ videoLimit := by unfold videoLimit; omega
  exact (Traced.runs_lift (defined_of limit)).bind ((Traced.runs_emit ⟨offset, inside, rfl⟩).bind (Traced.runs_pure _))

/-- The byte of a blank cell. -/
def blankByte (x : Nat) : Byte := if x % 2 = 0 then 0x20#8 else 0x07#8

theorem blankCells_runs : ∀ {ecx ebx : Nat} {m : Image}, ebx + 2 * ecx ≤ 4000 →
    ∃ m', (blankCells ecx ebx m).Runs Event.Inside m' ∧
      ∀ x, m' x = if ebx ≤ x ∧ x < ebx + 2 * ecx then blankByte (x - ebx) else m x := by
  intro ecx
  induction ecx with
  | zero =>
    intro ebx m _
    exact ⟨m, Traced.runs_pure m, fun x => by rw [if_neg (by omega)]⟩
  | succ ecx ih =>
    intro ebx m fits
    have first := movByte_runs (m := m) (show ebx < 4000 by omega) 0x20#8
    have second := movByte_runs (m := Function.update m ebx 0x20#8) (show ebx + 1 < 4000 by omega) 0x07#8
    obtain ⟨m', rest, bytes⟩ := @ih (ebx + 2) (Function.update (Function.update m ebx 0x20#8) (ebx + 1) 0x07#8) (by omega)
    refine ⟨m', first.bind (second.bind rest), fun x => ?_⟩
    rw [bytes]
    by_cases here : x = ebx
    · subst here
      rw [if_neg (by omega), if_pos (by omega), Nat.sub_self, Function.update_of_ne (by omega), Function.update_self]
      rfl
    by_cases next : x = ebx + 1
    · subst next
      rw [if_neg (by omega), if_pos (by omega), Nat.add_sub_cancel_left, Function.update_self]
      rfl
    rw [Function.update_of_ne next, Function.update_of_ne here]
    by_cases later : ebx + 2 ≤ x ∧ x < ebx + 2 + 2 * ecx
    · rw [if_pos later, if_pos (by omega), blankByte, blankByte, show (x - (ebx + 2)) % 2 = (x - ebx) % 2 by omega]
    · rw [if_neg later, if_neg (by omega)]

/-- A move downwards by a line reads nothing that it has written. -/
theorem repMovsd_runs : ∀ {ecx edi : Nat} {m : Image}, edi + 4 * ecx ≤ 4000 →
    ∃ m', (repMovsd ecx (edi + 160) edi m).Runs Event.Inside m' ∧
      ∀ x, m' x = if edi ≤ x ∧ x < edi + 4 * ecx then m (x + 160) else m x := by
  intro ecx
  induction ecx with
  | zero =>
    intro edi m _
    exact ⟨m, Traced.runs_pure m, fun x => by rw [if_neg (by omega)]⟩
  | succ ecx ih =>
    intro edi m fits
    have store : ∀ i, i < 4 → (Traced.emit (Event.wrote (edi + i))).Runs Event.Inside () :=
      fun i less => Traced.runs_emit ⟨edi + i, by omega, rfl⟩
    obtain ⟨m', rest, bytes⟩ := @ih (edi + 4) (splice m edi 4 (shifted m (edi + 160))) (by omega)
    rw [show edi + 4 + 160 = edi + 160 + 4 by omega] at rest
    refine ⟨m', (store 0 (by omega)).bind ((store 1 (by omega)).bind ((store 2 (by omega)).bind ((store 3 (by omega)).bind rest))),
      fun x => ?_⟩
    rw [bytes]
    by_cases here : edi ≤ x ∧ x < edi + 4
    · rw [if_neg (by omega), if_pos (by omega), splice_in here.1 here.2, shifted]
      congr 1
      omega
    · by_cases later : edi + 4 ≤ x ∧ x < edi + 4 + 4 * ecx
      · rw [if_pos later, if_pos (by omega), splice_out (by omega)]
      · rw [if_neg later, if_neg (by omega), splice_out (by omega)]

@[simp] theorem setCursor_video (bx : BitVec 16) : (setCursor bx s).video = s.video := rfl

@[simp] theorem setCursor_cursor (bx : BitVec 16) : (setCursor bx s).cursor = bx.toNat := by
  have high : (setCursor bx s).crt 0x0e#8 = bx.extractLsb' 8 8 := by simp [setCursor, out, Function.update]
  have low : (setCursor bx s).crt 0x0f#8 = bx.extractLsb' 0 8 := by simp [setCursor, out]
  unfold Screen.cursor
  rw [high, low, @BitVec.extractLsb'_append_extractLsb'_eq_extractLsb' 16 8 0 8 8 bx rfl, BitVec.extractLsb'_eq_self]

end Stores

/-! ## One character -/

/-- A step returns with the cursor on the screen and stores there only, and if the screen rolls, then
from these bytes. -/
def Outcome (before : Image) (x : Traced Event Screen) : Prop :=
  ∃ s', s'.cursor ≤ 1999 ∧ (x.Runs Event.Inside s' ∨ x.Runs Event.Allowed s' ∧ RolledUp before s'.video)

theorem Outcome.after {α : Type} {before : Image} {x : Traced Event α} {f : α → Traced Event Screen} {a : α}
    (first : x.Runs Event.Inside a) (next : Outcome before (f a)) : Outcome before (x >>= f) := by
  obtain ⟨s', cursor, inside | ⟨allowed, rolled⟩⟩ := next
  · exact ⟨s', cursor, .inl (first.bind inside)⟩
  · exact ⟨s', cursor, .inr ⟨(first.mono fun _ => Event.Inside.allowed).bind allowed, rolled⟩⟩

section Step

variable {s : Screen} {bx : BitVec 16} {cl : Byte}

theorem outcome_setCursor {before m : Image} (onScreen : bx.toNat ≤ 1999) :
    Outcome before (pure (setCursor bx { s with video := m })) :=
  ⟨_, by rwa [setCursor_cursor], .inl (Traced.runs_pure _)⟩

/-- The signed comparison before `jl`, of numbers that are not negative. -/
theorem slt_small {x y : BitVec 16} (hx : x.toNat < 2 ^ 15) (hy : y.toNat < 2 ^ 15) : x.slt y ↔ x.toNat < y.toNat := by
  rw [BitVec.slt_iff_toInt_lt, BitVec.toInt_eq_toNat_of_lt (by omega), BitVec.toInt_eq_toNat_of_lt (by omega)]
  exact Int.ofNat_lt

theorem rollScreen_outcome : Outcome s.video (rollScreen s) := by
  obtain ⟨m, move, moved⟩ := @repMovsd_runs 960 0 s.video (by omega)
  obtain ⟨m', clear, cleared⟩ := @blankCells_runs 80 3840 m (by omega)
  rw [Nat.zero_add] at move
  have inside : ∀ e : Event, e.Inside → e.Allowed := fun _ => Event.Inside.allowed
  have cursor : ∀ t, (setCursor 1920#16 t).cursor ≤ 1999 := by
    intro t
    rw [setCursor_cursor]
    decide
  have mark : (Traced.emit Event.rolled).Runs Event.Allowed () := Traced.runs_emit (by intro offset h; cases h)
  have run : (rollScreen s).Runs Event.Allowed (setCursor 1920#16 { s with video := m' }) := by
    unfold rollScreen
    exact mark.bind ((move.mono inside).bind ((clear.mono inside).bind (Traced.runs_pure _)))
  refine ⟨_, cursor _, .inr ⟨run, show RolledUp s.video m' from ⟨?_, ?_⟩⟩⟩
  · intro offset less
    rw [cleared, if_neg (by omega), moved, if_pos (by omega)]
  · intro column less
    rw [cleared, cleared, if_pos (by omega), if_pos (by omega)]
    constructor
    · rw [blankByte, if_pos (by omega)]
    · rw [blankByte, if_neg (by omega)]

/-- The start of the next line, or the screen rolls. -/
theorem isLineFeed_outcome (small : bx.toNat ≤ 2000) : Outcome s.video (isLineFeed bx s) := by
  have rest : bx % 80#16 ≤ bx := by
    rw [BitVec.le_def, BitVec.toNat_umod]
    exact Nat.mod_le _ _
  have start : (bx - bx % 80#16 + 80#16).toNat = bx.toNat - bx.toNat % 80 + 80 := by
    rw [BitVec.toNat_add, BitVec.toNat_sub_of_le rest, BitVec.toNat_umod]
    exact Nat.mod_eq_of_lt (show bx.toNat - bx.toNat % 80 + 80 < 65536 by omega)
  unfold isLineFeed
  dsimp only
  by_cases room : (bx - bx % 80#16 + 80#16).slt 2000#16
  · rw [if_pos room]
    rw [slt_small (by omega) (by decide)] at room
    exact outcome_setCursor (Nat.le_of_lt_succ room)
  · rw [if_neg room]
    exact rollScreen_outcome

/-- Twice the position, and one byte further. -/
theorem cell_toNat (small : bx.toNat ≤ 1999) : (bx <<< 1).toNat = 2 * bx.toNat ∧ (bx <<< 1 + 1#16).toNat = 2 * bx.toNat + 1 ∧
    ((bx <<< 1 + 1#16) >>> 1).toNat = bx.toNat := by
  have double : (bx <<< 1).toNat = 2 * bx.toNat := by
    rw [BitVec.toNat_shiftLeft, Nat.shiftLeft_eq]
    omega
  have next : (bx <<< 1 + 1#16).toNat = 2 * bx.toNat + 1 := by
    rw [BitVec.toNat_add, double]
    exact Nat.mod_eq_of_lt (show 2 * bx.toNat + 1 < 65536 by omega)
  refine ⟨double, next, ?_⟩
  rw [BitVec.toNat_ushiftRight, next, Nat.shiftRight_eq_div_pow]
  omega

theorem isBackspace_outcome {before : Image} (positive : bx ≠ 0#16) (small : bx.toNat ≤ 1999) :
    Outcome before (isBackspace bx s) := by
  have nonzero : bx.toNat ≠ 0 := fun h => positive (BitVec.eq_of_toNat_eq h)
  have back : (bx - 1#16).toNat = bx.toNat - 1 :=
    BitVec.toNat_sub_of_le (show 1 ≤ bx.toNat by omega)
  obtain ⟨low, high, pos⟩ := @cell_toNat (bx - 1#16) (by omega)
  exact .after (movByte_runs (by omega) _) (.after (movByte_runs (by omega) _) (outcome_setCursor (by omega)))

theorem putOther_outcome (small : bx.toNat ≤ 1999) :
    Outcome (Function.update (Function.update s.video (2 * bx.toNat) cl) (2 * bx.toNat + 1) 0x07#8) (putOther cl bx s) := by
  obtain ⟨low, high, pos⟩ := cell_toNat small
  have next : ((bx <<< 1 + 1#16) >>> 1 + 1#16).toNat = bx.toNat + 1 := by
    rw [BitVec.toNat_add, pos]
    exact Nat.mod_eq_of_lt (show bx.toNat + 1 < 65536 by omega)
  refine .after (movByte_runs (by omega) _) (.after (movByte_runs (by omega) _) ?_)
  rw [low, high]
  by_cases room : ((bx <<< 1 + 1#16) >>> 1 + 1#16).slt 2000#16
  · rw [if_pos room]
    rw [slt_small (by omega) (by decide)] at room
    exact outcome_setCursor (Nat.le_of_lt_succ room)
  · rw [if_neg room]
    exact isLineFeed_outcome (by omega)

/-- The routine with the registers read. -/
theorem putChar_eq (cl : Byte) (s : Screen) : putChar cl s =
    if cl = 0x0d#8 then isLineFeed (s.crt 0x0e#8 ++ s.crt 0x0f#8) { s with crtIndex := 0x0f#8 }
    else if cl = 0x0a#8 then isLineFeed (s.crt 0x0e#8 ++ s.crt 0x0f#8) { s with crtIndex := 0x0f#8 }
    else if cl = 0x08#8 then isBackspace (s.crt 0x0e#8 ++ s.crt 0x0f#8) { s with crtIndex := 0x0f#8 }
    else putOther cl (s.crt 0x0e#8 ++ s.crt 0x0f#8) { s with crtIndex := 0x0f#8 } := rfl

/-- A character behaves unless it is a backspace at the start of the screen. -/
theorem putChar_outcome (onScreen : s.cursor ≤ 1999) (notBack : cl = 0x08#8 → s.cursor ≠ 0) :
    Outcome (s.withChar cl) (putChar cl s) := by
  have line : Outcome s.video (isLineFeed (s.crt 0x0e#8 ++ s.crt 0x0f#8) { s with crtIndex := 0x0f#8 }) :=
    isLineFeed_outcome (s := { s with crtIndex := 0x0f#8 }) (by unfold Screen.cursor at onScreen; omega)
  rw [putChar_eq]
  unfold Screen.withChar
  by_cases cr : cl = 0x0d#8
  · rw [if_pos (.inl cr), if_pos cr]
    exact line
  by_cases lf : cl = 0x0a#8
  · rw [if_pos (.inr lf), if_neg cr, if_pos lf]
    exact line
  rw [if_neg (fun h => h.elim cr lf), if_neg cr, if_neg lf]
  by_cases bs : cl = 0x08#8
  · rw [if_pos bs]
    exact isBackspace_outcome (fun zero => notBack bs (congrArg BitVec.toNat zero)) onScreen
  · rw [if_neg bs]
    exact @putOther_outcome { s with crtIndex := 0x0f#8 } (s.crt 0x0e#8 ++ s.crt 0x0f#8) cl onScreen

/-- Before the first position comes the last of all, whose byte is not in the segment. -/
theorem isBackspace_fails : (isBackspace 0#16 s).result = .error .undefined := by
  have store : (movByte s.video ((0#16 - 1#16) <<< 1).toNat 0x20#8).result = .error .undefined := rfl
  exact (Traced.bind_error store).2

theorem putChar_backspace (start : s.cursor = 0) : (putChar 0x08#8 s).result = .error .undefined := by
  have zero : s.crt 0x0e#8 ++ s.crt 0x0f#8 = 0#16 := BitVec.eq_of_toNat_eq start
  rw [putChar_eq, zero, if_neg (by decide), if_neg (by decide), if_pos rfl]
  exact isBackspace_fails

end Step

/-! ## A session -/

theorem putChars_snoc (cs : List Byte) (cl : Byte) : ∀ s, putChars (cs ++ [cl]) s = putChars cs s >>= putChar cl := by
  induction cs with
  | nil => exact fun s => bind_pure (putChar cl s)
  | cons c cs ih =>
    intro s
    show (putChar c s >>= fun t => putChars (cs ++ [cl]) t) = (putChar c s >>= putChars cs) >>= putChar cl
    rw [bind_assoc]
    exact congrArg _ (funext ih)

section Session

variable {s₀ s : Screen} {cs : List Byte} {cl : Byte} {k : Nat}

theorem clsScreen_runs (s₀ : Screen) : ∃ s, (clsScreen s₀).Runs Event.Inside s ∧ s.cursor = 0 := by
  obtain ⟨m, clear, _⟩ := @blankCells_runs (80 * 25) 0 s₀.video (by omega)
  refine ⟨setCursor 0#16 { s₀ with video := m }, ?_, setCursor_cursor 0#16⟩
  unfold clsScreen
  exact clear.bind (Traced.runs_pure _)

theorem session_nil (s₀ : Screen) : session s₀ [] = clsScreen s₀ := by
  unfold session
  generalize clsScreen s₀ = clear
  exact bind_pure clear

/-- The session goes on with its next character. -/
theorem session_take (next : cs[k]? = some cl) : session s₀ (cs.take (k + 1)) = session s₀ (cs.take k) >>= putChar cl := by
  unfold session
  rw [List.take_add_one, next, Option.toList_some, bind_assoc]
  exact congrArg _ (funext (putChars_snoc (cs.take k) cl))

/-- The next character behaves. -/
theorem NeverBack.outcome (never : NeverBack s₀ cs) (before : (session s₀ (cs.take k)).result = .ok s) (onScreen : s.cursor ≤ 1999)
    (next : cs[k]? = some cl) : Outcome (s.withChar cl) (putChar cl s) :=
  putChar_outcome onScreen (by rintro rfl; exact never k s before next)

/-- Every beginning of the session runs, by induction on its length. -/
theorem NeverBack.runs (never : NeverBack s₀ cs) :
    ∀ k, ∃ s, (session s₀ (cs.take k)).Runs Event.Allowed s ∧ s.cursor ≤ 1999 := by
  intro k
  induction k with
  | zero =>
    obtain ⟨s, clear, start⟩ := clsScreen_runs s₀
    rw [List.take_zero, session_nil]
    exact ⟨s, clear.mono fun _ => Event.Inside.allowed, by omega⟩
  | succ k ih =>
    obtain ⟨s, before, onScreen⟩ := ih
    cases next : cs[k]? with
    | none =>
      rw [List.take_add_one, next, Option.toList_none, List.append_nil]
      exact ⟨s, before, onScreen⟩
    | some cl =>
      rw [session_take next]
      obtain ⟨s', cursor, inside | ⟨allowed, _⟩⟩ := never.outcome before.1 onScreen next
      · exact ⟨s', before.bind (inside.mono fun _ => Event.Inside.allowed), cursor⟩
      · exact ⟨s', before.bind allowed, cursor⟩

/-- The cursor stays on the screen, and the rest with it, when no backspace is printed at the start of the
screen, and only then. -/
theorem staysOnScreen_iff (s₀ : Screen) (cs : List Byte) : StaysOnScreen s₀ cs ↔ NeverBack s₀ cs := by
  constructor
  · intro stays k s before next start
    obtain ⟨s', after, _⟩ := stays.cursor (k + 1)
    rw [session_take next, (Traced.bind_ok before).2, putChar_backspace start] at after
    cases after
  · intro never
    have runs := never.runs
    refine ⟨fun k => ?_, ?_, ?_⟩
    · obtain ⟨s, run, onScreen⟩ := runs k
      exact ⟨s, run.1, onScreen⟩
    · intro offset mem
      obtain ⟨s, run, _⟩ := runs cs.length
      rw [List.take_length] at run
      exact run.2 _ mem offset rfl
    · intro k cl s s' before next after rolled
      obtain ⟨t, run, onScreen⟩ := runs k
      cases run.1.symm.trans before
      obtain ⟨t', _, inside | ⟨allowed, up⟩⟩ := never.outcome before onScreen next
      · obtain ⟨offset, _, store⟩ := inside.2 _ rolled
        cases store
      · cases allowed.1.symm.trans after
        exact up

theorem staysOnScreen_backspace : ¬ StaysOnScreen ⟨fun _ => 0#8, 0#8, fun _ => 0#8⟩ [0x08#8] := by
  rw [staysOnScreen_iff]
  intro never
  obtain ⟨s, clear, start⟩ := clsScreen_runs ⟨fun _ => 0#8, 0#8, fun _ => 0#8⟩
  exact never 0 s (by rw [List.take_zero, session_nil]; exact clear.1) rfl start

end Session

end Sparrow.Print
