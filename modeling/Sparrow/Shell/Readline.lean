import Sparrow.Lib.Image
import Mathlib.Logic.Function.Basic

/-!
# The line editor of the shell

`readline` of `shell/shell.c`. A character is stored at the cursor before anything is known about it,
so control characters leave stale bytes behind the cursor. What stands before the cursor is the
edited line all the same (`readTurn`), as long as the store stays inside `cmd_line`: the bound passed
to `readline` is `MAX_PATH_LEN`, the array is shorter.
-/

namespace Sparrow.Shell
set_option autoImplicit false

/-- `cmd_len`. -/
def cmdLen : Nat := 128

/-- `'\n'`, `'\r'`, `'\b'`, `'l' - 'a'` and `'u' - 'a'`. -/
def newline : Byte := 0x0a#8
def carriage : Byte := 0x0d#8
def backspace : Byte := 0x08#8
def ctrlL : Byte := 0x0b#8
def ctrlU : Byte := 0x14#8

/-- What a call sends to the screen. -/
inductive Shown where
  | char (b : Byte)
  | clear
  | prompt
  | text (s : List Byte)
  /-- `can't find enter_key in the cmd_line`. -/
  | tooLong
  deriving DecidableEq, Repr

/-- `cmd_line`, the index of the cursor in it, and the screen. -/
structure Editor where
  line : Image
  pos : Nat
  shown : List Shown

def Editor.show (e : Editor) (s : List Shown) : Editor := { e with shown := e.shown ++ s }

/-- A store into an array of `size` bytes. -/
def Editor.store (size : Nat) (e : Editor) (i : Nat) (b : Byte) : Exec Editor := do
  defined (i < size)
  return { e with line := Function.update e.line i b }

/-- The string at the start of the array, as `printf` reads it. -/
def Editor.text (size : Nat) (e : Editor) : List Byte := ((List.range size).map e.line).takeWhile (· != 0#8)

/-- The loop of ctrl+u, with the cursor at `pos`. -/
def eraseLine (size : Nat) : Nat → Editor → Exec Editor
  | 0, e => return { e with pos := 0 }
  | pos + 1, e => do
    let e ← e.store size (pos + 1) 0#8
    eraseLine size pos (e.show [.char backspace])

/-- The loop of `readline` on the characters that are typed, and the characters it leaves. `read`
sleeps when there are none. To move the cursor below the start of the array is undefined. -/
def readTurns (size count : Nat) : List Byte → Editor → Exec (Editor × List Byte)
  | [], _ => throw .blocked
  | c :: rest, e => do
    -- `read` stores before the loop looks at the bound
    let e ← e.store size e.pos c
    if e.pos < count then
      if c = newline ∨ c = carriage then
        let e ← e.store size e.pos 0#8
        return (e.show [.char newline], rest)
      else if c = backspace then
        if e.line 0 ≠ backspace then
          defined (0 < e.pos)
          readTurns size count rest ({ e with pos := e.pos - 1 }.show [.char backspace])
        else readTurns size count rest e
      else if c = ctrlL then
        let e ← e.store size e.pos 0#8
        readTurns size count rest (e.show [.clear, .prompt, .text (e.text size)])
      else if c = ctrlU then
        let e ← eraseLine size e.pos e
        readTurns size count rest e
      else readTurns size count rest ({ e with pos := e.pos + 1 }.show [.char c])
    else return (e.show [.tooLong], rest)

/-- `readline(cmd_line, count)`, where `cmd_line` has `size` bytes. -/
def readline (size count : Nat) (line : Image) (typed : List Byte) : Exec (Editor × List Byte) := do
  assertThat (0 < count)
  readTurns size count typed ⟨line, 0, []⟩

/-- The editing model: what a character does to the line. -/
def editStep (s : List Byte) (c : Byte) : List Byte :=
  if c = backspace then s.dropLast
  else if c = ctrlL then s
  else if c = ctrlU then []
  else s ++ [c]

def edit (typed : List Byte) : List Byte := typed.foldl editStep []

/-- A character that can be typed into a line: it neither ends the line nor the string. -/
def Typable (c : Byte) : Prop := c ≠ 0#8 ∧ c ≠ newline ∧ c ≠ carriage

instance (c : Byte) : Decidable (Typable c) := inferInstanceAs (Decidable (_ ∧ _ ∧ _))

/-- The string `s` with its end lies at `a`. -/
structure StringAt (m : Image) (a : Nat) (s : List Byte) : Prop where
  bytes : ∀ i b, s[i]? = some b → m (a + i) = b
  ends : m (a + s.length) = 0#8
  noZero : 0#8 ∉ s

/-- The cursor stands behind the line, which has no control character that moves the cursor. -/
structure Holds (e : Editor) (s : List Byte) : Prop where
  pos : e.pos = s.length
  bytes : ∀ i b, s[i]? = some b → e.line i = b
  noZero : 0#8 ∉ s
  noBackspace : backspace ∉ s

section Turns

variable {size count : Nat} {e : Editor} {s rest typed : List Byte} {c : Byte}

theorem store_of {i : Nat} {b : Byte} (inside : i < size) : e.store size i b = .ok { e with line := Function.update e.line i b } := by
  unfold Editor.store
  rw [defined_of inside]
  rfl

/-- Bytes from the cursor on do not matter. -/
theorem Holds.congr {e' : Editor} (holds : Holds e s) (pos : e'.pos = e.pos) (same : ∀ i, i < s.length → e'.line i = e.line i) :
    Holds e' s := by
  refine ⟨pos.trans holds.pos, fun i b at_ => ?_, holds.noZero, holds.noBackspace⟩
  rw [same i (List.getElem?_eq_some_iff.1 at_).1]
  exact holds.bytes i b at_

theorem Holds.store (holds : Holds e s) {i : Nat} (behind : s.length ≤ i) (b : Byte) :
    Holds { e with line := Function.update e.line i b } s :=
  holds.congr rfl fun j lt => Function.update_of_ne (by omega) _ _

theorem Holds.shown (holds : Holds e s) (t : List Shown) : Holds (e.show t) s := holds.congr rfl fun _ _ => rfl

/-- At the start of the array nothing has been typed. -/
theorem holds_start (start : e.pos = 0) : Holds e [] := by
  refine ⟨start, fun i b at_ => ?_, List.not_mem_nil, List.not_mem_nil⟩
  rw [List.getElem?_nil] at at_
  cases at_

/-- The loop of ctrl+u empties the line. -/
theorem eraseLine_holds : ∀ (pos : Nat) {e : Editor}, pos < size → ∃ e', eraseLine size pos e = .ok e' ∧ Holds e' [] := by
  intro pos
  induction pos with
  | zero =>
    intro e _
    exact ⟨{ e with pos := 0 }, rfl, holds_start rfl⟩
  | succ pos ih =>
    intro e inside
    rw [eraseLine, store_of inside, ok_bind]
    exact ih (Nat.lt_of_succ_lt inside)

theorem Holds.backspaced (holds : Holds e s) : Holds { e with pos := e.pos - 1 } s.dropLast := by
  have length : s.dropLast.length = s.length - 1 := List.length_dropLast
  refine ⟨?_, fun i b at_ => ?_, fun mem => holds.noZero (List.dropLast_subset _ mem),
    fun mem => holds.noBackspace (List.dropLast_subset _ mem)⟩
  · rw [length, ← holds.pos]
  · rw [List.getElem?_dropLast] at at_
    split at at_
    · exact holds.bytes i b at_
    · cases at_

theorem Holds.append (holds : Holds e s) (here : e.line s.length = c) (typable : Typable c) (plain : c ≠ backspace) :
    Holds { e with pos := e.pos + 1 } (s ++ [c]) := by
  refine ⟨?_, fun i b at_ => ?_, fun mem => ?_, fun mem => ?_⟩
  · rw [List.length_append, List.length_singleton, ← holds.pos]
  · rcases Nat.lt_or_ge i s.length with lt | ge
    · rw [List.getElem?_append_left lt] at at_
      exact holds.bytes i b at_
    · rw [List.getElem?_append_right ge] at at_
      have last : i = s.length := by
        have := (List.getElem?_eq_some_iff.1 at_).1
        rw [List.length_singleton] at this
        omega
      subst last
      rw [Nat.sub_self] at at_
      cases at_
      exact here
  · rcases List.mem_append.1 mem with mem | mem
    · exact holds.noZero mem
    · exact typable.1 (List.mem_singleton.1 mem).symm
  · rcases List.mem_append.1 mem with mem | mem
    · exact holds.noBackspace mem
    · exact plain (List.mem_singleton.1 mem).symm

/-- **A turn of the loop** edits the line as the model does. -/
theorem readTurn (rest : List Byte) (holds : Holds e s) (inside : s.length < size) (bound : s.length < count) (typable : Typable c) :
    ∃ e', Holds e' (editStep s c) ∧ readTurns size count (c :: rest) e = readTurns size count rest e' := by
  have pos := holds.pos
  have stored := holds.store (Nat.le_refl _) c
  rw [pos] at stored
  have here : (Function.update e.line s.length c) s.length = c := Function.update_self ..
  rw [readTurns, pos, store_of inside, ok_bind]
  simp only [pos, if_pos bound]
  rw [if_neg (not_or.2 ⟨typable.2.1, typable.2.2⟩)]
  unfold editStep
  by_cases isBackspace : c = backspace
  · rw [if_pos isBackspace, if_pos isBackspace]
    by_cases none : s = []
    · -- the backspace has just been stored at the start
      subst none
      have first : Function.update e.line 0 c 0 = backspace := here.trans isBackspace
      simp only [List.length_nil, first, ne_eq, not_true_eq_false, if_false]
      exact ⟨_, stored, rfl⟩
    · have some : 0 < s.length := List.length_pos_iff.2 none
      have first : Function.update e.line s.length c 0 ≠ backspace := by
        obtain ⟨b, tail, rfl⟩ := List.exists_cons_of_ne_nil none
        have kept : Function.update e.line (b :: tail).length c 0 = b := stored.bytes 0 b rfl
        rw [kept]
        exact fun is => holds.noBackspace (is ▸ List.mem_cons_self)
      rw [if_pos first]
      simp only [defined_of some, ok_bind]
      exact ⟨_, stored.backspaced.shown [.char backspace], rfl⟩
  · rw [if_neg isBackspace, if_neg isBackspace]
    by_cases isCtrlL : c = ctrlL
    · rw [if_pos isCtrlL, if_pos isCtrlL, store_of inside, ok_bind]
      exact ⟨_, (stored.store (Nat.le_refl _) 0#8).shown _, rfl⟩
    · rw [if_neg isCtrlL, if_neg isCtrlL]
      by_cases isCtrlU : c = ctrlU
      · rw [if_pos isCtrlU, if_pos isCtrlU]
        obtain ⟨e', erased, empty⟩ := eraseLine_holds (e := ⟨Function.update e.line s.length c, s.length, e.shown⟩) s.length inside
        exact ⟨e', empty, by rw [erased, ok_bind]⟩
      · rw [if_neg isCtrlU, if_neg isCtrlU]
        exact ⟨_, (stored.append here typable isBackspace).shown [.char c], rfl⟩

/-- A character behind the end of the array. -/
theorem readTurns_outside (holds : Holds e s) (outside : size ≤ s.length) :
    readTurns size count (c :: rest) e = .error .undefined := by
  rw [readTurns, holds.pos]
  unfold Editor.store
  rw [defined_not (by omega)]
  rfl

/-- The enter key ends the line. -/
theorem readTurns_enter (holds : Holds e s) (inside : s.length < size) (bound : s.length < count)
    (enter : c = newline ∨ c = carriage) :
    ∃ e', readTurns size count (c :: rest) e = .ok (e', rest) ∧ e'.pos = s.length ∧ StringAt e'.line 0 s := by
  have pos := holds.pos
  have stored := (holds.store (Nat.le_refl _) c).store (Nat.le_refl _) 0#8
  rw [readTurns, pos, store_of inside, ok_bind]
  simp only [pos, if_pos bound, if_pos enter, store_of inside, ok_bind]
  refine ⟨_, rfl, rfl, ⟨fun i b at_ => ?_, ?_, holds.noZero⟩⟩
  · rw [Nat.zero_add]
    exact stored.bytes i b at_
  · rw [Nat.zero_add]
    exact Function.update_self ..

/-- **The loop of `readline`**: it ends with the edited line exactly when every character was read
inside the array. -/
theorem readTurns_iff (enter : c = newline ∨ c = carriage) : ∀ (typed : List Byte) {s : List Byte} {e : Editor},
    Holds e s → (∀ c ∈ typed, Typable c) → (∀ k, ((typed.take k).foldl editStep s).length < count) →
    ((∃ e', readTurns size count (typed ++ c :: rest) e = .ok (e', rest) ∧ e'.pos = (typed.foldl editStep s).length ∧
        StringAt e'.line 0 (typed.foldl editStep s)) ↔
      ∀ k, ((typed.take k).foldl editStep s).length < size) := by
  intro typed
  induction typed with
  | nil =>
    intro s e holds _ fits
    have bound := fits 0
    constructor
    · rintro ⟨e', ran, -⟩ k
      by_contra outside
      rw [List.take_nil] at outside
      rw [List.nil_append, readTurns_outside holds (Nat.le_of_not_lt outside)] at ran
      cases ran
    · intro inside
      exact readTurns_enter holds (inside 0) bound enter
  | cons d typed ih =>
    intro s e holds typable fits
    have bound := fits 0
    by_cases inside : s.length < size
    · obtain ⟨e', holds', turn⟩ := readTurn (typed ++ c :: rest) holds inside bound (typable d List.mem_cons_self)
      have later := ih holds' (fun c mem => typable c (List.mem_cons_of_mem _ mem)) fun k => fits (k + 1)
      rw [List.cons_append, turn, List.foldl_cons]
      refine later.trans ⟨fun all k => ?_, fun all k => all (k + 1)⟩
      cases k with
      | zero => exact inside
      | succ k => exact all k
    · constructor
      · rintro ⟨e', ran, -⟩
        rw [List.cons_append, readTurns_outside holds (Nat.le_of_not_lt inside)] at ran
        cases ran
      · exact fun all => absurd (all 0) inside

end Turns

/-- **Line editing is faithful** as long as the edited line fits `cmd_line`, and no longer. -/
theorem readline_iff {count : Nat} {line : Image} {typed rest : List Byte} {enter : Byte} (isEnter : enter = newline ∨ enter = carriage)
    (typable : ∀ c ∈ typed, Typable c) (positive : 0 < count) (fits : ∀ k, (edit (typed.take k)).length ≤ count - 1) :
    (∃ e, readline cmdLen count line (typed ++ enter :: rest) = .ok (e, rest) ∧ e.pos = (edit typed).length ∧
        StringAt e.line 0 (edit typed)) ↔
      ∀ k, (edit (typed.take k)).length ≤ 127 := by
  have start : Holds ⟨line, 0, []⟩ [] := holds_start rfl
  unfold readline
  rw [assertThat_of positive, ok_bind]
  refine (readTurns_iff isEnter typed start typable fun k => ?_).trans (forall_congr' fun k => Nat.lt_succ_iff)
  have fit : ((typed.take k).foldl editStep []).length ≤ count - 1 := fits k
  omega

/-- Every character adds one to the line at most. -/
theorem edit_length_le (typed : List Byte) : (edit typed).length ≤ typed.length := by
  have fold : ∀ (typed s : List Byte), (typed.foldl editStep s).length ≤ s.length + typed.length := by
    intro typed
    induction typed with
    | nil => exact fun s => Nat.le_refl _
    | cons c typed ih =>
      intro s
      have step : (editStep s c).length ≤ s.length + 1 := by
        unfold editStep
        split
        · rw [List.length_dropLast]
          omega
        · split
          · omega
          · split <;> simp
      have rest := ih (editStep s c)
      rw [List.foldl_cons, List.length_cons]
      omega
  have all := fold typed []
  rwa [List.length_nil, Nat.zero_add] at all

/-- Characters that are no control characters of the editor stay. -/
theorem edit_plain {typed : List Byte} (plain : ∀ c ∈ typed, c ≠ backspace ∧ c ≠ ctrlL ∧ c ≠ ctrlU) : edit typed = typed := by
  have fold : ∀ (typed s : List Byte), (∀ c ∈ typed, c ≠ backspace ∧ c ≠ ctrlL ∧ c ≠ ctrlU) → typed.foldl editStep s = s ++ typed := by
    intro typed
    induction typed with
    | nil => exact fun s _ => (List.append_nil s).symm
    | cons c typed ih =>
      intro s plain
      obtain ⟨notBackspace, notL, notU⟩ := plain c List.mem_cons_self
      rw [List.foldl_cons, ih _ fun c mem => plain c (List.mem_cons_of_mem _ mem), editStep, if_neg notBackspace, if_neg notL,
        if_neg notU, List.append_assoc]
      rfl
  exact fold typed [] plain

theorem edit_take_le (typed : List Byte) (k : Nat) : (edit (typed.take k)).length ≤ typed.length :=
  Nat.le_trans (edit_length_le _) (List.length_take_le' k typed)

/-- `ls`, a backspace and the enter key leave `l`. -/
theorem readline_backspace : ∃ e, readline cmdLen 512 (fun _ => 0xff#8) ([0x6c#8, 0x73#8, backspace] ++ carriage :: []) = .ok (e, []) ∧
    e.pos = 1 ∧ StringAt e.line 0 [0x6c#8] := by
  have length : ∀ k, (edit (([0x6c#8, 0x73#8, backspace] : List Byte).take k)).length ≤ 3 := fun k => edit_take_le _ k
  have fits : ∀ k, (edit (([0x6c#8, 0x73#8, backspace] : List Byte).take k)).length ≤ 512 - 1 :=
    fun k => Nat.le_trans (length k) (by decide)
  exact (readline_iff (.inr rfl) (by decide) (by decide) fits).2 fun k => Nat.le_trans (length k) (by decide)

/-- A line of 128 letters ends behind the array, far below the bound that is passed. -/
theorem readline_overrun : ¬ ∀ (count : Nat) (line : Image) (typed rest : List Byte) (enter : Byte),
    (enter = newline ∨ enter = carriage) → (∀ c ∈ typed, Typable c) → 0 < count →
    (∀ k, (edit (typed.take k)).length ≤ count - 1) →
    ∃ e, readline cmdLen count line (typed ++ enter :: rest) = .ok (e, rest) ∧ e.pos = (edit typed).length ∧
      StringAt e.line 0 (edit typed) := by
  intro claim
  have letters : ∀ c ∈ List.replicate 128 (0x61#8 : Byte), Typable c := fun c mem => by
    rw [List.eq_of_mem_replicate mem]
    decide
  have fits : ∀ k, (edit ((List.replicate 128 (0x61#8 : Byte)).take k)).length ≤ 512 - 1 :=
    fun k => Nat.le_trans (edit_take_le _ k) (by rw [List.length_replicate]; omega)
  have short := (readline_iff (.inr rfl) letters (by decide) fits).1
    (claim 512 (fun _ => 0) (List.replicate 128 0x61#8) [] carriage (.inr rfl) letters (by decide) fits) 128
  have plain : edit (List.replicate 128 (0x61#8 : Byte)) = List.replicate 128 0x61#8 := edit_plain fun c mem => by
    rw [List.eq_of_mem_replicate mem]
    decide
  rw [List.take_of_length_le (Nat.le_of_eq List.length_replicate), plain, List.length_replicate] at short
  omega

end Sparrow.Shell
