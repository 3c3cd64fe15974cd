import Sparrow.Fs.Dir
import Sparrow.Shell.CmdParse

/-!
# The loop of the shell

`my_shell` of `shell/shell.c`: a line is read, cut at `'|'` into stages, and each stage is parsed and
executed. What is kept of a turn are its calls of `cmd_parse` and `cmd_execute`; the descriptors of
the pipe are in `Sparrow.Userprog.PipeRefs`. The commands are taken not to write to the line: `cd`
clears 512 bytes from the 64 of `cwd_cache` on, which are left out here.
-/

namespace Sparrow.Shell
set_option autoImplicit false

def space : Byte := 0x20#8

/-- `'|'`. -/
def bar : Byte := 0x7c#8

/-- `cmd_parse(cmd_str, argv, ' ')` in this memory with its result, or `cmd_execute(argc, argv)`. -/
inductive Event where
  | parsed (mem : Image) (cmdStr : Nat) (result : Int)
  | executed (argc : Int) (argv : Nat → Option Nat)

/-- `strchr`. -/
def strchr (mem : Image) (ch : Byte) : Nat → Nat → Option Nat
  | 0, _ => none
  | n + 1, str => if mem str = 0#8 then none else if mem str = ch then some str else strchr mem ch n (str + 1)

/-- A command of a pipeline: the result of `cmd_parse` is not looked at. -/
def runStage (n : Nat) (mem : Image) (eachCmd : Nat) : Exec (Image × List Event) := do
  let (argc, p) ← cmdParse n mem eachCmd space
  return (p.mem, [.parsed mem eachCmd argc, .executed argc p.argv])

/-- The commands of a pipeline from `each_cmd` on. The first, the middle and the last ones differ in their
descriptors only. -/
def runStages (n : Nat) : Nat → Image → Nat → Exec (List Event)
  | 0, _, _ => throw .diverge
  | turns + 1, mem, eachCmd =>
    match strchr mem bar n eachCmd with
    | some pipeSymbol => do
      let (mem, first) ← runStage n (Function.update mem pipeSymbol 0#8) eachCmd
      let others ← runStages n turns mem (pipeSymbol + 1)
      return first ++ others
    | none => do
      let (_, last) ← runStage n mem eachCmd
      return last

/-- What `my_shell` does with the line, a string of less than `n` bytes. -/
def runLine (n : Nat) (mem : Image) : Exec (List Event) :=
  if mem 0 = 0#8 then return []
  else match strchr mem bar n 0 with
    | some _ => runStages n n mem 0
    | none => do
      let (argc, p) ← cmdParse n mem 0 space
      if argc = -1 then return [.parsed mem 0 argc]
      else return [.parsed mem 0 argc, .executed argc p.argv]

/-- The part of a turn that reads a line, where `cmd_line` has `size` bytes: it is cleared and filled as
if it had `MAX_PATH_LEN`. -/
def readCommand (size : Nat) (cmdLine : Image) (typed : List Byte) : Exec (Editor × List Byte) := do
  defined (maxPathLen ≤ size)
  readline size maxPathLen (fill cmdLine 0 maxPathLen 0#8) typed

/-- The turns of `my_shell` on the characters that are typed. -/
def myShell (size : Nat) : Nat → Image → List Byte → Exec (List Event)
  | 0, _, _ => throw .diverge
  | turns + 1, cmdLine, typed => do
    let (e, typed) ← readCommand size cmdLine typed
    let events ← runLine maxPathLen e.line
    let others ← myShell size turns e.line typed
    return events ++ others

/-- What the shell may do in a turn: -1 stands for a stage with too many words, and a command is
executed with its name and no more arguments than `argv` holds. -/
def Event.Safe : Event → Prop
  | .parsed mem cmdStr result => ∀ s, StringAt mem cmdStr s → (result = -1 ↔ maxArgNr < (words space s).length)
  | .executed argc argv => 1 ≤ argc ∧ argc ≤ maxArgNr ∧ argv 0 ≠ none

/-- The turn stays inside `argv` and does nothing it may not. -/
def LineSafe (n : Nat) (mem : Image) : Prop := ∃ events, runLine n mem = .ok events ∧ ∀ e ∈ events, e.Safe

/-- The words of a stage fit `argv`, and there is one. -/
def StageFits (stage : List Byte) : Prop := 1 ≤ (words space stage).length ∧ (words space stage).length ≤ 16

instance (stage : List Byte) : Decidable (StageFits stage) := inferInstanceAs (Decidable (_ ∧ _))

section Stages

variable {n : Nat} {mem : Image} {a : Nat} {s : List Byte}

theorem strchr_none {ch : Byte} : ∀ {n a : Nat} {s : List Byte}, StringAt mem a s → ch ∉ s → strchr mem ch n a = none := by
  intro n
  induction n with
  | zero => exact fun _ _ => rfl
  | succ n ih =>
    intro a s str no
    rw [strchr]
    cases s with
    | nil => exact if_pos (str.ends_iff.2 rfl)
    | cons b s =>
      have notEnd : mem a ≠ 0#8 := fun zero => by cases str.ends_iff.1 zero
      have other : mem a ≠ ch := fun is => no (by rw [← is, str.head]; exact List.mem_cons_self)
      rw [if_neg notEnd, if_neg other]
      exact ih str.tail fun mem => no (List.mem_cons_of_mem _ mem)

theorem strchr_some {ch : Byte} : ∀ {n a : Nat} {pre post : List Byte}, StringAt mem a (pre ++ ch :: post) → ch ∉ pre →
    pre.length < n → strchr mem ch n a = some (a + pre.length) := by
  intro n
  induction n with
  | zero => intro a pre post _ _ lt; omega
  | succ n ih =>
    intro a pre post str no lt
    have notEnd : mem a ≠ 0#8 := fun zero => by cases List.append_ne_nil_of_right_ne_nil pre (by simp) (str.ends_iff.1 zero)
    rw [strchr, if_neg notEnd]
    cases pre with
    | nil =>
      rw [if_pos str.head]
      rfl
    | cons b pre =>
      have other : mem a ≠ ch := fun is => no (by rw [← is, str.head]; exact List.mem_cons_self)
      rw [if_neg other, ih str.tail (fun mem => no (List.mem_cons_of_mem _ mem)) (Nat.lt_of_succ_lt_succ lt), List.length_cons]
      congr 1
      omega

theorem space_ne_zero : space ≠ 0#8 := by decide

/-- The two calls for a stage, and the memory after them. -/
theorem cmdParse_stage (str : StringAt mem a s) (turns : s.length < n) (few : (words space s).length ≤ 16) :
    ∃ p, cmdParse n mem a space = .ok ((words space s).length, p) ∧ (p.argv 0 = none ↔ (words space s).length = 0) ∧
      ∀ x, a + s.length ≤ x → p.mem x = mem x := by
  obtain ⟨p, ran, words, null, changes⟩ := cmdParse_splits space_ne_zero str few turns
  refine ⟨p, ran, ⟨fun none => ?_, fun zero => null 0 (Nat.le_of_eq zero) (by decide)⟩, fun x behind => ?_⟩
  · by_contra some
    obtain ⟨w, at_⟩ := (⟨_, List.getElem?_eq_getElem (Nat.pos_of_ne_zero some)⟩ : ∃ w, (Sparrow.words space s)[0]? = Option.some w)
    obtain ⟨pre, -, pointer, -⟩ := words 0 w at_
    rw [none] at pointer
    cases pointer
  · by_contra changed
    have inside := (changes x changed).2.1
    omega

/-- The events of a stage are safe when it has a word, and no more than fit. -/
theorem stage_safe (str : StringAt mem a s) (few : (words space s).length ≤ 16) {argv : Nat → Option Nat}
    (first : argv 0 = none ↔ (words space s).length = 0) :
    (∀ e ∈ [Event.parsed mem a (words space s).length, Event.executed (words space s).length argv], e.Safe) ↔ StageFits s := by
  rw [List.forall_mem_cons, List.forall_mem_singleton]
  constructor
  · rintro ⟨-, some, -⟩
    exact ⟨by omega, few⟩
  · rintro ⟨some, -⟩
    refine ⟨fun s' str' => ?_, by omega, ?_, fun null => ?_⟩
    · rw [str'.unique str, maxArgNr]
      omega
    · rw [maxArgNr]
      omega
    · have zero := first.1 null
      omega

/-- A stage with too many words runs out of `argv`. -/
theorem runStage_overrun (str : StringAt mem a s) (turns : s.length < n) (many : ¬ (words space s).length ≤ 16) :
    runStage n mem a = .error .undefined := by
  unfold runStage
  rw [cmdParse_overrun space_ne_zero str (Nat.lt_of_not_le many) turns]
  rfl

theorem runStage_eq (str : StringAt mem a s) (turns : s.length < n) (few : (words space s).length ≤ 16) :
    ∃ mem' events, runStage n mem a = .ok (mem', events) ∧ ((∀ e ∈ events, e.Safe) ↔ StageFits s) ∧
      ∀ x, a + s.length ≤ x → mem' x = mem x := by
  obtain ⟨p, ran, first, behind⟩ := cmdParse_stage str turns few
  refine ⟨_, _, ?_, stage_safe str few first, behind⟩
  unfold runStage
  rw [ran]
  rfl

/-- **The stages of a pipeline** are run safely when each of them fits. -/
theorem runStages_iff : ∀ (turns : Nat) {mem : Image} {a : Nat} {s : List Byte}, StringAt mem a s → s.length < turns → s.length < n →
    ((∃ events, runStages n turns mem a = .ok events ∧ ∀ e ∈ events, e.Safe) ↔ ∀ stage ∈ s.splitOn bar, StageFits stage) := by
  intro turns
  induction turns with
  | zero => intro mem a s _ lt; omega
  | succ turns ih =>
    intro mem a s str lt short
    rw [runStages]
    by_cases has : bar ∈ s
    · obtain ⟨stage, post, rfl, no⟩ := List.eq_append_cons_of_mem has
      rw [List.length_append, List.length_cons] at lt short
      have stageStr : StringAt (Function.update mem (a + stage.length) 0#8) a stage := str.cut
      rw [strchr_some str no (by omega), List.splitOn_append_cons_self_of_not_mem no]
      rw [List.forall_mem_cons]
      dsimp only
      by_cases few : (words space stage).length ≤ 16
      · obtain ⟨mem', first, ran, safe, behind⟩ := runStage_eq (n := n) stageStr (by omega) few
        have postStr : StringAt mem' (a + stage.length + 1) post := by
          refine str.append.tail.congr fun i _ => ?_
          rw [behind _ (by omega), Function.update_of_ne (by omega)]
        rw [← ih postStr (by omega) (by omega), ← safe, ran, ok_bind]
        dsimp only
        simp only [bind_ok, pure_ok]
        constructor
        · rintro ⟨_, ⟨others, rest, rfl⟩, all⟩
          exact ⟨fun e mem => all e (List.mem_append_left _ mem), others, rest, fun e mem => all e (List.mem_append_right _ mem)⟩
        · rintro ⟨firstSafe, others, rest, othersSafe⟩
          exact ⟨_, ⟨others, rest, rfl⟩, fun e mem => (List.mem_append.1 mem).elim (firstSafe e) (othersSafe e)⟩
      · rw [runStage_overrun stageStr (by omega) few]
        constructor
        · rintro ⟨_, ran, -⟩
          cases ran
        · exact fun fits => absurd fits.1.2 few
    · rw [strchr_none str has, List.splitOn_eq_singleton has, List.forall_mem_singleton]
      dsimp only
      by_cases few : (words space s).length ≤ 16
      · obtain ⟨mem', events, ran, safe, -⟩ := runStage_eq str short few
        rw [ran, ok_bind, ← safe]
        dsimp only
        simp only [pure_ok]
        constructor
        · rintro ⟨_, rfl, all⟩
          exact all
        · exact fun all => ⟨_, rfl, all⟩
      · rw [runStage_overrun str short few]
        constructor
        · rintro ⟨_, ran, -⟩
          cases ran
        · exact fun fits => absurd fits.2 few

/-- **Command dispatch is safe** for the empty line and for lines whose stages have between 1 and 16 words
each, and for no others. -/
theorem lineSafe_iff {line : List Byte} (str : StringAt mem 0 line) (turns : line.length < n) :
    LineSafe n mem ↔ line = [] ∨ ∀ stage ∈ line.splitOn bar, StageFits stage := by
  unfold LineSafe runLine
  by_cases empty : line = []
  · rw [if_pos (str.ends_iff.2 empty)]
    exact ⟨fun _ => .inl empty, fun _ => ⟨[], rfl, fun e mem => by cases mem⟩⟩
  · rw [if_neg fun zero => empty (str.ends_iff.1 zero), or_iff_right empty]
    by_cases has : bar ∈ line
    · obtain ⟨stage, post, is, no⟩ := List.eq_append_cons_of_mem has
      have found : strchr mem bar n 0 = some (0 + stage.length) := by
        rw [is] at str turns
        rw [List.length_append] at turns
        exact strchr_some str no (by omega)
      rw [found]
      exact runStages_iff n str turns turns
    · rw [strchr_none str has, List.splitOn_eq_singleton has, List.forall_mem_singleton]
      dsimp only
      by_cases few : (words space line).length ≤ 16
      · obtain ⟨p, ran, first, -⟩ := cmdParse_stage str turns few
        have notMinus : ((words space line).length : Int) ≠ -1 := by omega
        rw [ran, ok_bind, ← stage_safe str few first]
        dsimp only
        rw [if_neg notMinus]
        simp only [pure_ok]
        constructor
        · rintro ⟨_, rfl, all⟩
          exact all
        · exact fun all => ⟨_, rfl, all⟩
      · rw [cmdParse_overrun space_ne_zero str (Nat.lt_of_not_le few) turns]
        constructor
        · rintro ⟨_, ran, -⟩
          cases ran
        · exact fun fits => absurd fits.2 few

end Stages

/-- The line and the bytes behind it. -/
def lineImage (line : List Byte) : Image := fun i => line.getD i 0#8

theorem lineImage_string {line : List Byte} (noZero : 0#8 ∉ line) : StringAt (lineImage line) 0 line := by
  refine ⟨fun i b at_ => ?_, ?_, noZero⟩
  · rw [lineImage, Nat.zero_add, List.getD_eq_getElem?_getD, at_]
    rfl
  · rw [lineImage, Nat.zero_add, List.getD_eq_getElem?_getD, List.getElem?_eq_none (Nat.le_refl _)]
    rfl

/-- `ls|a` is dispatched safely. -/
theorem lineSafe_pipe : LineSafe cmdLen (lineImage [0x6c#8, 0x73#8, bar, 0x61#8]) :=
  (lineSafe_iff (lineImage_string (by decide)) (show 4 < cmdLen by decide)).2 (.inr (by decide))

/-- A blank is executed as a command without a name. -/
theorem lineSafe_blank : ¬ ∀ (mem : Image) (line : List Byte), StringAt mem 0 line → line.length < cmdLen → LineSafe cmdLen mem := by
  intro claim
  have str : StringAt (lineImage [space]) 0 [space] := lineImage_string (by decide)
  have safe := (lineSafe_iff str (by decide)).1 (claim _ _ str (by decide))
  revert safe
  decide

/-- Whatever is typed, no turn stores behind the `size` bytes of `cmd_line` while it reads its line. -/
def StaysInside (size : Nat) : Nat → Image → List Byte → Prop
  | 0, _, _ => True
  | turns + 1, cmdLine, typed => readCommand size cmdLine typed ≠ .error .undefined ∧
      ∀ e rest, readCommand size cmdLine typed = .ok (e, rest) → StaysInside size turns e.line rest

/-- The bound of `memset` is not the size of the array. -/
theorem readCommand_short {size : Nat} (short : size < maxPathLen) (cmdLine : Image) (typed : List Byte) :
    readCommand size cmdLine typed = .error .undefined := by
  unfold readCommand
  rw [defined_not (Nat.not_le_of_lt short)]
  rfl

/-- **The shell leaves `cmd_line` in its first turn**, whatever is typed: it clears 512 bytes of an array
of 128, and comes to execute nothing that has a meaning. -/
theorem myShell_overrun (turns : Nat) (cmdLine : Image) (typed : List Byte) :
    ¬ StaysInside cmdLen (turns + 1) cmdLine typed ∧ myShell cmdLen (turns + 1) cmdLine typed = .error .undefined := by
  have short : readCommand cmdLen cmdLine typed = .error .undefined := readCommand_short (by decide) cmdLine typed
  constructor
  · intro inside
    exact inside.1 short
  · rw [myShell, short]
    rfl

/-- One turn is enough, with an array of zeroes and nothing to read but the enter key. -/
theorem myShell_enter : ¬ ∀ (turns : Nat) (cmdLine : Image) (typed : List Byte), StaysInside cmdLen turns cmdLine typed := by
  intro claim
  exact (claim 1 (fun _ => 0) [carriage]).1 (readCommand_short (by decide) _ _)

end Sparrow.Shell
