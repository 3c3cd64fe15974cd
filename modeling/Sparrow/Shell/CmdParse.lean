import Mathlib.Data.List.Basic
import Sparrow.Lib.Words
import Sparrow.Shell.Readline

/-!
# Splitting a command line into words

`cmd_parse` of `shell/shell.c` works in the line itself: the separator behind a word becomes the end
of the word, and `argv` points into the line. Its loops move `next` towards the terminating zero,
so as many turns as the line has bytes are enough.
-/

namespace Sparrow.Shell
set_option autoImplicit false

/-- `MAX_ARG_NR`. -/
def maxArgNr : Nat := 16

/-- The memory, `argv` and the variables of `cmd_parse`. -/
structure Parse where
  mem : Image
  argv : Nat → Option Nat
  argc : Nat
  next : Nat

/-- `while (*next == token) next++`. -/
def skipTokens (mem : Image) (token : Byte) : Nat → Nat → Nat
  | 0, next => next
  | n + 1, next => if mem next = token then skipTokens mem token n (next + 1) else next

/-- `while (*next && *next != token) next++`. -/
def skipWord (mem : Image) (token : Byte) : Nat → Nat → Nat
  | 0, next => next
  | n + 1, next => if mem next ≠ 0#8 ∧ mem next ≠ token then skipWord mem token n (next + 1) else next

/-- The outer loop of `cmd_parse`, in a line of less than `n` bytes. -/
def parseTurns (token : Byte) (n : Nat) : Nat → Parse → Exec (Int × Parse)
  | 0, _ => throw .diverge
  | turns + 1, p =>
    if p.mem p.next = 0#8 then return (p.argc, p)
    else
      let next := skipTokens p.mem token n p.next
      if p.mem next = 0#8 then return (p.argc, { p with next := next })
      else do
        -- `argv[argc] = next` comes before the test of `argc`
        defined (p.argc < maxArgNr)
        let argv := Function.update p.argv p.argc (some next)
        let stop := skipWord p.mem token n next
        let mem := if p.mem stop ≠ 0#8 then Function.update p.mem stop 0#8 else p.mem
        let next := if p.mem stop ≠ 0#8 then stop + 1 else stop
        if maxArgNr < p.argc then return (-1, ⟨mem, argv, p.argc, next⟩)
        else parseTurns token n turns ⟨mem, argv, p.argc + 1, next⟩

/-- `cmd_parse(cmd_str, argv, token)`, after the entries of `argv` are set to null. -/
def cmdParse (n : Nat) (mem : Image) (cmdStr : Nat) (token : Byte) : Exec (Int × Parse) :=
  parseTurns token n n ⟨mem, fun _ => none, 0, cmdStr⟩

section Strings

variable {m m' : Image} {a : Nat} {s t : List Byte} {b : Byte}

theorem StringAt.ends_iff (str : StringAt m a s) : m a = 0#8 ↔ s = [] := by
  constructor
  · intro zero
    cases s with
    | nil => rfl
    | cons b s =>
      have first := str.bytes 0 b rfl
      rw [Nat.add_zero, zero] at first
      exact absurd (first ▸ List.mem_cons_self) str.noZero
  · rintro rfl
    exact str.ends

theorem StringAt.append (str : StringAt m a (s ++ t)) : StringAt m (a + s.length) t := by
  refine ⟨fun i b at_ => ?_, ?_, fun mem => str.noZero (List.mem_append_right _ mem)⟩
  · rw [Nat.add_assoc]
    refine str.bytes _ _ ?_
    rw [List.getElem?_append_right (Nat.le_add_right _ _), Nat.add_sub_cancel_left]
    exact at_
  · have ends := str.ends
    rwa [List.length_append, ← Nat.add_assoc] at ends

theorem StringAt.head (str : StringAt m a (b :: s)) : m a = b := str.bytes 0 b rfl

theorem StringAt.tail (str : StringAt m a (b :: s)) : StringAt m (a + 1) s := str.append (s := [b])

/-- A string depends on its own bytes. -/
theorem StringAt.congr (str : StringAt m a s) (same : ∀ i, i ≤ s.length → m' (a + i) = m (a + i)) : StringAt m' a s := by
  refine ⟨fun i b at_ => ?_, ?_, str.noZero⟩
  · rw [same i (Nat.le_of_lt (List.getElem?_eq_some_iff.1 at_).1)]
    exact str.bytes i b at_
  · rw [same _ (Nat.le_refl _)]
    exact str.ends

/-- A pointer points to one string. -/
theorem StringAt.unique : ∀ {s t : List Byte} {a : Nat}, StringAt m a s → StringAt m a t → s = t := by
  intro s
  induction s with
  | nil => exact fun {t a} str str' => (str'.ends_iff.1 str.ends).symm
  | cons b s ih =>
    intro t a str str'
    cases t with
    | nil => cases str.ends_iff.1 str'.ends
    | cons c t =>
      have first : b = c := str.head.symm.trans str'.head
      rw [first, ih str.tail str'.tail]

/-- A zero cuts a string off. -/
theorem StringAt.cut (str : StringAt m a (s ++ t)) : StringAt (Function.update m (a + s.length) 0#8) a s := by
  refine ⟨fun i b at_ => ?_, Function.update_self .., fun mem => str.noZero (List.mem_append_left _ mem)⟩
  have lt := (List.getElem?_eq_some_iff.1 at_).1
  rw [Function.update_of_ne (by omega)]
  refine str.bytes i b ?_
  rw [List.getElem?_append_left lt]
  exact at_

end Strings

section Scanning

variable {mem : Image} {token : Byte}

/-- The separators in front of a word are skipped. -/
theorem skipTokens_eq (nonzero : token ≠ 0#8) : ∀ {n a : Nat} {seps rest : List Byte}, StringAt mem a (seps ++ rest) →
    (∀ x ∈ seps, x = token) → rest.head? ≠ some token → seps.length < n →
    skipTokens mem token n a = a + seps.length := by
  intro n
  induction n with
  | zero => intro a seps rest _ _ _ lt; omega
  | succ n ih =>
    intro a seps rest str all stop lt
    rw [skipTokens]
    cases seps with
    | nil =>
      have other : mem a ≠ token := by
        cases rest with
        | nil => rw [str.ends_iff.2 rfl]; exact nonzero.symm
        | cons b rest => rw [str.head]; exact fun is => stop (by rw [is]; rfl)
      rw [if_neg other]
      rfl
    | cons x seps =>
      have isToken : mem a = token := str.head.trans (all x List.mem_cons_self)
      rw [if_pos isToken, ih str.tail (fun x mem => all x (List.mem_cons_of_mem _ mem)) stop (Nat.lt_of_succ_lt_succ lt)]
      rw [List.length_cons]
      omega

/-- A word is skipped up to the separator behind it or the end of the string. -/
theorem skipWord_eq : ∀ {n a : Nat} {w rest : List Byte}, StringAt mem a (w ++ rest) → token ∉ w →
    (rest = [] ∨ ∃ r, rest = token :: r) → w.length < n → skipWord mem token n a = a + w.length := by
  intro n
  induction n with
  | zero => intro a w rest _ _ _ lt; omega
  | succ n ih =>
    intro a w rest str noToken stop lt
    rw [skipWord]
    cases w with
    | nil =>
      have ended : ¬ (mem a ≠ 0#8 ∧ mem a ≠ token) := by
        rintro ⟨notEnd, other⟩
        obtain rfl | ⟨r, rfl⟩ := stop
        · exact notEnd (str.ends_iff.2 rfl)
        · exact other str.head
      rw [if_neg ended]
      rfl
    | cons b w =>
      have inside : mem a ≠ 0#8 ∧ mem a ≠ token := by
        have first : mem a = b := str.head
        refine ⟨fun zero => ?_, fun isToken => ?_⟩
        · cases str.ends_iff.1 zero
        · rw [first] at isToken
          exact noToken (isToken ▸ List.mem_cons_self)
      rw [if_pos inside, ih str.tail (fun mem => noToken (List.mem_cons_of_mem _ mem)) stop (Nat.lt_of_succ_lt_succ lt),
        List.length_cons]
      omega

end Scanning

/-- The word `w` with `i` words before it begins behind `pre`, at the start of the line or behind a separator. -/
structure WordBegins (token : Byte) (s : List Byte) (i : Nat) (w pre : List Byte) : Prop where
  is : ∃ post, s = pre ++ (w ++ post)
  before : (words token pre).length = i
  separated : ∀ b, pre.getLast? = some b → b = token

/-- What `cmd_parse` does with the string `s` at `next`: the next entries of `argv` point to its words,
which have their ends now, and nothing but separators has been overwritten. -/
structure Splits (token : Byte) (s : List Byte) (p p' : Parse) : Prop where
  words : ∀ i w, (words token s)[i]? = some w → ∃ pre, WordBegins token s i w pre ∧
    p'.argv (p.argc + i) = some (p.next + pre.length) ∧ StringAt p'.mem (p.next + pre.length) w
  others : ∀ j, j < p.argc ∨ p.argc + (Sparrow.words token s).length ≤ j → p'.argv j = p.argv j
  mem : ∀ x, p'.mem x ≠ p.mem x → p.next ≤ x ∧ x < p.next + s.length ∧ p.mem x = token ∧ p'.mem x = 0#8

section Turns

variable {token : Byte} {n turns : Nat} {p p' p1 : Parse} {s seps w rest : List Byte}

/-- Nothing but separators is left. -/
theorem parseTurn_done (turns : Nat) (nonzero : token ≠ 0#8) (str : StringAt p.mem p.next s) (all : ∀ x ∈ s, x = token) (short : s.length < n) :
    ∃ p', parseTurns token n (turns + 1) p = .ok (p.argc, p') ∧ p'.mem = p.mem ∧ p'.argv = p.argv := by
  rw [parseTurns]
  by_cases ended : p.mem p.next = 0#8
  · rw [if_pos ended]
    exact ⟨p, rfl, rfl, rfl⟩
  · have str' : StringAt p.mem p.next (s ++ []) := by rwa [List.append_nil]
    have skipped := skipTokens_eq nonzero str' all (fun is => by cases is) short
    rw [if_neg ended]
    simp only [skipped, if_pos str.ends]
    exact ⟨_, rfl, rfl, rfl⟩

/-- The state after a turn that has found the word `w` behind the separators `seps`. -/
structure Turned (token : Byte) (seps w rest : List Byte) (p p1 : Parse) : Prop where
  argc : p1.argc = p.argc + 1
  argv : p1.argv = Function.update p.argv p.argc (some (p.next + seps.length))
  next : p1.next + rest.tail.length = p.next + (seps ++ (w ++ rest)).length
  behind : p.next + seps.length + w.length ≤ p1.next
  word : StringAt p1.mem (p.next + seps.length) w
  left : StringAt p1.mem p1.next rest.tail
  mem : ∀ x, p1.mem x ≠ p.mem x → x = p.next + seps.length + w.length ∧ x < p.next + (seps ++ (w ++ rest)).length ∧
    p.mem x = token ∧ p1.mem x = 0#8

/-- A turn that finds a word stores a pointer to it, where `argv` has room. -/
theorem parseTurn_word (turns : Nat) (nonzero : token ≠ 0#8) (str : StringAt p.mem p.next (seps ++ (w ++ rest))) (all : ∀ x ∈ seps, x = token)
    (noToken : token ∉ w) (nonempty : w ≠ []) (ends : rest = [] ∨ ∃ r, rest = token :: r)
    (short : (seps ++ (w ++ rest)).length < n) :
    (maxArgNr ≤ p.argc → parseTurns token n (turns + 1) p = .error .undefined) ∧
      (p.argc < maxArgNr → ∃ p1, parseTurns token n (turns + 1) p = parseTurns token n turns p1 ∧ Turned token seps w rest p p1) := by
  obtain ⟨b, v, isWord⟩ := List.exists_cons_of_ne_nil nonempty
  have some : ¬ p.mem p.next = 0#8 := fun zero => by
    have empty := str.ends_iff.1 zero
    rw [isWord] at empty
    simp at empty
  have stop : (w ++ rest).head? ≠ Option.some token := by
    rw [isWord]
    intro is
    cases is
    exact noToken (isWord ▸ List.mem_cons_self)
  rw [List.length_append, List.length_append] at short
  have skipped := skipTokens_eq nonzero str all stop (n := n) (by omega)
  have atWord := str.append
  have found : ¬ p.mem (p.next + seps.length) = 0#8 := fun zero => by
    have empty := atWord.ends_iff.1 zero
    rw [isWord] at empty
    cases empty
  have ended := skipWord_eq (n := n) atWord noToken ends (by omega)
  have atRest := atWord.append
  rw [parseTurns, if_neg some]
  simp only [skipped, if_neg found, ended]
  refine ⟨fun full => ?_, fun room => ?_⟩
  · rw [defined_not (Nat.not_lt.2 full)]
    rfl
  · rw [defined_of room, ok_bind, if_neg (Nat.not_lt.2 (Nat.le_of_lt room))]
    refine ⟨_, rfl, ?_⟩
    obtain rfl | ⟨r, rfl⟩ := ends
    · -- the word ends with the line
      have ended := atRest.ends_iff.2 rfl
      simp only [ended, ne_eq, not_true_eq_false, if_false]
      rw [List.append_nil] at atWord
      refine ⟨rfl, rfl, ?_, Nat.le_refl _, atWord, atRest, fun x changed => absurd rfl changed⟩
      simp only [List.tail_nil, List.length_nil, List.length_append]
      omega
    · -- the separator behind the word becomes its end
      have separator : p.mem (p.next + seps.length + w.length) = token := atRest.head
      have notEnd : p.mem (p.next + seps.length + w.length) ≠ 0#8 := separator ▸ nonzero
      simp only [if_pos notEnd]
      refine ⟨rfl, rfl, ?_, Nat.le_succ _, atWord.cut, ?_, fun x changed => ?_⟩
      · simp only [List.tail_cons, List.length_append, List.length_cons]
        omega
      · exact atRest.tail.congr fun i _ => Function.update_of_ne (by omega) _ _
      · by_cases here : x = p.next + seps.length + w.length
        · subst here
          refine ⟨rfl, ?_, separator, Function.update_self ..⟩
          simp only [List.length_append, List.length_cons]
          omega
        · exact absurd (Function.update_of_ne here _ _) changed

/-- The words behind the first one. -/
theorem words_rest (ends : rest = [] ∨ ∃ r, rest = token :: r) : Sparrow.words token rest = Sparrow.words token rest.tail := by
  obtain rfl | ⟨r, rfl⟩ := ends
  · rfl
  · exact words_cons_sep r

/-- The first word stays a string while the rest of the line is split. -/
theorem Turned.word_kept (turned : Turned token seps w rest p p1) (nonzero : token ≠ 0#8) (splits : Splits token rest.tail p1 p') :
    StringAt p'.mem (p.next + seps.length) w := by
  refine turned.word.congr fun i le => ?_
  by_contra changed
  obtain ⟨low, -, isToken, -⟩ := splits.mem _ changed
  have behind := turned.behind
  have last : i = w.length := by omega
  subst last
  exact nonzero (isToken.symm.trans turned.word.ends)

/-- A turn and the rest of the loop. -/
theorem Turned.splits (turned : Turned token seps w rest p p1) (nonzero : token ≠ 0#8) (all : ∀ x ∈ seps, x = token)
    (noToken : token ∉ w) (nonempty : w ≠ []) (ends : rest = [] ∨ ∃ r, rest = token :: r) (splits : Splits token rest.tail p1 p') :
    Splits token (seps ++ (w ++ rest)) p p' := by
  have cut : Sparrow.words token (seps ++ (w ++ rest)) = w :: Sparrow.words token rest.tail := by
    rw [words_cut all noToken nonempty ends, words_rest ends]
  have argc := turned.argc
  refine ⟨fun i v at_ => ?_, fun j out => ?_, fun x changed => ?_⟩
  · rw [cut] at at_
    cases i with
    | zero =>
      cases at_
      refine ⟨seps, ⟨⟨rest, rfl⟩, ?_, fun b last => all b (List.mem_of_getLast? last)⟩, ?_, turned.word_kept nonzero splits⟩
      · rw [words_of_seps all]
        rfl
      · rw [Nat.add_zero, splits.others p.argc (.inl (by omega)), turned.argv, Function.update_self]
    | succ i =>
      obtain ⟨pre, ⟨⟨post, is⟩, count, separated⟩, pointer, str⟩ := splits.words i v at_
      -- there is a separator behind `w`, since there is a word behind it
      obtain rfl | ⟨r, rfl⟩ := ends
      · cases at_
      · have next := turned.next
        rw [List.tail_cons] at is next
        have place : p1.next + pre.length = p.next + (seps ++ (w ++ token :: pre)).length := by
          simp only [List.length_append, List.length_cons] at next ⊢
          omega
        refine ⟨seps ++ (w ++ token :: pre), ⟨⟨post, ?_⟩, ?_, fun b last => ?_⟩, ?_, ?_⟩
        · rw [is]
          simp
        · rw [words_cut all noToken nonempty (.inr ⟨pre, rfl⟩), words_cons_sep, List.length_cons, count]
        · rw [← List.append_assoc, List.getLast?_append_of_ne_nil _ (List.cons_ne_nil token pre)] at last
          cases pre with
          | nil => exact (Option.some.inj last).symm
          | cons c pre => exact separated b (by rwa [List.getLast?_cons_cons] at last)
        · rw [← place, ← pointer, argc]
          congr 1
          omega
        · rw [← place]
          exact str
  · rw [cut, List.length_cons] at out
    rw [splits.others j (by omega), turned.argv, Function.update_of_ne (by omega)]
  · have next := turned.next
    by_cases later : p'.mem x = p1.mem x
    · rw [later] at changed ⊢
      obtain ⟨here, inside, isToken, zero⟩ := turned.mem x changed
      exact ⟨by omega, inside, isToken, zero⟩
    · obtain ⟨low, high, isToken, zero⟩ := splits.mem x later
      have behind := turned.behind
      refine ⟨by omega, by omega, ?_, zero⟩
      by_contra other
      rw [← isToken] at other
      obtain ⟨-, -, -, zero'⟩ := turned.mem x fun same => other same.symm
      exact nonzero (isToken.symm.trans zero')

/-- **The loop of `cmd_parse`** splits a line whose words fit `argv`, and runs out of `argv` on every other. -/
theorem parseTurns_spec (nonzero : token ≠ 0#8) : ∀ (turns : Nat) {s : List Byte} {p : Parse}, StringAt p.mem p.next s →
    s.length < turns → s.length < n → p.argc ≤ maxArgNr →
    (p.argc + (Sparrow.words token s).length ≤ maxArgNr →
      ∃ p', parseTurns token n turns p = .ok ((p.argc + (Sparrow.words token s).length : Nat), p') ∧ Splits token s p p') ∧
    (maxArgNr < p.argc + (Sparrow.words token s).length → parseTurns token n turns p = .error .undefined) := by
  intro turns
  induction turns with
  | zero => intro s p _ lt; omega
  | succ turns ih =>
    intro s p str lt short argc
    obtain ⟨seps, w, rest, rfl, all, noToken, ends⟩ := cut_word token s
    by_cases empty : w = []
    · obtain rfl | ⟨nonempty, -⟩ := ends
      · subst empty
        rw [List.append_nil, List.append_nil] at *
        rw [words_of_seps all, List.length_nil, Nat.add_zero]
        obtain ⟨p', ran, mem, argv⟩ := parseTurn_done turns nonzero str all short
        refine ⟨fun _ => ⟨p', ran, fun i w at_ => ?_, fun j _ => by rw [argv], fun x changed => absurd (by rw [mem]) changed⟩,
          fun many => by omega⟩
        rw [words_of_seps all] at at_
        cases at_
      · exact absurd empty nonempty
    · have ends' : rest = [] ∨ ∃ r, rest = token :: r := ends.imp id And.right
      have cut : Sparrow.words token (seps ++ (w ++ rest)) = w :: Sparrow.words token rest.tail := by
        rw [words_cut all noToken empty ends', words_rest ends']
      obtain ⟨full, room⟩ := parseTurn_word turns nonzero str all noToken empty ends' short
      have pos := List.length_pos_iff.2 empty
      have shorter : rest.tail.length < (seps ++ (w ++ rest)).length := by
        rw [List.length_append, List.length_append, List.length_tail]
        omega
      rw [cut, List.length_cons]
      rcases Nat.lt_or_ge p.argc maxArgNr with fits | many
      · obtain ⟨p1, turn, turned⟩ := room fits
        have count := turned.argc
        obtain ⟨few, toomany⟩ := ih turned.left (by omega) (by omega) (by omega)
        rw [count] at few toomany
        refine ⟨fun le => ?_, fun gt => ?_⟩
        · obtain ⟨p', ran, splits⟩ := few (by omega)
          refine ⟨p', ?_, turned.splits nonzero all noToken empty ends' splits⟩
          rw [turn, ran]
          congr 3
          omega
        · rw [turn]
          exact toomany (by omega)
      · exact ⟨fun le => by omega, fun _ => full many⟩

end Turns

section Call

variable {n : Nat} {mem : Image} {cmdStr : Nat} {token : Byte} {s : List Byte}

/-- **`cmd_parse` splits words correctly**: it returns their number, `argv` points to them in order and
is null behind them, every word is a string now, and only separators have been overwritten. -/
theorem cmdParse_splits (nonzero : token ≠ 0#8) (str : StringAt mem cmdStr s) (few : (words token s).length ≤ maxArgNr)
    (turns : s.length < n) :
    ∃ p, cmdParse n mem cmdStr token = .ok ((words token s).length, p) ∧
      (∀ i w, (words token s)[i]? = some w → ∃ pre, WordBegins token s i w pre ∧
        p.argv i = some (cmdStr + pre.length) ∧ StringAt p.mem (cmdStr + pre.length) w) ∧
      (∀ i, (words token s).length ≤ i → i < maxArgNr → p.argv i = none) ∧
      ∀ x, p.mem x ≠ mem x → cmdStr ≤ x ∧ x < cmdStr + s.length ∧ mem x = token ∧ p.mem x = 0#8 := by
  obtain ⟨p, ran, splits⟩ := (parseTurns_spec (p := ⟨mem, fun _ => none, 0, cmdStr⟩) nonzero n str turns turns
    (Nat.zero_le _)).1 (by rw [Nat.zero_add]; exact few)
  rw [Nat.zero_add] at ran
  refine ⟨p, ran, fun i w at_ => ?_, fun i low _ => ?_, splits.mem⟩
  · obtain ⟨pre, begins, pointer, word⟩ := splits.words i w at_
    rw [Nat.zero_add] at pointer
    exact ⟨pre, begins, pointer, word⟩
  · exact splits.others i (.inr (by rw [Nat.zero_add]; exact low))

/-- The store into `argv` comes before the test, so a line with too many words does not get to it. -/
theorem cmdParse_overrun (nonzero : token ≠ 0#8) (str : StringAt mem cmdStr s) (many : maxArgNr < (words token s).length)
    (turns : s.length < n) : cmdParse n mem cmdStr token = .error .undefined :=
  (parseTurns_spec (p := ⟨mem, fun _ => none, 0, cmdStr⟩) nonzero n str turns turns (Nat.zero_le _)).2
    (by rw [Nat.zero_add]; exact many)

end Call

section Examples

/-- ` ls  a ` in memory. -/
def lsA : Image := fun i => ([0x20#8, 0x6c#8, 0x73#8, 0x20#8, 0x20#8, 0x61#8, 0x20#8] : List Byte).getD i 0#8

theorem lsA_string : StringAt lsA 0 [0x20#8, 0x6c#8, 0x73#8, 0x20#8, 0x20#8, 0x61#8, 0x20#8] := by
  refine ⟨fun i b at_ => ?_, rfl, by decide⟩
  rw [lsA, Nat.zero_add, List.getD_eq_getElem?_getD, at_]
  rfl

/-- It has two words. -/
theorem cmdParse_splits_lsA : ∃ p pre, cmdParse cmdLen lsA 0 0x20#8 = .ok (2, p) ∧ p.argv 1 = some pre ∧
    StringAt p.mem pre [0x61#8] ∧ p.argv 2 = none := by
  have space : (0x20#8 : Byte) ≠ 0#8 := by decide
  obtain ⟨p, ran, words, null, -⟩ := cmdParse_splits space lsA_string (by decide) (show 7 < cmdLen by decide)
  obtain ⟨pre, -, pointer, word⟩ := words 1 [0x61#8] (by decide)
  exact ⟨p, _, ran, pointer, word, null 2 (by decide) (by decide)⟩

end Examples

end Sparrow.Shell
