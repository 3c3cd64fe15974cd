import Sparrow.Lib.Words
import Sparrow.Shell.WashPath

/-!
# `wash_path` computes the lexical normal form

What `wash_path` is for, said without its cursor and its buffer: cut the path at its slashes, go
through the components with a stack, and join what is left. The output string of `wash_path` is that
stack all the time.
-/

namespace Sparrow
set_option autoImplicit false

/-- What a component does to the stack. -/
def lexicalStep (stack : List (List Byte)) (component : List Byte) : List (List Byte) :=
  if component = [] ∨ component = dot then stack
  else if component = dotDot then stack.dropLast
  else stack ++ [component]

/-- The stack after the components of the path. -/
def lexicalStack (path : List Byte) : List (List Byte) := (path.splitOn slash).foldl lexicalStep []

/-- The components that are left, with a slash between any two and one in front. -/
def lexicalForm (path : List Byte) : List Byte := slash :: [slash].intercalate (lexicalStack path)

section Components

variable {path name : List Byte} {names : List (List Byte)}

/-- The names `path_parse` finds are the words between the slashes. -/
theorem pathNamesFuel_eq_words : ∀ (fuel : Nat) {path : List Byte}, path.length < fuel → pathNamesFuel fuel path = words slash path := by
  intro fuel
  induction fuel with
  | zero => intro path lt; omega
  | succ fuel ih =>
    intro path lt
    obtain ⟨slashes, name, rest, is, allSlash, noSlash, shape, parsed⟩ := pathParse_cases path
    rw [pathNamesFuel, parsed, is, List.append_assoc]
    obtain rfl | ⟨nonempty, rest, rfl⟩ := shape
    · rw [List.append_nil, words_seps_append allSlash]
      cases name with
      | nil => rfl
      | cons b name => exact (words_word (List.cons_ne_nil b name) noSlash).symm
    · have shorter : (slash :: rest).length < fuel := by
        rw [is] at lt
        have := List.length_pos_of_ne_nil nonempty
        simp only [List.length_append] at lt
        omega
      rw [words_cut allSlash noSlash nonempty (.inr ⟨rest, rfl⟩), ← ih shorter]
      obtain ⟨b, name, rfl⟩ := List.exists_cons_of_ne_nil nonempty
      rfl

theorem pathNames_eq_words (path : List Byte) : pathNames path = words slash path := pathNamesFuel_eq_words _ (Nat.lt_succ_self _)

/-- A component acts on the stack as a label on a walk, unless it is empty. -/
theorem lexicalStep_eq (stack : List (List Byte)) (component : List Byte) :
    lexicalStep stack component = if component = [] then stack else Naming.washStep pathLabels stack component := by
  unfold lexicalStep Naming.washStep
  by_cases empty : component = []
  · rw [if_pos (.inl empty), if_pos empty]
  · rw [if_neg empty]
    by_cases isDot : component = dot
    · subst isDot
      rfl
    · rw [if_neg (by simp [empty, isDot])]
      have notHere : component ≠ pathLabels.here := isDot
      rw [if_neg notHere]
      rfl

theorem lexicalStack_eq (path : List Byte) : lexicalStack path = Naming.wash pathLabels (pathNames path) := by
  -- the empty components change nothing
  have fold : ∀ (components stack : List (List Byte)), components.foldl lexicalStep stack =
      (components.filter (· ≠ [])).foldl (Naming.washStep pathLabels) stack := by
    intro components
    induction components with
    | nil => exact fun _ => rfl
    | cons component components ih =>
      intro stack
      rw [List.foldl_cons, lexicalStep_eq]
      by_cases empty : component = []
      · rw [if_pos empty, List.filter_cons_of_neg (by simpa using empty)]
        exact ih stack
      · rw [if_neg empty, List.filter_cons_of_pos (by simpa using empty), List.foldl_cons]
        exact ih _
  rw [pathNames_eq_words]
  exact fold _ []

theorem joinPath_eq_intercalate (named : names ≠ []) : joinPath names = slash :: [slash].intercalate names := by
  induction names with
  | nil => exact absurd rfl named
  | cons name names ih =>
    cases names with
    | nil => simp [joinPath]
    | cons next names =>
      have rest := ih (by simp)
      rw [List.intercalate_cons_cons]
      have split : joinPath (name :: next :: names) = slash :: name ++ joinPath (next :: names) := rfl
      rw [split, rest]
      simp

theorem absPath_eq_lexicalForm (path : List Byte) : absPath (lexicalStack path) = lexicalForm path := by
  unfold absPath lexicalForm
  split
  · rename_i none
    rw [none]
    rfl
  · rename_i named
    exact joinPath_eq_intercalate named

end Components

section Normal

variable {path : List Byte}

/-- What is on the stack at the end: components that stand for themselves. -/
theorem lexicalStack_normal {k : List Byte} (mem : k ∈ lexicalStack path) :
    IsComponent k ∧ k ≠ dot ∧ k ≠ dotDot ∧ k ∈ path.splitOn slash := by
  rw [lexicalStack_eq] at mem
  have named := Naming.wash_sub _ _ mem
  have plain := Naming.wash_plain (L := pathLabels) (pathNames path) k mem
  exact ⟨(mem_pathNamesFuel _ named).1, plain.1, plain.2, (mem_words_iff.1 (pathNames_eq_words path ▸ named)).1⟩

/-- The components of a form that is not `/` are those on the stack. -/
theorem lexicalForm_components (below : lexicalForm path ≠ [slash]) : (lexicalForm path).tail.splitOn slash = lexicalStack path := by
  have named : lexicalStack path ≠ [] := by
    intro none
    apply below
    unfold lexicalForm
    rw [none]
    rfl
  exact List.splitOn_intercalate slash (fun k mem => (lexicalStack_normal mem).1.noSlash) named

theorem lexicalForm_names (path : List Byte) : pathNames (lexicalForm path) = lexicalStack path := by
  rw [← absPath_eq_lexicalForm]
  unfold absPath
  split
  · rename_i none
    rw [none]
    rfl
  · exact pathNames_join fun k mem => (lexicalStack_normal mem).1

/-- Washing leaves labels alone that stand for themselves. -/
theorem foldl_washStep_plain : ∀ (names done : List (List Byte)), pathLabels.Plain names →
    names.foldl (Naming.washStep pathLabels) done = done ++ names := by
  intro names
  induction names with
  | nil => intro done _; rw [List.foldl_nil, List.append_nil]
  | cons name names ih =>
    intro done plain
    obtain ⟨notHere, notAbove⟩ := plain name List.mem_cons_self
    rw [List.foldl_cons, Naming.washStep, if_neg notAbove, if_neg notHere,
      ih _ fun k mem => plain k (List.mem_cons_of_mem _ mem), List.append_assoc]
    rfl

/-- The form of a form is the form. -/
theorem lexicalForm_idem (path : List Byte) : lexicalForm (lexicalForm path) = lexicalForm path := by
  have plain : pathLabels.Plain (lexicalStack path) := fun k mem => ⟨(lexicalStack_normal mem).2.1, (lexicalStack_normal mem).2.2.1⟩
  have same : lexicalStack (lexicalForm path) = lexicalStack path := by
    rw [lexicalStack_eq (lexicalForm path), lexicalForm_names, Naming.wash, foldl_washStep_plain _ _ plain, List.nil_append]
  unfold lexicalForm at same ⊢
  rw [same]

/-- A form ends with the last byte of its last component. -/
theorem lexicalForm_getLast (below : lexicalForm path ≠ [slash]) : (lexicalForm path).getLast? ≠ some slash := by
  rw [← absPath_eq_lexicalForm] at below ⊢
  unfold absPath at below ⊢
  split at below
  · exact absurd rfl below
  · rename_i named
    rw [if_neg named]
    obtain ⟨front, k, is⟩ := (List.eq_nil_or_concat _).resolve_left named
    have kept : k ∈ lexicalStack path := by simp [is]
    have component := (lexicalStack_normal kept).1
    have last : joinPath (lexicalStack path) = joinPath front ++ slash :: k := by
      rw [is, List.concat_eq_append, joinPath, joinPath, List.flatMap_append]
      simp
    have nonempty := component.nonempty
    rw [last, List.getLast?_append_of_ne_nil _ (by simp), List.getLast?_cons_of_ne_nil nonempty]
    intro isSlash
    exact component.noSlash (List.mem_of_getLast? isSlash)

end Normal

/-- **`wash_path` computes the lexical normal form**: of every absolute path whose components leave
room for their end in the name buffer, into every buffer the path itself would fit. -/
theorem washPath_lexical {path : List Byte} (abs : path.head? = some slash) (short : ∀ k ∈ path.splitOn slash, k.length ≤ 15) :
    (∀ size, path.length < size → washPathIn size path = .ok (lexicalForm path)) ∧
    (∀ k ∈ lexicalStack path, k ≠ [] ∧ k ≠ dot ∧ k ≠ dotDot ∧ k ∈ path.splitOn slash) ∧
    (lexicalForm path = [slash] ∨ (lexicalForm path).tail.splitOn slash = lexicalStack path) ∧
    (lexicalForm path = [slash] ∨ (lexicalForm path).getLast? ≠ some slash) ∧
    (lexicalForm path).length ≤ path.length ∧
    ∀ size, path.length < size → washPathIn size (lexicalForm path) = .ok (lexicalForm path) := by
  have names : ∀ k ∈ pathNames path, k.length < maxFileNameLen := by
    intro k mem
    rw [pathNames_eq_words] at mem
    exact Nat.lt_succ_of_le (short k (mem_words_iff.1 mem).1)
  have bound : (lexicalForm path).length ≤ path.length := by
    have length := (washPathIn_eq abs names (Nat.lt_succ_self _)).2
    rw [← lexicalStack_eq] at length
    rw [← absPath_eq_lexicalForm]
    unfold absPath
    split
    · exact List.length_pos_of_ne_nil fun none => by rw [none] at abs; cases abs
    · exact length
  refine ⟨fun size fits => ?_, fun k mem => ?_, ?_, ?_, bound, fun size fits => ?_⟩
  · rw [(washPathIn_eq abs names fits).1, ← lexicalStack_eq, absPath_eq_lexicalForm]
  · obtain ⟨component, notDot, notDotDot, from_⟩ := lexicalStack_normal mem
    exact ⟨component.nonempty, notDot, notDotDot, from_⟩
  · exact or_iff_not_imp_left.2 lexicalForm_components
  · exact or_iff_not_imp_left.2 lexicalForm_getLast
  · have again : ∀ k ∈ pathNames (lexicalForm path), k.length < maxFileNameLen := by
      intro k mem
      rw [lexicalForm_names] at mem
      exact Nat.lt_succ_of_le (short k (lexicalStack_normal mem).2.2.2)
    rw [(washPathIn_eq rfl again (Nat.lt_of_le_of_lt bound fits)).1, ← lexicalStack_eq, absPath_eq_lexicalForm, lexicalForm_idem]

/-- `//d/./e/..` comes out as `/d`. -/
theorem washPath_lexical_d : washPathIn 512 [slash, slash, 0x64#8, slash, 0x2e#8, slash, 0x65#8, slash, 0x2e#8, 0x2e#8] =
    .ok [slash, 0x64#8] := by
  have form : lexicalForm [slash, slash, 0x64#8, slash, 0x2e#8, slash, 0x65#8, slash, 0x2e#8, 0x2e#8] = [slash, 0x64#8] := by decide
  rw [← form]
  exact (washPath_lexical rfl (by decide)).1 512 (by decide)

end Sparrow
