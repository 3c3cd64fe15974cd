import Mathlib.Data.List.TakeWhile

/-!
# The words of a list

Between the separators of a list stand its pieces, and the pieces that are not empty are its words.
A program that goes over a list from left to right, skipping separators and then a word, finds
the words in order (`cut_word`).
-/

namespace Sparrow
set_option autoImplicit false

variable {α : Type} [DecidableEq α] {sep : α} {l w : List α}

/-- The pieces between the separators that are not empty. -/
def words (sep : α) (l : List α) : List (List α) := (l.splitOn sep).filter (· ≠ [])

theorem mem_words_iff : w ∈ words sep l ↔ w ∈ l.splitOn sep ∧ w ≠ [] := by
  unfold words
  rw [List.mem_filter, decide_eq_true_eq]

@[simp] theorem words_nil : words sep [] = [] := by
  unfold words
  rw [List.splitOn_nil]
  rfl

theorem words_append_sep (a b : List α) : words sep (a ++ sep :: b) = words sep a ++ words sep b := by
  unfold words
  rw [List.splitOn_append_cons_self, List.filter_append]

theorem words_cons_sep (l : List α) : words sep (sep :: l) = words sep l := words_append_sep [] l

/-- Separators in front do not matter. -/
theorem words_seps_append {seps : List α} (all : ∀ x ∈ seps, x = sep) (l : List α) : words sep (seps ++ l) = words sep l := by
  induction seps with
  | nil => rfl
  | cons x seps ih =>
    rw [all x List.mem_cons_self, List.cons_append, words_cons_sep]
    exact ih fun x mem => all x (List.mem_cons_of_mem _ mem)

theorem words_of_seps {seps : List α} (all : ∀ x ∈ seps, x = sep) : words sep seps = [] := by
  have front := words_seps_append all []
  rwa [List.append_nil, words_nil] at front

theorem words_word (nonempty : w ≠ []) (noSep : sep ∉ w) : words sep w = [w] := by
  unfold words
  rw [List.splitOn_eq_singleton noSep]
  simp [nonempty]

theorem words_word_append (nonempty : w ≠ []) (noSep : sep ∉ w) (l : List α) : words sep (w ++ sep :: l) = w :: words sep l := by
  rw [words_append_sep, words_word nonempty noSep]
  rfl

/-- Behind separators and a word the list ends, or the next separator follows. -/
theorem word_ends (sep : α) (l : List α) : (l.dropWhile (· == sep)).dropWhile (· != sep) = [] ∨
    (l.dropWhile (· == sep)).takeWhile (· != sep) ≠ [] ∧ ∃ r, (l.dropWhile (· == sep)).dropWhile (· != sep) = sep :: r := by
  have head := List.head?_dropWhile_not (· == sep) l
  generalize l.dropWhile (· == sep) = m at head ⊢
  cases e : m.dropWhile (· != sep) with
  | nil => exact .inl rfl
  | cons x r =>
    have stop := List.head?_dropWhile_not (· != sep) m
    rw [e] at stop
    simp at stop
    refine .inr ⟨fun none => ?_, r, by rw [stop]⟩
    cases m with
    | nil => simp at e
    | cons y m =>
      simp at head
      simp [head] at none

/-- A list begins with separators and then a word, which ends at a separator or with the list. -/
theorem cut_word (sep : α) (l : List α) :
    ∃ seps w rest, l = seps ++ (w ++ rest) ∧ (∀ x ∈ seps, x = sep) ∧ sep ∉ w ∧ (rest = [] ∨ w ≠ [] ∧ ∃ r, rest = sep :: r) := by
  refine ⟨l.takeWhile (· == sep), (l.dropWhile (· == sep)).takeWhile (· != sep), (l.dropWhile (· == sep)).dropWhile (· != sep),
    ?_, fun x mem => ?_, fun mem => ?_, word_ends sep l⟩
  · rw [List.takeWhile_append_dropWhile, List.takeWhile_append_dropWhile]
  · simpa using List.mem_takeWhile_imp mem
  · simpa using List.mem_takeWhile_imp mem

/-- The words of a list that is cut so. -/
theorem words_cut {seps rest : List α} (all : ∀ x ∈ seps, x = sep) (noSep : sep ∉ w) (nonempty : w ≠ [])
    (ends : rest = [] ∨ ∃ r, rest = sep :: r) : words sep (seps ++ (w ++ rest)) = w :: words sep rest := by
  rw [words_seps_append all]
  obtain rfl | ⟨r, rfl⟩ := ends
  · rw [List.append_nil, words_word nonempty noSep, words_nil]
  · rw [words_word_append nonempty noSep, words_cons_sep]

end Sparrow
