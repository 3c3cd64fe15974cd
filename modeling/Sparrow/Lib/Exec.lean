import Mathlib.Algebra.Group.Nat.Defs
import Mathlib.Logic.Basic
import Mathlib.Tactic.ByContra

/-!
# Computations that may fail to return

A C function either returns, or it stops in a failed assertion, or its behaviour is
undefined (an access out of bounds, a null dereference, a read of storage never
written), or one of its loops never ends, or it sleeps until another task wakes it.
`Exec` keeps these apart; every proof about a call that returned peels it with
`bind_ok`.
-/

namespace Sparrow
set_option autoImplicit false

/-- Why a call does not return. -/
inductive Fault where
  | assert
  | undefined
  | diverge
  | blocked
  deriving DecidableEq, Repr

/-- The result of running a function: a value, or the fault it ends in. -/
abbrev Exec (α : Type) := Except Fault α

/-- A failed `assertThat` is a panic of the kernel. -/
def assertThat (c : Prop) [Decidable c] : Exec Unit :=
  if c then .ok () else .error .assert

/-- The language defines the behaviour only when `c` holds. -/
def defined (c : Prop) [Decidable c] : Exec Unit :=
  if c then .ok () else .error .undefined

theorem bind_ok {α β : Type} {x : Exec α} {f : α → Exec β} {b : β} :
    (x >>= f) = .ok b ↔ ∃ a, x = .ok a ∧ f a = .ok b := by
  cases x with
  | error e => simp [bind, Except.bind]
  | ok a => simp [bind, Except.bind]

theorem ite_bind_ok {α β : Type} {c : Prop} [Decidable c] {x y : Exec α} {f : α → Exec β} {b : β} :
    (if c then x >>= f else y >>= f) = .ok b ↔ ∃ a, (if c then x else y) = .ok a ∧ f a = .ok b := by
  split <;> exact bind_ok

/-- A computation returns when its first part does, and the rest on every value of that part. -/
theorem bind_returns {α β : Type} {x : Exec α} {f : α → Exec β} (first : ∃ a, x = .ok a)
    (next : ∀ a, x = .ok a → ∃ b, f a = .ok b) : ∃ b, (x >>= f) = .ok b := by
  obtain ⟨a, ran⟩ := first
  obtain ⟨b, rest⟩ := next a ran
  exact ⟨b, bind_ok.2 ⟨a, ran, rest⟩⟩

theorem pure_ok {α : Type} {a b : α} : (pure a : Exec α) = .ok b ↔ a = b := by
  simp [pure, Except.pure]

theorem throw_ok {α : Type} {e : Fault} {b : α} : (throw e : Exec α) = .ok b ↔ False := by
  simp [throw, throwThe, MonadExceptOf.throw]

theorem assertThat_ok {c : Prop} [Decidable c] {u : Unit} : assertThat c = .ok u ↔ c := by
  by_cases h : c <;> simp [assertThat, h]

/-- An assertion on one branch only, before what both branches do. -/
theorem ite_assertThat_ok {α : Type} {c p : Prop} [Decidable c] [Decidable p] {x : Exec α} {a : α} :
    (if c then assertThat p >>= fun _ => x else x) = .ok a ↔ (c → p) ∧ x = .ok a := by
  split
  · rename_i h
    simp [bind_ok, assertThat_ok, h]
  · rename_i h
    simp [h]

theorem defined_ok {c : Prop} [Decidable c] {u : Unit} : defined c = .ok u ↔ c := by
  by_cases h : c <;> simp [defined, h]

theorem assertThat_of {c : Prop} [Decidable c] (h : c) : assertThat c = .ok () := by
  simp [assertThat, h]

theorem defined_of {c : Prop} [Decidable c] (h : c) : defined c = .ok () := by
  simp [defined, h]

theorem assertThat_not {c : Prop} [Decidable c] (h : ¬ c) : assertThat c = .error .assert := by
  simp [assertThat, h]

theorem defined_not {c : Prop} [Decidable c] (h : ¬ c) : defined c = .error .undefined := by
  simp [defined, h]

/-- The computation returns a value with the property. -/
def returns {α : Type} (x : Exec α) (test : α → Bool) : Bool :=
  match x with
  | .ok a => test a
  | .error _ => false

theorem returns_true {α : Type} {x : Exec α} {test : α → Bool} :
    returns x test = true ↔ ∃ a, x = .ok a ∧ test a = true := by
  cases x with
  | error e => simp [returns]
  | ok a => simp [returns]

/-- The computation ends in the fault. -/
def stops {α : Type} (x : Exec α) (fault : Fault) : Bool :=
  match x with
  | .ok _ => false
  | .error e => e == fault

theorem stops_true {α : Type} {x : Exec α} {fault : Fault} : stops x fault = true ↔ x = .error fault := by
  cases x with
  | error e => simp [stops]
  | ok a => simp [stops]

/-- The computation does not end in a failed assertion, and what it returns has the property. -/
def Ensures {α : Type} (x : Exec α) (Q : α → Prop) : Prop := x ≠ .error .assert ∧ ∀ a, x = .ok a → Q a

theorem Ensures.bind {α β : Type} {x : Exec α} {f : α → Exec β} {P : α → Prop} {Q : β → Prop} (first : Ensures x P)
    (next : ∀ a, P a → Ensures (f a) Q) : Ensures (x >>= f) Q := by
  cases x with
  | error e => exact ⟨fun h => first.1 (by cases h; rfl), nofun⟩
  | ok a => exact next a (first.2 a rfl)

theorem ensures_pure {α : Type} {a : α} {Q : α → Prop} (h : Q a) : Ensures (pure a) Q :=
  ⟨nofun, fun b e => by cases e; exact h⟩

theorem ensures_ok {α : Type} {x : Exec α} {a : α} {Q : α → Prop} (is : x = .ok a) (h : Q a) : Ensures x Q := by
  rw [is]
  exact ensures_pure h

theorem ensures_defined {c : Prop} [Decidable c] : Ensures (defined c) fun _ => c := by
  by_cases h : c
  · exact ensures_ok (defined_of h) h
  · simp [Ensures, defined, h]

theorem ensures_assertThat {c : Prop} [Decidable c] (h : c) : Ensures (assertThat c) fun _ => c :=
  ensures_ok (assertThat_of h) h

/-- What every turn of a loop preserves holds after the loop. -/
theorem foldlM_invariant {α β : Type} {f : β → α → Exec β} {I : β → Prop}
    (turn : ∀ b a b', f b a = .ok b' → I b → I b') :
    ∀ (l : List α) {b b' : β}, l.foldlM f b = .ok b' → I b → I b' := by
  intro l
  induction l with
  | nil =>
    intro b b' h init
    rw [List.foldlM_nil, pure_ok] at h
    rw [← h]
    exact init
  | cons a rest ih =>
    intro b b' h init
    rw [List.foldlM_cons, bind_ok] at h
    obtain ⟨b1, first, h⟩ := h
    exact ih h (turn _ _ _ first init)

@[simp] theorem ok_bind {α β : Type} (a : α) (f : α → Exec β) : (Except.ok a >>= f) = f a := rfl

end Sparrow
