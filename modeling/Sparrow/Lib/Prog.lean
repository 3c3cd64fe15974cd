import Mathlib.Logic.Relation
import Sparrow.Lib.Exec

/-!
# Programs that sleep

A `Prog σ α` works on a shared state `σ` and returns an `α`. It may go to sleep, for any
time at a `pause` and until a condition holds at a `wait`, and then other programs change
the state before it goes on; between two sleeps it runs alone. `resume` runs a program up
to its next sleep. `Interleaved` relates two programs started together to what is left of
them and the state after any number of turns.
-/

namespace Sparrow
set_option autoImplicit false

/-- A program over a shared state. -/
inductive Prog (σ α : Type) where
  | ret (a : α)
  | fail (e : Fault)
  | get (k : σ → Prog σ α)
  | set (s : σ) (k : Prog σ α)
  | pause (k : Prog σ α)
  | wait (c : σ → Bool) (k : Prog σ α)

namespace Prog

variable {σ α β : Type}

/-- One program after another. -/
def andThen : Prog σ α → (α → Prog σ β) → Prog σ β
  | ret a, f => f a
  | fail e, _ => fail e
  | get k, f => get fun s => (k s).andThen f
  | set s k, f => set s (k.andThen f)
  | pause k, f => pause (k.andThen f)
  | wait c k, f => wait c (k.andThen f)

instance : Monad (Prog σ) where
  pure := ret
  bind := andThen

theorem andThen_ret : ∀ p : Prog σ α, p.andThen ret = p := by
  intro p
  induction p with
  | ret a => rfl
  | fail e => rfl
  | get k ih => exact congrArg get (funext ih)
  | set s k ih => exact congrArg (set s) ih
  | pause k ih => exact congrArg pause ih
  | wait c k ih => exact congrArg (wait c) ih

theorem andThen_assoc {γ : Type} {f : α → Prog σ β} {g : β → Prog σ γ} :
    ∀ p : Prog σ α, (p.andThen f).andThen g = p.andThen fun a => (f a).andThen g := by
  intro p
  induction p with
  | ret a => rfl
  | fail e => rfl
  | get k ih => exact congrArg get (funext ih)
  | set s k ih => exact congrArg (set s) ih
  | pause k ih => exact congrArg pause ih
  | wait c k ih => exact congrArg (wait c) ih

instance : LawfulMonad (Prog σ) :=
  LawfulMonad.mk' (Prog σ) andThen_ret (fun _ _ => rfl) fun p _ _ => andThen_assoc p

/-- A computation that does not touch the state. -/
def lift : Exec α → Prog σ α
  | .ok a => ret a
  | .error e => fail e

/-- Run up to the next sleep, or to the end. A program that waits for a condition and is
woken without it goes back to sleep. -/
def resume : Prog σ α → σ → Exec (Prog σ α × σ)
  | ret a, s => .ok (ret a, s)
  | fail e, _ => .error e
  | get k, s => (k s).resume s
  | set s k, _ => k.resume s
  | pause k, s => .ok (k, s)
  | wait c k, s => if c s then k.resume s else .ok (wait c k, s)

/-- Run to the end without interruption. -/
def run : Prog σ α → σ → Exec (α × σ)
  | ret a, s => .ok (a, s)
  | fail e, _ => .error e
  | get k, s => (k s).run s
  | set s k, _ => k.run s
  | pause k, s => k.run s
  | wait c k, s => if c s then k.run s else .error .blocked

theorem run_bind {f : α → Prog σ β} : ∀ (p : Prog σ α) (s : σ),
    (p >>= f).run s = p.run s >>= fun x => (f x.1).run x.2 := by
  intro p
  induction p with
  | ret a => exact fun _ => rfl
  | fail e => exact fun _ => rfl
  | get k ih => exact fun s => ih s s
  | set s' k ih => exact fun _ => ih s'
  | pause k ih => exact fun s => ih s
  | wait c k ih =>
    intro s
    show (if c s then (k >>= f).run s else _) = (if c s then k.run s else _) >>= _
    by_cases h : c s = true
    · rw [if_pos h, if_pos h]
      exact ih s
    · rw [if_neg h, if_neg h]
      rfl

@[simp] theorem ret_bind {a : α} {f : α → Prog σ β} : ((ret a : Prog σ α) >>= f) = f a := rfl

@[simp] theorem lift_ok_bind {a : α} {f : α → Prog σ β} : ((lift (.ok a) : Prog σ α) >>= f) = f a := rfl

theorem resume_lift_bind {x : Exec α} {f : α → Prog σ β} {s : σ} {r : Prog σ β × σ} :
    ((lift x : Prog σ α) >>= f).resume s = .ok r ↔ ∃ a, x = .ok a ∧ (f a).resume s = .ok r := by
  cases x with
  | error e => simp [lift, bind, andThen, resume]
  | ok a => simp

theorem run_lift {x : Exec α} {s : σ} : (lift x : Prog σ α).run s = x >>= fun a => .ok (a, s) := by
  cases x <;> rfl

end Prog

/-- Two programs and the state they share. -/
structure Both (σ α β : Type) where
  left : Prog σ α
  right : Prog σ β
  state : σ

section Interleaving

variable {σ α β : Type}

/-- One of the two programs, which has not returned yet, runs up to its next pause. -/
inductive Turn : Both σ α β → Both σ α β → Prop where
  | left {p p' : Prog σ α} {q : Prog σ β} {s s' : σ} (going : ∀ a, p ≠ .ret a) (step : p.resume s = .ok (p', s')) :
    Turn ⟨p, q, s⟩ ⟨p', q, s'⟩
  | right {p : Prog σ α} {q q' : Prog σ β} {s s' : σ} (going : ∀ b, q ≠ .ret b) (step : q.resume s = .ok (q', s')) :
    Turn ⟨p, q, s⟩ ⟨p, q', s'⟩

/-- Any number of turns, in any order. -/
abbrev Interleaved : Both σ α β → Both σ α β → Prop := Relation.ReflTransGen Turn

/-- What every turn preserves holds along every interleaving. -/
theorem Interleaved.invariant {I : Both σ α β → Prop} {c c' : Both σ α β} (run : Interleaved c c')
    (turn : ∀ c c', Turn c c' → I c → I c') (init : I c) : I c' := by
  induction run with
  | refl => exact init
  | tail _ step ih => exact turn _ _ step ih

/-- The two sides exchanged. -/
def Both.swap (c : Both σ α β) : Both σ β α := ⟨c.right, c.left, c.state⟩

theorem Interleaved.swap {c c' : Both σ α β} (run : Interleaved c c') : Interleaved c.swap c'.swap := by
  induction run with
  | refl => exact .refl
  | tail _ step ih =>
    refine ih.tail ?_
    cases step with
    | left going step => exact .right going step
    | right going step => exact .left going step

end Interleaving

end Sparrow
