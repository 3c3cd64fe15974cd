import Sparrow.Lib.Exec

/-!
# Computations that leave a trace

A `Traced` computation gives the list of events it went through beside its result. What it
did before a fault is still in the trace.
-/

namespace Sparrow
set_option autoImplicit false

structure Traced (ε α : Type) where
  trace : List ε
  result : Exec α

namespace Traced

variable {ε α β : Type}

instance : Monad (Traced ε) where
  pure a := ⟨[], .ok a⟩
  bind x f := match x.result with
    | .ok a => ⟨x.trace ++ (f a).trace, (f a).result⟩
    | .error e => ⟨x.trace, .error e⟩

/-- One event. -/
def emit (e : ε) : Traced ε Unit := ⟨[e], .ok ()⟩

/-- A computation whose steps are no events. -/
def lift (x : Exec α) : Traced ε α := ⟨[], x⟩

/-- The events all have the property. -/
def Only (P : ε → Prop) (x : Traced ε α) : Prop := ∀ e ∈ x.trace, P e

@[simp] theorem trace_pure (a : α) : (pure a : Traced ε α).trace = [] := rfl

@[simp] theorem result_pure (a : α) : (pure a : Traced ε α).result = .ok a := rfl

@[simp] theorem trace_emit (e : ε) : (emit e).trace = [e] := rfl

@[simp] theorem result_emit (e : ε) : (emit e).result = .ok () := rfl

@[simp] theorem trace_lift (x : Exec α) : (lift x : Traced ε α).trace = [] := rfl

@[simp] theorem result_lift (x : Exec α) : (lift x : Traced ε α).result = x := rfl

theorem bind_ok {x : Traced ε α} {f : α → Traced ε β} {a : α} (ran : x.result = .ok a) :
    (x >>= f).trace = x.trace ++ (f a).trace ∧ (x >>= f).result = (f a).result := by
  obtain ⟨t, r⟩ := x
  dsimp only at ran
  subst ran
  exact ⟨rfl, rfl⟩

theorem bind_error {x : Traced ε α} {f : α → Traced ε β} {e : Fault} (failed : x.result = .error e) :
    (x >>= f).trace = x.trace ∧ (x >>= f).result = .error e := by
  obtain ⟨t, r⟩ := x
  dsimp only at failed
  subst failed
  exact ⟨rfl, rfl⟩

theorem map_id (x : Traced ε α) : id <$> x = x := by
  obtain ⟨t, r⟩ := x
  cases r with
  | error e => rfl
  | ok a => exact congrArg (Traced.mk · _) (List.append_nil t)

theorem assoc {γ : Type} (x : Traced ε α) (f : α → Traced ε β) (g : β → Traced ε γ) :
    x >>= f >>= g = x >>= fun a => f a >>= g := by
  obtain ⟨t, r⟩ := x
  cases r with
  | error e => rfl
  | ok a =>
    cases ran : (f a).result with
    | error e => simp [bind, ran]
    | ok b => simp [bind, ran]

instance : LawfulMonad (Traced ε) := LawfulMonad.mk' (Traced ε) map_id (fun _ _ => rfl) assoc

/-- The computation returns `a`, and its events all have the property. -/
def Runs (P : ε → Prop) (x : Traced ε α) (a : α) : Prop := x.result = .ok a ∧ x.Only P

theorem runs_pure {P : ε → Prop} (a : α) : Runs P (pure a : Traced ε α) a :=
  ⟨rfl, fun _ mem => absurd mem List.not_mem_nil⟩

theorem runs_emit {P : ε → Prop} {e : ε} (h : P e) : Runs P (emit e) () :=
  ⟨rfl, fun e' mem => by rwa [List.mem_singleton.1 mem]⟩

theorem runs_lift {P : ε → Prop} {x : Exec α} {a : α} (is : x = .ok a) : Runs P (lift x) a :=
  ⟨is, fun _ mem => absurd mem List.not_mem_nil⟩

theorem Runs.bind {P : ε → Prop} {x : Traced ε α} {f : α → Traced ε β} {a : α} {b : β} (first : Runs P x a)
    (next : Runs P (f a) b) : Runs P (x >>= f) b := by
  obtain ⟨trace, result⟩ := bind_ok (f := f) first.1
  refine ⟨result.trans next.1, fun e mem => ?_⟩
  rw [trace, List.mem_append] at mem
  exact mem.elim (first.2 e) (next.2 e)

theorem Runs.mono {P Q : ε → Prop} {x : Traced ε α} {a : α} (h : Runs P x a) (weaker : ∀ e, P e → Q e) : Runs Q x a :=
  ⟨h.1, fun e mem => weaker e (h.2 e mem)⟩

@[simp] theorem lift_ok_bind (a : α) (f : α → Traced ε β) : (lift (.ok a) >>= f) = f a := pure_bind a f

@[simp] theorem emit_bind_trace (e : ε) (f : Unit → Traced ε β) : (emit e >>= f).trace = e :: (f ()).trace := rfl

@[simp] theorem emit_bind_result (e : ε) (f : Unit → Traced ε β) : (emit e >>= f).result = (f ()).result := rfl

/-- The computation has been broken off before the other one was finished, or is the same. -/
def Below (x y : Traced ε α) : Prop := x = y ∨ x.result = .error .diverge ∧ x.trace <+: y.trace

theorem Below.refl (x : Traced ε α) : Below x x := .inl rfl

theorem below_diverge (y : Traced ε α) : Below (lift (.error .diverge)) y := .inr ⟨rfl, List.nil_prefix⟩

theorem Below.bind {x y : Traced ε α} {f g : α → Traced ε β} (first : Below x y) (next : ∀ a, Below (f a) (g a)) :
    Below (x >>= f) (y >>= g) := by
  obtain rfl | ⟨stopped, pre⟩ := first
  · obtain ⟨trace, result⟩ := x
    cases result with
    | error e => exact .inl rfl
    | ok a =>
      obtain same | ⟨stopped, pre⟩ := next a
      · exact .inl (by simp [Bind.bind, same])
      · exact .inr ⟨stopped, (List.prefix_append_right_inj trace).2 pre⟩
  · refine .inr ⟨(bind_error stopped).2, ?_⟩
    rw [(bind_error stopped).1]
    cases ran : y.result with
    | error e => rwa [(bind_error ran).1]
    | ok a =>
      rw [(bind_ok ran).1]
      exact pre.trans (List.prefix_append _ _)

theorem Below.only {P : ε → Prop} {x y : Traced ε α} (below : Below x y) (only : y.Only P) : x.Only P := by
  obtain rfl | ⟨_, pre⟩ := below
  · exact only
  · exact fun e mem => only e (pre.subset mem)

end Traced

end Sparrow
