import Mathlib.Logic.Function.Basic
import Mathlib.Logic.Relation
import Mathlib.Data.List.Nodup
import Sparrow.Lib.Exec
import Sparrow.Thread.Sched

/-!
# Locks

`lock_acquire` and `lock_release` of `thread/sync.c`, statement by statement. A thread may be
switched away between any two statements, except inside `sema_down` and `sema_up`, which run
with interrupts off; `sema_down` gives up the processor where it goes to sleep, and looks at
the value again when it is back. A thread is asleep as long as it is among the waiters, and
every other thread may take the next step.

The depth of a thread is how often it has returned from `lock_acquire` without a return from
`lock_release` since. `holder_repeat_nr` has 32 bits, so it is the depth only below `2 ^ 32`.
-/

namespace Sparrow.Locks
set_option autoImplicit false

/-- One turn of the loop of `sema_down` by `t`: whether the semaphore was taken. Otherwise
the thread sleeps, and makes another turn when it is woken. -/
def semaDown (t : Nat) (s : Semaphore) : Exec (Bool × Semaphore) :=
  if s.value = 0 then do
    assertThat (t ∉ s.waiters)
    return (false, { s with waiters := s.waiters ++ [t] })
  else do
    assertThat (s.value - 1 = 0)
    return (true, { s with value := s.value - 1 })

/-- `sema_up`: the first waiter is woken. -/
def semaUp (s : Semaphore) : Exec Semaphore := do
  assertThat (s.value = 0)
  let value := (s.value + 1) % 256
  assertThat (value = 1)
  return ⟨value, s.waiters.tail⟩

theorem semaDown_ok {t : Nat} {s s' : Semaphore} {taken : Bool} : semaDown t s = .ok (taken, s') ↔
    (s.value = 0 ∧ t ∉ s.waiters ∧ taken = false ∧ s' = { s with waiters := s.waiters ++ [t] }) ∨
    (s.value = 1 ∧ taken = true ∧ s' = { s with value := 0 }) := by
  unfold semaDown
  by_cases zero : s.value = 0
  · rw [if_pos zero]
    simp only [bind_ok, assertThat_ok, pure_ok, exists_const, Prod.mk.injEq]
    grind
  · rw [if_neg zero]
    simp only [bind_ok, assertThat_ok, pure_ok, exists_const, Prod.mk.injEq]
    grind

theorem semaUp_ok {s s' : Semaphore} : semaUp s = .ok s' ↔ s.value = 0 ∧ s' = ⟨1, s.waiters.tail⟩ := by
  simp only [semaUp, bind_ok, assertThat_ok, pure_ok, exists_const]
  grind

/-- `struct lock`. -/
structure Lock where
  holder : Option Nat
  holderRepeatNr : Nat
  semaphore : Semaphore
  deriving DecidableEq, Repr

/-- `lock_init`. -/
def lockInit : Lock := ⟨none, 0, ⟨1, []⟩⟩

/-- The next statement of a thread. -/
inductive Place where
  /-- Outside both functions. -/
  | out
  /-- `if (plock->holder != running_thread())`. -/
  | acquire
  /-- `sema_down(&plock->semaphore)`. -/
  | down
  /-- `plock->holder = running_thread()`. -/
  | claim
  /-- `ASSERT(plock->holder_repeat_nr == 0)`. -/
  | checkFree
  /-- `plock->holder_repeat_nr = 1`. -/
  | first
  /-- `plock->holder_repeat_nr++`. -/
  | again
  /-- `ASSERT(plock->holder == running_thread())`. -/
  | release
  /-- `if (plock->holder_repeat_nr > 1)`. -/
  | nested
  /-- `plock->holder_repeat_nr--`. -/
  | lessen
  /-- `ASSERT(plock->holder_repeat_nr == 1)`. -/
  | checkLast
  /-- `plock->holder = NULL`. -/
  | disclaim
  /-- `plock->holder_repeat_nr = 0`. -/
  | clear
  /-- `sema_up(&plock->semaphore)`. -/
  | up
  deriving DecidableEq, Repr

/-- The next statement of the thread `t`. -/
def lockStep (t : Nat) (l : Lock) : Place → Exec (Place × Lock)
  | .out => return (.out, l)
  | .acquire => return (if l.holder ≠ some t then .down else .again, l)
  | .down => do
    let (taken, semaphore) ← semaDown t l.semaphore
    return (if taken then .claim else .down, { l with semaphore := semaphore })
  | .claim => return (.checkFree, { l with holder := some t })
  | .checkFree => do
    assertThat (l.holderRepeatNr = 0)
    return (.first, l)
  | .first => return (.out, { l with holderRepeatNr := 1 })
  | .again => return (.out, { l with holderRepeatNr := (l.holderRepeatNr + 1) % 2 ^ 32 })
  | .release => do
    assertThat (l.holder = some t)
    return (.nested, l)
  | .nested => return (if l.holderRepeatNr > 1 then .lessen else .checkLast, l)
  | .lessen => return (.out, { l with holderRepeatNr := l.holderRepeatNr - 1 })
  | .checkLast => do
    assertThat (l.holderRepeatNr = 1)
    return (.disclaim, l)
  | .disclaim => return (.clear, { l with holder := none })
  | .clear => return (.up, { l with holderRepeatNr := 0 })
  | .up => do
    let semaphore ← semaUp l.semaphore
    return (.out, { l with semaphore := semaphore })

/-- The depth after the statement: four of them end a function. -/
def depthAfter (depth : Nat) : Place → Nat
  | .first => depth + 1
  | .again => depth + 1
  | .lessen => depth - 1
  | .up => depth - 1
  | _ => depth

/-- The statements of `lock_acquire`. -/
def Place.Acquires (p : Place) : Prop := p ∈ [acquire, down, claim, checkFree, first, again]

/-- The statements of `lock_release`. -/
def Place.Releases (p : Place) : Prop := p ∈ [release, nested, lessen, checkLast, disclaim, clear, up]

/-- `lock_acquire` goes on or returns, and then the depth has grown. -/
theorem Place.Acquires.next {t : Nat} {l l' : Lock} {p p' : Place} (h : p.Acquires) (depth : Nat)
    (ran : lockStep t l p = .ok (p', l')) :
    (p' = .out ∧ depthAfter depth p = depth + 1) ∨ (p' ≠ .out ∧ p'.Acquires ∧ depthAfter depth p = depth) := by
  simp only [Place.Acquires, List.mem_cons, List.not_mem_nil, or_false] at h ⊢
  rcases h with rfl | rfl | rfl | rfl | rfl | rfl
  all_goals simp only [lockStep, bind_ok, pure_ok, Prod.mk.injEq] at ran
  · obtain ⟨rfl, -⟩ := ran
    split <;> simp [depthAfter]
  · obtain ⟨⟨taken, s⟩, -, rfl, -⟩ := ran
    cases taken <;> simp [depthAfter]
  · obtain ⟨rfl, -⟩ := ran
    simp [depthAfter]
  · obtain ⟨-, -, rfl, -⟩ := ran
    simp [depthAfter]
  · obtain ⟨rfl, -⟩ := ran
    simp [depthAfter]
  · obtain ⟨rfl, -⟩ := ran
    simp [depthAfter]

/-- `lock_release` goes on or returns, and then the depth is one less. -/
theorem Place.Releases.next {t : Nat} {l l' : Lock} {p p' : Place} (h : p.Releases) (depth : Nat)
    (ran : lockStep t l p = .ok (p', l')) :
    (p' = .out ∧ depthAfter depth p = depth - 1) ∨ (p' ≠ .out ∧ p'.Releases ∧ depthAfter depth p = depth) := by
  simp only [Place.Releases, List.mem_cons, List.not_mem_nil, or_false] at h ⊢
  rcases h with rfl | rfl | rfl | rfl | rfl | rfl | rfl
  all_goals simp only [lockStep, bind_ok, pure_ok, Prod.mk.injEq] at ran
  · obtain ⟨-, -, rfl, -⟩ := ran
    simp [depthAfter]
  · obtain ⟨rfl, -⟩ := ran
    split <;> simp [depthAfter]
  · obtain ⟨rfl, -⟩ := ran
    simp [depthAfter]
  · obtain ⟨-, -, rfl, -⟩ := ran
    simp [depthAfter]
  · obtain ⟨rfl, -⟩ := ran
    simp [depthAfter]
  · obtain ⟨rfl, -⟩ := ran
    simp [depthAfter]
  · obtain ⟨-, -, rfl, -⟩ := ran
    simp [depthAfter]

section InterruptsOff

variable {t : Nat} {l l' : Lock}

/-- With interrupts off: `lock_acquire` from `sema_down` on. It has the lock, or the thread
sleeps in `sema_down`. -/
def takeLock (t : Nat) (l : Lock) : Exec (Bool × Lock) := do
  let (taken, semaphore) ← semaDown t l.semaphore
  if taken then
    assertThat (l.holderRepeatNr = 0)
    return (true, ⟨some t, 1, semaphore⟩)
  else return (false, { l with semaphore := semaphore })

/-- `lock_acquire` with interrupts off. -/
def lockAcquire (t : Nat) (l : Lock) : Exec (Bool × Lock) :=
  if l.holder ≠ some t then takeLock t l
  else return (true, { l with holderRepeatNr := (l.holderRepeatNr + 1) % 2 ^ 32 })

/-- `lock_release` with interrupts off. -/
def lockRelease (t : Nat) (l : Lock) : Exec Lock := do
  assertThat (l.holder = some t)
  if l.holderRepeatNr > 1 then return { l with holderRepeatNr := l.holderRepeatNr - 1 }
  else
    assertThat (l.holderRepeatNr = 1)
    let semaphore ← semaUp l.semaphore
    return ⟨none, 0, semaphore⟩

/-- Statements of one thread, one after another. -/
inductive Lines (t : Nat) : Place → Lock → Place → Lock → Prop where
  | done {p : Place} {l : Lock} : Lines t p l p l
  | next {p q r : Place} {l l1 l2 : Lock} (ran : lockStep t l p = .ok (q, l1)) (rest : Lines t q l1 r l2) :
    Lines t p l r l2

/-- `takeLock` runs the statements from `sema_down` on. -/
theorem takeLock_lines {taken : Bool} (ran : takeLock t l = .ok (taken, l')) :
    Lines t .down l (if taken then .out else .down) l' := by
  simp only [takeLock, bind_ok] at ran
  obtain ⟨⟨got, semaphore⟩, down, ran⟩ := ran
  have first : lockStep t l .down = .ok (if got then .claim else .down, { l with semaphore := semaphore }) := by
    rw [lockStep, down]
    rfl
  cases got with
  | false =>
    simp only [Bool.false_eq_true, if_false, pure_ok, Prod.mk.injEq] at ran
    obtain ⟨rfl, rfl⟩ := ran
    exact .next first .done
  | true =>
    simp only [if_true, bind_ok, assertThat_ok, exists_const, pure_ok, Prod.mk.injEq] at ran
    obtain ⟨zero, rfl, rfl⟩ := ran
    refine .next first (.next rfl ?_)
    refine .next (by rw [lockStep, assertThat_of zero]; rfl) ?_
    exact .next rfl .done

/-- `lockAcquire` runs the statements of `lock_acquire`. -/
theorem lockAcquire_lines {taken : Bool} (ran : lockAcquire t l = .ok (taken, l')) :
    Lines t .acquire l (if taken then .out else .down) l' := by
  unfold lockAcquire at ran
  split at ran
  · rename_i other
    exact .next (by rw [lockStep, if_pos other]; rfl) (takeLock_lines ran)
  · rename_i mine
    simp only [pure_ok, Prod.mk.injEq] at ran
    obtain ⟨rfl, rfl⟩ := ran
    exact .next (by rw [lockStep, if_neg mine]; rfl) (.next rfl .done)

/-- `lockRelease` runs the statements of `lock_release`. -/
theorem lockRelease_lines (ran : lockRelease t l = .ok l') : Lines t .release l .out l' := by
  simp only [lockRelease, bind_ok, assertThat_ok, exists_const] at ran
  obtain ⟨mine, ran⟩ := ran
  refine .next (by rw [lockStep, assertThat_of mine]; rfl) ?_
  split at ran
  · rename_i deep
    rw [pure_ok] at ran
    subst ran
    exact .next (by rw [lockStep, if_pos deep]; rfl) (.next rfl .done)
  · rename_i last
    simp only [bind_ok, assertThat_ok, exists_const, pure_ok] at ran
    obtain ⟨one, semaphore, up, rfl⟩ := ran
    refine .next (by rw [lockStep, if_neg last]; rfl) ?_
    refine .next (by rw [lockStep, assertThat_of one]; rfl) ?_
    refine .next rfl (.next rfl ?_)
    exact .next (by rw [lockStep, up]; rfl) .done

end InterruptsOff

/-- A lock and the threads that use it. -/
structure Conf where
  lock : Lock
  place : Nat → Place
  depth : Nat → Nat

/-- Before any thread has used the lock. -/
def Conf.init : Conf := ⟨lockInit, fun _ => .out, fun _ => 0⟩

/-- One step of one thread. It enters `lock_acquire` at a depth with `deep`, and
`lock_release` only as often as it has acquired the lock. -/
inductive Step (deep : Nat → Prop) : Conf → Conf → Prop where
  | acquire {c : Conf} (t : Nat) (idle : c.place t = .out) (level : deep (c.depth t)) :
    Step deep c { c with place := Function.update c.place t .acquire }
  | release {c : Conf} (t : Nat) (idle : c.place t = .out) (held : 0 < c.depth t) :
    Step deep c { c with place := Function.update c.place t .release }
  | run {c : Conf} (t : Nat) {p : Place} {l : Lock} (busy : c.place t ≠ .out) (awake : t ∉ c.lock.semaphore.waiters)
    (ran : lockStep t c.lock (c.place t) = .ok (p, l)) :
    Step deep c ⟨l, Function.update c.place t p, Function.update c.depth t (depthAfter (c.depth t) (c.place t))⟩

/-- Any number of steps by any threads in any order. -/
abbrev Runs (deep : Nat → Prop) : Conf → Conf → Prop := Relation.ReflTransGen (Step deep)

/-- The thread has got the semaphore and has not given it back. -/
def Conf.Inside (c : Conf) (t : Nat) : Prop :=
  0 < c.depth t ∨ c.place t = .claim ∨ c.place t = .checkFree ∨ c.place t = .first

/-- The thread is not in the middle of storing `holder` and `holder_repeat_nr`. -/
def Conf.Settled (c : Conf) (t : Nat) : Prop :=
  c.place t ≠ .claim ∧ c.place t ≠ .checkFree ∧ c.place t ≠ .first ∧ c.place t ≠ .clear ∧ c.place t ≠ .up

/-- The lock works in this state: one thread is inside, the lock says which one and how deep,
its semaphore is free if and only if nobody is inside, and no next statement fails. -/
structure Excludes (c : Conf) : Prop where
  one : ∀ t u, c.Inside t → c.Inside u → t = u
  holder : ∀ t, c.Settled t → (c.lock.holder = some t ↔ c.Inside t)
  repeatNr : ∀ t, c.Settled t → c.Inside t → c.lock.holderRepeatNr = c.depth t
  outside : (∀ t, ¬ c.Inside t) → c.lock.holder = none ∧ c.lock.holderRepeatNr = 0
  value : c.lock.semaphore.value = 1 ↔ ∀ t, ¬ c.Inside t
  asserts : ∀ t, t ∉ c.lock.semaphore.waiters → ∃ r, lockStep t c.lock (c.place t) = .ok r

/-- What is known where the thread that is inside stands. -/
def Owns (l : Lock) (t depth : Nat) : Place → Prop
  | .down => False
  | .claim => l.holder = none ∧ l.holderRepeatNr = 0 ∧ depth = 0
  | .checkFree => l.holder = some t ∧ l.holderRepeatNr = 0 ∧ depth = 0
  | .first => l.holder = some t ∧ l.holderRepeatNr = 0 ∧ depth = 0
  | .acquire => l.holder = some t ∧ l.holderRepeatNr = depth ∧ 0 < depth ∧ depth + 1 < 2 ^ 32
  | .again => l.holder = some t ∧ l.holderRepeatNr = depth ∧ 0 < depth ∧ depth + 1 < 2 ^ 32
  | .lessen => l.holder = some t ∧ l.holderRepeatNr = depth ∧ 1 < depth
  | .checkLast => l.holder = some t ∧ l.holderRepeatNr = depth ∧ depth = 1
  | .disclaim => l.holder = some t ∧ l.holderRepeatNr = depth ∧ depth = 1
  | .clear => l.holder = none ∧ l.holderRepeatNr = depth ∧ depth = 1
  | .up => l.holder = none ∧ l.holderRepeatNr = 0 ∧ depth = 1
  | _ => l.holder = some t ∧ l.holderRepeatNr = depth ∧ 0 < depth

/-- A thread that is not inside. -/
def Apart (l : Lock) (t depth : Nat) (p : Place) : Prop :=
  l.holder ≠ some t ∧ depth = 0 ∧ (p = .out ∨ p = .acquire ∨ p = .down)

/-- The invariant, with the thread that is inside. -/
structure Inv (owner : Option Nat) (c : Conf) : Prop where
  value : c.lock.semaphore.value = if owner = none then 1 else 0
  free : owner = none → c.lock.holder = none ∧ c.lock.holderRepeatNr = 0
  owns : ∀ t, owner = some t → Owns c.lock t (c.depth t) (c.place t)
  apart : ∀ t, owner ≠ some t → Apart c.lock t (c.depth t) (c.place t)
  asleep : ∀ t ∈ c.lock.semaphore.waiters, c.place t = .down

section Steps

variable {c : Conf} {owner : Option Nat} {t : Nat}

theorem Inv.init : Inv none Conf.init := by
  constructor
  · rfl
  · exact fun _ => ⟨rfl, rfl⟩
  · intro t eq
    cases eq
  · intro t _
    exact ⟨nofun, rfl, .inl rfl⟩
  · intro t mem
    cases mem

/-- Who is inside. -/
theorem Inv.inside_iff (h : Inv owner c) : c.Inside t ↔ owner = some t := by
  constructor
  · intro inside
    by_contra ne
    obtain ⟨-, zero, place⟩ := h.apart t ne
    rcases inside with pos | eq | eq | eq
    · omega
    · rcases place with p | p | p <;> rw [p] at eq <;> cases eq
    · rcases place with p | p | p <;> rw [p] at eq <;> cases eq
    · rcases place with p | p | p <;> rw [p] at eq <;> cases eq
  · intro eq
    have owns := h.owns t eq
    by_contra notInside
    simp only [Conf.Inside, not_or, Nat.not_lt, Nat.le_zero] at notInside
    obtain ⟨zero, notClaim, notCheck, notFirst⟩ := notInside
    cases place : c.place t <;> rw [place, zero] at owns <;> simp_all [Owns]

/-- Only the two fields of the lock matter. -/
theorem Owns.congr {l l' : Lock} {depth : Nat} {p : Place} (h : Owns l t depth p) (holder : l'.holder = l.holder)
    (nr : l'.holderRepeatNr = l.holderRepeatNr) : Owns l' t depth p := by
  cases p <;> simp_all [Owns]

/-- A step of the thread `t`. If another thread is inside, it stays inside, and the fields it
relies on do not change. -/
theorem Inv.move {owner' : Option Nat} {l : Lock} {p : Place} {depth : Nat} (h : Inv owner c)
    (value : l.semaphore.value = if owner' = none then 1 else 0)
    (free : owner' = none → l.holder = none ∧ l.holderRepeatNr = 0)
    (mine : owner' = some t → Owns l t depth p) (notMine : owner' ≠ some t → Apart l t depth p)
    (same : ∀ u, u ≠ t → (owner' = some u ↔ owner = some u))
    (kept : ∀ u, u ≠ t → owner = some u → l.holder = c.lock.holder ∧ l.holderRepeatNr = c.lock.holderRepeatNr)
    (holder : ∀ u, u ≠ t → c.lock.holder ≠ some u → l.holder ≠ some u)
    (waiters : ∀ u ∈ l.semaphore.waiters, (u ≠ t ∧ u ∈ c.lock.semaphore.waiters) ∨ (u = t ∧ p = .down)) :
    Inv owner' ⟨l, Function.update c.place t p, Function.update c.depth t depth⟩ := by
  constructor
  · exact value
  · exact free
  · intro u eq
    by_cases ut : u = t
    · subst ut
      simpa using mine eq
    · have old := (same u ut).1 eq
      obtain ⟨holds, nr⟩ := kept u ut old
      simpa [ut] using (h.owns u old).congr holds nr
  · intro u ne
    by_cases ut : u = t
    · subst ut
      simpa using notMine ne
    · obtain ⟨notHolder, zero, place⟩ := h.apart u fun eq => ne ((same u ut).2 eq)
      simp only [Function.update_of_ne ut]
      exact ⟨holder u ut notHolder, zero, place⟩
  · intro u mem
    rcases waiters u mem with ⟨ne, old⟩ | ⟨rfl, down⟩
    · simpa [ne] using h.asleep u old
    · simpa using down

/-- The thread that is inside makes a step and stays inside. -/
theorem Inv.own {l : Lock} {p : Place} {depth : Nat} (h : Inv (some t) c) (awake : t ∉ c.lock.semaphore.waiters)
    (value : l.semaphore.value = c.lock.semaphore.value) (waiters : l.semaphore.waiters = c.lock.semaphore.waiters)
    (holder : l.holder = c.lock.holder ∨ l.holder = some t ∨ l.holder = none) (owns : Owns l t depth p) :
    Inv (some t) ⟨l, Function.update c.place t p, Function.update c.depth t depth⟩ := by
  refine h.move (by rw [value]; exact h.value) nofun (fun _ => owns) (fun ne => absurd rfl ne) (fun _ _ => Iff.rfl) ?_ ?_ ?_
  · intro u ne eq
    exact absurd (Option.some.inj eq).symm ne
  · intro u ne old eq
    rcases holder with same | mine | none
    · exact old (same ▸ eq)
    · exact ne (Option.some.inj (mine ▸ eq)).symm
    · rw [none] at eq
      cases eq
  · intro u mem
    rw [waiters] at mem
    exact .inl ⟨fun eq => awake (eq ▸ mem), mem⟩

/-- What the thread inside leaves of the lock in a statement other than the last: the semaphore, and a holder that is
nobody else. -/
def StaysIn (t : Nat) (l l' : Lock) : Prop :=
  l'.semaphore = l.semaphore ∧ (l'.holder = l.holder ∨ l'.holder = some t ∨ l'.holder = none)

theorem StaysIn.refl (l : Lock) : StaysIn t l l := ⟨rfl, .inl rfl⟩

/-- The thread inside goes on in `lock_acquire`. -/
theorem Owns.acquires {l l' : Lock} {p p' : Place} {depth : Nat} (owns : Owns l t depth p) (acquires : p.Acquires)
    (ran : lockStep t l p = .ok (p', l')) : StaysIn t l l' ∧ Owns l' t (depthAfter depth p) p' := by
  simp only [Place.Acquires, List.mem_cons, List.not_mem_nil, or_false] at acquires
  rcases acquires with rfl | rfl | rfl | rfl | rfl | rfl
  · simp only [lockStep, owns.1, ne_eq, not_true_eq_false, if_false, pure_ok, Prod.mk.injEq] at ran
    obtain ⟨rfl, rfl⟩ := ran
    exact ⟨.refl l, owns⟩
  · exact owns.elim
  · simp only [lockStep, pure_ok, Prod.mk.injEq] at ran
    obtain ⟨rfl, rfl⟩ := ran
    exact ⟨⟨rfl, .inr (.inl rfl)⟩, rfl, owns.2⟩
  · simp only [lockStep, bind_ok, pure_ok, Prod.mk.injEq] at ran
    obtain ⟨-, -, rfl, rfl⟩ := ran
    exact ⟨.refl l, owns⟩
  · simp only [lockStep, pure_ok, Prod.mk.injEq] at ran
    obtain ⟨rfl, rfl⟩ := ran
    refine ⟨⟨rfl, .inl rfl⟩, owns.1, ?_, Nat.succ_pos _⟩
    show 1 = depth + 1
    rw [owns.2.2]
  · simp only [lockStep, pure_ok, Prod.mk.injEq] at ran
    obtain ⟨rfl, rfl⟩ := ran
    obtain ⟨holder, nr, -, small⟩ := owns
    refine ⟨⟨rfl, .inl rfl⟩, holder, ?_, Nat.succ_pos _⟩
    show (l.holderRepeatNr + 1) % 2 ^ 32 = depth + 1
    rw [nr, Nat.mod_eq_of_lt small]

/-- The thread inside goes on in `lock_release`. -/
theorem Owns.releases {l l' : Lock} {p p' : Place} {depth : Nat} (owns : Owns l t depth p) (releases : p.Releases) (notUp : p ≠ .up)
    (ran : lockStep t l p = .ok (p', l')) : StaysIn t l l' ∧ Owns l' t (depthAfter depth p) p' := by
  simp only [Place.Releases, List.mem_cons, List.not_mem_nil, or_false] at releases
  rcases releases with rfl | rfl | rfl | rfl | rfl | rfl | rfl
  · simp only [lockStep, bind_ok, pure_ok, Prod.mk.injEq] at ran
    obtain ⟨-, -, rfl, rfl⟩ := ran
    exact ⟨.refl l, owns⟩
  · simp only [lockStep, pure_ok, Prod.mk.injEq] at ran
    obtain ⟨rfl, rfl⟩ := ran
    obtain ⟨holder, nr, pos⟩ := owns
    refine ⟨.refl l, ?_⟩
    show Owns l t depth _
    split
    · exact ⟨holder, nr, by omega⟩
    · exact ⟨holder, nr, by omega⟩
  · simp only [lockStep, pure_ok, Prod.mk.injEq] at ran
    obtain ⟨rfl, rfl⟩ := ran
    obtain ⟨holder, nr, deep⟩ := owns
    refine ⟨⟨rfl, .inl rfl⟩, holder, ?_, ?_⟩
    · show l.holderRepeatNr - 1 = depth - 1
      rw [nr]
    · show 0 < depth - 1
      omega
  · simp only [lockStep, bind_ok, pure_ok, Prod.mk.injEq] at ran
    obtain ⟨-, -, rfl, rfl⟩ := ran
    exact ⟨.refl l, owns⟩
  · simp only [lockStep, pure_ok, Prod.mk.injEq] at ran
    obtain ⟨rfl, rfl⟩ := ran
    exact ⟨⟨rfl, .inr (.inr rfl)⟩, rfl, owns.2⟩
  · simp only [lockStep, pure_ok, Prod.mk.injEq] at ran
    obtain ⟨rfl, rfl⟩ := ran
    exact ⟨⟨rfl, .inl rfl⟩, owns.1, rfl, owns.2.2⟩
  · exact absurd rfl notUp

/-- The thread inside puts up the semaphore and is outside. -/
theorem Inv.run_up {l : Lock} {p : Place} (h : Inv (some t) c) (place : c.place t = .up) (awake : t ∉ c.lock.semaphore.waiters)
    (ran : lockStep t c.lock .up = .ok (p, l)) :
    Inv none ⟨l, Function.update c.place t p, Function.update c.depth t (depthAfter (c.depth t) .up)⟩ := by
  have owns := h.owns t rfl
  rw [place] at owns
  simp only [lockStep, bind_ok, semaUp_ok, pure_ok, Prod.mk.injEq] at ran
  obtain ⟨_, ⟨-, rfl⟩, rfl, rfl⟩ := ran
  obtain ⟨holder, nr, last⟩ := owns
  refine h.move rfl (fun _ => ⟨holder, nr⟩) (by rintro ⟨⟩) ?_ ?_ ?_ ?_ ?_
  · intro _
    refine ⟨by simp [holder], ?_, .inl rfl⟩
    show c.depth t - 1 = 0
    omega
  · intro u ne
    simpa using Ne.symm ne
  · intro u ne eq
    exact absurd (Option.some.inj eq).symm ne
  · intro u _ old
    exact old
  · intro u mem
    have old := List.mem_of_mem_tail mem
    exact .inl ⟨fun eq => awake (eq ▸ old), old⟩

/-- The thread that is inside makes a step: it stays inside, or it puts up the semaphore. -/
theorem Inv.run_owner {l : Lock} {p : Place} (h : Inv (some t) c) (busy : c.place t ≠ .out)
    (awake : t ∉ c.lock.semaphore.waiters) (ran : lockStep t c.lock (c.place t) = .ok (p, l)) :
    ∃ owner', Inv owner'
      ⟨l, Function.update c.place t p, Function.update c.depth t (depthAfter (c.depth t) (c.place t))⟩ := by
  have stays : StaysIn t c.lock l ∧ Owns l t (depthAfter (c.depth t) (c.place t)) p → Inv (some t)
      ⟨l, Function.update c.place t p, Function.update c.depth t (depthAfter (c.depth t) (c.place t))⟩ := by
    rintro ⟨⟨semaphore, holder⟩, owns⟩
    exact h.own awake (by rw [semaphore]) (by rw [semaphore]) holder owns
  have owns := h.owns t rfl
  by_cases acquires : (c.place t).Acquires
  · exact ⟨_, stays (owns.acquires acquires ran)⟩
  by_cases up : c.place t = .up
  · rw [up] at ran ⊢
    exact ⟨_, h.run_up up awake ran⟩
  have releases : (c.place t).Releases := by
    generalize c.place t = p at *
    cases p <;> simp_all [Place.Acquires, Place.Releases]
  exact ⟨_, stays (owns.releases releases up ran)⟩

/-- A thread that is not inside makes a step: it takes the semaphore, waits for it, or is
still on the way to it. -/
theorem Inv.run_apart {l : Lock} {p : Place} (h : Inv owner c) (apart : owner ≠ some t) (busy : c.place t ≠ .out)
    (awake : t ∉ c.lock.semaphore.waiters) (ran : lockStep t c.lock (c.place t) = .ok (p, l)) :
    ∃ owner', Inv owner'
      ⟨l, Function.update c.place t p, Function.update c.depth t (depthAfter (c.depth t) (c.place t))⟩ := by
  obtain ⟨notHolder, zero, place⟩ := h.apart t apart
  rcases place with out | acquire | down
  · exact absurd out busy
  · rw [acquire] at ran ⊢
    simp only [lockStep, notHolder, ne_eq, not_false_eq_true, if_true, pure_ok, Prod.mk.injEq] at ran
    obtain ⟨rfl, rfl⟩ := ran
    refine ⟨owner, h.move h.value h.free (fun eq => absurd eq apart) ?_ (fun _ _ => Iff.rfl) ?_ ?_ ?_⟩
    · exact fun _ => ⟨notHolder, zero, .inr (.inr rfl)⟩
    · exact fun _ _ _ => ⟨rfl, rfl⟩
    · exact fun _ _ old => old
    · exact fun u mem => .inl ⟨fun eq => awake (eq ▸ mem), mem⟩
  · rw [down] at ran ⊢
    simp only [lockStep, bind_ok, pure_ok, Prod.mk.injEq] at ran
    obtain ⟨⟨taken, s⟩, ran, rfl, rfl⟩ := ran
    rcases semaDown_ok.1 ran with ⟨-, -, rfl, rfl⟩ | ⟨one, rfl, rfl⟩
    · refine ⟨owner, h.move h.value h.free (fun eq => absurd eq apart) ?_ (fun _ _ => Iff.rfl) ?_ ?_ ?_⟩
      · exact fun _ => ⟨notHolder, zero, .inr (.inr rfl)⟩
      · exact fun _ _ _ => ⟨rfl, rfl⟩
      · exact fun _ _ old => old
      · intro u mem
        rcases List.mem_append.1 mem with old | new
        · exact .inl ⟨fun eq => awake (eq ▸ old), old⟩
        · exact .inr ⟨List.mem_singleton.1 new, rfl⟩
    · have nobody : owner = none := by
        by_contra some
        rw [h.value, if_neg some] at one
        cases one
      obtain ⟨holder, nr⟩ := h.free nobody
      refine ⟨some t, h.move rfl nofun ?_ (fun ne => absurd rfl ne) ?_ ?_ ?_ ?_⟩
      · exact fun _ => ⟨holder, nr, zero⟩
      · intro u ne
        simpa [nobody] using Ne.symm ne
      · intro u _ eq
        rw [nobody] at eq
        cases eq
      · exact fun _ _ old => old
      · exact fun u mem => .inl ⟨fun eq => awake (eq ▸ mem), mem⟩

/-- A thread enters one of the two functions. -/
theorem Inv.enter {p : Place} (h : Inv owner c) (idle : c.place t = .out)
    (mine : owner = some t → Owns c.lock t (c.depth t) p) (notMine : owner ≠ some t → p = .acquire) :
    Inv owner { c with place := Function.update c.place t p } := by
  have moved : Inv owner ⟨c.lock, Function.update c.place t p, Function.update c.depth t (c.depth t)⟩ := by
    refine h.move h.value h.free mine ?_ (fun _ _ => Iff.rfl) (fun _ _ _ => ⟨rfl, rfl⟩) (fun _ _ old => old) ?_
    · intro ne
      obtain ⟨notHolder, zero, -⟩ := h.apart t ne
      exact ⟨notHolder, zero, .inr (.inl (notMine ne))⟩
    · intro u mem
      refine .inl ⟨?_, mem⟩
      intro eq
      have down := h.asleep u mem
      rw [eq, idle] at down
      cases down
  simpa using moved

/-- One step keeps the invariant as long as the depth fits in 32 bits. -/
theorem Inv.step {c' : Conf} (h : Inv owner c) (step : Step (fun depth => depth + 1 < 2 ^ 32) c c') :
    ∃ owner', Inv owner' c' := by
  cases step with
  | acquire t idle level =>
    refine ⟨owner, h.enter idle ?_ fun _ => rfl⟩
    intro eq
    have owns := h.owns t eq
    rw [idle] at owns
    exact ⟨owns.1, owns.2.1, owns.2.2, level⟩
  | release t idle held =>
    have mine : owner = some t := h.inside_iff.1 (.inl held)
    refine ⟨owner, h.enter idle ?_ fun ne => absurd mine ne⟩
    intro eq
    have owns := h.owns t eq
    rw [idle] at owns
    exact owns
  | run t busy awake ran =>
    by_cases mine : owner = some t
    · subst mine
      exact h.run_owner busy awake ran
    · exact h.run_apart mine busy awake ran

/-- No statement that can come next fails. -/
theorem Inv.returns (h : Inv owner c) (awake : t ∉ c.lock.semaphore.waiters) :
    ∃ r, lockStep t c.lock (c.place t) = .ok r := by
  by_cases mine : owner = some t
  · have owns := h.owns t mine
    have value := h.value
    rw [mine, if_neg nofun] at value
    cases place : c.place t <;> rw [place] at owns <;> simp_all [Owns, lockStep, semaUp, assertThat, pure, Except.pure]
  · obtain ⟨-, -, place⟩ := h.apart t mine
    rcases place with out | acquire | down
    · exact ⟨_, by rw [out]; rfl⟩
    · exact ⟨_, by rw [acquire]; rfl⟩
    · rw [down]
      by_cases free : owner = none
      · have one : c.lock.semaphore.value = 1 := by rw [h.value, if_pos free]
        exact ⟨_, by rw [lockStep, semaDown_ok.2 (.inr ⟨one, rfl, rfl⟩)]; rfl⟩
      · have zero : c.lock.semaphore.value = 0 := by rw [h.value, if_neg free]
        exact ⟨_, by rw [lockStep, semaDown_ok.2 (.inl ⟨zero, awake, rfl, rfl⟩)]; rfl⟩

theorem Inv.excludes (h : Inv owner c) : Excludes c := by
  constructor
  · intro t u inside inside'
    rw [h.inside_iff] at inside inside'
    rw [inside] at inside'
    exact Option.some.inj inside'
  · intro t settled
    rw [h.inside_iff]
    constructor
    · intro holder
      by_contra ne
      exact (h.apart t ne).1 holder
    · intro eq
      have owns := h.owns t eq
      unfold Conf.Settled at settled
      cases place : c.place t <;> rw [place] at owns settled <;> simp_all [Owns]
  · intro t settled inside
    have owns := h.owns t (h.inside_iff.1 inside)
    unfold Conf.Settled at settled
    cases place : c.place t <;> rw [place] at owns settled <;> simp_all [Owns]
  · intro nobody
    refine h.free ?_
    cases owner with
    | none => rfl
    | some t => exact absurd (h.inside_iff.2 rfl) (nobody t)
  · rw [h.value]
    cases owner with
    | none => simp [h.inside_iff]
    | some t => simp [h.inside_iff]
  · exact fun t awake => h.returns awake

end Steps

/-- Below a depth of `2 ^ 32` the lock works in every state that any threads reach in any
interleaving. -/
theorem lock_excludes {c : Conf} (run : Runs (fun depth => depth + 1 < 2 ^ 32) Conf.init c) : Excludes c := by
  have inv : ∃ owner, Inv owner c := by
    induction run with
    | refl => exact ⟨none, Inv.init⟩
    | tail _ step ih =>
      obtain ⟨owner, inv⟩ := ih
      exact inv.step step
  obtain ⟨owner, inv⟩ := inv
  exact inv.excludes

section Nesting

variable {deep : Nat → Prop} {l l' : Lock} {p p' : Place} {depth : Nat}

/-- Only the thread 0 uses the lock. -/
def single (l : Lock) (p : Place) (depth : Nat) : Conf :=
  ⟨l, Function.update (fun _ => .out) 0 p, Function.update (fun _ => 0) 0 depth⟩

theorem init_single : Conf.init = single lockInit .out 0 := by
  simp [Conf.init, single]

theorem step_acquire (level : deep depth) : Step deep (single l .out depth) (single l .acquire depth) := by
  have step := @Step.acquire deep (single l .out depth) 0 (by simp [single]) (by simpa [single] using level)
  simpa [single] using step

theorem step_release (held : 0 < depth) : Step deep (single l .out depth) (single l .release depth) := by
  have step := @Step.release deep (single l .out depth) 0 (by simp [single]) (by simpa [single] using held)
  simpa [single] using step

theorem step_alone (busy : p ≠ .out) (awake : l.semaphore.waiters = []) (ran : lockStep 0 l p = .ok (p', l')) :
    Step deep (single l p depth) (single l' p' (depthAfter depth p)) := by
  have step := @Step.run deep (single l p depth) 0 p' l' (by simpa [single] using busy) (by simp [single, awake])
    (by simpa [single] using ran)
  simpa [single] using step

/-- The first `lock_acquire`. -/
theorem acquires_once (level : deep 0) : Runs deep Conf.init (single ⟨some 0, 1, ⟨0, []⟩⟩ .out 1) := by
  rw [init_single]
  refine .head (step_acquire level) ?_
  refine .head (step_alone nofun rfl rfl) ?_
  refine .head (step_alone nofun rfl rfl) ?_
  refine .head (step_alone nofun rfl rfl) ?_
  refine .head (step_alone nofun rfl rfl) ?_
  exact .single (step_alone nofun rfl rfl)

/-- `n` more calls of `lock_acquire`. -/
theorem acquires_nested (level : ∀ n, deep n) (n : Nat) :
    Runs deep Conf.init (single ⟨some 0, (n + 1) % 2 ^ 32, ⟨0, []⟩⟩ .out (n + 1)) := by
  induction n with
  | zero => exact acquires_once (level 0)
  | succ n ih =>
    refine ih.trans ?_
    refine .head (step_acquire (level _)) ?_
    refine .head (step_alone nofun rfl rfl) ?_
    refine .single ?_
    have step := @step_alone deep ⟨some 0, (n + 1) % 2 ^ 32, ⟨0, []⟩⟩ _ .again _ (n + 1) nofun rfl rfl
    simpa [depthAfter, Nat.add_mod] using step

/-- After `2 ^ 32` calls of `lock_acquire` the counter is 0 again, and `lock_release` fails. -/
theorem lock_overflows : ∃ c, Runs (fun _ => True) Conf.init c ∧ ¬ Excludes c := by
  refine ⟨single ⟨some 0, 0, ⟨0, []⟩⟩ .checkLast (2 ^ 32), ?_, ?_⟩
  · have deep := @acquires_nested (fun _ => True) (fun _ => trivial) (2 ^ 32 - 1)
    rw [show 2 ^ 32 - 1 + 1 = 2 ^ 32 from rfl, Nat.mod_self] at deep
    refine deep.trans ?_
    refine .head (step_release (by decide)) ?_
    refine .head (step_alone nofun rfl rfl) ?_
    exact .single (step_alone nofun rfl rfl)
  · intro excludes
    obtain ⟨r, ran⟩ := excludes.asserts 0 List.not_mem_nil
    cases ran

/-- The thread 0 is inside and the thread 1 is asleep. -/
theorem lock_excludes_contended : ∃ c, Runs (fun depth => depth + 1 < 2 ^ 32) Conf.init c ∧
    c.Inside 0 ∧ 1 ∈ c.lock.semaphore.waiters ∧ Excludes c := by
  have one := @acquires_once (fun depth => depth + 1 < 2 ^ 32) (by decide)
  have two := one.tail (Step.acquire 1 rfl (by decide))
  have three := two.tail (Step.run 1 nofun nofun rfl)
  have four := three.tail (Step.run 1 nofun nofun rfl)
  exact ⟨_, four, .inl Nat.one_pos, List.mem_singleton.2 rfl, lock_excludes four⟩

end Nesting

end Sparrow.Locks
