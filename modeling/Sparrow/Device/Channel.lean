import Sparrow.Device.Ide
import Sparrow.Thread.Lock

/-!
# The commands of a disk channel

`ide_read`, `ide_write` and `intr_hd_handler` of `device/ide.c`, as far as they concern the lock
of the channel, the flag `expecting_intr` and the semaphore `disk_done`. The channel may raise
its interrupt at any time and any number of times; the handler runs with interrupts off, so it
is one step. A thread may be switched away between any two statements.

Each command gets a number when `cmd_out` sets the flag. `signals` says for every value that
`sema_up` has added to `disk_done` and nobody has taken yet which command had been the last to
set the flag, and `consumed` lists the commands that have got through `sema_down`, each with
the value it took. They are there for the proof, the code does not have them.
-/

namespace Sparrow.Channel
set_option autoImplicit false

open Locks (Lock lockStep lockInit semaDown semaUp)

/-- The arguments of `ide_read` and `ide_write`. -/
structure Request where
  write : Bool
  lba : Nat
  secCnt : Nat
  deriving DecidableEq, Repr

/-- A turn of the loop: how many sectors are done, how many are in this command, and its
number. -/
structure Command where
  request : Request
  secsDone : Nat
  secsOp : Nat
  number : Nat
  deriving DecidableEq, Repr

/-- The next statement of a thread. -/
inductive Place where
  | idle
  | acquiring (r : Request) (p : Locks.Place)
  /-- The test of the loop and `select_sector`. -/
  | loop (r : Request) (secsDone : Nat)
  /-- In `cmd_out`: `channel->expecting_intr = true`. -/
  | expect (r : Request) (secsDone secsOp : Nat)
  /-- In `cmd_out`: `outb(reg_cmd(channel), cmd)`. -/
  | command (m : Command)
  /-- `sema_down(&hd->my_channel->disk_done)`. -/
  | down (m : Command)
  | busyWait (m : Command)
  /-- `read_from_sector` or `write2sector`. -/
  | transfer (m : Command)
  /-- `secs_done += secs_op`. -/
  | advance (m : Command)
  | releasing (p : Locks.Place)
  deriving DecidableEq, Repr

/-- `struct ide_channel`, with the record of its commands. -/
structure Chan where
  lock : Lock
  expectingIntr : Bool
  diskDone : Semaphore
  issued : Nat
  signals : List Nat
  consumed : List (Nat × Nat)

/-- The channel in `ide_init`. -/
def Chan.init : Chan := ⟨lockInit, false, ⟨0, []⟩, 0, [], []⟩

/-- `intr_hd_handler`. -/
def intrHdHandler (c : Chan) : Exec Chan :=
  if c.expectingIntr then do
    let diskDone ← semaUp c.diskDone
    return { c with expectingIntr := false, diskDone := diskDone, signals := c.signals ++ [c.issued] }
  else return c

/-- `sema_down(&disk_done)` for the command `m`: one turn of its loop. -/
def awaitDone (t : Nat) (m : Command) (c : Chan) : Exec (Bool × Chan) := do
  let (taken, diskDone) ← semaDown t c.diskDone
  if taken then
    return (true, { c with
      diskDone := diskDone
      signals := c.signals.tail
      consumed := c.consumed ++ [(m.number, c.signals.headD 0)] })
  else return (false, { c with diskDone := diskDone })

/-- The next statement of the thread `t`. `busy_wait` returns `ready`; the kernel stops when it
returns false. A read waits for the drive before it takes the data, a write after it has
handed them over. -/
def ideStep (t : Nat) (ready : Bool) (c : Chan) : Place → Exec (Place × Chan)
  | .idle => return (.idle, c)
  | .acquiring r p => do
    let (p, lock) ← lockStep t c.lock p
    return (if p = .out then .loop r 0 else .acquiring r p, { c with lock := lock })
  | .loop r secsDone =>
    if secsDone < r.secCnt then do
      let secsOp := if secsDone + 256 ≤ r.secCnt then 256 else r.secCnt - secsDone
      assertThat (r.lba + secsDone ≤ maxLba)
      return (.expect r secsDone secsOp, c)
    else return (.releasing .release, c)
  | .expect r secsDone secsOp =>
    return (.command ⟨r, secsDone, secsOp, c.issued + 1⟩, { c with expectingIntr := true, issued := c.issued + 1 })
  | .command m => return (if m.request.write then .busyWait m else .down m, c)
  | .down m => do
    let (taken, c) ← awaitDone t m c
    return (if taken = false then .down m else if m.request.write then .advance m else .busyWait m, c)
  | .busyWait m => do
    assertThat (ready = true)
    return (.transfer m, c)
  | .transfer m => return (if m.request.write then .down m else .advance m, c)
  | .advance m => return (.loop m.request (m.secsDone + m.secsOp), c)
  | .releasing p => do
    let (p, lock) ← lockStep t c.lock p
    return (if p = .out then .idle else .releasing p, { c with lock := lock })

/-- A channel and the threads that use it. -/
structure Conf where
  chan : Chan
  place : Nat → Place

def Conf.init : Conf := ⟨Chan.init, fun _ => .idle⟩

/-- A thread calls `ide_read` or `ide_write`, a thread makes its next step, or the channel
raises its interrupt. -/
inductive Step : Conf → Conf → Prop where
  | call {c : Conf} (t : Nat) (r : Request) (idle : c.place t = .idle) (lba : r.lba ≤ maxLba) (cnt : 0 < r.secCnt) :
    Step c { c with place := Function.update c.place t (.acquiring r .acquire) }
  | run {c : Conf} (t : Nat) (ready : Bool) {p : Place} {chan : Chan} (busy : c.place t ≠ .idle)
    (awake : t ∉ c.chan.lock.semaphore.waiters ∧ t ∉ c.chan.diskDone.waiters)
    (ran : ideStep t ready c.chan (c.place t) = .ok (p, chan)) : Step c ⟨chan, Function.update c.place t p⟩
  | interrupt {c : Conf} {chan : Chan} (ran : intrHdHandler c.chan = .ok chan) : Step c { c with chan := chan }

abbrev Runs : Conf → Conf → Prop := Relation.ReflTransGen Step

/-- The command of a thread between `cmd_out` and the return of the matching `sema_down`. -/
def Place.pending : Place → Option Command
  | .command m => some m
  | .down m => some m
  | .busyWait m => if m.request.write then some m else none
  | .transfer m => if m.request.write then some m else none
  | _ => none

/-- The protocol is kept in this state: the assertions of the handler and of the driver hold
whenever they are next, one command is on its way, and the commands before it have taken one
signal each, which was raised when the command itself was the last to set the flag. -/
structure Kept (c : Conf) : Prop where
  handler : ∃ chan, intrHdHandler c.chan = .ok chan
  down : ∀ t m, c.place t = .down m → t ∉ c.chan.diskDone.waiters → ∃ r, awaitDone t m c.chan = .ok r
  one : ∀ t u m m', (c.place t).pending = some m → (c.place u).pending = some m' → t = u
  signals : c.chan.consumed = (List.range' 1 c.chan.consumed.length).map fun k => (k, k)
  current : ∀ t m, (c.place t).pending = some m → m.number = c.chan.issued ∧ c.chan.issued = c.chan.consumed.length + 1
  finished : (∀ t, (c.place t).pending = none) → c.chan.issued = c.chan.consumed.length

/-- Where a thread is in the functions of the lock. -/
def Place.lockPlace : Place → Locks.Place
  | .acquiring _ p => p
  | .releasing p => p
  | _ => .out

/-- How deep a thread is in the lock. -/
def Place.lockDepth : Place → Nat
  | .idle => 0
  | .acquiring _ _ => 0
  | _ => 1

/-- What the threads do with the lock of the channel. -/
def Conf.lockConf (c : Conf) : Locks.Conf :=
  ⟨c.chan.lock, fun t => (c.place t).lockPlace, fun t => (c.place t).lockDepth⟩

/-- The commands up to `n` have each taken their own signal. -/
def Chan.Logged (c : Chan) (n : Nat) : Prop := c.consumed = (List.range' 1 n).map fun k => (k, k)

/-- No command is on its way. -/
structure Quiet (c : Chan) : Prop where
  notExpecting : c.expectingIntr = false
  value : c.diskDone.value = 0
  signals : c.signals = []
  logged : c.Logged c.issued

/-- The command `m` is on its way: the interrupt is still expected, or it has been signalled. -/
structure Pend (c : Chan) (m : Command) : Prop where
  number : m.number = c.issued
  issued : ∃ n, c.issued = n + 1 ∧ c.Logged n
  state : (c.expectingIntr = true ∧ c.diskDone.value = 0 ∧ c.signals = []) ∨
    (c.expectingIntr = false ∧ c.diskDone.value = 1 ∧ c.signals = [c.issued])

structure Inv (c : Conf) : Prop where
  lock : ∃ owner, Locks.Inv owner c.lockConf
  acquires : ∀ t r p, c.place t = .acquiring r p → p.Acquires
  releases : ∀ t p, c.place t = .releasing p → p.Releases
  pend : ∀ t m, (c.place t).pending = some m → Pend c.chan m
  quiet : (∀ t, (c.place t).pending = none) → Quiet c.chan

section Steps

variable {c c' : Conf} {t : Nat}

theorem Inv.init : Inv Conf.init := by
  constructor
  · exact ⟨none, Locks.Inv.init⟩
  · intro t r p eq
    cases eq
  · intro t p eq
    cases eq
  · intro t m eq
    cases eq
  · intro _
    exact ⟨rfl, rfl, rfl, rfl⟩

theorem lockConf_update {chan : Chan} {p : Place} :
    (⟨chan, Function.update c.place t p⟩ : Conf).lockConf =
      ⟨chan.lock, Function.update c.lockConf.place t p.lockPlace, Function.update c.lockConf.depth t p.lockDepth⟩ := by
  unfold Conf.lockConf
  congr 1
  · funext u
    by_cases eq : u = t
    · subst eq
      simp
    · simp [eq]
  · funext u
    by_cases eq : u = t
    · subst eq
      simp
    · simp [eq]

/-- A step that leaves the lock alone. -/
theorem lockConf_same {chan : Chan} {p : Place} (lock : chan.lock = c.chan.lock)
    (place : p.lockPlace = (c.place t).lockPlace) (depth : p.lockDepth = (c.place t).lockDepth) :
    (⟨chan, Function.update c.place t p⟩ : Conf).lockConf = c.lockConf := by
  rw [lockConf_update, lock, place, depth]
  simp [Conf.lockConf]

/-- A step inside the functions of the lock. -/
theorem lock_run {deep : Nat → Prop} {place p' : Place} {p q : Locks.Place} {lock : Lock} (at_ : c.place t = place)
    (eq : place.lockPlace = p) (busy : p ≠ .out) (awake : t ∉ c.chan.lock.semaphore.waiters)
    (ran : lockStep t c.chan.lock p = .ok (q, lock)) (next : p'.lockPlace = q)
    (depth : p'.lockDepth = Locks.depthAfter place.lockDepth p) :
    Locks.Step deep c.lockConf (⟨{ c.chan with lock := lock }, Function.update c.place t p'⟩ : Conf).lockConf := by
  subst at_ eq
  have step := @Locks.Step.run deep c.lockConf t q lock busy awake ran
  rw [lockConf_update, next, depth]
  exact step

/-- What one step of a thread can be. -/
inductive Moved (t : Nat) (chan : Chan) : Place → Place → Chan → Prop where
  | acquire {r : Request} {p q : Locks.Place} {lock : Lock} (ran : lockStep t chan.lock p = .ok (q, lock)) :
    Moved t chan (.acquiring r p) (if q = .out then .loop r 0 else .acquiring r q) { chan with lock := lock }
  | release {p q : Locks.Place} {lock : Lock} (ran : lockStep t chan.lock p = .ok (q, lock)) :
    Moved t chan (.releasing p) (if q = .out then .idle else .releasing q) { chan with lock := lock }
  | finish {r : Request} {secsDone : Nat} : Moved t chan (.loop r secsDone) (.releasing .release) chan
  | plain {p p' : Place} (place : p.lockPlace = .out ∧ p'.lockPlace = .out) (depth : p.lockDepth = 1 ∧ p'.lockDepth = 1)
    (pending : p'.pending = p.pending) (goes : ∀ q, p' ≠ .releasing q) : Moved t chan p p' chan
  | expect {r : Request} {secsDone secsOp : Nat} :
    Moved t chan (.expect r secsDone secsOp) (.command ⟨r, secsDone, secsOp, chan.issued + 1⟩)
      { chan with expectingIntr := true, issued := chan.issued + 1 }
  | down {m : Command} {taken : Bool} {chan' : Chan} (ran : awaitDone t m chan = .ok (taken, chan')) :
    Moved t chan (.down m)
      (if taken = false then .down m else if m.request.write then .advance m else .busyWait m) chan'

theorem ideStep_moved {ready : Bool} {chan chan' : Chan} {p p' : Place} (busy : p ≠ .idle)
    (ran : ideStep t ready chan p = .ok (p', chan')) : Moved t chan p p' chan' := by
  cases p with
  | idle => exact absurd rfl busy
  | acquiring r p =>
    simp only [ideStep, bind_ok, pure_ok, Prod.mk.injEq] at ran
    obtain ⟨⟨q, lock⟩, ran, rfl, rfl⟩ := ran
    exact .acquire ran
  | releasing p =>
    simp only [ideStep, bind_ok, pure_ok, Prod.mk.injEq] at ran
    obtain ⟨⟨q, lock⟩, ran, rfl, rfl⟩ := ran
    exact .release ran
  | loop r secsDone =>
    simp only [ideStep] at ran
    split at ran
    · simp only [bind_ok, pure_ok, Prod.mk.injEq] at ran
      obtain ⟨-, -, rfl, rfl⟩ := ran
      exact .plain ⟨rfl, rfl⟩ ⟨rfl, rfl⟩ rfl (by rintro _ ⟨⟩)
    · simp only [pure_ok, Prod.mk.injEq] at ran
      obtain ⟨rfl, rfl⟩ := ran
      exact .finish
  | expect r secsDone secsOp =>
    simp only [ideStep, pure_ok, Prod.mk.injEq] at ran
    obtain ⟨rfl, rfl⟩ := ran
    exact .expect
  | command m =>
    simp only [ideStep, pure_ok, Prod.mk.injEq] at ran
    obtain ⟨rfl, rfl⟩ := ran
    refine .plain ⟨rfl, ?_⟩ ⟨rfl, ?_⟩ ?_ ?_ <;> by_cases write : m.request.write <;>
      simp [write, Place.lockPlace, Place.lockDepth, Place.pending]
  | down m =>
    simp only [ideStep, bind_ok, pure_ok, Prod.mk.injEq] at ran
    obtain ⟨⟨taken, chan1⟩, ran, rfl, rfl⟩ := ran
    exact .down ran
  | busyWait m =>
    simp only [ideStep, bind_ok, pure_ok, Prod.mk.injEq] at ran
    obtain ⟨-, -, rfl, rfl⟩ := ran
    exact .plain ⟨rfl, rfl⟩ ⟨rfl, rfl⟩ rfl (by rintro _ ⟨⟩)
  | transfer m =>
    simp only [ideStep, pure_ok, Prod.mk.injEq] at ran
    obtain ⟨rfl, rfl⟩ := ran
    refine .plain ⟨rfl, ?_⟩ ⟨rfl, ?_⟩ ?_ ?_ <;> by_cases write : m.request.write <;>
      simp [write, Place.lockPlace, Place.lockDepth, Place.pending]
  | advance m =>
    simp only [ideStep, pure_ok, Prod.mk.injEq] at ran
    obtain ⟨rfl, rfl⟩ := ran
    exact .plain ⟨rfl, rfl⟩ ⟨rfl, rfl⟩ rfl (by rintro _ ⟨⟩)

theorem awaitDone_ok {m : Command} {chan chan' : Chan} {taken : Bool}
    (ran : awaitDone t m chan = .ok (taken, chan')) : ∃ diskDone, semaDown t chan.diskDone = .ok (taken, diskDone) ∧
      chan' = if taken then { chan with
        diskDone := diskDone
        signals := chan.signals.tail
        consumed := chan.consumed ++ [(m.number, chan.signals.headD 0)] } else { chan with diskDone := diskDone } := by
  simp only [awaitDone, bind_ok] at ran
  obtain ⟨⟨taken', diskDone⟩, down, ran⟩ := ran
  refine ⟨diskDone, ?_⟩
  cases taken' with
  | true =>
    simp only [if_true, pure_ok, Prod.mk.injEq] at ran
    obtain ⟨rfl, rfl⟩ := ran
    exact ⟨down, rfl⟩
  | false =>
    simp only [Bool.false_eq_true, if_false, pure_ok, Prod.mk.injEq] at ran
    obtain ⟨rfl, rfl⟩ := ran
    exact ⟨down, rfl⟩

/-- The threads use the lock as `Locks.Step` says: none of them acquires it twice. -/
theorem Inv.lock_step (h : Inv c) (step : Step c c') :
    c'.lockConf = c.lockConf ∨ Locks.Step (fun depth => depth + 1 < 2 ^ 32) c.lockConf c'.lockConf := by
  cases step with
  | call t r idle lba cnt =>
    right
    rw [lockConf_update]
    have outside : c.lockConf.place t = .out := by simp [Conf.lockConf, idle, Place.lockPlace]
    have zero : c.lockConf.depth t = 0 := by simp [Conf.lockConf, idle, Place.lockDepth]
    have step := @Locks.Step.acquire (fun depth => depth + 1 < 2 ^ 32) c.lockConf t outside (by simp [zero])
    have same : Function.update c.lockConf.depth t 0 = c.lockConf.depth := by rw [← zero, Function.update_eq_self]
    simp only [Place.lockPlace, Place.lockDepth, same]
    exact step
  | run t ready busy awake ran =>
    have moved := ideStep_moved busy ran
    clear ran
    generalize place : c.place t = p at moved
    cases moved with
    | @acquire r p q lock ran =>
      right
      have acquires := h.acquires t r p place
      refine lock_run place rfl (by rintro rfl; simp [Locks.Place.Acquires] at acquires) awake.1 ran ?_ ?_
      · rcases acquires.next 0 ran with ⟨rfl, -⟩ | ⟨ne, -, -⟩
        · rfl
        · simp [ne, Place.lockPlace]
      · rcases acquires.next 0 ran with ⟨rfl, depth⟩ | ⟨ne, -, depth⟩
        · exact depth.symm
        · simpa [ne, Place.lockDepth, Place.lockPlace] using depth.symm
    | @release p q lock ran =>
      right
      have releases := h.releases t p place
      refine lock_run place rfl (by rintro rfl; simp [Locks.Place.Releases] at releases) awake.1 ran ?_ ?_
      · rcases releases.next 1 ran with ⟨rfl, -⟩ | ⟨ne, -, -⟩
        · rfl
        · simp [ne, Place.lockPlace]
      · rcases releases.next 1 ran with ⟨rfl, depth⟩ | ⟨ne, -, depth⟩
        · exact depth.symm
        · simpa [ne, Place.lockDepth, Place.lockPlace] using depth.symm
    | finish =>
      right
      rw [lockConf_update]
      have outside : c.lockConf.place t = .out := by simp [Conf.lockConf, place, Place.lockPlace]
      have one : c.lockConf.depth t = 1 := by simp [Conf.lockConf, place, Place.lockDepth]
      have step := @Locks.Step.release (fun depth => depth + 1 < 2 ^ 32) c.lockConf t outside (by simp [one])
      have same : Function.update c.lockConf.depth t 1 = c.lockConf.depth := by rw [← one, Function.update_eq_self]
      simp only [Place.lockPlace, Place.lockDepth, same]
      exact step
    | plain outside depth pending goes =>
      left
      exact lockConf_same rfl (by rw [place, outside.1, outside.2]) (by rw [place, depth.1, depth.2])
    | expect =>
      left
      exact lockConf_same rfl (by rw [place]; rfl) (by rw [place]; rfl)
    | @down m taken chan' ran =>
      left
      obtain ⟨diskDone, -, rfl⟩ := awaitDone_ok ran
      refine lockConf_same ?_ ?_ ?_
      · split <;> rfl
      · rw [place]
        by_cases write : m.request.write <;> cases taken <;> simp [write, Place.lockPlace]
      · rw [place]
        by_cases write : m.request.write <;> cases taken <;> simp [write, Place.lockDepth]
  | interrupt ran =>
    left
    unfold intrHdHandler at ran
    split at ran
    · simp only [bind_ok, pure_ok] at ran
      obtain ⟨s, -, rfl⟩ := ran
      rfl
    · rw [pure_ok] at ran
      rw [← ran]

/-- A thread with a command on its way is inside the lock. -/
theorem inside_of_depth (depth : (c.place t).lockDepth = 1) : c.lockConf.Inside t := by
  left
  show 0 < (c.place t).lockDepth
  rw [depth]
  exact Nat.one_pos

theorem depth_of_pending {m : Command} {p : Place} (pending : p.pending = some m) : p.lockDepth = 1 := by
  cases p with
  | idle => cases pending
  | acquiring r p => cases pending
  | _ => rfl

/-- While a thread is inside the lock, no other has a command on its way. -/
theorem Inv.alone (h : Inv c) (inside : (c.place t).lockDepth = 1) {u : Nat} (ne : u ≠ t) :
    (c.place u).pending = none := by
  obtain ⟨owner, lock⟩ := h.lock
  cases pending : (c.place u).pending with
  | none => rfl
  | some m =>
    refine absurd ?_ ne
    exact lock.excludes.one u t (inside_of_depth (depth_of_pending pending)) (inside_of_depth inside)

/-- A step of `t` that changes neither the record of the channel nor what `t` waits for. -/
theorem Inv.records (h : Inv c) {chan : Chan} {p : Place} (lock : ∃ owner, Locks.Inv owner
      (⟨chan, Function.update c.place t p⟩ : Conf).lockConf)
    (acquires : ∀ r q, p = .acquiring r q → q.Acquires) (releases : ∀ q, p = .releasing q → q.Releases)
    (same : p.pending = (c.place t).pending) (pend : ∀ m, Pend c.chan m → Pend chan m)
    (quiet : Quiet c.chan → Quiet chan) : Inv ⟨chan, Function.update c.place t p⟩ := by
  have pending : ∀ u, (Function.update c.place t p u).pending = (c.place u).pending := by
    intro u
    by_cases eq : u = t
    · subst eq
      simpa using same
    · simp [eq]
  refine ⟨lock, ?_, ?_, ?_, ?_⟩
  · intro u r q eq
    by_cases ut : u = t
    · subst ut
      exact acquires r q (by simpa using eq)
    · exact h.acquires u r q (by simpa [ut] using eq)
  · intro u q eq
    by_cases ut : u = t
    · subst ut
      exact releases q (by simpa using eq)
    · exact h.releases u q (by simpa [ut] using eq)
  · intro u m eq
    exact pend m (h.pend u m ((pending u).symm.trans eq))
  · intro none
    exact quiet (h.quiet fun u => (pending u).symm.trans (none u))

/-- A step of a thread that is inside the lock decides what is on its way. -/
theorem Inv.records_of_inside (h : Inv c) {chan : Chan} {p : Place} (lock : ∃ owner, Locks.Inv owner
      (⟨chan, Function.update c.place t p⟩ : Conf).lockConf) (inside : (c.place t).lockDepth = 1)
    (acquires : ∀ r q, p ≠ .acquiring r q) (releases : ∀ q, p ≠ .releasing q)
    (pend : ∀ m, p.pending = some m → Pend chan m) (quiet : p.pending = none → Quiet chan) :
    Inv ⟨chan, Function.update c.place t p⟩ := by
  refine ⟨lock, ?_, ?_, ?_, ?_⟩
  · intro u r q eq
    by_cases ut : u = t
    · subst ut
      exact absurd (by simpa using eq) (acquires r q)
    · exact h.acquires u r q (by simpa [ut] using eq)
  · intro u q eq
    by_cases ut : u = t
    · subst ut
      exact absurd (by simpa using eq) (releases q)
    · exact h.releases u q (by simpa [ut] using eq)
  · intro u m eq
    by_cases ut : u = t
    · subst ut
      exact pend m (by simpa using eq)
    · simp only [Function.update_of_ne ut] at eq
      rw [h.alone inside ut] at eq
      cases eq
  · intro none
    exact quiet (by simpa using none t)

/-- The lock is no part of the record. -/
theorem Pend.withLock {chan : Chan} {m : Command} {lock : Lock} (h : Pend chan m) : Pend { chan with lock := lock } m :=
  ⟨h.number, h.issued, h.state⟩

theorem Quiet.withLock {chan : Chan} {lock : Lock} (h : Quiet chan) : Quiet { chan with lock := lock } :=
  ⟨h.notExpecting, h.value, h.signals, h.logged⟩

/-- `cmd_out` sets the flag: the command of `t` is the one on its way. -/
theorem Inv.issues (h : Inv c) {r : Request} {secsDone secsOp : Nat} (place : c.place t = .expect r secsDone secsOp) :
    Pend { c.chan with expectingIntr := true, issued := c.chan.issued + 1 } ⟨r, secsDone, secsOp, c.chan.issued + 1⟩ := by
  have none : ∀ u, (c.place u).pending = none := by
    intro u
    by_cases eq : u = t
    · rw [eq, place]
      rfl
    · exact h.alone (by rw [place]; rfl) eq
  have quiet := h.quiet none
  exact ⟨rfl, ⟨_, rfl, quiet.logged⟩, .inl ⟨rfl, quiet.value, quiet.signals⟩⟩

/-- `sema_down` for the command on its way: it sleeps, or it takes the signal of its own
command. -/
theorem Pend.await {m : Command} {chan chan' : Chan} {taken : Bool} (h : Pend chan m)
    (ran : awaitDone t m chan = .ok (taken, chan')) :
    (taken = false ∧ Pend chan' m) ∨ (taken = true ∧ Quiet chan') := by
  obtain ⟨n, issued, logged⟩ := h.issued
  obtain ⟨diskDone, down, rfl⟩ := awaitDone_ok ran
  rcases Locks.semaDown_ok.1 down with ⟨zero, -, rfl, rfl⟩ | ⟨one, rfl, rfl⟩
  · left
    refine ⟨rfl, h.number, h.issued, ?_⟩
    rcases h.state with waiting | ⟨-, one, -⟩
    · exact .inl waiting
    · omega
  · right
    rcases h.state with ⟨-, zero, -⟩ | ⟨notExpecting, -, signals⟩
    · omega
    · refine ⟨rfl, notExpecting, rfl, ?_, ?_⟩
      · simp [signals]
      · show chan.consumed ++ [(m.number, chan.signals.headD 0)] = _
        rw [logged, signals, h.number, issued]
        simp [List.range'_concat]
        omega

/-- The handler signals the command on its way once. -/
theorem Pend.interrupt {m : Command} {chan : Chan} (h : Pend chan m) :
    ∃ chan', intrHdHandler chan = .ok chan' ∧ Pend chan' m := by
  by_cases expecting : chan.expectingIntr = true
  · rcases h.state with ⟨-, zero, signals⟩ | ⟨not, -, -⟩
    · refine ⟨{ chan with
        expectingIntr := false
        diskDone := ⟨1, chan.diskDone.waiters.tail⟩
        signals := chan.signals ++ [chan.issued] }, ?_, ?_⟩
      · rw [intrHdHandler, if_pos expecting, Locks.semaUp_ok.2 ⟨zero, rfl⟩]
        rfl
      · refine ⟨h.number, h.issued, .inr ⟨rfl, rfl, ?_⟩⟩
        simp [signals]
    · rw [expecting] at not
      cases not
  · refine ⟨chan, ?_, h⟩
    rw [intrHdHandler, if_neg expecting]
    rfl

/-- An interrupt that no command waits for does nothing. -/
theorem Quiet.interrupt {chan : Chan} (h : Quiet chan) : intrHdHandler chan = .ok chan := by
  rw [intrHdHandler, h.notExpecting]
  rfl

theorem Inv.interrupt (h : Inv c) : ∃ chan, intrHdHandler c.chan = .ok chan ∧
    (∀ t m, (c.place t).pending = some m → Pend chan m) ∧ ((∀ t, (c.place t).pending = none) → Quiet chan) := by
  by_cases none : ∀ t, (c.place t).pending = none
  · refine ⟨c.chan, (h.quiet none).interrupt, h.pend, h.quiet⟩
  · obtain ⟨t, some⟩ := not_forall.1 none
    obtain ⟨m, pending⟩ := Option.ne_none_iff_exists'.1 some
    obtain ⟨chan, ran, pend⟩ := (h.pend t m pending).interrupt
    refine ⟨chan, ran, ?_, fun all => absurd all none⟩
    intro u m' pending'
    by_cases eq : u = t
    · subst eq
      rw [pending] at pending'
      cases pending'
      exact pend
    · rw [h.alone (depth_of_pending pending) eq] at pending'
      cases pending'

theorem Inv.step (h : Inv c) (step : Step c c') : Inv c' := by
  have lock : ∃ owner, Locks.Inv owner c'.lockConf := by
    obtain ⟨owner, lock⟩ := h.lock
    rcases h.lock_step step with same | step
    · rw [same]
      exact ⟨owner, lock⟩
    · exact lock.step step
  cases step with
  | call t r idle lba cnt =>
    refine h.records lock ?_ (by rintro _ ⟨⟩) (by rw [idle]; rfl) (fun _ pend => pend) fun quiet => quiet
    intro r' q eq
    cases eq
    simp [Locks.Place.Acquires]
  | run t ready busy awake ran =>
    have moved := ideStep_moved busy ran
    clear ran
    generalize place : c.place t = p at moved
    cases moved with
    | @acquire r p q l ran =>
      refine h.records lock ?_ ?_ ?_ (fun _ => Pend.withLock) Quiet.withLock
      · intro r' q' eq
        rcases (h.acquires t r p place).next 0 ran with ⟨rfl, -⟩ | ⟨ne, acquires, -⟩
        · cases eq
        · rw [if_neg ne] at eq
          cases eq
          exact acquires
      · intro q' eq
        split at eq <;> cases eq
      · rw [place]
        split <;> rfl
    | @release p q l ran =>
      refine h.records lock ?_ ?_ ?_ (fun _ => Pend.withLock) Quiet.withLock
      · intro r' q' eq
        split at eq <;> cases eq
      · intro q' eq
        rcases (h.releases t p place).next 1 ran with ⟨rfl, -⟩ | ⟨ne, releases, -⟩
        · cases eq
        · rw [if_neg ne] at eq
          cases eq
          exact releases
      · rw [place]
        split <;> rfl
    | finish =>
      refine h.records lock (by rintro _ _ ⟨⟩) ?_ (by rw [place]; rfl) (fun _ pend => pend) fun quiet => quiet
      intro q eq
      cases eq
      simp [Locks.Place.Releases]
    | plain outside depth pending goes =>
      refine h.records lock ?_ (fun q eq => absurd eq (goes q)) (by rw [place, pending]) (fun _ pend => pend)
        fun quiet => quiet
      intro r q eq
      rw [eq] at depth
      cases depth.2
    | expect =>
      refine h.records_of_inside lock (by rw [place]; rfl) (by rintro _ _ ⟨⟩) (by rintro _ ⟨⟩) ?_ (by rintro ⟨⟩)
      intro m eq
      cases eq
      exact h.issues place
    | @down m taken chan' ran =>
      have awaited := (h.pend t m (by rw [place]; rfl)).await ran
      refine h.records_of_inside lock (by rw [place]; rfl) ?_ ?_ ?_ ?_
      · intro r q eq
        split at eq
        · cases eq
        · split at eq <;> cases eq
      · intro q eq
        split at eq
        · cases eq
        · split at eq <;> cases eq
      · intro m' eq
        rcases awaited with ⟨rfl, pend⟩ | ⟨rfl, -⟩
        · cases eq
          exact pend
        · by_cases write : m.request.write <;> simp [write, Place.pending] at eq
      · intro none
        rcases awaited with ⟨rfl, -⟩ | ⟨-, quiet⟩
        · cases none
        · exact quiet
  | interrupt ran =>
    obtain ⟨chan, ran', pend, quiet⟩ := h.interrupt
    rw [ran] at ran'
    cases ran'
    exact ⟨lock, h.acquires, h.releases, pend, quiet⟩

theorem Inv.kept (h : Inv c) : Kept c := by
  obtain ⟨owner, lock⟩ := h.lock
  have current : ∀ t m, (c.place t).pending = some m →
      m.number = c.chan.issued ∧ c.chan.issued = c.chan.consumed.length + 1 ∧ c.chan.Logged c.chan.consumed.length := by
    intro t m pending
    have pend := h.pend t m pending
    obtain ⟨n, issued, logged⟩ := pend.issued
    have length : c.chan.consumed.length = n := by simp [show c.chan.consumed = _ from logged]
    exact ⟨pend.number, by omega, length.symm ▸ logged⟩
  have finished : (∀ t, (c.place t).pending = none) →
      c.chan.issued = c.chan.consumed.length ∧ c.chan.Logged c.chan.consumed.length := by
    intro none
    have quiet := h.quiet none
    have length : c.chan.consumed.length = c.chan.issued := by simp [show c.chan.consumed = _ from quiet.logged]
    exact ⟨length.symm, length.symm ▸ quiet.logged⟩
  constructor
  · obtain ⟨chan, ran, -⟩ := h.interrupt
    exact ⟨chan, ran⟩
  · intro t m place awake
    have pend := h.pend t m (by rw [place]; rfl)
    rcases pend.state with ⟨-, zero, -⟩ | ⟨-, one, -⟩
    · exact ⟨_, by rw [awaitDone, Locks.semaDown_ok.2 (.inl ⟨zero, awake, rfl, rfl⟩)]; rfl⟩
    · exact ⟨_, by rw [awaitDone, Locks.semaDown_ok.2 (.inr ⟨one, rfl, rfl⟩)]; rfl⟩
  · intro t u m m' pending pending'
    exact lock.excludes.one t u (inside_of_depth (depth_of_pending pending)) (inside_of_depth (depth_of_pending pending'))
  · by_cases none : ∀ t, (c.place t).pending = none
    · exact (finished none).2
    · obtain ⟨t, some⟩ := not_forall.1 none
      obtain ⟨m, pending⟩ := Option.ne_none_iff_exists'.1 some
      exact (current t m pending).2.2
  · intro t m pending
    exact ⟨(current t m pending).1, (current t m pending).2.1⟩
  · exact fun none => (finished none).1

end Steps

/-- In every state that any threads and any interrupts reach, the protocol is kept. -/
theorem disk_protocol {c : Conf} (run : Runs Conf.init c) : Kept c := by
  have inv : Inv c := by
    induction run with
    | refl => exact Inv.init
    | tail _ step ih => exact ih.step step
  exact inv.kept

/-- The interrupt of a write comes twice before the thread waits for it. -/
theorem disk_protocol_early : ∃ c, Runs Conf.init c ∧ c.place 1 = .command ⟨⟨true, 2, 1⟩, 0, 1, 1⟩ ∧
    c.chan.diskDone.value = 1 ∧ Kept c := by
  have called : Runs Conf.init _ := .single (Step.call 1 ⟨true, 2, 1⟩ rfl (by decide) (by decide))
  have tested := called.tail (Step.run 1 true nofun ⟨nofun, nofun⟩ rfl)
  have taken := tested.tail (Step.run 1 true nofun ⟨nofun, nofun⟩ rfl)
  have claimed := taken.tail (Step.run 1 true nofun ⟨nofun, nofun⟩ rfl)
  have checked := claimed.tail (Step.run 1 true nofun ⟨nofun, nofun⟩ rfl)
  have locked := checked.tail (Step.run 1 true nofun ⟨nofun, nofun⟩ rfl)
  have selected := locked.tail (Step.run 1 true nofun ⟨nofun, nofun⟩ rfl)
  have expecting := selected.tail (Step.run 1 true nofun ⟨nofun, nofun⟩ rfl)
  have signalled := expecting.tail (Step.interrupt rfl)
  have again := signalled.tail (Step.interrupt rfl)
  exact ⟨_, again, rfl, rfl, disk_protocol again⟩

end Sparrow.Channel
