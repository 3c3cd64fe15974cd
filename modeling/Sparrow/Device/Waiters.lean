import Sparrow.Device.Ioqueue
import Sparrow.Lib.Ring
import Sparrow.Thread.Lock

/-!
# Threads that share a ring buffer

`ioq_getchar` and `ioq_putchar` of `device/ioqueue.c` by any number of threads. Both run with
interrupts off, so a call runs until it returns or sleeps: in `lock_acquire` when another
thread holds the lock of the queue, and in `ioq_wait` with the lock held. When it is woken it
runs on in the same way.

A thread that finds the queue empty and then has to wait for the lock does not look again
before it registers as the consumer. `StillWaits` excludes that something has come in the
meantime. A call that does not sleep is one of `Sparrow.Device.Ioqueue` (`attempt_alone`).
-/

namespace Sparrow.Queues
set_option autoImplicit false

open Locks (Lock lockInit takeLock)

/-- A call of `ioq_getchar` or `ioq_putchar`. -/
inductive Job where
  | get
  | put (byte : Byte)
  deriving DecidableEq, Repr

/-- Where a call sleeps. -/
inductive Place where
  /-- No call. -/
  | idle
  /-- In the `sema_down` of `lock_acquire(&ioq->lock)`. -/
  | locking (job : Job)
  /-- In `ioq_wait`. -/
  | waiting (job : Job)
  deriving DecidableEq, Repr

/-- `struct ioqueue`, with the bytes put by calls that have returned and the bytes that calls
have returned. -/
structure Queue where
  data : Ioqueue
  lock : Lock
  producer : Option Nat
  consumer : Option Nat
  accepted : List Byte
  returned : List Byte

/-- `ioqueue_init`. -/
def Queue.init : Queue := ⟨ioqueueInit, lockInit, none, none, [], []⟩

/-- `ioq_empty`. -/
def ioqEmpty (q : Queue) : Prop := q.data.head = q.data.tail

/-- `ioq_full`. -/
def ioqFull (q : Queue) : Prop := nextPos q.data.head = q.data.tail

instance (q : Queue) : Decidable (ioqEmpty q) := inferInstanceAs (Decidable (_ = _))

instance (q : Queue) : Decidable (ioqFull q) := inferInstanceAs (Decidable (_ = _))

/-- The loop of the call goes on. -/
def Blocks (q : Queue) : Job → Prop
  | .get => ioqEmpty q
  | .put _ => ioqFull q

instance (q : Queue) : (job : Job) → Decidable (Blocks q job)
  | .get => inferInstanceAs (Decidable (ioqEmpty q))
  | .put _ => inferInstanceAs (Decidable (ioqFull q))

/-- `ioq_wait`. -/
def ioqWait (t : Nat) (q : Queue) : Job → Exec (Place × Queue)
  | .get => do
    assertThat (q.consumer = none)
    return (.waiting .get, { q with consumer := some t })
  | .put byte => do
    assertThat (q.producer = none)
    return (.waiting (.put byte), { q with producer := some t })

/-- After `lock_acquire`: the call has the lock and waits, or it sleeps for the lock. -/
def waitWith (t : Nat) (job : Job) (q : Queue) (got : Bool × Lock) : Exec (Place × Queue) :=
  if got.1 then ioqWait t { q with lock := got.2 } job else return (.locking job, { q with lock := got.2 })

/-- After the loop. `wakeup` leaves `NULL` where it was called, and nothing is there otherwise. -/
def transfer (q : Queue) : Job → Queue
  | .get => { q with
      data := { q.data with tail := nextPos q.data.tail }
      producer := none
      returned := q.returned ++ [q.data.buf q.data.tail] }
  | .put byte => { q with
      data := { q.data with buf := Function.update q.data.buf q.data.head byte, head := nextPos q.data.head }
      consumer := none
      accepted := q.accepted ++ [byte] }

/-- The test of the loop and what follows. -/
def attempt (t : Nat) (q : Queue) (job : Job) : Exec (Place × Queue) :=
  if Blocks q job then do
    let got ← Locks.lockAcquire t q.lock
    waitWith t job q got
  else return (.idle, transfer q job)

/-- A call runs on after it was woken. -/
def resume (t : Nat) (q : Queue) : Place → Exec (Place × Queue)
  | .idle => return (.idle, q)
  | .locking job => do
    let got ← takeLock t q.lock
    waitWith t job q got
  | .waiting job => do
    let lock ← Locks.lockRelease t q.lock
    attempt t { q with lock := lock } job

/-- Nobody has woken the call yet. -/
def Asleep (t : Nat) (q : Queue) : Place → Prop
  | .idle => True
  | .locking _ => t ∈ q.lock.semaphore.waiters
  | .waiting .get => q.consumer = some t
  | .waiting (.put _) => q.producer = some t

/-- A queue and the threads that use it. -/
structure Conf where
  queue : Queue
  place : Nat → Place

/-- The states reached by calls in any order, in which a thread `t` runs on only when `ok`. -/
inductive Reachable (ok : Conf → Nat → Prop) : Conf → Prop where
  | init : Reachable ok ⟨Queue.init, fun _ => .idle⟩
  | call {c : Conf} (before : Reachable ok c) (t : Nat) (job : Job) {p : Place} {q : Queue} (idle : c.place t = .idle)
    (ran : attempt t c.queue job = .ok (p, q)) : Reachable ok ⟨q, Function.update c.place t p⟩
  | resume {c : Conf} (before : Reachable ok c) (t : Nat) {p : Place} {q : Queue}
    (awake : ¬ Asleep t c.queue (c.place t)) (allowed : ok c t) (ran : resume t c.queue (c.place t) = .ok (p, q)) :
    Reachable ok ⟨q, Function.update c.place t p⟩

/-- The contents between `tail` and `head`. -/
def Queue.contents (q : Queue) : List Byte := Ring.between ioqBufsize q.data.buf q.data.tail q.data.head

/-- The queue as a ring buffer. -/
structure Fifo (q : Queue) : Prop where
  headLt : q.data.head < ioqBufsize
  tailLt : q.data.tail < ioqBufsize
  bytes : q.accepted = q.returned ++ q.contents

/-- Nobody sleeps on a queue that has what it waits for. -/
def Tidy (q : Queue) : Prop := (q.consumer ≠ none → ioqEmpty q) ∧ (q.producer ≠ none → ioqFull q)

/-- The lock and the two slots: the thread that sleeps in `ioq_wait` holds the lock. -/
structure Inv (c : Conf) : Prop where
  fifo : Fifo c.queue
  holder : ∀ t, c.queue.lock.holder = some t ↔ ∃ job, c.place t = .waiting job
  value : c.queue.lock.semaphore.value = if c.queue.lock.holder = none then 1 else 0
  repeatNr : c.queue.lock.holderRepeatNr = if c.queue.lock.holder = none then 0 else 1
  consumer : ∀ t, c.queue.consumer = some t → c.place t = .waiting .get
  producer : ∀ t, c.queue.producer = some t → ∃ byte, c.place t = .waiting (.put byte)
  asleep : ∀ t ∈ c.queue.lock.semaphore.waiters, ∃ job, c.place t = .locking job

section Steps

variable {c : Conf} {t : Nat} {job : Job} {q : Queue}

theorem Fifo.init : Fifo Queue.init := by
  refine ⟨by decide, by decide, ?_⟩
  show [] = [] ++ Ring.between _ _ 0 0
  rw [Ring.between_self]
  rfl

/-- The lock and the slots are no part of it. -/
theorem Fifo.congr {q' : Queue} (h : Fifo q) (data : q'.data = q.data) (accepted : q'.accepted = q.accepted)
    (returned : q'.returned = q.returned) : Fifo q' := by
  refine ⟨data ▸ h.headLt, data ▸ h.tailLt, ?_⟩
  rw [accepted, returned, h.bytes, Queue.contents, Queue.contents, data]

/-- A call that returns keeps the order. -/
theorem Fifo.transfer (h : Fifo q) (goes : ¬ Blocks q job) : Fifo (transfer q job) := by
  cases job with
  | get =>
    refine ⟨h.headLt, Ring.next_lt h.tailLt, ?_⟩
    have take : q.contents = _ := Ring.between_take h.headLt h.tailLt goes
    show q.accepted = q.returned ++ [q.data.buf q.data.tail] ++
      Ring.between ioqBufsize q.data.buf (Ring.next ioqBufsize q.data.tail) q.data.head
    rw [h.bytes, take, List.append_assoc]
    rfl
  | put byte =>
    refine ⟨Ring.next_lt h.headLt, h.tailLt, ?_⟩
    have put : Ring.between ioqBufsize (Function.update q.data.buf q.data.head byte) q.data.tail
        (Ring.next ioqBufsize q.data.head) = q.contents ++ [byte] := Ring.between_put h.headLt h.tailLt goes
    show q.accepted ++ [byte] = q.returned ++ Ring.between ioqBufsize (Function.update q.data.buf q.data.head byte)
      q.data.tail (Ring.next ioqBufsize q.data.head)
    rw [h.bytes, put, List.append_assoc]

theorem Inv.init : Inv ⟨Queue.init, fun _ => .idle⟩ := by
  refine ⟨Fifo.init, ?_, rfl, rfl, ?_, ?_, ?_⟩
  · intro t
    constructor
    · intro eq
      cases eq
    · rintro ⟨job, eq⟩
      cases eq
  · intro t eq
    cases eq
  · intro t eq
    cases eq
  · intro t mem
    cases mem

/-- A thread outside `ioq_wait` does not hold the lock. -/
theorem Inv.not_holder (h : Inv c) (notWaiting : ∀ job, c.place t ≠ .waiting job) :
    c.queue.lock.holder ≠ some t := by
  intro eq
  obtain ⟨job, place⟩ := (h.holder t).1 eq
  exact notWaiting job place

/-- A call returns. -/
theorem Inv.returns (h : Inv c) (notWaiting : ∀ job, c.place t ≠ .waiting job) (awake : t ∉ c.queue.lock.semaphore.waiters)
    (goes : ¬ Blocks c.queue job) : Inv ⟨transfer c.queue job, Function.update c.place t .idle⟩ := by
  have others : ∀ u, (∃ job, Function.update c.place t .idle u = .waiting job) ↔ ∃ job, c.place u = .waiting job := by
    intro u
    by_cases eq : u = t
    · subst eq
      simpa using notWaiting
    · simp [eq]
  have slots : ∀ u job, c.place u = .waiting job → Function.update c.place t .idle u = .waiting job := by
    intro u job place
    have ne : u ≠ t := fun eq => notWaiting job (eq ▸ place)
    simpa [ne] using place
  have lock : (transfer c.queue job).lock = c.queue.lock := by cases job <;> rfl
  refine ⟨h.fifo.transfer goes, ?_, ?_, ?_, ?_, ?_, ?_⟩
  · intro u
    rw [lock, others u]
    exact h.holder u
  · rw [lock]
    exact h.value
  · rw [lock]
    exact h.repeatNr
  · intro u eq
    cases job with
    | get => exact slots u _ (h.consumer u eq)
    | put byte => cases eq
  · intro u eq
    cases job with
    | get => cases eq
    | put byte =>
      obtain ⟨byte', place⟩ := h.producer u eq
      exact ⟨byte', slots u _ place⟩
  · intro u mem
    rw [lock] at mem
    have ne : u ≠ t := fun eq => awake (eq ▸ mem)
    simpa [ne] using h.asleep u mem

/-- The lock is taken: the caller sleeps for it. -/
theorem Inv.queueUp (h : Inv c) (notWaiting : ∀ job, c.place t ≠ .waiting job) :
    Inv ⟨{ c.queue with lock := { c.queue.lock with semaphore :=
        { c.queue.lock.semaphore with waiters := c.queue.lock.semaphore.waiters ++ [t] } } },
      Function.update c.place t (.locking job)⟩ := by
  refine ⟨h.fifo.congr rfl rfl rfl, ?_, h.value, h.repeatNr, ?_, ?_, ?_⟩
  · intro u
    show c.queue.lock.holder = some u ↔ _
    rw [h.holder u]
    by_cases eq : u = t
    · subst eq
      simpa using notWaiting
    · simp [eq]
  · intro u eq
    have place := h.consumer u eq
    have ne : u ≠ t := fun eq => notWaiting _ (eq ▸ place)
    simpa [ne] using place
  · intro u eq
    obtain ⟨byte, place⟩ := h.producer u eq
    have ne : u ≠ t := fun eq => notWaiting _ (eq ▸ place)
    exact ⟨byte, by simpa [ne] using place⟩
  · intro u mem
    by_cases eq : u = t
    · subst eq
      exact ⟨job, by simp⟩
    · rcases List.mem_append.1 mem with old | new
      · simpa [eq] using h.asleep u old
      · exact absurd (List.mem_singleton.1 new) eq

/-- The slot of a call. -/
def Queue.register (q : Queue) (t : Nat) (lock : Lock) : Job → Queue
  | .get => { q with lock := lock, consumer := some t }
  | .put _ => { q with lock := lock, producer := some t }

/-- Nobody is registered while the lock is free. -/
theorem Inv.slots_free (h : Inv c) (free : c.queue.lock.holder = none) :
    c.queue.consumer = none ∧ c.queue.producer = none := by
  constructor
  · cases eq : c.queue.consumer with
    | none => rfl
    | some u =>
      have holds := (h.holder u).2 ⟨_, h.consumer u eq⟩
      rw [free] at holds
      cases holds
  · cases eq : c.queue.producer with
    | none => rfl
    | some u =>
      obtain ⟨byte, place⟩ := h.producer u eq
      have holds := (h.holder u).2 ⟨_, place⟩
      rw [free] at holds
      cases holds

/-- The lock is free: the caller takes it and waits. -/
theorem Inv.registers (h : Inv c) (notWaiting : ∀ job, c.place t ≠ .waiting job)
    (awake : t ∉ c.queue.lock.semaphore.waiters) (free : c.queue.lock.holder = none) :
    Inv ⟨c.queue.register t ⟨some t, 1, ⟨0, c.queue.lock.semaphore.waiters⟩⟩ job,
      Function.update c.place t (.waiting job)⟩ := by
  obtain ⟨noConsumer, noProducer⟩ := h.slots_free free
  have nobody : ∀ u job, c.place u ≠ .waiting job := by
    intro u job place
    have holds := (h.holder u).2 ⟨job, place⟩
    rw [free] at holds
    cases holds
  have lock : (c.queue.register t ⟨some t, 1, ⟨0, c.queue.lock.semaphore.waiters⟩⟩ job).lock =
      ⟨some t, 1, ⟨0, c.queue.lock.semaphore.waiters⟩⟩ := by cases job <;> rfl
  refine ⟨h.fifo.congr ?_ ?_ ?_, ?_, ?_, ?_, ?_, ?_, ?_⟩
  · cases job <;> rfl
  · cases job <;> rfl
  · cases job <;> rfl
  · intro u
    simp only [lock, Option.some.injEq]
    by_cases eq : u = t
    · subst eq
      simp
    · simpa [eq, Ne.symm eq] using nobody u
  · simp [lock]
  · simp [lock]
  · intro u eq
    cases job with
    | get =>
      cases eq
      simp
    | put byte =>
      have none : c.queue.consumer = some u := eq
      rw [noConsumer] at none
      cases none
  · intro u eq
    cases job with
    | get =>
      have none : c.queue.producer = some u := eq
      rw [noProducer] at none
      cases none
    | put byte =>
      cases eq
      exact ⟨byte, by simp⟩
  · intro u mem
    rw [lock] at mem
    have ne : u ≠ t := fun eq => awake (eq ▸ mem)
    simpa [ne] using h.asleep u mem

theorem tidy_register {lock : Lock} (noConsumer : q.consumer = none) (noProducer : q.producer = none)
    (blocks : Blocks q job) : Tidy (q.register t lock job) := by
  cases job with
  | get => exact ⟨fun _ => blocks, fun some => absurd noProducer some⟩
  | put byte => exact ⟨fun some => absurd noConsumer some, fun _ => blocks⟩

/-- A caller that cannot go on gets the lock and waits, or sleeps for the lock. -/
theorem Inv.waits (h : Inv c) (job : Job) (notWaiting : ∀ job, c.place t ≠ .waiting job)
    (awake : t ∉ c.queue.lock.semaphore.waiters) : ∃ got r, takeLock t c.queue.lock = .ok got ∧
      waitWith t job c.queue got = .ok r ∧ Inv ⟨r.2, Function.update c.place t r.1⟩ ∧
      ((c.queue.lock.semaphore.value ≠ 0 → Blocks c.queue job) → Tidy c.queue → Tidy r.2) := by
  by_cases free : c.queue.lock.holder = none
  · have one : c.queue.lock.semaphore.value = 1 := by rw [h.value, if_pos free]
    have zero : c.queue.lock.holderRepeatNr = 0 := by rw [h.repeatNr, if_pos free]
    obtain ⟨noConsumer, noProducer⟩ := h.slots_free free
    have took : takeLock t c.queue.lock = .ok (true, ⟨some t, 1, ⟨0, c.queue.lock.semaphore.waiters⟩⟩) := by
      rw [takeLock, Locks.semaDown_ok.2 (.inr ⟨one, rfl, rfl⟩), ok_bind]
      simp only [if_true, assertThat_of zero]
      rfl
    refine ⟨_, (.waiting job, c.queue.register t ⟨some t, 1, ⟨0, c.queue.lock.semaphore.waiters⟩⟩ job), took, ?_,
      h.registers notWaiting awake free, fun blocks _ => tidy_register noConsumer noProducer (blocks (by omega))⟩
    cases job with
    | get =>
      simp only [waitWith, if_true, ioqWait, assertThat_of noConsumer]
      rfl
    | put byte =>
      simp only [waitWith, if_true, ioqWait, assertThat_of noProducer]
      rfl
  · have zero : c.queue.lock.semaphore.value = 0 := by rw [h.value, if_neg free]
    refine ⟨(false, _), (.locking job, _), ?_, rfl, h.queueUp notWaiting, fun _ tidy => tidy⟩
    rw [takeLock, Locks.semaDown_ok.2 (.inl ⟨zero, awake, rfl, rfl⟩), ok_bind]
    rfl

theorem Tidy.transfer (h : Tidy q) (goes : ¬ Blocks q job) : Tidy (transfer q job) := by
  cases job with
  | get => exact ⟨fun some => absurd (h.1 some) goes, fun none => absurd rfl none⟩
  | put byte => exact ⟨fun none => absurd rfl none, fun some => absurd (h.2 some) goes⟩

/-- What a call does to the ring buffer where no other thread has a part in it. -/
def alone (q : Ioqueue) : Job → Exec (List Byte × Ioqueue)
  | .get => do
    let (byte, q) ← ioqGetchar q
    return ([byte], q)
  | .put byte => do
    let q ← ioqPutchar q byte
    return ([], q)

/-- **A call that does not sleep** does what `ioq_getchar` and `ioq_putchar` do alone, and one that would
block alone goes to sleep. -/
theorem attempt_alone (t : Nat) (q : Queue) (job : Job) :
    (∃ got data, alone q.data job = .ok (got, data) ∧
      ∃ q', attempt t q job = .ok (.idle, q') ∧ q'.data = data ∧ q'.returned = q.returned ++ got) ∨
    alone q.data job = .error .blocked ∧ Blocks q job := by
  by_cases blocks : Blocks q job
  · refine .inr ⟨?_, blocks⟩
    cases job with
    | get =>
      rw [alone, ioqGetchar, if_pos (show q.data.head = q.data.tail from blocks)]
      rfl
    | put byte =>
      rw [alone, ioqPutchar, if_pos (show nextPos q.data.head = q.data.tail from blocks)]
      rfl
  · left
    have goes : attempt t q job = .ok (.idle, transfer q job) := by
      rw [Queues.attempt, if_neg blocks]
      rfl
    cases job with
    | get =>
      refine ⟨[q.data.buf q.data.tail], { q.data with tail := nextPos q.data.tail }, ?_, _, goes, rfl, rfl⟩
      rw [alone, ioqGetchar, if_neg (show ¬ q.data.head = q.data.tail from blocks)]
      rfl
    | put byte =>
      refine ⟨[], { q.data with buf := Function.update q.data.buf q.data.head byte, head := nextPos q.data.head }, ?_, _, goes, rfl,
        (List.append_nil _).symm⟩
      have stored : Function.update q.data.buf q.data.head byte = fun i => if i = q.data.head then byte else q.data.buf i := by
        funext i
        simp [Function.update_apply]
      rw [alone, ioqPutchar, if_neg (show ¬ nextPos q.data.head = q.data.tail from blocks), stored]
      rfl

/-- A thread that is neither asleep nor inside a wait makes its call. -/
theorem Inv.attempt (h : Inv c) (job : Job) (notWaiting : ∀ job, c.place t ≠ .waiting job)
    (awake : t ∉ c.queue.lock.semaphore.waiters) : ∃ r, attempt t c.queue job = .ok r ∧
      Inv ⟨r.2, Function.update c.place t r.1⟩ ∧ (Tidy c.queue → Tidy r.2) := by
  by_cases blocks : Blocks c.queue job
  · obtain ⟨got, r, took, waits, inv, tidy⟩ := h.waits job notWaiting awake
    refine ⟨r, ?_, inv, tidy fun _ => blocks⟩
    rw [Queues.attempt, if_pos blocks, Locks.lockAcquire, if_pos (h.not_holder notWaiting), took]
    exact waits
  · refine ⟨_, by rw [Queues.attempt, if_neg blocks]; rfl, h.returns notWaiting awake blocks, fun tidy => ?_⟩
    exact tidy.transfer blocks

/-- The call that was woken in `ioq_wait` gives the lock back. -/
theorem Inv.release (h : Inv c) (place : c.place t = .waiting job) (awake : ¬ Asleep t c.queue (c.place t)) :
    ∃ lock, Locks.lockRelease t c.queue.lock = .ok lock ∧ t ∉ lock.semaphore.waiters ∧
      Inv ⟨{ c.queue with lock := lock }, Function.update c.place t .idle⟩ := by
  have holds : c.queue.lock.holder = some t := (h.holder t).2 ⟨job, place⟩
  have one : c.queue.lock.holderRepeatNr = 1 := by
    rw [h.repeatNr, if_neg]
    simp [holds]
  have zero : c.queue.lock.semaphore.value = 0 := by
    rw [h.value, if_neg]
    simp [holds]
  have notWaiter : t ∉ c.queue.lock.semaphore.waiters := by
    intro mem
    obtain ⟨job', locking⟩ := h.asleep t mem
    rw [place] at locking
    cases locking
  have only : ∀ u job, c.place u = .waiting job → u = t := by
    intro u job' place'
    have holds' := (h.holder u).2 ⟨job', place'⟩
    rw [holds] at holds'
    exact (Option.some.inj holds').symm
  refine ⟨⟨none, 0, ⟨1, c.queue.lock.semaphore.waiters.tail⟩⟩, ?_, ?_, ?_⟩
  · rw [Locks.lockRelease, assertThat_of holds, ok_bind, if_neg (by omega), assertThat_of one, ok_bind,
      Locks.semaUp_ok.2 ⟨zero, rfl⟩]
    rfl
  · exact fun mem => notWaiter (List.mem_of_mem_tail mem)
  · refine ⟨h.fifo.congr rfl rfl rfl, ?_, rfl, rfl, ?_, ?_, ?_⟩
    · intro u
      refine ⟨by rintro ⟨⟩, ?_⟩
      rintro ⟨job', place'⟩
      by_cases eq : u = t
      · subst eq
        simp at place'
      · exact absurd (only u job' (by simpa [eq] using place')) eq
    · intro u eq
      have consumer : c.queue.consumer = some u := eq
      have place' := h.consumer u consumer
      have ut := only u _ place'
      subst ut
      rw [place'] at awake
      exact absurd consumer awake
    · intro u eq
      have producer : c.queue.producer = some u := eq
      obtain ⟨byte, place'⟩ := h.producer u producer
      have ut := only u _ place'
      subst ut
      rw [place'] at awake
      exact absurd producer awake
    · intro u mem
      have old := List.mem_of_mem_tail mem
      have ne : u ≠ t := fun eq => notWaiter (eq ▸ old)
      simpa [ne] using h.asleep u old

/-- The lock is free and the call that gets it finds the queue as it left it. -/
def StillWaits (c : Conf) (t : Nat) : Prop :=
  ∀ job, c.place t = .locking job → c.queue.lock.semaphore.value ≠ 0 → Blocks c.queue job

/-- A call that was woken runs on. -/
theorem Inv.resume (h : Inv c) (awake : ¬ Asleep t c.queue (c.place t)) : ∃ r, resume t c.queue (c.place t) = .ok r ∧
    Inv ⟨r.2, Function.update c.place t r.1⟩ ∧ (StillWaits c t → Tidy c.queue → Tidy r.2) := by
  cases place : c.place t with
  | idle =>
    rw [place] at awake
    exact absurd trivial awake
  | locking job =>
    rw [place] at awake
    obtain ⟨got, r, took, waits, inv, tidy⟩ := h.waits (t := t) job (by simp [place]) awake
    refine ⟨r, ?_, inv, fun still => tidy (still job place)⟩
    rw [Queues.resume, took]
    exact waits
  | waiting job =>
    obtain ⟨lock, released, notWaiter, inv⟩ := h.release place awake
    obtain ⟨r, ran, inv', tidy⟩ := inv.attempt (t := t) job (by simp) notWaiter
    refine ⟨r, ?_, by simpa using inv', fun _ => tidy⟩
    rw [Queues.resume, released]
    exact ran

end Steps

section Runs

variable {ok : Conf → Nat → Prop} {c : Conf}

/-- A thread without a call is in no list of waiters. -/
theorem Inv.awake_idle {t : Nat} (h : Inv c) (idle : c.place t = .idle) : t ∉ c.queue.lock.semaphore.waiters := by
  intro mem
  obtain ⟨job, locking⟩ := h.asleep t mem
  rw [idle] at locking
  cases locking

theorem Reachable.inv (h : Reachable ok c) : Inv c := by
  induction h with
  | init => exact Inv.init
  | @call c _ t job p q idle ran ih =>
    obtain ⟨r, ran', inv, -⟩ := ih.attempt job (by simp [idle]) (ih.awake_idle idle)
    rw [ran] at ran'
    cases ran'
    exact inv
  | @resume c _ t p q awake _ ran ih =>
    obtain ⟨r, ran', inv, -⟩ := ih.resume awake
    rw [ran] at ran'
    cases ran'
    exact inv

/-- The bytes come out in the order in which they went in, what has not come out is between
`tail` and `head`, and every call that can run returns or sleeps. -/
theorem queue_fifo (h : Reachable (fun _ _ => True) c) :
    c.queue.returned <+: c.queue.accepted ∧
    c.queue.accepted = c.queue.returned ++ c.queue.contents ∧
    ioqLength c.queue.data = c.queue.contents.length ∧
    ioqLength c.queue.data ≤ 2047 ∧
    (∀ t job, c.place t = .idle → ∃ r, attempt t c.queue job = .ok r) ∧
    ∀ t, ¬ Asleep t c.queue (c.place t) → ∃ r, resume t c.queue (c.place t) = .ok r := by
  have inv := h.inv
  have length : c.queue.contents.length = ioqLength c.queue.data := Ring.length_between inv.fifo.headLt inv.fifo.tailLt
  refine ⟨⟨_, inv.fifo.bytes.symm⟩, inv.fifo.bytes, length.symm, ?_, ?_, ?_⟩
  · exact Nat.le_of_lt_succ (Ring.distance_lt inv.fifo.headLt c.queue.data.tail)
  · intro t job idle
    obtain ⟨r, ran, -⟩ := inv.attempt job (by simp [idle]) (inv.awake_idle idle)
    exact ⟨r, ran⟩
  · intro t awake
    obtain ⟨r, ran, -⟩ := inv.resume awake
    exact ⟨r, ran⟩

/-- As long as no thread gets the lock after the queue has changed under it, nobody sleeps on
a queue that has what it waits for. -/
theorem no_sleep_on_data (h : Reachable StillWaits c) : Tidy c.queue := by
  induction h with
  | init => exact ⟨fun none => absurd rfl none, fun none => absurd rfl none⟩
  | @call c before t job p q idle ran ih =>
    obtain ⟨r, ran', -, tidy⟩ := before.inv.attempt job (by simp [idle]) (before.inv.awake_idle idle)
    rw [ran] at ran'
    cases ran'
    exact tidy ih
  | @resume c before t p q awake allowed ran ih =>
    obtain ⟨r, ran', -, tidy⟩ := before.inv.resume awake
    rw [ran] at ran'
    cases ran'
    exact tidy allowed ih

end Runs

section TwoConsumers

/-- The thread 1 waits for a byte and the thread 2 for the lock. -/
theorem both_wait (ok : Conf → Nat → Prop) : Reachable ok ⟨⟨ioqueueInit, ⟨some 1, 1, ⟨0, [2]⟩⟩, none, some 1, [], []⟩,
    Function.update (Function.update (fun _ => .idle) 1 (.waiting .get)) 2 (.locking .get)⟩ := by
  have first := (@Reachable.init ok).call 1 .get rfl rfl
  exact first.call 2 .get rfl rfl

theorem queue_fifo_contended : ∃ c, Reachable (fun _ _ => True) c ∧ c.queue.returned = [7#8] ∧
    c.queue.accepted = [7#8, 8#8] ∧ c.queue.contents = [8#8] ∧ ioqLength c.queue.data ≤ 2047 := by
  have put := (both_wait fun _ _ => True).call 3 (.put 7#8) rfl rfl
  have more := put.call 3 (.put 8#8) rfl rfl
  have woken := more.resume 1 nofun trivial rfl
  exact ⟨_, woken, rfl, rfl, rfl, (queue_fifo woken).2.2.2.1⟩

/-- The thread 2 gets the lock when the thread 1 has taken one of two bytes. -/
theorem sleeps_on_data : ∃ c, Reachable (fun _ _ => True) c ∧ ¬ Tidy c.queue := by
  have put := (both_wait fun _ _ => True).call 3 (.put 7#8) rfl rfl
  have more := put.call 3 (.put 8#8) rfl rfl
  have woken := more.resume 1 nofun trivial rfl
  have late := woken.resume 2 nofun trivial rfl
  refine ⟨_, late, ?_⟩
  intro tidy
  exact absurd (tidy.1 nofun) (by decide)

theorem no_sleep_on_data_contended : ∃ c, Reachable StillWaits c ∧ c.queue.consumer = some 1 ∧ Tidy c.queue :=
  ⟨_, both_wait StillWaits, rfl, no_sleep_on_data (both_wait StillWaits)⟩

end TwoConsumers

end Sparrow.Queues
