import Sparrow.Fs.Syscall
import Sparrow.Lib.Ring

/-!
# Reading and writing pipes

`pipe_read` and `pipe_write` of `shell/pipe.c` choose the smaller size, so as not to block.
Reading never does. The ring buffer holds one byte less than it has places, which `pipe_write`
does not take into account: `pipeTransfers` says for which counts it returns.
-/

namespace Sparrow
set_option autoImplicit false

/-- Both positions are inside the buffer. -/
structure Ioqueue.InRange (q : Ioqueue) : Prop where
  head : q.head < ioqBufsize
  tail : q.tail < ioqBufsize

/-- The bytes in the queue, the oldest first. -/
def Ioqueue.bytes (q : Ioqueue) : List Byte := Ring.between ioqBufsize q.buf q.tail q.head

/-- The bytes the queue can take: one place stays empty. -/
def Ioqueue.room (q : Ioqueue) : Nat := ioqBufsize - 1 - ioqLength q

section Queue

variable {q : Ioqueue}

theorem ioqueueInit_inRange : ioqueueInit.InRange := ⟨by decide, by decide⟩

/-- `ioq_length` counts the bytes. -/
theorem Ioqueue.InRange.length (wf : q.InRange) : q.bytes.length = ioqLength q := Ring.length_between wf.head wf.tail

theorem Ioqueue.InRange.length_lt (wf : q.InRange) : ioqLength q < ioqBufsize := Ring.distance_lt wf.head q.tail

/-- The queue is full when all places but one are taken. -/
theorem Ioqueue.InRange.full_iff (wf : q.InRange) : nextPos q.head = q.tail ↔ ioqLength q + 1 = ioqBufsize := by
  obtain ⟨head, tail⟩ := wf
  simp only [nextPos, ioqLength]
  simp only [ioqBufsize] at head tail ⊢
  split <;> omega

theorem ioqPutchar_spec (wf : q.InRange) (byte : Byte) :
    (ioqLength q + 1 = ioqBufsize ∧ ioqPutchar q byte = .error .blocked) ∨
      ∃ q', ioqPutchar q byte = .ok q' ∧ q'.InRange ∧ q'.bytes = q.bytes ++ [byte] := by
  by_cases full : nextPos q.head = q.tail
  · refine .inl ⟨wf.full_iff.1 full, ?_⟩
    rw [ioqPutchar, if_pos full]
    rfl
  · refine .inr ⟨{ q with buf := fun i => if i = q.head then byte else q.buf i, head := nextPos q.head },
      by rw [ioqPutchar, if_neg full]; rfl, ⟨Ring.next_lt wf.head, wf.tail⟩, ?_⟩
    rw [Ioqueue.bytes, Ioqueue.bytes, ← Ring.between_put wf.head wf.tail full]
    congr 1
    funext i
    rw [Function.update_apply]

/-- The loop of `pipe_write` stores the bytes when they fit, and sleeps otherwise. -/
theorem ioqPutAll_spec : ∀ (bytes : List Byte) {q : Ioqueue}, q.InRange →
    (ioqLength q + bytes.length < ioqBufsize → ∃ q', ioqPutAll q bytes = .ok q' ∧ q'.InRange ∧ q'.bytes = q.bytes ++ bytes) ∧
      (ioqBufsize ≤ ioqLength q + bytes.length → ioqPutAll q bytes = .error .blocked) := by
  intro bytes
  induction bytes with
  | nil =>
    intro q wf
    have lt := wf.length_lt
    refine ⟨fun _ => ⟨q, rfl, wf, (List.append_nil _).symm⟩, fun full => ?_⟩
    rw [List.length_nil] at full
    omega
  | cons byte rest ih =>
    intro q wf
    rw [ioqPutAll, List.length_cons]
    obtain ⟨full, blocked⟩ | ⟨q1, put, wf1, is1⟩ := ioqPutchar_spec wf byte
    · refine ⟨fun fits => by omega, fun _ => ?_⟩
      rw [blocked]
      rfl
    · have length : ioqLength q1 = ioqLength q + 1 := by
        rw [← wf1.length, ← wf.length, is1, List.length_append, List.length_singleton]
      obtain ⟨fit, block⟩ := ih wf1
      rw [length] at fit block
      rw [put, ok_bind]
      refine ⟨fun fits => ?_, fun full => block (by omega)⟩
      obtain ⟨q2, ran, wf2, is2⟩ := fit (by omega)
      exact ⟨q2, ran, wf2, by rw [is2, is1, List.append_assoc]; rfl⟩

theorem ioqGetchar_spec (wf : q.InRange) {byte : Byte} {rest : List Byte} (is : q.bytes = byte :: rest) :
    ∃ q', ioqGetchar q = .ok (byte, q') ∧ q'.InRange ∧ q'.bytes = rest := by
  have some : q.head ≠ q.tail := by
    intro e
    rw [Ioqueue.bytes, e, Ring.between_self] at is
    cases is
  have take : q.bytes = q.buf q.tail :: Ring.between ioqBufsize q.buf (Ring.next ioqBufsize q.tail) q.head :=
    Ring.between_take wf.head wf.tail some
  rw [is, List.cons.injEq] at take
  obtain ⟨rfl, rest'⟩ := take
  exact ⟨{ q with tail := nextPos q.tail }, by rw [ioqGetchar, if_neg some]; rfl, ⟨wf.head, Ring.next_lt wf.tail⟩, rest'.symm⟩

/-- The loop of `pipe_read` takes bytes that are there. -/
theorem ioqGetAll_spec : ∀ (size : Nat) {q : Ioqueue}, q.InRange → size ≤ q.bytes.length →
    ∃ q', ioqGetAll size q = .ok (q.bytes.take size, q') ∧ q'.InRange ∧ q'.bytes = q.bytes.drop size := by
  intro size
  induction size with
  | zero => exact fun wf _ => ⟨_, rfl, wf, rfl⟩
  | succ size ih =>
    intro q wf le
    obtain ⟨byte, rest, is⟩ := List.exists_cons_of_length_pos (Nat.lt_of_lt_of_le (Nat.succ_pos size) le)
    obtain ⟨q1, got, wf1, is1⟩ := ioqGetchar_spec wf is
    rw [is, List.length_cons, ← is1] at le
    obtain ⟨q2, ran, wf2, is2⟩ := ih wf1 (Nat.le_of_succ_le_succ le)
    rw [ioqGetAll, got, ok_bind]
    dsimp only
    rw [ran, is, ← is1]
    exact ⟨q2, rfl, wf2, is2⟩

/-- What was taken is not there any more. -/
theorem ioqGetAll_ok : ∀ (size : Nat) {q q' : Ioqueue} {bytes : List Byte}, q.InRange → ioqGetAll size q = .ok (bytes, q') →
    q'.InRange ∧ q'.bytes.length + size = q.bytes.length := by
  intro size
  induction size with
  | zero =>
    intro q q' bytes wf h
    cases h
    exact ⟨wf, rfl⟩
  | succ size ih =>
    intro q q' bytes wf h
    simp only [ioqGetAll, ioqGetchar, bind_ok, Prod.exists] at h
    obtain ⟨byte, q1, got, rest, q2, all, e⟩ := h
    split at got
    · exact (throw_ok.1 got).elim
    rename_i some
    cases got
    cases e
    obtain ⟨wf', length⟩ := ih (q := { q with tail := nextPos q.tail }) ⟨wf.head, Ring.next_lt wf.tail⟩ all
    have take : q.bytes = q.buf q.tail :: Ring.between ioqBufsize q.buf (Ring.next ioqBufsize q.tail) q.head :=
      Ring.between_take wf.head wf.tail some
    rw [take, List.length_cons]
    exact ⟨wf', congrArg Nat.succ length⟩

end Queue

/-- `pipe_write` stores what fits and says so. -/
def WritesWhatFits (σ : Sys) (globalFd : Nat) (buf : Image) (count : Nat) : Prop :=
  ∃ ioq, pipeWrite σ globalFd buf count = .ok ((min count (σ.pipes globalFd).room : Nat),
      { σ with pipes := fun i => if i = globalFd then ioq else σ.pipes i }) ∧
    ioq.InRange ∧ ioq.bytes = (σ.pipes globalFd).bytes ++ (List.range (min count (σ.pipes globalFd).room)).map buf

/-- `pipe_read` takes what is asked for and there, and says so. -/
def ReadsWhatIsThere (σ : Sys) (globalFd : Nat) (dst : Image) (count : Nat) : Prop :=
  ∃ ioq, pipeRead σ globalFd dst count = .ok ((min count (ioqLength (σ.pipes globalFd)) : Nat),
      splice dst 0 (min count (ioqLength (σ.pipes globalFd))) fun i => ((σ.pipes globalFd).bytes.take count).getD i 0#8,
      { σ with pipes := fun i => if i = globalFd then ioq else σ.pipes i }) ∧
    ioq.InRange ∧ ioq.bytes = (σ.pipes globalFd).bytes.drop count

section Transfers

variable {σ : Sys} {globalFd count : Nat}

theorem pipeWrite_iff (isPipe : (σ.fs.fileTable globalFd).fdInode = .pipe) (wf : (σ.pipes globalFd).InRange) (buf : Image) :
    WritesWhatFits σ globalFd buf count ↔ count ≤ (σ.pipes globalFd).room := by
  have lt := wf.length_lt
  constructor
  · rintro ⟨ioq, ran, -⟩
    by_contra more
    simp only [Ioqueue.room] at more
    have left : ¬ count < ioqBufsize - ioqLength (σ.pipes globalFd) := by omega
    have blocked := (ioqPutAll_spec ((List.range (ioqBufsize - ioqLength (σ.pipes globalFd))).map buf) wf).2 (by
      rw [List.length_map, List.length_range]
      omega)
    rw [pipeWrite, defined_of isPipe, ok_bind] at ran
    dsimp only at ran
    rw [if_neg left, blocked] at ran
    cases ran
  · intro le
    simp only [WritesWhatFits, Nat.min_eq_left le]
    simp only [Ioqueue.room] at le
    have left : count < ioqBufsize - ioqLength (σ.pipes globalFd) := by omega
    obtain ⟨ioq, ran, wf', is⟩ := (ioqPutAll_spec ((List.range count).map buf) wf).1 (by
      rw [List.length_map, List.length_range]
      omega)
    refine ⟨ioq, ?_, wf', is⟩
    rw [pipeWrite, defined_of isPipe, ok_bind]
    dsimp only
    rw [if_pos left, ran]
    rfl

theorem pipeRead_spec (isPipe : (σ.fs.fileTable globalFd).fdInode = .pipe) (wf : (σ.pipes globalFd).InRange) (dst : Image) :
    ReadsWhatIsThere σ globalFd dst count := by
  have size : (if count < ioqLength (σ.pipes globalFd) then count else ioqLength (σ.pipes globalFd)) =
      min count (ioqLength (σ.pipes globalFd)) := by
    split <;> omega
  obtain ⟨ioq, ran, wf', is⟩ := ioqGetAll_spec (min count (ioqLength (σ.pipes globalFd))) wf (by
    rw [wf.length]
    exact Nat.min_le_right _ _)
  have same : (σ.pipes globalFd).bytes.take (min count (ioqLength (σ.pipes globalFd))) = (σ.pipes globalFd).bytes.take count ∧
      (σ.pipes globalFd).bytes.drop (min count (ioqLength (σ.pipes globalFd))) = (σ.pipes globalFd).bytes.drop count := by
    rw [← wf.length]
    rcases Nat.le_total count (σ.pipes globalFd).bytes.length with le | ge
    · rw [Nat.min_eq_left le]
      exact ⟨rfl, rfl⟩
    · rw [Nat.min_eq_right ge, List.take_length, List.drop_length, List.take_of_length_le ge, List.drop_of_length_le ge]
      exact ⟨rfl, rfl⟩
  rw [same.1] at ran
  refine ⟨ioq, ?_, wf', is.trans same.2⟩
  rw [pipeRead, defined_of isPipe, ok_bind]
  dsimp only
  rw [size, ran, ok_bind]
  rfl

/-- For every pipe, `pipe_read` takes what is asked for and there, and `pipe_write` stores what
fits exactly when all that it is given fits. -/
theorem pipeTransfers (isPipe : (σ.fs.fileTable globalFd).fdInode = .pipe) (wf : (σ.pipes globalFd).InRange) (buf : Image) :
    ReadsWhatIsThere σ globalFd buf count ∧ (WritesWhatFits σ globalFd buf count ↔ count ≤ (σ.pipes globalFd).room) :=
  ⟨pipeRead_spec isPipe wf buf, pipeWrite_iff isPipe wf buf⟩

end Transfers

section Examples

/-- A system whose only open slot is the pipe in slot 3. -/
def onePipe : Sys where
  fs := ⟨zeros, ⟨0, zeros⟩, ⟨0, zeros⟩, fun _ => inodeInit 0, fun _ => none, 0, [], 0,
    fun i => if i = 3 then ⟨2, pipeFlag, .pipe⟩ else File.empty, []⟩
  procs := fun _ => ⟨true, -1, fun _ => 3, 0⟩
  live := [1]
  dirs := []
  nextDir := 1
  pipes := fun _ => ioqueueInit
  console := []

/-- The empty pipe takes 2047 bytes. -/
theorem pipeTransfers_empty : ReadsWhatIsThere onePipe 3 zeros 2047 ∧ WritesWhatFits onePipe 3 zeros 2047 := by
  obtain ⟨reads, writes⟩ := @pipeTransfers onePipe 3 2047 rfl ioqueueInit_inRange zeros
  exact ⟨reads, writes.2 (by decide)⟩

/-- It does not take 2048: the task would sleep with nobody to read. -/
theorem pipeWrite_blocks : ¬ ∀ (σ : Sys) (globalFd : Nat) (buf : Image) (count : Nat),
    (σ.fs.fileTable globalFd).fdInode = .pipe → (σ.pipes globalFd).InRange → WritesWhatFits σ globalFd buf count := by
  intro claim
  have fits := (pipeWrite_iff rfl ioqueueInit_inRange zeros).1 (claim onePipe 3 zeros 2048 rfl ioqueueInit_inRange)
  exact absurd fits (by decide)

end Examples

end Sparrow
