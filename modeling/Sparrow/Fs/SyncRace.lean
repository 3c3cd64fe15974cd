import Sparrow.Fs.Sleeping
import Sparrow.Fs.InodeTable

/-!
# Two processes store inodes

`inode_sync` reads the one or two sectors an inode lies in, replaces the inode and writes
the sectors back. The channel is released after the read, but the process does not sleep
before it takes the channel again for the write. So another process that stores an inode
of the same sector reads it either before this read or after this write, and neither
update is lost (`inodeSyncs_keep_both`).
-/

namespace Sparrow
set_option autoImplicit false

/-- What is left of `inode_sync` while it sleeps at the lock. -/
def syncAsk (pos : InodePosition) (inode : Inode) : Sleeper Unit := do
  lockAcquire
  let inodeBuf ← .pause (.get fun s => .lift (ideRead s.fs.disk pos.secLba pos.secs))
  lockRelease
  ideWriteP pos.secLba pos.secs (splice inodeBuf pos.offSize inodeSize inode.pure.image)

/-- What is left of it while the drive reads. -/
def syncRead (pos : InodePosition) (inode : Inode) : Sleeper Unit := do
  let inodeBuf ← .get fun s => .lift (ideRead s.fs.disk pos.secLba pos.secs)
  lockRelease
  ideWriteP pos.secLba pos.secs (splice inodeBuf pos.offSize inodeSize inode.pure.image)

/-- What is left of it while the drive is busy before the write. -/
def syncBusy (pos : InodePosition) (buf : Image) : Sleeper Unit := do
  .get fun s => do
    let disk ← .lift (ideWrite s.fs.disk pos.secLba pos.secs buf)
    .set { s with fs := { s.fs with disk := disk } } (.ret ())
  .pause (.ret ())
  lockRelease

/-- How far one process is, whether it holds the channel, and what this says about the
disk. -/
inductive SyncAt (part : Partition) (addr : Nat) (ino : Inode) (pos : InodePosition) (disk : Image) :
    Bool → Sleeper Unit → Prop where
  | started : SyncAt part addr ino pos disk false (inodeSyncP part addr)
  | asking : SyncAt part addr ino pos disk false (syncAsk pos ino)
  | reading : SyncAt part addr ino pos disk true (syncRead pos ino)
  | busy {buf : Image}
    (patched : splice disk (512 * pos.secLba) (512 * pos.secs) buf =
      splice disk (slotAddr part ino.iNo) inodeSize ino.pure.image) :
    SyncAt part addr ino pos disk true (syncBusy pos buf)
  | stored (holds : SlotHolds part disk ino.iNo ino) : SyncAt part addr ino pos disk true lockRelease
  | done (holds : SlotHolds part disk ino.iNo ino) : SyncAt part addr ino pos disk false (.ret ())

section Turns

variable {part : Partition} {s s' : Shared} {pos : InodePosition} {ino : Inode} {addr : Nat} {p' : Sleeper Unit}

/-- The first turn ends at the lock. -/
theorem resume_syncAsk :
    (syncAsk pos ino).resume s =
      if s.locked then .ok (syncAsk pos ino, s) else .ok (syncRead pos ino, { s with locked := true }) := by
  obtain ⟨fs, locked⟩ := s
  cases locked <;> rfl

theorem resume_inodeSyncP (located : inodeLocate part.sb ((s.fs.inodes addr).iNo % 256) = .ok pos)
    (h : (inodeSyncP part addr).resume s = .ok (p', s')) :
    (syncAsk pos (s.fs.inodes addr)).resume s = .ok (p', s') := by
  simp only [inodeSyncP, ideReadP, Prog.resume, bind_assoc, Prog.resume_lift_bind, located, Except.ok.injEq,
    exists_eq_left'] at h
  obtain ⟨-, -, -, -, h⟩ := h
  exact h

theorem resume_syncRead (h : (syncRead pos ino).resume s = .ok (p', s')) :
    p' = syncBusy pos (splice (shifted s.fs.disk (512 * pos.secLba)) pos.offSize inodeSize ino.pure.image) ∧
      s' = { s with locked := true } := by
  change (Prog.lift (ideRead s.fs.disk pos.secLba pos.secs) >>= _ : Sleeper Unit).resume s = _ at h
  rw [Prog.resume_lift_bind] at h
  obtain ⟨buf, read, h⟩ := h
  rw [ideRead_ok] at read
  obtain ⟨ok, rfl⟩ := read
  simp only [ideWriteP, assertThat_of ok] at h
  cases h
  exact ⟨rfl, rfl⟩

theorem resume_syncBusy {buf : Image} (h : (syncBusy pos buf).resume s = .ok (p', s')) :
    p' = lockRelease ∧
      s' = { s with fs := { s.fs with disk := splice s.fs.disk (512 * pos.secLba) (512 * pos.secs) buf } } := by
  change ((Prog.lift (ideWrite s.fs.disk pos.secLba pos.secs buf) >>= _ : Sleeper Unit) >>= _).resume s = _ at h
  rw [bind_assoc, Prog.resume_lift_bind] at h
  obtain ⟨disk, write, h⟩ := h
  rw [ideWrite_ok] at write
  obtain ⟨-, rfl⟩ := write
  cases h
  exact ⟨rfl, rfl⟩

/-! No assertion fails when the table lies on the disk. -/

theorem inodeSyncP_turn (fits : TableFits part)
    (located : inodeLocate part.sb ((s.fs.inodes addr).iNo % 256) = .ok pos) :
    (inodeSyncP part addr).resume s = (syncAsk pos (s.fs.inodes addr)).resume s := by
  have loc := inodeLocate_ok located
  simp only [inodeSyncP, ideReadP, Prog.resume, bind_assoc, located, Prog.lift_ok_bind,
    assertThat_of (loc.inPartition fits), assertThat_of (loc.transfer fits)]
  rfl

theorem syncRead_turn (ok : TransferOk pos.secLba pos.secs) :
    (syncRead pos ino).resume s = .ok (syncBusy pos
      (splice (shifted s.fs.disk (512 * pos.secLba)) pos.offSize inodeSize ino.pure.image), { s with locked := true }) := by
  change (Prog.lift (ideRead s.fs.disk pos.secLba pos.secs) >>= _ : Sleeper Unit).resume s = _
  simp only [ideRead_of ok, ideWriteP, assertThat_of ok]
  rfl

theorem syncBusy_turn {buf : Image} (ok : TransferOk pos.secLba pos.secs) :
    (syncBusy pos buf).resume s = .ok (lockRelease,
      { s with fs := { s.fs with disk := splice s.fs.disk (512 * pos.secLba) (512 * pos.secs) buf } }) := by
  change ((Prog.lift (ideWrite s.fs.disk pos.secLba pos.secs buf) >>= _ : Sleeper Unit) >>= _).resume s = _
  rw [ideWrite_of ok]
  rfl

/-- What a turn of one process leaves to the other. -/
structure TurnOf (part : Partition) (addr : Nat) (ino : Inode) (pos : InodePosition) (other : Bool)
    (p' : Sleeper Unit) (s s' : Shared) : Prop where
  phase : ∃ mine, SyncAt part addr ino pos s'.fs.disk mine p' ∧ s'.locked = (mine || other) ∧ (mine && other) = false
  inodes : s'.fs.inodes = s.fs.inodes
  disk : s'.fs.disk = s.fs.disk ∨
    other = false ∧ s'.fs.disk = splice s.fs.disk (slotAddr part ino.iNo) inodeSize ino.pure.image

/-- A turn that ends where it began, or with the channel taken. -/
theorem turnOf_asking {other : Bool} (free : s.locked = other)
    (h : (syncAsk pos ino).resume s = .ok (p', s')) : TurnOf part addr ino pos other p' s s' := by
  rw [resume_syncAsk] at h
  split at h
  · rename_i held
    cases h
    exact ⟨⟨false, .asking, by simp [free], by simp⟩, rfl, .inl rfl⟩
  · rename_i held
    cases h
    have idle : other = false := by simpa [free] using held
    exact ⟨⟨true, .reading, by simp, by simp [idle]⟩, rfl, .inl rfl⟩

/-- One turn of a process, from any point of `inode_sync`. -/
theorem SyncAt.turn {p : Sleeper Unit} {mine other : Bool} (here : SyncAt part addr ino pos s.fs.disk mine p)
    (low : ino.iNo < 256) (located : inodeLocate part.sb ino.iNo = .ok pos) (is : s.fs.inodes addr = ino)
    (lock : s.locked = (mine || other)) (one : (mine && other) = false)
    (going : ∀ u, p ≠ .ret u) (h : p.resume s = .ok (p', s')) : TurnOf part addr ino pos other p' s s' := by
  have loc := inodeLocate_ok located
  cases here with
  | started =>
    subst is
    refine turnOf_asking (by simpa using lock) (resume_inodeSyncP ?_ h)
    rw [Nat.mod_eq_of_lt low]
    exact located
  | asking => exact turnOf_asking (by simpa using lock) h
  | reading =>
    obtain ⟨rfl, rfl⟩ := resume_syncRead h
    exact ⟨⟨true, .busy (loc.rewrite _ _), by simp, one⟩, rfl, .inl rfl⟩
  | busy patched =>
    obtain ⟨rfl, rfl⟩ := resume_syncBusy h
    have idle : other = false := by simpa using one
    refine ⟨⟨true, .stored ?_, by simpa using lock, one⟩, rfl, .inr ⟨idle, patched⟩⟩
    show SlotHolds part (splice _ _ _ _) _ _
    rw [patched]
    exact fun i hi => splice_at hi
  | stored holds =>
    cases h
    have idle : other = false := by simpa using one
    exact ⟨⟨false, .done holds, by simp [idle], by simp⟩, rfl, .inl rfl⟩
  | done => exact absurd rfl (going ())

/-- A process that does not hold the channel is not disturbed by the write of the other. -/
theorem SyncAt.frame {p : Sleeper Unit} {disk src : Image} {n : Nat} (here : SyncAt part addr ino pos disk false p)
    (ne : ino.iNo ≠ n) : SyncAt part addr ino pos (splice disk (slotAddr part n) inodeSize src) false p := by
  cases here with
  | started => exact .started
  | asking => exact .asking
  | done holds =>
    refine .done fun i hi => ?_
    rw [sync_frame ne src hi]
    exact holds i hi

end Turns

/-- Both processes are inside `inode_sync`, and at most one of them holds the channel. -/
structure Syncing (part : Partition) (a b : Nat) (x y : Inode) (posA posB : InodePosition)
    (c : Both Shared Unit Unit) : Prop where
  phases : ∃ l r, SyncAt part a x posA c.state.fs.disk l c.left ∧ SyncAt part b y posB c.state.fs.disk r c.right ∧
    c.state.locked = (l || r) ∧ (l && r) = false
  left : c.state.fs.inodes a = x
  right : c.state.fs.inodes b = y

section Race

variable {part : Partition} {a b : Nat} {x y : Inode} {posA posB : InodePosition} {c c' : Both Shared Unit Unit}

theorem Syncing.swap (h : Syncing part a b x y posA posB c) : Syncing part b a y x posB posA c.swap := by
  obtain ⟨⟨l, r, atA, atB, lock, one⟩, left, right⟩ := h
  exact ⟨⟨r, l, atB, atA, by rw [Bool.or_comm]; exact lock, by rw [Bool.and_comm]; exact one⟩, right, left⟩

/-- A turn of the left process. -/
theorem Syncing.left_turn {p p' q : Sleeper Unit} {s s' : Shared} (h : Syncing part a b x y posA posB ⟨p, q, s⟩)
    (low : x.iNo < 256) (ne : y.iNo ≠ x.iNo) (located : inodeLocate part.sb x.iNo = .ok posA)
    (going : ∀ u, p ≠ .ret u) (step : p.resume s = .ok (p', s')) : Syncing part a b x y posA posB ⟨p', q, s'⟩ := by
  obtain ⟨⟨l, r, atA, atB, lock, one⟩, left, right⟩ := h
  obtain ⟨⟨l', atA', lock', one'⟩, inodes, disk⟩ := atA.turn low located left lock one going step
  refine ⟨⟨l', r, atA', ?_, lock', one'⟩, by rw [inodes]; exact left, by rw [inodes]; exact right⟩
  obtain same | ⟨rfl, written⟩ := disk
  · rw [same]
    exact atB
  · rw [written]
    exact atB.frame ne

theorem Syncing.turn (lowA : x.iNo < 256) (lowB : y.iNo < 256) (ne : x.iNo ≠ y.iNo)
    (locA : inodeLocate part.sb x.iNo = .ok posA) (locB : inodeLocate part.sb y.iNo = .ok posB)
    (turn : Turn c c') (h : Syncing part a b x y posA posB c) : Syncing part a b x y posA posB c' := by
  cases turn with
  | left going step => exact h.left_turn lowA ne.symm locA going step
  | right going step => exact (h.swap.left_turn lowB ne locB going step).swap

/-- A process that finds the channel free, or holds it, can run to its end. -/
theorem SyncAt.finish {p q : Sleeper Unit} {s : Shared} {mine : Bool} (fits : TableFits part)
    (here : SyncAt part a x posA s.fs.disk mine p) (low : x.iNo < 256)
    (located : inodeLocate part.sb x.iNo = .ok posA) (is : s.fs.inodes a = x) (lock : s.locked = mine) :
    ∃ s', Interleaved ⟨p, q, s⟩ ⟨.ret (), q, s'⟩ := by
  have loc := inodeLocate_ok located
  have ok := loc.transfer fits
  -- from the end of the call backwards: each turn leads to the one before
  have stored : ∀ s, ∃ s', Interleaved ⟨lockRelease, q, s⟩ ⟨.ret (), q, s'⟩ :=
    fun s => ⟨_, .single (.left nofun rfl)⟩
  have busy : ∀ s buf, ∃ s', Interleaved ⟨syncBusy posA buf, q, s⟩ ⟨.ret (), q, s'⟩ := by
    intro s buf
    obtain ⟨s', rest⟩ := stored _
    exact ⟨s', .head (.left nofun (syncBusy_turn ok)) rest⟩
  have reading : ∀ s, ∃ s', Interleaved ⟨syncRead posA x, q, s⟩ ⟨.ret (), q, s'⟩ := by
    intro s
    obtain ⟨s', rest⟩ := busy _ _
    exact ⟨s', .head (.left nofun (syncRead_turn ok)) rest⟩
  have free : s.locked = false → (syncAsk posA x).resume s = .ok (syncRead posA x, { s with locked := true }) := by
    intro idle
    rw [resume_syncAsk, idle]
    rfl
  cases here with
  | started =>
    obtain ⟨s', rest⟩ := reading { s with locked := true }
    refine ⟨s', .head (.left nofun ?_) rest⟩
    rw [inodeSyncP_turn fits (by rw [is, Nat.mod_eq_of_lt low]; exact located), is]
    exact free lock
  | asking =>
    obtain ⟨s', rest⟩ := reading _
    exact ⟨s', .head (.left nofun (free lock)) rest⟩
  | reading => exact reading s
  | busy => exact busy s _
  | stored => exact stored s
  | done => exact ⟨s, .refl⟩

/-- A process that has returned has stored its inode. -/
theorem SyncAt.returned {disk : Image} {mine : Bool} {p : Sleeper Unit} (here : SyncAt part a x posA disk mine p)
    (done : p = .ret ()) : SlotHolds part disk x.iNo x := by
  cases here with
  | done holds => exact holds
  | _ => exact absurd done (by nofun)

theorem SyncAt.returned_free {disk : Image} {mine : Bool} {u : Unit}
    (here : SyncAt part a x posA disk mine (.ret u)) : mine = false := by
  cases here with
  | done => rfl

/-- The process that holds the channel, or finds it free, runs to its end, and then the
other one. -/
theorem Syncing.finish_from (fits : TableFits part) (lowA : x.iNo < 256) (lowB : y.iNo < 256) (ne : x.iNo ≠ y.iNo)
    (locA : inodeLocate part.sb x.iNo = .ok posA) (locB : inodeLocate part.sb y.iNo = .ok posB)
    (h : Syncing part a b x y posA posB c) {mine : Bool} (first : SyncAt part a x posA c.state.fs.disk mine c.left)
    (lock : c.state.locked = mine) : ∃ t, Interleaved c ⟨.ret (), .ret (), t⟩ := by
  obtain ⟨s, runA⟩ := first.finish (q := c.right) fits lowA locA h.left lock
  obtain ⟨⟨l, r, atA, atB, lock', -⟩, -, right⟩ :=
    runA.invariant (fun _ _ => Syncing.turn lowA lowB ne locA locB) h
  rw [atA.returned_free, Bool.false_or] at lock'
  obtain ⟨t, runB⟩ := atB.finish (q := .ret ()) fits lowB locB right lock'
  exact ⟨t, runA.trans runB.swap⟩

/-- Every interleaving can be continued until both processes have returned. -/
theorem Syncing.finish (fits : TableFits part) (lowA : x.iNo < 256) (lowB : y.iNo < 256) (ne : x.iNo ≠ y.iNo)
    (locA : inodeLocate part.sb x.iNo = .ok posA) (locB : inodeLocate part.sb y.iNo = .ok posB)
    (h : Syncing part a b x y posA posB c) : ∃ t, Interleaved c ⟨.ret (), .ret (), t⟩ := by
  obtain ⟨l, r, atA, atB, lock, one⟩ := h.phases
  cases r with
  | false => exact h.finish_from fits lowA lowB ne locA locB atA (by simpa using lock)
  | true =>
    have held : c.state.locked = true := by simpa using lock
    obtain ⟨t, run⟩ := h.swap.finish_from fits lowB lowA ne.symm locB locA atB held
    exact ⟨t, run.swap⟩

/-- **No lost inode update.** However two processes that store different inodes are
interleaved, the table holds both inodes when both have returned. -/
theorem inodeSyncs_keep_both (part : Partition) (s : Fs) (a b : Nat) (lowA : (s.inodes a).iNo < 256)
    (lowB : (s.inodes b).iNo < 256) (ne : (s.inodes a).iNo ≠ (s.inodes b).iNo)
    (run : Interleaved ⟨inodeSyncP part a, inodeSyncP part b, s.alone⟩ c)
    (doneA : c.left = .ret ()) (doneB : c.right = .ret ()) :
    SlotHolds part c.state.fs.disk (s.inodes a).iNo (s.inodes a) ∧
      SlotHolds part c.state.fs.disk (s.inodes b).iNo (s.inodes b) := by
  obtain ⟨posA, locA⟩ := inodeLocate_of_lt part (n := (s.inodes a).iNo) (by omega)
  obtain ⟨posB, locB⟩ := inodeLocate_of_lt part (n := (s.inodes b).iNo) (by omega)
  have start : Syncing part a b _ _ posA posB ⟨inodeSyncP part a, inodeSyncP part b, s.alone⟩ :=
    ⟨⟨false, false, .started, .started, rfl, rfl⟩, rfl, rfl⟩
  obtain ⟨⟨l, r, atA, atB, -, -⟩, -, -⟩ :=
    run.invariant (fun _ _ => Syncing.turn lowA lowB ne locA locB) start
  exact ⟨atA.returned doneA, atB.returned doneB⟩

/-- Inodes 1 and 2 share a sector. -/
def twoInodes : Fs :=
  ⟨fun _ => 0#8, ⟨0, fun _ => 0#8⟩, ⟨0, fun _ => 0#8⟩, inodeInit, fun _ => none, 3, [1, 2], 0, fun _ => File.empty, []⟩

theorem inodeSyncs_keep_both_small :
    ∃ c : Both Shared Unit Unit,
      Interleaved ⟨inodeSyncP smallPartition 1, inodeSyncP smallPartition 2, twoInodes.alone⟩ c ∧
        SlotHolds smallPartition c.state.fs.disk 1 (inodeInit 1) ∧
        SlotHolds smallPartition c.state.fs.disk 2 (inodeInit 2) := by
  obtain ⟨posA, locA⟩ := inodeLocate_of_lt smallPartition (n := 1) (by omega)
  obtain ⟨posB, locB⟩ := inodeLocate_of_lt smallPartition (n := 2) (by omega)
  have start : Syncing smallPartition 1 2 (inodeInit 1) (inodeInit 2) posA posB
      ⟨inodeSyncP smallPartition 1, inodeSyncP smallPartition 2, twoInodes.alone⟩ :=
    ⟨⟨false, false, .started, .started, rfl, rfl⟩, rfl, rfl⟩
  obtain ⟨t, run⟩ := start.finish smallPartition_fits (by decide) (by decide) (by decide) locA locB
  exact ⟨_, run, inodeSyncs_keep_both smallPartition twoInodes 1 2 (by decide) (by decide) (by decide) run rfl rfl⟩

end Race

end Sparrow
