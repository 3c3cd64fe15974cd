import Sparrow.Lib.Prog
import Sparrow.Fs.Inode

/-!
# Calls that sleep at the disk

A system call enters the kernel through an interrupt gate (`syscall_handler` at vector
0x80), so the timer cannot take the processor away from it: a process loses control only
where it sleeps. Below the file system it sleeps in `lock_acquire` while another process
holds the channel, in `busy_wait`, and in `sema_down(&disk_done)` until the drive has
answered. The lock is held across the last two.
-/

namespace Sparrow
set_option autoImplicit false

/-- What processes share: the file system and the lock of the channel. -/
structure Shared where
  fs : Fs
  locked : Bool

/-- A process inside the kernel. -/
abbrev Sleeper (α : Type) := Prog Shared α

/-- `lock_acquire(&hd->my_channel->lock)`: sleep as long as the semaphore is 0. -/
def lockAcquire : Sleeper Unit :=
  .wait (fun s => !s.locked) (.get fun s => .set { s with locked := true } (.ret ()))

/-- `lock_release(&hd->my_channel->lock)`. It makes a waiting process ready and goes on. -/
def lockRelease : Sleeper Unit :=
  .get fun s => .set { s with locked := false } (.ret ())

/-- `ide_read` by a process. The data is taken from the drive after the process has been
woken; a transfer in several commands sleeps several times under the same lock. -/
def ideReadP (lba secCnt : Nat) : Sleeper Image := do
  .lift (assertThat (TransferOk lba secCnt))
  lockAcquire
  let buf ← .pause (.get fun s => .lift (ideRead s.fs.disk lba secCnt))
  lockRelease
  return buf

/-- `ide_write` by a process. It may sleep in `busy_wait` before the data is handed over,
and sleeps again until the drive has stored it. -/
def ideWriteP (lba secCnt : Nat) (buf : Image) : Sleeper Unit := do
  .lift (assertThat (TransferOk lba secCnt))
  lockAcquire
  .pause (.get fun s => do
    let disk ← .lift (ideWrite s.fs.disk lba secCnt buf)
    .set { s with fs := { s.fs with disk := disk } } (.ret ()))
  .pause (.ret ())
  lockRelease

/-- `inode_sync` of the inode at `addr` by a process. -/
def inodeSyncP (part : Partition) (addr : Nat) : Sleeper Unit :=
  .get fun s => do
    let inode := s.fs.inodes addr
    let pos ← .lift (inodeLocate part.sb (inode.iNo % 256))
    .lift (assertThat (pos.secLba ≤ part.startLba + part.secCnt))
    let inodeBuf ← ideReadP pos.secLba pos.secs
    ideWriteP pos.secLba pos.secs (splice inodeBuf pos.offSize inodeSize inode.pure.image)

section Alone

variable {part : Partition} {s : Fs}

/-- The state of a process that runs alone. -/
def Fs.alone (s : Fs) : Shared := ⟨s, false⟩

@[simp] theorem Fs.alone_fs : s.alone.fs = s := rfl

/-- The process returns what the sequential function returns. -/
def Matches {α : Type} (p : Sleeper α) (s : Fs) (x : Exec (α × Fs)) : Prop :=
  p.run s.alone = x >>= fun r => .ok (r.1, r.2.alone)

theorem ideReadP_alone {lba secCnt : Nat} :
    Matches (ideReadP lba secCnt) s (ideRead s.disk lba secCnt >>= fun buf => .ok (buf, s)) := by
  simp only [Matches, ideReadP, ideRead, Prog.run_bind, Prog.run_lift, bind_assoc, ok_bind]
  by_cases ok : TransferOk lba secCnt
  · rw [assertThat_of ok]
    simp only [lockAcquire, lockRelease, Prog.run, Fs.alone]
    rfl
  · simp only [assertThat, if_neg ok]
    rfl

theorem ideWriteP_alone {lba secCnt : Nat} {buf : Image} :
    Matches (ideWriteP lba secCnt buf) s
      (ideWrite s.disk lba secCnt buf >>= fun disk => .ok ((), { s with disk := disk })) := by
  simp only [Matches, ideWriteP, ideWrite, Prog.run_bind, Prog.run_lift, bind_assoc, ok_bind]
  by_cases ok : TransferOk lba secCnt
  · rw [assertThat_of ok]
    simp only [lockAcquire, lockRelease, Prog.run, Prog.run_bind, Prog.run_lift, Fs.alone]
    rfl
  · simp only [assertThat, if_neg ok]
    rfl

/-- Left alone, the process does what `inodeSync` says. -/
theorem inodeSyncP_alone {addr : Nat} :
    Matches (inodeSyncP part addr) s
      (inodeSync part s.disk (s.inodes addr) >>= fun disk => .ok ((), { s with disk := disk })) := by
  have read := @ideReadP_alone s
  have write := @ideWriteP_alone s
  simp only [Matches] at read write ⊢
  simp only [inodeSyncP, inodeSync, Prog.run, Prog.run_bind, Prog.run_lift, read, write, bind_assoc, ok_bind, Fs.alone_fs]

end Alone

end Sparrow
