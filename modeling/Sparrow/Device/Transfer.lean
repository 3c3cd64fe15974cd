import Sparrow.Device.Ide
import Mathlib.Logic.Function.Basic
import Mathlib.Tactic.IntervalCases

/-!
# Multi-sector transfers through the ports of a channel

`ide_read` and `ide_write` of `device/ide.c` with the registers they program. A request is cut
into commands of at most 256 sectors; the number of sectors is narrowed to 8 bits twice, on its
way into the count register and on its way into the length of the transfer, so a full command
shows 0 in both places. The drive takes a count register of 0 as 256 sectors, and its data port
hands over the bytes of the addressed sectors one after another.

The thread has the lock of the channel; the other threads and the interrupts of a channel are
in `Sparrow.Device.Channel`.
-/

namespace Sparrow.Transfer
set_option autoImplicit false

/-- The registers a transfer writes. -/
inductive Reg where
  | sectCnt | lbaL | lbaM | lbaH | dev
  deriving DecidableEq, Repr

/-- The command under way: the drive, the first byte and the number of bytes it addresses, how many
of them have gone through the data port, and how often the status will still be read busy. -/
structure Command where
  slave : Bool
  write : Bool
  first : Nat
  size : Nat
  moved : Nat
  busy : Nat

/-- A channel with its two drives. The `k`-th command is busy for `latency k` reads of the status. -/
structure Channel where
  disk : Bool → Image
  reg : Reg → Byte
  command : Option Command
  issued : Nat
  latency : Nat → Nat
  expectingIntr : Bool
  diskDone : Nat

/-- `outb`: the port gets the low byte of the value. -/
def outb (r : Reg) (data : Nat) (c : Channel) : Channel :=
  { c with reg := Function.update c.reg r (BitVec.ofNat 8 data) }

/-- The sector the registers address: 24 bits in the `lba` registers, 4 in the device register. -/
def Channel.sector (c : Channel) : Nat :=
  (c.reg .lbaL).toNat + 256 * (c.reg .lbaM).toNat + 65536 * (c.reg .lbaH).toNat + 16777216 * ((c.reg .dev).toNat % 16)

/-- The number of sectors in the count register, where 0 stands for 256. -/
def Channel.sectors (c : Channel) : Nat :=
  if c.reg .sectCnt = 0 then 256 else (c.reg .sectCnt).toNat

/-- `BIT_DEV_DEV` selects the slave. -/
def Channel.slave (c : Channel) : Bool := (c.reg .dev).getLsbD 4

/-- `intr_hd_handler`. -/
def intrHdHandler (c : Channel) : Channel :=
  if c.expectingIntr then { c with expectingIntr := false, diskDone := c.diskDone + 1 } else c

/-- The drive starts on a command. -/
def start (write : Bool) (c : Channel) : Channel :=
  { c with
    command := some ⟨c.slave, write, 512 * c.sector, 512 * c.sectors, 0, c.latency c.issued⟩
    issued := c.issued + 1 }

def cmdReadSector : Nat := 0x20
def cmdWriteSector : Nat := 0x30

/-- `cmd_out`. A drive that is told to read raises its interrupt when it has the data. -/
def cmdOut (cmd : Nat) (c : Channel) : Channel :=
  let c := { c with expectingIntr := true }
  if cmd = cmdReadSector then intrHdHandler (start false c)
  else if cmd = cmdWriteSector then start true c
  else c

def bitStatBsy : Byte := 0x80
def bitStatDrq : Byte := 0x8

/-- `inb(reg_status(channel))`. -/
def inbStatus (c : Channel) : Byte × Channel :=
  match c.command with
  | none => (0x40, c)
  | some m =>
    if m.busy = 0 then (bitStatDrq ||| 0x40, c)
    else (bitStatBsy, { c with command := some { m with busy := m.busy - 1 } })

/-- The loop of `busy_wait`, with so many turns left. -/
def busyTurns : Nat → Channel → Bool × Channel
  | 0, c => (false, c)
  | n + 1, c =>
    let (status, c) := inbStatus c
    if status &&& bitStatBsy = 0 then
      let (status, c) := inbStatus c
      (status &&& bitStatDrq ≠ 0, c)
    else busyTurns n c

/-- `time_limit -= 10 >= 0` takes the truth of `10 >= 0` off `time_limit`, so the loop of `busy_wait`
makes one turn fewer than the 30000 it starts from. -/
def busyLimit : Nat := 30 * 1000 - 1

/-- `busy_wait`. -/
def busyWait (c : Channel) : Bool × Channel := busyTurns busyLimit c

/-- `sema_down(&hd->my_channel->disk_done)`. -/
def semaDown (c : Channel) : Exec Channel :=
  if c.diskDone = 0 then .error .blocked else .ok { c with diskDone := c.diskDone - 1 }

/-- A word from the data port to `buf + at`. A drive has no word to give once the command is done. -/
def inw (pos : Nat) (buf : Image) (c : Channel) : Exec (Image × Channel) :=
  match c.command with
  | none => .error .undefined
  | some m => do
    defined (m.write = false ∧ m.moved + 2 ≤ m.size)
    return (splice buf pos 2 (shifted (c.disk m.slave) (m.first + m.moved)),
      { c with command := some { m with moved := m.moved + 2 } })

/-- `insw`. -/
def insw : Nat → Nat → Image → Channel → Exec (Image × Channel)
  | 0, _, buf, c => return (buf, c)
  | n + 1, pos, buf, c => do
    let (buf, c) ← inw pos buf c
    insw n (pos + 2) buf c

/-- A word from `buf + pos` to the data port. The drive raises its interrupt after the last one. -/
def outw (pos : Nat) (buf : Image) (c : Channel) : Exec Channel :=
  match c.command with
  | none => .error .undefined
  | some m => do
    defined (m.write = true ∧ m.moved + 2 ≤ m.size)
    let disk := Function.update c.disk m.slave
      (splice (c.disk m.slave) (m.first + m.moved) 2 (shifted buf pos))
    let c := { c with disk := disk, command := some { m with moved := m.moved + 2 } }
    return if m.moved + 2 = m.size then intrHdHandler c else c

/-- `outsw`. -/
def outsw : Nat → Nat → Image → Channel → Exec Channel
  | 0, _, _, c => return c
  | n + 1, pos, buf, c => do
    let c ← outw pos buf c
    outsw n (pos + 2) buf c

def bitDevMbs : Nat := 0xa0
def bitDevLba : Nat := 0x40
def bitDevDev : Nat := 0x10

/-- `select_disk`; `hd` says whether the disk is the slave. -/
def selectDisk (hd : Bool) (c : Channel) : Channel :=
  outb .dev (bitDevMbs ||| bitDevLba ||| if hd then bitDevDev else 0) c

/-- `select_sector`. -/
def selectSector (hd : Bool) (lba : Nat) (secCnt : Byte) (c : Channel) : Exec Channel := do
  assertThat (lba ≤ maxLba)
  let c := outb .sectCnt secCnt.toNat c
  let c := outb .lbaL lba c
  let c := outb .lbaM (lba >>> 8) c
  let c := outb .lbaH (lba >>> 16) c
  return outb .dev (bitDevMbs ||| bitDevLba ||| (if hd then bitDevDev else 0) ||| lba >>> 24) c

/-- The length both transfer functions compute from their 8-bit argument. -/
def sizeInByte (secCnt : Byte) : Nat :=
  if secCnt = 0 then 256 * 512 else secCnt.toNat * 512

/-- `read_from_sector`. -/
def readFromSector (pos : Nat) (secCnt : Byte) (buf : Image) (c : Channel) : Exec (Image × Channel) :=
  insw (sizeInByte secCnt / 2) pos buf c

/-- `write2sector`. -/
def write2sector (pos : Nat) (secCnt : Byte) (buf : Image) (c : Channel) : Exec Channel :=
  outsw (sizeInByte secCnt / 2) pos buf c

/-- `secs_op`, the sectors of the next command. -/
def secsOp (secsDone secCnt : Nat) : Nat :=
  if secsDone + 256 ≤ secCnt then 256 else secCnt - secsDone

/-- A turn of `ide_read`: the command for the sectors from `lba` on, and their bytes to `buf + pos`. -/
def readTurn (hd : Bool) (lba op pos : Nat) (buf : Image) (c : Channel) : Exec (Image × Channel) := do
  let c ← selectSector hd lba (BitVec.ofNat 8 op) c
  let c ← semaDown (cmdOut cmdReadSector c)
  let waited := busyWait c
  assertThat (waited.1 = true)
  readFromSector pos (BitVec.ofNat 8 op) buf waited.2

/-- The loop of `ide_read`. -/
def readTurns (hd : Bool) (lba secCnt secsDone : Nat) (buf : Image) (c : Channel) : Exec (Image × Channel) :=
  if secsDone < secCnt then do
    let op := secsOp secsDone secCnt
    let (buf, c) ← readTurn hd (lba + secsDone) op (secsDone * 512) buf c
    readTurns hd lba secCnt (secsDone + op) buf c
  else return (buf, c)
termination_by secCnt - secsDone
decreasing_by simp only [secsOp]; split <;> omega

/-- `ide_read` of the disk `hd`: the buffer afterwards. -/
def ideRead (hd : Bool) (lba secCnt : Nat) (buf : Image) (c : Channel) : Exec (Image × Channel) := do
  assertThat (lba ≤ maxLba)
  assertThat (0 < secCnt)
  readTurns hd lba secCnt 0 buf (selectDisk hd c)

/-- A turn of `ide_write`. -/
def writeTurn (hd : Bool) (lba op pos : Nat) (buf : Image) (c : Channel) : Exec Channel := do
  let c ← selectSector hd lba (BitVec.ofNat 8 op) c
  let waited := busyWait (cmdOut cmdWriteSector c)
  assertThat (waited.1 = true)
  let c ← write2sector pos (BitVec.ofNat 8 op) buf waited.2
  semaDown c

/-- The loop of `ide_write`. -/
def writeTurns (hd : Bool) (lba secCnt secsDone : Nat) (buf : Image) (c : Channel) : Exec Channel :=
  if secsDone < secCnt then do
    let op := secsOp secsDone secCnt
    let c ← writeTurn hd (lba + secsDone) op (secsDone * 512) buf c
    writeTurns hd lba secCnt (secsDone + op) buf c
  else return c
termination_by secCnt - secsDone
decreasing_by simp only [secsOp]; split <;> omega

/-- `ide_write` of the disk `hd`. -/
def ideWrite (hd : Bool) (lba secCnt : Nat) (buf : Image) (c : Channel) : Exec Channel := do
  assertThat (lba ≤ maxLba)
  assertThat (0 < secCnt)
  writeTurns hd lba secCnt 0 buf (selectDisk hd c)


/-! ## The data port -/

section Port

variable {c : Channel} {m : Command} {buf : Image} {n pos : Nat}

theorem inw_eq (busy : c.command = some m) (reading : m.write = false) (left : m.moved + 2 ≤ m.size) :
    inw pos buf c = .ok (splice buf pos 2 (shifted (c.disk m.slave) (m.first + m.moved)),
      { c with command := some { m with moved := m.moved + 2 } }) := by
  unfold inw
  rw [busy]
  simp only [defined_of (And.intro reading left), ok_bind]
  rfl

theorem outw_eq (busy : c.command = some m) (writing : m.write = true) (left : m.moved + 2 ≤ m.size) :
    outw pos buf c = .ok (
      let c := { c with
        disk := Function.update c.disk m.slave (splice (c.disk m.slave) (m.first + m.moved) 2 (shifted buf pos))
        command := some { m with moved := m.moved + 2 } }
      if m.moved + 2 = m.size then intrHdHandler c else c) := by
  unfold outw
  rw [busy]
  simp only [defined_of (And.intro writing left), ok_bind]
  rfl

/-- `insw` copies the next bytes of the addressed sectors into the buffer. -/
theorem insw_eq (n pos : Nat) (buf : Image) (busy : c.command = some m) (reading : m.write = false) (left : m.moved + 2 * n ≤ m.size) :
    insw n pos buf c = .ok (splice buf pos (2 * n) (shifted (c.disk m.slave) (m.first + m.moved)),
      { c with command := some { m with moved := m.moved + 2 * n } }) := by
  induction n generalizing c m buf pos with
  | zero =>
    simp only [insw, Nat.mul_zero, splice_zero, Nat.add_zero, ← busy]
    rfl
  | succ n ih =>
    rw [insw, inw_eq busy reading (by omega), ok_bind]
    have rest := ih (c := { c with command := some { m with moved := m.moved + 2 } }) (pos + 2)
      (splice buf pos 2 (shifted (c.disk m.slave) (m.first + m.moved))) rfl reading (by simp only; omega)
    simp only at rest ⊢
    have next : shifted (c.disk m.slave) (m.first + (m.moved + 2)) = shifted (shifted (c.disk m.slave) (m.first + m.moved)) 2 := by
      rw [shifted_shifted, Nat.add_assoc]
    rw [rest, next, splice_append, Nat.add_assoc m.moved, show 2 + 2 * n = 2 * (n + 1) by omega]

/-- `outsw` of the rest of a command copies it into the addressed sectors, and the drive raises its
interrupt at the end. -/
theorem outsw_eq (n pos : Nat) (buf : Image) (busy : c.command = some m) (writing : m.write = true) (some_ : 0 < n)
    (all : m.moved + 2 * n = m.size) :
    outsw n pos buf c = .ok (intrHdHandler { c with
      disk := Function.update c.disk m.slave (splice (c.disk m.slave) (m.first + m.moved) (2 * n) (shifted buf pos))
      command := some { m with moved := m.size } }) := by
  induction n generalizing c m pos with
  | zero => omega
  | succ n ih =>
    rw [outsw, outw_eq busy writing (by omega), ok_bind]
    obtain last | more : n = 0 ∨ 0 < n := by omega
    · subst last
      simp only [all, if_pos, outsw]
      rfl
    · rw [if_neg (by omega)]
      have rest := ih (pos + 2) (m := { m with moved := m.moved + 2 }) (c := { c with
        disk := Function.update c.disk m.slave (splice (c.disk m.slave) (m.first + m.moved) 2 (shifted buf pos))
        command := some { m with moved := m.moved + 2 } }) rfl writing more (by simp only; omega)
      have next : shifted buf (pos + 2) = shifted (shifted buf pos) 2 := by rw [shifted_shifted]
      simp only [Function.update_self, Function.update_idem] at rest
      rw [rest, next, ← Nat.add_assoc m.first, splice_append, show 2 + 2 * n = 2 * (n + 1) by omega]

end Port

/-! ## One command -/

section OneCommand

variable {hd : Bool} {lba op : Nat} {c : Channel}

/-- A channel nobody has a command on, whose drives are ready in time. -/
structure Idle (c : Channel) : Prop where
  quiet : c.diskDone = 0
  inTime : ∀ k, c.latency k < busyLimit

theorem narrow_toNat {n : Nat} (low : 1 ≤ op) (high : op ≤ 256) (is : n = op) :
    (if BitVec.ofNat 8 n = 0 then 256 else (BitVec.ofNat 8 n).toNat) = op := by
  subst is
  obtain rfl | less : n = 256 ∨ n < 256 := by omega
  · rfl
  · have isNat : (BitVec.ofNat 8 n).toNat = n := by rw [BitVec.toNat_ofNat, Nat.mod_eq_of_lt less]
    rw [if_neg, isNat]
    intro zero
    rw [zero] at isNat
    simp only [BitVec.ofNat_eq_ofNat, BitVec.toNat_zero] at isNat
    omega

/-- The 8-bit argument of a transfer function stands for the sectors of the command. -/
theorem sizeInByte_narrow (low : 1 ≤ op) (high : op ≤ 256) : sizeInByte (BitVec.ofNat 8 op) = 512 * op := by
  have narrow := narrow_toNat low high rfl
  unfold sizeInByte
  split at narrow
  · rename_i zero
    rw [if_pos zero]
    omega
  · rename_i zero
    rw [if_neg zero, narrow]
    omega

/-- What `select_sector` leaves in the device register: the drive and bits 24 to 27 of the address. -/
theorem device_register (hd : Bool) {top : Nat} (small : top < 16) :
    (BitVec.ofNat 8 (bitDevMbs ||| bitDevLba ||| (if hd then bitDevDev else 0) ||| top)).toNat % 16 = top ∧
      (BitVec.ofNat 8 (bitDevMbs ||| bitDevLba ||| (if hd then bitDevDev else 0) ||| top)).getLsbD 4 = hd := by
  revert hd
  interval_cases top <;> decide

/-- `select_sector` makes the registers address the sectors. -/
theorem selectSector_eq (hd : Bool) (c : Channel) (on : lba ≤ maxLba) (low : 1 ≤ op) (high : op ≤ 256) :
    ∃ r, selectSector hd lba (BitVec.ofNat 8 op) c = .ok { c with reg := r } ∧
      { c with reg := r }.sector = lba ∧ { c with reg := r }.sectors = op ∧ { c with reg := r }.slave = hd := by
  simp only [selectSector, assertThat_of on, ok_bind]
  refine ⟨_, rfl, ?_, ?_, ?_⟩
  · have top : lba >>> 24 < 16 := by
      simp only [maxLba, Nat.shiftRight_eq_div_pow] at on ⊢
      omega
    have device := (device_register hd top).1
    simp only [outb, Channel.sector, Function.update_self, Function.update_of_ne, ne_eq, reduceCtorEq,
      not_false_eq_true, device]
    simp only [BitVec.toNat_ofNat, Nat.shiftRight_eq_div_pow]
    omega
  · simp only [outb, Channel.sectors, Function.update_self, Function.update_of_ne, ne_eq, reduceCtorEq,
      not_false_eq_true, BitVec.ofNat_toNat, BitVec.setWidth_eq]
    exact narrow_toNat low high rfl
  · have top : lba >>> 24 < 16 := by
      simp only [maxLba, Nat.shiftRight_eq_div_pow] at on ⊢
      omega
    simp only [outb, Channel.slave, Function.update_self]
    exact (device_register hd top).2

/-- A drive told to read has raised its interrupt when `sema_down` looks. -/
theorem cmdOut_read : cmdOut cmdReadSector c = { c with
    command := some ⟨c.slave, false, 512 * c.sector, 512 * c.sectors, 0, c.latency c.issued⟩
    issued := c.issued + 1
    expectingIntr := false
    diskDone := c.diskDone + 1 } := rfl

theorem cmdOut_write : cmdOut cmdWriteSector c = { c with
    command := some ⟨c.slave, true, 512 * c.sector, 512 * c.sectors, 0, c.latency c.issued⟩
    issued := c.issued + 1
    expectingIntr := true } := rfl

theorem inbStatus_ready {m : Command} (busy : c.command = some m) (ready : m.busy = 0) :
    inbStatus c = (bitStatDrq ||| 0x40, c) := by
  unfold inbStatus
  rw [busy]
  exact if_pos ready

theorem inbStatus_busy {m : Command} (busy : c.command = some m) (wait : m.busy ≠ 0) :
    inbStatus c = (bitStatBsy, { c with command := some { m with busy := m.busy - 1 } }) := by
  unfold inbStatus
  rw [busy]
  exact if_neg wait

theorem busyTurns_eq {n : Nat} {m : Command} (busy : c.command = some m) (inTime : m.busy < n) :
    busyTurns n c = (true, { c with command := some { m with busy := 0 } }) := by
  induction n generalizing c m with
  | zero => omega
  | succ n ih =>
    rw [busyTurns]
    by_cases ready : m.busy = 0
    · have same : { c with command := some { m with busy := 0 } } = c := by rw [← ready, ← busy]
      simp only [inbStatus_ready busy ready, same]
      rfl
    · rw [inbStatus_busy busy ready]
      exact ih (m := { m with busy := m.busy - 1 }) rfl (show m.busy - 1 < n by omega)

/-- What a step leaves alone. -/
structure Kept (c c' : Channel) : Prop where
  disk : c'.disk = c.disk
  diskDone : c'.diskDone = c.diskDone
  latency : c'.latency = c.latency
  expectingIntr : c'.expectingIntr = c.expectingIntr

theorem busyWait_ready {m : Command} (busy : c.command = some m) (inTime : m.busy < busyLimit) :
    ∃ c', busyWait c = (true, c') ∧ c'.command = some { m with busy := 0 } ∧ Kept c c' :=
  ⟨_, busyTurns_eq busy inTime, rfl, ⟨rfl, rfl, rfl, rfl⟩⟩

theorem sizeInByte_words (low : 1 ≤ op) (high : op ≤ 256) : 2 * (sizeInByte (BitVec.ofNat 8 op) / 2) = 512 * op := by
  rw [sizeInByte_narrow low high]
  omega

/-- `read_from_sector` at the start of a command copies all its sectors. -/
theorem readFromSector_eq (pos : Nat) (buf : Image) (busy : c.command = some ⟨hd, false, 512 * lba, 512 * op, 0, 0⟩)
    (low : 1 ≤ op) (high : op ≤ 256) :
    ∃ c', readFromSector pos (BitVec.ofNat 8 op) buf c = .ok (splice buf pos (512 * op) (shifted (c.disk hd) (512 * lba)), c') ∧
      Kept c c' := by
  have size := sizeInByte_words low high
  have moved := insw_eq (sizeInByte (BitVec.ofNat 8 op) / 2) pos buf busy rfl
    (by rw [size]; exact Nat.le_of_eq (Nat.zero_add _))
  rw [size] at moved
  exact ⟨_, moved, ⟨rfl, rfl, rfl, rfl⟩⟩

/-- `write2sector` at the start of a command copies all its sectors, and the drive says so. -/
theorem write2sector_eq (pos : Nat) (buf : Image) (busy : c.command = some ⟨hd, true, 512 * lba, 512 * op, 0, 0⟩)
    (expecting : c.expectingIntr = true) (low : 1 ≤ op) (high : op ≤ 256) :
    ∃ c', write2sector pos (BitVec.ofNat 8 op) buf c = .ok c' ∧ c'.diskDone = c.diskDone + 1 ∧ c'.latency = c.latency ∧
      c'.disk = Function.update c.disk hd (splice (c.disk hd) (512 * lba) (512 * op) (shifted buf pos)) := by
  have size := sizeInByte_words low high
  have moved := outsw_eq (sizeInByte (BitVec.ofNat 8 op) / 2) pos buf busy rfl (by omega)
    (by rw [size]; exact Nat.zero_add _)
  rw [size] at moved
  unfold intrHdHandler at moved
  rw [if_pos expecting] at moved
  exact ⟨_, moved, rfl, rfl, rfl⟩

/-- A turn of `ide_read` copies the sectors of its command to their place in the buffer. -/
theorem readTurn_eq (hd : Bool) (pos : Nat) (buf : Image) (idle : Idle c) (low : 1 ≤ op) (high : op ≤ 256) (on : lba ≤ maxLba) :
    ∃ c', readTurn hd lba op pos buf c = .ok (splice buf pos (512 * op) (shifted (c.disk hd) (512 * lba)), c') ∧
      Idle c' ∧ c'.disk = c.disk := by
  obtain ⟨r, select, sector, sectors, slave⟩ := selectSector_eq hd c on low high
  -- the channel when the interrupt of the command has been taken
  obtain ⟨c1, woken, disk, quiet, latency, command⟩ : ∃ c1, semaDown (cmdOut cmdReadSector { c with reg := r }) = .ok c1 ∧
      c1.disk = c.disk ∧ c1.diskDone = 0 ∧ c1.latency = c.latency ∧
      c1.command = some ⟨hd, false, 512 * lba, 512 * op, 0, c.latency c.issued⟩ := by
    rw [cmdOut_read, slave, sector, sectors]
    exact ⟨_, rfl, rfl, idle.quiet, rfl, rfl⟩
  obtain ⟨c2, waited, ready, kept⟩ := busyWait_ready command (idle.inTime _)
  obtain ⟨c3, moved, kept'⟩ := readFromSector_eq pos buf ready low high
  refine ⟨c3, ?_, ⟨?_, fun k => ?_⟩, ?_⟩
  · unfold readTurn
    rw [select, ok_bind, woken, ok_bind, waited]
    simp only [assertThat_of, ok_bind]
    rw [moved, kept.disk, disk]
  · rw [kept'.diskDone, kept.diskDone, quiet]
  · rw [kept'.latency, kept.latency, latency]
    exact idle.inTime k
  · rw [kept'.disk, kept.disk, disk]

/-- A turn of `ide_write` changes the sectors of its command to their part of the buffer. -/
theorem writeTurn_eq (hd : Bool) (pos : Nat) (buf : Image) (idle : Idle c) (low : 1 ≤ op) (high : op ≤ 256) (on : lba ≤ maxLba) :
    ∃ c', writeTurn hd lba op pos buf c = .ok c' ∧ Idle c' ∧
      c'.disk = Function.update c.disk hd (splice (c.disk hd) (512 * lba) (512 * op) (shifted buf pos)) := by
  obtain ⟨r, select, sector, sectors, slave⟩ := selectSector_eq hd c on low high
  obtain ⟨c1, isC1, disk, quiet, latency, expecting, command⟩ : ∃ c1, cmdOut cmdWriteSector { c with reg := r } = c1 ∧
      c1.disk = c.disk ∧ c1.diskDone = 0 ∧ c1.latency = c.latency ∧ c1.expectingIntr = true ∧
      c1.command = some ⟨hd, true, 512 * lba, 512 * op, 0, c.latency c.issued⟩ := by
    rw [cmdOut_write, slave, sector, sectors]
    exact ⟨_, rfl, rfl, idle.quiet, rfl, rfl, rfl⟩
  obtain ⟨c2, waited, ready, kept⟩ := busyWait_ready command (idle.inTime _)
  -- the interrupt after the last word is the one the command waits for
  obtain ⟨c3, moved, done, latency', disk'⟩ := write2sector_eq pos buf ready
    (kept.expectingIntr.trans expecting) low high
  have woken : semaDown c3 = .ok { c3 with diskDone := 0 } := by
    unfold semaDown
    rw [done, kept.diskDone, quiet]
    rfl
  refine ⟨{ c3 with diskDone := 0 }, ?_, ⟨rfl, fun k => ?_⟩, ?_⟩
  · unfold writeTurn
    rw [select, ok_bind, isC1, waited]
    simp only [assertThat_of, ok_bind]
    rw [moved, ok_bind, woken]
  · show c3.latency k < busyLimit
    rw [latency', kept.latency, latency]
    exact idle.inTime k
  · show c3.disk = _
    rw [disk', kept.disk, disk]

end OneCommand

/-! ## A whole request -/

section Request

variable {hd : Bool} {lba secCnt secsDone : Nat} {buf : Image} {c : Channel}

theorem secsOp_pos (more : secsDone < secCnt) : 1 ≤ secsOp secsDone secCnt := by
  unfold secsOp
  split <;> omega

theorem secsOp_le : secsOp secsDone secCnt ≤ 256 := by
  unfold secsOp
  split <;> omega

/-- Between two commands whole groups of 256 sectors are done, or all the sectors. -/
def AtCommand (secCnt secsDone : Nat) : Prop := secsDone = secCnt ∨ secsDone < secCnt ∧ secsDone % 256 = 0

theorem AtCommand.next (h : AtCommand secCnt secsDone) (more : secsDone < secCnt) :
    AtCommand secCnt (secsDone + secsOp secsDone secCnt) := by
  unfold AtCommand secsOp at *
  split <;> omega

/-- The driver accepts every command of a request it accepts. -/
theorem AtCommand.on (h : AtCommand secCnt secsDone) (more : secsDone < secCnt) (ok : TransferOk lba secCnt) :
    lba + secsDone ≤ maxLba := by
  have last := ok.2.2
  unfold AtCommand at h
  omega

theorem AtCommand.le (h : AtCommand secCnt secsDone) : secsDone ≤ secCnt := by
  unfold AtCommand at h
  omega

/-- **The loop of `ide_read`** copies the sectors that are left. -/
theorem readTurns_eq (hd : Bool) (buf : Image) (idle : Idle c) (ok : TransferOk lba secCnt) (at_ : AtCommand secCnt secsDone) :
    ∃ c', readTurns hd lba secCnt secsDone buf c =
        .ok (splice buf (secsDone * 512) (512 * (secCnt - secsDone)) (shifted (c.disk hd) (512 * (lba + secsDone))), c') ∧
      Idle c' ∧ c'.disk = c.disk := by
  induction left : secCnt - secsDone using Nat.strongRecOn generalizing secsDone buf c with
  | ind k ih =>
    rw [readTurns]
    by_cases more : secsDone < secCnt
    · obtain ⟨c1, turn, idle1, disk1⟩ := readTurn_eq hd (secsDone * 512) buf idle (secsOp_pos more) secsOp_le
        (at_.on more ok)
      have low : 1 ≤ secsOp secsDone secCnt := secsOp_pos more
      have next := at_.next more
      have within := next.le
      obtain ⟨c2, rest, idle2, disk2⟩ := ih (secCnt - (secsDone + secsOp secsDone secCnt)) (by omega)
        (splice buf (secsDone * 512) (512 * secsOp secsDone secCnt) (shifted (c.disk hd) (512 * (lba + secsDone))))
        idle1 next rfl
      refine ⟨c2, ?_, idle2, disk2.trans disk1⟩
      simp only [if_pos more, turn, ok_bind, rest, disk1]
      have source : shifted (c.disk hd) (512 * (lba + (secsDone + secsOp secsDone secCnt))) =
          shifted (shifted (c.disk hd) (512 * (lba + secsDone))) (512 * secsOp secsDone secCnt) := by
        rw [shifted_shifted, show 512 * (lba + (secsDone + secsOp secsDone secCnt)) =
          512 * (lba + secsDone) + 512 * secsOp secsDone secCnt by omega]
      rw [source, show (secsDone + secsOp secsDone secCnt) * 512 = secsDone * 512 + 512 * secsOp secsDone secCnt by omega,
        splice_append, show 512 * secsOp secsDone secCnt + 512 * (secCnt - (secsDone + secsOp secsDone secCnt)) = 512 * k by omega]
    · have none : k = 0 := by omega
      rw [if_neg more, none, Nat.mul_zero, splice_zero]
      exact ⟨c, rfl, idle, rfl⟩

/-- **The loop of `ide_write`** changes the sectors that are left. -/
theorem writeTurns_eq (hd : Bool) (buf : Image) (idle : Idle c) (ok : TransferOk lba secCnt) (at_ : AtCommand secCnt secsDone) :
    ∃ c', writeTurns hd lba secCnt secsDone buf c = .ok c' ∧ Idle c' ∧
      c'.disk = Function.update c.disk hd (splice (c.disk hd) (512 * (lba + secsDone)) (512 * (secCnt - secsDone))
        (shifted buf (secsDone * 512))) := by
  induction left : secCnt - secsDone using Nat.strongRecOn generalizing secsDone c with
  | ind k ih =>
    rw [writeTurns]
    by_cases more : secsDone < secCnt
    · obtain ⟨c1, turn, idle1, disk1⟩ := writeTurn_eq hd (secsDone * 512) buf idle (secsOp_pos more) secsOp_le
        (at_.on more ok)
      have low : 1 ≤ secsOp secsDone secCnt := secsOp_pos more
      have next := at_.next more
      have within := next.le
      obtain ⟨c2, rest, idle2, disk2⟩ := ih (secCnt - (secsDone + secsOp secsDone secCnt)) (by omega) idle1 next rfl
      refine ⟨c2, ?_, idle2, ?_⟩
      · simp only [if_pos more, turn, ok_bind, rest]
      · have source : shifted buf ((secsDone + secsOp secsDone secCnt) * 512) =
            shifted (shifted buf (secsDone * 512)) (512 * secsOp secsDone secCnt) := by
          rw [shifted_shifted, show (secsDone + secsOp secsDone secCnt) * 512 =
            secsDone * 512 + 512 * secsOp secsDone secCnt by omega]
        rw [disk2, disk1, Function.update_idem, Function.update_self, source,
          show 512 * (lba + (secsDone + secsOp secsDone secCnt)) = 512 * (lba + secsDone) + 512 * secsOp secsDone secCnt by omega,
          splice_append, show 512 * secsOp secsDone secCnt + 512 * (secCnt - (secsDone + secsOp secsDone secCnt)) = 512 * k by omega]
    · have none : k = 0 := by omega
      rw [if_neg more, none, Nat.mul_zero, splice_zero, Function.update_eq_self]
      exact ⟨c, rfl, idle, rfl⟩

theorem atCommand_zero (ok : TransferOk lba secCnt) : AtCommand secCnt 0 := .inr ⟨ok.2.1, rfl⟩

theorem Idle.selectDisk (hd : Bool) (idle : Idle c) : Idle (selectDisk hd c) := ⟨idle.quiet, idle.inTime⟩

/-- `ide_read` does to the buffer what the disk of the file system model does. -/
theorem ideRead_eq (hd : Bool) (buf : Image) (idle : Idle c) (ok : TransferOk lba secCnt) :
    ∃ c', ideRead hd lba secCnt buf c = .ok (splice buf 0 (512 * secCnt) (shifted (c.disk hd) (512 * lba)), c') ∧
      Idle c' ∧ c'.disk = c.disk := by
  obtain ⟨c', ran, idle', disk⟩ := readTurns_eq hd buf (idle.selectDisk hd) ok (atCommand_zero ok)
  refine ⟨c', ?_, idle', disk⟩
  simp only [ideRead, assertThat_of ok.1, assertThat_of ok.2.1, ok_bind]
  exact ran

theorem ideWrite_eq (hd : Bool) (buf : Image) (idle : Idle c) (ok : TransferOk lba secCnt) :
    ∃ c', ideWrite hd lba secCnt buf c = .ok c' ∧ Idle c' ∧
      c'.disk = Function.update c.disk hd (splice (c.disk hd) (512 * lba) (512 * secCnt) buf) := by
  obtain ⟨c', ran, idle', disk⟩ := writeTurns_eq hd buf (idle.selectDisk hd) ok (atCommand_zero ok)
  refine ⟨c', ?_, idle', ?_⟩
  · simp only [ideWrite, assertThat_of ok.1, assertThat_of ok.2.1, ok_bind]
    exact ran
  · have whole : shifted buf (0 * 512) = buf := by
      funext x
      simp only [shifted, Nat.zero_mul, Nat.zero_add]
    rw [disk, whole]
    rfl

/-- The commands of a request do to the disk what the disk of the file system model does at once. -/
theorem ideWrite_refines (idle : Idle c) (ok : TransferOk lba secCnt) :
    ∃ c', ideWrite hd lba secCnt buf c = .ok c' ∧
      Sparrow.ideWrite (c.disk hd) lba secCnt buf = .ok (c'.disk hd) := by
  obtain ⟨c', ran, -, disk⟩ := ideWrite_eq hd buf idle ok
  refine ⟨c', ran, ?_⟩
  rw [ideWrite_of ok, disk, Function.update_self]

theorem ideRead_refines (idle : Idle c) (ok : TransferOk lba secCnt) :
    ∃ c' got sectors, ideRead hd lba secCnt buf c = .ok (got, c') ∧
      Sparrow.ideRead (c.disk hd) lba secCnt = .ok sectors ∧ ∀ x, x < 512 * secCnt → got x = sectors x := by
  obtain ⟨c', ran, -, -⟩ := ideRead_eq hd buf idle ok
  refine ⟨c', _, _, ran, ideRead_of ok, fun x inside => ?_⟩
  rw [splice_in (Nat.zero_le x) (by omega), Nat.sub_zero]

/-- **Multi-sector transfers are exact.** On a channel whose drives get ready in time, a write of
sectors of the disk changes these sectors to the bytes of the buffer and nothing else, a read fills
the buffer with them and changes no disk, and a read after the write gives the buffer back. -/
theorem transfers_exact {buf' : Image} (idle : Idle c) (some_ : 1 ≤ secCnt) (last : lba + secCnt - 1 ≤ maxLba) :
    (∃ c₁, ideWrite hd lba secCnt buf c = .ok c₁ ∧
      (∀ x, x < 512 * secCnt → c₁.disk hd (512 * lba + x) = buf x) ∧
      (∀ x, x < 512 * lba ∨ 512 * (lba + secCnt) ≤ x → c₁.disk hd x = c.disk hd x) ∧
      c₁.disk (!hd) = c.disk (!hd) ∧
      ∃ c₂ got, ideRead hd lba secCnt buf' c₁ = .ok (got, c₂) ∧ c₂.disk = c₁.disk ∧
        ∀ x, x < 512 * secCnt → got x = buf x) ∧
    ∃ c₁ got, ideRead hd lba secCnt buf' c = .ok (got, c₁) ∧ c₁.disk = c.disk ∧
      (∀ x, x < 512 * secCnt → got x = c.disk hd (512 * lba + x)) ∧ ∀ x, 512 * secCnt ≤ x → got x = buf' x := by
  have ok : TransferOk lba secCnt := transferOk_of_le some_ (by omega)
  constructor
  · obtain ⟨c₁, wrote, idle₁, disk₁⟩ := ideWrite_eq hd buf idle ok
    obtain ⟨c₂, read, -, disk₂⟩ := ideRead_eq hd buf' idle₁ ok
    have written : ∀ x, x < 512 * secCnt → c₁.disk hd (512 * lba + x) = buf x := by
      intro x inside
      rw [disk₁, Function.update_self, splice_at inside]
    refine ⟨c₁, wrote, written, fun x out => ?_, ?_, c₂, _, read, disk₂, fun x inside => ?_⟩
    · rw [disk₁, Function.update_self, splice_out (by omega)]
    · rw [disk₁, Function.update_of_ne (by cases hd <;> decide)]
    · rw [splice_in (Nat.zero_le x) (by omega), Nat.sub_zero, shifted]
      exact written x inside
  · obtain ⟨c₁, read, -, disk⟩ := ideRead_eq hd buf' idle ok
    refine ⟨c₁, _, read, disk, fun x inside => ?_, fun x out => splice_out (by omega)⟩
    rw [splice_in (Nat.zero_le x) (by omega), Nat.sub_zero, shifted]

end Request

/-- Two blank disks whose status is read busy three times for every command. -/
def blank : Channel := ⟨fun _ _ => 0, fun _ => 0, none, 0, fun _ => 3, false, 0⟩

theorem blank_idle : Idle blank := ⟨rfl, fun _ => show 3 < busyLimit by decide⟩

/-- A write of 257 sectors takes a command of 256 and one of a single sector. -/
theorem transfers_exact_257 : ∃ c₁, ideWrite true 5 257 (fun x => BitVec.ofNat 8 (x / 512)) blank = .ok c₁ ∧
    ∀ x, x < 512 * 257 → c₁.disk true (512 * 5 + x) = BitVec.ofNat 8 (x / 512) := by
  obtain ⟨⟨c₁, wrote, written, -⟩, -⟩ := @transfers_exact true 5 257 (fun x => BitVec.ofNat 8 (x / 512)) blank (fun _ => 0)
    blank_idle (by decide) (by decide)
  exact ⟨c₁, wrote, written⟩

end Sparrow.Transfer
