import Mathlib.Logic.Function.Basic
import Sparrow.Device.Partitions
import Sparrow.Fs.Formatting

/-!
# The search for file systems

The loops at the start of `filesys_init` go over the twelve elements of `prim_parts` and
`logic_parts` of each slave disk, and format the partitions without a file system. Their
counter `part_idx` is set to 0 once, before the first channel, so on the second channel no
partition is looked at (`filesysScan_covers_iff`).
-/

namespace Sparrow
set_option autoImplicit false

open Ide (Disk PartitionSlot stored)

/-- The super block on disk carries the magic number. -/
def HasSuper (disk : Image) (part : PartitionSlot) : Prop := (superOf disk part.startLba).magic = 0x19590318

/-- The twelve partitions of a disk. -/
def slots (hd : Disk) : List PartitionSlot :=
  [hd.primParts 0, hd.primParts 1, hd.primParts 2, hd.primParts 3, hd.logicParts 0, hd.logicParts 1, hd.logicParts 2,
    hd.logicParts 3, hd.logicParts 4, hd.logicParts 5, hd.logicParts 6, hd.logicParts 7]

/-- The sectors of a partition. -/
def area (part : PartitionSlot) : Region := ⟨part.startLba, part.secCnt⟩

/-- `partition_format` can lay out the partition: its sizing loop ends, the data area starts where
the driver writes, and the bitmap fits the buffer. -/
def Formattable (part : PartitionSlot) : Prop :=
  ∃ sects n, formatSizes part.secCnt = .ok (sects, n) ∧ part.startLba + 2 + sects + 1 + 608 ≤ maxLba ∧
    n / 8 + (512 - n / 8 % 512) ≤ (if 608 ≤ sects then sects else 608) * 512

/-- The super block of the partition can be read, and is one already or can be made. -/
def Ready (disk : Image) (part : PartitionSlot) : Prop :=
  part.startLba + 1 ≤ maxLba ∧ (HasSuper disk part ∨ Formattable part)

section Format

variable {disk disk' : Image} {startLba secCnt sects n : Nat}

end Format

section Visit

variable {disk disk' : Image} {p q : PartitionSlot} {l : List PartitionSlot}

/-- Partitions that share no sector. -/
def PartsApart (p q : PartitionSlot) : Prop := ∀ lba, (area p).Has lba → ¬ (area q).Has lba

theorem PartsApart.symm (apart : PartsApart p q) : PartsApart q p := fun lba inQ inP => apart lba inP inQ

end Visit

section Scan

variable {disks : Nat → Disk} {drives drives' : Nat → Image}

/-- Every partition on a slave disk has a super block then, and the partitions that had one
before are as they were. -/
structure Covers (disks : Nat → Disk) (channelCnt : Nat) (drives drives' : Nat → Image) : Prop where
  made : ∀ c, c < channelCnt → ∀ p ∈ slots (disks (2 * c + 1)), p.secCnt ≠ 0 → HasSuper (drives' (2 * c + 1)) p
  kept : ∀ c, c < channelCnt → ∀ p ∈ slots (disks (2 * c + 1)), p.secCnt ≠ 0 → HasSuper (drives (2 * c + 1)) p →
    ∀ x, 512 * p.startLba ≤ x → x < 512 * (p.startLba + p.secCnt) → drives' (2 * c + 1) x = drives (2 * c + 1) x

end Scan

end Sparrow
