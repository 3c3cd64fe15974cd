import Sparrow.Lib.Image

/-!
# The disk behind `ide_read` and `ide_write`

`device/ide.c` moves whole 512-byte sectors. A disk is one image: sector `lba` holds
the bytes `512 * lba .. 512 * lba + 511`. A transfer of more than 256 sectors is cut
into commands of 256 sectors, and `select_sector` asserts `lba <= max_lba` for the
first sector of each command.
-/

namespace Sparrow
set_option autoImplicit false

/-- `max_lba`, the last sector of an 80MB disk. -/
def maxLba : Nat := 80 * 1024 * 1024 / 512 - 1

/-- Every command of a transfer starts at a sector the driver accepts. -/
abbrev TransferOk (lba secCnt : Nat) : Prop :=
  lba ≤ maxLba ∧ 0 < secCnt ∧ lba + 256 * ((secCnt - 1) / 256) ≤ maxLba

/-- `ide_read`: the buffer the sectors are read into. -/
def ideRead (disk : Image) (lba secCnt : Nat) : Exec Image := do
  assertThat (TransferOk lba secCnt)
  return shifted disk (512 * lba)

/-- `ide_write`: the disk after `secCnt` sectors of `buf` are written at `lba`. -/
def ideWrite (disk : Image) (lba secCnt : Nat) (buf : Image) : Exec Image := do
  assertThat (TransferOk lba secCnt)
  return splice disk (512 * lba) (512 * secCnt) buf

theorem transferOk_one {lba : Nat} : TransferOk lba 1 ↔ lba ≤ maxLba := by
  simp [TransferOk]

theorem ideRead_of {disk : Image} {lba secCnt : Nat} (ok : TransferOk lba secCnt) :
    ideRead disk lba secCnt = .ok (shifted disk (512 * lba)) := by
  rw [ideRead, assertThat_of ok]
  rfl

theorem ideWrite_of {disk buf : Image} {lba secCnt : Nat} (ok : TransferOk lba secCnt) :
    ideWrite disk lba secCnt buf = .ok (splice disk (512 * lba) (512 * secCnt) buf) := by
  rw [ideWrite, assertThat_of ok]
  rfl

/-- A transfer that ends on the disk is accepted. -/
theorem transferOk_of_le {lba secCnt : Nat} (pos : 0 < secCnt) (last : lba + secCnt ≤ maxLba + 1) :
    TransferOk lba secCnt := by
  refine ⟨?_, pos, ?_⟩ <;> omega

theorem ideRead_ok {disk buf : Image} {lba secCnt : Nat} :
    ideRead disk lba secCnt = .ok buf ↔ TransferOk lba secCnt ∧ buf = shifted disk (512 * lba) := by
  simp only [ideRead, bind_ok, assertThat_ok, pure_ok, exists_const]
  constructor
  · rintro ⟨ok, rfl⟩; exact ⟨ok, rfl⟩
  · rintro ⟨ok, rfl⟩; exact ⟨ok, rfl⟩

theorem ideWrite_ok {disk disk' buf : Image} {lba secCnt : Nat} :
    ideWrite disk lba secCnt buf = .ok disk' ↔
      TransferOk lba secCnt ∧ disk' = splice disk (512 * lba) (512 * secCnt) buf := by
  simp only [ideWrite, bind_ok, assertThat_ok, pure_ok, exists_const]
  constructor
  · rintro ⟨ok, rfl⟩; exact ⟨ok, rfl⟩
  · rintro ⟨ok, rfl⟩; exact ⟨ok, rfl⟩

end Sparrow
