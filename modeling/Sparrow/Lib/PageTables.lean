import Sparrow.Lib.Image

/-!
# Page tables in an image

A table is a page of 1024 words, one after another in an image. An address of 32 bits is translated
through two of them: its first ten bits choose an entry of the directory, its next ten bits an entry of the
table which that entry names.
-/

namespace Sparrow.PageTables
set_option autoImplicit false

/-- Entry `i` of the table at `t`. -/
def entry (m : Image) (t i : Nat) : Nat := word32 m (t + 4 * i)

/-- The image after a store to that entry. -/
def setEntry (m : Image) (t i v : Nat) : Image := splice m (t + 4 * i) 4 fun k => leByte v k

/-- The lowest bit of an entry says whether it names a frame. -/
def Present (e : Nat) : Prop := e % 2 = 1

instance (e : Nat) : Decidable (Present e) := inferInstanceAs (Decidable (_ = _))

/-- The frame an entry names. -/
def frame (e : Nat) : Nat := e / 4096 * 4096

/-- The entry of the directory `dir` for the address `v`. -/
def pde (m : Image) (dir v : Nat) : Nat := entry m dir (v / 4194304)

/-- The entry of the table which that one names. -/
def pte (m : Image) (dir v : Nat) : Nat := entry m (frame (pde m dir v)) (v / 4096 % 1024)

/-- The physical address of `v`; without one an access is a page fault. -/
def walk (m : Image) (dir v : Nat) : Option Nat :=
  if Present (pde m dir v) ∧ Present (pte m dir v) then some (frame (pte m dir v) + v % 4096) else none

section Entries

variable {m m' : Image} {dir t u i j v w : Nat}

theorem entry_lt (m : Image) (t i : Nat) : entry m t i < 2 ^ 32 := word32_lt m _

theorem frame_aligned (e : Nat) : frame e % 4096 = 0 := Nat.mul_mod_left _ _

/-- A word that is stored is read back. -/
theorem entry_setEntry_same : entry (setEntry m t i v) t i = v % 2 ^ 32 := by
  have bytes : ∀ k, k < 4 → setEntry m t i v (t + 4 * i + k) = wordsImage (fun _ => v) (4 * 0 + k) := by
    intro k lt
    rw [setEntry, splice_at lt, wordsImage, Nat.mul_zero, Nat.zero_add, Nat.mod_eq_of_lt lt]
  rw [entry, word32_congr bytes, word32_wordsImage]

theorem entry_setEntry_apart (apart : u + 4 * j + 4 ≤ t + 4 * i ∨ t + 4 * i + 4 ≤ u + 4 * j) :
    entry (setEntry m t i v) u j = entry m u j := by
  refine word32_congr fun k lt => splice_out ?_
  omega

/-- Tables are pages, so two entries are the same words or apart. -/
theorem entry_setEntry (here : t % 4096 = 0) (there : u % 4096 = 0) (lt : i < 1024) (lt' : j < 1024) :
    entry (setEntry m t i v) u j = if u = t ∧ j = i then v % 2 ^ 32 else entry m u j := by
  split
  · rename_i same
    rw [same.1, same.2, entry_setEntry_same]
  · exact entry_setEntry_apart (by omega)

theorem entry_clear (here : t % 4096 = 0) (there : u % 4096 = 0) (lt : j < 1024) :
    entry (fill m t 4096 0#8) u j = if u = t then 0 else entry m u j := by
  split
  · rename_i same
    have bytes : ∀ k, k < 4 → fill m t 4096 0#8 (u + 4 * j + k) = wordsImage (fun _ => 0) (4 * 0 + k) := by
      intro k small
      rw [fill_in (by omega) (by omega), wordsImage, leByte, Nat.zero_div]
    rw [entry, word32_congr bytes, word32_wordsImage, Nat.zero_mod]
  · exact word32_congr fun k small => fill_out (by omega)

theorem entry_fill_apart {a n : Nat} {b : Byte} (apart : u + 4 * j + 4 ≤ a ∨ a + n ≤ u + 4 * j) :
    entry (fill m a n b) u j = entry m u j :=
  word32_congr fun k small => fill_out (by omega)

/-- An entry whose first byte is cleared names no frame. -/
theorem not_present_clear : ¬ Present (entry (fill m (t + 4 * i) 1 0#8) t i) := by
  rw [entry, word32, Present, fill_in (Nat.le_refl _) (Nat.lt_succ_self _)]
  simp only [BitVec.toNat_ofNat]
  omega

end Entries

section Walk

variable {m m' : Image} {dir v : Nat}

/-- Where both entries name a frame, the address has one. -/
theorem walk_of (table : Present (pde m dir v)) (page : Present (pte m dir v)) :
    walk m dir v = some (frame (pte m dir v) + v % 4096) := if_pos ⟨table, page⟩

theorem walk_noTable (absent : ¬ Present (pde m dir v)) : walk m dir v = none := if_neg fun both => absent both.1

theorem walk_noPage (absent : ¬ Present (pte m dir v)) : walk m dir v = none := if_neg fun both => absent both.2

theorem walk_eq_none : walk m dir v = none ↔ (Present (pde m dir v) → ¬ Present (pte m dir v)) := by
  rw [walk, ite_eq_right_iff]
  simp

/-- The two entries that an address goes through decide where it is. -/
theorem walk_congr (table : pde m' dir v = pde m dir v) (page : Present (pde m dir v) → pte m' dir v = pte m dir v) :
    walk m' dir v = walk m dir v := by
  by_cases isTable : Present (pde m dir v)
  · rw [walk, walk, table, page isTable]
  · rw [walk_noTable isTable, walk_noTable (by rwa [table])]

end Walk

end Sparrow.PageTables
