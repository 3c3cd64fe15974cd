import Sparrow.Lib.Image

/-!
# Stacks of words

A stack in an image grows towards lower addresses: at the stack pointer lies the word pushed last, and the
words pushed before it follow. `Holds m a ws` says that the words `ws` lie at `a`. Pushing puts words in
front of them (`holds_pushAll`) and touches nothing outside of the bytes between the new stack pointer and the
old one (`pushAll_out`).
-/

namespace Sparrow.Stack
set_option autoImplicit false

abbrev Word := BitVec 32

/-- The word at `a`. -/
def loadWord (m : Image) (a : Nat) : Word := BitVec.ofNat 32 (word32 m a)

/-- The image after the word at `a` was overwritten. -/
def storeWord (m : Image) (a : Nat) (w : Word) : Image := splice m a 4 fun k => leByte w.toNat k

/-- The address `n` words above `a`. -/
def up (a : Word) (n : Nat) : Word := a + BitVec.ofNat 32 (4 * n)

/-- The address `n` words below `a`. -/
def down (a : Word) (n : Nat) : Word := a - BitVec.ofNat 32 (4 * n)

/-- The words `ws` lie one after another from `a` on. -/
def HoldsWords (m : Image) : Nat → List Word → Prop
  | _, [] => True
  | a, w :: ws => loadWord m a = w ∧ HoldsWords m (a + 4) ws

/-- The image after `ws` were pushed one after another on the stack that ends at `sp`. -/
def pushAll (m : Image) : Nat → List Word → Image
  | _, [] => m
  | sp, w :: ws => pushAll (storeWord m (sp - 4) w) (sp - 4) ws

section Addresses

variable {a : Word} {k n : Nat}

theorem down_zero : down a 0 = a := BitVec.sub_zero a

theorem up_up : up (up a k) n = up a (k + n) := by
  unfold up
  rw [BitVec.add_assoc, ← BitVec.ofNat_add, ← Nat.mul_add]

theorem down_down : down (down a k) n = down a (k + n) := by
  unfold down
  rw [Nat.mul_add, BitVec.ofNat_add]
  bv_omega

theorem up_down : up (down a n) n = a := BitVec.sub_add_cancel a _

theorem down_up : down (up a n) n = a := BitVec.add_sub_cancel a _

theorem toNat_up (room : a.toNat + 4 * n < 2 ^ 32) : (up a n).toNat = a.toNat + 4 * n := by
  rw [up, BitVec.toNat_add, BitVec.toNat_ofNat, Nat.mod_eq_of_lt (show 4 * n < 2 ^ 32 by omega), Nat.mod_eq_of_lt room]

theorem toNat_down (room : 4 * n ≤ a.toNat) : (down a n).toNat = a.toNat - 4 * n := by
  have := a.isLt
  rw [down, BitVec.toNat_sub_of_le, BitVec.toNat_ofNat, Nat.mod_eq_of_lt (by omega)]
  rw [BitVec.le_def, BitVec.toNat_ofNat, Nat.mod_eq_of_lt (by omega)]
  exact room

end Addresses

section Words

variable {m m' : Image} {a b : Nat} {w : Word} {ws vs : List Word}

theorem load_congr (same : ∀ i, i < 4 → m' (b + i) = m (a + i)) : loadWord m' b = loadWord m a := by
  unfold loadWord
  rw [word32_congr same]

theorem load_store_same : loadWord (storeWord m a w) a = w := by
  have bytes : ∀ i, i < 4 → storeWord m a w (a + i) = wordsImage (fun _ => w.toNat) (4 * 0 + i) := by
    intro i lt
    rw [storeWord, splice_at lt, wordsImage, Nat.mul_zero, Nat.zero_add, Nat.mod_eq_of_lt lt]
  rw [loadWord, word32_congr bytes, word32_wordsImage]
  apply BitVec.eq_of_toNat_eq
  rw [BitVec.toNat_ofNat, Nat.mod_mod, Nat.mod_eq_of_lt w.isLt]

theorem load_store_apart (apart : b + 4 ≤ a ∨ a + 4 ≤ b) : loadWord (storeWord m a w) b = loadWord m b := by
  refine load_congr fun i lt => splice_out ?_
  omega

theorem store_out {x : Nat} (out : x < a ∨ a + 4 ≤ x) : storeWord m a w x = m x := splice_out out

@[simp] theorem holds_nil : HoldsWords m a [] := trivial

@[simp] theorem holds_cons : HoldsWords m a (w :: ws) ↔ loadWord m a = w ∧ HoldsWords m (a + 4) ws := Iff.rfl

theorem holds_append : HoldsWords m a (ws ++ vs) ↔ HoldsWords m a ws ∧ HoldsWords m (a + 4 * ws.length) vs := by
  induction ws generalizing a with
  | nil => simp
  | cons w ws ih =>
    rw [List.cons_append, holds_cons, holds_cons, ih, and_assoc, List.length_cons]
    rw [show a + 4 * (ws.length + 1) = a + 4 + 4 * ws.length by omega]

/-- The words at `a` depend on the bytes they take. -/
theorem HoldsWords.congr (h : HoldsWords m a ws) (same : ∀ x, a ≤ x → x < a + 4 * ws.length → m' x = m x) :
    HoldsWords m' a ws := by
  induction ws generalizing a with
  | nil => trivial
  | cons w ws ih =>
    rw [List.length_cons] at same
    refine ⟨?_, ih h.2 fun x low high => same x (by omega) (by omega)⟩
    rw [← h.1]
    exact load_congr fun i lt => same _ (by omega) (by omega)

/-- Words moved with the page they lie in. -/
theorem HoldsWords.copied (h : HoldsWords m a ws) (same : ∀ i, i < 4 * ws.length → m' (b + i) = m (a + i)) :
    HoldsWords m' b ws := by
  induction ws generalizing a b with
  | nil => trivial
  | cons w ws ih =>
    rw [List.length_cons] at same
    refine ⟨?_, ih h.2 fun i lt => ?_⟩
    · rw [← h.1]
      exact load_congr fun i lt => same i (by omega)
    · rw [Nat.add_assoc, Nat.add_assoc]
      exact same (4 + i) (by omega)

/-- A store between other words. -/
theorem HoldsWords.store (h : HoldsWords m a ws) (apart : a + 4 * ws.length ≤ b ∨ b + 4 ≤ a) :
    HoldsWords (storeWord m b w) a ws := by
  refine h.congr fun x low high => store_out ?_
  omega

/-- A word on the stack overwritten. -/
theorem HoldsWords.set (h : HoldsWords m a (ws ++ w :: vs)) {v : Word} :
    HoldsWords (storeWord m (a + 4 * ws.length) v) a (ws ++ v :: vs) := by
  rw [holds_append, holds_cons] at h ⊢
  obtain ⟨front, -, rest⟩ := h
  exact ⟨front.store (.inl (Nat.le_refl _)), load_store_same, rest.store (.inr (Nat.le_refl _))⟩

/-- Bytes outside of what was pushed stay as they are. -/
theorem pushAll_out {x : Nat} (room : 4 * ws.length ≤ a) (out : x < a - 4 * ws.length ∨ a ≤ x) : pushAll m a ws x = m x := by
  induction ws generalizing m a with
  | nil => rfl
  | cons w ws ih =>
    rw [List.length_cons] at room out
    rw [pushAll, ih (by omega) (by omega)]
    refine store_out ?_
    omega

/-- The words that were pushed lie in front of the stack, the last one first. -/
theorem holds_pushAll (room : 4 * ws.length ≤ a) : HoldsWords (pushAll m a ws) (a - 4 * ws.length) ws.reverse := by
  induction ws generalizing m a with
  | nil => trivial
  | cons w ws ih =>
    rw [List.length_cons] at room ⊢
    rw [List.reverse_cons, pushAll, holds_append]
    refine ⟨?_, ?_, trivial⟩
    · rw [show a - 4 * (ws.length + 1) = a - 4 - 4 * ws.length by omega]
      exact ih (by omega)
    · rw [List.length_reverse, show a - 4 * (ws.length + 1) + 4 * ws.length = a - 4 by omega]
      calc loadWord (pushAll (storeWord m (a - 4) w) (a - 4) ws) (a - 4)
          = loadWord (storeWord m (a - 4) w) (a - 4) := load_congr fun i _ => pushAll_out (by omega) (.inr (by omega))
        _ = w := load_store_same

/-- What was pushed lies in front of what was on the stack before. -/
theorem HoldsWords.pushAll (h : HoldsWords m a vs) (room : 4 * ws.length ≤ a) :
    HoldsWords (Stack.pushAll m a ws) (a - 4 * ws.length) (ws.reverse ++ vs) := by
  refine holds_append.2 ⟨holds_pushAll room, ?_⟩
  rw [List.length_reverse, Nat.sub_add_cancel room]
  exact h.congr fun x low _ => pushAll_out room (.inr low)

end Words

end Sparrow.Stack
