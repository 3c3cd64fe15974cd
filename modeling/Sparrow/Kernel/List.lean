import Sparrow.Lib.Links
import Sparrow.Lib.Exec

/-!
# `lib/kernel/list.c`

A `struct list` is two `struct list_elem`, `head` and `tail`; a `struct list_elem` is the
pointers `prev` and `next`. `FreeList m plist L` says that the list at `plist` is in order
and that its elements are `L`.
-/

namespace Sparrow
set_option autoImplicit false

/-- `list_init`. -/
def listInit (m : Mem) (plist : Nat) : Mem :=
  let m := store m plist 0
  let m := store m (plist + 4) (plist + 8)
  let m := store m (plist + 8) plist
  store m (plist + 12) 0

/-- `list_insert_before`. -/
def listInsertBefore (m : Mem) (before elem : Nat) : Mem :=
  let m := store m (m before + 4) elem
  let m := store m elem (m before)
  let m := store m (elem + 4) before
  store m before elem

/-- `list_push`. -/
def listPush (m : Mem) (plist elem : Nat) : Mem := listInsertBefore m (m (plist + 4)) elem

/-- `list_append`. -/
def listAppend (m : Mem) (plist elem : Nat) : Mem := listInsertBefore m (plist + 8) elem

/-- `list_remove`. -/
def listRemove (m : Mem) (pelem : Nat) : Mem :=
  let m := store m (m pelem + 4) (m (pelem + 4))
  store m (m (pelem + 4)) (m pelem)

/-- `list_pop`. -/
def listPop (m : Mem) (plist : Nat) : Nat × Mem :=
  let elem := m (plist + 4)
  (elem, listRemove m elem)

/-- `elem_find`. There are fewer than `2 ^ 32` addresses, so a walk that takes more steps
never ends. -/
def elemFind (m : Mem) (plist objElem : Nat) : Exec Bool :=
  match reaches m (plist + 8) objElem (2 ^ 32) (m (plist + 4)) with
  | some found => .ok found
  | none => .error .diverge

/-- `list_empty`. -/
def listEmpty (m : Mem) (plist : Nat) : Bool := m (plist + 4) == plist + 8

/-- The loop of `list_traversal` from `elem` on, to the tail at `t`. -/
def traverseFrom (m : Mem) (t : Nat) (func : Nat → Bool) : Nat → Nat → Exec Nat
  | 0, _ => .error .diverge
  | fuel + 1, elem => if elem = t then .ok 0 else if func elem then .ok elem else traverseFrom m t func fuel (m (elem + 4))

/-- `list_traversal` with a function that leaves the list alone, and its argument. -/
def listTraversal (m : Mem) (plist : Nat) (func : Nat → Int → Bool) (arg : Int) : Exec Nat :=
  let elem := m (plist + 4)
  if listEmpty m plist then .ok 0 else traverseFrom m (plist + 8) (func · arg) (2 ^ 32) elem

/-- The loop of `list_len`, with a `uint32_t` that counts. -/
def lenFrom (m : Mem) (t : Nat) : Nat → Nat → BitVec 32 → Exec (BitVec 32)
  | 0, _, _ => .error .diverge
  | fuel + 1, elem, length => if elem = t then .ok length else lenFrom m t fuel (m (elem + 4)) (length + 1#32)

/-- `list_len`. -/
def listLen (m : Mem) (plist : Nat) : Exec (BitVec 32) := lenFrom m (plist + 8) (2 ^ 32) (m (plist + 4)) 0#32

/-- The nodes of the list at `plist` with the elements `L`. -/
def nodesOf (plist : Nat) (L : List Nat) : List Nat := plist :: L ++ [plist + 8]

/-- The list at `plist` has the elements `L`. -/
abbrev IsList (m : Mem) (plist : Nat) (L : List Nat) : Prop := Linked m (nodesOf plist L)

section Lists

variable {m : Mem} {plist e : Nat} {L : List Nat}

theorem isList_init : IsList (listInit m plist) plist [] := by
  refine ⟨?_, ?_⟩
  · refine List.isChain_cons_cons.2 ⟨⟨?_, ?_⟩, List.isChain_singleton _⟩ <;> simp [listInit, store]
  · simp [nodesOf, NodesApart]

section Insert

variable {before after : List Nat} {p n : Nat}

/-- `list_insert_before` puts the element between two neighbours. -/
theorem Linked.insertBefore (h : Linked m (before ++ p :: n :: after))
    (fresh : ∀ x, x ∈ before ++ p :: n :: after → NodesApart x e) :
    Linked (listInsertBefore m n e) (before ++ p :: e :: n :: after) := by
  have prev : m n = p := (List.isChain_append_cons_cons.1 h.links).2.1.2
  have pe := (fresh p (by simp)).words
  have ne := (fresh n (by simp)).words
  have pn : NodesApart p n := by
    have pairs := h.apart
    simp only [List.pairwise_append, List.pairwise_cons, List.mem_cons, forall_eq_or_imp] at pairs
    exact pairs.2.1.1.1
  have np := pn.words
  refine h.insert fresh ?_ ?_ ?_ ?_ ?_
  all_goals simp only [listInsertBefore, store, prev]
  · grind
  · grind
  · grind
  · grind
  · grind

theorem listInsertBefore_frame (prev : m n = p) {x : Nat} (notP : x ≠ p + 4) (notE : x ≠ e) (notE' : x ≠ e + 4) (notN : x ≠ n) :
    listInsertBefore m n e x = m x := by
  simp only [listInsertBefore, store, prev, if_neg notP, if_neg notE, if_neg notE', if_neg notN]

end Insert

/-- The last node before the tail. -/
theorem nodesOf_last (plist : Nat) (L : List Nat) : ∃ before p, nodesOf plist L = before ++ [p, plist + 8] ∧
    ∀ e, nodesOf plist (L ++ [e]) = before ++ [p, e, plist + 8] := by
  obtain ⟨before, p, ends⟩ : ∃ before p, plist :: L = before ++ [p] :=
    ⟨_, _, (List.dropLast_append_getLast (List.cons_ne_nil plist L)).symm⟩
  refine ⟨before, p, by simp [nodesOf, ends], fun e => ?_⟩
  rw [nodesOf, ← List.cons_append, ends]
  simp

/-- `list_append` adds the element at the end. -/
theorem IsList.append (h : IsList m plist L) (fresh : ∀ x, x ∈ nodesOf plist L → NodesApart x e) :
    IsList (listAppend m plist e) plist (L ++ [e]) := by
  obtain ⟨before, p, nodes, nodes'⟩ := nodesOf_last plist L
  rw [nodes] at fresh
  rw [IsList, nodes] at h
  rw [IsList, nodes']
  exact h.insertBefore fresh

/-- `list_push` adds the element at the start. -/
theorem IsList.push (h : IsList m plist L) (fresh : ∀ x, x ∈ nodesOf plist L → NodesApart x e) :
    IsList (listPush m plist e) plist (e :: L) := by
  obtain ⟨n, after, starts⟩ : ∃ n after, L ++ [plist + 8] = n :: after := List.exists_cons_of_ne_nil (by simp)
  have nodes : nodesOf plist L = [] ++ plist :: n :: after := congrArg (plist :: ·) starts
  have nodes' : nodesOf plist (e :: L) = [] ++ plist :: e :: n :: after := congrArg (plist :: e :: ·) starts
  rw [nodes] at fresh
  rw [IsList, nodes] at h
  rw [IsList, nodes', listPush, (List.isChain_cons_cons.1 h.links).1.1]
  exact h.insertBefore fresh

/-- Where an element stands in its list. -/
theorem nodesOf_around (plist : Nat) (mem : e ∈ L) : ∃ before p n after,
    nodesOf plist L = before ++ p :: e :: n :: after ∧ nodesOf plist (L.erase e) = before ++ p :: n :: after := by
  obtain ⟨front, back, -, whole, without⟩ := List.exists_erase_eq mem
  obtain ⟨before, p, ends⟩ : ∃ before p, plist :: front = before ++ [p] :=
    ⟨_, _, (List.dropLast_append_getLast (List.cons_ne_nil plist front)).symm⟩
  obtain ⟨n, after, starts⟩ : ∃ n after, back ++ [plist + 8] = n :: after :=
    List.exists_cons_of_ne_nil (by simp)
  refine ⟨before, p, n, after, ?_, ?_⟩
  · rw [nodesOf, whole, ← List.cons_append, ends, ← starts]
    simp
  · rw [nodesOf, without, ← List.cons_append, ends, ← starts]
    simp

/-- `list_remove` takes an element out. -/
theorem IsList.remove (h : IsList m plist L) (mem : e ∈ L) : IsList (listRemove m e) plist (L.erase e) := by
  obtain ⟨before, p, n, after, nodes, nodes'⟩ := nodesOf_around plist mem
  rw [IsList, nodes] at h
  rw [IsList, nodes']
  have links := h.links
  rw [List.isChain_append_cons_cons, List.isChain_cons_cons] at links
  obtain ⟨-, ⟨pe, ep⟩, ⟨en, ne⟩, -⟩ := links
  have pairs := h.apart
  simp only [List.pairwise_append, List.pairwise_cons, List.mem_cons, forall_eq_or_imp] at pairs
  obtain ⟨-, ⟨⟨ape, apn, -⟩, ⟨aen, -⟩, -⟩, -⟩ := pairs
  have w1 := ape.words
  have w2 := apn.words
  have w3 := aen.words
  refine h.unlink ?_ ?_ ?_
  all_goals simp only [listRemove, store, ep, en]
  · grind
  · grind
  · grind

/-- `list_pop` takes the first element. -/
theorem IsList.pop (h : IsList m plist (e :: L)) :
    (listPop m plist).1 = e ∧ IsList (listPop m plist).2 plist L := by
  have first : m (plist + 4) = e := (List.isChain_cons_cons.1 h.links).1.1
  refine ⟨first, ?_⟩
  have := h.remove (e := e) (by simp)
  rw [List.erase_cons_head] at this
  simpa only [listPop, first] using this

theorem IsList.empty_iff (h : IsList m plist L) : listEmpty m plist = true ↔ L = [] := by
  cases L with
  | nil => simpa [listEmpty] using (List.isChain_cons_cons.1 h.links).1.1
  | cons e L =>
    have first : m (plist + 4) = e := (List.isChain_cons_cons.1 h.links).1.1
    have apart : NodesApart e (plist + 8) := (List.pairwise_cons.1 (List.pairwise_cons.1 h.apart).2).1 _ (by simp)
    simp [listEmpty, first, apart.words.1]

/-- `elem_find` finds the elements of the list. -/
theorem IsList.find (h : IsList m plist L) (short : L.length < 2 ^ 32) :
    elemFind m plist e = .ok (decide (e ∈ L)) := by
  rw [elemFind, (Linked.next h).1, Linked.reaches_eq h.tail short]

theorem traverseFrom_eq {t : Nat} {func : Nat → Bool} : ∀ {nodes : List Nat} {fuel : Nat}, Linked m (nodes ++ [t]) → nodes.length < fuel →
    traverseFrom m t func fuel (nodes.headD t) = .ok ((nodes.find? func).getD 0) := by
  intro nodes
  induction nodes with
  | nil =>
    intro fuel _ enough
    obtain ⟨fuel, rfl⟩ := Nat.exists_eq_succ_of_ne_zero (Nat.ne_of_gt enough)
    exact if_pos rfl
  | cons v rest ih =>
    intro fuel h enough
    obtain ⟨fuel, rfl⟩ := Nat.exists_eq_succ_of_ne_zero (Nat.ne_of_gt (Nat.lt_of_le_of_lt (Nat.zero_le _) enough))
    obtain ⟨next, notEnd⟩ := h.next
    rw [traverseFrom, List.headD_cons, if_neg notEnd, List.find?_cons]
    by_cases hit : func v
    · simp [hit]
    · rw [if_neg hit, next, ih h.tail (Nat.lt_of_succ_lt_succ enough)]
      simp [hit]

/-- `list_traversal` gives the first element with the property. -/
theorem IsList.traversal (h : IsList m plist L) (short : L.length < 2 ^ 32) (func : Nat → Int → Bool) (arg : Int) :
    listTraversal m plist func arg = .ok ((L.find? (func · arg)).getD 0) := by
  unfold listTraversal
  by_cases empty : listEmpty m plist
  · rw [h.empty_iff.1 empty]
    exact if_pos empty
  · dsimp only
    rw [if_neg empty, (Linked.next h).1, traverseFrom_eq h.tail short]

theorem lenFrom_eq {t : Nat} : ∀ {nodes : List Nat} {fuel : Nat} {length : BitVec 32}, Linked m (nodes ++ [t]) → nodes.length < fuel →
    lenFrom m t fuel (nodes.headD t) length = .ok (length + BitVec.ofNat 32 nodes.length) := by
  intro nodes
  induction nodes with
  | nil =>
    intro fuel length _ enough
    obtain ⟨fuel, rfl⟩ := Nat.exists_eq_succ_of_ne_zero (Nat.ne_of_gt enough)
    exact (if_pos rfl).trans (congrArg _ (BitVec.add_zero length).symm)
  | cons v rest ih =>
    intro fuel length h enough
    obtain ⟨fuel, rfl⟩ := Nat.exists_eq_succ_of_ne_zero (Nat.ne_of_gt (Nat.lt_of_le_of_lt (Nat.zero_le _) enough))
    obtain ⟨next, notEnd⟩ := h.next
    rw [lenFrom, List.headD_cons, if_neg notEnd, next, ih h.tail (Nat.lt_of_succ_lt_succ enough), BitVec.add_assoc,
      List.length_cons, Nat.add_comm rest.length 1, BitVec.ofNat_add]

/-- `list_len` counts the elements. -/
theorem IsList.len (h : IsList m plist L) (short : L.length < 2 ^ 32) : listLen m plist = .ok (BitVec.ofNat 32 L.length) := by
  rw [listLen, (Linked.next h).1, lenFrom_eq h.tail short, BitVec.zero_add]

/-! Only words of the nodes change. -/

theorem listAppend_frame (h : IsList m plist L) {x : Nat} (out : ¬ OfNodes (nodesOf plist (L ++ [e])) x) :
    listAppend m plist e x = m x := by
  obtain ⟨before, p, nodes, nodes'⟩ := nodesOf_last plist L
  rw [IsList, nodes] at h
  rw [nodes'] at out
  exact listInsertBefore_frame (List.isChain_append_cons_cons.1 h.links).2.1.2 (fun hx => out ⟨p, by simp, .inr hx⟩)
    (fun hx => out ⟨e, by simp, .inl hx⟩) (fun hx => out ⟨e, by simp, .inr hx⟩) (fun hx => out ⟨plist + 8, by simp, .inl hx⟩)

theorem listPush_frame (h : IsList m plist L) {x : Nat} (out : ¬ OfNodes (nodesOf plist (e :: L)) x) : listPush m plist e x = m x := by
  obtain ⟨n, after, starts⟩ : ∃ n after, L ++ [plist + 8] = n :: after := List.exists_cons_of_ne_nil (by simp)
  have nodes : nodesOf plist L = plist :: n :: after := congrArg (plist :: ·) starts
  have nodes' : nodesOf plist (e :: L) = plist :: e :: n :: after := congrArg (plist :: e :: ·) starts
  rw [IsList, nodes] at h
  rw [nodes'] at out
  obtain ⟨next, prev⟩ := (List.isChain_cons_cons.1 h.links).1
  rw [listPush, next]
  exact listInsertBefore_frame prev (fun hx => out ⟨plist, by simp, .inr hx⟩) (fun hx => out ⟨e, by simp, .inl hx⟩)
    (fun hx => out ⟨e, by simp, .inr hx⟩) (fun hx => out ⟨n, by simp, .inl hx⟩)

theorem listRemove_frame (h : IsList m plist L) (mem : e ∈ L) {x : Nat} (out : ¬ OfNodes (nodesOf plist L) x) :
    listRemove m e x = m x := by
  obtain ⟨before, p, n, after, nodes, -⟩ := nodesOf_around plist mem
  rw [IsList, nodes] at h
  rw [nodes] at out
  have links := h.links
  rw [List.isChain_append_cons_cons, List.isChain_cons_cons] at links
  obtain ⟨-, ⟨-, ep⟩, ⟨en, -⟩, -⟩ := links
  have pairs := h.apart
  simp only [List.pairwise_append, List.pairwise_cons, List.mem_cons, forall_eq_or_imp] at pairs
  obtain ⟨-, ⟨⟨ape, -⟩, -⟩, -⟩ := pairs
  have notP : x ≠ p + 4 := fun hx => out ⟨p, by simp, .inr hx⟩
  have notN : x ≠ n := fun hx => out ⟨n, by simp, .inl hx⟩
  simp only [listRemove, store, ep, en]
  grind [ape.words]

end Lists

/-! ## Lists as sequences -/

/-- The list at `plist` stands for the sequence `L` of distinct elements, all of them in memory. -/
structure Represents (m : Mem) (plist : Nat) (L : List Nat) : Prop where
  list : IsList m plist L
  memory : ∀ u ∈ nodesOf plist L, u + 8 ≤ 2 ^ 32

/-- An element that lies in no node of the list. -/
structure FreshNode (plist : Nat) (L : List Nat) (e : Nat) : Prop where
  apart : ∀ u ∈ nodesOf plist L, NodesApart u e
  memory : e + 8 ≤ 2 ^ 32

/-- Lists that have no word in common with these nodes keep their words, and so what they stand for. -/
def KeepsOthers (m m' : Mem) (nodes : List Nat) : Prop :=
  ∀ other ys, Represents m other ys → (∀ x, OfNodes (nodesOf other ys) x → ¬ OfNodes nodes x) →
    Represents m' other ys ∧ ∀ x, OfNodes (nodesOf other ys) x → m' x = m x

section Sequences

variable {m m' : Mem} {plist e : Nat} {L : List Nat}

theorem keepsOthers_of_frame {nodes : List Nat} (frame : ∀ x, ¬ OfNodes nodes x → m' x = m x) : KeepsOthers m m' nodes := by
  intro other ys h apart
  have same : ∀ x, OfNodes (nodesOf other ys) x → m' x = m x := fun x word => frame x (apart x word)
  exact ⟨⟨h.list.congr same, h.memory⟩, same⟩

theorem Represents.short (h : Represents m plist L) : L.length < 2 ^ 32 := by
  have nodes := @length_le_of_apart _ (2 ^ 29) h.list.apart h.memory
  simp only [nodesOf, List.length_append, List.length_cons] at nodes
  omega

/-- With one more element in the memory. -/
theorem Represents.more (h : Represents m plist L) (fresh : FreshNode plist L e) {L' : List Nat} (new : ∀ u ∈ L', u ∈ L ∨ u = e) :
    ∀ u ∈ nodesOf plist L', u + 8 ≤ 2 ^ 32 := by
  intro u mem
  simp only [nodesOf, List.mem_append, List.mem_cons] at mem
  obtain (rfl | mem) | rfl | none := mem
  · exact h.memory u (by simp [nodesOf])
  · obtain old | rfl := new u mem
    · exact h.memory u (by simp [nodesOf, old])
    · exact fresh.memory
  · exact h.memory _ (by simp [nodesOf])
  · cases none

theorem Represents.push (h : Represents m plist L) (fresh : FreshNode plist L e) :
    Represents (listPush m plist e) plist (e :: L) ∧ KeepsOthers m (listPush m plist e) (nodesOf plist (e :: L)) :=
  ⟨⟨h.list.push fresh.apart, h.more fresh fun _ mem => (List.mem_cons.1 mem).symm⟩,
    keepsOthers_of_frame fun _ out => listPush_frame h.list out⟩

theorem Represents.append (h : Represents m plist L) (fresh : FreshNode plist L e) :
    Represents (listAppend m plist e) plist (L ++ [e]) ∧ KeepsOthers m (listAppend m plist e) (nodesOf plist (L ++ [e])) :=
  ⟨⟨h.list.append fresh.apart, h.more fresh fun _ mem => by simpa using mem⟩,
    keepsOthers_of_frame fun _ out => listAppend_frame h.list out⟩

theorem Represents.remove (h : Represents m plist L) (mem : e ∈ L) :
    Represents (listRemove m e) plist (L.erase e) ∧ KeepsOthers m (listRemove m e) (nodesOf plist L) := by
  refine ⟨⟨h.list.remove mem, fun u node => h.memory u ?_⟩, keepsOthers_of_frame fun _ out => listRemove_frame h.list mem out⟩
  simp only [nodesOf, List.mem_append, List.mem_cons] at node ⊢
  exact node.imp_left fun inner => inner.imp_right List.mem_of_mem_erase

theorem Represents.pop (h : Represents m plist (e :: L)) :
    (listPop m plist).1 = e ∧ Represents (listPop m plist).2 plist L ∧ KeepsOthers m (listPop m plist).2 (nodesOf plist (e :: L)) := by
  have first : m (plist + 4) = e := (Linked.next h.list).1
  obtain ⟨list, others⟩ := h.remove (e := e) List.mem_cons_self
  rw [List.erase_cons_head] at list
  unfold listPop
  dsimp only
  rw [first]
  exact ⟨rfl, list, others⟩

end Sequences

/-- The operations of `list.c` are those on sequences, and leave all other lists alone. -/
theorem lists_refine {m : Mem} {plist : Nat} {L : List Nat} (h : Represents m plist L) :
    (∀ e, FreshNode plist L e →
      (Represents (listPush m plist e) plist (e :: L) ∧ KeepsOthers m (listPush m plist e) (nodesOf plist (e :: L))) ∧
      Represents (listAppend m plist e) plist (L ++ [e]) ∧ KeepsOthers m (listAppend m plist e) (nodesOf plist (L ++ [e]))) ∧
    (∀ e ∈ L, Represents (listRemove m e) plist (L.erase e) ∧ KeepsOthers m (listRemove m e) (nodesOf plist L)) ∧
    (∀ e rest, L = e :: rest →
      (listPop m plist).1 = e ∧ Represents (listPop m plist).2 plist rest ∧ KeepsOthers m (listPop m plist).2 (nodesOf plist L)) ∧
    (∀ e, elemFind m plist e = .ok (decide (e ∈ L))) ∧
    (∃ length, listLen m plist = .ok length ∧ length.toNat = L.length) ∧
    (listEmpty m plist = true ↔ L = []) ∧
    ∀ func arg, listTraversal m plist func arg = .ok ((L.find? (func · arg)).getD 0) := by
  refine ⟨fun e fresh => ⟨h.push fresh, h.append fresh⟩, fun e mem => h.remove mem, ?_, fun e => h.list.find h.short,
    ⟨_, h.list.len h.short, Nat.mod_eq_of_lt h.short⟩, h.list.empty_iff, h.list.traversal h.short⟩
  rintro e rest rfl
  exact h.pop

/-- Two lists: 200 and 300 at 96, and 600 at 500. -/
def twoLists : Mem :=
  listAppend (listAppend (listAppend (listInit (listInit (fun _ => 0) 96) 500) 500 600) 96 200) 96 300

theorem twoLists_represent : Represents twoLists 96 [200, 300] ∧ Represents twoLists 500 [600] := by
  refine ⟨⟨⟨?_, ?_⟩, by decide⟩, ⟨⟨?_, ?_⟩, by decide⟩⟩
  · simp only [nodesOf, List.cons_append, List.nil_append, List.isChain_cons_cons, List.isChain_singleton, Follows]
    decide
  · simp [nodesOf, NodesApart]
  · simp only [nodesOf, List.cons_append, List.nil_append, List.isChain_cons_cons, List.isChain_singleton, Follows]
    decide
  · simp [nodesOf, NodesApart]

/-- The list at 96 gives its elements back, and the one at 500 stays. -/
theorem lists_refine_two : (listPop twoLists 96).1 = 200 ∧ elemFind twoLists 96 300 = .ok true ∧
    Represents (listRemove twoLists 300) 96 [200] ∧ Represents (listRemove twoLists 300) 500 [600] := by
  obtain ⟨list, other⟩ := twoLists_represent
  obtain ⟨_, remove, pop, find, _⟩ := lists_refine list
  obtain ⟨left, others⟩ := remove 300 (by decide)
  refine ⟨(pop 200 [300] rfl).1, find 300, left, (others 500 [600] other fun x here there => ?_).1⟩
  obtain ⟨u, mem, isU⟩ := here
  obtain ⟨v, mem', isV⟩ := there
  simp only [nodesOf, List.mem_append, List.mem_cons, List.not_mem_nil, or_false] at mem mem'
  omega

end Sparrow
